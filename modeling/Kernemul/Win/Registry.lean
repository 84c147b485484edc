import Kernemul.Lib.Paths
import Mathlib.Data.Fin.Basic
import Mathlib.Data.List.AList
import Mathlib.Data.List.Sort
import Mathlib.Data.UInt

/-!
# The registry (`win_registry`)

The tree of keys is a flat map from normalised paths to key objects. `create_key` puts the missing ancestors
in, `delete_key` takes one path out, and `enumerate_subkeys` finds the children by cutting one component off
every longer path. The map is a tree as long as no key is deleted that has keys below it.
-/

namespace Kernemul.Registry

open Paths

/-- A `std::string`. -/
abbrev Str := List UInt8

def slash : UInt8 := 0x2f

structure RegistryValue where
  type : BitVec 32
  data : List UInt8
  deriving DecidableEq, Repr

/-- The map of keys, with the values of each key object. A path's entry is the number of its object, which
outlives the entry while a handle holds it. -/
structure State where
  keys : AList fun _ : Str => Nat
  values : Nat → AList fun _ : Str => RegistryValue
  next : Nat

def State.init : State where
  keys := ∅
  values := fun _ => ∅
  next := 0

def openKey (s : State) (path : Str) : Option Nat := s.keys.lookup path

/-- `keys_[path] = std::make_shared<win_registry_key>()`. -/
def State.makeKey (s : State) (path : Str) : State :=
  { s with keys := s.keys.insert path s.next, next := s.next + 1 }

/-- The loop of `create_key` over the separators of the path. -/
def State.makeAncestors (s : State) (paths : List Str) : State :=
  paths.foldl (fun s ancestor => if ancestor ∈ s.keys then s else s.makeKey ancestor) s

def createKey (s : State) (path : Str) : Nat × State :=
  match openKey s path with
  | some key => (key, s)
  | none =>
    let s := s.makeAncestors (ancestors slash path)
    (s.next, s.makeKey path)

def deleteKey (s : State) (path : Str) : Bool × State :=
  (decide (path ∈ s.keys), { s with keys := s.keys.erase path })

/-- The names are collected in a `std::set`, so they come out in order and once each. -/
def enumerateSubkeys (s : State) (parent : Str) : List Str :=
  (s.keys.keys.filterMap (childOf slash parent)).dedup.insertionSort (· ≤ ·)

/-! ### Values -/

def State.setValues (s : State) (key : Nat) (values : AList fun _ : Str => RegistryValue) : State :=
  { s with values := fun k => if k = key then values else s.values k }

def setValue (s : State) (key : Nat) (name : Str) (type : BitVec 32) (data : List UInt8) : State :=
  s.setValues key ((s.values key).insert name ⟨type, data⟩)

def queryValue (s : State) (key : Nat) (name : Str) : Option RegistryValue :=
  (s.values key).lookup name

def deleteValue (s : State) (key : Nat) (name : Str) : Bool × State :=
  (decide (name ∈ s.values key), s.setValues key ((s.values key).erase name))

/-- A value reads back as it was last written, and no other value is touched. -/
theorem queryValue_setValue (s : State) (key key' : Nat) (name name' : Str) (type : BitVec 32)
    (data : List UInt8) :
    queryValue (setValue s key name type data) key' name' =
      if key' = key ∧ name' = name then some ⟨type, data⟩ else queryValue s key' name' := by
  unfold queryValue setValue State.setValues
  by_cases hk : key' = key
  · subst hk
    simp only [if_pos, true_and]
    by_cases hn : name' = name
    · rw [if_pos hn, hn, AList.lookup_insert]
    · rw [if_neg hn, AList.lookup_insert_ne hn]
  · simp only [hk, false_and, if_false]

/-! ## Runs -/

inductive Call
  | createKey (path : Str)
  | setValue (key : Nat) (name : Str) (type : BitVec 32) (data : List UInt8)
  | deleteValue (key : Nat) (name : Str)
  | deleteKey (path : Str)
  deriving DecidableEq, Repr

def step (s : State) : Call → State
  | .createKey path => (createKey s path).2
  | .setValue key name type data => setValue s key name type data
  | .deleteValue key name => (deleteValue s key name).2
  | .deleteKey path => (deleteKey s path).2

def after (calls : List Call) : State := calls.foldl step State.init

theorem after_append (calls : List Call) (call : Call) :
    after (calls ++ [call]) = step (after calls) call := by
  rw [after, after, List.foldl_append, List.foldl_cons, List.foldl_nil]

/-! ## The tree -/

def State.paths (s : State) : Set Str := fun p => p ∈ s.keys

/-- The keys are a tree: each has its ancestors, a key's subkeys are enumerated without repetition and are the
names under which a key can be opened below it, and nothing is left below a path without a key. -/
structure Consistent (s : State) : Prop where
  closed : ∀ p, openKey s p ≠ none → ∀ q, Below slash q p → openKey s q ≠ none
  subkeys : ∀ p, openKey s p ≠ none → (enumerateSubkeys s p).Nodup ∧
    ∀ n, n ∈ enumerateSubkeys s p ↔ slash ∉ n ∧ openKey s (p ++ slash :: n) ≠ none
  orphanless : ∀ p, openKey s p = none → enumerateSubkeys s p = [] ∧
    ∀ q, Below slash p q → openKey s q = none

variable {s : State}

theorem openKey_ne_none {p : Str} : openKey s p ≠ none ↔ p ∈ s.paths := by
  rw [openKey, Ne, AList.lookup_eq_none, not_not]
  rfl

theorem mem_enumerateSubkeys {p n : Str} :
    n ∈ enumerateSubkeys s p ↔ ∃ k ∈ s.paths, childOf slash p k = some n := by
  rw [enumerateSubkeys, List.mem_insertionSort, List.mem_dedup, List.mem_filterMap]
  rfl

theorem nodup_enumerateSubkeys (s : State) (p : Str) : (enumerateSubkeys s p).Nodup :=
  (List.perm_insertionSort _ _).nodup_iff.mpr (List.nodup_dedup _)

theorem enumerateSubkeys_eq_nil {p : Str} :
    enumerateSubkeys s p = [] ↔ ∀ k ∈ s.paths, ¬ Below slash p k := by
  rw [List.eq_nil_iff_forall_not_mem]
  constructor
  · intro h k hk hbelow
    obtain ⟨n, hn⟩ := Option.ne_none_iff_exists'.mp fun hnone => childOf_eq_none.mp hnone hbelow
    exact h n (mem_enumerateSubkeys.mpr ⟨k, hk, hn⟩)
  · intro h n hn
    obtain ⟨k, hk, hchild⟩ := mem_enumerateSubkeys.mp hn
    obtain ⟨r, hr, -⟩ := childOf_eq_some.mp hchild
    exact h k hk ⟨r, hr⟩

theorem consistent_iff_closed : Consistent s ↔ PrefixClosed slash s.paths := by
  constructor
  · intro h p hp q hq
    exact openKey_ne_none.mp (h.closed p (openKey_ne_none.mpr hp) q hq)
  · intro h
    refine ⟨fun p hp q hq => ?_, fun p _ => ⟨nodup_enumerateSubkeys s p, fun n => ?_⟩, fun p hp => ?_⟩
    · exact openKey_ne_none.mpr (h p (openKey_ne_none.mp hp) q hq)
    · rw [mem_enumerateSubkeys, h.child_iff, openKey_ne_none]
    · have hnot : p ∉ s.paths := fun hmem => openKey_ne_none.mpr hmem hp
      have hleaf : ∀ k ∈ s.paths, ¬ Below slash p k := fun k hk hbelow => hnot (h k hk p hbelow)
      refine ⟨enumerateSubkeys_eq_nil.mpr hleaf, fun q hq => ?_⟩
      by_contra hne
      exact hleaf q (openKey_ne_none.mp hne) hq

/-! ## What the calls do to the paths -/

theorem paths_makeKey (s : State) (path k : Str) :
    k ∈ (s.makeKey path).paths ↔ k = path ∨ k ∈ s.paths :=
  AList.mem_insert s.keys

theorem paths_makeAncestors (s : State) (paths : List Str) (k : Str) :
    k ∈ (s.makeAncestors paths).paths ↔ k ∈ paths ∨ k ∈ s.paths := by
  unfold State.makeAncestors
  induction paths generalizing s with
  | nil => simp
  | cons path paths ih =>
    rw [List.foldl_cons, ih, List.mem_cons]
    split
    · rename_i hmem
      have : k = path → k ∈ s.paths := fun heq => heq ▸ hmem
      tauto
    · rw [paths_makeKey]
      tauto

theorem createKey_closed (h : PrefixClosed slash s.paths) (path : Str) :
    PrefixClosed slash (createKey s path).2.paths := by
  unfold createKey
  split
  · exact h
  · have hpaths : ((s.makeAncestors (ancestors slash path)).makeKey path).paths =
        fun k => k = path ∨ k ∈ ancestors slash path ∨ k ∈ s.paths :=
      Set.ext fun k => by
        rw [paths_makeKey, paths_makeAncestors]
        rfl
    rw [hpaths]
    exact h.insert path

theorem deleteKey_closed_iff (h : PrefixClosed slash s.paths) (path : Str) :
    PrefixClosed slash (deleteKey s path).2.paths ↔ enumerateSubkeys s path = [] := by
  have hpaths : (deleteKey s path).2.paths = fun k => k ≠ path ∧ k ∈ s.paths :=
    Set.ext fun k => AList.mem_erase
  rw [hpaths, h.erase_iff, enumerateSubkeys_eq_nil]

def DeletesLeaf (s : State) : Call → Prop
  | .deleteKey path => enumerateSubkeys s path = []
  | _ => True

/-- From a tree, a call leads to a tree exactly when what it deletes is a leaf. -/
theorem step_consistent_iff (h : Consistent s) (call : Call) :
    Consistent (step s call) ↔ DeletesLeaf s call := by
  rw [consistent_iff_closed] at h ⊢
  cases call with
  | createKey path => exact ⟨fun _ => trivial, fun _ => createKey_closed h path⟩
  | setValue => exact ⟨fun _ => trivial, fun _ => h⟩
  | deleteValue => exact ⟨fun _ => trivial, fun _ => h⟩
  | deleteKey path => exact deleteKey_closed_iff h path

theorem init_consistent : Consistent State.init :=
  consistent_iff_closed.mpr fun p hp => absurd hp (AList.notMem_empty p)

/-- **The keys are a tree throughout a run exactly when every key it deletes is a leaf.** -/
theorem consistent_iff_leaves (calls : List Call) :
    (∀ done, done <+: calls → Consistent (after done)) ↔
      ∀ done call, done ++ [call] <+: calls → DeletesLeaf (after done) call := by
  constructor
  · intro h done call hpre
    have hstep := h _ hpre
    rw [after_append] at hstep
    exact (step_consistent_iff (h done ((List.prefix_append _ _).trans hpre)) call).mp hstep
  · intro h done
    -- on the calls made so far
    induction done using List.reverseRecOn with
    | nil => exact fun _ => init_consistent
    | append_singleton done call ih =>
      intro hpre
      rw [after_append]
      exact (step_consistent_iff (ih ((List.prefix_append _ _).trans hpre)) call).mpr
        (h done call hpre)

/-- The key `a` is deleted, the key `a/b` below it is still opened and enumerated. -/
theorem delete_leaves_orphan :
    ¬ Consistent (after [.createKey [0x61, slash, 0x62], .deleteKey [0x61]]) := by
  intro h
  have hgone : openKey (after [.createKey [0x61, slash, 0x62], .deleteKey [0x61]]) [0x61] = none := by
    decide
  have horphan := (h.orphanless _ hgone).2 [0x61, slash, 0x62] ⟨[0x62], rfl⟩
  exact absurd horphan (by decide)

end Kernemul.Registry
