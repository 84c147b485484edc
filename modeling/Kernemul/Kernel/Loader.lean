import Kernemul.Kernel.Relocation
import Mathlib.Data.Finset.Card
import Mathlib.Data.List.Perm.Basic

/-!
# Loading modules (`map_img`, `find_or_load`, `win_kernel_proc::load_module`)

A module of the kernel is mapped together with those it imports from, and with those that their exports forward to.
It is registered before its imports are resolved, so images that import each other are mapped once. When an import is
not found, nothing is given back, and the module stays in the table with what was bound so far.

The files are a parameter, with what the PE library reads of each once it is laid out; so are the addresses that the
address space gives, and the order in which the table of the modules is gone through. What `map_img` does to the bytes
of one image is in `Relocation`, which module a resolution ends at in `Exports`.
-/

namespace Kernemul.Loader

open Text
open Exports (Addr dot hash fromChars)
open Exports.Process (depth)
open Relocation (Import)

structure Image where
  size : Nat
  exports : Exports.Image
  imports : List Import

/-- `proc_module`, with what its image is read for. -/
structure ProcModule extends Exports.Module where
  lookupName : Str
  size : Nat
  imports : List Import

structure Guest where
  /-- `open_system_image` and `pe_virtual_image`. -/
  openSystemImage : Str → Option Image
  /-- What the address space gives for a size after the ranges that it gave; zero when it fails. -/
  alloc : List (Addr × Nat) → Nat → Addr
  /-- The order of the table. -/
  iterate : List ProcModule → List ProcModule
  iterate_perm : ∀ l, (iterate l).Perm l

/-- `iatSlots` are the words that were written to the import address tables. -/
structure State where
  modules : List ProcModule := []
  allocs : List (Addr × Nat) := []
  iatSlots : Addr → Option Addr := fun _ => none

def asciiLower (s : Str) : Str := s.map lower

def State.findModule (s : State) (name : Str) : Option ProcModule :=
  s.modules.find? fun m => m.lookupName = asciiLower name

def Guest.findModuleByStem (g : Guest) (s : State) (stem : Str) : Option ProcModule :=
  let key := asciiLower stem
  (g.iterate s.modules).find? fun m => m.lookupName[key.length]? = some dot ∧ key.isPrefixOf m.lookupName

def addModule (name : Str) (addr : Addr) (img : Image) : ProcModule where
  toModule := Exports.addModule name addr img.exports
  lookupName := asciiLower name
  size := img.size
  imports := img.imports

def State.register (s : State) (m : ProcModule) : State :=
  { s with modules := m :: s.modules.filter fun m' => m'.lookupName ≠ m.lookupName }

def State.place (s : State) (m : ProcModule) : State :=
  State.register { s with allocs := (m.addr, m.size) :: s.allocs } m

def State.writeSlot (s : State) (at' : Addr) (v : Addr) : State :=
  { s with iatSlots := Function.update s.iatSlots at' (some v) }

/-- A step of the loader; none when the loads nested in it do not come to an end. -/
abbrev Load (α : Type) := State → Option (α × State)

section
variable (g : Guest) (load : Str → Load (Option ProcModule))

def findOrLoad (name : Str) : Load (Option ProcModule) := fun s =>
  match s.findModule name with
  | some m => some (some m, s)
  | none => load name s

def findTarget (stem : Str) : Load (Option ProcModule) := fun s =>
  match g.findModuleByStem s stem with
  | some m => some (some m, s)
  | none => findOrLoad load (stem ++ ascii ['.', 'd', 'l', 'l']) s

/-- `resolve_export`, when it may follow so many forwarders yet. -/
def resolveExport : Nat → ProcModule → Str → Load (Option Addr)
  | left, m, sym, s =>
    match m.findExport sym with
    | some a => some (some a, s)
    | none =>
      let forward := m.findForward sym
      if forward = [] then some (none, s)
      else match left with
        | 0 => some (none, s)
        | left + 1 =>
          if dot ∉ forward then some (none, s)
          else
            let targetMod := forward.takeWhile (· ≠ dot)
            let targetSym := forward.drop (targetMod.length + 1)
            match findTarget g load targetMod s with
            | none => none
            | some (none, s) => some (none, s)
            | some (some target, s) =>
              if targetSym.head? = some hash then some ((fromChars targetSym.tail).bind target.findOrdinal, s)
              else resolveExport left target targetSym s

def importAddr (imp : Import) (dep : ProcModule) : Load (Option Addr) := fun s =>
  if imp.isOrdinal then some (dep.findOrdinal imp.ordinal, s)
  else resolveExport g load depth dep imp.importName s

def bindImports (addr : Addr) : List Import → Load Bool
  | [], s => some (true, s)
  | imp :: rest, s =>
    match findOrLoad load imp.moduleName s with
    | none => none
    | some (none, s) => some (false, s)
    | some (some dep, s) =>
      match importAddr g load imp dep s with
      | none => none
      | some (none, s) => some (false, s)
      | some (some a, s) => bindImports addr rest (s.writeSlot (addr + imp.iatSlot.toNat) a)

def mapImg (name : Str) (img : Image) (skipImports : Bool) : Load (Option ProcModule) := fun s =>
  let addr := g.alloc s.allocs img.size
  if addr = 0 then some (none, s)
  else
    let m := addModule name addr img
    if skipImports then some (some m, s.place m)
    else (bindImports g load addr img.imports (s.place m)).map fun r => (if r.1 then some m else none, r.2)

end

/-- `win_kernel_proc::load_module`, with so many loads nested in each other. -/
def loadModule (g : Guest) : Nat → Str → Load (Option ProcModule)
  | 0, _, _ => none
  | nested + 1, name, s =>
    match g.openSystemImage name with
    | none => some (none, s)
    | some img => mapImg g (loadModule g nested) name img false s

/-! ## What the modules provide -/

/-- A module of the table, or one that it forwards to, provides a symbol at an address. -/
inductive Provides (s : State) : ProcModule → Str → Addr → Prop
  | own {m : ProcModule} {sym : Str} {a : Addr} (h : m.findExport sym = some a) : Provides s m sym a
  | forwarder {m target : ProcModule} {sym stem targetSym : Str} {a : Addr}
      (h : m.findForward sym = stem ++ dot :: targetSym) (hstem : dot ∉ stem) (htarget : target ∈ s.modules)
      (hname : asciiLower stem ++ [dot] <+: target.lookupName) (hhash : targetSym.head? ≠ some hash)
      (ha : Provides s target targetSym a) : Provides s m sym a
  | ordinal {m target : ProcModule} {sym stem targetSym : Str} {a : Addr} {n : BitVec 32}
      (h : m.findForward sym = stem ++ dot :: targetSym) (hstem : dot ∉ stem) (htarget : target ∈ s.modules)
      (hname : asciiLower stem ++ [dot] <+: target.lookupName) (hhash : targetSym.head? = some hash)
      (hn : fromChars targetSym.tail = some n) (ha : target.findOrdinal n = some a) : Provides s m sym a

def BindsTo (s : State) (imp : Import) (a : Addr) : Prop :=
  ∃ dep ∈ s.modules, dep.lookupName = asciiLower imp.moduleName ∧
    if imp.isOrdinal then dep.findOrdinal imp.ordinal = some a else Provides s dep imp.importName a

def BoundTo (s : State) (m : ProcModule) (imp : Import) : Prop :=
  ∃ a, s.iatSlots (m.addr + imp.iatSlot.toNat) = some a ∧ BindsTo s imp a

def Bound (s : State) (m : ProcModule) : Prop := ∀ imp ∈ m.imports, BoundTo s m imp

def ProcModule.Holds (m : ProcModule) (a : Addr) : Prop := m.addr ≤ a ∧ a < m.addr + m.size

structure Image.WellFormed (img : Image) : Prop where
  inside : ∀ imp ∈ img.imports, imp.iatSlot.toNat + 8 ≤ img.size
  apart : img.imports.Pairwise fun imp imp' =>
    imp.iatSlot.toNat + 8 ≤ imp'.iatSlot.toNat ∨ imp'.iatSlot.toNat + 8 ≤ imp.iatSlot.toNat

/-- What the address space gives is apart from what it gave before. -/
def Guest.Apart (g : Guest) : Prop := ∀ used n, g.alloc used n ≠ 0 → ∀ r ∈ used,
  r.1 + r.2 ≤ g.alloc used n ∨ g.alloc used n + n ≤ r.1

structure Inv (s : State) : Prop where
  nodup : (s.modules.map (·.lookupName)).Nodup
  allocated : ∀ m ∈ s.modules, (m.addr, m.size) ∈ s.allocs
  disjoint : ∀ m ∈ s.modules, ∀ m' ∈ s.modules, m ≠ m' → ∀ a, m.Holds a → ¬ m'.Holds a
  inside : ∀ m ∈ s.modules, ∀ imp ∈ m.imports, m.Holds (m.addr + imp.iatSlot.toNat)

/-- The modules stay as they are, and the words outside of what is `own` and outside of the new modules too. -/
structure Grows (own : Addr → Prop) (s s' : State) : Prop where
  kept : ∀ m ∈ s.modules, m ∈ s'.modules
  slots : ∀ a, ¬ own a → (∀ m ∈ s'.modules, m ∉ s.modules → ¬ m.Holds a) → s'.iatSlots a = s.iatSlots a

/-- What a part of a load does; `ok` is that it found what it was to find. -/
structure Does (own : Addr → Prop) (s s' : State) (ok : Prop) : Prop where
  inv : Inv s'
  grows : Grows own s s'
  bound : ok → ∀ m ∈ s'.modules, m ∉ s.modules → Bound s' m
  /-- One allocation for each new module. -/
  once : ok → s'.allocs.length + s.modules.length = s.allocs.length + s'.modules.length

variable {g : Guest} {s s' s'' : State} {m m' : ProcModule} {own : Addr → Prop}

theorem Grows.refl (own : Addr → Prop) (s : State) : Grows own s s := ⟨fun _ h => h, fun _ _ _ => rfl⟩

theorem Grows.trans (h : Grows own s s') (h' : Grows own s' s'') : Grows own s s'' where
  kept m hm := h'.kept m (h.kept m hm)
  slots a hown hnew := by
    rw [h'.slots a hown fun m hm hm' => hnew m hm fun hold => hm' (h.kept m hold),
      h.slots a hown fun m hm => hnew m (h'.kept m hm)]

theorem Grows.mono {own' : Addr → Prop} (h : Grows own s s') (hown : ∀ a, own a → own' a) : Grows own' s s' where
  kept := h.kept
  slots a ha := h.slots a fun hown' => ha (hown a hown')

theorem Provides.grows {sym : Str} {a : Addr} (h : Provides s m sym a) (hgrows : Grows own s s') :
    Provides s' m sym a := by
  induction h with
  | own h => exact .own h
  | forwarder h hstem htarget hname hhash _ ih => exact .forwarder h hstem (hgrows.kept _ htarget) hname hhash ih
  | ordinal h hstem htarget hname hhash hn ha => exact .ordinal h hstem (hgrows.kept _ htarget) hname hhash hn ha

variable {imp : Import}

theorem BindsTo.grows {a : Addr} (h : BindsTo s imp a) (hgrows : Grows own s s') : BindsTo s' imp a := by
  obtain ⟨dep, hdep, hname, ha⟩ := h
  refine ⟨dep, hgrows.kept dep hdep, hname, ?_⟩
  split
  · rename_i hordinal
    rwa [if_pos hordinal] at ha
  · rename_i hordinal
    rw [if_neg hordinal] at ha
    exact ha.grows hgrows

/-- An import of a module that is bound stays bound: nothing else writes to its slot. -/
theorem BoundTo.grows (h : BoundTo s m imp) (hm : m ∈ s.modules) (himp : imp ∈ m.imports)
    (hgrows : Grows own s s') (hinv : Inv s') (hown : ∀ a, m.Holds a → ¬ own a) : BoundTo s' m imp := by
  obtain ⟨a, hslot, hbinds⟩ := h
  have hinside := hinv.inside m (hgrows.kept m hm) imp himp
  refine ⟨a, ?_, hbinds.grows hgrows⟩
  rw [hgrows.slots _ (hown _ hinside), hslot]
  intro m' hm' hnew hholds
  exact hinv.disjoint m (hgrows.kept m hm) m' hm' (fun heq => hnew (heq ▸ hm)) _ hinside hholds

theorem Bound.grows (h : Bound s m) (hm : m ∈ s.modules) (hgrows : Grows own s s') (hinv : Inv s')
    (hown : ∀ a, m.Holds a → ¬ own a) : Bound s' m := fun imp himp =>
  (h imp himp).grows hm himp hgrows hinv hown

theorem Does.refl (hinv : Inv s) (own : Addr → Prop) (ok : Prop) : Does own s s ok :=
  ⟨hinv, Grows.refl own s, fun _ _ hm hm' => absurd hm hm', fun _ => rfl⟩

theorem Does.trans {ok ok' : Prop} (h : Does own s s' ok) (h' : Does own s' s'' ok')
    (hown : ∀ m ∈ s'.modules, m ∉ s.modules → ∀ a, m.Holds a → ¬ own a) : Does own s s'' (ok ∧ ok') where
  inv := h'.inv
  grows := h.grows.trans h'.grows
  bound hok m hm hnew := by
    by_cases hm' : m ∈ s'.modules
    · exact (h.bound hok.1 m hm' hnew).grows hm' h'.grows h'.inv (hown m hm' hnew)
    · exact h'.bound hok.2 m hm hm'
  once hok := by
    have hfirst := h.once hok.1
    have hsecond := h'.once hok.2
    omega

theorem Does.weaken {ok ok' : Prop} (h : Does own s s' ok) (hok : ok' → ok) : Does own s s' ok' :=
  ⟨h.inv, h.grows, fun hok' => h.bound (hok hok'), fun hok' => h.once (hok hok')⟩

/-! ## The parts of a load -/

def noneOwn : Addr → Prop := fun _ => False

def Loads (load : Str → Load (Option ProcModule)) : Prop :=
  ∀ name s r s', Inv s → s.findModule name = none → load name s = some (r, s') →
    Does noneOwn s s' (r.isSome = true) ∧ ∀ m, r = some m → m ∈ s'.modules ∧ m.lookupName = asciiLower name

variable {name : Str}

theorem State.findModule_some (h : s.findModule name = some m) :
    m ∈ s.modules ∧ m.lookupName = asciiLower name :=
  ⟨List.mem_of_find?_eq_some h, by simpa using List.find?_some h⟩

variable {load : Str → Load (Option ProcModule)}

variable {r : Option ProcModule}

theorem findOrLoad_does (hload : Loads load) (hinv : Inv s)
    (h : findOrLoad load name s = some (r, s')) : Does noneOwn s s' (r.isSome = true) ∧
      ∀ m, r = some m → m ∈ s'.modules ∧ m.lookupName = asciiLower name := by
  unfold findOrLoad at h
  cases hfind : s.findModule name with
  | none =>
    rw [hfind] at h
    exact hload name s r s' hinv hfind h
  | some m =>
    rw [hfind] at h
    obtain ⟨rfl, rfl⟩ := h
    refine ⟨Does.refl hinv noneOwn _, ?_⟩
    rintro m' ⟨⟩
    exact State.findModule_some hfind

variable {stem : Str}

theorem Guest.findModuleByStem_some (h : g.findModuleByStem s stem = some m) :
    m ∈ s.modules ∧ asciiLower stem ++ [dot] <+: m.lookupName := by
  have hmem := (g.iterate_perm s.modules).mem_iff.mp (List.mem_of_find?_eq_some h)
  have hname := List.find?_some h
  simp only [decide_eq_true_eq] at hname
  obtain ⟨hdot, rest, hrest⟩ := And.imp_right List.isPrefixOf_iff_prefix.mp hname
  refine ⟨hmem, ?_⟩
  cases rest with
  | nil =>
    rw [← hrest, List.append_nil, List.getElem?_eq_none (Nat.le_refl _)] at hdot
    cases hdot
  | cons c rest =>
    rw [← hrest, List.getElem?_append_right (Nat.le_refl _), Nat.sub_self, List.getElem?_cons_zero] at hdot
    obtain rfl := Option.some.inj hdot
    exact ⟨rest, by rw [← hrest, List.append_assoc]; rfl⟩

theorem findTarget_does (hload : Loads load) (hinv : Inv s)
    (h : findTarget g load stem s = some (r, s')) : Does noneOwn s s' (r.isSome = true) ∧
      ∀ m, r = some m → m ∈ s'.modules ∧ asciiLower stem ++ [dot] <+: m.lookupName := by
  unfold findTarget at h
  cases hfind : g.findModuleByStem s stem with
  | none =>
    rw [hfind] at h
    obtain ⟨hdoes, hname⟩ := findOrLoad_does hload hinv h
    refine ⟨hdoes, fun m hm => ?_⟩
    obtain ⟨hmem, hlookup⟩ := hname m hm
    have happend : asciiLower (stem ++ ascii ['.', 'd', 'l', 'l']) =
        asciiLower stem ++ asciiLower (ascii ['.', 'd', 'l', 'l']) := List.map_append
    refine ⟨hmem, asciiLower (ascii ['d', 'l', 'l']), ?_⟩
    rw [hlookup, happend, List.append_assoc]
    rfl
  | some m =>
    rw [hfind] at h
    obtain ⟨rfl, rfl⟩ := h
    refine ⟨Does.refl hinv noneOwn _, ?_⟩
    rintro m' ⟨⟩
    exact g.findModuleByStem_some hfind

theorem forward_eq {forward : Str} (h : dot ∈ forward) : forward = forward.takeWhile (· ≠ dot) ++
    dot :: forward.drop ((forward.takeWhile (· ≠ dot)).length + 1) := by
  induction forward with
  | nil => cases h
  | cons c forward ih =>
    by_cases hc : c = dot
    · subst hc
      simp
    · have hmem : dot ∈ forward := (List.mem_cons.mp h).resolve_left (Ne.symm hc)
      rw [List.takeWhile_cons_of_pos (by simpa using hc), List.cons_append, List.length_cons, List.drop_succ_cons]
      exact congrArg (c :: ·) (ih hmem)

theorem dot_notMem_takeWhile (forward : Str) : dot ∉ forward.takeWhile (· ≠ dot) := fun h => by
  simpa using List.mem_takeWhile_imp h

/-- What follows a forwarder, once and for all: the module it names, then the symbol or the ordinal. -/
def followForward (g : Guest) (load : Str → Load (Option ProcModule)) (left : Nat) (stem targetSym : Str) :
    Load (Option Addr) := fun s =>
  match findTarget g load stem s with
  | none => none
  | some (none, s) => some (none, s)
  | some (some target, s) =>
    if targetSym.head? = some hash then some ((fromChars targetSym.tail).bind target.findOrdinal, s)
    else resolveExport g load left target targetSym s

theorem resolveExport_cases (g : Guest) (left : Nat) (m : ProcModule) (sym : Str) :
    (∃ a, m.findExport sym = some a ∧ ∀ load s, resolveExport g load left m sym s = some (some a, s)) ∨
    (∀ load s, resolveExport g load left m sym s = some (none, s)) ∨
    ∃ left' stem targetSym, left = left' + 1 ∧ m.findForward sym = stem ++ dot :: targetSym ∧ dot ∉ stem ∧
      ∀ load s, resolveExport g load left m sym s = followForward g load left' stem targetSym s := by
  cases hexport : m.findExport sym with
  | some a =>
    left
    refine ⟨a, rfl, fun load s => ?_⟩
    cases left <;> rw [resolveExport, hexport]
  | none =>
    right
    by_cases hforward : m.findForward sym = []
    · left
      intro load s
      cases left <;> rw [resolveExport, hexport] <;> exact if_pos hforward
    · cases left with
      | zero =>
        left
        intro load s
        rw [resolveExport, hexport]
        exact if_neg hforward
      | succ left =>
        by_cases hdot : dot ∈ m.findForward sym
        · right
          refine ⟨left, _, _, rfl, forward_eq hdot, dot_notMem_takeWhile _, fun load s => ?_⟩
          rw [resolveExport, hexport]
          exact (if_neg hforward).trans (if_neg (not_not_intro hdot))
        · left
          intro load s
          rw [resolveExport, hexport]
          exact (if_neg hforward).trans (if_pos hdot)

theorem resolveExport_does {left : Nat} {sym : Str} {r : Option Addr} (hload : Loads load) (hinv : Inv s)
    (h : resolveExport g load left m sym s = some (r, s')) :
    Does noneOwn s s' (r.isSome = true) ∧ ∀ a, r = some a → Provides s' m sym a := by
  induction left using Nat.strong_induction_on generalizing m sym s with
  | _ left ih =>
    obtain ⟨a, hexport, heq⟩ | heq | ⟨left', stem, targetSym, rfl, hforward, hstem, heq⟩ :=
      resolveExport_cases g left m sym
    · obtain ⟨rfl, rfl⟩ := Option.some.inj ((heq load s).symm.trans h)
      refine ⟨Does.refl hinv noneOwn _, ?_⟩
      rintro a' ⟨⟩
      exact .own hexport
    · obtain ⟨rfl, rfl⟩ := Option.some.inj ((heq load s).symm.trans h)
      exact ⟨Does.refl hinv noneOwn _, fun _ => nofun⟩
    · rw [heq, followForward] at h
      split at h
      · cases h
      · rename_i s₁ htarget
        obtain ⟨rfl, rfl⟩ := Option.some.inj h
        obtain ⟨hdoes, -⟩ := findTarget_does hload hinv htarget
        exact ⟨hdoes, fun _ => nofun⟩
      · rename_i target s₁ htarget
        obtain ⟨hdoes, hname⟩ := findTarget_does hload hinv htarget
        obtain ⟨hmem, hprefix⟩ := hname target rfl
        split at h
        · rename_i hhash
          obtain ⟨rfl, rfl⟩ := Option.some.inj h
          refine ⟨hdoes.weaken fun _ => rfl, fun a ha => ?_⟩
          obtain ⟨n, hn, ha⟩ := Option.bind_eq_some_iff.mp ha
          exact .ordinal hforward hstem hmem hprefix hhash hn ha
        · rename_i hhash
          obtain ⟨hdoes', hprovides⟩ := ih left' (Nat.lt_succ_self left') hdoes.inv h
          refine ⟨(hdoes.trans hdoes' fun _ _ _ _ _ => id).weaken fun hok => ⟨rfl, hok⟩, fun a ha => ?_⟩
          exact .forwarder hforward hstem (hdoes'.grows.kept target hmem) hprefix hhash (hprovides a ha)

theorem importAddr_does {r : Option Addr} (hload : Loads load) (hinv : Inv s)
    (h : importAddr g load imp m s = some (r, s')) : Does noneOwn s s' (r.isSome = true) ∧ ∀ a, r = some a →
      if imp.isOrdinal then m.findOrdinal imp.ordinal = some a else Provides s' m imp.importName a := by
  unfold importAddr at h
  split at h
  · rename_i hordinal
    obtain ⟨rfl, rfl⟩ := Option.some.inj h
    refine ⟨Does.refl hinv noneOwn _, fun a ha => ?_⟩
    rwa [if_pos hordinal]
  · rename_i hordinal
    obtain ⟨hdoes, hprovides⟩ := resolveExport_does hload hinv h
    refine ⟨hdoes, fun a ha => ?_⟩
    rw [if_neg hordinal]
    exact hprovides a ha

theorem Does.widen {ok : Prop} (h : Does noneOwn s s' ok) (own : Addr → Prop) : Does own s s' ok :=
  ⟨h.inv, h.grows.mono fun _ => False.elim, h.bound, h.once⟩

theorem writeSlot_does (own : Addr → Prop) {at' : Addr} (v : Addr) (hinv : Inv s) (hat : own at') (ok : Prop) :
    Does own s (s.writeSlot at' v) ok where
  inv := ⟨hinv.nodup, hinv.allocated, hinv.disjoint, hinv.inside⟩
  grows := ⟨fun _ h => h, fun a ha _ => Function.update_of_ne (fun heq : a = at' => ha (heq ▸ hat)) _ _⟩
  bound _ _ hm hm' := absurd hm hm'
  once _ := rfl

theorem bindImports_does {before rest : List Import} {ok : Bool} (hload : Loads load) (hinv : Inv s)
    (hm : m ∈ s.modules) (himports : m.imports = before ++ rest)
    (hapart : (m.imports.map (·.iatSlot.toNat)).Nodup) (hbefore : ∀ imp ∈ before, BoundTo s m imp)
    (h : bindImports g load m.addr rest s = some (ok, s')) :
    Does m.Holds s s' (ok = true) ∧ (ok = true → Bound s' m) := by
  induction rest generalizing before s with
  | nil =>
    obtain ⟨rfl, rfl⟩ := Option.some.inj h
    refine ⟨Does.refl hinv m.Holds _, fun _ imp himp => hbefore imp ?_⟩
    rwa [himports, List.append_nil] at himp
  | cons imp rest ih =>
    have himp : imp ∈ m.imports := himports ▸ List.mem_append_right _ List.mem_cons_self
    unfold bindImports at h
    split at h
    · cases h
    · rename_i s₁ hdep
      obtain ⟨rfl, rfl⟩ := Option.some.inj h
      exact ⟨((findOrLoad_does hload hinv hdep).1.widen m.Holds).weaken nofun, nofun⟩
    · rename_i dep s₁ hdep
      obtain ⟨hdoes₁, hname⟩ := findOrLoad_does hload hinv hdep
      obtain ⟨hmem, hlookup⟩ := hname dep rfl
      split at h
      · cases h
      · rename_i s₂ haddr
        obtain ⟨rfl, rfl⟩ := Option.some.inj h
        have hdoes₂ := (importAddr_does hload hdoes₁.inv haddr).1
        exact ⟨((hdoes₁.trans hdoes₂ fun _ _ _ _ _ => id).widen m.Holds).weaken nofun, nofun⟩
      · rename_i a s₂ haddr
        obtain ⟨hdoes₂, haddr⟩ := importAddr_does hload hdoes₁.inv haddr
        have hdoes := hdoes₁.trans hdoes₂ fun _ _ _ _ _ => id
        have hm₂ := hdoes.grows.kept m hm
        have hinside := hdoes.inv.inside m hm₂ imp himp
        have hwrite := writeSlot_does m.Holds a hdoes.inv hinside True
        have hbinds : BindsTo s₂ imp a := ⟨dep, hdoes₂.grows.kept dep hmem, hlookup, haddr a rfl⟩
        have hbound : ∀ imp' ∈ before ++ [imp], BoundTo (s₂.writeSlot (m.addr + imp.iatSlot.toNat) a) m imp' := by
          intro imp' himp'
          rcases List.mem_append.mp himp' with hold | hnew
          · have hmem' : imp' ∈ m.imports := himports ▸ List.mem_append_left _ hold
            obtain ⟨a', hslot, hbinds'⟩ := (hbefore imp' hold).grows hm hmem' hdoes.grows hdoes.inv fun _ _ => id
            refine ⟨a', ?_, hbinds'.grows hwrite.grows⟩
            rw [← hslot]
            refine Function.update_of_ne (fun heq => ?_) _ _
            rw [himports, List.map_append, List.nodup_append] at hapart
            exact hapart.2.2 _ (List.mem_map_of_mem hold) _ (List.mem_map_of_mem List.mem_cons_self)
              (Nat.add_left_cancel heq)
          · obtain rfl := List.mem_singleton.mp hnew
            exact ⟨a, Function.update_self .., hbinds.grows hwrite.grows⟩
        obtain ⟨hdoes', hbound'⟩ := ih hwrite.inv hm₂ (by rw [himports, List.append_assoc]; rfl) hbound h
        have hothers : ∀ m' ∈ s₂.modules, m' ∉ s.modules → ∀ a, m'.Holds a → ¬ m.Holds a := fun m' hm' hnew =>
          hdoes.inv.disjoint m' hm' m hm₂ fun heq => hnew (heq ▸ hm)
        have hfirst := (hdoes.widen m.Holds).trans hwrite hothers
        exact ⟨(hfirst.trans hdoes' hothers).weaken fun hok => ⟨⟨⟨rfl, rfl⟩, trivial⟩, hok⟩, hbound'⟩

/-! ## Whole loads -/

theorem State.findModule_none (h : s.findModule name = none) :
    ∀ m ∈ s.modules, m.lookupName ≠ asciiLower name := by
  simpa [State.findModule] using h

theorem State.place_modules (h : s.findModule name = none) (hname : m.lookupName = asciiLower name) :
    (s.place m).modules = m :: s.modules := by
  refine congrArg (m :: ·) (List.filter_eq_self.mpr fun m' hm' => ?_)
  rw [hname]
  exact decide_eq_true (State.findModule_none h m' hm')

variable {img : Image}

theorem Inv.place (hinv : Inv s) (hapart : g.Apart) (hwell : img.WellFormed)
    (hname : s.findModule name = none) (haddr : g.alloc s.allocs img.size ≠ 0) :
    Inv (s.place (addModule name (g.alloc s.allocs img.size) img)) := by
  have hmodules : (s.place (addModule name (g.alloc s.allocs img.size) img)).modules =
      addModule name (g.alloc s.allocs img.size) img :: s.modules := State.place_modules hname rfl
  have hnew : ∀ m ∈ s.modules, m.addr + m.size ≤ g.alloc s.allocs img.size ∨
      g.alloc s.allocs img.size + img.size ≤ m.addr := fun m hm =>
    hapart s.allocs img.size haddr (m.addr, m.size) (hinv.allocated m hm)
  refine ⟨?_, ?_, ?_, ?_⟩ <;> rw [hmodules]
  · rw [List.map_cons, List.nodup_cons]
    refine ⟨fun h => ?_, hinv.nodup⟩
    obtain ⟨m, hm, hlookup⟩ := List.mem_map.mp h
    exact State.findModule_none hname m hm hlookup
  · rintro m hm
    rcases List.mem_cons.mp hm with rfl | hm
    · exact List.mem_cons_self
    · exact List.mem_cons_of_mem _ (hinv.allocated m hm)
  · rintro m hm m' hm' hne a ⟨hle, hlt⟩ ⟨hle', hlt'⟩
    rcases List.mem_cons.mp hm with rfl | hm <;> rcases List.mem_cons.mp hm' with rfl | hm'
    · exact hne rfl
    · rcases hnew m' hm' with h | h
      · exact absurd (hlt'.trans_le h) (Nat.not_lt.mpr hle)
      · exact absurd (hlt.trans_le h) (Nat.not_lt.mpr hle')
    · rcases hnew m hm with h | h
      · exact absurd (hlt.trans_le h) (Nat.not_lt.mpr hle')
      · exact absurd (hlt'.trans_le h) (Nat.not_lt.mpr hle)
    · exact hinv.disjoint m hm m' hm' hne a ⟨hle, hlt⟩ ⟨hle', hlt'⟩
  · rintro m hm imp himp
    rcases List.mem_cons.mp hm with rfl | hm
    · have hin := hwell.inside imp himp
      exact ⟨Nat.le_add_right _ _, Nat.add_lt_add_left (show imp.iatSlot.toNat < img.size by omega) _⟩
    · exact hinv.inside m hm imp himp

theorem Image.WellFormed.nodup (h : img.WellFormed) :
    (img.imports.map (·.iatSlot.toNat)).Nodup := by
  refine List.pairwise_map.mpr (h.apart.imp fun {imp imp'} hapart heq => ?_)
  omega

theorem mapImg_does (hload : Loads load) (hinv : Inv s)
    (hapart : g.Apart) (hwell : img.WellFormed) (hname : s.findModule name = none)
    (h : mapImg g load name img false s = some (r, s')) : Does noneOwn s s' (r.isSome = true) ∧
      ∀ m, r = some m → m ∈ s'.modules ∧ m.lookupName = asciiLower name := by
  unfold mapImg at h
  dsimp only at h
  split at h
  · obtain ⟨rfl, rfl⟩ := Option.some.inj h
    exact ⟨Does.refl hinv noneOwn _, fun _ => nofun⟩
  · rename_i haddr
    rw [if_neg Bool.false_ne_true] at h
    obtain ⟨⟨ok, s₁⟩, hbind, hr⟩ := Option.map_eq_some_iff.mp h
    obtain ⟨rfl, rfl⟩ := Prod.mk.inj hr
    let m := addModule name (g.alloc s.allocs img.size) img
    have hmodules : (s.place m).modules = m :: s.modules := State.place_modules hname rfl
    have hm : m ∈ (s.place m).modules := hmodules ▸ List.mem_cons_self
    have hnew : m ∉ s.modules := fun h => State.findModule_none hname m h rfl
    obtain ⟨hdoes, hbound⟩ := bindImports_does hload (hinv.place hapart hwell hname haddr) hm
      (show m.imports = [] ++ img.imports from rfl) hwell.nodup (fun _ => nofun) hbind
    have hkept : ∀ m' ∈ s.modules, m' ∈ s₁.modules := fun m' hm' =>
      hdoes.grows.kept m' (hmodules ▸ List.mem_cons_of_mem m hm')
    refine ⟨⟨hdoes.inv, ⟨hkept, ?_⟩, ?_, ?_⟩, ?_⟩
    · intro a _ hothers
      exact hdoes.grows.slots a (hothers m (hdoes.grows.kept m hm) hnew) fun m' hm' hnew' =>
        hothers m' hm' fun hold => hnew' (hmodules ▸ List.mem_cons_of_mem m hold)
    · intro hok m' hm' hnew'
      cases ok with
      | false => cases hok
      | true =>
        by_cases hold : m' ∈ (s.place m).modules
        · rw [hmodules] at hold
          obtain rfl := (List.mem_cons.mp hold).resolve_right hnew'
          exact hbound rfl
        · exact hdoes.bound rfl m' hm' hold
    · intro hok
      cases ok with
      | false => cases hok
      | true =>
        have honce : s₁.allocs.length + (s.place m).modules.length =
            (s.allocs.length + 1) + s₁.modules.length := hdoes.once rfl
        rw [hmodules, List.length_cons] at honce
        show s₁.allocs.length + s.modules.length = s.allocs.length + s₁.modules.length
        omega
    · rintro m' hm'
      cases ok with
      | false => cases hm'
      | true =>
        obtain rfl := Option.some.inj hm'
        exact ⟨hdoes.grows.kept m hm, rfl⟩

theorem loadModule_loads (hapart : g.Apart) (hwell : ∀ name img, g.openSystemImage name = some img → img.WellFormed)
    (nested : Nat) : Loads (loadModule g nested) := by
  induction nested with
  | zero => exact fun _ _ _ _ _ _ h => nomatch h
  | succ nested ih =>
    intro name s r s' hinv hname h
    rw [loadModule] at h
    split at h
    · obtain ⟨rfl, rfl⟩ := Option.some.inj h
      exact ⟨Does.refl hinv noneOwn _, fun _ => nofun⟩
    · rename_i img himg
      exact mapImg_does ih hinv hapart (hwell name img himg) hname h

/-- The states that the kernel starts in: modules are mapped to be hooked (`map_redirect_module`), and drivers
(`setup_driver`), under names that are not in the table yet. Neither looks for the name, so a driver that another has
imported by then would be mapped a second time. -/
inductive Starts (g : Guest) (nested : Nat) : List ProcModule → State → Prop
  | init : Starts g nested [] {}
  | hook {hooked : List ProcModule} {s s' : State} {m : ProcModule} {name : Str} {img : Image}
      (h : Starts g nested hooked s) (hname : s.findModule name = none) (hwell : img.WellFormed)
      (hmap : mapImg g (loadModule g nested) name img true s = some (some m, s')) : Starts g nested (m :: hooked) s'
  | driver {hooked : List ProcModule} {s s' : State} {m : ProcModule} {name : Str} {img : Image}
      (h : Starts g nested hooked s) (hname : s.findModule name = none) (hwell : img.WellFormed)
      (hmap : mapImg g (loadModule g nested) name img false s = some (some m, s')) : Starts g nested hooked s'

structure Started (hooked : List ProcModule) (s : State) : Prop where
  inv : Inv s
  once : s.allocs.length = s.modules.length
  kept : ∀ m ∈ hooked, m ∈ s.modules
  bound : ∀ m ∈ s.modules, m ∉ hooked → Bound s m

theorem Inv.init : Inv {} := ⟨List.nodup_nil, fun _ => nofun, fun _ => nofun, fun _ => nofun⟩

theorem Started.hook {hooked : List ProcModule} (h : Started hooked s) (hapart : g.Apart)
    (hname : s.findModule name = none) (hwell : img.WellFormed)
    (hmap : mapImg g load name img true s = some (some m, s')) : Started (m :: hooked) s' := by
  unfold mapImg at hmap
  dsimp only at hmap
  split at hmap
  · cases hmap
  · rename_i haddr
    rw [if_pos rfl] at hmap
    obtain ⟨hm, rfl⟩ := Prod.mk.inj (Option.some.inj hmap)
    obtain rfl := Option.some.inj hm
    have hinv := h.inv.place hapart hwell hname haddr
    have hmodules : (s.place (addModule name (g.alloc s.allocs img.size) img)).modules =
        addModule name (g.alloc s.allocs img.size) img :: s.modules := State.place_modules hname rfl
    have hgrows : Grows noneOwn s (s.place (addModule name (g.alloc s.allocs img.size) img)) :=
      ⟨fun m hm => hmodules ▸ List.mem_cons_of_mem _ hm, fun _ _ _ => rfl⟩
    refine ⟨hinv, ?_, ?_, ?_⟩
    · rw [hmodules, List.length_cons, ← h.once]
      rfl
    · rw [hmodules]
      exact fun m hm => (List.mem_cons.mp hm).elim (· ▸ List.mem_cons_self) fun hm =>
        List.mem_cons_of_mem _ (h.kept m hm)
    · intro m hm hunhooked
      rw [hmodules] at hm
      rw [List.mem_cons, not_or] at hunhooked
      have hold := (List.mem_cons.mp hm).resolve_left hunhooked.1
      exact (h.bound m hold hunhooked.2).grows hold hgrows hinv fun _ _ => id

theorem Started.driver {hooked : List ProcModule} (h : Started hooked s)
    (hload : Loads load) (hapart : g.Apart) (hname : s.findModule name = none) (hwell : img.WellFormed)
    (hmap : mapImg g load name img false s = some (some m, s')) : Started hooked s' := by
  obtain ⟨hdoes, -⟩ := mapImg_does hload h.inv hapart hwell hname hmap
  refine ⟨hdoes.inv, ?_, fun m hm => hdoes.grows.kept m (h.kept m hm), fun m hm hunhooked => ?_⟩
  · have honce := hdoes.once rfl
    have hbefore := h.once
    omega
  · by_cases hold : m ∈ s.modules
    · exact (h.bound m hold hunhooked).grows hold hdoes.grows hdoes.inv fun _ _ => id
    · exact hdoes.bound rfl m hm hold

/-- However modules and drivers import from and forward to each other, each is mapped once, to a range of its own, and
all that are run have their imports bound to what the modules they name provide. -/
theorem Starts.started {g : Guest} (hapart : g.Apart)
    (hwell : ∀ name img, g.openSystemImage name = some img → img.WellFormed) {nested : Nat}
    {hooked : List ProcModule} {s : State} (h : Starts g nested hooked s) : Started hooked s := by
  have hload : Loads (loadModule g nested) := loadModule_loads hapart hwell nested
  induction h with
  | init => exact ⟨Inv.init, rfl, fun _ => nofun, fun _ => nofun⟩
  | hook _ hname hwell hmap ih => exact ih.hook hapart hname hwell hmap
  | driver _ hname hwell hmap ih => exact ih.driver hload hapart hname hwell hmap

def oneEach (e : Exports.Export) (moduleName importName : Str) : Image :=
  ⟨0x2000, Exports.oneExport e, [⟨moduleName, false, 0, importName, 0x10⟩]⟩

theorem oneEach_wellFormed (e : Exports.Export) (moduleName importName : Str) :
    (oneEach e moduleName importName).WellFormed where
  inside imp himp := by
    obtain rfl := List.mem_singleton.mp himp
    show (0x10 : BitVec 32).toNat + 8 ≤ 0x2000
    decide
  apart := List.pairwise_singleton _ _

def aDll : Str := ascii ['a', '.', 'd', 'l', 'l']
def bDll : Str := ascii ['b', '.', 'd', 'l', 'l']

/-- The first image forwards to the second, and each imports from the other. -/
def circle : List (Str × Image) :=
  [(aDll, oneEach Exports.forwarder bDll (ascii ['g'])), (bDll, oneEach Exports.plainExport aDll (ascii ['f']))]

def behind (used : List (Addr × Nat)) : Addr := used.foldr (fun r top => max (r.1 + r.2) top) 0x1000

def circleGuest : Guest where
  openSystemImage name := (circle.find? fun f => f.1 = name).map (·.2)
  alloc used _ := behind used
  iterate := id
  iterate_perm := List.Perm.refl

theorem circleGuest_apart : circleGuest.Apart := by
  rintro used n - r hr
  left
  show r.1 + r.2 ≤ behind used
  induction used with
  | nil => cases hr
  | cons r' used ih =>
    rcases List.mem_cons.mp hr with rfl | hr
    · exact Nat.le_max_left _ _
    · exact (ih hr).trans (Nat.le_max_right _ _)

theorem circle_opened (h : circleGuest.openSystemImage name = some img) :
    img ∈ circle.map (·.2) := by
  obtain ⟨f, hf, rfl⟩ := Option.map_eq_some_iff.mp h
  exact List.mem_map_of_mem (List.mem_of_find?_eq_some hf)

theorem circle_wellFormed (h : circleGuest.openSystemImage name = some img) :
    img.WellFormed := by
  have hmem := circle_opened h
  simp only [circle, List.map_cons, List.map_nil, List.mem_cons, List.not_mem_nil, or_false] at hmem
  rcases hmem with rfl | rfl <;> exact oneEach_wellFormed _ _ _

/-- The driver imports what the first image of the circle forwards. -/
def circleDriver : Image := oneEach Exports.plainExport aDll (ascii ['f'])

def hookedModule : ProcModule := addModule (ascii ['n']) 0x1000 circleDriver

def mapCircle : Option (Option ProcModule × State) :=
  mapImg circleGuest (loadModule circleGuest 2) (ascii ['d']) circleDriver false (State.place {} hookedModule)

theorem circle_started : ∃ s, Starts circleGuest 2 [hookedModule] s ∧ Started [hookedModule] s ∧
    s.modules.map (·.lookupName) = [bDll, aDll, ascii ['d'], ascii ['n']] ∧
    [0x3010, 0x5010, 0x7010].map s.iatSlots = [some 0x7500, some 0x7500, some 0x7500] := by
  have hrun : (mapCircle.map fun r => (r.1.isSome, r.2.modules.map (·.lookupName),
      [0x3010, 0x5010, 0x7010].map r.2.iatSlots)) = some (true, [bDll, aDll, ascii ['d'], ascii ['n']],
      [some 0x7500, some 0x7500, some 0x7500]) := by decide +kernel
  obtain ⟨⟨r, s⟩, hmap, hr⟩ := Option.map_eq_some_iff.mp hrun
  obtain ⟨hsome, hrest⟩ := Prod.mk.inj hr
  obtain ⟨hnames, hslots⟩ := Prod.mk.inj hrest
  obtain ⟨m, rfl⟩ := Option.isSome_iff_exists.mp hsome
  have hhook : Starts circleGuest 2 [hookedModule] (State.place {} hookedModule) :=
    .hook .init rfl (oneEach_wellFormed _ _ _) (show mapImg circleGuest (loadModule circleGuest 2) (ascii ['n'])
      circleDriver true {} = some (some hookedModule, State.place {} hookedModule) from rfl)
  have hstarts : Starts circleGuest 2 [hookedModule] s := .driver hhook (by decide) (oneEach_wellFormed _ _ _) hmap
  exact ⟨s, hstarts, hstarts.started circleGuest_apart fun _ _ => circle_wellFormed, hnames, hslots⟩

/-! ## Loads come to an end -/

/-- The name of the module that a forwarder leads to, when it is not there yet. -/
def forwardName (forward : Str) : Str := asciiLower (forward.takeWhile (· ≠ dot) ++ ascii ['.', 'd', 'l', 'l'])

def askedFor (images : List Image) : Finset Str :=
  (images.flatMap fun img => img.imports.map (fun imp => asciiLower imp.moduleName) ++
    img.exports.exports.map fun e => forwardName e.forward).toFinset

def State.names (s : State) : List Str := s.modules.map (·.lookupName)

def missing (U : Finset Str) (s : State) : Nat := (U.filter fun n => ∀ m ∈ s.names, ¬n = m).card

structure ProcModule.Within (U : Finset Str) (m : ProcModule) : Prop where
  imports : ∀ imp ∈ m.imports, asciiLower imp.moduleName ∈ U
  forwards : ∀ sym, m.findForward sym ≠ [] → forwardName (m.findForward sym) ∈ U

/-- A step comes to an end, with modules that ask for names of the set, and keeps the names of the table. -/
def Ends {α : Type} (U : Finset Str) (s : State) (x : Option (α × State)) (P : α → Prop) : Prop :=
  ∃ a s', x = some (a, s') ∧ (∀ m ∈ s'.modules, m.Within U) ∧ s.names ⊆ s'.names ∧ P a

def LoadsEnd (U : Finset Str) (load : Str → Load (Option ProcModule)) (left : Nat) : Prop :=
  ∀ name s, asciiLower name ∈ U → asciiLower name ∉ s.names → missing U s ≤ left → (∀ m ∈ s.modules, m.Within U) →
    Ends U s (load name s) fun r => ∀ m, r = some m → m.Within U

variable {U : Finset Str} {left : Nat}

theorem mem_missing {n : Str} : n ∈ U.filter (fun n => ∀ m ∈ s.names, ¬n = m) ↔ n ∈ U ∧ n ∉ s.names := by
  rw [Finset.mem_filter, List.forall_mem_ne]

theorem missing_mono (h : s.names ⊆ s'.names) : missing U s' ≤ missing U s :=
  Finset.card_le_card fun n hn => by
    rw [mem_missing] at hn ⊢
    exact ⟨hn.1, fun hold => hn.2 (h hold)⟩

theorem missing_lt (h : s.names ⊆ s'.names) (hname : name ∈ U) (hfresh : name ∉ s.names)
    (hnew : name ∈ s'.names) : missing U s' < missing U s := by
  refine Finset.card_lt_card ⟨fun n hn => ?_, fun hsub => ?_⟩
  · rw [mem_missing] at hn ⊢
    exact ⟨hn.1, fun hold => hn.2 (h hold)⟩
  · have hmem := hsub (mem_missing.mpr ⟨hname, hfresh⟩)
    exact (mem_missing.mp hmem).2 hnew

theorem State.findModule_eq_none (h : s.findModule name = none) : asciiLower name ∉ s.names := by
  intro hmem
  obtain ⟨m, hm, hlookup⟩ := List.mem_map.mp hmem
  exact State.findModule_none h m hm hlookup

theorem Ends.refl {α : Type} {a : α} {P : α → Prop} (hwithin : ∀ m ∈ s.modules, m.Within U) (ha : P a) :
    Ends U s (some (a, s)) P := ⟨a, s, rfl, hwithin, fun _ h => h, ha⟩

theorem Ends.after {α : Type} {x : Option (α × State)} {P : α → Prop} (h : Ends U s' x P)
    (hnames : s.names ⊆ s'.names) : Ends U s x P := by
  obtain ⟨a, s'', hx, hwithin, hnames', ha⟩ := h
  exact ⟨a, s'', hx, hwithin, fun n hn => hnames' (hnames hn), ha⟩

theorem findOrLoad_ends (hload : LoadsEnd U load left) (hname : asciiLower name ∈ U)
    (hmissing : missing U s ≤ left) (hwithin : ∀ m ∈ s.modules, m.Within U) :
    Ends U s (findOrLoad load name s) fun r => ∀ m, r = some m → m.Within U := by
  unfold findOrLoad
  split
  · rename_i m hfind
    refine Ends.refl hwithin ?_
    rintro m' ⟨⟩
    exact hwithin m (State.findModule_some hfind).1
  · rename_i hfind
    exact hload name s hname (State.findModule_eq_none hfind) hmissing hwithin

theorem findTarget_ends (hload : LoadsEnd U load left)
    (hname : asciiLower (stem ++ ascii ['.', 'd', 'l', 'l']) ∈ U) (hmissing : missing U s ≤ left)
    (hwithin : ∀ m ∈ s.modules, m.Within U) :
    Ends U s (findTarget g load stem s) fun r => ∀ m, r = some m → m.Within U := by
  unfold findTarget
  split
  · rename_i m hfind
    refine Ends.refl hwithin ?_
    rintro m' ⟨⟩
    exact hwithin m (g.findModuleByStem_some hfind).1
  · exact findOrLoad_ends hload hname hmissing hwithin

theorem forwardName_eq {forward targetSym : Str} (h : forward = stem ++ dot :: targetSym) (hstem : dot ∉ stem) :
    forwardName forward = asciiLower (stem ++ ascii ['.', 'd', 'l', 'l']) := by
  have htake : forward.takeWhile (· ≠ dot) = stem := by
    rw [h, List.takeWhile_append_of_pos fun c hc => by simpa using fun heq : c = dot => hstem (heq ▸ hc)]
    simp
  rw [forwardName, htake]

theorem resolveExport_ends {n : Nat} {sym : Str} (hload : LoadsEnd U load left) (hm : m.Within U)
    (hmissing : missing U s ≤ left) (hwithin : ∀ m ∈ s.modules, m.Within U) :
    Ends U s (resolveExport g load n m sym s) fun _ => True := by
  induction n using Nat.strong_induction_on generalizing m sym s with
  | _ n ih =>
    obtain ⟨a, -, heq⟩ | heq | ⟨n', stem, targetSym, rfl, hforward, hstem, heq⟩ := resolveExport_cases g n m sym
    · exact heq load s ▸ Ends.refl hwithin trivial
    · exact heq load s ▸ Ends.refl hwithin trivial
    · have hne : m.findForward sym ≠ [] := by
        rw [hforward]
        exact List.append_ne_nil_of_right_ne_nil stem (List.cons_ne_nil _ _)
      have hname := hm.forwards sym hne
      rw [forwardName_eq hforward hstem] at hname
      obtain ⟨r, s₁, htarget, hwithin₁, hnames, hr⟩ := findTarget_ends (g := g) hload hname hmissing hwithin
      rw [heq, followForward, htarget]
      cases r with
      | none => exact (Ends.refl hwithin₁ trivial).after hnames
      | some target =>
        dsimp only
        split
        · exact (Ends.refl hwithin₁ trivial).after hnames
        · have hmissing₁ := (missing_mono hnames).trans hmissing
          exact (ih n' (Nat.lt_succ_self n') (hr target rfl) hmissing₁ hwithin₁).after hnames

theorem importAddr_ends (g : Guest) (imp : Import) (hload : LoadsEnd U load left) (hm : m.Within U)
    (hmissing : missing U s ≤ left) (hwithin : ∀ m ∈ s.modules, m.Within U) :
    Ends U s (importAddr g load imp m s) fun _ => True := by
  unfold importAddr
  split
  · exact Ends.refl hwithin trivial
  · exact resolveExport_ends hload hm hmissing hwithin

theorem bindImports_ends (g : Guest) (addr : Addr) {imports : List Import} (hload : LoadsEnd U load left)
    (himports : ∀ imp ∈ imports, asciiLower imp.moduleName ∈ U) (hmissing : missing U s ≤ left)
    (hwithin : ∀ m ∈ s.modules, m.Within U) : Ends U s (bindImports g load addr imports s) fun _ => True := by
  induction imports generalizing s with
  | nil => exact Ends.refl hwithin trivial
  | cons imp rest ih =>
    obtain ⟨himp, hrest⟩ := List.forall_mem_cons.mp himports
    obtain ⟨r, s₁, hdep, hwithin₁, hnames₁, hr⟩ := findOrLoad_ends hload himp hmissing hwithin
    unfold bindImports
    rw [hdep]
    cases r with
    | none => exact (Ends.refl hwithin₁ trivial).after hnames₁
    | some dep =>
      have hmissing₁ := (missing_mono hnames₁).trans hmissing
      obtain ⟨a, s₂, haddr, hwithin₂, hnames₂, -⟩ := importAddr_ends g imp hload (hr dep rfl) hmissing₁ hwithin₁
      dsimp only
      rw [haddr]
      cases a with
      | none => exact ((Ends.refl hwithin₂ trivial).after hnames₂).after hnames₁
      | some a =>
        have hmissing₂ := (missing_mono hnames₂).trans hmissing₁
        have hends := ih (s := s₂.writeSlot (addr + imp.iatSlot.toNat) a) hrest hmissing₂ hwithin₂
        exact (hends.after hnames₂).after hnames₁

variable {images : List Image}

theorem addModule_within (himg : img ∈ images) (name : Str) (addr : Addr) :
    (addModule name addr img).Within (askedFor images) where
  imports imp himp := List.mem_toFinset.mpr (List.mem_flatMap.mpr
    ⟨img, himg, List.mem_append_left _ (List.mem_map_of_mem himp)⟩)
  forwards sym hforward := by
    have hfind : (addModule name addr img).findForward sym =
        ((img.exports.exports.find? fun e => e.forwarded ∧ e.name = sym).map (·.forward)).getD [] := rfl
    cases hexport : img.exports.exports.find? fun e => e.forwarded ∧ e.name = sym with
    | none =>
      rw [hfind, hexport] at hforward
      exact absurd rfl hforward
    | some e =>
      rw [hfind, hexport]
      exact List.mem_toFinset.mpr (List.mem_flatMap.mpr ⟨img, himg, List.mem_append_right _
        (List.mem_map_of_mem (f := fun e => forwardName e.forward) (List.mem_of_find?_eq_some hexport))⟩)

theorem State.names_place (s : State) (m : ProcModule) :
    m.lookupName ∈ (s.place m).names ∧ s.names ⊆ (s.place m).names := by
  refine ⟨List.mem_cons_self, fun n hn => ?_⟩
  obtain ⟨m', hm', rfl⟩ := List.mem_map.mp hn
  by_cases hsame : m'.lookupName = m.lookupName
  · rw [hsame]
    exact List.mem_cons_self
  · exact List.mem_cons_of_mem _ (List.mem_map_of_mem (List.mem_filter.mpr ⟨hm', decide_eq_true hsame⟩))

theorem mapImg_ends (g : Guest) (name : Str) (skipImports : Bool)
    (himg : img ∈ images) (hload : LoadsEnd (askedFor images) load left)
    (hwithin : ∀ m ∈ s.modules, m.Within (askedFor images))
    (hmissing : ∀ s', s.names ⊆ s'.names → asciiLower name ∈ s'.names → missing (askedFor images) s' ≤ left) :
    Ends (askedFor images) s (mapImg g load name img skipImports s) fun r =>
      ∀ m, r = some m → m.Within (askedFor images) := by
  unfold mapImg
  dsimp only
  split
  · exact Ends.refl hwithin fun _ => nofun
  · let m := addModule name (g.alloc s.allocs img.size) img
    obtain ⟨hname, hnames⟩ := State.names_place s m
    have hm : m.Within (askedFor images) := addModule_within himg name _
    have hwithin₀ : ∀ m' ∈ (s.place m).modules, m'.Within (askedFor images) := by
      intro m' hm'
      rcases List.mem_cons.mp hm' with rfl | hold
      · exact hm
      · exact hwithin m' (List.mem_filter.mp hold).1
    split
    · exact ⟨some m, s.place m, rfl, hwithin₀, hnames, fun m' hm' => Option.some.inj hm' ▸ hm⟩
    · obtain ⟨ok, s₁, hbind, hwithin₁, hnames₁, -⟩ := bindImports_ends g (g.alloc s.allocs img.size) hload
        hm.imports (hmissing (s.place m) hnames hname) hwithin₀
      refine ⟨if ok then some m else none, s₁, ?_, hwithin₁, fun n hn => hnames₁ (hnames hn), ?_⟩
      · exact congrArg (Option.map _) hbind
      · rintro m' hm'
        cases ok with
        | false => cases hm'
        | true => exact Option.some.inj hm' ▸ hm

theorem loadModule_loadsEnd (hopen : ∀ name img, g.openSystemImage name = some img → img ∈ images)
    (nested : Nat) : LoadsEnd (askedFor images) (loadModule g nested) nested := by
  induction nested with
  | zero =>
    -- nothing is missing, and the name is
    intro name s hname hfresh hmissing _
    have hmem := mem_missing.mpr ⟨hname, hfresh⟩
    rw [Finset.card_eq_zero.mp (Nat.le_zero.mp hmissing)] at hmem
    exact absurd hmem (Finset.notMem_empty _)
  | succ nested ih =>
    intro name s hname hfresh hmissing hwithin
    rw [loadModule]
    split
    · exact Ends.refl hwithin fun _ => nofun
    · rename_i img himg
      refine mapImg_ends g name false (hopen name img himg) ih hwithin fun s' hnames hnew => ?_
      exact Nat.le_of_lt_succ ((missing_lt hnames hname hfresh hnew).trans_le hmissing)

/-- With more loads nested in each other a load does what it does with fewer. -/
def Extends (load load' : Str → Load (Option ProcModule)) : Prop :=
  ∀ name s x, load name s = some x → load' name s = some x

variable {load' : Str → Load (Option ProcModule)}

variable {x : Option ProcModule × State}

theorem findOrLoad_extends (hload : Extends load load')
    (h : findOrLoad load name s = some x) : findOrLoad load' name s = some x := by
  unfold findOrLoad at h ⊢
  split at h
  · exact h
  · exact hload name s x h

theorem findTarget_extends (hload : Extends load load')
    (h : findTarget g load stem s = some x) : findTarget g load' stem s = some x := by
  unfold findTarget at h ⊢
  split at h
  · exact h
  · exact findOrLoad_extends hload h

theorem resolveExport_extends {n : Nat} {sym : Str} {x : Option Addr × State} (hload : Extends load load')
    (h : resolveExport g load n m sym s = some x) : resolveExport g load' n m sym s = some x := by
  induction n using Nat.strong_induction_on generalizing m sym s with
  | _ n ih =>
    obtain ⟨a, -, heq⟩ | heq | ⟨n', stem, targetSym, rfl, -, -, heq⟩ := resolveExport_cases g n m sym
    · rw [heq] at h ⊢
      exact h
    · rw [heq] at h ⊢
      exact h
    · rw [heq, followForward] at h ⊢
      split at h
      · cases h
      · rename_i s₁ htarget
        rw [findTarget_extends hload htarget]
        exact h
      · rename_i target s₁ htarget
        rw [findTarget_extends hload htarget]
        dsimp only
        split at h
        · rename_i hhash
          rw [if_pos hhash]
          exact h
        · rename_i hhash
          rw [if_neg hhash]
          exact ih n' (Nat.lt_succ_self n') h

theorem importAddr_extends {x : Option Addr × State} (hload : Extends load load')
    (h : importAddr g load imp m s = some x) : importAddr g load' imp m s = some x := by
  unfold importAddr at h ⊢
  split at h
  · rename_i hordinal
    rwa [if_pos hordinal]
  · rename_i hordinal
    rw [if_neg hordinal]
    exact resolveExport_extends hload h

theorem bindImports_extends {addr : Addr} {imports : List Import} {x : Bool × State} (hload : Extends load load')
    (h : bindImports g load addr imports s = some x) : bindImports g load' addr imports s = some x := by
  induction imports generalizing s with
  | nil => exact h
  | cons imp rest ih =>
    unfold bindImports at h ⊢
    split at h
    · cases h
    · rename_i s₁ hdep
      rw [findOrLoad_extends hload hdep]
      exact h
    · rename_i dep s₁ hdep
      rw [findOrLoad_extends hload hdep]
      dsimp only
      split at h
      · cases h
      · rename_i s₂ haddr
        rw [importAddr_extends hload haddr]
        exact h
      · rename_i a s₂ haddr
        rw [importAddr_extends hload haddr]
        exact ih h

theorem mapImg_extends {skipImports : Bool}
    (hload : Extends load load') (h : mapImg g load name img skipImports s = some x) :
    mapImg g load' name img skipImports s = some x := by
  unfold mapImg at h ⊢
  dsimp only at h ⊢
  split at h
  · rename_i haddr
    rwa [if_pos haddr]
  · rename_i haddr
    rw [if_neg haddr]
    split at h
    · rename_i hskip
      rwa [if_pos hskip]
    · rename_i hskip
      obtain ⟨y, hbind, rfl⟩ := Option.map_eq_some_iff.mp h
      rw [if_neg hskip, bindImports_extends hload hbind]
      rfl

theorem loadModule_extends (n : Nat) : Extends (loadModule g n) (loadModule g (n + 1)) := by
  induction n with
  | zero => exact fun _ _ _ h => nomatch h
  | succ n ih =>
    intro name s x h
    rw [loadModule] at h ⊢
    split at h
    · exact h
    · exact mapImg_extends ih h

theorem loadModule_mono {n k : Nat} (hle : n ≤ k)
    (h : loadModule g n name s = some x) : loadModule g k name s = some x := by
  induction k, hle using Nat.le_induction with
  | base => exact h
  | succ k _ ih => exact loadModule_extends k name s x ih

/-- However the files import from and forward to each other, mapping an image comes to an end: no more loads are ever
nested in each other than there are names that the files ask for. -/
theorem mapImg_total {g : Guest} {images : List Image}
    (hopen : ∀ name img, g.openSystemImage name = some img → img ∈ images) {s : State}
    (hmodules : ∀ m ∈ s.modules, ∃ img ∈ images, ∃ name addr, m = addModule name addr img) (name : Str) {img : Image}
    (himg : img ∈ images) (skipImports : Bool) :
    ∃ r s', ∀ nested, (askedFor images).card ≤ nested →
      mapImg g (loadModule g nested) name img skipImports s = some (r, s') := by
  have hwithin : ∀ m ∈ s.modules, m.Within (askedFor images) := by
    intro m hm
    obtain ⟨img', himg', name', addr, rfl⟩ := hmodules m hm
    exact addModule_within himg' name' addr
  obtain ⟨r, s', hload, -⟩ := mapImg_ends g name skipImports himg
    (loadModule_loadsEnd hopen (askedFor images).card) hwithin fun s' _ _ => Finset.card_filter_le _ _
  exact ⟨r, s', fun nested hle => mapImg_extends (fun _ _ _ h => loadModule_mono hle h) hload⟩

theorem circle_total : ∃ r s', ∀ nested, (askedFor (circleDriver :: circle.map (·.2))).card ≤ nested →
    mapImg circleGuest (loadModule circleGuest nested) (ascii ['d']) circleDriver false
      (State.place {} hookedModule) = some (r, s') := by
  refine mapImg_total (fun _ _ h => List.mem_cons_of_mem _ (circle_opened h)) (fun m hm => ?_) (ascii ['d'])
    List.mem_cons_self false
  obtain rfl := List.mem_singleton.mp hm
  exact ⟨circleDriver, List.mem_cons_self, ascii ['n'], 0x1000, rfl⟩

end Kernemul.Loader
