import Kernemul.Win.FilePaths

/-!
# Directories

A directory lists what the names in it lead to: one component of every file and directory that is stored below it. What
is stored below a directory agrees with the paths that are looked up there but for two things: a separator at the
front of what is stored makes a name that is empty, and a directory of DOS names is the root to every path that goes on
from it.
-/

namespace Kernemul.Directories

open Text Names Paths FileSystem FilePaths

/-- The path of a name in a directory; separators at the end of the directory's path are not doubled. -/
def childPath (d n : Str) : Str :=
  let d := d.rdropWhile fun c => fold c = slash
  if d = [] then n else d ++ slash :: n

def IsName (n : Str) : Prop := n ≠ [] ∧ ∀ c ∈ n, fold c ≠ slash

/-- A listing agrees with the lookups of the names in the directory. -/
structure Agrees (s : State) (d : Str) : Prop where
  nodup : ((listDir s d).map DirEntry.name).Nodup
  nonempty : ∀ e ∈ listDir s d, e.name ≠ []
  found : ∀ n, IsName n → ((∃ e ∈ listDir s d, e.name = folded n) ↔
    exists? s (childPath d n) ∨ dirExists s (childPath d n))
  marked : ∀ n, IsName n → ∀ e ∈ listDir s d, e.name = folded n →
    (e.isDirectory ↔ dirExists s (childPath d n))
  below : ∀ e ∈ listDir s d, slash ∉ e.name ∧
    (exists? s (childPath d e.name) ∨ dirExists s (childPath d e.name))

/-- A call on the files. Which files handles hold is not known here. -/
inductive Call
  | create (path : Str)
  | createDirectory (path : Str)
  | link (source target : Str)
  | remove (held : FileId → Bool) (path : Str)

def step (s : State) : Call → State
  | .create path => (create s path).2
  | .createDirectory path => createDirectory s path
  | .link source target => (link s source target).2
  | .remove held path => (remove s held path).2

def after (calls : List Call) : State := calls.foldl step State.init

def Child (s : State) (pre n : Str) : Prop :=
  ∃ key ∈ s.files.keys ++ s.dirs, key = pre ++ n ∨ Below slash (pre ++ n) key

def ChildDir (s : State) (pre n : Str) : Prop :=
  (∃ key ∈ s.files.keys, Below slash (pre ++ n) key) ∨
    ∃ key ∈ s.dirs, key = pre ++ n ∨ Below slash (pre ++ n) key

def Bare (d : Str) : Prop := trimEnd (folded d) = slash :: dotsName ∨ trimEnd (folded d) = slash :: dosdevicesName

/-- Nothing below the directory begins with a separator; and the names below a directory of DOS names are those of the
root. -/
structure Plain (s : State) (d : Str) : Prop where
  nonempty : ∀ key ∈ s.files.keys ++ s.dirs, ¬ Below slash (listPrefix d) key
  root : Bare d → ∀ n, IsName n → (Child s (listPrefix d) (folded n) ↔ Child s [] (folded n)) ∧
    (ChildDir s (listPrefix d) (folded n) ↔ ChildDir s [] (folded n))

/-! ## The path of a name in a directory -/

theorem folded_rdropWhile (d : Str) : folded (d.rdropWhile fun c => fold c = slash) = trimEnd (folded d) := by
  unfold folded trimEnd List.rdropWhile
  rw [← List.map_reverse, List.dropWhile_map, List.map_reverse]
  rfl

theorem folded_childPath (d n : Str) : folded (childPath d n) =
    if trimEnd (folded d) = [] then folded n else trimEnd (folded d) ++ slash :: folded n := by
  have hnil : (d.rdropWhile fun c => fold c = slash) = [] ↔ trimEnd (folded d) = [] := by
    rw [← folded_rdropWhile, folded, List.map_eq_nil_iff]
  unfold childPath
  dsimp only
  by_cases h : trimEnd (folded d) = []
  · rw [if_pos h, if_pos (hnil.mpr h)]
  · rw [if_neg h, if_neg (mt hnil.mp h), ← folded_rdropWhile]
    simp only [folded, List.map_append, List.map_cons]
    rfl

variable {n : Str}

theorem IsName.folded (h : IsName n) : folded n ≠ [] ∧ slash ∉ folded n := by
  refine ⟨fun hnil => h.1 (List.map_eq_nil_iff.mp hnil), fun hmem => ?_⟩
  obtain ⟨c, hc, hfold⟩ := List.mem_map.mp hmem
  exact h.2 c hc hfold

variable {m t : Str}

theorem append_slash_inj {a b c : Str} (ha : slash ∉ a) (h : a ++ [slash] = b ++ slash :: c) : a = b ∧ c = [] := by
  rcases List.append_eq_append_iff.mp h with ⟨z, rfl, hz⟩ | ⟨z, rfl, hz⟩
  · cases z with
    | nil => exact ⟨(List.append_nil a).symm, (List.cons.inj hz).2.symm⟩
    | cons x z => exact absurd (List.cons.inj hz).2 (by simp)
  · cases z with
    | nil => exact ⟨List.append_nil b, (List.cons.inj hz).2⟩
    | cons x z => exact absurd (List.mem_append_right b ((List.cons.inj hz).1 ▸ List.mem_cons_self ..)) ha

theorem trimEnd_of_name (hm : m ≠ []) (hslash : slash ∉ m) (t : Str) : trimEnd (t ++ slash :: m) = t ++ slash :: m := by
  have hname : trimEnd m = m := by
    refine List.rdropWhile_eq_self_iff.mpr fun hl hlast => hslash ?_
    have heq : m.getLast hl = slash := by simpa using hlast
    exact heq ▸ List.getLast_mem hl
  have hne : trimEnd m ≠ [] := by rwa [hname]
  have h : trimEnd (t ++ [slash] ++ m) = t ++ [slash] ++ trimEnd m := rdropWhile_append (t ++ [slash]) hne
  rwa [hname, List.append_assoc] at h

theorem component_of_windows {s rest : Str} (h : s = systemrootName ++ rest)
    (hrest : rest = [] ∨ rest.head? = some slash) : component slash s.tail = systemrootName.tail := by
  have hroot : component slash systemrootName.tail = systemrootName.tail := by decide
  rw [h]
  rcases hrest with rfl | hrest
  · exact hroot
  · obtain ⟨z, rfl⟩ := List.head?_eq_some_iff.mp hrest
    exact (component_append systemrootName.tail z).trans hroot

theorem windows_ne_of_component {x : Str} (hhead : x.head? = some slash)
    (h : component slash x.tail = systemrootName.tail) : windows x ≠ x := by
  obtain ⟨y, rfl⟩ := List.head?_eq_some_iff.mp hhead
  rw [List.tail_cons] at h
  have hcases : y = component slash y ∨ Below slash (component slash y) y := component_cases y
  rcases hcases with hy | ⟨r, hy⟩
  · rw [hy, h]
    decide
  · have hx : slash :: y = systemrootName ++ slash :: r := by
      rw [hy, h]
      rfl
    rw [hx, windows_append (.inr rfl)]
    nofun

theorem windows_of_name {x : Str} (hx : x ≠ []) (m : Str) : windows (x ++ slash :: m) = windows x ++ slash :: m := by
  rcases windows_cases x with hsame | ⟨rest, rfl, hrest, heq⟩
  · rw [hsame]
    rcases windows_cases (x ++ slash :: m) with hsame' | ⟨rest, hroot, hrest, -⟩
    · exact hsame'
    · obtain ⟨c, y, rfl⟩ := List.exists_cons_of_ne_nil hx
      have hcomponent := component_of_windows hroot hrest
      rw [List.cons_append, List.tail_cons, component_append] at hcomponent
      have hc : c = slash := (List.cons.inj hroot).1
      exact absurd hsame (windows_ne_of_component (congrArg some hc) hcomponent)
  · rw [heq, List.append_assoc, windows_append, List.append_assoc]
    refine .inr ?_
    rcases hrest with rfl | hrest
    · rfl
    · obtain ⟨z, rfl⟩ := List.head?_eq_some_iff.mp hrest
      rfl

/-- A prefix that is cut off a path with a name behind was in front of it before, or is what it consists of. -/
theorem prefix_of_name {p : Str} (hp : p ∈ [dotsPrefix, dosdevicesPrefix]) (ht : t ≠ [])
    (h : p <+: t ++ slash :: m) : p <+: t ∨ p = t ++ [slash] := by
  rcases Nat.lt_or_ge t.length p.length with hlt | hge
  · have hpre : t ++ [slash] <+: t ++ slash :: m := ⟨m, by simp⟩
    obtain ⟨z, hz⟩ := List.prefix_of_prefix_length_le hpre h (by rw [List.length_append]; exact hlt)
    obtain ⟨d, hd, -, rfl⟩ := exists_directory hp
    obtain ⟨c, t, rfl⟩ := List.exists_cons_of_ne_nil ht
    have hnotin : slash ∉ d := by
      have hall : ∀ d ∈ dosDirectories, slash ∉ d := by decide
      exact hall d hd
    have hsplit : slash :: (d ++ [slash]) = c :: (t ++ slash :: z) := by simpa using hz.symm
    obtain ⟨hc, hrest⟩ := List.cons.inj hsplit
    obtain ⟨rfl, -⟩ := append_slash_inj hnotin hrest
    exact .inr (hc ▸ rfl)
  · exact .inl (List.prefix_of_prefix_length_le h (List.prefix_append ..) hge)

theorem cut_of_name (ht : t ≠ []) (htrim : trimEnd t = t)
    (hbare : ∀ p ∈ [dotsPrefix, dosdevicesPrefix], p ≠ t ++ [slash]) (m : Str) :
    cut (t ++ slash :: m) = cut t ++ slash :: m ∧ cut t ≠ [] := by
  by_cases hpre : ∃ p ∈ [dotsPrefix, dosdevicesPrefix], p <+: t
  · obtain ⟨p, hp, y, rfl⟩ := hpre
    rw [List.append_assoc, cut_append hp, cut_append hp]
    refine ⟨rfl, ?_⟩
    rintro rfl
    obtain ⟨d, -, -, rfl⟩ := exists_directory hp
    rw [List.append_nil] at htrim
    exact names_ne_nil_of_rdropWhile (p := slash :: d) (q := []) htrim names_nil
  · rw [cut_of_not fun p hp h => hpre ⟨p, hp, h⟩, cut_of_not]
    · exact ⟨rfl, ht⟩
    · intro p hp h
      rcases prefix_of_name hp ht h with h | h
      · exact hpre ⟨p, hp, h⟩
      · exact hbare p hp h

instance (d : Str) : Decidable (Bare d) := inferInstanceAs (Decidable (_ ∨ _))

/-- What stands before the names of a directory where they are looked up. -/
def lookupPrefix (d : Str) : Str := if Bare d then [] else listPrefix d

variable {d : Str}

theorem bare_of_stem {p : Str} (hp : p ∈ [dotsPrefix, dosdevicesPrefix])
    (h : p = trimEnd (folded d) ++ [slash]) : Bare d := by
  rcases List.mem_pair.mp hp with rfl | rfl
  · exact .inl (List.append_cancel_right (h.symm.trans rfl))
  · exact .inr (List.append_cancel_right (h.symm.trans rfl))

theorem prefix_of_bare (h : Bare d) :
    trimEnd (folded d) ++ [slash] ∈ [dotsPrefix, dosdevicesPrefix] ∧ cut (trimEnd (folded d)) = trimEnd (folded d) := by
  rcases h with h | h
  · rw [h]
    decide
  · rw [h]
    decide

theorem normalize_childPath (hn : IsName n) (d : Str) :
    normalize (childPath d n) = lookupPrefix d ++ folded n := by
  obtain ⟨hne, hslash⟩ := hn.folded
  have hjoin : Valid slash [folded n] := List.forall_mem_singleton.mpr ⟨hne, hslash⟩
  have hname : norm (folded n) = folded n := by
    have h := norm_join hjoin
    rwa [join, List.intercalate_singleton] at h
  have htrim : trimEnd (trimEnd (folded d)) = trimEnd (folded d) := List.rdropWhile_idempotent _ _
  rw [normalize_eq, folded_childPath]
  by_cases hnil : trimEnd (folded d) = []
  · have hbare : ¬ Bare d := by
      rintro (h | h) <;> rw [hnil] at h <;> cases h
    have hroot : normalize d = [] := by
      rw [normalize_eq, FilePaths.norm, hnil]
      rfl
    rw [if_pos hnil, hname, lookupPrefix, if_neg hbare, listPrefix, if_pos hroot, List.nil_append]
  · rw [if_neg hnil, FilePaths.norm, trimEnd_of_name hne hslash]
    by_cases hbare : Bare d
    · have hcut : cut (trimEnd (folded d) ++ slash :: folded n) = folded n := by
        have h := cut_append (prefix_of_bare hbare).1 (folded n)
        rwa [List.append_assoc] at h
      rw [hcut, lookupPrefix, if_pos hbare, List.nil_append]
      refine windows_of_head fun hhead => hslash ?_
      obtain ⟨z, hz⟩ := List.head?_eq_some_iff.mp hhead
      rw [hz]
      exact List.mem_cons_self ..
    · obtain ⟨hcut, hcutne⟩ := cut_of_name hnil htrim (fun p hp h => hbare (bare_of_stem hp h)) (folded n)
      have hpath : normalize d ≠ [] := by
        rw [normalize_eq, FilePaths.norm]
        rcases windows_cases (cut (trimEnd (folded d))) with hsame | ⟨rest, -, -, heq⟩
        · rwa [hsame]
        · rw [heq]
          exact List.cons_ne_nil _ _
      rw [hcut, windows_of_name hcutne, lookupPrefix, if_neg hbare, listPrefix, if_neg hpath, List.append_assoc]
      rfl

/-! ## What a listing holds -/

theorem lookup_assign (entries : Entries) (name : Str) (f : DirEntry → DirEntry) (n : Str) :
    (entries.assign name f).lookup n = if n = name then
      some { f ((entries.lookup name).getD { name := [] }) with name := name } else entries.lookup n := by
  unfold Entries.assign
  by_cases h : n = name
  · rw [if_pos h, h, AList.lookup_insert]
  · rw [if_neg h, AList.lookup_insert_ne h]

/-- The entries are those of the names that were noted, with a mark where one was noted for a directory. -/
structure Marked (entries : Entries) (noted : Str → Bool → Prop) : Prop where
  mem : ∀ n, n ∈ entries ↔ ∃ b, noted n b
  entry : ∀ n e, entries.lookup n = some e → e.name = n ∧ (e.isDirectory = true ↔ noted n true)

variable {entries : Entries} {noted : Str → Bool → Prop}

theorem Marked.assign (h : Marked entries noted) (name : Str) (b : Bool)
    {f : DirEntry → DirEntry} (hf : ∀ e, (f e).isDirectory = (e.isDirectory || b)) :
    Marked (entries.assign name f) fun n b' => (name, b) = (n, b') ∨ noted n b' := by
  refine ⟨fun n => ?_, fun n e he => ?_⟩
  · unfold Entries.assign
    rw [AList.mem_insert, h.mem n]
    constructor
    · rintro (rfl | ⟨b', hb'⟩)
      · exact ⟨b, .inl rfl⟩
      · exact ⟨b', .inr hb'⟩
    · rintro ⟨b', hb' | hb'⟩
      · exact .inl (congrArg Prod.fst hb').symm
      · exact .inr ⟨b', hb'⟩
  · rw [lookup_assign] at he
    split_ifs at he with hn
    · subst hn
      obtain rfl := Option.some.inj he
      refine ⟨rfl, ?_⟩
      rw [hf, Bool.or_eq_true, or_comm]
      refine or_congr ⟨fun hb => hb ▸ rfl, fun hb => congrArg Prod.snd hb⟩ ?_
      cases hlookup : entries.lookup n with
      | none =>
        refine iff_of_false (by simp) fun hnoted => ?_
        exact (AList.lookup_eq_none.mp hlookup) ((h.mem n).mpr ⟨true, hnoted⟩)
      | some e => exact (h.entry n e hlookup).2
    · refine ⟨(h.entry n e he).1, (h.entry n e he).2.trans ?_⟩
      exact ⟨.inr, fun hb => hb.resolve_left fun heq => hn (congrArg Prod.fst heq).symm⟩

theorem Marked.foldl {add : Entries → Str → Entries} {note : Str → Option (Str × Bool)}
    (hadd : ∀ entries noted key, Marked entries noted →
      Marked (add entries key) fun n b => note key = some (n, b) ∨ noted n b)
    (h : Marked entries noted) (keys : List Str) :
    Marked (keys.foldl add entries) fun n b => noted n b ∨ ∃ key ∈ keys, note key = some (n, b) := by
  induction keys generalizing entries noted with
  | nil => simpa using h
  | cons key keys ih =>
    have hrest := ih (hadd entries noted key h)
    have hsame : (fun n b => (note key = some (n, b) ∨ noted n b) ∨ ∃ key ∈ keys, note key = some (n, b)) =
        fun n b => noted n b ∨ ∃ key' ∈ key :: keys, note key' = some (n, b) := by
      funext n b
      rw [List.exists_mem_cons_iff, or_comm (a := note key = some (n, b)), or_assoc]
    rw [List.foldl_cons]
    exact hsame ▸ hrest

/-- What a file stored under a key adds to the listing of what is below a prefix. -/
def fileNote (pre key : Str) : Option (Str × Bool) :=
  if pre <+: key ∧ key.drop pre.length ≠ [] then
    some (component slash (key.drop pre.length), decide (slash ∈ key.drop pre.length))
  else none

def dirNote (pre key : Str) : Option (Str × Bool) :=
  if pre <+: key ∧ key.drop pre.length ≠ [] then some (component slash (key.drop pre.length), true) else none

theorem Marked.skip (h : Marked entries noted) :
    Marked entries fun n b => (none : Option (Str × Bool)) = some (n, b) ∨ noted n b := by
  have hsame : noted = fun n b => (none : Option (Str × Bool)) = some (n, b) ∨ noted n b := by
    funext n b
    simp
  exact hsame ▸ h

theorem Marked.note {name : Str} {b : Bool} (h : Marked entries fun n b' => (name, b) = (n, b') ∨ noted n b') :
    Marked entries fun n b' => some (name, b) = some (n, b') ∨ noted n b' := by
  have hsame : (fun n b' => (name, b) = (n, b') ∨ noted n b') =
      fun n b' => some (name, b) = some (n, b') ∨ noted n b' := by
    funext n b'
    rw [Option.some.injEq]
  exact hsame ▸ h

theorem Marked.addFile (h : Marked entries noted) (s : State)
    (pre key : Str) : Marked (addFile s pre entries key) fun n b => fileNote pre key = some (n, b) ∨ noted n b := by
  unfold FileSystem.addFile fileNote
  dsimp only
  by_cases hpre : pre <+: key
  · rw [if_neg (not_not.mpr hpre)]
    by_cases hrest : key.drop pre.length = []
    · rw [if_pos hrest, if_neg fun hnote => hnote.2 hrest]
      exact h.skip
    · have hnote : pre <+: key ∧ key.drop pre.length ≠ [] := ⟨hpre, hrest⟩
      rw [if_neg hrest, if_pos hnote]
      by_cases hslash : slash ∈ key.drop pre.length
      · rw [if_neg (not_not.mpr hslash), decide_eq_true hslash]
        exact (h.assign _ true fun e => (Bool.or_true _).symm).note
      · rw [if_pos hslash, decide_eq_false hslash, component_of_notMem hslash]
        refine (h.assign _ false fun e => ?_).note
        exact (Bool.or_false _).symm
  · rw [if_pos hpre, if_neg fun hnote => hpre hnote.1]
    exact h.skip

theorem Marked.addDir (h : Marked entries noted) (pre key : Str) :
    Marked (addDir pre entries key) fun n b => dirNote pre key = some (n, b) ∨ noted n b := by
  unfold FileSystem.addDir dirNote
  dsimp only
  by_cases hpre : pre <+: key
  · rw [if_neg (not_not.mpr hpre)]
    by_cases hrest : key.drop pre.length = []
    · rw [if_pos hrest, if_neg fun hnote => hnote.2 hrest]
      exact h.skip
    · rw [if_neg hrest, if_pos ⟨hpre, hrest⟩]
      exact (h.assign _ true fun e => (Bool.or_true _).symm).note
  · rw [if_pos hpre, if_neg fun hnote => hpre hnote.1]
    exact h.skip

variable {pre : Str}

theorem below_append {key : Str} : Below slash (pre ++ n) (pre ++ key) ↔ Below slash n key := by
  unfold Below
  simp only [List.append_assoc, List.append_cancel_left_eq]

theorem fileNote_iff {key : Str} {b : Bool} : fileNote pre key = some (n, b) ↔
    slash ∉ n ∧ (b = false ∧ n ≠ [] ∧ key = pre ++ n ∨ b = true ∧ Below slash (pre ++ n) key) := by
  constructor
  · intro h
    unfold fileNote at h
    split_ifs at h with hpre
    obtain ⟨⟨rest, rfl⟩, hrest⟩ := hpre
    rw [List.drop_left] at h hrest
    obtain ⟨rfl, rfl⟩ := Prod.mk.inj (Option.some.inj h)
    refine ⟨sep_notMem_component rest, ?_⟩
    rw [below_append]
    have hcases : rest = component slash rest ∨ Below slash (component slash rest) rest := component_cases rest
    rcases hcases with hcomponent | hbelow
    · have hslash : slash ∉ rest := hcomponent ▸ sep_notMem_component rest
      rw [component_of_notMem hslash]
      exact .inl ⟨decide_eq_false hslash, hrest, rfl⟩
    · refine .inr ⟨decide_eq_true ?_, hbelow⟩
      obtain ⟨r, hr⟩ := hbelow
      rw [hr]
      exact List.mem_append_right _ (List.mem_cons_self ..)
  · rintro ⟨hslash, ⟨rfl, hne, rfl⟩ | ⟨rfl, r, rfl⟩⟩
    · unfold fileNote
      rw [List.drop_left, if_pos ⟨List.prefix_append .., hne⟩, component_of_notMem hslash, decide_eq_false hslash]
    · unfold fileNote
      have hmem : slash ∈ n ++ slash :: r := List.mem_append_right n (List.mem_cons_self ..)
      rw [List.append_assoc, List.drop_left, if_pos ⟨List.prefix_append .., List.ne_nil_of_mem hmem⟩, component_append,
        component_of_notMem hslash, decide_eq_true hmem]

theorem dirNote_iff {key : Str} {b : Bool} : dirNote pre key = some (n, b) ↔
    b = true ∧ ∃ b', fileNote pre key = some (n, b') := by
  unfold dirNote fileNote
  split_ifs with h
  · constructor
    · intro heq
      obtain ⟨rfl, rfl⟩ := Prod.mk.inj (Option.some.inj heq)
      exact ⟨rfl, _, rfl⟩
    · rintro ⟨rfl, b', heq⟩
      obtain ⟨rfl, -⟩ := Prod.mk.inj (Option.some.inj heq)
      rfl
  · simp

def Noted (s : State) (pre n : Str) (b : Bool) : Prop :=
  (∃ key ∈ s.files.keys, fileNote pre key = some (n, b)) ∨ ∃ key ∈ s.dirs, dirNote pre key = some (n, b)

theorem listEntries_marked (s : State) (pre : Str) : Marked (listEntries s pre) (Noted s pre) := by
  have hempty : Marked ∅ fun _ _ => False := by
    refine ⟨fun n => ?_, fun n e he => ?_⟩
    · exact iff_of_false (AList.notMem_empty n) (by simp)
    · cases he
  have hfiles := hempty.foldl (fun entries noted key h => h.addFile s pre key) s.files.keys
  have hdirs := hfiles.foldl (fun entries noted key h => h.addDir pre key) s.dirs
  have hsame : (fun n b => (False ∨ ∃ key ∈ s.files.keys, fileNote pre key = some (n, b)) ∨
      ∃ key ∈ s.dirs, dirNote pre key = some (n, b)) = Noted s pre := by
    funext n b
    rw [false_or, Noted]
  exact hsame ▸ hdirs

theorem exists_fileNote_iff {key : Str} : (∃ b, fileNote pre key = some (n, b)) ↔
    slash ∉ n ∧ (n ≠ [] ∧ key = pre ++ n ∨ Below slash (pre ++ n) key) := by
  simp only [fileNote_iff]
  constructor
  · rintro ⟨b, hslash, ⟨-, h⟩ | ⟨-, h⟩⟩
    · exact ⟨hslash, .inl h⟩
    · exact ⟨hslash, .inr h⟩
  · rintro ⟨hslash, h | h⟩
    · exact ⟨false, hslash, .inl ⟨rfl, h⟩⟩
    · exact ⟨true, hslash, .inr ⟨rfl, h⟩⟩

variable {s : State}

theorem exists_noted_iff : (∃ b, Noted s pre n b) ↔
    ∃ key ∈ s.files.keys ++ s.dirs, slash ∉ n ∧ (n ≠ [] ∧ key = pre ++ n ∨ Below slash (pre ++ n) key) := by
  simp only [← exists_fileNote_iff, List.mem_append]
  constructor
  · rintro ⟨b, ⟨key, hkey, h⟩ | ⟨key, hkey, h⟩⟩
    · exact ⟨key, .inl hkey, b, h⟩
    · exact ⟨key, .inr hkey, (dirNote_iff.mp h).2⟩
  · rintro ⟨key, hkey | hkey, b, h⟩
    · exact ⟨b, .inl ⟨key, hkey, h⟩⟩
    · exact ⟨true, .inr ⟨key, hkey, dirNote_iff.mpr ⟨rfl, b, h⟩⟩⟩

theorem noted_iff_child (hne : n ≠ []) (hslash : slash ∉ n) :
    (∃ b, Noted s pre n b) ↔ Child s pre n := by
  rw [exists_noted_iff]
  constructor
  · rintro ⟨key, hkey, -, h⟩
    exact ⟨key, hkey, h.imp_left And.right⟩
  · rintro ⟨key, hkey, h⟩
    exact ⟨key, hkey, hslash, h.imp_left fun heq => ⟨hne, heq⟩⟩

theorem noted_iff_childDir (hne : n ≠ []) (hslash : slash ∉ n) :
    Noted s pre n true ↔ ChildDir s pre n := by
  have hfile : ∀ key, fileNote pre key = some (n, true) ↔ Below slash (pre ++ n) key := by
    intro key
    simp [fileNote_iff, hslash]
  have hdir : ∀ key, dirNote pre key = some (n, true) ↔ key = pre ++ n ∨ Below slash (pre ++ n) key := by
    intro key
    rw [dirNote_iff, exists_fileNote_iff]
    simp [hne, hslash]
  unfold Noted ChildDir
  simp only [hfile, hdir]

theorem ChildDir.child (h : ChildDir s pre n) : Child s pre n := by
  rcases h with ⟨key, hkey, hbelow⟩ | ⟨key, hkey, h⟩
  · exact ⟨key, List.mem_append_left _ hkey, .inr hbelow⟩
  · exact ⟨key, List.mem_append_right _ hkey, h⟩

theorem mem_listDir {e : DirEntry} :
    e ∈ listDir s d ↔ ∃ n, (listEntries s (listPrefix d)).lookup n = some e := by
  unfold listDir
  rw [List.mem_insertionSort, List.mem_map]
  constructor
  · rintro ⟨⟨n, e⟩, hmem, rfl⟩
    exact ⟨n, AList.mem_lookup_iff.mpr hmem⟩
  · rintro ⟨n, hlookup⟩
    exact ⟨⟨n, e⟩, AList.mem_lookup_iff.mp hlookup, rfl⟩

theorem listed_iff (s : State) (d n : Str) : (∃ e ∈ listDir s d, e.name = n) ↔ ∃ b, Noted s (listPrefix d) n b := by
  have hmarked := listEntries_marked s (listPrefix d)
  rw [← hmarked.mem n]
  constructor
  · rintro ⟨e, he, rfl⟩
    obtain ⟨n, hn⟩ := mem_listDir.mp he
    rw [(hmarked.entry n e hn).1]
    exact AList.lookup_isSome.mp (Option.isSome_iff_exists.mpr ⟨e, hn⟩)
  · intro hn
    obtain ⟨e, he⟩ := Option.isSome_iff_exists.mp (AList.lookup_isSome.mpr hn)
    exact ⟨e, mem_listDir.mpr ⟨n, he⟩, (hmarked.entry n e he).1⟩

theorem isDirectory_iff {e : DirEntry} (he : e ∈ listDir s d) :
    e.isDirectory = true ↔ Noted s (listPrefix d) e.name true := by
  have hmarked := listEntries_marked s (listPrefix d)
  obtain ⟨n, hn⟩ := mem_listDir.mp he
  rw [(hmarked.entry n e hn).1]
  exact (hmarked.entry n e hn).2

theorem nodup_listDir (s : State) (d : Str) : ((listDir s d).map DirEntry.name).Nodup := by
  have hmarked := listEntries_marked s (listPrefix d)
  unfold listDir
  generalize listEntries s (listPrefix d) = entries at hmarked
  have hnames : (entries.entries.map (·.2)).map DirEntry.name = entries.keys := by
    rw [List.map_map]
    refine List.map_congr_left fun x hx => ?_
    exact (hmarked.entry x.1 x.2 (AList.mem_lookup_iff.mpr hx)).1
  refine (((List.perm_insertionSort _ _).map DirEntry.name).nodup_iff).mpr ?_
  rw [hnames]
  exact entries.keys_nodup

/-! ## What the calls keep -/

/-- The directories are closed under ancestors, and every key is normalized. -/
structure Stored (s : State) : Prop where
  closed : ∀ dir ∈ s.dirs, ∀ q, q ≠ [] → Below slash q dir → q ∈ s.dirs
  folded : ∀ key ∈ s.files.keys ++ s.dirs, folded key = key

theorem folded_normalize (path : Str) : folded (normalize path) = normalize path :=
  folded_of_subset (p := path) fun _ hc => (mem_norm hc).imp_left (List.mem_cons_of_mem slash)

theorem Stored.insert {s s' : State} (h : Stored s) (path : Str) (hdirs : s'.dirs = s.dirs)
    (hfiles : ∀ key ∈ s'.files, key = normalize path ∨ key ∈ s.files) : Stored s' := by
  refine ⟨fun dir hdir q hq hbelow => ?_, fun key hkey => ?_⟩
  · rw [hdirs] at hdir ⊢
    exact h.closed dir hdir q hq hbelow
  · rcases List.mem_append.mp hkey with hkey | hkey
    · rcases hfiles key hkey with rfl | hkey
      · exact folded_normalize path
      · exact h.folded key (List.mem_append_left _ hkey)
    · exact h.folded key (List.mem_append_right _ (hdirs ▸ hkey))

theorem Stored.createDirectory (h : Stored s) (path : Str) : Stored (createDirectory s path) := by
  have hmem : ∀ dir, dir ∈ (FileSystem.createDirectory s path).dirs ↔
      (dir ≠ [] ∧ (dir = normalize path ∨ Below slash dir (normalize path))) ∨ dir ∈ s.dirs := by
    intro dir
    change dir ∈ List.filter _ _ ∪ s.dirs ↔ _
    rw [List.mem_union_iff, List.mem_filter, List.mem_cons, mem_ancestors, and_comm]
    simp
  refine ⟨fun dir hdir q hq hbelow => ?_, fun key hkey => ?_⟩
  · rw [hmem] at hdir ⊢
    rcases hdir with ⟨-, rfl | hdir⟩ | hdir
    · exact .inl ⟨hq, .inr hbelow⟩
    · exact .inl ⟨hq, .inr (hbelow.trans hdir)⟩
    · exact .inr (h.closed dir hdir q hq hbelow)
  · rcases List.mem_append.mp hkey with hkey | hkey
    · exact h.folded key (List.mem_append_left _ hkey)
    · rcases (hmem key).mp hkey with ⟨-, rfl | ⟨r, hr⟩⟩ | hkey
      · exact folded_normalize path
      · have hfolded := folded_normalize path
        rw [hr] at hfolded
        simp only [FilePaths.folded, List.map_append] at hfolded
        exact List.append_inj_left hfolded (List.length_map _)
      · exact h.folded key (List.mem_append_right _ hkey)

theorem Stored.link (h : Stored s) (source target : Str) : Stored (link s source target).2 := by
  unfold FileSystem.link
  cases s.files.lookup (normalize source) with
  | none => exact h
  | some file => exact h.insert target rfl fun key hkey => (AList.mem_insert _).mp hkey

theorem Stored.remove (h : Stored s) (held : FileId → Bool) (path : Str) :
    Stored (remove s held path).2 := by
  unfold FileSystem.remove
  dsimp only
  cases s.files.lookup (normalize path) with
  | none => exact h
  | some file =>
    dsimp only
    split_ifs
    · exact h
    · exact h.insert path rfl fun key hkey => .inr (AList.mem_erase.mp hkey).2

theorem Stored.step (h : Stored s) (call : Call) : Stored (step s call) := by
  cases call with
  | create path => exact h.insert path rfl fun key hkey => (AList.mem_insert _).mp hkey
  | createDirectory path => exact h.createDirectory path
  | link source target => exact h.link source target
  | remove held path => exact h.remove held path

theorem stored_after (calls : List Call) : Stored (after calls) := by
  have hrun : ∀ s, Stored s → Stored (calls.foldl step s) := by
    induction calls with
    | nil => exact fun s h => h
    | cons call calls ih => exact fun s h => ih _ (h.step call)
  exact hrun State.init ⟨fun _ hdir => absurd hdir List.not_mem_nil, fun _ hkey => absurd hkey List.not_mem_nil⟩

/-! ## Lookups -/

theorem dirExists_iff (h : Stored s) {path : Str} (hne : n ≠ [])
    (hpath : normalize path = pre ++ n) : dirExists s path ↔ ChildDir s pre n := by
  have hnil : pre ++ n ≠ [] := List.append_ne_nil_of_right_ne_nil pre hne
  have hbelow : ∀ key, (pre ++ n ++ [slash]).isPrefixOf key ↔ Below slash (pre ++ n) key := by
    intro key
    rw [List.isPrefixOf_iff_prefix]
    exact exists_congr fun r => by rw [List.append_assoc, List.singleton_append, eq_comm]
  have hdirs : (∃ key ∈ s.dirs, key = pre ++ n ∨ Below slash (pre ++ n) key) ↔ pre ++ n ∈ s.dirs := by
    constructor
    · rintro ⟨key, hkey, rfl | hkeyBelow⟩
      · exact hkey
      · exact h.closed key hkey _ hnil hkeyBelow
    · exact fun hmem => ⟨_, hmem, .inl rfl⟩
  unfold dirExists ChildDir
  rw [hpath, hdirs]
  simp only [Bool.or_eq_true, List.isEmpty_iff, List.contains_iff_mem, List.any_eq_true, hbelow, hnil, false_or]
  exact or_comm

theorem lookup_iff (h : Stored s) {path : Str} (hne : n ≠ []) (hpath : normalize path = pre ++ n) :
    exists? s path ∨ dirExists s path ↔ Child s pre n := by
  rw [dirExists_iff h hne hpath, exists?, decide_eq_true_eq, hpath]
  constructor
  · rintro (hfile | hdir)
    · exact ⟨_, List.mem_append_left _ hfile, .inl rfl⟩
    · exact hdir.child
  · rintro ⟨key, hkey, hkeyIs⟩
    rcases List.mem_append.mp hkey with hkey | hkey
    · rcases hkeyIs with rfl | hbelow
      · exact .inl hkey
      · exact .inr (.inl ⟨key, hkey, hbelow⟩)
    · exact .inr (.inr ⟨key, hkey, hkeyIs⟩)

/-! ## Agreement -/

theorem lookupPrefix_of_not (h : ¬ Bare d) : lookupPrefix d = listPrefix d := if_neg h

theorem lookupPrefix_of_bare (h : Bare d) : lookupPrefix d = [] := if_pos h

/-- A name is empty where something is stored with a separator behind the prefix. -/
theorem nonempty_iff (s : State) (d : Str) : (∀ e ∈ listDir s d, e.name ≠ []) ↔
    ∀ key ∈ s.files.keys ++ s.dirs, ¬ Below slash (listPrefix d) key := by
  have hlisted := listed_iff s d []
  rw [exists_noted_iff] at hlisted
  constructor
  · intro h key hkey hbelow
    obtain ⟨e, he, hname⟩ := hlisted.mpr ⟨key, hkey, List.not_mem_nil, .inr (by rwa [List.append_nil])⟩
    exact h e he hname
  · intro h e he hname
    obtain ⟨key, hkey, -, ⟨hne, -⟩ | hbelow⟩ := hlisted.mp ⟨e, he, hname⟩
    · exact hne rfl
    · exact h key hkey (by rwa [List.append_nil] at hbelow)

/-- What is listed is what is looked up exactly when what is stored below both prefixes agrees. -/
theorem found_and_marked_iff (h : Stored s) (d : Str) :
    ((∀ n, IsName n → ((∃ e ∈ listDir s d, e.name = folded n) ↔
      exists? s (childPath d n) ∨ dirExists s (childPath d n))) ∧
    ∀ n, IsName n → ∀ e ∈ listDir s d, e.name = folded n → (e.isDirectory ↔ dirExists s (childPath d n))) ↔
    ∀ n, IsName n → (Child s (listPrefix d) (folded n) ↔ Child s (lookupPrefix d) (folded n)) ∧
      (ChildDir s (listPrefix d) (folded n) ↔ ChildDir s (lookupPrefix d) (folded n)) := by
  have hlisted : ∀ n, IsName n → ((∃ e ∈ listDir s d, e.name = folded n) ↔ Child s (listPrefix d) (folded n)) :=
    fun n hn => (listed_iff s d _).trans (noted_iff_child hn.folded.1 hn.folded.2)
  have hmark : ∀ n, IsName n → ∀ e ∈ listDir s d, e.name = folded n →
      (e.isDirectory = true ↔ ChildDir s (listPrefix d) (folded n)) := by
    intro n hn e he hname
    rw [isDirectory_iff he, hname, noted_iff_childDir hn.folded.1 hn.folded.2]
  have hlookup : ∀ n, IsName n → (exists? s (childPath d n) ∨ dirExists s (childPath d n) ↔
      Child s (lookupPrefix d) (folded n)) :=
    fun n hn => lookup_iff h hn.folded.1 (normalize_childPath hn d)
  have hdir : ∀ n, IsName n → (dirExists s (childPath d n) ↔ ChildDir s (lookupPrefix d) (folded n)) :=
    fun n hn => dirExists_iff h hn.folded.1 (normalize_childPath hn d)
  constructor
  · rintro ⟨hfound, hmarked⟩ n hn
    have hchild := ((hlisted n hn).symm.trans (hfound n hn)).trans (hlookup n hn)
    refine ⟨hchild, ?_⟩
    by_cases hmem : Child s (listPrefix d) (folded n)
    · obtain ⟨e, he, hname⟩ := (hlisted n hn).mpr hmem
      exact ((hmark n hn e he hname).symm.trans (hmarked n hn e he hname)).trans (hdir n hn)
    · exact iff_of_false (fun hc => hmem hc.child) fun hc => hmem (hchild.mpr hc.child)
  · intro hsame
    refine ⟨fun n hn => ?_, fun n hn e he hname => ?_⟩
    · exact ((hlisted n hn).trans (hsame n hn).1).trans (hlookup n hn).symm
    · exact ((hmark n hn e he hname).trans (hsame n hn).2).trans (hdir n hn).symm

/-- What is listed is one component, in the characters that keys are stored in. -/
theorem isName_of_listed (h : Stored s) {e : DirEntry} (he : e ∈ listDir s d)
    (hne : e.name ≠ []) : slash ∉ e.name ∧ IsName e.name ∧ folded e.name = e.name := by
  obtain ⟨key, hkey, hslash, hkeyIs⟩ := exists_noted_iff.mp ((listed_iff s d e.name).mp ⟨e, he, rfl⟩)
  have hsubset : ∀ c ∈ e.name, c ∈ key := by
    intro c hc
    rcases hkeyIs with ⟨-, rfl⟩ | ⟨r, rfl⟩
    · exact List.mem_append_right _ hc
    · exact List.mem_append_left _ (List.mem_append_right _ hc)
  have hfold : ∀ c ∈ e.name, fold c = c := by
    intro c hc
    have hmem := hsubset c hc
    rw [← h.folded key hkey] at hmem
    obtain ⟨a, -, rfl⟩ := List.mem_map.mp hmem
    exact fold_fold a
  refine ⟨hslash, ⟨hne, fun c hc heq => hslash ?_⟩, ?_⟩
  · rw [← heq, hfold c hc]
    exact hc
  · exact (List.map_congr_left hfold).trans (List.map_id _)

/-- **Listings agree with lookups** in every state that calls lead to, exactly where nothing stored below the directory
begins with a separator, and the directory is not one of DOS names with other names than the root. -/
theorem agrees_iff_plain (calls : List Call) (d : Str) : Agrees (after calls) d ↔ Plain (after calls) d := by
  have hstored := stored_after calls
  generalize after calls = s at hstored
  have hsame := found_and_marked_iff hstored d
  have hroot : (∀ n, IsName n → (Child s (listPrefix d) (folded n) ↔ Child s (lookupPrefix d) (folded n)) ∧
      (ChildDir s (listPrefix d) (folded n) ↔ ChildDir s (lookupPrefix d) (folded n))) ↔
      (Bare d → ∀ n, IsName n → (Child s (listPrefix d) (folded n) ↔ Child s [] (folded n)) ∧
        (ChildDir s (listPrefix d) (folded n) ↔ ChildDir s [] (folded n))) := by
    by_cases hbare : Bare d
    · rw [lookupPrefix_of_bare hbare]
      exact ⟨fun h _ => h, fun h => h hbare⟩
    · rw [lookupPrefix_of_not hbare]
      exact iff_of_true (fun n _ => ⟨Iff.rfl, Iff.rfl⟩) fun h => absurd h hbare
  constructor
  · intro h
    exact ⟨(nonempty_iff s d).mp h.nonempty, hroot.mp (hsame.mp ⟨h.found, h.marked⟩)⟩
  · intro h
    have hnonempty := (nonempty_iff s d).mpr h.nonempty
    obtain ⟨hfound, hmarked⟩ := hsame.mpr (hroot.mpr h.root)
    refine ⟨nodup_listDir s d, hnonempty, hfound, hmarked, fun e he => ?_⟩
    obtain ⟨hslash, hname, hfolded⟩ := isName_of_listed hstored he (hnonempty e he)
    exact ⟨hslash, (hfound e.name hname).mp ⟨e, he, hfolded.symm⟩⟩

/-- After a file is created under `\A`, the root lists a name that is empty. -/
theorem rooted_disagrees : ¬ ∀ calls d, Agrees (after calls) d := by
  intro hall
  have h := (hall [.create (ascii ['\\', 'A'])] []).nonempty
  revert h
  rw [nonempty_iff]
  intro h
  exact h (ascii ['/', 'a']) (by decide +kernel) ⟨ascii ['a'], rfl⟩

end Kernemul.Directories
