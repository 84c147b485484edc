import Kernemul.Lib.Names
import Kernemul.Win.Registry
import Kernemul.Win.Text

/-!
# Paths of registry keys

A key is found under the path that its name was turned into: by `normalize_path` where the name is absolute, below the
path of a handle where it is relative to one, and below a fixed path by the `Rtl` routines. The names of a path, without
those of the machine root in front, are what any spelling of it has in common.
-/

namespace Kernemul.RegistryPaths

open Text Names
open Registry (State openKey createKey)

def folded (guestPath : WStr) : Str := (narrowWstring guestPath).map fold

/-- `registry/machine/`. -/
def machinePrefix : Str :=
  ascii ['r', 'e', 'g', 'i', 's', 't', 'r', 'y', '/', 'm', 'a', 'c', 'h', 'i', 'n', 'e', '/']

def stripMachine (path : Str) : Str := if machinePrefix <+: path then path.drop machinePrefix.length else path

def stripSlash (path : Str) : Str := if path.head? = some slash then path.tail else path

/-- What is left when a machine prefix, a separator and another machine prefix have been stripped. -/
def strip (path : Str) : Str := stripMachine (stripSlash (stripMachine path))

def normalizePath (guestPath : WStr) : Str := trimEnd (strip (folded guestPath))

/-- `_OBJECT_ATTRIBUTES`: the name, and the root directory, which may be a handle that is no open key. -/
structure ObjectAttributes where
  objectName : WStr
  rootDirectory : Option (Option Str)

def resolveKeyPath : Option ObjectAttributes → Str
  | none => []
  | some attrs =>
    let relative := normalizePath attrs.objectName
    match attrs.rootDirectory with
    | none => relative
    | some none => relative
    | some (some parent) => if relative = [] then parent else parent ++ slash :: relative

/-- `relative_to`, without the flags. -/
def relativeRoot (relativeTo : BitVec 32) : BitVec 32 := relativeTo &&& ~~~ 0xc0000000

def servicesNames : List Str :=
  [ascii ['s', 'y', 's', 't', 'e', 'm'],
    ascii ['c', 'u', 'r', 'r', 'e', 'n', 't', 'c', 'o', 'n', 't', 'r', 'o', 'l', 's', 'e', 't'],
    ascii ['s', 'e', 'r', 'v', 'i', 'c', 'e', 's']]

def controlNames : List Str :=
  [ascii ['s', 'y', 's', 't', 'e', 'm'],
    ascii ['c', 'u', 'r', 'r', 'e', 'n', 't', 'c', 'o', 'n', 't', 'r', 'o', 'l', 's', 'e', 't'],
    ascii ['c', 'o', 'n', 't', 'r', 'o', 'l']]

def windowsNtNames : List Str :=
  [ascii ['s', 'o', 'f', 't', 'w', 'a', 'r', 'e'], ascii ['m', 'i', 'c', 'r', 'o', 's', 'o', 'f', 't'],
    ascii ['w', 'i', 'n', 'd', 'o', 'w', 's', ' ', 'n', 't'],
    ascii ['c', 'u', 'r', 'r', 'e', 'n', 't', 'v', 'e', 'r', 's', 'i', 'o', 'n']]

def devicemapNames : List Str :=
  [ascii ['h', 'a', 'r', 'd', 'w', 'a', 'r', 'e'], ascii ['d', 'e', 'v', 'i', 'c', 'e', 'm', 'a', 'p']]

def userNames : List Str := [ascii ['u', 's', 'e', 'r']]

/-- The names that stand before a relative path, by the cases of the switch. -/
def rtlNames (relativeTo : BitVec 32) : Option (List Str) :=
  if relativeRoot relativeTo = 1 then some servicesNames
  else if relativeRoot relativeTo = 2 then some controlNames
  else if relativeRoot relativeTo = 3 then some windowsNtNames
  else if relativeRoot relativeTo = 4 then some devicemapNames
  else if relativeRoot relativeTo = 5 then some userNames
  else none

def resolveRtlPath (relativeTo : BitVec 32) (path : WStr) : Str :=
  let relative := normalizePath path
  match rtlNames relativeTo with
  | none => relative
  | some ns => join slash ns ++ slash :: relative

/-! ## Keys and spellings -/

def registryName : Str := ascii ['r', 'e', 'g', 'i', 's', 't', 'r', 'y']
def machineName : Str := ascii ['m', 'a', 'c', 'h', 'i', 'n', 'e']

def machine : List Str := [registryName, machineName]

def dropMachine : List Str → List Str
  | a :: b :: ns => if a = registryName ∧ b = machineName then dropMachine ns else a :: b :: ns
  | ns => ns

def keyNames (path : Str) : List Str := dropMachine (names slash path)

def plainSpelling (guestPath : WStr) : WStr := widenString (join slash (keyNames (folded guestPath)))

/-- A path leads where it leads in any case, without the separators that are redundant, and normalized once more. -/
structure Insensitive (p : WStr) : Prop where
  case : ∀ p', (narrowWstring p').map lower = (narrowWstring p).map lower → normalizePath p' = normalizePath p
  separators : normalizePath p = normalizePath (plainSpelling p)
  idempotent : normalizePath (widenString (normalizePath p)) = normalizePath p

def backslashUnit : UInt16 := 0x5c

def guestPath (ns : List Str) : WStr := widenString (ns.flatMap fun n => backslash :: n)

/-- The keys that the `Rtl` routines say they go on from. -/
def rtlRoot (relativeTo : BitVec 32) : Option (List Str) :=
  (rtlNames relativeTo).map fun ns => if ns = userNames then registryName :: userNames else machine ++ ns

/-- A relative path of an `Rtl` routine as an absolute one. -/
def rtlAbsolute (relativeTo : BitVec 32) (path : WStr) : WStr :=
  match rtlRoot relativeTo with
  | none => path
  | some ns => guestPath ns ++ backslashUnit :: path

/-- A way to a key: by an absolute path, below a handle that was opened by one, or by an `Rtl` routine. -/
inductive Request
  | key (path : WStr)
  | below (path relative : WStr)
  | rtl (relativeTo : BitVec 32) (path : WStr)

def Request.path : Request → Str
  | key p => normalizePath p
  | below p r => resolveKeyPath (some ⟨r, some (some (normalizePath p))⟩)
  | rtl relativeTo r => resolveRtlPath relativeTo r

def Request.absolute : Request → WStr
  | key p => p
  | below p r => p ++ backslashUnit :: r
  | rtl relativeTo r => rtlAbsolute relativeTo r

def Request.root : Request → Option WStr
  | below p _ => some p
  | _ => none

/-- A request leads where the absolute path leads, which does not depend on how it is spelled: what was created under
the plain spelling is found. -/
structure Request.Resolves (req : Request) : Prop where
  root : ∀ p ∈ req.root, Insensitive p
  absolute : Insensitive req.absolute
  path : req.path = normalizePath req.absolute
  found : ∀ s : State, openKey (createKey s (normalizePath (plainSpelling req.absolute))).2 req.path =
    some (createKey s (normalizePath (plainSpelling req.absolute))).1

/-- What `strip` takes off: a machine prefix, a separator and another machine prefix, or some of them. -/
def Lead (l : Str) : Prop := ∃ a ∈ [[], machinePrefix], ∃ b ∈ [[], [slash]], ∃ c ∈ [[], machinePrefix], l = a ++ b ++ c

/-- Such a lead, then names with one separator between each, which do not begin with the machine root, and any number
of separators behind. -/
def Spelled (path : Str) : Prop := ∃ l ns k, Lead l ∧ Valid slash ns ∧ ¬ machine <+: ns ∧
  path = l ++ (join slash ns ++ List.replicate k slash)

/-- A relative path names nothing; or neither path names anything but the machine root; or the first names a key and
the second goes on from it, and has no machine prefix. -/
def Continues (path relative : Str) : Prop :=
  names slash relative = [] ∨ (keyNames path = [] ∧ keyNames relative = [] ∧ Spelled relative) ∨
    (keyNames path ≠ [] ∧ ¬ machine <+: keyNames path ++ names slash relative ∧ ¬ machinePrefix <+: relative)

def Request.Spelled : Request → Prop
  | key p => RegistryPaths.Spelled (folded p)
  | below p r => RegistryPaths.Spelled (folded p) ∧ RegistryPaths.Spelled (folded p ++ slash :: folded r) ∧
    Continues (folded p) (folded r)
  | rtl relativeTo r => RegistryPaths.Spelled (folded (rtlAbsolute relativeTo r)) ∧
    (rtlNames relativeTo = none ∨ rtlNames relativeTo ≠ some userNames ∧ names slash (folded r) ≠ [] ∧
      ¬ machinePrefix <+: folded r)

/-! ## Folding -/

theorem folded_widenString (s : Str) : folded (widenString s) = s.map fold := by rw [folded, narrowWstring_widenString]

theorem folded_append (p r : WStr) : folded (p ++ r) = folded p ++ folded r := by
  rw [folded, narrowWstring, List.map_append, List.map_append]
  rfl

theorem folded_below (p r : WStr) : folded (p ++ backslashUnit :: r) = folded p ++ slash :: folded r :=
  folded_append p (backslashUnit :: r)

theorem folded_of_lower {p p' : WStr} (h : (narrowWstring p').map lower = (narrowWstring p).map lower) :
    folded p' = folded p := by
  have hfold : fold = (fun c => if c = backslash then slash else c) ∘ lower := funext fold_eq_of_lower
  rw [folded, folded, hfold, ← List.map_map, h, List.map_map]

theorem map_fold_of_subset {p : WStr} {s : Str} (h : ∀ c ∈ s, c = slash ∨ c ∈ folded p) : s.map fold = s := by
  refine (List.map_congr_left fun c hc => ?_).trans (List.map_id s)
  rcases h c hc with rfl | hmem
  · decide
  · obtain ⟨a, -, rfl⟩ := List.mem_map.mp hmem
    exact fold_fold a

/-! ## The machine root -/

theorem dropMachine_machine (ns : List Str) : dropMachine (machine ++ ns) = dropMachine ns := if_pos ⟨rfl, rfl⟩

variable {ns : List Str}

theorem dropMachine_of_not_machine (h : ¬ machine <+: ns) : dropMachine ns = ns := by
  cases ns using dropMachine.fun_cases_unfolding with
  | case1 a b ns hname => exact absurd (hname.1 ▸ hname.2 ▸ List.prefix_append machine ns) h
  | case2 a b ns hname => rfl
  | case3 ns => rfl

theorem not_machine_dropMachine (ns : List Str) : ¬ machine <+: dropMachine ns := by
  fun_induction dropMachine ns with
  | case1 a b ns hname ih => exact ih
  | case2 a b ns hname =>
    rintro ⟨rest, heq⟩
    injection heq with ha heq
    injection heq with hb
    exact hname ⟨ha.symm, hb.symm⟩
  | case3 ns hshort =>
    rintro ⟨rest, rfl⟩
    exact hshort _ _ _ rfl

theorem dropMachine_append (ns ms : List Str) : dropMachine (ns ++ ms) = dropMachine (dropMachine ns ++ ms) := by
  fun_induction dropMachine ns with
  | case1 a b ns hname ih =>
    obtain ⟨rfl, rfl⟩ := hname
    exact (dropMachine_machine (ns ++ ms)).trans ih
  | case2 a b ns hname => rfl
  | case3 ns hshort => rfl

theorem mem_of_mem_dropMachine {n : Str} (h : n ∈ dropMachine ns) : n ∈ ns := by
  fun_induction dropMachine ns with
  | case1 a b ns hname ih => exact List.mem_cons_of_mem a (List.mem_cons_of_mem b (ih h))
  | case2 a b ns hname => exact h
  | case3 ns hshort => exact h

theorem valid_keyNames (path : Str) : Valid slash (keyNames path) :=
  fun n hn => valid_names slash path n (mem_of_mem_dropMachine hn)

theorem names_machinePrefix (y : Str) : names slash (machinePrefix ++ y) = machine ++ names slash y := by
  have hsplit : machinePrefix ++ y = registryName ++ slash :: (machineName ++ slash :: y) := rfl
  have hregistry : names slash registryName = [registryName] := by decide +kernel
  have hmachine : names slash machineName = [machineName] := by decide +kernel
  rw [hsplit, names_append, names_append, hregistry, hmachine]
  rfl

/-! ## Stripping -/

theorem not_machinePrefix {y : Str} (h : ¬ machine <+: names slash y) : ¬ machinePrefix <+: y := by
  rintro ⟨z, rfl⟩
  exact h (names_machinePrefix z ▸ List.prefix_append ..)

theorem stripMachine_append (y : Str) : stripMachine (machinePrefix ++ y) = y := by
  rw [stripMachine, if_pos (List.prefix_append ..), List.drop_left]

theorem stripMachine_of_not {y : Str} (h : ¬ machinePrefix <+: y) : stripMachine y = y := if_neg h

theorem stripSlash_of_not {y : Str} (h : y.head? ≠ some slash) : stripSlash y = y := if_neg h

theorem Lead.nil : Lead [] := ⟨[], by simp, [], by simp, [], by simp, rfl⟩

theorem exists_lead (path : Str) : ∃ l, Lead l ∧ path = l ++ strip path := by
  have hmachine : ∀ y, ∃ a ∈ [[], machinePrefix], y = a ++ stripMachine y := by
    intro y
    by_cases h : machinePrefix <+: y
    · obtain ⟨z, rfl⟩ := h
      exact ⟨machinePrefix, by simp, by rw [stripMachine_append]⟩
    · exact ⟨[], by simp, (stripMachine_of_not h).symm⟩
  have hslash : ∀ y, ∃ b ∈ [[], [slash]], y = b ++ stripSlash y := by
    intro y
    by_cases h : y.head? = some slash
    · obtain ⟨z, rfl⟩ := List.head?_eq_some_iff.mp h
      exact ⟨[slash], by simp, rfl⟩
    · exact ⟨[], by simp, (stripSlash_of_not h).symm⟩
  obtain ⟨a, ha, heqa⟩ := hmachine path
  obtain ⟨b, hb, heqb⟩ := hslash (stripMachine path)
  obtain ⟨c, hc, heqc⟩ := hmachine (stripSlash (stripMachine path))
  refine ⟨a ++ b ++ c, ⟨a, ha, b, hb, c, hc, rfl⟩, ?_⟩
  rw [List.append_assoc, List.append_assoc, strip, ← heqc, ← heqb, ← heqa]

theorem keyNames_machinePrefix (y : Str) : keyNames (machinePrefix ++ y) = keyNames y := by
  rw [keyNames, names_machinePrefix, dropMachine_machine, keyNames]

theorem keyNames_slash (y : Str) : keyNames (slash :: y) = keyNames y := by rw [keyNames, names_sep, keyNames]

theorem keyNames_lead {l : Str} (hl : Lead l) (y : Str) : keyNames (l ++ y) = keyNames y := by
  obtain ⟨a, ha, b, hb, c, hc, rfl⟩ := hl
  have hmachine : ∀ a ∈ [[], machinePrefix], ∀ y, keyNames (a ++ y) = keyNames y := by
    intro a ha y
    rcases List.mem_pair.mp ha with rfl | rfl
    · rfl
    · exact keyNames_machinePrefix y
  have hslash : ∀ y, keyNames (b ++ y) = keyNames y := by
    intro y
    rcases List.mem_pair.mp hb with rfl | rfl
    · rfl
    · exact keyNames_slash y
  rw [List.append_assoc, List.append_assoc, hmachine a ha, hslash, hmachine c hc]

theorem strip_lead {l : Str} (hl : Lead l) {y : Str} (hy : ¬ machine <+: names slash y) :
    strip (l ++ y) = y ∨ strip (l ++ y) = stripSlash y := by
  have hstay : stripMachine y = y := stripMachine_of_not (not_machinePrefix hy)
  have hslash : stripMachine (stripSlash y) = stripSlash y := by
    by_cases h : y.head? = some slash
    · obtain ⟨z, rfl⟩ := List.head?_eq_some_iff.mp h
      rw [names_sep] at hy
      exact stripMachine_of_not (not_machinePrefix hy)
    · rw [stripSlash_of_not h, hstay]
  have hsep : ∀ z, stripMachine (slash :: z) = slash :: z := fun z => stripMachine_of_not (by
    rintro ⟨w, hw⟩
    cases hw)
  have hname : ∀ z, stripSlash (machinePrefix ++ z) = machinePrefix ++ z := fun z => rfl
  have hback : ∀ z, stripSlash (slash :: z) = z := fun z => rfl
  obtain ⟨a, ha, b, hb, c, hc, rfl⟩ := hl
  unfold strip
  rcases List.mem_pair.mp ha with rfl | rfl <;> rcases List.mem_pair.mp hb with rfl | rfl <;>
    rcases List.mem_pair.mp hc with rfl | rfl <;>
    simp only [List.nil_append, List.append_nil, List.append_assoc, List.cons_append, stripMachine_append, hsep, hname,
      hback, hstay, hslash, true_or, or_true]

/-! ## One path -/

/-- What `normalize_path` makes of a folded path. -/
def norm (path : Str) : Str := trimEnd (strip path)

theorem trimEnd_join_append (h : Valid slash ns) (k : ℕ) :
    trimEnd (join slash ns ++ List.replicate k slash) = join slash ns := rdropWhile_join_append h k

theorem norm_of_spelled {l : Str} {k : ℕ} (hl : Lead l) (hvalid : Valid slash ns)
    (hroot : ¬ machine <+: ns) : norm (l ++ (join slash ns ++ List.replicate k slash)) = join slash ns := by
  have hnames := names_join_append hvalid k
  rcases strip_lead hl (hnames.symm ▸ hroot) with hstrip | hstrip
  · rw [norm, hstrip, trimEnd_join_append hvalid]
  · rw [norm, hstrip]
    rcases eq_or_ne ns [] with rfl | hne
    · refine rdropWhile_eq_nil_iff.mpr ?_
      by_cases hhead : (join slash [] ++ List.replicate k slash).head? = some slash
      · obtain ⟨z, hz⟩ := List.head?_eq_some_iff.mp hhead
        rw [hz, names_sep] at hnames
        rw [hz]
        exact hnames
      · rw [stripSlash_of_not hhead, hnames]
    · rw [stripSlash_of_not (head?_join_append hvalid hne _), trimEnd_join_append hvalid]

theorem norm_eq_iff (path : Str) : norm path = join slash (keyNames path) ↔ Spelled path := by
  constructor
  · intro h
    obtain ⟨l, hl, hpath⟩ := exists_lead path
    obtain ⟨k, hk⟩ := exists_replicate slash (strip path)
    refine ⟨l, keyNames path, k, hl, valid_keyNames path, not_machine_dropMachine _, ?_⟩
    rw [← h]
    exact hpath.trans (congrArg (l ++ ·) hk)
  · rintro ⟨l, ns, k, hl, hvalid, hroot, rfl⟩
    rw [norm_of_spelled hl hvalid hroot, keyNames_lead hl, keyNames, names_join_append hvalid,
      dropMachine_of_not_machine hroot]

theorem norm_join (hvalid : Valid slash ns) (hroot : ¬ machine <+: ns) :
    norm (join slash ns) = join slash ns := by
  have h := norm_of_spelled (k := 0) .nil hvalid hroot
  rwa [List.replicate_zero, List.append_nil, List.nil_append] at h

theorem map_fold_join (p : WStr) : (join slash (keyNames (folded p))).map fold = join slash (keyNames (folded p)) := by
  refine @map_fold_of_subset p _ fun c hc => ?_
  rcases mem_join hc with rfl | ⟨n, hn, hcn⟩
  · exact .inl rfl
  · exact .inr (mem_of_mem_names (mem_of_mem_dropMachine hn) hcn)

theorem insensitive_iff (p : WStr) : Insensitive p ↔ Spelled (folded p) := by
  have hfold := map_fold_join p
  have hplain : normalizePath (plainSpelling p) = join slash (keyNames (folded p)) := by
    rw [normalizePath, plainSpelling, folded_widenString, hfold]
    exact norm_join (valid_keyNames _) (not_machine_dropMachine _)
  rw [← norm_eq_iff]
  constructor
  · intro h
    exact h.separators.trans hplain
  · intro h
    change normalizePath p = _ at h
    refine ⟨fun p' hp' => ?_, h.trans hplain.symm, ?_⟩
    · rw [normalizePath, normalizePath, folded_of_lower hp']
    · rw [h]
      exact hplain

/-! ## A relative path -/

section relative
variable {c d : Str}

theorem keyNames_below (c d : Str) : keyNames (c ++ slash :: d) = dropMachine (keyNames c ++ names slash d) := by
  rw [keyNames, names_append, dropMachine_append, ← keyNames]

theorem names_norm (path : Str) : names slash (norm path) = names slash (strip path) := names_rdropWhile _

theorem names_stripSlash (y : Str) : names slash (stripSlash y) = names slash y := by
  by_cases h : y.head? = some slash
  · obtain ⟨z, rfl⟩ := List.head?_eq_some_iff.mp h
    exact (names_sep z).symm
  · rw [stripSlash_of_not h]

theorem length_names_stripMachine (y : Str) :
    (names slash (stripMachine y)).length ≤ (names slash y).length := by
  by_cases h : machinePrefix <+: y
  · obtain ⟨z, rfl⟩ := h
    rw [stripMachine_append, names_machinePrefix, List.length_append]
    exact Nat.le_add_left ..
  · rw [stripMachine_of_not h]

/-- Without the machine root in front nothing is taken off but a separator. -/
theorem names_norm_of_not (h : ¬ machine <+: names slash d) : names slash (norm d) = names slash d := by
  rw [names_norm]
  rcases strip_lead .nil h with hstrip | hstrip
  · exact congrArg (names slash) hstrip
  · exact (congrArg (names slash) hstrip).trans (names_stripSlash d)

theorem norm_eq_nil (h : names slash d = []) : norm d = [] := by
  refine rdropWhile_eq_nil_iff.mpr ?_
  rw [← names_norm, names_norm_of_not (by rw [h]; decide), h]

/-- A relative path in plain spelling stays what it is, if there is no machine prefix to take off. -/
theorem norm_eq_join_names (hplain : trimEnd d = join slash (names slash d)) (hne : names slash d ≠ []) :
    norm d = join slash (names slash d) ↔ ¬ machinePrefix <+: d := by
  constructor
  · rintro h ⟨z, rfl⟩
    have hshort : (names slash (norm (machinePrefix ++ z))).length ≤ (names slash z).length := by
      rw [names_norm, strip, stripMachine_append, ← names_stripSlash z]
      exact length_names_stripMachine _
    rw [h, names_join (valid_names slash _), names_machinePrefix, List.length_append] at hshort
    exact absurd hshort (Nat.not_le.mpr (Nat.lt_add_of_pos_left (by decide)))
  · intro h
    have hhead : d.head? ≠ some slash := by
      intro hslash
      obtain ⟨z, rfl⟩ := List.head?_eq_some_iff.mp hslash
      have hz : trimEnd z ≠ [] := by
        rw [names_sep] at hne
        exact fun hnil => hne (rdropWhile_eq_nil_iff.mp hnil)
      have hjoin := head?_join (valid_names slash (slash :: z))
      rw [← hplain] at hjoin
      have htrim : trimEnd (slash :: z) = slash :: trimEnd z := rdropWhile_append [slash] hz
      rw [htrim] at hjoin
      exact hjoin rfl
    rw [norm, strip, stripMachine_of_not h, stripSlash_of_not hhead, stripMachine_of_not h, hplain]

theorem plain_of_below (hc : Spelled c) (hkey : keyNames c ≠ []) (hne : names slash d ≠ [])
    (hroot : ¬ machine <+: keyNames c ++ names slash d)
    (h : norm (c ++ slash :: d) = join slash (keyNames c ++ names slash d)) :
    trimEnd d = join slash (names slash d) := by
  obtain ⟨l, ns, k, hl, hvalid, hns, rfl⟩ := hc
  have hkeyNames : keyNames (l ++ (join slash ns ++ List.replicate k slash)) = ns := by
    rw [keyNames_lead hl, keyNames, names_join_append hvalid, dropMachine_of_not_machine hns]
  rw [hkeyNames] at hkey hroot h
  have htrim : trimEnd d ≠ [] := fun hnil => hne (rdropWhile_eq_nil_iff.mp hnil)
  have hstrip : strip (l ++ (join slash ns ++ (List.replicate k slash ++ slash :: d))) =
      join slash ns ++ (List.replicate k slash ++ slash :: d) := by
    have hnames : names slash (join slash ns ++ (List.replicate k slash ++ slash :: d)) = ns ++ names slash d := by
      rw [← List.append_assoc, names_append, names_join_append hvalid]
    rcases strip_lead hl (hnames.symm ▸ hroot) with heq | heq
    · exact heq
    · rw [heq, stripSlash_of_not (head?_join_append hvalid hkey _)]
  have hnorm : norm (l ++ (join slash ns ++ List.replicate k slash) ++ slash :: d) =
      join slash ns ++ (List.replicate k slash ++ [slash]) ++ trimEnd d := by
    have hassoc : l ++ (join slash ns ++ List.replicate k slash) ++ slash :: d =
        l ++ (join slash ns ++ (List.replicate k slash ++ slash :: d)) := by simp only [List.append_assoc]
    have hassoc' : join slash ns ++ (List.replicate k slash ++ slash :: d) =
        join slash ns ++ (List.replicate k slash ++ [slash]) ++ d := by
      simp only [List.append_assoc, List.singleton_append]
    rw [norm, hassoc, hstrip, hassoc']
    exact rdropWhile_append _ htrim
  rw [hnorm, join_append hkey hne, ← List.replicate_succ', List.replicate_succ, List.append_assoc,
    List.append_cancel_left_eq, List.cons_append, List.cons.injEq] at h
  obtain ⟨-, h⟩ := h
  cases k with
  | zero => exact h
  | succ k =>
    have hhead := head?_join (valid_names slash d)
    rw [← h] at hhead
    exact absurd rfl hhead

def joinRelative (parent relative : Str) : Str := if relative = [] then parent else parent ++ slash :: relative

/-- A relative path that begins with the second name of the machine root is another key below the first. -/
theorem joinRelative_ne_of_root {ns : List Str} (hns : ns ≠ []) (hvalid : Valid slash ns) (hroot : ¬ machine <+: ns)
    (h : machine <+: ns ++ names slash d) :
    joinRelative (join slash ns) (norm d) ≠ join slash (dropMachine (ns ++ names slash d)) := by
  obtain ⟨a, ms, rfl⟩ := List.exists_cons_of_ne_nil hns
  obtain ⟨rest, hrest⟩ := h
  have ha : registryName = a := (List.cons.inj hrest).1
  have htail : machineName :: rest = ms ++ names slash d := (List.cons.inj hrest).2
  subst ha
  cases ms with
  | cons b ms =>
    obtain ⟨hb, -⟩ := List.cons.inj htail
    exact absurd ⟨ms, by rw [← hb]; rfl⟩ hroot
  | nil =>
    have hd : names slash d = machineName :: rest := htail.symm
    have hstay : names slash (norm d) = names slash d := by
      refine names_norm_of_not ?_
      rw [hd]
      rintro ⟨w, hw⟩
      exact absurd (List.cons.inj hw).1 (by decide)
    have hne : norm d ≠ [] := by
      intro hnil
      rw [hnil, hd, names_nil] at hstay
      cases hstay
    intro heq
    have hdropped : dropMachine ([registryName] ++ names slash d) = dropMachine rest := by
      rw [hd]
      exact dropMachine_machine rest
    have hnames := congrArg (names slash) heq
    rw [joinRelative, if_neg hne, names_append, names_join hvalid, hstay, hdropped, hd,
      names_join fun n hn => valid_names slash d n (hd ▸ List.mem_cons_of_mem _ (mem_of_mem_dropMachine hn))] at hnames
    exact not_machine_dropMachine rest ⟨rest, hnames⟩

/-- Below the machine root nothing but the root is where the absolute path leads. -/
theorem below_root_iff (hkey : keyNames c = []) (hne : names slash d ≠ []) :
    joinRelative [] (norm d) = join slash (keyNames d) ↔ Continues c d := by
  have hnil : join slash ([] : List Str) = [] := rfl
  constructor
  · intro h
    by_cases hnorm : norm d = []
    · rw [joinRelative, if_pos hnorm] at h
      have hd := join_eq_nil (valid_keyNames d) h.symm
      refine .inr (.inl ⟨hkey, hd, (norm_eq_iff d).mp ?_⟩)
      rw [hnorm, hd, hnil]
    · rw [joinRelative, if_neg hnorm] at h
      have hhead := head?_join (valid_keyNames d)
      rw [← h] at hhead
      exact absurd rfl hhead
  · rintro (h | h | h)
    · exact absurd h hne
    · have hnorm := (norm_eq_iff d).mpr h.2.2
      rw [h.2.1, hnil] at hnorm
      rw [joinRelative, if_pos hnorm, h.2.1, hnil]
    · exact absurd hkey h.1

/-- Where both paths have names and stay plain, the relative one must be as it is when it is normalized. -/
theorem below_names_iff {ns : List Str} (hvalid : Valid slash ns) (hns : ns ≠ []) (hne : names slash d ≠ []) :
    joinRelative (join slash ns) (norm d) = join slash (ns ++ names slash d) ↔
      norm d = join slash (names slash d) := by
  rw [join_append hns hne]
  constructor
  · intro h
    by_cases hnorm : norm d = []
    · rw [joinRelative, if_pos hnorm, ← join_append hns hne] at h
      have hnames := join_inj hvalid (hvalid.append (valid_names slash d)) h
      exact absurd (List.self_eq_append_right.mp hnames) hne
    · rw [joinRelative, if_neg hnorm, List.append_cancel_left_eq, List.cons.injEq] at h
      exact h.2
  · intro h
    have hnorm : norm d ≠ [] := fun hnil => hne (join_eq_nil (valid_names slash d) (h.symm.trans hnil))
    rw [joinRelative, if_neg hnorm, h]

theorem below_iff (hc : norm c = join slash (keyNames c))
    (hcd : norm (c ++ slash :: d) = join slash (keyNames (c ++ slash :: d))) :
    joinRelative (norm c) (norm d) = norm (c ++ slash :: d) ↔ Continues c d := by
  have hvalid := valid_keyNames c
  have hroot : ¬ machine <+: keyNames c := not_machine_dropMachine (names slash c)
  have hjoined := hcd
  rw [keyNames_below] at hjoined
  rw [hc, hjoined]
  by_cases hne : names slash d = []
  · refine iff_of_true ?_ (.inl hne)
    rw [joinRelative, if_pos (norm_eq_nil hne), hne, List.append_nil, dropMachine_of_not_machine hroot]
  by_cases hkey : keyNames c = []
  · rw [hkey, List.nil_append, ← keyNames]
    exact below_root_iff hkey hne
  by_cases hdrop : machine <+: keyNames c ++ names slash d
  · refine iff_of_false (joinRelative_ne_of_root hkey hvalid hroot hdrop) ?_
    rintro (h | h | h)
    · exact hne h
    · exact hkey h.1
    · exact h.2.1 hdrop
  · rw [dropMachine_of_not_machine hdrop] at hjoined ⊢
    have hplain := plain_of_below ((norm_eq_iff c).mp hc) hkey hne hdrop hjoined
    rw [below_names_iff hvalid hkey hne, norm_eq_join_names hplain hne]
    constructor
    · exact fun h => .inr (.inr ⟨hkey, hdrop, h⟩)
    · rintro (h | h | h)
      · exact absurd h hne
      · exact absurd h.1 hkey
      · exact h.2.2

end relative

/-! ## The `Rtl` routines -/

/-- Names that an `Rtl` routine goes on from below the machine root. -/
structure RtlBase (ns : List Str) : Prop where
  valid : Valid slash ns
  nonempty : ns ≠ []
  head : ns.head? ≠ some registryName
  user : ns ≠ userNames
  path : folded (guestPath (machine ++ ns)) = slash :: machinePrefix ++ join slash ns

theorem rtlNames_cases {relativeTo : BitVec 32} (h : rtlNames relativeTo = some ns) :
    ns = userNames ∨ RtlBase ns := by
  unfold rtlNames at h
  split_ifs at h
  · obtain rfl := Option.some.inj h
    exact .inr ⟨by decide, by decide, by decide, by decide, by decide +kernel⟩
  · obtain rfl := Option.some.inj h
    exact .inr ⟨by decide, by decide, by decide, by decide, by decide +kernel⟩
  · obtain rfl := Option.some.inj h
    exact .inr ⟨by decide, by decide, by decide, by decide, by decide +kernel⟩
  · obtain rfl := Option.some.inj h
    exact .inr ⟨by decide, by decide, by decide, by decide, by decide +kernel⟩
  · exact .inl (Option.some.inj h).symm

theorem RtlBase.not_root (h : RtlBase ns) (ms : List Str) : ¬ machine <+: ns ++ ms := by
  obtain ⟨a, ns', rfl⟩ := List.exists_cons_of_ne_nil h.nonempty
  rintro ⟨rest, hrest⟩
  exact h.head (congrArg some (List.cons.inj hrest).1.symm)

/-- Below such names a relative path reaches the key of the absolute one when it has a name and no machine prefix. -/
theorem RtlBase.norm_iff (h : RtlBase ns) {d : Str}
    (hspelled : Spelled (slash :: machinePrefix ++ join slash ns ++ slash :: d)) :
    join slash ns ++ slash :: norm d = norm (slash :: machinePrefix ++ join slash ns ++ slash :: d) ↔
      names slash d ≠ [] ∧ ¬ machinePrefix <+: d := by
  have hlead : Lead (slash :: machinePrefix) := ⟨[], by simp, [slash], by simp, machinePrefix, by simp, rfl⟩
  have hroot : ¬ machine <+: ns := fun hprefix => h.not_root [] (by rwa [List.append_nil])
  have hc : Spelled (slash :: machinePrefix ++ join slash ns) :=
    ⟨_, ns, 0, hlead, h.valid, hroot, by rw [List.replicate_zero, List.append_nil]⟩
  have hkey : keyNames (slash :: machinePrefix ++ join slash ns) = ns := by
    rw [keyNames_lead hlead, keyNames, names_join h.valid, dropMachine_of_not_machine hroot]
  have hnorm := (norm_eq_iff _).mpr hc
  rw [hkey] at hnorm
  have hjoined := (norm_eq_iff _).mpr hspelled
  have hbelow := below_iff ((norm_eq_iff _).mpr hc) hjoined
  rw [keyNames_below, hkey, dropMachine_of_not_machine (h.not_root _)] at hjoined
  rw [hnorm] at hbelow
  constructor
  · intro heq
    have hne : norm d ≠ [] := by
      intro hnil
      have htrim : trimEnd (join slash ns ++ [slash]) = join slash ns := trimEnd_join_append h.valid 1
      have hstay : trimEnd (join slash (ns ++ names slash d)) = join slash (ns ++ names slash d) :=
        rdropWhile_join (h.valid.append (valid_names slash d))
      rw [hnil, hjoined] at heq
      rw [← heq, htrim] at hstay
      exact absurd (List.self_eq_append_right.mp hstay) (List.cons_ne_nil _ _)
    rw [joinRelative, if_neg hne] at hbelow
    have hnothing : names slash d ≠ [] := fun hnil => hne (norm_eq_nil hnil)
    rcases hbelow.mp heq with hcase | hcase | hcase
    · exact absurd hcase hnothing
    · exact absurd (hkey.symm.trans hcase.1) h.nonempty
    · exact ⟨hnothing, hcase.2.2⟩
  · rintro ⟨hnothing, hprefix⟩
    have hcontinues : Continues (slash :: machinePrefix ++ join slash ns) d := by
      refine .inr (.inr ?_)
      rw [hkey]
      exact ⟨h.nonempty, h.not_root _, hprefix⟩
    have heq := hbelow.mpr hcontinues
    by_cases hnil : norm d = []
    · rw [joinRelative, if_pos hnil, hjoined] at heq
      have hnames := join_inj h.valid (h.valid.append (valid_names slash d)) heq
      exact absurd (List.self_eq_append_right.mp hnames) hnothing
    · rwa [joinRelative, if_neg hnil] at heq

theorem user_ne (d : Str) :
    join slash userNames ++ slash :: norm d ≠ norm (folded (guestPath (registryName :: userNames)) ++ slash :: d) := by
  have hpath : folded (guestPath (registryName :: userNames)) = slash :: join slash (registryName :: userNames) := by
    decide +kernel
  have hvalid : Valid slash (registryName :: userNames) := by decide
  have hnames : names slash (folded (guestPath (registryName :: userNames)) ++ slash :: d) =
      registryName :: userNames ++ names slash d := by
    rw [hpath, names_append, names_sep, names_join hvalid]
  intro heq
  have hstay := congrArg (names slash) heq
  rw [names_norm_of_not (d := _ ++ slash :: d), hnames, names_append, names_join (by decide)] at hstay
  · exact absurd (List.cons.inj hstay).1 (by decide)
  · rw [hnames]
    rintro ⟨rest, hrest⟩
    exact absurd (List.cons.inj (List.cons.inj hrest).2).1 (by decide)

/-! ## All requests -/

theorem openKey_createKey (s : State) (path : Str) : openKey (createKey s path).2 path = some (createKey s path).1 := by
  unfold createKey
  cases hopen : openKey s path with
  | some key => exact hopen
  | none => exact AList.lookup_insert _

/-- What is created under the plain spelling is found where the paths agree. -/
theorem resolves_of_path {req : Request} (hroot : ∀ p ∈ req.root, Insensitive p) (habsolute : Insensitive req.absolute)
    (hpath : req.path = normalizePath req.absolute) : req.Resolves where
  root := hroot
  absolute := habsolute
  path := hpath
  found s := by
    rw [hpath, habsolute.separators]
    exact openKey_createKey s _

theorem resolves_below (p r : WStr) : (Request.below p r).Resolves ↔ (Request.below p r).Spelled := by
  have hpath : (Request.below p r).path = joinRelative (norm (folded p)) (norm (folded r)) := rfl
  have habsolute : normalizePath (Request.below p r).absolute = norm (folded p ++ slash :: folded r) := by
    rw [← folded_below]
    rfl
  have hinsensitive : Insensitive (Request.below p r).absolute ↔ Spelled (folded p ++ slash :: folded r) := by
    rw [insensitive_iff, ← folded_below]
    rfl
  constructor
  · intro h
    have hp := (insensitive_iff p).mp (h.root p rfl)
    have hpr := hinsensitive.mp h.absolute
    refine ⟨hp, hpr, (below_iff ((norm_eq_iff _).mpr hp) ((norm_eq_iff _).mpr hpr)).mp ?_⟩
    rw [← hpath, ← habsolute, h.path]
  · rintro ⟨hp, hpr, hcontinues⟩
    refine resolves_of_path (fun p' hp' => ?_) (hinsensitive.mpr hpr) ?_
    · obtain rfl := Option.some.inj hp'
      exact (insensitive_iff p).mpr hp
    · rw [hpath, habsolute]
      exact (below_iff ((norm_eq_iff _).mpr hp) ((norm_eq_iff _).mpr hpr)).mpr hcontinues

theorem rtl_path_iff {relativeTo : BitVec 32} {r : WStr} (hspelled : Spelled (folded (rtlAbsolute relativeTo r))) :
    resolveRtlPath relativeTo r = normalizePath (rtlAbsolute relativeTo r) ↔ rtlNames relativeTo = none ∨
      rtlNames relativeTo ≠ some userNames ∧ names slash (folded r) ≠ [] ∧ ¬ machinePrefix <+: folded r := by
  cases hnames : rtlNames relativeTo with
  | none =>
    refine iff_of_true ?_ (.inl rfl)
    rw [resolveRtlPath, rtlAbsolute, rtlRoot, hnames]
    rfl
  | some ns =>
    rcases rtlNames_cases hnames with rfl | hbase
    · have hroot : rtlRoot relativeTo = some (registryName :: userNames) := by
        rw [rtlRoot, hnames]
        rfl
      refine iff_of_false ?_ (by simp)
      rw [resolveRtlPath, rtlAbsolute, hroot, hnames]
      dsimp only
      rw [normalizePath, normalizePath, folded_below]
      exact user_ne (folded r)
    · have hroot : rtlRoot relativeTo = some (machine ++ ns) := by
        rw [rtlRoot, hnames, Option.map_some, if_neg hbase.user]
      rw [rtlAbsolute, hroot] at hspelled ⊢
      dsimp only at hspelled ⊢
      rw [folded_below, hbase.path] at hspelled
      rw [resolveRtlPath, hnames, normalizePath, normalizePath, folded_below, hbase.path]
      refine (hbase.norm_iff hspelled).trans ?_
      simp [hbase.user]

/-- **Every spelling reaches its key** exactly when it is one of those that `Spelled` describes: a relative path goes
where the absolute one does, whichever way they are spelled, for the handlers of keys and for the `Rtl` routines. -/
theorem resolves_iff (req : Request) : req.Resolves ↔ req.Spelled := by
  cases req with
  | key p =>
    refine ⟨fun h => (insensitive_iff p).mp h.absolute, fun h => ?_⟩
    exact resolves_of_path nofun ((insensitive_iff p).mpr h) rfl
  | below p r => exact resolves_below p r
  | rtl relativeTo r =>
    constructor
    · intro h
      have hspelled := (insensitive_iff _).mp h.absolute
      exact ⟨hspelled, (rtl_path_iff hspelled).mp h.path⟩
    · rintro ⟨hspelled, hrest⟩
      exact resolves_of_path nofun ((insensitive_iff _).mpr hspelled) ((rtl_path_iff hspelled).mpr hrest)

/-! ## The machine root -/

/-- `\Registry\Machine`. -/
def machineRoot : WStr := guestPath machine

/-- A handle opened on the machine root does not lead to the keys below it. -/
theorem machineRoot_fails : ¬ ∀ req : Request, req.Resolves := by
  intro hall
  have h := (hall (.below machineRoot (widenString (ascii ['s', 'y', 's', 't', 'e', 'm'])))).path
  revert h
  decide +kernel

end Kernemul.RegistryPaths
