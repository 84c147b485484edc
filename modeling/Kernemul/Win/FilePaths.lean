import Kernemul.Lib.Names
import Kernemul.Win.FileSystem

/-!
# Spellings of a path

`normalize` folds the case and the separators, drops separators at the end, cuts off one directory of DOS names and puts
the directory of Windows for `\SystemRoot`. It leaves one spelling of a path to each that has no separators but those
between its names, and is below no directory of DOS names but the two that it knows.
-/

namespace Kernemul.FilePaths

open Text Names
open FileSystem (State create openFile)

def folded (path : Str) : Str := path.map fold

def dotsName : Str := ascii ['?', '?']
def dosdevicesName : Str := ascii ['d', 'o', 's', 'd', 'e', 'v', 'i', 'c', 'e', 's']
def globalName : Str := ascii ['g', 'l', 'o', 'b', 'a', 'l', '?', '?']

def dosDirectories : List Str := [dotsName, dosdevicesName, globalName]

/-- The names of a path with one separator between each, and one in front where the first is a name of the object
manager's root; the directory of a DOS name is left out. -/
def plainSpelling (path : Str) : Str :=
  let ns := names slash (folded path)
  if (folded path).head? = some slash then
    match ns with
    | d :: n :: ns => if dosDirectories.contains d then join slash (n :: ns) else slash :: join slash (d :: n :: ns)
    | ns => slash :: join slash ns
  else join slash ns

/-- A path is found in any case and with either separator, as in its plain spelling and once it is normalized. -/
structure Reached (path : Str) : Prop where
  folded : ∀ path', path'.map fold = path.map fold → normalize path' = normalize path
  spelling : normalize path = normalize (plainSpelling path)
  idempotent : normalize (normalize path) = normalize path
  found : ∀ s : State, openFile (create s (plainSpelling path)).2 path = some (create s (plainSpelling path)).1

/-- A name of the object manager's root that `normalize` takes for any other. -/
def Global (ns : List Str) : Prop := ∃ n ns', ns = globalName :: n :: ns'

/-- Names with one separator between each, perhaps one in front, and any number behind. -/
def Spelled (path : Str) : Prop := ∃ ns k, Valid slash ns ∧
  (folded path = join slash ns ++ List.replicate k slash ∨
    ns ≠ [] ∧ ¬ Global ns ∧ folded path = slash :: join slash ns ++ List.replicate k slash)

/-! ## The parts of `normalize` -/

def dotsPrefix : Str := slash :: dotsName ++ [slash]
def dosdevicesPrefix : Str := slash :: dosdevicesName ++ [slash]

theorem namePrefixes_eq : namePrefixes = [dotsPrefix, dosdevicesPrefix] := by decide

def cut (s : Str) : Str := cutPrefix namePrefixes s

/-- The directory of Windows in the place of `\SystemRoot`. -/
def windows (s : Str) : Str :=
  let rest := s.drop systemrootName.length
  if systemrootName.isPrefixOf s ∧ (rest = [] ∨ rest.head? = some slash) then windowsDirKey ++ rest else s

def norm (s : Str) : Str := windows (cut (trimEnd s))

theorem normalize_eq (path : Str) : normalize path = norm (folded path) := rfl

theorem cut_append {p : Str} (hp : p ∈ [dotsPrefix, dosdevicesPrefix]) (y : Str) : cut (p ++ y) = y := by
  unfold cut cutPrefix
  rw [namePrefixes_eq]
  rcases List.mem_pair.mp hp with rfl | rfl
  · have hfind : [dotsPrefix, dosdevicesPrefix].find? (fun p => p.isPrefixOf (dotsPrefix ++ y)) = some dotsPrefix :=
      List.find?_cons_of_pos (List.isPrefixOf_iff_prefix.mpr (List.prefix_append ..))
    rw [hfind]
    exact List.drop_left
  · have hfind : [dotsPrefix, dosdevicesPrefix].find? (fun p => p.isPrefixOf (dosdevicesPrefix ++ y)) =
        some dosdevicesPrefix := by
      rw [List.find?_cons_of_neg, List.find?_cons_of_pos]
      · exact List.isPrefixOf_iff_prefix.mpr (List.prefix_append ..)
      · rw [List.isPrefixOf_iff_prefix]
        rintro ⟨z, hz⟩
        cases hz
    rw [hfind]
    exact List.drop_left

variable {s : Str}

theorem cut_of_not (h : ∀ p ∈ [dotsPrefix, dosdevicesPrefix], ¬ p <+: s) : cut s = s := by
  unfold cut cutPrefix
  rw [namePrefixes_eq, List.find?_eq_none.mpr fun p hp hprefix => h p hp (List.isPrefixOf_iff_prefix.mp hprefix)]

theorem windows_append {rest : Str} (h : rest = [] ∨ rest.head? = some slash) :
    windows (systemrootName ++ rest) = windowsDirKey ++ rest := by
  unfold windows
  rw [List.drop_left]
  exact if_pos ⟨List.isPrefixOf_iff_prefix.mpr (List.prefix_append ..), h⟩

theorem windows_cases (s : Str) : windows s = s ∨
    ∃ rest, s = systemrootName ++ rest ∧ (rest = [] ∨ rest.head? = some slash) ∧ windows s = windowsDirKey ++ rest := by
  by_cases h : systemrootName <+: s
  · obtain ⟨rest, rfl⟩ := h
    by_cases hrest : rest = [] ∨ rest.head? = some slash
    · exact .inr ⟨rest, rfl, hrest, windows_append hrest⟩
    · refine .inl (if_neg ?_)
      rw [List.drop_left]
      exact fun h => hrest h.2
  · exact .inl (if_neg fun hprefix => h (List.isPrefixOf_iff_prefix.mp hprefix.1))

theorem windows_of_head (h : s.head? ≠ some slash) : windows s = s := by
  rcases windows_cases s with hsame | ⟨rest, rfl, -⟩
  · exact hsame
  · exact absurd rfl h

theorem cut_of_head (h : s.head? ≠ some slash) : cut s = s := by
  refine cut_of_not fun p hp ⟨y, hy⟩ => h ?_
  subst hy
  rcases List.mem_pair.mp hp with rfl | rfl <;> rfl

/-! ## Plain spellings -/

/-- What `plainSpelling` makes of a folded path. -/
def plain (path : Str) : Str :=
  if path.head? = some slash then
    match names slash path with
    | d :: n :: ns => if dosDirectories.contains d then join slash (n :: ns) else slash :: join slash (d :: n :: ns)
    | ns => slash :: join slash ns
  else join slash (names slash path)

theorem plainSpelling_eq (path : Str) : plainSpelling path = plain (folded path) := rfl

variable {ns : List Str} {k : Nat}

theorem trimEnd_join (h : Valid slash ns) : trimEnd (join slash ns) = join slash ns := rdropWhile_join h

theorem trimEnd_join_append (h : Valid slash ns) (k : Nat) :
    trimEnd (join slash ns ++ List.replicate k slash) = join slash ns := rdropWhile_join_append h k

theorem trimEnd_rooted_append (h : Valid slash ns) (hne : ns ≠ []) (k : Nat) :
    trimEnd (slash :: join slash ns ++ List.replicate k slash) = slash :: join slash ns := by
  have hjoin : trimEnd (join slash ns) ≠ [] := by
    rw [trimEnd_join h]
    exact fun hnil => hne (join_eq_nil h hnil)
  refine (rdropWhile_append_replicate _ k).trans ?_
  exact (rdropWhile_append [slash] hjoin).trans (congrArg (slash :: ·) (rdropWhile_join h))

theorem norm_join (h : Valid slash ns) : norm (join slash ns) = join slash ns := by
  rw [norm, trimEnd_join h, cut_of_head (head?_join h), windows_of_head (head?_join h)]

theorem names_rooted_append (h : Valid slash ns) (k : Nat) :
    names slash (slash :: join slash ns ++ List.replicate k slash) = ns := by
  rw [List.cons_append, names_sep, names_join_append h]

theorem names_dos {d : Str} (hd : d ∈ dosDirectories) : names slash d = [d] := by
  have hall : ∀ d ∈ dosDirectories, names slash d = [d] := by decide +kernel
  exact hall d hd

theorem exists_directory {p : Str} (hp : p ∈ [dotsPrefix, dosdevicesPrefix]) :
    ∃ d ∈ dosDirectories, d ≠ globalName ∧ p = slash :: d ++ [slash] := by
  rcases List.mem_pair.mp hp with rfl | rfl
  · exact ⟨dotsName, by decide, by decide, rfl⟩
  · exact ⟨dosdevicesName, by decide, by decide, rfl⟩

theorem directory_stem {d : Str} (hd : d ∈ dosDirectories) (hglobal : d ≠ globalName) :
    slash :: d ++ [slash] ∈ [dotsPrefix, dosdevicesPrefix] := by
  rcases List.mem_cons.mp hd with rfl | hd
  · exact List.mem_cons_self ..
  · rcases List.mem_cons.mp hd with rfl | hd
    · exact List.mem_cons_of_mem _ (List.mem_cons_self ..)
    · exact absurd (List.mem_singleton.mp hd) hglobal

/-- Rooted names, of which `plain` and `cut` leave the directory of DOS names out. -/
theorem cut_rooted {d n : Str} (hd : d ∈ dosDirectories) (hglobal : d ≠ globalName) :
    cut (slash :: join slash (d :: n :: ns)) = join slash (n :: ns) := by
  have hsplit : slash :: join slash (d :: n :: ns) = (slash :: d ++ [slash]) ++ join slash (n :: ns) := by
    rw [join_cons d (List.cons_ne_nil n ns)]
    simp
  rw [hsplit, cut_append (directory_stem hd hglobal)]

theorem cut_rooted_of_not (hvalid : Valid slash ns) (h : ∀ d ∈ dosDirectories, ∀ n ns', ns ≠ d :: n :: ns') :
    cut (slash :: join slash ns) = slash :: join slash ns := by
  refine cut_of_not fun p hp ⟨y, hy⟩ => ?_
  obtain ⟨d, hd, -, rfl⟩ := exists_directory hp
  have hnames : names slash (slash :: join slash ns) = d :: names slash y := by
    have hsplit : slash :: join slash ns = slash :: (d ++ slash :: y) := by simpa using hy.symm
    rw [hsplit, names_sep, names_append, names_dos hd]
    rfl
  rw [names_sep, names_join hvalid] at hnames
  have hjoin : join slash ns = d ++ slash :: y := by simpa using hy.symm
  rcases hy' : names slash y with _ | ⟨n, ns'⟩
  · rw [hy'] at hnames
    rw [hnames, join, List.intercalate_singleton] at hjoin
    exact absurd hjoin (by simp)
  · rw [hy'] at hnames
    exact h d hd n ns' hnames

/-! ## The directory of Windows -/

theorem length_names_windows {rest : Str} (h : rest = [] ∨ rest.head? = some slash) :
    (names slash (windowsDirKey ++ rest)).length = (names slash (systemrootName ++ rest)).length + 1 := by
  have hwindows : (names slash windowsDirKey).length = 2 := by decide +kernel
  have hroot : (names slash systemrootName).length = 1 := by decide +kernel
  rcases h with rfl | h
  · rw [List.append_nil, List.append_nil, hwindows, hroot]
  · obtain ⟨z, rfl⟩ := List.head?_eq_some_iff.mp h
    rw [names_append, names_append, List.length_append, List.length_append, hwindows, hroot]
    omega

theorem windows_ne_join {y : Str} (hwindows : windows y ≠ y) : windows y ≠ join slash (names slash y) := by
  rcases windows_cases y with hsame | ⟨rest, rfl, hrest, heq⟩
  · exact absurd hsame hwindows
  · intro hjoin
    have hlength := length_names_windows hrest
    rw [heq] at hjoin
    rw [hjoin, names_join (valid_names slash _)] at hlength
    omega

theorem windows_rooted (hvalid : Valid slash ns) : windows (slash :: join slash ns) = slash :: join slash ns ∨
    ∃ ms, Valid slash ms ∧ windows (slash :: join slash ns) = join slash ms := by
  rcases windows_cases (slash :: join slash ns) with hsame | ⟨rest, hroot, hrest, heq⟩
  · exact .inl hsame
  · let base : List Str := [ascii ['c', ':'], ascii ['w', 'i', 'n', 'd', 'o', 'w', 's']]
    have hbase : Valid slash base := by decide
    have hkey : windowsDirKey = join slash base := by decide +kernel
    have htail : join slash ns = systemrootName.tail ++ rest := (List.cons.inj hroot).2
    refine .inr ?_
    rcases hrest with rfl | hrest
    · exact ⟨base, hbase, by rw [heq, hkey, List.append_nil]⟩
    · obtain ⟨z, rfl⟩ := List.head?_eq_some_iff.mp hrest
      have hfirst : names slash systemrootName.tail = [systemrootName.tail] := by decide +kernel
      have hnames : ns = systemrootName.tail :: names slash z := by
        rw [← names_join hvalid, htail, names_append, hfirst]
        rfl
      have hne : names slash z ≠ [] := by
        intro hnil
        rw [hnames, hnil, join, List.intercalate_singleton] at htail
        exact absurd htail (by simp)
      have hz : z = join slash (names slash z) := by
        have hsplit : join slash (systemrootName.tail :: names slash z) =
            systemrootName.tail ++ slash :: join slash (names slash z) := join_cons systemrootName.tail hne
        rw [← hnames, htail, List.append_cancel_left_eq, List.cons.injEq] at hsplit
        exact hsplit.2
      refine ⟨base ++ names slash z, hbase.append (valid_names slash z), ?_⟩
      rw [heq, join_append (List.cons_ne_nil _ _) hne, ← hkey, ← hz]

/-! ## All spellings -/

theorem norm_rooted (hvalid : Valid slash ns) (hne : ns ≠ []) (h : ∀ d ∈ dosDirectories, ∀ n ns', ns ≠ d :: n :: ns') :
    norm (slash :: join slash ns) = windows (slash :: join slash ns) := by
  have htrim := trimEnd_rooted_append hvalid hne 0
  rw [List.replicate_zero, List.append_nil] at htrim
  rw [norm, htrim, cut_rooted_of_not hvalid h]

theorem norm_idempotent_rooted (hvalid : Valid slash ns) (hne : ns ≠ [])
    (h : ∀ d ∈ dosDirectories, ∀ n ns', ns ≠ d :: n :: ns') :
    norm (windows (slash :: join slash ns)) = windows (slash :: join slash ns) := by
  rcases windows_rooted hvalid with hsame | ⟨ms, hms, hjoin⟩
  · rw [hsame, norm_rooted hvalid hne h, hsame]
  · rw [hjoin, norm_join hms]

theorem rooted_cases (ns : List Str) : (∃ d ∈ dosDirectories, ∃ n ns', ns = d :: n :: ns') ∨
    ∀ d ∈ dosDirectories, ∀ n ns', ns ≠ d :: n :: ns' := by
  by_cases h : ∃ d ∈ dosDirectories, ∃ n ns', ns = d :: n :: ns'
  · exact .inl h
  · exact .inr fun d hd n ns' heq => h ⟨d, hd, n, ns', heq⟩

variable {path : Str}

theorem plain_dos {d n : Str} (hroot : path.head? = some slash) (hd : d ∈ dosDirectories)
    (hnames : names slash path = d :: n :: ns) : plain path = join slash (n :: ns) := by
  rw [plain, if_pos hroot, hnames]
  exact if_pos (List.contains_iff_mem.mpr hd)

theorem plain_rooted (hroot : path.head? = some slash)
    (h : ∀ d ∈ dosDirectories, ∀ n ns', names slash path ≠ d :: n :: ns') :
    plain path = slash :: join slash (names slash path) := by
  rw [plain, if_pos hroot]
  split
  · rename_i d n ns hnames
    rw [hnames]
    exact if_neg fun hd => h d (List.contains_iff_mem.mp hd) n ns hnames
  · rfl

theorem plain_join (hroot : path.head? ≠ some slash) : plain path = join slash (names slash path) :=
  if_neg hroot

theorem norm_of_spelled (hvalid : Valid slash ns) (h : path = join slash ns ++ List.replicate k slash ∨
    ns ≠ [] ∧ ¬ Global ns ∧ path = slash :: join slash ns ++ List.replicate k slash) :
    norm path = norm (plain path) ∧ norm (norm path) = norm path := by
  rcases h with rfl | ⟨hne, hglobal, rfl⟩
  · have hnorm : norm (join slash ns ++ List.replicate k slash) = join slash ns := by
      rw [norm, trimEnd_join_append hvalid, cut_of_head (head?_join hvalid), windows_of_head (head?_join hvalid)]
    rw [hnorm, norm_join hvalid]
    refine ⟨?_, rfl⟩
    by_cases hroot : (join slash ns ++ List.replicate k slash).head? = some slash
    · have hnil : ns = [] := by
        by_contra hne
        exact head?_join_append hvalid hne _ hroot
      subst hnil
      rw [plain_rooted hroot] <;> rw [names_join_append hvalid]
      · decide
      · nofun
    · rw [plain_join hroot, names_join_append hvalid, norm_join hvalid]
  · have hnames := names_rooted_append hvalid k
    rcases rooted_cases ns with ⟨d, hd, n, ns', rfl⟩ | hdos
    · have hd' : d ≠ globalName := by
        rintro rfl
        exact hglobal ⟨n, ns', rfl⟩
      have hns : Valid slash (n :: ns') := (List.forall_mem_cons.mp hvalid).2
      have hnorm : norm (slash :: join slash (d :: n :: ns') ++ List.replicate k slash) = join slash (n :: ns') := by
        rw [norm, trimEnd_rooted_append hvalid hne, cut_rooted hd hd', windows_of_head (head?_join hns)]
      rw [hnorm, plain_dos rfl hd hnames, norm_join hns]
      exact ⟨rfl, rfl⟩
    · have hnorm : norm (slash :: join slash ns ++ List.replicate k slash) = windows (slash :: join slash ns) := by
        rw [norm, trimEnd_rooted_append hvalid hne, cut_rooted_of_not hvalid hdos]
      have hplain : plain (slash :: join slash ns ++ List.replicate k slash) = slash :: join slash ns := by
        rw [plain_rooted rfl] <;> rw [hnames]
        exact hdos
      rw [hnorm, hplain, norm_rooted hvalid hne hdos]
      exact ⟨rfl, norm_idempotent_rooted hvalid hne hdos⟩

/-- The other way round: a path that comes out as its plain spelling is spelled so, but for separators at its end. -/
theorem spelled_of_norm {t : Str} (htrim : trimEnd t = t) (h : windows (cut t) = norm (plain t)) :
    t = join slash (names slash t) ∨
      names slash t ≠ [] ∧ ¬ Global (names slash t) ∧ t = slash :: join slash (names slash t) := by
  have hvalid := valid_names slash t
  by_cases hcut : ∃ p ∈ [dotsPrefix, dosdevicesPrefix], p <+: t
  · obtain ⟨p, hp, y, rfl⟩ := hcut
    obtain ⟨d, hd, hglobal, rfl⟩ := exists_directory hp
    have hassoc : slash :: d ++ [slash] ++ y = slash :: (d ++ slash :: y) := by simp
    have hy : names slash y ≠ [] := by
      refine names_ne_nil_of_rdropWhile (p := slash :: d) ?_
      rw [List.append_assoc, List.singleton_append] at htrim
      exact htrim
    obtain ⟨n, ns, hns⟩ := List.exists_cons_of_ne_nil hy
    have hnames : names slash (slash :: d ++ [slash] ++ y) = d :: n :: ns := by
      rw [hassoc, names_sep, names_append, names_dos hd, hns]
      rfl
    have hplain : norm (plain (slash :: d ++ [slash] ++ y)) = join slash (names slash y) := by
      rw [plain_dos rfl hd hnames, ← hns, norm_join (valid_names slash y)]
    rw [cut_append hp, hplain] at h
    have hsame : windows y = y := by
      by_contra hne
      exact windows_ne_join hne h
    rw [hsame, hns] at h
    refine .inr ⟨hnames ▸ List.cons_ne_nil _ _, ?_, ?_⟩
    · rw [hnames]
      rintro ⟨n', ns', heq⟩
      exact hglobal (List.cons.inj heq).1
    · rw [hnames, join_cons d (List.cons_ne_nil _ _), ← h, hassoc]
  · rw [cut_of_not fun p hp hpre => hcut ⟨p, hp, hpre⟩] at h
    by_cases hroot : t.head? = some slash
    · have hne : names slash t ≠ [] := by
        intro hnil
        have ht : trimEnd t = [] := rdropWhile_eq_nil_iff.mpr hnil
        rw [← htrim, ht] at hroot
        cases hroot
      rcases rooted_cases (names slash t) with ⟨d, hd, n, ns, hnames⟩ | hdos
      · have hns : Valid slash (n :: ns) := (List.forall_mem_cons.mp (hnames ▸ hvalid)).2
        rw [plain_dos hroot hd hnames, norm_join hns] at h
        rcases windows_cases t with hsame | ⟨rest, rfl, hrest, heq⟩
        · rw [hsame] at h
          exact absurd (h ▸ hroot) (head?_join hns)
        · have hlength := length_names_windows hrest
          rw [← heq, h, names_join hns, hnames] at hlength
          simp only [List.length_cons] at hlength
          omega
      · refine .inr ⟨hne, ?_, ?_⟩
        · rintro ⟨n, ns, heq⟩
          exact hdos globalName (by decide) n ns heq
        · rw [plain_rooted hroot hdos, norm_rooted hvalid hne hdos] at h
          rcases windows_cases t with ht | ⟨rest, ht, -, hrest⟩ <;>
            rcases windows_cases (slash :: join slash (names slash t)) with hs | ⟨rest', hs, -, hrest'⟩
          · rw [ht, hs] at h
            exact h
          · rw [ht, hrest'] at h
            rw [h] at hroot
            cases hroot
          · rw [hs, hrest] at h
            cases h
          · rw [hrest, hrest', List.append_cancel_left_eq] at h
            rw [hs, ← h]
            exact ht
    · rw [plain_join hroot, norm_join hvalid, windows_of_head hroot] at h
      exact .inl h

theorem plain_trimEnd {t : Str} (h : trimEnd t ≠ []) : plain (trimEnd t) = plain t := by
  obtain ⟨k, hk⟩ := exists_replicate slash t
  have hnames : names slash (trimEnd t) = names slash t := names_rdropWhile t
  have hhead : t.head? = (trimEnd t).head? := by
    conv_lhs => rw [hk]
    exact List.head?_append_of_ne_nil _ h
  rw [plain, plain, hnames, hhead]

theorem norm_eq_iff (path : Str) : norm path = norm (plain path) ↔ ∃ ns k, Valid slash ns ∧
    (path = join slash ns ++ List.replicate k slash ∨
      ns ≠ [] ∧ ¬ Global ns ∧ path = slash :: join slash ns ++ List.replicate k slash) := by
  constructor
  · intro h
    obtain ⟨k, hk⟩ := exists_replicate slash path
    change path = trimEnd path ++ _ at hk
    have hnames : names slash (trimEnd path) = names slash path := names_rdropWhile path
    have hvalid := valid_names slash path
    refine ⟨names slash path, k, hvalid, ?_⟩
    by_cases hnil : trimEnd path = []
    · rw [← hnames, hnil, names_nil]
      rw [hnil] at hk
      exact .inl hk
    · have htrim : trimEnd (trimEnd path) = trimEnd path := List.rdropWhile_idempotent _ _
      rw [← plain_trimEnd hnil] at h
      rw [← hnames]
      rcases spelled_of_norm htrim h with hjoin | ⟨hne, hglobal, hjoin⟩
      · exact .inl (hk.trans (congrArg (· ++ _) hjoin))
      · exact .inr ⟨hne, hglobal, hk.trans (congrArg (· ++ _) hjoin)⟩
  · rintro ⟨ns, k, hvalid, h⟩
    exact (norm_of_spelled hvalid h).1

/-! ## Characters -/

theorem folded_of_subset {p : Str} (h : ∀ c ∈ s, c ∈ slash :: windowsDirKey ∨ c ∈ folded p) : folded s = s := by
  refine (List.map_congr_left fun c hc => ?_).trans (List.map_id s)
  rcases h c hc with hmem | hmem
  · have hall : ∀ c ∈ slash :: windowsDirKey, fold c = c := by decide +kernel
    exact hall c hmem
  · obtain ⟨a, -, rfl⟩ := List.mem_map.mp hmem
    exact fold_fold a

theorem mem_norm {c : UInt8} (h : c ∈ norm s) : c ∈ windowsDirKey ∨ c ∈ s := by
  have htrim : ∀ c ∈ trimEnd s, c ∈ s := fun c hc => (List.rdropWhile_prefix _ _).subset hc
  have hcut : ∀ c ∈ cut (trimEnd s), c ∈ trimEnd s := by
    intro c hc
    by_cases hpre : ∃ p ∈ [dotsPrefix, dosdevicesPrefix], p <+: trimEnd s
    · obtain ⟨p, hp, y, hy⟩ := hpre
      rw [← hy, cut_append hp] at hc
      rw [← hy]
      exact List.mem_append_right p hc
    · rwa [cut_of_not fun p hp h => hpre ⟨p, hp, h⟩] at hc
  rcases windows_cases (cut (trimEnd s)) with hsame | ⟨rest, hroot, -, heq⟩
  · rw [norm, hsame] at h
    exact .inr (htrim c (hcut c h))
  · rw [norm, heq] at h
    rcases List.mem_append.mp h with h | h
    · exact .inl h
    · exact .inr (htrim c (hcut c (hroot ▸ List.mem_append_right _ h)))

theorem mem_join_names {c : UInt8} (hns : ∀ n ∈ ns, n ∈ names slash s)
    (h : c ∈ join slash ns) : c = slash ∨ c ∈ s := by
  rcases mem_join h with rfl | ⟨n, hn, hc⟩
  · exact .inl rfl
  · exact .inr (mem_of_mem_names (hns n hn) hc)

theorem mem_plain {c : UInt8} (h : c ∈ plain s) : c = slash ∨ c ∈ s := by
  by_cases hroot : s.head? = some slash
  · rcases rooted_cases (names slash s) with ⟨d, hd, n, ns, hnames⟩ | hdos
    · rw [plain_dos hroot hd hnames] at h
      exact mem_join_names (fun m hm => hnames ▸ List.mem_cons_of_mem d hm) h
    · rw [plain_rooted hroot hdos] at h
      rcases List.mem_cons.mp h with rfl | h
      · exact .inl rfl
      · exact mem_join_names (fun _ hn => hn) h
  · rw [plain_join hroot] at h
    exact mem_join_names (fun _ hn => hn) h

theorem normalize_plainSpelling (path : Str) : normalize (plainSpelling path) = norm (plain (folded path)) := by
  rw [normalize_eq, plainSpelling_eq, folded_of_subset (p := path) fun c hc => ?_]
  exact (mem_plain hc).imp_left fun h => List.mem_cons.mpr (.inl h)

theorem normalize_normalize (path : Str) : normalize (normalize path) = norm (norm (folded path)) := by
  rw [normalize_eq, normalize_eq, folded_of_subset (p := path) fun c hc => ?_]
  exact (mem_norm hc).imp_left (List.mem_cons_of_mem slash)

/-! ## Files -/

theorem openFile_create (s : State) {path' : Str} (h : normalize path' = normalize path) :
    openFile (create s path).2 path' = some (create s path).1 := by
  rw [openFile, h]
  exact AList.lookup_insert _

/-- **A path is reached** exactly when it is spelled so: as its names with one separator between each, and not below
`\GLOBAL??`. -/
theorem reached_iff_spelled (path : Str) : Reached path ↔ Spelled path := by
  have hspelling : normalize path = normalize (plainSpelling path) ↔ Spelled path := by
    rw [normalize_plainSpelling]
    exact norm_eq_iff (folded path)
  constructor
  · exact fun h => hspelling.mp h.spelling
  · intro h
    have heq := hspelling.mpr h
    obtain ⟨ns, k, hvalid, hns⟩ := h
    refine ⟨fun path' hpath' => congrArg norm hpath', heq, ?_, fun s => openFile_create s heq⟩
    rw [normalize_normalize]
    exact (norm_of_spelled hvalid hns).2

/-- `\GLOBAL??\C:` is not found where `C:` is. -/
theorem global_not_reached : ¬ ∀ path, Reached path := by
  intro hall
  have h := (hall (ascii ['\\', 'G', 'L', 'O', 'B', 'A', 'L', '?', '?', '\\', 'C', ':'])).spelling
  revert h
  decide +kernel

end Kernemul.FilePaths
