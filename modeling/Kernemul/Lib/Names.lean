import Mathlib.Data.List.DropRight
import Mathlib.Tactic.Common

/-!
# The names of a path

What stands between the separators of a path, without what is empty: separators that are doubled, or in front, or
behind, are not seen. Names are joined with one separator between each, and a path that is joined has the names that
it was joined from, begins with a name and ends with one.
-/

namespace Names

variable {α : Type*}

def join (sep : α) (ns : List (List α)) : List α := [sep].intercalate ns

def Valid (sep : α) (ns : List (List α)) : Prop := ∀ n ∈ ns, n ≠ [] ∧ sep ∉ n

variable {sep : α} {p q : List α} {ns ms : List (List α)}

theorem Valid.append (h : Valid sep ns) (h' : Valid sep ms) : Valid sep (ns ++ ms) :=
  List.forall_mem_append.mpr ⟨h, h'⟩

/-! ## Joining -/

theorem join_cons (n : List α) (hms : ms ≠ []) : join sep (n :: ms) = n ++ sep :: join sep ms := by
  rw [join, List.intercalate_cons_of_ne_nil hms, List.append_assoc]
  rfl

theorem join_append (hns : ns ≠ []) (hms : ms ≠ []) : join sep (ns ++ ms) = join sep ns ++ sep :: join sep ms := by
  induction ns with
  | nil => exact absurd rfl hns
  | cons n ns ih =>
    rcases eq_or_ne ns [] with rfl | hne
    · rw [join, join, List.intercalate_singleton]
      exact join_cons n hms
    · rw [List.cons_append, join_cons n (List.append_ne_nil_of_left_ne_nil hne ms), ih hne, join_cons n hne,
        List.append_assoc]
      rfl

theorem mem_join {x : α} (hx : x ∈ join sep ns) : x = sep ∨ ∃ n ∈ ns, x ∈ n := by
  induction ns with
  | nil => exact absurd hx List.not_mem_nil
  | cons n ns ih =>
    rcases eq_or_ne ns [] with rfl | hne
    · rw [join, List.intercalate_singleton] at hx
      exact .inr ⟨n, List.mem_cons_self .., hx⟩
    · rw [join_cons n hne] at hx
      rcases List.mem_append.mp hx with hx | hx
      · exact .inr ⟨n, List.mem_cons_self .., hx⟩
      · rcases List.mem_cons.mp hx with rfl | hx
        · exact .inl rfl
        · exact (ih hx).imp id fun ⟨m, hm, hxm⟩ => ⟨m, List.mem_cons_of_mem n hm, hxm⟩

theorem head?_join_append (h : Valid sep ns) (hne : ns ≠ []) (p : List α) : (join sep ns ++ p).head? ≠ some sep := by
  obtain ⟨n, ms, rfl⟩ := List.exists_cons_of_ne_nil hne
  obtain ⟨hn, hsep⟩ := h n (List.mem_cons_self ..)
  obtain ⟨a, n, rfl⟩ := List.exists_cons_of_ne_nil hn
  have ha : a ≠ sep := fun heq => hsep (heq ▸ List.mem_cons_self ..)
  rcases eq_or_ne ms [] with rfl | hms
  · exact fun heq => ha (Option.some.inj heq)
  · rw [join_cons _ hms]
    exact fun heq => ha (Option.some.inj heq)

theorem head?_join (h : Valid sep ns) : (join sep ns).head? ≠ some sep := by
  rcases eq_or_ne ns [] with rfl | hne
  · nofun
  · have := head?_join_append h hne []
    rwa [List.append_nil] at this

variable [DecidableEq α]

instance (sep : α) (ns : List (List α)) : Decidable (Valid sep ns) := inferInstanceAs (Decidable (∀ n ∈ ns, _ ∧ _))

def names (sep : α) (p : List α) : List (List α) := (p.splitOn sep).filter (· ≠ [])

/-! ## Names -/

@[simp] theorem names_nil : names sep [] = [] := by
  rw [names, List.splitOn_nil]
  rfl

theorem names_append (p q : List α) : names sep (p ++ sep :: q) = names sep p ++ names sep q := by
  rw [names, List.splitOn_append_cons_self, List.filter_append]
  rfl

theorem names_sep (p : List α) : names sep (sep :: p) = names sep p := by
  have h : names sep ([] ++ sep :: p) = _ := names_append [] p
  rwa [List.nil_append, names_nil, List.nil_append] at h

theorem names_replicate_append (k : ℕ) (p : List α) : names sep (List.replicate k sep ++ p) = names sep p := by
  induction k with
  | zero => rfl
  | succ k ih => rw [List.replicate_succ, List.cons_append, names_sep, ih]

theorem names_append_replicate (p : List α) (k : ℕ) : names sep (p ++ List.replicate k sep) = names sep p := by
  cases k with
  | zero => rw [List.replicate_zero, List.append_nil]
  | succ k =>
    have hrest : names sep (List.replicate k sep ++ []) = _ := names_replicate_append k []
    rw [List.append_nil, names_nil] at hrest
    rw [List.replicate_succ, names_append, hrest, List.append_nil]

theorem mem_splitOn {n : List α} (hn : n ∈ p.splitOn sep) : ∀ x ∈ n, x ≠ sep ∧ x ∈ p := by
  induction p generalizing n with
  | nil =>
    rw [List.splitOn_nil, List.mem_singleton] at hn
    subst hn
    exact fun x hx => absurd hx List.not_mem_nil
  | cons a p ih =>
    rw [List.splitOn_cons_eq_if_modifyHead] at hn
    obtain ⟨m, ms, hsplit⟩ := List.exists_cons_of_ne_nil (List.splitOn_ne_nil sep p)
    rw [hsplit] at hn ih
    split_ifs at hn with ha
    · rcases List.mem_cons.mp hn with rfl | hn
      · exact fun x hx => absurd hx List.not_mem_nil
      · exact fun x hx => ⟨(ih hn x hx).1, List.mem_cons_of_mem a (ih hn x hx).2⟩
    · rw [List.modifyHead_cons] at hn
      rcases List.mem_cons.mp hn with rfl | hn
      · intro x hx
        rcases List.mem_cons.mp hx with rfl | hx
        · exact ⟨fun heq => ha (beq_iff_eq.mpr heq), List.mem_cons_self ..⟩
        · have hmem := ih (List.mem_cons_self ..) x hx
          exact ⟨hmem.1, List.mem_cons_of_mem a hmem.2⟩
      · have hmem := ih (List.mem_cons_of_mem m hn)
        exact fun x hx => ⟨(hmem x hx).1, List.mem_cons_of_mem a (hmem x hx).2⟩

theorem valid_names (sep : α) (p : List α) : Valid sep (names sep p) := by
  intro n hn
  obtain ⟨hsplit, hne⟩ := List.mem_filter.mp hn
  exact ⟨by simpa using hne, fun hmem => (mem_splitOn hsplit sep hmem).1 rfl⟩

theorem mem_of_mem_names {n : List α} (hn : n ∈ names sep p) {x : α} (hx : x ∈ n) : x ∈ p :=
  (mem_splitOn (List.mem_filter.mp hn).1 x hx).2

theorem names_join (h : Valid sep ns) : names sep (join sep ns) = ns := by
  rcases eq_or_ne ns [] with rfl | hne
  · exact names_nil
  · rw [names, join, List.splitOn_intercalate sep (fun n hn => (h n hn).2) hne]
    exact List.filter_eq_self.mpr fun n hn => by simpa using (h n hn).1

theorem names_join_append (h : Valid sep ns) (k : ℕ) : names sep (join sep ns ++ List.replicate k sep) = ns :=
  (names_append_replicate _ k).trans (names_join h)

theorem join_inj (h : Valid sep ns) (h' : Valid sep ms) (heq : join sep ns = join sep ms) : ns = ms := by
  rw [← names_join h, heq, names_join h']

theorem join_eq_nil (h : Valid sep ns) (hnil : join sep ns = []) : ns = [] :=
  join_inj h (List.forall_mem_nil _) hnil

/-! ## Separators at the end -/

theorem rdropWhile_append_replicate (p : List α) (k : ℕ) :
    (p ++ List.replicate k sep).rdropWhile (· = sep) = p.rdropWhile (· = sep) := by
  induction k with
  | zero => rw [List.replicate_zero, List.append_nil]
  | succ k ih =>
    rw [List.replicate_succ', ← List.append_assoc, List.rdropWhile_concat_pos, ih]
    exact decide_eq_true rfl

theorem exists_replicate (sep : α) (p : List α) : ∃ k, p = p.rdropWhile (· = sep) ++ List.replicate k sep := by
  refine ⟨(p.rtakeWhile (· = sep)).length, ?_⟩
  have hall : p.rtakeWhile (· = sep) = List.replicate (p.rtakeWhile (· = sep)).length sep :=
    List.eq_replicate_iff.mpr ⟨rfl, fun x hx => by simpa using List.mem_rtakeWhile_imp hx⟩
  rw [← hall]
  exact List.rdropWhile_append_rtakeWhile.symm

theorem names_rdropWhile (p : List α) : names sep (p.rdropWhile (· = sep)) = names sep p := by
  obtain ⟨k, hk⟩ := exists_replicate sep p
  exact (names_append_replicate _ k).symm.trans (congrArg (names sep) hk.symm)

theorem rdropWhile_append (p : List α) (hq : q.rdropWhile (· = sep) ≠ []) :
    (p ++ q).rdropWhile (· = sep) = p ++ q.rdropWhile (· = sep) := by
  obtain ⟨k, hk⟩ := exists_replicate sep q
  have hlast : (p ++ q.rdropWhile (· = sep)).rdropWhile (· = sep) = p ++ q.rdropWhile (· = sep) := by
    refine List.rdropWhile_eq_self_iff.mpr fun hl => ?_
    rw [List.getLast_append_of_ne_nil hl hq]
    exact List.rdropWhile_last_not _ _ hq
  calc (p ++ q).rdropWhile (· = sep)
      = (p ++ q.rdropWhile (· = sep) ++ List.replicate k sep).rdropWhile (· = sep) := by
        rw [List.append_assoc, ← hk]
    _ = p ++ q.rdropWhile (· = sep) := by rw [rdropWhile_append_replicate, hlast]

theorem rdropWhile_join (h : Valid sep ns) : (join sep ns).rdropWhile (· = sep) = join sep ns := by
  induction ns with
  | nil => rfl
  | cons n ns ih =>
    obtain ⟨⟨hn, hsep⟩, hns⟩ := List.forall_mem_cons.mp h
    rcases eq_or_ne ns [] with rfl | hne
    · rw [join, List.intercalate_singleton]
      refine List.rdropWhile_eq_self_iff.mpr fun hl hlast => hsep ?_
      have heq : n.getLast hl = sep := by simpa using hlast
      exact heq ▸ List.getLast_mem hl
    · have hjoin : join sep ns ≠ [] := fun hnil => hne (join_eq_nil hns hnil)
      have hend : (sep :: join sep ns).rdropWhile (· = sep) = sep :: join sep ns := by
        have := rdropWhile_append [sep] ((ih hns).symm ▸ hjoin)
        rwa [ih hns] at this
      rw [join_cons n hne, rdropWhile_append n (by rw [hend]; exact List.cons_ne_nil _ _), hend]

theorem rdropWhile_join_append (h : Valid sep ns) (k : ℕ) :
    (join sep ns ++ List.replicate k sep).rdropWhile (· = sep) = join sep ns :=
  (rdropWhile_append_replicate _ k).trans (rdropWhile_join h)

theorem rdropWhile_eq_nil_iff : p.rdropWhile (· = sep) = [] ↔ names sep p = [] := by
  constructor
  · intro h
    rw [← names_rdropWhile p, h, names_nil]
  · intro h
    refine List.rdropWhile_eq_nil_iff.mpr fun x hx => decide_eq_true ?_
    have hp : [sep].intercalate (p.splitOn sep) = p := List.intercalate_splitOn sep
    rw [← hp] at hx
    rcases mem_join hx with heq | ⟨n, hn, hxn⟩
    · exact heq
    · have hnil : n = [] := by simpa using List.filter_eq_nil_iff.mp h n hn
      exact absurd (hnil ▸ hxn) List.not_mem_nil

theorem names_ne_nil_of_rdropWhile (h : (p ++ sep :: q).rdropWhile (· = sep) = p ++ sep :: q) : names sep q ≠ [] := by
  intro hnil
  obtain ⟨k, hk⟩ := exists_replicate sep q
  rw [rdropWhile_eq_nil_iff.mpr hnil, List.nil_append] at hk
  rw [hk, ← List.replicate_succ, rdropWhile_append_replicate] at h
  have hle := (List.rdropWhile_prefix (p := (· = sep)) p).length_le
  rw [h, List.length_append, List.length_replicate] at hle
  omega

end Names
