import Mathlib.Data.List.Infix
import Mathlib.Data.List.TakeWhile

/-!
# Paths in a flat map

A tree kept as a set of paths, its nodes' names joined by a separator: a path lies below each prefix of it
that a separator follows. A set that holds the ancestors of all its paths is a tree, and there the names
found by cutting one component off each longer path are the names of the children.
-/

namespace Paths

variable {α : Type*}

/-- `p` lies below `q`. -/
def Below (sep : α) (q p : List α) : Prop := ∃ r, p = q ++ sep :: r

theorem below_cons {sep a : α} {q p : List α} : Below sep (a :: q) (a :: p) ↔ Below sep q p := by
  simp [Below]

theorem Below.trans {sep : α} {p q r : List α} (h : Below sep q p) (h' : Below sep p r) :
    Below sep q r := by
  obtain ⟨u, rfl⟩ := h
  obtain ⟨v, rfl⟩ := h'
  exact ⟨u ++ sep :: v, by simp⟩

theorem Below.ne {sep : α} {p q : List α} (h : Below sep q p) : p ≠ q := by
  obtain ⟨r, rfl⟩ := h
  simp

def PrefixClosed (sep : α) (s : Set (List α)) : Prop := ∀ p ∈ s, ∀ q, Below sep q p → q ∈ s

/-- Taking a path out keeps the set closed exactly when nothing in the set lies below it. -/
theorem PrefixClosed.erase_iff {sep : α} {s : Set (List α)} (h : PrefixClosed sep s) (p : List α) :
    PrefixClosed sep (fun k => k ≠ p ∧ k ∈ s) ↔ ∀ k ∈ s, ¬ Below sep p k := by
  constructor
  · intro hclosed k hk hbelow
    exact (hclosed k ⟨hbelow.ne, hk⟩ p hbelow).1 rfl
  · rintro hleaf k ⟨-, hk⟩ q hq
    exact ⟨fun heq => hleaf k hk (heq ▸ hq), h k hk q hq⟩

variable [DecidableEq α] (sep : α)

def ancestors : List α → List (List α)
  | [] => []
  | a :: p =>
    let longer := (ancestors p).map (a :: ·)
    if a = sep then [] :: longer else longer

def component (p : List α) : List α := p.takeWhile (· ≠ sep)

/-- The first component of `p` below `q`. -/
def childOf (q p : List α) : Option (List α) :=
  if q ++ [sep] <+: p then some (component sep (p.drop (q.length + 1))) else none

variable {sep}

theorem mem_ancestors {p q : List α} : q ∈ ancestors sep p ↔ Below sep q p := by
  induction p generalizing q with
  | nil => simp [ancestors, Below]
  | cons a p ih =>
    have hlonger : q ∈ (ancestors sep p).map (a :: ·) ↔ ∃ q', q = a :: q' ∧ Below sep q' p := by
      simp only [List.mem_map, ih]
      exact ⟨fun ⟨q', h, he⟩ => ⟨q', he.symm, h⟩, fun ⟨q', he, h⟩ => ⟨q', h, he.symm⟩⟩
    have hshort : Below sep [] (a :: p) ↔ a = sep := by simp [Below]
    have hlong : ∀ b q', Below sep (b :: q') (a :: p) ↔ b = a ∧ Below sep q' p := by
      intro b q'
      constructor
      · rintro ⟨r, hr⟩
        simp only [List.cons_append, List.cons.injEq] at hr
        exact ⟨hr.1.symm, r, hr.2⟩
      · rintro ⟨rfl, h⟩
        exact below_cons.mpr h
    rw [ancestors]
    cases q with
    | nil =>
      rw [hshort]
      split
      · rename_i ha
        simp [ha]
      · rename_i ha
        simp [ha]
    | cons b q' =>
      rw [hlong]
      split <;> simp [ih, eq_comm, and_comm]

theorem sep_notMem_component (p : List α) : sep ∉ component sep p := fun h => by
  simpa using List.mem_takeWhile_imp h

theorem component_cases (p : List α) : p = component sep p ∨ Below sep (component sep p) p := by
  induction p with
  | nil => exact Or.inl rfl
  | cons a p ih =>
    by_cases ha : a = sep
    · subst ha
      exact Or.inr ⟨p, by simp [component]⟩
    · have hc : component sep (a :: p) = a :: component sep p := by simp [component, ha]
      rw [hc]
      rcases ih with ih | ⟨r, ih⟩
      · exact Or.inl (congrArg (a :: ·) ih)
      · exact Or.inr ⟨r, congrArg (a :: ·) ih⟩

theorem component_of_notMem {n : List α} (h : sep ∉ n) : component sep n = n := by
  rw [component, List.takeWhile_eq_self_iff]
  intro a ha
  have hne : a ≠ sep := fun heq => h (heq ▸ ha)
  simpa using hne

theorem component_append (p q : List α) : component sep (p ++ sep :: q) = component sep p := by
  induction p with
  | nil => simp [component]
  | cons a p ih =>
    by_cases ha : a = sep
    · simp [component, ha]
    · have hcons : ∀ r, component sep (a :: r) = a :: component sep r := fun r => by simp [component, ha]
      rw [List.cons_append, hcons, hcons, ih]

theorem childOf_eq_some {q p n : List α} :
    childOf sep q p = some n ↔ ∃ r, p = q ++ sep :: r ∧ n = component sep r := by
  unfold childOf
  constructor
  · intro h
    split at h
    · rename_i hp
      obtain ⟨r, rfl⟩ := hp
      refine ⟨r, by simp, ?_⟩
      simpa using (Option.some.inj h).symm
    · cases h
  · rintro ⟨r, rfl, rfl⟩
    rw [if_pos ⟨r, by simp⟩]
    simp

theorem childOf_eq_none {q p : List α} : childOf sep q p = none ↔ ¬ Below sep q p := by
  constructor
  · rintro h ⟨r, hr⟩
    rw [childOf_eq_some.mpr ⟨r, hr, rfl⟩] at h
    cases h
  · intro h
    by_contra hne
    obtain ⟨n, hn⟩ := Option.ne_none_iff_exists'.mp hne
    obtain ⟨r, hr, -⟩ := childOf_eq_some.mp hn
    exact h ⟨r, hr⟩

/-- In a set closed under ancestors the children's names are what one component below is. -/
theorem PrefixClosed.child_iff {s : Set (List α)} (h : PrefixClosed sep s) {q n : List α} :
    (∃ p ∈ s, childOf sep q p = some n) ↔ sep ∉ n ∧ q ++ sep :: n ∈ s := by
  constructor
  · rintro ⟨p, hp, hn⟩
    obtain ⟨r, rfl, rfl⟩ := childOf_eq_some.mp hn
    refine ⟨sep_notMem_component r, ?_⟩
    rcases component_cases r with hr | ⟨u, hr⟩
    · rwa [← hr]
    · refine h _ hp _ ⟨u, ?_⟩
      rw [List.append_assoc, List.cons_append, ← hr]
  · rintro ⟨hn, hmem⟩
    exact ⟨_, hmem, childOf_eq_some.mpr ⟨n, rfl, (component_of_notMem hn).symm⟩⟩

theorem PrefixClosed.insert {s : Set (List α)} (h : PrefixClosed sep s) (p : List α) :
    PrefixClosed sep (fun k => k = p ∨ k ∈ ancestors sep p ∨ k ∈ s) := by
  rintro k hk q hq
  rcases hk with rfl | hk | hk
  · exact Or.inr (Or.inl (mem_ancestors.mpr hq))
  · exact Or.inr (Or.inl (mem_ancestors.mpr (hq.trans (mem_ancestors.mp hk))))
  · exact Or.inr (Or.inr (h k hk q hq))

end Paths
