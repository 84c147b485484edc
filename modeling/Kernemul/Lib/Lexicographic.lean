import Mathlib.Tactic.Common

/-!
# Lexicographic comparison

Two lists are compared at the first place where they differ, and a proper prefix comes before what it is a prefix of.
What a comparison makes of two lists is decided by the items at that place, or by the item that one list has behind the
other: two ways to compare items agree on the lists if and only if they agree there, and a comparison of the first items
of both is one of the lists if it finds a difference.
-/

namespace Lexicographic

open Std

variable {α β : Type*}

section

variable {cmp : α → α → Ordering}

theorem transCmp_of_eq {cmp' : β → β → Ordering} [TransCmp cmp'] (f : α → β) (h : ∀ a b, cmp a b = cmp' (f a) (f b)) :
    TransCmp cmp where
  eq_swap {a b} := by
    rw [h, h]
    exact OrientedCmp.eq_swap
  isLE_trans {a b c} hab hbc := by
    rw [h] at hab hbc ⊢
    exact TransCmp.isLE_trans hab hbc

theorem lawfulEqCmp_of_eq {cmp' : β → β → Ordering} [LawfulEqCmp cmp'] {f : α → β} (hf : Function.Injective f)
    (h : ∀ a b, cmp a b = cmp' (f a) (f b)) : LawfulEqCmp cmp where
  compare_self {a} := by
    rw [h]
    exact ReflCmp.compare_self
  eq_of_compare {a b} heq := by
    rw [h] at heq
    exact hf (LawfulEqCmp.eq_of_compare heq)

variable [LawfulEqCmp cmp]

theorem compareLex_cons_self (x : α) (a b : List α) :
    (x :: a).compareLex cmp (x :: b) = a.compareLex cmp b := by
  have hself : cmp x x = .eq := ReflCmp.compare_self
  rw [List.compareLex_cons_cons, hself, Ordering.eq_then]

theorem compareLex_cons_of_ne {x y : α} (h : x ≠ y) (a b : List α) :
    (x :: a).compareLex cmp (y :: b) = cmp x y := by
  have hne : cmp x y ≠ .eq := fun he => h (LawfulEqCmp.eq_of_compare he)
  rw [List.compareLex_cons_cons]
  cases hc : cmp x y with
  | lt => rfl
  | eq => exact absurd hc hne
  | gt => rfl

end

variable [DecidableEq α]

/-- The items at the first place where both lists have one and they differ. -/
def firstDiff : List α → List α → Option (α × α)
  | x :: a, y :: b => if x = y then firstDiff a b else some (x, y)
  | _, _ => none

/-- The item of the longer list behind the shorter one, if that is a proper prefix. -/
def overhang : List α → List α → Option α
  | x :: a, y :: b => if x = y then overhang a b else none
  | [], y :: _ => some y
  | x :: _, [] => some x
  | [], [] => none

variable {a b : List α}

theorem firstDiff_ne {p : α × α} (h : firstDiff a b = some p) : p.1 ≠ p.2 := by
  induction a generalizing b with
  | nil => cases b <;> cases h
  | cons x a ih =>
    cases b with
    | nil => cases h
    | cons y b =>
      by_cases hxy : x = y
      · rw [firstDiff, if_pos hxy] at h
        exact ih h
      · rw [firstDiff, if_neg hxy] at h
        obtain rfl := Option.some.inj h
        exact hxy

theorem firstDiff_take {n : ℕ} {p : α × α} (h : firstDiff (a.take n) (b.take n) = some p) :
    firstDiff a b = some p := by
  induction n generalizing a b with
  | zero => cases h
  | succ n ih =>
    cases a with
    | nil => cases b <;> cases h
    | cons x a =>
      cases b with
      | nil => cases h
      | cons y b =>
        rw [List.take_succ_cons, List.take_succ_cons, firstDiff] at h
        rw [firstDiff]
        split_ifs at h ⊢ with hxy
        · exact ih h
        · exact h

variable {cmp cmp' : α → α → Ordering}

/-- Two ways to compare items make the same of two lists if and only if they do so where the lists differ first. -/
theorem compareLex_eq_iff [LawfulEqCmp cmp] [LawfulEqCmp cmp'] :
    a.compareLex cmp b = a.compareLex cmp' b ↔ ∀ p ∈ firstDiff a b, cmp p.1 p.2 = cmp' p.1 p.2 := by
  induction a generalizing b with
  | nil =>
    refine iff_of_true ?_ fun p hp => by cases b <;> cases hp
    cases b with
    | nil => rw [List.compareLex_nil_nil, List.compareLex_nil_nil]
    | cons y b => rw [List.compareLex_nil_cons, List.compareLex_nil_cons]
  | cons x a ih =>
    cases b with
    | nil =>
      refine iff_of_true ?_ fun p hp => by cases hp
      rw [List.compareLex_cons_nil, List.compareLex_cons_nil]
    | cons y b =>
      by_cases hxy : x = y
      · subst hxy
        rw [compareLex_cons_self, compareLex_cons_self, firstDiff, if_pos rfl, ih]
      · rw [compareLex_cons_of_ne hxy, compareLex_cons_of_ne hxy, firstDiff, if_neg hxy]
        exact ⟨fun h p hp => Option.some.inj hp ▸ h, fun h => h _ rfl⟩

theorem compareLex_take_of_ne [LawfulEqCmp cmp] {n : ℕ} (h : a.take n ≠ b.take n) :
    (a.take n).compareLex cmp (b.take n) = a.compareLex cmp b := by
  induction n generalizing a b with
  | zero => exact absurd (List.take_zero.trans List.take_zero.symm) h
  | succ n ih =>
    cases a with
    | nil =>
      cases b with
      | nil => exact absurd rfl h
      | cons y b => rw [List.take_nil, List.take_succ_cons, List.compareLex_nil_cons, List.compareLex_nil_cons]
    | cons x a =>
      cases b with
      | nil => rw [List.take_nil, List.take_succ_cons, List.compareLex_cons_nil, List.compareLex_cons_nil]
      | cons y b =>
        rw [List.take_succ_cons, List.take_succ_cons] at h ⊢
        by_cases hxy : x = y
        · subst hxy
          rw [compareLex_cons_self, compareLex_cons_self]
          exact ih fun he => h (congrArg (x :: ·) he)
        · rw [compareLex_cons_of_ne hxy, compareLex_cons_of_ne hxy]

theorem firstDiff_self (a : List α) : firstDiff a a = none := by
  induction a with
  | nil => rfl
  | cons x a ih => rw [firstDiff, if_pos rfl, ih]

/-- The beginnings are compared as the whole lists are to be if and only if they are different when the lists are and
the two ways to compare agree where the lists differ first. -/
theorem compareLex_take_eq_iff [LawfulEqCmp cmp] [LawfulEqCmp cmp'] {n : ℕ} :
    (a.take n).compareLex cmp (b.take n) = a.compareLex cmp' b ↔
      (a.take n = b.take n → a = b) ∧ ∀ p ∈ firstDiff a b, cmp p.1 p.2 = cmp' p.1 p.2 := by
  by_cases htake : a.take n = b.take n
  · have hself : (b.take n).compareLex cmp (b.take n) = .eq := ReflCmp.compare_self
    rw [htake, hself, eq_comm, LawfulEqCmp.compare_eq_iff_eq]
    refine ⟨fun h => ⟨fun _ => h, fun p hp => ?_⟩, fun h => h.1 rfl⟩
    rw [h, firstDiff_self] at hp
    cases hp
  · rw [compareLex_take_of_ne htake, compareLex_eq_iff]
    exact ⟨fun h => ⟨fun he => absurd he htake, h⟩, fun h => h.2⟩

/-! ## Terminators -/

theorem mem_of_mem_overhang {c : α} (h : c ∈ overhang a b) : c ∈ a ++ b := by
  induction a generalizing b with
  | nil =>
    cases b with
    | nil => cases h
    | cons y b =>
      obtain rfl := Option.some.inj h
      exact List.mem_cons_self
  | cons x a ih =>
    cases b with
    | nil =>
      obtain rfl := Option.some.inj h
      exact List.mem_cons_self
    | cons y b =>
      rw [overhang] at h
      split_ifs at h with hxy
      · have hmem := List.mem_append.mp (ih h)
        exact List.mem_append.mpr (hmem.imp (List.mem_cons_of_mem x) (List.mem_cons_of_mem y))
      · cases h

/-- A terminator that is compared as an item decides as the lengths do if and only if it comes before the item behind
the shorter list. -/
theorem compareLex_terminated_iff [LawfulEqCmp cmp] [OrientedCmp cmp] {z : α} (ha : z ∉ a) (hb : z ∉ b) :
    (a ++ [z]).compareLex cmp (b ++ [z]) = a.compareLex cmp b ↔ ∀ c ∈ overhang a b, cmp z c = .lt := by
  induction a generalizing b with
  | nil =>
    cases b with
    | nil =>
      refine iff_of_true ?_ fun c hc => by cases hc
      rw [List.nil_append, compareLex_cons_self]
    | cons y b =>
      have hzy : z ≠ y := fun h => hb (h ▸ List.mem_cons_self)
      rw [List.nil_append, List.cons_append, compareLex_cons_of_ne hzy, List.compareLex_nil_cons]
      exact ⟨fun h c hc => Option.some.inj hc ▸ h, fun h => h y rfl⟩
  | cons x a ih =>
    cases b with
    | nil =>
      have hxz : x ≠ z := fun h => ha (h ▸ List.mem_cons_self)
      rw [List.nil_append, List.cons_append, compareLex_cons_of_ne hxz, List.compareLex_cons_nil,
        OrientedCmp.gt_iff_lt]
      exact ⟨fun h c hc => Option.some.inj hc ▸ h, fun h => h x rfl⟩
    | cons y b =>
      rw [List.cons_append, List.cons_append]
      by_cases hxy : x = y
      · subst hxy
        rw [compareLex_cons_self, compareLex_cons_self, overhang, if_pos rfl]
        exact ih (fun h => ha (List.mem_cons_of_mem x h)) fun h => hb (List.mem_cons_of_mem x h)
      · rw [compareLex_cons_of_ne hxy, compareLex_cons_of_ne hxy, overhang, if_neg hxy]
        exact iff_of_true rfl nofun

end Lexicographic
