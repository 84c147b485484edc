import Mathlib.Data.List.Basic
import Mathlib.Tactic.Common

/-!
# A merge sort that asks

The order of two elements is asked for, and asking may change a state. When the answers are those of a relation for as
long as an invariant of the state holds, and asking keeps the invariant, the elements are sorted as `List.mergeSort`
sorts them.
-/

namespace StableSort

variable {α σ : Type*} (less : α → α → σ → Bool × σ)

/-- The second list is asked first, so that of two elements with no order the one of the first list goes first. -/
def merge : List α → List α → σ → List α × σ
  | [], ys, s => (ys, s)
  | x :: xs, [], s => (x :: xs, s)
  | x :: xs, y :: ys, s =>
    match less y x s with
    | (true, s) =>
      let (rest, s) := merge (x :: xs) ys s
      (y :: rest, s)
    | (false, s) =>
      let (rest, s) := merge xs (y :: ys) s
      (x :: rest, s)
termination_by xs ys => xs.length + ys.length

def sort : List α → σ → List α × σ
  | [], s => ([], s)
  | [x], s => ([x], s)
  | x :: y :: l, s =>
    let half := (l.length + 3) / 2
    let (xs, s) := sort ((x :: y :: l).take half) s
    let (ys, s) := sort ((x :: y :: l).drop half) s
    merge less xs ys s
termination_by l => l.length
decreasing_by
  · simp only [List.length_take, List.length_cons]
    omega
  · simp only [List.length_drop, List.length_cons]
    omega

theorem merge_perm (xs ys : List α) (s : σ) : (merge less xs ys s).1.Perm (xs ++ ys) := by
  fun_induction merge less xs ys s with
  | case1 ys s => exact .refl _
  | case2 x xs s => rw [List.append_nil]
  | case3 x xs y ys s s₁ hless rest s₂ hrest ih =>
    rw [hrest] at ih
    exact (ih.cons y).trans List.perm_middle.symm
  | case4 x xs y ys s s₁ hless rest s₂ hrest ih =>
    rw [hrest] at ih
    exact ih.cons x

theorem sort_perm (l : List α) (s : σ) : (sort less l s).1.Perm l := by
  fun_induction sort less l s with
  | case1 s => exact .refl _
  | case2 x s => exact .refl _
  | case3 x y l s half xs s₁ hxs ys s₂ hys ihx ihy =>
    rw [hxs] at ihx
    rw [hys] at ihy
    have happend := ihx.append ihy
    rw [List.take_append_drop] at happend
    exact (merge_perm less xs ys s₂).trans happend

theorem merge_keeps {P : σ → Prop} (h : ∀ a b s, P s → P (less a b s).2) (xs ys : List α) (s : σ) (hs : P s) :
    P (merge less xs ys s).2 := by
  fun_induction merge less xs ys s with
  | case1 ys s => exact hs
  | case2 x xs s => exact hs
  | case3 x xs y ys s s₁ hless rest s₂ hrest ih =>
    have hkeeps := h y x s hs
    rw [hless] at hkeeps
    rw [hrest] at ih
    exact ih hkeeps
  | case4 x xs y ys s s₁ hless rest s₂ hrest ih =>
    have hkeeps := h y x s hs
    rw [hless] at hkeeps
    rw [hrest] at ih
    exact ih hkeeps

theorem sort_keeps {P : σ → Prop} (h : ∀ a b s, P s → P (less a b s).2) (l : List α) (s : σ) (hs : P s) :
    P (sort less l s).2 := by
  fun_induction sort less l s with
  | case1 s => exact hs
  | case2 x s => exact hs
  | case3 x y l s half xs s₁ hxs ys s₂ hys ihx ihy =>
    rw [hxs] at ihx
    rw [hys] at ihy
    exact merge_keeps less h xs ys s₂ (ihy (ihx hs))

/-! ## The answers of a relation -/

/-- As long as the invariant holds, asking about elements of `l` answers the relation and keeps the invariant. -/
structure Answers (inv : σ → Prop) (lt : α → α → Bool) (l : List α) : Prop where
  answer : ∀ a ∈ l, ∀ b ∈ l, ∀ s, inv s → (less a b s).1 = lt a b
  keeps : ∀ a ∈ l, ∀ b ∈ l, ∀ s, inv s → inv (less a b s).2

variable {less} {inv : σ → Prop} {lt : α → α → Bool} {l : List α}

theorem merge_eq (h : Answers less inv lt l) (xs ys : List α) (s : σ) (hx : ∀ a ∈ xs, a ∈ l) (hy : ∀ a ∈ ys, a ∈ l)
    (hs : inv s) :
    (merge less xs ys s).1 = xs.merge ys (fun a b => !lt b a) ∧ inv (merge less xs ys s).2 := by
  fun_induction merge less xs ys s with
  | case1 ys s => exact ⟨(List.nil_merge ys).symm, hs⟩
  | case2 x xs s => exact ⟨(List.merge_right _).symm, hs⟩
  | case3 x xs y ys s s₁ hless rest s₂ hrest ih =>
    have hyl := hy y List.mem_cons_self
    have hxl := hx x List.mem_cons_self
    have hanswer := h.answer y hyl x hxl s hs
    have hkeeps := h.keeps y hyl x hxl s hs
    rw [hless] at hanswer hkeeps
    obtain ⟨hlist, hinv⟩ := ih hx (fun a ha => hy a (List.mem_cons_of_mem y ha)) hkeeps
    rw [hrest] at hlist hinv
    rw [List.cons_merge_cons_neg _ _ _ (by simp [← hanswer])]
    exact ⟨congrArg (y :: ·) hlist, hinv⟩
  | case4 x xs y ys s s₁ hless rest s₂ hrest ih =>
    have hyl := hy y List.mem_cons_self
    have hxl := hx x List.mem_cons_self
    have hanswer := h.answer y hyl x hxl s hs
    have hkeeps := h.keeps y hyl x hxl s hs
    rw [hless] at hanswer hkeeps
    obtain ⟨hlist, hinv⟩ := ih (fun a ha => hx a (List.mem_cons_of_mem x ha)) hy hkeeps
    rw [hrest] at hlist hinv
    rw [List.cons_merge_cons_pos _ _ _ (by simp [← hanswer])]
    exact ⟨congrArg (x :: ·) hlist, hinv⟩

theorem sort_eq (h : Answers less inv lt l) (m : List α) (s : σ) (hm : ∀ a ∈ m, a ∈ l) (hs : inv s) :
    (sort less m s).1 = m.mergeSort (fun a b => !lt b a) ∧ inv (sort less m s).2 := by
  fun_induction sort less m s with
  | case1 s => exact ⟨List.mergeSort_nil.symm, hs⟩
  | case2 x s => exact ⟨(List.mergeSort_singleton x).symm, hs⟩
  | case3 x y m s half xs s₁ hxs ys s₂ hys ihx ihy =>
    obtain ⟨hxlist, hxinv⟩ := ihx (fun a ha => hm a (List.mem_of_mem_take ha)) hs
    rw [hxs] at hxlist hxinv
    obtain ⟨hylist, hyinv⟩ := ihy (fun a ha => hm a (List.mem_of_mem_drop ha)) hxinv
    rw [hys] at hylist hyinv
    dsimp only at hxlist hylist
    have hmerge := merge_eq h xs ys s₂
      (fun a ha => hm a (List.mem_of_mem_take (List.mem_mergeSort.mp (hxlist ▸ ha))))
      (fun a ha => hm a (List.mem_of_mem_drop (List.mem_mergeSort.mp (hylist ▸ ha)))) hyinv
    refine ⟨hmerge.1.trans ?_, hmerge.2⟩
    rw [hxlist, hylist, List.mergeSort]
    simp only [List.MergeSort.Internal.splitInTwo_fst, List.MergeSort.Internal.splitInTwo_snd, List.length_cons]
    rfl

end StableSort
