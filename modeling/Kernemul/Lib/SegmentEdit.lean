import Kernemul.Lib.Segments

/-!
# Editing a segment map around one entry

The lookups and updates by key of an ordered map (`byKey`, `emplace`, `erase`), and what they do to a
list written `A ++ s :: B`. An entry can be replaced by two that touch and back (`valid_pair`,
`covers_pair`): the addresses covered stay the same.
-/

namespace Segments

variable {α : Type*}

/-- The entry with key `k`. -/
def byKey (l : List (Seg α)) (k : Nat) : Option (Seg α) := l.find? fun t => t.base = k

def emplace (s : Seg α) (l : List (Seg α)) : List (Seg α) :=
  if (byKey l s.base).isSome then l else put s l

def erase (k : Nat) (l : List (Seg α)) : List (Seg α) := l.filter fun t => t.base ≠ k

/-- Some entry holds address `x`. -/
def Covers (l : List (Seg α)) (x : Nat) : Prop := ∃ s ∈ l, s.Has x

def Sorted (l : List (Seg α)) : Prop := l.Pairwise fun s t => s.base < t.base

variable {l : List (Seg α)}

theorem Valid.sorted (h : Valid l) : Sorted l := by
  refine h.ordered.imp_of_mem fun {s t} hs _ hst => ?_
  have := h.base_lt_stop hs
  omega

variable {A B : List (Seg α)} {s : Seg α}

theorem mem_exchange (mid mid' : List (Seg α)) (h : s ∈ A ++ (mid ++ B)) :
    s ∈ mid ∨ s ∈ A ++ (mid' ++ B) := by
  rcases List.mem_append.mp h with hA | h
  · exact Or.inr (List.mem_append_left _ hA)
  · refine (List.mem_append.mp h).imp_right fun hB => ?_
    exact List.mem_append_right _ (List.mem_append_right _ hB)

theorem sorted_append :
    Sorted (A ++ s :: B) ↔ Sorted A ∧ Sorted B ∧ (∀ a ∈ A, a.base < s.base) ∧
      (∀ b ∈ B, s.base < b.base) ∧ ∀ a ∈ A, ∀ b ∈ B, a.base < b.base := by
  unfold Sorted
  rw [List.pairwise_append, List.pairwise_cons]
  constructor
  · rintro ⟨h1, ⟨h2, h3⟩, h4⟩
    exact ⟨h1, h3, fun a ha => h4 a ha s (by simp), h2, fun a ha b hb => h4 a ha b (by simp [hb])⟩
  · rintro ⟨h1, h2, h3, h4, h5⟩
    refine ⟨h1, ⟨h4, h2⟩, fun a ha b hb => ?_⟩
    rcases List.mem_cons.mp hb with rfl | hb
    · exact h3 a ha
    · exact h5 a ha b hb

section Around
variable {A B : List (Seg α)} {s : Seg α} (h : Sorted (A ++ s :: B))
include h

theorem ne_of_mem_left {a : Seg α} (ha : a ∈ A) : a.base ≠ s.base :=
  Nat.ne_of_lt ((sorted_append.mp h).2.2.1 a ha)

theorem ne_of_mem_right {b : Seg α} (hb : b ∈ B) : b.base ≠ s.base :=
  Nat.ne_of_gt ((sorted_append.mp h).2.2.2.1 b hb)

theorem byKey_at : byKey (A ++ s :: B) s.base = some s := by
  unfold byKey
  rw [List.find?_append, List.find?_eq_none.mpr fun a ha => by simpa using ne_of_mem_left h ha,
    List.find?_cons_of_pos (by simp)]
  rfl

theorem resize_at (n : Nat) : resize s.base n (A ++ s :: B) = A ++ { s with size := n } :: B := by
  have hA := resize_of_ne (n := n) fun a ha => ne_of_mem_left h ha
  have hB := resize_of_ne (n := n) fun b hb => ne_of_mem_right h hb
  unfold resize at *
  rw [List.map_append, List.map_cons, hA, hB, if_pos rfl]

theorem modify_at (f : α → α) :
    modify s.base f (A ++ s :: B) = A ++ { s with val := f s.val } :: B := by
  have hsame : ∀ m : List (Seg α), (∀ t ∈ m, t.base ≠ s.base) → modify s.base f m = m := by
    intro m hm
    unfold modify
    conv_rhs => rw [← List.map_id m]
    exact List.map_congr_left fun t ht => by simp [hm t ht]
  have hA := hsame A fun a ha => ne_of_mem_left h ha
  have hB := hsame B fun b hb => ne_of_mem_right h hb
  unfold modify at *
  rw [List.map_append, List.map_cons, hA, hB, if_pos rfl]

theorem erase_at : erase s.base (A ++ s :: B) = A ++ B := by
  unfold erase
  rw [List.filter_append, List.filter_cons_of_neg (by simp),
    List.filter_eq_self.mpr fun a ha => by simpa using ne_of_mem_left h ha,
    List.filter_eq_self.mpr fun b hb => by simpa using ne_of_mem_right h hb]

theorem below_at : below s.base (A ++ s :: B) = A := by
  unfold below
  rw [List.takeWhile_append_of_pos fun a ha => by simpa using (sorted_append.mp h).2.2.1 a ha,
    List.takeWhile_cons_of_neg (by simp), List.append_nil]

theorem since_succ_at : since (s.base + 1) (A ++ s :: B) = B := by
  unfold since
  rw [List.dropWhile_append_of_pos fun a ha => by
      have := (sorted_append.mp h).2.2.1 a ha
      simp only [decide_eq_true_eq]
      omega, List.dropWhile_cons_of_pos (by simp)]
  cases B with
  | nil => rfl
  | cons b B =>
    have := (sorted_append.mp h).2.2.2.1 b (by simp)
    exact List.dropWhile_cons_of_neg (by simp; omega)

theorem emplace_after {u : Seg α} (hu : s.base < u.base) (hB : ∀ b ∈ B, u.base < b.base) :
    emplace u (A ++ s :: B) = A ++ s :: u :: B := by
  obtain ⟨-, -, hA, -, -⟩ := sorted_append.mp h
  have hnone : byKey (A ++ s :: B) u.base = none := by
    unfold byKey
    rw [List.find?_eq_none]
    intro t ht
    simp only [decide_eq_true_eq]
    rcases List.mem_append.mp ht with ht | ht
    · have := hA t ht
      omega
    · rcases List.mem_cons.mp ht with rfl | ht
      · omega
      · have := hB t ht
        omega
  rw [emplace, hnone]
  clear h hnone
  induction A with
  | nil =>
    show put u (s :: B) = _
    rw [put, if_neg (by omega), if_neg (by omega), put_of_lt hB]
    rfl
  | cons a A ih =>
    have := hA a (by simp)
    have ih := ih fun b hb => hA b (by simp [hb])
    show put u (a :: (A ++ s :: B)) = _
    rw [put, if_neg (by omega), if_neg (by omega)]
    exact congrArg (a :: ·) ih

end Around

theorem emplace_of_free (h : ∀ t ∈ l, t.base ≠ s.base) :
    emplace s l = put s l := by
  have hnone : byKey l s.base = none := by
    unfold byKey
    rw [List.find?_eq_none]
    intro t ht
    simpa using h t ht
  rw [emplace, hnone]
  rfl

theorem byKey_eq_some {k : Nat} (h : byKey l k = some s) :
    s ∈ l ∧ s.base = k :=
  ⟨List.mem_of_find?_eq_some h, by simpa using List.find?_some h⟩

/-! ## One entry for two -/

theorem valid_around :
    Valid (A ++ s :: B) ↔ Valid A ∧ Valid B ∧ 0 < s.size ∧ (∀ a ∈ A, a.stop ≤ s.base) ∧
      (∀ b ∈ B, s.stop ≤ b.base) ∧ ∀ a ∈ A, ∀ b ∈ B, a.stop ≤ b.base := by
  rw [valid_append, valid_cons]
  constructor
  · rintro ⟨h1, ⟨h2, h3, h4⟩, h5⟩
    exact ⟨h1, h4, h2, fun a ha => h5 a ha s (by simp), h3, fun a ha b hb => h5 a ha b (by simp [hb])⟩
  · rintro ⟨h1, h2, h3, h4, h5, h6⟩
    refine ⟨h1, ⟨h3, h5, h2⟩, fun a ha b hb => ?_⟩
    rcases List.mem_cons.mp hb with rfl | hb
    · exact h4 a ha
    · exact h6 a ha b hb

theorem valid_pair {b n k : Nat} {u v w : α} (hn : 0 < n) (hk : 0 < k) :
    Valid (A ++ ⟨b, n, u⟩ :: ⟨b + n, k, v⟩ :: B) ↔ Valid (A ++ ⟨b, n + k, w⟩ :: B) := by
  rw [valid_around, valid_around, valid_cons]
  simp only [Seg.stop]
  constructor
  · rintro ⟨h1, ⟨h2, h3, h4⟩, -, h6, -, h8⟩
    exact ⟨h1, h4, by omega, h6, fun t ht => by have := h3 t ht; omega,
      fun a ha t ht => h8 a ha t (by simp [ht])⟩
  · rintro ⟨h1, h2, -, h4, h5, h6⟩
    refine ⟨h1, ⟨hk, fun t ht => by have := h5 t ht; omega, h2⟩, hn, h4, fun t ht => ?_,
      fun a ha t ht => ?_⟩
    · rcases List.mem_cons.mp ht with rfl | ht
      · exact le_rfl
      · have := h5 t ht
        omega
    · rcases List.mem_cons.mp ht with rfl | ht
      · have := h4 a ha
        simp only
        omega
      · exact h6 a ha t ht

theorem covers_append {m : List (Seg α)} {x : Nat} :
    Covers (l ++ m) x ↔ Covers l x ∨ Covers m x := by
  unfold Covers
  simp only [List.mem_append, or_and_right, exists_or]

theorem covers_cons {x : Nat} :
    Covers (s :: l) x ↔ s.Has x ∨ Covers l x := by
  unfold Covers
  simp only [List.mem_cons, or_and_right, exists_or, exists_eq_left]

theorem covers_pair {b n k : Nat} {u v w : α} {x : Nat} :
    Covers (A ++ ⟨b, n, u⟩ :: ⟨b + n, k, v⟩ :: B) x ↔ Covers (A ++ ⟨b, n + k, w⟩ :: B) x := by
  have hhas : (⟨b, n, u⟩ : Seg α).Has x ∨ (⟨b + n, k, v⟩ : Seg α).Has x ↔
      (⟨b, n + k, w⟩ : Seg α).Has x := by
    simp only [Seg.has_iff]
    omega
  rw [covers_append, covers_append, covers_cons, covers_cons, covers_cons, ← hhas]
  tauto

theorem valid_set (v : α) :
    Valid (A ++ { s with val := v } :: B) ↔ Valid (A ++ s :: B) := by
  rw [valid_around, valid_around]
  rfl

theorem covers_set (v : α) {x : Nat} :
    Covers (A ++ { s with val := v } :: B) x ↔ Covers (A ++ s :: B) x := by
  rw [covers_append, covers_append, covers_cons, covers_cons]
  rfl

theorem covers_put (h : ∀ t ∈ l, t.base ≠ s.base) {x : Nat} :
    Covers (put s l) x ↔ s.Has x ∨ Covers l x := by
  rw [← covers_cons]
  unfold Covers
  simp only [mem_put h, List.mem_cons]

end Segments
