import Mathlib.Data.List.TakeWhile
import Mathlib.Order.Basic
import Mathlib.Tactic.Common

/-!
# Ordered maps of half-open segments

An ordered map from a start address to a length and a value, kept as the list of its entries in
key order. The lookups and updates are the ones an ordered tree map offers (`floor`, `put`,
`resize`, `modify`), and over them the two edits every interval map needs: cutting the segment that
straddles an address (`splitAt`) and joining neighbours that touch and carry the same value
(`mergeAdjacent`).

A list is `Valid` when its segments are non-empty, ordered and disjoint. On valid lists `find` is
membership (`find_eq_some`), a cut and a merge keep the value at every address (`valAt_cut`,
`valAt_mergeAdjacent`), and a merged list is `Maximal`: no two segments that touch carry the same
value.
-/

namespace Segments

/-- The segment `[base, base + size)` with its value; `base` is its key in the map. -/
structure Seg (α : Type*) where
  base : Nat
  size : Nat
  val : α
  deriving DecidableEq, Repr

variable {α : Type*}

def Seg.stop (s : Seg α) : Nat := s.base + s.size

/-- Address `a` lies in the segment. -/
def Seg.Has (s : Seg α) (a : Nat) : Prop := s.base ≤ a ∧ a < s.stop

instance (s : Seg α) (a : Nat) : Decidable (s.Has a) :=
  inferInstanceAs (Decidable (s.base ≤ a ∧ a < s.stop))

variable {s : Seg α} {a : Nat}

theorem Seg.has_iff : s.Has a ↔ s.base ≤ a ∧ a < s.base + s.size := Iff.rfl

/-- The segments are non-empty, in address order, and no two overlap. -/
structure Valid (l : List (Seg α)) : Prop where
  ordered : l.Pairwise fun s t => s.stop ≤ t.base
  pos : ∀ s ∈ l, 0 < s.size

def Maximal (l : List (Seg α)) : Prop :=
  ∀ s ∈ l, ∀ t ∈ l, s.stop = t.base → s.val ≠ t.val

/-! ## Map operations -/

/-- The entry before `upper_bound a`: the last one whose key is at most `a`. -/
def floor (a : Nat) : List (Seg α) → Option (Seg α)
  | [] => none
  | s :: l => if s.base ≤ a then (floor a l).or (some s) else none

/-- The segment that holds address `a`. -/
def find (l : List (Seg α)) (a : Nat) : Option (Seg α) :=
  match floor a l with
  | none => none
  | some s => if a < s.stop then some s else none

/-- The value at address `a`. -/
def valAt (l : List (Seg α)) (a : Nat) : Option α := (find l a).map Seg.val

/-- `map[s.base] = s`: a new entry in key order, or the existing one overwritten. -/
def put (s : Seg α) : List (Seg α) → List (Seg α)
  | [] => [s]
  | t :: l =>
    if s.base < t.base then s :: t :: l
    else if s.base = t.base then s :: l
    else t :: put s l

/-- Change the size of the entry at key `b`. -/
def resize (b n : Nat) (l : List (Seg α)) : List (Seg α) :=
  l.map fun t => if t.base = b then { t with size := n } else t

/-- Change the value of the entry at key `b`. -/
def modify (b : Nat) (f : α → α) (l : List (Seg α)) : List (Seg α) :=
  l.map fun t => if t.base = b then { t with val := f t.val } else t

/-- Cut the segment that straddles `a` into the part below `a` and the part from `a` on. -/
def splitAt (l : List (Seg α)) (a : Nat) : List (Seg α) :=
  match find l a with
  | none => l
  | some s =>
    if s.base = a then l
    else
      let tail := s.stop - a
      put ⟨a, tail, s.val⟩ (resize s.base (s.size - tail) l)

/-- The merging loop with its iterator at `s` and the entries `l` after it. -/
def mergeInto [DecidableEq α] (s : Seg α) : List (Seg α) → List (Seg α)
  | [] => [s]
  | t :: l =>
    if s.stop = t.base ∧ s.val = t.val then mergeInto { s with size := s.size + t.size } l
    else s :: mergeInto t l

def mergeAdjacent [DecidableEq α] : List (Seg α) → List (Seg α)
  | [] => []
  | s :: l => mergeInto s l

/-! ## Valid lists -/

theorem Valid.nil : Valid ([] : List (Seg α)) := ⟨List.Pairwise.nil, by simp⟩

theorem Valid.single (s : Seg α) (h : 0 < s.size) : Valid [s] :=
  ⟨List.pairwise_singleton _ _, by simpa using h⟩

variable {l : List (Seg α)}

theorem valid_cons :
    Valid (s :: l) ↔ 0 < s.size ∧ (∀ t ∈ l, s.stop ≤ t.base) ∧ Valid l := by
  constructor
  · rintro ⟨ho, hp⟩
    obtain ⟨h1, h2⟩ := List.pairwise_cons.mp ho
    exact ⟨hp s (by simp), h1, h2, fun t ht => hp t (by simp [ht])⟩
  · rintro ⟨h0, h1, h2⟩
    refine ⟨List.pairwise_cons.mpr ⟨h1, h2.ordered⟩, fun t ht => ?_⟩
    rcases List.mem_cons.mp ht with rfl | ht
    · exact h0
    · exact h2.pos t ht

theorem valid_append {m : List (Seg α)} :
    Valid (l ++ m) ↔ Valid l ∧ Valid m ∧ ∀ s ∈ l, ∀ t ∈ m, s.stop ≤ t.base := by
  constructor
  · rintro ⟨ho, hp⟩
    obtain ⟨h1, h2, h3⟩ := List.pairwise_append.mp ho
    exact ⟨⟨h1, fun s hs => hp s (by simp [hs])⟩, ⟨h2, fun s hs => hp s (by simp [hs])⟩, h3⟩
  · rintro ⟨hl, hm, h⟩
    refine ⟨List.pairwise_append.mpr ⟨hl.ordered, hm.ordered, h⟩, fun s hs => ?_⟩
    rcases List.mem_append.mp hs with hs | hs
    · exact hl.pos s hs
    · exact hm.pos s hs

theorem Valid.base_lt_stop (h : Valid l) (hs : s ∈ l) :
    s.base < s.stop := by
  have := h.pos s hs
  unfold Seg.stop
  omega

variable {t : Seg α}

theorem Valid.eq_of_has (h : Valid l) (hs : s ∈ l) (ht : t ∈ l) (ha : s.Has a) (hb : t.Has a) : s = t := by
  induction l with
  | nil => simp at hs
  | cons u l ih =>
    obtain ⟨-, hu, hl⟩ := valid_cons.mp h
    rcases List.mem_cons.mp hs with rfl | hs' <;> rcases List.mem_cons.mp ht with rfl | ht'
    · rfl
    · have := hu t ht'
      obtain ⟨-, h1⟩ := ha
      obtain ⟨h2, -⟩ := hb
      omega
    · have := hu s hs'
      obtain ⟨h1, -⟩ := ha
      obtain ⟨-, h2⟩ := hb
      omega
    · exact ih hl hs' ht'

theorem Valid.apart (h : Valid l) (hs : s ∈ l) (ht : t ∈ l) (hne : s ≠ t) : s.stop ≤ t.base ∨ t.stop ≤ s.base := by
  have h1 := h.base_lt_stop hs
  have h2 := h.base_lt_stop ht
  by_contra hcon
  rcases Nat.le_total s.base t.base with hle | hle
  · exact hne (h.eq_of_has hs ht (a := t.base) ⟨hle, by omega⟩ ⟨le_rfl, h2⟩)
  · exact hne (h.eq_of_has hs ht (a := s.base) ⟨le_rfl, h1⟩ ⟨hle, by omega⟩)

/-! ## Lookup -/

theorem floor_eq_none (h : ∀ s ∈ l, a < s.base) : floor a l = none := by
  cases l with
  | nil => rfl
  | cons s l => rw [floor, if_neg (by have := h s (by simp); omega)]

theorem find_cons (h : Valid (s :: l)) (a : Nat) :
    find (s :: l) a = if s.Has a then some s else find l a := by
  obtain ⟨-, hs, -⟩ := valid_cons.mp h
  unfold find
  rw [floor]
  by_cases hb : s.base ≤ a
  · rw [if_pos hb]
    by_cases hst : a < s.stop
    · rw [if_pos ⟨hb, hst⟩, floor_eq_none fun t ht => lt_of_lt_of_le hst (hs t ht)]
      simp [hst]
    · rw [if_neg fun h => hst h.2]
      cases hf : floor a l with
      | none => simp [hst]
      | some t => simp
  · rw [if_neg hb, if_neg fun h => hb h.1, floor_eq_none]
    intro t ht
    have := hs t ht
    unfold Seg.stop at this
    omega

theorem find_eq_some (h : Valid l) :
    find l a = some s ↔ s ∈ l ∧ s.Has a := by
  induction l with
  | nil => simp [find, floor]
  | cons t l ih =>
    rw [find_cons h]
    have hl := (valid_cons.mp h).2.2
    by_cases ht : t.Has a
    · rw [if_pos ht]
      constructor
      · rintro ⟨rfl⟩
        exact ⟨by simp, ht⟩
      · rintro ⟨hs, ha⟩
        rw [h.eq_of_has (by simp) hs ht ha]
    · rw [if_neg ht, ih hl]
      constructor
      · rintro ⟨hs, ha⟩
        exact ⟨by simp [hs], ha⟩
      · rintro ⟨hs, ha⟩
        rcases List.mem_cons.mp hs with rfl | hs
        · exact absurd ha ht
        · exact ⟨hs, ha⟩

theorem find_eq_none (h : Valid l) :
    find l a = none ↔ ∀ s ∈ l, ¬ s.Has a := by
  constructor
  · intro hn s hs ha
    rw [(find_eq_some h).mpr ⟨hs, ha⟩] at hn
    simp at hn
  · intro hall
    cases hf : find l a with
    | none => rfl
    | some s =>
      obtain ⟨hs, ha⟩ := (find_eq_some h).mp hf
      exact absurd ha (hall s hs)

@[simp] theorem valAt_nil (a : Nat) : valAt ([] : List (Seg α)) a = none := rfl

theorem valAt_cons (h : Valid (s :: l)) (a : Nat) :
    valAt (s :: l) a = if s.Has a then some s.val else valAt l a := by
  unfold valAt
  rw [find_cons h]
  split <;> rfl

theorem valAt_single (h : s.Has a) : valAt [s] a = some s.val := by
  have hpos : 0 < s.size := by
    have := h.1.trans_lt h.2
    unfold Seg.stop at this
    omega
  rw [valAt_cons (Valid.single s hpos), if_pos h]

theorem valAt_eq_some (h : Valid l) {v : α} :
    valAt l a = some v ↔ ∃ s ∈ l, s.Has a ∧ s.val = v := by
  unfold valAt
  rw [Option.map_eq_some_iff]
  constructor
  · rintro ⟨s, hs, hv⟩
    obtain ⟨h1, h2⟩ := (find_eq_some h).mp hs
    exact ⟨s, h1, h2, hv⟩
  · rintro ⟨s, h1, h2, hv⟩
    exact ⟨s, (find_eq_some h).mpr ⟨h1, h2⟩, hv⟩

theorem valAt_eq_none (h : Valid l) :
    valAt l a = none ↔ ∀ s ∈ l, ¬ s.Has a := by
  unfold valAt
  rw [Option.map_eq_none_iff, find_eq_none h]

theorem valAt_append {m : List (Seg α)} (h : Valid (l ++ m)) (a : Nat) :
    valAt (l ++ m) a = (valAt l a).or (valAt m a) := by
  induction l with
  | nil => simp
  | cons s l ih =>
    have hl : Valid (l ++ m) := (valid_cons.mp h).2.2
    have hs : Valid (s :: l) := (valid_append.mp h).1
    rw [List.cons_append] at h ⊢
    rw [valAt_cons h, valAt_cons hs, ih hl]
    split <;> simp

/-! ## Cutting -/

/-- `splitAt` on a valid list, by recursion on the list. -/
def cut (a : Nat) : List (Seg α) → List (Seg α)
  | [] => []
  | s :: l =>
    if s.base < a ∧ a < s.stop then ⟨s.base, a - s.base, s.val⟩ :: ⟨a, s.stop - a, s.val⟩ :: l
    else s :: cut a l

theorem cut_of_le (h : ∀ t ∈ l, a ≤ t.base) : cut a l = l := by
  induction l with
  | nil => rfl
  | cons s l ih =>
    have := h s (by simp)
    rw [cut, if_neg (by omega), ih fun t ht => h t (by simp [ht])]

theorem resize_of_ne {b n : Nat} (h : ∀ t ∈ l, t.base ≠ b) : resize b n l = l := by
  unfold resize
  conv_rhs => rw [← List.map_id l]
  exact List.map_congr_left fun t ht => by simp [h t ht]

theorem put_of_lt (h : ∀ t ∈ l, s.base < t.base) :
    put s l = s :: l := by
  cases l with
  | nil => rfl
  | cons t l => rw [put, if_pos (h t (by simp))]

theorem splitAt_eq_cut (h : Valid l) (a : Nat) : splitAt l a = cut a l := by
  induction l with
  | nil => rfl
  | cons s l ih =>
    obtain ⟨hpos, hs, hl⟩ := valid_cons.mp h
    have hstop : s.base < s.stop := h.base_lt_stop (by simp)
    rw [splitAt, find_cons h, cut]
    by_cases ha : s.Has a
    · obtain ⟨h1, h2⟩ := ha
      have hlt : ∀ t ∈ l, a < t.base := fun t ht => lt_of_lt_of_le h2 (hs t ht)
      simp only [if_pos (show s.Has a from ⟨h1, h2⟩)]
      by_cases hb : s.base = a
      · rw [if_pos hb, if_neg (by omega), cut_of_le fun t ht => (hlt t ht).le]
      · rw [if_neg hb, if_pos (by omega)]
        -- the entry is shortened in place and the tail goes right behind it
        rw [resize, List.map_cons, if_pos rfl]
        have hrest := resize_of_ne (b := s.base) (n := s.size - (s.stop - a)) (l := l)
          fun t ht => by have := hlt t ht; omega
        rw [resize] at hrest
        rw [hrest, put, if_neg (by simp; omega), if_neg (by simp; omega), put_of_lt hlt]
        congr 2
        unfold Seg.stop at h2 ⊢
        omega
    · rw [if_neg ha, if_neg (by unfold Seg.Has at ha; omega), ← ih hl, splitAt]
      cases hf : find l a with
      | none => rfl
      | some t =>
        obtain ⟨ht, hta⟩ := (find_eq_some hl).mp hf
        have hst := hs t ht
        simp only
        by_cases hb : t.base = a
        · rw [if_pos hb, if_pos hb]
        · have hne : s.base ≠ t.base := by omega
          have hlt : s.base < a := by have := hta.1; omega
          rw [if_neg hb, if_neg hb, resize, List.map_cons, if_neg hne, put,
            if_neg (by simp; omega), if_neg (by simp; omega)]
          rfl

/-- What a piece of a cut list is: an old segment, or one side of the segment `a` straddles. -/
theorem mem_cut (h : s ∈ cut a l) :
    s ∈ l ∨ ∃ t ∈ l, t.base < a ∧ a < t.stop ∧ s.val = t.val ∧
      (s.base = t.base ∧ s.stop = a ∨ s.base = a ∧ s.stop = t.stop) := by
  induction l with
  | nil => simp [cut] at h
  | cons t l ih =>
    rw [cut] at h
    split at h
    · rename_i hcut
      simp only [List.mem_cons] at h
      rcases h with rfl | rfl | h
      · refine Or.inr ⟨t, by simp, hcut.1, hcut.2, rfl, Or.inl ⟨rfl, ?_⟩⟩
        simp only [Seg.stop]; omega
      · refine Or.inr ⟨t, by simp, hcut.1, hcut.2, rfl, Or.inr ⟨rfl, ?_⟩⟩
        simp only [Seg.stop] at hcut ⊢; omega
      · exact Or.inl (by simp [h])
    · rcases List.mem_cons.mp h with rfl | h
      · exact Or.inl (by simp)
      · rcases ih h with h | ⟨u, hu, hrest⟩
        · exact Or.inl (by simp [h])
        · exact Or.inr ⟨u, by simp [hu], hrest⟩

/-- Every piece of a cut list lies inside an old segment with the same value. -/
theorem mem_cut_sub (h : s ∈ cut a l) :
    ∃ t ∈ l, t.base ≤ s.base ∧ s.stop ≤ t.stop ∧ s.val = t.val := by
  rcases mem_cut h with h | ⟨t, ht, h1, h2, hv, ⟨hb, hst⟩ | ⟨hb, hst⟩⟩
  · exact ⟨s, h, le_rfl, le_rfl, rfl⟩
  · exact ⟨t, ht, by omega, by omega, hv⟩
  · exact ⟨t, ht, by omega, by omega, hv⟩

theorem Valid.cut (h : Valid l) (a : Nat) : Valid (cut a l) := by
  induction l with
  | nil => exact h
  | cons s l ih =>
    obtain ⟨hpos, hs, hl⟩ := valid_cons.mp h
    rw [Segments.cut]
    split
    · rename_i hcut
      refine valid_cons.mpr ⟨by simp; omega, fun t ht => ?_, valid_cons.mpr ⟨by simp; omega, fun t ht => ?_, hl⟩⟩
      · rcases List.mem_cons.mp ht with rfl | ht
        · simp only [Seg.stop]; omega
        · have := hs t ht
          simp only [Seg.stop] at hcut this ⊢; omega
      · have := hs t ht
        simp only [Seg.stop] at hcut this ⊢; omega
    · refine valid_cons.mpr ⟨hpos, fun t ht => ?_, ih hl⟩
      obtain ⟨u, hu, hb, -, -⟩ := mem_cut_sub ht
      exact le_trans (hs u hu) hb

theorem valAt_cut (h : Valid l) (a x : Nat) :
    valAt (cut a l) x = valAt l x := by
  induction l with
  | nil => rfl
  | cons s l ih =>
    obtain ⟨hpos, hs, hl⟩ := valid_cons.mp h
    have hc := h.cut a
    rw [cut] at hc ⊢
    split
    · rename_i hcut
      rw [if_pos hcut] at hc
      rw [valAt_cons hc, valAt_cons (valid_cons.mp hc).2.2, valAt_cons h]
      simp only [Seg.stop] at hcut
      by_cases h1 : s.Has x
      · have h2 := Seg.has_iff.mp h1
        rw [if_pos h1]
        by_cases h3 : x < a
        · rw [if_pos (Seg.has_iff.mpr (by simp only; omega))]
        · rw [if_neg (by rw [Seg.has_iff]; simp only; omega),
            if_pos (Seg.has_iff.mpr (by simp only [Seg.stop]; omega))]
      · have h2 : ¬ (s.base ≤ x ∧ x < s.base + s.size) := fun h => h1 (Seg.has_iff.mpr h)
        rw [if_neg h1, if_neg (by rw [Seg.has_iff]; simp only; omega),
          if_neg (by rw [Seg.has_iff]; simp only [Seg.stop]; omega)]
    · rename_i hcut
      rw [if_neg hcut] at hc
      rw [valAt_cons hc, valAt_cons h, ih hl]

/-- No segment of the list has `a` strictly inside it. -/
def Clear (a : Nat) (l : List (Seg α)) : Prop := ∀ s ∈ l, s.stop ≤ a ∨ a ≤ s.base

theorem clear_cut_self (h : Valid l) (a : Nat) : Clear a (cut a l) := by
  intro s hs
  rcases mem_cut hs with hmem | ⟨t, -, -, -, -, ⟨-, hst⟩ | ⟨hb, -⟩⟩
  · by_contra hcon
    -- an old segment still straddling `a` would overlap the two halves it was cut into
    have hin : s.Has a := ⟨by omega, by omega⟩
    have hsp : s.base < a ∧ a < s.stop := ⟨by omega, by omega⟩
    clear hin hcon
    induction l with
    | nil => simp at hmem
    | cons t l ih =>
      obtain ⟨-, ht, hl⟩ := valid_cons.mp h
      rw [cut] at hs
      split at hs
      · rename_i hcut
        have hst : s = t := h.eq_of_has hmem (by simp) (a := a) ⟨by omega, hsp.2⟩ ⟨by omega, hcut.2⟩
        subst hst
        simp only [List.mem_cons] at hs
        rcases hs with hs | hs | hs
        · have := congrArg Seg.stop hs
          simp only [Seg.stop] at this hsp; omega
        · have := congrArg Seg.base hs
          simp only at this; omega
        · have h1 := ht s hs
          have h2 := h.base_lt_stop hmem
          omega
      · rename_i hcut
        rcases List.mem_cons.mp hmem with rfl | hmem
        · exact hcut hsp
        · rcases List.mem_cons.mp hs with rfl | hs
          · exact hcut hsp
          · exact ih hl hs hmem
  · exact Or.inl hst.le
  · exact Or.inr hb.ge

theorem Clear.cut {b : Nat} (h : Clear b l) (a : Nat) : Clear b (cut a l) := by
  intro s hs
  obtain ⟨t, ht, h1, h2, -⟩ := mem_cut_sub hs
  rcases h t ht with h | h
  · left; omega
  · right; omega

/-! ## Windows

Once nothing straddles `lo` or `hi`, a list is the segments below `lo`, the ones inside
`[lo, hi)`, and the ones from `hi` on; an iterator that runs from `lower_bound lo` while its key is
below `hi` visits exactly the middle part. -/

/-- The entries before `lower_bound lo`. -/
def below (lo : Nat) (l : List (Seg α)) : List (Seg α) := l.takeWhile fun s => s.base < lo

/-- The entries from `lower_bound lo` on. -/
def since (lo : Nat) (l : List (Seg α)) : List (Seg α) := l.dropWhile fun s => s.base < lo

/-- The entries an iterator visits from `lower_bound lo` while its key is below `hi`. -/
def window (lo hi : Nat) (l : List (Seg α)) : List (Seg α) := below hi (since lo l)

def above (lo hi : Nat) (l : List (Seg α)) : List (Seg α) := since hi (since lo l)

theorem below_append_since (lo : Nat) (l : List (Seg α)) : below lo l ++ since lo l = l :=
  List.takeWhile_append_dropWhile

theorem window_eq (lo hi : Nat) (l : List (Seg α)) :
    l = below lo l ++ (window lo hi l ++ above lo hi l) := by
  rw [window, above, below_append_since, below_append_since]

variable {lo : Nat}

theorem mem_below_lt (h : s ∈ below lo l) :
    s.base < lo := by
  simpa using List.mem_takeWhile_imp h

theorem mem_since_le (hv : Valid l) (h : s ∈ since lo l) :
    lo ≤ s.base := by
  induction l with
  | nil => simp [since] at h
  | cons t l ih =>
    obtain ⟨-, ht, hl⟩ := valid_cons.mp hv
    rw [since, List.dropWhile_cons] at h
    split at h
    · exact ih hl h
    · rename_i hlo
      simp only [decide_eq_true_eq, not_lt] at hlo
      rcases List.mem_cons.mp h with rfl | h
      · exact hlo
      · have h1 := ht s h
        have h2 := hv.base_lt_stop (s := t) (by simp)
        omega

variable {hi : Nat}

theorem window_spec (hv : Valid l) (hlo : Clear lo l) (hhi : Clear hi l) :
    (Valid (below lo l) ∧ Valid (window lo hi l) ∧ Valid (above lo hi l)) ∧
    (∀ s ∈ below lo l, s.stop ≤ lo) ∧ (∀ s ∈ window lo hi l, lo ≤ s.base ∧ s.stop ≤ hi) ∧
    (∀ s ∈ above lo hi l, hi ≤ s.base) := by
  have heq := window_eq lo hi l
  have hv' := hv
  rw [heq] at hv'
  obtain ⟨h1, h23, -⟩ := valid_append.mp hv'
  obtain ⟨h2, h3, -⟩ := valid_append.mp h23
  have hmem : ∀ s, s ∈ below lo l ∨ s ∈ window lo hi l ∨ s ∈ above lo hi l → s ∈ l := by
    intro s hs
    rw [heq]
    simpa [or_assoc] using hs
  have hsince : Valid (since lo l) := by
    rw [← below_append_since lo l] at hv
    exact (valid_append.mp hv).2.1
  refine ⟨⟨h1, h2, h3⟩, fun s hs => ?_, fun s hs => ?_, fun s hs => mem_since_le hsince hs⟩
  · have := mem_below_lt hs
    rcases hlo s (hmem s (Or.inl hs)) with h | h
    · exact h
    · omega
  · have h4 := mem_below_lt hs
    have hin : s ∈ since lo l := List.takeWhile_subset _ hs
    refine ⟨mem_since_le hv hin, ?_⟩
    rcases hhi s (hmem s (Or.inr (Or.inl hs))) with h | h
    · exact h
    · omega

variable {w : List (Seg α)}

theorem valid_replace {b a : List (Seg α)} (hb : Valid b) (hw : Valid w)
    (ha : Valid a) (hle : lo ≤ hi) (h1 : ∀ s ∈ b, s.stop ≤ lo)
    (h2 : ∀ s ∈ w, lo ≤ s.base ∧ s.stop ≤ hi) (h3 : ∀ s ∈ a, hi ≤ s.base) :
    Valid (b ++ (w ++ a)) := by
  refine valid_append.mpr ⟨hb, valid_append.mpr ⟨hw, ha, fun s hs t ht => ?_⟩, fun s hs t ht => ?_⟩
  · exact le_trans (h2 s hs).2 (h3 t ht)
  · rcases List.mem_append.mp ht with ht | ht
    · exact le_trans (h1 s hs) (h2 t ht).1
    · exact le_trans (h1 s hs) (le_trans hle (h3 t ht))

/-- The value at an address of a list replaced inside `[lo, hi)`: the new part decides inside, the
old list outside. -/
theorem valAt_replace (hv : Valid l) (hlo : Clear lo l) (hhi : Clear hi l) (hle : lo ≤ hi) (hw : Valid w)
    (hin : ∀ s ∈ w, lo ≤ s.base ∧ s.stop ≤ hi) (x : Nat) :
    valAt (below lo l ++ (w ++ above lo hi l)) x =
      if lo ≤ x ∧ x < hi then valAt w x else valAt l x := by
  obtain ⟨⟨h1, h2, h3⟩, hb, hm, ha⟩ := window_spec hv hlo hhi
  have hnew := valid_replace h1 hw h3 hle hb hin ha
  have hold : Valid (below lo l ++ (window lo hi l ++ above lo hi l)) := by
    rw [← window_eq]; exact hv
  have hB : lo ≤ x → valAt (below lo l) x = none := fun hx =>
    (valAt_eq_none h1).mpr fun s hs hxs => by have := hb s hs; have := hxs.2; omega
  have hA : x < hi → valAt (above lo hi l) x = none := fun hx =>
    (valAt_eq_none h3).mpr fun s hs hxs => by have := ha s hs; have := hxs.1; omega
  have hout : ∀ v : List (Seg α), Valid v → (∀ s ∈ v, lo ≤ s.base ∧ s.stop ≤ hi) →
      ¬ (lo ≤ x ∧ x < hi) → valAt v x = none := fun v hv hin hx =>
    (valAt_eq_none hv).mpr fun s hs hxs => by
      have := hin s hs; have := hxs.1; have := hxs.2; omega
  rw [valAt_append hnew, valAt_append (valid_append.mp hnew).2.1]
  split
  · rename_i hx
    rw [hB hx.1, hA hx.2]
    simp
  · rename_i hx
    conv_rhs => rw [window_eq lo hi l, valAt_append hold, valAt_append (valid_append.mp hold).2.1]
    rw [hout w hw hin hx, hout _ h2 hm hx]

/-- The list cut at both ends of `[lo, hi)`, with the entries inside replaced by `w`. -/
def splice (lo hi : Nat) (w l : List (Seg α)) : List (Seg α) :=
  below lo (cut hi (cut lo l)) ++ (w ++ above lo hi (cut hi (cut lo l)))

/-- The entries of the list cut at both ends of `[lo, hi)` that lie inside. -/
def part (lo hi : Nat) (l : List (Seg α)) : List (Seg α) := window lo hi (cut hi (cut lo l))

theorem part_spec (lo hi : Nat) (h : Valid l) :
    Valid (part lo hi l) ∧ ∀ s ∈ part lo hi l, lo ≤ s.base ∧ s.stop ≤ hi := by
  obtain ⟨⟨-, h2, -⟩, -, hw, -⟩ := window_spec ((h.cut lo).cut hi)
    ((clear_cut_self h lo).cut hi) (clear_cut_self (h.cut lo) hi)
  exact ⟨h2, hw⟩

theorem mem_part (h : s ∈ part lo hi l) :
    s ∈ cut hi (cut lo l) := by
  rw [window_eq lo hi (cut hi (cut lo l))]
  simp only [List.mem_append]
  exact Or.inr (Or.inl h)

theorem mem_splice (h : s ∈ splice lo hi w l) :
    s ∈ w ∨ s ∈ cut hi (cut lo l) := by
  rw [window_eq lo hi (cut hi (cut lo l))]
  simp only [splice, List.mem_append] at h ⊢
  tauto

theorem valid_splice (h : Valid l) (hle : lo ≤ hi) (hw : Valid w)
    (hin : ∀ s ∈ w, lo ≤ s.base ∧ s.stop ≤ hi) : Valid (splice lo hi w l) := by
  obtain ⟨⟨h1, -, h3⟩, hb, -, ha⟩ := window_spec ((h.cut lo).cut hi)
    ((clear_cut_self h lo).cut hi) (clear_cut_self (h.cut lo) hi)
  exact valid_replace h1 hw h3 hle hb hin ha

/-- The value at an address of a spliced list: the new part decides inside, the old list outside. -/
theorem valAt_splice (h : Valid l) (hle : lo ≤ hi) (hw : Valid w)
    (hin : ∀ s ∈ w, lo ≤ s.base ∧ s.stop ≤ hi) (x : Nat) :
    valAt (splice lo hi w l) x = if lo ≤ x ∧ x < hi then valAt w x else valAt l x := by
  rw [splice, valAt_replace ((h.cut lo).cut hi) ((clear_cut_self h lo).cut hi)
    (clear_cut_self (h.cut lo) hi) hle hw hin, valAt_cut (h.cut lo), valAt_cut h]

theorem splice_part (lo hi : Nat) (l : List (Seg α)) :
    splice lo hi (part lo hi l) l = cut hi (cut lo l) :=
  (window_eq lo hi (cut hi (cut lo l))).symm

theorem find?_splice :
    (splice s.base hi (s :: w) l).find? (fun t => t.base = s.base) = some s := by
  have hbelow : (below s.base (cut hi (cut s.base l))).find? (fun t => t.base = s.base) = none := by
    rw [List.find?_eq_none]
    intro t ht
    have := mem_below_lt ht
    simp only [decide_eq_true_eq]
    omega
  rw [splice, List.find?_append, hbelow, List.cons_append, List.find?_cons_of_pos (by simp)]
  rfl

theorem valAt_part (h : Valid l) (hle : lo ≤ hi) {x : Nat}
    (hlo : lo ≤ x) (hhi : x < hi) : valAt (part lo hi l) x = valAt l x := by
  obtain ⟨hv, hin⟩ := part_spec lo hi h
  have := valAt_splice h hle hv hin x
  rw [if_pos ⟨hlo, hhi⟩, splice_part, valAt_cut (h.cut lo), valAt_cut h] at this
  exact this.symm

/-! ## Changing, adding and removing entries -/

theorem mem_modify {b : Nat} {f : α → α} :
    s ∈ modify b f l ↔ ∃ t ∈ l, s.base = t.base ∧ s.size = t.size ∧
      s.val = if t.base = b then f t.val else t.val := by
  unfold modify
  rw [List.mem_map]
  constructor
  · rintro ⟨t, ht, rfl⟩
    refine ⟨t, ht, ?_⟩
    by_cases hb : t.base = b <;> simp [hb]
  · rintro ⟨t, ht, h1, h2, h3⟩
    refine ⟨t, ht, ?_⟩
    obtain ⟨sb, ss, sv⟩ := s
    simp only at h1 h2 h3
    subst h1 h2 h3
    by_cases hb : t.base = b <;> simp [hb]

theorem exists_entry_modify {r : Seg α} (hr : r ∈ l) (b : Nat) (f : α → α) :
    ∃ r' ∈ modify b f l, r'.base = r.base ∧ r'.size = r.size :=
  ⟨⟨r.base, r.size, if r.base = b then f r.val else r.val⟩,
    mem_modify.mpr ⟨r, hr, rfl, rfl, rfl⟩, rfl, rfl⟩

theorem Valid.entry_of_modify (h : Valid l) {res : Seg α} (hres : res ∈ l)
    {f : α → α} {r : Seg α} (hr : r ∈ modify res.base f l) :
    ∃ t ∈ l, r.base = t.base ∧ r.size = t.size ∧ (t = res ∧ r.val = f res.val ∨ r.val = t.val) := by
  obtain ⟨t, ht, hb, hs, hv⟩ := mem_modify.mp hr
  refine ⟨t, ht, hb, hs, ?_⟩
  by_cases hbase : t.base = res.base
  · have h1 := h.base_lt_stop ht
    have h2 := h.base_lt_stop hres
    have heq : t = res := h.eq_of_has ht hres (a := t.base) ⟨le_rfl, h1⟩ ⟨hbase.ge, by omega⟩
    rw [if_pos hbase, heq] at hv
    exact Or.inl ⟨heq, hv⟩
  · rw [if_neg hbase] at hv
    exact Or.inr hv

theorem put_eq_modify (h : Valid l) (ht : t ∈ l)
    (hb : t.base = s.base) (hs : t.size = s.size) : put s l = modify s.base (fun _ => s.val) l := by
  induction l with
  | nil => simp at ht
  | cons u l ih =>
    obtain ⟨hpos, hu, hl⟩ := valid_cons.mp h
    have hrest : ∀ v ∈ l, u.base ≠ v.base := fun v hv => by
      have := hu v hv
      unfold Seg.stop at this
      omega
    rcases List.mem_cons.mp ht with rfl | ht
    · have hkeep : modify s.base (fun _ => s.val) l = l := by
        unfold modify
        rw [List.map_congr_left fun v hv => if_neg fun hv' => hrest v hv (hb.trans hv'.symm)]
        exact List.map_id _
      rw [put, if_neg (by omega), if_pos hb.symm]
      unfold modify at hkeep ⊢
      rw [List.map_cons, if_pos hb, hkeep, hb, hs]
    · have hlt := hu t ht
      unfold Seg.stop at hlt
      rw [put, if_neg (by omega), if_neg (by omega), ih hl ht]
      unfold modify
      rw [List.map_cons, if_neg (by omega)]

theorem Valid.modify (h : Valid l) (b : Nat) (f : α → α) :
    Valid (modify b f l) := by
  refine ⟨?_, fun s hs => ?_⟩
  · unfold Segments.modify
    rw [List.pairwise_map]
    refine h.ordered.imp fun {s t} hst => ?_
    split <;> split <;> simpa [Seg.stop] using hst
  · obtain ⟨t, ht, -, hsz, -⟩ := mem_modify.mp hs
    rw [hsz]
    exact h.pos t ht

theorem mem_put (hne : ∀ t ∈ l, t.base ≠ s.base) :
    t ∈ put s l ↔ t = s ∨ t ∈ l := by
  induction l with
  | nil => simp [put]
  | cons u l ih =>
    have hu := hne u (by simp)
    rw [put]
    split
    · simp
    · rw [if_neg fun h => hu h.symm, List.mem_cons, ih fun t ht => hne t (by simp [ht]), List.mem_cons]
      tauto

theorem Valid.put (h : Valid l) (hs : 0 < s.size)
    (hd : ∀ t ∈ l, t.stop ≤ s.base ∨ s.stop ≤ t.base) : Valid (put s l) := by
  induction l with
  | nil => exact Valid.single s hs
  | cons u l ih =>
    obtain ⟨hpos, hu, hl⟩ := valid_cons.mp h
    have hsb : s.base < s.stop := by unfold Seg.stop; omega
    have hub : u.base < u.stop := h.base_lt_stop (by simp)
    rw [Segments.put]
    rcases hd u (by simp) with hus | hsu
    · rw [if_neg (by omega), if_neg (by omega)]
      refine valid_cons.mpr ⟨hpos, fun t ht => ?_, ih hl fun t ht => hd t (by simp [ht])⟩
      have hne : ∀ t ∈ l, t.base ≠ s.base := fun t ht => by
        have h1 := hl.base_lt_stop ht
        rcases hd t (by simp [ht]) with h | h <;> omega
      rcases (mem_put hne).mp ht with rfl | ht
      · exact hus
      · exact hu t ht
    · rw [if_pos (by omega)]
      refine valid_cons.mpr ⟨hs, fun t ht => ?_, h⟩
      rcases List.mem_cons.mp ht with rfl | ht
      · exact hsu
      · have := hu t ht
        omega

theorem Valid.filter (h : Valid l) (p : Seg α → Bool) : Valid (l.filter p) :=
  ⟨h.ordered.filter p, fun s hs => h.pos s (List.mem_filter.mp hs).1⟩

theorem mem_of_mem_put (h : t ∈ put s l) : t = s ∨ t ∈ l := by
  induction l with
  | nil => simpa [put] using h
  | cons u l ih =>
    rw [put] at h
    split at h
    · simpa using h
    · split at h
      · simp only [List.mem_cons] at h ⊢
        tauto
      · rcases List.mem_cons.mp h with rfl | h
        · simp
        · have := ih h
          simp only [List.mem_cons]
          tauto

/-! ## Lookup after a change -/

theorem find_modify (b : Nat) (f : α → α) (l : List (Seg α)) (a : Nat) :
    find (modify b f l) a =
      (find l a).map fun t => if t.base = b then { t with val := f t.val } else t := by
  have hfloor : floor a (modify b f l) =
      (floor a l).map fun t => if t.base = b then { t with val := f t.val } else t := by
    induction l with
    | nil => rfl
    | cons s l ih =>
      rw [show modify b f (s :: l) =
        (if s.base = b then { s with val := f s.val } else s) :: modify b f l from rfl, floor, floor]
      have hbase : (if s.base = b then { s with val := f s.val } else s).base = s.base := by
        split <;> rfl
      rw [hbase, ih]
      split
      · cases floor a l <;> rfl
      · rfl
  unfold find
  rw [hfloor]
  cases floor a l with
  | none => rfl
  | some t =>
    have hstop : (if t.base = b then { t with val := f t.val } else t).stop = t.stop := by
      split <;> rfl
    simp only [Option.map_some, hstop]
    split <;> rfl

theorem find_put (h : Valid l) (hs : 0 < s.size) (hd : ∀ t ∈ l, t.stop ≤ s.base ∨ s.stop ≤ t.base) (a : Nat) :
    find (put s l) a = if s.Has a then some s else find l a := by
  have hv := h.put hs hd
  have hne : ∀ t ∈ l, t.base ≠ s.base := fun t ht => by
    have h1 := h.base_lt_stop ht
    have h2 : s.base < s.stop := by unfold Seg.stop; omega
    rcases hd t ht with h3 | h3 <;> omega
  split
  · rename_i ha
    exact (find_eq_some hv).mpr ⟨(mem_put hne).mpr (Or.inl rfl), ha⟩
  · rename_i ha
    cases hf : find l a with
    | none =>
      refine (find_eq_none hv).mpr fun t ht hta => ?_
      rcases (mem_put hne).mp ht with rfl | ht
      · exact ha hta
      · exact (find_eq_none h).mp hf t ht hta
    | some t =>
      obtain ⟨ht, hta⟩ := (find_eq_some h).mp hf
      exact (find_eq_some hv).mpr ⟨(mem_put hne).mpr (Or.inr ht), hta⟩

theorem Valid.base_ne_of_has (h : Valid l) (hs : s ∈ l) (ht : t ∈ l)
    (hta : t.Has a) (hsa : ¬ s.Has a) : t.base ≠ s.base := fun heq => by
  have h1 := h.base_lt_stop ht
  have h2 := h.base_lt_stop hs
  exact hsa (h.eq_of_has ht hs (a := t.base) ⟨le_rfl, h1⟩ ⟨heq.ge, by omega⟩ ▸ hta)

theorem find_modify_of_mem (h : Valid l) (hs : s ∈ l) (f : α → α) (a : Nat) :
    find (modify s.base f l) a = if s.Has a then some { s with val := f s.val } else find l a := by
  rw [find_modify]
  split
  · rename_i ha
    rw [(find_eq_some h).mpr ⟨hs, ha⟩, Option.map_some, if_pos rfl]
  · rename_i ha
    cases hf : find l a with
    | none => rfl
    | some t =>
      obtain ⟨ht, hta⟩ := (find_eq_some h).mp hf
      rw [Option.map_some, if_neg (h.base_ne_of_has hs ht hta ha)]

theorem find_remove (h : Valid l) (hs : s ∈ l) (a : Nat) :
    find (l.filter fun t => t.base ≠ s.base) a = if s.Has a then none else find l a := by
  have hv := h.filter fun t => t.base ≠ s.base
  split
  · rename_i ha
    refine (find_eq_none hv).mpr fun t ht hta => ?_
    obtain ⟨ht, hbase⟩ := List.mem_filter.mp ht
    rw [h.eq_of_has ht hs hta ha] at hbase
    simp at hbase
  · rename_i ha
    cases hf : find l a with
    | none =>
      exact (find_eq_none hv).mpr fun t ht => (find_eq_none h).mp hf t (List.mem_filter.mp ht).1
    | some t =>
      obtain ⟨ht, hta⟩ := (find_eq_some h).mp hf
      exact (find_eq_some hv).mpr
        ⟨List.mem_filter.mpr ⟨ht, by simpa using h.base_ne_of_has hs ht hta ha⟩, hta⟩

/-- The entry `upper_bound a` points at: the first one whose key is above `a`. -/
def after (a : Nat) (l : List (Seg α)) : Option (Seg α) := l.find? fun s => a < s.base

theorem after_eq_some (h : Valid l) (hs : after a l = some s) :
    s ∈ l ∧ a < s.base ∧ ∀ t ∈ l, a < t.base → s.base ≤ t.base := by
  unfold after at hs
  refine ⟨List.mem_of_find?_eq_some hs, by simpa using List.find?_some hs, ?_⟩
  induction l with
  | nil => simp at hs
  | cons u l ih =>
    obtain ⟨-, hu, hl⟩ := valid_cons.mp h
    intro t ht hta
    rw [List.find?_cons] at hs
    split at hs
    · cases hs
      rcases List.mem_cons.mp ht with rfl | ht
      · exact le_rfl
      · exact (Nat.le_add_right _ _).trans (hu t ht)
    · rename_i hau
      rcases List.mem_cons.mp ht with rfl | ht
      · simp [hta] at hau
      · exact ih hl hs t ht hta

theorem after_eq_none (h : after a l = none) : ∀ t ∈ l, t.base ≤ a := by
  intro t ht
  simpa using List.find?_eq_none.mp h t ht

theorem head_since_le (h : Valid l) (hs : s ∈ l)
    (hlo : lo ≤ s.base) : ∃ t, (since lo l).head? = some t ∧ t.base ≤ s.base := by
  induction l with
  | nil => simp at hs
  | cons u l ih =>
    obtain ⟨-, hu, hl⟩ := valid_cons.mp h
    have hub : u.base < u.stop := h.base_lt_stop (by simp)
    rw [since, List.dropWhile_cons]
    split
    · rename_i hlt
      simp only [decide_eq_true_eq] at hlt
      rcases List.mem_cons.mp hs with rfl | hs
      · omega
      · exact ih hl hs
    · refine ⟨u, rfl, ?_⟩
      rcases List.mem_cons.mp hs with rfl | hs
      · exact le_rfl
      · have := hu s hs
        omega

theorem mem_cut_cut (h : s ∈ cut hi (cut lo l)) :
    ∃ t ∈ l, s.val = t.val ∧ (s.base = t.base ∨ s.base = lo ∨ s.base = hi) ∧
      (s.stop = t.stop ∨ s.stop = lo ∨ s.stop = hi) ∧ t.base ≤ s.base ∧ s.stop ≤ t.stop := by
  have one : ∀ {u : Seg α}, u ∈ cut lo l → ∃ t ∈ l, u.val = t.val ∧
      (u.base = t.base ∨ u.base = lo) ∧ (u.stop = t.stop ∨ u.stop = lo) ∧
      t.base ≤ u.base ∧ u.stop ≤ t.stop := by
    intro u hu
    rcases mem_cut hu with hu | ⟨t, ht, h1, h2, hv, ⟨hb, hst⟩ | ⟨hb, hst⟩⟩
    · exact ⟨u, hu, rfl, Or.inl rfl, Or.inl rfl, le_rfl, le_rfl⟩
    · exact ⟨t, ht, hv, Or.inl hb, Or.inr hst, by omega, by omega⟩
    · exact ⟨t, ht, hv, Or.inr hb, Or.inl hst, by omega, by omega⟩
  rcases mem_cut h with h | ⟨u, hu, h1, h2, hv, ⟨hb, hst⟩ | ⟨hb, hst⟩⟩
  · obtain ⟨t, ht, hv, hb, hst, h3, h4⟩ := one h
    exact ⟨t, ht, hv, by tauto, by tauto, h3, h4⟩
  · obtain ⟨t, ht, hv', hb', hst', h3, h4⟩ := one hu
    exact ⟨t, ht, hv.trans hv', by omega, by omega, by omega, by omega⟩
  · obtain ⟨t, ht, hv', hb', hst', h3, h4⟩ := one hu
    exact ⟨t, ht, hv.trans hv', by omega, by omega, by omega, by omega⟩

/-- Cutting a window out of a maximal list leaves it maximal: the two cut ends do not meet. -/
theorem maximal_remove (h : Valid l) (hm : Maximal l) (hlt : lo < hi) :
    Maximal (splice lo hi [] l) := by
  rw [splice, List.nil_append]
  have hv := (h.cut lo).cut hi
  obtain ⟨⟨h1, -, h3⟩, hb, -, ha⟩ :=
    window_spec hv ((clear_cut_self h lo).cut hi) (clear_cut_self (h.cut lo) hi)
  have heq := window_eq lo hi (cut hi (cut lo l))
  have hmem : ∀ s, s ∈ below lo (cut hi (cut lo l)) ∨ s ∈ above lo hi (cut hi (cut lo l)) →
      s ∈ cut hi (cut lo l) := by
    intro s hs
    rw [heq]
    simp only [List.mem_append]
    tauto
  -- a piece below the window ends where an old segment does or at `lo`, one above it starts where
  -- an old segment does or at `hi`
  have hlow : ∀ s ∈ below lo (cut hi (cut lo l)), ∃ t ∈ l, s.val = t.val ∧ s.base = t.base ∧
      (s.stop = t.stop ∨ s.stop = lo) := by
    intro s hs
    obtain ⟨t, ht, hval, hbase, hstop, -, -⟩ := mem_cut_cut (hmem s (Or.inl hs))
    have := hb s hs
    have := h1.base_lt_stop hs
    exact ⟨t, ht, hval, by omega, by omega⟩
  have hhigh : ∀ s ∈ above lo hi (cut hi (cut lo l)), ∃ t ∈ l, s.val = t.val ∧ s.stop = t.stop ∧
      (s.base = t.base ∨ s.base = hi) := by
    intro s hs
    obtain ⟨t, ht, hval, hbase, hstop, -, -⟩ := mem_cut_cut (hmem s (Or.inr hs))
    have := ha s hs
    have := h3.base_lt_stop hs
    exact ⟨t, ht, hval, by omega, by omega⟩
  intro x hx y hy hxy
  rcases List.mem_append.mp hx with hx | hx <;> rcases List.mem_append.mp hy with hy | hy
  · obtain ⟨t, ht, hxv, -, hxs⟩ := hlow x hx
    obtain ⟨u, hu, hyv, hyb, -⟩ := hlow y hy
    have := hb y hy
    have := h1.base_lt_stop hy
    rw [hxv, hyv]
    exact hm t ht u hu (by omega)
  · have := hb x hx
    have := ha y hy
    omega
  · have := ha x hx
    have := h3.base_lt_stop hx
    have := hb y hy
    have := h1.base_lt_stop hy
    omega
  · obtain ⟨t, ht, hxv, hxs, -⟩ := hhigh x hx
    obtain ⟨u, hu, hyv, -, hyb⟩ := hhigh y hy
    have := ha x hx
    have := h3.base_lt_stop hx
    rw [hxv, hyv]
    exact hm t ht u hu (by omega)

theorem cut_of_clear (h : Clear a l) : cut a l = l := by
  induction l with
  | nil => rfl
  | cons s l ih =>
    have := h s (by simp)
    rw [cut, if_neg (by omega), ih fun t ht => h t (by simp [ht])]

theorem put_eq (h : Valid l) (hne : ∀ t ∈ l, t.base ≠ s.base) :
    put s l = below s.base l ++ s :: since s.base l := by
  induction l with
  | nil => rfl
  | cons t l ih =>
    obtain ⟨-, ht, hl⟩ := valid_cons.mp h
    have hts := hne t (by simp)
    rw [put, below, since, List.takeWhile_cons, List.dropWhile_cons]
    by_cases hlt : s.base < t.base
    · rw [if_pos hlt, if_neg (by simp; omega), if_neg (by simp; omega)]
      rfl
    · rw [if_neg hlt, if_neg fun he => hts he.symm, if_pos (by simp; omega), if_pos (by simp; omega),
        ih hl fun u hu => hne u (by simp [hu])]
      rfl

theorem put_eq_splice (h : Valid l) (hpos : 0 < s.size) (hd : ∀ t ∈ l, t.stop ≤ s.base ∨ s.stop ≤ t.base) :
    put s l = splice s.base s.stop [s] l := by
  have hs : s.base < s.stop := by unfold Seg.stop; omega
  have hlo : Clear s.base l := fun t ht => by
    rcases hd t ht with h1 | h1
    · exact Or.inl h1
    · right; omega
  have hhi : Clear s.stop l := fun t ht => by
    rcases hd t ht with h1 | h1
    · left; omega
    · exact Or.inr h1
  have hrest : since s.stop (since s.base l) = since s.base l := by
    rw [since]
    cases hsl : since s.base l with
    | nil => rfl
    | cons t r =>
      have ht : t ∈ since s.base l := by simp [hsl]
      have h1 := mem_since_le h ht
      have h2 := List.dropWhile_subset _ ht
      have h3 := h.base_lt_stop h2
      rw [List.dropWhile_cons, if_neg]
      rcases hd t h2 with h4 | h4
      · omega
      · simp; omega
  rw [splice, cut_of_clear hlo, cut_of_clear hhi, above, hrest,
    put_eq h fun t ht => by have := h.base_lt_stop ht; rcases hd t ht with h1 | h1 <;> omega]
  rfl

theorem part_of_covers (h : Valid l) (hs : s ∈ l) (hlo : s.base ≤ lo) (hlt : lo < hi) (hhi : hi ≤ s.stop) :
    part lo hi l = [⟨lo, hi - lo, s.val⟩] := by
  obtain ⟨hv, hin⟩ := part_spec lo hi h
  have hall : ∀ t ∈ part lo hi l, t = ⟨lo, hi - lo, s.val⟩ := by
    intro t ht
    obtain ⟨u, hu, hval, hbase, hstop, h1, h2⟩ := mem_cut_cut (mem_part ht)
    have h3 := hin t ht
    have h4 := hv.base_lt_stop ht
    have hus : u = s := h.eq_of_has hu hs (a := t.base) ⟨h1, by omega⟩ ⟨by omega, by omega⟩
    subst hus
    obtain ⟨tb, ts, tv⟩ := t
    simp only [Seg.stop] at *
    simp only [Seg.mk.injEq]
    exact ⟨by omega, by omega, hval⟩
  have hat : valAt (part lo hi l) lo = some s.val := by
    rw [valAt_part h hlt.le le_rfl hlt]
    exact (valAt_eq_some h).mpr ⟨s, hs, ⟨hlo, by omega⟩, rfl⟩
  cases hp : part lo hi l with
  | nil => rw [hp] at hat; simp at hat
  | cons t r =>
    rw [hp] at hall hv
    cases r with
    | nil => rw [hall t (by simp)]
    | cons u r =>
      -- a second piece would be the first one again
      have h1 := hall t (by simp)
      have h2 := hall u (by simp)
      have h3 := (valid_cons.mp hv).2.1 u (by simp)
      rw [h1, h2] at h3
      simp only [Seg.stop] at h3
      omega

/-- Changing the value of the piece at `lo` of a list cut around it, as a splice. -/
theorem modify_eq_splice (h : Valid l) (hs : s ∈ l)
    (hlo : s.base ≤ lo) (hlt : lo < hi) (hhi : hi ≤ s.stop) (f : α → α) :
    modify lo f (cut hi (cut lo l)) = splice lo hi [⟨lo, hi - lo, f s.val⟩] l := by
  obtain ⟨-, hb, -, ha⟩ := window_spec ((h.cut lo).cut hi)
    ((clear_cut_self h lo).cut hi) (clear_cut_self (h.cut lo) hi)
  have hsame : ∀ m : List (Seg α), (∀ t ∈ m, t.base ≠ lo) → modify lo f m = m := by
    intro m hm
    unfold modify
    conv_rhs => rw [← List.map_id m]
    exact List.map_congr_left fun t ht => by simp [hm t ht]
  have hmid := part_of_covers h hs hlo hlt hhi
  conv_lhs => rw [window_eq lo hi (cut hi (cut lo l))]
  rw [part] at hmid
  rw [hmid, splice]
  simp only [modify, List.map_append, List.map_cons, List.map_nil, if_true]
  rw [← modify, ← modify, hsame, hsame]
  · intro t ht
    have := ha t ht
    omega
  · intro t ht
    have := mem_below_lt ht
    omega

/-! ## Merging -/

theorem valid_join (h : Valid (s :: t :: l))
    (hst : s.stop = t.base) : Valid (({ s with size := s.size + t.size } : Seg α) :: l) := by
  obtain ⟨hpos, -, htl⟩ := valid_cons.mp h
  obtain ⟨-, ht, hl⟩ := valid_cons.mp htl
  refine valid_cons.mpr ⟨by simp; omega, fun u hu => ?_, hl⟩
  have := ht u hu
  simp only [Seg.stop] at hst this ⊢
  omega

section Merge
variable [DecidableEq α]

variable {l : List (Seg α)}

/-- The first segment of a merged list starts where the iterator stood, the others after it. -/
theorem mem_mergeInto {s : Seg α} (h : Valid (s :: l)) :
    ∀ x ∈ mergeInto s l, (x.base = s.base ∧ x.val = s.val ∨ s.stop ≤ x.base) ∧
      (∃ t ∈ s :: l, x.base = t.base) ∧ (∃ t ∈ s :: l, x.stop = t.stop) := by
  induction l generalizing s with
  | nil =>
    intro x hx
    rw [mergeInto, List.mem_singleton] at hx
    subst hx
    exact ⟨Or.inl ⟨rfl, rfl⟩, ⟨x, by simp, rfl⟩, ⟨x, by simp, rfl⟩⟩
  | cons t l ih =>
    intro x hx
    obtain ⟨-, hs, htl⟩ := valid_cons.mp h
    have ht := hs t (by simp)
    rw [mergeInto] at hx
    split at hx
    · rename_i hm
      obtain ⟨hhead, ⟨u, hu, hub⟩, ⟨v, hv, hvs⟩⟩ := ih (valid_join h hm.1) x hx
      refine ⟨?_, ?_, ?_⟩
      · rcases hhead with hhead | hhead
        · exact Or.inl hhead
        · right
          simp only [Seg.stop] at hhead ⊢
          omega
      · rcases List.mem_cons.mp hu with rfl | hu
        · exact ⟨s, by simp, hub⟩
        · exact ⟨u, by simp [hu], hub⟩
      · rcases List.mem_cons.mp hv with rfl | hv
        · refine ⟨t, by simp, ?_⟩
          rw [hvs]
          have := hm.1
          simp only [Seg.stop] at this ⊢
          omega
        · exact ⟨v, by simp [hv], hvs⟩
    · rcases List.mem_cons.mp hx with rfl | hx
      · exact ⟨Or.inl ⟨rfl, rfl⟩, ⟨x, by simp, rfl⟩, ⟨x, by simp, rfl⟩⟩
      · obtain ⟨hhead, ⟨u, hu, hub⟩, ⟨v, hv, hvs⟩⟩ := ih htl x hx
        refine ⟨Or.inr ?_, ⟨u, by simp [hu], hub⟩, ⟨v, by simp [hv], hvs⟩⟩
        have := hs u (by simpa using hu)
        omega

theorem valid_mergeInto {s : Seg α} (h : Valid (s :: l)) :
    Valid (mergeInto s l) := by
  induction l generalizing s with
  | nil => exact h
  | cons t l ih =>
    obtain ⟨hpos, hs, htl⟩ := valid_cons.mp h
    rw [mergeInto]
    split
    · rename_i hm
      exact ih (valid_join h hm.1)
    · refine valid_cons.mpr ⟨hpos, fun x hx => ?_, ih htl⟩
      obtain ⟨-, ⟨u, hu, hub⟩, -⟩ := mem_mergeInto htl x hx
      have := hs u (by simpa using hu)
      omega

theorem valAt_mergeInto {s : Seg α} (h : Valid (s :: l)) (a : Nat) :
    valAt (mergeInto s l) a = valAt (s :: l) a := by
  induction l generalizing s with
  | nil => rfl
  | cons t l ih =>
    obtain ⟨hpos, hs, htl⟩ := valid_cons.mp h
    have hm := valid_mergeInto h
    rw [mergeInto] at hm ⊢
    split
    · rename_i hst
      have hj := valid_join h hst.1
      rw [ih hj, valAt_cons hj, valAt_cons h, valAt_cons htl]
      have h1 := hst.1
      have hjoin : ({ s with size := s.size + t.size } : Seg α).Has a ↔ s.Has a ∨ t.Has a := by
        simp only [Seg.has_iff, Seg.stop] at h1 ⊢
        omega
      by_cases ha : s.Has a
      · rw [if_pos (hjoin.mpr (Or.inl ha)), if_pos ha]
      · by_cases hb : t.Has a
        · rw [if_pos (hjoin.mpr (Or.inr hb)), if_neg ha, if_pos hb, hst.2]
        · rw [if_neg (by rw [hjoin]; tauto), if_neg ha, if_neg hb]
    · rename_i hst
      rw [if_neg hst] at hm
      rw [valAt_cons hm, valAt_cons h, ih htl]

theorem maximal_mergeInto {s : Seg α} (h : Valid (s :: l)) :
    Maximal (mergeInto s l) := by
  induction l generalizing s with
  | nil =>
    intro x hx y hy hxy
    simp only [mergeInto, List.mem_singleton] at hx hy
    subst hx hy
    have := h.base_lt_stop (s := y) (by simp)
    omega
  | cons t l ih =>
    obtain ⟨hpos, hs, htl⟩ := valid_cons.mp h
    have hs0 := h.base_lt_stop (s := s) (by simp)
    rw [mergeInto]
    split
    · rename_i hm
      exact ih (valid_join h hm.1)
    · rename_i hm
      have hafter : ∀ x ∈ mergeInto t l, s.stop ≤ x.base := fun x hx => by
        obtain ⟨-, ⟨u, hu, hub⟩, -⟩ := mem_mergeInto htl x hx
        have := hs u (by simpa using hu)
        omega
      intro x hx y hy hxy
      rcases List.mem_cons.mp hx with rfl | hx' <;> rcases List.mem_cons.mp hy with rfl | hy'
      · omega
      · -- `y` starts where `x` stops, so it is the segment that grew out of `t`
        have ht := hs t (by simp)
        have ht0 := htl.base_lt_stop (s := t) (by simp)
        rcases (mem_mergeInto htl y hy').1 with ⟨hb, hv⟩ | hb
        · rw [hv]
          exact fun hval => hm ⟨by omega, hval⟩
        · omega
      · have h1 := hafter x hx'
        have h2 := (valid_mergeInto htl).base_lt_stop hx'
        omega
      · exact ih htl x hx' y hy' hxy

theorem valid_mergeAdjacent (h : Valid l) : Valid (mergeAdjacent l) := by
  cases l with
  | nil => exact h
  | cons s l => exact valid_mergeInto h

theorem maximal_mergeAdjacent (h : Valid l) : Maximal (mergeAdjacent l) := by
  cases l with
  | nil => intro s hs; simp [mergeAdjacent] at hs
  | cons s l => exact maximal_mergeInto h

theorem valAt_mergeAdjacent (h : Valid l) (a : Nat) :
    valAt (mergeAdjacent l) a = valAt l a := by
  cases l with
  | nil => rfl
  | cons s l => exact valAt_mergeInto h a

theorem ends_mergeAdjacent (h : Valid l) {x : Seg α} (hx : x ∈ mergeAdjacent l) :
    (∃ t ∈ l, x.base = t.base) ∧ (∃ t ∈ l, x.stop = t.stop) := by
  cases l with
  | nil => simp [mergeAdjacent] at hx
  | cons s l => exact (mem_mergeInto h x hx).2

end Merge

end Segments
