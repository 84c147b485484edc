import Mathlib.Logic.Function.Basic
import Mathlib.Tactic.Common

/-!
# Copying in memory that is mapped in part

A memory has a value at some addresses and none at the others. A range is given by the addresses of its
items, the first one first. Reading a range needs all of it; writing one goes on up to the first item that is
not mapped. A copy stages what it reads, so the ranges may overlap.
-/

namespace Copy

variable {α β : Type*}

/-- The items of a range of length `n`; `none` when one is not mapped. -/
def read (m : α → Option β) (p : ℕ → α) : ℕ → Option (List β)
  | 0 => some []
  | n + 1 => (m (p 0)).bind fun b => (read m (fun i => p (i + 1)) n).map fun bs => b :: bs

theorem read_getElem {m : α → Option β} {p : ℕ → α} {n : ℕ} {bs : List β} (h : read m p n = some bs) :
    bs.length = n ∧ ∀ i < n, m (p i) = bs[i]? := by
  induction n generalizing p bs with
  | zero =>
    cases h
    exact ⟨rfl, fun i hi => absurd hi (Nat.not_lt_zero i)⟩
  | succ n ih =>
    obtain ⟨b, hb, h⟩ := Option.bind_eq_some_iff.mp h
    obtain ⟨rest, hrest, rfl⟩ := Option.map_eq_some_iff.mp h
    obtain ⟨hlen, hread⟩ := ih hrest
    refine ⟨by rw [List.length_cons, hlen], fun i hi => ?_⟩
    cases i with
    | zero => exact hb
    | succ i => exact hread i (Nat.lt_of_succ_lt_succ hi)

theorem read_isSome_iff (m : α → Option β) (p : ℕ → α) (n : ℕ) :
    (read m p n).isSome ↔ ∀ i < n, (m (p i)).isSome := by
  induction n generalizing p with
  | zero => exact ⟨fun _ i hi => absurd hi (Nat.not_lt_zero i), fun _ => rfl⟩
  | succ n ih =>
    rw [Nat.forall_lt_succ_left, ← ih]
    cases hb : m (p 0) <;> simp [read, hb]

/-- What a copy is for: the items of the source stand at the target, and nothing else has changed. -/
structure Copied (m m' : α → Option β) (dst src : ℕ → α) (n : ℕ) : Prop where
  moved : ∀ i < n, ∃ b, m (src i) = some b ∧ m' (dst i) = some b
  rest : ∀ a, (∀ i < n, a ≠ dst i) → m' a = m a

theorem copied_zero_iff {m m' : α → Option β} {dst src : ℕ → α} : Copied m m' dst src 0 ↔ m' = m :=
  ⟨fun h => funext fun a => h.rest a fun i hi => absurd hi (Nat.not_lt_zero i), fun h =>
    ⟨fun i hi => absurd hi (Nat.not_lt_zero i), fun a _ => congrFun h a⟩⟩

variable [DecidableEq α]

/-- The memory after a range is written, and whether all of it was. -/
def write (m : α → Option β) (p : ℕ → α) : List β → Bool × (α → Option β)
  | [] => (true, m)
  | b :: bs =>
    if (m (p 0)).isNone then (false, m)
    else write (Function.update m (p 0) (some b)) (fun i => p (i + 1)) bs

theorem write_isSome (m : α → Option β) (p : ℕ → α) (bs : List β) (a : α) :
    ((write m p bs).2 a).isSome = (m a).isSome := by
  induction bs generalizing m p with
  | nil => rfl
  | cons b bs ih =>
    rw [write]
    split
    · rfl
    · rename_i hmapped
      rw [ih, Function.update_apply]
      split
      · rename_i heq
        rw [heq]
        simpa [Option.isSome_iff_ne_none] using hmapped
      · rfl

theorem write_rest (m : α → Option β) {p : ℕ → α} {bs : List β} {a : α}
    (ha : ∀ i < bs.length, a ≠ p i) : (write m p bs).2 a = m a := by
  induction bs generalizing m p with
  | nil => rfl
  | cons b bs ih =>
    rw [write]
    split
    · rfl
    · rw [ih _ fun i hi => ha (i + 1) (Nat.succ_lt_succ hi), Function.update_of_ne (ha 0 (Nat.succ_pos _))]

/-- A range that is mapped, at addresses that are distinct, has the items that were written. -/
theorem write_getElem (m : α → Option β) {p : ℕ → α} {bs : List β}
    (hinj : ∀ i < bs.length, ∀ j < bs.length, p i = p j → i = j)
    (hmapped : ∀ i < bs.length, (m (p i)).isSome) :
    ∀ i < bs.length, (write m p bs).2 (p i) = bs[i]? := by
  induction bs generalizing m p with
  | nil => exact fun i hi => absurd hi (Nat.not_lt_zero i)
  | cons b bs ih =>
    rw [List.length_cons] at hinj hmapped
    have hzero : ¬ (m (p 0)).isNone := by simpa [Option.isSome_iff_ne_none] using hmapped 0 (Nat.succ_pos _)
    have hother : ∀ i < bs.length, p (i + 1) ≠ p 0 := fun i hi heq =>
      absurd (hinj _ (Nat.succ_lt_succ hi) _ (Nat.succ_pos _) heq) (Nat.succ_ne_zero i)
    intro i hi
    rw [write, if_neg hzero]
    cases i with
    | zero =>
      rw [write_rest _ fun i hi => (hother i hi).symm, Function.update_self]
      rfl
    | succ i =>
      refine ih _ (fun j hj k hk heq => ?_) (fun j hj => ?_) i (Nat.lt_of_succ_lt_succ hi)
      · exact Nat.succ.inj (hinj _ (Nat.succ_lt_succ hj) _ (Nat.succ_lt_succ hk) heq)
      · rw [Function.update_of_ne (hother j hj)]
        exact hmapped _ (Nat.succ_lt_succ hj)

/-- The memory after a range of length `n` is copied, and whether the copy went through. -/
def copy (m : α → Option β) (dst src : ℕ → α) (n : ℕ) : Bool × (α → Option β) :=
  match read m src n with
  | none => (false, m)
  | some bs => write m dst bs

/-- **A copy does what it is for exactly when both ranges are mapped**, if the addresses of the target are
distinct. -/
theorem copied_iff {m : α → Option β} {dst src : ℕ → α} {n : ℕ}
    (hinj : ∀ i < n, ∀ j < n, dst i = dst j → i = j) :
    Copied m (copy m dst src n).2 dst src n ↔ ∀ i < n, (m (src i)).isSome ∧ (m (dst i)).isSome := by
  have hread := read_isSome_iff m src n
  unfold copy
  constructor
  · intro h i hi
    obtain ⟨b, hsrc, hdst⟩ := h.moved i hi
    refine ⟨Option.isSome_of_mem hsrc, ?_⟩
    cases hr : read m src n with
    | none =>
      simp only [hr] at hdst
      exact Option.isSome_of_mem hdst
    | some bs =>
      simp only [hr] at hdst
      rw [← write_isSome m dst bs, hdst]
      rfl
  · intro h
    obtain ⟨bs, hr⟩ := Option.isSome_iff_exists.mp (hread.mpr fun i hi => (h i hi).1)
    obtain ⟨hlen, hget⟩ := read_getElem hr
    subst hlen
    simp only [hr]
    refine ⟨fun i hi => ⟨bs[i], (hget i hi).trans (List.getElem?_eq_getElem hi), ?_⟩, fun a ha => ?_⟩
    · rw [write_getElem m hinj (fun j hj => (h j hj).2) i hi, List.getElem?_eq_getElem hi]
    · exact write_rest m ha

end Copy
