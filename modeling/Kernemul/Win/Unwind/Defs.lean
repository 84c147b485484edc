import Kernemul.Lib.Stack

/-!
# Unwind contexts

`unwind_context` and `unwind_result`. The register arrays are functions of the register's number. What
a code array holds from a place on is `HoldsAt`.
-/

namespace Kernemul.Unwind

open Stack

/-- `unwind_context`: `gp` has `max_gp = 31` entries, `fpRegs` the low halves of d8 to d15. -/
structure UnwindContext where
  pc : Word
  sp : Word
  gp : Nat → Word
  fpRegs : Nat → Word := fun _ => 0

structure UnwindResult where
  handler : Word := 0
  handlerData : Word := 0
  establisherFrame : Word := 0
  functionEntry : Word := 0

instance neZero_sixteen : NeZero 16 := ⟨by decide⟩

/-- The array holds the words of the list from `i` on. -/
def HoldsAt {α : Type*} (a : Nat → α) (i : Nat) (ws : List α) : Prop :=
  ∀ k (h : k < ws.length), a (i + k) = ws.get ⟨k, h⟩

theorem holdsAt_nil {α : Type*} (a : Nat → α) (i : Nat) : HoldsAt a i [] :=
  fun _ h => absurd h (Nat.not_lt_zero _)

theorem holdsAt_cons {α : Type*} {a : Nat → α} {i : Nat} {w : α} {ws : List α} :
    HoldsAt a i (w :: ws) ↔ a i = w ∧ HoldsAt a (i + 1) ws := by
  constructor
  · intro h
    refine ⟨h 0 (Nat.succ_pos _), fun k hk => ?_⟩
    have := h (k + 1) (Nat.succ_lt_succ hk)
    rw [show i + (k + 1) = i + 1 + k by omega] at this
    exact this
  · rintro ⟨h0, h⟩ k hk
    cases k with
    | zero => exact h0
    | succ k =>
      have := h k (Nat.lt_of_succ_lt_succ hk)
      rw [show i + 1 + k = i + (k + 1) by omega] at this
      exact this

theorem holdsAt_append {α : Type*} {a : Nat → α} {i : Nat} {ws ws' : List α} :
    HoldsAt a i (ws ++ ws') ↔ HoldsAt a i ws ∧ HoldsAt a (i + ws.length) ws' := by
  induction ws generalizing i with
  | nil => simp [holdsAt_nil]
  | cons w ws ih =>
    rw [List.cons_append, holdsAt_cons, holdsAt_cons, ih, List.length_cons, and_assoc,
      show i + 1 + ws.length = i + (ws.length + 1) by omega]

theorem holdsAt_getD {α : Type*} (ws : List α) (d : α) : HoldsAt (fun i => ws.getD i d) 0 ws := by
  intro k h
  simp [h]

end Kernemul.Unwind
