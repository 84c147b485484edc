import Mathlib.Data.Set.Finite.Basic
import Mathlib.Order.Preorder.Finite
import Mathlib.Logic.Function.Iterate

/-!
# Following pointers

A chain of pointers is followed until it comes to an end. Among finitely many places it comes to one, or back to a
place it has passed (`ends_iff`).
-/

namespace Follow

variable {α : Type*} (next : α → α) (stop : α → Prop)

def Ends (a : α) : Prop := ∃ n, stop (next^[n] a)

/-- The chain from a place comes back to a place it has passed, with no end before. -/
def Revisits (a : α) : Prop :=
  ∃ i j, i < j ∧ next^[i] a = next^[j] a ∧ ∀ k < j, ¬ stop (next^[k] a)

variable {next stop}

theorem ends_cons {a : α} (h : ¬ stop a) : Ends next stop a ↔ Ends next stop (next a) := by
  constructor
  · rintro ⟨n, hn⟩
    cases n with
    | zero => exact absurd hn h
    | succ n => exact ⟨n, hn⟩
  · rintro ⟨n, hn⟩
    exact ⟨n + 1, hn⟩

theorem not_stop_of_back {a : α} {i j : Nat} (hlt : i < j) (hback : next^[i] a = next^[j] a)
    (hstop : ∀ k < j, ¬ stop (next^[k] a)) (n : Nat) : ¬ stop (next^[n] a) := by
  induction n using Nat.strong_induction_on with
  | _ n ih =>
    by_cases hn : n < j
    · exact hstop n hn
    · obtain ⟨m, rfl⟩ := Nat.exists_eq_add_of_le (Nat.not_lt.mp hn)
      have hround : next^[j + m] a = next^[i + m] a := by
        rw [Nat.add_comm j, Nat.add_comm i, Function.iterate_add_apply, Function.iterate_add_apply, hback]
      rw [hround]
      exact ih (i + m) (by omega)

/-- Among finitely many places a chain ends exactly when it does not come back before. -/
theorem ends_iff {a : α} (hfin : (Set.range fun n => next^[n] a).Finite) :
    Ends next stop a ↔ ¬ Revisits next stop a := by
  constructor
  · rintro ⟨n, hn⟩ ⟨i, j, hlt, hback, hstop⟩
    exact not_stop_of_back hlt hback hstop n hn
  · intro hnot
    by_contra hends
    have hnever : ∀ n, ¬ stop (next^[n] a) := fun n hn => hends ⟨n, hn⟩
    obtain ⟨i, j, hlt, hback⟩ := Set.Finite.exists_lt_map_eq_of_forall_mem Set.mem_range_self hfin
    exact hnot ⟨i, j, hlt, hback, fun k _ => hnever k⟩

/-- A chain whose pointers have bounded values passes finitely many places. -/
theorem range_finite {next : Nat → Nat} {bound : Nat} (h : ∀ a, next a < bound) (a : Nat) :
    (Set.range fun n => next^[n] a).Finite := by
  apply ((Set.finite_lt_nat bound).insert a).subset
  rintro _ ⟨n, rfl⟩
  cases n with
  | zero => exact Set.mem_insert ..
  | succ n =>
    apply Set.mem_insert_of_mem
    show next^[n + 1] a < bound
    rw [Function.iterate_succ_apply']
    exact h _

end Follow
