import Mathlib.Data.List.Induction
import Mathlib.Logic.Function.Basic
import Mathlib.Tactic.Common

/-!
# Tables that are written entry by entry

What stands in a table after entries were written to it one after the other is the last that was written under the key.
Every entry is found again exactly when no two of one key differ.
-/

namespace LastWrite

variable {ι κ β : Type*} [DecidableEq κ]

def writes (key : ι → κ) (val : ι → β) (f : κ → Option β) : List ι → κ → Option β
  | [] => f
  | x :: xs => writes key val (Function.update f (key x) (some (val x))) xs

variable {key : ι → κ} {val : ι → β} {f : κ → Option β} {l : List ι}

theorem writes_append (l l' : List ι) : writes key val f (l ++ l') = writes key val (writes key val f l) l' := by
  induction l generalizing f with
  | nil => rfl
  | cons x l ih => exact ih

theorem writes_apply (k : κ) :
    writes key val f l k = ((l.reverse.find? fun x => key x = k).map val).or (f k) := by
  induction l using List.reverseRecOn with
  | nil => rfl
  | append_singleton l x ih =>
    rw [writes_append, List.reverse_append, List.reverse_singleton, List.singleton_append, writes, writes]
    by_cases hk : key x = k
    · rw [List.find?_cons_of_pos (by simpa using hk), hk]
      exact Function.update_self ..
    · rw [List.find?_cons_of_neg (by simpa using hk), ← ih]
      exact Function.update_of_ne (Ne.symm hk) ..

theorem writes_found_iff : (∀ x ∈ l, writes key val f l (key x) = some (val x)) ↔
    ∀ x ∈ l, ∀ y ∈ l, key x = key y → val x = val y := by
  constructor
  · intro h x hx y hy hkey
    have hfound := h x hx
    rw [hkey, h y hy] at hfound
    exact (Option.some.inj hfound).symm
  · intro h x hx
    obtain ⟨y, hy⟩ : ∃ y, l.reverse.find? (fun y => key y = key x) = some y :=
      Option.isSome_iff_exists.mp (List.find?_isSome.mpr ⟨x, List.mem_reverse.mpr hx, by simp⟩)
    have hmem := List.mem_reverse.mp (List.mem_of_find?_eq_some hy)
    have hkey : key y = key x := by simpa using List.find?_some hy
    rw [writes_apply, hy]
    exact congrArg some (h y hmem x hx hkey)

end LastWrite
