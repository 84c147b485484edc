import Mathlib.Data.List.Nodup
import Mathlib.Tactic.Common

/-!
# Tables of entries under keys

A table is the list of its entries, and no two have one key. What an entry says can be replaced. A view takes what it
looks for from every entry, and sees of a replaced one only what is new.
-/

namespace KeyedTable

variable {κ β γ : Type*} [DecidableEq κ]

def replace (l : List (κ × β)) (k : κ) (b : β) : List (κ × β) := l.map fun e => if e.1 = k then (k, b) else e

variable {l : List (κ × β)} {k k' : κ} {b b' : β}

@[simp] theorem keys_replace (l : List (κ × β)) (k : κ) (b : β) :
    (replace l k b).map Prod.fst = l.map Prod.fst := by
  rw [replace, List.map_map]
  refine List.map_congr_left fun e _ => ?_
  show (if e.1 = k then (k, b) else e).1 = e.1
  split
  · rename_i hk
    exact hk.symm
  · rfl

theorem mem_of_lookup (h : l.lookup k = some b) : (k, b) ∈ l := by
  obtain ⟨l₁, l₂, rfl, -⟩ := List.lookup_eq_some_iff.mp h
  exact List.mem_append_right l₁ List.mem_cons_self

theorem lookup_of_mem (hnodup : (l.map Prod.fst).Nodup) (h : (k, b) ∈ l) : l.lookup k = some b := by
  cases hlookup : l.lookup k with
  | none => simpa using List.lookup_eq_none_iff.mp hlookup (k, b) h
  | some b' => exact congrArg some (Prod.mk.inj (List.inj_on_of_nodup_map hnodup (mem_of_lookup hlookup) h rfl)).2

theorem replace_of_notMem (h : ∀ e ∈ l, e.1 ≠ k) (b : β) : replace l k b = l := by
  rw [replace, List.map_congr_left fun e he => if_neg (h e he), List.map_id']

theorem exists_split (hnodup : (l.map Prod.fst).Nodup) (h : l.lookup k = some b) :
    ∃ l₁ l₂, l = l₁ ++ (k, b) :: l₂ ∧ ∀ b', replace l k b' = l₁ ++ (k, b') :: l₂ := by
  obtain ⟨l₁, l₂, rfl, hfirst⟩ := List.lookup_eq_some_iff.mp h
  rw [List.map_append, List.map_cons, List.nodup_append, List.nodup_cons] at hnodup
  have hbefore : ∀ e ∈ l₁, e.1 ≠ k := fun e he heq => by simpa [heq] using hfirst e he
  have hbehind : ∀ e ∈ l₂, e.1 ≠ k := by
    rintro e he rfl
    exact hnodup.2.1.1 (List.mem_map.mpr ⟨e, he, rfl⟩)
  refine ⟨l₁, l₂, rfl, fun b' => ?_⟩
  have hfront := replace_of_notMem hbefore b'
  have hback := replace_of_notMem hbehind b'
  unfold replace at hfront hback ⊢
  rw [List.map_append, List.map_cons, hfront, hback, if_pos rfl]

theorem lookup_replace (l : List (κ × β)) (k k' : κ) (b : β) :
    (replace l k b).lookup k' = if k' = k then (l.lookup k).map fun _ => b else l.lookup k' := by
  induction l with
  | nil => simp [replace]
  | cons e l ih =>
    obtain ⟨ke, be⟩ := e
    have hcons : replace ((ke, be) :: l) k b = (if ke = k then (k, b) else (ke, be)) :: replace l k b := rfl
    rw [hcons]
    by_cases hke : ke = k
    · subst hke
      rw [if_pos rfl, List.lookup_cons, List.lookup_cons, List.lookup_cons]
      by_cases hk' : k' = ke
      · subst hk'
        simp
      · have hbeq : (k' == ke) = false := by simpa using hk'
        rw [hbeq, ih, if_neg hk']
        exact (if_neg hk').symm
    · rw [if_neg hke, List.lookup_cons, List.lookup_cons, List.lookup_cons]
      have hkeq : (k == ke) = false := by simpa using Ne.symm hke
      rw [hkeq, ih]
      by_cases hk' : k' = ke
      · subst hk'
        simp [hke]
      · have hbeq : (k' == ke) = false := by simpa using hk'
        rw [hbeq]

/-! ## Views -/

variable {view : κ × β → Option γ}

/-- A view does not see an entry that it takes nothing from, before and after. -/
theorem filterMap_replace (hnodup : (l.map Prod.fst).Nodup) (h : l.lookup k = some b)
    (hsame : view (k, b') = view (k, b)) : (replace l k b').filterMap view = l.filterMap view := by
  obtain ⟨l₁, l₂, hl, hreplace⟩ := exists_split hnodup h
  rw [hreplace, hl, List.filterMap_append, List.filterMap_append, List.filterMap_cons, List.filterMap_cons, hsame]

theorem perm_filterMap_replace {x : γ} (hnodup : (l.map Prod.fst).Nodup) (h : l.lookup k = some b)
    (hx : view (k, b) = some x) (hnone : view (k, b') = none) :
    (l.filterMap view).Perm (x :: (replace l k b').filterMap view) := by
  obtain ⟨l₁, l₂, hl, hreplace⟩ := exists_split hnodup h
  rw [hreplace, hl, List.filterMap_append, List.filterMap_append, List.filterMap_cons, List.filterMap_cons, hx, hnone]
  exact List.perm_middle

end KeyedTable
