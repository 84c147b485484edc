import Mathlib.Data.List.Induction
import Mathlib.Tactic.Common

/-!
# Walks through a forest of tables

A table has a slot for every index, and a slot is empty or leads to another table. `walk` follows a
path of indices. When every table but the roots hangs in one slot (`Parented`), two walks that end at
the same table took the same path from the same root, except that slots of different roots may be
shared. When new tables are hung into empty slots (`Grows`), old walks stay and new ones end in new
tables.
-/

namespace Walk

variable {N I : Type*}

def walk (next : N → I → Option N) : N → List I → Option N
  | n, [] => some n
  | n, i :: p => (next n i).bind fun c => walk next c p

@[simp] theorem walk_nil (next : N → I → Option N) (n : N) : walk next n [] = some n := rfl

theorem walk_cons (next : N → I → Option N) (n : N) (i : I) (p : List I) :
    walk next n (i :: p) = (next n i).bind fun c => walk next c p := rfl

theorem walk_snoc (next : N → I → Option N) (n : N) (p : List I) (i : I) :
    walk next n (p ++ [i]) = (walk next n p).bind fun c => next c i := by
  induction p generalizing n with
  | nil =>
    rw [List.nil_append, walk_cons, walk_nil, Option.bind_some]
    cases next n i with
    | none => rfl
    | some c => rfl
  | cons j p ih =>
    rw [List.cons_append, walk_cons, walk_cons]
    cases next n j with
    | none => rfl
    | some c => exact ih c

/-- Every table hangs in one slot, but for the shared slots of roots. -/
structure Parented (next : N → I → Option N) (Root : N → Prop) (Shared : I → Prop) : Prop where
  unique : ∀ n i n' i' c, next n i = some c → next n' i' = some c →
    n = n' ∧ i = i' ∨ Root n ∧ Root n' ∧ i = i' ∧ Shared i
  root : ∀ n i c, next n i = some c → ¬ Root c

section Parented
variable {next : N → I → Option N} {Root : N → Prop} {Shared : I → Prop}
  (h : Parented next Root Shared)
include h

theorem Parented.nil_of_root {r n : N} {p : List I} (hn : Root n) (hw : walk next r p = some n) :
    p = [] := by
  rcases List.eq_nil_or_concat p with rfl | ⟨q, i, rfl⟩
  · rfl
  · rw [List.concat_eq_append, walk_snoc] at hw
    obtain ⟨c, -, hc⟩ := Option.bind_eq_some_iff.mp hw
    exact absurd hn (h.root c i n hc)

theorem Parented.walk_inj (p : List I) : ∀ (p' : List I) (r r' t : N), p.length = p'.length →
    walk next r p = some t → walk next r' p' = some t →
    p = p' ∧ (r = r' ∨ ∃ i q, p = i :: q ∧ Shared i) := by
  induction p using List.reverseRecOn with
  | nil =>
    intro p' r r' t hlen hw hw'
    obtain rfl : p' = [] := List.length_eq_zero_iff.mp hlen.symm
    rw [walk_nil] at hw hw'
    exact ⟨rfl, Or.inl (Option.some.inj (hw.trans hw'.symm))⟩
  | append_singleton p i ih =>
    intro p' r r' t hlen hw hw'
    rcases List.eq_nil_or_concat p' with rfl | ⟨q', i', rfl⟩
    · simp at hlen
    · rw [List.concat_eq_append] at *
      rw [walk_snoc] at hw hw'
      obtain ⟨n, hn, hc⟩ := Option.bind_eq_some_iff.mp hw
      obtain ⟨n', hn', hc'⟩ := Option.bind_eq_some_iff.mp hw'
      have hlen' : p.length = q'.length := by simpa using hlen
      rcases h.unique n i n' i' t hc hc' with ⟨rfl, rfl⟩ | ⟨hr, hr', rfl, hs⟩
      · obtain ⟨rfl, hrest⟩ := ih q' r r' n hlen' hn hn'
        refine ⟨rfl, ?_⟩
        rcases hrest with hrest | ⟨j, q, rfl, hj⟩
        · exact Or.inl hrest
        · exact Or.inr ⟨j, q ++ [i], rfl, hj⟩
      · obtain rfl := h.nil_of_root hr hn
        obtain rfl := h.nil_of_root hr' hn'
        exact ⟨rfl, Or.inr ⟨i, [], rfl, hs⟩⟩

end Parented

/-- New tables are hung into empty slots: old slots keep what they lead to, and a slot that leads
somewhere new leads to a new table. -/
structure Grows (next next' : N → I → Option N) (Old : N → Prop) : Prop where
  keep : ∀ n i c, Old n → next n i = some c → next' n i = some c ∧ Old c
  fresh : ∀ n i c, next' n i = some c → Old n ∧ next n i = some c ∨ ¬ Old c

section Grows
variable {next next' : N → I → Option N} {Old : N → Prop} (h : Grows next next' Old)
include h

theorem Grows.walk_old {p : List I} {r t : N} (hr : Old r) (hw : walk next r p = some t) :
    walk next' r p = some t ∧ Old t := by
  induction p generalizing r with
  | nil =>
    rw [walk_nil] at *
    cases hw
    exact ⟨rfl, hr⟩
  | cons i p ih =>
    rw [walk_cons] at *
    obtain ⟨c, hc, hw⟩ := Option.bind_eq_some_iff.mp hw
    obtain ⟨hc', hold⟩ := h.keep r i c hr hc
    rw [hc']
    exact ih hold hw

theorem Grows.walk_new {p : List I} {r t : N} (hw : walk next' r p = some t) (ht : Old t) :
    walk next r p = some t := by
  induction p using List.reverseRecOn generalizing t with
  | nil => exact hw
  | append_singleton p i ih =>
    rw [walk_snoc] at *
    obtain ⟨n, hn, hc⟩ := Option.bind_eq_some_iff.mp hw
    rcases h.fresh n i t hc with ⟨hold, hc'⟩ | hnew
    · rw [ih hn hold]
      exact hc'
    · exact absurd ht hnew

end Grows

end Walk
