import Mathlib.Tactic.Common

/-!
# Loops

A pass of a loop leaves a state for the next one, or ends the loop with an outcome. A loop that has no bound may never
end: it does not where every state of an invariant leads to another one.
-/

namespace Loop

variable {σ ω : Type*}

inductive Ends (pass : σ → σ ⊕ ω) : σ → ω → Prop
  | done {s : σ} {o : ω} (hpass : pass s = .inr o) : Ends pass s o
  | next {s s' : σ} {o : ω} (hpass : pass s = .inl s') (rest : Ends pass s' o) : Ends pass s o

variable {pass : σ → σ ⊕ ω}

theorem Ends.invariant {I : σ → Prop} {Q : ω → Prop} (hnext : ∀ s s', I s → pass s = .inl s' → I s')
    (hdone : ∀ s o, I s → pass s = .inr o → Q o) {s : σ} {o : ω} (h : Ends pass s o) (hs : I s) : Q o := by
  induction h with
  | done hpass => exact hdone _ _ hs hpass
  | next hpass _ ih => exact ih (hnext _ _ hs hpass)

end Loop
