import Mathlib.Tactic.Common

/-!
# Runs of a partial step function

`Steps step ok s calls s'` says that the calls, made one after the other from `s`, all return, each is
allowed by `ok` in the state it is made in, and the last one leaves `s'`. Safety properties go through
`Steps.invariant`.
-/

namespace Run

variable {σ ι : Type*}

/-- The calls lead from the first state to the last, each allowed by `ok` where it is made. -/
inductive Steps (step : σ → ι → Option σ) (ok : σ → ι → Prop) : σ → List ι → σ → Prop
  | nil (s : σ) : Steps step ok s [] s
  | cons {s s₁ s₂ : σ} {i : ι} {is : List ι} (hok : ok s i) (hstep : step s i = some s₁)
      (rest : Steps step ok s₁ is s₂) : Steps step ok s (i :: is) s₂

variable {step : σ → ι → Option σ} {ok : σ → ι → Prop}

variable {P : σ → Prop} {s s' : σ} {is : List ι}

theorem Steps.invariant (hP : ∀ s i s', P s → ok s i → step s i = some s' → P s')
    (h : Steps step ok s is s') (hs : P s) : P s' := by
  induction h with
  | nil => exact hs
  | cons hok hstep _ ih => exact ih (hP _ _ _ hs hok hstep)

/-- Making the calls one after the other, as long as `check` passes each. -/
def exec (step : σ → ι → Option σ) (check : σ → ι → Bool) : σ → List ι → Option σ
  | s, [] => some s
  | s, i :: is => if check s i then (step s i).bind fun s' => exec step check s' is else none

/-- Executed calls are a run when the check is enough for `ok` in the states of an invariant. -/
theorem Steps.of_exec_invariant {check : σ → ι → Bool}
    (hP : ∀ s i s', P s → check s i = true → step s i = some s' → P s') (hok : ∀ s i, P s → check s i = true → ok s i)
    (hs : P s) (h : exec step check s is = some s') : Steps step ok s is s' := by
  induction is generalizing s with
  | nil =>
    cases h
    exact .nil _
  | cons i is ih =>
    rw [exec] at h
    split at h
    · rename_i hc
      obtain ⟨s₁, h₁, h₂⟩ := Option.bind_eq_some_iff.mp h
      exact .cons (hok s i hs hc) h₁ (ih (hP s i s₁ hs hc h₁) h₂)
    · simp at h

theorem Steps.of_exec {check : σ → ι → Bool} (hok : ∀ s i, check s i = true → ok s i)
    (h : exec step check s is = some s') : Steps step ok s is s' :=
  of_exec_invariant (fun _ _ _ _ _ _ => trivial) (fun s i _ => hok s i) trivial h

theorem Steps.append {s₁ s₂ : σ} {js : List ι} (h : Steps step ok s is s₁)
    (h' : Steps step ok s₁ js s₂) : Steps step ok s (is ++ js) s₂ := by
  induction h with
  | nil => exact h'
  | cons hok hstep _ ih => exact .cons hok hstep (ih h')

theorem Steps.of_append {s₂ : σ} {js : List ι} (h : Steps step ok s (is ++ js) s₂) :
    ∃ s₁, Steps step ok s is s₁ ∧ Steps step ok s₁ js s₂ := by
  induction is generalizing s with
  | nil => exact ⟨s, .nil s, h⟩
  | cons i is ih =>
    obtain ⟨⟩ | ⟨hok, hstep, rest⟩ := h
    obtain ⟨s₁, his, hjs⟩ := ih rest
    exact ⟨s₁, .cons hok hstep his, hjs⟩

theorem Steps.unique {s₁ s₂ : σ} (h₁ : Steps step ok s is s₁) (h₂ : Steps step ok s is s₂) : s₁ = s₂ := by
  induction h₁ with
  | nil =>
    cases h₂
    rfl
  | cons _ hstep _ ih =>
    obtain ⟨⟩ | ⟨_, hstep', rest⟩ := h₂
    obtain rfl := Option.some.inj (hstep.symm.trans hstep')
    exact ih rest

variable {ok' : σ → ι → Prop}

theorem Steps.mono (himp : ∀ s i, ok s i → ok' s i) (h : Steps step ok s is s') : Steps step ok' s is s' := by
  induction h with
  | nil => exact .nil _
  | cons hok hstep _ ih => exact .cons (himp _ _ hok) hstep ih

/-- Two conditions on calls allow the same runs when, in the states of an invariant that one of them keeps, they
allow the same calls. -/
theorem Steps.iff_of_invariant (hP : ∀ s i s', P s → ok' s i → step s i = some s' → P s')
    (hiff : ∀ s i, P s → (ok s i ↔ ok' s i)) (hs : P s) :
    Steps step ok s is s' ↔ Steps step ok' s is s' := by
  constructor
  · intro h
    induction h with
    | nil => exact .nil _
    | cons hok hstep _ ih =>
      have hok' := (hiff _ _ hs).mp hok
      exact .cons hok' hstep (ih (hP _ _ _ hs hok' hstep))
  · intro h
    induction h with
    | nil => exact .nil _
    | cons hok' hstep _ ih => exact .cons ((hiff _ _ hs).mpr hok') hstep (ih (hP _ _ _ hs hok' hstep))

/-- What a step can only spoil holds at the end of a run exactly when every step was allowed, if an allowed step is
one that does not spoil it. -/
theorem Steps.allowed_iff {I : σ → Prop} (hI : ∀ s i s', I s → ok s i → step s i = some s' → I s')
    (hback : ∀ s i s', ok s i → step s i = some s' → P s' → P s)
    (hiff : ∀ s i s', I s → P s → ok s i → step s i = some s' → (ok' s i ↔ P s'))
    (hs : I s) (hp : P s) (h : Steps step ok s is s') : Steps step ok' s is s' ↔ P s' := by
  have hfirst : ∀ {s s' : σ} {is : List ι}, Steps step ok s is s' → P s' → P s := by
    intro s s' is h
    induction h with
    | nil => exact id
    | cons hok hstep _ ih => exact fun hlast => hback _ _ _ hok hstep (ih hlast)
  induction h with
  | nil => exact ⟨fun _ => hp, fun _ => .nil _⟩
  | cons hok hstep rest ih =>
    have hs₁ := hI _ _ _ hs hok hstep
    constructor
    · rintro (_ | ⟨hok', hstep', rest'⟩)
      obtain rfl := Option.some.inj (hstep.symm.trans hstep')
      exact (ih hs₁ ((hiff _ _ _ hs hp hok hstep).mp hok')).mp rest'
    · intro hlast
      have hp₁ := hfirst rest hlast
      exact .cons ((hiff _ _ _ hs hp hok hstep).mpr hp₁) hstep ((ih hs₁ hp₁).mpr hlast)

/-- A property that has held so far holds after a step exactly when the step was allowed: it holds in every state of
a run exactly when every step was. -/
theorem Steps.allowed_iff_always {I : σ → Prop} (hI : ∀ s i s', I s → P s → ok s i → step s i = some s' → P s' → I s')
    (hiff : ∀ s i s', I s → P s → ok s i → step s i = some s' → (ok' s i ↔ P s'))
    (hs : I s) (hp : P s) (h : Steps step ok s is s') :
    Steps step ok' s is s' ↔ ∀ js s₁, js <+: is → Steps step ok s js s₁ → P s₁ := by
  induction h with
  | nil s =>
    constructor
    · intro _ js s₁ hjs hrun
      obtain rfl := List.prefix_nil.mp hjs
      cases hrun
      exact hp
    · exact fun _ => .nil s
  | @cons s s₁ s₂ i is hok hstep rest ih =>
    constructor
    · rintro (_ | ⟨hok', hstep', rest'⟩) js s' hjs hrun
      obtain rfl := Option.some.inj (hstep.symm.trans hstep')
      have hp₁ := (hiff _ _ _ hs hp hok hstep).mp hok'
      obtain ⟨⟩ | ⟨hokj, hstepj, restj⟩ := hrun
      · exact hp
      · obtain ⟨rfl, htail⟩ := List.cons_prefix_cons.mp hjs
        obtain rfl := Option.some.inj (hstep.symm.trans hstepj)
        exact (ih (hI _ _ _ hs hp hok hstep hp₁) hp₁).mp rest' _ _ htail restj
    · intro hall
      have hp₁ : P s₁ := hall [i] s₁ (List.prefix_append [i] is) (.cons hok hstep (.nil _))
      refine .cons ((hiff _ _ _ hs hp hok hstep).mpr hp₁) hstep ((ih (hI _ _ _ hs hp hok hstep hp₁) hp₁).mpr ?_)
      exact fun js s' hjs hrun => hall (i :: js) s' (List.cons_prefix_cons.mpr ⟨rfl, hjs⟩) (.cons hok hstep hrun)

/-- What is said of the value of an option, if there is one, can be checked. -/
instance decidableForallSome {α : Type*} (o : Option α) (p : α → Prop) [DecidablePred p] :
    Decidable (∀ x, o = some x → p x) :=
  match o with
  | none => .isTrue fun _ h => nomatch h
  | some x => decidable_of_iff (p x) ⟨fun h _ hx => Option.some.inj hx ▸ h, fun h => h x rfl⟩

end Run
