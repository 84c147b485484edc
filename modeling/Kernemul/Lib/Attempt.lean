import Mathlib.Tactic.Common

/-!
# Programs that are not undone

A program over a state may throw, and what it has done by then stays done (`EStateM`). Seen through a `view`, a part of
it that is `Silent` can be passed over (`traceless_bind`); after a part that leaves a mark for good, a failure has left
its trace (`traceless_mark`).
-/

namespace Attempt

universe u

variable {ε σ α β : Type u} {γ δ : Type*}

def last : EStateM.Result ε σ α → σ
  | .ok _ s => s
  | .error _ s => s

def answer : EStateM.Result ε σ α → Option α
  | .ok a _ => some a
  | .error _ _ => none

variable {x : EStateM ε σ α} {f : α → EStateM ε σ β} {s : σ}

theorem bind_ok {s' : σ} {a : α} (h : x s = .ok a s') :
    (x >>= f) s = f a s' := by
  show EStateM.bind x f s = _
  rw [EStateM.bind, h]

theorem bind_error {s' : σ} {e : ε} (h : x s = .error e s') :
    (x >>= f) s = .error e s' := by
  show EStateM.bind x f s = _
  rw [EStateM.bind, h]

theorem bind_get {f : σ → EStateM ε σ β} : (get >>= f) s = f s s := rfl

/-! ## Programs that return -/

/-- The program returns, and what it leaves has `k`. -/
def Returns (x : EStateM ε σ α) (s : σ) (k : α → σ → Prop) : Prop := ∃ a s', x s = .ok a s' ∧ k a s'

variable {k : α → σ → Prop}

theorem returns_ok {s' : σ} {a : α} (h : x s = .ok a s') :
    Returns x s k ↔ k a s' := by
  unfold Returns
  rw [h]
  constructor
  · rintro ⟨_, _, ⟨⟩, hk⟩
    exact hk
  · exact fun hk => ⟨a, s', rfl, hk⟩

theorem returns_pure {a : α} : Returns (pure a : EStateM ε σ α) s k ↔ k a s :=
  returns_ok rfl

theorem returns_get {k : σ → σ → Prop} : Returns (get : EStateM ε σ σ) s k ↔ k s s := returns_ok rfl

theorem returns_modify {f : σ → σ} {k : PUnit → σ → Prop} :
    Returns (modify f : EStateM ε σ PUnit) s k ↔ k ⟨⟩ (f s) := returns_ok rfl

theorem returns_bind {k : β → σ → Prop} :
    Returns (x >>= f) s k ↔ Returns x s fun a s' => Returns (f a) s' k := by
  cases h : x s with
  | ok a s' =>
    rw [returns_ok h]
    unfold Returns
    rw [bind_ok h]
  | error e s' =>
    unfold Returns
    rw [bind_error h, h]
    constructor
    · rintro ⟨_, _, ⟨⟩, -⟩
    · rintro ⟨_, _, ⟨⟩, -⟩

theorem returns_congr {k' : α → σ → Prop} (h : ∀ a s', k a s' ↔ k' a s') :
    Returns x s k ↔ Returns x s k' :=
  exists_congr fun a => exists_congr fun s' => and_congr_right fun _ => h a s'

/-! ## What is kept -/

/-- From `P` the program comes to `Q`, or throws in `E`. -/
def Leads (P : σ → Prop) (x : EStateM ε σ α) (Q : α → σ → Prop) (E : σ → Prop) : Prop :=
  ∀ s, P s → match x s with
    | .ok a s' => Q a s'
    | .error _ s' => E s'

section Leads

variable {P E : σ → Prop} {Q : α → σ → Prop}

theorem Leads.pure {a : α} (h : ∀ s, P s → Q a s) : Leads P (pure a : EStateM ε σ α) Q E := fun s hs => h s hs

theorem Leads.get {Q : σ → σ → Prop} (h : ∀ s, P s → Q s s) : Leads P (get : EStateM ε σ σ) Q E := fun s hs => h s hs

theorem Leads.modify {f : σ → σ} {Q : PUnit → σ → Prop} (h : ∀ s, P s → Q ⟨⟩ (f s)) :
    Leads P (modify f : EStateM ε σ PUnit) Q E := fun s hs => h s hs

theorem Leads.bind {R : β → σ → Prop} {f : α → EStateM ε σ β} (hx : Leads P x Q E)
    (hf : ∀ a, Leads (Q a) (f a) R E) : Leads P (x >>= f) R E := by
  intro s hs
  have h := hx s hs
  cases hxs : x s with
  | ok a s' =>
    rw [hxs] at h
    rw [bind_ok hxs]
    exact hf a s' h
  | error e s' =>
    rw [hxs] at h
    rw [bind_error hxs]
    exact h

theorem Leads.ite {c : Prop} [Decidable c] {y : EStateM ε σ α} (hx : Leads P x Q E) (hy : Leads P y Q E) :
    Leads P (if c then x else y) Q E := by
  split
  · exact hx
  · exact hy

theorem Leads.last (h : Leads P x (fun _ => E) E) (hs : P s) : E (last (x s)) := by
  have hx := h s hs
  cases hxs : x s with
  | ok a s' =>
    rw [hxs] at hx
    exact hx
  | error e s' =>
    rw [hxs] at hx
    exact hx

end Leads

/-! ## Programs that leave a view alone -/

def Silent (view : σ → γ) (x : EStateM ε σ α) : Prop := ∀ s, view (last (x s)) = view s

section Silent

variable {view : σ → γ}

theorem Silent.pure (a : α) : Silent view (pure a : EStateM ε σ α) := fun _ => rfl

theorem Silent.get : Silent view (get : EStateM ε σ σ) := fun _ => rfl

theorem Silent.modify {f : σ → σ} (h : ∀ s, view (f s) = view s) :
    Silent view (modify f : EStateM ε σ PUnit) := h

theorem Silent.bind {f : α → EStateM ε σ β} (hx : Silent view x) (hf : ∀ a, Silent view (f a)) :
    Silent view (x >>= f) := by
  intro s
  have hs := hx s
  cases h : x s with
  | ok a s' =>
    rw [h] at hs
    rw [bind_ok h, hf a s']
    exact hs
  | error e s' =>
    rw [h] at hs
    rw [bind_error h]
    exact hs

theorem Silent.ite {c : Prop} [Decidable c] {y : EStateM ε σ α} (hx : Silent view x) (hy : Silent view y) :
    Silent view (if c then x else y) := by
  split
  · exact hx
  · exact hy

theorem Silent.of_view (h : Silent view x) (w : γ → δ) : Silent (fun s => w (view s)) x :=
  fun s => congrArg w (h s)

end Silent

/-! ## Failing without a trace -/

/-- Unless the program returns and does not answer with a failure, the view is as before. -/
def Traceless (view : σ → γ) (fails : α → Prop) (x : EStateM ε σ α) (s : σ) : Prop :=
  ¬ Returns x s (fun a _ => ¬ fails a) → view (last (x s)) = view s

variable {view : σ → γ} {fails : β → Prop}

theorem Silent.traceless {x : EStateM ε σ β} (h : Silent view x) (s : σ) : Traceless view fails x s := fun _ => h s

theorem traceless_bind (hx : Silent view x) :
    Traceless view fails (x >>= f) s ↔ ∀ a s', x s = .ok a s' → Traceless view fails (f a) s' := by
  have hs := hx s
  unfold Traceless
  rw [returns_bind]
  cases h : x s with
  | ok a s' =>
    rw [h] at hs
    rw [returns_ok h, bind_ok h, ← hs]
    constructor
    · rintro ht _ _ ⟨⟩
      exact ht
    · exact fun ht => ht a s' rfl
  | error e s' =>
    rw [h] at hs
    rw [bind_error h]
    exact iff_of_true (fun _ => hs) nofun

theorem traceless_ok {s' : σ} {a : α} (h : x s = .ok a s')
    (hview : view s' = view s) : Traceless view fails (x >>= f) s ↔ Traceless view fails (f a) s' := by
  unfold Traceless
  rw [bind_ok h, returns_bind, returns_ok h, hview]

theorem traceless_get {f : σ → EStateM ε σ β} :
    Traceless view fails (get >>= f) s ↔ Traceless view fails (f s) s := Iff.rfl

/-- Once a part has changed what `w` tells from the view, and the rest does not change that, only success will do. -/
theorem traceless_mark (w : α → γ → δ) (herror : ∀ e s', x s = .error e s' → view s' = view s)
    (hmark : ∀ a s', x s = .ok a s' → w a (view s') ≠ w a (view s))
    (hrest : ∀ a, Silent (fun s => w a (view s)) (f a)) :
    Traceless view fails (x >>= f) s ↔ ∀ a s', x s = .ok a s' → Returns (f a) s' fun b _ => ¬ fails b := by
  unfold Traceless
  rw [returns_bind]
  cases h : x s with
  | ok a s' =>
    rw [returns_ok h, bind_ok h]
    constructor
    · rintro ht _ _ ⟨⟩
      by_contra hn
      exact hmark a s' h ((hrest a s').symm.trans (congrArg (w a) (ht hn)))
    · exact fun hs hn => absurd (hs a s' rfl) hn
  | error e s' =>
    rw [bind_error h]
    exact iff_of_true (fun _ => herror e s' h) nofun

theorem not_traceless {x : EStateM ε σ β} {b : β} (w : γ → δ) (hanswer : answer (x s) = some b)
    (hfails : fails b) (hw : w (view (last (x s))) ≠ w (view s)) : ¬ Traceless view fails x s := by
  intro h
  refine hw (congrArg w (h ?_))
  rintro ⟨b', s', hx, hs⟩
  rw [hx] at hanswer
  cases hanswer
  exact hs hfails

end Attempt
