import Mathlib.Tactic.Common

/-!
# Steps that draw on a budget

A step fails exactly when its cost is more than what is left, and takes its cost off when it succeeds. The
cost of steps one after the other is that of each in the state it is made in; what comes after a failure
costs nothing.
-/

namespace Budget

variable {σ α β : Type*}

/-- A step that may fail succeeds exactly when its cost is left, and takes it off then. -/
def Priced (left : σ → Nat) (next : σ → σ) (ok : σ → Bool) (cost : σ → Nat) : Prop :=
  ∀ s, (ok s = true ↔ cost s ≤ left s) ∧ (ok s = true → left (next s) + cost s = left s)

abbrev Answers (left : σ → Nat) (f : σ → σ × Option α) (cost : σ → Nat) : Prop :=
  Priced left (fun s => (f s).1) (fun s => (f s).2.isSome) cost

def andThen (f : σ → σ × Option α) (g : α → σ → σ × Option β) (s : σ) : σ × Option β :=
  match f s with
  | (s, none) => (s, none)
  | (s, some a) => g a s

def andThenCost (f : σ → σ × Option α) (c : σ → Nat) (d : α → σ → Nat) (s : σ) : Nat :=
  c s + match f s with
    | (_, none) => 0
    | (s, some a) => d a s

section andThen
variable {f : σ → σ × Option α} {g : α → σ → σ × Option β} {c : σ → Nat} {d : α → σ → Nat} {s s₁ : σ}

theorem andThen_none (h : f s = (s₁, none)) : andThen f g s = (s₁, none) := by
  simp only [andThen, h]

theorem andThen_some {a : α} (h : f s = (s₁, some a)) : andThen f g s = g a s₁ := by
  simp only [andThen, h]

theorem andThenCost_none (h : f s = (s₁, none)) : andThenCost f c d s = c s := by
  simp only [andThenCost, h, Nat.add_zero]

theorem andThenCost_some {a : α} (h : f s = (s₁, some a)) : andThenCost f c d s = c s + d a s₁ := by
  simp only [andThenCost, h]

theorem Priced.andThen {left : σ → Nat} (hf : Answers left f c) (hg : ∀ a, Answers left (g a) (d a)) :
    Answers left (andThen f g) (andThenCost f c d) := by
  intro s
  obtain ⟨hok, hleft⟩ := hf s
  cases hfs : f s with
  | mk s₁ r =>
    simp only [hfs] at hok hleft
    cases r with
    | none =>
      have hc : ¬ c s ≤ left s := fun h => Bool.false_ne_true (hok.mpr h)
      simp only [andThen_none hfs, andThenCost_none hfs]
      exact ⟨⟨fun h => absurd h Bool.false_ne_true, fun h => absurd h hc⟩,
        fun h => absurd h Bool.false_ne_true⟩
    | some a =>
      have hc := hok.mp rfl
      have hrest := hleft rfl
      obtain ⟨hok', hleft'⟩ := hg a s₁
      simp only [andThen_some hfs, andThenCost_some hfs]
      refine ⟨hok'.trans ⟨fun h => by omega, fun h => by omega⟩, fun h => ?_⟩
      have hlast : left (g a s₁).1 + d a s₁ = left s₁ := hleft' h
      omega

theorem andThen_keeps {γ : Type*} (v : σ → γ) (hf : ∀ s, v (f s).1 = v s) (hg : ∀ a s, v (g a s).1 = v s) :
    v (andThen f g s).1 = v s := by
  have hfirst := hf s
  cases hfs : f s with
  | mk s₁ r =>
    rw [hfs] at hfirst
    cases r with
    | none => rwa [andThen_none hfs]
    | some a =>
      rw [andThen_some hfs]
      exact (hg a s₁).trans hfirst

end andThen

/-- The first steps of a family, up to one that fails; how many succeeded. -/
def loop (f : Nat → σ → σ × Bool) : Nat → Nat → σ → σ × Nat
  | 0, k, s => (s, k)
  | n + 1, k, s =>
    match f k s with
    | (s, false) => (s, k)
    | (s, true) => loop f n (k + 1) s

def loopCost (f : Nat → σ → σ × Bool) (c : Nat → σ → Nat) : Nat → Nat → σ → Nat
  | 0, _, _ => 0
  | n + 1, k, s =>
    c k s + match f k s with
      | (_, false) => 0
      | (s, true) => loopCost f c n (k + 1) s

/-- A loop fails before its end exactly when its cost is more than what is left. -/
theorem Priced.loop {left : σ → Nat} {f : Nat → σ → σ × Bool} {c : Nat → σ → Nat}
    (hf : ∀ k, Priced left (fun s => (f k s).1) (fun s => (f k s).2) (c k)) : ∀ n k s,
    (loop f n k s).2 ≤ k + n ∧ ((loop f n k s).2 < k + n ↔ left s < loopCost f c n k s) := by
  intro n
  induction n with
  | zero =>
    intro k s
    unfold Budget.loop loopCost
    omega
  | succ n ih =>
    intro k s
    obtain ⟨hok, hleft⟩ := hf k s
    unfold Budget.loop loopCost
    cases hfs : f k s with
    | mk s₁ b =>
      simp only [hfs] at hok hleft
      cases b with
      | false =>
        have hc : ¬ c k s ≤ left s := fun h => absurd (hok.mpr h) (by decide)
        simp only
        omega
      | true =>
        have hc := hok.mp rfl
        have hrest := hleft rfl
        have := ih (k + 1) s₁
        simp only
        omega

theorem Priced.loop_end {left : σ → Nat} {f : Nat → σ → σ × Bool} {c : Nat → σ → Nat}
    (hf : ∀ k, Priced left (fun s => (f k s).1) (fun s => (f k s).2) (c k)) (n : Nat) (s : σ) :
    loopCost f c n 0 s ≤ left s ↔ ¬ (Budget.loop f n 0 s).2 < n := by
  have h := (Priced.loop hf n 0 s).2
  rw [Nat.zero_add] at h
  rw [h, Nat.not_lt]

theorem loop_keeps {γ : Type*} (v : σ → γ) {f : Nat → σ → σ × Bool} (hf : ∀ k s, v (f k s).1 = v s) :
    ∀ n k s, v (loop f n k s).1 = v s := by
  intro n
  induction n with
  | zero => exact fun _ _ => rfl
  | succ n ih =>
    intro k s
    have hstep := hf k s
    unfold loop
    cases hfs : f k s with
    | mk s₁ b =>
      rw [hfs] at hstep
      cases b with
      | false => exact hstep
      | true => exact (ih (k + 1) s₁).trans hstep

end Budget
