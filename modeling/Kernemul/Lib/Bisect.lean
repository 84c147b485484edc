import Mathlib.Algebra.Group.Nat.Defs
import Mathlib.Order.Nat
import Mathlib.Tactic.Common

/-!
# Bisection

A window of indices is halved by what a probe of its middle says: to go left, to go right, or that this is it. Each
pass takes an index off the window, so every loop comes to an end, whatever the probe says. Where it says right up to
some index and left from some index on, the window closes where right turns to left.
-/

namespace Bisect

variable {β : Type*}

inductive Turn (β : Type*)
  | left
  | right
  | found (b : β)

def middle (lo hi : ℕ) : ℕ := lo + (hi - lo) / 2

/-- The loop on a window comes to an end, with what was found or with the place where the window closed. -/
inductive Ends (probe : ℕ → Turn β) : ℕ → ℕ → β ⊕ ℕ → Prop
  | closed {lo hi : ℕ} (hwindow : ¬ lo < hi) : Ends probe lo hi (.inr lo)
  | found {lo hi : ℕ} {b : β} (hwindow : lo < hi) (hprobe : probe (middle lo hi) = .found b) : Ends probe lo hi (.inl b)
  | left {lo hi : ℕ} {out : β ⊕ ℕ} (hwindow : lo < hi) (hprobe : probe (middle lo hi) = .left)
      (rest : Ends probe lo (middle lo hi) out) : Ends probe lo hi out
  | right {lo hi : ℕ} {out : β ⊕ ℕ} (hwindow : lo < hi) (hprobe : probe (middle lo hi) = .right)
      (rest : Ends probe (middle lo hi + 1) hi out) : Ends probe lo hi out

variable {probe : ℕ → Turn β} {lo hi n : ℕ}

theorem le_middle (lo hi : ℕ) : lo ≤ middle lo hi := Nat.le_add_right ..

theorem middle_lt (h : lo < hi) : middle lo hi < hi := by
  unfold middle
  omega

theorem exists_ends (probe : ℕ → Turn β) (lo hi : ℕ) : ∃ out, Ends probe lo hi out := by
  induction hlen : hi - lo using Nat.strong_induction_on generalizing lo hi with
  | _ len ih =>
    by_cases hwindow : lo < hi
    · have hmid := middle_lt hwindow
      have hlo := le_middle lo hi
      cases hprobe : probe (middle lo hi) with
      | left =>
        obtain ⟨out, hout⟩ := ih (middle lo hi - lo) (by omega) lo (middle lo hi) rfl
        exact ⟨out, .left hwindow hprobe hout⟩
      | right =>
        obtain ⟨out, hout⟩ := ih (hi - (middle lo hi + 1)) (by omega) (middle lo hi + 1) hi rfl
        exact ⟨out, .right hwindow hprobe hout⟩
      | found b => exact ⟨.inl b, .found hwindow hprobe⟩
    · exact ⟨.inr lo, .closed hwindow⟩

theorem Ends.probe_of_found {b : β} (h : Ends probe lo hi (.inl b)) : ∃ i, lo ≤ i ∧ i < hi ∧ probe i = .found b := by
  generalize hout : Sum.inl b = out at h
  induction h with
  | closed => cases hout
  | found hwindow hprobe =>
    cases hout
    exact ⟨_, le_middle .., middle_lt hwindow, hprobe⟩
  | left hwindow hprobe rest ih =>
    obtain ⟨i, hlo, hhi, hi⟩ := ih hout
    exact ⟨i, hlo, hhi.trans (middle_lt hwindow), hi⟩
  | right hwindow hprobe rest ih =>
    obtain ⟨i, hlo, hhi, hi⟩ := ih hout
    exact ⟨i, (le_middle ..).trans (Nat.le_of_succ_le hlo), hhi, hi⟩

/-- Left of what is on the right it says right, and right of what is on the left it says left. -/
structure Ordered (probe : ℕ → Turn β) (n : ℕ) : Prop where
  left : ∀ i j, i ≤ j → j < n → probe i = .left → probe j = .left
  right : ∀ i j, i ≤ j → j < n → probe j = .right → probe i = .right

theorem Ends.closed_at (hordered : Ordered probe n) {p : ℕ} (h : Ends probe lo hi (.inr p)) (hle : lo ≤ hi)
    (hn : hi ≤ n) : (lo ≤ p ∧ p ≤ hi) ∧ (∀ i, lo ≤ i → i < p → probe i = .right) ∧
      ∀ i, p ≤ i → i < hi → probe i = .left := by
  generalize hout : Sum.inr p = out at h
  induction h with
  | closed hwindow =>
    cases hout
    exact ⟨⟨le_rfl, hle⟩, fun i h1 h2 => absurd h1 (Nat.not_le.mpr h2), fun i h1 h2 => absurd (h1.trans_lt h2) hwindow⟩
  | found => cases hout
  | @left lo hi _ hwindow hprobe rest ih =>
    have hmid := middle_lt hwindow
    obtain ⟨⟨hlo, hhi⟩, hright, hleft⟩ := ih (le_middle ..) (hmid.le.trans hn) hout
    refine ⟨⟨hlo, hhi.trans hmid.le⟩, hright, fun i hpi hi' => ?_⟩
    by_cases him : i < middle lo hi
    · exact hleft i hpi him
    · exact hordered.left _ i (Nat.not_lt.mp him) (hi'.trans_le hn) hprobe
  | @right lo hi _ hwindow hprobe rest ih =>
    have hmid := middle_lt hwindow
    obtain ⟨⟨hlo, hhi⟩, hright, hleft⟩ := ih hmid hn hout
    refine ⟨⟨(le_middle ..).trans (Nat.le_of_succ_le hlo), hhi⟩, fun i hlo' hip => ?_, hleft⟩
    by_cases him : i ≤ middle lo hi
    · exact hordered.right i _ him (hmid.trans_le hn) hprobe
    · exact hright i (Nat.not_le.mp him) hip

/-! ## A probe that changes a state -/

variable {σ : Type*}

def loop (probe : ℕ → σ → Turn β × σ) (lo hi : ℕ) (s : σ) : (β ⊕ ℕ) × σ :=
  if lo < hi then
    match probe (middle lo hi) s with
    | (.found b, s) => (.inl b, s)
    | (.left, s) => loop probe lo (middle lo hi) s
    | (.right, s) => loop probe (middle lo hi + 1) hi s
  else (.inr lo, s)
termination_by hi - lo
decreasing_by
  · have := middle_lt ‹lo < hi›
    omega
  · have := le_middle lo hi
    omega

/-- As long as the invariant holds, a probe inside the window says what `probe` says, and keeps it. -/
def Says (inv : σ → Prop) (ask : ℕ → σ → Turn β × σ) (probe : ℕ → Turn β) (lo hi : ℕ) : Prop :=
  ∀ i s, lo ≤ i → i < hi → inv s → (ask i s).1 = probe i ∧ inv (ask i s).2

theorem loop_ends {inv : σ → Prop} {ask : ℕ → σ → Turn β × σ} {s : σ} (hasks : Says inv ask probe lo hi) (hs : inv s) :
    Ends probe lo hi (loop ask lo hi s).1 ∧ inv (loop ask lo hi s).2 := by
  fun_induction loop ask lo hi s with
  | case1 lo hi s hwindow b s₁ hask =>
    obtain ⟨hanswer, hinv⟩ := hasks _ s (le_middle lo hi) (middle_lt hwindow) hs
    rw [hask] at hanswer hinv
    exact ⟨.found hwindow hanswer.symm, hinv⟩
  | case2 lo hi s hwindow s₁ hask ih =>
    obtain ⟨hanswer, hinv⟩ := hasks _ s (le_middle lo hi) (middle_lt hwindow) hs
    rw [hask] at hanswer hinv
    have hmid := middle_lt hwindow
    obtain ⟨hends, hlast⟩ := ih (fun i s h1 h2 => hasks i s h1 (h2.trans hmid)) hinv
    exact ⟨.left hwindow hanswer.symm hends, hlast⟩
  | case3 lo hi s hwindow s₁ hask ih =>
    obtain ⟨hanswer, hinv⟩ := hasks _ s (le_middle lo hi) (middle_lt hwindow) hs
    rw [hask] at hanswer hinv
    have hmid := le_middle lo hi
    obtain ⟨hends, hlast⟩ := ih (fun i s h1 h2 => hasks i s (hmid.trans (Nat.le_of_succ_le h1)) h2) hinv
    exact ⟨.right hwindow hanswer.symm hends, hlast⟩
  | case4 lo hi s hwindow => exact ⟨.closed hwindow, hs⟩

theorem asks_cons {lo' hi' : ℕ} {asked : List ℕ} (hwindow : lo < hi) (hlo : lo ≤ lo') (hhi : hi' ≤ hi)
    (hhalf : 2 * (hi' - lo') ≤ hi - lo) (hin : ∀ i ∈ asked, lo' ≤ i ∧ i < hi')
    (hcount : asked = [] ∨ 2 ^ asked.length ≤ 2 * (hi' - lo')) :
    (∀ i ∈ middle lo hi :: asked, lo ≤ i ∧ i < hi) ∧
      (middle lo hi :: asked = [] ∨ 2 ^ (middle lo hi :: asked).length ≤ 2 * (hi - lo)) := by
  refine ⟨List.forall_mem_cons.mpr ⟨⟨le_middle lo hi, middle_lt hwindow⟩, fun i hi => ?_⟩, .inr ?_⟩
  · exact ⟨hlo.trans (hin i hi).1, (hin i hi).2.trans_le hhi⟩
  · rw [List.length_cons, Nat.pow_succ]
    rcases hcount with rfl | hcount
    · rw [List.length_nil, Nat.pow_zero]
      omega
    · omega

/-- Whatever is said, the indices that are asked are in the window, and each halves what is left of it. -/
theorem loop_asks (ask : ℕ → σ → Turn β × σ) (lo hi : ℕ) (s : σ) : ∃ asked : List ℕ,
    (loop ask lo hi s).2 = asked.foldl (fun s i => (ask i s).2) s ∧ (∀ i ∈ asked, lo ≤ i ∧ i < hi) ∧
      (asked = [] ∨ 2 ^ asked.length ≤ 2 * (hi - lo)) := by
  fun_induction loop ask lo hi s with
  | case1 lo hi s hwindow b s₁ hask =>
    refine ⟨[middle lo hi], by rw [List.foldl_cons, hask, List.foldl_nil], ?_⟩
    exact asks_cons hwindow (Nat.le_refl lo) hwindow.le (by omega)
      (fun i hi => absurd hi List.not_mem_nil) (.inl rfl)
  | case2 lo hi s hwindow s₁ hask ih =>
    obtain ⟨asked, hstate, hin, hcount⟩ := ih
    have hmid : 2 * (middle lo hi - lo) ≤ hi - lo := by
      unfold middle
      omega
    exact ⟨middle lo hi :: asked, by rw [List.foldl_cons, hask, hstate],
      asks_cons hwindow le_rfl (middle_lt hwindow).le hmid hin hcount⟩
  | case3 lo hi s hwindow s₁ hask ih =>
    obtain ⟨asked, hstate, hin, hcount⟩ := ih
    have hmid : 2 * (hi - (middle lo hi + 1)) ≤ hi - lo := by
      unfold middle
      omega
    exact ⟨middle lo hi :: asked, by rw [List.foldl_cons, hask, hstate],
      asks_cons hwindow ((le_middle lo hi).trans (Nat.le_succ _)) le_rfl hmid hin hcount⟩
  | case4 lo hi s hwindow => exact ⟨[], rfl, fun i hi => absurd hi List.not_mem_nil, .inl rfl⟩

end Bisect
