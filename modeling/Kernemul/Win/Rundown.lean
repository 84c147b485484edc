import Kernemul.Lib.Bits
import Kernemul.Lib.Run

/-!
# Rundown protection

`rundown.hpp` and the `Ex` handlers of `nt_lock_ops.cpp` each read the word of an `EX_RUNDOWN_REF` in their
own way. They agree on it as long as the object is not running down.
-/

namespace Kernemul.Rundown

abbrev Word := BitVec 64

def rundownActive : Word := 1

def rundownReference : Word := 2

/-! ## `rundown.hpp` -/

/-- `acquire_rundown`: whether it succeeds, and the word it leaves. -/
def acquireRundown (value : Word) : Bool × Word :=
  if value &&& rundownActive ≠ 0 then (false, value) else (true, value + rundownReference)

def releaseRundown (value : Word) : Bool × Word :=
  let references := value &&& ~~~rundownActive
  if references < rundownReference then (false, value)
  else (true, (value &&& rundownActive) ||| (references - rundownReference))

/-- `begin_rundown`, which is all `ExWaitForRundownProtectionRelease` writes. -/
def beginRundown : Word := rundownActive

/-! ## The handlers -/

def exInitialize : Word := 0

def exAcquire (value : Word) : Bool × Word := (true, value + 2)

def exRelease (count : Word) : Word := if 2 ≤ count then count - 2 else 0

/-! ## Words -/

theorem and_active_eq_zero_iff (v : Word) : v &&& rundownActive = 0 ↔ v.toNat % 2 = 0 := by
  rw [← BitVec.toNat_inj, BitVec.toNat_and]
  show v.toNat &&& 1 = 0 ↔ _
  rw [Nat.and_one_is_mod]

theorem toNat_and_active (v : Word) : (v &&& rundownActive).toNat = v.toNat % 2 := by
  rw [BitVec.toNat_and]
  exact Nat.and_one_is_mod _

theorem toNat_and_not_active (v : Word) : (v &&& ~~~rundownActive).toNat = 2 * (v.toNat / 2) :=
  Bits.toNat_and_not_low v 1

theorem toNat_or_even (a b : Word) (ha : a.toNat < 2) (hb : b.toNat % 2 = 0) :
    (a ||| b).toNat = a.toNat + b.toNat := by
  rw [BitVec.toNat_or, Nat.or_comm]
  have heq : b.toNat = 2 ^ 1 * (b.toNat / 2) := by omega
  rw [heq, ← Nat.two_pow_add_eq_or_of_lt (i := 1) ha]
  omega

theorem releaseRundown_word (v : Word) :
    (releaseRundown v).2.toNat = if v.toNat < 2 then v.toNat else v.toNat - 2 := by
  have href := toNat_and_not_active v
  have hflag := toNat_and_active v
  have hlt := v.isLt
  unfold releaseRundown
  dsimp only
  have hcond : v &&& ~~~rundownActive < rundownReference ↔ v.toNat < 2 := by
    rw [BitVec.lt_def, href]
    show 2 * (v.toNat / 2) < 2 ↔ _
    omega
  by_cases h : v.toNat < 2
  · rw [if_pos (hcond.mpr h), if_pos h]
  · rw [if_neg (fun hc => h (hcond.mp hc)), if_neg h]
    have hsub : ((v &&& ~~~rundownActive) - rundownReference).toNat = 2 * (v.toNat / 2) - 2 := by
      rw [BitVec.toNat_sub_of_le, href]
      · rfl
      · rw [BitVec.le_def, href]
        show 2 ≤ _
        omega
    show ((v &&& rundownActive) ||| ((v &&& ~~~rundownActive) - rundownReference)).toNat = _
    rw [toNat_or_even, hflag, hsub]
    · omega
    · omega
    · omega

theorem exRelease_word (v : Word) : (exRelease v).toNat = if v.toNat < 2 then 0 else v.toNat - 2 := by
  unfold exRelease
  have hcond : (2 : Word) ≤ v ↔ ¬ v.toNat < 2 := by
    rw [BitVec.le_def]
    show 2 ≤ _ ↔ _
    omega
  by_cases h : v.toNat < 2
  · rw [if_neg (fun hc => hcond.mp hc h), if_pos h]
    rfl
  · rw [if_pos (hcond.mpr h), if_neg h, BitVec.toNat_sub_of_le (hcond.mpr h)]
    rfl

/-! ## The two implementations -/

theorem acquire_agrees_iff (v : Word) : acquireRundown v = exAcquire v ↔ v &&& rundownActive = 0 := by
  unfold acquireRundown exAcquire
  by_cases h : v &&& rundownActive = 0
  · rw [if_neg (fun hc => hc h)]
    exact iff_of_true rfl h
  · rw [if_pos h]
    exact iff_of_false (fun hc => by cases congrArg Prod.fst hc) h

theorem release_agrees_iff (v : Word) : (releaseRundown v).2 = exRelease v ↔ v ≠ rundownActive := by
  rw [← BitVec.toNat_inj, releaseRundown_word, exRelease_word, ne_eq, ← BitVec.toNat_inj]
  show _ ↔ ¬ v.toNat = 1
  split <;> omega

/-! ## Runs -/

/-- What is known of a reference: how many acquires are outstanding, or that it is running down. -/
inductive Phase
  | active (outstanding : Nat)
  | runningDown
  deriving DecidableEq, Repr

inductive Op
  | initialise
  | acquire
  | exAcquire
  | release
  | exRelease
  | beginRundown
  deriving DecidableEq, Repr

structure State where
  word : Word
  phase : Phase
  deriving DecidableEq, Repr

/-- What an operation answers, where it answers, and the word it leaves. -/
def Op.run (v : Word) : Op → Bool × Word
  | .initialise => (true, exInitialize)
  | .acquire => acquireRundown v
  | .exAcquire => Rundown.exAcquire v
  | .release => releaseRundown v
  | .exRelease => (true, Rundown.exRelease v)
  | .beginRundown => (true, Rundown.beginRundown)

def Op.phase (answer : Bool) : Op → Phase → Phase
  | .initialise, _ => .active 0
  | .acquire, .active n | .exAcquire, .active n => .active (if answer then n + 1 else n)
  | .release, .active n | .exRelease, .active n => .active (n - 1)
  | .beginRundown, _ => .runningDown
  | _, .runningDown => .runningDown

def step (s : State) (op : Op) : Option State :=
  some ⟨(op.run s.word).2, op.phase (op.run s.word).1 s.phase⟩

def Op.isAcquire (op : Op) : Bool := op = .acquire || op = .exAcquire

def lastEven : Word := 0xFFFFFFFFFFFFFFFE

/-- The handlers leave a reference alone that is running down, and no acquire makes the word wrap. -/
def Guarded (s : State) : Op → Prop
  | .exAcquire => s.word &&& rundownActive = 0 ∧ s.word ≠ lastEven
  | .acquire => s.word ≠ lastEven
  | .exRelease => s.word ≠ rundownActive
  | _ => True

def Represents (v : Word) : Phase → Prop
  | .active n => v.toNat = 2 * n
  | .runningDown => v = rundownActive

theorem ne_lastEven_iff (v : Word) : v ≠ lastEven ↔ v.toNat ≠ 2 ^ 64 - 2 := by
  rw [ne_eq, ← BitVec.toNat_inj]
  rfl

theorem represents_acquire {v : Word} {n : Nat} (h : v.toNat = 2 * n) (hwrap : v ≠ lastEven) :
    acquireRundown v = (true, v + 2) ∧ (v + 2).toNat = 2 * (n + 1) := by
  have hlt := v.isLt
  rw [ne_lastEven_iff] at hwrap
  constructor
  · exact (acquire_agrees_iff v).mpr ((and_active_eq_zero_iff v).mpr (by omega))
  · rw [BitVec.toNat_add]
    show (v.toNat + 2) % 2 ^ 64 = _
    omega

theorem represents_step {s s' : State} {op : Op} (h : Represents s.word s.phase) (hok : Guarded s op)
    (hstep : step s op = some s') : Represents s'.word s'.phase := by
  obtain rfl := Option.some.inj hstep
  obtain ⟨v, phase⟩ := s
  cases phase with
  | active n =>
    have hv : v.toNat = 2 * n := h
    cases op with
    | initialise => rfl
    | acquire =>
      obtain ⟨hacq, hword⟩ := represents_acquire hv hok
      show Represents (acquireRundown v).2 (.active (if (acquireRundown v).1 then n + 1 else n))
      rw [hacq]
      exact hword
    | exAcquire => exact (represents_acquire hv hok.2).2
    | release =>
      show (releaseRundown v).2.toNat = 2 * (n - 1)
      rw [releaseRundown_word]
      split <;> omega
    | exRelease =>
      show (Rundown.exRelease v).toNat = 2 * (n - 1)
      rw [exRelease_word]
      split <;> omega
    | beginRundown => rfl
  | runningDown =>
    have hv : v = rundownActive := h
    cases op with
    | initialise => rfl
    | acquire =>
      rw [hv]
      rfl
    | exAcquire =>
      rw [hv] at hok
      exact absurd hok.1 (by decide)
    | release =>
      rw [hv]
      rfl
    | exRelease => exact absurd hv hok
    | beginRundown => rfl

structure RundownOk (s : State) : Prop where
  active : ∀ n, s.phase = .active n → s.word.toNat = 2 * n
  bit : s.phase = .runningDown → s.word &&& rundownActive ≠ 0
  refuses : s.phase = .runningDown → ∀ op : Op, op.isAcquire = true → Guarded s op →
    op.run s.word = (false, s.word)

theorem Represents.ok {s : State} (h : Represents s.word s.phase) : RundownOk s := by
  constructor
  · intro n hn
    rw [hn] at h
    exact h
  · intro hdown
    rw [hdown] at h
    rw [show s.word = rundownActive from h]
    decide
  · intro hdown op hop hok
    rw [hdown] at h
    have hv : s.word = rundownActive := h
    cases op with
    | acquire =>
      rw [hv]
      rfl
    | exAcquire =>
      rw [Guarded, hv] at hok
      exact absurd hok.1 (by decide)
    | _ => cases hop

/-- **Rundown protection.** In every state of a run in which the handlers leave a reference alone that is
running down, the word is twice the number of outstanding acquires or has its bit set and refuses them; and
the two implementations agree on exactly the words they may be used on. -/
theorem rundownOk_of_guarded {s' : State} {ops : List Op}
    (hrun : Run.Steps step Guarded ⟨exInitialize, .active 0⟩ ops s') :
    RundownOk s' ∧ (∀ v, acquireRundown v = exAcquire v ↔ v &&& rundownActive = 0) ∧
      ∀ v, (releaseRundown v).2 = exRelease v ↔ v ≠ rundownActive := by
  have hinv : Represents s'.word s'.phase :=
    hrun.invariant (P := fun s : State => Represents s.word s.phase)
      (fun _ _ _ h hok hstep => represents_step h hok hstep) rfl
  exact ⟨hinv.ok, acquire_agrees_iff, release_agrees_iff⟩

instance (s : State) (op : Op) : Decidable (Guarded s op) :=
  match op with
  | .exAcquire => inferInstanceAs (Decidable (_ ∧ _))
  | .acquire | .exRelease => inferInstanceAs (Decidable (_ ≠ _))
  | .initialise | .release | .beginRundown => isTrue trivial

/-- Both implementations acquire, one releases, and after the rundown has begun an acquire is refused. -/
theorem rundownOk_of_guarded_mixed :
    RundownOk ⟨1, .runningDown⟩ ∧ acquireRundown 1 = (false, 1) := by
  have hexec : Run.exec step (fun s op => decide (Guarded s op)) ⟨exInitialize, .active 0⟩
      [.acquire, .exAcquire, .exRelease, .beginRundown, .acquire] = some ⟨1, .runningDown⟩ := by
    decide
  have hok := (rundownOk_of_guarded (Run.Steps.of_exec (fun _ _ => of_decide_eq_true) hexec)).1
  exact ⟨hok, hok.refuses rfl .acquire rfl (by decide)⟩

/-- `ExReleaseRundownProtection` clears the bit of a reference that is running down, which
`release_rundown` does not, and then it can be acquired. -/
theorem rundown_bit_lost :
    ∃ s', Run.Steps step (fun _ _ => True) ⟨exInitialize, .active 0⟩ [.beginRundown, .exRelease] s' ∧
      s'.phase = .runningDown ∧ s'.word &&& rundownActive = 0 ∧ (acquireRundown s'.word).1 = true ∧
      ¬ RundownOk s' ∧ (releaseRundown 1).2 ≠ exRelease 1 := by
  refine ⟨⟨0, .runningDown⟩, .cons trivial rfl (.cons trivial rfl (.nil _)), rfl, rfl, rfl, ?_, by decide⟩
  exact fun hok => hok.bit rfl rfl

end Kernemul.Rundown
