import Kernemul.Lib.Bits
import Kernemul.Lib.Run

/-!
# Push locks

`take_push_lock` and `give_push_lock` of `nt_lock_ops.cpp` keep who holds an `EX_PUSH_LOCK` in one word: a bit for
held, a bit for shared more than once, and the number of shares above the four bits of state. The three release
handlers are one function, which tells the mode of the lock by the word.
-/

namespace Kernemul.PushLock

abbrev Word := BitVec 64

def locked : Word := 1

def multipleShared : Word := 8

def shareIncrement : Word := 0x10

def stateMask : Word := 0xF

/-! ## The code -/

/-- The word that `take_push_lock` leaves. One that cannot be taken is left alone. -/
def takePushLock (value : Word) (shared : Bool) : Word :=
  let shares := value / shareIncrement
  if value &&& locked ≠ 0 ∧ (shares = 0 ∨ shared = false) then value
  else if shared then
    ((value ||| locked) + shareIncrement) ||| (if shares ≠ 0 then multipleShared else 0)
  else value ||| locked

/-- The word that `give_push_lock` leaves. -/
def givePushLock (value : Word) : Word :=
  if value &&& locked = 0 then value
  else if value &&& ~~~stateMask ≤ shareIncrement then 0
  else value - shareIncrement

/-! ## Holders -/

/-- Who holds a lock; a shared one is held by `others` besides the first. -/
inductive Holders
  | free
  | exclusive
  | shared (others : Nat)
  deriving DecidableEq, Repr

def Holders.shares : Holders → Nat
  | .shared others => others + 1
  | _ => 0

inductive Op
  | acquireExclusive
  | acquireShared
  /-- `ExReleasePushLockEx`, whatever the mode. -/
  | release
  | releaseExclusive
  | releaseShared
  deriving DecidableEq, Repr

def Op.word (v : Word) : Op → Word
  | .acquireExclusive => takePushLock v false
  | .acquireShared => takePushLock v true
  | .release | .releaseExclusive | .releaseShared => givePushLock v

/-- The holders after an operation; none when the holders are in its way, or when there is nothing to release. -/
def Op.holders : Op → Holders → Option Holders
  | .acquireExclusive, .free => some .exclusive
  | .acquireShared, .free => some (.shared 0)
  | .acquireShared, .shared n => some (.shared (n + 1))
  | .release, .exclusive | .releaseExclusive, .exclusive => some .free
  | .release, .shared 0 | .releaseShared, .shared 0 => some .free
  | .release, .shared (n + 1) | .releaseShared, .shared (n + 1) => some (.shared n)
  | _, _ => none

structure State where
  word : Word := 0
  holders : Holders := .free
  deriving DecidableEq, Repr

def step (s : State) (op : Op) : Option State :=
  (op.holders s.holders).map fun holders => { word := op.word s.word, holders }

structure PushLockOk (s : State) : Prop where
  locked : s.word &&& locked ≠ 0 ↔ s.holders ≠ .free
  shares : (s.word >>> 4).toNat = s.holders.shares
  released : s.holders = .free → s.word = 0

/-! ## Words -/

section words
variable {v : Word} {n f : Nat}

theorem toNat_shares (hv : v.toNat = 2 ^ 4 * n + f) (hf : f < 2 ^ 4) : (v / shareIncrement).toNat = n := by
  rw [BitVec.toNat_udiv, hv]
  show (2 ^ 4 * n + f) / 16 = n
  omega

theorem or_locked (hv : v.toNat = 2 ^ 4 * n + f) (hf : f = 1 ∨ f = 9) : v ||| locked = v := by
  rw [← BitVec.toNat_inj, BitVec.toNat_or, hv]
  show (2 ^ 4 * n + f) ||| 1 = _
  rw [Bits.lor_low (by omega) (by decide)]
  rcases hf with rfl | rfl
  · rfl
  · rfl

theorem and_locked_ne (hv : v.toNat = 2 ^ 4 * n + f) (hf : f = 1 ∨ f = 9) : v &&& locked ≠ 0 := by
  intro hzero
  have hbit : (v &&& locked).toNat = f % 2 := by
    rw [BitVec.toNat_and, hv]
    show (2 ^ 4 * n + f) &&& 1 = _
    rw [Bits.land_low (by omega) (by decide), Nat.and_one_is_mod]
  rw [hzero] at hbit
  rcases hf with rfl | rfl
  · cases hbit
  · cases hbit

end words

/-- The word says what is known; the bit of a lock that was shared more than once stays set until the last share
is gone. -/
inductive Represents : Word → Holders → Prop
  | free : Represents 0 .free
  | exclusive : Represents 1 .exclusive
  | shared {v : Word} {others f : Nat} (hf : f = 1 ∨ f = 9) (hv : v.toNat = 2 ^ 4 * (others + 1) + f) :
    Represents v (.shared others)

theorem Represents.ok {s : State} (h : Represents s.word s.holders) : PushLockOk s := by
  obtain ⟨v, holders⟩ := s
  cases h with
  | free => exact ⟨by decide, by decide, fun _ => rfl⟩
  | exclusive => exact ⟨by decide, by decide, nofun⟩
  | @shared _ others f hf hv =>
    refine ⟨⟨fun _ => nofun, fun _ => and_locked_ne hv hf⟩, ?_, nofun⟩
    · rw [BitVec.toNat_ushiftRight, Nat.shiftRight_eq_div_pow, hv]
      show (2 ^ 4 * (others + 1) + f) / 2 ^ 4 = others + 1
      omega

/-! ## Steps -/

section steps
variable {v : Word} {others f : Nat}

theorem takePushLock_shared (hf : f = 1 ∨ f = 9) (hv : v.toNat = 2 ^ 4 * (others + 1) + f)
    (hfits : others + 2 < 2 ^ 60) : (takePushLock v true).toNat = 2 ^ 4 * (others + 2) + 9 := by
  have hshares := toNat_shares hv (by omega)
  have hne : v / shareIncrement ≠ 0 := by
    intro hzero
    rw [hzero] at hshares
    cases hshares
  have hsum : (v + shareIncrement).toNat = 2 ^ 4 * (others + 2) + f := by
    rw [BitVec.toNat_add, hv]
    show (2 ^ 4 * (others + 1) + f + 16) % 2 ^ 64 = _
    omega
  unfold takePushLock
  dsimp only
  rw [if_neg fun h => h.2.elim hne nofun, if_pos rfl, or_locked hv hf, if_pos hne, BitVec.toNat_or, hsum]
  show (2 ^ 4 * (others + 2) + f) ||| 8 = _
  rw [Bits.lor_low (by omega) (by decide)]
  rcases hf with rfl | rfl <;> rfl

theorem givePushLock_last (hf : f = 1 ∨ f = 9) (hv : v.toNat = 2 ^ 4 * 1 + f) : givePushLock v = 0 := by
  have hmask : (v &&& ~~~stateMask).toNat = 2 ^ 4 * (v.toNat / 2 ^ 4) := Bits.toNat_and_not_low v 4
  unfold givePushLock
  rw [if_neg (and_locked_ne hv hf), if_pos]
  rw [BitVec.le_def, hmask, hv]
  show 2 ^ 4 * ((2 ^ 4 * 1 + f) / 2 ^ 4) ≤ 16
  omega

theorem givePushLock_shared (hf : f = 1 ∨ f = 9) (hv : v.toNat = 2 ^ 4 * (others + 2) + f) :
    (givePushLock v).toNat = 2 ^ 4 * (others + 1) + f := by
  have hmask : (v &&& ~~~stateMask).toNat = 2 ^ 4 * (v.toNat / 2 ^ 4) := Bits.toNat_and_not_low v 4
  unfold givePushLock
  rw [if_neg (and_locked_ne hv hf), if_neg]
  · have hle : shareIncrement ≤ v := by
      rw [BitVec.le_def, hv]
      show 16 ≤ _
      omega
    rw [BitVec.toNat_sub_of_le hle, hv]
    show 2 ^ 4 * (others + 2) + f - 16 = _
    omega
  · rw [BitVec.le_def, hmask, hv]
    show ¬ 2 ^ 4 * ((2 ^ 4 * (others + 2) + f) / 2 ^ 4) ≤ 16
    omega

end steps

/-- A shared acquire leaves fewer than `2 ^ 60` shares: as many as there is room for above the state. -/
def Fits (s : State) (op : Op) : Prop := op = .acquireShared → s.holders.shares + 1 < 2 ^ 60

theorem represents_release {v : Word} {h h' : Holders} (hr : Represents v h)
    (hop : Op.holders .release h = some h') : Represents (givePushLock v) h' := by
  cases hr with
  | free => cases hop
  | exclusive =>
    obtain rfl := Option.some.inj hop
    exact .free
  | @shared _ others f hf hv =>
    cases others with
    | zero =>
      obtain rfl := Option.some.inj hop
      rw [givePushLock_last hf hv]
      exact .free
    | succ others =>
      obtain rfl := Option.some.inj hop
      exact .shared hf (givePushLock_shared hf hv)

theorem release_of_mode {op : Op} (hop : op = .releaseExclusive ∨ op = .releaseShared) {h h' : Holders}
    (heq : op.holders h = some h') : Op.holders .release h = some h' := by
  rcases hop with rfl | rfl
  · cases h with
    | exclusive => exact heq
    | _ => cases heq
  · cases h with
    | shared others => cases others <;> exact heq
    | _ => cases heq

theorem represents_step {s s' : State} {op : Op} (h : Represents s.word s.holders) (hfits : Fits s op)
    (hstep : step s op = some s') : Represents s'.word s'.holders := by
  obtain ⟨holders, hop, rfl⟩ := Option.map_eq_some_iff.mp hstep
  obtain ⟨v, old⟩ := s
  cases op with
  | acquireExclusive =>
    cases h with
    | free =>
      obtain rfl := Option.some.inj hop
      exact .exclusive
    | exclusive => cases hop
    | shared hf hv => cases hop
  | acquireShared =>
    cases h with
    | free =>
      obtain rfl := Option.some.inj hop
      exact .shared (Or.inl rfl) (by decide)
    | exclusive => cases hop
    | shared hf hv =>
      obtain rfl := Option.some.inj hop
      exact .shared (Or.inr rfl) (takePushLock_shared hf hv (hfits rfl))
  | release => exact represents_release h hop
  | releaseExclusive => exact represents_release h (release_of_mode (Or.inl rfl) hop)
  | releaseShared => exact represents_release h (release_of_mode (Or.inr rfl) hop)

/-! ## Runs -/

/-- **Push locks.** The word says who holds the lock, after any acquires and releases that the holders allow, as
long as there are fewer than `2 ^ 60` of them. -/
theorem pushLockOk_of_fits {ops : List Op} {s : State} (h : Run.Steps step Fits {} ops s) : PushLockOk s := by
  have hinv := h.invariant (P := fun s => Represents s.word s.holders)
    (fun _ _ _ hs hfits hstep => represents_step hs hfits hstep) .free
  exact hinv.ok

instance (s : State) (op : Op) : Decidable (Fits s op) := inferInstanceAs (Decidable (_ → _))

/-- The bit of the second share stays when that share is gone, and the lock is shared again. -/
theorem staleBit_ok : PushLockOk ⟨0x29, .shared 1⟩ := by
  have hexec : Run.exec step (fun s op => decide (Fits s op)) {}
      [.acquireShared, .acquireShared, .release, .acquireShared] = some ⟨0x29, .shared 1⟩ := by decide
  exact pushLockOk_of_fits (Run.Steps.of_exec (fun _ _ => of_decide_eq_true) hexec)

theorem acquires (n : Nat) : ∃ w, Run.Steps step (fun _ _ => True) {} (List.replicate (n + 1) .acquireShared)
    ⟨w, .shared n⟩ := by
  induction n with
  | zero => exact ⟨_, .cons trivial rfl (.nil _)⟩
  | succ n ih =>
    obtain ⟨w, hw⟩ := ih
    refine ⟨takePushLock w true, ?_⟩
    rw [List.replicate_succ']
    exact hw.append (.cons trivial rfl (.nil _))

/-- There is no word for `2 ^ 60` shares. -/
theorem shares_overflow : ¬ ∀ ops s, Run.Steps step (fun _ _ => True) {} ops s → PushLockOk s := by
  intro hall
  obtain ⟨w, hw⟩ := acquires (2 ^ 60 - 1)
  have hshares : (w >>> 4).toNat = 2 ^ 60 := (hall _ _ hw).shares
  have hlt := w.isLt
  rw [BitVec.toNat_ushiftRight, Nat.shiftRight_eq_div_pow] at hshares
  omega

end Kernemul.PushLock
