import Kernemul.Win.Sync.Walk
import Mathlib.Data.List.Nodup

/-!
# Fast and guarded mutexes

`take_mutex` and `give_mutex` of `nt_sync_ops.cpp` and the handlers over them. Bit 0 of `Count` says that the
mutex is free, and every thread that waits adds four; a release hands the mutex to one of them.
-/

namespace Kernemul.Sync

open State

def fmLockBit : BitVec 32 := 1

def fmWaiterIncrement : BitVec 32 := 4

/-- `dispatcher_size` of a KEVENT. -/
def keventSize : Nat := 6

/-- The fields of `_FAST_MUTEX` but for its event, of which only the size in the header. -/
structure FastMutex where
  count : BitVec 32
  owner : Addr := 0
  contention : BitVec 32 := 0
  eventSize : Nat
  deriving DecidableEq, Repr

structure MutexState where
  sys : State
  mutex : FastMutex
  /-- The threads that hold the mutex, which nothing in the code reads. -/
  holders : List Tid := []

namespace State

def released (s : State) (t : Tid) : Bool :=
  match s.thread t with
  | some th => (th.wait.map Wait.satisfied).getD false
  | none => false

/-- The threads of `sys_proc` whose waits have been satisfied between two states. -/
def handed (before after : State) : List Tid :=
  (after.tids sysProc).filter fun t => after.released t && !before.released t

/-- How many threads of `sys_proc` are parked for an object. -/
def parkedCount (s : State) (a : Addr) : Nat := (s.tids sysProc).countP (s.parkedOn a)

end State

/-! ## The handlers

The event of the mutex is at `event`. -/

section
variable (event : Addr)

def keInitializeGuardedMutex (s : MutexState) : MutexState :=
  { s with
    sys := s.sys.initDispatcher event .eventSynchronization 0
    mutex := { count := fmLockBit, eventSize := keventSize } }

/-- `take_mutex`: whether the caller holds the mutex on return. -/
def takeMutex (s : MutexState) (t : Tid) : MutexState × Bool :=
  if s.mutex.count &&& fmLockBit ≠ 0 then
    ({ s with
        mutex := { s.mutex with count := s.mutex.count &&& ~~~fmLockBit }
        holders := t :: s.holders }, true)
  else if s.mutex.eventSize = 0 then
    -- Memory that no initialiser has touched.
    ({ sys := s.sys.initDispatcher event .eventSynchronization 0
       mutex := { s.mutex with count := 0, contention := 0, eventSize := keventSize }
       holders := t :: s.holders }, true)
  else
    let sys := s.sys.beginWait t { objects := [event], all := false }
    ({ sys
       mutex := { s.mutex with
        contention := s.mutex.contention + 1
        count := s.mutex.count + fmWaiterIncrement }
       holders := handed s.sys sys ++ s.holders }, false)

def ownMutex (s : MutexState) (self : Addr) : MutexState :=
  { s with mutex := { s.mutex with owner := self } }

/-- `ExAcquireFastMutex` and its siblings. -/
def acquire (s : MutexState) (t : Tid) (self : Addr) : MutexState := ownMutex (takeMutex event s t).1 self

/-- `ExTryToAcquireFastMutex`. -/
def tryAcquire (s : MutexState) (t : Tid) (self : Addr) : MutexState × Bool :=
  if s.mutex.count &&& fmLockBit = 0 then (s, false)
  else
    (ownMutex { s with
      mutex := { s.mutex with count := s.mutex.count &&& ~~~fmLockBit }
      holders := t :: s.holders } self, true)

/-- `give_mutex`: whether the event has been signalled and needs waking. -/
def giveMutex (mutex : FastMutex) : FastMutex × Bool :=
  let count := mutex.count
  let mutex := { mutex with owner := 0 }
  if count &&& fmLockBit ≠ 0 then (mutex, false)
  else if fmWaiterIncrement.toInt ≤ count.toInt then
    ({ mutex with count := count - fmWaiterIncrement }, true)
  else ({ mutex with count := count ||| fmLockBit }, false)

/-- `ExReleaseFastMutex` and its siblings. -/
def release (s : MutexState) (t : Tid) : MutexState :=
  let r := giveMutex s.mutex
  if r.2 then
    let signalled := s.sys.setState event 1
    let sys := signalled.wakeWaiters sysProc event
    { sys, mutex := r.1, holders := handed signalled sys ++ s.holders.erase t }
  else { s with mutex := r.1, holders := s.holders.erase t }

inductive MutexAction
  | acquire (t : Tid)
  | tryAcquire (t : Tid)
  | release (t : Tid)
  | ready (t : Tid) (now : Int)
  deriving DecidableEq, Repr

def MutexState.running (s : MutexState) (t : Tid) : Option Thread :=
  (s.sys.thread t).filter fun th => th.wait = none

/-- One action: none when it cannot happen. Only a thread that holds the mutex releases it. -/
def mutexStep (s : MutexState) : MutexAction → Option MutexState
  | .acquire t => (s.running t).map fun th => acquire event s t th.ethread
  | .tryAcquire t => (s.running t).map fun th => (tryAcquire s t th.ethread).1
  | .release t => (s.running t).bind fun _ => if t ∈ s.holders then some (release event s t) else none
  | .ready t now => (s.sys.isReady t now).map fun r => { s with sys := r.1 }

end

/-! ## Counting -/

theorem countP_add_one {α : Type*} {l : List α} (hl : l.Nodup) {a : α} (ha : a ∈ l) {p q : α → Bool}
    (hp : p a = false) (hq : q a = true) (h : ∀ b, b ≠ a → q b = p b) : l.countP q = l.countP p + 1 := by
  induction l with
  | nil => cases ha
  | cons b l ih =>
    obtain ⟨hb, hl⟩ := List.nodup_cons.mp hl
    rw [List.countP_cons, List.countP_cons]
    by_cases hba : b = a
    · subst hba
      have hsame : l.countP q = l.countP p := List.countP_congr fun c hc => by
        rw [h c (fun hcb => hb (hcb ▸ hc))]
      rw [hp, hq, hsame]
      rfl
    · rw [h b hba, ih hl ((List.mem_cons.mp ha).resolve_left (Ne.symm hba))]
      omega

theorem filter_eq_singleton {α : Type*} {l : List α} (hl : l.Nodup) {a : α} (ha : a ∈ l) {p : α → Bool}
    (h : ∀ b, p b = true ↔ b = a) : l.filter p = [a] := by
  induction l with
  | nil => cases ha
  | cons b l ih =>
    obtain ⟨hb, hl⟩ := List.nodup_cons.mp hl
    rw [List.filter_cons]
    by_cases hba : b = a
    · subst hba
      rw [if_pos ((h b).mpr rfl), List.filter_eq_nil_iff.mpr]
      intro c hc hpc
      exact hb ((h c).mp hpc ▸ hc)
    · rw [if_neg (fun hpb => hba ((h b).mp hpb))]
      exact ih hl ((List.mem_cons.mp ha).resolve_left (Ne.symm hba))

/-! ## The protocol -/

section
variable (event : Addr)

/-- The mutex is free, or one thread holds it and `Count` tells how many wait. -/
structure MutexInv (s : MutexState) : Prop where
  nodup : (s.sys.tids sysProc).Nodup
  mem : ∀ t th, s.sys.thread t = some th → t ∈ s.sys.tids sysProc
  waits : ∀ t th w, s.sys.thread t = some th → th.wait = some w →
    w.objects = [event] ∧ w.all = false ∧ w.timed = false
  quiet : s.mutex.eventSize ≠ 0 →
    (s.sys.objs event).kind = .eventSynchronization ∧ (s.sys.objs event).state = 0
  state : (s.holders = [] ∧ s.sys.parkedCount event = 0 ∧
      (s.mutex.count = fmLockBit ∧ s.mutex.eventSize ≠ 0 ∨ s.mutex.count = 0 ∧ s.mutex.eventSize = 0)) ∨
    ∃ h, s.holders = [h] ∧ s.mutex.eventSize ≠ 0 ∧
      s.mutex.count = BitVec.ofNat 32 (4 * s.sys.parkedCount event)

structure MutexOk (s : MutexState) : Prop where
  one_holder : s.holders.length ≤ 1
  waiters : s.mutex.count.toNat / 4 = s.sys.parkedCount event
  free : s.holders = [] → ∀ t, s.sys.parkedOn event t = false

end

variable {event : Addr} {s s' : MutexState}

theorem lockBit_ofNat (n : Nat) : BitVec.ofNat 32 (4 * n) &&& fmLockBit = 0 := by
  rw [← BitVec.toNat_inj, BitVec.toNat_and, BitVec.toNat_ofNat]
  show _ &&& 1 = 0
  rw [Nat.and_one_is_mod]
  omega

variable {t : Tid}

theorem MutexInv.of_holder (h : MutexInv event s) (hhold : t ∈ s.holders) :
    s.holders = [t] ∧ s.mutex.eventSize ≠ 0 ∧
      s.mutex.count = BitVec.ofNat 32 (4 * s.sys.parkedCount event) := by
  rcases h.state with ⟨hh, -⟩ | ⟨t₀, hh, hsize, hc⟩
  · rw [hh] at hhold
    cases hhold
  · rw [hh] at hhold
    rw [List.mem_singleton.mp hhold]
    exact ⟨hh, hsize, hc⟩

/-- A mutex that is not free has a holder, unless no initialiser has touched it. -/
theorem MutexInv.holder_of_busy (h : MutexInv event s) (hfree : s.mutex.count &&& fmLockBit = 0)
    (hsize : s.mutex.eventSize ≠ 0) : ∃ t, t ∈ s.holders := by
  rcases h.state with ⟨-, -, ⟨hc, -⟩ | ⟨-, hsz⟩⟩ | ⟨t, hh, -⟩
  · rw [hc] at hfree
    cases hfree
  · exact absurd hsz hsize
  · exact ⟨t, hh ▸ List.mem_singleton_self t⟩

theorem MutexInv.single (h : MutexInv event s) : s.sys.Single event := by
  intro t th w hp _
  obtain ⟨hth, hw, -⟩ := parked_eq_some.mp hp
  exact ⟨(h.waits t th w hth hw).1, (h.waits t th w hth hw).2.1⟩

theorem parkedOn_mem (h : MutexInv event s) (hp : s.sys.parkedOn event t = true) :
    t ∈ s.sys.tids sysProc := by
  obtain ⟨th, w, hpark, -⟩ := parkedOn_eq_true.mp hp
  exact h.mem t th (parked_eq_some.mp hpark).1

theorem MutexInv.ok (h : MutexInv event s) (hle : s.sys.parkedCount event < 2 ^ 30) : MutexOk event s := by
  rcases h.state with ⟨hh, hp, hc⟩ | ⟨t, hh, -, hc⟩
  · refine ⟨by rw [hh]; simp, ?_, fun _ t => ?_⟩
    · rw [hp]
      rcases hc with ⟨hc, -⟩ | ⟨hc, -⟩ <;> rw [hc] <;> rfl
    · cases hpt : s.sys.parkedOn event t with
      | false => rfl
      | true => exact absurd hpt (List.countP_eq_zero.mp hp t (parkedOn_mem h hpt))
  · refine ⟨by rw [hh]; simp, ?_, fun hnil => ?_⟩
    · rw [hc, BitVec.toNat_ofNat]
      omega
    · rw [hh] at hnil
      cases hnil

variable {th : Thread}

theorem running_eq_some (h : s.running t = some th) :
    s.sys.thread t = some th ∧ th.wait = none := by
  obtain ⟨hth, hw⟩ := Option.filter_eq_some_iff.mp h
  exact ⟨hth, of_decide_eq_true hw⟩

theorem handed_eq_nil {before after : State}
    (h : ∀ t, after.released t = true → before.released t = true) : handed before after = [] := by
  unfold handed
  rw [List.filter_eq_nil_iff]
  intro t _
  cases hr : after.released t with
  | false => simp
  | true => simp [h t hr]

theorem MutexInv.of_mutex (h : MutexInv event s) (hsys : s'.sys = s.sys)
    (hsize : s'.mutex.eventSize = s.mutex.eventSize)
    (hstate : (s'.holders = [] ∧ s.sys.parkedCount event = 0 ∧
      (s'.mutex.count = fmLockBit ∧ s'.mutex.eventSize ≠ 0 ∨
        s'.mutex.count = 0 ∧ s'.mutex.eventSize = 0)) ∨
      ∃ h, s'.holders = [h] ∧ s'.mutex.eventSize ≠ 0 ∧
        s'.mutex.count = BitVec.ofNat 32 (4 * s.sys.parkedCount event)) : MutexInv event s' := by
  constructor
  · rw [hsys]
    exact h.nodup
  · rw [hsys]
    exact h.mem
  · rw [hsys]
    exact h.waits
  · rw [hsys, hsize]
    exact h.quiet
  · rw [hsys]
    exact hstate

theorem MutexInv.take (h : MutexInv event s) (hfree : s.mutex.count &&& fmLockBit ≠ 0) (t : Tid)
    (self : Addr) :
    MutexInv event (ownMutex { s with
      mutex := { s.mutex with count := s.mutex.count &&& ~~~fmLockBit }
      holders := t :: s.holders } self) := by
  rcases h.state with ⟨hh, hp, ⟨hc, hsize⟩ | ⟨hc, -⟩⟩ | ⟨t₀, hh, hsize, hc⟩
  · refine h.of_mutex rfl rfl (.inr ⟨t, ?_, hsize, ?_⟩)
    · show t :: s.holders = [t]
      rw [hh]
    · show s.mutex.count &&& ~~~fmLockBit = _
      rw [hc, hp]
      rfl
  · rw [hc] at hfree
    exact absurd rfl hfree
  · rw [hc] at hfree
    exact absurd (lockBit_ofNat _) hfree

theorem parkedCount_congr {sys sys' : State} (htids : sys'.tids = sys.tids)
    (hp : ∀ t, sys'.parkedOn event t = sys.parkedOn event t) :
    sys'.parkedCount event = sys.parkedCount event := by
  show (sys'.tids sysProc).countP _ = _
  rw [htids]
  exact List.countP_congr fun t _ => by rw [hp]

theorem acquire_free (hfree : s.mutex.count &&& fmLockBit ≠ 0) {t : Tid} {self : Addr} :
    acquire event s t self = ownMutex { s with
      mutex := { s.mutex with count := s.mutex.count &&& ~~~fmLockBit }
      holders := t :: s.holders } self := by
  unfold acquire takeMutex
  rw [if_pos hfree]

theorem acquire_held (h : MutexInv event s) (hrun : s.running t = some th)
    (hheld : s.mutex.count &&& fmLockBit = 0) (hsize : s.mutex.eventSize ≠ 0) :
    acquire event s t th.ethread =
      { sys := s.sys.setThread t { th with wait := some { objects := [event], all := false } }
        mutex := { s.mutex with
          owner := th.ethread
          contention := s.mutex.contention + 1
          count := s.mutex.count + fmWaiterIncrement }
        holders := s.holders } := by
  obtain ⟨hth, hw⟩ := running_eq_some hrun
  have hnot : isSignalled (s.sys.objs event) th.ethread = false := by
    obtain ⟨hk, hst⟩ := h.quiet hsize
    exact not_isSignalled hst.le (fun hm => by rw [hk] at hm; cases hm)
  have hbegin : s.sys.beginWait t { objects := [event], all := false } =
      s.sys.setThread t { th with wait := some { objects := [event], all := false } } :=
    beginWait_of_not_signalled hth rfl rfl hnot
  have hhanded : handed s.sys (s.sys.setThread t
      { th with wait := some { objects := [event], all := false } }) = [] := by
    apply handed_eq_nil
    intro t' hr
    unfold State.released at hr ⊢
    by_cases ht : t' = t
    · rw [ht] at hr
      simp [setThread] at hr
    · simp only [setThread, Function.update_of_ne ht] at hr
      exact hr
  unfold acquire takeMutex
  rw [if_neg (fun hne => hne hheld), if_neg hsize, hbegin]
  dsimp only
  rw [hhanded]
  rfl

theorem parkedCount_setThread (h : MutexInv event s) (hrun : s.running t = some th) :
    (s.sys.setThread t { th with wait := some { objects := [event], all := false } }).parkedCount event =
      s.sys.parkedCount event + 1 := by
  obtain ⟨hth, hw⟩ := running_eq_some hrun
  exact countP_add_one h.nodup (h.mem t th hth) (parkedOn_of_no_wait hth hw event)
    (parkedOn_setThread_wait (List.mem_singleton_self _) rfl)
    (fun t' ht' => parkedOn_setThread_of_ne ht' ..)

theorem MutexInv.acquire (h : MutexInv event s) (hrun : s.running t = some th) :
    MutexInv event (acquire event s t th.ethread) := by
  obtain ⟨hth, hw⟩ := running_eq_some hrun
  by_cases hfree : s.mutex.count &&& fmLockBit = 0
  · by_cases hsize : s.mutex.eventSize = 0
    · have hacq : Sync.acquire event s t th.ethread =
          { sys := s.sys.initDispatcher event .eventSynchronization 0
            mutex := { owner := th.ethread, count := 0, eventSize := keventSize }
            holders := t :: s.holders } := by
        unfold Sync.acquire takeMutex
        rw [if_neg (fun hne => hne hfree), if_pos hsize]
        rfl
      rcases h.state with ⟨hh, hp, -⟩ | ⟨-, -, hne, -⟩
      · rw [hacq]
        refine ⟨h.nodup, h.mem, h.waits, fun _ => ?_, .inr ⟨t, ?_, ?_, ?_⟩⟩
        · simp only [initDispatcher, setObj, Function.update_self]
          exact ⟨trivial, trivial⟩
        · show t :: s.holders = [t]
          rw [hh]
        · exact (show keventSize ≠ 0 by decide)
        · have hsame : (s.sys.initDispatcher event .eventSynchronization 0).parkedCount event = 0 := hp
          dsimp only
          rw [hsame]
          rfl
      · exact absurd hsize hne
    · rw [acquire_held h hrun hfree hsize]
      refine ⟨h.nodup, fun t' th' ht' => ?_, fun t' th' w' ht' hw' => ?_, h.quiet, ?_⟩
      · by_cases ht : t' = t
        · rw [ht]
          exact h.mem t th hth
        · simp only [setThread, Function.update_of_ne ht] at ht'
          exact h.mem t' th' ht'
      · by_cases ht : t' = t
        · simp only [setThread, ht, Function.update_self] at ht'
          obtain rfl := Option.some.inj ht'
          obtain rfl := Option.some.inj hw'
          exact ⟨rfl, rfl, rfl⟩
        · simp only [setThread, Function.update_of_ne ht] at ht'
          exact h.waits t' th' w' ht' hw'
      · obtain ⟨t₀, ht₀⟩ := h.holder_of_busy hfree hsize
        obtain ⟨hh, -, hc⟩ := h.of_holder ht₀
        refine .inr ⟨t₀, hh, hsize, ?_⟩
        dsimp only
        rw [parkedCount_setThread h hrun, hc]
        apply BitVec.eq_of_toNat_eq
        rw [BitVec.toNat_add, BitVec.toNat_ofNat, BitVec.toNat_ofNat]
        show (_ + 4) % 2 ^ 32 = _
        omega
  · rw [acquire_free hfree]
    exact h.take hfree t th.ethread

theorem MutexInv.tryAcquire (h : MutexInv event s) (t : Tid) (self : Addr) :
    MutexInv event (tryAcquire s t self).1 := by
  unfold Sync.tryAcquire
  split
  · exact h
  · rename_i hfree
    exact h.take hfree t self

theorem MutexInv.ready_parkedOn (h : MutexInv event s) {now : Int} {r : State × Nat}
    (hr : s.sys.isReady t now = some r) (t' : Tid) : r.1.parkedOn event t' = s.sys.parkedOn event t' := by
  obtain ⟨th, w, hth, hw, heq, hcause⟩ := isReady_eq_some hr
  have hsat : w.satisfied = true := by
    rcases hcause with ⟨hsat, -⟩ | ⟨-, htimed, -⟩
    · exact hsat
    · rw [(h.waits t th w hth hw).2.2] at htimed
      cases htimed
  have hbefore : s.sys.parkedOn event t = false := by
    unfold parkedOn parked
    rw [hth]
    dsimp only
    rw [hw]
    dsimp only
    rw [if_pos hsat]
  rw [heq]
  by_cases ht : t' = t
  · rw [ht, hbefore]
    unfold parkedOn
    rw [parked_setThread_none]
  · exact parkedOn_setThread_of_ne ht ..

theorem MutexInv.ready (h : MutexInv event s) {now : Int} {r : State × Nat}
    (hr : s.sys.isReady t now = some r) : MutexInv event { s with sys := r.1 } := by
  obtain ⟨th, w, hth, hw, heq, -⟩ := isReady_eq_some hr
  have hsame : (s.sys.setThread t { th with wait := none }).parkedCount event =
      s.sys.parkedCount event := by
    refine @parkedCount_congr event s.sys (s.sys.setThread t { th with wait := none }) rfl fun t' => ?_
    rw [← h.ready_parkedOn hr t', heq]
  rw [heq]
  constructor
  · exact h.nodup
  · intro t' th' ht'
    by_cases ht : t' = t
    · rw [ht]
      exact h.mem t th hth
    · simp only [setThread, Function.update_of_ne ht] at ht'
      exact h.mem t' th' ht'
  · intro t' th' w' ht' hw'
    by_cases ht : t' = t
    · simp only [setThread, ht, Function.update_self] at ht'
      obtain rfl := Option.some.inj ht'
      cases hw'
    · simp only [setThread, Function.update_of_ne ht] at ht'
      exact h.waits t' th' w' ht' hw'
  · exact h.quiet
  · show (_ ∧ (s.sys.setThread t { th with wait := none }).parkedCount event = 0 ∧ _) ∨ _
    rw [hsame]
    exact h.state

theorem giveMutex_held {mutex : FastMutex} {n : Nat} (hn : n < 2 ^ 29)
    (hc : mutex.count = BitVec.ofNat 32 (4 * n)) : giveMutex mutex =
      if n = 0 then ({ mutex with owner := 0, count := fmLockBit }, false)
      else ({ mutex with owner := 0, count := BitVec.ofNat 32 (4 * (n - 1)) }, true) := by
  have hint : mutex.count.toInt = 4 * n := by
    rw [hc, BitVec.toInt_eq_toNat_of_lt]
    · rw [BitVec.toNat_ofNat]
      omega
    · rw [BitVec.toNat_ofNat]
      omega
  have hbit : mutex.count &&& fmLockBit = 0 := by
    rw [hc]
    exact lockBit_ofNat n
  unfold giveMutex
  dsimp only
  rw [if_neg (fun hne => hne hbit), hint]
  by_cases h0 : n = 0
  · rw [if_neg (by rw [h0]; decide), if_pos h0, hc, h0]
    rfl
  · have hle : fmWaiterIncrement.toInt ≤ 4 * (n : Int) := by
      show (4 : Int) ≤ 4 * n
      omega
    rw [if_pos hle, if_neg h0, hc]
    have hsub : BitVec.ofNat 32 (4 * n) - fmWaiterIncrement = BitVec.ofNat 32 (4 * (n - 1)) := by
      have hge : fmWaiterIncrement ≤ BitVec.ofNat 32 (4 * n) := by
        rw [BitVec.le_def, BitVec.toNat_ofNat]
        show 4 ≤ _
        omega
      apply BitVec.eq_of_toNat_eq
      rw [BitVec.toNat_sub_of_le hge, BitVec.toNat_ofNat, BitVec.toNat_ofNat]
      show _ - 4 = _
      omega
    rw [hsub]

theorem take_event {o : Object} {state : Int} (h : o.kind = .eventSynchronization) (self : Addr) :
    take { o with state } self = { o with state := 0 } := by
  unfold take
  simp only [h]

theorem wake_hands_over (h : MutexInv event s) (hsize : s.mutex.eventSize ≠ 0)
    (hpos : 0 < s.sys.parkedCount event) :
    ∃ t th w, s.sys.parked t = some (th, w) ∧ s.sys.parkedOn event t = true ∧
      (s.sys.setState event 1).wakeWaiters sysProc event =
        (s.sys.setState event 1).satisfy t th w [event] 0 := by
  obtain ⟨hk, -⟩ := h.quiet hsize
  have hobj : (s.sys.setState event 1).objs event = { s.sys.objs event with state := 1 } :=
    Function.update_self ..
  obtain ⟨t₀, ht₀, hp₀⟩ := List.countP_pos_iff.mp hpos
  cases hfind : (s.sys.tids sysProc).find? (s.sys.parkedOn event) with
  | none => exact absurd hp₀ (List.find?_eq_none.mp hfind t₀ ht₀)
  | some t =>
    obtain ⟨th, w, hp, -, hwalk⟩ := walk_first (s := s.sys.setState event 1) h.single
      (fun self => isSignalled_of_pos (by rw [hobj]; exact Int.one_pos) self)
      (fun self self' => by
        rw [hobj, take_event hk]
        exact not_isSignalled (le_refl (0 : Int)) (fun hm => by cases hk.symm.trans hm)) hfind
    exact ⟨t, th, w, hp, List.find?_some hfind, hwalk⟩

/-- A release that some wait for gives the mutex to one of them, and counts it no more. -/
theorem MutexInv.release_handed_eq (h : MutexInv event s) (hhold : t ∈ s.holders)
    (hpos : 0 < s.sys.parkedCount event) (hlt : s.sys.parkedCount event < 2 ^ 29) :
    ∃ t' th w, s.sys.parked t' = some (th, w) ∧ s.sys.parkedOn event t' = true ∧
      release event s t =
        { sys := (s.sys.setState event 1).satisfy t' th w [event] 0
          mutex := { s.mutex with owner := 0, count := BitVec.ofNat 32 (4 * (s.sys.parkedCount event - 1)) }
          holders := [t'] } := by
  obtain ⟨hh, hsize, hc⟩ := h.of_holder hhold
  obtain ⟨t', th, w, hp, hpt, hwake⟩ := wake_hands_over h hsize hpos
  obtain ⟨hth, hw, hsat⟩ := parked_eq_some.mp hp
  have hgive := giveMutex_held hlt hc
  rw [if_neg (by omega)] at hgive
  have hhanded : handed (s.sys.setState event 1)
      ((s.sys.setState event 1).satisfy t' th w [event] 0) = [t'] := by
    apply filter_eq_singleton h.nodup (h.mem t' th hth)
    intro t₁
    unfold State.released
    rw [satisfy_thread]
    by_cases ht₁ : t₁ = t'
    · rw [ht₁, Function.update_self]
      simp [setState, setObj, hth, hw, hsat]
    · rw [Function.update_of_ne ht₁]
      exact iff_of_false (by simp [setState, setObj]) ht₁
  refine ⟨t', th, w, hp, hpt, ?_⟩
  unfold release
  rw [hgive]
  dsimp only
  rw [if_pos rfl, hwake, hhanded, hh, List.erase_cons_head]
  rfl

theorem release_hands_over (h : MutexInv event s) (hhold : t ∈ s.holders)
    (hpos : 0 < s.sys.parkedCount event) (hlt : s.sys.parkedCount event < 2 ^ 29) :
    MutexInv event (release event s t) ∧
      ∃ t', s.sys.parkedOn event t' = true ∧ (release event s t).sys.parkedOn event t' = false ∧
        (release event s t).holders = [t'] ∧
        (release event s t).sys.parkedCount event + 1 = s.sys.parkedCount event := by
  obtain ⟨-, hsize, -⟩ := h.of_holder hhold
  obtain ⟨t', th', w, hp, hpt, hrel⟩ := h.release_handed_eq hhold hpos hlt
  obtain ⟨hth', hw', -⟩ := parked_eq_some.mp hp
  have hmem := h.mem t' th' hth'
  obtain ⟨ho, hall, htimed⟩ := h.waits t' th' w hth' hw'
  have hcount : s.sys.parkedCount event =
      ((s.sys.setState event 1).satisfy t' th' w [event] 0).parkedCount event + 1 := by
    apply countP_add_one h.nodup hmem
    · rw [parkedOn_satisfy, if_pos rfl]
    · exact hpt
    · intro t₁ ht₁
      rw [parkedOn_satisfy, if_neg ht₁]
      rfl
  rw [hrel]
  refine ⟨?_, t', hpt, ?_, rfl, hcount.symm⟩
  · constructor
    · exact h.nodup
    · intro t₁ th₁ ht₁
      by_cases hne : t₁ = t'
      · rw [hne]
        exact hmem
      · simp only [satisfy_thread, Function.update_of_ne hne] at ht₁
        exact h.mem t₁ th₁ ht₁
    · intro t₁ th₁ w₁ ht₁ hw₁
      by_cases hne : t₁ = t'
      · simp only [satisfy_thread, hne, Function.update_self] at ht₁
        obtain rfl := Option.some.inj ht₁
        obtain rfl := Option.some.inj hw₁
        exact ⟨ho, hall, htimed⟩
      · simp only [satisfy_thread, Function.update_of_ne hne] at ht₁
        exact h.waits t₁ th₁ w₁ ht₁ hw₁
    · intro _
      obtain ⟨hk, -⟩ := h.quiet hsize
      have hobj : (s.sys.setState event 1).objs event = { s.sys.objs event with state := 1 } :=
        Function.update_self ..
      rw [satisfy_objs, takeAll_cons, takeAll_nil, Function.update_self, hobj, take_event hk]
      exact ⟨hk, rfl⟩
    · refine .inr ⟨t', rfl, hsize, ?_⟩
      show BitVec.ofNat 32 (4 * (s.sys.parkedCount event - 1)) = BitVec.ofNat 32 (4 * _)
      rw [hcount, Nat.add_sub_cancel]
  · rw [parkedOn_satisfy, if_pos rfl]

theorem MutexInv.release_free_eq (h : MutexInv event s) (hhold : t ∈ s.holders)
    (hzero : s.sys.parkedCount event = 0) :
    s.mutex.eventSize ≠ 0 ∧ release event s t =
      { s with mutex := { s.mutex with owner := 0, count := fmLockBit }, holders := [] } := by
  obtain ⟨hh, hsize, hc⟩ := h.of_holder hhold
  have hgive := giveMutex_held (by omega) hc
  rw [if_pos hzero] at hgive
  refine ⟨hsize, ?_⟩
  unfold release
  rw [hgive]
  dsimp only
  rw [if_neg (by simp), hh, List.erase_cons_head]

theorem MutexInv.release_free (h : MutexInv event s) (hhold : t ∈ s.holders)
    (hzero : s.sys.parkedCount event = 0) : MutexInv event (release event s t) := by
  obtain ⟨hsize, hrel⟩ := h.release_free_eq hhold hzero
  rw [hrel]
  exact h.of_mutex rfl rfl (.inl ⟨rfl, hzero, .inl ⟨rfl, hsize⟩⟩)

theorem parkedCount_lt (h : MutexInv event s) (hrun : s.running t = some th) :
    s.sys.parkedCount event < (s.sys.tids sysProc).length := by
  obtain ⟨hth, hw⟩ := running_eq_some hrun
  refine lt_of_le_of_ne List.countP_le_length fun heq => ?_
  have hall := List.countP_eq_length.mp heq t (h.mem t th hth)
  rw [parkedOn_of_no_wait hth hw] at hall
  cases hall

theorem mutexInv_step {action : MutexAction} (h : MutexInv event s)
    (hlen : (s.sys.tids sysProc).length ≤ 2 ^ 29) (hstep : mutexStep event s action = some s') :
    MutexInv event s' := by
  cases action with
  | acquire t =>
    obtain ⟨th, hrun, rfl⟩ := Option.map_eq_some_iff.mp hstep
    exact h.acquire hrun
  | tryAcquire t =>
    obtain ⟨th, -, rfl⟩ := Option.map_eq_some_iff.mp hstep
    exact h.tryAcquire t th.ethread
  | release t =>
    obtain ⟨th, hrun, hstep⟩ := Option.bind_eq_some_iff.mp hstep
    split at hstep
    · rename_i hhold
      obtain rfl := Option.some.inj hstep
      rcases Nat.eq_zero_or_pos (s.sys.parkedCount event) with hzero | hpos
      · exact h.release_free hhold hzero
      · exact (release_hands_over h hhold hpos
          (lt_of_lt_of_le (parkedCount_lt h hrun) hlen)).1
    · cases hstep
  | ready t now =>
    obtain ⟨r, hr, rfl⟩ := Option.map_eq_some_iff.mp hstep
    exact h.ready hr

theorem stable_tids (tids : Pid → List Tid) : Stable fun s => s.tids = tids := fun _ _ _ _ _ h _ _ => h

theorem takeMutex_tids (event : Addr) (s : MutexState) (t : Tid) :
    (takeMutex event s t).1.sys.tids = s.sys.tids := by
  unfold takeMutex
  split
  · rfl
  · split
    · rfl
    · show (s.sys.beginWait t _).tids = s.sys.tids
      cases hth : s.sys.thread t with
      | none =>
        unfold beginWait
        rw [hth]
      | some th =>
        exact (stable_tids s.sys.tids).beginWait hth rfl

theorem mutexStep_tids {action : MutexAction} (hstep : mutexStep event s action = some s') :
    s'.sys.tids = s.sys.tids := by
  cases action with
  | acquire t =>
    obtain ⟨th, -, rfl⟩ := Option.map_eq_some_iff.mp hstep
    exact takeMutex_tids event s t
  | tryAcquire t =>
    obtain ⟨th, -, rfl⟩ := Option.map_eq_some_iff.mp hstep
    unfold tryAcquire
    split <;> rfl
  | release t =>
    obtain ⟨th, -, hstep⟩ := Option.bind_eq_some_iff.mp hstep
    split at hstep
    · obtain rfl := Option.some.inj hstep
      unfold release
      dsimp only
      split
      · exact @Stable.wakeWaiters _ (stable_tids s.sys.tids) (s.sys.setState event 1) rfl sysProc event
      · rfl
    · cases hstep
  | ready t now =>
    obtain ⟨r, hr, rfl⟩ := Option.map_eq_some_iff.mp hstep
    obtain ⟨th, w, -, -, heq, -⟩ := isReady_eq_some hr
    rw [heq]
    rfl

/-- A mutex that has been initialised, or memory that nobody has touched, before any thread has used it. -/
structure MutexStart (event : Addr) (s : MutexState) : Prop where
  nodup : (s.sys.tids sysProc).Nodup
  mem : ∀ t th, s.sys.thread t = some th → t ∈ s.sys.tids sysProc
  waits : ∀ t th, s.sys.thread t = some th → th.wait = none
  holders : s.holders = []
  mutex : (∃ s₀, s = keInitializeGuardedMutex event s₀) ∨ s.mutex.count = 0 ∧ s.mutex.eventSize = 0

theorem MutexStart.inv (h : MutexStart event s) : MutexInv event s := by
  have hparked : s.sys.parkedCount event = 0 := by
    refine List.countP_eq_zero.mpr fun t _ hp => ?_
    obtain ⟨th, w, hpark, -⟩ := parkedOn_eq_true.mp hp
    obtain ⟨hth, hw, -⟩ := parked_eq_some.mp hpark
    rw [h.waits t th hth] at hw
    cases hw
  refine ⟨h.nodup, h.mem, fun t th w hth hw => ?_, fun hsize => ?_, .inl ⟨h.holders, hparked, ?_⟩⟩
  · rw [h.waits t th hth] at hw
    cases hw
  · rcases h.mutex with ⟨s₀, rfl⟩ | ⟨-, hzero⟩
    · simp only [keInitializeGuardedMutex, initDispatcher, setObj, Function.update_self]
      exact ⟨trivial, trivial⟩
    · exact absurd hzero hsize
  · rcases h.mutex with ⟨s₀, rfl⟩ | hzero
    · exact .inl ⟨rfl, (show keventSize ≠ 0 by decide)⟩
    · exact .inr hzero

/-- A release while some wait hands the mutex to exactly one of them. -/
def HandsOver (event : Addr) (s : MutexState) : Prop :=
  ∀ t s', mutexStep event s (.release t) = some s' → 0 < s.sys.parkedCount event →
    ∃ t', s.sys.parkedOn event t' = true ∧ s'.sys.parkedOn event t' = false ∧ s'.holders = [t'] ∧
      s'.sys.parkedCount event + 1 = s.sys.parkedCount event

theorem MutexInv.handsOver (h : MutexInv event s) (hlen : (s.sys.tids sysProc).length ≤ 2 ^ 29) :
    HandsOver event s := by
  intro t s' hstep hpos
  obtain ⟨th, hrun, hstep⟩ := Option.bind_eq_some_iff.mp hstep
  split at hstep
  · rename_i hhold
    obtain rfl := Option.some.inj hstep
    exact (release_hands_over h hhold hpos (lt_of_lt_of_le (parkedCount_lt h hrun) hlen)).2
  · cases hstep

/-- **Fast mutexes.** In every state of a run one thread at most holds the mutex, `Count` tells how many wait, nobody
waits for a free mutex, and a release hands it over. There are never more than `2 ^ 29` threads: each has frames of its
own for its stack and its ETHREAD, of the `2 ^ 20` that guest memory has. -/
theorem mutexOk_of_run {actions : List MutexAction} (hstart : MutexStart event s)
    (hlen : (s.sys.tids sysProc).length ≤ 2 ^ 29)
    (hrun : Run.Steps (mutexStep event) (fun _ _ => True) s actions s') :
    MutexOk event s' ∧ HandsOver event s' := by
  obtain ⟨hinv, htids⟩ := hrun.invariant (P := fun s₁ => MutexInv event s₁ ∧ s₁.sys.tids = s.sys.tids)
    (fun s₁ action s₂ h _ hstep =>
      ⟨mutexInv_step h.1 (by rw [h.2]; exact hlen) hstep, (mutexStep_tids hstep).trans h.2⟩)
    ⟨hstart.inv, rfl⟩
  have hlen' : (s'.sys.tids sysProc).length ≤ 2 ^ 29 := by
    rw [htids]
    exact hlen
  have hle : s'.sys.parkedCount event ≤ (s'.sys.tids sysProc).length := List.countP_le_length
  exact ⟨hinv.ok (by omega), hinv.handsOver hlen'⟩

/-! ## Two threads -/

def crowd (n : Nat) : MutexState :=
  keInitializeGuardedMutex 0x1000
    { sys :=
        { objs := fun _ => { kind := .thread, state := 0 }
          thread := fun t => if t < n then some { ethread := 0x2000 + t } else none
          tids := fun p => if p = sysProc then List.range n else [] }
      mutex := { count := 0, eventSize := 0 } }

theorem crowd_thread {n : Nat} (h : t < n) :
    (crowd n).sys.thread t = some { ethread := 0x2000 + t } := if_pos h

theorem crowd_start (n : Nat) : MutexStart 0x1000 (crowd n) := by
  have hth : ∀ t th, (crowd n).sys.thread t = some th → t < n ∧ th = { ethread := 0x2000 + t } := by
    intro t th h
    by_cases ht : t < n
    · rw [crowd_thread ht] at h
      exact ⟨ht, (Option.some.inj h).symm⟩
    · rw [show (crowd n).sys.thread t = none from if_neg ht] at h
      cases h
  refine ⟨List.nodup_range, fun t th h => List.mem_range.mpr (hth t th h).1, fun t th h => ?_, rfl,
    .inl ⟨_, rfl⟩⟩
  rw [(hth t th h).2]

/-- Two threads: the one that holds the mutex hands it to the other. -/
theorem mutexOk_of_run_two :
    ∃ s', Run.Steps (mutexStep 0x1000) (fun _ _ => True) (crowd 2)
        [.acquire 0, .acquire 1, .tryAcquire 0, .release 0, .ready 1 0] s' ∧
      s'.holders = [1] ∧ MutexOk 0x1000 s' ∧ HandsOver 0x1000 s' := by
  have hfacts : ((Run.exec (mutexStep 0x1000) (fun _ _ => true) (crowd 2)
      [.acquire 0, .acquire 1, .tryAcquire 0, .release 0, .ready 1 0]).map fun s => s.holders) =
      some [1] := by
    decide +kernel
  obtain ⟨s', hexec, hh⟩ := Option.map_eq_some_iff.mp hfacts
  have hrun := Run.Steps.of_exec (fun _ _ _ => trivial) hexec
  exact ⟨s', hrun, hh, mutexOk_of_run (crowd_start 2) (by decide) hrun⟩

end Kernemul.Sync
