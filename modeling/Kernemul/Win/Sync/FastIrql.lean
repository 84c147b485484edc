import Kernemul.Kernel.Irql
import Kernemul.Win.Sync.FastMutex

/-!
# The IRQL of a fast mutex

`ExAcquireFastMutex` leaves the level it found in `OldIrql` of the mutex, and itself in `Owner`, also when it has to
wait: then both are of a thread that does not hold the mutex, and the holder's release goes by them. A release clears
`Owner` when it hands the mutex over.
-/

namespace Kernemul.Sync

open State

/-- The level that a release has put back, and the one that the thread's acquire had found. -/
structure Restored where
  level : Irql.Level
  found : Irql.Level
  deriving DecidableEq, Repr

/-- A mutex with its `OldIrql`. `found` is the level that a thread's last acquire found; it and `restored` are not in
the source. -/
structure IrqlMutex extends MutexState where
  oldIrql : Irql.Level := Irql.passiveLevel
  found : Tid → Irql.Level := fun _ => Irql.passiveLevel
  restored : List Restored := []

/-- `irql` is the level of the cpu that the handler runs on. -/
inductive IrqlAction
  | acquire (t : Tid) (irql : Irql.Level)
  | tryAcquire (t : Tid) (irql : Irql.Level)
  | release (t : Tid)
  | ready (t : Tid) (now : Int)
  deriving DecidableEq, Repr

def IrqlAction.mutex : IrqlAction → MutexAction
  | .acquire t _ => .acquire t
  | .tryAcquire t _ => .tryAcquire t
  | .release t => .release t
  | .ready t now => .ready t now

/-- What the handlers do besides: an acquire leaves the level it found, and a release goes to the level that is left. -/
def IrqlMutex.record (s : IrqlMutex) (m : MutexState) : IrqlAction → IrqlMutex
  | .acquire t irql => { s with toMutexState := m, oldIrql := irql, found := Function.update s.found t irql }
  | .tryAcquire t irql =>
    if s.mutex.count &&& fmLockBit = 0 then { s with toMutexState := m }
    else { s with toMutexState := m, oldIrql := irql, found := Function.update s.found t irql }
  | .release t => { s with toMutexState := m, restored := ⟨s.oldIrql, s.found t⟩ :: s.restored }
  | .ready _ _ => { s with toMutexState := m }

section
variable (event : Addr)

def irqlStep (s : IrqlMutex) (action : IrqlAction) : Option IrqlMutex :=
  (mutexStep event s.toMutexState action.mutex).map fun m => s.record m action

end

def State.ethreadOf (s : State) (t : Tid) : Option Addr := (s.thread t).map Thread.ethread

/-- Every release has put back what its thread's acquire found, and `Owner` names the holder. -/
structure IrqlOk (s : IrqlMutex) : Prop where
  restores : ∀ r ∈ s.restored, r.level = r.found
  owner : ∀ t ∈ s.holders, s.sys.ethreadOf t = some s.mutex.owner

/-- An acquire finds the mutex free, or memory that no initialiser has touched, unless the thread that makes it holds
the mutex already. -/
def FindsFree (s : IrqlMutex) : IrqlAction → Prop
  | .acquire t _ => s.mutex.count &&& fmLockBit ≠ 0 ∨ s.mutex.eventSize = 0 ∨ t ∈ s.holders
  | _ => True

instance {s : IrqlMutex} : (action : IrqlAction) → Decidable (FindsFree s action)
  | .acquire t _ =>
    inferInstanceAs (Decidable (s.mutex.count &&& fmLockBit ≠ 0 ∨ s.mutex.eventSize = 0 ∨ t ∈ s.holders))
  | .tryAcquire _ _ | .release _ | .ready _ _ => .isTrue trivial

def State.Distinct (s : State) : Prop := ∀ t t' e, s.ethreadOf t = some e → s.ethreadOf t' = some e → t = t'

/-- While all is well nobody waits but a holder for itself, and `OldIrql` is the holder's. -/
structure Held (event : Addr) (s : IrqlMutex) : Prop where
  inv : MutexInv event s.toMutexState
  distinct : s.sys.Distinct
  alone : ∀ t, s.sys.parkedOn event t = true → t ∈ s.holders
  oldIrql : ∀ t ∈ s.holders, s.sys.parkedOn event t = false → s.oldIrql = s.found t

variable {event : Addr} {s s' : IrqlMutex}

variable {t : Tid} {th : Thread}

theorem State.ethreadOf_setThread {s : State} (hth : s.thread t = some th) (w : Option Wait)
    (t' : Tid) : (s.setThread t { th with wait := w }).ethreadOf t' = s.ethreadOf t' := by
  unfold ethreadOf
  by_cases ht : t' = t
  · subst ht
    simp [setThread, hth]
  · simp [setThread, ht]

/-- A thread that holds the mutex when nobody waits, having found this level. -/
theorem Held.of_taken {m : MutexState} {t : Tid} {irql : Irql.Level} (h : Held event s)
    (hinv : MutexInv event m) (hthread : m.sys.thread = s.sys.thread) (hfree : s.holders = [])
    (hholders : m.holders = [t]) (howner : s.sys.ethreadOf t = some m.mutex.owner) (hok : IrqlOk s) :
    let s' : IrqlMutex := { s with toMutexState := m, oldIrql := irql, found := Function.update s.found t irql }
    IrqlOk s' ∧ Held event s' := by
  have hethread : ∀ t', m.sys.ethreadOf t' = s.sys.ethreadOf t' := fun t' => by
    unfold State.ethreadOf
    rw [hthread]
  have hparked : ∀ t', m.sys.parkedOn event t' = s.sys.parkedOn event t' := fun t' => by
    unfold State.parkedOn State.parked
    rw [hthread]
  refine ⟨⟨hok.restores, fun t' ht' => ?_⟩, ⟨hinv, fun t₁ t₂ e h₁ h₂ => ?_, fun t' ht' => ?_, fun t' ht' _ => ?_⟩⟩
  · obtain rfl : t' = t := by simpa [hholders] using ht'
    exact (hethread t').trans howner
  · exact h.distinct t₁ t₂ e ((hethread t₁).symm.trans h₁) ((hethread t₂).symm.trans h₂)
  · have hmem := h.alone t' ((hparked t').symm.trans ht')
    rw [hfree] at hmem
    cases hmem
  · obtain rfl : t' = t := by simpa [hholders] using ht'
    exact (Function.update_self t' irql s.found).symm

theorem ethreadOf_of_running {m : MutexState} (hrun : m.running t = some th) :
    m.sys.ethreadOf t = some th.ethread := by
  unfold State.ethreadOf
  rw [(running_eq_some hrun).1]
  rfl

theorem MutexInv.holders_of_free {m : MutexState} (h : MutexInv event m)
    (hfree : m.mutex.count &&& fmLockBit ≠ 0 ∨ m.mutex.eventSize = 0) : m.holders = [] := by
  rcases h.state with ⟨hh, -⟩ | ⟨t, -, hsize, hc⟩
  · exact hh
  · rw [hc, lockBit_ofNat] at hfree
    rcases hfree with hne | hzero
    · exact absurd rfl hne
    · exact absurd hzero hsize

/-- Who finds the mutex held puts itself down as the owner, and waits: all is well only if it is the holder. -/
theorem Held.acquire_busy {t : Tid} {irql : Irql.Level} {th : Thread} (h : Held event s) (hok : IrqlOk s)
    (hrun : s.running t = some th) (hfree : s.mutex.count &&& fmLockBit = 0) (hsize : s.mutex.eventSize ≠ 0) :
    let s' := s.record (Sync.acquire event s.toMutexState t th.ethread) (.acquire t irql)
    (t ∈ s.holders ↔ IrqlOk s') ∧ (IrqlOk s' → Held event s') := by
  have hself := ethreadOf_of_running hrun
  have hheld := acquire_held h.inv hrun hfree hsize
  obtain ⟨hth, -⟩ := running_eq_some hrun
  obtain ⟨t₀, ht₀⟩ := h.inv.holder_of_busy hfree hsize
  have hh := (h.inv.of_holder ht₀).1
  intro s'
  have hethread : ∀ t', s'.sys.ethreadOf t' = s.sys.ethreadOf t' := by
    intro t'
    show (Sync.acquire event s.toMutexState t th.ethread).sys.ethreadOf t' = _
    rw [hheld]
    exact State.ethreadOf_setThread hth _ t'
  have hholders : s'.holders = s.holders := by
    show (Sync.acquire event s.toMutexState t th.ethread).holders = _
    rw [hheld]
  have howner : s'.mutex.owner = th.ethread := by
    show (Sync.acquire event s.toMutexState t th.ethread).mutex.owner = _
    rw [hheld]
  have hiff : t ∈ s.holders ↔ IrqlOk s' := by
    constructor
    · intro ht
      refine ⟨hok.restores, fun t' ht' => ?_⟩
      rw [hholders, (h.inv.of_holder ht).1] at ht'
      rw [List.mem_singleton.mp ht', hethread, howner]
      exact hself
    · intro hok'
      have hname := hok'.owner t₀ (by rw [hholders]; exact ht₀)
      rw [hethread, howner] at hname
      rw [h.distinct t t₀ _ hself hname]
      exact ht₀
  refine ⟨hiff, fun hok' => ?_⟩
  have ht := hiff.mpr hok'
  have hparked : ∀ t', t' ≠ t → s'.sys.parkedOn event t' = s.sys.parkedOn event t' := by
    intro t' ht'
    show (Sync.acquire event s.toMutexState t th.ethread).sys.parkedOn event t' = _
    rw [hheld]
    exact parkedOn_setThread_of_ne ht' ..
  have hself' : s'.sys.parkedOn event t = true := by
    show (Sync.acquire event s.toMutexState t th.ethread).sys.parkedOn event t = true
    rw [hheld]
    exact parkedOn_setThread_wait (List.mem_singleton_self _) rfl
  refine ⟨h.inv.acquire hrun, fun t₁ t₂ e h₁ h₂ => ?_, fun t' ht' => ?_, fun t' ht' hno => ?_⟩
  · exact h.distinct t₁ t₂ e ((hethread t₁).symm.trans h₁) ((hethread t₂).symm.trans h₂)
  · rw [hholders]
    by_cases hne : t' = t
    · rw [hne]
      exact ht
    · exact h.alone t' ((hparked t' hne).symm.trans ht')
  · rw [hholders, (h.inv.of_holder ht).1] at ht'
    rw [List.mem_singleton.mp ht', hself'] at hno
    cases hno

theorem Held.acquire {irql : Irql.Level} (h : Held event s) (hok : IrqlOk s) (hrun : s.running t = some th) :
    let s' := s.record (Sync.acquire event s.toMutexState t th.ethread) (.acquire t irql)
    (FindsFree s (.acquire t irql) ↔ IrqlOk s') ∧ (IrqlOk s' → Held event s') := by
  have hself := ethreadOf_of_running hrun
  have hinv := h.inv.acquire hrun
  by_cases hfree : s.mutex.count &&& fmLockBit = 0
  · by_cases hsize : s.mutex.eventSize = 0
    · have hnone := h.inv.holders_of_free (.inr hsize)
      have htaken := @Held.of_taken event s (Sync.acquire event s.toMutexState t th.ethread) t irql h hinv
        (by unfold Sync.acquire takeMutex; rw [if_neg (fun hne => hne hfree), if_pos hsize]; rfl) hnone
        (by unfold Sync.acquire takeMutex; rw [if_neg (fun hne => hne hfree), if_pos hsize, hnone]; rfl)
        hself hok
      exact ⟨⟨fun _ => htaken.1, fun _ => .inr (.inl hsize)⟩, fun _ => htaken.2⟩
    · obtain ⟨hiff, hheld⟩ := @Held.acquire_busy event s t irql th h hok hrun hfree hsize
      refine ⟨Iff.trans ⟨fun hor => ?_, fun ht => .inr (.inr ht)⟩ hiff, hheld⟩
      exact (hor.resolve_left fun hne => hne hfree).resolve_left hsize
  · have hnone := h.inv.holders_of_free (.inl hfree)
    have hacq := @acquire_free event s.toMutexState hfree t th.ethread
    have htaken := @Held.of_taken event s (Sync.acquire event s.toMutexState t th.ethread) t irql h hinv
      (by rw [hacq]; rfl) hnone (by rw [hacq, hnone]; rfl) (by rw [hacq]; exact hself) hok
    exact ⟨⟨fun _ => htaken.1, fun _ => .inl hfree⟩, fun _ => htaken.2⟩

theorem Held.tryAcquire (h : Held event s) (irql : Irql.Level) (hok : IrqlOk s) (hrun : s.running t = some th) :
    let s' := s.record (tryAcquire s.toMutexState t th.ethread).1 (.tryAcquire t irql)
    IrqlOk s' ∧ Held event s' := by
  have hself := ethreadOf_of_running hrun
  have hinv := h.inv.tryAcquire t th.ethread
  unfold IrqlMutex.record
  by_cases hfree : s.mutex.count &&& fmLockBit = 0
  · have hsame : (Sync.tryAcquire s.toMutexState t th.ethread).1 = s.toMutexState := by
      unfold Sync.tryAcquire
      rw [if_pos hfree]
    simp only [hfree, if_true, hsame]
    exact ⟨hok, h⟩
  · have hnone := h.inv.holders_of_free (.inl hfree)
    have htake : (Sync.tryAcquire s.toMutexState t th.ethread).1 = ownMutex { s.toMutexState with
        mutex := { s.mutex with count := s.mutex.count &&& ~~~fmLockBit }
        holders := t :: s.holders } th.ethread := by
      unfold Sync.tryAcquire
      rw [if_neg hfree]
    simp only [hfree, if_false]
    exact Held.of_taken h hinv (by rw [htake]; rfl) hnone (by rw [htake, hnone]; rfl) (by rw [htake]; exact hself) hok

/-- While nobody else waits, a release is by a thread that the level in the mutex is of. -/
theorem Held.release (h : Held event s) (hok : IrqlOk s) (hrun : s.running t = some th) (hhold : t ∈ s.holders) :
    let s' := s.record (release event s.toMutexState t) (.release t)
    IrqlOk s' ∧ Held event s' := by
  obtain ⟨hth, hw⟩ := running_eq_some hrun
  have hrunning := parkedOn_of_no_wait hth hw event
  have hone := (h.inv.of_holder hhold).1
  have hzero : s.sys.parkedCount event = 0 := by
    refine List.countP_eq_zero.mpr fun t' _ hp => ?_
    obtain rfl : t' = t := by simpa [hone] using h.alone t' hp
    rw [hrunning] at hp
    cases hp
  have hrel := (h.inv.release_free_eq hhold hzero).2
  have hsys : (Sync.release event s.toMutexState t).sys = s.sys := by rw [hrel]
  have hnone : (Sync.release event s.toMutexState t).holders = [] := by rw [hrel]
  have hparked : ∀ t', s.sys.parkedOn event t' = false := fun t' =>
    Bool.eq_false_iff.mpr fun hp => by
      obtain rfl : t' = t := by simpa [hone] using h.alone t' hp
      rw [hrunning] at hp
      cases hp
  refine ⟨⟨?_, ?_⟩, ⟨h.inv.release_free hhold hzero, ?_, ?_, ?_⟩⟩
  · rintro r (_ | ⟨_, hr⟩)
    · exact h.oldIrql t hhold hrunning
    · exact hok.restores r hr
  · intro t' ht'
    simp [IrqlMutex.record, hnone] at ht'
  · simpa [IrqlMutex.record, hsys] using h.distinct
  · intro t' ht'
    simp [IrqlMutex.record, hsys, hparked t'] at ht'
  · intro t' ht'
    simp [IrqlMutex.record, hnone] at ht'

theorem Held.ready {now : Int} {r : State × Nat} (h : Held event s) (hok : IrqlOk s)
    (hr : s.sys.isReady t now = some r) :
    let s' := s.record { s.toMutexState with sys := r.1 } (.ready t now)
    IrqlOk s' ∧ Held event s' := by
  obtain ⟨th, w, hth, -, heq, -⟩ := isReady_eq_some hr
  have hethread : ∀ t', r.1.ethreadOf t' = s.sys.ethreadOf t' := by
    intro t'
    rw [heq]
    exact State.ethreadOf_setThread hth none t'
  have hparked := h.inv.ready_parkedOn hr
  refine ⟨⟨hok.restores, fun t' ht' => ?_⟩,
    ⟨h.inv.ready hr, fun t₁ t₂ e h₁ h₂ => ?_, fun t' ht' => ?_, fun t' ht' hno => ?_⟩⟩
  · exact (hethread t').trans (hok.owner t' ht')
  · exact h.distinct t₁ t₂ e ((hethread t₁).symm.trans h₁) ((hethread t₂).symm.trans h₂)
  · exact h.alone t' ((hparked t').symm.trans ht')
  · exact h.oldIrql t' ht' ((hparked t').symm.trans hno)

/-- A step keeps the discipline exactly where an acquire finds the mutex free, and then all that goes with it. -/
theorem Held.step {action : IrqlAction} (h : Held event s) (hok : IrqlOk s)
    (hstep : irqlStep event s action = some s') :
    (FindsFree s action ↔ IrqlOk s') ∧ (IrqlOk s' → Held event s') := by
  obtain ⟨m, hm, rfl⟩ := Option.map_eq_some_iff.mp hstep
  cases action with
  | acquire t irql =>
    obtain ⟨th, hrun, rfl⟩ := Option.map_eq_some_iff.mp hm
    exact h.acquire hok hrun
  | tryAcquire t irql =>
    obtain ⟨th, hrun, rfl⟩ := Option.map_eq_some_iff.mp hm
    obtain ⟨hok', hheld⟩ := h.tryAcquire irql hok hrun
    exact ⟨⟨fun _ => hok', fun _ => trivial⟩, fun _ => hheld⟩
  | release t =>
    obtain ⟨th, hrun, hm⟩ := Option.bind_eq_some_iff.mp hm
    split at hm
    · rename_i hhold
      obtain rfl := Option.some.inj hm
      obtain ⟨hok', hheld⟩ := h.release hok hrun hhold
      exact ⟨⟨fun _ => hok', fun _ => trivial⟩, fun _ => hheld⟩
    · cases hm
  | ready t now =>
    obtain ⟨r, hr, rfl⟩ := Option.map_eq_some_iff.mp hm
    obtain ⟨hok', hheld⟩ := h.ready hok hr
    exact ⟨⟨fun _ => hok', fun _ => trivial⟩, fun _ => hheld⟩

structure IrqlStart (event : Addr) (s : IrqlMutex) : Prop where
  mutex : MutexStart event s.toMutexState
  distinct : s.sys.Distinct
  restored : s.restored = []

theorem IrqlStart.held (h : IrqlStart event s) : IrqlOk s ∧ Held event s := by
  have hinv := h.mutex.inv
  have hnone := h.mutex.holders
  refine ⟨⟨?_, ?_⟩, ⟨hinv, h.distinct, fun t ht => ?_, ?_⟩⟩
  · simp [h.restored]
  · simp [hnone]
  · obtain ⟨th, w, hpark, -⟩ := parkedOn_eq_true.mp ht
    obtain ⟨hth, hw, -⟩ := parked_eq_some.mp hpark
    rw [h.mutex.waits t th hth] at hw
    cases hw
  · simp [hnone]

/-- **The discipline of the IRQL** holds in every state of exactly the runs in which no acquire has to wait for another
thread. -/
theorem irqlOk_iff {actions : List IrqlAction} (hstart : IrqlStart event s)
    (hrun : Run.Steps (irqlStep event) (fun _ _ => True) s actions s') :
    Run.Steps (irqlStep event) FindsFree s actions s' ↔
      ∀ first s₁, first <+: actions → Run.Steps (irqlStep event) (fun _ _ => True) s first s₁ → IrqlOk s₁ :=
  hrun.allowed_iff_always (fun _ _ _ hheld hok _ hstep hok' => (hheld.step hok hstep).2 hok')
    (fun _ _ _ hheld hok _ hstep => (hheld.step hok hstep).1) hstart.held.2 hstart.held.1

/-! ## Two threads -/

theorem irqlStart_crowd (n : Nat) : IrqlStart 0x1000 { toMutexState := crowd n } where
  mutex := crowd_start n
  distinct t t' e ht ht' := by
    have hname : ∀ t e, (crowd n).sys.ethreadOf t = some e → e = 0x2000 + t := by
      intro t e he
      by_cases hlt : t < n
      · rw [State.ethreadOf, crowd_thread hlt] at he
        exact (Option.some.inj he).symm
      · rw [State.ethreadOf, show (crowd n).sys.thread t = none from if_neg hlt] at he
        cases he
    have heq := (hname t e ht).symm.trans (hname t' e ht')
    exact Nat.add_left_cancel heq
  restored := rfl

/-- A thread at `PASSIVE_LEVEL` takes the mutex and releases it; one at `APC_LEVEL` asks for it in between. -/
def asksBetween : List IrqlAction := [.acquire 0 0, .acquire 1 1, .release 0]

theorem asksBetween_spoils : ¬ ∀ event s actions s', IrqlStart event s →
    Run.Steps (irqlStep event) (fun _ _ => True) s actions s' → IrqlOk s' := by
  intro hall
  have hexec : (Run.exec (irqlStep 0x1000) (fun _ _ => true) { toMutexState := crowd 2 } asksBetween).map
      (fun s => s.restored) = some [⟨1, 0⟩] := by decide +kernel
  obtain ⟨s, hs, hrestored⟩ := Option.map_eq_some_iff.mp hexec
  have hrun : Run.Steps (irqlStep 0x1000) (fun _ _ => True) { toMutexState := crowd 2 } asksBetween s :=
    Run.Steps.of_exec (fun _ _ _ => trivial) hs
  have hok := (hall _ _ _ s (irqlStart_crowd 2) hrun).restores ⟨1, 0⟩
    (by rw [hrestored]; exact List.mem_singleton_self _)
  exact absurd hok (by decide)

def asksAfter : List IrqlAction := [.acquire 0 0, .release 0, .acquire 1 1, .tryAcquire 0 0, .release 1]

theorem asksAfter_ok :
    ∃ s, Run.Steps (irqlStep 0x1000) FindsFree { toMutexState := crowd 2 } asksAfter s ∧
      s.restored = [⟨1, 1⟩, ⟨0, 0⟩] ∧ IrqlOk s := by
  have hexec : (Run.exec (irqlStep 0x1000) (fun s a => decide (FindsFree s a)) { toMutexState := crowd 2 }
      asksAfter).map (fun s => s.restored) = some [⟨1, 1⟩, ⟨0, 0⟩] := by decide +kernel
  obtain ⟨s, hs, hrestored⟩ := Option.map_eq_some_iff.mp hexec
  have hrun : Run.Steps (irqlStep 0x1000) FindsFree { toMutexState := crowd 2 } asksAfter s :=
    Run.Steps.of_exec (fun _ _ => of_decide_eq_true) hs
  have hany : Run.Steps (irqlStep 0x1000) (fun _ _ => True) { toMutexState := crowd 2 } asksAfter s :=
    hrun.mono fun _ _ _ => trivial
  exact ⟨s, hrun, hrestored, (irqlOk_iff (irqlStart_crowd 2) hany).mp hrun _ s (List.prefix_refl _) hany⟩

end Kernemul.Sync
