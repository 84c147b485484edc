import Kernemul.Kernel.Scheduler

/-!
# The IRQL (`windows_emulator::set_irql`, the handlers of `nt_irql_ops`)

The level is a field of the KPCR of the cpu, mirrored in `cr8`. Neither is in the register list that `save`
and `restore` carry, so a thread that is taken finds the level that the cpu was left at by another one, or by
itself before it moved to another cpu.

Every cpu has its KPCR. `level` and `leftAt` are not in the source: the level that a thread last set, and the
one in the KPCR of the cpu that last switched it out, at that time.
-/

namespace Kernemul.Irql

open Sched (ThreadId CpuId Phase Placed)

abbrev Level := UInt8

def passiveLevel : Level := 0
def dispatchLevel : Level := 2

structure State where
  sched : Sched.State
  /-- `KPCR.Irql`. -/
  pcrIrql : CpuId → Level := fun _ => passiveLevel
  cr8 : CpuId → Level := fun _ => passiveLevel
  level : ThreadId → Level := fun _ => passiveLevel
  leftAt : ThreadId → Level := fun _ => passiveLevel

def State.irql (s : State) (c : CpuId) : Level := s.pcrIrql c

/-- `windows_emulator::set_irql`, called by thread `self`. -/
def State.setIrql (s : State) (c : CpuId) (self : ThreadId) (new : Level) : State :=
  { s with
    pcrIrql := Function.update s.pcrIrql c new
    cr8 := Function.update s.cr8 c new
    level := Function.update s.level self new }

inductive Handler
  | keGetCurrentIrql
  | keRaiseIrql (new : Level)
  | kfRaiseIrql (new : Level)
  | keLowerIrql (new : Level)
  | kfLowerIrql (new : Level)
  | keRaiseIrqlToDpcLevel
  | keRaiseIrqlToSynchLevel
  | keAcquireSpinLockRaiseToDpc (lock : Nat)
  | keReleaseSpinLock (lock : Nat) (new : Level)
  | keAcquireSpinLockAtDpcLevel (lock : Nat)
  | keReleaseSpinLockFromDpcLevel (lock : Nat)
  | exAcquireSpinLockShared (lock : Nat)
  | exAcquireSpinLockExclusive (lock : Nat)
  | exReleaseSpinLockShared (lock : Nat) (old : Level)
  | exReleaseSpinLockExclusive (lock : Nat) (old : Level)
  | exAcquireSpinLockExclusiveAtDpcLevel (lock : Nat)
  | exReleaseSpinLockExclusiveFromDpcLevel (lock : Nat)
  deriving DecidableEq, Repr

def Handler.moves : Handler → Option Level
  | .keGetCurrentIrql => none
  | .keRaiseIrql new => some new
  | .kfRaiseIrql new => some new
  | .keLowerIrql new => some new
  | .kfLowerIrql new => some new
  | .keRaiseIrqlToDpcLevel => some dispatchLevel
  | .keRaiseIrqlToSynchLevel => some dispatchLevel
  | .keAcquireSpinLockRaiseToDpc _ => some dispatchLevel
  | .keReleaseSpinLock _ new => some new
  | .keAcquireSpinLockAtDpcLevel _ => none
  | .keReleaseSpinLockFromDpcLevel _ => none
  | .exAcquireSpinLockShared _ => some dispatchLevel
  | .exAcquireSpinLockExclusive _ => some dispatchLevel
  | .exReleaseSpinLockShared _ old => some old
  | .exReleaseSpinLockExclusive _ old => some old
  | .exAcquireSpinLockExclusiveAtDpcLevel _ => none
  | .exReleaseSpinLockExclusiveFromDpcLevel _ => none

/-- A handler on a cpu, and the level before, which the ones that raise answer, and `KeGetCurrentIrql`. -/
def Handler.run (h : Handler) (s : State) (c : CpuId) (self : ThreadId) : State × Level :=
  match h.moves with
  | some new => (s.setIrql c self new, s.irql c)
  | none => (s, s.irql c)

/-- `schedule` switches the thread of a cpu out. -/
def State.switchOut (s : State) : Sched.Event → State
  | .schedule c _ =>
    match s.sched.phase c with
    | .entering (some t) => { s with leftAt := Function.update s.leftAt t (s.pcrIrql c) }
    | _ => s
  | _ => s

inductive Event
  | sched (e : Sched.Event)
  | call (c : CpuId) (h : Handler)
  /-- Any other handler that goes through `set_irql`, such as those of the fast mutexes. -/
  | setIrql (c : CpuId) (new : Level)

def step (s : State) : Event → Option State
  | .sched e => (Sched.step s.sched e).map fun sched => { s.switchOut e with sched := sched }
  | .call c h => (s.sched.caller c).map fun self => (h.run s c self).1
  | .setIrql c new => (s.sched.caller c).map fun self => s.setIrql c self new

/-- `KeGetCurrentIrql` and `cr8` are the level that the thread of the cpu last set. -/
def OwnIrql (s : State) : Prop :=
  ∀ c t, s.sched.caller c = some t → (Handler.keGetCurrentIrql.run s c t).2 = s.level t ∧ s.cr8 c = s.level t

/-- Before any cpu is in `run`. -/
def start (cpus : List CpuId) : State := { sched := Sched.start cpus }

/-- Thread `7` takes a spin lock on the only cpu and is preempted; thread `8` has set nothing. -/
def preemptedRaised : List Event :=
  [.sched (.enqueue 7), .sched (.enqueue 8), .sched (.schedule 0 fun _ => true), .sched (.resume 0),
    .call 0 (.keAcquireSpinLockRaiseToDpc 0x1000), .sched (.runReturns 0),
    .sched (.schedule 0 fun _ => true), .sched (.resume 0)]

theorem preemptedRaised_not_own : ¬ ∀ cpus events s, Run.Steps step (fun _ _ => True) (start cpus) events s →
    OwnIrql s := by
  intro hall
  have hexec : (Run.exec step (fun _ _ => true) (start [0]) preemptedRaised).map
      (fun s => (s.sched.caller 0, s.irql 0, s.level 8)) = some (some 8, dispatchLevel, passiveLevel) := by
    decide +kernel
  obtain ⟨s, hs, hfacts⟩ := Option.map_eq_some_iff.mp hexec
  simp only [Prod.mk.injEq] at hfacts
  obtain ⟨hcaller, hirql, hlevel⟩ := hfacts
  have hown := (hall _ _ s (Run.Steps.of_exec (fun _ _ _ => trivial) hs) 0 8 hcaller).1
  rw [show (Handler.keGetCurrentIrql.run s 0 8).2 = s.irql 0 from rfl, hirql, hlevel] at hown
  simp [dispatchLevel, passiveLevel] at hown

/-! ## When the level follows its thread -/

/-- A cpu goes on with the thread it has taken at the level at which the thread was switched out. -/
def SwitchOk (s : State) : Event → Prop
  | .sched (.resume c) => ∀ t, s.sched.phase c = .resuming t → s.pcrIrql c = s.leftAt t
  | _ => True

structure Followed (s : State) : Prop where
  placed : Placed s.sched
  mirrored : ∀ c, s.cr8 c = s.pcrIrql c
  running : ∀ c t, (s.sched.phase c).ran = some t → s.pcrIrql c = s.level t
  resuming : ∀ c t, s.sched.phase c = .resuming t → s.leftAt t = s.level t
  queued : ∀ t ∈ s.sched.queue, s.leftAt t = s.level t
  fresh : ∀ t, s.sched.enqueued t = false → s.leftAt t = s.level t

theorem Followed.setIrql {s : State} (h : Followed s) {c : CpuId} {self : ThreadId}
    (hself : s.sched.caller c = some self) (new : Level) : Followed (s.setIrql c self new) := by
  have hphase := Sched.caller_eq_some hself
  have hcur : s.sched.current c = some self := (h.placed.held c).trans (by rw [hphase]; rfl)
  -- the level of a thread that is elsewhere stays
  have hother : ∀ t, t ≠ self → (s.setIrql c self new).level t = s.level t := by
    intro t ht
    simp [State.setIrql, ht]
  exact {
    placed := h.placed
    mirrored := by
      intro d
      by_cases hdc : d = c
      · simp [State.setIrql, hdc]
      · simpa [State.setIrql, hdc] using h.mirrored d
    running := by
      intro d t ht
      have hd : s.sched.current d = some t := (h.placed.held d).trans (Sched.Phase.thread_of_ran ht)
      by_cases hdc : d = c
      · have hts : t = self := Option.some.inj ((hdc ▸ hd).symm.trans hcur)
        simp [State.setIrql, hdc, hts]
      · have hts : t ≠ self := fun hts => hdc (h.placed.heldOnce d c t hd (hts ▸ hcur))
        rw [hother t hts]
        simpa [State.setIrql, hdc] using h.running d t ht
    resuming := by
      intro d t ht
      have hd : s.sched.current d = some t :=
        (h.placed.held d).trans (by rw [show s.sched.phase d = _ from ht]; rfl)
      have hts : t ≠ self := by
        rintro rfl
        have hdc : d = c := h.placed.heldOnce d c t hd hcur
        rw [hdc] at ht
        exact absurd (ht.symm.trans hphase) (by simp)
      rw [hother t hts]
      exact h.resuming d t ht
    queued := by
      intro t ht
      have hts : t ≠ self := fun hts => h.placed.queuedFree c t ht (hts ▸ hcur)
      rw [hother t hts]
      exact h.queued t ht
    fresh := by
      intro t ht
      have hts : t ≠ self := by
        rintro rfl
        exact absurd (h.placed.heldKnown c t hcur) (by simp [show s.sched.enqueued t = false from ht])
      rw [hother t hts]
      exact h.fresh t ht }

theorem Followed.leave {s : State} (h : Followed s) {c : CpuId} {u : ThreadId}
    (hlevel : s.pcrIrql c = s.level u) :
    Followed { s with leftAt := Function.update s.leftAt u (s.pcrIrql c) } := by
  have hleft : ∀ t, s.leftAt t = s.level t → Function.update s.leftAt u (s.pcrIrql c) t = s.level t := by
    intro t ht
    by_cases htu : t = u
    · simp [htu, hlevel]
    · simpa [htu] using ht
  exact ⟨h.placed, h.mirrored, h.running, fun d t ht => hleft t (h.resuming d t ht),
    fun t ht => hleft t (h.queued t ht), fun t ht => hleft t (h.fresh t ht)⟩

theorem Followed.switchOut {s : State} (h : Followed s) {e : Sched.Event} {sched : Sched.State}
    (hstep : Sched.step s.sched e = some sched) :
    Followed (s.switchOut e) ∧ (s.switchOut e).sched = s.sched ∧ (s.switchOut e).pcrIrql = s.pcrIrql ∧
      ∀ t, e.puts s.sched = some t → (s.switchOut e).leftAt t = (s.switchOut e).level t := by
  cases Sched.stepped_of_step hstep with
  | @schedule c prev ready hc hp =>
    cases prev with
    | none =>
      have hs : s.switchOut (.schedule c ready) = s := by simp [State.switchOut, hp]
      rw [hs]
      exact ⟨h, rfl, rfl, fun t ht => by simp [Sched.Event.puts, hp] at ht⟩
    | some u =>
      have hlevel : s.pcrIrql c = s.level u := h.running c u (by rw [hp]; rfl)
      have hs : s.switchOut (.schedule c ready) =
          { s with leftAt := Function.update s.leftAt u (s.pcrIrql c) } := by
        simp [State.switchOut, hp]
      rw [hs]
      refine ⟨h.leave hlevel, rfl, rfl, fun t ht => ?_⟩
      have hut : u = t := by simpa [Sched.Event.puts, hp] using ht
      simp [← hut, hlevel]
  | enqueue t hnew =>
    refine ⟨h, rfl, rfl, fun u hu => ?_⟩
    cases hu
    exact h.fresh t hnew
  | _ => exact ⟨h, rfl, rfl, fun t ht => by simp [Sched.Event.puts] at ht⟩

theorem Followed.sched {s : State} (h : Followed s) {e : Sched.Event} {sched : Sched.State}
    (hok : SwitchOk s (.sched e)) (hstep : Sched.step s.sched e = some sched) :
    Followed { s.switchOut e with sched := sched } := by
  obtain ⟨hout, hsame, hpcr, hputs⟩ := h.switchOut hstep
  have hstep' : Sched.step (s.switchOut e).sched e = some sched := hsame ▸ hstep
  have hqueue : ∀ t, t ∈ sched.queue → (s.switchOut e).leftAt t = (s.switchOut e).level t := by
    intro t ht
    by_cases hp : e.puts s.sched = some t
    · exact hputs t hp
    · by_cases hq : t ∈ s.sched.queue
      · exact hout.queued t (hsame ▸ hq)
      · exact absurd ht (Sched.away_step hstep hp hq).1
  exact {
    placed := h.placed.step hstep
    mirrored := hout.mirrored
    running := by
      intro c t ht
      obtain hran | ⟨hres, rfl⟩ := (Sched.phase_step hstep' c).ran t ht
      · exact hout.running c t hran
      · show (s.switchOut (.resume c)).pcrIrql c = _
        rw [hpcr, hok t (hsame ▸ hres)]
        exact hout.resuming c t hres
    resuming := by
      intro c t ht
      obtain hres | hq | hp := (Sched.phase_step hstep' c).resuming t ht
      · exact hout.resuming c t hres
      · exact hout.queued t hq
      · exact hputs t (hsame ▸ hp)
    queued := hqueue
    fresh := by
      intro t ht
      refine hout.fresh t (Bool.eq_false_iff.mpr fun henq => ?_)
      have := (Sched.marks_step hstep' t).1 henq
      rw [show sched.enqueued t = false from ht] at this
      cases this }

theorem Followed.step {s s' : State} {e : Event} (h : Followed s) (hok : SwitchOk s e)
    (hstep : step s e = some s') : Followed s' := by
  cases e with
  | sched e =>
    obtain ⟨sched, hsched, rfl⟩ := Option.map_eq_some_iff.mp hstep
    exact h.sched hok hsched
  | call c handler =>
    obtain ⟨self, hself, rfl⟩ := Option.map_eq_some_iff.mp hstep
    unfold Handler.run
    split
    · exact h.setIrql hself _
    · exact h
  | setIrql c new =>
    obtain ⟨self, hself, rfl⟩ := Option.map_eq_some_iff.mp hstep
    exact h.setIrql hself new

theorem followed_start (cpus : List CpuId) : Followed (start cpus) where
  placed := Sched.placed_start cpus
  mirrored _ := rfl
  running _ _ _ := rfl
  resuming _ _ _ := rfl
  queued _ _ := rfl
  fresh _ _ := rfl

/-- **The level is the thread's own** in every run in which a cpu goes on with a thread at the level at which
it was switched out. -/
theorem ownIrql_of_switchOk {cpus : List CpuId} {events : List Event} {s : State}
    (hrun : Run.Steps step SwitchOk (start cpus) events s) : OwnIrql s := by
  intro c t hself
  have hfollowed : Followed s :=
    hrun.invariant (fun _ _ _ h hok hstep => h.step hok hstep) (followed_start cpus)
  have hlevel : s.pcrIrql c = s.level t :=
    hfollowed.running c t (by rw [Sched.caller_eq_some hself]; rfl)
  exact ⟨hlevel, (hfollowed.mirrored c).trans hlevel⟩

def switchCheck (s : State) : Event → Bool
  | .sched (.resume c) =>
    match s.sched.phase c with
    | .resuming t => s.pcrIrql c == s.leftAt t
    | _ => true
  | _ => true

theorem switchOk_of_check {s : State} {e : Event} (h : switchCheck s e = true) : SwitchOk s e := by
  unfold SwitchOk
  split
  · intro t hp
    simpa [switchCheck, hp] using h
  · trivial

/-- Thread `7` raises, is preempted and goes on at its level; thread `8` runs when it has lowered. -/
def preemptedLowered : List Event :=
  [.sched (.enqueue 7), .sched (.enqueue 8), .sched (.schedule 0 fun _ => true), .sched (.resume 0),
    .call 0 (.kfRaiseIrql 2), .sched (.runReturns 0), .sched (.schedule 0 fun t => t == 7),
    .sched (.resume 0), .call 0 (.keLowerIrql 0), .sched (.runReturns 0),
    .sched (.schedule 0 fun _ => true), .sched (.resume 0), .call 0 (.kfRaiseIrql 1)]

theorem ownIrql_preemptedLowered : ∃ s, Run.Steps step SwitchOk (start [0]) preemptedLowered s ∧
    s.sched.caller 0 = some 8 ∧ s.level 8 = 1 ∧ OwnIrql s := by
  have hexec : (Run.exec step switchCheck (start [0]) preemptedLowered).map
      (fun s => (s.sched.caller 0, s.level 8)) = some (some 8, 1) := by decide +kernel
  obtain ⟨s, hs, hfacts⟩ := Option.map_eq_some_iff.mp hexec
  obtain ⟨hcaller, hlevel⟩ : s.sched.caller 0 = some 8 ∧ s.level 8 = 1 := by simpa using hfacts
  have hrun : Run.Steps step SwitchOk (start [0]) preemptedLowered s :=
    Run.Steps.of_exec (fun _ _ => switchOk_of_check) hs
  exact ⟨s, hrun, hcaller, hlevel, ownIrql_of_switchOk hrun⟩

end Kernemul.Irql
