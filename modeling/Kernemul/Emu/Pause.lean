import Kernemul.Lib.Run
import Mathlib.Logic.Function.Basic

/-!
# Pausing every cpu (`unicorn_vcpu_base::run`, `hook_guard`, `unicorn_emu_base::run_on_all`)

Each atomic load, store or count of a cpu, and of the one that pauses them, is a step. A cpu is a stack of
frames: a call of `run`, a hook that its guest code ran into, a call of `run` made by that hook and so on, or
a `poll_stop` of the guest code. The pauser holds `op_mtx_`, so there is one at a time.

A cpu that has found its flag clear counts itself in, or out of the hook, in the next step. When the flag goes
up between the two, the pauser finds it not running or in a hook, and the cpu goes on to guest code.
-/

namespace Kernemul.Pause

abbrev CpuId := Nat

/-- Where a call on a cpu's stack is; `hooks` is the value of `in_hook_` to be put back. -/
inductive Frame
  /-- `run`: before `in_hook_.exchange(0)`. -/
  | enter
  /-- Waits for the flag. -/
  | spin (hooks : Nat)
  /-- Has found the flag clear: before `++running_`. -/
  | clear (hooks : Nat)
  /-- In `uc_emu_start`. -/
  | guest (hooks : Nat)
  /-- Before `--running_`. -/
  | back (hooks : Nat)
  /-- Before `in_hook_ = hooks`. -/
  | restore (hooks : Nat)
  /-- Before `redirect_.exchange(false)`. -/
  | after
  /-- Before the last look at the flag. -/
  | last
  /-- Stopped for the pause: waits for the flag, then goes round again. -/
  | stopped
  /-- A hook: before `++in_hook_`. -/
  | hookEnter
  | hookBody
  /-- `~hook_guard`: waits for the flag. -/
  | hookSpin
  /-- Has found the flag clear: before `--in_hook_`. -/
  | hookClear
  /-- `poll_stop`: before the look at the flag, at `running_`, at `stop_requested_`. -/
  | pollPause
  | pollRunning
  | pollRequested
  deriving DecidableEq, Repr

structure Cpu where
  running : Nat := 0
  inHook : Nat := 0
  pendingPause : Bool := false
  stopRequested : Bool := false
  redirect : Bool := false
  frames : List Frame := []

/-- The next atomic step of the call on top. Guest code and a hook's body go on by steps of their own. -/
def Cpu.next (u : Cpu) : Option Cpu :=
  match u.frames with
  | .enter :: fs => some { u with inHook := 0, frames := .spin u.inHook :: fs }
  | .spin hooks :: fs => some (if u.pendingPause then u else { u with frames := .clear hooks :: fs })
  | .clear hooks :: fs => some { u with running := u.running + 1, frames := .guest hooks :: fs }
  | .back hooks :: fs => some { u with running := u.running - 1, frames := .restore hooks :: fs }
  | .restore hooks :: fs => some { u with inHook := hooks, frames := .after :: fs }
  | .after :: fs =>
    some (if u.redirect then { u with redirect := false, frames := .enter :: fs }
      else { u with frames := .last :: fs })
  | .last :: fs => some { u with frames := if u.pendingPause then .stopped :: fs else fs }
  | .stopped :: fs => some (if u.pendingPause then u else { u with frames := .enter :: fs })
  | .hookEnter :: fs => some { u with inHook := u.inHook + 1, frames := .hookBody :: fs }
  | .hookSpin :: fs => some (if u.pendingPause then u else { u with frames := .hookClear :: fs })
  | .hookClear :: fs => some { u with inHook := u.inHook - 1, frames := fs }
  | .pollPause :: fs => some { u with frames := if u.pendingPause then fs else .pollRunning :: fs }
  | .pollRunning :: fs => some { u with frames := if u.running = 1 then .pollRequested :: fs else fs }
  | .pollRequested :: fs => some { u with stopRequested := false, frames := fs }
  | _ => none

/-- What the host, the guest code or a hook's body does. `uc_emu_start` may return at any time: an engine is
stopped by `poll_stop`, by a hook or by an error. `tryStop` is the store of `try_stop`, made by whoever has
seen the cpu running once. -/
inductive Action
  | next
  | run
  | hook
  | poll
  | guestReturns
  | hookReturns
  | requestRedirect
  | tryStop
  deriving DecidableEq, Repr

def Cpu.act (u : Cpu) : Action → Option Cpu
  | .next => u.next
  | .run =>
    match u.frames with
    | [] => some { u with frames := [.enter] }
    | .hookBody :: fs => some { u with frames := .enter :: .hookBody :: fs }
    | _ => none
  | .hook =>
    match u.frames with
    | .guest hooks :: fs => some { u with frames := .hookEnter :: .guest hooks :: fs }
    | _ => none
  | .poll =>
    match u.frames with
    | .guest hooks :: fs => some { u with frames := .pollPause :: .guest hooks :: fs }
    | _ => none
  | .guestReturns =>
    match u.frames with
    | .guest hooks :: fs => some { u with frames := .back hooks :: fs }
    | _ => none
  | .hookReturns =>
    match u.frames with
    | .hookBody :: fs => some { u with frames := .hookSpin :: fs }
    | _ => none
  | .requestRedirect =>
    match u.frames with
    | .hookBody :: _ => some { u with redirect := true }
    | _ => none
  | .tryStop => some { u with stopRequested := true }

/-- Where the pauser is in `run_on_all`, with the cpus its loop has left. -/
inductive Pauser
  | idle
  | raising (left : List CpuId)
  | scanning (left : List CpuId)
  /-- The first cpu left is running: before the look at its `in_hook_`. -/
  | scanningHook (c : CpuId) (left : List CpuId)
  /-- In the function it was given. -/
  | function
  | clearing (left : List CpuId)
  deriving DecidableEq, Repr

structure State where
  cpus : List CpuId
  cpu : CpuId → Cpu := fun _ => {}
  pauser : Pauser := .idle
  /-- The cpu whose hook has called `run_on_all`, or none. -/
  owner : Option CpuId := none

def State.setCpu (s : State) (c : CpuId) (u : Cpu) : State :=
  { s with cpu := Function.update s.cpu c u }

/-- The next atomic step of `run_on_all`. -/
def State.pause (s : State) : Option State :=
  match s.pauser with
  | .idle => none
  | .raising (c :: cs) =>
    some { s.setCpu c { s.cpu c with pendingPause := true } with pauser := .raising cs }
  | .raising [] => some { s with pauser := .scanning s.cpus }
  | .scanning (c :: cs) =>
    some { s with pauser := if (s.cpu c).running = 0 then .scanning cs else .scanningHook c cs }
  | .scanning [] => some { s with pauser := .function }
  | .scanningHook c cs =>
    some { s with pauser := if (s.cpu c).inHook = 0 then .scanning (c :: cs) else .scanning cs }
  | .function => some { s with pauser := .clearing s.cpus }
  | .clearing (c :: cs) =>
    some { s.setCpu c { s.cpu c with pendingPause := false } with pauser := .clearing cs }
  | .clearing [] => some { s with pauser := .idle, owner := none }

/-- A cpu may call `run_on_all` from a hook, or while it runs nothing. -/
def Cpu.mayPause (u : Cpu) : Bool :=
  match u.frames with
  | [] => true
  | .hookBody :: _ => true
  | _ => false

inductive Event
  | cpu (c : CpuId) (a : Action)
  | runOnAll (owner : Option CpuId)
  | pause
  deriving DecidableEq, Repr

def step (s : State) : Event → Option State
  | .cpu c a =>
    if c ∈ s.cpus ∧ (a = .tryStop ∨ s.owner ≠ some c) then ((s.cpu c).act a).map (s.setCpu c) else none
  | .runOnAll owner =>
    if s.pauser = .idle ∧ owner.all (fun c => (s.cpu c).mayPause) then
      some { s with pauser := .raising s.cpus, owner := owner }
    else none
  | .pause => s.pause

def Cpu.executes (u : Cpu) : Bool :=
  match u.frames with
  | .guest _ :: _ => true
  | .pollPause :: _ => true
  | .pollRunning :: _ => true
  | .pollRequested :: _ => true
  | _ => false

def Paused (s : State) : Prop := s.pauser = .function → ∀ c ∈ s.cpus, (s.cpu c).executes = false

/-- Cpu `0` has found its flag clear when a hook of cpu `1` pauses all. -/
def countsInLate : List Event :=
  [.cpu 1 .run, .cpu 1 .next, .cpu 1 .next, .cpu 1 .next, .cpu 1 .hook, .cpu 1 .next, .cpu 0 .run,
    .cpu 0 .next, .cpu 0 .next, .runOnAll (some 1), .pause, .pause, .pause, .pause, .pause, .pause, .pause,
    .cpu 0 .next]

theorem countsInLate_not_paused : ¬ ∀ cpus events s, Run.Steps step (fun _ _ => True) { cpus } events s →
    Paused s := by
  intro hall
  have hexec : (Run.exec step (fun _ _ => true) { cpus := [0, 1] } countsInLate).map
      (fun s => (decide (s.pauser = .function), decide (0 ∈ s.cpus), (s.cpu 0).executes)) =
      some (true, true, true) := by decide +kernel
  obtain ⟨s, hs, hfacts⟩ := Option.map_eq_some_iff.mp hexec
  obtain ⟨hfun, hmem, hexe⟩ : s.pauser = .function ∧ 0 ∈ s.cpus ∧ (s.cpu 0).executes = true := by
    simpa using hfacts
  have hpaused := hall _ _ s (Run.Steps.of_exec (fun _ _ _ => trivial) hs) hfun 0 hmem
  simp [hexe] at hpaused

/-! ## The counts of a cpu -/

/-- The value of `running_` on a stack. -/
def runningOf : List Frame → Nat
  | [] => 0
  | .guest _ :: fs => runningOf fs + 1
  | .back _ :: fs => runningOf fs + 1
  | _ :: fs => runningOf fs

/-- The value of `in_hook_` on a stack: a call of `run` has put it to zero. -/
def inHookOf : List Frame → Nat
  | [] => 0
  | .spin _ :: _ => 0
  | .clear _ :: _ => 0
  | .guest _ :: _ => 0
  | .back _ :: _ => 0
  | .restore _ :: _ => 0
  | .hookBody :: fs => inHookOf fs + 1
  | .hookSpin :: fs => inHookOf fs + 1
  | .hookClear :: fs => inHookOf fs + 1
  | _ :: fs => inHookOf fs

def onGuest : List Frame → Prop
  | .guest _ :: _ => True
  | _ => False

/-- A call of `run` keeps the count it found, and only guest code polls. -/
def Stacked : List Frame → Prop
  | [] => True
  | .spin hooks :: fs => hooks = inHookOf fs ∧ Stacked fs
  | .clear hooks :: fs => hooks = inHookOf fs ∧ Stacked fs
  | .guest hooks :: fs => hooks = inHookOf fs ∧ Stacked fs
  | .back hooks :: fs => hooks = inHookOf fs ∧ Stacked fs
  | .restore hooks :: fs => hooks = inHookOf fs ∧ Stacked fs
  | .pollPause :: fs => onGuest fs ∧ Stacked fs
  | .pollRunning :: fs => onGuest fs ∧ Stacked fs
  | .pollRequested :: fs => onGuest fs ∧ Stacked fs
  | _ :: fs => Stacked fs

structure Cpu.Wf (u : Cpu) : Prop where
  running : u.running = runningOf u.frames
  inHook : u.inHook = inHookOf u.frames
  stacked : Stacked u.frames

theorem onGuest_iff {fs : List Frame} : onGuest fs ↔ ∃ hooks gs, fs = .guest hooks :: gs := by
  constructor
  · intro h
    match fs, h with
    | .guest hooks :: gs, _ => exact ⟨hooks, gs, rfl⟩
  · rintro ⟨hooks, gs, rfl⟩
    trivial

variable {u u' : Cpu}

theorem Cpu.Wf.next (h : u.Wf) (hnext : u.next = some u') : u'.Wf := by
  obtain ⟨running, inHook, pendingPause, stopRequested, redirect, frames⟩ := u
  obtain ⟨hrun, hhook, hstack⟩ := h
  simp only at hrun hhook hstack
  match frames with
  | [] => simp [Cpu.next] at hnext
  | .guest _ :: fs => simp [Cpu.next] at hnext
  | .hookBody :: fs => simp [Cpu.next] at hnext
  | .enter :: fs =>
    cases hnext
    exact ⟨hrun, rfl, hhook, hstack⟩
  | .spin hooks :: fs =>
    cases hnext
    by_cases hp : pendingPause = true
    · rw [if_pos hp]
      exact ⟨hrun, hhook, hstack⟩
    · rw [if_neg hp]
      exact ⟨hrun, hhook, hstack⟩
  | .clear hooks :: fs =>
    cases hnext
    exact ⟨by simp [hrun, runningOf], hhook, hstack⟩
  | .back hooks :: fs =>
    cases hnext
    exact ⟨by simp [hrun, runningOf], hhook, hstack⟩
  | .restore hooks :: fs =>
    cases hnext
    exact ⟨hrun, hstack.1, hstack.2⟩
  | .after :: fs =>
    cases hnext
    by_cases hr : redirect = true
    · rw [if_pos hr]
      exact ⟨hrun, hhook, hstack⟩
    · rw [if_neg hr]
      exact ⟨hrun, hhook, hstack⟩
  | .last :: fs =>
    cases hnext
    by_cases hp : pendingPause = true
    · simp only [if_pos hp]
      exact ⟨hrun, hhook, hstack⟩
    · simp only [if_neg hp]
      exact ⟨hrun, hhook, hstack⟩
  | .stopped :: fs =>
    cases hnext
    by_cases hp : pendingPause = true
    · rw [if_pos hp]
      exact ⟨hrun, hhook, hstack⟩
    · rw [if_neg hp]
      exact ⟨hrun, hhook, hstack⟩
  | .hookEnter :: fs =>
    cases hnext
    exact ⟨hrun, by simp [hhook, inHookOf], hstack⟩
  | .hookSpin :: fs =>
    cases hnext
    by_cases hp : pendingPause = true
    · rw [if_pos hp]
      exact ⟨hrun, hhook, hstack⟩
    · rw [if_neg hp]
      exact ⟨hrun, hhook, hstack⟩
  | .hookClear :: fs =>
    cases hnext
    exact ⟨hrun, by simp [hhook, inHookOf], hstack⟩
  | .pollPause :: fs =>
    cases hnext
    by_cases hp : pendingPause = true
    · simp only [if_pos hp]
      exact ⟨hrun, hhook, hstack.2⟩
    · simp only [if_neg hp]
      exact ⟨hrun, hhook, hstack⟩
  | .pollRunning :: fs =>
    cases hnext
    by_cases hr : running = 1
    · simp only [if_pos hr]
      exact ⟨hr ▸ hrun, hhook, hstack⟩
    · simp only [if_neg hr]
      exact ⟨hrun, hhook, hstack.2⟩
  | .pollRequested :: fs =>
    cases hnext
    exact ⟨hrun, hhook, hstack.2⟩

theorem Cpu.Wf.act (h : u.Wf) {a : Action} (hact : u.act a = some u') : u'.Wf := by
  obtain ⟨running, inHook, pendingPause, stopRequested, redirect, frames⟩ := u
  cases a with
  | next => exact h.next hact
  | run =>
    simp only [Cpu.act] at hact
    split at hact <;> cases hact
    · exact ⟨h.running, h.inHook, h.stacked⟩
    · exact ⟨h.running, h.inHook, h.stacked⟩
  | hook =>
    simp only [Cpu.act] at hact
    split at hact <;> cases hact
    exact ⟨h.running, h.inHook, h.stacked⟩
  | poll =>
    simp only [Cpu.act] at hact
    split at hact <;> cases hact
    exact ⟨h.running, h.inHook, trivial, h.stacked⟩
  | guestReturns =>
    simp only [Cpu.act] at hact
    split at hact <;> cases hact
    exact ⟨h.running, h.inHook, h.stacked⟩
  | hookReturns =>
    simp only [Cpu.act] at hact
    split at hact <;> cases hact
    exact ⟨h.running, h.inHook, h.stacked⟩
  | requestRedirect =>
    simp only [Cpu.act] at hact
    split at hact <;> cases hact
    exact ⟨h.running, h.inHook, h.stacked⟩
  | tryStop =>
    cases hact
    exact ⟨h.running, h.inHook, h.stacked⟩

theorem Cpu.Wf.executes (h : u.Wf) (hexe : u.executes = true) :
    0 < u.running ∧ u.inHook = 0 := by
  obtain ⟨hrun, hhook, hstack⟩ := h
  have hpoll : ∀ fs, onGuest fs → 0 < runningOf fs ∧ inHookOf fs = 0 := by
    intro fs hfs
    obtain ⟨hooks, gs, rfl⟩ := onGuest_iff.mp hfs
    exact ⟨by simp [runningOf], rfl⟩
  rw [hrun, hhook]
  unfold Cpu.executes at hexe
  split at hexe
  · rename_i hf
    rw [hf]
    exact ⟨by simp [runningOf], rfl⟩
  · rename_i hf
    rw [hf] at hstack ⊢
    have hguest := hpoll _ hstack.1
    exact hguest
  · rename_i hf
    rw [hf] at hstack ⊢
    have hguest := hpoll _ hstack.1
    exact hguest
  · rename_i hf
    rw [hf] at hstack ⊢
    have hguest := hpoll _ hstack.1
    exact hguest
  · simp at hexe

/-! ## What the flag keeps a cpu from -/

/-- The cpu has found its flag clear and has yet to change the count that goes with it. -/
def Cpu.tested (u : Cpu) : Bool :=
  match u.frames with
  | .clear _ :: _ => true
  | .hookClear :: _ => true
  | _ => false

theorem Cpu.next_pendingPause (h : u.next = some u') : u'.pendingPause = u.pendingPause := by
  unfold Cpu.next at h
  split at h <;> cases h <;> first | rfl | (split <;> rfl)

theorem Cpu.act_pendingPause {a : Action} (h : u.act a = some u') :
    u'.pendingPause = u.pendingPause := by
  cases a with
  | next => exact Cpu.next_pendingPause h
  | tryStop => cases h; rfl
  | _ =>
    simp only [Cpu.act] at h
    split at h <;> cases h <;> rfl

/-- With its flag up a cpu does not find it clear, and comes to guest code only from guest code. -/
theorem Cpu.Wf.act_paused (h : u.Wf) {a : Action} (hact : u.act a = some u')
    (hpause : u.pendingPause = true) (htested : u.tested = false) :
    u'.tested = false ∧ (u.executes = false → u'.executes = false) := by
  obtain ⟨running, inHook, pendingPause, stopRequested, redirect, frames⟩ := u
  simp only at hpause
  subst hpause
  have hstack : Stacked frames := h.stacked
  have hpoll : ∀ {fs : List Frame} (v : Cpu), onGuest fs → v.frames = fs → v.tested = false := by
    intro fs v hfs hv
    obtain ⟨hooks, gs, rfl⟩ := onGuest_iff.mp hfs
    simp [Cpu.tested, hv]
  cases a with
  | next =>
    match frames with
    | [] => simp [Cpu.act, Cpu.next] at hact
    | .guest _ :: fs => simp [Cpu.act, Cpu.next] at hact
    | .hookBody :: fs => simp [Cpu.act, Cpu.next] at hact
    | .clear hooks :: fs => simp [Cpu.tested] at htested
    | .hookClear :: fs => simp [Cpu.tested] at htested
    | .enter :: fs => cases hact; exact ⟨rfl, fun _ => rfl⟩
    | .spin hooks :: fs => cases hact; exact ⟨rfl, fun _ => rfl⟩
    | .back hooks :: fs => cases hact; exact ⟨rfl, fun _ => rfl⟩
    | .restore hooks :: fs => cases hact; exact ⟨rfl, fun _ => rfl⟩
    | .after :: fs =>
      cases hact
      split
      · exact ⟨rfl, fun _ => rfl⟩
      · exact ⟨rfl, fun _ => rfl⟩
    | .last :: fs => cases hact; exact ⟨rfl, fun _ => rfl⟩
    | .stopped :: fs => cases hact; exact ⟨rfl, fun _ => rfl⟩
    | .hookEnter :: fs => cases hact; exact ⟨rfl, fun _ => rfl⟩
    | .hookSpin :: fs => cases hact; exact ⟨rfl, fun _ => rfl⟩
    | .pollPause :: fs =>
      cases hact
      exact ⟨hpoll _ hstack.1 rfl, by simp [Cpu.executes]⟩
    | .pollRunning :: fs =>
      cases hact
      refine ⟨?_, by simp [Cpu.executes]⟩
      by_cases hr : running = 1
      · simp [Cpu.tested, hr]
      · exact hpoll _ hstack.1 (by simp [hr])
    | .pollRequested :: fs =>
      cases hact
      exact ⟨hpoll _ hstack.1 rfl, by simp [Cpu.executes]⟩
  | tryStop =>
    cases hact
    exact ⟨htested, fun hexe => hexe⟩
  | _ =>
    simp only [Cpu.act] at hact
    split at hact <;> cases hact <;> simp [Cpu.tested, Cpu.executes]

/-! ## When the pause holds -/

/-- The flag of a cpu goes up while the cpu is not between a look at it that found it clear and the change of
the count. -/
def RaisesUntested (s : State) : Event → Prop
  | .pause => ∀ c cs, s.pauser = .raising (c :: cs) → (s.cpu c).tested = false
  | _ => True

/-- Everything the loops of `run_on_all` have done so far. -/
def Progress (s : State) : Prop :=
  match s.pauser with
  | .idle => True
  | .raising left => ∃ past, s.cpus = past ++ left ∧ ∀ c ∈ past, (s.cpu c).pendingPause = true
  | .scanning left => (∀ c ∈ s.cpus, (s.cpu c).pendingPause = true) ∧
      ∃ past, s.cpus = past ++ left ∧ ∀ c ∈ past, (s.cpu c).executes = false
  | .scanningHook c left => (∀ c ∈ s.cpus, (s.cpu c).pendingPause = true) ∧
      ∃ past, s.cpus = past ++ c :: left ∧ ∀ c ∈ past, (s.cpu c).executes = false
  | .function => (∀ c ∈ s.cpus, (s.cpu c).pendingPause = true) ∧ ∀ c ∈ s.cpus, (s.cpu c).executes = false
  | .clearing _ => True

structure Safe (s : State) : Prop where
  wf : ∀ c, (s.cpu c).Wf
  untested : ∀ c, (s.cpu c).pendingPause = true → (s.cpu c).tested = false
  progress : Progress s

variable {s : State}

/-- A step of a cpu that keeps its flag, and keeps out of guest code with the flag up, undoes nothing. -/
theorem Progress.setCpu (h : Progress s) {c : CpuId} (hpause : u.pendingPause = (s.cpu c).pendingPause)
    (hexe : (s.cpu c).pendingPause = true → (s.cpu c).executes = false → u.executes = false) :
    Progress (s.setCpu c u) := by
  have hflag : ∀ d, ((s.setCpu c u).cpu d).pendingPause = (s.cpu d).pendingPause := by
    intro d
    by_cases hd : d = c
    · simp [State.setCpu, hd, hpause]
    · simp [State.setCpu, hd]
  have hkeep : ∀ d, (s.cpu d).pendingPause = true → (s.cpu d).executes = false →
      ((s.setCpu c u).cpu d).executes = false := by
    intro d hp he
    by_cases hd : d = c
    · subst hd
      simpa [State.setCpu] using hexe hp he
    · simpa [State.setCpu, hd] using he
  have hpauser : (s.setCpu c u).pauser = s.pauser := rfl
  unfold Progress at h ⊢
  rw [hpauser]
  split at h
  · trivial
  · obtain ⟨past, hcpus, hpast⟩ := h
    exact ⟨past, hcpus, fun d hd => (hflag d).trans (hpast d hd)⟩
  · obtain ⟨hall, past, hcpus, hpast⟩ := h
    refine ⟨fun d hd => (hflag d).trans (hall d hd), past, hcpus, fun d hd => ?_⟩
    exact hkeep d (hall d (by rw [hcpus]; exact List.mem_append_left _ hd)) (hpast d hd)
  · obtain ⟨hall, past, hcpus, hpast⟩ := h
    refine ⟨fun d hd => (hflag d).trans (hall d hd), past, hcpus, fun d hd => ?_⟩
    exact hkeep d (hall d (by rw [hcpus]; exact List.mem_append_left _ hd)) (hpast d hd)
  · exact ⟨fun d hd => (hflag d).trans (h.1 d hd), fun d hd => hkeep d (h.1 d hd) (h.2 d hd)⟩
  · trivial

theorem Safe.cpu (h : Safe s) {c : CpuId} {a : Action} (hact : (s.cpu c).act a = some u) : Safe (s.setCpu c u) where
  wf d := by
    by_cases hd : d = c
    · simpa [State.setCpu, hd] using (h.wf c).act hact
    · simpa [State.setCpu, hd] using h.wf d
  untested d hp := by
    by_cases hd : d = c
    · have hpause : (s.cpu c).pendingPause = true := by
        rw [← Cpu.act_pendingPause hact]
        simpa [State.setCpu, hd] using hp
      simpa [State.setCpu, hd] using ((h.wf c).act_paused hact hpause (h.untested c hpause)).1
    · simpa [State.setCpu, hd] using h.untested d (by simpa [State.setCpu, hd] using hp)
  progress := h.progress.setCpu (Cpu.act_pendingPause hact) fun hpause =>
    ((h.wf c).act_paused hact hpause (h.untested c hpause)).2

/-- A flag goes up or down: the counts stay, and a flag that goes up finds its cpu untested. -/
theorem Safe.setPause (h : Safe s) {c : CpuId} {b : Bool} {p : Pauser} (hb : b = true → (s.cpu c).tested = false)
    (hprogress : Progress { s.setCpu c { s.cpu c with pendingPause := b } with pauser := p }) :
    Safe { s.setCpu c { s.cpu c with pendingPause := b } with pauser := p } where
  wf d := by
    by_cases hd : d = c
    · have hwf := h.wf c
      have hset : Cpu.Wf { s.cpu c with pendingPause := b } := ⟨hwf.running, hwf.inHook, hwf.stacked⟩
      simpa [State.setCpu, hd] using hset
    · simpa [State.setCpu, hd] using h.wf d
  untested d hp := by
    by_cases hd : d = c
    · have htested := hb (by simpa [State.setCpu, hd] using hp)
      simpa [State.setCpu, hd, Cpu.tested] using htested
    · simpa [State.setCpu, hd] using h.untested d (by simpa [State.setCpu, hd] using hp)
  progress := hprogress

theorem Safe.setPauser (h : Safe s) {p : Pauser} {owner : Option CpuId}
    (hprogress : Progress { s with pauser := p, owner := owner }) :
    Safe { s with pauser := p, owner := owner } :=
  ⟨h.wf, h.untested, hprogress⟩

theorem Safe.pause {s' : State} (h : Safe s) (hok : RaisesUntested s .pause)
    (hpause : s.pause = some s') : Safe s' := by
  have hprogress := h.progress
  unfold State.pause at hpause
  unfold Progress at hprogress
  split at hpause <;> rename_i hp <;> cases hpause <;> rw [hp] at hprogress
  · rename_i c cs
    obtain ⟨past, hcpus, hpast⟩ := hprogress
    refine h.setPause (fun _ => hok c cs hp) ⟨past ++ [c], by simp [State.setCpu, hcpus], fun d hd => ?_⟩
    by_cases hdc : d = c
    · simp [State.setCpu, hdc]
    · have hdp : d ∈ past := by simpa [hdc] using hd
      simpa [State.setCpu, hdc] using hpast d hdp
  · obtain ⟨past, hcpus, hpast⟩ := hprogress
    refine h.setPauser ⟨fun c hc => hpast c ?_, [], rfl, by simp⟩
    rwa [show s.cpus = past by simpa using hcpus] at hc
  · rename_i c cs
    obtain ⟨hall, past, hcpus, hpast⟩ := hprogress
    by_cases hrun : (s.cpu c).running = 0
    · rw [if_pos hrun]
      refine h.setPauser ⟨hall, past ++ [c], by simp [hcpus], fun d hd => ?_⟩
      obtain hd | hd := List.mem_append.mp hd
      · exact hpast d hd
      · rw [List.mem_singleton.mp hd]
        refine Bool.eq_false_iff.mpr fun hexe => ?_
        have := ((h.wf c).executes hexe).1
        omega
    · rw [if_neg hrun]
      exact h.setPauser ⟨hall, past, hcpus, hpast⟩
  · obtain ⟨hall, past, hcpus, hpast⟩ := hprogress
    refine h.setPauser ⟨hall, fun c hc => hpast c ?_⟩
    rwa [show s.cpus = past by simpa using hcpus] at hc
  · rename_i c cs
    obtain ⟨hall, past, hcpus, hpast⟩ := hprogress
    by_cases hhook : (s.cpu c).inHook = 0
    · rw [if_pos hhook]
      exact h.setPauser ⟨hall, past, hcpus, hpast⟩
    · rw [if_neg hhook]
      refine h.setPauser ⟨hall, past ++ [c], by simp [hcpus], fun d hd => ?_⟩
      obtain hd | hd := List.mem_append.mp hd
      · exact hpast d hd
      · rw [List.mem_singleton.mp hd]
        exact Bool.eq_false_iff.mpr fun hexe => hhook ((h.wf c).executes hexe).2
  · exact h.setPauser trivial
  · exact h.setPause (by simp) trivial
  · exact h.setPauser trivial

theorem Safe.step {s' : State} {e : Event} (h : Safe s) (hok : RaisesUntested s e)
    (hstep : step s e = some s') : Safe s' := by
  cases e with
  | cpu c a =>
    simp only [Pause.step] at hstep
    split at hstep
    · obtain ⟨u, hact, rfl⟩ := Option.map_eq_some_iff.mp hstep
      exact h.cpu hact
    · simp at hstep
  | runOnAll owner =>
    simp only [Pause.step] at hstep
    split at hstep
    · cases hstep
      exact h.setPauser ⟨[], rfl, by simp⟩
    · simp at hstep
  | pause => exact h.pause hok hstep

theorem safe_start (cpus : List CpuId) : Safe { cpus } where
  wf _ := ⟨rfl, rfl, trivial⟩
  untested _ h := by simp at h
  progress := trivial

/-- **The pause holds** in every run in which no flag goes up between a cpu's look at it and the count that
follows. -/
theorem paused_of_raisesUntested {cpus : List CpuId} {events : List Event} {s : State}
    (hrun : Run.Steps step RaisesUntested { cpus } events s) : Paused s := by
  intro hfun
  have hsafe : Safe s :=
    hrun.invariant (fun _ _ _ h hok hstep => h.step hok hstep) (safe_start cpus)
  have hprogress := hsafe.progress
  unfold Progress at hprogress
  rw [hfun] at hprogress
  exact hprogress.2

def raisesUntestedCheck (s : State) : Event → Bool
  | .pause =>
    match s.pauser with
    | .raising (c :: _) => !(s.cpu c).tested
    | _ => true
  | _ => true

theorem raisesUntested_of_check {e : Event} (h : raisesUntestedCheck s e = true) :
    RaisesUntested s e := by
  cases e with
  | pause =>
    intro c cs hp
    simpa [raisesUntestedCheck, hp] using h
  | _ => trivial

/-- A hook of cpu `1` pauses all while cpu `0` is in guest code, which polls and is stopped. -/
def stopsFirst : List Event :=
  [.cpu 1 .run, .cpu 1 .next, .cpu 1 .next, .cpu 1 .next, .cpu 1 .hook, .cpu 1 .next, .cpu 0 .run,
    .cpu 0 .next, .cpu 0 .next, .cpu 0 .next, .runOnAll (some 1), .pause, .pause, .pause, .pause, .pause,
    .cpu 0 .poll, .cpu 0 .next, .cpu 0 .guestReturns, .cpu 0 .next, .pause, .pause, .pause, .pause, .cpu 0 .next]

theorem paused_stopsFirst :
    ∃ s, Run.Steps step RaisesUntested { cpus := [0, 1] } stopsFirst s ∧ s.pauser = .function ∧ Paused s := by
  have hexec : (Run.exec step raisesUntestedCheck { cpus := [0, 1] } stopsFirst).map (fun s => s.pauser) =
      some .function := by decide +kernel
  obtain ⟨s, hs, hfun⟩ := Option.map_eq_some_iff.mp hexec
  have hrun : Run.Steps step RaisesUntested { cpus := [0, 1] } stopsFirst s :=
    Run.Steps.of_exec (fun _ _ => raisesUntested_of_check) hs
  exact ⟨s, hrun, hfun, paused_of_raisesUntested hrun⟩

end Kernemul.Pause
