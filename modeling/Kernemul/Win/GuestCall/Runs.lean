import Kernemul.Win.GuestCall

/-!
# Runs of guest calls

The engine returns in the run of a call where it has been stopped, and `run` goes on or the call is over. As long as
only the hook at the trampoline stops it for good, every call ends with the callee there. A `call_guest_kernel` leaves
the privilege level and the mark on the callback stack as it has found them.
-/

namespace Kernemul.GuestCall

open Pause (Frame Action Cpu)

variable {R : Type} [DecidableEq R] {A : Arch R}

/-! ## What stops the engine -/

/-- The engine is stopped in the run of a call only where that is harmless. -/
def Sound (trampoline : Nat) (s : State A) : Prop :=
  match s.cpu.frames with
  | [] | .hookBody :: _ => True
  | .guest _ :: _ | .hookSpin :: _ | .hookClear :: _ => s.stopping = true → s.Harmless trampoline
  | .back _ :: _ | .restore _ :: _ | .after :: _ => s.stopping = false ∧ s.Harmless trampoline
  | .last :: _ => s.stopping = false ∧ s.cpu.redirect = false ∧ s.Harmless trampoline
  | _ => s.stopping = false

/-- A run is the cpu's outermost or that of a hook's body, and guest code is what a hook or a poll stands on. -/
def Based : List Frame → Prop
  | [] => True
  | .hookEnter :: fs | .hookBody :: fs | .hookSpin :: fs | .hookClear :: fs
  | .pollPause :: fs | .pollRunning :: fs | .pollRequested :: fs => Pause.onGuest fs ∧ Based fs
  | _ :: fs => (fs = [] ∨ ∃ gs, fs = .hookBody :: gs) ∧ Based fs

section
variable {trampoline : Nat} {s s' : State A}

theorem Based.next {u u' : Cpu} (h : Based u.frames) (hnext : u.next = some u') : Based u'.frames := by
  obtain ⟨running, inHook, pendingPause, stopRequested, redirect, frames⟩ := u
  match frames with
  | [] | .guest _ :: fs | .hookBody :: fs => simp [Cpu.next] at hnext
  | .enter :: fs | .clear _ :: fs | .back _ :: fs | .restore _ :: fs | .hookEnter :: fs =>
    cases hnext
    exact h
  | .hookClear :: fs | .pollRequested :: fs =>
    cases hnext
    exact h.2
  | .spin _ :: fs | .stopped :: fs | .hookSpin :: fs =>
    cases hnext
    by_cases hp : pendingPause = true
    · rw [if_pos hp]
      exact h
    · rw [if_neg hp]
      exact h
  | .after :: fs =>
    cases hnext
    by_cases hr : redirect = true
    · rw [if_pos hr]
      exact h
    · rw [if_neg hr]
      exact h
  | .last :: fs =>
    cases hnext
    by_cases hp : pendingPause = true
    · simp only [if_pos hp]
      exact h
    · simp only [if_neg hp]
      exact h.2
  | .pollPause :: fs =>
    cases hnext
    by_cases hp : pendingPause = true
    · simp only [if_pos hp]
      exact h.2
    · simp only [if_neg hp]
      exact h
  | .pollRunning :: fs =>
    cases hnext
    by_cases hr : running = 1
    · simp only [if_pos hr]
      exact h
    · simp only [if_neg hr]
      exact h.2

theorem Based.act {u u' : Cpu} (h : Based u.frames) {a : Action} (hact : u.act a = some u') :
    Based u'.frames := by
  obtain ⟨running, inHook, pendingPause, stopRequested, redirect, frames⟩ := u
  cases a with
  | next => exact h.next hact
  | tryStop =>
    cases hact
    exact h
  | run =>
    simp only [Cpu.act] at hact
    split at hact <;> cases hact
    · exact ⟨.inl rfl, trivial⟩
    · exact ⟨.inr ⟨_, rfl⟩, h⟩
  | hook | poll =>
    simp only [Cpu.act] at hact
    split at hact <;> cases hact
    exact ⟨trivial, h⟩
  | guestReturns | hookReturns | requestRedirect =>
    simp only [Cpu.act] at hact
    split at hact <;> cases hact
    exact h

/-- In the run of a call the engine is stopped, and returns, only where that is harmless. -/
def Kept (trampoline : Nat) (s : State A) : Prop :=
  Based s.cpu.frames ∧ (s.inCall = true → Sound trampoline s)

theorem Sound.congr (h : Sound trampoline s) (hframes : s'.cpu.frames = s.cpu.frames)
    (hstopping : s'.stopping = s.stopping) (hredirect : s'.cpu.redirect = s.cpu.redirect)
    (hpause : s'.cpu.pendingPause = s.cpu.pendingPause) (hpc : s'.file A.pc = s.file A.pc) :
    Sound trampoline s' := by
  unfold Sound State.Harmless at *
  rw [hframes, hstopping, hredirect, hpause, hpc]
  exact h

theorem mayPause_iff {u : Cpu} : u.mayPause = true ↔ u.frames = [] ∨ ∃ gs, u.frames = .hookBody :: gs := by
  unfold Cpu.mayPause
  split <;> simp_all

theorem mayPause_of_body (h : s.inHookBody = true) : s.cpu.mayPause = true := by
  unfold State.inHookBody at h
  split at h
  · rename_i hf
    exact mayPause_iff.mpr (.inr ⟨_, hf⟩)
  · simp at h

/-- Where the engine has not been stopped, and is not on its way out of `run`, nothing is asked. -/
theorem Sound.of_not_leaving (hstopping : s.stopping = false) (h : s.leaving = false) : Sound trampoline s := by
  unfold State.leaving at h
  unfold Sound
  split <;> simp_all

theorem Sound.of_mayPause (h : s.cpu.mayPause = true) : Sound trampoline s := by
  unfold Sound
  obtain hf | ⟨gs, hf⟩ := mayPause_iff.mp h <;> rw [hf] <;> trivial

theorem Kept.of_mayPause (hbased : Based s.cpu.frames) (h : s.cpu.mayPause = true) : Kept trampoline s :=
  ⟨hbased, fun _ => .of_mayPause h⟩

@[simp] theorem State.setStopping_cpu (s : State A) (b : Bool) : (s.setStopping b).cpu = s.cpu := by
  unfold State.setStopping
  split <;> rfl

@[simp] theorem State.setStopping_file (s : State A) (b : Bool) : (s.setStopping b).file = s.file := by
  unfold State.setStopping
  split <;> rfl

@[simp] theorem State.setStopping_inCall (s : State A) (b : Bool) : (s.setStopping b).inCall = s.inCall := by
  unfold State.setStopping
  split
  · rename_i hruns
    unfold State.inCall
    rw [hruns]
  · rfl

theorem State.setStopping_stopping {b : Bool} (h : s.inCall = true) : (s.setStopping b).stopping = b := by
  unfold State.inCall at h
  unfold State.setStopping
  split at h
  · rfl
  · simp at h

@[simp] theorem State.finish_cpu (s : State A) : s.finish.cpu = s.cpu := by
  unfold State.finish State.leave
  split
  · rfl
  · split
    · rfl
    · dsimp only
      split <;> rfl

theorem Kept.setStopping {b : Bool} (hbased : Based s.cpu.frames) (h : s.cpu.mayPause = true) :
    Kept trampoline (s.setStopping b) :=
  .of_mayPause (by rwa [State.setStopping_cpu]) (by rwa [State.setStopping_cpu])

theorem Kept.harmless {u : Cpu} (h : Kept trampoline s) (hact : s.cpu.act .guestReturns = some u)
    (hcall : s.inCall = true) (hstopping : s.stopping = true) : s.Harmless trampoline := by
  have hsound := h.2 hcall
  unfold Sound at hsound
  simp only [Cpu.act] at hact
  split at hact <;> cases hact
  rename_i hf
  rw [hf] at hsound
  exact hsound hstopping

theorem Kept.next (h : Kept trampoline s) (hok : Allowed trampoline s .next) (hstep : s.next = some s') :
    Kept trampoline s' := by
  obtain ⟨hbased, hsound⟩ := h
  obtain ⟨s₁, hact, rfl⟩ := Option.map_eq_some_iff.mp hstep
  obtain ⟨u, hu, rfl⟩ := Option.map_eq_some_iff.mp hact
  have hbased' : Based u.frames := hbased.act hu
  obtain ⟨⟨running, inHook, pendingPause, stopRequested, redirect, frames⟩, file, redirectPc, runs, stack,
    returned, exits⟩ := s
  match frames with
  | [] | .guest _ :: fs | .hookBody :: fs => simp [Cpu.act, Cpu.next] at hu
  | .enter :: fs | .back _ :: fs | .restore _ :: fs =>
    cases hu
    exact ⟨hbased', hsound⟩
  | .clear _ :: fs =>
    cases hu
    exact ⟨hbased', fun hcall => .of_not_leaving (hsound hcall) (hsound hcall)⟩
  | .hookEnter :: fs =>
    cases hu
    exact ⟨hbased', fun _ => trivial⟩
  | .hookClear :: fs =>
    cases hu
    obtain ⟨hooks, gs, rfl⟩ := Pause.onGuest_iff.mp hbased.1
    exact ⟨hbased', hsound⟩
  | .spin _ :: fs | .stopped :: fs | .hookSpin :: fs =>
    cases hu
    by_cases hp : pendingPause = true
    · simp only [if_pos hp] at hbased' ⊢
      exact ⟨hbased', hsound⟩
    · simp only [if_neg hp] at hbased' ⊢
      exact ⟨hbased', hsound⟩
  | .after :: fs =>
    cases hu
    by_cases hr : redirect = true
    · simp only [if_pos hr] at hbased' ⊢
      exact ⟨hbased', fun hcall => (hsound hcall).1⟩
    · simp only [if_neg hr] at hbased' ⊢
      exact ⟨hbased', fun hcall => ⟨(hsound hcall).1, Bool.eq_false_iff.mpr hr, (hsound hcall).2⟩⟩
  | .last :: fs =>
    cases hu
    by_cases hp : pendingPause = true
    · simp only [if_pos hp] at hbased' ⊢
      exact ⟨hbased', fun hcall => (hsound hcall).1⟩
    · -- the hook that has made the run, or the scheduler, goes on
      simp only [if_neg hp] at hbased' ⊢
      refine .of_mayPause ?_ ?_
      · rw [State.finish_cpu]
        exact hbased'
      · rw [State.finish_cpu]
        exact mayPause_iff.mpr hbased.1
  | .pollPause :: fs =>
    cases hu
    obtain ⟨hooks, gs, rfl⟩ := Pause.onGuest_iff.mp hbased.1
    by_cases hp : pendingPause = true
    · simp only [if_pos hp] at hbased' ⊢
      refine ⟨?_, fun hcall => ?_⟩
      · rw [State.setStopping_cpu]
        exact hbased'
      · unfold Sound
        rw [State.setStopping_cpu]
        exact fun _ => .inr (.inl (by rw [State.setStopping_cpu]; exact hp))
    · simp only [if_neg hp] at hbased' ⊢
      exact ⟨hbased', hsound⟩
  | .pollRunning :: fs =>
    cases hu
    obtain ⟨hooks, gs, rfl⟩ := Pause.onGuest_iff.mp hbased.1
    by_cases hr : running = 1
    · simp only [if_pos hr] at hbased' ⊢
      exact ⟨hbased', hsound⟩
    · simp only [if_neg hr] at hbased' ⊢
      exact ⟨hbased', fun hcall => .of_not_leaving (hsound hcall) (hsound hcall)⟩
  | .pollRequested :: fs =>
    cases hu
    obtain ⟨hooks, gs, rfl⟩ := Pause.onGuest_iff.mp hbased.1
    by_cases hr : stopRequested = true
    · simp only [if_pos hr] at hbased' ⊢
      refine ⟨?_, fun hcall => ?_⟩
      · rw [State.setStopping_cpu]
        exact hbased'
      · rw [State.setStopping_inCall] at hcall
        have hharmless := hok hcall hr
        unfold State.Harmless at hharmless
        unfold Sound State.Harmless
        simp only [State.setStopping_cpu, State.setStopping_file]
        exact fun _ => hharmless
    · simp only [if_neg hr] at hbased' ⊢
      exact ⟨hbased', fun hcall => .of_not_leaving (hsound hcall) (hsound hcall)⟩

theorem State.enter_cases (r : Request) (kernel : Option KernelCall) (h) :
    ((s.enter trampoline r kernel h).1.cpu = s.cpu ∧ (s.enter trampoline r kernel h).1.runs = s.runs) ∨
      ((s.enter trampoline r kernel h).1.cpu = { s.cpu with frames := .enter :: s.cpu.frames } ∧
        ∃ c, (s.enter trampoline r kernel h).1.runs = { call := some c } :: s.runs) := by
  unfold State.enter
  dsimp only
  split
  · exact .inr ⟨rfl, _, rfl⟩
  · exact .inl ⟨rfl, rfl⟩

theorem State.enterKernel_cases (r : Request) :
    ((s.enterKernel trampoline r).1.cpu = s.cpu ∧ (s.enterKernel trampoline r).1.runs = s.runs) ∨
      ((s.enterKernel trampoline r).1.cpu = { s.cpu with frames := .enter :: s.cpu.frames } ∧
        ∃ c, (s.enterKernel trampoline r).1.runs = { call := some c } :: s.runs) := by
  unfold State.enterKernel
  dsimp only
  split
  · exact State.enter_cases r _ _
  · split
    · exact .inl ⟨rfl, rfl⟩
    · split
      · exact State.enter_cases (s := { s with file := _, stack := _ }) r _ _
      · exact State.enter_cases (s := { s with file := _, stack := _ }) r _ _

theorem Kept.entered (h : Kept trampoline s) (hmay : s.cpu.mayPause = true)
    (hentered : (s'.cpu = s.cpu ∧ s'.runs = s.runs) ∨
      (s'.cpu = { s.cpu with frames := .enter :: s.cpu.frames } ∧ ∃ c, s'.runs = { call := some c } :: s.runs)) :
    Kept trampoline s' := by
  obtain ⟨hcpu, -⟩ | ⟨hcpu, c, hruns⟩ := hentered
  · exact .of_mayPause (hcpu ▸ h.1) (hcpu ▸ hmay)
  · refine ⟨?_, fun _ => ?_⟩
    · rw [hcpu]
      exact ⟨mayPause_iff.mp hmay, h.1⟩
    · unfold Sound
      rw [hcpu]
      show s'.stopping = false
      unfold State.stopping
      rw [hruns]

theorem Kept.pause (h : Kept trampoline s) {b : Bool} (hok : Allowed trampoline s (.pause b)) :
    Kept trampoline { s with cpu := { s.cpu with pendingPause := b } } := by
  refine ⟨h.1, fun hcall => ?_⟩
  have hsound := h.2 hcall
  have hharmless : s.leaving = true →
      State.Harmless trampoline { s with cpu := { s.cpu with pendingPause := b } } := by
    intro hleaving
    cases b with
    | true => exact .inr (.inl rfl)
    | false => exact (hok rfl hcall hleaving).imp_right .inr
  unfold Sound at hsound ⊢
  unfold State.leaving at hharmless
  obtain ⟨⟨running, inHook, pendingPause, stopRequested, redirect, frames⟩, file, redirectPc, runs, stack,
    returned, exits⟩ := s
  match frames with
  | [] | .hookBody :: fs => trivial
  | .guest _ :: fs | .hookSpin :: fs | .hookClear :: fs => exact hharmless
  | .back _ :: fs | .restore _ :: fs | .after :: fs => exact ⟨hsound.1, hharmless rfl⟩
  | .last :: fs => exact ⟨hsound.1, hsound.2.1, hharmless rfl⟩
  | .enter :: fs | .spin _ :: fs | .clear _ :: fs | .stopped :: fs | .hookEnter :: fs | .pollPause :: fs
  | .pollRunning :: fs | .pollRequested :: fs => exact hsound

theorem Kept.returns {u : Cpu} (h : Kept trampoline s) (hact : s.cpu.act .guestReturns = some u)
    (hharmless : s.inCall = true → s.Harmless trampoline) :
    Kept trampoline (State.setStopping { s with cpu := u } false) := by
  refine ⟨?_, fun hcall => ?_⟩
  · rw [State.setStopping_cpu]
    exact h.1.act hact
  · rw [State.setStopping_inCall] at hcall
    have hstopping := State.setStopping_stopping (b := false) hcall
    have hback := hharmless hcall
    simp only [Cpu.act] at hact
    split at hact <;> cases hact
    unfold State.Harmless at hback
    unfold Sound State.Harmless
    simp only [State.setStopping_cpu, State.setStopping_file]
    exact ⟨hstopping, hback⟩

theorem Kept.step (h : Kept trampoline s) {e : Event R} (hok : Allowed trampoline s e)
    (hstep : step trampoline s e = some s') : Kept trampoline s' := by
  cases e with
  | schedule =>
    simp only [GuestCall.step] at hstep
    split at hstep
    · obtain ⟨s₁, hact, rfl⟩ := Option.map_eq_some_iff.mp hstep
      obtain ⟨u, hu, rfl⟩ := Option.map_eq_some_iff.mp hact
      exact ⟨h.1.act hu, fun hcall => by simp [State.inCall] at hcall⟩
    · simp at hstep
  | guest f =>
    simp only [GuestCall.step] at hstep
    split at hstep
    · rename_i hc
      cases hstep
      refine ⟨h.1, fun _ => Sound.of_not_leaving hc.2.1 ?_⟩
      have hguest := hc.1
      unfold State.inGuest at hguest
      unfold State.leaving
      split at hguest
      · rename_i hf
        rw [hf]
        exact hc.2.1
      · simp at hguest
    · simp at hstep
  | hook | poll =>
    simp only [GuestCall.step] at hstep
    split at hstep
    · simp at hstep
    · rename_i hno
      obtain ⟨u, hu, rfl⟩ := Option.map_eq_some_iff.mp hstep
      refine ⟨h.1.act hu, fun _ => Sound.of_not_leaving (Bool.eq_false_iff.mpr hno) ?_⟩
      simp only [Cpu.act] at hu
      split at hu <;> cases hu
      rfl
  | handler f =>
    simp only [GuestCall.step] at hstep
    split at hstep <;> cases hstep
    rename_i hbody
    exact .of_mayPause h.1 (mayPause_of_body hbody)
  | stop =>
    simp only [GuestCall.step] at hstep
    split at hstep <;> cases hstep
    rename_i hbody
    exact .setStopping h.1 (mayPause_of_body hbody)
  | redirect =>
    obtain ⟨s₁, hact, rfl⟩ := Option.map_eq_some_iff.mp hstep
    obtain ⟨u, hu, rfl⟩ := Option.map_eq_some_iff.mp hact
    refine .setStopping (h.1.act hu) ?_
    simp only [Cpu.act] at hu
    split at hu
    · rename_i hf
      cases hu
      exact mayPause_iff.mpr (.inr ⟨_, hf⟩)
    · simp at hu
  | hookReturns =>
    obtain ⟨u, hu, rfl⟩ := Option.map_eq_some_iff.mp hstep
    refine ⟨h.1.act hu, fun hcall => ?_⟩
    simp only [Cpu.act] at hu
    split at hu <;> cases hu
    exact fun hstopping => (hok hcall hstopping).imp_right .inr
  | stopped =>
    simp only [GuestCall.step] at hstep
    split at hstep
    · rename_i hstopping
      obtain ⟨s₁, hact, rfl⟩ := Option.map_eq_some_iff.mp hstep
      obtain ⟨u, hu, rfl⟩ := Option.map_eq_some_iff.mp hact
      exact h.returns hu fun hcall => h.harmless hu hcall hstopping
    · simp at hstep
  | failed =>
    obtain ⟨s₁, hact, rfl⟩ := Option.map_eq_some_iff.mp hstep
    obtain ⟨u, hu, rfl⟩ := Option.map_eq_some_iff.mp hact
    refine h.returns hu fun hcall => ?_
    cases hstopping : s.stopping with
    | true => exact h.harmless hu hcall hstopping
    | false => exact hok hcall hstopping
  | next => exact h.next hok hstep
  | call r =>
    simp only [GuestCall.step] at hstep
    split at hstep <;> cases hstep
    exact h.entered (by assumption) (State.enter_cases r _ _)
  | callKernel r =>
    simp only [GuestCall.step] at hstep
    split at hstep <;> cases hstep
    rename_i hmay
    split
    · exact h.entered hmay (State.enterKernel_cases r)
    · have hthrown : Kept trampoline (s.thrown (s.enterKernel trampoline r).1) :=
        h.entered hmay (State.enterKernel_cases r)
      exact hthrown
  | tryStop =>
    cases hstep
    exact ⟨h.1, fun hcall => (h.2 hcall).congr rfl rfl rfl rfl rfl⟩
  | pause b =>
    cases hstep
    exact h.pause hok

theorem Kept.ending (h : Kept trampoline s) {c : Call A} (hending : s.ending = some c) :
    s.file A.pc = trampoline := by
  unfold State.ending at hending
  split at hending
  · rename_i fs a rs hf hruns
    split at hending
    · simp at hending
    · rename_i hp
      have hsound := h.2 (by unfold State.inCall; rw [hruns]; simp [hending])
      unfold Sound at hsound
      rw [hf] at hsound
      obtain ⟨-, hredirect, hharmless⟩ := hsound
      obtain hr | hpause | hpc := hharmless
      · simp [hredirect] at hr
      · exact absurd hpause hp
      · exact hpc
  · simp at hending

end

/-! ## Steps and runs -/

variable {trampoline : Nat} {s : State A}

/-- What a step does: it is quiet, ends a call, or calls `call_guest_kernel`. -/
theorem step_cases {s' : State A} {e : Event R} (h : step trampoline s e = some s') :
    Quiet s s' ∨
      (∃ u a rs c, s.runs = a :: rs ∧ a.call = some c ∧ s.ending = some c ∧
        s' = State.leave { s with cpu := u, runs := rs } c) ∨
      ∃ r, e = .callKernel r ∧
        s' = if (s.enterKernel trampoline r).2 then (s.enterKernel trampoline r).1
          else s.thrown (s.enterKernel trampoline r).1 := by
  cases e with
  | schedule =>
    simp only [step] at h
    split at h
    · obtain ⟨s₁, hact, rfl⟩ := Option.map_eq_some_iff.mp h
      have hquiet := State.act_quiet hact
      exact .inl (hquiet.trans ⟨by simp [State.kernels], rfl, rfl, rfl⟩)
    · simp at h
  | guest f =>
    simp only [step] at h
    split at h <;> cases h
    exact .inl ⟨rfl, rfl, rfl, rfl⟩
  | hook | poll =>
    simp only [step] at h
    split at h
    · simp at h
    · exact .inl (State.act_quiet h)
  | handler f =>
    simp only [step] at h
    split at h <;> cases h
    exact .inl ⟨rfl, rfl, rfl, rfl⟩
  | stop =>
    simp only [step] at h
    split at h <;> cases h
    exact .inl (s.setStopping_quiet true)
  | redirect =>
    obtain ⟨s₁, hact, rfl⟩ := Option.map_eq_some_iff.mp h
    have hpc : Quiet s₁ { s₁ with redirectPc := s₁.file A.pc } := ⟨rfl, rfl, rfl, rfl⟩
    exact .inl (((State.act_quiet hact).trans hpc).trans (State.setStopping_quiet _ true))
  | hookReturns => exact .inl (State.act_quiet h)
  | stopped =>
    simp only [step] at h
    split at h
    · obtain ⟨s₁, hact, rfl⟩ := Option.map_eq_some_iff.mp h
      exact .inl ((State.act_quiet hact).trans (s₁.setStopping_quiet false))
    · simp at h
  | failed =>
    obtain ⟨s₁, hact, rfl⟩ := Option.map_eq_some_iff.mp h
    exact .inl ((State.act_quiet hact).trans (s₁.setStopping_quiet false))
  | next => exact (State.next_cases h).imp_right .inl
  | call r =>
    simp only [step] at h
    split at h <;> cases h
    exact .inl State.enter_quiet
  | callKernel r =>
    simp only [step] at h
    split at h <;> cases h
    exact .inr (.inr ⟨r, rfl, rfl⟩)
  | tryStop => exact .inl (State.act_quiet h)
  | pause b =>
    cases h
    exact .inl ⟨rfl, rfl, rfl, rfl⟩

/-- Calls have done what is asked, and those under way will: they have the callback stack that they need, the mark on it
is theirs, and the engine is stopped in them only where that is harmless. -/
structure Inv (trampoline : Nat) (s : State A) : Prop where
  kept : Kept trampoline s
  owned : ∀ k ∈ s.kernels, k.Owned
  marked : Marked s.stack.used s.kernels
  ok : CallsOk trampoline s

theorem State.kernels_of_runs {a : Active A} {rs : List (Active A)} {c : Call A}
    (hruns : s.runs = a :: rs) (hcall : a.call = some c) (u : Cpu) :
    s.kernels = c.kernel.toList ++ State.kernels { s with cpu := u, runs := rs } := by
  unfold State.kernels
  rw [hruns, List.filterMap_cons]
  cases hk : c.kernel <;> simp [hcall, hk]

theorem State.leave_marked {c : Call A}
    (hmark : Marked s.stack.used (c.kernel.toList ++ s.kernels)) (hok : CallsOk trampoline (s.leave c)) :
    Marked (s.leave c).stack.used (s.leave c).kernels := by
  unfold State.leave CallsOk at hok
  unfold State.leave
  cases hk : c.kernel with
  | none => simpa [hk, State.kernels] using hmark
  | some k =>
    simp only [hk, Option.toList_some, List.singleton_append] at hmark hok
    have hused := (hok.2 _ List.mem_cons_self).2
    dsimp only at hused ⊢
    rw [hused]
    exact hmark.2

theorem State.leave_kernels (s : State A) (c : Call A) : (s.leave c).kernels = s.kernels := by
  unfold State.leave
  dsimp only
  split <;> rfl

theorem Marked.innermost {used : Bool} {kernel : Option KernelCall} {ks : List KernelCall}
    (h : Marked used (kernel.toList ++ ks)) : ∀ k, kernel = some k → used = k.inUse := by
  rintro k rfl
  exact h.1

theorem State.enterKernel_callsOk {r : Request} (hok : CallsOk trampoline s)
    (hallowed : Allowed trampoline s (.callKernel r)) :
    CallsOk trampoline (if (s.enterKernel trampoline r).2 then (s.enterKernel trampoline r).1
      else s.thrown (s.enterKernel trampoline r).1) := by
  obtain ⟨hmode, hreturned, hexits⟩ := State.enterKernel_mode trampoline s r
  by_cases hmade : (s.enterKernel trampoline r).2 = true
  · rw [if_pos hmade]
    unfold CallsOk
    rwa [hreturned, hexits]
  · -- only a call from kernel mode throws, which has done nothing that it would have to undo
    have already : A.inKernelMode s.file = true := by
      by_contra huser
      obtain ⟨hstack, hpreps⟩ := hallowed (Bool.eq_false_iff.mpr huser)
      exact hmade ((State.enterKernel_user (Bool.eq_false_iff.mpr huser)).mpr ⟨hstack.asked, hpreps⟩)
    rw [if_neg hmade]
    unfold CallsOk State.thrown Exit.Balanced
    simp only [hreturned, hexits, hmode, List.forall_mem_cons]
    exact ⟨hok.1, ⟨already.symm, by rw [(State.enterKernel_already already hmade).1]⟩, hok.2⟩

theorem Inv.step {s' : State A} {e : Event R} (hinv : Inv trampoline s)
    (hallowed : Allowed trampoline s e) (h : step trampoline s e = some s') : Inv trampoline s' := by
  have hkept := hinv.kept.step hallowed h
  obtain hquiet | ⟨u, a, rs, c, hruns, hcall, hending, rfl⟩ | ⟨r, rfl, rfl⟩ := step_cases h
  · refine ⟨hkept, ?_, ?_, hquiet.callsOk.mpr hinv.ok⟩
    · rw [hquiet.kernels]
      exact hinv.owned
    · rw [hquiet.used, hquiet.kernels]
      exact hinv.marked
  · have hkernels := State.kernels_of_runs hruns hcall u
    have hmark := hinv.marked
    have howned := hinv.owned
    rw [hkernels] at hmark howned
    have hok := (State.leave_callsOk (s := { s with cpu := u, runs := rs }) hinv.ok hmark.innermost).mpr
      ⟨hinv.kept.ending hending, fun k hk => howned k (by simp [hk])⟩
    refine ⟨hkept, fun k hk => ?_, State.leave_marked hmark hok, hok⟩
    rw [State.leave_kernels] at hk
    exact howned k (List.mem_append_right _ hk)
  · have hok := State.enterKernel_callsOk hinv.ok hallowed
    by_cases hmade : (s.enterKernel trampoline r).2 = true
    · rw [if_pos hmade] at hkept hok ⊢
      obtain ⟨k, hkernels, hused, hfound, howned⟩ :=
        State.enterKernel_entered (fun huser => (hallowed huser).1) hmade
      refine ⟨hkept, ?_, ?_, hok⟩
      · rw [hkernels]
        exact List.forall_mem_cons.mpr ⟨howned, hinv.owned⟩
      · rw [hkernels, hused]
        exact ⟨rfl, hfound ▸ hinv.marked⟩
    · rw [if_neg hmade] at hkept hok ⊢
      have already : A.inKernelMode s.file = true :=
        (hok.2 _ List.mem_cons_self).1.symm.trans (State.enterKernel_mode trampoline s r).1
      obtain ⟨hstack, hkernels⟩ := State.enterKernel_already already hmade
      refine ⟨hkept, ?_, ?_, hok⟩
      · show ∀ k ∈ (s.enterKernel trampoline r).1.kernels, k.Owned
        rw [hkernels]
        exact hinv.owned
      · show Marked (s.enterKernel trampoline r).1.stack.used (s.enterKernel trampoline r).1.kernels
        rw [hstack, hkernels]
        exact hinv.marked

def start (A : Arch R) (f : File R) (st : CallbackStack) : State A := { file := f, stack := st }

theorem start_inv (trampoline : Nat) (A : Arch R) (f : File R) (st : CallbackStack) :
    Inv trampoline (start A f st) where
  kept := ⟨trivial, fun _ => trivial⟩
  owned := by simp [start, State.kernels]
  marked := trivial
  ok := ⟨by simp [start], by simp [start]⟩

/-- **Calls do what is asked** in every run of which every step is allowed. -/
theorem callsOk_of_allowed {trampoline : Nat} {f : File R} {st : CallbackStack} {events : List (Event R)} {s : State A}
    (h : Run.Steps (step trampoline) (Allowed trampoline) (start A f st) events s) : CallsOk trampoline s :=
  (h.invariant (fun _ _ _ hinv hok hstep => Inv.step hinv hok hstep) (start_inv trampoline A f st)).ok

instance {trampoline : Nat} {s : State A} : Decidable (s.Harmless trampoline) :=
  inferInstanceAs (Decidable (_ ∨ _ ∨ _))

instance {st : CallbackStack} {m : Memory} : Decidable (st.Available m) :=
  match h : m.stack with
  | none => decidable_of_iff (st.used = true ∨ st.top ≠ 0) (by simp [CallbackStack.Available, h])
  | some base => decidable_of_iff (st.used = true ∨ st.top ≠ 0 ∨ base ≠ 0 ∧ (base + 0x8000) % 2 ^ 64 ≠ 0)
      (by simp [CallbackStack.Available, h])

instance {trampoline : Nat} {s : State A} : (e : Event R) → Decidable (Allowed trampoline s e)
  | .hookReturns => inferInstanceAs (Decidable (s.inCall = true → s.stopping = true →
      s.cpu.redirect = true ∨ s.file A.pc = trampoline))
  | .next => inferInstanceAs (Decidable (s.inCall = true → s.preempting = true → s.Harmless trampoline))
  | .failed => inferInstanceAs (Decidable (s.inCall = true → s.stopping = false → s.Harmless trampoline))
  | .pause b => inferInstanceAs (Decidable (b = false → s.inCall = true → s.leaving = true →
      s.cpu.redirect = true ∨ s.file A.pc = trampoline))
  | .callKernel r => inferInstanceAs (Decidable (A.inKernelMode s.file = false → s.stack.Available r.memory ∧
      ∀ p ∈ A.preps trampoline (s.startSp r.memory) r, p.throws r.memory = false))
  | .schedule | .guest _ | .hook | .handler _ | .stop | .redirect | .poll | .stopped | .call _ | .tryStop =>
    .isTrue trivial

/-! ## Two runs -/

def userAt (pc : Nat) : File Context.Reg
  | .rip => pc
  | .cs => Context.userCs
  | .ss => Context.userDs
  | _ => 0

def callbackAt (pc : Nat) : File Context.Reg
  | .rip => pc
  | .cs => Context.kernelCs
  | .ss => 0x18
  | _ => 7

/-- A system call makes a `call_guest_kernel`, and the engine runs the callback. -/
def entersCallback : List (Event Context.Reg) :=
  [.schedule, .next, .next, .next, .hook, .next,
    .callKernel { routine := 0x1000, args := [], memory := { stack := some 0x10000 } }, .next, .next, .next]

/-- The engine returns, and so does `run`. -/
def endsRun : List (Event Context.Reg) := [.stopped, .next, .next, .next, .next]

/-- The callback calls `KeDelayExecutionThread`, whose handler stops the cpu and returns into the callback. -/
def sleeps : List (Event Context.Reg) :=
  entersCallback ++ [.guest (callbackAt 0x2000), .hook, .next, .stop, .handler (callbackAt 0x1010), .hookReturns, .next,
    .next] ++ endsRun

theorem sleeps_abandoned : ¬ ∀ trampoline f st events (s : State x86),
    Run.Steps (step trampoline) (fun _ _ => True) (start x86 f st) events s → CallsOk trampoline s := by
  intro hall
  have hexec : (Run.exec (step 0x7000) (fun _ _ => true) (start x86 (userAt 0x500) {}) sleeps).map
      (fun s => s.returned.map fun r => r.left .rip) = some [0x1010] := by decide +kernel
  obtain ⟨s, hs, hreturned⟩ := Option.map_eq_some_iff.mp hexec
  have hrun : Run.Steps (step 0x7000) (fun _ _ => True) (start x86 (userAt 0x500) {}) sleeps s :=
    Run.Steps.of_exec (fun _ _ _ => trivial) hs
  obtain ⟨hok, -⟩ := hall _ _ _ _ s hrun
  obtain ⟨r, hr, hleft⟩ : ∃ r ∈ s.returned, r.left .rip = 0x1010 :=
    List.mem_map.mp (by rw [hreturned]; exact List.mem_singleton_self _)
  exact absurd (hleft.symm.trans (hok r hr).1) (by decide)

/-- The callback is paused on its way and goes on, and returns to the trampoline, where the hook stops the cpu. -/
def returns : List (Event Context.Reg) :=
  entersCallback ++ [.pause true, .poll, .next, .stopped, .next, .next, .next, .next, .pause false, .next, .next, .next,
    .next, .guest (callbackAt 0x7000), .hook, .next, .stop, .hookReturns, .next, .next] ++ endsRun

theorem returns_callsOk : ∃ s : State x86, CallsOk 0x7000 s ∧ s.returned.length = 1 ∧ s.exits.length = 1 := by
  have hexec : (Run.exec (step 0x7000) (fun s e => decide (Allowed 0x7000 s e)) (start x86 (userAt 0x500) {})
      returns).map (fun s => (s.returned.length, s.exits.length)) = some (1, 1) := by decide +kernel
  obtain ⟨s, hs, hlogs⟩ := Option.map_eq_some_iff.mp hexec
  have hrun : Run.Steps (step 0x7000) (Allowed 0x7000) (start x86 (userAt 0x500) {}) returns s :=
    Run.Steps.of_exec (fun _ _ => of_decide_eq_true) hs
  exact ⟨s, callsOk_of_allowed hrun, congrArg Prod.fst hlogs, congrArg Prod.snd hlogs⟩

end Kernemul.GuestCall
