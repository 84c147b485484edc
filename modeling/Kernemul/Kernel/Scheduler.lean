import Kernemul.Lib.Run
import Mathlib.Algebra.Group.Nat.Defs
import Mathlib.Data.List.Nodup
import Mathlib.Logic.Function.Basic

/-!
# The thread scheduler (`thread_scheduler`, `process::terminate_thread`)

Every cpu is in its own `run` loop, of which `Phase` is the place it has come to. The sections under the
scheduler's lock are one step each, and so is the section of `terminate_thread` under the lock of the
process. A thread goes by its id, which is never given out twice. Which queued threads answer `is_ready`
depends on their waits and on the time, so a step is given the answers; a parked cpu may look at the queue
again at any time, and a cpu may leave guest code at any time.

`enqueued`, `removed` and `returned` are not in the source: they say which threads were ever put on the
queue, for which ids `remove` was made, and for which ids some call of `terminate_thread` has returned.
-/

namespace Kernemul.Sched

abbrev ThreadId := Nat
abbrev CpuId := Nat

/-- Where a cpu is in `run`. -/
inductive Phase
  /-- About to call `schedule` with the thread it had. -/
  | entering (prev : Option ThreadId)
  /-- Waiting in `schedule`, without the lock. -/
  | parked
  /-- Has taken the thread, before `resume`. -/
  | resuming (t : ThreadId)
  /-- In guest code or in a handler of it; `pending` is a thread that a handler has taken off the list of
  its process and has yet to take off the queue. -/
  | running (t : ThreadId) (pending : Option ThreadId)
  /-- The thread has finished: before `release`. -/
  | retiring (t : ThreadId)
  /-- After `release`, before the first section of `terminate_thread`. -/
  | ending (t : ThreadId)
  /-- Before the second one. -/
  | removing (t : ThreadId)
  /-- `schedule` answered no thread: before the last `release`. -/
  | leaving
  | left
  deriving DecidableEq, Repr

structure State where
  cpus : List CpuId
  queue : List ThreadId := []
  stopped : Bool := false
  current : CpuId → Option ThreadId := fun _ => none
  phase : CpuId → Phase := fun _ => .entering none
  stopRequested : CpuId → Bool := fun _ => false
  finished : ThreadId → Bool := fun _ => false
  threads : ThreadId → Bool := fun _ => false
  enqueued : ThreadId → Bool := fun _ => false
  removed : ThreadId → Bool := fun _ => false
  returned : ThreadId → Bool := fun _ => false

def State.nothingLeft (s : State) : Bool :=
  s.queue.isEmpty && s.cpus.all fun c => (s.current c).isNone

def State.setPhase (s : State) (c : CpuId) (p : Phase) : State :=
  { s with phase := Function.update s.phase c p }

def State.setThread (s : State) (c : CpuId) (t : Option ThreadId) : State :=
  { s with current := Function.update s.current c t }

/-- One round of the loop in `schedule`. -/
def State.look (s : State) (c : CpuId) (ready : ThreadId → Bool) : State :=
  if s.stopped || s.nothingLeft then s.setPhase c .leaving
  else match s.queue.find? ready with
    | some t =>
      ({ s with queue := s.queue.eraseP ready }.setThread c (some t)).setPhase c (.resuming t)
    | none => s.setPhase c .parked

/-- `schedule`: the thread the cpu had goes back to the queue, and the first look. -/
def State.schedule (s : State) (c : CpuId) (prev : Option ThreadId) (ready : ThreadId → Bool) : State :=
  match prev with
  | none => s.look c ready
  | some t => ({ s.setThread c none with queue := s.queue ++ [t] }).look c ready

def State.remove (s : State) (id : ThreadId) : State :=
  { s with
    queue := s.queue.filter fun t => t != id
    removed := Function.update s.removed id true }

/-- A call of `terminate_thread` returns. -/
def State.returns (s : State) (id : ThreadId) : State :=
  { s with returned := Function.update s.returned id true }

/-- The section of `terminate_thread` that looks the thread up. -/
def State.eraseThread (s : State) (id : ThreadId) : State :=
  { s with threads := Function.update s.threads id false }

/-- The loop of `preempt_for_waiting`: a stop is asked of the cpus that have a thread, as long as a queued
thread is to spare for it. -/
def askStops (current : CpuId → Option ThreadId) :
    Nat → List CpuId → (CpuId → Bool) → CpuId → Bool
  | _, [], asked => asked
  | 0, _, asked => asked
  | spare + 1, c :: cs, asked =>
    if (current c).isNone then askStops current (spare + 1) cs asked
    else askStops current spare cs (Function.update asked c true)

inductive Event
  /-- A process takes a new thread on its list. -/
  | register (t : ThreadId)
  /-- A thread that has just been made is put on the queue: each caller of `enqueue` makes it first. -/
  | enqueue (t : ThreadId)
  | schedule (c : CpuId) (ready : ThreadId → Bool)
  | lookAgain (c : CpuId) (ready : ThreadId → Bool)
  | resume (c : CpuId)
  /-- The running thread marks itself finished. -/
  | finish (c : CpuId)
  /-- A handler ends another thread: the two sections of `terminate_thread`. -/
  | terminate (c : CpuId) (id : ThreadId)
  | terminateRemove (c : CpuId)
  /-- `cpu.run` returns. -/
  | runReturns (c : CpuId)
  | release (c : CpuId)
  /-- The cpu ends the thread it ran: the two sections of `terminate_thread`. -/
  | endThread (c : CpuId)
  | endRemove (c : CpuId)
  | preemptForWaiting (mayRun : ThreadId → Bool)
  | stop

/-- The event with the answers of `is_ready` changed. -/
def Event.mapReady (f : (ThreadId → Bool) → ThreadId → Bool) : Event → Event
  | .schedule c ready => .schedule c (f ready)
  | .lookAgain c ready => .lookAgain c (f ready)
  | e => e

variable {e : Event} {c : CpuId} {ready : ThreadId → Bool}

theorem mapReady_looks {f : (ThreadId → Bool) → ThreadId → Bool}
    (h : e.mapReady f = .schedule c ready ∨ e.mapReady f = .lookAgain c ready) :
    ∃ asked, ready = f asked := by
  cases e with
  | schedule d asked =>
    obtain h | h := h <;> cases h
    exact ⟨asked, rfl⟩
  | lookAgain d asked =>
    obtain h | h := h <;> cases h
    exact ⟨asked, rfl⟩
  | _ => obtain h | h := h <;> cases h

theorem mapReady_resume {f : (ThreadId → Bool) → ThreadId → Bool} (h : e.mapReady f = .resume c) : e = .resume c := by
  cases e with
  | schedule d asked => cases h
  | lookAgain d asked => cases h
  | _ => exact h

def State.cpuStep (s : State) (c : CpuId) : Event → Phase → Option State
  | .schedule _ ready, .entering prev => some (s.schedule c prev ready)
  | .lookAgain _ ready, .parked => some (s.look c ready)
  | .resume _, .resuming t => some (s.setPhase c (.running t none))
  | .finish _, .running t none =>
    some { s with finished := Function.update s.finished t true }
  | .terminate _ id, .running t none =>
    if id = t then none
    else if s.threads id then some ((s.eraseThread id).setPhase c (.running t (some id)))
    else some (s.returns id)
  | .terminateRemove _, .running t (some id) =>
    some (((s.remove id).returns id).setPhase c (.running t none))
  | .runReturns _, .running t none =>
    some (s.setPhase c (if s.finished t then .retiring t else .entering (some t)))
  | .release _, .retiring t => some ((s.setThread c none).setPhase c (.ending t))
  | .release _, .leaving => some ((s.setThread c none).setPhase c .left)
  | .endThread _, .ending t =>
    if s.threads t then some ((s.eraseThread t).setPhase c (.removing t))
    else some ((s.returns t).setPhase c (.entering none))
  | .endRemove _, .removing t => some (((s.remove t).returns t).setPhase c (.entering none))
  | _, _ => none

def Event.cpu : Event → Option CpuId
  | .schedule c _ => some c
  | .lookAgain c _ => some c
  | .resume c => some c
  | .finish c => some c
  | .terminate c _ => some c
  | .terminateRemove c => some c
  | .runReturns c => some c
  | .release c => some c
  | .endThread c => some c
  | .endRemove c => some c
  | _ => none

def step (s : State) (e : Event) : Option State :=
  match e.cpu with
  | some c => if c ∈ s.cpus then s.cpuStep c e (s.phase c) else none
  | none =>
    match e with
    | .register t => some { s with threads := Function.update s.threads t true }
    | .enqueue t =>
      if s.enqueued t then none
      else some { s with queue := s.queue ++ [t], enqueued := Function.update s.enqueued t true }
    | .preemptForWaiting mayRun =>
      some { s with
        stopRequested := askStops s.current (s.queue.countP mayRun) s.cpus s.stopRequested }
    | .stop => some { s with stopped := true }
    | _ => none

def State.caller (s : State) (c : CpuId) : Option ThreadId :=
  if c ∈ s.cpus then
    match s.phase c with
    | .running t none => some t
    | _ => none
  else none

variable {s : State} {t : ThreadId}

theorem caller_eq_some (h : s.caller c = some t) :
    s.phase c = .running t none := by
  unfold State.caller at h
  split at h
  · split at h
    · cases h
      assumption
    · cases h
  · cases h

inductive Stepped (s : State) : Event → State → Prop
  | register (t : ThreadId) :
    Stepped s (.register t) { s with threads := Function.update s.threads t true }
  | enqueue (t : ThreadId) (hnew : s.enqueued t = false) :
    Stepped s (.enqueue t)
      { s with queue := s.queue ++ [t], enqueued := Function.update s.enqueued t true }
  | preempt (mayRun : ThreadId → Bool) :
    Stepped s (.preemptForWaiting mayRun)
      { s with stopRequested := askStops s.current (s.queue.countP mayRun) s.cpus s.stopRequested }
  | stop : Stepped s .stop { s with stopped := true }
  | schedule {c : CpuId} {prev : Option ThreadId} (ready : ThreadId → Bool) (hc : c ∈ s.cpus)
      (hp : s.phase c = .entering prev) : Stepped s (.schedule c ready) (s.schedule c prev ready)
  | lookAgain {c : CpuId} (ready : ThreadId → Bool) (hc : c ∈ s.cpus) (hp : s.phase c = .parked) :
    Stepped s (.lookAgain c ready) (s.look c ready)
  | resume {c : CpuId} {t : ThreadId} (hc : c ∈ s.cpus) (hp : s.phase c = .resuming t) :
    Stepped s (.resume c) (s.setPhase c (.running t none))
  | finish {c : CpuId} {t : ThreadId} (hc : c ∈ s.cpus) (hp : s.phase c = .running t none) :
    Stepped s (.finish c) { s with finished := Function.update s.finished t true }
  | terminate {c : CpuId} {t id : ThreadId} (hc : c ∈ s.cpus) (hp : s.phase c = .running t none)
      (hne : id ≠ t) (hfound : s.threads id = true) :
    Stepped s (.terminate c id) ((s.eraseThread id).setPhase c (.running t (some id)))
  | terminateGone {c : CpuId} {t id : ThreadId} (hc : c ∈ s.cpus)
      (hp : s.phase c = .running t none) (hne : id ≠ t) (hgone : s.threads id = false) :
    Stepped s (.terminate c id) (s.returns id)
  | terminateRemove {c : CpuId} {t id : ThreadId} (hc : c ∈ s.cpus)
      (hp : s.phase c = .running t (some id)) :
    Stepped s (.terminateRemove c) (((s.remove id).returns id).setPhase c (.running t none))
  | runReturns {c : CpuId} {t : ThreadId} (hc : c ∈ s.cpus) (hp : s.phase c = .running t none)
      (hfin : s.finished t = false) :
    Stepped s (.runReturns c) (s.setPhase c (.entering (some t)))
  | runEnds {c : CpuId} {t : ThreadId} (hc : c ∈ s.cpus) (hp : s.phase c = .running t none)
      (hfin : s.finished t = true) : Stepped s (.runReturns c) (s.setPhase c (.retiring t))
  | release {c : CpuId} {t : ThreadId} (hc : c ∈ s.cpus) (hp : s.phase c = .retiring t) :
    Stepped s (.release c) ((s.setThread c none).setPhase c (.ending t))
  | leave {c : CpuId} (hc : c ∈ s.cpus) (hp : s.phase c = .leaving) :
    Stepped s (.release c) ((s.setThread c none).setPhase c .left)
  | endThread {c : CpuId} {t : ThreadId} (hc : c ∈ s.cpus) (hp : s.phase c = .ending t)
      (hfound : s.threads t = true) :
    Stepped s (.endThread c) ((s.eraseThread t).setPhase c (.removing t))
  | endGone {c : CpuId} {t : ThreadId} (hc : c ∈ s.cpus) (hp : s.phase c = .ending t)
      (hgone : s.threads t = false) :
    Stepped s (.endThread c) ((s.returns t).setPhase c (.entering none))
  | endRemove {c : CpuId} {t : ThreadId} (hc : c ∈ s.cpus) (hp : s.phase c = .removing t) :
    Stepped s (.endRemove c) (((s.remove t).returns t).setPhase c (.entering none))

variable {s' : State}

theorem stepped_of_cpuStep (hc : c ∈ s.cpus)
    (he : e.cpu = some c) (h : s.cpuStep c e (s.phase c) = some s') : Stepped s e s' := by
  generalize hp : s.phase c = p at h
  unfold State.cpuStep at h
  split at h <;> simp only [Event.cpu, Option.some.injEq] at he
  · subst he; cases h; exact .schedule _ hc hp
  · subst he; cases h; exact .lookAgain _ hc hp
  · subst he; cases h; exact .resume hc hp
  · subst he; cases h; exact .finish hc hp
  · subst he
    split at h
    · simp at h
    · rename_i hne
      split at h <;> cases h
      · exact .terminate hc hp hne ‹_›
      · exact .terminateGone hc hp hne (eq_false_of_ne_true ‹_›)
  · subst he; cases h; exact .terminateRemove hc hp
  · subst he; cases h
    split
    · exact .runEnds hc hp ‹_›
    · exact .runReturns hc hp (eq_false_of_ne_true ‹_›)
  · subst he; cases h; exact .release hc hp
  · subst he; cases h; exact .leave hc hp
  · subst he
    split at h <;> cases h
    · exact .endThread hc hp ‹_›
    · exact .endGone hc hp (eq_false_of_ne_true ‹_›)
  · subst he; cases h; exact .endRemove hc hp
  · simp at h

theorem stepped_of_step (h : step s e = some s') : Stepped s e s' := by
  unfold step at h
  split at h
  · split at h
    · exact stepped_of_cpuStep ‹_› ‹_› h
    · simp at h
  · split at h
    · cases h; exact .register _
    · split at h
      · simp at h
      · cases h; exact .enqueue _ (eq_false_of_ne_true ‹_›)
    · cases h; exact .preempt _
    · cases h; exact .stop
    · simp at h

theorem runReturns_phase (hstep : step s (.runReturns c) = some s') :
    ∃ t, s.phase c = .running t none := by
  cases stepped_of_step hstep with
  | runReturns hc hp hfin => exact ⟨_, hp⟩
  | runEnds hc hp hfin => exact ⟨_, hp⟩

theorem cpus_step (hstep : step s e = some s') : s'.cpus = s.cpus := by
  have hlook : ∀ (s₀ : State) (c : CpuId) (ready : ThreadId → Bool), (s₀.look c ready).cpus = s₀.cpus := by
    intro s₀ c ready
    unfold State.look
    split
    · rfl
    · split <;> rfl
  cases stepped_of_step hstep with
  | @schedule c prev ready hc hp =>
    cases prev with
    | none => exact hlook s c ready
    | some t => exact hlook { s.setThread c none with queue := s.queue ++ [t] } c ready
  | lookAgain ready hc hp => exact hlook s _ ready
  | _ => rfl

/-! ## Where the threads are -/

def Phase.thread : Phase → Option ThreadId
  | .entering prev => prev
  | .resuming t => some t
  | .running t _ => some t
  | .retiring t => some t
  | .parked => none
  | .ending _ => none
  | .removing _ => none
  | .leaving => none
  | .left => none

/-- No thread is in two places, none that may still run is in no place, and a cpu has the thread of its
phase. -/
structure Placed (s : State) : Prop where
  queuedOnce : s.queue.Nodup
  queuedFree : ∀ c, ∀ t ∈ s.queue, s.current c ≠ some t
  heldOnce : ∀ c d t, s.current c = some t → s.current d = some t → c = d
  held : ∀ c, s.current c = (s.phase c).thread
  ofMachine : ∀ c t, s.current c = some t → c ∈ s.cpus
  somewhere : ∀ t, s.enqueued t = true → s.finished t = true ∨ s.removed t = true ∨ t ∈ s.queue ∨
    ∃ c, s.current c = some t
  queuedKnown : ∀ t ∈ s.queue, s.enqueued t = true
  heldKnown : ∀ c t, s.current c = some t → s.enqueued t = true
  retired : ∀ c t, s.phase c = .retiring t → s.finished t = true

@[simp] theorem setPhase_setPhase (s : State) (c : CpuId) (p q : Phase) :
    (s.setPhase c p).setPhase c q = s.setPhase c q := by
  simp [State.setPhase]

theorem look_setPhase (s : State) (c : CpuId) (p : Phase) (ready : ThreadId → Bool) :
    (s.setPhase c p).look c ready = s.look c ready := by
  have hleft : (s.setPhase c p).nothingLeft = s.nothingLeft := rfl
  unfold State.look
  rw [hleft]
  show (if s.stopped || s.nothingLeft then _ else match s.queue.find? ready with | some t => _ | none => _) = _
  simp only [setPhase_setPhase]
  cases s.queue.find? ready with
  | none => rfl
  | some t => simp [State.setPhase, State.setThread]

theorem update_true_of {f : ThreadId → Bool} {u : ThreadId} (h : f u = true) :
    Function.update f t true u = true := by
  by_cases hut : u = t <;> simp [hut, h]

theorem update_none_eq_some {f : CpuId → Option ThreadId} {d : CpuId} :
    Function.update f c none d = some t ↔ d ≠ c ∧ f d = some t := by
  by_cases hd : d = c
  · simp [hd]
  · simp [hd]

theorem Placed.setPhase (h : Placed s) {p : Phase}
    (hthread : p.thread = (s.phase c).thread) (hret : ∀ t, p = .retiring t → s.finished t = true) :
    Placed (s.setPhase c p) where
  queuedOnce := h.queuedOnce
  queuedFree := h.queuedFree
  heldOnce := h.heldOnce
  held d := by
    by_cases hd : d = c
    · subst hd
      simpa [State.setPhase, hthread] using h.held d
    · simpa [State.setPhase, hd] using h.held d
  ofMachine := h.ofMachine
  somewhere := h.somewhere
  queuedKnown := h.queuedKnown
  heldKnown := h.heldKnown
  retired d t hd := by
    by_cases hdc : d = c
    · subst hdc
      exact hret t (by simpa [State.setPhase] using hd)
    · exact h.retired d t (by simpa [State.setPhase, hdc] using hd)

theorem Placed.drop (h : Placed s) {p : Phase} (hp : p.thread = none)
    (hret : ∀ t, p ≠ .retiring t) (hfin : ∀ t, s.current c = some t → s.finished t = true) :
    Placed ((s.setThread c none).setPhase c p) where
  queuedOnce := h.queuedOnce
  queuedFree d t ht hd := h.queuedFree d t ht (update_none_eq_some.mp hd).2
  heldOnce d e t hd he :=
    h.heldOnce d e t (update_none_eq_some.mp hd).2 (update_none_eq_some.mp he).2
  held d := by
    by_cases hd : d = c
    · simp [State.setPhase, State.setThread, hd, hp]
    · simpa [State.setPhase, State.setThread, hd] using h.held d
  ofMachine d t hd := h.ofMachine d t (update_none_eq_some.mp hd).2
  somewhere t ht := by
    obtain hf | hr | hq | ⟨d, hd⟩ := h.somewhere t ht
    · exact .inl hf
    · exact .inr (.inl hr)
    · exact .inr (.inr (.inl hq))
    · by_cases hdc : d = c
      · exact .inl (hfin t (hdc ▸ hd))
      · exact .inr (.inr (.inr ⟨d, update_none_eq_some.mpr ⟨hdc, hd⟩⟩))
  queuedKnown := h.queuedKnown
  heldKnown d t hd := h.heldKnown d t (update_none_eq_some.mp hd).2
  retired d t hd := by
    have hdc : d ≠ c := fun h => hret t (by simpa [State.setPhase, State.setThread, h] using hd)
    exact h.retired d t (by simpa [State.setPhase, State.setThread, hdc] using hd)

theorem Placed.requeue (h : Placed s) (hcur : s.current c = some t) :
    Placed ({ s.setThread c none with queue := s.queue ++ [t] }.setPhase c .parked) where
  queuedOnce := by
    have hnot : t ∉ s.queue := fun hmem => h.queuedFree c t hmem hcur
    exact List.nodup_append.mpr ⟨h.queuedOnce, List.nodup_singleton t, fun a ha b hb hab =>
      hnot (List.mem_singleton.mp hb ▸ hab ▸ ha)⟩
  queuedFree d u hu hd := by
    obtain ⟨hdc, hd⟩ := update_none_eq_some.mp hd
    obtain hu | hu := List.mem_append.mp hu
    · exact h.queuedFree d u hu hd
    · have hut : u = t := List.mem_singleton.mp hu
      exact hdc (h.heldOnce d c t (hut ▸ hd) hcur)
  heldOnce d e u hd he :=
    h.heldOnce d e u (update_none_eq_some.mp hd).2 (update_none_eq_some.mp he).2
  held d := by
    by_cases hd : d = c
    · simp [State.setPhase, State.setThread, hd, Phase.thread]
    · simpa [State.setPhase, State.setThread, hd] using h.held d
  ofMachine d u hd := h.ofMachine d u (update_none_eq_some.mp hd).2
  somewhere u hu := by
    obtain hf | hr | hq | ⟨d, hd⟩ := h.somewhere u hu
    · exact .inl hf
    · exact .inr (.inl hr)
    · exact .inr (.inr (.inl (List.mem_append_left _ hq)))
    · by_cases hdc : d = c
      · have hut : u = t := Option.some.inj ((hdc ▸ hd).symm.trans hcur)
        exact .inr (.inr (.inl (by simp [State.setPhase, hut])))
      · exact .inr (.inr (.inr ⟨d, update_none_eq_some.mpr ⟨hdc, hd⟩⟩))
  queuedKnown u hu := by
    obtain hu | hu := List.mem_append.mp hu
    · exact h.queuedKnown u hu
    · exact List.mem_singleton.mp hu ▸ h.heldKnown c t hcur
  heldKnown d u hd := h.heldKnown d u (update_none_eq_some.mp hd).2
  retired d u hd := by
    have hdc : d ≠ c := fun h => by simp [State.setPhase, State.setThread, h] at hd
    exact h.retired d u (by simpa [State.setPhase, State.setThread, hdc] using hd)

theorem eraseP_of_find? {l : List ThreadId} (h : l.find? ready = some t) : l.eraseP ready = l.erase t := by
  induction l with
  | nil => simp at h
  | cons a l ih =>
    by_cases ha : ready a = true
    · have hat : a = t := by simpa [ha] using h
      rw [List.eraseP_cons_of_pos ha, hat, List.erase_cons_head]
    · have hfind : l.find? ready = some t := by simpa [ha] using h
      have hat : a ≠ t := fun hat => ha (hat ▸ List.find?_some hfind)
      rw [List.eraseP_cons_of_neg ha, List.erase_cons_tail (by simpa using hat), ih hfind]

theorem Placed.take (h : Placed s) (hc : c ∈ s.cpus) (hnone : s.current c = none)
    (hfind : s.queue.find? ready = some t) :
    Placed (({ s with queue := s.queue.eraseP ready }.setThread c (some t)).setPhase c (.resuming t)) := by
  have hmem : t ∈ s.queue := List.mem_of_find?_eq_some hfind
  have hcur : ∀ d u, Function.update s.current c (some t) d = some u →
      (d = c ∧ u = t) ∨ (d ≠ c ∧ s.current d = some u) := by
    intro d u hd
    by_cases hdc : d = c
    · subst hdc
      exact .inl ⟨rfl, by simpa [eq_comm] using hd⟩
    · exact .inr ⟨hdc, by simpa [hdc] using hd⟩
  have hqueue : ∀ u, u ∈ s.queue.eraseP ready ↔ u ≠ t ∧ u ∈ s.queue := by
    intro u
    rw [eraseP_of_find? hfind]
    exact h.queuedOnce.mem_erase_iff
  exact {
    queuedOnce := h.queuedOnce.sublist List.eraseP_sublist
    queuedFree := by
      intro d u hu hd
      obtain ⟨hne, hu⟩ := (hqueue u).mp hu
      obtain ⟨-, rfl⟩ | ⟨-, hd⟩ := hcur d u hd
      · exact hne rfl
      · exact h.queuedFree d u hu hd
    heldOnce := by
      intro d e u hd he
      obtain ⟨hdc, hut⟩ | ⟨-, hd⟩ := hcur d u hd
      · obtain ⟨hec, -⟩ | ⟨-, he⟩ := hcur e u he
        · exact hdc.trans hec.symm
        · exact (h.queuedFree e t hmem (hut ▸ he)).elim
      · obtain ⟨-, hut⟩ | ⟨-, he⟩ := hcur e u he
        · exact (h.queuedFree d t hmem (hut ▸ hd)).elim
        · exact h.heldOnce d e u hd he
    held := by
      intro d
      by_cases hd : d = c
      · simp [State.setPhase, State.setThread, hd, Phase.thread]
      · simpa [State.setPhase, State.setThread, hd] using h.held d
    ofMachine := by
      intro d u hd
      obtain ⟨rfl, -⟩ | ⟨-, hd⟩ := hcur d u hd
      · exact hc
      · exact h.ofMachine d u hd
    somewhere := by
      intro u hu
      obtain hf | hr | hq | ⟨d, hd⟩ := h.somewhere u hu
      · exact .inl hf
      · exact .inr (.inl hr)
      · by_cases hut : u = t
        · exact .inr (.inr (.inr ⟨c, by simp [State.setPhase, State.setThread, hut]⟩))
        · exact .inr (.inr (.inl ((hqueue u).mpr ⟨hut, hq⟩)))
      · have hdc : d ≠ c := fun h => by simp [h, hnone] at hd
        exact .inr (.inr (.inr ⟨d, by simpa [State.setPhase, State.setThread, hdc] using hd⟩))
    queuedKnown := fun u hu => h.queuedKnown u ((hqueue u).mp hu).2
    heldKnown := by
      intro d u hd
      obtain ⟨-, rfl⟩ | ⟨-, hd⟩ := hcur d u hd
      · exact h.queuedKnown u hmem
      · exact h.heldKnown d u hd
    retired := by
      intro d u hd
      have hdc : d ≠ c := fun h => by simp [State.setPhase, State.setThread, h] at hd
      exact h.retired d u (by simpa [State.setPhase, State.setThread, hdc] using hd) }

theorem Placed.look (h : Placed s) (hc : c ∈ s.cpus)
    (hnone : (s.phase c).thread = none) (ready : ThreadId → Bool) : Placed (s.look c ready) := by
  unfold State.look
  split
  · exact h.setPhase hnone.symm (by simp)
  · split
    · exact h.take hc ((h.held c).trans hnone) ‹_›
    · exact h.setPhase hnone.symm (by simp)

theorem Placed.schedule {s : State} (h : Placed s) {c : CpuId} (hc : c ∈ s.cpus)
    {prev : Option ThreadId} (hp : s.phase c = .entering prev) (ready : ThreadId → Bool) :
    Placed (s.schedule c prev ready) := by
  cases prev with
  | none => exact h.look hc (by rw [hp]; rfl) ready
  | some t =>
    have hcur : s.current c = some t := (h.held c).trans (by rw [hp]; rfl)
    have hparked := (h.requeue hcur).look (c := c) hc (by simp [State.setPhase, Phase.thread]) ready
    rwa [look_setPhase] at hparked

theorem Placed.enqueue (h : Placed s) (hnew : s.enqueued t = false) :
    Placed { s with queue := s.queue ++ [t], enqueued := Function.update s.enqueued t true } := by
  exact { h with
    queuedOnce := by
      have hnot : t ∉ s.queue := fun hmem => by simp [h.queuedKnown t hmem] at hnew
      exact List.nodup_append.mpr ⟨h.queuedOnce, List.nodup_singleton t, fun a ha b hb hab =>
        hnot (List.mem_singleton.mp hb ▸ hab ▸ ha)⟩
    queuedFree := by
      intro c u hu hcur
      obtain hu | hu := List.mem_append.mp hu
      · exact h.queuedFree c u hu hcur
      · have hut : u = t := List.mem_singleton.mp hu
        simp [h.heldKnown c t (hut ▸ hcur)] at hnew
    somewhere := by
      intro u hu
      by_cases hut : u = t
      · exact .inr (.inr (.inl (by simp [hut])))
      · obtain hf | hr | hq | hd := h.somewhere u (by simpa [hut] using hu)
        · exact .inl hf
        · exact .inr (.inl hr)
        · exact .inr (.inr (.inl (List.mem_append_left _ hq)))
        · exact .inr (.inr (.inr hd))
    queuedKnown := by
      intro u hu
      obtain hu | hu := List.mem_append.mp hu
      · exact update_true_of (h.queuedKnown u hu)
      · simp [List.mem_singleton.mp hu]
    heldKnown := fun c u hcur => update_true_of (h.heldKnown c u hcur) }

theorem Placed.remove (h : Placed s) (id : ThreadId) : Placed (s.remove id) where
  queuedOnce := h.queuedOnce.filter _
  queuedFree c t ht := h.queuedFree c t (List.mem_filter.mp ht).1
  heldOnce := h.heldOnce
  held := h.held
  ofMachine := h.ofMachine
  somewhere t ht := by
    by_cases hid : t = id
    · exact .inr (.inl (by simp [State.remove, hid]))
    · obtain hf | hr | hq | hd := h.somewhere t ht
      · exact .inl hf
      · exact .inr (.inl (by simpa [State.remove, hid] using hr))
      · exact .inr (.inr (.inl (List.mem_filter.mpr ⟨hq, by simpa using hid⟩)))
      · exact .inr (.inr (.inr hd))
  queuedKnown t ht := h.queuedKnown t (List.mem_filter.mp ht).1
  heldKnown := h.heldKnown
  retired := h.retired

theorem Placed.finish {s : State} (h : Placed s) (t : ThreadId) :
    Placed { s with finished := Function.update s.finished t true } :=
  { h with
    somewhere := fun u hu => (h.somewhere u hu).imp update_true_of id
    retired := fun c u hp => update_true_of (h.retired c u hp) }

theorem Placed.returns (h : Placed s) (id : ThreadId) : Placed (s.returns id) :=
  { h with }

theorem Placed.eraseThread (h : Placed s) (id : ThreadId) : Placed (s.eraseThread id) :=
  { h with }

theorem Placed.step (h : Placed s) (hstep : step s e = some s') :
    Placed s' := by
  cases stepped_of_step hstep with
  | register t => exact { h with }
  | enqueue t hnew => exact h.enqueue hnew
  | preempt mayRun => exact { h with }
  | stop => exact { h with }
  | schedule ready hc hp => exact h.schedule hc hp ready
  | lookAgain ready hc hp => exact h.look hc (by rw [hp]; rfl) ready
  | resume hc hp => exact h.setPhase (by rw [hp]; rfl) (by simp)
  | finish hc hp => exact h.finish _
  | terminate hc hp hne hfound =>
    exact (h.eraseThread _).setPhase (by rw [State.eraseThread, hp]; rfl) (by simp)
  | terminateGone hc hp hne hgone => exact h.returns _
  | terminateRemove hc hp =>
    exact ((h.remove _).returns _).setPhase (by rw [State.returns, State.remove, hp]; rfl) (by simp)
  | runReturns hc hp hfin => exact h.setPhase (by rw [hp]; rfl) (by simp)
  | runEnds hc hp hfin =>
    refine h.setPhase (by rw [hp]; rfl) fun t ht => ?_
    cases ht
    exact hfin
  | release hc hp =>
    refine h.drop rfl (by simp) fun t ht => ?_
    rw [h.held, hp] at ht
    cases ht
    exact h.retired _ _ hp
  | leave hc hp =>
    refine h.drop rfl (by simp) fun t ht => ?_
    rw [h.held, hp] at ht
    cases ht
  | endThread hc hp hfound =>
    exact (h.eraseThread _).setPhase (by rw [State.eraseThread, hp]; rfl) (by simp)
  | endGone hc hp hgone =>
    exact (h.returns _).setPhase (by rw [State.returns, hp]; rfl) (by simp)
  | endRemove hc hp =>
    exact ((h.remove _).returns _).setPhase (by rw [State.returns, State.remove, hp]; rfl) (by simp)

theorem schedule_frame (s : State) (c : CpuId) (prev : Option ThreadId) (ready : ThreadId → Bool) :
    ∃ queue current p, s.schedule c prev ready =
        { s with queue := queue, current := current, phase := Function.update s.phase c p } ∧
      (p = .leaving ∨ p = .parked ∨ ∃ t, p = .resuming t) := by
  have hlook : ∀ s₀ : State, ∃ queue current p, s₀.look c ready =
        { s₀ with queue := queue, current := current, phase := Function.update s₀.phase c p } ∧
      (p = .leaving ∨ p = .parked ∨ ∃ t, p = .resuming t) := by
    intro s₀
    unfold State.look
    split
    · exact ⟨_, _, _, rfl, .inl rfl⟩
    · split
      · exact ⟨_, _, _, rfl, .inr (.inr ⟨_, rfl⟩)⟩
      · exact ⟨_, _, _, rfl, .inr (.inl rfl)⟩
  cases prev with
  | none => exact hlook s
  | some t => exact hlook { s.setThread c none with queue := s.queue ++ [t] }

theorem marks_step (hstep : step s e = some s') (id : ThreadId) :
    (s.enqueued id = true → s'.enqueued id = true) ∧ (s.finished id = true → s'.finished id = true) := by
  cases stepped_of_step hstep with
  | enqueue t hnew => exact ⟨update_true_of, fun h => h⟩
  | @schedule c prev ready hc hp =>
    obtain ⟨_, _, _, heq, -⟩ := schedule_frame s c prev ready
    rw [heq]
    exact ⟨fun h => h, fun h => h⟩
  | @lookAgain c ready hc hp =>
    obtain ⟨_, _, _, heq, -⟩ := schedule_frame s c none ready
    rw [show s.look c ready = s.schedule c none ready from rfl, heq]
    exact ⟨fun h => h, fun h => h⟩
  | finish hc hp => exact ⟨fun h => h, update_true_of⟩
  | _ => exact ⟨fun h => h, fun h => h⟩

theorem look_current {d : CpuId} (h : (s.look c ready).current d = some t) :
    (s.current d = some t) ∨ (d = c ∧ (s.look c ready).phase c = .resuming t ∧ ready t = true) := by
  unfold State.look at h ⊢
  split at h
  · exact .inl h
  · rename_i hcond
    rw [if_neg hcond]
    split at h
    · rename_i u hfind
      by_cases hd : d = c
      · have hut : u = t := by simpa [State.setPhase, State.setThread, hd] using h
        exact .inr ⟨hd, by simp [State.setPhase, hut], hut ▸ List.find?_some hfind⟩
      · exact .inl (by simpa [State.setPhase, State.setThread, hd] using h)
    · exact .inl h

theorem look_phase_of_ne {d : CpuId} (ready : ThreadId → Bool) (h : d ≠ c) :
    (s.look c ready).phase d = s.phase d := by
  unfold State.look
  split
  · simp [State.setPhase, h]
  · split <;> simp [State.setPhase, State.setThread, h]

/-- A cpu that has a thread after a step had it before, or has just taken it, ready. -/
theorem current_step (hstep : step s e = some s') (hcur : s'.current c = some t) :
    (s.current c = some t ∧ (s'.phase c = s.phase c ∨ e.cpu = some c)) ∨ (s'.phase c = .resuming t ∧
        ∃ ready, (e = .schedule c ready ∨ e = .lookAgain c ready) ∧ ready t = true) := by
  -- a step that leaves the threads where they are and moves one cpu on
  have hstay : ∀ {d : CpuId} {p : Phase}, e.cpu = some d → s'.current = s.current →
      s'.phase = Function.update s.phase d p →
      s.current c = some t ∧ (s'.phase c = s.phase c ∨ e.cpu = some c) := by
    intro d p he hcurrent hphase
    refine ⟨hcurrent ▸ hcur, ?_⟩
    by_cases hcd : c = d
    · exact .inr (hcd ▸ he)
    · exact .inl (by rw [hphase, Function.update_of_ne hcd])
  cases stepped_of_step hstep with
  | register t => exact .inl ⟨hcur, .inl rfl⟩
  | enqueue t hnew => exact .inl ⟨hcur, .inl rfl⟩
  | preempt mayRun => exact .inl ⟨hcur, .inl rfl⟩
  | stop => exact .inl ⟨hcur, .inl rfl⟩
  | @schedule d prev ready hc hp =>
    cases prev with
    | none =>
      obtain hold | ⟨rfl, hphase, hready⟩ := look_current hcur
      · by_cases hcd : c = d
        · exact .inl ⟨hold, .inr (by rw [hcd]; rfl)⟩
        · exact .inl ⟨hold, .inl (look_phase_of_ne ready hcd)⟩
      · exact .inr ⟨hphase, ready, .inl rfl, hready⟩
    | some prev =>
      obtain hold | ⟨rfl, hphase, hready⟩ := look_current hcur
      · obtain ⟨hcd, hold⟩ := update_none_eq_some.mp hold
        exact .inl ⟨hold, .inl (look_phase_of_ne ready hcd)⟩
      · exact .inr ⟨hphase, ready, .inl rfl, hready⟩
  | @lookAgain d ready hc hp =>
    obtain hold | ⟨rfl, hphase, hready⟩ := look_current hcur
    · by_cases hcd : c = d
      · exact .inl ⟨hold, .inr (by rw [hcd]; rfl)⟩
      · exact .inl ⟨hold, .inl (look_phase_of_ne ready hcd)⟩
    · exact .inr ⟨hphase, ready, .inr rfl, hready⟩
  | resume hc hp => exact .inl (hstay rfl rfl rfl)
  | finish hc hp => exact .inl ⟨hcur, .inl rfl⟩
  | terminate hc hp hne hfound => exact .inl (hstay rfl rfl rfl)
  | terminateGone hc hp hne hgone => exact .inl ⟨hcur, .inl rfl⟩
  | terminateRemove hc hp => exact .inl (hstay rfl rfl rfl)
  | runReturns hc hp hfin => exact .inl (hstay rfl rfl rfl)
  | runEnds hc hp hfin => exact .inl (hstay rfl rfl rfl)
  | release hc hp =>
    obtain ⟨hcd, hold⟩ := update_none_eq_some.mp hcur
    exact .inl ⟨hold, .inl (by simp [State.setPhase, State.setThread, hcd])⟩
  | leave hc hp =>
    obtain ⟨hcd, hold⟩ := update_none_eq_some.mp hcur
    exact .inl ⟨hold, .inl (by simp [State.setPhase, State.setThread, hcd])⟩
  | endThread hc hp hfound => exact .inl (hstay rfl rfl rfl)
  | endGone hc hp hgone => exact .inl (hstay rfl rfl rfl)
  | endRemove hc hp => exact .inl (hstay rfl rfl rfl)

theorem resuming_step (hstep : step s e = some s') (he : e.cpu = some c) (hphase : s.phase c = .resuming t) :
    e = .resume c ∧ s' = s.setPhase c (.running t none) := by
  cases stepped_of_step hstep with
  | resume hc hp =>
    cases he
    rw [hphase] at hp
    cases hp
    exact ⟨rfl, rfl⟩
  | register t => cases he
  | enqueue t hnew => cases he
  | preempt mayRun => cases he
  | stop => cases he
  | schedule ready hc hp => cases he; simp [hphase] at hp
  | lookAgain ready hc hp => cases he; simp [hphase] at hp
  | finish hc hp => cases he; simp [hphase] at hp
  | terminate hc hp hne hfound => cases he; simp [hphase] at hp
  | terminateGone hc hp hne hgone => cases he; simp [hphase] at hp
  | terminateRemove hc hp => cases he; simp [hphase] at hp
  | runReturns hc hp hfin => cases he; simp [hphase] at hp
  | runEnds hc hp hfin => cases he; simp [hphase] at hp
  | release hc hp => cases he; simp [hphase] at hp
  | leave hc hp => cases he; simp [hphase] at hp
  | endThread hc hp hfound => cases he; simp [hphase] at hp
  | endGone hc hp hgone => cases he; simp [hphase] at hp
  | endRemove hc hp => cases he; simp [hphase] at hp

/-! ## How the threads move -/

def Event.puts (s : State) : Event → Option ThreadId
  | .enqueue t => some t
  | .schedule c _ =>
    match s.phase c with
    | .entering prev => prev
    | _ => none
  | _ => none

theorem away_look {id : ThreadId} (hoff : id ∉ s.queue) (c : CpuId) (ready : ThreadId → Bool) :
    id ∉ (s.look c ready).queue ∧ ∀ d, (s.look c ready).current d = some id → s.current d = some id := by
  unfold State.look
  split
  · exact ⟨hoff, fun _ h => h⟩
  · split
    · rename_i t hfind
      refine ⟨fun hmem => hoff (List.mem_of_mem_eraseP hmem), fun d hd => ?_⟩
      by_cases hdc : d = c
      · have ht : t = id := by simpa [State.setPhase, State.setThread, hdc] using hd
        exact absurd (ht ▸ List.mem_of_find?_eq_some hfind) hoff
      · simpa [State.setPhase, State.setThread, hdc] using hd
    · exact ⟨hoff, fun _ h => h⟩

/-- A thread off the queue that a step does not put there stays off it and comes to no cpu. -/
theorem away_step {id : ThreadId} (hstep : step s e = some s') (hputs : e.puts s ≠ some id) (hoff : id ∉ s.queue) :
    id ∉ s'.queue ∧ ∀ c, s'.current c = some id → s.current c = some id := by
  cases stepped_of_step hstep with
  | enqueue t hnew =>
    have hne : id ≠ t := fun h => hputs (h ▸ rfl)
    exact ⟨by simp [hoff, hne], fun _ h => h⟩
  | @schedule c prev ready hc hp =>
    cases prev with
    | none => exact away_look hoff c ready
    | some t =>
      have hne : id ≠ t := fun h => hputs (by simp [Event.puts, hp, h])
      have haway := away_look (s := { s.setThread c none with queue := s.queue ++ [t] })
        (show id ∉ s.queue ++ [t] by simp [hoff, hne]) c ready
      exact ⟨haway.1, fun d hd => (update_none_eq_some.mp (haway.2 d hd)).2⟩
  | lookAgain ready hc hp => exact away_look hoff _ ready
  | terminateRemove hc hp => exact ⟨fun h => hoff (List.mem_filter.mp h).1, fun _ h => h⟩
  | endRemove hc hp => exact ⟨fun h => hoff (List.mem_filter.mp h).1, fun _ h => h⟩
  | release hc hp => exact ⟨hoff, fun c h => (update_none_eq_some.mp h).2⟩
  | leave hc hp => exact ⟨hoff, fun c h => (update_none_eq_some.mp h).2⟩
  | _ => exact ⟨hoff, fun _ h => h⟩

def Phase.ran : Phase → Option ThreadId
  | .entering prev => prev
  | .running t _ => some t
  | .retiring t => some t
  | _ => none

theorem Phase.thread_of_ran {p : Phase} (h : p.ran = some t) : p.thread = some t := by
  cases p <;> first | exact h | cases h

theorem look_phase (s : State) (c : CpuId) (ready : ThreadId → Bool) :
    (s.look c ready).phase c = .leaving ∨ (s.look c ready).phase c = .parked ∨
      ∃ t ∈ s.queue, (s.look c ready).phase c = .resuming t := by
  unfold State.look
  split
  · exact .inl (by simp [State.setPhase])
  · split
    · rename_i t hfind
      exact .inr (.inr ⟨t, List.mem_of_find?_eq_some hfind, by simp [State.setPhase]⟩)
    · exact .inr (.inl (by simp [State.setPhase]))

/-- Where the thread of a cpu comes from: one that runs has run there before or has just been restored, and one
to be restored was so before or comes from the queue. -/
structure PhaseFrom (s : State) (e : Event) (s' : State) (c : CpuId) : Prop where
  ran : ∀ t, (s'.phase c).ran = some t →
    (s.phase c).ran = some t ∨ (s.phase c = .resuming t ∧ e = .resume c)
  resuming : ∀ t, s'.phase c = .resuming t → s.phase c = .resuming t ∨ t ∈ s.queue ∨ e.puts s = some t

theorem phase_step (hstep : step s e = some s') (c : CpuId) :
    PhaseFrom s e s' c := by
  -- a step that moves one cpu on, not to a thread to be restored
  have hmove : ∀ {d : CpuId} {p : Phase}, s'.phase = Function.update s.phase d p →
      (∀ t, p.ran = some t → (s.phase d).ran = some t ∨ (s.phase d = .resuming t ∧ e = .resume d)) →
      (∀ t, p ≠ .resuming t) → PhaseFrom s e s' c := by
    intro d p hphase hran hres
    by_cases hcd : c = d
    · subst hcd
      have hp : s'.phase c = p := by rw [hphase, Function.update_self]
      exact ⟨fun t ht => hran t (hp ▸ ht), fun t ht => absurd (hp ▸ ht) (hres t)⟩
    · have hp : s'.phase c = s.phase c := by rw [hphase, Function.update_of_ne hcd]
      exact ⟨fun t ht => .inl (hp ▸ ht), fun t ht => .inl (hp ▸ ht)⟩
  have hlook : ∀ (s₀ : State) (d : CpuId) (ready : ThreadId → Bool), s₀.phase = s.phase →
      (∀ t ∈ s₀.queue, t ∈ s.queue ∨ e.puts s = some t) → s' = s₀.look d ready →
      PhaseFrom s e s' c := by
    intro s₀ d ready hphase hqueue hs'
    by_cases hcd : c = d
    · subst hcd
      obtain hp | hp | ⟨t, ht, hp⟩ := look_phase s₀ c ready <;> rw [← hs'] at hp
      · exact ⟨fun _ h => by simp [hp, Phase.ran] at h, fun _ h => by simp [hp] at h⟩
      · exact ⟨fun _ h => by simp [hp, Phase.ran] at h, fun _ h => by simp [hp] at h⟩
      · refine ⟨fun _ h => by simp [hp, Phase.ran] at h, fun u hu => ?_⟩
        rw [hp] at hu
        cases hu
        exact .inr (hqueue t ht)
    · have hp : s'.phase c = s.phase c := by rw [hs', look_phase_of_ne ready hcd, hphase]
      exact ⟨fun t ht => .inl (hp ▸ ht), fun t ht => .inl (hp ▸ ht)⟩
  have hsame : s'.phase = s.phase → PhaseFrom s e s' c := by
    intro hphase
    exact ⟨fun t ht => .inl (hphase ▸ ht), fun t ht => .inl (hphase ▸ ht)⟩
  cases stepped_of_step hstep with
  | register t => exact hsame rfl
  | enqueue t hnew => exact hsame rfl
  | preempt mayRun => exact hsame rfl
  | stop => exact hsame rfl
  | @schedule d prev ready hc hp =>
    cases prev with
    | none => exact hlook s d ready rfl (fun t ht => .inl ht) rfl
    | some t =>
      refine hlook { s.setThread d none with queue := s.queue ++ [t] } d ready rfl (fun u hu => ?_) rfl
      obtain hu | hu := List.mem_append.mp hu
      · exact .inl hu
      · exact .inr (by simp [Event.puts, hp, List.mem_singleton.mp hu])
  | @lookAgain d ready hc hp => exact hlook s d ready rfl (fun t ht => .inl ht) rfl
  | resume hc hp =>
    refine hmove rfl (fun t ht => ?_) (by simp)
    cases ht
    exact .inr ⟨hp, rfl⟩
  | finish hc hp => exact hsame rfl
  | terminate hc hp hne hfound => exact hmove rfl (fun t ht => .inl (by rw [hp]; exact ht)) (by simp)
  | terminateGone hc hp hne hgone => exact hsame rfl
  | terminateRemove hc hp => exact hmove rfl (fun t ht => .inl (by rw [hp]; exact ht)) (by simp)
  | runReturns hc hp hfin => exact hmove rfl (fun t ht => .inl (by rw [hp]; exact ht)) (by simp)
  | runEnds hc hp hfin => exact hmove rfl (fun t ht => .inl (by rw [hp]; exact ht)) (by simp)
  | release hc hp => exact hmove rfl (fun t ht => by cases ht) (by simp)
  | leave hc hp => exact hmove rfl (fun t ht => by cases ht) (by simp)
  | endThread hc hp hfound => exact hmove rfl (fun t ht => by cases ht) (by simp)
  | endGone hc hp hgone => exact hmove rfl (fun t ht => by cases ht) (by simp)
  | endRemove hc hp => exact hmove rfl (fun t ht => by cases ht) (by simp)

theorem running_step (hstep : step s e = some s') {pending : Option ThreadId} (hp : s.phase c = .running t pending) :
    (∃ pending', s'.phase c = .running t pending') ∨ e = .runReturns c := by
  have hsame : s'.phase c = s.phase c →
      (∃ pending', s'.phase c = .running t pending') ∨ e = .runReturns c :=
    fun h => .inl ⟨pending, h.trans hp⟩
  -- the step of another cpu
  have hother : ∀ {d : CpuId} {p : Phase}, s'.phase = Function.update s.phase d p → c ≠ d →
      (∃ pending', s'.phase c = .running t pending') ∨ e = .runReturns c := by
    intro d p h hcd
    exact hsame (by rw [h, Function.update_of_ne hcd])
  have hne : ∀ {d : CpuId} {p : Phase}, s.phase d = p → (∀ q, p ≠ .running t q) → c ≠ d := by
    intro d p hd hq hcd
    exact hq pending (hd.symm.trans (hcd ▸ hp))
  have hmove : ∀ {d : CpuId} {u : ThreadId} {q q' : Option ThreadId}, s.phase d = .running u q →
      s'.phase = Function.update s.phase d (.running u q') →
      (∃ pending', s'.phase c = .running t pending') ∨ e = .runReturns c := by
    intro d u q q' hd h
    by_cases hcd : c = d
    · rw [← hcd, hp] at hd
      cases hd
      exact .inl ⟨q', by rw [h, ← hcd, Function.update_self]⟩
    · exact hother h hcd
  cases stepped_of_step hstep with
  | register t => exact hsame rfl
  | enqueue t hnew => exact hsame rfl
  | preempt mayRun => exact hsame rfl
  | stop => exact hsame rfl
  | @schedule d prev ready hc hd =>
    have hcd := hne hd (by simp)
    cases prev with
    | none => exact hsame (look_phase_of_ne ready hcd)
    | some u => exact hsame (look_phase_of_ne ready hcd)
  | lookAgain ready hc hd => exact hsame (look_phase_of_ne ready (hne hd (by simp)))
  | resume hc hd => exact hother rfl (hne hd (by simp))
  | finish hc hd => exact hsame rfl
  | terminate hc hd _ _ => exact hmove hd rfl
  | terminateGone hc hd _ _ => exact hsame rfl
  | terminateRemove hc hd => exact hmove hd rfl
  | @runReturns d u hc hd _ =>
    by_cases hcd : c = d
    · exact .inr (hcd ▸ rfl)
    · exact hother rfl hcd
  | @runEnds d u hc hd _ =>
    by_cases hcd : c = d
    · exact .inr (hcd ▸ rfl)
    · exact hother rfl hcd
  | release hc hd => exact hother rfl (hne hd (by simp))
  | leave hc hd => exact hother rfl (hne hd (by simp))
  | endThread hc hd _ => exact hother rfl (hne hd (by simp))
  | endGone hc hd _ => exact hother rfl (hne hd (by simp))
  | endRemove hc hd => exact hother rfl (hne hd (by simp))

/-! ## Leaving `run` -/

def Idle (s : State) : Prop := s.queue = [] ∧ ∀ c ∈ s.cpus, s.current c = none

theorem nothingLeft_iff (s : State) : s.nothingLeft = true ↔ Idle s := by
  simp [State.nothingLeft, Idle]

/-- A step at which a cpu is told to leave finds the scheduler stopped or idle, and a cpu is out of `run`
only after that. -/
structure LeavesOnly (s s' : State) : Prop where
  told : ∀ c, s.phase c ≠ .leaving → s'.phase c = .leaving → s'.stopped = true ∨ Idle s'
  out : ∀ c, s.phase c ≠ .left → s'.phase c = .left → s.phase c = .leaving

theorem LeavesOnly.of_phase (h : s'.phase = s.phase) : LeavesOnly s s' where
  told _ hn hl := absurd (h ▸ hl) hn
  out _ hn hl := absurd (h ▸ hl) hn

theorem LeavesOnly.of_update {p : Phase} (h : s'.phase = Function.update s.phase c p)
    (hl : p = .leaving → s'.stopped = true ∨ Idle s') (hout : p = .left → s.phase c = .leaving) :
    LeavesOnly s s' where
  told d hn hd := by
    rw [h] at hd
    by_cases hdc : d = c
    · subst hdc
      exact hl (by simpa using hd)
    · exact absurd (by simpa [hdc] using hd) hn
  out d hn hd := by
    rw [h] at hd
    by_cases hdc : d = c
    · subst hdc
      exact hout (by simpa using hd)
    · exact absurd (by simpa [hdc] using hd) hn

theorem LeavesOnly.look {s₀ : State} (hphase : s₀.phase = s.phase)
    (ready : ThreadId → Bool) : LeavesOnly s (s₀.look c ready) := by
  unfold State.look
  split
  · rename_i hcond
    refine .of_update (by rw [← hphase]; rfl) (fun _ => ?_) (by simp)
    rw [Bool.or_eq_true, nothingLeft_iff] at hcond
    exact hcond
  · split
    · exact .of_update (by rw [← hphase]; rfl) (by simp) (by simp)
    · exact .of_update (by rw [← hphase]; rfl) (by simp) (by simp)

theorem leavesOnly_step (hstep : step s e = some s') : LeavesOnly s s' := by
  cases stepped_of_step hstep with
  | register t => exact .of_phase rfl
  | enqueue t hnew => exact .of_phase rfl
  | preempt mayRun => exact .of_phase rfl
  | stop => exact .of_phase rfl
  | schedule ready hc hp =>
    unfold State.schedule
    split
    · exact .look (by rfl) ready
    · exact .look (by rfl) ready
  | lookAgain ready hc hp => exact .look rfl ready
  | resume hc hp => exact .of_update rfl (by simp) (by simp)
  | finish hc hp => exact .of_phase rfl
  | terminate hc hp hne hfound => exact .of_update rfl (by simp) (by simp)
  | terminateGone hc hp hne hgone => exact .of_phase rfl
  | terminateRemove hc hp => exact .of_update rfl (by simp) (by simp)
  | runReturns hc hp hfin => exact .of_update rfl (by simp) (by simp)
  | runEnds hc hp hfin => exact .of_update rfl (by simp) (by simp)
  | release hc hp => exact .of_update rfl (by simp) (by simp)
  | leave hc hp => exact .of_update rfl (by simp) fun _ => hp
  | endThread hc hp hfound => exact .of_update rfl (by simp) (by simp)
  | endGone hc hp hgone => exact .of_update rfl (by simp) (by simp)
  | endRemove hc hp => exact .of_update rfl (by simp) (by simp)

/-! ## Conservation -/

/-- The scheduler of a machine with these cpus, before any of them is in `run`. -/
def start (cpus : List CpuId) : State := { cpus }

theorem placed_start (cpus : List CpuId) : Placed (start cpus) := by
  constructor <;> simp [start, Phase.thread]

/-- The steps made one after the other, in any order the phases allow. -/
abbrev Runs := Run.Steps step fun _ _ => True

theorem Placed.run {cpus : List CpuId} {events : List Event} (hrun : Runs (start cpus) events s) : Placed s :=
  hrun.invariant (fun _ _ _ h _ hstep => h.step hstep) (placed_start cpus)

def OnePlace (s : State) (t : ThreadId) : Prop :=
  (s.queue.count t = 1 ∧ ∀ c, s.current c ≠ some t) ∨
    (t ∉ s.queue ∧ ∃! c, c ∈ s.cpus ∧ s.current c = some t)

structure Conserved (s : State) : Prop where
  onePlace : ∀ t, s.enqueued t = true → s.finished t = false → s.removed t = false → OnePlace s t
  queuedOnce : s.queue.Nodup
  heldOnce : ∀ t c d, s.current c = some t → s.current d = some t → c = d

theorem Placed.onePlace (h : Placed s) (hplace : t ∈ s.queue ∨ ∃ c, s.current c = some t) : OnePlace s t := by
  obtain hq | ⟨c, hc⟩ := hplace
  · exact .inl ⟨List.count_eq_one_of_mem h.queuedOnce hq, fun c => h.queuedFree c t hq⟩
  · refine .inr ⟨fun hq => h.queuedFree c t hq hc, c, ⟨h.ofMachine c t hc, hc⟩, ?_⟩
    intro d hd
    exact h.heldOnce d c t hd.2 hc

theorem Placed.conserved (h : Placed s) : Conserved s where
  onePlace t henq hfin hrem := by
    obtain hf | hr | hplace := h.somewhere t henq
    · simp [hf] at hfin
    · simp [hr] at hrem
    · exact h.onePlace hplace
  queuedOnce := h.queuedOnce
  heldOnce t c d := h.heldOnce c d t

/-- **Conservation.** After every run of the scheduler a thread that was enqueued, has not finished and was
not removed is on the queue once or on exactly one cpu, no thread is queued twice or on two cpus, and every
next step lets a cpu out of `run` only when the scheduler is stopped or has nothing left. -/
theorem scheduler_conserves {cpus : List CpuId} {events : List Event} {s : State}
    (hrun : Runs (start cpus) events s) :
    Conserved s ∧ ∀ e s', step s e = some s' → LeavesOnly s s' :=
  ⟨(Placed.run hrun).conserved, fun _ _ => leavesOnly_step⟩

/-- Two cpus change places: each takes the thread that the other had. -/
def exchange : List Event :=
  [.enqueue 7, .enqueue 8, .schedule 0 fun _ => true, .schedule 1 fun _ => true, .resume 0, .resume 1,
    .preemptForWaiting fun _ => true, .runReturns 0, .runReturns 1, .schedule 0 fun t => t == 8,
    .schedule 1 fun _ => true, .lookAgain 0 fun _ => true, .resume 0, .finish 0, .runReturns 0, .release 0]

theorem scheduler_conserves_exchange :
    ∃ s, Runs (start [0, 1]) exchange s ∧ s.finished 8 = true ∧ s.current 1 = some 7 ∧ s.current 0 = none ∧
      Conserved s ∧ ∀ e s', step s e = some s' → LeavesOnly s s' := by
  have hexec : (Run.exec step (fun _ _ => true) (start [0, 1]) exchange).map
      (fun s => (s.finished 8, s.current 1, s.current 0)) = some (true, some 7, none) := by
    decide +kernel
  obtain ⟨s, hs, hfacts⟩ := Option.map_eq_some_iff.mp hexec
  have hrun : Runs (start [0, 1]) exchange s := Run.Steps.of_exec (fun _ _ _ => trivial) hs
  obtain ⟨h8, h1, h0⟩ : s.finished 8 = true ∧ s.current 1 = some 7 ∧ s.current 0 = none := by
    simpa using hfacts
  exact ⟨s, hrun, h8, h1, h0, scheduler_conserves hrun⟩

end Kernemul.Sched
