import Kernemul.Win.Notify.Steps
import Mathlib.Data.Finset.Card

/-!
# What keeps a cpu from being left parked

A cpu that is parked without a deadline looks at the queue again when it is notified. What is to hold then
(`Noticed`), the condition under which it does (`Ok`), and the invariant, which has a cpu for each queued thread
that time or its suspend count alone keep from running.
-/

namespace Kernemul.Notify

open Sched (ThreadId CpuId Placed)
open Sync (Addr Pid Wait)

namespace State

/-! ## Threads and cpus -/

/-- Nothing but its suspend count and the time keep the thread off the cpus. -/
def stirs (s : State) (t : ThreadId) : Bool :=
  match s.wait t with
  | some w => w.satisfied || w.timed
  | none => s.started t

def unblocked (s : State) (t : ThreadId) : Bool := s.suspendCount t == 0 && s.stirs t

def ParkedForGood (s : State) (c : CpuId) : Prop := s.waits c = true ∧ s.deadline c = none

/-- The cpu is in `schedule`, and is going to look at the queue. -/
def attends (s : State) (c : CpuId) : Bool :=
  (s.sched.phase c == .parked || s.holder.any fun sec => sec.cpu == c) &&
    !(s.waits c && (s.deadline c).isNone)

def attending (s : State) : Finset CpuId := s.sched.cpus.toFinset.filter fun c => s.attends c = true

/-- No call has yet to notify of a thread that it has made runnable. -/
def Quiet (s : State) : Prop := ∀ c, (s.call c).owes = false

end State

/-- Handlers notify of what they make runnable, and where a cpu is left parked without a deadline, there is a cpu
that is going to look at the queue for each queued thread that may run. -/
structure Noticed (s : State) : Prop where
  said : ∀ c, (s.call c).owes = false → s.unsaid c = []
  awake : ∀ c, s.ParkedForGood c → s.Quiet → s.queued.countP s.mayRun ≤ s.attending.card

/-! ## Threads -/

section threads
variable {s s' : State} {t : ThreadId}

theorem unblocked_of_mayRun (h : s.mayRun t = true) : s.unblocked t = true := by
  unfold State.mayRun at h
  unfold State.unblocked State.stirs
  rw [Bool.and_eq_true] at h ⊢
  refine ⟨h.1, ?_⟩
  cases hw : s.wait t with
  | none =>
    rw [hw] at h
    exact (Bool.and_eq_true _ _ ▸ h.2).1
  | some w =>
    rw [hw] at h
    rcases (Bool.or_eq_true _ _ ▸ h.2) with hsat | htime
    · exact (Bool.or_eq_true _ _).mpr (Or.inl hsat)
    · exact (Bool.or_eq_true _ _).mpr (Or.inr (Bool.and_eq_true _ _ ▸ htime).1)

/-- What `may_run` asks of a thread, but for the clocks. -/
structure Same (s s' : State) (t : ThreadId) : Prop where
  suspendCount : s'.suspendCount t = s.suspendCount t
  wait : s'.wait t = s.wait t
  started : s'.started t = s.started t
  sleepUntil : s'.sleepUntil t = s.sleepUntil t

theorem Same.unblocked (h : Same s s' t) : s'.unblocked t = s.unblocked t := by
  unfold State.unblocked State.stirs
  rw [h.suspendCount, h.wait, h.started]

theorem Same.sleeping (h : Same s s' t) (hhost : s'.host = s.host) : s'.sleeping t = s.sleeping t := by
  unfold State.sleeping
  rw [h.sleepUntil, hhost]

theorem Same.mayRun (h : Same s s' t) (hhost : s'.host = s.host) (hsystem : s'.system = s.system) :
    s'.mayRun t = s.mayRun t := by
  unfold State.mayRun
  rw [h.suspendCount, h.wait, h.started, h.sleeping hhost, hsystem]

end threads

/-! ## The section of `schedule` -/

section schedule
variable {s : State} {c : CpuId} {ready : ThreadId → Bool} {sched : Sched.State}

/-- The scheduler as a cpu finds it in the section: the thread it brings is on the queue. -/
structure Entered (s : State) (c : CpuId) (q : Sched.State) : Prop where
  queue : q.queue = s.sched.queue ++ (s.previous c).toList
  cpus : q.cpus = s.sched.cpus
  stopped : q.stopped = s.sched.stopped
  enqueued : q.enqueued = s.sched.enqueued
  phase : q.phase = s.sched.phase
  left : q.nothingLeft = true ↔ s.previous c = none ∧ s.sched.nothingLeft = true

theorem schedule_entered (h : s.schedule c ready = some sched) :
    ∃ q, Entered s c q ∧ sched = q.look c ready := by
  have hnone : s.previous c = none → Entered s c s.sched := fun hprev =>
    ⟨by rw [hprev]; exact (List.append_nil _).symm, rfl, rfl, rfl, rfl, fun hl => ⟨hprev, hl⟩, fun hl => hl.2⟩
  unfold State.schedule at h
  split at h
  · rename_i prev hprev
    obtain ⟨⟩ | ⟨⟩ | ⟨⟩ | ⟨⟩ | @⟨_, prev', _, hc, hp⟩ := Sched.stepped_of_step h
    obtain rfl := Sched.Phase.entering.inj (hp.symm.trans hprev)
    have hprevious : s.previous c = prev' := by
      unfold State.previous
      rw [hprev]
    cases prev' with
    | none => exact ⟨_, hnone hprevious, rfl⟩
    | some t =>
      refine ⟨{ s.sched.setThread c none with queue := s.sched.queue ++ [t] }, ⟨?_, rfl, rfl, rfl, rfl, ?_⟩, rfl⟩
      · rw [hprevious]
        rfl
      · rw [hprevious]
        unfold Sched.State.nothingLeft
        simp
  · rename_i hphase
    have hprevious : s.previous c = none := by
      unfold State.previous
      split
      · rename_i prev hprev
        exact absurd hprev (hphase prev)
      · rfl
    obtain ⟨⟩ | ⟨⟩ | ⟨⟩ | ⟨⟩ | ⟨⟩ | ⟨_, hc, hp⟩ := Sched.stepped_of_step h
    exact ⟨_, hnone hprevious, rfl⟩

structure Scheduled (s : State) (c : CpuId) (ready : ThreadId → Bool) (sched : Sched.State) : Prop where
  cpus : sched.cpus = s.sched.cpus
  stopped : sched.stopped = s.sched.stopped
  enqueued : sched.enqueued = s.sched.enqueued
  took : ∀ t, (s.sched.queue ++ (s.previous c).toList).find? ready = some t →
    sched.queue = (s.sched.queue ++ (s.previous c).toList).eraseP ready ∧
      sched.phase = Function.update s.sched.phase c (.resuming t)
  parked : (s.sched.queue ++ (s.previous c).toList).find? ready = none →
    sched.queue = s.sched.queue ++ (s.previous c).toList ∧
      sched.phase = Function.update s.sched.phase c .parked

theorem schedule_spec (hstop : s.sched.stopped = false)
    (hleft : ¬ (s.previous c = none ∧ s.sched.nothingLeft = true)) (h : s.schedule c ready = some sched) :
    Scheduled s c ready sched := by
  obtain ⟨q, he, rfl⟩ := schedule_entered h
  have hcond : ¬ (q.stopped || q.nothingLeft) = true := by
    rw [he.stopped, hstop, Bool.false_or, he.left]
    exact hleft
  unfold Sched.State.look
  rw [if_neg hcond, he.queue]
  cases hfind : (s.sched.queue ++ (s.previous c).toList).find? ready with
  | none =>
    refine ⟨he.cpus, he.stopped, he.enqueued, fun t ht => ?_, fun _ => ⟨he.queue, ?_⟩⟩
    · cases hfind.symm.trans ht
    · show Function.update q.phase c _ = _
      rw [he.phase]
  | some t =>
    refine ⟨he.cpus, he.stopped, he.enqueued, fun u hu => ⟨rfl, ?_⟩, fun hnone => ?_⟩
    · obtain rfl := Option.some.inj (hfind.symm.trans hu)
      show Function.update q.phase c _ = _
      rw [he.phase]
    · cases hfind.symm.trans hnone

theorem schedule_leaves (hleave : s.sched.stopped = true ∨ (s.previous c = none ∧ s.sched.nothingLeft = true))
    (h : s.schedule c ready = some sched) : sched.cpus = s.sched.cpus ∧ sched.stopped = s.sched.stopped ∧
      sched.enqueued = s.sched.enqueued ∧ (∀ d, sched.phase d = .parked → s.sched.phase d = .parked) ∧
      (s.sched.stopped = true ∨ sched.queue = []) := by
  obtain ⟨q, he, rfl⟩ := schedule_entered h
  have hcond : (q.stopped || q.nothingLeft) = true := by
    rw [Bool.or_eq_true, he.stopped, he.left]
    exact hleave
  unfold Sched.State.look
  rw [if_pos hcond]
  refine ⟨he.cpus, he.stopped, he.enqueued, fun d hd => ?_, hleave.imp_right fun hl => ?_⟩
  · have hp : Function.update q.phase c .leaving d = .parked := hd
    rw [he.phase] at hp
    by_cases hdc : d = c
    · rw [hdc, Function.update_self] at hp
      cases hp
    · rwa [Function.update_of_ne hdc] at hp
  · exact ((Sched.nothingLeft_iff q).mp (he.left.mpr hl)).1

theorem schedule_placed (h : Placed s.sched) (hs : s.schedule c ready = some sched) : Placed sched := by
  unfold State.schedule at hs
  split at hs
  · exact h.step hs
  · exact h.step hs

end schedule

/-! ## The condition -/

/-- A notification of another call than that of the cpu is still to come. -/
def State.Owed (s : State) (but : Option CpuId) : Prop :=
  ∃ d ∈ s.sched.cpus, some d ≠ but ∧ (s.call d).owes = true

instance (s : State) (but : Option CpuId) : Decidable (s.Owed but) :=
  inferInstanceAs (Decidable (∃ d ∈ s.sched.cpus, some d ≠ but ∧ (s.call d).owes = true))

/-- No handler ends a wait for an alert that keeps a queued thread off the cpus, nor suspends a thread so often
that its count wraps. The last `notify_all` does not come between a cpu's look at a thread that has become runnable
since and its wait, no sleep runs out there, and the sleep that `is_ready` arms is one that the host's clock can
hold. -/
def Ok (s : State) : Event → Prop
  | .alert _ t => t ∈ s.queued → s.suspendCount t = 0 → s.awaitsAlert t = true → s.mayRun t = true
  | .suspend _ t => t ∈ s.queued → (s.suspendCount t + 1) % 2 ^ 32 = 0 → s.stirs t = false
  | .notify c => s.Owed (some c) ∨
      ∀ sec ∈ s.holder, ∀ t ∈ sec.asked, s.unblocked t = true → s.sleeping t = true
  | .tick _ host => s.Owed none ∨
      ∀ sec ∈ s.holder, ∀ t ∈ sec.asked, s.unblocked t = true → s.sleeping t = true → host < s.sleepUntil t
  | .ask _ => ∀ sec ∈ s.holder, ∀ t ∈ sec.rest.head?, ∀ w ∈ s.wait t, w.timed = true →
      Sync.SleepFits s.host (Sync.ceilMs (Sync.remaining w.deadline s.system))
  | _ => True

/-! ## The invariant -/

/-- The section of a cpu. A thread that it has found not ready, and that something other than a handler's
notification may make ready, is asleep. -/
structure Looking (s : State) (sec : Section) : Prop where
  here : sec.cpu ∈ s.sched.cpus
  phase : s.sched.phase sec.cpu = .parked ∨ ∃ prev, s.sched.phase sec.cpu = .entering prev
  stopped : s.sched.stopped = false
  left : ¬ (s.previous sec.cpu = none ∧ s.sched.nothingLeft = true)
  queue : sec.asked ++ sec.rest = s.sched.queue ++ (s.previous sec.cpu).toList
  asked : ∀ t ∈ sec.asked, s.unblocked t = true → s.sleeping t = true ∨ ∃ c, (s.call c).owes = true

structure Inv (s : State) : Prop where
  placed : Placed s.sched
  fresh : ∀ t, s.sched.enqueued t = false → s.started t = false ∧ s.wait t = none
  said : ∀ c, (s.call c).owes = false → s.unsaid c = []
  looking : ∀ sec, s.holder = some sec → Looking s sec
  stopped : s.sched.stopped = true → ∀ c, ¬ s.ParkedForGood c
  covered : ∀ c, s.ParkedForGood c → s.Quiet → s.queued.countP s.unblocked ≤ s.attending.card
  time : Sync.IsTime s.host

theorem Inv.noticed {s : State} (h : Inv s) : Noticed s where
  said := h.said
  awake c hc hq := (List.countP_mono_left fun _ _ => unblocked_of_mayRun).trans (h.covered c hc hq)

section frames
variable {s s' : State}

theorem waits_iff {c : CpuId} : s.waits c = true ↔ c ∈ s.sched.cpus ∧ s.sched.phase c = .parked ∧
    (∀ sec ∈ s.holder, sec.cpu ≠ c) ∧ s.notified c = false := by
  unfold State.waits
  cases s.holder <;> simp [and_assoc]

theorem attends_iff {c : CpuId} : s.attends c = true ↔
    (s.sched.phase c = .parked ∨ ∃ sec ∈ s.holder, sec.cpu = c) ∧ ¬ s.ParkedForGood c := by
  unfold State.attends State.ParkedForGood
  cases s.holder <;> cases s.waits c <;> cases s.deadline c <;> simp

theorem mem_attending {c : CpuId} : c ∈ s.attending ↔ c ∈ s.sched.cpus ∧ s.attends c = true := by
  unfold State.attending
  rw [Finset.mem_filter, List.mem_toFinset]

/-- A cpu that stays in `schedule` and does not come to wait for a notification alone still attends. -/
theorem attending_of {c : CpuId} (hcpus : s'.sched.cpus = s.sched.cpus)
    (hgood : s'.ParkedForGood c → s.ParkedForGood c)
    (hin : (s.sched.phase c = .parked ∨ ∃ sec ∈ s.holder, sec.cpu = c) →
      s'.sched.phase c = .parked ∨ ∃ sec ∈ s'.holder, sec.cpu = c)
    (hc : c ∈ s.attending) : c ∈ s'.attending := by
  obtain ⟨hmem, hatt⟩ := mem_attending.mp hc
  obtain ⟨hinside, hnot⟩ := attends_iff.mp hatt
  exact mem_attending.mpr ⟨hcpus ▸ hmem, attends_iff.mpr ⟨hin hinside, fun hg => hnot (hgood hg)⟩⟩

structure Waiting (s s' : State) : Prop where
  cpus : s'.sched.cpus = s.sched.cpus
  phase : ∀ c, s'.sched.phase c = .parked ↔ s.sched.phase c = .parked
  holder : s'.holder.map Section.cpu = s.holder.map Section.cpu
  deadline : s'.deadline = s.deadline
  notified : s'.notified = s.notified

theorem Waiting.waits (h : Waiting s s') (c : CpuId) : s'.waits c = s.waits c := by
  have hany : ∀ o : Option Section, (o.any fun sec => sec.cpu == c) = (o.map Section.cpu).any fun d => d == c := by
    intro o
    cases o <;> rfl
  have hphase : (s'.sched.phase c == .parked) = (s.sched.phase c == .parked) := by
    rw [Bool.eq_iff_iff, beq_iff_eq, beq_iff_eq]
    exact h.phase c
  unfold State.waits
  rw [h.cpus, h.notified, hany, hany, h.holder, hphase]

theorem Waiting.parkedForGood (h : Waiting s s') (c : CpuId) : s'.ParkedForGood c ↔ s.ParkedForGood c := by
  unfold State.ParkedForGood
  rw [h.waits, h.deadline]

theorem Waiting.attending (h : Waiting s s') : s'.attending = s.attending := by
  have hholder : ∀ c, (∃ sec ∈ s'.holder, sec.cpu = c) ↔ ∃ sec ∈ s.holder, sec.cpu = c := by
    intro c
    have hmem : ∀ o : Option Section, (∃ sec ∈ o, sec.cpu = c) ↔ o.map Section.cpu = some c := by
      intro o
      cases o <;> simp
    rw [hmem, hmem, h.holder]
  ext c
  rw [mem_attending, mem_attending, attends_iff, attends_iff, h.cpus, h.phase, hholder, h.parkedForGood]

end frames

/-! ## Steps of the scheduler -/

/-- What a step leaves of the scheduler when it does not need its lock. -/
structure Apart (q q' : Sched.State) : Prop where
  cpus : q'.cpus = q.cpus
  queue : q'.queue = q.queue
  current : q'.current = q.current
  stopped : q'.stopped = q.stopped
  phase : ∀ c, q'.phase c = q.phase c ∨
    (q.phase c ≠ .parked ∧ (∀ prev, q.phase c ≠ .entering prev) ∧ q'.phase c ≠ .parked)

section sched
variable {q q' : Sched.State} {e : Sched.Event}

theorem Apart.of_phase (hcpus : q'.cpus = q.cpus) (hqueue : q'.queue = q.queue) (hcurrent : q'.current = q.current)
    (hstopped : q'.stopped = q.stopped) (hphase : q'.phase = q.phase) : Apart q q' :=
  ⟨hcpus, hqueue, hcurrent, hstopped, fun c => Or.inl (congrFun hphase c)⟩

theorem Apart.of_update {c : CpuId} {p p' : Sched.Phase} (hp : q.phase c = p) (hcpus : q'.cpus = q.cpus)
    (hqueue : q'.queue = q.queue) (hcurrent : q'.current = q.current) (hstopped : q'.stopped = q.stopped)
    (hphase : q'.phase = Function.update q.phase c p') (hne : p ≠ .parked) (hent : ∀ prev, p ≠ .entering prev)
    (hne' : p' ≠ .parked) : Apart q q' := by
  refine ⟨hcpus, hqueue, hcurrent, hstopped, fun d => ?_⟩
  rw [hphase]
  by_cases hd : d = c
  · rw [hd, Function.update_self, hp]
    exact Or.inr ⟨hne, hent, hne'⟩
  · rw [Function.update_of_ne hd]
    exact Or.inl rfl

theorem lockFree_step (he : lockFree e = true) (h : Sched.step q e = some q') : Apart q q' := by
  cases Sched.stepped_of_step h with
  | register t => exact .of_phase rfl rfl rfl rfl rfl
  | enqueue t hnew => cases he
  | preempt mayRun => cases he
  | stop => cases he
  | schedule ready hc hp => cases he
  | lookAgain ready hc hp => cases he
  | resume hc hp => exact .of_update hp rfl rfl rfl rfl rfl (by simp) (by simp) (by simp)
  | finish hc hp => exact .of_phase rfl rfl rfl rfl rfl
  | terminate hc hp hne hfound => exact .of_update hp rfl rfl rfl rfl rfl (by simp) (by simp) (by simp)
  | terminateGone hc hp hne hgone => exact .of_phase rfl rfl rfl rfl rfl
  | terminateRemove hc hp => cases he
  | runReturns hc hp hfin => exact .of_update hp rfl rfl rfl rfl rfl (by simp) (by simp) (by simp)
  | runEnds hc hp hfin => exact .of_update hp rfl rfl rfl rfl rfl (by simp) (by simp) (by simp)
  | release hc hp => cases he
  | leave hc hp => cases he
  | endThread hc hp hfound => exact .of_update hp rfl rfl rfl rfl rfl (by simp) (by simp) (by simp)
  | endGone hc hp hgone => exact .of_update hp rfl rfl rfl rfl rfl (by simp) (by simp) (by simp)
  | endRemove hc hp => cases he

theorem notifiesAll_step (he : notifiesAll e = true) (h : Sched.step q e = some q') :
    ∀ c, q'.phase c = .parked → q.phase c = .parked := by
  have hmove : ∀ {c : CpuId} {p : Sched.Phase}, q'.phase = Function.update q.phase c p → p ≠ .parked →
      ∀ d, q'.phase d = .parked → q.phase d = .parked := by
    intro c p hphase hp d hd
    rw [hphase] at hd
    by_cases hdc : d = c
    · rw [hdc, Function.update_self] at hd
      exact absurd hd hp
    · rwa [Function.update_of_ne hdc] at hd
  cases Sched.stepped_of_step h with
  | stop => exact fun _ h => h
  | terminateRemove hc hp => exact hmove rfl (by simp)
  | release hc hp => exact hmove rfl (by simp)
  | leave hc hp => exact hmove rfl (by simp)
  | endRemove hc hp => exact hmove rfl (by simp)
  | _ => cases he

theorem preempt_step {mayRun : ThreadId → Bool} (h : Sched.step q (.preemptForWaiting mayRun) = some q') :
    Apart q q' := by
  obtain ⟨⟩ | ⟨⟩ | ⟨⟩ := Sched.stepped_of_step h
  exact .of_phase rfl rfl rfl rfl rfl

theorem new_step (h : Sched.step q e = some q') {t : ThreadId} (ht : q'.enqueued t = false) :
    q.enqueued t = false := by
  by_contra hne
  rw [(Sched.marks_step h t).1 (by simpa using hne)] at ht
  cases ht

end sched

/-! ## Steps that leave the queue and the waiting cpus as they are -/

section keep
variable {s s' : State}

theorem Apart.waiting (h : Apart s.sched s'.sched) (hholder : s'.holder.map Section.cpu = s.holder.map Section.cpu)
    (hdeadline : s'.deadline = s.deadline) (hnotified : s'.notified = s.notified) : Waiting s s' where
  cpus := h.cpus
  phase c := by
    rcases h.phase c with heq | ⟨hne, -, hne'⟩
    · rw [heq]
    · exact ⟨fun hp => absurd hp hne', fun hp => absurd hp hne⟩
  holder := hholder
  deadline := hdeadline
  notified := hnotified

theorem Apart.refl (q : Sched.State) : Apart q q := .of_phase rfl rfl rfl rfl rfl

theorem Waiting.of_same (hsched : s'.sched = s.sched) (hholder : s'.holder = s.holder)
    (hdeadline : s'.deadline = s.deadline) (hnotified : s'.notified = s.notified) : Waiting s s' :=
  ⟨by rw [hsched], fun _ => by rw [hsched], by rw [hholder], hdeadline, hnotified⟩

theorem Looking.keep {sec sec' : Section} (h : Looking s sec) (ha : Apart s.sched s'.sched)
    (hcpu : sec'.cpu = sec.cpu) (hlist : sec'.asked ++ sec'.rest = sec.asked ++ sec.rest)
    (hasked : ∀ t ∈ sec'.asked, s'.unblocked t = true → s'.sleeping t = true ∨ ∃ c, (s'.call c).owes = true) :
    Looking s' sec' := by
  have hphase : s'.sched.phase sec.cpu = s.sched.phase sec.cpu := by
    refine (ha.phase sec.cpu).resolve_right ?_
    rintro ⟨hne, hent, -⟩
    rcases h.phase with hp | ⟨prev, hp⟩
    · exact hne hp
    · exact hent prev hp
  have hprevious : s'.previous sec'.cpu = s.previous sec.cpu := by
    unfold State.previous
    rw [hcpu, hphase]
  have hleft : s'.sched.nothingLeft = s.sched.nothingLeft := by
    unfold Sched.State.nothingLeft
    rw [ha.queue, ha.cpus, ha.current]
  refine ⟨?_, ?_, ha.stopped.trans h.stopped, ?_, ?_, hasked⟩
  · rw [hcpu, ha.cpus]
    exact h.here
  · rw [hcpu, hphase]
    exact h.phase
  · rw [hprevious, hleft]
    exact h.left
  · rw [hlist, hprevious, ha.queue]
    exact h.queue

/-- The threads of the queue are no more ready than they were, unless a call has yet to say so. -/
theorem Inv.keep (h : Inv s) (hw : Waiting s s') (hqueued : s'.queued = s.queued) (hplaced : Placed s'.sched)
    (hstopped : s'.sched.stopped = s.sched.stopped)
    (hfresh : ∀ t, s'.sched.enqueued t = false → s'.started t = false ∧ s'.wait t = none)
    (hsaid : ∀ c, (s'.call c).owes = false → s'.unsaid c = [])
    (hlooking : ∀ sec, s'.holder = some sec → Looking s' sec)
    (hquiet : s'.Quiet → s.Quiet ∧ ∀ t ∈ s.queued, s'.unblocked t = true → s.unblocked t = true)
    (htime : Sync.IsTime s'.host) : Inv s' where
  placed := hplaced
  fresh := hfresh
  said := hsaid
  looking := hlooking
  stopped hs c hc := h.stopped (hstopped ▸ hs) c ((hw.parkedForGood c).mp hc)
  covered c hc hq := by
    obtain ⟨hq', hthreads⟩ := hquiet hq
    rw [hqueued, hw.attending]
    exact (List.countP_mono_left hthreads).trans (h.covered c ((hw.parkedForGood c).mp hc) hq')
  time := htime

theorem queued_of_holder (hholder : s'.holder = s.holder) (hqueue : s'.sched.queue = s.sched.queue) :
    s'.queued = s.queued := by
  unfold State.queued
  rw [hholder, hqueue]

theorem asked_queued {sec : Section} (hsec : s.holder = some sec) {t : ThreadId}
    (ht : t ∈ sec.asked) : t ∈ s.queued := by
  unfold State.queued
  rw [hsec]
  exact List.mem_append_left _ ht

theorem Inv.apart (h : Inv s) {q : Sched.State} {e : Sched.Event} (hstep : Sched.step s.sched e = some q)
    (ha : Apart s.sched q) : Inv { s with sched := q } := by
  refine h.keep (ha.waiting rfl rfl rfl) (queued_of_holder rfl ha.queue) (h.placed.step hstep) ha.stopped
    (fun t ht => h.fresh t (new_step hstep ht)) h.said (fun sec hsec => ?_) (fun hq => ⟨hq, fun _ _ ht => ht⟩) h.time
  have hl := h.looking sec hsec
  exact @Looking.keep s { s with sched := q } sec sec hl ha rfl rfl hl.asked

end keep

end Kernemul.Notify
