import Kernemul.Kernel.Scheduler

/-!
# Ending a thread (`process::terminate_thread` against the scheduler)

`remove` only looks at the queue. A thread that is current on another cpu at that time is not found, and that
cpu puts it back on the queue when its quantum is over: the call has returned and the thread runs on. The
same holds for a call that finds the thread gone from the list of its process while the call that took it off
has yet to come to `remove`, and for a call that comes between a thread's entry on that list and its entry on
the queue.

A call that returns for a thread on no cpu, on the queue before or not, does end it.
-/

namespace Kernemul.Sched

/-- No next step puts the thread on the queue or makes it the thread of a cpu. -/
def NeverAgain (s : State) (id : ThreadId) : Prop :=
  ∀ e s', step s e = some s' → e.puts s ≠ some id ∧ id ∉ s'.queue ∧
    ∀ c, s'.current c = some id → s.current c = some id

/-- Cpu `0` ends thread `8` while cpu `1` runs it. -/
def endsRunning : List Event :=
  [.register 7, .enqueue 7, .register 8, .enqueue 8, .schedule 0 fun _ => true, .schedule 1 fun _ => true,
    .resume 0, .resume 1, .terminate 0 8, .terminateRemove 0, .runReturns 1]

theorem endsRunning_again : ¬ ∀ cpus events s id, Runs (start cpus) events s → s.returned id = true →
    NeverAgain s id := by
  intro hall
  have hexec : (Run.exec step (fun _ _ => true) (start [0, 1]) endsRunning).map
      (fun s => (s.returned 8, (Event.schedule 1 fun _ => true).puts s,
        (step s (.schedule 1 fun _ => true)).isSome)) = some (true, some 8, true) := by
    decide +kernel
  obtain ⟨s, hs, hfacts⟩ := Option.map_eq_some_iff.mp hexec
  obtain ⟨hret, hputs, hnext⟩ : s.returned 8 = true ∧ (Event.schedule 1 fun _ => true).puts s = some 8 ∧
      (step s (.schedule 1 fun _ => true)).isSome = true := by
    simpa using hfacts
  obtain ⟨s', hs'⟩ := Option.isSome_iff_exists.mp hnext
  have hrun : Runs (start [0, 1]) endsRunning s := Run.Steps.of_exec (fun _ _ _ => trivial) hs
  exact (hall _ _ s 8 hrun hret _ s' hs').1 hputs

/-! ## When a call ends its thread -/

/-- The thread is off the queue for good: it was on it once, and a cpu that has it drops it. -/
structure Over (s : State) (id : ThreadId) : Prop where
  enqueued : s.enqueued id = true
  off : id ∉ s.queue
  finishing : ∀ c, s.current c = some id → s.finished id = true

/-- The calls of `terminate_thread` return where they end the thread: the thread has been on the queue and is
current on no cpu, or has finished; and a call that finds it gone comes after the `remove` of the other. -/
def TerminateOk (s : State) : Event → Prop
  | .terminate _ id => s.threads id = false → Over s id
  | .terminateRemove c => ∀ t id, s.phase c = .running t (some id) →
      s.enqueued id = true ∧ ∀ d, s.current d = some id → s.finished id = true
  | _ => True

/-- A thread goes back to the queue only unfinished, and a thread that was ended, or is being ended by the
cpu that ran it, is over. -/
structure Ended (s : State) : Prop where
  placed : Placed s
  back : ∀ c t, s.phase c = .entering (some t) → s.finished t = false
  ending : ∀ c t, s.phase c = .ending t → Over s t
  removing : ∀ c t, s.phase c = .removing t → Over s t
  returned : ∀ t, s.returned t = true → Over s t

variable {s s' : State} {id : ThreadId}

theorem Over.puts_ne {e : Event} (h : Over s id) (hplaced : Placed s)
    (hback : ∀ c t, s.phase c = .entering (some t) → s.finished t = false)
    (hstep : step s e = some s') : e.puts s ≠ some id := by
  intro hputs
  cases stepped_of_step hstep with
  | enqueue t hnew =>
    cases hputs
    simp [h.enqueued] at hnew
  | @schedule c prev ready hc hp =>
    have hprev : prev = some id := by simpa [Event.puts, hp] using hputs
    have hcur : s.current c = some id := (hplaced.held c).trans (by rw [hp]; exact hprev)
    have hfin := hback c id (hprev ▸ hp)
    simp [h.finishing c hcur] at hfin
  | _ => simp [Event.puts] at hputs

theorem Over.step {e : Event} (h : Over s id) (hplaced : Placed s)
    (hback : ∀ c t, s.phase c = .entering (some t) → s.finished t = false)
    (hstep : step s e = some s') : Over s' id := by
  obtain ⟨hoff, hcur⟩ := away_step hstep (h.puts_ne hplaced hback hstep) h.off
  obtain ⟨henq, hfin⟩ := marks_step hstep id
  exact ⟨henq h.enqueued, hoff, fun c hc => hfin (h.finishing c (hcur c hc))⟩

/-- A step that takes one cpu to a phase keeps what is to be kept when it holds of that phase. -/
theorem Ended.of_update (h : Ended s) (hplaced : Placed s')
    (hover : ∀ t, Over s t → Over s' t) {c : CpuId} {p : Phase}
    (hphase : s'.phase = Function.update s.phase c p) (hfin : s'.finished = s.finished)
    (hback : ∀ t, p = .entering (some t) → s.finished t = false)
    (hending : ∀ t, p = .ending t → Over s' t) (hremoving : ∀ t, p = .removing t → Over s' t)
    (hret : ∀ t, s'.returned t = true → s.returned t = true ∨ Over s' t) : Ended s' where
  placed := hplaced
  back d t hd := by
    rw [hphase] at hd
    rw [hfin]
    by_cases hdc : d = c
    · exact hback t (by simpa [hdc] using hd)
    · exact h.back d t (by simpa [hdc] using hd)
  ending d t hd := by
    rw [hphase] at hd
    by_cases hdc : d = c
    · exact hending t (by simpa [hdc] using hd)
    · exact hover t (h.ending d t (by simpa [hdc] using hd))
  removing d t hd := by
    rw [hphase] at hd
    by_cases hdc : d = c
    · exact hremoving t (by simpa [hdc] using hd)
    · exact hover t (h.removing d t (by simpa [hdc] using hd))
  returned t ht := by
    obtain ht | ht := hret t ht
    · exact hover t (h.returned t ht)
    · exact ht

theorem Ended.of_phase (h : Ended s) (hplaced : Placed s')
    (hover : ∀ t, Over s t → Over s' t) (hphase : s'.phase = s.phase) (hfin : s'.finished = s.finished)
    (hret : ∀ t, s'.returned t = true → s.returned t = true ∨ Over s' t) : Ended s' where
  placed := hplaced
  back d t hd := hfin ▸ h.back d t (hphase ▸ hd)
  ending d t hd := hover t (h.ending d t (hphase ▸ hd))
  removing d t hd := hover t (h.removing d t (hphase ▸ hd))
  returned t ht := by
    obtain ht | ht := hret t ht
    · exact hover t (h.returned t ht)
    · exact ht

theorem update_true_eq_true {f : ThreadId → Bool} {t : ThreadId}
    (h : Function.update f id true t = true) : f t = true ∨ t = id := by
  by_cases ht : t = id
  · exact .inr ht
  · exact .inl (by simpa [ht] using h)

theorem Over.remove (henq : s.enqueued id = true)
    (hcur : ∀ c, s.current c = some id → s.finished id = true) : Over (s.remove id) id where
  enqueued := henq
  off h := by simp [State.remove] at h
  finishing := hcur

theorem Over.release (h : Placed s) {c : CpuId} {t : ThreadId}
    (hp : s.phase c = .retiring t) : Over (s.setThread c none) t := by
  have hcur : s.current c = some t := (h.held c).trans (by rw [hp]; rfl)
  refine ⟨h.heldKnown c t hcur, fun hq => h.queuedFree c t hq hcur, fun d hd => ?_⟩
  exact h.retired c t hp

theorem Ended.finish {s : State} (h : Ended s) {c : CpuId} {t : ThreadId}
    (hp : s.phase c = .running t none) (hover : ∀ u, Over s u →
      Over { s with finished := Function.update s.finished t true } u) :
    Ended { s with finished := Function.update s.finished t true } where
  placed := h.placed.finish t
  back d u hd := by
    -- the thread of the cpu that is about to schedule is not the one that finishes here
    have hcur : s.current c = some t := (h.placed.held c).trans (by rw [hp]; rfl)
    have hdcur : s.current d = some u := (h.placed.held d).trans (by rw [show s.phase d = _ from hd]; rfl)
    have hut : u ≠ t := by
      intro hut
      have hdc : d = c := h.placed.heldOnce d c t (hut ▸ hdcur) hcur
      rw [hdc] at hd
      simp [hp] at hd
    simpa [hut] using h.back d u hd
  ending d u hd := hover u (h.ending d u hd)
  removing d u hd := hover u (h.removing d u hd)
  returned u hu := hover u (h.returned u hu)

theorem Ended.step {e : Event} (h : Ended s) (hok : TerminateOk s e) (hstep : step s e = some s') : Ended s' := by
  have hplaced : Placed s' := h.placed.step hstep
  have hover : ∀ t, Over s t → Over s' t := fun t ht => ht.step h.placed h.back hstep
  cases stepped_of_step hstep with
  | register t => exact h.of_phase hplaced hover rfl rfl fun _ => .inl
  | enqueue t hnew => exact h.of_phase hplaced hover rfl rfl fun _ => .inl
  | preempt mayRun => exact h.of_phase hplaced hover rfl rfl fun _ => .inl
  | stop => exact h.of_phase hplaced hover rfl rfl fun _ => .inl
  | @schedule c prev ready hc hp =>
    obtain ⟨_, _, p, heq, hp'⟩ := schedule_frame s c prev ready
    refine h.of_update (c := c) (p := p) hplaced hover (by rw [heq]) (by rw [heq]) ?_ ?_ ?_
      (by rw [heq]; exact fun _ => .inl)
    all_goals rcases hp' with rfl | rfl | ⟨t, rfl⟩ <;> simp
  | @lookAgain c ready hc hp =>
    obtain ⟨_, _, p, heq, hp'⟩ := schedule_frame s c none ready
    rw [State.schedule] at heq
    refine h.of_update (c := c) (p := p) hplaced hover (by rw [heq]) (by rw [heq]) ?_ ?_ ?_
      (by rw [heq]; exact fun _ => .inl)
    all_goals rcases hp' with rfl | rfl | ⟨t, rfl⟩ <;> simp
  | resume hc hp =>
    exact h.of_update hplaced hover rfl rfl (by simp) (by simp) (by simp) fun _ => .inl
  | finish hc hp => exact h.finish hp hover
  | terminate hc hp hne hfound =>
    exact h.of_update hplaced hover rfl rfl (by simp) (by simp) (by simp) fun _ => .inl
  | terminateGone hc hp hne hgone =>
    refine h.of_phase hplaced hover rfl rfl fun t ht => (update_true_eq_true ht).imp_right ?_
    rintro rfl
    exact hover t (hok hgone)
  | terminateRemove hc hp =>
    refine h.of_update hplaced hover rfl rfl (by simp) (by simp) (by simp) fun t ht =>
      (update_true_eq_true ht).imp_right ?_
    rintro rfl
    obtain ⟨henq, hcur⟩ := hok _ _ hp
    have hremove := Over.remove henq hcur
    exact ⟨hremove.enqueued, hremove.off, hremove.finishing⟩
  | runReturns hc hp hfin =>
    refine h.of_update hplaced hover rfl rfl (fun t ht => ?_) (by simp) (by simp) fun _ => .inl
    cases ht
    exact hfin
  | runEnds hc hp hfin =>
    exact h.of_update hplaced hover rfl rfl (by simp) (by simp) (by simp) fun _ => .inl
  | release hc hp =>
    refine h.of_update hplaced hover rfl rfl (by simp) (fun t ht => ?_) (by simp) fun _ => .inl
    cases ht
    have hrelease := Over.release h.placed hp
    exact ⟨hrelease.enqueued, hrelease.off, hrelease.finishing⟩
  | leave hc hp =>
    exact h.of_update hplaced hover rfl rfl (by simp) (by simp) (by simp) fun _ => .inl
  | endThread hc hp hfound =>
    refine h.of_update hplaced hover rfl rfl (by simp) (by simp) (fun t ht => ?_) fun _ => .inl
    cases ht
    exact hover _ (h.ending _ _ hp)
  | endGone hc hp hgone =>
    refine h.of_update hplaced hover rfl rfl (by simp) (by simp) (by simp) fun t ht =>
      (update_true_eq_true ht).imp_right ?_
    rintro rfl
    exact hover t (h.ending _ _ hp)
  | endRemove hc hp =>
    refine h.of_update hplaced hover rfl rfl (by simp) (by simp) (by simp) fun t ht =>
      (update_true_eq_true ht).imp_right ?_
    rintro rfl
    exact hover t (h.removing _ _ hp)

theorem ended_start (cpus : List CpuId) : Ended (start cpus) where
  placed := placed_start cpus
  back c t h := by simp [start] at h
  ending c t h := by simp [start] at h
  removing c t h := by simp [start] at h
  returned t h := by simp [start] at h

/-- **A thread that was ended stays away**, in every run in which the calls of `terminate_thread` return for
threads that no cpu has. -/
theorem returned_neverAgain {cpus : List CpuId} {events : List Event} {s : State}
    (hrun : Run.Steps step TerminateOk (start cpus) events s) {id : ThreadId}
    (hret : s.returned id = true) : NeverAgain s id := by
  intro e s' hstep
  have hended : Ended s :=
    hrun.invariant (fun _ _ _ h hok hstep => h.step hok hstep) (ended_start cpus)
  have hover : Over s id := hended.returned id hret
  have hputs := hover.puts_ne hended.placed hended.back hstep
  exact ⟨hputs, away_step hstep hputs hover.off⟩

def removesQueued (s : State) : Event → Bool
  | .terminate _ id => s.threads id
  | .terminateRemove c =>
    match s.phase c with
    | .running _ (some id) => s.queue.contains id
    | _ => true
  | _ => true

theorem terminateOk_of_removesQueued {e : Event} (h : Placed s)
    (hcheck : removesQueued s e = true) : TerminateOk s e := by
  cases e with
  | terminate c id =>
    intro hgone
    simp [removesQueued, hgone] at hcheck
  | terminateRemove c =>
    intro t id hp
    have hq : id ∈ s.queue := by simpa [removesQueued, hp] using hcheck
    exact ⟨h.queuedKnown id hq, fun d hd => absurd hd (h.queuedFree d id hq)⟩
  | _ => trivial

/-- Cpu `0` ends thread `8`, which is queued, and comes to the end of its quantum. -/
def endsQueued : List Event :=
  [.register 7, .enqueue 7, .register 8, .enqueue 8, .schedule 0 fun _ => true, .resume 0, .terminate 0 8,
    .terminateRemove 0, .runReturns 0]

theorem returned_neverAgain_endsQueued :
    ∃ s, Run.Steps step TerminateOk (start [0, 1]) endsQueued s ∧ s.returned 8 = true ∧ NeverAgain s 8 := by
  have hexec : (Run.exec step removesQueued (start [0, 1]) endsQueued).map (fun s => s.returned 8) =
      some true := by decide +kernel
  obtain ⟨s, hs, hret⟩ := Option.map_eq_some_iff.mp hexec
  have hrun : Run.Steps step TerminateOk (start [0, 1]) endsQueued s :=
    Run.Steps.of_exec_invariant (P := Placed) (fun _ _ _ h _ hstep => h.step hstep)
      (fun _ _ h hcheck => terminateOk_of_removesQueued h hcheck) (placed_start [0, 1]) hs
  exact ⟨s, hrun, hret, returned_neverAgain hrun hret⟩

end Kernemul.Sched
