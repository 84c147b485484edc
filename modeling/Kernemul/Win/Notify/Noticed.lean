import Kernemul.Win.Notify.Handlers

/-!
# No cpu is left parked

A handler that has made a queued thread runnable notifies the scheduler before it returns, so that no cpu stays
parked without a deadline while a queued thread may run. Both fail for `alert`, which notifies nobody.
-/

namespace Kernemul.Notify

open Sched (ThreadId CpuId Placed)
open Sync (Addr Pid Wait)

/-! ## Notifications and the clocks -/

section notify
variable {s s' : State} {c : CpuId}

theorem notifyAll_none (hnotified : ∀ d, s'.notified d = (s.notified d || s.waits d))
    (hcpus : s'.sched.cpus = s.sched.cpus) (hphase : ∀ d, s'.sched.phase d = .parked → s.sched.phase d = .parked)
    (hholder : s'.holder = s.holder) (d : CpuId) : ¬ s'.ParkedForGood d := by
  rintro ⟨hw, -⟩
  obtain ⟨hd, hp, hh, hn⟩ := waits_iff.mp hw
  rw [hnotified, Bool.or_eq_false_iff] at hn
  have : s.waits d = true := waits_iff.mpr ⟨hcpus ▸ hd, hphase d hp, hholder ▸ hh, hn.1⟩
  rw [hn.2] at this
  cases this

theorem notify_inv (h : Inv s) (hok : Ok s (.notify c)) :
    Inv { s.notifyAll.setCall c .preempting with unsaid := Function.update s.unsaid c [] } := by
  have hnone := @notifyAll_none s { s.notifyAll.setCall c .preempting with
    unsaid := Function.update s.unsaid c [] } (fun _ => rfl) rfl (fun _ => id) rfl
  refine ⟨h.placed, h.fresh, fun d hd => ?_, fun sec hsec => ?_, fun _ d hd => hnone d hd,
    fun d hd => absurd hd (hnone d), h.time⟩
  · show Function.update s.unsaid c [] d = []
    by_cases hdc : d = c
    · rw [hdc, Function.update_self]
    · rw [Function.update_of_ne hdc]
      refine h.said d ?_
      have hcall : (Function.update s.call c .preempting d).owes = false := hd
      rwa [Function.update_of_ne hdc] at hcall
  · refine (h.looking sec hsec).keep (.refl _) rfl rfl fun t ht hun => ?_
    rcases hok with ⟨d, -, hdc, hd⟩ | hasleep
    · refine Or.inr ⟨d, ?_⟩
      show (Function.update s.call c .preempting d).owes = true
      rw [Function.update_of_ne fun heq => hdc (congrArg some heq)]
      exact hd
    · exact Or.inl (hasleep sec hsec t ht hun)

theorem preempt_inv (h : Inv s) (hpre : s.preemptForWaiting = some s') : Inv s' := by
  unfold State.preemptForWaiting at hpre
  split at hpre
  · cases hpre
  · obtain ⟨q, hq, rfl⟩ := Option.map_eq_some_iff.mp hpre
    exact h.apart hq (preempt_step hq)

theorem setCall_inv (h : Inv s) {call : Call} (hold : (s.call c).owes = false) (hnew : call.owes = false) :
    Inv (s.setCall c call) := by
  have hcall : ∀ d, ((s.setCall c call).call d).owes = (s.call d).owes := by
    intro d
    show (Function.update s.call c call d).owes = _
    by_cases hdc : d = c
    · rw [hdc, Function.update_self, hnew, hold]
    · rw [Function.update_of_ne hdc]
  refine h.keep (.of_same rfl rfl rfl rfl) rfl h.placed rfl h.fresh
    (fun d hd => h.said d (hcall d ▸ hd)) (fun sec hsec => ?_)
    (fun hq => ⟨fun d => hcall d ▸ hq d, fun _ _ ht => ht⟩) h.time
  have hl := h.looking sec hsec
  refine hl.keep (.refl _) rfl rfl fun t ht hun => (hl.asked t ht hun).imp_right ?_
  rintro ⟨d, hd⟩
  exact ⟨d, hcall d ▸ hd⟩

theorem tick_inv (h : Inv s) {system host : Int} (hhost : Sync.IsTime host) (hok : Ok s (.tick system host)) :
    Inv { s with system, host } := by
  refine h.keep (.of_same rfl rfl rfl rfl) rfl h.placed rfl h.fresh h.said (fun sec hsec => ?_)
    (fun hq => ⟨hq, fun _ _ ht => ht⟩) hhost
  have hl := h.looking sec hsec
  refine hl.keep (.refl _) rfl rfl fun t ht hun => ?_
  rcases hok with ⟨d, -, -, hd⟩ | hasleep
  · exact Or.inr ⟨d, hd⟩
  · exact (hl.asked t ht hun).imp_left fun hsleep => decide_eq_true (hasleep sec hsec t ht hun hsleep)

theorem boot_inv (h : Inv s) {t : ThreadId} (henq : s.sched.enqueued t = true) (hholder : s.holder = none)
    (hphase : ∀ c ∈ s.sched.cpus, s.sched.phase c = .entering none) :
    Inv { s with started := Function.update s.started t true } := by
  have hnone : ∀ d, ¬ State.ParkedForGood { s with started := Function.update s.started t true } d := by
    rintro d ⟨hw, -⟩
    obtain ⟨hd, hp, -⟩ := waits_iff.mp hw
    rw [hphase d hd] at hp
    cases hp
  refine ⟨h.placed, fun u hu => ?_, h.said, fun sec hsec => ?_, fun _ d hd => hnone d hd,
    fun d hd => absurd hd (hnone d), h.time⟩
  · have hut : u ≠ t := by
      rintro rfl
      cases henq.symm.trans hu
    show Function.update s.started t true u = false ∧ _
    rw [Function.update_of_ne hut]
    exact h.fresh u hu
  · cases hholder.symm.trans hsec

/-! ## The other steps of the scheduler -/

theorem notifyOne_eq {woken : Option CpuId} (h : s.notifyOne woken = some s') :
    ∃ notified, s' = { s with notified } ∧ ∀ d, notified d = false → s.notified d = false := by
  unfold State.notifyOne at h
  split at h
  · rename_i w
    split at h
    · obtain rfl := Option.some.inj h
      refine ⟨_, rfl, fun d hd => ?_⟩
      by_cases hdw : d = w
      · rw [hdw, Function.update_self] at hd
        cases hd
      · rwa [Function.update_of_ne hdw] at hd
    · cases h
  · split at h
    · cases h
    · obtain rfl := Option.some.inj h
      exact ⟨_, rfl, fun _ hd => hd⟩

theorem attending_of_notified {notified : CpuId → Bool} (hn : ∀ d, notified d = false → s.notified d = false) :
    (∀ d, State.ParkedForGood { s with notified } d → s.ParkedForGood d) ∧
      s.attending ⊆ State.attending { s with notified } := by
  have hgood : ∀ d, State.ParkedForGood { s with notified } d → s.ParkedForGood d := by
    rintro d ⟨hw, hd⟩
    obtain ⟨hmem, hp, hh, hnot⟩ := waits_iff.mp hw
    exact ⟨waits_iff.mpr ⟨hmem, hp, hh, hn d hnot⟩, hd⟩
  exact ⟨hgood, fun d hd => @attending_of s _ d rfl (hgood d) id hd⟩

theorem notified_inv (h : Inv s) {notified : CpuId → Bool} (hn : ∀ d, notified d = false → s.notified d = false) :
    Inv { s with notified } := by
  obtain ⟨hgood, hsub⟩ := attending_of_notified hn
  exact ⟨h.placed, h.fresh, h.said, fun sec hsec => (h.looking sec hsec).keep (.refl _) rfl rfl
      (h.looking sec hsec).asked, fun hst d hd => h.stopped hst d (hgood d hd),
    fun d hd hq => (h.covered d (hgood d hd) hq).trans (Finset.card_le_card hsub), h.time⟩

theorem enqueue_inv (h : Inv s) (hholder : s.holder = none) {t : ThreadId} {q : Sched.State}
    (hq : Sched.step s.sched (.enqueue t) = some q) : Inv { s with sched := q } := by
  have hplaced := h.placed.step hq
  have hnew := fun u hu => h.fresh u (new_step hq (t := u) hu)
  obtain ⟨⟩ | @⟨_, hold⟩ := Sched.stepped_of_step hq
  obtain ⟨hstarted, hwait⟩ := h.fresh t hold
  have hblocked : s.unblocked t = false := by
    unfold State.unblocked State.stirs
    rw [hwait, hstarted, Bool.and_false]
  have hw : Waiting s { s with sched := { s.sched with
      queue := s.sched.queue ++ [t]
      enqueued := Function.update s.sched.enqueued t true } } := ⟨rfl, fun _ => Iff.rfl, rfl, rfl, rfl⟩
  refine ⟨hplaced, hnew, h.said, fun sec hsec => ?_, fun hst d hd => h.stopped hst d ((hw.parkedForGood d).mp hd),
    fun d hd hqt => ?_, h.time⟩
  · cases hholder.symm.trans hsec
  · -- a new thread has not been started
    have hold' := h.covered d ((hw.parkedForGood d).mp hd) hqt
    rw [hw.attending]
    refine le_trans (le_of_eq ?_) hold'
    unfold State.queued
    rw [hholder]
    show List.countP s.unblocked (s.sched.queue ++ [t]) = _
    rw [List.countP_append, List.countP_singleton, hblocked]
    rfl

theorem schedStep_inv (h : Inv s) {e : Sched.Event} {woken : Option CpuId} (hs : s.schedStep e woken = some s') :
    Inv s' := by
  unfold State.schedStep at hs
  split at hs
  · cases hs
  split at hs
  · rename_i hfree
    obtain ⟨q, hq, rfl⟩ := Option.map_eq_some_iff.mp hs
    exact h.apart hq (lockFree_step hfree hq)
  split at hs
  · cases hs
  rename_i hholder
  have hnone : s.holder = none := by simpa using hholder
  split at hs
  · rename_i hall
    obtain ⟨q, hq, rfl⟩ := Option.map_eq_some_iff.mp hs
    have hgood := @notifyAll_none s { s.notifyAll with sched := q } (fun _ => rfl)
      (Sched.cpus_step hq) (notifiesAll_step hall hq) rfl
    exact ⟨h.placed.step hq, fun t ht => h.fresh t (new_step hq ht), h.said,
      fun sec hsec => (by cases hnone.symm.trans hsec), fun _ d hd => hgood d hd, fun d hd => absurd hd (hgood d),
      h.time⟩
  · split at hs
    · obtain ⟨s₁, hs₁, hs⟩ := Option.bind_eq_some_iff.mp hs
      obtain ⟨q, hq, rfl⟩ := Option.map_eq_some_iff.mp hs
      obtain ⟨notified, rfl, hn⟩ := notifyOne_eq hs₁
      exact enqueue_inv (notified_inv h hn) hnone hq
    · cases hs

end notify

/-! ## The section of `schedule`, step by step -/

section lock
variable {s s' : State} {c : CpuId}

theorem leave_inv (h : Inv s) (hholder : s.holder = none) {q : Sched.State}
    (hleave : s.sched.stopped = true ∨ (s.previous c = none ∧ s.sched.nothingLeft = true))
    (hs : (s.schedule c fun _ => false) = some q) : Inv { s with sched := q } := by
  obtain ⟨hcpus, hstopped, henq, hphase, hout⟩ := schedule_leaves hleave hs
  have hgood : ∀ d, State.ParkedForGood { s with sched := q } d → s.ParkedForGood d := by
    rintro d ⟨hw, hd⟩
    obtain ⟨hmem, hp, hh, hn⟩ := waits_iff.mp hw
    exact ⟨waits_iff.mpr ⟨hcpus ▸ hmem, hphase d hp, hh, hn⟩, hd⟩
  refine ⟨schedule_placed h.placed hs, fun t ht => h.fresh t ?_, h.said, fun sec hsec => ?_,
    fun hst d hd => h.stopped (hstopped ▸ hst) d (hgood d hd), fun d hd _ => ?_, h.time⟩
  · rw [← henq]
    exact ht
  · cases hholder.symm.trans hsec
  · rcases hout with hst | hempty
    · exact absurd (hgood d hd) (h.stopped hst d)
    · have hq : State.queued { s with sched := q } = [] := by
        unfold State.queued
        rw [hholder]
        exact hempty
      rw [hq]
      exact Nat.zero_le _

/-- A cpu that comes into the section is going to look, and brings at most one thread. -/
theorem enter_inv (h : Inv s) (hholder : s.holder = none) (hc : c ∈ s.sched.cpus)
    (hphase : s.sched.phase c = .parked ∨ ∃ prev, s.sched.phase c = .entering prev)
    (hstop : s.sched.stopped = false) (hleft : ¬ (s.previous c = none ∧ s.sched.nothingLeft = true)) :
    Inv { s with holder := some ⟨c, [], s.sched.queue ++ (s.previous c).toList⟩ } := by
  have hgood : ∀ d, State.ParkedForGood
      { s with holder := some ⟨c, [], s.sched.queue ++ (s.previous c).toList⟩ } d → s.ParkedForGood d := by
    rintro d ⟨hw, hd⟩
    obtain ⟨hmem, hp, -, hn⟩ := waits_iff.mp hw
    refine ⟨waits_iff.mpr ⟨hmem, hp, fun sec hsec => ?_, hn⟩, hd⟩
    rw [hholder] at hsec
    cases hsec
  refine ⟨h.placed, h.fresh, h.said, fun sec hsec => ?_, fun hst d hd => h.stopped hst d (hgood d hd),
    fun d hd hq => ?_, h.time⟩
  · obtain rfl := Option.some.inj hsec
    exact ⟨hc, hphase, hstop, hleft, rfl, fun t ht => by cases ht⟩
  · have hold := h.covered d (hgood d hd) hq
    have hcount : List.countP s.unblocked (s.sched.queue ++ (s.previous c).toList) ≤
        s.queued.countP s.unblocked + (s.previous c).toList.length := by
      rw [List.countP_append, show s.queued = s.sched.queue by unfold State.queued; rw [hholder]]
      exact Nat.add_le_add_left List.countP_le_length _
    have hsub : s.attending ⊆ State.attending
        { s with holder := some ⟨c, [], s.sched.queue ++ (s.previous c).toList⟩ } := by
      refine fun u hu => @attending_of s _ u rfl (hgood u) (fun hin => Or.inl (hin.resolve_right ?_)) hu
      rintro ⟨sec, hsec, -⟩
      rw [hholder] at hsec
      cases hsec
    show List.countP s.unblocked ([] ++ (s.sched.queue ++ (s.previous c).toList)) ≤ _
    rw [List.nil_append]
    cases hprev : s.previous c with
    | none =>
      rw [hprev] at hcount hsub
      exact (hcount.trans hold).trans (Finset.card_le_card hsub)
    | some t =>
      rw [hprev] at hcount hsub hgood
      -- a cpu with a thread of its own was not parked
      have hnotin : c ∉ s.attending := by
        intro hmem
        rcases (attends_iff.mp (mem_attending.mp hmem).2).1 with hp | ⟨sec, hsec, -⟩
        · unfold State.previous at hprev
          rw [hp] at hprev
          cases hprev
        · rw [hholder] at hsec
          cases hsec
      have hin : c ∈ State.attending { s with holder := some ⟨c, [], s.sched.queue ++ (some t).toList⟩ } := by
        refine mem_attending.mpr ⟨hc, attends_iff.mpr ⟨Or.inr ⟨_, rfl, rfl⟩, ?_⟩⟩
        rintro ⟨hw, -⟩
        exact (waits_iff.mp hw).2.2.1 _ rfl rfl
      have hcard := Finset.card_le_card (Finset.insert_subset hin hsub)
      rw [Finset.card_insert_of_notMem hnotin] at hcard
      have hone : (some t).toList.length = 1 := rfl
      omega

theorem pushed_eq {woken : Option CpuId} (h : (if (s.previous c).isSome then s.notifyOne woken else some s) = some s') :
    ∃ notified, s' = { s with notified } ∧ ∀ d, notified d = false → s.notified d = false := by
  split at h
  · exact notifyOne_eq h
  · obtain rfl := Option.some.inj h
    exact ⟨_, rfl, fun _ hd => hd⟩

theorem lock_inv (h : Inv s) {woken : Option CpuId} (hholder : s.holder = none) (hc : c ∈ s.sched.cpus)
    (hphase : s.sched.phase c = .parked ∨ ∃ prev, s.sched.phase c = .entering prev)
    (hs : s.lock c woken = some s') : Inv s' := by
  unfold State.lock at hs
  simp only at hs
  split at hs
  · rename_i hleave
    obtain ⟨s₁, hs₁, hs⟩ := Option.bind_eq_some_iff.mp hs
    obtain ⟨q, hq, rfl⟩ := Option.map_eq_some_iff.mp hs
    obtain ⟨notified, rfl, hn⟩ := pushed_eq hs₁
    refine leave_inv (notified_inv h hn) hholder ?_ hq
    simpa [State.previous] using hleave
  · rename_i hstay
    obtain ⟨s₁, hs₁, rfl⟩ := Option.map_eq_some_iff.mp hs
    obtain ⟨notified, rfl, hn⟩ := pushed_eq hs₁
    rw [Bool.not_eq_true, Bool.or_eq_false_iff] at hstay
    refine enter_inv (notified_inv h hn) hholder hc hphase hstay.1 ?_
    rintro ⟨hprev, hleft⟩
    have hprev' : s.previous c = none := hprev
    rw [hprev', show s.sched.nothingLeft = true from hleft] at hstay
    cases hstay.2

/-- What `is_ready` does to the thread it asks, and to no other. -/
structure Asked (s : State) (t : ThreadId) (sync : Sync.State) (sleepUntil : ThreadId → Int) : Prop where
  state : (s.isReady t).2 = { s with sync, sleepUntil }
  others : ∀ u, u ≠ t → sync.thread u = s.sync.thread u ∧ sleepUntil u = s.sleepUntil u
  wait : s.wait t = none → (sync.thread t).bind Sync.Thread.wait = none
  ready : (s.isReady t).1 = true → s.unblocked t = true
  waits : (s.isReady t).1 = false → sync = s.sync

/-- The answers of `is_ready`, one for each of its ways out. -/
inductive Answer (s : State) (t : ThreadId) : Prop
  | suspended (hcount : s.suspendCount t ≠ 0) (hres : s.isReady t = (false, s))
  | plain (hcount : s.suspendCount t = 0) (hw : s.wait t = none)
      (hres : s.isReady t = (s.started t && !s.sleeping t, s))
  | over (w : Wait) (hcount : s.suspendCount t = 0) (hw : s.wait t = some w)
      (hover : w.satisfied = true ∨ w.timed = true) (hres : s.isReady t = (true, s.finishWait t))
  | pending (w : Wait) (hcount : s.suspendCount t = 0) (hw : s.wait t = some w) (htimed : w.timed = true)
      (hrest : 0 < Sync.remaining w.deadline s.system)
      (hres : s.isReady t = (false, s.sleepFor t (Sync.ceilMs (Sync.remaining w.deadline s.system))))
  | waiting (w : Wait) (hw : s.wait t = some w) (hno : w.satisfied = false ∧ w.timed = false)
      (hres : s.isReady t = (false, s))

theorem isReady_answer (s : State) (t : ThreadId) : Answer s t := by
  by_cases hcount : s.suspendCount t = 0
  · cases hw : s.wait t with
    | none =>
      refine .plain hcount hw ?_
      unfold State.isReady
      rw [if_neg (not_not.mpr hcount), hw]
    | some w =>
      have hres : s.isReady t = if w.satisfied || Sync.timesOut w s.system then (true, s.finishWait t)
          else if w.timed then (false, s.sleepFor t (Sync.ceilMs (Sync.remaining w.deadline s.system)))
          else (false, s) := by
        unfold State.isReady
        rw [if_neg (not_not.mpr hcount), hw]
      by_cases hover : (w.satisfied || Sync.timesOut w s.system) = true
      · rw [if_pos hover] at hres
        refine .over w hcount hw ?_ hres
        rcases (Bool.or_eq_true _ _).mp hover with hsat | hout
        · exact Or.inl hsat
        · unfold Sync.timesOut at hout
          rw [Bool.and_eq_true, Bool.and_eq_true] at hout
          exact Or.inr hout.1.2
      · rw [if_neg hover] at hres
        rw [Bool.not_eq_true, Bool.or_eq_false_iff] at hover
        cases htimed : w.timed with
        | false =>
          rw [htimed] at hres
          exact .waiting w hw ⟨hover.1, htimed⟩ hres
        | true =>
          rw [htimed, if_pos rfl] at hres
          refine .pending w hcount hw htimed ?_ hres
          have hout := hover.2
          unfold Sync.timesOut at hout
          rw [hover.1, htimed, Bool.not_false, Bool.true_and, Bool.true_and, decide_eq_false_iff_not] at hout
          exact Int.not_le.mp hout
  · exact .suspended hcount (if_pos hcount)

variable {t : ThreadId}

theorem unblocked_iff : s.unblocked t = true ↔ s.suspendCount t = 0 ∧ s.stirs t = true := by
  unfold State.unblocked
  rw [Bool.and_eq_true, beq_iff_eq]

theorem isReady_asked (s : State) (t : ThreadId) : ∃ sync sleepUntil, Asked s t sync sleepUntil := by
  have hleft : ∀ b, s.isReady t = (b, s) → (b = true → s.unblocked t = true) →
      ∃ sync sleepUntil, Asked s t sync sleepUntil := by
    intro b hres hb
    refine ⟨s.sync, s.sleepUntil, by rw [hres], fun _ _ => ⟨rfl, rfl⟩, id, ?_, fun _ => rfl⟩
    rw [hres]
    exact hb
  obtain ⟨-, hres⟩ | ⟨hcount, hw, hres⟩ | ⟨w, hcount, hw, hover, hres⟩ | ⟨w, hcount, hw, -, -, hres⟩ |
    ⟨w, hw, -, hres⟩ := isReady_answer s t
  · exact hleft false hres fun h => by cases h
  · refine hleft _ hres fun h => unblocked_iff.mpr ⟨hcount, ?_⟩
    unfold State.stirs
    rw [hw]
    exact ((Bool.and_eq_true _ _).mp h).1
  · obtain ⟨th, hth, hthw⟩ := Option.bind_eq_some_iff.mp hw
    have hfinish : s.finishWait t = { s with
        sync := s.sync.setThread t { th with wait := none }
        sleepUntil := Function.update s.sleepUntil t (Sync.sleepFor s.host 0) } := by
      unfold State.finishWait
      rw [hth]
      rfl
    refine ⟨_, _, (congrArg Prod.snd hres).trans hfinish,
      fun u hu => ⟨Function.update_of_ne hu _ _, Function.update_of_ne hu _ _⟩, ?_,
      fun _ => unblocked_iff.mpr ⟨hcount, ?_⟩, ?_⟩
    · rw [hw]
      simp
    · unfold State.stirs
      rw [hw]
      exact (Bool.or_eq_true _ _).mpr hover
    · rw [hres]
      simp
  · refine ⟨s.sync, _, by rw [hres]; rfl, fun u hu => ⟨rfl, Function.update_of_ne hu _ _⟩, id, ?_, fun _ => rfl⟩
    rw [hres]
    simp
  · exact hleft false hres fun h => by cases h

/-- A thread that is not ready, and that no handler keeps off the cpus, is asleep. -/
theorem asleep_of_not_ready (htime : Sync.IsTime s.host) (hok : ∀ w ∈ s.wait t, w.timed = true →
      Sync.SleepFits s.host (Sync.ceilMs (Sync.remaining w.deadline s.system)))
    (hno : (s.isReady t).1 = false) (hun : s.unblocked t = true) : (s.isReady t).2.sleeping t = true := by
  obtain ⟨hcount, hstirs⟩ := unblocked_iff.mp hun
  unfold State.stirs at hstirs
  obtain ⟨hne, -⟩ | ⟨-, hw, hres⟩ | ⟨w, -, hw, -, hres⟩ | ⟨w, -, hw, htimed, hrest, hres⟩ | ⟨w, hw, hnot, hres⟩ :=
    isReady_answer s t
  · exact absurd hcount hne
  · rw [hw] at hstirs
    rw [hres] at hno ⊢
    have hstarted : s.started t = true := hstirs
    have hasleep : (s.started t && !s.sleeping t) = false := hno
    rw [hstarted, Bool.true_and, Bool.not_eq_false'] at hasleep
    exact hasleep
  · rw [hres] at hno
    cases hno
  · -- the sleep that has just been armed is not over
    have hlong := (Sync.sleep_iff htime (Int.le_of_lt hrest)).mpr (hok w hw htimed)
    rw [hres]
    refine decide_eq_true ?_
    show s.host < Function.update s.sleepUntil t _ t
    rw [Function.update_self]
    refine lt_of_lt_of_le ?_ hlong
    obtain ⟨h0, hmax⟩ := htime
    unfold Sync.saturate Sync.nsPerTick
    omega
  · rw [hw] at hstirs
    have hboth : (w.satisfied || w.timed) = true := hstirs
    rw [hnot.1, hnot.2] at hboth
    cases hboth

theorem queued_of_some {sec : Section} (hsec : s.holder = some sec) : s.queued = sec.asked ++ sec.rest := by
  unfold State.queued
  rw [hsec]

theorem take_inv (h : Inv s) {asked rest : List ThreadId}
    (hsec : s.holder = some ⟨c, asked, t :: rest⟩) (hready : (s.isReady t).1 = true) {q : Sched.State}
    (hq : (s.schedule c fun u => u == t) = some q) : Inv { (s.isReady t).2 with sched := q, holder := none } := by
  have hl := h.looking _ hsec
  have hspec := schedule_spec hl.stopped hl.left hq
  obtain ⟨sync, sleepUntil, hasked⟩ := isReady_asked s t
  have hmem : t ∈ s.sched.queue ++ (s.previous c).toList := by
    rw [← hl.queue]
    exact List.mem_append_right _ (List.mem_cons_self ..)
  have hfind : (s.sched.queue ++ (s.previous c).toList).find? (fun u => u == t) = some t := by
    have hsome : ((s.sched.queue ++ (s.previous c).toList).find? fun u => u == t).isSome :=
      List.find?_isSome.mpr ⟨t, hmem, beq_self_eq_true t⟩
    obtain ⟨a, ha⟩ := Option.isSome_iff_exists.mp hsome
    have hat := List.find?_some (p := fun u => u == t) ha
    rw [ha, beq_iff_eq.mp hat]
  obtain ⟨hqueue, hphase⟩ := hspec.took t hfind
  rw [Sched.eraseP_of_find? hfind] at hqueue
  have hplaced := schedule_placed h.placed hq
  have haway : t ∉ q.queue := by
    refine fun hin => hplaced.queuedFree c t hin ?_
    rw [hplaced.held, hphase, Function.update_self]
    rfl
  rw [hasked.state]
  generalize hs' : { s with sync, sleepUntil, sched := q, holder := none } = s'
  change Inv s'
  have hgood : ∀ d, s'.ParkedForGood d → d ≠ c ∧ s.ParkedForGood d := by
    rw [← hs']
    rintro d ⟨hw, hd⟩
    obtain ⟨hdmem, hp, -, hn⟩ := waits_iff.mp hw
    have hdc : d ≠ c := by
      rintro rfl
      rw [hphase, Function.update_self] at hp
      cases hp
    rw [hphase, Function.update_of_ne hdc] at hp
    refine ⟨hdc, waits_iff.mpr ⟨hspec.cpus ▸ hdmem, hp, fun sec hsec' => ?_, hn⟩, hd⟩
    obtain rfl := Option.some.inj (hsec.symm.trans hsec')
    exact Ne.symm hdc
  have hsub : s.attending.erase c ⊆ s'.attending := by
    intro u hu
    obtain ⟨huc, hu⟩ := Finset.mem_erase.mp hu
    refine attending_of ?_ (fun hg => (hgood u hg).2) (fun hin => Or.inl ?_) hu
    · rw [← hs']
      exact hspec.cpus
    · rw [← hs']
      show q.phase u = .parked
      rw [hphase, Function.update_of_ne huc]
      refine hin.resolve_right ?_
      rintro ⟨sec, hsec', rfl⟩
      obtain rfl := Option.some.inj (hsec.symm.trans hsec')
      exact huc rfl
  have hothers : ∀ u, u ≠ t → s'.unblocked u = s.unblocked u := by
    intro u hu
    obtain ⟨hthread, hsleep⟩ := hasked.others u hu
    have hsame : Same s s' u := by
      rw [← hs']
      refine ⟨rfl, ?_, rfl, hsleep⟩
      show (sync.thread u).bind _ = _
      rw [hthread]
      rfl
    exact hsame.unblocked
  refine ⟨by rw [← hs']; exact hplaced, fun u hu => ?_, by rw [← hs']; exact h.said,
    fun sec hsec' => ?_, fun hst => ?_, fun d hd hquiet => ?_, by rw [← hs']; exact h.time⟩
  · have hu' : s.sched.enqueued u = false := by
      rw [← hspec.enqueued]
      rw [← hs'] at hu
      exact hu
    obtain ⟨hstarted, hwait⟩ := h.fresh u hu'
    rw [← hs']
    refine ⟨hstarted, ?_⟩
    by_cases hut : u = t
    · subst hut
      exact hasked.wait hwait
    · show (sync.thread u).bind _ = none
      rw [(hasked.others u hut).1]
      exact hwait
  · rw [← hs'] at hsec'
    cases hsec'
  · rw [← hs'] at hst
    have : q.stopped = true := hst
    rw [hspec.stopped, hl.stopped] at this
    cases this
  · -- one thread and one cpu less
    have hold := h.covered d (hgood d hd).2 (by rw [← hs'] at hquiet; exact hquiet)
    rw [queued_of_some hsec, hl.queue, (List.perm_cons_erase hmem).countP_eq,
      List.countP_cons_of_pos (hasked.ready hready), ← hqueue] at hold
    have hqueued : s'.queued = q.queue := by rw [← hs']; rfl
    have hcount : q.queue.countP s'.unblocked ≤ q.queue.countP s.unblocked :=
      List.countP_mono_left fun u hu hun => hothers u (fun hut => haway (hut ▸ hu)) ▸ hun
    have hcard := Finset.card_le_card hsub
    have := Finset.pred_card_le_card_erase (a := c) (s := s.attending)
    rw [hqueued]
    omega

theorem pass_inv (h : Inv s) {asked rest : List ThreadId}
    (hsec : s.holder = some ⟨c, asked, t :: rest⟩) (hready : (s.isReady t).1 = false) (hok : Ok s (.ask c)) :
    Inv { (s.isReady t).2 with holder := some ⟨c, asked ++ [t], rest⟩ } := by
  have hl := h.looking _ hsec
  have hasleep := asleep_of_not_ready h.time (hok _ hsec t rfl) hready
  obtain ⟨sync, sleepUntil, hasked⟩ := isReady_asked s t
  obtain rfl := hasked.waits hready
  rw [hasked.state] at hasleep ⊢
  have hlist : (asked ++ [t]) ++ rest = asked ++ t :: rest := by rw [List.append_assoc, List.singleton_append]
  refine h.keep ⟨rfl, fun _ => Iff.rfl, by rw [hsec]; rfl, rfl, rfl⟩ ?_ h.placed rfl h.fresh h.said
    (fun sec hsec' => ?_) (fun hq => ⟨hq, fun _ _ ht => ht⟩) h.time
  · rw [queued_of_some hsec]
    exact hlist
  · obtain rfl := Option.some.inj hsec'
    refine hl.keep (.refl _) rfl hlist fun u hu hun => ?_
    by_cases hut : u = t
    · rw [hut] at hun ⊢
      exact Or.inl (hasleep hun)
    · have hu' : u ∈ asked := (List.mem_append.mp hu).resolve_right fun hin => hut (List.mem_singleton.mp hin)
      refine (hl.asked u hu' hun).imp_left fun hold => ?_
      show decide (s.host < sleepUntil u) = true
      rw [(hasked.others u hut).2]
      exact hold

theorem ask_inv (h : Inv s) (hok : Ok s (.ask c)) (hs : s.ask c = some s') : Inv s' := by
  unfold State.ask at hs
  split at hs
  · rename_i d asked t rest hsec
    split at hs
    · rename_i hdc
      subst hdc
      split at hs
      · rename_i hready
        obtain ⟨q, hq, rfl⟩ := Option.map_eq_some_iff.mp hs
        exact take_inv h hsec hready hq
      · rename_i hready
        obtain rfl := Option.some.inj hs
        exact pass_inv h hsec (Bool.eq_false_iff.mpr hready) hok
    · cases hs
  · cases hs

theorem nextWake_none {l : List ThreadId} (h : s.nextWake l = none) : ∀ t ∈ l, s.sleeping t = false := by
  have hfold : ∀ (l : List ThreadId) (e : Option Int), l.foldl (fun earliest t =>
      if s.sleeping t && earliest.all fun e => decide (s.sleepUntil t < e) then some (s.sleepUntil t)
      else earliest) e = none → e = none ∧ ∀ t ∈ l, s.sleeping t = false := by
    intro l
    induction l with
    | nil => exact fun e he => ⟨he, fun t ht => by cases ht⟩
    | cons t l ih =>
      intro e he
      obtain ⟨hnone, hl⟩ := ih _ he
      dsimp only at hnone
      split at hnone
      · cases hnone
      · rename_i hno
        subst hnone
        rw [Option.all_none, Bool.and_true, Bool.not_eq_true] at hno
        exact ⟨rfl, List.forall_mem_cons.mpr ⟨hno, hl⟩⟩
  exact (hfold l none h).2

/-- What a cpu has asked is all blocked when no time is left to wait for and no call owes a notification. -/
theorem blocked_of_nextWake {asked : List ThreadId} (hsec : s.holder = some ⟨c, asked, []⟩)
    (hl : Looking s ⟨c, asked, []⟩) (hwake : s.nextWake asked = none) (hquiet : s.Quiet) :
    s.queued.countP s.unblocked = 0 := by
  rw [queued_of_some hsec, List.append_nil, List.countP_eq_zero]
  intro t ht hun
  rcases hl.asked t ht hun with hasleep | ⟨d, hd⟩
  · rw [nextWake_none hwake t ht] at hasleep
    cases hasleep
  · rw [hquiet d] at hd
    cases hd

theorem park_inv (h : Inv s) (hs : s.park c = some s') : Inv s' := by
  unfold State.park at hs
  split at hs
  · rename_i d asked hsec
    split at hs
    · rename_i hdc
      subst hdc
      obtain ⟨q, hq, hs'⟩ := Option.map_eq_some_iff.mp hs
      have hl := h.looking _ hsec
      have hspec := schedule_spec hl.stopped hl.left hq
      obtain ⟨hqueue, hphase⟩ := hspec.parked (List.find?_eq_none.mpr fun _ _ => by simp)
      rw [← hl.queue] at hqueue
      have hgood : ∀ u, u ≠ d → s'.ParkedForGood u → s.ParkedForGood u := by
        rw [← hs']
        rintro u hud ⟨hw, hdl⟩
        obtain ⟨humem, hp, -, hn⟩ := waits_iff.mp hw
        have hp' : Function.update s.sched.phase d .parked u = .parked := hphase ▸ hp
        have hn' : Function.update s.notified d false u = false := hn
        have hdl' : Function.update s.deadline d (s.nextWake asked) u = none := hdl
        rw [Function.update_of_ne hud] at hp' hn' hdl'
        refine ⟨waits_iff.mpr ⟨hspec.cpus ▸ humem, hp', fun sec hsec' => ?_, hn'⟩, hdl'⟩
        obtain rfl := Option.some.inj (hsec.symm.trans hsec')
        exact Ne.symm hud
      have hqueued : s'.queued = s.queued := by
        rw [queued_of_some hsec, ← hs']
        exact hqueue
      refine ⟨?_, fun u hu => ?_, ?_, fun sec hsec' => ?_, fun hst => ?_, fun u hu hquiet => ?_, ?_⟩
      · rw [← hs']
        exact schedule_placed h.placed hq
      · rw [← hs'] at hu ⊢
        exact h.fresh u (hspec.enqueued ▸ hu)
      · rw [← hs']
        exact h.said
      · rw [← hs'] at hsec'
        cases hsec'
      · rw [← hs'] at hst
        have : q.stopped = true := hst
        rw [hspec.stopped, hl.stopped] at this
        cases this
      · have hquiet' : s.Quiet := by
          rw [← hs'] at hquiet
          exact hquiet
        have hsame : s'.unblocked = s.unblocked := by
          rw [← hs']
          rfl
        rw [hqueued, hsame]
        cases hwake : s.nextWake asked with
        | none =>
          -- nothing that has been asked can become ready without a notification
          rw [blocked_of_nextWake hsec hl hwake hquiet']
          exact Nat.zero_le _
        | some wake =>
          have hdin : ¬ s'.ParkedForGood d := by
            rintro ⟨-, hdl⟩
            rw [← hs'] at hdl
            have hdl' : Function.update s.deadline d (s.nextWake asked) d = none := hdl
            rw [Function.update_self, hwake] at hdl'
            cases hdl'
          have hgood' : ∀ v, s'.ParkedForGood v → s.ParkedForGood v := by
            intro v hv
            refine hgood v ?_ hv
            rintro rfl
            exact hdin hv
          refine (h.covered u (hgood' u hu) hquiet').trans (Finset.card_le_card fun v hv => ?_)
          refine attending_of ?_ (hgood' v) (fun hin => Or.inl ?_) hv
          · rw [← hs']
            exact hspec.cpus
          · rw [← hs']
            show q.phase v = .parked
            rw [hphase]
            by_cases hvd : v = d
            · rw [hvd, Function.update_self]
            · rw [Function.update_of_ne hvd]
              refine hin.resolve_right ?_
              rintro ⟨sec, hsec', rfl⟩
              obtain rfl := Option.some.inj (hsec.symm.trans hsec')
              exact hvd rfl
      · rw [← hs']
        exact h.time
    · cases hs
  · cases hs

end lock

/-! ## Runs -/

variable {s s' : State}

theorem caller_spec {c : CpuId} {f : ThreadId → State} (h : (s.caller c).map f = some s') :
    ∃ t, s.caller c = some t ∧ s' = f t := by
  obtain ⟨t, ht, rfl⟩ := Option.map_eq_some_iff.mp h
  exact ⟨t, ht, rfl⟩

theorem base_handles (h : Inv s) {e : Event} {c : CpuId} (he : e.handler = some c) (hok : Ok s e)
    (hs : s.base e = some s') : Handles s s' c := by
  cases e with
  | store d a o =>
    obtain rfl := Option.some.inj he
    obtain ⟨t, ht, rfl⟩ := caller_spec hs
    obtain ⟨-, haway, henq⟩ := h.caller_away ht
    exact Handles.of_same rfl rfl rfl rfl rfl rfl ⟨rfl, rfl⟩ haway henq fun _ _ => ⟨rfl, rfl, rfl, rfl⟩
  | wakeWaiters d p a =>
    obtain rfl := Option.some.inj he
    unfold State.base at hs
    dsimp only at hs
    split at hs
    · rename_i hcan
      obtain rfl := Option.some.inj hs
      refine handles_setCall fun ho => ?_
      have hidle : s.call d = .idle := by
        rcases (Bool.or_eq_true _ _).mp hcan with hcaller | hending
        · obtain ⟨t, ht⟩ := Option.isSome_iff_exists.mp hcaller
          exact (h.caller_away ht).1
        · exact beq_iff_eq.mp ((Bool.and_eq_true _ _).mp ((Bool.and_eq_true _ _).mp hending).1).1
      rw [hidle] at ho
      cases ho
    · cases hs
  | walk d =>
    obtain rfl := Option.some.inj he
    exact walk_handles hs
  | beginWait d objects waitType timeout =>
    obtain rfl := Option.some.inj he
    obtain ⟨t, ht, rfl⟩ := caller_spec hs
    exact beginWait_handles h ht _
  | waitForAlert d timeout =>
    obtain rfl := Option.some.inj he
    obtain ⟨t, ht, rfl⟩ := caller_spec hs
    split
    · obtain ⟨-, haway, henq⟩ := h.caller_away ht
      exact Handles.of_same rfl rfl rfl rfl rfl rfl ⟨rfl, rfl⟩ haway henq fun _ _ => ⟨rfl, rfl, rfl, rfl⟩
    · exact beginWait_handles h ht _
  | sleep d ms =>
    obtain rfl := Option.some.inj he
    obtain ⟨t, ht, rfl⟩ := caller_spec hs
    obtain ⟨-, haway, henq⟩ := h.caller_away ht
    exact Handles.of_same rfl rfl rfl rfl rfl rfl ⟨rfl, rfl⟩ haway henq fun u hu =>
      ⟨rfl, rfl, rfl, Function.update_of_ne hu _ _⟩
  | alert d t =>
    obtain rfl := Option.some.inj he
    obtain ⟨_, -, rfl⟩ := caller_spec hs
    exact alert_handles hok
  | suspend d t =>
    obtain rfl := Option.some.inj he
    obtain ⟨_, -, rfl⟩ := caller_spec hs
    exact suspend_handles hok
  | resume d t =>
    obtain rfl := Option.some.inj he
    obtain ⟨_, -, rfl⟩ := caller_spec hs
    exact resume_handles s d t
  | start d t =>
    obtain rfl := Option.some.inj he
    have hs : (if s.sched.enqueued t then (s.caller d).map fun _ => s.start d t else none) = some s' := hs
    split at hs
    · rename_i henq
      obtain ⟨_, -, rfl⟩ := caller_spec hs
      exact start_handles henq
    · cases hs
  | _ => cases he

theorem lock_start {c : CpuId} {woken : Option CpuId}
    (hs : s.base (.lock c woken) = some s') : s.holder = none ∧ c ∈ s.sched.cpus ∧
      (s.sched.phase c = .parked ∨ ∃ prev, s.sched.phase c = .entering prev) ∧ s.lock c woken = some s' := by
  unfold State.base at hs
  dsimp only at hs
  split at hs
  · cases hs
  · rename_i hfree
    rw [Bool.not_eq_true, Bool.or_eq_false_iff, decide_eq_false_iff_not, not_not] at hfree
    have hnone : s.holder = none := by simpa using hfree.1
    split at hs
    · rename_i prev hp
      exact ⟨hnone, hfree.2, Or.inr ⟨prev, hp⟩, hs⟩
    · rename_i hp
      exact ⟨hnone, hfree.2, Or.inl hp, hs⟩
    · cases hs

theorem base_inv (h : Inv s) {e : Event} (he : e.handler = none) (hok : Ok s e)
    (hs : s.base e = some s') : Inv s' := by
  cases e with
  | sched e woken => exact schedStep_inv h hs
  | lock c woken =>
    obtain ⟨hholder, hc, hphase, hs⟩ := lock_start hs
    exact lock_inv h hholder hc hphase hs
  | ask c => exact ask_inv h hok hs
  | park c => exact park_inv h hs
  | timekeeper => exact preempt_inv h hs
  | tick system host =>
    unfold State.base at hs
    dsimp only at hs
    split at hs
    · rename_i htime
      obtain rfl := Option.some.inj hs
      exact tick_inv h htime.2.1 hok
    · cases hs
  | boot t =>
    unfold State.base at hs
    dsimp only at hs
    split at hs
    · rename_i hboot
      obtain rfl := Option.some.inj hs
      rw [Bool.and_eq_true, Bool.and_eq_true, List.all_eq_true] at hboot
      exact boot_inv h hboot.1.1 (by simpa using hboot.1.2) fun c hc => beq_iff_eq.mp (hboot.2 c hc)
    · cases hs
  | notify c =>
    unfold State.base at hs
    dsimp only at hs
    split at hs
    · obtain rfl := Option.some.inj hs
      exact notify_inv h hok
    · cases hs
  | preempt c =>
    unfold State.base at hs
    dsimp only at hs
    split at hs
    · rename_i hcall
      obtain ⟨s₁, hs₁, rfl⟩ := Option.map_eq_some_iff.mp hs
      refine setCall_inv (preempt_inv h hs₁) ?_ rfl
      have hsame : s₁.call = s.call := by
        unfold State.preemptForWaiting at hs₁
        split at hs₁
        · cases hs₁
        · obtain ⟨q, -, rfl⟩ := Option.map_eq_some_iff.mp hs₁
          rfl
      rw [hsame, hcall]
      rfl
    · cases hs
  | _ => cases he

theorem step_inv (h : Inv s) {e : Event} (hok : Ok s e) (hs : step s e = some s') : Inv s' := by
  obtain ⟨s₁, hs₁, rfl⟩ := Option.map_eq_some_iff.mp hs
  cases he : e.handler with
  | some c => exact h.handles (base_handles h he hok hs₁)
  | none => exact base_inv h he hok hs₁

def start (cpus : List CpuId) (objs : Sync.Objects) (ethread : ThreadId → Addr) (tids : Pid → List ThreadId) :
    State where
  sched := Sched.start cpus
  sync := { objs, thread := fun t => some { ethread := ethread t }, tids }

theorem inv_start (cpus : List CpuId) (objs : Sync.Objects) (ethread : ThreadId → Addr)
    (tids : Pid → List ThreadId) : Inv (start cpus objs ethread tids) where
  placed := Sched.placed_start cpus
  fresh _ _ := ⟨rfl, rfl⟩
  said _ _ := rfl
  looking _ hsec := by cases hsec
  stopped hst := by cases hst
  covered c hc := by
    obtain ⟨-, hp, -⟩ := waits_iff.mp hc.1
    cases hp
  time := (by decide : Sync.IsTime 0)

/-- **No cpu is left parked** as long as no handler ends a wait by `alert`, and no notification and no clock comes
between a cpu's look at the queue and its wait. -/
theorem noticed_of_ok {cpus : List CpuId} {objs : Sync.Objects} {ethread : ThreadId → Addr}
    {tids : Pid → List ThreadId} {events : List Event} {s : State}
    (h : Run.Steps step Ok (start cpus objs ethread tids) events s) : Noticed s :=
  (h.invariant (fun _ _ _ hs hok hstep => step_inv hs hok hstep) (inv_start cpus objs ethread tids)).noticed

/-! ## The scheduler's own runs -/

section runs
variable {s s' : State}

variable {c : CpuId}

theorem schedule_step {ready : ThreadId → Bool} {q : Sched.State} (h : s.schedule c ready = some q) :
    ∃ e, Sched.step s.sched e = some q := by
  unfold State.schedule at h
  split at h
  · exact ⟨_, h⟩
  · exact ⟨_, h⟩

def Projects (s s' : State) : Prop := s'.sched = s.sched ∨ ∃ e, Sched.step s.sched e = some s'.sched

theorem lock_projects {woken : Option CpuId} (h : s.lock c woken = some s') : Projects s s' := by
  unfold State.lock at h
  simp only at h
  split at h
  · obtain ⟨s₁, hs₁, h⟩ := Option.bind_eq_some_iff.mp h
    obtain ⟨q, hq, rfl⟩ := Option.map_eq_some_iff.mp h
    obtain ⟨notified, rfl, -⟩ := pushed_eq hs₁
    exact Or.inr (schedule_step hq)
  · obtain ⟨s₁, hs₁, rfl⟩ := Option.map_eq_some_iff.mp h
    obtain ⟨notified, rfl, -⟩ := pushed_eq hs₁
    exact Or.inl rfl

theorem ask_projects (h : s.ask c = some s') : Projects s s' := by
  unfold State.ask at h
  split at h
  · split at h
    · split at h
      · obtain ⟨q, hq, rfl⟩ := Option.map_eq_some_iff.mp h
        exact Or.inr (schedule_step hq)
      · rename_i t _ _ _ _
        obtain rfl := Option.some.inj h
        obtain ⟨sync, sleepUntil, hasked⟩ := isReady_asked s t
        rw [hasked.state]
        exact Or.inl rfl
    · cases h
  · cases h

theorem park_projects (h : s.park c = some s') : Projects s s' := by
  unfold State.park at h
  split at h
  · split at h
    · obtain ⟨q, hq, rfl⟩ := Option.map_eq_some_iff.mp h
      exact Or.inr (schedule_step hq)
    · cases h
  · cases h

theorem preempt_projects (h : s.preemptForWaiting = some s') : Projects s s' := by
  unfold State.preemptForWaiting at h
  split at h
  · cases h
  · obtain ⟨q, hq, rfl⟩ := Option.map_eq_some_iff.mp h
    exact Or.inr ⟨_, hq⟩

theorem schedStep_projects {e : Sched.Event} {woken : Option CpuId} (h : s.schedStep e woken = some s') :
    Projects s s' := by
  unfold State.schedStep at h
  split at h
  · cases h
  split at h
  · obtain ⟨q, hq, rfl⟩ := Option.map_eq_some_iff.mp h
    exact Or.inr ⟨_, hq⟩
  split at h
  · cases h
  split at h
  · obtain ⟨q, hq, rfl⟩ := Option.map_eq_some_iff.mp h
    exact Or.inr ⟨_, hq⟩
  · split at h
    · obtain ⟨s₁, hs₁, h⟩ := Option.bind_eq_some_iff.mp h
      obtain ⟨q, hq, rfl⟩ := Option.map_eq_some_iff.mp h
      obtain ⟨notified, rfl, -⟩ := notifyOne_eq hs₁
      exact Or.inr ⟨_, hq⟩
    · cases h

theorem walk_projects (h : s.walk c = some s') : Projects s s' := by
  unfold State.walk at h
  split at h
  · obtain rfl := Option.some.inj h
    exact Or.inl rfl
  · obtain rfl := Option.some.inj h
    exact Or.inl rfl
  · cases h

theorem base_projects {e : Event} (h : s.base e = some s') : Projects s s' := by
  have hcaller : ∀ {c : CpuId} {f : ThreadId → State}, (s.caller c).map f = some s' →
      (∀ t, (f t).sched = s.sched) → Projects s s' := by
    intro c f hs hf
    obtain ⟨t, -, rfl⟩ := caller_spec hs
    exact Or.inl (hf t)
  unfold State.base at h
  cases e with
  | sched e woken => exact schedStep_projects h
  | lock c woken => exact lock_projects (lock_start h).2.2.2
  | ask c => exact ask_projects h
  | park c => exact park_projects h
  | timekeeper => exact preempt_projects h
  | tick system host =>
    dsimp only at h
    split at h
    · obtain rfl := Option.some.inj h
      exact Or.inl rfl
    · cases h
  | boot t =>
    dsimp only at h
    split at h
    · obtain rfl := Option.some.inj h
      exact Or.inl rfl
    · cases h
  | store c a o => exact hcaller h fun _ => rfl
  | wakeWaiters c p a =>
    dsimp only at h
    split at h
    · obtain rfl := Option.some.inj h
      exact Or.inl rfl
    · cases h
  | walk c => exact walk_projects h
  | notify c =>
    dsimp only at h
    split at h
    · obtain rfl := Option.some.inj h
      exact Or.inl rfl
    · cases h
  | preempt c =>
    dsimp only at h
    split at h
    · obtain ⟨s₁, hs₁, rfl⟩ := Option.map_eq_some_iff.mp h
      have hproj := preempt_projects hs₁
      exact hproj
    · cases h
  | beginWait c objects waitType timeout => exact hcaller h fun _ => rfl
  | waitForAlert c timeout =>
    refine hcaller h fun t => ?_
    split <;> rfl
  | sleep c ms => exact hcaller h fun _ => rfl
  | alert c t =>
    refine hcaller h fun _ => ?_
    obtain ⟨sync, alerted, heq, -, -⟩ := alert_eq s t
    rw [heq]
  | suspend c t => exact hcaller h fun _ => rfl
  | resume c t =>
    refine hcaller h fun _ => ?_
    unfold State.resume
    dsimp only
    split <;> rfl
  | start c t =>
    dsimp only at h
    split at h
    · exact hcaller h fun _ => rfl
    · cases h

/-- A run, with the sections of `schedule` taken apart, is a run of the scheduler. -/
theorem runs_sched {ok : State → Event → Prop} {events : List Event} (h : Run.Steps step ok s events s') :
    ∃ es, Sched.Runs s.sched es s'.sched := by
  induction h with
  | nil s => exact ⟨[], .nil _⟩
  | cons hok hstep rest ih =>
    obtain ⟨es, hes⟩ := ih
    obtain ⟨s₁, hs₁, rfl⟩ := Option.map_eq_some_iff.mp hstep
    have hproj := base_projects hs₁
    split at hes
    · rcases hproj with heq | ⟨e, he⟩
      · exact ⟨es, heq ▸ hes⟩
      · exact ⟨e :: es, .cons trivial he hes⟩
    · rcases hproj with heq | ⟨e, he⟩
      · exact ⟨es, heq ▸ hes⟩
      · exact ⟨e :: es, .cons trivial he hes⟩

/-- No thread is lost, queued twice or on two cpus, also between the looks of a cpu. -/
theorem run_conserved {ok : State → Event → Prop} {cpus : List CpuId} {objs : Sync.Objects}
    {ethread : ThreadId → Addr} {tids : Pid → List ThreadId} {events : List Event}
    (h : Run.Steps step ok (start cpus objs ethread tids) events s) : Sched.Conserved s.sched := by
  obtain ⟨es, hes⟩ := runs_sched h
  exact (Sched.Placed.run hes).conserved

end runs

def bothRun : List Event :=
  [.sched (.register 1) none, .sched (.register 2) none, .sched (.enqueue 1) none, .sched (.enqueue 2) none,
    .boot 1, .boot 2, .lock 0 none, .ask 0, .sched (.resume 0) none, .lock 1 none, .ask 1,
    .sched (.resume 1) none]

/-- Thread 1 has begun a wait; its cpu finds nobody ready, and parks. -/
def parks : List Event := [.sched (.runReturns 0) none, .lock 0 none, .ask 0, .park 0]

def twoCpus : State :=
  start [0, 1] (fun _ => { kind := .eventSynchronization, state := 0 }) (fun t => 0x1000 * t) (fun _ => [1, 2])

def signals : List Event :=
  bothRun ++ [.beginWait 0 [0x100] 1 none] ++ parks ++
    [.store 1 0x100 { kind := .eventSynchronization, state := 1 }, .wakeWaiters 1 0 0x100, .walk 1, .walk 1,
      .walk 1, .notify 1, .preempt 1]

def alerts : List Event := bothRun ++ [.waitForAlert 0 none] ++ parks ++ [.alert 1 1]

instance (s : State) (e : Event) : Decidable (Ok s e) := by
  cases e <;> unfold Ok <;> infer_instance

/-- The cpu of the waiting thread is notified, and the thread may run. -/
theorem signals_noticed : ∃ s, Run.Steps step Ok twoCpus signals s ∧ s.queued = [1] ∧ s.mayRun 1 = true ∧
    s.notified 0 = true ∧ Noticed s := by
  have hexec : ((Run.exec step (fun s e => decide (Ok s e)) twoCpus signals).map fun s =>
      (s.queued, s.mayRun 1, s.notified 0)) = some ([1], true, true) := by decide +kernel
  obtain ⟨s, hs, hval⟩ := Option.map_eq_some_iff.mp hexec
  obtain ⟨hqueued, hval⟩ := Prod.mk.inj hval
  obtain ⟨hmay, hnotified⟩ := Prod.mk.inj hval
  have hrun := Run.Steps.of_exec (fun _ _ => of_decide_eq_true) hs
  exact ⟨s, hrun, hqueued, hmay, hnotified, noticed_of_ok hrun⟩

/-- The alerted thread may run, and nobody is told: its cpu stays parked. -/
theorem alerts_unnoticed : ¬ ∀ cpus objs ethread tids events s,
    Run.Steps step (fun _ _ => True) (start cpus objs ethread tids) events s → Noticed s := by
  intro hall
  have hexec : ((Run.exec step (fun _ _ => true) twoCpus alerts).map fun s =>
      ((s.waits 0, s.deadline 0), s.queued.countP s.mayRun, s.attending.card)) = some ((true, none), 1, 0) := by
    decide +kernel
  have hcalls : ∀ c, ((Run.exec step (fun _ _ => true) twoCpus alerts).map fun s => s.call c) = some .idle :=
    fun _ => rfl
  obtain ⟨s, hs, hval⟩ := Option.map_eq_some_iff.mp hexec
  obtain ⟨hparked, hval⟩ := Prod.mk.inj hval
  obtain ⟨hcount, hcard⟩ := Prod.mk.inj hval
  have hquiet : s.Quiet := by
    intro c
    have hc := hcalls c
    rw [hs] at hc
    have hidle : s.call c = .idle := Option.some.inj hc
    rw [hidle]
    rfl
  have hrun := Run.Steps.of_exec (fun _ _ _ => trivial) hs
  have hle := (hall _ _ _ _ _ s hrun).awake 0 (Prod.mk.inj hparked) hquiet
  rw [hcount, hcard] at hle
  exact absurd hle (by decide)

end Kernemul.Notify
