import Kernemul.Win.Notify.Inv

/-!
# Handlers that make threads runnable

The handler of a cpu leaves the queued threads as ready as they were, or has a notification to make. Only `alert`
may do neither.
-/

namespace Kernemul.Notify

open Sched (ThreadId CpuId Placed)
open Sync (Addr Pid Wait)

/-- What a step of the handler of a cpu does to the queued threads. -/
structure Handles (s s' : State) (c : CpuId) : Prop where
  sched : s'.sched = s.sched
  holder : s'.holder = s.holder
  deadline : s'.deadline = s.deadline
  notified : s'.notified = s.notified
  unsaid : s'.unsaid = s.unsaid
  host : s'.host = s.host
  calls : ∀ d, d ≠ c → s'.call d = s.call d
  owes : (s.call c).owes = true → (s'.call c).owes = true
  fresh : ∀ t, s.sched.enqueued t = false → s.started t = false ∧ s.wait t = none →
    s'.started t = false ∧ s'.wait t = none
  sleepUntil : ∀ t ∈ s.queued, s'.sleepUntil t = s.sleepUntil t
  told : (s'.call c).owes = true ∨ ∀ t ∈ s.queued,
    (s'.unblocked t = true → s.unblocked t = true) ∧ (s'.mayRun t = true → s.mayRun t = true)

section handles
variable {s s' : State} {c : CpuId}

theorem Handles.owed (h : Handles s s' c) {d : CpuId} (hd : (s.call d).owes = true) : (s'.call d).owes = true := by
  by_cases hdc : d = c
  · subst hdc
    exact h.owes hd
  · rw [h.calls d hdc]
    exact hd

theorem Handles.quiet (h : Handles s s' c) (hq : s'.Quiet) : s.Quiet := by
  intro d
  by_contra hne
  have := h.owed (d := d) (by simpa using hne)
  rw [hq d] at this
  cases this

theorem Inv.handles (h : Inv s) (hs : Handles s s' c) : Inv (s.mark s' c) := by
  have hqueued : s'.queued = s.queued := queued_of_holder hs.holder (by rw [hs.sched])
  have ha : Apart s.sched (s.mark s' c).sched := by
    show Apart s.sched s'.sched
    rw [hs.sched]
    exact .refl _
  have hw : Waiting s (s.mark s' c) := ha.waiting (by show s'.holder.map _ = _; rw [hs.holder]) hs.deadline hs.notified
  refine h.keep hw hqueued ?_ ?_ (fun t ht => ?_) (fun d hd => ?_) (fun sec hsec => ?_) (fun hq => ?_) ?_
  · show Placed s'.sched
    rw [hs.sched]
    exact h.placed
  · show s'.sched.stopped = _
    rw [hs.sched]
  · have ht' : s.sched.enqueued t = false := by
      rw [← hs.sched]
      exact ht
    exact hs.fresh t ht' (h.fresh t ht')
  · -- nothing is put down that is not told of
    have hcall : (s'.call d).owes = false := hd
    have hold : (s.call d).owes = false := by
      by_contra hne
      rw [hs.owed (by simpa using hne)] at hcall
      cases hcall
    show Function.update s'.unsaid c _ d = []
    by_cases hdc : d = c
    · subst hdc
      rw [Function.update_self, hs.unsaid, h.said d hold, List.nil_append, hqueued, List.filter_eq_nil_iff]
      intro t ht
      rcases hs.told with howes | htold
      · rw [howes] at hcall
        cases hcall
      · have := (htold t ht).2
        cases hm : s'.mayRun t with
        | false => simp
        | true => simp [this hm]
    · rw [Function.update_of_ne hdc, hs.unsaid]
      exact h.said d hold
  · have hsec' : s.holder = some sec := hs.holder ▸ hsec
    refine (h.looking sec hsec').keep ha rfl rfl fun t ht hun => ?_
    rcases hs.told with howes | htold
    · exact Or.inr ⟨c, howes⟩
    · have hmem := asked_queued hsec' ht
      rcases (h.looking sec hsec').asked t ht ((htold t hmem).1 hun) with hsleep | ⟨d, hd⟩
      · refine Or.inl ?_
        unfold State.sleeping at hsleep ⊢
        show decide (s'.host < s'.sleepUntil t) = true
        rw [hs.host, hs.sleepUntil t hmem]
        exact hsleep
      · exact Or.inr ⟨d, hs.owed hd⟩
  · have hq' : s'.Quiet := hq
    refine ⟨hs.quiet hq', fun t ht hun => ?_⟩
    rcases hs.told with howes | htold
    · rw [hq' c] at howes
      cases howes
    · exact (htold t ht).1 hun
  · show Sync.IsTime s'.host
    rw [hs.host]
    exact h.time

theorem Inv.caller_away (h : Inv s) {t : ThreadId} (hc : s.caller c = some t) :
    s.call c = .idle ∧ t ∉ s.queued ∧ s.sched.enqueued t = true := by
  unfold State.caller at hc
  split at hc
  · rename_i hcall
    have hphase := Sched.caller_eq_some hc
    have hcur : s.sched.current c = some t := by
      rw [h.placed.held, hphase]
      rfl
    refine ⟨hcall, fun hmem => ?_, h.placed.heldKnown c t hcur⟩
    have haway : t ∉ s.sched.queue := fun ht => h.placed.queuedFree c t ht hcur
    unfold State.queued at hmem
    split at hmem
    · -- the section's cpu brings a thread of its own
      rename_i sec hsec
      have hl := h.looking sec hsec
      rw [hl.queue] at hmem
      rcases List.mem_append.mp hmem with hq | hprev
      · exact haway hq
      · have hheld : s.sched.current sec.cpu = some t := by
          rw [h.placed.held]
          unfold State.previous at hprev
          split at hprev
          · rename_i prev hp
            rw [hp]
            exact Option.mem_toList.mp hprev
          · cases hprev
        obtain rfl := h.placed.heldOnce _ _ t hheld hcur
        rcases hl.phase with hp | ⟨prev, hp⟩
        · rw [hphase] at hp
          cases hp
        · rw [hphase] at hp
          cases hp
    · exact haway hmem
  · cases hc

theorem Handles.of_same {t : ThreadId} (hsched : s'.sched = s.sched) (hholder : s'.holder = s.holder)
    (hdeadline : s'.deadline = s.deadline) (hnotified : s'.notified = s.notified) (hunsaid : s'.unsaid = s.unsaid)
    (hcall : s'.call = s.call) (hclock : s'.host = s.host ∧ s'.system = s.system) (ht : t ∉ s.queued)
    (henq : s.sched.enqueued t = true) (hsame : ∀ u, u ≠ t → Same s s' u) : Handles s s' c where
  sched := hsched
  holder := hholder
  deadline := hdeadline
  notified := hnotified
  unsaid := hunsaid
  host := hclock.1
  calls d _ := congrFun hcall d
  owes ho := by rwa [hcall]
  fresh u hu hf := by
    have hut : u ≠ t := by
      rintro rfl
      rw [henq] at hu
      cases hu
    rw [(hsame u hut).started, (hsame u hut).wait]
    exact hf
  sleepUntil u hu := (hsame u (fun hut => ht (hut ▸ hu))).sleepUntil
  told := by
    refine Or.inr fun u hu => ?_
    have hsu := hsame u fun hut => ht (hut ▸ hu)
    rw [hsu.unblocked, hsu.mayRun hclock.1 hclock.2]
    exact ⟨id, id⟩

end handles

section sync
variable {y : Sync.State} {t u : ThreadId}

theorem trySatisfy_thread (hu : u ≠ t) : ((y.trySatisfy t).getD y).thread u = y.thread u := by
  cases htry : y.trySatisfy t with
  | none => rfl
  | some y' =>
    obtain ⟨th, w, l, -, -, rfl⟩ := Sync.State.trySatisfy_eq_some.mp htry
    exact Function.update_of_ne hu _ _

theorem beginWait_thread (hu : u ≠ t) (w : Wait) : (y.beginWait t w).thread u = y.thread u := by
  unfold Sync.State.beginWait
  cases hth : y.thread t with
  | none => rfl
  | some th =>
    simp only
    rw [trySatisfy_thread hu]
    exact Function.update_of_ne hu _ _

theorem wakeOne_thread (hu : u ≠ t) (a : Addr) : (y.wakeOne a t).thread u = y.thread u := by
  unfold Sync.State.wakeOne
  split
  · exact trySatisfy_thread hu
  · rfl

theorem wakeOne_of_not_released {a : Addr} (h : (y.waitingOn t a && (y.trySatisfy t).isSome) = false) :
    y.wakeOne a t = y := by
  unfold Sync.State.wakeOne
  split
  · rename_i hwait
    rw [hwait, Bool.true_and, Option.isSome_eq_false_iff, Option.isNone_iff_eq_none] at h
    rw [h]
    rfl
  · rfl

theorem not_waitingOn {a : Addr} (h : (y.thread t).bind Sync.Thread.wait = none) : y.waitingOn t a = false := by
  unfold Sync.State.waitingOn
  cases hth : y.thread t with
  | none => rfl
  | some th =>
    rw [hth] at h
    have hnone : th.wait = none := h
    simp only [hnone]
    rfl

end sync

section handlers
variable {s : State} {c : CpuId} {t : ThreadId}

theorem Handles.of_owes {s' : State} (hsched : s'.sched = s.sched) (hholder : s'.holder = s.holder)
    (hdeadline : s'.deadline = s.deadline) (hnotified : s'.notified = s.notified) (hunsaid : s'.unsaid = s.unsaid)
    (hhost : s'.host = s.host) (hsleep : s'.sleepUntil = s.sleepUntil) {call : Call}
    (hcall : s'.call = Function.update s.call c call) (howes : call.owes = true)
    (hfresh : ∀ t, s.sched.enqueued t = false → s.started t = false ∧ s.wait t = none →
      s'.started t = false ∧ s'.wait t = none) : Handles s s' c where
  sched := hsched
  holder := hholder
  deadline := hdeadline
  notified := hnotified
  unsaid := hunsaid
  host := hhost
  calls d hd := by rw [hcall, Function.update_of_ne hd]
  owes _ := by rw [hcall, Function.update_self, howes]
  fresh := hfresh
  sleepUntil u _ := congrFun hsleep u
  told := Or.inl (by rw [hcall, Function.update_self, howes])

theorem handles_setCall {call : Call} (howes : (s.call c).owes = true → call.owes = true) :
    Handles s (s.setCall c call) c where
  sched := rfl
  holder := rfl
  deadline := rfl
  notified := rfl
  unsaid := rfl
  host := rfl
  calls d hd := Function.update_of_ne hd _ _
  owes ho := by
    show (Function.update s.call c call c).owes = true
    rw [Function.update_self]
    exact howes ho
  fresh _ _ hf := hf
  sleepUntil _ _ := rfl
  told := Or.inr fun _ _ => ⟨id, id⟩

theorem walk_handles {s' : State} (h : s.walk c = some s') : Handles s s' c := by
  unfold State.walk at h
  split at h
  · rename_i a released hcall
    obtain rfl := Option.some.inj h
    refine handles_setCall fun ho => ?_
    rw [hcall] at ho
    rw [show released = true from ho]
    rfl
  · rename_i a t rest released hcall
    obtain rfl := Option.some.inj h
    cases hrel : (s.sync.waitingOn t a && (s.sync.trySatisfy t).isSome) with
    | false =>
      rw [Bool.or_false, wakeOne_of_not_released hrel]
      refine handles_setCall (s := s) fun ho => ?_
      rw [hcall] at ho
      exact ho
    | true =>
      rw [Bool.or_true]
      refine Handles.of_owes rfl rfl rfl rfl rfl rfl rfl rfl rfl fun u hu hf => ⟨hf.1, ?_⟩
      have hut : u ≠ t := by
        rintro rfl
        rw [not_waitingOn hf.2] at hrel
        cases hrel
      show ((s.sync.wakeOne a t).thread u).bind _ = none
      rw [wakeOne_thread hut]
      exact hf.2
  · cases h

theorem beginWait_handles (h : Inv s) (hc : s.caller c = some t) (w : Wait) : Handles s (s.beginWait t w) c := by
  obtain ⟨-, haway, henq⟩ := h.caller_away hc
  refine Handles.of_same rfl rfl rfl rfl rfl rfl ⟨rfl, rfl⟩ haway henq fun u hu => ⟨rfl, ?_, rfl, ?_⟩
  · show ((s.sync.beginWait t w).thread u).bind _ = _
    rw [beginWait_thread hu]
    rfl
  · exact Function.update_of_ne hu _ _

/-- `alert` changes the thread it is aimed at, and no wait but one for an alert. -/
theorem alert_eq (s : State) (t : ThreadId) : ∃ sync alerted, s.alert t = { s with sync, alerted } ∧
    (∀ u, u ≠ t → sync.thread u = s.sync.thread u) ∧ (s.awaitsAlert t = false → sync = s.sync) := by
  unfold State.alert State.awaitsAlert State.wait
  cases hth : s.sync.thread t with
  | none => exact ⟨_, _, rfl, fun _ _ => rfl, fun _ => rfl⟩
  | some th =>
    rw [Option.bind_some]
    cases hw : th.wait with
    | none =>
      simp only [hw]
      exact ⟨_, _, rfl, fun _ _ => rfl, fun _ => rfl⟩
    | some w =>
      simp only [hw]
      split
      · rename_i hends
        exact ⟨_, _, rfl, fun u hu => Function.update_of_ne hu _ _,
          fun hno => absurd (hno.symm.trans hends) (by decide)⟩
      · exact ⟨_, _, rfl, fun _ _ => rfl, fun _ => rfl⟩

theorem alert_handles (hok : Ok s (.alert c t)) : Handles s (s.alert t) c := by
  obtain ⟨sync, alerted, heq, hother, hkept⟩ := alert_eq s t
  have hsame : ∀ u, u ≠ t ∨ s.awaitsAlert t = false → Same s (s.alert t) u := by
    intro u hu
    rw [heq]
    have hthread : sync.thread u = s.sync.thread u := by
      rcases hu with hne | hno
      · exact hother u hne
      · rw [hkept hno]
    refine ⟨rfl, ?_, rfl, rfl⟩
    show (sync.thread u).bind _ = _
    rw [hthread]
    rfl
  have hclock : (s.alert t).host = s.host ∧ (s.alert t).system = s.system := by
    rw [heq]
    exact ⟨rfl, rfl⟩
  have hcount : (s.alert t).suspendCount t = s.suspendCount t := by rw [heq]
  refine ⟨by rw [heq], by rw [heq], by rw [heq], by rw [heq], by rw [heq], hclock.1, fun d _ => by rw [heq],
    fun ho => by rwa [heq], fun u _ hf => ?_, fun u _ => by rw [heq], Or.inr fun u hu => ?_⟩
  · have hno : u ≠ t ∨ s.awaitsAlert t = false := by
      refine or_iff_not_imp_left.mpr fun hut => ?_
      rw [← not_not.mp hut]
      unfold State.awaitsAlert
      rw [hf.2]
    rw [(hsame u hno).started, (hsame u hno).wait]
    exact hf
  · by_cases hno : u ≠ t ∨ s.awaitsAlert t = false
    · rw [(hsame u hno).unblocked, (hsame u hno).mayRun hclock.1 hclock.2]
      exact ⟨id, id⟩
    · -- the wait is over, and nobody is told
      obtain ⟨hut, hawait⟩ := not_or.mp hno
      obtain rfl := not_not.mp hut
      have hmay : s.suspendCount u = 0 → s.mayRun u = true := fun hz => hok hu hz (by simpa using hawait)
      have hzero : (s.alert u).unblocked u = true → s.mayRun u = true := by
        intro hun
        refine hmay ?_
        have := (Bool.and_eq_true _ _ ▸ hun : _ ∧ _).1
        rw [hcount] at this
        exact beq_iff_eq.mp this
      exact ⟨fun hun => unblocked_of_mayRun (hzero hun), fun hm => hzero (unblocked_of_mayRun hm)⟩

theorem suspend_handles (hok : Ok s (.suspend c t)) : Handles s (s.suspend t) c := by
  refine ⟨rfl, rfl, rfl, rfl, rfl, rfl, fun _ _ => rfl, id, fun _ _ hf => hf, fun _ _ => rfl, Or.inr fun u hu => ?_⟩
  by_cases hut : u = t
  · subst hut
    have hno : (s.suspend u).unblocked u = false := by
      unfold State.unblocked
      cases hz : (s.suspend u).suspendCount u == 0 with
      | false => rfl
      | true =>
        have hwrap : (s.suspendCount u + 1) % 2 ^ 32 = 0 := by
          rw [← beq_iff_eq.mp hz]
          exact (Function.update_self u _ s.suspendCount).symm
        exact hok hu hwrap
    refine ⟨fun hun => ?_, fun hm => ?_⟩
    · rw [hno] at hun
      cases hun
    · rw [unblocked_of_mayRun hm] at hno
      cases hno
  · have hsame : Same s (s.suspend t) u := ⟨Function.update_of_ne hut _ _, rfl, rfl, rfl⟩
    rw [hsame.unblocked, hsame.mayRun rfl rfl]
    exact ⟨id, id⟩

theorem resume_handles (s : State) (c : CpuId) (t : ThreadId) : Handles s (s.resume c t) c := by
  unfold State.resume
  by_cases hone : s.suspendCount t = 1
  · rw [if_pos hone]
    exact Handles.of_owes rfl rfl rfl rfl rfl rfl rfl rfl rfl fun _ _ hf => hf
  · rw [if_neg hone]
    refine ⟨rfl, rfl, rfl, rfl, rfl, rfl, fun _ _ => rfl, id, fun _ _ hf => hf, fun _ _ => rfl, Or.inr fun u _ => ?_⟩
    have hzero : (s.suspendCount t - 1 == 0) = (s.suspendCount t == 0) := by
      rw [Bool.eq_iff_iff, beq_iff_eq, beq_iff_eq]
      omega
    have hcount : (Function.update s.suspendCount t (s.suspendCount t - 1) u == 0) = (s.suspendCount u == 0) := by
      by_cases hut : u = t
      · rw [hut, Function.update_self, hzero]
      · rw [Function.update_of_ne hut]
    unfold State.unblocked State.mayRun State.stirs
    simp only [hcount]
    exact ⟨id, id⟩

theorem start_handles (henq : s.sched.enqueued t = true) : Handles s (s.start c t) c := by
  refine Handles.of_owes rfl rfl rfl rfl rfl rfl rfl rfl rfl fun u hu hf => ⟨?_, hf.2⟩
  have hut : u ≠ t := by
    rintro rfl
    rw [henq] at hu
    cases hu
  show Function.update s.started t true u = false
  rw [Function.update_of_ne hut]
  exact hf.1

end handlers

end Kernemul.Notify
