import Kernemul.Kernel.Scheduler

/-!
# Nobody waits for ever

A thread is put behind those that are queued, and a cpu that looks at the queue takes the first that answers
`is_ready`. So a thread that answers it every time waits for no more looks than there are threads before it.
-/

namespace Kernemul.Sched

/-! ## Places in a queue -/

theorem idxOf_eraseP {l : List ThreadId} {ready : ThreadId → Bool} {t u : ThreadId} (ht : ready t = true)
    (hfind : l.find? ready = some u) (hne : u ≠ t) (hmem : t ∈ l) :
    (l.eraseP ready).idxOf t + 1 = l.idxOf t := by
  induction l with
  | nil => cases hmem
  | cons a l ih =>
    by_cases ha : ready a = true
    · have hau : a = u := by simpa [ha] using hfind
      rw [List.eraseP_cons_of_pos ha, List.idxOf_cons_ne l (hau ▸ hne)]
    · have hat : a ≠ t := fun hat => ha (hat ▸ ht)
      rw [List.eraseP_cons_of_neg ha, List.idxOf_cons_ne _ hat, List.idxOf_cons_ne l hat]
      rw [List.find?_cons_of_neg ha] at hfind
      exact congrArg Nat.succ (ih hfind ((List.mem_cons.mp hmem).resolve_left hat.symm))

theorem idxOf_filter_le {l : List ThreadId} {p : ThreadId → Bool} {t : ThreadId} (ht : p t = true) :
    (l.filter p).idxOf t ≤ l.idxOf t := by
  induction l with
  | nil => exact Nat.le_refl _
  | cons a l ih =>
    by_cases hat : a = t
    · rw [hat, List.filter_cons_of_pos ht, List.idxOf_cons_self]
      exact Nat.zero_le _
    · rw [List.idxOf_cons_ne l hat]
      by_cases ha : p a = true
      · rw [List.filter_cons_of_pos ha, List.idxOf_cons_ne _ hat]
        exact Nat.succ_le_succ ih
      · rw [List.filter_cons_of_neg ha]
        exact Nat.le_succ_of_le ih

/-! ## One step -/

def Event.looks : Event → Bool
  | .schedule _ _ => true
  | .lookAgain _ _ => true
  | _ => false

/-- The thread that a second section of `terminate_thread` takes off the queue. -/
def Event.removes (s : State) : Event → Option ThreadId
  | .terminateRemove c =>
    match s.phase c with
    | .running _ pending => pending
    | _ => none
  | .endRemove c =>
    match s.phase c with
    | .removing id => some id
    | _ => none
  | _ => none

/-- The thread is ready whenever it is asked, and neither it nor the scheduler is ended. -/
structure Waits (t : ThreadId) (s : State) (e : Event) : Prop where
  ready : ∀ c answers, e = .schedule c answers ∨ e = .lookAgain c answers → answers t = true
  lives : e.removes s ≠ some t
  runs : e ≠ .stop

def Picked (t : ThreadId) (s : State) : Prop := ∃ c, s.phase c = .resuming t

structure Queued (t : ThreadId) (n : Nat) (s : State) : Prop where
  mem : t ∈ s.queue
  ahead : s.queue.idxOf t ≤ n
  runs : s.stopped = false

variable {t : ThreadId} {n : Nat} {s s' : State}

theorem Queued.look (h : Queued t n s) (c : CpuId) {answers : ThreadId → Bool} (ht : answers t = true) :
    Picked t (s.look c answers) ∨ ∃ k, n = k + 1 ∧ Queued t k (s.look c answers) := by
  have hleft : s.nothingLeft = false := by
    unfold State.nothingLeft
    rw [List.isEmpty_eq_false_iff.mpr (List.ne_nil_of_mem h.mem), Bool.false_and]
  have hsome : (s.queue.find? answers).isSome := List.find?_isSome.mpr ⟨t, h.mem, ht⟩
  obtain ⟨u, hu⟩ := Option.isSome_iff_exists.mp hsome
  unfold State.look
  rw [h.runs, hleft, Bool.or_self, if_neg Bool.false_ne_true, hu]
  dsimp only
  by_cases hut : u = t
  · exact .inl ⟨c, by rw [hut]; exact Function.update_self ..⟩
  · have hplace := idxOf_eraseP ht hu hut h.mem
    have hahead := h.ahead
    refine .inr ⟨n - 1, by omega, ?_, ?_, rfl⟩
    · show t ∈ s.queue.eraseP answers
      rw [eraseP_of_find? hu]
      exact (List.mem_erase_of_ne (Ne.symm hut)).mpr h.mem
    · show (s.queue.eraseP answers).idxOf t ≤ n - 1
      omega

theorem Queued.append (h : Queued t n s) (u : ThreadId) (hqueue : s'.queue = s.queue ++ [u])
    (hstop : s'.stopped = s.stopped) : Queued t n s' where
  mem := hqueue ▸ List.mem_append_left _ h.mem
  ahead := by
    rw [hqueue, List.idxOf_append_of_mem h.mem]
    exact h.ahead
  runs := hstop.trans h.runs

theorem Queued.remove (h : Queued t n s) {id : ThreadId} (hne : id ≠ t) : Queued t n (s.remove id) := by
  have hstays : (t != id) = true := bne_iff_ne.mpr hne.symm
  have hle : (s.remove id).queue.idxOf t ≤ s.queue.idxOf t := idxOf_filter_le (p := fun u => u != id) hstays
  exact ⟨List.mem_filter.mpr ⟨h.mem, hstays⟩, Nat.le_trans hle h.ahead, h.runs⟩

theorem Queued.of_eq (h : Queued t n s) (hqueue : s'.queue = s.queue) (hstop : s'.stopped = s.stopped) :
    Queued t n s' := ⟨hqueue ▸ h.mem, hqueue ▸ h.ahead, hstop.trans h.runs⟩

/-- Each look brings the thread to a cpu or one place further, and nothing brings it back. -/
theorem Queued.step {e : Event} (h : Queued t n s) (hok : Waits t s e) (hstep : step s e = some s') :
    Picked t s' ∨ ∃ k, n = k + e.looks.toNat ∧ Queued t k s' := by
  have hstays : e.looks = false → Queued t n s' → Picked t s' ∨ ∃ k, n = k + e.looks.toNat ∧ Queued t k s' :=
    fun hlooks hq => .inr ⟨n, by rw [hlooks]; rfl, hq⟩
  cases stepped_of_step hstep with
  | register u => exact hstays rfl (h.of_eq rfl rfl)
  | enqueue u hnew => exact hstays rfl (h.append u rfl rfl)
  | preempt mayRun => exact hstays rfl (h.of_eq rfl rfl)
  | stop => exact absurd rfl hok.runs
  | @schedule c prev answers hc hp =>
    have ht := hok.ready c answers (.inl rfl)
    cases prev with
    | none => exact h.look c ht
    | some u =>
      have hback : Queued t n { s.setThread c none with queue := s.queue ++ [u] } := h.append u rfl rfl
      exact hback.look c ht
  | @lookAgain c answers hc hp => exact h.look c (hok.ready c answers (.inr rfl))
  | resume hc hp => exact hstays rfl (h.of_eq rfl rfl)
  | finish hc hp => exact hstays rfl (h.of_eq rfl rfl)
  | terminate hc hp hne hfound => exact hstays rfl (h.of_eq rfl rfl)
  | terminateGone hc hp hne hgone => exact hstays rfl (h.of_eq rfl rfl)
  | @terminateRemove c u id hc hp =>
    have hne : id ≠ t := fun hid => hok.lives (by simp [Event.removes, hp, hid])
    exact hstays rfl ((h.remove hne).of_eq rfl rfl)
  | runReturns hc hp hfin => exact hstays rfl (h.of_eq rfl rfl)
  | runEnds hc hp hfin => exact hstays rfl (h.of_eq rfl rfl)
  | release hc hp => exact hstays rfl (h.of_eq rfl rfl)
  | leave hc hp => exact hstays rfl (h.of_eq rfl rfl)
  | endThread hc hp hfound => exact hstays rfl (h.of_eq rfl rfl)
  | endGone hc hp hgone => exact hstays rfl (h.of_eq rfl rfl)
  | @endRemove c id hc hp =>
    have hne : id ≠ t := fun hid => hok.lives (by simp [Event.removes, hp, hid])
    exact hstays rfl ((h.remove hne).of_eq rfl rfl)

/-! ## Runs -/

/-- Either the thread was taken, at the latest by the look after as many as were queued before it, or there were no
more looks than threads before it, each of which took one of these. -/
theorem Queued.run {events : List Event} (h : Queued t n s) (hrun : Run.Steps Sched.step (Waits t) s events s') :
    (∃ pre post s₁, events = pre ++ post ∧ Run.Steps Sched.step (Waits t) s pre s₁ ∧ Picked t s₁ ∧
      pre.countP Event.looks ≤ n + 1) ∨
    ∃ k, n = k + events.countP Event.looks ∧ Queued t k s' := by
  induction hrun generalizing n with
  | nil s => exact .inr ⟨n, rfl, h⟩
  | @cons s s₁ s₂ e events hok hstep rest ih =>
    have hlooks : e.looks.toNat ≤ 1 := Bool.toNat_le e.looks
    rcases h.step hok hstep with hpicked | ⟨k, hk, hq⟩
    · refine .inl ⟨[e], events, s₁, rfl, .cons hok hstep (.nil _), hpicked, ?_⟩
      exact Nat.le_trans List.countP_le_length (Nat.succ_le_succ (Nat.zero_le n))
    · have hcount : ∀ es, (e :: es).countP Event.looks = es.countP Event.looks + e.looks.toNat := fun es => by
        cases he : e.looks <;> simp [he]
      rcases ih hq with ⟨pre, post, s₁', rfl, hpre, hpicked, hle⟩ | ⟨k', hk', hq'⟩
      · refine .inl ⟨e :: pre, post, s₁', rfl, .cons hok hstep hpre, hpicked, ?_⟩
        rw [hcount]
        omega
      · refine .inr ⟨k', ?_, hq'⟩
        rw [hcount]
        omega

/-- A thread that is queued and answers `is_ready` every time is taken by a cpu at the latest when
the cpus have looked at the queue once more than there were threads before it. -/
theorem bounded_waiting {events : List Event} (hqueue : t ∈ s.queue) (hruns : s.stopped = false)
    (hrun : Run.Steps Sched.step (Waits t) s events s') (hlooks : s.queue.idxOf t < events.countP Event.looks) :
    ∃ pre post s₁, events = pre ++ post ∧ Run.Steps Sched.step (Waits t) s pre s₁ ∧ Picked t s₁ ∧
      pre.countP Event.looks ≤ s.queue.idxOf t + 1 := by
  rcases Queued.run ⟨hqueue, Nat.le_refl _, hruns⟩ hrun with htaken | ⟨k, hk, -⟩
  · exact htaken
  · omega

/-- Two threads are queued, and the only cpu takes the one and then the other. -/
def turns : List Event :=
  [.schedule 0 fun _ => true, .resume 0, .runReturns 0, .schedule 0 fun _ => true]

def Event.leaves : Event → Bool
  | .schedule _ answers => answers 8
  | .lookAgain _ answers => answers 8
  | .resume _ => true
  | .runReturns _ => true
  | _ => false

theorem waits_of_leaves {s : State} {e : Event} (h : e.leaves = true) : Waits 8 s e where
  ready c answers he := by
    rcases he with rfl | rfl
    · exact h
    · exact h
  lives hid := by
    cases e with
    | schedule c answers => cases hid
    | lookAgain c answers => cases hid
    | resume c => cases hid
    | runReturns c => cases hid
    | _ => cases h
  runs he := by
    rw [he] at h
    cases h

theorem bounded_waiting_turns : ∃ pre post s₁, turns = pre ++ post ∧
    Run.Steps step (Waits 8) { cpus := [0], queue := [7, 8] } pre s₁ ∧ Picked 8 s₁ ∧
      pre.countP Event.looks ≤ 2 :=
  bounded_waiting (s := { cpus := [0], queue := [7, 8] }) (by decide) rfl
    (Run.Steps.of_exec (fun _ _ => waits_of_leaves) rfl) (by decide)

end Kernemul.Sched
