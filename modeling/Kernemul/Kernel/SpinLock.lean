import Kernemul.Kernel.Irql

/-!
# Spin locks (the lock handlers of `nt_irql_ops`)

A lock handler moves the IRQL and never looks at the lock: an acquire returns at once, whoever holds the lock.
That another cpu runs, or that the holder is preempted before it has released, is nothing the handlers know
of. So the threads exclude each other as far as the guest never contends: on one cpu, when no thread is
switched out with a lock held, or whenever no acquire is called for a lock that another thread holds.

`exclusive` and `shared` are not in the source: the threads that have acquired a lock and not released it yet,
once for each time.
-/

namespace Kernemul.SpinLock

open Sched (ThreadId CpuId Phase Placed)
open Irql (Handler)

structure State where
  irql : Irql.State
  exclusive : Nat → List ThreadId := fun _ => []
  shared : Nat → List ThreadId := fun _ => []

inductive Mode
  | exclusive
  | shared
  deriving DecidableEq, Repr

def acquires : Handler → Option (Nat × Mode)
  | .keAcquireSpinLockRaiseToDpc lock => some (lock, .exclusive)
  | .keAcquireSpinLockAtDpcLevel lock => some (lock, .exclusive)
  | .exAcquireSpinLockExclusive lock => some (lock, .exclusive)
  | .exAcquireSpinLockExclusiveAtDpcLevel lock => some (lock, .exclusive)
  | .exAcquireSpinLockShared lock => some (lock, .shared)
  | _ => none

def releases : Handler → Option (Nat × Mode)
  | .keReleaseSpinLock lock _ => some (lock, .exclusive)
  | .keReleaseSpinLockFromDpcLevel lock => some (lock, .exclusive)
  | .exReleaseSpinLockExclusive lock _ => some (lock, .exclusive)
  | .exReleaseSpinLockExclusiveFromDpcLevel lock => some (lock, .exclusive)
  | .exReleaseSpinLockShared lock _ => some (lock, .shared)
  | _ => none

def State.holders (s : State) (lock : Nat) : Mode → List ThreadId
  | .exclusive => s.exclusive lock
  | .shared => s.shared lock

def State.setHolders (s : State) (lock : Nat) (mode : Mode) (ts : List ThreadId) : State :=
  match mode with
  | .exclusive => { s with exclusive := Function.update s.exclusive lock ts }
  | .shared => { s with shared := Function.update s.shared lock ts }

def State.returned (s : State) (self : ThreadId) (h : Handler) : State :=
  match acquires h with
  | some (lock, mode) => s.setHolders lock mode (self :: s.holders lock mode)
  | none =>
    match releases h with
    | some (lock, mode) => s.setHolders lock mode ((s.holders lock mode).erase self)
    | none => s

def State.marks (s : State) : Irql.Event → State
  | .call c h =>
    match s.irql.sched.caller c with
    | some self => s.returned self h
    | none => s
  | _ => s

def step (s : State) (e : Irql.Event) : Option State :=
  (Irql.step s.irql e).map fun irql => { s.marks e with irql := irql }

def Excludes (s : State) : Prop :=
  ∀ lock t u mode, t ∈ s.exclusive lock → u ∈ s.holders lock mode → t = u

/-- Before any cpu is in `run`. -/
def start (cpus : List CpuId) : State := { irql := Irql.start cpus }

/-- Thread `7` acquires the lock on the only cpu and is preempted; then thread `8` acquires it. -/
def acquiredTwice : List Irql.Event :=
  [.sched (.enqueue 7), .sched (.enqueue 8), .sched (.schedule 0 fun _ => true), .sched (.resume 0),
    .call 0 (.keAcquireSpinLockRaiseToDpc 0x1000), .sched (.runReturns 0),
    .sched (.schedule 0 fun _ => true), .sched (.resume 0),
    .call 0 (.keAcquireSpinLockRaiseToDpc 0x1000)]

theorem acquiredTwice_not_excludes : ¬ ∀ cpus events s, Run.Steps step (fun _ _ => True) (start cpus) events s →
    Excludes s := by
  intro hall
  have hexec : (Run.exec step (fun _ _ => true) (start [0]) acquiredTwice).map
      (fun s => s.exclusive 0x1000) = some [8, 7] := by decide +kernel
  obtain ⟨s, hs, hheld⟩ := Option.map_eq_some_iff.mp hexec
  have hexcludes := hall _ _ s (Run.Steps.of_exec (fun _ _ _ => trivial) hs) 0x1000 7 8 .exclusive
    (by simp [hheld]) (by simp [State.holders, hheld])
  simp at hexcludes

/-! ## When nobody contends -/

/-- An acquire is called while no other thread, on a cpu or preempted, holds the lock in a way that excludes
it. -/
def Uncontended (s : State) : Irql.Event → Prop
  | .call c h => ∀ self lock mode, s.irql.sched.caller c = some self → acquires h = some (lock, mode) →
      (∀ t ∈ s.exclusive lock, t = self) ∧ (mode = .exclusive → ∀ t ∈ s.shared lock, t = self)
  | _ => True

variable {s : State}

theorem mem_setHolders {lock l : Nat} {mode m : Mode} {ts : List ThreadId} {t : ThreadId}
    (h : t ∈ (s.setHolders lock mode ts).holders l m) :
    (l = lock ∧ m = mode ∧ t ∈ ts) ∨ t ∈ s.holders l m := by
  by_cases hl : l = lock
  · subst hl
    cases mode <;> cases m
    · exact .inl ⟨rfl, rfl, by simpa [State.setHolders, State.holders] using h⟩
    · exact .inr h
    · exact .inr h
    · exact .inl ⟨rfl, rfl, by simpa [State.setHolders, State.holders] using h⟩
  · refine .inr ?_
    cases mode <;> cases m <;> simpa [State.setHolders, State.holders, hl] using h

theorem mem_returned {self : ThreadId} {h : Handler} {l : Nat} {m : Mode} {t : ThreadId}
    (ht : t ∈ (s.returned self h).holders l m) :
    t ∈ s.holders l m ∨ (t = self ∧ acquires h = some (l, m)) := by
  unfold State.returned at ht
  split at ht
  · rename_i lock mode hacq
    obtain ⟨rfl, rfl, hmem⟩ | hold := mem_setHolders ht
    · obtain rfl | hold := List.mem_cons.mp hmem
      · exact .inr ⟨rfl, hacq⟩
      · exact .inl hold
    · exact .inl hold
  · split at ht
    · obtain ⟨rfl, rfl, hmem⟩ | hold := mem_setHolders ht
      · exact .inl (List.mem_of_mem_erase hmem)
      · exact .inl hold
    · exact .inl ht

variable {e : Irql.Event}

theorem mem_marks {l : Nat} {m : Mode} {t : ThreadId} (ht : t ∈ (s.marks e).holders l m) :
    t ∈ s.holders l m ∨
      ∃ c h, e = .call c h ∧ s.irql.sched.caller c = some t ∧ acquires h = some (l, m) := by
  unfold State.marks at ht
  split at ht
  · rename_i c h
    split at ht
    · rename_i self hself
      obtain hold | ⟨rfl, hacq⟩ := mem_returned ht
      · exact .inl hold
      · exact .inr ⟨c, h, rfl, hself, hacq⟩
    · exact .inl ht
  · exact .inl ht

theorem Excludes.step {s' : State} (h : Excludes s) (hok : Uncontended s e)
    (hstep : step s e = some s') : Excludes s' := by
  obtain ⟨irql, -, rfl⟩ := Option.map_eq_some_iff.mp hstep
  intro lock t u mode ht hu
  have ht' : t ∈ (s.marks e).holders lock .exclusive := ht
  obtain hold | ⟨c, call, rfl, hself, hacq⟩ := mem_marks ht'
  · obtain huold | ⟨c, call, rfl, huself, huacq⟩ := mem_marks hu
    · exact h lock t u mode hold huold
    · exact (hok u lock mode huself huacq).1 t hold
  · obtain ⟨hexclusive, hshared⟩ := hok t lock .exclusive hself hacq
    obtain huold | ⟨d, call', he, huself, -⟩ := mem_marks hu
    · cases mode with
      | exclusive => exact (hexclusive u huold).symm
      | shared => exact (hshared rfl u huold).symm
    · cases he
      exact Option.some.inj (hself.symm.trans huself)

/-- **Spin locks exclude** in every run in which no lock is contended. -/
theorem excludes_of_uncontended {cpus : List CpuId} {events : List Irql.Event} {s : State}
    (hrun : Run.Steps step Uncontended (start cpus) events s) : Excludes s :=
  hrun.invariant (fun _ _ _ h hok hstep => h.step hok hstep) (by simp [Excludes, start])

def uncontendedCheck (s : State) : Irql.Event → Bool
  | .call c h =>
    match s.irql.sched.caller c, acquires h with
    | some self, some (lock, mode) => (s.exclusive lock).all (· == self) &&
        (mode == .shared || (s.shared lock).all (· == self))
    | _, _ => true
  | _ => true

theorem uncontended_of_check (h : uncontendedCheck s e = true) :
    Uncontended s e := by
  cases e with
  | call c handler =>
    intro self lock mode hself hacq
    simp only [uncontendedCheck, hself, hacq, Bool.and_eq_true, List.all_eq_true, beq_iff_eq,
      Bool.or_eq_true] at h
    refine ⟨h.1, fun hmode => ?_⟩
    exact h.2.resolve_left (by simp [hmode])
  | _ => trivial

/-- Two threads on two cpus hold the lock one after the other, and then both share it. -/
def takesTurns : List Irql.Event :=
  [.sched (.enqueue 7), .sched (.enqueue 8), .sched (.schedule 0 fun _ => true),
    .sched (.schedule 1 fun _ => true), .sched (.resume 0), .sched (.resume 1),
    .call 0 (.exAcquireSpinLockExclusive 0x1000), .call 0 (.exReleaseSpinLockExclusive 0x1000 0),
    .call 1 (.exAcquireSpinLockShared 0x1000), .call 0 (.exAcquireSpinLockShared 0x1000),
    .call 0 (.exAcquireSpinLockExclusive 0x2000)]

theorem excludes_takesTurns : ∃ s, Run.Steps step Uncontended (start [0, 1]) takesTurns s ∧
    s.shared 0x1000 = [7, 8] ∧ s.exclusive 0x2000 = [7] ∧ Excludes s := by
  have hexec : (Run.exec step uncontendedCheck (start [0, 1]) takesTurns).map
      (fun s => (s.shared 0x1000, s.exclusive 0x2000)) = some ([7, 8], [7]) := by decide +kernel
  obtain ⟨s, hs, hfacts⟩ := Option.map_eq_some_iff.mp hexec
  obtain ⟨hshared, hexclusive⟩ : s.shared 0x1000 = [7, 8] ∧ s.exclusive 0x2000 = [7] := by
    simpa using hfacts
  have hrun : Run.Steps step Uncontended (start [0, 1]) takesTurns s :=
    Run.Steps.of_exec (fun _ _ => uncontended_of_check) hs
  exact ⟨s, hrun, hshared, hexclusive, excludes_of_uncontended hrun⟩

/-! ## One cpu without preemption -/

def HeldToEnd (s : State) : Irql.Event → Prop
  | .sched (.runReturns c) => ∀ t lock mode, s.irql.sched.phase c = .running t none →
      t ∉ s.holders lock mode
  | _ => True

structure HoldersRun (s : State) : Prop where
  placed : Placed s.irql.sched
  running : ∀ t lock mode, t ∈ s.holders lock mode →
    ∃ c pending, s.irql.sched.phase c = .running t pending

theorem irql_step_sched {s s' : Irql.State} (hstep : Irql.step s e = some s') :
    s'.sched = s.sched ∨ ∃ e₀, e = .sched e₀ ∧ Sched.step s.sched e₀ = some s'.sched := by
  cases e with
  | sched e₀ =>
    obtain ⟨sched, hsched, rfl⟩ := Option.map_eq_some_iff.mp hstep
    exact .inr ⟨e₀, rfl, hsched⟩
  | call c h =>
    obtain ⟨self, -, rfl⟩ := Option.map_eq_some_iff.mp hstep
    unfold Handler.run
    split <;> exact .inl rfl
  | setIrql c new =>
    obtain ⟨self, -, rfl⟩ := Option.map_eq_some_iff.mp hstep
    exact .inl rfl

theorem HoldersRun.step {s' : State} (h : HoldersRun s) (hok : HeldToEnd s e)
    (hstep : step s e = some s') : HoldersRun s' := by
  obtain ⟨irql, hirql, rfl⟩ := Option.map_eq_some_iff.mp hstep
  obtain hsame | ⟨e₀, rfl, hsched⟩ := irql_step_sched hirql
  · refine ⟨hsame ▸ h.placed, fun t lock mode ht => ?_⟩
    show ∃ c pending, irql.sched.phase c = .running t pending
    rw [hsame]
    obtain hold | ⟨c, call, -, hself, -⟩ := mem_marks (s := s) ht
    · exact h.running t lock mode hold
    · exact ⟨c, none, Sched.caller_eq_some hself⟩
  · refine ⟨h.placed.step hsched, fun t lock mode ht => ?_⟩
    obtain ⟨c, pending, hp⟩ := h.running t lock mode ht
    obtain ⟨pending', hp'⟩ | rfl := Sched.running_step hsched hp
    · exact ⟨c, pending', hp'⟩
    · obtain ⟨u, hu⟩ := Sched.runReturns_phase hsched
      have hnone : s.irql.sched.phase c = .running t none := by
        rw [hp] at hu
        cases hu
        exact hp
      exact absurd ht (hok t lock mode hnone)

theorem cpus_step {s' : State} (hstep : step s e = some s') :
    s'.irql.sched.cpus = s.irql.sched.cpus := by
  obtain ⟨irql, hirql, rfl⟩ := Option.map_eq_some_iff.mp hstep
  obtain hsame | ⟨e₀, -, hsched⟩ := irql_step_sched hirql
  · exact congrArg Sched.State.cpus hsame
  · exact Sched.cpus_step hsched

theorem HoldersRun.uncontended (h : HoldersRun s) {c : CpuId} (hcpus : s.irql.sched.cpus = [c])
    (e : Irql.Event) : Uncontended s e := by
  have halone : ∀ {self t : ThreadId} {d : CpuId} {lock : Nat} {mode : Mode},
      s.irql.sched.caller d = some self → t ∈ s.holders lock mode → t = self := by
    intro self t d lock mode hself ht
    obtain ⟨d', pending, hp⟩ := h.running t lock mode ht
    have hcur : s.irql.sched.current d' = some t := (h.placed.held d').trans (by rw [hp]; rfl)
    have hcurself : s.irql.sched.current d = some self :=
      (h.placed.held d).trans (by rw [Sched.caller_eq_some hself]; rfl)
    have hd' : d' = c := by simpa [hcpus] using h.placed.ofMachine d' t hcur
    have hd : d = c := by simpa [hcpus] using h.placed.ofMachine d self hcurself
    rw [hd'] at hcur
    rw [hd, hcur] at hcurself
    exact Option.some.inj hcurself
  cases e with
  | call d call =>
    intro self lock mode hself _
    exact ⟨fun t ht => halone hself (show t ∈ s.holders lock .exclusive from ht),
      fun _ t ht => halone hself (show t ∈ s.holders lock .shared from ht)⟩
  | _ => trivial

/-- **One cpu without preemption excludes**: when no thread is switched out with a lock held, the only cpu
never calls an acquire of a lock that another thread holds. -/
theorem excludes_of_heldToEnd {c : CpuId} {events : List Irql.Event}
    (hrun : Run.Steps step HeldToEnd (start [c]) events s) : Excludes s := by
  have hinv : (HoldersRun s ∧ s.irql.sched.cpus = [c]) ∧ Excludes s := by
    refine hrun.invariant (P := fun s => (HoldersRun s ∧ s.irql.sched.cpus = [c]) ∧ Excludes s) ?_ ?_
    · rintro s e s' ⟨⟨hholders, hcpus⟩, hexcludes⟩ hok hstep
      exact ⟨⟨hholders.step hok hstep, (cpus_step hstep).trans hcpus⟩,
        hexcludes.step (hholders.uncontended hcpus e) hstep⟩
    · refine ⟨⟨⟨Sched.placed_start [c], ?_⟩, rfl⟩, by simp [Excludes, start]⟩
      intro t lock mode ht
      cases mode <;> simp [start, State.holders] at ht
  exact hinv.2

end Kernemul.SpinLock
