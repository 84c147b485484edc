import Kernemul.Lib.Run

/-!
# DPCs

`KeInitializeDpc` and `KeInsertQueueDpc` of `nt_timer_ops.cpp`. A DPC that is inserted runs on a thread of its own,
which `kernel_thread_startup` ends. The insert marks the `KDPC` by its `DpcData`; nothing but another initialisation
takes the mark away.

The `KDPC` is guest memory and no lock is held over it, so reading it, writing it and making the thread are steps
of their own. `create_thread` may throw where memory runs out.
-/

namespace Kernemul.Dpc

abbrev Addr := Nat

/-- The fields of `_KDPC` that are read. -/
structure Kdpc where
  routine : Addr := 0
  context : Addr := 0
  argument1 : Addr := 0
  argument2 : Addr := 0
  data : Addr := 0
  deriving DecidableEq, Repr

/-- A call of `KeInsertQueueDpc`, told apart from others by its number. -/
structure Insert where
  call : Nat
  dpc : Addr
  argument1 : Addr
  argument2 : Addr
  deriving DecidableEq, Repr

structure Work where
  call : Nat
  routine : Addr
  dpc : Addr
  context : Addr
  argument1 : Addr
  argument2 : Addr
  deriving DecidableEq, Repr

/-- Where a caller is in `KeInsertQueueDpc`. -/
inductive Phase
  | idle
  /-- The checks are over. -/
  | read (i : Insert) (entry : Kdpc)
  | written (i : Insert) (entry : Kdpc)
  | created (i : Insert) (entry : Kdpc)
  deriving DecidableEq, Repr

/-- What a call has returned: true, with the `KDPC` as it has read it, or false, and then whether an earlier insert
had not begun. -/
inductive Return
  | queued (i : Insert) (entry : Kdpc)
  | refused (dpc : Addr) (outstanding : Bool)
  deriving DecidableEq, Repr

/-- What comes from `next` on is not in the source. `outstanding` has the inserts that have passed the checks and
not begun to run, `used` the DPCs that were marked since they were initialised. -/
structure State (Caller : Type) where
  mem : Addr → Kdpc := fun _ => {}
  phase : Caller → Phase := fun _ => .idle
  threads : List Work := []
  begun : Nat → Bool := fun _ => false
  finished : Nat → Bool := fun _ => false
  next : Nat := 0
  runs : List Work := []
  returned : List Return := []
  outstanding : List Insert := []
  used : Addr → Bool := fun _ => false

inductive Event (Caller : Type)
  | initialise (dpc routine context : Addr)
  | insert (c : Caller) (dpc argument1 argument2 : Addr)
  | write (c : Caller)
  | create (c : Caller)
  /-- `create_thread` throws. -/
  | fail (c : Caller)
  | leave (c : Caller)
  | begin (call : Nat)
  | finish (call : Nat)

def Insert.work (i : Insert) (entry : Kdpc) : Work where
  call := i.call
  routine := entry.routine
  dpc := i.dpc
  context := entry.context
  argument1 := i.argument1
  argument2 := i.argument2

section run
variable {Caller : Type} [DecidableEq Caller]

namespace State

def waits (s : State Caller) (dpc : Addr) : Bool := s.outstanding.any fun i => i.dpc == dpc

def setPhase (s : State Caller) (c : Caller) (phase : Phase) : State Caller :=
  { s with phase := Function.update s.phase c phase }

def settle (s : State Caller) (call : Nat) : State Caller :=
  { s with outstanding := s.outstanding.filter fun i => i.call ≠ call }

/-- `KeInitializeDpc`. -/
def initialise (s : State Caller) (dpc routine context : Addr) : State Caller :=
  if dpc = 0 then s
  else
    { s with
      mem := Function.update s.mem dpc { routine, context }
      used := Function.update s.used dpc false }

def refuse (s : State Caller) (dpc : Addr) : State Caller :=
  { s with returned := .refused dpc (s.waits dpc) :: s.returned }

/-- `KeInsertQueueDpc`, up to its write. -/
def insert (s : State Caller) (c : Caller) (dpc argument1 argument2 : Addr) : State Caller :=
  if dpc = 0 then s.refuse dpc
  else
    let entry := s.mem dpc
    if entry.routine = 0 then s.refuse dpc
    else if entry.data ≠ 0 then s.refuse dpc
    else
      let i : Insert := { call := s.next, dpc, argument1, argument2 }
      { s.setPhase c (.read i entry) with next := s.next + 1, outstanding := i :: s.outstanding }

/-- The write of `KeInsertQueueDpc`. -/
def write (s : State Caller) (c : Caller) (i : Insert) (entry : Kdpc) : State Caller :=
  { s.setPhase c (.written i entry) with
    mem := Function.update s.mem i.dpc
      { entry with argument1 := i.argument1, argument2 := i.argument2, data := i.dpc }
    used := Function.update s.used i.dpc true }

end State

def step (s : State Caller) : Event Caller → Option (State Caller)
  | .initialise dpc routine context => some (s.initialise dpc routine context)
  | .insert c dpc argument1 argument2 =>
    match s.phase c with
    | .idle => some (s.insert c dpc argument1 argument2)
    | _ => none
  | .write c =>
    match s.phase c with
    | .read i entry => some (s.write c i entry)
    | _ => none
  | .create c =>
    match s.phase c with
    | .written i entry => some { s.setPhase c (.created i entry) with threads := i.work entry :: s.threads }
    | _ => none
  | .fail c =>
    match s.phase c with
    | .written i _ => some ((s.setPhase c .idle).settle i.call)
    | _ => none
  | .leave c =>
    match s.phase c with
    | .created i entry => some { s.setPhase c .idle with returned := .queued i entry :: s.returned }
    | _ => none
  | .begin call =>
    match s.threads.find? fun w => w.call == call with
    | some w =>
      if s.begun call then none
      else some { s.settle call with begun := Function.update s.begun call true, runs := w :: s.runs }
    | none => none
  | .finish call =>
    if s.begun call && !s.finished call then some { s with finished := Function.update s.finished call true }
    else none

/-- Each call that returned true runs its routine once with its arguments, or can still begin to; each that returned
false found an earlier one that had not begun. -/
structure DpcOk (s : State Caller) : Prop where
  once : ∀ i entry, .queued i entry ∈ s.returned →
    s.runs.filter (fun w => w.call == i.call) = if s.begun i.call then [i.work entry] else []
  pending : ∀ i entry, .queued i entry ∈ s.returned → s.begun i.call = false → (step s (.begin i.call)).isSome
  refused : ∀ dpc outstanding, .refused dpc outstanding ∈ s.returned → outstanding = true

/-- An insert is made on a DPC that has a routine and was not marked since it was initialised, or while an earlier
insert of it has not begun to run. -/
def Ok (s : State Caller) : Event Caller → Prop
  | .insert _ dpc _ _ => s.waits dpc = true ∨ (dpc ≠ 0 ∧ (s.mem dpc).routine ≠ 0 ∧ s.used dpc = false)
  | _ => True

/-! ## The invariant -/

def Phase.insert? : Phase → Option Insert
  | .idle => none
  | .read i _ | .written i _ | .created i _ => some i

def Phase.Sound (threads : List Work) (next : Nat) : Phase → Prop
  | .idle => True
  | .read i _ | .written i _ => i.dpc ≠ 0 ∧ i.call < next ∧ ∀ w ∈ threads, w.call ≠ i.call
  | .created i entry => i.call < next ∧ i.work entry ∈ threads

def Apart (phase : Caller → Phase) : Prop :=
  ∀ c d i j, (phase c).insert? = some i → (phase d).insert? = some j → i.call = j.call → c = d

/-- The mark is there since the DPC was inserted, and an insert makes one thread, which runs once. -/
structure Inv (s : State Caller) : Prop where
  mark : ∀ dpc, (s.mem dpc).data ≠ 0 ↔ s.used dpc = true
  phases : ∀ c, (s.phase c).Sound s.threads s.next
  apart : Apart s.phase
  bound : ∀ w ∈ s.threads, w.call < s.next
  threads : s.threads.Pairwise fun w w' => w.call ≠ w'.call
  begun : ∀ call, s.begun call = true → ∃ w ∈ s.threads, w.call = call
  runs : ∀ call, s.runs.filter (fun w => w.call == call) =
    if s.begun call then s.threads.filter fun w => w.call == call else []
  queued : ∀ i entry, .queued i entry ∈ s.returned → i.work entry ∈ s.threads

omit [DecidableEq Caller] in
theorem inv_start : Inv ({} : State Caller) where
  mark _ := by simp
  phases _ := trivial
  apart := nofun
  bound _ h := by cases h
  threads := .nil
  begun _ h := by cases h
  runs _ := rfl
  queued _ _ h := by cases h

/-! ## Steps -/

omit [DecidableEq Caller] in
theorem Phase.Sound.bound {p : Phase} {threads : List Work} {next : Nat} (h : p.Sound threads next) {i : Insert}
    (hi : p.insert? = some i) : i.call < next := by
  cases p with
  | idle => cases hi
  | read j entry | written j entry =>
    obtain rfl := Option.some.inj hi
    exact h.2.1
  | created j entry =>
    obtain rfl := Option.some.inj hi
    exact h.1

theorem Phase.Sound.succ {p : Phase} {threads : List Work} {next : Nat} (h : p.Sound threads next) :
    p.Sound threads (next + 1) := by
  cases p with
  | idle => trivial
  | read j entry | written j entry => exact ⟨h.1, Nat.lt_succ_of_lt h.2.1, h.2.2⟩
  | created j entry => exact ⟨Nat.lt_succ_of_lt h.1, h.2⟩

theorem Apart.move {phase : Caller → Phase} (h : Apart phase) {c : Caller} {p : Phase}
    (hp : ∀ i, p.insert? = some i → (phase c).insert? = some i) : Apart (Function.update phase c p) := by
  have hback : ∀ d i, (Function.update phase c p d).insert? = some i → (phase d).insert? = some i := by
    intro d i hd
    by_cases hdc : d = c
    · rw [hdc, Function.update_self] at hd
      rw [hdc]
      exact hp i hd
    · rwa [Function.update_of_ne hdc] at hd
  exact fun d e i j hd he hij => h d e i j (hback d i hd) (hback e j he) hij

theorem Apart.enter {phase : Caller → Phase} (h : Apart phase) {c : Caller} {p : Phase} {i : Insert}
    (hp : p.insert? = some i) (hnew : ∀ d j, (phase d).insert? = some j → j.call ≠ i.call) :
    Apart (Function.update phase c p) := by
  intro d e j k hd he hjk
  by_cases hdc : d = c
  · by_cases hec : e = c
    · rw [hdc, hec]
    · rw [hdc, Function.update_self, hp] at hd
      rw [Function.update_of_ne hec] at he
      obtain rfl := Option.some.inj hd
      exact absurd hjk.symm (hnew e k he)
  · rw [Function.update_of_ne hdc] at hd
    by_cases hec : e = c
    · rw [hec, Function.update_self, hp] at he
      obtain rfl := Option.some.inj he
      exact absurd hjk (hnew d j hd)
    · rw [Function.update_of_ne hec] at he
      exact h d e j k hd he hjk

section steps
variable {s s' : State Caller} {c : Caller}

theorem Inv.setPhase (h : Inv s) {p : Phase} (hp : p.Sound s.threads s.next)
    (hinsert : ∀ i, p.insert? = some i → (s.phase c).insert? = some i) : Inv (s.setPhase c p) where
  mark := h.mark
  phases := (Function.forall_update_iff _ fun _ (q : Phase) => q.Sound s.threads s.next).mpr ⟨hp, fun d _ => h.phases d⟩
  apart := h.apart.move hinsert
  bound := h.bound
  threads := h.threads
  begun := h.begun
  runs := h.runs
  queued := h.queued

omit [DecidableEq Caller] in
theorem initialise_inv (h : Inv s) (dpc routine context : Addr) : Inv (s.initialise dpc routine context) := by
  unfold State.initialise
  split
  · exact h
  · refine ⟨fun a => ?_, h.phases, h.apart, h.bound, h.threads, h.begun, h.runs, h.queued⟩
    show (Function.update s.mem dpc { routine, context } a).data ≠ 0 ↔ Function.update s.used dpc false a = true
    by_cases ha : a = dpc
    · rw [ha, Function.update_self, Function.update_self]
      simp
    · rw [Function.update_of_ne ha, Function.update_of_ne ha]
      exact h.mark a

omit [DecidableEq Caller] in
theorem refuse_inv (h : Inv s) (dpc : Addr) : Inv (s.refuse dpc) := by
  refine ⟨h.mark, h.phases, h.apart, h.bound, h.threads, h.begun, h.runs, fun i entry hmem => ?_⟩
  rcases List.mem_cons.mp hmem with heq | hmem
  · cases heq
  · exact h.queued i entry hmem

theorem insert_cases (s : State Caller) (c : Caller) (dpc argument1 argument2 : Addr) :
    (s.insert c dpc argument1 argument2 = s.refuse dpc ∧
      (dpc = 0 ∨ (s.mem dpc).routine = 0 ∨ (s.mem dpc).data ≠ 0)) ∨
    (dpc ≠ 0 ∧ (s.mem dpc).routine ≠ 0 ∧ (s.mem dpc).data = 0 ∧ s.insert c dpc argument1 argument2 =
      { s.setPhase c (.read ⟨s.next, dpc, argument1, argument2⟩ (s.mem dpc)) with
        next := s.next + 1
        outstanding := ⟨s.next, dpc, argument1, argument2⟩ :: s.outstanding }) := by
  unfold State.insert
  dsimp only
  by_cases hnull : dpc = 0
  · rw [if_pos hnull]
    exact Or.inl ⟨rfl, Or.inl hnull⟩
  rw [if_neg hnull]
  by_cases hroutine : (s.mem dpc).routine = 0
  · rw [if_pos hroutine]
    exact Or.inl ⟨rfl, Or.inr (Or.inl hroutine)⟩
  rw [if_neg hroutine]
  by_cases hmark : (s.mem dpc).data ≠ 0
  · rw [if_pos hmark]
    exact Or.inl ⟨rfl, Or.inr (Or.inr hmark)⟩
  · rw [if_neg hmark]
    exact Or.inr ⟨hnull, hroutine, not_not.mp hmark, rfl⟩

theorem insert_inv (h : Inv s) (dpc argument1 argument2 : Addr) : Inv (s.insert c dpc argument1 argument2) := by
  rcases insert_cases s c dpc argument1 argument2 with ⟨heq, -⟩ | ⟨hnull, -, -, heq⟩
  · rw [heq]
    exact refuse_inv h dpc
  · rw [heq]
    refine ⟨h.mark, ?_, h.apart.enter rfl fun d j hd => Nat.ne_of_lt ((h.phases d).bound hd),
      fun w hw => Nat.lt_succ_of_lt (h.bound w hw), h.threads, h.begun, h.runs, h.queued⟩
    exact (Function.forall_update_iff _ fun _ (q : Phase) => q.Sound s.threads (s.next + 1)).mpr
      ⟨⟨hnull, Nat.lt_succ_self _, fun w hw => Nat.ne_of_lt (h.bound w hw)⟩, fun d _ => (h.phases d).succ⟩

theorem write_inv (h : Inv s) {i : Insert} {entry : Kdpc} (hc : s.phase c = .read i entry) :
    Inv (s.write c i entry) := by
  have hsound := h.phases c
  rw [hc] at hsound
  have hphase : Inv (s.setPhase c (.written i entry)) := h.setPhase hsound fun j hj => by rw [hc]; exact hj
  refine ⟨fun a => ?_, hphase.phases, hphase.apart, h.bound, h.threads, h.begun, h.runs, h.queued⟩
  show (Function.update s.mem i.dpc _ a).data ≠ 0 ↔ Function.update s.used i.dpc true a = true
  by_cases ha : a = i.dpc
  · rw [ha, Function.update_self, Function.update_self]
    exact iff_of_true hsound.1 rfl
  · rw [Function.update_of_ne ha, Function.update_of_ne ha]
    exact h.mark a

theorem create_inv (h : Inv s) {i : Insert} {entry : Kdpc} (hc : s.phase c = .written i entry) :
    Inv { s.setPhase c (.created i entry) with threads := i.work entry :: s.threads } := by
  obtain ⟨hdpc, hcall, hnew⟩ : (Phase.written i entry).Sound s.threads s.next := hc ▸ h.phases c
  have hinsert : (s.phase c).insert? = some i := by
    rw [hc]
    rfl
  have hnone : s.begun i.call = false := by
    by_contra hbegun
    obtain ⟨w, hw, hwi⟩ := h.begun i.call (by simpa using hbegun)
    exact hnew w hw hwi
  refine ⟨h.mark, ?_, h.apart.move fun j hj => hinsert.trans hj, fun w hw => ?_,
    List.pairwise_cons.mpr ⟨fun w hw => Ne.symm (hnew w hw), h.threads⟩, fun call hb => ?_, fun call => ?_,
    fun j e hmem => List.mem_cons_of_mem _ (h.queued j e hmem)⟩
  · refine (Function.forall_update_iff _ fun _ (q : Phase) => q.Sound (i.work entry :: s.threads) s.next).mpr
      ⟨⟨hcall, List.mem_cons_self ..⟩, fun d hdc => ?_⟩
    have hd := h.phases d
    have hother : ∀ j, (s.phase d).insert? = some j → i.call ≠ j.call :=
      fun j hj heq => hdc (h.apart c d i j hinsert hj heq).symm
    cases hp : s.phase d with
    | idle => trivial
    | read j e | written j e =>
      rw [hp] at hd hother
      exact ⟨hd.1, hd.2.1, List.forall_mem_cons.mpr ⟨hother j rfl, hd.2.2⟩⟩
    | created j e =>
      rw [hp] at hd
      exact ⟨hd.1, List.mem_cons_of_mem _ hd.2⟩
  · rcases List.mem_cons.mp hw with rfl | hw
    · exact hcall
    · exact h.bound w hw
  · obtain ⟨w, hw, hwc⟩ := h.begun call hb
    exact ⟨w, List.mem_cons_of_mem _ hw, hwc⟩
  · refine (h.runs call).trans ?_
    show _ = if s.begun call then (i.work entry :: s.threads).filter _ else []
    by_cases hic : i.call = call
    · rw [← hic, hnone]
      rfl
    · rw [List.filter_cons_of_neg]
      exact fun heq => hic (beq_iff_eq.mp heq)

theorem leave_inv (h : Inv s) {i : Insert} {entry : Kdpc} (hc : s.phase c = .created i entry) :
    Inv { s.setPhase c .idle with returned := .queued i entry :: s.returned } := by
  have hidle : Inv (s.setPhase c .idle) := h.setPhase trivial fun _ => nofun
  refine ⟨h.mark, hidle.phases, hidle.apart, h.bound, h.threads, h.begun, h.runs, fun j e hmem => ?_⟩
  rcases List.mem_cons.mp hmem with heq | hmem
  · obtain ⟨rfl, rfl⟩ := Return.queued.inj heq
    have hsound := h.phases c
    rw [hc] at hsound
    exact hsound.2
  · exact h.queued j e hmem

theorem filter_call {l : List Work} (h : l.Pairwise fun w w' => w.call ≠ w'.call) {w : Work} (hw : w ∈ l) :
    l.filter (fun w' => w'.call == w.call) = [w] := by
  induction l with
  | nil => cases hw
  | cons x l ih =>
    obtain ⟨hx, hl⟩ := List.pairwise_cons.mp h
    rcases List.mem_cons.mp hw with rfl | hw
    · rw [List.filter_cons_of_pos (by simp), List.filter_eq_nil_iff.mpr]
      intro y hy heq
      exact hx y hy (beq_iff_eq.mp heq).symm
    · rw [List.filter_cons_of_neg, ih hl hw]
      simpa using hx w hw

omit [DecidableEq Caller] in
theorem begin_inv (h : Inv s) {call : Nat} {w : Work} (hw : s.threads.find? (fun w => w.call == call) = some w)
    (hnew : s.begun call = false) :
    Inv { s.settle call with begun := Function.update s.begun call true, runs := w :: s.runs } := by
  have hmem := List.mem_of_find?_eq_some hw
  obtain rfl : w.call = call := beq_iff_eq.mp (List.find?_some (p := fun w : Work => w.call == call) hw)
  refine ⟨h.mark, h.phases, h.apart, h.bound, h.threads, fun call' hb => ?_, fun call' => ?_, h.queued⟩
  · have hb' : Function.update s.begun w.call true call' = true := hb
    by_cases hc : call' = w.call
    · exact ⟨w, hmem, hc.symm⟩
    · rw [Function.update_of_ne hc] at hb'
      exact h.begun call' hb'
  · have hold := h.runs call'
    show (w :: s.runs).filter _ = if Function.update s.begun w.call true call' then s.threads.filter _ else []
    by_cases hc : call' = w.call
    · rw [hc, hnew] at hold
      rw [hc, Function.update_self, List.filter_cons_of_pos (by simp), hold, filter_call h.threads hmem]
      rfl
    · rw [Function.update_of_ne hc, List.filter_cons_of_neg, hold]
      simpa using Ne.symm hc

end steps

inductive Stepped (s : State Caller) : Event Caller → State Caller → Prop
  | initialise (dpc routine context : Addr) :
      Stepped s (.initialise dpc routine context) (s.initialise dpc routine context)
  | insert {c : Caller} (dpc argument1 argument2 : Addr) (hc : s.phase c = .idle) :
      Stepped s (.insert c dpc argument1 argument2) (s.insert c dpc argument1 argument2)
  | write {c : Caller} {i : Insert} {entry : Kdpc} (hc : s.phase c = .read i entry) :
      Stepped s (.write c) (s.write c i entry)
  | create {c : Caller} {i : Insert} {entry : Kdpc} (hc : s.phase c = .written i entry) :
      Stepped s (.create c) { s.setPhase c (.created i entry) with threads := i.work entry :: s.threads }
  | fail {c : Caller} {i : Insert} {entry : Kdpc} (hc : s.phase c = .written i entry) :
      Stepped s (.fail c) ((s.setPhase c .idle).settle i.call)
  | leave {c : Caller} {i : Insert} {entry : Kdpc} (hc : s.phase c = .created i entry) :
      Stepped s (.leave c) { s.setPhase c .idle with returned := .queued i entry :: s.returned }
  | begin {call : Nat} {w : Work} (hw : s.threads.find? (fun w => w.call == call) = some w)
      (hnew : s.begun call = false) :
      Stepped s (.begin call)
        { s.settle call with begun := Function.update s.begun call true, runs := w :: s.runs }
  | finish (call : Nat) : Stepped s (.finish call) { s with finished := Function.update s.finished call true }

variable {s s' : State Caller} {e : Event Caller}

theorem stepped_of_step (h : step s e = some s') : Stepped s e s' := by
  cases e with
  | initialise dpc routine context =>
    obtain rfl := Option.some.inj h
    exact .initialise dpc routine context
  | insert c dpc argument1 argument2 =>
    unfold step at h
    dsimp only at h
    split at h
    · rename_i hc
      obtain rfl := Option.some.inj h
      exact .insert dpc argument1 argument2 hc
    · cases h
  | write c =>
    unfold step at h
    dsimp only at h
    split at h
    · rename_i hc
      obtain rfl := Option.some.inj h
      exact .write hc
    · cases h
  | create c =>
    unfold step at h
    dsimp only at h
    split at h
    · rename_i hc
      obtain rfl := Option.some.inj h
      exact .create hc
    · cases h
  | fail c =>
    unfold step at h
    dsimp only at h
    split at h
    · rename_i hc
      obtain rfl := Option.some.inj h
      exact .fail hc
    · cases h
  | leave c =>
    unfold step at h
    dsimp only at h
    split at h
    · rename_i hc
      obtain rfl := Option.some.inj h
      exact .leave hc
    · cases h
  | begin call =>
    unfold step at h
    dsimp only at h
    split at h
    · rename_i hw
      split at h
      · cases h
      · rename_i hnew
        obtain rfl := Option.some.inj h
        exact .begin hw (Bool.eq_false_iff.mpr hnew)
    · cases h
  | finish call =>
    unfold step at h
    dsimp only at h
    split at h
    · obtain rfl := Option.some.inj h
      exact .finish call
    · cases h

theorem step_inv (h : Inv s) (hs : step s e = some s') : Inv s' := by
  cases stepped_of_step hs with
  | initialise dpc routine context => exact initialise_inv h dpc routine context
  | insert dpc argument1 argument2 hc => exact insert_inv h dpc argument1 argument2
  | write hc => exact write_inv h hc
  | create hc => exact create_inv h hc
  | @fail c i entry hc =>
    have hidle : Inv (s.setPhase c .idle) := h.setPhase trivial fun _ => nofun
    exact ⟨hidle.mark, hidle.phases, hidle.apart, hidle.bound, hidle.threads, hidle.begun, hidle.runs, hidle.queued⟩
  | leave hc => exact leave_inv h hc
  | begin hw hnew => exact begin_inv h hw hnew
  | finish call => exact ⟨h.mark, h.phases, h.apart, h.bound, h.threads, h.begun, h.runs, h.queued⟩

/-! ## Runs -/

omit [DecidableEq Caller] in
theorem Inv.once {s : State Caller} (h : Inv s) {i : Insert} {entry : Kdpc} (hmem : .queued i entry ∈ s.returned) :
    s.runs.filter (fun w => w.call == i.call) = if s.begun i.call then [i.work entry] else [] := by
  rw [h.runs i.call, ← filter_call h.threads (h.queued i entry hmem)]
  rfl

theorem Inv.canBegin (h : Inv s) {i : Insert} {entry : Kdpc}
    (hmem : .queued i entry ∈ s.returned) (hnew : s.begun i.call = false) : (step s (.begin i.call)).isSome := by
  have hfind : (s.threads.find? fun w => w.call == i.call).isSome :=
    List.find?_isSome.mpr ⟨_, h.queued i entry hmem, beq_self_eq_true i.call⟩
  obtain ⟨w, hw⟩ := Option.isSome_iff_exists.mp hfind
  unfold step
  dsimp only
  rw [hw, hnew]
  rfl

def Refusals (s : State Caller) : Prop := ∀ dpc outstanding, .refused dpc outstanding ∈ s.returned → outstanding = true

omit [DecidableEq Caller] in
theorem refusals_refuse {s : State Caller} (h : Refusals s) (dpc : Addr) :
    Refusals (s.refuse dpc) ↔ s.waits dpc = true := by
  constructor
  · exact fun hall => hall dpc _ (List.mem_cons_self ..)
  · intro hwaits a outstanding hmem
    rcases List.mem_cons.mp hmem with heq | hmem
    · obtain ⟨rfl, rfl⟩ := Return.refused.inj heq
      exact hwaits
    · exact h a outstanding hmem

theorem refusals_iff_ok (h : Inv s) (hrefusals : Refusals s) (hs : step s e = some s') : Ok s e ↔ Refusals s' := by
  cases stepped_of_step hs with
  | @insert c dpc argument1 argument2 hc =>
    unfold Ok
    dsimp only
    rcases insert_cases s c dpc argument1 argument2 with ⟨heq, hrefused⟩ | ⟨hnull, hroutine, hmark, heq⟩
    · rw [heq, refusals_refuse hrefusals]
      refine or_iff_left ?_
      rintro ⟨hnull, hroutine, hused⟩
      rcases hrefused with hz | hz | hz
      · exact hnull hz
      · exact hroutine hz
      · rw [(h.mark dpc).mp hz] at hused
        cases hused
    · rw [heq]
      refine iff_of_true (Or.inr ⟨hnull, hroutine, ?_⟩) hrefusals
      by_contra hused
      exact (h.mark dpc).mpr (by simpa using hused) hmark
  | initialise dpc routine context =>
    refine iff_of_true trivial ?_
    unfold State.initialise
    split
    · exact hrefusals
    · exact hrefusals
  | leave hc =>
    refine iff_of_true trivial fun a outstanding hmem => ?_
    rcases List.mem_cons.mp hmem with heq | hmem
    · cases heq
    · exact hrefusals a outstanding hmem
  | _ => exact iff_of_true trivial hrefusals

theorem refusals_of_step (hs : step s e = some s') (h : Refusals s') :
    Refusals s := by
  cases stepped_of_step hs with
  | @insert c dpc argument1 argument2 hc =>
    rcases insert_cases s c dpc argument1 argument2 with ⟨heq, -⟩ | ⟨-, -, -, heq⟩
    · rw [heq] at h
      exact fun a outstanding hmem => h a outstanding (List.mem_cons_of_mem _ hmem)
    · rw [heq] at h
      exact h
  | initialise dpc routine context =>
    unfold State.initialise at h
    split at h
    · exact h
    · exact h
  | leave hc => exact fun a outstanding hmem => h a outstanding (List.mem_cons_of_mem _ hmem)
  | _ => exact h

/-- **DPCs run once for each insert** in exactly the runs in which no DPC is inserted again after it has run, unless
it was initialised in between. -/
theorem dpcOk_iff {events : List (Event Caller)} {s : State Caller}
    (h : Run.Steps step (fun _ _ => True) {} events s) : DpcOk s ↔ Run.Steps step Ok {} events s := by
  have hinv : Inv s := h.invariant (fun _ _ _ hs _ hstep => step_inv hs hstep) inv_start
  rw [h.allowed_iff (P := Refusals) (I := Inv) (fun _ _ _ hs _ hstep => step_inv hs hstep)
    (fun _ _ _ _ hstep => refusals_of_step hstep) (fun _ _ _ hs hr _ hstep => refusals_iff_ok hs hr hstep)
    inv_start fun _ _ hmem => by cases hmem]
  exact ⟨DpcOk.refused, fun hr => ⟨fun _ _ hmem => hinv.once hmem, fun _ _ hmem => hinv.canBegin hmem, hr⟩⟩

end run

def insertAndRun (call : Nat) : List (Event Bool) :=
  [.insert true 0x1000 call 2, .write true, .create true, .leave true, .begin call, .finish call]

def anew : List (Event Bool) :=
  .initialise 0x1000 0x4000 0 :: insertAndRun 0 ++ .initialise 0x1000 0x4000 0 :: insertAndRun 1

def again : List (Event Bool) := .initialise 0x1000 0x4000 0 :: insertAndRun 0 ++ [.insert true 0x1000 1 2]

instance (s : State Bool) (e : Event Bool) : Decidable (Ok s e) := by
  cases e with
  | insert c dpc argument1 argument2 => exact inferInstanceAs (Decidable (_ ∨ _ ∧ _ ∧ _))
  | _ => exact isTrue trivial

theorem anew_ok : ∃ s : State Bool, Run.Steps step (fun _ _ => True) {} anew s ∧ DpcOk s ∧
    s.runs.map Work.argument1 = [1, 0] := by
  have hexec : ((Run.exec step (fun s e => decide (Ok s e)) ({} : State Bool) anew).map fun s =>
      s.runs.map Work.argument1) = some [1, 0] := by decide
  obtain ⟨s, hs, hruns⟩ := Option.map_eq_some_iff.mp hexec
  have hok := Run.Steps.of_exec (fun _ _ => of_decide_eq_true) hs
  have hrun := hok.mono fun _ _ _ => trivial
  exact ⟨s, hrun, (dpcOk_iff hrun).mpr hok, hruns⟩

/-- The mark outlives the run: the second insert is refused, and the routine does not run again. -/
theorem again_refused : ¬ ∀ (events : List (Event Bool)) s, Run.Steps step (fun _ _ => True) {} events s → DpcOk s := by
  intro hall
  have hexec : ((Run.exec step (fun _ _ => true) ({} : State Bool) again).map fun s => s.returned.head?) =
      some (some (.refused 0x1000 false)) := by decide
  obtain ⟨s, hs, hreturned⟩ := Option.map_eq_some_iff.mp hexec
  have hok := hall _ s (Run.Steps.of_exec (fun _ _ _ => trivial) hs)
  cases hok.refused 0x1000 false (List.mem_of_mem_head? hreturned)

end Kernemul.Dpc
