import Kernemul.Kernel.Scheduler
import Kernemul.Lib.Ring
import Mathlib.Data.Finset.Card
import Mathlib.Data.List.Dedup

/-!
# The threads of a process as the guest sees them (`windows_process::setup_ethread`, `terminate_thread`)

A process has its threads on two rings in guest memory, through `KTHREAD.ThreadListEntry` and
`ETHREAD.ThreadListEntry`, and their number in `EPROCESS.ActiveThreads`. A node is the link field of an
object: `none` is the head in the EPROCESS, `some t` the entry in the ETHREAD `t`. The fields of different
objects do not overlap, nor do the two of one object, so each ring has a store of its own.

Any number of cpus create and end threads of the process. The list section of `setup_ethread`, the entry in
`threads_`, the search of `windows_process::terminate_thread`, the list section of `destroy_ethread` and the
section of `process::terminate_thread` are a step each, as each holds its lock alone. `allocate_id` holds none:
reading the counter and counting it up are two steps, between which another creation can read the same id.
Nothing keeps a second call from finding a thread before the first has taken it out of `threads_` either: both
then unlink it and count it down.
-/

namespace Kernemul.ThreadLists

open LinkRing
open Sched (ThreadId CpuId update_true_of)

abbrev Ethread := Nat

abbrev Store := Option Ethread → Links (Option Ethread)

/-- Where a cpu is in `create_suspended_thread` or in `windows_process::terminate_thread`. -/
inductive Call
  | idle
  /-- `allocate_id` has read the counter. -/
  | allocating (id : ThreadId)
  | allocated (id : ThreadId)
  /-- Before the entry in `threads_`. -/
  | setUp (t : Ethread)
  /-- The thread was found: before the list section of `destroy_ethread`. -/
  | found (id : ThreadId) (t : Ethread)
  /-- Before `process::terminate_thread`. -/
  | erasing (id : ThreadId)
  deriving DecidableEq, Repr

def Call.target : Call → Option ThreadId
  | .found id _ => some id
  | .erasing id => some id
  | _ => none

def Call.inAllocateId : Call → Bool
  | .allocating _ => true
  | _ => false

/-- `idOf`, `made`, `live` and `unlinks` are not in the source: the ids of the threads, those that were set up, those
that were set up and not ended since, in order, and how often each was unlinked. -/
structure State where
  kprocessList : Store := init (fun _ => ⟨none, none⟩) none
  eprocessList : Store := init (fun _ => ⟨none, none⟩) none
  activeThreads : Nat := 0
  threads : ThreadId → Option Ethread := fun _ => none
  /-- The object manager's, which processes and handles take their ids from too. -/
  nextId : Nat := 4
  call : CpuId → Call := fun _ => .idle
  idOf : Ethread → ThreadId := fun _ => 0
  made : Ethread → Bool := fun _ => false
  live : List Ethread := []
  unlinks : Ethread → Nat := fun _ => 0

def State.setCall (s : State) (c : CpuId) (call : Call) : State :=
  { s with call := Function.update s.call c call }

/-- `next_id_ += 4`, in 32 bits. -/
def State.countId (s : State) : State := { s with nextId := (s.nextId + 4) % 2 ^ 32 }

/-- The list section of `setup_ethread`; `ActiveThreads` is an `unsigned int`. -/
def State.setupEthread (s : State) (id : ThreadId) (t : Ethread) : State :=
  { s with
    kprocessList := pushBack s.kprocessList none (some t)
    eprocessList := pushBack s.eprocessList none (some t)
    activeThreads := (s.activeThreads + 1) % 2 ^ 32
    idOf := Function.update s.idOf t id
    made := Function.update s.made t true
    live := s.live ++ [t] }

/-- `threads_[t->id()] = t`. -/
def State.register (s : State) (t : Ethread) : State :=
  { s with threads := Function.update s.threads (s.idOf t) (some t) }

/-- The list section of `destroy_ethread`. -/
def State.destroyEthread (s : State) (t : Ethread) : State :=
  { s with
    kprocessList := remove s.kprocessList (some t)
    eprocessList := remove s.eprocessList (some t)
    activeThreads := if 0 < s.activeThreads then s.activeThreads - 1 else s.activeThreads
    live := s.live.erase t
    unlinks := Function.update s.unlinks t (s.unlinks t + 1) }

/-- The section of `process::terminate_thread`; the scheduler then lets go of whatever has the id. -/
def State.eraseThread (s : State) (id : ThreadId) : State :=
  if s.threads id = none then s
  else { s with threads := Function.update s.threads id none, live := s.live.filter fun t => s.idOf t ≠ id }

inductive Event
  | readId (c : CpuId)
  | countId (c : CpuId)
  /-- The id is for something else than a thread of the process. -/
  | giveId (c : CpuId)
  | setupEthread (c : CpuId) (t : Ethread)
  | register (c : CpuId)
  | findThread (c : CpuId) (id : ThreadId)
  | destroyEthread (c : CpuId)
  | eraseThread (c : CpuId)
  deriving DecidableEq, Repr

def step (s : State) : Event → Option State
  | .readId c =>
    match s.call c with
    | .idle => some (s.setCall c (.allocating s.nextId))
    | _ => none
  | .countId c =>
    match s.call c with
    | .allocating id => some (s.countId.setCall c (.allocated id))
    | _ => none
  | .giveId c =>
    match s.call c with
    | .allocated _ => some (s.setCall c .idle)
    | _ => none
  | .setupEthread c t =>
    match s.call c with
    | .allocated id => if s.made t then none else some ((s.setupEthread id t).setCall c (.setUp t))
    | _ => none
  | .register c =>
    match s.call c with
    | .setUp t => some ((s.register t).setCall c .idle)
    | _ => none
  | .findThread c id =>
    match s.call c with
    | .idle => some (s.setCall c ((s.threads id).elim (.erasing id) (.found id)))
    | _ => none
  | .destroyEthread c =>
    match s.call c with
    | .found id t => some ((s.destroyEthread t).setCall c (.erasing id))
    | _ => none
  | .eraseThread c =>
    match s.call c with
    | .erasing id => some ((s.eraseThread id).setCall c .idle)
    | _ => none

/-- The counter and the rings are right, and every thread that is no more was unlinked once. -/
structure Bookkept (s : State) : Prop where
  active : s.activeThreads = s.live.length
  kprocess : IsRing s.kprocessList none (s.live.map some)
  eprocess : IsRing s.eprocessList none (s.live.map some)
  once : ∀ t, s.made t = true → s.unlinks t = if t ∈ s.live then 0 else 1

/-- `create_suspended_thread` with nothing in between. -/
def creates (c : CpuId) (t : Ethread) : List Event := [.readId c, .countId c, .setupEthread c t, .register c]

/-- The system process takes the id 4 and two threads 8 and 12; then two cpus end thread 12 at the same time. -/
def endedTwice : List Event :=
  [.readId 0, .countId 0, .giveId 0] ++ creates 0 0x8000 ++ creates 0 0x9000 ++
    [.findThread 0 12, .findThread 1 12, .destroyEthread 0, .destroyEthread 1]

theorem endedTwice_not_bookkept : ¬ ∀ events s, Run.Steps step (fun _ _ => True) {} events s →
    Bookkept s := by
  intro hall
  have hexec : (Run.exec step (fun _ _ => true) {} endedTwice).map
      (fun s => (s.activeThreads, s.live)) = some (0, [0x8000]) := by decide +kernel
  obtain ⟨s, hs, hfacts⟩ := Option.map_eq_some_iff.mp hexec
  obtain ⟨hactive, hlive⟩ : s.activeThreads = 0 ∧ s.live = [0x8000] := by simpa using hfacts
  have hbook := (hall _ s (Run.Steps.of_exec (fun _ _ _ => trivial) hs)).active
  simp [hactive, hlive] at hbook

/-! ## Calls that do not overlap -/

/-- No two calls of `allocate_id` overlap and the counter does not go round, a call finds a thread only while no other
call is about it, and a thread is entered in `threads_` only while no call that has not found it is still to erase
it. -/
def CallsApart (s : State) : Event → Prop
  | .readId _ => ∀ c, (s.call c).inAllocateId = false
  | .countId _ => s.nextId + 4 < 2 ^ 32
  | .register c => ∀ t, s.call c = .setUp t → ∀ d, s.call d ≠ .erasing (s.idOf t)
  | .findThread _ id => s.threads id ≠ none → ∀ c, (s.call c).target ≠ some id
  | _ => True

variable {s : State} {c : CpuId} {call : Call}

theorem setCall_call_of_ne {d : CpuId} (h : d ≠ c) :
    (s.setCall c call).call d = s.call d := by
  simp [State.setCall, h]

theorem setCall_call_self (s : State) (c : CpuId) (call : Call) : (s.setCall c call).call c = call := by
  simp [State.setCall]

theorem setCall_call_cases {d : CpuId} {x : Call} (h : (s.setCall c call).call d = x) :
    d = c ∧ call = x ∨ d ≠ c ∧ s.call d = x := by
  by_cases hdc : d = c
  · exact .inl ⟨hdc, by rwa [hdc, setCall_call_self] at h⟩
  · exact .inr ⟨hdc, by rwa [setCall_call_of_ne hdc] at h⟩

/-- A call that is not the one that was put there was there before. -/
theorem call_of_setCall {d : CpuId} {x : Call} (hne : call ≠ x) (h : (s.setCall c call).call d = x) :
    d ≠ c ∧ s.call d = x :=
  (setCall_call_cases h).resolve_left fun hset => hne hset.2

/-- A cpu whose call ends nothing leaves the calls that end a thread to the others. -/
theorem not_erasing_of_setCall {i : ThreadId} (hc : s.call c ≠ .erasing i)
    (h : ∀ d, (s.setCall c call).call d ≠ .erasing i) (d : CpuId) : s.call d ≠ .erasing i := by
  by_cases hdc : d = c
  · rwa [hdc]
  · simpa [setCall_call_of_ne hdc] using h d

/-! ## Ids -/

/-- An id that was given out is one thread's at most, and the next one is nobody's. -/
structure IdsApart (s : State) : Prop where
  one : ∀ c d i j, s.call c = .allocating i → s.call d = .allocating j → c = d
  next : ∀ c i, s.call c = .allocating i → i = s.nextId
  given : ∀ c i, s.call c = .allocated i → i < s.nextId ∧ ∀ t, s.made t = true → s.idOf t ≠ i
  own : ∀ c d i, s.call c = .allocated i → s.call d = .allocated i → c = d
  used : ∀ t, s.made t = true → s.idOf t < s.nextId
  inj : ∀ t u, s.made t = true → s.made u = true → s.idOf t = s.idOf u → t = u
  top : s.nextId < 2 ^ 32

theorem IdsApart.setCall (h : IdsApart s) (c : CpuId) (hreads : ∀ i, call ≠ .allocating i)
    (hhas : ∀ i, call ≠ .allocated i) : IdsApart (s.setCall c call) where
  one d e i j hd he := by
    obtain ⟨-, hd⟩ := call_of_setCall (hreads i) hd
    obtain ⟨-, he⟩ := call_of_setCall (hreads j) he
    exact h.one d e i j hd he
  next d i hd := by
    obtain ⟨-, hd⟩ := call_of_setCall (hreads i) hd
    exact h.next d i hd
  given d i hd := by
    obtain ⟨-, hd⟩ := call_of_setCall (hhas i) hd
    exact h.given d i hd
  own d e i hd he := by
    obtain ⟨-, hd⟩ := call_of_setCall (hhas i) hd
    obtain ⟨-, he⟩ := call_of_setCall (hhas i) he
    exact h.own d e i hd he
  used := h.used
  inj := h.inj
  top := h.top

theorem IdsApart.readId (h : IdsApart s) (c : CpuId) (halone : ∀ d, (s.call d).inAllocateId = false) :
    IdsApart (s.setCall c (.allocating s.nextId)) where
  one d e i j hd he := by
    have hnone : ∀ d k, s.call d ≠ .allocating k := fun d k hk => by
      have := halone d
      rw [hk] at this
      cases this
    rcases setCall_call_cases hd with ⟨hdc, -⟩ | ⟨-, hd⟩
    · rcases setCall_call_cases he with ⟨hec, -⟩ | ⟨-, he⟩
      · rw [hdc, hec]
      · exact absurd he (hnone e j)
    · exact absurd hd (hnone d i)
  next d i hd := by
    rcases setCall_call_cases hd with ⟨-, hcall⟩ | ⟨-, hd⟩
    · exact (Call.allocating.inj hcall).symm
    · exact h.next d i hd
  given d i hd := by
    obtain ⟨-, hd⟩ := call_of_setCall (by simp) hd
    exact h.given d i hd
  own d e i hd he := by
    obtain ⟨-, hd⟩ := call_of_setCall (by simp) hd
    obtain ⟨-, he⟩ := call_of_setCall (by simp) he
    exact h.own d e i hd he
  used := h.used
  inj := h.inj
  top := h.top

variable {id : ThreadId}

theorem IdsApart.countId (h : IdsApart s) (hc : s.call c = .allocating id)
    (hroom : s.nextId + 4 < 2 ^ 32) : IdsApart (s.countId.setCall c (.allocated id)) := by
  obtain rfl := h.next c id hc
  have hnext : s.countId.nextId = s.nextId + 4 := Nat.mod_eq_of_lt hroom
  have hnot : ∀ d i, s.call d = .allocated i → i ≠ s.nextId := fun d i hd => Nat.ne_of_lt (h.given d i hd).1
  refine ⟨fun d e i j hd he => ?_, fun d i hd => ?_, fun d i hd => ?_, fun d e i hd he => ?_, fun t ht => ?_, h.inj, ?_⟩
  · rcases setCall_call_cases hd with ⟨-, hcall⟩ | ⟨-, hd⟩
    · cases hcall
    obtain ⟨-, he⟩ := call_of_setCall (by simp) he
    exact h.one d e i j hd he
  · rcases setCall_call_cases hd with ⟨-, hcall⟩ | ⟨hdc, hd⟩
    · cases hcall
    · exact absurd (h.one d c i _ hd hc) hdc
  · show i < s.countId.nextId ∧ _
    rw [hnext]
    rcases setCall_call_cases hd with ⟨-, hcall⟩ | ⟨-, hd⟩
    · obtain rfl := Call.allocated.inj hcall
      exact ⟨Nat.lt_add_of_pos_right (by decide), fun t ht => Nat.ne_of_lt (h.used t ht)⟩
    · obtain ⟨hlt, hfresh⟩ := h.given d i hd
      exact ⟨Nat.lt_add_right 4 hlt, hfresh⟩
  · rcases setCall_call_cases hd with ⟨hdc, hcall⟩ | ⟨-, hd⟩
    · obtain rfl := Call.allocated.inj hcall
      rcases setCall_call_cases he with ⟨hec, -⟩ | ⟨-, he⟩
      · rw [hdc, hec]
      · exact absurd rfl (hnot e _ he)
    · rcases setCall_call_cases he with ⟨-, hcall⟩ | ⟨-, he⟩
      · obtain rfl := Call.allocated.inj hcall
        exact absurd rfl (hnot d _ hd)
      · exact h.own d e i hd he
  · show s.idOf t < s.countId.nextId
    rw [hnext]
    exact Nat.lt_add_right 4 (h.used t ht)
  · show s.countId.nextId < 2 ^ 32
    rwa [hnext]

variable {t : Ethread}

theorem update_true_cases {f : Ethread → Bool} {u : Ethread} (h : Function.update f t true u = true) :
    u = t ∨ u ≠ t ∧ f u = true := by
  by_cases hut : u = t
  · exact .inl hut
  · exact .inr ⟨hut, by simpa [hut] using h⟩

theorem setupEthread_idOf_self (s : State) (id : ThreadId) (t : Ethread) : (s.setupEthread id t).idOf t = id :=
  Function.update_self ..

theorem setupEthread_idOf_of_ne {u : Ethread} (h : u ≠ t) :
    (s.setupEthread id t).idOf u = s.idOf u :=
  Function.update_of_ne h ..

theorem IdsApart.setupEthread (h : IdsApart s) (hc : s.call c = .allocated id)
    (t : Ethread) : IdsApart ((s.setupEthread id t).setCall c (.setUp t)) := by
  obtain ⟨hlt, hfresh⟩ := h.given c id hc
  refine ⟨fun d e i j hd he => ?_, fun d i hd => ?_, fun d i hd => ?_, fun d e i hd he => ?_, fun u hu => ?_,
    fun u v hu hv huv => ?_, h.top⟩
  · rcases setCall_call_cases hd with ⟨-, hcall⟩ | ⟨-, hd⟩
    · cases hcall
    obtain ⟨-, he⟩ := call_of_setCall (by simp) he
    exact h.one d e i j hd he
  · rcases setCall_call_cases hd with ⟨-, hcall⟩ | ⟨-, hd⟩
    · cases hcall
    · exact h.next d i hd
  · rcases setCall_call_cases hd with ⟨-, hcall⟩ | ⟨hdc, hd⟩
    · cases hcall
    · refine ⟨(h.given d i hd).1, fun u hu => ?_⟩
      show (s.setupEthread id t).idOf u ≠ i
      rcases update_true_cases hu with rfl | ⟨hut, hu⟩
      · rw [setupEthread_idOf_self]
        rintro rfl
        exact hdc (h.own d c _ hd hc)
      · rw [setupEthread_idOf_of_ne hut]
        exact (h.given d i hd).2 u hu
  · rcases setCall_call_cases hd with ⟨-, hcall⟩ | ⟨-, hd⟩
    · cases hcall
    obtain ⟨-, he⟩ := call_of_setCall (by simp) he
    exact h.own d e i hd he
  · show (s.setupEthread id t).idOf u < s.nextId
    rcases update_true_cases hu with rfl | ⟨hut, hu⟩
    · rwa [setupEthread_idOf_self]
    · rw [setupEthread_idOf_of_ne hut]
      exact h.used u hu
  · have huv : (s.setupEthread id t).idOf u = (s.setupEthread id t).idOf v := huv
    rcases update_true_cases hu with rfl | ⟨hut, hold⟩ <;> rcases update_true_cases hv with rfl | ⟨hvt, hold'⟩
    · rfl
    · rw [setupEthread_idOf_self, setupEthread_idOf_of_ne hvt] at huv
      exact absurd huv.symm (hfresh v hold')
    · rw [setupEthread_idOf_self, setupEthread_idOf_of_ne hut] at huv
      exact absurd huv (hfresh u hold)
    · rw [setupEthread_idOf_of_ne hut, setupEthread_idOf_of_ne hvt] at huv
      exact h.inj u v hold hold' huv

theorem IdsApart.eraseThread (h : IdsApart s) (id : ThreadId) : IdsApart (s.eraseThread id) := by
  unfold State.eraseThread
  split
  · exact h
  · exact ⟨h.one, h.next, h.given, h.own, h.used, h.inj, h.top⟩

variable {e : Event}

theorem IdsApart.step {s' : State} (h : IdsApart s) (hok : CallsApart s e)
    (hstep : step s e = some s') : IdsApart s' := by
  cases e with
  | readId c =>
    simp only [ThreadLists.step] at hstep
    split at hstep <;> cases hstep
    exact h.readId c hok
  | countId c =>
    simp only [ThreadLists.step] at hstep
    split at hstep <;> cases hstep
    exact h.countId ‹_› hok
  | giveId c =>
    simp only [ThreadLists.step] at hstep
    split at hstep <;> cases hstep
    exact h.setCall c (by simp) (by simp)
  | setupEthread c t =>
    simp only [ThreadLists.step] at hstep
    split at hstep
    · simp only [Option.ite_none_left_eq_some, Option.some.injEq] at hstep
      exact hstep.2 ▸ h.setupEthread ‹_› t
    · cases hstep
  | register c =>
    simp only [ThreadLists.step] at hstep
    split at hstep <;> cases hstep
    exact IdsApart.setCall (s := s.register _) ⟨h.one, h.next, h.given, h.own, h.used, h.inj, h.top⟩ c (by simp)
      (by simp)
  | findThread c id =>
    simp only [ThreadLists.step] at hstep
    split at hstep <;> cases hstep
    refine h.setCall c ?_ ?_ <;> cases s.threads id <;> simp
  | destroyEthread c =>
    simp only [ThreadLists.step] at hstep
    split at hstep <;> cases hstep
    exact IdsApart.setCall (s := s.destroyEthread _) ⟨h.one, h.next, h.given, h.own, h.used, h.inj, h.top⟩ c (by simp)
      (by simp)
  | eraseThread c =>
    simp only [ThreadLists.step] at hstep
    split at hstep <;> cases hstep
    exact (h.eraseThread _).setCall c (by simp) (by simp)

theorem IdsApart.length_lt (h : IdsApart s) (hc : s.call c = .allocated id)
    (hnodup : s.live.Nodup) (hmade : ∀ t ∈ s.live, s.made t = true) : s.live.length + 1 < 2 ^ 32 := by
  obtain ⟨hlt, hfresh⟩ := h.given c id hc
  have hids : (id :: s.live.map s.idOf).Nodup := by
    refine List.nodup_cons.mpr ⟨fun hmem => ?_, ?_⟩
    · obtain ⟨t, ht, hid⟩ := List.mem_map.mp hmem
      exact hfresh t (hmade t ht) hid
    · exact hnodup.map_on fun t ht u hu => h.inj t u (hmade t ht) (hmade u hu)
  have hsub : (id :: s.live.map s.idOf).toFinset ⊆ Finset.range s.nextId := by
    intro i hi
    rcases List.mem_cons.mp (List.mem_toFinset.mp hi) with rfl | hi
    · exact Finset.mem_range.mpr hlt
    · obtain ⟨t, ht, rfl⟩ := List.mem_map.mp hi
      exact Finset.mem_range.mpr (h.used t (hmade t ht))
  have hcard := Finset.card_le_card hsub
  rw [List.toFinset_card_of_nodup hids, Finset.card_range, List.length_cons, List.length_map] at hcard
  exact hcard.trans_lt h.top

/-! ## The books -/

/-- The one call that is about a thread of `threads_` says whether the thread is still to be unlinked. -/
structure Counted (s : State) : Prop where
  book : Bookkept s
  liveMade : ∀ t ∈ s.live, s.made t = true
  unmade : ∀ t, s.made t = false → s.unlinks t = 0
  setUp : ∀ c t, s.call c = .setUp t → s.made t = true ∧ t ∈ s.live ∧ s.threads (s.idOf t) = none
  entering : ∀ c d t, s.call c = .setUp t → s.call d = .setUp t → c = d
  known : ∀ i t, s.threads i = some t → s.made t = true ∧ s.idOf t = i
  found : ∀ c i t, s.call c = .found i t → s.threads i = some t ∧ t ∈ s.live
  erasing : ∀ c i t, s.call c = .erasing i → s.threads i = some t → t ∉ s.live
  alone : ∀ c d i, s.threads i ≠ none → (s.call c).target = some i → (s.call d).target = some i → c = d
  quiet : ∀ i t, s.threads i = some t → (∀ c, s.call c ≠ .erasing i) → t ∈ s.live

theorem Bookkept.nodup (h : Bookkept s) : s.live.Nodup :=
  ((List.nodup_cons.mp h.kprocess.nodup).2).of_map

theorem Bookkept.setupEthread (h : Bookkept s) (id : ThreadId) (hnew : t ∉ s.live)
    (hnone : s.unlinks t = 0) (hroom : s.live.length + 1 < 2 ^ 32) : Bookkept (s.setupEthread id t) where
  active := by
    simp only [State.setupEthread, h.active, List.length_append, List.length_singleton]
    exact Nat.mod_eq_of_lt hroom
  kprocess := by
    have := h.kprocess.pushBack (x := some t) (by simpa using hnew)
    simpa [State.setupEthread] using this
  eprocess := by
    have := h.eprocess.pushBack (x := some t) (by simpa using hnew)
    simpa [State.setupEthread] using this
  once u hu := by
    by_cases hut : u = t
    · simp [State.setupEthread, hut, hnone]
    · have hmu : s.made u = true := by simpa [State.setupEthread, hut] using hu
      simpa [State.setupEthread, hut] using h.once u hmu

theorem isRing_unlink {m : Store} {live : List Ethread} (h : IsRing m none (live.map some))
    (hlive : t ∈ live) : IsRing (remove m (some t)) none ((live.erase t).map some) := by
  obtain ⟨l, r, -, hsplit, herase⟩ := List.exists_erase_eq hlive
  rw [hsplit, List.map_append, List.map_cons] at h
  rw [herase, List.map_append]
  exact h.remove

theorem Bookkept.destroyEthread (h : Bookkept s) (hlive : t ∈ s.live)
    (hmade : s.made t = true) : Bookkept (s.destroyEthread t) where
  active := by
    have hpos : 0 < s.live.length := List.length_pos_of_mem hlive
    simp only [State.destroyEthread, h.active, if_pos hpos]
    exact (List.length_erase_of_mem hlive).symm
  kprocess := isRing_unlink h.kprocess hlive
  eprocess := isRing_unlink h.eprocess hlive
  once u hu := by
    have honce := h.once u hu
    by_cases hut : u = t
    · subst hut
      have hgone : u ∉ s.live.erase u := fun hmem => (h.nodup.mem_erase_iff.mp hmem).1 rfl
      simp [State.destroyEthread, hgone, honce, hlive]
    · have hiff : u ∈ s.live.erase t ↔ u ∈ s.live := by
        rw [h.nodup.mem_erase_iff]
        exact ⟨And.right, fun hmem => ⟨hut, hmem⟩⟩
      simp [State.destroyEthread, hut, hiff, honce]

theorem Counted.setupEthread (h : Counted s) (hids : IdsApart s)
    (hc : s.call c = .allocated id) (hnew : s.made t = false) :
    Counted ((s.setupEthread id t).setCall c (.setUp t)) := by
  obtain ⟨-, hfresh⟩ := hids.given c id hc
  have hne : ∀ u, s.made u = true → u ≠ t := by
    rintro u hu rfl
    exact Bool.false_ne_true (hnew.symm.trans hu)
  have hnot : t ∉ s.live := fun hmem => hne t (h.liveMade t hmem) rfl
  have hbook := h.book.setupEthread id hnot (h.unmade t hnew) (hids.length_lt hc h.book.nodup h.liveMade)
  have htarget : ∀ d i, (((s.setupEthread id t).setCall c (.setUp t)).call d).target = some i →
      (s.call d).target = some i := by
    intro d i hd
    by_cases hdc : d = c
    · rw [hdc, setCall_call_self] at hd
      cases hd
    · rwa [setCall_call_of_ne hdc] at hd
  exact {
    book := ⟨hbook.active, hbook.kprocess, hbook.eprocess, hbook.once⟩
    liveMade := by
      intro u hu
      rcases List.mem_append.mp hu with hu | hu
      · exact update_true_of (h.liveMade u hu)
      · rw [List.mem_singleton.mp hu]
        exact Function.update_self ..
    unmade := by
      intro u hu
      by_cases hut : u = t
      · simp [State.setCall, State.setupEthread, hut] at hu
      · exact h.unmade u (by simpa [State.setCall, State.setupEthread, hut] using hu)
    setUp := by
      intro d u hd
      rcases setCall_call_cases hd with ⟨-, hcall⟩ | ⟨-, hd⟩
      · obtain rfl := Call.setUp.inj hcall
        refine ⟨Function.update_self .., List.mem_append_right _ (List.mem_singleton_self _), ?_⟩
        show s.threads ((s.setupEthread id t).idOf t) = none
        rw [setupEthread_idOf_self]
        cases hthread : s.threads id with
        | none => rfl
        | some v => exact absurd (h.known id v hthread).2 (hfresh v (h.known id v hthread).1)
      · obtain ⟨hu, hul, hnone⟩ := h.setUp d u hd
        refine ⟨update_true_of hu, List.mem_append_left _ hul, ?_⟩
        show s.threads ((s.setupEthread id t).idOf u) = none
        rwa [setupEthread_idOf_of_ne (hne u hu)]
    entering := by
      intro d e u hd he
      rcases setCall_call_cases hd with ⟨hdc, hcall⟩ | ⟨-, hd⟩
      · rcases setCall_call_cases he with ⟨hec, -⟩ | ⟨-, he⟩
        · rw [hdc, hec]
        · exact absurd (Call.setUp.inj hcall).symm (hne u (h.setUp e u he).1)
      · rcases setCall_call_cases he with ⟨-, hcall⟩ | ⟨-, he⟩
        · exact absurd (Call.setUp.inj hcall).symm (hne u (h.setUp d u hd).1)
        · exact h.entering d e u hd he
    known := by
      intro i u hu
      obtain ⟨hmade, hid⟩ := h.known i u hu
      exact ⟨update_true_of hmade, (setupEthread_idOf_of_ne (hne u hmade)).trans hid⟩
    found := by
      intro d i u hd
      obtain ⟨-, hd⟩ := call_of_setCall (by simp) hd
      exact ⟨(h.found d i u hd).1, List.mem_append_left _ (h.found d i u hd).2⟩
    erasing := by
      intro d i u hd hu hmem
      obtain ⟨-, hd⟩ := call_of_setCall (by simp) hd
      rcases List.mem_append.mp hmem with hmem | hmem
      · exact h.erasing d i u hd hu hmem
      · exact hne u (h.known i u hu).1 (List.mem_singleton.mp hmem)
    alone := fun d e i hi hd he => h.alone d e i hi (htarget d i hd) (htarget e i he)
    quiet := by
      intro i u hu hq
      have hold : ∀ d, s.call d ≠ .erasing i :=
        not_erasing_of_setCall (s := s.setupEthread id t) (hc.trans_ne (by simp)) hq
      exact List.mem_append_left _ (h.quiet i u hu hold) }

theorem Counted.register (h : Counted s) (hids : IdsApart s)
    (hc : s.call c = .setUp t) (hquiet : ∀ d, s.call d ≠ .erasing (s.idOf t)) :
    Counted ((s.register t).setCall c .idle) := by
  obtain ⟨hmade, hlive, hnone⟩ := h.setUp c t hc
  have hself : (s.register t).threads (s.idOf t) = some t := Function.update_self ..
  have hother : ∀ i, i ≠ s.idOf t → (s.register t).threads i = s.threads i := fun i hi => Function.update_of_ne hi ..
  have huntargeted : ∀ d, (s.call d).target ≠ some (s.idOf t) := by
    intro d hd
    cases hcall : s.call d with
    | found i u =>
      rw [hcall] at hd
      obtain rfl := Option.some.inj hd
      exact absurd (hnone.symm.trans (h.found d _ u hcall).1) (by simp)
    | erasing i =>
      rw [hcall] at hd
      obtain rfl := Option.some.inj hd
      exact hquiet d hcall
    | _ =>
      rw [hcall] at hd
      cases hd
  have htarget : ∀ d i, (((s.register t).setCall c .idle).call d).target = some i → (s.call d).target = some i := by
    intro d i hd
    by_cases hdc : d = c
    · rw [hdc, setCall_call_self] at hd
      cases hd
    · rwa [setCall_call_of_ne hdc] at hd
  exact {
    book := ⟨h.book.active, h.book.kprocess, h.book.eprocess, h.book.once⟩
    liveMade := h.liveMade
    unmade := h.unmade
    setUp := by
      intro d u hd
      obtain ⟨hdc, hd⟩ := call_of_setCall (by simp) hd
      obtain ⟨hu, hul, hun⟩ := h.setUp d u hd
      refine ⟨hu, hul, (hother _ fun hid => ?_).trans hun⟩
      obtain rfl := hids.inj u t hu hmade hid
      exact hdc (h.entering d c u hd hc)
    entering := by
      intro d e u hd he
      obtain ⟨-, hd⟩ := call_of_setCall (by simp) hd
      obtain ⟨-, he⟩ := call_of_setCall (by simp) he
      exact h.entering d e u hd he
    known := by
      intro i u hu
      by_cases hi : i = s.idOf t
      · subst hi
        obtain rfl := Option.some.inj (hself.symm.trans hu)
        exact ⟨hmade, rfl⟩
      · exact h.known i u ((hother i hi).symm.trans hu)
    found := by
      intro d i u hd
      obtain ⟨-, hd⟩ := call_of_setCall (by simp) hd
      obtain ⟨hu, hul⟩ := h.found d i u hd
      refine ⟨(hother i ?_).trans hu, hul⟩
      rintro rfl
      exact absurd (hnone.symm.trans hu) (by simp)
    erasing := by
      intro d i u hd hu
      obtain ⟨-, hd⟩ := call_of_setCall (by simp) hd
      have hi : i ≠ s.idOf t := by
        rintro rfl
        exact hquiet d hd
      exact h.erasing d i u hd ((hother i hi).symm.trans hu)
    alone := by
      intro d e i hi hd he
      have hd := htarget d i hd
      have hit : i ≠ s.idOf t := by
        rintro rfl
        exact huntargeted d hd
      exact h.alone d e i (fun hn => hi ((hother i hit).trans hn)) hd (htarget e i he)
    quiet := by
      intro i u hu hq
      by_cases hi : i = s.idOf t
      · subst hi
        obtain rfl := Option.some.inj (hself.symm.trans hu)
        exact hlive
      · have hold : ∀ d, s.call d ≠ .erasing i :=
          not_erasing_of_setCall (s := s.register t) (hc.trans_ne (by simp)) hq
        exact h.quiet i u ((hother i hi).symm.trans hu) hold }

theorem Counted.setCall (h : Counted s) (hsetUp : ∀ t, call ≠ .setUp t)
    (hfound : ∀ i t, call = .found i t → s.threads i = some t ∧ t ∈ s.live)
    (herasing : ∀ i t, call = .erasing i → s.threads i = some t → t ∉ s.live)
    (halone : ∀ d i, s.threads i ≠ none → call.target = some i → (s.call d).target = some i → d = c)
    (hquiet : ∀ i t, s.threads i = some t → s.call c = .erasing i → call ≠ .erasing i → t ∈ s.live) :
    Counted (s.setCall c call) where
  book := ⟨h.book.active, h.book.kprocess, h.book.eprocess, h.book.once⟩
  liveMade := h.liveMade
  unmade := h.unmade
  setUp d t hd := by
    obtain ⟨-, hd⟩ := call_of_setCall (hsetUp t) hd
    exact h.setUp d t hd
  entering d e t hd he := by
    obtain ⟨-, hd⟩ := call_of_setCall (hsetUp t) hd
    obtain ⟨-, he⟩ := call_of_setCall (hsetUp t) he
    exact h.entering d e t hd he
  known := h.known
  found d i t hd := by
    rcases setCall_call_cases hd with ⟨-, hcall⟩ | ⟨-, hd⟩
    · exact hfound i t hcall
    · exact h.found d i t hd
  erasing d i t hd := by
    rcases setCall_call_cases hd with ⟨-, hcall⟩ | ⟨-, hd⟩
    · exact herasing i t hcall
    · exact h.erasing d i t hd
  alone d e i hi hd he := by
    by_cases hdc : d = c
    · by_cases hec : e = c
      · rw [hdc, hec]
      · rw [hdc, setCall_call_self] at hd
        rw [setCall_call_of_ne hec] at he
        exact absurd (halone e i hi hd he) hec
    · rw [setCall_call_of_ne hdc] at hd
      by_cases hec : e = c
      · rw [hec, setCall_call_self] at he
        exact absurd (halone d i hi he hd) hdc
      · rw [setCall_call_of_ne hec] at he
        exact h.alone d e i hi hd he
  quiet i t ht hq := by
    have hc : call ≠ .erasing i := by simpa [setCall_call_self] using hq c
    by_cases hold : s.call c = .erasing i
    · exact hquiet i t ht hold hc
    · exact h.quiet i t ht (not_erasing_of_setCall hold hq)

theorem Counted.setCall_plain (h : Counted s) (hold : (s.call c).target = none)
    (hsetUp : ∀ t, call ≠ .setUp t) (hplain : call.target = none) : Counted (s.setCall c call) := by
  refine h.setCall hsetUp ?_ ?_ ?_ ?_
  · rintro i t rfl
    cases hplain
  · rintro i t rfl
    cases hplain
  · intro d i _ htarget
    rw [hplain] at htarget
    cases htarget
  · intro i t _ hc
    rw [hc] at hold
    cases hold

theorem Counted.countId (h : Counted s) : Counted s.countId :=
  ⟨⟨h.book.active, h.book.kprocess, h.book.eprocess, h.book.once⟩, h.liveMade, h.unmade, h.setUp, h.entering, h.known,
    h.found, h.erasing, h.alone, h.quiet⟩

theorem Counted.findThread (h : Counted s) (hidle : s.call c = .idle)
    (hapart : s.threads id ≠ none → ∀ d, (s.call d).target ≠ some id) :
    Counted (s.setCall c ((s.threads id).elim (.erasing id) (.found id))) := by
  have hquiet : ∀ i t, s.threads i = some t → s.call c = .erasing i → ∀ call : Call,
      call ≠ .erasing i → t ∈ s.live := by
    intro i t _ hc
    simp [hidle] at hc
  cases hid : s.threads id with
  | some t =>
    have hsome : s.threads id ≠ none := by simp [hid]
    rw [Option.elim_some]
    refine h.setCall (by simp) ?_ (by simp) ?_ fun i u hu hc => hquiet i u hu hc _
    · intro i u hu
      obtain ⟨rfl, rfl⟩ := Call.found.inj hu
      exact ⟨hid, h.quiet id t hid fun d hd => hapart hsome d (by rw [hd]; rfl)⟩
    · intro d i _ hcall hd
      obtain rfl := Option.some.inj hcall
      exact absurd hd (hapart hsome d)
  | none =>
    rw [Option.elim_none]
    refine h.setCall (by simp) (by simp) ?_ ?_ fun i u hu hc => hquiet i u hu hc _
    · intro i u hi hu
      obtain rfl := Call.erasing.inj hi
      rw [hid] at hu
      cases hu
    · intro d i hi hcall _
      obtain rfl := Option.some.inj hcall
      exact absurd hid hi

theorem Counted.destroyEthread (h : Counted s)
    (hc : s.call c = .found id t) : Counted ((s.destroyEthread t).setCall c (.erasing id)) := by
  obtain ⟨hthread, hlive⟩ := h.found c id t hc
  obtain ⟨hmade, hid⟩ := h.known id t hthread
  have hmem : ∀ u, u ∈ s.live.erase t ↔ u ≠ t ∧ u ∈ s.live := fun u => h.book.nodup.mem_erase_iff
  have hbook := h.book.destroyEthread hlive hmade
  have htarget : ∀ d, (((s.destroyEthread t).setCall c (.erasing id)).call d).target = (s.call d).target := by
    intro d
    by_cases hdc : d = c
    · rw [hdc, setCall_call_self, hc]
      rfl
    · rw [setCall_call_of_ne hdc]
      rfl
  exact {
    book := ⟨hbook.active, hbook.kprocess, hbook.eprocess, hbook.once⟩
    liveMade := fun u hu => h.liveMade u ((hmem u).mp hu).2
    unmade := by
      intro u hu
      have hne : u ≠ t := by
        rintro rfl
        exact Bool.false_ne_true (hu.symm.trans hmade)
      simpa [State.setCall, State.destroyEthread, hne] using h.unmade u hu
    setUp := by
      intro d u hd
      obtain ⟨-, hd⟩ := call_of_setCall (by simp) hd
      obtain ⟨hu, hul, hnone⟩ := h.setUp d u hd
      refine ⟨hu, (hmem u).mpr ⟨?_, hul⟩, hnone⟩
      rintro rfl
      rw [hid, hthread] at hnone
      cases hnone
    entering := by
      intro d e u hd he
      obtain ⟨-, hd⟩ := call_of_setCall (by simp) hd
      obtain ⟨-, he⟩ := call_of_setCall (by simp) he
      exact h.entering d e u hd he
    known := h.known
    found := by
      intro d i u hd
      obtain ⟨hdc, hold⟩ := call_of_setCall (by simp) hd
      obtain ⟨hu, hul⟩ := h.found d i u hold
      refine ⟨hu, (hmem u).mpr ⟨?_, hul⟩⟩
      rintro rfl
      obtain rfl := (h.known i u hu).2.symm.trans hid
      exact hdc (h.alone d c i (by simp [hu]) (congrArg Call.target hold) (congrArg Call.target hc))
    erasing := by
      intro d i u hd hu hul
      obtain ⟨hut, hul⟩ := (hmem u).mp hul
      rcases setCall_call_cases hd with ⟨-, hcall⟩ | ⟨-, hd⟩
      · obtain rfl := Call.erasing.inj hcall
        exact hut (Option.some.inj (hu.symm.trans hthread))
      · exact h.erasing d i u hd hu hul
    alone := by
      intro d e i hi hd he
      rw [htarget] at hd he
      exact h.alone d e i hi hd he
    quiet := by
      intro i u hu hq
      have hi : id ≠ i := fun hi => hq c ((setCall_call_self ..).trans (congrArg Call.erasing hi))
      have hold : ∀ d, s.call d ≠ .erasing i :=
        not_erasing_of_setCall (s := s.destroyEthread t) (hc.trans_ne (by simp)) hq
      refine (hmem u).mpr ⟨?_, h.quiet i u hu hold⟩
      rintro rfl
      exact hi (hid.symm.trans (h.known i u hu).2) }

theorem Counted.eraseThread (h : Counted s) (hids : IdsApart s)
    (hc : s.call c = .erasing id) : Counted ((s.eraseThread id).setCall c .idle) := by
  unfold State.eraseThread
  split
  · rename_i hnone
    refine h.setCall (by simp) (by simp) (by simp) (by simp [Call.target]) ?_
    intro i t ht hct
    obtain rfl := Call.erasing.inj (hc.symm.trans hct)
    rw [hnone] at ht
    cases ht
  · rename_i hsome
    obtain ⟨t, ht⟩ := Option.ne_none_iff_exists'.mp hsome
    obtain ⟨hmade, hid⟩ := h.known id t ht
    have hlive : t ∉ s.live := h.erasing c id t hc ht
    have hsame : (s.live.filter fun u => s.idOf u ≠ id) = s.live := by
      refine List.filter_eq_self.mpr fun u hu => decide_eq_true fun hui => hlive ?_
      rwa [hids.inj t u hmade (h.liveMade u hu) (hid.trans hui.symm)]
    have hsub : ∀ i u, Function.update s.threads id none i = some u → i ≠ id ∧ s.threads i = some u := by
      intro i u hu
      by_cases hi : i = id
      · simp [hi] at hu
      · exact ⟨hi, by simpa [hi] using hu⟩
    rw [hsame]
    refine Counted.setCall (s := { s with threads := Function.update s.threads id none }) ?_
      (by simp) (by simp) (by simp) (by simp [Call.target]) ?_
    · exact {
        book := ⟨h.book.active, h.book.kprocess, h.book.eprocess, h.book.once⟩
        liveMade := h.liveMade
        unmade := h.unmade
        setUp := by
          intro d u hd
          obtain ⟨hu, hul, hnone⟩ := h.setUp d u hd
          refine ⟨hu, hul, ?_⟩
          by_cases hi : s.idOf u = id <;> simp [hi, hnone]
        entering := h.entering
        known := fun i u hu => h.known i u (hsub i u hu).2
        found := by
          intro d i u hd
          obtain ⟨hu, hul⟩ := h.found d i u hd
          have hi : i ≠ id := by
            rintro rfl
            exact hlive (Option.some.inj (hu.symm.trans ht) ▸ hul)
          exact ⟨by simpa [hi] using hu, hul⟩
        erasing := fun d i u hd hu => h.erasing d i u hd (hsub i u hu).2
        alone := by
          intro d e i hi
          obtain ⟨u, hu⟩ := Option.ne_none_iff_exists'.mp hi
          exact h.alone d e i (by simp [(hsub i u hu).2])
        quiet := fun i u hu => h.quiet i u (hsub i u hu).2 }
    · intro i u hu hct
      obtain rfl := Call.erasing.inj (hc.symm.trans hct)
      exact absurd rfl (hsub _ u hu).1

theorem Counted.step {s' : State} (h : Counted s) (hids : IdsApart s) (hok : CallsApart s e)
    (hstep : step s e = some s') : Counted s' := by
  cases e with
  | readId c =>
    simp only [ThreadLists.step] at hstep
    split at hstep <;> cases hstep
    rename_i hc
    exact h.setCall_plain (by rw [hc]; rfl) (by simp) rfl
  | countId c =>
    simp only [ThreadLists.step] at hstep
    split at hstep <;> cases hstep
    rename_i id hc
    exact h.countId.setCall_plain (congrArg Call.target hc) (by simp) rfl
  | giveId c =>
    simp only [ThreadLists.step] at hstep
    split at hstep <;> cases hstep
    rename_i id hc
    exact h.setCall_plain (by rw [hc]; rfl) (by simp) rfl
  | setupEthread c t =>
    simp only [ThreadLists.step] at hstep
    split at hstep
    · simp only [Option.ite_none_left_eq_some, Option.some.injEq] at hstep
      exact hstep.2 ▸ h.setupEthread hids ‹_› (Bool.eq_false_iff.mpr hstep.1)
    · cases hstep
  | register c =>
    simp only [ThreadLists.step] at hstep
    split at hstep <;> cases hstep
    rename_i t hc
    exact h.register hids hc (hok t hc)
  | findThread c id =>
    simp only [ThreadLists.step] at hstep
    split at hstep <;> cases hstep
    exact h.findThread ‹_› hok
  | destroyEthread c =>
    simp only [ThreadLists.step] at hstep
    split at hstep <;> cases hstep
    exact h.destroyEthread ‹_›
  | eraseThread c =>
    simp only [ThreadLists.step] at hstep
    split at hstep <;> cases hstep
    exact h.eraseThread hids ‹_›

theorem counted_start : Counted {} where
  book := by
    refine ⟨rfl, ?_, ?_, by simp⟩
    · exact isRing_init _ none
    · exact isRing_init _ none
  liveMade := by simp
  unmade := by simp
  setUp := by simp
  entering := by simp
  known := by simp
  found := by simp
  erasing := by simp
  alone := by simp
  quiet := by simp

theorem idsApart_start : IdsApart {} := by
  constructor <;> simp

/-- **The books are right** in every run in which no two calls of `allocate_id`, and no two calls that find one thread,
overlap. -/
theorem bookkept_of_callsApart {events : List Event} {s : State}
    (hrun : Run.Steps step CallsApart {} events s) : Bookkept s := by
  obtain ⟨-, hcounted⟩ : IdsApart s ∧ Counted s := hrun.invariant (P := fun s => IdsApart s ∧ Counted s)
    (fun _ _ _ ⟨hids, h⟩ hok hstep => ⟨hids.step hok hstep, h.step hids hok hstep⟩) ⟨idsApart_start, counted_start⟩
  exact hcounted.book

/-! ## Three cpus -/

def Event.cpu : Event → CpuId
  | .readId c => c
  | .countId c => c
  | .giveId c => c
  | .setupEthread c _ => c
  | .register c => c
  | .findThread c _ => c
  | .destroyEthread c => c
  | .eraseThread c => c

/-- `CallsApart` where the calls are made by three cpus. -/
def apartOnThree (s : State) (e : Event) : Bool :=
  decide (e.cpu < 3) && match e with
    | .readId _ => decide (∀ c : Nat, c < 3 → (s.call c).inAllocateId = false)
    | .countId _ => decide (s.nextId + 4 < 2 ^ 32)
    | .register c =>
      match s.call c with
      | .setUp t => decide (∀ d : Nat, d < 3 → s.call d ≠ .erasing (s.idOf t))
      | _ => true
    | .findThread _ id => decide (∀ c : Nat, c < 3 → (s.call c).target ≠ some id)
    | _ => true

theorem step_call {s' : State} (hstep : step s e = some s') {d : CpuId} (hd : d ≠ e.cpu) :
    s'.call d = s.call d := by
  have herase : ∀ id, (s.eraseThread id).call = s.call := by
    intro id
    unfold State.eraseThread
    split <;> rfl
  cases e with
  | setupEthread c t =>
    simp only [step] at hstep
    split at hstep
    · simp only [Option.ite_none_left_eq_some, Option.some.injEq] at hstep
      rw [← hstep.2]
      exact setCall_call_of_ne hd
    · cases hstep
  | eraseThread c =>
    simp only [step] at hstep
    split at hstep <;> cases hstep
    exact (setCall_call_of_ne hd).trans (congrFun (herase _) d)
  | _ =>
    simp only [step] at hstep
    split at hstep <;> cases hstep
    exact setCall_call_of_ne hd

theorem apartOnThree_step {s' : State} (h : ∀ c, 3 ≤ c → s.call c = .idle)
    (hcheck : apartOnThree s e = true) (hstep : step s e = some s') : ∀ c, 3 ≤ c → s'.call c = .idle := by
  intro d hd
  have hcpu : e.cpu < 3 := of_decide_eq_true (Bool.and_eq_true_iff.mp hcheck).1
  rw [step_call hstep (Nat.ne_of_gt (Nat.lt_of_lt_of_le hcpu hd))]
  exact h d hd

theorem callsApart_of_apartOnThree (h : ∀ c, 3 ≤ c → s.call c = .idle)
    (hcheck : apartOnThree s e = true) : CallsApart s e := by
  have hall : ∀ p : Call → Prop, p .idle → (∀ c < 3, p (s.call c)) → ∀ c, p (s.call c) := by
    intro p hidle hp c
    rcases Nat.lt_or_ge c 3 with hc | hc
    · exact hp c hc
    · rwa [h c hc]
  have hbody := (Bool.and_eq_true_iff.mp hcheck).2
  cases e with
  | readId c => exact hall (fun call => call.inAllocateId = false) rfl (of_decide_eq_true hbody)
  | countId c =>
    show s.nextId + 4 < 2 ^ 32
    exact of_decide_eq_true hbody
  | register c =>
    intro t ht
    dsimp only at hbody
    rw [ht] at hbody
    exact hall (fun call => call ≠ .erasing (s.idOf t)) (by simp) (of_decide_eq_true hbody)
  | findThread c id =>
    intro _
    exact hall (fun call => call.target ≠ some id) (by simp [Call.target]) (of_decide_eq_true hbody)
  | _ => trivial

/-- Two cpus end a thread each at the same time while the third one creates one. -/
def endedApart : List Event :=
  [.readId 0, .countId 0, .giveId 0] ++ creates 0 0x8000 ++ creates 1 0x9000 ++
    [.readId 2, .countId 2, .findThread 0 8, .findThread 1 12, .setupEthread 2 0xa000, .destroyEthread 1, .register 2,
      .destroyEthread 0, .eraseThread 1, .eraseThread 0, .findThread 1 12, .eraseThread 1]

theorem bookkept_endedApart : ∃ s, Run.Steps step CallsApart {} endedApart s ∧ s.live = [0xa000] ∧
    s.idOf 0xa000 = 16 ∧ s.activeThreads = 1 ∧ Bookkept s := by
  have hexec : (Run.exec step apartOnThree {} endedApart).map (fun s => (s.live, s.idOf 0xa000, s.activeThreads)) =
      some ([0xa000], 16, 1) := by decide +kernel
  obtain ⟨s, hs, hfacts⟩ := Option.map_eq_some_iff.mp hexec
  obtain ⟨hlive, hid, hactive⟩ : s.live = [0xa000] ∧ s.idOf 0xa000 = 16 ∧ s.activeThreads = 1 := by simpa using hfacts
  have hrun : Run.Steps step CallsApart {} endedApart s :=
    Run.Steps.of_exec_invariant (P := fun s => ∀ c, 3 ≤ c → s.call c = .idle)
      (fun _ _ _ h hcheck hstep => apartOnThree_step h hcheck hstep)
      (fun _ _ h hcheck => callsApart_of_apartOnThree h hcheck) (by simp) hs
  exact ⟨s, hrun, hlive, hid, hactive, bookkept_of_callsApart hrun⟩

end Kernemul.ThreadLists
