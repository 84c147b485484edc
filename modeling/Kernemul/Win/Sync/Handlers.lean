import Kernemul.Emu.Defs
import Kernemul.Lib.Run
import Kernemul.Win.Sync.Dispatcher

/-!
# Handlers of dispatcher objects

The handlers of `nt_sync_ops.cpp`, `nt_dispatch_ops.cpp`, `nt_misc_ops.cpp` and `nt_wait_ops.cpp` that
initialise, signal and wait for events, mutants and semaphores. A handler runs to its end, or to the first
access of memory that is not mapped, before another one begins. The walk that wakes waiters is over the
threads of `sys_proc`.
-/

namespace Kernemul.Sync

inductive Result
  | success
  | invalidHandle
  | invalidParameter
  | mutantNotOwned
  | semaphoreLimitExceeded
  | previous (state : Int)
  /-- An access of memory that is not mapped has been thrown out of the handler. -/
  | faulted
  deriving DecidableEq, Repr

def sysProc : Pid := 0

def maximumWaitObjects : Nat := 64

/-- `read_timeout`: the deadline of a wait. -/
def deadline (now : Int) (ticks : Int) : Int := if ticks < 0 then i64 (now - ticks) else ticks

inductive Timeout
  | null
  | ticks (n : Int)
  | unmapped
  deriving DecidableEq, Repr

/-- The read in `read_timeout`: none when it is thrown out of the handler. -/
def Timeout.read : Timeout → Option (Option Int)
  | .null => some none
  | .ticks n => some (some n)
  | .unmapped => none

def Kind.isEvent (k : Kind) : Bool := k = .eventNotification || k = .eventSynchronization

namespace State

/-- `init_dispatcher`: the fields past the header stay as they are. -/
def initDispatcher (s : State) (a : Addr) (kind : Kind) (state : Int) : State :=
  s.setObj a { s.objs a with kind, state }

def setState (s : State) (a : Addr) (state : Int) : State := s.setObj a { s.objs a with state }

def recordInit (s : State) (self a : Addr) : State := s.record (.init self a (s.objs a))

/-- `create_dispatcher`: `a` is where the object manager puts the body. -/
def createDispatcher (s : State) (a : Addr) (o : Object) : State :=
  { s with
    objs := Function.update s.objs a o
    host := Function.update s.host a (some o.kind)
    handles := Function.update s.handles s.nextHandle (some a)
    nextHandle := s.nextHandle + 4 }

def resolve (s : State) (handle : Nat) (expected : Kind) : Option Addr :=
  match s.handles handle with
  | some a =>
    match s.host a with
    | some kind => if kind = expected ∨ (expected.isEvent ∧ kind.isEvent) then some a else none
    | none => none
  | none => none

end State

/-- The handlers, with their arguments; `addr` is where an object is created. -/
inductive Call
  | keInitializeEvent (event : Addr) (type state : Nat)
  | ntCreateEvent (addr : Addr) (type : Nat) (initialState : Bool)
  | keSetEvent (event : Addr)
  | ntSetEvent (handle : Nat) (previousState : Operand)
  | keResetEvent (event : Addr)
  | ntResetEvent (handle : Nat) (previousState : Operand)
  | keInitializeMutex (mutex : Addr)
  | keInitializeMutant (mutant : Addr) (initialOwner : Bool)
  | ntCreateMutant (addr : Addr) (initialOwner : Bool)
  | keReleaseMutex (mutex : Addr)
  | ntReleaseMutant (handle : Nat) (previousCount : Operand)
  | keInitializeSemaphore (semaphore : Addr) (count limit : Int)
  | ntCreateSemaphore (addr : Addr) (initialCount maximumCount : Int)
  | keReleaseSemaphore (semaphore : Addr) (adjustment : Int)
  | ntReleaseSemaphore (handle : Nat) (releaseCount : Int) (previousCount : Operand)
  | keWaitForSingleObject (object : Addr) (timeout : Timeout) (now : Int)
  | keWaitForMultipleObjects (objects : List Addr) (waitType : Nat) (timeout : Timeout) (now : Int)
  | ntWaitForSingleObject (handle : Nat) (timeout : Timeout) (now : Int)
  | ntWaitForMultipleObjects (handles : List Nat) (waitType : Nat) (timeout : Timeout) (now : Int)
  | ntSignalAndWaitForSingleObject (signalHandle waitHandle : Nat) (timeout : Timeout) (now : Int)
  deriving DecidableEq, Repr

namespace State

def makeWait (objects : List Addr) (waitType : Nat) (timeout : Option Int) (now : Int) : Wait where
  objects
  all := waitType = 0
  deadline := (timeout.map (deadline now)).getD 0
  timed := timeout.isSome

/-- A signal: the object is written, its old state goes where the caller wants it, and the waiters in
`sys_proc` are woken, unless the caller's memory was not there. -/
def signal (s : State) (a : Addr) (o : Object) (previous : Operand) : State :=
  if previous = .unmapped then s.setObj a o else (s.setObj a o).wakeWaiters sysProc a

def setEvent (s : State) (a : Addr) (previous : Operand) : State :=
  s.signal a { s.objs a with state := 1 } previous

def releaseOnce (o : Object) : Object := { o with state := i32 (o.state + 1), owner := 0 }

def releaseMutant (s : State) (self a : Addr) (previous : Operand) : State :=
  (s.record (.released self a 1)).signal a (releaseOnce (s.objs a)) previous

def releaseSemaphore (s : State) (self a : Addr) (n : Int) (previous : Operand) : State :=
  (s.record (.released self a n)).signal a { s.objs a with state := i32 ((s.objs a).state + n) } previous

/-- The object `NtSignalAndWaitForSingleObject` leaves. -/
def signalled (o : Object) : Object :=
  match o.kind with
  | .semaphore => { o with state := i32 (o.state + 1) }
  | .mutant => releaseOnce o
  | _ => { o with state := 1 }

/-- The signal half of `NtSignalAndWaitForSingleObject`. -/
def signalHalf (s : State) (self a : Addr) : State :=
  (s.record (.released self a 1)).signal a (signalled (s.objs a)) .null

end State

open State

/-- `begin_wait` of `nt_wait_ops.cpp`: nothing waits when the timeout cannot be read. -/
def State.timedWait (s : State) (t : Tid) (objects : List Addr) (waitType : Nat) (timeout : Timeout)
    (now : Int) : State × Result :=
  match timeout.read with
  | some ticks => (s.beginWait t (makeWait objects waitType ticks now), .success)
  | none => (s, .faulted)

def Result.of (previous : Operand) : Result := if previous = .unmapped then .faulted else .success

def Call.run (s : State) (t : Tid) (self : Addr) : Call → State × Result
  | .keInitializeEvent a type state =>
    if a = 0 then (s, .success)
    else
      ((s.initDispatcher a (if type = 0 then .eventNotification else .eventSynchronization)
        (if state = 0 then 0 else 1)).recordInit self a, .success)
  | .ntCreateEvent a type initialState =>
    ((s.createDispatcher a
      { kind := if type = 0 then .eventNotification else .eventSynchronization
        state := if initialState then 1 else 0 }).recordInit self a, .success)
  | .keSetEvent a => if a = 0 then (s, .previous 0) else (s.setEvent a .null, .previous (s.objs a).state)
  | .ntSetEvent h previousState =>
    match s.resolve h .eventNotification with
    | some a => (s.setEvent a previousState, .of previousState)
    | none => (s, .invalidHandle)
  | .keResetEvent a => if a = 0 then (s, .previous 0) else (s.setState a 0, .previous (s.objs a).state)
  | .ntResetEvent h previousState =>
    match s.resolve h .eventNotification with
    | some a => (s.setState a 0, .of previousState)
    | none => (s, .invalidHandle)
  | .keInitializeMutex a =>
    if a = 0 then (s, .success)
    else
      ((s.setObj a { s.objs a with kind := .mutant, state := 1, owner := 0 }).recordInit self a,
        .success)
  | .keInitializeMutant a initialOwner =>
    if a = 0 then (s, .success)
    else ((s.initDispatcher a .mutant (if initialOwner then 0 else 1)).recordInit self a, .success)
  | .ntCreateMutant a initialOwner =>
    ((s.createDispatcher a
      { kind := .mutant
        state := if initialOwner then 0 else 1
        owner := if initialOwner then self else 0 }).recordInit self a, .success)
  | .keReleaseMutex a =>
    if a = 0 then (s, .previous 0) else (s.releaseMutant self a .null, .previous (s.objs a).state)
  | .ntReleaseMutant h previousCount =>
    match s.resolve h .mutant with
    | some a =>
      if 0 < (s.objs a).state then (s, .mutantNotOwned)
      else (s.releaseMutant self a previousCount, .of previousCount)
    | none => (s, .invalidHandle)
  | .keInitializeSemaphore a count limit =>
    if a = 0 then (s, .success)
    else
      ((s.setObj a { s.objs a with kind := .semaphore, state := count, limit }).recordInit self a,
        .success)
  | .ntCreateSemaphore a initialCount maximumCount =>
    if maximumCount ≤ 0 ∨ initialCount < 0 ∨ maximumCount < initialCount then (s, .invalidParameter)
    else
      ((s.createDispatcher a
        { kind := .semaphore, state := initialCount, limit := maximumCount }).recordInit self a,
        .success)
  | .keReleaseSemaphore a adjustment =>
    if a = 0 then (s, .previous 0)
    else if (s.objs a).limit < i32 ((s.objs a).state + adjustment) then (s, .previous (s.objs a).state)
    else (s.releaseSemaphore self a adjustment .null, .previous (s.objs a).state)
  | .ntReleaseSemaphore h releaseCount previousCount =>
    match s.resolve h .semaphore with
    | some a =>
      if releaseCount ≤ 0 then (s, .invalidParameter)
      else if (s.objs a).limit < i32 ((s.objs a).state + releaseCount) then (s, .semaphoreLimitExceeded)
      else (s.releaseSemaphore self a releaseCount previousCount, .of previousCount)
    | none => (s, .invalidHandle)
  | .keWaitForSingleObject a timeout now =>
    if a = 0 then (s, .invalidParameter) else s.timedWait t [a] 1 timeout now
  | .keWaitForMultipleObjects objects waitType timeout now =>
    if objects = [] ∨ maximumWaitObjects < objects.length then (s, .invalidParameter)
    else s.timedWait t objects waitType timeout now
  | .ntWaitForSingleObject h timeout now =>
    match s.handles h with
    | some a => s.timedWait t [a] 1 timeout now
    | none => (s, .invalidHandle)
  | .ntWaitForMultipleObjects hs waitType timeout now =>
    if hs = [] ∨ maximumWaitObjects < hs.length then (s, .invalidParameter)
    else
      match hs.mapM s.handles with
      | some objects => s.timedWait t objects waitType timeout now
      | none => (s, .invalidHandle)
  | .ntSignalAndWaitForSingleObject sh wh timeout now =>
    match s.handles sh, s.handles wh with
    | some a, some b => (s.signalHalf self a).timedWait t [b] 1 timeout now
    | _, _ => (s, .invalidHandle)

/-- What happens next: a thread that is not in a wait calls a handler, a thread whose wait is over is
given a cpu, or a process ends one of its threads. -/
inductive Action
  | call (t : Tid) (c : Call)
  | ready (t : Tid) (now : Int)
  | terminate (p : Pid) (t : Tid)
  deriving DecidableEq, Repr

namespace State

/-- `destroy_ethread`, and the erasing from `threads_`. -/
def terminateThread (s : State) (p : Pid) (t : Tid) (et : Addr) : State :=
  let s := (s.setState et 1).wakeWaiters p et
  { s with
    thread := Function.update s.thread t none
    tids := Function.update s.tids p ((s.tids p).erase t) }

end State

def step (s : State) : Action → Option State
  | .call t c =>
    match s.thread t with
    | some th => if th.wait = none then some (c.run s t th.ethread).1 else none
    | none => none
  | .ready t now => (s.isReady t now).map Prod.fst
  | .terminate p t =>
    match s.thread t with
    | some th => if t ∈ s.tids p then some (s.terminateThread p t th.ethread) else none
    | none => none

/-! ## What a handler does

A handler writes one object at most, which may be for the waiters to see, and may park the caller then.
-/

structure Write where
  addr : Addr
  obj : Object
  event : Option Event := none
  walked : Bool := true

namespace State

def put (s : State) (w : Write) : State :=
  { s with objs := Function.update s.objs w.addr w.obj, log := w.event.toList ++ s.log }

def write (s : State) (w : Write) : State :=
  if w.walked then (s.put w).wakeWaiters sysProc w.addr else s.put w

structure Agrees (s s' : State) : Prop where
  objs : s'.objs = s.objs
  thread : s'.thread = s.thread
  tids : s'.tids = s.tids
  log : s'.log = s.log

end State

def Call.write (s : State) (self : Addr) : Call → Option Write
  | .keInitializeEvent a type state =>
    let o := { s.objs a with
      kind := if type = 0 then .eventNotification else .eventSynchronization
      state := if state = 0 then 0 else 1 }
    if a = 0 then none else some ⟨a, o, some (.init self a o), false⟩
  | .ntCreateEvent a type initialState =>
    let o : Object :=
      { kind := if type = 0 then .eventNotification else .eventSynchronization
        state := if initialState then 1 else 0 }
    some ⟨a, o, some (.init self a o), false⟩
  | .keSetEvent a => if a = 0 then none else some ⟨a, { s.objs a with state := 1 }, none, true⟩
  | .ntSetEvent h previousState =>
    (s.resolve h .eventNotification).map fun a =>
      ⟨a, { s.objs a with state := 1 }, none, previousState ≠ .unmapped⟩
  | .keResetEvent a => if a = 0 then none else some ⟨a, { s.objs a with state := 0 }, none, false⟩
  | .ntResetEvent h _ =>
    (s.resolve h .eventNotification).map fun a => ⟨a, { s.objs a with state := 0 }, none, false⟩
  | .keInitializeMutex a =>
    let o := { s.objs a with kind := .mutant, state := 1, owner := 0 }
    if a = 0 then none else some ⟨a, o, some (.init self a o), false⟩
  | .keInitializeMutant a initialOwner =>
    let o := { s.objs a with kind := .mutant, state := if initialOwner then 0 else 1 }
    if a = 0 then none else some ⟨a, o, some (.init self a o), false⟩
  | .ntCreateMutant a initialOwner =>
    let o : Object :=
      { kind := .mutant
        state := if initialOwner then 0 else 1
        owner := if initialOwner then self else 0 }
    some ⟨a, o, some (.init self a o), false⟩
  | .keReleaseMutex a =>
    if a = 0 then none else some ⟨a, releaseOnce (s.objs a), some (.released self a 1), true⟩
  | .ntReleaseMutant h previousCount =>
    (s.resolve h .mutant).bind fun a =>
      if 0 < (s.objs a).state then none
      else
        some ⟨a, releaseOnce (s.objs a), some (.released self a 1), previousCount ≠ .unmapped⟩
  | .keInitializeSemaphore a count limit =>
    let o := { s.objs a with kind := .semaphore, state := count, limit }
    if a = 0 then none else some ⟨a, o, some (.init self a o), false⟩
  | .ntCreateSemaphore a initialCount maximumCount =>
    let o : Object := { kind := .semaphore, state := initialCount, limit := maximumCount }
    if maximumCount ≤ 0 ∨ initialCount < 0 ∨ maximumCount < initialCount then none
    else some ⟨a, o, some (.init self a o), false⟩
  | .keReleaseSemaphore a n =>
    if a = 0 ∨ (s.objs a).limit < i32 ((s.objs a).state + n) then none
    else some ⟨a, { s.objs a with state := i32 ((s.objs a).state + n) }, some (.released self a n), true⟩
  | .ntReleaseSemaphore h n previousCount =>
    (s.resolve h .semaphore).bind fun a =>
      if n ≤ 0 ∨ (s.objs a).limit < i32 ((s.objs a).state + n) then none
      else
        some ⟨a, { s.objs a with state := i32 ((s.objs a).state + n) }, some (.released self a n),
          previousCount ≠ .unmapped⟩
  | .ntSignalAndWaitForSingleObject sh wh _ _ =>
    match s.handles sh, s.handles wh with
    | some a, some _ => some ⟨a, signalled (s.objs a), some (.released self a 1), true⟩
    | _, _ => none
  | _ => none

def Timeout.wait (timeout : Timeout) (objects : List Addr) (waitType : Nat) (now : Int) : Option Wait :=
  timeout.read.map fun ticks => makeWait objects waitType ticks now

def Call.wait (s : State) : Call → Option Wait
  | .keWaitForSingleObject a timeout now => if a = 0 then none else timeout.wait [a] 1 now
  | .keWaitForMultipleObjects objects waitType timeout now =>
    if objects = [] ∨ maximumWaitObjects < objects.length then none
    else timeout.wait objects waitType now
  | .ntWaitForSingleObject h timeout now =>
    (s.handles h).bind fun a => timeout.wait [a] 1 now
  | .ntWaitForMultipleObjects hs waitType timeout now =>
    if hs = [] ∨ maximumWaitObjects < hs.length then none
    else (hs.mapM s.handles).bind fun objects => timeout.wait objects waitType now
  | .ntSignalAndWaitForSingleObject sh wh timeout now =>
    match s.handles sh, s.handles wh with
    | some _, some b => timeout.wait [b] 1 now
    | _, _ => none
  | _ => none

namespace State

def writes (s : State) (w : Option Write) : State := w.elim s s.write

def waits (s : State) (t : Tid) (w : Option Wait) : State := w.elim s (s.beginWait t)

end State

def State.created (s : State) (a : Addr) (kind : Kind) : State :=
  { s with
    host := Function.update s.host a (some kind)
    handles := Function.update s.handles s.nextHandle (some a)
    nextHandle := s.nextHandle + 4 }

def Call.tables (s : State) : Call → State
  | .ntCreateEvent a type _ =>
    s.created a (if type = 0 then .eventNotification else .eventSynchronization)
  | .ntCreateMutant a _ => s.created a .mutant
  | .ntCreateSemaphore a initialCount maximumCount =>
    if maximumCount ≤ 0 ∨ initialCount < 0 ∨ maximumCount < initialCount then s
    else s.created a .semaphore
  | _ => s

theorem Call.agrees_tables (s : State) (c : Call) : s.Agrees (c.tables s) := by
  cases c with
  | ntCreateSemaphore a initialCount maximumCount =>
    simp only [Call.tables]
    split <;> exact ⟨rfl, rfl, rfl, rfl⟩
  | _ => exact ⟨rfl, rfl, rfl, rfl⟩

theorem Call.tables_of_none {s : State} {self : Addr} {c : Call} (h : c.write s self = none) :
    c.tables s = s := by
  cases c with
  | ntCreateEvent _ _ _ | ntCreateMutant _ _ => cases h
  | ntCreateSemaphore a initialCount maximumCount =>
    simp only [Call.tables]
    simp only [Call.write] at h
    split
    · rfl
    · rename_i hok
      rw [if_neg hok] at h
      cases h
  | _ => rfl

theorem State.createDispatcher_eq (s : State) (self a : Addr) (o : Object) :
    (s.createDispatcher a o).recordInit self a =
      (s.created a o.kind).write ⟨a, o, some (.init self a o), false⟩ := by
  simp [createDispatcher, recordInit, record, State.write, State.put, State.created]

namespace State

theorem signal_eq (s : State) (a : Addr) (o : Object) (event : Event) (previous : Operand) :
    (s.record event).signal a o previous = s.write ⟨a, o, some event, previous ≠ .unmapped⟩ := by
  cases previous <;> rfl

theorem setEvent_eq (s : State) (a : Addr) (previous : Operand) : s.setEvent a previous =
    s.write ⟨a, { s.objs a with state := 1 }, none, previous ≠ .unmapped⟩ := by
  cases previous <;> rfl

theorem releaseMutant_eq (s : State) (self a : Addr) (previous : Operand) :
    s.releaseMutant self a previous = s.write
      ⟨a, releaseOnce (s.objs a), some (.released self a 1), previous ≠ .unmapped⟩ :=
  s.signal_eq a _ _ previous

theorem releaseSemaphore_eq (s : State) (self a : Addr) (n : Int) (previous : Operand) :
    s.releaseSemaphore self a n previous = s.write
      ⟨a, { s.objs a with state := i32 ((s.objs a).state + n) }, some (.released self a n),
        previous ≠ .unmapped⟩ :=
  s.signal_eq a _ _ previous

theorem timedWait_eq (s : State) (t : Tid) (objects : List Addr) (waitType : Nat) (timeout : Timeout)
    (now : Int) : (s.timedWait t objects waitType timeout now).1 =
      s.waits t (timeout.wait objects waitType now) := by
  cases timeout <;> rfl

end State

theorem Call.run_eq (s : State) (t : Tid) (self : Addr) (c : Call) :
    (c.run s t self).1 = ((c.tables s).writes (c.write s self)).waits t (c.wait s) := by
  cases c with
  | ntCreateEvent a type initialState => exact s.createDispatcher_eq self a _
  | ntCreateMutant a initialOwner => exact s.createDispatcher_eq self a _
  | ntCreateSemaphore a initialCount maximumCount =>
    by_cases h : maximumCount ≤ 0 ∨ initialCount < 0 ∨ maximumCount < initialCount
    · simp only [Call.run, Call.write, Call.tables, if_pos h]
      rfl
    · simp only [Call.run, Call.write, Call.tables, if_neg h]
      exact s.createDispatcher_eq self a _
  | keInitializeEvent a _ _ | keInitializeMutex a | keInitializeMutant a _
  | keInitializeSemaphore a _ _ =>
    by_cases h : a = 0
    · simp only [Call.run, Call.write, if_pos h]
      rfl
    · simp only [Call.run, Call.write, if_neg h]
      simp [initDispatcher, setObj, recordInit, record, State.writes, State.write, State.put, State.waits,
        Call.wait, Call.tables]
  | keSetEvent a | keResetEvent a | keReleaseMutex a =>
    by_cases h : a = 0
    · simp only [Call.run, Call.write, if_pos h]
      rfl
    · simp only [Call.run, Call.write, if_neg h]
      rfl
  | ntSetEvent h previousState =>
    simp only [Call.run, Call.write]
    cases s.resolve h .eventNotification with
    | none => rfl
    | some a => exact s.setEvent_eq a previousState
  | ntResetEvent h previousState =>
    simp only [Call.run, Call.write]
    cases s.resolve h .eventNotification <;> rfl
  | ntReleaseMutant h previousCount =>
    simp only [Call.run, Call.write]
    cases s.resolve h .mutant with
    | none => rfl
    | some a =>
      by_cases hs : 0 < (s.objs a).state
      · simp only [if_pos hs, Option.bind_some]
        rfl
      · simp only [if_neg hs, Option.bind_some]
        exact s.releaseMutant_eq self a previousCount
  | keReleaseSemaphore a n =>
    by_cases h : a = 0
    · simp only [Call.run, Call.write, if_pos h, if_pos (Or.inl h)]
      rfl
    · by_cases hl : (s.objs a).limit < i32 ((s.objs a).state + n)
      · simp only [Call.run, Call.write, if_neg h, if_pos hl, if_pos (Or.inr hl)]
        rfl
      · simp only [Call.run, Call.write, if_neg h, if_neg hl, if_neg (not_or.mpr ⟨h, hl⟩)]
        rfl
  | ntReleaseSemaphore h n previousCount =>
    simp only [Call.run, Call.write]
    cases s.resolve h .semaphore with
    | none => rfl
    | some a =>
      by_cases hn : n ≤ 0
      · simp only [if_pos hn, if_pos (Or.inl hn), Option.bind_some]
        rfl
      · by_cases hl : (s.objs a).limit < i32 ((s.objs a).state + n)
        · simp only [if_neg hn, if_pos hl, if_pos (Or.inr hl), Option.bind_some]
          rfl
        · simp only [if_neg hn, if_neg hl, if_neg (not_or.mpr ⟨hn, hl⟩), Option.bind_some]
          exact s.releaseSemaphore_eq self a n previousCount
  | keWaitForSingleObject a timeout now =>
    by_cases h : a = 0
    · simp only [Call.run, Call.wait, if_pos h]
      rfl
    · simp only [Call.run, Call.wait, if_neg h]
      exact s.timedWait_eq t [a] 1 timeout now
  | keWaitForMultipleObjects objects waitType timeout now =>
    by_cases h : objects = [] ∨ maximumWaitObjects < objects.length
    · simp only [Call.run, Call.wait, if_pos h]
      rfl
    · simp only [Call.run, Call.wait, if_neg h]
      exact s.timedWait_eq t objects waitType timeout now
  | ntWaitForSingleObject h timeout now =>
    simp only [Call.run, Call.wait]
    cases s.handles h with
    | none => rfl
    | some a => exact s.timedWait_eq t [a] 1 timeout now
  | ntWaitForMultipleObjects hs waitType timeout now =>
    by_cases h : hs = [] ∨ maximumWaitObjects < hs.length
    · simp only [Call.run, Call.wait, if_pos h]
      rfl
    · simp only [Call.run, Call.wait, if_neg h]
      cases hs.mapM s.handles with
      | none => rfl
      | some objects => exact s.timedWait_eq t objects waitType timeout now
  | ntSignalAndWaitForSingleObject sh wh timeout now =>
    simp only [Call.run, Call.write, Call.wait]
    cases s.handles sh with
    | none => rfl
    | some a =>
      cases s.handles wh with
      | none => rfl
      | some b => exact (s.signalHalf self a).timedWait_eq t [b] 1 timeout now

/-- A thread runs on when its wait has been satisfied, or its deadline has passed. -/
theorem State.isReady_eq_some {s : State} {t : Tid} {now : Int} {r : State × Nat}
    (h : s.isReady t now = some r) :
    ∃ th w, s.thread t = some th ∧ th.wait = some w ∧ r.1 = s.setThread t { th with wait := none } ∧
      (w.satisfied = true ∧ r.2 = w.status ∨
        w.satisfied = false ∧ w.timed = true ∧ w.deadline ≤ now ∧ r.2 = 0x102) := by
  unfold isReady at h
  split at h
  · rename_i th hth
    split at h
    · rename_i w hw
      refine ⟨th, w, hth, hw, ?_⟩
      split at h
      · rename_i hsat
        cases h
        exact ⟨rfl, .inl ⟨hsat, rfl⟩⟩
      · rename_i hsat
        split at h
        · rename_i hdue
          obtain ⟨htimed, hle⟩ := Bool.and_eq_true_iff.mp hdue
          cases h
          exact ⟨rfl, .inr ⟨Bool.eq_false_iff.mpr hsat, htimed, of_decide_eq_true hle, rfl⟩⟩
        · cases h
    · cases h
  · cases h

structure Closed (P : State → Prop) : Prop where
  satisfy : Stable P
  setThread : ∀ (s : State) (t : Tid) (th : Thread) (w : Option Wait), s.thread t = some th → P s →
    P (s.setThread t { th with wait := w })
  remove : ∀ (s : State) (t : Tid) (tids : Pid → List Tid), P s →
    P { s with thread := Function.update s.thread t none, tids }

section
variable {P : State → Prop} (hP : Closed P)
include hP

theorem Closed.run {s : State} {t : Tid} {self : Addr} {c : Call} (h : P s)
    (hwrite : ∀ w, c.write s self = some w → P ((c.tables s).put w)) : P (c.run s t self).1 := by
  rw [c.run_eq s t self]
  have hwrites : P ((c.tables s).writes (c.write s self)) := by
    cases hw : c.write s self with
    | none =>
      rw [Call.tables_of_none hw]
      exact h
    | some w =>
      show P ((c.tables s).write w)
      unfold State.write
      split
      · exact hP.satisfy.wakeWaiters (hwrite w hw) _ _
      · exact hwrite w hw
  cases c.wait s with
  | none => exact hwrites
  | some w =>
    cases hth : ((c.tables s).writes (c.write s self)).thread t with
    | none =>
      show P (State.beginWait _ t w)
      unfold State.beginWait
      rw [hth]
      exact hwrites
    | some th => exact hP.satisfy.beginWait hth (hP.setThread _ t th _ hth hwrites)

theorem Closed.step {s s' : State} {action : Action} (h : P s)
    (hwrite : ∀ t c th w, action = .call t c → s.thread t = some th → c.write s th.ethread = some w →
      P ((c.tables s).put w))
    (hend : ∀ p t th, action = .terminate p t → s.thread t = some th → P (s.setState th.ethread 1))
    (hstep : step s action = some s') : P s' := by
  cases action with
  | call t c =>
    simp only [Sync.step] at hstep
    split at hstep
    · rename_i th hth
      split at hstep
      · obtain rfl := Option.some.inj hstep
        exact hP.run h fun w => hwrite t c th w rfl hth
      · cases hstep
    · cases hstep
  | ready t now =>
    obtain ⟨r, hready, rfl⟩ := Option.map_eq_some_iff.mp hstep
    obtain ⟨th, -, hth, -, hr, -⟩ := isReady_eq_some hready
    rw [hr]
    exact hP.setThread s t th none hth h
  | terminate p t =>
    simp only [Sync.step] at hstep
    split at hstep
    · rename_i th hth
      split at hstep
      · obtain rfl := Option.some.inj hstep
        exact hP.remove _ t _ (hP.satisfy.wakeWaiters (hend p t th rfl hth) p _)
      · cases hstep
    · cases hstep

end

/-! ## The log -/

namespace State

theorem stable_log (log : List Event) : Stable fun s => log <:+ s.log :=
  fun _ _ _ _ _ h _ _ => h.trans (List.suffix_cons ..)

theorem closed_log (log : List Event) : Closed fun s => log <:+ s.log :=
  ⟨stable_log log, fun _ _ _ _ _ h => h, fun _ _ _ h => h⟩

theorem log_tables (s : State) (c : Call) : (c.tables s).log = s.log := (c.agrees_tables s).log

end State

theorem step_log {s s' : State} {action : Action} (h : step s action = some s') : s.log <:+ s'.log := by
  refine (closed_log s.log).step (List.suffix_refl _) ?_ ?_ h
  · intro t c th w _ _ _
    show s.log <:+ w.event.toList ++ (c.tables s).log
    rw [log_tables]
    exact List.suffix_append ..
  · intro p t th _ _
    exact List.suffix_refl _

end Kernemul.Sync
