import Kernemul.Kernel.Scheduler
import Kernemul.Win.Sync.Timeout

/-!
# Becoming runnable (`win_thread`, `thread_scheduler::schedule` and `wake`)

Whether a queued thread may run is asked of its suspend count, its wait and the clocks. Handlers change these
without the scheduler's lock, and a parked cpu asks again only when it is notified. So the section of `schedule`
is taken apart here thread by thread: it is a step of the scheduler (`Sched.step`) where it ends, with the answers
it was given. The handlers that make other threads runnable are taken apart as well. What else the scheduler does
under its lock is one step with the notification that comes right after it; a parked cpu may look again at any
time.
-/

namespace Kernemul.Notify

open Sched (ThreadId CpuId)
open Sync (Addr Pid Wait)

inductive Call
  | idle
  /-- In the walk of `wake_waiters`, with the threads still to come. -/
  | walking (object : Addr) (rest : List ThreadId) (released : Bool)
  /-- About to notify in `wake`. -/
  | waking
  /-- Before `preempt_for_waiting` in `wake`. -/
  | preempting
  deriving DecidableEq, Repr

/-- The call has made a thread runnable, and its notification is still to come. -/
def Call.owes : Call → Bool
  | .walking _ _ released => released
  | .waking => true
  | _ => false

/-- The cpu in the section of `schedule`: the queued threads that it has asked, and the others. -/
structure Section where
  cpu : CpuId
  asked : List ThreadId
  rest : List ThreadId

/-- `unsaid` is not in the source: it says which queued threads the handler of a cpu has made runnable and not
notified of. -/
structure State where
  sched : Sched.State
  sync : Sync.State
  started : ThreadId → Bool := fun _ => false
  suspendCount : ThreadId → Nat := fun _ => 0
  alerted : ThreadId → Bool := fun _ => false
  sleepUntil : ThreadId → Int := fun _ => 0
  /-- `win_system_time`, and the host's clock. -/
  system : Int := 0
  host : Int := 0
  holder : Option Section := none
  /-- What a parked cpu waits until; none when it waits for a notification alone. -/
  deadline : CpuId → Option Int := fun _ => none
  notified : CpuId → Bool := fun _ => false
  call : CpuId → Call := fun _ => .idle
  unsaid : CpuId → List ThreadId := fun _ => []

namespace State

/-! ## Threads -/

def wait (s : State) (t : ThreadId) : Option Wait := (s.sync.thread t).bind Sync.Thread.wait

def sleeping (s : State) (t : ThreadId) : Bool := decide (s.host < s.sleepUntil t)

def mayRun (s : State) (t : ThreadId) : Bool :=
  s.suspendCount t == 0 &&
    match s.wait t with
    | some w => w.satisfied || (w.timed && decide (w.deadline ≤ s.system))
    | none => s.started t && !s.sleeping t

def sleepFor (s : State) (t : ThreadId) (ms : Int) : State :=
  { s with sleepUntil := Function.update s.sleepUntil t (Sync.sleepFor s.host ms) }

/-- What `is_ready` does to a wait that is over. -/
def finishWait (s : State) (t : ThreadId) : State :=
  match s.sync.thread t with
  | some th => { s.sleepFor t 0 with sync := s.sync.setThread t { th with wait := none } }
  | none => s

def isReady (s : State) (t : ThreadId) : Bool × State :=
  if s.suspendCount t ≠ 0 then (false, s)
  else
    match s.wait t with
    | none => (s.started t && !s.sleeping t, s)
    | some w =>
      if w.satisfied || Sync.timesOut w s.system then (true, s.finishWait t)
      else if w.timed then (false, s.sleepFor t (Sync.ceilMs (Sync.remaining w.deadline s.system)))
      else (false, s)

/-- A thread parked in `NtWaitForAlertByThreadId`. -/
def awaitsAlert (s : State) (t : ThreadId) : Bool :=
  match s.wait t with
  | some w => !w.satisfied && w.objects.isEmpty
  | none => false

def alert (s : State) (t : ThreadId) : State :=
  match s.sync.thread t with
  | some th =>
    match th.wait with
    | some w =>
      if !w.satisfied && w.objects.isEmpty then
        { s with sync := s.sync.setThread t { th with wait := some { w with status := 0, satisfied := true } } }
      else { s with alerted := Function.update s.alerted t true }
    | none => { s with alerted := Function.update s.alerted t true }
  | none => { s with alerted := Function.update s.alerted t true }

/-- `begin_wait`, and the `try_satisfy` that follows it for objects. -/
def beginWait (s : State) (t : ThreadId) (w : Wait) : State :=
  { s with
    sync := s.sync.beginWait t w
    sleepUntil := Function.update s.sleepUntil t ((Sync.beginWaitSleep s.system s.host w).getD (s.sleepUntil t)) }

/-! ## The scheduler -/

/-- The thread that a cpu brings to `schedule`. -/
def previous (s : State) (c : CpuId) : Option ThreadId :=
  match s.sched.phase c with
  | .entering prev => prev
  | _ => none

/-- `ready_queue_`. -/
def queued (s : State) : List ThreadId :=
  match s.holder with
  | some sec => sec.asked ++ sec.rest
  | none => s.sched.queue

def waits (s : State) (c : CpuId) : Bool :=
  decide (c ∈ s.sched.cpus) && s.sched.phase c == .parked && !(s.holder.any fun sec => sec.cpu == c) &&
    !s.notified c

/-- `notify_one`, which wakes one of the waiting cpus if there is one. -/
def notifyOne (s : State) : Option CpuId → Option State
  | some c => if s.waits c then some { s with notified := Function.update s.notified c true } else none
  | none => if s.sched.cpus.any s.waits then none else some s

def notifyAll (s : State) : State := { s with notified := fun c => s.notified c || s.waits c }

/-- `next_wake`: the earliest time that a queued thread sleeps until. -/
def nextWake (s : State) (queue : List ThreadId) : Option Int :=
  queue.foldl (fun earliest t =>
    if s.sleeping t && earliest.all fun e => decide (s.sleepUntil t < e) then some (s.sleepUntil t)
    else earliest) none

/-- The section of `schedule` as a step of the scheduler, with the answers it was given. -/
def schedule (s : State) (c : CpuId) (ready : ThreadId → Bool) : Option Sched.State :=
  match s.sched.phase c with
  | .entering _ => Sched.step s.sched (.schedule c ready)
  | _ => Sched.step s.sched (.lookAgain c ready)

/-- A cpu comes into the section of `schedule`, and leaves it at once when there is nothing left. -/
def lock (s : State) (c : CpuId) (woken : Option CpuId) : Option State :=
  let pushed := if (s.previous c).isSome then s.notifyOne woken else some s
  if s.sched.stopped || ((s.previous c).isNone && s.sched.nothingLeft) then
    pushed.bind fun s => (s.schedule c fun _ => false).map fun sched => { s with sched }
  else pushed.map fun s => { s with holder := some ⟨c, [], s.sched.queue ++ (s.previous c).toList⟩ }

/-- One round of `first_runnable`. -/
def ask (s : State) (c : CpuId) : Option State :=
  match s.holder with
  | some ⟨d, asked, t :: rest⟩ =>
    if d = c then
      if (s.isReady t).1 then
        (s.schedule c fun u => u == t).map fun sched => { (s.isReady t).2 with sched, holder := none }
      else some { (s.isReady t).2 with holder := some ⟨c, asked ++ [t], rest⟩ }
    else none
  | _ => none

def park (s : State) (c : CpuId) : Option State :=
  match s.holder with
  | some ⟨d, asked, []⟩ =>
    if d = c then
      (s.schedule c fun _ => false).map fun sched =>
        { s with
          sched
          holder := none
          deadline := Function.update s.deadline c (s.nextWake asked)
          notified := Function.update s.notified c false }
    else none
  | _ => none

def preemptForWaiting (s : State) : Option State :=
  if s.holder.isSome then none
  else (Sched.step s.sched (.preemptForWaiting s.mayRun)).map fun sched => { s with sched }

/-! ## Handlers -/

/-- The thread whose handler or guest code a cpu is in, between its calls of the scheduler. -/
def caller (s : State) (c : CpuId) : Option ThreadId :=
  match s.call c with
  | .idle => s.sched.caller c
  | _ => none

/-- The cpu ends the thread it ran: in `terminate_thread`. -/
def ending (s : State) (c : CpuId) : Bool :=
  match s.sched.phase c with
  | .ending _ => true
  | _ => false

def setCall (s : State) (c : CpuId) (call : Call) : State := { s with call := Function.update s.call c call }

/-- One thread of the walk of `wake_waiters`. -/
def walk (s : State) (c : CpuId) : Option State :=
  match s.call c with
  | .walking _ [] released => some (s.setCall c (if released then .waking else .idle))
  | .walking a (t :: rest) released =>
    some ({ s with sync := s.sync.wakeOne a t }.setCall c
      (.walking a rest (released || (s.sync.waitingOn t a && (s.sync.trySatisfy t).isSome))))
  | _ => none

def suspend (s : State) (t : ThreadId) : State :=
  { s with suspendCount := Function.update s.suspendCount t ((s.suspendCount t + 1) % 2 ^ 32) }

/-- `resume`, up to its call of `wake`. -/
def resume (s : State) (c : CpuId) (t : ThreadId) : State :=
  let resumed := { s with suspendCount := Function.update s.suspendCount t (s.suspendCount t - 1) }
  if s.suspendCount t = 1 then resumed.setCall c .waking else resumed

/-- `start`, up to its call of `wake`. -/
def start (s : State) (c : CpuId) (t : ThreadId) : State :=
  { s with started := Function.update s.started t true }.setCall c .waking

end State

/-! ## Steps -/

inductive Event
  /-- A step of the scheduler that is not taken apart; `woken` is whom an `enqueue` notifies. -/
  | sched (e : Sched.Event) (woken : Option CpuId)
  | lock (c : CpuId) (woken : Option CpuId)
  | ask (c : CpuId)
  | park (c : CpuId)
  /-- The emulator's own `preempt_for_waiting`. -/
  | timekeeper
  | tick (system host : Int)
  /-- A thread is started before the cpus run. -/
  | boot (t : ThreadId)
  /-- A handler writes a dispatcher object. -/
  | store (c : CpuId) (a : Addr) (o : Sync.Object)
  /-- `wake_waiters` of a process. -/
  | wakeWaiters (c : CpuId) (p : Pid) (a : Addr)
  | walk (c : CpuId)
  | notify (c : CpuId)
  | preempt (c : CpuId)
  | beginWait (c : CpuId) (objects : List Addr) (waitType : Nat) (timeout : Option Int)
  | waitForAlert (c : CpuId) (timeout : Option Int)
  | sleep (c : CpuId) (ms : Int)
  | alert (c : CpuId) (t : ThreadId)
  | suspend (c : CpuId) (t : ThreadId)
  | resume (c : CpuId) (t : ThreadId)
  | start (c : CpuId) (t : ThreadId)

/-- The steps of the scheduler that need its lock and end with a `notify_all`. -/
def notifiesAll : Sched.Event → Bool
  | .release _ | .terminateRemove _ | .endRemove _ | .stop => true
  | _ => false

def lockFree : Sched.Event → Bool
  | .register _ | .resume _ | .finish _ | .terminate _ _ | .runReturns _ | .endThread _ => true
  | _ => false

namespace State

def schedStep (s : State) (e : Sched.Event) (woken : Option CpuId) : Option State :=
  if e.cpu.any fun c => s.call c != .idle then none
  else if lockFree e then (Sched.step s.sched e).map fun sched => { s with sched }
  else if s.holder.isSome then none
  else if notifiesAll e then (Sched.step s.sched e).map fun sched => { s.notifyAll with sched }
  else
    match e with
    | .enqueue t =>
      (s.notifyOne woken).bind fun s => (Sched.step s.sched (.enqueue t)).map fun sched => { s with sched }
    | _ => none

def base (s : State) : Event → Option State
  | .sched e woken => s.schedStep e woken
  | .lock c woken =>
    if s.holder.isSome || c ∉ s.sched.cpus then none
    else
      match s.sched.phase c with
      | .entering _ | .parked => s.lock c woken
      | _ => none
  | .ask c => s.ask c
  | .park c => s.park c
  | .timekeeper => s.preemptForWaiting
  | .tick system host =>
    if Sync.IsTime system ∧ Sync.IsTime host ∧ s.host ≤ host then some { s with system, host } else none
  | .boot t =>
    if s.sched.enqueued t && s.holder.isNone && s.sched.cpus.all fun c => s.sched.phase c == .entering none then
      some { s with started := Function.update s.started t true }
    else none
  | .store c a o => (s.caller c).map fun _ => { s with sync := s.sync.setObj a o }
  | .wakeWaiters c p a =>
    if (s.caller c).isSome || (s.call c == .idle && decide (c ∈ s.sched.cpus) && s.ending c) then
      some (s.setCall c (.walking a ((s.sync.tids p).filter s.sched.threads) false))
    else none
  | .walk c => s.walk c
  | .notify c =>
    match s.call c with
    | .waking => some { s.notifyAll.setCall c .preempting with unsaid := Function.update s.unsaid c [] }
    | _ => none
  | .preempt c =>
    match s.call c with
    | .preempting => s.preemptForWaiting.map fun s => s.setCall c .idle
    | _ => none
  | .beginWait c objects waitType timeout =>
    (s.caller c).map fun t => s.beginWait t (Sync.State.makeWait objects waitType timeout s.system)
  | .waitForAlert c timeout =>
    (s.caller c).map fun t =>
      if s.alerted t then { s with alerted := Function.update s.alerted t false }
      else s.beginWait t (Sync.State.makeWait [] 1 timeout s.system)
  | .sleep c ms => (s.caller c).map fun t => s.sleepFor t ms
  | .alert c t => (s.caller c).map fun _ => s.alert t
  | .suspend c t => (s.caller c).map fun _ => s.suspend t
  | .resume c t => (s.caller c).map fun _ => s.resume c t
  | .start c t => if s.sched.enqueued t then (s.caller c).map fun _ => s.start c t else none

end State

def Event.handler : Event → Option CpuId
  | .store c _ _ | .wakeWaiters c _ _ | .walk c | .beginWait c _ _ _ | .waitForAlert c _ | .sleep c _
  | .alert c _ | .suspend c _ | .resume c _ | .start c _ => some c
  | _ => none

/-- The queued threads that the handler of a cpu has made runnable are put down. -/
def State.mark (s s' : State) (c : CpuId) : State :=
  { s' with
    unsaid := Function.update s'.unsaid c
      (s'.unsaid c ++ s'.queued.filter fun t => !s.mayRun t && s'.mayRun t) }

def step (s : State) (e : Event) : Option State :=
  (s.base e).map fun s' =>
    match e.handler with
    | some c => s.mark s' c
    | none => s'

end Kernemul.Notify
