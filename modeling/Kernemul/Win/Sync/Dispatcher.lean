import Mathlib.Algebra.Order.Ring.Int
import Mathlib.Data.List.Nodup
import Mathlib.Data.List.GetD
import Mathlib.Logic.Function.Iterate
import Mathlib.Tactic.Common

/-!
# Dispatcher objects and waits

`dispatcher.hpp`, `win_thread::try_satisfy` and `windows_process::wake_waiters`. Guest memory is read and
written through the objects in it, so it is a function from an address to the object there. Every wait
that is satisfied is logged, with the objects as they stood; nothing in the code reads the log.
-/

namespace Kernemul.Sync

abbrev Addr := Nat

abbrev Tid := Nat

abbrev Pid := Nat

/-- `win::dispatcher_type`. -/
inductive Kind
  | eventNotification
  | eventSynchronization
  | mutant
  | process
  | queue
  | semaphore
  | thread
  | gate
  | timerNotification
  | timerSynchronization
  deriving DecidableEq, Repr

def i32 (n : Int) : Int := (n + 2 ^ 31) % 2 ^ 32 - 2 ^ 31

theorem i32_eq {n : Int} (hlo : -2 ^ 31 ≤ n) (hhi : n < 2 ^ 31) : i32 n = n := by
  unfold i32
  omega

def i64 (n : Int) : Int := (n + 2 ^ 63) % 2 ^ 64 - 2 ^ 63

theorem i64_eq {n : Int} (hlo : -2 ^ 63 ≤ n) (hhi : n < 2 ^ 63) : i64 n = n := by
  unfold i64
  omega

/-- A dispatcher object: `owner` is the `OwnerThread` of a KMUTANT, `limit` the `Limit` of a KSEMAPHORE. -/
structure Object where
  kind : Kind
  state : Int
  owner : Addr := 0
  limit : Int := 0
  deriving DecidableEq, Repr

abbrev Objects := Addr → Object

def isSignalled (o : Object) (waiter : Addr) : Bool :=
  if o.state ≤ 0 ∧ o.kind = .mutant then waiter ≠ 0 && o.owner == waiter else decide (0 < o.state)

def take (o : Object) (waiter : Addr) : Object :=
  match o.kind with
  | .eventNotification | .process | .thread | .timerNotification => o
  | .mutant => { o with state := i32 (o.state - 1), owner := waiter }
  | .semaphore | .queue => { o with state := i32 (o.state - 1) }
  | _ => { o with state := 0 }

/-! ## Waits -/

structure Wait where
  objects : List Addr
  all : Bool
  deadline : Int := 0
  timed : Bool := false
  satisfied : Bool := false
  status : Nat := 0
  deriving DecidableEq, Repr

structure Thread where
  ethread : Addr
  wait : Option Wait := none
  deriving DecidableEq, Repr

def Wait.taken (w : Wait) (objs : Objects) (self : Addr) : Option (List Addr × Nat) :=
  if w.all then
    if w.objects.all fun a => isSignalled (objs a) self then some (w.objects, 0) else none
  else
    (w.objects.findIdx? fun a => isSignalled (objs a) self).map fun i => ([w.objects.getD i 0], i)

def takeAll (self : Addr) (l : List Addr) (objs : Objects) : Objects :=
  l.foldl (fun objs a => Function.update objs a (take (objs a) self)) objs

inductive Event
  /-- A wait has been satisfied by taking objects, which stood as `before`. -/
  | satisfied (self : Addr) (taken : List Addr) (before : Objects)
  /-- An object has been created or initialised. -/
  | init (self : Addr) (a : Addr) (o : Object)
  /-- An object has been released `n` times. -/
  | released (self : Addr) (a : Addr) (n : Int)

structure State where
  objs : Objects
  thread : Tid → Option Thread
  /-- `threads_` of a process, in the order it is walked in. -/
  tids : Pid → List Tid
  /-- The handle table, and what the object manager knows of the objects behind handles. -/
  handles : Nat → Option Addr := fun _ => none
  host : Addr → Option Kind := fun _ => none
  nextHandle : Nat := 4
  log : List Event := []

namespace State

def setObj (s : State) (a : Addr) (o : Object) : State := { s with objs := Function.update s.objs a o }

def setThread (s : State) (t : Tid) (th : Thread) : State :=
  { s with thread := Function.update s.thread t (some th) }

def record (s : State) (e : Event) : State := { s with log := e :: s.log }

def parked (s : State) (t : Tid) : Option (Thread × Wait) :=
  match s.thread t with
  | some th =>
    match th.wait with
    | some w => if w.satisfied then none else some (th, w)
    | none => none
  | none => none

def satisfy (s : State) (t : Tid) (th : Thread) (w : Wait) (l : List Addr) (status : Nat) : State :=
  (({ s with objs := takeAll th.ethread l s.objs }).setThread t
    { th with wait := some { w with satisfied := true, status } }).record
      (.satisfied th.ethread l s.objs)

/-- `try_satisfy`: none when the wait is not satisfied. -/
def trySatisfy (s : State) (t : Tid) : Option State :=
  match s.parked t with
  | some (th, w) => (w.taken s.objs th.ethread).map fun l => s.satisfy t th w l.1 l.2
  | none => none

def waitingOn (s : State) (t : Tid) (a : Addr) : Bool :=
  match s.thread t with
  | some th => (th.wait.map fun w => decide (a ∈ w.objects)).getD false
  | none => false

/-- One thread of the walk of `wake_waiters`. -/
def wakeOne (a : Addr) (s : State) (t : Tid) : State :=
  if s.waitingOn t a then (s.trySatisfy t).getD s else s

/-- `wake_waiters` of a process. -/
def wakeWaiters (s : State) (p : Pid) (a : Addr) : State := (s.tids p).foldl (wakeOne a) s

/-- `begin_wait`, and the `try_satisfy` after it. -/
def beginWait (s : State) (t : Tid) (w : Wait) : State :=
  match s.thread t with
  | some th =>
    let s' := s.setThread t { th with wait := some w }
    (s'.trySatisfy t).getD s'
  | none => s

/-- `is_ready`: a thread whose wait has been satisfied or whose deadline has passed runs on. -/
def isReady (s : State) (t : Tid) (now : Int) : Option (State × Nat) :=
  match s.thread t with
  | some th =>
    match th.wait with
    | some w =>
      if w.satisfied then some (s.setThread t { th with wait := none }, w.status)
      else if w.timed && decide (w.deadline ≤ now) then
        some (s.setThread t { th with wait := none }, 0x102)
      else none
    | none => none
  | none => none

end State

/-! ## Taking -/

@[simp] theorem take_kind (o : Object) (self : Addr) : (take o self).kind = o.kind := by
  unfold take
  split <;> rfl

@[simp] theorem take_limit (o : Object) (self : Addr) : (take o self).limit = o.limit := by
  unfold take
  split <;> rfl

theorem takeAll_nil (self : Addr) (objs : Objects) : takeAll self [] objs = objs := rfl

theorem takeAll_cons (self b : Addr) (l : List Addr) (objs : Objects) :
    takeAll self (b :: l) objs = takeAll self l (Function.update objs b (take (objs b) self)) := rfl

theorem takeAll_apply (self : Addr) (l : List Addr) (objs : Objects) (a : Addr) :
    takeAll self l objs a = (fun o => take o self)^[l.count a] (objs a) := by
  induction l generalizing objs with
  | nil => rfl
  | cons b l ih =>
    rw [takeAll_cons, ih, List.count_cons]
    by_cases hab : b = a
    · subst hab
      rw [Function.update_self, if_pos (beq_self_eq_true b)]
      rfl
    · rw [Function.update_of_ne (Ne.symm hab), if_neg (by simpa using hab)]
      rfl

variable {self : Addr} {objs : Objects}

theorem takeAll_of_not_mem {l : List Addr} {a : Addr} (h : a ∉ l) :
    takeAll self l objs a = objs a := by
  rw [takeAll_apply, List.count_eq_zero.mpr h]
  rfl

@[simp] theorem takeAll_kind (self : Addr) (l : List Addr) (objs : Objects) (a : Addr) :
    (takeAll self l objs a).kind = (objs a).kind := by
  rw [takeAll_apply]
  generalize l.count a = n
  induction n generalizing objs with
  | zero => rfl
  | succ n ih => rw [Function.iterate_succ_apply', take_kind, ih]

@[simp] theorem takeAll_limit (self : Addr) (l : List Addr) (objs : Objects) (a : Addr) :
    (takeAll self l objs a).limit = (objs a).limit := by
  rw [takeAll_apply]
  generalize l.count a = n
  induction n generalizing objs with
  | zero => rfl
  | succ n ih => rw [Function.iterate_succ_apply', take_limit, ih]

theorem takeAll_counted {l : List Addr} {a : Addr}
    (hkind : (objs a).kind = .mutant ∨ (objs a).kind = .semaphore ∨ (objs a).kind = .queue)
    (hlo : -2 ^ 31 ≤ (objs a).state - l.count a) (hhi : (objs a).state < 2 ^ 31) :
    (takeAll self l objs a).state = (objs a).state - l.count a := by
  induction l generalizing objs with
  | nil => simp [takeAll_nil]
  | cons b l ih =>
    rw [List.count_cons] at hlo ⊢
    rw [takeAll_cons]
    by_cases hab : b = a
    · subst hab
      rw [if_pos (beq_self_eq_true b), Nat.cast_add, Nat.cast_one] at hlo ⊢
      have htake : (take (objs b) self).state = (objs b).state - 1 := by
        have hone : i32 ((objs b).state - 1) = (objs b).state - 1 := i32_eq (by omega) (by omega)
        unfold take
        rcases hkind with hk | hk | hk <;> rw [hk] <;> exact hone
      have hupd : Function.update objs b (take (objs b) self) b = take (objs b) self :=
        Function.update_self ..
      rw [ih, hupd, htake]
      · omega
      · rw [hupd, take_kind]
        exact hkind
      · rw [hupd, htake]
        omega
      · rw [hupd, htake]
        omega
    · rw [if_neg (by simpa using hab), Nat.cast_add, Nat.cast_zero, add_zero] at hlo ⊢
      have hupd : Function.update objs b (take (objs b) self) a = objs a :=
        Function.update_of_ne (Ne.symm hab) ..
      rw [ih, hupd]
      · rw [hupd]
        exact hkind
      · rw [hupd]
        exact hlo
      · rw [hupd]
        exact hhi

theorem takeAll_owner {l : List Addr} {a : Addr}
    (hkind : (objs a).kind = .mutant) (h : a ∈ l) : (takeAll self l objs a).owner = self := by
  rw [takeAll_apply]
  obtain ⟨n, hn⟩ := Nat.exists_eq_succ_of_ne_zero (List.count_pos_iff.mpr h).ne'
  rw [hn, Function.iterate_succ_apply']
  generalize hobj : (fun o => take o self)^[n] (objs a) = o
  have hk : o.kind = .mutant := by
    rw [← hobj]
    clear hn hobj
    induction n with
    | zero => exact hkind
    | succ n ih => rw [Function.iterate_succ_apply', take_kind, ih]
  unfold take
  rw [hk]

/-! ## What a wait takes -/

theorem Wait.taken_signalled {w : Wait} {l : List Addr × Nat}
    (h : w.taken objs self = some l) : ∀ a ∈ l.1, a ∈ w.objects ∧ isSignalled (objs a) self = true := by
  unfold Wait.taken at h
  split at h
  · split at h
    · rename_i hall
      obtain rfl := Option.some.inj h
      exact fun a ha => ⟨ha, List.all_eq_true.mp hall a ha⟩
    · cases h
  · obtain ⟨i, hi, rfl⟩ := Option.map_eq_some_iff.mp h
    obtain ⟨hlt, hsig, -⟩ := List.findIdx?_eq_some_iff_getElem.mp hi
    intro a ha
    rw [List.mem_singleton.mp ha, List.getD_eq_getElem _ _ hlt]
    exact ⟨List.getElem_mem hlt, hsig⟩

/-- The condition of a wait: one of its objects is signalled for the waiter, or all of them. -/
def Wait.Ready (w : Wait) (objs : Objects) (self : Addr) : Prop :=
  if w.all then ∀ a ∈ w.objects, isSignalled (objs a) self = true
  else ∃ a ∈ w.objects, isSignalled (objs a) self = true

theorem Wait.taken_eq_none_iff {w : Wait} :
    w.taken objs self = none ↔ ¬ w.Ready objs self := by
  unfold Wait.taken Wait.Ready
  cases w.all with
  | true =>
    simp only [if_true, ite_eq_right_iff, List.all_eq_true]
    exact ⟨fun h hall => absurd (h hall) (by simp), fun h hall => absurd hall h⟩
  | false => simp [List.findIdx?_eq_none_iff]

theorem Wait.Ready.of_imp {w : Wait} {objs' : Objects} (h : w.Ready objs' self)
    (himp : ∀ a ∈ w.objects, isSignalled (objs' a) self = true → isSignalled (objs a) self = true) :
    w.Ready objs self := by
  unfold Wait.Ready at *
  cases hall : w.all with
  | true =>
    rw [hall] at h
    exact fun a ha => himp a ha (h a ha)
  | false =>
    rw [hall] at h
    obtain ⟨a, ha, hsig⟩ := h
    exact ⟨a, ha, himp a ha hsig⟩

/-! ## Satisfying waits -/

namespace State

section
variable (s : State) (t : Tid) (th : Thread) (w : Wait) (l : List Addr) (status : Nat)

@[simp] theorem satisfy_objs : (s.satisfy t th w l status).objs = takeAll th.ethread l s.objs := rfl

@[simp] theorem satisfy_tids : (s.satisfy t th w l status).tids = s.tids := rfl

@[simp] theorem satisfy_log :
    (s.satisfy t th w l status).log = .satisfied th.ethread l s.objs :: s.log := rfl

@[simp] theorem satisfy_thread : (s.satisfy t th w l status).thread =
    Function.update s.thread t (some { th with wait := some { w with satisfied := true, status } }) :=
  rfl

end

variable {s : State}

theorem parked_eq_some {t : Tid} {th : Thread} {w : Wait} :
    s.parked t = some (th, w) ↔
      s.thread t = some th ∧ th.wait = some w ∧ w.satisfied = false := by
  unfold parked
  constructor
  · intro h
    split at h
    · rename_i th' hth
      split at h
      · rename_i w' hw
        split at h
        · cases h
        · rename_i hsat
          cases h
          exact ⟨hth, hw, by simpa using hsat⟩
      · cases h
    · cases h
  · rintro ⟨hth, hw, hsat⟩
    simp only [hth, hw, hsat]
    rfl

theorem trySatisfy_eq_some {s' : State} {t : Tid} : s.trySatisfy t = some s' ↔
    ∃ th w l, s.parked t = some (th, w) ∧ w.taken s.objs th.ethread = some l ∧
      s' = s.satisfy t th w l.1 l.2 := by
  unfold trySatisfy
  constructor
  · intro h
    split at h
    · rename_i th w hp
      obtain ⟨l, hl, rfl⟩ := Option.map_eq_some_iff.mp h
      exact ⟨th, w, l, hp, hl, rfl⟩
    · cases h
  · rintro ⟨th, w, l, hp, hl, rfl⟩
    rw [hp]
    dsimp only
    rw [hl]
    rfl

def Stable (P : State → Prop) : Prop := ∀ s t th w l, P s → s.parked t = some (th, w) →
  w.taken s.objs th.ethread = some l → P (s.satisfy t th w l.1 l.2)

section
variable {P : State → Prop}

theorem Stable.trySatisfy (hP : Stable P) {s : State} (h : P s) (t : Tid) :
    P ((s.trySatisfy t).getD s) := by
  cases htry : s.trySatisfy t with
  | none => exact h
  | some s' =>
    obtain ⟨th, w, l, hp, hl, rfl⟩ := trySatisfy_eq_some.mp htry
    exact hP s t th w l h hp hl

theorem Stable.wakeOne (hP : Stable P) {s : State} (h : P s) (a : Addr) (t : Tid) :
    P (s.wakeOne a t) := by
  unfold State.wakeOne
  split
  · exact hP.trySatisfy h t
  · exact h

theorem Stable.wakeWaiters (hP : Stable P) {s : State} (h : P s) (p : Pid) (a : Addr) :
    P (s.wakeWaiters p a) := by
  unfold State.wakeWaiters
  generalize s.tids p = ts
  induction ts generalizing s with
  | nil => exact h
  | cons t ts ih => exact ih (hP.wakeOne h a t)

theorem Stable.beginWait (hP : Stable P) {s : State} {t : Tid} {th : Thread} {w : Wait}
    (hth : s.thread t = some th) (h : P (s.setThread t { th with wait := some w })) :
    P (s.beginWait t w) := by
  unfold State.beginWait
  rw [hth]
  exact hP.trySatisfy h t

end

/-! ## All or nothing -/

/-- The objects in `l` have been taken once each for a thread, whose wait is over with `status`. -/
structure Took (s s' : State) (t : Tid) (th : Thread) (w : Wait) (l : List Addr) (status : Nat) : Prop where
  taken : ∀ a ∈ l, s'.objs a = take (s.objs a) th.ethread
  others : ∀ a ∉ l, s'.objs a = s.objs a
  wait : s'.thread t = some { th with wait := some { w with satisfied := true, status } }
  threads : ∀ u, u ≠ t → s'.thread u = s.thread u
  again : s'.trySatisfy t = none

/-- What `try_satisfy` does for a thread. -/
structure AllOrNothing (s : State) (t : Tid) : Prop where
  /-- No wait, or one that has been satisfied. -/
  idle : s.parked t = none → s.trySatisfy t = none
  all : ∀ th w, s.parked t = some (th, w) → w.all = true →
    (∀ a ∈ w.objects, isSignalled (s.objs a) th.ethread = true) ∧
        (∃ s', s.trySatisfy t = some s' ∧ Took s s' t th w w.objects 0) ∨
      (∃ a ∈ w.objects, isSignalled (s.objs a) th.ethread = false) ∧ s.trySatisfy t = none
  any : ∀ th w, s.parked t = some (th, w) → w.all = false →
    (∃ i a, w.objects[i]? = some a ∧ isSignalled (s.objs a) th.ethread = true ∧
        (∀ j b, j < i → w.objects[j]? = some b → isSignalled (s.objs b) th.ethread = false) ∧
        ∃ s', s.trySatisfy t = some s' ∧ Took s s' t th w [a] i) ∨
      (∀ a ∈ w.objects, isSignalled (s.objs a) th.ethread = false) ∧ s.trySatisfy t = none

theorem parked_eq_none {t : Tid}
    (h : ∀ th w, s.thread t = some th → th.wait = some w → w.satisfied = true) : s.parked t = none := by
  cases hp : s.parked t with
  | none => rfl
  | some x =>
    obtain ⟨hth, hw, hsat⟩ := parked_eq_some.mp hp
    rw [h x.1 x.2 hth hw] at hsat
    cases hsat

theorem trySatisfy_of_parked_none {t : Tid} (h : s.parked t = none) : s.trySatisfy t = none := by
  unfold trySatisfy
  rw [h]

theorem satisfy_took {t : Tid} (th : Thread) (w : Wait) {l : List Addr} (hl : l.Nodup)
    (status : Nat) : Took s (s.satisfy t th w l status) t th w l status := by
  refine ⟨fun a ha => ?_, fun a ha => takeAll_of_not_mem ha, ?_, fun u hu => ?_, ?_⟩
  · rw [satisfy_objs, takeAll_apply, List.count_eq_one_of_mem hl ha]
    rfl
  · rw [satisfy_thread, Function.update_self]
  · rw [satisfy_thread, Function.update_of_ne hu]
  · refine trySatisfy_of_parked_none (parked_eq_none fun th' w' hth hw => ?_)
    rw [satisfy_thread, Function.update_self] at hth
    obtain rfl := Option.some.inj hth
    obtain rfl := Option.some.inj hw
    rfl

/-- **A wait is satisfied all or nothing**, and a wait for any object takes the first that is signalled. -/
theorem try_satisfy_all_or_nothing (s : State) (t : Tid)
    (hdistinct : ∀ th w, s.parked t = some (th, w) → w.objects.Nodup) : AllOrNothing s t := by
  have htry : ∀ th w, s.parked t = some (th, w) →
      s.trySatisfy t = (w.taken s.objs th.ethread).map fun l => s.satisfy t th w l.1 l.2 := by
    intro th w hp
    unfold trySatisfy
    rw [hp]
  refine ⟨trySatisfy_of_parked_none, fun th w hp hall => ?_, fun th w hp hany => ?_⟩
  · rw [htry th w hp]
    by_cases hsig : ∀ a ∈ w.objects, isSignalled (s.objs a) th.ethread = true
    · have htaken : w.taken s.objs th.ethread = some (w.objects, 0) := by
        unfold Wait.taken
        rw [if_pos hall, if_pos (List.all_eq_true.mpr hsig)]
      rw [htaken]
      exact Or.inl ⟨hsig, _, rfl, satisfy_took th w (hdistinct th w hp) 0⟩
    · have htaken : w.taken s.objs th.ethread = none := by
        unfold Wait.taken
        rw [if_pos hall, if_neg (by simpa using hsig)]
      rw [htaken]
      push Not at hsig
      obtain ⟨a, ha, hna⟩ := hsig
      exact Or.inr ⟨⟨a, ha, by simpa using hna⟩, rfl⟩
  · rw [htry th w hp]
    have htaken : w.taken s.objs th.ethread =
        (w.objects.findIdx? fun a => isSignalled (s.objs a) th.ethread).map fun i =>
          ([w.objects.getD i 0], i) := by
      unfold Wait.taken
      rw [if_neg (by rw [hany]; decide)]
    rw [htaken]
    cases hidx : w.objects.findIdx? fun a => isSignalled (s.objs a) th.ethread with
    | none => exact Or.inr ⟨List.findIdx?_eq_none_iff.mp hidx, rfl⟩
    | some i =>
      obtain ⟨hlt, hsig, hfirst⟩ := List.findIdx?_eq_some_iff_getElem.mp hidx
      have hget : w.objects.getD i 0 = w.objects[i] := List.getD_eq_getElem _ _ hlt
      refine Or.inl ⟨i, w.objects[i], List.getElem?_eq_getElem hlt, hsig, fun j b hj hb => ?_, _, rfl, ?_⟩
      · obtain ⟨hjlt, rfl⟩ := List.getElem?_eq_some_iff.mp hb
        simpa using hfirst j hj
      · rw [← hget]
        exact satisfy_took th w (List.nodup_singleton _) i

/-- A mutant that its waiter holds, a semaphore and an event that is not signalled. -/
def mixedObjects : State where
  objs a := if a = 0x10 then ⟨.mutant, 0, 0x1000, 0⟩ else if a = 0x20 then ⟨.semaphore, 2, 0, 5⟩
    else ⟨.eventSynchronization, 0, 0, 0⟩
  thread t := if t = 1 then some ⟨0x1000, some { objects := [0x30, 0x20, 0x10], all := false }⟩ else none
  tids _ := [1]

theorem mixedObjects_all_or_nothing : AllOrNothing mixedObjects 1 ∧
    (mixedObjects.trySatisfy 1).map (fun s => (s.objs 0x20).state) = some 1 ∧
    (mixedObjects.trySatisfy 1).map (fun s => (s.objs 0x10).state) = some 0 := by
  refine ⟨try_satisfy_all_or_nothing mixedObjects 1 fun th w hp => ?_, by decide, by decide⟩
  obtain ⟨hth, hw, -⟩ := parked_eq_some.mp hp
  obtain rfl := Option.some.inj hth
  obtain rfl := Option.some.inj hw
  decide

end State

end Kernemul.Sync
