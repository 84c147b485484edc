import Kernemul.Lib.Run
import Kernemul.Lib.Versioned

/-!
# WNF state data

`NtUpdateWnfStateData`, `NtQueryWnfStateData` and `NtDeleteWnfStateData` of `nt_misc_ops.cpp`. Each has one section
under the lock: an update has read its data before, and a query writes its answer after. An update looks neither at
`matching_change_stamp` nor at `check_stamp`, and a query takes a state without data for no state.

Where a buffer is not mapped the handler is left by an exception, outside the lock.
-/

namespace Kernemul.Wnf

abbrev Name := BitVec 64

/-- `wnf_state`. -/
structure Entry where
  data : List UInt8
  stamp : BitVec 32
  deriving DecidableEq, Repr

inductive Status
  | success
  | objectNameNotFound
  deriving DecidableEq, Repr

/-! ## The handlers -/

/-- `NtUpdateWnfStateData`, after it has read the name and the data. -/
structure Update where
  name : Name
  data : List UInt8
  matching : BitVec 32
  check : Bool

def readData (buffer : Option (Nat → UInt8)) (length : BitVec 32) : List UInt8 :=
  match buffer with
  | some bytes => (List.range length.toNat).map bytes
  | none => List.replicate length.toNat 0

/-- `NtQueryWnfStateData`: the name, and which of its pointers are not null. -/
structure Query where
  name : Option Name
  changeStamp : Bool
  buffer : Bool
  bufferSize : Bool

structure Answer where
  status : Status
  changeStamp : Option (BitVec 32)
  bufferSize : Option Nat
  bytes : List UInt8
  deriving DecidableEq, Repr

structure Shared where
  states : Name → Option Entry := fun _ => none
  stamp : BitVec 32 := 0

def Shared.update (s : Shared) (u : Update) : Shared × BitVec 32 :=
  let stamp := s.stamp + 1
  ({ states := Function.update s.states u.name (some ⟨u.data, stamp⟩), stamp }, stamp)

def Shared.delete (s : Shared) (name : Name) : Shared × Status :=
  ({ s with states := Function.update s.states name none },
    if (s.states name).isSome then .success else .objectNameNotFound)

def Shared.copy (s : Shared) (q : Query) : List UInt8 × BitVec 32 :=
  match s.states (q.name.getD 0) with
  | some entry => (entry.data, entry.stamp)
  | none => ([], 0)

/-- What a query makes of its copy; `available` is what it finds in `buffer_size`. -/
def Query.finish (q : Query) (available : Nat) (copy : List UInt8 × BitVec 32) : Answer :=
  if copy.1.isEmpty then
    { status := .objectNameNotFound
      changeStamp := if q.changeStamp then some 0 else none
      bufferSize := if q.bufferSize then some 0 else none
      bytes := [] }
  else
    let available := if q.bufferSize then available else 0
    let copied := min available copy.1.length
    { status := .success
      changeStamp := if q.changeStamp then some copy.2 else none
      bufferSize := if q.bufferSize then some copy.1.length else none
      bytes := if q.buffer then copy.1.take copied else [] }

/-! ## Clients -/

inductive Phase
  | idle
  | updating (u : Update)
  | deleting (name : Name)
  | querying (q : Query)
  /-- The section is over, and the answer still to be written. -/
  | answering (q : Query) (copy : List UInt8 × BitVec 32)

structure Returned where
  query : Query
  available : Nat
  answer : Answer

/-- `log` and `returned` are not in the source: what the sections did, the last first, and what the queries that
are over have answered. -/
structure State (Client : Type) where
  shared : Shared := {}
  phase : Client → Phase := fun _ => .idle
  log : List (Versioned.Act Name (List UInt8)) := []
  returned : List Returned := []

inductive Event (Client : Type)
  | update (c : Client) (name : Option Name) (buffer : Option (Nat → UInt8)) (length matching : BitVec 32)
      (check : Bool)
  | delete (c : Client) (name : Option Name)
  | query (c : Client) (q : Query)
  | locked (c : Client)
  | finish (c : Client) (available : Nat)
  | fault (c : Client)

def told (copy : List UInt8 × BitVec 32) : Option (List UInt8 × Nat) :=
  if copy.1.isEmpty then none else some (copy.1, copy.2.toNat)

section runs
variable {Client : Type} [DecidableEq Client]

def State.setPhase (s : State Client) (c : Client) (phase : Phase) : State Client :=
  { s with phase := Function.update s.phase c phase }

/-- The section of the call that a client is in. An update and a delete have nothing left to do then. -/
def State.enter (s : State Client) (c : Client) : Option (State Client) :=
  match s.phase c with
  | .updating u =>
    let (shared, stamp) := s.shared.update u
    let expected := if u.check then some u.matching.toNat else none
    some { s.setPhase c .idle with shared, log := .update u.name u.data expected stamp.toNat :: s.log }
  | .deleting name =>
    some { s.setPhase c .idle with shared := (s.shared.delete name).1, log := .delete name :: s.log }
  | .querying q =>
    let copy := s.shared.copy q
    some { s.setPhase c (.answering q copy) with log := .read (q.name.getD 0) (told copy) :: s.log }
  | _ => none

/-- A call without a name returns at once, but for a query, which asks for name 0. -/
def step (s : State Client) : Event Client → Option (State Client)
  | .update c name buffer length matching check =>
    match s.phase c, name with
    | .idle, some name => some (s.setPhase c (.updating { name, data := readData buffer length, matching, check }))
    | .idle, none => some s
    | _, _ => none
  | .delete c name =>
    match s.phase c, name with
    | .idle, some name => some (s.setPhase c (.deleting name))
    | .idle, none => some s
    | _, _ => none
  | .query c q =>
    match s.phase c with
    | .idle => some (s.setPhase c (.querying q))
    | _ => none
  | .locked c => s.enter c
  | .finish c available =>
    match s.phase c with
    | .answering q copy =>
      some { s.setPhase c .idle with
        returned := { query := q, available, answer := q.finish available copy } :: s.returned }
    | _ => none
  | .fault c => some (s.setPhase c .idle)

/-! ## What is asked of them -/

/-- What a query is to answer of the value of its name, as much as its buffer takes of it. -/
def Query.due (q : Query) (available : Nat) : Option (List UInt8 × Nat) → Answer
  | none =>
    { status := .objectNameNotFound
      changeStamp := if q.changeStamp then some 0 else none
      bufferSize := if q.bufferSize then some 0 else none
      bytes := [] }
  | some (data, stamp) =>
    { status := .success
      changeStamp := if q.changeStamp then some (BitVec.ofNat 32 stamp) else none
      bufferSize := if q.bufferSize then some data.length else none
      bytes := if q.buffer && q.bufferSize then data.take available else [] }

/-- The sections are those of a versioned register, no conditional update overwrites one that came in between, and
each query has answered by what its own section read. -/
structure WnfOk (s : State Client) : Prop where
  legal : Versioned.Legal s.log
  kept : ∀ acts log name data m stamp, s.log = acts ++ .update name data (some m) stamp :: log → m ≠ 0 →
    ∃ old, Versioned.current name log = some (old, m)
  returned : ∀ r ∈ s.returned, ∃ value, .read (r.query.name.getD 0) value ∈ s.log ∧
    r.answer = r.query.due r.available value

/-- A conditional update comes with the current stamp, the counter has not come round to a stamp that is not above
those the name has had, and no query asks for a state without data. -/
def Ok (s : State Client) : Event Client → Prop
  | .locked c =>
    match s.phase c with
    | .updating u =>
      (u.check = true → u.matching = ((s.shared.states u.name).map Entry.stamp).getD 0) ∧
        ∀ old ∈ Versioned.stamps u.name s.log, old < (s.shared.stamp + 1).toNat
    | .querying q => ∀ entry ∈ s.shared.states (q.name.getD 0), entry.data.isEmpty = false
    | _ => True
  | _ => True

/-! ## Steps -/

theorem Query.finish_eq (q : Query) (available : Nat) (copy : List UInt8 × BitVec 32) :
    q.finish available copy = q.due available (told copy) := by
  unfold Query.finish told
  by_cases hempty : copy.1.isEmpty = true
  · rw [if_pos hempty, if_pos hempty]
    rfl
  · rw [if_neg hempty, if_neg hempty]
    dsimp only [Query.due]
    rw [BitVec.ofNat_toNat, BitVec.setWidth_eq]
    congr 1
    cases q.buffer with
    | false => rfl
    | true =>
      cases q.bufferSize with
      | false => simp
      | true => exact List.take_eq_take_min.symm

/-- The states are what the log says, and a query that has left its section has the answer of the log. -/
structure Inv (s : State Client) : Prop where
  states : ∀ name, Versioned.current name s.log =
    (s.shared.states name).map fun entry => (entry.data, entry.stamp.toNat)
  answering : ∀ c q copy, s.phase c = .answering q copy → .read (q.name.getD 0) (told copy) ∈ s.log
  returned : ∀ r ∈ s.returned, ∃ value, .read (r.query.name.getD 0) value ∈ s.log ∧
    r.answer = r.query.due r.available value

omit [DecidableEq Client] in
theorem inv_start : Inv ({} : State Client) where
  states _ := rfl
  answering _ _ _ h := by cases h
  returned _ h := by cases h

variable {s : State Client}

theorem Inv.setPhase (h : Inv s) {c : Client} {phase : Phase}
    (hphase : ∀ q copy, phase ≠ .answering q copy) : Inv (s.setPhase c phase) := by
  refine ⟨h.states, fun d q copy hd => ?_, h.returned⟩
  have hd' : Function.update s.phase c phase d = .answering q copy := hd
  by_cases hdc : d = c
  · rw [hdc, Function.update_self] at hd'
    exact absurd hd' (hphase q copy)
  · rw [Function.update_of_ne hdc] at hd'
    exact h.answering d q copy hd'

theorem Inv.act (h : Inv s) {c : Client} {phase : Phase} {shared : Shared} {act : Versioned.Act Name (List UInt8)}
    (hstates : ∀ name, Versioned.current name (act :: s.log) =
      (shared.states name).map fun entry => (entry.data, entry.stamp.toNat))
    (hphase : ∀ q copy, phase = .answering q copy → act = .read (q.name.getD 0) (told copy)) :
    Inv { s.setPhase c phase with shared, log := act :: s.log } := by
  refine ⟨hstates, fun d q copy hd => ?_, fun r hr => ?_⟩
  · have hd' : Function.update s.phase c phase d = .answering q copy := hd
    by_cases hdc : d = c
    · rw [hdc, Function.update_self] at hd'
      rw [hphase q copy hd']
      exact List.mem_cons_self ..
    · rw [Function.update_of_ne hdc] at hd'
      exact List.mem_cons_of_mem _ (h.answering d q copy hd')
  · obtain ⟨value, hmem, hanswer⟩ := h.returned r hr
    exact ⟨value, List.mem_cons_of_mem _ hmem, hanswer⟩

variable {s' : State Client}

theorem enter_cases {c : Client} (h : s.enter c = some s') :
    (∃ u, s.phase c = .updating u ∧ s' = { s.setPhase c .idle with
      shared := (s.shared.update u).1
      log := .update u.name u.data (if u.check then some u.matching.toNat else none) (s.shared.stamp + 1).toNat
        :: s.log }) ∨
    (∃ name, s.phase c = .deleting name ∧ s' = { s.setPhase c .idle with
      shared := (s.shared.delete name).1
      log := .delete name :: s.log }) ∨
    ∃ q, s.phase c = .querying q ∧ s' = { s.setPhase c (.answering q (s.shared.copy q)) with
      shared := s.shared
      log := .read (q.name.getD 0) (told (s.shared.copy q)) :: s.log } := by
  unfold State.enter at h
  split at h
  · rename_i u hu
    exact Or.inl ⟨u, hu, (Option.some.inj h).symm⟩
  · rename_i name hname
    exact Or.inr (Or.inl ⟨name, hname, (Option.some.inj h).symm⟩)
  · rename_i q hq
    exact Or.inr (Or.inr ⟨q, hq, (Option.some.inj h).symm⟩)
  · cases h

theorem enter_inv (h : Inv s) {c : Client} (hs : s.enter c = some s') : Inv s' := by
  rcases enter_cases hs with ⟨u, -, rfl⟩ | ⟨name, -, rfl⟩ | ⟨q, -, rfl⟩
  · refine h.act (fun n => ?_) fun _ _ hp => by cases hp
    unfold Versioned.current
    show _ = (Function.update s.shared.states u.name _ n).map _
    by_cases hn : u.name = n
    · rw [if_pos hn, hn, Function.update_self]
      rfl
    · rw [if_neg hn, Function.update_of_ne (Ne.symm hn), h.states]
  · refine h.act (fun n => ?_) fun _ _ hp => by cases hp
    unfold Versioned.current
    show _ = (Function.update s.shared.states name none n).map _
    by_cases hn : name = n
    · rw [if_pos hn, hn, Function.update_self]
      rfl
    · rw [if_neg hn, Function.update_of_ne (Ne.symm hn), h.states]
  · refine h.act h.states fun q' copy hp => ?_
    obtain ⟨rfl, rfl⟩ := Phase.answering.inj hp
    rfl

inductive Stepped (s : State Client) : Event Client → State Client → Prop
  | stay {e : Event Client} (he : ∀ c, e ≠ .locked c) : Stepped s e s
  | move {e : Event Client} {c : Client} {phase : Phase} (he : ∀ c, e ≠ .locked c)
      (hphase : ∀ q copy, phase ≠ .answering q copy) : Stepped s e (s.setPhase c phase)
  | finish {c : Client} {q : Query} {copy : List UInt8 × BitVec 32} (available : Nat)
      (hphase : s.phase c = .answering q copy) :
      Stepped s (.finish c available) { s.setPhase c .idle with
        returned := { query := q, available, answer := q.finish available copy } :: s.returned }
  | locked {c : Client} {s' : State Client} (h : s.enter c = some s') : Stepped s (.locked c) s'

variable {e : Event Client}

theorem stepped_of_step (h : step s e = some s') : Stepped s e s' := by
  cases e with
  | update c name buffer length matching check =>
    unfold step at h
    dsimp only at h
    split at h
    · obtain rfl := Option.some.inj h
      exact .move (fun _ => nofun) fun _ _ => nofun
    · obtain rfl := Option.some.inj h
      exact .stay fun _ => nofun
    · cases h
  | delete c name =>
    unfold step at h
    dsimp only at h
    split at h
    · obtain rfl := Option.some.inj h
      exact .move (fun _ => nofun) fun _ _ => nofun
    · obtain rfl := Option.some.inj h
      exact .stay fun _ => nofun
    · cases h
  | query c q =>
    unfold step at h
    dsimp only at h
    split at h
    · obtain rfl := Option.some.inj h
      exact .move (fun _ => nofun) fun _ _ => nofun
    · cases h
  | locked c => exact .locked h
  | finish c available =>
    unfold step at h
    dsimp only at h
    split at h
    · rename_i q copy hphase
      obtain rfl := Option.some.inj h
      exact .finish available hphase
    · cases h
  | fault c =>
    obtain rfl := Option.some.inj h
    exact .move (fun _ => nofun) fun _ _ => nofun

theorem step_inv (h : Inv s) (hs : step s e = some s') : Inv s' := by
  cases stepped_of_step hs with
  | stay he => exact h
  | move he hphase => exact h.setPhase hphase
  | @finish c q copy available hphase =>
    have hidle : Inv (s.setPhase c .idle) := h.setPhase fun _ _ => nofun
    refine ⟨hidle.states, hidle.answering, fun r hr => ?_⟩
    rcases List.mem_cons.mp hr with rfl | hr
    · exact ⟨_, h.answering c q copy hphase, q.finish_eq available copy⟩
    · exact h.returned r hr
  | locked hs => exact enter_inv h hs

/-! ## Runs -/

omit [DecidableEq Client] in
/-- An update is allowed when its check, if it is to make one, would succeed, and its stamp is a new one. -/
theorem update_allowed_iff (h : Inv s) (u : Update) :
    Versioned.Act.Allowed s.log (.update u.name u.data (if u.check then some u.matching.toNat else none)
      (s.shared.stamp + 1).toNat) ↔
    (u.check = true → u.matching = ((s.shared.states u.name).map Entry.stamp).getD 0) ∧
      ∀ old ∈ Versioned.stamps u.name s.log, old < (s.shared.stamp + 1).toNat := by
  have hcurrent : Versioned.currentStamp u.name s.log =
      (((s.shared.states u.name).map Entry.stamp).getD 0).toNat := by
    unfold Versioned.currentStamp
    rw [h.states]
    cases s.shared.states u.name with
    | none => rfl
    | some entry => rfl
  unfold Versioned.Act.Allowed
  dsimp only
  rw [hcurrent]
  refine and_congr_left' ?_
  cases u.check with
  | false => exact ⟨fun _ => nofun, fun _ _ => nofun⟩
  | true => exact ⟨fun hm _ => BitVec.eq_of_toNat_eq (hm _ rfl),
      fun hm m hmem => by rw [← Option.some.inj hmem, hm rfl]⟩

omit [DecidableEq Client] in
theorem read_allowed_iff {s : State Client} (h : Inv s) (q : Query) :
    Versioned.Act.Allowed s.log (.read (q.name.getD 0) (told (s.shared.copy q))) ↔
    ∀ entry ∈ s.shared.states (q.name.getD 0), entry.data.isEmpty = false := by
  unfold Versioned.Act.Allowed told Shared.copy
  dsimp only
  rw [h.states]
  cases s.shared.states (q.name.getD 0) with
  | none => exact ⟨fun _ _ => nofun, fun _ => rfl⟩
  | some entry =>
    dsimp only
    cases hempty : entry.data.isEmpty with
    | true => exact ⟨nofun, fun hall => absurd (hempty.symm.trans (hall entry rfl)) (by decide)⟩
    | false => exact ⟨fun _ e he => Option.some.inj he ▸ hempty, fun _ => rfl⟩

theorem legal_iff_ok (h : Inv s) (hlegal : Versioned.Legal s.log)
    (hs : step s e = some s') : Ok s e ↔ Versioned.Legal s'.log := by
  have hother : (∀ c, e ≠ .locked c) → Ok s e := by
    intro he
    cases e with
    | locked c => exact absurd rfl (he c)
    | _ => trivial
  cases stepped_of_step hs with
  | stay he => exact iff_of_true (hother he) hlegal
  | move he hphase => exact iff_of_true (hother he) hlegal
  | finish available hphase => exact iff_of_true trivial hlegal
  | @locked c _ hs =>
    unfold Ok
    rcases enter_cases hs with ⟨u, hu, rfl⟩ | ⟨name, hname, rfl⟩ | ⟨q, hq, rfl⟩
    · dsimp only
      rw [hu, Versioned.legal_cons, and_iff_left hlegal]
      exact (update_allowed_iff h u).symm
    · dsimp only
      rw [hname, Versioned.legal_cons, and_iff_left hlegal]
      rfl
    · dsimp only
      rw [hq, Versioned.legal_cons, and_iff_left hlegal]
      exact (read_allowed_iff h q).symm

theorem legal_of_step (hs : step s e = some s') (h : Versioned.Legal s'.log) : Versioned.Legal s.log := by
  cases stepped_of_step hs with
  | locked hs =>
    rcases enter_cases hs with ⟨u, -, rfl⟩ | ⟨name, -, rfl⟩ | ⟨q, -, rfl⟩
    · exact (Versioned.legal_cons.mp h).2
    · exact (Versioned.legal_cons.mp h).2
    · exact (Versioned.legal_cons.mp h).2
  | _ => exact h

/-- **WNF states are versioned registers** in exactly the runs whose conditional updates come with the current
stamp, whose counter does not come round, and whose queries find data. -/
theorem wnfOk_iff {events : List (Event Client)} {s : State Client}
    (h : Run.Steps step (fun _ _ => True) {} events s) : WnfOk s ↔ Run.Steps step Ok {} events s := by
  have hinv : Inv s := h.invariant (fun _ _ _ hs _ hstep => step_inv hs hstep) inv_start
  rw [h.allowed_iff (P := fun s : State Client => Versioned.Legal s.log) (I := Inv)
    (fun _ _ _ hs _ hstep => step_inv hs hstep) (fun _ _ _ _ hstep => legal_of_step hstep)
    (fun _ _ _ hs hl _ hstep => legal_iff_ok hs hl hstep) inv_start .nil]
  refine ⟨WnfOk.legal, fun hlegal => ⟨hlegal, fun acts log name data m stamp hlog hm => ?_, hinv.returned⟩⟩
  rw [hlog] at hlegal
  exact hlegal.not_lost hm

end runs

/-- What a client with a conditional update does: it asks, and then updates with the stamp it was told. -/
def asks (c : Bool) : List (Event Bool) :=
  [.query c { name := some 7, changeStamp := true, buffer := true, bufferSize := true }, .locked c, .finish c 4]

def updates (c : Bool) (matching : BitVec 32) : List (Event Bool) :=
  [.update c (some 7) none 1 matching true, .locked c]

instance (s : State Bool) (e : Event Bool) : Decidable (Ok s e) := by
  cases e with
  | locked c =>
    unfold Ok
    dsimp only
    split
    · infer_instance
    · infer_instance
    · infer_instance
  | _ => exact isTrue trivial

def inTurn : List (Event Bool) := updates true 0 ++ asks true ++ updates true 1 ++ asks false ++ updates false 2

def atOnce : List (Event Bool) := updates true 0 ++ asks true ++ asks false ++ updates true 1 ++ updates false 1

theorem inTurn_ok : ∃ s : State Bool, Run.Steps step (fun _ _ => True) {} inTurn s ∧
    s.returned.map Returned.answer = [⟨.success, some 2, some 1, [0]⟩, ⟨.success, some 1, some 1, [0]⟩] ∧
    WnfOk s := by
  have hexec : ((Run.exec step (fun s e => decide (Ok s e)) ({} : State Bool) inTurn).map fun s =>
      s.returned.map Returned.answer) =
      some [⟨.success, some 2, some 1, [0]⟩, ⟨.success, some 1, some 1, [0]⟩] := by decide
  obtain ⟨s, hs, hanswers⟩ := Option.map_eq_some_iff.mp hexec
  have hok := Run.Steps.of_exec (fun _ _ => of_decide_eq_true) hs
  have hrun := hok.mono fun _ _ _ => trivial
  exact ⟨s, hrun, hanswers, (wnfOk_iff hrun).mpr hok⟩

/-- The update of the first client is lost: that of the second goes through on the stamp before it. -/
theorem atOnce_lost : ¬ ∀ (events : List (Event Bool)) s, Run.Steps step (fun _ _ => True) {} events s → WnfOk s := by
  intro hall
  have hexec : ((Run.exec step (fun _ _ => true) ({} : State Bool) atOnce).map State.log) =
      some [.update 7 [0] (some 1) 3, .update 7 [0] (some 1) 2, .read 7 (some ([0], 1)), .read 7 (some ([0], 1)),
        .update 7 [0] (some 0) 1] := by rfl
  obtain ⟨s, hs, hlog⟩ := Option.map_eq_some_iff.mp hexec
  have hkept := (hall _ s (Run.Steps.of_exec (fun _ _ _ => trivial) hs)).kept [] _ 7 [0] 1 3 hlog (by decide)
  obtain ⟨old, hold⟩ := hkept
  cases hold

end Kernemul.Wnf
