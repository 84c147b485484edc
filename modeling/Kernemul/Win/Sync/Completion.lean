import Kernemul.Win.Sync.History

/-!
# Completion ports

The packets of a port are kept on the host, and their number in the `SignalState` of its KQUEUE, which a
wait on the handle of the port takes like any other. As long as no wait takes a port, and no remove is
given memory that it cannot write, the two agree and every packet is delivered or still queued.
-/

namespace Kernemul.Sync

open State

structure Packet where
  keyContext : Addr := 0
  apcContext : Addr := 0
  status : Nat := 0
  information : Nat := 0
  deriving DecidableEq, Repr

/-- `ports` has the `packets_` of each port, by the body of the port. What has been posted and which thread
has been given what, oldest first, is for the statements only. -/
structure PortState where
  sys : State
  ports : Addr → Option (List Packet)
  posted : Addr → List Packet := fun _ => []
  delivered : Addr → List (Tid × Packet) := fun _ => []

inductive PortResult
  | success
  | invalidHandle
  | invalidParameter
  | timeout
  /-- A write to memory that is not mapped has been thrown out of the handler. -/
  | faulted
  deriving DecidableEq, Repr

namespace PortState

def IsPort (s : PortState) (a : Addr) : Prop := s.ports a ≠ none

def portFromHandle (s : PortState) (handle : Nat) : Option Addr :=
  (s.sys.handles handle).filter fun a => (s.ports a).isSome

/-- The packets that are left, and the `resync` after it. -/
def setPackets (s : PortState) (a : Addr) (q : List Packet) : PortState :=
  { s with
    sys := s.sys.setState a (i32 q.length)
    ports := Function.update s.ports a (some q) }

def push (s : PortState) (a : Addr) (packet : Packet) : PortState :=
  let q := (s.ports a).getD []
  { s.setPackets a (q ++ [packet]) with
    posted := Function.update s.posted a (s.posted a ++ [packet]) }

def pop (s : PortState) (a : Addr) : PortState × Option Packet :=
  match (s.ports a).getD [] with
  | packet :: q => (s.setPackets a q, some packet)
  | [] => (s.setPackets a [], none)

def deliver (s : PortState) (a : Addr) (t : Tid) (packets : List Packet) : PortState :=
  { s with delivered := Function.update s.delivered a (s.delivered a ++ packets.map (t, ·)) }

end PortState

open PortState

def setIoCompletion (s : PortState) (handle : Nat) (packet : Packet) : PortState × PortResult :=
  match s.portFromHandle handle with
  | none => (s, .invalidHandle)
  | some port =>
    let s := s.push port packet
    ({ s with sys := s.sys.wakeWaiters sysProc port }, .success)

def removeIoCompletion (s : PortState) (t : Tid) (handle : Nat)
    (keyContext apcContext ioStatusBlock : Operand) : PortState × PortResult :=
  match s.portFromHandle handle with
  | none => (s, .invalidHandle)
  | some port =>
    match s.pop port with
    | (s, none) => (s, .timeout)
    | (s, some packet) =>
      if keyContext = .unmapped ∨ apcContext = .unmapped ∨ ioStatusBlock = .unmapped then (s, .faulted)
      else (s.deliver port t [packet], .success)

/-- The loop of `NtRemoveIoCompletionEx`, which takes `left` packets more. The memory at `entries` ends
after `room` of them. -/
def removeLoop (port : Addr) (room : Nat) : Nat → PortState → List Packet →
    PortState × Option (List Packet)
  | 0, s, removed => (s, some removed)
  | left + 1, s, removed =>
    match s.pop port with
    | (s, none) => (s, some removed)
    | (s, some packet) =>
      if removed.length < room then removeLoop port room left s (removed ++ [packet]) else (s, none)

def removeIoCompletionEx (s : PortState) (t : Tid) (handle : Nat) (entries : Option Nat) (count : Nat)
    (removedOut : Operand) : PortState × PortResult :=
  match s.portFromHandle handle with
  | none => (s, .invalidHandle)
  | some port =>
    match entries with
    | none => (s, .invalidParameter)
    | some room =>
      if count = 0 then (s, .invalidParameter)
      else
        match removeLoop port room count s [] with
        | (s, none) => (s, .faulted)
        | (s, some removed) =>
          if removedOut = .unmapped then (s, .faulted)
          else if removed = [] then (s, .timeout)
          else (s.deliver port t removed, .success)

/-- `other` is what threads do with the other dispatcher objects, and their waits, on ports too. -/
inductive PortAction
  | set (t : Tid) (handle : Nat) (packet : Packet)
  | remove (t : Tid) (handle : Nat) (keyContext apcContext ioStatusBlock : Operand)
  | removeEx (t : Tid) (handle : Nat) (entries : Option Nat) (count : Nat) (removedOut : Operand)
  | other (a : Action)
  deriving DecidableEq, Repr

def PortState.running (s : PortState) (t : Tid) : Bool :=
  match s.sys.thread t with
  | some th => th.wait = none
  | none => false

def portStep (s : PortState) : PortAction → Option PortState
  | .set t handle packet => if s.running t then some (setIoCompletion s handle packet).1 else none
  | .remove t handle keyContext apcContext ioStatusBlock =>
    if s.running t then
      some (removeIoCompletion s t handle keyContext apcContext ioStatusBlock).1
    else none
  | .removeEx t handle entries count removedOut =>
    if s.running t then some (removeIoCompletionEx s t handle entries count removedOut).1 else none
  | .other a => (step s.sys a).map fun sys => { s with sys }

/-- What may be relied on: a port is signalled as often as it has packets, and what has been posted to it
has been given to one thread each, in that order, or is queued. -/
structure PortOk (s : PortState) (a : Addr) (q : List Packet) : Prop where
  state : (s.sys.objs a).state = q.length
  conserved : s.posted a = (s.delivered a).map Prod.snd ++ q

/-! ## Waits that leave ports alone -/

section
variable (P : Addr → Prop)

def SparesWait (s : State) (t : Tid) (w : Wait) : Prop :=
  ∀ th l, s.thread t = some th → w.taken s.objs th.ethread = some l → ∀ b ∈ l.1, ¬ P b

def SparesWalk (a : Addr) : State → List Tid → Prop
  | _, [] => True
  | s, t :: ts =>
    (∀ th w, s.waitingOn t a = true → s.parked t = some (th, w) → SparesWait P s t w) ∧
      SparesWalk a (s.wakeOne a t) ts

variable {P}

theorem satisfy_spares {s : State} {t : Tid} {th : Thread} {w : Wait} {l : List Addr × Nat}
    (hl : ∀ b ∈ l.1, ¬ P b) {b : Addr} (hb : P b) : (s.satisfy t th w l.1 l.2).objs b = s.objs b :=
  takeAll_of_not_mem fun hmem => hl b hmem hb

theorem trySatisfy_spares {s : State} {t : Tid}
    (h : ∀ th w, s.parked t = some (th, w) → SparesWait P s t w) {b : Addr} (hb : P b) :
    ((s.trySatisfy t).getD s).objs b = s.objs b := by
  cases htry : s.trySatisfy t with
  | none => rfl
  | some s' =>
    obtain ⟨th, w, l, hp, hl, rfl⟩ := trySatisfy_eq_some.mp htry
    exact satisfy_spares (h th w hp th l (parked_eq_some.mp hp).1 hl) hb

theorem SparesWalk.objs {a : Addr} {s : State} {ts : List Tid} (h : SparesWalk P a s ts) {b : Addr}
    (hb : P b) : (ts.foldl (wakeOne a) s).objs b = s.objs b := by
  induction ts generalizing s with
  | nil => rfl
  | cons t ts ih =>
    rw [List.foldl_cons, ih h.2]
    unfold wakeOne
    split
    · rename_i hwaiting
      exact trySatisfy_spares (fun th w hp => h.1 th w hwaiting hp) hb
    · rfl

theorem SparesWait.objs {s : State} {t : Tid} {w : Wait} (h : SparesWait P s t w) {b : Addr} (hb : P b) :
    (s.beginWait t w).objs b = s.objs b := by
  unfold beginWait
  split
  · rename_i th hth
    refine trySatisfy_spares (s := s.setThread t { th with wait := some w }) (fun th' w' hp => ?_) hb
    obtain ⟨hth', hw', -⟩ := parked_eq_some.mp hp
    obtain rfl : { th with wait := some w } = th' := by
      simpa [setThread] using hth'
    obtain rfl := Option.some.inj hw'
    intro th'' l hth'' hl
    obtain rfl := Option.some.inj (hth'.symm.trans hth'')
    exact h th l hth hl
  · rfl

end

/-- What a step may not do: take a port for a wait, write to it otherwise than by its own handlers, fill it
past the range of its count, or remove packets to memory that is not mapped. -/
def Spares (s : PortState) : PortAction → Prop
  | .set _ handle packet => ∀ port, s.portFromHandle handle = some port →
      ∀ q, s.ports port = some q → q.length + 1 < 2 ^ 31 ∧
        SparesWalk s.IsPort port (s.push port packet).sys (s.sys.tids sysProc)
  | .remove _ handle keyContext apcContext ioStatusBlock =>
    ∀ port, s.portFromHandle handle = some port → ∀ q, s.ports port = some q → q ≠ [] →
      keyContext ≠ .unmapped ∧ apcContext ≠ .unmapped ∧ ioStatusBlock ≠ .unmapped
  | .removeEx _ handle entries count removedOut =>
    ∀ port, s.portFromHandle handle = some port → ∀ room, entries = some room → 0 < count →
      ∀ q, s.ports port = some q → q ≠ [] → min count q.length ≤ room ∧ removedOut ≠ .unmapped
  | .other (.call t c) => ∀ th, s.sys.thread t = some th →
      (∀ w, c.write s.sys th.ethread = some w → ¬ s.IsPort w.addr ∧
        (w.walked = true → SparesWalk s.IsPort w.addr ((c.tables s.sys).put w) (s.sys.tids sysProc))) ∧
        ∀ w, c.wait s.sys = some w →
          SparesWait s.IsPort ((c.tables s.sys).writes (c.write s.sys th.ethread)) t w
  | .other (.ready ..) => True
  | .other (.terminate p t) => ∀ th, s.sys.thread t = some th → ¬ s.IsPort th.ethread ∧
      SparesWalk s.IsPort th.ethread (s.sys.setState th.ethread 1) (s.sys.tids p)

instance (s : PortState) : DecidablePred s.IsPort := fun a => inferInstanceAs (Decidable (s.ports a ≠ none))

instance (P : Addr → Prop) [DecidablePred P] (s : State) (t : Tid) (w : Wait) :
    Decidable (SparesWait P s t w) :=
  decidable_of_iff (∀ th, s.thread t = some th → ∀ l, w.taken s.objs th.ethread = some l → ∀ b ∈ l.1, ¬ P b)
    ⟨fun h th l hth hl => h th hth l hl, fun h th hth l hl => h th l hth hl⟩

instance decidableSparesWalk (P : Addr → Prop) [DecidablePred P] (a : Addr) :
    (s : State) → (ts : List Tid) → Decidable (SparesWalk P a s ts)
  | _, [] => .isTrue trivial
  | s, t :: ts =>
    have := decidableSparesWalk P a (s.wakeOne a t) ts
    decidable_of_iff
      ((∀ x, s.parked t = some x → s.waitingOn t a = true → SparesWait P s t x.2) ∧
        SparesWalk P a (s.wakeOne a t) ts)
      ⟨fun h => ⟨fun th w hw hp => h.1 (th, w) hp hw, h.2⟩,
        fun h => ⟨fun x hp hw => h.1 x.1 x.2 hw hp, h.2⟩⟩

instance (s : PortState) : (a : PortAction) → Decidable (Spares s a)
  | .set .. | .remove .. | .removeEx .. | .other (.call ..) | .other (.terminate ..) => by
    unfold Spares
    infer_instance
  | .other (.ready ..) => .isTrue trivial

variable {s : PortState}

theorem step_spares {a : Action} (hok : Spares s (.other a)) {sys : State}
    (hstep : step s.sys a = some sys) {b : Addr} (hb : s.IsPort b) : sys.objs b = s.sys.objs b := by
  cases a with
  | call t c =>
    simp only [step] at hstep
    split at hstep
    · rename_i th hth
      split at hstep
      · obtain rfl := Option.some.inj hstep
        obtain ⟨hwrite, hwait⟩ := hok th hth
        have hagrees := c.agrees_tables s.sys
        have hwrites : ((c.tables s.sys).writes (c.write s.sys th.ethread)).objs b = s.sys.objs b := by
          cases hw : c.write s.sys th.ethread with
          | none => exact congrFun hagrees.objs b
          | some w =>
            obtain ⟨hport, hwalk⟩ := hwrite w hw
            have hput : ((c.tables s.sys).put w).objs b = s.sys.objs b :=
              (Function.update_of_ne (fun heq : b = w.addr => hport (heq ▸ hb)) ..).trans
                (congrFun hagrees.objs b)
            show ((c.tables s.sys).write w).objs b = _
            unfold State.write
            split
            · rename_i hwalked
              have htids : ((c.tables s.sys).put w).tids = s.sys.tids := hagrees.tids
              unfold wakeWaiters
              rw [htids, (hwalk hwalked).objs hb]
              exact hput
            · exact hput
        rw [c.run_eq s.sys t th.ethread]
        cases hw : c.wait s.sys with
        | none => exact hwrites
        | some w => exact ((hwait w hw).objs hb).trans hwrites
      · cases hstep
    · cases hstep
  | ready t now =>
    obtain ⟨r, hr, rfl⟩ := Option.map_eq_some_iff.mp hstep
    obtain ⟨th, w, -, -, hrun, -⟩ := isReady_eq_some hr
    rw [hrun]
    rfl
  | terminate p t =>
    simp only [step] at hstep
    split at hstep
    · rename_i th hth
      split at hstep
      · obtain rfl := Option.some.inj hstep
        obtain ⟨hport, hwalk⟩ := hok th hth
        show ((s.sys.setState th.ethread 1).wakeWaiters p th.ethread).objs b = _
        unfold wakeWaiters
        rw [show (s.sys.setState th.ethread 1).tids = s.sys.tids from rfl, hwalk.objs hb]
        exact Function.update_of_ne (fun heq : b = th.ethread => hport (heq ▸ hb)) ..
      · cases hstep
    · cases hstep

/-! ## Ports in agreement -/

def PortInv (s : PortState) : Prop :=
  ∀ a q, s.ports a = some q → PortOk s a q ∧ q.length < 2 ^ 31

theorem portFromHandle_eq_some {handle : Nat} {port : Addr}
    (h : s.portFromHandle handle = some port) : ∃ q, s.ports port = some q := by
  obtain ⟨-, hport⟩ := Option.filter_eq_some_iff.mp h
  exact Option.isSome_iff_exists.mp hport

theorem PortInv.congr (h : PortInv s) {sys : State}
    (hobjs : ∀ b, s.IsPort b → sys.objs b = s.sys.objs b) : PortInv { s with sys } := by
  intro a q hq
  obtain ⟨hok, hlen⟩ := h a q hq
  have hport : s.IsPort a := by
    rw [IsPort, hq]
    exact Option.some_ne_none q
  exact ⟨⟨(congrArg Object.state (hobjs a hport)).trans hok.state, hok.conserved⟩, hlen⟩

/-- The queue of one port has been replaced, and its count follows. -/
structure Replaced (s s' : PortState) (a : Addr) (q : List Packet) : Prop where
  ports : s'.ports = Function.update s.ports a (some q)
  posted : s'.posted = s.posted
  delivered : s'.delivered = s.delivered
  state : (s'.sys.objs a).state = q.length
  objs : ∀ b, b ≠ a → s'.sys.objs b = s.sys.objs b

variable {a : Addr} {q : List Packet}

theorem replaced_setPackets (hlen : q.length < 2 ^ 31) :
    Replaced s (s.setPackets a q) a q where
  ports := rfl
  posted := rfl
  delivered := rfl
  state := by
    simp only [setPackets, setState, setObj, Function.update_self]
    exact i32_eq (by omega) (by omega)
  objs b hb := Function.update_of_ne hb ..

theorem Replaced.trans {s₁ s₂ : PortState} {q₁ q₂ : List Packet} (h : Replaced s s₁ a q₁)
    (h' : Replaced s₁ s₂ a q₂) : Replaced s s₂ a q₂ where
  ports := by rw [h'.ports, h.ports, Function.update_idem]
  posted := h'.posted.trans h.posted
  delivered := h'.delivered.trans h.delivered
  state := h'.state
  objs b hb := (h'.objs b hb).trans (h.objs b hb)

theorem PortInv.deliver {s' : PortState} (h : PortInv s) {l : List Packet}
    (hq : s.ports a = some (l ++ q)) (hr : Replaced s s' a q) (t : Tid) : PortInv (s'.deliver a t l) := by
  obtain ⟨hok, hlen⟩ := h a _ hq
  intro b q' hq'
  have hports : Function.update s.ports a (some q) b = some q' := by
    rw [← hr.ports]
    exact hq'
  by_cases hb : b = a
  · subst hb
    rw [Function.update_self] at hports
    obtain rfl := Option.some.inj hports
    rw [List.length_append] at hlen
    refine ⟨⟨hr.state, ?_⟩, by omega⟩
    simp only [PortState.deliver, Function.update_self]
    rw [hr.posted, hr.delivered, hok.conserved, List.map_append, List.map_map, List.append_assoc]
    simp
  · rw [Function.update_of_ne hb] at hports
    obtain ⟨hok', hlen'⟩ := h b q' hports
    refine ⟨⟨?_, ?_⟩, hlen'⟩
    · show (s'.sys.objs b).state = _
      rw [hr.objs b hb]
      exact hok'.state
    · simp only [PortState.deliver, Function.update_of_ne hb]
      rw [hr.posted, hr.delivered]
      exact hok'.conserved

theorem deliver_nil (s : PortState) (a : Addr) (t : Tid) : s.deliver a t [] = s := by
  unfold PortState.deliver
  simp

theorem PortInv.push (h : PortInv s) (hq : s.ports a = some q) (packet : Packet) (hlen : q.length + 1 < 2 ^ 31) :
    PortInv (s.push a packet) := by
  have hlen' : (q ++ [packet]).length < 2 ^ 31 := by
    rw [List.length_append]
    exact hlen
  have hr := replaced_setPackets (s := s) (a := a) hlen'
  intro b q' hq'
  have hports : Function.update s.ports a (some (q ++ [packet])) b = some q' := by
    rw [← hq']
    simp [PortState.push, setPackets, hq]
  have hpush : (s.push a packet).sys = (s.setPackets a (q ++ [packet])).sys := by
    simp [PortState.push, setPackets, hq]
  by_cases hb : b = a
  · subst hb
    rw [Function.update_self] at hports
    obtain rfl := Option.some.inj hports
    refine ⟨⟨?_, ?_⟩, hlen'⟩
    · rw [hpush]
      exact hr.state
    · show Function.update s.posted b (s.posted b ++ [packet]) b = _
      rw [Function.update_self, (h b q hq).1.conserved, List.append_assoc]
      rfl
  · rw [Function.update_of_ne hb] at hports
    obtain ⟨hok', hlen'⟩ := h b q' hports
    refine ⟨⟨?_, ?_⟩, hlen'⟩
    · rw [hpush, hr.objs b hb]
      exact hok'.state
    · show Function.update s.posted a (s.posted a ++ [packet]) b = _
      rw [Function.update_of_ne hb]
      exact hok'.conserved

theorem pop_cons {packet : Packet}
    (hq : s.ports a = some (packet :: q)) : s.pop a = (s.setPackets a q, some packet) := by
  unfold PortState.pop
  rw [hq]
  rfl

theorem pop_nil (hq : s.ports a = some []) :
    s.pop a = (s.setPackets a [], none) := by
  unfold PortState.pop
  rw [hq]
  rfl

theorem removeLoop_spec {a : Addr} {room left : Nat} {s : PortState} {q removed : List Packet}
    (hq : s.ports a = some q) (hstate : (s.sys.objs a).state = q.length) (hlen : q.length < 2 ^ 31)
    (hroom : removed.length + min left q.length ≤ room) :
    ∃ s', removeLoop a room left s removed = (s', some (removed ++ q.take left)) ∧
      Replaced s s' a (q.drop left) := by
  induction left generalizing s q removed with
  | zero =>
    refine ⟨s, by simp [removeLoop], ⟨?_, rfl, rfl, hstate, fun _ _ => rfl⟩⟩
    rw [List.drop_zero, ← hq, Function.update_eq_self]
  | succ left ih =>
    cases q with
    | nil =>
      refine ⟨s.setPackets a [], ?_, replaced_setPackets (by decide)⟩
      rw [removeLoop, pop_nil hq]
      simp
    | cons packet q =>
      rw [List.length_cons] at hlen hroom
      have hr := replaced_setPackets (s := s) (a := a) (q := q) (by omega)
      have hroom' : (removed ++ [packet]).length + min left q.length ≤ room := by
        rw [List.length_append, List.length_singleton]
        omega
      obtain ⟨s', hloop, hr'⟩ := @ih (s.setPackets a q) q (removed ++ [packet])
        (Function.update_self ..) hr.state (by omega) hroom'
      refine ⟨s', ?_, hr.trans hr'⟩
      rw [removeLoop, pop_cons hq]
      dsimp only
      rw [if_pos (by omega), hloop, List.append_assoc]
      rfl

theorem PortInv.removeIoCompletion (h : PortInv s) (t : Tid) (handle : Nat)
    {keyContext apcContext ioStatusBlock : Operand}
    (hok : Spares s (.remove t handle keyContext apcContext ioStatusBlock)) :
    PortInv (removeIoCompletion s t handle keyContext apcContext ioStatusBlock).1 := by
  unfold Sync.removeIoCompletion
  cases hport : s.portFromHandle handle with
  | none => exact h
  | some port =>
    obtain ⟨q, hq⟩ := portFromHandle_eq_some hport
    obtain ⟨-, hlen⟩ := h port q hq
    cases q with
    | nil =>
      dsimp only
      rw [pop_nil hq]
      dsimp only
      rw [← deliver_nil (s.setPackets port []) port t]
      exact h.deliver (l := []) hq (replaced_setPackets (by decide)) t
    | cons packet q =>
      obtain ⟨hkey, hapc, hblock⟩ := hok port hport _ hq (List.cons_ne_nil _ _)
      rw [List.length_cons] at hlen
      dsimp only
      rw [pop_cons hq]
      dsimp only
      rw [if_neg (by simp [hkey, hapc, hblock])]
      exact h.deliver (l := [packet]) hq (replaced_setPackets (by omega)) t

theorem PortInv.removeIoCompletionEx (h : PortInv s) (t : Tid) (handle : Nat)
    {entries : Option Nat} {count : Nat} {removedOut : Operand}
    (hok : Spares s (.removeEx t handle entries count removedOut)) :
    PortInv (removeIoCompletionEx s t handle entries count removedOut).1 := by
  unfold Sync.removeIoCompletionEx
  cases hport : s.portFromHandle handle with
  | none => exact h
  | some port =>
    cases entries with
    | none => exact h
    | some room =>
      obtain ⟨q, hq⟩ := portFromHandle_eq_some hport
      obtain ⟨hokq, hlen⟩ := h port q hq
      dsimp only
      by_cases hcount : count = 0
      · rw [if_pos hcount]
        exact h
      · rw [if_neg hcount]
        have hroom : min count q.length ≤ room := by
          by_cases hnil : q = []
          · simp [hnil]
          · exact (hok port hport room rfl (Nat.pos_of_ne_zero hcount) q hq hnil).1
        obtain ⟨s', hloop, hr⟩ := @removeLoop_spec port room count s q [] hq hokq.state hlen
          (by simpa using hroom)
        have hinv : PortInv (s'.deliver port t (q.take count)) :=
          h.deliver (by rw [List.take_append_drop]; exact hq) hr t
        rw [hloop]
        dsimp only
        rw [List.nil_append]
        by_cases hnil : q = []
        · subst hnil
          rw [List.take_nil, deliver_nil] at hinv
          rw [List.take_nil, if_pos rfl]
          split <;> exact hinv
        · have hout := (hok port hport room rfl (Nat.pos_of_ne_zero hcount) q hq hnil).2
          rw [if_neg hout, if_neg (by simp [List.take_eq_nil_iff, hcount, hnil])]
          exact hinv

theorem PortInv.step {s' : PortState} {a : PortAction} (h : PortInv s) (hok : Spares s a)
    (hstep : portStep s a = some s') : PortInv s' := by
  cases a with
  | set t handle packet =>
    simp only [portStep] at hstep
    split at hstep
    · obtain rfl := Option.some.inj hstep
      unfold setIoCompletion
      cases hport : s.portFromHandle handle with
      | none => exact h
      | some port =>
        obtain ⟨q, hq⟩ := portFromHandle_eq_some hport
        obtain ⟨hlen, hwalk⟩ := hok port hport q hq
        refine (h.push hq packet hlen).congr fun b hb => hwalk.objs ?_
        by_cases hbp : b = port
        · rw [hbp, IsPort, hq]
          exact Option.some_ne_none q
        · intro hnone
          refine hb ?_
          show Function.update s.ports port _ b = none
          rw [Function.update_of_ne hbp]
          exact hnone
    · cases hstep
  | remove t handle keyContext apcContext ioStatusBlock =>
    simp only [portStep] at hstep
    split at hstep
    · obtain rfl := Option.some.inj hstep
      exact h.removeIoCompletion t handle hok
    · cases hstep
  | removeEx t handle entries count removedOut =>
    simp only [portStep] at hstep
    split at hstep
    · obtain rfl := Option.some.inj hstep
      exact h.removeIoCompletionEx t handle hok
    · cases hstep
  | other a =>
    obtain ⟨sys, hsys, rfl⟩ := Option.map_eq_some_iff.mp hstep
    exact h.congr fun b hb => step_spares hok hsys hb

def PortStart (s : PortState) : Prop :=
  ∀ a q, s.ports a = some q → q = [] ∧ (s.sys.objs a).state = 0 ∧ s.posted a = [] ∧ s.delivered a = []

theorem PortStart.inv (h : PortStart s) : PortInv s := by
  intro a q hq
  obtain ⟨rfl, hstate, hposted, hdelivered⟩ := h a q hq
  refine ⟨⟨hstate, ?_⟩, by decide⟩
  rw [hposted, hdelivered]
  rfl

/-- **A completion port conserves its packets, as long as no wait takes it and every packet that is removed
can be written.** -/
theorem portOk_of_spares {s s' : PortState} {acts : List PortAction} (hs : PortStart s)
    (hrun : Run.Steps portStep Spares s acts s') {a : Addr} {q : List Packet} (hq : s'.ports a = some q) :
    PortOk s' a q :=
  (hrun.invariant (P := fun s : PortState => PortInv s)
    (fun _ _ _ h hok hstep => h.step hok hstep) hs.inv a q hq).1

/-! ## One port -/

/-- Two threads of `sys_proc`, and a port that both have by the handle 4. -/
def onePort : PortState :=
  { sys :=
      { objs := fun _ => { kind := .queue, state := 0 }
        thread := twoThreads.thread
        tids := twoThreads.tids
        handles := fun handle => if handle = 4 then some 0x1000 else none }
    ports := fun a => if a = 0x1000 then some [] else none }

theorem onePort_start : PortStart onePort := by
  intro a q hq
  simp only [onePort] at hq
  split at hq
  · exact ⟨(Option.some.inj hq).symm, rfl, rfl, rfl⟩
  · cases hq

/-- A wait on the handle takes the count of a packet that stays queued. -/
theorem wait_takes_port :
    ∃ s', Run.Steps portStep (fun _ _ => True) onePort
        [.set 8 4 { keyContext := 1 }, .other (.call 12 (.ntWaitForSingleObject 4 .null 0))] s' ∧
      PortStart onePort ∧ s'.ports 0x1000 = some [{ keyContext := 1 }] ∧
      (s'.sys.objs 0x1000).state = 0 ∧ ¬ PortOk s' 0x1000 [{ keyContext := 1 }] := by
  have hfacts : ((Run.exec portStep (fun _ _ => true) onePort
      [.set 8 4 { keyContext := 1 }, .other (.call 12 (.ntWaitForSingleObject 4 .null 0))]).map fun s =>
      (s.ports 0x1000, (s.sys.objs 0x1000).state)) = some (some [{ keyContext := 1 }], 0) := by
    decide +kernel
  obtain ⟨s', hexec, hfacts⟩ := Option.map_eq_some_iff.mp hfacts
  obtain ⟨hports, hstate⟩ := Prod.mk.injEq .. ▸ hfacts
  refine ⟨s', Run.Steps.of_exec (fun _ _ _ => trivial) hexec, onePort_start, hports, hstate, fun hok => ?_⟩
  have hcount := hok.state
  rw [hstate] at hcount
  cases hcount

/-- A packet that cannot be written is neither delivered nor queued any more. -/
theorem remove_loses_packet :
    ∃ s', Run.Steps portStep (fun _ _ => True) onePort
        [.set 8 4 { keyContext := 1 }, .remove 12 4 .unmapped .null .null] s' ∧
      s'.ports 0x1000 = some [] ∧ s'.posted 0x1000 = [{ keyContext := 1 }] ∧ s'.delivered 0x1000 = [] := by
  have hfacts : ((Run.exec portStep (fun _ _ => true) onePort
      [.set 8 4 { keyContext := 1 }, .remove 12 4 .unmapped .null .null]).map fun s =>
      (s.ports 0x1000, s.posted 0x1000, s.delivered 0x1000)) =
      some (some [], [{ keyContext := 1 }], []) := by
    decide +kernel
  obtain ⟨s', hexec, hfacts⟩ := Option.map_eq_some_iff.mp hfacts
  refine ⟨s', Run.Steps.of_exec (fun _ _ _ => trivial) hexec, ?_⟩
  simpa only [Prod.mk.injEq] using hfacts

/-- Three packets, of which one thread is given two at once and the other the last, and a wait on the empty
port that is given up. -/
theorem onePort_conserves :
    ∃ s', Run.Steps portStep Spares onePort
        [.set 8 4 { keyContext := 1 }, .set 12 4 { keyContext := 2 }, .set 8 4 { keyContext := 3 },
          .removeEx 12 4 (some 2) 2 .mapped, .remove 8 4 .mapped .null .mapped,
          .other (.call 8 (.ntWaitForSingleObject 4 (.ticks (-10)) 0)), .other (.ready 8 10)] s' ∧
      (s'.delivered 0x1000).map Prod.fst = [12, 12, 8] ∧ PortOk s' 0x1000 [] := by
  have hfacts : ((Run.exec portStep (fun s a => decide (Spares s a)) onePort
      [.set 8 4 { keyContext := 1 }, .set 12 4 { keyContext := 2 }, .set 8 4 { keyContext := 3 },
        .removeEx 12 4 (some 2) 2 .mapped, .remove 8 4 .mapped .null .mapped,
        .other (.call 8 (.ntWaitForSingleObject 4 (.ticks (-10)) 0)), .other (.ready 8 10)]).map fun s =>
      (s.ports 0x1000, (s.delivered 0x1000).map Prod.fst)) = some (some [], [12, 12, 8]) := by
    decide +kernel
  obtain ⟨s', hexec, hfacts⟩ := Option.map_eq_some_iff.mp hfacts
  obtain ⟨hports, hgiven⟩ := Prod.mk.injEq .. ▸ hfacts
  have hrun := Run.Steps.of_exec (fun _ _ => of_decide_eq_true) hexec
  exact ⟨s', hrun, hgiven, portOk_of_spares onePort_start hrun hports⟩

end Kernemul.Sync
