import Kernemul.Win.Sync.FastMutex
import Kernemul.Win.Sync.Semaphore

/-!
# Keyed events

A keyed event has a gate of two semaphores for each key. Either party posts its own and waits for the
other's. As long as nobody gives up, a gate holds one post for everybody who waits at it, and as many waits
as releases have succeeded.
-/

namespace Kernemul.Sync

open State

structure Gate where
  arrivals : Addr := 0
  releases : Addr := 0
  deriving DecidableEq, Repr

/-- `gates` are those of each keyed event, by key; the object manager hands out addresses from `next` on. -/
structure KeyedState where
  sys : State
  gates : Nat → Addr → Gate := fun _ _ => {}
  next : Addr := 1

/-- `make_semaphore`: its address, or zero where there is no memory left. -/
def makeSemaphore (s : KeyedState) (self : Addr) (memory : Bool) : KeyedState × Addr :=
  if memory then
    let o : Object := { kind := .semaphore, state := 0, limit := 2 ^ 31 - 1 }
    ({ s with sys := (s.sys.setObj s.next o).recordInit self s.next, next := s.next + 1 }, s.next)
  else (s, 0)

def KeyedState.setGate (s : KeyedState) (host : Nat) (key : Addr) (g : Gate) : KeyedState :=
  { s with gates := Function.update s.gates host (Function.update (s.gates host) key g) }

def gateFor (s : KeyedState) (self : Addr) (host : Nat) (key : Addr) (memory : Bool × Bool) :
    KeyedState × Gate :=
  if (s.gates host key).arrivals = 0 then
    let arrivals := makeSemaphore s self memory.1
    let releases := makeSemaphore arrivals.1 self memory.2
    let found : Gate := { arrivals := arrivals.2, releases := releases.2 }
    (releases.1.setGate host key found, found)
  else (s, s.gates host key)

def Gate.side (g : Gate) (releasing : Bool) : Addr := if releasing then g.releases else g.arrivals

def postOne (s : State) (self post : Addr) : State :=
  s.releaseSemaphore self post 1 .null

def postAndWait (s : State) (t : Tid) (self post : Addr) (w : Wait) : State :=
  (postOne s self post).beginWait t w

/-- `rendezvous`, of `NtReleaseKeyedEvent` when `releasing` and else of `NtWaitForKeyedEvent`. The handle
has been looked up: `host` is the keyed event, if it is one. The timeout is read after the post, which
stands when the read is thrown out of the handler. -/
def rendezvous (s : KeyedState) (t : Tid) (self : Addr) (host : Option Nat) (key : Addr)
    (memory : Bool × Bool) (timeout : Timeout) (now : Int) (releasing : Bool) : KeyedState :=
  match host with
  | none => s
  | some host =>
    let r := gateFor s self host key memory
    if r.2.arrivals = 0 ∨ r.2.releases = 0 then r.1
    else
      match timeout.read with
      | some ticks =>
        let w := makeWait [r.2.side (!releasing)] 1 ticks now
        { r.1 with sys := postAndWait r.1.sys t self (r.2.side releasing) w }
      | none => { r.1 with sys := postOne r.1.sys self (r.2.side releasing) }

inductive KeyedAction
  | rendezvous (t : Tid) (host : Option Nat) (key : Addr) (memory : Bool × Bool) (timeout : Timeout)
    (now : Int) (releasing : Bool)
  | ready (t : Tid) (now : Int)
  deriving DecidableEq, Repr

def keyedStep (s : KeyedState) : KeyedAction → Option KeyedState
  | .rendezvous t host key memory timeout now releasing =>
    match s.sys.thread t with
    | some th =>
      if th.wait = none then some (rendezvous s t th.ethread host key memory timeout now releasing)
      else none
    | none => none
  | .ready t now => (s.sys.isReady t now).map fun r => { s with sys := r.1 }

/-! ## Posting and waiting -/

theorem take_semaphore {o : Object} (h : o.kind = .semaphore) (state : Int) (self : Addr) :
    take { o with state } self = { o with state := i32 (state - 1) } := by
  unfold take
  simp only [h]

section
variable {s : State} {t : Tid} {th : Thread} {post other : Addr} {w : Wait}

/-- Nobody waits for the post, and nothing has been posted for the caller: it is parked. -/
theorem postAndWait_park (hth : s.thread t = some th) (hne : post ≠ other)
    (ho : w.objects = [other]) (hall : w.all = false) (hsat : w.satisfied = false)
    (hnone : ∀ u, s.parkedOn post u = false) (hkind : (s.objs other).kind = .semaphore)
    (hzero : (s.objs other).state = 0) :
    (postAndWait s t th.ethread post w).objs =
        Function.update s.objs post { s.objs post with state := i32 ((s.objs post).state + 1) } ∧
      (∀ u, (postAndWait s t th.ethread post w).parked u =
        if u = t then some ({ th with wait := some w }, w) else s.parked u) ∧
      (postAndWait s t th.ethread post w).log = .released th.ethread post 1 :: s.log ∧
      (postAndWait s t th.ethread post w).tids = s.tids := by
  have hwalk : postOne s th.ethread post =
        (s.record (.released th.ethread post 1)).setObj post
          { s.objs post with state := i32 ((s.objs post).state + 1) } :=
    walk_of_none fun u _ => hnone u
  have hbegin := beginWait_of_not_signalled
    (s := (s.record (.released th.ethread post 1)).setObj post
      { s.objs post with state := i32 ((s.objs post).state + 1) }) (t := t) (w := w)
    (a := other) hth ho hall (by
      rw [show ((s.record (.released th.ethread post 1)).setObj post
        { s.objs post with state := i32 ((s.objs post).state + 1) }).objs other = s.objs other from
          Function.update_of_ne (Ne.symm hne) ..]
      exact not_isSignalled hzero.le (fun hm => by rw [hkind] at hm; cases hm))
  unfold postAndWait
  rw [hwalk, hbegin]
  refine ⟨rfl, fun u => ?_, rfl, rfl⟩
  by_cases hu : u = t
  · rw [if_pos hu, hu]
    exact parked_eq_some.mpr ⟨Function.update_self .., rfl, hsat⟩
  · rw [if_neg hu, parked_setThread_of_ne hu]
    rfl

/-- Somebody waits for the post and takes it, and the caller takes what has been posted for it. -/
theorem postAndWait_pair (hth : s.thread t = some th) (hwait : th.wait = none)
    (ho : w.objects = [other]) (hall : w.all = false) (hsat : w.satisfied = false)
    (hsingle : s.Single post) (hsome : ∃ u ∈ s.tids sysProc, s.parkedOn post u = true)
    (hpost : (s.objs post).kind = .semaphore) (hzero : (s.objs post).state = 0)
    (hother : (s.objs other).kind = .semaphore) (hpos : 0 < (s.objs other).state)
    (hlt : (s.objs other).state < 2 ^ 31) :
    ∃ t' self' before before', s.parkedOn post t' = true ∧
      (postAndWait s t th.ethread post w).objs =
        Function.update s.objs other { s.objs other with state := (s.objs other).state - 1 } ∧
      (∀ u, (postAndWait s t th.ethread post w).parked u =
        if u = t ∨ u = t' then none else s.parked u) ∧
      (postAndWait s t th.ethread post w).log = .satisfied th.ethread [other] before' ::
        .satisfied self' [post] before :: .released th.ethread post 1 :: s.log ∧
      (postAndWait s t th.ethread post w).tids = s.tids := by
  -- the state when the walk begins
  obtain ⟨s₁, hs₁⟩ : ∃ s₁ : State, s₁ = (s.record (.released th.ethread post 1)).setObj post
      { s.objs post with state := i32 ((s.objs post).state + 1) } := ⟨_, rfl⟩
  have hobj₁ : s₁.objs = Function.update s.objs post { s.objs post with state := 1 } := by
    have hone : i32 ((s.objs post).state + 1) = 1 := by
      rw [hzero]
      exact i32_eq (by omega) (by omega)
    rw [hs₁]
    show Function.update s.objs post { s.objs post with state := i32 ((s.objs post).state + 1) } = _
    rw [hone]
  have hparked₁ : ∀ u, s₁.parked u = s.parked u := fun u => parked_congr (by rw [hs₁]; rfl) u
  have hsingle₁ : s₁.Single post := fun u th' w' hp => hsingle u th' w' ((hparked₁ u).symm.trans hp)
  have hparkedOn₁ : s₁.parkedOn post = s.parkedOn post := by
    funext u
    unfold parkedOn
    rw [hparked₁]
  have htake : ∀ self, take (s₁.objs post) self = { s.objs post with state := 0 } := by
    intro self
    have hzero' : i32 ((1 : Int) - 1) = 0 := i32_eq (by omega) (by omega)
    rw [hobj₁, Function.update_self, take_semaphore hpost, hzero']
  obtain ⟨u, hu, hpu⟩ := hsome
  obtain ⟨t', hfind⟩ : ∃ t', (s₁.tids sysProc).find? (s₁.parkedOn post) = some t' := by
    rw [show s₁.tids = s.tids by rw [hs₁]; rfl, hparkedOn₁]
    cases hfind : (s.tids sysProc).find? (s.parkedOn post) with
    | none => exact absurd hpu (List.find?_eq_none.mp hfind u hu)
    | some t' => exact ⟨t', rfl⟩
  obtain ⟨th', w', hp', ho', hwalk⟩ := walk_first hsingle₁
    (fun self => isSignalled_of_pos (by rw [hobj₁, Function.update_self]; exact Int.one_pos) self)
    (fun self self' => by
      rw [htake]
      exact not_isSignalled (le_refl (0 : Int)) (fun hm => by cases hpost.symm.trans hm)) hfind
  have hpt' : s.parkedOn post t' = true := by
    rw [← hparkedOn₁]
    exact List.find?_some hfind
  have htt' : t ≠ t' := by
    rintro rfl
    rw [parkedOn_of_no_wait hth hwait] at hpt'
    cases hpt'
  -- the state when the caller begins its wait
  obtain ⟨s₂, hs₂⟩ : ∃ s₂ : State, s₂ = s₁.satisfy t' th' w' [post] 0 := ⟨_, rfl⟩
  have hobj₂ : s₂.objs = s.objs := by
    rw [hs₂, satisfy_objs, takeAll_cons, takeAll_nil, htake, hobj₁, Function.update_idem]
    have hsame : ({ s.objs post with state := 0 } : Object) = s.objs post := by
      rw [← hzero]
    rw [hsame, Function.update_eq_self]
  have hth₂ : s₂.thread t = some th := by
    rw [hs₂, satisfy_thread, Function.update_of_ne htt', hs₁]
    exact hth
  have hbegin := beginWait_of_signalled hth₂ ho hall hsat
    (isSignalled_of_pos (by rw [hobj₂]; exact hpos) th.ethread)
  have hrun : postAndWait s t th.ethread post w =
      (s₂.setThread t { th with wait := some w }).satisfy t { th with wait := some w } w [other] 0 := by
    rw [← hbegin, hs₂, ← hwalk, hs₁]
    rfl
  rw [hrun]
  refine ⟨t', th'.ethread, s₁.objs, s₂.objs, hpt', ?_, fun v => ?_, ?_, ?_⟩
  · rw [satisfy_objs, takeAll_cons, takeAll_nil]
    have htake₂ := take_semaphore hother (s.objs other).state th.ethread
    rw [i32_eq (by omega) (by omega)] at htake₂
    rw [show (s₂.setThread t { th with wait := some w }).objs = s.objs from hobj₂]
    exact congrArg _ htake₂
  · rw [parked_satisfy]
    by_cases hv : v = t
    · rw [if_pos hv, if_pos (.inl hv)]
    · rw [if_neg hv, parked_setThread_of_ne hv, hs₂, parked_satisfy, hparked₁]
      by_cases hv' : v = t'
      · rw [if_pos hv', if_pos (.inr hv')]
      · rw [if_neg hv', if_neg (not_or.mpr ⟨hv, hv'⟩)]
  · rw [satisfy_log]
    show _ :: s₂.log = _
    rw [hs₂, satisfy_log, hs₁]
    rfl
  · rw [satisfy_tids]
    show s₂.tids = s.tids
    rw [hs₂, satisfy_tids, hs₁]
    rfl

end

/-! ## One gate -/

def Parked (s : State) (a : Addr) (l : List Tid) : Prop := l.Nodup ∧ ∀ t, t ∈ l ↔ s.parkedOn a t = true

/-- What the parties at a gate rely on: no more waits succeed than releases have begun, as many waits as
releases have succeeded, and a post stands for each party that waits, and for nobody else. -/
structure KeyedOk (s : State) (g : Gate) : Prop where
  waits_le : (satisfiedWaits g.releases s.log : Int) ≤ granted g.releases s.log
  matched : satisfiedWaits g.releases s.log = satisfiedWaits g.arrivals s.log
  arrivals : ∃ l, Parked s g.releases l ∧ (s.objs g.arrivals).state = l.length
  releases : ∃ l, Parked s g.arrivals l ∧ (s.objs g.releases).state = l.length

/-- Of the parties that post `x` to wait for `y`, and the other way about, only those of one kind wait. -/
structure Balanced (s : State) (x y : Addr) (lx ly : List Tid) : Prop where
  parked_x : Parked s y lx
  parked_y : Parked s x ly
  kind_x : (s.objs x).kind = .semaphore
  kind_y : (s.objs y).kind = .semaphore
  state_x : (s.objs x).state = lx.length
  state_y : (s.objs y).state = ly.length
  lt_x : (s.objs x).state < 2 ^ 31
  lt_y : (s.objs y).state < 2 ^ 31
  one_kind : lx = [] ∨ ly = []
  matched : satisfiedWaits x s.log = satisfiedWaits y s.log
  granted_x : granted x s.log = lx.length + satisfiedWaits x s.log
  granted_y : granted y s.log = ly.length + satisfiedWaits y s.log

variable {s : State} {x y : Addr} {lx ly : List Tid}

theorem Balanced.symm (h : Balanced s x y lx ly) :
    Balanced s y x ly lx :=
  ⟨h.parked_y, h.parked_x, h.kind_y, h.kind_x, h.state_y, h.state_x, h.lt_y, h.lt_x, h.one_kind.symm,
    h.matched.symm, h.granted_y, h.granted_x⟩

theorem Balanced.ok {g : Gate} (h : Balanced s g.arrivals g.releases lx ly) : KeyedOk s g := by
  refine ⟨?_, h.matched.symm, ⟨lx, h.parked_x, h.state_x⟩, ⟨ly, h.parked_y, h.state_y⟩⟩
  have hgranted := h.granted_y
  omega

theorem Balanced.congr {s' : State} (h : Balanced s x y lx ly) (hobjs : ∀ a, a = x ∨ a = y → s'.objs a = s.objs a)
    (hparked : ∀ a, a = x ∨ a = y → s'.parkedOn a = s.parkedOn a)
    (hgranted : ∀ a, a = x ∨ a = y → granted a s'.log = granted a s.log)
    (hwaits : ∀ a, a = x ∨ a = y → satisfiedWaits a s'.log = satisfiedWaits a s.log) :
    Balanced s' x y lx ly := by
  obtain ⟨hx, hy⟩ : (x = x ∨ x = y) ∧ (y = x ∨ y = y) := ⟨.inl rfl, .inr rfl⟩
  constructor
  · rw [Parked, hparked y hy]
    exact h.parked_x
  · rw [Parked, hparked x hx]
    exact h.parked_y
  · rw [hobjs x hx]
    exact h.kind_x
  · rw [hobjs y hy]
    exact h.kind_y
  · rw [hobjs x hx]
    exact h.state_x
  · rw [hobjs y hy]
    exact h.state_y
  · rw [hobjs x hx]
    exact h.lt_x
  · rw [hobjs y hy]
    exact h.lt_y
  · exact h.one_kind
  · rw [hwaits x hx, hwaits y hy]
    exact h.matched
  · rw [hgranted x hx, hwaits x hx]
    exact h.granted_x
  · rw [hgranted y hy, hwaits y hy]
    exact h.granted_y

theorem Balanced.none_parked (h : Balanced s x y lx []) (u : Tid) :
    s.parkedOn x u = false := by
  cases hp : s.parkedOn x u with
  | false => rfl
  | true => exact absurd ((h.parked_y.2 u).mpr hp) List.not_mem_nil

variable {t : Tid} {th : Thread} {w : Wait}

/-- A party comes to a gate that nobody of the other kind waits at: it waits itself. -/
theorem Balanced.park (h : Balanced s x y lx []) (hne : x ≠ y) (hth : s.thread t = some th) (hwait : th.wait = none)
    (ho : w.objects = [y]) (hall : w.all = false) (hsat : w.satisfied = false)
    (hroom : (s.objs x).state < 2 ^ 31 - 1) :
    Balanced (postAndWait s t th.ethread x w) x y (t :: lx) [] := by
  obtain ⟨hobjs, hparked, hlog, -⟩ := postAndWait_park hth hne ho hall hsat h.none_parked h.kind_y h.state_y
  have hmem : t ∉ lx := by
    rw [h.parked_x.2 t, parkedOn_of_no_wait hth hwait]
    simp
  have hx := h.state_x
  have hpx : (postAndWait s t th.ethread x w).objs x = { s.objs x with state := (s.objs x).state + 1 } := by
    rw [hobjs, Function.update_self, i32_eq (by omega) (by omega)]
  have hpy : (postAndWait s t th.ethread x w).objs y = s.objs y := by
    rw [hobjs, Function.update_of_ne (Ne.symm hne)]
  have hwaits : ∀ a, satisfiedWaits a (postAndWait s t th.ethread x w).log = satisfiedWaits a s.log :=
    fun a => by rw [hlog]; rfl
  constructor
  · refine ⟨List.nodup_cons.mpr ⟨hmem, h.parked_x.1⟩, fun u => ?_⟩
    unfold parkedOn
    rw [hparked]
    by_cases hu : u = t
    · rw [if_pos hu, hu]
      simp [ho]
    · rw [if_neg hu, List.mem_cons, or_iff_right hu]
      exact h.parked_x.2 u
  · refine ⟨List.nodup_nil, fun u => ?_⟩
    unfold parkedOn
    rw [hparked]
    by_cases hu : u = t
    · rw [if_pos hu]
      simp [ho, hne]
    · rw [if_neg hu]
      exact h.parked_y.2 u
  · rw [hpx]
    exact h.kind_x
  · rw [hpy]
    exact h.kind_y
  · rw [hpx, List.length_cons]
    push_cast
    omega
  · rw [hpy]
    exact h.state_y
  · rw [hpx]
    dsimp only
    omega
  · rw [hpy]
    exact h.lt_y
  · exact .inr rfl
  · rw [hwaits, hwaits]
    exact h.matched
  · have hg := h.granted_x
    rw [hwaits, hlog, granted, if_pos rfl, List.length_cons]
    push_cast
    omega
  · have hg := h.granted_y
    rw [hwaits, hlog, granted, if_neg hne]
    omega

/-- Who comes to a gate that some of the other kind wait at releases one of them, and does not wait. -/
theorem Balanced.meets (h : Balanced s x y [] ly) (hly : ly ≠ [])
    (hth : s.thread t = some th) (hwait : th.wait = none)
    (ho : w.objects = [y]) (hall : w.all = false) (hsat : w.satisfied = false) (hsingle : s.Single x)
    (hlocal : ∀ u, s.parkedOn x u = true → u ∈ s.tids sysProc) :
    ∃ t' self' before before', s.parkedOn x t' = true ∧
      (postAndWait s t th.ethread x w).objs =
        Function.update s.objs y { s.objs y with state := (s.objs y).state - 1 } ∧
      (∀ u, (postAndWait s t th.ethread x w).parked u = if u = t ∨ u = t' then none else s.parked u) ∧
      (postAndWait s t th.ethread x w).log = .satisfied th.ethread [y] before' ::
        .satisfied self' [x] before :: .released th.ethread x 1 :: s.log := by
  obtain ⟨u, hu⟩ := List.exists_mem_of_ne_nil ly hly
  have hpu := (h.parked_y.2 u).mp hu
  have hpos : 0 < (s.objs y).state := by
    have hlen := List.length_pos_of_mem hu
    rw [h.state_y]
    omega
  obtain ⟨t', self', before, before', hpt', hobjs, hparked, hlog, -⟩ :=
    postAndWait_pair hth hwait ho hall hsat hsingle ⟨u, hlocal u hpu, hpu⟩ h.kind_x h.state_x h.kind_y
      hpos h.lt_y
  exact ⟨t', self', before, before', hpt', hobjs, hparked, hlog⟩

/-- Threads that wait no more are parked on nothing. -/
theorem parkedOn_of_parked {s' : State} {gone : Tid → Prop} [DecidablePred gone]
    (h : ∀ u, s'.parked u = if gone u then none else s.parked u) (a : Addr) (u : Tid) :
    s'.parkedOn a u = if gone u then false else s.parkedOn a u := by
  unfold parkedOn
  rw [h]
  by_cases hu : gone u
  · rw [if_pos hu, if_pos hu]
  · rw [if_neg hu, if_neg hu]

/-- A party comes to a gate that some of the other kind wait at: it meets one of them. -/
theorem Balanced.pair (h : Balanced s x y [] ly) (hne : x ≠ y)
    (hly : ly ≠ []) (hth : s.thread t = some th) (hwait : th.wait = none)
    (ho : w.objects = [y]) (hall : w.all = false) (hsat : w.satisfied = false)
    (hsingle : s.Single x) (hlocal : ∀ u, s.parkedOn x u = true → u ∈ s.tids sysProc) :
    ∃ t', t' ∈ ly ∧ Balanced (postAndWait s t th.ethread x w) x y [] (ly.erase t') := by
  obtain ⟨t', self', before, before', hpt', hobjs, hparked, hlog⟩ :=
    h.meets hly hth hwait ho hall hsat hsingle hlocal
  have hmem : t' ∈ ly := (h.parked_y.2 t').mpr hpt'
  have hlen : ((ly.erase t').length : Int) = ly.length - 1 := by
    have hpos' := List.length_pos_of_mem hmem
    rw [List.length_erase_of_mem hmem]
    omega
  have hpx : (postAndWait s t th.ethread x w).objs x = s.objs x := by
    rw [hobjs, Function.update_of_ne hne]
  have hpy : (postAndWait s t th.ethread x w).objs y = { s.objs y with state := (s.objs y).state - 1 } := by
    rw [hobjs, Function.update_self]
  have hwx : satisfiedWaits x (postAndWait s t th.ethread x w).log = satisfiedWaits x s.log + 1 := by
    rw [hlog]
    simp [satisfiedWaits, hne]
  have hwy : satisfiedWaits y (postAndWait s t th.ethread x w).log = satisfiedWaits y s.log + 1 := by
    rw [hlog]
    simp [satisfiedWaits, Ne.symm hne]
  have hparkedOn := parkedOn_of_parked hparked
  have hnt : ∀ a, s.parkedOn a t = false := parkedOn_of_no_wait hth hwait
  refine ⟨t', hmem, ?_⟩
  have hsx := h.state_x
  have hsy := h.state_y
  have hlt := h.lt_y
  have hmatched := h.matched
  have hgx := h.granted_x
  have hgy := h.granted_y
  constructor
  · refine ⟨List.nodup_nil, fun u => ?_⟩
    rw [hparkedOn]
    split
    · simp
    · exact h.parked_x.2 u
  · refine ⟨h.parked_y.1.erase t', fun u => ?_⟩
    rw [h.parked_y.1.mem_erase_iff, h.parked_y.2 u, hparkedOn]
    by_cases hut : u = t
    · rw [if_pos (.inl hut), hut, hnt]
      simp
    · by_cases hut' : u = t'
      · rw [if_pos (.inr hut')]
        simp [hut']
      · rw [if_neg (not_or.mpr ⟨hut, hut'⟩)]
        exact and_iff_right hut'
  · rw [hpx]
    exact h.kind_x
  · rw [hpy]
    exact h.kind_y
  · rw [hpx]
    exact h.state_x
  · rw [hpy]
    dsimp only
    omega
  · rw [hpx]
    exact h.lt_x
  · rw [hpy]
    dsimp only
    omega
  · exact .inl rfl
  · rw [hwx, hwy, hmatched]
  · rw [hwx, hlog]
    simp only [granted, if_true, List.length_nil]
    push_cast
    simp only [List.length_nil] at hgx
    omega
  · rw [hwy, hlog]
    simp only [granted, if_neg hne]
    omega

structure Elsewhere (s s' : State) (x y : Addr) : Prop where
  objs : ∀ a, a ≠ x → a ≠ y → s'.objs a = s.objs a
  parkedOn : ∀ a, a ≠ x → a ≠ y → s'.parkedOn a = s.parkedOn a
  granted : ∀ a, a ≠ x → a ≠ y → granted a s'.log = granted a s.log
  waits : ∀ a, a ≠ x → a ≠ y → satisfiedWaits a s'.log = satisfiedWaits a s.log
  parked : ∀ u th w, s'.parked u = some (th, w) →
    s.parked u = some (th, w) ∨ w.objects = [y] ∧ w.all = false

theorem Balanced.park_elsewhere (h : Balanced s x y lx []) (hne : x ≠ y) (hth : s.thread t = some th)
    (hwait : th.wait = none) (ho : w.objects = [y]) (hall : w.all = false) (hsat : w.satisfied = false) :
    Elsewhere s (postAndWait s t th.ethread x w) x y := by
  obtain ⟨hobjs, hparked, hlog, -⟩ := postAndWait_park hth hne ho hall hsat h.none_parked h.kind_y h.state_y
  constructor
  · intro a hx _
    rw [hobjs, Function.update_of_ne hx]
  · intro a _ hy
    funext u
    by_cases hu : u = t
    · rw [hu, parkedOn_of_no_wait hth hwait]
      unfold parkedOn
      rw [hparked, if_pos rfl]
      simp [ho, hy]
    · unfold parkedOn
      rw [hparked, if_neg hu]
  · intro a hx _
    rw [hlog, Sync.granted, if_neg (Ne.symm hx), Int.add_zero]
  · intro a _ _
    rw [hlog]
    rfl
  · intro u th' w' hp
    rw [hparked] at hp
    split at hp
    · cases hp
      exact .inr ⟨ho, hall⟩
    · exact .inl hp

theorem Balanced.pair_elsewhere (h : Balanced s x y [] ly) (hly : ly ≠ []) (hth : s.thread t = some th)
    (hwait : th.wait = none) (ho : w.objects = [y]) (hall : w.all = false) (hsat : w.satisfied = false)
    (hsingle : s.Single x) (hlocal : ∀ u, s.parkedOn x u = true → u ∈ s.tids sysProc) :
    Elsewhere s (postAndWait s t th.ethread x w) x y := by
  obtain ⟨t', self', before, before', hpt', hobjs, hparked, hlog⟩ :=
    h.meets hly hth hwait ho hall hsat hsingle hlocal
  -- the thread it meets waits on nothing else
  have hnt' : ∀ a, a ≠ x → s.parkedOn a t' = false := by
    intro a ha
    obtain ⟨th', w', hp', hx⟩ := parkedOn_eq_true.mp hpt'
    unfold parkedOn
    rw [hp']
    dsimp only
    rw [(hsingle t' th' w' hp' hx).1]
    simp [ha]
  constructor
  · intro a _ hy
    rw [hobjs, Function.update_of_ne hy]
  · intro a hx _
    funext v
    rw [parkedOn_of_parked hparked]
    split
    · rename_i hv
      rcases hv with rfl | rfl
      · exact (parkedOn_of_no_wait hth hwait a).symm
      · exact (hnt' a hx).symm
    · rfl
  · intro a hx _
    rw [hlog]
    simp [Sync.granted, Ne.symm hx]
  · intro a hx hy
    rw [hlog]
    simp [satisfiedWaits, hx, hy]
  · intro v th' w' hp
    rw [hparked] at hp
    split at hp
    · cases hp
    · exact .inl hp

theorem Balanced.post (h : Balanced s x y lx ly) (hne : x ≠ y) (hth : s.thread t = some th) (hwait : th.wait = none)
    (ho : w.objects = [y]) (hall : w.all = false) (hsat : w.satisfied = false) (hsingle : s.Single x)
    (hlocal : ∀ u, s.parkedOn x u = true → u ∈ s.tids sysProc) (hroom : (s.objs x).state < 2 ^ 31 - 1) :
    (∃ lx' ly', Balanced (postAndWait s t th.ethread x w) x y lx' ly') ∧
      Elsewhere s (postAndWait s t th.ethread x w) x y := by
  by_cases hly : ly = []
  · subst hly
    exact ⟨⟨_, _, h.park hne hth hwait ho hall hsat hroom⟩, h.park_elsewhere hne hth hwait ho hall hsat⟩
  · have hlx : lx = [] := h.one_kind.resolve_right hly
    subst hlx
    obtain ⟨t', -, hpair⟩ := h.pair hne hly hth hwait ho hall hsat hsingle hlocal
    exact ⟨⟨_, _, hpair⟩, h.pair_elsewhere hly hth hwait ho hall hsat hsingle hlocal⟩

/-! ## All gates -/

def Gate.Made (g : Gate) : Prop := g.arrivals ≠ 0 ∧ g.releases ≠ 0

/-- Every gate is balanced, gates share no semaphore, and threads wait at gates only. -/
structure KeyedInv (s : KeyedState) : Prop where
  waits : ∀ t th w, s.sys.parked t = some (th, w) → w.all = false ∧
    ∃ h k side, (s.gates h k).Made ∧ w.objects = [(s.gates h k).side side]
  distinct : ∀ h k side h' k' side', (s.gates h k).side side ≠ 0 →
    (s.gates h k).side side = (s.gates h' k').side side' → h = h' ∧ k = k' ∧ side = side'
  below : ∀ h k side, (s.gates h k).side side < s.next
  balanced : ∀ h k, (s.gates h k).Made →
    ∃ lx ly, Balanced s.sys (s.gates h k).arrivals (s.gates h k).releases lx ly

theorem Gate.Made.side_ne {g : Gate} (h : g.Made) (side : Bool) : g.side side ≠ 0 := by
  cases side with
  | false => exact h.1
  | true => exact h.2

theorem KeyedInv.single {s : KeyedState} (h : KeyedInv s) (a : Addr) : s.sys.Single a := by
  intro t th w hp ha
  obtain ⟨hall, host, k, side, -, ho⟩ := h.waits t th w hp
  rw [ho] at ha ⊢
  exact ⟨by rw [List.mem_singleton.mp ha], hall⟩

structure Unused (s : KeyedState) (a : Addr) : Prop where
  kind : (s.sys.objs a).kind = .semaphore
  state : (s.sys.objs a).state = 0
  parkedOn : ∀ u, s.sys.parkedOn a u = false
  granted : granted a s.sys.log = 0
  waits : satisfiedWaits a s.sys.log = 0
  lt : a < s.next
  ne : ∀ h k side, (s.gates h k).side side ≠ a

theorem parkedOn_of_le {s : KeyedState} (h : KeyedInv s) {a : Addr} (ha : s.next ≤ a) (u : Tid) :
    s.sys.parkedOn a u = false := by
  cases hp : s.sys.parkedOn a u with
  | false => rfl
  | true =>
    obtain ⟨th, w, hpark, hmem⟩ := parkedOn_eq_true.mp hp
    obtain ⟨-, host, k, side, -, ho⟩ := h.waits u th w hpark
    rw [ho] at hmem
    have hlt := h.below host k side
    rw [← List.mem_singleton.mp hmem] at hlt
    exact absurd hlt (Nat.not_lt.mpr ha)

section
variable {s : KeyedState} (self : Addr)

theorem KeyedInv.makeSemaphore (h : KeyedInv s) (memory : Bool) :
    KeyedInv (makeSemaphore s self memory).1 := by
  cases memory with
  | false => exact h
  | true =>
    refine ⟨h.waits, h.distinct, fun host k side => Nat.lt_succ_of_lt (h.below host k side),
      fun host k hmade => ?_⟩
    obtain ⟨lx, ly, hb⟩ := h.balanced host k hmade
    have hside : ∀ a, a = (s.gates host k).arrivals ∨ a = (s.gates host k).releases → a ≠ s.next := by
      rintro a (rfl | rfl)
      · exact Nat.ne_of_lt (h.below host k false)
      · exact Nat.ne_of_lt (h.below host k true)
    refine ⟨lx, ly, hb.congr (fun a ha => Function.update_of_ne (hside a ha) ..) (fun a _ => rfl)
      (fun a ha => ?_) (fun a ha => ?_)⟩
    · exact if_neg (Ne.symm (hside a ha))
    · exact if_neg (Ne.symm (hside a ha))

theorem Unused.makeSemaphore {a : Addr} (h : Unused s a) (memory : Bool) :
    Unused (makeSemaphore s self memory).1 a := by
  cases memory with
  | false => exact h
  | true =>
    have hne : a ≠ s.next := Nat.ne_of_lt h.lt
    have hobj : (Sync.makeSemaphore s self true).1.sys.objs a = s.sys.objs a :=
      Function.update_of_ne hne ..
    refine ⟨by rw [hobj]; exact h.kind, by rw [hobj]; exact h.state, h.parkedOn, ?_, ?_,
      Nat.lt_succ_of_lt h.lt, h.ne⟩
    · exact (if_neg (Ne.symm hne)).trans h.granted
    · exact (if_neg (Ne.symm hne)).trans h.waits

theorem unused_makeSemaphore (h : KeyedInv s) {memory : Bool} (hne : (makeSemaphore s self memory).2 ≠ 0) :
    Unused (makeSemaphore s self memory).1 (makeSemaphore s self memory).2 := by
  cases memory with
  | false => exact absurd rfl hne
  | true =>
    have hobj : (Sync.makeSemaphore s self true).1.sys.objs s.next =
        { kind := .semaphore, state := 0, limit := 2 ^ 31 - 1 } := Function.update_self ..
    refine ⟨congrArg Object.kind hobj, congrArg Object.state hobj,
      fun u => parkedOn_of_le h (le_refl _) u, ?_, ?_, Nat.lt_succ_self _, fun host k side => ?_⟩
    · exact (if_pos rfl).trans (congrArg Object.state hobj)
    · exact if_pos rfl
    · exact Nat.ne_of_lt (h.below host k side)

theorem Unused.balanced {a r : Addr} (ha : Unused s a) (hr : Unused s r) : Balanced s.sys a r [] [] := by
  have hempty : ∀ {a : Addr}, Unused s a → Parked s.sys a [] := fun hu =>
    ⟨List.nodup_nil, fun t => by rw [hu.parkedOn]; simp⟩
  refine ⟨hempty hr, hempty ha, ha.kind, hr.kind, ha.state, hr.state, ?_, ?_, .inl rfl, ?_, ?_, ?_⟩
  · rw [ha.state]
    decide
  · rw [hr.state]
    decide
  · rw [ha.waits, hr.waits]
  · rw [ha.waits, ha.granted]
    rfl
  · rw [hr.waits, hr.granted]
    rfl

theorem KeyedInv.setGate (h : KeyedInv s) (hnext : 0 < s.next) {host : Nat} {key : Addr} {g : Gate}
    (hold : (s.gates host key).arrivals = 0) (hside : ∀ side, g.side side ≠ 0 → Unused s (g.side side))
    (hne : g.arrivals ≠ 0 → g.arrivals ≠ g.releases) : KeyedInv (s.setGate host key g) := by
  have hgate : ∀ h' k', (h' = host ∧ k' = key ∧ (s.setGate host key g).gates h' k' = g) ∨
      ((h' = host → k' ≠ key) ∧ (s.setGate host key g).gates h' k' = s.gates h' k') := by
    intro h' k'
    simp only [KeyedState.setGate]
    by_cases hh : h' = host
    · subst hh
      rw [Function.update_self]
      by_cases hk : k' = key
      · rw [hk, Function.update_self]
        exact .inl ⟨rfl, rfl, rfl⟩
      · rw [Function.update_of_ne hk]
        exact .inr ⟨fun _ => hk, rfl⟩
    · rw [Function.update_of_ne hh]
      exact .inr ⟨fun hc => absurd hc hh, rfl⟩
  constructor
  · intro t th w hp
    obtain ⟨hall, h', k', side, hmade, ho⟩ := h.waits t th w hp
    refine ⟨hall, h', k', side, ?_⟩
    rcases hgate h' k' with ⟨rfl, rfl, -⟩ | ⟨-, heq⟩
    · exact absurd hold hmade.1
    · rw [heq]
      exact ⟨hmade, ho⟩
  · intro h₁ k₁ side₁ h₂ k₂ side₂ hne₁ heq
    rcases hgate h₁ k₁ with ⟨rfl, rfl, e₁⟩ | ⟨-, e₁⟩ <;> rcases hgate h₂ k₂ with ⟨hh, hk, e₂⟩ | ⟨-, e₂⟩ <;>
      rw [e₁] at hne₁ heq <;> rw [e₂] at heq
    · refine ⟨hh.symm, hk.symm, ?_⟩
      cases side₁ <;> cases side₂
      · rfl
      · exact absurd heq (hne hne₁)
      · have heq' : g.releases = g.arrivals := heq
        exact absurd heq'.symm (hne (heq' ▸ hne₁))
      · rfl
    · exact absurd heq.symm ((hside side₁ hne₁).ne h₂ k₂ side₂)
    · rw [heq] at hne₁
      exact absurd heq ((hside side₂ hne₁).ne h₁ k₁ side₁)
    · exact h.distinct h₁ k₁ side₁ h₂ k₂ side₂ hne₁ heq
  · intro h' k' side
    rcases hgate h' k' with ⟨-, -, heq⟩ | ⟨-, heq⟩ <;> rw [heq]
    · by_cases hz : g.side side = 0
      · rw [hz]
        exact hnext
      · exact (hside side hz).lt
    · exact h.below h' k' side
  · intro h' k' hmade
    rcases hgate h' k' with ⟨-, -, heq⟩ | ⟨-, heq⟩ <;> rw [heq] at hmade ⊢
    · have hb := (hside false hmade.1).balanced (hside true hmade.2)
      exact ⟨[], [], hb⟩
    · exact h.balanced h' k' hmade

theorem makeSemaphore_facts (memory : Bool) :
    (makeSemaphore s self memory).1.gates = s.gates ∧ s.next ≤ (makeSemaphore s self memory).1.next ∧
      (makeSemaphore s self memory).1.sys.thread = s.sys.thread ∧
      (makeSemaphore s self memory).1.sys.tids = s.sys.tids := by
  cases memory with
  | false => exact ⟨rfl, le_refl _, rfl, rfl⟩
  | true => exact ⟨rfl, Nat.le_succ _, rfl, rfl⟩

theorem KeyedInv.gateFor (h : KeyedInv s) (hnext : 0 < s.next) (host : Nat) (key : Addr)
    (memory : Bool × Bool) :
    KeyedInv (gateFor s self host key memory).1 ∧
      (gateFor s self host key memory).1.gates host key = (gateFor s self host key memory).2 ∧
      (gateFor s self host key memory).1.sys.thread = s.sys.thread ∧
      0 < (gateFor s self host key memory).1.next ∧
      ((s.gates host key).arrivals ≠ 0 → gateFor s self host key memory = (s, s.gates host key)) ∧
      ((s.gates host key).arrivals = 0 → ∀ side, (gateFor s self host key memory).2.side side ≠ 0 →
        (∀ u, (gateFor s self host key memory).1.sys.parkedOn
          ((gateFor s self host key memory).2.side side) u = false) ∧
        ((gateFor s self host key memory).1.sys.objs
          ((gateFor s self host key memory).2.side side)).state = 0) := by
  by_cases hold : (s.gates host key).arrivals = 0
  · obtain ⟨hg₁, hn₁, ht₁, -⟩ := makeSemaphore_facts (s := s) self memory.1
    obtain ⟨s₁, hs₁⟩ : ∃ s₁, s₁ = Sync.makeSemaphore s self memory.1 := ⟨_, rfl⟩
    rw [← hs₁] at hg₁ hn₁ ht₁
    obtain ⟨hg₂, hn₂, ht₂, -⟩ := makeSemaphore_facts (s := s₁.1) self memory.2
    obtain ⟨s₂, hs₂⟩ : ∃ s₂, s₂ = Sync.makeSemaphore s₁.1 self memory.2 := ⟨_, rfl⟩
    rw [← hs₂] at hg₂ hn₂ ht₂
    have hrun : Sync.gateFor s self host key memory =
        (s₂.1.setGate host key ⟨s₁.2, s₂.2⟩, ⟨s₁.2, s₂.2⟩) := by
      unfold Sync.gateFor
      rw [if_pos hold, hs₂, hs₁]
    have hinv₁ : KeyedInv s₁.1 := hs₁ ▸ h.makeSemaphore self memory.1
    have hinv₂ : KeyedInv s₂.1 := hs₂ ▸ hinv₁.makeSemaphore self memory.2
    have hu₁ : s₁.2 ≠ 0 → Unused s₁.1 s₁.2 := by
      rw [hs₁]
      exact unused_makeSemaphore self h
    have hunused : ∀ side, Gate.side ⟨s₁.2, s₂.2⟩ side ≠ 0 → Unused s₂.1 (Gate.side ⟨s₁.2, s₂.2⟩ side) := by
      intro side
      cases side with
      | false =>
        intro hne
        show Unused s₂.1 s₁.2
        rw [hs₂]
        exact (hu₁ hne).makeSemaphore self memory.2
      | true =>
        show s₂.2 ≠ 0 → Unused s₂.1 s₂.2
        rw [hs₂]
        exact unused_makeSemaphore self hinv₁
    have hne : s₁.2 ≠ 0 → s₁.2 ≠ s₂.2 := by
      intro hz heq
      have hlt := (hu₁ hz).lt
      rw [hs₂] at heq
      cases hm : memory.2 with
      | false =>
        rw [hm] at heq
        exact hz heq
      | true =>
        rw [hm] at heq
        exact absurd hlt (by rw [heq]; exact Nat.lt_irrefl _)
    have hold₂ : (s₂.1.gates host key).arrivals = 0 := by
      rw [hg₂, hg₁]
      exact hold
    rw [hrun]
    have hnext₂ : 0 < s₂.1.next := lt_of_lt_of_le hnext (hn₁.trans hn₂)
    refine ⟨hinv₂.setGate hnext₂ hold₂ hunused hne, ?_, ht₂.trans ht₁, ?_, fun hc => absurd hold hc,
      fun _ side hz => ⟨(hunused side hz).parkedOn, (hunused side hz).state⟩⟩
    · simp [KeyedState.setGate]
    · exact hnext₂
  · have hrun : Sync.gateFor s self host key memory = (s, s.gates host key) := by
      unfold Sync.gateFor
      rw [if_neg hold]
    rw [hrun]
    exact ⟨h, rfl, rfl, hnext, fun _ => rfl, fun hc => absurd hc hold⟩

end

/-! ## Runs -/

def KeyedState.Opens (s : KeyedState) (host : Nat) (key : Addr) (memory : Bool × Bool) : Prop :=
  if (s.gates host key).arrivals = 0 then memory = (true, true) else (s.gates host key).releases ≠ 0

instance (s : KeyedState) (host : Nat) (key : Addr) (memory : Bool × Bool) :
    Decidable (s.Opens host key memory) :=
  inferInstanceAs (Decidable (if (s.gates host key).arrivals = 0 then memory = (true, true)
    else (s.gates host key).releases ≠ 0))

/-- What a party may not meet: a timeout that cannot be read once it has posted, one that waits where its
post does not reach, a semaphore that is full, and its deadline. -/
def Punctual (s : KeyedState) : KeyedAction → Prop
  | .rendezvous _ host key memory timeout _ releasing => ∀ h, host = some h →
      (s.Opens h key memory → timeout ≠ .unmapped) ∧ ((s.gates h key).arrivals ≠ 0 →
        (∀ u, s.sys.parkedOn ((s.gates h key).side releasing) u = true → u ∈ s.sys.tids sysProc) ∧
          (s.sys.objs ((s.gates h key).side releasing)).state < 2 ^ 31 - 1)
  | .ready t now => ∀ th w, s.sys.thread t = some th → th.wait = some w → w.satisfied = false →
      w.timed = true → now < w.deadline

theorem KeyedInv.post {s : KeyedState} (h : KeyedInv s) {host : Nat} {key : Addr}
    (hmade : (s.gates host key).Made) (hth : s.sys.thread t = some th) (hwait : th.wait = none) (releasing : Bool)
    (ho : w.objects = [(s.gates host key).side (!releasing)]) (hall : w.all = false) (hsat : w.satisfied = false)
    (hlocal : ∀ u, s.sys.parkedOn ((s.gates host key).side releasing) u = true → u ∈ s.sys.tids sysProc)
    (hroom : (s.sys.objs ((s.gates host key).side releasing)).state < 2 ^ 31 - 1) :
    KeyedInv { s with
      sys := postAndWait s.sys t th.ethread ((s.gates host key).side releasing) w } := by
  obtain ⟨lx, ly, hb⟩ := h.balanced host key hmade
  have hne : ∀ side, (s.gates host key).side side ≠ (s.gates host key).side (!side) := by
    intro side heq
    have hside := (h.distinct host key side host key (!side) (hmade.side_ne side) heq).2.2
    cases side <;> cases hside
  have hpost : (∃ lx' ly', Balanced
        (postAndWait s.sys t th.ethread ((s.gates host key).side releasing) w)
        (s.gates host key).arrivals (s.gates host key).releases lx' ly') ∧
      Elsewhere s.sys (postAndWait s.sys t th.ethread ((s.gates host key).side releasing) w)
        ((s.gates host key).side releasing) ((s.gates host key).side (!releasing)) := by
    cases releasing with
    | false => exact hb.post (hne false) hth hwait ho hall hsat (h.single _) hlocal hroom
    | true =>
      obtain ⟨⟨lx', ly', hb'⟩, hother⟩ :=
        hb.symm.post (hne true) hth hwait ho hall hsat (h.single _) hlocal hroom
      exact ⟨⟨ly', lx', hb'.symm⟩, hother⟩
  obtain ⟨⟨lx', ly', hb'⟩, hother⟩ := hpost
  refine ⟨fun u th' w' hp => ?_, h.distinct, h.below, fun host' key' hmade' => ?_⟩
  · rcases hother.parked u th' w' hp with hp | ⟨ho', hall'⟩
    · exact h.waits u th' w' hp
    · exact ⟨hall', host, key, !releasing, hmade, ho'⟩
  · by_cases hsame : host' = host ∧ key' = key
    · obtain ⟨rfl, rfl⟩ := hsame
      exact ⟨lx', ly', hb'⟩
    · obtain ⟨kx, ky, hk⟩ := h.balanced host' key' hmade'
      -- another gate shares no semaphore with this one
      have hside : ∀ a, a = (s.gates host' key').arrivals ∨ a = (s.gates host' key').releases →
          ∀ side, a ≠ (s.gates host key).side side := by
        intro a ha side heq
        have hshared : ∃ side', (s.gates host key).side side = (s.gates host' key').side side' := by
          rcases ha with rfl | rfl
          · exact ⟨false, heq.symm⟩
          · exact ⟨true, heq.symm⟩
        obtain ⟨side', heq'⟩ := hshared
        obtain ⟨hh, hkey, -⟩ := h.distinct _ _ _ _ _ _ (hmade.side_ne side) heq'
        exact hsame ⟨hh.symm, hkey.symm⟩
      exact ⟨kx, ky, hk.congr (fun a ha => hother.objs a (hside a ha _) (hside a ha _))
        (fun a ha => hother.parkedOn a (hside a ha _) (hside a ha _))
        (fun a ha => hother.granted a (hside a ha _) (hside a ha _))
        (fun a ha => hother.waits a (hside a ha _) (hside a ha _))⟩

theorem KeyedInv.resume {s : KeyedState} (h : KeyedInv s)
    (hth : s.sys.thread t = some th) (hw : th.wait = some w) (hsat : w.satisfied = true) :
    KeyedInv { s with sys := s.sys.setThread t { th with wait := none } } := by
  have hparked : ∀ u, (s.sys.setThread t { th with wait := none }).parked u = s.sys.parked u := by
    intro u
    by_cases hu : u = t
    · subst hu
      rw [show (s.sys.setThread u { th with wait := none }).parked u = none by
        unfold parked
        simp [setThread]]
      unfold parked
      rw [hth]
      simp [hw, hsat]
    · exact parked_setThread_of_ne hu _
  have hparkedOn : ∀ a, (s.sys.setThread t { th with wait := none }).parkedOn a = s.sys.parkedOn a := by
    intro a
    funext u
    unfold parkedOn
    rw [hparked]
  refine ⟨fun u th' w' hp => h.waits u th' w' ((hparked u).symm.trans hp), h.distinct, h.below,
    fun host key hmade => ?_⟩
  obtain ⟨lx, ly, hb⟩ := h.balanced host key hmade
  exact ⟨lx, ly, hb.congr (fun _ _ => rfl) (fun a _ => hparkedOn a) (fun _ _ => rfl) (fun _ _ => rfl)⟩

theorem Timeout.read_of_ne {timeout : Timeout} (h : timeout ≠ .unmapped) :
    ∃ ticks, timeout.read = some ticks := by
  cases timeout with
  | null => exact ⟨none, rfl⟩
  | ticks n => exact ⟨some n, rfl⟩
  | unmapped => exact absurd rfl h

theorem opens_of_made {s : KeyedState} (self : Addr) {host : Nat} {key : Addr} {memory : Bool × Bool}
    (h : (gateFor s self host key memory).2.Made) : s.Opens host key memory := by
  unfold KeyedState.Opens
  unfold gateFor at h
  split at h
  · rename_i hold
    rw [if_pos hold]
    obtain ⟨arrivals, releases⟩ := memory
    cases arrivals with
    | false => exact absurd rfl h.1
    | true =>
      cases releases with
      | false => exact absurd rfl h.2
      | true => rfl
  · rename_i hold
    rw [if_neg hold]
    exact h.2

theorem KeyedInv.step {s s' : KeyedState} {a : KeyedAction} (h : KeyedInv s) (hnext : 0 < s.next)
    (hok : Punctual s a) (hstep : keyedStep s a = some s') : KeyedInv s' ∧ 0 < s'.next := by
  cases a with
  | rendezvous t host key memory timeout now releasing =>
    simp only [keyedStep] at hstep
    split at hstep
    · rename_i th hth
      split at hstep
      · rename_i hwait
        obtain rfl := Option.some.inj hstep
        cases host with
        | none => exact ⟨h, hnext⟩
        | some host =>
          obtain ⟨hinv, hgate, hthread, hnext', hold, hnew⟩ := h.gateFor th.ethread hnext host key memory
          simp only [rendezvous]
          obtain ⟨r, hr⟩ : ∃ r, r = Sync.gateFor s th.ethread host key memory := ⟨_, rfl⟩
          rw [← hr] at hinv hgate hthread hnext' hold hnew ⊢
          split
          · exact ⟨hinv, hnext'⟩
          · rename_i hzero
            have hmade : (r.1.gates host key).Made := by
              rw [hgate]
              exact not_or.mp hzero
            obtain ⟨ticks, hread⟩ : ∃ ticks, timeout.read = some ticks :=
              Timeout.read_of_ne ((hok host rfl).1 (opens_of_made th.ethread (hr ▸ hgate ▸ hmade)))
            rw [hread]
            dsimp only
            have hmeets : (∀ u, r.1.sys.parkedOn (r.2.side releasing) u = true →
                u ∈ r.1.sys.tids sysProc) ∧ (r.1.sys.objs (r.2.side releasing)).state < 2 ^ 31 - 1 := by
              by_cases harr : (s.gates host key).arrivals = 0
              · obtain ⟨hnobody, hstate⟩ := hnew harr releasing (hgate ▸ hmade.side_ne releasing)
                refine ⟨fun u hu => absurd hu (by rw [hnobody u]; exact Bool.false_ne_true), ?_⟩
                rw [hstate]
                decide
              · rw [hold harr]
                exact (hok host rfl).2 harr
            refine ⟨?_, hnext'⟩
            have hpost := hinv.post hmade ((congrFun hthread t).trans hth) hwait
              (w := makeWait [r.2.side (!releasing)] 1 ticks now) releasing (by rw [hgate]; rfl) rfl rfl
              (by rw [hgate]; exact hmeets.1) (by rw [hgate]; exact hmeets.2)
            rw [hgate] at hpost
            exact hpost
      · cases hstep
    · cases hstep
  | ready t now =>
    simp only [keyedStep] at hstep
    obtain ⟨r, hr, rfl⟩ := Option.map_eq_some_iff.mp hstep
    obtain ⟨th, w, hth, hw, hrun, hcause⟩ := isReady_eq_some hr
    rw [hrun]
    rcases hcause with ⟨hsat, -⟩ | ⟨hsat, htimed, hdue, -⟩
    · exact ⟨h.resume hth hw hsat, hnext⟩
    · exact absurd (hok th w hth hw hsat htimed) (not_lt.mpr hdue)

structure KeyedStart (s : KeyedState) : Prop where
  waits : ∀ t th, s.sys.thread t = some th → th.wait = none
  gates : ∀ host key, s.gates host key = {}
  next : 0 < s.next

theorem KeyedStart.inv {s : KeyedState} (h : KeyedStart s) : KeyedInv s := by
  refine ⟨fun t th w hp => ?_, fun host k side _ _ _ hne => ?_, fun host k side => ?_,
    fun host k hmade => ?_⟩
  · obtain ⟨hth, hw, -⟩ := parked_eq_some.mp hp
    rw [h.waits t th hth] at hw
    cases hw
  · rw [h.gates] at hne
    cases side <;> exact absurd rfl hne
  · rw [h.gates]
    cases side <;> exact h.next
  · rw [h.gates] at hmade
    exact absurd rfl hmade.1

/-- **A keyed event pairs one to one as long as nobody gives up.** -/
theorem keyedOk_of_punctual {s s' : KeyedState} {acts : List KeyedAction} (hs : KeyedStart s)
    (hrun : Run.Steps keyedStep Punctual s acts s') {host : Nat} {key : Addr}
    (hmade : (s'.gates host key).Made) : KeyedOk s'.sys (s'.gates host key) := by
  have hinv : KeyedInv s' ∧ 0 < s'.next :=
    hrun.invariant (P := fun s : KeyedState => KeyedInv s ∧ 0 < s.next)
      (fun s a s' h hok hstep => h.1.step h.2 hok hstep) ⟨hs.inv, hs.next⟩
  obtain ⟨lx, ly, hb⟩ := hinv.1.balanced host key hmade
  exact hb.ok

/-! ## Threads of `sys_proc` -/

def Listed (s : State) : Prop := ∀ t, s.thread t ≠ none → t ∈ s.tids sysProc

theorem Listed.setThread (h : Listed s) (hth : s.thread t = some th) (th' : Thread) : Listed (s.setThread t th') := by
  intro u hu
  by_cases hut : u = t
  · subst hut
    exact h u (by rw [hth]; exact Option.some_ne_none th)
  · rw [setThread_thread_of_ne hut] at hu
    exact h u hu

theorem stable_listed : Stable Listed := by
  intro s t th w l h hp _
  exact h.setThread (parked_eq_some.mp hp).1 _

theorem Listed.postOne (h : Listed s) (self post : Addr) : Listed (postOne s self post) :=
  @Stable.wakeWaiters _ stable_listed ((s.record (.released self post 1)).setObj post
    { s.objs post with state := i32 ((s.objs post).state + 1) }) h _ _

theorem Listed.postAndWait (h : Listed s) (self post : Addr) (w : Wait) :
    Listed (postAndWait s t self post w) := by
  have hpost := h.postOne self post
  unfold Sync.postAndWait beginWait
  split
  · rename_i th hth
    exact stable_listed.trySatisfy (hpost.setThread hth _) t
  · exact hpost

theorem listed_keyedStep {s s' : KeyedState} {a : KeyedAction} (h : Listed s.sys)
    (hstep : keyedStep s a = some s') : Listed s'.sys := by
  cases a with
  | rendezvous t host key memory timeout now releasing =>
    simp only [keyedStep] at hstep
    split at hstep
    · rename_i th hth
      split at hstep
      · obtain rfl := Option.some.inj hstep
        cases host with
        | none => exact h
        | some host =>
          have hgate : Listed (gateFor s th.ethread host key memory).1.sys := by
            obtain ⟨-, -, ht₁, hl₁⟩ := makeSemaphore_facts (s := s) th.ethread memory.1
            obtain ⟨-, -, ht₂, hl₂⟩ :=
              makeSemaphore_facts (s := (makeSemaphore s th.ethread memory.1).1) th.ethread memory.2
            unfold gateFor
            split
            · intro u hu
              have hold := h u (by rw [← ht₁, ← ht₂]; exact hu)
              rw [← hl₁, ← hl₂] at hold
              exact hold
            · exact h
          simp only [rendezvous]
          split
          · exact hgate
          · split
            · exact hgate.postAndWait _ _ _
            · exact hgate.postOne _ _
      · cases hstep
    · cases hstep
  | ready t now =>
    obtain ⟨r, hr, rfl⟩ := Option.map_eq_some_iff.mp hstep
    obtain ⟨th, w, hth, -, hrun, -⟩ := isReady_eq_some hr
    rw [hrun]
    exact h.setThread hth _

/-- What is left to check of a step when every thread belongs to `sys_proc`. -/
def punctual (s : KeyedState) : KeyedAction → Bool
  | .rendezvous _ (some h) key memory timeout _ releasing =>
    decide (s.Opens h key memory → timeout ≠ .unmapped) &&
      decide ((s.sys.objs ((s.gates h key).side releasing)).state < 2 ^ 31 - 1)
  | .rendezvous .. => true
  | .ready t now =>
    match s.sys.parked t with
    | some (_, w) => !w.timed || decide (now < w.deadline)
    | none => true

theorem punctual_of_listed {s : KeyedState} {a : KeyedAction} (h : Listed s.sys)
    (hcheck : punctual s a = true) : Punctual s a := by
  cases a with
  | rendezvous t host key memory timeout now releasing =>
    rintro host rfl
    obtain ⟨hread, hroom⟩ := Bool.and_eq_true_iff.mp hcheck
    refine ⟨of_decide_eq_true hread, fun _ => ⟨fun u hu => h u fun hnone => ?_, of_decide_eq_true hroom⟩⟩
    obtain ⟨th, w, hp, -⟩ := parkedOn_eq_true.mp hu
    rw [(parked_eq_some.mp hp).1] at hnone
    cases hnone
  | ready t now =>
    intro th w hth hw hsat htimed
    simpa only [punctual, parked_eq_some.mpr ⟨hth, hw, hsat⟩, htimed, Bool.not_true, Bool.false_or,
      decide_eq_true_eq] using hcheck

/-! ## Two parties -/

theorem twoThreads_thread (h : twoThreads.thread t = some th) :
    (t = 8 ∨ t = 12) ∧ th.wait = none := by
  simp only [twoThreads] at h
  split at h
  · rename_i ht
    exact ⟨.inl ht, by rw [← Option.some.inj h]⟩
  · split at h
    · rename_i ht
      exact ⟨.inr ht, by rw [← Option.some.inj h]⟩
    · cases h

theorem twoThreads_keyed : KeyedStart { sys := twoThreads } :=
  ⟨fun _ _ h => (twoThreads_thread h).2, fun _ _ => rfl, Nat.one_pos⟩

theorem twoThreads_listed : Listed twoThreads := by
  intro t ht
  obtain ⟨th, hth⟩ := Option.ne_none_iff_exists'.mp ht
  rcases (twoThreads_thread hth).1 with rfl | rfl
  · exact List.mem_cons_self
  · exact List.mem_cons_of_mem _ List.mem_cons_self

/-- A waiter gives up, and a release that comes later is told that it has met it. -/
theorem release_meets_nobody :
    ∃ s', Run.Steps keyedStep (fun _ _ => True) { sys := twoThreads }
        [.rendezvous 8 (some 0) 0x40 (true, true) (.ticks (-10)) 0 false, .ready 8 10,
          .rendezvous 12 (some 0) 0x40 (true, true) .null 15 true, .ready 12 20] s' ∧
      KeyedStart { sys := twoThreads } ∧ (s'.gates 0 0x40).Made ∧
      satisfiedWaits (s'.gates 0 0x40).arrivals s'.sys.log = 1 ∧
      satisfiedWaits (s'.gates 0 0x40).releases s'.sys.log = 0 ∧
      ¬ KeyedOk s'.sys (s'.gates 0 0x40) := by
  have hfacts : ((Run.exec keyedStep (fun _ _ => true) { sys := twoThreads }
      [.rendezvous 8 (some 0) 0x40 (true, true) (.ticks (-10)) 0 false, .ready 8 10,
        .rendezvous 12 (some 0) 0x40 (true, true) .null 15 true, .ready 12 20]).map fun s =>
      (s.gates 0 0x40, satisfiedWaits 1 s.sys.log, satisfiedWaits 2 s.sys.log)) =
      some ({ arrivals := 1, releases := 2 }, 1, 0) := by
    decide +kernel
  obtain ⟨s', hexec, hfacts⟩ := Option.map_eq_some_iff.mp hfacts
  obtain ⟨hgate, harrivals, hreleases⟩ : s'.gates 0 0x40 = { arrivals := 1, releases := 2 } ∧
      satisfiedWaits 1 s'.sys.log = 1 ∧ satisfiedWaits 2 s'.sys.log = 0 := by
    simpa only [Prod.mk.injEq] using hfacts
  refine ⟨s', Run.Steps.of_exec (fun _ _ _ => trivial) hexec, twoThreads_keyed, ?_⟩
  rw [hgate]
  refine ⟨⟨by decide, by decide⟩, harrivals, hreleases, fun hok => ?_⟩
  have hmatched := hok.matched
  rw [harrivals, hreleases] at hmatched
  cases hmatched

/-- A wait and the release that it is for. -/
theorem release_meets_waiter :
    ∃ s', Run.Steps keyedStep Punctual { sys := twoThreads }
        [.rendezvous 8 (some 0) 0x40 (true, true) (.ticks (-10)) 0 false,
          .rendezvous 12 (some 0) 0x40 (true, true) .null 5 true, .ready 8 20, .ready 12 20] s' ∧
      satisfiedWaits (s'.gates 0 0x40).arrivals s'.sys.log = 1 ∧
      KeyedOk s'.sys (s'.gates 0 0x40) := by
  have hfacts : ((Run.exec keyedStep punctual { sys := twoThreads }
      [.rendezvous 8 (some 0) 0x40 (true, true) (.ticks (-10)) 0 false,
        .rendezvous 12 (some 0) 0x40 (true, true) .null 5 true, .ready 8 20, .ready 12 20]).map fun s =>
      (s.gates 0 0x40, satisfiedWaits 1 s.sys.log)) = some ({ arrivals := 1, releases := 2 }, 1) := by
    decide +kernel
  obtain ⟨s', hexec, hfacts⟩ := Option.map_eq_some_iff.mp hfacts
  obtain ⟨hgate, hwaits⟩ : s'.gates 0 0x40 = { arrivals := 1, releases := 2 } ∧
      satisfiedWaits 1 s'.sys.log = 1 := by
    simpa only [Prod.mk.injEq] using hfacts
  have hrun : Run.Steps keyedStep Punctual { sys := twoThreads } _ s' :=
    Run.Steps.of_exec_invariant (P := fun s : KeyedState => Listed s.sys)
      (fun _ _ _ h _ hstep => listed_keyedStep h hstep) (fun _ _ h hcheck => punctual_of_listed h hcheck)
      twoThreads_listed hexec
  have hmade : (s'.gates 0 0x40).Made := by
    rw [hgate]
    exact ⟨by decide, by decide⟩
  refine ⟨s', hrun, ?_, keyedOk_of_punctual twoThreads_keyed hrun hmade⟩
  rw [hgate]
  exact hwaits

end Kernemul.Sync
