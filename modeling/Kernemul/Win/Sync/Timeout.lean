import Kernemul.Win.Sync.Handlers

/-!
# Timeouts (`read_timeout`, `begin_wait`, `NtDelayExecution`)

Guest time counts ticks of 100ns on 64 signed bits. A wait keeps a deadline in guest time, and the host
sleep armed for it is rounded up to milliseconds; the delays turn the ticks into milliseconds directly, and
there the rest is dropped. `sleep_for` adds the milliseconds to the host clock, which counts nanoseconds,
on 64 signed bits as well. The sums of these sites wrap.
-/

namespace Kernemul.Sync

def int64Max : Int := 2 ^ 63 - 1

def saturate (n : Int) : Int := min n int64Max

def ticksPerMs : Int := 10000

def nsPerMs : Int := 1000000
def nsPerTick : Int := 100

/-- `duration_cast` from ticks to milliseconds, which truncates. -/
def durationCast (ticks : Int) : Int := ticks.tdiv ticksPerMs

/-- `ceil` from ticks to milliseconds. -/
def ceilMs (ticks : Int) : Int :=
  let ms := durationCast ticks
  if ms * ticksPerMs < ticks then ms + 1 else ms

/-- `sleep_for`: what `sleep_until_` becomes when the host clock stands at `host`. -/
def sleepFor (host ms : Int) : Int := i64 (host + ms * nsPerMs)

inductive Delay
  | invalidParameter
  | slept (sleepUntil : Int)
  | yielded
  deriving DecidableEq, Repr

def delay (now host : Int) : Option Int → Delay
  | none => .invalidParameter
  | some ticks =>
    let ms := durationCast (if ticks < 0 then i64 (-ticks) else i64 (ticks - now))
    if ms > 0 then .slept (sleepFor host ms) else .yielded

def keDelayExecutionThread (now host : Int) (interval : Option Int) : Delay := delay now host interval

def ntDelayExecution (now host : Int) (delayInterval : Option Int) : Delay := delay now host delayInterval

def Delay.until (host : Int) : Delay → Int
  | .slept sleepUntil => sleepUntil
  | _ => host

/-- How long a deadline is ahead, as `begin_wait` and `is_ready` compute it. -/
def remaining (deadline now : Int) : Int := i64 (deadline - now)

/-- `begin_wait`: what `sleep_until_` becomes, for a timed wait. -/
def beginWaitSleep (now host : Int) (w : Wait) : Option Int :=
  if w.timed then some (sleepFor host (ceilMs (max 0 (remaining w.deadline now)))) else none

/-- The branch of `is_ready` that ends a wait with `STATUS_TIMEOUT`. -/
def timesOut (w : Wait) (now : Int) : Bool :=
  !w.satisfied && w.timed && decide (remaining w.deadline now ≤ 0)

/-! ## What is asked of a timeout -/

def IsTime (t : Int) : Prop := 0 ≤ t ∧ t < int64Max

instance (t : Int) : Decidable (IsTime t) := inferInstanceAs (Decidable (0 ≤ t ∧ t < int64Max))

/-- Where the clocks stand when a timeout is read, when a delay starts, and when a wait begins. -/
structure Clocks where
  now : Int
  host : Int
  nowWait : Int
  hostWait : Int
  deriving DecidableEq, Repr

structure Clocks.Ok (c : Clocks) : Prop where
  now : IsTime c.now
  host : IsTime c.host
  nowWait : IsTime c.nowWait
  hostWait : IsTime c.hostWait

/-- The wait a handler begins for a timeout of `ticks`. -/
def timedWait (c : Clocks) (objects : List Addr) (waitType : Nat) (ticks : Int) : Wait :=
  State.makeWait objects waitType (some ticks) c.now

structure NotShortened (c : Clocks) (objects : List Addr) (waitType : Nat) (ticks : Int) : Prop where
  read : saturate (c.now - ticks) ≤ deadline c.now ticks
  ke : saturate (c.host - ticks * nsPerTick) ≤ (keDelayExecutionThread c.now c.host (some ticks)).until c.host
  nt : saturate (c.host - ticks * nsPerTick) ≤ (ntDelayExecution c.now c.host (some ticks)).until c.host
  sleep : ∀ u ∈ beginWaitSleep c.nowWait c.hostWait (timedWait c objects waitType ticks),
    saturate (c.hostWait + max 0 (deadline c.now ticks - c.nowWait) * nsPerTick) ≤ u
  pending : ∀ t, IsTime t → t < deadline c.now ticks → timesOut (timedWait c objects waitType ticks) t = false

/-- A host sleep of `ms` ends within the clock, or, wrapped, on its very last value. -/
def SleepFits (host ms : Int) : Prop := host + ms * nsPerMs ≤ int64Max ∨ i64 (host + ms * nsPerMs) = int64Max

instance (host ms : Int) : Decidable (SleepFits host ms) :=
  inferInstanceAs (Decidable (host + ms * nsPerMs ≤ int64Max ∨ i64 (host + ms * nsPerMs) = int64Max))

/-- When nothing is cut off: the deadline is a time, the ticks are whole milliseconds, and both host sleeps
end within the host clock. A wrapped sum of the host clock does no harm when it is the largest time. -/
structure Representable (c : Clocks) (ticks : Int) : Prop where
  deadline : c.now - ticks ≤ int64Max
  delay : ticks % ticksPerMs = 0 ∧ c.host - ticks * nsPerTick ≤ int64Max ∨
    i64 (c.host + -ticks / ticksPerMs * nsPerMs) = int64Max
  wait : SleepFits c.hostWait (ceilMs (max 0 (c.now - ticks - c.nowWait)))

/-! ## The sites one by one -/

variable {now ticks : Int}

theorem deadline_of_neg (hneg : ticks < 0) : deadline now ticks = i64 (now - ticks) :=
  if_pos hneg

theorem deadline_iff (hnow : IsTime now) (hneg : ticks < 0) (hlo : -2 ^ 63 ≤ ticks) :
    saturate (now - ticks) ≤ deadline now ticks ↔ now - ticks ≤ int64Max := by
  obtain ⟨h0, hmax⟩ := hnow
  rw [deadline_of_neg hneg]
  unfold saturate i64
  unfold int64Max at *
  omega

theorem durationCast_of_nonneg (h : 0 ≤ ticks) : durationCast ticks = ticks / ticksPerMs :=
  Int.tdiv_eq_ediv_of_nonneg h

theorem ceilMs_spec (h : 0 ≤ ticks) :
    ticks ≤ ceilMs ticks * ticksPerMs ∧ ceilMs ticks * ticksPerMs < ticks + ticksPerMs := by
  unfold ceilMs
  simp only [durationCast_of_nonneg h]
  unfold ticksPerMs
  split
  · omega
  · omega

/-- A delay drops what is left over a millisecond; the most negative interval is no delay at all. -/
theorem delay_until {host : Int} (hhost : IsTime host) (hneg : ticks < 0) (hlo : -2 ^ 63 ≤ ticks) :
    (delay now host (some ticks)).until host =
      if ticks = -2 ^ 63 then host else i64 (host + -ticks / ticksPerMs * nsPerMs) := by
  obtain ⟨h0, hmax⟩ := hhost
  unfold delay
  simp only [if_pos hneg]
  by_cases hmin : ticks = -2 ^ 63
  · rw [if_pos hmin, hmin, if_neg (by decide)]
    rfl
  · have hpos : i64 (-ticks) = -ticks := i64_eq (by omega) (by omega)
    rw [if_neg hmin, hpos, durationCast_of_nonneg (by omega)]
    split
    · rfl
    · rename_i hms
      have hzero : -ticks / ticksPerMs = 0 := by
        unfold ticksPerMs at *
        omega
      rw [hzero, Int.zero_mul, Int.add_zero, i64_eq (by omega) (by unfold int64Max at hmax; omega)]
      rfl

theorem delay_iff {now host ticks : Int} (hhost : IsTime host) (hneg : ticks < 0) (hlo : -2 ^ 63 ≤ ticks) :
    saturate (host - ticks * nsPerTick) ≤ (delay now host (some ticks)).until host ↔
      ticks % ticksPerMs = 0 ∧ host - ticks * nsPerTick ≤ int64Max ∨
        i64 (host + -ticks / ticksPerMs * nsPerMs) = int64Max := by
  rw [delay_until hhost hneg hlo]
  obtain ⟨h0, hmax⟩ := hhost
  unfold saturate i64
  unfold int64Max ticksPerMs nsPerMs nsPerTick at *
  split
  · omega
  · omega

/-- Rounded up, the host sleep is long enough unless the host clock runs over. -/
theorem sleep_iff {host rest : Int} (hhost : IsTime host) (hrest : 0 ≤ rest) :
    saturate (host + rest * nsPerTick) ≤ sleepFor host (ceilMs rest) ↔ SleepFits host (ceilMs rest) := by
  obtain ⟨hlo, hhi⟩ := ceilMs_spec hrest
  obtain ⟨h0, hmax⟩ := hhost
  generalize ceilMs rest = ms at *
  unfold saturate sleepFor SleepFits i64
  unfold int64Max ticksPerMs nsPerMs nsPerTick at *
  omega

/-- A deadline ahead of the clock is not reached, as `is_ready` computes it. -/
theorem timesOut_pending {w : Wait} (hnow : IsTime now) (hmax : w.deadline ≤ int64Max)
    (hlt : now < w.deadline) : timesOut w now = false := by
  obtain ⟨h0, -⟩ := hnow
  have hrem : remaining w.deadline now = w.deadline - now :=
    i64_eq (by omega) (by unfold int64Max at hmax; omega)
  unfold timesOut
  rw [hrem]
  simp only [Bool.and_eq_false_imp, decide_eq_false_iff_not]
  intro _
  omega

/-- Where the deadline is a time, the wait ends as the scheduler's `is_ready` ends it. -/
theorem isReady_timesOut {s : State} {t : Tid} {th : Thread} {w : Wait}
    (hth : s.thread t = some th) (hw : th.wait = some w) (hnow : IsTime now) (hlo : 0 ≤ w.deadline)
    (hmax : w.deadline ≤ int64Max) :
    timesOut w now = true ↔ w.satisfied = false ∧ s.isReady t now =
      some (s.setThread t { th with wait := none }, 0x102) := by
  obtain ⟨h0, hlt⟩ := hnow
  have hrem : remaining w.deadline now = w.deadline - now :=
    i64_eq (by unfold int64Max at hlt; omega) (by unfold int64Max at hmax; omega)
  have hle : w.deadline - now ≤ 0 ↔ w.deadline ≤ now := by omega
  unfold timesOut State.isReady
  simp only [hth, hw, hrem, hle]
  cases hs : w.satisfied with
  | true => simp
  | false =>
    by_cases htimed : w.timed = true ∧ w.deadline ≤ now
    · simp [htimed.1, htimed.2]
    · rw [not_and] at htimed
      cases hti : w.timed with
      | false => simp
      | true => simp [htimed hti]

/-! ## All sites -/

/-- **Relative timeouts are never shortened** exactly when nothing is cut off. -/
theorem not_shortened_iff {c : Clocks} (hc : c.Ok) (objects : List Addr) (waitType : Nat) {ticks : Int}
    (hneg : ticks < 0) (hlo : -2 ^ 63 ≤ ticks) :
    NotShortened c objects waitType ticks ↔ Representable c ticks := by
  have hread := deadline_iff hc.now hneg hlo
  have hdelay := @delay_iff c.now _ _ hc.host hneg hlo
  have hsleep := @sleep_iff _ (max 0 (c.now - ticks - c.nowWait)) hc.hostWait (le_max_left _ _)
  have hfits : c.now - ticks ≤ int64Max → deadline c.now ticks = c.now - ticks ∧
      remaining (deadline c.now ticks) c.nowWait = c.now - ticks - c.nowWait := by
    intro hle
    obtain ⟨hn0, -⟩ := hc.now
    obtain ⟨hw0, hwmax⟩ := hc.nowWait
    unfold int64Max at hle hwmax
    have hd : deadline c.now ticks = c.now - ticks := by
      rw [deadline_of_neg hneg, i64_eq (by omega) (by omega)]
    exact ⟨hd, by rw [hd, remaining, i64_eq (by omega) (by omega)]⟩
  have hwait : ∀ u, u ∈ beginWaitSleep c.nowWait c.hostWait (timedWait c objects waitType ticks) ↔
      u = sleepFor c.hostWait (ceilMs (max 0 (remaining (deadline c.now ticks) c.nowWait))) := by
    intro u
    exact Option.some_inj.trans eq_comm
  constructor
  · intro h
    have hle := hread.mp h.read
    obtain ⟨hd, hrem⟩ := hfits hle
    refine ⟨hle, hdelay.mp h.ke, hsleep.mp ?_⟩
    have := h.sleep _ ((hwait _).mpr rfl)
    rwa [hrem, hd] at this
  · intro h
    obtain ⟨hd, hrem⟩ := hfits h.deadline
    refine ⟨hread.mpr h.deadline, hdelay.mpr h.delay, hdelay.mpr h.delay, fun u hu => ?_,
      fun t ht hlt => timesOut_pending ht ?_ hlt⟩
    · rw [(hwait u).mp hu, hrem, hd]
      exact hsleep.mpr h.wait
    · show deadline c.now ticks ≤ int64Max
      rw [hd]
      exact h.deadline

def oneSecond : Clocks := ⟨133000000000000000, 60000000000, 133000000000000007, 60000000700⟩

theorem oneSecond_notShortened : NotShortened oneSecond [0x1000] 1 (-10000000) ∧
    deadline oneSecond.now (-10000000) = 133000000010000000 ∧
    ntDelayExecution oneSecond.now oneSecond.host (some (-10000000)) = .slept 61000000000 :=
  ⟨(not_shortened_iff (c := oneSecond) ⟨by decide, by decide, by decide, by decide⟩ [0x1000] 1 (by decide)
    (by decide)).mpr ⟨by decide, by decide, by decide⟩, by decide, by decide⟩

/-- A millisecond and a half is cut to one; the most negative timeout, and a delay of the longest finite
interval, are over before they begin. -/
theorem shortened : ¬ ∀ (c : Clocks) (objects : List Addr) (waitType : Nat) (ticks : Int), c.Ok → ticks < 0 →
    -2 ^ 63 ≤ ticks → NotShortened c objects waitType ticks := by
  intro hall
  have h := (hall oneSecond [] 1 (-15000) ⟨by decide, by decide, by decide, by decide⟩ (by decide)
    (by decide)).ke
  exact absurd h (by decide)

example : deadline 133000000000000000 (-2 ^ 63) < 0 := by decide

example : ntDelayExecution 133000000000000000 60000000000 (some (-2 ^ 63 + 1)) = .slept 59999419200 := by
  decide

end Kernemul.Sync
