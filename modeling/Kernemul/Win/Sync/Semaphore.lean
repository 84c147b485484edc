import Kernemul.Win.Sync.History

/-!
# Semaphores

What a semaphore has been given and what waits have taken of it tell its count. The count stays between
zero and the limit as long as no release leaves the signed range or skips the check of the limit, and no
wait takes a semaphore more often than it is signalled.
-/

namespace Kernemul.Sync

open State

/-! ## What the log says -/

/-- The initial count of a semaphore and all that has been released since. -/
def granted (a : Addr) : List Event → Int
  | [] => 0
  | .init _ b o :: log => if b = a then o.state else granted a log
  | .satisfied .. :: log => granted a log
  | .released _ b n :: log => granted a log + if b = a then n else 0

def takes (a : Addr) : List Event → Nat
  | [] => 0
  | .init _ b _ :: log => if b = a then 0 else takes a log
  | .satisfied _ l _ :: log => takes a log + l.count a
  | .released .. :: log => takes a log

def satisfiedWaits (a : Addr) : List Event → Nat
  | [] => 0
  | .init _ b _ :: log => if b = a then 0 else satisfiedWaits a log
  | .satisfied _ l _ :: log => satisfiedWaits a log + if a ∈ l then 1 else 0
  | .released .. :: log => satisfiedWaits a log

theorem satisfiedWaits_le_takes (a : Addr) (log : List Event) : satisfiedWaits a log ≤ takes a log := by
  induction log with
  | nil => exact le_refl _
  | cons e log ih =>
    cases e with
    | init self b o =>
      simp only [satisfiedWaits, takes]
      split
      · exact le_refl _
      · exact ih
    | satisfied self l before =>
      simp only [satisfiedWaits, takes]
      split
      · rename_i ha
        exact Nat.add_le_add ih (List.count_pos_iff.mpr ha)
      · omega
    | released self b n => exact ih

/-- A semaphore that is within its bounds, and has not satisfied more waits than it was given. -/
structure SemaphoreOk (o : Object) (a : Addr) (log : List Event) : Prop where
  nonneg : 0 ≤ o.state
  le_limit : o.state ≤ o.limit
  waits : (satisfiedWaits a log : Int) ≤ granted a log

structure Semaphore (a : Addr) (log : List Event) (o : Object) : Prop where
  kind : o.kind = .semaphore
  nonneg : 0 ≤ o.state
  le_limit : o.state ≤ o.limit
  limit_lt : o.limit < 2 ^ 31
  state : o.state = granted a log - takes a log

theorem Semaphore.ok {a : Addr} {log : List Event} {o : Object} (h : Semaphore a log o) :
    SemaphoreOk o a log := by
  refine ⟨h.nonneg, h.le_limit, ?_⟩
  have hle := satisfiedWaits_le_takes a log
  have hst := h.state
  have hnn := h.nonneg
  omega

/-- No wait has taken a semaphore more often than it was signalled. -/
def Affords (objs : Objects) (l : List Addr) : Prop :=
  ∀ a ∈ l, (objs a).kind = .semaphore → l.count a ≤ (objs a).state

instance (objs : Objects) (l : List Addr) : Decidable (Affords objs l) :=
  inferInstanceAs (Decidable (∀ a ∈ l, _))

def Afforded (log : List Event) : Prop := ∀ self l before, .satisfied self l before ∈ log → Affords before l

instance (log : List Event) : Decidable (Afforded log) :=
  decidable_of_iff (allSatisfied Affords log = true) allSatisfied_iff

theorem follows_semaphores : Follows .semaphore Afforded Semaphore where
  suffix hgood hlog self l before he := hgood self l before (hlog.mem he)
  other {s self c w a o} hw ha hs := by
    have hgranted : granted a (w.event.toList ++ s.log) = granted a s.log := by
      rcases c.write_event hw with he | he | ⟨n, he⟩ <;> rw [he]
      · rfl
      · exact if_neg (Ne.symm ha)
      · show granted a s.log + (if w.addr = a then n else 0) = _
        rw [if_neg (Ne.symm ha), Int.add_zero]
    have htakes : takes a (w.event.toList ++ s.log) = takes a s.log := by
      rcases c.write_event hw with he | he | ⟨n, he⟩ <;> rw [he]
      · rfl
      · exact if_neg (Ne.symm ha)
      · rfl
    refine ⟨hs.kind, hs.nonneg, hs.le_limit, hs.limit_lt, ?_⟩
    rw [hgranted, htakes]
    exact hs.state
  satisfied {s th w l a} _ _ hgood hs := by
    have hstate : (takeAll th.ethread l.1 s.objs a).state = (s.objs a).state - l.1.count a ∧
        l.1.count a ≤ (s.objs a).state := by
      have hnn := hs.nonneg
      have hle := hs.le_limit
      have hlt := hs.limit_lt
      by_cases ha : a ∈ l.1
      · have hafford := hgood _ _ _ (List.mem_cons_self ..) a ha hs.kind
        exact ⟨takeAll_counted (.inr (.inl hs.kind)) (by omega) (by omega), hafford⟩
      · rw [takeAll_of_not_mem ha, List.count_eq_zero.mpr ha]
        exact ⟨(Int.sub_zero _).symm, hnn⟩
    have hle := hs.le_limit
    have hst := hs.state
    constructor
    · exact (takeAll_kind ..).trans hs.kind
    · omega
    · rw [takeAll_limit]
      omega
    · rw [takeAll_limit]
      exact hs.limit_lt
    · show _ = granted a s.log - ((takes a s.log + l.1.count a : Nat) : Int)
      push_cast
      omega

/-! ## Using semaphores -/

/-- A semaphore is made within its bounds; no release leaves the signed range, goes below zero or, where
the limit is not looked at, passes it; and what is no semaphore is not a semaphore's. -/
def Call.UsesSemaphores (s : State) : Call → Prop
  | .keInitializeSemaphore a count limit => s.host a = none ∧ 0 ≤ count ∧ count ≤ limit ∧ limit < 2 ^ 31
  | .ntCreateSemaphore _ _ maximumCount => maximumCount < 2 ^ 31
  | .keReleaseSemaphore a adjustment => IsKind .semaphore s.log a →
    0 ≤ (s.objs a).state + adjustment ∧ (s.objs a).state + adjustment < 2 ^ 31
  | .ntReleaseSemaphore h releaseCount _ => ∀ a, s.resolve h .semaphore = some a →
    IsKind .semaphore s.log a → (s.objs a).state + releaseCount < 2 ^ 31
  | .ntSignalAndWaitForSingleObject sh wh _ _ => ∀ a, s.handles sh = some a → s.handles wh ≠ none →
    IsKind .semaphore s.log a → (s.objs a).state < (s.objs a).limit
  | .keSetEvent a | .keResetEvent a | .keReleaseMutex a => ¬ IsKind .semaphore s.log a
  | c => c.Own s

def UsesSemaphores (s : State) : Action → Prop
  | .call t c => s.thread t ≠ none → c.UsesSemaphores s
  | .ready _ _ => True
  | .terminate _ t => ∀ th, s.thread t = some th → ¬ IsKind .semaphore s.log th.ethread

instance (s : State) (c : Call) : Decidable (c.UsesSemaphores s) :=
  match c with
  | .keInitializeSemaphore .. => inferInstanceAs (Decidable (_ ∧ _))
  | .ntCreateSemaphore .. => inferInstanceAs (Decidable (_ < _))
  | .keReleaseSemaphore a n =>
    inferInstanceAs (Decidable (IsKind .semaphore s.log a →
      0 ≤ (s.objs a).state + n ∧ (s.objs a).state + n < 2 ^ 31))
  | .ntReleaseSemaphore h n _ =>
    inferInstanceAs (Decidable (∀ a, s.resolve h .semaphore = some a → IsKind .semaphore s.log a →
      (s.objs a).state + n < 2 ^ 31))
  | .ntSignalAndWaitForSingleObject sh wh _ _ =>
    inferInstanceAs (Decidable (∀ a, s.handles sh = some a → s.handles wh ≠ none →
      IsKind .semaphore s.log a → (s.objs a).state < (s.objs a).limit))
  | .keSetEvent a | .keResetEvent a | .keReleaseMutex a =>
    inferInstanceAs (Decidable (¬ IsKind .semaphore s.log a))
  | .keInitializeEvent a _ _ | .keInitializeMutex a | .keInitializeMutant a _ =>
    inferInstanceAs (Decidable (s.host a = none))
  | .ntCreateEvent .. | .ntSetEvent .. | .ntResetEvent .. | .ntCreateMutant .. | .ntReleaseMutant ..
  | .keWaitForSingleObject .. | .keWaitForMultipleObjects ..
  | .ntWaitForSingleObject .. | .ntWaitForMultipleObjects .. => isTrue trivial

instance (s : State) (action : Action) : Decidable (UsesSemaphores s action) :=
  match action with
  | .call t c => inferInstanceAs (Decidable (s.thread t ≠ none → c.UsesSemaphores s))
  | .ready _ _ => isTrue trivial
  | .terminate _ t =>
    inferInstanceAs (Decidable (∀ th, s.thread t = some th → ¬ IsKind .semaphore s.log th.ethread))

theorem Call.UsesSemaphores.own {s : State} {c : Call} (h : c.UsesSemaphores s) : c.Own s := by
  cases c with
  | keInitializeSemaphore a count limit => exact h.1
  | keInitializeEvent | keInitializeMutex | keInitializeMutant => exact h
  | _ => trivial

abbrev Semaphores (s : State) : Prop := Tracked .semaphore Afforded Semaphore s

theorem semaphore_init {self a : Addr} {o : Object} (hkind : o.kind = .semaphore) (hnn : 0 ≤ o.state)
    (hle : o.state ≤ o.limit) (hlt : o.limit < 2 ^ 31) (log : List Event) :
    Semaphore a (.init self a o :: log) o := by
  refine ⟨hkind, hnn, hle, hlt, ?_⟩
  simp [granted, takes]

theorem semaphore_released {self a : Addr} {o : Object} {log : List Event} (h : Semaphore a log o)
    {n : Int} (hnn : 0 ≤ o.state + n) (hlt : o.state + n < 2 ^ 31)
    (hle : i32 (o.state + n) ≤ o.limit) :
    Semaphore a (.released self a n :: log) { o with state := i32 (o.state + n) } := by
  have heq : i32 (o.state + n) = o.state + n := i32_eq (by omega) hlt
  have hst := h.state
  refine ⟨h.kind, ?_, hle, h.limit_lt, ?_⟩
  · show 0 ≤ i32 (o.state + n)
    omega
  · show i32 (o.state + n) = _
    simp only [granted, takes, if_true]
    omega

theorem signalled_semaphore {o : Object} (h : o.kind = .semaphore) :
    signalled o = { o with state := i32 (o.state + 1) } := by
  unfold signalled
  split
  · rfl
  · rename_i hk
    rw [h] at hk
    cases hk
  · rename_i hk _
    exact absurd h hk

theorem semaphore_write {s : State} (h : Semaphores s) (hgood : Afforded s.log) {self : Addr} {c : Call}
    (huse : c.UsesSemaphores s) {w : Write} (hw : c.write s self = some w)
    (hkind : IsKind .semaphore (w.event.toList ++ s.log) w.addr) :
    Semaphore w.addr (w.event.toList ++ s.log) w.obj := by
  have htyped : ∀ {hd expected a}, s.resolve hd expected = some a → expected ≠ .semaphore →
      ¬ IsKind .semaphore s.log a := by
    intro hd expected a hres hne hm
    exact hne (expected_of_resolve h.typed hres (h.ok hgood a hm).kind rfl)
  cases c with
  | keInitializeSemaphore a count limit =>
    simp only [Call.write] at hw
    split at hw
    · cases hw
    · cases hw
      exact semaphore_init rfl huse.2.1 huse.2.2.1 huse.2.2.2 s.log
  | ntCreateSemaphore a initialCount maximumCount =>
    simp only [Call.write] at hw
    split at hw
    · cases hw
    · rename_i hok
      simp only [not_or, not_le, not_lt] at hok
      cases hw
      have hlt : maximumCount < 2 ^ 31 := huse
      exact semaphore_init rfl hok.2.1 hok.2.2 hlt s.log
  | keInitializeEvent a type state | ntCreateEvent a type initialState =>
    have hk := Call.isKind_initKind hw rfl hkind
    split at hk <;> cases hk
  | keInitializeMutex a | keInitializeMutant a _ | ntCreateMutant a _ =>
    cases Call.isKind_initKind hw rfl hkind
  | keSetEvent a | keResetEvent a | keReleaseMutex a =>
    simp only [Call.write] at hw
    split at hw
    · cases hw
    · cases hw
      exact absurd hkind huse
  | ntSetEvent hd _ | ntResetEvent hd _ =>
    obtain ⟨a, ha, rfl⟩ := Option.map_eq_some_iff.mp hw
    exact absurd hkind (htyped ha (by decide))
  | ntReleaseMutant hd _ =>
    obtain ⟨a, ha, hw⟩ := Option.bind_eq_some_iff.mp hw
    split at hw
    · cases hw
    · cases hw
      exact absurd hkind (htyped ha (by decide))
  | keReleaseSemaphore a n =>
    simp only [Call.write] at hw
    split at hw
    · cases hw
    · rename_i hok
      simp only [not_or, not_lt] at hok
      cases hw
      obtain ⟨hnn, hlt⟩ := huse hkind
      exact semaphore_released (h.ok hgood a hkind) hnn hlt hok.2
  | ntReleaseSemaphore hd n _ =>
    obtain ⟨a, ha, hw⟩ := Option.bind_eq_some_iff.mp hw
    split at hw
    · cases hw
    · rename_i hok
      simp only [not_or, not_lt, not_le] at hok
      cases hw
      have hs := h.ok hgood a hkind
      have hnn := hs.nonneg
      exact semaphore_released hs (by omega) (huse a ha hkind) hok.2
  | ntSignalAndWaitForSingleObject sh wh timeout now =>
    simp only [Call.write] at hw
    split at hw
    · rename_i a b ha hb
      cases hw
      have hs := h.ok hgood a hkind
      have hnn := hs.nonneg
      have hlt := hs.limit_lt
      have hroom := huse a ha (by rw [hb]; simp) hkind
      rw [signalled_semaphore hs.kind]
      have heq : i32 ((s.objs a).state + 1) = (s.objs a).state + 1 := i32_eq (by omega) (by omega)
      exact semaphore_released hs (by omega) (by omega) (by omega)
    · cases hw
  | _ => cases hw

theorem step_semaphores {s s' : State} {action : Action} (h : Semaphores s)
    (huse : UsesSemaphores s action) (hstep : step s action = some s') : Semaphores s' := by
  refine follows_semaphores.step h ?_ ?_ hstep
  · intro t c th w haction hth hw
    subst haction
    have huse' : c.UsesSemaphores s := huse (by rw [hth]; simp)
    exact ⟨huse'.own, fun hgood => semaphore_write h hgood huse' hw⟩
  · intro p t th haction hth
    subst haction
    exact huse th hth

def Call.adds (s : State) : Call → Option (Addr × Int)
  | .keReleaseSemaphore a adjustment => some (a, adjustment)
  | .ntReleaseSemaphore h releaseCount _ => (s.resolve h .semaphore).map fun a => (a, releaseCount)
  | .ntSignalAndWaitForSingleObject sh wh _ _ =>
    if s.handles wh = none then none else (s.handles sh).map fun a => (a, 1)
  | _ => none

/-- A release that has left the semaphore alone: `KeReleaseSemaphore` has no way to say so but the log. -/
def Call.LeftAlone (s : State) (t : Tid) (self : Addr) (a : Addr) (c : Call) : Prop :=
  c.run s t self = (s, .semaphoreLimitExceeded) ∨ c.run s t self = (s, .previous (s.objs a).state)

theorem leftAlone_of_past_limit {s : State} {a : Addr} (hs : Semaphore a s.log (s.objs a))
    (ha : IsKind .semaphore s.log a) (ha₀ : a ≠ 0) (t : Tid) (self : Addr) {c : Call} {n : Int}
    (hadds : c.adds s = some (a, n)) (huse : c.UsesSemaphores s)
    (hpast : (s.objs a).limit < (s.objs a).state + n) : c.LeftAlone s t self a := by
  have hnn := hs.nonneg
  have hle := hs.le_limit
  cases c with
  | keReleaseSemaphore b adjustment =>
    obtain ⟨rfl, rfl⟩ := Prod.mk.inj (Option.some.inj hadds)
    obtain ⟨hlo, hhi⟩ := huse ha
    have heq := i32_eq (n := (s.objs b).state + adjustment) (by omega) hhi
    refine .inr ?_
    simp only [Call.run]
    rw [if_neg ha₀, if_pos (by omega)]
  | ntReleaseSemaphore h releaseCount previousCount =>
    obtain ⟨b, hres, hb⟩ := Option.map_eq_some_iff.mp hadds
    obtain ⟨rfl, rfl⟩ := Prod.mk.inj hb
    have hhi := huse b hres ha
    have heq := i32_eq (n := (s.objs b).state + releaseCount) (by omega) hhi
    refine .inl ?_
    simp only [Call.run, hres]
    rw [if_neg (by omega), if_pos (by omega)]
  | ntSignalAndWaitForSingleObject sh wh timeout now =>
    simp only [Call.adds] at hadds
    split at hadds
    · cases hadds
    · rename_i hwh
      obtain ⟨b, hsh, hb⟩ := Option.map_eq_some_iff.mp hadds
      obtain ⟨rfl, rfl⟩ := Prod.mk.inj hb
      have hroom := huse b hsh hwh ha
      omega
  | _ => cases hadds

/-- **Bounds of semaphores.** In every state of a run that uses semaphores that way, and in which no wait
takes one more often than it is signalled, the count is within its bounds, no more waits have been
satisfied than were granted, and a release past the limit changes nothing. -/
theorem semaphoreOk_of_usesSemaphores {s s' : State} {actions : List Action} (h : Fresh s)
    (hrun : Run.Steps step UsesSemaphores s actions s') (hgood : Afforded s'.log) {a : Addr}
    (ha : IsKind .semaphore s'.log a) :
    SemaphoreOk (s'.objs a) a s'.log ∧
      ∀ t th (c : Call) n, s'.thread t = some th → c.adds s' = some (a, n) → a ≠ 0 →
        c.UsesSemaphores s' → (s'.objs a).limit < (s'.objs a).state + n →
        c.LeftAlone s' t th.ethread a := by
  have hinv : Semaphores s' :=
    hrun.invariant (fun _ _ _ hs huse hstep => step_semaphores hs huse hstep) (h.tracked ..)
  have hs := hinv.ok hgood a ha
  exact ⟨hs.ok, fun t th c n _ hadds ha₀ huse hpast =>
    leftAlone_of_past_limit hs ha ha₀ t th.ethread hadds huse hpast⟩

def releaseAndWait : List Action :=
  [.call 8 (.ntCreateSemaphore 0x1000 1 2), .call 8 (.ntReleaseSemaphore 4 1 .mapped),
    .call 8 (.ntReleaseSemaphore 4 1 .null), .call 12 (.ntWaitForSingleObject 4 .null 0)]

theorem semaphoreOk_releaseAndWait : ∃ s', Run.Steps step UsesSemaphores twoThreads releaseAndWait s' ∧
    (s'.objs 0x1000).state = 1 ∧ SemaphoreOk (s'.objs 0x1000) 0x1000 s'.log := by
  have hfacts : ((Run.exec step (fun s action => decide (UsesSemaphores s action)) twoThreads
      releaseAndWait).map fun s => decide (Afforded s.log ∧ IsKind .semaphore s.log 0x1000 ∧
        (s.objs 0x1000).state = 1)) = some true := by
    decide +kernel
  obtain ⟨s', hexec, hs'⟩ := Option.map_eq_some_iff.mp hfacts
  obtain ⟨hgood, hkind, hstate⟩ := of_decide_eq_true hs'
  have hrun := Run.Steps.of_exec (fun s action => of_decide_eq_true) hexec
  exact ⟨s', hrun, hstate, (semaphoreOk_of_usesSemaphores twoThreads_fresh hrun hgood hkind).1⟩

/-- A wait for all of a list that names a semaphore twice takes it twice. -/
theorem semaphore_taken_twice :
    ∃ s', Run.Steps step (fun _ _ => True) twoThreads
        [.call 8 (.ntCreateSemaphore 0x1000 1 1), .call 8 (.ntWaitForMultipleObjects [4, 4] 0 .null 0)] s' ∧
      IsKind .semaphore s'.log 0x1000 ∧ (s'.objs 0x1000).state = -1 ∧
      ¬ SemaphoreOk (s'.objs 0x1000) 0x1000 s'.log := by
  have hfacts : ((Run.exec step (fun _ _ => true) twoThreads
      [.call 8 (.ntCreateSemaphore 0x1000 1 1), .call 8 (.ntWaitForMultipleObjects [4, 4] 0 .null 0)]).map
      fun s => decide (IsKind .semaphore s.log 0x1000 ∧ (s.objs 0x1000).state = -1)) = some true := by
    decide +kernel
  obtain ⟨s', hexec, hs'⟩ := Option.map_eq_some_iff.mp hfacts
  obtain ⟨hkind, hstate⟩ := of_decide_eq_true hs'
  refine ⟨s', Run.Steps.of_exec (fun _ _ _ => trivial) hexec, hkind, hstate, fun hok => ?_⟩
  have hnn := hok.nonneg
  omega

end Kernemul.Sync
