import Kernemul.Win.Sync.History

/-!
# Mutants

What has happened to a mutant tells who holds it, and how often. As long as a mutant is only released by
its owner, and only from the last level of recursion, the header and `OwnerThread` say the same.
-/

namespace Kernemul.Sync

open State

/-! ## What the log says -/

def holds (a : Addr) : List Event → Addr → Int
  | [], _ => 0
  | .init self b o :: log, x =>
    if b = a then (if o.state ≤ 0 ∧ x = self then 1 else 0) else holds a log x
  | .satisfied self l _ :: log, x => holds a log x + if x = self then (l.count a : Int) else 0
  | .released self b n :: log, x => holds a log x - if b = a ∧ x = self then n else 0

structure MutantOk (o : Object) (held : Addr → Int) : Prop where
  nonneg : ∀ x, 0 ≤ held x
  one_owner : ∀ x y, 0 < held x → 0 < held y → x = y
  state_le : o.state ≤ 1
  state_free : (∀ x, held x = 0) → o.state = 1
  state_owned : ∀ x, 0 < held x → o.state = 1 - held x
  owner : ∀ x, 0 < held x ↔ o.state ≤ 0 ∧ o.owner = x
  owner_null : 0 < o.state → o.owner = 0
  signalled : ∀ x, isSignalled o x = true ↔ (∀ y, held y = 0) ∨ 0 < held x

inductive Mutant (o : Object) (held : Addr → Int) : Prop
  | free (kind : o.kind = .mutant) (state : o.state = 1) (owner : o.owner = 0) (held : ∀ x, held x = 0)
  | owned (kind : o.kind = .mutant) (owner_ne : o.owner ≠ 0) (pos : 0 < held o.owner)
    (state : o.state = 1 - held o.owner) (others : ∀ x, x ≠ o.owner → held x = 0)

namespace Mutant

variable {o : Object} {held : Addr → Int}

theorem kind (h : Mutant o held) : o.kind = .mutant := by
  cases h <;> assumption

theorem state_le (h : Mutant o held) : o.state ≤ 1 := by
  cases h <;> omega

theorem ok (h : Mutant o held) : MutantOk o held := by
  cases h with
  | free hk hs ho hz =>
    constructor
    · exact fun x => (hz x).ge
    · intro x y hx
      rw [hz x] at hx
      omega
    · omega
    · exact fun _ => hs
    · intro x hx
      rw [hz x] at hx
      omega
    · intro x
      rw [hz x]
      omega
    · exact fun _ => ho
    · exact fun x => iff_of_true (isSignalled_of_pos (by omega) x) (.inl hz)
  | owned hk hne hpos hs hoth =>
    have heq : ∀ x, 0 < held x → x = o.owner := by
      intro x hx
      by_contra hx'
      rw [hoth x hx'] at hx
      omega
    have hsig : ∀ x, isSignalled o x = true ↔ o.owner = x := by
      intro x
      constructor
      · intro h
        by_contra hx
        rw [not_isSignalled (by omega) (fun _ => hx)] at h
        cases h
      · rintro rfl
        unfold isSignalled
        rw [if_pos ⟨by omega, hk⟩]
        simpa using hne
    constructor
    · intro x
      by_cases hx : x = o.owner
      · rw [hx]
        omega
      · rw [hoth x hx]
    · intro x y hx hy
      rw [heq x hx, heq y hy]
    · omega
    · intro hz
      rw [hz] at hpos
      omega
    · intro x hx
      rw [heq x hx]
      exact hs
    · intro x
      constructor
      · exact fun hx => ⟨by omega, (heq x hx).symm⟩
      · rintro ⟨-, rfl⟩
        exact hpos
    · intro hst
      omega
    · intro x
      rw [hsig x]
      constructor
      · rintro rfl
        exact .inr hpos
      · rintro (hz | hx)
        · rw [hz] at hpos
          omega
        · exact (heq x hx).symm

theorem taken (h : Mutant o held) {o' : Object} {self : Addr} {n : Nat} (hself : self ≠ 0) (hn : 0 < n)
    (hsig : isSignalled o self = true) (hkind : o'.kind = o.kind) (howner : o'.owner = self)
    (hstate : o'.state = o.state - n) :
    Mutant o' fun x => held x + if x = self then (n : Int) else 0 := by
  have hk : o'.kind = .mutant := hkind.trans h.kind
  cases h with
  | free _ hs _ hz =>
    apply owned hk (howner ▸ hself)
    · rw [howner, hz, if_pos rfl]
      omega
    · rw [howner, hz, if_pos rfl]
      omega
    · intro x hx
      rw [howner] at hx
      rw [hz, if_neg hx]
      rfl
  | owned hk₀ hne hpos hs hoth =>
    have hown : o.owner = self := by
      by_contra hx
      rw [not_isSignalled (by omega) (fun _ => hx)] at hsig
      cases hsig
    apply owned hk (howner ▸ hself)
    · rw [howner, if_pos rfl, ← hown]
      omega
    · rw [howner, if_pos rfl, ← hown]
      omega
    · intro x hx
      rw [howner] at hx
      rw [hoth x (hown ▸ hx), if_neg hx]
      rfl

theorem released (h : Mutant o held) {self : Addr} (howner : o.owner = self) (hstate : o.state = 0) :
    Mutant (releaseOnce o) fun x => held x - if x = self then (1 : Int) else 0 := by
  cases h with
  | free hk hs ho hz => omega
  | owned hk hne hpos hs hoth =>
    have hone : held o.owner = 1 := by omega
    have hk' : (releaseOnce o).kind = .mutant := hk
    apply free hk'
    · show i32 (o.state + 1) = 1
      rw [hstate]
      exact i32_eq (by omega) (by omega)
    · rfl
    · intro x
      by_cases hx : x = o.owner
      · rw [hx, ← howner, if_pos rfl, hone]
        rfl
      · rw [hoth x hx, if_neg (howner ▸ hx)]
        rfl

end Mutant

variable {s : State} {self : Addr}

theorem holds_put_of_ne {c : Call} {w : Write} (h : c.write s self = some w)
    {a : Addr} (ha : a ≠ w.addr) : holds a (w.event.toList ++ s.log) = holds a s.log := by
  funext x
  rcases c.write_event h with he | he | ⟨n, he⟩ <;> rw [he]
  · rfl
  · show (if w.addr = a then _ else _) = _
    rw [if_neg (Ne.symm ha)]
    rfl
  · show _ - (if w.addr = a ∧ x = self then n else 0) = _
    rw [if_neg (fun hc => ha hc.1.symm), Int.sub_zero]
    rfl

/-! ## Using mutants -/

/-- A thread has acquired a mutant once more than it has released it. -/
def OwnedOnce (o : Object) (self : Addr) : Prop := o.owner = self ∧ o.state = 0

/-- A mutant is released by its owner from the last level, or found to be free; a driver initialises
memory that already says who owns it; and what is no mutant is not a mutant's. -/
def Call.UsesMutants (s : State) (self : Addr) : Call → Prop
  | .keInitializeMutant a initialOwner => s.host a = none ∧ (s.objs a).owner = if initialOwner then self else 0
  | .keReleaseMutex a => IsKind .mutant s.log a → OwnedOnce (s.objs a) self
  | .ntReleaseMutant h _ => ∀ a, s.resolve h .mutant = some a → IsKind .mutant s.log a →
    0 < (s.objs a).state ∨ OwnedOnce (s.objs a) self
  | .ntSignalAndWaitForSingleObject sh wh _ _ => ∀ a, s.handles sh = some a → s.handles wh ≠ none →
    IsKind .mutant s.log a → OwnedOnce (s.objs a) self
  | .keSetEvent a | .keResetEvent a | .keReleaseSemaphore a _ => ¬ IsKind .mutant s.log a
  | c => c.Own s

def UsesMutants (s : State) : Action → Prop
  | .call t c => ∀ th, s.thread t = some th → c.UsesMutants s th.ethread
  | .ready _ _ => True
  | .terminate _ t => ∀ th, s.thread t = some th → ¬ IsKind .mutant s.log th.ethread

instance (o : Object) (self : Addr) : Decidable (OwnedOnce o self) := inferInstanceAs (Decidable (_ ∧ _))

instance (s : State) (self : Addr) (c : Call) : Decidable (c.UsesMutants s self) :=
  match c with
  | .keInitializeMutant .. => inferInstanceAs (Decidable (_ ∧ _))
  | .keReleaseMutex a =>
    inferInstanceAs (Decidable (IsKind .mutant s.log a → OwnedOnce (s.objs a) self))
  | .ntReleaseMutant h _ =>
    inferInstanceAs (Decidable (∀ a, s.resolve h .mutant = some a → IsKind .mutant s.log a →
      0 < (s.objs a).state ∨ OwnedOnce (s.objs a) self))
  | .ntSignalAndWaitForSingleObject sh wh _ _ =>
    inferInstanceAs (Decidable (∀ a, s.handles sh = some a → s.handles wh ≠ none →
      IsKind .mutant s.log a → OwnedOnce (s.objs a) self))
  | .keSetEvent a | .keResetEvent a | .keReleaseSemaphore a _ =>
    inferInstanceAs (Decidable (¬ IsKind .mutant s.log a))
  | .keInitializeEvent a _ _ | .keInitializeMutex a | .keInitializeSemaphore a _ _ =>
    inferInstanceAs (Decidable (s.host a = none))
  | .ntCreateEvent .. | .ntSetEvent .. | .ntResetEvent .. | .ntCreateMutant .. | .ntCreateSemaphore ..
  | .ntReleaseSemaphore .. | .keWaitForSingleObject .. | .keWaitForMultipleObjects ..
  | .ntWaitForSingleObject .. | .ntWaitForMultipleObjects .. => isTrue trivial

instance (s : State) (action : Action) : Decidable (UsesMutants s action) :=
  match action with
  | .call t c => inferInstanceAs (Decidable (∀ th, s.thread t = some th → c.UsesMutants s th.ethread))
  | .ready _ _ => isTrue trivial
  | .terminate _ t =>
    inferInstanceAs (Decidable (∀ th, s.thread t = some th → ¬ IsKind .mutant s.log th.ethread))

theorem Call.UsesMutants.own {c : Call} (h : c.UsesMutants s self) : c.Own s := by
  cases c with
  | keInitializeMutant a initialOwner => exact h.1
  | keInitializeEvent | keInitializeMutex | keInitializeSemaphore => exact h
  | _ => trivial

theorem mutant_init {a : Addr} (hself : self ≠ 0) (initialOwner : Bool) {o : Object}
    (hkind : o.kind = .mutant) (hstate : o.state = if initialOwner then 0 else 1)
    (howner : o.owner = if initialOwner then self else 0) (log : List Event) :
    Mutant o (holds a (.init self a o :: log)) := by
  have hholds : ∀ x, holds a (.init self a o :: log) x = if o.state ≤ 0 ∧ x = self then 1 else 0 :=
    fun x => if_pos rfl
  cases initialOwner with
  | true =>
    simp only [if_true] at hstate howner
    apply Mutant.owned hkind
    · rw [howner]
      exact hself
    · rw [hholds, if_pos ⟨hstate.le, howner⟩]
      omega
    · rw [hholds, if_pos ⟨hstate.le, howner⟩, hstate]
      rfl
    · intro x hx
      rw [hholds, if_neg (fun hc => hx (hc.2.trans howner.symm))]
  | false =>
    apply Mutant.free hkind hstate howner
    intro x
    rw [hholds, if_neg]
    intro hc
    have hone : o.state = 1 := hstate
    omega

theorem mutant_released {o : Object} {a : Addr} {log : List Event} (h : Mutant o (holds a log))
    (hown : OwnedOnce o self) : Mutant (releaseOnce o) (holds a (.released self a 1 :: log)) := by
  have heq : holds a (.released self a 1 :: log) =
      fun x => holds a log x - if x = self then (1 : Int) else 0 := by
    funext x
    simp [holds]
  rw [heq]
  exact h.released hown.1 hown.2

def Fitting (log : List Event) : Prop := ∀ self l before, .satisfied self l before ∈ log → Fits before l

theorem follows_mutants : Follows .mutant Fitting fun a log o => Mutant o (holds a log) where
  suffix hgood hlog self l before he := hgood self l before (hlog.mem he)
  other hw ha hm := by
    rw [holds_put_of_ne hw ha]
    exact hm
  satisfied {s th w l a} hself hl hgood hm := by
    by_cases ha : a ∈ l.1
    · apply hm.taken hself (List.count_pos_iff.mpr ha) (Wait.taken_signalled hl a ha).2
      · exact takeAll_kind ..
      · exact takeAll_owner hm.kind ha
      · have hle := hm.state_le
        exact takeAll_counted (.inl hm.kind) (hgood _ _ _ (List.mem_cons_self ..) a ha) (by omega)
    · have hsame : holds a (.satisfied th.ethread l.1 s.objs :: s.log) = holds a s.log := by
        funext x
        simp [holds, List.count_eq_zero.mpr ha]
      rw [takeAll_of_not_mem ha, hsame]
      exact hm

/-- Mutants, of which nothing has happened but what `holds` tells. -/
abbrev Mutants (s : State) : Prop := Tracked .mutant Fitting (fun a log o => Mutant o (holds a log)) s

theorem mutant_write (h : Mutants s) (hfits : Fitting s.log) (hself : self ≠ 0)
    {c : Call} (huse : c.UsesMutants s self) {w : Write} (hw : c.write s self = some w)
    (hkind : IsKind .mutant (w.event.toList ++ s.log) w.addr) :
    Mutant w.obj (holds w.addr (w.event.toList ++ s.log)) := by
  have htyped : ∀ {hd expected a}, s.resolve hd expected = some a → expected ≠ .mutant →
      ¬ IsKind .mutant s.log a := by
    intro hd expected a hres hne hm
    exact hne (expected_of_resolve h.typed hres (h.ok hfits a hm).kind rfl)
  cases c with
  | keInitializeMutex a =>
    simp only [Call.write] at hw
    split at hw
    · cases hw
    · cases hw
      exact mutant_init hself false rfl rfl rfl s.log
  | keInitializeMutant a initialOwner =>
    simp only [Call.write] at hw
    split at hw
    · cases hw
    · cases hw
      apply mutant_init hself initialOwner
      · rfl
      · rfl
      · exact huse.2
  | ntCreateMutant a initialOwner =>
    cases hw
    exact mutant_init hself initialOwner rfl rfl rfl s.log
  | keInitializeEvent a type state | ntCreateEvent a type initialState =>
    have hk := Call.isKind_initKind hw rfl hkind
    split at hk <;> cases hk
  | keInitializeSemaphore a _ _ | ntCreateSemaphore a _ _ =>
    cases Call.isKind_initKind hw rfl hkind
  | keSetEvent a | keResetEvent a | keReleaseSemaphore a _ =>
    simp only [Call.write] at hw
    split at hw
    · cases hw
    · cases hw
      exact absurd hkind huse
  | ntSetEvent hd _ | ntResetEvent hd _ =>
    obtain ⟨a, ha, rfl⟩ := Option.map_eq_some_iff.mp hw
    exact absurd hkind (htyped ha (by decide))
  | ntReleaseSemaphore hd n _ =>
    obtain ⟨a, ha, hw⟩ := Option.bind_eq_some_iff.mp hw
    split at hw
    · cases hw
    · cases hw
      exact absurd hkind (htyped ha (by decide))
  | keReleaseMutex a =>
    simp only [Call.write] at hw
    split at hw
    · cases hw
    · cases hw
      exact mutant_released (h.ok hfits a hkind) (huse hkind)
  | ntReleaseMutant hd _ =>
    obtain ⟨a, ha, hw⟩ := Option.bind_eq_some_iff.mp hw
    split at hw
    · cases hw
    · rename_i hpos
      cases hw
      exact mutant_released (h.ok hfits a hkind) ((huse a ha hkind).resolve_left hpos)
  | ntSignalAndWaitForSingleObject sh wh timeout now =>
    simp only [Call.write] at hw
    split at hw
    · rename_i a b ha hb
      cases hw
      have hm := h.ok hfits a hkind
      have hsig : signalled (s.objs a) = releaseOnce (s.objs a) := by
        unfold signalled
        rw [hm.kind]
      rw [hsig]
      exact mutant_released hm (huse a ha (by rw [hb]; simp) hkind)
    · cases hw
  | _ => cases hw

theorem step_mutants {s' : State} {action : Action} (h : Mutants s) (huse : UsesMutants s action)
    (hstep : step s action = some s') : Mutants s' := by
  refine follows_mutants.step h ?_ ?_ hstep
  · intro t c th w haction hth hw
    subst haction
    have huse' := huse th hth
    exact ⟨huse'.own, fun hfits => mutant_write h hfits (h.wellFormed.ethread_ne t th hth) huse' hw⟩
  · intro p t th haction hth
    subst haction
    exact huse th hth

def Call.releases (s : State) : Call → Option Addr
  | .keReleaseMutex a => some a
  | .ntReleaseMutant h _ => s.resolve h .mutant
  | .ntSignalAndWaitForSingleObject sh _ _ _ => s.handles sh
  | _ => none

def Call.Refused (s : State) (t : Tid) (self : Addr) (c : Call) : Prop :=
  (c.run s t self).1 = s ∧ ((c.run s t self).2 = .mutantNotOwned ∨ (c.run s t self).2 = .invalidHandle)

theorem refused_of_not_owner {a : Addr} (hm : MutantOk (s.objs a) (holds a s.log))
    (ha : IsKind .mutant s.log a) (t : Tid) {c : Call} (hrel : c.releases s = some a)
    (huse : c.UsesMutants s self) (hnot : holds a s.log self = 0) : c.Refused s t self := by
  have hown : ¬ OwnedOnce (s.objs a) self := by
    intro h
    have hpos := (hm.owner self).mpr ⟨h.2.le, h.1⟩
    omega
  cases c with
  | keReleaseMutex b =>
    obtain rfl := Option.some.inj hrel
    exact absurd (huse ha) hown
  | ntReleaseMutant h previousCount =>
    have hres : s.resolve h .mutant = some a := hrel
    have hpos := (huse a hres ha).resolve_right hown
    have hrun : (Call.ntReleaseMutant h previousCount).run s t self = (s, .mutantNotOwned) := by
      simp only [Call.run, hres, if_pos hpos]
    rw [Call.Refused, hrun]
    exact ⟨rfl, .inl rfl⟩
  | ntSignalAndWaitForSingleObject sh wh timeout now =>
    have hsh : s.handles sh = some a := hrel
    cases hwh : s.handles wh with
    | none =>
      have hrun : (Call.ntSignalAndWaitForSingleObject sh wh timeout now).run s t self =
          (s, .invalidHandle) := by
        simp only [Call.run, hsh, hwh]
      rw [Call.Refused, hrun]
      exact ⟨rfl, .inr rfl⟩
    | some b => exact absurd (huse a hsh (by rw [hwh]; simp) ha) hown
  | _ => cases hrel

/-- **Ownership of mutants.** In every state of a run that uses mutants that way, and that takes none
below the least value of 32 bits, header and owner field say who holds a mutant and how often, and a
thread that does not hold it cannot release it. -/
theorem mutantOk_of_usesMutants {s s' : State} {actions : List Action} (h : Fresh s)
    (hrun : Run.Steps step UsesMutants s actions s') (hfits : LogFits s') {a : Addr}
    (ha : IsKind .mutant s'.log a) :
    MutantOk (s'.objs a) (holds a s'.log) ∧
      ∀ t th (c : Call), s'.thread t = some th → c.releases s' = some a → c.UsesMutants s' th.ethread →
        holds a s'.log th.ethread = 0 → c.Refused s' t th.ethread := by
  have hinv : Mutants s' :=
    hrun.invariant (fun _ _ _ hs huse hstep => step_mutants hs huse hstep) (h.tracked ..)
  have hm := (hinv.ok hfits a ha).ok
  exact ⟨hm, fun t th c _ hrel huse hnot => refused_of_not_owner hm ha t hrel huse hnot⟩

def lockAndUnlock : List Action :=
  [.call 8 (.ntCreateMutant 0x1000 false), .call 8 (.ntWaitForSingleObject 4 .null 0), .ready 8 0,
    .call 8 (.ntReleaseMutant 4 .mapped), .call 12 (.ntReleaseMutant 4 .null)]

theorem mutantOk_lockAndUnlock : ∃ s', Run.Steps step UsesMutants twoThreads lockAndUnlock s' ∧
    MutantOk (s'.objs 0x1000) (holds 0x1000 s'.log) := by
  have hfacts : ((Run.exec step (fun s action => decide (UsesMutants s action)) twoThreads
      lockAndUnlock).map fun s => decide (LogFits s ∧ IsKind .mutant s.log 0x1000)) = some true := by
    decide +kernel
  obtain ⟨s', hexec, hs'⟩ := Option.map_eq_some_iff.mp hfacts
  obtain ⟨hfits, hkind⟩ := of_decide_eq_true hs'
  have hrun := Run.Steps.of_exec (fun s action => of_decide_eq_true) hexec
  exact ⟨s', hrun, (mutantOk_of_usesMutants twoThreads_fresh hrun hfits hkind).1⟩

/-- A mutant taken twice and released once has an owner that its owner field does not name. -/
theorem mutant_forgets_owner :
    ∃ s', Run.Steps step (fun _ _ => True) twoThreads
        [.call 8 (.keInitializeMutex 0x1000), .call 8 (.keWaitForSingleObject 0x1000 .null 0), .ready 8 0,
          .call 8 (.keWaitForSingleObject 0x1000 .null 0), .ready 8 0,
          .call 8 (.keReleaseMutex 0x1000)] s' ∧
      LogFits s' ∧ IsKind .mutant s'.log 0x1000 ∧ holds 0x1000 s'.log 0x8000 = 1 ∧
      ¬ MutantOk (s'.objs 0x1000) (holds 0x1000 s'.log) := by
  have hfacts : ((Run.exec step (fun _ _ => true) twoThreads
      [.call 8 (.keInitializeMutex 0x1000), .call 8 (.keWaitForSingleObject 0x1000 .null 0), .ready 8 0,
        .call 8 (.keWaitForSingleObject 0x1000 .null 0), .ready 8 0,
        .call 8 (.keReleaseMutex 0x1000)]).map fun s =>
      decide (LogFits s ∧ IsKind .mutant s.log 0x1000 ∧ holds 0x1000 s.log 0x8000 = 1 ∧
        (s.objs 0x1000).owner = 0)) = some true := by
    decide +kernel
  obtain ⟨s', hexec, hs'⟩ := Option.map_eq_some_iff.mp hfacts
  obtain ⟨hfits, hkind, hholds, howner⟩ := of_decide_eq_true hs'
  refine ⟨s', Run.Steps.of_exec (fun _ _ _ => trivial) hexec, hfits, hkind, hholds, fun hok => ?_⟩
  have hown := ((hok.owner 0x8000).mp (by rw [hholds]; decide)).2
  rw [howner] at hown
  cases hown

end Kernemul.Sync
