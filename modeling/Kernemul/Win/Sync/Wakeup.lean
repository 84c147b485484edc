import Kernemul.Win.Sync.Handlers

/-!
# No lost wakeup

A handler that signals an object walks the threads of one process. If every waiter whose condition the
signal makes true is a thread of that process, then after the walk no parked thread has a condition that
holds: a wait that is satisfied only takes objects away from the others.
-/

namespace Kernemul.Sync

open State

def Settled (s : State) : Prop := ∀ t th w, s.parked t = some (th, w) → ¬ w.Ready s.objs th.ethread

structure WellFormed (s : State) : Prop where
  ethread_ne : ∀ t th, s.thread t = some th → th.ethread ≠ 0
  distinct : ∀ t t' th th', s.thread t = some th → s.thread t' = some th' →
    th.ethread = th'.ethread → t = t'

def Fits (objs : Objects) (l : List Addr) : Prop := ∀ a ∈ l, -2 ^ 31 ≤ (objs a).state - l.count a

/-- No wait has been satisfied by taking a count below the least value of 32 bits. -/
def LogFits (s : State) : Prop := ∀ self l before, .satisfied self l before ∈ s.log → Fits before l

instance (objs : Objects) (l : List Addr) : Decidable (Fits objs l) :=
  inferInstanceAs (Decidable (∀ a ∈ l, _))

def allSatisfied (p : Objects → List Addr → Prop) [∀ objs l, Decidable (p objs l)] : List Event → Bool
  | [] => true
  | .satisfied _ l before :: log => decide (p before l) && allSatisfied p log
  | .init .. :: log | .released .. :: log => allSatisfied p log

theorem allSatisfied_iff {p : Objects → List Addr → Prop} [∀ objs l, Decidable (p objs l)]
    {log : List Event} :
    allSatisfied p log = true ↔ ∀ self l before, .satisfied self l before ∈ log → p before l := by
  induction log with
  | nil => exact iff_of_true rfl fun _ _ _ h => absurd h List.not_mem_nil
  | cons e log ih =>
    cases e with
    | satisfied self l before =>
      rw [allSatisfied, Bool.and_eq_true, decide_eq_true_iff, ih]
      constructor
      · rintro ⟨hf, hlog⟩ self' l' before' h
        rcases List.mem_cons.mp h with heq | h
        · cases heq
          exact hf
        · exact hlog self' l' before' h
      · exact fun h => ⟨h self l before (List.mem_cons_self ..), fun self' l' before' h' =>
          h self' l' before' (List.mem_cons_of_mem _ h')⟩
    | init | released =>
      rw [allSatisfied, ih]
      simp

instance (s : State) : Decidable (LogFits s) :=
  decidable_of_iff (allSatisfied Fits s.log = true) allSatisfied_iff

/-! ## Taking leaves less to the others -/

theorem isSignalled_of_pos {o : Object} (h : 0 < o.state) (w : Addr) : isSignalled o w = true := by
  unfold isSignalled
  rw [if_neg (fun hc => absurd hc.1 (by omega))]
  exact decide_eq_true h

theorem not_isSignalled {o : Object} {w : Addr} (h : o.state ≤ 0) (hm : o.kind = .mutant → o.owner ≠ w) :
    isSignalled o w = false := by
  unfold isSignalled
  by_cases hk : o.kind = .mutant
  · rw [if_pos ⟨h, hk⟩]
    have hne : (o.owner == w) = false := by simpa using hm hk
    simp [hne]
  · rw [if_neg (fun hc => hk hc.2)]
    simpa using h

theorem takeAll_nonpos {self : Addr} {l : List Addr} {objs : Objects} (hfits : Fits objs l) {a : Addr}
    (ha : a ∈ l) (h : (objs a).state ≤ 0) : (takeAll self l objs a).state ≤ 0 := by
  by_cases hk : (objs a).kind = .mutant ∨ (objs a).kind = .semaphore ∨ (objs a).kind = .queue
  · rw [takeAll_counted hk (hfits a ha) (by omega)]
    omega
  · have hstep : ∀ o : Object, o.kind = (objs a).kind → o.state ≤ 0 → (take o self).state ≤ 0 := by
      intro o hok hst
      unfold take
      rw [← hok] at hk
      cases hko : o.kind <;> simp_all
    rw [takeAll_apply]
    generalize l.count a = n
    have hiter : ((fun o => take o self)^[n] (objs a)).kind = (objs a).kind ∧
        ((fun o => take o self)^[n] (objs a)).state ≤ 0 := by
      induction n with
      | zero => exact ⟨rfl, h⟩
      | succ n ih =>
        rw [Function.iterate_succ_apply']
        exact ⟨(take_kind ..).trans ih.1, hstep _ ih.1 ih.2⟩
    exact hiter.2

/-- What one waiter takes is not signalled for another one unless it was before. -/
theorem isSignalled_of_takeAll {self w : Addr} (hne : w ≠ self) {l : List Addr} {objs : Objects}
    (hfits : Fits objs l) {a : Addr} (h : isSignalled (takeAll self l objs a) w = true) :
    isSignalled (objs a) w = true := by
  by_cases ha : a ∈ l
  · by_cases hst : 0 < (objs a).state
    · exact isSignalled_of_pos hst w
    · rw [not_isSignalled (takeAll_nonpos hfits ha (by omega))] at h
      · cases h
      · intro hk
        rw [takeAll_kind] at hk
        rw [takeAll_owner hk ha]
        exact Ne.symm hne
  · rw [takeAll_of_not_mem ha] at h
    exact h

namespace State

def Pending (s : State) (C : Tid → Wait → Prop) : Prop := ∀ t th w, s.parked t = some (th, w) →
  w.Ready s.objs th.ethread → C t w

variable {s : State}

theorem parked_satisfy {t : Tid} {th : Thread} {w : Wait} {l : List Addr} {status : Nat}
    (t' : Tid) : (s.satisfy t th w l status).parked t' = if t' = t then none else s.parked t' := by
  unfold parked
  rw [satisfy_thread]
  by_cases h : t' = t
  · rw [if_pos h, h, Function.update_self]
    rfl
  · rw [if_neg h, Function.update_of_ne h]

theorem Pending.trySatisfy {C : Tid → Wait → Prop} (h : s.Pending C) (hw : WellFormed s)
    (t : Tid) (hfits : LogFits ((s.trySatisfy t).getD s)) :
    ((s.trySatisfy t).getD s).Pending fun t' w => C t' w ∧ t' ≠ t := by
  cases htry : s.trySatisfy t with
  | none =>
    intro t' th w hp hready
    refine ⟨h t' th w hp hready, ?_⟩
    rintro rfl
    unfold State.trySatisfy at htry
    rw [show s.parked t' = some (th, w) from hp] at htry
    exact Wait.taken_eq_none_iff.mp (Option.map_eq_none_iff.mp htry) hready
  | some s' =>
    rw [htry] at hfits
    obtain ⟨th, w, l, hp, hl, rfl⟩ := trySatisfy_eq_some.mp htry
    have hf : Fits s.objs l.1 := hfits _ _ _ (List.mem_cons_self ..)
    intro t' th' w' hp' hready
    rw [Option.getD_some, parked_satisfy] at hp'
    split at hp'
    · cases hp'
    · rename_i hne
      refine ⟨h t' th' w' hp' (hready.of_imp fun a _ => isSignalled_of_takeAll ?_ hf), hne⟩
      intro heq
      exact hne (hw.distinct t' t th' th (parked_eq_some.mp hp').1 (parked_eq_some.mp hp).1 heq)

/-! ## What is kept whenever a wait is satisfied -/

theorem wellFormed_of_thread {s' : State} (h : WellFormed s)
    (hback : ∀ t th', s'.thread t = some th' → ∃ th, s.thread t = some th ∧ th.ethread = th'.ethread) :
    WellFormed s' := by
  constructor
  · intro t th' hth'
    obtain ⟨th, hth, heq⟩ := hback t th' hth'
    rw [← heq]
    exact h.ethread_ne t th hth
  · intro t₁ t₂ th₁ th₂ h₁ h₂ heq
    obtain ⟨th₃, h₃, heq₃⟩ := hback t₁ th₁ h₁
    obtain ⟨th₄, h₄, heq₄⟩ := hback t₂ th₂ h₂
    exact h.distinct t₁ t₂ th₃ th₄ h₃ h₄ (heq₃.trans (heq.trans heq₄.symm))

theorem wellFormed_setThread (h : WellFormed s) {t : Tid} {th : Thread}
    (hth : s.thread t = some th) (w : Option Wait) : WellFormed (s.setThread t { th with wait := w }) := by
  apply wellFormed_of_thread h
  intro t' th' h'
  simp only [setThread] at h'
  by_cases ht : t' = t
  · subst ht
    rw [Function.update_self] at h'
    exact ⟨th, hth, by rw [← Option.some.inj h']⟩
  · rw [Function.update_of_ne ht] at h'
    exact ⟨th', h', rfl⟩

theorem stable_wellFormed : Stable WellFormed := by
  intro s t th w l hw hp _
  obtain ⟨hth, -, -⟩ := parked_eq_some.mp hp
  exact wellFormed_of_thread (wellFormed_setThread hw hth
    (some { w with satisfied := true, status := l.2 })) fun t' th' h => ⟨th', h, rfl⟩

theorem closed_wellFormed : Closed WellFormed where
  satisfy := stable_wellFormed
  setThread _ _ _ w hth h := wellFormed_setThread h hth w
  remove s t tids h := wellFormed_of_thread h fun t' th' h' => by
    have hupd : Function.update s.thread t none t' = some th' := h'
    refine ⟨th', ?_, rfl⟩
    by_cases ht : t' = t
    · rw [ht, Function.update_self] at hupd
      cases hupd
    · rwa [Function.update_of_ne ht] at hupd

theorem logFits_of_suffix {s' : State} (h : LogFits s') (hlog : s.log <:+ s'.log) : LogFits s :=
  fun self l before he => h self l before (hlog.mem he)

/-! ## A walk -/

theorem Pending.wakeOne {C : Tid → Wait → Prop} (h : s.Pending C) (hw : WellFormed s)
    (a : Addr) (t : Tid) (hfits : LogFits (s.wakeOne a t)) :
    (s.wakeOne a t).Pending fun t' w => C t' w ∧ ¬ (t' = t ∧ a ∈ w.objects) := by
  unfold State.wakeOne at *
  split
  · rename_i hwait
    rw [if_pos hwait] at hfits
    intro t' th w hp hready
    obtain ⟨hC, hne⟩ := h.trySatisfy hw t hfits t' th w hp hready
    exact ⟨hC, fun hc => hne hc.1⟩
  · rename_i hwait
    intro t' th w hp hready
    refine ⟨h t' th w hp hready, ?_⟩
    rintro ⟨rfl, ha⟩
    obtain ⟨hth, hw', -⟩ := parked_eq_some.mp hp
    apply hwait
    unfold waitingOn
    rw [hth]
    simp [hw', ha]

theorem Pending.walk {C : Tid → Wait → Prop} (h : s.Pending C) (hw : WellFormed s)
    (a : Addr) (ts : List Tid) (hfits : LogFits (ts.foldl (State.wakeOne a) s)) :
    (ts.foldl (State.wakeOne a) s).Pending fun t w => C t w ∧ ¬ (t ∈ ts ∧ a ∈ w.objects) := by
  induction ts generalizing s C with
  | nil =>
    intro t th w hp hready
    exact ⟨h t th w hp hready, fun hc => absurd hc.1 List.not_mem_nil⟩
  | cons t₀ ts ih =>
    have hsuf : (s.wakeOne a t₀).log <:+ (ts.foldl (State.wakeOne a) (s.wakeOne a t₀)).log := by
      generalize s.wakeOne a t₀ = s₁
      suffices hgen : ∀ s₂, s₁.log <:+ s₂.log → s₁.log <:+ (ts.foldl (State.wakeOne a) s₂).log from
        hgen s₁ (List.suffix_refl _)
      clear ih hfits
      induction ts with
      | nil => exact fun s₂ h₂ => h₂
      | cons t ts ih => exact fun s₂ h₂ => ih _ ((stable_log s₁.log).wakeOne h₂ a t)
    have hone := h.wakeOne hw a t₀ (logFits_of_suffix hfits hsuf)
    intro t th w hp hready
    obtain ⟨⟨hC, hne⟩, hnot⟩ := ih hone (stable_wellFormed.wakeOne hw a t₀) hfits t th w hp hready
    refine ⟨hC, ?_⟩
    rintro ⟨hmem, ha⟩
    rcases List.mem_cons.mp hmem with rfl | hmem
    · exact hne ⟨rfl, ha⟩
    · exact hnot ⟨hmem, ha⟩

/-! ## What a walk has to see -/

/-- Every parked thread whose condition holds once an object is written belongs to the process that is
walked, if any is. -/
def Sees (s : State) (p : Option Pid) (a : Addr) (o : Object) : Prop :=
  ∀ t th w, s.parked t = some (th, w) → w.Ready (Function.update s.objs a o) th.ethread →
    ∃ q, p = some q ∧ t ∈ s.tids q

theorem parked_congr {s' : State} (h : s'.thread = s.thread) (t : Tid) : s'.parked t = s.parked t := by
  unfold parked
  rw [h]

theorem parked_setThread_of_ne {t t' : Tid} (h : t' ≠ t) (th : Thread) :
    (s.setThread t th).parked t' = s.parked t' := by
  have heq : (s.setThread t th).thread t' = s.thread t' := Function.update_of_ne h ..
  unfold State.parked
  rw [heq]

theorem parked_setThread_none (s : State) (t : Tid) (th : Thread) :
    (s.setThread t { th with wait := none }).parked t = none := by
  simp [parked, setThread]

/-- Writing an object and walking the process of those it makes ready leaves nobody to be satisfied. -/
theorem settled_walk {s' : State} {p : Pid} {a : Addr} {o : Object} (hset : Settled s)
    (hw : WellFormed s) (hsees : Sees s (some p) a o) (hobjs : s'.objs = Function.update s.objs a o)
    (hthread : s'.thread = s.thread) (htids : s'.tids = s.tids) (hfits : LogFits (s'.wakeWaiters p a)) :
    Settled (s'.wakeWaiters p a) := by
  have hpend : s'.Pending fun t w => t ∈ s'.tids p ∧ a ∈ w.objects := by
    intro t th w hp hready
    rw [parked_congr hthread] at hp
    rw [hobjs] at hready
    obtain ⟨q, hq, hmem⟩ := hsees t th w hp hready
    obtain rfl := Option.some.inj hq
    refine ⟨htids ▸ hmem, ?_⟩
    by_contra ha
    refine hset t th w hp (hready.of_imp fun b hb hsig => ?_)
    have hne : b ≠ a := by
      rintro rfl
      exact ha hb
    rwa [Function.update_of_ne hne] at hsig
  have hw' : WellFormed s' := wellFormed_of_thread hw fun t th h => ⟨th, hthread ▸ h, rfl⟩
  intro t th w hp hready
  obtain ⟨hin, hout⟩ := hpend.walk hw' a (s'.tids p) hfits t th w hp hready
  exact hout hin

theorem settled_write {s₀ : State} {w : Write} (hset : Settled s) (hw : WellFormed s)
    (hs : s.Agrees s₀) (hsees : Sees s (if w.walked then some sysProc else none) w.addr w.obj)
    (hfits : LogFits (s₀.write w)) : Settled (s₀.write w) := by
  have hobjs : (s₀.put w).objs = Function.update s.objs w.addr w.obj := by
    simp only [put, hs.objs]
  have hthread : (s₀.put w).thread = s.thread := hs.thread
  unfold State.write at *
  split
  · rename_i hwalked
    rw [if_pos hwalked] at hfits hsees
    exact settled_walk hset hw hsees hobjs hthread hs.tids hfits
  · rename_i hwalked
    rw [if_neg hwalked] at hsees
    intro t th w' hp hready
    rw [parked_congr hthread] at hp
    rw [hobjs] at hready
    obtain ⟨q, hq, -⟩ := hsees t th w' hp hready
    cases hq

theorem settled_beginWait {t : Tid} {w : Wait} (hset : Settled s) (hw : WellFormed s)
    (hfits : LogFits (s.beginWait t w)) : Settled (s.beginWait t w) := by
  unfold State.beginWait at *
  cases hth : s.thread t with
  | none =>
    rw [hth] at hfits
    exact hset
  | some th =>
    rw [hth] at hfits
    dsimp only at hfits ⊢
    have hpend : (s.setThread t { th with wait := some w }).Pending fun t' _ => t' = t := by
      intro t' th' w' hp hready
      by_contra hne
      rw [parked_setThread_of_ne hne] at hp
      exact hset t' th' w' hp hready
    intro t' th' w' hp hready
    obtain ⟨heq, hne⟩ := hpend.trySatisfy (wellFormed_setThread hw hth _) t hfits t' th' w' hp hready
    exact hne heq

theorem suffix_waits (s : State) (t : Tid) (w : Option Wait) : s.log <:+ (s.waits t w).log := by
  cases w with
  | none => exact List.suffix_refl _
  | some w =>
    show s.log <:+ (s.beginWait t w).log
    cases hth : s.thread t with
    | none =>
      have heq : s.beginWait t w = s := by
        unfold State.beginWait
        rw [hth]
      exact heq.symm ▸ List.suffix_refl _
    | some th => exact (stable_log s.log).beginWait hth (List.suffix_refl _)

theorem wellFormed_writes (h : WellFormed s) (w : Option Write) :
    WellFormed (s.writes w) := by
  cases w with
  | none => exact h
  | some w =>
    show WellFormed (s.write w)
    have hput : WellFormed (s.put w) := wellFormed_of_thread h fun t th hth => ⟨th, hth, rfl⟩
    unfold State.write
    split
    · exact stable_wellFormed.wakeWaiters hput _ _
    · exact hput

end State

/-! ## Runs -/

/-- A walk sees every parked thread whose condition the written object makes true; where a handler walks
nobody, as one does whose result cannot be written, there is none. -/
def WalkSees (s : State) : Action → Prop
  | .call t c => ∀ th w, s.thread t = some th → c.write s th.ethread = some w →
    Sees s (if w.walked then some sysProc else none) w.addr w.obj
  | .ready _ _ => True
  | .terminate p t => ∀ th, s.thread t = some th →
    Sees s (some p) th.ethread { s.objs th.ethread with state := 1 }

theorem step_wellFormed {s s' : State} {action : Action} (h : WellFormed s)
    (hstep : step s action = some s') : WellFormed s' := by
  refine closed_wellFormed.step h ?_ (fun _ _ _ _ _ => ?_) hstep
  · intro t c th w _ _ _
    exact wellFormed_of_thread h fun t' th' h' => ⟨th', (c.agrees_tables s).thread ▸ h', rfl⟩
  · exact wellFormed_of_thread h fun t' th' h' => ⟨th', h', rfl⟩

theorem step_settled {s s' : State} {action : Action} (hw : WellFormed s) (hok : WalkSees s action)
    (hstep : step s action = some s') (hset : Settled s) (hfits : LogFits s') : Settled s' := by
  cases action with
  | call t c =>
    simp only [step] at hstep
    split at hstep
    · rename_i th hth
      split at hstep
      · obtain rfl := Option.some.inj hstep
        have hs := c.agrees_tables s
        have hw₀ : WellFormed (c.tables s) := wellFormed_of_thread hw fun t th h =>
          ⟨th, hs.thread ▸ h, rfl⟩
        rw [c.run_eq s t th.ethread] at hfits ⊢
        have hfits' := logFits_of_suffix hfits (suffix_waits ..)
        have hset' : Settled ((c.tables s).writes (c.write s th.ethread)) := by
          cases hwrite : c.write s th.ethread with
          | none =>
            rw [Call.tables_of_none hwrite]
            exact hset
          | some w =>
            rw [hwrite] at hfits'
            exact settled_write hset hw hs (hok th w hth hwrite) hfits'
        cases hwait : c.wait s with
        | none => exact hset'
        | some w =>
          rw [hwait] at hfits
          exact settled_beginWait hset' (wellFormed_writes hw₀ _) hfits
      · cases hstep
    · cases hstep
  | ready t now =>
    obtain ⟨r, hready, rfl⟩ := Option.map_eq_some_iff.mp hstep
    obtain ⟨th, -, hth, -, hr, -⟩ := isReady_eq_some hready
    rw [hr]
    intro t' th' w' hp hrdy
    by_cases ht : t' = t
    · rw [ht, parked_setThread_none] at hp
      cases hp
    · rw [parked_setThread_of_ne ht] at hp
      exact hset t' th' w' hp hrdy
  | terminate p t =>
    simp only [step] at hstep
    split at hstep
    · rename_i th hth
      split at hstep
      · obtain rfl := Option.some.inj hstep
        intro t' th' w' hp hready
        have hset' : Settled ((s.setState th.ethread 1).wakeWaiters p th.ethread) :=
          settled_walk hset hw (hok th hth) rfl rfl rfl hfits
        obtain ⟨hth', hwait', hsat'⟩ := parked_eq_some.mp hp
        refine hset' t' th' w' (parked_eq_some.mpr ⟨?_, hwait', hsat'⟩) hready
        simp only [terminateThread] at hth'
        by_cases ht : t' = t
        · rw [ht, Function.update_self] at hth'
          cases hth'
        · rwa [Function.update_of_ne ht] at hth'
      · cases hstep
    · cases hstep

/-- **No lost wakeup.** In a run in which every walk sees whom the written object makes ready, and in which
no count is taken below the least value of 32 bits, no thread is ever left in a wait whose condition holds. -/
theorem settled_of_walkSees {s s' : State} {actions : List Action} (hw : WellFormed s) (hset : Settled s)
    (hrun : Run.Steps step WalkSees s actions s') (hfits : LogFits s') : Settled s' := by
  have hinv := hrun.invariant (P := fun s => WellFormed s ∧ (LogFits s → Settled s))
    (fun s₁ action s₂ h hok hstep => ⟨step_wellFormed h.1 hstep, fun hfits₂ =>
      step_settled h.1 hok hstep (h.2 (logFits_of_suffix hfits₂ (step_log hstep))) hfits₂⟩)
    ⟨hw, fun _ => hset⟩
  exact hinv.2 hfits

def eventWaiter : Thread where
  ethread := 0x8000
  wait := some { objects := [0x1000], all := false }

/-- Such a thread in the process `p`, and one of `sys_proc` that runs. -/
def waitingIn (p : Pid) : State where
  objs := fun a => { kind := if a = 0x1000 then .eventSynchronization else .thread, state := 0 }
  thread := fun t => if t = 8 then some eventWaiter else if t = 12 then some { ethread := 0xC000 } else none
  tids := fun q => (if q = p then [8] else []) ++ (if q = sysProc then [12] else [])

theorem waitingIn_thread {p : Pid} {t : Tid} {th : Thread} (h : (waitingIn p).thread t = some th) :
    t = 8 ∧ th = eventWaiter ∨ t = 12 ∧ th = { ethread := 0xC000 } := by
  simp only [waitingIn] at h
  split at h
  · exact .inl ⟨by assumption, (Option.some.inj h).symm⟩
  · split at h
    · exact .inr ⟨by assumption, (Option.some.inj h).symm⟩
    · cases h

theorem waitingIn_parked {p : Pid} {t : Tid} {th : Thread} {w : Wait}
    (h : (waitingIn p).parked t = some (th, w)) : t = 8 ∧ w = { objects := [0x1000], all := false } := by
  obtain ⟨hth, hw, -⟩ := parked_eq_some.mp h
  rcases waitingIn_thread hth with ⟨rfl, rfl⟩ | ⟨rfl, rfl⟩
  · exact ⟨rfl, (Option.some.inj hw).symm⟩
  · cases hw

theorem waitingIn_wellFormed (p : Pid) : WellFormed (waitingIn p) := by
  constructor
  · intro t th h
    rcases waitingIn_thread h with ⟨-, rfl⟩ | ⟨-, rfl⟩ <;> decide
  · intro t t' th th' h h' heq
    rcases waitingIn_thread h with ⟨rfl, rfl⟩ | ⟨rfl, rfl⟩ <;>
      rcases waitingIn_thread h' with ⟨rfl, rfl⟩ | ⟨rfl, rfl⟩
    · rfl
    · cases heq
    · cases heq
    · rfl

theorem waitingIn_settled (p : Pid) : Settled (waitingIn p) := by
  intro t th w h hready
  obtain ⟨-, rfl⟩ := waitingIn_parked h
  obtain ⟨a, ha, hsig⟩ : ∃ a ∈ [0x1000], isSignalled ((waitingIn p).objs a) th.ethread = true := hready
  rw [List.mem_singleton.mp ha, not_isSignalled (le_refl (0 : Int)) (fun h => by cases h)] at hsig
  cases hsig

/-- A waiter in the process that is walked is not lost. -/
theorem settled_of_walkSees_waiter :
    ∃ s', Run.Steps step WalkSees (waitingIn sysProc) [.call 12 (.keSetEvent 0x1000)] s' ∧
      s'.parked 8 = none ∧ Settled s' := by
  have hrun : Run.Steps step WalkSees (waitingIn sysProc) [.call 12 (.keSetEvent 0x1000)]
      ((Call.keSetEvent 0x1000).run (waitingIn sysProc) 12 0xC000).1 := by
    refine .cons ?_ rfl (.nil _)
    intro th w hth hw t th' w' hp hready
    obtain ⟨rfl, -⟩ := waitingIn_parked hp
    obtain rfl := Option.some.inj hw
    exact ⟨sysProc, rfl, by decide⟩
  refine ⟨_, hrun, by decide +kernel, settled_of_walkSees (waitingIn_wellFormed sysProc)
    (waitingIn_settled sysProc) hrun ?_⟩
  intro self l before he
  obtain ⟨rfl, rfl⟩ : l = [0x1000] ∧ before = ((waitingIn sysProc).setState 0x1000 1).objs := by
    cases List.mem_singleton.mp he
    exact ⟨rfl, rfl⟩
  intro a ha
  rw [List.mem_singleton.mp ha]
  decide

/-- A waiter of another process stays parked on an event that is set. -/
theorem settled_loses_foreign : WellFormed (waitingIn 1) ∧ Settled (waitingIn 1) ∧
    ∃ s', step (waitingIn 1) (.call 12 (.keSetEvent 0x1000)) = some s' ∧ ¬ Settled s' := by
  refine ⟨waitingIn_wellFormed 1, waitingIn_settled 1, _, rfl, fun hset => ?_⟩
  refine hset 8 eventWaiter { objects := [0x1000], all := false } (by decide +kernel) ?_
  exact ⟨0x1000, List.mem_singleton_self _, by decide +kernel⟩

end Kernemul.Sync
