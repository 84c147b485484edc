import Kernemul.Win.Sync.Wakeup

/-!
# Waking one thread

Where an object is waited for by itself, and is not signalled any more once it has been taken, a walk
satisfies the first thread that waits for it and leaves the others alone.
-/

namespace Kernemul.Sync.State

def parkedOn (s : State) (a : Addr) (t : Tid) : Bool :=
  match s.parked t with
  | some (_, w) => decide (a ∈ w.objects)
  | none => false

variable {s : State} {a : Addr} {t : Tid}

theorem parkedOn_eq_true :
    s.parkedOn a t = true ↔ ∃ th w, s.parked t = some (th, w) ∧ a ∈ w.objects := by
  unfold parkedOn
  constructor
  · intro h
    split at h
    · rename_i th w hp
      exact ⟨th, w, hp, of_decide_eq_true h⟩
    · cases h
  · rintro ⟨th, w, hp, ha⟩
    rw [hp]
    exact decide_eq_true ha

theorem wakeOne_of_not_parkedOn (h : s.parkedOn a t = false) :
    s.wakeOne a t = s := by
  unfold wakeOne
  split
  · rename_i hwait
    have hnone : s.trySatisfy t = none := by
      cases htry : s.trySatisfy t with
      | none => rfl
      | some s' =>
        obtain ⟨th, w, l, hp, -, -⟩ := trySatisfy_eq_some.mp htry
        obtain ⟨hth, hw, -⟩ := parked_eq_some.mp hp
        have ha : a ∈ w.objects := by
          unfold waitingOn at hwait
          rw [hth] at hwait
          simpa [hw] using hwait
        rw [parkedOn_eq_true.mpr ⟨th, w, hp, ha⟩] at h
        cases h
    rw [hnone]
    rfl
  · rfl

def Single (s : State) (a : Addr) : Prop :=
  ∀ t th w, s.parked t = some (th, w) → a ∈ w.objects → w.objects = [a] ∧ w.all = false

theorem Wait.taken_single {w : Wait} {objs : Objects} {self : Addr} (ho : w.objects = [a]) (hall : w.all = false) :
    w.taken objs self = if isSignalled (objs a) self then some ([a], 0) else none := by
  unfold Wait.taken
  rw [hall, ho]
  by_cases hs : isSignalled (objs a) self = true <;> simp [List.findIdx?_cons, hs]

theorem Single.satisfy (h : s.Single a) (t : Tid) (th : Thread) (w : Wait)
    (l : List Addr) (status : Nat) : (s.satisfy t th w l status).Single a := by
  intro t' th' w' hp
  rw [parked_satisfy] at hp
  split at hp
  · cases hp
  · exact h t' th' w' hp

theorem walk_of_not_signalled (hsingle : s.Single a)
    (hnot : ∀ self, isSignalled (s.objs a) self = false) (ts : List Tid) :
    ts.foldl (wakeOne a) s = s := by
  induction ts with
  | nil => rfl
  | cons t ts ih =>
    have hone : s.wakeOne a t = s := by
      cases hp : s.parkedOn a t with
      | false => exact wakeOne_of_not_parkedOn hp
      | true =>
        obtain ⟨th, w, hpark, ha⟩ := parkedOn_eq_true.mp hp
        obtain ⟨ho, hall⟩ := hsingle t th w hpark ha
        have htry : s.trySatisfy t = none := by
          unfold trySatisfy
          rw [hpark]
          dsimp only
          rw [Wait.taken_single ho hall, hnot]
          rfl
        unfold wakeOne
        rw [htry]
        split <;> rfl
    rw [List.foldl_cons, hone, ih]

theorem walk_of_none {ts : List Tid} (h : ∀ t ∈ ts, s.parkedOn a t = false) :
    ts.foldl (wakeOne a) s = s := by
  induction ts with
  | nil => rfl
  | cons t ts ih =>
    rw [List.foldl_cons, wakeOne_of_not_parkedOn (h t (List.mem_cons_self ..))]
    exact ih fun t' ht' => h t' (List.mem_cons_of_mem _ ht')

theorem walk_first (hsingle : s.Single a) (hsig : ∀ self, isSignalled (s.objs a) self = true)
    (hone : ∀ self self', isSignalled (take (s.objs a) self) self' = false) {ts : List Tid}
    (hfind : ts.find? (s.parkedOn a) = some t) :
    ∃ th w, s.parked t = some (th, w) ∧ w.objects = [a] ∧
      ts.foldl (wakeOne a) s = s.satisfy t th w [a] 0 := by
  induction ts with
  | nil => cases hfind
  | cons t₀ ts ih =>
    rw [List.foldl_cons]
    cases hp : s.parkedOn a t₀ with
    | false =>
      rw [List.find?_cons, hp] at hfind
      rw [wakeOne_of_not_parkedOn hp]
      exact ih hfind
    | true =>
      rw [List.find?_cons, hp] at hfind
      obtain rfl := Option.some.inj hfind
      obtain ⟨th, w, hpark, ha⟩ := parkedOn_eq_true.mp hp
      obtain ⟨ho, hall⟩ := hsingle t₀ th w hpark ha
      obtain ⟨hth, hw, -⟩ := parked_eq_some.mp hpark
      have hwake : s.wakeOne a t₀ = s.satisfy t₀ th w [a] 0 := by
        have hwait : s.waitingOn t₀ a = true := by
          unfold waitingOn
          rw [hth]
          simp [hw, ha]
        unfold wakeOne
        rw [if_pos hwait]
        unfold trySatisfy
        rw [hpark]
        dsimp only
        rw [Wait.taken_single ho hall, hsig]
        rfl
      refine ⟨th, w, hpark, ho, ?_⟩
      rw [hwake]
      apply walk_of_not_signalled (hsingle.satisfy t₀ th w [a] 0)
      intro self
      rw [satisfy_objs, takeAll_cons, takeAll_nil, Function.update_self]
      exact hone _ _

theorem beginWait_of_not_signalled {th : Thread} {w : Wait}
    (hth : s.thread t = some th) (ho : w.objects = [a]) (hall : w.all = false)
    (hnot : isSignalled (s.objs a) th.ethread = false) :
    s.beginWait t w = s.setThread t { th with wait := some w } := by
  have hnone : (s.setThread t { th with wait := some w }).trySatisfy t = none := by
    cases htry : (s.setThread t { th with wait := some w }).trySatisfy t with
    | none => rfl
    | some s' =>
      obtain ⟨th', w', l, hp, hl, -⟩ := trySatisfy_eq_some.mp htry
      obtain ⟨hth', hw', -⟩ := parked_eq_some.mp hp
      have hth'' : th' = { th with wait := some w } := by
        have heq : (s.setThread t { th with wait := some w }).thread t = some { th with wait := some w } :=
          Function.update_self ..
        exact (Option.some.inj (heq.symm.trans hth')).symm
      subst hth''
      obtain rfl := Option.some.inj hw'
      rw [Wait.taken_single ho hall] at hl
      rw [if_neg (by rw [show (s.setThread t { th with wait := some w }).objs = s.objs from rfl, hnot]; simp)]
        at hl
      cases hl
  unfold beginWait
  rw [hth]
  dsimp only
  rw [hnone]
  rfl

theorem beginWait_of_signalled {th : Thread} {w : Wait}
    (hth : s.thread t = some th) (ho : w.objects = [a]) (hall : w.all = false) (hsat : w.satisfied = false)
    (hsig : isSignalled (s.objs a) th.ethread = true) :
    s.beginWait t w = (s.setThread t { th with wait := some w }).satisfy t { th with wait := some w } w
      [a] 0 := by
  have hp : (s.setThread t { th with wait := some w }).parked t = some ({ th with wait := some w }, w) :=
    parked_eq_some.mpr ⟨Function.update_self .., rfl, hsat⟩
  have htry : (s.setThread t { th with wait := some w }).trySatisfy t =
      some ((s.setThread t { th with wait := some w }).satisfy t { th with wait := some w } w [a] 0) := by
    refine trySatisfy_eq_some.mpr ⟨_, w, ([a], 0), hp, ?_, rfl⟩
    rw [Wait.taken_single ho hall]
    exact if_pos hsig
  unfold beginWait
  rw [hth]
  dsimp only
  rw [htry]
  rfl

theorem setThread_thread_of_ne {t' : Tid} (h : t' ≠ t) (th : Thread) :
    (s.setThread t th).thread t' = s.thread t' := Function.update_of_ne h ..

theorem parkedOn_setThread_of_ne {t' : Tid} (h : t' ≠ t) (a : Addr) (th : Thread) :
    (s.setThread t th).parkedOn a t' = s.parkedOn a t' := by
  unfold parkedOn
  rw [parked_setThread_of_ne h]

theorem parkedOn_setThread_wait {th : Thread} {w : Wait} (ha : a ∈ w.objects) (hsat : w.satisfied = false) :
    (s.setThread t { th with wait := some w }).parkedOn a t = true :=
  parkedOn_eq_true.mpr ⟨{ th with wait := some w }, w,
    parked_eq_some.mpr ⟨Function.update_self .., rfl, hsat⟩, ha⟩

theorem parkedOn_of_no_wait {th : Thread} (hth : s.thread t = some th)
    (hw : th.wait = none) (a : Addr) : s.parkedOn a t = false := by
  unfold parkedOn parked
  rw [hth]
  dsimp only
  rw [hw]

theorem parkedOn_satisfy (s : State) (a : Addr) (t : Tid) (th : Thread) (w : Wait) (l : List Addr)
    (status : Nat) (t' : Tid) :
    (s.satisfy t th w l status).parkedOn a t' = if t' = t then false else s.parkedOn a t' := by
  unfold parkedOn
  rw [parked_satisfy]
  by_cases h : t' = t
  · rw [if_pos h, if_pos h]
  · rw [if_neg h, if_neg h]

end Kernemul.Sync.State
