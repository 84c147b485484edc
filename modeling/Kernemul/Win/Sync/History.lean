import Kernemul.Win.Sync.Wakeup

/-!
# What the log says

The log tells what an object has been created or initialised as, which the object manager knows as well of
the objects it has made.
-/

namespace Kernemul.Sync

open State

def created (a : Addr) : List Event → Option Object
  | [] => none
  | .init _ b o :: log => if b = a then some o else created a log
  | .satisfied .. :: log => created a log
  | .released .. :: log => created a log

def IsKind (kind : Kind) (log : List Event) (a : Addr) : Prop := ∃ o, created a log = some o ∧ o.kind = kind

variable {self a : Addr}

theorem isKind_init {kind : Kind} {o : Object} {log : List Event}
    (h : IsKind kind (.init self a o :: log) a) : o.kind = kind := by
  obtain ⟨o', ho, hkind⟩ := h
  simp only [created, if_true] at ho
  rw [Option.some.inj ho]
  exact hkind

instance (kind : Kind) (log : List Event) (a : Addr) : Decidable (IsKind kind log a) :=
  match h : created a log with
  | none => isFalse fun ⟨o, ho, _⟩ => by rw [h] at ho; cases ho
  | some o =>
    if hk : o.kind = kind then isTrue ⟨o, h, hk⟩
    else isFalse fun ⟨o', ho', hk'⟩ => hk (by rw [h] at ho'; cases ho'; exact hk')

/-! ## What handlers log -/

variable {s : State} {w : Write}

theorem Call.write_event {c : Call} (h : c.write s self = some w) :
    w.event = none ∨ w.event = some (.init self w.addr w.obj) ∨
      ∃ n, w.event = some (.released self w.addr n) := by
  cases c <;> simp only [Call.write, Option.map_eq_some_iff, Option.bind_eq_some_iff] at h
  case ntCreateEvent | ntCreateMutant =>
    cases h
    exact .inr (.inl rfl)
  case ntSetEvent | ntResetEvent =>
    obtain ⟨a, -, rfl⟩ := h
    exact .inl rfl
  case ntReleaseMutant | ntReleaseSemaphore =>
    obtain ⟨a, -, h⟩ := h
    split at h
    · cases h
    · cases h
      exact .inr (.inr ⟨_, rfl⟩)
  case ntSignalAndWaitForSingleObject =>
    split at h
    · cases h
      exact .inr (.inr ⟨_, rfl⟩)
    · cases h
  all_goals
    first
    | cases h
    | split at h
      · cases h
      · cases h
        first
        | exact .inl rfl
        | exact .inr (.inl rfl)
        | exact .inr (.inr ⟨_, rfl⟩)

def Typed (s : State) : Prop := ∀ a kind, s.host a = some kind → (s.objs a).kind = kind

/-- Memory that is initialised is not an object of the object manager. -/
def Call.Own (s : State) : Call → Prop
  | .keInitializeEvent a _ _ | .keInitializeMutex a | .keInitializeMutant a _
  | .keInitializeSemaphore a _ _ => s.host a = none
  | _ => True

theorem Typed.of_kind {s' : State} (h : Typed s) (hhost : s'.host = s.host) {o : Object}
    (hobjs : s'.objs = Function.update s.objs a o) (hkind : o.kind = (s.objs a).kind) : Typed s' := by
  intro b kind hb
  rw [hhost] at hb
  rw [hobjs]
  by_cases hba : b = a
  · subst hba
    rw [Function.update_self, hkind]
    exact h b kind hb
  · rw [Function.update_of_ne hba]
    exact h b kind hb

theorem Typed.of_own {s' : State} (h : Typed s) (hhost : s'.host = s.host) {o : Object}
    (hobjs : s'.objs = Function.update s.objs a o) (hown : s.host a = none) : Typed s' := by
  intro b kind hb
  rw [hhost] at hb
  rw [hobjs]
  by_cases hba : b = a
  · subst hba
    rw [hown] at hb
    cases hb
  · rw [Function.update_of_ne hba]
    exact h b kind hb

theorem Typed.created (h : Typed s) {kind : Kind} (hkind : w.obj.kind = kind) :
    Typed ((s.created w.addr kind).put w) := by
  intro b kind' hb
  simp only [State.created, State.put] at hb ⊢
  by_cases hba : b = w.addr
  · rw [hba, Function.update_self] at hb ⊢
    exact hkind.trans (Option.some.inj hb)
  · rw [Function.update_of_ne hba] at hb ⊢
    exact h b kind' hb

theorem signalled_kind (o : Object) : (signalled o).kind = o.kind := by
  unfold signalled
  split <;> rfl

theorem Typed.put (h : Typed s) {c : Call} (hown : c.Own s)
    (hw : c.write s self = some w) : Typed ((c.tables s).put w) := by
  cases c with
  | ntCreateEvent a type initialState =>
    cases hw
    exact h.created rfl
  | ntCreateMutant a initialOwner =>
    cases hw
    exact h.created rfl
  | ntCreateSemaphore a initialCount maximumCount =>
    simp only [Call.write] at hw
    split at hw
    · cases hw
    · rename_i hok
      cases hw
      simp only [Call.tables, if_neg hok]
      exact h.created rfl
  | keInitializeEvent a _ _ | keInitializeMutex a | keInitializeMutant a _
  | keInitializeSemaphore a _ _ =>
    simp only [Call.write] at hw
    split at hw
    · cases hw
    · cases hw
      exact h.of_own rfl rfl hown
  | keSetEvent a | keResetEvent a | keReleaseMutex a | keReleaseSemaphore a _ =>
    simp only [Call.write] at hw
    split at hw
    · cases hw
    · cases hw
      exact h.of_kind rfl rfl rfl
  | ntSetEvent hd _ | ntResetEvent hd _ =>
    obtain ⟨a, -, rfl⟩ := Option.map_eq_some_iff.mp hw
    exact h.of_kind rfl rfl rfl
  | ntReleaseMutant hd _ | ntReleaseSemaphore hd _ _ =>
    obtain ⟨a, -, hw⟩ := Option.bind_eq_some_iff.mp hw
    split at hw
    · cases hw
    · cases hw
      exact h.of_kind rfl rfl rfl
  | ntSignalAndWaitForSingleObject sh wh _ _ =>
    simp only [Call.write] at hw
    split at hw
    · cases hw
      exact h.of_kind rfl rfl (signalled_kind _)
    · cases hw
  | _ => cases hw

theorem closed_typed : Closed Typed where
  satisfy s t th w l h _ _ a kind ha := by
    rw [satisfy_objs, takeAll_kind]
    exact h a kind ha
  setThread _ _ _ _ _ h := h
  remove _ _ _ h := h

theorem resolve_eq_some {handle : Nat} {expected : Kind} (h : s.resolve handle expected = some a) :
    s.handles handle = some a ∧ ∃ kind, s.host a = some kind ∧
      (kind = expected ∨ (expected.isEvent ∧ kind.isEvent)) := by
  unfold resolve at h
  split at h
  · rename_i b hb
    split at h
    · rename_i kind hkind
      split at h
      · rename_i hc
        cases h
        exact ⟨hb, kind, hkind, hc⟩
      · cases h
    · cases h
  · cases h

/-- A handle that is resolved to an object other than an event was asked for as what the object is. -/
theorem expected_of_resolve (h : Typed s) {handle : Nat} {expected kind : Kind}
    (hres : s.resolve handle expected = some a) (hk : (s.objs a).kind = kind) (hev : kind.isEvent = false) :
    expected = kind := by
  obtain ⟨-, k, hhost, hexp⟩ := resolve_eq_some hres
  obtain rfl : k = kind := (h a k hhost).symm.trans hk
  rcases hexp with heq | ⟨-, htrue⟩
  · exact heq.symm
  · rw [hev] at htrue
    cases htrue

def Call.initKind : Call → Option Kind
  | .keInitializeEvent _ type _ | .ntCreateEvent _ type _ =>
    some (if type = 0 then .eventNotification else .eventSynchronization)
  | .keInitializeMutex _ | .keInitializeMutant _ _ | .ntCreateMutant _ _ => some .mutant
  | .keInitializeSemaphore _ _ _ | .ntCreateSemaphore _ _ _ => some .semaphore
  | _ => none

theorem Call.isKind_initKind {c : Call} (hw : c.write s self = some w)
    {k kind : Kind} (hinit : c.initKind = some k) {log : List Event}
    (hkind : IsKind kind (w.event.toList ++ log) w.addr) : k = kind := by
  suffices hevent : ∃ o, w.event = some (.init self w.addr o) ∧ o.kind = k by
    obtain ⟨o, hevent, rfl⟩ := hevent
    rw [hevent] at hkind
    exact isKind_init hkind
  cases c with
  | ntCreateEvent a _ _ | ntCreateMutant a _ =>
    cases hinit
    cases hw
    exact ⟨_, rfl, rfl⟩
  | keInitializeEvent a _ _ | keInitializeMutex a | keInitializeMutant a _ | keInitializeSemaphore a _ _
  | ntCreateSemaphore a _ _ =>
    cases hinit
    simp only [Call.write] at hw
    split at hw
    · cases hw
    · cases hw
      exact ⟨_, rfl, rfl⟩
  | _ => cases hinit

theorem created_put_of_ne {c : Call} (h : c.write s self = some w)
    (ha : a ≠ w.addr) : created a (w.event.toList ++ s.log) = created a s.log := by
  rcases c.write_event h with he | he | ⟨n, he⟩ <;> rw [he]
  · rfl
  · show (if w.addr = a then _ else _) = _
    rw [if_neg (Ne.symm ha)]
    rfl
  · rfl

/-! ## Following objects of a kind -/

/-- The header of every object of a kind stands in a relation with the log, as long as the log is good. -/
structure Tracked (kind : Kind) (Good : List Event → Prop) (R : Addr → List Event → Object → Prop)
    (s : State) : Prop where
  wellFormed : WellFormed s
  typed : Typed s
  ok : Good s.log → ∀ a, IsKind kind s.log a → R a s.log (s.objs a)

structure Follows (kind : Kind) (Good : List Event → Prop) (R : Addr → List Event → Object → Prop) :
    Prop where
  suffix : ∀ {log log'}, Good log' → log <:+ log' → Good log
  /-- Events of other objects do not matter. -/
  other : ∀ {s : State} {self : Addr} {c : Call} {w : Write} {a : Addr} {o : Object},
    c.write s self = some w → a ≠ w.addr → R a s.log o → R a (w.event.toList ++ s.log) o
  satisfied : ∀ {s : State} {th : Thread} {w : Wait} {l : List Addr × Nat} {a : Addr},
    th.ethread ≠ 0 → w.taken s.objs th.ethread = some l →
    Good (.satisfied th.ethread l.1 s.objs :: s.log) → R a s.log (s.objs a) →
    R a (.satisfied th.ethread l.1 s.objs :: s.log) (takeAll th.ethread l.1 s.objs a)

section
variable {kind : Kind} {Good : List Event → Prop} {R : Addr → List Event → Object → Prop}
  (h : Follows kind Good R)
include h

theorem Follows.closed : Closed (Tracked kind Good R) where
  satisfy s t th w l hs hp hl := by
    refine ⟨closed_wellFormed.satisfy s t th w l hs.wellFormed hp hl,
      closed_typed.satisfy s t th w l hs.typed hp hl, fun hgood a ha => ?_⟩
    have hself := hs.wellFormed.ethread_ne t th (parked_eq_some.mp hp).1
    exact h.satisfied hself hl hgood (hs.ok (h.suffix hgood (List.suffix_cons ..)) a ha)
  setThread s t th w hth hs := ⟨closed_wellFormed.setThread s t th w hth hs.wellFormed, hs.typed, hs.ok⟩
  remove s t tids hs := ⟨closed_wellFormed.remove s t tids hs.wellFormed, hs.typed, hs.ok⟩

theorem Follows.step {s s' : State} {action : Action} (hs : Tracked kind Good R s)
    (hwrite : ∀ t c th w, action = .call t c → s.thread t = some th → c.write s th.ethread = some w →
      c.Own s ∧ (Good s.log → IsKind kind (w.event.toList ++ s.log) w.addr →
        R w.addr (w.event.toList ++ s.log) w.obj))
    (hend : ∀ p t th, action = .terminate p t → s.thread t = some th → ¬ IsKind kind s.log th.ethread)
    (hstep : step s action = some s') : Tracked kind Good R s' := by
  refine h.closed.step hs ?_ ?_ hstep
  · intro t c th w haction hth hw
    obtain ⟨hown, hR⟩ := hwrite t c th w haction hth hw
    have hlog : ((c.tables s).put w).log = w.event.toList ++ s.log := by
      simp only [put, log_tables]
    refine ⟨?_, hs.typed.put hown hw, fun hgood a ha => ?_⟩
    · exact wellFormed_of_thread hs.wellFormed fun t' th' h' =>
        ⟨th', (c.agrees_tables s).thread ▸ h', rfl⟩
    · have hgood' : Good s.log := h.suffix hgood (hlog ▸ List.suffix_append ..)
      rw [hlog] at ha ⊢
      have hobjs : ((c.tables s).put w).objs = Function.update s.objs w.addr w.obj := by
        simp only [put, (c.agrees_tables s).objs]
      rw [hobjs]
      by_cases haddr : a = w.addr
      · rw [haddr] at ha ⊢
        rw [Function.update_self]
        exact hR hgood' ha
      · have ha' : IsKind kind s.log a := by
          unfold IsKind at ha ⊢
          rwa [created_put_of_ne hw haddr] at ha
        rw [Function.update_of_ne haddr]
        exact h.other hw haddr (hs.ok hgood' a ha')
  · intro p t th haction hth
    refine ⟨wellFormed_of_thread hs.wellFormed fun t' th' h' => ⟨th', h', rfl⟩,
      hs.typed.of_kind rfl rfl rfl, fun hgood a ha => ?_⟩
    have hne : a ≠ th.ethread := by
      rintro rfl
      exact hend p t th haction hth ha
    show R a s.log (Function.update s.objs th.ethread _ a)
    rw [Function.update_of_ne hne]
    exact hs.ok hgood a ha

end

/-! ## Starting -/

structure Fresh (s : State) : Prop where
  wellFormed : WellFormed s
  host : ∀ a, s.host a = none
  log : s.log = []

theorem Fresh.tracked (h : Fresh s) (kind : Kind) (Good : List Event → Prop)
    (R : Addr → List Event → Object → Prop) : Tracked kind Good R s := by
  refine ⟨h.wellFormed, ?_, fun _ a ha => ?_⟩
  · intro a kind hk
    rw [h.host a] at hk
    cases hk
  · obtain ⟨o, ho, -⟩ := ha
    rw [h.log] at ho
    cases ho

/-- Two threads of `sys_proc`. -/
def twoThreads : State where
  objs := fun _ => { kind := .eventNotification, state := 0 }
  thread := fun t =>
    if t = 8 then some { ethread := 0x8000 } else if t = 12 then some { ethread := 0xC000 } else none
  tids := fun p => if p = sysProc then [8, 12] else []

theorem twoThreads_fresh : Fresh twoThreads where
  wellFormed := wellFormed_of_thread (waitingIn_wellFormed 1) fun t th h => by
    simp only [twoThreads, waitingIn] at h ⊢
    split at h
    · rename_i ht
      rw [if_pos ht, ← Option.some.inj h]
      exact ⟨eventWaiter, rfl, rfl⟩
    · rename_i ht
      rw [if_neg ht]
      exact ⟨th, h, rfl⟩
  host _ := rfl
  log := rfl

end Kernemul.Sync
