import Kernemul.Win.Handles

/-!
# Object callbacks

A driver can have a callback run before a handle to a thread is created or duplicated, and take rights away
(`ob_pre_handle`). What a callback does to the kernel, and to the access in the block it is shown, is a parameter.
`NtOpenProcess` has no handler of its own: it comes to `ObOpenObjectByPointer`. The callbacks that run after the
handle is there are not modelled, and a created thread's object is given.
-/

namespace Kernemul.ObCallbacks

open Handles (HandleEntry)

abbrev Addr := Nat
abbrev Access := BitVec 32

def Within (left asked : Access) : Prop := left &&& ~~~asked = 0

instance (left asked : Access) : Decidable (Within left asked) := inferInstanceAs (Decidable (_ = _))

structure Registration where
  pre : Addr
  context : Addr
  objectType : Addr
  operations : BitVec 32
  deriving DecidableEq, Repr

/-- `ob_pre_operation_information_t`. -/
structure PreOperationInformation where
  flags : BitVec 32
  object : Addr
  objectType : Addr
  parameters : Addr

/-- `ob_pre_handle_parameters_t`. -/
structure PreHandleParameters where
  desiredAccess : Access
  originalDesiredAccess : Access
  sourceProcess : Addr
  targetProcess : Addr
  deriving DecidableEq, Repr

inductive HostKind
  | thread
  | other
  deriving DecidableEq, Repr

structure State (G : Type) where
  objs : Handles.State HostKind
  obRegistrations : List Registration
  /-- What `PsThreadType` points to, or zero. -/
  psThreadType : Addr
  /-- The `ETHREAD` of each thread, or zero. -/
  threads : Nat → Addr
  guest : G

/-- What the guest does: whether its heap has room for both blocks, and where; and what a callback leaves. -/
structure Guest (G : Type) where
  allocate : State G → Option (Addr × Addr × State G)
  callGuestKernel : State G → Registration → PreOperationInformation → PreHandleParameters → State G × Access

inductive Status
  | success
  | invalidParameter
  | invalidCid
  | invalidHandle
  | insufficientResources
  | accessDenied
  deriving DecidableEq, Repr

def obOperationHandleCreate : BitVec 32 := 1
def obOperationHandleDuplicate : BitVec 32 := 2

variable {G : Type}

/-- What comes out of `ob_pre_handle`; and what each callback was shown and what it left. -/
structure Filtering (G : Type) where
  state : State G
  access : Access
  calls : List (PreHandleParameters × Access) := []

/-- A call of `ob_pre_handle`, and the kernel it is made in. -/
structure Invocation (G : Type) where
  state : State G
  object : Addr
  objectType : Addr
  operation : BitVec 32
  desiredAccess : Access

namespace Invocation
variable (g : Guest G) (i : Invocation G)

def shown (access : Access) : PreHandleParameters := ⟨access, i.desiredAccess, 0, 0⟩

def header (params : Addr) : PreOperationInformation := ⟨i.operation <<< 1, i.object, i.objectType, params⟩

def runAll (params : Addr) : List Registration → Access → State G → Filtering G
  | [], access, s => ⟨s, access, []⟩
  | r :: rs, access, s =>
    let (s', updated) := g.callGuestKernel s r (i.header params) (i.shown access)
    if updated = 0 then ⟨s', 0, [(i.shown access, 0)]⟩
    else
      let rest := runAll params rs updated s'
      { rest with calls := (i.shown access, updated) :: rest.calls }

def found : List Registration :=
  i.state.obRegistrations.filter fun r =>
    r.pre ≠ 0 ∧ r.operations &&& i.operation ≠ 0 ∧ r.objectType = i.objectType

def obPreHandle : Filtering G :=
  if i.found = [] then ⟨i.state, i.desiredAccess, []⟩
  else match g.allocate i.state with
    | none => ⟨i.state, i.desiredAccess, []⟩
    | some (params, _, s) => i.runAll g params i.found i.desiredAccess s

/-- The callback that runs last leaves no right that was not asked for. -/
def lastWithin (params : Addr) : List Registration → Access → State G → Prop
  | [], _, _ => True
  | r :: rs, access, s =>
    let (s', updated) := g.callGuestKernel s r (i.header params) (i.shown access)
    if updated = 0 then True
    else if rs = [] then Within updated i.desiredAccess
    else lastWithin params rs updated s'

def LastWithin : Prop := ∀ params info s, g.allocate i.state = some (params, info, s) →
  i.lastWithin g params i.found i.desiredAccess s

/-- No right is granted but those asked for; each callback is shown what the one before it left, and the access the
caller asked for; and nothing is granted just when no right that was asked for is left. -/
structure OnlyNarrows : Prop where
  granted : Within (i.obPreHandle g).access i.desiredAccess
  chain : (i.obPreHandle g).calls.map (·.1.desiredAccess) ++ [(i.obPreHandle g).access] =
    i.desiredAccess :: (i.obPreHandle g).calls.map (·.2)
  original : ∀ c ∈ (i.obPreHandle g).calls, c.1.originalDesiredAccess = i.desiredAccess
  denied : (i.obPreHandle g).access = 0 ↔
    (((i.obPreHandle g).calls.getLast?.map (·.2)).getD i.desiredAccess) &&& i.desiredAccess = 0

end Invocation

/-! ## The ways to a handle -/

/-- The status of an open, the entry that `create_handle` is given, and what is left. -/
structure Outcome (G : Type) where
  status : Status
  created : Option HandleEntry
  state : State G

def State.createHandle (s : State G) (object : Addr) (access : Access) : Outcome G :=
  ⟨.success, some ⟨object, access⟩, { s with objs := (Handles.createHandle s.objs 0 object access).2 }⟩

def State.referenceObject (s : State G) (object : Addr) : State G :=
  { s with objs := Handles.referenceObject s.objs object }

/-- `objs.get_object<thread_object>(addr)`. -/
def State.isThread (s : State G) (object : Addr) : Bool :=
  (s.objs.objects object).any fun o => o.host = some .thread

inductive Open
  | ntCreateThreadEx (thread : Addr) (desiredAccess : Access)
  | ntOpenThread (threadHandle : Addr) (clientId : Option Nat) (desiredAccess : Access)
  | obOpenObjectByPointer (object : Addr) (desiredAccess : Access) (handle : Addr)
  | ntDuplicateObject (sourceProcess sourceHandle targetProcess : BitVec 64) (desiredAccess : Access)
      (options : BitVec 32)

def currentProcessHandle : BitVec 64 := -1

def duplicateCloseSource : BitVec 32 := 1
def duplicateSameAccess : BitVec 32 := 2

namespace Open
variable (g : Guest G) (s : State G)

/-- The rights a caller asks for; a duplicate may ask for those of its source. -/
def asked : Open → Access
  | ntCreateThreadEx _ desiredAccess => desiredAccess
  | ntOpenThread _ _ desiredAccess => desiredAccess
  | obOpenObjectByPointer _ desiredAccess _ => desiredAccess
  | ntDuplicateObject _ sourceHandle _ desiredAccess options =>
    if options &&& duplicateSameAccess ≠ 0 then ((Handles.lookupHandle s.objs 0 sourceHandle).map (·.access)).getD 0
    else desiredAccess

/-- The call of `ob_pre_handle` that is made, if one is. -/
def invocation : Open → Option (Invocation G)
  | ntCreateThreadEx thread desiredAccess =>
    if thread = 0 then none else some ⟨s, thread, s.psThreadType, obOperationHandleCreate, desiredAccess⟩
  | ntOpenThread threadHandle clientId desiredAccess =>
    if threadHandle = 0 then none
    else clientId.bind fun tid =>
      let ethread := s.threads tid
      if ethread = 0 then none
      else some ⟨s.referenceObject ethread, ethread, s.psThreadType, obOperationHandleCreate, desiredAccess⟩
  | obOpenObjectByPointer object desiredAccess handle =>
    if handle ≠ 0 ∧ s.isThread object ∧ s.psThreadType ≠ 0 then
      some ⟨s, object, s.psThreadType, obOperationHandleCreate, desiredAccess⟩
    else none
  | ntDuplicateObject sourceProcess sourceHandle targetProcess desiredAccess options =>
    if sourceProcess ≠ currentProcessHandle ∨ targetProcess ≠ currentProcessHandle then none
    else (Handles.lookupHandle s.objs 0 sourceHandle).bind fun entry =>
      if s.isThread entry.bodyAddr ∧ s.psThreadType ≠ 0 then
        some ⟨s, entry.bodyAddr, s.psThreadType, obOperationHandleDuplicate,
          if options &&& duplicateSameAccess ≠ 0 then entry.access else desiredAccess⟩
      else none

end Open

def Invocation.guard (g : Guest G) (i : Invocation G) (create : State G → Access → Outcome G) : Outcome G :=
  let f := i.obPreHandle g
  if f.access = 0 then ⟨.accessDenied, none, f.state⟩ else create f.state f.access

/-- `NtCreateThreadEx`, once it has tried to make the thread. -/
def ntCreateThreadEx (g : Guest G) (s : State G) (thread : Addr) (desiredAccess : Access) : Outcome G :=
  if thread = 0 then ⟨.insufficientResources, none, s⟩
  else Invocation.guard g ⟨s, thread, s.psThreadType, obOperationHandleCreate, desiredAccess⟩ fun s access =>
    s.createHandle thread access

def ntOpenThread (g : Guest G) (s : State G) (threadHandle : Addr) (clientId : Option Nat) (desiredAccess : Access) :
    Outcome G :=
  if threadHandle = 0 then ⟨.invalidParameter, none, s⟩
  else match clientId with
    | none => ⟨.invalidParameter, none, s⟩
    | some tid =>
      let ethread := s.threads tid
      if ethread = 0 then ⟨.invalidCid, none, s⟩
      else Invocation.guard g
        ⟨s.referenceObject ethread, ethread, s.psThreadType, obOperationHandleCreate, desiredAccess⟩ fun s access =>
          s.createHandle ethread access

def obOpenObjectByPointer (g : Guest G) (s : State G) (object : Addr) (desiredAccess : Access) (handle : Addr) :
    Outcome G :=
  if handle = 0 then ⟨.invalidParameter, none, s⟩
  else
    let create (s : State G) (access : Access) := (s.referenceObject object).createHandle object access
    if s.isThread object ∧ s.psThreadType ≠ 0 then
      Invocation.guard g ⟨s, object, s.psThreadType, obOperationHandleCreate, desiredAccess⟩ create
    else create s desiredAccess

def ntDuplicateObject (g : Guest G) (s : State G) (sourceProcess sourceHandle targetProcess : BitVec 64)
    (desiredAccess : Access) (options : BitVec 32) : Outcome G :=
  if sourceProcess ≠ currentProcessHandle ∨ targetProcess ≠ currentProcessHandle then ⟨.invalidHandle, none, s⟩
  else match Handles.lookupHandle s.objs 0 sourceHandle with
    | none => ⟨.invalidHandle, none, s⟩
    | some entry =>
      let access := if options &&& duplicateSameAccess ≠ 0 then entry.access else desiredAccess
      let create (s : State G) (access : Access) :=
        let o := (s.referenceObject entry.bodyAddr).createHandle entry.bodyAddr access
        if options &&& duplicateCloseSource ≠ 0 then
          { o with state := { o.state with objs := (Handles.closeHandle o.state.objs 0 sourceHandle).2 } }
        else o
      if s.isThread entry.bodyAddr ∧ s.psThreadType ≠ 0 then
        Invocation.guard g ⟨s, entry.bodyAddr, s.psThreadType, obOperationHandleDuplicate, access⟩ create
      else create s access

def Open.run (g : Guest G) (s : State G) : Open → Outcome G
  | ntCreateThreadEx thread desiredAccess => ObCallbacks.ntCreateThreadEx g s thread desiredAccess
  | ntOpenThread threadHandle clientId desiredAccess => ObCallbacks.ntOpenThread g s threadHandle clientId desiredAccess
  | obOpenObjectByPointer object desiredAccess handle =>
    ObCallbacks.obOpenObjectByPointer g s object desiredAccess handle
  | ntDuplicateObject sourceProcess sourceHandle targetProcess desiredAccess options =>
    ObCallbacks.ntDuplicateObject g s sourceProcess sourceHandle targetProcess desiredAccess options

/-- No handle with a right that was not asked for; and access is denied just when callbacks ran and left no right that
was asked for. -/
structure Open.Ok (g : Guest G) (s : State G) (p : Open) : Prop where
  narrows : ∀ i, p.invocation s = some i → i.OnlyNarrows g
  created : ∀ e, (p.run g s).created = some e → Within e.access (p.asked s)
  denied : (p.run g s).status = .accessDenied ↔
    ∃ i, p.invocation s = some i ∧ (i.obPreHandle g).access &&& i.desiredAccess = 0

/-! ## The loop -/

variable {g : Guest G} {i : Invocation G}

theorem within_self (asked : Access) : Within asked asked := BitVec.and_not_self asked

theorem within_zero (asked : Access) : Within 0 asked := BitVec.zero_and

/-- Of rights that were asked for, what is left of those asked for is all of them. -/
theorem Within.and_eq {left asked : Access} (h : Within left asked) : left &&& asked = left := by
  have hsplit : left = (left &&& asked) ||| (left &&& ~~~asked) := by
    rw [← BitVec.and_or_distrib_left, BitVec.or_not_self, BitVec.and_allOnes]
  rw [show left &&& ~~~asked = 0 from h] at hsplit
  exact (hsplit.trans BitVec.or_zero).symm

structure Ran (i : Invocation G) (access : Access) (f : Filtering G) : Prop where
  chain : f.calls.map (·.1.desiredAccess) ++ [f.access] = access :: f.calls.map (·.2)
  original : ∀ c ∈ f.calls, c.1.originalDesiredAccess = i.desiredAccess

theorem runAll_spec (g : Guest G) (i : Invocation G) (params : Addr) (rs : List Registration) (access : Access)
    (s : State G) : Ran i access (i.runAll g params rs access s) := by
  induction rs generalizing access s with
  | nil => exact ⟨rfl, fun _ => nofun⟩
  | cons r rs ih =>
    rcases hcall : g.callGuestKernel s r (i.header params) (i.shown access) with ⟨s', updated⟩
    rw [Invocation.runAll, hcall]
    dsimp only
    split_ifs with hzero
    · refine ⟨rfl, fun c hc => ?_⟩
      obtain rfl := List.mem_singleton.mp hc
      rfl
    · obtain ⟨hchain, horiginal⟩ := ih updated s'
      refine ⟨?_, List.forall_mem_cons.mpr ⟨rfl, horiginal⟩⟩
      rw [List.map_cons, List.map_cons, List.cons_append, hchain]
      rfl

theorem lastWithin_iff (g : Guest G) (i : Invocation G) (params : Addr) {rs : List Registration} (hrs : rs ≠ [])
    (access : Access) (s : State G) :
    i.lastWithin g params rs access s ↔ Within (i.runAll g params rs access s).access i.desiredAccess := by
  induction rs generalizing access s with
  | nil => exact absurd rfl hrs
  | cons r rs ih =>
    rcases hcall : g.callGuestKernel s r (i.header params) (i.shown access) with ⟨s', updated⟩
    rw [Invocation.lastWithin, Invocation.runAll, hcall]
    dsimp only
    by_cases hzero : updated = 0
    · rw [if_pos hzero, if_pos hzero]
      exact iff_of_true trivial (within_zero _)
    · rw [if_neg hzero, if_neg hzero]
      by_cases hrest : rs = []
      · subst hrest
        rw [if_pos rfl]
        exact Iff.rfl
      · rw [if_neg hrest]
        exact ih hrest updated s'

theorem obPreHandle_spec (g : Guest G) (i : Invocation G) : Ran i i.desiredAccess (i.obPreHandle g) := by
  unfold Invocation.obPreHandle
  split
  · exact ⟨rfl, fun _ => nofun⟩
  · cases g.allocate i.state with
    | none => exact ⟨rfl, fun _ => nofun⟩
    | some r => exact runAll_spec g i r.1 i.found i.desiredAccess r.2.2

theorem within_iff (g : Guest G) (i : Invocation G) :
    Within (i.obPreHandle g).access i.desiredAccess ↔ i.LastWithin g := by
  unfold Invocation.obPreHandle Invocation.LastWithin
  by_cases hfound : i.found = []
  · rw [if_pos hfound, hfound]
    exact iff_of_true (within_self _) fun _ _ _ _ => trivial
  · rw [if_neg hfound]
    cases g.allocate i.state with
    | none => exact iff_of_true (within_self _) nofun
    | some r =>
      constructor
      · rintro h params info s ⟨⟩
        exact (lastWithin_iff g i params hfound _ s).mpr h
      · intro h
        exact (lastWithin_iff g i r.1 hfound _ r.2.2).mp (h _ _ _ rfl)

theorem Ran.getLast {access : Access} {f : Filtering G} (h : Ran i access f) :
    (f.calls.getLast?.map (·.2)).getD access = f.access := by
  have hlast := congrArg List.getLast? h.chain
  rw [List.getLast?_concat, List.getLast?_cons, List.getLast?_map] at hlast
  exact (Option.some.inj hlast).symm

theorem onlyNarrows_iff (g : Guest G) (i : Invocation G) : i.OnlyNarrows g ↔ i.LastWithin g := by
  rw [← within_iff]
  constructor
  · exact Invocation.OnlyNarrows.granted
  · intro h
    have hran := obPreHandle_spec g i
    refine ⟨h, hran.chain, hran.original, ?_⟩
    rw [hran.getLast, h.and_eq]

/-! ## The handlers -/

/-- A handler filters the access with the callbacks and goes on with what is left, or creates what was asked for, or
nothing. -/
inductive Handled (g : Guest G) (s : State G) (p : Open) : Outcome G → Prop
  | guarded (i : Invocation G) (create : State G → Access → Outcome G) (hi : p.invocation s = some i)
      (hasked : i.desiredAccess = p.asked s)
      (hcreate : ∀ s access, (create s access).status = .success ∧
        (create s access).created.map (·.access) = some access) : Handled g s p (i.guard g create)
  | unguarded (o : Outcome G) (hi : p.invocation s = none) (hstatus : o.status ≠ .accessDenied)
      (hcreated : ∀ e, o.created = some e → e.access = p.asked s) : Handled g s p o

theorem handled_ntCreateThreadEx (g : Guest G) (s : State G) (thread : Addr) (desiredAccess : Access) :
    Handled g s (.ntCreateThreadEx thread desiredAccess) (ntCreateThreadEx g s thread desiredAccess) := by
  unfold ntCreateThreadEx
  split_ifs with hthread
  · exact .unguarded _ (if_pos hthread) nofun nofun
  · exact .guarded _ _ (if_neg hthread) rfl fun _ _ => ⟨rfl, rfl⟩

theorem handled_ntOpenThread (g : Guest G) (s : State G) (threadHandle : Addr) (clientId : Option Nat)
    (desiredAccess : Access) : Handled g s (.ntOpenThread threadHandle clientId desiredAccess)
      (ntOpenThread g s threadHandle clientId desiredAccess) := by
  unfold ntOpenThread
  dsimp only
  by_cases hnull : threadHandle = 0
  · rw [if_pos hnull]
    exact .unguarded _ (if_pos hnull) nofun nofun
  · rw [if_neg hnull]
    cases clientId with
    | none => exact .unguarded _ (if_neg hnull) nofun nofun
    | some tid =>
      dsimp only
      split_ifs with hthread
      · exact .unguarded _ ((if_neg hnull).trans (if_pos hthread)) nofun nofun
      · exact .guarded _ _ ((if_neg hnull).trans (if_neg hthread)) rfl fun _ _ => ⟨rfl, rfl⟩

theorem handled_obOpenObjectByPointer (g : Guest G) (s : State G) (object : Addr) (desiredAccess : Access)
    (handle : Addr) : Handled g s (.obOpenObjectByPointer object desiredAccess handle)
      (obOpenObjectByPointer g s object desiredAccess handle) := by
  unfold obOpenObjectByPointer
  dsimp only
  split_ifs with hnull hthread
  · exact .unguarded _ (if_neg fun h => h.1 hnull) nofun nofun
  · exact .guarded _ _ (if_pos ⟨hnull, hthread⟩) rfl fun _ _ => ⟨rfl, rfl⟩
  · refine .unguarded _ (if_neg fun h => hthread h.2) nofun fun e he => ?_
    obtain rfl := Option.some.inj he
    rfl

theorem handled_ntDuplicateObject (g : Guest G) (s : State G) (sourceProcess sourceHandle targetProcess : BitVec 64)
    (desiredAccess : Access) (options : BitVec 32) :
    Handled g s (.ntDuplicateObject sourceProcess sourceHandle targetProcess desiredAccess options)
      (ntDuplicateObject g s sourceProcess sourceHandle targetProcess desiredAccess options) := by
  unfold ntDuplicateObject
  dsimp only
  by_cases hprocess : sourceProcess ≠ currentProcessHandle ∨ targetProcess ≠ currentProcessHandle
  · rw [if_pos hprocess]
    exact .unguarded _ (if_pos hprocess) nofun nofun
  · rw [if_neg hprocess]
    cases hentry : Handles.lookupHandle s.objs 0 sourceHandle with
    | none =>
      refine .unguarded _ ?_ nofun nofun
      rw [Open.invocation, if_neg hprocess, hentry]
      rfl
    | some entry =>
      have hasked : (if options &&& duplicateSameAccess ≠ 0 then entry.access else desiredAccess) =
          (Open.ntDuplicateObject sourceProcess sourceHandle targetProcess desiredAccess options).asked s := by
        rw [Open.asked, hentry]
        rfl
      dsimp only
      by_cases hthread : s.isThread entry.bodyAddr ∧ s.psThreadType ≠ 0
      · rw [if_pos hthread]
        refine .guarded _ _ ?_ hasked fun s access => ?_
        · rw [Open.invocation, if_neg hprocess, hentry]
          exact if_pos hthread
        · split_ifs <;> exact ⟨rfl, rfl⟩
      · rw [if_neg hthread]
        refine .unguarded _ ?_ ?_ fun e he => ?_
        · rw [Open.invocation, if_neg hprocess, hentry]
          exact if_neg hthread
        · split_ifs <;> nofun
        · rw [← hasked]
          split_ifs at he ⊢ <;> exact Option.some.inj he ▸ rfl

theorem handled (g : Guest G) (s : State G) (p : Open) : Handled g s p (p.run g s) := by
  cases p with
  | ntCreateThreadEx thread desiredAccess => exact handled_ntCreateThreadEx g s thread desiredAccess
  | ntOpenThread threadHandle clientId desiredAccess =>
    exact handled_ntOpenThread g s threadHandle clientId desiredAccess
  | obOpenObjectByPointer object desiredAccess handle =>
    exact handled_obOpenObjectByPointer g s object desiredAccess handle
  | ntDuplicateObject sourceProcess sourceHandle targetProcess desiredAccess options =>
    exact handled_ntDuplicateObject g s sourceProcess sourceHandle targetProcess desiredAccess options

theorem guard_spec {create : State G → Access → Outcome G} (hcreate : ∀ s access, (create s access).status = .success ∧
    (create s access).created.map (·.access) = some access) :
    ((i.guard g create).status = .accessDenied ↔ (i.obPreHandle g).access = 0) ∧
      ∀ e, (i.guard g create).created = some e → e.access = (i.obPreHandle g).access := by
  unfold Invocation.guard
  dsimp only
  split_ifs with hzero
  · exact ⟨iff_of_true rfl hzero, nofun⟩
  · obtain ⟨hstatus, hcreated⟩ := hcreate (i.obPreHandle g).state (i.obPreHandle g).access
    refine ⟨iff_of_false ?_ hzero, fun e he => ?_⟩
    · rw [hstatus]
      nofun
    · rw [he] at hcreated
      exact Option.some.inj hcreated

theorem open_ok_iff (g : Guest G) (s : State G) (p : Open) :
    p.Ok g s ↔ ∀ i, p.invocation s = some i → i.LastWithin g := by
  constructor
  · intro h i hi
    exact (onlyNarrows_iff g i).mp (h.narrows i hi)
  · intro h
    have hnarrows : ∀ i, p.invocation s = some i → i.OnlyNarrows g := fun i hi => (onlyNarrows_iff g i).mpr (h i hi)
    have hhandled := handled g s p
    generalize ho : p.run g s = o at hhandled
    cases hhandled with
    | guarded i create hi hasked hcreate =>
      have hwithin := (hnarrows i hi).granted
      obtain ⟨hdenied, hcreated⟩ := guard_spec (g := g) (i := i) hcreate
      refine ⟨hnarrows, fun e he => ?_, ?_⟩
      · rw [hcreated e (ho ▸ he), ← hasked]
        exact hwithin
      · rw [ho, hdenied]
        constructor
        · intro hzero
          exact ⟨i, hi, by rw [hwithin.and_eq, hzero]⟩
        · rintro ⟨j, hj, hzero⟩
          obtain rfl := Option.some.inj (hi.symm.trans hj)
          rwa [hwithin.and_eq] at hzero
    | unguarded _ hi hstatus hcreated =>
      refine ⟨hnarrows, fun e he => ?_, iff_of_false (ho ▸ hstatus) ?_⟩
      · rw [hcreated e (ho ▸ he)]
        exact within_self _
      · rintro ⟨i, hi', -⟩
        rw [hi] at hi'
        cases hi'

/-- **Access filtering narrows**, in every call of `ob_pre_handle` and on every way to a handle, exactly when the
callback that runs last leaves no right that was not asked for. -/
theorem narrows_iff_lastWithin (g : Guest G) (s : State G) :
    (∀ i : Invocation G, i.OnlyNarrows g ↔ i.LastWithin g) ∧
      ∀ p : Open, p.Ok g s ↔ ∀ i, p.invocation s = some i → i.LastWithin g :=
  ⟨onlyNarrows_iff g, open_ok_iff g s⟩

def addsRight : Guest Unit where
  allocate s := some (0x1000, 0x2000, s)
  callGuestKernel s _ _ params := (s, params.desiredAccess ||| 2)

/-- One thread, and one driver that is told when a handle to it is created. -/
def oneThread : State Unit where
  objs := { objects := fun a => if a = 0x4000 then some ⟨some ⟨1, 0⟩, some .thread⟩ else none }
  obRegistrations := [⟨0x3000, 0, 0x5000, 1⟩]
  psThreadType := 0x5000
  threads tid := if tid = 4 then 0x4000 else 0
  guest := ()

theorem addsRight_widens : ¬ ∀ (g : Guest Unit) s,
    (∀ i : Invocation Unit, i.OnlyNarrows g) ∧ ∀ p : Open, p.Ok g s := by
  intro hall
  have hcreated : ((Open.ntOpenThread 0x6000 (some 4) 1).run addsRight oneThread).created = some ⟨0x4000, 3⟩ := by
    decide +kernel
  have hwithin := ((hall addsRight oneThread).2 (.ntOpenThread 0x6000 (some 4) 1)).created _ hcreated
  exact absurd hwithin (by decide)

end Kernemul.ObCallbacks
