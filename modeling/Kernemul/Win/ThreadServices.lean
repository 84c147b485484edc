import Kernemul.Emu.Defs
import Kernemul.Lib.Attempt
import Kernemul.Win.ObCallbacks

/-!
# Threads that are made and opened

`NtCreateThreadEx` makes and starts a thread, has the object callbacks filter the access to it, and adds a handle that
it writes to the caller; `NtOpenThread` takes a reference where the other makes a thread. Guest memory, and what guest
code does when it is called, is a parameter: an operation on it may throw, and changes nothing else.
-/

namespace Kernemul.ThreadServices

open Attempt
open ObCallbacks (Addr Access HostKind PreOperationInformation PreHandleParameters)

structure Registration extends ObCallbacks.Registration where
  post : Addr

/-- `ob_post_operation_information_t`. -/
structure PostOperationInformation where
  operation : BitVec 32
  object : Addr
  objectType : Addr
  returnStatus : BitVec 32
  parameters : Addr

structure Thread where
  pid : BitVec 32
  stackBase : Addr
  stackSize : Nat
  /-- Zero for a system thread. -/
  teb : Addr
  ethread : Addr
  started : Bool := false
  suspendCount : Nat := 0

structure State (G : Type) where
  objs : Handles.State HostKind
  nextId : BitVec 32
  threads : BitVec 32 → Option Thread
  readyQueue : List (BitVec 32)
  /-- The kernel and its processes have an emulator. -/
  emulator : Bool
  sysPid : BitVec 32
  /-- `ntdll.dll` is in the process and has the loader's entry. -/
  loaderStartup : BitVec 32 → Bool
  notifyThread : List Addr
  obRegistrations : List Registration
  guest : G

abbrev Op (G : Type) := EStateM Unit G

abbrev Act (G : Type) := EStateM Unit (State G)

structure Machine (G : Type) where
  /-- `addr_space::alloc` of the default space. -/
  alloc : Nat → Op G Addr
  /-- `win_user_mem::alloc` of a process. -/
  allocUser : BitVec 32 → Nat → Op G Addr
  readMem : Addr → Nat → Op G Nat
  writeMem : Addr → Nat → Nat → Op G Unit
  /-- `teb_.write` of a new user thread. -/
  writeTeb : BitVec 32 → BitVec 32 → Addr → Op G Unit
  /-- `set_ret_addr` and `set_arg` of the calling convention. -/
  setFrame : Thread → List Nat → Op G Unit
  setupLoaderFrame : Thread → Addr → Addr → Op G Unit
  /-- `object_type_pointer("PsThreadType")`. -/
  psThreadType : Op G Addr
  callNotify : Addr → BitVec 32 → BitVec 32 → Op G Unit
  /-- A pre callback, and the access in the block it was shown. -/
  callPre : Registration → PreOperationInformation → PreHandleParameters → Op G Access
  callPost : Registration → PostOperationInformation → Access → Op G Unit
  objectHeaderSize : Nat
  ethreadSize : Nat

variable {G : Type} (m : Machine G)

def lift {α : Type} (x : Op G α) : Act G α := fun s =>
  match x s.guest with
  | .ok a w => .ok a { s with guest := w }
  | .error e w => .error e { s with guest := w }

inductive Status
  | success
  | invalidParameter
  | invalidHandle
  | notImplemented
  | insufficientResources
  | noMemory
  | invalidCid
  | accessDenied
  deriving DecidableEq, Repr

/-! ## Callbacks -/

def obOperationHandleCreate : BitVec 32 := 1

/-- The loop of `ob_pre_handle`. -/
def preLoop (header : PreOperationInformation) (desiredAccess : Access) : List Registration → Access → Op G Access
  | [], access => pure access
  | r :: rs, access => do
    let updated ← m.callPre r header ⟨access, desiredAccess, 0, 0⟩
    if updated = 0 then pure 0 else preLoop header desiredAccess rs updated

def matching (rs : List Registration) (address : Registration → Addr) (objectType : Addr) (operation : BitVec 32) :
    List Registration :=
  rs.filter fun r => address r ≠ 0 ∧ r.operations &&& operation ≠ 0 ∧ r.objectType = objectType

/-- `sizeof(ob_pre_handle_parameters_t)` and `sizeof(ob_pre_operation_information_t)`. -/
def preHandleParametersSize : Nat := 24
def preOperationInformationSize : Nat := 40

def obPreHandle (rs : List Registration) (object objectType : Addr) (operation : BitVec 32) (desiredAccess : Access) :
    Op G Access :=
  let found := matching rs (·.pre) objectType operation
  if found.isEmpty then pure desiredAccess
  else do
    let params ← m.alloc preHandleParametersSize
    let info ← m.alloc preOperationInformationSize
    if params = 0 ∨ info = 0 then pure desiredAccess
    else preLoop m ⟨operation <<< 1, object, objectType, params⟩ desiredAccess found desiredAccess

/-- `sizeof(ob_post_handle_parameters_t)` and `sizeof(ob_post_operation_information_t)`. -/
def postHandleParametersSize : Nat := 8
def postOperationInformationSize : Nat := 48

def obPostHandle (rs : List Registration) (object objectType : Addr) (operation status : BitVec 32)
    (grantedAccess : Access) : Op G Unit :=
  let found := matching rs (·.post) objectType operation
  if found.isEmpty then pure ()
  else do
    let params ← m.alloc postHandleParametersSize
    let info ← m.alloc postOperationInformationSize
    if params = 0 ∨ info = 0 then pure ()
    else found.forM fun r => m.callPost r ⟨operation, object, objectType, status, params⟩ grantedAccess

/-! ## Making a thread -/

def allocateId : Act G (BitVec 32) := do
  let s ← get
  set { s with nextId := s.nextId + 4 }
  pure s.nextId

def defaultStackSize : Nat := 0x10000
def maxStackSize : Nat := 0x100000

def threadStackSize (wanted : Nat) : Nat := min (sizeAlign (max wanted defaultStackSize)) maxStackSize

def teb64AllocSize : Nat := 0x2000

def allocStack (caller : Option (BitVec 32)) (id : BitVec 32) (size : Nat) : Op G (Addr × Addr) :=
  match caller with
  | none => do
    let stack ← m.alloc size
    pure (stack, 0)
  | some pid => do
    let stack ← m.allocUser pid size
    let teb ← m.allocUser pid teb64AllocSize
    m.writeTeb pid id teb
    pure (stack, teb)

def State.putThread (s : State G) (id : BitVec 32) (t : Thread) : State G :=
  { s with threads := Function.update s.threads id (some t) }

def State.editThread (s : State G) (id : BitVec 32) (edit : Thread → Thread) : State G :=
  { s with threads := Function.update s.threads id ((s.threads id).map edit) }

/-- `setup_ethread`, less the lists of the EPROCESS. -/
def setupEthread : Act G Addr := do
  let s ← get
  if s.emulator then
    let base ← lift (m.alloc (m.objectHeaderSize + m.ethreadSize))
    let body := wrap (base + m.objectHeaderSize)
    let s ← get
    -- The memory is new, so there is no object there.
    match Handles.createObject s.objs body (some .thread) with
    | none => throw ()
    | some objs =>
      set { s with objs }
      pure body
  else pure 0

/-- `threads_[id] = t`, `enqueue` and the notification. -/
def enterThread (id : BitVec 32) (t : Thread) (args : List Nat) : Act G Unit := do
  modify (·.putThread id t)
  lift (m.setFrame t args)
  modify fun s => { s with readyQueue := s.readyQueue ++ [id] }
  let s ← get
  if s.emulator then lift (s.notifyThread.forM fun routine => m.callNotify routine t.pid id) else pure ()

def createSuspendedThread (caller : Option (BitVec 32)) (args : List Nat) (stackSize : Nat) :
    Act G (BitVec 32 × Thread) := do
  let id ← allocateId
  let size := threadStackSize stackSize
  let (stack, teb) ← lift (allocStack m caller id size)
  let ethread ← setupEthread m
  let s ← get
  let t : Thread := { pid := caller.getD s.sysPid, stackBase := stack, stackSize := size, teb, ethread }
  enterThread m id t args
  pure (id, t)

/-! ## The services -/

/-- The arguments of `NtCreateThreadEx`, and the process it is called from unless that is the system's. -/
structure CreateThread where
  threadHandle : Addr
  desiredAccess : Access
  processHandle : BitVec 64
  startRoutine : Addr
  argument : Addr
  createFlags : BitVec 32
  stackSize : Nat
  maximumStackSize : Nat
  attributeList : Addr
  caller : Option (BitVec 32)

/-- The stack is committed outright, so it is the reserve that counts. -/
def CreateThread.stack (p : CreateThread) : Nat := if p.maximumStackSize ≠ 0 then p.maximumStackSize else p.stackSize

structure OpenThread where
  threadHandle : Addr
  desiredAccess : Access
  clientId : Addr

def threadCreateSuspended : BitVec 32 := 1

def start (id : BitVec 32) : Act G Unit := modify (·.editThread id fun t => { t with started := true })

def suspend (id : BitVec 32) : Act G Unit :=
  modify (·.editThread id fun t => { t with suspendCount := t.suspendCount + 1 })

/-- `create_user_thread`, once it has found the loader. -/
def createUserThread (p : CreateThread) (pid : BitVec 32) : Act G (BitVec 32 × Thread) := do
  let (id, t) ← createSuspendedThread m (some pid) [] p.stack
  lift (m.setupLoaderFrame t p.startRoutine p.argument)
  if p.createFlags &&& threadCreateSuspended ≠ 0 then suspend id else pure ()
  start id
  pure (id, t)

def createSystemThread (p : CreateThread) : Act G (BitVec 32 × Thread) := do
  let (id, t) ← createSuspendedThread m none [p.argument] 0
  start id
  pure (id, t)

/-- `sizeof(ps_attribute_t)`. -/
def attributeSize : Nat := 32

def psAttributeClientId : Nat := 0x10003
def psAttributeTebAddress : Nat := 0x10004

def field (value i : Nat) : Nat := value / 2 ^ (64 * i) % 2 ^ 64

/-- One attribute, as it was read: what is written, and how long that is. -/
def writeAttribute (id : BitVec 32) (t : Thread) (attr : Nat) : Op G Unit := do
  let value := field attr 2
  let written ←
    if field attr 0 = psAttributeClientId ∧ 16 ≤ field attr 1 then do
      m.writeMem value 16 (t.pid.toNat + id.toNat * 2 ^ 64)
      pure 16
    else if field attr 0 = psAttributeTebAddress ∧ 8 ≤ field attr 1 ∧ t.teb ≠ 0 then do
      m.writeMem value 8 t.teb
      pure 8
    else pure 0
  if written ≠ 0 ∧ field attr 3 ≠ 0 then m.writeMem (field attr 3) 8 written else pure ()

/-- The loop of `write_thread_attributes`, with `n` attributes to go. -/
def attributeLoop (id : BitVec 32) (t : Thread) : Nat → Addr → Op G Unit
  | 0, _ => pure ()
  | n + 1, at_ => do
    let attr ← m.readMem at_ attributeSize
    if field attr 2 = 0 then pure () else writeAttribute m id t attr
    attributeLoop id t n (wrap (at_ + attributeSize))

def writeThreadAttributes (id : BitVec 32) (t : Thread) (list : Addr) : Op G Unit :=
  if list = 0 then pure ()
  else do
    let total ← m.readMem list 8
    if total < 8 + attributeSize then pure ()
    else attributeLoop m id t ((total - 8) / attributeSize) (wrap (list + 8))

/-- `create_handle` of the system process's table. -/
def createHandle (object : Addr) (access : Access) : Act G (BitVec 64) := fun s =>
  let r := Handles.createHandle s.objs 0 object access
  .ok r.1 { s with objs := r.2 }

/-- The callbacks, and the handle that is written to the caller: how both services end. -/
def openEthread (threadHandle ethread : Addr) (desiredAccess : Access) (done : Op G Unit) : Act G Status := do
  let type ← lift m.psThreadType
  let s ← get
  let access ← lift (obPreHandle m s.obRegistrations ethread type obOperationHandleCreate desiredAccess)
  if access = 0 then pure .accessDenied
  else do
    let handle ← createHandle ethread access
    lift (m.writeMem threadHandle 8 handle.toNat)
    let s ← get
    lift (obPostHandle m s.obRegistrations ethread type obOperationHandleCreate 0 access)
    lift done
    pure .success

/-- What `NtCreateThreadEx` does with the thread it has made. -/
def finishCreate (p : CreateThread) (made : BitVec 32 × Thread) : Act G Status :=
  if made.2.ethread = 0 then pure .noMemory
  else
    openEthread m p.threadHandle made.2.ethread p.desiredAccess (writeThreadAttributes m made.1 made.2 p.attributeList)

def currentProcessHandle : BitVec 64 := -1

def ntCreateThreadEx (p : CreateThread) : Act G Status :=
  if p.threadHandle = 0 ∨ p.startRoutine = 0 then pure .invalidParameter
  else if p.processHandle ≠ 0 ∧ p.processHandle ≠ currentProcessHandle then pure .invalidHandle
  else match p.caller with
    | none => createSystemThread m p >>= finishCreate m p
    | some pid => do
      let s ← get
      if !s.emulator then pure .notImplemented
      else if !s.loaderStartup pid then pure .insufficientResources
      else createUserThread m p pid >>= finishCreate m p

def State.ethread (s : State G) (tid : BitVec 32) : Addr := ((s.threads tid).map (·.ethread)).getD 0

def referenceObject (object : Addr) : Act G Unit :=
  modify fun s => { s with objs := Handles.referenceObject s.objs object }

def ntOpenThread (p : OpenThread) : Act G Status :=
  if p.threadHandle = 0 then pure .invalidParameter
  else do
    lift (m.writeMem p.threadHandle 8 0)
    if p.clientId = 0 then pure .invalidParameter
    else do
      let tid ← lift (m.readMem (wrap (p.clientId + 8)) 8)
      let s ← get
      let ethread := s.ethread (BitVec.ofNat 32 tid)
      if ethread = 0 then pure .invalidCid
      else do
        referenceObject ethread
        openEthread m p.threadHandle ethread p.desiredAccess (pure ())

inductive Service
  | ntCreateThreadEx (p : CreateThread)
  | ntOpenThread (p : OpenThread)

def Service.run : Service → Act G Status
  | ntCreateThreadEx p => ThreadServices.ntCreateThreadEx m p
  | ntOpenThread p => ThreadServices.ntOpenThread m p

/-! ## What a failure has to leave as it was -/

/-- The threads, those that are scheduled, the handles, and the counts of the objects. -/
structure Books where
  threads : BitVec 32 → Option Thread
  readyQueue : List (BitVec 32)
  handles : Nat → Handles.Handle → Option Handles.HandleEntry
  header : Addr → Option Handles.Header

def State.books (s : State G) : Books := ⟨s.threads, s.readyQueue, Handles.lookupHandle s.objs, s.objs.header⟩

def Service.Traceless (p : Service) (s : State G) : Prop :=
  Attempt.Traceless State.books (fun status => status ≠ .success) (p.run m) s

/-- The emulator is there, and the ETHREAD of a thread is an object. -/
structure State.Sound (s : State G) : Prop where
  attached : s.emulator = true
  ethreads : ∀ id t, s.threads id = some t → t.ethread ≠ 0 → (s.objs.header t.ethread).isSome

structure Kernel (G : Type) where
  state : State G
  sound : state.Sound

/-! ## When nothing fails -/

/-- Every pre callback, shown what the one before it left, returns and leaves some access. -/
def Grants (header : PreOperationInformation) (desiredAccess : Access) (k : Access → G → Prop) :
    List Registration → Access → G → Prop
  | [], access, w => k access w
  | r :: rs, access, w => Returns (m.callPre r header ⟨access, desiredAccess, 0, 0⟩) w fun updated w =>
    updated ≠ 0 ∧ Grants header desiredAccess k rs updated w

def Granted (rs : List Registration) (object objectType : Addr) (desiredAccess : Access) (w : G)
    (k : Access → G → Prop) : Prop :=
  let found := matching rs (·.pre) objectType obOperationHandleCreate
  if found.isEmpty then desiredAccess ≠ 0 ∧ k desiredAccess w
  else Returns (m.alloc preHandleParametersSize) w fun params w =>
    Returns (m.alloc preOperationInformationSize) w fun info w =>
      if params = 0 ∨ info = 0 then desiredAccess ≠ 0 ∧ k desiredAccess w
      else Grants m ⟨obOperationHandleCreate <<< 1, object, objectType, params⟩ desiredAccess k found desiredAccess w

/-- The callbacks leave some access, the handle can be written, and what is left to do returns. -/
def Opens (s : State G) (threadHandle ethread : Addr) (desiredAccess : Access) (done : Op G Unit) (w : G) : Prop :=
  Returns m.psThreadType w fun type w =>
    Granted m s.obRegistrations ethread type desiredAccess w fun access w =>
      Returns (m.writeMem threadHandle 8 (s.objs.tables 0).nextHandle.toNat) w fun _ w =>
        Returns (obPostHandle m s.obRegistrations ethread type obOperationHandleCreate 0 access) w fun _ w =>
          Returns done w fun _ _ => True

/-- An open is refused before it has taken its reference, or nothing fails. -/
def OpenThread.Clean (p : OpenThread) (s : State G) : Prop :=
  p.threadHandle = 0 ∨ ∀ w, m.writeMem p.threadHandle 8 0 s.guest = .ok () w →
    p.clientId = 0 ∨ ∀ tid w', m.readMem (wrap (p.clientId + 8)) 8 w = .ok tid w' →
      s.ethread (BitVec.ofNat 32 tid) = 0 ∨
        Opens m s p.threadHandle (s.ethread (BitVec.ofNat 32 tid)) p.desiredAccess (pure ()) w'

/-- A thread cannot be made, for want of memory, or nothing fails once its object is there. -/
def CreateThread.Makes (p : CreateThread) (s : State G) (args : List Nat) (stackSize : Nat)
    (loader : Thread → Op G Unit) : Prop :=
  let size := threadStackSize stackSize
  ∀ stack teb w, allocStack m p.caller s.nextId size s.guest = .ok (stack, teb) w →
    ∀ base w', m.alloc (m.objectHeaderSize + m.ethreadSize) w = .ok base w' →
      let ethread := wrap (base + m.objectHeaderSize)
      let t : Thread := { pid := p.caller.getD s.sysPid, stackBase := stack, stackSize := size, teb, ethread }
      Handles.hasObject s.objs ethread = true ∨
        Returns (m.setFrame t args) w' fun _ w =>
          Returns (s.notifyThread.forM fun routine => m.callNotify routine t.pid s.nextId) w fun _ w =>
            Returns (loader t) w fun _ w => ethread ≠ 0 ∧
              Opens m s p.threadHandle ethread p.desiredAccess (writeThreadAttributes m s.nextId t p.attributeList) w

/-- A create is refused, or it cannot make its thread, or nothing fails once it has. -/
def CreateThread.Clean (p : CreateThread) (s : State G) : Prop :=
  (p.threadHandle = 0 ∨ p.startRoutine = 0) ∨ (p.processHandle ≠ 0 ∧ p.processHandle ≠ currentProcessHandle) ∨
    match p.caller with
    | none => p.Makes m s [p.argument] 0 fun _ => pure ()
    | some pid => s.loaderStartup pid = false ∨
      p.Makes m s [] p.stack fun t => m.setupLoaderFrame t p.startRoutine p.argument

def Service.Clean : Service → State G → Prop
  | ntCreateThreadEx p => p.Clean m
  | ntOpenThread p => p.Clean m

/-! ## Operations on the guest -/

variable {m} {s : State G}

theorem returns_lift {α : Type} {x : Op G α} {k : α → State G → Prop} :
    Returns (lift x) s k ↔ Returns x s.guest fun a w => k a { s with guest := w } := by
  unfold Returns lift
  cases h : x s.guest with
  | ok a w =>
    constructor
    · rintro ⟨_, _, ⟨⟩, hk⟩
      exact ⟨a, w, rfl, hk⟩
    · rintro ⟨_, _, ⟨⟩, hk⟩
      exact ⟨a, _, rfl, hk⟩
  | error e w =>
    constructor
    · rintro ⟨_, _, ⟨⟩, -⟩
    · rintro ⟨_, _, ⟨⟩, -⟩

theorem silent_lift {α : Type} (x : Op G α) : Silent State.books (lift x) := by
  intro s
  unfold lift
  cases x s.guest with
  | ok a w => rfl
  | error e w => rfl

theorem traceless_lift {α : Type} {x : Op G α} {f : α → Act G Status} {fails : Status → Prop} :
    Traceless State.books fails (lift x >>= f) s ↔
      ∀ a w, x s.guest = .ok a w → Traceless State.books fails (f a) { s with guest := w } := by
  rw [traceless_bind (silent_lift x)]
  unfold lift
  cases h : x s.guest with
  | ok a w =>
    constructor
    · rintro ht _ _ ⟨⟩
      exact ht a _ rfl
    · rintro ht _ _ ⟨⟩
      exact ht a w rfl
  | error e w => exact iff_of_true nofun nofun

/-! ## The callbacks -/

theorem preLoop_grants (header : PreOperationInformation) (desiredAccess : Access) (k : Access → G → Prop)
    (rs : List Registration) {access : Access} (haccess : rs = [] → access ≠ 0) (w : G) :
    Returns (preLoop m header desiredAccess rs access) w (fun access w => access ≠ 0 ∧ k access w) ↔
      Grants m header desiredAccess k rs access w := by
  induction rs generalizing access w with
  | nil =>
    rw [preLoop, returns_pure, Grants]
    exact and_iff_right (haccess rfl)
  | cons r rs ih =>
    rw [preLoop, returns_bind, Grants]
    refine returns_congr fun updated w => ?_
    by_cases hzero : updated = 0
    · rw [if_pos hzero, returns_pure]
      exact iff_of_false (fun h => h.1 rfl) fun h => h.1 hzero
    · rw [if_neg hzero, ih (fun _ => hzero) w, and_iff_right hzero]

theorem obPreHandle_granted (rs : List Registration) (object objectType : Addr) (desiredAccess : Access) (w : G)
    (k : Access → G → Prop) :
    Returns (obPreHandle m rs object objectType obOperationHandleCreate desiredAccess) w
      (fun access w => access ≠ 0 ∧ k access w) ↔ Granted m rs object objectType desiredAccess w k := by
  unfold obPreHandle Granted
  dsimp only
  split
  · exact returns_pure
  · rename_i hfound
    rw [returns_bind]
    refine returns_congr fun params w => ?_
    rw [returns_bind]
    refine returns_congr fun info w => ?_
    split
    · exact returns_pure
    · exact preLoop_grants _ _ _ _ (fun h => absurd (List.isEmpty_iff.mpr h) hfound) w

/-! ## The way to a handle -/

def Books.pointers (b : Books) (a : Addr) : Option (BitVec 64) := (b.header a).map (·.pointerCount)

theorem createHandle_ok {ethread : Addr} (hobject : Handles.hasObject s.objs ethread) (access : Access) :
    createHandle ethread access s = .ok (s.objs.tables 0).nextHandle
      { s with objs := (Handles.createHandle s.objs 0 ethread access).2 } := by
  have h : (Handles.createHandle s.objs 0 ethread access).1 = (s.objs.tables 0).nextHandle := by
    rw [Handles.createHandle_eq hobject 0 access]
  exact congrArg (fun h => EStateM.Result.ok h _) h

theorem openEthread_opens {ethread : Addr} (hobject : Handles.hasObject s.objs ethread) (threadHandle : Addr)
    (desiredAccess : Access) (done : Op G Unit) :
    Returns (openEthread m threadHandle ethread desiredAccess done) s (fun status _ => ¬ status ≠ .success) ↔
      Opens m s threadHandle ethread desiredAccess done s.guest := by
  unfold openEthread Opens
  rw [returns_bind, returns_lift]
  refine returns_congr fun type w => ?_
  rw [returns_bind, returns_get, returns_bind, returns_lift, ← obPreHandle_granted]
  refine returns_congr fun access w => ?_
  by_cases hzero : access = 0
  · rw [if_pos hzero, returns_pure]
    exact iff_of_false (fun h => h nofun) fun h => h.1 hzero
  · rw [if_neg hzero, and_iff_right hzero, returns_bind,
      returns_ok (createHandle_ok (s := { s with guest := w }) hobject access), returns_bind, returns_lift]
    refine returns_congr fun _ w => ?_
    rw [returns_bind, returns_get, returns_bind, returns_lift]
    refine returns_congr fun _ w => ?_
    rw [returns_bind, returns_lift]
    refine returns_congr fun _ w => ?_
    rw [returns_pure]
    exact iff_of_true (fun h => h rfl) trivial

theorem silent_createHandle (a object : Addr) (access : Access) :
    Silent (fun s : State G => s.books.pointers a) (createHandle object access) := by
  intro s
  show ((Handles.createHandle s.objs 0 object access).2.header a).map _ = (s.objs.header a).map _
  by_cases hobject : Handles.hasObject s.objs object
  · rw [Handles.createHandle_eq hobject, Handles.incrementHandleCount, Handles.header_editHeader]
    split
    · rw [Option.map_map]
      rfl
    · rfl
  · rw [Handles.createHandle_none hobject]

theorem silent_pointers {α : Type} (a : Addr) (x : Op G α) :
    Silent (fun s : State G => s.books.pointers a) (lift x) :=
  (silent_lift x).of_view fun b => b.pointers a

theorem silent_openEthread (a threadHandle ethread : Addr) (desiredAccess : Access) (done : Op G Unit) :
    Silent (fun s => s.books.pointers a) (openEthread m threadHandle ethread desiredAccess done) := by
  unfold openEthread
  refine (silent_pointers a _).bind fun type => Silent.get.bind fun s => (silent_pointers a _).bind fun access => ?_
  refine Silent.ite (Silent.pure _) ?_
  refine (silent_createHandle a _ _).bind fun handle => (silent_pointers a _).bind fun _ => Silent.get.bind fun s => ?_
  exact (silent_pointers a _).bind fun _ => (silent_pointers a _).bind fun _ => Silent.pure _

/-! ## `NtOpenThread` -/

theorem header_of_ethread (k : Kernel G) {tid : BitVec 32} (h : k.state.ethread tid ≠ 0) :
    (k.state.objs.header (k.state.ethread tid)).isSome := by
  unfold State.ethread at *
  cases ht : k.state.threads tid with
  | none =>
    rw [ht] at h
    exact absurd rfl h
  | some t =>
    rw [ht] at h
    exact k.sound.ethreads tid t ht h

variable {objs : Handles.State HostKind}

theorem hasObject_of_header {a : Addr} (h : (objs.header a).isSome) :
    Handles.hasObject objs a := by
  unfold Handles.hasObject
  cases ho : objs.objects a with
  | none =>
    unfold Handles.State.header at h
    rw [ho] at h
    cases h
  | some o => rfl

theorem reference_traceless {ethread : Addr} (h : (s.objs.header ethread).isSome) (threadHandle : Addr)
    (desiredAccess : Access) :
    Attempt.Traceless State.books (fun status => status ≠ .success)
        (referenceObject ethread >>= fun _ => openEthread m threadHandle ethread desiredAccess (pure ())) s ↔
      Opens m s threadHandle ethread desiredAccess (pure ()) s.guest := by
  obtain ⟨hdr, hhdr⟩ := Option.isSome_iff_exists.mp h
  rw [traceless_mark (fun _ b => b.pointers ethread) (by nofun) ?_ fun _ => silent_openEthread ethread _ _ _ _]
  · have hobject : Handles.hasObject (Handles.referenceObject s.objs ethread) ethread := by
      rw [Handles.referenceObject, Handles.hasObject_editHeader]
      exact hasObject_of_header h
    have hopens := openEthread_opens (m := m) (s := { s with objs := Handles.referenceObject s.objs ethread }) hobject
      threadHandle desiredAccess (pure ())
    constructor
    · exact fun hs => hopens.mp (hs ⟨⟩ _ rfl)
    · rintro hs _ _ ⟨⟩
      exact hopens.mpr hs
  · rintro _ _ ⟨⟩
    show ((Handles.referenceObject s.objs ethread).header ethread).map _ ≠ (s.objs.header ethread).map _
    rw [Handles.referenceObject, Handles.header_editHeader, if_pos rfl, hhdr]
    intro he
    have hsame : hdr.pointerCount + 1 = hdr.pointerCount := Option.some.inj he
    exact absurd hsame (by bv_omega)

theorem openFound_traceless (k : Kernel G) (p : OpenThread) (tid : BitVec 32) (w : G) :
    Attempt.Traceless State.books (fun status => status ≠ .success)
        (get >>= fun s =>
          if s.ethread tid = 0 then pure .invalidCid
          else referenceObject (s.ethread tid) >>= fun _ =>
            openEthread m p.threadHandle (s.ethread tid) p.desiredAccess (pure ()))
        { k.state with guest := w } ↔
      k.state.ethread tid = 0 ∨ Opens m k.state p.threadHandle (k.state.ethread tid) p.desiredAccess (pure ()) w := by
  rw [traceless_get]
  show Attempt.Traceless State.books _
    (if k.state.ethread tid = 0 then pure .invalidCid
      else referenceObject (k.state.ethread tid) >>= fun _ =>
        openEthread m p.threadHandle (k.state.ethread tid) p.desiredAccess (pure ())) _ ↔ _
  by_cases hethread : k.state.ethread tid = 0
  · rw [if_pos hethread]
    exact iff_of_true ((Silent.pure _).traceless _) (Or.inl hethread)
  · rw [if_neg hethread, or_iff_right hethread]
    exact reference_traceless (s := { k.state with guest := w }) (header_of_ethread k hethread) _ _

theorem ntOpenThread_traceless (k : Kernel G) (p : OpenThread) :
    (Service.ntOpenThread p).Traceless m k.state ↔ p.Clean m k.state := by
  unfold Service.Traceless Service.run ntOpenThread OpenThread.Clean
  by_cases hnull : p.threadHandle = 0
  · simp only [if_pos hnull]
    exact iff_of_true ((Silent.pure _).traceless _) (Or.inl hnull)
  simp only [if_neg hnull]
  rw [or_iff_right hnull, traceless_lift, Unique.forall_iff]
  refine forall_congr' fun w => imp_congr_right fun hw => ?_
  by_cases hclient : p.clientId = 0
  · simp only [if_pos hclient]
    exact iff_of_true ((Silent.pure _).traceless _) (Or.inl hclient)
  simp only [if_neg hclient]
  rw [or_iff_right hclient, traceless_lift]
  refine forall_congr' fun tid => forall_congr' fun w' => imp_congr_right fun hw' => ?_
  exact openFound_traceless k p _ w'

/-! ## `NtCreateThreadEx` -/

theorem lift_ok {α β : Type} {x : Op G α} {f : α → Act G β} {a : α} {w : G} (h : x s.guest = .ok a w) :
    (lift x >>= f) s = f a { s with guest := w } := by
  refine bind_ok ?_
  unfold lift
  rw [h]

theorem lift_error {α β : Type} {x : Op G α} {f : α → Act G β} {e : Unit} {w : G} (h : x s.guest = .error e w) :
    (lift x >>= f) s = .error e { s with guest := w } := by
  refine bind_error ?_
  unfold lift
  rw [h]

theorem setupEthread_ok (hemulator : s.emulator = true) {body : Addr} {s' : State G} :
    setupEthread m s = .ok body s' ↔
      ∃ base w, m.alloc (m.objectHeaderSize + m.ethreadSize) s.guest = .ok base w ∧
        wrap (base + m.objectHeaderSize) = body ∧ Handles.hasObject s.objs body = false ∧
        { s with guest := w, objs := s.objs.putObject body ⟨some ⟨1, 0⟩, some .thread⟩ } = s' := by
  unfold setupEthread
  rw [bind_get, if_pos hemulator]
  cases hbase : m.alloc (m.objectHeaderSize + m.ethreadSize) s.guest with
  | error e w =>
    rw [lift_error hbase]
    constructor
    · exact nofun
    · rintro ⟨_, _, ⟨⟩, -⟩
  | ok base w =>
    rw [lift_ok hbase, bind_get]
    unfold Handles.createObject
    cases hobject : Handles.hasObject s.objs (wrap (base + m.objectHeaderSize)) with
    | false =>
      constructor
      · rintro ⟨⟩
        exact ⟨base, w, rfl, rfl, hobject, rfl⟩
      · rintro ⟨_, _, ⟨⟩, rfl, -, rfl⟩
        rfl
    | true =>
      constructor
      · exact nofun
      · rintro ⟨_, _, ⟨⟩, rfl, hnew, -⟩
        rw [hobject] at hnew
        cases hnew

theorem setupEthread_error (hemulator : s.emulator = true) {e : Unit} {s' : State G}
    (h : setupEthread m s = .error e s') : ∃ w, s' = { s with guest := w } := by
  unfold setupEthread at h
  rw [bind_get, if_pos hemulator] at h
  cases hbase : m.alloc (m.objectHeaderSize + m.ethreadSize) s.guest with
  | error e w =>
    rw [lift_error hbase] at h
    cases h
    exact ⟨w, rfl⟩
  | ok base w =>
    rw [lift_ok hbase, bind_get] at h
    unfold Handles.createObject at h
    cases hobject : Handles.hasObject s.objs (wrap (base + m.objectHeaderSize)) with
    | false =>
      simp only [hobject] at h
      cases h
    | true =>
      simp only [hobject] at h
      cases h
      exact ⟨w, rfl⟩

/-- The rest of a create: the loader's frame, then what starts the thread, then the handle. -/
theorem finish_returns {t : Thread} (hobject : Handles.hasObject s.objs t.ethread) (p : CreateThread) (id : BitVec 32)
    (loader : Op G Unit) {hold : Act G Unit} (hhold : ∀ s, ∃ threads, hold s = .ok () { s with threads }) :
    Returns (lift loader >>= fun _ => hold >>= fun _ => finishCreate m p (id, t)) s
        (fun status _ => ¬ status ≠ .success) ↔
      Returns loader s.guest fun _ w => t.ethread ≠ 0 ∧
        Opens m s p.threadHandle t.ethread p.desiredAccess (writeThreadAttributes m id t p.attributeList) w := by
  rw [returns_bind, returns_lift]
  refine returns_congr fun _ w => ?_
  obtain ⟨threads, hthreads⟩ := hhold { s with guest := w }
  rw [returns_bind, returns_ok hthreads, finishCreate]
  by_cases hzero : t.ethread = 0
  · rw [if_pos hzero, returns_pure]
    exact iff_of_false (fun h => h nofun) fun h => h.1 hzero
  · rw [if_neg hzero, and_iff_right hzero]
    exact openEthread_opens (s := { s with guest := w, threads }) hobject _ _ _

theorem enter_returns (hemulator : s.emulator = true) (id : BitVec 32) (t : Thread) (args : List Nat)
    {rest : Act G Status} {P : G → Prop}
    (hrest : ∀ w threads readyQueue, Returns rest { s with guest := w, threads, readyQueue }
      (fun status _ => ¬ status ≠ .success) ↔ P w) :
    Returns (enterThread m id t args >>= fun _ => rest) s (fun status _ => ¬ status ≠ .success) ↔
      Returns (m.setFrame t args) s.guest fun _ w =>
        Returns (s.notifyThread.forM fun routine => m.callNotify routine t.pid id) w fun _ w => P w := by
  unfold enterThread
  rw [returns_bind, returns_bind, returns_modify, returns_bind, returns_lift]
  refine returns_congr fun _ w => ?_
  rw [returns_bind, returns_modify, returns_bind, returns_get]
  show Returns (if s.emulator then _ else _) _ _ ↔ _
  rw [if_pos hemulator, returns_lift]
  exact returns_congr fun _ w => hrest w _ _

theorem silent_finishCreate (a : Addr) (p : CreateThread) (made : BitVec 32 × Thread) :
    Silent (fun s => s.books.pointers a) (finishCreate m p made) :=
  Silent.ite (Silent.pure _) (silent_openEthread a _ _ _ _)

theorem silent_enterThread (a : Addr) (id : BitVec 32) (t : Thread) (args : List Nat) :
    Silent (fun s => s.books.pointers a) (enterThread m id t args) := by
  unfold enterThread
  refine Silent.bind (Silent.modify fun _ => rfl) fun _ => (silent_pointers a _).bind fun _ => ?_
  refine Silent.bind (Silent.modify fun _ => rfl) fun _ => Silent.get.bind fun s => ?_
  exact Silent.ite (silent_pointers a _) (Silent.pure _)

theorem allocateId_ok : allocateId s = .ok s.nextId { s with nextId := s.nextId + 4 } := rfl

theorem hasObject_putObject (objs : Handles.State HostKind) (a : Addr) (entry : Handles.ObjectEntry HostKind) :
    Handles.hasObject (objs.putObject a entry) a := by
  unfold Handles.hasObject
  rw [Handles.objects_putObject, if_pos rfl]
  rfl

theorem header_putObject (objs : Handles.State HostKind) (a b : Addr) (entry : Handles.ObjectEntry HostKind) :
    (objs.putObject a entry).header b = if b = a then entry.header else objs.header b := by
  unfold Handles.State.header
  rw [Handles.objects_putObject]
  split
  · rfl
  · rfl

theorem header_of_new {a : Addr} (h : Handles.hasObject objs a = false) :
    objs.header a = none := by
  unfold Handles.State.header
  rw [Option.isSome_eq_false_iff.mp h |> Option.isNone_iff_eq_none.mp]
  rfl

theorem setupEthread_traceless (hemulator : s.emulator = true) {rest : Addr → Act G Status}
    (hrest : ∀ a, Silent (fun s => s.books.pointers a) (rest a)) :
    Attempt.Traceless State.books (fun status => status ≠ .success) (setupEthread m >>= rest) s ↔
      ∀ base w, m.alloc (m.objectHeaderSize + m.ethreadSize) s.guest = .ok base w →
        Handles.hasObject s.objs (wrap (base + m.objectHeaderSize)) = true ∨
          Returns (rest (wrap (base + m.objectHeaderSize)))
            { s with
              guest := w
              objs := s.objs.putObject (wrap (base + m.objectHeaderSize)) ⟨some ⟨1, 0⟩, some .thread⟩ }
            fun status _ => ¬ status ≠ .success := by
  rw [traceless_mark (fun body b => b.pointers body) ?_ ?_ hrest]
  · constructor
    · intro h base w hbase
      by_cases hobject : Handles.hasObject s.objs (wrap (base + m.objectHeaderSize)) = true
      · exact Or.inl hobject
      · exact Or.inr (h _ _ ((setupEthread_ok hemulator).mpr ⟨base, w, hbase, rfl, Bool.not_eq_true _ ▸ hobject, rfl⟩))
    · intro h body s' hmade
      obtain ⟨base, w, hbase, rfl, hnew, rfl⟩ := (setupEthread_ok hemulator).mp hmade
      refine (h base w hbase).resolve_left fun hobject => ?_
      rw [hobject] at hnew
      cases hnew
  · intro e s' hfailed
    obtain ⟨w, rfl⟩ := setupEthread_error hemulator hfailed
    rfl
  · intro body s' hmade
    obtain ⟨base, w, -, rfl, hnew, rfl⟩ := (setupEthread_ok hemulator).mp hmade
    show ((s.objs.putObject _ _).header _).map _ ≠ (s.objs.header _).map _
    rw [header_putObject, if_pos rfl, header_of_new hnew]
    nofun

theorem create_traceless (k : Kernel G) (p : CreateThread) (args : List Nat) (stackSize : Nat)
    (loader : Thread → Op G Unit) (hold : BitVec 32 → Act G Unit)
    (hhold : ∀ id s, ∃ threads, hold id s = .ok () { s with threads }) :
    Attempt.Traceless State.books (fun status => status ≠ .success)
        (createSuspendedThread m p.caller args stackSize >>= fun made =>
          lift (loader made.2) >>= fun _ => hold made.1 >>= fun _ => finishCreate m p made) k.state ↔
      p.Makes m k.state args stackSize loader := by
  unfold createSuspendedThread CreateThread.Makes
  dsimp only
  rw [bind_assoc, traceless_ok allocateId_ok rfl, bind_assoc, traceless_lift, Prod.forall]
  refine forall_congr' fun stack => forall_congr' fun teb => forall_congr' fun w => imp_congr_right fun hstack => ?_
  dsimp only
  rw [bind_assoc, setupEthread_traceless (by exact k.sound.attached)]
  · refine forall_congr' fun base => forall_congr' fun w' => imp_congr_right fun hbase => or_congr_right ?_
    rw [bind_assoc, returns_bind, returns_get, bind_assoc]
    refine enter_returns (by exact k.sound.attached) _ _ _ fun w threads readyQueue => ?_
    rw [pure_bind]
    exact finish_returns (hasObject_putObject _ _ _) _ _ _ (hhold _)
  · intro a
    refine Silent.bind (Silent.get.bind fun s => ?_) fun made => ?_
    · exact (silent_enterThread a _ _ _).bind fun _ => Silent.pure _
    refine (silent_pointers a _).bind fun _ => Silent.bind (fun s => ?_) fun _ => silent_finishCreate a p made
    obtain ⟨threads, hthreads⟩ := hhold made.1 s
    rw [hthreads]
    rfl

theorem createSystemThread_traceless (k : Kernel G) (p : CreateThread) (hcaller : p.caller = none) :
    Attempt.Traceless State.books (fun status => status ≠ .success)
        (createSystemThread m p >>= finishCreate m p) k.state ↔
      p.Makes m k.state [p.argument] 0 fun _ => pure () := by
  have h := create_traceless (m := m) k p [p.argument] 0 (fun _ => pure ()) start fun id s => ⟨_, rfl⟩
  rw [hcaller] at h
  unfold createSystemThread
  rw [bind_assoc]
  exact h

theorem createUserThread_traceless (k : Kernel G) (p : CreateThread) {pid : BitVec 32} (hcaller : p.caller = some pid) :
    Attempt.Traceless State.books (fun status => status ≠ .success)
        (createUserThread m p pid >>= finishCreate m p) k.state ↔
      p.Makes m k.state [] p.stack fun t => m.setupLoaderFrame t p.startRoutine p.argument := by
  unfold createUserThread
  by_cases hsuspended : p.createFlags &&& threadCreateSuspended ≠ 0
  · have h := create_traceless (m := m) k p [] p.stack (fun t => m.setupLoaderFrame t p.startRoutine p.argument)
      (fun id => suspend id >>= fun _ => start id) fun id s => ⟨_, rfl⟩
    rw [hcaller] at h
    simp only [if_pos hsuspended, bind_assoc] at h ⊢
    exact h
  · have h := create_traceless (m := m) k p [] p.stack (fun t => m.setupLoaderFrame t p.startRoutine p.argument)
      start fun id s => ⟨_, rfl⟩
    rw [hcaller] at h
    simp only [if_neg hsuspended, bind_assoc] at h ⊢
    exact h

theorem ntCreateThreadEx_traceless (k : Kernel G) (p : CreateThread) :
    (Service.ntCreateThreadEx p).Traceless m k.state ↔ p.Clean m k.state := by
  unfold Service.Traceless Service.run ntCreateThreadEx CreateThread.Clean
  by_cases hnull : p.threadHandle = 0 ∨ p.startRoutine = 0
  · simp only [if_pos hnull]
    exact iff_of_true ((Silent.pure _).traceless _) (Or.inl hnull)
  simp only [if_neg hnull]
  rw [or_iff_right hnull]
  by_cases hprocess : p.processHandle ≠ 0 ∧ p.processHandle ≠ currentProcessHandle
  · simp only [if_pos hprocess]
    exact iff_of_true ((Silent.pure _).traceless _) (Or.inl hprocess)
  simp only [if_neg hprocess]
  rw [or_iff_right hprocess]
  cases hcaller : p.caller with
  | none => exact createSystemThread_traceless k p hcaller
  | some pid =>
    dsimp only
    rw [traceless_get, k.sound.attached]
    cases hloader : k.state.loaderStartup pid with
    | false => exact iff_of_true ((Silent.pure _).traceless _) (Or.inl rfl)
    | true =>
      exact (createUserThread_traceless k p hcaller).trans (or_iff_right (by nofun)).symm

/-! ## What every service keeps -/

theorem State.Sound.edit (hs : s.Sound)
    (hheader : ∀ a, (s.objs.header a).isSome → (objs.header a).isSome) : { s with objs }.Sound :=
  ⟨hs.attached, fun id t ht hne => hheader _ (hs.ethreads id t ht hne)⟩

theorem isSome_editHeader {a : Addr} (b : Addr) (edit : Handles.Header → Handles.Header)
    (h : (objs.header a).isSome) : ((objs.editHeader b edit).header a).isSome := by
  rw [Handles.header_editHeader]
  split
  · rwa [Option.isSome_map]
  · exact h

theorem leads_lift {α : Type} (x : Op G α) : Leads State.Sound (lift x) (fun _ => State.Sound) State.Sound := by
  intro s hs
  unfold lift
  cases x s.guest with
  | ok a w => exact ⟨hs.attached, hs.ethreads⟩
  | error e w => exact ⟨hs.attached, hs.ethreads⟩

theorem leads_createHandle (object : Addr) (access : Access) :
    Leads State.Sound (createHandle (G := G) object access) (fun _ => State.Sound) State.Sound := by
  intro s hs
  refine hs.edit fun a ha => ?_
  by_cases hobject : Handles.hasObject s.objs object
  · rw [Handles.createHandle_eq hobject]
    exact isSome_editHeader object _ ha
  · rwa [Handles.createHandle_none hobject]

theorem leads_openEthread (threadHandle ethread : Addr) (desiredAccess : Access) (done : Op G Unit) :
    Leads State.Sound (openEthread m threadHandle ethread desiredAccess done) (fun _ => State.Sound) State.Sound := by
  unfold openEthread
  refine (leads_lift _).bind fun type => (Leads.get fun s hs => hs).bind fun s => (leads_lift _).bind fun access => ?_
  refine Leads.ite (Leads.pure fun s hs => hs) ?_
  refine (leads_createHandle _ _).bind fun handle => (leads_lift _).bind fun _ => ?_
  refine (Leads.get fun s hs => hs).bind fun s => (leads_lift _).bind fun _ => (leads_lift _).bind fun _ => ?_
  exact Leads.pure fun s hs => hs

theorem leads_ntOpenThread (p : OpenThread) :
    Leads State.Sound (ntOpenThread m p) (fun _ => State.Sound) State.Sound := by
  unfold ntOpenThread
  refine Leads.ite (Leads.pure fun s hs => hs) ((leads_lift _).bind fun _ => ?_)
  refine Leads.ite (Leads.pure fun s hs => hs) ((leads_lift _).bind fun tid => ?_)
  refine (Leads.get fun s hs => hs).bind fun s => Leads.ite (Leads.pure fun s hs => hs) ?_
  exact Leads.bind (Leads.modify fun s hs => hs.edit fun a ha => isSome_editHeader _ _ ha) fun _ =>
    leads_openEthread _ _ _ _

theorem State.Sound.editThread (hs : s.Sound) (id : BitVec 32) {edit : Thread → Thread}
    (hedit : ∀ t, (edit t).ethread = t.ethread) : (s.editThread id edit).Sound := by
  refine ⟨hs.attached, fun i t ht hne => ?_⟩
  unfold State.editThread at ht ⊢
  dsimp only at ht ⊢
  by_cases hid : i = id
  · rw [hid, Function.update_self, Option.map_eq_some_iff] at ht
    obtain ⟨old, hold, rfl⟩ := ht
    rw [hedit] at hne ⊢
    exact hs.ethreads id old hold hne
  · rw [Function.update_of_ne hid] at ht
    exact hs.ethreads i t ht hne

theorem State.Sound.putThread (hs : s.Sound) (id : BitVec 32) {t : Thread} (ht : (s.objs.header t.ethread).isSome) :
    (s.putThread id t).Sound := by
  refine ⟨hs.attached, fun i t' ht' hne => ?_⟩
  unfold State.putThread at ht' ⊢
  dsimp only at ht' ⊢
  by_cases hid : i = id
  · rw [hid, Function.update_self] at ht'
    cases ht'
    exact ht
  · rw [Function.update_of_ne hid] at ht'
    exact hs.ethreads i t' ht' hne

theorem leads_setupEthread :
    Leads State.Sound (setupEthread m) (fun ethread s => s.Sound ∧ (s.objs.header ethread).isSome) State.Sound := by
  intro s hs
  cases h : setupEthread m s with
  | error e s' =>
    obtain ⟨w, rfl⟩ := setupEthread_error hs.attached h
    exact ⟨hs.attached, hs.ethreads⟩
  | ok body s' =>
    obtain ⟨base, w, -, -, hnew, rfl⟩ := (setupEthread_ok hs.attached).mp h
    refine ⟨State.Sound.edit (s := { s with guest := w }) ⟨hs.attached, hs.ethreads⟩ fun a ha => ?_, ?_⟩
    · rw [header_putObject]
      split
      · rfl
      · exact ha
    · dsimp only
      rw [header_putObject, if_pos rfl]
      rfl

theorem leads_enterThread (id : BitVec 32) (t : Thread) (args : List Nat) :
    Leads (fun s => s.Sound ∧ (s.objs.header t.ethread).isSome) (enterThread m id t args) (fun _ => State.Sound)
      State.Sound := by
  unfold enterThread
  refine Leads.bind (Leads.modify fun s hs => hs.1.putThread id hs.2) fun _ => (leads_lift _).bind fun _ => ?_
  refine Leads.bind (Q := fun _ => State.Sound) (fun s hs => ⟨hs.attached, hs.ethreads⟩) fun _ => ?_
  exact (Leads.get fun s hs => hs).bind fun s => Leads.ite (leads_lift _) (Leads.pure fun s hs => hs)

theorem leads_createSuspendedThread (caller : Option (BitVec 32)) (args : List Nat) (stackSize : Nat) :
    Leads State.Sound (createSuspendedThread m caller args stackSize) (fun _ => State.Sound) State.Sound := by
  unfold createSuspendedThread
  refine Leads.bind (Q := fun _ => State.Sound) (fun s hs => ⟨hs.attached, hs.ethreads⟩) fun id => ?_
  refine (leads_lift _).bind fun _ => leads_setupEthread.bind fun ethread => ?_
  have hget : Leads (fun s => s.Sound ∧ (s.objs.header ethread).isSome) (get : Act G (State G))
      (fun _ s => s.Sound ∧ (s.objs.header ethread).isSome) State.Sound := Leads.get fun s hs => hs
  refine hget.bind fun s => Leads.bind ?_ fun _ => Leads.pure fun s hs => hs
  exact leads_enterThread id { ethread, .. } args

theorem leads_ntCreateThreadEx (p : CreateThread) :
    Leads State.Sound (ntCreateThreadEx m p) (fun _ => State.Sound) State.Sound := by
  have hfinish : ∀ made, Leads State.Sound (finishCreate m p made) (fun _ => State.Sound) State.Sound := fun made =>
    Leads.ite (Leads.pure fun s hs => hs) (leads_openEthread _ _ _ _)
  have hstart : ∀ id, Leads State.Sound (start (G := G) id) (fun _ => State.Sound) State.Sound := fun id =>
    Leads.modify fun s hs => hs.editThread id fun t => rfl
  have hsuspend : ∀ id, Leads State.Sound (suspend (G := G) id) (fun _ => State.Sound) State.Sound := fun id =>
    Leads.modify fun s hs => hs.editThread id fun t => rfl
  unfold ntCreateThreadEx
  refine Leads.ite (Leads.pure fun s hs => hs) (Leads.ite (Leads.pure fun s hs => hs) ?_)
  split
  · unfold createSystemThread
    refine Leads.bind ?_ hfinish
    exact (leads_createSuspendedThread _ _ _).bind fun made => (hstart _).bind fun _ => Leads.pure fun s hs => hs
  · refine (Leads.get fun s hs => hs).bind fun s => Leads.ite (Leads.pure fun s hs => hs) ?_
    refine Leads.ite (Leads.pure fun s hs => hs) (Leads.bind ?_ hfinish)
    unfold createUserThread
    refine (leads_createSuspendedThread _ _ _).bind fun made => (leads_lift _).bind fun _ => ?_
    have hmade : Leads State.Sound (start made.1 >>= fun _ => pure (made.1, made.2) : Act G _) (fun _ => State.Sound)
      State.Sound := (hstart _).bind fun _ => Leads.pure fun s hs => hs
    refine Leads.ite ?_ hmade
    exact Leads.bind (hsuspend _) fun _ => hmade

theorem leads_service (p : Service) : Leads State.Sound (p.run m) (fun _ => State.Sound) State.Sound := by
  cases p with
  | ntCreateThreadEx p => exact leads_ntCreateThreadEx p
  | ntOpenThread p => exact leads_ntOpenThread p

def Kernel.run (k : Kernel G) (p : Service) : Kernel G := ⟨last (p.run m k.state), (leads_service p).last k.sound⟩

/-! ## Failing without a trace -/

/-- A service that fails leaves the threads, the handles and the counts as they were exactly where it is refused before
it has done anything to them, or where it does not fail. -/
theorem failure_traceless_iff (m : Machine G) (k : Kernel G) (p : Service) :
    p.Traceless m k.state ↔ p.Clean m k.state := by
  cases p with
  | ntCreateThreadEx p => exact ntCreateThreadEx_traceless k p
  | ntOpenThread p => exact ntOpenThread_traceless k p

def denying : Machine Unit where
  alloc _ := pure 0x1000
  allocUser _ _ := pure 0x2000
  readMem _ _ := pure 8
  writeMem _ _ _ := pure ()
  writeTeb _ _ _ := pure ()
  setFrame _ _ := pure ()
  setupLoaderFrame _ _ _ := pure ()
  psThreadType := pure 0x40
  callNotify _ _ _ := pure ()
  callPre _ _ _ := pure 0
  callPost _ _ _ := pure ()
  objectHeaderSize := 0x30
  ethreadSize := 0x900

def denyingState : State Unit where
  objs := Handles.State.putObject {} 0x800 ⟨some ⟨1, 0⟩, some .thread⟩
  nextId := 12
  threads _ := none
  readyQueue := []
  emulator := true
  sysPid := 4
  loaderStartup _ := false
  notifyThread := []
  obRegistrations := [⟨⟨0x5000, 0, 0x40, 1⟩, 0⟩]
  guest := ()

def denyingKernel : Kernel Unit where
  state := denyingState.putThread 8 { pid := 4, stackBase := 0, stackSize := 0x10000, teb := 0, ethread := 0x800 }
  sound := State.Sound.putThread ⟨rfl, fun _ t ht => absurd ht.symm (Option.some_ne_none t)⟩ 8 rfl

def deniedOpen : Service := .ntOpenThread { threadHandle := 0x7000, desiredAccess := 1, clientId := 0x7100 }

def deniedCreate : Service := .ntCreateThreadEx {
  threadHandle := 0x7000, desiredAccess := 1, processHandle := currentProcessHandle, startRoutine := 0x9000,
  argument := 0, createFlags := 0, stackSize := 0, maximumStackSize := 0, attributeList := 0, caller := none }

/-- Denied, the one keeps its reference and the other leaves its thread scheduled. -/
theorem denied_leaves_trace : ¬ deniedOpen.Traceless denying denyingKernel.state ∧
    ¬ deniedCreate.Traceless denying denyingKernel.state := by
  constructor
  · refine not_traceless (b := .accessDenied) (fun b => b.pointers 0x800) ?_ nofun ?_
    · decide +kernel
    · decide +kernel
  · refine not_traceless (b := .accessDenied) Books.readyQueue ?_ nofun ?_
    · decide +kernel
    · decide +kernel

end Kernemul.ThreadServices
