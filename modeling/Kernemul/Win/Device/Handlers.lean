import Kernemul.Win.Pool.Heap

/-!
# Handles on devices

Opening a device allocates a file object and a buffer for its name from the pool, sends the driver
`IRP_MJ_CREATE` and makes an object and a handle for the open. `NtClose` sends `IRP_MJ_CLEANUP` and
`IRP_MJ_CLOSE` and gives the file object back; `NtDuplicateObject` and `ObOpenObjectByPointer` make more
handles for the same object.

What a driver does with a request is its answer; it is taken to leave the pool and the handles alone.
Calls end without a result when guest memory runs out. `opens` is what is open: an open is over when a
handle that is closed is the last one that names its object.
-/

namespace Kernemul.Device

open Segments

/-- An `NTSTATUS`; the top bit says that it is an error. -/
abbrev Status := BitVec 32

def statusSuccess : Status := 0x00000000
def statusInvalidHandle : Status := 0xC0000008
def statusInvalidParameter : Status := 0xC000000D
def statusInvalidDeviceRequest : Status := 0xC0000010
def statusAccessDenied : Status := 0xC0000022
def statusInsufficientResources : Status := 0xC000009A

/-- `sizeof(_FILE_OBJECT)`. -/
def fileObjectSize : Nat := 0xD8

/-- `sizeof(_IRP) + irp_stack_count * sizeof(_IO_STACK_LOCATION)`. -/
def irpSize : Nat := 0xD0 + 1 * 0x48

/-- `sizeof(_OBJECT_HEADER)`. -/
def objectHeaderSize : Nat := 0x38

/-- `pool_tag("File")`. -/
def fileTag : BitVec 32 := 0x656C6946

/-- `pool_tag("Name")`. -/
def nameTag : BitVec 32 := 0x656D614E

/-- `irp_pool_tag`. -/
def irpTag : BitVec 32 := 0x20707249

/-! ## State -/

inductive Major
  | create
  | cleanup
  | close
  deriving DecidableEq, Repr

structure Driver where
  handles : Major → Bool

structure FileHost where
  path : List UInt8
  deviceObject : Nat
  fileObject : Nat

def FileHost.isDevice (host : FileHost) : Bool := host.deviceObject != 0

inductive Host
  | file (host : FileHost)
  | device (driver : Driver)
  | thread
  | other

structure Header where
  pointerCount : Int
  handleCount : Int

structure ObjectEntry where
  header : Option Header
  host : Host

structure HandleEntry where
  bodyAddr : Nat
  access : BitVec 32

structure UnicodeString where
  length : Nat
  maximumLength : Nat
  buffer : Nat

/-- A `_FILE_OBJECT` in guest memory. -/
structure FileObject where
  deviceObject : Nat
  fileName : UnicodeString

/-- A request a driver received, with the object of the open it is about. -/
structure Irp where
  major : Major
  deviceObject : Nat
  fileObject : Nat
  about : Option Nat

/-- An open of a device: its object, and what it has from the pool. -/
structure Open where
  body : Nat
  fileObject : Nat
  nameBuffer : Nat
  nameSize : Nat

/-- The state the handlers share. The kernel half of the address space is handed out from `kernelNext`
on, as long as there are frames. -/
structure State where
  wcharSize : Nat
  kernelNext : Nat
  physLeft : Nat
  pool : Pool.World
  objects : Nat → Option ObjectEntry
  handles : AList fun _ : Nat => HandleEntry
  nextHandle : Nat
  fileObjects : Nat → Option FileObject
  irps : List Irp
  opens : List Open

/-! ## Memory -/

/-- `addr_space::alloc` of supervisor pages; `none` when there are no frames for them. -/
def State.alloc (s : State) (size : Nat) : Option (Nat × State) :=
  let aligned := sizeAlign size
  if aligned ≤ s.physLeft then
    some (s.kernelNext,
      { s with kernelNext := wrap (s.kernelNext + aligned), physLeft := s.physLeft - aligned })
  else none

/-- `pool.allocate`, when `alloc` is what the address space answers it. -/
def State.poolTake (s : State) (size : Nat) (tag : BitVec 32) (alloc : Option Nat) :
    Option (Nat × State) := do
  let (addr, _) ← Pool.allocate s.pool.blocks size tag alloc
  let pool ← Pool.step s.pool (.allocate size tag alloc)
  return (addr, { s with pool })

/-- `pool.allocate`, with a run from the address space when no block has room. -/
def State.poolAllocate (s : State) (size : Nat) (tag : BitVec 32) : Option (Nat × State) :=
  match Pool.newRun s.pool.blocks size (some s.kernelNext) with
  | none => s.poolTake size tag none
  | some run => do
    let (base, s) ← s.alloc run.size
    s.poolTake size tag (some base)

def State.poolFree (s : State) (addr : Nat) : State :=
  { s with pool := (Pool.step s.pool (.free addr)).getD s.pool }

/-! ## Objects and handles -/

def Host.driver? : Host → Option Driver
  | .device driver => some driver
  | _ => none

def Host.file? : Host → Option FileHost
  | .file host => some host
  | _ => none

/-- `objs.get_object<device_host>(addr)`. -/
def State.driver (s : State) (addr : Nat) : Option Driver :=
  (s.objects addr).bind fun e => e.host.driver?

/-- `objs.get_object<file_host>(addr)`. -/
def State.fileHost (s : State) (addr : Nat) : Option FileHost :=
  (s.objects addr).bind fun e => e.host.file?

/-- `objs.get_object<thread_object>(addr)` is there. -/
def State.isThread (s : State) (addr : Nat) : Bool :=
  match (s.objects addr).map ObjectEntry.host with
  | some .thread => true
  | _ => false

/-- The counts in an object's header; an object that was registered without one has none. -/
def State.count (s : State) (addr : Nat) (f : Header → Header) : State :=
  { s with objects := fun a =>
      if a = addr then (s.objects a).map fun e => { e with header := e.header.map f }
      else s.objects a }

def State.referenceObject (s : State) (addr : Nat) : State :=
  s.count addr fun h => { h with pointerCount := h.pointerCount + 1 }

/-- `objs.create_object` for a file host. -/
def State.createObject (s : State) (bodySize : Nat) (host : FileHost) : Option (Nat × State) := do
  let (base, s) ← s.alloc (objectHeaderSize + bodySize)
  let addr := base + objectHeaderSize
  return (addr, { s with objects := Function.update s.objects addr (some ⟨some ⟨1, 0⟩, .file host⟩) })

/-- `handle_table().create_handle` answers 0 for what is not an object. -/
def State.createHandle (s : State) (bodyAddr : Nat) (access : BitVec 32) : Nat × State :=
  if (s.objects bodyAddr).isNone then (0, s)
  else
    let handle := s.nextHandle
    let s := { s with nextHandle := handle + 4, handles := s.handles.insert handle ⟨bodyAddr, access⟩ }
    (handle, s.count bodyAddr fun h => { h with handleCount := h.handleCount + 1 })

def State.named (s : State) (bodyAddr : Nat) : Bool :=
  s.handles.entries.any fun e => e.2.bodyAddr = bodyAddr

def State.closeHandle (s : State) (handle : Nat) : Bool × State :=
  match s.handles.lookup handle with
  | none => (false, s)
  | some e =>
    let s := { s with handles := s.handles.erase handle }
    let s := s.count e.bodyAddr fun h => { h with handleCount := h.handleCount - 1 }
    (true, if s.named e.bodyAddr then s
      else { s with opens := s.opens.filter fun o => o.body ≠ e.bodyAddr })

/-! ## Requests -/

/-- `dispatch_irp`: the driver gets the request when it has a routine for it, and `answer` is what it
leaves in it. -/
def State.dispatchIrp (s : State) (major : Major) (deviceObject fileObject : Nat) (about : Option Nat)
    (answer : Status) : Option (Status × State) :=
  match s.driver deviceObject with
  | none => some (statusInvalidParameter, s)
  | some driver =>
    if !driver.handles major then some (statusInvalidDeviceRequest, s)
    else do
      let (request, s) ← s.poolAllocate irpSize irpTag
      if request = 0 then return (statusInsufficientResources, s)
      else
        let irp : Irp := ⟨major, deviceObject, fileObject, about⟩
        let s := { s with irps := s.irps ++ [irp] }
        return (answer, s.poolFree request)

/-! ## Handlers -/

/-- `static_cast<std::uint16_t>(path.size() * sizeof(wchar_t))`. -/
def State.nameLength (s : State) (path : List UInt8) : Nat := path.length * s.wcharSize % 2 ^ 16

def State.nameBuffer (s : State) (path : List UInt8) : Option (Nat × State) :=
  if s.nameLength path = 0 then some (0, s)
  else s.poolAllocate (s.nameLength path + s.wcharSize) nameTag

/-- `FileName` of a new file object. -/
def fileName (nameLength wcharSize nameBuffer : Nat) : UnicodeString :=
  if nameBuffer = 0 then ⟨0, 0, 0⟩
  else ⟨nameLength, (nameLength + wcharSize) % 2 ^ 16, nameBuffer⟩

/-- The end of `open_device`, when the driver accepted: an object for the open, and a handle for it when
the caller wants one. -/
def State.finishOpen (s : State) (device : Nat) (path : List UInt8) (fileHandle : Bool)
    (fileObject nameBuffer : Nat) : Option (Status × State) := do
  let (addr, s) ← s.createObject 8 ⟨path, device, fileObject⟩
  if addr = 0 then return (statusInsufficientResources, s.poolFree fileObject)
  else
    let s := { s with opens :=
      ⟨addr, fileObject, nameBuffer, s.nameLength path + s.wcharSize⟩ :: s.opens }
    return (statusSuccess, if fileHandle then (s.createHandle addr 0).2 else s)

/-- `open_device`; `answer` is what the driver answers `IRP_MJ_CREATE`. -/
def State.openDevice (s : State) (device : Nat) (path : List UInt8) (fileHandle : Bool)
    (answer : Status) : Option (Status × State) := do
  let (fileObject, s) ← s.poolAllocate fileObjectSize fileTag
  if fileObject = 0 then return (statusInsufficientResources, s)
  else
    let (nameBuffer, s) ← s.nameBuffer path
    let body : FileObject := ⟨device, fileName (s.nameLength path) s.wcharSize nameBuffer⟩
    let s := { s with fileObjects := Function.update s.fileObjects fileObject (some body) }
    let (status, s) ← s.dispatchIrp .create device fileObject none answer
    if status.msb then return (status, s.poolFree fileObject)
    else s.finishOpen device path fileHandle fileObject nameBuffer

inductive Answer
  | status (status : Status)
  /-- The call did not return to its caller: it wrote to memory that is not mapped. -/
  | faulted
  deriving DecidableEq

/-- `NtCreateFile` and `NtOpenFile` on a name that leads to the device object `device`. -/
def createFile (s : State) (device : Nat) (path : List UInt8) (fileHandle : Operand) (answer : Status) :
    Option (Answer × State) :=
  -- the handle is cleared before anything else
  if fileHandle = .unmapped then some (.faulted, s)
  else (s.openDevice device path (fileHandle = .mapped) answer).map fun (status, s) => (.status status, s)

/-- The requests and the free that `NtClose` makes for a handle on a device; what the driver answers is
not looked at. -/
def State.endOpen (s : State) (handle : Nat) : Option State :=
  match s.handles.lookup handle with
  | none => some s
  | some e =>
    match s.fileHost e.bodyAddr with
    | none => some s
    | some host =>
      if host.isDevice then do
        let (_, s) ← s.dispatchIrp .cleanup host.deviceObject host.fileObject (some e.bodyAddr) 0
        let (_, s) ← s.dispatchIrp .close host.deviceObject host.fileObject (some e.bodyAddr) 0
        return s.poolFree host.fileObject
      else some s

/-- The `NtClose` handler. -/
def close (s : State) (handle : Nat) : Option (Answer × State) := do
  let s ← s.endOpen handle
  let (closed, s) := s.closeHandle handle
  return (.status (if closed then statusSuccess else statusInvalidHandle), s)

def currentProcessHandle : Nat := 2 ^ 64 - 1
def duplicateCloseSource : BitVec 32 := 0x1
def duplicateSameAccess : BitVec 32 := 0x2

/-- The handle that `NtDuplicateObject` and `ObOpenObjectByPointer` make. For a thread `allowed` is the
access the registered callbacks leave; `none` when they leave none. -/
def State.newHandle (s : State) (object : Nat) (access allowed : BitVec 32) : Option (Nat × State) :=
  if s.isThread object ∧ allowed = 0 then none
  else some ((s.referenceObject object).createHandle object (if s.isThread object then allowed else access))

/-- What `NtDuplicateObject` is given. -/
structure DuplicateArgs where
  sourceProcess : Nat
  sourceHandle : Nat
  targetProcess : Nat
  targetHandle : Operand
  desiredAccess : BitVec 32
  options : BitVec 32

/-- The `NtDuplicateObject` handler. -/
def duplicateObject (s : State) (a : DuplicateArgs) (allowed : BitVec 32) : Answer × State :=
  if a.sourceProcess ≠ currentProcessHandle ∨ a.targetProcess ≠ currentProcessHandle then
    (.status statusInvalidHandle, s)
  else
    match s.handles.lookup a.sourceHandle with
    | none => (.status statusInvalidHandle, s)
    | some e =>
      let access := if a.options &&& duplicateSameAccess ≠ 0 then e.access else a.desiredAccess
      match s.newHandle e.bodyAddr access allowed with
      | none => (.status statusAccessDenied, s)
      | some (_, s) =>
        if a.targetHandle = .unmapped then (.faulted, s)
        else (.status statusSuccess,
          if a.options &&& duplicateCloseSource ≠ 0 then (s.closeHandle a.sourceHandle).2 else s)

/-- The `ObOpenObjectByPointer` handler. -/
def openObjectByPointer (s : State) (object : Nat) (desiredAccess allowed : BitVec 32)
    (handle : Operand) : Answer × State :=
  if handle = .null then (.status statusInvalidParameter, s)
  else
    match s.newHandle object desiredAccess allowed with
    | none => (.status statusAccessDenied, s)
    | some (_, s) => (if handle = .unmapped then .faulted else .status statusSuccess, s)

/-! ## Runs -/

inductive Call
  | createFile (device : Nat) (path : List UInt8) (fileHandle : Operand) (answer : Status)
  | close (handle : Nat)
  | duplicate (a : DuplicateArgs) (allowed : BitVec 32)
  | openByPointer (object : Nat) (desiredAccess allowed : BitVec 32) (handle : Operand)

def perform (s : State) : Call → Option (Answer × State)
  | .createFile device path fileHandle answer => Device.createFile s device path fileHandle answer
  | .close handle => Device.close s handle
  | .duplicate a allowed => some (duplicateObject s a allowed)
  | .openByPointer object desiredAccess allowed handle =>
    some (openObjectByPointer s object desiredAccess allowed handle)

def step (s : State) (call : Call) : Option State := (perform s call).map Prod.snd

def State.deviceHost (s : State) (body : Nat) : Option FileHost :=
  (s.fileHost body).filter FileHost.isDevice

/-- What is opened is a device, and an open of a device gets further handles as long as it has one. -/
def Call.Valid (s : State) : Call → Prop
  | .createFile device _ _ _ => device ≠ 0 ∧ (s.driver device).isSome
  | .openByPointer object _ _ _ => (s.deviceHost object).isSome → s.named object
  | _ => True

instance (s : State) : DecidablePred (Call.Valid s)
  | .createFile .. => inferInstanceAs (Decidable (_ ∧ _))
  | .close _ => inferInstanceAs (Decidable True)
  | .duplicate .. => inferInstanceAs (Decidable True)
  | .openByPointer .. => inferInstanceAs (Decidable (_ → _))

end Kernemul.Device
