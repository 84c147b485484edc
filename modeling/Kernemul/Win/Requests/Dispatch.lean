import Kernemul.Lib.Copy
import Kernemul.Win.Device.Handlers
import Mathlib.Data.UInt

/-!
# Requests to drivers

`dispatch_irp` borrows an `_IRP`, a system buffer and an mdl from the pool, calls the driver's dispatch
routine, and gives the three back when it is left. A driver completes a request with `IofCompleteRequest`,
before its routine returns or at any time after that. `sendIrp` is `dispatch_irp` up to the call of the routine
and `finishIrp` is the rest of it; between the two, and for several requests at a time, anything else goes on.

Memory is by byte of an address space, and an address that two pages are behind counts as one. The `_IRP`s, their
stack locations and the mdls are kept beside the bytes, by their addresses. Pool memory is mapped, so a block
can be cleared; what the guest does with its memory afterwards is not restricted. `none` as in the pool: guest
memory has run out.
-/

namespace Kernemul.Requests

open Device (Status irpSize irpTag statusSuccess statusInvalidParameter statusInvalidDeviceRequest
  statusInsufficientResources)

def statusPending : Status := 0x00000103

/-- `pool_tag("Mdl ")`. -/
def mdlTag : BitVec 32 := 0x206C644D

def irpMjDeviceControl : UInt8 := 0x0E

inductive Method
  | buffered
  | inDirect
  | outDirect
  | neither
  deriving DecidableEq, Repr

def controlCodeMethod (code : BitVec 32) : Method :=
  if code &&& 3 = 0 then .buffered
  else if code &&& 3 = 1 then .inDirect
  else if code &&& 3 = 2 then .outDirect
  else .neither

def irpBufferedIo : BitVec 32 := 0x00000010
def irpDeallocateBuffer : BitVec 32 := 0x00000020
def irpInputOperation : BitVec 32 := 0x00000040

def mdlPageBase (addr : Nat) : Nat := pageAlign addr
def mdlPageOffset (addr : Nat) : Nat := addr % pageSize
def mdlPageCount (va bytes : Nat) : Nat := (mdlPageOffset va + bytes + pageSize - 1) / pageSize
def mdlSize (va bytes : Nat) : Nat := 0x30 + mdlPageCount va bytes * 8

/-! ## Requests -/

structure Request where
  major : UInt8 := irpMjDeviceControl
  deviceObject : Nat := 0
  fileObject : Nat := 0
  controlCode : BitVec 32 := 0
  inputBuffer : Nat := 0
  inputLength : UInt32 := 0
  outputBuffer : Nat := 0
  outputLength : UInt32 := 0
  deriving DecidableEq, Repr

structure Result where
  status : Status
  information : UInt64
  deriving DecidableEq, Repr

namespace Request

variable (r : Request)

def isControl : Bool := r.major = irpMjDeviceControl

def method : Method := if r.isControl then controlCodeMethod r.controlCode else .buffered

def copiesOut : Bool := r.isControl && r.method = .buffered

def copiesIn : Bool := r.isControl && r.method ≠ .neither

def needsMdl : Bool := r.isControl && (r.method = .inDirect || r.method = .outDirect)

def bufferSize : Nat :=
  if r.copiesIn then max r.inputLength.toNat (if r.copiesOut then r.outputLength.toNat else 0) else 0

def mdlBytes : Nat :=
  if r.needsMdl ∧ r.outputBuffer ≠ 0 then mdlSize r.outputBuffer r.outputLength.toNat else 0

end Request

structure Irp where
  type : Int16 := 0
  size : UInt16 := 0
  stackCount : Int8 := 0
  currentLocation : Int8 := 0
  requestorMode : Int8 := 0
  flags : BitVec 32 := 0
  mdlAddress : Nat := 0
  systemBuffer : Nat := 0
  userBuffer : Nat := 0
  currentStackLocation : Nat := 0
  status : Status := 0
  information : UInt64 := 0

/-- The test of `dispatch_irp` for a request that has been completed. -/
def Irp.completed (irp : Irp) : Bool := irp.currentLocation > irp.stackCount

structure DeviceIoControl where
  ioControlCode : BitVec 32 := 0
  inputBufferLength : UInt32 := 0
  outputBufferLength : UInt32 := 0
  type3InputBuffer : Nat := 0

structure StackLocation where
  majorFunction : UInt8 := 0
  deviceObject : Nat := 0
  fileObject : Nat := 0
  parameters : DeviceIoControl := {}

/-- `mdl_t`. -/
structure Mdl where
  size : Int16 := 0
  mdlFlags : Int16 := 0
  mappedSystemVa : Nat := 0
  startVa : Nat := 0
  byteCount : UInt32 := 0
  byteOffset : UInt32 := 0

/-- `mdl_mapped_to_system_va | mdl_pages_locked`. -/
def mdlMappedLocked : Int16 := 0x0003

/-- A call of `dispatch_irp`: the request, and the addresses of its three `pool_block`s, 0 for an empty one. -/
structure Dispatch where
  req : Request
  buffer : Nat
  mdl : Nat
  request : Nat
  deriving DecidableEq, Repr

def Dispatch.blocks (d : Dispatch) : List (Nat × Nat × BitVec 32) :=
  [(d.buffer, d.req.bufferSize, irpTag), (d.mdl, d.req.mdlBytes, mdlTag),
    (d.request, irpSize, irpTag)].filter fun e => e.1 ≠ 0

/-- `kernel` has the pool. A device object has a driver object, and that a routine for each major function,
0 for none. `dispatches` are the calls whose driver routine is running. `held` is for the statements only: the
requests that a driver has been called with and has not completed. -/
structure State where
  kernel : Device.State
  mem : Nat → Option UInt8
  devices : Nat → Option Nat
  majorFunction : Nat → UInt8 → Nat
  irps : Nat → Irp
  locations : Nat → StackLocation
  mdls : Nat → Mdl
  dispatches : List Dispatch
  held : List Dispatch

/-! ## Memory -/

/-- The addresses from `va` on. -/
def span (va : Nat) (i : Nat) : Nat := wrap (va + i)

/-- `copy_guest`: whether no page was missing, and the memory. -/
def copyGuest (mem : Nat → Option UInt8) (dst src size : Nat) : Bool × (Nat → Option UInt8) :=
  if size = 0 ∨ dst = 0 ∨ src = 0 then (true, mem)
  else Copy.copy mem (span dst) (span src) size

def zeroed (mem : Nat → Option UInt8) (addr size : Nat) : Nat → Option UInt8 := fun a =>
  if addr ≤ a ∧ a < addr + size then some 0 else mem a

namespace State

def poolBlock (s : State) (size : Nat) (tag : BitVec 32) : Option (Nat × State) :=
  if size = 0 then some (0, s)
  else (s.kernel.poolAllocate size tag).map fun (addr, kernel) =>
    (addr, { s with kernel, mem := zeroed s.mem addr size })

/-- The destructor of `pool_block`. -/
def giveBack (s : State) (addr : Nat) : State :=
  if addr = 0 then s else { s with kernel := s.kernel.poolFree addr }

def release (s : State) (d : Dispatch) : State :=
  ((s.giveBack d.request).giveBack d.mdl).giveBack d.buffer

end State

/-! ## Building and dispatching -/

def Request.toMdl (r : Request) : Mdl where
  size := Int16.ofNat (mdlSize r.outputBuffer r.outputLength.toNat)
  mdlFlags := mdlMappedLocked
  startVa := mdlPageBase r.outputBuffer
  byteOffset := UInt32.ofNat (mdlPageOffset r.outputBuffer)
  byteCount := r.outputLength
  mappedSystemVa := r.outputBuffer

/-- `body`, the request as its driver gets it. -/
def Dispatch.body (d : Dispatch) : Irp where
  type := 6
  size := 0xD0 + 0x48
  stackCount := 1
  currentLocation := 1
  requestorMode := 1
  flags :=
    if d.req.copiesIn then
      irpBufferedIo ||| irpDeallocateBuffer ||| (if d.req.inputLength ≠ 0 then irpInputOperation else 0)
    else 0
  mdlAddress := d.mdl
  systemBuffer := d.buffer
  userBuffer := if d.req.copiesOut then 0 else d.req.outputBuffer
  currentStackLocation := d.request + 0xD0

/-- `stack`, the one location of the request. -/
def Dispatch.stack (d : Dispatch) : StackLocation where
  majorFunction := d.req.major
  deviceObject := d.req.deviceObject
  fileObject := d.req.fileObject
  parameters :=
    if d.req.isControl then
      { ioControlCode := d.req.controlCode
        inputBufferLength := d.req.inputLength
        outputBufferLength := d.req.outputLength
        type3InputBuffer := if d.req.method = .neither then d.req.inputBuffer else 0 }
    else {}

/-- What has become of a call of `dispatch_irp`. -/
inductive Answer
  | returned (result : Result)
  /-- A read or a write of memory that is not mapped has been thrown out of it. -/
  | faulted
  /-- The driver's routine runs. -/
  | calling (d : Dispatch)

namespace State

def callDriver (s : State) (d : Dispatch) : State :=
  { s with
    mdls := if d.mdl = 0 then s.mdls else Function.update s.mdls d.mdl d.req.toMdl
    irps := Function.update s.irps d.request d.body
    locations := Function.update s.locations (d.request + 0xD0) d.stack
    dispatches := d :: s.dispatches
    held := d :: s.held }

/-- `dispatch_irp`, once the blocks have been asked for. -/
def startIrp (s : State) (d : Dispatch) : Answer × State :=
  if d.request = 0 ∨ (d.req.copiesIn ∧ d.req.inputLength ≠ 0 ∧ d.buffer = 0) then
    (.returned ⟨statusInsufficientResources, 0⟩, s.release d)
  else
    let (copied, mem) :=
      if d.req.copiesIn then copyGuest s.mem d.buffer d.req.inputBuffer d.req.inputLength.toNat
      else (true, s.mem)
    let s := { s with mem }
    if copied then (.calling d, s.callDriver d) else (.faulted, s.release d)

/-- `dispatch_irp`, up to the call of the driver's routine. -/
def sendIrp (s : State) (req : Request) : Option (Answer × State) :=
  match s.devices req.deviceObject with
  | none => some (.returned ⟨statusInvalidParameter, 0⟩, s)
  | some driver =>
    if s.majorFunction driver req.major = 0 then some (.returned ⟨statusInvalidDeviceRequest, 0⟩, s)
    else do
      let (buffer, s) ← s.poolBlock req.bufferSize irpTag
      let (mdl, s) ← s.poolBlock req.mdlBytes mdlTag
      let (request, s) ← s.poolBlock irpSize irpTag
      return s.startIrp ⟨req, buffer, mdl, request⟩

def outputSize (s : State) (d : Dispatch) : Nat :=
  min (s.irps d.request).information.toNat d.req.outputLength.toNat

/-- `dispatch_irp`, from the return of the driver's routine on. -/
def finishIrp (s : State) (d : Dispatch) : Answer × State :=
  let done := s.irps d.request
  let s := { s with dispatches := s.dispatches.erase d }
  if done.completed then
    let (copied, mem) :=
      if d.req.copiesOut then copyGuest s.mem d.req.outputBuffer d.buffer (s.outputSize d)
      else (true, s.mem)
    let s := { s with mem }
    (if copied then .returned ⟨done.status, done.information⟩ else .faulted, s.release d)
  else
    -- the driver has kept the request
    (.returned ⟨if done.status = statusSuccess then statusPending else done.status, 0⟩, s.release d)

/-- The `IofCompleteRequest` handler. -/
def iofCompleteRequest (s : State) (irp : Nat) : State :=
  if irp = 0 then s
  else
    let body := s.irps irp
    { s with
      irps := Function.update s.irps irp { body with currentLocation := body.stackCount + 1 }
      held := s.held.filter fun d => d.request ≠ irp }

/-- A driver writes an `_IRP`: any of it but the place on the stack, which is left to `IofCompleteRequest`. -/
def writeIrp (s : State) (irp : Nat) (body : Irp) : State :=
  let old := s.irps irp
  let body := { body with stackCount := old.stackCount, currentLocation := old.currentLocation }
  { s with irps := Function.update s.irps irp body }

/-- The call that runs the routine with the request at `irp`. -/
def dispatch? (s : State) (irp : Nat) : Option Dispatch := s.dispatches.find? fun d => d.request = irp

end State

/-! ## Runs -/

/-- What happens between the instructions of `dispatch_irp`: requests come in and their routines return, drivers
work on the requests, and the rest of the system changes memory and uses the pool. -/
inductive Call
  | send (req : Request)
  | finish (irp : Nat)
  | complete (irp : Nat)
  | write (irp : Nat) (body : Irp)
  | guest (mem : Nat → Option UInt8) (devices : Nat → Option Nat) (majorFunction : Nat → UInt8 → Nat)
  | allocate (size : Nat) (tag : BitVec 32)
  | free (addr : Nat)

def step (s : State) : Call → Option State
  | .send req => (s.sendIrp req).map Prod.snd
  | .finish irp => (s.dispatch? irp).map fun d => (s.finishIrp d).2
  | .complete irp => some (s.iofCompleteRequest irp)
  | .write irp body => some (s.writeIrp irp body)
  | .guest mem devices majorFunction => some { s with mem, devices, majorFunction }
  | .allocate size tag => (s.kernel.poolAllocate size tag).map fun (_, kernel) => { s with kernel }
  | .free addr => some { s with kernel := s.kernel.poolFree addr }

/-- Nobody asks the pool for half of the address space, or gives back what `dispatch_irp` has from it. -/
def Call.Ok (s : State) : Call → Prop
  | .allocate size _ => size < 2 ^ 63
  | .free addr => ∀ d ∈ s.dispatches, ∀ e ∈ d.blocks, e.1 ≠ addr
  | _ => True

end Kernemul.Requests
