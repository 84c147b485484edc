import Kernemul.Emu.Defs
import Kernemul.Lib.Run

/-!
# ALPC ports

The handlers of `nt_lpc_ops.cpp` that create a port, connect to one and send and receive through one. What
is sent reaches the peer of the port as long as every receive has room for it. The name of a server leads
to it until somebody connects: the port of the client is then registered under the same name.
-/

namespace Kernemul.Lpc

abbrev Addr := Nat

abbrev Bytes := List UInt8

abbrev Memory := Nat → Option UInt8

/-- The thread that calls a handler, as it is stamped on what it sends. -/
structure Client where
  process : Nat
  thread : Nat
  deriving DecidableEq, Repr

/-- `alpc_port_host`. -/
structure Port where
  name : String
  isServer : Bool := false
  peer : Option Addr := none
  messages : List Bytes := []
  deriving DecidableEq, Repr

/-- A message as its sender has written it, and the port it was sent on. -/
structure Sent where
  port : Addr
  client : Client
  bytes : Bytes
  deriving DecidableEq, Repr

/-- `ports` are by the bodies of their objects, which the object manager puts from `next` on; `named` has
other objects too. What has been sent, and what has been received on each port, oldest first, is for the
statements only. -/
structure State where
  ports : Addr → Option Port := fun _ => none
  named : String → Option Addr := fun _ => none
  handles : Nat → Option Addr := fun _ => none
  nextHandle : Nat := 4
  next : Addr := 1
  sent : List Sent := []
  received : Addr → List Bytes := fun _ => []

inductive Result
  | success
  | invalidParameter
  | invalidHandle
  | objectNameCollision
  | objectNameNotFound
  | portDisconnected
  | timeout
  | bufferTooSmall
  /-- A read or a write of memory that is not mapped has been thrown out of the handler. -/
  | faulted
  deriving DecidableEq, Repr

/-! ## Messages -/

/-- `sizeof(_PORT_MESSAGE)`. -/
def portMessageSize : Nat := 0x28

def maximumMessageLength : Nat := 0x10000

/-- `read_mem`: none when some of it is not mapped. -/
def Memory.readMem (mem : Memory) (size : Nat) : Option Bytes := (List.range size).mapM mem

/-- `header.u1.s1.TotalLength`, which is a `short`. -/
def totalLength (header : Bytes) : Int :=
  let n : Int := (header.getD 2 0).toNat + 256 * (header.getD 3 0).toNat
  (n + 2 ^ 15) % 2 ^ 16 - 2 ^ 15

/-- How much is read: the length as a `size_t`, clamped. -/
def messageSize (total : Int) : Nat :=
  let size := (total % 2 ^ 64).toNat
  if size < portMessageSize then portMessageSize
  else if maximumMessageLength < size then maximumMessageLength
  else size

def le64 (n : Nat) : Bytes := (List.range 8).map fun i => UInt8.ofNat (n / 256 ^ i)

/-- The `ClientId` is written over. -/
def stamp (bytes : Bytes) (client : Client) : Bytes :=
  bytes.take 8 ++ le64 client.process ++ le64 client.thread ++ bytes.drop 24

def readMessage (mem : Memory) (client : Client) : Option Bytes :=
  (mem.readMem portMessageSize).bind fun header =>
    (mem.readMem (messageSize (totalLength header))).map (stamp · client)

/-- The message that stands there: as many bytes as it says it has. -/
def message (mem : Memory) : Bytes :=
  ((mem.readMem portMessageSize).bind fun header => mem.readMem (totalLength header).toNat).getD []

/-! ## Handlers -/

namespace State

def setPort (s : State) (a : Addr) (p : Port) : State :=
  { s with ports := Function.update s.ports a (some p) }

/-- `lock` of the `peer` of a port: a port that has been created stays. -/
def peerOf (s : State) (a : Addr) : Option Addr := (s.ports a).bind Port.peer

/-- `create_port_object`: the body is at the old `next`, and the handle is the old `nextHandle`. -/
def createPortObject (s : State) (host : Port) : State :=
  { s with
    ports := Function.update s.ports s.next (some host)
    named := if host.name = "" then s.named else Function.update s.named host.name (some s.next)
    handles := Function.update s.handles s.nextHandle (some s.next)
    nextHandle := s.nextHandle + 4
    next := s.next + 1 }

/-- `post`, of a message that is sent on port `a` to port `b`. -/
def post (s : State) (a b : Addr) (client : Client) (mem : Memory) (bytes : Bytes) : State :=
  match s.ports b with
  | some p =>
    { s.setPort b { p with messages := p.messages ++ [bytes] } with
      sent := s.sent ++ [{ port := a, client, bytes := message mem }] }
  | none => s

def findServer (s : State) (name : String) : Option Addr :=
  (s.named name).filter fun a => ((s.ports a).map Port.isServer).getD false

def portFromHandle (s : State) (handle : Nat) : Option Addr :=
  (s.handles handle).filter fun a => (s.ports a).isSome

end State

def alpcCreatePort (s : State) (portHandle : Operand) (name : String) : State × Result :=
  if portHandle = .null then (s, .invalidParameter)
  else if name ≠ "" ∧ (s.named name).isSome then (s, .objectNameCollision)
  else
    (s.createPortObject { name, isServer := true },
      if portHandle = .unmapped then .faulted else .success)

def alpcConnectPort (s : State) (client : Client) (portHandle : Operand) (name : String)
    (connectionMessage : Option Memory) (bufferLength : Operand) : State × Result :=
  if portHandle = .null then (s, .invalidParameter)
  else
    match s.findServer name with
    | none => (s, .objectNameNotFound)
    | some server =>
      let port := s.next
      let s := s.createPortObject { name, peer := some server }
      let s := match s.ports server with
        | some p => s.setPort server { p with peer := some port }
        | none => s
      if portHandle = .unmapped then (s, .faulted)
      else
        match connectionMessage with
        | none => (s, if bufferLength = .unmapped then .faulted else .success)
        | some mem =>
          match readMessage mem client with
          | none => (s, .faulted)
          | some bytes =>
            (s.post port server client mem bytes, if bufferLength = .unmapped then .faulted else .success)

/-- The first half of `NtAlpcSendWaitReceivePort`, and what it answers if it ends there. -/
def sendHalf (s : State) (client : Client) (port : Addr) (sendMessage : Option Memory) :
    State × Option Result :=
  match sendMessage with
  | none => (s, none)
  | some mem =>
    match s.peerOf port with
    | none => (s, some .portDisconnected)
    | some peer =>
      match readMessage mem client with
      | none => (s, some .faulted)
      | some bytes => (s.post port peer client mem bytes, none)

/-- The second half. The memory of `receiveMessage` ends after as many bytes; a `bufferLength` that is
given and cannot be read is `some none`. -/
def receiveHalf (s : State) (port : Addr) (receiveMessage : Option Nat)
    (bufferLength : Option (Option Nat)) : State × Result :=
  match receiveMessage with
  | none => (s, .success)
  | some mapped =>
    match s.ports port with
    | none => (s, .invalidHandle)
    | some p =>
      match p.messages with
      | [] => (s, .timeout)
      | bytes :: messages =>
        let s := s.setPort port { p with messages }
        match bufferLength.getD (some bytes.length) with
        | none => (s, .faulted)
        | some room =>
          if mapped < min room bytes.length then (s, .faulted)
          else if min room bytes.length < bytes.length then (s, .bufferTooSmall)
          else
            ({ s with received := Function.update s.received port (s.received port ++ [bytes]) },
              .success)

def alpcSendWaitReceivePort (s : State) (client : Client) (handle : Nat) (sendMessage : Option Memory)
    (receiveMessage : Option Nat) (bufferLength : Option (Option Nat)) : State × Result :=
  match s.portFromHandle handle with
  | none => (s, .invalidHandle)
  | some port =>
    match sendHalf s client port sendMessage with
    | (s, some result) => (s, result)
    | (s, none) => receiveHalf s port receiveMessage bufferLength

inductive Call
  | create (portHandle : Operand) (name : String)
  | connect (client : Client) (portHandle : Operand) (name : String) (connectionMessage : Option Memory)
    (bufferLength : Operand)
  | sendWaitReceive (client : Client) (handle : Nat) (sendMessage : Option Memory)
    (receiveMessage : Option Nat) (bufferLength : Option (Option Nat))

def step (s : State) : Call → Option State
  | .create portHandle name => some (alpcCreatePort s portHandle name).1
  | .connect client portHandle name connectionMessage bufferLength =>
    some (alpcConnectPort s client portHandle name connectionMessage bufferLength).1
  | .sendWaitReceive client handle sendMessage receiveMessage bufferLength =>
    some (alpcSendWaitReceivePort s client handle sendMessage receiveMessage bufferLength).1

end Kernemul.Lpc
