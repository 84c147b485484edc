import Kernemul.Emu.Defs
import Kernemul.Lib.Run
import Mathlib.Logic.Function.Basic

/-!
# The x86 mmu (`x86::mmu`, `x86::addr_space`)

Four levels of tables in guest physical memory, and for every address space a shadow map from pages to
the frames this emulator mapped there. Table memory is a function of a table's address and an index: the
entry at `table_pa + index * 8`. Physical frames are handed out in order, zeroed and once only, so table
memory that was never written reads as an empty entry.

A throw of the frame allocator keeps what the call has done so far; callers up the stack catch it. The
page notes and the tlb flushes change nothing here.

`level` is not in the source: it says what a frame was handed out for (4 for a PML4 down to 1 for a page
table, 0 for the rest), and no operation reads it for anything but itself.
-/

namespace Kernemul.X86

def physBase : Nat := 0x100000000
def physSize : Nat := 0x100000000
def physEnd : Nat := physBase + physSize

/-- How wide the frame number of an entry is: at least wide enough for every frame of guest memory, and
within the 64 bits of an entry. -/
structure EntryFormat where
  pfnBits : Nat
  fits : physEnd ≤ 2 ^ (12 + pfnBits)
  width : pfnBits ≤ 52

/-- The fields of a table entry that the mmu uses. As in the source, `supervisor` is the U/S bit, so
`true` means user reachable. -/
structure PtEntry where
  present : Bool := false
  write : Bool := false
  supervisor : Bool := false
  accessed : Bool := false
  dirty : Bool := false
  global : Bool := false
  executeDisable : Bool := false
  pageFrameNumber : Nat := 0
  deriving DecidableEq, Repr

structure AddrSpace where
  shadow : Nat → Option Nat := fun _ => none
  userNext : Nat := 0x10000
  kernelNext : Nat := 0xFFFFF80000000000

/-- The mmu with its spaces, which go by their `pml4_pa`. -/
structure Mmu where
  format : EntryFormat
  mem : Nat → Nat → PtEntry
  physNext : Nat
  kernelPml4Pa : Nat
  spaces : Nat → Option AddrSpace
  level : Nat → Nat

def Mmu.init (format : EntryFormat) : Mmu where
  format
  mem := fun _ _ => {}
  physNext := physBase
  kernelPml4Pa := 0
  spaces := fun _ => none
  level := fun _ => 0

/-! ## Addresses -/

/-- The fields of `virt_addr`. -/
def pml4Index (va : Nat) : Nat := va / 2 ^ 39 % 512
def pdptIndex (va : Nat) : Nat := va / 2 ^ 30 % 512
def pdIndex (va : Nat) : Nat := va / 2 ^ 21 % 512
def ptIndex (va : Nat) : Nat := va / 2 ^ 12 % 512

def pfnToPa (pfn : Nat) : Nat := pfn * pageSize

/-- What `page_frame_number = pa >> page_shift` stores. -/
def Mmu.pfn (m : Mmu) (pa : Nat) : Nat := pa / pageSize % 2 ^ m.format.pfnBits

/-! ## Frames and tables -/

/-- `alloc_phys_locked`; `none` when guest memory has run out. -/
def Mmu.allocPhys (m : Mmu) (size : Nat) : Option (Nat × Mmu) :=
  let aligned := sizeAlign size
  if aligned > physEnd - m.physNext then none
  else some (m.physNext, { m with physNext := m.physNext + aligned })

def Mmu.writeEntry (m : Mmu) (table index : Nat) (entry : PtEntry) : Mmu :=
  { m with mem := fun t i => if t = table ∧ i = index then entry else m.mem t i }

def Mmu.updateSpace (m : Mmu) (root : Nat) (f : AddrSpace → AddrSpace) : Mmu :=
  { m with spaces := fun r => if r = root then (m.spaces r).map f else m.spaces r }

def tableEntry (m : Mmu) (child : Nat) (user : Bool) : PtEntry where
  present := true
  write := true
  supervisor := user
  accessed := true
  pageFrameNumber := m.pfn child

/-- `ensure_table`; no table when the allocator throws. -/
def Mmu.ensureTable (m : Mmu) (table index : Nat) (user : Bool) : Mmu × Option Nat :=
  let entry := m.mem table index
  if entry.present then
    let m := if user && !entry.supervisor then
        m.writeEntry table index { entry with supervisor := true }
      else m
    (m, some (pfnToPa entry.pageFrameNumber))
  else
    match m.allocPhys pageSize with
    | none => (m, none)
    | some (child, m) =>
      let m := { m with level := fun t => if t = child then m.level table - 1 else m.level t }
      (m.writeEntry table index (tableEntry m child user), some child)

/-- The three calls of `ensure_table` for an address: the page table, unless the allocator throws. -/
def Mmu.ensurePath (m : Mmu) (root va : Nat) (user : Bool) : Mmu × Option Nat :=
  match m.ensureTable root (pml4Index va) user with
  | (m, none) => (m, none)
  | (m, some pdpt) =>
    match m.ensureTable pdpt (pdptIndex va) user with
    | (m, none) => (m, none)
    | (m, some pd) => m.ensureTable pd (pdIndex va) user

/-- The leaf entry `map_page` writes. -/
def leafEntry (m : Mmu) (pa : Nat) (prot : MemProt) : PtEntry where
  present := true
  write := prot.write
  executeDisable := !prot.exec
  accessed := true
  dirty := prot.write
  supervisor := !prot.supervisor
  global := prot.supervisor
  pageFrameNumber := m.pfn pa

/-- `map_page`, and whether it came to its end. -/
def Mmu.mapPage (m : Mmu) (root va pa : Nat) (prot : MemProt) : Mmu × Bool :=
  let v := pageAlign va
  match m.ensurePath root v (!prot.supervisor) with
  | (m, none) => (m, false)
  | (m, some pt) =>
    let m := m.writeEntry pt (ptIndex v) (leafEntry m pa prot)
    (m.updateSpace root fun s => { s with shadow := Function.update s.shadow v (some pa) }, true)

def Mmu.child (m : Mmu) (table index : Nat) : Option Nat :=
  let entry := m.mem table index
  if entry.present then some (pfnToPa entry.pageFrameNumber) else none

/-- The page table an address is under, when the three tables above it are there. -/
def Mmu.pageTable (m : Mmu) (root va : Nat) : Option Nat :=
  (m.child root (pml4Index va)).bind fun pdpt =>
    (m.child pdpt (pdptIndex va)).bind fun pd => m.child pd (pdIndex va)

def Mmu.unmapPage (m : Mmu) (root va : Nat) : Mmu :=
  let v := pageAlign va
  let m := m.updateSpace root fun s => { s with shadow := Function.update s.shadow v none }
  match m.pageTable root v with
  | none => m
  | some pt => m.writeEntry pt (ptIndex v) {}

/-- The entry `prot_virt` puts in place of a present one. -/
def reprotEntry (pte : PtEntry) (prot : MemProt) : PtEntry where
  present := true
  pageFrameNumber := pte.pageFrameNumber
  accessed := pte.accessed
  dirty := pte.dirty
  write := prot.write
  executeDisable := !prot.exec
  supervisor := pte.supervisor
  global := !pte.supervisor

/-- One round of the loop of `prot_virt`. -/
def Mmu.protPage (m : Mmu) (root v : Nat) (prot : MemProt) : Mmu :=
  match m.pageTable root v with
  | none => m
  | some pt =>
    let pte := m.mem pt (ptIndex v)
    if pte.present then m.writeEntry pt (ptIndex v) (reprotEntry pte prot) else m

def Mmu.translateVirt (m : Mmu) (root page : Nat) : Option Nat :=
  (m.pageTable root page).bind fun pt => m.child pt (ptIndex page)

/-! ## Ranges -/

/-- Page `k` of a range; sums of addresses wrap. -/
def pageOf (start k : Nat) : Nat := wrap (start + k * pageSize)

/-- The loop over `map_page`, with `n` pages to go after the first `k`; how many were mapped. -/
def mapLoop (root start pa : Nat) (prot : MemProt) : Nat → Nat → Mmu → Mmu × Nat
  | 0, k, m => (m, k)
  | n + 1, k, m =>
    match m.mapPage root (pageOf start k) (pageOf pa k) prot with
    | (m, false) => (m, k)
    | (m, true) => mapLoop root start pa prot n (k + 1) m

def unmapLoop (root start : Nat) : Nat → Nat → Mmu → Mmu
  | 0, _, m => m
  | n + 1, k, m => unmapLoop root start n (k + 1) (m.unmapPage root (pageOf start k))

def protLoop (root start : Nat) (prot : MemProt) : Nat → Nat → Mmu → Mmu
  | 0, _, m => m
  | n + 1, k, m => protLoop root start prot n (k + 1) (m.protPage root (pageOf start k) prot)

/-- How many pages `aligned` bytes are. -/
def pages (size : Nat) : Nat := sizeAlign size / pageSize

/-- `map_virt`, and how many pages it mapped before it returned or threw. -/
def Mmu.mapVirt (m : Mmu) (root va size : Nat) (prot : MemProt) : Mmu × Nat :=
  match m.allocPhys (sizeAlign size) with
  | none => (m, 0)
  | some (pa, m) => mapLoop root (pageAlign va) pa prot (pages size) 0 m

def Mmu.mapVirtPhys (m : Mmu) (root va pa size : Nat) (prot : MemProt) : Mmu × Nat :=
  mapLoop root (pageAlign va) (pageAlign pa) prot (pages size) 0 m

def Mmu.unmapVirt (m : Mmu) (root va size : Nat) : Mmu :=
  unmapLoop root (pageAlign va) (pages size) 0 m

def Mmu.protVirt (m : Mmu) (root va size : Nat) (prot : MemProt) : Mmu :=
  protLoop root (pageAlign va) prot (pages size) 0 m

/-! ## Spaces -/

/-- `create_addr_space`; `none` when the allocator throws. The loop over the kernel half copies the
entries of the first space's PML4. -/
def Mmu.createAddrSpace (m : Mmu) : Option (Nat × Mmu) :=
  (m.allocPhys pageSize).map fun (root, m) =>
    let m := { m with level := fun t => if t = root then 4 else m.level t }
    let m := if m.kernelPml4Pa = 0 then { m with kernelPml4Pa := root }
      else { m with
        mem := fun t i => if t = root ∧ 256 ≤ i ∧ i < 512 then m.mem m.kernelPml4Pa i else m.mem t i }
    (root, { m with spaces := fun r => if r = root then some {} else m.spaces r })

def AddrSpace.cursor (s : AddrSpace) (prot : MemProt) : Nat :=
  if prot.supervisor then s.kernelNext else s.userNext

def AddrSpace.advance (s : AddrSpace) (prot : MemProt) (aligned : Nat) : AddrSpace :=
  if prot.supervisor then { s with kernelNext := wrap (s.kernelNext + aligned) }
  else { s with userNext := wrap (s.userNext + aligned) }

/-- `addr_space::alloc`: where the range starts, and `map_virt` there. -/
def Mmu.alloc (m : Mmu) (root size : Nat) (prot : MemProt) : Option (Nat × Mmu × Nat) :=
  (m.spaces root).map fun s =>
    let aligned := sizeAlign size
    let va := s.cursor prot
    let m := m.updateSpace root fun s => s.advance prot aligned
    (va, m.mapVirt root va aligned prot)

def Mmu.mapPhys (m : Mmu) (root pa size : Nat) (prot : MemProt) : Option (Nat × Mmu × Nat) :=
  (m.spaces root).map fun s =>
    let aligned := sizeAlign size
    let va := s.cursor prot
    let m := m.updateSpace root fun s => s.advance prot aligned
    (va, m.mapVirtPhys root va pa aligned prot)

/-! ## Calls -/

/-- A call on the mmu, or on one of its spaces, which go by their `pml4_pa`. -/
inductive Call
  | createAddrSpace
  | allocPhys (size : Nat)
  | mapVirt (root va size : Nat) (prot : MemProt)
  | mapVirtPhys (root va pa size : Nat) (prot : MemProt)
  | unmapVirt (root va size : Nat)
  | protVirt (root va size : Nat) (prot : MemProt)
  | alloc (root size : Nat) (prot : MemProt)
  | mapPhys (root pa size : Nat) (prot : MemProt)
  deriving DecidableEq, Repr

def Call.root : Call → Option Nat
  | .createAddrSpace => none
  | .allocPhys _ => none
  | .mapVirt root .. => some root
  | .mapVirtPhys root .. => some root
  | .unmapVirt root .. => some root
  | .protVirt root .. => some root
  | .alloc root .. => some root
  | .mapPhys root .. => some root

/-- The mmu after a call on existing spaces; a call that throws keeps what it has done. -/
def perform (m : Mmu) : Call → Mmu
  | .createAddrSpace => (m.createAddrSpace.map Prod.snd).getD m
  | .allocPhys size => ((m.allocPhys size).map Prod.snd).getD m
  | .mapVirt root va size prot => (m.mapVirt root va size prot).1
  | .mapVirtPhys root va pa size prot => (m.mapVirtPhys root va pa size prot).1
  | .unmapVirt root va size => m.unmapVirt root va size
  | .protVirt root va size prot => m.protVirt root va size prot
  | .alloc root size prot => ((m.alloc root size prot).map fun r => r.2.1).getD m
  | .mapPhys root pa size prot => ((m.mapPhys root pa size prot).map fun r => r.2.1).getD m

def step (m : Mmu) (call : Call) : Option Mmu :=
  match call.root with
  | none => some (perform m call)
  | some root => if (m.spaces root).isSome then some (perform m call) else none

end Kernemul.X86
