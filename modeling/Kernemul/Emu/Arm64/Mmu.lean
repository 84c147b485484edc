import Kernemul.Emu.Tables
import Kernemul.Lib.Budget

/-!
# The ARM64 mmu (`arm64::mmu`, `arm64::addr_space`)

As on x86, four levels of tables and a shadow map for every space, over the same frame allocator. One table
serves both `TTBR0_EL1` and `TTBR1_EL1`, no entry is widened for user pages, and pages are mapped writable
whatever was asked for. An entry is the 64-bit word itself.
-/

namespace Kernemul.Arm64

export X86 (physBase physSize physEnd AddrSpace pages pageOf)

def descValid : Nat := 1 <<< 0
def descTable : Nat := 1 <<< 1
def descShIs : Nat := 3 <<< 8
def descAf : Nat := 1 <<< 10
def descApEl0 : Nat := 1 <<< 6
def descApRo : Nat := 1 <<< 7

/-- The mmu with its spaces, which go by their `ttbr_pa`; their records are those of x86. -/
structure Mmu where
  mem : Nat → Nat → Nat
  physNext : Nat
  kernelTtbrPa : Nat
  spaces : Nat → Option AddrSpace

def Mmu.init : Mmu where
  mem := fun _ _ => 0
  physNext := physBase
  kernelTtbrPa := 0
  spaces := fun _ => none

/-- `alloc_phys_locked`; `none` when guest memory has run out. -/
def Mmu.allocPhys (m : Mmu) (size : Nat) : Option (Nat × Mmu) :=
  let aligned := sizeAlign size
  if aligned > physEnd - m.physNext then none
  else some (m.physNext, { m with physNext := m.physNext + aligned })

def Mmu.writeEntry (m : Mmu) (table index entry : Nat) : Mmu :=
  { m with mem := fun t i => if t = table ∧ i = index then entry else m.mem t i }

def Mmu.updateSpace (m : Mmu) (root : Nat) (f : AddrSpace → AddrSpace) : Mmu :=
  { m with spaces := fun r => if r = root then (m.spaces r).map f else m.spaces r }

def pageAttrs (prot : MemProt) : Nat :=
  descValid ||| descTable ||| descAf ||| descShIs ||| (if prot.supervisor then 0 else descApEl0) |||
    (if prot.write then 0 else descApRo)

/-- `ensure_table`; no table when the allocator throws. -/
def Mmu.ensureTable (table index : Nat) (m : Mmu) : Mmu × Option Nat :=
  let entry := m.mem table index
  if entry % 2 = 1 then (m, some (entry &&& descAddrMask))
  else
    match m.allocPhys pageSize with
    | none => (m, none)
    | some (child, m) => (m.writeEntry table index (child &&& descAddrMask ||| descValid ||| descTable), some child)

/-- The three calls of `ensure_table` for an address. -/
def Mmu.ensurePath (root va : Nat) : Mmu → Mmu × Option Nat :=
  Budget.andThen (Mmu.ensureTable root (l0Index va)) fun l1 =>
    Budget.andThen (Mmu.ensureTable l1 (l1Index va)) fun l2 => Mmu.ensureTable l2 (l2Index va)

/-- `map_page`, and whether it came to its end. -/
def Mmu.mapPage (m : Mmu) (root va pa : Nat) (prot : MemProt) : Mmu × Bool :=
  let v := pageAlign va
  match Mmu.ensurePath root v m with
  | (m, none) => (m, false)
  | (m, some l3) =>
    let m := m.writeEntry l3 (l3Index v) (pa &&& descAddrMask ||| pageAttrs prot)
    (m.updateSpace root fun s => { s with shadow := Function.update s.shadow v (some pa) }, true)

/-- The lambda of `walk_to_l3`: the next table, 0 when there is none. -/
def Mmu.step (m : Mmu) (table index : Nat) : Nat :=
  let e := m.mem table index
  if e % 2 = 1 then e &&& descAddrMask else 0

def Mmu.walkToL3 (m : Mmu) (root va : Nat) : Nat :=
  let l1 := m.step root (l0Index va)
  if l1 = 0 then 0
  else
    let l2 := m.step l1 (l1Index va)
    if l2 = 0 then 0 else m.step l2 (l2Index va)

def Mmu.translateVirt (m : Mmu) (root page : Nat) : Option Nat :=
  let l3 := m.walkToL3 root page
  if l3 = 0 then none
  else
    let entry := m.mem l3 (l3Index page)
    if entry % 2 = 1 then some (entry &&& descAddrMask) else none

def Mmu.shadowOf (m : Mmu) (root page : Nat) : Option Nat := (m.spaces root).bind fun s => s.shadow page

/-- The frame of a page: the walk decides, and the shadow map stands in when it finds nothing. -/
def Mmu.resolve (m : Mmu) (root page : Nat) : Option Nat :=
  (m.translateVirt root page).or (m.shadowOf root page)

/-- The loop over `map_page`, with `n` pages to go after the first `k`; how many were mapped. -/
def mapLoop (root start pa : Nat) (prot : MemProt) : Nat → Nat → Mmu → Mmu × Nat :=
  Budget.loop fun k m => m.mapPage root (pageOf start k) (pageOf pa k) { prot with write := true }

/-- `map_virt`, and how many pages it mapped before it returned or threw. -/
def Mmu.mapVirt (m : Mmu) (root va size : Nat) (prot : MemProt) : Mmu × Nat :=
  match m.allocPhys (sizeAlign size) with
  | none => (m, 0)
  | some (pa, m) => mapLoop root (pageAlign va) pa prot (pages size) 0 m

/-- `create_addr_space`; `none` when the allocator throws. -/
def Mmu.createAddrSpace (m : Mmu) : Option (Nat × Mmu) :=
  (m.allocPhys pageSize).map fun (root, m) =>
    let m := if m.kernelTtbrPa = 0 then { m with kernelTtbrPa := root }
      else { m with
        mem := fun t i => if t = root ∧ 256 ≤ i ∧ i < 512 then m.mem m.kernelTtbrPa i else m.mem t i }
    (root, { m with spaces := fun r => if r = root then some {} else m.spaces r })

/-- `addr_space::alloc`: where the range starts, and `map_virt` there. -/
def Mmu.alloc (m : Mmu) (root size : Nat) (prot : MemProt) : Option (Nat × Mmu × Nat) :=
  (m.spaces root).map fun s =>
    let aligned := sizeAlign size
    let va := s.cursor prot
    let m := m.updateSpace root fun s => s.advance prot aligned
    (va, m.mapVirt root va aligned prot)

/-- `map_virt_phys`, and how many pages it mapped. -/
def Mmu.mapVirtPhys (m : Mmu) (root va pa size : Nat) (prot : MemProt) : Mmu × Nat :=
  mapLoop root (pageAlign va) (pageAlign pa) prot (pages size) 0 m

def Mmu.mapPhys (m : Mmu) (root pa size : Nat) (prot : MemProt) : Option (Nat × Mmu × Nat) :=
  (m.spaces root).map fun s =>
    let aligned := sizeAlign size
    let va := s.cursor prot
    let m := m.updateSpace root fun s => s.advance prot aligned
    (va, m.mapVirtPhys root va pa aligned prot)

def Mmu.unmapPage (m : Mmu) (root va : Nat) : Mmu :=
  let v := pageAlign va
  let m := m.updateSpace root fun s => { s with shadow := Function.update s.shadow v none }
  let l3 := m.walkToL3 root v
  if l3 = 0 then m else m.writeEntry l3 (l3Index v) 0

/-- The entry `prot_virt` puts in place of a valid one. -/
def reprotEntry (entry : Nat) (prot : MemProt) : Nat :=
  entry &&& descAddrMask ||| (pageAttrs prot &&& 2 ^ 64 - 1 - descApEl0 ||| entry &&& descApEl0)

/-- One round of the loop of `prot_virt`. -/
def Mmu.protPage (m : Mmu) (root v : Nat) (prot : MemProt) : Mmu :=
  let l3 := m.walkToL3 root v
  if l3 = 0 then m
  else
    let entry := m.mem l3 (l3Index v)
    if entry % 2 = 1 then m.writeEntry l3 (l3Index v) (reprotEntry entry prot) else m

/-- Visit `n` pages from page `k` on. -/
def eachPage (visit : Nat → Mmu → Mmu) : Nat → Nat → Mmu → Mmu
  | 0, _, m => m
  | n + 1, k, m => eachPage visit n (k + 1) (visit k m)

def Mmu.unmapVirt (m : Mmu) (root va size : Nat) : Mmu :=
  eachPage (fun k m => m.unmapPage root (pageOf (pageAlign va) k)) (pages size) 0 m

def Mmu.protVirt (m : Mmu) (root va size : Nat) (prot : MemProt) : Mmu :=
  eachPage (fun k m => m.protPage root (pageOf (pageAlign va) k) prot) (pages size) 0 m

/-- `destroy_addr_space`: the tables stay where they are. -/
def Mmu.destroyAddrSpace (m : Mmu) (root : Nat) : Mmu :=
  { m with spaces := Function.update m.spaces root none }

inductive Call
  | createAddrSpace
  | destroyAddrSpace (root : Nat)
  | allocPhys (size : Nat)
  | mapVirt (root va size : Nat) (prot : MemProt)
  | mapVirtPhys (root va pa size : Nat) (prot : MemProt)
  | unmapVirt (root va size : Nat)
  | protVirt (root va size : Nat) (prot : MemProt)
  | alloc (root size : Nat) (prot : MemProt)
  | mapPhys (root pa size : Nat) (prot : MemProt)
  deriving DecidableEq, Repr

def Call.root : Call → Option Nat
  | .createAddrSpace => none
  | .destroyAddrSpace root => some root
  | .allocPhys _ => none
  | .mapVirt root .. => some root
  | .mapVirtPhys root .. => some root
  | .unmapVirt root .. => some root
  | .protVirt root .. => some root
  | .alloc root .. => some root
  | .mapPhys root .. => some root

/-- The mmu after a call on an existing space; a call that throws keeps what it has done. -/
def perform (m : Mmu) : Call → Mmu
  | .createAddrSpace => (m.createAddrSpace.map Prod.snd).getD m
  | .destroyAddrSpace root => m.destroyAddrSpace root
  | .allocPhys size => ((m.allocPhys size).map Prod.snd).getD m
  | .mapVirt root va size prot => (m.mapVirt root va size prot).1
  | .mapVirtPhys root va pa size prot => (m.mapVirtPhys root va pa size prot).1
  | .unmapVirt root va size => m.unmapVirt root va size
  | .protVirt root va size prot => m.protVirt root va size prot
  | .alloc root size prot => ((m.alloc root size prot).map fun r => r.2.1).getD m
  | .mapPhys root pa size prot => ((m.mapPhys root pa size prot).map fun r => r.2.1).getD m

def call (m : Mmu) (c : Call) : Option Mmu :=
  match c.root with
  | none => some (perform m c)
  | some root => if (m.spaces root).isSome then some (perform m c) else none

/-! ## The tables as bytes -/

def Encodes (m : Mmu) (mem : Phys.Mem) : Prop := ∀ table index, IsPage table → table < 2 ^ 64 → index < 512 →
  readU64 mem (wrap (table + index * 8)) = m.mem table index

variable {m : Mmu} {mem : Phys.Mem}

theorem Encodes.step_eq (h : Encodes m mem) {table index : Nat} (ht : IsPage table) (hlt : table < 2 ^ 64)
    (hi : index < 512) : step mem table index = m.step table index := by
  unfold step Mmu.step
  rw [h table index ht hlt hi]

theorem step_page (mem : Phys.Mem) (table index : Nat) :
    IsPage (step mem table index) ∧ step mem table index < 2 ^ 64 := by
  unfold step
  simp only
  split
  · exact mask_page _
  · exact ⟨rfl, by decide⟩

theorem Encodes.translateVirt (h : Encodes m mem) {root : Nat} (hr : IsPage root) (hlt : root < 2 ^ 64)
    (page : Nat) : Arm64.translateVirt mem root page = m.translateVirt root page := by
  have hidx : ∀ n, n % 512 < 512 := fun n => Nat.mod_lt _ (by decide)
  have h1 : step mem root (l0Index page) = m.step root (l0Index page) := h.step_eq hr hlt (hidx _)
  obtain ⟨hp1, hl1⟩ := step_page mem root (l0Index page)
  rw [h1] at hp1 hl1
  have h2 : step mem (m.step root (l0Index page)) (l1Index page) =
      m.step (m.step root (l0Index page)) (l1Index page) := h.step_eq hp1 hl1 (hidx _)
  obtain ⟨hp2, hl2⟩ := step_page mem (m.step root (l0Index page)) (l1Index page)
  rw [h2] at hp2 hl2
  have h3 : step mem (m.step (m.step root (l0Index page)) (l1Index page)) (l2Index page) =
      m.step (m.step (m.step root (l0Index page)) (l1Index page)) (l2Index page) :=
    h.step_eq hp2 hl2 (hidx _)
  have hwalk : walkToL3 mem root page = m.walkToL3 root page := by
    simp only [walkToL3, Mmu.walkToL3, h1, h2, h3]
  have hpage : IsPage (m.walkToL3 root page) ∧ m.walkToL3 root page < 2 ^ 64 := by
    obtain ⟨hp3, hl3⟩ := step_page mem (m.step (m.step root (l0Index page)) (l1Index page)) (l2Index page)
    rw [h3] at hp3 hl3
    simp only [Mmu.walkToL3]
    split
    · exact ⟨rfl, by decide⟩
    · split
      · exact ⟨rfl, by decide⟩
      · exact ⟨hp3, hl3⟩
  have hentry : readU64 mem (wrap (m.walkToL3 root page + l3Index page * 8)) =
      m.mem (m.walkToL3 root page) (l3Index page) := h _ _ hpage.1 hpage.2 (hidx _)
  simp only [Arm64.translateVirt, Mmu.translateVirt, hwalk, hentry]

end Kernemul.Arm64
