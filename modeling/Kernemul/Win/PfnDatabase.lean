import Kernemul.Lib.BackPointers
import Kernemul.Win.SelfMap

/-!
# The PFN database

The mmu reports every page that it maps and the tables above it, and every page that it takes back, and the
database keeps one entry for each frame of guest memory: the last report of a mapping, blank after a report of
an unmapping. Nothing counts the mappings of a frame. A table entry is a slot, the frame it leads to its
target, and the database a record of back pointers (`BackPointers.Agrees`).
-/

namespace Kernemul.X86

open Run BackPointers

/-! ## The database -/

/-- The fields of an `_MMPFN` that are written. -/
structure Mmpfn where
  pteAddress : Nat := 0
  shareCount : Nat := 0
  referenceCount : Nat := 0
  pageLocation : Nat := 0
  pfnExists : Bool := false
  residentPage : Bool := false
  pteFrame : Nat := 0
  deriving DecidableEq, Repr

def lowestPhysicalPage : Nat := physBase / pageSize
def highestPhysicalPage : Nat := lowestPhysicalPage + physSize / pageSize - 1

def InDatabase (pfn : Nat) : Prop := ¬ (pfn < lowestPhysicalPage ∨ pfn > highestPhysicalPage)

instance (pfn : Nat) : Decidable (InDatabase pfn) := inferInstanceAs (Decidable (¬ _))

structure Machine where
  mmu : Mmu
  database : Nat → Mmpfn := fun _ => {}

def describeFrame (database : Nat → Mmpfn) (pa va tablePa level : Nat) : Nat → Mmpfn :=
  let pfn := pa / pageSize
  if InDatabase pfn then
    Function.update database pfn
      { shareCount := 1
        referenceCount := 1
        pageLocation := 6
        pfnExists := true
        residentPage := true
        pteFrame := tablePa / pageSize % 2 ^ 40
        pteAddress := pteAtLevel va level }
  else database

def forgetFrame (database : Nat → Mmpfn) (pa : Nat) : Nat → Mmpfn :=
  let pfn := pa / pageSize
  if InDatabase pfn then Function.update database pfn {} else database

/-! ## The reports of the mmu -/

/-- `map_page`, with the page and the tables that map it reported, the root as its own parent. -/
def Machine.mapPage (s : Machine) (root va pa : Nat) (prot : MemProt) : Machine × Bool :=
  let v := pageAlign va
  match s.mmu.ensureTables root v (!prot.supervisor) with
  | (m, none) => ({ s with mmu := m }, false)
  | (m, some (pdpt, pd, pt)) =>
    let m := m.setPage root v pt (leafEntry m pa prot) (some pa)
    let database := describeFrame s.database pa v pt 0
    let database := describeFrame database pt v pd 1
    let database := describeFrame database pd v pdpt 2
    let database := describeFrame database pdpt v root 3
    let database := describeFrame database root v root 4
    ({ mmu := m, database }, true)

/-- `unmap_page`: only the page is reported, when the space has it in its shadow map. -/
def Machine.unmapPage (s : Machine) (root va : Nat) : Machine where
  mmu := s.mmu.unmapPage root va
  database :=
    match s.mmu.shadowOf root (pageAlign va) with
    | some pa => forgetFrame s.database pa
    | none => s.database

/-- The loop over `map_page`, as in the mmu. -/
def Machine.mapLoop (root start pa : Nat) (prot : MemProt) : Nat → Nat → Machine → Machine × Nat
  | 0, k, s => (s, k)
  | n + 1, k, s =>
    match s.mapPage root (pageOf start k) (pageOf pa k) prot with
    | (s, false) => (s, k)
    | (s, true) => Machine.mapLoop root start pa prot n (k + 1) s

def Machine.unmapLoop (root start : Nat) : Nat → Nat → Machine → Machine
  | 0, _, s => s
  | n + 1, k, s => Machine.unmapLoop root start n (k + 1) (s.unmapPage root (pageOf start k))

/-- The machine after a call on the mmu; only the loops over `map_page` and `unmap_page` report. -/
def Machine.perform (s : Machine) : Call → Machine
  | .unmapVirt root va size => Machine.unmapLoop root (pageAlign va) (pages size) 0 s
  | call =>
    match s.mmu.job call with
    | some (m, j) => (Machine.mapLoop j.root j.start j.pa j.prot j.n 0 { s with mmu := m }).1
    | none => { s with mmu := X86.perform s.mmu call }

def Machine.step (s : Machine) (call : Call) : Option Machine :=
  match call.root with
  | none => some (s.perform call)
  | some root => if (s.mmu.spaces root).isSome then some (s.perform call) else none

/-! ### The mmu is the one without a database -/

theorem Machine.mapPage_mmu (s : Machine) (root va pa : Nat) (prot : MemProt) :
    ((s.mapPage root va pa prot).1.mmu, (s.mapPage root va pa prot).2) = s.mmu.mapPage root va pa prot := by
  simp only [mapPage_eq, Machine.mapPage]
  rcases s.mmu.ensureTables root (pageAlign va) (!prot.supervisor) with ⟨m, _ | ⟨pdpt, pd, pt⟩⟩
  · rfl
  · rfl

theorem Machine.mapLoop_mmu (root start pa : Nat) (prot : MemProt) (n k : Nat) (s : Machine) :
    ((Machine.mapLoop root start pa prot n k s).1.mmu, (Machine.mapLoop root start pa prot n k s).2) =
      X86.mapLoop root start pa prot n k s.mmu := by
  induction n generalizing k s with
  | zero => rfl
  | succ n ih =>
    have hpage := s.mapPage_mmu root (pageOf start k) (pageOf pa k) prot
    unfold Machine.mapLoop X86.mapLoop
    rw [← hpage]
    rcases s.mapPage root (pageOf start k) (pageOf pa k) prot with ⟨s', _ | _⟩
    · rfl
    · exact ih (k + 1) s'

theorem Machine.unmapLoop_mmu (root start : Nat) (n k : Nat) (s : Machine) :
    (Machine.unmapLoop root start n k s).mmu = X86.unmapLoop root start n k s.mmu := by
  induction n generalizing k s with
  | zero => rfl
  | succ n ih => exact ih (k + 1) _

variable {m : Mmu} {call : Call}

theorem perform_job {m₀ : Mmu} {j : MapJob} (hj : m.job call = some (m₀, j)) :
    X86.perform m call = (j.run m₀).1 := by
  cases call with
  | mapVirt root va size prot =>
    have hv : m.virtJob root va size prot = some (m₀, j) := hj
    rw [X86.perform, mapVirt_eq, hv]
  | mapVirtPhys root va pa size prot =>
    obtain ⟨rfl, rfl⟩ := Prod.mk.inj (Option.some.inj hj)
    rfl
  | alloc root size prot =>
    obtain ⟨s, hs, hv⟩ := Option.bind_eq_some_iff.mp hj
    rw [perform_alloc hs, mapVirt_eq, hv]
  | mapPhys root pa size prot =>
    obtain ⟨s, hs, he⟩ := Option.map_eq_some_iff.mp hj
    obtain ⟨rfl, rfl⟩ := Prod.mk.inj he
    exact perform_mapPhys hs
  | createAddrSpace => cases hj
  | allocPhys size => cases hj
  | unmapVirt root va size => cases hj
  | protVirt root va size prot => cases hj

theorem Machine.perform_mmu (s : Machine) (call : Call) :
    (s.perform call).mmu = X86.perform s.mmu call := by
  unfold Machine.perform
  split
  · exact Machine.unmapLoop_mmu ..
  · split
    · rename_i m j hj
      rw [perform_job hj]
      exact congrArg Prod.fst (Machine.mapLoop_mmu ..)
    · rfl

variable {s s' : Machine}

theorem Machine.step_mmu (hstep : s.step call = some s') :
    X86.step s.mmu call = some s'.mmu := by
  cases hroot : call.root with
  | none =>
    simp only [Machine.step, hroot] at hstep
    simp only [X86.step, hroot]
    rw [← Option.some.inj hstep, Machine.perform_mmu]
  | some root =>
    simp only [Machine.step, hroot, Option.ite_none_right_eq_some] at hstep
    simp only [X86.step, hroot]
    rw [← Option.some.inj hstep.2, Machine.perform_mmu]
    exact if_pos hstep.1

/-! ## Slots and frames -/

abbrev Slot := Nat × Nat

def Mmu.points (m : Mmu) (slot : Slot) : Option Nat :=
  let entry := m.mem slot.1 slot.2
  if entry.present then some entry.pageFrameNumber else none

/-- The table entry that the database entry of a frame names: the containing frame is its table, and the low
bits of the address are its place there. -/
def Mmpfn.slot (entry : Mmpfn) : Slot := (entry.pteFrame * pageSize, entry.pteAddress % pageSize / 8)

def backOf (database : Nat → Mmpfn) (pfn : Nat) : Option Slot :=
  if database pfn = {} then none else some (database pfn).slot

def databaseFrames : Set Nat := fun pfn => InDatabase pfn

variable {pa va : Nat}

def Mmu.leafSlot (m : Mmu) (root v : Nat) : Option Slot :=
  (m.pageTable root v).map (·, ptIndex v)

/-- Mapping a page keeps the database in agreement: the space has its self map, the frame number fits the
entry, no other frame has the page's entry for its own, and guest memory does not run out. -/
structure Machine.MapOk (s : Machine) (root va pa : Nat) (prot : MemProt) : Prop where
  self : s.mmu.SelfMapped root
  fits : InDatabase (s.mmu.pfn pa) → InDatabase (pa / pageSize)
  leaf : ∀ pfn slot, InDatabase pfn → s.mmu.leafSlot root (pageAlign va) = some slot →
    s.mmu.points slot = some pfn → backOf s.database pfn = some slot → pfn = s.mmu.pfn pa
  room : (s.mmu.mapPage root va pa prot).2 = true

/-- Unmapping a page keeps the database in agreement: no other entry leads to the frame that is reported, and
a frame that is not reported has not the page's entry for its own. -/
structure Machine.UnmapOk (s : Machine) (root va : Nat) : Prop where
  sole : ∀ pa, s.mmu.shadowOf root (pageAlign va) = some pa → InDatabase (pa / pageSize) →
    ∀ slot, s.mmu.leafSlot root (pageAlign va) ≠ some slot → s.mmu.points slot ≠ some (pa / pageSize)
  shadowed : ∀ pfn slot, InDatabase pfn → s.mmu.leafSlot root (pageAlign va) = some slot →
    s.mmu.points slot = some pfn → (s.mmu.shadowOf root (pageAlign va)).map (· / pageSize) ≠ some pfn →
    backOf s.database pfn ≠ some slot

variable {root : Nat}

variable {prot : MemProt}

def Machine.MapLoopOk (root start pa : Nat) (prot : MemProt) : Nat → Nat → Machine → Prop
  | 0, _, _ => True
  | n + 1, k, s => s.MapOk root (pageOf start k) (pageOf pa k) prot ∧
      Machine.MapLoopOk root start pa prot n (k + 1) (s.mapPage root (pageOf start k) (pageOf pa k) prot).1

def Machine.UnmapLoopOk (root start : Nat) : Nat → Nat → Machine → Prop
  | 0, _, _ => True
  | n + 1, k, s => s.UnmapOk root (pageOf start k) ∧
      Machine.UnmapLoopOk root start n (k + 1) (s.unmapPage root (pageOf start k))

/-- Every page that a call maps or unmaps keeps the database in agreement, and none is under the slot of the
self map. -/
def Machine.CallOk (s : Machine) (call : Call) : Prop :=
  OffSlot selfMapIndex s.mmu call ∧
    match call with
    | .unmapVirt root va size => Machine.UnmapLoopOk root (pageAlign va) (pages size) 0 s
    | call => ∀ m j, s.mmu.job call = some (m, j) →
        Machine.MapLoopOk j.root j.start j.pa j.prot j.n 0 { s with mmu := m }

structure Machine.Sound (s : Machine) : Prop where
  leveled : Leveled selfMapIndex s.mmu
  agrees : Agrees databaseFrames s.mmu.points (backOf s.database)

def Machine.opStep (s : Machine) : Op → Option Machine
  | .call c => s.step c
  | .installSelfMap root =>
    if (s.mmu.spaces root).isSome then some { s with mmu := s.mmu.installSelfMap root } else none

/-- The machine before its first space, with the mmu reporting to a blank database. -/
def Machine.init (format : EntryFormat) : Machine where
  mmu := Mmu.init format

theorem Machine.opStep_leveled (h : Leveled selfMapIndex s.mmu) {op : Op}
    (hok : OffSelfMap s.mmu op) (hstep : s.opStep op = some s') : Leveled selfMapIndex s'.mmu := by
  cases op with
  | call c => exact (step_steady h hok (step_mmu hstep)).leveled
  | installSelfMap root =>
    obtain ⟨hlive, hs'⟩ := Option.ite_none_right_eq_some.mp hstep
    rw [← Option.some.inj hs']
    exact installSelfMap_leveled h (h.roots root hlive)

def Machine.Booted (s : Machine) : Prop :=
  ∃ format ops, Steps Machine.opStep (fun s op => OffSelfMap s.mmu op) (Machine.init format) ops s

theorem Machine.Booted.leveled (h : s.Booted) : Leveled selfMapIndex s.mmu := by
  obtain ⟨format, ops, hrun⟩ := h
  exact hrun.invariant (P := fun s => Leveled selfMapIndex s.mmu)
    (fun _ _ _ hs hok hstep => opStep_leveled hs hok hstep) (init_leveled _ format)

end Kernemul.X86
