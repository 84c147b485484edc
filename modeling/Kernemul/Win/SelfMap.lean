import Kernemul.Emu.X86.Levels
import Kernemul.Emu.X86.Shadow

/-!
# The self map of the page tables

Slot `0x1ED` of a PML4 leads back to the PML4, so a walk that starts with it stays one level higher and ends
at a table instead of a page. `pte_at_level` computes the addresses under which the entries of a walk are
read that way.
-/

namespace Kernemul.X86

open Run

/-- `self_map_pml4_index`. -/
def selfMapIndex : Nat := 0x1ED

def pteBase : Nat := 0xFFFFF68000000000

/-- One round of `pte_at_level`; the sum stays below `2 ^ 64`. -/
def pteOf (va : Nat) : Nat := pteBase + va / 0x1000 % 2 ^ 36 * 8

def pteAtLevel (va : Nat) : Nat → Nat
  | 0 => pteOf va
  | level + 1 => pteOf (pteAtLevel va level)

/-- The entry `install_self_map` writes. -/
def selfMapEntry (m : Mmu) (root : Nat) : PtEntry where
  present := true
  write := true
  accessed := true
  pageFrameNumber := m.pfn root

def Mmu.installSelfMap (m : Mmu) (root : Nat) : Mmu :=
  if root = 0 then m else m.writeEntry root selfMapIndex (selfMapEntry m root)

/-! ## Entries by their addresses -/

def Mmu.SelfMapped (m : Mmu) (root : Nat) : Prop := m.child root selfMapIndex = some root

/-- The entry that the walk of `va` uses at a level, as a table and an index: the PTE at level 0 up to the
PML4E at level 3. There is one when the tables above it are there. -/
def Mmu.entryOf (m : Mmu) (root va : Nat) : Nat → Option (Nat × Nat)
  | 0 => (m.pageTable root va).map (·, ptIndex va)
  | 1 => ((m.child root (pml4Index va)).bind fun pdpt => m.child pdpt (pdptIndex va)).map (·, pdIndex va)
  | 2 => (m.child root (pml4Index va)).map (·, pdptIndex va)
  | 3 => some (root, pml4Index va)
  | _ => none

def entryAddress (entry : Nat × Nat) : Nat := entry.1 + entry.2 * 8

/-- The addresses of `pte_at_level` translate to the entries of the walks, and tell them apart. -/
structure Mmu.ReadsTables (m : Mmu) (root : Nat) : Prop where
  translates : ∀ va level entry, m.entryOf root va level = some entry →
    (m.translateVirt root (pageAlign (pteAtLevel va level))).map
      (· + (pteAtLevel va level - pageAlign (pteAtLevel va level))) = some (entryAddress entry) ∧
    m.virtToPhys root (pteAtLevel va level) = some (wrap (entryAddress entry))
  distinct : ∀ va level entry va' level' entry', m.entryOf root va level = some entry →
    m.entryOf root va' level' = some entry' → entry ≠ entry' → pteAtLevel va level ≠ pteAtLevel va' level'

/-! ### The indices -/

theorem pml4Index_pteOf (va : Nat) : pml4Index (pteOf va) = selfMapIndex := by
  unfold pml4Index pteOf pteBase selfMapIndex
  omega

theorem pdptIndex_pteOf (va : Nat) : pdptIndex (pteOf va) = pml4Index va := by
  unfold pdptIndex pml4Index pteOf pteBase
  omega

theorem pdIndex_pteOf (va : Nat) : pdIndex (pteOf va) = pdptIndex va := by
  unfold pdIndex pdptIndex pteOf pteBase
  omega

theorem ptIndex_pteOf (va : Nat) : ptIndex (pteOf va) = pdIndex va := by
  unfold ptIndex pdIndex pteOf pteBase
  omega

theorem pteOf_offset (va : Nat) : pteOf va - pageAlign (pteOf va) = ptIndex va * 8 := by
  unfold pageAlign pageSize ptIndex pteOf pteBase
  omega

/-- The index of the entry that the walk of `va` uses at a level. -/
def indexAt (va : Nat) : Nat → Nat
  | 0 => ptIndex va
  | 1 => pdIndex va
  | 2 => pdptIndex va
  | 3 => pml4Index va
  | _ => selfMapIndex

theorem pteAtLevel_offset (va level : Nat) :
    pteAtLevel va level - pageAlign (pteAtLevel va level) = indexAt va level * 8 := by
  match level with
  | 0 => exact pteOf_offset va
  | 1 => rw [pteAtLevel, pteOf_offset, pteAtLevel, ptIndex_pteOf, indexAt]
  | 2 => simp only [pteAtLevel, pteOf_offset, ptIndex_pteOf, pdIndex_pteOf, indexAt]
  | 3 => simp only [pteAtLevel, pteOf_offset, ptIndex_pteOf, pdIndex_pteOf, pdptIndex_pteOf, indexAt]
  | level + 4 =>
    -- the root's own entry, and again and again that entry
    cases level with
    | zero =>
      simp only [pteAtLevel, pteOf_offset, ptIndex_pteOf, pdIndex_pteOf, pdptIndex_pteOf, pml4Index_pteOf,
        indexAt]
    | succ level =>
      simp only [pteAtLevel, pteOf_offset, ptIndex_pteOf, pdIndex_pteOf, pdptIndex_pteOf, pml4Index_pteOf,
        indexAt]

theorem entryOf_index {m : Mmu} {root va level : Nat} {entry : Nat × Nat}
    (h : m.entryOf root va level = some entry) : entry.2 = indexAt va level := by
  unfold Mmu.entryOf at h
  split at h
  · obtain ⟨t, -, rfl⟩ := Option.map_eq_some_iff.mp h
    rfl
  · obtain ⟨t, -, rfl⟩ := Option.map_eq_some_iff.mp h
    rfl
  · obtain ⟨t, -, rfl⟩ := Option.map_eq_some_iff.mp h
    rfl
  · obtain rfl := Option.some.inj h
    rfl
  · simp at h

theorem translateVirt_pageAlign (m : Mmu) (root va : Nat) :
    m.translateVirt root (pageAlign va) = m.translateVirt root va := by
  rw [translateVirt_eq, translateVirt_eq, leaf_congr m root (vpn_pageAlign va)]


theorem translateVirt_pteAtLevel {m : Mmu} {root : Nat} (hself : m.SelfMapped root) {va level : Nat}
    {entry : Nat × Nat} (hentry : m.entryOf root va level = some entry) :
    m.translateVirt root (pteAtLevel va level) = some entry.1 := by
  unfold Mmu.SelfMapped at hself
  match level with
  | 0 =>
    obtain ⟨pt, hpt, rfl⟩ := Option.map_eq_some_iff.mp hentry
    simpa only [pteAtLevel, Mmu.translateVirt, Mmu.pageTable, pml4Index_pteOf, pdptIndex_pteOf,
      pdIndex_pteOf, ptIndex_pteOf, hself, Option.bind_some, Option.bind_assoc] using hpt
  | 1 =>
    obtain ⟨pd, hpd, rfl⟩ := Option.map_eq_some_iff.mp hentry
    simpa only [pteAtLevel, Mmu.translateVirt, Mmu.pageTable, pml4Index_pteOf, pdptIndex_pteOf,
      pdIndex_pteOf, ptIndex_pteOf, hself, Option.bind_some, Option.bind_assoc] using hpd
  | 2 =>
    obtain ⟨pdpt, hpdpt, rfl⟩ := Option.map_eq_some_iff.mp hentry
    simpa only [pteAtLevel, Mmu.translateVirt, Mmu.pageTable, pml4Index_pteOf, pdptIndex_pteOf,
      pdIndex_pteOf, ptIndex_pteOf, hself, Option.bind_some] using hpdpt
  | 3 =>
    obtain rfl := Option.some.inj hentry
    simp only [pteAtLevel, Mmu.translateVirt, Mmu.pageTable, pml4Index_pteOf, pdptIndex_pteOf,
      pdIndex_pteOf, ptIndex_pteOf, hself, Option.bind_some]
  | level + 4 => cases hentry

/-- In every state of the tables in which the slot leads back, the entries are read under their addresses. -/
theorem Mmu.SelfMapped.readsTables {m : Mmu} {root : Nat} (hself : m.SelfMapped root) :
    m.ReadsTables root := by
  have htranslate : ∀ va level entry, m.entryOf root va level = some entry →
      m.translateVirt root (pageAlign (pteAtLevel va level)) = some entry.1 ∧
        pteAtLevel va level - pageAlign (pteAtLevel va level) = entry.2 * 8 := by
    intro va level entry hentry
    rw [translateVirt_pageAlign, pteAtLevel_offset, entryOf_index hentry]
    exact ⟨translateVirt_pteAtLevel hself hentry, rfl⟩
  refine ⟨fun va level entry hentry => ?_, fun va level entry va' level' entry' he he' hne heq => hne ?_⟩
  · obtain ⟨hwalk, hoffset⟩ := htranslate va level entry hentry
    unfold Mmu.virtToPhys Mmu.resolve
    rw [hwalk, hoffset]
    exact ⟨rfl, rfl⟩
  · obtain ⟨hwalk, hoffset⟩ := htranslate va level entry he
    obtain ⟨hwalk', hoffset'⟩ := htranslate va' level' entry' he'
    rw [heq] at hwalk hoffset
    exact Prod.ext (Option.some.inj (hwalk.symm.trans hwalk')) (by omega)

/-! ## Runs -/

inductive Op
  | call (c : Call)
  | installSelfMap (root : Nat)
  deriving DecidableEq, Repr

def opStep (m : Mmu) : Op → Option Mmu
  | .call c => step m c
  | .installSelfMap root => if (m.spaces root).isSome then some (m.installSelfMap root) else none

def OffSelfMap (m : Mmu) : Op → Prop
  | .call c => OffSlot selfMapIndex m c
  | .installSelfMap _ => True

instance (m : Mmu) (op : Op) : Decidable (OffSelfMap m op) :=
  match op with
  | .call c => inferInstanceAs (Decidable (OffSlot selfMapIndex m c))
  | .installSelfMap _ => inferInstanceAs (Decidable True)

section install
variable {m : Mmu} (h : Leveled selfMapIndex m) {root : Nat} (hroot : m.level root = 4)
include h hroot

theorem installSelfMap_eq :
    m.installSelfMap root = m.writeEntry root selfMapIndex (selfMapEntry m root) := by
  have hbase := (h.table root (by omega)).2.1
  exact if_neg (by unfold physBase at hbase; omega)

theorem installSelfMap_child (t i : Nat) : (m.installSelfMap root).child t i =
    if t = root ∧ i = selfMapIndex then some root else m.child t i := by
  obtain ⟨hpage, -, hlt, -⟩ := h.table root (by omega)
  rw [installSelfMap_eq h hroot, writeEntry_child]
  congr 1
  show some (pfnToPa (m.pfn root)) = _
  rw [pfnToPa_pfn m hpage (hlt.trans_le h.phys.2)]

theorem installSelfMap_selfMapped : (m.installSelfMap root).SelfMapped root := by
  rw [Mmu.SelfMapped, installSelfMap_child h hroot, if_pos ⟨rfl, rfl⟩]

theorem Mmu.SelfMapped.install {r : Nat} (hself : m.SelfMapped r) :
    (m.installSelfMap root).SelfMapped r := by
  rw [Mmu.SelfMapped, installSelfMap_child h hroot]
  split
  · rename_i heq
    rw [heq.1]
  · exact hself

theorem installSelfMap_level (t : Nat) : (m.installSelfMap root).level t = m.level t := by
  rw [installSelfMap_eq h hroot]
  rfl

theorem installSelfMap_leveled : Leveled selfMapIndex (m.installSelfMap root) := by
  have hchild := installSelfMap_child h hroot
  rw [installSelfMap_eq h hroot] at *
  refine ⟨h.phys, h.roots, h.base, h.table, fun t i h0 => ?_, fun t i c hl hs hc => ?_, h.kernel⟩
  · rw [writeEntry_mem, if_neg]
    · exact h.untouched t i h0
    · rintro ⟨rfl, -⟩
      exact absurd (hroot.symm.trans h0) (by decide)
  · rw [hchild] at hc
    split at hc
    · rename_i heq
      exact absurd ⟨heq.1 ▸ hroot, heq.2⟩ hs
    · exact h.child t i c hl hs hc

end install

theorem Mmu.SelfMapped.steady {m m' : Mmu} (hs : Steady selfMapIndex m m') {root : Nat}
    (hroot : m.level root = 4) (hself : m.SelfMapped root) : m'.SelfMapped root := by
  rw [Mmu.SelfMapped, child_def, hs.slot root hroot]
  exact hself

theorem selfMapped_run {m m' : Mmu} {ops : List Op} (hrun : Steps opStep OffSelfMap m ops m')
    (h : Leveled selfMapIndex m) : Leveled selfMapIndex m' ∧ ∀ root,
      m.level root = 4 ∧ m.SelfMapped root ∨ .installSelfMap root ∈ ops →
        m'.level root = 4 ∧ m'.SelfMapped root := by
  induction hrun with
  | nil => exact ⟨h, fun root hor => hor.resolve_right List.not_mem_nil⟩
  | @cons m m₁ m₂ op ops hok hstep _ ih =>
    cases op with
    | call c =>
      have hs := step_steady h hok hstep
      obtain ⟨hlevel, hself⟩ := ih hs.leveled
      refine ⟨hlevel, fun root hor => hself root (hor.imp (fun hold => ?_) fun hmem => ?_)⟩
      · exact ⟨hs.level_root hold.1, hold.2.steady hs hold.1⟩
      · exact (List.mem_cons.mp hmem).resolve_left (by simp)
    | installSelfMap r =>
      rw [opStep, Option.ite_none_right_eq_some] at hstep
      obtain ⟨hlive, rfl⟩ := hstep.imp_right Option.some.inj
      have hr := h.roots r hlive
      obtain ⟨hlevel, hself⟩ := ih (installSelfMap_leveled h hr)
      refine ⟨hlevel, fun root hor => hself root ?_⟩
      rcases hor with hold | hmem
      · exact Or.inl ⟨(installSelfMap_level h hr root).trans hold.1, hold.2.install h hr⟩
      · refine (List.mem_cons.mp hmem).imp (fun heq => ?_) id
        obtain rfl := Op.installSelfMap.inj heq
        exact ⟨(installSelfMap_level h hr root).trans hr, installSelfMap_selfMapped h hr⟩

/-- **The self map reads the tables.** Where `install_self_map` has run, the slot leads back as long as no
call names a page under it, and in every state of the tables in which it leads back, the addresses of
`pte_at_level` translate to the entries of the walks. -/
theorem selfMap_correct {format : EntryFormat} {ops : List Op} {m : Mmu}
    (hrun : Steps opStep OffSelfMap (Mmu.init format) ops m) :
    (∀ root, .installSelfMap root ∈ ops → m.SelfMapped root) ∧
      ∀ (tables : Mmu) (root : Nat), tables.SelfMapped root → tables.ReadsTables root :=
  ⟨fun root hmem => ((selfMapped_run hrun (init_leveled _ format)).2 root (Or.inr hmem)).2,
    fun _ _ hself => hself.readsTables⟩

def mappedSpace : List Op :=
  [.call .createAddrSpace, .installSelfMap 0x100000000, .call (.mapVirt 0x100000000 0x401000 0x1000 protRw),
    .call (.alloc 0x100000000 0x1000 { protRw with supervisor := true })]

theorem mappedSpace_reads : ∃ m, Steps opStep OffSelfMap (Mmu.init pfn36) mappedSpace m ∧
    m.ReadsTables 0x100000000 ∧
    m.virtToPhys 0x100000000 (pteAtLevel 0x401000 0) = some 0x100004008 ∧
    m.virtToPhys 0x100000000 (pteAtLevel 0xFFFFF80000000000 2) = some 0x100006000 := by
  have hexec : (Run.exec opStep (fun m op => decide (OffSelfMap m op)) (Mmu.init pfn36) mappedSpace).map
      (fun m => (m.virtToPhys 0x100000000 (pteAtLevel 0x401000 0),
        m.virtToPhys 0x100000000 (pteAtLevel 0xFFFFF80000000000 2))) =
      some (some 0x100004008, some 0x100006000) := by decide +kernel
  obtain ⟨m, hm, hval⟩ := Option.map_eq_some_iff.mp hexec
  obtain ⟨h1, h2⟩ := Prod.mk.inj hval
  have hrun := Run.Steps.of_exec (fun _ _ => of_decide_eq_true) hm
  obtain ⟨hself, hreads⟩ := selfMap_correct hrun
  exact ⟨m, hrun, hreads m _ (hself _ (by decide)), h1, h2⟩

end Kernemul.X86
