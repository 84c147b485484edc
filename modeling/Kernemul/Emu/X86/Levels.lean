import Kernemul.Emu.X86.Calls

/-!
# Tables with a free slot

One slot of every PML4 may lead anywhere, also back to the PML4. Away from it the tables still lead one level
down (`Leveled`), and a call that names no page under the slot keeps that, the levels of the tables and what
the slots hold (`Steady`). Unlike `TreeInv` this says nothing about two slots that lead to one table.
-/

namespace Kernemul.X86

/-- Tables lead one level down, but for the free slot of the PML4s. -/
structure Leveled (free : Nat) (m : Mmu) : Prop where
  phys : IsPage m.physNext ∧ m.physNext ≤ physEnd
  roots : ∀ r, (m.spaces r).isSome → m.level r = 4
  base : physBase ≤ m.physNext
  table : ∀ t, m.level t ≠ 0 → IsPage t ∧ physBase ≤ t ∧ t < m.physNext ∧ m.level t ≤ 4
  untouched : ∀ t i, m.level t = 0 → m.mem t i = {}
  child : ∀ t i c, 2 ≤ m.level t → ¬ (m.level t = 4 ∧ i = free) → m.child t i = some c →
    m.level c + 1 = m.level t
  kernel : m.kernelPml4Pa ≠ 0 → (m.spaces m.kernelPml4Pa).isSome

theorem init_leveled (free : Nat) (format : EntryFormat) : Leveled free (Mmu.init format) :=
  let h := init_treeInv format
  ⟨h.phys, h.roots, le_rfl, fun _ ht => absurd rfl ht, h.untouched, fun t i c ht _ hc => h.child t i c ht hc,
    h.kernel⟩

structure Steady (free : Nat) (m m' : Mmu) : Prop where
  leveled : Leveled free m'
  level : ∀ t, m.level t ≠ 0 → m'.level t = m.level t
  live : ∀ r, (m.spaces r).isSome → (m'.spaces r).isSome
  slot : ∀ r, m.level r = 4 → m'.mem r free = m.mem r free

variable {free : Nat} {m m' m₁ m₂ : Mmu}

theorem Steady.refl (h : Leveled free m) : Steady free m m := ⟨h, fun _ _ => rfl, fun _ => id, fun _ _ => rfl⟩

theorem Steady.trans (h : Steady free m m₁) (h' : Steady free m₁ m₂) : Steady free m m₂ := by
  refine ⟨h'.leveled, fun t ht => ?_, fun r hr => h'.live r (h.live r hr), fun r hr => ?_⟩
  · rw [h'.level t (by rw [h.level t ht]; exact ht), h.level t ht]
  · rw [h'.slot r (by rw [h.level r (by omega)]; exact hr), h.slot r hr]

variable {root : Nat}

theorem Steady.level_root (h : Steady free m m') (hroot : m.level root = 4) :
    m'.level root = 4 := by
  rw [h.level root (by omega), hroot]

theorem Leveled.level_physNext (h : Leveled free m) : m.level m.physNext = 0 := by
  by_contra hne
  exact lt_irrefl _ (h.table m.physNext hne).2.2.1

theorem Leveled.aside (h : Leveled free m) (ha : Aside m m') : Steady free m m' := by
  refine ⟨⟨ha.phys.2, fun r hr => ?_, h.base.trans ha.phys.1, fun t ht => ?_, fun t i ht => ?_,
    fun t i c ht hs hc => ?_, fun hk => ?_⟩,
    fun t _ => by rw [ha.level], fun r hr => by rw [ha.live]; exact hr, fun r _ => by rw [ha.mem]⟩
  · rw [ha.live] at hr
    rw [ha.level]
    exact h.roots r hr
  · rw [ha.level] at ht ⊢
    obtain ⟨hp, hbase, hlt, hle⟩ := h.table t ht
    exact ⟨hp, hbase, hlt.trans_le ha.phys.1, hle⟩
  · rw [ha.level] at ht
    rw [ha.mem]
    exact h.untouched t i ht
  · rw [ha.level] at ht hs ⊢
    rw [ha.child] at hc
    exact h.child t i c ht hs hc
  · rw [ha.kernel] at hk ⊢
    rw [ha.live]
    exact h.kernel hk

/-! ## Writing an entry -/

/-- An entry that may be written in a slot of a table: it leads one level down, or the table is a page table. -/
theorem Leveled.write (h : Leveled free m) {table index : Nat} {e : PtEntry} (ht : m.level table ≠ 0)
    (hs : ¬ (m.level table = 4 ∧ index = free))
    (he : ∀ c, 2 ≤ m.level table → e.target = some c → m.level c + 1 = m.level table) :
    Steady free m (m.writeEntry table index e) := by
  refine ⟨⟨h.phys, h.roots, h.base, h.table, fun t i h0 => ?_, fun t i c hl hfree hc => ?_, h.kernel⟩,
    fun _ _ => rfl, fun _ => id, fun r hr => ?_⟩
  · rw [writeEntry_mem, if_neg]
    · exact h.untouched t i h0
    · intro heq
      rw [heq.1] at h0
      exact ht h0
  · rw [writeEntry_child] at hc
    split at hc
    · rename_i heq
      rw [heq.1] at hl ⊢
      exact he c hl hc
    · exact h.child t i c hl hfree hc
  · rw [writeEntry_mem, if_neg]
    intro heq
    rw [heq.1] at hr
    exact hs ⟨hr, heq.2.symm⟩

/-! ## `ensure_table` -/

/-- The slot leads to `c` now, one level down; it did before, or it was empty. -/
structure Ensures (free : Nat) (m : Mmu) (table index : Nat) (m' : Mmu) (c : Nat) : Prop
    extends Steady free m m' where
  format : m'.format = m.format
  spaces : m'.spaces = m.spaces
  slots : ∀ t i, m'.child t i = if t = table ∧ i = index then some c else m.child t i
  kept : ∀ t i f, m.child t i = some f → m'.child t i = some f
  found : m.child table index = some c ∨ m.level c = 0
  below : m'.level c + 1 = m'.level table

theorem Leveled.hang (h : Leveled free m) {table index : Nat} (user : Bool)
    (hroom : m.physNext + pageSize ≤ physEnd) (ht : 2 ≤ m.level table)
    (hs : ¬ (m.level table = 4 ∧ index = free)) (hp : (m.mem table index).present = false) :
    Ensures free m table index (m.hang table index user) m.physNext := by
  have hlt : m.physNext < m.physNext + pageSize := Nat.lt_add_of_pos_right (by decide)
  have hold : ∀ t, m.level t ≠ 0 → (m.hang table index user).level t = m.level t :=
    fun _ => hang_level h.level_physNext
  have hslots : ∀ t i, (m.hang table index user).child t i =
      if t = table ∧ i = index then some m.physNext else m.child t i := hang_child h.phys.1 hroom
  have hnew := hang_level_new m table index user
  refine ⟨⟨⟨⟨h.phys.1.add isPage_pageSize, hroom⟩, fun r hr => ?_, h.base.trans hlt.le, fun t hne => ?_,
    fun t i h0 => ?_, fun t i c hl hfree hc => ?_, h.kernel⟩, hold, fun _ => id, fun r hr => ?_⟩, rfl, rfl, hslots,
    fun t i f hf => ?_, Or.inr h.level_physNext, ?_⟩
  · have h4 := h.roots r hr
    rw [hold r (by omega), h4]
  · rcases hang_level_cases m table index user t with ⟨rfl, hl⟩ | ⟨-, hl⟩
    · have := (h.table table (by omega)).2.2.2
      rw [hl]
      exact ⟨h.phys.1, h.base, hlt, by omega⟩
    · rw [hl] at hne ⊢
      obtain ⟨h1, h2, h3, h4⟩ := h.table t hne
      exact ⟨h1, h2, h3.trans hlt, h4⟩
  · rcases hang_level_cases m table index user t with ⟨-, hl⟩ | ⟨-, hl⟩
    · omega
    · rw [hl] at h0
      rw [hang_mem_of_ne m table index user i (by rintro rfl; omega)]
      exact h.untouched t i h0
  · rw [hslots] at hc
    split at hc
    · rename_i heq
      obtain rfl := Option.some.inj hc
      rw [heq.1, hnew, hold table (by omega)]
      omega
    · -- an old slot of an old table: the new one is empty
      have htn : m.level t ≠ 0 := by
        intro h0
        rw [child_def, h.untouched t i h0] at hc
        simp at hc
      rw [hold t htn] at hl hfree ⊢
      have hlevel := h.child t i c hl hfree hc
      rw [hold c (by omega), hlevel]
  · show (if r = table ∧ free = index then _ else _) = _
    rw [if_neg]
    rintro ⟨rfl, rfl⟩
    exact hs ⟨hr, rfl⟩
  · rw [hslots, if_neg]
    · exact hf
    · rintro ⟨rfl, rfl⟩
      rw [child_def, target_eq_none.mpr hp] at hf
      simp at hf
  · rw [hnew, hold table (by omega)]
    omega

theorem ensureTable_leveled (h : Leveled free m) (table index : Nat) (user : Bool)
    (ht : 2 ≤ m.level table) (hs : ¬ (m.level table = 4 ∧ index = free)) :
    m.ensureTable table index user = (m, none) ∨
      ∃ m' c, m.ensureTable table index user = (m', some c) ∧ Ensures free m table index m' c := by
  rcases ensureTable_cases m h.phys.2 table index user with ⟨c, hc, ⟨he, -⟩ | he⟩ | ⟨-, -, he⟩ |
    ⟨hp, hroom, he⟩
  · refine Or.inr ⟨m, c, he, ⟨Steady.refl h, rfl, rfl, fun t i => ?_, fun _ _ _ => id,
      Or.inl hc, h.child _ _ c ht hs hc⟩⟩
    split
    · rename_i heq
      rw [heq.1, heq.2, hc]
    · rfl
  · have hslots : ∀ t i, (m.writeEntry table index { m.mem table index with supervisor := true }).child t i =
        if t = table ∧ i = index then some c else m.child t i := fun t i => by
      rw [writeEntry_child, ← hc]
      rfl
    have hwrite : Steady free m (m.writeEntry table index { m.mem table index with supervisor := true }) :=
      h.write (by omega) hs fun c' hl hc' => h.child _ _ c' hl hs hc'
    refine Or.inr ⟨_, c, he, ⟨hwrite, rfl, rfl, hslots, fun t i f hf => ?_, Or.inl hc,
      h.child _ _ c ht hs hc⟩⟩
    rw [hslots]
    split
    · rename_i heq
      rw [heq.1, heq.2, hc] at hf
      exact hf
    · exact hf
  · exact Or.inl he
  · exact Or.inr ⟨_, _, he, h.hang user hroom ht hs hp⟩

/-! ## The path to a page -/

/-- The three calls of `ensure_table` in `map_page`, with the three tables they return. -/
def Mmu.ensureTables (m : Mmu) (root va : Nat) (user : Bool) : Mmu × Option (Nat × Nat × Nat) :=
  match m.ensureTable root (pml4Index va) user with
  | (m, none) => (m, none)
  | (m, some pdpt) =>
    match m.ensureTable pdpt (pdptIndex va) user with
    | (m, none) => (m, none)
    | (m, some pd) =>
      match m.ensureTable pd (pdIndex va) user with
      | (m, none) => (m, none)
      | (m, some pt) => (m, some (pdpt, pd, pt))

theorem ensurePath_eq (m : Mmu) (root va : Nat) (user : Bool) :
    m.ensurePath root va user =
      ((m.ensureTables root va user).1, (m.ensureTables root va user).2.map fun tables => tables.2.2) := by
  unfold Mmu.ensurePath Mmu.ensureTables
  rcases m.ensureTable root (pml4Index va) user with ⟨m₁, _ | pdpt⟩
  · rfl
  · rcases hpd : m₁.ensureTable pdpt (pdptIndex va) user with ⟨m₂, _ | pd⟩
    · simp only [hpd, Option.map_none]
    · rcases hpt : m₂.ensureTable pd (pdIndex va) user with ⟨m₃, _ | pt⟩
      · simp only [hpd, hpt, Option.map_none]
      · simp only [hpd, hpt, Option.map_some]

theorem Ensures.found_old {table index c : Nat} (h : Leveled free m) (hs : Steady free m m₁)
    (hold : ∀ i, m₁.child table i = m.child table i) (he : Ensures free m₁ table index m₂ c) :
    m.child table index = some c ∧ m.level table ≠ 0 ∨ m.level c = 0 := by
  rcases he.found with hc | hnew
  · rw [hold] at hc
    refine Or.inl ⟨hc, fun h0 => ?_⟩
    rw [child_def, h.untouched table index h0] at hc
    simp at hc
  · refine Or.inr ?_
    by_contra hne
    rw [hs.level c hne] at hnew
    exact hne hnew

/-- The tables of `va` are there: three slots lead to them, the others are as they were. -/
structure Reaches (free : Nat) (m : Mmu) (root va : Nat) (m' : Mmu) (pdpt pd pt : Nat) : Prop
    extends Steady free m m' where
  format : m'.format = m.format
  spaces : m'.spaces = m.spaces
  slots : ∀ t i, m'.child t i =
    if t = pd ∧ i = pdIndex va then some pt
    else if t = pdpt ∧ i = pdptIndex va then some pd
    else if t = root ∧ i = pml4Index va then some pdpt else m.child t i
  kept : ∀ t i f, m.child t i = some f → m'.child t i = some f
  found : m.pageTable root va = some pt ∨ m.level pt = 0
  levels : m'.level pdpt = 3 ∧ m'.level pd = 2 ∧ m'.level pt = 1

variable {va pt : Nat}

theorem Reaches.apart {pdpt pd : Nat} (hr : Reaches free m root va m' pdpt pd pt) (hroot : m.level root = 4) :
    pdpt ≠ root ∧ pd ≠ root ∧ pt ≠ root ∧ pd ≠ pdpt ∧ pt ≠ pdpt ∧ pt ≠ pd := by
  have h4 := hr.level_root hroot
  obtain ⟨h3, h2, h1⟩ := hr.levels
  refine ⟨?_, ?_, ?_, ?_, ?_, ?_⟩ <;>
  · rintro rfl
    omega

theorem Reaches.walk {pdpt pd : Nat} (hr : Reaches free m root va m' pdpt pd pt) (hroot : m.level root = 4) :
    m'.child root (pml4Index va) = some pdpt ∧ m'.child pdpt (pdptIndex va) = some pd ∧
      m'.child pd (pdIndex va) = some pt := by
  obtain ⟨h34, h24, -, h23, -, -⟩ := hr.apart hroot
  refine ⟨?_, ?_, ?_⟩ <;> rw [hr.slots]
  · rw [if_neg fun heq => h24 heq.1.symm, if_neg fun heq => h34 heq.1.symm, if_pos ⟨rfl, rfl⟩]
  · rw [if_neg fun heq => h23 heq.1.symm, if_pos ⟨rfl, rfl⟩]
  · rw [if_pos ⟨rfl, rfl⟩]

theorem ensureTables_leveled (h : Leveled free m) (user : Bool)
    (hroot : m.level root = 4) (hva : pml4Index va ≠ free) :
    (∃ m', m.ensureTables root va user = (m', none) ∧ Steady free m m') ∨
      ∃ m' pdpt pd pt, m.ensureTables root va user = (m', some (pdpt, pd, pt)) ∧
        Reaches free m root va m' pdpt pd pt := by
  unfold Mmu.ensureTables
  rcases ensureTable_leveled h root (pml4Index va) user (by omega) (fun hs => hva hs.2) with
    he | ⟨m₁, pdpt, he, h₁⟩
  · simp only [he]
    exact Or.inl ⟨m, rfl, Steady.refl h⟩
  · have hl₁ : m₁.level pdpt = 3 := by
      have := h₁.below
      have := h₁.level_root hroot
      omega
    simp only [he]
    rcases ensureTable_leveled h₁.leveled pdpt (pdptIndex va) user (by omega) (by omega) with
      he | ⟨m₂, pd, he, h₂⟩
    · simp only [he]
      exact Or.inl ⟨m₁, rfl, h₁.toSteady⟩
    · have hl₂ : m₂.level pd = 2 := by
        have := h₂.below
        have := h₂.level pdpt (by omega)
        omega
      simp only [he]
      rcases ensureTable_leveled h₂.leveled pd (pdIndex va) user (by omega) (by omega) with
        he | ⟨m₃, pt, he, h₃⟩
      · simp only [he]
        exact Or.inl ⟨m₂, rfl, h₁.toSteady.trans h₂.toSteady⟩
      · simp only [he]
        refine Or.inr ⟨m₃, pdpt, pd, pt, rfl, (h₁.toSteady.trans h₂.toSteady).trans h₃.toSteady,
          (h₃.format.trans h₂.format).trans h₁.format, (h₃.spaces.trans h₂.spaces).trans h₁.spaces,
          fun t i => ?_, fun t i f hf => h₃.kept t i f (h₂.kept t i f (h₁.kept t i f hf)), ?_, ?_⟩
        · rw [h₃.slots, h₂.slots, h₁.slots]
        · have hs₂ := h₁.toSteady.trans h₂.toSteady
          have hold₁ : ∀ i, m₁.child pdpt i = m.child pdpt i := fun i => by
            rw [h₁.slots, if_neg]
            rintro ⟨heq, -⟩
            have := h₁.level_root hroot
            rw [← heq] at this
            omega
          have hold₂ : ∀ i, m₂.child pd i = m.child pd i := fun i => by
            rw [h₂.slots, h₁.slots, if_neg, if_neg]
            · rintro ⟨rfl, -⟩
              have := hs₂.level_root hroot
              omega
            · rintro ⟨rfl, -⟩
              have := h₂.level pd (by omega)
              omega
          rcases h₃.found_old h hs₂ hold₂ with ⟨hpt, hpd⟩ | hnew
          · obtain ⟨hpd, hpdpt⟩ := (h₂.found_old h h₁.toSteady hold₁).resolve_right hpd
            have hpdpt := h₁.found.resolve_right hpdpt
            refine Or.inl ?_
            simp only [Mmu.pageTable, hpdpt, hpd, hpt, Option.bind_some]
          · exact Or.inr hnew
        · have h2 := h₂.level pdpt (by omega)
          have h3 := h₃.level pdpt (by omega)
          have h4 := h₃.level pd (by omega)
          have := h₃.below
          omega

/-! ## Pages -/

theorem Leveled.pageTable (h : Leveled free m) (hroot : m.level root = 4)
    (hva : pml4Index va ≠ free) (hpt : m.pageTable root va = some pt) : m.level pt = 1 := by
  unfold Mmu.pageTable at hpt
  obtain ⟨pdpt, h1, hpt⟩ := Option.bind_eq_some_iff.mp hpt
  obtain ⟨pd, h2, h3⟩ := Option.bind_eq_some_iff.mp hpt
  have hl1 := h.child root _ pdpt (by omega) (fun hs => hva hs.2) h1
  have hl2 := h.child pdpt _ pd (by omega) (by omega) h2
  have hl3 := h.child pd _ pt (by omega) (by omega) h3
  omega

theorem Leveled.writeLeaf (h : Leveled free m) (hpt : m.level pt = 1) (index : Nat)
    (e : PtEntry) : Steady free m (m.writeEntry pt index e) :=
  h.write (by omega) (by omega) fun _ hl => by omega

theorem Leveled.setPage (h : Leveled free m) (hpt : m.level pt = 1) (root v : Nat)
    (e : PtEntry) (shadow : Option Nat) : Steady free m (m.setPage root v pt e shadow) := by
  have hw := h.writeLeaf hpt (ptIndex v) e
  exact hw.trans (hw.leveled.aside (updateSpace_aside hw.leveled.phys root _))

theorem mapPage_eq (m : Mmu) (root va pa : Nat) (prot : MemProt) : m.mapPage root va pa prot =
    match m.ensureTables root (pageAlign va) (!prot.supervisor) with
    | (m, none) => (m, false)
    | (m, some (_, _, pt)) =>
      (m.setPage root (pageAlign va) pt (leafEntry m pa prot) (some pa), true) := by
  simp only [Mmu.mapPage, ensurePath_eq]
  rcases m.ensureTables root (pageAlign va) (!prot.supervisor) with ⟨m', _ | ⟨pdpt, pd, pt⟩⟩ <;> rfl

theorem mapPage_steady (h : Leveled free m) (pa : Nat) (prot : MemProt)
    (hroot : m.level root = 4) (hva : pml4Index va ≠ free) :
    Steady free m (m.mapPage root va pa prot).1 := by
  rw [← pml4Index_pageAlign] at hva
  rw [mapPage_eq]
  rcases ensureTables_leveled h (!prot.supervisor) hroot hva with ⟨m', he, hs⟩ | ⟨m', pdpt, pd, pt, he, hr⟩
  · rw [he]
    exact hs
  · rw [he]
    exact hr.toSteady.trans (hr.leveled.setPage hr.levels.2.2 root _ _ _)

theorem unmapPage_steady (h : Leveled free m) (hroot : m.level root = 4)
    (hva : pml4Index va ≠ free) : Steady free m (m.unmapPage root va) := by
  rw [← pml4Index_pageAlign] at hva
  rw [unmapPage_eq]
  cases hpt : m.pageTable root (pageAlign va) with
  | none => exact h.aside (updateSpace_aside h.phys root _)
  | some pt => exact h.setPage (h.pageTable hroot hva hpt) root _ _ _

theorem protPage_steady (h : Leveled free m) {v : Nat} (prot : MemProt) (hroot : m.level root = 4)
    (hva : pml4Index v ≠ free) : Steady free m (m.protPage root v prot) := by
  rw [protPage_eq]
  cases hpt : m.pageTable root v with
  | none => exact Steady.refl h
  | some pt => exact h.writeLeaf (h.pageTable hroot hva hpt) _ _

/-! ## Calls -/

def Mmu.named (m : Mmu) : Call → Option (Nat × Nat)
  | .unmapVirt _ va size => some (pageAlign va, pages size)
  | .protVirt _ va size _ => some (pageAlign va, pages size)
  | call => (m.job call).map fun r => (r.2.start, r.2.n)

def OffSlot (free : Nat) (m : Mmu) (call : Call) : Prop :=
  ∀ r ∈ m.named call, ∀ k < r.2, pml4Index (pageOf r.1 k) ≠ free

instance (free : Nat) (m : Mmu) (call : Call) : Decidable (OffSlot free m call) :=
  inferInstanceAs (Decidable (∀ r ∈ m.named call, _))

theorem named_job {call : Call} {r : Mmu × MapJob} (hj : m.job call = some r) :
    m.named call = some (r.2.start, r.2.n) := by
  have hmap : (m.job call).map (fun r => (r.2.start, r.2.n)) = some (r.2.start, r.2.n) := by
    rw [hj]
    rfl
  cases call with
  | unmapVirt | protVirt => simp [Mmu.job] at hj
  | _ => exact hmap

theorem createAddrSpace_steady (h : Leveled free m)
    (hc : m.createAddrSpace = some (root, m')) : Steady free m m' := by
  have hfresh := h.level_physNext
  obtain ⟨rfl, hroom, -, hkernel, hphys, hlevel, hspaces, hmem⟩ :=
    createAddrSpace_eq h.phys.2 (fun i => h.untouched m.physNext i hfresh) hc
  have hlt : m.physNext < m.physNext + pageSize := Nat.lt_add_of_pos_right (by decide)
  have hold : ∀ t, m.level t ≠ 0 → m'.level t = m.level t ∧ ∀ i, m'.mem t i = m.mem t i := by
    intro t ht
    have hne : t ≠ m.physNext := by
      rintro rfl
      exact ht hfresh
    exact ⟨by rw [hlevel, if_neg hne], fun i => by rw [hmem, if_neg hne]⟩
  refine ⟨⟨?_, fun r hr => ?_, ?_, fun t ht => ?_, fun t i ht => ?_, fun t i c hl hs hc => ?_, fun hk => ?_⟩,
    fun t ht => (hold t ht).1, fun r hr => ?_, fun r hr => (hold r (by omega)).2 free⟩
  · rw [hphys]
    exact ⟨h.phys.1.add isPage_pageSize, hroom⟩
  · rw [hspaces] at hr
    rw [hlevel]
    split
    · rfl
    · rename_i hne
      rw [if_neg hne] at hr
      exact h.roots r hr
  · rw [hphys]
    exact h.base.trans hlt.le
  · rw [hlevel] at ht ⊢
    rw [hphys]
    split
    · rename_i heq
      rw [heq]
      exact ⟨h.phys.1, h.base, hlt, le_rfl⟩
    · rename_i hne
      rw [if_neg hne] at ht
      obtain ⟨h1, h2, h3, h4⟩ := h.table t ht
      exact ⟨h1, h2, h3.trans hlt, h4⟩
  · rw [hlevel] at ht
    split at ht
    · simp at ht
    · rename_i hne
      rw [hmem, if_neg hne]
      exact h.untouched t i ht
  · rw [child_def, hmem] at hc
    by_cases heq : t = m.physNext
    · -- the new root has slots of the first one
      have hnew : m'.level t = 4 := by rw [hlevel, if_pos heq]
      rw [if_pos heq] at hc
      obtain ⟨hk, -, -, hc⟩ := inherited_target hc
      have h4 := h.roots _ (h.kernel hk)
      have hlevel' := h.child _ i c (by omega) (fun hi => hs ⟨hnew, hi.2⟩) hc
      rw [(hold c (by omega)).1]
      omega
    · have hsame : m'.level t = m.level t := by rw [hlevel, if_neg heq]
      rw [if_neg heq] at hc
      rw [hsame] at hl hs ⊢
      have hlevel' := h.child t i c hl hs hc
      rw [(hold c (by omega)).1]
      exact hlevel'
  · have hold : (m.spaces m'.kernelPml4Pa).isSome ∨ m'.kernelPml4Pa = m.physNext := by
      rw [hkernel]
      split
      · exact Or.inr rfl
      · rename_i hne
        exact Or.inl (h.kernel hne)
    rw [hspaces]
    split
    · rfl
    · rename_i hne
      exact hold.resolve_right hne
  · rw [hspaces]
    split
    · rfl
    · exact hr

theorem step_steady (h : Leveled free m) {call : Call} (hok : OffSlot free m call)
    (hstep : step m call = some m') : Steady free m m' := by
  rcases step_did h.phys hstep with ⟨hp, -, -, -, -, -⟩ | ⟨root, -, hc⟩ | ⟨m₀, j, hj, hlive, rfl⟩ |
    ⟨root, va, size, rfl, hlive, rfl⟩ | ⟨root, va, size, prot, rfl, hlive, rfl⟩
  · exact h.aside hp.toAside
  · exact createAddrSpace_steady h hc
  · obtain ⟨hp, -, -⟩ := job_spec h.phys hj
    have h₀ := h.aside hp.toAside
    refine (mapLoop_induct (fun _ m' => Steady free m m') (fun _ => True) j.root j.start j.pa j.prot j.n
      ?_ ?_ j.n 0 m₀ (Nat.zero_add _) h₀).1
    · intro k m₁ m₂ hk hs hm
      have hnext := mapPage_steady hs.leveled (pageOf j.pa k) j.prot (hs.level_root (h.roots _ hlive))
        (hok _ (named_job hj) k hk)
      rw [hm] at hnext
      exact hs.trans hnext
    · intro k m₁ m₂ hk hs hm
      have hnext := mapPage_steady hs.leveled (pageOf j.pa k) j.prot (hs.level_root (h.roots _ hlive))
        (hok _ (named_job hj) k hk)
      rw [hm] at hnext
      exact ⟨hs.trans hnext, trivial⟩
  · refine unmapLoop_induct (fun _ m' => Steady free m m') ?_ (pages size) 0 m (Nat.zero_add _)
      (Steady.refl h)
    intro k m₁ hk hs
    exact hs.trans (unmapPage_steady hs.leveled (hs.level_root (h.roots _ hlive)) (hok _ rfl k hk))
  · refine protLoop_induct (fun _ m' => Steady free m m') ?_ (pages size) 0 m (Nat.zero_add _)
      (Steady.refl h)
    intro k m₁ hk hs
    exact hs.trans (protPage_steady hs.leveled prot (hs.level_root (h.roots _ hlive)) (hok _ rfl k hk))

end Kernemul.X86
