import Kernemul.Emu.X86.Mmu
import Kernemul.Lib.Walk

/-!
# The tables are a forest

`TreeInv` says that every table hangs in one slot of a table one level up, the PML4s apart, and that
only the kernel-half slots of PML4s may lead to the same table. `ensure_table` hangs empty tables into
empty slots (`Grow`), which leaves every translation as it was; `map_page`, `unmap_page` and `prot_virt`
then write one slot of one page table.
-/

namespace Kernemul.X86

open Walk

structure TreeInv (m : Mmu) : Prop where
  phys : IsPage m.physNext ∧ m.physNext ≤ physEnd
  roots : ∀ r, (m.spaces r).isSome → m.level r = 4
  table : ∀ t, m.level t ≠ 0 → IsPage t ∧ t < m.physNext ∧ m.level t ≤ 4
  untouched : ∀ t i, m.level t = 0 → m.mem t i = {}
  child : ∀ t i c, 2 ≤ m.level t → m.child t i = some c → m.level c + 1 = m.level t
  unique : ∀ t i t' i' c, 2 ≤ m.level t → 2 ≤ m.level t' → m.child t i = some c →
    m.child t' i' = some c →
    t = t' ∧ i = i' ∨ m.level t = 4 ∧ m.level t' = 4 ∧ i = i' ∧ 256 ≤ i
  hung : ∀ t, m.level t ≠ 0 → m.level t ≤ 3 → ∃ p i, 2 ≤ m.level p ∧ m.child p i = some t
  kernel : m.kernelPml4Pa ≠ 0 → (m.spaces m.kernelPml4Pa).isSome

variable {m : Mmu}

theorem TreeInv.kernel_level (h : TreeInv m) (hk : m.kernelPml4Pa ≠ 0) :
    m.level m.kernelPml4Pa = 4 := h.roots _ (h.kernel hk)

/-! ## Frame numbers -/

theorem pfnToPa_pfn (m : Mmu) {pa : Nat} (hp : IsPage pa) (hlt : pa < physEnd) :
    pfnToPa (m.pfn pa) = pa := by
  have hfits := m.format.fits
  unfold Mmu.pfn pfnToPa
  rw [Nat.mod_eq_of_lt]
  · unfold IsPage pageSize at *
    omega
  · rw [Nat.pow_add] at hfits
    unfold pageSize
    omega

/-! ## Growing -/

/-- The tables of `m'` are those of `m` with empty tables hung in, and entries made user reachable. -/
structure Grow (m m' : Mmu) : Prop where
  format : m'.format = m.format
  spaces : m'.spaces = m.spaces
  kernel : m'.kernelPml4Pa = m.kernelPml4Pa
  phys : m.physNext ≤ m'.physNext
  level : ∀ t, m.level t ≠ 0 → m'.level t = m.level t
  fresh : ∀ t, m.level t = 0 → m'.level t ≠ 0 → m.physNext ≤ t
  leaf : ∀ t i, m'.level t = 1 → m'.mem t i = m.mem t i
  entry : ∀ t i, 2 ≤ m.level t → (m.mem t i).present = true →
    m'.mem t i = m.mem t i ∨ m'.mem t i = { m.mem t i with supervisor := true }
  hangs : ∀ t i c, 2 ≤ m'.level t → m'.child t i = some c →
    m.level t ≠ 0 ∧ m.child t i = some c ∨ m.level c = 0
  made : ∀ t i, 2 ≤ m'.level t → (m'.mem t i).present = true →
    2 ≤ m.level t ∧ (m.mem t i).present = true ∨
      (m'.mem t i).write = true ∧ (m'.mem t i).executeDisable = false

theorem Grow.refl (m : Mmu) : Grow m m := by
  refine ⟨rfl, rfl, rfl, le_rfl, fun _ _ => rfl, fun t h0 h1 => absurd h0 h1, fun _ _ _ => rfl,
    fun _ _ _ _ => Or.inl rfl, fun t i c ht hc => Or.inl ⟨?_, hc⟩, fun t i ht hp => Or.inl ⟨ht, hp⟩⟩
  omega

theorem Grow.child_old {m' : Mmu} (h : Grow m m') {t i c : Nat} (ht : 2 ≤ m.level t)
    (hc : m.child t i = some c) : m'.child t i = some c := by
  unfold Mmu.child at *
  simp only at *
  split at hc
  · rename_i hp
    rcases h.entry t i ht hp with he | he
    · rw [he, if_pos hp]
      exact hc
    · rw [he, if_pos (by exact hp)]
      exact hc
  · simp at hc

theorem Grow.trans {m₁ m₂ : Mmu} (h : Grow m m₁) (h' : Grow m₁ m₂) (hinv : TreeInv m)
    (hinv₁ : TreeInv m₁) : Grow m m₂ := by
  have hzero : ∀ t, m₁.level t = 0 → m.level t = 0 := fun t ht => by
    by_contra hne
    rw [h.level t hne] at ht
    exact hne ht
  have hlev : ∀ t, m.level t ≠ 0 → m₂.level t = m.level t := fun t ht => by
    rw [h'.level t (by rw [h.level t ht]; exact ht), h.level t ht]
  refine ⟨h'.format.trans h.format, h'.spaces.trans h.spaces, h'.kernel.trans h.kernel,
    h.phys.trans h'.phys, hlev, fun t h0 h2 => ?_, fun t i ht => ?_, fun t i ht hp => ?_,
    fun t i c ht hc => ?_, fun t i ht hp => ?_⟩
  · by_cases h1 : m₁.level t = 0
    · exact h.phys.trans (h'.fresh t h1 h2)
    · exact h.fresh t h0 h1
  · rw [h'.leaf t i ht]
    by_cases h1 : m₁.level t = 0
    · rw [hinv₁.untouched t i h1, hinv.untouched t i (hzero t h1)]
    · exact h.leaf t i (by rw [← h'.level t h1]; exact ht)
  · have ht₁ : 2 ≤ m₁.level t := by rw [h.level t (by omega)]; exact ht
    rcases h.entry t i ht hp with he | he
    · rcases h'.entry t i ht₁ (by rw [he]; exact hp) with he' | he'
      · exact Or.inl (he'.trans he)
      · exact Or.inr (by rw [he', he])
    · rcases h'.entry t i ht₁ (by rw [he]; exact hp) with he' | he'
      · exact Or.inr (he'.trans he)
      · exact Or.inr (by rw [he', he])
  · rcases h'.hangs t i c ht hc with ⟨h1, h2⟩ | h1
    · exact h.hangs t i c (by rw [← h'.level t h1]; exact ht) h2
    · exact Or.inr (hzero c h1)
  · rcases h'.made t i ht hp with ⟨ht₁, hp₁⟩ | hnew
    · rcases h.made t i ht₁ hp₁ with hold | ⟨hw, hx⟩
      · exact Or.inl hold
      · rcases h'.entry t i ht₁ hp₁ with he | he
        · rw [he]
          exact Or.inr ⟨hw, hx⟩
        · rw [he]
          exact Or.inr ⟨hw, hx⟩
    · exact Or.inr hnew

/-! ## Entries -/

def PtEntry.target (e : PtEntry) : Option Nat :=
  if e.present then some (pfnToPa e.pageFrameNumber) else none

theorem child_def (m : Mmu) (t i : Nat) : m.child t i = (m.mem t i).target := rfl

@[simp] theorem target_empty : ({} : PtEntry).target = none := rfl

theorem target_of_present {e : PtEntry} (h : e.present = true) :
    e.target = some (pfnToPa e.pageFrameNumber) := if_pos h

theorem target_eq_none {e : PtEntry} : e.target = none ↔ e.present = false := by
  unfold PtEntry.target
  cases h : e.present with
  | false => simp
  | true => simp

theorem writeEntry_mem (m : Mmu) (table index : Nat) (e : PtEntry) (t i : Nat) :
    (m.writeEntry table index e).mem t i = if t = table ∧ i = index then e else m.mem t i := rfl

theorem writeEntry_child (m : Mmu) (table index : Nat) (e : PtEntry) (t i : Nat) :
    (m.writeEntry table index e).child t i =
      if t = table ∧ i = index then e.target else m.child t i := by
  rw [child_def, writeEntry_mem]
  split
  · rfl
  · rfl

/-! ## `ensure_table` -/

theorem widen_spec (h : TreeInv m) {table : Nat} (index : Nat) (ht : 2 ≤ m.level table) :
    Grow m (m.writeEntry table index { m.mem table index with supervisor := true }) ∧
      TreeInv (m.writeEntry table index { m.mem table index with supervisor := true }) := by
  set m' := m.writeEntry table index { m.mem table index with supervisor := true } with hm'
  have hchild : ∀ t i, m'.child t i = m.child t i := by
    intro t i
    rw [hm', writeEntry_child]
    split
    · rename_i hs
      rw [hs.1, hs.2]
      rfl
    · rfl
  have hmem : ∀ t i, m.level t ≤ 1 → m'.mem t i = m.mem t i := by
    intro t i hl
    rw [hm', writeEntry_mem, if_neg]
    intro hs
    rw [hs.1] at hl
    omega
  refine ⟨⟨rfl, rfl, rfl, le_rfl, fun _ _ => rfl, fun t h0 h1 => absurd h0 h1,
    fun t i hl => hmem t i hl.le, fun t i _ _ => ?_, fun t i c hl hc => ?_, fun t i hl hp' => ?_⟩,
    ⟨h.phys, h.roots, h.table,
    fun t i hl => ?_, fun t i c hl hc => ?_, fun t i t' i' c hl hl' hc hc' => ?_, fun t h0 h3 => ?_,
    h.kernel⟩⟩
  · rw [hm', writeEntry_mem]
    split
    · rename_i hs
      rw [hs.1, hs.2]
      exact Or.inr rfl
    · exact Or.inl rfl
  · rw [hchild] at hc
    refine Or.inl ⟨?_, hc⟩
    show m.level t ≠ 0
    have hl' : 2 ≤ m.level t := hl
    omega
  · refine Or.inl ⟨hl, ?_⟩
    rw [hm', writeEntry_mem] at hp'
    split at hp'
    · rename_i hs
      rw [hs.1, hs.2]
      exact hp'
    · exact hp'
  · rw [hmem t i (by show m.level t ≤ 1; exact (le_of_eq hl).trans (by omega))]
    exact h.untouched t i hl
  · rw [hchild] at hc
    exact h.child t i c hl hc
  · rw [hchild] at hc hc'
    exact h.unique t i t' i' c hl hl' hc hc'
  · obtain ⟨p, i, hl, hc⟩ := h.hung t h0 h3
    exact ⟨p, i, hl, by rw [hchild]; exact hc⟩

theorem TreeInv.level_physNext (h : TreeInv m) : m.level m.physNext = 0 := by
  by_contra hne
  exact lt_irrefl _ (h.table m.physNext hne).2.1

theorem TreeInv.child_ne_zero (h : TreeInv m) {t i c : Nat} (ht : 2 ≤ m.level t)
    (hc : m.child t i = some c) : m.level c ≠ 0 := by
  have := h.child t i c ht hc
  omega

/-- Hang an empty table in a slot, as `ensure_table` does when the slot is empty. -/
def Mmu.hang (m : Mmu) (table index : Nat) (user : Bool) : Mmu :=
  { m with
    physNext := m.physNext + pageSize
    level := fun t => if t = m.physNext then m.level table - 1 else m.level t
    mem := fun t i => if t = table ∧ i = index then tableEntry m m.physNext user else m.mem t i }

theorem hang_level_new (m : Mmu) (table index : Nat) (user : Bool) :
    (m.hang table index user).level m.physNext = m.level table - 1 := if_pos rfl

theorem hang_level_cases (m : Mmu) (table index : Nat) (user : Bool) (t : Nat) :
    t = m.physNext ∧ (m.hang table index user).level t = m.level table - 1 ∨
      t ≠ m.physNext ∧ (m.hang table index user).level t = m.level t := by
  by_cases he : t = m.physNext
  · rw [he]
    exact Or.inl ⟨rfl, hang_level_new m table index user⟩
  · exact Or.inr ⟨he, if_neg he⟩

theorem hang_mem_of_ne (m : Mmu) (table index : Nat) (user : Bool) {t : Nat} (i : Nat)
    (hne : t ≠ table) : (m.hang table index user).mem t i = m.mem t i := if_neg fun hs => hne hs.1

theorem hang_level (hfresh : m.level m.physNext = 0) {table index t : Nat} {user : Bool}
    (hne : m.level t ≠ 0) : (m.hang table index user).level t = m.level t := by
  rcases hang_level_cases m table index user t with ⟨he, -⟩ | ⟨-, he⟩
  · rw [he] at hne
    exact absurd hfresh hne
  · exact he

theorem hang_child (hpage : IsPage m.physNext) (hroom : m.physNext + pageSize ≤ physEnd)
    {table index : Nat} {user : Bool} (t i : Nat) : (m.hang table index user).child t i =
      if t = table ∧ i = index then some m.physNext else m.child t i := by
  have hlt : m.physNext < physEnd := lt_of_lt_of_le (Nat.lt_add_of_pos_right (by decide)) hroom
  show (if t = table ∧ i = index then tableEntry m m.physNext user else m.mem t i).target = _
  split
  · show some (pfnToPa (m.pfn m.physNext)) = _
    rw [pfnToPa_pfn m hpage hlt]
  · rfl

section hang
variable {m : Mmu} (h : TreeInv m) {table index : Nat} (user : Bool)
variable (hroom : m.physNext + pageSize ≤ physEnd)
include h hroom

/-- A slot leads to the new table, or it is an old slot that leads to an old table. -/
theorem hang_child_cases {t i c : Nat} (hl : 2 ≤ (m.hang table index user).level t)
    (hc : (m.hang table index user).child t i = some c) :
    (t = table ∧ i = index ∧ c = m.physNext) ∨
      (2 ≤ m.level t ∧ t ≠ m.physNext ∧ c ≠ m.physNext ∧ m.child t i = some c) := by
  rw [hang_child h.phys.1 hroom] at hc
  split at hc
  · rename_i hs
    exact Or.inl ⟨hs.1, hs.2, (Option.some.inj hc).symm⟩
  · have htn : t ≠ m.physNext := by
      intro he
      rw [he, child_def, h.untouched m.physNext i h.level_physNext] at hc
      simp at hc
    have hl' : 2 ≤ m.level t := by
      rcases hang_level_cases m table index user t with ⟨he, -⟩ | ⟨-, he⟩
      · exact absurd he htn
      · omega
    refine Or.inr ⟨hl', htn, ?_, hc⟩
    intro he
    exact h.child_ne_zero hl' hc (by rw [he]; exact h.level_physNext)

variable (ht : 2 ≤ m.level table)
include ht

theorem hang_grow (hp : (m.mem table index).present = false) : Grow m (m.hang table index user) := by
  refine ⟨rfl, rfl, rfl, Nat.le_add_right _ _, fun t hne => hang_level h.level_physNext hne,
    fun t h0 h1 => ?_, fun t i hl => ?_, fun t i hl hpres => Or.inl ?_, fun t i c hl hc => ?_,
    fun t i hl hpres => ?_⟩
  · rcases hang_level_cases m table index user t with ⟨he, -⟩ | ⟨-, he⟩
    · exact he.ge
    · rw [he] at h1
      exact absurd h0 h1
  · apply hang_mem_of_ne m table index user
    intro he
    rw [he, hang_level h.level_physNext (by omega)] at hl
    omega
  · show (if t = table ∧ i = index then _ else _) = _
    rw [if_neg]
    intro hs
    rw [hs.1, hs.2, hp] at hpres
    simp at hpres
  · rcases hang_child_cases h user hroom hl hc with ⟨-, -, he⟩ | ⟨hl', -, -, hc'⟩
    · rw [he]
      exact Or.inr h.level_physNext
    · exact Or.inl ⟨by omega, hc'⟩
  · by_cases hs : t = table ∧ i = index
    · refine Or.inr ?_
      rw [hs.1, hs.2]
      show (if table = table ∧ index = index then tableEntry m m.physNext user else _).write = true ∧
        (if table = table ∧ index = index then tableEntry m m.physNext user else _).executeDisable = false
      rw [if_pos ⟨rfl, rfl⟩]
      exact ⟨rfl, rfl⟩
    · obtain ⟨c, hc⟩ : ∃ c, (m.hang table index user).child t i = some c :=
        ⟨_, target_of_present hpres⟩
      rcases hang_child_cases h user hroom hl hc with ⟨h1, h2, -⟩ | ⟨hl', -, -, hc'⟩
      · exact absurd ⟨h1, h2⟩ hs
      · refine Or.inl ⟨hl', ?_⟩
        by_contra hne
        rw [child_def, target_eq_none.mpr (by simpa using hne)] at hc'
        simp at hc'

theorem hang_treeInv (hp : (m.mem table index).present = false) :
    TreeInv (m.hang table index user) := by
  refine ⟨⟨h.phys.1.add isPage_pageSize, hroom⟩, fun r hr => ?_, fun t hne => ?_, fun t i h0 => ?_,
    fun t i c hl hc => ?_, fun t i t' i' c hl hl' hc hc' => ?_, fun t hne h3 => ?_, h.kernel⟩
  · have h4 := h.roots r hr
    rw [hang_level h.level_physNext (by omega)]
    exact h4
  · rcases hang_level_cases m table index user t with ⟨he, hl⟩ | ⟨-, he⟩
    · rw [hl, he]
      refine ⟨h.phys.1, Nat.lt_add_of_pos_right (by decide), ?_⟩
      have := (h.table table (by omega)).2.2
      omega
    · rw [he] at hne ⊢
      obtain ⟨h1, h2, h3⟩ := h.table t hne
      exact ⟨h1, h2.trans (Nat.lt_add_of_pos_right (by decide)), h3⟩
  · rcases hang_level_cases m table index user t with ⟨-, hl⟩ | ⟨-, he⟩
    · rw [hl] at h0
      omega
    · rw [he] at h0
      rw [hang_mem_of_ne m table index user i (by intro hs; rw [hs] at h0; omega)]
      exact h.untouched t i h0
  · rcases hang_child_cases h user hroom hl hc with ⟨rfl, rfl, rfl⟩ | ⟨hl', htn, hcn, hc'⟩
    · rw [hang_level_new, hang_level h.level_physNext (by omega)]
      omega
    · rw [hang_level h.level_physNext (h.child_ne_zero hl' hc'), hang_level h.level_physNext (by omega)]
      exact h.child t i c hl' hc'
  · rcases hang_child_cases h user hroom hl hc with ⟨rfl, rfl, rfl⟩ | ⟨hl₁, -, hcn, hc₁⟩
    · rcases hang_child_cases h user hroom hl' hc' with ⟨rfl, rfl, -⟩ | ⟨-, -, hcn', -⟩
      · exact Or.inl ⟨rfl, rfl⟩
      · exact absurd rfl hcn'
    · rcases hang_child_cases h user hroom hl' hc' with ⟨-, -, he⟩ | ⟨hl₂, -, -, hc₂⟩
      · exact absurd he hcn
      · rw [hang_level h.level_physNext (by omega), hang_level h.level_physNext (by omega)]
        exact h.unique t i t' i' c hl₁ hl₂ hc₁ hc₂
  · rcases hang_level_cases m table index user t with ⟨he, -⟩ | ⟨-, he⟩
    · refine ⟨table, index, ?_, ?_⟩
      · rw [hang_level h.level_physNext (by omega)]
        exact ht
      · rw [hang_child h.phys.1 hroom, if_pos ⟨rfl, rfl⟩, he]
    · rw [he] at hne h3
      obtain ⟨p, i, hl, hc⟩ := h.hung t hne h3
      refine ⟨p, i, by rw [hang_level h.level_physNext (by omega)]; exact hl, ?_⟩
      rw [hang_child h.phys.1 hroom, if_neg]
      · exact hc
      · intro hs
        rw [hs.1, hs.2, child_def, target_eq_none.mpr hp] at hc
        simp at hc

end hang

/-- What `ensure_table` promises: tables grow, and the slot leads to the table returned, as a user entry
when a user page asked for it; it throws only when guest memory has run out. -/
structure Ensured (m : Mmu) (table index : Nat) (user : Bool) (r : Mmu × Option Nat) : Prop where
  grow : Grow m r.1
  tree : TreeInv r.1
  found : ∀ c, r.2 = some c → r.1.child table index = some c
  user : ∀ c, r.2 = some c → user = true → (r.1.mem table index).supervisor = true
  full : r.2 = none → r.1.allocPhys pageSize = none

theorem sizeAlign_pageSize : sizeAlign pageSize = pageSize := by decide

theorem allocPhys_page (m : Mmu) (hle : m.physNext ≤ physEnd) :
    m.allocPhys pageSize = none ∨ m.physNext + pageSize ≤ physEnd ∧
      m.allocPhys pageSize = some (m.physNext, { m with physNext := m.physNext + pageSize }) := by
  unfold Mmu.allocPhys
  simp only [sizeAlign_pageSize]
  split
  · exact Or.inl rfl
  · exact Or.inr ⟨by omega, rfl⟩

theorem ensureTable_cases (m : Mmu) (hle : m.physNext ≤ physEnd) (table index : Nat) (user : Bool) :
    (∃ c, m.child table index = some c ∧
      (m.ensureTable table index user = (m, some c) ∧
          (user = true → (m.mem table index).supervisor = true) ∨
        m.ensureTable table index user =
          (m.writeEntry table index { m.mem table index with supervisor := true }, some c))) ∨
      (m.mem table index).present = false ∧ m.allocPhys pageSize = none ∧
        m.ensureTable table index user = (m, none) ∨
      (m.mem table index).present = false ∧ m.physNext + pageSize ≤ physEnd ∧
        m.ensureTable table index user = (m.hang table index user, some m.physNext) := by
  unfold Mmu.ensureTable
  simp only
  by_cases hp : (m.mem table index).present = true
  · rw [if_pos hp]
    refine Or.inl ⟨_, target_of_present hp, ?_⟩
    by_cases hw : (user && !(m.mem table index).supervisor) = true
    · rw [if_pos hw]
      exact Or.inr rfl
    · rw [if_neg hw]
      refine Or.inl ⟨rfl, fun hu => ?_⟩
      simpa [hu] using hw
  · have hp' : (m.mem table index).present = false := by simpa using hp
    rw [if_neg hp]
    rcases allocPhys_page m hle with hnone | ⟨hroom, hsome⟩
    · exact Or.inr (Or.inl ⟨hp', hnone, by rw [hnone]⟩)
    · exact Or.inr (Or.inr ⟨hp', hroom, by rw [hsome]; rfl⟩)

theorem ensureTable_spec (h : TreeInv m) {table : Nat} (index : Nat) (user : Bool)
    (ht : 2 ≤ m.level table) : Ensured m table index user (m.ensureTable table index user) := by
  rcases ensureTable_cases m h.phys.2 table index user with ⟨c, hc, ⟨he, hu⟩ | he⟩ | ⟨hp, hnone, he⟩ |
    ⟨hp, hroom, he⟩
  · rw [he]
    refine ⟨Grow.refl m, h, fun c' hc' => ?_, fun _ _ => hu, nofun⟩
    rw [← hc']
    exact hc
  · rw [he]
    obtain ⟨hgrow, htree⟩ := widen_spec h index ht
    refine ⟨hgrow, htree, fun c' hc' => ?_, fun _ _ _ => ?_, nofun⟩
    · rw [← hc', writeEntry_child, if_pos ⟨rfl, rfl⟩, ← hc]
      rfl
    · rw [writeEntry_mem, if_pos ⟨rfl, rfl⟩]
  · rw [he]
    exact ⟨Grow.refl m, h, nofun, nofun, fun _ => hnone⟩
  · rw [he]
    refine ⟨hang_grow h user hroom ht hp, hang_treeInv h user hroom ht hp, fun c' hc' => ?_,
      fun _ _ hu => ?_, nofun⟩
    · rw [hang_child h.phys.1 hroom, if_pos ⟨rfl, rfl⟩]
      exact hc'
    · show (if table = table ∧ index = index then tableEntry m m.physNext user else _).supervisor = true
      rw [if_pos ⟨rfl, rfl⟩]
      exact hu

/-! ## Walks -/

/-- The tables as a forest: what hangs in a slot of a table above the page tables. -/
def Mmu.next (m : Mmu) (t i : Nat) : Option Nat := if 2 ≤ m.level t then m.child t i else none

theorem next_eq_some {t i c : Nat} :
    m.next t i = some c ↔ 2 ≤ m.level t ∧ m.child t i = some c := by
  unfold Mmu.next
  split
  · rename_i h
    exact ⟨fun hc => ⟨h, hc⟩, fun hc => hc.2⟩
  · rename_i h
    exact ⟨nofun, fun hc => absurd hc.1 h⟩

theorem TreeInv.parented (h : TreeInv m) :
    Parented m.next (fun t => m.level t = 4) fun i => 256 ≤ i := by
  refine ⟨fun t i t' i' c hc hc' => ?_, fun t i c hc => ?_⟩
  · rw [next_eq_some] at hc hc'
    exact h.unique t i t' i' c hc.1 hc'.1 hc.2 hc'.2
  · rw [next_eq_some] at hc
    have hlevel := h.child t i c hc.1 hc.2
    have hle := (h.table t (by omega)).2.2
    omega

theorem Grow.grows {m' : Mmu} (h : Grow m m') (hinv : TreeInv m) :
    Grows m.next m'.next fun t => m.level t ≠ 0 := by
  refine ⟨fun t i c ht hc => ?_, fun t i c hc => ?_⟩
  · rw [next_eq_some] at *
    refine ⟨⟨?_, h.child_old hc.1 hc.2⟩, hinv.child_ne_zero hc.1 hc.2⟩
    rw [h.level t ht]
    exact hc.1
  · rw [next_eq_some] at hc
    rcases h.hangs t i c hc.1 hc.2 with ⟨ht, hc'⟩ | hnew
    · refine Or.inl ⟨ht, next_eq_some.mpr ⟨?_, hc'⟩⟩
      rw [← h.level t ht]
      exact hc.1
    · exact Or.inr (not_not.mpr hnew)

def tablePath (va : Nat) : List Nat := [pml4Index va, pdptIndex va, pdIndex va]

/-- Looking up the page table of an address is a walk of three slots, and ends at a page table. -/
theorem TreeInv.pageTable_walk (h : TreeInv m) {root : Nat} (hroot : m.level root = 4)
    (va pt : Nat) : m.pageTable root va = some pt ↔
      walk m.next root (tablePath va) = some pt ∧ m.level pt = 1 := by
  unfold Mmu.pageTable tablePath
  simp only [walk_cons, walk_nil, Option.bind_eq_some_iff, next_eq_some]
  constructor
  · rintro ⟨pdpt, h1, pd, h2, h3⟩
    have hl1 := h.child root _ pdpt (by omega) h1
    have hl2 := h.child pdpt _ pd (by omega) h2
    have hl3 := h.child pd _ pt (by omega) h3
    exact ⟨⟨pdpt, ⟨by omega, h1⟩, pd, ⟨by omega, h2⟩, pt, ⟨by omega, h3⟩, rfl⟩, by omega⟩
  · rintro ⟨⟨pdpt, ⟨-, h1⟩, pd, ⟨-, h2⟩, pt', ⟨-, h3⟩, he⟩, -⟩
    cases he
    exact ⟨pdpt, h1, pd, h2, h3⟩

theorem TreeInv.pageTable_level (h : TreeInv m) {root va pt : Nat}
    (hroot : m.level root = 4) (hpt : m.pageTable root va = some pt) : m.level pt = 1 :=
  ((h.pageTable_walk hroot va pt).mp hpt).2

/-- Two addresses under one page table share their upper indices, and their PML4 too unless the table is
in the kernel half. -/
theorem TreeInv.pageTable_inj (h : TreeInv m) {root root' va va' pt : Nat}
    (hroot : m.level root = 4) (hroot' : m.level root' = 4) (hpt : m.pageTable root va = some pt)
    (hpt' : m.pageTable root' va' = some pt) :
    tablePath va = tablePath va' ∧ (root = root' ∨ 256 ≤ pml4Index va) := by
  have hw := ((h.pageTable_walk hroot va pt).mp hpt).1
  have hw' := ((h.pageTable_walk hroot' va' pt).mp hpt').1
  obtain ⟨hpath, hr⟩ := h.parented.walk_inj (tablePath va) (tablePath va') root root' pt rfl hw hw'
  refine ⟨hpath, ?_⟩
  rcases hr with hr | ⟨i, q, hq, hi⟩
  · exact Or.inl hr
  · rw [tablePath, List.cons.injEq] at hq
    rw [hq.1]
    exact Or.inr hi

section Grow
variable {m m' : Mmu} (hg : Grow m m') (hinv : TreeInv m) {root : Nat} (hroot : m.level root = 4)
include hg hinv hroot

omit hinv in
theorem Grow.level_root : m'.level root = 4 := by
  rw [hg.level root (by omega)]
  exact hroot

theorem Grow.pageTable_old (hinv' : TreeInv m') {va pt : Nat} (hpt : m.pageTable root va = some pt) :
    m'.pageTable root va = some pt := by
  obtain ⟨hw, hl⟩ := (hinv.pageTable_walk hroot va pt).mp hpt
  refine (hinv'.pageTable_walk (hg.level_root hroot) va pt).mpr ⟨?_, ?_⟩
  · exact ((hg.grows hinv).walk_old (by omega) hw).1
  · rw [hg.level pt (by omega)]
    exact hl

theorem Grow.pageTable_new (hinv' : TreeInv m') {va pt : Nat} (hpt : m'.pageTable root va = some pt) :
    m.pageTable root va = some pt ∨ m.level pt = 0 ∧ ∀ i, m'.mem pt i = {} := by
  obtain ⟨hw, hl⟩ := (hinv'.pageTable_walk (hg.level_root hroot) va pt).mp hpt
  by_cases hold : m.level pt = 0
  · refine Or.inr ⟨hold, fun i => ?_⟩
    rw [hg.leaf pt i hl, hinv.untouched pt i hold]
  · refine Or.inl ((hinv.pageTable_walk hroot va pt).mpr ⟨(hg.grows hinv).walk_new hw hold, ?_⟩)
    rw [← hg.level pt hold]
    exact hl

def Mmu.leaf (m : Mmu) (root va : Nat) : PtEntry :=
  match m.pageTable root va with
  | none => {}
  | some pt => m.mem pt (ptIndex va)

omit hg hinv hroot in
theorem translateVirt_eq (m : Mmu) (root va : Nat) :
    m.translateVirt root va = (m.leaf root va).target := by
  unfold Mmu.translateVirt Mmu.leaf
  cases m.pageTable root va with
  | none => rfl
  | some pt => rfl

theorem Grow.leaf_eq (hinv' : TreeInv m') (va : Nat) : m'.leaf root va = m.leaf root va := by
  unfold Mmu.leaf
  cases hpt : m.pageTable root va with
  | some pt =>
    rw [hg.pageTable_old hinv hroot hinv' hpt]
    have hl := hinv.pageTable_level hroot hpt
    apply hg.leaf
    rw [hg.level pt (by omega)]
    exact hl
  | none =>
    cases hpt' : m'.pageTable root va with
    | none => rfl
    | some pt =>
      rcases hg.pageTable_new hinv hroot hinv' hpt' with hold | ⟨-, hnew⟩
      · rw [hpt] at hold
        simp at hold
      · exact hnew _

end Grow

end Kernemul.X86
