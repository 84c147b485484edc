import Kernemul.Emu.X86.Tree

/-!
# What the page operations do to the tables

`map_page` finds or grows the tables above a page and then writes one slot of a page table; `unmap_page`
and a round of `prot_virt` write one slot at most. `leaf_write` says what such a write does to the leaf
entries of every address in every space: the page itself, and its twins in the spaces that share the page
table. The loops over pages go through `mapLoop_induct` and its companions.
-/

namespace Kernemul.X86

open Walk

def vpn (va : Nat) : Nat := va / pageSize % 2 ^ 36

variable {va va' : Nat}

theorem vpn_eq_iff :
    vpn va = vpn va' ↔ tablePath va = tablePath va' ∧ ptIndex va = ptIndex va' := by
  unfold vpn tablePath pml4Index pdptIndex pdIndex ptIndex pageSize
  simp only [List.cons.injEq, and_true]
  omega

theorem pml4Index_of_vpn (h : vpn va = vpn va') : pml4Index va = pml4Index va' :=
  (List.cons.inj (vpn_eq_iff.mp h).1).1

theorem vpn_pageAlign (va : Nat) : vpn (pageAlign va) = vpn va := by
  unfold vpn pageAlign pageSize
  omega

theorem pml4Index_pageAlign (va : Nat) : pml4Index (pageAlign va) = pml4Index va :=
  pml4Index_of_vpn (vpn_pageAlign va)

theorem pageTable_congr (m : Mmu) (root : Nat) (h : tablePath va = tablePath va') :
    m.pageTable root va = m.pageTable root va' := by
  unfold tablePath at h
  simp only [List.cons.injEq, and_true] at h
  unfold Mmu.pageTable
  rw [h.1, h.2.1, h.2.2]

theorem leaf_congr (m : Mmu) (root : Nat) (h : vpn va = vpn va') :
    m.leaf root va = m.leaf root va' := by
  obtain ⟨hpath, hpt⟩ := vpn_eq_iff.mp h
  unfold Mmu.leaf
  rw [pageTable_congr m root hpath, hpt]

/-! ## Changes that leave the tables alone -/

/-- Frames were reserved and records of spaces changed; the tables are as they were. -/
structure Aside (m m' : Mmu) : Prop where
  format : m'.format = m.format
  mem : m'.mem = m.mem
  kernel : m'.kernelPml4Pa = m.kernelPml4Pa
  level : m'.level = m.level
  live : ∀ r, (m'.spaces r).isSome = (m.spaces r).isSome
  phys : m.physNext ≤ m'.physNext ∧ IsPage m'.physNext ∧ m'.physNext ≤ physEnd

section Aside
variable {m m' : Mmu} (h : Aside m m')
include h

theorem Aside.child (t i : Nat) : m'.child t i = m.child t i := by
  rw [child_def, child_def, h.mem]

theorem Aside.pageTable (root va : Nat) : m'.pageTable root va = m.pageTable root va := by
  unfold Mmu.pageTable
  simp only [h.child]

theorem Aside.leaf (root va : Nat) : m'.leaf root va = m.leaf root va := by
  unfold Mmu.leaf
  rw [h.pageTable, h.mem]

theorem Aside.treeInv (hinv : TreeInv m) : TreeInv m' := by
  refine ⟨h.phys.2, fun r hr => ?_, fun t ht => ?_, fun t i ht => ?_, fun t i c ht hc => ?_,
    fun t i t' i' c ht ht' hc hc' => ?_, fun t ht ht' => ?_, fun hk => ?_⟩
  · rw [h.live] at hr
    rw [h.level]
    exact hinv.roots r hr
  · rw [h.level] at ht ⊢
    obtain ⟨h1, h2, h3⟩ := hinv.table t ht
    exact ⟨h1, h2.trans_le h.phys.1, h3⟩
  · rw [h.level] at ht
    rw [h.mem]
    exact hinv.untouched t i ht
  · rw [h.level] at ht ⊢
    rw [h.child] at hc
    exact hinv.child t i c ht hc
  · rw [h.level] at ht ht' ⊢
    rw [h.child] at hc hc'
    exact hinv.unique t i t' i' c ht ht' hc hc'
  · rw [h.level] at ht ht' ⊢
    obtain ⟨p, i, hp, hc⟩ := hinv.hung t ht ht'
    exact ⟨p, i, hp, by rw [h.child]; exact hc⟩
  · rw [h.kernel] at hk
    rw [h.kernel, h.live]
    exact hinv.kernel hk

end Aside

variable {m : Mmu}

theorem Aside.refl (h : IsPage m.physNext ∧ m.physNext ≤ physEnd) : Aside m m :=
  ⟨rfl, rfl, rfl, rfl, fun _ => rfl, le_rfl, h⟩

theorem Aside.trans {m₁ m₂ : Mmu} (h : Aside m m₁) (h' : Aside m₁ m₂) : Aside m m₂ :=
  ⟨h'.format.trans h.format, h'.mem.trans h.mem, h'.kernel.trans h.kernel, h'.level.trans h.level,
    fun r => (h'.live r).trans (h.live r), h.phys.1.trans h'.phys.1, h'.phys.2⟩

theorem updateSpace_aside (h : IsPage m.physNext ∧ m.physNext ≤ physEnd) (root : Nat)
    (f : AddrSpace → AddrSpace) : Aside m (m.updateSpace root f) := by
  refine ⟨rfl, rfl, rfl, rfl, fun r => ?_, le_rfl, h⟩
  show (if r = root then (m.spaces r).map f else m.spaces r).isSome = _
  split
  · exact Option.isSome_map
  · rfl

theorem allocPhys_aside {m m' : Mmu} (h : IsPage m.physNext ∧ m.physNext ≤ physEnd) {size pa : Nat}
    (ha : m.allocPhys size = some (pa, m')) :
    pa = m.physNext ∧ m' = { m with physNext := m.physNext + sizeAlign size } ∧ Aside m m' := by
  have hle := h.2
  unfold Mmu.allocPhys at ha
  simp only at ha
  split at ha
  · simp at ha
  · obtain ⟨rfl, rfl⟩ := Prod.mk.inj (Option.some.inj ha)
    refine ⟨rfl, rfl, rfl, rfl, rfl, rfl, fun _ => rfl, Nat.le_add_right _ _,
      h.1.add (isPage_sizeAlign size), ?_⟩
    show m.physNext + sizeAlign size ≤ physEnd
    omega

/-! ## Writing a leaf -/

section leaf
variable {m : Mmu} (h : TreeInv m) {pt : Nat} (hpt : m.level pt = 1) (index : Nat) (e : PtEntry)
include hpt

theorem writeLeaf_child {t : Nat} (i : Nat) (ht : 2 ≤ m.level t) :
    (m.writeEntry pt index e).child t i = m.child t i := by
  rw [writeEntry_child, if_neg]
  intro hs
  rw [hs.1] at ht
  omega

include h

theorem writeLeaf_treeInv : TreeInv (m.writeEntry pt index e) := by
  refine ⟨h.phys, h.roots, h.table, fun t i ht => ?_, fun t i c ht hc => ?_,
    fun t i t' i' c ht ht' hc hc' => ?_, fun t ht ht' => ?_, h.kernel⟩
  · rw [writeEntry_mem, if_neg]
    · exact h.untouched t i ht
    · intro hs
      rw [hs.1] at ht
      have ht' : m.level pt = 0 := ht
      omega
  · rw [writeLeaf_child hpt index e i ht] at hc
    exact h.child t i c ht hc
  · rw [writeLeaf_child hpt index e i ht] at hc
    rw [writeLeaf_child hpt index e i' ht'] at hc'
    exact h.unique t i t' i' c ht ht' hc hc'
  · obtain ⟨p, i, hp, hc⟩ := h.hung t ht ht'
    exact ⟨p, i, hp, by rw [writeLeaf_child hpt index e i hp]; exact hc⟩

theorem writeLeaf_pageTable {root : Nat} (hroot : m.level root = 4) (va : Nat) :
    (m.writeEntry pt index e).pageTable root va = m.pageTable root va := by
  have hinv' := writeLeaf_treeInv h hpt index e
  have hnext : (m.writeEntry pt index e).next = m.next := by
    funext t i
    unfold Mmu.next
    show (if 2 ≤ m.level t then (m.writeEntry pt index e).child t i else none) = _
    split
    · rename_i ht
      rw [writeLeaf_child hpt index e i ht]
    · rfl
  apply Option.ext
  intro c
  rw [hinv'.pageTable_walk hroot va c, h.pageTable_walk hroot va c, hnext]
  rfl

/-- A slot of a page table is the leaf entry of one page, in every space that shares the table. -/
theorem leaf_write {root root' va : Nat} (hroot : m.level root = 4) (hroot' : m.level root' = 4)
    (hva : m.pageTable root va = some pt) (va' : Nat) :
    (m.writeEntry pt (ptIndex va) e).leaf root' va' =
      if m.pageTable root' va = some pt ∧ vpn va' = vpn va then e else m.leaf root' va' := by
  unfold Mmu.leaf
  rw [writeLeaf_pageTable h hpt (ptIndex va) e hroot' va']
  by_cases hs : m.pageTable root' va = some pt ∧ vpn va' = vpn va
  · obtain ⟨hpath, hidx⟩ := vpn_eq_iff.mp hs.2
    rw [if_pos hs, pageTable_congr m root' hpath, hs.1]
    show (if pt = pt ∧ ptIndex va' = ptIndex va then e else _) = e
    rw [if_pos ⟨rfl, hidx⟩]
  · rw [if_neg hs]
    cases hp : m.pageTable root' va' with
    | none => rfl
    | some pt' =>
      show (if pt' = pt ∧ ptIndex va' = ptIndex va then e else _) = m.mem pt' (ptIndex va')
      rw [if_neg]
      rintro ⟨rfl, hidx⟩
      have hpath := (h.pageTable_inj hroot' hroot hp hva).1
      apply hs
      rw [← pageTable_congr m root' hpath]
      exact ⟨hp, vpn_eq_iff.mpr ⟨hpath, hidx⟩⟩

end leaf

/-! ## The tables above a page -/

/-- The page table is there and the three entries above it have `P`. -/
def Mmu.Above (m : Mmu) (root va : Nat) (P : PtEntry → Prop) : Prop :=
  ∃ pdpt pd pt, m.child root (pml4Index va) = some pdpt ∧ m.child pdpt (pdptIndex va) = some pd ∧
    m.child pd (pdIndex va) = some pt ∧ P (m.mem root (pml4Index va)) ∧
    P (m.mem pdpt (pdptIndex va)) ∧ P (m.mem pd (pdIndex va))

/-- What `ensure_table` promises for the three tables above a page. -/
structure PathEnsured (m : Mmu) (root va : Nat) (user : Bool) (r : Mmu × Option Nat) : Prop where
  grow : Grow m r.1
  tree : TreeInv r.1
  found : ∀ pt, r.2 = some pt → r.1.pageTable root va = some pt
  user : ∀ pt, r.2 = some pt → user = true → r.1.Above root va fun e => e.supervisor = true
  full : r.2 = none → r.1.allocPhys pageSize = none

theorem present_of_child {t i c : Nat} (h : m.child t i = some c) :
    (m.mem t i).present = true := by
  by_contra hne
  rw [child_def, target_eq_none.mpr (by simpa using hne)] at h
  simp at h

variable {m' : Mmu}

theorem Grow.supervisor_old (h : Grow m m') {t i c : Nat} (ht : 2 ≤ m.level t)
    (hc : m.child t i = some c) (hs : (m.mem t i).supervisor = true) :
    (m'.mem t i).supervisor = true := by
  rcases h.entry t i ht (present_of_child hc) with he | he
  · rw [he]
    exact hs
  · rw [he]

variable {root : Nat}

theorem ensurePath_spec (h : TreeInv m) (va : Nat) (user : Bool)
    (hroot : m.level root = 4) : PathEnsured m root va user (m.ensurePath root va user) := by
  have e₁ := ensureTable_spec h (pml4Index va) user (by omega : 2 ≤ m.level root)
  unfold Mmu.ensurePath
  rcases hr₁ : m.ensureTable root (pml4Index va) user with ⟨m₁, _ | pdpt⟩
  · rw [hr₁] at e₁
    refine ⟨e₁.grow, e₁.tree, ?_, ?_, fun _ => e₁.full rfl⟩
    · rintro _ ⟨⟩
    · rintro _ ⟨⟩
  rw [hr₁] at e₁
  have hc₁ : m₁.child root (pml4Index va) = some pdpt := e₁.found pdpt rfl
  have hroot₁ : m₁.level root = 4 := e₁.grow.level_root hroot
  have hl₁ := e₁.tree.child root _ pdpt (by show 2 ≤ m₁.level root; omega) hc₁
  have hl₁ : m₁.level pdpt = 3 := by
    have : m₁.level pdpt + 1 = m₁.level root := hl₁
    omega
  have e₂ := ensureTable_spec e₁.tree (pdptIndex va) user (by show 2 ≤ m₁.level pdpt; omega)
  dsimp only
  have g₂ := e₁.grow.trans e₂.grow h e₁.tree
  rcases hr₂ : m₁.ensureTable pdpt (pdptIndex va) user with ⟨m₂, _ | pd⟩
  · rw [hr₂] at e₂ g₂
    refine ⟨g₂, e₂.tree, ?_, ?_, fun _ => e₂.full rfl⟩
    · rintro _ ⟨⟩
    · rintro _ ⟨⟩
  rw [hr₂] at e₂ g₂
  have hc₂ : m₂.child pdpt (pdptIndex va) = some pd := e₂.found pd rfl
  have hlp₂ : m₂.level pdpt = 3 := by
    rw [e₂.grow.level pdpt (by show m₁.level pdpt ≠ 0; omega)]
    exact hl₁
  have hl₂ : m₂.level pd = 2 := by
    have : m₂.level pd + 1 = m₂.level pdpt :=
      e₂.tree.child pdpt _ pd (by show 2 ≤ m₂.level pdpt; omega) hc₂
    omega
  have e₃ := ensureTable_spec e₂.tree (pdIndex va) user (by show 2 ≤ m₂.level pd; omega)
  show PathEnsured m root va user (m₂.ensureTable pd (pdIndex va) user)
  have g₃ := g₂.trans e₃.grow h e₂.tree
  have g₂₃ := e₂.grow.trans e₃.grow e₁.tree e₂.tree
  refine ⟨g₃, e₃.tree, fun pt hpt => ?_, fun pt hpt hu => ⟨pdpt, pd, pt, ?_, ?_, ?_, ?_, ?_, ?_⟩, e₃.full⟩
  · unfold Mmu.pageTable
    rw [g₂₃.child_old (by show 2 ≤ m₁.level root; omega) hc₁, Option.bind_some,
      e₃.grow.child_old (by show 2 ≤ m₂.level pdpt; omega) hc₂, Option.bind_some]
    exact e₃.found pt hpt
  · exact g₂₃.child_old (by show 2 ≤ m₁.level root; omega) hc₁
  · exact e₃.grow.child_old (by show 2 ≤ m₂.level pdpt; omega) hc₂
  · exact e₃.found pt hpt
  · exact g₂₃.supervisor_old (by show 2 ≤ m₁.level root; omega) hc₁ (e₁.user pdpt rfl hu)
  · exact e₃.grow.supervisor_old (by show 2 ≤ m₂.level pdpt; omega) hc₂ (e₂.user pd rfl hu)
  · exact e₃.user pt hpt hu

/-! ## One page -/

def Mmu.setPage (m : Mmu) (root v pt : Nat) (e : PtEntry) (shadow : Option Nat) : Mmu :=
  (m.writeEntry pt (ptIndex v) e).updateSpace root fun s =>
    { s with shadow := Function.update s.shadow v shadow }

/-- `map_page`: the tables grow, and then the leaf is written unless guest memory ran out. -/
theorem mapPage_cases (h : TreeInv m) (va pa : Nat) (prot : MemProt) (hroot : m.level root = 4) : ∃ m₁ r,
      PathEnsured m root (pageAlign va) (!prot.supervisor) (m₁, r) ∧
      m.ensurePath root (pageAlign va) (!prot.supervisor) = (m₁, r) ∧
      (r = none ∧ m.mapPage root va pa prot = (m₁, false) ∨
        ∃ pt, r = some pt ∧ m.mapPage root va pa prot =
          (m₁.setPage root (pageAlign va) pt (leafEntry m₁ pa prot) (some pa), true)) := by
  have hp := ensurePath_spec h (pageAlign va) (!prot.supervisor) hroot
  unfold Mmu.mapPage
  rcases hr : m.ensurePath root (pageAlign va) (!prot.supervisor) with ⟨m₁, _ | pt⟩
  · rw [hr] at hp
    exact ⟨m₁, none, hp, rfl, Or.inl ⟨rfl, by simp only [hr]⟩⟩
  · rw [hr] at hp
    exact ⟨m₁, some pt, hp, rfl, Or.inr ⟨pt, rfl, by simp only [hr]; rfl⟩⟩

theorem unmapPage_eq (m : Mmu) (root va : Nat) : m.unmapPage root va =
    match m.pageTable root (pageAlign va) with
    | none => m.updateSpace root fun s =>
        { s with shadow := Function.update s.shadow (pageAlign va) none }
    | some pt => m.setPage root (pageAlign va) pt {} none := by
  unfold Mmu.unmapPage
  have hp : (m.updateSpace root fun s =>
      { s with shadow := Function.update s.shadow (pageAlign va) none }).pageTable root (pageAlign va) =
      m.pageTable root (pageAlign va) := rfl
  simp only [hp]
  cases m.pageTable root (pageAlign va) with
  | none => rfl
  | some pt => rfl

/-- What no operation takes back: tables stay tables, new ones come from the free end of guest memory, and
spaces stay. -/
structure Kept (m m' : Mmu) : Prop where
  tree : TreeInv m'
  format : m'.format = m.format
  kernel : m'.kernelPml4Pa = m.kernelPml4Pa
  live : ∀ r, (m'.spaces r).isSome = (m.spaces r).isSome
  phys : m.physNext ≤ m'.physNext
  level : ∀ t, m.level t ≠ 0 → m'.level t = m.level t
  fresh : ∀ t, m.level t = 0 → m'.level t ≠ 0 → m.physNext ≤ t
  found : ∀ r va pt, m.level r = 4 → m.pageTable r va = some pt → m'.pageTable r va = some pt
  back : ∀ r va pt, m.level r = 4 → m.level pt ≠ 0 → m'.pageTable r va = some pt →
    m.pageTable r va = some pt

theorem Kept.refl (h : TreeInv m) : Kept m m :=
  ⟨h, rfl, rfl, fun _ => rfl, le_rfl, fun _ _ => rfl, fun _ h0 h1 => absurd h0 h1, fun _ _ _ _ hpt => hpt,
    fun _ _ _ _ _ hpt => hpt⟩

theorem Kept.trans {m₁ m₂ : Mmu} (h : Kept m m₁) (h' : Kept m₁ m₂) : Kept m m₂ := by
  refine ⟨h'.tree, h'.format.trans h.format, h'.kernel.trans h.kernel,
    fun r => (h'.live r).trans (h.live r), h.phys.trans h'.phys, fun t ht => ?_, fun t h0 h2 => ?_,
    fun r va pt hr hpt => ?_, fun r va pt hr h0 hpt => ?_⟩
  · rw [h'.level t (by rw [h.level t ht]; exact ht), h.level t ht]
  · by_cases h1 : m₁.level t = 0
    · exact h.phys.trans (h'.fresh t h1 h2)
    · exact h.fresh t h0 h1
  · have hr₁ : m₁.level r = 4 := by
      rw [h.level r (by omega)]
      exact hr
    exact h'.found r va pt hr₁ (h.found r va pt hr hpt)
  · have hr₁ : m₁.level r = 4 := by
      rw [h.level r (by omega)]
      exact hr
    have h₁ : m₁.level pt ≠ 0 := by
      rw [h.level pt h0]
      exact h0
    exact h.back r va pt hr h0 (h'.back r va pt hr₁ h₁ hpt)

theorem Grow.kept (h : Grow m m') (hinv : TreeInv m) (hinv' : TreeInv m') : Kept m m' :=
  ⟨hinv', h.format, h.kernel, fun r => by rw [h.spaces], h.phys, h.level, h.fresh,
    fun _ _ _ hr hpt => h.pageTable_old hinv hr hinv' hpt,
    fun _ _ _ hr h0 hpt => (h.pageTable_new hinv hr hinv' hpt).elim id fun hn => absurd hn.1 h0⟩

theorem Aside.kept (h : Aside m m') (hinv : TreeInv m) : Kept m m' :=
  ⟨h.treeInv hinv, h.format, h.kernel, h.live, h.phys.1, fun t _ => by rw [h.level],
    fun t h0 h1 => by rw [h.level] at h1; exact absurd h0 h1,
    fun r va pt _ hpt => by rw [h.pageTable]; exact hpt,
    fun r va pt _ _ hpt => by rw [h.pageTable] at hpt; exact hpt⟩

theorem writeLeaf_kept (h : TreeInv m) {pt : Nat} (hpt : m.level pt = 1) (index : Nat)
    (e : PtEntry) : Kept m (m.writeEntry pt index e) :=
  ⟨writeLeaf_treeInv h hpt index e, rfl, rfl, fun _ => rfl, le_rfl, fun _ _ => rfl,
    fun _ h0 h1 => absurd h0 h1,
    fun _ va _ hr hpt' => by rw [writeLeaf_pageTable h hpt index e hr va]; exact hpt',
    fun _ va _ hr _ hpt' => by rw [writeLeaf_pageTable h hpt index e hr va] at hpt'; exact hpt'⟩

theorem Kept.level_root (h : Kept m m') (hroot : m.level root = 4) :
    m'.level root = 4 := by
  rw [h.level root (by omega)]
  exact hroot

def Mmu.Shares (m : Mmu) (root root' va : Nat) : Prop :=
  root = root' ∨ ∃ pt, m.pageTable root va = some pt ∧ m.pageTable root' va = some pt

theorem Kept.shares (h : Kept m m') {root' : Nat} (hroot : m.level root = 4)
    (hroot' : m.level root' = 4) (hs : m.Shares root root' va) : m'.Shares root root' va := by
  rcases hs with rfl | ⟨pt, hpt, hpt'⟩
  · exact Or.inl rfl
  · exact Or.inr ⟨pt, h.found root va pt hroot hpt, h.found root' va pt hroot' hpt'⟩

theorem TreeInv.shares (h : TreeInv m) {root' : Nat} (hroot : m.level root = 4)
    (hroot' : m.level root' = 4) (hs : m.Shares root root' va) :
    root = root' ∨ 256 ≤ pml4Index va := by
  rcases hs with rfl | ⟨pt, hpt, hpt'⟩
  · exact Or.inl rfl
  · exact (h.pageTable_inj hroot hroot' hpt hpt').2

/-- One page of a space got the leaf entry `e`, and with it the same page of the spaces that share its
page table. -/
structure Wrote (m m' : Mmu) (root va : Nat) (e : PtEntry) : Prop where
  kept : Kept m m'
  hit : ∀ r va', m.level r = 4 → m'.Shares r root va → vpn va' = vpn va → m'.leaf r va' = e
  miss : ∀ r va', m.level r = 4 → ¬ (m'.Shares r root va ∧ vpn va' = vpn va) →
    m'.leaf r va' = m.leaf r va'

theorem writeLeaf_wrote (h : TreeInv m) {pt : Nat} (hroot : m.level root = 4)
    (hpt : m.pageTable root va = some pt) (e : PtEntry) :
    Wrote m (m.writeEntry pt (ptIndex va) e) root va e := by
  have hlevel := h.pageTable_level hroot hpt
  have hshares : ∀ r, m.level r = 4 → ((m.writeEntry pt (ptIndex va) e).Shares r root va ↔
      m.pageTable r va = some pt) := by
    intro r hr
    unfold Mmu.Shares
    rw [writeLeaf_pageTable h hlevel (ptIndex va) e hr va,
      writeLeaf_pageTable h hlevel (ptIndex va) e hroot va, hpt]
    constructor
    · rintro (rfl | ⟨pt', h1, h2⟩)
      · exact hpt
      · rw [h1, h2]
    · exact fun hr => Or.inr ⟨pt, hr, rfl⟩
  refine ⟨writeLeaf_kept h hlevel (ptIndex va) e, fun r va' hr hs hv => ?_, fun r va' hr hs => ?_⟩
  · rw [leaf_write h hlevel e hroot hr hpt va', if_pos ⟨(hshares r hr).mp hs, hv⟩]
  · rw [leaf_write h hlevel e hroot hr hpt va', if_neg]
    rwa [hshares r hr] at hs

theorem Aside.shares (h : Aside m m') (root root' va : Nat) :
    m'.Shares root root' va ↔ m.Shares root root' va := by
  unfold Mmu.Shares
  rw [h.pageTable, h.pageTable]

theorem Wrote.aside {m₁ m₂ : Mmu} {e : PtEntry} (h : Wrote m m₁ root va e)
    (ha : Aside m₁ m₂) : Wrote m m₂ root va e := by
  refine ⟨h.kept.trans (ha.kept h.kept.tree), fun r va' hr hs hv => ?_, fun r va' hr hs => ?_⟩
  · rw [ha.leaf]
    exact h.hit r va' hr ((ha.shares r root va).mp hs) hv
  · rw [ha.leaf]
    rw [ha.shares] at hs
    exact h.miss r va' hr hs

theorem setPage_wrote (h : TreeInv m) {pt : Nat} (hroot : m.level root = 4)
    (hpt : m.pageTable root va = some pt) (e : PtEntry) (shadow : Option Nat) :
    Wrote m (m.setPage root va pt e shadow) root va e := by
  have hw := writeLeaf_wrote h hroot hpt e
  exact hw.aside (updateSpace_aside hw.kept.tree.phys root fun s =>
    { s with shadow := Function.update s.shadow va shadow })

theorem shares_congr (m : Mmu) (root root' : Nat) (h : vpn va = vpn va') :
    m.Shares root root' va ↔ m.Shares root root' va' := by
  have hpath := (vpn_eq_iff.mp h).1
  unfold Mmu.Shares
  rw [pageTable_congr m root hpath, pageTable_congr m root' hpath]

theorem Wrote.congr {e : PtEntry} (h : Wrote m m' root va e) (hv : vpn va = vpn va') : Wrote m m' root va' e := by
  refine ⟨h.kept, fun r v hr hs hv' => ?_, fun r v hr hs => ?_⟩
  · exact h.hit r v hr ((shares_congr m' r root hv).mpr hs) (hv'.trans hv.symm)
  · apply h.miss r v hr
    rwa [shares_congr m' r root hv, hv]

theorem wrote_same (hkept : Kept m m') (root va : Nat) (hleaf : ∀ r va', m.level r = 4 → m'.leaf r va' = m.leaf r va')
    (hroot : m.level root = 4) : Wrote m m' root va (m.leaf root va) := by
  refine ⟨hkept, fun r va' hr hs hv => ?_, fun r va' hr _ => hleaf r va' hr⟩
  rw [leaf_congr m' r hv]
  rcases hs with rfl | ⟨pt, hpt, hpt'⟩
  · exact hleaf r va hr
  · rw [← hleaf root va hroot]
    unfold Mmu.leaf
    rw [hpt, hpt']

theorem Grow.trans_wrote {m₁ : Mmu} (hg : Grow m m₁) (h : TreeInv m) (h₁ : TreeInv m₁)
    {e : PtEntry} (hw : Wrote m₁ m' root va e) : Wrote m m' root va e := by
  refine ⟨(hg.kept h h₁).trans hw.kept, fun r va' hr hs hv => ?_, fun r va' hr hs => ?_⟩
  · exact hw.hit r va' (hg.level_root hr) hs hv
  · rw [hw.miss r va' (hg.level_root hr) hs]
    exact hg.leaf_eq h hr h₁ va'

/-- What a round of `prot_virt` makes of a leaf entry. -/
def reprotLeaf (e : PtEntry) (prot : MemProt) : PtEntry :=
  if e.present then reprotEntry e prot else e

theorem writeEntry_self (m : Mmu) (table index : Nat) :
    m.writeEntry table index (m.mem table index) = m := by
  have hmem : (fun t i => if t = table ∧ i = index then m.mem table index else m.mem t i) = m.mem := by
    funext t i
    split
    · rename_i hs
      rw [hs.1, hs.2]
    · rfl
  unfold Mmu.writeEntry
  rw [hmem]

theorem protPage_eq (m : Mmu) (root v : Nat) (prot : MemProt) :
    m.protPage root v prot = match m.pageTable root v with
      | none => m
      | some pt => m.writeEntry pt (ptIndex v) (reprotLeaf (m.mem pt (ptIndex v)) prot) := by
  unfold Mmu.protPage reprotLeaf
  cases m.pageTable root v with
  | none => rfl
  | some pt =>
    show (if _ then _ else _) = m.writeEntry pt (ptIndex v) (if _ then _ else _)
    split
    · rfl
    · exact (writeEntry_self m pt (ptIndex v)).symm

/-! ### The page operations on leaf entries -/

theorem mapPage_wrote (h : TreeInv m) {pa : Nat} {prot : MemProt}
    (hroot : m.level root = 4) (hm : m.mapPage root va pa prot = (m', true)) :
    Wrote m m' root va (leafEntry m pa prot) := by
  obtain ⟨m₁, r, hp, -, ⟨-, he⟩ | ⟨pt, rfl, he⟩⟩ := mapPage_cases h va pa prot hroot
  · rw [he] at hm
    simp at hm
  · rw [he] at hm
    obtain ⟨rfl, -⟩ := Prod.mk.inj hm
    have hw := setPage_wrote hp.tree (hp.grow.level_root hroot) (hp.found pt rfl)
      (leafEntry m₁ pa prot) (some pa)
    have hentry : leafEntry m₁ pa prot = leafEntry m pa prot := by
      unfold leafEntry Mmu.pfn
      rw [show m₁.format = m.format from hp.grow.format]
    rw [← hentry]
    exact (hp.grow.trans_wrote h hp.tree hw).congr (vpn_pageAlign va)

theorem mapPage_grow (h : TreeInv m) {pa : Nat} {prot : MemProt}
    (hroot : m.level root = 4) (hm : m.mapPage root va pa prot = (m', false)) :
    Grow m m' ∧ TreeInv m' ∧ m'.allocPhys pageSize = none := by
  obtain ⟨m₁, r, hp, -, ⟨rfl, he⟩ | ⟨pt, -, he⟩⟩ := mapPage_cases h va pa prot hroot
  · rw [he] at hm
    obtain ⟨rfl, -⟩ := Prod.mk.inj hm
    exact ⟨hp.grow, hp.tree, hp.full rfl⟩
  · rw [he] at hm
    simp at hm

theorem unmapPage_wrote (h : TreeInv m) (va : Nat) (hroot : m.level root = 4) :
    Wrote m (m.unmapPage root va) root va {} := by
  rw [unmapPage_eq]
  cases hpt : m.pageTable root (pageAlign va) with
  | none =>
    have haside := updateSpace_aside h.phys root fun s =>
      { s with shadow := Function.update s.shadow (pageAlign va) none }
    have hw := wrote_same (haside.kept h) root (pageAlign va) (fun r va' _ => haside.leaf r va') hroot
    rw [show m.leaf root (pageAlign va) = {} by unfold Mmu.leaf; rw [hpt]] at hw
    exact hw.congr (vpn_pageAlign va)
  | some pt => exact (setPage_wrote h hroot hpt {} none).congr (vpn_pageAlign va)

theorem protPage_wrote (h : TreeInv m) (v : Nat) (prot : MemProt) (hroot : m.level root = 4) :
    Wrote m (m.protPage root v prot) root v (reprotLeaf (m.leaf root v) prot) := by
  rw [protPage_eq]
  cases hpt : m.pageTable root v with
  | none =>
    have hleaf : m.leaf root v = {} := by unfold Mmu.leaf; rw [hpt]
    have hw := wrote_same (Kept.refl h) root v (fun r va' _ => rfl) hroot
    rw [hleaf] at hw ⊢
    exact hw
  | some pt =>
    have hleaf : m.leaf root v = m.mem pt (ptIndex v) := by unfold Mmu.leaf; rw [hpt]
    rw [hleaf]
    exact writeLeaf_wrote h hroot hpt _

/-- Reprotecting a page reprotects it in every space that shares its page table. -/
theorem protPage_leaf (h : TreeInv m) {r : Nat} (v : Nat) (prot : MemProt)
    (hroot : m.level root = 4) (hr : m.level r = 4) (va : Nat) :
    (m.protPage root v prot).leaf r va = m.leaf r va ∨
      (m.protPage root v prot).leaf r va = reprotLeaf (m.leaf r va) prot := by
  rw [protPage_eq]
  cases hpt : m.pageTable root v with
  | none => exact Or.inl rfl
  | some pt =>
    simp only
    rw [leaf_write h (h.pageTable_level hroot hpt) _ hroot hr hpt va]
    by_cases hs : m.pageTable r v = some pt ∧ vpn va = vpn v
    · rw [if_pos hs, leaf_congr m r hs.2]
      unfold Mmu.leaf
      rw [hs.1]
      exact Or.inr rfl
    · rw [if_neg hs]
      exact Or.inl rfl

/-! ## Loops over pages -/

/-- What mapping a page preserves, when it succeeds and when it stops the loop, holds after the loop, with
the number of pages mapped; a loop that stopped early leaves what the page that stopped it leaves. -/
theorem mapLoop_induct (P : Nat → Mmu → Prop) (Q : Mmu → Prop) (root start pa : Nat) (prot : MemProt)
    (total : Nat)
    (hok : ∀ k m m', k < total → P k m →
      m.mapPage root (pageOf start k) (pageOf pa k) prot = (m', true) → P (k + 1) m')
    (hfail : ∀ k m m', k < total → P k m →
      m.mapPage root (pageOf start k) (pageOf pa k) prot = (m', false) → P k m' ∧ Q m') :
    ∀ n k m, k + n = total → P k m →
      P (mapLoop root start pa prot n k m).2 (mapLoop root start pa prot n k m).1 ∧
        ((mapLoop root start pa prot n k m).2 = total ∨
          (mapLoop root start pa prot n k m).2 < total ∧ Q (mapLoop root start pa prot n k m).1) := by
  intro n
  induction n with
  | zero =>
    intro k m hk hP
    exact ⟨hP, Or.inl hk⟩
  | succ n ih =>
    intro k m hk hP
    rw [mapLoop]
    rcases hm : m.mapPage root (pageOf start k) (pageOf pa k) prot with ⟨m', _ | _⟩
    · obtain ⟨hP', hQ⟩ := hfail k m m' (by omega) hP hm
      exact ⟨hP', Or.inr ⟨by show k < total; omega, hQ⟩⟩
    · exact ih (k + 1) m' (by omega) (hok k m m' (by omega) hP hm)

theorem eachLoop_induct (P : Nat → Mmu → Prop) {visit : Nat → Mmu → Mmu} {loop : Nat → Nat → Mmu → Mmu}
    (hzero : ∀ k m, loop 0 k m = m) (hsucc : ∀ n k m, loop (n + 1) k m = loop n (k + 1) (visit k m)) {total : Nat}
    (hok : ∀ k m, k < total → P k m → P (k + 1) (visit k m)) (n k : Nat) (m : Mmu) (hk : k + n = total)
    (hP : P k m) : P total (loop n k m) := by
  induction n generalizing k m with
  | zero =>
    rw [hzero, ← hk]
    exact hP
  | succ n ih =>
    rw [hsucc]
    exact ih (k + 1) _ (by omega) (hok k m (by omega) hP)

theorem unmapLoop_induct (P : Nat → Mmu → Prop) {start : Nat} {total : Nat}
    (hok : ∀ k m, k < total → P k m → P (k + 1) (m.unmapPage root (pageOf start k))) :
    ∀ n k m, k + n = total → P k m → P total (unmapLoop root start n k m) :=
  eachLoop_induct P (fun _ _ => rfl) (fun _ _ _ => rfl) hok

theorem protLoop_induct (P : Nat → Mmu → Prop) {start : Nat} {prot : MemProt} {total : Nat}
    (hok : ∀ k m, k < total → P k m → P (k + 1) (m.protPage root (pageOf start k) prot)) :
    ∀ n k m, k + n = total → P k m → P total (protLoop root start prot n k m) :=
  eachLoop_induct P (fun _ _ => rfl) (fun _ _ _ => rfl) hok

end Kernemul.X86
