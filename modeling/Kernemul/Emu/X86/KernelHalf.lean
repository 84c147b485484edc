import Kernemul.Emu.X86.Access
import Kernemul.Emu.X86.Translate

/-!
# The kernel half

A new space takes over the kernel-half entries of the first PML4, and with them the tables below. From then
on a PML4 slot that is filled, or made user reachable, through one space changes in that space only. As
long as no call does that (`SharedOk`), the kernel half is the same in all spaces.
-/

namespace Kernemul.X86

/-- Every kernel-half page has the same frame with the same rights in all spaces. -/
def KernelShared (m : Mmu) : Prop := ∀ S T va, (m.spaces S).isSome → (m.spaces T).isSome →
  256 ≤ pml4Index va → m.access S va = m.access T va

/-- Mapping a page leaves a PML4 slot as it is: the slot is filled, and user reachable when the page is
to be. -/
def Mmu.SlotReady (m : Mmu) (root va : Nat) (prot : MemProt) : Prop :=
  (m.mem root (pml4Index va)).present = true ∧
    (prot.supervisor = false → (m.mem root (pml4Index va)).supervisor = true)

/-- The kernel-half pages of a map request have their PML4 slots ready, unless there is one space only. -/
def SharedOk (m : Mmu) (call : Call) : Prop :=
  ∀ m₀ j, m.job call = some (m₀, j) → (∀ T, (m.spaces T).isSome → T = j.root) ∨
    ∀ k < j.n, 256 ≤ pml4Index (pageOf j.start k) → m.SlotReady j.root (pageOf j.start k) j.prot

/-! ## PML4 slots -/

theorem ensureTable_mem_of_ne (m : Mmu) (h : TreeInv m) {table index t i : Nat} (user : Bool)
    (hne : ¬ (t = table ∧ i = index)) : (m.ensureTable table index user).1.mem t i = m.mem t i := by
  rcases ensureTable_cases m h.phys.2 table index user with ⟨c, -, ⟨he, -⟩ | he⟩ | ⟨-, -, he⟩ | ⟨-, -, he⟩
  · rw [he]
  · rw [he]
    exact if_neg hne
  · rw [he]
  · rw [he]
    exact if_neg hne

theorem ensureTable_ready (m : Mmu) {table index : Nat} {user : Bool}
    (hp : (m.mem table index).present = true)
    (hu : user = true → (m.mem table index).supervisor = true) :
    (m.ensureTable table index user).1 = m := by
  unfold Mmu.ensureTable
  simp only
  rw [if_pos hp, if_neg]
  intro hw
  obtain ⟨h1, h2⟩ := (Bool.and_eq_true _ _).mp hw
  rw [hu h1] at h2
  simp at h2

variable {m : Mmu} {root : Nat}

/-- Growing the tables above a page changes no PML4 slot but its own, and that one only when it was not
ready. -/
theorem ensurePath_pml4 (h : TreeInv m) {t : Nat} (va : Nat) (user : Bool) (i : Nat)
    (hroot : m.level root = 4) (ht : m.level t = 4) :
    (m.ensurePath root va user).1.mem t i = m.mem t i ∨ t = root ∧ i = pml4Index va ∧
      ¬ ((m.mem root (pml4Index va)).present = true ∧
        (user = true → (m.mem root (pml4Index va)).supervisor = true)) := by
  have hfirst : (m.ensureTable root (pml4Index va) user).1.mem t i = m.mem t i ∨ t = root ∧
      i = pml4Index va ∧ ¬ ((m.mem root (pml4Index va)).present = true ∧
        (user = true → (m.mem root (pml4Index va)).supervisor = true)) := by
    by_cases hs : t = root ∧ i = pml4Index va
    · by_cases hready : (m.mem root (pml4Index va)).present = true ∧
        (user = true → (m.mem root (pml4Index va)).supervisor = true)
      · rw [ensureTable_ready m hready.1 hready.2]
        exact Or.inl rfl
      · exact Or.inr ⟨hs.1, hs.2, hready⟩
    · exact Or.inl (ensureTable_mem_of_ne m h user hs)
  have e₁ := ensureTable_spec h (pml4Index va) user (by omega : 2 ≤ m.level root)
  suffices hrest : (m.ensurePath root va user).1.mem t i =
      (m.ensureTable root (pml4Index va) user).1.mem t i by
    rw [hrest]
    exact hfirst
  unfold Mmu.ensurePath
  rcases hr₁ : m.ensureTable root (pml4Index va) user with ⟨m₁, _ | pdpt⟩
  · rfl
  rw [hr₁] at e₁
  have htree₁ : TreeInv m₁ := e₁.tree
  have hc₁ : m₁.child root (pml4Index va) = some pdpt := e₁.found pdpt rfl
  have hroot₁ : m₁.level root = 4 := e₁.grow.level_root hroot
  have ht₁ : m₁.level t = 4 := e₁.grow.level_root ht
  have hl₁ := htree₁.child root _ pdpt (by omega) hc₁
  have e₂ := ensureTable_spec htree₁ (pdptIndex va) user (by omega : 2 ≤ m₁.level pdpt)
  have hne₁ : t ≠ pdpt := by
    intro he
    rw [he] at ht₁
    omega
  have hmem₁ : (m₁.ensureTable pdpt (pdptIndex va) user).1.mem t i = m₁.mem t i :=
    ensureTable_mem_of_ne m₁ htree₁ user fun hs => hne₁ hs.1
  dsimp only
  rcases hr₂ : m₁.ensureTable pdpt (pdptIndex va) user with ⟨m₂, _ | pd⟩
  · rw [hr₂] at hmem₁
    exact hmem₁
  rw [hr₂] at e₂ hmem₁
  have htree₂ : TreeInv m₂ := e₂.tree
  have hc₂ : m₂.child pdpt (pdptIndex va) = some pd := e₂.found pd rfl
  have hlp₂ : m₂.level pdpt = m₁.level pdpt := e₂.grow.level pdpt (by show m₁.level pdpt ≠ 0; omega)
  have ht₂ : m₂.level t = 4 := e₂.grow.level_root ht₁
  have hl₂ := htree₂.child pdpt _ pd (by omega) hc₂
  have hne₂ : t ≠ pd := by
    intro he
    rw [he] at ht₂
    omega
  show (m₂.ensureTable pd (pdIndex va) user).1.mem t i = m₁.mem t i
  rw [ensureTable_mem_of_ne m₂ htree₂ user fun hs => hne₂ hs.1]
  exact hmem₁

theorem Grow.slotReady {m' : Mmu} (hg : Grow m m') {v : Nat} {prot : MemProt}
    (hroot : m.level root = 4) (h : m.SlotReady root v prot) : m'.SlotReady root v prot := by
  obtain ⟨hp, hu⟩ := h
  rcases hg.entry root (pml4Index v) (by omega) hp with he | he
  · unfold Mmu.SlotReady
    rw [he]
    exact ⟨hp, hu⟩
  · unfold Mmu.SlotReady
    rw [he]
    exact ⟨hp, fun _ => rfl⟩

theorem mapPage_pml4 (h : TreeInv m) (va pa : Nat) (prot : MemProt) (hroot : m.level root = 4) :
    (∀ t i, m.level t = 4 → (m.mapPage root va pa prot).1.mem t i = m.mem t i ∨
      t = root ∧ i = pml4Index va ∧ ¬ m.SlotReady root va prot) ∧
    (∀ v p, m.SlotReady root v p → (m.mapPage root va pa prot).1.SlotReady root v p) := by
  obtain ⟨m₁, r, hp, hpath, hcase⟩ := mapPage_cases h va pa prot hroot
  have hslot : ∀ t i, m.level t = 4 → m₁.mem t i = m.mem t i ∨
      t = root ∧ i = pml4Index va ∧ ¬ m.SlotReady root va prot := by
    intro t i ht
    have hpml4 := ensurePath_pml4 h (pageAlign va) (!prot.supervisor) i hroot ht
    rw [hpath, pml4Index_pageAlign] at hpml4
    refine hpml4.imp id fun ⟨h1, h2, h3⟩ => ⟨h1, h2, fun hready => h3 ⟨hready.1, fun hu => hready.2 ?_⟩⟩
    simpa using hu
  have hready : ∀ v p, m.SlotReady root v p → m₁.SlotReady root v p := fun v p hs =>
    hp.grow.slotReady hroot hs
  rcases hcase with ⟨-, he⟩ | ⟨pt, rfl, he⟩
  · rw [he]
    exact ⟨hslot, hready⟩
  · rw [he]
    have hroot₁ : m₁.level root = 4 := hp.grow.level_root hroot
    have hl := hp.tree.pageTable_level hroot₁ (hp.found pt rfl)
    have hmem : ∀ t i, m₁.level t = 4 →
        (m₁.setPage root (pageAlign va) pt (leafEntry m₁ pa prot) (some pa)).mem t i = m₁.mem t i := by
      intro t i ht
      refine if_neg fun hs => ?_
      rw [hs.1] at ht
      have hl' : m₁.level pt = 1 := hl
      omega
    refine ⟨fun t i ht => ?_, fun v p hs => ?_⟩
    · simp only
      rw [hmem t i (hp.grow.level_root ht)]
      exact hslot t i ht
    · obtain ⟨hpres, hu⟩ := hready v p hs
      unfold Mmu.SlotReady
      simp only
      rw [hmem root _ hroot₁]
      exact ⟨hpres, hu⟩

/-! ## The invariant -/

/-- The kernel-half slots of all PML4s are the same, and the first PML4 belongs to a space. -/
structure KernelInv (m : Mmu) : Prop where
  tree : TreeInv m
  same : ∀ S T i, (m.spaces S).isSome → (m.spaces T).isSome → 256 ≤ i → i < 512 → m.mem S i = m.mem T i
  base : physBase ≤ m.physNext
  first : ∀ S, (m.spaces S).isSome → m.kernelPml4Pa ≠ 0

theorem KernelInv.shared {m : Mmu} (h : KernelInv m) : KernelShared m := by
  intro S T va hS hT hva
  have hlt : pml4Index va < 512 := Nat.mod_lt _ (by decide)
  have hmem := h.same S T (pml4Index va) hS hT hva hlt
  unfold Mmu.access
  rw [child_def, child_def, hmem]

theorem init_kernelInv (format : EntryFormat) : KernelInv (Mmu.init format) :=
  ⟨init_treeInv format, nofun, le_rfl, nofun⟩

theorem KernelInv.keep {m m' : Mmu} (h : KernelInv m) (hkept : Kept m m')
    (hmem : (∀ S T, (m.spaces S).isSome → (m.spaces T).isSome → S = T) ∨
      ∀ S i, (m.spaces S).isSome → 256 ≤ i → i < 512 → m'.mem S i = m.mem S i) : KernelInv m' := by
  refine ⟨hkept.tree, fun S T i hS hT hi hi' => ?_, h.base.trans hkept.phys, fun S hS => ?_⟩
  · rw [hkept.live] at hS hT
    rcases hmem with hone | hmem
    · rw [hone S T hS hT]
    · rw [hmem S i hS hi hi', hmem T i hT hi hi']
      exact h.same S T i hS hT hi hi'
  · rw [hkept.live] at hS
    rw [hkept.kernel]
    exact h.first S hS

theorem KernelInv.create {m' : Mmu} (h : KernelInv m) (hc : Created m root m') :
    KernelInv m' := by
  have hentry : ∀ S i, (m'.spaces S).isSome → 256 ≤ i → i < 512 →
      m'.mem S i = if m.kernelPml4Pa = 0 then {} else m.mem m.kernelPml4Pa i := by
    intro S i hS hi hi'
    rw [hc.mem]
    rw [hc.spaces] at hS
    by_cases he : S = root
    · rw [if_pos he]
      unfold Mmu.inherited
      by_cases hk : m.kernelPml4Pa = 0
      · rw [if_pos hk, if_neg fun hh => hh.1 hk]
      · rw [if_neg hk, if_pos ⟨hk, hi, hi'⟩]
    · rw [if_neg he] at hS ⊢
      have hk := h.first S hS
      rw [if_neg hk]
      exact h.same S _ i hS (h.tree.kernel hk) hi hi'
  have hbase := h.base
  have hpos : 0 < physBase := by decide
  have hroot := hc.base.1
  have hkernel : m'.kernelPml4Pa ≠ 0 := by
    rw [hc.kernel]
    split
    · omega
    · assumption
  refine ⟨hc.tree, fun S T i hS hT hi hi' => ?_, ?_, fun _ _ => hkernel⟩
  · rw [hentry S i hS hi hi', hentry T i hT hi hi']
  · rw [hc.phys]
    omega

/-! ## Runs -/

/-- The loop over `map_page` keeps the kernel half shared when its slots are ready. -/
theorem KernelInv.mapRun (h : KernelInv m) {j : MapJob} (hlive : (m.spaces j.root).isSome)
    (hok : (∀ T, (m.spaces T).isSome → T = j.root) ∨
      ∀ k < j.n, 256 ≤ pml4Index (pageOf j.start k) → m.SlotReady j.root (pageOf j.start k) j.prot) :
    KernelInv (j.run m).1 := by
  have hpage : ∀ k m₁ m' b, k < j.n → KernelInv m₁ → Kept m m₁ →
      (∀ v p, m.SlotReady j.root v p → m₁.SlotReady j.root v p) →
      m₁.mapPage j.root (pageOf j.start k) (pageOf j.pa k) j.prot = (m', b) →
      KernelInv m' ∧ Kept m m' ∧ ∀ v p, m.SlotReady j.root v p → m'.SlotReady j.root v p := by
    intro k m₁ m' b hk h₁ hkept hready hm
    have hroot₁ := hkept.level_root (h.tree.roots j.root hlive)
    have hkept' : Kept m₁ m' := by
      cases b with
      | true => exact (mapPage_wrote h₁.tree hroot₁ hm).kept
      | false =>
        obtain ⟨hg, htree, -⟩ := mapPage_grow h₁.tree hroot₁ hm
        exact hg.kept h₁.tree htree
    obtain ⟨hslot, hready'⟩ := mapPage_pml4 h₁.tree (pageOf j.start k) (pageOf j.pa k) j.prot hroot₁
    rw [hm] at hslot hready'
    refine ⟨h₁.keep hkept' ?_, hkept.trans hkept', fun v p hs => hready' v p (hready v p hs)⟩
    rcases hok with hone | hslots
    · refine Or.inl fun S T hS hT => ?_
      rw [hkept.live] at hS hT
      rw [hone S hS, hone T hT]
    · refine Or.inr fun S i hS hi hi' => ?_
      rcases hslot S i (h₁.tree.roots S hS) with he | ⟨-, rfl, hnot⟩
      · exact he
      · exact absurd (hready _ _ (hslots k hk hi)) hnot
  refine (mapLoop_induct (fun _ m₁ => KernelInv m₁ ∧ Kept m m₁ ∧
    ∀ v p, m.SlotReady j.root v p → m₁.SlotReady j.root v p) (fun _ => True) j.root j.start j.pa j.prot
    j.n ?_ ?_ j.n 0 m (Nat.zero_add _) ⟨h, Kept.refl h.tree, fun _ _ hs => hs⟩).1.1
  · rintro k m₁ m' hk ⟨h₁, hkept, hready⟩ hm
    exact hpage k m₁ m' true hk h₁ hkept hready hm
  · rintro k m₁ m' hk ⟨h₁, hkept, hready⟩ hm
    exact ⟨hpage k m₁ m' false hk h₁ hkept hready hm, trivial⟩

theorem KernelInv.unmapVirt (h : KernelInv m) (va size : Nat)
    (hlive : (m.spaces root).isSome) : KernelInv (m.unmapVirt root va size) := by
  refine (unmapLoop_induct (fun _ m₁ => KernelInv m₁ ∧ Kept m m₁) ?_ _ 0 m (Nat.zero_add _)
    ⟨h, Kept.refl h.tree⟩).1
  rintro k m₁ hk ⟨h₁, hkept⟩
  have hroot₁ := hkept.level_root (h.tree.roots root hlive)
  have hw := unmapPage_wrote h₁.tree (pageOf (pageAlign va) k) hroot₁
  refine ⟨h₁.keep hw.kept (Or.inr fun S i hS _ _ => ?_), hkept.trans hw.kept⟩
  rw [unmapPage_eq]
  cases hpt : m₁.pageTable root (pageAlign (pageOf (pageAlign va) k)) with
  | none => rfl
  | some pt =>
    refine if_neg fun hs => ?_
    have hl := h₁.tree.pageTable_level hroot₁ hpt
    have h4 := h₁.tree.roots S hS
    rw [hs.1] at h4
    omega

theorem KernelInv.protVirt (h : KernelInv m) (va size : Nat) (prot : MemProt)
    (hlive : (m.spaces root).isSome) : KernelInv (m.protVirt root va size prot) := by
  refine (protLoop_induct (fun _ m₁ => KernelInv m₁ ∧ Kept m m₁) ?_ _ 0 m (Nat.zero_add _)
    ⟨h, Kept.refl h.tree⟩).1
  rintro k m₁ hk ⟨h₁, hkept⟩
  have hroot₁ := hkept.level_root (h.tree.roots root hlive)
  have hw := protPage_wrote h₁.tree (pageOf (pageAlign va) k) prot hroot₁
  refine ⟨h₁.keep hw.kept (Or.inr fun S i hS _ _ => ?_), hkept.trans hw.kept⟩
  rw [protPage_eq]
  cases hpt : m₁.pageTable root (pageOf (pageAlign va) k) with
  | none => rfl
  | some pt =>
    refine if_neg fun hs => ?_
    have hl := h₁.tree.pageTable_level hroot₁ hpt
    have h4 := h₁.tree.roots S hS
    rw [hs.1] at h4
    omega

theorem step_kernelInv {m' : Mmu} {call : Call} (h : KernelInv m) (hok : SharedOk m call)
    (hstep : step m call = some m') : KernelInv m' := by
  rcases step_did h.tree.phys hstep with ⟨hp, -, -, -, -, -⟩ | ⟨root, -, hc⟩ | ⟨m₀, j, hj, hlive, rfl⟩ |
    ⟨root, va, size, -, hlive, rfl⟩ | ⟨root, va, size, prot, -, hlive, rfl⟩
  · exact h.keep (hp.kept h.tree) (Or.inr fun S i _ _ _ => by rw [hp.mem])
  · exact h.create (createAddrSpace_spec h.tree hc)
  · obtain ⟨hp, -, -⟩ := job_spec h.tree.phys hj
    have h₀ : KernelInv m₀ := h.keep (hp.kept h.tree) (Or.inr fun S i _ _ _ => by rw [hp.mem])
    apply h₀.mapRun
    · rw [hp.live]
      exact hlive
    · refine (hok m₀ j hj).imp (fun hone T hT => ?_) fun hslots k hk hi => ?_
      · rw [hp.live] at hT
        exact hone T hT
      · have hready := hslots k hk hi
        unfold Mmu.SlotReady at *
        rw [hp.mem]
        exact hready
  · exact h.unmapVirt va size hlive
  · exact h.protVirt va size prot hlive

/-- **The kernel half is shared** in every run that fills or widens no kernel-half slot of a PML4 while
there are other spaces. -/
theorem kernelHalf_shared {format : EntryFormat} {calls : List Call} {m : Mmu}
    (hrun : Run.Steps step SharedOk (Mmu.init format) calls m) : KernelShared m :=
  (hrun.invariant (fun _ _ _ h hok hstep => step_kernelInv h hok hstep) (init_kernelInv format)).shared

instance (m : Mmu) (root va : Nat) (prot : MemProt) : Decidable (m.SlotReady root va prot) :=
  inferInstanceAs (Decidable (_ ∧ _))

def slotsReady (m : Mmu) (call : Call) : Bool :=
  match m.job call with
  | none => true
  | some (_, j) => decide (∀ k < j.n, 256 ≤ pml4Index (pageOf j.start k) →
      m.SlotReady j.root (pageOf j.start k) j.prot)

theorem sharedOk_of_slotsReady (m : Mmu) (call : Call) (h : slotsReady m call = true) :
    SharedOk m call := by
  intro m₀ j hj
  unfold slotsReady at h
  rw [hj] at h
  exact Or.inr (of_decide_eq_true h)

/-- Kernel pages of one PML4 slot, the first mapped before there is a second space. -/
def kernelPages : List Call :=
  [.createAddrSpace, .alloc 0x100000000 0x1000 { protRw with supervisor := true }, .createAddrSpace,
    .mapVirt 0x100005000 0xFFFFF80000001000 0x1000 { protRx with supervisor := true }]

theorem kernelPages_shared : ∃ m, Run.Steps step SharedOk (Mmu.init pfn36) kernelPages m ∧
    (m.access 0x100000000 0xFFFFF80000001000).isSome ∧
    m.access 0x100005000 0xFFFFF80000001000 = m.access 0x100000000 0xFFFFF80000001000 := by
  have hexec : ((step (Mmu.init pfn36) .createAddrSpace).bind fun m₁ =>
      (step m₁ (.alloc 0x100000000 0x1000 { protRw with supervisor := true })).bind fun m₂ =>
        (Run.exec step slotsReady m₂ (kernelPages.drop 2)).map fun m =>
          ((m.access 0x100000000 0xFFFFF80000001000).isSome, (m.spaces 0x100000000).isSome,
            (m.spaces 0x100005000).isSome)) = some (true, true, true) := by decide +kernel
  obtain ⟨m₁, h₁, hexec⟩ := Option.bind_eq_some_iff.mp hexec
  obtain ⟨m₂, h₂, hexec⟩ := Option.bind_eq_some_iff.mp hexec
  obtain ⟨m, hm, hval⟩ := Option.map_eq_some_iff.mp hexec
  simp only [Prod.mk.injEq] at hval
  have hok₁ : SharedOk (Mmu.init pfn36) .createAddrSpace := fun _ _ hj => by simp [Mmu.job] at hj
  have hone : ∀ T, (m₁.spaces T).isSome → T = 0x100000000 := by
    intro T hT
    obtain ⟨t, ht⟩ := Option.isSome_iff_exists.mp hT
    exact (first_space h₁ ht).1
  have hok₂ : SharedOk m₁ (.alloc 0x100000000 0x1000 { protRw with supervisor := true }) := by
    intro m₀ j hj
    have htree : TreeInv m₁ := (step_kernelInv (init_kernelInv pfn36) hok₁ h₁).tree
    obtain ⟨-, hroot, -⟩ := job_spec htree.phys hj
    rw [← Option.some.inj hroot]
    exact Or.inl hone
  have hrun : Run.Steps step SharedOk (Mmu.init pfn36) kernelPages m :=
    .cons hok₁ h₁ (.cons hok₂ h₂ (.of_exec sharedOk_of_slotsReady hm))
  refine ⟨m, hrun, hval.1, kernelHalf_shared hrun _ _ _ hval.2.2 hval.2.1 (by decide)⟩

/-- A kernel page mapped through one of two spaces, in a PML4 slot that neither has. -/
def lateKernelPage : List Call :=
  [.createAddrSpace, .createAddrSpace,
    .mapVirt 0x100000000 0xFFFFF80000000000 0x1000 { protRw with supervisor := true }]

theorem lateKernelPage_not_shared :
    ¬ ∀ format calls m, Run.Steps step (fun _ _ => True) (Mmu.init format) calls m → KernelShared m := by
  intro hall
  have hexec : ((Run.exec step (fun _ _ => true) (Mmu.init pfn36) lateKernelPage).map fun m =>
      ((m.spaces 0x100000000).isSome, (m.spaces 0x100001000).isSome,
        (m.access 0x100000000 0xFFFFF80000000000).isSome,
        (m.access 0x100001000 0xFFFFF80000000000).isSome)) = some (true, true, true, false) := by
    decide +kernel
  obtain ⟨m, hm, hval⟩ := Option.map_eq_some_iff.mp hexec
  simp only [Prod.mk.injEq] at hval
  obtain ⟨hA, hB, hsome, hnone⟩ := hval
  have hsame := hall pfn36 lateKernelPage m (.of_exec (fun _ _ _ => trivial) hm) 0x100000000 0x100001000
    0xFFFFF80000000000 hA hB (by decide)
  rw [hsame, hnone] at hsome
  simp at hsome

end Kernemul.X86
