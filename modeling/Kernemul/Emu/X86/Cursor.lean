import Kernemul.Emu.X86.Translate

/-!
# Fresh ranges

`alloc` and `map_phys` take their range from a cursor of the space, one for each half. The kernel half of
the tables is shared but the kernel cursors are not, so a range is fresh as long as no other space that has
the same page tables there has moved its cursor past it, and no image was mapped into it (`FreshOk`).
-/

namespace Kernemul.X86

/-! ## Ranges handed out and mapped -/

def kernelBase : Nat := 0xFFFFF80000000000
def userBase : Nat := 0x10000

structure Image where
  root : Nat
  start : Nat
  n : Nat

def Image.Covers (i : Image) (v : Nat) : Prop := ∃ k < i.n, vpn (pageOf i.start k) = vpn v

def Mmu.images (m : Mmu) (call : Call) (images : List Image) : List Image :=
  match m.job call with
  | none => images
  | some (m₀, j) =>
    if call.fromCursor.isSome then images else ⟨j.root, j.start, (j.run m₀).2⟩ :: images

def stepImages (s : Mmu × List Image) (call : Call) : Option (Mmu × List Image) :=
  (step s.1 call).map fun m' => (m', s.1.images call s.2)

def Mmu.Unmapped (m : Mmu) (root start n : Nat) : Prop :=
  ∀ k < n, m.translateVirt root (pageOf start k) = none

def AddrSpace.InHalf (s : AddrSpace) (prot : MemProt) (aligned : Nat) : Prop :=
  if prot.supervisor then s.kernelNext + aligned < 2 ^ 64 else s.userNext + aligned ≤ 2 ^ 47

/-- The range of a call is free: no image was mapped into it, and no other space with the same page tables
has its kernel cursor past it. -/
def RangeFree (s : Mmu × List Image) (root va n : Nat) : Prop :=
  ∀ k < n, (∀ i ∈ s.2, s.1.Shares root i.root (pageOf va k) → ¬ i.Covers (pageOf va k)) ∧
    ∀ T t, T ≠ root → s.1.spaces T = some t → s.1.Shares root T (pageOf va k) →
      t.kernelNext ≤ pageOf va k

def HalfOk (s : Mmu × List Image) (call : Call) : Prop :=
  ∀ root size prot sp, call.fromCursor = some (root, size, prot) → s.1.spaces root = some sp →
    sp.InHalf prot (sizeAlign size)

def FreshOk (s : Mmu × List Image) (call : Call) : Prop :=
  HalfOk s call ∧ ∀ root size prot sp, call.fromCursor = some (root, size, prot) →
    s.1.spaces root = some sp → RangeFree s root (sp.cursor prot) (pages (sizeAlign size))

/-! ## What is mapped is accounted for -/

def Canonical (v : Nat) : Prop := v < 2 ^ 47 ∨ 2 ^ 64 - 2 ^ 47 ≤ v ∧ v < 2 ^ 64

def AddrSpace.HandedOut (s : AddrSpace) (v : Nat) : Prop :=
  kernelBase ≤ v ∧ v < s.kernelNext ∨ userBase ≤ v ∧ v < s.userNext

def Accounts (s : Mmu × List Image) (T v : Nat) : Prop :=
  (∃ i ∈ s.2, i.root = T ∧ i.Covers v) ∨ ∃ t, s.1.spaces T = some t ∧ t.HandedOut v

/-- What is mapped in a space is accounted for by a space with the same page table. -/
def Accounted (m : Mmu) (C : Nat → Nat → Prop) : Prop :=
  ∀ S v, (m.spaces S).isSome → Canonical v → IsPage v → m.translateVirt S v ≠ none →
    ∃ T, (m.spaces T).isSome ∧ m.Shares S T v ∧ C T v

section Accounted
variable {m m' : Mmu} {C C' : Nat → Nat → Prop} (h : Accounted m C) (hinv : TreeInv m)
include h

theorem Accounted.mono (hC : ∀ T v, (m.spaces T).isSome → Canonical v → IsPage v → C T v → C' T v) :
    Accounted m C' := by
  intro S v hS hv hp ht
  obtain ⟨T, hT, hs, hc⟩ := h S v hS hv hp ht
  exact ⟨T, hT, hs, hC T v hT hv hp hc⟩

include hinv

theorem Accounted.keep (hkept : Kept m m')
    (hsame : ∀ r va, m.level r = 4 → m'.translateVirt r va ≠ none → m.translateVirt r va ≠ none) :
    Accounted m' C := by
  intro S v hS hv hp ht
  rw [hkept.live] at hS
  have h4 := hinv.roots S hS
  obtain ⟨T, hT, hs, hc⟩ := h S v hS hv hp (hsame S v h4 ht)
  exact ⟨T, by rw [hkept.live]; exact hT, hkept.shares h4 (hinv.roots T hT) hs, hc⟩

/-- A page that is written is accounted for by the space it is written through. -/
theorem Accounted.write {root va : Nat} {e : PtEntry} (hw : Wrote m m' root va e)
    (hroot : (m.spaces root).isSome)
    (hC : ∀ v, Canonical v → IsPage v → vpn v = vpn va → C root v) : Accounted m' C := by
  intro S v hS hv hp ht
  have hlive := hw.kept.live
  rw [hlive] at hS
  have h4 := hinv.roots S hS
  by_cases hhit : m'.Shares S root va ∧ vpn v = vpn va
  · refine ⟨root, by rw [hlive]; exact hroot, ?_, hC v hv hp hhit.2⟩
    exact (shares_congr m' S root hhit.2).mpr hhit.1
  · rw [translateVirt_eq, hw.miss S v h4 hhit, ← translateVirt_eq] at ht
    obtain ⟨T, hT, hs, hc⟩ := h S v hS hv hp ht
    exact ⟨T, by rw [hlive]; exact hT, hw.kept.shares h4 (hinv.roots T hT) hs, hc⟩

end Accounted

/-! ## Cursors -/

def Mmu.cursors (m : Mmu) (root : Nat) : Option (Nat × Nat) :=
  (m.spaces root).map fun t => (t.kernelNext, t.userNext)

theorem setPage_cursors (m : Mmu) (root v pt : Nat) (e : PtEntry) (shadow : Option Nat) (r : Nat) :
    (m.setPage root v pt e shadow).cursors r = m.cursors r := by
  show (if r = root then (m.spaces r).map _ else m.spaces r).map _ = (m.spaces r).map _
  split
  · rw [Option.map_map]
    rfl
  · rfl

variable {m : Mmu} {root : Nat}

theorem mapPage_cursors (h : TreeInv m) (va pa : Nat) (prot : MemProt)
    (hroot : m.level root = 4) (r : Nat) : (m.mapPage root va pa prot).1.cursors r = m.cursors r := by
  obtain ⟨m₁, _, hp, -, ⟨-, he⟩ | ⟨pt, -, he⟩⟩ := mapPage_cases h va pa prot hroot
  · rw [he]
    unfold Mmu.cursors
    rw [hp.grow.spaces]
  · rw [he]
    simp only
    rw [setPage_cursors]
    unfold Mmu.cursors
    rw [hp.grow.spaces]

theorem unmapPage_cursors (m : Mmu) (root va r : Nat) : (m.unmapPage root va).cursors r = m.cursors r := by
  rw [unmapPage_eq]
  cases m.pageTable root (pageAlign va) with
  | none =>
    show (if r = root then (m.spaces r).map _ else m.spaces r).map _ = (m.spaces r).map _
    split
    · rw [Option.map_map]
      rfl
    · rfl
  | some pt => exact setPage_cursors m root _ pt {} none r

theorem protPage_cursors (m : Mmu) (root v : Nat) (prot : MemProt) (r : Nat) :
    (m.protPage root v prot).cursors r = m.cursors r := by
  rw [protPage_eq]
  cases m.pageTable root v with
  | none => rfl
  | some pt => rfl

/-! ## Loops -/

/-- A range of a space, up to page `k`. -/
def inRange (root start k T v : Nat) : Prop := T = root ∧ ∃ i < k, vpn (pageOf start i) = vpn v

theorem mapRun_accounted {m₀ : Mmu} (h₀ : TreeInv m₀) {C : Nat → Nat → Prop} (hacc : Accounted m₀ C)
    {j : MapJob} (hlive : (m₀.spaces j.root).isSome) :
    Accounted (j.run m₀).1 (fun T v => C T v ∨ inRange j.root j.start (j.run m₀).2 T v) ∧
      Kept m₀ (j.run m₀).1 ∧ (∀ r, (j.run m₀).1.cursors r = m₀.cursors r) ∧ (j.run m₀).2 ≤ j.n := by
  have hroot := h₀.roots j.root hlive
  have hloop := mapLoop_induct
    (fun k m => Accounted m (fun T v => C T v ∨ inRange j.root j.start k T v) ∧ Kept m₀ m ∧
      ∀ r, m.cursors r = m₀.cursors r) (fun _ => True) j.root j.start j.pa j.prot j.n ?_ ?_ j.n 0 m₀
    (Nat.zero_add _) ⟨hacc.mono fun _ _ _ _ _ hc => Or.inl hc, Kept.refl h₀, fun _ => rfl⟩
  · obtain ⟨⟨h1, h2, h3⟩, h4⟩ := hloop
    exact ⟨h1, h2, h3, h4.elim Nat.le_of_eq fun hlt => hlt.1.le⟩
  · rintro k m m' hk ⟨hk', hkept, hcur⟩ hm
    have hr := hkept.level_root hroot
    have hw := mapPage_wrote hkept.tree hr hm
    refine ⟨?_, hkept.trans hw.kept, fun r => ?_⟩
    · refine (hk'.mono ?_).write hkept.tree hw (by rw [hkept.live]; exact hlive) ?_
      · intro T v _ _ _ hc
        refine hc.imp id fun ⟨hT, i, hi, hv⟩ => ⟨hT, i, by omega, hv⟩
      · intro v _ _ hv
        exact Or.inr ⟨rfl, k, by omega, hv.symm⟩
    · have hc := mapPage_cursors hkept.tree (pageOf j.start k) (pageOf j.pa k) j.prot hr r
      rw [hm] at hc
      exact hc.trans (hcur r)
  · rintro k m m' hk ⟨hk', hkept, hcur⟩ hm
    have hr := hkept.level_root hroot
    obtain ⟨hg, htree, -⟩ := mapPage_grow hkept.tree hr hm
    refine ⟨⟨hk'.keep hkept.tree (hg.kept hkept.tree htree) fun r va h4 ht => ?_,
      hkept.trans (hg.kept hkept.tree htree), fun r => ?_⟩, trivial⟩
    · rw [translateVirt_eq, hg.leaf_eq hkept.tree h4 htree, ← translateVirt_eq] at ht
      exact ht
    · rw [← hcur r]
      unfold Mmu.cursors
      rw [hg.spaces]

theorem unmapVirt_accounted {m₀ : Mmu} (h₀ : TreeInv m₀) {C : Nat → Nat → Prop} (hacc : Accounted m₀ C)
    (va size : Nat) (hlive : (m₀.spaces root).isSome) :
    Accounted (m₀.unmapVirt root va size) C ∧ Kept m₀ (m₀.unmapVirt root va size) ∧
      ∀ r, (m₀.unmapVirt root va size).cursors r = m₀.cursors r := by
  refine unmapLoop_induct (fun _ m => Accounted m C ∧ Kept m₀ m ∧ ∀ r, m.cursors r = m₀.cursors r) ?_ _ 0
    m₀ (Nat.zero_add _) ⟨hacc, Kept.refl h₀, fun _ => rfl⟩
  rintro k m hk ⟨hk', hkept, hcur⟩
  have hw := unmapPage_wrote hkept.tree (pageOf (pageAlign va) k)
    (hkept.level_root (h₀.roots root hlive))
  refine ⟨hk'.keep hkept.tree hw.kept fun r v h4 ht => ?_, hkept.trans hw.kept, fun r => ?_⟩
  · rw [translateVirt_eq] at ht ⊢
    by_cases hhit : (m.unmapPage root (pageOf (pageAlign va) k)).Shares r root (pageOf (pageAlign va) k) ∧
        vpn v = vpn (pageOf (pageAlign va) k)
    · rw [hw.hit r v h4 hhit.1 hhit.2] at ht
      exact absurd rfl ht
    · rw [hw.miss r v h4 hhit] at ht
      exact ht
  · rw [unmapPage_cursors, hcur r]

theorem protVirt_accounted {m₀ : Mmu} (h₀ : TreeInv m₀) {C : Nat → Nat → Prop} (hacc : Accounted m₀ C)
    (va size : Nat) (prot : MemProt) (hlive : (m₀.spaces root).isSome) :
    Accounted (m₀.protVirt root va size prot) C ∧ Kept m₀ (m₀.protVirt root va size prot) ∧
      ∀ r, (m₀.protVirt root va size prot).cursors r = m₀.cursors r := by
  refine protLoop_induct (fun _ m => Accounted m C ∧ Kept m₀ m ∧ ∀ r, m.cursors r = m₀.cursors r) ?_ _ 0
    m₀ (Nat.zero_add _) ⟨hacc, Kept.refl h₀, fun _ => rfl⟩
  rintro k m hk ⟨hk', hkept, hcur⟩
  have hr := hkept.level_root (h₀.roots root hlive)
  have hw := protPage_wrote hkept.tree (pageOf (pageAlign va) k) prot hr
  refine ⟨hk'.keep hkept.tree hw.kept fun r v h4 ht => ?_, hkept.trans hw.kept, fun r => ?_⟩
  · rw [translateVirt_eq] at ht ⊢
    rcases protPage_leaf hkept.tree (pageOf (pageAlign va) k) prot hr h4 v with he | he
    · rw [he] at ht
      exact ht
    · rw [he, reprotLeaf_target] at ht
      exact ht
  · rw [protPage_cursors, hcur r]

/-! ## Runs -/

structure AddrSpace.CursorsOk (t : AddrSpace) : Prop where
  kernel : kernelBase ≤ t.kernelNext ∧ t.kernelNext < 2 ^ 64 ∧ IsPage t.kernelNext
  user : userBase ≤ t.userNext ∧ t.userNext ≤ 2 ^ 47 ∧ IsPage t.userNext

structure FreshInv (s : Mmu × List Image) : Prop where
  tree : TreeInv s.1
  cursors : ∀ r t, s.1.spaces r = some t → t.CursorsOk
  accounted : Accounted s.1 (Accounts s)

theorem eq_of_vpn {v v' : Nat} (hv : Canonical v) (hv' : Canonical v') (hp : IsPage v) (hp' : IsPage v')
    (h : vpn v = vpn v') : v = v' := by
  unfold Canonical IsPage vpn pageSize at *
  omega

variable {t : AddrSpace} {prot : MemProt}

theorem AddrSpace.advance_ok (h : t.CursorsOk) {size : Nat}
    (hhalf : t.InHalf prot (sizeAlign size)) : (t.advance prot (sizeAlign size)).CursorsOk ∧
      t.kernelNext ≤ (t.advance prot (sizeAlign size)).kernelNext ∧
      t.userNext ≤ (t.advance prot (sizeAlign size)).userNext ∧
      (t.advance prot (sizeAlign size)).cursor prot = t.cursor prot + sizeAlign size := by
  have hpage := isPage_sizeAlign size
  unfold AddrSpace.InHalf at hhalf
  unfold AddrSpace.advance AddrSpace.cursor
  by_cases hs : prot.supervisor = true
  · rw [if_pos hs] at *
    simp only [hs, if_true]
    rw [wrap_of_lt hhalf]
    exact ⟨⟨⟨h.kernel.1.trans (Nat.le_add_right _ _), hhalf, h.kernel.2.2.add hpage⟩, h.user⟩,
      Nat.le_add_right _ _, le_rfl, rfl⟩
  · rw [if_neg hs] at *
    simp only [hs]
    rw [wrap_of_lt (by omega)]
    exact ⟨⟨h.kernel, h.user.1.trans (Nat.le_add_right _ _), hhalf, h.user.2.2.add hpage⟩, le_rfl,
      Nat.le_add_right _ _, rfl⟩

variable {s : Mmu × List Image} {call : Call}

/-- Moving a cursor keeps the cursors in their halves and takes nothing back. -/
theorem movedSpaces_spec (h : FreshInv s) (hok : HalfOk s call) :
    (∀ r t, s.1.movedSpaces call r = some t → t.CursorsOk) ∧
      ∀ T v t, s.1.spaces T = some t → t.HandedOut v →
        ∃ t', s.1.movedSpaces call T = some t' ∧ t'.HandedOut v := by
  unfold Mmu.movedSpaces
  cases hc : call.fromCursor with
  | none => exact ⟨h.cursors, fun T v t ht hv => ⟨t, ht, hv⟩⟩
  | some r =>
    obtain ⟨root, size, prot⟩ := r
    have hmoved : ∀ r, (s.1.moved root size prot).spaces r =
        if r = root then (s.1.spaces r).map fun t => t.advance prot (sizeAlign size) else s.1.spaces r :=
      fun _ => rfl
    refine ⟨fun r t ht => ?_, fun T v t ht hv => ?_⟩
    · simp only at ht
      rw [hmoved] at ht
      split at ht
      · rename_i he
        obtain ⟨t₀, ht₀, rfl⟩ := Option.map_eq_some_iff.mp ht
        rw [he] at ht₀
        exact (AddrSpace.advance_ok (h.cursors root t₀ ht₀) (hok root size prot t₀ hc ht₀)).1
      · exact h.cursors r t ht
    · simp only
      rw [hmoved]
      by_cases he : T = root
      · rw [if_pos he, ht]
        refine ⟨_, rfl, ?_⟩
        rw [he] at ht
        obtain ⟨-, hk, hu, -⟩ := AddrSpace.advance_ok (h.cursors root t ht) (hok root size prot t hc ht)
        show (t.advance prot (sizeAlign size)).HandedOut v
        unfold AddrSpace.HandedOut at *
        omega
      · rw [if_neg he]
        exact ⟨t, ht, hv⟩

theorem init_freshInv (format : EntryFormat) : FreshInv (Mmu.init format, []) :=
  ⟨init_treeInv format, nofun, nofun⟩

theorem handedOut_of_cursors {m' : Mmu} (hcur : ∀ r, m'.cursors r = m.cursors r) {T v : Nat}
    (ht : m.spaces T = some t) (hv : t.HandedOut v) :
    ∃ t', m'.spaces T = some t' ∧ t'.HandedOut v := by
  have hc := hcur T
  unfold Mmu.cursors at hc
  rw [ht] at hc
  obtain ⟨t', ht', he⟩ := Option.map_eq_some_iff.mp hc
  obtain ⟨hk, hu⟩ := Prod.mk.inj he
  refine ⟨t', ht', ?_⟩
  unfold AddrSpace.HandedOut at *
  rw [hk, hu]
  exact hv

theorem cursorsOk_of_cursors {m' : Mmu} (hcur : ∀ r, m'.cursors r = m.cursors r)
    (hok : ∀ r t, m.spaces r = some t → t.CursorsOk) (r : Nat) (t : AddrSpace)
    (ht : m'.spaces r = some t) : t.CursorsOk := by
  have hc := hcur r
  unfold Mmu.cursors at hc
  rw [ht] at hc
  obtain ⟨t', ht', he⟩ := Option.map_eq_some_iff.mp hc.symm
  obtain ⟨hk, hu⟩ := Prod.mk.inj he
  have h := hok r t' ht'
  exact ⟨by rw [← hk]; exact h.kernel, by rw [← hu]; exact h.user⟩

theorem FreshInv.keep {m m' : Mmu} {I : List Image} (h : FreshInv (m, I)) (hkept : Kept m m')
    (hcur : ∀ r, m'.cursors r = m.cursors r) (hacc : Accounted m' (Accounts (m, I))) :
    FreshInv (m', I) := by
  refine ⟨hkept.tree, cursorsOk_of_cursors hcur h.cursors, hacc.mono fun T v _ _ _ hc => ?_⟩
  rcases hc with himg | ⟨t, ht, hv⟩
  · exact Or.inl himg
  · exact Or.inr (handedOut_of_cursors hcur ht hv)

theorem FreshInv.prelude {m' : Mmu} {I : List Image} (h : FreshInv (m, I))
    (hok : HalfOk (m, I) call) (hp : Prelude m m') (hs : m'.spaces = m.movedSpaces call) :
    FreshInv (m', I) := by
  obtain ⟨hcur, hout⟩ := movedSpaces_spec h hok
  refine ⟨hp.treeInv h.tree, fun r t ht => hcur r t (by rw [← hs]; exact ht), ?_⟩
  refine (h.accounted.keep h.tree (hp.kept h.tree) fun r va _ ht => ?_).mono fun T v _ _ _ hc => ?_
  · rw [translateVirt_eq, hp.leaf, ← translateVirt_eq] at ht
    exact ht
  · rcases hc with himg | ⟨t, ht, hv⟩
    · exact Or.inl himg
    · obtain ⟨t', ht', hv'⟩ := hout T v t ht hv
      exact Or.inr ⟨t', by rw [hs]; exact ht', hv'⟩

theorem pageTable_of_translate {va : Nat} (h : m.translateVirt root va ≠ none) :
    ∃ pt, m.pageTable root va = some pt := by
  unfold Mmu.translateVirt at h
  cases hpt : m.pageTable root va with
  | none =>
    rw [hpt] at h
    exact absurd rfl h
  | some pt => exact ⟨pt, rfl⟩

theorem FreshInv.create {m' : Mmu} {I : List Image} (h : FreshInv (m, I))
    (hc : Created m root m') : FreshInv (m', I) := by
  have htree : TreeInv m := h.tree
  have hold : ∀ {r}, (m.spaces r).isSome → r ≠ root := fun {r} hr he => by
    have h4 := htree.roots r hr
    rw [he, hc.base.2] at h4
    omega
  have hlive : ∀ {r}, (m.spaces r).isSome → (m'.spaces r).isSome := fun {r} hr => by
    rw [hc.spaces, if_neg (hold hr)]
    exact hr
  have hshares : ∀ {S T v}, (m.spaces S).isSome → (m.spaces T).isSome → m.Shares S T v →
      m'.Shares S T v := fun {S T v} hS hT hs => by
    unfold Mmu.Shares at *
    rw [hc.pageTable htree (htree.roots S hS), hc.pageTable htree (htree.roots T hT)]
    exact hs
  have haccounts : ∀ {T v}, (m.spaces T).isSome → Accounts (m, I) T v → Accounts (m', I) T v :=
    fun {T v} hT ha => by
      rcases ha with himg | ⟨t, ht, hv⟩
      · exact Or.inl himg
      · refine Or.inr ⟨t, ?_, hv⟩
        show m'.spaces T = some t
        rw [hc.spaces, if_neg (hold hT)]
        exact ht
  refine ⟨hc.tree, fun r t ht => ?_, fun S v hS hv hp ht => ?_⟩
  · rw [show (m', I).1.spaces r = _ from hc.spaces r] at ht
    split at ht
    · cases ht
      exact ⟨⟨le_rfl, by decide, by decide⟩, le_rfl, by decide, by decide⟩
    · exact h.cursors r t ht
  · simp only at *
    by_cases he : S = root
    · rw [he] at ht ⊢
      rw [translateVirt_eq] at ht
      by_cases hk : m.kernelPml4Pa = 0
      · rw [hc.empty_first v hk] at ht
        exact absurd rfl ht
      by_cases hhalf : pml4Index v < 256
      · rw [hc.leaf_new hhalf] at ht
        exact absurd rfl ht
      have hnew := hc.pageTable_new htree (by omega : 256 ≤ pml4Index v) hk
      have hfirst := htree.kernel hk
      have hleaf : m'.leaf root v = m.leaf m.kernelPml4Pa v := by
        rw [← hc.leaf htree (htree.kernel_level hk)]
        unfold Mmu.leaf
        rw [hnew]
      rw [hleaf, ← translateVirt_eq] at ht
      obtain ⟨T, hT, hs, ha⟩ := h.accounted m.kernelPml4Pa v hfirst hv hp ht
      refine ⟨T, hlive hT, ?_, haccounts hT ha⟩
      obtain ⟨pt, hpt⟩ := pageTable_of_translate ht
      rw [← hc.pageTable htree (htree.kernel_level hk)] at hpt
      rcases hshares hfirst hT hs with rfl | ⟨pt', hpt', hT'⟩
      · exact Or.inr ⟨pt, hnew.trans hpt, hpt⟩
      · exact Or.inr ⟨pt', hnew.trans hpt', hT'⟩
    · have hS' : (m.spaces S).isSome := by
        rw [hc.spaces, if_neg he] at hS
        exact hS
      rw [translateVirt_eq, hc.leaf htree (htree.roots S hS'), ← translateVirt_eq] at ht
      obtain ⟨T, hT, hs, ha⟩ := h.accounted S v hS' hv hp ht
      exact ⟨T, hlive hT, hshares hS' hT hs, haccounts hT ha⟩

theorem handedOut_of_range (h : t.CursorsOk) {size k v : Nat}
    (hhalf : t.InHalf prot (sizeAlign size)) (hk : k < pages (sizeAlign size)) (hv : Canonical v)
    (hp : IsPage v) (hvpn : vpn (pageOf (t.cursor prot) k) = vpn v) :
    v = t.cursor prot + k * pageSize ∧ (t.advance prot (sizeAlign size)).HandedOut v := by
  have hle : k * pageSize + pageSize ≤ sizeAlign size := by
    rw [← sizeAlign_idem size, ← pages_mul, ← Nat.succ_mul]
    exact Nat.mul_le_mul_right _ hk
  have hmul : IsPage (k * pageSize) := Nat.mul_mod_left k pageSize
  have hps : 0 < pageSize := by decide
  unfold pageOf at hvpn
  unfold AddrSpace.InHalf at hhalf
  unfold AddrSpace.HandedOut AddrSpace.advance AddrSpace.cursor at *
  obtain ⟨hk1, hk2, hk3⟩ := h.kernel
  obtain ⟨hu1, hu2, hu3⟩ := h.user
  by_cases hs : prot.supervisor = true
  · simp only [hs, if_true] at *
    rw [wrap_of_lt (by omega)] at hvpn
    have hcanon : Canonical (t.kernelNext + k * pageSize) := by
      unfold Canonical kernelBase at *
      omega
    have he := eq_of_vpn hcanon hv (hk3.add hmul) hp hvpn
    rw [wrap_of_lt hhalf]
    exact ⟨he.symm, Or.inl (by omega)⟩
  · simp only [hs, if_false, Bool.false_eq_true] at *
    rw [wrap_of_lt (by omega)] at hvpn
    have hcanon : Canonical (t.userNext + k * pageSize) := by
      unfold Canonical
      omega
    have he := eq_of_vpn hcanon hv (hu3.add hmul) hp hvpn
    rw [wrap_of_lt (by omega)]
    exact ⟨he.symm, Or.inr (by omega)⟩

theorem AddrSpace.CursorsOk.isPage_cursor (h : t.CursorsOk) (prot : MemProt) :
    IsPage (t.cursor prot) := by
  unfold AddrSpace.cursor
  split
  · exact h.kernel.2.2
  · exact h.user.2.2

theorem job_fromCursor {m₀ : Mmu} {j : MapJob} {size : Nat}
    (hj : m.job call = some (m₀, j)) (hfrom : call.fromCursor = some (root, size, prot)) :
    ∃ sp, m.spaces root = some sp ∧ j.root = root ∧ j.start = pageAlign (sp.cursor prot) ∧
      j.n = pages (sizeAlign size) := by
  cases call with
  | alloc root' size' prot' =>
    simp only [Call.fromCursor, Option.some.injEq, Prod.mk.injEq] at hfrom
    obtain ⟨rfl, rfl, rfl⟩ := hfrom
    obtain ⟨sp, hsp, hj⟩ := Option.bind_eq_some_iff.mp hj
    obtain ⟨r, -, he⟩ := Option.map_eq_some_iff.mp hj
    obtain ⟨-, rfl⟩ := Prod.mk.inj he
    exact ⟨sp, hsp, rfl, rfl, rfl⟩
  | mapPhys root' pa size' prot' =>
    simp only [Call.fromCursor, Option.some.injEq, Prod.mk.injEq] at hfrom
    obtain ⟨rfl, rfl, rfl⟩ := hfrom
    obtain ⟨sp, hsp, he⟩ := Option.map_eq_some_iff.mp hj
    obtain ⟨-, rfl⟩ := Prod.mk.inj he
    exact ⟨sp, hsp, rfl, rfl, rfl⟩
  | createAddrSpace => simp [Call.fromCursor] at hfrom
  | allocPhys _ => simp [Call.fromCursor] at hfrom
  | mapVirt _ _ _ _ => simp [Call.fromCursor] at hfrom
  | mapVirtPhys _ _ _ _ _ => simp [Call.fromCursor] at hfrom
  | unmapVirt _ _ _ => simp [Call.fromCursor] at hfrom
  | protVirt _ _ _ _ => simp [Call.fromCursor] at hfrom

theorem step_freshInv {s' : Mmu × List Image} (h : FreshInv s) (hok : HalfOk s call)
    (hstep : stepImages s call = some s') : FreshInv s' := by
  obtain ⟨m, I⟩ := s
  obtain ⟨m', hm, rfl⟩ := Option.map_eq_some_iff.mp hstep
  have htree : TreeInv m := h.tree
  rcases step_did htree.phys hm with ⟨hp, hjob, hs, -, -, -⟩ | ⟨root, rfl, hc⟩ |
    ⟨m₀, j, hj, hlive, rfl⟩ | ⟨root, va, size, rfl, hlive, rfl⟩ | ⟨root, va, size, prot, rfl, hlive, rfl⟩
  · have hI : m.images call I = I := by
      unfold Mmu.images
      rw [hjob]
    simp only [hI]
    exact h.prelude hok hp hs
  · exact h.create (createAddrSpace_spec htree hc)
  · obtain ⟨hp, hroot, hs, -⟩ := job_spec htree.phys hj
    have h₀ := h.prelude hok hp hs
    have hlive₀ : (m₀.spaces j.root).isSome := by
      rw [hp.live]
      exact hlive
    obtain ⟨hacc, hkept, hcur, hdone⟩ := mapRun_accounted h₀.tree h₀.accounted hlive₀
    refine ⟨hkept.tree, cursorsOk_of_cursors hcur h₀.cursors, hacc.mono fun T v hT hv hpv hc => ?_⟩
    rcases hc with (⟨i, hi, hc⟩ | ⟨t, ht, hv'⟩) | ⟨rfl, k, hk, hvpn⟩
    · refine Or.inl ⟨i, ?_, hc⟩
      show i ∈ m.images call I
      unfold Mmu.images
      rw [hj]
      simp only
      split
      · exact hi
      · exact List.mem_cons_of_mem _ hi
    · exact Or.inr (handedOut_of_cursors hcur ht hv')
    · cases hfrom : call.fromCursor with
      | none =>
        refine Or.inl ⟨⟨j.root, j.start, (j.run m₀).2⟩, ?_, rfl, k, hk, hvpn⟩
        show _ ∈ m.images call I
        unfold Mmu.images
        rw [hj, hfrom]
        exact List.mem_cons_self
      | some r =>
        obtain ⟨root, size, prot⟩ := r
        obtain ⟨sp, hsp, hr, hstart, hn⟩ := job_fromCursor hj hfrom
        have hcurs := h.cursors root sp hsp
        rw [hstart, pageAlign_of_isPage (hcurs.isPage_cursor prot)] at hvpn
        obtain ⟨-, hout⟩ := handedOut_of_range hcurs (hok root size prot sp hfrom hsp)
          (by rw [hn] at hdone; omega) hv hpv hvpn
        refine Or.inr (handedOut_of_cursors hcur ?_ hout)
        rw [hs, hr]
        unfold Mmu.movedSpaces
        rw [hfrom]
        show (if root = root then (m.spaces root).map _ else _) = _
        rw [if_pos rfl, show m.spaces root = some sp from hsp]
        rfl
  · obtain ⟨hacc, hkept, hcur⟩ := unmapVirt_accounted htree h.accounted va size hlive
    exact h.keep hkept hcur hacc
  · obtain ⟨hacc, hkept, hcur⟩ := protVirt_accounted htree h.accounted va size prot hlive
    exact h.keep hkept hcur hacc

theorem FreshInv.unmapped {I : List Image} (h : FreshInv (m, I)) {size : Nat}
    {sp : AddrSpace} (hsp : m.spaces root = some sp) (hhalf : sp.InHalf prot (sizeAlign size))
    (hfree : RangeFree (m, I) root (sp.cursor prot) (pages (sizeAlign size))) :
    m.Unmapped root (sp.cursor prot) (pages (sizeAlign size)) := by
  intro k hk
  by_contra ht
  have hlive : (m.spaces root).isSome := by
    rw [hsp]
    rfl
  have hcurs := h.cursors root sp hsp
  obtain ⟨hk1, hk2, hk3⟩ := hcurs.kernel
  obtain ⟨hu1, hu2, hu3⟩ := hcurs.user
  have hle : k * pageSize + pageSize ≤ sizeAlign size := by
    rw [← sizeAlign_idem size, ← pages_mul, ← Nat.succ_mul]
    exact Nat.mul_le_mul_right _ hk
  have hps : 0 < pageSize := by decide
  have hpage : pageOf (sp.cursor prot) k = sp.cursor prot + k * pageSize ∧
      Canonical (sp.cursor prot + k * pageSize) ∧
      (kernelBase ≤ sp.cursor prot + k * pageSize ∧ sp.cursor prot = sp.kernelNext ∨
        sp.cursor prot + k * pageSize < 2 ^ 47 ∧ sp.cursor prot = sp.userNext) := by
    unfold AddrSpace.InHalf at hhalf
    unfold AddrSpace.cursor pageOf at *
    by_cases hs : prot.supervisor = true
    · simp only [hs, if_true] at *
      rw [wrap_of_lt (by omega)]
      refine ⟨rfl, ?_, Or.inl ⟨by omega, trivial⟩⟩
      unfold Canonical kernelBase at *
      omega
    · simp only [hs, if_false, Bool.false_eq_true] at *
      rw [wrap_of_lt (by omega)]
      exact ⟨rfl, Or.inl (by omega), Or.inr ⟨by omega, trivial⟩⟩
  obtain ⟨hpage, hcanon, hhalves⟩ := hpage
  have hisPage : IsPage (pageOf (sp.cursor prot) k) := by
    rw [hpage]
    exact (hcurs.isPage_cursor prot).add (Nat.mul_mod_left k pageSize)
  obtain ⟨himg, hother⟩ := hfree k hk
  rw [← hpage] at hcanon hhalves
  obtain ⟨T, hT, hs, ⟨i, hi, rfl, hcov⟩ | ⟨t, hst, hout⟩⟩ := h.accounted root _ hlive hcanon hisPage ht
  · exact himg i hi hs hcov
  · have htc := h.cursors T t hst
    obtain ⟨htk1, htk2, htk3⟩ := htc.kernel
    obtain ⟨htu1, htu2, htu3⟩ := htc.user
    have hle0 : sp.cursor prot ≤ pageOf (sp.cursor prot) k := by
      rw [hpage]
      exact Nat.le_add_right _ _
    by_cases he : T = root
    · rw [he] at hst
      obtain rfl : sp = t := Option.some.inj (hsp.symm.trans hst)
      unfold AddrSpace.HandedOut kernelBase userBase at *
      omega
    · rcases h.tree.shares (h.tree.roots root hlive) (h.tree.roots T hT) hs with hr | h256
      · exact he hr.symm
      · have hlt := hother T t he hst hs
        have hkern : ¬ pageOf (sp.cursor prot) k < 2 ^ 47 := by
          intro hlt
          unfold pml4Index at h256
          omega
        unfold AddrSpace.HandedOut at hout
        omega

/-- **Ranges are fresh.** In every run whose totals stay inside their halves and whose ranges are free of
images and of the cursors of other spaces with the same page tables, no page of the range that `alloc` or
`map_phys` takes is mapped before. -/
theorem ranges_fresh {format : EntryFormat} {calls : List Call} {m : Mmu} {I : List Image}
    (hrun : Run.Steps stepImages FreshOk (Mmu.init format, []) calls (m, I)) {call : Call}
    (hok : FreshOk (m, I) call) {root size : Nat} {prot : MemProt} {sp : AddrSpace}
    (hcall : call.fromCursor = some (root, size, prot)) (hsp : m.spaces root = some sp) :
    m.Unmapped root (sp.cursor prot) (pages (sizeAlign size)) := by
  have hinv : FreshInv (m, I) := hrun.invariant
    (fun _ _ _ h hok hstep => step_freshInv h hok.1 hstep) (init_freshInv format)
  exact hinv.unmapped hsp (hok.1 root size prot sp hcall hsp) (hok.2 root size prot sp hcall hsp)

theorem freshOk_of_none (h : call.fromCursor = none) :
    FreshOk s call := by
  refine ⟨fun root size prot sp hc => ?_, fun root size prot sp hc => ?_⟩
  · rw [h] at hc
    simp at hc
  · rw [h] at hc
    simp at hc

instance (i : Image) (v : Nat) : Decidable (i.Covers v) :=
  inferInstanceAs (Decidable (∃ k < i.n, vpn (pageOf i.start k) = vpn v))

def userRangeFree (s : Mmu × List Image) (call : Call) : Bool :=
  match call.fromCursor with
  | none => true
  | some (root, size, prot) =>
    match s.1.spaces root with
    | none => true
    | some sp => !prot.supervisor && decide (sp.userNext + sizeAlign size ≤ 2 ^ 47) &&
        decide (∀ k < pages (sizeAlign size), pml4Index (pageOf sp.userNext k) < 256 ∧
          ∀ i ∈ s.2, ¬ i.Covers (pageOf sp.userNext k))

/-- User halves are not shared, so the cursors of other spaces do not matter there. -/
theorem freshOk_of_userRangeFree (h : FreshInv s) (hc : userRangeFree s call = true) : FreshOk s call := by
  unfold userRangeFree at hc
  have hall : ∀ root size prot sp, call.fromCursor = some (root, size, prot) →
      s.1.spaces root = some sp → sp.InHalf prot (sizeAlign size) ∧
        RangeFree s root (sp.cursor prot) (pages (sizeAlign size)) := by
    intro root size prot sp hcall hsp
    rw [hcall] at hc
    simp only [hsp, Bool.and_eq_true, Bool.not_eq_true', decide_eq_true_eq] at hc
    obtain ⟨⟨hs, hhalf⟩, hfree⟩ := hc
    have hcursor : sp.cursor prot = sp.userNext := by
      unfold AddrSpace.cursor
      rw [hs]
      rfl
    refine ⟨?_, fun k hk => ?_⟩
    · unfold AddrSpace.InHalf
      rw [hs]
      exact hhalf
    · rw [hcursor]
      obtain ⟨hhigh, himg⟩ := hfree k hk
      refine ⟨fun i hi _ => himg i hi, fun T t hne hT hshare => ?_⟩
      have hroot := h.tree.roots root (by rw [hsp]; rfl)
      rcases h.tree.shares hroot (h.tree.roots T (by rw [hT]; rfl)) hshare with he | h256
      · exact absurd he.symm hne
      · omega
  exact ⟨fun root size prot sp hc hsp => (hall root size prot sp hc hsp).1,
    fun root size prot sp hc hsp => (hall root size prot sp hc hsp).2⟩

def imageAndRange : List Call :=
  [.createAddrSpace, .mapVirt 0x100000000 0x14000 0x1000 protRx, .alloc 0x100000000 0x2000 protRw]

theorem imageAndRange_fresh : ∃ m I sp, Run.Steps stepImages FreshOk (Mmu.init pfn36, []) imageAndRange
      (m, I) ∧ m.spaces 0x100000000 = some sp ∧ sp.cursor protRw = 0x12000 ∧
    m.Unmapped 0x100000000 0x12000 2 := by
  have hexec : ((Run.exec stepImages (fun _ call => call.fromCursor.isNone) (Mmu.init pfn36, [])
      (imageAndRange.take 2)).bind fun s₁ =>
        (stepImages s₁ (.alloc 0x100000000 0x2000 protRw)).map fun s₂ =>
          (userRangeFree s₁ (.alloc 0x100000000 0x2000 protRw),
            userRangeFree s₂ (.alloc 0x100000000 0x1800 protRw),
            (s₂.1.spaces 0x100000000).map fun sp => sp.cursor protRw)) =
      some (true, true, some 0x12000) := by decide +kernel
  obtain ⟨s₁, h₁, hexec⟩ := Option.bind_eq_some_iff.mp hexec
  obtain ⟨s₂, h₂, hval⟩ := Option.map_eq_some_iff.mp hexec
  simp only [Prod.mk.injEq] at hval
  obtain ⟨hfree₁, hfree₂, hcur⟩ := hval
  obtain ⟨sp, hsp, hcur⟩ := Option.map_eq_some_iff.mp hcur
  have hrun₁ : Run.Steps stepImages FreshOk (Mmu.init pfn36, []) (imageAndRange.take 2) s₁ :=
    .of_exec (fun _ _ hn => freshOk_of_none (Option.isNone_iff_eq_none.mp hn)) h₁
  have hinv₁ : FreshInv s₁ := hrun₁.invariant
    (fun _ _ _ h hok hstep => step_freshInv h hok.1 hstep) (init_freshInv pfn36)
  have hok₁ := freshOk_of_userRangeFree hinv₁ hfree₁
  have hinv₂ : FreshInv s₂ := step_freshInv hinv₁ hok₁.1 h₂
  have hrun : Run.Steps stepImages FreshOk (Mmu.init pfn36, []) imageAndRange (s₂.1, s₂.2) :=
    hrun₁.append (.cons hok₁ h₂ (.nil _))
  have hfresh := ranges_fresh hrun (freshOk_of_userRangeFree hinv₂ hfree₂) rfl hsp
  rw [hcur] at hfresh
  exact ⟨s₂.1, s₂.2, sp, hrun, hsp, hcur, hfresh⟩

/-- A kernel range taken through a space that was created after another took one. -/
def secondCursor : List Call :=
  [.createAddrSpace, .alloc 0x100000000 0x1000 { protRw with supervisor := true }, .createAddrSpace]

def halfCheck (s : Mmu × List Image) (call : Call) : Bool :=
  match call.fromCursor with
  | none => true
  | some (root, size, prot) => ((s.1.spaces root).map fun sp =>
      if prot.supervisor then decide (sp.kernelNext + sizeAlign size < 2 ^ 64)
      else decide (sp.userNext + sizeAlign size ≤ 2 ^ 47)).getD true

theorem halfOk_of_check (s : Mmu × List Image) (call : Call) (h : halfCheck s call = true) :
    HalfOk s call := by
  intro root size prot sp hcall hsp
  unfold halfCheck at h
  rw [hcall] at h
  simp only [hsp, Option.map_some, Option.getD_some] at h
  unfold AddrSpace.InHalf
  split at h
  · rename_i hs
    rw [if_pos hs]
    exact of_decide_eq_true h
  · rename_i hs
    rw [if_neg hs]
    exact of_decide_eq_true h

theorem secondCursor_not_fresh : ¬ ∀ format calls m I call root size prot sp,
    Run.Steps stepImages HalfOk (Mmu.init format, []) calls (m, I) → HalfOk (m, I) call →
    call.fromCursor = some (root, size, prot) → m.spaces root = some sp →
    m.Unmapped root (sp.cursor prot) (pages (sizeAlign size)) := by
  intro hall
  have hexec : ((Run.exec stepImages halfCheck (Mmu.init pfn36, []) secondCursor).map fun s =>
      (halfCheck s (.alloc 0x100005000 0x1000 { protRw with supervisor := true }),
        (s.1.spaces 0x100005000).map (fun sp => sp.cursor { protRw with supervisor := true }),
        s.1.translateVirt 0x100005000 0xFFFFF80000000000)) =
      some (true, some 0xFFFFF80000000000, some 0x100001000) := by decide +kernel
  obtain ⟨⟨m, I⟩, hm, hval⟩ := Option.map_eq_some_iff.mp hexec
  simp only [Prod.mk.injEq] at hval
  obtain ⟨hhalf, hcur, hmapped⟩ := hval
  obtain ⟨sp, hsp, hcur⟩ := Option.map_eq_some_iff.mp hcur
  have hfresh := hall pfn36 secondCursor m I
    (.alloc 0x100005000 0x1000 { protRw with supervisor := true }) 0x100005000 0x1000
    { protRw with supervisor := true } sp (.of_exec halfOk_of_check hm) (halfOk_of_check _ _ hhalf) rfl hsp
  have hnone := hfresh 0 (by decide)
  rw [hcur] at hnone
  rw [show pageOf 0xFFFFF80000000000 0 = 0xFFFFF80000000000 by decide, hmapped] at hnone
  simp at hnone

end Kernemul.X86
