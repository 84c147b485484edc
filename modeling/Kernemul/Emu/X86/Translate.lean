import Kernemul.Emu.X86.Calls

/-!
# The walk refines a map from pages to frames

For a space, `translate_virt` is a map from the `2 ^ 36` pages of 48-bit addresses to frames. A call
through a space sets the pages it names there, one after the other, and leaves the others; the user halves
of the other spaces stay as they were. The tables behind it stay a forest (`Forest`).
-/

namespace Kernemul.X86

/-! ## The abstract map -/

abbrev PageMap := Nat → Option Nat

/-- Set `n` pages from `start` on. -/
def setPages (A : PageMap) (start : Nat) (f : Nat → Option Nat) : Nat → PageMap
  | 0 => A
  | n + 1 => Function.update (setPages A start f n) (vpn (pageOf start n)) (f n)

def Mmu.pageMap (m : Mmu) (root : Nat) : PageMap := fun page => m.translateVirt root (page * pageSize)

def Mmu.frame (m : Mmu) (pa : Nat) : Nat := pfnToPa (m.pfn pa)

/-- What a call asks of the map of the space it is made through. Of a call that runs out of guest memory,
the pages mapped until then. -/
def Mmu.requested (m : Mmu) (call : Call) (A : PageMap) : PageMap :=
  match call with
  | .unmapVirt _ va size => setPages A (pageAlign va) (fun _ => none) (pages size)
  | call =>
    match m.job call with
    | none => A
    | some (m₀, j) =>
      setPages A j.start (fun k => some (m.frame (pageOf j.pa k))) (j.run m₀).2

/-- A frame that is no table and will not become one: it was handed out for something else, or it is
outside of guest memory. -/
def Mmu.IsTarget (m : Mmu) (frame : Nat) : Prop :=
  m.level frame = 0 ∧ (frame < m.physNext ∨ physEnd ≤ frame)

instance (m : Mmu) (frame : Nat) : Decidable (m.IsTarget frame) :=
  inferInstanceAs (Decidable (_ ∧ _))

def TargetsOk (m : Mmu) (call : Call) : Prop :=
  ∀ t ∈ call.target, ∀ k < t.2, m.IsTarget (m.frame (pageOf t.1 k))

instance (m : Mmu) (call : Call) : Decidable (TargetsOk m call) :=
  inferInstanceAs (Decidable (∀ t ∈ call.target, _))

/-! ## The forest -/

/-- Every table hangs in one slot, the PML4s in none and kernel-half slots of PML4s apart. A slot of any
level counts, also the leaf entries. -/
structure Forest (m : Mmu) : Prop where
  table : ∀ t, m.level t ≠ 0 → IsPage t ∧ t < m.physNext
  live : ∀ r, (m.spaces r).isSome → m.level r = 4
  hung : ∀ t, m.level t ≠ 0 → m.level t ≠ 4 → ∃ p i, m.level p ≠ 0 ∧ m.child p i = some t
  root : ∀ t, m.level t = 4 → ∀ p i, m.level p ≠ 0 → m.child p i ≠ some t
  unique : ∀ t p i p' i', m.level t ≠ 0 → m.level p ≠ 0 → m.level p' ≠ 0 → m.child p i = some t →
    m.child p' i' = some t →
    p = p' ∧ i = i' ∨ m.level p = 4 ∧ m.level p' = 4 ∧ i = i' ∧ 256 ≤ i

def LeafOk (m : Mmu) : Prop := ∀ t i c, m.level t = 1 → m.child t i = some c → m.IsTarget c

variable {m m' : Mmu}

theorem Kept.isTarget (h : Kept m m') {c : Nat} (hc : m.IsTarget c) : m'.IsTarget c := by
  obtain ⟨h0, hc⟩ := hc
  refine ⟨?_, hc.imp (fun hlt => hlt.trans_le h.phys) id⟩
  by_contra hne
  have hle := h.fresh c h0 hne
  have hlt := (h.tree.table c hne).2.1
  have hend := h.tree.phys.2
  omega

theorem Grow.leafOk (hg : Grow m m') (h : TreeInv m) (h' : TreeInv m') (hok : LeafOk m) :
    LeafOk m' := by
  intro t i c ht hc
  rw [child_def, hg.leaf t i ht] at hc
  by_cases h0 : m.level t = 0
  · rw [h.untouched t i h0] at hc
    simp at hc
  · rw [hg.level t h0] at ht
    exact (hg.kept h h').isTarget (hok t i c ht hc)

theorem Aside.leafOk (ha : Aside m m') (h : TreeInv m) (hok : LeafOk m) : LeafOk m' := by
  intro t i c ht hc
  rw [ha.child] at hc
  rw [ha.level] at ht
  exact (ha.kept h).isTarget (hok t i c ht hc)

theorem writeLeaf_leafOk (hok : LeafOk m) (pt index : Nat) {e : PtEntry}
    (he : ∀ c, e.target = some c → m.IsTarget c) : LeafOk (m.writeEntry pt index e) := by
  intro t i c ht hc
  rw [writeEntry_child] at hc
  split at hc
  · exact he c hc
  · exact hok t i c ht hc

variable {root : Nat}

theorem Created.leafOk (hc : Created m root m') (hok : LeafOk m) :
    LeafOk m' := by
  intro t i c ht htc
  have hne : t ≠ root := by
    intro he
    rw [hc.level, if_pos he] at ht
    simp at ht
  rw [hc.level, if_neg hne] at ht
  rw [child_def, hc.mem, if_neg hne] at htc
  obtain ⟨h0, h1⟩ := hok t i c ht htc
  have hpos : m.physNext < m'.physNext := by
    rw [hc.phys]
    exact Nat.lt_add_of_pos_right (by decide)
  have hend := hc.tree.phys.2
  have hbase := hc.base.1
  refine ⟨?_, h1.imp (fun hlt => hlt.trans hpos) id⟩
  rw [hc.level, if_neg]
  · exact h0
  · omega

/-! ## One page -/

theorem leafEntry_target (m : Mmu) (pa : Nat) (prot : MemProt) :
    (leafEntry m pa prot).target = some (m.frame pa) := rfl

theorem reprotLeaf_target (e : PtEntry) (prot : MemProt) : (reprotLeaf e prot).target = e.target := by
  unfold reprotLeaf
  split
  · rename_i hp
    rw [target_of_present hp]
    rfl
  · rfl

theorem frame_of_format (h : m'.format = m.format) (pa : Nat) : m'.frame pa = m.frame pa := by
  unfold Mmu.frame Mmu.pfn
  rw [h]

theorem mapPage_leafOk (h : TreeInv m) (hok : LeafOk m) {pa : Nat} (va : Nat)
    (prot : MemProt) (hroot : m.level root = 4) (hpa : m.IsTarget (m.frame pa)) :
    LeafOk (m.mapPage root va pa prot).1 := by
  obtain ⟨m₁, r, hp, -, ⟨-, he⟩ | ⟨pt, -, he⟩⟩ := mapPage_cases h va pa prot hroot
  · rw [he]
    exact hp.grow.leafOk h hp.tree hok
  · rw [he]
    have hok₁ := hp.grow.leafOk h hp.tree hok
    have hw : LeafOk (m₁.writeEntry pt (ptIndex (pageAlign va)) (leafEntry m₁ pa prot)) := by
      apply writeLeaf_leafOk hok₁
      intro c hc
      rw [leafEntry_target, frame_of_format hp.grow.format] at hc
      rw [← Option.some.inj hc]
      exact (hp.grow.kept h hp.tree).isTarget hpa
    exact hw

theorem unmapPage_leafOk (hok : LeafOk m) (root va : Nat) :
    LeafOk (m.unmapPage root va) := by
  rw [unmapPage_eq]
  cases m.pageTable root (pageAlign va) with
  | none => exact hok
  | some pt =>
    have hw : LeafOk (m.writeEntry pt (ptIndex (pageAlign va)) {}) := writeLeaf_leafOk hok pt _ nofun
    exact hw

theorem protPage_leafOk (h : TreeInv m) (hok : LeafOk m) (v : Nat) (prot : MemProt)
    (hroot : m.level root = 4) : LeafOk (m.protPage root v prot) := by
  rw [protPage_eq]
  cases hpt : m.pageTable root v with
  | none => exact hok
  | some pt =>
    apply writeLeaf_leafOk hok
    intro c hc
    rw [reprotLeaf_target] at hc
    exact hok pt _ c (h.pageTable_level hroot hpt) hc

/-! ## Loops -/

theorem pageMap_vpn (m : Mmu) (root va : Nat) : m.pageMap root (vpn va) = m.translateVirt root va := by
  have hv : vpn (vpn va * pageSize) = vpn va := by
    unfold vpn pageSize
    omega
  unfold Mmu.pageMap
  rw [translateVirt_eq, translateVirt_eq, leaf_congr m root hv]

/-- After `k` pages of a loop: they are set in the space, and the user halves of the others are as
before. -/
structure PagesSet (m₀ : Mmu) (root start : Nat) (f : Nat → Option Nat) (k : Nat) (m : Mmu) : Prop where
  kept : Kept m₀ m
  own : ∀ va, m.translateVirt root va = setPages (m₀.pageMap root) start f k (vpn va)
  other : ∀ r va, m₀.level r = 4 → r ≠ root → pml4Index va < 256 →
    m.translateVirt r va = m₀.translateVirt r va

section PagesSet
variable {m₀ m m' : Mmu} {root start : Nat} {f : Nat → Option Nat} {k : Nat}

theorem PagesSet.init (h₀ : TreeInv m₀) : PagesSet m₀ root start f 0 m₀ :=
  ⟨Kept.refl h₀, fun va => (pageMap_vpn m₀ root va).symm, fun _ _ _ _ _ => rfl⟩

theorem PagesSet.keep (h : PagesSet m₀ root start f k m) (hroot : m₀.level root = 4) (hkept : Kept m m')
    (hsame : ∀ r va, m.level r = 4 → m'.translateVirt r va = m.translateVirt r va) :
    PagesSet m₀ root start f k m' := by
  refine ⟨h.kept.trans hkept, fun va => ?_, fun r va hr hne hva => ?_⟩
  · rw [hsame root va (h.kept.level_root hroot)]
    exact h.own va
  · rw [hsame r va (h.kept.level_root hr)]
    exact h.other r va hr hne hva

theorem PagesSet.write (h : PagesSet m₀ root start f k m) (hroot : m₀.level root = 4) {e : PtEntry}
    (hw : Wrote m m' root (pageOf start k) e) (he : e.target = f k) :
    PagesSet m₀ root start f (k + 1) m' := by
  refine ⟨h.kept.trans hw.kept, fun va => ?_, fun r va hr hne hva => ?_⟩
  · have hr := h.kept.level_root hroot
    unfold setPages
    by_cases hv : vpn va = vpn (pageOf start k)
    · rw [hv, Function.update_self, translateVirt_eq, hw.hit root va hr (Or.inl rfl) hv, he]
    · rw [Function.update_of_ne hv, ← h.own va, translateVirt_eq, translateVirt_eq,
        hw.miss root va hr fun hs => hv hs.2]
  · have hr' := h.kept.level_root hr
    rw [← h.other r va hr hne hva, translateVirt_eq, translateVirt_eq, hw.miss r va hr']
    rintro ⟨hs, hv⟩
    rcases hw.kept.tree.shares (hw.kept.level_root hr')
      (hw.kept.level_root (h.kept.level_root hroot)) hs with he | h256
    · exact hne he
    · rw [← pml4Index_of_vpn hv] at h256
      omega

end PagesSet

variable {m₀ : Mmu}

/-- The loop over `map_page` sets its pages; it stops early only when guest memory runs out. -/
theorem mapLoop_pages (h₀ : TreeInv m₀) (hok : LeafOk m₀) {j : MapJob} (hroot : m₀.level j.root = 4)
    (hpa : ∀ k < j.n, m₀.IsTarget (m₀.frame (pageOf j.pa k))) :
    PagesSet m₀ j.root j.start (fun k => some (m₀.frame (pageOf j.pa k))) (j.run m₀).2 (j.run m₀).1 ∧
      LeafOk (j.run m₀).1 ∧
      ((j.run m₀).2 = j.n ∨ (j.run m₀).2 < j.n ∧ (j.run m₀).1.allocPhys pageSize = none) := by
  have hloop := mapLoop_induct
    (fun k m => PagesSet m₀ j.root j.start (fun k => some (m₀.frame (pageOf j.pa k))) k m ∧ LeafOk m)
    (fun m => m.allocPhys pageSize = none) j.root j.start j.pa j.prot j.n ?_ ?_ j.n 0 m₀
    (Nat.zero_add _) ⟨PagesSet.init h₀, hok⟩
  · exact ⟨hloop.1.1, hloop.1.2, hloop.2⟩
  · rintro k m m' hk ⟨hset, hleaf⟩ hm
    have hr := hset.kept.level_root hroot
    refine ⟨hset.write hroot (mapPage_wrote hset.kept.tree hr hm) ?_, ?_⟩
    · rw [leafEntry_target, frame_of_format hset.kept.format]
    · have htarget : m.IsTarget (m.frame (pageOf j.pa k)) := by
        rw [frame_of_format hset.kept.format]
        exact hset.kept.isTarget (hpa k hk)
      have hleaf' := mapPage_leafOk hset.kept.tree hleaf (pageOf j.start k) j.prot hr htarget
      rw [hm] at hleaf'
      exact hleaf'
  · rintro k m m' hk ⟨hset, hleaf⟩ hm
    have hr := hset.kept.level_root hroot
    obtain ⟨hg, htree, hnone⟩ := mapPage_grow hset.kept.tree hr hm
    refine ⟨⟨hset.keep hroot (hg.kept hset.kept.tree htree) fun r va hr' => ?_, ?_⟩, hnone⟩
    · rw [translateVirt_eq, translateVirt_eq, hg.leaf_eq hset.kept.tree hr' htree va]
    · exact hg.leafOk hset.kept.tree htree hleaf

theorem unmapVirt_pages (h₀ : TreeInv m₀) (hok : LeafOk m₀) (va size : Nat) (hroot : m₀.level root = 4) :
    PagesSet m₀ root (pageAlign va) (fun _ => none) (pages size) (m₀.unmapVirt root va size) ∧
      LeafOk (m₀.unmapVirt root va size) := by
  apply unmapLoop_induct
    (fun k m => PagesSet m₀ root (pageAlign va) (fun _ => none) k m ∧ LeafOk m) ?_ _ 0 m₀
    (Nat.zero_add _) ⟨PagesSet.init h₀, hok⟩
  rintro k m hk ⟨hset, hleaf⟩
  refine ⟨hset.write hroot (unmapPage_wrote hset.kept.tree _ (hset.kept.level_root hroot)) rfl, ?_⟩
  exact unmapPage_leafOk hleaf root _

theorem protVirt_pages (h₀ : TreeInv m₀) (hok : LeafOk m₀) (va size : Nat)
    (prot : MemProt) (hroot : m₀.level root = 4) :
    PagesSet m₀ root (pageAlign va) (fun _ => none) 0 (m₀.protVirt root va size prot) ∧
      LeafOk (m₀.protVirt root va size prot) := by
  apply protLoop_induct
    (fun _ m => PagesSet m₀ root (pageAlign va) (fun _ => none) 0 m ∧ LeafOk m) ?_ _ 0 m₀
    (Nat.zero_add _) ⟨PagesSet.init h₀, hok⟩
  rintro k m hk ⟨hset, hleaf⟩
  have hr := hset.kept.level_root hroot
  have hw := protPage_wrote hset.kept.tree (pageOf (pageAlign va) k) prot hr
  refine ⟨hset.keep hroot hw.kept fun r v hr' => ?_, protPage_leafOk hset.kept.tree hleaf _ prot hr⟩
  rw [translateVirt_eq, translateVirt_eq]
  rcases protPage_leaf hset.kept.tree (pageOf (pageAlign va) k) prot hr hr' v with he | he
  · rw [he]
  · rw [he, reprotLeaf_target]

/-! ## Runs -/

structure MapInv (m : Mmu) : Prop where
  tree : TreeInv m
  leaf : LeafOk m

theorem init_mapInv (format : EntryFormat) : MapInv (Mmu.init format) :=
  ⟨init_treeInv format, nofun⟩

theorem MapInv.forest (h : MapInv m) : Forest m := by
  have hslot : ∀ t p i, m.level t ≠ 0 → m.level p ≠ 0 → m.child p i = some t → 2 ≤ m.level p := by
    intro t p i ht hp hc
    by_contra hlt
    exact ht (h.leaf p i t (by omega) hc).1
  refine ⟨fun t ht => ?_, h.tree.roots, fun t ht h4 => ?_, fun t h4 p i hp hc => ?_,
    fun t p i p' i' ht hp hp' hc hc' => ?_⟩
  · obtain ⟨h1, h2, -⟩ := h.tree.table t ht
    exact ⟨h1, h2⟩
  · have hle := (h.tree.table t ht).2.2
    obtain ⟨p, i, hp, hc⟩ := h.tree.hung t ht (by omega)
    exact ⟨p, i, by omega, hc⟩
  · have h2 := hslot t p i (by omega) hp hc
    have hlevel := h.tree.child p i t h2 hc
    have hle := (h.tree.table p hp).2.2
    omega
  · exact h.tree.unique p i p' i' t (hslot t p i ht hp hc) (hslot t p' i' ht hp' hc') hc hc'

theorem frame_eq (m : Mmu) {pa : Nat} (hp : IsPage pa) (hlt : pa < physEnd) : m.frame pa = pa :=
  pfnToPa_pfn m hp hlt

theorem job_targets (h : TreeInv m) {call : Call} {j : MapJob} (hok : TargetsOk m call)
    (hj : m.job call = some (m₀, j)) (k : Nat) (hk : k < j.n) :
    m₀.IsTarget (m₀.frame (pageOf j.pa k)) := by
  obtain ⟨hp, -, -, ⟨hpa, hn⟩ | htarget⟩ := job_spec h.phys hj
  · have hroom := (hp.treeInv h).phys.2
    have hend : physEnd < 2 ^ 64 := by decide
    have hsize : 0 < pageSize := by decide
    have hle : k * pageSize + pageSize ≤ j.n * pageSize := by
      rw [← Nat.succ_mul]
      exact Nat.mul_le_mul_right _ hk
    have hlt : m.physNext + k * pageSize < m₀.physNext := by omega
    have hpage : pageOf j.pa k = m.physNext + k * pageSize := by
      unfold pageOf
      rw [hpa, wrap_of_lt (by omega)]
    have hpg : IsPage (m.physNext + k * pageSize) := h.phys.1.add (Nat.mul_mod_left k pageSize)
    rw [hpage, frame_eq m₀ hpg (hlt.trans_le hroom)]
    refine ⟨?_, Or.inl hlt⟩
    by_contra hne
    rw [hp.level] at hne
    have := (h.table _ hne).2.1
    omega
  · rw [frame_of_format hp.format]
    exact (hp.kept h).isTarget (hok _ htarget k hk)

structure CallRefines (m : Mmu) (call : Call) (m' : Mmu) : Prop where
  /-- The space of the call gets what the call asks for. -/
  own : ∀ S, call.root = some S → ∀ va,
    m'.translateVirt S va = m.requested call (m.pageMap S) (vpn va)
  /-- The user halves of other spaces stay. -/
  other : ∀ S va, (m.spaces S).isSome → call.root ≠ some S → pml4Index va < 256 →
    m'.translateVirt S va = m.translateVirt S va
  /-- A new space has an empty user half. -/
  new : ∀ S va, m.spaces S = none → (m'.spaces S).isSome → pml4Index va < 256 →
    m'.translateVirt S va = none
  /-- A loop that stops early has run out of guest memory. -/
  stopped : ∀ m₀ j, m.job call = some (m₀, j) →
    (j.run m₀).2 = j.n ∨ (j.run m₀).2 < j.n ∧ m'.allocPhys pageSize = none

theorem Prelude.pageMap (h : Prelude m m₀) (root : Nat) :
    m₀.pageMap root = m.pageMap root := by
  funext page
  unfold Mmu.pageMap
  rw [translateVirt_eq, translateVirt_eq, h.leaf]

theorem Kept.no_new (h : Kept m m') {S : Nat} (hnone : m.spaces S = none) (hsome : (m'.spaces S).isSome) : False := by
  rw [h.live, hnone] at hsome
  simp at hsome

theorem PagesSet.refines (h : MapInv m) {call : Call} {start k : Nat}
    {f : Nat → Option Nat} (hp : Prelude m m₀) (hroot : call.root = some root) (hset : PagesSet m₀ root start f k m')
    (hreq : m.requested call (m.pageMap root) = setPages (m.pageMap root) start f k)
    (hstop : ∀ m₀ j, m.job call = some (m₀, j) →
      (j.run m₀).2 = j.n ∨ (j.run m₀).2 < j.n ∧ m'.allocPhys pageSize = none) :
    CallRefines m call m' := by
  refine ⟨fun S hS va => ?_, fun S va hlive hne hva => ?_, fun S va hnone hsome => ?_, hstop⟩
  · obtain rfl : root = S := Option.some.inj (hroot.symm.trans hS)
    rw [hreq, hset.own va, hp.pageMap]
  · have h4 : m₀.level S = 4 := by
      rw [hp.level]
      exact h.tree.roots S hlive
    rw [hset.other S va h4 (fun he => hne (by rw [hroot, he])) hva, translateVirt_eq, translateVirt_eq,
      hp.leaf]
  · exact (((hp.kept h.tree).trans hset.kept).no_new hnone hsome).elim

theorem step_refines (h : MapInv m) {call : Call} (hok : TargetsOk m call)
    (hstep : step m call = some m') : MapInv m' ∧ CallRefines m call m' := by
  rcases step_did h.tree.phys hstep with ⟨hp, hjob, -, hunmap, -, -⟩ | ⟨root, rfl, hc⟩ |
    ⟨m₀, j, hj, hlive, rfl⟩ | ⟨root, va, size, rfl, hlive, rfl⟩ | ⟨root, va, size, prot, rfl, hlive, rfl⟩
  · refine ⟨⟨hp.treeInv h.tree, hp.leafOk h.tree h.leaf⟩, fun S hS va => ?_, fun S va _ _ _ => ?_,
      fun S va hnone hsome _ => ?_, fun m₀ j hj => ?_⟩
    · have hreq : m.requested call (m.pageMap S) = m.pageMap S := by
        unfold Mmu.requested
        split
        · exact absurd rfl (hunmap _ _ _)
        · rw [hjob]
      rw [hreq, pageMap_vpn, translateVirt_eq, translateVirt_eq, hp.leaf]
    · rw [translateVirt_eq, translateVirt_eq, hp.leaf]
    · exact ((hp.kept h.tree).no_new hnone hsome).elim
    · rw [hjob] at hj
      simp at hj
  · have hcr := createAddrSpace_spec h.tree hc
    refine ⟨⟨hcr.tree, hcr.leafOk h.leaf⟩, fun S hS => ?_, fun S va hlive _ _ => ?_,
      fun S va hnone hsome hva => ?_, fun m₀ j hj => ?_⟩
    · cases hS
    · rw [translateVirt_eq, translateVirt_eq, hcr.leaf h.tree (h.tree.roots S hlive)]
    · have hS : S = root := by
        by_contra hne
        rw [hcr.spaces, if_neg hne, hnone] at hsome
        simp at hsome
      rw [translateVirt_eq, hS, hcr.leaf_new hva]
      rfl
    · cases hj
  · obtain ⟨hp, hroot, -⟩ := job_spec h.tree.phys hj
    have h₀ := hp.treeInv h.tree
    have h4 : m₀.level j.root = 4 := by
      rw [hp.level]
      exact h.tree.roots j.root hlive
    obtain ⟨hset, hleaf, hstop⟩ := mapLoop_pages h₀ (hp.leafOk h.tree h.leaf) h4
      (job_targets h.tree hok hj)
    refine ⟨⟨hset.kept.tree, hleaf⟩, hset.refines h hp hroot ?_ fun m₁ j' hj' => ?_⟩
    · unfold Mmu.requested
      split
      · simp [Mmu.job] at hj
      · rw [hj]
        simp only [frame_of_format hp.format]
    · rw [hj] at hj'
      obtain ⟨rfl, rfl⟩ := Prod.mk.inj (Option.some.inj hj')
      exact hstop
  · obtain ⟨hset, hleaf⟩ := unmapVirt_pages h.tree h.leaf va size (h.tree.roots root hlive)
    exact ⟨⟨hset.kept.tree, hleaf⟩, hset.refines h (Prelude.refl h.tree.phys) rfl rfl fun _ _ hj => by cases hj⟩
  · obtain ⟨hset, hleaf⟩ := protVirt_pages h.tree h.leaf va size prot (h.tree.roots root hlive)
    exact ⟨⟨hset.kept.tree, hleaf⟩, hset.refines h (Prelude.refl h.tree.phys) rfl rfl fun _ _ hj => by cases hj⟩

theorem run_mapInv {format : EntryFormat} {calls : List Call}
    (hrun : Run.Steps step TargetsOk (Mmu.init format) calls m) : MapInv m :=
  hrun.invariant (fun _ _ _ h hok hstep => (step_refines h hok hstep).1) (init_mapInv format)

/-- **The tables refine the maps.** In every run whose named frames are no tables, the tables are a
forest, and every further call sets exactly the pages it names in the map of its space and leaves the user
halves of the others. -/
theorem translate_refines {format : EntryFormat} {calls : List Call} {m : Mmu}
    (hrun : Run.Steps step TargetsOk (Mmu.init format) calls m) :
    Forest m ∧ ∀ call m', TargetsOk m call → step m call = some m' → CallRefines m call m' :=
  ⟨(run_mapInv hrun).forest, fun _ _ hok hstep => (step_refines (run_mapInv hrun) hok hstep).2⟩

def pfn36 : EntryFormat := ⟨36, by decide, by decide⟩

/-- Two spaces, two pages of the first and a kernel page of the second. -/
def twoSpaces : List Call :=
  [.createAddrSpace, .createAddrSpace, .mapVirt 0x100000000 0x400000 0x2000 protRw,
    .mapVirtPhys 0x100001000 0xFFFFF80000000000 0x1000 0x1000 { protRw with supervisor := true }]

theorem twoSpaces_refines : ∃ m m', Run.Steps step TargetsOk (Mmu.init pfn36) twoSpaces m ∧
    step m (.unmapVirt 0x100000000 0x401000 0x1000) = some m' ∧
    m'.translateVirt 0x100000000 0x400000 = some 0x100002000 ∧
    m'.translateVirt 0x100000000 0x401000 = none ∧ Forest m ∧
    CallRefines m (.unmapVirt 0x100000000 0x401000 0x1000) m' := by
  have hexec : ((Run.exec step (fun m call => decide (TargetsOk m call)) (Mmu.init pfn36) twoSpaces).bind
      fun m => (step m (.unmapVirt 0x100000000 0x401000 0x1000)).map fun m' =>
        (m'.translateVirt 0x100000000 0x400000, m'.translateVirt 0x100000000 0x401000)) =
      some (some 0x100002000, none) := by decide +kernel
  obtain ⟨m, hm, hrest⟩ := Option.bind_eq_some_iff.mp hexec
  obtain ⟨m', hm', hval⟩ := Option.map_eq_some_iff.mp hrest
  obtain ⟨h1, h2⟩ := Prod.mk.inj hval
  have hrun := Run.Steps.of_exec (fun _ _ => of_decide_eq_true) hm
  obtain ⟨hforest, hcall⟩ := translate_refines hrun
  exact ⟨m, m', hrun, hm', h1, h2, hforest, hcall _ m' nofun hm'⟩

end Kernemul.X86
