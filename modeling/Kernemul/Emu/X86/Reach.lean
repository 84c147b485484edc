import Kernemul.Emu.Alloc
import Kernemul.Emu.X86.KernelHalf
import Kernemul.Emu.X86.Shadow

/-!
# Blocks that one space hands out, seen from another

A block is taken from the user cursor of a space and mapped for the user there. A cpu in kernel mode finds it by the
walk from its own CR3, and a user page only while it may touch user pages: when `CR4.SMAP` is clear or `RFLAGS.AC` is
set.

Mapping through a space changes the PML4 of no other. Another space sees the new pages only where its slot leads to the
same table, and has the rights of its own slot; elsewhere its walk is as before, and never leads to a frame that was not
handed out by then.
-/

namespace Kernemul.X86

/-- What of a cpu decides whether its supervisor finds data at an address. -/
structure Cpu where
  cr3 : Nat
  smap : Bool
  ac : Bool
  deriving DecidableEq, Repr

def Cpu.open (cpu : Cpu) : Bool := !cpu.smap || cpu.ac

instance (v : Nat) : Decidable (Canonical v) := inferInstanceAs (Decidable (_ ∨ _ ∧ _))

def Mmu.supervisorFrame (m : Mmu) (cpu : Cpu) (va : Nat) : Option Nat :=
  if Canonical va then
    (m.access cpu.cr3 va).bind fun a => if a.user && !cpu.open then none else some a.frame
  else none

structure Block where
  va : Nat
  size : Nat
  deriving DecidableEq, Repr

def Block.pages (b : Block) : List Nat := (List.range (X86.pages b.size)).map (pageOf (pageAlign b.va))

/-- `alloc` with `prot_rw`; no block when guest memory runs out. -/
def Mmu.allocBlock (m : Mmu) (root size : Nat) : Option (Block × Mmu) :=
  (m.alloc root size protRw).bind fun r =>
    if r.2.2 = X86.pages size then some (⟨r.1, size⟩, r.2.1) else none

def Mmu.allocBlocks (root : Nat) : List Nat → Mmu → Option (List Block × Mmu)
  | [], m => some ([], m)
  | size :: sizes, m =>
    (m.allocBlock root size).bind fun r => (allocBlocks root sizes r.2).map fun r' => (r.1 :: r'.1, r'.2)

def blocksFrom (cursor : Nat) : List Nat → List Block
  | [] => []
  | size :: sizes => ⟨cursor, size⟩ :: blocksFrom (wrap (cursor + sizeAlign size)) sizes

/-- The supervisor finds what the user half of a space gets at an address next: it is in the space and may touch user
pages, or its slot leads to the same table and the page is not a user page through that. -/
def Mmu.Meets (m : Mmu) (root : Nat) (cpu : Cpu) (va : Nat) : Prop :=
  Canonical va ∧
    if cpu.cr3 = root then cpu.open = true
    else (m.child cpu.cr3 (pml4Index va)).isSome ∧
      m.child cpu.cr3 (pml4Index va) = m.child root (pml4Index va) ∧
      (cpu.open = true ∨ (m.mem cpu.cr3 (pml4Index va)).supervisor = false)

instance (m : Mmu) (root : Nat) (cpu : Cpu) (va : Nat) : Decidable (m.Meets root cpu va) :=
  inferInstanceAs (Decidable (_ ∧ _))

/-! ## A page as it was mapped -/

structure Mmu.Shows (m : Mmu) (root va frame : Nat) : Prop where
  above : m.Above root va fun e => e.supervisor = true
  user : (m.leaf root va).supervisor = true
  target : (m.leaf root va).target = some frame

section Shows

variable {m : Mmu} {root S va frame : Nat}

theorem Mmu.Shows.translateVirt (h : m.Shows root va frame) : m.translateVirt root va = some frame := by
  rw [translateVirt_eq, h.target]

/-- Through a slot that leads to the same table there is the same frame, with the rights of the slot. -/
theorem Mmu.Shows.access (h : m.Shows root va frame) (hslot : m.child S (pml4Index va) = m.child root (pml4Index va)) :
    ∃ a, m.access S va = some a ∧ a.user = (m.mem S (pml4Index va)).supervisor ∧ a.frame = frame := by
  obtain ⟨pdpt, pd, pt, h1, h2, h3, -, hs2, hs3⟩ := h.above
  have hpt : m.pageTable root va = some pt := by
    rw [Mmu.pageTable, h1, Option.bind_some, h2, Option.bind_some, h3]
  have hleaf : m.leaf root va = m.mem pt (ptIndex va) := by
    rw [Mmu.leaf, hpt]
  have htarget := h.target
  have huser := h.user
  rw [hleaf] at htarget huser
  rw [h1] at hslot
  have haccess : m.access S va = some { combine [m.mem S (pml4Index va), m.mem pdpt (pdptIndex va),
      m.mem pd (pdIndex va), m.mem pt (ptIndex va)] with frame } := by
    rw [Mmu.access, hslot, Option.bind_some, h2, Option.bind_some, h3, Option.bind_some, child_def, htarget,
      Option.map_some]
  exact ⟨_, haccess, by simp [combine, hs2, hs3, huser], rfl⟩

theorem access_frame (m : Mmu) (root va : Nat) : (m.access root va).map Access.frame = m.translateVirt root va := by
  unfold Mmu.access Mmu.translateVirt Mmu.pageTable
  simp only [Option.map_bind, Option.bind_assoc, Function.comp_def, Option.map_map, Option.map_id_fun', id]

end Shows

/-! ## Pages that are added -/

/-- A space has new user pages, and nothing else has happened to the tables that another space could see. -/
structure Added (m₀ : Mmu) (root : Nat) (ps : List (Nat × Nat)) (m : Mmu) : Prop where
  kept : Kept m₀ m
  slots : ∀ t i, m₀.level t = 4 → t ≠ root → m.mem t i = m₀.mem t i
  found : ∀ i c, m₀.child root i = some c → m.child root i = some c
  back : ∀ i c, m.child root i = some c → m₀.level c ≠ 0 → m₀.child root i = some c
  other : ∀ r va, m₀.level r = 4 → ¬ m.Shares r root va → m.leaf r va = m₀.leaf r va
  shown : ∀ p ∈ ps, m.Shows root p.1 p.2
  fresh : ∀ p ∈ ps, m₀.physNext ≤ p.2 ∧ p.2 < physEnd

section Added

variable {m₀ m m' : Mmu} {root : Nat} {ps : List (Nat × Nat)}

theorem Added.refl (h : TreeInv m₀) (root : Nat) : Added m₀ root [] m₀ :=
  ⟨Kept.refl h, fun _ _ _ _ => rfl, fun _ _ => id, fun _ _ hc _ => hc, fun _ _ _ _ => rfl,
    fun _ hp => absurd hp List.not_mem_nil, fun _ hp => absurd hp List.not_mem_nil⟩

theorem Added.aside (h : Added m₀ root ps m) (ha : Aside m m') : Added m₀ root ps m' where
  kept := h.kept.trans (ha.kept h.kept.tree)
  slots t i ht hne := by rw [ha.mem, h.slots t i ht hne]
  found i c hc := by rw [ha.child, h.found i c hc]
  back i c hc hl := h.back i c (ha.child root i ▸ hc) hl
  other r va hr hs := by
    rw [ha.shares] at hs
    rw [ha.leaf, h.other r va hr hs]
  shown p hp := by
    obtain ⟨habove, huser, htarget⟩ := h.shown p hp
    refine ⟨?_, by rwa [ha.leaf], by rwa [ha.leaf]⟩
    unfold Mmu.Above at *
    simp only [ha.child, ha.mem]
    exact habove
  fresh := h.fresh

/-- The tables grow, and what is added to the PML4s is added to the one of the space. -/
theorem Added.grow (h : Added m₀ root ps m) (hroot : m₀.level root = 4) (hg : Grow m m') (htree : TreeInv m')
    (hslots : ∀ t i, m.level t = 4 → t ≠ root → m'.mem t i = m.mem t i) : Added m₀ root ps m' where
  kept := h.kept.trans (hg.kept h.kept.tree htree)
  slots t i ht hne := by rw [hslots t i (h.kept.level_root ht) hne, h.slots t i ht hne]
  found i c hc := by
    have hl := h.kept.level_root hroot
    exact hg.child_old (by omega) (h.found i c hc)
  back i c hc hl := by
    have hr := h.kept.level_root hroot
    have hr' := hg.level_root hr
    rcases hg.hangs root i c (by omega) hc with ⟨-, hold⟩ | hnew
    · exact h.back i c hold hl
    · rw [h.kept.level c hl] at hnew
      exact absurd hnew hl
  other r va hr hs := by
    have hr' := h.kept.level_root hr
    rw [hg.leaf_eq h.kept.tree hr' htree va]
    refine h.other r va hr fun hsh => hs ?_
    exact (hg.kept h.kept.tree htree).shares hr' (h.kept.level_root hroot) hsh
  shown p hp := by
    obtain ⟨habove, huser, htarget⟩ := h.shown p hp
    have hr := h.kept.level_root hroot
    have hleaf := hg.leaf_eq h.kept.tree hr htree p.1
    exact ⟨hg.above h.kept.tree hr habove, by rwa [hleaf], by rwa [hleaf]⟩
  fresh := h.fresh

theorem setPage_mem {pt v t : Nat} (hpt : m.level pt = 1) (ht : 2 ≤ m.level t) (e : PtEntry) (shadow : Option Nat)
    (i : Nat) : (m.setPage root v pt e shadow).mem t i = m.mem t i := by
  refine if_neg fun hs => ?_
  rw [hs.1] at ht
  omega

theorem setPage_above (hm : TreeInv m) {pt v va : Nat} (hpt : m.level pt = 1) (e : PtEntry) (shadow : Option Nat)
    (hroot : m.level root = 4) {P : PtEntry → Prop} (h : m.Above root va P) :
    (m.setPage root v pt e shadow).Above root va P := by
  obtain ⟨pdpt, pd, pt', h1, h2, h3, hs1, hs2, hs3⟩ := h
  have hl1 := hm.child root _ pdpt (by omega) h1
  have hl2 := hm.child pdpt _ pd (by omega) h2
  have hchild : ∀ t i, 2 ≤ m.level t → (m.setPage root v pt e shadow).child t i = m.child t i := by
    intro t i ht
    rw [child_def, child_def, setPage_mem hpt ht]
  refine ⟨pdpt, pd, pt', ?_, ?_, ?_, ?_, ?_, ?_⟩
  · rw [hchild root _ (by omega), h1]
  · rw [hchild pdpt _ (by omega), h2]
  · rw [hchild pd _ (by omega), h3]
  · rwa [setPage_mem hpt (by omega)]
  · rwa [setPage_mem hpt (by omega)]
  · rwa [setPage_mem hpt (by omega)]

theorem Added.setPage (h : Added m₀ root ps m) (hroot : m₀.level root = 4) {v pt frame : Nat} {e : PtEntry}
    (hpt : m.pageTable root v = some pt) (habove : m.Above root v fun e => e.supervisor = true)
    (huser : e.supervisor = true) (htarget : e.target = some frame) (hfresh : m₀.physNext ≤ frame ∧ frame < physEnd)
    (hnew : ∀ p ∈ ps, vpn p.1 ≠ vpn v) (shadow : Option Nat) :
    Added m₀ root ((v, frame) :: ps) (m.setPage root v pt e shadow) := by
  have hr := h.kept.level_root hroot
  have hlevel := h.kept.tree.pageTable_level hr hpt
  have hw := setPage_wrote h.kept.tree hr hpt e shadow
  have hchild : ∀ i, (m.setPage root v pt e shadow).child root i = m.child root i := by
    intro i
    rw [child_def, child_def, setPage_mem hlevel (by omega)]
  refine ⟨h.kept.trans hw.kept, fun t i ht hne => ?_, fun i c hc => ?_, fun i c hc hl => ?_, fun r va hr' hs => ?_,
    ?_, ?_⟩
  · have ht' := h.kept.level_root ht
    rw [setPage_mem hlevel (by omega), h.slots t i ht hne]
  · rw [hchild, h.found i c hc]
  · exact h.back i c (hchild i ▸ hc) hl
  · have hr₁ := h.kept.level_root hr'
    rw [hw.miss r va hr₁ fun hsv => hs ((shares_congr _ r root hsv.2).mpr hsv.1)]
    exact h.other r va hr' fun hsh => hs (hw.kept.shares hr₁ hr hsh)
  · refine List.forall_mem_cons.mpr ⟨?_, fun p hp => ?_⟩
    · have hleaf := hw.hit root v hr (Or.inl rfl) rfl
      exact ⟨setPage_above h.kept.tree hlevel e shadow hr habove, by rwa [hleaf], by rwa [hleaf]⟩
    · obtain ⟨habove', huser', htarget'⟩ := h.shown p hp
      have hleaf := hw.miss root p.1 hr fun hsv => hnew p hp hsv.2
      exact ⟨setPage_above h.kept.tree hlevel e shadow hr habove', by rwa [hleaf], by rwa [hleaf]⟩
  · exact List.forall_mem_cons.mpr ⟨hfresh, h.fresh⟩

theorem Added.mapPage (h : Added m₀ root ps m) (hroot : m₀.level root = 4) {v pa : Nat} (hv : IsPage v)
    {prot : MemProt} (hprot : prot.supervisor = false) (hpa : IsPage pa) (hfresh : m₀.physNext ≤ pa ∧ pa < physEnd)
    (hnew : ∀ p ∈ ps, vpn p.1 ≠ vpn v) :
    Added m₀ root (if (m.mapPage root v pa prot).2 then (v, pa) :: ps else ps) (m.mapPage root v pa prot).1 := by
  have hr := h.kept.level_root hroot
  obtain ⟨m₁, r, hp, -, hcase⟩ := mapPage_cases h.kept.tree v pa prot hr
  have hpml4 := (mapPage_pml4 h.kept.tree v pa prot hr).1
  rw [pageAlign_of_isPage hv, hprot] at hp
  rw [pageAlign_of_isPage hv] at hcase
  rcases hcase with ⟨-, he⟩ | ⟨pt, rfl, he⟩
  · rw [he] at hpml4 ⊢
    refine h.grow hroot hp.grow hp.tree fun t i ht hne => ?_
    exact (hpml4 t i ht).resolve_right fun hs => hne hs.1
  · have hgrown : Added m₀ root ps m₁ := by
      refine h.grow hroot hp.grow hp.tree fun t i ht hne => ?_
      have hl := hp.tree.pageTable_level (hp.grow.level_root hr) (hp.found pt rfl)
      have ht' := hp.grow.level_root ht
      rw [he] at hpml4
      rw [← setPage_mem hl (by omega) (leafEntry m₁ pa prot) (some pa) i]
      exact (hpml4 t i ht).resolve_right fun hs => hne hs.1
    rw [he, if_pos rfl]
    refine hgrown.setPage hroot (hp.found pt rfl) (hp.user pt rfl rfl) (by rw [leafEntry, hprot]; rfl) ?_ hfresh hnew
      (some pa)
    rw [leafEntry_target]
    exact congrArg some (frame_eq m₁ hpa hfresh.2)

end Added

variable {m : Mmu} {root : Nat}

theorem mapPage_kept (h : TreeInv m) (va pa : Nat) (prot : MemProt) (hroot : m.level root = 4) :
    Kept m (m.mapPage root va pa prot).1 := by
  rcases hm : m.mapPage root va pa prot with ⟨m', _ | _⟩
  · obtain ⟨hg, htree, -⟩ := mapPage_grow h hroot hm
    exact hg.kept h htree
  · exact (mapPage_wrote h hroot hm).kept

/-! ## Blocks -/

theorem vpn_pageOf (start k : Nat) : vpn (pageOf (pageAlign start) k) = (vpn start + k) % 2 ^ 36 := by
  unfold vpn pageOf pageAlign wrap pageSize
  omega

theorem vpn_advance (cursor size : Nat) :
    vpn (wrap (cursor + sizeAlign size)) = (vpn cursor + pages size) % 2 ^ 36 := by
  rw [← pages_mul]
  unfold vpn wrap pageSize
  omega

/-- A space has new user pages, and their numbers are among `T` that count up from `N`. -/
structure Handed (m₀ : Mmu) (root N T : Nat) (ps : List (Nat × Nat)) (m : Mmu) : Prop where
  added : Added m₀ root ps m
  numbered : ∀ p ∈ ps, ∃ t < T, vpn p.1 = (N + t) % 2 ^ 36

section Handed

variable {m₀ m m' : Mmu} {root N T : Nat} {ps : List (Nat × Nat)}

theorem Handed.mapPage (h : Handed m₀ root N T ps m) (hroot : m₀.level root = 4) {v pa : Nat} (hv : IsPage v)
    {prot : MemProt} (hprot : prot.supervisor = false) (hpa : IsPage pa) (hfresh : m₀.physNext ≤ pa ∧ pa < physEnd)
    (hnum : vpn v = (N + T) % 2 ^ 36) (hT : T < 2 ^ 36) :
    if (m.mapPage root v pa prot).2 then Handed m₀ root N (T + 1) ((v, pa) :: ps) (m.mapPage root v pa prot).1
    else Handed m₀ root N T ps (m.mapPage root v pa prot).1 := by
  have hnew : ∀ p ∈ ps, vpn p.1 ≠ vpn v := by
    intro p hp he
    obtain ⟨t, ht, hpt⟩ := h.numbered p hp
    rw [hpt, hnum] at he
    omega
  have hadded := h.added.mapPage hroot hv hprot hpa hfresh hnew
  split
  · rename_i hok
    rw [if_pos hok] at hadded
    refine ⟨hadded, List.forall_mem_cons.mpr ⟨⟨T, by omega, hnum⟩, fun p hp => ?_⟩⟩
    obtain ⟨t, ht, hpt⟩ := h.numbered p hp
    exact ⟨t, by omega, hpt⟩
  · rename_i hfail
    rw [if_neg hfail] at hadded
    exact ⟨hadded, h.numbered⟩

theorem Handed.run (h : Handed m₀ root N T ps m) (hroot : m₀.level root = 4) {j : MapJob} (hj : j.root = root)
    (hprot : j.prot.supervisor = false) (hstart : IsPage j.start)
    (hnum : ∀ k, vpn (pageOf j.start k) = (N + (T + k)) % 2 ^ 36)
    (hpa : ∀ k < j.n, IsPage (pageOf j.pa k) ∧ m₀.physNext ≤ pageOf j.pa k ∧ pageOf j.pa k < physEnd)
    (hroom : T + j.n ≤ 2 ^ 36) :
    ∃ ps', (∀ p ∈ ps, p ∈ ps') ∧ (∀ k < (j.run m).2, ∃ frame, (pageOf j.start k, frame) ∈ ps') ∧
      Handed m₀ root N (T + (j.run m).2) ps' (j.run m).1 ∧ Kept m (j.run m).1 := by
  subst hj
  have hlevel := h.added.kept.level_root hroot
  have hpage : ∀ k m₁, Kept m m₁ → Kept m (m₁.mapPage j.root (pageOf j.start k) (pageOf j.pa k) j.prot).1 :=
    fun k m₁ hkept => hkept.trans (mapPage_kept hkept.tree _ _ _ (hkept.level_root hlevel))
  refine (mapLoop_induct (fun k m' => ∃ ps', (∀ p ∈ ps, p ∈ ps') ∧
    (∀ i < k, ∃ frame, (pageOf j.start i, frame) ∈ ps') ∧ Handed m₀ j.root N (T + k) ps' m' ∧ Kept m m')
    (fun _ => True) j.root j.start j.pa j.prot j.n ?_ ?_ j.n 0 m (Nat.zero_add _)
    ⟨ps, fun _ => id, nofun, h, Kept.refl h.added.kept.tree⟩).1
  · rintro k m₁ m' hk ⟨ps', hsub, hdone, hhanded, hkept⟩ hm
    have hnext := hhanded.mapPage hroot (isPage_pageOf hstart k) hprot (hpa k hk).1 (hpa k hk).2 (hnum k) (by omega)
    have hrest := hpage k m₁ hkept
    rw [hm] at hnext hrest
    refine ⟨(pageOf j.start k, pageOf j.pa k) :: ps', fun p hp => List.mem_cons_of_mem _ (hsub p hp), fun i hi => ?_,
      hnext, hrest⟩
    rcases Nat.lt_succ_iff_lt_or_eq.mp hi with hlt | rfl
    · obtain ⟨frame, hf⟩ := hdone i hlt
      exact ⟨frame, List.mem_cons_of_mem _ hf⟩
    · exact ⟨_, List.mem_cons_self⟩
  · rintro k m₁ m' hk ⟨ps', hsub, hdone, hhanded, hkept⟩ hm
    have hnext := hhanded.mapPage hroot (isPage_pageOf hstart k) hprot (hpa k hk).1 (hpa k hk).2 (hnum k) (by omega)
    have hrest := hpage k m₁ hkept
    rw [hm] at hnext hrest
    exact ⟨⟨ps', hsub, hdone, hnext, hrest⟩, trivial⟩

theorem advance_user (s : AddrSpace) (n : Nat) :
    s.advance protRw n = { s with userNext := wrap (s.userNext + n) } :=
  if_neg Bool.false_ne_true

theorem Handed.allocBlock (h : Handed m₀ root N T ps m) (hroot : m₀.level root = 4)
    (hroom : m₀.physNext + T * pageSize ≤ m.physNext) {s : AddrSpace} (hs : m.spaces root = some s)
    (hcur : vpn s.userNext = (N + T) % 2 ^ 36) {size : Nat} {b : Block} (hb : m.allocBlock root size = some (b, m')) :
    b = ⟨s.userNext, size⟩ ∧ m'.cursors root = some (s.kernelNext, wrap (s.userNext + sizeAlign size)) ∧
      m₀.physNext + (T + pages size) * pageSize ≤ m'.physNext ∧
      ∃ ps', (∀ p ∈ ps, p ∈ ps') ∧ (∀ page ∈ b.pages, ∃ frame, (page, frame) ∈ ps') ∧
        Handed m₀ root N (T + pages size) ps' m' := by
  obtain ⟨⟨va, m₁, n⟩, ha, hb⟩ := Option.bind_eq_some_iff.mp hb
  rw [alloc_eq hs] at ha
  split at hb
  case isFalse => simp at hb
  rename_i hn
  simp only at hn hb
  obtain ⟨rfl, rfl⟩ := Prod.mk.inj (Option.some.inj hb)
  obtain ⟨rfl, hmap⟩ := Prod.mk.inj (Option.some.inj ha)
  clear ha
  have hp := moved_prelude h.added.kept.tree.phys root size protRw
  have hcursors := mapVirt_cursors (m.moved root size protRw) root (s.cursor protRw) (sizeAlign size) protRw root
  rw [hmap, moved_cursors hs, advance_user] at hcursors
  refine ⟨rfl, hcursors, ?_⟩
  rw [mapVirt_eq] at hmap
  cases hj : (m.moved root size protRw).virtJob root (s.cursor protRw) (sizeAlign size) protRw with
  | none =>
    rw [hj] at hmap
    obtain ⟨rfl, rfl⟩ := Prod.mk.inj hmap
    rw [← hn]
    refine ⟨hroom, ps, fun _ => id, fun page hpage => ?_, h.added.aside hp.toAside, h.numbered⟩
    rw [Block.pages, ← hn] at hpage
    exact absurd hpage List.not_mem_nil
  | some r =>
    obtain ⟨_, j⟩ := r
    obtain ⟨hp₂, hpa, hnext, -, -⟩ := virtJob_spec hp.phys.2 hj
    obtain ⟨⟨pa, m₂⟩, -, he⟩ := Option.map_eq_some_iff.mp hj
    obtain ⟨rfl, rfl⟩ := Prod.mk.inj he
    rw [hj] at hmap
    rw [pages_sizeAlign] at hnext hmap
    have hmoved₂ : Handed m₀ root N T ps m₂ := ⟨(h.added.aside hp.toAside).aside hp₂.toAside, h.numbered⟩
    have hend := hmoved₂.added.kept.tree.phys.2
    simp only at hpa hnext
    have hfirst := hp.phys.1
    have hisPage : IsPage pa := by
      rw [hpa]
      exact hp.phys.2.1
    have hmul : (T + pages size) * pageSize = T * pageSize + pages size * pageSize := Nat.add_mul _ _ _
    have hfit : T + pages size ≤ 2 ^ 36 := by
      unfold pageSize physEnd physBase physSize at *
      omega
    have hpage : ∀ k < pages size, pageOf pa k = pa + k * pageSize ∧ k * pageSize < pages size * pageSize := by
      intro k hk
      have hlt : k * pageSize < pages size * pageSize := Nat.mul_lt_mul_of_pos_right hk (by decide)
      refine ⟨wrap_of_lt ?_, hlt⟩
      unfold physEnd physBase physSize at hend
      omega
    have hnum : ∀ k, vpn (pageOf (pageAlign s.userNext) k) = (N + (T + k)) % 2 ^ 36 := by
      intro k
      rw [vpn_pageOf, hcur]
      omega
    have hframes : ∀ k < pages size, IsPage (pageOf pa k) ∧ m₀.physNext ≤ pageOf pa k ∧ pageOf pa k < physEnd := by
      intro k hk
      obtain ⟨he, hlt⟩ := hpage k hk
      refine ⟨isPage_pageOf hisPage k, ?_⟩
      rw [he]
      omega
    obtain ⟨ps', hsub, hdone, hhanded, hkept⟩ := hmoved₂.run (j := ⟨root, pageAlign s.userNext, pa, pages size, protRw⟩)
      hroot rfl rfl (isPage_pageAlign _) hnum hframes hfit
    rw [show MapJob.run _ m₂ = (m₁, pages size) from hn ▸ hmap] at hdone hhanded hkept
    have hphys : m₂.physNext ≤ m₁.physNext := hkept.phys
    refine ⟨by omega, ps', hsub, fun page hpage => ?_, hhanded⟩
    obtain ⟨k, hk, rfl⟩ := List.mem_map.mp hpage
    exact hdone k (List.mem_range.mp hk)

theorem Handed.allocBlocks (hroot : m₀.level root = 4) (sizes : List Nat) : ∀ {T ps m s bs m'},
    Handed m₀ root N T ps m → m₀.physNext + T * pageSize ≤ m.physNext → m.spaces root = some s →
    vpn s.userNext = (N + T) % 2 ^ 36 → Mmu.allocBlocks root sizes m = some (bs, m') →
      bs = blocksFrom s.userNext sizes ∧ ∃ T' ps', (∀ p ∈ ps, p ∈ ps') ∧
        (∀ b ∈ bs, ∀ page ∈ b.pages, ∃ frame, (page, frame) ∈ ps') ∧ Handed m₀ root N T' ps' m' := by
  induction sizes with
  | nil =>
    intro T ps m s bs m' h _ _ _ ha
    obtain ⟨rfl, rfl⟩ := Prod.mk.inj (Option.some.inj ha)
    exact ⟨rfl, T, ps, fun _ => id, nofun, h⟩
  | cons size sizes ih =>
    intro T ps m s bs m' h hroom hs hcur ha
    obtain ⟨⟨b, m₁⟩, hb, ha⟩ := Option.bind_eq_some_iff.mp ha
    obtain ⟨⟨bs₁, m₂⟩, hbs, ha⟩ := Option.map_eq_some_iff.mp ha
    obtain ⟨rfl, rfl⟩ := Prod.mk.inj ha
    obtain ⟨rfl, hcursors, hroom₁, ps₁, hsub, hpages, h₁⟩ := h.allocBlock hroot hroom hs hcur hb
    obtain ⟨s₁, hs₁, he⟩ := Option.map_eq_some_iff.mp hcursors
    have hnext : s₁.userNext = wrap (s.userNext + sizeAlign size) := (Prod.mk.inj he).2
    have hcur₁ : vpn s₁.userNext = (N + (T + pages size)) % 2 ^ 36 := by
      rw [hnext, vpn_advance, hcur]
      omega
    obtain ⟨rfl, T', ps', hsub', hpages', h'⟩ := ih h₁ hroom₁ hs₁ hcur₁ hbs
    refine ⟨by rw [blocksFrom, hnext], T', ps', fun p hp => hsub' p (hsub p hp), ?_, h'⟩
    refine List.forall_mem_cons.mpr ⟨fun page hp => ?_, hpages'⟩
    obtain ⟨frame, hf⟩ := hpages page hp
    exact ⟨frame, hsub' _ hf⟩

end Handed

/-! ## What the supervisor finds -/

/-- The supervisor finds the frame that a page of a space leads to. -/
def Mmu.Visible (m : Mmu) (root : Nat) (cpu : Cpu) (page : Nat) : Prop :=
  ∃ frame, m.translateVirt root page = some frame ∧ m.supervisorFrame cpu page = some frame

theorem child_of_shares (h : TreeInv m) {r va : Nat} (hr : m.level r = 4) (hroot : m.level root = 4)
    (hne : r ≠ root) (hs : m.Shares r root va) :
    (m.child r (pml4Index va)).isSome ∧ m.child r (pml4Index va) = m.child root (pml4Index va) := by
  obtain ⟨pt, hpt, hpt'⟩ := hs.resolve_left hne
  obtain ⟨pdpt, h1, hpt⟩ := Option.bind_eq_some_iff.mp hpt
  obtain ⟨pd, h2, h3⟩ := Option.bind_eq_some_iff.mp hpt
  obtain ⟨pdpt', h1', hpt'⟩ := Option.bind_eq_some_iff.mp hpt'
  obtain ⟨pd', h2', h3'⟩ := Option.bind_eq_some_iff.mp hpt'
  have hl1 := h.child r _ pdpt (by omega) h1
  have hl2 := h.child pdpt _ pd (by omega) h2
  have hl1' := h.child root _ pdpt' (by omega) h1'
  have hl2' := h.child pdpt' _ pd' (by omega) h2'
  have hpd : pd = pd' := by
    rcases h.unique pd _ pd' _ pt (by omega) (by omega) h3 h3' with ⟨he, -⟩ | ⟨h4, -⟩
    · exact he
    · omega
  rw [← hpd] at h2'
  have hpdpt : pdpt = pdpt' := by
    rcases h.unique pdpt _ pdpt' _ pd (by omega) (by omega) h2 h2' with ⟨he, -⟩ | ⟨h4, -⟩
    · exact he
    · omega
  rw [h1, h1', hpdpt]
  exact ⟨rfl, rfl⟩

/-- Under a slot that does not lead to the same table the walk does not come to a new frame. -/
theorem Added.frame_ne {m₀ : Mmu} {ps : List (Nat × Nat)} (h : Added m₀ root ps m) (h₀ : MapInv m₀)
    (hroot : m₀.level root = 4) {r va frame : Nat} (hr : m₀.level r = 4) (hne : r ≠ root)
    (hslot : ¬ ((m₀.child r (pml4Index va)).isSome ∧ m₀.child r (pml4Index va) = m₀.child root (pml4Index va)))
    (hfresh : m₀.physNext ≤ frame ∧ frame < physEnd) : m.translateVirt r va ≠ some frame := by
  intro ht
  have happart : ¬ m.Shares r root va := by
    intro hs
    obtain ⟨hsome, hsame⟩ := child_of_shares h.kept.tree (h.kept.level_root hr) (h.kept.level_root hroot) hne hs
    rw [child_def, h.slots r _ hr hne, ← child_def] at hsome hsame
    obtain ⟨c, hc⟩ := Option.isSome_iff_exists.mp hsome
    have hlevel := h₀.tree.child r _ c (by omega) hc
    rw [hc] at hsame
    exact hslot ⟨hsome, hc.trans (h.back _ c hsame.symm (by omega)).symm⟩
  rw [translateVirt_eq, h.other r va hr happart, ← translateVirt_eq] at ht
  obtain ⟨pt, hpt, hc⟩ := Option.bind_eq_some_iff.mp ht
  have htarget := h₀.leaf pt _ frame (h₀.tree.pageTable_level hr hpt) hc
  have := htarget.2
  omega

/-- The supervisor finds a new page exactly when its address space and its rights meet the ones of the page. -/
theorem Added.visible_iff {m₀ : Mmu} {ps : List (Nat × Nat)} (h : Added m₀ root ps m) (h₀ : MapInv m₀)
    (hroot : m₀.level root = 4) {cpu : Cpu} (hcpu : m₀.level cpu.cr3 = 4) {page frame : Nat} (hp : (page, frame) ∈ ps) :
    m.Visible root cpu page ↔ m₀.Meets root cpu page := by
  have hshows := h.shown _ hp
  have hfresh := h.fresh _ hp
  have hvisible : m.Visible root cpu page ↔ m.supervisorFrame cpu page = some frame := by
    unfold Mmu.Visible
    rw [hshows.translateVirt]
    constructor
    · rintro ⟨f, hf, hs⟩
      rw [hs, ← hf]
    · exact fun hs => ⟨frame, rfl, hs⟩
  rw [hvisible]
  unfold Mmu.supervisorFrame Mmu.Meets
  by_cases hcanon : Canonical page
  case neg => simp [hcanon]
  rw [if_pos hcanon, and_iff_right hcanon]
  by_cases hspace : cpu.cr3 = root
  · obtain ⟨a, ha, hu, hf⟩ := hshows.access (S := cpu.cr3) (by rw [hspace])
    obtain ⟨_, _, _, _, _, _, htop, _⟩ := hshows.above
    rw [hspace, htop] at hu
    rw [if_pos hspace, ha]
    simp [hu, hf]
  rw [if_neg hspace]
  have hmem := h.slots cpu.cr3 (pml4Index page) hcpu hspace
  have hchild : m.child cpu.cr3 (pml4Index page) = m₀.child cpu.cr3 (pml4Index page) := by
    rw [child_def, child_def, hmem]
  by_cases hslot : (m₀.child cpu.cr3 (pml4Index page)).isSome ∧
      m₀.child cpu.cr3 (pml4Index page) = m₀.child root (pml4Index page)
  · obtain ⟨c, hc⟩ := Option.isSome_iff_exists.mp hslot.1
    have hfound := h.found _ c (hslot.2 ▸ hc)
    obtain ⟨a, ha, hu, hf⟩ := hshows.access (S := cpu.cr3) (by rw [hchild, hfound, hc])
    rw [hmem] at hu
    rw [ha, ← hu, and_iff_right hslot.1, and_iff_right hslot.2]
    cases hau : a.user with
    | false => simp [hau, hf]
    | true => simp [hau, hf]
  · have hnone : (m.access cpu.cr3 page).map Access.frame ≠ some frame := by
      rw [access_frame]
      exact h.frame_ne h₀ hroot hcpu hspace hslot hfresh
    constructor
    · intro hs
      obtain ⟨a, ha, hs⟩ := Option.bind_eq_some_iff.mp hs
      split at hs
      · cases hs
      · rw [ha, Option.map_some] at hnone
        exact absurd hs hnone
    · rintro ⟨h1, h2, -⟩
      exact absurd ⟨h1, h2⟩ hslot

/-- The blocks start at the cursor one after another, and the supervisor finds them page by page as the addresses
meet. -/
theorem allocBlocks_spec {m' : Mmu} (h : MapInv m) {s : AddrSpace} (hs : m.spaces root = some s)
    {sizes : List Nat} {bs : List Block} (ha : m.allocBlocks root sizes = some (bs, m')) :
    bs = blocksFrom s.userNext sizes ∧ ∀ cpu : Cpu, (m.spaces cpu.cr3).isSome → ∀ b ∈ bs, ∀ page ∈ b.pages,
      (m'.Visible root cpu page ↔ m.Meets root cpu page) := by
  have hroot := h.tree.roots root (by rw [hs]; rfl)
  have hfirst : Handed m root (vpn s.userNext) 0 [] m :=
    ⟨Added.refl h.tree root, fun _ hp => absurd hp List.not_mem_nil⟩
  have hcur : vpn s.userNext = (vpn s.userNext + 0) % 2 ^ 36 := by
    unfold vpn
    omega
  obtain ⟨rfl, T, ps, -, hpages, hhanded⟩ := Handed.allocBlocks hroot sizes hfirst (by omega) hs hcur ha
  refine ⟨rfl, fun cpu hcpu b hb page hp => ?_⟩
  obtain ⟨frame, hf⟩ := hpages b hb page hp
  exact hhanded.added.visible_iff h hroot (h.tree.roots _ hcpu) hf

theorem meets_self {va : Nat} {cpu : Cpu} (hspace : cpu.cr3 = root) :
    m.Meets root cpu va ↔ Canonical va ∧ cpu.open = true := by
  unfold Mmu.Meets
  rw [if_pos hspace]

/-! ## Spaces -/

theorem step_live {m' : Mmu} (h : MapInv m) {call : Call} (hok : TargetsOk m call) (hstep : step m call = some m')
    {r : Nat} (hr : (m.spaces r).isSome) : (m'.spaces r).isSome := by
  rcases step_did h.tree.phys hstep with ⟨hp, -, -, -, -, -⟩ | ⟨root, -, hc⟩ | ⟨m₀, j, hj, hlive, rfl⟩ |
    ⟨root, va, size, -, hlive, rfl⟩ | ⟨root, va, size, prot, -, hlive, rfl⟩
  · rwa [hp.live]
  · rw [(createAddrSpace_spec h.tree hc).spaces]
    split
    · rfl
    · exact hr
  · obtain ⟨hp, -, -⟩ := job_spec h.tree.phys hj
    have hroot := hp.treeInv h.tree |>.roots j.root (by rwa [hp.live])
    have hset := (mapLoop_pages (hp.treeInv h.tree) (hp.leafOk h.tree h.leaf) hroot (job_targets h.tree hok hj)).1
    rwa [hset.kept.live, hp.live]
  · rwa [(unmapVirt_pages h.tree h.leaf va size (h.tree.roots root hlive)).1.kept.live]
  · rwa [(protVirt_pages h.tree h.leaf va size prot (h.tree.roots root hlive)).1.kept.live]

theorem run_live {m' : Mmu} (h : MapInv m) {calls : List Call} (hrun : Run.Steps step TargetsOk m calls m') :
    MapInv m' ∧ ∀ r, (m.spaces r).isSome → (m'.spaces r).isSome :=
  hrun.invariant (P := fun m₁ => MapInv m₁ ∧ ∀ r, (m.spaces r).isSome → (m₁.spaces r).isSome)
    (fun _ _ _ h₁ hok hstep => ⟨(step_refines h₁.1 hok hstep).1, fun r hr => step_live h₁.1 hok hstep (h₁.2 r hr)⟩)
    ⟨h, fun _ => id⟩

end Kernemul.X86
