import Kernemul.Emu.X86.Calls

/-!
# What the cpu may do with a page

The cpu takes the strictest bit of the four entries of a walk. The entries above a page table are always
writable and executable, and user reachable as soon as a page below is (`Rights`), so that the leaf entry
decides; it says what was last asked for, which is what the ledger of requests records.
-/

namespace Kernemul.X86

structure Perm where
  user : Bool
  write : Bool
  exec : Bool
  deriving DecidableEq, Repr

structure Access extends Perm where
  frame : Nat
  deriving DecidableEq, Repr

def combine (es : List PtEntry) : Perm where
  user := es.all fun e => e.supervisor
  write := es.all fun e => e.write
  exec := es.all fun e => !e.executeDisable

def Mmu.access (m : Mmu) (root va : Nat) : Option Access :=
  (m.child root (pml4Index va)).bind fun pdpt =>
    (m.child pdpt (pdptIndex va)).bind fun pd =>
      (m.child pd (pdIndex va)).bind fun pt =>
        (m.child pt (ptIndex va)).map fun frame =>
          { combine [m.mem root (pml4Index va), m.mem pdpt (pdptIndex va), m.mem pd (pdIndex va),
              m.mem pt (ptIndex va)] with frame }

/-! ## The ledger of requests -/

abbrev Ledger := Nat → Option Perm

/-- Change the entries of `n` pages from `start` on. -/
def overPages (L : Ledger) (start : Nat) (g : Option Perm → Option Perm) : Nat → Ledger
  | 0 => L
  | n + 1 =>
    let L := overPages L start g n
    Function.update L (vpn (pageOf start n)) (g (L (vpn (pageOf start n))))

def mapPerm (prot : MemProt) : Perm := ⟨!prot.supervisor, prot.write, prot.exec⟩

def protPerm (prot : MemProt) (p : Perm) : Perm := ⟨p.user, prot.write, prot.exec⟩

/-- Record a call. Of a call that runs out of guest memory, the pages mapped until then. -/
def Mmu.record (m : Mmu) (call : Call) (L : Ledger) : Ledger :=
  match call with
  | .unmapVirt _ va size => overPages L (pageAlign va) (fun _ => none) (pages size)
  | .protVirt _ va size prot => overPages L (pageAlign va) (Option.map (protPerm prot)) (pages size)
  | call =>
    match m.job call with
    | none => L
    | some (m₀, j) => overPages L j.start (fun _ => some (mapPerm j.prot)) (j.run m₀).2

def stepRecorded (s : Mmu × Ledger) (call : Call) : Option (Mmu × Ledger) :=
  (step s.1 call).map fun m' => (m', s.1.record call s.2)

/-- Requests are made through one space; other spaces may be created. -/
def Through (S : Nat) (_ : Mmu × Ledger) (call : Call) : Prop := ∀ r ∈ call.root, r = S

instance (S : Nat) (s : Mmu × Ledger) (call : Call) : Decidable (Through S s call) :=
  inferInstanceAs (Decidable (∀ r ∈ call.root, r = S))

/-! ## The entries of a walk -/

def Plain (m : Mmu) : Prop := ∀ t i, 2 ≤ m.level t → (m.mem t i).present = true →
  (m.mem t i).write = true ∧ (m.mem t i).executeDisable = false

def UserAbove (m : Mmu) (root : Nat) : Prop := ∀ va, (m.leaf root va).present = true →
  (m.leaf root va).supervisor = true → m.Above root va fun e => e.supervisor = true

def PtEntry.perm (e : PtEntry) : Option Perm :=
  if e.present then some ⟨e.supervisor, e.write, !e.executeDisable⟩ else none

variable {m : Mmu}

theorem present_of_plain {t i c : Nat} (h : Plain m) (ht : 2 ≤ m.level t)
    (hc : m.child t i = some c) : (m.mem t i).write = true ∧ (m.mem t i).executeDisable = false :=
  h t i ht (present_of_child hc)

variable {root : Nat}

theorem access_perm (h : TreeInv m) (hplain : Plain m)
    (huser : UserAbove m root) (hroot : m.level root = 4) (va : Nat) :
    (m.access root va).map Access.toPerm = (m.leaf root va).perm := by
  cases hpt : m.pageTable root va with
  | none =>
    have hleaf : m.leaf root va = {} := by
      unfold Mmu.leaf
      rw [hpt]
    rw [hleaf]
    unfold Mmu.pageTable at hpt
    unfold Mmu.access
    cases h1 : m.child root (pml4Index va) with
    | none => rfl
    | some pdpt =>
      rw [h1, Option.bind_some] at hpt
      rw [Option.bind_some]
      cases h2 : m.child pdpt (pdptIndex va) with
      | none => rfl
      | some pd =>
        rw [h2, Option.bind_some] at hpt
        rw [Option.bind_some, hpt]
        rfl
  | some pt =>
    have hleaf : m.leaf root va = m.mem pt (ptIndex va) := by
      unfold Mmu.leaf
      rw [hpt]
    unfold Mmu.pageTable at hpt
    obtain ⟨pdpt, h1, hpt⟩ := Option.bind_eq_some_iff.mp hpt
    obtain ⟨pd, h2, h3⟩ := Option.bind_eq_some_iff.mp hpt
    have hl1 := h.child root _ pdpt (by omega) h1
    have hl2 := h.child pdpt _ pd (by omega) h2
    obtain ⟨hw1, hx1⟩ := present_of_plain hplain (by omega) h1
    obtain ⟨hw2, hx2⟩ := present_of_plain hplain (by omega) h2
    obtain ⟨hw3, hx3⟩ := present_of_plain hplain (by omega) h3
    unfold Mmu.access
    rw [h1, Option.bind_some, h2, Option.bind_some, h3, Option.bind_some, hleaf, child_def]
    cases hp : (m.mem pt (ptIndex va)).present with
    | false =>
      rw [target_eq_none.mpr hp]
      unfold PtEntry.perm
      rw [hp]
      rfl
    | true =>
      rw [target_of_present hp]
      unfold PtEntry.perm combine
      rw [if_pos hp, Option.map_some, Option.map_some]
      simp only [List.all_cons, List.all_nil, hw1, hw2, hw3, hx1, hx2, hx3, Bool.and_true, Bool.true_and,
        Bool.not_false, Option.some.injEq, Perm.mk.injEq, and_true]
      cases hs : (m.mem pt (ptIndex va)).supervisor with
      | false => simp
      | true =>
        obtain ⟨pdpt', pd', pt', h1', h2', -, hs1, hs2, hs3⟩ := huser va (by rw [hleaf]; exact hp)
          (by rw [hleaf]; exact hs)
        obtain rfl : pdpt = pdpt' := Option.some.inj (h1.symm.trans h1')
        obtain rfl : pd = pd' := Option.some.inj (h2.symm.trans h2')
        simp [hs1, hs2, hs3]

/-! ## What the page operations keep -/

variable {m' : Mmu}

theorem Grow.above (hg : Grow m m') (h : TreeInv m) {va : Nat}
    (hroot : m.level root = 4) (ha : m.Above root va fun e => e.supervisor = true) :
    m'.Above root va fun e => e.supervisor = true := by
  obtain ⟨pdpt, pd, pt, h1, h2, h3, hs1, hs2, hs3⟩ := ha
  have hl1 := h.child root _ pdpt (by omega) h1
  have hl2 := h.child pdpt _ pd (by omega) h2
  exact ⟨pdpt, pd, pt, hg.child_old (by omega) h1, hg.child_old (by omega) h2,
    hg.child_old (by omega) h3, hg.supervisor_old (by omega) h1 hs1,
    hg.supervisor_old (by omega) h2 hs2, hg.supervisor_old (by omega) h3 hs3⟩

theorem above_congr {va va' : Nat} {P : PtEntry → Prop} (h : tablePath va = tablePath va')
    (ha : m.Above root va P) : m.Above root va' P := by
  unfold tablePath at h
  simp only [List.cons.injEq, and_true] at h
  unfold Mmu.Above at *
  rw [← h.1, ← h.2.1, ← h.2.2]
  exact ha

theorem Grow.plain (hg : Grow m m') (hp : Plain m) : Plain m' := by
  intro t i ht hpres
  rcases hg.made t i ht hpres with ⟨ht', hpres'⟩ | hnew
  · obtain ⟨hw, hx⟩ := hp t i ht' hpres'
    rcases hg.entry t i ht' hpres' with he | he
    · rw [he]
      exact ⟨hw, hx⟩
    · rw [he]
      exact ⟨hw, hx⟩
  · exact hnew

structure Rights (S : Nat) (m : Mmu) (L : Ledger) : Prop where
  tree : TreeInv m
  live : (m.spaces S).isSome
  root : m.level S = 4
  plain : Plain m
  user : UserAbove m S
  ledger : ∀ va, (m.leaf S va).perm = L (vpn va)

section Rights
variable {S : Nat} {m m' : Mmu} {L : Ledger} (h : Rights S m L)
include h

theorem Rights.grow (hg : Grow m m') (h' : TreeInv m') : Rights S m' L := by
  have hleaf := hg.leaf_eq h.tree h.root h'
  refine ⟨h', by rw [hg.spaces]; exact h.live, hg.level_root h.root, hg.plain h.plain, fun va hp hs => ?_, fun va => ?_⟩
  · rw [hleaf] at hp hs
    exact hg.above h.tree h.root (h.user va hp hs)
  · rw [hleaf]
    exact h.ledger va

theorem Rights.aside (ha : Aside m m') : Rights S m' L := by
  refine ⟨ha.treeInv h.tree, by rw [ha.live]; exact h.live, by rw [ha.level]; exact h.root,
    fun t i ht hp => ?_, fun va hp hs => ?_, fun va => ?_⟩
  · rw [ha.level] at ht
    rw [ha.mem] at hp ⊢
    exact h.plain t i ht hp
  · rw [ha.leaf] at hp hs
    have habove := h.user va hp hs
    unfold Mmu.Above at *
    simp only [ha.child, ha.mem]
    exact habove
  · rw [ha.leaf]
    exact h.ledger va

theorem Rights.write {va pt : Nat} (hpt : m.pageTable S va = some pt) {e : PtEntry}
    (he : e.present = true → e.supervisor = true → m.Above S va fun e => e.supervisor = true) :
    Rights S (m.writeEntry pt (ptIndex va) e) (Function.update L (vpn va) e.perm) := by
  have hlevel := h.tree.pageTable_level h.root hpt
  have hmem : ∀ t i, 2 ≤ m.level t → (m.writeEntry pt (ptIndex va) e).mem t i = m.mem t i := by
    intro t i ht
    rw [writeEntry_mem, if_neg]
    intro hs
    rw [hs.1] at ht
    omega
  have habove : ∀ {va'}, (m.Above S va' fun e => e.supervisor = true) →
      (m.writeEntry pt (ptIndex va) e).Above S va' fun e => e.supervisor = true := by
    rintro va' ⟨pdpt, pd, pt', h1, h2, h3, hs⟩
    have hl0 := h.root
    have hl1 := h.tree.child S _ pdpt (by omega) h1
    have hl2 := h.tree.child pdpt _ pd (by omega) h2
    refine ⟨pdpt, pd, pt', ?_⟩
    rw [child_def, child_def, child_def, hmem S _ (by omega), hmem pdpt _ (by omega),
      hmem pd _ (by omega)]
    exact ⟨h1, h2, h3, hs⟩
  have hleaf := fun va' => leaf_write h.tree hlevel e h.root h.root hpt va'
  simp only [hpt, true_and] at hleaf
  refine ⟨writeLeaf_treeInv h.tree hlevel _ e, h.live, h.root, fun t i ht hp => ?_, fun va' hp hs => ?_,
    fun va' => ?_⟩
  · rw [hmem t i ht] at hp ⊢
    exact h.plain t i ht hp
  · rw [hleaf] at hp hs
    apply habove
    by_cases hv : vpn va' = vpn va
    · rw [if_pos hv] at hp hs
      exact above_congr (vpn_eq_iff.mp hv.symm).1 (he hp hs)
    · rw [if_neg hv] at hp hs
      exact h.user va' hp hs
  · rw [hleaf]
    by_cases hv : vpn va' = vpn va
    · rw [if_pos hv, hv, Function.update_self]
    · rw [if_neg hv, Function.update_of_ne hv]
      exact h.ledger va'

theorem Rights.setPage {va pt : Nat} (hpt : m.pageTable S va = some pt) {e : PtEntry}
    (he : e.present = true → e.supervisor = true → m.Above S va fun e => e.supervisor = true)
    (shadow : Option Nat) :
    Rights S (m.setPage S va pt e shadow) (Function.update L (vpn va) e.perm) :=
  (h.write hpt he).aside (updateSpace_aside (h.write hpt he).tree.phys S _)

theorem Rights.mapPage {va pa : Nat} {prot : MemProt} (hm : m.mapPage S va pa prot = (m', true)) :
    Rights S m' (Function.update L (vpn va) (some (mapPerm prot))) := by
  obtain ⟨m₁, r, hp, -, ⟨-, he⟩ | ⟨pt, rfl, he⟩⟩ := mapPage_cases h.tree va pa prot h.root
  · rw [he] at hm
    simp at hm
  · rw [he] at hm
    obtain ⟨rfl, -⟩ := Prod.mk.inj hm
    have hset := (h.grow hp.grow hp.tree).setPage (hp.found pt rfl) (e := leafEntry m₁ pa prot)
      (fun _ hs => hp.user pt rfl hs) (some pa)
    have hperm : (leafEntry m₁ pa prot).perm = some (mapPerm prot) := by
      unfold PtEntry.perm leafEntry mapPerm
      simp
    rw [vpn_pageAlign, hperm] at hset
    exact hset

theorem Rights.unmapPage (va : Nat) : Rights S (m.unmapPage S va) (Function.update L (vpn va) none) := by
  rw [unmapPage_eq]
  cases hpt : m.pageTable S (pageAlign va) with
  | none =>
    have hside := h.aside (updateSpace_aside h.tree.phys S fun s =>
      { s with shadow := Function.update s.shadow (pageAlign va) none })
    have hnone : L (vpn va) = none := by
      rw [← vpn_pageAlign, ← h.ledger]
      unfold Mmu.leaf
      rw [hpt]
      rfl
    rw [← hnone, Function.update_eq_self]
    exact hside
  | some pt =>
    have hset := h.setPage hpt (e := {}) (by simp) none
    rw [vpn_pageAlign] at hset
    exact hset

theorem Rights.protPage (v : Nat) (prot : MemProt) : Rights S (m.protPage S v prot)
    (Function.update L (vpn v) ((L (vpn v)).map (protPerm prot))) := by
  rw [← h.ledger v, protPage_eq]
  have hperm : ∀ e : PtEntry, (reprotLeaf e prot).perm = e.perm.map (protPerm prot) := by
    intro e
    unfold reprotLeaf PtEntry.perm protPerm reprotEntry
    cases hp : e.present with
    | false => simp [hp]
    | true => simp
  cases hpt : m.pageTable S v with
  | none =>
    have hleaf : m.leaf S v = {} := by
      unfold Mmu.leaf
      rw [hpt]
    have hL : (({} : PtEntry).perm).map (protPerm prot) = L (vpn v) := by
      rw [← h.ledger v, hleaf]
      rfl
    rw [hleaf, hL, Function.update_eq_self]
    exact h
  | some pt =>
    have hleaf : m.leaf S v = m.mem pt (ptIndex v) := by
      unfold Mmu.leaf
      rw [hpt]
    rw [hleaf, ← hperm]
    apply h.write hpt
    intro hp hs
    unfold reprotLeaf at hp hs
    rw [← hleaf] at hp hs
    split at hp
    · rename_i hpres
      rw [if_pos hpres] at hs
      exact h.user v hpres hs
    · rename_i hpres
      exact absurd hp hpres

end Rights

/-! ## Loops and runs -/

section loops
variable {S : Nat} {m : Mmu} {L : Ledger} (h : Rights S m L)
include h

theorem Rights.mapLoop {j : MapJob} (hj : j.root = S) : Rights S (j.run m).1
    (overPages L j.start (fun _ => some (mapPerm j.prot)) (j.run m).2) := by
  rw [← hj] at h ⊢
  refine (mapLoop_induct
    (fun k m => Rights j.root m (overPages L j.start (fun _ => some (mapPerm j.prot)) k))
    (fun _ => True) j.root j.start j.pa j.prot j.n ?_ ?_ j.n 0 m (Nat.zero_add _) h).1
  · intro k m m' hk hr hm
    exact hr.mapPage hm
  · intro k m m' hk hr hm
    obtain ⟨hg, htree, -⟩ := mapPage_grow hr.tree hr.root hm
    exact ⟨hr.grow hg htree, trivial⟩

theorem Rights.unmapVirt (va size : Nat) : Rights S (m.unmapVirt S va size)
    (overPages L (pageAlign va) (fun _ => none) (pages size)) := by
  refine unmapLoop_induct (fun k m => Rights S m (overPages L (pageAlign va) (fun _ => none) k)) ?_ _ 0 m
    (Nat.zero_add _) h
  intro k m hk hr
  exact hr.unmapPage _

theorem Rights.protVirt (va size : Nat) (prot : MemProt) : Rights S (m.protVirt S va size prot)
    (overPages L (pageAlign va) (Option.map (protPerm prot)) (pages size)) := by
  refine protLoop_induct
    (fun k m => Rights S m (overPages L (pageAlign va) (Option.map (protPerm prot)) k)) ?_ _ 0 m
    (Nat.zero_add _) h
  intro k m hk hr
  exact hr.protPage _ prot

end loops

/-- Until the space exists nothing is mapped anywhere; from then on its rights are those of the ledger. -/
structure RightsInv (S : Nat) (s : Mmu × Ledger) : Prop where
  tree : TreeInv s.1
  live : (s.1.spaces S).isSome → Rights S s.1 s.2
  before : s.1.spaces S = none → (∀ page, s.2 page = none) ∧ Plain s.1 ∧
    ∀ t i, s.1.level t = 4 → s.1.mem t i = {}

theorem Rights.not_before {S : Nat} {L : Ledger} (h : Rights S m L) {P : Prop} :
    m.spaces S = none → P := by
  intro hnone
  have hlive := h.live
  rw [hnone] at hlive
  simp at hlive

theorem init_rightsInv (S : Nat) (format : EntryFormat) :
    RightsInv S (Mmu.init format, fun _ => none) :=
  ⟨init_treeInv format, nofun, fun _ => ⟨fun _ => rfl, nofun, fun _ _ _ => rfl⟩⟩

theorem Created.plain (hc : Created m root m') (h : TreeInv m) (hp : Plain m) : Plain m' := by
  intro t i ht hpres
  rw [hc.mem] at hpres ⊢
  rw [hc.level] at ht
  split at ht
  · rename_i he
    rw [if_pos he] at hpres ⊢
    unfold Mmu.inherited at hpres ⊢
    split at hpres
    · rename_i hk
      rw [if_pos hk]
      have h4 := h.kernel_level hk.1
      exact hp _ i (by omega) hpres
    · simp at hpres
  · rename_i he
    rw [if_neg he] at hpres ⊢
    exact hp t i ht hpres

theorem Created.rights {S : Nat} {L : Ledger} (hc : Created m root m') (h : Rights S m L) : Rights S m' L := by
  have hne : ∀ {t}, m.level t ≠ 0 → t ≠ root := fun {t} ht he => by
    rw [he] at ht
    exact ht hc.base.2
  have hroot := h.root
  refine ⟨hc.tree, ?_, ?_, hc.plain h.tree h.plain, fun va hp hs => ?_, fun va => ?_⟩
  · rw [hc.spaces, if_neg (hne (by omega))]
    exact h.live
  · rw [hc.level, if_neg (hne (by omega))]
    exact h.root
  · rw [hc.leaf h.tree h.root] at hp hs
    obtain ⟨pdpt, pd, pt, h1, h2, h3, hs⟩ := h.user va hp hs
    have hl1 := h.tree.child S _ pdpt (by omega) h1
    have hl2 := h.tree.child pdpt _ pd (by omega) h2
    refine ⟨pdpt, pd, pt, ?_⟩
    rw [child_def, child_def, child_def, hc.mem, hc.mem, hc.mem, if_neg (hne (by omega)),
      if_neg (hne (by omega)), if_neg (hne (by omega))]
    exact ⟨h1, h2, h3, hs⟩
  · rw [hc.leaf h.tree h.root]
    exact h.ledger va

theorem Created.empty (hc : Created m root m') (h : TreeInv m)
    (hempty : ∀ t i, m.level t = 4 → m.mem t i = {}) (t i : Nat) (ht : m'.level t = 4) :
    m'.mem t i = {} := by
  rw [hc.mem]
  rw [hc.level] at ht
  split at ht
  · rename_i he
    rw [if_pos he]
    unfold Mmu.inherited
    split
    · rename_i hk
      exact hempty _ i (h.kernel_level hk.1)
    · rfl
  · rename_i he
    rw [if_neg he]
    exact hempty t i ht

theorem leaf_of_empty (h : ∀ i, m.mem root i = {}) (va : Nat) :
    m.leaf root va = {} := by
  unfold Mmu.leaf Mmu.pageTable
  rw [child_def, h, target_empty]
  rfl

theorem step_rightsInv {S : Nat} {s s' : Mmu × Ledger} {call : Call} (h : RightsInv S s)
    (hok : Through S s call) (hstep : stepRecorded s call = some s') : RightsInv S s' := by
  obtain ⟨m, L⟩ := s
  obtain ⟨m', hm, rfl⟩ := Option.map_eq_some_iff.mp hstep
  have htree : TreeInv m := h.tree
  rcases step_did htree.phys hm with ⟨hp, hjob, -, hunmap, hprot, -⟩ | ⟨root, rfl, hc⟩ |
    ⟨m₀, j, hj, hlive, rfl⟩ | ⟨root, va, size, rfl, hlive, rfl⟩ | ⟨root, va, size, prot, rfl, hlive, rfl⟩
  · have hrec : m.record call L = L := by
      unfold Mmu.record
      split
      · exact absurd rfl (hunmap _ _ _)
      · exact absurd rfl (hprot _ _ _ _)
      · rw [hjob]
    refine ⟨hp.treeInv htree, fun hl => ?_, fun hnone => ?_⟩
    · rw [hp.live] at hl
      simp only [hrec]
      exact (h.live hl).aside hp.toAside
    · have hnone' : m.spaces S = none := by
        rw [← Option.not_isSome_iff_eq_none, ← hp.live, Option.not_isSome_iff_eq_none]
        exact hnone
      obtain ⟨h1, h2, h3⟩ := h.before hnone'
      simp only [hrec]
      refine ⟨h1, ?_, fun t i ht => ?_⟩
      · unfold Plain
        rw [hp.mem, hp.level]
        exact h2
      · rw [hp.level] at ht
        rw [hp.mem]
        exact h3 t i ht
  · have hcr := createAddrSpace_spec htree hc
    refine ⟨hcr.tree, fun hl => ?_, fun hnone => ?_⟩
    · by_cases hS : (m.spaces S).isSome
      · exact hcr.rights (h.live hS)
      · obtain ⟨h1, h2, h3⟩ := h.before (Option.not_isSome_iff_eq_none.mp hS)
        have h4 := hcr.tree.roots S hl
        have hleaf := leaf_of_empty fun i => hcr.empty htree h3 S i h4
        refine ⟨hcr.tree, hl, h4, hcr.plain htree h2, fun va hp => ?_, fun va => ?_⟩
        · rw [hleaf] at hp
          simp at hp
        · show _ = L (vpn va)
          rw [hleaf, show L (vpn va) = none from h1 _]
          rfl
    · have hS : m.spaces S = none := by
        rw [show m'.spaces S = _ from hcr.spaces S] at hnone
        split at hnone
        · simp at hnone
        · exact hnone
      obtain ⟨h1, h2, h3⟩ := h.before hS
      exact ⟨h1, hcr.plain htree h2, hcr.empty htree h3⟩
  · obtain ⟨hp, hroot, -⟩ := job_spec htree.phys hj
    obtain rfl : j.root = S := hok _ hroot
    have hrec : m.record call L = overPages L j.start (fun _ => some (mapPerm j.prot)) (j.run m₀).2 := by
      unfold Mmu.record
      split
      · simp [Mmu.job] at hj
      · simp [Mmu.job] at hj
      · rw [hj]
    have hr := ((h.live hlive).aside hp.toAside).mapLoop rfl
    refine ⟨hr.tree, fun _ => ?_, hr.not_before⟩
    simp only [hrec]
    exact hr
  · obtain rfl : root = S := hok _ rfl
    have hr := (h.live hlive).unmapVirt va size
    exact ⟨hr.tree, fun _ => hr, hr.not_before⟩
  · obtain rfl : root = S := hok _ rfl
    have hr := (h.live hlive).protVirt va size prot
    exact ⟨hr.tree, fun _ => hr, hr.not_before⟩

/-- **The cpu may do what was last asked for.** In every run whose requests go through one space, a page of
that space is mapped when its latest request is a map or a prot of a mapped page, and the four entries
together allow exactly what the latest requests asked for. -/
theorem access_is_requested {S : Nat} {format : EntryFormat} {calls : List Call} {m : Mmu} {L : Ledger}
    (hrun : Run.Steps stepRecorded (Through S) (Mmu.init format, fun _ => none) calls (m, L))
    (hlive : (m.spaces S).isSome) (va : Nat) : (m.access S va).map Access.toPerm = L (vpn va) := by
  have hinv := hrun.invariant (fun _ _ _ h hok hstep => step_rightsInv h hok hstep)
    (init_rightsInv S format)
  have hr : Rights S m L := hinv.live hlive
  rw [access_perm hr.tree hr.plain hr.user hr.root va]
  exact hr.ledger va

/-- A kernel page, a user page in the tables above it, and the kernel page made read only. -/
def mixedPages : List Call :=
  [.createAddrSpace, .mapVirt 0x100000000 0x400000 0x1000 { protRw with supervisor := true },
    .mapVirt 0x100000000 0x401000 0x1000 protRwx,
    .protVirt 0x100000000 0x400000 0x1000 { protRead with supervisor := true }]

theorem mixedPages_access : ∃ s, Run.Steps stepRecorded (Through 0x100000000)
      (Mmu.init ⟨36, by decide, by decide⟩, fun _ => none) mixedPages s ∧
    (s.1.access 0x100000000 0x400000).map Access.toPerm = some ⟨false, false, false⟩ ∧
    (s.1.access 0x100000000 0x401000).map Access.toPerm = some ⟨true, true, true⟩ := by
  have hexec : ((Run.exec stepRecorded (fun s call => decide (Through 0x100000000 s call))
      (Mmu.init ⟨36, by decide, by decide⟩, fun _ => none) mixedPages).map fun s =>
        (s.2 (vpn 0x400000), s.2 (vpn 0x401000), (s.1.spaces 0x100000000).isSome)) =
      some (some ⟨false, false, false⟩, some ⟨true, true, true⟩, true) := by decide +kernel
  obtain ⟨s, hs, hval⟩ := Option.map_eq_some_iff.mp hexec
  simp only [Prod.mk.injEq] at hval
  obtain ⟨h1, h2, hlive⟩ := hval
  have hrun := Run.Steps.of_exec (fun _ _ => of_decide_eq_true) hs
  refine ⟨s, hrun, ?_, ?_⟩
  · rw [access_is_requested hrun hlive, h1]
  · rw [access_is_requested hrun hlive, h2]

end Kernemul.X86
