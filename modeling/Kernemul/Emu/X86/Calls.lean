import Kernemul.Emu.X86.Pages

/-!
# Calls on the mmu

A call reserves frames and moves cursors, and then makes its loop over pages, or it makes a new space
(`step_did`). A new space has its PML4 in a fresh frame, with the kernel half copied from the first space
(`createAddrSpace_spec`).
-/

namespace Kernemul.X86

/-! ## Loops of calls -/

/-- What the loop over `map_page` is given. -/
structure MapJob where
  root : Nat
  start : Nat
  pa : Nat
  n : Nat
  prot : MemProt

def MapJob.run (j : MapJob) (m : Mmu) : Mmu × Nat := mapLoop j.root j.start j.pa j.prot j.n 0 m

def Mmu.virtJob (m : Mmu) (root va size : Nat) (prot : MemProt) : Option (Mmu × MapJob) :=
  (m.allocPhys (sizeAlign size)).map fun r => (r.2, ⟨root, pageAlign va, r.1, pages size, prot⟩)

def physJob (root va pa size : Nat) (prot : MemProt) : MapJob :=
  ⟨root, pageAlign va, pageAlign pa, pages size, prot⟩

def Mmu.moved (m : Mmu) (root size : Nat) (prot : MemProt) : Mmu :=
  m.updateSpace root fun s => s.advance prot (sizeAlign size)

/-- The calls that take their range from a cursor: the space, the size and the protection. -/
def Call.fromCursor : Call → Option (Nat × Nat × MemProt)
  | .alloc root size prot => some (root, size, prot)
  | .mapPhys root _ size prot => some (root, size, prot)
  | _ => none

def Mmu.movedSpaces (m : Mmu) (call : Call) : Nat → Option AddrSpace :=
  match call.fromCursor with
  | none => m.spaces
  | some (root, size, prot) => (m.moved root size prot).spaces

/-- The loop a call comes to, and the mmu it finds; none when the call has no such loop or throws before
it. -/
def Mmu.job (m : Mmu) : Call → Option (Mmu × MapJob)
  | .mapVirt root va size prot => m.virtJob root va size prot
  | .mapVirtPhys root va pa size prot => some (m, physJob root va pa size prot)
  | .alloc root size prot => (m.spaces root).bind fun s =>
      (m.moved root size prot).virtJob root (s.cursor prot) (sizeAlign size) prot
  | .mapPhys root pa size prot => (m.spaces root).map fun s =>
      (m.moved root size prot, physJob root (s.cursor prot) pa (sizeAlign size) prot)
  | _ => none

def Call.target : Call → Option (Nat × Nat)
  | .mapVirtPhys _ _ pa size _ => some (pageAlign pa, pages size)
  | .mapPhys _ pa size _ => some (pageAlign pa, pages (sizeAlign size))
  | _ => none

theorem mapVirt_eq (m : Mmu) (root va size : Nat) (prot : MemProt) :
    m.mapVirt root va size prot = match m.virtJob root va size prot with
      | none => (m, 0)
      | some (m₀, j) => j.run m₀ := by
  unfold Mmu.mapVirt Mmu.virtJob
  cases m.allocPhys (sizeAlign size) with
  | none => rfl
  | some r => rfl

/-- What a call does before its loop: frames are reserved and a cursor moves. -/
structure Prelude (m m' : Mmu) : Prop extends Aside m m' where
  shadow : ∀ r, (m'.spaces r).map AddrSpace.shadow = (m.spaces r).map AddrSpace.shadow

variable {m : Mmu}

theorem Prelude.refl (h : IsPage m.physNext ∧ m.physNext ≤ physEnd) : Prelude m m :=
  ⟨Aside.refl h, fun _ => rfl⟩

theorem moved_prelude (h : IsPage m.physNext ∧ m.physNext ≤ physEnd) (root size : Nat)
    (prot : MemProt) : Prelude m (m.moved root size prot) := by
  refine ⟨updateSpace_aside h root _, fun r => ?_⟩
  show (if r = root then (m.spaces r).map _ else m.spaces r).map AddrSpace.shadow = _
  split
  · rw [Option.map_map]
    congr 1
    funext s
    unfold Function.comp AddrSpace.advance
    split
    · rfl
    · rfl
  · rfl

theorem sizeAlign_idem (n : Nat) : sizeAlign (sizeAlign n) = sizeAlign n := by
  unfold sizeAlign pageAlign wrap pageSize
  omega

theorem pages_mul (size : Nat) : pages size * pageSize = sizeAlign size := by
  have h := isPage_sizeAlign size
  unfold pages IsPage pageSize at *
  omega

variable {root size : Nat} {prot : MemProt}

theorem virtJob_spec {m₀ : Mmu} (h : IsPage m.physNext ∧ m.physNext ≤ physEnd) {va : Nat}
    {j : MapJob} (hj : m.virtJob root va size prot = some (m₀, j)) :
    Prelude m m₀ ∧ j.pa = m.physNext ∧ m₀.physNext = j.pa + j.n * pageSize ∧ j.root = root ∧
      m₀.spaces = m.spaces := by
  obtain ⟨⟨pa, m₁⟩, ha, he⟩ := Option.map_eq_some_iff.mp hj
  obtain ⟨rfl, rfl⟩ := Prod.mk.inj he
  obtain ⟨rfl, rfl, haside⟩ := allocPhys_aside h ha
  refine ⟨⟨haside, fun _ => rfl⟩, rfl, ?_, rfl, rfl⟩
  show m.physNext + sizeAlign (sizeAlign size) = m.physNext + pages size * pageSize
  rw [pages_mul, sizeAlign_idem]

/-- The loop of a call starts after reservations only, on the space of the call, and its frames are those
the caller names or the next ones of guest memory. -/
theorem job_spec {m₀ : Mmu} (h : IsPage m.physNext ∧ m.physNext ≤ physEnd) {call : Call} {j : MapJob}
    (hj : m.job call = some (m₀, j)) :
    Prelude m m₀ ∧ call.root = some j.root ∧ m₀.spaces = m.movedSpaces call ∧
      ((j.pa = m.physNext ∧ m₀.physNext = j.pa + j.n * pageSize) ∨ call.target = some (j.pa, j.n)) := by
  cases call with
  | mapVirt root va size prot =>
    obtain ⟨hp, hpa, hn, hr, hs⟩ := virtJob_spec h hj
    rw [hr]
    exact ⟨hp, rfl, hs, Or.inl ⟨hpa, hn⟩⟩
  | mapVirtPhys root va pa size prot =>
    obtain ⟨rfl, rfl⟩ := Prod.mk.inj (Option.some.inj hj)
    exact ⟨Prelude.refl h, rfl, rfl, Or.inr rfl⟩
  | alloc root size prot =>
    obtain ⟨s, hs, hj⟩ := Option.bind_eq_some_iff.mp hj
    have hmoved := moved_prelude h root size prot
    obtain ⟨hp, hpa, hn, hr, hs⟩ := virtJob_spec hmoved.phys.2 hj
    rw [hr]
    exact ⟨⟨hmoved.toAside.trans hp.toAside, fun r => (hp.shadow r).trans (hmoved.shadow r)⟩, rfl,
      hs, Or.inl ⟨hpa, hn⟩⟩
  | mapPhys root pa size prot =>
    obtain ⟨s, hs, he⟩ := Option.map_eq_some_iff.mp hj
    obtain ⟨rfl, rfl⟩ := Prod.mk.inj he
    exact ⟨moved_prelude h root size prot, rfl, rfl, Or.inr rfl⟩
  | createAddrSpace => simp [Mmu.job] at hj
  | allocPhys size => simp [Mmu.job] at hj
  | unmapVirt root va size => simp [Mmu.job] at hj
  | protVirt root va size prot => simp [Mmu.job] at hj

/-- What a call does: reservations only, a new space, or a loop over pages. -/
inductive Did (m : Mmu) (call : Call) (m' : Mmu) : Prop
  | reserve (hp : Prelude m m') (hjob : m.job call = none) (hspaces : m'.spaces = m.movedSpaces call)
      (hunmap : ∀ root va size, call ≠ .unmapVirt root va size)
      (hprot : ∀ root va size p, call ≠ .protVirt root va size p)
      (hcreate : call = .createAddrSpace → m' = m)
  | create (root : Nat) (hcall : call = .createAddrSpace) (hc : m.createAddrSpace = some (root, m'))
  | map (m₀ : Mmu) (j : MapJob) (hj : m.job call = some (m₀, j)) (hlive : (m.spaces j.root).isSome)
      (hm : m' = (j.run m₀).1)
  | unmap (root va size : Nat) (hcall : call = .unmapVirt root va size) (hlive : (m.spaces root).isSome)
      (hm : m' = m.unmapVirt root va size)
  | prot (root va size : Nat) (p : MemProt) (hcall : call = .protVirt root va size p)
      (hlive : (m.spaces root).isSome) (hm : m' = m.protVirt root va size p)

theorem mapVirt_did {m₀ : Mmu} (h₀ : IsPage m₀.physNext ∧ m₀.physNext ≤ physEnd) {call : Call}
    {va : Nat} (hp : Prelude m m₀) (hspaces : m₀.spaces = m.movedSpaces call)
    (hjob : m.job call = m₀.virtJob root va size prot)
    (hlive : (m.spaces root).isSome) (hunmap : ∀ root va size, call ≠ .unmapVirt root va size)
    (hprot : ∀ root va size p, call ≠ .protVirt root va size p)
    (hcreate : call ≠ .createAddrSpace) : Did m call (m₀.mapVirt root va size prot).1 := by
  rw [mapVirt_eq]
  cases hj : m₀.virtJob root va size prot with
  | none => exact .reserve hp (hjob.trans hj) hspaces hunmap hprot fun he => absurd he hcreate
  | some r =>
    obtain ⟨-, -, -, hr, -⟩ := virtJob_spec h₀ hj
    refine .map r.1 r.2 (hjob.trans hj) ?_ rfl
    rw [hr]
    exact hlive

variable {s : AddrSpace}

theorem alloc_eq (hs : m.spaces root = some s) :
    m.alloc root size prot = some (s.cursor prot,
      (m.moved root size prot).mapVirt root (s.cursor prot) (sizeAlign size) prot) := by
  rw [Mmu.alloc, hs]
  rfl

theorem mapPhys_eq {pa : Nat} (hs : m.spaces root = some s) : m.mapPhys root pa size prot = some (s.cursor prot,
      (physJob root (s.cursor prot) pa (sizeAlign size) prot).run (m.moved root size prot)) := by
  rw [Mmu.mapPhys, hs]
  rfl

theorem perform_alloc (hs : m.spaces root = some s) : perform m (.alloc root size prot) =
      ((m.moved root size prot).mapVirt root (s.cursor prot) (sizeAlign size) prot).1 :=
  calc perform m (.alloc root size prot)
      = ((m.alloc root size prot).map fun r => r.2.1).getD m := rfl
    _ = ((m.moved root size prot).mapVirt root (s.cursor prot) (sizeAlign size) prot).1 := by
        rw [alloc_eq hs, Option.map_some, Option.getD_some]

theorem perform_mapPhys {pa : Nat} (hs : m.spaces root = some s) : perform m (.mapPhys root pa size prot) =
      ((physJob root (s.cursor prot) pa (sizeAlign size) prot).run (m.moved root size prot)).1 :=
  calc perform m (.mapPhys root pa size prot)
      = ((m.mapPhys root pa size prot).map fun r => r.2.1).getD m := rfl
    _ = ((physJob root (s.cursor prot) pa (sizeAlign size) prot).run (m.moved root size prot)).1 := by
        rw [mapPhys_eq hs, Option.map_some, Option.getD_some]

variable {m' : Mmu}

theorem step_did (h : IsPage m.physNext ∧ m.physNext ≤ physEnd) {call : Call}
    (hstep : step m call = some m') : Did m call m' := by
  have hlive : ∀ root, call.root = some root → (m.spaces root).isSome ∧ perform m call = m' := by
    intro root hr
    unfold step at hstep
    rw [hr] at hstep
    simp only at hstep
    split at hstep
    · rename_i hl
      exact ⟨hl, Option.some.inj hstep⟩
    · simp at hstep
  cases call with
  | createAddrSpace =>
    have hm : (m.createAddrSpace.map Prod.snd).getD m = m' := Option.some.inj hstep
    cases hc : m.createAddrSpace with
    | none =>
      rw [hc] at hm
      rw [← show m = m' from hm]
      exact .reserve (Prelude.refl h) rfl rfl (by simp) (by simp) fun _ => rfl
    | some r =>
      rw [hc] at hm
      rw [← show r.2 = m' from hm]
      exact .create r.1 rfl hc
  | allocPhys size =>
    have hm : ((m.allocPhys size).map Prod.snd).getD m = m' := Option.some.inj hstep
    cases ha : m.allocPhys size with
    | none =>
      rw [ha] at hm
      rw [← show m = m' from hm]
      exact .reserve (Prelude.refl h) rfl rfl (by simp) (by simp) (by simp)
    | some r =>
      rw [ha] at hm
      rw [← show r.2 = m' from hm]
      obtain ⟨-, he, haside⟩ := allocPhys_aside h (show m.allocPhys size = some (r.1, r.2) from ha)
      exact .reserve ⟨haside, fun t => by rw [he]⟩ rfl (by rw [he]; rfl) (by simp) (by simp) (by simp)
  | mapVirt root va size prot =>
    obtain ⟨hl, hm⟩ := hlive root rfl
    rw [← hm]
    exact mapVirt_did h (Prelude.refl h) rfl rfl hl (by simp) (by simp) (by simp)
  | mapVirtPhys root va pa size prot =>
    obtain ⟨hl, hm⟩ := hlive root rfl
    exact .map m (physJob root va pa size prot) rfl hl hm.symm
  | unmapVirt root va size =>
    obtain ⟨hl, hm⟩ := hlive root rfl
    exact .unmap root va size rfl hl hm.symm
  | protVirt root va size prot =>
    obtain ⟨hl, hm⟩ := hlive root rfl
    exact .prot root va size prot rfl hl hm.symm
  | alloc root size prot =>
    obtain ⟨hl, hm⟩ := hlive root rfl
    obtain ⟨s, hs⟩ := Option.isSome_iff_exists.mp hl
    have hp := moved_prelude h root size prot
    rw [← hm, perform_alloc hs]
    refine mapVirt_did hp.phys.2 hp rfl ?_ hl (by simp) (by simp) (by simp)
    simp only [Mmu.job, hs, Option.bind_some]
  | mapPhys root pa size prot =>
    obtain ⟨hl, hm⟩ := hlive root rfl
    obtain ⟨s, hs⟩ := Option.isSome_iff_exists.mp hl
    refine .map (m.moved root size prot) (physJob root (s.cursor prot) pa (sizeAlign size) prot) ?_ hl ?_
    · simp only [Mmu.job, hs, Option.map_some]
    · rw [← hm, perform_mapPhys hs]

/-! ## A new space -/

def Mmu.inherited (m : Mmu) (i : Nat) : PtEntry :=
  if m.kernelPml4Pa ≠ 0 ∧ 256 ≤ i ∧ i < 512 then m.mem m.kernelPml4Pa i else {}

/-- The mmu after `create_addr_space`. -/
structure Created (m : Mmu) (root : Nat) (m' : Mmu) : Prop where
  tree : TreeInv m'
  format : m'.format = m.format
  kernel : m'.kernelPml4Pa = if m.kernelPml4Pa = 0 then root else m.kernelPml4Pa
  base : root = m.physNext ∧ m.level root = 0
  phys : m'.physNext = m.physNext + pageSize
  level : ∀ t, m'.level t = if t = root then 4 else m.level t
  spaces : ∀ r, m'.spaces r = if r = root then some {} else m.spaces r
  mem : ∀ t i, m'.mem t i = if t = root then m.inherited i else m.mem t i

theorem createAddrSpace_eq (hle : m.physNext ≤ physEnd) (hfresh : ∀ i, m.mem m.physNext i = {})
    (hc : m.createAddrSpace = some (root, m')) :
    root = m.physNext ∧ m.physNext + pageSize ≤ physEnd ∧ m'.format = m.format ∧
      m'.kernelPml4Pa = (if m.kernelPml4Pa = 0 then root else m.kernelPml4Pa) ∧
      m'.physNext = m.physNext + pageSize ∧ (∀ t, m'.level t = if t = root then 4 else m.level t) ∧
      (∀ r, m'.spaces r = if r = root then some {} else m.spaces r) ∧
      ∀ t i, m'.mem t i = if t = root then m.inherited i else m.mem t i := by
  unfold Mmu.createAddrSpace at hc
  rcases allocPhys_page m hle with hnone | ⟨hroom, hsome⟩
  · rw [hnone] at hc
    simp at hc
  · rw [hsome] at hc
    simp only [Option.map_some, Option.some.injEq, Prod.mk.injEq] at hc
    obtain ⟨rfl, rfl⟩ := hc
    refine ⟨rfl, hroom, ?_, ?_, ?_, ?_, ?_, ?_⟩
    · split <;> rfl
    · split <;> rfl
    · split <;> rfl
    · intro t
      split <;> rfl
    · intro r
      split <;> rfl
    · intro t i
      unfold Mmu.inherited
      by_cases hk : m.kernelPml4Pa = 0
      · by_cases ht : t = m.physNext
        · simp [hk, ht, hfresh]
        · simp [hk, ht]
      · by_cases ht : t = m.physNext
        · simp [hk, ht, hfresh]
        · simp [hk, ht]

theorem inherited_target {i c : Nat} (hc : (m.inherited i).target = some c) :
    m.kernelPml4Pa ≠ 0 ∧ 256 ≤ i ∧ i < 512 ∧ m.child m.kernelPml4Pa i = some c := by
  unfold Mmu.inherited at hc
  split at hc
  · rename_i hk
    exact ⟨hk.1, hk.2.1, hk.2.2, hc⟩
  · simp at hc

/-- A slot of a table after the creation, seen as a slot of a table before it. -/
theorem created_child (h : TreeInv m) (hlevel : ∀ t, m'.level t = if t = root then 4 else m.level t)
    (hmem : ∀ t i, m'.mem t i = if t = root then m.inherited i else m.mem t i) {t i c : Nat}
    (ht : 2 ≤ m'.level t) (hc : m'.child t i = some c) :
    ∃ p, 2 ≤ m.level p ∧ m.child p i = some c ∧ m'.level t = m.level p ∧
      (p = t ∧ t ≠ root ∨ t = root ∧ m.level p = 4 ∧ 256 ≤ i) := by
  rw [child_def, hmem] at hc
  rw [hlevel] at *
  by_cases he : t = root
  · rw [if_pos he] at hc ⊢
    obtain ⟨hk, h256, -, hc'⟩ := inherited_target hc
    have h4 := h.kernel_level hk
    exact ⟨m.kernelPml4Pa, by omega, hc', h4.symm, Or.inr ⟨he, h4, h256⟩⟩
  · rw [if_neg he] at hc ht ⊢
    exact ⟨t, ht, hc, rfl, Or.inl ⟨rfl, he⟩⟩

theorem createAddrSpace_spec (h : TreeInv m) (hc : m.createAddrSpace = some (root, m')) : Created m root m' := by
  obtain ⟨hr, hroom, hformat, hkernel, hphys, hlevel, hspaces, hmem⟩ :=
    createAddrSpace_eq h.phys.2 (fun i => h.untouched m.physNext i h.level_physNext) hc
  have hroot : m.level root = 0 := by
    rw [hr]
    exact h.level_physNext
  have hold : ∀ {t}, m.level t ≠ 0 → m'.level t = m.level t := fun {t} ht => by
    rw [hlevel, if_neg]
    intro he
    rw [he] at ht
    exact ht hroot
  refine ⟨⟨?_, fun r hs => ?_, fun t ht => ?_, fun t i ht => ?_, fun t i c ht hc => ?_,
    fun t i t' i' c ht ht' hc hc' => ?_, fun t ht ht' => ?_, fun hk => ?_⟩, hformat, hkernel,
    ⟨hr, hroot⟩, hphys, hlevel, hspaces, hmem⟩
  · rw [hphys]
    exact ⟨h.phys.1.add isPage_pageSize, hroom⟩
  · rw [hspaces] at hs
    rw [hlevel]
    split at hs
    · rename_i he
      rw [if_pos he]
    · rename_i he
      rw [if_neg he]
      exact h.roots r hs
  · rw [hphys]
    rw [hlevel] at ht ⊢
    split at ht
    · rename_i he
      rw [if_pos he, he, hr]
      exact ⟨h.phys.1, Nat.lt_add_of_pos_right (by decide), le_rfl⟩
    · rename_i he
      rw [if_neg he]
      obtain ⟨h1, h2, h3⟩ := h.table t ht
      exact ⟨h1, h2.trans (Nat.lt_add_of_pos_right (by decide)), h3⟩
  · rw [hlevel] at ht
    split at ht
    · simp at ht
    · rename_i he
      rw [hmem, if_neg he]
      exact h.untouched t i ht
  · obtain ⟨p, hp, hpc, hl, -⟩ := created_child h hlevel hmem ht hc
    rw [hold (h.child_ne_zero hp hpc), hl]
    exact h.child p i c hp hpc
  · obtain ⟨p, hp, hpc, hl, hcase⟩ := created_child h hlevel hmem ht hc
    obtain ⟨p', hp', hpc', hl', hcase'⟩ := created_child h hlevel hmem ht' hc'
    rw [hl, hl']
    rcases h.unique p i p' i' c hp hp' hpc hpc' with ⟨rfl, rfl⟩ | hshare
    · rcases hcase with ⟨rfl, -⟩ | ⟨rfl, h4, h256⟩
      · rcases hcase' with ⟨rfl, -⟩ | ⟨rfl, h4, h256⟩
        · exact Or.inl ⟨rfl, rfl⟩
        · exact Or.inr ⟨h4, h4, rfl, h256⟩
      · exact Or.inr ⟨h4, h4, rfl, h256⟩
    · exact Or.inr hshare
  · have ht₀ : m.level t ≠ 0 ∧ m.level t ≤ 3 := by
      rw [hlevel] at ht ht'
      split at ht
      · rename_i he
        rw [if_pos he] at ht'
        omega
      · rename_i he
        rw [if_neg he] at ht'
        exact ⟨ht, ht'⟩
    obtain ⟨p, i, hp, hpc⟩ := h.hung t ht₀.1 ht₀.2
    refine ⟨p, i, by rw [hold (by omega)]; exact hp, ?_⟩
    rw [child_def, hmem, if_neg]
    · exact hpc
    · intro he
      rw [he, hroot] at hp
      omega
  · rw [hspaces, hkernel]
    by_cases hk0 : m.kernelPml4Pa = 0
    · rw [if_pos hk0, if_pos rfl]
      rfl
    · rw [if_neg hk0]
      split
      · rfl
      · exact h.kernel hk0

theorem Created.pageTable (hc : Created m root m') (h : TreeInv m) {r : Nat}
    (hr : m.level r = 4) (va : Nat) : m'.pageTable r va = m.pageTable r va := by
  have hchild : ∀ t i, m.level t ≠ 0 → m'.child t i = m.child t i := by
    intro t i ht
    rw [child_def, hc.mem, if_neg]
    · rfl
    · intro he
      rw [he] at ht
      exact ht hc.base.2
  unfold Mmu.pageTable
  rw [hchild r _ (by omega)]
  cases h1 : m.child r (pml4Index va) with
  | none => rfl
  | some pdpt =>
    have hl1 := h.child r _ pdpt (by omega) h1
    rw [Option.bind_some, Option.bind_some, hchild pdpt _ (by omega)]
    cases h2 : m.child pdpt (pdptIndex va) with
    | none => rfl
    | some pd =>
      have hl2 := h.child pdpt _ pd (by omega) h2
      rw [Option.bind_some, Option.bind_some, hchild pd _ (by omega)]

theorem Created.leaf (hc : Created m root m') (h : TreeInv m) {r : Nat}
    (hr : m.level r = 4) (va : Nat) : m'.leaf r va = m.leaf r va := by
  unfold Mmu.leaf
  rw [hc.pageTable h hr va]
  cases hpt : m.pageTable r va with
  | none => rfl
  | some pt =>
    show m'.mem pt (ptIndex va) = m.mem pt (ptIndex va)
    have hl := h.pageTable_level hr hpt
    rw [hc.mem, if_neg]
    intro he
    rw [he, hc.base.2] at hl
    omega

theorem Created.leaf_new (hc : Created m root m') {va : Nat} (hva : pml4Index va < 256) : m'.leaf root va = {} := by
  have hchild : m'.child root (pml4Index va) = none := by
    rw [child_def, hc.mem, if_pos rfl]
    unfold Mmu.inherited
    rw [if_neg (by omega), target_empty]
  unfold Mmu.leaf Mmu.pageTable
  rw [hchild]
  rfl

theorem Created.pageTable_new (hc : Created m root m') (h : TreeInv m)
    {va : Nat} (hva : 256 ≤ pml4Index va) (hk : m.kernelPml4Pa ≠ 0) :
    m'.pageTable root va = m'.pageTable m.kernelPml4Pa va := by
  have hlt : pml4Index va < 512 := Nat.mod_lt _ (by decide)
  have h4 := h.kernel_level hk
  have hne : m.kernelPml4Pa ≠ root := by
    intro he
    rw [he, hc.base.2] at h4
    omega
  unfold Mmu.pageTable
  rw [child_def, child_def, hc.mem, hc.mem, if_pos rfl, if_neg hne]
  unfold Mmu.inherited
  rw [if_pos ⟨hk, hva, hlt⟩]

theorem Created.empty_first (hc : Created m root m') (va : Nat) (hk : m.kernelPml4Pa = 0) : m'.leaf root va = {} := by
  unfold Mmu.leaf Mmu.pageTable
  rw [child_def, hc.mem, if_pos rfl]
  unfold Mmu.inherited
  rw [if_neg fun hh => hh.1 hk]
  rfl

theorem init_treeInv (format : EntryFormat) : TreeInv (Mmu.init format) := by
  refine ⟨⟨show IsPage physBase by decide, show physBase ≤ physEnd by decide⟩, nofun,
    fun t ht => absurd rfl ht, fun _ _ _ => rfl, fun t i c ht => ?_, fun t i t' i' c ht => ?_,
    fun t ht => absurd rfl ht, fun hk => absurd rfl hk⟩
  · exact absurd ht (by show ¬ 2 ≤ 0; decide)
  · exact absurd ht (by show ¬ 2 ≤ 0; decide)

theorem first_space {format : EntryFormat}
    (hstep : step (Mmu.init format) .createAddrSpace = some m) {T : Nat} {t : AddrSpace}
    (ht : m.spaces T = some t) : T = physBase ∧ t = {} := by
  have hnone : ∀ T, (Mmu.init format).spaces T = none := fun _ => rfl
  rcases step_did (init_treeInv format).phys hstep with ⟨-, -, -, -, -, hc⟩ | ⟨root, -, hc⟩ |
    ⟨m₀, j, hj, -, -⟩ | ⟨root, va, size, hcall, -, -⟩ | ⟨root, va, size, prot, hcall, -, -⟩
  · rw [hc rfl, hnone] at ht
    simp at ht
  · have hcr := createAddrSpace_spec (init_treeInv format) hc
    rw [hcr.spaces] at ht
    split at ht
    · rename_i he
      exact ⟨he.trans hcr.base.1, (Option.some.inj ht).symm⟩
    · rw [hnone] at ht
      simp at ht
  · simp [Mmu.job] at hj
  · simp at hcall
  · simp at hcall

end Kernemul.X86
