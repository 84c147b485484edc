import Kernemul.Emu.Arm64.Mmu
import Kernemul.Emu.X86.Cursor

/-!
# Allocations that fail (`addr_space::alloc`, x86 and ARM64)

`alloc` moves a cursor and has `map_virt` map the pages there. `map_virt` throws when guest memory runs out,
for its block or for a table half way through; nothing is taken back. The cursor has no end either: the sum
wraps, and so does the size when it is rounded up.
-/

namespace Kernemul

open Budget

/-- What is asked of `alloc`: when it throws, all is as it was; when it returns, the range lies in the half. -/
structure AllocExact (threw unchanged : Prop) (half : Nat × Nat) (va size : Nat) : Prop where
  atomic : threw → unchanged
  inside : ¬ threw → ∀ i < size, half.1 ≤ va + i ∧ va + i < half.2

def FitsHalf (half : Nat × Nat) (va size : Nat) : Prop := size = 0 ∨ (half.1 ≤ va ∧ va + size ≤ half.2)

theorem fitsHalf_iff {half : Nat × Nat} {va size : Nat} :
    FitsHalf half va size ↔ ∀ i < size, half.1 ≤ va + i ∧ va + i < half.2 := by
  unfold FitsHalf
  constructor
  · rintro (rfl | ⟨hlo, hhi⟩) i hi
    · omega
    · omega
  · intro h
    by_cases hz : size = 0
    · exact Or.inl hz
    · have hfirst := h 0 (by omega)
      have hlast := h (size - 1) (by omega)
      exact Or.inr (by omega)

/-- When what is thrown over never is as it was, `AllocExact` comes down to not throwing. -/
theorem allocExact_iff {threw unchanged room : Prop} {half : Nat × Nat} {va size : Nat}
    (hroom : room ↔ ¬ threw) (hchanged : threw → ¬ unchanged) :
    AllocExact threw unchanged half va size ↔ room ∧ FitsHalf half va size := by
  rw [hroom, fitsHalf_iff]
  constructor
  · intro h
    have hnot : ¬ threw := fun ht => hchanged ht (h.atomic ht)
    exact ⟨hnot, h.inside hnot⟩
  · exact fun ⟨hnot, hin⟩ => ⟨fun ht => absurd ht hnot, fun _ => hin⟩

theorem advance_ne {s : X86.AddrSpace} {prot : MemProt} {size : Nat} (h : X86.pages size ≠ 0) :
    ((s.advance prot (sizeAlign size)).kernelNext, (s.advance prot (sizeAlign size)).userNext) ≠
      (s.kernelNext, s.userNext) := by
  have hpos : 0 < sizeAlign size := by
    unfold X86.pages at h
    by_contra hz
    exact h (by rw [show sizeAlign size = 0 by omega]; rfl)
  have hlt : sizeAlign size < 2 ^ 64 := lt_of_le_of_lt (Nat.sub_le _ _) (Nat.mod_lt _ (by decide))
  have hmove : ∀ c, wrap (c + sizeAlign size) ≠ c := by
    intro c
    unfold wrap
    omega
  unfold X86.AddrSpace.advance
  cases prot.supervisor with
  | true => exact fun heq => hmove _ (Prod.mk.inj heq).1
  | false => exact fun heq => hmove _ (Prod.mk.inj heq).2

theorem X86.pages_sizeAlign (size : Nat) : X86.pages (sizeAlign size) = X86.pages size := by
  unfold X86.pages
  rw [X86.sizeAlign_idem]

/-- After a cursor has moved by a page or more, `AllocExact` comes down to not throwing. -/
theorem allocExact_moved {threw same room : Prop} {half : Nat × Nat} {va size : Nat} {prot : MemProt}
    {s : X86.AddrSpace} {old new : Option (Nat × Nat)} (hroom : room ↔ ¬ threw)
    (hpages : threw → X86.pages size ≠ 0) (hold : old = some (s.kernelNext, s.userNext))
    (hnew : new = some ((s.advance prot (sizeAlign size)).kernelNext, (s.advance prot (sizeAlign size)).userNext)) :
    AllocExact threw (new = old ∧ same) half va size ↔ room ∧ FitsHalf half va size := by
  refine allocExact_iff hroom fun hthrew hsame => ?_
  have heq := hnew.symm.trans (hsame.1.trans hold)
  exact advance_ne (hpages hthrew) (Option.some.inj heq)

/-! ## x86 -/

namespace X86

def Mmu.free (m : Mmu) : Nat := physEnd - m.physNext

/-- What `ensure_table` takes: a frame for a table that is not there. -/
def tableCost (table index : Nat) (m : Mmu) : Nat := if (m.mem table index).present then 0 else pageSize

def pathCost (root va : Nat) (user : Bool) : Mmu → Nat :=
  andThenCost (fun m => m.ensureTable root (pml4Index va) user) (tableCost root (pml4Index va)) fun pdpt =>
    andThenCost (fun m => m.ensureTable pdpt (pdptIndex va) user) (tableCost pdpt (pdptIndex va)) fun pd =>
      tableCost pd (pdIndex va)

/-- Guest memory has room for the block of a range, and then for every table that is not there when the turn
comes to the page that needs it. -/
def Mmu.RoomFor (m : Mmu) (root va size : Nat) (prot : MemProt) : Prop :=
  ∃ pa m₁, m.allocPhys (sizeAlign size) = some (pa, m₁) ∧
    loopCost (fun k m => m.mapPage root (pageOf (pageAlign va) k) (pageOf pa k) prot)
      (fun k => pathCost root (pageAlign (pageOf (pageAlign va) k)) !prot.supervisor) (pages size) 0 m₁ ≤ m₁.free

def half (prot : MemProt) : Nat × Nat := if prot.supervisor then (2 ^ 64 - 2 ^ 47, 2 ^ 64) else (0, 2 ^ 47)

theorem allocPhys_free {m m' : Mmu} {size pa : Nat} (h : m.allocPhys size = some (pa, m')) :
    m'.free + sizeAlign size = m.free := by
  unfold Mmu.allocPhys at h
  simp only at h
  split at h
  · cases h
  · obtain ⟨-, rfl⟩ := Prod.mk.inj (Option.some.inj h)
    unfold Mmu.free
    simp only
    omega

theorem allocPhys_none {m : Mmu} {size : Nat} : m.allocPhys size = none ↔ m.free < sizeAlign size := by
  unfold Mmu.allocPhys Mmu.free
  simp only
  split
  · simp only [true_iff]
    omega
  · simp only [reduceCtorEq, false_iff]
    omega

theorem ensureTable_answers (table index : Nat) (user : Bool) :
    Answers Mmu.free (fun m => m.ensureTable table index user) (tableCost table index) := by
  intro m
  unfold tableCost Mmu.ensureTable
  by_cases hp : (m.mem table index).present
  · simp only [hp, if_true]
    refine ⟨⟨fun _ => Nat.zero_le _, fun _ => rfl⟩, fun _ => ?_⟩
    split
    · rfl
    · rfl
  · simp only [hp]
    cases ha : m.allocPhys pageSize with
    | none =>
      have := allocPhys_none.mp ha
      rw [sizeAlign_pageSize] at this
      simp
      omega
    | some r =>
      obtain ⟨child, m'⟩ := r
      have hfree := allocPhys_free ha
      rw [sizeAlign_pageSize] at hfree
      refine ⟨⟨fun _ => ?_, fun _ => rfl⟩, fun _ => hfree⟩
      simp
      omega

theorem ensurePath_andThen (root va : Nat) (user : Bool) (m : Mmu) : m.ensurePath root va user =
    andThen (fun m => m.ensureTable root (pml4Index va) user) (fun pdpt =>
      andThen (fun m => m.ensureTable pdpt (pdptIndex va) user) fun pd m => m.ensureTable pd (pdIndex va) user)
      m := by
  unfold Mmu.ensurePath
  cases h1 : m.ensureTable root (pml4Index va) user with
  | mk m₁ r =>
    cases r with
    | none => rw [andThen_none h1]
    | some pdpt =>
      rw [andThen_some h1]
      cases h2 : m₁.ensureTable pdpt (pdptIndex va) user with
      | mk m₂ r =>
        cases r with
        | none =>
          rw [andThen_none h2]
          simp only [h2]
        | some pd =>
          rw [andThen_some h2]
          simp only [h2]

theorem ensurePath_answers (root va : Nat) (user : Bool) :
    Answers Mmu.free (fun m => m.ensurePath root va user) (pathCost root va user) := by
  have h := Priced.andThen (ensureTable_answers root (pml4Index va) user) fun pdpt =>
    Priced.andThen (ensureTable_answers pdpt (pdptIndex va) user) fun pd =>
      ensureTable_answers pd (pdIndex va) user
  intro m
  have := h m
  simp only [← ensurePath_andThen] at this
  exact this

theorem mapPage_priced (root va pa : Nat) (prot : MemProt) :
    Priced Mmu.free (fun m => (m.mapPage root va pa prot).1) (fun m => (m.mapPage root va pa prot).2)
      (pathCost root (pageAlign va) !prot.supervisor) := by
  intro m
  have h := ensurePath_answers root (pageAlign va) (!prot.supervisor) m
  unfold Mmu.mapPage
  cases he : m.ensurePath root (pageAlign va) (!prot.supervisor) with
  | mk m₁ r =>
    simp only [he] at h ⊢
    cases r with
    | none => exact h
    | some pt => exact h

theorem mapLoop_eq (root start pa : Nat) (prot : MemProt) : ∀ n k m, mapLoop root start pa prot n k m =
    loop (fun k m => m.mapPage root (pageOf start k) (pageOf pa k) prot) n k m := by
  intro n
  induction n with
  | zero => exact fun _ _ => rfl
  | succ n ih =>
    intro k m
    rw [mapLoop, loop]
    cases m.mapPage root (pageOf start k) (pageOf pa k) prot with
    | mk m₁ b =>
      cases b with
      | false => rfl
      | true => exact ih (k + 1) m₁

theorem pages_of_room {m : Mmu} {size : Nat} (h : m.allocPhys (sizeAlign size) = none) : 0 < pages size := by
  have hlt := allocPhys_none.mp h
  rw [sizeAlign_idem] at hlt
  by_contra hz
  rw [← pages_mul, show pages size = 0 by omega] at hlt
  omega

theorem mapVirt_room (m : Mmu) (root va size : Nat) (prot : MemProt) :
    m.RoomFor root va size prot ↔ ¬ (m.mapVirt root va size prot).2 < pages size := by
  unfold Mmu.RoomFor Mmu.mapVirt
  cases ha : m.allocPhys (sizeAlign size) with
  | none =>
    have hpos := pages_of_room ha
    constructor
    · rintro ⟨pa, m₁, h, -⟩
      cases h
    · exact fun h => absurd hpos h
  | some r =>
    obtain ⟨pa, m₁⟩ := r
    have hend := Priced.loop_end (fun k => mapPage_priced root (pageOf (pageAlign va) k) (pageOf pa k) prot)
      (pages size) m₁
    simp only [mapLoop_eq]
    rw [← hend]
    constructor
    · rintro ⟨pa', m', h, hle⟩
      obtain ⟨rfl, rfl⟩ := Prod.mk.inj (Option.some.inj h)
      exact hle
    · exact fun hle => ⟨pa, m₁, rfl, hle⟩

/-! ### The cursors -/

theorem ensureTable_spaces (m : Mmu) (table index : Nat) (user : Bool) :
    (m.ensureTable table index user).1.spaces = m.spaces := by
  unfold Mmu.ensureTable
  simp only
  split
  · split
    · rfl
    · rfl
  · cases ha : m.allocPhys pageSize with
    | none => rfl
    | some r =>
      unfold Mmu.allocPhys at ha
      simp only at ha
      split at ha
      · cases ha
      · obtain rfl := Option.some.inj ha
        rfl

theorem mapPage_anyCursors (m : Mmu) (root va pa : Nat) (prot : MemProt) (r : Nat) :
    (m.mapPage root va pa prot).1.cursors r = m.cursors r := by
  have hpath : (m.ensurePath root (pageAlign va) (!prot.supervisor)).1.spaces = m.spaces := by
    rw [ensurePath_andThen]
    exact andThen_keeps Mmu.spaces (fun m => ensureTable_spaces m _ _ _) fun pdpt _ =>
      andThen_keeps Mmu.spaces (fun m => ensureTable_spaces m _ _ _) fun pd m => ensureTable_spaces m _ _ _
  cases he : m.ensurePath root (pageAlign va) (!prot.supervisor) with
  | mk m₁ p =>
    rw [he] at hpath
    have hcur : m₁.cursors r = m.cursors r := by
      unfold Mmu.cursors
      rw [hpath]
    cases p with
    | none =>
      simp only [Mmu.mapPage, he]
      exact hcur
    | some pt =>
      simp only [Mmu.mapPage, he]
      exact (setPage_cursors m₁ root (pageAlign va) pt (leafEntry m₁ pa prot) (some pa) r).trans hcur

theorem frames_cursors (m : Mmu) (n r : Nat) : ({ m with physNext := n } : Mmu).cursors r = m.cursors r := rfl

theorem mapVirt_cursors (m : Mmu) (root va size : Nat) (prot : MemProt) (r : Nat) :
    (m.mapVirt root va size prot).1.cursors r = m.cursors r := by
  unfold Mmu.mapVirt
  cases ha : m.allocPhys (sizeAlign size) with
  | none => rfl
  | some a =>
    obtain ⟨pa, m₁⟩ := a
    have hspaces : m₁.cursors r = m.cursors r := by
      unfold Mmu.allocPhys at ha
      simp only at ha
      split at ha
      · cases ha
      · rw [← (Prod.mk.inj (Option.some.inj ha)).2]
        exact frames_cursors m _ r
    have hloop := loop_keeps (fun m : Mmu => m.cursors r)
      (f := fun k m => m.mapPage root (pageOf (pageAlign va) k) (pageOf pa k) prot)
      (fun k m => mapPage_anyCursors m root _ _ prot r) (pages size) 0 m₁
    simp only
    rw [mapLoop_eq, hloop, hspaces]

theorem moved_cursors {m : Mmu} {root : Nat} {s : AddrSpace} (hs : m.spaces root = some s) (size : Nat)
    (prot : MemProt) : (m.moved root size prot).cursors root =
      some ((s.advance prot (sizeAlign size)).kernelNext, (s.advance prot (sizeAlign size)).userNext) := by
  unfold Mmu.cursors Mmu.moved Mmu.updateSpace
  simp only [hs, if_true]
  rfl

theorem alloc_exact_iff {m m' : Mmu} {root size va k : Nat} {prot : MemProt} {s : AddrSpace}
    (hs : m.spaces root = some s) (ha : m.alloc root size prot = some (va, m', k)) :
    AllocExact (k < pages size)
        (m'.cursors root = m.cursors root ∧ ∀ page, m'.resolve root page = m.resolve root page)
        (half prot) va size ↔
      (m.moved root size prot).RoomFor root (s.cursor prot) (sizeAlign size) prot ∧
        FitsHalf (half prot) (s.cursor prot) size := by
  rw [alloc_eq hs] at ha
  obtain ⟨rfl, hmap⟩ := Prod.mk.inj (Option.some.inj ha)
  have hroom := mapVirt_room (m.moved root size prot) root (s.cursor prot) (sizeAlign size) prot
  have hcur := mapVirt_cursors (m.moved root size prot) root (s.cursor prot) (sizeAlign size) prot root
  rw [hmap, pages_sizeAlign] at hroom
  rw [hmap, moved_cursors hs] at hcur
  refine allocExact_moved hroom (by omega) ?_ hcur
  unfold Mmu.cursors
  rw [hs]
  rfl

end X86

/-! ## ARM64 -/

namespace Arm64

def Mmu.free (m : Mmu) : Nat := physEnd - m.physNext

/-- What `ensure_table` takes: a frame for a table that is not there. -/
def tableCost (table index : Nat) (m : Mmu) : Nat := if m.mem table index % 2 = 1 then 0 else pageSize

def pathCost (root va : Nat) : Mmu → Nat :=
  andThenCost (Mmu.ensureTable root (l0Index va)) (tableCost root (l0Index va)) fun l1 =>
    andThenCost (Mmu.ensureTable l1 (l1Index va)) (tableCost l1 (l1Index va)) fun l2 =>
      tableCost l2 (l2Index va)

/-- Guest memory has room for the block of a range, and then for every table that is not there when the turn
comes to the page that needs it. -/
def Mmu.RoomFor (m : Mmu) (root va size : Nat) (prot : MemProt) : Prop :=
  ∃ pa m₁, m.allocPhys (sizeAlign size) = some (pa, m₁) ∧
    loopCost (fun k m => m.mapPage root (pageOf (pageAlign va) k) (pageOf pa k) { prot with write := true })
      (fun k => pathCost root (pageAlign (pageOf (pageAlign va) k))) (pages size) 0 m₁ ≤ m₁.free

/-- The half for a protection: `T0SZ` and `T1SZ` are 16. -/
def half (prot : MemProt) : Nat × Nat := if prot.supervisor then (2 ^ 64 - 2 ^ 48, 2 ^ 64) else (0, 2 ^ 48)

def Mmu.cursors (m : Mmu) (root : Nat) : Option (Nat × Nat) :=
  (m.spaces root).map fun t => (t.kernelNext, t.userNext)

def Mmu.moved (m : Mmu) (root size : Nat) (prot : MemProt) : Mmu :=
  m.updateSpace root fun s => s.advance prot (sizeAlign size)

theorem allocPhys_cases (m : Mmu) (size : Nat) :
    (m.free < sizeAlign size ∧ m.allocPhys size = none) ∨
      (sizeAlign size ≤ m.free ∧
        m.allocPhys size = some (m.physNext, { m with physNext := m.physNext + sizeAlign size })) := by
  unfold Mmu.allocPhys Mmu.free
  simp only
  by_cases h : sizeAlign size > physEnd - m.physNext
  · rw [if_pos h]
    exact Or.inl ⟨h, rfl⟩
  · rw [if_neg h]
    exact Or.inr ⟨Nat.le_of_not_lt h, rfl⟩

theorem ensureTable_cases (table index : Nat) (m : Mmu) :
    (tableCost table index m = 0 ∧ ∃ c, Mmu.ensureTable table index m = (m, some c)) ∨
      (m.free < pageSize ∧ tableCost table index m = pageSize ∧ Mmu.ensureTable table index m = (m, none)) ∨
      (pageSize ≤ m.free ∧ tableCost table index m = pageSize ∧ ∃ e, Mmu.ensureTable table index m =
        (({ m with physNext := m.physNext + pageSize } : Mmu).writeEntry table index e, some m.physNext)) := by
  unfold tableCost Mmu.ensureTable
  simp only
  by_cases hp : m.mem table index % 2 = 1
  · rw [if_pos hp, if_pos hp]
    exact Or.inl ⟨rfl, _, rfl⟩
  · rw [if_neg hp, if_neg hp]
    have h := allocPhys_cases m pageSize
    rw [X86.sizeAlign_pageSize] at h
    rcases h with ⟨hfull, ha⟩ | ⟨hroom, ha⟩
    · rw [ha]
      exact Or.inr (Or.inl ⟨hfull, rfl, rfl⟩)
    · rw [ha]
      exact Or.inr (Or.inr ⟨hroom, rfl, _, rfl⟩)

theorem ensureTable_answers (table index : Nat) :
    Answers Mmu.free (Mmu.ensureTable table index) (tableCost table index) := by
  intro m
  rcases ensureTable_cases table index m with ⟨hc, c, he⟩ | ⟨hfull, hc, he⟩ | ⟨hroom, hc, e, he⟩
  · rw [hc]
    simp only [he]
    exact ⟨⟨fun _ => Nat.zero_le _, fun _ => rfl⟩, fun _ => rfl⟩
  · rw [hc]
    simp only [he]
    exact ⟨⟨fun h => absurd h Bool.false_ne_true, fun h => absurd h (Nat.not_le.mpr hfull)⟩,
      fun h => absurd h Bool.false_ne_true⟩
  · rw [hc]
    simp only [he]
    refine ⟨⟨fun _ => hroom, fun _ => rfl⟩, fun _ => ?_⟩
    unfold Mmu.free at hroom ⊢
    simp only [Mmu.writeEntry]
    omega

theorem ensureTable_spaces (table index : Nat) (m : Mmu) :
    (Mmu.ensureTable table index m).1.spaces = m.spaces := by
  rcases ensureTable_cases table index m with ⟨-, c, he⟩ | ⟨-, -, he⟩ | ⟨-, -, e, he⟩
  · rw [he]
  · rw [he]
  · rw [he]
    rfl

@[simp] theorem writeEntry_free (m : Mmu) (table index entry : Nat) :
    (m.writeEntry table index entry).free = m.free := rfl

@[simp] theorem updateSpace_free (m : Mmu) (root : Nat) (f : AddrSpace → AddrSpace) :
    (m.updateSpace root f).free = m.free := rfl

theorem mapPage_priced (root va pa : Nat) (prot : MemProt) :
    Priced Mmu.free (fun m => (m.mapPage root va pa prot).1) (fun m => (m.mapPage root va pa prot).2)
      (pathCost root (pageAlign va)) := by
  intro m
  have h := Priced.andThen (ensureTable_answers root (l0Index (pageAlign va))) (fun l1 =>
    Priced.andThen (ensureTable_answers l1 (l1Index (pageAlign va))) fun l2 =>
      ensureTable_answers l2 (l2Index (pageAlign va))) m
  cases he : Mmu.ensurePath root (pageAlign va) m with
  | mk m₁ r =>
    have he' := he
    unfold Mmu.ensurePath at he'
    simp only [he'] at h
    cases r with
    | none =>
      simp only [Mmu.mapPage, he]
      exact h
    | some l3 =>
      simp only [Mmu.mapPage, he, updateSpace_free, writeEntry_free]
      exact ⟨⟨fun _ => h.1.mp rfl, fun _ => trivial⟩, fun _ => h.2 rfl⟩

theorem setPage_cursors (m : Mmu) (root v l3 e : Nat) (shadow : Option Nat) (r : Nat) :
    ((m.writeEntry l3 (l3Index v) e).updateSpace root fun s =>
      { s with shadow := Function.update s.shadow v shadow }).cursors r = m.cursors r := by
  show (if r = root then (m.spaces r).map _ else m.spaces r).map _ = (m.spaces r).map _
  split
  · rw [Option.map_map]
    rfl
  · rfl

theorem mapPage_cursors (m : Mmu) (root va pa : Nat) (prot : MemProt) (r : Nat) :
    (m.mapPage root va pa prot).1.cursors r = m.cursors r := by
  have hpath : (Mmu.ensurePath root (pageAlign va) m).1.spaces = m.spaces :=
    andThen_keeps Mmu.spaces (ensureTable_spaces _ _) fun _ _ =>
      andThen_keeps Mmu.spaces (ensureTable_spaces _ _) fun _ => ensureTable_spaces _ _
  cases he : Mmu.ensurePath root (pageAlign va) m with
  | mk m₁ p =>
    rw [he] at hpath
    have hcur : m₁.cursors r = m.cursors r := by
      unfold Mmu.cursors
      rw [hpath]
    cases p with
    | none =>
      simp only [Mmu.mapPage, he]
      exact hcur
    | some l3 =>
      simp only [Mmu.mapPage, he]
      exact (setPage_cursors m₁ root (pageAlign va) l3 _ (some pa) r).trans hcur

theorem mapVirt_room (m : Mmu) (root va size : Nat) (prot : MemProt) :
    m.RoomFor root va size prot ↔ ¬ (m.mapVirt root va size prot).2 < pages size := by
  unfold Mmu.RoomFor Mmu.mapVirt
  rcases allocPhys_cases m (sizeAlign size) with ⟨hfull, ha⟩ | ⟨hroom, ha⟩
  · rw [ha]
    have hpos : 0 < pages size := by
      rw [X86.sizeAlign_idem] at hfull
      by_contra hz
      rw [← X86.pages_mul, show pages size = 0 by omega] at hfull
      omega
    constructor
    · rintro ⟨pa, m₁, h, -⟩
      cases h
    · exact fun h => absurd hpos h
  · have hend := Priced.loop_end (fun k => mapPage_priced root (pageOf (pageAlign va) k) (pageOf m.physNext k)
      { prot with write := true }) (pages size) { m with physNext := m.physNext + sizeAlign (sizeAlign size) }
    rw [ha]
    constructor
    · rintro ⟨pa', m', h, hle⟩
      obtain ⟨rfl, rfl⟩ := Prod.mk.inj (Option.some.inj h)
      exact hend.mp hle
    · exact fun h => ⟨_, _, rfl, hend.mpr h⟩

theorem frames_cursors (m : Mmu) (n r : Nat) : ({ m with physNext := n } : Mmu).cursors r = m.cursors r := rfl

theorem mapVirt_cursors (m : Mmu) (root va size : Nat) (prot : MemProt) (r : Nat) :
    (m.mapVirt root va size prot).1.cursors r = m.cursors r := by
  unfold Mmu.mapVirt
  rcases allocPhys_cases m (sizeAlign size) with ⟨-, ha⟩ | ⟨-, ha⟩
  · rw [ha]
  · have hloop := loop_keeps (fun m : Mmu => m.cursors r)
      (f := fun k m' => m'.mapPage root (pageOf (pageAlign va) k) (pageOf m.physNext k) { prot with write := true })
      (fun k m' => mapPage_cursors m' root _ _ _ r) (pages size) 0
      { m with physNext := m.physNext + sizeAlign (sizeAlign size) }
    rw [ha]
    simp only [mapLoop]
    rw [hloop]
    exact frames_cursors m _ r

theorem moved_cursors {m : Mmu} {root : Nat} {s : AddrSpace} (hs : m.spaces root = some s) (size : Nat)
    (prot : MemProt) : (m.moved root size prot).cursors root =
      some ((s.advance prot (sizeAlign size)).kernelNext, (s.advance prot (sizeAlign size)).userNext) := by
  unfold Mmu.cursors Mmu.moved Mmu.updateSpace
  simp only [hs, if_true]
  rfl

theorem alloc_exact_iff {m m' : Mmu} {root size va k : Nat} {prot : MemProt} {s : AddrSpace}
    (hs : m.spaces root = some s) (ha : m.alloc root size prot = some (va, m', k)) :
    AllocExact (k < pages size)
        (m'.cursors root = m.cursors root ∧ ∀ page, m'.resolve root page = m.resolve root page)
        (half prot) va size ↔
      (m.moved root size prot).RoomFor root (s.cursor prot) (sizeAlign size) prot ∧
        FitsHalf (half prot) (s.cursor prot) size := by
  rw [Mmu.alloc, hs] at ha
  obtain ⟨rfl, hmap⟩ := Prod.mk.inj (Option.some.inj ha)
  have hroom := mapVirt_room (m.moved root size prot) root (s.cursor prot) (sizeAlign size) prot
  have hcur := mapVirt_cursors (m.moved root size prot) root (s.cursor prot) (sizeAlign size) prot root
  rw [show (m.moved root size prot).mapVirt root (s.cursor prot) (sizeAlign size) prot = _ from hmap]
    at hroom hcur
  rw [X86.pages_sizeAlign] at hroom
  rw [moved_cursors hs] at hcur
  refine allocExact_moved hroom (by omega) ?_ hcur
  unfold Mmu.cursors
  rw [hs]
  rfl

end Arm64

/-- **`alloc` is atomic and stays in its half** exactly when guest memory has room for all it needs and the
range from the cursor lies in the half. -/
theorem alloc_atomic_iff (root size va k : Nat) (prot : MemProt) (s : X86.AddrSpace) :
    (∀ m m' : X86.Mmu, m.spaces root = some s → m.alloc root size prot = some (va, m', k) →
      (AllocExact (k < X86.pages size)
          (m'.cursors root = m.cursors root ∧ ∀ page, m'.resolve root page = m.resolve root page)
          (X86.half prot) va size ↔
        (m.moved root size prot).RoomFor root (s.cursor prot) (sizeAlign size) prot ∧
          FitsHalf (X86.half prot) (s.cursor prot) size)) ∧
    ∀ m m' : Arm64.Mmu, m.spaces root = some s → m.alloc root size prot = some (va, m', k) →
      (AllocExact (k < X86.pages size)
          (m'.cursors root = m.cursors root ∧ ∀ page, m'.resolve root page = m.resolve root page)
          (Arm64.half prot) va size ↔
        (m.moved root size prot).RoomFor root (s.cursor prot) (sizeAlign size) prot ∧
          FitsHalf (Arm64.half prot) (s.cursor prot) size) :=
  ⟨fun _ _ hs ha => X86.alloc_exact_iff hs ha, fun _ _ hs ha => Arm64.alloc_exact_iff hs ha⟩

def X86.firstSpace : X86.Mmu := ((X86.Mmu.init X86.pfn36).createAddrSpace.map Prod.snd).getD (X86.Mmu.init X86.pfn36)

def Arm64.firstSpace : Arm64.Mmu := (Arm64.Mmu.init.createAddrSpace.map Prod.snd).getD Arm64.Mmu.init

theorem firstSpace_atomic :
    (∃ va m' k, X86.firstSpace.alloc X86.physBase 0x3000 protRw = some (va, m', k) ∧
      AllocExact (k < X86.pages 0x3000) (m'.cursors X86.physBase = X86.firstSpace.cursors X86.physBase ∧
        ∀ page, m'.resolve X86.physBase page = X86.firstSpace.resolve X86.physBase page)
        (X86.half protRw) va 0x3000) ∧
    ∃ va m' k, Arm64.firstSpace.alloc X86.physBase 0x3000 protRw = some (va, m', k) ∧
      AllocExact (k < X86.pages 0x3000) (m'.cursors X86.physBase = Arm64.firstSpace.cursors X86.physBase ∧
        ∀ page, m'.resolve X86.physBase page = Arm64.firstSpace.resolve X86.physBase page)
        (Arm64.half protRw) va 0x3000 := by
  constructor
  · refine ⟨_, _, _, rfl, ((alloc_atomic_iff _ _ _ _ _ {}).1 _ _ rfl rfl).mpr ⟨⟨_, _, rfl, ?_⟩, ?_⟩⟩
    · decide +kernel
    · exact Or.inr (by decide +kernel)
  · refine ⟨_, _, _, rfl, ((alloc_atomic_iff _ _ _ _ _ {}).2 _ _ rfl rfl).mpr ⟨⟨_, _, rfl, ?_⟩, ?_⟩⟩
    · decide +kernel
    · exact Or.inr (by decide +kernel)

/-- A page more than there is moves the cursor and throws; a size that is rounded up to 0 is answered with a
range that runs past the end of the half. -/
theorem firstSpace_not_atomic :
    (∃ va m' k, X86.firstSpace.alloc X86.physBase 0x100001000 protRw = some (va, m', k) ∧
      ¬ AllocExact (k < X86.pages 0x100001000) (m'.cursors X86.physBase = X86.firstSpace.cursors X86.physBase ∧
        ∀ page, m'.resolve X86.physBase page = X86.firstSpace.resolve X86.physBase page)
        (X86.half protRw) va 0x100001000) ∧
    (∃ va m' k, X86.firstSpace.alloc X86.physBase (2 ^ 64 - 1) protRw = some (va, m', k) ∧
      ¬ AllocExact (k < X86.pages (2 ^ 64 - 1)) (m'.cursors X86.physBase = X86.firstSpace.cursors X86.physBase ∧
        ∀ page, m'.resolve X86.physBase page = X86.firstSpace.resolve X86.physBase page)
        (X86.half protRw) va (2 ^ 64 - 1)) ∧
    (∃ va m' k, Arm64.firstSpace.alloc X86.physBase 0x100001000 protRw = some (va, m', k) ∧
      ¬ AllocExact (k < X86.pages 0x100001000) (m'.cursors X86.physBase = Arm64.firstSpace.cursors X86.physBase ∧
        ∀ page, m'.resolve X86.physBase page = Arm64.firstSpace.resolve X86.physBase page)
        (Arm64.half protRw) va 0x100001000) ∧
    (∃ va m' k, Arm64.firstSpace.alloc X86.physBase (2 ^ 64 - 1) protRw = some (va, m', k) ∧
      ¬ AllocExact (k < X86.pages (2 ^ 64 - 1)) (m'.cursors X86.physBase = Arm64.firstSpace.cursors X86.physBase ∧
        ∀ page, m'.resolve X86.physBase page = Arm64.firstSpace.resolve X86.physBase page)
        (Arm64.half protRw) va (2 ^ 64 - 1)) := by
  refine ⟨⟨_, _, _, rfl, fun h => ?_⟩, ⟨_, _, _, rfl, fun h => ?_⟩, ⟨_, _, _, rfl, fun h => ?_⟩,
    ⟨_, _, _, rfl, fun h => ?_⟩⟩
  · exact absurd (h.atomic (by decide +kernel)).1 (by decide +kernel)
  · exact absurd (h.inside (by decide +kernel) (2 ^ 64 - 2) (by decide)).2 (by decide +kernel)
  · exact absurd (h.atomic (by decide +kernel)).1 (by decide +kernel)
  · exact absurd (h.inside (by decide +kernel) (2 ^ 64 - 2) (by decide)).2 (by decide +kernel)

end Kernemul
