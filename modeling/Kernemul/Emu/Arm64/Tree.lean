import Kernemul.Emu.Arm64.Mmu
import Kernemul.Lib.Radix

/-!
# The ARM64 tables are a forest

The tables are a radix tree whose words are the entries. A level for every frame is found along with the tables: 4 for
a root down to 1 for a table of pages, and 0 for the rest. `ensure_table` hangs empty tables into empty slots, and
`map_page`, `unmap_page` and `prot_virt` write one entry of a table of pages, which is that of one page of the user half
of one space.
-/

namespace Kernemul.Arm64

open Walk Radix
open X86 (vpn vpn_pageAlign)

/-! ## Entries -/

theorem descAddrMask_low : ∀ i < 12, descAddrMask.testBit i = false := by decide

theorem mask_testBit (x : Nat) {i : Nat} (hi : i < 12) : (x &&& descAddrMask).testBit i = false := by
  rw [Nat.testBit_and, descAddrMask_low i hi, Bool.and_false]

theorem attrs_mask {a : Nat} (ha : a < 2 ^ 12) : a &&& descAddrMask = 0 := by
  refine Nat.eq_of_testBit_eq fun i => ?_
  rw [Nat.testBit_and, Nat.zero_testBit]
  by_cases hi : i < 12
  · rw [descAddrMask_low i hi, Bool.and_false]
  · have hlt : a < 2 ^ i := Nat.lt_of_lt_of_le ha (Nat.pow_le_pow_right (by decide) (by omega))
    rw [Nat.testBit_lt_two_pow hlt, Bool.false_and]

theorem entry_mask (x : Nat) {a : Nat} (ha : a < 2 ^ 12) :
    (x &&& descAddrMask ||| a) &&& descAddrMask = x &&& descAddrMask := by
  rw [Nat.and_or_distrib_right, attrs_mask ha, Nat.or_zero, Nat.and_assoc, Nat.and_self]

theorem entry_testBit (x a : Nat) {i : Nat} (hi : i < 12) : (x &&& descAddrMask ||| a).testBit i = a.testBit i := by
  rw [Nat.testBit_or, mask_testBit x hi, Bool.false_or]

theorem odd_iff (w : Nat) : w % 2 = 1 ↔ w.testBit 0 = true := by rw [Nat.testBit_zero, decide_eq_true_eq]

theorem mask_of_isPage {x : Nat} (hx : IsPage x) : x &&& descAddrMask = x % 2 ^ 48 := by
  obtain ⟨n, rfl⟩ : ∃ n, x = 2 ^ 12 * n := ⟨x / 2 ^ 12, by unfold IsPage pageSize at hx; omega⟩
  have hmask : descAddrMask = 2 ^ 12 * (2 ^ 36 - 1) := by decide
  refine Nat.eq_of_testBit_eq fun i => ?_
  rw [hmask, Nat.testBit_and, Nat.testBit_two_pow_mul, Nat.testBit_two_pow_mul, Nat.testBit_two_pow_sub_one,
    Nat.testBit_mod_two_pow, Nat.testBit_two_pow_mul]
  by_cases hlow : 12 ≤ i
  · by_cases hhigh : i < 48
    · simp [hlow, hhigh, show i - 12 < 36 by omega]
    · simp [hlow, hhigh, show ¬ i - 12 < 36 by omega]
  · simp [hlow]

structure Page where
  frame : Nat
  el0 : Bool
  readOnly : Bool
  deriving DecidableEq, Repr

def decode (entry : Nat) : Option Page :=
  if entry % 2 = 1 then some ⟨entry &&& descAddrMask, entry.testBit 6, entry.testBit 7⟩ else none

theorem pageAttrs_lt (prot : MemProt) : pageAttrs prot < 2 ^ 12 := by
  unfold pageAttrs
  cases prot.supervisor <;> cases prot.write <;> decide

theorem pageAttrs_bits (prot : MemProt) : (pageAttrs prot).testBit 0 = true ∧
    (pageAttrs prot).testBit 6 = !prot.supervisor ∧ (pageAttrs prot).testBit 7 = !prot.write := by
  unfold pageAttrs
  cases prot.supervisor <;> cases prot.write <;> decide

theorem decode_of_bits {x a : Nat} (ha : a < 2 ^ 12) (hvalid : a.testBit 0 = true) :
    decode (x &&& descAddrMask ||| a) = some ⟨x &&& descAddrMask, a.testBit 6, a.testBit 7⟩ := by
  unfold decode
  rw [if_pos ((odd_iff _).mpr (by rw [entry_testBit x a (by decide), hvalid])), entry_mask x ha,
    entry_testBit x a (by decide), entry_testBit x a (by decide)]

theorem decode_pageAttrs (pa : Nat) (prot : MemProt) : decode (pa &&& descAddrMask ||| pageAttrs prot) =
    some ⟨pa &&& descAddrMask, !prot.supervisor, !prot.write⟩ := by
  obtain ⟨hvalid, hel0, hro⟩ := pageAttrs_bits prot
  rw [decode_of_bits (pageAttrs_lt prot) hvalid, hel0, hro]

/-- A reprotected page stays where it is and as reachable as it is. -/
def Page.reprot (prot : MemProt) (p : Page) : Page := { p with readOnly := !prot.write }

theorem decode_reprotEntry {entry : Nat} (prot : MemProt) (h : entry % 2 = 1) :
    decode (reprotEntry entry prot) = (decode entry).map (Page.reprot prot) := by
  have hel0 : descApEl0 = 2 ^ 6 := rfl
  have hkept : ∀ i, (pageAttrs prot &&& 2 ^ 64 - 1 - descApEl0 ||| entry &&& descApEl0).testBit i =
      ((pageAttrs prot).testBit i && (2 ^ 64 - 1 - descApEl0).testBit i || (entry.testBit i && decide (6 = i))) := by
    intro i
    rw [Nat.testBit_or, Nat.testBit_and, Nat.testBit_and, hel0, Nat.testBit_two_pow]
  obtain ⟨hvalid, -, hro⟩ := pageAttrs_bits prot
  have hlt : pageAttrs prot &&& 2 ^ 64 - 1 - descApEl0 ||| entry &&& descApEl0 < 2 ^ 12 :=
    Nat.or_lt_two_pow (Nat.lt_of_le_of_lt Nat.and_le_left (pageAttrs_lt prot))
      (Nat.lt_of_le_of_lt Nat.and_le_right (by decide))
  have h0 : (pageAttrs prot &&& 2 ^ 64 - 1 - descApEl0 ||| entry &&& descApEl0).testBit 0 = true := by
    rw [hkept 0, hvalid]
    rfl
  have hlow6 : (2 ^ 64 - 1 - descApEl0).testBit 6 = false := by decide
  have hlow7 : (2 ^ 64 - 1 - descApEl0).testBit 7 = true := by decide
  have h6 : (pageAttrs prot &&& 2 ^ 64 - 1 - descApEl0 ||| entry &&& descApEl0).testBit 6 = entry.testBit 6 := by
    rw [hkept 6, hlow6, Bool.and_false, Bool.false_or, show decide ((6 : Nat) = 6) = true from rfl, Bool.and_true]
  have h7 : (pageAttrs prot &&& 2 ^ 64 - 1 - descApEl0 ||| entry &&& descApEl0).testBit 7 = !prot.write := by
    rw [hkept 7, hro, hlow7, Bool.and_true, show decide ((6 : Nat) = 7) = false from rfl, Bool.and_false, Bool.or_false]
  unfold reprotEntry
  rw [decode_of_bits hlt h0, h6, h7, decode, if_pos h]
  rfl

/-! ## Tables -/

def words : Words Nat Nat where
  empty := 0
  lead entry := if entry % 2 = 1 then some (entry &&& descAddrMask) else none
  lead_empty := rfl

def Shared (i : Nat) : Prop := 256 ≤ i ∧ i < 512

def path (va : Nat) : List Nat := [l0Index va, l1Index va, l2Index va]

def Mmu.word (m : Mmu) (root va : Nat) : Nat := find words m.mem root (path va) (l3Index va)

def Mmu.page (m : Mmu) (root va : Nat) : Option Page := decode (m.word root va)

structure TreeInv (m : Mmu) (level : Nat → Nat) : Prop where
  forest : Forest words 4 Shared m.mem level
  phys : IsPage m.physNext ∧ physBase ≤ m.physNext ∧ m.physNext ≤ physEnd
  table : ∀ t, level t ≠ 0 → physBase ≤ t ∧ t < m.physNext
  roots : ∀ r, (m.spaces r).isSome → level r = 4
  kernel : m.kernelTtbrPa ≠ 0 → level m.kernelTtbrPa = 4

theorem vpn_eq_iff {va va' : Nat} : vpn va = vpn va' ↔ path va = path va' ∧ l3Index va = l3Index va' := by
  unfold vpn path l0Index l1Index l2Index l3Index pageSize
  simp only [List.cons.injEq, and_true]
  omega

theorem word_congr (m : Mmu) (root : Nat) {va va' : Nat} (h : vpn va = vpn va') : m.word root va = m.word root va' := by
  obtain ⟨hpath, hl3⟩ := vpn_eq_iff.mp h
  rw [Mmu.word, Mmu.word, hpath, hl3]

theorem page_congr (m : Mmu) (root : Nat) {va va' : Nat} (h : vpn va = vpn va') : m.page root va = m.page root va' :=
  congrArg decode (word_congr m root h)

theorem step_eq (m : Mmu) (t i : Nat) : m.step t i = (Radix.step words m.mem t i).getD 0 := by
  unfold Mmu.step Radix.step words
  dsimp only
  split
  · rfl
  · rfl

variable {m m' : Mmu} {level level' : Nat → Nat}

theorem TreeInv.ne_zero (h : TreeInv m level) {t : Nat} (ht : level t ≠ 0) : t ≠ 0 := by
  have := (h.table t ht).1
  unfold X86.physBase at this
  omega

theorem TreeInv.child (h : TreeInv m level) {t i c : Nat} (ht : 2 ≤ level t)
    (hc : Radix.step words m.mem t i = some c) : m.step t i = c ∧ c ≠ 0 ∧ level c + 1 = level t := by
  refine ⟨by rw [step_eq, hc]; rfl, h.ne_zero (h.forest.child_ne_zero ht hc), h.forest.child t i c ht hc⟩

theorem TreeInv.walkToL3 (h : TreeInv m level) {root : Nat} (hroot : level root = 4) (va : Nat) :
    m.walkToL3 root va = (walk (Radix.step words m.mem) root (path va)).getD 0 := by
  unfold Mmu.walkToL3 path
  simp only [walk_cons, walk_nil]
  cases h0 : Radix.step words m.mem root (l0Index va) with
  | none => rw [step_eq m root, h0, Option.getD_none, if_pos rfl, Option.bind_none, Option.getD_none]
  | some l1 =>
    obtain ⟨he1, hne1, hl1⟩ := h.child (by omega) h0
    rw [he1, Option.bind_some, if_neg hne1]
    cases h1 : Radix.step words m.mem l1 (l1Index va) with
    | none => rw [step_eq m l1, h1, Option.getD_none, if_pos rfl, Option.bind_none, Option.getD_none]
    | some l2 =>
      obtain ⟨he2, hne2, -⟩ := h.child (by omega) h1
      rw [he2, Option.bind_some, if_neg hne2, step_eq]
      cases Radix.step words m.mem l2 (l2Index va) with
      | none => rfl
      | some l3 => rfl

theorem TreeInv.walk_cases (h : TreeInv m level) {root : Nat} (hroot : level root = 4) (va : Nat) :
    (m.walkToL3 root va = 0 ∧ m.word root va = 0) ∨
      (m.walkToL3 root va ≠ 0 ∧ walk (Radix.step words m.mem) root (path va) = some (m.walkToL3 root va) ∧
        level (m.walkToL3 root va) = 1 ∧ m.word root va = m.mem (m.walkToL3 root va) (l3Index va)) := by
  rw [h.walkToL3 hroot va]
  unfold Mmu.word find
  cases hw : walk (Radix.step words m.mem) root (path va) with
  | none => exact .inl ⟨rfl, rfl⟩
  | some l3 =>
    have hlevel : level l3 + 3 = level root := h.forest.level_walk (by rw [hroot]; exact Nat.lt_succ_self 3) hw
    have hone : level l3 = 1 := by omega
    exact .inr ⟨h.ne_zero (show level l3 ≠ 0 by omega), rfl, hone, rfl⟩

theorem TreeInv.translateVirt (h : TreeInv m level) {root : Nat} (hroot : level root = 4) (va : Nat) :
    m.translateVirt root va = (m.page root va).map Page.frame := by
  unfold Mmu.translateVirt Mmu.page decode
  rcases h.walk_cases hroot va with ⟨hzero, hword⟩ | ⟨hne, -, -, hword⟩
  · rw [hzero, if_pos rfl, hword]
    rfl
  · rw [if_neg hne, hword]
    dsimp only
    split
    · rfl
    · rfl

/-! ## What stays -/

structure Kept (m : Mmu) (level : Nat → Nat) (m' : Mmu) (level' : Nat → Nat) : Prop
    extends Keeps words m.mem level m'.mem level' where
  inv : TreeInv m' level'
  old : ∀ t, level' t = 4 → level t = 4

theorem Kept.refl (h : TreeInv m level) : Kept m level m level :=
  ⟨.of_step h.forest fun _ _ _ => rfl, h, fun _ ht => ht⟩

theorem Kept.trans {m₁ : Mmu} {level₁ : Nat → Nat} (h : Kept m level m₁ level₁) (h' : Kept m₁ level₁ m' level') :
    Kept m level m' level' := ⟨h.toKeeps.trans h'.toKeeps, h'.inv, fun t ht => h.old t (h'.old t ht)⟩

def Quiet (m : Mmu) (level : Nat → Nat) (m' : Mmu) : Prop := ∀ r va, level r = 4 → m'.word r va = m.word r va

theorem Quiet.trans {m₁ m₂ : Mmu} {level₁ : Nat → Nat} (h : Quiet m level m₁) (hk : Kept m level m₁ level₁)
    (h' : Quiet m₁ level₁ m₂) : Quiet m level m₂ := fun r va hr => by
  rw [h' r va (by rw [hk.kept r (by omega)]; exact hr), h r va hr]

/-! ## `ensure_table` -/

theorem sizeAlign_pageSize : sizeAlign pageSize = pageSize := by decide

theorem allocPhys_page (m : Mmu) (hle : m.physNext ≤ physEnd) : m.allocPhys pageSize = none ∨
    m.physNext + pageSize ≤ physEnd ∧
      m.allocPhys pageSize = some (m.physNext, { m with physNext := m.physNext + pageSize }) := by
  unfold Mmu.allocPhys
  rw [sizeAlign_pageSize]
  dsimp only
  split
  · exact .inl rfl
  · exact .inr ⟨by omega, rfl⟩

theorem lead_table {child : Nat} (hpage : IsPage child) (hlt : child < physEnd) :
    words.lead (child &&& descAddrMask ||| descValid ||| descTable) = some child := by
  have hor : child &&& descAddrMask ||| descValid ||| descTable = child &&& descAddrMask ||| 3 := Nat.or_assoc ..
  show (if _ then _ else _) = _
  rw [hor, if_pos ((odd_iff _).mpr (entry_testBit child 3 (by decide))), entry_mask child (by decide),
    mask_of_isPage hpage, Nat.mod_eq_of_lt]
  unfold X86.physEnd X86.physBase X86.physSize at hlt
  omega

theorem TreeInv.level_physNext (h : TreeInv m level) : level m.physNext = 0 := by
  by_contra hne
  exact Nat.lt_irrefl _ (h.table m.physNext hne).2

/-- `ensure_table` answers the table in the slot, a new one where there was none, and changes no page. -/
theorem ensureTable_spec (h : TreeInv m level) {table : Nat} (index : Nat) (ht : 2 ≤ level table) :
    ∃ level', Kept m level (m.ensureTable table index).1 level' ∧ Quiet m level (m.ensureTable table index).1 ∧
      ∀ c, (m.ensureTable table index).2 = some c →
        Radix.step words (m.ensureTable table index).1.mem table index = some c := by
  unfold Mmu.ensureTable
  dsimp only
  by_cases hvalid : m.mem table index % 2 = 1
  · rw [if_pos hvalid]
    exact ⟨level, .refl h, fun _ _ _ => rfl, fun c hc => by rw [Radix.step, ← hc]; exact if_pos hvalid⟩
  · rw [if_neg hvalid]
    rcases allocPhys_page m h.phys.2.2 with hnone | ⟨hroom, hsome⟩
    · rw [hnone]
      exact ⟨level, .refl h, fun _ _ _ => rfl, fun c hc => absurd hc.symm (Option.some_ne_none c)⟩
    · rw [hsome]
      have hempty : Radix.step words m.mem table index = none := if_neg hvalid
      have hlead := lead_table h.phys.1 (show m.physNext < physEnd by unfold pageSize at hroom; omega)
      have hfresh := h.level_physNext
      have hgrown := h.forest.hang_grown hfresh hlead ht hempty
      refine ⟨Function.update level m.physNext (level table - 1), ⟨hgrown.toKeeps,
        ⟨?_, ?_, fun t hl => ?_, fun r hr => ?_, fun hk => ?_⟩, fun t ht4 => ?_⟩,
        fun r va hr => hgrown.finds r (path va) (l3Index va) hr, fun c hc => ?_⟩
      · exact h.forest.hang hfresh hlead ht
      · exact ⟨h.phys.1.add isPage_pageSize, Nat.le_trans h.phys.2.1 (Nat.le_add_right ..), hroom⟩
      · show X86.physBase ≤ t ∧ t < m.physNext + pageSize
        by_cases he : t = m.physNext
        · rw [he]
          exact ⟨h.phys.2.1, Nat.lt_add_of_pos_right (by decide)⟩
        · rw [Function.update_of_ne he] at hl
          exact ⟨(h.table t hl).1, Nat.lt_add_right _ (h.table t hl).2⟩
      · have hl := h.roots r hr
        rw [hgrown.kept r (by omega), hl]
      · show Function.update level m.physNext (level table - 1) m.kernelTtbrPa = 4
        rw [hgrown.kept _ (by rw [h.kernel hk]; decide), h.kernel hk]
      · by_cases he : t = m.physNext
        · rw [he, Function.update_self] at ht4
          have := h.forest.bounded table
          omega
        · rwa [Function.update_of_ne he] at ht4
      · obtain rfl := Option.some.inj hc
        show Radix.step words (Radix.set m.mem table index _) table index = _
        rw [step_set, if_pos ⟨rfl, rfl⟩]
        exact hlead

end Kernemul.Arm64
