import Kernemul.Win.Pool.Model

/-!
# The pool's blocks tile its runs

Cutting and joining free blocks changes neither the addresses covered nor the live blocks (`Recut`), so
an allocation only turns one free block live and a `free` one live block free. `PoolInv` ties the blocks
to the runs reserved and to the allocations the callers have not freed, and every call keeps it.
-/

namespace Kernemul.Pool

open Segments

/-! ## Rounding -/

section Rounding
variable {al : Nat} (hal : al = poolAlignment ∨ al = pageSize)
include hal

theorem alignUp_eq (a : Nat) :
    alignUp a al = wrap (a + (al - 1)) - wrap (a + (al - 1)) % al := by
  rcases hal with rfl | rfl
  · exact alignMask_low a (k := 4) (by decide)
  · exact alignMask_low a (k := 12) (by decide)

theorem alignUp_spec {a : Nat} (h : a + (al - 1) < 2 ^ 64) :
    a ≤ alignUp a al ∧ alignUp a al < a + al ∧ alignUp a al % al = 0 := by
  rw [alignUp_eq hal, wrap_of_lt h]
  rcases hal with rfl | rfl
  · unfold poolAlignment
    omega
  · unfold pageSize
    omega

/-- A block that passes the test of `firstFit` has room at the aligned address; in particular that
address did not wrap. -/
theorem fits_of_test {base size needed : Nat} (hstop : base + size ≤ 2 ^ 64) (hpos : 0 < size)
    (hn : needed ≤ 2 ^ 64 - 0x2000) (hn0 : 0 < needed)
    (h : size ≥ wrap (wrap (alignUp base al + 2 ^ 64 - base) + needed)) :
    base ≤ alignUp base al ∧ alignUp base al % al = 0 ∧ alignUp base al + needed ≤ base + size := by
  rw [alignUp_eq hal] at *
  rcases hal with rfl | rfl
  · unfold poolAlignment wrap at *
    omega
  · unfold pageSize wrap at *
    omega

end Rounding

/-! ## Cutting and joining -/

/-- The blocks are in order, disjoint, 16-byte aligned and end at or below `2^64`. -/
structure WellFormed (l : Blocks) : Prop where
  valid : Valid l
  bound : ∀ b ∈ l, b.stop ≤ 2 ^ 64
  aligned : ∀ b ∈ l, b.base % poolAlignment = 0

/-- `l'` cuts the same addresses as `l`, with the same live blocks. -/
structure Recut (l l' : Blocks) : Prop where
  covers : ∀ x, Covers l' x ↔ Covers l x
  live : ∀ b : Seg Block, b.val.free = false → (b ∈ l' ↔ b ∈ l)

theorem Recut.refl (l : Blocks) : Recut l l := ⟨fun _ => Iff.rfl, fun _ _ => Iff.rfl⟩

theorem Recut.trans {l₁ l₂ l₃ : Blocks} (h : Recut l₁ l₂) (h' : Recut l₂ l₃) : Recut l₁ l₃ :=
  ⟨fun x => (h'.covers x).trans (h.covers x), fun b hb => (h'.live b hb).trans (h.live b hb)⟩

theorem Recut.symm {l l' : Blocks} (h : Recut l l') : Recut l' l :=
  ⟨fun x => (h.covers x).symm, fun b hb => (h.live b hb).symm⟩

section Pair
variable {A B : Blocks} {b n k : Nat} {u v w : Block} (hu : u.free = true) (hv : v.free = true)
  (hw : w.free = true)
include hu hv hw

theorem recut_pair : Recut (A ++ ⟨b, n + k, w⟩ :: B) (A ++ ⟨b, n, u⟩ :: ⟨b + n, k, v⟩ :: B) := by
  refine ⟨fun x => covers_pair, fun c hc => ?_⟩
  have hne : ∀ (a m : Nat) (q : Block), q.free = true → c ≠ ⟨a, m, q⟩ := by
    intro a m q hq heq
    rw [heq, hq] at hc
    simp at hc
  simp only [List.mem_append, List.mem_cons, hne _ _ u hu, hne _ _ v hv, hne _ _ w hw, false_or]

end Pair

variable {A B : Blocks} {v : Block}

theorem WellFormed.split {b n k : Nat} {u w : Block} (hn : 0 < n) (hk : 0 < k)
    (ha : (b + n) % poolAlignment = 0) (h : WellFormed (A ++ ⟨b, n + k, w⟩ :: B)) :
    WellFormed (A ++ ⟨b, n, u⟩ :: ⟨b + n, k, v⟩ :: B) := by
  have hs := h.bound ⟨b, n + k, w⟩ (by simp)
  have hb := h.aligned ⟨b, n + k, w⟩ (by simp)
  have hold : ∀ c ∈ A ++ ⟨b, n, u⟩ :: ⟨b + n, k, v⟩ :: B,
      c = ⟨b, n, u⟩ ∨ c = ⟨b + n, k, v⟩ ∨ c ∈ A ++ ⟨b, n + k, w⟩ :: B := by
    intro c hc
    rcases mem_exchange [⟨b, n, u⟩, ⟨b + n, k, v⟩] [⟨b, n + k, w⟩] hc with hnew | hold
    · simpa [or_assoc] using Or.inl hnew
    · exact Or.inr (Or.inr hold)
  refine ⟨(valid_pair hn hk).mpr h.valid, fun c hc => ?_, fun c hc => ?_⟩
  · simp only [Seg.stop] at hs
    rcases hold c hc with rfl | rfl | hc
    · simp only [Seg.stop]; omega
    · simp only [Seg.stop]; omega
    · exact h.bound c hc
  · rcases hold c hc with rfl | rfl | hc
    · exact hb
    · exact ha
    · exact h.aligned c hc

theorem WellFormed.join {b n k : Nat} {u w : Block} (h : WellFormed (A ++ ⟨b, n, u⟩ :: ⟨b + n, k, v⟩ :: B)) :
    WellFormed (A ++ ⟨b, n + k, w⟩ :: B) := by
  have hn := h.valid.pos ⟨b, n, u⟩ (by simp)
  have hk := h.valid.pos ⟨b + n, k, v⟩ (by simp)
  have hs := h.bound ⟨b + n, k, v⟩ (by simp)
  have hb := h.aligned ⟨b, n, u⟩ (by simp)
  have hold : ∀ c ∈ A ++ ⟨b, n + k, w⟩ :: B, c = ⟨b, n + k, w⟩ ∨
      c ∈ A ++ ⟨b, n, u⟩ :: ⟨b + n, k, v⟩ :: B :=
    fun c hc => (mem_exchange [_] [_, _] hc).imp_left List.mem_singleton.mp
  refine ⟨(valid_pair hn hk).mp h.valid, fun c hc => ?_, fun c hc => ?_⟩
  · rcases hold c hc with rfl | hc
    · simp only [Seg.stop] at hs ⊢; omega
    · exact h.bound c hc
  · rcases hold c hc with rfl | hc
    · exact hb
    · exact h.aligned c hc

variable {s : Seg Block}

theorem WellFormed.set (h : WellFormed (A ++ s :: B)) (v : Block) :
    WellFormed (A ++ { s with val := v } :: B) := by
  have hold : ∀ c ∈ A ++ { s with val := v } :: B,
      c = { s with val := v } ∨ c ∈ A ++ s :: B :=
    fun c hc => (mem_exchange [_] [_] hc).imp_left List.mem_singleton.mp
  refine ⟨(valid_set v).mpr h.valid, fun c hc => ?_, fun c hc => ?_⟩
  · rcases hold c hc with rfl | hc
    · exact h.bound s (by simp)
    · exact h.bound c hc
  · rcases hold c hc with rfl | hc
    · exact h.aligned s (by simp)
    · exact h.aligned c hc

theorem blockSize_at (h : Sorted (A ++ s :: B)) :
    blockSize (A ++ s :: B) s.base = s.size := by
  rw [blockSize, byKey_at h]
  rfl

theorem sorted_update {t : Seg Block} (h : Sorted (A ++ s :: B)) (ht : t.base = s.base) : Sorted (A ++ t :: B) := by
  rw [sorted_append] at h ⊢
  rwa [ht]

section Cut
variable {A B : Blocks} {s : Seg Block} {addr : Nat} (h : WellFormed (A ++ s :: B))
  (hfree : s.val.free = true)
include h hfree

theorem cutLead_spec (hlo : s.base ≤ addr) (hhi : addr < s.stop)
    (ha : addr % poolAlignment = 0) :
    ∃ A' v, cutLead (A ++ s :: B) s.base addr = (addr, A' ++ ⟨addr, s.stop - addr, v⟩ :: B) ∧
      v.free = true ∧ WellFormed (A' ++ ⟨addr, s.stop - addr, v⟩ :: B) ∧
      Recut (A ++ s :: B) (A' ++ ⟨addr, s.stop - addr, v⟩ :: B) := by
  have hsort := h.valid.sorted
  have hbound := h.bound s (by simp)
  have hlead : wrap (addr + 2 ^ 64 - s.base) = addr - s.base := by
    unfold wrap
    omega
  unfold cutLead
  simp only [hlead, blockSize_at hsort]
  obtain ⟨b, n, w⟩ := s
  simp only [Seg.stop] at *
  split
  · rename_i hpos
    have hn : n = (addr - b) + (b + n - addr) := by omega
    have hb : b + (addr - b) = addr := by omega
    refine ⟨A ++ [⟨b, addr - b, w⟩], {}, ?_, rfl, ?_, ?_⟩
    · have hB : ∀ c ∈ B, addr < c.base := fun c hc => by
        have := (valid_around.mp h.valid).2.2.2.2.1 c hc
        simp only [Seg.stop] at this
        omega
      have hsort' : Sorted (A ++ ⟨b, addr - b, w⟩ :: B) := sorted_update hsort rfl
      have hnew := emplace_after hsort' (u := ⟨addr, n - (addr - b), {}⟩) (by simp only; omega) hB
      rw [resize_at hsort, hnew, List.append_assoc, List.singleton_append]
      rw [show n - (addr - b) = b + n - addr by omega]
    · have := WellFormed.split (n := addr - b) (k := b + n - addr) (u := w) (v := {}) (w := w)
        hpos (by omega) (by rw [hb]; exact ha) (by rw [← hn]; exact h)
      rw [hb] at this
      simpa only [List.append_assoc, List.singleton_append] using this
    · have := recut_pair (A := A) (B := B) (b := b) (n := addr - b) (k := b + n - addr) (u := w)
        (v := {}) (w := w) hfree rfl hfree
      rw [hb, ← hn] at this
      simpa only [List.append_assoc, List.singleton_append] using this
  · obtain rfl : b = addr := by omega
    refine ⟨A, w, ?_, hfree, ?_, ?_⟩
    · rw [Nat.add_sub_cancel_left]
    · rw [Nat.add_sub_cancel_left]
      exact h
    · rw [Nat.add_sub_cancel_left]
      exact .refl _

end Cut

variable {addr : Nat}

theorem cutTail_spec {n needed : Nat}
    (h : WellFormed (A ++ ⟨addr, n, v⟩ :: B)) (hfree : v.free = true) (hpos : 0 < needed)
    (hle : needed ≤ n) (hal : needed % poolAlignment = 0) :
    ∃ B', cutTail (A ++ ⟨addr, n, v⟩ :: B) addr addr needed = A ++ ⟨addr, needed, v⟩ :: B' ∧
      WellFormed (A ++ ⟨addr, needed, v⟩ :: B') ∧
      Recut (A ++ ⟨addr, n, v⟩ :: B) (A ++ ⟨addr, needed, v⟩ :: B') := by
  have hsort := h.valid.sorted
  have hbound := h.bound ⟨addr, n, v⟩ (by simp)
  have hbase := h.aligned ⟨addr, n, v⟩ (by simp)
  have hsize : blockSize (A ++ ⟨addr, n, v⟩ :: B) addr = n := blockSize_at hsort
  unfold cutTail
  simp only [hsize, Seg.stop] at *
  split
  · rename_i hgt
    have hn : n = needed + (n - needed) := by omega
    have hw : wrap (addr + needed) = addr + needed := wrap_of_lt (by omega)
    have ha : (addr + needed) % poolAlignment = 0 := by
      unfold poolAlignment at *
      omega
    have hwf : WellFormed (A ++ ⟨addr, needed, v⟩ :: ⟨addr + needed, n - needed, {}⟩ :: B) :=
      WellFormed.split (w := v) hpos (by omega) ha (by rw [← hn]; exact h)
    refine ⟨⟨addr + needed, n - needed, {}⟩ :: B, ?_, hwf, ?_⟩
    · have hB : ∀ c ∈ B, addr + needed < c.base := fun c hc => by
        have := (valid_around.mp h.valid).2.2.2.2.1 c hc
        simp only [Seg.stop] at this
        omega
      have hnew := emplace_after hsort (u := ⟨addr + needed, n - needed, {}⟩) (by simp only; omega) hB
      have hsort' : Sorted (A ++ ⟨addr, n, v⟩ :: ⟨addr + needed, n - needed, {}⟩ :: B) :=
        sorted_update hwf.valid.sorted rfl
      rw [hw, hnew]
      exact resize_at hsort' needed
    · have := recut_pair (A := A) (B := B) (b := addr) (n := needed) (k := n - needed) (u := v)
        (v := {}) (w := v) hfree rfl hfree
      rwa [← hn] at this
  · obtain rfl : n = needed := by omega
    exact ⟨B, rfl, h, .refl _⟩

/-! ## Allocating -/

theorem firstFit_spec {alignment needed : Nat} {l : Blocks} {it : Nat}
    (h : firstFit alignment needed l = some (it, addr)) :
    ∃ s ∈ l, s.val.free = true ∧ it = s.base ∧ addr = alignUp s.base alignment ∧
      s.size ≥ wrap (wrap (addr + 2 ^ 64 - s.base) + needed) := by
  induction l with
  | nil => simp [firstFit] at h
  | cons cur rest ih =>
    rw [firstFit] at h
    split at h
    · obtain ⟨s, hs, hrest⟩ := ih h
      exact ⟨s, by simp [hs], hrest⟩
    · rename_i hfree
      simp only at h
      split at h
      · rename_i htest
        cases h
        exact ⟨cur, by simp, by simpa using hfree, rfl, rfl, htest⟩
      · obtain ⟨s, hs, hrest⟩ := ih h
        exact ⟨s, by simp [hs], hrest⟩

theorem alignmentFor_cases (size : Nat) :
    alignmentFor size = poolAlignment ∨ alignmentFor size = pageSize := by
  unfold alignmentFor
  split
  · exact Or.inr rfl
  · exact Or.inl rfl

/-- What the choice of a block promises: the blocks with it, and room in it at the address. -/
structure Chosen (blocks : Blocks) (new : Option (Seg Unit)) (al needed : Nat)
    (it addr : Nat) (l : Blocks) : Prop where
  wf : WellFormed l
  covers : ∀ x, Covers l x ↔ Covers blocks x ∨ Covers new.toList x
  live : ∀ b : Seg Block, b.val.free = false → (b ∈ l ↔ b ∈ blocks)
  room : ∃ s ∈ l, s.val.free = true ∧ s.base = it ∧ s.base ≤ addr ∧ addr + needed ≤ s.stop
  aligned : addr % al = 0

def RunOk (blocks : Blocks) (new : Option (Seg Unit)) : Prop :=
  ∀ run ∈ new, IsPage run.base ∧ run.stop ≤ 2 ^ 64 ∧
    (0 < run.size → ∀ b ∈ blocks, b.stop ≤ run.base ∨ run.stop ≤ b.base)

/-- The run reserved for a request of `needed` bytes when no block has room. -/
def runFor (blocks : Blocks) (al needed : Nat) (alloc : Option Nat) : Option (Seg Unit) :=
  if (firstFit al needed blocks).isSome then none
  else alloc.map fun base => ⟨base, alignUp (max (wrap (needed + al)) runSize) pageSize, ()⟩

theorem newRun_eq {size : Nat} (h0 : size ≠ 0) (blocks : Blocks) (alloc : Option Nat) :
    newRun blocks size alloc =
      runFor blocks (alignmentFor size) (alignUp size poolAlignment) alloc := by
  unfold newRun runFor
  simp only [h0, false_or]

variable {alloc : Option Nat}

theorem chooseBlock_spec {blocks : Blocks} (h : WellFormed blocks) {al needed : Nat}
    (hal : al = poolAlignment ∨ al = pageSize) (hn0 : 0 < needed) (hn : needed ≤ 2 ^ 64 - 0x2000)
    (halloc : RunOk blocks (runFor blocks al needed alloc)) {it : Nat}
    {l : Blocks} (hc : chooseBlock blocks al needed alloc = some (it, addr, l)) :
    Chosen blocks (runFor blocks al needed alloc) al needed it addr l := by
  have hal' : al ≤ 0x1000 := by
    rcases hal with rfl | rfl
    · decide
    · decide
  unfold chooseBlock at hc
  unfold runFor at halloc ⊢
  split at hc
  · rename_i it' addr' hfit
    cases hc
    obtain ⟨s, hs, hfree, rfl, rfl, htest⟩ := firstFit_spec hfit
    obtain ⟨h1, h2, h3⟩ := fits_of_test hal (h.bound s hs) (h.valid.pos s hs) hn hn0 htest
    rw [hfit]
    refine ⟨h, fun x => ?_, fun b _ => Iff.rfl, ⟨s, hs, hfree, rfl, h1, h3⟩, h2⟩
    simp [Covers]
  · rename_i hfit
    rw [hfit] at halloc ⊢
    unfold reserve at hc
    have hw : wrap (needed + al) = needed + al := wrap_of_lt (by omega)
    rw [hw] at hc halloc ⊢
    have hsize := alignUp_spec (Or.inr rfl : pageSize = poolAlignment ∨ pageSize = pageSize)
      (a := max (needed + al) runSize) (by unfold runSize pageSize; omega)
    generalize alignUp (max (needed + al) runSize) pageSize = reserved at *
    obtain ⟨hr1, -, hr3⟩ := hsize
    simp only [Option.map_map, Option.map_eq_some_iff, Function.comp_apply, Prod.mk.injEq] at hc
    obtain ⟨base, hb, rfl, rfl, rfl⟩ := hc
    subst hb
    have hrun := halloc ⟨base, reserved, ()⟩ rfl
    simp only [Seg.stop] at hrun
    obtain ⟨hpage, hfit', hdis⟩ := hrun
    have hrpos : 0 < reserved := by unfold runSize at hr1; omega
    have hdis := hdis hrpos
    have hne : ∀ t ∈ blocks, t.base ≠ base := fun t ht => by
      have := h.valid.pos t ht
      rcases hdis t ht with h1 | h1 <;> omega
    have hup := alignUp_spec hal (a := base) (by unfold runSize at hr1; omega)
    rw [emplace_of_free (s := ⟨base, reserved, {}⟩) hne]
    refine ⟨⟨h.valid.put hrpos hdis, fun b hb' => ?_, fun b hb' => ?_⟩, fun x => ?_, fun b hb' => ?_,
      ⟨⟨base, reserved, {}⟩, (mem_put (s := ⟨base, reserved, {}⟩) hne).mpr (Or.inl rfl), rfl, rfl,
        hup.1, ?_⟩, hup.2.2⟩
    · rcases (mem_put (s := ⟨base, reserved, {}⟩) hne).mp hb' with rfl | hb'
      · exact hfit'
      · exact h.bound b hb'
    · rcases (mem_put (s := ⟨base, reserved, {}⟩) hne).mp hb' with rfl | hb'
      · unfold IsPage pageSize at hpage
        unfold poolAlignment
        simp only
        omega
      · exact h.aligned b hb'
    · rw [covers_put (s := ⟨base, reserved, {}⟩) hne]
      simp only [Option.isSome_none, Bool.false_eq_true, if_false, Option.map_some, Option.toList_some]
      rw [covers_cons, or_comm]
      simp only [Covers, List.not_mem_nil, false_and, exists_false, or_false]
      rfl
    · rw [mem_put (s := ⟨base, reserved, {}⟩) hne]
      constructor
      · rintro (rfl | hb'')
        · simp at hb'
        · exact hb''
      · exact Or.inr
    · simp only [Seg.stop]
      omega

/-- An allocation covers what was covered and the run it reserved, and turns one block live. -/
structure Allocated (blocks : Blocks) (new : Option (Seg Unit)) (size : Nat) (tag : BitVec 32)
    (addr : Nat) (blocks' : Blocks) : Prop where
  wf : WellFormed blocks'
  covers : ∀ x, Covers blocks' x ↔ Covers blocks x ∨ Covers new.toList x
  live : ∃ needed, size ≤ needed ∧ ∀ b : Seg Block, b.val.free = false →
    (b ∈ blocks' ↔ b = ⟨addr, needed, ⟨size, tag, false⟩⟩ ∨ b ∈ blocks)
  fresh : ∀ b ∈ blocks, b.val.free = false → b.base ≠ addr
  page : pageSize ≤ size → IsPage addr

theorem allocate_spec {blocks : Blocks} (h : WellFormed blocks) {size : Nat} {tag : BitVec 32}
    {blocks' : Blocks} (h0 : size ≠ 0) (hlt : size < 2 ^ 64 - 0x2000)
    (halloc : RunOk blocks (newRun blocks size alloc)) (heq : allocate blocks size tag alloc = some (addr, blocks')) :
    Allocated blocks (newRun blocks size alloc) size tag addr blocks' := by
  have hal := alignmentFor_cases size
  obtain ⟨hneed1, hneed2, hneed3⟩ := alignUp_spec
    (Or.inl rfl : poolAlignment = poolAlignment ∨ poolAlignment = pageSize) (a := size)
    (by unfold poolAlignment; omega)
  have hneed2' : alignUp size poolAlignment ≤ 2 ^ 64 - 0x2000 := by
    unfold poolAlignment at *
    omega
  have hpage : pageSize ≤ size → alignmentFor size = pageSize := fun hle => if_pos hle
  unfold allocate at heq
  rw [if_neg h0] at heq
  rw [newRun_eq h0] at halloc ⊢
  generalize alignmentFor size = al at *
  generalize alignUp size poolAlignment = needed at *
  obtain ⟨⟨it, addr', l⟩, hchoose, hfin⟩ := Option.map_eq_some_iff.mp heq
  have hpos : 0 < needed := lt_of_lt_of_le (Nat.pos_of_ne_zero h0) hneed1
  have hch := chooseBlock_spec h hal hpos hneed2' halloc hchoose
  obtain ⟨s, hs, hfree, rfl, hlo, hhi⟩ := hch.room
  obtain ⟨A, B, rfl⟩ := List.append_of_mem hs
  have haddr : addr' % poolAlignment = 0 := by
    have := hch.aligned
    rcases hal with rfl | rfl
    · exact this
    · unfold pageSize at this
      unfold poolAlignment
      omega
  obtain ⟨A', v, hlead, hv, hwf₁, hre₁⟩ := cutLead_spec hch.wf hfree hlo
    (lt_of_lt_of_le (Nat.lt_add_of_pos_right hpos) hhi) haddr
  obtain ⟨B', htail, hwf₂, hre₂⟩ := cutTail_spec hwf₁ hv hpos (Nat.le_sub_of_add_le' hhi) hneed3
  have hcarve : carve (A ++ s :: B) s.base addr' needed size tag =
      A' ++ ⟨addr', needed, ⟨size, tag, false⟩⟩ :: B' := by
    simp only [carve, hlead, htail]
    exact modify_at hwf₂.valid.sorted _
  obtain ⟨rfl, rfl⟩ := Prod.mk.inj hfin
  rw [hcarve]
  have hre := hre₁.trans hre₂
  refine ⟨hwf₂.set _, fun x => ?_, ⟨needed, hneed1, fun b hb => ?_⟩, fun b hb hbf hbase => ?_,
    fun hle => ?_⟩
  · rw [covers_set ⟨size, tag, false⟩ (s := ⟨addr', needed, v⟩), hre.covers, hch.covers]
  · rw [← hch.live b hb, ← hre.live b hb]
    have hne : b ≠ ⟨addr', needed, v⟩ := by
      intro heq'
      rw [heq', hv] at hb
      simp at hb
    simp only [List.mem_append, List.mem_cons, hne, false_or]
    exact or_left_comm
  · -- a live block at the address would be the free block that was chosen
    have hbl := (hch.live b hbf).mpr hb
    have hblt := hch.wf.valid.base_lt_stop hbl
    rw [hch.wf.valid.eq_of_has hbl hs (a := addr') ⟨hbase.le, by omega⟩ ⟨hlo, by omega⟩, hfree] at hbf
    simp at hbf
  · have := hch.aligned
    rwa [hpage hle] at this

/-! ## Freeing -/

/-- Two free blocks touch at address `x`. -/
def TouchAt (l : Blocks) (x : Nat) : Prop :=
  ∃ s ∈ l, ∃ t ∈ l, s.val.free = true ∧ t.val.free = true ∧ s.stop = x ∧ t.base = x

/-- Joining two free blocks opens no new seam, and closes the one between them. -/
theorem touchAt_join {b n k : Nat} {u w : Block} (hu : u.free = true)
    (hv : v.free = true) {x : Nat} (h : TouchAt (A ++ ⟨b, n + k, w⟩ :: B) x) :
    TouchAt (A ++ ⟨b, n, u⟩ :: ⟨b + n, k, v⟩ :: B) x := by
  have hold : ∀ c ∈ A ++ ⟨b, n + k, w⟩ :: B, c.val.free = true →
      (∃ d ∈ A ++ ⟨b, n, u⟩ :: ⟨b + n, k, v⟩ :: B, d.val.free = true ∧ d.stop = c.stop) ∧
      (∃ d ∈ A ++ ⟨b, n, u⟩ :: ⟨b + n, k, v⟩ :: B, d.val.free = true ∧ d.base = c.base) := by
    intro c hc hcf
    by_cases hcw : c = ⟨b, n + k, w⟩
    · subst hcw
      refine ⟨⟨⟨b + n, k, v⟩, by simp, hv, ?_⟩, ⟨⟨b, n, u⟩, by simp, hu, rfl⟩⟩
      simp only [Seg.stop]
      omega
    · have hmem : c ∈ A ++ ⟨b, n, u⟩ :: ⟨b + n, k, v⟩ :: B :=
        (mem_exchange [_] [_, _] hc).resolve_left fun h => hcw (List.mem_singleton.mp h)
      exact ⟨⟨c, hmem, hcf, rfl⟩, ⟨c, hmem, hcf, rfl⟩⟩
  obtain ⟨s, hs, t, ht, hsf, htf, hsx, htx⟩ := h
  obtain ⟨⟨s', hs', hsf', hss⟩, -⟩ := hold s hs hsf
  obtain ⟨-, ⟨t', ht', htf', htb⟩⟩ := hold t ht htf
  exact ⟨s', hs', t', ht', hsf', htf', hss.trans hsx, htb.trans htx⟩

theorem TouchAt.not_inside {l : Blocks} (h : Valid l) {x : Nat} (ht : TouchAt l x)
    (hs : s ∈ l) : ¬ (s.base < x ∧ x < s.stop) := by
  rintro ⟨h1, h2⟩
  obtain ⟨-, -, t, ht, -, -, -, htx⟩ := ht
  have hpos := h.base_lt_stop ht
  have : s = t := h.eq_of_has hs ht (a := x) ⟨by omega, h2⟩ ⟨by omega, by omega⟩
  subst this
  omega

/-- What joining a free block with a neighbour promises; `seam` is the address where they would
touch. -/
structure Joined (l : Blocks) (seam : Nat) (l' : Blocks) : Prop where
  wf : WellFormed l'
  recut : Recut l l'
  touch : ∀ x, TouchAt l' x → TouchAt l x ∧ x ≠ seam

theorem joined_pair {b n k : Nat} {u w : Block}
    (h : WellFormed (A ++ ⟨b, n, u⟩ :: ⟨b + n, k, v⟩ :: B)) (hu : u.free = true)
    (hv : v.free = true) (hw : w.free = true) :
    Joined (A ++ ⟨b, n, u⟩ :: ⟨b + n, k, v⟩ :: B) (b + n) (A ++ ⟨b, n + k, w⟩ :: B) := by
  have hn : 0 < n := h.valid.pos ⟨b, n, u⟩ (by simp)
  have hk : 0 < k := h.valid.pos ⟨b + n, k, v⟩ (by simp)
  refine ⟨h.join, (recut_pair hu hv hw).symm, fun x hx => ⟨touchAt_join hu hv hx, fun hxe => ?_⟩⟩
  refine hx.not_inside h.join.valid (s := ⟨b, n + k, w⟩) (by simp) ⟨?_, ?_⟩
  · simp only
    omega
  · simp only [Seg.stop]
    omega

variable {f : Seg Block}

/-- A seam at the end of a block can only be with the block right behind it. -/
theorem touchAt_stop (h : WellFormed (A ++ f :: B))
    (htouch : TouchAt (A ++ f :: B) f.stop) : ∃ t B', B = t :: B' ∧ t.val.free = true ∧ f.stop = t.base := by
  obtain ⟨-, hvB, -, hA, hB, -⟩ := valid_around.mp h.valid
  have hfpos := h.valid.base_lt_stop (s := f) (by simp)
  obtain ⟨-, -, t, ht, -, htf, -, htx⟩ := htouch
  have htB : t ∈ B := by
    rcases List.mem_append.mp ht with ht | ht
    · have h1 := hA t ht
      have h2 := h.valid.base_lt_stop (s := t) (by simp [ht])
      omega
    · rcases List.mem_cons.mp ht with rfl | ht
      · omega
      · exact ht
  cases B with
  | nil => simp at htB
  | cons u B' =>
    have hu := hB u (by simp)
    have hup := hvB.base_lt_stop (s := u) (by simp)
    have hut : u.base ≤ t.base := by
      rcases List.mem_cons.mp htB with rfl | htB
      · exact le_rfl
      · have := (valid_cons.mp hvB).2.1 t htB
        omega
    obtain rfl : u = t := hvB.eq_of_has (by simp) htB (a := u.base) ⟨le_rfl, hup⟩
      ⟨by omega, by have := hvB.base_lt_stop htB; omega⟩
    exact ⟨u, B', rfl, htf, htx.symm⟩

/-- A seam at the start of a block can only be with the block right before it. -/
theorem touchAt_base (h : WellFormed (A ++ f :: B))
    (htouch : TouchAt (A ++ f :: B) f.base) : ∃ A' p, A = A' ++ [p] ∧ p.val.free = true ∧ p.stop = f.base := by
  obtain ⟨hvA, -, -, hA, hB, -⟩ := valid_around.mp h.valid
  have hfpos := h.valid.base_lt_stop (s := f) (by simp)
  obtain ⟨p, hp, -, -, hpf, -, hpx, -⟩ := htouch
  have hpp := h.valid.base_lt_stop hp
  have hpA : p ∈ A := by
    rcases List.mem_append.mp hp with hp | hp
    · exact hp
    · rcases List.mem_cons.mp hp with rfl | hp
      · omega
      · have := hB p hp
        omega
  obtain ⟨A', q, rfl⟩ : ∃ A' q, A = A' ++ [q] := by
    rcases List.eq_nil_or_concat A with rfl | ⟨A', q, rfl⟩
    · simp at hpA
    · exact ⟨A', q, by simp⟩
  have hq := hA q (by simp)
  have hqp := hvA.base_lt_stop (s := q) (by simp)
  have hle : p.stop ≤ q.stop := by
    rcases List.mem_append.mp hpA with hpA | hpA
    · have := (valid_append.mp hvA).2.2 p hpA q (by simp)
      omega
    · rw [List.mem_singleton.mp hpA]
  obtain rfl : p = q := hvA.eq_of_has hpA (by simp) (a := f.base - 1) ⟨by omega, by omega⟩
    ⟨by omega, by omega⟩
  exact ⟨A', p, rfl, hpf, hpx⟩

theorem joinNext_spec (h : WellFormed (A ++ f :: B)) (hfree : f.val.free = true) :
    ∃ n B', joinNext (A ++ f :: B) f.base = A ++ { f with size := n } :: B' ∧
      Joined (A ++ f :: B) f.stop (A ++ { f with size := n } :: B') := by
  have hsort := h.valid.sorted
  have hB := (valid_around.mp h.valid).2.2.2.2.1
  unfold joinNext
  rw [since_succ_at hsort, blockSize_at hsort]
  have hstop := h.bound f (by simp)
  have hfpos := h.valid.base_lt_stop (s := f) (by simp)
  cases B with
  | nil =>
    refine ⟨f.size, [], rfl, h, .refl _, fun x hx => ⟨hx, fun hxe => ?_⟩⟩
    obtain ⟨t, B', hB', -⟩ := touchAt_stop h (hxe ▸ hx)
    cases hB'
  | cons t B' =>
    have htbound := h.bound t (by simp)
    have htpos := h.valid.base_lt_stop (s := t) (by simp)
    simp only [List.head?_cons]
    split
    · rename_i htest
      obtain ⟨htf, hwrap⟩ := htest
      have htouch : t.base = f.stop := by
        have := hB t (by simp)
        unfold Seg.stop wrap at *
        omega
      refine ⟨f.size + t.size, B', ?_, ?_⟩
      · have hsort' : Sorted ((A ++ [{ f with size := f.size + t.size }]) ++ t :: B') := by
          rw [List.append_assoc]
          exact sorted_update hsort rfl
        rw [resize_at hsort]
        have := erase_at hsort'
        simpa only [List.append_assoc, List.singleton_append] using this
      · obtain ⟨fb, fn, fv⟩ := f
        obtain ⟨tb, tn, tv⟩ := t
        simp only [Seg.stop] at htouch
        subst htouch
        exact joined_pair h hfree htf hfree
    · rename_i htest
      refine ⟨f.size, t :: B', rfl, h, .refl _, fun x hx => ⟨hx, fun hxe => htest ?_⟩⟩
      obtain ⟨t', B'', hB', htf, htouch⟩ := touchAt_stop h (hxe ▸ hx)
      cases hB'
      refine ⟨htf, ?_⟩
      rw [← htouch]
      exact wrap_of_lt (by unfold Seg.stop at *; omega)

theorem joinPrev_spec (h : WellFormed (A ++ f :: B)) (hfree : f.val.free = true) :
    Joined (A ++ f :: B) f.base (joinPrev (A ++ f :: B) f.base) := by
  have hsort := h.valid.sorted
  have hA := (valid_around.mp h.valid).2.2.2.1
  have hbound := h.bound f (by simp)
  have hfpos := h.valid.base_lt_stop (s := f) (by simp)
  unfold joinPrev
  rw [below_at hsort, blockSize_at hsort]
  rcases List.eq_nil_or_concat A with rfl | ⟨A', p, rfl⟩
  · refine ⟨h, .refl _, fun x hx => ⟨hx, fun hxe => ?_⟩⟩
    obtain ⟨A', p, hA', -⟩ := touchAt_base h (hxe ▸ hx)
    simp at hA'
  · rw [List.concat_eq_append] at *
    have hpbound := h.bound p (by simp)
    simp only [List.getLast?_append, List.getLast?_singleton, Option.some_or]
    split
    · rename_i htest
      obtain ⟨hpf, hwrap⟩ := htest
      have htouch : f.base = p.stop := by
        have := hA p (by simp)
        unfold Seg.stop wrap at *
        omega
      have hlist : A' ++ [p] ++ f :: B = A' ++ p :: f :: B := by simp
      rw [hlist] at h hsort ⊢
      have hsort' : Sorted ((A' ++ [{ p with size := p.size + f.size }]) ++ f :: B) := by
        rw [List.append_assoc]
        exact sorted_update hsort rfl
      have herase := erase_at hsort'
      simp only [List.append_assoc, List.singleton_append] at herase
      rw [resize_at hsort, herase]
      obtain ⟨fb, fn, fv⟩ := f
      obtain ⟨pb, pn, pv⟩ := p
      simp only [Seg.stop] at htouch
      subst htouch
      exact joined_pair h hpf hfree hpf
    · rename_i htest
      refine ⟨h, .refl _, fun x hx => ⟨hx, fun hxe => htest ?_⟩⟩
      obtain ⟨A'', q, hA', hqf, htouch⟩ := touchAt_base h (hxe ▸ hx)
      obtain ⟨-, rfl⟩ : A' = A'' ∧ p = q := by simpa using hA'
      refine ⟨hqf, ?_⟩
      rw [← htouch]
      exact wrap_of_lt (by unfold Seg.stop at *; omega)

/-- What a successful `free` promises. -/
structure Freed (blocks : Blocks) (s : Seg Block) (blocks' : Blocks) : Prop where
  wf : WellFormed blocks'
  covers : ∀ x, Covers blocks' x ↔ Covers blocks x
  live : ∀ b : Seg Block, b.val.free = false → (b ∈ blocks' ↔ b ∈ blocks ∧ b.base ≠ s.base)
  touch : ∀ x, TouchAt blocks' x → TouchAt blocks x

/-- `free` fails and changes nothing, or gives the live block at the address up. -/
theorem free_cases {blocks : Blocks} (h : WellFormed blocks) (addr : Nat) :
    (free blocks addr = (none, blocks) ∧ ∀ b ∈ blocks, b.val.free = false → b.base ≠ addr) ∨
    ∃ s ∈ blocks, s.base = addr ∧ s.val.free = false ∧
      (free blocks addr).1 = some (s.val.requested, s.val.tag) ∧
      Freed blocks s (free blocks addr).2 := by
  unfold free
  cases hget : byKey blocks addr with
  | none =>
    refine Or.inl ⟨rfl, fun b hb _ heq => ?_⟩
    unfold byKey at hget
    rw [List.find?_eq_none] at hget
    simpa [heq] using hget b hb
  | some s =>
    obtain ⟨hs, hbase⟩ := byKey_eq_some hget
    obtain ⟨A, B, rfl⟩ := List.append_of_mem hs
    have hsort := h.valid.sorted
    cases hfree : s.val.free with
    | true =>
      refine Or.inl ⟨by simp [hfree], fun b hb hbf heq => ?_⟩
      have hb' := h.valid.base_lt_stop hb
      have hs' := h.valid.base_lt_stop hs
      rw [h.valid.eq_of_has hb hs (a := addr) ⟨heq.le, by omega⟩ ⟨hbase.le, by omega⟩, hfree] at hbf
      simp at hbf
    | false =>
      refine Or.inr ⟨s, hs, hbase, hfree, by simp [hfree], ?_⟩
      subst hbase
      simp only [hfree, Bool.false_eq_true, if_false]
      rw [modify_at hsort]
      have hwf : WellFormed (A ++ { s with val := { s.val with free := true } } :: B) := h.set _
      obtain ⟨n, B', hnext, hj₁⟩ := joinNext_spec hwf rfl
      have hj₂ := joinPrev_spec hj₁.wf rfl
      simp only at hnext hj₁ hj₂
      rw [hnext]
      have hre := hj₁.recut.trans hj₂.recut
      refine ⟨hj₂.wf, fun x => ?_, fun b hb => ?_, fun x hx => ?_⟩
      · rw [hre.covers, covers_set]
      · rw [hre.live b hb]
        have hne : b ≠ { s with val := { s.val with free := true } } := by
          intro heq
          rw [heq] at hb
          simp at hb
        simp only [List.mem_append, List.mem_cons, hne, false_or]
        constructor
        · rintro (hbA | hbB)
          · exact ⟨Or.inl hbA, ne_of_mem_left hsort hbA⟩
          · exact ⟨Or.inr (Or.inr hbB), ne_of_mem_right hsort hbB⟩
        · rintro ⟨hbA | rfl | hbB, hbne⟩
          · exact Or.inl hbA
          · exact absurd rfl hbne
          · exact Or.inr hbB
      · obtain ⟨hx₁, hne₁⟩ := hj₂.touch x hx
        obtain ⟨⟨p, hp, q, hq, hpf, hqf, hpx, hqx⟩, hne₂⟩ := hj₁.touch x hx₁
        have hold : ∀ c ∈ A ++ { s with val := { s.val with free := true } } :: B,
            c ≠ { s with val := { s.val with free := true } } → c ∈ A ++ s :: B :=
          fun c hc hcne => (mem_exchange [_] [_] hc).resolve_left fun h => hcne (List.mem_singleton.mp h)
        refine ⟨p, hold p hp ?_, q, hold q hq ?_, hpf, hqf, hpx, hqx⟩
        · rintro rfl
          exact hne₂ hpx.symm
        · rintro rfl
          exact hne₁ hqx.symm

/-! ## The invariant -/

/-- The blocks tile the runs, and the live ones are the allocations not yet freed. -/
structure PoolInv (w : World) : Prop where
  wf : WellFormed w.blocks
  tile : ∀ x, Covers w.blocks x ↔ Covers w.runs x
  fits : ∀ b ∈ w.blocks, b.val.free = false →
    b.val.requested ≤ b.size ∧ (pageSize ≤ b.val.requested → IsPage b.base)
  live : ∀ addr info, w.live.lookup addr = some info ↔
    ∃ b ∈ w.blocks, b.base = addr ∧ b.val.free = false ∧ (b.val.requested, b.val.tag) = info

theorem init_poolInv : PoolInv World.init := by
  refine ⟨⟨Valid.nil, by simp [World.init], by simp [World.init]⟩, fun x => ?_, by simp [World.init],
    fun addr info => ?_⟩
  · simp [World.init, Covers]
  · simp [World.init]

theorem PoolInv.runOk {w : World} (h : PoolInv w) {size : Nat} {tag : BitVec 32}
    (hok : (Call.allocate size tag alloc).Ok w) : RunOk w.blocks (newRun w.blocks size alloc) := by
  intro run hrun
  obtain ⟨hpage, hfit, hdis⟩ := hok.2 run hrun
  refine ⟨hpage, hfit, fun hn b hb => ?_⟩
  have hpos := h.wf.valid.base_lt_stop hb
  have hrpos : run.base < run.stop := by unfold Seg.stop; omega
  by_contra hcon
  obtain ⟨old, hold, h1, h2⟩ : Covers w.runs (max b.base run.base) :=
    (h.tile _).mp ⟨b, hb, le_max_left _ _, by omega⟩
  rcases hdis old hold with h3 | h3 <;> omega

theorem step_poolInv {w w' : World} {call : Call} (h : PoolInv w) (hok : call.Ok w)
    (hstep : step w call = some w') : PoolInv w' := by
  cases call with
  | allocate size tag alloc =>
    rw [step, Option.map_eq_some_iff] at hstep
    obtain ⟨⟨addr, blocks'⟩, heq, rfl⟩ := hstep
    by_cases h0 : size = 0
    · subst h0
      cases heq
      exact h
    · have hal := allocate_spec h.wf h0 hok.1 (h.runOk hok) heq
      obtain ⟨needed, hle, hlive⟩ := hal.live
      have hnew : (⟨addr, needed, ⟨size, tag, false⟩⟩ : Seg Block) ∈ blocks' :=
        (hlive _ rfl).mpr (Or.inl rfl)
      refine ⟨hal.wf, fun x => ?_, fun b hb hbf => ?_, fun a info => ?_⟩
      · rw [hal.covers, h.tile, covers_append, or_comm]
      · rcases (hlive b hbf).mp hb with rfl | hb
        · exact ⟨hle, hal.page⟩
        · exact h.fits b hb hbf
      · simp only [h0, if_false]
        by_cases ha : a = addr
        · subst ha
          rw [AList.lookup_insert]
          constructor
          · rintro ⟨rfl⟩
            exact ⟨_, hnew, rfl, rfl, rfl⟩
          · rintro ⟨b, hb, hba, hbf, rfl⟩
            have h1 := hal.wf.valid.base_lt_stop hb
            have h2 := hal.wf.valid.base_lt_stop hnew
            rw [hal.wf.valid.eq_of_has hb hnew (a := a) ⟨hba.le, by omega⟩ ⟨le_rfl, h2⟩]
        · rw [AList.lookup_insert_ne ha, h.live]
          constructor
          · rintro ⟨b, hb, hrest⟩
            exact ⟨b, (hlive b hrest.2.1).mpr (Or.inr hb), hrest⟩
          · rintro ⟨b, hb, hba, hbf, hinfo⟩
            rcases (hlive b hbf).mp hb with rfl | hb
            · exact absurd hba.symm ha
            · exact ⟨b, hb, hba, hbf, hinfo⟩
  | free addr =>
    rw [step] at hstep
    rcases free_cases h.wf addr with ⟨heq, -⟩ | ⟨s, hs, rfl, hsf, hres, hfreed⟩
    · rw [heq] at hstep
      cases hstep
      exact h
    · simp only [hres, Option.isSome_some, if_true, Option.some.injEq] at hstep
      subst hstep
      refine ⟨hfreed.wf, fun x => ?_, fun b hb hbf => ?_, fun a info => ?_⟩
      · rw [hfreed.covers, h.tile]
      · exact h.fits b ((hfreed.live b hbf).mp hb).1 hbf
      · by_cases ha : a = s.base
        · subst ha
          rw [AList.lookup_erase]
          constructor
          · intro hcon
            simp at hcon
          · rintro ⟨b, hb, hba, hbf, -⟩
            exact absurd hba ((hfreed.live b hbf).mp hb).2
        · rw [AList.lookup_erase_ne ha, h.live]
          constructor
          · rintro ⟨b, hb, hba, hbf, hinfo⟩
            exact ⟨b, (hfreed.live b hbf).mpr ⟨hb, by omega⟩, hba, hbf, hinfo⟩
          · rintro ⟨b, hb, hba, hbf, hinfo⟩
            exact ⟨b, ((hfreed.live b hbf).mp hb).1, hba, hbf, hinfo⟩

/-- An allocation is handed out once: its address was not live, and lies in a run. -/
theorem PoolInv.allocate_live {w : World} (h : PoolInv w) {size : Nat} {tag : BitVec 32}
    {blocks' : Blocks} (hok : (Call.allocate size tag alloc).Ok w) (h0 : size ≠ 0)
    (heq : allocate w.blocks size tag alloc = some (addr, blocks')) :
    w.live.lookup addr = none ∧ Covers ((newRun w.blocks size alloc).toList ++ w.runs) addr := by
  have hal := allocate_spec h.wf h0 hok.1 (h.runOk hok) heq
  obtain ⟨needed, hle, hlive⟩ := hal.live
  refine ⟨?_, ?_⟩
  · rw [Option.eq_none_iff_forall_ne_some]
    intro info hinfo
    obtain ⟨b, hb, hbase, hbf, -⟩ := (h.live addr info).mp hinfo
    exact hal.fresh b hb hbf hbase
  · have hnew : Covers blocks' addr :=
      ⟨_, (hlive _ rfl).mpr (Or.inl rfl), le_rfl, by unfold Seg.stop; dsimp only; omega⟩
    rw [covers_append, ← h.tile, or_comm]
    exact (hal.covers addr).mp hnew

theorem PoolInv.free_answer {w : World} (h : PoolInv w) (addr : Nat) :
    (free w.blocks addr).1 = w.live.lookup addr := by
  rcases free_cases h.wf addr with ⟨heq, hnone⟩ | ⟨s, hs, rfl, hsf, hres, -⟩
  · rw [heq]
    symm
    rw [Option.eq_none_iff_forall_ne_some]
    intro info hinfo
    obtain ⟨b, hb, hba, hbf, -⟩ := (h.live addr info).mp hinfo
    exact hnone b hb hbf hba
  · rw [hres, (h.live s.base _).mpr ⟨s, hs, rfl, hsf, rfl⟩]

/-- **The pool after any run.** The blocks are disjoint, non-empty and cover exactly the runs; a live
block is as long as requested and aligned as promised; `free` succeeds at the allocations not yet
freed, answers their size and tag, leaves every other live block alone and leaves no two free blocks
touching where none touched before. -/
theorem pool_wellFormed {calls : List Call} {w : World}
    (h : Run.Steps step Call.Ok World.init calls w) :
    (w.blocks.Pairwise (fun b c => b.base + b.size ≤ c.base) ∧ (∀ b ∈ w.blocks, 0 < b.size) ∧
      ∀ x, (∃ b ∈ w.blocks, b.base ≤ x ∧ x < b.base + b.size) ↔
        ∃ run ∈ w.runs, run.base ≤ x ∧ x < run.base + run.size) ∧
    (∀ b ∈ w.blocks, b.val.free = false → b.val.requested ≤ b.size ∧ b.base % 16 = 0 ∧
      (0x1000 ≤ b.val.requested → b.base % 0x1000 = 0)) ∧
    ∀ addr, (free w.blocks addr).1 = w.live.lookup addr ∧
      (∀ info, w.live.lookup addr = some info ↔ ∃ b ∈ w.blocks, b.base = addr ∧
        b.val.free = false ∧ (b.val.requested, b.val.tag) = info) ∧
      (∀ b : Seg Block, b.val.free = false → b.base ≠ addr →
        (b ∈ (free w.blocks addr).2 ↔ b ∈ w.blocks)) ∧
      ∀ x, TouchAt (free w.blocks addr).2 x → TouchAt w.blocks x := by
  have hinv : PoolInv w := h.invariant (fun _ _ _ hs hok hstep => step_poolInv hs hok hstep)
    init_poolInv
  refine ⟨⟨hinv.wf.valid.ordered, hinv.wf.valid.pos, hinv.tile⟩, fun b hb hbf => ?_, fun addr => ?_⟩
  · obtain ⟨h1, h2⟩ := hinv.fits b hb hbf
    exact ⟨h1, hinv.wf.aligned b hb, h2⟩
  · refine ⟨hinv.free_answer addr, hinv.live addr, ?_⟩
    rcases free_cases hinv.wf addr with ⟨heq, -⟩ | ⟨s, hs, rfl, -, -, hfreed⟩
    · rw [heq]
      exact ⟨fun b _ _ => Iff.rfl, fun x hx => hx⟩
    · exact ⟨fun b hbf hne => (hfreed.live b hbf).trans (and_iff_left hne), hfreed.touch⟩

/-- Two allocations from one run, the second page aligned, and the first freed again. -/
def twoAllocations : List Call :=
  [.allocate 0x28 0x41 (some 0xFFFFF80000000000), .allocate 0x1800 0x42 none,
    .free 0xFFFFF80000000000]

theorem twoAllocations_wellFormed : ∃ w, Run.Steps step Call.Ok World.init twoAllocations w ∧
    (free w.blocks 0xFFFFF80000001000).1 = some (0x1800, 0x42) ∧
    w.live.lookup 0xFFFFF80000001000 = some (0x1800, 0x42) := by
  have hexec : ((Run.exec step (fun w call => decide (Call.Ok w call)) World.init twoAllocations).map
      fun w => (free w.blocks 0xFFFFF80000001000).1) = some (some (0x1800, 0x42)) := by decide +kernel
  obtain ⟨w, hw, hval⟩ := Option.map_eq_some_iff.mp hexec
  have hrun := Run.Steps.of_exec (fun _ _ => of_decide_eq_true) hw
  exact ⟨w, hrun, hval, ((pool_wellFormed hrun).2.2 _).1.symm.trans hval⟩

end Kernemul.Pool
