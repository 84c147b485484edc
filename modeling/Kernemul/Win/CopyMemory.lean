import Kernemul.Emu.Tables

/-!
# `MmCopyMemory`

The handler reads the source into a vector of zeros, writes that to the target, and reports the length it was
asked for. `read_phys` never throws and says nothing about how much it has read.

`limit` is the longest vector the host makes; asked for a longer one, the constructor throws.
-/

namespace Kernemul

open Phys

/-- The arguments of `MmCopyMemory`. -/
structure CopyRequest where
  targetAddress : Nat
  sourceAddress : Nat
  numberOfBytes : Nat
  flags : Nat
  numberOfBytesTransferred : Nat

inductive CopyStatus
  | success
  | invalidParameter
  | invalidAddress
  deriving DecidableEq, Repr

/-- What became of a request: no answer when an exception leaves the handler, and the number it reported,
when it did. `read` and `written` are not in the source: the bytes really copied from the source and to the
target. -/
structure CopyOutcome where
  answer : Option CopyStatus
  mem : Mem
  reported : Option Nat
  read : Nat
  written : Nat

/-- `kind == mm_copy_memory_physical`, `kind` being the two flags that name a source. -/
def CopyRequest.physical (r : CopyRequest) : Bool := r.flags % 4 == 1

/-- The source into a vector of zeros, which are none here as nothing has been copied to them. -/
def CopyRequest.readSource (r : CopyRequest) (w : Walk) (mem : Mem) : Copy × Bool :=
  if r.physical then
    ({ mem
       buf := readPhysMem mem r.sourceAddress (fun _ => none) r.numberOfBytes
       moved := copied mem r.sourceAddress r.numberOfBytes }, true)
  else w.readVirt mem r.sourceAddress (fun _ => none) r.numberOfBytes

/-- `number_of_bytes_transferred.write(count)`, if there is anywhere to write it, and the answer. -/
def CopyRequest.report (r : CopyRequest) (w : Walk) (count : Nat) (status : CopyStatus) (o : CopyOutcome) :
    CopyOutcome :=
  if r.numberOfBytesTransferred = 0 then { o with answer := some status }
  else
    let (c, ok) := w.writeVirt o.mem r.numberOfBytesTransferred
      (fun i => some (UInt8.ofNat (count / 256 ^ i))) 8
    if ok then { o with answer := some status, mem := c.mem, reported := some count }
    else { o with mem := c.mem }

/-- The `MmCopyMemory` handler. -/
def mmCopyMemory (limit : Nat) (w : Walk) (mem : Mem) (r : CopyRequest) : CopyOutcome :=
  let o : CopyOutcome := { answer := none, mem, reported := none, read := 0, written := 0 }
  if r.flags % 4 ≠ 1 ∧ r.flags % 4 ≠ 2 then { o with answer := some .invalidParameter }
  else if limit < r.numberOfBytes then o
  else
    let (src, read) := r.readSource w mem
    let o := { o with read := src.moved }
    if !read then r.report w 0 .invalidAddress o
    else
      let (dst, written) := w.writeVirt mem r.targetAddress src.buf r.numberOfBytes
      let o := { o with mem := dst.mem, written := dst.moved }
      if written then r.report w r.numberOfBytes .success o else o

/-! ## What is really copied -/

/-- As many bytes as a number says were copied, from the source and to the target. -/
def CopyOutcome.ReallyCopied (o : CopyOutcome) (count : Nat) : Prop := count ≤ o.read ∧ count ≤ o.written

/-- All of the source is there: in the block of its first byte, or on pages that are backed. -/
def CopyRequest.SourceThere (r : CopyRequest) (w : Walk) (mem : Mem) : Prop :=
  if r.physical then ∃ b, findBacking mem r.sourceAddress = some b ∧ r.numberOfBytes ≤ b.avail r.sourceAddress
  else w.OnBacked mem r.sourceAddress r.numberOfBytes

def CopyRequest.TargetThere (r : CopyRequest) (w : Walk) (mem : Mem) : Prop :=
  w.Lands mem r.targetAddress (r.readSource w mem).1.buf r.numberOfBytes

theorem report_cases {r : CopyRequest} {w : Walk} {count k : Nat} {status : CopyStatus} {o : CopyOutcome}
    (ho : o.reported = none) (h : (r.report w count status o).reported = some k) :
    k = count ∧ (r.report w count status o).read = o.read ∧
      (r.report w count status o).written = o.written := by
  unfold CopyRequest.report at h ⊢
  split at h
  · rw [ho] at h
    cases h
  rename_i hnull
  rw [if_neg hnull]
  cases hw : w.writeVirt o.mem r.numberOfBytesTransferred
    (fun i => some (UInt8.ofNat (count / 256 ^ i))) 8 with
  | mk c ok =>
    rw [hw] at h
    cases ok with
    | true => exact ⟨(Option.some.inj h).symm, rfl, rfl⟩
    | false =>
      simp only [Bool.false_eq_true, if_false, ho] at h
      cases h

/-- What a request that reports a number has done: nothing, or both copies. -/
theorem mmCopyMemory_cases {limit : Nat} {w : Walk} {mem : Mem} {r : CopyRequest} {k : Nat}
    (h : (mmCopyMemory limit w mem r).reported = some k) :
    k = 0 ∨ (k = r.numberOfBytes ∧ (r.readSource w mem).2 = true ∧
      (w.writeVirt mem r.targetAddress (r.readSource w mem).1.buf r.numberOfBytes).2 = true ∧
      (mmCopyMemory limit w mem r).read = (r.readSource w mem).1.moved ∧
      (mmCopyMemory limit w mem r).written =
        (w.writeVirt mem r.targetAddress (r.readSource w mem).1.buf r.numberOfBytes).1.moved) := by
  unfold mmCopyMemory at h ⊢
  simp only at h ⊢
  by_cases hkind : r.flags % 4 ≠ 1 ∧ r.flags % 4 ≠ 2
  · rw [if_pos hkind] at h
    cases h
  rw [if_neg hkind] at h ⊢
  by_cases hlimit : limit < r.numberOfBytes
  · rw [if_pos hlimit] at h
    cases h
  rw [if_neg hlimit] at h ⊢
  cases hread : (r.readSource w mem).2 with
  | false =>
    simp only [hread, Bool.not_false, if_true] at h
    exact Or.inl (report_cases rfl h).1
  | true =>
    simp only [hread, Bool.not_true, Bool.false_eq_true, if_false] at h ⊢
    cases hwrite : (w.writeVirt mem r.targetAddress (r.readSource w mem).1.buf r.numberOfBytes).2 with
    | false =>
      simp only [hwrite, Bool.false_eq_true, if_false] at h
      cases h
    | true =>
      simp only [hwrite, if_true] at h ⊢
      obtain ⟨hk, hr, hw⟩ := report_cases rfl h
      exact Or.inr ⟨hk, trivial, trivial, hr, hw⟩

/-- A source that was read has all its bytes copied exactly when all of it is there. -/
theorem readSource_moved {w : Walk} {mem : Mem} (hpages : PageBlocks mem) {r : CopyRequest}
    (hn : r.numberOfBytes ≠ 0) (hok : (r.readSource w mem).2 = true) :
    r.numberOfBytes ≤ (r.readSource w mem).1.moved ↔ r.SourceThere w mem := by
  unfold CopyRequest.SourceThere
  cases hkind : r.physical with
  | true =>
    have hmoved : (r.readSource w mem).1.moved = copied mem r.sourceAddress r.numberOfBytes := by
      unfold CopyRequest.readSource
      rw [hkind, if_pos rfl]
    rw [hmoved, if_pos rfl]
    unfold copied
    cases hb : findBacking mem r.sourceAddress with
    | none =>
      refine ⟨fun h => absurd (Nat.le_zero.mp h) hn, ?_⟩
      rintro ⟨b, hb', -⟩
      cases hb'
    | some b =>
      refine ⟨fun h => ⟨b, rfl, Nat.le_trans h (Nat.min_le_right _ _)⟩, ?_⟩
      rintro ⟨c, hc, hle⟩
      obtain rfl := Option.some.inj hc
      exact Nat.le_min.mpr ⟨Nat.le_refl _, hle⟩
  | false =>
    have hread : r.readSource w mem = w.readVirt mem r.sourceAddress (fun _ => none) r.numberOfBytes := by
      unfold CopyRequest.readSource
      rw [hkind, if_neg (by decide)]
    rw [hread] at hok ⊢
    rw [if_neg (by decide)]
    have hall : ∀ i, 0 ≤ i → i < r.numberOfBytes →
        (w.resolve mem (pageAlign (wrap (r.sourceAddress + i)))).isSome := by
      intro i hlo hi
      by_contra hnone
      have := w.copyLoop_throws r.sourceAddress r.numberOfBytes r.numberOfBytes 0
        { mem, buf := fun _ => none } rfl (Nat.sub_le _ _) ⟨i, hlo, hi, by simpa using hnone⟩
      exact absurd (hok.symm.trans this) (by decide)
    obtain ⟨-, hiff⟩ := w.copyLoop_moved r.sourceAddress r.numberOfBytes false r.numberOfBytes 0
      { mem, buf := fun _ => none } hpages (Nat.sub_le _ _) hok
    rw [Nat.sub_zero, Nat.zero_add, w.lands_read _ _ _ _ _ rfl (Nat.sub_le _ _) hall] at hiff
    exact hiff.trans ⟨fun h i hi => h i (Nat.zero_le _) hi, fun h i _ hi => h i hi⟩

/-- **Physical access is exact** for ranges that are found in one block, and `MmCopyMemory` reports what it
has copied when source and target are all there. -/
theorem physical_access_iff (mem : Mem) :
    (∀ addr size, addr < 2 ^ 64 → Backed mem addr size → (ByteExact mem addr size ↔ InBlock mem addr size)) ∧
    ∀ limit w r k, PageBlocks mem → (mmCopyMemory limit w mem r).reported = some k →
      ((mmCopyMemory limit w mem r).ReallyCopied k ↔ k = 0 ∨ (r.SourceThere w mem ∧ r.TargetThere w mem)) := by
  refine ⟨fun addr size ha hback => byteExact_iff ha hback, fun limit w r k hpages h => ?_⟩
  unfold CopyOutcome.ReallyCopied
  by_cases hk : k = 0
  · subst hk
    exact ⟨fun _ => Or.inl rfl, fun _ => ⟨Nat.zero_le _, Nat.zero_le _⟩⟩
  rcases mmCopyMemory_cases h with hzero | ⟨rfl, hread, hwrite, hr, hw⟩
  · exact absurd hzero hk
  have hsource := readSource_moved hpages hk hread
  obtain ⟨-, htarget⟩ := w.copyLoop_moved r.targetAddress r.numberOfBytes true r.numberOfBytes 0
    { mem, buf := (r.readSource w mem).1.buf } hpages (Nat.sub_le _ _) hwrite
  rw [Nat.sub_zero, Nat.zero_add] at htarget
  rw [hr, hw, hsource]
  constructor
  · exact fun ⟨hs, ht⟩ => Or.inr ⟨hs, htarget.mp ht⟩
  · rintro (hzero | ⟨hs, ht⟩)
    · exact absurd hzero hk
    · exact ⟨hs, htarget.mpr ht⟩

def copyEight (sourceAddress : Nat) : CopyRequest where
  targetAddress := 0x10000
  sourceAddress
  numberOfBytes := 8
  flags := 1
  numberOfBytesTransferred := 0x11000

theorem oneBlock_exact : ByteExact fivePages 0x100000FFC 8 ∧
    (mmCopyMemory (2 ^ 63 - 1) (twoShadows.walk .arm64) fivePages (copyEight 0x100000FFC)).ReallyCopied 8 := by
  have hblock : ∀ i < 8, findBacking fivePages (wrap (0x100000FFC + i)) = findBacking fivePages 0x100000FFC := by
    intro i hi
    have hw : wrap (0x100000FFC + i) = 0x100000FFC + i := wrap_of_lt (by omega)
    have hhas : ∀ a, 0x100000000 ≤ a → a < 0x100005000 → findBacking fivePages a = fivePages.head? := by
      intro a hlo hhi
      refine List.find?_cons_of_pos (Block.has_iff.mpr ⟨hlo, ?_, by decide⟩)
      exact hhi
    rw [hw, hhas _ (by omega) (by omega), hhas _ (by omega) (by omega)]
  have hiff := (physical_access_iff fivePages).2 (2 ^ 63 - 1) (twoShadows.walk .arm64) (copyEight 0x100000FFC) 8
    (by decide) (by decide +kernel)
  refine ⟨((physical_access_iff fivePages).1 0x100000FFC 8 (by decide) (by decide +kernel)).mpr hblock, ?_⟩
  have htarget := ((twoShadows.walk .arm64).copyLoop_moved 0x10000 8 true 8 0
    { mem := fivePages
      buf := ((copyEight 0x100000FFC).readSource (twoShadows.walk .arm64) fivePages).1.buf } (by decide)
    (by decide) (by decide +kernel)).2.mp (by decide +kernel)
  exact hiff.mpr (Or.inr ⟨⟨_, rfl, by decide +kernel⟩, htarget⟩)

theorem physBase_lt : X86.physBase < 2 ^ 64 := by
  decide

def twoBlocks : Mem :=
  [⟨X86.physBase, 0x1000, fun _ => 0, physBase_lt, by decide⟩,
    ⟨0x100001000, 0x4000, fun _ => 0, by decide, by decide⟩]

/-- The last four bytes of one block and the first four of the next: four are copied, eight reported. -/
theorem twoBlocks_short : Backed twoBlocks 0x100000FFC 8 ∧ ¬ ByteExact twoBlocks 0x100000FFC 8 ∧
    (mmCopyMemory (2 ^ 63 - 1) (twoShadows.walk .arm64) twoBlocks (copyEight 0x100000FFC)).reported = some 8 ∧
    ¬ (mmCopyMemory (2 ^ 63 - 1) (twoShadows.walk .arm64) twoBlocks (copyEight 0x100000FFC)).ReallyCopied 8 := by
  refine ⟨by decide +kernel, fun h => ?_, by decide +kernel, ?_⟩
  · exact absurd (congrFun (h.read fun _ => none) 4) (by decide +kernel)
  · rintro ⟨hread, -⟩
    exact absurd hread (by decide +kernel)

end Kernemul
