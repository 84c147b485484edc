import Kernemul.Win.Requests.Dispatch
import Kernemul.Win.Device.Lifecycle
import Kernemul.Emu.Tables

/-!
# Memory descriptor lists

`IoAllocateMdl` makes a list for a buffer, `MmBuildMdlForNonPagedPool` fills in the frames of its pages, and
`MmMapLockedPagesSpecifyCache` answers where they are mapped. The records are kept beside the other words of
guest memory, by their addresses. They are written to pool memory, which holds no tables, so that the handlers
leave what addresses are translated to (`translate`, the mmu's `virt_to_phys`) as it is.
-/

namespace Kernemul.Requests

open Device (SpaceInv)
open Phys (Walk Mem)

/-- `kernel` has the pool; `words` are the 8-byte words of guest memory by their addresses. -/
structure MdlState where
  kernel : Device.State
  words : Nat → Nat
  mdls : Nat → Mdl

/-- `mdl_mapped_to_system_va | mdl_pages_locked | mdl_source_is_nonpaged_pool`. -/
def mdlNonPaged : Int16 := 0x0007

def mdlMapped : Int16 := 0x0001

namespace MdlState

/-- The `IoAllocateMdl` handler: the address of the list, 0 when the pool has none; none when the pool throws.
The block is handed out cleared. -/
def ioAllocateMdl (s : MdlState) (va : Nat) (length : UInt32) : Option (Nat × MdlState) :=
  let size := mdlSize va length.toNat
  (s.kernel.poolAllocate size mdlTag).map fun (addr, kernel) =>
    if addr = 0 then (0, { s with kernel })
    else
      (addr,
        { kernel
          words := fun a => if addr ≤ a ∧ a < addr + size then 0 else s.words a
          mdls := Function.update s.mdls addr
            { size := Int16.ofNat size
              startVa := mdlPageBase va
              byteOffset := UInt32.ofNat (mdlPageOffset va)
              byteCount := length } })

/-- The loop of `MmBuildMdlForNonPagedPool` that writes the frame numbers of `n` pages. -/
def fillFrames (translate : Nat → Option Nat) (array first : Nat) : Nat → (Nat → Nat) → Nat → Nat
  | 0, words => words
  | n + 1, words =>
    Function.update (fillFrames translate array first n words) (wrap (array + n * 8))
      ((translate (wrap (first + n * pageSize))).getD 0 / pageSize)

/-- The `MmBuildMdlForNonPagedPool` handler. -/
def mmBuildMdlForNonPagedPool (translate : Nat → Option Nat) (s : MdlState) (list : Nat) : MdlState :=
  if list = 0 then s
  else
    let mdl := s.mdls list
    let mdl := { mdl with
      mappedSystemVa := wrap (mdl.startVa + mdl.byteOffset.toNat)
      mdlFlags := mdl.mdlFlags ||| mdlNonPaged }
    { s with
      mdls := Function.update s.mdls list mdl
      words := fillFrames translate (list + 0x30) (mdlPageBase mdl.startVa)
        (mdlPageCount mdl.startVa mdl.byteCount.toNat) s.words }

/-- The `MmMapLockedPagesSpecifyCache` handler: the address, and the state. -/
def mmMapLockedPages (s : MdlState) (list : Nat) : Nat × MdlState :=
  if list = 0 then (0, s)
  else
    let m := s.mdls list
    let va := if m.mappedSystemVa ≠ 0 then m.mappedSystemVa else m.startVa
    (va, { s with
      mdls := Function.update s.mdls list { m with mappedSystemVa := va, mdlFlags := m.mdlFlags ||| mdlMapped } })

/-- The `MmUnmapLockedPages` handler. -/
def mmUnmapLockedPages (s : MdlState) (list : Nat) : MdlState :=
  if list = 0 then s
  else
    let m := s.mdls list
    { s with
      mdls := Function.update s.mdls list { m with mappedSystemVa := 0, mdlFlags := m.mdlFlags &&& ~~~mdlMapped } }

end MdlState

/-! ## What a list is to say -/

/-- The number of the frame an address is translated to; 0 for none. -/
def frameNumber (translate : Nat → Option Nat) (va : Nat) : Nat := (translate (pageAlign va)).getD 0 / pageSize

def pageIndex (va i : Nat) : Nat := (mdlPageOffset va + i) / pageSize

/-- A list describes a buffer: the frame of every page is in its place in the array, the array lies within
what the list has from the pool, and the address it is mapped at reaches the bytes of the buffer. -/
structure Describes (translate : Nat → Option Nat) (s : MdlState) (list va length mapped : Nat) : Prop where
  frames : ∀ i < length,
    s.words (wrap (list + 0x30 + pageIndex va i * 8)) = frameNumber translate (wrap (va + i))
  within : ∃ info, s.kernel.pool.live.lookup list = some info ∧
    ∀ i < length, 0x30 + (pageIndex va i + 1) * 8 ≤ info.1
  reaches : ∀ i < length, translate (wrap (mapped + i)) = translate (wrap (va + i))

/-- The calls that a driver makes between having the list filled and using it. -/
inductive MapCall
  | map
  | unmap
  deriving DecidableEq, Repr

def MdlState.perform (list : Nat) (s : MdlState) : MapCall → MdlState
  | .map => (s.mmMapLockedPages list).2
  | .unmap => s.mmUnmapLockedPages list

/-! ## Pages -/

theorem pageIndex_lt {va length i : Nat} (hi : i < length) : pageIndex va i < mdlPageCount va length := by
  unfold pageIndex mdlPageCount mdlPageOffset pageSize
  omega

theorem mdlPageBase_base (va : Nat) : mdlPageBase (mdlPageBase va) = mdlPageBase va :=
  pageAlign_of_isPage (isPage_pageAlign va)

theorem mdlPageCount_base (va length : Nat) :
    mdlPageCount (mdlPageBase va) length = (length + pageSize - 1) / pageSize := by
  unfold mdlPageCount mdlPageOffset mdlPageBase
  rw [show pageAlign va % pageSize = 0 from isPage_pageAlign va, Nat.zero_add]

/-- A buffer has at most one page more than one of its length that starts on a page. -/
theorem mdlPageCount_cases {va length : Nat} (h : 0 < length) :
    mdlPageCount va length = mdlPageCount (mdlPageBase va) length ∨
      (mdlPageCount va length = mdlPageCount (mdlPageBase va) length + 1 ∧
        pageIndex va (length - 1) = mdlPageCount (mdlPageBase va) length) := by
  rw [mdlPageCount_base]
  unfold pageIndex mdlPageCount mdlPageOffset pageSize
  omega

theorem pageAlign_of_index (va i : Nat) :
    pageAlign (wrap (va + i)) = wrap (mdlPageBase va + pageIndex va i * pageSize) := by
  unfold pageAlign wrap mdlPageBase pageIndex mdlPageOffset pageAlign pageSize
  omega

theorem mdlPageBase_add_offset (va : Nat) : mdlPageBase va + mdlPageOffset va = va := by
  unfold mdlPageBase mdlPageOffset pageAlign pageSize
  omega

/-! ## The array -/

theorem fillFrames_apply {translate : Nat → Option Nat} {array first : Nat} {words : Nat → Nat} {n k : Nat}
    (hn : n ≤ 2 ^ 32) (hk : k ≤ 2 ^ 32) :
    MdlState.fillFrames translate array first n words (wrap (array + k * 8)) =
      if k < n then (translate (wrap (first + k * pageSize))).getD 0 / pageSize
      else words (wrap (array + k * 8)) := by
  induction n with
  | zero => rfl
  | succ n ih =>
    rw [MdlState.fillFrames]
    by_cases hkn : k = n
    · rw [hkn, Function.update_self, if_pos (Nat.lt_succ_self n)]
    · have hne : wrap (array + k * 8) ≠ wrap (array + n * 8) := by
        unfold wrap
        omega
      rw [Function.update_of_ne hne, ih (by omega)]
      by_cases hlt : k < n
      · rw [if_pos hlt, if_pos (by omega)]
      · rw [if_neg hlt, if_neg (by omega)]

/-! ## The calls -/

section calls
variable {translate : Nat → Option Nat} {s s' : MdlState} {va list : Nat} {length : UInt32}

structure Made (s : MdlState) (va : Nat) (length : UInt32) (list : Nat) : Prop where
  ne_zero : list ≠ 0
  live : s.kernel.pool.live.lookup list = some (mdlSize va length.toNat, mdlTag)
  bound : list + mdlSize va length.toNat < 2 ^ 64
  startVa : (s.mdls list).startVa = mdlPageBase va
  byteOffset : (s.mdls list).byteOffset.toNat = mdlPageOffset va
  byteCount : (s.mdls list).byteCount = length
  clear : ∀ a, list ≤ a → a < list + mdlSize va length.toNat → s.words a = 0

theorem mdlSize_lt (va : Nat) (length : UInt32) : mdlSize va length.toNat < 2 ^ 32 := by
  have hlen := length.toNat_lt
  unfold mdlSize mdlPageCount mdlPageOffset pageSize
  omega

theorem live_bound {k : Device.State} (h : SpaceInv k) {addr size : Nat} {tag : BitVec 32} (hsize : 0 < size)
    (hl : k.pool.live.lookup addr = some (size, tag)) : addr + size ≤ k.kernelNext := by
  obtain ⟨b, hb, rfl, hfree, hinfo⟩ := (h.pool.live addr (size, tag)).mp hl
  have hreq : b.val.requested = size := (Prod.mk.inj hinfo).1
  have hfit := (h.pool.fits b hb hfree).1
  obtain ⟨run, hrun, hlo, hhi⟩ := (h.pool.tile (b.base + (size - 1))).mp ⟨b, hb, by omega, by
    unfold Segments.Seg.stop
    omega⟩
  have := (h.runs run hrun).2
  omega

theorem ioAllocateMdl_spec (h : SpaceInv s.kernel) (ha : s.ioAllocateMdl va length = some (list, s')) :
    Made s' va length list := by
  unfold MdlState.ioAllocateMdl at ha
  obtain ⟨⟨addr, kernel⟩, halloc, ha⟩ := Option.map_eq_some_iff.mp ha
  have hlt := mdlSize_lt va length
  have hpos : 0 < mdlSize va length.toNat := by
    unfold mdlSize
    omega
  have htaken := Device.poolAllocate_spec h (by omega) (by omega) halloc
  simp only [if_neg htaken.ne_zero] at ha
  obtain ⟨rfl, rfl⟩ := Prod.mk.inj ha
  have hlive : kernel.pool.live.lookup addr = some (mdlSize va length.toNat, mdlTag) := by
    rw [htaken.live, AList.lookup_insert]
  have hbound := live_bound htaken.space hpos hlive
  have hnext := htaken.space.bound
  refine ⟨htaken.ne_zero, hlive, by omega, ?_, ?_, ?_, fun a hlo hhi => if_pos ⟨hlo, hhi⟩⟩
  · simp only [Function.update_self]
  · simp only [Function.update_self]
    refine UInt32.toNat_ofNat_of_lt' ?_
    unfold mdlPageOffset pageSize UInt32.size
    omega
  · simp only [Function.update_self]

/-- A list whose frames have been filled in; `base` is the address that it is mapped at without an offset. -/
structure Filled (translate : Nat → Option Nat) (s : MdlState) (va : Nat) (length : UInt32) (list : Nat) : Prop where
  live : s.kernel.pool.live.lookup list = some (mdlSize va length.toNat, mdlTag)
  startVa : (s.mdls list).startVa = mdlPageBase va
  array : ∀ k < mdlPageCount va length.toNat, s.words (wrap (list + 0x30 + k * 8)) =
    if k < mdlPageCount (mdlPageBase va) length.toNat then
      (translate (wrap (mdlPageBase va + k * pageSize))).getD 0 / pageSize
    else 0

theorem mdlPageCount_le (va : Nat) (length : UInt32) : mdlPageCount va length.toNat ≤ 2 ^ 32 := by
  have hlen := length.toNat_lt
  unfold mdlPageCount mdlPageOffset pageSize
  omega

theorem build_filled (h : Made s va length list) :
    Filled translate (s.mmBuildMdlForNonPagedPool translate list) va length list := by
  have hbound := h.bound
  unfold mdlSize at hbound
  have hstart : mdlPageBase (s.mdls list).startVa = mdlPageBase va := by
    rw [h.startVa, mdlPageBase_base]
  unfold MdlState.mmBuildMdlForNonPagedPool
  rw [if_neg h.ne_zero]
  refine ⟨h.live, ?_, fun k hk => ?_⟩
  · simp only [Function.update_self, h.startVa]
  · have hle := mdlPageCount_le va length
    simp only [h.byteCount, h.startVa]
    rw [fillFrames_apply (mdlPageCount_le _ _) (by omega)]
    have hclear : s.words (wrap (list + 0x30 + k * 8)) = 0 := by
      rw [wrap_of_lt (by omega)]
      refine h.clear _ (by omega) ?_
      unfold mdlSize
      omega
    rw [hclear, mdlPageBase_base]

theorem build_mapped (hva : va < 2 ^ 64) (h : Made s va length list) :
    ((s.mmBuildMdlForNonPagedPool translate list).mmMapLockedPages list).1 = va := by
  have hsum : wrap ((s.mdls list).startVa + (s.mdls list).byteOffset.toNat) = va := by
    rw [h.startVa, h.byteOffset, mdlPageBase_add_offset, wrap_of_lt hva]
  unfold MdlState.mmBuildMdlForNonPagedPool MdlState.mmMapLockedPages
  simp only [if_neg h.ne_zero, Function.update_self, hsum]
  by_cases hz : va = 0
  · rw [if_neg (not_not.mpr hz), h.startVa, hz]
    rfl
  · rw [if_pos hz]

theorem perform_filled (h : Filled translate s va length list) (c : MapCall) :
    Filled translate (s.perform list c) va length list := by
  by_cases hz : list = 0
  · cases c with
    | map =>
      rw [MdlState.perform, MdlState.mmMapLockedPages, if_pos hz]
      exact h
    | unmap =>
      rw [MdlState.perform, MdlState.mmUnmapLockedPages, if_pos hz]
      exact h
  · cases c with
    | map =>
      rw [MdlState.perform, MdlState.mmMapLockedPages, if_neg hz]
      exact ⟨h.live, by simp only [Function.update_self, h.startVa], h.array⟩
    | unmap =>
      rw [MdlState.perform, MdlState.mmUnmapLockedPages, if_neg hz]
      exact ⟨h.live, by simp only [Function.update_self, h.startVa], h.array⟩

/-- A list that is unmapped is mapped at the start of its first page the next time. -/
theorem perform_mapped (hz : list ≠ 0) (s : MdlState) (c : MapCall) :
    ((s.perform list c).mmMapLockedPages list).1 =
      if c = .unmap then (s.mdls list).startVa else (s.mmMapLockedPages list).1 := by
  cases c with
  | map =>
    rw [if_neg (by decide), MdlState.perform]
    unfold MdlState.mmMapLockedPages
    simp only [if_neg hz, Function.update_self]
    by_cases hm : (s.mdls list).mappedSystemVa = 0
    · rw [if_neg (not_not.mpr hm), ite_self]
    · rw [if_pos hm, if_pos hm]
  | unmap =>
    rw [if_pos rfl, MdlState.perform]
    unfold MdlState.mmMapLockedPages MdlState.mmUnmapLockedPages
    simp only [if_neg hz, Function.update_self, ne_eq, not_true_eq_false, if_false]

theorem run_filled (h : Filled translate s va length list) (calls : List MapCall) :
    Filled translate (calls.foldl (MdlState.perform list) s) va length list := by
  induction calls generalizing s with
  | nil => exact h
  | cons c calls ih => exact ih (perform_filled h c)

theorem run_mapped (h : Filled translate s va length list) (hz : list ≠ 0) (calls : List MapCall) :
    ((calls.foldl (MdlState.perform list) s).mmMapLockedPages list).1 =
      if .unmap ∈ calls then mdlPageBase va else (s.mmMapLockedPages list).1 := by
  induction calls generalizing s with
  | nil => rw [List.foldl_nil, if_neg List.not_mem_nil]
  | cons c calls ih =>
    rw [List.foldl_cons, ih (perform_filled h c), perform_mapped hz, h.startVa]
    cases c with
    | map => simp
    | unmap => simp

end calls

/-! ## The buffer -/

section buffer
variable {w : Walk} {mem : Mem} {va length : Nat}

/-- Two bytes of one page are at different addresses, also of physical memory. -/
theorem virtToPhys_page_ne {va : Nat} (hm : (w.virtToPhys mem va).isSome) (h : mdlPageOffset va ≠ 0) :
    w.virtToPhys mem (mdlPageBase va) ≠ w.virtToPhys mem va := by
  obtain ⟨pa, hpa⟩ := Option.isSome_iff_exists.mp hm
  obtain ⟨frame, hframe, -⟩ := Option.map_eq_some_iff.mp hpa
  have hoff : va - pageAlign va = mdlPageOffset va := by
    have := mdlPageBase_add_offset va
    unfold mdlPageBase at this
    omega
  have hlt : mdlPageOffset va < pageSize := Nat.mod_lt _ (by decide)
  have hpage := w.frame hframe
  unfold Walk.virtToPhys mdlPageBase
  rw [pageAlign_of_isPage (isPage_pageAlign va), hframe, hoff, Nat.sub_self]
  intro heq
  have hsame : wrap (frame + 0) = wrap (frame + mdlPageOffset va) := Option.some.inj heq
  generalize mdlPageOffset va = off at *
  unfold wrap IsPage pageSize at *
  omega

theorem frameNumber_of_index (translate : Nat → Option Nat) (va i : Nat) :
    frameNumber translate (wrap (va + i)) =
      (translate (wrap (mdlPageBase va + pageIndex va i * pageSize))).getD 0 / pageSize := by
  unfold frameNumber
  rw [pageAlign_of_index]

end buffer

/-- The pages that are filled in are all of them, or the one left over has frame 0, which is what the cleared
array says; and the list was not unmapped before, or its buffer starts on a page. -/
def Covered (translate : Nat → Option Nat) (va length : Nat) (calls : List MapCall) : Prop :=
  (mdlPageCount (mdlPageBase va) length = mdlPageCount va length ∨
    frameNumber translate (wrap (va + (length - 1))) = 0) ∧
  (.unmap ∉ calls ∨ mdlPageOffset va = 0)

/-- **A list describes its buffer exactly when** the buffer has no more pages than one of its length that
starts on a page, and the list was never unmapped. -/
theorem mdl_describes_iff (w : Walk) (mem : Mem) {s s' : MdlState} {va list : Nat} {length : UInt32}
    (h : SpaceInv s.kernel) (hva : va < 2 ^ 64) (hlen : 0 < length)
    (hmapped : ∀ i < length.toNat, (w.virtToPhys mem (wrap (va + i))).isSome)
    (ha : s.ioAllocateMdl va length = some (list, s')) (calls : List MapCall) :
    Describes (w.virtToPhys mem)
      ((calls.foldl (MdlState.perform list)
        (s'.mmBuildMdlForNonPagedPool (w.virtToPhys mem) list)).mmMapLockedPages list).2 list va length.toNat
      ((calls.foldl (MdlState.perform list)
        (s'.mmBuildMdlForNonPagedPool (w.virtToPhys mem) list)).mmMapLockedPages list).1 ↔
    Covered (w.virtToPhys mem) va length.toNat calls := by
  have hpos : 0 < length.toNat := hlen
  have hmade := ioAllocateMdl_spec h ha
  have hbuilt : Filled (w.virtToPhys mem) _ _ _ _ := build_filled hmade
  have hfilled := perform_filled (run_filled hbuilt calls) .map
  have hanswer := run_mapped hbuilt hmade.ne_zero calls
  rw [build_mapped hva hmade] at hanswer
  change Filled _ (MdlState.mmMapLockedPages _ _).2 _ _ _ at hfilled
  generalize (calls.foldl (MdlState.perform list)
    (s'.mmBuildMdlForNonPagedPool (w.virtToPhys mem) list)).mmMapLockedPages list = r at *
  rw [hanswer]
  constructor
  · intro hd
    refine ⟨?_, ?_⟩
    · -- the page left over keeps the 0 that the list came with
      refine (mdlPageCount_cases hpos).imp Eq.symm ?_
      rintro ⟨hmore, hlast⟩
      have hframe := hd.frames (length.toNat - 1) (by omega)
      rw [hlast, hfilled.array _ (by omega), if_neg (Nat.lt_irrefl _)] at hframe
      exact hframe.symm
    · by_contra hno
      obtain ⟨hunmap, hoff⟩ := not_or.mp hno
      have hreach := hd.reaches 0 hpos
      rw [if_pos (not_not.mp hunmap), Nat.add_zero, Nat.add_zero, wrap_of_lt hva,
        wrap_of_lt (show mdlPageBase va < 2 ^ 64 from Nat.lt_of_le_of_lt (pageAlign_le va) hva)] at hreach
      have hm := hmapped 0 hpos
      rw [Nat.add_zero, wrap_of_lt hva] at hm
      exact virtToPhys_page_ne hm hoff hreach
  · rintro ⟨hcount, hunmap⟩
    refine ⟨fun i hi => ?_, ⟨_, hfilled.live, fun i hi => ?_⟩, fun i _ => ?_⟩
    · have hlt := @pageIndex_lt va _ _ hi
      rw [hfilled.array _ hlt, frameNumber_of_index]
      split
      · rfl
      · rename_i hout
        obtain ⟨hmore, hlast⟩ := (@mdlPageCount_cases va _ hpos).resolve_left fun heq => hout (heq ▸ hlt)
        rw [← frameNumber_of_index]
        have hzero := hcount.resolve_left (by omega)
        have hindex : pageIndex va i = pageIndex va (length.toNat - 1) := by omega
        rw [frameNumber_of_index, hindex, ← frameNumber_of_index, hzero]
    · have := @pageIndex_lt va _ _ hi
      unfold mdlSize
      omega
    · split
      · rename_i hin
        have hoff := hunmap.resolve_left (not_not.mpr hin)
        have := mdlPageBase_add_offset va
        rw [hoff, Nat.add_zero] at this
        rw [this]
      · rfl

def noLists : MdlState := ⟨Device.booted, fun _ => 0, fun _ => {}⟩

def twoPages : Nat → Option Nat := (twoShadows.walk .arm64).virtToPhys fivePages

/-- A list of two pages, which is mapped once more. -/
theorem twoPages_described : ∃ list s', noLists.ioAllocateMdl 0x10FF0 0x1010 = some (list, s') ∧
    Describes twoPages
      (([MapCall.map].foldl (MdlState.perform list)
        (s'.mmBuildMdlForNonPagedPool twoPages list)).mmMapLockedPages list).2 list 0x10FF0 0x1010
      (([MapCall.map].foldl (MdlState.perform list)
        (s'.mmBuildMdlForNonPagedPool twoPages list)).mmMapLockedPages list).1 := by
  have hpages : ((twoShadows.walk .arm64).resolve fivePages 0x10000).isSome ∧
      ((twoShadows.walk .arm64).resolve fivePages 0x11000).isSome := by decide +kernel
  have hmapped : ∀ i < 0x1010, ((twoShadows.walk .arm64).virtToPhys fivePages (wrap (0x10FF0 + i))).isSome := by
    intro i hi
    have hpage : pageAlign (wrap (0x10FF0 + i)) = 0x10000 ∨ pageAlign (wrap (0x10FF0 + i)) = 0x11000 := by
      unfold pageAlign wrap pageSize
      omega
    unfold Walk.virtToPhys
    rw [Option.isSome_map]
    rcases hpage with h | h
    · rw [h]
      exact hpages.1
    · rw [h]
      exact hpages.2
  have hsome : (noLists.ioAllocateMdl 0x10FF0 0x1010).isSome := by decide +kernel
  obtain ⟨⟨list, s'⟩, ha⟩ := Option.isSome_iff_exists.mp hsome
  have hiff := @mdl_describes_iff (twoShadows.walk .arm64) fivePages noLists s' 0x10FF0 list 0x1010
    Device.booted_start.space (by decide) (by decide) hmapped ha [.map]
  exact ⟨list, s', ha, hiff.mpr ⟨Or.inl (by decide), Or.inl (by decide)⟩⟩

/-- Two bytes over the end of a page: the frame of the second page is not filled in. -/
theorem overTheEnd_missing : SpaceInv noLists.kernel ∧ (∀ i < 2, (twoPages (wrap (0x10FFF + i))).isSome) ∧
    ∃ list s', noLists.ioAllocateMdl 0x10FFF 2 = some (list, s') ∧
      ¬ Describes twoPages ((s'.mmBuildMdlForNonPagedPool twoPages list).mmMapLockedPages list).2 list 0x10FFF 2
        ((s'.mmBuildMdlForNonPagedPool twoPages list).mmMapLockedPages list).1 := by
  have hrun : ((noLists.ioAllocateMdl 0x10FFF 2).map fun r =>
      (((r.2.mmBuildMdlForNonPagedPool twoPages r.1).mmMapLockedPages r.1).2.words
        (wrap (r.1 + 0x30 + pageIndex 0x10FFF 1 * 8)), frameNumber twoPages (wrap (0x10FFF + 1)))) =
      some (0, 0x100001) := by decide +kernel
  obtain ⟨⟨list, s'⟩, ha, hval⟩ := Option.map_eq_some_iff.mp hrun
  obtain ⟨hword, hframe⟩ := Prod.mk.inj hval
  refine ⟨Device.booted_start.space, by decide +kernel, list, s', ha, fun hd => ?_⟩
  have := hd.frames 1 (by decide)
  rw [hword, hframe] at this
  cases this

end Kernemul.Requests
