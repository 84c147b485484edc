import Kernemul.Lib.Bytes

/-!
# The virtual image of a file

`pe_virtual_image` lays the headers and the sections of a PE file out as they are mapped. The library that finds the
headers in the file is a parameter: what it answers, and whether the headers lie in the file at all. A read outside
the file, or a write outside the buffer, gives no result here. A section whose `PointerToRawData` is zero has no raw
data.
-/

namespace Kernemul.VirtualImage

open Bytes

structure NtHeaders where
  sizeOfImage : BitVec 32
  sizeOfHeaders : BitVec 32
  deriving DecidableEq, Repr

structure Section where
  virtualAddress : BitVec 32
  sizeOfRawData : BitVec 32
  pointerToRawData : BitVec 32
  deriving DecidableEq, Repr

/-- `pe::image`: `dos_hdr()->ok()`, `nt_hdrs()` and `sections()`; `none` is a read outside the file. -/
structure PeLibrary where
  dosHeaderOk : List UInt8 → Bool
  ntHeaders : List UInt8 → Option NtHeaders
  sections : List UInt8 → Option (List Section)

/-- `sizeof(pe::dos_header)`. -/
def dosHeaderSize : Nat := 0x40

variable (raw : List UInt8)

/-- `std::min<std::size_t>(sec.size_of_raw_data, raw.size() - src_off)`; where the difference would wrap around,
nothing is copied. -/
def Section.size (s : Section) : Nat := min s.sizeOfRawData.toNat (raw.length - s.pointerToRawData.toNat)

def Section.Copied (virtSize : Nat) (s : Section) : Prop :=
  s.pointerToRawData ≠ 0 ∧ s.sizeOfRawData ≠ 0 ∧ s.pointerToRawData.toNat < raw.length ∧
    s.virtualAddress.toNat + s.size raw ≤ virtSize

instance (virtSize : Nat) (s : Section) : Decidable (s.Copied raw virtSize) := inferInstanceAs (Decidable (_ ∧ _))

/-- `std::memcpy` from the file. -/
def memcpy (mapped : List UInt8) (dst src size : Nat) : Option (List UInt8) :=
  (slice raw src size).bind (patch mapped dst)

def copySections (virtSize : Nat) : List Section → List UInt8 → Option (List UInt8)
  | [], mapped => some mapped
  | s :: rest, mapped =>
    if s.Copied raw virtSize then
      (memcpy raw mapped s.virtualAddress.toNat s.pointerToRawData.toNat (s.size raw)).bind (copySections virtSize rest)
    else copySections virtSize rest mapped

def peVirtualImage (pe : PeLibrary) : Option (List UInt8) :=
  if raw.length < dosHeaderSize then some []
  else if ¬ pe.dosHeaderOk raw then some []
  else (pe.ntHeaders raw).bind fun nt =>
    let mapped := List.replicate nt.sizeOfImage.toNat 0
    (memcpy raw mapped 0 0 (min nt.sizeOfHeaders.toNat raw.length)).bind fun mapped =>
      (pe.sections raw).bind fun sections => copySections raw nt.sizeOfImage.toNat sections mapped

/-! ## What is laid out -/

def Section.Covers (s : Section) (i : Nat) : Prop :=
  s.virtualAddress.toNat ≤ i ∧ i < s.virtualAddress.toNat + s.size raw

def Rejected (pe : PeLibrary) : Prop := raw.length < dosHeaderSize ∨ pe.dosHeaderOk raw = false

/-- A buffer of the image's size; the headers are in it where no section was copied over them; and so is every section
that has raw data in the file and a place in the image, where no later one was copied over it. -/
structure LaidOut (nt : NtHeaders) (sections : List Section) (mapped : List UInt8) : Prop where
  size : mapped.length = nt.sizeOfImage.toNat
  headers : ∀ i < min nt.sizeOfHeaders.toNat raw.length,
    (∀ s ∈ sections, s.Copied raw nt.sizeOfImage.toNat → ¬ s.Covers raw i) → mapped[i]? = raw[i]?
  contents : ∀ before s after, sections = before ++ s :: after → s.pointerToRawData ≠ 0 →
    s.pointerToRawData.toNat < raw.length → s.virtualAddress.toNat + s.size raw ≤ nt.sizeOfImage.toNat →
    ∀ k < s.size raw,
      (∀ s' ∈ after, s'.Copied raw nt.sizeOfImage.toNat → ¬ s'.Covers raw (s.virtualAddress.toNat + k)) →
      mapped[s.virtualAddress.toNat + k]? = raw[s.pointerToRawData.toNat + k]?

/-- The file is turned away, or laid out, without a read or a write out of bounds. -/
def Loads (pe : PeLibrary) : Prop :=
  ∃ mapped, peVirtualImage raw pe = some mapped ∧ (Rejected raw pe ∧ mapped = [] ∨
    ¬ Rejected raw pe ∧ ∃ nt sections, pe.ntHeaders raw = some nt ∧ pe.sections raw = some sections ∧
      LaidOut raw nt sections mapped)

/-- The headers lie in the file, and what is copied of them fits into the image. -/
def HeadersFit (pe : PeLibrary) : Prop :=
  ∃ nt sections, pe.ntHeaders raw = some nt ∧ pe.sections raw = some sections ∧
    min nt.sizeOfHeaders.toNat raw.length ≤ nt.sizeOfImage.toNat

variable {raw}

/-! ## One copy -/

structure Moved (raw mapped mapped' : List UInt8) (dst src size : Nat) : Prop where
  length : mapped'.length = mapped.length
  inside : ∀ k < size, mapped'[dst + k]? = raw[src + k]?
  outside : ∀ i, i < dst ∨ dst + size ≤ i → mapped'[i]? = mapped[i]?

theorem memcpy_moved {mapped mapped' : List UInt8} {dst src size : Nat}
    (h : memcpy raw mapped dst src size = some mapped') : Moved raw mapped mapped' dst src size := by
  obtain ⟨bs, hbs, hpatch⟩ := Option.bind_eq_some_iff.mp h
  have hlength := length_slice hbs
  unfold slice at hbs
  split_ifs at hbs with hinside
  obtain rfl := Option.some.inj hbs
  refine ⟨length_patch hpatch, fun k hk => ?_, fun i hi => ?_⟩
  · rw [getElem?_patch_add hpatch (by omega), List.getElem?_take_of_lt hk, List.getElem?_drop]
  · exact getElem?_patch_of_out hpatch (by omega)

theorem memcpy_isSome {mapped : List UInt8} {dst src size : Nat} :
    (∃ mapped', memcpy raw mapped dst src size = some mapped') ↔
      src + size ≤ raw.length ∧ dst + size ≤ mapped.length := by
  unfold memcpy slice
  split_ifs with hsrc
  · have hlength : ((raw.drop src).take size).length = size := by
      rw [List.length_take, List.length_drop]
      omega
    rw [Option.bind_some, ← Option.isSome_iff_exists, patch_isSome, hlength, and_iff_right hsrc]
  · exact iff_of_false (by simp) fun h => hsrc h.1

/-! ## The sections -/

theorem Section.Copied.memcpy {s : Section} {virtSize : Nat} (h : s.Copied raw virtSize) {mapped : List UInt8}
    (hlength : mapped.length = virtSize) :
    ∃ mapped', VirtualImage.memcpy raw mapped s.virtualAddress.toNat s.pointerToRawData.toNat (s.size raw) =
      some mapped' := by
  obtain ⟨-, -, hsrc, hdst⟩ := h
  refine memcpy_isSome.mpr ⟨?_, hlength ▸ hdst⟩
  unfold Section.size
  omega

/-- The loop never leaves a buffer, and it changes no byte that no copied section covers. -/
theorem copySections_spec {virtSize : Nat} {sections : List Section} {mapped : List UInt8}
    (hlength : mapped.length = virtSize) : ∃ mapped', copySections raw virtSize sections mapped = some mapped' ∧
      mapped'.length = virtSize ∧
      ∀ i, (∀ s ∈ sections, s.Copied raw virtSize → ¬ s.Covers raw i) → mapped'[i]? = mapped[i]? := by
  induction sections generalizing mapped with
  | nil => exact ⟨mapped, rfl, hlength, fun _ _ => rfl⟩
  | cons s rest ih =>
    rw [copySections]
    split_ifs with hcopied
    · obtain ⟨copied, hcopy⟩ := hcopied.memcpy hlength
      have hmoved := memcpy_moved hcopy
      obtain ⟨mapped', hrest, hlength', hout⟩ := ih (hmoved.length.trans hlength)
      refine ⟨mapped', by rw [hcopy, Option.bind_some, hrest], hlength', fun i hi => ?_⟩
      obtain ⟨hs, hi⟩ := List.forall_mem_cons.mp hi
      rw [hout i hi]
      refine hmoved.outside i ?_
      have hnot := hs hcopied
      unfold Section.Covers at hnot
      omega
    · obtain ⟨mapped', hrest, hlength', hout⟩ := ih hlength
      exact ⟨mapped', hrest, hlength', fun i hi => hout i (List.forall_mem_cons.mp hi).2⟩

theorem copySections_append (virtSize : Nat) (before after : List Section) (mapped : List UInt8) :
    copySections raw virtSize (before ++ after) mapped =
      (copySections raw virtSize before mapped).bind (copySections raw virtSize after) := by
  induction before generalizing mapped with
  | nil => rfl
  | cons s before ih =>
    rw [List.cons_append, copySections, copySections]
    split_ifs
    · cases memcpy raw mapped s.virtualAddress.toNat s.pointerToRawData.toNat (s.size raw) with
      | none => rfl
      | some mapped => exact ih mapped
    · exact ih mapped

theorem laidOut {nt : NtHeaders} {sections : List Section} {headers mapped : List UInt8}
    (hheaders : memcpy raw (List.replicate nt.sizeOfImage.toNat 0) 0 0 (min nt.sizeOfHeaders.toNat raw.length) =
      some headers) (hmapped : copySections raw nt.sizeOfImage.toNat sections headers = some mapped) :
    LaidOut raw nt sections mapped := by
  have hheader := memcpy_moved hheaders
  have hlength : headers.length = nt.sizeOfImage.toNat := hheader.length.trans List.length_replicate
  obtain ⟨mapped', hcopy, hsize, hout⟩ := @copySections_spec raw _ sections _ hlength
  obtain rfl := Option.some.inj (hmapped.symm.trans hcopy)
  refine ⟨hsize, fun i hi hnot => ?_, ?_⟩
  · have hinside := hheader.inside i hi
    rw [Nat.zero_add] at hinside
    rw [hout i hnot, hinside]
  · intro before s after hsections hptr hsrc hdst k hk hnot
    have hcopied : s.Copied raw nt.sizeOfImage.toNat := by
      refine ⟨hptr, ?_, hsrc, hdst⟩
      rintro hzero
      rw [Section.size, hzero] at hk
      exact absurd hk (by simp)
    rw [hsections, copySections_append] at hmapped
    obtain ⟨earlier, hbefore, hmapped⟩ := Option.bind_eq_some_iff.mp hmapped
    rw [copySections, if_pos hcopied] at hmapped
    obtain ⟨copied, hself, hafter⟩ := Option.bind_eq_some_iff.mp hmapped
    obtain ⟨earlier', hbefore', hearlier, -⟩ := @copySections_spec raw _ before _ hlength
    obtain rfl := Option.some.inj (hbefore.symm.trans hbefore')
    have hmoved := memcpy_moved hself
    obtain ⟨later, hafter', -, hlater⟩ := @copySections_spec raw _ after _ (hmoved.length.trans hearlier)
    obtain rfl := Option.some.inj (hafter.symm.trans hafter')
    rw [hlater _ hnot, hmoved.inside k hk]

/-- **PE loading** stays in bounds and lays the file out exactly when it is turned away or its headers fit. -/
theorem loads_iff (raw : List UInt8) (pe : PeLibrary) : Loads raw pe ↔ Rejected raw pe ∨ HeadersFit raw pe := by
  by_cases hrejected : Rejected raw pe
  · refine iff_of_true ⟨[], ?_, .inl ⟨hrejected, rfl⟩⟩ (.inl hrejected)
    unfold peVirtualImage
    rcases hrejected with hshort | hdos
    · rw [if_pos hshort]
    · by_cases hshort : raw.length < dosHeaderSize
      · rw [if_pos hshort]
      · rw [if_neg hshort, if_pos (by rw [hdos]; exact Bool.false_ne_true)]
  have himage : peVirtualImage raw pe = (pe.ntHeaders raw).bind fun nt =>
      (memcpy raw (List.replicate nt.sizeOfImage.toNat 0) 0 0 (min nt.sizeOfHeaders.toNat raw.length)).bind
        fun mapped => (pe.sections raw).bind fun sections =>
          copySections raw nt.sizeOfImage.toNat sections mapped := by
    obtain ⟨hlong, hdos⟩ := not_or.mp hrejected
    rw [peVirtualImage, if_neg hlong, if_neg (by simpa using hdos)]
  rw [or_iff_right hrejected]
  constructor
  · rintro ⟨mapped, hmapped, -⟩
    rw [himage] at hmapped
    obtain ⟨nt, hnt, hmapped⟩ := Option.bind_eq_some_iff.mp hmapped
    obtain ⟨headers, hheaders, hmapped⟩ := Option.bind_eq_some_iff.mp hmapped
    obtain ⟨sections, hsections, -⟩ := Option.bind_eq_some_iff.mp hmapped
    have hfit := (memcpy_isSome.mp ⟨headers, hheaders⟩).2
    rw [Nat.zero_add, List.length_replicate] at hfit
    exact ⟨nt, sections, hnt, hsections, hfit⟩
  · rintro ⟨nt, sections, hnt, hsections, hfit⟩
    have hbounds : 0 + min nt.sizeOfHeaders.toNat raw.length ≤ raw.length ∧ 0 + min nt.sizeOfHeaders.toNat raw.length ≤
        (List.replicate nt.sizeOfImage.toNat (0 : UInt8)).length := by
      rw [List.length_replicate]
      omega
    obtain ⟨headers, hheaders⟩ := memcpy_isSome.mpr hbounds
    have hlength := (memcpy_moved hheaders).length.trans List.length_replicate
    obtain ⟨mapped, hmapped, -⟩ := @copySections_spec raw _ sections _ hlength
    refine ⟨mapped, ?_, .inr ⟨hrejected, nt, sections, hnt, hsections, laidOut hheaders hmapped⟩⟩
    rw [himage, hnt, Option.bind_some, hheaders, Option.bind_some, hsections, Option.bind_some, hmapped]

def peFormat : PeLibrary where
  dosHeaderOk raw := num raw 0 2 = some 0x5a4d
  ntHeaders raw :=
    (num raw 0x3c 4).bind fun lfanew =>
      (num raw (lfanew + 0x50) 4).bind fun sizeOfImage =>
        (num raw (lfanew + 0x54) 4).map fun sizeOfHeaders =>
          ⟨BitVec.ofNat 32 sizeOfImage, BitVec.ofNat 32 sizeOfHeaders⟩
  sections raw :=
    (num raw 0x3c 4).bind fun lfanew =>
      (num raw (lfanew + 0x6) 2).bind fun count =>
        (num raw (lfanew + 0x14) 2).bind fun optionalSize =>
          (List.range count).mapM fun i =>
            let off := lfanew + 0x18 + optionalSize + 40 * i
            (num raw (off + 12) 4).bind fun virtualAddress =>
              (num raw (off + 16) 4).bind fun sizeOfRawData =>
                (num raw (off + 20) 4).map fun pointerToRawData =>
                  ⟨BitVec.ofNat 32 virtualAddress, BitVec.ofNat 32 sizeOfRawData, BitVec.ofNat 32 pointerToRawData⟩

/-- No sections, an image of 16 bytes, and headers of the whole file. -/
def smallImage : List UInt8 := encode [(2, 0x5a4d), (58, 0), (4, 0x40), (0x50, 0), (4, 0x10), (4, 0x98)]

theorem smallImage_overflows : ¬ ∀ raw pe, Loads raw pe := by
  intro hall
  obtain ⟨mapped, hmapped, -⟩ := hall smallImage peFormat
  have hnone : peVirtualImage smallImage peFormat = none := by decide +kernel
  rw [hnone] at hmapped
  cases hmapped

end Kernemul.VirtualImage
