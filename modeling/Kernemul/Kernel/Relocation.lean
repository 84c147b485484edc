import Kernemul.Kernel.Exports
import Kernemul.Lib.Stack

/-!
# Mapping an image

`map_img` copies an image to the address that it was given and relocates it there: the security cookie, the slots of
the base relocation directory, and the header's `ImageBase`; then the imports are bound. The library that reads the
headers is a parameter of the image (`PeRelocs` is what it documents of the relocations), and memory is that of the
guest's addresses. What protects and watches pages is left out, and so is what other modules put elsewhere.
-/

namespace Kernemul.Relocation

open Stack Text
open Exports (Process Module)

/-- What `img->relocs()` gives. -/
structure Reloc where
  type : Nat
  rva : BitVec 32
  deriving DecidableEq, Repr

/-- What `img->imports()` gives. -/
structure Import where
  moduleName : Str
  isOrdinal : Bool
  ordinal : BitVec 32
  importName : Str
  iatSlot : BitVec 32
  deriving DecidableEq, Repr

/-- `pe::image`; the load configuration is given by its security cookie, and the field of the optional header that
holds the base by its rva. -/
structure Image where
  size : BitVec 32
  bytes : Nat → BitVec 8
  baseAddr : Word
  loadConfig : Option Word
  baseField : BitVec 32
  relocs : List Reloc
  imports : List Import

def dir64 : Nat := 10

def rvaWord (rva : BitVec 32) : Word := rva.setWidth 64

section map
variable (img : Image) (addr : Word)

def Image.delta : Word := addr - img.baseAddr

def Image.cookie : Option Word :=
  (img.loadConfig.filter fun securityCookie => securityCookie ≠ 0).map (· - img.baseAddr)

def Image.addDelta (mem : Mem) (rva : Word) : Mem :=
  write64 mem (addr + rva) (read64 mem (addr + rva) + img.delta addr)

def Image.relocateCookie (mem : Mem) : Mem := img.cookie.elim mem (img.addDelta addr mem)

def Image.relocateOne (mem : Mem) (reloc : Reloc) : Mem :=
  if reloc.type ≠ dir64 then mem else img.addDelta addr mem (rvaWord reloc.rva)

def importAddr (p : Process) (name : Str) (imp : Import) : Option Word :=
  (p.findOrLoad imp.moduleName name).bind fun dep =>
    (if imp.isOrdinal then dep.findOrdinal imp.ordinal else p.resolve dep imp.importName).map (BitVec.ofNat 64)

def bindImports (p : Process) (name : Str) : List Import → Mem → Mem × Bool
  | [], mem => (mem, true)
  | imp :: rest, mem =>
    match importAddr p name imp with
    | none => (mem, false)
    | some a => bindImports p name rest (write64 mem (addr + rvaWord imp.iatSlot) a)

/-- `map_img` at the address that `alloc` gave, which is zero when it failed; false for no module. -/
def mapImg (p : Process) (name : Str) (skipImports : Bool) (mem : Mem) : Mem × Bool :=
  if addr = 0 then (mem, false)
  else
    let mem := writeBytes mem addr img.size.toNat img.bytes
    let mem := img.relocateCookie addr mem
    let mem := img.relocs.foldl (img.relocateOne addr) mem
    let mem := write64 mem (addr + rvaWord img.baseField) addr
    if skipImports then (mem, true) else bindImports addr p name img.imports mem

end map

/-! ## Relocated images -/

structure Entry where
  type : Nat
  offset : BitVec 12
  deriving DecidableEq, Repr

structure Block where
  virtualAddress : BitVec 32
  entries : List Entry
  deriving DecidableEq, Repr

def Block.relocs (b : Block) : List Reloc := b.entries.map fun e => ⟨e.type, b.virtualAddress + e.offset.setWidth 32⟩

/-- What the library documents: the relocations are the entries of all blocks, in their order. -/
def PeRelocs (img : Image) (blocks : List Block) : Prop := img.relocs = blocks.flatMap Block.relocs

def slots (blocks : List Block) : List Word :=
  ((blocks.flatMap Block.relocs).filter fun reloc => reloc.type = dir64).map fun reloc => rvaWord reloc.rva

def Covers (f i : Word) : Prop := (i - f).toNat < 8

def Apart (f g : Word) : Prop := 8 ≤ (f - g).toNat ∧ 8 ≤ (g - f).toNat

instance (f i : Word) : Decidable (Covers f i) := inferInstanceAs (Decidable (_ < _))

instance (f g : Word) : Decidable (Apart f g) := inferInstanceAs (Decidable (_ ∧ _))

/-- The slots lie in the image, and none is listed twice or runs into another; the cookie and the field of the base are
in the image too, or `read_mem` and `write_mem` would throw. -/
structure WellFormed (img : Image) (blocks : List Block) : Prop where
  inside : ∀ r ∈ slots blocks, r.toNat + 8 ≤ img.size.toNat
  cookie : ∀ r ∈ img.cookie, r.toNat + 8 ≤ img.size.toNat
  baseField : img.baseField.toNat + 8 ≤ img.size.toNat
  apart : (slots blocks).Pairwise Apart

def Image.word (img : Image) (rva : Word) : Word := read64 (fun i => img.bytes i.toNat) rva

/-- The words that are not the directory's: the cookie, the base in the header, and those of a list. -/
def Image.others (img : Image) (iat : List Word) : List Word :=
  img.cookie.toList ++ rvaWord img.baseField :: iat

def Image.iat (img : Image) (skipImports : Bool) : List Word :=
  if skipImports then [] else img.imports.map fun imp => rvaWord imp.iatSlot

/-- Memory has the image relocated to an address, but for some words of it. -/
structure Exact (img : Image) (blocks : List Block) (iat : List Word) (addr : Word) (mem : Mem) : Prop where
  slots : ∀ r ∈ slots blocks, (∀ f ∈ img.others iat, Apart r f) →
    read64 mem (addr + r) = img.word r + (addr - img.baseAddr)
  imageBase : (∀ f ∈ iat, Apart (rvaWord img.baseField) f) → read64 mem (addr + rvaWord img.baseField) = addr
  bytes : ∀ i : Word, i.toNat < img.size.toNat → (∀ f ∈ Relocation.slots blocks ++ img.others iat, ¬ Covers f i) →
    mem (addr + i) = img.bytes i.toNat

/-- Seen from where they are, two copies of an image have the same contents, but for the cookie and some words. -/
structure SameRelative (img : Image) (blocks : List Block) (iat : List Word) (addr addr' : Word) (mem mem' : Mem) :
    Prop where
  slots : ∀ r ∈ slots blocks, (∀ f ∈ img.others iat, Apart r f) →
    read64 mem (addr + r) - addr = read64 mem' (addr' + r) - addr'
  imageBase : (∀ f ∈ iat, Apart (rvaWord img.baseField) f) →
    read64 mem (addr + rvaWord img.baseField) - addr = read64 mem' (addr' + rvaWord img.baseField) - addr'
  bytes : ∀ i : Word, i.toNat < img.size.toNat → (∀ f ∈ Relocation.slots blocks ++ img.others iat, ¬ Covers f i) →
    mem (addr + i) = mem' (addr' + i)

/-- Every address that the image is mapped to has it relocated, and all have the same relative contents. -/
structure Relocates (img : Image) (blocks : List Block) (iat : List Word) (p : Process) (name : Str)
    (skipImports : Bool) : Prop where
  exact : ∀ addr mem, addr ≠ 0 → Exact img blocks iat addr (mapImg img addr p name skipImports mem).1
  relative : ∀ addr addr' mem mem', addr ≠ 0 → addr' ≠ 0 → SameRelative img blocks iat addr addr'
    (mapImg img addr p name skipImports mem).1 (mapImg img addr' p name skipImports mem').1

/-! ## Counting from the base -/

def seen (addr : Word) (mem : Mem) : Mem := fun i => mem (addr + i)

theorem read64_seen (addr r : Word) (mem : Mem) : read64 (seen addr mem) r = read64 mem (addr + r) := by
  simp only [read64, seen, BitVec.add_assoc]

theorem seen_write64 (addr r v : Word) (mem : Mem) :
    seen addr (write64 mem (addr + r) v) = write64 (seen addr mem) r v := by
  funext i
  simp only [seen, write64, add_sub_add_left_eq_sub]

theorem seen_writeBytes (addr : Word) {i : Word} {n : Nat} (hi : i.toNat < n) (bytes : Nat → BitVec 8) (mem : Mem) :
    seen addr (writeBytes mem addr n bytes) i = bytes i.toNat := by
  have hsub : addr + i - addr = i := add_sub_cancel_left addr i
  rw [seen, writeBytes, hsub, if_pos hi]

/-! ## Words apart -/

theorem Apart.symm {f g : Word} (h : Apart f g) : Apart g f := ⟨h.2, h.1⟩

theorem Apart.not_covers {f g : Word} (h : Apart f g) {k : Nat} (hk : k < 8) :
    ¬ Covers g (f + BitVec.ofNat 64 k) := by
  obtain ⟨hfg, hgf⟩ := h
  have hsplit : f + BitVec.ofNat 64 k - g = f - g + BitVec.ofNat 64 k := by ring
  have hneg : (g - f).toNat = (2 ^ 64 - (f - g).toNat) % 2 ^ 64 := by
    rw [← neg_sub, BitVec.toNat_neg]
  rw [Covers, hsplit, BitVec.toNat_add, BitVec.toNat_ofNat]
  rw [hneg] at hgf
  have hlt := (f - g).isLt
  omega

theorem write64_out {f i : Word} (h : ¬ Covers f i) (m : Mem) (v : Word) : write64 m f v i = m i := if_neg h

theorem read64_write64_apart {f g : Word} (h : Apart f g) (m : Mem) (v : Word) :
    read64 (write64 m g v) f = read64 m f :=
  read64_congr fun _ hk => write64_out (h.not_covers hk) m v

def Untouched (fs : List Word) (m m' : Mem) : Prop := ∀ i, (∀ f ∈ fs, ¬ Covers f i) → m' i = m i

theorem Untouched.word {fs : List Word} {m m' : Mem} (h : Untouched fs m m') {r : Word} (hr : ∀ f ∈ fs, Apart r f) :
    read64 m' r = read64 m r :=
  read64_congr fun _ hk => h _ fun f hf => (hr f hf).not_covers hk

/-! ## The slots -/

def addWord (delta : Word) (m : Mem) (r : Word) : Mem := write64 m r (read64 m r + delta)

theorem foldl_addWord_untouched (delta : Word) (m : Mem) (rs : List Word) :
    Untouched rs m (rs.foldl (addWord delta) m) := by
  induction rs generalizing m with
  | nil => exact fun _ _ => rfl
  | cons r rs ih =>
    intro i hi
    obtain ⟨hr, hrs⟩ := List.forall_mem_cons.mp hi
    exact (ih _ i hrs).trans (write64_out hr m _)

theorem foldl_addWord_mem (delta : Word) {rs : List Word} (hapart : rs.Pairwise Apart) {r : Word} (hr : r ∈ rs)
    (m : Mem) : read64 (rs.foldl (addWord delta) m) r = read64 m r + delta := by
  induction rs generalizing m with
  | nil => cases hr
  | cons r' rs ih =>
    obtain ⟨hhead, htail⟩ := List.pairwise_cons.mp hapart
    rw [List.foldl_cons]
    rcases List.mem_cons.mp hr with rfl | hr
    · rw [(foldl_addWord_untouched delta _ rs).word hhead]
      exact read64_write64 m r _
    · rw [ih htail hr, addWord, read64_write64_apart (hhead r hr).symm]

variable {img : Image} {blocks : List Block} {addr : Word}

theorem seen_addDelta (mem : Mem) (r : Word) :
    seen addr (img.addDelta addr mem r) = addWord (img.delta addr) (seen addr mem) r := by
  rw [Image.addDelta, seen_write64, addWord, read64_seen]

theorem seen_relocateCookie (mem : Mem) :
    seen addr (img.relocateCookie addr mem) = img.cookie.toList.foldl (addWord (img.delta addr)) (seen addr mem) := by
  unfold Image.relocateCookie
  cases img.cookie with
  | none => rfl
  | some cookie => exact seen_addDelta mem cookie

theorem seen_relocate (relocs : List Reloc) (mem : Mem) :
    seen addr (relocs.foldl (img.relocateOne addr) mem) =
      ((relocs.filter fun reloc => reloc.type = dir64).map fun reloc => rvaWord reloc.rva).foldl
        (addWord (img.delta addr)) (seen addr mem) := by
  induction relocs generalizing mem with
  | nil => rfl
  | cons reloc relocs ih =>
    rw [List.foldl_cons, ih, Image.relocateOne]
    by_cases htype : reloc.type = dir64
    · rw [if_neg (not_not.mpr htype), List.filter_cons_of_pos (by simpa using htype), List.map_cons, List.foldl_cons,
        seen_addDelta]
    · rw [if_pos htype, List.filter_cons_of_neg (by simpa using htype)]

theorem bindImports_untouched (p : Process) (name : Str) (imports : List Import) (mem : Mem) :
    Untouched (imports.map fun imp => rvaWord imp.iatSlot) (seen addr mem)
      (seen addr (bindImports addr p name imports mem).1) := by
  induction imports generalizing mem with
  | nil => exact fun _ _ => rfl
  | cons imp imports ih =>
    intro i hi
    rw [List.map_cons] at hi
    obtain ⟨himp, himports⟩ := List.forall_mem_cons.mp hi
    rw [bindImports]
    cases importAddr p name imp with
    | none => rfl
    | some a =>
      refine (ih _ i himports).trans ?_
      rw [seen_write64]
      exact write64_out himp _ a

/-! ## The whole image -/

variable {p : Process} {name : Str} {skipImports : Bool} {mem : Mem}

theorem seen_mapImg (hpe : PeRelocs img blocks) (haddr : addr ≠ 0) (p : Process) (name : Str) (skipImports : Bool)
    (mem : Mem) :
    ∃ m : Mem, (∀ i : Word, i.toNat < img.size.toNat → m i = img.bytes i.toNat) ∧
      Untouched (img.iat skipImports)
        (write64
          ((slots blocks).foldl (addWord (img.delta addr)) (img.cookie.toList.foldl (addWord (img.delta addr)) m))
          (rvaWord img.baseField) addr)
        (seen addr (mapImg img addr p name skipImports mem).1) := by
  refine ⟨seen addr (writeBytes mem addr img.size.toNat img.bytes), fun i hi => seen_writeBytes addr hi _ _, ?_⟩
  rw [← seen_relocateCookie, slots, ← hpe, ← seen_relocate, ← seen_write64, mapImg, if_neg haddr, Image.iat]
  cases skipImports with
  | false => exact bindImports_untouched p name img.imports _
  | true => exact fun _ _ => rfl

theorem word_of_bytes {m : Mem} (hm : ∀ i : Word, i.toNat < img.size.toNat → m i = img.bytes i.toNat) {r : Word}
    (hr : r.toNat + 8 ≤ img.size.toNat) : read64 m r = img.word r := by
  refine read64_congr fun k hk => hm _ ?_
  have hsize := img.size.isLt
  rw [BitVec.toNat_add, BitVec.toNat_ofNat]
  omega

theorem mapImg_exact (hpe : PeRelocs img blocks) (hwell : WellFormed img blocks) (haddr : addr ≠ 0) :
    Exact img blocks (img.iat skipImports) addr (mapImg img addr p name skipImports mem).1 := by
  obtain ⟨m, hm, hbound⟩ := seen_mapImg hpe haddr p name skipImports mem
  refine ⟨fun r hr hothers => ?_, fun hiat => ?_, fun i hi hout => ?_⟩
  · obtain ⟨hcookie, hrest⟩ := List.forall_mem_append.mp hothers
    obtain ⟨hbase, hiat⟩ := List.forall_mem_cons.mp hrest
    rw [← read64_seen, hbound.word hiat, read64_write64_apart hbase, foldl_addWord_mem _ hwell.apart hr,
      (foldl_addWord_untouched _ m _).word hcookie, word_of_bytes hm (hwell.inside r hr)]
    rfl
  · rw [← read64_seen, hbound.word hiat, read64_write64]
  · obtain ⟨hslots, hothers⟩ := List.forall_mem_append.mp hout
    obtain ⟨hcookie, hrest⟩ := List.forall_mem_append.mp hothers
    obtain ⟨hbase, hiat⟩ := List.forall_mem_cons.mp hrest
    change seen addr _ i = _
    rw [hbound i hiat, write64_out hbase, foldl_addWord_untouched _ _ _ i hslots,
      foldl_addWord_untouched _ _ _ i hcookie, hm i hi]

theorem Exact.sameRelative {iat : List Word} {addr' : Word} {mem' : Mem} (h : Exact img blocks iat addr mem)
    (h' : Exact img blocks iat addr' mem') : SameRelative img blocks iat addr addr' mem mem' := by
  refine ⟨fun r hr hothers => ?_, fun hiat => ?_, fun i hi hout => ?_⟩
  · rw [h.slots r hr hothers, h'.slots r hr hothers]
    ring
  · rw [h.imageBase hiat, h'.imageBase hiat, sub_self, sub_self]
  · rw [h.bytes i hi hout, h'.bytes i hi hout]

/-- **Relocation is exact**: at every address the slots of the directory have the delta added once, the header names
the address, and every byte but those of the cookie and of the imports that are bound is the image's. -/
theorem mapImg_relocates (img : Image) (blocks : List Block) (hpe : PeRelocs img blocks) (hwell : WellFormed img blocks)
    (p : Process) (name : Str) (skipImports : Bool) :
    Relocates img blocks (img.iat skipImports) p name skipImports where
  exact _ _ haddr := mapImg_exact hpe hwell haddr
  relative _ _ _ _ haddr haddr' := (mapImg_exact hpe hwell haddr).sameRelative (mapImg_exact hpe hwell haddr')

/-! ## An image with an import -/

/-- Two slots, of which one lies across two pages, in blocks that are not in order, with padding. -/
def twoBlocks : List Block := [⟨0x2000, [⟨10, 0xffc⟩, ⟨0, 0⟩]⟩, ⟨0x1000, [⟨10, 0x10⟩]⟩]

def gImport : Import := ⟨ascii ['b'], false, 0, ascii ['g'], 0x3010⟩

def oneImport : Image where
  size := 0x4000
  bytes _ := 0
  baseAddr := 0x140000000
  loadConfig := some 0x140001800
  baseField := 0xb0
  relocs := [⟨10, 0x2ffc⟩, ⟨0, 0x2000⟩, ⟨10, 0x1010⟩]
  imports := [gImport]

theorem oneImport_peRelocs : PeRelocs oneImport twoBlocks := by
  unfold PeRelocs
  decide

theorem slots_twoBlocks : slots twoBlocks = [0x2ffc, 0x1010] := by decide +kernel

theorem oneImport_size : oneImport.size.toNat = 0x4000 := rfl

theorem oneImport_wellFormed : WellFormed oneImport twoBlocks where
  inside := by
    rw [slots_twoBlocks, oneImport_size]
    simp
  cookie r hr := by
    have hcookie : oneImport.cookie = some 0x1800 := by decide +kernel
    obtain rfl := Option.some.inj (hcookie.symm.trans hr)
    decide
  baseField := by decide
  apart := by
    rw [slots_twoBlocks]
    decide

def exporter : Process where
  findModuleByStem _ := none
  findOrLoad _ _ := some Exports.moduleB

theorem oneImport_relocates : Relocates oneImport twoBlocks (oneImport.iat false) exporter (ascii ['a']) false :=
  mapImg_relocates oneImport twoBlocks oneImport_peRelocs oneImport_wellFormed exporter (ascii ['a']) false

theorem importAddr_gImport : importAddr exporter (ascii ['a']) gImport = some 0x20500 := by decide +kernel

theorem bindImports_gImport (mem : Mem) :
    (bindImports 0x180000000 exporter (ascii ['a']) [gImport] mem).1 (0x180000000 + 0x3012) = 2 := by
  have hbind : (bindImports 0x180000000 exporter (ascii ['a']) [gImport] mem).1 =
      write64 mem (0x180000000 + rvaWord gImport.iatSlot) 0x20500 := by
    rw [bindImports, importAddr_gImport]
    rfl
  have haddr : (0x180000000 + 0x3012 : Word) = 0x180000000 + rvaWord gImport.iatSlot + BitVec.ofNat 64 2 := by
    decide +kernel
  rw [hbind, haddr, write64_inside mem _ _ (by decide : 2 < 8)]
  decide +kernel

theorem others_oneImport : oneImport.others [] = [0x1800, 0xb0] := by decide +kernel

/-- Binding an import is a change to the image too. -/
theorem oneImport_bound : ¬ ∀ img blocks p name skipImports, PeRelocs img blocks → WellFormed img blocks →
    Relocates img blocks [] p name skipImports := by
  intro hall
  have h := (hall oneImport twoBlocks exporter (ascii ['a']) false oneImport_peRelocs oneImport_wellFormed).exact
    0x180000000 (fun _ => 0) (by decide)
  have hclear : ∀ f ∈ slots twoBlocks ++ oneImport.others [], ¬ Covers f 0x3012 := by
    rw [slots_twoBlocks, others_oneImport]
    simp [Covers]
  have hbyte := h.bytes 0x3012 (by rw [oneImport_size]; decide) hclear
  have himports : oneImport.imports = [gImport] := rfl
  rw [mapImg, if_neg (by decide), if_neg Bool.false_ne_true, himports, bindImports_gImport] at hbyte
  cases hbyte

end Kernemul.Relocation
