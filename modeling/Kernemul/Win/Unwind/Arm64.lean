import Kernemul.Win.Unwind.Defs

/-!
# The ARM64 unwinder

`arm64_unwind.cpp`. The image is an array of bytes, read by its addresses; a code is one to four bytes.
Guest memory is read as if all of it were mapped.
-/

namespace Kernemul.Unwind.Arm64

open Stack

abbrev Image := Nat → BitVec 8

def regFp : Nat := 29

def regLr : Nat := 30

def maxGp : Nat := 31

def maxFp : Nat := 8

/-! ## Codes -/

/-- The unwind codes that describe an instruction, with the fields of their bytes. -/
inductive Op
  | allocS (x : Fin 32)
  | saveR19R20X (z : Fin 32)
  | saveFplr (z : Fin 64)
  | saveFplrX (z : Fin 64)
  | allocM (x : Fin 2048)
  | saveRegp (x : Fin 16) (z : Fin 64)
  | saveRegpX (x : Fin 16) (z : Fin 64)
  | saveReg (x : Fin 16) (z : Fin 64)
  | saveRegX (x : Fin 16) (z : Fin 32)
  | saveLrpair (x : Fin 8) (z : Fin 64)
  | saveFregp (x : Fin 8) (z : Fin 64)
  | saveFregpX (x : Fin 8) (z : Fin 64)
  | saveFreg (x : Fin 8) (z : Fin 64)
  | saveFregX (x : Fin 8) (z : Fin 32)
  | allocL (x : Fin (2 ^ 24))
  | setFp
  | addFp (x : Fin 256)
  | nop
  | saveNext
  deriving DecidableEq, Repr

inductive Code
  | op (o : Op)
  /-- `end` or `end_c`. -/
  | stop
  | pacSignLr
  | unhandled
  deriving DecidableEq, Repr

/-- The code at `i` of an array of `size` bytes, and its length. -/
def decode (codes : Nat → Nat) (i size : Nat) : Code × Nat :=
  let b0 := codes i
  let b1 := if i + 1 < size then codes (i + 1) else 0
  if b0 / 32 = 0 then (.op (.allocS (Fin.ofNat 32 b0)), 1)
  else if b0 / 32 = 1 then (.op (.saveR19R20X (Fin.ofNat 32 b0)), 1)
  else if b0 / 64 = 1 then (.op (.saveFplr (Fin.ofNat 64 b0)), 1)
  else if b0 / 64 = 2 then (.op (.saveFplrX (Fin.ofNat 64 b0)), 1)
  else if b0 / 8 = 0xC0 / 8 then (.op (.allocM (Fin.ofNat 2048 (b0 % 8 * 256 + b1))), 2)
  else if b0 / 4 = 0xC8 / 4 then
    (.op (.saveRegp (Fin.ofNat 16 (b0 % 4 * 4 + b1 / 64)) (Fin.ofNat 64 b1)), 2)
  else if b0 / 4 = 0xCC / 4 then
    (.op (.saveRegpX (Fin.ofNat 16 (b0 % 4 * 4 + b1 / 64)) (Fin.ofNat 64 b1)), 2)
  else if b0 / 4 = 0xD0 / 4 then
    (.op (.saveReg (Fin.ofNat 16 (b0 % 4 * 4 + b1 / 64)) (Fin.ofNat 64 b1)), 2)
  else if b0 / 2 = 0xD4 / 2 then
    (.op (.saveRegX (Fin.ofNat 16 (b0 % 2 * 8 + b1 / 32)) (Fin.ofNat 32 b1)), 2)
  else if b0 / 2 = 0xD6 / 2 then
    (.op (.saveLrpair (Fin.ofNat 8 (b0 % 2 * 4 + b1 / 64)) (Fin.ofNat 64 b1)), 2)
  else if b0 / 2 = 0xD8 / 2 then
    (.op (.saveFregp (Fin.ofNat 8 (b0 % 2 * 4 + b1 / 64)) (Fin.ofNat 64 b1)), 2)
  else if b0 / 2 = 0xDA / 2 then
    (.op (.saveFregpX (Fin.ofNat 8 (b0 % 2 * 4 + b1 / 64)) (Fin.ofNat 64 b1)), 2)
  else if b0 / 2 = 0xDC / 2 then
    (.op (.saveFreg (Fin.ofNat 8 (b0 % 2 * 4 + b1 / 64)) (Fin.ofNat 64 b1)), 2)
  else if b0 = 0xDE then (.op (.saveFregX (Fin.ofNat 8 (b1 / 32)) (Fin.ofNat 32 b1)), 2)
  else if b0 = 0xE0 then
    (.op (.allocL (Fin.ofNat (2 ^ 24)
      (codes (i + 1) * 2 ^ 16 + codes (i + 2) * 2 ^ 8 + codes (i + 3)))), 4)
  else if b0 = 0xE1 then (.op .setFp, 1)
  else if b0 = 0xE2 then (.op (.addFp (Fin.ofNat 256 b1)), 2)
  else if b0 = 0xE3 then (.op .nop, 1)
  else if b0 = 0xE4 ∨ b0 = 0xE5 then (.stop, 1)
  else if b0 = 0xE6 then (.op .saveNext, 1)
  else if b0 = 0xFC then (.pacSignLr, 1)
  else (.unhandled, 1)

def codeLen (b0 : Nat) : Nat :=
  if b0 / 128 = 0 then 1
  else if b0 / 64 = 2 then 1
  else if b0 = 0xE0 then 4
  else if b0 = 0xE2 then 2
  else if b0 ≥ 0xE1 then 1
  else 2

/-! ## `code_replayer` -/

/-- What a `save_next` continues. -/
structure Pair where
  fp : Bool
  reg : Nat
  off : Nat
  deriving DecidableEq, Repr

def Pair.next (p : Pair) : Pair := { p with reg := p.reg + 2, off := p.off + 16 }

/-- `last_pair_reg_ = 19, last_pair_off_ = 0, last_pair_fp_ = false`. -/
def firstPair : Pair := ⟨false, 19, 0⟩

section
variable (mem : Mem)

def loadGp (ctx : UnwindContext) (reg off : Nat) : UnwindContext :=
  { ctx with gp := Function.update ctx.gp reg (read64 mem (ctx.sp + BitVec.ofNat 64 off)) }

def loadReg (ctx : UnwindContext) (reg off : Nat) : UnwindContext :=
  if reg < maxGp then loadGp mem ctx reg off else ctx

def loadPair (ctx : UnwindContext) (reg off : Nat) : UnwindContext :=
  loadReg mem (loadReg mem ctx reg off) (if reg = regFp then regLr else reg + 1) (off + 8)

/-- `n` counts from d8. -/
def loadFp (ctx : UnwindContext) (n off : Nat) : UnwindContext :=
  if n < maxFp then
    { ctx with fpRegs := Function.update ctx.fpRegs n (read64 mem (ctx.sp + BitVec.ofNat 64 off)) }
  else ctx

def loadFpPair (ctx : UnwindContext) (n off : Nat) : UnwindContext :=
  loadFp mem (loadFp mem ctx n off) (n + 1) (off + 8)

def addSp (ctx : UnwindContext) (n : Nat) : UnwindContext :=
  { ctx with sp := ctx.sp + BitVec.ofNat 64 n }

def Op.replay (ctx : UnwindContext) (last : Pair) : Op → UnwindContext × Pair
  | allocS x => (addSp ctx (x * 16), last)
  | saveR19R20X z => (addSp (loadPair mem ctx 19 0) (z * 8), last)
  | saveFplr z => (loadPair mem ctx regFp (z * 8), last)
  | saveFplrX z => (addSp (loadPair mem ctx regFp 0) ((z + 1) * 8), last)
  | allocM x => (addSp ctx (x * 16), last)
  | saveRegp x z => (loadPair mem ctx (19 + x) (z * 8), ⟨false, 19 + x, z * 8⟩)
  | saveRegpX x z => (addSp (loadPair mem ctx (19 + x) 0) ((z + 1) * 8), ⟨false, 19 + x, 0⟩)
  | saveReg x z => (loadReg mem ctx (19 + x) (z * 8), last)
  | saveRegX x z => (addSp (loadReg mem ctx (19 + x) 0) ((z + 1) * 8), last)
  | saveLrpair x z => (loadReg mem (loadReg mem ctx (19 + 2 * x) (z * 8)) regLr (z * 8 + 8), last)
  | saveFregp x z => (loadFpPair mem ctx x (z * 8), ⟨true, x, z * 8⟩)
  | saveFregpX x z => (addSp (loadFpPair mem ctx x 0) ((z + 1) * 8), ⟨true, x, 0⟩)
  | saveFreg x z => (loadFp mem ctx x (z * 8), last)
  | saveFregX x z => (addSp (loadFp mem ctx x 0) ((z + 1) * 8), last)
  | allocL x => (addSp ctx (x * 16), last)
  | setFp => ({ ctx with sp := ctx.gp regFp }, last)
  | addFp x => ({ ctx with sp := ctx.gp regFp - BitVec.ofNat 64 (x * 8) }, last)
  | nop => (ctx, last)
  | saveNext =>
    let last := last.next
    (if last.fp then loadFpPair mem ctx last.reg last.off else loadPair mem ctx last.reg last.off,
      last)

/-- `run`: whether every code is known, and the context. A pass takes a byte or more. -/
def runCodes (codes : Nat → Nat) (size : Nat) :
    Nat → Nat → UnwindContext → Pair → Bool × UnwindContext
  | 0, _, ctx, _ => (true, ctx)
  | fuel + 1, i, ctx, last =>
    if i < size then
      match decode codes i size with
      | (.op op, n) =>
        runCodes codes size fuel (i + n) (op.replay mem ctx last).1 (op.replay mem ctx last).2
      | (.pacSignLr, n) => runCodes codes size fuel (i + n) ctx last
      | (.stop, _) => (true, ctx)
      | (.unhandled, _) => (false, ctx)
    else (true, ctx)

end

/-! ## `.xdata` records -/

def word (img : Image) (a : Nat) : Nat :=
  (img a).toNat + (img (a + 1)).toNat * 2 ^ 8 + (img (a + 2)).toNat * 2 ^ 16 +
    (img (a + 3)).toNat * 2 ^ 24

structure XdataHeader where
  functionLength : Nat
  epilogCount : Nat
  codeWords : Nat
  exceptionData : Bool
  epilogInHeader : Bool
  epilogScopes : Nat → Nat
  codes : Nat → Nat
  /-- Where the word after the codes lies in the image. -/
  afterCodes : Nat

def xdataHeader (img : Image) (rva w0 epilogCount codeWords next : Nat) : XdataHeader :=
  let epilogInHeader := decide (w0 / 2 ^ 21 % 2 = 1)
  let next' := if epilogInHeader then next else next + epilogCount
  { functionLength := w0 % 2 ^ 18 * 4
    epilogCount
    codeWords
    exceptionData := decide (w0 / 2 ^ 20 % 2 = 1)
    epilogInHeader
    epilogScopes := fun i => word img (rva + 4 * (next + i))
    codes := fun i => (img (rva + 4 * next' + i)).toNat
    afterCodes := rva + 4 * (next' + codeWords) }

def parseXdata (img : Image) (rva : Nat) : Option XdataHeader :=
  let w0 := word img rva
  let epilogCount := w0 / 2 ^ 22 % 32
  let codeWords := w0 / 2 ^ 27 % 32
  if w0 / 2 ^ 18 % 4 ≠ 0 then none
  else if epilogCount = 0 ∧ codeWords = 0 then
    let w1 := word img (rva + 4)
    some (xdataHeader img rva w0 (w1 % 2 ^ 16) (w1 / 2 ^ 16 % 256) 2)
  else some (xdataHeader img rva w0 epilogCount codeWords 1)

/-- The instructions of the epilogue whose codes begin at an index. -/
def extent (codes : Nat → Nat) (total : Nat) : Nat → Nat → Nat
  | 0, _ => 0
  | fuel + 1, i =>
    if i < total then
      if codes i = 0xE4 ∨ codes i = 0xE5 then 1
      else extent codes total fuel (i + codeLen (codes i)) + 1
    else 0

/-- The scopes from the `i`-th on, `left` of them. -/
def findScope (hdr : XdataHeader) (rva total : Nat) : Nat → Nat → Option (Nat × Nat)
  | 0, _ => none
  | left + 1, i =>
    let w := hdr.epilogScopes i
    let start := w % 2 ^ 18 * 4
    let at' := w / 2 ^ 22 % 2 ^ 10
    let insns := extent hdr.codes total total at'
    if at' < total ∧ start ≤ rva ∧ rva < start + insns * 4 then some (at', (rva - start) / 4)
    else findScope hdr rva total left (i + 1)

/-- `find_epilog`: the index of the epilogue an address lies in, and the instruction. -/
def findEpilog (hdr : XdataHeader) (rva total : Nat) : Option (Nat × Nat) :=
  if hdr.epilogInHeader then
    let at' := hdr.epilogCount
    if total ≤ at' then none
    else
      let insns := extent hdr.codes total total at'
      let start := (hdr.functionLength + 2 ^ 32 - insns * 4) % 2 ^ 32
      if start ≤ rva ∧ rva < hdr.functionLength then some (at', (rva - start) / 4) else none
  else findScope hdr rva total hdr.epilogCount 0

/-- The index `k` codes further on. -/
def skipCodes (codes : Nat → Nat) (total : Nat) : Nat → Nat → Nat
  | 0, i => i
  | k + 1, i => if i < total then skipCodes codes total k (i + codeLen (codes i)) else i

/-! ## Frames -/

structure FunctionEntry where
  beginRva : BitVec 32
  length : Nat
  unwindData : Nat
  packed : Bool

/-- A module with its image; `funcs` is the exception directory, begin address and unwind data. -/
structure Module where
  addr : Word
  img : Image
  funcs : List (BitVec 32 × Nat)

def lookupLoop (funcs : List (BitVec 32 × Nat)) (rva : BitVec 32) : Nat → Nat → Nat → Nat
  | 0, lo, _ => lo
  | fuel + 1, lo, hi =>
    if lo < hi then
      let mid := lo + (hi - lo) / 2
      if (funcs.getD mid (0, 0)).1 ≤ rva then lookupLoop funcs rva fuel (mid + 1) hi
      else lookupLoop funcs rva fuel lo mid
    else lo

def lookupFunctionEntry (mod : Module) (pc : Word) : Option FunctionEntry :=
  let rva := (pc - mod.addr).setWidth 32
  let lo := lookupLoop mod.funcs rva mod.funcs.length 0 mod.funcs.length
  if lo = 0 then none
  else
    let entry := mod.funcs.getD (lo - 1) (0, 0)
    let packed := decide (entry.2 % 4 ≠ 0)
    let length := if packed then entry.2 / 4 % 2 ^ 11 * 4 else word mod.img entry.2 % 2 ^ 18 * 4
    if entry.1 + BitVec.ofNat 32 length ≤ rva then none
    else some { beginRva := entry.1, length, unwindData := entry.2, packed }

/-- Load registers from `off` on, the first of them `first`. -/
def loadRun (load : UnwindContext → Nat → Nat → UnwindContext) (first off n : Nat)
    (ctx : UnwindContext) : UnwindContext :=
  (List.range n).foldl (fun ctx k => load ctx (first + k) (off + 8 * k)) ctx

def applyPacked (mem : Mem) (packed : Nat) (ctx : UnwindContext) : Bool × UnwindContext :=
  let regF := packed / 2 ^ 13 % 8
  let regI := packed / 2 ^ 16 % 16
  let h := packed / 2 ^ 20 % 2
  let cr := packed / 2 ^ 21 % 4
  let frameSize := packed / 2 ^ 23 % 2 ^ 9 * 16
  let fpCount := if regF = 0 then 0 else regF + 1
  let chained := cr = 2 ∨ cr = 3
  let lrSaved := cr = 1
  let lrs := if lrSaved then 1 else 0
  let saved := (8 * (regI + lrs + fpCount) + (if h = 0 then 0 else 64) + 15) / 16 * 16
  if ¬ chained ∧ saved > frameSize then (false, ctx)
  else
    let area := if chained then 0x10 else frameSize - saved
    let ctx := if chained then loadGp mem (loadGp mem ctx regFp 0) regLr 8 else ctx
    let ctx := loadRun (loadGp mem) 19 area regI ctx
    let ctx := if lrSaved then loadGp mem ctx regLr (area + 8 * regI) else ctx
    let ctx := loadRun (loadFp mem) 0 (area + 8 * (regI + lrs)) fpCount ctx
    (true, addSp ctx frameSize)

def toCaller (ctx : UnwindContext) : Bool × UnwindContext :=
  (decide (ctx.gp regLr ≠ 0), { ctx with pc := ctx.gp regLr })

/-- The part of `unwind_frame` for a function with a record. -/
def unwindXdata (mem : Mem) (mod : Module) (func : FunctionEntry) (hdr : XdataHeader)
    (ctx : UnwindContext) : Bool × UnwindResult × UnwindContext :=
  let rvaInFunc := ((ctx.pc - mod.addr).setWidth 32 - func.beginRva).toNat
  let total := hdr.codeWords * 4
  let start := match findEpilog hdr rvaInFunc total with
    | some (at', k) => skipCodes hdr.codes total k at'
    | none => 0
  let result : UnwindResult := { establisherFrame := ctx.sp }
  match runCodes mem hdr.codes total (total - start) start ctx firstPair with
  | (false, ctx) => (false, result, ctx)
  | (true, ctx) =>
    let result := if hdr.exceptionData then
        { result with
          handler := mod.addr + BitVec.ofNat 64 (word mod.img hdr.afterCodes)
          handlerData := mod.addr + BitVec.ofNat 64 (hdr.afterCodes + 4) }
      else result
    let (ok, ctx) := toCaller ctx
    (ok, result, ctx)

def unwindFrame (mem : Mem) (mod : Module) (ctx : UnwindContext) :
    Bool × UnwindResult × UnwindContext :=
  let result : UnwindResult := { establisherFrame := ctx.sp }
  let leave := fun ctx => ((toCaller ctx).1, result, (toCaller ctx).2)
  match lookupFunctionEntry mod ctx.pc with
  | none => leave ctx
  | some func =>
    if ctx.pc = mod.addr + func.beginRva.setWidth 64 then leave ctx
    else if func.packed then
      match applyPacked mem func.unwindData ctx with
      | (false, ctx) => (false, result, ctx)
      | (true, ctx) => leave ctx
    else
      match parseXdata mod.img func.unwindData with
      | none => (false, result, ctx)
      | some hdr => unwindXdata mem mod func hdr ctx

end Kernemul.Unwind.Arm64
