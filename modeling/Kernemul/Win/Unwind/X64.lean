import Kernemul.Win.Unwind.Defs

/-!
# The x64 unwinder

`x64_unwind.cpp`. An image is given by the `UNWIND_INFO` found at each of its addresses; a code is a
16-bit word, the prologue offset in its low byte, then four bits of operation and four of operation
info. Guest memory is read as if all of it were mapped.
-/

namespace Kernemul.Unwind.X64

open Stack

def rsp : Nat := 4

/-- `pe::unwind_opcode_x64`. -/
inductive Opcode
  | pushNonvol
  | allocLarge
  | allocSmall
  | setFpreg
  | saveNonvol
  | saveNonvolFar
  | epilog
  | spare
  | saveXmm128
  | saveXmm128Far
  | pushMachframe
  | unknown
  deriving DecidableEq, Repr

/-! ## The parts of a code -/

def codeOffset (w : Nat) : Nat := w % 256

def codeInfo (w : Nat) : Nat := w / 4096 % 16

def opcode : Nat → Opcode
  | 0 => .pushNonvol
  | 1 => .allocLarge
  | 2 => .allocSmall
  | 3 => .setFpreg
  | 4 => .saveNonvol
  | 5 => .saveNonvolFar
  | 6 => .epilog
  | 7 => .spare
  | 8 => .saveXmm128
  | 9 => .saveXmm128Far
  | 10 => .pushMachframe
  | _ => .unknown

def codeOp (w : Nat) : Opcode := opcode (w / 256 % 16)

/-- `code.slots()`: the words a code takes, itself included. -/
def codeSlots (w : Nat) : Nat :=
  match codeOp w with
  | .allocLarge => if codeInfo w = 0 then 2 else 3
  | .saveNonvol => 2
  | .saveNonvolFar => 3
  | .epilog => 2
  | .spare => 3
  | .saveXmm128 => 2
  | .saveXmm128Far => 3
  | _ => 1

/-- `pe::unwind_info_x64`, with what follows its codes. -/
structure UnwindInfo where
  version : Nat := 1
  exceptionHandler : Bool := false
  unwindHandler : Bool := false
  chainInfo : Bool := false
  sizeOfProlog : Nat
  unwindCodeCount : Nat
  frameRegister : Nat := 0
  frameOffset : Nat := 0
  codes : Nat → Nat
  /-- `unwind_info_rva` of the entry after the codes, if they are chained. -/
  chained : Nat := 0
  /-- The word after the codes, if there is a handler. -/
  handlerRva : Nat := 0

/-- `pe::runtime_function_x64`. -/
structure RuntimeFunction where
  beginAddress : BitVec 32
  endAddress : BitVec 32
  unwindInfoRva : Nat
  deriving DecidableEq

abbrev Image := Nat → UnwindInfo

/-- `proc_module`, with the exception directory of its image. -/
structure Module where
  addr : Word
  size : Nat
  img : Image
  excRva : Nat
  funcs : List RuntimeFunction

def Module.containsAddr (mod : Module) (a : Word) : Bool :=
  decide (mod.addr ≤ a) && decide (a < mod.addr + BitVec.ofNat 64 mod.size)

/-- `lo | hi << 16` of the two words after a code. -/
def farOffset (codes : Nat → Nat) (i : Nat) : Nat := codes (i + 1) ||| codes (i + 2) <<< 16

def contextFromVcpu (gp : Nat → Word) (pc : Word) : UnwindContext where
  pc
  sp := gp rsp
  gp

def setGp (ctx : UnwindContext) (r : Nat) (v : Word) : UnwindContext :=
  { ctx with gp := Function.update ctx.gp r v }

/-- What the code at `i` undoes, unless it is a machine frame. -/
def applyCode (mem : Mem) (codes : Nat → Nat) (i : Nat) (ctx : UnwindContext) : UnwindContext :=
  let reg := codeInfo (codes i)
  match codeOp (codes i) with
  | .pushNonvol => { setGp ctx reg (read64 mem ctx.sp) with sp := ctx.sp + 8#64 }
  | .allocLarge =>
    if reg = 0 then { ctx with sp := ctx.sp + BitVec.ofNat 64 (codes (i + 1) * 8) }
    else { ctx with sp := ctx.sp + BitVec.ofNat 64 (farOffset codes i) }
  | .allocSmall => { ctx with sp := ctx.sp + BitVec.ofNat 64 (reg * 8 + 8) }
  | .saveNonvol => setGp ctx reg (read64 mem (ctx.sp + BitVec.ofNat 64 (codes (i + 1) * 8)))
  | .saveNonvolFar => setGp ctx reg (read64 mem (ctx.sp + BitVec.ofNat 64 (farOffset codes i)))
  | _ => ctx

def popMachframe (mem : Mem) (info : Nat) (ctx : UnwindContext) : UnwindContext :=
  let sp := if info = 1 then ctx.sp + 8#64 else ctx.sp
  let sp' := read64 mem (sp + 24#64)
  { setGp ctx rsp sp' with pc := read64 mem sp, sp := sp' }

/-- The loop over the codes; every pass takes a word or more, so `unwind_code_count` passes are enough.
The flag says that a machine frame ended the unwinding. -/
def applyCodes (mem : Mem) (info : UnwindInfo) (inProlog : Bool) (rvaInFunc : Nat) :
    Nat → Nat → UnwindContext → UnwindContext × Bool
  | 0, _, ctx => (ctx, false)
  | fuel + 1, i, ctx =>
    if i < info.unwindCodeCount then
      let code := info.codes i
      if inProlog && rvaInFunc < codeOffset code then
        applyCodes mem info inProlog rvaInFunc fuel (i + codeSlots code) ctx
      else if codeOp code = .pushMachframe then
        (popMachframe mem (codeInfo code) ctx, true)
      else
        applyCodes mem info inProlog rvaInFunc fuel (i + codeSlots code)
          (applyCode mem info.codes i ctx)
    else (ctx, false)

/-- Past the prologue, the stack pointer is found through the frame register, if there is one. -/
def fromFrame (info : UnwindInfo) (inProlog : Bool) (ctx : UnwindContext) : UnwindContext :=
  if info.frameRegister ≠ 0 ∧ inProlog = false then
    { ctx with sp := ctx.gp info.frameRegister - BitVec.ofNat 64 (info.frameOffset * 16) }
  else ctx

@[simp] theorem fromFrame_gp (info : UnwindInfo) (inProlog : Bool) (ctx : UnwindContext) :
    (fromFrame info inProlog ctx).gp = ctx.gp := by
  unfold fromFrame
  split <;> rfl

/-- `apply_unwind_info`; one unit of fuel for each entry of the chain. -/
def applyUnwindInfo (img : Image) (mem : Mem) (modAddr : Word) (func : RuntimeFunction) :
    Nat → Nat → UnwindContext → Option (UnwindResult × UnwindContext)
  | 0, _, _ => none
  | fuel + 1, unwindRva, ctx =>
    let info := img unwindRva
    let rvaInFunc := ((ctx.pc - modAddr).setWidth 32 - func.beginAddress).toNat
    let inProlog := decide (rvaInFunc < info.sizeOfProlog)
    let ctx := fromFrame info inProlog ctx
    let result : UnwindResult := { establisherFrame := ctx.sp }
    match applyCodes mem info inProlog rvaInFunc info.unwindCodeCount 0 ctx with
    | (ctx, true) => some (result, ctx)
    | (ctx, false) =>
      if info.chainInfo then applyUnwindInfo img mem modAddr func fuel info.chained ctx
      else
        let afterCodes := unwindRva + 4 + 2 * ((info.unwindCodeCount + 1) / 2 * 2)
        let result := if info.exceptionHandler || info.unwindHandler then
            { result with
              handler := modAddr + BitVec.ofNat 64 info.handlerRva
              handlerData := modAddr + BitVec.ofNat 64 (afterCodes + 4) }
          else result
        let sp := ctx.sp + 8#64
        some (result, { setGp ctx rsp sp with pc := read64 mem ctx.sp, sp })

/-! ## Frames -/

/-- `function_entry_addr`: where the entry sits in the guest's copy of the image. -/
def functionEntryAddr (mod : Module) (func : RuntimeFunction) : Word :=
  let i := mod.funcs.findIdx fun f => decide (f.beginAddress = func.beginAddress)
  if i < mod.funcs.length then mod.addr + BitVec.ofNat 64 (mod.excRva + i * 12) else 0

/-- The binary search over the entries; a pass takes one entry or more off the range. -/
def lookupLoop (funcs : List RuntimeFunction) (rva : BitVec 32) :
    Nat → Nat → Nat → Option RuntimeFunction
  | 0, _, _ => none
  | fuel + 1, lo, hi =>
    if lo < hi then
      let mid := lo + (hi - lo) / 2
      match funcs[mid]? with
      | none => none
      | some entry =>
        if rva < entry.beginAddress then lookupLoop funcs rva fuel lo mid
        else if entry.endAddress ≤ rva then lookupLoop funcs rva fuel (mid + 1) hi
        else some entry
    else none

def lookupFunctionEntry (mod : Module) (rip : Word) : Option RuntimeFunction :=
  lookupLoop mod.funcs ((rip - mod.addr).setWidth 32) mod.funcs.length 0 mod.funcs.length

/-- `unwind_frame`; nothing when the chain of unwind data does not end within the fuel. -/
def unwindFrame (fuel : Nat) (mem : Mem) (mod : Module) (ctx : UnwindContext) :
    Option (Bool × UnwindResult × UnwindContext) :=
  match lookupFunctionEntry mod ctx.pc with
  | none =>
    let pc := read64 mem ctx.sp
    some (decide (pc ≠ 0), { establisherFrame := ctx.sp }, { ctx with pc, sp := ctx.sp + 8#64 })
  | some func =>
    (applyUnwindInfo mod.img mem mod.addr func fuel func.unwindInfoRva ctx).map fun (result, ctx) =>
      (true, { result with functionEntry := functionEntryAddr mod func }, ctx)

theorem lookupLoop_eq {funcs : List RuntimeFunction} {rva : BitVec 32}
    (hsorted : funcs.Pairwise fun a b => a.endAddress ≤ b.beginAddress)
    (hwf : ∀ f ∈ funcs, f.beginAddress ≤ f.endAddress) {i : Nat} {func : RuntimeFunction}
    (hi : funcs[i]? = some func) (hbegin : func.beginAddress ≤ rva) (hend : rva < func.endAddress)
    {fuel lo hi' : Nat} (hlo : lo ≤ i) (hhi : i < hi') (hfuel : hi' - lo ≤ fuel)
    (hlen : hi' ≤ funcs.length) : lookupLoop funcs rva fuel lo hi' = some func := by
  induction fuel generalizing lo hi' with
  | zero => omega
  | succ fuel ih =>
    rw [lookupLoop, if_pos (by omega)]
    have hmid : lo + (hi' - lo) / 2 < funcs.length := by omega
    simp only [List.getElem?_eq_getElem hmid]
    obtain ⟨hi'', rfl⟩ := List.getElem?_eq_some_iff.mp hi
    rw [List.pairwise_iff_getElem] at hsorted
    rcases Nat.lt_trichotomy (lo + (hi' - lo) / 2) i with hlt | heq | hgt
    · have h1 := hsorted _ _ hmid hi'' hlt
      have h2 := hwf _ (List.getElem_mem hmid)
      rw [if_neg, if_pos]
      · exact ih (by omega) hhi (by omega) hlen
      · exact BitVec.le_trans h1 hbegin
      · rw [BitVec.not_lt]
        exact BitVec.le_trans h2 (BitVec.le_trans h1 hbegin)
    · subst heq
      rw [if_neg (BitVec.not_lt.mpr hbegin), if_neg (BitVec.not_le.mpr hend)]
    · have h1 := hsorted _ _ hi'' hmid hgt
      rw [if_pos]
      · exact ih hlo hgt (by omega) (by omega)
      · rw [BitVec.lt_def] at hend ⊢
        rw [BitVec.le_def] at h1
        exact Nat.lt_of_lt_of_le hend h1

end Kernemul.Unwind.X64
