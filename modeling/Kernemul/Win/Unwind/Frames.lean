import Kernemul.Win.Unwind.Decode
import Mathlib.Data.List.Chain

/-!
# Chains of frames

A frame is a function that was entered and has stopped, at the fault or in a call. Unwinding a frame whose
unwind data is right leads to its caller (`unwindFrame_of_halted`).
-/

namespace Kernemul.Unwind.X64

open Stack

/-- A function that was entered at `entry` and has stopped with the registers `gp`, `off` bytes in: at
the instruction that faulted, or at the last byte of a call. -/
structure Frame where
  mod : Module
  func : RuntimeFunction
  prologue : Prologue
  epilogs : List EpilogCode
  entry : Machine
  off : BitVec 32
  gp : Nat → Word

namespace Frame

variable (f : Frame)

def pc : Word := f.mod.addr + f.func.beginAddress.setWidth 64 + f.off.setWidth 64

def executed : List Op := f.prologue.executed f.off.toNat

def Saves (x : Word) : Prop := ∃ s ∈ retSlot :: slotsFrom 0 f.executed, ∃ i < s.len,
  x = s.addr (f.entry.gp rsp) + BitVec.ofNat 64 i

def base : Word := f.entry.gp rsp - BitVec.ofNat 64 (depth f.executed)

/-- The unwind data of the function is right, and found where it is looked for. -/
structure Valid : Prop where
  sorted : f.mod.funcs.Pairwise fun a b => a.endAddress ≤ b.beginAddress
  ordered : ∀ e ∈ f.mod.funcs, e.beginAddress ≤ e.endAddress
  listed : f.func ∈ f.mod.funcs
  inside : f.func.beginAddress.toNat + f.off.toNat < f.func.endAddress.toNat
  encodes : Encodes (f.mod.img f.func.unwindInfoRva) f.prologue f.epilogs

/-- `f` called `callee`: what the call pushed is the address after its last byte. -/
structure Calls (callee : Frame) : Prop where
  sp : callee.entry.gp rsp = f.gp rsp - 8#64
  gp : ∀ r, Nonvolatile r → callee.entry.gp r = f.gp r
  ret : read64 callee.entry.mem (callee.entry.gp rsp) = f.pc + 1#64

end Frame

variable {f : Frame}

theorem rvaOf_pc (f : Frame) :
    (f.pc - f.mod.addr).setWidth 32 = f.func.beginAddress + f.off := by
  have h := rvaInFunc_eq f.mod.addr f.func.beginAddress f.off
  calc (f.pc - f.mod.addr).setWidth 32
      = f.func.beginAddress + ((f.pc - f.mod.addr).setWidth 32 - f.func.beginAddress) := by ring
    _ = f.func.beginAddress + f.off := by rw [Frame.pc, h]

theorem lookupFunctionEntry_eq (hf : f.Valid) : lookupFunctionEntry f.mod f.pc = some f.func := by
  obtain ⟨i, hi, hfunc⟩ := List.getElem_of_mem hf.listed
  have hinside := hf.inside
  have hend := f.func.endAddress.isLt
  have hnat : (f.func.beginAddress + f.off).toNat = f.func.beginAddress.toNat + f.off.toNat := by
    rw [BitVec.toNat_add]
    exact Nat.mod_eq_of_lt (by omega)
  rw [lookupFunctionEntry, rvaOf_pc]
  apply lookupLoop_eq hf.sorted hf.ordered (List.getElem?_eq_some_iff.mpr ⟨hi, hfunc⟩) _ _
    (Nat.zero_le _) hi (le_refl _) (le_refl _)
  · rw [BitVec.le_def, hnat]
    omega
  · rw [BitVec.lt_def, hnat]
    exact hinside

theorem unwindFrame_of_halted (hf : f.Valid) {mem : Mem}
    (h : Halted f.prologue f.entry f.off.toNat f.gp mem) (ctx : UnwindContext) (hsp : ctx.sp = f.gp rsp)
    (hgp : ∀ r, Nonvolatile r → ctx.gp r = f.gp r) (hpc : ctx.pc = f.pc) (fuel : Nat) :
    ∃ result ctx', unwindFrame (fuel + 1) mem f.mod ctx = some (true, result, ctx') ∧
      result.establisherFrame = f.base ∧ ctx'.sp = f.entry.gp rsp + 8#64 ∧
      ctx'.pc = read64 f.entry.mem (f.entry.gp rsp) ∧
      ∀ r, Nonvolatile r → ctx'.gp r = f.entry.gp r := by
  obtain ⟨result, ctx', heq, hest, hsp', -, hpc', hgp'⟩ :=
    h.applyUnwindInfo hf.encodes hsp hgp hpc fuel
  refine ⟨{ result with functionEntry := functionEntryAddr f.mod f.func }, ctx', ?_, hest, hsp', hpc',
    hgp'⟩
  rw [unwindFrame, hpc, lookupFunctionEntry_eq hf]
  dsimp only
  rw [heq]
  rfl

/-! ## Registers along a chain -/

def savedValue (r : Nat) : List Frame → Option Word
  | [] => none
  | f :: fs =>
    (savedValue r fs).or (if r ∈ savedBy f.executed then some (f.entry.gp r) else none)

/-- A caller finds in a register what the outermost frame below it saved, or what it still holds. -/
theorem gp_eq_savedValue {f : Frame} {fs below : List Frame} {caller : Frame} {mem : Mem}
    (hchain : (f :: fs).IsChain fun callee caller => caller.Calls callee)
    (hhalt : ∀ g ∈ f :: fs, Halted g.prologue g.entry g.off.toNat g.gp mem)
    (hsplit : f :: fs = below ++ [caller]) {r : Nat} (hr : Nonvolatile r) :
    caller.gp r = (savedValue r below).getD (f.gp r) := by
  induction below generalizing f fs with
  | nil =>
    cases hsplit
    rfl
  | cons g below ih =>
    obtain ⟨rfl, hfs⟩ := List.cons.inj hsplit
    cases fs with
    | nil => simp at hfs
    | cons f' fs =>
      rw [List.isChain_cons_cons] at hchain
      have htail : ∀ g ∈ f' :: fs, Halted g.prologue g.entry g.off.toNat g.gp mem :=
        fun g hg => hhalt g (List.mem_cons_of_mem _ hg)
      rw [ih hchain.2 htail hfs, savedValue]
      cases hv : savedValue r below with
      | some v => rfl
      | none =>
        rw [Option.getD_none, ← hchain.1.gp r hr, Option.none_or]
        by_cases hsaved : r ∈ savedBy f.executed
        · rw [if_pos hsaved]
          rfl
        · rw [if_neg hsaved]
          exact ((hhalt f (List.mem_cons_self ..)).kept r hr hsaved).symm

end Kernemul.Unwind.X64
