import Kernemul.Lib.Bits
import Kernemul.Lib.ByteMemory
import Kernemul.Win.GuestCall

/-!
# The calling conventions (`x86_win_conv`, `arm64_win_conv`, `make_redirect`)

The first arguments are in registers, the others in slots of eight bytes above the stack pointer: on x86 above the
return address and the home space, on ARM64 right at it. `guest_caller::call` and `thread_scheduler::enqueue` both put a
return address and the arguments in place, one on the cpu and one in the bank of a thread. A handler that is bound to an
export reads them back, each in the size of its parameter's type, and the hook then goes to the return address.

Reads and writes of memory are those that do not fault. The addresses of the slots wrap at 64 bits.
-/

namespace Kernemul.CallingConv

open GuestCall (File scratchBase wordBelow restore)
open ByteMemory

/-- A convention, with what keeps the places of its arguments apart. -/
structure Conv (R : Type) [DecidableEq R] extends GuestCall.Arch R where
  /-- From the stack pointer on entry to the first argument on the stack. -/
  first : Nat
  argRegs_nodup : argRegs.Nodup
  special_nodup : (pc :: sp :: link.toList).Nodup
  special_notMem : ∀ r ∈ pc :: sp :: link.toList, r ∉ argRegs
  special_ne_ret : ∀ r ∈ pc :: sp :: link.toList, r ≠ ret
  mem_regs : ∀ r, r ∈ regs
  stackArgOff_eq : ∀ i, argRegs.length ≤ i → stackArgOff i = first + 8 * (i - argRegs.length)
  first_dvd : 8 ∣ first
  first_le : first ≤ 0x28
  /-- A return address on the stack is below the arguments. -/
  first_ret : link = none → 8 ≤ first

def x86WinConv : Conv Context.Reg where
  toArch := GuestCall.x86
  first := 8 + 0x20
  argRegs_nodup := by decide
  special_nodup := by decide
  special_notMem := by decide
  special_ne_ret := by decide
  mem_regs r := by cases r <;> simp [GuestCall.x86]
  stackArgOff_eq i _ := by
    show 8 + 0x20 + (i - 4) * 8 = 8 + 0x20 + 8 * (i - 4)
    rw [Nat.mul_comm]
  first_dvd := by decide
  first_le := by decide
  first_ret _ := by decide

def arm64WinConv : Conv GuestCall.Arm64Reg where
  toArch := GuestCall.arm64
  first := 0
  argRegs_nodup := by decide
  special_nodup := by decide
  special_notMem := by decide
  special_ne_ret := by decide
  mem_regs r := by cases r <;> simp [GuestCall.arm64]
  stackArgOff_eq i _ := by
    show (i - 8) * 8 = 0 + 8 * (i - 8)
    rw [Nat.mul_comm, Nat.zero_add]
  first_dvd := by decide
  first_le := by decide
  first_ret h := by cases h

structure Machine (R : Type) where
  file : File R
  mem : Memory

def encodeWord (v : BitVec 64) : List UInt8 := Bytes.ofNat 8 v.toNat

variable {R : Type} [DecidableEq R] {C : Conv R} {m : Machine R}

def Machine.setReg (m : Machine R) (r : R) (v : Nat) : Machine R := { m with file := Function.update m.file r v }

def Machine.writeWord (m : Machine R) (va : Nat) (v : BitVec 64) : Machine R :=
  { m with mem := writeMem m.mem va (encodeWord v) }

def Conv.slot (C : Conv R) (sp i : Nat) : Nat := (sp + C.stackArgOff i) % 2 ^ 64

/-- `write_arg`, and `set_arg` on the bank of a thread. -/
def Conv.writeArg (C : Conv R) (m : Machine R) (i : Nat) (v : BitVec 64) : Machine R :=
  match C.argRegs[i]? with
  | some r => m.setReg r v.toNat
  | none => m.writeWord (C.slot (m.file C.sp) i) v

/-- `arg_read`: of a register, the low bytes. -/
def Conv.argRead (C : Conv R) (m : Machine R) (i size : Nat) : List UInt8 :=
  match C.argRegs[i]? with
  | some r => Bytes.ofNat size (m.file r)
  | none => readMem m.mem (C.slot (m.file C.sp) i) size

/-- `ret_write`: what is shorter than the register is extended with zeros. -/
def Conv.retWrite (C : Conv R) (m : Machine R) (bytes : List UInt8) : Machine R := m.setReg C.ret (Bytes.toNat bytes)

def Conv.setRetAddr (C : Conv R) (m : Machine R) (addr : BitVec 64) : Machine R :=
  match C.link with
  | some lr => m.setReg lr addr.toNat
  | none =>
    let rsp := wordBelow (m.file C.sp)
    (m.writeWord rsp addr).setReg C.sp rsp

/-- `ret_addr`, which takes a return address off the stack. -/
def Conv.retAddr (C : Conv R) (m : Machine R) : Nat × Machine R :=
  match C.link with
  | some lr => (m.file lr, m)
  | none => (Bytes.toNat (readMem m.mem (m.file C.sp) 8), m.setReg C.sp ((m.file C.sp + 8) % 2 ^ 64))

/-- The arguments from the index `i` on. -/
def Conv.writeArgs (C : Conv R) (m : Machine R) : Nat → List (BitVec 64) → Machine R
  | _, [] => m
  | i, v :: vs => C.writeArgs (C.writeArg m i v) (i + 1) vs

/-! ## Where the arguments are -/

@[simp] theorem Machine.setReg_mem (m : Machine R) (r : R) (v : Nat) : (m.setReg r v).mem = m.mem := rfl

@[simp] theorem Machine.setReg_self (m : Machine R) (r : R) (v : Nat) : (m.setReg r v).file r = v :=
  Function.update_self ..

variable {r : R}

theorem Machine.setReg_of_ne {r' : R} (h : r ≠ r') (m : Machine R) (v : Nat) : (m.setReg r' v).file r = m.file r :=
  Function.update_of_ne h _ _

@[simp] theorem length_encodeWord (v : BitVec 64) : (encodeWord v).length = 8 := Bytes.length_ofNat 8 _

theorem take_ofNat {j k : Nat} (h : j ≤ k) (n : Nat) : (Bytes.ofNat k n).take j = Bytes.ofNat j n := by
  induction j generalizing k n with
  | zero => rfl
  | succ j ih =>
    obtain ⟨k, rfl⟩ : ∃ k', k = k' + 1 := ⟨k - 1, by omega⟩
    rw [Bytes.ofNat, Bytes.ofNat, List.take_succ_cons, ih (by omega)]

theorem take_readMem {j k : Nat} (h : j ≤ k) (mem : Memory) (va : Nat) :
    (readMem mem va k).take j = readMem mem va j := by
  rw [readMem, readMem, ← List.map_take, List.take_range, min_eq_left h]

omit [DecidableEq R] in
theorem Machine.readMem_writeWord (m : Machine R) (va : Nat) (v : BitVec 64) {size : Nat} (h : size ≤ 8) :
    readMem (m.writeWord va v).mem va size = Bytes.ofNat size v.toNat := by
  have hword : readMem (m.writeWord va v).mem va 8 = encodeWord v := by
    rw [← length_encodeWord v]
    exact readMem_writeMem m.mem va (encodeWord v)
  rw [← take_readMem h, hword, encodeWord, take_ofNat h]

omit [DecidableEq R] in
theorem Machine.writeWord_of_out {va a : Nat} (h : a < va ∨ va + 8 ≤ a) (m : Machine R) (v : BitVec 64) :
    (m.writeWord va v).mem a = m.mem a :=
  writeMem_of_out (by rwa [length_encodeWord])

def Aligned (sp : Nat) : Prop := sp % 8 = 0 ∧ sp < 2 ^ 64

variable {sp i : Nat}

theorem Conv.slot_eq (hi : C.argRegs.length ≤ i) :
    C.slot sp i = (sp + C.first + 8 * (i - C.argRegs.length)) % 2 ^ 64 := by
  rw [Conv.slot, C.stackArgOff_eq i hi, Nat.add_assoc]

theorem Conv.slot_apart {j : Nat} (hsp : Aligned sp) (hi : C.argRegs.length ≤ i) (hj : C.argRegs.length ≤ j)
    (hne : i ≠ j) (hlti : i < 2 ^ 60) (hltj : j < 2 ^ 60) :
    C.slot sp i + 8 ≤ C.slot sp j ∨ C.slot sp j + 8 ≤ C.slot sp i := by
  obtain ⟨hmod, hlt⟩ := hsp
  obtain ⟨c, hc⟩ := C.first_dvd
  rw [C.slot_eq hi, C.slot_eq hj]
  omega

theorem Conv.slot_ret (hsp : Aligned sp) (hi : C.argRegs.length ≤ i) (hlt : i < 2 ^ 60)
    (hlink : C.link = none) : sp + 8 ≤ C.slot sp i ∨ C.slot sp i + 8 ≤ sp := by
  obtain ⟨hmod, hsp'⟩ := hsp
  obtain ⟨c, hc⟩ := C.first_dvd
  have hret := C.first_ret hlink
  have hle := C.first_le
  rw [C.slot_eq hi]
  omega

/-! ## One argument -/

theorem Conv.sp_notMem (C : Conv R) : C.sp ∉ C.argRegs := C.special_notMem C.sp (by simp)

theorem Conv.pc_notMem (C : Conv R) : C.pc ∉ C.argRegs := C.special_notMem C.pc (by simp)

theorem Conv.link_notMem {lr : R} (h : C.link = some lr) : lr ∉ C.argRegs := C.special_notMem lr (by simp [h])

theorem Conv.notMem_getElem? {r' : R} (hr : r ∉ C.argRegs) (h : C.argRegs[i]? = some r') : r ≠ r' := by
  rintro rfl
  exact hr (List.mem_of_getElem? h)

theorem Conv.writeArg_file (hr : r ∉ C.argRegs) (m : Machine R) (i : Nat) (v : BitVec 64) :
    (C.writeArg m i v).file r = m.file r := by
  unfold Conv.writeArg
  split
  · rename_i r' hr'
    exact m.setReg_of_ne (C.notMem_getElem? hr hr') _
  · rfl

theorem Conv.writeArg_mem {a : Nat} {v : BitVec 64}
    (h : C.argRegs.length ≤ i → a < C.slot (m.file C.sp) i ∨ C.slot (m.file C.sp) i + 8 ≤ a) :
    (C.writeArg m i v).mem a = m.mem a := by
  unfold Conv.writeArg
  split
  · rfl
  · rename_i hnone
    exact m.writeWord_of_out (h (List.getElem?_eq_none_iff.mp hnone)) v

variable {size : Nat}

theorem Conv.argRead_writeArg (C : Conv R) (m : Machine R) (i : Nat) (v : BitVec 64) (h : size ≤ 8) :
    C.argRead (C.writeArg m i v) i size = Bytes.ofNat size v.toNat := by
  unfold Conv.argRead Conv.writeArg
  split
  · rw [Machine.setReg_self]
  · exact m.readMem_writeWord _ v h

theorem Conv.argRead_writeArg_of_ne {j : Nat} {v : BitVec 64} (hsp : Aligned (m.file C.sp)) (hne : i ≠ j)
    (hi : i < 2 ^ 60) (hj : j < 2 ^ 60) (hsize : size ≤ 8) :
    C.argRead (C.writeArg m j v) i size = C.argRead m i size := by
  unfold Conv.argRead
  split
  · rename_i r hr
    unfold Conv.writeArg
    split
    · rename_i r' hr'
      have hrne : r ≠ r' := by
        rintro rfl
        obtain ⟨hlti, hri⟩ := List.getElem?_eq_some_iff.mp hr
        obtain ⟨hltj, hrj⟩ := List.getElem?_eq_some_iff.mp hr'
        exact hne ((List.Nodup.getElem_inj_iff C.argRegs_nodup).mp (hri.trans hrj.symm))
      rw [m.setReg_of_ne hrne]
    · rfl
  · rename_i hnone
    rw [C.writeArg_file C.sp_notMem]
    refine readMem_congr fun a hle hlt => C.writeArg_mem fun hjlen => ?_
    have hapart := C.slot_apart hsp (List.getElem?_eq_none_iff.mp hnone) hjlen hne hi hj
    omega

theorem Conv.retAddr_writeArg {v : BitVec 64} (hsp : Aligned (m.file C.sp)) (hi : i < 2 ^ 60) :
    (C.retAddr (C.writeArg m i v)).1 = (C.retAddr m).1 := by
  unfold Conv.retAddr
  split
  · rename_i lr hlr
    exact C.writeArg_file (C.link_notMem hlr) m i v
  · rename_i hnone
    rw [C.writeArg_file C.sp_notMem]
    refine congrArg Bytes.toNat (readMem_congr fun a hle hlt => C.writeArg_mem fun hlen => ?_)
    have hapart := C.slot_ret hsp hlen hi hnone
    omega

/-! ## All arguments -/

variable {vs : List (BitVec 64)}

theorem Conv.writeArgs_file (hr : r ∉ C.argRegs) :
    (C.writeArgs m i vs).file r = m.file r := by
  induction vs generalizing m i with
  | nil => rfl
  | cons v vs ih => rw [Conv.writeArgs, ih, C.writeArg_file hr]

theorem Conv.writeArgs_mem {a : Nat} (h : ∀ j, i ≤ j → j < i + vs.length → C.argRegs.length ≤ j →
      a < C.slot (m.file C.sp) j ∨ C.slot (m.file C.sp) j + 8 ≤ a) :
    (C.writeArgs m i vs).mem a = m.mem a := by
  induction vs generalizing m i with
  | nil => rfl
  | cons v vs ih =>
    rw [List.length_cons] at h
    rw [Conv.writeArgs, ih, C.writeArg_mem fun hlen => h i (by omega) (by omega) hlen]
    intro j hle hlt hlen
    rw [C.writeArg_file C.sp_notMem]
    exact h j (by omega) (by omega) hlen

theorem Conv.argRead_writeArgs_of_lt {j : Nat} (hsp : Aligned (m.file C.sp))
    (hlt : i < j) (hlen : j + vs.length < 2 ^ 60) (hsize : size ≤ 8) :
    C.argRead (C.writeArgs m j vs) i size = C.argRead m i size := by
  induction vs generalizing m j with
  | nil => rfl
  | cons v vs ih =>
    rw [List.length_cons] at hlen
    have hsp' : Aligned ((C.writeArg m j v).file C.sp) := by rwa [C.writeArg_file C.sp_notMem]
    rw [Conv.writeArgs, ih hsp' (by omega) (by omega),
      C.argRead_writeArg_of_ne hsp (by omega) (by omega) (by omega) hsize]

theorem Conv.argRead_writeArgs {k : Nat} (hsp : Aligned (m.file C.sp))
    (hk : k < vs.length) (hlen : i + vs.length < 2 ^ 60) (hsize : size ≤ 8) :
    C.argRead (C.writeArgs m i vs) (i + k) size = Bytes.ofNat size vs[k].toNat := by
  induction vs generalizing m i k with
  | nil => simp at hk
  | cons v vs ih =>
    rw [List.length_cons] at hlen hk
    have hsp' : Aligned ((C.writeArg m i v).file C.sp) := by rwa [C.writeArg_file C.sp_notMem]
    rw [Conv.writeArgs]
    cases k with
    | zero =>
      rw [C.argRead_writeArgs_of_lt hsp' (by omega) (by omega) hsize]
      exact C.argRead_writeArg m i v hsize
    | succ k =>
      rw [List.getElem_cons_succ, ← ih (i := i + 1) hsp' (by omega) (by omega), Nat.add_assoc, Nat.add_comm 1 k]

theorem Conv.retAddr_writeArgs (hsp : Aligned (m.file C.sp))
    (hlen : i + vs.length < 2 ^ 60) : (C.retAddr (C.writeArgs m i vs)).1 = (C.retAddr m).1 := by
  induction vs generalizing m i with
  | nil => rfl
  | cons v vs ih =>
    rw [List.length_cons] at hlen
    have hsp' : Aligned ((C.writeArg m i v).file C.sp) := by rwa [C.writeArg_file C.sp_notMem]
    rw [Conv.writeArgs, ih hsp' (by omega), C.retAddr_writeArg hsp (by omega)]

/-! ## Entering a routine -/

theorem wordBelow_eq (a : Nat) : wordBelow a = (a + (2 ^ 64 - 8)) % 2 ^ 64 := by
  rw [wordBelow, BitVec.toNat_sub]
  simp only [BitVec.toNat_ofNat]
  omega

def Conv.entrySp (C : Conv R) (sp : Nat) : Nat := if C.link.isNone then wordBelow sp else sp

theorem Conv.entrySp_aligned (h : Aligned sp) : Aligned (C.entrySp sp) := by
  obtain ⟨hmod, hlt⟩ := h
  unfold Conv.entrySp
  split
  · rw [wordBelow_eq]
    exact ⟨by omega, by omega⟩
  · exact ⟨hmod, hlt⟩

theorem Conv.link_ne_sp {lr : R} (h : C.link = some lr) : C.sp ≠ lr := by
  have hnodup := C.special_nodup
  simp only [h, Option.toList_some, List.nodup_cons, List.mem_singleton] at hnodup
  exact hnodup.2.1

theorem Conv.setRetAddr_sp (C : Conv R) (m : Machine R) (addr : BitVec 64) :
    (C.setRetAddr m addr).file C.sp = C.entrySp (m.file C.sp) := by
  unfold Conv.setRetAddr Conv.entrySp
  split
  · rename_i lr hlr
    rw [m.setReg_of_ne (C.link_ne_sp hlr), hlr]
    rfl
  · rename_i hnone
    rw [Machine.setReg_self, hnone]
    rfl

theorem Conv.retAddr_setRetAddr (C : Conv R) (m : Machine R) (addr : BitVec 64) :
    (C.retAddr (C.setRetAddr m addr)).1 = addr.toNat := by
  unfold Conv.retAddr Conv.setRetAddr
  split
  · rw [Machine.setReg_self]
  · dsimp only
    rw [Machine.setReg_self, Machine.setReg_mem, m.readMem_writeWord _ addr (Nat.le_refl 8)]
    exact Bytes.toNat_ofNat_of_lt addr.isLt

theorem Conv.setRetAddr_mem {addr : BitVec 64} {a : Nat}
    (h : C.link = none → a < C.entrySp (m.file C.sp) ∨ C.entrySp (m.file C.sp) + 8 ≤ a) :
    (C.setRetAddr m addr).mem a = m.mem a := by
  unfold Conv.setRetAddr
  split
  · rfl
  · rename_i hnone
    specialize h hnone
    rw [Conv.entrySp, hnone] at h
    exact m.writeWord_of_out h addr

/-- The return address, then the arguments: what `guest_caller::call` and `enqueue` have in common. -/
def Conv.prepare (C : Conv R) (m : Machine R) (ret : BitVec 64) (args : List (BitVec 64)) : Machine R :=
  C.writeArgs (C.setRetAddr m ret) 0 args

structure Entered (C : Conv R) (ret : BitVec 64) (args : List (BitVec 64)) (m : Machine R) : Prop where
  arg : ∀ i (h : i < args.length) size, size ≤ 8 → C.argRead m i size = Bytes.ofNat size args[i].toNat
  ret : (C.retAddr m).1 = ret.toNat

variable {ret : BitVec 64} {args : List (BitVec 64)}

theorem Conv.entered_prepare (hsp : Aligned (m.file C.sp)) (ret : BitVec 64) (hlen : args.length < 2 ^ 60) :
    Entered C ret args (C.prepare m ret args) := by
  have hentry : Aligned ((C.setRetAddr m ret).file C.sp) := by
    rw [C.setRetAddr_sp]
    exact C.entrySp_aligned hsp
  refine ⟨fun i hi size hsize => ?_, ?_⟩
  · have hread := C.argRead_writeArgs (i := 0) hentry hi (by omega) hsize
    rwa [Nat.zero_add] at hread
  · rw [Conv.prepare, C.retAddr_writeArgs hentry (by omega), C.retAddr_setRetAddr]

theorem Conv.prepare_sp (C : Conv R) (m : Machine R) (ret : BitVec 64) (args : List (BitVec 64)) :
    (C.prepare m ret args).file C.sp = C.entrySp (m.file C.sp) := by
  rw [Conv.prepare, C.writeArgs_file C.sp_notMem, C.setRetAddr_sp]

/-- What an entry takes from the stack pointer upwards: the return address, the home space, the slots. -/
def Conv.frame (C : Conv R) (n : Nat) : Nat := C.first + 8 * (n - C.argRegs.length)

/-- The part of it that is above the stack pointer before the return address. -/
def Conv.above (C : Conv R) (n : Nat) : Nat := if C.link.isNone then C.frame n - 8 else C.frame n

theorem Conv.entrySp_frame (C : Conv R) (n : Nat) (h : 8 ≤ sp) (hlt : sp < 2 ^ 64) :
    C.entrySp sp + C.frame n = sp + C.above n ∧ C.entrySp sp ≤ sp ∧ sp ≤ C.entrySp sp + 8 := by
  unfold Conv.entrySp Conv.above
  split
  · rename_i hnone
    have hret := C.first_ret (Option.isNone_iff_eq_none.mp hnone)
    rw [wordBelow_eq, Conv.frame]
    omega
  · exact ⟨rfl, Nat.le_refl sp, by omega⟩

theorem Conv.prepare_mem {a : Nat}
    (hroom : C.entrySp (m.file C.sp) + C.frame args.length ≤ 2 ^ 64)
    (ha : a < C.entrySp (m.file C.sp) ∨ C.entrySp (m.file C.sp) + C.frame args.length ≤ a) :
    (C.prepare m ret args).mem a = m.mem a := by
  unfold Conv.frame at hroom ha
  rw [Conv.prepare, C.writeArgs_mem, C.setRetAddr_mem]
  · intro hnone
    have hret := C.first_ret hnone
    omega
  · intro j _ hlt hlen
    rw [C.setRetAddr_sp, C.slot_eq hlen, Nat.mod_eq_of_lt (by omega)]
    omega

def Conv.jump (C : Conv R) (m : Machine R) (routine : BitVec 64) : Machine R := m.setReg C.pc routine.toNat

theorem Conv.pc_ne_sp (C : Conv R) : C.sp ≠ C.pc := by
  have hnodup := C.special_nodup
  simp only [List.nodup_cons, List.mem_cons, not_or] at hnodup
  exact Ne.symm hnodup.1.1

theorem Conv.pc_ne_link {lr : R} (h : C.link = some lr) : lr ≠ C.pc := by
  have hnodup := C.special_nodup
  simp only [h, Option.toList_some, List.nodup_cons, List.mem_cons, not_or] at hnodup
  exact Ne.symm hnodup.1.2.1

/-- A register that neither an argument nor the return address is found through. -/
theorem Conv.entered_setReg {v : Nat} (hr : r ∉ C.sp :: (C.argRegs ++ C.link.toList))
    (h : Entered C ret args m) : Entered C ret args (m.setReg r v) := by
  simp only [List.mem_cons, List.mem_append, Option.mem_toList, not_or] at hr
  obtain ⟨hsp, harg, hlink⟩ := hr
  refine ⟨fun i hi size hsize => ?_, ?_⟩
  · rw [← h.arg i hi size hsize]
    unfold Conv.argRead
    split
    · rename_i r' hr'
      rw [m.setReg_of_ne (C.notMem_getElem? harg hr').symm]
    · rw [m.setReg_of_ne (Ne.symm hsp), Machine.setReg_mem]
  · rw [← h.ret]
    unfold Conv.retAddr
    split
    · rename_i lr hlr
      exact m.setReg_of_ne (by rintro rfl; exact hlink hlr) v
    · rw [m.setReg_of_ne (Ne.symm hsp), Machine.setReg_mem]

/-! ## Calls -/

/-- What `guest_caller::call` has made when the cpu is started. -/
def Conv.enter (C : Conv R) (m : Machine R) (trampoline routine : BitVec 64) (args : List (BitVec 64))
    (scratch : Nat) : Machine R :=
  C.jump (C.prepare (m.setReg C.sp (scratchBase (m.file C.sp) scratch)) trampoline args) routine

/-- `guest_caller::call`; `run` is what the cpu does until it is stopped. -/
def Conv.call (C : Conv R) (run : Machine R → Machine R) (m : Machine R) (trampoline routine : BitVec 64)
    (args : List (BitVec 64)) (scratch : Nat) : Nat × Machine R :=
  let m' := run (C.enter m trampoline routine args scratch)
  (m'.file C.ret, { m' with file := restore C.regs (C.regs.map m.file) m'.file })

inductive Outcome
  | value (bytes : List UInt8)
  | void
  | throws

structure Handler (R : Type) where
  params : List Nat
  body : List (List UInt8) → Machine R → Machine R × Outcome

def Conv.callWithConv (C : Conv R) (h : Handler R) (m : Machine R) : Machine R :=
  match h.body (h.params.mapIdx fun i size => C.argRead m i size) m with
  | (m', .value bytes) => C.retWrite m' bytes
  | (m', _) => m'

/-- The hook of `hook_module_redirects` at the address of an export. -/
def Conv.redirected (C : Conv R) (h : Handler R) (addr : BitVec 64) (m : Machine R) : Machine R :=
  let m' := C.callWithConv h m
  if m'.file C.pc = addr.toNat then
    let (ret, m'') := C.retAddr m'
    m''.setReg C.pc ret
  else m'

theorem scratchBase_eq (sp size : Nat) :
    scratchBase sp size = 16 * ((BitVec.ofNat 64 sp - 0x100#64 - BitVec.ofNat 64 size).toNat / 16) :=
  Bits.toNat_and_not_low _ 4

theorem scratchBase_aligned (sp size : Nat) : Aligned (scratchBase sp size) := by
  have hlt := (BitVec.ofNat 64 sp - 0x100#64 - BitVec.ofNat 64 size).isLt
  rw [scratchBase_eq]
  exact ⟨by omega, by omega⟩

theorem scratchBase_le (size : Nat) (h : 0x10F + size ≤ sp) (hsp : sp < 2 ^ 64) :
    sp ≤ scratchBase sp size + 0x10F + size ∧ scratchBase sp size + 0x100 + size ≤ sp := by
  have hsub : (BitVec.ofNat 64 sp - 0x100#64 - BitVec.ofNat 64 size).toNat = sp - 0x100 - size := by
    rw [BitVec.toNat_sub, BitVec.toNat_sub]
    simp only [BitVec.toNat_ofNat]
    omega
  rw [scratchBase_eq, hsub]
  exact ⟨by omega, by omega⟩

theorem Conv.pc_free (C : Conv R) : C.pc ∉ C.sp :: (C.argRegs ++ C.link.toList) := by
  simp only [List.mem_cons, List.mem_append, Option.mem_toList, not_or]
  exact ⟨C.pc_ne_sp.symm, C.pc_notMem, fun h => C.pc_ne_link h rfl⟩

variable {trampoline routine : BitVec 64} {scratch : Nat}

theorem Conv.entered_enter (hlen : args.length < 2 ^ 60) :
    Entered C trampoline args (C.enter m trampoline routine args scratch) := by
  refine C.entered_setReg C.pc_free (C.entered_prepare ?_ trampoline hlen)
  rw [Machine.setReg_self]
  exact scratchBase_aligned _ scratch

theorem prepare_fst (f : File R) (ps : List (GuestCall.Prep R)) :
    (GuestCall.prepare {} f ps).1 = ps.foldl GuestCall.Prep.make f := by
  induction ps generalizing f with
  | nil => rfl
  | cons p ps ih =>
    have hthrows : p.throws {} = false := by cases p <;> rfl
    rw [GuestCall.prepare, hthrows, List.foldl_cons, ← ih]
    rfl

theorem Conv.writeArg_make (C : Conv R) (m : Machine R) (i : Nat) (v : BitVec 64) :
    (C.toArch.writeArg (m.file C.sp) i v.toNat).make m.file = (C.writeArg m i v).file := by
  unfold GuestCall.Arch.writeArg Conv.writeArg
  cases C.argRegs[i]? with
  | none => rfl
  | some r => rfl

theorem Conv.writeArgs_make (C : Conv R) (m : Machine R) (i : Nat) (vs : List (BitVec 64)) :
    ((vs.map BitVec.toNat).mapIdx fun k v => C.toArch.writeArg (m.file C.sp) (i + k) v).foldl GuestCall.Prep.make
      m.file = (C.writeArgs m i vs).file := by
  induction vs generalizing m i with
  | nil => rfl
  | cons v vs ih =>
    rw [List.map_cons, List.mapIdx_cons, List.foldl_cons, Nat.add_zero, C.writeArg_make, Conv.writeArgs, ← ih,
      C.writeArg_file C.sp_notMem]
    simp only [Nat.add_assoc, Nat.add_comm 1]

theorem Conv.setRetAddr_make (C : Conv R) (m : Machine R) (addr : BitVec 64) :
    (C.toArch.setRetAddr (m.file C.sp) addr.toNat).foldl GuestCall.Prep.make m.file = (C.setRetAddr m addr).file := by
  unfold GuestCall.Arch.setRetAddr Conv.setRetAddr
  cases C.link with
  | none => rfl
  | some lr => rfl

theorem Conv.enter_file (C : Conv R) (m : Machine R) (trampoline routine : BitVec 64) (args : List (BitVec 64))
    (scratch : Nat) :
    (C.enter m trampoline routine args scratch).file =
      (GuestCall.prepare {} m.file (C.preps trampoline.toNat (m.file C.sp)
        { routine := routine.toNat, args := args.map BitVec.toNat, scratch })).1 := by
  let m₁ := m.setReg C.sp (scratchBase (m.file C.sp) scratch)
  have hsp : m₁.file C.sp = scratchBase (m.file C.sp) scratch := Machine.setReg_self ..
  have hret := C.setRetAddr_make m₁ trampoline
  have hargs := C.writeArgs_make (C.setRetAddr m₁ trampoline) 0 args
  simp only [C.setRetAddr_sp, hsp, Nat.zero_add] at hret hargs
  rw [prepare_fst, GuestCall.Arch.preps, List.foldl_append, List.foldl_append, List.foldl_append]
  show _ = Function.update (List.foldl _ (List.foldl _ m₁.file _) _) C.pc routine.toNat
  rw [hret]
  exact congrArg (Function.update · C.pc routine.toNat) hargs.symm

/-- The memory at and above the caller's stack pointer is left alone while the arguments fit in the red zone. -/
theorem Conv.enter_mem {a : Nat} (hsp : m.file C.sp < 2 ^ 64) (hroom : 0x117 + scratch ≤ m.file C.sp)
    (hfit : C.above args.length ≤ 0x100 + scratch) (ha : m.file C.sp ≤ a) :
    (C.enter m trampoline routine args scratch).mem a = m.mem a := by
  have hbase := scratchBase_le scratch (by omega) hsp
  have hframe := C.entrySp_frame args.length (show 8 ≤ scratchBase (m.file C.sp) scratch by omega) (by omega)
  refine C.prepare_mem (m := m.setReg C.sp (scratchBase (m.file C.sp) scratch)) ?_ (.inr ?_)
  · rw [Machine.setReg_self]
    omega
  · rw [Machine.setReg_self]
    omega

/-! ## Calls of exports that have a handler -/

/-- What a call answers when the callee has a handler: its result, or what it leaves in the register. -/
def Outcome.answer (o : Outcome) (left : Nat) : Nat :=
  match o with
  | .value bytes => Bytes.toNat bytes
  | .void => left
  | .throws => left

/-- The cpu is stopped at the trampoline when the hook of the export goes there. -/
def StopsAt (C : Conv R) (run : Machine R → Machine R) (h : Handler R) (trampoline routine : BitVec 64) : Prop :=
  ∀ m : Machine R, m.file C.pc = routine.toNat → (C.redirected h routine m).file C.pc = trampoline.toNat →
    run m = C.redirected h routine m

/-- The handler goes nowhere else, and leaves its return address alone. -/
def Returns (C : Conv R) (m m' : Machine R) : Prop :=
  m'.file C.pc = m.file C.pc ∧ (C.retAddr m').1 = (C.retAddr m).1

def Handler.received (h : Handler R) (args : List (BitVec 64)) : List (List UInt8) :=
  List.zipWith (fun size v => Bytes.ofNat size v.toNat) h.params args

omit [DecidableEq R] in
theorem Handler.length_received {h : Handler R} (hlen : h.params.length ≤ args.length) :
    (h.received args).length = h.params.length := by
  rw [Handler.received, List.length_zipWith, min_eq_left hlen]

theorem Conv.reads_received {h : Handler R} (hentered : Entered C ret args m)
    (hlen : h.params.length ≤ args.length) (hsizes : ∀ size ∈ h.params, size ≤ 8) :
    (h.params.mapIdx fun i size => C.argRead m i size) = h.received args := by
  refine List.ext_getElem ?_ fun i hi hi' => ?_
  · rw [List.length_mapIdx, Handler.length_received hlen]
  · rw [List.length_mapIdx] at hi
    rw [List.getElem_mapIdx, hentered.arg i (by omega) _ (hsizes _ (List.getElem_mem hi))]
    simp only [Handler.received, List.getElem_zipWith]

theorem Conv.ret_ne_special (hr : r ∈ C.pc :: C.sp :: C.link.toList) : r ≠ C.ret := C.special_ne_ret r hr

/-- A result changes neither the program counter nor where the routine returns to. -/
theorem Conv.returns_retWrite {m' : Machine R} (h : Returns C m m') (bytes : List UInt8) :
    Returns C m (C.retWrite m' bytes) := by
  obtain ⟨hpc, hret⟩ := h
  refine ⟨?_, ?_⟩
  · rw [← hpc]
    exact m'.setReg_of_ne (C.ret_ne_special (by simp)) _
  · rw [← hret]
    unfold Conv.retAddr Conv.retWrite
    split
    · rename_i lr hlr
      exact m'.setReg_of_ne (C.ret_ne_special (by simp [hlr])) _
    · rw [m'.setReg_of_ne (C.ret_ne_special (by simp)), Machine.setReg_mem]

theorem Conv.callWithConv_spec {h : Handler R} {xs : List (List UInt8)}
    (hargs : (h.params.mapIdx fun i size => C.argRead m i size) = xs) (hreturns : Returns C m (h.body xs m).1) :
    Returns C m (C.callWithConv h m) ∧ (C.callWithConv h m).mem = (h.body xs m).1.mem ∧
      (C.callWithConv h m).file C.ret = (h.body xs m).2.answer ((h.body xs m).1.file C.ret) := by
  unfold Conv.callWithConv
  rw [hargs]
  generalize h.body xs m = r at hreturns
  obtain ⟨m', o⟩ := r
  cases o with
  | value bytes => exact ⟨C.returns_retWrite hreturns bytes, rfl, Machine.setReg_self ..⟩
  | void => exact ⟨hreturns, rfl, rfl⟩
  | throws => exact ⟨hreturns, rfl, rfl⟩

/-- Where a routine returns to is read without changing the memory or the result. -/
theorem Conv.retAddr_snd (C : Conv R) (m : Machine R) :
    (C.retAddr m).2.mem = m.mem ∧ (C.retAddr m).2.file C.ret = m.file C.ret := by
  unfold Conv.retAddr
  split
  · exact ⟨rfl, rfl⟩
  · exact ⟨rfl, m.setReg_of_ne (C.ret_ne_special (by simp)).symm _⟩

theorem Conv.restore_file (C : Conv R) (f g : File R) : restore C.regs (C.regs.map f) g = f := by
  funext r
  rw [GuestCall.restore_apply, if_pos (C.mem_regs r)]

/-- A guest call of an export that has a handler is a call of the handler: it is given the arguments, the caller is
given its result, and the registers are those from before. -/
theorem call_redirected {run : Machine R → Machine R} {h : Handler R}
    (hrun : StopsAt C run h trampoline routine) (hlen : args.length < 2 ^ 60)
    (hparams : h.params.length ≤ args.length)
    (hsizes : ∀ size ∈ h.params, size ≤ 8) (hreturns : Returns C (C.enter m trampoline routine args scratch)
      (h.body (h.received args) (C.enter m trampoline routine args scratch)).1) :
    C.call run m trampoline routine args scratch =
      let r := h.body (h.received args) (C.enter m trampoline routine args scratch)
      (r.2.answer (r.1.file C.ret), { m with mem := r.1.mem }) := by
  have hentered : Entered C trampoline args (C.enter m trampoline routine args scratch) := C.entered_enter hlen
  have hpc : (C.enter m trampoline routine args scratch).file C.pc = routine.toNat := Machine.setReg_self ..
  unfold Conv.call
  generalize C.enter m trampoline routine args scratch = m₀ at hreturns hentered hpc
  obtain ⟨⟨hpc', hret'⟩, hmem, hanswer⟩ :=
    C.callWithConv_spec (C.reads_received hentered hparams hsizes) hreturns
  obtain ⟨hmem', hanswer'⟩ := C.retAddr_snd (C.callWithConv h m₀)
  have hhook : C.redirected h routine m₀ = (C.retAddr (C.callWithConv h m₀)).2.setReg C.pc trampoline.toNat := by
    unfold Conv.redirected
    rw [if_pos (hpc'.trans hpc), ← hentered.ret, ← hret']
  have hstop : run m₀ = (C.retAddr (C.callWithConv h m₀)).2.setReg C.pc trampoline.toNat := by
    rw [hrun m₀ hpc (by rw [hhook, Machine.setReg_self]), hhook]
  dsimp only
  rw [hstop, C.restore_file, Machine.setReg_mem, hmem', hmem,
    Machine.setReg_of_ne (C.ret_ne_special List.mem_cons_self).symm, hanswer', hanswer]

/-! ## Handlers that make calls themselves -/

/-- What a handler does: it answers, or calls an export that has a handler and goes on with what that answers. -/
inductive Code
  | done (bytes : List UInt8)
  | call (routine : BitVec 64) (params : List Nat) (callee : List (List UInt8) → Code) (args : List (BitVec 64))
      (scratch : Nat) (next : Nat → Code)

def Code.eval : Code → List UInt8
  | .done bytes => bytes
  | .call _ params callee args _ next =>
    (next (Bytes.toNat (callee (List.zipWith (fun size v => Bytes.ofNat size v.toNat) params args)).eval)).eval

/-- What it does to the machine, each of its calls being a run of the cpu. -/
def Code.exec (C : Conv R) (trampoline : BitVec 64) : Code → Machine R → Machine R × Outcome
  | .done bytes, m => (m, .value bytes)
  | .call routine params callee args scratch next, m =>
    let h : Handler R := { params, body := fun xs m => (callee xs).exec C trampoline m }
    let r := C.call (C.redirected h routine) m trampoline routine args scratch
    (next r.1).exec C trampoline r.2

/-- The stack has `room`, and the arguments of every call fit in its red zone. -/
def Code.Fits (C : Conv R) : Code → Nat → Prop
  | .done _, _ => True
  | .call _ params callee args scratch next, room =>
    params.length ≤ args.length ∧ (∀ size ∈ params, size ≤ 8) ∧ args.length < 2 ^ 60 ∧
      C.above args.length ≤ 0x100 + scratch ∧ 0x117 + scratch ≤ room ∧
      (∀ xs, (callee xs).Fits C (room - (0x117 + scratch))) ∧ ∀ v, (next v).Fits C room

/-- The registers are as before, and so is the memory from the stack pointer on. -/
def Kept (C : Conv R) (m m' : Machine R) : Prop := m'.file = m.file ∧ ∀ a, m.file C.sp ≤ a → m'.mem a = m.mem a

theorem Kept.trans {m' m'' : Machine R} (h : Kept C m m') (h' : Kept C m' m'') : Kept C m m'' :=
  ⟨h'.1.trans h.1, fun a ha => (h'.2 a (by rwa [h.1])).trans (h.2 a ha)⟩

theorem Kept.returns {m' : Machine R} (h : Kept C m m') : Returns C m m' := by
  obtain ⟨hfile, hmem⟩ := h
  refine ⟨by rw [hfile], ?_⟩
  unfold Conv.retAddr
  rw [hfile]
  split
  · rfl
  · exact congrArg Bytes.toNat (readMem_congr fun a hle _ => hmem a hle)

theorem Conv.enter_sp (C : Conv R) (m : Machine R) (trampoline routine : BitVec 64) (args : List (BitVec 64))
    (scratch : Nat) : (C.enter m trampoline routine args scratch).file C.sp =
      C.entrySp (scratchBase (m.file C.sp) scratch) := by
  rw [Conv.enter, Conv.jump, Machine.setReg_of_ne C.pc_ne_sp, C.prepare_sp, Machine.setReg_self]

/-- Guest calls, and the calls that they make in their turn, compute what the handlers compute, whatever the depth:
they change neither a register nor the memory from the stack pointer on. -/
theorem exec_eval (C : Conv R) (trampoline : BitVec 64) {c : Code} {room : Nat} {m : Machine R} (hfits : c.Fits C room)
    (hroom : room ≤ m.file C.sp) (hsp : m.file C.sp < 2 ^ 64) :
    (c.exec C trampoline m).2 = .value c.eval ∧ Kept C m (c.exec C trampoline m).1 := by
  induction c generalizing room m with
  | done bytes => exact ⟨rfl, rfl, fun _ _ => rfl⟩
  | call routine params callee args scratch next ihCallee ihNext =>
    obtain ⟨hparams, hsizes, hlen, hfit, hfitsRoom, hcallee, hnext⟩ := hfits
    let h : Handler R := { params, body := fun xs m => (callee xs).exec C trampoline m }
    have hbase := scratchBase_le scratch (by omega) hsp
    have hframe := C.entrySp_frame 0 (show 8 ≤ scratchBase (m.file C.sp) scratch by omega) (by omega)
    have hentry := C.enter_sp m trampoline routine args scratch
    let r := h.body (h.received args) (C.enter m trampoline routine args scratch)
    obtain ⟨hvalue, hkept⟩ : r.2 = .value (callee (h.received args)).eval ∧
        Kept C (C.enter m trampoline routine args scratch) r.1 :=
      ihCallee (h.received args) (hcallee (h.received args)) (by omega) (by omega)
    have hcall : C.call (C.redirected h routine) m trampoline routine args scratch =
        (Bytes.toNat (callee (h.received args)).eval, { m with mem := r.1.mem }) := by
      rw [call_redirected (fun _ _ _ => rfl) hlen hparams hsizes hkept.returns]
      show (r.2.answer (r.1.file C.ret), _) = _
      rw [hvalue]
      rfl
    have hback : Kept C m { m with mem := r.1.mem } := by
      refine ⟨rfl, fun a ha => ?_⟩
      show r.1.mem a = m.mem a
      rw [hkept.2 a (by omega), C.enter_mem hsp (by omega) hfit ha]
    obtain ⟨hanswer, hrest⟩ := ihNext (Bytes.toNat (callee (h.received args)).eval) (hnext _)
      (m := { m with mem := r.1.mem }) hroom hsp
    unfold Code.exec Code.eval
    dsimp only
    rw [hcall]
    exact ⟨hanswer, hback.trans hrest⟩

/-- The fifth argument of the outer call is on the stack; its handler calls on with it. -/
def nested : Code :=
  .call 0x1000 [8, 4, 4, 8, 8]
    (fun xs => .call 0x2000 [4] (fun ys => .done (ys.headD [])) [BitVec.ofNat 64 (Bytes.toNat (xs.getLastD []))] 0
      fun v => .done (Bytes.ofNat 4 (v + 1)))
    [1, 2, 3, 4, 0xFFFFFFFF00000005] 0x98 fun v => .done (Bytes.ofNat 8 v)

theorem nested_exec : let m : Machine Context.Reg := ⟨fun _ => 0x100000, fun _ => 0⟩
    (nested.exec x86WinConv 0x7000 m).2 = .value [6, 0, 0, 0, 0, 0, 0, 0] ∧
      Kept x86WinConv m (nested.exec x86WinConv 0x7000 m).1 :=
  @exec_eval _ _ x86WinConv 0x7000 nested 0x300 _
    ⟨by decide, by decide, by decide, by decide, by decide,
      fun _ => ⟨by simp, by decide, by simp, show x86WinConv.above 1 ≤ 0x100 by decide, by decide,
        fun _ => trivial, fun _ => trivial⟩,
      fun _ => trivial⟩
    (by decide) (by decide)

/-! ## The start of a thread -/

def threadStackSize (wanted : Nat) : Nat :=
  min (BitVec.ofNat 64 (max wanted 0x10000) + 0xFFF#64 &&& ~~~0xFFF#64).toNat 0x100000

def stackReserve : Nat := 0x100

/-- `create_suspended_thread`, the constructor of `win_thread` and `enqueue`: a bank with the registers of the cpu that
makes the thread, and on its new stack what it is started with. -/
def Conv.createThread (C : Conv R) (cpu : Machine R) (stackBase wanted : Nat) (start exit : BitVec 64)
    (args : List (BitVec 64)) : Machine R :=
  C.prepare ((cpu.setReg C.pc start.toNat).setReg C.sp
    ((stackBase + threadStackSize wanted - stackReserve) % 2 ^ 64)) exit args

/-- The sum wraps around from the last page of sizes on, and the stack is empty. -/
theorem threadStackSize_spec {wanted : Nat} (h : wanted ≤ 2 ^ 64 - 0x1000) :
    0x10000 ≤ threadStackSize wanted ∧ threadStackSize wanted ≤ 0x100000 ∧ threadStackSize wanted % 0x1000 = 0 := by
  have hround : (BitVec.ofNat 64 (max wanted 0x10000) + 0xFFF#64 &&& ~~~0xFFF#64).toNat =
      0x1000 * ((max wanted 0x10000 + 0xFFF) / 0x1000) := by
    rw [show (0xFFF#64) = BitVec.ofNat 64 (2 ^ 12 - 1) from rfl, Bits.toNat_and_not_low, BitVec.toNat_add]
    simp only [BitVec.toNat_ofNat]
    omega
  rw [threadStackSize, hround]
  omega

/-- A register that neither an argument, the return address nor the start of a routine is found through. -/
theorem Conv.prepare_file (hr : r ∉ C.sp :: (C.argRegs ++ C.link.toList)) (m : Machine R) (ret : BitVec 64)
    (args : List (BitVec 64)) : (C.prepare m ret args).file r = m.file r := by
  simp only [List.mem_cons, List.mem_append, Option.mem_toList, not_or] at hr
  obtain ⟨hsp, harg, hlink⟩ := hr
  rw [Conv.prepare, C.writeArgs_file harg]
  unfold Conv.setRetAddr
  split
  · rename_i lr hlr
    exact m.setReg_of_ne (by rintro rfl; exact hlink hlr) _
  · exact Machine.setReg_of_ne hsp _ _

/-- The last of the arguments on the stack is the word under the end of the frame. -/
theorem Conv.readMem_prepare {n : Nat} (hsp : Aligned (m.file C.sp)) (ret : BitVec 64) (hlen : args.length < 2 ^ 60)
    (hn : C.argRegs.length ≤ n) (hlt : n < args.length) (hsize : size ≤ 8) :
    readMem (C.prepare m ret args).mem (C.slot (C.entrySp (m.file C.sp)) n) size = Bytes.ofNat size args[n].toNat := by
  have hread := (C.entered_prepare hsp ret hlen).arg n hlt size hsize
  unfold Conv.argRead at hread
  rw [List.getElem?_eq_none hn, C.prepare_sp] at hread
  exact hread

section Start

variable {cpu : Machine R} {stackBase wanted : Nat} {start exit : BitVec 64}

/-- Where a new thread's stack pointer is before the return address. -/
def stackTop (stackBase wanted : Nat) : Nat := stackBase + threadStackSize wanted - stackReserve

theorem stackTop_spec (hbase : stackBase % 0x1000 = 0) (hwanted : wanted ≤ 2 ^ 64 - 0x1000) :
    stackTop stackBase wanted % 16 = 0 ∧ stackBase + 8 ≤ stackTop stackBase wanted ∧
      stackTop stackBase wanted + stackReserve = stackBase + threadStackSize wanted := by
  obtain ⟨hle, -, hmod⟩ := threadStackSize_spec hwanted
  unfold stackTop stackReserve
  omega

theorem Conv.createThread_eq (C : Conv R) (cpu : Machine R) (start exit : BitVec 64) (args : List (BitVec 64))
    (hend : stackBase + threadStackSize wanted < 2 ^ 64) : C.createThread cpu stackBase wanted start exit args =
      C.prepare ((cpu.setReg C.pc start.toNat).setReg C.sp (stackTop stackBase wanted)) exit args := by
  rw [Conv.createThread, Nat.mod_eq_of_lt (by omega)]
  rfl

/-- What is written stays in the new stack while the reserve has room for the arguments on it. -/
theorem Conv.createThread_mem {a : Nat} (cpu : Machine R) (hbase : stackBase % 0x1000 = 0)
    (hwanted : wanted ≤ 2 ^ 64 - 0x1000) (hend : stackBase + threadStackSize wanted < 2 ^ 64)
    (hfit : C.above args.length ≤ stackReserve)
    (ha : a < stackBase ∨ stackBase + threadStackSize wanted ≤ a) :
    (C.createThread cpu stackBase wanted start exit args).mem a = cpu.mem a := by
  obtain ⟨-, hlow, htop⟩ := stackTop_spec hbase hwanted
  obtain ⟨hframe, hle, hge⟩ := C.entrySp_frame args.length (show 8 ≤ stackTop stackBase wanted by omega) (by omega)
  rw [C.createThread_eq cpu start exit args hend]
  refine C.prepare_mem (m := (cpu.setReg C.pc start.toNat).setReg C.sp (stackTop stackBase wanted)) ?_ ?_
  · rw [Machine.setReg_self]
    omega
  · rw [Machine.setReg_self]
    omega

theorem Conv.createThread_beyond (cpu : Machine R) (start exit : BitVec 64)
    (hbase : stackBase % 0x1000 = 0) (hwanted : wanted ≤ 2 ^ 64 - 0x1000)
    (hend : stackBase + threadStackSize wanted < 2 ^ 64) (hlen : args.length < 2 ^ 60)
    (hfit : stackReserve < C.above args.length) : ∃ n, ∃ h : n < args.length, ∀ mem,
      (C.createThread { cpu with mem } stackBase wanted start exit args).mem (stackBase + threadStackSize wanted) =
        UInt8.ofNat args[n].toNat := by
  obtain ⟨hmod, hlow, htop⟩ := stackTop_spec hbase hwanted
  obtain ⟨c, hc⟩ := C.first_dvd
  have hle := C.first_le
  -- the index whose slot is at the end of the reserve
  obtain ⟨n, hn, hslot⟩ : ∃ n, C.argRegs.length ≤ n ∧ C.above n = stackReserve := by
    refine ⟨C.argRegs.length + (stackReserve - C.above 0) / 8, by omega, ?_⟩
    unfold Conv.above Conv.frame stackReserve
    split
    · rename_i hnone
      have hret := C.first_ret (Option.isNone_iff_eq_none.mp hnone)
      omega
    · omega
  have hnlt : n < args.length := by
    unfold Conv.above Conv.frame at hslot hfit
    split at hslot <;> split at hfit <;> omega
  refine ⟨n, hnlt, fun mem => ?_⟩
  obtain ⟨hframe, -, -⟩ := C.entrySp_frame n (show 8 ≤ stackTop stackBase wanted by omega) (by omega)
  have haddr : C.slot (C.entrySp (stackTop stackBase wanted)) n = stackBase + threadStackSize wanted := by
    unfold Conv.frame at hframe
    rw [C.slot_eq hn, Nat.mod_eq_of_lt] <;> omega
  let m : Machine R := (Machine.setReg { cpu with mem } C.pc start.toNat).setReg C.sp (stackTop stackBase wanted)
  have hsp : m.file C.sp = stackTop stackBase wanted := Machine.setReg_self ..
  have hread := C.readMem_prepare (m := m) (by rw [hsp]; exact ⟨by omega, by omega⟩) exit hlen hn hnlt
    (show 1 ≤ 8 by decide)
  rw [hsp, haddr] at hread
  rw [C.createThread_eq { cpu with mem } start exit args hend]
  exact List.head_eq_of_cons_eq hread

end Start

/-- A new thread finds the arguments it is made with, returns to the exit address and starts on an aligned stack. All
that was written is on that stack, for every memory, exactly when the reserve has room for the arguments. -/
theorem createThread_enters (C : Conv R) {cpu : Machine R} {stackBase wanted : Nat} {start exit : BitVec 64}
    {args : List (BitVec 64)} (hbase : stackBase % 0x1000 = 0) (hwanted : wanted ≤ 2 ^ 64 - 0x1000)
    (hend : stackBase + threadStackSize wanted < 2 ^ 64) (hlen : args.length < 2 ^ 60) :
    let t := C.createThread cpu stackBase wanted start exit args
    Entered C exit args t ∧ t.file C.pc = start.toNat ∧
      (t.file C.sp + if C.link.isNone then 8 else 0) % 16 = 0 ∧
      ((∀ mem a, a < stackBase ∨ stackBase + threadStackSize wanted ≤ a →
        (C.createThread { cpu with mem } stackBase wanted start exit args).mem a = mem a) ↔
          C.above args.length ≤ stackReserve) := by
  intro t
  obtain ⟨hmod, hlow, htop⟩ := stackTop_spec hbase hwanted
  have heq : t = C.prepare ((cpu.setReg C.pc start.toNat).setReg C.sp (stackTop stackBase wanted)) exit args :=
    C.createThread_eq cpu start exit args hend
  have hsp : ((cpu.setReg C.pc start.toNat).setReg C.sp (stackTop stackBase wanted)).file C.sp =
      stackTop stackBase wanted := Machine.setReg_self ..
  refine ⟨?_, ?_, ?_, ?_, ?_⟩
  · rw [heq]
    exact C.entered_prepare (by rw [hsp]; exact ⟨by omega, by omega⟩) exit hlen
  · rw [heq, C.prepare_file C.pc_free, Machine.setReg_of_ne C.pc_ne_sp.symm, Machine.setReg_self]
  · rw [heq, C.prepare_sp, hsp, Conv.entrySp]
    split
    · rw [wordBelow_eq]
      omega
    · omega
  · intro hstays
    by_contra hfit
    obtain ⟨n, hn, hbyte⟩ := C.createThread_beyond cpu start exit hbase hwanted hend hlen (by omega)
    -- a memory that does not have the argument's byte there
    have hsame := (hbyte fun _ => UInt8.ofNat args[n].toNat + 1).symm.trans (hstays _ _ (.inr (Nat.le_refl _)))
    simp at hsame
  · intro hfit mem a ha
    exact C.createThread_mem { cpu with mem } hbase hwanted hend hfit ha

theorem createThread_enters_five : let cpu : Machine Context.Reg := ⟨fun _ => 0, fun _ => 0⟩
    let t := x86WinConv.createThread cpu 0x20000 0x12345 0x401000 0x402000 [1, 2, 3, 4, 5]
    Entered x86WinConv 0x402000 [1, 2, 3, 4, 5] t ∧ t.file .rip = 0x401000 ∧ (t.file Context.rsp + 8) % 16 = 0 ∧
      ∀ a, a < 0x20000 ∨ 0x33000 ≤ a → t.mem a = 0 := by
  intro cpu t
  obtain ⟨hentered, hpc, hsp, hstays⟩ := @createThread_enters _ _ x86WinConv cpu 0x20000 0x12345 0x401000 0x402000
    [1, 2, 3, 4, 5] (by decide) (by decide) (by decide) (by decide)
  exact ⟨hentered, hpc, hsp, fun a ha => hstays.mpr (by decide) (fun _ => 0) a ha⟩

end Kernemul.CallingConv
