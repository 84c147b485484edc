import Kernemul.Kernel.Context
import Kernemul.Win.Exception

/-!
# Continuing where a fault was taken

A personality routine that answers `EXCEPTION_CONTINUE_EXECUTION` may have changed the CONTEXT record it was handed. The
cpu goes on with the registers of the fault all the same: they are put back when the call of the routine has returned,
and nothing applies the record (`continue_iff`).
-/

namespace Kernemul.Unwind.X64

open Stack

/-- The registers that `guest_caller::call` puts back; `user` is `is_user` of the thread. -/
structure Regs extends Cpu where
  rflags : Word
  xmm : Nat → BitVec 128
  user : Bool

/-- `on_exception`: the trap flag and the resume flag are cleared. -/
def onException (r : Regs) : Regs := { r with rflags := r.rflags &&& ~~~(0x100#64 ||| 0x10000#64) }

/-! ## The record -/

def kernelDs : Nat := 0x18

def defaultMxcsr : Nat := 0x1F80

def defaultFpcw : Nat := 0x27F

/-- The words of `_CONTEXT` from `ContextFlags` at 0x30 to the last xmm register, as `capture_context` fills them when
it is asked for everything. -/
def contextWords (r : Regs) : List Word :=
  let codeSel := if r.user then Context.userCs else Context.kernelCs
  let dataSel := if r.user then Context.userDs else kernelDs
  let filled := Context.contextAmd64 ||| Context.contextInteger ||| Context.contextControl |||
    Context.contextSegments ||| Context.contextFloat
  [BitVec.ofNat 64 (filled + defaultMxcsr * 2 ^ 32),
    BitVec.ofNat 64 (codeSel + dataSel * 2 ^ 16 + dataSel * 2 ^ 32 + dataSel * 2 ^ 48),
    BitVec.ofNat 64 (dataSel + dataSel * 2 ^ 16 + r.rflags.toNat % 2 ^ 32 * 2 ^ 32)] ++
  List.replicate 6 0 ++ (List.range 16).map r.gp ++ [r.pc] ++
  [BitVec.ofNat 64 defaultFpcw, 0, 0, BitVec.ofNat 64 defaultMxcsr] ++ List.replicate 16 0 ++
  (List.range 16).flatMap fun i => [(r.xmm i).extractLsb' 0 64, (r.xmm i).extractLsb' 64 64]

def contextBytes (r : Regs) (i : Nat) : BitVec 8 :=
  writeWords (fun _ => 0) 0x30 (contextWords r) (BitVec.ofNat 64 i)

inductive Field
  | gp (i : Fin 16)
  | rip
  | eflags
  | segCs
  | segSs

/-- A field of the record at `a`. -/
def Field.read (mem : Mem) (a : Word) : Field → Nat
  | gp i => (read64 mem (a + BitVec.ofNat 64 (0x78 + 8 * i))).toNat
  | rip => (read64 mem (a + 0xF8#64)).toNat
  | eflags => (read64 mem (a + 0x40#64)).toNat / 2 ^ 32
  | segCs => (read64 mem (a + 0x38#64)).toNat % 2 ^ 16
  | segSs => (read64 mem (a + 0x40#64)).toNat / 2 ^ 16 % 2 ^ 16

/-- What a thread with these registers has in the place of a field. -/
def Field.held (r : Regs) : Field → Nat
  | gp i => (r.gp i).toNat
  | rip => r.pc.toNat
  | eflags => r.rflags.toNat % 2 ^ 32
  | segCs => if r.user then Context.userCs else Context.kernelCs
  | segSs => if r.user then Context.userDs else kernelDs

theorem length_contextWords (r : Regs) : (contextWords r).length = 78 := by
  simp [contextWords]

theorem read64_context {mem : Mem} {a : Word} {r : Regs}
    (h : ∀ i < contextSize, mem (a + BitVec.ofNat 64 i) = contextBytes r i) {k : Nat} {w : Word}
    (hk : (contextWords r)[k]? = some w) : read64 mem (a + BitVec.ofNat 64 (0x30 + 8 * k)) = w := by
  obtain ⟨hlt, -⟩ := List.getElem?_eq_some_iff.mp hk
  rw [length_contextWords] at hlt
  rw [← read64_writeWords (fun _ => 0) 0x30 (by rw [length_contextWords]; decide) hk]
  unfold read64
  have hbyte : ∀ j < 8, mem (a + BitVec.ofNat 64 (0x30 + 8 * k) + BitVec.ofNat 64 j) =
      writeWords (fun _ => 0) 0x30 (contextWords r)
        (0x30 + BitVec.ofNat 64 (8 * k) + BitVec.ofNat 64 j) := by
    intro j hj
    rw [BitVec.add_assoc, ← BitVec.ofNat_add, h _ (by unfold contextSize; omega), contextBytes, BitVec.ofNat_add,
      BitVec.ofNat_add]
    rfl
  have h0 := hbyte 0 (by omega)
  rw [BitVec.add_zero, BitVec.add_zero] at h0
  rw [h0, hbyte 1 (by omega), hbyte 2 (by omega), hbyte 3 (by omega), hbyte 4 (by omega), hbyte 5 (by omega),
    hbyte 6 (by omega), hbyte 7 (by omega)]

theorem Field.read_context {mem : Mem} {a : Word} {r : Regs}
    (h : ∀ i < contextSize, mem (a + BitVec.ofNat 64 i) = contextBytes r i) (f : Field) :
    f.read mem a = f.held r := by
  cases f with
  | gp i =>
    have hword : (contextWords r)[9 + i.val]? = some (r.gp i) := by
      have hi := i.isLt
      unfold contextWords
      dsimp only
      rw [List.append_assoc, List.append_assoc, List.append_assoc, List.append_assoc, List.append_assoc,
        List.getElem?_append_right (by simp; omega), List.getElem?_append_right (by simp; omega),
        List.getElem?_append_left (by simp; omega), List.getElem?_map]
      simp only [List.length_cons, List.length_nil, List.length_replicate]
      rw [show 9 + i.val - (0 + 1 + 1 + 1) - 6 = i.val by omega, List.getElem?_range hi]
      rfl
    have := read64_context h hword
    rw [show 0x30 + 8 * (9 + i.val) = 0x78 + 8 * i.val by omega] at this
    exact congrArg BitVec.toNat this
  | rip => exact congrArg BitVec.toNat (read64_context h (k := 25) rfl)
  | eflags =>
    have := congrArg BitVec.toNat (read64_context h (k := 2) rfl)
    rw [BitVec.toNat_ofNat] at this
    show (read64 mem (a + 0x40#64)).toNat / 2 ^ 32 = r.rflags.toNat % 2 ^ 32
    rw [show a + 0x40#64 = a + BitVec.ofNat 64 (0x30 + 8 * 2) from rfl, this]
    cases r.user <;> simp [Context.userDs, kernelDs] <;> omega
  | segCs =>
    have := congrArg BitVec.toNat (read64_context h (k := 1) rfl)
    rw [BitVec.toNat_ofNat] at this
    show (read64 mem (a + 0x38#64)).toNat % 2 ^ 16 = if r.user then Context.userCs else Context.kernelCs
    rw [show a + 0x38#64 = a + BitVec.ofNat 64 (0x30 + 8 * 1) from rfl, this]
    cases r.user <;> rfl
  | segSs =>
    have := congrArg BitVec.toNat (read64_context h (k := 2) rfl)
    rw [BitVec.toNat_ofNat] at this
    show (read64 mem (a + 0x40#64)).toNat / 2 ^ 16 % 2 ^ 16 = if r.user then Context.userDs else kernelDs
    rw [show a + 0x40#64 = a + BitVec.ofNat 64 (0x30 + 8 * 2) from rfl, this]
    cases r.user <;> simp [Context.userDs, kernelDs] <;> omega

/-! ## The call of the personality routine -/

def recordAddr (sp : Word) : Word := scratchBase sp dispatchScratch

def contextAddr (sp : Word) : Word := alignDown (recordAddr sp + BitVec.ofNat 64 recordSize + 0xF#64)

def dispatcherAddr (sp : Word) : Word := alignDown (contextAddr sp + BitVec.ofNat 64 contextSize + 0xF#64)

def Guest.askEntry (g : Guest) (sp controlPc : Word) (mod : Module) (result : UnwindResult) (mem : Mem) : Mem :=
  let mem := writeBytes mem (recordAddr sp) recordSize g.record
  let mem := writeBytes mem (contextAddr sp) contextSize g.context
  let mem := writeWords mem (dispatcherAddr sp) [controlPc, mod.addr, result.functionEntry,
    result.establisherFrame, 0, contextAddr sp, result.handler, result.handlerData, 0, 0]
  write64 mem (recordAddr sp - 8#64) g.trampoline

def Guest.personality (g : Guest) (sp : Word) (result : UnwindResult) : Mem → Mem × BitVec 32 :=
  (if g.isCSpecificHandler result.handler then
    g.cSpecificHandler (recordAddr sp) result.establisherFrame (contextAddr sp) (dispatcherAddr sp)
  else g.call result.handler [recordAddr sp, result.establisherFrame, contextAddr sp, dispatcherAddr sp])
    (recordAddr sp - 8#64)

theorem askEntry_context (g : Guest) (sp controlPc : Word) (mod : Module) (result : UnwindResult) (mem : Mem)
    {i : Nat} (hi : i < contextSize) :
    g.askEntry sp controlPc mod result mem (contextAddr sp + BitVec.ofNat 64 i) = g.context i := by
  obtain ⟨e, hcontext, -, he⟩ := alignDown_below (recordAddr sp + BitVec.ofNat 64 recordSize + 0xF#64)
  obtain ⟨e', hdispatcher, -, he'⟩ := alignDown_below (contextAddr sp + BitVec.ofNat 64 contextSize + 0xF#64)
  -- the return address is below the record, and the dispatcher context above this one
  have hpush : ¬ (contextAddr sp + BitVec.ofNat 64 i - (recordAddr sp - 8#64)).toNat < 8 := by
    have heq : contextAddr sp + BitVec.ofNat 64 i - (recordAddr sp - 8#64) =
        BitVec.ofNat 64 (recordSize + 0xF + 8 + i - e) := by
      have hsum : BitVec.ofNat 64 (recordSize + 0xF + 8 + i - e) + BitVec.ofNat 64 e =
          BitVec.ofNat 64 recordSize + 0xF#64 + 8#64 + BitVec.ofNat 64 i := by
        rw [← BitVec.ofNat_add, Nat.sub_add_cancel (by unfold recordSize; omega), BitVec.ofNat_add,
          BitVec.ofNat_add, BitVec.ofNat_add]
      rw [show contextAddr sp = _ from hcontext]
      linear_combination -hsum
    rw [heq, BitVec.toNat_ofNat]
    unfold recordSize contextSize at *
    omega
  have habove : 8 * 10 ≤ (contextAddr sp + BitVec.ofNat 64 i - dispatcherAddr sp).toNat := by
    have heq : contextAddr sp + BitVec.ofNat 64 i - dispatcherAddr sp =
        BitVec.ofNat 64 (2 ^ 64 + e' + i - contextSize - 0xF) := by
      have hsum : BitVec.ofNat 64 (2 ^ 64 + e' + i - contextSize - 0xF) + BitVec.ofNat 64 contextSize + 0xF#64 =
          BitVec.ofNat 64 e' + BitVec.ofNat 64 i := by
        rw [← BitVec.ofNat_add, ← BitVec.ofNat_add, ← BitVec.ofNat_add]
        apply BitVec.eq_of_toNat_eq
        rw [BitVec.toNat_ofNat, BitVec.toNat_ofNat]
        unfold contextSize at *
        omega
      rw [show dispatcherAddr sp = _ from hdispatcher]
      linear_combination -hsum
    rw [heq, BitVec.toNat_ofNat]
    unfold contextSize at *
    omega
  have hown : (contextAddr sp + BitVec.ofNat 64 i - contextAddr sp).toNat = i :=
    add_ofNat_sub_self _ (by unfold contextSize at hi; omega)
  unfold Guest.askEntry
  rw [write64, if_neg hpush]
  refine (writeWords_of_le _ (by rw [List.length_cons]; exact habove)).trans ?_
  rw [writeBytes, hown, if_pos hi]

/-- A walk that goes on with the fault asked a routine that said so, and leaves the registers of the fault. -/
theorem walk_continued {g : Guest} {fuel left depth k : Nat} {cpu cpu' : Cpu} {mem mem' : Mem}
    {ctx : UnwindContext} (h : g.walk fuel cpu left depth mem ctx = some (.continued k cpu' mem')) :
    cpu' = cpu ∧ ∃ controlPc mod result before,
      g.personality (cpu.gp rsp) result (g.askEntry (cpu.gp rsp) controlPc mod result before) =
        (mem', continueExecution) := by
  induction left generalizing depth mem ctx with
  | zero => cases h
  | succ left ih =>
    rw [Guest.walk] at h
    dsimp only at h
    generalize (if depth > 0 then ctx.pc - 1#64 else ctx.pc) = controlPc at h
    split at h
    · cases h
    · rename_i mod _
      split at h
      · cases h
      · cases h
      · rename_i result ctx₁ _
        split_ifs at h with hquiet haccept hcont
        · exact ih h
        · cases h
        · obtain ⟨rfl, rfl, rfl⟩ := Outcome.continued.inj (Option.some.inj h)
          exact ⟨rfl, controlPc, mod, result, mem, Prod.ext rfl hcont⟩
        · exact ih h

/-! ## Going on -/

def Guest.capturing (g : Guest) (r : Regs) : Guest := { g with context := contextBytes r }

theorem capturing_context (g : Guest) (r : Regs) : (g.capturing r).context = contextBytes r := by
  simp only [Guest.capturing]

/-- The thread goes on with the values of the record at `a`. -/
def Honours (r : Regs) (mem : Mem) (a : Word) : Prop := ∀ f : Field, f.held r = f.read mem a

/-- **A changed record is not honoured.** When a personality routine continues a fault, the thread has the registers it
faulted with, but for the flags that are cleared in taking the exception; these are the control and integer values of
the record exactly when the routine left each of these fields as it found it. -/
theorem continue_iff (g : Guest) (r : Regs) (mem mem' : Mem) (cpu' : Cpu) (fuel depth : Nat)
    (h : (g.capturing (onException r)).handle fuel r.toCpu mem = some (.continued depth cpu' mem')) :
    ∃ entry, (∃ controlPc mod result before,
        entry = (g.capturing (onException r)).askEntry (r.gp rsp) controlPc mod result before ∧
        (g.capturing (onException r)).personality (r.gp rsp) result entry = (mem', continueExecution)) ∧
      { onException r with toCpu := cpu' } = onException r ∧
      (Honours { onException r with toCpu := cpu' } mem' (contextAddr (r.gp rsp)) ↔
        ∀ f : Field, f.read mem' (contextAddr (r.gp rsp)) = f.read entry (contextAddr (r.gp rsp))) := by
  unfold Guest.handle at h
  split at h
  · cases h
  · obtain ⟨rfl, controlPc, mod, result, before, hrun⟩ := walk_continued h
    refine ⟨_, ⟨controlPc, mod, result, before, rfl, hrun⟩, rfl, forall_congr' fun f => ?_⟩
    have hentry : f.read ((g.capturing (onException r)).askEntry (r.gp rsp) controlPc mod result before)
        (contextAddr (r.gp rsp)) = f.held (onException r) := by
      apply Field.read_context
      intro i hi
      rw [askEntry_context _ (r.gp rsp) controlPc mod result before hi, capturing_context]
    rw [hentry]
    exact eq_comm

/-! ## A handler that advances the program counter -/

def Outcome.continued? : Outcome → Option (Cpu × Mem)
  | continued _ cpu mem => some (cpu, mem)
  | _ => none

theorem Outcome.continued?_eq_some {o : Outcome} {cpu : Cpu} {mem : Mem}
    (h : o.continued? = some (cpu, mem)) : ∃ depth, o = .continued depth cpu mem := by
  cases o with
  | continued depth cpu mem =>
    cases h
    exact ⟨depth, rfl⟩
  | accepted _ _ _ => cases h
  | unclaimed _ => cases h

/-- One function with a personality routine, which does this to the memory and continues the fault. -/
def continuing (routine : List Word → Mem → Mem) : Guest where
  modules := [⟨0x400000, 0x10000,
    fun _ => { exceptionHandler := true, sizeOfProlog := 0, unwindCodeCount := 0, codes := fun _ => 0,
               handlerRva := 0x3000 }, 0x5000, [⟨0x1000, 0x1010, 0x2000⟩]⟩]
  call _ args _ mem := (routine args mem, continueExecution)
  isCSpecificHandler _ := false
  trampoline := 0x900000
  record _ := 0
  context _ := 0

def faulting : Regs := ⟨⟨0x401004, fun r => 0x10000 + BitVec.ofNat 64 r⟩, 0x202, fun _ => 0, false⟩

/-- The routine moves `Rip` past the instruction, of two bytes. -/
def advanceRip : List Word → Mem → Mem
  | [_, _, context, _], mem => write64 mem (context + 0xF8#64) (read64 mem (context + 0xF8#64) + 2#64)
  | _, mem => mem

/-- The thread goes on at the faulting instruction, although the record names the next. -/
theorem advanceRip_ignored : ∃ depth cpu' mem',
    ((continuing advanceRip).capturing (onException faulting)).handle 1 faulting.toCpu (fun _ => 0) =
      some (.continued depth cpu' mem') ∧
    cpu'.pc = 0x401004 ∧ read64 mem' (contextAddr (faulting.gp rsp) + 0xF8#64) = 0x401006 ∧
    ¬ Honours { onException faulting with toCpu := cpu' } mem' (contextAddr (faulting.gp rsp)) := by
  have hrun : ((((continuing advanceRip).capturing (onException faulting)).handle 1 faulting.toCpu
      (fun _ => 0)).bind Outcome.continued?).map
        (fun a => (a.1.pc, read64 a.2 (contextAddr (faulting.gp rsp) + 0xF8#64))) =
          some (0x401004, 0x401006) := by
    decide +kernel
  obtain ⟨⟨cpu', mem'⟩, hcont, hval⟩ := Option.map_eq_some_iff.mp hrun
  obtain ⟨o, ho, hcpu⟩ := Option.bind_eq_some_iff.mp hcont
  obtain ⟨depth, rfl⟩ := Outcome.continued?_eq_some hcpu
  obtain ⟨hpc, hrip⟩ := Prod.mk.inj hval
  refine ⟨depth, cpu', mem', ho, hpc, hrip, fun hall => ?_⟩
  have := hall .rip
  rw [Field.read, hrip] at this
  dsimp only [Field.held] at this hpc
  rw [hpc] at this
  exact absurd this (by decide)

/-- A routine that leaves the record alone. -/
theorem continue_unchanged : ∃ depth cpu' mem',
    ((continuing fun _ mem => mem).capturing (onException faulting)).handle 1 faulting.toCpu (fun _ => 0) =
      some (.continued depth cpu' mem') ∧
    Honours { onException faulting with toCpu := cpu' } mem' (contextAddr (faulting.gp rsp)) := by
  have hrun : ((((continuing fun _ mem => mem).capturing (onException faulting)).handle 1 faulting.toCpu
      (fun _ => 0)).bind Outcome.continued?).isSome = true := by
    decide +kernel
  obtain ⟨⟨cpu', mem'⟩, hcont⟩ := Option.isSome_iff_exists.mp hrun
  obtain ⟨o, ho, hcpu⟩ := Option.bind_eq_some_iff.mp hcont
  obtain ⟨depth, rfl⟩ := Outcome.continued?_eq_some hcpu
  refine ⟨depth, cpu', mem', ho, ?_⟩
  obtain ⟨entry, ⟨controlPc, mod, result, before, -, hrun⟩, -, hiff⟩ :=
    continue_iff (continuing fun _ mem => mem) faulting (fun _ => 0) mem' cpu' 1 depth ho
  apply hiff.mpr
  have hsame : entry = mem' := congrArg Prod.fst hrun
  exact fun f => by rw [hsame]

end Kernemul.Unwind.X64
