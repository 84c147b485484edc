import Kernemul.Emu.Pause
import Kernemul.Kernel.Context

/-!
# Calling guest code (`guest_caller::call`, `win_kernel_state::call_guest_kernel`)

A call is a run of the cpu nested in the hook that makes it, or a run of its own. The run ends when the engine has been
stopped, and any hook can stop it: the one at the trampoline does, and so does whatever gives the cpu up (a wait, a
sleep, a yield, the end of a thread). `run` does not tell these apart, and goes on from the same pc only for a redirect
or while the flag of `Pause` is up. An exception leaves `call_guest_kernel` without what it does after the call.

The cpu is that of `Pause`. Guest code and hooks may leave anything in the registers.
-/

namespace Kernemul.GuestCall

open Pause (Frame Action Cpu)

abbrev File (R : Type) := R → Nat

/-! ## The architectures -/

/-- What `arch`, the calling convention and `set_kernel_mode` of an architecture say of its registers. -/
structure Arch (R : Type) [DecidableEq R] where
  pc : R
  sp : R
  ret : R
  /-- The return address goes on the stack where there is none. -/
  link : Option R
  regs : List R
  argRegs : List R
  stackArgOff : Nat → Nat
  /-- The register with the privilege level. -/
  mode : R
  isKernel : Nat → Bool
  setKernelMode : Bool → File R → File R
  mode_mem : mode ∈ regs
  mode_free : mode ∉ pc :: sp :: (argRegs ++ link.toList)
  isKernel_setKernelMode : ∀ b f, isKernel (setKernelMode b f mode) = b
  setKernelMode_sp : ∀ b f, setKernelMode b f sp = f sp

open Context (Reg) in
def x86 : Arch Reg where
  pc := .rip
  sp := Context.rsp
  ret := Context.rax
  link := none
  regs := (List.finRange 16).map .gp ++ [.rip, .rflags] ++ (List.finRange 16).map .xmm ++ [.cs, .ss, .gs]
  argRegs := [Context.rcx, Context.rdx, Context.r8, Context.r9]
  stackArgOff i := 8 + 0x20 + (i - 4) * 8
  mode := .cs
  isKernel cs := cs % 4 == 0
  setKernelMode kernel f :=
    Function.update (Function.update f .cs (if kernel then Context.kernelCs else Context.userCs)) .ss
      (if kernel then 0x18 else Context.userDs)
  mode_mem := by simp
  mode_free := by decide
  isKernel_setKernelMode b f := by
    rw [Function.update_of_ne (by decide), Function.update_self]
    cases b <;> rfl
  setKernelMode_sp b f := by
    rw [Function.update_of_ne (by decide), Function.update_of_ne (by decide)]

inductive Arm64Reg
  | x (i : Fin 31)
  | sp
  | pc
  | pstate
  | tpidrEl0
  | q (i : Fin 32)
  deriving DecidableEq, Repr

def arm64 : Arch Arm64Reg where
  pc := .pc
  sp := .sp
  ret := .x 0
  link := some (.x 30)
  regs := (List.finRange 31).map .x ++ [.sp, .pc, .pstate, .tpidrEl0] ++ (List.finRange 32).map .q
  argRegs := [.x 0, .x 1, .x 2, .x 3, .x 4, .x 5, .x 6, .x 7]
  stackArgOff i := (i - 8) * 8
  mode := .pstate
  isKernel pstate := pstate % 16 == 5
  setKernelMode kernel f :=
    Function.update f .pstate (f .pstate / 16 * 16 + if kernel then 5 else 0)
  mode_mem := by simp
  mode_free := by decide
  isKernel_setKernelMode b f := by
    rw [Function.update_self]
    cases b <;> simp
  setKernelMode_sp b f := Function.update_of_ne (by decide) _ f

variable {R : Type} [DecidableEq R]

def Arch.inKernelMode (A : Arch R) (f : File R) : Bool := A.isKernel (f A.mode)

/-! ## What a call does to the registers -/

/-- `guest_caller::scratch_base`, with its `red_zone`. -/
def scratchBase (sp size : Nat) : Nat :=
  ((BitVec.ofNat 64 sp - 0x100#64 - BitVec.ofNat 64 size) &&& ~~~0xF#64).toNat

def wordBelow (a : Nat) : Nat := (BitVec.ofNat 64 a - 8#64).toNat

inductive Prep (R : Type)
  | set (r : R) (v : Nat)
  | write (va : Nat)
  /-- The page of the trampoline, allocated the first time. -/
  | page

/-- What the memory of the emulator answers while a call is prepared. -/
structure Memory where
  /-- The page of the trampoline can be had. -/
  page : Bool := true
  /-- A write at the address throws. -/
  faults : Nat → Bool := fun _ => false
  /-- The range of a new callback stack, when one is allocated. -/
  stack : Option Nat := none

def Prep.throws (m : Memory) : Prep R → Bool
  | .set _ _ => false
  | .write va => m.faults va
  | .page => !m.page

def Prep.make (f : File R) : Prep R → File R
  | .set r v => Function.update f r v
  | .write _ => f
  | .page => f

/-- The registers that the preparations leave, and whether all were made. -/
def prepare (m : Memory) (f : File R) : List (Prep R) → File R × Bool
  | [] => (f, true)
  | p :: ps => if p.throws m then (f, false) else prepare m (p.make f) ps

def Arch.setRetAddr (A : Arch R) (sp addr : Nat) : List (Prep R) :=
  match A.link with
  | some lr => [.set lr addr]
  | none => [.write (wordBelow sp), .set A.sp (wordBelow sp)]

def Arch.writeArg (A : Arch R) (sp i v : Nat) : Prep R :=
  match A.argRegs[i]? with
  | some r => .set r v
  | none => .write ((sp + A.stackArgOff i) % 2 ^ 64)

structure Request where
  routine : Nat
  args : List Nat
  scratch : Nat := 0
  memory : Memory := {}

/-- What `guest_caller::call` does between the reads of the registers and the run. -/
def Arch.preps (A : Arch R) (trampoline sp : Nat) (r : Request) : List (Prep R) :=
  let base := scratchBase sp r.scratch
  let top := if A.link.isNone then wordBelow base else base
  [.set A.sp base, .page] ++ A.setRetAddr base trampoline ++
    (r.args.mapIdx fun i v => A.writeArg top i v) ++ [.set A.pc r.routine]

def restore (regs : List R) (saved : List Nat) (f : File R) : File R :=
  (regs.zip saved).foldl (fun f p => Function.update f p.1 p.2) f

variable {f : File R}

theorem restore_apply {regs : List R} {g : File R} {r : R} :
    restore regs (regs.map g) f r = if r ∈ regs then g r else f r := by
  induction regs generalizing f with
  | nil => rfl
  | cons r' rs ih =>
    have hstep : restore (r' :: rs) ((r' :: rs).map g) f = restore rs (rs.map g) (Function.update f r' (g r')) := rfl
    rw [hstep, ih]
    by_cases hr : r = r'
    · subst hr
      simp
    · simp [hr]

variable {m : Memory}

theorem prepare_apply {ps : List (Prep R)} {r : R} (hr : ∀ v, Prep.set r v ∉ ps) : (prepare m f ps).1 r = f r := by
  induction ps generalizing f with
  | nil => rfl
  | cons p ps ih =>
    have hps : ∀ v, Prep.set r v ∉ ps := fun v hv => hr v (List.mem_cons_of_mem _ hv)
    have hmake : p.make f r = f r := by
      cases p with
      | set r' v =>
        have hne : r ≠ r' := by
          rintro rfl
          exact hr v List.mem_cons_self
        exact Function.update_of_ne hne v f
      | write va => rfl
      | page => rfl
    rw [prepare]
    split
    · rfl
    · rw [ih hps, hmake]

theorem prepare_made {ps : List (Prep R)} :
    (prepare m f ps).2 = true ↔ ∀ p ∈ ps, p.throws m = false := by
  induction ps generalizing f with
  | nil => simp [prepare]
  | cons p ps ih =>
    rw [prepare, List.forall_mem_cons]
    split
    · rename_i hp
      simp [hp]
    · rename_i hp
      have hthrows : p.throws m = false := by simpa using hp
      simp [ih, hthrows]

variable {r : Request} {trampoline : Nat}

theorem Arch.set_mode_notMem (A : Arch R) {sp v : Nat} :
    Prep.set A.mode v ∉ A.preps trampoline sp r := by
  have hfree := A.mode_free
  simp only [List.mem_cons, List.mem_append, Option.mem_toList, not_or] at hfree
  obtain ⟨hpc, hsp, hargs, hlink⟩ := hfree
  intro hmem
  simp only [Arch.preps, List.mem_append, List.mem_cons, List.not_mem_nil, or_false, List.mem_mapIdx,
    Prep.set.injEq, reduceCtorEq, or_false] at hmem
  obtain ((⟨hm, -⟩ | hret) | ⟨i, hi, harg⟩) | ⟨hm, -⟩ := hmem
  · exact hsp hm
  · unfold Arch.setRetAddr at hret
    split at hret
    · rename_i lr hlr
      simp only [List.mem_singleton, Prep.set.injEq] at hret
      exact hlink (by rw [hret.1, hlr])
    · simp only [List.mem_cons, Prep.set.injEq, List.not_mem_nil, or_false, reduceCtorEq, false_or] at hret
      exact hsp hret.1
  · unfold Arch.writeArg at harg
    split at harg
    · rename_i lr hlr
      obtain ⟨rfl, -⟩ := Prep.set.inj harg
      exact hargs (List.mem_of_getElem? hlr)
    · cases harg
  · exact hpc hm

theorem Arch.inKernelMode_prepare (A : Arch R) {sp : Nat} :
    A.inKernelMode (prepare m f (A.preps trampoline sp r)).1 = A.inKernelMode f := by
  unfold Arch.inKernelMode
  rw [prepare_apply fun v => A.set_mode_notMem]

/-- Written back, the registers have the privilege level they were read with. -/
theorem Arch.inKernelMode_restore (A : Arch R) {g : File R} :
    A.inKernelMode (restore A.regs (A.regs.map g) f) = A.inKernelMode g := by
  unfold Arch.inKernelMode
  rw [restore_apply, if_pos A.mode_mem]

/-! ## The machine -/

/-- The locals of `call_guest_kernel`; `used` is the mark on the callback stack before it. -/
structure KernelCall where
  already : Bool
  savedSp : Nat
  stackTaken : Bool
  used : Bool
  taken_unused : stackTaken = true → already = false ∧ used = false

/-- The locals of `guest_caller::call`; `before` are the registers it was made with. -/
structure Call (A : Arch R) where
  before : File R
  saved : List Nat
  kernel : Option KernelCall
  saved_eq : saved = A.regs.map before
  kernel_mode : kernel.isSome = true → A.inKernelMode before = true

/-- A call of `run`: by `guest_caller::call`, or by the scheduler. -/
structure Active (A : Arch R) where
  /-- `uc_emu_stop` has been called. -/
  stopping : Bool := false
  call : Option (Call A)

/-- What a `guest_caller::call` that returns was made with, found when its run ended, and returns with. -/
structure Return (R : Type) where
  before : File R
  left : File R
  after : File R
  result : Nat

/-- What a `call_guest_kernel` that is left, by a return or an exception, found and leaves. -/
structure Exit where
  modeBefore : Bool
  modeAfter : Bool
  usedBefore : Bool
  usedAfter : Bool
  deriving DecidableEq, Repr

/-- The cpu's entries of `kernel_callback_stacks_` and `callback_stack_tops_`. -/
structure CallbackStack where
  used : Bool := false
  top : Nat := 0

structure State (A : Arch R) where
  cpu : Cpu := {}
  file : File R
  redirectPc : Nat := 0
  /-- Innermost first. -/
  runs : List (Active A) := []
  stack : CallbackStack := {}
  returned : List (Return R) := []
  exits : List Exit := []

variable {A : Arch R}

def State.setStopping (s : State A) (b : Bool) : State A :=
  match s.runs with
  | a :: rs => { s with runs := { a with stopping := b } :: rs }
  | [] => s

def State.stopping (s : State A) : Bool :=
  match s.runs with
  | a :: _ => a.stopping
  | [] => false

def State.inHookBody (s : State A) : Bool :=
  match s.cpu.frames with
  | .hookBody :: _ => true
  | _ => false

def State.inGuest (s : State A) : Bool :=
  match s.cpu.frames with
  | .guest _ :: _ => true
  | _ => false

def State.act (s : State A) (a : Action) : Option (State A) :=
  (s.cpu.act a).map fun u => { s with cpu := u }

/-! ### Entering a call -/

/-- `callback_stack_top`: what it answers is left in `top`. -/
def CallbackStack.stackTop (st : CallbackStack) (m : Memory) : Option CallbackStack :=
  if st.top = 0 then
    m.stack.map fun base => { st with top := if base = 0 then 0 else (base + 0x8000) % 2 ^ 64 }
  else some st

/-- `kernel_callback_stack`: what it leaves, and what it answers unless it throws. -/
def CallbackStack.take (st : CallbackStack) (m : Memory) : CallbackStack × Option Nat :=
  if st.used then (st, some 0)
  else
    match CallbackStack.stackTop { st with used := true } m with
    | some st' => (st', some st'.top)
    | none => ({ st with used := true }, none)

variable {st : CallbackStack}

theorem CallbackStack.used_of_take {top : Nat} (h : (st.take m).2 = some top) (htop : top ≠ 0) : st.used = false := by
  unfold CallbackStack.take at h
  split at h
  · cases h
    exact absurd rfl htop
  · rename_i hused
    exact Bool.eq_false_iff.mpr hused

theorem CallbackStack.take_used (st : CallbackStack) (m : Memory) : (st.take m).1.used = true := by
  unfold CallbackStack.take CallbackStack.stackTop
  split
  · assumption
  · by_cases htop : st.top = 0
    · cases hm : m.stack <;> simp [htop]
    · simp [htop]

theorem Arch.inKernelMode_setKernelMode (A : Arch R) (b : Bool) (f : File R) :
    A.inKernelMode (A.setKernelMode b f) = b :=
  A.isKernel_setKernelMode b f

theorem Arch.inKernelMode_setSp (A : Arch R) (f : File R) (v : Nat) :
    A.inKernelMode (Function.update f A.sp v) = A.inKernelMode f := by
  have hne : A.mode ≠ A.sp := by
    intro h
    exact A.mode_free (by simp [h])
  unfold Arch.inKernelMode
  rw [Function.update_of_ne hne]

/-- The part of `guest_caller::call` before its run, and the call of `run`. -/
def State.enter (trampoline : Nat) (s : State A) (r : Request) (kernel : Option KernelCall)
    (hkernel : kernel.isSome = true → A.inKernelMode s.file = true) : State A × Bool :=
  let p := prepare r.memory s.file (A.preps trampoline (s.file A.sp) r)
  if p.2 then
    ({ s with
        cpu := { s.cpu with frames := .enter :: s.cpu.frames }
        file := p.1
        runs := { call := some ⟨s.file, A.regs.map s.file, kernel, rfl, hkernel⟩ } :: s.runs }, true)
  else ({ s with file := p.1 }, false)

/-- The part of `call_guest_kernel` before the run. -/
def State.enterKernel (trampoline : Nat) (s : State A) (r : Request) : State A × Bool :=
  let sp := s.file A.sp
  if already : A.inKernelMode s.file then
    s.enter trampoline r (some ⟨true, sp, false, s.stack.used, by simp⟩) fun _ => already
  else
    let file := A.setKernelMode true s.file
    match hst : s.stack.take r.memory with
    | (stack, none) => ({ s with file := file, stack := stack }, false)
    | (stack, some top) =>
      if htop : top = 0 then
        State.enter trampoline { s with file := file, stack := stack } r
          (some ⟨false, sp, false, s.stack.used, by simp⟩) fun _ => A.inKernelMode_setKernelMode true s.file
      else
        State.enter trampoline { s with file := Function.update file A.sp top, stack := stack } r
          (some ⟨false, sp, true, s.stack.used,
            fun _ => ⟨rfl, CallbackStack.used_of_take (congrArg Prod.snd hst) htop⟩⟩)
          fun _ => (A.inKernelMode_setSp file top).trans (A.inKernelMode_setKernelMode true s.file)

/-! ### Leaving a call -/

/-- The part of `call_guest_kernel` after the call: the registers and the callback stack it leaves. -/
def KernelCall.leave (A : Arch R) (k : KernelCall) (f : File R) (st : CallbackStack) : File R × CallbackStack :=
  if k.already then (f, st)
  else if k.stackTaken then
    (A.setKernelMode false (Function.update f A.sp k.savedSp), { st with used := false })
  else (A.setKernelMode false f, st)

def State.leave (s : State A) (c : Call A) : State A :=
  let after := restore A.regs c.saved s.file
  let returned := ⟨c.before, s.file, after, s.file A.ret⟩ :: s.returned
  match c.kernel with
  | none => { s with file := after, returned := returned }
  | some k =>
    let left := k.leave A after s.stack
    { s with
      file := left.1
      stack := left.2
      returned := returned
      exits := ⟨k.already, A.inKernelMode left.1, k.used, left.2.used⟩ :: s.exits }

def State.finish (s : State A) : State A :=
  match s.runs with
  | [] => s
  | a :: rs =>
    match a.call with
    | none => { s with runs := rs }
    | some c => State.leave { s with runs := rs } c

/-! ### The steps -/

def State.next (s : State A) : Option (State A) :=
  (s.act .next).map fun s' =>
    match s.cpu.frames with
    | .pollPause :: _ => if s.cpu.pendingPause then s'.setStopping true else s'
    | .pollRequested :: _ => if s.cpu.stopRequested then s'.setStopping true else s'
    | .after :: _ =>
      if s.cpu.redirect then { s' with file := Function.update s'.file A.pc s'.redirectPc } else s'
    | .last :: _ => if s.cpu.pendingPause then s' else s'.finish
    | _ => s'

inductive Event (R : Type)
  /-- The scheduler calls `run`. -/
  | schedule
  /-- Guest code runs to these registers. -/
  | guest (f : File R)
  | hook
  /-- The body of a hook leaves these registers. -/
  | handler (f : File R)
  /-- The body of a hook calls `stop`. -/
  | stop
  /-- The body of a hook has moved the pc: `request_redirect` and `uc_emu_stop`. -/
  | redirect
  | hookReturns
  | poll
  /-- A stopped engine returns. -/
  | stopped
  /-- The engine returns with an error. -/
  | failed
  | next
  | call (r : Request)
  | callKernel (r : Request)
  | tryStop
  /-- `run_on_all` of another cpu puts the flag up or down. -/
  | pause (b : Bool)

/-- The exit of a `call_guest_kernel` that is left by an exception. -/
def State.thrown (s s' : State A) : State A :=
  { s' with
    exits := ⟨A.inKernelMode s.file, A.inKernelMode s'.file, s.stack.used, s'.stack.used⟩ :: s'.exits }

def step (trampoline : Nat) (s : State A) : Event R → Option (State A)
  | .schedule =>
    if s.cpu.frames = [] then (s.act .run).map fun s' => { s' with runs := { call := none } :: s'.runs } else none
  | .guest f =>
    if s.inGuest ∧ s.stopping = false ∧ s.file A.pc ≠ trampoline then some { s with file := f } else none
  | .hook => if s.stopping then none else s.act .hook
  | .handler f => if s.inHookBody then some { s with file := f } else none
  | .stop => if s.inHookBody then some (s.setStopping true) else none
  | .redirect =>
    (s.act .requestRedirect).map fun s' => State.setStopping { s' with redirectPc := s'.file A.pc } true
  | .hookReturns => s.act .hookReturns
  | .poll => if s.stopping then none else s.act .poll
  | .stopped => if s.stopping then (s.act .guestReturns).map fun s' => s'.setStopping false else none
  | .failed => (s.act .guestReturns).map fun s' => s'.setStopping false
  | .next => s.next
  | .call r => if s.cpu.mayPause then some (s.enter trampoline r none (by simp)).1 else none
  | .callKernel r =>
    if s.cpu.mayPause then
      let entered := s.enterKernel trampoline r
      some (if entered.2 then entered.1 else s.thrown entered.1)
    else none
  | .tryStop => s.act .tryStop
  | .pause b => some { s with cpu := { s.cpu with pendingPause := b } }

/-! ## What is asked of a call -/

/-- The callee had come to the trampoline, its return value is the result, and the registers are as before. -/
def Return.Complete (A : Arch R) (trampoline : Nat) (r : Return R) : Prop :=
  r.left A.pc = trampoline ∧ r.result = r.left A.ret ∧ ∀ x ∈ A.regs, r.after x = r.before x

def Exit.Balanced (e : Exit) : Prop := e.modeAfter = e.modeBefore ∧ e.usedAfter = e.usedBefore

/-- Every call that has returned is complete, and every `call_guest_kernel` that has been left is balanced. -/
def CallsOk (trampoline : Nat) (s : State A) : Prop :=
  (∀ r ∈ s.returned, r.Complete A trampoline) ∧ ∀ e ∈ s.exits, e.Balanced

/-- The call whose run is about to return: `run` has looked at `redirect_` and finds the flag clear. -/
def State.ending (s : State A) : Option (Call A) :=
  match s.cpu.frames, s.runs with
  | .last :: _, a :: _ => if s.cpu.pendingPause then none else a.call
  | _, _ => none

def State.startSp (s : State A) (m : Memory) : Nat :=
  match (s.stack.take m).2 with
  | some top => if top = 0 then s.file A.sp else top
  | none => s.file A.sp

/-- The callback stack is in use, or there is one, or one is allocated that does not end at zero. -/
def CallbackStack.Available (st : CallbackStack) (m : Memory) : Prop :=
  st.used = true ∨ st.top ≠ 0 ∨ ∃ base, m.stack = some base ∧ base ≠ 0 ∧ (base + 0x8000) % 2 ^ 64 ≠ 0

def State.inCall (s : State A) : Bool :=
  match s.runs with
  | a :: _ => a.call.isSome
  | [] => false

/-- When the engine returns now, `run` goes on or the callee has come to the trampoline. -/
def State.Harmless (trampoline : Nat) (s : State A) : Prop :=
  s.cpu.redirect = true ∨ s.cpu.pendingPause = true ∨ s.file A.pc = trampoline

/-- The engine has been stopped, by a hook that is over or by a poll, or has returned, and `run` has not looked at the
flag of the pause since. -/
def State.leaving (s : State A) : Bool :=
  match s.cpu.frames with
  | .guest _ :: _ | .hookSpin :: _ | .hookClear :: _ => s.stopping
  | .back _ :: _ | .restore _ :: _ | .after :: _ | .last :: _ => true
  | _ => false

/-- A `poll_stop` is about to take the cpu for `try_stop`. -/
def State.preempting (s : State A) : Bool :=
  match s.cpu.frames with
  | .pollRequested :: _ => s.cpu.stopRequested
  | _ => false

/-- In the run of a call: a hook that calls `stop` is the trampoline's, or moves the pc; the cpu is not taken for
`try_stop` and the engine does not fail, where that ends the run; and a pause that has stopped the engine lasts until
`run` has looked at the flag. A `call_guest_kernel` from user mode gets a callback stack, and throws nothing before its
run: the page of the trampoline can be had, and the words of the stack that are written. -/
def Allowed (trampoline : Nat) (s : State A) : Event R → Prop
  | .hookReturns => s.inCall = true → s.stopping = true → s.cpu.redirect = true ∨ s.file A.pc = trampoline
  | .next => s.inCall = true → s.preempting = true → s.Harmless trampoline
  | .failed => s.inCall = true → s.stopping = false → s.Harmless trampoline
  | .pause b => b = false → s.inCall = true → s.leaving = true →
      s.cpu.redirect = true ∨ s.file A.pc = trampoline
  | .callKernel r => A.inKernelMode s.file = false → s.stack.Available r.memory ∧
      ∀ p ∈ A.preps trampoline (s.startSp r.memory) r, p.throws r.memory = false
  | _ => True

/-! ## The callback stack -/

def State.kernels (s : State A) : List KernelCall := s.runs.filterMap fun a => a.call.bind Call.kernel

def KernelCall.inUse (k : KernelCall) : Bool := !k.already || k.used

/-- The call has the callback stack, or found it in use, or needs none. -/
def KernelCall.Owned (k : KernelCall) : Prop := k.already = true ∨ k.stackTaken = true ∨ k.used = true

/-- The mark is as the innermost `call_guest_kernel` has left it, and each has found it as the next one out had. -/
def Marked (used : Bool) : List KernelCall → Prop
  | [] => True
  | k :: ks => used = k.inUse ∧ Marked k.used ks

/-- The step neither enters a `call_guest_kernel` nor leaves a call. -/
structure Quiet (s s' : State A) : Prop where
  kernels : s'.kernels = s.kernels
  used : s'.stack.used = s.stack.used
  returned : s'.returned = s.returned
  exits : s'.exits = s.exits

theorem State.setStopping_quiet (s : State A) (b : Bool) : Quiet s (s.setStopping b) := by
  unfold State.setStopping
  split
  · rename_i a rs hruns
    exact ⟨by simp [State.kernels, hruns, List.filterMap_cons], rfl, rfl, rfl⟩
  · exact ⟨rfl, rfl, rfl, rfl⟩

variable {s : State A}

theorem State.act_quiet {s' : State A} {a : Action} (h : s.act a = some s') : Quiet s s' := by
  obtain ⟨u, -, rfl⟩ := Option.map_eq_some_iff.mp h
  exact ⟨rfl, rfl, rfl, rfl⟩

theorem Quiet.trans {s₁ s₂ : State A} (h : Quiet s s₁) (h' : Quiet s₁ s₂) : Quiet s s₂ :=
  ⟨h'.kernels.trans h.kernels, h'.used.trans h.used, h'.returned.trans h.returned, h'.exits.trans h.exits⟩

theorem Quiet.callsOk {s' : State A} (h : Quiet s s') :
    CallsOk trampoline s' ↔ CallsOk trampoline s := by
  unfold CallsOk
  rw [h.returned, h.exits]

theorem State.enter_quiet {h} :
    Quiet s (s.enter trampoline r none h).1 := by
  unfold State.enter
  by_cases hp : (prepare r.memory s.file (A.preps trampoline (s.file A.sp) r)).2 = true
  · simp only [hp, if_true]
    exact ⟨by simp [State.kernels], rfl, rfl, rfl⟩
  · simp only [hp]
    exact ⟨rfl, rfl, rfl, rfl⟩

/-- What the next step of the cpu does: it is quiet, or it ends the run of a call. -/
theorem State.next_cases {s' : State A} (h : s.next = some s') :
    Quiet s s' ∨
      ∃ u a rs c, s.runs = a :: rs ∧ a.call = some c ∧ s.ending = some c ∧
        s' = State.leave { s with cpu := u, runs := rs } c := by
  obtain ⟨s₁, hact, rfl⟩ := Option.map_eq_some_iff.mp h
  have hquiet := State.act_quiet hact
  split
  · left
    split
    · exact hquiet.trans (s₁.setStopping_quiet true)
    · exact hquiet
  · left
    split
    · exact hquiet.trans (s₁.setStopping_quiet true)
    · exact hquiet
  · left
    split
    · exact hquiet.trans ⟨rfl, rfl, rfl, rfl⟩
    · exact hquiet
  · rename_i fs hf
    by_cases hp : s.cpu.pendingPause = true
    · rw [if_pos hp]
      exact .inl hquiet
    · rw [if_neg hp]
      obtain ⟨u, -, rfl⟩ := Option.map_eq_some_iff.mp hact
      cases hruns : s.runs with
      | nil =>
        left
        simp only [State.finish]
        exact ⟨by simp [State.kernels, hruns], rfl, rfl, rfl⟩
      | cons a rs =>
        cases hcall : a.call with
        | none =>
          left
          simp only [State.finish, hcall]
          exact ⟨by simp [State.kernels, hruns, hcall], rfl, rfl, rfl⟩
        | some c =>
          refine .inr ⟨u, a, rs, c, rfl, hcall, by simp [State.ending, hf, hruns, hcall, hp], ?_⟩
          simp only [State.finish, hcall]
  · exact .inl hquiet

/-! ## When calls do what is asked -/

theorem Call.complete_iff {c : Call A} :
    Return.Complete A trampoline ⟨c.before, f, restore A.regs c.saved f, f A.ret⟩ ↔ f A.pc = trampoline := by
  constructor
  · exact fun h => h.1
  · intro hpc
    refine ⟨hpc, rfl, fun x hx => ?_⟩
    simp only [c.saved_eq, restore_apply, if_pos hx]

/-- The privilege level after a call of `call_guest_kernel` is that of before it. -/
theorem KernelCall.leave_mode {c : Call A} {k : KernelCall} (hk : c.kernel = some k) (f : File R)
    (st : CallbackStack) : A.inKernelMode (k.leave A (restore A.regs c.saved f) st).1 = k.already := by
  have hrestored : A.inKernelMode (restore A.regs c.saved f) = true := by
    rw [c.saved_eq, A.inKernelMode_restore]
    exact c.kernel_mode (by simp [hk])
  unfold KernelCall.leave
  cases hal : k.already with
  | true => simpa using hrestored
  | false => cases k.stackTaken <;> simp [A.inKernelMode_setKernelMode]

/-- The mark on the callback stack is as it was found, where the call had the stack or found it in use. -/
theorem KernelCall.leave_used {k : KernelCall} (hst : st.used = k.inUse) :
    (k.leave A f st).2.used = k.used ↔ k.Owned := by
  have htaken := k.taken_unused
  unfold KernelCall.leave
  unfold KernelCall.Owned
  unfold KernelCall.inUse at hst
  cases hal : k.already <;> cases ht : k.stackTaken <;> cases hu : k.used <;> simp_all

theorem State.leave_callsOk {c : Call A} (hok : CallsOk trampoline s)
    (hmark : ∀ k, c.kernel = some k → s.stack.used = k.inUse) :
    CallsOk trampoline (s.leave c) ↔
      s.file A.pc = trampoline ∧ ∀ k, c.kernel = some k → k.Owned := by
  obtain ⟨hreturned, hexits⟩ := hok
  unfold State.leave CallsOk
  cases hk : c.kernel with
  | none =>
    simp only [List.forall_mem_cons, Call.complete_iff]
    exact ⟨fun h => ⟨h.1.1, by simp⟩, fun h => ⟨⟨h.1, hreturned⟩, hexits⟩⟩
  | some k =>
    have hmode := KernelCall.leave_mode hk s.file s.stack
    have hused := KernelCall.leave_used (A := A) (f := restore A.regs c.saved s.file) (hmark k hk)
    simp only [List.forall_mem_cons, Call.complete_iff, Exit.Balanced, Option.some.injEq, forall_eq']
    rw [hused]
    exact ⟨fun h => ⟨h.1.1, h.2.1.2⟩, fun h => ⟨⟨h.1, hreturned⟩, ⟨hmode, h.2⟩, hexits⟩⟩

theorem State.enter_logs {kernel : Option KernelCall} {h} :
    (s.enter trampoline r kernel h).1.returned = s.returned ∧ (s.enter trampoline r kernel h).1.exits = s.exits ∧
      (s.enter trampoline r kernel h).1.stack = s.stack := by
  unfold State.enter
  dsimp only
  split
  · exact ⟨rfl, rfl, rfl⟩
  · exact ⟨rfl, rfl, rfl⟩

/-- A call that is entered has made all its preparations, and is the innermost. -/
theorem State.enter_made {k : KernelCall} {h} :
    ((s.enter trampoline r (some k) h).2 = true ↔
      ∀ p ∈ A.preps trampoline (s.file A.sp) r, p.throws r.memory = false) ∧
    ((s.enter trampoline r (some k) h).2 = true →
      (s.enter trampoline r (some k) h).1.kernels = k :: s.kernels) := by
  rw [← prepare_made (f := s.file)]
  unfold State.enter
  by_cases hp : (prepare r.memory s.file (A.preps trampoline (s.file A.sp) r)).2 = true
  · simp [hp, State.kernels]
  · simp [hp]

theorem State.enter_mode {kernel : Option KernelCall} {h} :
    A.inKernelMode (s.enter trampoline r kernel h).1.file = A.inKernelMode s.file := by
  unfold State.enter
  dsimp only
  split
  · exact A.inKernelMode_prepare
  · exact A.inKernelMode_prepare

/-- `call_guest_kernel` comes to its call, or throws, in kernel mode, and has returned from nothing. -/
theorem State.enterKernel_mode (trampoline : Nat) (s : State A) (r : Request) :
    A.inKernelMode (s.enterKernel trampoline r).1.file = true ∧
      (s.enterKernel trampoline r).1.returned = s.returned ∧ (s.enterKernel trampoline r).1.exits = s.exits := by
  unfold State.enterKernel
  dsimp only
  split
  · rename_i already
    exact ⟨State.enter_mode.trans already, State.enter_logs.1, State.enter_logs.2.1⟩
  · split
    · exact ⟨A.inKernelMode_setKernelMode true s.file, rfl, rfl⟩
    · split
      · exact ⟨State.enter_mode.trans (A.inKernelMode_setKernelMode true s.file), State.enter_logs.1,
          State.enter_logs.2.1⟩
      · exact ⟨State.enter_mode.trans ((A.inKernelMode_setSp _ _).trans (A.inKernelMode_setKernelMode true s.file)),
          State.enter_logs.1, State.enter_logs.2.1⟩

theorem State.enterKernel_already
    (already : A.inKernelMode s.file = true) (h : (s.enterKernel trampoline r).2 ≠ true) :
    (s.enterKernel trampoline r).1.stack = s.stack ∧ (s.enterKernel trampoline r).1.kernels = s.kernels := by
  unfold State.enterKernel at h ⊢
  dsimp only at h ⊢
  rw [dif_pos already] at h ⊢
  unfold State.enter at h ⊢
  dsimp only at h ⊢
  split at h
  · simp at h
  · rename_i hmade
    rw [if_neg hmade]
    exact ⟨rfl, rfl⟩

theorem CallbackStack.Available.taken (h : st.Available m) (hused : st.used = false) : (st.take m).2 ≠ some 0 := by
  unfold CallbackStack.take CallbackStack.stackTop
  rw [if_neg (by simp [hused])]
  obtain hused' | htop | ⟨base, hbase, hne, hend⟩ := h
  · simp [hused] at hused'
  · simp [htop]
  · by_cases htop : st.top = 0
    · simpa [htop, hbase, hne] using hend
    · simp [htop]

/-- The call that is entered is the innermost; it has found the mark as it was. -/
theorem State.enterKernel_entered (hstack : A.inKernelMode s.file = false → s.stack.Available r.memory)
    (h : (s.enterKernel trampoline r).2 = true) :
    ∃ k : KernelCall, (s.enterKernel trampoline r).1.kernels = k :: s.kernels ∧
      (s.enterKernel trampoline r).1.stack.used = k.inUse ∧ k.used = s.stack.used ∧ k.Owned := by
  unfold State.enterKernel at h ⊢
  dsimp only at h ⊢
  split at h
  · rename_i already
    rw [dif_pos already]
    refine ⟨_, State.enter_made.2 h, ?_, rfl, .inl rfl⟩
    rw [State.enter_logs.2.2]
    rfl
  · rename_i already
    have huse := s.stack.take_used r.memory
    have havail := hstack (Bool.eq_false_iff.mpr already)
    rw [dif_neg already]
    split at h
    · simp at h
    · rename_i stack top hst
      rw [hst] at huse
      split at h
      · rename_i htop
        have hused : s.stack.used = true := by
          by_contra hused
          exact havail.taken (Bool.eq_false_iff.mpr hused) (by rw [hst, htop])
        rw [dif_pos htop]
        refine ⟨_, State.enter_made.2 h, ?_, rfl, .inr (.inr hused)⟩
        rw [State.enter_logs.2.2]
        exact huse
      · rename_i htop
        rw [dif_neg htop]
        refine ⟨_, State.enter_made.2 h, ?_, rfl, .inr (.inl rfl)⟩
        rw [State.enter_logs.2.2]
        exact huse

/-- The callback stack can be asked for, unless there is none and none can be allocated. -/
theorem CallbackStack.take_none (st : CallbackStack) (m : Memory) :
    (st.take m).2 = none ↔ ¬ (st.used = true ∨ st.top ≠ 0 ∨ m.stack.isSome = true) := by
  unfold CallbackStack.take CallbackStack.stackTop
  by_cases hused : st.used = true
  · simp [hused]
  · by_cases htop : st.top = 0
    · cases hm : m.stack <;> simp [hused, htop]
    · simp [hused, htop]

theorem CallbackStack.Available.asked (h : st.Available m) :
    st.used = true ∨ st.top ≠ 0 ∨ m.stack.isSome = true := by
  obtain hused | htop | ⟨base, hbase, -⟩ := h
  · exact .inl hused
  · exact .inr (.inl htop)
  · exact .inr (.inr (by rw [hbase]; rfl))

theorem State.enterKernel_user (huser : A.inKernelMode s.file = false) :
    (s.enterKernel trampoline r).2 = true ↔ (s.stack.used = true ∨ s.stack.top ≠ 0 ∨ r.memory.stack.isSome = true) ∧
        ∀ p ∈ A.preps trampoline (s.startSp r.memory) r, p.throws r.memory = false := by
  have hnone := s.stack.take_none r.memory
  unfold State.enterKernel
  dsimp only
  rw [dif_neg (by simp [huser])]
  split
  · rename_i stack hst
    rw [hst] at hnone
    simp [hnone.mp rfl]
  · rename_i stack top hst
    rw [hst] at hnone
    have hstack : s.stack.used = true ∨ s.stack.top ≠ 0 ∨ r.memory.stack.isSome = true := by
      by_contra hno
      exact absurd (hnone.mpr hno) (by simp)
    have hsp : s.startSp r.memory = if top = 0 then s.file A.sp else top := by
      unfold State.startSp
      rw [hst]
    rw [and_iff_right hstack, hsp]
    split
    · rename_i htop
      rw [State.enter_made.1]
      simp only [A.setKernelMode_sp]
    · rename_i htop
      rw [State.enter_made.1]
      simp only [Function.update_self]

end Kernemul.GuestCall
