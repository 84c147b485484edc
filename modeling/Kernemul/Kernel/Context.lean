import Kernemul.Kernel.Scheduler

/-!
# Thread contexts (`thread::save`, `restore`, `NtGetContextThread`, `NtSetContextThread`)

A thread's registers are on the cpu that runs it, and in its bank from the `save` in `schedule` to the
`restore` after it has been taken again. `NtGetContextThread` and `NtSetContextThread` go to the cpu when the
thread is the caller and to the bank otherwise. `NtSuspendThread` counts up and does nothing to the cpu that
runs the thread: until that cpu's next `schedule` the bank is not what the thread goes on with, and what is
written to it is lost.

The registers are those of x64. A segment register goes by its selector, and `gs` by its base too. A bank has no data
segments but `gs`, no debug registers, and of the FPU's state only the xmm registers: of the others a CONTEXT is given
constants or nothing, and what it has of them is not written.
-/

namespace Kernemul.Context

open Sched (ThreadId CpuId Phase Placed)

/-- `arch::regs`. -/
inductive Reg
  | gp (i : Fin 16)
  | rip
  | rflags
  | xmm (i : Fin 16)
  | cs
  | ss
  | gs
  deriving DecidableEq, Repr

/-- The registers of a cpu. A bank has those of `arch::regs`, with the selector of `gs` beside its base. -/
inductive CpuReg
  | reg (r : Reg)
  | gsSel
  | ds
  | es
  | fs
  | mxcsr
  | fpcw
  /-- The rest of what `FltSave` has: the status and tag words, the last instruction, the mask and the stack. -/
  | x87 (i : Fin 16)
  /-- `Dr0` to `Dr3`, `Dr6` and `Dr7`. -/
  | dr (i : Fin 6)
  deriving DecidableEq, Repr

instance : Coe Reg CpuReg := ⟨.reg⟩

def CpuReg.banked : CpuReg → Bool
  | .reg _ | .gsSel => true
  | _ => false

def CpuReg.carried : CpuReg → Bool
  | .reg (.gp _) | .reg .rip | .reg .rflags | .reg (.xmm _) => true
  | _ => false

abbrev RegFile := CpuReg → Nat

def rax : Reg := .gp 0
def rcx : Reg := .gp 1
def rdx : Reg := .gp 2
def rsp : Reg := .gp 4
def rbp : Reg := .gp 5
def r8 : Reg := .gp 8
def r9 : Reg := .gp 9

def contextAmd64 : Nat := 0x00100000
def contextControl : Nat := contextAmd64 ||| 0x1
def contextInteger : Nat := contextAmd64 ||| 0x2
def contextSegments : Nat := contextAmd64 ||| 0x4
def contextFloat : Nat := contextAmd64 ||| 0x8

/-- `context_flags::has`. -/
def hasFlags (bits part : Nat) : Bool := bits &&& part == part

def contextDebug : Nat := contextAmd64 ||| 0x10

/-- `_CONTEXT`: the field of a register that has one. -/
structure Ctx where
  contextFlags : Nat
  reg : RegFile

/-- The part of a CONTEXT that a register is in; `gs` goes by its selector there. -/
def CpuReg.part : CpuReg → Option Nat
  | .reg (.gp i) => some (if i = 4 ∨ i = 5 then contextControl else contextInteger)
  | .reg .rip | .reg .rflags | .reg .cs | .reg .ss => some contextControl
  | .ds | .es | .fs | .gsSel => some contextSegments
  | .reg (.xmm _) | .mxcsr | .fpcw | .x87 _ => some contextFloat
  | .dr _ => some contextDebug
  | .reg .gs => none

def CpuReg.within (r : CpuReg) (flags : Nat) : Bool := r.part.any (hasFlags flags)

/-- The value of a register as its field holds it: `EFlags` has 32 bits. -/
def CpuReg.shown (r : CpuReg) (v : Nat) : Nat := if r = .reg .rflags then v % 2 ^ 32 else v

def userCs : Nat := 0x33
def userDs : Nat := 0x2B
def kernelCs : Nat := 0x10
def kernelDs : Nat := 0x18

def codeSel (user : Bool) : Nat := if user then userCs else kernelCs
def dataSel (user : Bool) : Nat := if user then userDs else kernelDs

def defaultMxcsr : Nat := 0x1F80
def defaultFpcw : Nat := 0x27F

/-- What `capture_context` writes to the field of a register whose value it does not read; `old` is what it held. -/
def constantOf (user : Bool) (old : Nat) : CpuReg → Nat
  | .reg .cs => codeSel user
  | .reg .ss | .ds | .es | .fs | .gsSel => dataSel user
  | .mxcsr => defaultMxcsr
  | .fpcw => defaultFpcw
  | _ => old

/-- The parts that `capture_context` has filled in. -/
def filled (wanted : Nat) : Nat :=
  [contextInteger, contextControl, contextSegments, contextFloat].foldl
    (fun filled part => if hasFlags wanted part then filled ||| part else filled) contextAmd64

/-- `capture_context`; `ctx` is what the caller's buffer held. -/
def captureContext (regs : RegFile) (user : Bool) (ctx : Ctx) : Ctx where
  contextFlags := filled ctx.contextFlags
  reg r :=
    if r.within ctx.contextFlags then if r.carried then r.shown (regs r) else constantOf user (ctx.reg r) r
    else ctx.reg r

/-- What a register is when a CONTEXT's value has been written to it: bit 1 of `rflags` reads as one. -/
def given (ctx : Ctx) (r : CpuReg) : Nat := if r = .reg .rflags then ctx.reg r ||| 0x2 else ctx.reg r

/-- The value that `apply_context` gives a register; the code and stack segments become those of user mode or stay. -/
def applied (ctx : Ctx) (r : CpuReg) : Option Nat :=
  if r.within ctx.contextFlags && r.carried then some (given ctx r)
  else if hasFlags ctx.contextFlags contextControl && ctx.reg (.reg .cs) == userCs then
    if r = .reg .cs then some userCs else if r = .reg .ss then some userDs else none
  else none

def applyContext (ctx : Ctx) (regs : RegFile) : RegFile := fun r => (applied ctx r).getD (regs r)

/-- The scheduler, the registers and the counts. `expects` and `due` are not in the source: the values that a
call has answered, or been given, for a thread that was suspended then, and whether the thread has been
resumed since; both until the thread goes on. -/
structure State where
  sched : Sched.State
  regs : CpuId → RegFile := fun _ _ => 0
  bank : ThreadId → RegFile := fun _ _ => 0
  suspendCount : ThreadId → Nat := fun _ => 0
  waiting : ThreadId → Bool := fun _ => false
  user : ThreadId → Bool := fun _ => true
  pcr : CpuId → Nat := fun _ => 0
  expects : ThreadId → CpuReg → Option Nat := fun _ _ => none
  due : ThreadId → Bool := fun _ => false

/-- What `is_ready` finds: no suspended thread is. -/
def State.isReady (s : State) (ready : ThreadId → Bool) (t : ThreadId) : Bool :=
  s.suspendCount t == 0 && ready t

def State.save (s : State) (c : CpuId) (t : ThreadId) : State :=
  { s with bank := Function.update s.bank t (s.regs c) }

/-- `is_ready` of the thread that is taken: a wait that is over leaves its status in `rax`. -/
def State.finishWait (s : State) (t : ThreadId) (status : Nat) : State :=
  if s.waiting t then
    { s with
      bank := Function.update s.bank t (Function.update (s.bank t) rax status)
      waiting := Function.update s.waiting t false }
  else s

/-- What `restore` gives the cpu: a system thread has the KPCR of the cpu in `gs`. -/
def State.restored (s : State) (c : CpuId) (t : ThreadId) : RegFile := fun r =>
  if !r.banked then s.regs c r
  else if s.user t then s.bank t r
  else if r = .reg .gs then s.pcr c
  else if r = .gsSel then kernelDs
  else s.bank t r

def State.restore (s : State) (c : CpuId) (t : ThreadId) : State :=
  { s with
    regs := Function.update s.regs c (s.restored c t)
    expects := if s.due t then Function.update s.expects t fun _ => none else s.expects
    due := Function.update s.due t false }

/-- What a step of the scheduler does to the registers before it moves the thread: `schedule` saves the thread
that the cpu had, `run` the one that has finished. -/
def State.before (s : State) : Sched.Event → State
  | .schedule c _ =>
    match s.sched.phase c with
    | .entering (some t) => s.save c t
    | _ => s
  | .release c =>
    match s.sched.phase c with
    | .retiring t => s.save c t
    | _ => s
  | _ => s

def State.taken (s : State) (c : CpuId) (status : Nat) : State :=
  match s.sched.phase c with
  | .resuming t => s.finishWait t status
  | _ => s

def State.after (s : State) (status : Nat) : Sched.Event → State
  | .schedule c _ => s.taken c status
  | .lookAgain c _ => s.taken c status
  | .resume c =>
    match s.sched.phase c with
    | .running t _ => s.restore c t
    | _ => s
  | _ => s

/-- The registers that a context handler of thread `self` on cpu `c` goes to, `reg_view`. -/
def State.view (s : State) (c : CpuId) (self t : ThreadId) : RegFile :=
  if t = self then s.regs c else s.bank t

def State.setView (s : State) (c : CpuId) (self t : ThreadId) (regs : RegFile) : State :=
  if t = self then { s with regs := Function.update s.regs c regs }
  else { s with bank := Function.update s.bank t regs }

inductive Event
  /-- A thread is made, with the registers it starts from. -/
  | prepare (t : ThreadId) (regs : RegFile)
  /-- A step of the scheduler; `status` is that of a wait that `is_ready` finds over. -/
  | sched (e : Sched.Event) (status : Nat)
  /-- Guest code, or a handler, changes the registers of its cpu. -/
  | guest (c : CpuId) (regs : RegFile)
  | beginWait (c : CpuId)
  | suspendThread (c : CpuId) (t : ThreadId)
  | resumeThread (c : CpuId) (t : ThreadId)
  | getContextThread (c : CpuId) (t : ThreadId) (ctx : Ctx)
  | setContextThread (c : CpuId) (t : ThreadId) (ctx : Ctx)

/-- The answer of `NtGetContextThread`. -/
def State.getContext (s : State) (c : CpuId) (self t : ThreadId) (ctx : Ctx) : Ctx :=
  captureContext (s.view c self t) (s.user t) ctx

def step (s : State) : Event → Option State
  | .prepare t regs =>
    if s.sched.enqueued t then none else some { s with bank := Function.update s.bank t regs }
  | .sched e status =>
    (Sched.step s.sched (e.mapReady s.isReady)).map fun sched =>
      { s.before e with sched := sched }.after status e
  | .guest c regs => (s.sched.caller c).map fun _ => { s with regs := Function.update s.regs c regs }
  | .beginWait c => (s.sched.caller c).map fun self => { s with waiting := Function.update s.waiting self true }
  | .suspendThread c t => (s.sched.caller c).map fun _ =>
    { s with suspendCount := Function.update s.suspendCount t ((s.suspendCount t + 1) % 2 ^ 32) }
  | .resumeThread c t => (s.sched.caller c).map fun _ =>
    { s with
      suspendCount := Function.update s.suspendCount t (s.suspendCount t - 1)
      due := if s.suspendCount t = 1 then Function.update s.due t true else s.due }
  | .getContextThread c t ctx => (s.sched.caller c).map fun self =>
    { s with
      expects := Function.update s.expects t fun r =>
        if 0 < s.suspendCount t ∧ r.within (s.getContext c self t ctx).contextFlags then
          some ((s.getContext c self t ctx).reg r)
        else s.expects t r }
  | .setContextThread c t ctx => (s.sched.caller c).map fun self =>
    { s.setView c self t (applyContext ctx (s.view c self t)) with
      expects := Function.update s.expects t fun r =>
        if r.within ctx.contextFlags then if 0 < s.suspendCount t then some (given ctx r) else none
        else s.expects t r }

/-- A suspended thread goes on with what was answered and given for it: when it has been resumed, the registers
that `restore` gives the cpu are those. -/
def Stable (s : State) : Prop :=
  ∀ c t status s', s.sched.phase c = .resuming t → s.due t = true →
    step s (.sched (.resume c) status) = some s' →
    ∀ r v, s.expects t r = some v → r.shown (s'.regs c r) = r.shown v

/-- Before any cpu is in `run`. -/
def start (cpus : List CpuId) : State := { sched := Sched.start cpus }

def integerContext : Ctx := { contextFlags := contextInteger, reg := fun _ => 0 }

/-- Thread `7` on cpu `0` suspends thread `8` while cpu `1` runs it, reads its context, and resumes it when it
has been put back on the queue. -/
def readsRunning : List Event :=
  [.sched (.enqueue 7) 0, .sched (.enqueue 8) 0, .sched (.schedule 0 fun _ => true) 0,
    .sched (.schedule 1 fun _ => true) 0, .sched (.resume 0) 0, .sched (.resume 1) 0, .guest 1 fun _ => 5,
    .suspendThread 0 8, .getContextThread 0 8 integerContext, .sched (.runReturns 1) 0,
    .sched (.schedule 1 fun _ => true) 0, .resumeThread 0 8, .sched (.lookAgain 1 fun _ => true) 0]

theorem readsRunning_not_stable : ¬ ∀ cpus events s, Run.Steps step (fun _ _ => True) (start cpus) events s →
    Stable s := by
  intro hall
  have hexec : (Run.exec step (fun _ _ => true) (start [0, 1]) readsRunning).map
      (fun s => (s.sched.phase 1, s.due 8, s.expects 8 (.reg (.gp 3)),
        (step s (.sched (.resume 1) 0)).map fun s' => s'.regs 1 (.reg (.gp 3)))) =
      some (.resuming 8, true, some 0, some 5) := by decide +kernel
  obtain ⟨s, hs, hfacts⟩ := Option.map_eq_some_iff.mp hexec
  simp only [Prod.mk.injEq] at hfacts
  obtain ⟨hphase, hdue, hexpects, hnext⟩ := hfacts
  obtain ⟨s', hs', hregs⟩ := Option.map_eq_some_iff.mp hnext
  have hstable := hall _ _ s (Run.Steps.of_exec (fun _ _ _ => trivial) hs) 1 8 0 s' hphase hdue hs' _ 0 hexpects
  simp [CpuReg.shown, hregs] at hstable

/-! ## When a context is stable -/

/-- The registers of the thread are in its bank: it is on no cpu, and when `rax` is asked for, no wait of it is
to be finished. -/
structure Banked (s : State) (t : ThreadId) (flags : Nat) : Prop where
  enqueued : s.sched.enqueued t = true
  away : ∀ c, s.sched.current c ≠ some t
  notWaiting : CpuReg.within rax flags = true → s.waiting t = false

/-- The value is that of the thread's bank, or of every cpu where the bank has none. -/
def Resident (s : State) (t : ThreadId) (r : CpuReg) (v : Nat) : Prop :=
  if r.banked then s.bank t r = v ∧ (r = .gsSel → s.user t = false → v = kernelDs) else ∀ c, s.regs c r = v

/-- The constants that the thread's context is given are what it has. -/
def ConstantsTrue (s : State) (t : ThreadId) (ctx : Ctx) : Prop :=
  ∀ r, r.within (filled ctx.contextFlags) = true → r.carried = false →
    Resident s t r (constantOf (s.user t) (ctx.reg r) r)

/-- A register that is not written has the value already; the code and stack segments can become those of user mode. -/
def Given (s : State) (t : ThreadId) (ctx : Ctx) (r : CpuReg) : Prop :=
  if ctx.reg (.reg .cs) = userCs ∧ (r = .reg .cs ∨ r = .reg .ss) then r = .reg .ss → ctx.reg (.reg .ss) = userDs
  else Resident s t r (ctx.reg r)

/-- The context of a suspended thread is read and written while it is in the bank and as far as it is there, guest code
changes what is in no bank only while none of it has been read or written for a thread that is to go on, and no thread
is suspended so often that the count goes round. -/
def ContextOk (s : State) : Event → Prop
  | .getContextThread _ t ctx => 0 < s.suspendCount t → Banked s t ctx.contextFlags ∧ ConstantsTrue s t ctx
  | .setContextThread _ t ctx => 0 < s.suspendCount t → Banked s t ctx.contextFlags ∧
    ∀ r, r.within ctx.contextFlags = true → r.carried = false → Given s t ctx r
  | .guest c regs => ∀ r, r.banked = false → regs r = s.regs c r ∨ ∀ t, s.expects t r = none
  | .suspendThread _ t => s.suspendCount t + 1 < 2 ^ 32
  | _ => True

/-- The value is in the bank, or on every cpu, and stays there until the thread has been resumed and goes on. -/
structure Held (s : State) (t : ThreadId) (r : CpuReg) (v : Nat) : Prop where
  banked : r.banked = true → r.shown (s.bank t r) = r.shown v
  segment : r = .gsSel → s.user t = false → v = kernelDs
  unbanked : r.banked = false → ∀ c, s.regs c r = v
  notGs : r ≠ .reg .gs
  enqueued : s.sched.enqueued t = true
  notWaiting : r = rax → s.waiting t = false
  suspended : 0 < s.suspendCount t ∨ s.due t = true
  goesOn : ∀ c, s.sched.current c = some t → s.sched.phase c = .resuming t ∧ s.due t = true

structure Kept (s : State) : Prop where
  placed : Placed s.sched
  held : ∀ t r v, s.expects t r = some v → Held s t r v

variable {s : State} {t : ThreadId} {r : CpuReg}

theorem Held.bank {s' : State} {v : Nat} (h : Held s t r v)
    (hsched : s'.sched = s.sched) (hbank : s'.bank t r = s.bank t r)
    (hregs : r.banked = false → ∀ c, s'.regs c r = s.regs c r) (huser : s'.user t = s.user t)
    (hwait : s.waiting t = false → s'.waiting t = false)
    (hcount : 0 < s.suspendCount t → 0 < s'.suspendCount t ∨ s'.due t = true)
    (hdue : s.due t = true → s'.due t = true) : Held s' t r v where
  banked hr := by rw [hbank]; exact h.banked hr
  segment hr hu := h.segment hr (huser ▸ hu)
  unbanked hr c := (hregs hr c).trans (h.unbanked hr c)
  notGs := h.notGs
  enqueued := by rw [hsched]; exact h.enqueued
  notWaiting hr := hwait (h.notWaiting hr)
  suspended := h.suspended.elim hcount fun hd => .inr (hdue hd)
  goesOn c hc := by
    rw [hsched] at hc ⊢
    exact ⟨(h.goesOn c hc).1, hdue (h.goesOn c hc).2⟩

theorem Kept.before (h : Kept s) (e : Sched.Event) :
    Kept (s.before e) ∧ (s.before e).sched = s.sched ∧ (s.before e).suspendCount = s.suspendCount ∧
      (s.before e).due = s.due := by
  have hsave : ∀ c t, s.sched.current c = some t → s.sched.phase c ≠ .resuming t →
      Kept (s.save c t) := by
    intro c t hcur hphase
    refine ⟨h.placed, fun u r v hu => ?_⟩
    have hheld := h.held u r v hu
    have hut : u ≠ t := fun hut => hphase (hut ▸ (hheld.goesOn c (hut ▸ hcur)).1)
    exact hheld.bank rfl (by simp [State.save, hut]) (fun _ _ => rfl) rfl id .inl fun hd => hd
  unfold State.before
  split
  · split
    · rename_i c _ _ t hp
      have hcur : s.sched.current c = some t := (h.placed.held c).trans (by rw [hp]; rfl)
      exact ⟨hsave c t hcur (by simp [hp]), rfl, rfl, rfl⟩
    · exact ⟨h, rfl, rfl, rfl⟩
  · split
    · rename_i c _ t hp
      have hcur : s.sched.current c = some t := (h.placed.held c).trans (by rw [hp]; rfl)
      exact ⟨hsave c t hcur (by simp [hp]), rfl, rfl, rfl⟩
    · exact ⟨h, rfl, rfl, rfl⟩
  · exact ⟨h, rfl, rfl, rfl⟩

/-- A step of the scheduler that does not take the thread on to its cpu leaves what is held for it. -/
theorem Held.sched {v : Nat} (h : Held s t r v) {e : Sched.Event}
    {sched : Sched.State} (hstep : Sched.step s.sched e = some sched)
    (hready : ∀ c ready, e = .schedule c ready ∨ e = .lookAgain c ready → ready t = true →
      s.suspendCount t = 0)
    (hresume : ∀ c, e = .resume c → s.sched.phase c ≠ .resuming t) :
    Held { s with sched := sched } t r v where
  banked := h.banked
  segment := h.segment
  unbanked := h.unbanked
  notGs := h.notGs
  enqueued := (Sched.marks_step hstep t).1 h.enqueued
  notWaiting := h.notWaiting
  suspended := h.suspended
  goesOn c hc := by
    obtain ⟨hold, hphase⟩ | ⟨hphase, ready, he, htrue⟩ := Sched.current_step hstep hc
    · obtain ⟨hresuming, hdue⟩ := h.goesOn c hold
      obtain hsame | hcpu := hphase
      · exact ⟨hsame.trans hresuming, hdue⟩
      · exact absurd hresuming (hresume c (Sched.resuming_step hstep hcpu hresuming).1)
    · have hzero := hready c ready he htrue
      exact ⟨hphase, h.suspended.resolve_left (by omega)⟩

/-- A wait that is over changes `rax` only, which is not held for its thread. -/
theorem Kept.taken (h : Kept s) (c : CpuId) (status : Nat) : Kept (s.taken c status) := by
  unfold State.taken
  split
  · rename_i t _
    unfold State.finishWait
    split
    · rename_i hwait
      refine ⟨h.placed, fun u r v hu => ?_⟩
      have hheld := h.held u r v hu
      by_cases hut : u = t
      · subst hut
        have hr : r ≠ rax := fun hr => by
          rw [hheld.notWaiting hr] at hwait
          cases hwait
        exact hheld.bank rfl (by simp [hr]) (fun _ _ => rfl) rfl (by simp) .inl fun hd => hd
      · exact hheld.bank rfl (by simp [hut]) (fun _ _ => rfl) rfl (by simp [hut]) .inl fun hd => hd
    · exact h
  · exact h

variable {c : CpuId}

theorem restore_regs {d : CpuId} (hr : r.banked = false) :
    (s.restore c t).regs d r = s.regs d r := by
  by_cases hdc : d = c
  · simp [State.restore, State.restored, hdc, hr]
  · simp [State.restore, hdc]

theorem Kept.resume (h : Kept s) {sched : Sched.State}
    (hstep : Sched.step s.sched (.resume c) = some sched) (hphase : s.sched.phase c = .resuming t) :
    Kept ({ s with sched := sched }.restore c t) := by
  refine ⟨h.placed.step hstep, fun u r v hu => ?_⟩
  have hcur : s.sched.current c = some t := (h.placed.held c).trans (by rw [hphase]; rfl)
  have hold : u ≠ t ∧ s.expects u r = some v := by
    by_cases hdue : s.due t = true
    · have hut : u ≠ t := fun hut => by simp [State.restore, hdue, hut] at hu
      exact ⟨hut, by simpa [State.restore, hdue, hut] using hu⟩
    · have hu' : s.expects u r = some v := by simpa [State.restore, hdue] using hu
      refine ⟨fun hut => hdue ?_, hu'⟩
      subst hut
      exact ((h.held u r v hu').goesOn c hcur).2
  obtain ⟨hut, hexpects⟩ := hold
  have hheld := (h.held u r v hexpects).sched hstep (by simp) fun d hd => by
    cases hd
    rw [hphase]
    simpa using hut.symm
  exact hheld.bank rfl rfl (fun hr d => restore_regs hr) rfl id .inl (by simp [State.restore, hut])

theorem Kept.sched {s' : State} (h : Kept s) {e : Sched.Event} {status : Nat}
    (hstep : step s (.sched e status) = some s') : Kept s' := by
  obtain ⟨sched, hsched, rfl⟩ := Option.map_eq_some_iff.mp hstep
  obtain ⟨hkept, hsame, hcount, -⟩ := h.before e
  have hready : ∀ t c ready, e.mapReady s.isReady = .schedule c ready ∨
      e.mapReady s.isReady = .lookAgain c ready → ready t = true → (s.before e).suspendCount t = 0 := by
    intro t c ready he htrue
    obtain ⟨asked, rfl⟩ := Sched.mapReady_looks he
    have hzero : s.suspendCount t = 0 ∧ asked t = true := by simpa [State.isReady] using htrue
    rw [hcount]
    exact hzero.1
  -- the held values are those of threads that no cpu has, but for one about to be restored
  have hmid : (∀ c, e ≠ .resume c) → Kept { s.before e with sched := sched } := by
    intro hne
    refine ⟨h.placed.step hsched, fun t r v ht => ?_⟩
    refine (hkept.held t r v ht).sched (hsame ▸ hsched) (hready t) fun c hc => ?_
    exact absurd (Sched.mapReady_resume hc) (hne c)
  cases e with
  | schedule c ready => exact (hmid (by simp)).taken c status
  | lookAgain c ready => exact (hmid (by simp)).taken c status
  | resume c =>
    have hstepped := Sched.stepped_of_step hsched
    cases hstepped with
    | resume hc hp =>
      have hkept' := h.resume hsched hp
      simpa [State.after, State.before, Sched.State.setPhase] using hkept'
  | register t => exact hmid (by simp)
  | enqueue t => exact hmid (by simp)
  | finish c => exact hmid (by simp)
  | terminate c id => exact hmid (by simp)
  | terminateRemove c => exact hmid (by simp)
  | runReturns c => exact hmid (by simp)
  | release c => exact hmid (by simp)
  | endThread c => exact hmid (by simp)
  | endRemove c => exact hmid (by simp)
  | preemptForWaiting mayRun => exact hmid (by simp)
  | stop => exact hmid (by simp)

variable {self : ThreadId}

theorem Held.ne_caller {v : Nat} (h : Held s t r v)
    (hplaced : Placed s.sched) (hself : s.sched.caller c = some self) : t ≠ self := by
  rintro rfl
  have hphase := Sched.caller_eq_some hself
  have hcur : s.sched.current c = some t := (hplaced.held c).trans (by rw [hphase]; rfl)
  have hresuming := (h.goesOn c hcur).1
  rw [hphase] at hresuming
  cases hresuming

theorem Banked.ne_caller {flags : Nat} (h : Banked s t flags)
    (hplaced : Placed s.sched) (hself : s.sched.caller c = some self) : t ≠ self := by
  rintro rfl
  exact h.away c ((hplaced.held c).trans (by rw [Sched.caller_eq_some hself]; rfl))

@[simp] theorem CpuReg.shown_shown (r : CpuReg) (v : Nat) : r.shown (r.shown v) = r.shown v := by
  unfold CpuReg.shown
  split
  · exact Nat.mod_mod _ _
  · rfl

theorem banked_of_carried (h : r.carried = true) : r.banked = true := by
  cases r <;> first | rfl | cases h

theorem applyContext_of_unbanked (ctx : Ctx) (regs : RegFile) (hr : r.banked = false) :
    applyContext ctx regs r = regs r := by
  have hcarried : r.carried = false := Bool.eq_false_iff.mpr fun h => by
    rw [banked_of_carried h] at hr
    cases hr
  have hne : ∀ seg : CpuReg, seg.banked = true → r ≠ seg := by
    rintro seg hseg rfl
    exact Bool.false_ne_true (hr.symm.trans hseg)
  unfold applyContext applied
  rw [hcarried, Bool.and_false, if_neg Bool.false_ne_true, if_neg (hne (.reg .cs) rfl),
    if_neg (hne (.reg .ss) rfl), ite_self]
  rfl

variable {ctx : Ctx}

theorem applyContext_of_not_within (regs : RegFile) (hr : r.within ctx.contextFlags = false) :
    applyContext ctx regs r = regs r := by
  unfold applyContext applied
  rw [hr, Bool.false_and, if_neg Bool.false_ne_true]
  split
  · rename_i hcontrol
    have hpart : ∀ seg : CpuReg, seg.part = some contextControl → r ≠ seg := by
      rintro seg hseg rfl
      rw [CpuReg.within, hseg, Option.any_some] at hr
      rw [hr] at hcontrol
      cases hcontrol
    rw [if_neg (hpart (.reg .cs) rfl), if_neg (hpart (.reg .ss) rfl)]
    rfl
  · rfl

theorem applyContext_carried (regs : RegFile) (hr : r.within ctx.contextFlags = true)
    (hcarried : r.carried = true) : applyContext ctx regs r = given ctx r := by
  simp [applyContext, applied, hr, hcarried]

theorem given_of_not_carried (ctx : Ctx) (hr : r.carried = false) : given ctx r = ctx.reg r := by
  refine if_neg ?_
  rintro rfl
  cases hr

def parts : List Nat := [contextControl, contextInteger, contextSegments, contextFloat, contextDebug]

theorem part_mem {part : Nat} (h : r.part = some part) : part ∈ parts := by
  cases r with
  | reg r =>
    cases r with
    | gp i =>
      obtain rfl := Option.some.inj h
      by_cases hi : i = 4 ∨ i = 5
      · rw [if_pos hi]
        decide
      · rw [if_neg hi]
        decide
    | gs => cases h
    | _ =>
      obtain rfl := Option.some.inj h
      decide
  | _ =>
    obtain rfl := Option.some.inj h
    decide

theorem hasFlags_of_filled {wanted part : Nat} (hpart : part ∈ parts) (h : hasFlags (filled wanted) part = true) :
    hasFlags wanted part = true := by
  have hall : ∀ integer control segments float : Bool,
      let filled := [(contextInteger, integer), (contextControl, control), (contextSegments, segments),
        (contextFloat, float)].foldl (fun filled p => if p.2 then filled ||| p.1 else filled) contextAmd64
      (hasFlags filled contextInteger = true → integer = true) ∧
        (hasFlags filled contextControl = true → control = true) ∧
        (hasFlags filled contextSegments = true → segments = true) ∧
        (hasFlags filled contextFloat = true → float = true) ∧ hasFlags filled contextDebug = false := by decide
  obtain ⟨hinteger, hcontrol, hsegments, hfloat, hdebug⟩ := hall (hasFlags wanted contextInteger)
    (hasFlags wanted contextControl) (hasFlags wanted contextSegments) (hasFlags wanted contextFloat)
  simp only [parts, List.mem_cons, List.not_mem_nil, or_false] at hpart
  rcases hpart with rfl | rfl | rfl | rfl | rfl
  · exact hcontrol h
  · exact hinteger h
  · exact hsegments h
  · exact hfloat h
  · exact absurd (hdebug.symm.trans h) Bool.false_ne_true

theorem within_of_filled {wanted : Nat} (h : r.within (filled wanted) = true) :
    r.within wanted = true := by
  unfold CpuReg.within at h ⊢
  cases hpart : r.part with
  | none =>
    rw [hpart] at h
    cases h
  | some part =>
    rw [hpart] at h
    exact hasFlags_of_filled (part_mem hpart) h

/-- What a context of a thread is written with is what its bank has then, or what it had. -/
theorem bank_of_given (hwithin : r.within ctx.contextFlags = true)
    (hcarried : r.carried = false) (hgiven : Given s t ctx r) :
    (r.banked = true → applyContext ctx (s.bank t) r = ctx.reg r) ∧
      (r = .gsSel → s.user t = false → ctx.reg r = kernelDs) ∧ (r.banked = false → ∀ c, s.regs c r = ctx.reg r) := by
  unfold Given at hgiven
  split at hgiven
  · rename_i hseg
    obtain ⟨hcs, hr⟩ := hseg
    have hcontrol : (hasFlags ctx.contextFlags contextControl && ctx.reg (.reg .cs) == userCs) = true := by
      rw [hcs, beq_self_eq_true, Bool.and_true]
      rcases hr with rfl | rfl <;> exact hwithin
    unfold applyContext applied
    rw [hcarried, Bool.and_false, if_neg Bool.false_ne_true, if_pos hcontrol]
    rcases hr with rfl | rfl
    · exact ⟨fun _ => hcs.symm, fun hr => (by cases hr), fun hr => (by cases hr)⟩
    · exact ⟨fun _ => (hgiven rfl).symm, fun hr => (by cases hr), fun hr => (by cases hr)⟩
  · rename_i hseg
    have hkept : applyContext ctx (s.bank t) r = s.bank t r := by
      unfold applyContext applied
      rw [hcarried, Bool.and_false, if_neg Bool.false_ne_true]
      split
      · rename_i hcontrol
        have hcs : ctx.reg (.reg .cs) = userCs := eq_of_beq (Bool.and_eq_true_iff.mp hcontrol).2
        rw [if_neg fun hr => hseg ⟨hcs, .inl hr⟩, if_neg fun hr => hseg ⟨hcs, .inr hr⟩]
        rfl
      · rfl
    unfold Resident at hgiven
    refine ⟨fun hr => ?_, fun hr hu => ?_, fun hr => ?_⟩
    · rw [if_pos hr] at hgiven
      exact hkept.trans hgiven.1
    · rw [if_pos (by rw [hr]; rfl)] at hgiven
      exact hgiven.2 hr hu
    · rwa [if_neg (by rw [hr]; exact Bool.false_ne_true)] at hgiven

/-- A field of a suspended thread's context is held for it where the thread's bank, or every cpu, has it. -/
theorem Banked.held {flags v : Nat} {bank : ThreadId → RegFile} {expects : ThreadId → CpuReg → Option Nat}
    (h : Banked s t flags) (hwithin : r.within flags = true) (hcount : 0 < s.suspendCount t)
    (hvalue : r.banked = true → r.shown (bank t r) = r.shown v)
    (hsegment : r = .gsSel → s.user t = false → v = kernelDs) (hregs : r.banked = false → ∀ c, s.regs c r = v) :
    Held { s with bank, expects } t r v where
  banked := hvalue
  segment := hsegment
  unbanked := hregs
  notGs := by
    rintro rfl
    cases hwithin
  enqueued := h.enqueued
  notWaiting hr := h.notWaiting (hr ▸ hwithin)
  suspended := .inl hcount
  goesOn c hc := absurd hc (h.away c)

theorem Banked.held_carried {flags v : Nat} {bank : ThreadId → RegFile} {expects : ThreadId → CpuReg → Option Nat}
    (h : Banked s t flags) (hwithin : r.within flags = true) (hcount : 0 < s.suspendCount t)
    (hcarried : r.carried = true) (hvalue : r.shown (bank t r) = r.shown v) :
    Held { s with bank, expects } t r v := by
  refine h.held hwithin hcount (fun _ => hvalue) ?_ fun hr => ?_
  · rintro rfl
    cases hcarried
  · rw [banked_of_carried hcarried] at hr
    cases hr

theorem Kept.getContext (h : Kept s) (hself : s.sched.caller c = some self)
    (hok : 0 < s.suspendCount t → Banked s t ctx.contextFlags ∧ ConstantsTrue s t ctx) :
    Kept { s with
      expects := Function.update s.expects t fun r =>
        if 0 < s.suspendCount t ∧ r.within (s.getContext c self t ctx).contextFlags then
          some ((s.getContext c self t ctx).reg r)
        else s.expects t r } := by
  refine ⟨h.placed, fun u r v hu => ?_⟩
  have hold : ∀ expects, s.expects u r = some v → Held { s with expects := expects } u r v :=
    fun _ hold => (h.held u r v hold).bank rfl rfl (fun _ _ => rfl) rfl id .inl fun hd => hd
  by_cases hut : u = t
  · subst hut
    simp only [Function.update_self] at hu
    split at hu
    · rename_i hcond
      obtain ⟨hbanked, hconstants⟩ := hok hcond.1
      have hfilled : r.within (filled ctx.contextFlags) = true := hcond.2
      have hwithin := within_of_filled hfilled
      have hview : s.view c self u = s.bank u := by rw [State.view, if_neg (hbanked.ne_caller h.placed hself)]
      have hreg : (s.getContext c self u ctx).reg r =
          if r.carried then r.shown (s.bank u r) else constantOf (s.user u) (ctx.reg r) r := by
        rw [State.getContext, hview]
        exact if_pos hwithin
      rw [hreg] at hu
      by_cases hcarried : r.carried = true
      · rw [if_pos hcarried] at hu
        obtain rfl := Option.some.inj hu
        exact hbanked.held_carried hwithin hcond.1 hcarried (by simp)
      · rw [if_neg hcarried] at hu
        obtain rfl := Option.some.inj hu
        have hresident := hconstants r hfilled (Bool.eq_false_iff.mpr hcarried)
        unfold Resident at hresident
        refine hbanked.held hwithin hcond.1 (fun hr => ?_) (fun hr hu => ?_) fun hr => ?_
        · rw [if_pos hr] at hresident
          exact congrArg r.shown hresident.1
        · rw [if_pos (by rw [hr]; rfl)] at hresident
          exact hresident.2 hr hu
        · rw [if_neg (by rw [hr]; exact Bool.false_ne_true)] at hresident
          exact hresident
    · exact hold _ hu
  · exact hold _ (by simpa [hut] using hu)

/-- A thread that sets its own context is not suspended, and nothing is held for it. -/
theorem Kept.setOwnContext (h : Kept s) (hself : s.sched.caller c = some t)
    (hok : 0 < s.suspendCount t → Banked s t ctx.contextFlags) :
    Kept { s with
      regs := Function.update s.regs c (applyContext ctx (s.regs c))
      expects := Function.update s.expects t fun r =>
        if r.within ctx.contextFlags then if 0 < s.suspendCount t then some (given ctx r) else none
        else s.expects t r } := by
  refine ⟨h.placed, fun u r v hu => ?_⟩
  have hut : u ≠ t := by
    rintro rfl
    simp only [Function.update_self] at hu
    split at hu
    · split at hu
      · exact (hok ‹_›).ne_caller h.placed hself rfl
      · cases hu
    · exact (h.held u r v hu).ne_caller h.placed hself rfl
  refine (h.held u r v (by simpa [hut] using hu)).bank rfl rfl (fun hr d => ?_) rfl id .inl fun hd => hd
  by_cases hdc : d = c
  · subst hdc
    exact (congrFun (Function.update_self ..) r).trans (applyContext_of_unbanked ctx _ hr)
  · exact congrFun (Function.update_of_ne hdc ..) r

theorem Kept.setContext (h : Kept s)
    (hself : s.sched.caller c = some self) (hok : 0 < s.suspendCount t → Banked s t ctx.contextFlags ∧
      ∀ r, r.within ctx.contextFlags = true → r.carried = false → Given s t ctx r) :
    Kept { s.setView c self t (applyContext ctx (s.view c self t)) with
      expects := Function.update s.expects t fun r =>
        if r.within ctx.contextFlags then if 0 < s.suspendCount t then some (given ctx r) else none
        else s.expects t r } := by
  by_cases hts : t = self
  · subst hts
    rw [State.setView, if_pos rfl, State.view, if_pos rfl]
    exact h.setOwnContext hself fun hcount => (hok hcount).1
  · rw [State.setView, if_neg hts, State.view, if_neg hts]
    refine ⟨h.placed, fun u r v hu => ?_⟩
    by_cases hut : u = t
    · subst hut
      simp only [Function.update_self] at hu
      split at hu
      · rename_i hwithin
        split at hu
        · rename_i hcount
          obtain rfl := Option.some.inj hu
          obtain ⟨hbanked, hgivenAll⟩ := hok hcount
          have hself : Function.update s.bank u (applyContext ctx (s.bank u)) u r = applyContext ctx (s.bank u) r :=
            congrFun (Function.update_self ..) r
          by_cases hcarried : r.carried = true
          · exact hbanked.held_carried hwithin hcount hcarried
              (congrArg r.shown (hself.trans (applyContext_carried _ hwithin hcarried)))
          · have hcarried := Bool.eq_false_iff.mpr hcarried
            obtain ⟨hvalue, hsegment, hregs⟩ := bank_of_given hwithin hcarried (hgivenAll r hwithin hcarried)
            rw [given_of_not_carried ctx hcarried]
            exact hbanked.held hwithin hcount (fun hr => congrArg r.shown (hself.trans (hvalue hr))) hsegment hregs
        · cases hu
      · rename_i hwithin
        have hkept : applyContext ctx (s.bank u) r = s.bank u r :=
          applyContext_of_not_within _ (Bool.eq_false_iff.mpr hwithin)
        exact (h.held u r v hu).bank rfl ((congrFun (Function.update_self ..) r).trans hkept) (fun _ _ => rfl) rfl id
          .inl fun hd => hd
    · exact (h.held u r v (by simpa [hut] using hu)).bank rfl (by simp [hut]) (fun _ _ => rfl) rfl id .inl
        fun hd => hd

theorem Kept.step {s' : State} {e : Event} (h : Kept s) (hok : ContextOk s e)
    (hstep : step s e = some s') : Kept s' := by
  cases e with
  | prepare t regs =>
    simp only [Context.step] at hstep
    split at hstep
    · cases hstep
    · rename_i hnew
      cases hstep
      refine ⟨h.placed, fun u r v hu => ?_⟩
      have hheld := h.held u r v hu
      have hut : u ≠ t := fun hut => hnew (hut ▸ hheld.enqueued)
      exact hheld.bank rfl (by simp [hut]) (fun _ _ => rfl) rfl id .inl fun hd => hd
  | sched e status => exact h.sched hstep
  | guest c regs =>
    obtain ⟨self, hself, rfl⟩ := Option.map_eq_some_iff.mp hstep
    refine ⟨h.placed, fun u r v hu => (h.held u r v hu).bank rfl rfl (fun hr d => ?_) rfl id .inl fun hd => hd⟩
    by_cases hdc : d = c
    · subst hdc
      rcases hok r hr with hsame | hnone
      · exact (congrFun (Function.update_self ..) r).trans hsame
      · rw [hnone u] at hu
        cases hu
    · exact congrFun (Function.update_of_ne hdc ..) r
  | beginWait c =>
    obtain ⟨self, hself, rfl⟩ := Option.map_eq_some_iff.mp hstep
    refine ⟨h.placed, fun u r v hu => ?_⟩
    have hheld := h.held u r v hu
    have hne := hheld.ne_caller h.placed hself
    exact hheld.bank rfl rfl (fun _ _ => rfl) rfl (by simp [hne]) .inl fun hd => hd
  | suspendThread c t =>
    obtain ⟨self, hself, rfl⟩ := Option.map_eq_some_iff.mp hstep
    have hlt : s.suspendCount t + 1 < 2 ^ 32 := hok
    refine ⟨h.placed, fun u r v hu => (h.held u r v hu).bank rfl rfl (fun _ _ => rfl) rfl id ?_ fun hd => hd⟩
    intro hpos
    by_cases hut : u = t
    · subst hut
      refine .inl ?_
      show 0 < Function.update s.suspendCount u ((s.suspendCount u + 1) % 2 ^ 32) u
      rw [Function.update_self, Nat.mod_eq_of_lt hlt]
      exact Nat.succ_pos _
    · exact .inl (by simpa [hut] using hpos)
  | resumeThread c t =>
    obtain ⟨self, hself, rfl⟩ := Option.map_eq_some_iff.mp hstep
    refine ⟨h.placed, fun u r v hu => (h.held u r v hu).bank rfl rfl (fun _ _ => rfl) rfl id ?_ ?_⟩
    · intro hpos
      by_cases hut : u = t
      · subst hut
        by_cases hone : s.suspendCount u = 1
        · exact .inr (by simp [hone])
        · exact .inl (by simp only [Function.update_self]; omega)
      · exact .inl (by simpa [hut] using hpos)
    · intro hd
      show (if s.suspendCount t = 1 then Function.update s.due t true else s.due) u = true
      split
      · exact Sched.update_true_of hd
      · exact hd
  | getContextThread c t ctx =>
    obtain ⟨self, hself, rfl⟩ := Option.map_eq_some_iff.mp hstep
    exact h.getContext hself hok
  | setContextThread c t ctx =>
    obtain ⟨self, hself, rfl⟩ := Option.map_eq_some_iff.mp hstep
    exact h.setContext hself hok

theorem kept_start (cpus : List CpuId) : Kept (start cpus) :=
  ⟨Sched.placed_start cpus, by simp [start]⟩

theorem Kept.stable (h : Kept s) : Stable s := by
  intro c t status s' hphase hdue hstep r v hexpects
  obtain ⟨sched, hsched, rfl⟩ := Option.map_eq_some_iff.mp hstep
  have hheld := h.held t r v hexpects
  cases Sched.stepped_of_step hsched with
  | resume hc hp =>
    have ht : s.sched.phase c = .resuming _ := hp
    rw [hphase] at ht
    cases ht
    simp only [State.after, State.before, Sched.State.setPhase, State.restore, Function.update_self]
    unfold State.restored
    by_cases hbanked : r.banked = true
    · rw [hbanked, Bool.not_true, if_neg Bool.false_ne_true, if_neg hheld.notGs]
      split_ifs with huser hsel
      · exact hheld.banked hbanked
      · rw [hheld.segment hsel (Bool.eq_false_iff.mpr huser)]
      · exact hheld.banked hbanked
    · have hnot := Bool.eq_false_iff.mpr hbanked
      rw [hnot, Bool.not_false, if_pos rfl, hheld.unbanked hnot c]

/-- **Contexts are stable** in every run in which those of suspended threads are read and written in the
bank. -/
theorem stable_of_contextOk {cpus : List CpuId} {events : List Event} {s : State}
    (hrun : Run.Steps step ContextOk (start cpus) events s) : Stable s :=
  (hrun.invariant (fun _ _ _ h hok hstep => h.step hok hstep) (kept_start cpus)).stable

/-- The threads whose contexts are read and written are on the queue, and only the integer registers are named. -/
def contextsQueued (s : State) : Event → Bool
  | .getContextThread _ t ctx => s.sched.queue.contains t && !s.waiting t && ctx.contextFlags == contextInteger
  | .setContextThread _ t ctx => s.sched.queue.contains t && !s.waiting t && ctx.contextFlags == contextInteger
  | .suspendThread _ t => decide (s.suspendCount t + 1 < 2 ^ 32)
  | .guest _ _ => false
  | _ => true

theorem carried_of_within_integer (h : r.within contextInteger = true) : r.carried = true := by
  have hother : ∀ part ∈ parts, part ≠ contextInteger → hasFlags contextInteger part = false := by decide
  cases r with
  | reg r =>
    cases r with
    | cs | ss => exact absurd ((hother contextControl (by decide) (by decide)).symm.trans h) Bool.false_ne_true
    | gs => cases h
    | _ => rfl
  | gsSel | ds | es | fs =>
    exact absurd ((hother contextSegments (by decide) (by decide)).symm.trans h) Bool.false_ne_true
  | mxcsr | fpcw | x87 =>
    exact absurd ((hother contextFloat (by decide) (by decide)).symm.trans h) Bool.false_ne_true
  | dr => exact absurd ((hother contextDebug (by decide) (by decide)).symm.trans h) Bool.false_ne_true

theorem contextOk_of_contextsQueued {e : Event} (h : Placed s.sched)
    (hcheck : contextsQueued s e = true) : ContextOk s e := by
  have hbanked : ∀ t flags, (s.sched.queue.contains t && !s.waiting t && flags == contextInteger) = true →
      Banked s t flags ∧ flags = contextInteger := by
    intro t flags ht
    obtain ⟨⟨hq, hw⟩, hflags⟩ : (t ∈ s.sched.queue ∧ s.waiting t = false) ∧ flags = contextInteger := by
      simpa using ht
    exact ⟨⟨h.queuedKnown t hq, fun c => h.queuedFree c t hq, fun _ => hw⟩, hflags⟩
  have hcarried : ∀ {r : CpuReg} {flags}, flags = contextInteger → r.within flags = true → r.carried ≠ false := by
    rintro r _ rfl hr hnot
    exact absurd (carried_of_within_integer hr) (Bool.eq_false_iff.mp hnot)
  cases e with
  | getContextThread c t ctx =>
    obtain ⟨hin, hflags⟩ := hbanked t _ hcheck
    exact fun _ => ⟨hin, fun r hr hnot => absurd hnot (hcarried hflags (within_of_filled hr))⟩
  | setContextThread c t ctx =>
    obtain ⟨hin, hflags⟩ := hbanked t _ hcheck
    exact fun _ => ⟨hin, fun r hr hnot => absurd hnot (hcarried hflags hr)⟩
  | suspendThread c t =>
    show s.suspendCount t + 1 < 2 ^ 32
    simpa [contextsQueued] using hcheck
  | guest c regs => cases hcheck
  | _ => trivial

theorem after_sched (s : State) (status : Nat) (e : Sched.Event) : (s.after status e).sched = s.sched := by
  have htaken : ∀ c, (s.taken c status).sched = s.sched := by
    intro c
    unfold State.taken
    split
    · unfold State.finishWait
      split <;> rfl
    · rfl
  cases e with
  | schedule c ready => exact htaken c
  | lookAgain c ready => exact htaken c
  | resume c =>
    show (match s.sched.phase c with | .running t _ => s.restore c t | _ => s).sched = s.sched
    split <;> rfl
  | _ => rfl

theorem placed_step {s' : State} {e : Event} (h : Placed s.sched) (hstep : step s e = some s') :
    Placed s'.sched := by
  cases e with
  | prepare t regs =>
    simp only [step, Option.ite_none_left_eq_some, Option.some.injEq] at hstep
    rw [← hstep.2]
    exact h
  | sched e status =>
    obtain ⟨sched, hsched, rfl⟩ := Option.map_eq_some_iff.mp hstep
    rw [after_sched]
    exact h.step hsched
  | setContextThread c t ctx =>
    obtain ⟨self, -, rfl⟩ := Option.map_eq_some_iff.mp hstep
    by_cases hts : t = self
    · rw [State.setView, if_pos hts]
      exact h
    · rw [State.setView, if_neg hts]
      exact h
  | _ =>
    obtain ⟨self, -, rfl⟩ := Option.map_eq_some_iff.mp hstep
    exact h

/-- Thread `7` suspends thread `8`, which is queued, reads its context, writes it, and resumes it. -/
def readsQueued : List Event :=
  [.prepare 8 fun _ => 3, .sched (.enqueue 7) 0, .sched (.enqueue 8) 0, .sched (.schedule 0 fun _ => true) 0,
    .sched (.resume 0) 0, .suspendThread 0 8, .getContextThread 0 8 integerContext,
    .setContextThread 0 8 { integerContext with reg := fun _ => 9 }, .resumeThread 0 8,
    .sched (.schedule 1 fun _ => true) 0]

theorem stable_readsQueued : ∃ s, Run.Steps step ContextOk (start [0, 1]) readsQueued s ∧
    s.sched.phase 1 = .resuming 8 ∧ s.due 8 = true ∧ s.expects 8 rax = some 9 ∧ Stable s := by
  have hexec : (Run.exec step contextsQueued (start [0, 1]) readsQueued).map
      (fun s => (s.sched.phase 1, s.due 8, s.expects 8 rax)) = some (.resuming 8, true, some 9) := by
    decide +kernel
  obtain ⟨s, hs, hfacts⟩ := Option.map_eq_some_iff.mp hexec
  obtain ⟨hphase, hdue, hexpects⟩ : s.sched.phase 1 = .resuming 8 ∧ s.due 8 = true ∧
      s.expects 8 rax = some 9 := by simpa using hfacts
  have hrun : Run.Steps step ContextOk (start [0, 1]) readsQueued s :=
    Run.Steps.of_exec_invariant (P := fun s => Placed s.sched) (fun _ _ _ h _ hstep => placed_step h hstep)
      (fun _ _ h hcheck => contextOk_of_contextsQueued h hcheck) (Sched.placed_start [0, 1]) hs
  exact ⟨s, hrun, hphase, hdue, hexpects, stable_of_contextOk hrun⟩

end Kernemul.Context
