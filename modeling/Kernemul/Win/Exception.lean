import Kernemul.Win.Unwind.Frames

/-!
# Kernel exceptions

`win_exception::handle` for a fault in the kernel: the frames are walked in a context of their own, each
frame's personality routine is asked, and when one of them accepts, the cpu resumes at its target. What
the guest's routines do is a parameter (`Guest.call`). The structures the guest reads lie below the
stack pointer of the fault, so that the frames keep what they saved.
-/

namespace Kernemul.Unwind.X64

open Stack

def continueExecution : BitVec 32 := 0

def continueSearch : BitVec 32 := 1

def executeHandler : BitVec 32 := 2

theorem continueExecution_ne : continueExecution ≠ executeHandler := by decide

theorem continueSearch_ne : continueSearch ≠ executeHandler := by decide

structure Cpu where
  pc : Word
  gp : Nat → Word

/-- The modules of the process and the code of the guest. `call routine args sp` runs a routine until it
returns: what it answers in eax, and the memory it leaves. A call of `__C_specific_handler` is
redirected. -/
structure Guest where
  modules : List Module
  call : Word → List Word → Word → Mem → Mem × BitVec 32
  isCSpecificHandler : Word → Bool
  trampoline : Word
  /-- The bytes of the `_EXCEPTION_RECORD`; its flags are zero. -/
  record : Nat → BitVec 8
  /-- The bytes of the captured `_CONTEXT`. -/
  context : Nat → BitVec 8

def Guest.findModuleByAddr (g : Guest) (a : Word) : Option Module :=
  g.modules.find? fun mod => mod.containsAddr a

/-! ## Calling into the guest -/

/-- `addr & ~0xF`. -/
def alignDown (a : Word) : Word := a &&& ~~~(0xF#64)

/-- `scratch_base`, with the red zone of `0x100`. -/
def scratchBase (sp : Word) (size : Nat) : Word := alignDown (sp - 0x100#64 - BitVec.ofNat 64 size)

/-- `guest_caller::call`: `routine` runs with its return address pushed below the scratch area. The
registers of the cpu are those of before when it has returned. -/
def Guest.callBelow (g : Guest) (sp : Word) (scratch : Nat) (mem : Mem)
    (routine : Word → Mem → Mem × BitVec 32) : Mem × BitVec 32 :=
  let sp := scratchBase sp scratch - 8#64
  routine sp (write64 mem sp g.trampoline)

/-! ## The scope table -/

structure ScopeSearch where
  imageBase : Word
  handlerData : Word
  controlPc : Word
  establisherFrame : Word
  exceptionPointers : Word
  scratch : Nat
  firstScope : Nat

structure HandlerResult where
  disposition : BitVec 32
  targetIp : Word := 0
  establisherFrame : Word := 0

/-- The scopes from `i` on, `left` of them. -/
def Guest.searchScopes (g : Guest) (sp : Word) (s : ScopeSearch) :
    Nat → Nat → Mem → Mem × HandlerResult
  | 0, _, mem => (mem, { disposition := continueSearch })
  | left + 1, i, mem =>
    let scope := s.handlerData + 4#64 + BitVec.ofNat 64 (i * 16)
    let pcRva := (s.controlPc - s.imageBase).setWidth 32
    let handlerAddress := read32 mem (scope + 8#64)
    let jumpTarget := read32 mem (scope + 12#64)
    let found : HandlerResult :=
      ⟨executeHandler, s.imageBase + jumpTarget.setWidth 64, s.establisherFrame⟩
    if pcRva < read32 mem scope ∨ read32 mem (scope + 4#64) ≤ pcRva then
      g.searchScopes sp s left (i + 1) mem
    else if jumpTarget = 0 then g.searchScopes sp s left (i + 1) mem
    else if handlerAddress = 1 then (mem, found)
    else
      let filter := s.imageBase + handlerAddress.setWidth 64
      let (mem, verdict) := g.callBelow sp s.scratch mem
        (g.call filter [s.exceptionPointers, s.establisherFrame])
      if verdict.slt 0 then (mem, { disposition := continueExecution })
      else if verdict = 0 then g.searchScopes sp s left (i + 1) mem
      else (mem, found)

def Guest.searchScopeTable (g : Guest) (sp : Word) (s : ScopeSearch) (mem : Mem) :
    Mem × HandlerResult :=
  let count := (read32 mem s.handlerData).toNat
  g.searchScopes sp s (count - s.firstScope) s.firstScope mem

/-! ## Dispatching -/

def recordSize : Nat := 0x98

def contextSize : Nat := 0x4D0

/-- The scratch area of `build_dispatch_frame`: the structures, and room to align them. -/
def dispatchScratch : Nat := recordSize + contextSize + 0x50 + 0x40

/-- The redirected `__C_specific_handler`, outside of an unwinding pass. -/
def Guest.cSpecificHandler (g : Guest) (record frame context dispatcher : Word) (sp : Word)
    (mem : Mem) : Mem × BitVec 32 :=
  if record = 0 ∨ dispatcher = 0 then (mem, continueSearch)
  else
    let pointers := scratchBase sp 16
    let search : ScopeSearch :=
      { imageBase := read64 mem (dispatcher + 8#64)
        handlerData := read64 mem (dispatcher + 56#64)
        controlPc := read64 mem dispatcher
        establisherFrame := frame
        exceptionPointers := pointers
        scratch := 16
        firstScope := (read32 mem (dispatcher + 72#64)).toNat }
    let mem := write64 (write64 mem pointers record) (pointers + 8#64) context
    let (mem, found) := g.searchScopeTable sp search mem
    if found.disposition = executeHandler then
      (write64 (write64 mem (dispatcher + 32#64) found.targetIp) (dispatcher + 24#64)
        found.establisherFrame, executeHandler)
    else (mem, found.disposition)

structure Answer where
  disposition : BitVec 32
  targetIp : Word
  establisherFrame : Word

/-- Building the dispatch frame of a fault at `sp` and asking the frame's personality routine. -/
def Guest.ask (g : Guest) (sp controlPc : Word) (mod : Module) (result : UnwindResult) (mem : Mem) :
    Mem × Answer :=
  let record := scratchBase sp dispatchScratch
  let context := alignDown (record + BitVec.ofNat 64 recordSize + 0xF#64)
  let dispatcher := alignDown (context + BitVec.ofNat 64 contextSize + 0xF#64)
  let mem := writeBytes mem record recordSize g.record
  let mem := writeBytes mem context contextSize g.context
  let mem := writeWords mem dispatcher [controlPc, mod.addr, result.functionEntry,
    result.establisherFrame, 0, context, result.handler, result.handlerData, 0, 0]
  let (mem, disposition) := g.callBelow sp dispatchScratch mem
    (if g.isCSpecificHandler result.handler then
      g.cSpecificHandler record result.establisherFrame context dispatcher
    else g.call result.handler [record, result.establisherFrame, context, dispatcher])
  (mem, ⟨disposition, read64 mem (dispatcher + 32#64), read64 mem (dispatcher + 24#64)⟩)

/-! ## The walk -/

/-- The first bytes of `__GSHandlerCheck`. -/
def gsStub : List (BitVec 8) := [0x48, 0x83, 0xEC, 0x28, 0x4D, 0x8B, 0x41, 0x38, 0x48, 0x8B, 0xCA, 0x49,
  0x8B, 0xD1, 0xE8]

def isGsHandler (mem : Mem) (handler : Word) : Bool :=
  decide (handler ≠ 0) &&
    gsStub.zipIdx.all fun (b, i) => decide (mem (handler + BitVec.ofNat 64 i) = b)

/-- How a fault was handled, at which frame, and how the cpu goes on. -/
inductive Outcome
  | accepted (depth : Nat) (cpu : Cpu) (mem : Mem)
  | continued (depth : Nat) (cpu : Cpu) (mem : Mem)
  | unclaimed (mem : Mem)

def Outcome.accepted? : Outcome → Option (Nat × Cpu)
  | accepted depth cpu _ => some (depth, cpu)
  | _ => none

theorem Outcome.accepted?_eq_some {o : Outcome} {depth : Nat} {cpu : Cpu}
    (h : o.accepted? = some (depth, cpu)) : ∃ mem, o = .accepted depth cpu mem := by
  cases o with
  | accepted depth cpu mem =>
    cases h
    exact ⟨mem, rfl⟩
  | continued _ _ _ => cases h
  | unclaimed _ => cases h

/-- The frames from `depth` on, `left` of them at most. A `/GS` check lets the search go on whether it
passes or not. -/
def Guest.walk (g : Guest) (fuel : Nat) (cpu : Cpu) :
    Nat → Nat → Mem → UnwindContext → Option Outcome
  | 0, _, mem, _ => some (.unclaimed mem)
  | left + 1, depth, mem, ctx =>
    let controlPc := if depth > 0 then ctx.pc - 1#64 else ctx.pc
    match g.findModuleByAddr controlPc with
    | none => some (.unclaimed mem)
    | some mod =>
      match unwindFrame fuel mem mod { ctx with pc := controlPc } with
      | none => none
      | some (false, _, _) => some (.unclaimed mem)
      | some (true, result, ctx) =>
        if result.handler = 0 ∨ isGsHandler mem result.handler = true then
          g.walk fuel cpu left (depth + 1) mem ctx
        else
          let (mem, answer) := g.ask (cpu.gp rsp) controlPc mod result mem
          if answer.disposition = executeHandler ∧ answer.targetIp ≠ 0 then
            some (.accepted depth
              { pc := answer.targetIp, gp := Function.update cpu.gp rsp answer.establisherFrame } mem)
          else if answer.disposition = continueExecution then some (.continued depth cpu mem)
          else g.walk fuel cpu left (depth + 1) mem ctx

/-- `win_exception::handle`, from where a fault in the kernel begins to be dispatched. -/
def Guest.handle (g : Guest) (fuel : Nat) (cpu : Cpu) (mem : Mem) : Option Outcome :=
  match g.findModuleByAddr cpu.pc with
  | none => some (.unclaimed mem)
  | some _ => g.walk fuel cpu 64 0 mem (contextFromVcpu cpu.gp cpu.pc)

/-! ## Where the guest's structures lie -/

theorem alignDown_below (a : Word) : Below a (alignDown a) 0 15 := by
  refine ⟨(a &&& 0xF#64).toNat, ?_, Nat.zero_le _, ?_⟩
  · rw [BitVec.ofNat_toNat, BitVec.setWidth_eq]
    exact eq_sub_of_add_eq (and_not_add_and a 0xF#64)
  · rw [BitVec.toNat_and]
    exact Nat.and_le_right

theorem scratchBase_below (sp : Word) (size : Nat) :
    Below sp (scratchBase sp size) (0x100 + size) (0x10F + size) := by
  have h : Below sp (sp - 0x100#64 - BitVec.ofNat 64 size) (0x100 + size) (0x100 + size) := by
    refine ⟨0x100 + size, ?_, le_refl _, le_refl _⟩
    rw [BitVec.ofNat_add, sub_sub]
  exact (h.trans (alignDown_below _)).mono (le_refl _) (by omega)

section
variable {g : Guest} {P : Word → Prop} {sp top : Word}

def Guest.Leaves (g : Guest) (P : Word → Prop) : Prop :=
  ∀ routine args sp mem, Keeps P mem (g.call routine args sp mem).1

theorem callBelow_keeps (hP : ∀ x, P x → Above top x) {hi : Nat} (hsp : Below top sp 0 hi)
    {scratch : Nat} (hsmall : hi + scratch < 2 ^ 61) {routine : Word → Mem → Mem × BitVec 32}
    (hroutine : ∀ sp' mem, Below top sp' 0 (hi + scratch + 0x200) → Keeps P mem (routine sp' mem).1)
    (mem : Mem) : Keeps P mem (g.callBelow sp scratch mem routine).1 := by
  have hbase := hsp.trans (scratchBase_below sp scratch)
  have hpush : Below top (scratchBase sp scratch - 8#64) 8 (hi + scratch + 0x200) := by
    have h8 : Below (scratchBase sp scratch) (scratchBase sp scratch - 8#64) 8 8 :=
      ⟨8, rfl, le_refl _, le_refl _⟩
    exact (hbase.trans h8).mono (by omega) (by omega)
  exact (Keeps.write64 hP (hpush.mono (le_refl _) (by omega)) mem g.trampoline).trans
    (hroutine _ _ (hpush.mono (by omega) (le_refl _)))

theorem searchScopes_keeps (hg : g.Leaves P) (hP : ∀ x, P x → Above top x) {hi : Nat}
    (hsp : Below top sp 0 hi) (s : ScopeSearch) (hsmall : hi + s.scratch < 2 ^ 61) (left i : Nat)
    (mem : Mem) : Keeps P mem (g.searchScopes sp s left i mem).1 := by
  induction left generalizing i mem with
  | zero => exact fun _ _ => rfl
  | succ left ih =>
    rw [Guest.searchScopes]
    dsimp only
    split_ifs with hrange hjump hconst hverdict hzero
    · exact ih _ _
    · exact ih _ _
    · exact fun _ _ => rfl
    · exact callBelow_keeps hP hsp hsmall (fun _ _ _ => hg _ _ _ _) mem
    · exact (callBelow_keeps hP hsp hsmall (fun _ _ _ => hg _ _ _ _) mem).trans (ih _ _)
    · exact callBelow_keeps hP hsp hsmall (fun _ _ _ => hg _ _ _ _) mem

theorem cSpecificHandler_keeps (hg : g.Leaves P) (hP : ∀ x, P x → Above top x) {hi : Nat}
    (hsp : Below top sp 0 hi) (hsmall : hi < 2 ^ 60) (record frame context dispatcher : Word)
    (hdispatcher : Below top dispatcher 80 (2 ^ 62)) (mem : Mem) :
    Keeps P mem (g.cSpecificHandler record frame context dispatcher sp mem).1 := by
  have hpointers := hsp.trans (scratchBase_below sp 16)
  have hlow : ∀ m : Mem, Keeps P m (write64 (write64 m (scratchBase sp 16) record)
      (scratchBase sp 16 + 8#64) context) := by
    intro m
    apply (Keeps.write64 hP (hpointers.mono (by omega) (by omega)) m record).trans
    exact Keeps.write64 hP ((hpointers.add (k := 8) (by omega)).mono (by omega) (by omega)) _ _
  have hanswer : ∀ (m : Mem) (v w : Word), Keeps P m
      (write64 (write64 m (dispatcher + 32#64) v) (dispatcher + 24#64) w) := by
    intro m v w
    apply (Keeps.write64 hP ((hdispatcher.add (k := 32) (by omega)).mono (by omega) (le_refl _))
      m v).trans
    exact Keeps.write64 hP ((hdispatcher.add (k := 24) (by omega)).mono (by omega) (le_refl _)) _ _
  unfold Guest.cSpecificHandler
  split_ifs with hnull
  · exact fun _ _ => rfl
  dsimp only
  split_ifs with hfound
  · apply (hlow mem).trans
    exact (searchScopes_keeps hg hP hsp _ (by dsimp only; omega) _ _ _).trans (hanswer _ _ _)
  · apply (hlow mem).trans
    exact searchScopes_keeps hg hP hsp _ (by dsimp only; omega) _ _ _

theorem ask_keeps (hg : g.Leaves P) (sp : Word) (hP : ∀ x, P x → Above sp x) (controlPc : Word)
    (mod : Module) (result : UnwindResult) (mem : Mem) :
    Keeps P mem (g.ask sp controlPc mod result mem).1 := by
  have hrecord := scratchBase_below sp dispatchScratch
  have hcontext := (((hrecord.add (k := recordSize) (by decide)).add (k := 0xF) (by decide)).trans
    (alignDown_below _))
  have hdispatcher := (((hcontext.add (k := contextSize) (by decide)).add (k := 0xF) (by decide)).trans
    (alignDown_below _))
  have h1 : Below sp _ recordSize (2 ^ 62) := hrecord.mono (by decide) (by decide)
  have h2 : Below sp _ contextSize (2 ^ 62) := hcontext.mono (by decide) (by decide)
  have h3 : Below sp _ 80 (2 ^ 62) := hdispatcher.mono (by decide) (by decide)
  unfold Guest.ask
  dsimp only
  refine Keeps.trans ?_ (callBelow_keeps hP (Below.refl sp) (by decide) ?_ _)
  · apply (Keeps.writeBytes hP h1 _ _).trans
    apply (Keeps.writeBytes hP h2 _ _).trans
    exact Keeps.writeWords hP h3 _
  · intro sp' mem hsp'
    split_ifs
    · exact cSpecificHandler_keeps hg hP hsp' (by decide) _ _ _ _ h3 _
    · exact hg _ _ _ _

end

/-! ## The frame an accepted answer names -/

/-- A personality routine of the guest that accepts leaves the frame it was asked about in the dispatcher
context. -/
def Guest.AnswersFrame (g : Guest) : Prop := ∀ routine record frame context dispatcher sp mem,
  (g.call routine [record, frame, context, dispatcher] sp mem).2 = executeHandler →
    read64 (g.call routine [record, frame, context, dispatcher] sp mem).1 (dispatcher + 24#64) = frame

theorem searchScopes_frame (g : Guest) (sp : Word) (s : ScopeSearch) (left i : Nat) (mem : Mem)
    (h : (g.searchScopes sp s left i mem).2.disposition = executeHandler) :
    (g.searchScopes sp s left i mem).2.establisherFrame = s.establisherFrame := by
  induction left generalizing i mem with
  | zero => exact absurd h continueSearch_ne
  | succ left ih =>
    rw [Guest.searchScopes] at h ⊢
    dsimp only at h ⊢
    split_ifs at h ⊢ with hrange hjump hconst hverdict hzero
    · exact ih _ _ h
    · exact ih _ _ h
    · rfl
    · exact absurd h continueExecution_ne
    · exact ih _ _ h
    · rfl

theorem ask_frame {g : Guest} (hg : g.AnswersFrame) (sp controlPc : Word) (mod : Module)
    (result : UnwindResult) (mem : Mem)
    (h : (g.ask sp controlPc mod result mem).2.disposition = executeHandler) :
    (g.ask sp controlPc mod result mem).2.establisherFrame = result.establisherFrame := by
  unfold Guest.ask Guest.callBelow at h ⊢
  dsimp only at h ⊢
  split_ifs at h ⊢ with hspecific
  · unfold Guest.cSpecificHandler at h ⊢
    split_ifs at h ⊢ with hnull
    · exact absurd h continueSearch_ne
    · dsimp only at h ⊢
      split_ifs at h ⊢ with hfound
      · dsimp only
        rw [read64_write64]
        exact searchScopes_frame _ _ _ _ _ _ hfound
      · exact absurd h hfound
  · exact hg _ _ _ _ _ _ _ h

end Kernemul.Unwind.X64
