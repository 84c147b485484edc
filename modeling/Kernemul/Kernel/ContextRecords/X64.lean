import Kernemul.Kernel.ContextRecords.RegView

/-!
# Contexts on x64 (`capture_context`, `apply_context` of `x86_win_emulator`)

`Rbp` goes with the control half. The selectors of a captured context are those of the kind of thread, and a context is
applied to the segments when it is one of user mode.
-/

namespace Kernemul.ContextRecords.X64

inductive Gp
  | rax | rcx | rdx | rbx | rsp | rbp | rsi | rdi
  | r8 | r9 | r10 | r11 | r12 | r13 | r14 | r15
  | rip | rflags
  deriving DecidableEq, Repr

inductive Seg
  | cs | ss | gs
  deriving DecidableEq, Repr

abbrev Regs := RegFile Gp (Fin 16) Seg
abbrev Cpu := Machine Gp (Fin 16) Seg

/-- The fields of a `_CONTEXT` that are filled in. -/
structure Context where
  contextFlags : BitVec 32
  mxCsr : BitVec 32
  segCs : BitVec 16
  segDs : BitVec 16
  segEs : BitVec 16
  segFs : BitVec 16
  segGs : BitVec 16
  segSs : BitVec 16
  eFlags : BitVec 32
  rax : BitVec 64
  rcx : BitVec 64
  rdx : BitVec 64
  rbx : BitVec 64
  rsp : BitVec 64
  rbp : BitVec 64
  rsi : BitVec 64
  rdi : BitVec 64
  r8 : BitVec 64
  r9 : BitVec 64
  r10 : BitVec 64
  r11 : BitVec 64
  r12 : BitVec 64
  r13 : BitVec 64
  r14 : BitVec 64
  r15 : BitVec 64
  rip : BitVec 64
  /-- `FltSave`. -/
  controlWord : BitVec 16
  fltMxCsr : BitVec 32
  xmmRegisters : Fin 16 → Wide

def contextAmd64 : BitVec 32 := 0x00100000
def contextControl : BitVec 32 := contextAmd64 ||| 0x1
def contextInteger : BitVec 32 := contextAmd64 ||| 0x2
def contextSegments : BitVec 32 := contextAmd64 ||| 0x4
def contextFloat : BitVec 32 := contextAmd64 ||| 0x8

def kernelCs : BitVec 16 := 0x10
def kernelDs : BitVec 16 := 0x18
def userDs : BitVec 16 := 0x2B
def userCs : BitVec 16 := 0x33

def makeUsermodeCs : SegReg := { selector := userCs, base := 0, limit := 0xFFFFFFFF, flags := 0xA0FB }

def makeUsermodeSs : SegReg := { selector := userDs, base := 0, limit := 0xFFFFFFFF, flags := 0xC0F3 }

def defaultMxcsr : BitVec 32 := 0x1F80
def defaultFpcw : BitVec 16 := 0x27F

/-! ## Capturing -/

def captureInteger (regs : Regs) (ctx : Context) : Context :=
  { ctx with
    rax := regs.gp .rax
    rcx := regs.gp .rcx
    rdx := regs.gp .rdx
    rbx := regs.gp .rbx
    rsi := regs.gp .rsi
    rdi := regs.gp .rdi
    r8 := regs.gp .r8
    r9 := regs.gp .r9
    r10 := regs.gp .r10
    r11 := regs.gp .r11
    r12 := regs.gp .r12
    r13 := regs.gp .r13
    r14 := regs.gp .r14
    r15 := regs.gp .r15 }

def captureControl (codeSel dataSel : BitVec 16) (regs : Regs) (ctx : Context) : Context :=
  { ctx with
    rsp := regs.gp .rsp
    rbp := regs.gp .rbp
    rip := regs.gp .rip
    eFlags := (regs.gp .rflags).setWidth 32
    segCs := codeSel
    segSs := dataSel }

def captureSegments (dataSel : BitVec 16) (ctx : Context) : Context :=
  { ctx with segDs := dataSel, segEs := dataSel, segFs := dataSel, segGs := dataSel }

def captureFloat (regs : Regs) (ctx : Context) : Context :=
  { ctx with
    mxCsr := defaultMxcsr
    fltMxCsr := defaultMxcsr
    controlWord := defaultFpcw
    xmmRegisters := regs.wide }

def filled (flags : BitVec 32) : BitVec 32 :=
  [contextInteger, contextControl, contextSegments, contextFloat].foldl
    (fun filled part => if hasFlags flags part then filled ||| part else filled) contextAmd64

/-- `capture_context`; `ctx` is what the record held. -/
def captureContext (m : Cpu) (regs : RegView) (ctx : Context) (flags : BitVec 32) : Context :=
  let user := m.isUser regs
  let codeSel := if user then userCs else kernelCs
  let dataSel := if user then userDs else kernelDs
  let ctx := if hasFlags flags contextInteger then captureInteger (m.file regs) ctx else ctx
  let ctx := if hasFlags flags contextControl then captureControl codeSel dataSel (m.file regs) ctx else ctx
  let ctx := if hasFlags flags contextSegments then captureSegments dataSel ctx else ctx
  let ctx := if hasFlags flags contextFloat then captureFloat (m.file regs) ctx else ctx
  { ctx with contextFlags := filled flags }

/-! ## Applying -/

def applyInteger (ctx : Context) (regs : Regs) : Regs :=
  [(Gp.rax, ctx.rax), (.rcx, ctx.rcx), (.rdx, ctx.rdx), (.rbx, ctx.rbx), (.rsi, ctx.rsi), (.rdi, ctx.rdi),
    (.r8, ctx.r8), (.r9, ctx.r9), (.r10, ctx.r10), (.r11, ctx.r11), (.r12, ctx.r12), (.r13, ctx.r13),
    (.r14, ctx.r14), (.r15, ctx.r15)].foldl (fun regs p => regs.set p.1 p.2) regs

def applyFloat (ctx : Context) (regs : Regs) : Regs :=
  { regs with
    wide := (List.finRange 16).foldl (fun wide i => Function.update wide i (ctx.xmmRegisters i)) regs.wide }

def applyControl (ctx : Context) (regs : Regs) : Regs :=
  let regs := (((regs.set .rsp ctx.rsp).set .rbp ctx.rbp).set .rip ctx.rip).set .rflags ((ctx.eFlags ||| 2).setWidth 64)
  if ctx.segCs = userCs then (regs.setSeg .cs makeUsermodeCs).setSeg .ss makeUsermodeSs else regs

def applied (ctx : Context) (regs : Regs) : Regs :=
  let flags := ctx.contextFlags
  let regs := if hasFlags flags contextInteger then applyInteger ctx regs else regs
  let regs := if hasFlags flags contextFloat then applyFloat ctx regs else regs
  if hasFlags flags contextControl then applyControl ctx regs else regs

def applyContext (m : Cpu) (regs : RegView) (ctx : Context) : Cpu := m.modify regs (applied ctx)

/-! ## Halves -/

def Gp.half : Gp → BitVec 32
  | .rsp | .rbp | .rip | .rflags => contextControl
  | _ => contextInteger

def Context.value (ctx : Context) : Gp → BitVec 64
  | .rax => ctx.rax
  | .rcx => ctx.rcx
  | .rdx => ctx.rdx
  | .rbx => ctx.rbx
  | .rsp => ctx.rsp
  | .rbp => ctx.rbp
  | .rsi => ctx.rsi
  | .rdi => ctx.rdi
  | .r8 => ctx.r8
  | .r9 => ctx.r9
  | .r10 => ctx.r10
  | .r11 => ctx.r11
  | .r12 => ctx.r12
  | .r13 => ctx.r13
  | .r14 => ctx.r14
  | .r15 => ctx.r15
  | .rip => ctx.rip
  | .rflags => ctx.eFlags.setWidth 64

def Gp.shown (r : Gp) (value : BitVec 64) : BitVec 64 := if r = .rflags then (value.setWidth 32).setWidth 64 else value

def Gp.given (r : Gp) (value : BitVec 64) : BitVec 64 := if r = .rflags then value ||| 2 else value

/-- Capturing and applying leave the registers as they are, but for `rflags`, of which a context has 32 bits and where
bit 1 is set. That goes for the segments too where the cpu is in the mode of the thread. -/
structure Kept (control user : Bool) (before after : Regs) : Prop where
  gp : ∀ r, r ≠ .rflags → after.gp r = before.gp r
  rflags : after.gp .rflags =
    if control then ((before.gp .rflags).setWidth 32).setWidth 64 ||| 2 else before.gp .rflags
  wide : ∀ i, after.wide i = before.wide i
  gs : after.seg .gs = before.seg .gs
  mode : (control → user → before.seg .cs = makeUsermodeCs ∧ before.seg .ss = makeUsermodeSs) →
    ∀ r, after.seg r = before.seg r

/-- The registers of the halves that a context names are those of the context, and no other is changed. -/
structure Replaced (ctx : Context) (before after : Regs) : Prop where
  gp : ∀ r, after.gp r = if hasFlags ctx.contextFlags r.half then r.given (ctx.value r) else before.gp r
  wide : ∀ i, after.wide i = if hasFlags ctx.contextFlags contextFloat then ctx.xmmRegisters i else before.wide i
  gs : after.seg .gs = before.seg .gs
  mode : (after.seg .cs, after.seg .ss) =
    if hasFlags ctx.contextFlags contextControl ∧ ctx.segCs = userCs then (makeUsermodeCs, makeUsermodeSs)
    else (before.seg .cs, before.seg .ss)

structure Returned (ctx ctx' : Context) : Prop where
  value : ∀ r, hasFlags ctx.contextFlags r.half → ctx'.value r = r.given (ctx.value r)
  xmmRegisters : hasFlags ctx.contextFlags contextFloat → ∀ i, ctx'.xmmRegisters i = ctx.xmmRegisters i

/-! ## The parts -/

theorem value_captureInteger (regs : Regs) (ctx : Context) (r : Gp) :
    (captureInteger regs ctx).value r = if r.half = contextInteger then r.shown (regs.gp r) else ctx.value r := by
  cases r <;> rfl

theorem value_captureControl (codeSel dataSel : BitVec 16) (regs : Regs) (ctx : Context) (r : Gp) :
    (captureControl codeSel dataSel regs ctx).value r =
      if r.half = contextControl then r.shown (regs.gp r) else ctx.value r := by
  cases r <;> rfl

theorem value_captureSegments (dataSel : BitVec 16) (ctx : Context) (r : Gp) :
    (captureSegments dataSel ctx).value r = ctx.value r := by
  cases r <;> rfl

theorem value_captureFloat (regs : Regs) (ctx : Context) (r : Gp) : (captureFloat regs ctx).value r = ctx.value r := by
  cases r <;> rfl

theorem gp_applyInteger (ctx : Context) (regs : Regs) (r : Gp) :
    (applyInteger ctx regs).gp r = if r.half = contextInteger then r.given (ctx.value r) else regs.gp r := by
  cases r <;> rfl

theorem gp_applyControl (ctx : Context) (regs : Regs) (r : Gp) :
    (applyControl ctx regs).gp r = if r.half = contextControl then r.given (ctx.value r) else regs.gp r := by
  have hflags : (ctx.eFlags ||| 2).setWidth 64 = ctx.eFlags.setWidth 64 ||| 2 := BitVec.setWidth_or
  unfold applyControl
  dsimp only
  rw [hflags]
  split_ifs <;> cases r <;> first | rfl | contradiction

theorem seg_applyControl (ctx : Context) (regs : Regs) :
    ((applyControl ctx regs).seg .cs, (applyControl ctx regs).seg .ss) =
      if ctx.segCs = userCs then (makeUsermodeCs, makeUsermodeSs) else (regs.seg .cs, regs.seg .ss) := by
  unfold applyControl
  dsimp only
  split_ifs <;> rfl

theorem half_eq (r : Gp) : r.half = contextInteger ∨ r.half = contextControl := by
  cases r <;> first | exact .inl rfl | exact .inr rfl

theorem integer_ne_control : contextInteger ≠ contextControl := by decide

/-! ## The whole -/

/-- The flags that a captured context has name the halves that were asked for. -/
theorem hasFlags_filled (flags : BitVec 32) {part : BitVec 32}
    (hpart : part ∈ [contextInteger, contextControl, contextFloat]) :
    hasFlags (filled flags) part = hasFlags flags part := by
  unfold filled
  simp only [List.foldl_cons, List.foldl_nil]
  simp only [List.mem_cons, List.not_mem_nil, or_false] at hpart
  obtain rfl | rfl | rfl := hpart
  all_goals
    cases hasFlags flags contextInteger <;> cases hasFlags flags contextControl <;>
      cases hasFlags flags contextSegments <;> cases hasFlags flags contextFloat <;> rfl

theorem value_captureContext (m : Cpu) (regs : RegView) (ctx : Context) (flags : BitVec 32) (r : Gp) :
    (captureContext m regs ctx flags).value r =
      if hasFlags flags r.half then r.shown ((m.file regs).gp r) else ctx.value r := by
  have hwhen : ∀ (b : Bool) (ctx ctx' : Context), (if b then ctx else ctx').value r =
      if b then ctx.value r else ctx'.value r := fun b _ _ => apply_ite (fun ctx : Context => ctx.value r) ..
  have hlast : ∀ (ctx : Context) flags, ({ ctx with contextFlags := flags } : Context).value r = ctx.value r := by
    intro ctx flags
    cases r <;> rfl
  unfold captureContext
  simp only [hlast, hwhen, value_captureFloat, value_captureSegments, value_captureControl, value_captureInteger,
    ite_self]
  obtain hhalf | hhalf := half_eq r
  · rw [hhalf, if_neg integer_ne_control, if_pos rfl, ite_self]
  · rw [hhalf, if_pos rfl, if_neg integer_ne_control.symm, ite_self]

theorem xmmRegisters_captureContext (m : Cpu) (regs : RegView) (ctx : Context) (flags : BitVec 32) :
    (captureContext m regs ctx flags).xmmRegisters =
      if hasFlags flags contextFloat then (m.file regs).wide else ctx.xmmRegisters := by
  unfold captureContext
  cases hasFlags flags contextInteger <;> cases hasFlags flags contextControl <;>
    cases hasFlags flags contextSegments <;> cases hasFlags flags contextFloat <;> rfl

theorem segCs_captureContext (m : Cpu) (regs : RegView) (ctx : Context) (flags : BitVec 32) :
    (captureContext m regs ctx flags).segCs =
      if hasFlags flags contextControl then if m.isUser regs then userCs else kernelCs else ctx.segCs := by
  unfold captureContext
  cases hasFlags flags contextInteger <;> cases hasFlags flags contextControl <;>
    cases hasFlags flags contextSegments <;> cases hasFlags flags contextFloat <;> rfl

theorem contextFlags_captureContext (m : Cpu) (regs : RegView) (ctx : Context) (flags : BitVec 32) :
    (captureContext m regs ctx flags).contextFlags = filled flags := rfl

theorem gp_applied (ctx : Context) (regs : Regs) (r : Gp) : (applied ctx regs).gp r =
    if hasFlags ctx.contextFlags r.half then r.given (ctx.value r) else regs.gp r := by
  have hwhen : ∀ (b : Bool) (regs regs' : Regs), (if b then regs else regs').gp r =
      if b then regs.gp r else regs'.gp r := fun b _ _ => apply_ite (fun regs : Regs => regs.gp r) ..
  have hfloat : ∀ regs : Regs, (applyFloat ctx regs).gp r = regs.gp r := fun _ => rfl
  unfold applied
  simp only [hwhen, gp_applyControl, hfloat, gp_applyInteger, ite_self]
  obtain hhalf | hhalf := half_eq r
  · rw [hhalf, if_neg integer_ne_control, if_pos rfl, ite_self]
  · rw [hhalf, if_pos rfl, if_neg integer_ne_control.symm, ite_self]

theorem wide_applyFloat (ctx : Context) (regs : Regs) (i : Fin 16) :
    (applyFloat ctx regs).wide i = ctx.xmmRegisters i := by
  have hset := foldl_update_apply Function.injective_id (fun _ => False) ctx.xmmRegisters (List.finRange 16) regs.wide i
  rw [if_pos ⟨List.mem_finRange i, not_false⟩] at hset
  exact hset

theorem replaced_applied (ctx : Context) (regs : Regs) : Replaced ctx regs (applied ctx regs) where
  gp := gp_applied ctx regs
  wide i := by
    have hinteger : ∀ regs : Regs, (applyInteger ctx regs).wide = regs.wide := fun _ => rfl
    have hcontrol : ∀ regs : Regs, (applyControl ctx regs).wide = regs.wide := by
      intro regs
      unfold applyControl
      dsimp only
      split_ifs <;> rfl
    unfold applied
    dsimp only
    split_ifs
    all_goals simp only [hcontrol, hinteger, wide_applyFloat]
  gs := by
    unfold applied applyControl
    dsimp only
    split_ifs <;> rfl
  mode := by
    unfold applied
    dsimp only
    by_cases hcontrol : hasFlags ctx.contextFlags contextControl
    · simp only [hcontrol, if_true, true_and, seg_applyControl]
      split_ifs <;> rfl
    · simp only [hcontrol, false_and, if_false, Bool.false_eq_true]
      split_ifs <;> rfl

theorem shown_or (value : BitVec 64) :
    Gp.shown .rflags (value ||| 2) = Gp.shown .rflags value ||| 2 := by
  change ((value ||| 2).setWidth 32).setWidth 64 = (value.setWidth 32).setWidth 64 ||| (2 : BitVec 64)
  rw [BitVec.setWidth_or, BitVec.setWidth_or]
  rfl

theorem shown_given (ctx : Context) (r : Gp) : r.shown (r.given (ctx.value r)) = r.given (ctx.value r) := by
  cases r with
  | rflags =>
    have hwidth : (ctx.eFlags.setWidth 64).setWidth 32 = ctx.eFlags := by
      rw [BitVec.setWidth_setWidth (by omega), BitVec.setWidth_eq]
    exact (shown_or _).trans (congrArg (fun flags : BitVec 32 => flags.setWidth 64 ||| 2) hwidth)
  | _ => rfl

theorem kept (m : Cpu) (regs : RegView) (ctx : Context) (flags : BitVec 32) :
    Kept (hasFlags flags contextControl) (m.isUser regs) (m.file regs)
      ((applyContext m regs (captureContext m regs ctx flags)).file regs) := by
  have hr := replaced_applied (captureContext m regs ctx flags) (m.file regs)
  have hhas : ∀ r : Gp, hasFlags (captureContext m regs ctx flags).contextFlags r.half = hasFlags flags r.half := by
    intro r
    obtain hhalf | hhalf := half_eq r
    · rw [hhalf]
      exact hasFlags_filled flags (by decide)
    · rw [hhalf]
      exact hasFlags_filled flags (by decide)
  have hgp : ∀ r : Gp, (applied (captureContext m regs ctx flags) (m.file regs)).gp r =
      if hasFlags flags r.half then r.given (r.shown ((m.file regs).gp r)) else (m.file regs).gp r := by
    intro r
    rw [hr.gp, hhas, value_captureContext]
    split_ifs <;> rfl
  rw [applyContext, m.file_modify]
  refine ⟨fun r hne => ?_, hgp .rflags, fun i => ?_, hr.gs, fun hmode r => ?_⟩
  · rw [hgp, Gp.given, Gp.shown, if_neg hne, if_neg hne, ite_self]
  · rw [hr.wide i, contextFlags_captureContext, hasFlags_filled flags (by decide), xmmRegisters_captureContext]
    split_ifs <;> rfl
  · have hsegs := hr.mode
    rw [segCs_captureContext, contextFlags_captureContext, hasFlags_filled flags (by decide)] at hsegs
    have hsame : ((applied (captureContext m regs ctx flags) (m.file regs)).seg .cs,
        (applied (captureContext m regs ctx flags) (m.file regs)).seg .ss) =
        ((m.file regs).seg .cs, (m.file regs).seg .ss) := by
      rw [hsegs]
      by_cases hcontrol : hasFlags flags contextControl
      · rw [if_pos hcontrol]
        by_cases huser : m.isUser regs
        · obtain ⟨hcs, hss⟩ := hmode hcontrol huser
          rw [if_pos huser, if_pos ⟨hcontrol, rfl⟩, hcs, hss]
        · rw [if_neg huser]
          exact if_neg fun h => absurd h.2 (by decide)
      · exact if_neg fun h => hcontrol h.1
    cases r with
    | cs => exact congrArg Prod.fst hsame
    | ss => exact congrArg Prod.snd hsame
    | gs => exact hr.gs

theorem returned (m : Cpu) (regs : RegView) (ctx ctx' : Context) :
    Returned ctx (captureContext (applyContext m regs ctx) regs ctx' ctx.contextFlags) := by
  have hr := replaced_applied ctx (m.file regs)
  refine ⟨fun r hhalf => ?_, fun hfloat i => ?_⟩
  · rw [value_captureContext, if_pos hhalf, applyContext, m.file_modify, hr.gp, if_pos hhalf, shown_given]
  · rw [xmmRegisters_captureContext, if_pos hfloat, applyContext, m.file_modify, hr.wide, if_pos hfloat]

end Kernemul.ContextRecords.X64
