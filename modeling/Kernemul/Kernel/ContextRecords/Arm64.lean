import Kernemul.Kernel.ContextRecords.RegView
import Mathlib.Data.List.FinRange

/-!
# Contexts on ARM64 (`capture_context`, `apply_context` of `arm64_win_emulator`)

The mode bits of `Cpsr` are not applied: the mode is that of the kind of thread. Nor is `X18` applied.
-/

namespace Kernemul.ContextRecords.Arm64

/-- The registers of 64 bits; `x29` is the frame pointer and `x30` the link register. -/
inductive Gp
  | x (i : Fin 31)
  | sp | pc | pstate | tpidrEl0
  deriving DecidableEq, Repr

abbrev Regs := RegFile Gp (Fin 32) Empty
abbrev Cpu := Machine Gp (Fin 32) Empty

def fp : Gp := .x ⟨29, by decide⟩
def lr : Gp := .x ⟨30, by decide⟩

/-- The fields of a `_CONTEXT` that are filled in, with `X` up to `X28`. -/
structure Context where
  contextFlags : BitVec 32
  cpsr : BitVec 32
  x : Fin 29 → BitVec 64
  fp : BitVec 64
  lr : BitVec 64
  sp : BitVec 64
  pc : BitVec 64
  v : Fin 32 → Wide
  fpcr : BitVec 32
  fpsr : BitVec 32

def contextArm64 : BitVec 32 := 0x00400000
def contextControl : BitVec 32 := contextArm64 ||| 0x1
def contextInteger : BitVec 32 := contextArm64 ||| 0x2
def contextFloat : BitVec 32 := contextArm64 ||| 0x4

def pstateEl0t : BitVec 64 := 0x0
def pstateEl1h : BitVec 64 := 0x5
def pstateModeMask : BitVec 64 := 0xF

def defaultFpcr : BitVec 32 := 0
def defaultFpsr : BitVec 32 := 0

/-! ## Capturing -/

def captureInteger (regs : Regs) (ctx : Context) : Context :=
  { ctx with x := fun i => regs.gp (.x (i.castLE (by decide))) }

def captureFloat (regs : Regs) (ctx : Context) : Context :=
  { ctx with fpcr := defaultFpcr, fpsr := defaultFpsr, v := regs.wide }

def captureControl (regs : Regs) (ctx : Context) : Context :=
  { ctx with
    fp := regs.gp fp
    lr := regs.gp lr
    sp := regs.gp .sp
    pc := regs.gp .pc
    cpsr := (regs.gp .pstate).setWidth 32 }

def filled (flags : BitVec 32) : BitVec 32 :=
  [contextInteger, contextFloat, contextControl].foldl
    (fun filled part => if hasFlags flags part then filled ||| part else filled) contextArm64

/-- `capture_context`; `ctx` is what the record held. -/
def captureContext (m : Cpu) (regs : RegView) (ctx : Context) (flags : BitVec 32) : Context :=
  let ctx := if hasFlags flags contextInteger then captureInteger (m.file regs) ctx else ctx
  let ctx := if hasFlags flags contextFloat then captureFloat (m.file regs) ctx else ctx
  let ctx := if hasFlags flags contextControl then captureControl (m.file regs) ctx else ctx
  { ctx with contextFlags := filled flags }

/-! ## Applying -/

def modeOf (user : Bool) : BitVec 64 := if user then pstateEl0t else pstateEl1h

def applyInteger (ctx : Context) (regs : Regs) : Regs :=
  { regs with
    gp := (List.finRange 29).foldl
      (fun gp i => if i = 18 then gp else Function.update gp (.x (i.castLE (by decide))) (ctx.x i)) regs.gp }

def applyFloat (ctx : Context) (regs : Regs) : Regs :=
  { regs with wide := (List.finRange 32).foldl (fun wide i => Function.update wide i (ctx.v i)) regs.wide }

def applyControl (user : Bool) (ctx : Context) (regs : Regs) : Regs :=
  ((((regs.set fp ctx.fp).set lr ctx.lr).set .sp ctx.sp).set .pc ctx.pc).set .pstate
    (ctx.cpsr.setWidth 64 &&& ~~~ pstateModeMask ||| modeOf user)

def applied (user : Bool) (ctx : Context) (regs : Regs) : Regs :=
  let flags := ctx.contextFlags
  let regs := if hasFlags flags contextInteger then applyInteger ctx regs else regs
  let regs := if hasFlags flags contextFloat then applyFloat ctx regs else regs
  if hasFlags flags contextControl then applyControl user ctx regs else regs

def applyContext (m : Cpu) (regs : RegView) (ctx : Context) : Cpu := m.modify regs (applied (m.isUser regs) ctx)

/-! ## Halves -/

def Gp.half : Gp → Option (BitVec 32)
  | .x i => some (if i.val < 29 then contextInteger else contextControl)
  | .sp | .pc | .pstate => some contextControl
  | .tpidrEl0 => none

def Gp.within (r : Gp) (flags : BitVec 32) : Bool := r.half.any (hasFlags flags)

def Context.value (ctx : Context) : Gp → BitVec 64
  | .x i => if h : i.val < 29 then ctx.x ⟨i, h⟩ else if i.val = 29 then ctx.fp else ctx.lr
  | .sp => ctx.sp
  | .pc => ctx.pc
  | .pstate => ctx.cpsr.setWidth 64
  | .tpidrEl0 => 0

/-- Capturing and applying leave the registers as they are, but for `pstate`, of which a context has 32 bits. That goes
for its mode too where the cpu is in the mode of the thread. -/
structure Kept (control user : Bool) (before after : Regs) : Prop where
  gp : ∀ r, r ≠ .pstate → after.gp r = before.gp r
  pstate : after.gp .pstate &&& ~~~ pstateModeMask =
    (if control then ((before.gp .pstate).setWidth 32).setWidth 64 else before.gp .pstate) &&& ~~~ pstateModeMask
  wide : ∀ i, after.wide i = before.wide i
  mode : (control → before.gp .pstate &&& pstateModeMask = modeOf user) →
    after.gp .pstate &&& pstateModeMask = before.gp .pstate &&& pstateModeMask

/-- The registers of the halves that a context names are those of the context, and no other is changed, nor is `x18`. -/
structure Replaced (user : Bool) (ctx : Context) (before after : Regs) : Prop where
  gp : ∀ r, r ≠ .pstate → after.gp r =
    if r.within ctx.contextFlags ∧ r ≠ .x 18 then ctx.value r else before.gp r
  pstate : after.gp .pstate &&& ~~~ pstateModeMask =
    (if hasFlags ctx.contextFlags contextControl then ctx.value .pstate else before.gp .pstate) &&& ~~~ pstateModeMask
  mode : (hasFlags ctx.contextFlags contextControl → before.gp .pstate &&& pstateModeMask = modeOf user) →
    after.gp .pstate &&& pstateModeMask = before.gp .pstate &&& pstateModeMask
  wide : ∀ i, after.wide i = if hasFlags ctx.contextFlags contextFloat then ctx.v i else before.wide i

structure Returned (ctx ctx' : Context) : Prop where
  value : ∀ r, r.within ctx.contextFlags → r ≠ .x 18 → r ≠ .pstate → ctx'.value r = ctx.value r
  cpsr : hasFlags ctx.contextFlags contextControl →
    ctx'.value .pstate &&& ~~~ pstateModeMask = ctx.value .pstate &&& ~~~ pstateModeMask
  v : hasFlags ctx.contextFlags contextFloat → ∀ i, ctx'.v i = ctx.v i

/-! ## The parts -/

def Gp.shown (r : Gp) (value : BitVec 64) : BitVec 64 := if r = .pstate then (value.setWidth 32).setWidth 64 else value

theorem half_x {i : Fin 31} (h : i.val < 29) : (Gp.x i).half = some contextInteger := by rw [Gp.half, if_pos h]

theorem half_eq (r : Gp) : r = .tpidrEl0 ∨ (∃ i : Fin 31, i.val < 29 ∧ r = .x i) ∨ r.half = some contextControl := by
  cases r with
  | x i =>
    by_cases h : i.val < 29
    · exact .inr (.inl ⟨i, h, rfl⟩)
    · exact .inr (.inr (by rw [Gp.half, if_neg h]))
  | tpidrEl0 => exact .inl rfl
  | _ => exact .inr (.inr rfl)

theorem value_x (ctx : Context) {i : Fin 31} (h : i.val < 29) : ctx.value (.x i) = ctx.x ⟨i, h⟩ := dif_pos h

theorem integer_ne_control : some contextInteger ≠ some contextControl := by decide

theorem value_captureInteger (regs : Regs) (ctx : Context) (r : Gp) :
    (captureInteger regs ctx).value r = if r.half = some contextInteger then r.shown (regs.gp r) else ctx.value r := by
  cases r with
  | x i =>
    by_cases h : i.val < 29
    · rw [value_x _ h, half_x h]
      rfl
    · rw [Gp.half, if_neg h, if_neg integer_ne_control.symm, Context.value, dif_neg h, Context.value, dif_neg h]
      rfl
  | _ => rfl

theorem value_captureControl (regs : Regs) (ctx : Context) (r : Gp) :
    (captureControl regs ctx).value r = if r.half = some contextControl then r.shown (regs.gp r) else ctx.value r := by
  cases r with
  | x i =>
    by_cases h : i.val < 29
    · rw [value_x _ h, value_x _ h, half_x h]
      rfl
    · obtain rfl | rfl : i = 29 ∨ i = 30 := by omega
      · rfl
      · rfl
  | _ => rfl

theorem value_captureFloat (regs : Regs) (ctx : Context) (r : Gp) : (captureFloat regs ctx).value r = ctx.value r := by
  cases r <;> rfl

theorem gp_applyInteger (ctx : Context) (regs : Regs) (r : Gp) :
    (applyInteger ctx regs).gp r = if r.half = some contextInteger ∧ r ≠ .x 18 then ctx.value r else regs.gp r := by
  have hother : (∀ i : Fin 29, Gp.x (i.castLE (by decide)) ≠ r) → (applyInteger ctx regs).gp r = regs.gp r := fun hr =>
    foldl_update_of_notMem _ _ hr _ _
  obtain rfl | ⟨i, h, rfl⟩ | hhalf := half_eq r
  · exact hother fun i => nofun
  · have hkey : Function.Injective fun i : Fin 29 => Gp.x (i.castLE (by decide)) := by
      intro i j heq
      exact Fin.castLE_injective _ (Gp.x.inj heq)
    have hset := foldl_update_apply hkey (fun i => i = 18) ctx.x (List.finRange 29) regs.gp ⟨i, h⟩
    refine hset.trans ?_
    rw [value_x _ h, half_x h]
    refine if_congr ?_ rfl rfl
    rw [and_iff_right (List.mem_finRange _), and_iff_right rfl]
    refine not_congr ⟨fun heq => ?_, fun heq => ?_⟩
    · exact congrArg Gp.x (Fin.ext (congrArg (fun j : Fin 29 => j.val) heq))
    · exact Fin.ext (congrArg (fun j : Fin 31 => j.val) (Gp.x.inj heq))
  · rw [hhalf, if_neg fun h => integer_ne_control h.1.symm]
    refine hother fun i heq => ?_
    rw [← heq, half_x i.isLt] at hhalf
    exact integer_ne_control hhalf

theorem gp_applyControl (user : Bool) (ctx : Context) (regs : Regs) {r : Gp} (hr : r ≠ .pstate) :
    (applyControl user ctx regs).gp r = if r.half = some contextControl then ctx.value r else regs.gp r := by
  cases r with
  | x i =>
    by_cases h : i.val < 29
    · have hne : ∀ j : Fin 31, 29 ≤ j.val → Gp.x i ≠ .x j := by
        intro j hj heq
        rw [Gp.x.inj heq] at h
        omega
      rw [half_x h, if_neg integer_ne_control]
      unfold applyControl RegFile.set
      dsimp only
      have hfp : Gp.x i ≠ fp := hne 29 (by decide)
      have hlr : Gp.x i ≠ lr := hne 30 (by decide)
      rw [Function.update_of_ne hr, Function.update_of_ne (Gp.noConfusion : Gp.x i ≠ .pc),
        Function.update_of_ne (Gp.noConfusion : Gp.x i ≠ .sp), Function.update_of_ne hlr, Function.update_of_ne hfp]
    · obtain rfl | rfl : i = 29 ∨ i = 30 := by omega
      · rfl
      · rfl
  | pstate => exact absurd rfl hr
  | _ => rfl

theorem pstate_applyControl (user : Bool) (ctx : Context) (regs : Regs) : (applyControl user ctx regs).gp .pstate =
    ctx.value .pstate &&& ~~~ pstateModeMask ||| modeOf user := rfl

/-! ## The whole -/

/-- The flags that a captured context has name the halves that were asked for. -/
theorem hasFlags_filled (flags : BitVec 32) {part : BitVec 32}
    (hpart : part ∈ [contextInteger, contextFloat, contextControl]) :
    hasFlags (filled flags) part = hasFlags flags part := by
  unfold filled
  simp only [List.foldl_cons, List.foldl_nil]
  simp only [List.mem_cons, List.not_mem_nil, or_false] at hpart
  obtain rfl | rfl | rfl := hpart
  all_goals
    cases hasFlags flags contextInteger <;> cases hasFlags flags contextFloat <;>
      cases hasFlags flags contextControl <;> rfl

theorem within_filled (flags : BitVec 32) (r : Gp) : r.within (filled flags) = r.within flags := by
  obtain rfl | ⟨i, h, rfl⟩ | hhalf := half_eq r
  · rfl
  · rw [Gp.within, Gp.within, half_x h, Option.any_some, Option.any_some, hasFlags_filled flags (by decide)]
  · rw [Gp.within, Gp.within, hhalf, Option.any_some, Option.any_some, hasFlags_filled flags (by decide)]

theorem value_captureContext (m : Cpu) (regs : RegView) (ctx : Context) (flags : BitVec 32) (r : Gp) :
    (captureContext m regs ctx flags).value r =
      if r.within flags then r.shown ((m.file regs).gp r) else ctx.value r := by
  have hwhen : ∀ (b : Bool) (ctx ctx' : Context), (if b then ctx else ctx').value r =
      if b then ctx.value r else ctx'.value r := fun b _ _ => apply_ite (fun ctx : Context => ctx.value r) ..
  have hlast : ∀ (ctx : Context) flags, ({ ctx with contextFlags := flags } : Context).value r = ctx.value r := by
    intro ctx flags
    cases r <;> rfl
  unfold captureContext
  simp only [hlast, hwhen, value_captureControl, value_captureFloat, value_captureInteger, ite_self]
  obtain rfl | ⟨i, h, rfl⟩ | hhalf := half_eq r
  · simp [Gp.half, Gp.within]
  · rw [half_x h, if_neg integer_ne_control, if_pos rfl, ite_self, Gp.within, half_x h, Option.any_some]
  · rw [hhalf, if_pos rfl, if_neg integer_ne_control.symm, ite_self, Gp.within, hhalf, Option.any_some]

theorem v_captureContext (m : Cpu) (regs : RegView) (ctx : Context) (flags : BitVec 32) :
    (captureContext m regs ctx flags).v = if hasFlags flags contextFloat then (m.file regs).wide else ctx.v := by
  unfold captureContext
  cases hasFlags flags contextInteger <;> cases hasFlags flags contextFloat <;>
    cases hasFlags flags contextControl <;> rfl

theorem contextFlags_captureContext (m : Cpu) (regs : RegView) (ctx : Context) (flags : BitVec 32) :
    (captureContext m regs ctx flags).contextFlags = filled flags := rfl

theorem gp_applied (user : Bool) (ctx : Context) (regs : Regs) {r : Gp} (hr : r ≠ .pstate) :
    (applied user ctx regs).gp r =
      if r.within ctx.contextFlags ∧ r ≠ .x 18 then ctx.value r else regs.gp r := by
  have hwhen : ∀ (b : Bool) (regs regs' : Regs), (if b then regs else regs').gp r =
      if b then regs.gp r else regs'.gp r := fun b _ _ => apply_ite (fun regs : Regs => regs.gp r) ..
  have hfloat : ∀ regs : Regs, (applyFloat ctx regs).gp r = regs.gp r := fun _ => rfl
  unfold applied
  simp only [hwhen, gp_applyControl _ _ _ hr, hfloat, gp_applyInteger, ite_self]
  obtain rfl | ⟨i, h, rfl⟩ | hhalf := half_eq r
  · simp [Gp.half, Gp.within]
  · rw [half_x h, if_neg integer_ne_control, ite_self, Gp.within, half_x h, Option.any_some]
    simp only [ite_and, if_true]
  · have hne : r ≠ .x 18 := by
      rintro rfl
      exact integer_ne_control hhalf
    have hinteger : ¬ (some contextControl = some contextInteger ∧ r ≠ .x 18) := fun h => integer_ne_control h.1.symm
    rw [hhalf, if_pos rfl, if_neg hinteger, ite_self, Gp.within, hhalf, Option.any_some]
    exact if_congr (and_iff_left hne).symm rfl rfl

theorem pstate_applied (user : Bool) (ctx : Context) (regs : Regs) : (applied user ctx regs).gp .pstate =
    if hasFlags ctx.contextFlags contextControl then ctx.value .pstate &&& ~~~ pstateModeMask ||| modeOf user
    else regs.gp .pstate := by
  have hwhen : ∀ (b : Bool) (regs regs' : Regs), (if b then regs else regs').gp .pstate =
      if b then regs.gp .pstate else regs'.gp .pstate := fun b _ _ => apply_ite (fun regs : Regs => regs.gp .pstate) ..
  have hinteger : ∀ regs : Regs, (applyInteger ctx regs).gp .pstate = regs.gp .pstate := by
    intro regs
    rw [gp_applyInteger, if_neg fun h => integer_ne_control h.1.symm]
  have hfloat : ∀ regs : Regs, (applyFloat ctx regs).gp .pstate = regs.gp .pstate := fun _ => rfl
  unfold applied
  simp only [hwhen, pstate_applyControl, hfloat, hinteger, ite_self]

theorem wide_applied (user : Bool) (ctx : Context) (regs : Regs) (i : Fin 32) : (applied user ctx regs).wide i =
    if hasFlags ctx.contextFlags contextFloat then ctx.v i else regs.wide i := by
  have hwhen : ∀ (b : Bool) (regs regs' : Regs), (if b then regs else regs').wide i =
      if b then regs.wide i else regs'.wide i := fun b _ _ => apply_ite (fun regs : Regs => regs.wide i) ..
  have hinteger : ∀ regs : Regs, (applyInteger ctx regs).wide i = regs.wide i := fun _ => rfl
  have hcontrol : ∀ regs : Regs, (applyControl user ctx regs).wide i = regs.wide i := fun _ => rfl
  have hfloat : ∀ regs : Regs, (applyFloat ctx regs).wide i = ctx.v i := by
    intro regs
    have hset := foldl_update_apply Function.injective_id (fun _ => False) ctx.v (List.finRange 32) regs.wide i
    rw [if_pos ⟨List.mem_finRange i, not_false⟩] at hset
    exact hset
  unfold applied
  simp only [hwhen, hcontrol, hfloat, hinteger, ite_self]

theorem and_mask_or (a b mask : BitVec 64) (hb : b &&& mask = b) :
    (a &&& ~~~ mask ||| b) &&& ~~~ mask = a &&& ~~~ mask ∧ (a &&& ~~~ mask ||| b) &&& mask = b := by
  constructor
  · ext i hi
    have hbit := congrArg (·[i]) hb
    simp only [BitVec.getElem_and, BitVec.getElem_or, BitVec.getElem_not] at hbit ⊢
    revert hbit
    cases a[i] <;> cases b[i] <;> cases mask[i] <;> decide
  · ext i hi
    have hbit := congrArg (·[i]) hb
    simp only [BitVec.getElem_and, BitVec.getElem_or, BitVec.getElem_not] at hbit ⊢
    revert hbit
    cases a[i] <;> cases b[i] <;> cases mask[i] <;> decide

/-- What is left of a register in 32 bits agrees with a value of 32 bits wherever the register did. -/
theorem setWidth_and_eq {a mask : BitVec 64} {b : BitVec 32} (h : a &&& mask = b.setWidth 64 &&& mask) :
    (a.setWidth 32).setWidth 64 &&& mask = b.setWidth 64 &&& mask := by
  refine BitVec.eq_of_getLsbD_eq fun i hi => ?_
  have hbit := congrArg (·.getLsbD i) h
  simp only [BitVec.getLsbD_and, BitVec.getLsbD_setWidth] at hbit ⊢
  by_cases h32 : i < 32
  · simpa [hi, h32] using hbit
  · simp [h32, BitVec.getLsbD_of_ge b i (by omega)]

theorem modeOf_mask (user : Bool) : modeOf user &&& pstateModeMask = modeOf user := by
  cases user <;> rfl

theorem replaced_applied (user : Bool) (ctx : Context) (regs : Regs) :
    Replaced user ctx regs (applied user ctx regs) where
  gp _ hr := gp_applied user ctx regs hr
  pstate := by
    rw [pstate_applied]
    split_ifs
    · exact (and_mask_or _ _ _ (modeOf_mask user)).1
    · rfl
  mode hmode := by
    rw [pstate_applied]
    split_ifs with hcontrol
    · rw [(and_mask_or _ _ _ (modeOf_mask user)).2, hmode hcontrol]
    · rfl
  wide := wide_applied user ctx regs

theorem kept (m : Cpu) (regs : RegView) (ctx : Context) (flags : BitVec 32) :
    Kept (hasFlags flags contextControl) (m.isUser regs) (m.file regs)
      ((applyContext m regs (captureContext m regs ctx flags)).file regs) := by
  have hr := replaced_applied (m.isUser regs) (captureContext m regs ctx flags) (m.file regs)
  have hcontrol : hasFlags (captureContext m regs ctx flags).contextFlags contextControl =
      hasFlags flags contextControl :=
    hasFlags_filled flags (by decide)
  rw [applyContext, m.file_modify]
  refine ⟨fun r hne => ?_, ?_, fun i => ?_, fun hmode => hr.mode ?_⟩
  · rw [hr.gp r hne, contextFlags_captureContext, within_filled, value_captureContext, Gp.shown, if_neg hne]
    split_ifs with h₁ h₂
    · rfl
    · exact absurd h₁.1 h₂
    · rfl
  · rw [hr.pstate, hcontrol, value_captureContext]
    have hwithin : Gp.within .pstate flags = hasFlags flags contextControl := rfl
    rw [hwithin]
    split_ifs <;> rfl
  · rw [hr.wide i, contextFlags_captureContext, hasFlags_filled flags (by decide), v_captureContext]
    split_ifs <;> rfl
  · rwa [hcontrol]

theorem returned (m : Cpu) (regs : RegView) (ctx ctx' : Context) :
    Returned ctx (captureContext (applyContext m regs ctx) regs ctx' ctx.contextFlags) := by
  have hr := replaced_applied (m.isUser regs) ctx (m.file regs)
  refine ⟨fun r hwithin hx hne => ?_, fun hcontrol => ?_, fun hfloat i => ?_⟩
  · rw [value_captureContext, if_pos hwithin, applyContext, m.file_modify, hr.gp r hne, if_pos ⟨hwithin, hx⟩, Gp.shown,
      if_neg hne]
  · have hwithin : Gp.within .pstate ctx.contextFlags := hcontrol
    rw [value_captureContext, if_pos hwithin, applyContext, m.file_modify]
    refine setWidth_and_eq (hr.pstate.trans ?_)
    rw [if_pos hcontrol]
    rfl
  · rw [v_captureContext, if_pos hfloat, applyContext, m.file_modify, hr.wide, if_pos hfloat]

end Kernemul.ContextRecords.Arm64
