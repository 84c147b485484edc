import Kernemul.Lib.Follow
import Kernemul.Win.Exception

/-!
# Walking the stack

`walk_stack`, and when an unwinding comes to an end. The parents of chained unwind data are followed as the image
names them, so that a chain which names an entry again goes round for ever (`unwinding_ends_iff`).
-/

namespace Kernemul.Unwind.X64

open Stack

structure StackFrame where
  pc : Word
  sp : Word
  deriving DecidableEq

/-- A pass of the loop of `walk_stack`: nothing when the unwind data does not come to an end within the fuel, and
no next frame when the walk breaks off. -/
def Guest.pass (g : Guest) (mem : Mem) (fuel : Nat) (ctx : UnwindContext) :
    Option (Option (UnwindResult × UnwindContext)) :=
  match g.findModuleByAddr ctx.pc with
  | none => some none
  | some mod =>
    match unwindFrame fuel mem mod ctx with
    | none => none
    | some (false, _, _) => some none
    | some (true, result, ctx) => some (some (result, ctx))

/-- The frames above the first, `left` of them at most. -/
def Guest.framesAbove (g : Guest) (mem : Mem) (fuel : Nat) : Nat → UnwindContext → Option (List StackFrame)
  | 0, _ => some []
  | left + 1, ctx =>
    match g.pass mem fuel ctx with
    | none => none
    | some none => some []
    | some (some (_, ctx)) => (g.framesAbove mem fuel left ctx).map fun frames => ⟨ctx.pc, ctx.sp⟩ :: frames

def Guest.walkStack (g : Guest) (mem : Mem) (fuel maxFrames : Nat) (ctx : UnwindContext) :
    Option (List StackFrame) :=
  (g.framesAbove mem fuel maxFrames ctx).map fun frames => ⟨ctx.pc, ctx.sp⟩ :: frames

def rvaInFunc (modAddr : Word) (func : RuntimeFunction) (pc : Word) : Nat :=
  ((pc - modAddr).setWidth 32 - func.beginAddress).toNat

/-! ## The end of a chain -/

/-- The codes from `i` on have a machine frame that is not skipped. -/
def framed (info : UnwindInfo) (inProlog : Bool) (rva : Nat) : Nat → Nat → Bool
  | 0, _ => false
  | fuel + 1, i =>
    if i < info.unwindCodeCount then
      let code := info.codes i
      (!(inProlog && rva < codeOffset code) && codeOp code = .pushMachframe) ||
        framed info inProlog rva fuel (i + codeSlots code)
    else false

/-- The unwinding of a function stopped at `pc` ends with the entry at `rva`: its codes lead to a machine frame, or it
has no parent. -/
def EndsWith (img : Image) (modAddr : Word) (func : RuntimeFunction) (pc : Word) (rva : Nat) : Prop :=
  let at' := rvaInFunc modAddr func pc
  framed (img rva) (decide (at' < (img rva).sizeOfProlog)) at' (img rva).unwindCodeCount 0 = true ∨
    (img rva).chainInfo = false

/-- The chain of a function's unwind data comes back to an entry it has passed. -/
def ComesBack (img : Image) (modAddr : Word) (func : RuntimeFunction) (pc : Word) : Prop :=
  Follow.Revisits (fun rva => (img rva).chained) (EndsWith img modAddr func pc) func.unwindInfoRva

section
variable {mem : Mem} {info : UnwindInfo} {inProlog : Bool} {rva : Nat}

@[simp] theorem fromFrame_pc (info : UnwindInfo) (inProlog : Bool) (ctx : UnwindContext) :
    (fromFrame info inProlog ctx).pc = ctx.pc := by
  unfold fromFrame
  split <;> rfl

@[simp] theorem applyCode_pc (mem : Mem) (codes : Nat → Nat) (i : Nat) (ctx : UnwindContext) :
    (applyCode mem codes i ctx).pc = ctx.pc := by
  unfold applyCode
  dsimp only
  split
  · rfl
  · split <;> rfl
  · rfl
  · rfl
  · rfl
  · rfl

/-- Whether the codes lead to a machine frame does not depend on what they restore. -/
theorem applyCodes_snd (fuel i : Nat) (ctx : UnwindContext) :
    (applyCodes mem info inProlog rva fuel i ctx).2 = framed info inProlog rva fuel i := by
  induction fuel generalizing i ctx with
  | zero => rfl
  | succ fuel ih =>
    rw [applyCodes, framed]
    split_ifs with hi
    · dsimp only
      cases hskip : (inProlog && decide (rva < codeOffset (info.codes i))) with
      | true =>
        rw [if_pos rfl, ih]
        rfl
      | false =>
        rw [if_neg (by decide)]
        split_ifs with hop
        · simp [hop]
        · rw [ih]
          simp [hop]
    · rfl

theorem applyCodes_pc {fuel i : Nat} {ctx : UnwindContext} (h : framed info inProlog rva fuel i = false) :
    (applyCodes mem info inProlog rva fuel i ctx).1.pc = ctx.pc := by
  induction fuel generalizing i ctx with
  | zero => rfl
  | succ fuel ih =>
    rw [applyCodes]
    rw [framed] at h
    split_ifs at h ⊢ with hi
    · dsimp only at h ⊢
      obtain ⟨hhere, hrest⟩ := Bool.or_eq_false_iff.mp h
      split_ifs with hskip hop
      · exact ih hrest
      · simp [hskip, hop] at hhere
      · rw [ih hrest, applyCode_pc]
    · rfl

end

/-! ## One function -/

section
variable {img : Image} {mem : Mem} {modAddr : Word} {func : RuntimeFunction}

def entryContext (img : Image) (mem : Mem) (modAddr : Word) (func : RuntimeFunction) (rva : Nat)
    (ctx : UnwindContext) : UnwindContext :=
  let at' := rvaInFunc modAddr func ctx.pc
  let inProlog := decide (at' < (img rva).sizeOfProlog)
  (applyCodes mem (img rva) inProlog at' (img rva).unwindCodeCount 0
    (fromFrame (img rva) inProlog ctx)).1

variable {ctx : UnwindContext}

theorem entryContext_pc {rva : Nat} (h : ¬ EndsWith img modAddr func ctx.pc rva) :
    (entryContext img mem modAddr func rva ctx).pc = ctx.pc := by
  obtain ⟨hframed, -⟩ := not_or.mp h
  unfold entryContext
  dsimp only
  rw [applyCodes_pc (Bool.eq_false_iff.mpr hframed), fromFrame_pc]

theorem applyUnwindInfo_end {rva : Nat} (h : EndsWith img modAddr func ctx.pc rva) :
    ∃ r, ∀ fuel, applyUnwindInfo img mem modAddr func (fuel + 1) rva ctx = some r := by
  simp only [applyUnwindInfo]
  split
  · exact ⟨_, fun _ => rfl⟩
  · rename_i ctx' heq
    have hframed := congrArg Prod.snd heq
    rw [applyCodes_snd] at hframed
    rcases h with h | h
    · rw [rvaInFunc, hframed] at h
      cases h
    · simp only [h, Bool.false_eq_true, if_false]
      exact ⟨_, fun _ => rfl⟩

theorem applyUnwindInfo_parent {rva : Nat} (h : ¬ EndsWith img modAddr func ctx.pc rva) (fuel : Nat) :
    applyUnwindInfo img mem modAddr func (fuel + 1) rva ctx =
      applyUnwindInfo img mem modAddr func fuel (img rva).chained
        (entryContext img mem modAddr func rva ctx) := by
  obtain ⟨hframed, hchain⟩ := not_or.mp h
  rw [applyUnwindInfo]
  dsimp only
  split
  · rename_i ctx' heq
    have := congrArg Prod.snd heq
    rw [applyCodes_snd] at this
    exact absurd this hframed
  · rename_i ctx' heq
    rw [if_pos (by simpa using hchain)]
    exact congrArg _ (congrArg Prod.fst heq).symm

theorem applyUnwindInfo_mono {fuel fuel' rva : Nat} {r : UnwindResult × UnwindContext}
    (h : applyUnwindInfo img mem modAddr func fuel rva ctx = some r) (hle : fuel ≤ fuel') :
    applyUnwindInfo img mem modAddr func fuel' rva ctx = some r := by
  induction fuel generalizing fuel' rva ctx with
  | zero => cases h
  | succ fuel ih =>
    obtain ⟨fuel', rfl⟩ : ∃ n, fuel' = n + 1 := ⟨fuel' - 1, by omega⟩
    by_cases hend : EndsWith img modAddr func ctx.pc rva
    · obtain ⟨r', hr'⟩ := applyUnwindInfo_end hend
      rw [← h, hr', hr']
    · rw [applyUnwindInfo_parent hend] at h ⊢
      exact ih h (by omega)

theorem applyUnwindInfo_isSome_iff (rva : Nat) (ctx : UnwindContext) :
    (∃ fuel, (applyUnwindInfo img mem modAddr func fuel rva ctx).isSome) ↔
      Follow.Ends (fun rva => (img rva).chained) (EndsWith img modAddr func ctx.pc) rva := by
  constructor
  · rintro ⟨fuel, h⟩
    induction fuel generalizing rva ctx with
    | zero => cases h
    | succ fuel ih =>
      by_cases hend : EndsWith img modAddr func ctx.pc rva
      · exact ⟨0, hend⟩
      · rw [applyUnwindInfo_parent hend] at h
        rw [Follow.ends_cons hend, ← entryContext_pc hend]
        exact ih _ _ h
  · rintro ⟨n, h⟩
    induction n generalizing rva ctx with
    | zero =>
      obtain ⟨r, hr⟩ := applyUnwindInfo_end h
      exact ⟨1, Option.isSome_of_eq_some (hr 0)⟩
    | succ n ih =>
      by_cases hend : EndsWith img modAddr func ctx.pc rva
      · obtain ⟨r, hr⟩ := applyUnwindInfo_end hend
        exact ⟨1, Option.isSome_of_eq_some (hr 0)⟩
      · rw [Function.iterate_succ_apply, ← entryContext_pc hend] at h
        obtain ⟨fuel, hfuel⟩ := ih _ _ h
        exact ⟨fuel + 1, by rw [applyUnwindInfo_parent hend]; exact hfuel⟩

end

/-! ## The walk -/

/-- The unwinding of the frame the context is in comes to an end: the function found at its pc has a chain that does not
come back to an entry it has passed. -/
def Guest.Finishes (g : Guest) (ctx : UnwindContext) : Prop :=
  ∀ mod func, g.findModuleByAddr ctx.pc = some mod → lookupFunctionEntry mod ctx.pc = some func →
    ¬ ComesBack mod.img mod.addr func ctx.pc

/-- The walk goes from the first context to the last in so many frames. -/
inductive Guest.Reaches (g : Guest) (mem : Mem) : Nat → UnwindContext → UnwindContext → Prop
  | here (ctx : UnwindContext) : Reaches g mem 0 ctx ctx
  | up {n fuel : Nat} {ctx ctx₁ ctx₂ : UnwindContext} {result : UnwindResult}
      (hpass : g.pass mem fuel ctx = some (some (result, ctx₁))) (rest : Reaches g mem n ctx₁ ctx₂) :
      Reaches g mem (n + 1) ctx ctx₂

section
variable {g : Guest} {mem : Mem}

variable {fuel : Nat} {ctx : UnwindContext}

theorem unwindFrame_mono {fuel' : Nat} {mod : Module}
    {r : Bool × UnwindResult × UnwindContext} (h : unwindFrame fuel mem mod ctx = some r)
    (hle : fuel ≤ fuel') : unwindFrame fuel' mem mod ctx = some r := by
  unfold unwindFrame at h ⊢
  split at h
  · exact h
  · obtain ⟨r', hr', rfl⟩ := Option.map_eq_some_iff.mp h
    rw [applyUnwindInfo_mono hr' hle]
    rfl

theorem pass_mono {fuel' : Nat} {r : Option (UnwindResult × UnwindContext)}
    (h : g.pass mem fuel ctx = some r) (hle : fuel ≤ fuel') : g.pass mem fuel' ctx = some r := by
  unfold Guest.pass at h ⊢
  cases hmod : g.findModuleByAddr ctx.pc with
  | none =>
    rw [hmod] at h
    exact h
  | some mod =>
    rw [hmod] at h
    dsimp only at h ⊢
    cases hframe : unwindFrame fuel mem mod ctx with
    | none =>
      rw [hframe] at h
      cases h
    | some r =>
      rw [unwindFrame_mono hframe hle]
      rw [hframe] at h
      exact h

theorem Guest.Reaches.unique {n : Nat} {ctx₁ ctx₂ : UnwindContext} (h₁ : g.Reaches mem n ctx ctx₁)
    (h₂ : g.Reaches mem n ctx ctx₂) : ctx₁ = ctx₂ := by
  induction h₁ with
  | here =>
    cases h₂
    rfl
  | @up n fuel ctx _ _ result hpass _ ih =>
    cases h₂ with
    | @up _ fuel' _ _ _ result' hpass' rest' =>
      have heq := (pass_mono hpass (le_max_left fuel fuel')).symm.trans
        (pass_mono hpass' (le_max_right fuel fuel'))
      obtain ⟨rfl, rfl⟩ := Prod.mk.inj (Option.some.inj (Option.some.inj heq))
      exact ih rest'

def Guest.Narrow (g : Guest) : Prop := ∀ mod ∈ g.modules, ∀ rva, (mod.img rva).chained < 2 ^ 32

theorem isSome_pass {mod : Module} (hmod : g.findModuleByAddr ctx.pc = some mod) :
    (g.pass mem fuel ctx).isSome = (unwindFrame fuel mem mod ctx).isSome := by
  rw [Guest.pass, hmod]
  dsimp only
  split <;> (rename_i heq; rw [heq]; rfl)

theorem isSome_unwindFrame {mod : Module} {func : RuntimeFunction}
    (hfunc : lookupFunctionEntry mod ctx.pc = some func) :
    (unwindFrame fuel mem mod ctx).isSome =
      (applyUnwindInfo mod.img mem mod.addr func fuel func.unwindInfoRva ctx).isSome := by
  rw [unwindFrame, hfunc]
  exact Option.isSome_map ..

/-- The unwinding of a function comes to an end exactly when its chain does not come back. -/
theorem applyUnwindInfo_isSome_iff_not {img : Image} (himg : ∀ rva, (img rva).chained < 2 ^ 32) (mem : Mem)
    (modAddr : Word) (func : RuntimeFunction) (ctx : UnwindContext) :
    (∃ fuel, (applyUnwindInfo img mem modAddr func fuel func.unwindInfoRva ctx).isSome) ↔
      ¬ ComesBack img modAddr func ctx.pc :=
  (applyUnwindInfo_isSome_iff _ ctx).trans (Follow.ends_iff (Follow.range_finite himg _))

theorem pass_isSome_iff (hg : g.Narrow) (mem : Mem) (ctx : UnwindContext) :
    (∃ fuel, (g.pass mem fuel ctx).isSome) ↔ g.Finishes ctx := by
  cases hmod : g.findModuleByAddr ctx.pc with
  | none =>
    refine ⟨fun _ mod func h => ?_, fun _ => ⟨0, ?_⟩⟩
    · rw [hmod] at h
      cases h
    · rw [Guest.pass, hmod]
      rfl
  | some mod =>
    simp only [isSome_pass hmod]
    cases hfunc : lookupFunctionEntry mod ctx.pc with
    | none =>
      refine ⟨fun _ mod' func h hlookup => ?_, fun _ => ⟨0, ?_⟩⟩
      · obtain rfl := Option.some.inj (hmod.symm.trans h)
        rw [hfunc] at hlookup
        cases hlookup
      · rw [unwindFrame, hfunc]
        rfl
    | some func =>
      simp only [isSome_unwindFrame hfunc]
      rw [applyUnwindInfo_isSome_iff_not (hg mod (List.mem_of_find?_eq_some hmod))]
      constructor
      · intro h mod' func' hmod' hfunc'
        obtain rfl := Option.some.inj (hmod.symm.trans hmod')
        obtain rfl := Option.some.inj (hfunc.symm.trans hfunc')
        exact h
      · exact fun h => h mod func hmod hfunc

theorem framesAbove_mono {fuel' left : Nat} {frames : List StackFrame}
    (h : g.framesAbove mem fuel left ctx = some frames) (hle : fuel ≤ fuel') :
    g.framesAbove mem fuel' left ctx = some frames := by
  induction left generalizing ctx frames with
  | zero => exact h
  | succ left ih =>
    rw [Guest.framesAbove] at h ⊢
    cases hpass : g.pass mem fuel ctx with
    | none =>
      rw [hpass] at h
      cases h
    | some r =>
      rw [pass_mono hpass hle]
      rw [hpass] at h
      match r, h with
      | none, h => exact h
      | some (_, ctx₁), h =>
        obtain ⟨above, habove, rfl⟩ := Option.map_eq_some_iff.mp h
        dsimp only
        rw [ih habove]
        rfl

theorem length_framesAbove {left : Nat} {frames : List StackFrame}
    (h : g.framesAbove mem fuel left ctx = some frames) : frames.length ≤ left := by
  induction left generalizing ctx frames with
  | zero =>
    cases h
    exact le_refl _
  | succ left ih =>
    rw [Guest.framesAbove] at h
    split at h
    · cases h
    · cases h
      exact Nat.zero_le _
    · obtain ⟨above, habove, rfl⟩ := Option.map_eq_some_iff.mp h
      exact Nat.succ_le_succ (ih habove)

/-- The walk comes to an end exactly when the unwinding of each frame it reaches does. -/
theorem framesAbove_isSome_iff (hg : g.Narrow) (left : Nat) (ctx : UnwindContext) :
    (∃ fuel, (g.framesAbove mem fuel left ctx).isSome) ↔
      ∀ n < left, ∀ ctx', g.Reaches mem n ctx ctx' → g.Finishes ctx' := by
  induction left generalizing ctx with
  | zero => exact ⟨fun _ n hn => absurd hn (Nat.not_lt_zero _), fun _ => ⟨0, rfl⟩⟩
  | succ left ih =>
    constructor
    · rintro ⟨fuel, h⟩ n hn ctx' hreach
      rw [Guest.framesAbove] at h
      cases hpass : g.pass mem fuel ctx with
      | none =>
        rw [hpass] at h
        cases h
      | some r =>
        cases hreach with
        | here => exact (pass_isSome_iff hg mem ctx).mp ⟨fuel, Option.isSome_of_eq_some hpass⟩
        | @up n fuel' _ ctx₁ _ result hpass' rest =>
          have heq := (pass_mono hpass (le_max_left fuel fuel')).symm.trans
            (pass_mono hpass' (le_max_right fuel fuel'))
          rw [Option.some.inj heq] at hpass
          rw [hpass, Option.isSome_map] at h
          exact (ih ctx₁).mp ⟨fuel, h⟩ n (by omega) ctx' rest
    · intro h
      obtain ⟨fuel, hfuel⟩ := (pass_isSome_iff hg mem ctx).mpr (h 0 (Nat.succ_pos _) ctx (.here ctx))
      obtain ⟨r, hpass⟩ := Option.isSome_iff_exists.mp hfuel
      cases r with
      | none =>
        refine ⟨fuel, ?_⟩
        rw [Guest.framesAbove, hpass]
        rfl
      | some r =>
        obtain ⟨result, ctx₁⟩ := r
        have habove := (ih ctx₁).mpr fun n hn ctx' hreach => h (n + 1) (by omega) ctx' (.up hpass hreach)
        obtain ⟨fuel', hfuel'⟩ := habove
        obtain ⟨frames, hframes⟩ := Option.isSome_iff_exists.mp hfuel'
        refine ⟨max fuel fuel', ?_⟩
        rw [Guest.framesAbove, pass_mono hpass (le_max_left ..)]
        dsimp only
        rw [framesAbove_mono hframes (le_max_right ..)]
        rfl

end

/-- **Unwinding comes to an end when no chain comes back to an entry it has passed.** The unwinding of a function does
so exactly when its own chain does not come back, and the walk exactly when that holds of each function whose frame
it reaches; the walk then has one frame more than its limit at most. -/
theorem unwinding_ends_iff (g : Guest) (hg : g.Narrow) (mem : Mem) :
    (∀ mod ∈ g.modules, ∀ (func : RuntimeFunction) (ctx : UnwindContext),
      (∃ fuel, (applyUnwindInfo mod.img mem mod.addr func fuel func.unwindInfoRva ctx).isSome) ↔
        ¬ ComesBack mod.img mod.addr func ctx.pc) ∧
    ∀ (maxFrames : Nat) (ctx : UnwindContext),
      ((∃ fuel frames, g.walkStack mem fuel maxFrames ctx = some frames ∧ frames.length ≤ maxFrames + 1) ↔
        ∀ n < maxFrames, ∀ ctx', g.Reaches mem n ctx ctx' → g.Finishes ctx') := by
  refine ⟨fun mod hmod func ctx => applyUnwindInfo_isSome_iff_not (hg mod hmod) mem mod.addr func ctx, ?_⟩
  intro maxFrames ctx
  rw [← framesAbove_isSome_iff hg]
  constructor
  · rintro ⟨fuel, frames, h, -⟩
    obtain ⟨above, habove, -⟩ := Option.map_eq_some_iff.mp h
    exact ⟨fuel, Option.isSome_of_eq_some habove⟩
  · rintro ⟨fuel, h⟩
    obtain ⟨above, habove⟩ := Option.isSome_iff_exists.mp h
    refine ⟨fuel, ⟨ctx.pc, ctx.sp⟩ :: above, ?_, Nat.succ_le_succ (length_framesAbove habove)⟩
    rw [Guest.walkStack, habove]
    rfl

def ownParent : UnwindInfo where
  chainInfo := true
  sizeOfProlog := 0
  unwindCodeCount := 0
  codes _ := 0
  chained := 0x2000

def twoEntries (rva : Nat) : UnwindInfo where
  chainInfo := decide (rva = 0x3010)
  sizeOfProlog := 0
  unwindCodeCount := 0
  codes _ := 0
  chained := 0x3000

def guestOf (img : Image) (unwindInfoRva : Nat) : Guest where
  modules := [⟨0x400000, 0x10000, img, 0x5000, [⟨0x1000, 0x1010, unwindInfoRva⟩]⟩]
  call _ _ _ mem := (mem, 0)
  isCSpecificHandler _ := false
  trampoline := 0
  record _ := 0
  context _ := 0

theorem twoEntries_narrow : (guestOf twoEntries 0x3010).Narrow := by
  intro mod hmod rva
  obtain rfl := List.mem_singleton.mp hmod
  exact Nat.lt_of_lt_of_le (show 0x3000 < 0x3001 by decide) (by decide)

theorem twoEntries_ends :
    (∃ fuel frames, (guestOf twoEntries 0x3010).walkStack (fun _ => 0) fuel 64
        (contextFromVcpu (fun _ => 0) 0x401004) = some frames ∧ frames.length ≤ 65) ↔
      ∀ n < 64, ∀ ctx', (guestOf twoEntries 0x3010).Reaches (fun _ => 0) n
        (contextFromVcpu (fun _ => 0) 0x401004) ctx' → (guestOf twoEntries 0x3010).Finishes ctx' :=
  (unwinding_ends_iff (guestOf twoEntries 0x3010) twoEntries_narrow fun _ => 0).2 64
    (contextFromVcpu (fun _ => 0) 0x401004)

theorem applyUnwindInfo_ownParent (modAddr : Word) (func : RuntimeFunction) (fuel rva : Nat) (mem : Mem)
    (ctx : UnwindContext) : applyUnwindInfo (fun _ => ownParent) mem modAddr func fuel rva ctx = none := by
  induction fuel generalizing rva ctx with
  | zero => rfl
  | succ fuel ih =>
    rw [applyUnwindInfo_parent (by simp [EndsWith, ownParent, framed])]
    exact ih _ _

/-- Unwind data that names itself as its parent is never done with, and a walk that reaches its function never is
either. -/
theorem ownParent_round : (guestOf (fun _ => ownParent) 0x2000).Narrow ∧
    (∀ fuel, applyUnwindInfo (fun _ => ownParent) (fun _ => 0) 0x400000 ⟨0x1000, 0x1010, 0x2000⟩ fuel 0x2000
      (contextFromVcpu (fun _ => 0) 0x401004) = none) ∧
    ∀ fuel, (guestOf (fun _ => ownParent) 0x2000).walkStack (fun _ => 0) fuel 64
      (contextFromVcpu (fun _ => 0) 0x401004) = none := by
  refine ⟨fun mod hmod rva => ?_, fun fuel => applyUnwindInfo_ownParent .., fun fuel => ?_⟩
  · obtain rfl := List.mem_singleton.mp hmod
    exact Nat.lt_of_lt_of_le (show 0x2000 < 0x2001 by decide) (by decide)
  · have hpass : (guestOf (fun _ => ownParent) 0x2000).pass (fun _ => 0) fuel
        (contextFromVcpu (fun _ => 0) 0x401004) = none := by
      have hlookup : lookupFunctionEntry ⟨0x400000, 0x10000, fun _ => ownParent, 0x5000,
          [⟨0x1000, 0x1010, 0x2000⟩]⟩ 0x401004 = some ⟨0x1000, 0x1010, 0x2000⟩ := by decide
      rw [Guest.pass, show (guestOf (fun _ => ownParent) 0x2000).findModuleByAddr
        (contextFromVcpu (fun _ => 0) 0x401004).pc = some ⟨0x400000, 0x10000, fun _ => ownParent, 0x5000,
          [⟨0x1000, 0x1010, 0x2000⟩]⟩ from rfl]
      dsimp only [unwindFrame, contextFromVcpu]
      rw [hlookup]
      dsimp only
      rw [applyUnwindInfo_ownParent]
      rfl
    rw [Guest.walkStack, Guest.framesAbove, hpass]
    rfl

end Kernemul.Unwind.X64
