import Kernemul.Win.Unwind.Chain

/-!
# The two stack walkers

`walk_stack` looks a frame up at its return address, the loop of `win_exception::handle` at the byte before. The frames
they see are the same as long as both addresses lie in one function, with no code of its prologue between them
(`walkers_agree`); the first return address that begins another function tells them apart.
-/

namespace Kernemul.Unwind.X64

open Stack

structure Visit where
  functionEntry : Word
  establisherFrame : Word
  deriving DecidableEq

def visitOf (result : UnwindResult) : Visit := ⟨result.functionEntry, result.establisherFrame⟩

/-- The frames `walk_stack` sees, `left` of them at most. -/
def Guest.walkVisits (g : Guest) (mem : Mem) (fuel : Nat) : Nat → UnwindContext → Option (List Visit)
  | 0, _ => some []
  | left + 1, ctx =>
    match g.pass mem fuel ctx with
    | none => none
    | some none => some []
    | some (some (result, ctx)) => (g.walkVisits mem fuel left ctx).map (visitOf result :: ·)

/-- The frames the loop of `win_exception::handle` sees, from `depth` on, `left` of them at most. -/
def Guest.handleVisits (g : Guest) (fuel : Nat) (cpu : Cpu) :
    Nat → Nat → Mem → UnwindContext → Option (List Visit)
  | 0, _, _, _ => some []
  | left + 1, depth, mem, ctx =>
    let controlPc := if depth > 0 then ctx.pc - 1#64 else ctx.pc
    match g.findModuleByAddr controlPc with
    | none => some []
    | some mod =>
      match unwindFrame fuel mem mod { ctx with pc := controlPc } with
      | none => none
      | some (false, _, _) => some []
      | some (true, result, ctx) =>
        if result.handler = 0 ∨ isGsHandler mem result.handler = true then
          (g.handleVisits fuel cpu left (depth + 1) mem ctx).map (visitOf result :: ·)
        else
          let (mem, answer) := g.ask (cpu.gp rsp) controlPc mod result mem
          if answer.disposition = executeHandler ∧ answer.targetIp ≠ 0 then some [visitOf result]
          else if answer.disposition = continueExecution then some [visitOf result]
          else (g.handleVisits fuel cpu left (depth + 1) mem ctx).map (visitOf result :: ·)

/-- The frames above the first that `walk_stack` returns are those it sees. -/
theorem length_walkVisits (g : Guest) (mem : Mem) (fuel left : Nat) (ctx : UnwindContext) :
    (g.walkVisits mem fuel left ctx).map List.length = (g.framesAbove mem fuel left ctx).map List.length := by
  induction left generalizing ctx with
  | zero => rfl
  | succ left ih =>
    rw [Guest.walkVisits, Guest.framesAbove]
    cases hpass : g.pass mem fuel ctx with
    | none => rfl
    | some r =>
      cases r with
      | none => rfl
      | some r =>
        have hsucc : ∀ {α : Type} (a : α) (o : Option (List α)),
            (o.map (a :: ·)).map List.length = (o.map List.length).map Nat.succ := by
          intro α a o
          cases o <;> rfl
        exact (hsucc _ _).trans ((congrArg _ (ih r.2)).trans (hsucc _ _).symm)

variable {ctx : UnwindContext}

theorem length_handleVisits {g : Guest} {fuel : Nat} {cpu cpu' : Cpu} {left depth at' : Nat} {mem mem' : Mem}
    (h : g.walk fuel cpu left depth mem ctx = some (.accepted at' cpu' mem')) :
    ∃ visits, g.handleVisits fuel cpu left depth mem ctx = some visits ∧ depth + visits.length = at' + 1 := by
  induction left generalizing depth mem ctx with
  | zero => cases h
  | succ left ih =>
    rw [Guest.walk] at h
    rw [Guest.handleVisits]
    dsimp only at h ⊢
    generalize (if depth > 0 then ctx.pc - 1#64 else ctx.pc) = controlPc at h ⊢
    cases hmod : g.findModuleByAddr controlPc with
    | none =>
      rw [hmod] at h
      cases h
    | some mod =>
      rw [hmod] at h
      dsimp only at h ⊢
      rcases hframe : unwindFrame fuel mem mod { ctx with pc := controlPc } with _ | ⟨ok, result, ctx₁⟩
      · rw [hframe] at h
        cases h
      cases ok with
      | false =>
        rw [hframe] at h
        cases h
      | true =>
        rw [hframe] at h
        dsimp only at h ⊢
        have hrest : ∀ mem, g.walk fuel cpu left (depth + 1) mem ctx₁ = some (.accepted at' cpu' mem') →
            ∃ visits, (g.handleVisits fuel cpu left (depth + 1) mem ctx₁).map (visitOf result :: ·) =
              some visits ∧ depth + visits.length = at' + 1 := by
          intro mem h
          obtain ⟨visits, hv, hlen⟩ := ih h
          refine ⟨visitOf result :: visits, by rw [hv]; rfl, ?_⟩
          rw [List.length_cons]
          omega
        split_ifs at h ⊢ with hquiet haccept hcont
        · exact hrest _ h
        · cases h
          exact ⟨_, rfl, rfl⟩
        · cases h
        · exact hrest _ h

/-! ## One frame, looked up at two addresses -/

def withPc (ctx : UnwindContext) (pc : Word) : UnwindContext := { ctx with pc }

def SameAt (info : UnwindInfo) (a b : Nat) : Prop :=
  (a < info.sizeOfProlog ↔ b < info.sizeOfProlog) ∧
    (a < info.sizeOfProlog → ∀ i ∈ codesOf info, a < codeOffset (info.codes i) ↔ b < codeOffset (info.codes i))

/-- The same codes have been executed at both addresses, in each entry of the function's chain. -/
def SameCodes (img : Image) (modAddr : Word) (func : RuntimeFunction) (pc pc' : Word) : Prop :=
  ∀ n, (∀ k < n, ¬ EndsWith img modAddr func pc ((fun rva => (img rva).chained)^[k] func.unwindInfoRva)) →
    SameAt (img ((fun rva => (img rva).chained)^[n] func.unwindInfoRva)) (rvaInFunc modAddr func pc)
      (rvaInFunc modAddr func pc')

section
variable {mem : Mem} {info : UnwindInfo}

theorem fromFrame_withPc (inProlog : Bool) (ctx : UnwindContext) (pc : Word) :
    fromFrame info inProlog (withPc ctx pc) = withPc (fromFrame info inProlog ctx) pc := by
  unfold fromFrame
  split <;> rfl

theorem applyCode_withPc (mem : Mem) (codes : Nat → Nat) (i : Nat) (ctx : UnwindContext) (pc : Word) :
    applyCode mem codes i (withPc ctx pc) = withPc (applyCode mem codes i ctx) pc := by
  unfold applyCode
  dsimp only
  split
  · rfl
  · split <;> rfl
  · rfl
  · rfl
  · rfl
  · rfl

/-- What the loop over the codes leaves when it begins with another pc: only a machine frame sets the pc. -/
def overPc (pc : Word) : UnwindContext × Bool → UnwindContext × Bool
  | (ctx, true) => (ctx, true)
  | (ctx, false) => (withPc ctx pc, false)

theorem applyCodes_withPc (inProlog : Bool) (rva fuel i : Nat) (ctx : UnwindContext) (pc : Word) :
    applyCodes mem info inProlog rva fuel i (withPc ctx pc) =
      overPc pc (applyCodes mem info inProlog rva fuel i ctx) := by
  induction fuel generalizing i ctx with
  | zero => rfl
  | succ fuel ih =>
    rw [applyCodes, applyCodes]
    split_ifs with hi
    · dsimp only
      split_ifs with hskip hop
      · exact ih _ ctx
      · rfl
      · rw [applyCode_withPc]
        exact ih _ _
    · rfl

theorem applyCodes_sameAt {a b : Nat} (h : SameAt info a b) (mem : Mem) (ctx : UnwindContext) :
    applyCodes mem info (decide (b < info.sizeOfProlog)) b info.unwindCodeCount 0 ctx =
      applyCodes mem info (decide (a < info.sizeOfProlog)) a info.unwindCodeCount 0 ctx := by
  have hskip : ∀ i ∈ applied info false 0 info.unwindCodeCount 0,
      (decide (b < info.sizeOfProlog) && decide (b < codeOffset (info.codes i))) =
        (decide (a < info.sizeOfProlog) && decide (a < codeOffset (info.codes i))) := by
    intro i hi
    rw [decide_eq_decide.mpr h.1.symm]
    by_cases ha : a < info.sizeOfProlog
    · rw [decide_eq_decide.mpr (h.2 ha i hi).symm]
    · simp [ha]
  have hloop : ∀ fuel i ctx, (∀ j ∈ applied info false 0 fuel i,
      (decide (b < info.sizeOfProlog) && decide (b < codeOffset (info.codes j))) =
        (decide (a < info.sizeOfProlog) && decide (a < codeOffset (info.codes j)))) →
      applyCodes mem info (decide (b < info.sizeOfProlog)) b fuel i ctx =
        applyCodes mem info (decide (a < info.sizeOfProlog)) a fuel i ctx := by
    intro fuel
    induction fuel with
    | zero => exact fun _ _ _ => rfl
    | succ fuel ih =>
      intro i ctx hsame
      rw [applied] at hsame
      rw [applyCodes, applyCodes]
      split_ifs at hsame ⊢ with hi
      · dsimp only at hsame ⊢
        by_cases hepi : codeOp (info.codes i) = .epilog
        · -- a code of an epilogue does nothing, skipped or not
          have hnone : applyCode mem info.codes i ctx = ctx := by simp [applyCode, hepi]
          simp only [hepi, decide_true, Bool.or_true, if_true] at hsame
          simp only [hepi, hnone, reduceCtorEq, if_false, ite_self]
          exact ih _ _ hsame
        · simp only [hepi, decide_false, Bool.or_false, Bool.false_and, Bool.false_eq_true, if_false] at hsame
          rw [hsame i (List.mem_cons_self ..)]
          have hrest : ∀ j ∈ applied info false 0 fuel (i + codeSlots (info.codes i)), _ :=
            fun j hj => hsame j (List.mem_cons_of_mem _ hj)
          split_ifs with hskip hop
          · exact ih _ _ hrest
          · rfl
          · exact ih _ _ hrest
      · rfl
  exact hloop _ _ _ hskip

end

section
variable {img : Image} {mem : Mem} {modAddr : Word} {func : RuntimeFunction}

theorem endsWith_sameAt {rva : Nat} {pc pc' : Word}
    (h : SameAt (img rva) (rvaInFunc modAddr func pc) (rvaInFunc modAddr func pc')) :
    EndsWith img modAddr func pc' rva ↔ EndsWith img modAddr func pc rva := by
  have hloop := congrArg Prod.snd (applyCodes_sameAt h (fun _ => 0) ⟨0, 0, fun _ => 0, fun _ => 0⟩)
  rw [applyCodes_snd, applyCodes_snd] at hloop
  unfold EndsWith
  dsimp only
  rw [hloop]

/-- What an entry that does not end the chain does to the context, at another pc. -/
theorem entryContext_withPc {rva : Nat} {pc : Word}
    (h : SameAt (img rva) (rvaInFunc modAddr func ctx.pc) (rvaInFunc modAddr func pc))
    (hend : ¬ EndsWith img modAddr func ctx.pc rva) :
    entryContext img mem modAddr func rva (withPc ctx pc) = withPc (entryContext img mem modAddr func rva ctx) pc := by
  obtain ⟨hframed, -⟩ := not_or.mp hend
  have hin : decide (rvaInFunc modAddr func ctx.pc < (img rva).sizeOfProlog) =
      decide (rvaInFunc modAddr func pc < (img rva).sizeOfProlog) := decide_eq_decide.mpr h.1
  unfold entryContext
  dsimp only
  rw [show (withPc ctx pc).pc = pc from rfl, applyCodes_sameAt h, ← hin, fromFrame_withPc, applyCodes_withPc]
  have hsnd := @applyCodes_snd mem (img rva) (decide (rvaInFunc modAddr func ctx.pc < (img rva).sizeOfProlog))
    (rvaInFunc modAddr func ctx.pc) (img rva).unwindCodeCount 0
    (fromFrame (img rva) (decide (rvaInFunc modAddr func ctx.pc < (img rva).sizeOfProlog)) ctx)
  rw [Bool.eq_false_iff.mpr hframed] at hsnd
  generalize applyCodes mem (img rva) _ _ _ 0 _ = r at hsnd ⊢
  obtain ⟨ctx', _⟩ := r
  cases hsnd
  rfl

theorem applyUnwindInfo_end_withPc {rva : Nat} {pc : Word}
    (h : SameAt (img rva) (rvaInFunc modAddr func ctx.pc) (rvaInFunc modAddr func pc))
    (hend : EndsWith img modAddr func ctx.pc rva) (fuel : Nat) :
    applyUnwindInfo img mem modAddr func (fuel + 1) rva (withPc ctx pc) =
      applyUnwindInfo img mem modAddr func (fuel + 1) rva ctx := by
  have hin : decide (rvaInFunc modAddr func ctx.pc < (img rva).sizeOfProlog) =
      decide (rvaInFunc modAddr func pc < (img rva).sizeOfProlog) := decide_eq_decide.mpr h.1
  have hloop := applyCodes_sameAt h mem
  have hsnd := @applyCodes_snd mem (img rva) (decide (rvaInFunc modAddr func ctx.pc < (img rva).sizeOfProlog))
    (rvaInFunc modAddr func ctx.pc) (img rva).unwindCodeCount 0
    (fromFrame (img rva) (decide (rvaInFunc modAddr func ctx.pc < (img rva).sizeOfProlog)) ctx)
  unfold EndsWith at hend
  unfold rvaInFunc at hin hloop hsnd hend
  rw [applyUnwindInfo, applyUnwindInfo]
  dsimp only at hend ⊢
  rw [show (withPc ctx pc).pc = pc from rfl, ← hin, fromFrame_withPc, hin, hloop, applyCodes_withPc, ← hin]
  rw [← hsnd] at hend
  generalize applyCodes mem (img rva) _ _ _ 0 _ = r at hend ⊢
  obtain ⟨ctx', _ | _⟩ := r
  · obtain hflag := hend.resolve_left Bool.false_ne_true
    simp only [overPc, hflag, Bool.false_eq_true, if_false]
    rfl
  · rfl

/-- An unwinding that executes the same codes at another pc has the same outcome. -/
theorem applyUnwindInfo_withPc {fuel rva : Nat} {pc : Word}
    (h : ∀ n, (∀ k < n, ¬ EndsWith img modAddr func ctx.pc ((fun rva => (img rva).chained)^[k] rva)) →
      SameAt (img ((fun rva => (img rva).chained)^[n] rva)) (rvaInFunc modAddr func ctx.pc)
        (rvaInFunc modAddr func pc)) :
    applyUnwindInfo img mem modAddr func fuel rva (withPc ctx pc) =
      applyUnwindInfo img mem modAddr func fuel rva ctx := by
  induction fuel generalizing rva ctx with
  | zero => rfl
  | succ fuel ih =>
    have hsame : SameAt (img rva) (rvaInFunc modAddr func ctx.pc) (rvaInFunc modAddr func pc) :=
      h 0 fun _ hk => absurd hk (Nat.not_lt_zero _)
    by_cases hend : EndsWith img modAddr func ctx.pc rva
    · exact applyUnwindInfo_end_withPc hsame hend fuel
    · have hend' : ¬ EndsWith img modAddr func (withPc ctx pc).pc rva := mt (endsWith_sameAt hsame).mp hend
      rw [applyUnwindInfo_parent hend, applyUnwindInfo_parent hend', entryContext_withPc hsame hend]
      apply ih
      rw [entryContext_pc hend]
      intro n hn
      apply h (n + 1)
      intro k hk
      cases k with
      | zero => exact hend
      | succ k => exact hn k (Nat.lt_of_succ_lt_succ hk)

end

/-! ## The two walks -/

/-- What the walkers look up for an address: nothing outside of the images, and no function in a leaf. -/
def Guest.found (g : Guest) (pc : Word) : Option (Option (Module × RuntimeFunction)) :=
  (g.findModuleByAddr pc).map fun mod => (lookupFunctionEntry mod pc).map fun func => (mod, func)

/-- The return address of a frame and the byte before lie in one function, with the same codes executed. -/
structure Guest.InStep (g : Guest) (ctx : UnwindContext) : Prop where
  found : g.found ctx.pc = g.found (ctx.pc - 1#64)
  codes : ∀ mod func, g.found ctx.pc = some (some (mod, func)) →
    SameCodes mod.img mod.addr func ctx.pc (ctx.pc - 1#64)

def Guest.ReadsIn (g : Guest) (P : Word → Prop) (mem : Mem) (ctx : UnwindContext) : Prop :=
  ∀ mem', Keeps P mem mem' → ∀ fuel, g.pass mem' fuel ctx = g.pass mem fuel ctx ∧
    g.pass mem' fuel (withPc ctx (ctx.pc - 1#64)) = g.pass mem fuel (withPc ctx (ctx.pc - 1#64))

/-- Different functions have their entries at different addresses, none of them null. -/
def Guest.Distinct (g : Guest) : Prop := ∀ pc pc' x y, g.found pc = some x → g.found pc' = some y →
  x.elim 0 (fun f => functionEntryAddr f.1 f.2) = y.elim 0 (fun f => functionEntryAddr f.1 f.2) → x = y

section
variable {g : Guest} {mem : Mem} {P : Word → Prop} {cpu : Cpu} {fuel : Nat}

variable {ctx : UnwindContext}

theorem pass_found {ctx' : UnwindContext} {result : UnwindResult}
    (h : g.pass mem fuel ctx = some (some (result, ctx'))) :
    ∃ x, g.found ctx.pc = some x ∧ result.functionEntry = x.elim 0 fun f => functionEntryAddr f.1 f.2 := by
  unfold Guest.pass at h
  unfold Guest.found
  cases hmod : g.findModuleByAddr ctx.pc with
  | none =>
    rw [hmod] at h
    cases h
  | some mod =>
    rw [hmod] at h
    refine ⟨(lookupFunctionEntry mod ctx.pc).map fun func => (mod, func), rfl, ?_⟩
    unfold unwindFrame at h
    dsimp only at h
    cases hfunc : lookupFunctionEntry mod ctx.pc with
    | none =>
      rw [hfunc] at h
      dsimp only at h
      cases hret : decide (read64 mem ctx.sp ≠ 0) with
      | false =>
        rw [hret] at h
        cases h
      | true =>
        rw [hret] at h
        cases h
        rfl
    | some func =>
      rw [hfunc] at h
      dsimp only at h
      cases happly : applyUnwindInfo mod.img mem mod.addr func fuel func.unwindInfoRva ctx with
      | none =>
        rw [happly] at h
        cases h
      | some r =>
        rw [happly] at h
        cases h
        rfl

theorem Guest.InStep.pass (h : g.InStep ctx) :
    g.pass mem fuel (withPc ctx (ctx.pc - 1#64)) = g.pass mem fuel ctx := by
  have hfound := h.found
  have hcodes := h.codes
  unfold Guest.found at hfound hcodes
  unfold Guest.pass
  rw [show (withPc ctx (ctx.pc - 1#64)).pc = ctx.pc - 1#64 from rfl]
  cases hmod : g.findModuleByAddr ctx.pc with
  | none =>
    rw [hmod] at hfound
    rw [Option.map_eq_none_iff.mp hfound.symm]
  | some mod =>
    rw [hmod] at hfound hcodes
    obtain ⟨mod', hmod', heq⟩ := Option.map_eq_some_iff.mp hfound.symm
    rw [hmod']
    dsimp only at heq ⊢
    have hframe : unwindFrame fuel mem mod' (withPc ctx (ctx.pc - 1#64)) = unwindFrame fuel mem mod ctx := by
      unfold unwindFrame
      rw [show (withPc ctx (ctx.pc - 1#64)).pc = ctx.pc - 1#64 from rfl]
      cases hfunc : lookupFunctionEntry mod ctx.pc with
      | none =>
        rw [hfunc] at heq
        rw [Option.map_eq_none_iff.mp heq]
        rfl
      | some func =>
        rw [hfunc] at heq
        obtain ⟨func', hfunc', hpair⟩ := Option.map_eq_some_iff.mp heq
        obtain ⟨rfl, rfl⟩ := Prod.mk.inj hpair
        rw [hfunc']
        have hsame := hcodes mod' func' (by rw [Option.map_some, hfunc]; rfl)
        dsimp only
        rw [applyUnwindInfo_withPc hsame]
    rw [hframe]

theorem walkVisits_cons {left : Nat} {v : Visit} {visits : List Visit}
    (h : g.walkVisits mem fuel left ctx = some (v :: visits)) :
    ∃ left' result ctx', g.pass mem fuel ctx = some (some (result, ctx')) ∧ v = visitOf result ∧
      g.walkVisits mem fuel left' ctx' = some visits := by
  cases left with
  | zero => cases h
  | succ left =>
    rw [Guest.walkVisits] at h
    split at h
    · cases h
    · cases h
    · rename_i result ctx' hpass
      obtain ⟨rest, hrest, heq⟩ := Option.map_eq_some_iff.mp h
      obtain ⟨rfl, rfl⟩ := List.cons.inj heq
      exact ⟨left, result, ctx', hpass, rfl, hrest⟩

theorem handleVisits_cons (hg : g.Leaves P) (hP : ∀ x, P x → Above (cpu.gp rsp) x) {left depth : Nat}
    {v : Visit} {visits : List Visit} (h : g.handleVisits fuel cpu left depth mem ctx = some (v :: visits)) :
    ∃ result ctx', g.pass mem fuel (withPc ctx (if depth > 0 then ctx.pc - 1#64 else ctx.pc)) =
        some (some (result, ctx')) ∧ v = visitOf result ∧
      (visits = [] ∨ ∃ left' mem', Keeps P mem mem' ∧
        g.handleVisits fuel cpu left' (depth + 1) mem' ctx' = some visits) := by
  cases left with
  | zero => cases h
  | succ left =>
    rw [Guest.handleVisits] at h
    dsimp only at h
    generalize (if depth > 0 then ctx.pc - 1#64 else ctx.pc) = controlPc at h ⊢
    split at h
    · cases h
    · rename_i mod hmod
      split at h
      · cases h
      · cases h
      · rename_i result ctx' hframe
        refine ⟨result, ctx', ?_, ?_⟩
        · unfold Guest.pass
          rw [show (withPc ctx controlPc).pc = controlPc from rfl, hmod]
          dsimp only
          rw [show withPc ctx controlPc = { ctx with pc := controlPc } from rfl, hframe]
        have hrest : ∀ mem', Keeps P mem mem' →
            (g.handleVisits fuel cpu left (depth + 1) mem' ctx').map (visitOf result :: ·) =
              some (v :: visits) → v = visitOf result ∧ (visits = [] ∨ ∃ left' mem', Keeps P mem mem' ∧
                g.handleVisits fuel cpu left' (depth + 1) mem' ctx' = some visits) := by
          intro mem' hkeeps h
          obtain ⟨rest, hrest, heq⟩ := Option.map_eq_some_iff.mp h
          obtain ⟨rfl, rfl⟩ := List.cons.inj heq
          exact ⟨rfl, .inr ⟨left, mem', hkeeps, hrest⟩⟩
        have hask := ask_keeps hg (cpu.gp rsp) hP controlPc mod result mem
        split_ifs at h with hquiet haccept hcont
        · exact hrest mem (fun _ _ => rfl) h
        · cases h
          exact ⟨rfl, .inl rfl⟩
        · cases h
          exact ⟨rfl, .inl rfl⟩
        · exact hrest _ hask h

theorem Guest.ReadsIn.pass (h : g.ReadsIn P mem ctx) {mem' : Mem} (hmem : Keeps P mem mem')
    (depth : Nat) : g.pass mem' fuel (withPc ctx (if depth > 0 then ctx.pc - 1#64 else ctx.pc)) =
      g.pass mem fuel (withPc ctx (if depth > 0 then ctx.pc - 1#64 else ctx.pc)) := by
  split
  · exact (h mem' hmem fuel).2
  · exact (h mem' hmem fuel).1

/-- As long as every frame above the first is in step, the walkers see their frames in the same contexts. -/
theorem lockstep (hg : g.Leaves P) (hP : ∀ x, P x → Above (cpu.gp rsp) x) {n left left' depth : Nat}
    {mem' : Mem} (hmem : Keeps P mem mem') {ws hs : List Visit} {v w : Visit}
    (hw : g.walkVisits mem fuel left ctx = some ws) (hh : g.handleVisits fuel cpu left' depth mem' ctx = some hs)
    (hv : ws[n]? = some v) (hv' : hs[n]? = some w)
    (hreads : ∀ j ctx', g.Reaches mem j ctx ctx' → g.ReadsIn P mem ctx')
    (hstep : ∀ j ctx', j < n → 0 < depth + j → g.Reaches mem j ctx ctx' → g.InStep ctx') :
    ∃ ctx' r c r' c', g.Reaches mem n ctx ctx' ∧ g.pass mem fuel ctx' = some (some (r, c)) ∧
      v = visitOf r ∧
      g.pass mem fuel (withPc ctx' (if depth + n > 0 then ctx'.pc - 1#64 else ctx'.pc)) =
        some (some (r', c')) ∧ w = visitOf r' := by
  have hcons : ∀ {l : List Visit} {k : Nat} {x : Visit}, l[k]? = some x → ∃ a rest, l = a :: rest := by
    intro l k x hx
    cases l with
    | nil => cases hx
    | cons a rest => exact ⟨a, rest, rfl⟩
  induction n generalizing left left' depth mem' ctx ws hs with
  | zero =>
    obtain ⟨v₀, ws, rfl⟩ := hcons hv
    obtain ⟨w₀, hs, rfl⟩ := hcons hv'
    obtain ⟨left₁, r, c, hpass, hvr, -⟩ := walkVisits_cons hw
    obtain ⟨r', c', hpass', hwr, -⟩ := handleVisits_cons hg hP hh
    rw [(hreads 0 ctx (.here ctx)).pass hmem depth] at hpass'
    obtain rfl := Option.some.inj hv
    obtain rfl := Option.some.inj hv'
    exact ⟨ctx, r, c, r', c', .here ctx, hpass, hvr, hpass', hwr⟩
  | succ n ih =>
    obtain ⟨v₀, ws, rfl⟩ := hcons hv
    obtain ⟨w₀, hs, rfl⟩ := hcons hv'
    obtain ⟨left₁, r, c, hpass, -, hw'⟩ := walkVisits_cons hw
    obtain ⟨r', c', hpass', -, hrest⟩ := handleVisits_cons hg hP hh
    rw [(hreads 0 ctx (.here ctx)).pass hmem depth] at hpass'
    -- both have unwound the first frame to the same context
    have hsame : g.pass mem fuel (withPc ctx (if depth > 0 then ctx.pc - 1#64 else ctx.pc)) =
        g.pass mem fuel ctx := by
      split
      · exact (hstep 0 ctx (Nat.succ_pos n) (by omega) (.here ctx)).pass
      · rfl
    rw [hsame, hpass] at hpass'
    obtain ⟨rfl, rfl⟩ := Prod.mk.inj (Option.some.inj (Option.some.inj hpass'))
    obtain rfl | ⟨left₂, mem₁, hmem₁, hh'⟩ := hrest
    · cases hv'
    obtain ⟨ctx', r₂, c₂, r₂', c₂', hreach, hrest⟩ := ih (hmem.trans hmem₁) hw' hh' hv hv'
      (fun j ctx' hj => hreads (j + 1) ctx' (.up hpass hj))
      (fun j ctx' hj hpos hreach => hstep (j + 1) ctx' (by omega) (by omega) (.up hpass hreach))
    rw [show depth + 1 + n = depth + (n + 1) by omega] at hrest
    exact ⟨ctx', r₂, c₂, r₂', c₂', .up hpass hreach, hrest⟩

end

/-- **The two walkers see the same frames as long as they are in step.** When every frame above the first that both of
them see has its return address and the byte before in one function, with no code between them, they see the same;
and when they see the same, the first return address where that ends is not one that begins another function. -/
theorem walkers_agree (g : Guest) (P : Word → Prop) (hg : g.Leaves P) (cpu : Cpu)
    (hP : ∀ x, P x → Above (cpu.gp rsp) x) (mem : Mem) (ctx : UnwindContext)
    (hreads : ∀ n ctx', g.Reaches mem n ctx ctx' → g.ReadsIn P mem ctx') (fuel maxFrames left : Nat)
    (ws hs : List Visit) (hw : g.walkVisits mem fuel maxFrames ctx = some ws)
    (hh : g.handleVisits fuel cpu left 0 mem ctx = some hs) :
    ((∀ n ctx', 0 < n → n < ws.length → n < hs.length → g.Reaches mem n ctx ctx' → g.InStep ctx') →
      ∀ n, n < ws.length → n < hs.length → ws[n]? = hs[n]?) ∧
    (g.Distinct → (∀ n, n < ws.length → n < hs.length → ws[n]? = hs[n]?) →
      ∀ n ctx', 0 < n → n < ws.length → n < hs.length →
        (∀ j ctx', 0 < j → j < n → g.Reaches mem j ctx ctx' → g.InStep ctx') →
        g.Reaches mem n ctx ctx' → g.found ctx'.pc = g.found (ctx'.pc - 1#64)) := by
  constructor
  · intro hstep n hn hn'
    rw [List.getElem?_eq_getElem hn, List.getElem?_eq_getElem hn']
    obtain ⟨ctx', r, c, r', c', hreach, hpass, hv, hpass', hw'⟩ := lockstep hg hP (fun _ _ => rfl) hw hh
      (List.getElem?_eq_getElem hn) (List.getElem?_eq_getElem hn') hreads
      (fun j ctx' hj hpos hreach => hstep j ctx' (by omega) (by omega) (by omega) hreach)
    have hsame : g.pass mem fuel (withPc ctx' (if 0 + n > 0 then ctx'.pc - 1#64 else ctx'.pc)) =
        g.pass mem fuel ctx' := by
      split
      · exact (hstep n ctx' (by omega) hn hn' hreach).pass
      · rfl
    rw [hsame, hpass] at hpass'
    obtain ⟨rfl, rfl⟩ := Prod.mk.inj (Option.some.inj (Option.some.inj hpass'))
    rw [hv, hw']
  · intro hdistinct hagree n ctx' hpos hn hn' hstep hreach
    obtain ⟨ctx'', r, c, r', c', hreach', hpass, hv, hpass', hw'⟩ := lockstep hg hP (fun _ _ => rfl) hw hh
      (List.getElem?_eq_getElem hn) (List.getElem?_eq_getElem hn') hreads
      (fun j ctx' hj hj' => hstep j ctx' (by omega) hj)
    obtain rfl := hreach.unique hreach'
    rw [if_pos (by omega)] at hpass'
    obtain ⟨x, hx, hentry⟩ := pass_found hpass
    obtain ⟨y, hy, hentry'⟩ := pass_found hpass'
    have hvisit := hagree n hn hn'
    rw [List.getElem?_eq_getElem hn, List.getElem?_eq_getElem hn', hv, hw'] at hvisit
    have heq : r.functionEntry = r'.functionEntry := congrArg Visit.functionEntry (Option.some.inj hvisit)
    rw [hentry, hentry'] at heq
    rw [hx, show g.found (ctx'.pc - 1#64) = some y from hy, hdistinct _ _ x y hx hy heq]

def bareInfo : UnwindInfo where
  sizeOfProlog := 0
  unwindCodeCount := 0
  codes _ := 0

def adjacentModule : Module :=
  ⟨0x400000, 0x10000, fun _ => bareInfo, 0x5000, [⟨0x1000, 0x1010, 0⟩, ⟨0x1010, 0x1020, 0⟩, ⟨0x1020, 0x1030, 0⟩]⟩

def adjacent : Guest where
  modules := [adjacentModule]
  call _ _ _ mem := (mem, 0)
  isCSpecificHandler _ := false
  trampoline := 0
  record _ := 0
  context _ := 0

def adjacentCpu : Cpu := ⟨0x401024, fun _ => 0x10000⟩

def calledFrom (ret : Word) : Mem := write64 (fun _ => 0) 0x10000 ret

theorem adjacent_pass {mem mem' : Mem} {fuel : Nat} (h : read64 mem' ctx.sp = read64 mem ctx.sp) :
    adjacent.pass mem' fuel ctx = adjacent.pass mem fuel ctx := by
  unfold Guest.pass
  cases hmod : adjacent.findModuleByAddr ctx.pc with
  | none => rfl
  | some mod =>
    obtain rfl := List.mem_singleton.mp (List.mem_of_find?_eq_some hmod)
    dsimp only
    have hframe : ∀ mod : Module, mod.img = (fun _ => bareInfo) →
        unwindFrame fuel mem' mod ctx = unwindFrame fuel mem mod ctx := by
      intro mod himg
      unfold unwindFrame
      cases lookupFunctionEntry mod ctx.pc with
      | none =>
        dsimp only
        rw [h]
      | some func =>
        dsimp only
        rw [himg]
        cases fuel with
        | zero => rfl
        | succ fuel => simp [applyUnwindInfo, bareInfo, applyCodes, fromFrame, h]
    rw [hframe _ rfl]

theorem adjacent_next {mem : Mem} {fuel : Nat} {ctx' : UnwindContext} {result : UnwindResult}
    (h : adjacent.pass mem fuel ctx = some (some (result, ctx'))) :
    ctx'.pc = read64 mem ctx.sp ∧ ctx'.sp = ctx.sp + 8#64 := by
  unfold Guest.pass at h
  cases hmod : adjacent.findModuleByAddr ctx.pc with
  | none =>
    rw [hmod] at h
    cases h
  | some mod =>
    obtain rfl := List.mem_singleton.mp (List.mem_of_find?_eq_some hmod)
    rw [hmod] at h
    dsimp only at h
    unfold unwindFrame at h
    split at h
    · cases h
    · cases h
    · rename_i hframe
      cases h
      split at hframe
      · obtain ⟨-, hrest⟩ := Prod.mk.inj (Option.some.inj hframe)
        obtain ⟨-, rfl⟩ := Prod.mk.inj hrest
        exact ⟨rfl, rfl⟩
      · obtain ⟨r, happly, hr⟩ := Option.map_eq_some_iff.mp hframe
        cases hr
        cases fuel with
        | zero => cases happly
        | succ fuel =>
          simp only [applyUnwindInfo, adjacentModule, bareInfo, applyCodes, fromFrame, ne_eq, not_true_eq_false,
            false_and, if_false, Bool.false_eq_true, Option.some.injEq] at happly
          rw [← happly]
          exact ⟨rfl, rfl⟩

/-- The contexts of the walk from the third function, called in the middle of the first. -/
theorem adjacent_reaches {n : Nat} {ctx' : UnwindContext} (h : adjacent.Reaches (calledFrom 0x401008) n ctx ctx')
    (hctx : ctx.pc = 0x401024 ∧ ctx.sp = 0x10000 ∨ ctx.pc = 0x401008 ∧ ctx.sp = 0x10008 ∨ ctx.pc = 0) :
    ctx'.pc = 0x401024 ∧ ctx'.sp = 0x10000 ∨ ctx'.pc = 0x401008 ∧ ctx'.sp = 0x10008 ∨ ctx'.pc = 0 := by
  induction h with
  | here => exact hctx
  | @up n fuel ctx ctx₁ _ result hpass _ ih =>
    apply ih
    obtain ⟨hpc, hsp⟩ := adjacent_next hpass
    rcases hctx with ⟨-, h⟩ | ⟨-, h⟩ | h
    · rw [hpc, hsp, h]
      exact .inr (.inl (by decide))
    · rw [hpc, h]
      exact .inr (.inr (by decide))
    · rw [Guest.pass, h] at hpass
      cases hpass

def returnSlots (x : Word) : Prop := (x - 0x10000).toNat < 16

theorem adjacent_readsIn {mem : Mem}
    (h : ctx.pc = 0x401024 ∧ ctx.sp = 0x10000 ∨ ctx.pc = 0x401008 ∧ ctx.sp = 0x10008 ∨ ctx.pc = 0) :
    adjacent.ReadsIn returnSlots mem ctx := by
  intro mem' hkeeps fuel
  have hread : ∀ a : Word, (∀ i < 8, returnSlots (a + BitVec.ofNat 64 i)) → read64 mem' a = read64 mem a :=
    fun a ha => read64_congr fun i hi => hkeeps _ (ha i hi)
  rcases h with ⟨-, hsp⟩ | ⟨-, hsp⟩ | hpc
  · have := hread ctx.sp (by rw [hsp]; unfold returnSlots; decide)
    exact ⟨adjacent_pass this, adjacent_pass this⟩
  · have := hread ctx.sp (by rw [hsp]; unfold returnSlots; decide)
    exact ⟨adjacent_pass this, adjacent_pass this⟩
  · unfold Guest.pass
    rw [show (withPc ctx (ctx.pc - 1#64)).pc = ctx.pc - 1#64 from rfl, hpc]
    exact ⟨rfl, rfl⟩

/-- Called in the middle of the first function. -/
theorem adjacent_agree : ∃ ws hs,
    adjacent.walkVisits (calledFrom 0x401008) 1 64 (contextFromVcpu adjacentCpu.gp adjacentCpu.pc) = some ws ∧
    adjacent.handleVisits 1 adjacentCpu 64 0 (calledFrom 0x401008)
      (contextFromVcpu adjacentCpu.gp adjacentCpu.pc) = some hs ∧ ws.length = 2 ∧ hs.length = 2 ∧
    ∀ n, n < ws.length → n < hs.length → ws[n]? = hs[n]? := by
  have hw : adjacent.walkVisits (calledFrom 0x401008) 1 64
      (contextFromVcpu adjacentCpu.gp adjacentCpu.pc) =
        some [⟨0x405018, 0x10000⟩, ⟨0x405000, 0x10008⟩] := by decide
  have hh : adjacent.handleVisits 1 adjacentCpu 64 0 (calledFrom 0x401008)
      (contextFromVcpu adjacentCpu.gp adjacentCpu.pc) =
        some [⟨0x405018, 0x10000⟩, ⟨0x405000, 0x10008⟩] := by decide
  refine ⟨_, _, hw, hh, rfl, rfl, ?_⟩
  apply (walkers_agree adjacent returnSlots (fun _ _ _ _ _ _ => rfl) adjacentCpu
    (fun x hx => Nat.lt_trans hx (by decide)) (calledFrom 0x401008) _
    (fun n ctx' hreach => adjacent_readsIn (adjacent_reaches hreach (.inl ⟨rfl, rfl⟩))) 1 64 64 _ _ hw hh).1
  intro n ctx' hpos hn _ hreach
  obtain rfl : n = 1 := by
    simp only [List.length_cons, List.length_nil] at hn
    omega
  cases hreach with
  | up hpass rest =>
    cases rest
    obtain ⟨hpc, -⟩ := adjacent_next hpass
    rw [show read64 (calledFrom 0x401008) (contextFromVcpu adjacentCpu.gp adjacentCpu.pc).sp = 0x401008 by decide]
      at hpc
    have hfunc : lookupFunctionEntry adjacentModule 0x401008 = some ⟨0x1000, 0x1010, 0⟩ := by decide
    have hfunc' : lookupFunctionEntry adjacentModule (0x401008 - 1#64) = some ⟨0x1000, 0x1010, 0⟩ := by decide
    have hfound : adjacent.found 0x401008 = some (some (adjacentModule, ⟨0x1000, 0x1010, 0⟩)) := by
      rw [Guest.found, show adjacent.findModuleByAddr 0x401008 = some adjacentModule from rfl, Option.map_some,
        hfunc]
      rfl
    have hfound' : adjacent.found (0x401008 - 1#64) = some (some (adjacentModule, ⟨0x1000, 0x1010, 0⟩)) := by
      rw [Guest.found, show adjacent.findModuleByAddr (0x401008 - 1#64) = some adjacentModule from rfl,
        Option.map_some, hfunc']
      rfl
    refine ⟨by rw [hpc, hfound, hfound'], fun mod func h n _ => ?_⟩
    have himg : mod.img = fun _ => bareInfo := by
      rw [hpc, hfound] at h
      obtain ⟨rfl, -⟩ := Prod.mk.inj (Option.some.inj (Option.some.inj h))
      rfl
    rw [himg]
    exact ⟨by simp [bareInfo], fun h => absurd h (Nat.not_lt_zero _)⟩

/-- Called by the last instruction of the first function, whose return address begins the second. -/
theorem adjacent_apart :
    adjacent.walkVisits (calledFrom 0x401010) 1 64 (contextFromVcpu adjacentCpu.gp adjacentCpu.pc) =
        some [⟨0x405018, 0x10000⟩, ⟨0x40500C, 0x10008⟩] ∧
      adjacent.handleVisits 1 adjacentCpu 64 0 (calledFrom 0x401010)
        (contextFromVcpu adjacentCpu.gp adjacentCpu.pc) =
          some [⟨0x405018, 0x10000⟩, ⟨0x405000, 0x10008⟩] := by
  decide

end Kernemul.Unwind.X64
