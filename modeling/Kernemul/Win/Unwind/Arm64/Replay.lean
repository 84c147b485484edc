import Kernemul.Win.Unwind.Arm64.Stops

/-!
# What a replay loads

A replay takes a `save_next` to go on from the code replayed before it, which is the instruction *after*
it in the prologue. `loads` lists where a replay then loads every register from. It undoes a prologue
exactly when it still finds every register where it was saved, and leaves x29 alone until the stack
pointer has been taken from it (`Paired`).
-/

namespace Kernemul.Unwind.Arm64

open Stack

def ctxReg (ctx : UnwindContext) : Reg → Word
  | .x n => ctx.gp n
  | .d n => ctx.fpRegs n

def Reg.Tracked : Reg → Prop
  | x n => n < maxGp
  | d n => n < maxFp

instance (r : Reg) : Decidable r.Tracked :=
  match r with
  | .x n => inferInstanceAs (Decidable (n < maxGp))
  | .d n => inferInstanceAs (Decidable (n < maxFp))

theorem Reg.CalleeSaved.tracked {r : Reg} (h : r.CalleeSaved) : r.Tracked := by
  cases r with
  | x n => exact Nat.lt_succ_of_le h.2
  | d n => exact h

def Op.mark (last : Pair) : Op → Pair
  | saveRegp x z => ⟨false, 19 + x, z * 8⟩
  | saveRegpX x _ => ⟨false, 19 + x, 0⟩
  | saveFregp x z => ⟨true, x, z * 8⟩
  | saveFregpX x _ => ⟨true, x, 0⟩
  | saveNext => last.next
  | _ => last

def replayList (mem : Mem) : List Op → UnwindContext → Pair → UnwindContext × Pair
  | [], ctx, last => (ctx, last)
  | op :: cs, ctx, last => replayList mem cs (op.replay mem ctx last).1 (op.replay mem ctx last).2

/-- Where a replay that begins `d` below the entry loads registers from. -/
def loadsFrom (d : Int) (last : Pair) : List Op → List (Reg × Int)
  | [] => []
  | op :: cs =>
    ((op.stores last.next).filter fun e => decide e.1.Tracked).map (fun e => (e.1, d - e.2)) ++
      loadsFrom (d - op.drop) (op.mark last) cs

def loads (cs : List Op) : List (Reg × Int) := loadsFrom (depth cs) firstPair cs

/-- Each register is loaded, by some code, from where it was saved; and x29 is not loaded before the stack
pointer is taken from it. -/
structure Paired (cs : List Op) : Prop where
  found : ∀ e ∈ saves cs, e ∈ loads cs
  x29 : ∀ post op pre, cs = post ++ op :: pre → op.fp?.isSome = true →
    x29 ∉ (loadsFrom (depth cs) firstPair post).map Prod.fst

/-! ## One code -/

section
variable (mem : Mem)

def loadAll (ctx : UnwindContext) (l : List (Reg × Nat)) : UnwindContext :=
  l.foldl (fun ctx e => match e.1 with
    | .x n => loadReg mem ctx n e.2
    | .d n => loadFp mem ctx n e.2) ctx

theorem loadPair_eq (ctx : UnwindContext) (reg off : Nat) :
    loadPair mem ctx reg off = loadAll mem ctx (Pair.stores ⟨false, reg, off⟩) := by
  unfold loadPair loadAll Pair.stores
  by_cases hfp : reg = regFp
  · rw [if_pos hfp, hfp]
    rfl
  · rw [if_neg hfp]
    rfl

theorem loadFpPair_eq (ctx : UnwindContext) (reg off : Nat) :
    loadFpPair mem ctx reg off = loadAll mem ctx (Pair.stores ⟨true, reg, off⟩) := rfl

theorem loadReg_eq (ctx : UnwindContext) (reg off : Nat) :
    loadReg mem ctx reg off = loadAll mem ctx [(.x reg, off)] := rfl

theorem loadFp_eq (ctx : UnwindContext) (reg off : Nat) :
    loadFp mem ctx reg off = loadAll mem ctx [(.d reg, off)] := rfl

theorem loadAll_append (ctx : UnwindContext) (l l' : List (Reg × Nat)) :
    loadAll mem (loadAll mem ctx l) l' = loadAll mem ctx (l ++ l') := List.foldl_append.symm

theorem loadAll_nil (ctx : UnwindContext) : loadAll mem ctx [] = ctx := rfl

theorem addSp_zero (ctx : UnwindContext) : addSp ctx 0 = ctx := by simp [addSp]

theorem replay_eq (op : Op) (ctx : UnwindContext) (last : Pair) :
    op.replay mem ctx last = (match op.fp? with
      | some k => { loadAll mem ctx (op.stores last.next) with
          sp := (loadAll mem ctx (op.stores last.next)).gp regFp - BitVec.ofNat 64 k }
      | none => addSp (loadAll mem ctx (op.stores last.next)) op.drop, op.mark last) := by
  cases op
  case saveNext =>
    obtain ⟨lfp, lreg, loff⟩ := last
    cases lfp <;>
      simp [Op.replay, Op.fp?, Op.drop, Op.stores, Op.mark, Pair.next, addSp_zero, loadPair_eq,
        loadFpPair_eq]
  all_goals
    simp only [Op.replay, Op.fp?, Op.drop, Op.stores, Op.mark, loadPair_eq, loadFpPair_eq, loadReg_eq,
      loadFp_eq, loadAll_append, loadAll_nil, addSp_zero, BitVec.sub_zero, List.cons_append,
      List.nil_append]

theorem loadAll_sp (ctx : UnwindContext) (l : List (Reg × Nat)) :
    (loadAll mem ctx l).sp = ctx.sp := by
  induction l generalizing ctx with
  | nil => rfl
  | cons e l ih =>
    refine (ih _).trans ?_
    obtain ⟨r, off⟩ := e
    cases r with
    | x n =>
      dsimp only
      unfold loadReg
      split <;> rfl
    | d n =>
      dsimp only
      unfold loadFp
      split <;> rfl

theorem loadReg_reg (ctx : UnwindContext) (n off : Nat) : ctxReg (loadReg mem ctx n off) =
    if (Reg.x n).Tracked then
      Function.update (ctxReg ctx) (.x n) (read64 mem (ctx.sp + BitVec.ofNat 64 off))
    else ctxReg ctx := by
  by_cases hn : n < maxGp
  · rw [loadReg, if_pos hn, if_pos (show (Reg.x n).Tracked from hn)]
    funext r
    cases r with
    | x m => by_cases h : m = n <;> simp [ctxReg, loadGp, h]
    | d m => simp [ctxReg, loadGp]
  · rw [loadReg, if_neg hn, if_neg (show ¬ (Reg.x n).Tracked from hn)]

theorem loadFp_reg (ctx : UnwindContext) (n off : Nat) : ctxReg (loadFp mem ctx n off) =
    if (Reg.d n).Tracked then
      Function.update (ctxReg ctx) (.d n) (read64 mem (ctx.sp + BitVec.ofNat 64 off))
    else ctxReg ctx := by
  by_cases hn : n < maxFp
  · rw [loadFp, if_pos hn, if_pos (show (Reg.d n).Tracked from hn)]
    funext r
    cases r with
    | x m => simp [ctxReg]
    | d m => by_cases h : m = n <;> simp [ctxReg, h]
  · rw [loadFp, if_neg hn, if_neg (show ¬ (Reg.d n).Tracked from hn)]

theorem loadAll_reg {top : Word} {d : Int} (ctx : UnwindContext) (hsp : ctx.sp = place top d)
    (l : List (Reg × Nat)) : ctxReg (loadAll mem ctx l) = loadPlaces mem top
      ((l.filter fun e => decide e.1.Tracked).map fun e => (e.1, d - e.2)) (ctxReg ctx) := by
  induction l generalizing ctx with
  | nil => rfl
  | cons e l ih =>
    have hstep : ctxReg (loadAll mem ctx [e]) = if e.1.Tracked then
        Function.update (ctxReg ctx) e.1 (read64 mem (place top (d - e.2))) else ctxReg ctx := by
      rw [← place_add, ← hsp]
      obtain ⟨r, off⟩ := e
      cases r with
      | x n => exact loadReg_reg mem ctx n off
      | d n => exact loadFp_reg mem ctx n off
    have hsp' : (loadAll mem ctx [e]).sp = place top d := (loadAll_sp mem ctx [e]).trans hsp
    rw [← List.singleton_append, ← loadAll_append, ih _ hsp', hstep, List.singleton_append]
    by_cases ht : e.1.Tracked
    · rw [if_pos ht, List.filter_cons_of_pos (by simpa using ht)]
      rfl
    · rw [if_neg ht, List.filter_cons_of_neg (by simpa using ht)]

/-! ## Codes in a row -/

theorem replayList_append (l l' : List Op) (ctx : UnwindContext) (last : Pair) :
    replayList mem (l ++ l') ctx last =
      replayList mem l' (replayList mem l ctx last).1 (replayList mem l ctx last).2 := by
  induction l generalizing ctx last with
  | nil => rfl
  | cons op l ih => exact ih _ _

theorem loadsFrom_append (d : Int) (last : Pair) (l l' : List Op) :
    loadsFrom d last (l ++ l') =
      loadsFrom d last l ++ loadsFrom (d - depth l) (l.foldl Op.mark last) l' := by
  induction l generalizing d last with
  | nil => simp [loadsFrom, depth]
  | cons op l ih =>
    have hd : d - op.drop - depth l = d - depth (op :: l) := by
      rw [depth, Nat.cast_add]
      omega
    rw [List.cons_append, loadsFrom, ih, loadsFrom, List.append_assoc, hd]
    rfl

theorem replayList_mark (l : List Op) (ctx : UnwindContext) (last : Pair) :
    (replayList mem l ctx last).2 = l.foldl Op.mark last := by
  induction l generalizing ctx last with
  | nil => rfl
  | cons op l ih =>
    rw [replayList, replay_eq]
    exact ih _ _

/-- Until the frame pointer is used, a replay moves up and loads what `loadsFrom` says. -/
theorem replayList_plain {top : Word} {l : List Op} (hfp : ∀ o ∈ l, o.fp? = none) {d : Int}
    {ctx : UnwindContext} (hsp : ctx.sp = place top d) (last : Pair) :
    (replayList mem l ctx last).1.sp = place top (d - depth l) ∧
      ctxReg (replayList mem l ctx last).1 =
        loadPlaces mem top (loadsFrom d last l) (ctxReg ctx) := by
  induction l generalizing d ctx last with
  | nil =>
    refine ⟨?_, rfl⟩
    rw [replayList, hsp]
    simp [depth]
  | cons op l ih =>
    have hop := replay_eq mem op ctx last
    rw [hfp op (List.mem_cons_self ..)] at hop
    have hsp' : (addSp (loadAll mem ctx (op.stores last.next)) op.drop).sp =
        place top (d - op.drop) := by
      rw [← place_add, ← hsp, ← loadAll_sp mem ctx (op.stores last.next)]
      rfl
    have hreg : ctxReg (addSp (loadAll mem ctx (op.stores last.next)) op.drop) =
        ctxReg (loadAll mem ctx (op.stores last.next)) := rfl
    obtain ⟨h1, h2⟩ := ih (fun o ho => hfp o (List.mem_cons_of_mem _ ho)) hsp' (op.mark last)
    rw [replayList, hop]
    refine ⟨?_, ?_⟩
    · rw [h1, depth, Nat.cast_add]
      congr 1
      omega
    · rw [h2, hreg, loadAll_reg mem ctx hsp, ← loadPlaces_append]
      rfl

theorem depth_append (l l' : List Op) : depth (l ++ l') = depth l + depth l' := by
  induction l with
  | nil => simp [depth]
  | cons op l ih =>
    rw [List.cons_append, depth, depth, ih]
    omega

/-- With a frame pointer, the replay ends where x29 leads, and if that is right it has loaded what
`loadsFrom` says. -/
theorem replayList_fp {top : Word} {post pre : List Op} {op : Op} {k : Nat} (hk : op.fp? = some k)
    (hpost : ∀ o ∈ post, o.fp? = none) (hpre : ∀ o ∈ pre, o.fp? = none) {ctx : UnwindContext}
    (hsp : ctx.sp = place top (depth (post ++ op :: pre))) (last : Pair) :
    (replayList mem (post ++ op :: pre) ctx last).1.sp =
        loadPlaces mem top (loadsFrom (depth (post ++ op :: pre)) last post) (ctxReg ctx) x29 -
          BitVec.ofNat 64 k + BitVec.ofNat 64 (depth pre) ∧
      (loadPlaces mem top (loadsFrom (depth (post ++ op :: pre)) last post) (ctxReg ctx) x29 =
          place top (depth pre) + BitVec.ofNat 64 k →
        ctxReg (replayList mem (post ++ op :: pre) ctx last).1 =
          loadPlaces mem top (loadsFrom (depth (post ++ op :: pre)) last (post ++ op :: pre))
            (ctxReg ctx)) := by
  obtain ⟨-, hreg⟩ := replayList_plain mem hpost hsp last
  have hmark := replayList_mark mem post ctx last
  rw [replayList_append, hmark, loadsFrom_append]
  generalize (replayList mem post ctx last).1 = ctx₁ at hreg ⊢
  obtain ⟨hdrop, hnone⟩ := fp?_spec hk
  have hstep : replayList mem (op :: pre) ctx₁ (post.foldl Op.mark last) =
      replayList mem pre { ctx₁ with sp := ctx₁.gp regFp - BitVec.ofNat 64 k }
        (op.mark (post.foldl Op.mark last)) := by
    rw [replayList, replay_eq, hk, hnone]
    rfl
  have hsame : ctxReg { ctx₁ with sp := ctx₁.gp regFp - BitVec.ofNat 64 k } = ctxReg ctx₁ := rfl
  have hfp : ctx₁.gp regFp = ctxReg ctx₁ x29 := rfl
  rw [hstep, ← hreg]
  constructor
  · have hsp₀ : ({ ctx₁ with sp := ctx₁.gp regFp - BitVec.ofNat 64 k } : UnwindContext).sp =
        place (ctx₁.gp regFp - BitVec.ofNat 64 k) 0 := (place_zero _).symm
    rw [(replayList_plain mem hpre hsp₀ _).1, ← place_add, place_zero, hfp]
  · intro hval
    have hsp' : ({ ctx₁ with sp := ctx₁.gp regFp - BitVec.ofNat 64 k } : UnwindContext).sp =
        place top (depth pre) := by
      dsimp only
      rw [hfp, hval]
      ring
    have hd : (depth (post ++ op :: pre) : Int) - depth post - op.drop = depth pre := by
      rw [depth_append, depth, hdrop]
      omega
    rw [(replayList_plain mem hpre hsp' _).2, hsame, hreg, ← loadPlaces_append, loadsFrom, hnone, hd]
    rfl

/-- What comes before the frame pointer is used does not need the stack pointer. -/
theorem replayList_spFree {cs : List Op} (h : SpFree cs) (ctx : UnwindContext) (last : Pair)
    (sp : Word) : replayList mem cs { ctx with sp } last = replayList mem cs ctx last := by
  obtain ⟨post, op, pre, rfl, hsome, hnop⟩ := h
  obtain ⟨k, hk⟩ := Option.isSome_iff_exists.mp hsome
  have hnops : ∀ ctx : UnwindContext, replayList mem post ctx last = (ctx, last) := by
    intro ctx
    induction post with
    | nil => rfl
    | cons o post ih =>
      rw [hnop o (List.mem_cons_self ..)]
      exact ih fun o ho => hnop o (List.mem_cons_of_mem _ ho)
  rw [replayList_append, replayList_append, hnops, hnops, replayList, replayList, replay_eq, replay_eq,
    hk, (fp?_spec hk).2]
  rfl

end

/-! ## Undoing a prologue -/

structure Restored (m₀ : Machine) (ctx : UnwindContext) : Prop where
  sp : ctx.sp = m₀.sp
  reg : ∀ r, r.CalleeSaved → ctxReg ctx r = m₀.reg r

/-- A context with the stack pointer and the registers of a machine. -/
structure Matches (ctx : UnwindContext) (m : Machine) : Prop where
  sp : ctx.sp = m.sp
  reg : ∀ r, r.CalleeSaved → ctxReg ctx r = m.reg r

theorem stores_length (op : Op) (p q : Pair) : (op.stores p).length = (op.stores q).length := by
  have hpair : ∀ p : Pair, p.stores.length = 2 := by
    intro p
    unfold Pair.stores
    split <;> rfl
  cases op <;> simp [Op.stores, hpair]

theorem length_loadsFrom_le (d : Int) (last : Pair) (cs : List Op) :
    (loadsFrom d last cs).length ≤ (saves cs).length := by
  induction cs generalizing d last with
  | nil => exact le_refl _
  | cons op cs ih =>
    rw [loadsFrom, saves, List.length_append, List.length_append, List.length_map, List.length_map]
    have h1 := List.length_filter_le (fun e : Reg × Nat => decide e.1.Tracked) (op.stores last.next)
    rw [stores_length op _ (nextPair cs)] at h1
    have h2 := ih (d - op.drop) (op.mark last)
    omega

/-- If every register is loaded from where it was saved, then nothing else is loaded: there are no more
loads than saves. -/
theorem Paired.mem_saves {cs : List Op} (hv : Valid cs) (hp : Paired cs) {e : Reg × Int}
    (he : e ∈ loads cs) : e ∈ saves cs := by
  have hnodup : (saves cs).Nodup := hv.once.of_map Prod.fst
  have hsub : (saves cs).Subperm (loads cs) := List.subperm_of_subset hnodup hp.found
  exact (hsub.perm_of_length_le (length_loadsFrom_le _ _ _)).mem_iff.mpr he

theorem loadPlaces_eq {mem : Mem} {top : Word} {v : Reg → Word} {l : List (Reg × Int)}
    (hval : ∀ e ∈ l, read64 mem (place top e.2) = v e.1) (reg : Reg → Word) (r : Reg) :
    loadPlaces mem top l reg r = if r ∈ l.map Prod.fst then v r else reg r := by
  rcases loadPlaces_cases mem top l reg r with ⟨hnot, heq⟩ | ⟨p, hp, heq⟩
  · rw [if_neg hnot, heq]
  · rw [if_pos (List.mem_map.mpr ⟨_, hp, rfl⟩), heq]
    exact hval (r, p) hp

theorem replay_restores {cs : List Op} (hv : Valid cs) (hp : Paired cs) {m₀ m : Machine}
    (h : Intact cs m₀ m) {ctx : UnwindContext} (hctx : Matches ctx m) :
    Restored m₀ (replayList m.mem cs ctx firstPair).1 := by
  have hval : ∀ e ∈ loads cs, read64 m.mem (place m₀.sp e.2) = m₀.reg e.1 :=
    fun e he => h.stack e (hp.mem_saves hv he)
  -- the stack pointer is where the prologue left it, or does not matter
  have hright : ∃ ctx' : UnwindContext, ctxReg ctx' = ctxReg ctx ∧
      ctx'.sp = place m₀.sp (depth cs) ∧
      replayList m.mem cs ctx firstPair = replayList m.mem cs ctx' firstPair := by
    rcases h.sp with hfree | hsp
    · exact ⟨{ ctx with sp := place m₀.sp (depth cs) }, rfl, rfl,
        (replayList_spFree m.mem hfree ctx firstPair _).symm⟩
    · exact ⟨ctx, rfl, hctx.sp.trans hsp, rfl⟩
  obtain ⟨ctx', hreg', hsp', heq⟩ := hright
  have hdone : ∀ r, r.CalleeSaved →
      loadPlaces m.mem m₀.sp (loads cs) (ctxReg ctx') r = m₀.reg r := by
    intro r hr
    rw [loadPlaces_eq hval, hreg']
    by_cases hmem : r ∈ (loads cs).map Prod.fst
    · rw [if_pos hmem]
    · rw [if_neg hmem, hctx.reg r hr]
      apply h.kept r hr
      intro hsaved
      obtain ⟨e, he, rfl⟩ := List.mem_map.mp hsaved
      exact hmem (List.mem_map_of_mem (hp.found e he))
  rw [heq]
  by_cases hfp : ∀ o ∈ cs, o.fp? = none
  · obtain ⟨h1, h2⟩ := replayList_plain m.mem hfp hsp' firstPair
    refine ⟨by rw [h1]; simp, fun r hr => ?_⟩
    rw [h2]
    exact hdone r hr
  · push Not at hfp
    obtain ⟨op, hop, hne⟩ := hfp
    obtain ⟨k, hk⟩ := Option.ne_none_iff_exists'.mp hne
    obtain ⟨post, pre, rfl⟩ := List.append_of_mem hop
    obtain ⟨h1, h2⟩ := replayList_fp m.mem hk (hv.fpSaved.post hk)
      (hv.fpSaved post op pre rfl (by rw [hk]; rfl)).2 hsp' firstPair
    have hx29 : loadPlaces m.mem m₀.sp (loadsFrom (depth (post ++ op :: pre)) firstPair post)
        (ctxReg ctx') x29 = place m₀.sp (depth pre) + BitVec.ofNat 64 k := by
      rcases loadPlaces_cases m.mem m₀.sp (loadsFrom (depth (post ++ op :: pre)) firstPair post)
        (ctxReg ctx') x29 with ⟨-, hkeep⟩ | ⟨p, hload, -⟩
      · rw [hkeep, hreg', hctx.reg x29 (by decide)]
        exact h.fp post op pre k rfl hk
      · exact absurd (List.mem_map_of_mem hload) (hp.x29 post op pre rfl (by rw [hk]; rfl))
    refine ⟨?_, fun r hr => ?_⟩
    · rw [h1, hx29, add_sub_cancel_right, place_add]
      simp
    · rw [h2 hx29]
      exact hdone r hr

/-! ## Where it fails -/

/-- A stop at which every register can be told from every other: what was saved is lost from the
registers, and no two places hold the same. -/
structure Telling (cs : List Op) (m₀ m : Machine) : Prop where
  sp : m.sp = place m₀.sp (depth cs)
  lost : ∀ r ∈ (saves cs).map Prod.fst, m.reg r ≠ m₀.reg r
  apart : ∀ r ∈ (saves cs).map Prod.fst, ∀ p, Fits p → (r, p) ∉ saves cs →
    read64 m.mem (place m₀.sp p) ≠ m₀.reg r
  fp : ∀ post op pre k, cs = post ++ op :: pre → op.fp? = some k → ∀ p, Fits p →
    read64 m.mem (place m₀.sp p) ≠ place m₀.sp (depth pre) + BitVec.ofNat 64 k

theorem mark_near {op : Op} {last : Pair} {n : Nat} (h : last.Near n) : (op.mark last).Near (n + 1) := by
  have hsmall : ∀ (b : Bool) (r : Nat) (z : Fin 64), (⟨b, r, z * 8⟩ : Pair).Near (n + 1) := by
    intro b r z
    unfold Pair.Near
    dsimp only
    omega
  have hzero : ∀ (b : Bool) (r : Nat), (⟨b, r, 0⟩ : Pair).Near (n + 1) := by
    intro b r
    unfold Pair.Near
    dsimp only
    omega
  cases op
  case saveNext => exact h.next
  case saveRegp x z => exact hsmall _ _ z
  case saveRegpX x z => exact hzero _ _
  case saveFregp x z => exact hsmall _ _ z
  case saveFregpX x z => exact hzero _ _
  all_goals exact h.mono (Nat.le_succ n)

theorem loadsFrom_fits {cs : List Op} {d : Int} {last : Pair} {n : Nat} (hlast : last.Near n)
    (hn : n + cs.length ≤ 2 ^ 11) (hmod : d % 8 = 0) (hlo : depth cs ≤ d) (hhi : d ≤ 2 ^ 40) :
    ∀ e ∈ loadsFrom d last cs, Fits e.2 := by
  induction cs generalizing d last n with
  | nil => exact fun e he => absurd he List.not_mem_nil
  | cons op cs ih =>
    have hdrop := drop_le op
    rw [depth, Nat.cast_add] at hlo
    rw [List.length_cons] at hn
    intro e he
    rcases List.mem_append.mp he with he | he
    · obtain ⟨e', he', rfl⟩ := List.mem_map.mp he
      have hoff := stores_off hlast.next (List.mem_filter.mp he').1
      unfold Fits
      dsimp only
      omega
    · exact ih (mark_near hlast) (by omega) (by omega) (by omega) (by omega) e he

theorem loads_fits {cs : List Op} (h : cs.length < 2 ^ 10) : ∀ e ∈ loads cs, Fits e.2 := by
  have hdepth := depth_le cs
  have hfirst : firstPair.Near 0 := ⟨rfl, by decide⟩
  exact loadsFrom_fits hfirst (by omega) (by omega) (le_refl _) (by omega)

/-- A replay that restores a telling stop has found every register where it was saved. -/
theorem paired_of_restored {cs : List Op} (hv : Valid cs) {m₀ m : Machine} (ht : Telling cs m₀ m)
    {ctx : UnwindContext} (hctx : Matches ctx m)
    (hres : Restored m₀ (replayList m.mem cs ctx firstPair).1) : Paired cs := by
  have hsp : ctx.sp = place m₀.sp (depth cs) := hctx.sp.trans ht.sp
  have hfits := loads_fits hv.short
  have hx29 : ∀ post op pre, cs = post ++ op :: pre → ∀ k, op.fp? = some k →
      loadPlaces m.mem m₀.sp (loadsFrom (depth cs) firstPair post) (ctxReg ctx) x29 =
        place m₀.sp (depth pre) + BitVec.ofNat 64 k := by
    rintro post op pre rfl k hk
    have hend := (replayList_fp m.mem hk (hv.fpSaved.post hk)
      (hv.fpSaved post op pre rfl (by rw [hk]; rfl)).2 hsp firstPair).1
    rw [hres.sp] at hend
    have hback : place m₀.sp (depth pre) + BitVec.ofNat 64 (depth pre) = m₀.sp := by
      rw [place_add]
      simp
    linear_combination -hend - hback
  have hregs : ctxReg (replayList m.mem cs ctx firstPair).1 =
      loadPlaces m.mem m₀.sp (loads cs) (ctxReg ctx) := by
    by_cases hfp : ∀ o ∈ cs, o.fp? = none
    · exact (replayList_plain m.mem hfp hsp firstPair).2
    · push Not at hfp
      obtain ⟨op, hop, hne⟩ := hfp
      obtain ⟨k, hk⟩ := Option.ne_none_iff_exists'.mp hne
      obtain ⟨post, pre, rfl⟩ := List.append_of_mem hop
      exact (replayList_fp m.mem hk (hv.fpSaved.post hk)
        (hv.fpSaved post op pre rfl (by rw [hk]; rfl)).2 hsp firstPair).2 (hx29 post op pre rfl k hk)
  constructor
  · rintro ⟨r, p⟩ he
    have hr : r ∈ (saves cs).map Prod.fst := List.mem_map_of_mem he
    have hcallee := hv.regs _ he
    have hval := hres.reg r hcallee
    rw [hregs] at hval
    rcases loadPlaces_cases m.mem m₀.sp (loads cs) (ctxReg ctx) r with ⟨-, hkeep⟩ | ⟨q, hload, heq⟩
    · rw [hkeep, hctx.reg r hcallee] at hval
      exact absurd hval (ht.lost r hr)
    · by_cases hq : (r, q) ∈ saves cs
      · have hsame := List.inj_on_of_nodup_map hv.once he hq rfl
        rw [hsame]
        exact hload
      · rw [heq] at hval
        exact absurd hval (ht.apart r hr q (hfits _ hload) hq)
  · intro post op pre hsplit hsome
    obtain ⟨k, hk⟩ := Option.isSome_iff_exists.mp hsome
    have hval := hx29 post op pre hsplit k hk
    rcases loadPlaces_cases m.mem m₀.sp (loadsFrom (depth cs) firstPair post) (ctxReg ctx) x29 with
      ⟨hnot, -⟩ | ⟨q, hload, heq⟩
    · exact hnot
    · rw [heq] at hval
      refine absurd hval (ht.fp post op pre k hsplit hk q (hfits (x29, q) ?_))
      rw [loads, hsplit, loadsFrom_append, ← hsplit]
      exact List.mem_append_left _ hload

end Kernemul.Unwind.Arm64
