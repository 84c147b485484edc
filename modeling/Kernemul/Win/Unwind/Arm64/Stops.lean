import Kernemul.Win.Unwind.Arm64.Prologue

/-!
# Where an ARM64 function can be stopped

In the body, the saved registers are free and what is saved is on the stack. An epilogue undoes the
instructions it describes one by one. In both, what is still to be undone leads back to the entry
(`Intact`).
-/

namespace Kernemul.Unwind.Arm64

open Stack

/-- The stack pointer can be found through x29 before anything else is undone. -/
def SpFree (cs : List Op) : Prop := ∃ post op pre, cs = post ++ op :: pre ∧ op.fp?.isSome = true ∧
  ∀ o ∈ post, o = .nop

/-- The body of a function entered at `m₀`: it may have changed every register that was saved, and the
stack pointer where x29 gives it back, but neither x29 once it is set nor what is saved. -/
structure InBody (cs : List Op) (m₀ m : Machine) : Prop where
  kept : ∀ r, r.CalleeSaved → r ∉ (saves cs).map Prod.fst → m.reg r = m₀.reg r
  sp : SpFree cs ∨ m.sp = (run cs m₀).sp
  fp : (∃ o ∈ cs, o.fp?.isSome = true) → m.reg x29 = (run cs m₀).reg x29
  stack : ∀ e ∈ saves cs, ∀ i < 8, m.mem (place m₀.sp e.2 + BitVec.ofNat 64 i) =
    (run cs m₀).mem (place m₀.sp e.2 + BitVec.ofNat 64 i)

structure Intact (cs : List Op) (m₀ m : Machine) : Prop where
  kept : ∀ r, r.CalleeSaved → r ∉ (saves cs).map Prod.fst → m.reg r = m₀.reg r
  sp : SpFree cs ∨ m.sp = place m₀.sp (depth cs)
  fp : ∀ post op pre k, cs = post ++ op :: pre → op.fp? = some k →
    m.reg x29 = place m₀.sp (depth pre) + BitVec.ofNat 64 k
  stack : ∀ e ∈ saves cs, read64 m.mem (place m₀.sp e.2) = m₀.reg e.1

variable {op : Op}

theorem fp?_spec {k : Nat} (h : op.fp? = some k) : op.drop = 0 ∧ ∀ p, op.stores p = [] := by
  cases op <;> simp [Op.fp?] at h <;> exact ⟨rfl, fun _ => rfl⟩

theorem FpSaved.post {post pre : List Op} (h : FpSaved (post ++ op :: pre)) {k : Nat}
    (hk : op.fp? = some k) : ∀ o ∈ post, o.fp? = none := by
  intro o ho
  obtain ⟨a, b, rfl⟩ := List.append_of_mem ho
  by_contra hne
  have hnone := (h a o (b ++ op :: pre) (by simp) (Option.isSome_iff_ne_none.mpr hne)).2 op (by simp)
  rw [hk] at hnone
  cases hnone

theorem run_fp {post pre : List Op} (h : FpSaved (post ++ op :: pre)) {k : Nat} (hk : op.fp? = some k) (m : Machine) :
    (run (post ++ op :: pre) m).reg x29 = place m.sp (depth pre) + BitVec.ofNat 64 k := by
  have hpost := h.post hk
  clear h
  induction post with
  | nil =>
    rw [List.nil_append, run, Op.exec, hk, (fp?_spec hk).1, run_sp]
    dsimp only
    rw [Function.update_self]
    simp
  | cons o post ih =>
    rw [List.cons_append, run, Op.exec, hpost o (List.mem_cons_self ..)]
    exact ih fun o ho => hpost o (List.mem_cons_of_mem _ ho)

variable {cs : List Op}

theorem InBody.intact (hv : Valid cs) {m₀ m : Machine} (h : InBody cs m₀ m) :
    Intact cs m₀ m where
  kept := h.kept
  sp := h.sp.imp_right fun hsp => hsp.trans (run_sp cs m₀)
  fp post op pre k hsplit hk := by
    rw [h.fp ⟨op, hsplit ▸ by simp, by rw [hk]; rfl⟩, hsplit]
    exact run_fp (hsplit ▸ hv.fpSaved) hk m₀
  stack e he := (read64_congr (h.stack e he)).trans (run_saves hv m₀ e he)

/-! ## Loading registers -/

/-- Loading registers from their places below `top`. -/
def loadPlaces (mem : Mem) (top : Word) (l : List (Reg × Int)) (reg : Reg → Word) : Reg → Word :=
  l.foldl (fun reg e => Function.update reg e.1 (read64 mem (place top e.2))) reg

theorem loadPlaces_append (mem : Mem) (top : Word) (l l' : List (Reg × Int)) (reg : Reg → Word) :
    loadPlaces mem top (l ++ l') reg = loadPlaces mem top l' (loadPlaces mem top l reg) :=
  List.foldl_append

/-- A register that is not loaded is as it was, and one that is comes from a place it was loaded from. -/
theorem loadPlaces_cases (mem : Mem) (top : Word) (l : List (Reg × Int)) (reg : Reg → Word) (r : Reg) :
    (r ∉ l.map Prod.fst ∧ loadPlaces mem top l reg r = reg r) ∨
      ∃ p, (r, p) ∈ l ∧ loadPlaces mem top l reg r = read64 mem (place top p) := by
  induction l using List.reverseRecOn with
  | nil => exact .inl ⟨List.not_mem_nil, rfl⟩
  | append_singleton l e ih =>
    rw [loadPlaces_append]
    have hlast : loadPlaces mem top [e] (loadPlaces mem top l reg) r =
        Function.update (loadPlaces mem top l reg) e.1 (read64 mem (place top e.2)) r := rfl
    rw [hlast]
    by_cases hr : r = e.1
    · subst hr
      rw [Function.update_self]
      exact .inr ⟨e.2, by simp, rfl⟩
    · rw [Function.update_of_ne hr]
      rcases ih with ⟨hnot, heq⟩ | ⟨p, hp, heq⟩
      · refine .inl ⟨?_, heq⟩
        rw [List.map_append, List.mem_append, not_or]
        exact ⟨hnot, by simpa using hr⟩
      · exact .inr ⟨p, List.mem_append_left _ hp, heq⟩

/-! ## Epilogues -/

def Op.undo (next : Pair) (op : Op) (m : Machine) : Machine :=
  let reg := (op.stores next).foldl
    (fun reg e => Function.update reg e.1 (read64 m.mem (m.sp + BitVec.ofNat 64 e.2))) m.reg
  { m with
    reg
    sp := match op.fp? with
      | some k => reg x29 - BitVec.ofNat 64 k
      | none => m.sp + BitVec.ofNat 64 op.drop }

def runEpilog : Nat → List Op → Machine → Machine
  | 0, _, m => m
  | _ + 1, [], m => m
  | n + 1, op :: cs, m => runEpilog n cs (op.undo (nextPair cs) m)

/-- An epilogue for a prologue: it loads every register from where the prologue saved it, and takes the
stack pointer back from where it has been left. -/
structure Mirrors (p e : List Op) : Prop where
  valid : Valid e
  saves : ∀ x, x ∈ saves e ↔ x ∈ saves p
  depth : depth e = depth p
  fp : ∀ post op pre k, e = post ++ op :: pre → op.fp? = some k →
    ∃ post' op' pre', p = post' ++ op' :: pre' ∧ op'.fp? = some k ∧
      Arm64.depth pre = Arm64.depth pre'
  sp : SpFree p → SpFree e

theorem Mirrors.fst {p e : List Op} (h : Mirrors p e) (r : Reg) :
    r ∈ (Arm64.saves e).map Prod.fst ↔ r ∈ (Arm64.saves p).map Prod.fst := by
  simp only [List.mem_map]
  exact exists_congr fun x => and_congr_left fun _ => h.saves x

theorem Mirrors.intact {p e : List Op} (h : Mirrors p e) {m₀ m : Machine} (hm : Intact p m₀ m) :
    Intact e m₀ m where
  kept r hr hns := hm.kept r hr (mt (h.fst r).mpr hns)
  sp := by
    rw [h.depth]
    exact hm.sp.imp_left h.sp
  fp post op pre k hsplit hk := by
    obtain ⟨post', op', pre', hsplit', hk', hdepth⟩ := h.fp post op pre k hsplit hk
    rw [hdepth]
    exact hm.fp post' op' pre' k hsplit' hk'
  stack e he := hm.stack e ((h.saves e).mp he)

theorem SpFree.tail (h : SpFree (op :: cs)) (hfp : op.fp? = none) :
    op = .nop ∧ SpFree cs := by
  obtain ⟨post, o, pre, hsplit, hsome, hnop⟩ := h
  cases post with
  | nil =>
    obtain ⟨rfl, -⟩ := List.cons.inj hsplit
    rw [hfp] at hsome
    cases hsome
  | cons o' post =>
    obtain ⟨rfl, rfl⟩ := List.cons.inj hsplit
    exact ⟨hnop _ (List.mem_cons_self ..), post, o, pre, rfl, hsome,
      fun o ho => hnop o (List.mem_cons_of_mem _ ho)⟩

theorem undo_reg {m : Machine} {top : Word}
    (hsp : op.stores (nextPair cs) = [] ∨ m.sp = place top (depth (op :: cs))) :
    (op.undo (nextPair cs) m).reg = loadPlaces m.mem top
      ((op.stores (nextPair cs)).map fun e => (e.1, (depth (op :: cs) : Int) - e.2)) m.reg := by
  rw [Op.undo, loadPlaces, List.foldl_map]
  dsimp only
  rcases hsp with hnone | hsp
  · rw [hnone]
    simp only [List.foldl_nil]
  · rw [hsp]
    simp only [place_add]

theorem Intact.undo (hv : Valid (op :: cs)) {m₀ m : Machine}
    (h : Intact (op :: cs) m₀ m) : Intact cs m₀ (op.undo (nextPair cs) m) := by
  have hsp : op.stores (nextPair cs) = [] ∨ m.sp = place m₀.sp (depth (op :: cs)) := by
    refine h.sp.imp_left fun hfree => ?_
    cases hfp : op.fp? with
    | none =>
      rw [(hfree.tail hfp).1]
      rfl
    | some k => exact (fp?_spec hfp).2 _
  have hload : ∀ r, ((op.undo (nextPair cs) m).reg r = m.reg r ∧
        r ∉ (op.stores (nextPair cs)).map Prod.fst) ∨
      ((op.undo (nextPair cs) m).reg r = m₀.reg r ∧ r ∈ (op.stores (nextPair cs)).map Prod.fst) := by
    intro r
    rw [undo_reg hsp]
    rcases loadPlaces_cases m.mem m₀.sp _ m.reg r with ⟨hnot, heq⟩ | ⟨p, hp, heq⟩
    · refine .inl ⟨heq, ?_⟩
      simpa using hnot
    · refine .inr ⟨heq.trans (h.stack (r, p) (mem_saves_head hp)), ?_⟩
      obtain ⟨e, he, heq⟩ := List.mem_map.mp hp
      exact List.mem_map.mpr ⟨e, he, congrArg Prod.fst heq⟩
  have hfp_reg : ∀ post o pre k, cs = post ++ o :: pre → o.fp? = some k →
      (op.undo (nextPair cs) m).reg x29 = m.reg x29 := by
    intro post o pre k hsplit hk
    rcases hload x29 with ⟨heq, -⟩ | ⟨-, hmem⟩
    · exact heq
    · exfalso
      obtain ⟨e, he, heq⟩ := List.mem_map.mp hmem
      apply hv.not_mem_tail he
      rw [heq, hsplit, ← List.singleton_append, ← List.append_assoc]
      exact ((saves_sublist _ pre).map Prod.fst).subset
        (hv.tail.fpSaved post o pre hsplit (by rw [hk]; rfl)).1
  refine ⟨?_, ?_, ?_, fun e he => h.stack e (mem_saves_tail he)⟩
  · intro r hr hns
    rcases hload r with ⟨heq, hnot⟩ | ⟨heq, -⟩
    · rw [heq]
      apply h.kept r hr
      rw [saves, List.map_append, List.mem_append, not_or]
      exact ⟨by simpa using hnot, hns⟩
    · exact heq
  · cases hfp : op.fp? with
    | some k =>
      have hreg : (op.undo (nextPair cs) m).reg = m.reg := by
        rw [Op.undo, (fp?_spec hfp).2]
        rfl
      refine .inr ?_
      have hval := h.fp [] op cs k rfl hfp
      have hspval : (op.undo (nextPair cs) m).sp =
          (op.undo (nextPair cs) m).reg x29 - BitVec.ofNat 64 k := by
        rw [Op.undo, hfp]
      rw [hspval, hreg, hval]
      ring
    | none =>
      have hspval : (op.undo (nextPair cs) m).sp = m.sp + BitVec.ofNat 64 op.drop := by
        rw [Op.undo, hfp]
      rcases h.sp with hfree | hsp'
      · exact .inl (hfree.tail hfp).2
      · refine .inr ?_
        rw [hspval, hsp', place_add, depth, Nat.cast_add, add_sub_cancel_right]
  · intro post o pre k hsplit hk
    rw [hfp_reg post o pre k hsplit hk]
    apply h.fp (op :: post) o pre k (by rw [hsplit]; rfl) hk

end Kernemul.Unwind.Arm64
