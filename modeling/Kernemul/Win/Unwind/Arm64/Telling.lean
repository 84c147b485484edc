import Kernemul.Win.Unwind.Arm64.Stops
import Kernemul.Win.Unwind.Arm64.Replay

/-!
# A stop that tells registers apart

From a machine that holds something else in every register, a prologue, a body that uses every register
it may, and some instructions of an epilogue lead to a stop at which a replay that restores everything
must have found every register where it was saved.
-/

namespace Kernemul.Unwind.Arm64

open Stack

/-- A machine on entry that holds something else in every register, and nothing on the stack. -/
def entry : Machine where
  sp := 0x1000000000000000
  reg
    | .x n => BitVec.ofNat 64 (100 + n)
    | .d n => BitVec.ofNat 64 (200 + n)
  mem := fun _ => 0

def spoil (cs : List Op) (m : Machine) : Machine :=
  { m with reg := fun r =>
      if r ∈ (saves cs).map Prod.fst ∧ (r = x29 → ∀ o ∈ cs, o.fp? = none) then 1 else m.reg r }

theorem entry_reg {r : Reg} (h : r.CalleeSaved) : 100 ≤ (entry.reg r).toNat ∧ (entry.reg r).toNat < 300 := by
  cases r with
  | x n =>
    obtain ⟨h1, h2⟩ := h
    show 100 ≤ (BitVec.ofNat 64 (100 + n)).toNat ∧ (BitVec.ofNat 64 (100 + n)).toNat < 300
    rw [BitVec.toNat_ofNat]
    omega
  | d n =>
    have h1 : n < 8 := h
    show 100 ≤ (BitVec.ofNat 64 (200 + n)).toNat ∧ (BitVec.ofNat 64 (200 + n)).toNat < 300
    rw [BitVec.toNat_ofNat]
    omega

theorem entry_reg_inj {r r' : Reg} (h : r.CalleeSaved) (h' : r'.CalleeSaved)
    (heq : entry.reg r = entry.reg r') : r = r' := by
  have hval := congrArg BitVec.toNat heq
  cases r <;> cases r' <;>
    simp only [entry, BitVec.toNat_ofNat, Reg.CalleeSaved, Reg.x.injEq, Reg.d.injEq, reduceCtorEq] at * <;>
    omega

theorem read64_zero (a : Word) : read64 (fun _ => 0) a = 0 := by
  unfold read64
  dsimp only
  decide

variable {cs : List Op}

theorem place_entry_ne (h : cs.length < 2 ^ 10) {op : Op} {k : Nat} (hk : op.fp? = some k)
    {v : Word} (hv : v.toNat < 300) : v ≠ place entry.sp (depth cs) + BitVec.ofNat 64 k := by
  have hdepth := depth_le cs
  have hk' : k ≤ 2040 := by
    cases op <;> simp only [Op.fp?, reduceCtorEq, Option.some.injEq] at hk <;> omega
  rintro rfl
  have hsp : entry.sp = 0x1000000000000000#64 := rfl
  rw [place, BitVec.ofInt_natCast, hsp, BitVec.toNat_add, BitVec.toNat_sub, BitVec.toNat_ofNat,
    BitVec.toNat_ofNat, BitVec.toNat_ofNat] at hv
  omega

theorem run_entry_mem (hv : Valid cs) {p : Int} (hp : Fits p) :
    (∃ r, (r, p) ∈ saves cs ∧ read64 (run cs entry).mem (place entry.sp p) = entry.reg r) ∨
      p ∉ (saves cs).map Prod.snd ∧ read64 (run cs entry).mem (place entry.sp p) = 0 := by
  by_cases hmem : p ∈ (saves cs).map Prod.snd
  · obtain ⟨e, he, rfl⟩ := List.mem_map.mp hmem
    exact .inl ⟨e.1, he, run_saves hv entry e he⟩
  · exact .inr ⟨hmem, (run_mem_other hv.short.le entry hp hmem).trans (read64_zero _)⟩

theorem Valid.run_reg_unsaved (hv : Valid cs) {r : Reg}
    (hr : r ∉ (saves cs).map Prod.fst) (m : Machine) : (run cs m).reg r = m.reg r := by
  apply run_reg
  by_contra hset
  rw [not_or, not_not] at hset
  obtain ⟨rfl, hfp⟩ := hset
  push Not at hfp
  obtain ⟨o, ho, hne⟩ := hfp
  obtain ⟨post, pre, rfl⟩ := List.append_of_mem ho
  have hsaved := (hv.fpSaved post o pre rfl (Option.isSome_iff_ne_none.mpr hne)).1
  rw [← List.singleton_append, ← List.append_assoc] at hr
  exact hr (((saves_sublist _ pre).map Prod.fst).subset hsaved)

theorem spoil_inBody (hv : Valid cs) : InBody cs entry (spoil cs (run cs entry)) where
  kept r _ hns := by
    have hreg : (spoil cs (run cs entry)).reg r = (run cs entry).reg r := if_neg fun h => hns h.1
    rw [hreg]
    exact hv.run_reg_unsaved hns entry
  sp := .inr rfl
  fp := by
    rintro ⟨o, ho, hsome⟩
    refine if_neg fun h => ?_
    rw [h.2 rfl o ho] at hsome
    cases hsome
  stack := fun _ _ _ _ => rfl

theorem spoil_telling (hv : Valid cs) :
    Telling cs entry (spoil cs (run cs entry)) where
  sp := run_sp cs entry
  lost r hr := by
    obtain ⟨e, he, rfl⟩ := List.mem_map.mp hr
    have hval := entry_reg (hv.regs e he)
    by_cases hfp : e.1 = x29 → ∀ o ∈ cs, o.fp? = none
    · have hreg : (spoil cs (run cs entry)).reg e.1 = 1 := if_pos ⟨hr, hfp⟩
      rw [hreg]
      intro heq
      rw [← heq] at hval
      exact absurd hval.1 (by decide)
    · have hreg : (spoil cs (run cs entry)).reg e.1 = (run cs entry).reg e.1 := if_neg fun h => hfp h.2
      push Not at hfp
      obtain ⟨hx29, o, ho, hne⟩ := hfp
      obtain ⟨k, hk⟩ := Option.ne_none_iff_exists'.mp hne
      obtain ⟨post, pre, rfl⟩ := List.append_of_mem ho
      rw [hreg, hx29, run_fp hv.fpSaved hk entry, ← hx29]
      exact (place_entry_ne (hv.right.tail).short hk hval.2).symm
  apart r hr p hp hnot heq := by
    obtain ⟨e, he, rfl⟩ := List.mem_map.mp hr
    have hval := entry_reg (hv.regs e he)
    have hmem : read64 (run cs entry).mem (place entry.sp p) = entry.reg e.1 := heq
    rcases run_entry_mem hv hp with ⟨r, hr', hread⟩ | ⟨-, hread⟩
    · rw [hread] at hmem
      have hsame : r = e.1 := entry_reg_inj (hv.regs _ hr') (hv.regs e he) hmem
      exact hnot (hsame ▸ hr')
    · rw [← hmem, hread] at hval
      exact absurd hval.1 (by decide)
  fp post op pre k hsplit hk p hp := by
    show read64 (run cs entry).mem (place entry.sp p) ≠ _
    have hshort : pre.length < 2 ^ 10 := by
      rw [hsplit] at hv
      exact hv.right.tail.short
    apply place_entry_ne hshort hk
    rcases run_entry_mem hv hp with ⟨r, hr', hread⟩ | ⟨-, hread⟩
    · rw [hread]
      exact (entry_reg (hv.regs _ hr')).2
    · rw [hread]
      decide

/-! ## In an epilogue -/

variable {m₀ m : Machine}

theorem Mirrors.telling {p e : List Op} (h : Mirrors p e) (ht : Telling p m₀ m) :
    Telling e m₀ m where
  sp := by
    rw [h.depth]
    exact ht.sp
  lost r hr := ht.lost r ((h.fst r).mp hr)
  apart r hr q hq hnot := ht.apart r ((h.fst r).mp hr) q hq (mt (h.saves _).mpr hnot)
  fp post op pre k hsplit hk q hq := by
    obtain ⟨post', op', pre', hsplit', hk', hdepth⟩ := h.fp post op pre k hsplit hk
    rw [hdepth]
    exact ht.fp post' op' pre' k hsplit' hk' q hq

theorem undo_mem (next : Pair) (op : Op) (m : Machine) : (op.undo next m).mem = m.mem := rfl

theorem undo_reg_of_not_mem {next : Pair} {op : Op} {r : Reg}
    (h : r ∉ (op.stores next).map Prod.fst) : (op.undo next m).reg r = m.reg r := by
  have key : ∀ (l : List (Reg × Nat)) (reg : Reg → Word), r ∉ l.map Prod.fst →
      l.foldl (fun reg e => Function.update reg e.1 (read64 m.mem (m.sp + BitVec.ofNat 64 e.2))) reg r =
        reg r := by
    intro l
    induction l with
    | nil => exact fun _ _ => rfl
    | cons e l ih =>
      intro reg hne
      rw [List.map_cons, List.mem_cons, not_or] at hne
      rw [List.foldl_cons, ih _ hne.2, Function.update_of_ne hne.1]
  exact key _ m.reg h

theorem Telling.undo {op : Op} (hv : Valid (op :: cs)) (hi : Intact (op :: cs) m₀ m) (ht : Telling (op :: cs) m₀ m) :
    Telling cs m₀ (op.undo (nextPair cs) m) where
  sp := by
    cases hfp : op.fp? with
    | some k =>
      have hval := hi.fp [] op cs k rfl hfp
      have hreg : (op.undo (nextPair cs) m).reg x29 = m.reg x29 := by
        apply undo_reg_of_not_mem
        rw [(fp?_spec hfp).2]
        exact List.not_mem_nil
      have hsp : (op.undo (nextPair cs) m).sp =
          (op.undo (nextPair cs) m).reg x29 - BitVec.ofNat 64 k := by
        rw [Op.undo, hfp]
      rw [hsp, hreg, hval]
      ring
    | none =>
      have hsp : (op.undo (nextPair cs) m).sp = m.sp + BitVec.ofNat 64 op.drop := by
        rw [Op.undo, hfp]
      rw [hsp, ht.sp, place_add, depth, Nat.cast_add, add_sub_cancel_right]
  lost r hr := by
    rw [undo_reg_of_not_mem]
    · apply ht.lost
      rw [saves, List.map_append]
      exact List.mem_append_right _ hr
    · intro hmem
      obtain ⟨e, he, rfl⟩ := List.mem_map.mp hmem
      exact hv.not_mem_tail he hr
  apart r hr q hq hnot := by
    rw [undo_mem]
    apply ht.apart r _ q hq
    · intro hmem
      rcases List.mem_append.mp hmem with hhead | htail
      · obtain ⟨e, he, heq⟩ := List.mem_map.mp hhead
        apply hv.not_mem_tail he
        rw [show e.1 = r from congrArg Prod.fst heq]
        exact hr
      · exact hnot htail
    · rw [saves, List.map_append]
      exact List.mem_append_right _ hr
  fp post o pre k hsplit hk := ht.fp (op :: post) o pre k (by rw [hsplit]; rfl) hk

theorem runEpilog_intact {k : Nat} {e : List Op} (hv : Valid e)
    (hi : Intact e m₀ m) : Intact (e.drop k) m₀ (runEpilog k e m) := by
  induction k generalizing e m with
  | zero => exact hi
  | succ k ih =>
    cases e with
    | nil => exact hi
    | cons op e => exact ih hv.tail (hi.undo hv)

theorem runEpilog_telling {k : Nat} {e : List Op} (hv : Valid e)
    (hi : Intact e m₀ m) (ht : Telling e m₀ m) : Telling (e.drop k) m₀ (runEpilog k e m) := by
  induction k generalizing e m with
  | zero => exact ht
  | succ k ih =>
    cases e with
    | nil => exact ht
    | cons op e => exact ih hv.tail (hi.undo hv) (ht.undo hv hi)

theorem Valid.drop {e : List Op} (hv : Valid e) (k : Nat) : Valid (e.drop k) := by
  rw [← List.take_append_drop k e] at hv
  exact hv.right

end Kernemul.Unwind.Arm64
