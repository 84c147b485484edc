import Kernemul.Win.Unwind.Prologue

/-!
# Unwinding inverts the prologue

Undoing the executed operations, the last one first, goes back from any stop point to the entry of the
function (`undo_run`): a register comes back with the first operation that saved it, and no later
operation has overwritten the slot. The unwinder does exactly that (`applyCodes_words`).
-/

namespace Kernemul.Unwind.X64

open Stack

/-! ## Undoing operations -/

def Op.undo (mem : Mem) (op : Op) (ctx : UnwindContext) : UnwindContext :=
  match op with
  | push r => { setGp ctx r (read64 mem ctx.sp) with sp := ctx.sp + 8#64 }
  | alloc a => { ctx with sp := ctx.sp + BitVec.ofNat 64 a.size }
  | setFpreg _ _ => ctx
  | save s =>
    match s.reg? with
    | some r => setGp ctx r (read64 mem (ctx.sp + BitVec.ofNat 64 s.off))
    | none => ctx

/-- Operations whose slots are apart, and which save a frame register before they set it. -/
structure Tidy (ops : List Op) : Prop where
  apart : (retSlot :: slotsFrom 0 ops).Pairwise Slot.Apart
  small : ∀ s ∈ retSlot :: slotsFrom 0 ops, s.Small
  frame : ∀ pre f k post, ops = pre ++ .setFpreg f k :: post → f.val ∈ savedBy pre

theorem Tidy.left {pre post : List Op} (h : Tidy (pre ++ post)) : Tidy pre := by
  have hsub : (retSlot :: slotsFrom 0 pre).Sublist (retSlot :: slotsFrom 0 (pre ++ post)) := by
    rw [slotsFrom_append]
    exact (List.sublist_append_left ..).cons_cons _
  refine ⟨h.apart.sublist hsub, fun s hs => h.small s (hsub.subset hs), ?_⟩
  intro a f k b hpre
  apply h.frame a f k (b ++ post)
  rw [hpre, List.append_assoc]
  rfl

variable {m m₀ : Machine} {top : Word} {d : Nat}

/-- Operations that can be undone for a set of registers: their slots are apart, and a register of the set is saved
before it is set. -/
structure Undoable (Q : Nat → Prop) (ops : List Op) : Prop where
  apart : (slotsFrom 0 ops).Pairwise Slot.Apart
  small : ∀ s ∈ slotsFrom 0 ops, s.Small
  saved_first : ∀ pre (f : Reg) k post, ops = pre ++ .setFpreg f k :: post → Q f → f.val ∈ savedBy pre

variable {ops : List Op}

theorem Tidy.undoable (h : Tidy ops) : Undoable Nonvolatile ops where
  apart := (List.pairwise_cons.mp h.apart).2
  small s hs := h.small s (List.mem_cons_of_mem _ hs)
  saved_first pre f k post hops _ := h.frame pre f k post hops

namespace Undoable

variable {Q : Nat → Prop}

theorem left {pre post : List Op} (h : Undoable Q (pre ++ post)) : Undoable Q pre := by
  have hsub : (slotsFrom 0 pre).Sublist (slotsFrom 0 (pre ++ post)) := by
    rw [slotsFrom_append]
    exact List.sublist_append_left ..
  refine ⟨h.apart.sublist hsub, fun s hs => h.small s (hsub.subset hs), ?_⟩
  intro a f k b hpre
  apply h.saved_first a f k (b ++ post)
  rw [hpre, List.append_assoc]
  rfl

theorem run_gp {ops : List Op} (h : Undoable Q ops) (m₀ : Machine) {r : Nat} (hQ : Q r) (hr : Nonvolatile r)
    (hns : r ∉ savedBy ops) : (run ops m₀).gp r = m₀.gp r := by
  induction ops using List.reverseRecOn with
  | nil => rfl
  | append_singleton ops op ih =>
    rw [savedBy_append, List.mem_append, not_or] at hns
    rw [run_append, run_singleton, exec_gp op _ hr.ne_rsp, ih h.left hns.1]
    rintro f k rfl rfl
    exact hns.1 (h.saved_first ops f k [] rfl hQ)

end Undoable

theorem run_gp (h : Tidy ops) (m₀ : Machine) {r : Nat} (hr : Nonvolatile r)
    (hns : r ∉ savedBy ops) : (run ops m₀).gp r = m₀.gp r := h.undoable.run_gp m₀ hr hr hns

theorem run_agree (m₀ : Machine) {s : Slot} (hs : s.Small) (hslots : ∀ t ∈ slotsFrom 0 ops, s.Apart t ∧ t.Small) :
    Slot.Agree (run ops m₀).mem m₀.mem (m₀.gp rsp) s := by
  induction ops using List.reverseRecOn with
  | nil => exact fun _ _ => rfl
  | append_singleton ops op ih =>
    rw [slotsFrom_append, slotsFrom, slotsFrom, List.append_nil, Nat.zero_add] at hslots
    rw [run_append, run_singleton]
    apply (exec_agree op (run_rsp ops m₀) hs _).trans
    · exact ih fun t ht => hslots t (List.mem_append_left _ ht)
    · exact fun t ht => hslots t (List.mem_append_right _ (Option.mem_toList.mpr ht))

/-- The slot of an operation that saves a register holds what the register held. -/
theorem exec_saved {op : Op} (hsp : m.gp rsp = top - BitVec.ofNat 64 d) {r : Reg}
    (hr : op.saved = some r) : ∃ s, op.slot (d + op.grow) = some s ∧ s.len = 8 ∧
      read64 (op.exec m).mem (s.addr top) = m.gp r := by
  cases op with
  | push r' =>
    cases hr
    refine ⟨_, rfl, rfl, ?_⟩
    have haddr : m.gp rsp - 8#64 = Slot.addr top ⟨d + 8, 0, 8⟩ := by
      rw [hsp, Slot.addr, BitVec.ofNat_add, BitVec.add_zero]
      ring
    rw [Op.exec, haddr]
    exact read64_write64 ..
  | alloc _ => cases hr
  | setFpreg _ _ => cases hr
  | save s =>
    refine ⟨⟨d, s.off, s.len⟩, rfl, ?_⟩
    cases s with
    | gp r' n =>
      cases hr
      rw [Op.exec, hsp]
      exact ⟨rfl, read64_write64 ..⟩
    | gpFar r' n =>
      cases hr
      rw [Op.exec, hsp]
      exact ⟨rfl, read64_write64 ..⟩
    | xmm _ _ => cases hr
    | xmmFar _ _ => cases hr

variable {ctx : UnwindContext}

theorem undo_sp {mem : Mem} {op : Op} (hsp : ctx.sp = top - BitVec.ofNat 64 (d + op.grow)) :
    (op.undo mem ctx).sp = top - BitVec.ofNat 64 d := by
  cases op with
  | push _ =>
    show ctx.sp + 8#64 = _
    rw [hsp, Op.grow, BitVec.ofNat_add]
    ring
  | alloc a =>
    show ctx.sp + BitVec.ofNat 64 a.size = _
    rw [hsp, Op.grow, BitVec.ofNat_add]
    ring
  | setFpreg _ _ => exact hsp
  | save s => cases s <;> exact hsp

theorem undo_saved {mem : Mem} {op : Op}
    (hsp : ctx.sp = top - BitVec.ofNat 64 (d + op.grow)) {r : Reg} (hr : op.saved = some r) {s : Slot}
    (hs : op.slot (d + op.grow) = some s) :
    (op.undo mem ctx).gp r = read64 mem (s.addr top) := by
  cases op with
  | push r' =>
    cases hr
    cases hs
    rw [Op.undo, hsp, Slot.addr, BitVec.add_zero]
    exact Function.update_self ..
  | alloc _ => cases hr
  | setFpreg _ _ => cases hr
  | save s' =>
    cases hs
    rw [Op.undo, show s'.reg? = some r from hr, hsp]
    exact Function.update_self ..

theorem undo_unsaved (mem : Mem) {op : Op} (ctx : UnwindContext) {r : Nat}
    (hr : ∀ r' ∈ op.saved, r ≠ r'.val) : (op.undo mem ctx).gp r = ctx.gp r := by
  cases op with
  | push r' => exact Function.update_of_ne (hr r' rfl) ..
  | alloc _ => rfl
  | setFpreg _ _ => rfl
  | save s =>
    cases h : s.reg? with
    | none => rw [Op.undo, h]
    | some r' =>
      rw [Op.undo, h]
      exact Function.update_of_ne (hr r' h) ..

/-- Undoing the operations leads back to where they began for the registers of a set, from any context that has those
they did not save, over any memory that still has what they stored. -/
theorem Undoable.undo_run {Q : Nat → Prop} (hQ : ∀ r, Q r → Nonvolatile r)
    (h : Undoable Q ops) {mem : Mem} (htop : m₀.gp rsp = top)
    (hmem : ∀ s ∈ slotsFrom 0 ops, Slot.Agree mem (run ops m₀).mem top s)
    (hsp : ctx.sp = top - BitVec.ofNat 64 (depth ops)) (hgp : ∀ r, Q r → r ∉ savedBy ops → ctx.gp r = m₀.gp r) :
    (ops.foldr (Op.undo mem) ctx).sp = top ∧
      ∀ r, Q r → (ops.foldr (Op.undo mem) ctx).gp r = m₀.gp r := by
  induction ops using List.reverseRecOn generalizing ctx with
  | nil =>
    refine ⟨?_, fun r hr => hgp r hr (by simp [savedBy])⟩
    rw [List.foldr_nil, hsp]
    simp [depth]
  | append_singleton ops op ih =>
    rw [List.foldr_append, List.foldr_cons, List.foldr_nil]
    have hrsp : (run ops m₀).gp rsp = top - BitVec.ofNat 64 (depth ops) := by rw [run_rsp, htop]
    rw [depth_append, depth_singleton] at hsp
    have hslots : slotsFrom 0 (ops ++ [op]) =
        slotsFrom 0 ops ++ (op.slot (depth ops + op.grow)).toList := by
      rw [slotsFrom_append, slotsFrom, slotsFrom, List.append_nil, Nat.zero_add]
    have hown : ∀ t ∈ op.slot (depth ops + op.grow), t ∈ slotsFrom 0 (ops ++ [op]) := by
      intro t ht
      rw [hslots]
      exact List.mem_append_right _ (Option.mem_toList.mpr ht)
    have hold : ∀ s ∈ slotsFrom 0 ops, s ∈ slotsFrom 0 (ops ++ [op]) := by
      intro s hs
      rw [hslots]
      exact List.mem_append_left _ hs
    rw [run_append, run_singleton] at hmem
    -- the last operation left the slots before it alone
    have hmem' : ∀ s ∈ slotsFrom 0 ops, Slot.Agree mem (run ops m₀).mem top s := by
      intro s hs
      apply (hmem s (hold s hs)).trans
      apply exec_agree op hrsp (h.small s (hold s hs))
      intro t ht
      refine ⟨?_, h.small t (hown t ht)⟩
      have hpair := h.apart
      rw [hslots] at hpair
      exact (List.pairwise_append.mp hpair).2.2 s hs t (Option.mem_toList.mpr ht)
    apply ih h.left hmem' (undo_sp hsp)
    intro r hr hns
    cases hsaved : op.saved with
    | none =>
      rw [undo_unsaved mem ctx (by simp [hsaved])]
      apply hgp r hr
      rw [savedBy_append, List.mem_append, not_or]
      exact ⟨hns, by simp [savedBy, hsaved]⟩
    | some r' =>
      by_cases heq : r = r'.val
      · obtain ⟨s, hs, hlen, hread⟩ := exec_saved hrsp hsaved
        rw [heq, undo_saved hsp hsaved hs, (hmem s (hown s hs)).read64 hlen, hread, ← heq,
          h.left.run_gp m₀ hr (hQ r hr) hns]
      · rw [undo_unsaved mem ctx (by simpa [hsaved] using heq)]
        apply hgp r hr
        rw [savedBy_append, List.mem_append, not_or]
        exact ⟨hns, by simpa [savedBy, hsaved] using heq⟩

/-- Undoing the operations of a function leads back to where they began, with the return address. -/
theorem undo_run (h : Tidy ops) {mem : Mem} (htop : m₀.gp rsp = top)
    (hmem : ∀ s ∈ retSlot :: slotsFrom 0 ops, Slot.Agree mem (run ops m₀).mem top s)
    (hsp : ctx.sp = top - BitVec.ofNat 64 (depth ops))
    (hgp : ∀ r, Nonvolatile r → r ∉ savedBy ops → ctx.gp r = m₀.gp r) :
    (ops.foldr (Op.undo mem) ctx).sp = top ∧ (∀ r, Nonvolatile r → (ops.foldr (Op.undo mem) ctx).gp r = m₀.gp r) ∧
      read64 mem top = read64 m₀.mem top := by
  obtain ⟨hsp', hgp'⟩ := h.undoable.undo_run (fun _ hr => hr) htop
    (fun s hs => hmem s (List.mem_cons_of_mem _ hs)) hsp hgp
  have hret : Slot.Agree mem m₀.mem top retSlot := by
    apply (hmem retSlot (List.mem_cons_self ..)).trans
    rw [← htop]
    apply run_agree m₀ (h.small _ (List.mem_cons_self ..))
    intro t ht
    exact ⟨(List.pairwise_cons.mp h.apart).1 t ht, h.small t (List.mem_cons_of_mem _ ht)⟩
  have := hret.read64 rfl
  refine ⟨hsp', hgp', ?_⟩
  simpa [Slot.addr, retSlot] using this

/-! ## The slots of a prologue -/

theorem depth_pushes (l : List (Nat × Reg)) : depth (l.map fun o => Op.push o.2) = 8 * l.length := by
  induction l with
  | nil => rfl
  | cons o l ih =>
    rw [List.map_cons, ← List.singleton_append, depth_append, depth_singleton, ih, List.length_cons]
    simp only [Op.grow]
    omega

theorem slots_pushes (l : List (Nat × Reg)) (d : Nat) :
    (∀ s ∈ slotsFrom d (l.map fun o => Op.push o.2), s.off = 0 ∧ s.len = 8 ∧ d + 8 ≤ s.depth ∧
      s.depth ≤ d + 8 * l.length) ∧
    (slotsFrom d (l.map fun o => Op.push o.2)).Pairwise Slot.Apart := by
  induction l generalizing d with
  | nil => simp [slotsFrom]
  | cons o l ih =>
    obtain ⟨hall, hpair⟩ := ih (d + 8)
    have hcons : slotsFrom d ((o :: l).map fun o => Op.push o.2) =
        ⟨d + 8, 0, 8⟩ :: slotsFrom (d + 8) (l.map fun o => Op.push o.2) := rfl
    rw [hcons, List.length_cons]
    constructor
    · intro s hs
      rcases List.mem_cons.mp hs with rfl | hs
      · exact ⟨rfl, rfl, le_refl _, by dsimp only; omega⟩
      · obtain ⟨h0, h8, hlo, hhi⟩ := hall s hs
        exact ⟨h0, h8, by omega, by omega⟩
    · refine List.pairwise_cons.mpr ⟨fun s hs => ?_, hpair⟩
      obtain ⟨h0, h8, hlo, hhi⟩ := hall s hs
      unfold Slot.Apart
      dsimp only
      omega

theorem slots_allocs (l : List (Nat × Alloc)) (d : Nat) :
    slotsFrom d (l.map fun o => Op.alloc o.2) = [] := by
  induction l generalizing d with
  | nil => rfl
  | cons o l ih => exact ih _

theorem slots_saves (l : List (Nat × Save)) (d : Nat) :
    slotsFrom d (l.map fun o => Op.save o.2) = l.map fun o => ⟨d, o.2.off, o.2.len⟩ := by
  induction l with
  | nil => rfl
  | cons o l ih =>
    rw [List.map_cons, List.map_cons, ← ih]
    rfl

theorem Op.length_encode_pos (off : Nat) (op : Op) : 0 < (op.encode off).length := by
  cases op with
  | push _ => exact Nat.one_pos
  | alloc a => cases a <;> exact Nat.succ_pos _
  | setFpreg _ _ => exact Nat.one_pos
  | save s => cases s <;> exact Nat.succ_pos _

theorem length_le_words (l : List (Nat × Op)) :
    l.length ≤ (l.flatMap fun o => o.2.encode o.1).length := by
  induction l with
  | nil => exact le_refl _
  | cons o l ih =>
    have := Op.length_encode_pos o.1 o.2
    rw [List.flatMap_cons, List.length_append, List.length_cons]
    omega

theorem Alloc.size_le (a : Alloc) : a.size ≤ 2 ^ 32 := by
  cases a <;> simp only [Alloc.size] <;> omega

theorem Save.off_le (s : Save) : s.off + s.len ≤ 2 ^ 33 := by
  cases s <;> simp only [Save.off, Save.len] <;> omega

namespace Prologue

variable (p : Prologue)

theorem ops_eq : p.ops = p.pushes.map (fun o => Op.push o.2) ++
    (p.allocs.map (fun o => Op.alloc o.2) ++
      (p.frame.toList.map (fun o => Op.setFpreg o.2.1 o.2.2) ++
        p.saves.map fun o => Op.save o.2)) := by
  simp [Layout.ops, Layout.timed, Function.comp_def]

theorem depth_allocs : depth (p.allocs.map fun o => Op.alloc o.2) = p.allocated := by
  simp [depth, Layout.allocated, Function.comp_def, Op.grow]

theorem slots_eq : slotsFrom 0 p.ops = slotsFrom 0 (p.pushes.map fun o => Op.push o.2) ++
    p.saves.map fun o => ⟨8 * p.pushes.length + p.allocated, o.2.off, o.2.len⟩ := by
  have hframe : ∀ d, slotsFrom d (p.frame.toList.map fun o => Op.setFpreg o.2.1 o.2.2) = [] := by
    intro d
    cases p.frame <;> rfl
  have hdepth : depth (p.frame.toList.map fun o => Op.setFpreg o.2.1 o.2.2) = 0 := by
    cases p.frame <;> rfl
  rw [p.ops_eq, slotsFrom_append, slotsFrom_append, slotsFrom_append, slots_allocs, hframe, slots_saves,
    depth_pushes, p.depth_allocs, hdepth]
  simp

theorem apart : (retSlot :: slotsFrom 0 p.ops).Pairwise Slot.Apart := by
  obtain ⟨hpush, hpair⟩ := slots_pushes p.pushes 0
  rw [p.slots_eq]
  have hsave : ∀ t ∈ p.saves.map fun o => (⟨8 * p.pushes.length + p.allocated, o.2.off, o.2.len⟩ : Slot),
      t.depth = 8 * p.pushes.length + p.allocated ∧
        (t.off + t.len ≤ p.allocated ∨ p.allocated + 8 * p.pushes.length + 8 ≤ t.off) := by
    intro t ht
    obtain ⟨o, ho, rfl⟩ := List.mem_map.mp ht
    exact ⟨rfl, p.saves_placed o ho⟩
  refine List.pairwise_cons.mpr ⟨fun t ht => ?_, List.pairwise_append.mpr ⟨hpair, ?_, ?_⟩⟩
  · unfold Slot.Apart retSlot
    rcases List.mem_append.mp ht with ht | ht
    · obtain ⟨h0, h8, hlo, hhi⟩ := hpush t ht
      dsimp only
      omega
    · obtain ⟨hd, hplace⟩ := hsave t ht
      dsimp only
      omega
  · refine List.pairwise_map.mpr (p.saves_apart.imp ?_)
    intro a b hab
    unfold Slot.Apart
    dsimp only
    omega
  · intro s hs t ht
    obtain ⟨h0, h8, hlo, hhi⟩ := hpush s hs
    obtain ⟨hd, hplace⟩ := hsave t ht
    unfold Slot.Apart
    omega

theorem length_timed : p.timed.length < 256 := by
  have := length_le_words p.timed.reverse
  rw [List.length_reverse] at this
  exact lt_of_le_of_lt this p.words_fit

theorem allocated_le : p.allocated ≤ 2 ^ 32 * p.allocs.length := by
  unfold Layout.allocated
  induction p.allocs with
  | nil => simp
  | cons a l ih =>
    have := Alloc.size_le a.2
    rw [List.map_cons, List.sum_cons, List.length_cons]
    omega

theorem small : ∀ s ∈ retSlot :: slotsFrom 0 p.ops, s.Small := by
  have hlen := p.length_timed
  have halloc := p.allocated_le
  simp only [Layout.timed, List.length_append, List.length_map] at hlen
  intro s hs
  rw [p.slots_eq] at hs
  unfold Slot.Small
  rcases List.mem_cons.mp hs with rfl | hs
  · decide
  rcases List.mem_append.mp hs with hs | hs
  · obtain ⟨h0, h8, hlo, hhi⟩ := (slots_pushes p.pushes 0).1 s hs
    omega
  · obtain ⟨o, ho, rfl⟩ := List.mem_map.mp hs
    have := Save.off_le o.2
    dsimp only
    omega

theorem setFpreg_mem {f : Reg} {k : Fin 16} (h : Op.setFpreg f k ∈ p.ops) :
    ∃ o, p.frame = some (o, f, k) := by
  rw [p.ops_eq] at h
  simp only [List.mem_append, List.mem_map, reduceCtorEq, and_false, exists_false, false_or, or_false,
    Option.mem_toList, Op.setFpreg.injEq] at h
  obtain ⟨⟨o, f', k'⟩, ho, rfl, rfl⟩ := h
  exact ⟨o, ho⟩

theorem tidy : Tidy p.ops := by
  refine ⟨p.apart, p.small, ?_⟩
  intro pre f k post hops
  obtain ⟨o, ho⟩ := p.setFpreg_mem (hops ▸ List.mem_append_right _ (List.mem_cons_self ..))
  have hpushed : f.val ∈ savedBy (p.pushes.map fun o => Op.push o.2) := by
    obtain ⟨a, ha, hf⟩ := List.mem_map.mp (p.frame_pushed _ ho)
    refine List.mem_filterMap.mpr ⟨.push a.2, List.mem_map_of_mem ha, ?_⟩
    rw [hf]
    rfl
  rw [p.ops_eq] at hops
  rcases List.append_eq_append_iff.mp hops with ⟨mid, hpre, -⟩ | ⟨mid, hpre, hpost⟩
  · rw [hpre, savedBy_append]
    exact List.mem_append_left _ hpushed
  · cases mid with
    | nil =>
      rw [List.append_nil] at hpre
      exact hpre ▸ hpushed
    | cons op mid =>
      have : Op.setFpreg f k ∈ p.pushes.map fun o => Op.push o.2 := by
        rw [hpre, ← (List.cons.inj hpost).1]
        exact List.mem_append_right _ (List.mem_cons_self ..)
      simp at this

end Prologue

end Kernemul.Unwind.X64
