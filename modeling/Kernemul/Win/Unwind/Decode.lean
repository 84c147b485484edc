import Kernemul.Win.Unwind.Inversion

/-!
# The unwinder on the codes of a prologue

The loop over the codes undoes, one after the other, the operations it does not skip
(`applyCodes_words`). In the prologue it skips exactly what has not been executed; in the body it skips
nothing, and starts from the frame register if there is one.
-/

namespace Kernemul.Unwind.X64

open Stack

/-! ## Reading one code -/

section
variable {off op info : Nat}

theorem codeOffset_word (ho : off < 256) : codeOffset (word off op info) = off := by
  unfold codeOffset word
  omega

theorem codeInfo_word (ho : off < 256) (hop : op < 16) (hi : info < 16) :
    codeInfo (word off op info) = info := by
  unfold codeInfo word
  omega

theorem codeOp_word (ho : off < 256) (hop : op < 16) : codeOp (word off op info) = opcode op := by
  unfold codeOp
  congr 1
  unfold word
  omega

end

theorem farOffset_eq {codes : Nat → Nat} {i n : Nat} (h1 : codes (i + 1) = n % 2 ^ 16)
    (h2 : codes (i + 2) = n / 2 ^ 16) : farOffset codes i = n := by
  unfold farOffset
  rw [h1, h2, Nat.or_comm, ← Nat.shiftLeft_add_eq_or_of_lt (Nat.mod_lt _ (by decide)),
    Nat.shiftLeft_eq]
  omega

theorem applyCode_encode (mem : Mem) {codes : Nat → Nat} {i off : Nat} (ho : off < 256) {op : Op}
    (h : HoldsAt codes i (op.encode off)) :
    codeOffset (codes i) = off ∧ codeSlots (codes i) = (op.encode off).length ∧
      codeOp (codes i) ≠ .pushMachframe ∧
      ∀ ctx, applyCode mem codes i ctx = op.undo mem ctx := by
  have key : ∀ (o inf : Nat) (ws : List Nat), op.encode off = word off o inf :: ws → o < 16 →
      inf < 16 → codeOffset (codes i) = off ∧ codeOp (codes i) = opcode o ∧
        codeInfo (codes i) = inf ∧ HoldsAt codes (i + 1) ws := by
    intro o inf ws henc hlt hinf
    rw [henc, holdsAt_cons] at h
    rw [h.1]
    exact ⟨codeOffset_word ho, codeOp_word ho hlt, codeInfo_word ho hlt hinf, h.2⟩
  cases op with
  | push r =>
    obtain ⟨h1, h2, h3, -⟩ := key 0 r [] rfl (by omega) r.2.lt
    refine ⟨h1, by simp [codeSlots, h2, opcode, Op.encode], by simp [h2, opcode], fun ctx => ?_⟩
    simp [applyCode, h2, h3, opcode, Op.undo]
  | alloc a =>
    cases a with
    | small n =>
      obtain ⟨h1, h2, h3, -⟩ := key 2 n [] rfl (by omega) n.2
      refine ⟨h1, by simp [codeSlots, h2, opcode, Op.encode], by simp [h2, opcode], fun ctx => ?_⟩
      simp [applyCode, h2, h3, opcode, Op.undo, Alloc.size]
    | large n =>
      obtain ⟨h1, h2, h3, hrest⟩ := key 1 0 [n] rfl (by omega) (by omega)
      have hn := (holdsAt_cons.mp hrest).1
      refine ⟨h1, by simp [codeSlots, h2, h3, opcode, Op.encode], by simp [h2, opcode], fun ctx => ?_⟩
      simp [applyCode, h2, h3, opcode, Op.undo, Alloc.size, hn]
    | huge n =>
      obtain ⟨h1, h2, h3, hrest⟩ := key 1 1 [n % 2 ^ 16, n / 2 ^ 16] rfl (by omega) (by omega)
      obtain ⟨hlo, hhi⟩ := holdsAt_cons.mp hrest
      have hn := farOffset_eq hlo (holdsAt_cons.mp hhi).1
      refine ⟨h1, by simp [codeSlots, h2, h3, opcode, Op.encode], by simp [h2, opcode], fun ctx => ?_⟩
      simp [applyCode, h2, h3, opcode, Op.undo, Alloc.size, hn]
  | setFpreg f k =>
    obtain ⟨h1, h2, h3, -⟩ := key 3 0 [] rfl (by omega) (by omega)
    refine ⟨h1, by simp [codeSlots, h2, opcode, Op.encode], by simp [h2, opcode], fun ctx => ?_⟩
    simp [applyCode, h2, opcode, Op.undo]
  | save s =>
    cases s with
    | gp r n =>
      obtain ⟨h1, h2, h3, hrest⟩ := key 4 r [n] rfl (by omega) r.2.lt
      have hn := (holdsAt_cons.mp hrest).1
      refine ⟨h1, by simp [codeSlots, h2, opcode, Op.encode], by simp [h2, opcode], fun ctx => ?_⟩
      simp [applyCode, h2, h3, opcode, Op.undo, Save.reg?, Save.off, hn]
    | gpFar r n =>
      obtain ⟨h1, h2, h3, hrest⟩ := key 5 r [n % 2 ^ 16, n / 2 ^ 16] rfl (by omega) r.2.lt
      obtain ⟨hlo, hhi⟩ := holdsAt_cons.mp hrest
      have hn := farOffset_eq hlo (holdsAt_cons.mp hhi).1
      refine ⟨h1, by simp [codeSlots, h2, opcode, Op.encode], by simp [h2, opcode], fun ctx => ?_⟩
      simp [applyCode, h2, h3, opcode, Op.undo, Save.reg?, Save.off, hn]
    | xmm x n =>
      obtain ⟨h1, h2, h3, -⟩ := key 8 x [n] rfl (by omega) x.2
      refine ⟨h1, by simp [codeSlots, h2, opcode, Op.encode], by simp [h2, opcode], fun ctx => ?_⟩
      simp [applyCode, h2, opcode, Op.undo, Save.reg?]
    | xmmFar x n =>
      obtain ⟨h1, h2, h3, -⟩ := key 9 x [n % 2 ^ 16, n / 2 ^ 16] rfl (by omega) x.2
      refine ⟨h1, by simp [codeSlots, h2, opcode, Op.encode], by simp [h2, opcode], fun ctx => ?_⟩
      simp [applyCode, h2, opcode, Op.undo, Save.reg?]

/-! ## The loop -/

section
variable {mem : Mem} {info : UnwindInfo} {inProlog : Bool} {rva : Nat}

theorem applyCodes_epilogs (es : List EpilogCode) {i fuel : Nat}
    (h : HoldsAt info.codes i (es.flatMap EpilogCode.words))
    (hcount : i + (es.flatMap EpilogCode.words).length ≤ info.unwindCodeCount) (ctx : UnwindContext) :
    applyCodes mem info inProlog rva (es.length + fuel) i ctx =
      applyCodes mem info inProlog rva fuel (i + (es.flatMap EpilogCode.words).length) ctx := by
  induction es generalizing i with
  | nil => simp
  | cons e es ih =>
    rw [List.flatMap_cons, holdsAt_append] at h
    rw [List.flatMap_cons, List.length_append] at hcount
    have hlen : e.words.length = 2 := rfl
    have hop : codeOp (info.codes i) = .epilog := by
      rw [(holdsAt_cons.mp h.1).1]
      exact codeOp_word e.off.2 (by omega)
    have hslots : codeSlots (info.codes i) = 2 := by rw [codeSlots, hop]
    have happly : applyCode mem info.codes i ctx = ctx := by simp [applyCode, hop]
    rw [hlen] at h hcount
    rw [List.length_cons, show es.length + 1 + fuel = es.length + fuel + 1 by omega, applyCodes,
      if_pos (by omega)]
    simp only [hop, happly, hslots, reduceCtorEq, if_false, ite_self]
    rw [ih h.2 (by omega), List.flatMap_cons, List.length_append, hlen, Nat.add_assoc]

theorem applyCodes_words (os : List (Nat × Op)) (hos : ∀ o ∈ os, o.1 < 256) {i fuel : Nat}
    (h : HoldsAt info.codes i (os.flatMap fun o => o.2.encode o.1))
    (hcount : i + (os.flatMap fun o => o.2.encode o.1).length = info.unwindCodeCount)
    (hfuel : os.length ≤ fuel) (ctx : UnwindContext) :
    applyCodes mem info inProlog rva fuel i ctx =
      ((os.filter fun o => !(inProlog && decide (rva < o.1))).foldl (fun c o => o.2.undo mem c) ctx,
        false) := by
  induction os generalizing i fuel ctx with
  | nil =>
    cases fuel with
    | zero => rfl
    | succ fuel =>
      rw [applyCodes, if_neg (by simp at hcount; omega)]
      rfl
  | cons o os ih =>
    obtain ⟨fuel, rfl⟩ : ∃ n, fuel = n + 1 := ⟨fuel - 1, by simp at hfuel; omega⟩
    rw [List.flatMap_cons, holdsAt_append] at h
    rw [List.flatMap_cons, List.length_append] at hcount
    have hpos := Op.length_encode_pos o.1 o.2
    obtain ⟨hoff, hslots, hop, happly⟩ :=
      applyCode_encode mem (hos o (List.mem_cons_self ..)) h.1
    rw [applyCodes, if_pos (by omega)]
    simp only [hoff, hslots, if_neg hop, happly, List.filter_cons]
    rw [List.length_cons] at hfuel
    have ih' := fun ctx => ih (fun o ho => hos o (List.mem_cons_of_mem _ ho)) h.2 (by omega)
      (Nat.le_of_succ_le_succ hfuel) ctx
    cases hskip : inProlog && decide (rva < o.1) with
    | true => simp [ih']
    | false => simp [ih']

end

/-! ## Stop points -/

theorem exists_append_of_sorted {α : Type*} (f : α → Nat) (n : Nat) {l : List α}
    (h : l.Pairwise fun a b => f a ≤ f b) :
    ∃ r, l = l.filter (fun a => decide (f a ≤ n)) ++ r := by
  induction l with
  | nil => exact ⟨[], rfl⟩
  | cons a l ih =>
    obtain ⟨hle, hl⟩ := List.pairwise_cons.mp h
    by_cases ha : f a ≤ n
    · obtain ⟨r, hr⟩ := ih hl
      refine ⟨r, ?_⟩
      rw [List.filter_cons_of_pos (by simpa using ha), List.cons_append, ← hr]
    · refine ⟨a :: l, ?_⟩
      rw [List.filter_cons_of_neg (by simpa using ha), List.filter_eq_nil_iff.mpr, List.nil_append]
      intro b hb
      have := hle b hb
      simp
      omega

namespace Prologue

variable (p : Prologue)

theorem executed_tidy (off : Nat) : Tidy (p.executed off) := by
  obtain ⟨r, hr⟩ := exists_append_of_sorted Prod.fst off p.in_order
  have h : Tidy (p.executed off ++ r.map Prod.snd) := by
    rw [Layout.executed, ← List.map_append, ← hr]
    exact p.tidy
  exact h.left

theorem executed_body {off : Nat} (h : p.size ≤ off) : p.executed off = p.ops := by
  rw [Layout.executed, List.filter_eq_self.mpr]
  · rfl
  · intro o ho
    have := p.within o ho
    simp
    omega

theorem frame_value (m₀ : Machine) {o : Nat} {f : Reg} {k : Fin 16} (h : p.frame = some (o, f, k)) :
    (run p.ops m₀).gp f - BitVec.ofNat 64 (k * 16) = (run p.ops m₀).gp rsp := by
  have hsaves : ∀ (l : List (Nat × Save)) (m : Machine), (run (l.map fun o => Op.save o.2) m).gp = m.gp := by
    intro l
    induction l with
    | nil => exact fun _ => rfl
    | cons s l ih =>
      intro m
      have hstep : ((Op.save s.2).exec m).gp = m.gp := by
        obtain ⟨_, s⟩ := s
        cases s <;> rfl
      exact (ih _).trans hstep
  rw [p.ops_eq, h, run_append, run_append, run_append, hsaves]
  simp [run, Op.exec, (Nonvolatile.ne_rsp f.2).symm]

end Prologue

theorem length_le_epilogs (es : List EpilogCode) :
    es.length ≤ (es.flatMap EpilogCode.words).length := by
  induction es with
  | nil => exact le_refl _
  | cons e es ih =>
    have : e.words.length = 2 := rfl
    rw [List.flatMap_cons, List.length_append, List.length_cons]
    omega

/-- The loop passes over the codes of epilogues, and undoes the operations it does not skip. -/
theorem applyCodes_encoded {epilogs : List EpilogCode} {os : List (Nat × Op)} (hos : ∀ o ∈ os, o.1 < 256)
    (hcount : info.unwindCodeCount =
      (epilogs.flatMap EpilogCode.words ++ os.flatMap fun o => o.2.encode o.1).length)
    (hcodes : HoldsAt info.codes 0 (epilogs.flatMap EpilogCode.words ++ os.flatMap fun o => o.2.encode o.1))
    (ctx : UnwindContext) :
    applyCodes mem info inProlog rva info.unwindCodeCount 0 ctx =
      ((os.filter fun o => !(inProlog && decide (rva < o.1))).foldl (fun c o => o.2.undo mem c) ctx, false) := by
  obtain ⟨hepilogs, hwords⟩ := holdsAt_append.mp hcodes
  rw [List.length_append] at hcount
  have hlen := length_le_words os
  have hepi := length_le_epilogs epilogs
  obtain ⟨fuel, hfuel⟩ := Nat.exists_eq_add_of_le (hepi.trans (Nat.le.intro hcount.symm))
  rw [hfuel, applyCodes_epilogs epilogs hepilogs (by omega)]
  exact applyCodes_words os hos hwords (by rw [hcount, Nat.zero_add]) (by omega) ctx

theorem applyCodes_executed {p : Prologue} {info : UnwindInfo} {epilogs : List EpilogCode}
    (henc : Encodes info p epilogs) (mem : Mem) (off : Nat) (ctx : UnwindContext) :
    applyCodes mem info (decide (off < p.size)) off info.unwindCodeCount 0 ctx =
      ((p.executed off).foldr (Op.undo mem) ctx, false) := by
  have hdone : (p.timed.filter fun o => !(decide (off < p.size) && decide (off < o.1))) =
      p.timed.filter fun o => decide (o.1 ≤ off) := by
    apply List.filter_congr
    intro o ho
    have := p.within o ho
    rw [Bool.eq_iff_iff]
    simp
    omega
  have hshort : ∀ o ∈ p.timed.reverse, o.1 < 256 := by
    intro o ho
    exact lt_of_le_of_lt (p.within o (List.mem_reverse.mp ho)) p.size_lt
  rw [applyCodes_encoded hshort henc.count henc.codes, List.filter_reverse, List.foldl_reverse, hdone,
    Layout.executed, List.foldr_map]

/-- Right after the prologue the body has begun; a function with a frame register may have moved rsp. -/
theorem InBody.of_run (p : Prologue) (m₀ : Machine) (sp : Word)
    (h : p.frame = none → sp = (run p.ops m₀).gp rsp) :
    InBody p m₀ { run p.ops m₀ with gp := Function.update (run p.ops m₀).gp rsp sp } where
  kept r hr hns := by
    dsimp only
    rw [Function.update_of_ne hr.ne_rsp]
    exact run_gp p.tidy m₀ hr hns
  sp hnone := by
    dsimp only
    rw [Function.update_self]
    exact h hnone
  frame f hf := Function.update_of_ne (Nonvolatile.ne_rsp f.2.1.2) ..
  stack _ _ _ _ := rfl

theorem rvaInFunc_eq (modAddr : Word) (start off : BitVec 32) :
    (modAddr + start.setWidth 64 + off.setWidth 64 - modAddr).setWidth 32 - start = off := by
  rw [show modAddr + start.setWidth 64 + off.setWidth 64 - modAddr =
      start.setWidth 64 + off.setWidth 64 by ring, BitVec.setWidth_add _ _ (by decide),
    BitVec.setWidth_setWidth_of_le _ (by decide), BitVec.setWidth_setWidth_of_le _ (by decide),
    BitVec.setWidth_eq, BitVec.setWidth_eq]
  ring

/-- What unwinding needs of a function entered at `m₀` and stopped at an offset, of the registers it
stopped with and of the memory it is unwound over. -/
structure Halted (p : Prologue) (m₀ : Machine) (off : Nat) (gp : Nat → Word) (mem : Mem) : Prop where
  kept : ∀ r, Nonvolatile r → r ∉ savedBy (p.executed off) → gp r = m₀.gp r
  sp : p.frame = none ∨ off < p.size →
    gp rsp = m₀.gp rsp - BitVec.ofNat 64 (depth (p.executed off))
  frame : p.size ≤ off → ∀ f ∈ p.frame, gp f.2.1 = (run p.ops m₀).gp f.2.1
  stack : ∀ s ∈ retSlot :: slotsFrom 0 (p.executed off),
    Slot.Agree mem (run (p.executed off) m₀).mem (m₀.gp rsp) s

theorem StoppedAt.halted {p : Prologue} {m₀ m : Machine} {off : Nat} (h : StoppedAt p m₀ off m) :
    Halted p m₀ off m.gp m.mem := by
  cases h with
  | prolog h =>
    refine ⟨fun r hr hns => run_gp (p.executed_tidy off) m₀ hr hns, fun _ => run_rsp .., ?_,
      fun _ _ _ _ => rfl⟩
    intro hsize
    omega
  | body h hm =>
    refine ⟨?_, ?_, fun _ => hm.frame, ?_⟩ <;> rw [p.executed_body h]
    · exact hm.kept
    · intro hnone
      rw [hm.sp (hnone.resolve_right (by omega)), run_rsp]
    · exact hm.stack

namespace Halted

variable {p : Prologue} {info : UnwindInfo} {epilogs : List EpilogCode} {m₀ : Machine} {off : Nat}
  {gp : Nat → Word} {mem : Mem}

theorem fromFrame_sp (henc : Encodes info p epilogs) (h : Halted p m₀ off gp mem)
    {ctx : UnwindContext} (hsp : ctx.sp = gp rsp) (hgp : ∀ r, Nonvolatile r → ctx.gp r = gp r) :
    (fromFrame info (decide (off < p.size)) ctx).sp =
      m₀.gp rsp - BitVec.ofNat 64 (depth (p.executed off)) := by
  unfold fromFrame
  by_cases hoff : off < p.size
  · rw [if_neg (by simp [hoff]), hsp]
    exact h.sp (.inr hoff)
  · cases hframe : p.frame with
    | none =>
      rw [if_neg (by simp [henc.no_frame hframe]), hsp]
      exact h.sp (.inl hframe)
    | some f =>
      obtain ⟨o, f, k⟩ := f
      obtain ⟨hreg, hfoff⟩ := henc.frame _ hframe
      rw [if_pos ⟨by rw [hreg]; exact f.2.ne_zero, by simpa using hoff⟩, hreg, hfoff]
      show ctx.gp f - _ = _
      rw [hgp f f.2, h.frame (by omega) _ hframe, p.frame_value m₀ hframe,
        p.executed_body (by omega), run_rsp]

theorem applyUnwindInfo {img : Image} {modAddr : Word} {func : RuntimeFunction} {off : BitVec 32}
    (henc : Encodes (img func.unwindInfoRva) p epilogs) (h : Halted p m₀ off.toNat gp mem)
    {ctx : UnwindContext} (hsp : ctx.sp = gp rsp) (hgp : ∀ r, Nonvolatile r → ctx.gp r = gp r)
    (hpc : ctx.pc = modAddr + func.beginAddress.setWidth 64 + off.setWidth 64) (fuel : Nat) :
    ∃ result ctx', X64.applyUnwindInfo img mem modAddr func (fuel + 1) func.unwindInfoRva ctx =
        some (result, ctx') ∧
      result.establisherFrame = m₀.gp rsp - BitVec.ofNat 64 (depth (p.executed off.toNat)) ∧
      ctx'.sp = m₀.gp rsp + 8#64 ∧ ctx'.gp rsp = m₀.gp rsp + 8#64 ∧
      ctx'.pc = read64 m₀.mem (m₀.gp rsp) ∧ ∀ r, Nonvolatile r → ctx'.gp r = m₀.gp r := by
  have hfrom := h.fromFrame_sp henc hsp hgp
  obtain ⟨hsp', hgp', hret⟩ := undo_run (p.executed_tidy off.toNat) rfl h.stack hfrom
    (fun r hr hns => by rw [fromFrame_gp, hgp r hr]; exact h.kept r hr hns)
  rw [X64.applyUnwindInfo]
  simp only [hpc, rvaInFunc_eq, henc.size, applyCodes_executed henc, henc.unchained,
    Bool.false_eq_true, if_false]
  refine ⟨_, _, rfl, ?_, ?_, ?_, ?_, ?_⟩
  · rw [← hfrom]
    split <;> rfl
  · dsimp only [setGp]
    rw [hsp']
  · dsimp only [setGp]
    rw [hsp', Function.update_self]
  · dsimp only [setGp]
    rw [hsp', hret]
  · intro r hr
    dsimp only [setGp]
    rw [Function.update_of_ne hr.ne_rsp]
    exact hgp' r hr

end Halted

/-- **x64 unwinding inverts the prologue.** Wherever in the prologue or in the body the function is
stopped, applying its unwind data gives the caller's rsp, the return address, and the nonvolatile
registers as they were on entry. -/
theorem applyUnwindInfo_inverts (p : Prologue) (img : Image) (modAddr : Word) (func : RuntimeFunction)
    (epilogs : List EpilogCode) (henc : Encodes (img func.unwindInfoRva) p epilogs) (m₀ m : Machine)
    (off : BitVec 32) (hstop : StoppedAt p m₀ off.toNat m) (fuel : Nat) :
    ∃ result ctx, applyUnwindInfo img m.mem modAddr func (fuel + 1) func.unwindInfoRva
        (contextFromVcpu m.gp (modAddr + func.beginAddress.setWidth 64 + off.setWidth 64)) =
          some (result, ctx) ∧
      ctx.sp = m₀.gp rsp + 8#64 ∧ ctx.gp rsp = m₀.gp rsp + 8#64 ∧
      ctx.pc = read64 m₀.mem (m₀.gp rsp) ∧ ∀ r, Nonvolatile r → ctx.gp r = m₀.gp r := by
  have hpc : (contextFromVcpu m.gp (modAddr + func.beginAddress.setWidth 64 + off.setWidth 64)).pc =
    modAddr + func.beginAddress.setWidth 64 + off.setWidth 64 := rfl
  obtain ⟨result, ctx, heq, -, hctx⟩ :=
    hstop.halted.applyUnwindInfo henc rfl (fun _ _ => rfl) hpc fuel
  exact ⟨result, ctx, heq, hctx⟩

def rbx : Reg := ⟨3, by decide⟩

/-- `push rbp; push rbx; sub rsp, 0x120; lea rbp, [rsp + 0x20]`, with rsi saved near and rdi far. -/
def frameProlog : Prologue where
  size := 27
  pushes := [(1, ⟨5, by decide⟩), (2, rbx)]
  allocs := [(9, .large 36)]
  frame := some (14, ⟨5, by decide⟩, 2)
  saves := [(19, .gp ⟨6, by decide⟩ 6), (27, .gpFar ⟨7, by decide⟩ 0x48)]
  size_lt := by decide
  in_order := by decide
  within := by decide
  words_fit := by decide
  frame_pushed := by decide
  saves_placed := by decide
  saves_apart := by decide

def frameInfo : UnwindInfo where
  sizeOfProlog := 27
  unwindCodeCount := 10
  frameRegister := 5
  frameOffset := 2
  codes i := frameProlog.words.getD i 0

theorem frameInfo_encodes : Encodes frameInfo frameProlog [] where
  version := .inl ⟨rfl, rfl⟩
  unchained := rfl
  size := rfl
  no_frame h := by cases h
  frame := by
    rintro _ ⟨⟩
    exact ⟨rfl, rfl⟩
  count := by decide
  codes := holdsAt_getD frameProlog.words 0

/-- In the body, with rsp lowered by a further 0x1000. -/
theorem applyUnwindInfo_inverts_frame :
    let m₀ : Machine := ⟨fun r => BitVec.ofNat 64 (0x10000 + r), fun _ => 0, fun _ => 7⟩
    let m : Machine := { run frameProlog.ops m₀ with
      gp := Function.update (run frameProlog.ops m₀).gp rsp 0xE000 }
    ∃ result ctx, applyUnwindInfo (fun _ => frameInfo) m.mem 0x400000 ⟨0x1000, 0x1100, 0⟩ 1 0
        (contextFromVcpu m.gp (0x400000 + (0x1000#32).setWidth 64 + (0x40#32).setWidth 64)) =
          some (result, ctx) ∧
      ctx.sp = m₀.gp rsp + 8#64 ∧ ctx.gp rsp = m₀.gp rsp + 8#64 ∧
      ctx.pc = read64 m₀.mem (m₀.gp rsp) ∧ ∀ r, Nonvolatile r → ctx.gp r = m₀.gp r :=
  applyUnwindInfo_inverts frameProlog (fun _ => frameInfo) 0x400000 ⟨0x1000, 0x1100, 0⟩ []
    frameInfo_encodes _ _ 0x40#32 (.body (by decide) (InBody.of_run _ _ _ (fun h => by cases h))) 0

end Kernemul.Unwind.X64
