import Kernemul.Win.Unwind.Walk

/-!
# Chained unwind data

A function in parts: the primary region and its fragments, each with unwind data of its own that is chained to that of
the part it was entered from. Undoing the parts, the innermost first, goes back to the entry of the function
(`Inside.undo`). The offset that the codes of a parent are compared with is the one into the fragment, so that some of
them are skipped when the fragment is stopped too early in it (`chained_iff`).
-/

namespace Kernemul.Unwind.X64

open Stack

/-! ## The codes that are applied -/

/-- The codes that the loop applies from `i` on, but for those of epilogues. -/
def applied (info : UnwindInfo) (inProlog : Bool) (rva : Nat) : Nat → Nat → List Nat
  | 0, _ => []
  | fuel + 1, i =>
    if i < info.unwindCodeCount then
      let code := info.codes i
      let rest := applied info inProlog rva fuel (i + codeSlots code)
      if (inProlog && rva < codeOffset code) || codeOp code = .epilog then rest else i :: rest
    else []

def codesOf (info : UnwindInfo) : List Nat := applied info false 0 info.unwindCodeCount 0

/-- The entry is applied as a whole: all its codes, and the frame register if it names one. -/
def Complete (info : UnwindInfo) (rva : Nat) : Prop :=
  applied info (decide (rva < info.sizeOfProlog)) rva info.unwindCodeCount 0 = codesOf info ∧
    (info.frameRegister ≠ 0 → info.sizeOfProlog ≤ rva)

/-- The offset is past the prologue of the entry, or past all its codes if it names no frame register. -/
def Past (info : UnwindInfo) (rva : Nat) : Prop :=
  info.sizeOfProlog ≤ rva ∨ info.frameRegister = 0 ∧ ∀ i ∈ codesOf info, codeOffset (info.codes i) ≤ rva

section
variable {mem : Mem} {info : UnwindInfo} {inProlog : Bool} {rva : Nat}

theorem applied_eq_filter (rva' fuel i : Nat) : applied info inProlog rva fuel i =
    (applied info false rva' fuel i).filter fun i => !(inProlog && decide (rva < codeOffset (info.codes i))) := by
  induction fuel generalizing i with
  | zero => rfl
  | succ fuel ih =>
    rw [applied, applied]
    split_ifs with hi
    · dsimp only
      rw [ih]
      by_cases hop : codeOp (info.codes i) = .epilog
      · simp only [hop, decide_true, Bool.or_true, if_true]
      · simp only [hop, decide_false, Bool.or_false, Bool.false_and, Bool.false_eq_true, if_false]
        cases hskip : (inProlog && decide (rva < codeOffset (info.codes i))) with
        | true => rw [if_pos rfl, List.filter_cons_of_neg (by rw [hskip]; decide)]
        | false => rw [if_neg Bool.false_ne_true, List.filter_cons_of_pos (by rw [hskip]; decide)]
    · rfl

theorem complete_iff : Complete info rva ↔ Past info rva := by
  unfold Complete Past codesOf
  rw [applied_eq_filter 0, List.filter_eq_self]
  by_cases hsize : info.sizeOfProlog ≤ rva
  · simp [hsize, Nat.not_lt.mpr hsize]
  · have hlt : rva < info.sizeOfProlog := Nat.lt_of_not_le hsize
    simp only [hlt, decide_true, Bool.true_and, Bool.not_eq_true', decide_eq_false_iff_not, Nat.not_lt, hsize,
      imp_false, not_not, false_or]
    exact and_comm

theorem applyCodes_fst {fuel i : Nat} (h : framed info inProlog rva fuel i = false) (ctx : UnwindContext) :
    (applyCodes mem info inProlog rva fuel i ctx).1 =
      (applied info inProlog rva fuel i).foldl (fun ctx i => applyCode mem info.codes i ctx) ctx := by
  induction fuel generalizing i ctx with
  | zero => rfl
  | succ fuel ih =>
    rw [applyCodes, applied]
    rw [framed] at h
    split_ifs at h ⊢ with hi
    · dsimp only at h ⊢
      obtain ⟨hhere, hrest⟩ := Bool.or_eq_false_iff.mp h
      by_cases hskip : (inProlog && decide (rva < codeOffset (info.codes i))) = true
      · simp only [hskip, if_true, Bool.true_or]
        exact ih hrest ctx
      · simp only [hskip, Bool.false_or, decide_eq_true_eq, Bool.false_eq_true, if_false]
        have hop : codeOp (info.codes i) ≠ .pushMachframe := by
          intro hop
          simp [hskip, hop] at hhere
        rw [if_neg hop]
        by_cases hepi : codeOp (info.codes i) = .epilog
        · rw [if_pos hepi, show applyCode mem info.codes i ctx = ctx by simp [applyCode, hepi]]
          exact ih hrest ctx
        · rw [if_neg hepi]
          exact ih hrest _
    · rfl

end

/-! ## Parts -/

/-- A part of a function: its own operations in the order they are executed in, each with the offset of the instruction
after it, and the frame register that its unwind data names. -/
structure Part where
  size : Nat
  timed : List (Nat × Op)
  frame : Option (Reg × Fin 16)
  size_lt : size < 256
  within : ∀ o ∈ timed, o.1 ≤ size

def Prologue.part (p : Prologue) : Part where
  size := p.size
  timed := p.timed
  frame := p.frame.map Prod.snd
  size_lt := p.size_lt
  within := p.within

namespace Part

variable (p : Part)

def ops : List Op := p.timed.map Prod.snd

def words : List Nat := p.timed.reverse.flatMap fun o => o.2.encode o.1

/-- The `UNWIND_INFO` of a part. -/
structure Encodes (info : UnwindInfo) (epilogs : List EpilogCode) : Prop where
  size : info.sizeOfProlog = p.size
  no_frame : p.frame = none → info.frameRegister = 0
  frame : ∀ f ∈ p.frame, info.frameRegister = f.1 ∧ info.frameOffset = f.2
  count : info.unwindCodeCount = (epilogs.flatMap EpilogCode.words ++ p.words).length
  codes : HoldsAt info.codes 0 (epilogs.flatMap EpilogCode.words ++ p.words)

end Part

def savedIn (parts : List Part) : List Nat := parts.flatMap fun p => savedBy p.ops

def framesOf (parts : List Part) : List Nat := parts.filterMap fun p => p.frame.map fun f => f.1.val

/-- What a fragment entered from these parts has to keep, or save: the registers they did not save, and their frame
registers. -/
def Tracked (parents : List Part) (r : Nat) : Prop :=
  Nonvolatile r ∧ (r ∉ savedIn parents ∨ r ∈ framesOf parents)

/-- The registers `gp` past the prologue of a part that was entered at `entry`. What it stored is still in `mem`. -/
structure Part.Body (p : Part) (parents : List Part) (mem : Mem) (entry : Machine) (gp : Nat → Word) : Prop where
  undoable : Undoable (Tracked parents) p.ops
  kept : ∀ r, Tracked parents r → r ∉ savedBy p.ops → gp r = entry.gp r
  sp : p.frame = none → gp rsp = entry.gp rsp - BitVec.ofNat 64 (depth p.ops)
  frame : ∀ f ∈ p.frame,
    gp f.1 - BitVec.ofNat 64 (f.2 * 16) = entry.gp rsp - BitVec.ofNat 64 (depth p.ops)
  stack : ∀ s ∈ slotsFrom 0 p.ops, Slot.Agree mem (run p.ops entry).mem (entry.gp rsp) s

/-- The function entered at `m₀` is stopped with the registers `gp` over the memory `mem`, in the first of the parts;
each of them was entered from the next, and the last is the primary region. -/
inductive Inside (mem : Mem) (m₀ : Machine) : List Part → (Nat → Word) → Prop
  | primary {p : Part} {gp : Nat → Word} (hret : Slot.Agree mem m₀.mem (m₀.gp rsp) retSlot)
      (h : p.Body [] mem m₀ gp) : Inside mem m₀ [p] gp
  | fragment {p : Part} {parents : List Part} {entry : Machine} {gp : Nat → Word}
      (hparents : Inside mem m₀ parents entry.gp) (h : p.Body parents mem entry gp) :
      Inside mem m₀ (p :: parents) gp

/-- The unwind data at `rva` is that of the first of the parts, and each is chained to the next. -/
inductive Chained (img : Image) : Nat → List Part → Prop
  | primary {rva : Nat} {p : Part} {epilogs : List EpilogCode} (h : p.Encodes (img rva) epilogs)
      (hlast : (img rva).chainInfo = false) : Chained img rva [p]
  | fragment {rva : Nat} {p : Part} {parents : List Part} {epilogs : List EpilogCode}
      (h : p.Encodes (img rva) epilogs) (hchain : (img rva).chainInfo = true)
      (rest : Chained img (img rva).chained parents) : Chained img rva (p :: parents)

/-- The entries that a chain passes from `rva` on. -/
def chainRvas (img : Image) (rva : Nat) : Nat → List Nat
  | 0 => []
  | n + 1 => rva :: chainRvas img (img rva).chained n

section
variable {img : Image} {mem : Mem} {p : Part} {info : UnwindInfo} {epilogs : List EpilogCode}

namespace Part.Encodes

theorem loop (henc : p.Encodes info epilogs) (mem : Mem) (inProlog : Bool) (off : Nat) (ctx : UnwindContext) :
    applyCodes mem info inProlog off info.unwindCodeCount 0 ctx =
      ((p.timed.reverse.filter fun o => !(inProlog && decide (off < o.1))).foldl
        (fun c o => o.2.undo mem c) ctx, false) := by
  have hshort : ∀ o ∈ p.timed.reverse, o.1 < 256 := by
    intro o ho
    exact lt_of_le_of_lt (p.within o (List.mem_reverse.mp ho)) p.size_lt
  exact applyCodes_encoded hshort henc.count henc.codes ctx

theorem not_framed (henc : p.Encodes info epilogs) (inProlog : Bool) (off : Nat) :
    framed info inProlog off info.unwindCodeCount 0 = false := by
  have h := congrArg Prod.snd (henc.loop (fun _ => 0) inProlog off ⟨0, 0, fun _ => 0, fun _ => 0⟩)
  rw [applyCodes_snd] at h
  exact h

theorem applyCodes_all (henc : p.Encodes info epilogs) (mem : Mem) {inProlog : Bool} {off : Nat}
    (hall : applied info inProlog off info.unwindCodeCount 0 = codesOf info) (ctx : UnwindContext) :
    applyCodes mem info inProlog off info.unwindCodeCount 0 ctx = (p.ops.foldr (Op.undo mem) ctx, false) := by
  have hbody : (applyCodes mem info false 0 info.unwindCodeCount 0 ctx).1 = p.ops.foldr (Op.undo mem) ctx := by
    rw [henc.loop]
    simp [List.foldl_reverse, Part.ops, List.foldr_map]
  refine Prod.ext ?_ ((applyCodes_snd _ _ _).trans (henc.not_framed inProlog off))
  rw [← hbody, applyCodes_fst (henc.not_framed inProlog off), applyCodes_fst (henc.not_framed false 0), hall]
  rfl

end Part.Encodes

/-! ## Undoing the parts -/

variable {parents : List Part} {m₀ entry : Machine} {gp : Nat → Word}

theorem Tracked.of_parents {r : Nat} (h : Tracked parents r) (hns : r ∉ savedBy p.ops) :
    Tracked (p :: parents) r := by
  refine ⟨h.1, h.2.imp (fun hout => ?_) fun hframe => ?_⟩
  · rw [savedIn, List.flatMap_cons, List.mem_append, not_or]
    exact ⟨hns, hout⟩
  · unfold framesOf at hframe ⊢
    rw [List.filterMap_cons]
    split
    · exact hframe
    · exact List.mem_cons_of_mem _ hframe

theorem Tracked.of_frame {f : Reg × Fin 16} (h : p.frame = some f) : Tracked (p :: parents) f.1 := by
  refine ⟨f.1.2, .inr (List.mem_filterMap.mpr ⟨p, List.mem_cons_self .., ?_⟩)⟩
  rw [h]
  rfl

variable {off : Nat} {ctx : UnwindContext}

theorem Part.Body.fromFrame_sp (henc : p.Encodes info epilogs) (h : p.Body parents mem entry gp)
    (hframe : info.frameRegister ≠ 0 → info.sizeOfProlog ≤ off) (hsp : ctx.sp = gp rsp)
    (hgp : ∀ r, Tracked (p :: parents) r → ctx.gp r = gp r) :
    (fromFrame info (decide (off < info.sizeOfProlog)) ctx).sp =
      entry.gp rsp - BitVec.ofNat 64 (depth p.ops) := by
  unfold fromFrame
  cases hnone : p.frame with
  | none =>
    rw [if_neg (by simp [henc.no_frame hnone]), hsp]
    exact h.sp hnone
  | some f =>
    obtain ⟨hreg, hoff⟩ := henc.frame f hnone
    have hne : info.frameRegister ≠ 0 := by
      rw [hreg]
      exact f.1.2.ne_zero
    rw [if_pos ⟨hne, by simpa using hframe hne⟩, hreg, hoff]
    show ctx.gp f.1 - _ = _
    rw [hgp _ (.of_frame hnone)]
    exact h.frame f hnone

theorem Part.Body.undo (henc : p.Encodes info epilogs) (h : p.Body parents mem entry gp)
    (hall : Complete info off) (hsp : ctx.sp = gp rsp) (hgp : ∀ r, Tracked (p :: parents) r → ctx.gp r = gp r) :
    let inProlog := decide (off < info.sizeOfProlog)
    let start := fromFrame info inProlog ctx
    ∃ ctx', applyCodes mem info inProlog off info.unwindCodeCount 0 start = (ctx', false) ∧
      start.sp = entry.gp rsp - BitVec.ofNat 64 (depth p.ops) ∧ ctx'.sp = entry.gp rsp ∧
      ∀ r, Tracked parents r → ctx'.gp r = entry.gp r := by
  dsimp only
  have hstart := h.fromFrame_sp henc hall.2 hsp hgp
  obtain ⟨hsp', hgp'⟩ := h.undoable.undo_run (fun _ hr => hr.1) rfl h.stack hstart
    (fun r hr hns => by rw [fromFrame_gp, hgp r (hr.of_parents hns)]; exact h.kept r hr hns)
  exact ⟨_, henc.applyCodes_all mem hall.1 _, hstart, hsp', hgp'⟩

/-- The context is that of the caller of the function entered at `m₀`, and the frame reported is where the prologue of
the primary region left rsp, which is where its frame register and offset point to. -/
structure Restored (m₀ : Machine) (parts : List Part) (result : UnwindResult) (ctx : UnwindContext) : Prop where
  establisher : ∀ p ∈ parts.getLast?, result.establisherFrame = m₀.gp rsp - BitVec.ofNat 64 (depth p.ops)
  sp : ctx.sp = m₀.gp rsp + 8#64
  gpRsp : ctx.gp rsp = m₀.gp rsp + 8#64
  pc : ctx.pc = read64 m₀.mem (m₀.gp rsp)
  gp : ∀ r, Nonvolatile r → ctx.gp r = m₀.gp r

theorem applyUnwindInfo_last {rva : Nat} {modAddr : Word} {func : RuntimeFunction} {ctx' : UnwindContext}
    (hlast : (img rva).chainInfo = false) (hpc : rvaInFunc modAddr func ctx.pc = off)
    (h : applyCodes mem (img rva) (decide (off < (img rva).sizeOfProlog)) off (img rva).unwindCodeCount 0
      (fromFrame (img rva) (decide (off < (img rva).sizeOfProlog)) ctx) = (ctx', false)) :
    ∃ result, applyUnwindInfo img mem modAddr func 1 rva ctx =
        some (result, { setGp ctx' rsp (ctx'.sp + 8#64) with
          pc := read64 mem ctx'.sp, sp := ctx'.sp + 8#64 }) ∧
      result.establisherFrame = (fromFrame (img rva) (decide (off < (img rva).sizeOfProlog)) ctx).sp := by
  subst hpc
  unfold rvaInFunc at h ⊢
  rw [applyUnwindInfo]
  simp only [h, hlast, Bool.false_eq_true, if_false]
  refine ⟨_, rfl, ?_⟩
  split <;> rfl

theorem applyUnwindInfo_chained {rva fuel : Nat} {modAddr : Word} {func : RuntimeFunction}
    {ctx' : UnwindContext} (hchain : (img rva).chainInfo = true) (hpc : rvaInFunc modAddr func ctx.pc = off)
    (h : applyCodes mem (img rva) (decide (off < (img rva).sizeOfProlog)) off (img rva).unwindCodeCount 0
      (fromFrame (img rva) (decide (off < (img rva).sizeOfProlog)) ctx) = (ctx', false)) :
    applyUnwindInfo img mem modAddr func (fuel + 1) rva ctx =
      applyUnwindInfo img mem modAddr func fuel (img rva).chained ctx' := by
  subst hpc
  unfold rvaInFunc at h
  rw [applyUnwindInfo]
  simp only [h, hchain, if_true]

/-- When every entry of the chain is applied as a whole, the unwinding goes back to the entry of the function. -/
theorem Inside.undo {rva : Nat} {parts : List Part} (hchain : Chained img rva parts)
    (h : Inside mem m₀ parts gp) {modAddr : Word} {func : RuntimeFunction}
    (hall : ∀ r ∈ chainRvas img rva parts.length, Complete (img r) off)
    (hsp : ctx.sp = gp rsp) (hgp : ∀ r, Tracked parts r → ctx.gp r = gp r)
    (hpc : rvaInFunc modAddr func ctx.pc = off) :
    ∃ result ctx', applyUnwindInfo img mem modAddr func parts.length rva ctx = some (result, ctx') ∧
      Restored m₀ parts result ctx' := by
  induction hchain generalizing gp ctx with
  | @primary rva p epilogs henc hlast =>
    cases h with
    | primary hret hbody =>
      have hwhole := hall rva (List.mem_cons_self ..)
      obtain ⟨ctx', hloop, hstart, hsp', hgp'⟩ := hbody.undo henc hwhole hsp hgp
      obtain ⟨result, heq, hest⟩ := applyUnwindInfo_last hlast hpc hloop
      refine ⟨result, _, heq, ?_, ?_, ?_, ?_, ?_⟩
      · intro q hq
        obtain rfl := Option.some.inj hq
        rw [hest, hstart]
        rfl
      · dsimp only [setGp]
        rw [hsp']
      · dsimp only [setGp]
        rw [hsp', Function.update_self]
      · have := hret.read64 rfl
        dsimp only [setGp]
        rw [hsp']
        simpa [Slot.addr, retSlot] using this
      · intro r hr
        dsimp only [setGp]
        rw [Function.update_of_ne hr.ne_rsp]
        exact hgp' r ⟨hr, .inl List.not_mem_nil⟩
    | fragment hparents _ => cases hparents
  | @fragment rva p parents epilogs henc hflag rest ih =>
    cases h with
    | primary _ _ => cases rest
    | @fragment _ _ entry _ hparents hbody =>
      have hwhole := hall rva (List.mem_cons_self ..)
      obtain ⟨ctx', hloop, -, hsp', hgp'⟩ := hbody.undo henc hwhole hsp hgp
      have hpc' : ctx'.pc = ctx.pc := by
        have hnot := henc.not_framed (decide (off < (img rva).sizeOfProlog)) off
        rw [← congrArg (fun r => r.1.pc) hloop, applyCodes_pc hnot, fromFrame_pc]
      obtain ⟨result, ctx₂, heq, hrestored⟩ := ih hparents
        (fun r hr => hall r (List.mem_cons_of_mem _ hr)) hsp' hgp' (by rw [hpc']; exact hpc)
      refine ⟨result, ctx₂, ?_, ?_⟩
      · rw [List.length_cons, applyUnwindInfo_chained hflag hpc hloop]
        exact heq
      · refine { hrestored with establisher := ?_ }
        obtain ⟨q, parents, rfl⟩ : ∃ q ps, parents = q :: ps := by
          cases rest with
          | primary _ _ => exact ⟨_, _, rfl⟩
          | fragment _ _ _ => exact ⟨_, _, rfl⟩
        rw [List.getLast?_cons_cons]
        exact hrestored.establisher

end

theorem Halted.inside {p : Prologue} {m₀ : Machine} {off : Nat} {gp : Nat → Word} {mem : Mem}
    (h : Halted p m₀ off gp mem) (hoff : p.size ≤ off) : Inside mem m₀ [p.part] gp := by
  have hexec := p.executed_body hoff
  have hstack := h.stack
  rw [hexec] at hstack
  have hret : Slot.Agree mem m₀.mem (m₀.gp rsp) retSlot := by
    apply (hstack retSlot (List.mem_cons_self ..)).trans
    apply run_agree m₀ (p.small _ (List.mem_cons_self ..))
    intro t ht
    exact ⟨(List.pairwise_cons.mp p.apart).1 t ht, p.small t (List.mem_cons_of_mem _ ht)⟩
  refine .primary hret ⟨?_, ?_, ?_, ?_, fun s hs => hstack s (List.mem_cons_of_mem _ hs)⟩
  · have := p.tidy.undoable
    exact ⟨this.apart, this.small, fun pre f k post hops hf => this.saved_first pre f k post hops hf.1⟩
  · intro r hr hns
    apply h.kept r hr.1
    rw [hexec]
    exact hns
  · intro hnone
    rw [h.sp (.inl (Option.map_eq_none_iff.mp hnone)), hexec]
    rfl
  · intro f hf
    obtain ⟨⟨o, f⟩, hframe, rfl⟩ := Option.map_eq_some_iff.mp hf
    show gp f.1 - _ = _
    rw [h.frame hoff _ hframe, p.frame_value m₀ hframe, run_rsp]
    rfl

/-- **A chain is undone from a fragment exactly when the offset is past its parents.** Past the fragment's own prologue,
every entry of the chain is applied as a whole and the unwinding restores the caller, with the frame of the primary
region, if and only if the offset into the fragment is past the prologue of each parent, or past all its codes where it
names no frame register. -/
theorem chained_iff (img : Image) (modAddr : Word) (func : RuntimeFunction) (frag : Part) (parents : List Part)
    (hchain : Chained img func.unwindInfoRva (frag :: parents)) (m₀ m : Machine)
    (hstop : Inside m.mem m₀ (frag :: parents) m.gp) (off : BitVec 32) (hpast : frag.size ≤ off.toNat) :
    ((∀ rva ∈ chainRvas img func.unwindInfoRva (parents.length + 1), Complete (img rva) off.toNat) ∧
      ∃ result ctx, applyUnwindInfo img m.mem modAddr func (parents.length + 1) func.unwindInfoRva
          (contextFromVcpu m.gp (modAddr + func.beginAddress.setWidth 64 + off.setWidth 64)) =
            some (result, ctx) ∧
        Restored m₀ (frag :: parents) result ctx) ↔
      ∀ rva ∈ chainRvas img (img func.unwindInfoRva).chained parents.length, Past (img rva) off.toNat := by
  have hown : Past (img func.unwindInfoRva) off.toNat := by
    refine .inl ?_
    cases hchain with
    | primary henc _ => rwa [henc.size]
    | fragment henc _ _ => rwa [henc.size]
  constructor
  · rintro ⟨hall, -⟩ rva hrva
    exact complete_iff.mp (hall rva (List.mem_cons_of_mem _ hrva))
  · intro h
    have hall : ∀ rva ∈ chainRvas img func.unwindInfoRva (parents.length + 1), Complete (img rva) off.toNat := by
      intro rva hrva
      rcases List.mem_cons.mp hrva with rfl | hrva
      · exact complete_iff.mpr hown
      · exact complete_iff.mpr (h rva hrva)
    refine ⟨hall, ?_⟩
    exact hstop.undo hchain hall rfl (fun _ _ => rfl)
      (congrArg BitVec.toNat (rvaInFunc_eq modAddr func.beginAddress off))

theorem primaryAlloc_lt : 36 < 2 ^ 16 := by decide

/-- `push rbx; sub rsp, 0x120` -/
def primaryLayout : Layout where
  size := 8
  pushes := [(1, rbx)]
  allocs := [(8, .large ⟨36, primaryAlloc_lt⟩)]
  frame := none
  saves := []

def primaryProlog : Prologue where
  toLayout := primaryLayout
  size_lt := by decide
  in_order := by decide
  within := by decide
  words_fit := by decide
  frame_pushed := by decide
  saves_placed := by decide
  saves_apart := by decide

theorem lowerPart_size_lt : 4 < 256 := by decide

/-- `sub rsp, 0x20` -/
def lowerPart : Part where
  size := 4
  timed := [(4, .alloc (.small 3))]
  frame := none
  size_lt := lowerPart_size_lt
  within := by decide

/-- The unwind data of the fragment at 0x3010, and of the primary region. -/
def splitImage (rva : Nat) : UnwindInfo :=
  if rva = 0x3010 then
    { chainInfo := true, sizeOfProlog := 4, unwindCodeCount := 1, codes := fun i => lowerPart.words.getD i 0,
      chained := 0x3000 }
  else { sizeOfProlog := 8, unwindCodeCount := 3, codes := fun i => primaryProlog.words.getD i 0 }

theorem lowerPart_encodes : lowerPart.Encodes (splitImage 0x3010) [] where
  size := rfl
  no_frame _ := rfl
  frame _ h := by cases h
  count := by decide
  codes := holdsAt_getD lowerPart.words 0

theorem primaryProlog_encodes : primaryProlog.part.Encodes (splitImage 0x3000) [] where
  size := rfl
  no_frame _ := rfl
  frame _ h := by cases h
  count := by decide
  codes := holdsAt_getD primaryProlog.words 0

theorem splitImage_chained : Chained splitImage 0x3010 [lowerPart, primaryProlog.part] :=
  .fragment lowerPart_encodes rfl (.primary primaryProlog_encodes rfl)

def splitEntry : Machine := ⟨fun r => BitVec.ofNat 64 (0x10000 + r), fun _ => 0, fun _ => 7⟩

def splitMiddle : Machine :=
  { run primaryProlog.ops splitEntry with gp := Function.update (run primaryProlog.ops splitEntry).gp rbx 1 }

def splitStop : Machine := run lowerPart.ops splitMiddle

theorem splitMiddle_inBody : InBody primaryProlog splitEntry splitMiddle where
  kept r hr hns := by
    have hne : r ≠ rbx.val := by
      rintro rfl
      exact hns (by decide)
    exact (Function.update_of_ne hne ..).trans (run_gp primaryProlog.tidy splitEntry hr hns)
  sp _ := rfl
  frame f hf := by cases hf
  stack _ _ _ _ := rfl

theorem splitStop_inside : Inside splitStop.mem splitEntry [lowerPart, primaryProlog.part] splitStop.gp := by
  have hparents : Inside splitStop.mem splitEntry [primaryProlog.part] splitMiddle.gp :=
    (StoppedAt.body (le_refl 8) splitMiddle_inBody).halted.inside (le_refl 8)
  refine .fragment hparents ⟨⟨List.Pairwise.nil, fun s hs => absurd hs List.not_mem_nil, ?_⟩, ?_, fun _ => ?_,
    fun f hf => ?_, fun s hs => absurd hs List.not_mem_nil⟩
  · intro pre f k post hops
    have hmem : Op.setFpreg f k ∈ lowerPart.ops := hops ▸ List.mem_append_right _ (List.mem_cons_self ..)
    exact absurd (List.mem_singleton.mp hmem) (by simp)
  · exact fun r hr _ => Function.update_of_ne hr.1.ne_rsp ..
  · exact run_rsp lowerPart.ops splitMiddle
  · cases hf

/-- Past the prologues of both. -/
theorem chained_past :
    (∀ rva ∈ chainRvas splitImage 0x3010 2, Complete (splitImage rva) 8) ∧
      ∃ result ctx, applyUnwindInfo splitImage splitStop.mem 0x400000 ⟨0x1800, 0x1900, 0x3010⟩ 2 0x3010
          (contextFromVcpu splitStop.gp
            (0x400000 + (0x1800#32).setWidth 64 + (8#32).setWidth 64)) = some (result, ctx) ∧
        Restored splitEntry [lowerPart, primaryProlog.part] result ctx :=
  (chained_iff splitImage 0x400000 ⟨0x1800, 0x1900, 0x3010⟩ lowerPart [primaryProlog.part] splitImage_chained
    splitEntry splitStop splitStop_inside 8#32 (by decide)).mpr fun rva hrva => by
      obtain rfl := List.mem_singleton.mp hrva
      exact .inl (by decide)

/-- Past its own prologue, but six bytes in the fragment: the caller's rsp is not found. -/
theorem chained_early :
    Chained splitImage 0x3010 [lowerPart, primaryProlog.part] ∧
      Inside splitStop.mem splitEntry [lowerPart, primaryProlog.part] splitStop.gp ∧ lowerPart.size ≤ 6 ∧
      ¬ ∃ result ctx, applyUnwindInfo splitImage splitStop.mem 0x400000 ⟨0x1800, 0x1900, 0x3010⟩ 2 0x3010
          (contextFromVcpu splitStop.gp
            (0x400000 + (0x1800#32).setWidth 64 + (6#32).setWidth 64)) = some (result, ctx) ∧
        Restored splitEntry [lowerPart, primaryProlog.part] result ctx := by
  refine ⟨splitImage_chained, splitStop_inside, by decide, ?_⟩
  rintro ⟨result, ctx, heq, hrestored⟩
  have hsp : (applyUnwindInfo splitImage splitStop.mem 0x400000 ⟨0x1800, 0x1900, 0x3010⟩ 2 0x3010
      (contextFromVcpu splitStop.gp
        (0x400000 + (0x1800#32).setWidth 64 + (6#32).setWidth 64))).map (fun r => r.2.sp) = some 0xFEEC := by
    decide
  rw [heq, Option.map_some, hrestored.sp] at hsp
  exact absurd hsp (by decide)

end Kernemul.Unwind.X64
