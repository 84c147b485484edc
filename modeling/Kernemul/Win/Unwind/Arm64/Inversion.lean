import Kernemul.Win.Unwind.Arm64.Layout
import Kernemul.Win.Unwind.Arm64.Pairing
import Kernemul.Win.Unwind.Arm64.Telling

/-!
# ARM64 unwinding

A function is described by a record that holds the codes of its prologue and of its epilogues. From the
body, and from any instruction of an epilogue, `unwind_frame` gives back what the registers held on entry
exactly when the `save_next`s that are left are paired.
-/

namespace Kernemul.Unwind.Arm64

open Stack

/-! ## Functions -/

/-- An epilogue: where it begins in the function, the index of its codes, the codes. -/
structure Epilog where
  start : Nat
  index : Nat
  ops : List Op

def Epilog.size (e : Epilog) : Nat := (e.ops.length + 1) * 4

structure Function where
  length : Nat
  prolog : List Op
  epilogs : List Epilog

def Epilog.Covers (e : Epilog) (rva : Nat) : Prop := e.start ≤ rva ∧ rva < e.start + e.size

instance (e : Epilog) (rva : Nat) : Decidable (e.Covers rva) :=
  inferInstanceAs (Decidable (e.start ≤ rva ∧ _))

/-- A record that describes a function: the codes of the prologue at the beginning of the array, those of
an epilogue at its index, and the epilogues in the scope words, or the only one, which ends the function,
in the header. -/
structure Describes (hdr : XdataHeader) (fn : Function) : Prop where
  length : hdr.functionLength = fn.length
  prolog : HoldsAt hdr.codes 0 (encode fn.prolog)
  prologFits : (encode fn.prolog).length ≤ hdr.codeWords * 4
  valid : Valid fn.prolog
  epilog : ∀ e ∈ fn.epilogs, HoldsAt hdr.codes e.index (encode e.ops)
  epilogFits : ∀ e ∈ fn.epilogs, e.index + (encode e.ops).length ≤ hdr.codeWords * 4
  mirrors : ∀ e ∈ fn.epilogs, Mirrors fn.prolog e.ops
  after : ∀ e ∈ fn.epilogs, fn.prolog.length * 4 ≤ e.start
  inside : ∀ e ∈ fn.epilogs, e.start + e.size ≤ fn.length
  disjoint : ∀ e ∈ fn.epilogs, ∀ e' ∈ fn.epilogs, ∀ rva, e.Covers rva → e'.Covers rva → e = e'
  header : hdr.epilogInHeader = true → ∃ e, fn.epilogs = [e] ∧ hdr.epilogCount = e.index ∧
    e.start + e.size = fn.length
  scopes : hdr.epilogInHeader = false → hdr.epilogCount = fn.epilogs.length ∧
    ∀ i (h : i < fn.epilogs.length), hdr.epilogScopes i % 2 ^ 18 * 4 = (fn.epilogs.get ⟨i, h⟩).start ∧
      hdr.epilogScopes i / 2 ^ 22 % 2 ^ 10 = (fn.epilogs.get ⟨i, h⟩).index

inductive Stop
  | body (rva : Nat)
  | epilog (e : Epilog) (k : Nat)

namespace Stop

def rva : Stop → Nat
  | body rva => rva
  | epilog e k => e.start + k * 4

/-- In the body: after the prologue, and in no epilogue. In an epilogue: before one of its instructions. -/
def In (fn : Function) : Stop → Prop
  | body rva => fn.prolog.length * 4 ≤ rva ∧ rva < fn.length ∧ ∀ e ∈ fn.epilogs, ¬ e.Covers rva
  | epilog e k => e ∈ fn.epilogs ∧ k ≤ e.ops.length

def left (fn : Function) : Stop → List Op
  | body _ => fn.prolog
  | epilog e k => e.ops.drop k

/-- A machine that got there after the function has been entered at `m₀`. -/
def Reached (fn : Function) (m₀ m : Machine) : Stop → Prop
  | body _ => InBody fn.prolog m₀ m
  | epilog e k => ∃ b, InBody fn.prolog m₀ b ∧ m = runEpilog k e.ops b

end Stop

section
variable {hdr : XdataHeader} {fn : Function}

variable {s : Stop}

theorem Describes.valid_left (h : Describes hdr fn) (hs : s.In fn) : Valid (s.left fn) := by
  cases s with
  | body rva => exact h.valid
  | epilog e k => exact (h.mirrors e hs.1).valid.drop k

theorem Describes.intact (h : Describes hdr fn) (hs : s.In fn) {m₀ m : Machine}
    (hm : s.Reached fn m₀ m) : Intact (s.left fn) m₀ m := by
  cases s with
  | body rva => exact InBody.intact h.valid hm
  | epilog e k =>
    obtain ⟨b, hb, rfl⟩ := hm
    have hmir := h.mirrors e hs.1
    exact runEpilog_intact hmir.valid (hmir.intact (hb.intact h.valid))

theorem Describes.telling (h : Describes hdr fn) (hs : s.In fn) :
    ∃ m, s.Reached fn entry m ∧ Telling (s.left fn) entry m := by
  have hbody := spoil_inBody h.valid
  have htell := spoil_telling h.valid
  cases s with
  | body rva => exact ⟨_, hbody, htell⟩
  | epilog e k =>
    have hmir := h.mirrors e hs.1
    refine ⟨_, ⟨_, hbody, rfl⟩, ?_⟩
    exact runEpilog_telling hmir.valid (hmir.intact (hbody.intact h.valid)) (hmir.telling htell)

/-! ## Finding the epilogue -/

theorem Describes.extent_index (h : Describes hdr fn) {e : Epilog} (he : e ∈ fn.epilogs) :
    extent hdr.codes (hdr.codeWords * 4) (hdr.codeWords * 4) e.index * 4 = e.size := by
  have hfits := h.epilogFits e he
  have hlen := length_le_encode e.ops
  rw [extent_encode (h.epilog e he) hfits (by omega), Epilog.size]

theorem Describes.findScope_eq (h : Describes hdr fn) (hE : hdr.epilogInHeader = false) (rva left i : Nat)
    (hi : i + left = fn.epilogs.length) :
    findScope hdr rva (hdr.codeWords * 4) left i =
      ((fn.epilogs.drop i).find? fun e => decide (e.Covers rva)).map
        fun e => (e.index, (rva - e.start) / 4) := by
  induction left generalizing i with
  | zero =>
    rw [List.drop_eq_nil_of_le (by omega)]
    rfl
  | succ left ih =>
    have hlt : i < fn.epilogs.length := by omega
    rw [List.drop_eq_getElem_cons hlt, List.find?_cons]
    have hmem : fn.epilogs[i] ∈ fn.epilogs := List.getElem_mem hlt
    obtain ⟨hstart, hindex⟩ := (h.scopes hE).2 i hlt
    rw [List.get_eq_getElem] at hstart hindex
    generalize fn.epilogs[i] = e at hmem hstart hindex ⊢
    have hfits := h.epilogFits e hmem
    have hlen := length_le_encode e.ops
    have hin : e.index < hdr.codeWords * 4 := by omega
    have hext := h.extent_index hmem
    rw [findScope]
    rw [hstart, hindex, hext]
    by_cases hcov : e.Covers rva
    · rw [if_pos ⟨hin, hcov⟩, decide_eq_true hcov]
      rfl
    · rw [if_neg (fun hc => hcov hc.2), decide_eq_false hcov]
      exact ih (i + 1) (by omega)

theorem Describes.findEpilog_eq (h : Describes hdr fn) (hlength : fn.length < 2 ^ 32) (rva : Nat) :
    findEpilog hdr rva (hdr.codeWords * 4) = (fn.epilogs.find? fun e => decide (e.Covers rva)).map
      fun e => (e.index, (rva - e.start) / 4) := by
  rw [findEpilog]
  cases hE : hdr.epilogInHeader with
  | false =>
    rw [if_neg (by decide), (h.scopes hE).1, h.findScope_eq hE rva _ 0 (Nat.zero_add _), List.drop_zero]
  | true =>
    obtain ⟨e, hone, hcount, hend⟩ := h.header hE
    have hmem : e ∈ fn.epilogs := hone ▸ List.mem_singleton_self e
    have hfits := h.epilogFits e hmem
    have hlen := length_le_encode e.ops
    have hext := h.extent_index hmem
    have hstart : (fn.length + 2 ^ 32 - e.size) % 2 ^ 32 = e.start := by omega
    rw [if_pos rfl, hcount]
    dsimp only
    rw [if_neg (by omega), hext, h.length, hstart, hone, List.find?_cons]
    by_cases hcov : e.Covers rva
    · rw [if_pos ⟨hcov.1, hend ▸ hcov.2⟩, decide_eq_true hcov]
      rfl
    · rw [if_neg (fun hc => hcov ⟨hc.1, hend ▸ hc.2⟩), decide_eq_false hcov]
      rfl

theorem Describes.start_left (h : Describes hdr fn) (hlength : fn.length < 2 ^ 32)
    (hs : s.In fn) : ∃ i, HoldsAt hdr.codes i (encode (s.left fn)) ∧
      i + (encode (s.left fn)).length ≤ hdr.codeWords * 4 ∧
      (findEpilog hdr s.rva (hdr.codeWords * 4) = none ∧ i = 0 ∨
        ∃ at' k, findEpilog hdr s.rva (hdr.codeWords * 4) = some (at', k) ∧
          i = skipCodes hdr.codes (hdr.codeWords * 4) k at') := by
  rw [h.findEpilog_eq hlength]
  cases s with
  | body rva =>
    have hnone : fn.epilogs.find? (fun e => decide (e.Covers rva)) = none := by
      rw [List.find?_eq_none]
      exact fun e he hcov => hs.2.2 e he (of_decide_eq_true hcov)
    rw [Stop.rva, hnone]
    refine ⟨0, h.prolog, ?_, .inl ⟨rfl, rfl⟩⟩
    rw [Nat.zero_add]
    exact h.prologFits
  | epilog e k =>
    obtain ⟨hmem, hk⟩ := hs
    have hcov : e.Covers (e.start + k * 4) := by
      unfold Epilog.Covers Epilog.size
      omega
    have hsome : fn.epilogs.find? (fun e' => decide (e'.Covers (e.start + k * 4))) = some e := by
      cases hfind : fn.epilogs.find? (fun e' => decide (e'.Covers (e.start + k * 4))) with
      | none =>
        rw [List.find?_eq_none] at hfind
        exact absurd (decide_eq_true hcov) (hfind e hmem)
      | some e' =>
        have hfound := List.find?_some hfind
        rw [h.disjoint e' (List.mem_of_find?_eq_some hfind) e hmem _ (of_decide_eq_true hfound) hcov]
    have hindex : (e.start + k * 4 - e.start) / 4 = k := by omega
    obtain ⟨hholds, hfits⟩ := skipCodes_encode (h.epilog e hmem) (h.epilogFits e hmem) hk
    rw [Stop.rva, hsome, Option.map_some, hindex]
    exact ⟨_, hholds, hfits, .inr ⟨e.index, k, rfl, rfl⟩⟩

/-! ## `unwind_frame` -/

/-- The record is run: the registers are what the codes that are left give. -/
theorem unwindXdata_eq (h : Describes hdr fn) (hlength : fn.length < 2 ^ 32) (hs : s.In fn)
    (mem : Mem) (mod : Module) (func : FunctionEntry) (ctx : UnwindContext)
    (hpc : ((ctx.pc - mod.addr).setWidth 32 - func.beginRva).toNat = s.rva) :
    (unwindXdata mem mod func hdr ctx).2.2 = (toCaller (replayList mem (s.left fn) ctx firstPair).1).2 := by
  obtain ⟨i, hholds, hfits, hstart⟩ := h.start_left hlength hs
  have hlen := length_le_encode (s.left fn)
  have hrun := runCodes_encode mem hholds hfits
    (show (s.left fn).length < hdr.codeWords * 4 - i by omega) ctx firstPair
  rw [unwindXdata, hpc]
  rcases hstart with ⟨hfind, rfl⟩ | ⟨at', k, hfind, rfl⟩
  · rw [hfind]
    dsimp only
    rw [hrun]
  · rw [hfind]
    dsimp only
    rw [hrun]

theorem parseXdata_length {img : Image} {rva : Nat} (h : parseXdata img rva = some hdr) :
    hdr.functionLength < 2 ^ 20 := by
  unfold parseXdata at h
  dsimp only at h
  split_ifs at h
  all_goals
    obtain rfl := Option.some.inj h
    unfold xdataHeader
    dsimp only
    omega

structure Stopped (mod : Module) (func : FunctionEntry) (hdr : XdataHeader) (fn : Function) (s : Stop)
    (pc : Word) : Prop where
  found : lookupFunctionEntry mod pc = some func
  unpacked : func.packed = false
  record : parseXdata mod.img func.unwindData = some hdr
  describes : Describes hdr fn
  stop : s.In fn
  pc : pc = mod.addr + func.beginRva.setWidth 64 + BitVec.ofNat 64 s.rva

variable {mod : Module} {func : FunctionEntry}

theorem Stopped.rva_lt {pc : Word} (h : Stopped mod func hdr fn s pc) : s.rva < 2 ^ 20 := by
  have hlength := parseXdata_length h.record
  rw [h.describes.length] at hlength
  have hstop := h.stop
  cases s with
  | body rva => exact hstop.2.1.trans hlength
  | epilog e k =>
    have hinside := h.describes.inside e hstop.1
    have hk := hstop.2
    unfold Epilog.size at hinside
    rw [Stop.rva]
    omega

theorem Stopped.rvaInFunc {pc : Word} (h : Stopped mod func hdr fn s pc) :
    ((pc - mod.addr).setWidth 32 - func.beginRva).toNat = s.rva := by
  have hlt := h.rva_lt
  have hbegin := func.beginRva.isLt
  have hoff : pc - mod.addr = func.beginRva.setWidth 64 + BitVec.ofNat 64 s.rva := by
    rw [h.pc]
    ring
  rw [hoff, BitVec.toNat_sub, BitVec.toNat_setWidth, BitVec.toNat_add, BitVec.toNat_setWidth,
    BitVec.toNat_ofNat]
  omega

theorem Stopped.pc_begin {pc : Word} (h : Stopped mod func hdr fn s pc) :
    pc = mod.addr + func.beginRva.setWidth 64 ↔ s.rva = 0 := by
  have hlt := h.rva_lt
  rw [h.pc, add_eq_left, ← BitVec.toNat_inj, BitVec.toNat_ofNat]
  show _ = 0 ↔ _
  omega

theorem Describes.left_begin (h : Describes hdr fn) (hs : s.In fn) (hrva : s.rva = 0) :
    saves (s.left fn) = [] ∧ depth (s.left fn) = 0 ∧ ∀ o ∈ s.left fn, o.fp? = none := by
  cases s with
  | body rva =>
    have hrva : rva = 0 := hrva
    have hafter := hs.1
    have hnil : fn.prolog = [] := List.length_eq_zero_iff.mp (by omega)
    rw [Stop.left, hnil]
    exact ⟨rfl, rfl, fun o ho => absurd ho List.not_mem_nil⟩
  | epilog e k =>
    have hrva : e.start + k * 4 = 0 := hrva
    have hafter := h.after e hs.1
    have hmir := h.mirrors e hs.1
    have hnil : fn.prolog = [] := List.length_eq_zero_iff.mp (by omega)
    have hk : k = 0 := by omega
    rw [hnil] at hmir
    rw [Stop.left, hk, List.drop_zero]
    refine ⟨List.eq_nil_iff_forall_not_mem.mpr fun x hx => ?_, hmir.depth, fun o ho => ?_⟩
    · exact List.not_mem_nil ((hmir.saves x).mp hx)
    · by_contra hne
      obtain ⟨j, hj⟩ := Option.ne_none_iff_exists'.mp hne
      obtain ⟨post, pre, hsplit⟩ := List.append_of_mem ho
      obtain ⟨post', op', pre', hnil', -⟩ := hmir.fp post o pre j hsplit hj
      exact List.cons_ne_nil _ _ (List.append_eq_nil_iff.mp hnil'.symm).2

theorem Intact.restored {cs : List Op} {m₀ m : Machine} (hi : Intact cs m₀ m) (hsaves : saves cs = [])
    (hdepth : depth cs = 0) (hfp : ∀ o ∈ cs, o.fp? = none) {ctx : UnwindContext}
    (hctx : Matches ctx m) : Restored m₀ ctx where
  sp := by
    rw [hctx.sp]
    rcases hi.sp with ⟨post, op, pre, rfl, hsome, -⟩ | hsp
    · rw [hfp op (by simp)] at hsome
      cases hsome
    · rw [hsp, hdepth, Nat.cast_zero, place_zero]
  reg r hr := by
    rw [hctx.reg r hr]
    apply hi.kept r hr
    rw [hsaves]
    exact List.not_mem_nil

theorem toCaller_restored {m₀ : Machine} {ctx : UnwindContext} :
    Restored m₀ (toCaller ctx).2 ↔ Restored m₀ ctx :=
  ⟨fun h => ⟨h.sp, h.reg⟩, fun h => ⟨h.sp, h.reg⟩⟩

def contextOf (pc : Word) (m : Machine) : UnwindContext where
  pc := pc
  sp := m.sp
  gp n := m.reg (.x n)
  fpRegs n := m.reg (.d n)

theorem contextOf_matches (pc : Word) (m : Machine) : Matches (contextOf pc m) m where
  sp := rfl
  reg r _ := by cases r <;> rfl

theorem unwindFrame_eq {ctx : UnwindContext} (h : Stopped mod func hdr fn s ctx.pc) (mem : Mem) :
    (unwindFrame mem mod ctx).2.2 = (toCaller (if s.rva = 0 then ctx
      else (replayList mem (s.left fn) ctx firstPair).1)).2 := by
  have hlength := parseXdata_length h.record
  rw [h.describes.length] at hlength
  rw [unwindFrame, h.found]
  dsimp only
  by_cases hrva : s.rva = 0
  · rw [if_pos (h.pc_begin.mpr hrva), if_pos hrva]
  · rw [if_neg (mt h.pc_begin.mp hrva), if_neg hrva, h.unpacked, h.record]
    exact unwindXdata_eq h.describes (by omega) h.stop mem mod func ctx h.rvaInFunc

/-- **Main result: from every stop of a function, `unwind_frame` restores the stack pointer and the
callee-saved registers if and only if the `save_next`s that are left stand, by the order of the array, for
the pairs they stored.** -/
theorem unwindFrame_restores_iff {mod : Module} {func : FunctionEntry} {s : Stop} {pc : Word}
    (h : Stopped mod func hdr fn s pc) :
    (∀ m₀ m, s.Reached fn m₀ m → ∀ ctx : UnwindContext, ctx.pc = pc → Matches ctx m →
      Restored m₀ (unwindFrame m.mem mod ctx).2.2) ↔ NextPaired (s.left fn) := by
  have hv := h.describes.valid_left h.stop
  rw [← paired_iff hv]
  constructor
  · intro hres
    obtain ⟨m, hm, ht⟩ := h.describes.telling h.stop
    by_cases hrva : s.rva = 0
    · obtain ⟨hsaves, -, hfp⟩ := h.describes.left_begin h.stop hrva
      refine ⟨?_, ?_⟩
      · rw [hsaves]
        exact fun e he => absurd he List.not_mem_nil
      · intro post op pre hsplit hsome
        rw [hfp op (by rw [hsplit]; simp)] at hsome
        cases hsome
    · have hctx : Matches (contextOf pc m) m := contextOf_matches pc m
      have hback := hres entry m hm (contextOf pc m) rfl hctx
      rw [@unwindFrame_eq _ _ _ _ _ (contextOf pc m) h, toCaller_restored, if_neg hrva] at hback
      exact paired_of_restored hv ht hctx hback
  · intro hp m₀ m hm ctx hpc hctx
    subst hpc
    have hi := h.describes.intact h.stop hm
    rw [unwindFrame_eq h, toCaller_restored]
    by_cases hrva : s.rva = 0
    · rw [if_pos hrva]
      obtain ⟨hsaves, hdepth, hfp⟩ := h.describes.left_begin h.stop hrva
      exact hi.restored hsaves hdepth hfp hctx
    · rw [if_neg hrva]
      exact replay_restores hv hp hi hctx

end

/-! ## A function with a `save_next` -/

/-- An image with a record at `0x2000`: eight instructions, one word of codes, and an epilogue at the end
whose codes begin at 0. -/
def nextImage (ops : List Op) : Image := fun a =>
  ([0x08#8, 0x00#8, 0x20#8, 0x08#8] ++ (encode ops).map (BitVec.ofNat 8)).getD (a - 0x2000) 0

def nextModule (ops : List Op) : Module where
  addr := 0x140000000
  img := nextImage ops
  funcs := [(0x1000, 0x2000)]

def nextEntry : FunctionEntry where
  beginRva := 0x1000
  length := 32
  unwindData := 0x2000
  packed := false

def nextHeader (ops : List Op) : XdataHeader := xdataHeader (nextImage ops) 0x2000 0x08200008 0 1 1

def nextFunction (ops : List Op) : Function where
  length := 32
  prolog := ops
  epilogs := [{ start := 20, index := 0, ops }]

theorem next_valid {op : Op} (hpair : (lastPair [op]).isSome = true) (hnext : op ≠ .saveNext)
    (hfp : op.fp? = none) (hregs : ∀ e ∈ saves [.saveNext, op], e.1.CalleeSaved)
    (honce : ((saves [.saveNext, op]).map Prod.fst).Nodup)
    (hapart : ((saves [.saveNext, op]).map Prod.snd).Nodup) : Valid [.saveNext, op] where
  short := by simp
  next := by
    intro post pre hsplit
    cases post with
    | nil => exact (List.cons.inj hsplit).2 ▸ hpair
    | cons o post =>
      have hmem : .saveNext ∈ [op] := by
        rw [(List.cons.inj hsplit).2]
        simp
      exact absurd (List.mem_singleton.mp hmem).symm hnext
  regs := hregs
  once := honce
  apart := hapart
  fpSaved := by
    intro post o pre hsplit hsome
    have hmem : o ∈ [.saveNext, op] := by
      rw [hsplit]
      simp
    rcases List.mem_pair.mp hmem with rfl | rfl
    · cases hsome
    · rw [hfp] at hsome
      cases hsome

theorem Mirrors.refl {cs : List Op} (hv : Valid cs) : Mirrors cs cs where
  valid := hv
  saves _ := Iff.rfl
  depth := rfl
  fp post op pre _ hsplit hk := ⟨post, op, pre, hsplit, hk, rfl⟩
  sp := id

theorem next_record {ops : List Op} (hword : word (nextImage ops) 0x2000 = 0x08200008) :
    parseXdata (nextImage ops) 0x2000 = some (nextHeader ops) := by
  unfold parseXdata
  dsimp only
  rw [hword, if_neg (by decide), if_neg (by decide)]
  rfl

theorem next_describes {op : Op} (hv : Valid [.saveNext, op])
    (hfits : (encode [.saveNext, op]).length ≤ 4)
    (hholds : HoldsAt (nextHeader [.saveNext, op]).codes 0 (encode [.saveNext, op])) :
    Describes (nextHeader [.saveNext, op]) (nextFunction [.saveNext, op]) where
  length := by
    show 0x08200008 % 2 ^ 18 * 4 = 32
    decide
  prolog := hholds
  prologFits := hfits
  valid := hv
  epilog := List.forall_mem_singleton.mpr hholds
  epilogFits := by
    intro e he
    rw [List.mem_singleton.mp he]
    show 0 + (encode [.saveNext, op]).length ≤ 4
    omega
  mirrors := List.forall_mem_singleton.mpr (.refl hv)
  after := List.forall_mem_singleton.mpr (show 2 * 4 ≤ 20 by decide)
  inside := List.forall_mem_singleton.mpr (show 20 + (2 + 1) * 4 ≤ 32 by decide)
  disjoint e he e' he' _ _ _ := by rw [List.mem_singleton.mp he, List.mem_singleton.mp he']
  header _ := ⟨_, rfl, rfl, show 20 + (2 + 1) * 4 = 32 by decide⟩
  scopes hE := by
    exfalso
    revert hE
    show ¬ decide (0x08200008 / 2 ^ 21 % 2 = 1) = false
    decide

deriving instance DecidableEq for FunctionEntry

theorem next_stopped {op : Op} (hv : Valid [.saveNext, op])
    (hfits : (encode [.saveNext, op]).length ≤ 4)
    (hholds : HoldsAt (nextHeader [.saveNext, op]).codes 0 (encode [.saveNext, op]))
    (hword : word (nextImage [.saveNext, op]) 0x2000 = 0x08200008)
    (hfound : lookupFunctionEntry (nextModule [.saveNext, op]) 0x140001008 = some nextEntry) :
    Stopped (nextModule [.saveNext, op]) nextEntry (nextHeader [.saveNext, op])
      (nextFunction [.saveNext, op]) (.body 8) 0x140001008 where
  found := hfound
  unpacked := rfl
  record := by
    have himg : (nextModule [.saveNext, op]).img = nextImage [.saveNext, op] := by rw [nextModule]
    have hdata : nextEntry.unwindData = 0x2000 := rfl
    rw [himg, hdata, next_record hword]
  describes := next_describes hv hfits hholds
  stop := by
    refine ⟨show 2 * 4 ≤ 8 by decide, show 8 < 32 by decide, ?_⟩
    exact List.forall_mem_singleton.mpr (show ¬ (20 ≤ 8 ∧ 8 < 20 + (2 + 1) * 4) by decide)
  pc := by
    show 0x140001008#64 = 0x140000000#64 + (0x1000#32).setWidth 64 + BitVec.ofNat 64 8
    decide

theorem r19_stopped : Stopped (nextModule [.saveNext, .saveR19R20X 4]) nextEntry
    (nextHeader [.saveNext, .saveR19R20X 4]) (nextFunction [.saveNext, .saveR19R20X 4]) (.body 8)
    0x140001008 := by
  apply next_stopped
  · exact next_valid rfl (by decide) rfl (by decide) (by decide) (by decide)
  · decide
  · unfold HoldsAt
    decide +kernel
  · decide +kernel
  · decide +kernel

theorem d8_stopped : Stopped (nextModule [.saveNext, .saveFregpX 0 3]) nextEntry
    (nextHeader [.saveNext, .saveFregpX 0 3]) (nextFunction [.saveNext, .saveFregpX 0 3]) (.body 8)
    0x140001008 := by
  apply next_stopped
  · exact next_valid rfl (by decide) rfl (by decide) (by decide) (by decide)
  · decide
  · unfold HoldsAt
    decide +kernel
  · decide +kernel
  · decide +kernel

theorem r19_paired : NextPaired [.saveNext, .saveR19R20X 4] where
  found := by decide
  x29 := by
    intro post op pre hsplit hsome
    have hmem : op ∈ [Op.saveNext, .saveR19R20X 4] := by
      rw [hsplit]
      simp
    rcases List.mem_pair.mp hmem with rfl | rfl <;> cases hsome

/-- With one run of pairs from x19 at the stack pointer on, the pairs are the right ones. -/
theorem unwindFrame_restores_iff_r19 : NextPaired [.saveNext, .saveR19R20X 4] ∧ ∀ m₀ m,
    (Stop.body 8).Reached (nextFunction [.saveNext, .saveR19R20X 4]) m₀ m →
      ∀ ctx : UnwindContext, ctx.pc = 0x140001008 → Matches ctx m →
        Restored m₀ (unwindFrame m.mem (nextModule [.saveNext, .saveR19R20X 4]) ctx).2.2 :=
  ⟨r19_paired, (unwindFrame_restores_iff r19_stopped).mpr r19_paired⟩

/-- The replay takes the `save_next` for x21 and x22, and d10 keeps what the body left in it. -/
theorem unwindFrame_loses_d10 : ¬ ∀ m₀ m,
    (Stop.body 8).Reached (nextFunction [.saveNext, .saveFregpX 0 3]) m₀ m →
      ∀ ctx : UnwindContext, ctx.pc = 0x140001008 → Matches ctx m →
        Restored m₀ (unwindFrame m.mem (nextModule [.saveNext, .saveFregpX 0 3]) ctx).2.2 := by
  intro h
  have hm := spoil_inBody d8_stopped.describes.valid
  have hback := h entry _ hm (contextOf 0x140001008 _) rfl (contextOf_matches _ _)
  have hd10 := hback.reg (.d 2) (by decide)
  revert hd10
  decide +kernel

end Kernemul.Unwind.Arm64
