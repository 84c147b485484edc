import Kernemul.Win.Unwind.Arm64

/-!
# ARM64 prologues

A prologue is given by its codes in the order of the code array, the last instruction first. What a
`save_next` stores is decided by the instruction before it, which is the code after it. `saves` lists
where every register is stored, as places below the stack pointer on entry.
-/

namespace Kernemul.Unwind.Arm64

open Stack

inductive Reg
  | x (n : Nat)
  | d (n : Nat)
  deriving DecidableEq, Repr

def Reg.CalleeSaved : Reg → Prop
  | x n => 19 ≤ n ∧ n ≤ 30
  | d n => n < 8

instance (r : Reg) : Decidable r.CalleeSaved := by
  cases r <;> (unfold Reg.CalleeSaved; infer_instance)

def x29 : Reg := .x regFp

/-! ## What an instruction stores -/

def Pair.stores (p : Pair) : List (Reg × Nat) :=
  if p.fp then [(.d p.reg, p.off), (.d (p.reg + 1), p.off + 8)]
  else [(.x p.reg, p.off), (.x (p.reg + 1), p.off + 8)]

namespace Op

/-- What is stored, at which offsets from the stack pointer, when a `save_next` stores `next`. -/
def stores (next : Pair) : Op → List (Reg × Nat)
  | saveR19R20X _ => Pair.stores ⟨false, 19, 0⟩
  | saveFplr z => Pair.stores ⟨false, regFp, z * 8⟩
  | saveFplrX _ => Pair.stores ⟨false, regFp, 0⟩
  | saveRegp x z => Pair.stores ⟨false, 19 + x, z * 8⟩
  | saveRegpX x _ => Pair.stores ⟨false, 19 + x, 0⟩
  | saveReg x z => [(.x (19 + x), z * 8)]
  | saveRegX x _ => [(.x (19 + x), 0)]
  | saveLrpair x z => [(.x (19 + 2 * x), z * 8), (.x regLr, z * 8 + 8)]
  | saveFregp x z => Pair.stores ⟨true, x, z * 8⟩
  | saveFregpX x _ => Pair.stores ⟨true, x, 0⟩
  | saveFreg x z => [(.d x, z * 8)]
  | saveFregX x _ => [(.d x, 0)]
  | saveNext => next.stores
  | allocS _ | allocM _ | allocL _ | setFp | addFp _ | nop => []

/-- How far the stack pointer goes down, before anything is stored. -/
def drop : Op → Nat
  | allocS x => x * 16
  | allocM x => x * 16
  | allocL x => x * 16
  | saveR19R20X z => z * 8
  | saveFplrX z => (z + 1) * 8
  | saveRegpX _ z => (z + 1) * 8
  | saveRegX _ z => (z + 1) * 8
  | saveFregpX _ z => (z + 1) * 8
  | saveFregX _ z => (z + 1) * 8
  | _ => 0

def fp? : Op → Option Nat
  | setFp => some 0
  | addFp x => some (x * 8)
  | _ => none

/-- The pair an instruction stores, for a `save_next` after it. -/
def pair? : Op → Option Pair
  | saveR19R20X _ => some ⟨false, 19, 0⟩
  | saveRegp x z => some ⟨false, 19 + x, z * 8⟩
  | saveRegpX x _ => some ⟨false, 19 + x, 0⟩
  | saveFregp x z => some ⟨true, x, z * 8⟩
  | saveFregpX x _ => some ⟨true, x, 0⟩
  | _ => none

end Op

def lastPair : List Op → Option Pair
  | [] => none
  | .saveNext :: cs => (lastPair cs).map Pair.next
  | op :: _ => op.pair?

/-- What a `save_next` after these instructions stores. -/
def nextPair (cs : List Op) : Pair := ((lastPair cs).map Pair.next).getD firstPair

def depth : List Op → Nat
  | [] => 0
  | op :: cs => depth cs + op.drop

/-- Every register a prologue stores, with its place below the stack pointer on entry. -/
def saves : List Op → List (Reg × Int)
  | [] => []
  | op :: cs =>
    (op.stores (nextPair cs)).map (fun e => (e.1, (depth (op :: cs) : Int) - e.2)) ++ saves cs

/-- The frame pointer is set once at most, to a value from which `place` leads back: after x29 has been
saved. -/
def FpSaved (cs : List Op) : Prop := ∀ post op pre, cs = post ++ op :: pre → op.fp?.isSome = true →
  x29 ∈ (saves pre).map Prod.fst ∧ ∀ o ∈ pre, o.fp? = none

/-- The documented prologues: a `save_next` goes on from a pair; callee-saved registers are stored, each
once, no two in one place; the frame pointer is set once at most, after it has been saved. -/
structure Valid (cs : List Op) : Prop where
  short : cs.length < 2 ^ 10
  next : ∀ post pre, cs = post ++ .saveNext :: pre → (lastPair pre).isSome = true
  regs : ∀ e ∈ saves cs, e.1.CalleeSaved
  once : ((saves cs).map Prod.fst).Nodup
  apart : ((saves cs).map Prod.snd).Nodup
  fpSaved : FpSaved cs

theorem saves_sublist (post pre : List Op) : (saves pre).Sublist (saves (post ++ pre)) := by
  induction post with
  | nil => exact List.Sublist.refl _
  | cons op post ih => exact ih.trans (List.sublist_append_right ..)

theorem Valid.right {post pre : List Op} (h : Valid (post ++ pre)) : Valid pre := by
  have hsub := saves_sublist post pre
  refine ⟨?_, ?_, fun e he => h.regs e (hsub.subset he), h.once.sublist (hsub.map _),
    h.apart.sublist (hsub.map _), ?_⟩
  · have := h.short
    rw [List.length_append] at this
    omega
  · intro a b hpre
    apply h.next (post ++ a) b
    rw [hpre, List.append_assoc]
  · intro a op b hpre
    apply h.fpSaved (post ++ a) op b
    rw [hpre, List.append_assoc]

variable {op : Op} {cs : List Op}

theorem Valid.tail (h : Valid (op :: cs)) : Valid cs := by
  rw [← List.singleton_append] at h
  exact h.right

/-! ## Places -/

theorem drop_le (op : Op) : op.drop ≤ 2 ^ 28 ∧ op.drop % 8 = 0 := by
  constructor <;> cases op <;> simp only [Op.drop] <;> omega

theorem depth_le (cs : List Op) : depth cs ≤ 2 ^ 28 * cs.length ∧ depth cs % 8 = 0 := by
  induction cs with
  | nil => exact ⟨Nat.zero_le _, rfl⟩
  | cons op cs ih =>
    have := drop_le op
    rw [depth, List.length_cons]
    omega

def Pair.Near (n : Nat) (p : Pair) : Prop := p.off % 8 = 0 ∧ p.off ≤ 512 + 16 * n

theorem Pair.Near.next {n : Nat} {p : Pair} (h : p.Near n) : p.next.Near (n + 1) := by
  unfold Near Pair.next at *
  dsimp only
  omega

theorem Pair.Near.mono {n n' : Nat} {p : Pair} (h : p.Near n) (hle : n ≤ n') : p.Near n' := by
  unfold Near at *
  omega

theorem pair?_near {p : Pair} (h : op.pair? = some p) : p.Near 0 := by
  unfold Pair.Near
  cases op <;> simp only [Op.pair?, reduceCtorEq, Option.some.injEq] at h <;> subst h <;> dsimp only <;>
    omega

theorem lastPair_near {p : Pair} (h : lastPair cs = some p) : p.Near cs.length := by
  induction cs generalizing p with
  | nil => cases h
  | cons op cs ih =>
    by_cases hnext : op = .saveNext
    · subst hnext
      obtain ⟨q, hq, rfl⟩ := Option.map_eq_some_iff.mp h
      exact (ih hq).next
    · have hpair : op.pair? = some p := by
        rw [← h, lastPair]
        exact hnext
      exact (pair?_near hpair).mono (Nat.zero_le _)

theorem nextPair_near (cs : List Op) : (nextPair cs).Near (cs.length + 1) := by
  unfold nextPair
  cases h : lastPair cs with
  | none =>
    show firstPair.Near _
    unfold Pair.Near firstPair
    dsimp only
    omega
  | some p => exact (lastPair_near h).next

theorem stores_off {next : Pair} {n : Nat} (h : next.Near n) {e : Reg × Nat}
    (he : e ∈ op.stores next) : e.2 % 8 = 0 ∧ e.2 ≤ 520 + 16 * n := by
  have hpair : ∀ p : Pair, p.Near n → e ∈ p.stores → e.2 % 8 = 0 ∧ e.2 ≤ 520 + 16 * n := by
    intro p hp he
    unfold Pair.Near at hp
    unfold Pair.stores at he
    split_ifs at he <;> rcases List.mem_pair.mp he with rfl | rfl <;> dsimp only <;> omega
  cases op
  case saveNext => exact hpair _ h he
  case saveLrpair => rcases List.mem_pair.mp he with rfl | rfl <;> dsimp only <;> omega
  case saveReg => rw [List.mem_singleton.mp he]; dsimp only; omega
  case saveRegX => rw [List.mem_singleton.mp he]; dsimp only; omega
  case saveFreg => rw [List.mem_singleton.mp he]; dsimp only; omega
  case saveFregX => rw [List.mem_singleton.mp he]; dsimp only; omega
  all_goals first
    | exact absurd he (List.not_mem_nil)
    | exact hpair _ (by unfold Pair.Near; dsimp only; omega) he

theorem saves_fits (h : cs.length ≤ 2 ^ 10) : ∀ e ∈ saves cs, Fits e.2 := by
  induction cs with
  | nil => exact fun e he => absurd he List.not_mem_nil
  | cons op cs ih =>
    rw [List.length_cons] at h
    intro e he
    rcases List.mem_append.mp he with he | he
    · obtain ⟨e', he', rfl⟩ := List.mem_map.mp he
      have hoff := stores_off (nextPair_near cs) he'
      have hdepth := depth_le (op :: cs)
      rw [List.length_cons] at hdepth
      unfold Fits
      dsimp only
      omega
    · exact ih (by omega) e he

/-! ## Executing a prologue -/

structure Machine where
  sp : Word
  reg : Reg → Word
  mem : Mem

/-- Storing registers at their places below `top`. -/
def storePlaces (top : Word) (reg : Reg → Word) (l : List (Reg × Int)) (mem : Mem) : Mem :=
  l.foldl (fun m e => write64 m (place top e.2) (reg e.1)) mem

def Op.exec (next : Pair) (op : Op) (m : Machine) : Machine :=
  let sp := m.sp - BitVec.ofNat 64 op.drop
  { sp
    mem := (op.stores next).foldl (fun mem e => write64 mem (sp + BitVec.ofNat 64 e.2) (m.reg e.1)) m.mem
    reg := match op.fp? with
      | some k => Function.update m.reg x29 (sp + BitVec.ofNat 64 k)
      | none => m.reg }

def run : List Op → Machine → Machine
  | [], m => m
  | op :: cs, m => op.exec (nextPair cs) (run cs m)

theorem run_sp (cs : List Op) (m : Machine) : (run cs m).sp = place m.sp (depth cs) := by
  induction cs with
  | nil => simp [run, depth]
  | cons op cs ih =>
    show (run cs m).sp - BitVec.ofNat 64 op.drop = _
    rw [ih, place_sub, depth, Nat.cast_add]

theorem run_mem_cons (op : Op) (cs : List Op) (m : Machine) :
    (run (op :: cs) m).mem = storePlaces m.sp (run cs m).reg
      ((op.stores (nextPair cs)).map fun e => (e.1, (depth (op :: cs) : Int) - e.2)) (run cs m).mem := by
  have hsp : (run cs m).sp - BitVec.ofNat 64 op.drop = place m.sp (depth (op :: cs)) :=
    run_sp (op :: cs) m
  rw [run, Op.exec]
  dsimp only
  rw [hsp, storePlaces, List.foldl_map]
  simp only [place_add]

theorem run_reg (cs : List Op) (m : Machine) {r : Reg} (h : r ≠ x29 ∨ ∀ o ∈ cs, o.fp? = none) :
    (run cs m).reg r = m.reg r := by
  induction cs with
  | nil => rfl
  | cons op cs ih =>
    have hcs := ih (h.imp_right fun h o ho => h o (List.mem_cons_of_mem _ ho))
    rw [run, Op.exec]
    cases hfp : op.fp? with
    | none => exact hcs
    | some k =>
      rcases h with h | h
      · exact (Function.update_of_ne h ..).trans hcs
      · rw [h op (List.mem_cons_self ..)] at hfp
        cases hfp

theorem storePlaces_other {top : Word} {reg : Reg → Word} {l : List (Reg × Int)}
    (hfits : ∀ e ∈ l, Fits e.2) {p : Int} (hp : Fits p) (hne : p ∉ l.map Prod.snd) (mem : Mem) :
    read64 (storePlaces top reg l mem) (place top p) = read64 mem (place top p) := by
  induction l generalizing mem with
  | nil => rfl
  | cons e l ih =>
    rw [List.map_cons, List.mem_cons, not_or] at hne
    exact (ih (fun e he => hfits e (List.mem_cons_of_mem _ he)) hne.2 _).trans
      (read64_write64_place mem top _ hp (hfits e (List.mem_cons_self ..)) hne.1)

theorem storePlaces_stored {top : Word} {reg : Reg → Word} {l : List (Reg × Int)}
    (hfits : ∀ e ∈ l, Fits e.2) (hapart : (l.map Prod.snd).Nodup) {e : Reg × Int} (he : e ∈ l)
    (mem : Mem) : read64 (storePlaces top reg l mem) (place top e.2) = reg e.1 := by
  induction l generalizing mem with
  | nil => exact absurd he List.not_mem_nil
  | cons e' l ih =>
    rw [List.map_cons, List.nodup_cons] at hapart
    have hfits' : ∀ e ∈ l, Fits e.2 := fun e he => hfits e (List.mem_cons_of_mem _ he)
    rcases List.mem_cons.mp he with rfl | he
    · exact (storePlaces_other hfits' (hfits e (List.mem_cons_self ..)) hapart.1 _).trans
        (read64_write64 ..)
    · exact ih hfits' hapart.2 he _

theorem mem_saves_head {e : Reg × Int}
    (he : e ∈ (op.stores (nextPair cs)).map fun e => (e.1, (depth (op :: cs) : Int) - e.2)) :
    e ∈ saves (op :: cs) := List.mem_append_left _ he

theorem mem_saves_tail {e : Reg × Int} (he : e ∈ saves cs) :
    e ∈ saves (op :: cs) := List.mem_append_right _ he

theorem Valid.not_mem_tail (h : Valid (op :: cs)) {e : Reg × Nat}
    (he : e ∈ op.stores (nextPair cs)) : e.1 ∉ (saves cs).map Prod.fst := by
  have honce := h.once
  rw [saves, List.map_append] at honce
  intro hmem
  refine List.disjoint_of_nodup_append honce ?_ hmem
  rw [List.map_map]
  exact List.mem_map.mpr ⟨e, he, rfl⟩

theorem Valid.run_reg_stored (h : Valid (op :: cs)) {e : Reg × Nat}
    (he : e ∈ op.stores (nextPair cs)) (m : Machine) : (run cs m).reg e.1 = m.reg e.1 := by
  apply run_reg
  by_contra hset
  rw [not_or, not_not] at hset
  obtain ⟨hr, hfp⟩ := hset
  push Not at hfp
  obtain ⟨o, ho, hsome⟩ := hfp
  obtain ⟨post, pre, hsplit⟩ := List.append_of_mem ho
  have hsaved := (h.tail.fpSaved post o pre hsplit (Option.isSome_iff_ne_none.mpr hsome)).1
  apply h.not_mem_tail he
  rw [hr, hsplit, ← List.singleton_append, ← List.append_assoc]
  exact ((saves_sublist _ pre).map Prod.fst).subset hsaved

theorem run_saves (h : Valid cs) (m : Machine) :
    ∀ e ∈ saves cs, read64 (run cs m).mem (place m.sp e.2) = m.reg e.1 := by
  induction cs with
  | nil => exact fun e he => absurd he List.not_mem_nil
  | cons op cs ih =>
    have hfits := saves_fits h.short.le
    have hapart := h.apart
    rw [saves, List.map_append] at hapart
    intro e he
    rw [run_mem_cons]
    rcases List.mem_append.mp he with hhead | htail
    · rw [storePlaces_stored (fun e he => hfits e (mem_saves_head he)) hapart.of_append_left hhead]
      obtain ⟨e', he', rfl⟩ := List.mem_map.mp hhead
      exact h.run_reg_stored he' m
    · rw [storePlaces_other (fun e he => hfits e (mem_saves_head he)) (hfits e he)]
      · exact ih h.tail e htail
      · intro hmem
        exact List.disjoint_of_nodup_append hapart hmem (List.mem_map_of_mem htail)

theorem run_mem_other (h : cs.length ≤ 2 ^ 10) (m : Machine) {p : Int} (hp : Fits p)
    (hne : p ∉ (saves cs).map Prod.snd) :
    read64 (run cs m).mem (place m.sp p) = read64 m.mem (place m.sp p) := by
  induction cs with
  | nil => rfl
  | cons op cs ih =>
    have hfits := saves_fits h
    rw [saves, List.map_append, List.mem_append, not_or] at hne
    rw [List.length_cons] at h
    rw [run_mem_cons, storePlaces_other (fun e he => hfits e (mem_saves_head he)) hp hne.1]
    exact ih (by omega) hne.2

end Kernemul.Unwind.Arm64
