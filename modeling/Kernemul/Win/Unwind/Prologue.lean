import Kernemul.Win.Unwind.X64

/-!
# Prologues and what they leave on the stack

A prologue in the documented order: pushes, fixed allocations, the frame register, saves. Executing it
lays the saved registers out in slots that never overlap (`Prologue.apart`), and its unwind codes are the
operations in reverse, each with the offset of the instruction after it.
-/

namespace Kernemul.Unwind.X64

open Stack

structure Machine where
  gp : Nat → Word
  xmm : Nat → BitVec 128
  mem : Mem

def Nonvolatile (r : Nat) : Prop := r ∈ [3, 5, 6, 7, 12, 13, 14, 15]

instance (r : Nat) : Decidable (Nonvolatile r) := inferInstanceAs (Decidable (_ ∈ _))

theorem Nonvolatile.ne_rsp {r : Nat} (h : Nonvolatile r) : r ≠ rsp := by
  rintro rfl
  revert h
  decide

theorem Nonvolatile.lt {r : Nat} (h : Nonvolatile r) : r < 16 := by
  unfold Nonvolatile at h
  simp at h
  omega

theorem Nonvolatile.ne_zero {r : Nat} (h : Nonvolatile r) : r ≠ 0 := by
  rintro rfl
  revert h
  decide

abbrev Reg := { r : Nat // Nonvolatile r }

/-! ## Operations -/

/-- `sub rsp, n`, by the size of the code that describes it. -/
inductive Alloc
  | small (n : Fin 16)
  | large (n : Fin (2 ^ 16))
  | huge (n : Fin (2 ^ 32))

def Alloc.size : Alloc → Nat
  | small n => n * 8 + 8
  | large n => n * 8
  | huge n => n

/-- `mov [rsp + n], reg` for a general or an xmm register. -/
inductive Save
  | gp (r : Reg) (n : Fin (2 ^ 16))
  | gpFar (r : Reg) (n : Fin (2 ^ 32))
  | xmm (x : Fin 16) (n : Fin (2 ^ 16))
  | xmmFar (x : Fin 16) (n : Fin (2 ^ 32))

def Save.off : Save → Nat
  | gp _ n => n * 8
  | gpFar _ n => n
  | xmm _ n => n * 16
  | xmmFar _ n => n

def Save.len : Save → Nat
  | gp _ _ | gpFar _ _ => 8
  | xmm _ _ | xmmFar _ _ => 16

def Save.reg? : Save → Option Reg
  | gp r _ | gpFar r _ => some r
  | xmm _ _ | xmmFar _ _ => none

inductive Op
  | push (r : Reg)
  | alloc (a : Alloc)
  /-- `lea r, [rsp + 16 * k]` -/
  | setFpreg (r : Reg) (k : Fin 16)
  | save (s : Save)

def Op.saved : Op → Option Reg
  | push r => some r
  | alloc _ => none
  | setFpreg _ _ => none
  | save s => s.reg?

def Op.grow : Op → Nat
  | push _ => 8
  | alloc a => a.size
  | setFpreg _ _ => 0
  | save _ => 0

/-- Where an operation stores, when it leaves rsp at depth `d`. -/
def Op.slot (d : Nat) : Op → Option Slot
  | push _ => some ⟨d, 0, 8⟩
  | alloc _ => none
  | setFpreg _ _ => none
  | save s => some ⟨d, s.off, s.len⟩

def Op.exec (m : Machine) : Op → Machine
  | push r =>
    let sp := m.gp rsp - 8#64
    { m with gp := Function.update m.gp rsp sp, mem := write64 m.mem sp (m.gp r) }
  | alloc a => { m with gp := Function.update m.gp rsp (m.gp rsp - BitVec.ofNat 64 a.size) }
  | setFpreg r k => { m with gp := Function.update m.gp r (m.gp rsp + BitVec.ofNat 64 (k * 16)) }
  | save (.gp r n) =>
    { m with mem := write64 m.mem (m.gp rsp + BitVec.ofNat 64 (n * 8)) (m.gp r) }
  | save (.gpFar r n) => { m with mem := write64 m.mem (m.gp rsp + BitVec.ofNat 64 n) (m.gp r) }
  | save (.xmm x n) => { m with mem := write128 m.mem (m.gp rsp + BitVec.ofNat 64 (n * 16)) (m.xmm x) }
  | save (.xmmFar x n) => { m with mem := write128 m.mem (m.gp rsp + BitVec.ofNat 64 n) (m.xmm x) }

def run (ops : List Op) (m : Machine) : Machine := ops.foldl Op.exec m

def depth (ops : List Op) : Nat := (ops.map Op.grow).sum

/-- Where a list of operations stores, from depth `d` on. -/
def slotsFrom : Nat → List Op → List Slot
  | _, [] => []
  | d, op :: ops => (op.slot (d + op.grow)).toList ++ slotsFrom (d + op.grow) ops

def savedBy (ops : List Op) : List Nat := ops.filterMap fun op => op.saved.map Subtype.val

def retSlot : Slot := ⟨0, 0, 8⟩

/-! ## What an operation does to the machine -/

variable {m : Machine} {top : Word} {d : Nat}

theorem run_append (ops ops' : List Op) (m : Machine) :
    run (ops ++ ops') m = run ops' (run ops m) := List.foldl_append

@[simp] theorem run_nil (m : Machine) : run [] m = m := rfl

theorem run_singleton (op : Op) (m : Machine) : run [op] m = op.exec m := rfl

theorem depth_append (ops ops' : List Op) : depth (ops ++ ops') = depth ops + depth ops' := by
  simp [depth]

theorem depth_singleton (op : Op) : depth [op] = op.grow := by simp [depth]

theorem savedBy_append (ops ops' : List Op) :
    savedBy (ops ++ ops') = savedBy ops ++ savedBy ops' := by simp [savedBy]

theorem slotsFrom_append (d : Nat) (ops ops' : List Op) :
    slotsFrom d (ops ++ ops') = slotsFrom d ops ++ slotsFrom (d + depth ops) ops' := by
  induction ops generalizing d with
  | nil => simp [slotsFrom, depth]
  | cons op ops ih =>
    have hd : d + depth (op :: ops) = d + op.grow + depth ops := by simp [depth]; omega
    rw [List.cons_append, slotsFrom, slotsFrom, ih, hd, List.append_assoc]

theorem exec_rsp (op : Op) (m : Machine) :
    (op.exec m).gp rsp = m.gp rsp - BitVec.ofNat 64 op.grow := by
  cases op with
  | push r => simp [Op.exec, Op.grow]
  | alloc a => simp [Op.exec, Op.grow]
  | setFpreg r k =>
    have hne : rsp ≠ r := (Nonvolatile.ne_rsp r.2).symm
    simp [Op.exec, Op.grow, hne]
  | save s => cases s <;> simp [Op.exec, Op.grow]

theorem run_rsp (ops : List Op) (m : Machine) :
    (run ops m).gp rsp = m.gp rsp - BitVec.ofNat 64 (depth ops) := by
  induction ops using List.reverseRecOn with
  | nil => simp [depth]
  | append_singleton ops op ih =>
    rw [run_append, run_singleton, exec_rsp, ih, depth_append, depth_singleton, BitVec.ofNat_add,
      sub_sub]

theorem exec_gp (op : Op) (m : Machine) {r : Nat} (hr : r ≠ rsp)
    (hframe : ∀ f k, op = .setFpreg f k → r ≠ f) : (op.exec m).gp r = m.gp r := by
  cases op with
  | push _ => exact Function.update_of_ne hr ..
  | alloc _ => exact Function.update_of_ne hr ..
  | setFpreg f k => exact Function.update_of_ne (hframe f k rfl) ..
  | save s => cases s <;> rfl

theorem exec_agree (op : Op) (hsp : m.gp rsp = top - BitVec.ofNat 64 d) {s : Slot} (hs : s.Small)
    (hslot : ∀ t ∈ op.slot (d + op.grow), s.Apart t ∧ t.Small) :
    Slot.Agree (op.exec m).mem m.mem top s := by
  have hsave : ∀ (off : Nat) (l : Nat), m.gp rsp + BitVec.ofNat 64 off = Slot.addr top ⟨d, off, l⟩ := by
    intro off l
    rw [hsp]
    rfl
  cases op with
  | push r =>
    obtain ⟨hap, hsm⟩ := hslot _ rfl
    have haddr : m.gp rsp - 8#64 = Slot.addr top ⟨d + 8, 0, 8⟩ := by
      rw [hsp, Slot.addr, BitVec.ofNat_add, BitVec.add_zero]
      ring
    rw [Op.exec, haddr]
    exact Slot.Agree.write64 _ _ _ hap hs hsm rfl
  | alloc a => exact fun _ _ => rfl
  | setFpreg f k => exact fun _ _ => rfl
  | save sv =>
    obtain ⟨hap, hsm⟩ := hslot _ rfl
    cases sv with
    | gp r n =>
      rw [Op.exec, hsave _ 8]
      exact Slot.Agree.write64 _ _ _ hap hs hsm rfl
    | gpFar r n =>
      rw [Op.exec, hsave _ 8]
      exact Slot.Agree.write64 _ _ _ hap hs hsm rfl
    | xmm x n =>
      rw [Op.exec, hsave _ 16]
      exact Slot.Agree.write128 _ _ _ hap hs hsm rfl
    | xmmFar x n =>
      rw [Op.exec, hsave _ 16]
      exact Slot.Agree.write128 _ _ _ hap hs hsm rfl

/-! ## Prologues -/

/-- The parts of a prologue in the documented order; every operation comes with the offset of the
instruction after it. -/
structure Layout where
  size : Nat
  pushes : List (Nat × Reg)
  allocs : List (Nat × Alloc)
  frame : Option (Nat × Reg × Fin 16)
  saves : List (Nat × Save)

namespace Layout

variable (p : Layout)

def timed : List (Nat × Op) :=
  p.pushes.map (fun o => (o.1, .push o.2)) ++ (p.allocs.map (fun o => (o.1, .alloc o.2)) ++
    (p.frame.toList.map (fun o => (o.1, .setFpreg o.2.1 o.2.2)) ++
      p.saves.map fun o => (o.1, .save o.2)))

def ops : List Op := p.timed.map Prod.snd

/-- The operations executed at `off` bytes into the function. -/
def executed (off : Nat) : List Op := (p.timed.filter fun o => decide (o.1 ≤ off)).map Prod.snd

def allocated : Nat := (p.allocs.map fun a => a.2.size).sum

end Layout

def word (off op info : Nat) : Nat := off + 256 * op + 4096 * info

def Op.encode (off : Nat) : Op → List Nat
  | push r => [word off 0 r]
  | alloc (.large n) => [word off 1 0, n]
  | alloc (.huge n) => [word off 1 1, n % 2 ^ 16, n / 2 ^ 16]
  | alloc (.small n) => [word off 2 n]
  | setFpreg _ _ => [word off 3 0]
  | save (.gp r n) => [word off 4 r, n]
  | save (.gpFar r n) => [word off 5 r, n % 2 ^ 16, n / 2 ^ 16]
  | save (.xmm x n) => [word off 8 x, n]
  | save (.xmmFar x n) => [word off 9 x, n % 2 ^ 16, n / 2 ^ 16]

def Layout.words (p : Layout) : List Nat := p.timed.reverse.flatMap fun o => o.2.encode o.1

/-- A prologue: the frame register is pushed before it is set, and saves go to the allocated part of the
frame or above the return address, apart from each other. -/
structure Prologue extends Layout where
  size_lt : size < 256
  in_order : toLayout.timed.Pairwise fun a b => a.1 ≤ b.1
  within : ∀ o ∈ toLayout.timed, o.1 ≤ size
  words_fit : toLayout.words.length < 256
  frame_pushed : ∀ f ∈ frame, f.2.1 ∈ pushes.map Prod.snd
  saves_placed : ∀ s ∈ saves, s.2.off + s.2.len ≤ toLayout.allocated ∨
    toLayout.allocated + 8 * pushes.length + 8 ≤ s.2.off
  saves_apart : saves.Pairwise fun s t =>
    s.2.off + s.2.len ≤ t.2.off ∨ t.2.off + t.2.len ≤ s.2.off

structure EpilogCode where
  off : Fin 256
  info : Fin 16
  second : Nat

def EpilogCode.words (e : EpilogCode) : List Nat := [word e.off 6 e.info, e.second]

/-- The `UNWIND_INFO` of a prologue. -/
structure Encodes (info : UnwindInfo) (p : Prologue) (epilogs : List EpilogCode) : Prop where
  version : info.version = 1 ∧ epilogs = [] ∨ info.version = 2
  unchained : info.chainInfo = false
  size : info.sizeOfProlog = p.size
  no_frame : p.frame = none → info.frameRegister = 0
  frame : ∀ f ∈ p.frame, info.frameRegister = f.2.1 ∧ info.frameOffset = f.2.2
  count : info.unwindCodeCount = (epilogs.flatMap EpilogCode.words ++ p.words).length
  codes : HoldsAt info.codes 0 (epilogs.flatMap EpilogCode.words ++ p.words)

/-! ## Where the function can be stopped -/

/-- The body of the function, entered at `m₀`: it may have changed every register the prologue saved,
and rsp if there is a frame register, but neither the frame register nor what is saved on the stack. -/
structure InBody (p : Prologue) (m₀ m : Machine) : Prop where
  kept : ∀ r, Nonvolatile r → r ∉ savedBy p.ops → m.gp r = m₀.gp r
  sp : p.frame = none → m.gp rsp = (run p.ops m₀).gp rsp
  frame : ∀ f ∈ p.frame, m.gp f.2.1 = (run p.ops m₀).gp f.2.1
  stack : ∀ s ∈ retSlot :: slotsFrom 0 p.ops,
    Slot.Agree m.mem (run p.ops m₀).mem (m₀.gp rsp) s

/-- The machine when the function entered at `m₀` is stopped at an offset. -/
inductive StoppedAt (p : Prologue) (m₀ : Machine) : Nat → Machine → Prop
  | prolog {off : Nat} (h : off < p.size) : StoppedAt p m₀ off (run (p.executed off) m₀)
  | body {off : Nat} {m : Machine} (h : p.size ≤ off) (hm : InBody p m₀ m) : StoppedAt p m₀ off m

end Kernemul.Unwind.X64
