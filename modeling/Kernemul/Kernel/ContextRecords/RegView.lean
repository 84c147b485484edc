import Mathlib.Data.BitVec
import Mathlib.Logic.Function.Basic

/-!
# Registers of a cpu and of a thread (`reg_view`)

A context goes to and from the cpu, or the bank that a thread keeps its registers in while no cpu runs it. A bank has
the registers of `arch::regs`, which are all that are named here.
-/

namespace Kernemul.ContextRecords

abbrev ThreadId := Nat

/-- `xmm_t`, `vec_t`, and the fields of a context for them. -/
structure Wide where
  low : BitVec 64
  high : BitVec 64
  deriving DecidableEq, Repr

structure SegReg where
  selector : BitVec 16
  base : BitVec 64
  limit : BitVec 32
  flags : BitVec 32
  deriving DecidableEq, Repr

/-- The registers by their names: those of 64 bits, wide ones and segments. -/
structure RegFile (γ ω σ : Type) where
  gp : γ → BitVec 64
  wide : ω → Wide
  seg : σ → SegReg

section

variable {γ ω σ : Type} [DecidableEq γ] [DecidableEq ω] [DecidableEq σ]

def RegFile.set (regs : RegFile γ ω σ) (r : γ) (value : BitVec 64) : RegFile γ ω σ :=
  { regs with gp := Function.update regs.gp r value }

def RegFile.setWide (regs : RegFile γ ω σ) (r : ω) (value : Wide) : RegFile γ ω σ :=
  { regs with wide := Function.update regs.wide r value }

def RegFile.setSeg (regs : RegFile γ ω σ) (r : σ) (value : SegReg) : RegFile γ ω σ :=
  { regs with seg := Function.update regs.seg r value }

/-- A cpu, the thread that it runs, and the threads; `userMode` is `is_user_mode`. -/
structure Machine (γ ω σ : Type) where
  cpu : RegFile γ ω σ
  current : Option ThreadId
  bank : ThreadId → RegFile γ ω σ
  userMode : ThreadId → Bool

/-- `reg_view`: no thread stands for the one the cpu is running. -/
abbrev RegView := Option ThreadId

/-- What `get` reads. -/
def Machine.file (m : Machine γ ω σ) (regs : RegView) : RegFile γ ω σ := regs.elim m.cpu m.bank

/-- What `set` changes. -/
def Machine.modify (m : Machine γ ω σ) (regs : RegView) (f : RegFile γ ω σ → RegFile γ ω σ) : Machine γ ω σ :=
  match regs with
  | none => { m with cpu := f m.cpu }
  | some t => { m with bank := Function.update m.bank t (f (m.bank t)) }

def Machine.isUser (m : Machine γ ω σ) (regs : RegView) : Bool :=
  match regs with
  | none => m.current.any m.userMode
  | some t => m.userMode t

structure Machine.Elsewhere (m m' : Machine γ ω σ) (regs : RegView) : Prop where
  file : ∀ regs' ≠ regs, m'.file regs' = m.file regs'
  current : m'.current = m.current
  userMode : m'.userMode = m.userMode

omit [DecidableEq γ] [DecidableEq ω] [DecidableEq σ] in
theorem Machine.file_modify (m : Machine γ ω σ) (regs : RegView) (f : RegFile γ ω σ → RegFile γ ω σ) :
    (m.modify regs f).file regs = f (m.file regs) := by
  cases regs with
  | none => rfl
  | some t => exact Function.update_self ..

omit [DecidableEq γ] [DecidableEq ω] [DecidableEq σ] in
theorem Machine.elsewhere_modify (m : Machine γ ω σ) (regs : RegView) (f : RegFile γ ω σ → RegFile γ ω σ) :
    m.Elsewhere (m.modify regs f) regs := by
  cases regs with
  | none =>
    refine ⟨fun regs' hne => ?_, rfl, rfl⟩
    obtain ⟨t, rfl⟩ := Option.ne_none_iff_exists'.mp hne
    rfl
  | some t =>
    refine ⟨fun regs' hne => ?_, rfl, rfl⟩
    cases regs' with
    | none => rfl
    | some t' => exact Function.update_of_ne (fun heq => hne (congrArg some heq)) ..

end

/-- `context_flags::has`. -/
def hasFlags (bits part : BitVec 32) : Bool := bits &&& part == part

theorem foldl_update_apply {ι κ β : Type} [DecidableEq ι] [DecidableEq κ] {key : ι → κ} (hkey : Function.Injective key)
    (skip : ι → Prop) [DecidablePred skip] (val : ι → β) (l : List ι) (f : κ → β) (j : ι) :
    l.foldl (fun f i => if skip i then f else Function.update f (key i) (val i)) f (key j) =
      if j ∈ l ∧ ¬ skip j then val j else f (key j) := by
  induction l generalizing f with
  | nil => exact (if_neg fun h => List.not_mem_nil h.1).symm
  | cons i l ih =>
    rw [List.foldl_cons, ih]
    by_cases hji : j = i
    · subst hji
      by_cases hskip : skip j
      · simp [hskip]
      · simp [hskip]
    · have hstep : (if skip i then f else Function.update f (key i) (val i)) (key j) = f (key j) := by
        split_ifs
        · rfl
        · exact Function.update_of_ne (hkey.ne hji) ..
      rw [hstep]
      exact if_congr (by rw [List.mem_cons, or_iff_right hji]) rfl rfl

theorem foldl_update_of_notMem {ι κ β : Type} [DecidableEq κ] {key : ι → κ} (skip : ι → Prop) [DecidablePred skip]
    (val : ι → β) {k : κ} (hk : ∀ i, key i ≠ k) (l : List ι) (f : κ → β) :
    l.foldl (fun f i => if skip i then f else Function.update f (key i) (val i)) f k = f k := by
  induction l generalizing f with
  | nil => rfl
  | cons i l ih =>
    rw [List.foldl_cons, ih]
    split_ifs
    · rfl
    · exact Function.update_of_ne (hk i).symm ..

end Kernemul.ContextRecords
