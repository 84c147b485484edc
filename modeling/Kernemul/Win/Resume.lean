import Kernemul.Win.Exception

/-!
# Resuming in an exception handler

When a frame accepts a fault, its code should go on with the stack pointer and the nonvolatile registers
it had at the call. The walk knows them, but leaves its context behind: the cpu gets the frame the
personality routine named, and keeps the registers of the function that faulted.
-/

namespace Kernemul.Unwind.X64

open Stack

/-- A chain of calls that ends in a fault: every frame is stopped in a call of the one before it, and
what the frames saved is still on the stack. -/
structure Chain (g : Guest) (cpu : Cpu) (mem : Mem) (fs : List Frame) : Prop where
  fault : ∀ f ∈ fs.head?, f.pc = cpu.pc ∧ f.gp = cpu.gp
  calls : fs.IsChain fun callee caller => caller.Calls callee
  valid : ∀ f ∈ fs, f.Valid ∧ g.findModuleByAddr f.pc = some f.mod
  halted : ∀ f ∈ fs, Halted f.prologue f.entry f.off.toNat f.gp mem
  above : ∀ f ∈ fs, ∀ x, f.Saves x → Above (cpu.gp rsp) x

/-- The personality routine of a frame accepted, and named a target. -/
def Frame.Targets (g : Guest) (cpu : Cpu) (f : Frame) (pc : Word) : Prop := ∃ result mem,
  (g.ask (cpu.gp rsp) f.pc f.mod result mem).2.disposition = executeHandler ∧
    (g.ask (cpu.gp rsp) f.pc f.mod result mem).2.targetIp = pc

/-- The cpu goes on at the target, in the frame as it was at the call. -/
structure Frame.Restored (g : Guest) (cpu : Cpu) (f : Frame) (cpu' : Cpu) : Prop where
  target : f.Targets g cpu cpu'.pc
  sp : cpu'.gp rsp = f.gp rsp
  gp : ∀ r, Nonvolatile r → cpu'.gp r = f.gp r

/-! ## The walk along a chain -/

section
variable {g : Guest} {cpu cpu' : Cpu} {P : Word → Prop}

theorem walk_depth {fuel left depth k : Nat} {mem mem' : Mem} {ctx : UnwindContext}
    (h : g.walk fuel cpu left depth mem ctx = some (.accepted k cpu' mem')) : depth ≤ k := by
  induction left generalizing depth mem ctx with
  | zero => simp [Guest.walk] at h
  | succ left ih =>
    rw [Guest.walk] at h
    generalize (if depth > 0 then ctx.pc - 1#64 else ctx.pc) = pc at h
    dsimp only at h
    split at h
    · simp at h
    split at h
    · simp at h
    · simp at h
    · split_ifs at h
      · exact (Nat.le_succ depth).trans (ih h)
      · obtain ⟨rfl, -, -⟩ := Outcome.accepted.inj (Option.some.inj h)
        exact le_refl _
      · cases h
      · exact (Nat.le_succ depth).trans (ih h)

theorem Halted.of_keeps {f : Frame} {mem mem' : Mem} (hsaves : ∀ x, f.Saves x → P x)
    (hkeeps : Keeps P mem mem') (h : Halted f.prologue f.entry f.off.toNat f.gp mem) :
    Halted f.prologue f.entry f.off.toNat f.gp mem' where
  kept := h.kept
  sp := h.sp
  frame := h.frame
  stack s hs i hi := (hkeeps _ (hsaves _ ⟨s, hs, i, hi, rfl⟩)).trans (h.stack s hs i hi)

/-- A context is at a frame: the registers are those of the frame, and the walk looks at its pc. -/
def AtFrame (depth : Nat) (ctx : UnwindContext) (f : Frame) : Prop :=
  ctx.sp = f.gp rsp ∧ (∀ r, Nonvolatile r → ctx.gp r = f.gp r) ∧
    (if depth > 0 then ctx.pc - 1#64 else ctx.pc) = f.pc

/-- The cpu goes on with the registers of the fault, and with rsp where the prologue of the frame that
accepted left it. -/
theorem walk_accepted (hg : g.Leaves P) (hanswers : g.AnswersFrame)
    (hP : ∀ x, P x → Above (cpu.gp rsp) x) {fs : List Frame}
    (hcalls : fs.IsChain fun callee caller => caller.Calls callee)
    (hvalid : ∀ f ∈ fs, f.Valid ∧ g.findModuleByAddr f.pc = some f.mod)
    (hsaves : ∀ f ∈ fs, ∀ x, f.Saves x → P x) {fuel left depth k : Nat} {mem mem' : Mem}
    (hhalted : ∀ f ∈ fs, Halted f.prologue f.entry f.off.toNat f.gp mem) {ctx : UnwindContext}
    (hctx : ∀ f ∈ fs.head?, AtFrame depth ctx f)
    (h : g.walk fuel cpu left depth mem ctx = some (.accepted k cpu' mem')) {i : Nat} {f : Frame}
    (hf : fs[i]? = some f) (hk : k = depth + i) :
    f.Targets g cpu cpu'.pc ∧ cpu'.gp = Function.update cpu.gp rsp f.base := by
  induction left generalizing depth mem ctx fs i with
  | zero => simp [Guest.walk] at h
  | succ left ih =>
    cases fs with
    | nil => simp at hf
    | cons f₀ fs =>
      obtain ⟨hsp, hgp, hpc⟩ := hctx f₀ rfl
      obtain ⟨hf₀, hmod⟩ := hvalid f₀ (List.mem_cons_self ..)
      have hhalt := hhalted f₀ (List.mem_cons_self ..)
      rw [Guest.walk] at h
      simp only [hpc, hmod] at h
      cases fuel with
      | zero => simp [unwindFrame, lookupFunctionEntry_eq hf₀, applyUnwindInfo] at h
      | succ fuel =>
        obtain ⟨result, ctx', hunwind, hest, hsp', hpc', hgp'⟩ :=
          unwindFrame_of_halted hf₀ hhalt { ctx with pc := f₀.pc } hsp hgp rfl fuel
        rw [hunwind] at h
        dsimp only at h
        -- the search goes on with the caller
        have hnext : ∀ mem₁, Keeps P mem mem₁ →
            g.walk (fuel + 1) cpu left (depth + 1) mem₁ ctx' = some (.accepted k cpu' mem') →
            f.Targets g cpu cpu'.pc ∧ cpu'.gp = Function.update cpu.gp rsp f.base := by
          intro mem₁ hmem₁ hwalk
          have hlt := walk_depth hwalk
          cases i with
          | zero => omega
          | succ i =>
            apply ih hcalls.of_cons (fun f hf => hvalid f (List.mem_cons_of_mem _ hf))
              (fun f hf => hsaves f (List.mem_cons_of_mem _ hf))
              (fun f hf => (hhalted f (List.mem_cons_of_mem _ hf)).of_keeps
                (hsaves f (List.mem_cons_of_mem _ hf)) hmem₁) _ hwalk hf (by omega)
            intro f₁ hf₁
            cases fs with
            | nil => simp at hf₁
            | cons f₂ fs =>
              cases hf₁
              have hcall := (List.isChain_cons_cons.mp hcalls).1
              refine ⟨?_, fun r hr => (hgp' r hr).trans (hcall.gp r hr), ?_⟩
              · rw [hsp', hcall.sp]
                ring
              · rw [if_pos (Nat.succ_pos _), hpc', hcall.ret]
                ring
        split_ifs at h with hnone haccept hcontinue
        · exact hnext mem (fun _ _ => rfl) h
        · obtain ⟨rfl, rfl, rfl⟩ := Outcome.accepted.inj (Option.some.inj h)
          obtain rfl : i = 0 := by omega
          cases hf
          refine ⟨⟨result, mem, haccept.1, rfl⟩, ?_⟩
          dsimp only
          rw [ask_frame hanswers _ _ _ _ _ haccept.1, hest]
        · cases h
        · exact hnext _ (ask_keeps hg _ hP _ _ _ _) h

theorem handle_accepted {fs : List Frame} (hg : g.Leaves fun x => ∃ f ∈ fs, f.Saves x)
    (hanswers : g.AnswersFrame) {mem mem' : Mem} (hchain : Chain g cpu mem fs) {fuel k : Nat}
    (h : g.handle fuel cpu mem = some (.accepted k cpu' mem')) {f : Frame} (hf : fs[k]? = some f) :
    f.Targets g cpu cpu'.pc ∧ cpu'.gp = Function.update cpu.gp rsp f.base := by
  have habove : ∀ x, (∃ f ∈ fs, f.Saves x) → Above (cpu.gp rsp) x := by
    rintro x ⟨f, hf, hx⟩
    exact hchain.above f hf x hx
  unfold Guest.handle at h
  split at h
  · simp at h
  · apply walk_accepted hg hanswers habove hchain.calls hchain.valid (fun f hf x hx => ⟨f, hf, hx⟩)
      hchain.halted _ h hf (Nat.zero_add k).symm
    intro f₀ hf₀
    obtain ⟨hpc, hgp⟩ := hchain.fault f₀ hf₀
    exact ⟨congrFun hgp.symm rsp, fun r _ => congrFun hgp.symm r, hpc.symm⟩

/-- The registers of a frame are those of the fault, where no frame below it saved them. -/
theorem Chain.gp_eq {mem : Mem} {fs : List Frame} (hchain : Chain g cpu mem fs) {k : Nat} {f : Frame}
    (hf : fs[k]? = some f) {r : Nat} (hr : Nonvolatile r) :
    f.gp r = (savedValue r (fs.take k)).getD (cpu.gp r) := by
  have hsplit : fs.take (k + 1) = fs.take k ++ [f] := by
    rw [List.take_add_one, hf]
    rfl
  cases hfs : fs.take (k + 1) with
  | nil =>
    rw [hfs] at hsplit
    simp at hsplit
  | cons f₀ rest =>
    have hpre : f₀ :: rest <+: fs := hfs ▸ List.take_prefix ..
    have hhead : f₀ ∈ fs.head? := by
      obtain ⟨post, rfl⟩ := hpre
      rfl
    have hcalls : (f₀ :: rest).IsChain fun callee caller => caller.Calls callee := by
      obtain ⟨post, hpost⟩ := hpre
      have hall := hchain.calls
      rw [← hpost] at hall
      exact hall.left_of_append
    rw [hfs] at hsplit
    rw [gp_eq_savedValue hcalls (fun g hg => hchain.halted g (hpre.subset hg)) hsplit hr,
      (hchain.fault f₀ hhead).2]

end

/-- **When an accepted fault restores the frame.** The handler's frame gets back its stack pointer and
its registers exactly when it has not moved rsp since its prologue, and each register that some frame
below it saved still holds, at the fault, the value the outermost of these saved. -/
theorem handle_restores_iff (g : Guest) (cpu cpu' : Cpu) (mem mem' : Mem) (fs : List Frame)
    (hg : g.Leaves fun x => ∃ f ∈ fs, f.Saves x) (hanswers : g.AnswersFrame)
    (hchain : Chain g cpu mem fs) (fuel k : Nat)
    (h : g.handle fuel cpu mem = some (.accepted k cpu' mem')) (f : Frame) (hf : fs[k]? = some f) :
    f.Restored g cpu cpu' ↔ f.gp rsp = f.base ∧
      ∀ r, Nonvolatile r → ∀ v ∈ savedValue r (fs.take k), cpu.gp r = v := by
  obtain ⟨htarget, hgp⟩ := handle_accepted hg hanswers hchain h hf
  have hsp : cpu'.gp rsp = f.base := by rw [hgp, Function.update_self]
  have hsame : ∀ r, Nonvolatile r → cpu'.gp r = cpu.gp r := by
    intro r hr
    rw [hgp, Function.update_of_ne hr.ne_rsp]
  constructor
  · intro hrest
    refine ⟨hrest.sp.symm.trans hsp, fun r hr v hv => ?_⟩
    rw [← hsame r hr, hrest.gp r hr, hchain.gp_eq hf hr, hv]
    rfl
  · rintro ⟨hbase, hkept⟩
    refine ⟨htarget, hsp.trans hbase.symm, fun r hr => ?_⟩
    rw [hsame r hr, hchain.gp_eq hf hr]
    cases hv : savedValue r (fs.take k) with
    | none => rfl
    | some v => exact hkept r hr v hv

/-! ## A callee that saved rbx

`f₁` calls `f₀` with 0x703 in rbx; `f₀` saves rbx, clears it and faults; the scope of `f₁` accepts. -/

namespace RbxExample

def calleeProlog : Prologue where
  size := 5
  pushes := [(1, rbx)]
  allocs := [(5, .small 3)]
  frame := none
  saves := []
  size_lt := by decide
  in_order := by decide
  within := by decide
  words_fit := by decide
  frame_pushed := by decide
  saves_placed := by decide
  saves_apart := by decide

def callerProlog : Prologue where
  size := 4
  pushes := []
  allocs := [(4, .small 4)]
  frame := none
  saves := []
  size_lt := by decide
  in_order := by decide
  within := by decide
  words_fit := by decide
  frame_pushed := by decide
  saves_placed := by decide
  saves_apart := by decide

def calleeInfo : UnwindInfo where
  sizeOfProlog := 5
  unwindCodeCount := 2
  codes i := calleeProlog.words.getD i 0

def callerInfo : UnwindInfo where
  exceptionHandler := true
  sizeOfProlog := 4
  unwindCodeCount := 1
  codes i := callerProlog.words.getD i 0
  handlerRva := 0x3000

def calleeFunc : RuntimeFunction := ⟨0x1000, 0x1040, 0x2000⟩

def callerFunc : RuntimeFunction := ⟨0x1100, 0x1180, 0x2100⟩

def mod : Module where
  addr := 0x400000
  size := 0x10000
  img rva := if rva = 0x2000 then calleeInfo else callerInfo
  excRva := 0x5000
  funcs := [calleeFunc, callerFunc]

/-- One scope, the whole of `f₁`, which every fault is handled by. -/
def image : Mem := writeWords (fun _ => 0) 0x40210C [0x0000110000000001, 0x0000000100001180, 0x1150]

def callerEntry : Machine where
  gp r := if r = rsp then 0x80000 else 0x700 + BitVec.ofNat 64 r
  xmm _ := 0
  mem := image

def callerFrame : Frame where
  mod
  func := callerFunc
  prologue := callerProlog
  epilogs := []
  entry := callerEntry
  off := 0x14
  gp := (run callerProlog.ops callerEntry).gp

def calleeEntry : Machine where
  gp := Function.update callerFrame.gp rsp (callerFrame.gp rsp - 8#64)
  xmm _ := 0
  mem := write64 image (callerFrame.gp rsp - 8#64) 0x401115

def calleeFrame : Frame where
  mod
  func := calleeFunc
  prologue := calleeProlog
  epilogs := []
  entry := calleeEntry
  off := 8
  gp := Function.update (run calleeProlog.ops calleeEntry).gp 3 0

def guest : Guest where
  modules := [mod]
  call _ _ _ mem := (mem, continueSearch)
  isCSpecificHandler a := decide (a = 0x403000)
  trampoline := 0x900000
  record _ := 0
  context _ := 0

def cpu : Cpu := ⟨calleeFrame.pc, calleeFrame.gp⟩

def mem : Mem := (run calleeProlog.ops calleeEntry).mem

theorem chain : Chain guest cpu mem [calleeFrame, callerFrame] where
  fault := by
    rintro _ ⟨⟩
    exact ⟨rfl, rfl⟩
  calls := by
    refine .cons_cons ⟨?_, ?_, ?_⟩ (.singleton _)
    · decide +kernel
    · intro r hr
      exact Function.update_of_ne hr.ne_rsp ..
    · decide +kernel
  valid := by
    intro f hf
    rcases List.mem_pair.mp hf with rfl | rfl
    · refine ⟨⟨by decide, by decide, by decide, by decide, ?_⟩, by rfl⟩
      refine ⟨.inl ⟨rfl, rfl⟩, rfl, rfl, fun _ => rfl, nofun, rfl, ?_⟩
      exact holdsAt_getD calleeProlog.words 0
    · refine ⟨⟨by decide, by decide, by decide, by decide, ?_⟩, by rfl⟩
      refine ⟨.inl ⟨rfl, rfl⟩, rfl, rfl, fun _ => rfl, nofun, rfl, ?_⟩
      exact holdsAt_getD callerProlog.words 0
  halted := by
    intro f hf
    rcases List.mem_pair.mp hf with rfl | rfl
    · refine ⟨?_, fun _ => by decide +kernel, fun _ => nofun, by decide +kernel⟩
      show ∀ r ∈ [3, 5, 6, 7, 12, 13, 14, 15], r ∉ savedBy calleeFrame.executed →
        calleeFrame.gp r = calleeEntry.gp r
      decide +kernel
    · refine ⟨?_, fun _ => by decide +kernel, fun _ => nofun, by decide +kernel⟩
      show ∀ r ∈ [3, 5, 6, 7, 12, 13, 14, 15], r ∉ savedBy callerFrame.executed →
        callerFrame.gp r = callerEntry.gp r
      decide +kernel
  above := by
    have hall : ∀ f ∈ [calleeFrame, callerFrame], ∀ s ∈ retSlot :: slotsFrom 0 f.executed,
        ∀ i < s.len,
          (s.addr (f.entry.gp rsp) + BitVec.ofNat 64 i - cpu.gp rsp).toNat < 2 ^ 63 := by
      decide +kernel
    rintro f hf x ⟨s, hs, i, hi, rfl⟩
    exact hall f hf s hs i hi

theorem leaves : guest.Leaves fun x => ∃ f ∈ [calleeFrame, callerFrame], f.Saves x :=
  fun _ _ _ _ _ _ => rfl

theorem answers : guest.AnswersFrame :=
  fun _ _ _ _ _ _ _ h => absurd h continueSearch_ne

theorem accepted : ∃ cpu' mem', guest.handle 1 cpu mem = some (.accepted 1 cpu' mem') ∧
    cpu'.pc = 0x401150 ∧ cpu'.gp 3 = 0 := by
  have hrun : ((guest.handle 1 cpu mem).bind Outcome.accepted?).map
      (fun a => (a.1, a.2.pc, a.2.gp 3)) = some (1, 0x401150, 0) := by
    decide +kernel
  obtain ⟨⟨k, cpu'⟩, hacc, hval⟩ := Option.map_eq_some_iff.mp hrun
  obtain ⟨o, ho, hcpu⟩ := Option.bind_eq_some_iff.mp hacc
  obtain ⟨mem', rfl⟩ := Outcome.accepted?_eq_some hcpu
  simp only [Prod.mk.injEq] at hval
  obtain ⟨rfl, hpc, hgp⟩ := hval
  exact ⟨cpu', mem', ho, hpc, hgp⟩

end RbxExample

open RbxExample in
/-- Not every accepted fault restores the frame of its handler: rbx is as the callee left it. -/
theorem handle_loses_rbx : ¬ ∀ (g : Guest) (cpu cpu' : Cpu) (mem mem' : Mem) (fs : List Frame),
    (g.Leaves fun x => ∃ f ∈ fs, f.Saves x) → g.AnswersFrame → Chain g cpu mem fs → ∀ fuel k : Nat,
    g.handle fuel cpu mem = some (.accepted k cpu' mem') → ∀ f : Frame, fs[k]? = some f →
    f.Restored g cpu cpu' := by
  intro hall
  obtain ⟨cpu', mem', hrun, -, hrbx⟩ := accepted
  have hrest := hall guest cpu cpu' mem mem' _ leaves answers chain 1 1 hrun callerFrame rfl
  have h3 := hrest.gp 3 (by decide)
  rw [hrbx] at h3
  revert h3
  decide

open RbxExample in
/-- In that run rbx was saved as 0x703 and is 0 at the fault. -/
theorem handle_restores_iff_rbx : ∃ cpu' mem',
    guest.handle 1 cpu mem = some (.accepted 1 cpu' mem') ∧
      (callerFrame.Restored guest cpu cpu' ↔ callerFrame.gp rsp = callerFrame.base ∧
        ∀ r, Nonvolatile r → ∀ v ∈ savedValue r [calleeFrame], cpu.gp r = v) := by
  obtain ⟨cpu', mem', hrun, -⟩ := accepted
  exact ⟨cpu', mem', hrun, handle_restores_iff guest cpu cpu' mem mem' _ leaves answers chain 1 1 hrun
    callerFrame rfl⟩

end Kernemul.Unwind.X64
