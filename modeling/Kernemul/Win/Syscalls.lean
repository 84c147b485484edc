import Kernemul.Kernel.Symbols
import Kernemul.Lib.LastWrite
import Kernemul.Win.CallingConv
import Mathlib.Tactic.IntervalCases

/-!
# System calls (`win_syscall`, `win_kernel_state::dispatch_syscall`)

The numbers of the services are read from the stubs that the libraries of user mode export, the routines are found in
the modules that implement them under the same names, and the handlers are bound to the addresses of routines. So a
number leads to a handler over two tables, which are both written name by name.

On x86-64 the number is in `rax`, where the stub puts it; on ARM64 it is in the instruction that makes the call. A
handler is what it does to the machine.
-/

namespace Kernemul.Syscalls

open Text CallingConv ByteMemory
open Symbols (Module)

/-- `win_syscall`: how an architecture has its numbers, and that a stub calls with the one that is read from it. -/
structure WinSyscall {R : Type} [DecidableEq R] (C : Conv R) where
  id : Machine R → BitVec 32
  decodeId : List UInt8 → Option (BitVec 32)
  /-- The cpu is at the system call of a stub. -/
  Ran : List UInt8 → Machine R → Prop
  id_of_ran : ∀ {stub number m}, decodeId stub = some number → Ran stub m → id m = number
  ran : ∀ {stub number}, decodeId stub = some number → ∃ m, Ran stub m

/-! ## The stubs -/

def word32 (bytes : List UInt8) : BitVec 32 := BitVec.ofNat 32 (Bytes.toNat bytes)

namespace X86

/-- `mov r10, rcx; mov eax,`. -/
def opening : List UInt8 := [0x4C, 0x8B, 0xD1, 0xB8]

def decodeId (stub : List UInt8) : Option (BitVec 32) :=
  if stub.length < 8 then none
  else if stub.take 4 ≠ opening then none
  else some (word32 ((stub.drop 4).take 4))

/-- What is moved to `eax` is zero in the upper half of `rax`. -/
def syscall : WinSyscall x86WinConv where
  id m := BitVec.ofNat 32 (m.file Context.rax)
  decodeId := decodeId
  Ran stub m := m.file Context.rax = (word32 ((stub.drop 4).take 4)).toNat
  id_of_ran {stub number m} hdecode hran := by
    unfold decodeId at hdecode
    split at hdecode
    · cases hdecode
    · split at hdecode
      · cases hdecode
      · obtain rfl := Option.some.inj hdecode
        rw [hran, BitVec.ofNat_toNat, BitVec.setWidth_eq]
  ran {stub _} _ := ⟨⟨fun _ => (word32 ((stub.drop 4).take 4)).toNat, fun _ => 0⟩, rfl⟩

theorem decodeId_stub (number : BitVec 32) (rest : List UInt8) :
    decodeId (opening ++ (Bytes.ofNat 4 number.toNat ++ rest)) = some number := by
  have hlen : (opening ++ (Bytes.ofNat 4 number.toNat ++ rest)).length = 8 + rest.length := by
    simp only [List.length_append, Bytes.length_ofNat]
    rw [show opening.length = 4 from rfl]
    omega
  have hopening : (opening ++ (Bytes.ofNat 4 number.toNat ++ rest)).take 4 = opening := rfl
  have hdrop : (opening ++ (Bytes.ofNat 4 number.toNat ++ rest)).drop 4 = Bytes.ofNat 4 number.toNat ++ rest := rfl
  have htake : (Bytes.ofNat 4 number.toNat ++ rest).take 4 = Bytes.ofNat 4 number.toNat :=
    List.take_left' (Bytes.length_ofNat 4 _)
  rw [decodeId, if_neg (by omega), if_neg (not_not_intro hopening), hdrop, htake, word32,
    Bytes.toNat_ofNat_of_lt number.isLt, BitVec.ofNat_toNat, BitVec.setWidth_eq]

end X86

namespace Arm64

def svcOp : BitVec 32 := 0xD4000001
def svcMask : BitVec 32 := 0xFFE0001F

def decode (insn : BitVec 32) : Option (BitVec 32) :=
  if insn &&& svcMask ≠ svcOp then none else some ((insn >>> 5) &&& 0xFFFF)

def decodeId (stub : List UInt8) : Option (BitVec 32) :=
  if stub.length < 4 then none else decode (word32 (stub.take 4))

def id (m : Machine GuestCall.Arm64Reg) : BitVec 32 := (decode (word32 (readMem m.mem (m.file .pc) 4))).getD 0

def syscall : WinSyscall arm64WinConv where
  id := id
  decodeId := decodeId
  Ran stub m := readMem m.mem (m.file .pc) 4 = stub.take 4
  id_of_ran {stub number m} hdecode hran := by
    unfold decodeId at hdecode
    split at hdecode
    · cases hdecode
    · rw [id, hran, hdecode]
      rfl
  ran {stub number} hdecode := by
    refine ⟨⟨fun _ => 0, writeMem (fun _ => 0) 0 (stub.take 4)⟩, ?_⟩
    have hlen : (stub.take 4).length = 4 := by
      unfold decodeId at hdecode
      split at hdecode
      · cases hdecode
      · rw [List.length_take]
        omega
    have hread := readMem_writeMem (fun _ => 0) 0 (stub.take 4)
    rwa [hlen] at hread

/-- `svc #number`. -/
def svc (number : BitVec 16) : BitVec 32 := svcOp ||| (number.setWidth 32 <<< 5)

theorem decode_svc (number : BitVec 16) : decode (svc number) = some (number.setWidth 32) := by
  have hop : svc number &&& svcMask = svcOp := by
    apply BitVec.eq_of_getLsbD_eq
    intro i hi
    interval_cases i <;> simp [svc, svcOp, svcMask]
  have hnumber : (svc number >>> 5) &&& 0xFFFF = number.setWidth 32 := by
    apply BitVec.eq_of_getLsbD_eq
    intro i hi
    interval_cases i <;> simp [svc, svcOp]
  rw [decode, if_neg (not_not_intro hop), hnumber]

theorem decodeId_stub (number : BitVec 16) (rest : List UInt8) :
    decodeId (Bytes.ofNat 4 (svc number).toNat ++ rest) = some (number.setWidth 32) := by
  have hlen : (Bytes.ofNat 4 (svc number).toNat ++ rest).length = 4 + rest.length := by
    rw [List.length_append, Bytes.length_ofNat]
  rw [decodeId, if_neg (by omega), List.take_left' (Bytes.length_ofNat 4 _), word32,
    Bytes.toNat_ofNat_of_lt (svc number).isLt, BitVec.ofNat_toNat, BitVec.setWidth_eq, decode_svc]

end Arm64

/-! ## The tables -/

/-- What `img->exports()` gives of a library of stubs. -/
structure StubExport where
  name : Str
  forwarded : Bool
  rva : BitVec 32
  deriving DecidableEq, Repr

structure StubImage where
  bytes : List UInt8
  exports : List StubExport

abbrev Ids := BitVec 32 → Option Nat

/-- What a handler does to the machine; it has caught what it throws. -/
abbrev RedirectFn (R : Type) := Machine R → Machine R

/-- `redirect`, of a name in a module. -/
structure Redirect (R : Type) where
  mod : Module
  name : Str
  fn : RedirectFn R

section
variable {R : Type} [DecidableEq R] {C : Conv R} (A : WinSyscall C)

/-- The loop of `add` over the exports. -/
def addExport (img : StubImage) (impl : Module) (ids : Ids) (e : StubExport) : Ids :=
  if e.forwarded ∨ ¬ (ascii ['N', 't']).isPrefixOf e.name then ids
  else if img.bytes.length ≤ e.rva.toNat then ids
  else
    match A.decodeId (img.bytes.drop e.rva.toNat) with
    | none => ids
    | some number =>
      match impl.findSymbol e.name with
      | none => ids
      | some handler => Function.update ids number (some handler)

def add (ids : Ids) (img : StubImage) (impl : Module) : Ids := img.exports.foldl (addExport A img impl) ids

/-- `build_syscall_table`: the stubs of `ntdll.dll`, then those of `win32u.dll` if there is a `win32k.sys`. -/
def buildSyscallTable (ntdll : Option StubImage) (ntoskrnl : Module) (win32u : Option StubImage)
    (win32k : Option Module) : Ids :=
  let ids := ntdll.elim (fun _ => none) fun img => add A (fun _ => none) img ntoskrnl
  win32k.elim ids fun impl => win32u.elim ids fun img => add A ids img impl

omit [DecidableEq R] in
def tryRedirect (redirections : Nat → Option (RedirectFn R)) (r : Redirect R) : Nat → Option (RedirectFn R) :=
  match r.mod.findSymbol r.name with
  | none => redirections
  | some addr => Function.update redirections addr (some r.fn)

omit [DecidableEq R] in
def redirections (rs : List (Redirect R)) : Nat → Option (RedirectFn R) := rs.foldl tryRedirect fun _ => none

def statusNotImplemented : Nat := 0xC0000002

/-- What is left of `dispatch_syscall` when the handler is found, or is not. -/
def serve (C : Conv R) (fn : Option (RedirectFn R)) (m : Machine R) : Bool × Machine R :=
  match fn with
  | none => (false, C.retWrite m (Bytes.ofNat 4 statusNotImplemented))
  | some fn => ((fn m).file C.pc ≠ m.file C.pc, fn m)

def dispatchSyscall (ids : Ids) (redirections : Nat → Option (RedirectFn R)) (m : Machine R) : Bool × Machine R :=
  serve C ((ids (A.id m)).bind redirections) m

/-! ## Services -/

/-- A stub that has a number, and the routine that is found for its name. -/
structure Service where
  impl : Module
  name : Str
  stub : List UInt8
  number : BitVec 32
  handler : Nat

def serviceOf (img : StubImage) (impl : Module) (e : StubExport) : Option Service :=
  if e.forwarded ∨ ¬ (ascii ['N', 't']).isPrefixOf e.name ∨ img.bytes.length ≤ e.rva.toNat then none
  else
    (A.decodeId (img.bytes.drop e.rva.toNat)).bind fun number =>
      (impl.findSymbol e.name).map fun handler => ⟨impl, e.name, img.bytes.drop e.rva.toNat, number, handler⟩

def servicesOf (img : StubImage) (impl : Module) : List Service := img.exports.filterMap (serviceOf A img impl)

def services (ntdll : Option StubImage) (ntoskrnl : Module) (win32u : Option StubImage) (win32k : Option Module) :
    List Service :=
  ntdll.elim [] (fun img => servicesOf A img ntoskrnl) ++
    win32k.elim [] fun impl => win32u.elim [] fun img => servicesOf A img impl

def NumbersApart (ss : List Service) : Prop := ∀ s ∈ ss, ∀ s' ∈ ss, s.number = s'.number → s.handler = s'.handler

variable {A}

theorem serviceOf_spec {img : StubImage} {impl : Module} {e : StubExport} {s : Service}
    (h : serviceOf A img impl e = some s) :
    A.decodeId s.stub = some s.number ∧ s.impl.findSymbol s.name = some s.handler := by
  unfold serviceOf at h
  split at h
  · cases h
  · obtain ⟨number, hnumber, h⟩ := Option.bind_eq_some_iff.mp h
    obtain ⟨handler, hhandler, rfl⟩ := Option.map_eq_some_iff.mp h
    exact ⟨hnumber, hhandler⟩

theorem addExport_eq (img : StubImage) (impl : Module) (ids : Ids) (e : StubExport) :
    addExport A img impl ids e =
      (serviceOf A img impl e).elim ids fun s => Function.update ids s.number (some s.handler) := by
  unfold addExport serviceOf
  by_cases hskip : e.forwarded ∨ ¬ (ascii ['N', 't']).isPrefixOf e.name
  · rw [if_pos hskip, if_pos (hskip.elim .inl fun h => .inr (.inl h))]
    rfl
  · rw [if_neg hskip]
    by_cases hrva : img.bytes.length ≤ e.rva.toNat
    · rw [if_pos hrva, if_pos (.inr (.inr hrva))]
      rfl
    · rw [if_neg hrva, if_neg fun h => h.elim (fun h => hskip (.inl h)) fun h => h.elim (fun h => hskip (.inr h)) hrva]
      cases A.decodeId (img.bytes.drop e.rva.toNat) with
      | none => rfl
      | some number => cases impl.findSymbol e.name <;> rfl

theorem add_eq (ids : Ids) (img : StubImage) (impl : Module) :
    add A ids img impl = LastWrite.writes Service.number Service.handler ids (servicesOf A img impl) := by
  unfold add servicesOf
  induction img.exports generalizing ids with
  | nil => rfl
  | cons e es ih =>
    rw [List.foldl_cons, ih, addExport_eq, List.filterMap_cons]
    cases serviceOf A img impl e <;> rfl

theorem buildSyscallTable_eq (ntdll : Option StubImage) (ntoskrnl : Module) (win32u : Option StubImage)
    (win32k : Option Module) : buildSyscallTable A ntdll ntoskrnl win32u win32k =
      LastWrite.writes Service.number Service.handler (fun _ => none) (services A ntdll ntoskrnl win32u win32k) := by
  rw [services, LastWrite.writes_append]
  have hfirst : ntdll.elim (fun _ => none) (fun img => add A (fun _ => none) img ntoskrnl) =
      LastWrite.writes Service.number Service.handler (fun _ => none)
        (ntdll.elim [] fun img => servicesOf A img ntoskrnl) := by
    cases ntdll with
    | none => rfl
    | some img => exact add_eq _ img ntoskrnl
  unfold buildSyscallTable
  rw [hfirst]
  cases win32k with
  | none => rfl
  | some impl =>
    cases win32u with
    | none => rfl
    | some img => exact add_eq _ img impl

theorem services_spec {ntdll : Option StubImage} {ntoskrnl : Module} {win32u : Option StubImage}
    {win32k : Option Module} {s : Service} (h : s ∈ services A ntdll ntoskrnl win32u win32k) :
    A.decodeId s.stub = some s.number ∧ s.impl.findSymbol s.name = some s.handler := by
  have hof : ∀ {img impl}, s ∈ servicesOf A img impl → _ := fun h =>
    have ⟨_, _, he⟩ := List.mem_filterMap.mp h
    serviceOf_spec he
  rcases List.mem_append.mp h with h | h
  · cases ntdll with
    | none => cases h
    | some img => exact hof h
  · cases win32k with
    | none => cases h
    | some impl =>
      cases win32u with
      | none => cases h
      | some img => exact hof h

omit [DecidableEq R] in
/-- At an address is the handler that was bound last, under whichever of its names. -/
theorem redirections_apply (rs : List (Redirect R)) (addr : Nat) : redirections rs addr =
    (rs.reverse.find? fun r => r.mod.findSymbol r.name = some addr).map (·.fn) := by
  unfold redirections
  induction rs using List.reverseRecOn with
  | nil => rfl
  | append_singleton rs r ih =>
    rw [List.foldl_append, List.foldl_cons, List.foldl_nil, List.reverse_append, List.reverse_singleton,
      List.singleton_append, tryRedirect]
    by_cases haddr : r.mod.findSymbol r.name = some addr
    · rw [List.find?_cons_of_pos (by simpa using haddr), haddr]
      exact Function.update_self ..
    · rw [List.find?_cons_of_neg (by simpa using haddr), ← ih]
      cases hsymbol : r.mod.findSymbol r.name with
      | none => rfl
      | some addr' => exact Function.update_of_ne (fun heq : addr = addr' => haddr (heq ▸ hsymbol)) _ _

def stepOver (C : Conv R) : RedirectFn R := fun m => m.setReg C.pc (m.file C.pc + 1)

theorem serve_stepOver (m : Machine R) : (serve C (some (stepOver C)) m).1 = true := by
  have hpc : (stepOver C m).file C.pc = m.file C.pc + 1 := Machine.setReg_self ..
  show decide ((stepOver C m).file C.pc ≠ m.file C.pc) = true
  rw [hpc]
  exact decide_eq_true (Nat.succ_ne_self _)

end

/-- **A stub calls the routine of its own name**, by the handler that was bound to the routine last, on either
architecture and whatever is bound: exactly when no number stands for two routines. -/
theorem dispatch_iff {R : Type} [DecidableEq R] {C : Conv R} (A : WinSyscall C) (ntdll : Option StubImage)
    (ntoskrnl : Module) (win32u : Option StubImage) (win32k : Option Module) :
    (∀ rs : List (Redirect R), ∀ s ∈ services A ntdll ntoskrnl win32u win32k, ∀ m, A.Ran s.stub m →
      dispatchSyscall A (buildSyscallTable A ntdll ntoskrnl win32u win32k) (redirections rs) m =
        serve C ((rs.reverse.find? fun r => r.mod.findSymbol r.name = some s.handler).map (·.fn)) m) ↔
      NumbersApart (services A ntdll ntoskrnl win32u win32k) := by
  constructor
  · intro hall s hs s' hs' hnumber
    by_contra hne
    obtain ⟨hdecode, hsymbol⟩ := services_spec hs
    obtain ⟨hdecode', -⟩ := services_spec hs'
    obtain ⟨m, hran⟩ := A.ran hdecode
    obtain ⟨m', hran'⟩ := A.ran hdecode'
    -- one handler is bound, to the routine of the first stub
    let rs : List (Redirect R) := [⟨s.impl, s.name, stepOver C⟩]
    have hbound : redirections rs s.handler = some (stepOver C) := by
      rw [redirections_apply]
      show (List.find? _ [_]).map _ = _
      rw [List.find?_cons_of_pos (by simpa using hsymbol)]
      rfl
    have hunbound : redirections rs s'.handler = none := by
      rw [redirections_apply]
      show (List.find? _ [_]).map _ = _
      rw [List.find?_cons_of_neg (by simpa [hsymbol] using hne)]
      rfl
    have hs := hall rs s hs m hran
    have hs' := hall rs s' hs' m' hran'
    rw [← redirections_apply, hbound, dispatchSyscall, A.id_of_ran hdecode hran] at hs
    rw [← redirections_apply, hunbound, dispatchSyscall, A.id_of_ran hdecode' hran', ← hnumber] at hs'
    cases hfound : (buildSyscallTable A ntdll ntoskrnl win32u win32k s.number).bind (redirections rs) with
    | none =>
      rw [hfound] at hs
      exact Bool.false_ne_true ((congrArg Prod.fst hs).trans (serve_stepOver m))
    | some fn =>
      obtain ⟨addr, -, hfn⟩ := Option.bind_eq_some_iff.mp hfound
      rw [redirections_apply] at hfn
      obtain ⟨r, hr, rfl⟩ := Option.map_eq_some_iff.mp hfn
      obtain rfl := List.mem_singleton.mp (List.mem_reverse.mp (List.mem_of_find?_eq_some hr))
      rw [hfound] at hs'
      exact Bool.false_ne_true ((congrArg Prod.fst hs').symm.trans (serve_stepOver m'))
  · intro hapart rs s hs m hran
    obtain ⟨hdecode, -⟩ := services_spec hs
    rw [dispatchSyscall, A.id_of_ran hdecode hran, buildSyscallTable_eq, LastWrite.writes_found_iff.mpr hapart s hs,
      Option.bind_some, redirections_apply]

end Kernemul.Syscalls
