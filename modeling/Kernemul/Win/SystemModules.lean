import Kernemul.Lib.Bytes
import Kernemul.Win.Text
import Mathlib.Data.List.Forall2

/-!
# The lists of modules (`RtlQueryModuleInformation`, `SystemModuleInformation`, `SystemModuleInformationEx`)

Two classes answer a counted array with as many modules as the buffer has room for, the third one a chain of larger
records or nothing. All of them write the same record of a module.
-/

namespace Kernemul.SystemModules

open Text Bytes

structure LoadedModule where
  base : BitVec 64
  size : BitVec 32
  path : Str

def moduleEntrySize : Nat := 0x128
def moduleListHeaderSize : Nat := 8

/-- `sizeof(full_path_name)`. -/
def pathSize : Nat := 256

def isSeparator (c : UInt8) : Bool := c = backslash || c = slash

def findLastOf (s : Str) : Option Nat := (s.reverse.findIdx? isSeparator).map fun i => s.length - 1 - i

def LoadedModule.kept (mod : LoadedModule) : Str := mod.path.take (pathSize - 1)

def LoadedModule.offsetToFileName (mod : LoadedModule) : Nat :=
  match findLastOf mod.kept with
  | none => 0
  | some slash => slash + 1

def fill (record : Nat → LoadedModule → List UInt8) (place : Nat → Nat) :
    List UInt8 → Nat → List LoadedModule → Option (List UInt8)
  | out, _, [] => some out
  | out, i, mod :: mods => (patch out (place i) (record i mod)).bind fun out => fill record place out (i + 1) mods

inductive Status
  | success
  | infoLengthMismatch
  | invalidParameter
  deriving DecidableEq, Repr

/-- The status, what goes to where the length is wanted, and what is written to the buffer. -/
structure Reply where
  status : Status
  returnLength : Option Nat
  out : List UInt8

/-- A `rtl_process_module_information_t`. -/
structure Record where
  imageBase : Nat
  imageSize : Nat
  offsetToFileName : Nat
  fullPathName : List UInt8

def recordAt (out : List UInt8) (pos : Nat) : Option Record :=
  (num out (pos + 0x10) 8).bind fun imageBase =>
    (num out (pos + 0x18) 4).bind fun imageSize =>
      (num out (pos + 0x26) 2).bind fun offsetToFileName =>
        (slice out (pos + 0x28) pathSize).map fun fullPathName =>
          { imageBase, imageSize, offsetToFileName, fullPathName }

def readRecords (out : List UInt8) : Nat → Nat → Option (List Record)
  | _, 0 => some []
  | pos, count + 1 =>
    (recordAt out pos).bind fun r => (readRecords out (pos + moduleEntrySize) count).map (r :: ·)

def readModules (out : List UInt8) : Option (List Record) :=
  (num out 0 4).bind fun count => readRecords out moduleListHeaderSize count

/-- The chain from one place on, by the steps of its records up to a step of zero. -/
inductive Chain (out : List UInt8) : Nat → List Record → Prop
  | stop {pos : Nat} (hstep : num out pos 2 = some 0) : Chain out pos []
  | record {pos step : Nat} {r : Record} {rs : List Record} (hstep : num out pos 2 = some step) (hne : step ≠ 0)
      (hr : recordAt out (pos + 8) = some r) (rest : Chain out (pos + step) rs) : Chain out pos (r :: rs)

/-- A record has the base, the size and the path of a module; the path is cut to what its field can end with a zero, and
the offset is where the last component of it starts. -/
structure Shows (r : Record) (mod : LoadedModule) : Prop where
  base : r.imageBase = mod.base.toNat
  size : r.imageSize = mod.size.toNat
  path : r.fullPathName = mod.path.take 255 ++ List.replicate (256 - min 255 mod.path.length) 0
  component : ∀ c ∈ (mod.path.take 255).drop r.offsetToFileName, ¬ isSeparator c
  start : r.offsetToFileName = 0 ∨ ∃ c ∈ (mod.path.take 255)[r.offsetToFileName - 1]?, isSeparator c

/-- The longest part of a list of modules that fits is in the buffer, and the status says whether that is all. -/
structure Listed (mods : List LoadedModule) (length : BitVec 32) (r : Reply) : Prop where
  inside : r.out.length ≤ length.toNat
  returnLength : r.returnLength = some (8 + 0x128 * mods.length)
  success : r.status = .success ↔ 8 + 0x128 * mods.length ≤ length.toNat
  failure : r.status ≠ .success → r.status = .infoLengthMismatch
  nothing : length.toNat < 8 → r.out = []
  modules : 8 ≤ length.toNat → ∃ fits rs, (fits = mods.length ∨ length.toNat < 8 + 0x128 * (fits + 1)) ∧
    fits ≤ mods.length ∧ readModules r.out = some rs ∧ List.Forall₂ Shows rs (mods.take fits)

structure Chained (mods : List LoadedModule) (length : BitVec 32) (r : Reply) : Prop where
  inside : r.out.length ≤ length.toNat
  returnLength : r.returnLength = some (0x140 * mods.length + 2)
  failure : length.toNat < 0x140 * mods.length + 2 → r.status = .infoLengthMismatch ∧ r.out = []
  success : 0x140 * mods.length + 2 ≤ length.toNat → r.status = .success ∧
    ∃ rs, Chain r.out 0 rs ∧ List.Forall₂ Shows rs mods

/-- Every call is answered so, and with a buffer of the length it asks for it succeeds. -/
def Answers (query : BitVec 32 → Option Reply) (law : BitVec 32 → Reply → Prop) : Prop :=
  ∀ length, ∃ r, query length = some r ∧ law length r ∧
    ∃ n r', r.returnLength = some n ∧ query (BitVec.ofNat 32 n) = some r' ∧ r'.status = .success

/-! ## Paths -/

def encodeAll (record : Nat → LoadedModule → List UInt8) : Nat → List LoadedModule → List UInt8
  | _, [] => []
  | i, mod :: mods => record i mod ++ encodeAll record (i + 1) mods

theorem length_encodeAll {record : Nat → LoadedModule → List UInt8} {w : Nat}
    (hrecord : ∀ i mod, (record i mod).length = w) (i : Nat) (mods : List LoadedModule) :
    (encodeAll record i mods).length = mods.length * w := by
  induction mods generalizing i with
  | nil => exact (Nat.zero_mul w).symm
  | cons mod mods ih => rw [encodeAll, List.length_append, hrecord, ih, List.length_cons, Nat.succ_mul, Nat.add_comm]

theorem fill_eq {record : Nat → LoadedModule → List UInt8} {w : Nat} (hrecord : ∀ i mod, (record i mod).length = w)
    (place : Nat → Nat) (start : Nat) (rest : List UInt8) (mods : List LoadedModule) (i : Nat) (done : List UInt8)
    (hdone : done.length = start + i * w) (hplace : ∀ k, k < i + mods.length → place k = start + k * w) :
    fill record place (done ++ (List.replicate (mods.length * w) 0 ++ rest)) i mods =
      some (done ++ (encodeAll record i mods ++ rest)) := by
  induction mods generalizing i done with
  | nil => rw [List.length_nil, Nat.zero_mul]; rfl
  | cons mod mods ih =>
    have hat : place i = done.length := (hplace i (by rw [List.length_cons]; omega)).trans hdone.symm
    have hzeros : List.replicate ((mod :: mods).length * w) (0 : UInt8) ++ rest =
        List.replicate w 0 ++ (List.replicate (mods.length * w) 0 ++ rest) := by
      rw [List.length_cons, Nat.succ_mul, Nat.add_comm, List.replicate_add, List.append_assoc]
    have hnext : (done ++ record i mod).length = start + (i + 1) * w := by
      rw [List.length_append, hrecord, hdone, Nat.succ_mul, Nat.add_assoc]
    rw [fill, hat, hzeros, patch_between (by rw [List.length_replicate, hrecord]), Option.bind_some,
      ← List.append_assoc, ih _ _ hnext fun k hk => hplace k (by rw [List.length_cons]; omega), encodeAll]
    simp only [List.append_assoc]

end Kernemul.SystemModules
