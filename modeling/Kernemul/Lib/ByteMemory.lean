import Kernemul.Lib.Bytes

/-!
# A memory of bytes

Runs of bytes written to a memory and read from it. What stands in the bytes is the business of an encoding, a type with
as many bytes for each of its values: a sequence of values that is written is the one that is read back, and nothing
outside of it has changed.
-/

namespace ByteMemory

abbrev Memory := ℕ → UInt8

def readMem (mem : Memory) (va size : ℕ) : List UInt8 := (List.range size).map fun i => mem (va + i)

def writeMem (mem : Memory) (va : ℕ) (bytes : List UInt8) : Memory := fun a =>
  if va ≤ a then (bytes[a - va]?).getD (mem a) else mem a

@[simp] theorem length_readMem (mem : Memory) (va size : ℕ) : (readMem mem va size).length = size := by
  rw [readMem, List.length_map, List.length_range]

variable {mem mem' : Memory} {va : ℕ}

theorem readMem_congr {size : ℕ} (h : ∀ a, va ≤ a → a < va + size → mem a = mem' a) :
    readMem mem va size = readMem mem' va size := by
  refine List.map_congr_left fun i hi => ?_
  have hlt := List.mem_range.mp hi
  exact h _ (by omega) (by omega)

variable {bytes : List UInt8}

theorem writeMem_of_out {a : ℕ} (h : a < va ∨ va + bytes.length ≤ a) :
    writeMem mem va bytes a = mem a := by
  unfold writeMem
  split_ifs with hle
  · rw [List.getElem?_eq_none (by omega), Option.getD_none]
  · rfl

theorem writeMem_add {i : ℕ} (h : i < bytes.length) :
    writeMem mem va bytes (va + i) = bytes[i] := by
  rw [writeMem, if_pos (Nat.le_add_right va i), Nat.add_sub_cancel_left, List.getElem?_eq_getElem h, Option.getD_some]

theorem writeMem_append (mem : Memory) (va : ℕ) (xs ys : List UInt8) :
    writeMem mem va (xs ++ ys) = writeMem (writeMem mem va xs) (va + xs.length) ys := by
  funext a
  by_cases hxs : va ≤ a ∧ a < va + xs.length
  · rw [writeMem_of_out (.inl hxs.2), writeMem, writeMem, if_pos hxs.1, if_pos hxs.1,
      List.getElem?_append_left (by omega)]
  · by_cases hys : va + xs.length ≤ a
    · rw [writeMem, writeMem, if_pos (by omega), if_pos hys, List.getElem?_append_right (by omega),
        writeMem_of_out (.inr hys), Nat.sub_sub]
    · rw [writeMem_of_out (.inl (by omega)), writeMem_of_out (.inl (by omega)), writeMem_of_out (.inl (by omega))]

theorem readMem_writeMem (mem : Memory) (va : ℕ) (bytes : List UInt8) :
    readMem (writeMem mem va bytes) va bytes.length = bytes := by
  refine List.ext_getElem (length_readMem ..) fun i hi hi' => ?_
  simp only [readMem, List.getElem_map, List.getElem_range]
  exact writeMem_add hi'

theorem writeMem_readMem (mem : Memory) (va size : ℕ) : writeMem mem va (readMem mem va size) = mem := by
  funext a
  by_cases h : va ≤ a ∧ a < va + size
  · obtain ⟨i, rfl⟩ := Nat.exists_eq_add_of_le h.1
    rw [writeMem_add (by simpa using h.2)]
    simp [readMem]
  · exact writeMem_of_out (by simp only [length_readMem]; omega)

/-- Bytes of which some were overwritten first leave what the bytes and then the others leave. -/
theorem writeMem_patch {bytes' new : List UInt8} {off : ℕ} (h : Bytes.patch bytes off new = some bytes')
    (mem : Memory) (va : ℕ) : writeMem mem va bytes' = writeMem (writeMem mem va bytes) (va + off) new := by
  have hinside : off + new.length ≤ bytes.length := Bytes.patch_isSome.mp (h ▸ rfl)
  have hlength := Bytes.length_patch h
  funext a
  by_cases hin : va + off ≤ a ∧ a < va + off + new.length
  · obtain ⟨i, rfl⟩ := Nat.exists_eq_add_of_le hin.1
    have hi : i < new.length := by omega
    have hget := Bytes.getElem?_patch_add h hi
    rw [writeMem_add hi, Nat.add_assoc, writeMem_add (by omega)]
    exact Option.some.inj (by rw [← List.getElem?_eq_getElem, hget, List.getElem?_eq_getElem hi])
  · have hout : writeMem (writeMem mem va bytes) (va + off) new a = writeMem mem va bytes a :=
      writeMem_of_out (by omega)
    rw [hout]
    by_cases hva : va ≤ a
    · rw [writeMem, writeMem, if_pos hva, if_pos hva, Bytes.getElem?_patch_of_out h (by omega)]
    · rw [writeMem_of_out (.inl (by omega)), writeMem_of_out (.inl (by omega))]

/-! ## Values -/

/-- Values of one type take the same number of bytes, from which they can be read. -/
class Encoding (α : Type*) where
  size : ℕ
  encode : α → List UInt8
  decode : List UInt8 → α
  length_encode : ∀ c, (encode c).length = size
  decode_encode : ∀ c, decode (encode c) = c

variable {α : Type*} [Encoding α]

open Encoding

def encodeAll (s : List α) : List UInt8 := s.flatMap encode

@[simp] theorem encodeAll_cons (c : α) (s : List α) : encodeAll (c :: s) = encode c ++ encodeAll s := List.flatMap_cons

theorem encodeAll_append (s t : List α) : encodeAll (s ++ t) = encodeAll s ++ encodeAll t := List.flatMap_append

theorem length_encodeAll (s : List α) : (encodeAll s).length = s.length * size α := by
  induction s with
  | nil => exact (Nat.zero_mul _).symm
  | cons c s ih =>
    rw [encodeAll_cons, List.length_append, length_encode, ih, List.length_cons, Nat.succ_mul, Nat.add_comm]

def load (α : Type*) [Encoding α] (mem : Memory) (va : ℕ) : α := decode (readMem mem va (size α))

theorem load_congr (h : ∀ a, va ≤ a → a < va + size α → mem a = mem' a) :
    load α mem va = load α mem' va := congrArg decode (readMem_congr h)

theorem load_writeMem (mem : Memory) (va : ℕ) (c : α) : load α (writeMem mem va (encode c)) va = c := by
  rw [load, ← length_encode c, readMem_writeMem, decode_encode]

def loadAll (α : Type*) [Encoding α] (mem : Memory) (va : ℕ) : ℕ → List α
  | 0 => []
  | n + 1 => load α mem va :: loadAll α mem (va + size α) n

theorem loadAll_congr {n : ℕ}
    (h : ∀ a, va ≤ a → a < va + n * size α → mem a = mem' a) : loadAll α mem va n = loadAll α mem' va n := by
  induction n generalizing va with
  | zero => rfl
  | succ n ih =>
    rw [Nat.succ_mul] at h
    rw [loadAll, loadAll, load_congr fun a hle hlt => h a hle (by omega), ih fun a hle hlt => h a (by omega) (by omega)]

theorem loadAll_writeMem (mem : Memory) (va : ℕ) (s : List α) :
    loadAll α (writeMem mem va (encodeAll s)) va s.length = s := by
  induction s generalizing mem va with
  | nil => rfl
  | cons c s ih =>
    rw [List.length_cons, loadAll, encodeAll_cons, writeMem_append, length_encode, ih]
    have hhead : load α (writeMem (writeMem mem va (encode c)) (va + size α) (encodeAll s)) va = c := by
      rw [load_congr fun a _ hlt => writeMem_of_out (.inl hlt), load_writeMem]
    rw [hhead]

/-- The values `s` stand at an address. -/
def Holds (mem : Memory) (va : ℕ) (s : List α) : Prop := loadAll α mem va s.length = s

instance [DecidableEq α] (mem : Memory) (va : ℕ) (s : List α) : Decidable (Holds mem va s) :=
  inferInstanceAs (Decidable (_ = _))

theorem holds_nil (mem : Memory) (va : ℕ) : Holds mem va ([] : List α) := rfl

theorem holds_cons {c : α} {s : List α} :
    Holds mem va (c :: s) ↔ load α mem va = c ∧ Holds mem (va + size α) s := List.cons_eq_cons

theorem holds_append {s t : List α} :
    Holds mem va (s ++ t) ↔ Holds mem va s ∧ Holds mem (va + s.length * size α) t := by
  induction s generalizing va with
  | nil =>
    rw [List.nil_append, List.length_nil, Nat.zero_mul, Nat.add_zero]
    exact (and_iff_right (holds_nil mem va)).symm
  | cons c s ih =>
    rw [List.cons_append, holds_cons, ih, holds_cons, and_assoc, List.length_cons, Nat.succ_mul, Nat.add_assoc,
      Nat.add_comm (size α)]

theorem holds_congr {s : List α}
    (h : ∀ a, va ≤ a → a < va + s.length * size α → mem a = mem' a) : Holds mem va s ↔ Holds mem' va s := by
  rw [Holds, Holds, loadAll_congr h]

theorem holds_writeMem (mem : Memory) (va : ℕ) (s : List α) : Holds (writeMem mem va (encodeAll s)) va s :=
  loadAll_writeMem mem va s

theorem holds_writeMem_of_out {at' : ℕ} {s : List α} (h : va + s.length * size α ≤ at' ∨ at' + bytes.length ≤ va) :
    Holds (writeMem mem at' bytes) va s ↔ Holds mem va s :=
  holds_congr fun _ _ _ => writeMem_of_out (by omega)

end ByteMemory
