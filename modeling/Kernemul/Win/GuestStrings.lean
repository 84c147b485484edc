import Kernemul.Lib.ByteMemory
import Kernemul.Lib.Bytes
import Kernemul.Win.Text

/-!
# Strings in guest memory (`util/string.hpp`, `win/string.hpp`)

A handler that takes a string gets a host copy of what stands at a guest address: the units up to the terminator, but no
more than 4096 of them. The units of a counted string are those its descriptor says, terminators among them. The memory
is all there: what is read of a string that is terminated is mapped.
-/

namespace Kernemul.GuestStrings

open ByteMemory Text

abbrev Addr := Nat

/-- `char` and `char16_t`. A `char` is a signed number. -/
class CharType (T : Type) [DecidableEq T] extends Encoding T where
  /-- The bits as an unsigned number. -/
  code : T → Nat
  /-- A literal of the type. -/
  ofCode : Nat → T
  /-- What `<` compares. -/
  value : T → Int
  code_injective : Function.Injective code
  code_ofCode : ∀ n < 0x100, code (ofCode n) = n
  value_injective : Function.Injective value

instance : CharType UInt8 where
  size := 1
  encode c := [c]
  decode bs := bs.headD 0
  length_encode _ := rfl
  decode_encode _ := rfl
  code := UInt8.toNat
  ofCode := UInt8.ofNat
  value c := c.toInt8.toInt
  code_injective _ _ h := UInt8.toNat_inj.mp h
  code_ofCode _ h := UInt8.toNat_ofNat_of_lt' h
  value_injective _ _ h := congrArg Int8.toUInt8 (Int8.toInt_inj.mp h)

instance : CharType UInt16 where
  size := 2
  encode c := Bytes.ofNat 2 c.toNat
  decode bs := UInt16.ofNat (Bytes.toNat bs)
  length_encode c := Bytes.length_ofNat 2 c.toNat
  decode_encode c := by rw [Bytes.toNat_ofNat_of_lt c.toNat_lt, UInt16.ofNat_toNat]
  code := UInt16.toNat
  ofCode := UInt16.ofNat
  value c := c.toNat
  code_injective _ _ h := UInt16.toNat_inj.mp h
  code_ofCode _ h := UInt16.toNat_ofNat_of_lt' (Nat.lt_trans h (by decide))
  value_injective _ _ h := UInt16.toNat_inj.mp (Int.ofNat_inj.mp h)

variable {T : Type} [DecidableEq T] [CharType T]

open CharType

/-- `T{}`. -/
def nul : T := ofCode 0

@[simp] theorem code_nul : code (nul : T) = 0 := code_ofCode 0 (by decide)

/-- The limit of `read_basic_string` where its callers give none. -/
def maxChars : Nat := 4096

def readBasicString (T : Type) [DecidableEq T] [CharType T] (mem : Memory) (addr : Addr) : Nat → List T
  | 0 => []
  | n + 1 =>
    let c := load T mem addr
    if c = nul then [] else c :: readBasicString T mem (addr + Encoding.size T) n

/-- The `std::string` that a handler gets for a pointer. -/
def readString (mem : Memory) (addr : Addr) : Str := readBasicString UInt8 mem addr maxChars

/-- The `std::u16string` that a handler gets for a pointer. -/
def readWstring (mem : Memory) (addr : Addr) : WStr := readBasicString UInt16 mem addr maxChars

/-- `write_basic_string_buffer`; without room for a terminator the limit wraps. -/
def writeBasicStringBuffer (mem : Memory) (addr : Addr) (bufCount : BitVec 64) (str : List T) : Memory :=
  let chars := str.take (bufCount - 1).toNat
  writeMem (writeMem mem addr (encodeAll chars)) (addr + chars.length * Encoding.size T) (Encoding.encode (nul : T))

theorem writeBasicStringBuffer_eq (mem : Memory) (addr : Addr) (bufCount : BitVec 64) (str : List T) :
    writeBasicStringBuffer mem addr bufCount str =
      writeMem mem addr (encodeAll (str.take (bufCount - 1).toNat ++ [nul])) := by
  rw [writeBasicStringBuffer, encodeAll_append, writeMem_append, length_encodeAll, encodeAll_cons]
  exact congrArg _ (List.append_nil _).symm

theorem toNat_pred {count : BitVec 64} (h : 0 < count.toNat) : (count - 1).toNat = count.toNat - 1 :=
  BitVec.toNat_sub_of_le (by rw [BitVec.le_def]; exact h)

variable {mem : Memory}

theorem writeBasicStringBuffer_of_lt {addr : Addr} {bufCount : BitVec 64} {str : List T}
    (h : str.length < bufCount.toNat) :
    writeBasicStringBuffer mem addr bufCount str = writeMem mem addr (encodeAll (str ++ [nul])) := by
  have hpred := toNat_pred (Nat.zero_lt_of_lt h)
  rw [writeBasicStringBuffer_eq, List.take_of_length_le (by omega)]

/-- `_UNICODE_STRING` and `_STRING`. -/
structure CountedString where
  length : BitVec 16
  maximumLength : BitVec 16
  buffer : Addr
  deriving DecidableEq, Repr

def readCountedString (T : Type) [DecidableEq T] [CharType T] (mem : Memory) (str : CountedString) : List T :=
  if str.length = 0 ∨ str.buffer = 0 then [] else loadAll T mem str.buffer (str.length.toNat / Encoding.size T)

def readUnicodeString (mem : Memory) : Option CountedString → WStr
  | some str => readCountedString UInt16 mem str
  | none => []

def readAnsiString (mem : Memory) : Option CountedString → Str
  | some str => readCountedString UInt8 mem str
  | none => []

/-! ## Terminated strings -/

structure GuestString (T : Type) [DecidableEq T] [CharType T] (mem : Memory) where
  addr : Addr
  units : List T
  addr_ne : addr ≠ 0
  terminated : Holds mem addr (units ++ [nul])
  nul_notMem : nul ∉ units

theorem readBasicString_of_holds {addr : Addr} {s : List T} (hs : Holds mem addr (s ++ [nul]))
    (hnul : nul ∉ s) (n : Nat) : readBasicString T mem addr n = s.take n := by
  induction n generalizing addr s with
  | zero => rfl
  | succ n ih =>
    cases s with
    | nil =>
      rw [List.nil_append, holds_cons] at hs
      rw [readBasicString, if_pos hs.1, List.take_nil]
    | cons c s =>
      rw [List.cons_append, holds_cons] at hs
      have hc : load T mem addr ≠ nul := fun h => hnul (hs.1.symm.trans h ▸ List.mem_cons_self)
      rw [readBasicString, if_neg hc, ih hs.2 fun h => hnul (List.mem_cons_of_mem c h), hs.1, List.take_succ_cons]

theorem units_unique {addr : Addr} {s t : List T} (hs : Holds mem addr (s ++ [nul])) (hnul : nul ∉ s)
    (ht : Holds mem addr (t ++ [nul])) (hnul' : nul ∉ t) : s = t := by
  have hread := (readBasicString_of_holds hs hnul (max s.length t.length)).symm.trans
    (readBasicString_of_holds ht hnul' (max s.length t.length))
  rwa [List.take_of_length_le (le_max_left ..), List.take_of_length_le (le_max_right ..)] at hread

theorem GuestString.readBasicString_eq (s : GuestString T mem) (n : Nat) :
    readBasicString T mem s.addr n = s.units.take n := readBasicString_of_holds s.terminated s.nul_notMem n

theorem GuestString.nul_notMem_take (s : GuestString T mem) (n : Nat) : nul ∉ s.units.take n :=
  fun h => s.nul_notMem (List.mem_of_mem_take h)

def arg {mem : Memory} (s : GuestString T mem) : List T := readBasicString T mem s.addr maxChars

theorem arg_eq (s : GuestString T mem) : arg s = s.units.take maxChars := s.readBasicString_eq maxChars

/-- A text with a terminator, written at an address that is not null. -/
def GuestString.write (mem : Memory) (addr : Addr) (haddr : addr ≠ 0) (s : List T) (hs : nul ∉ s) :
    GuestString T (writeMem mem addr (encodeAll (s ++ [nul]))) where
  addr := addr
  units := s
  addr_ne := haddr
  terminated := holds_writeMem mem addr (s ++ [nul])
  nul_notMem := hs

theorem exists_guestStrings {a b : List T} (ha : nul ∉ a) (hb : nul ∉ b) :
    ∃ mem, ∃ p q : GuestString T mem, p.units = a ∧ q.units = b := by
  let behind := 1 + (a ++ [nul]).length * Encoding.size T
  let mem : Memory := writeMem (fun _ => 0) 1 (encodeAll (a ++ [nul]))
  refine ⟨writeMem mem behind (encodeAll (b ++ [nul])), ⟨1, a, Nat.one_ne_zero, ?_, ha⟩,
    GuestString.write mem behind (Nat.ne_of_gt (Nat.lt_add_right _ Nat.one_pos)) b hb, rfl, rfl⟩
  rw [holds_writeMem_of_out (.inl le_rfl)]
  exact holds_writeMem _ 1 (a ++ [nul])

end Kernemul.GuestStrings
