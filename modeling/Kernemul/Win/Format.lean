import Mathlib.Logic.Relation
import Kernemul.Win.GuestStrings

/-!
# `vformat` (`util/format.hpp`)

A format is gone through from left to right: a unit that is not a percent sign is copied, a specification takes its
arguments as they come. Numbers are printed by the host's `snprintf`, from a specification in the host's spelling;
strings are read from the guest, in the units of the format or in the other ones.
-/

namespace Kernemul.Format

open ByteMemory Text GuestStrings CharType

inductive LengthMod
  | none
  | h
  | hh
  | l
  | ll
  | I64
  | I32
  | z
  deriving DecidableEq, Repr

/-- What the two instances of `vformat` do not have in common. -/
class FormatChar (T : Type) [DecidableEq T] extends CharType T where
  foreignMod : LengthMod
  /-- A `char16_t` string in the units of the format. -/
  ofWide : WStr → List T
  /-- The units of the copy that `read_foreign` makes, in those of the format. -/
  readForeign : Memory → Addr → List T
  /-- `static_cast<CharT>`. -/
  ofArg : BitVec 64 → T
  /-- What `%C` prints. -/
  ofForeignArg : BitVec 64 → T

instance : FormatChar UInt8 where
  foreignMod := .l
  ofWide := narrowWstring
  readForeign mem addr := narrowWstring (readWstring mem addr)
  ofArg v := UInt8.ofBitVec (v.setWidth 8)
  ofForeignArg v := UInt8.ofBitVec ((v.setWidth 16).setWidth 8)

instance : FormatChar UInt16 where
  foreignMod := .h
  ofWide := id
  readForeign mem addr := widenString (readString mem addr)
  ofArg v := UInt16.ofBitVec (v.setWidth 16)
  ofForeignArg v := UInt16.ofBitVec ((v.setWidth 8).signExtend 16)

/-- The value that is given to `snprintf`. -/
inductive HostArg
  | u64 (v : BitVec 64)
  | u32 (v : BitVec 32)
  | pointer (v : BitVec 64)
  deriving DecidableEq, Repr

/-- What the host's `snprintf` prints of one value, for a specification. -/
abbrev Host := Str → HostArg → Str

variable {T : Type} [DecidableEq T] [FormatChar T]

open FormatChar

def lit (c : Char) : T := ofCode c.toNat

def Is (u : T) (c : Char) : Prop := code u = c.toNat

instance (u : T) (c : Char) : Decidable (Is u c) := inferInstanceAs (Decidable (_ = _))

def isFlag (u : T) : Bool := Is u '-' ∨ Is u '+' ∨ Is u ' ' ∨ Is u '0' ∨ Is u '#'

def isDigit (u : T) : Bool := '0'.toNat ≤ code u ∧ code u ≤ '9'.toNat

/-- `static_cast<char>`. -/
def toChar (u : T) : UInt8 := UInt8.ofNat (code u)

/-- `parse_length_mod`: the modifier, and the format behind it. -/
def parseLengthMod : List T → LengthMod × List T
  | [] => (.none, [])
  | u :: fmt =>
    if Is u 'h' then
      match fmt with
      | v :: fmt' => if Is v 'h' then (.hh, fmt') else (.h, fmt)
      | [] => (.h, fmt)
    else if Is u 'l' then
      match fmt with
      | v :: fmt' => if Is v 'l' then (.ll, fmt') else (.l, fmt)
      | [] => (.l, fmt)
    else if Is u 'I' then
      match fmt with
      | v :: w :: fmt' =>
        if Is v '6' ∧ Is w '4' then (.I64, fmt') else if Is v '3' ∧ Is w '2' then (.I32, fmt') else (.z, fmt)
      | _ => (.z, fmt)
    else if Is u 'z' then (.z, fmt)
    else (.none, u :: fmt)

def is64bit (m : LengthMod) : Bool := m = .ll ∨ m = .I64 ∨ m = .z

def toString (n : Int) : Str := ascii (ToString.toString n).toList

def parseNumber (args : Nat → BitVec 64) (next : Nat) : List T → Str × List T × Nat
  | [] => ([], [], next)
  | u :: fmt =>
    if Is u '*' then (toString ((args next).setWidth 32).toInt, fmt, next + 1)
    else (((u :: fmt).takeWhile isDigit).map toChar, (u :: fmt).dropWhile isDigit, next)

def parsePrecision (args : Nat → BitVec 64) (next : Nat) : List T → Str × List T × Nat
  | [] => ([], [], next)
  | u :: fmt =>
    if Is u '.' then
      let (digits, fmt, next) := parseNumber args next fmt
      (ascii ['.'] ++ digits, fmt, next)
    else ([], u :: fmt, next)

def parseMods (args : Nat → BitVec 64) (next : Nat) (fmt : List T) : Str × List T × Nat :=
  let flags := fmt.takeWhile isFlag
  let (width, fmt, next) := parseNumber args next (fmt.dropWhile isFlag)
  let (precision, fmt, next) := parsePrecision args next fmt
  (flags.map toChar ++ width ++ precision, fmt, next)

def nullText : List T := ['(', 'n', 'u', 'l', 'l', ')'].map lit

/-- `format_spec`, with a buffer of 256. -/
def formatSpec (host : Host) (hostSpec : Str) (val : HostArg) : List T :=
  (((host hostSpec val).take 255).takeWhile (· ≠ 0)).map fun c => ofCode c.toNat

def hostSpec (mods : Str) (as64bit : Bool) (conv : T) : Str :=
  ascii ['%'] ++ mods ++ (if as64bit then ascii ['l', 'l'] else []) ++ [toChar conv]

/-- `read_unicode_string` of a descriptor in guest memory. -/
def unicodeString (mem : Memory) (ptr : Addr) : List T :=
  let length := Bytes.toNat (readMem mem ptr 2)
  let buffer := Bytes.toNat (readMem mem (ptr + 8) 8)
  ofWide (readBasicString UInt16 mem buffer (length / 2))

def readNative (mem : Memory) (addr : Addr) : List T := readBasicString T mem addr maxChars

def orNull (ptr : BitVec 64) (text : Addr → List T) : List T := if ptr ≠ 0 then text ptr.toNat else nullText

/-- The cases of the conversion that take an argument; none for the default. -/
def convert (host : Host) (mem : Memory) (mods : Str) (length : LengthMod) (spec : T) (raw : BitVec 64) :
    Option (List T) :=
  if Is spec 'd' ∨ Is spec 'i' ∨ Is spec 'u' ∨ Is spec 'x' ∨ Is spec 'X' ∨ Is spec 'o' then
    if is64bit length then some (formatSpec host (hostSpec mods true spec) (.u64 raw))
    else some (formatSpec host (hostSpec mods false spec) (.u32 (raw.setWidth 32)))
  else if Is spec 'p' then some (formatSpec host (hostSpec mods false spec) (.pointer raw))
  else if Is spec 's' then
    some (orNull raw fun addr => if length = foreignMod T then readForeign mem addr else readNative mem addr)
  else if Is spec 'S' then some (orNull raw (readForeign mem))
  else if Is spec 'c' then some [ofArg raw]
  else if Is spec 'C' then some [ofForeignArg raw]
  else none

/-- What is left of the format, the text, and how many arguments have been taken. -/
structure State (T : Type) where
  fmt : List T
  result : List T
  next : Nat

def finish (host : Host) (mem : Memory) (args : Nat → BitVec 64) (s : State T) (mods : Str) (fmt : List T)
    (next : Nat) : State T :=
  let (length, fmt) := parseLengthMod fmt
  match fmt with
  | [] => ⟨[], s.result, next⟩
  | spec :: fmt =>
    if Is spec 'w' ∧ ∃ u ∈ fmt.head?, Is u 'Z' then
      ⟨fmt.tail, s.result ++ orNull (args next) (unicodeString mem), next + 1⟩
    else if Is spec 'Z' then ⟨fmt, s.result ++ orNull (args next) (unicodeString mem), next + 1⟩
    else
      match convert host mem mods length spec (args next) with
      | some text => ⟨fmt, s.result ++ text, next + 1⟩
      | none => ⟨fmt, s.result ++ s.fmt.take (s.fmt.length - fmt.length), next⟩

def step (host : Host) (mem : Memory) (args : Nat → BitVec 64) (s : State T) : Option (State T) :=
  match s.fmt with
  | [] => none
  | u :: fmt =>
    if ¬ Is u '%' then some ⟨fmt, s.result ++ [u], s.next⟩
    else
      match fmt with
      | [] => some ⟨[], s.result, s.next⟩
      | v :: fmt' =>
        if Is v '%' then some ⟨fmt', s.result ++ [lit '%'], s.next⟩
        else
          let (mods, fmt, next) := parseMods args s.next fmt
          some (finish host mem args s mods fmt next)

def run (host : Host) (mem : Memory) (args : Nat → BitVec 64) : Nat → State T → State T
  | 0, s => s
  | fuel + 1, s =>
    match step host mem args s with
    | none => s
    | some s' => run host mem args fuel s'

/-- Every round leaves less of the format, so it has as many rounds as units at most. -/
def vformat (host : Host) (mem : Memory) (fmt : List T) (args : Nat → BitVec 64) : List T :=
  (run host mem args fmt.length ⟨fmt, [], 0⟩).result

/-! ## The loop ends -/

theorem length_parseLengthMod (fmt : List T) : (parseLengthMod fmt).2.length ≤ fmt.length := by
  fun_cases parseLengthMod fmt <;> simp only [List.length_cons, List.length_nil] <;> omega

theorem length_parseNumber (args : Nat → BitVec 64) (next : Nat) (fmt : List T) :
    (parseNumber args next fmt).2.1.length ≤ fmt.length := by
  cases fmt with
  | nil => exact le_rfl
  | cons u fmt =>
    rw [parseNumber]
    split_ifs
    · exact Nat.le_succ _
    · exact (List.dropWhile_sublist isDigit).length_le

theorem length_parsePrecision (args : Nat → BitVec 64) (next : Nat) (fmt : List T) :
    (parsePrecision args next fmt).2.1.length ≤ fmt.length := by
  cases fmt with
  | nil => exact le_rfl
  | cons u fmt =>
    rw [parsePrecision]
    split_ifs
    · exact Nat.le_succ_of_le (length_parseNumber args next fmt)
    · exact le_rfl

theorem length_parseMods (args : Nat → BitVec 64) (next : Nat) (fmt : List T) :
    (parseMods args next fmt).2.1.length ≤ fmt.length :=
  (length_parsePrecision ..).trans ((length_parseNumber ..).trans (List.dropWhile_sublist isFlag).length_le)

theorem length_finish (host : Host) (mem : Memory) (args : Nat → BitVec 64) (s : State T) (mods : Str) (fmt : List T)
    (next : Nat) : (finish host mem args s mods fmt next).fmt.length ≤ fmt.length := by
  refine Nat.le_trans ?_ (length_parseLengthMod fmt)
  obtain ⟨m, fmt', hparse⟩ : ∃ m fmt', parseLengthMod fmt = (m, fmt') := ⟨_, _, rfl⟩
  rw [finish, hparse]
  cases fmt' with
  | nil => exact Nat.le_refl _
  | cons spec fmt' =>
    simp only
    split_ifs
    · rw [List.length_tail, List.length_cons]
      omega
    · exact Nat.le_succ _
    · split <;> exact Nat.le_succ _

def Round (host : Host) (mem : Memory) (args : Nat → BitVec 64) (s s' : State T) : Prop :=
  step host mem args s = some s'

theorem Round.shorter {host : Host} {mem : Memory} {args : Nat → BitVec 64} {s s' : State T}
    (h : Round host mem args s s') : s'.fmt.length < s.fmt.length := by
  obtain ⟨fmt, result, next⟩ := s
  cases fmt with
  | nil => cases h
  | cons u fmt =>
    by_cases hu : Is u '%'
    · have h := (if_neg (not_not.mpr hu)).symm.trans h
      cases fmt with
      | nil =>
        obtain rfl := Option.some.inj h
        exact Nat.one_pos
      | cons v fmt =>
        simp only at h
        split_ifs at h
        · obtain rfl := Option.some.inj h
          exact Nat.lt_succ_of_lt (Nat.lt_succ_self _)
        · obtain rfl := Option.some.inj h
          exact Nat.lt_succ_of_le ((length_finish ..).trans (length_parseMods ..))
    · obtain rfl := Option.some.inj ((if_pos hu).symm.trans h)
      exact Nat.lt_succ_self _

/-- The run comes to what is reached, if nothing of the format is left there. -/
theorem run_of_reached {host : Host} {mem : Memory} {args : Nat → BitVec 64} {s s' : State T}
    (h : Relation.ReflTransGen (Round host mem args) s s') (hdone : s'.fmt = []) {fuel : Nat}
    (hfuel : s.fmt.length ≤ fuel) : run host mem args fuel s = s' := by
  induction h using Relation.ReflTransGen.head_induction_on generalizing fuel with
  | refl =>
    have hstep : step host mem args s' = none := by rw [step, hdone]
    cases fuel with
    | zero => rfl
    | succ fuel => rw [run, hstep]
  | head hround _ ih =>
    have hlt := hround.shorter
    have hpos := Nat.lt_of_lt_of_le (Nat.zero_lt_of_lt hlt) hfuel
    obtain ⟨fuel, rfl⟩ := Nat.exists_eq_add_one_of_ne_zero hpos.ne'
    rw [run, hround]
    exact ih (by omega)

end Kernemul.Format
