import Kernemul.Win.Format

/-!
# Formatted output to a buffer (`nt_crt_ops.cpp`)

The plain forms may fill the buffer without a terminator, the ones with the `_s` always leave one, and a count can be
given besides the size. What they return is a number of 32 bits.
-/

namespace Kernemul.FormattedOutput

open ByteMemory Text GuestStrings CharType Format

variable {T : Type} [DecidableEq T] [CharType T]

def crtEinval : Int := 22

/-- `static_cast<std::int32_t>`. -/
def int32 (n : Nat) : Int := (BitVec.ofNat 32 n).toInt

def truncate : BitVec 64 := BitVec.allOnes 64

def vsprintf (host : Host) (mem : Memory) (fmt : Str) (args : Nat → BitVec 64) : Str := vformat host mem fmt args

def vswprintf (host : Host) (mem : Memory) (fmt : WStr) (args : Nat → BitVec 64) : WStr := vformat host mem fmt args

def vaListArgs (mem : Memory) (vaList : Addr) : Nat → BitVec 64 := fun i =>
  BitVec.ofNat 64 (Bytes.toNat (readMem mem (vaList + 8 * i) 8))

def writeFormatted (mem : Memory) (destination : Addr) (count : BitVec 64) (text : WStr) (secure : Bool) :
    Int × Memory :=
  if destination = 0 ∨ count = 0 then (-1, mem)
  else if count.toNat ≤ text.length then
    if secure then (-1, writeMem mem destination (Encoding.encode (nul : UInt16)))
    else (-1, writeMem mem destination (encodeAll (text.take count.toNat)))
  else (int32 text.length, writeBasicStringBuffer mem destination count text)

def wanted (maxCount : BitVec 64) (text : List T) : List T :=
  if maxCount = truncate then text else text.take maxCount.toNat

def kept (count maxCount : BitVec 64) (text : List T) : List T :=
  text.take (if maxCount = truncate then (count - 1).toNat else 0)

def writeCounted (mem : Memory) (destination : Addr) (count maxCount : BitVec 64) (text : List T) : Int × Memory :=
  if destination = 0 ∨ count = 0 then (crtEinval, mem)
  else if (wanted maxCount text).length + 1 ≤ count.toNat then
    (int32 (wanted maxCount text).length, writeBasicStringBuffer mem destination count (wanted maxCount text))
  else (-1, writeBasicStringBuffer mem destination count (kept count maxCount text))

/-! ## The handlers -/

section

variable (host : Host) (mem : Memory) (destination : Addr)

def snwprintf (count : BitVec 64) (format : WStr) (varargs : Nat → BitVec 64) : Int × Memory :=
  writeFormatted mem destination count (vswprintf host mem format varargs) false

def swprintfS (sizeInWords : BitVec 64) (format : WStr) (varargs : Nat → BitVec 64) : Int × Memory :=
  writeFormatted mem destination sizeInWords (vswprintf host mem format varargs) true

def vsnwprintf (count : BitVec 64) (format : WStr) (argList : Addr) : Int × Memory :=
  writeFormatted mem destination count (vswprintf host mem format (vaListArgs mem argList)) false

def vswprintfS (sizeInWords : BitVec 64) (format : WStr) (argList : Addr) : Int × Memory :=
  writeFormatted mem destination sizeInWords (vswprintf host mem format (vaListArgs mem argList)) true

def snprintfS (sizeInBytes maxCount : BitVec 64) (format : Str) (varargs : Nat → BitVec 64) : Int × Memory :=
  writeCounted mem destination sizeInBytes maxCount (vsprintf host mem format varargs)

def vsnprintfS (sizeInBytes maxCount : BitVec 64) (format : Str) (argList : Addr) : Int × Memory :=
  writeCounted mem destination sizeInBytes maxCount (vsprintf host mem format (vaListArgs mem argList))

def vsnwprintfS (sizeInWords maxCount : BitVec 64) (format : WStr) (argList : Addr) : Int × Memory :=
  writeCounted mem destination sizeInWords maxCount (vswprintf host mem format (vaListArgs mem argList))

end

/-! ## The contract -/

def Inside (T : Type) [DecidableEq T] [CharType T] (mem mem' : Memory) (destination : Addr) (count : Nat) : Prop :=
  ∀ a, a < destination ∨ destination + count * Encoding.size T ≤ a → mem' a = mem a

/-- What is promised of the plain forms: a text that fits is stored, be it without a terminator. -/
structure Plain (mem : Memory) (destination : Addr) (count : BitVec 64) (text : List T) (r : Int × Memory) : Prop where
  inside : Inside T mem r.2 destination count.toNat
  fits : destination ≠ 0 → text.length ≤ count.toNat → r.1 = text.length ∧ Holds r.2 destination text
  overflow : ¬ (destination ≠ 0 ∧ text.length ≤ count.toNat) → r.1 = -1

/-- What is promised of the others, for the part of the text that is wanted and the part that is left of it: a
terminator is always there. -/
structure Secure (mem : Memory) (destination : Addr) (count : BitVec 64) (wanted left : List T) (r : Int × Memory) :
    Prop where
  inside : Inside T mem r.2 destination count.toNat
  fits : destination ≠ 0 → wanted.length + 1 ≤ count.toNat →
    r.1 = wanted.length ∧ Holds r.2 destination (wanted ++ [nul])
  overflow : ¬ (destination ≠ 0 ∧ wanted.length + 1 ≤ count.toNat) → r.1 = -1
  left : destination ≠ 0 → count ≠ 0 → ¬ wanted.length + 1 ≤ count.toNat → Holds r.2 destination (left ++ [nul])

/-- Where the plain forms keep it: the text is longer or shorter than the buffer, and what they return fits in 32
bits. -/
def PlainKept (destination : Addr) (count : BitVec 64) (text : List T) : Prop :=
  destination ≠ 0 → text.length ≠ count.toNat ∧ (text.length < count.toNat → text.length < 2 ^ 31)

def SecureKept (destination : Addr) (count : BitVec 64) (text : List T) : Prop :=
  destination ≠ 0 → text.length < count.toNat → text.length < 2 ^ 31

/-- Where the forms with a count keep it: there is a buffer, and what they return fits in 32 bits. -/
def CountedKept (destination : Addr) (count : BitVec 64) (wanted : List T) : Prop :=
  destination ≠ 0 ∧ count ≠ 0 ∧ (wanted.length < count.toNat → wanted.length < 2 ^ 31)

/-! ## What is written -/

theorem int32_eq_iff (n : Nat) : int32 n = n ↔ n < 2 ^ 31 := by
  rw [int32, BitVec.toInt_eq_toNat_cond, BitVec.toNat_ofNat]
  split_ifs <;> omega

theorem inside_writeMem {mem : Memory} {destination : Addr} {count : Nat} {s : List T} (h : s.length ≤ count) :
    Inside T mem (writeMem mem destination (encodeAll s)) destination count := by
  intro a ha
  have hle := Nat.mul_le_mul_right (Encoding.size T) h
  refine writeMem_of_out (ha.imp_right fun hge => ?_)
  rw [length_encodeAll]
  exact (Nat.add_le_add_left hle destination).trans hge

theorem length_terminated {n : Nat} {s : List T} (h : s.length < n) : (s ++ [nul]).length ≤ n := by
  rw [List.length_append]
  exact h

theorem encode_nul : Encoding.encode (nul : T) = encodeAll [(nul : T)] := (List.append_nil _).symm

theorem toNat_pos {count : BitVec 64} (h : count ≠ 0) : 0 < count.toNat :=
  Nat.pos_of_ne_zero fun h0 => h (BitVec.eq_of_toNat_eq h0)

/-! ## The three writers -/

theorem writeFormatted_plain_iff (mem : Memory) (destination : Addr) (count : BitVec 64) (text : WStr) :
    Plain mem destination count text (writeFormatted mem destination count text false) ↔
      PlainKept destination count text := by
  by_cases hdest : destination = 0
  · rw [writeFormatted, if_pos (.inl hdest)]
    exact iff_of_true ⟨fun _ _ => rfl, fun h => absurd hdest h, fun _ => rfl⟩ fun h => absurd hdest h
  by_cases hcount : count = 0
  · rw [writeFormatted, if_pos (.inr hcount), hcount]
    constructor
    · intro h _
      refine ⟨fun hzero => ?_, fun hlt => absurd hlt (Nat.not_lt_zero _)⟩
      have hfits := (h.fits hdest (Nat.le_of_eq hzero)).1
      rw [hzero] at hfits
      change (-1 : Int) = 0 at hfits
      omega
    · intro h
      exact ⟨fun _ _ => rfl, fun _ hle => absurd (Nat.le_zero.mp hle) (h hdest).1, fun _ => rfl⟩
  rw [writeFormatted, if_neg (not_or.mpr ⟨hdest, hcount⟩)]
  by_cases hfull : count.toNat ≤ text.length
  · rw [if_pos hfull, if_neg Bool.false_ne_true]
    constructor
    · intro h _
      refine ⟨fun heq => ?_, fun hlt => absurd hlt (Nat.not_lt.mpr hfull)⟩
      have hfits := (h.fits hdest (Nat.le_of_eq heq)).1
      exact absurd hfits (by change (-1 : Int) ≠ _; omega)
    · intro h
      refine ⟨inside_writeMem (List.length_take_le ..), fun _ hle => ?_, fun _ => rfl⟩
      exact absurd (Nat.le_antisymm hle hfull) (h hdest).1
  · have hlt := Nat.lt_of_not_le hfull
    have hroom : (text ++ [nul]).length ≤ count.toNat := length_terminated hlt
    rw [if_neg hfull, writeBasicStringBuffer_of_lt hlt]
    constructor
    · intro h _
      exact ⟨Nat.ne_of_lt hlt, fun _ => (int32_eq_iff _).mp (h.fits hdest (Nat.le_of_lt hlt)).1⟩
    · intro h
      refine ⟨inside_writeMem hroom, fun _ _ => ⟨(int32_eq_iff _).mpr ((h hdest).2 hlt), ?_⟩, fun hover => ?_⟩
      · exact (holds_append.mp (holds_writeMem mem destination (text ++ [nul]))).1
      · exact absurd ⟨hdest, Nat.le_of_lt hlt⟩ hover

theorem writeFormatted_secure_iff (mem : Memory) (destination : Addr) (count : BitVec 64) (text : WStr) :
    Secure mem destination count text [] (writeFormatted mem destination count text true) ↔
      SecureKept destination count text := by
  by_cases hargs : destination = 0 ∨ count = 0
  · rw [writeFormatted, if_pos hargs]
    have hnone : ¬ (destination ≠ 0 ∧ text.length + 1 ≤ count.toNat) := fun h => by
      rcases hargs with hdest | hcount
      · exact h.1 hdest
      · rw [hcount] at h
        exact Nat.not_lt_zero _ h.2
    refine iff_of_true
      ⟨fun _ _ => rfl, fun hdest hle => absurd ⟨hdest, hle⟩ hnone, fun _ => rfl, fun hdest hcount => ?_⟩
      fun hdest hlt => absurd ⟨hdest, hlt⟩ hnone
    exact absurd hargs (not_or.mpr ⟨hdest, hcount⟩)
  obtain ⟨hdest, hcount⟩ := not_or.mp hargs
  rw [writeFormatted, if_neg hargs]
  by_cases hfull : count.toNat ≤ text.length
  · rw [if_pos hfull, if_pos rfl, encode_nul]
    refine iff_of_true
      ⟨inside_writeMem (toNat_pos hcount), fun _ hle => ?_, fun _ => rfl, fun _ _ _ => ?_⟩ fun _ hlt => ?_
    · exact absurd hle (Nat.not_lt.mpr hfull)
    · exact holds_writeMem mem destination [nul]
    · exact absurd hlt (Nat.not_lt.mpr hfull)
  · have hlt := Nat.lt_of_not_le hfull
    have hroom : (text ++ [nul]).length ≤ count.toNat := length_terminated hlt
    rw [if_neg hfull, writeBasicStringBuffer_of_lt hlt]
    constructor
    · intro h _ _
      exact (int32_eq_iff _).mp (h.fits hdest hlt).1
    · intro h
      refine ⟨inside_writeMem hroom, fun _ _ => ⟨(int32_eq_iff _).mpr (h hdest hlt), holds_writeMem ..⟩,
        fun hover => ?_, fun _ _ hover => absurd hlt hover⟩
      exact absurd ⟨hdest, hlt⟩ hover

omit [DecidableEq T] [CharType T] in
theorem length_kept_lt {count : BitVec 64} (hcount : count ≠ 0) (maxCount : BitVec 64) (text : List T) :
    (kept count maxCount text).length < count.toNat := by
  have hpos := toNat_pos hcount
  have hpred := toNat_pred hpos
  rw [kept, List.length_take]
  split_ifs <;> omega

theorem writeCounted_secure_iff (mem : Memory) (destination : Addr) (count maxCount : BitVec 64) (text : List T) :
    Secure mem destination count (wanted maxCount text) (kept count maxCount text)
        (writeCounted mem destination count maxCount text) ↔
      CountedKept destination count (wanted maxCount text) := by
  by_cases hargs : destination = 0 ∨ count = 0
  · rw [writeCounted, if_pos hargs]
    refine iff_of_false (fun h => ?_) fun h => absurd hargs (not_or.mpr ⟨h.1, h.2.1⟩)
    have hreturned : crtEinval = -1 := h.overflow fun hfits => by
      rcases hargs with hdest | hcount
      · exact hfits.1 hdest
      · rw [hcount] at hfits
        exact Nat.not_lt_zero _ hfits.2
    exact absurd hreturned (by decide)
  obtain ⟨hdest, hcount⟩ := not_or.mp hargs
  rw [writeCounted, if_neg hargs]
  by_cases hfits : (wanted maxCount text).length + 1 ≤ count.toNat
  · have hroom : (wanted maxCount text ++ [nul]).length ≤ count.toNat := length_terminated hfits
    rw [if_pos hfits, writeBasicStringBuffer_of_lt hfits]
    constructor
    · intro h
      exact ⟨hdest, hcount, fun _ => (int32_eq_iff _).mp (h.fits hdest hfits).1⟩
    · intro h
      refine ⟨inside_writeMem hroom, fun _ _ => ⟨(int32_eq_iff _).mpr (h.2.2 hfits), holds_writeMem ..⟩,
        fun hover => ?_, fun _ _ hover => absurd hfits hover⟩
      exact absurd ⟨hdest, hfits⟩ hover
  · have hlt := length_kept_lt hcount maxCount text
    have hroom : (kept count maxCount text ++ [nul]).length ≤ count.toNat := length_terminated hlt
    rw [if_neg hfits, writeBasicStringBuffer_of_lt hlt]
    refine iff_of_true ⟨inside_writeMem hroom, fun _ h => absurd h hfits, fun _ => rfl, fun _ _ _ => holds_writeMem ..⟩
      ⟨hdest, hcount, fun h => absurd h hfits⟩

/-! ## The whole family -/

/-- Every form keeps its promise for every format and arguments if and only if what it returns fits in 32 bits and a
plain form does not have a text of exactly the size, a form with a count has a buffer. -/
theorem promises_iff (host : Host) (mem : Memory) (destination : Addr) :
    (∀ count format varargs, Plain mem destination count (vswprintf host mem format varargs)
        (snwprintf host mem destination count format varargs) ↔
      PlainKept destination count (vswprintf host mem format varargs)) ∧
    (∀ count format argList, Plain mem destination count (vswprintf host mem format (vaListArgs mem argList))
        (vsnwprintf host mem destination count format argList) ↔
      PlainKept destination count (vswprintf host mem format (vaListArgs mem argList))) ∧
    (∀ count format varargs, Secure mem destination count (vswprintf host mem format varargs) []
        (swprintfS host mem destination count format varargs) ↔
      SecureKept destination count (vswprintf host mem format varargs)) ∧
    (∀ count format argList, Secure mem destination count (vswprintf host mem format (vaListArgs mem argList)) []
        (vswprintfS host mem destination count format argList) ↔
      SecureKept destination count (vswprintf host mem format (vaListArgs mem argList))) ∧
    (∀ count maxCount format varargs, Secure mem destination count (wanted maxCount (vsprintf host mem format varargs))
        (kept count maxCount (vsprintf host mem format varargs))
        (snprintfS host mem destination count maxCount format varargs) ↔
      CountedKept destination count (wanted maxCount (vsprintf host mem format varargs))) ∧
    (∀ count maxCount format argList,
      Secure mem destination count (wanted maxCount (vsprintf host mem format (vaListArgs mem argList)))
        (kept count maxCount (vsprintf host mem format (vaListArgs mem argList)))
        (vsnprintfS host mem destination count maxCount format argList) ↔
      CountedKept destination count (wanted maxCount (vsprintf host mem format (vaListArgs mem argList)))) ∧
    (∀ count maxCount format argList,
      Secure mem destination count (wanted maxCount (vswprintf host mem format (vaListArgs mem argList)))
        (kept count maxCount (vswprintf host mem format (vaListArgs mem argList)))
        (vsnwprintfS host mem destination count maxCount format argList) ↔
      CountedKept destination count (wanted maxCount (vswprintf host mem format (vaListArgs mem argList)))) :=
  ⟨fun _ _ _ => writeFormatted_plain_iff .., fun _ _ _ => writeFormatted_plain_iff ..,
    fun _ _ _ => writeFormatted_secure_iff .., fun _ _ _ => writeFormatted_secure_iff ..,
    fun _ _ _ _ => writeCounted_secure_iff .., fun _ _ _ _ => writeCounted_secure_iff ..,
    fun _ _ _ _ => writeCounted_secure_iff ..⟩

/-- One letter fits exactly in a buffer of one unit, and is stored. -/
theorem exact_fit_refused : ¬ Plain (fun _ => 0) 0x1000 1 ([0x61] : WStr)
    (snwprintf (fun _ _ => []) (fun _ => 0) 0x1000 1 [0x61] fun _ => 0) := by
  intro h
  have hreturned := (h.fits (by decide) (by decide)).1
  revert hreturned
  decide

end Kernemul.FormattedOutput
