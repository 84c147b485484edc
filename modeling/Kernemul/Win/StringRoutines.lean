import Mathlib.Tactic.Ring
import Kernemul.Win.GuestStrings

/-!
# Lengths, searches and copies of strings (`nt_crt_ops.cpp`, `nt_string_ops.cpp`)

`strchr` and `strnlen` go through the guest's own bytes. The other routines get a copy, which is cut where the reader's
limit is, and the descriptors of counted strings keep sixteen bits of what is computed for them.
-/

namespace Kernemul.StringRoutines

open ByteMemory Text GuestStrings CharType

variable {T : Type} [DecidableEq T] [CharType T]

def crtEinval : Int := 22
def crtErange : Int := 34

/-! ## The C runtime -/

def wcslen (str : WStr) : Nat := str.length

/-- The loop of `strchr`, which goes on until it finds something. -/
def strchrFrom (mem : Memory) (wanted : UInt8) : Nat → Addr → Option Addr
  | 0, _ => none
  | fuel + 1, addr =>
    let ch := load UInt8 mem addr
    if ch = wanted then some addr else if ch = 0 then some 0 else strchrFrom mem wanted fuel (addr + 1)

/-- `strchr`, after as many rounds as the fuel; none while it is at it. -/
def strchr (mem : Memory) (str : Addr) (c : BitVec 32) (fuel : Nat) : Option Addr :=
  if str = 0 then some 0 else strchrFrom mem (UInt8.ofBitVec (c.setWidth 8)) fuel str

/-- The rounds of `strnlen` that are left, and the address of the next. -/
def strnlenFrom (mem : Memory) : Nat → Addr → Nat
  | 0, _ => 0
  | rounds + 1, addr => if load UInt8 mem addr ≠ 0 then strnlenFrom mem rounds (addr + 1) + 1 else 0

def strnlen (mem : Memory) (str : Addr) (maxCount : BitVec 64) : Nat :=
  if str = 0 ∨ maxCount = 0 then 0 else strnlenFrom mem maxCount.toNat str

def find (subStr : Str) : Str → Option Nat
  | [] => if subStr = [] then some 0 else none
  | c :: s => if subStr.isPrefixOf (c :: s) then some 0 else (find subStr s).map (· + 1)

def strstr (mem : Memory) (str : Addr) (subStr : Str) : Addr :=
  match find subStr (readString mem str) with
  | none => 0
  | some pos => str + pos

def strcpyS (mem : Memory) (destination : Addr) (size : BitVec 64) (source : Str) : Int × Memory :=
  if destination = 0 ∨ size = 0 then (crtEinval, mem)
  else if source.length + 1 > size.toNat then (crtErange, writeMem mem destination (Encoding.encode (nul : UInt8)))
  else (0, writeMem mem destination (encodeAll (source ++ [nul])))

def wcscpyS (mem : Memory) (destination : Addr) (sizeInWords : BitVec 64) (source : WStr) : Int × Memory :=
  if destination = 0 ∨ sizeInWords = 0 then (crtEinval, mem)
  else if source.length + 1 > sizeInWords.toNat then
    (crtErange, writeMem mem destination (Encoding.encode (nul : UInt16)))
  else (0, writeBasicStringBuffer mem destination sizeInWords source)

/-! ## Descriptors -/

/-- What `RtlInitUnicodeString` and `RtlInitAnsiString` write to a destination that is not null. -/
def initString (T : Type) [DecidableEq T] [CharType T] (mem : Memory) (destination source : Addr) :
    Option CountedString :=
  if destination = 0 then none
  else if source = 0 then some ⟨0, 0, source⟩
  else
    let s := readBasicString T mem source maxChars
    let length := BitVec.ofNat 16 (s.length * Encoding.size T)
    some ⟨length, BitVec.ofNat 16 (length.toNat + Encoding.size T), source⟩

def rtlInitUnicodeString (mem : Memory) (destination source : Addr) : Option CountedString :=
  initString UInt16 mem destination source

def rtlInitAnsiString (mem : Memory) (destination source : Addr) : Option CountedString :=
  initString UInt8 mem destination source

inductive Status
  | success
  | invalidParameter
  | noMemory
  deriving DecidableEq, Repr

/-- What a call answers, the descriptor it writes, and the memory behind it. -/
structure Duplicate where
  status : Status
  written : Option CountedString
  mem : Memory

def duplicateNullTerminate : BitVec 32 := 1
def duplicateAllocateNullString : BitVec 32 := 2

/-- The bytes of the copy, with those of a terminator if it is asked for. -/
def duplicateNeeded (flags : BitVec 32) (length : Nat) : Nat :=
  if flags &&& duplicateNullTerminate ≠ 0 then length + 2 else max length 2

/-- `RtlDuplicateUnicodeString`; `allocate` is what the pool has for a size. -/
def rtlDuplicateUnicodeString (mem : Memory) (allocate : Nat → Option Addr) (flags : BitVec 32)
    (stringIn : Option CountedString) (stringOut : Addr) : Duplicate :=
  if stringIn = none ∨ stringOut = 0 ∨ flags &&& ~~~ (duplicateNullTerminate ||| duplicateAllocateNullString) ≠ 0 then
    ⟨.invalidParameter, none, mem⟩
  else
    let source := readUnicodeString mem stringIn
    if source = [] ∧ flags &&& duplicateAllocateNullString = 0 then ⟨.success, some ⟨0, 0, 0⟩, mem⟩
    else
      let length := source.length * 2
      let needed := duplicateNeeded flags length
      match allocate needed with
      | none => ⟨.noMemory, none, mem⟩
      | some buffer =>
        ⟨.success, some ⟨BitVec.ofNat 16 length, BitVec.ofNat 16 needed, buffer⟩,
          writeMem mem buffer (encodeAll source)⟩

/-! ## What they are to be -/

def Copied (result : Int × Memory) (destination : Addr) (s : List T) : Prop :=
  result.1 = 0 ∧ Holds result.2 destination (s ++ [nul])

/-- A descriptor of a string of so many bytes, if there is one with room for a terminator. -/
structure Describes (d : CountedString) (bytes terminator : Nat) : Prop where
  length_le : d.length.toNat ≤ d.maximumLength.toNat
  length_eq : bytes + terminator ≤ 0xffff → d.length.toNat = bytes

/-! ## Scans -/

def foundAt (addr : Addr) : Option Nat → Addr
  | none => 0
  | some pos => addr + pos

theorem foundAt_succ (addr : Addr) (o : Option Nat) : foundAt addr (o.map (· + 1)) = foundAt (addr + 1) o := by
  cases o with
  | none => rfl
  | some pos => exact Nat.add_right_comm addr pos 1

variable {mem : Memory}

/-- The scan ends behind the string at the latest, and what it finds is the first place of the unit. -/
theorem strchrFrom_eq {addr : Addr} {s : Str} (hs : Holds mem addr (s ++ [nul])) (hnul : nul ∉ s)
    {w : UInt8} (hw : w ≠ 0) {fuel : Nat} (hfuel : s.length < fuel) :
    strchrFrom mem w fuel addr = some (foundAt addr (s.idxOf? w)) := by
  induction s generalizing addr fuel with
  | nil =>
    obtain ⟨fuel, rfl⟩ := Nat.exists_eq_add_one_of_ne_zero (Nat.ne_of_gt hfuel)
    have hload : load UInt8 mem addr = 0 := (holds_cons.mp hs).1
    rw [strchrFrom, hload]
    simp only [if_neg hw.symm, if_true]
    rfl
  | cons c s ih =>
    obtain ⟨fuel, rfl⟩ := Nat.exists_eq_add_one_of_ne_zero (Nat.ne_of_gt (Nat.zero_lt_of_lt hfuel))
    obtain ⟨hload, hs⟩ := holds_cons.mp hs
    have hc : c ≠ 0 := fun h => hnul (h ▸ List.mem_cons_self)
    rw [strchrFrom, hload, List.idxOf?_cons]
    by_cases hcw : c = w
    · rw [if_pos hcw, if_pos (beq_iff_eq.mpr hcw)]
      rfl
    · simp only [if_neg hcw, if_neg hc, beq_iff_eq]
      rw [foundAt_succ]
      exact ih hs (fun h => hnul (List.mem_cons_of_mem c h)) (Nat.lt_of_succ_lt_succ hfuel)

theorem strchrFrom_mono {w : UInt8} {fuel : Nat} {addr r : Addr}
    (h : strchrFrom mem w fuel addr = some r) (more : Nat) : strchrFrom mem w (fuel + more) addr = some r := by
  induction fuel generalizing addr with
  | zero => cases h
  | succ fuel ih =>
    rw [Nat.succ_add]
    rw [strchrFrom] at h ⊢
    split_ifs at h ⊢
    · exact h
    · exact h
    · exact ih h

theorem strchr_iff (s : GuestString UInt8 mem) {c : BitVec 32} (hc : UInt8.ofBitVec (c.setWidth 8) ≠ 0)
    (r : Addr) : (∃ fuel, strchr mem s.addr c fuel = some r) ↔
      foundAt s.addr (s.units.idxOf? (UInt8.ofBitVec (c.setWidth 8))) = r := by
  have hfound {fuel : Nat} (hfuel : s.units.length < fuel) := strchrFrom_eq s.terminated s.nul_notMem hc hfuel
  simp only [strchr, if_neg s.addr_ne]
  constructor
  · rintro ⟨fuel, hr⟩
    have hmore := strchrFrom_mono hr (s.units.length + 1)
    rw [hfound (by omega)] at hmore
    exact Option.some.inj hmore
  · rintro rfl
    exact ⟨s.units.length + 1, hfound (Nat.lt_succ_self _)⟩

theorem strnlenFrom_eq {addr : Addr} {s : Str} (hs : Holds mem addr (s ++ [nul])) (hnul : nul ∉ s)
    (rounds : Nat) : strnlenFrom mem rounds addr = min s.length rounds := by
  induction rounds generalizing addr s with
  | zero => rw [strnlenFrom, Nat.min_zero]
  | succ rounds ih =>
    cases s with
    | nil =>
      have hload : load UInt8 mem addr = 0 := (holds_cons.mp hs).1
      rw [strnlenFrom, hload, if_neg (not_not.mpr rfl), List.length_nil, Nat.zero_min]
    | cons c s =>
      obtain ⟨hload, hs⟩ := holds_cons.mp hs
      have hc : c ≠ 0 := fun h => hnul (h ▸ List.mem_cons_self)
      rw [strnlenFrom, hload, if_pos hc, List.length_cons, Nat.succ_min_succ]
      exact congrArg (· + 1) (ih hs fun h => hnul (List.mem_cons_of_mem c h))

theorem strnlen_eq (s : GuestString UInt8 mem) (k : BitVec 64) :
    strnlen mem s.addr k = min s.units.length k.toNat := by
  unfold strnlen
  split_ifs with h
  · rw [h.resolve_left s.addr_ne]
    exact (Nat.min_zero _).symm
  · exact strnlenFrom_eq s.terminated s.nul_notMem k.toNat

/-! ## Copies -/

theorem find_singleton (w : UInt8) (s : Str) : find [w] s = s.idxOf? w := by
  induction s with
  | nil => rfl
  | cons c s ih =>
    rw [find, List.idxOf?_cons, ih, List.isPrefixOf]
    by_cases hcw : c = w
    · subst hcw
      simp
    · rw [beq_false_of_ne hcw, beq_false_of_ne (Ne.symm hcw)]
      rfl

theorem idxOf?_take_iff {s : Str} {w : UInt8} {n : Nat} :
    (s.take n).idxOf? w = s.idxOf? w ↔ (w ∈ s → w ∈ s.take n) := by
  induction n generalizing s with
  | zero =>
    rw [List.take_zero, List.idxOf?_nil, eq_comm, List.idxOf?_eq_none_iff]
    exact ⟨fun h hmem => absurd hmem h, fun h hmem => absurd (h hmem) List.not_mem_nil⟩
  | succ n ih =>
    cases s with
    | nil => exact iff_of_true rfl id
    | cons c s =>
      rw [List.take_succ_cons, List.idxOf?_cons, List.idxOf?_cons]
      by_cases hcw : c = w
      · subst hcw
        simp
      · have hmap : Function.Injective (Option.map fun i : Nat => i + 1) := Option.map_injective (add_left_injective 1)
        simp only [beq_iff_eq, if_neg hcw, List.mem_cons, Ne.symm hcw, false_or]
        exact hmap.eq_iff.trans ih

theorem strstr_eq (s : GuestString UInt8 mem) (w : UInt8) :
    strstr mem s.addr [w] = foundAt s.addr ((s.units.take maxChars).idxOf? w) := by
  have hread : readString mem s.addr = s.units.take maxChars := s.readBasicString_eq maxChars
  rw [strstr, hread, find_singleton]
  cases (s.units.take maxChars).idxOf? w <;> rfl

theorem foundAt_injective {addr : Addr} (h : addr ≠ 0) : Function.Injective (foundAt addr) := by
  intro o o' heq
  cases o with
  | none =>
    cases o' with
    | none => rfl
    | some pos =>
      exact absurd heq.symm (Nat.add_pos_left (Nat.pos_of_ne_zero h) pos).ne'
  | some pos =>
    cases o' with
    | none =>
      exact absurd heq (Nat.add_pos_left (Nat.pos_of_ne_zero h) pos).ne'
    | some pos' =>
      change addr + pos = addr + pos' at heq
      rw [Nat.add_left_cancel heq]

/-- What has been written of the copy is the string if and only if it is short enough for the copy. -/
theorem copied_iff (s : GuestString T mem) (destination : Addr) :
    Copied (0, writeMem mem destination (encodeAll (arg s ++ [nul]))) destination s.units ↔
      s.units.length ≤ maxChars := by
  have hwritten := holds_writeMem mem destination (arg s ++ [nul])
  constructor
  · intro h
    have hnul : nul ∉ arg s := arg_eq s ▸ s.nul_notMem_take maxChars
    have harg := units_unique hwritten hnul h.2 s.nul_notMem
    rw [← harg, arg_eq]
    exact List.length_take_le ..
  · intro h
    rw [arg_eq, List.take_of_length_le h] at hwritten ⊢
    exact ⟨rfl, hwritten⟩

theorem length_arg_lt (s : GuestString T mem) {n : Nat} (h : s.units.length < n) :
    (arg s).length < n := by
  rw [arg_eq]
  exact Nat.lt_of_le_of_lt (List.length_take_le' ..) h

theorem strcpyS_copied_iff (s : GuestString UInt8 mem) {destination : Addr} (hdest : destination ≠ 0)
    {size : BitVec 64} (hsize : s.units.length < size.toNat) :
    Copied (strcpyS mem destination size (arg s)) destination s.units ↔ s.units.length ≤ maxChars := by
  have hne : size ≠ 0 := fun h => Nat.not_lt_zero _ (h ▸ hsize)
  have hfits : ¬ (arg s).length + 1 > size.toNat := not_lt.mpr (length_arg_lt s hsize)
  rw [strcpyS, if_neg (not_or.mpr ⟨hdest, hne⟩), if_neg hfits, copied_iff]

theorem wcscpyS_copied_iff (s : GuestString UInt16 mem) {destination : Addr} (hdest : destination ≠ 0)
    {size : BitVec 64} (hsize : s.units.length < size.toNat) :
    Copied (wcscpyS mem destination size (arg s)) destination s.units ↔ s.units.length ≤ maxChars := by
  have hne : size ≠ 0 := fun h => Nat.not_lt_zero _ (h ▸ hsize)
  have hfits : ¬ (arg s).length + 1 > size.toNat := not_lt.mpr (length_arg_lt s hsize)
  rw [wcscpyS, if_neg (not_or.mpr ⟨hdest, hne⟩), if_neg hfits, writeBasicStringBuffer_of_lt (length_arg_lt s hsize),
    copied_iff]

/-! ## Counted strings -/

theorem initString_describes_iff (s : GuestString T mem) {destination : Addr} (hdest : destination ≠ 0)
    (hsize : Encoding.size T = 1 ∨ Encoding.size T = 2) :
    (∃ d, initString T mem destination s.addr = some d ∧
        Describes d (s.units.length * Encoding.size T) (Encoding.size T)) ↔
      s.units.length ≤ maxChars ∨ 0xffff < s.units.length * Encoding.size T + Encoding.size T := by
  have hcopy : (readBasicString T mem s.addr maxChars).length = min maxChars s.units.length := by
    rw [s.readBasicString_eq, List.length_take]
  simp only [initString, if_neg hdest, if_neg s.addr_ne, hcopy, Option.some.injEq, exists_eq_left']
  have hmax : maxChars = 4096 := rfl
  have hlength : (BitVec.ofNat 16 (min maxChars s.units.length * Encoding.size T)).toNat =
      min maxChars s.units.length * Encoding.size T := by
    rw [BitVec.toNat_ofNat]
    refine Nat.mod_eq_of_lt ?_
    rcases hsize with h | h <;> rw [h] <;> omega
  have hmaximum : (BitVec.ofNat 16 (min maxChars s.units.length * Encoding.size T + Encoding.size T)).toNat =
      min maxChars s.units.length * Encoding.size T + Encoding.size T := by
    rw [BitVec.toNat_ofNat]
    refine Nat.mod_eq_of_lt ?_
    rcases hsize with h | h <;> rw [h] <;> omega
  constructor
  · rintro ⟨-, heq⟩
    rw [hlength] at heq
    rcases hsize with h | h <;> rw [h] at heq ⊢ <;> omega
  · intro h
    refine ⟨?_, fun hfits => ?_⟩
    · rw [hlength, hmaximum]
      exact Nat.le_add_right ..
    · rw [hlength]
      rcases hsize with h' | h' <;> rw [h'] at h hfits ⊢ <;> omega

structure Names (str : CountedString) {mem : Memory} (s : GuestString UInt16 mem) : Prop where
  buffer_eq : str.buffer = s.addr
  length_eq : str.length.toNat = s.units.length * 2

theorem Names.readUnicodeString_eq {str : CountedString} {s : GuestString UInt16 mem} (h : Names str s) :
    readUnicodeString mem (some str) = s.units := by
  have hbuffer : str.buffer ≠ 0 := h.buffer_eq ▸ s.addr_ne
  rw [readUnicodeString, readCountedString]
  split_ifs with h0
  · have hzero := h.length_eq
    rw [h0.resolve_right hbuffer] at hzero
    change 0 = s.units.length * 2 at hzero
    exact (List.eq_nil_of_length_eq_zero (by omega)).symm
  · have hunits : str.length.toNat / Encoding.size UInt16 = s.units.length := by
      rw [h.length_eq]
      exact Nat.mul_div_cancel _ (by decide)
    rw [hunits, h.buffer_eq]
    exact (holds_append.mp s.terminated).1

theorem rtlDuplicateUnicodeString_written {allocate : Nat → Option Addr} {flags : BitVec 32}
    {stringIn : Option CountedString} {stringOut : Addr}
    (h : (rtlDuplicateUnicodeString mem allocate flags stringIn stringOut).status = .success) :
    (readUnicodeString mem stringIn = [] ∧
      (rtlDuplicateUnicodeString mem allocate flags stringIn stringOut).written = some ⟨0, 0, 0⟩) ∨
    ∃ buffer, (rtlDuplicateUnicodeString mem allocate flags stringIn stringOut).written =
      some ⟨BitVec.ofNat 16 ((readUnicodeString mem stringIn).length * 2),
        BitVec.ofNat 16 (duplicateNeeded flags ((readUnicodeString mem stringIn).length * 2)), buffer⟩ := by
  by_cases hargs : stringIn = none ∨ stringOut = 0 ∨
      flags &&& ~~~ (duplicateNullTerminate ||| duplicateAllocateNullString) ≠ 0
  · rw [rtlDuplicateUnicodeString, if_pos hargs] at h
    cases h
  · simp only [rtlDuplicateUnicodeString, if_neg hargs] at h ⊢
    by_cases hempty : readUnicodeString mem stringIn = [] ∧ flags &&& duplicateAllocateNullString = 0
    · rw [if_pos hempty]
      exact .inl ⟨hempty.1, rfl⟩
    · rw [if_neg hempty] at h ⊢
      cases hbuffer : allocate (duplicateNeeded flags ((readUnicodeString mem stringIn).length * 2)) with
      | none =>
        rw [hbuffer] at h
        cases h
      | some buffer => exact .inr ⟨buffer, rfl⟩

theorem rtlDuplicateUnicodeString_describes_iff {s : GuestString UInt16 mem} {str : CountedString}
    (hstr : Names str s) {allocate : Nat → Option Addr} {flags : BitVec 32} {stringOut : Addr}
    (hsuccess : (rtlDuplicateUnicodeString mem allocate flags (some str) stringOut).status = .success) :
    (∃ d, (rtlDuplicateUnicodeString mem allocate flags (some str) stringOut).written = some d ∧
        Describes d (s.units.length * 2) 2) ↔
      ¬ (flags &&& duplicateNullTerminate ≠ 0 ∧ s.units.length * 2 = 0xfffe) := by
  have hlt := str.length.isLt
  rw [hstr.length_eq] at hlt
  rcases rtlDuplicateUnicodeString_written hsuccess with ⟨hempty, hwritten⟩ | ⟨buffer, hwritten⟩
  · rw [hstr.readUnicodeString_eq] at hempty
    rw [hwritten, hempty]
    exact iff_of_true ⟨_, rfl, le_rfl, fun _ => rfl⟩ fun h => absurd h.2 (by decide)
  · rw [hstr.readUnicodeString_eq] at hwritten
    have hlength : (BitVec.ofNat 16 (s.units.length * 2)).toNat = s.units.length * 2 := by
      rw [BitVec.toNat_ofNat, Nat.mod_eq_of_lt hlt]
    simp only [hwritten, Option.some.injEq, exists_eq_left']
    constructor
    · rintro ⟨hle, -⟩ ⟨hflag, hfull⟩
      rw [hlength, duplicateNeeded, if_pos hflag, hfull] at hle
      change 0xfffe ≤ 0 at hle
      omega
    · intro h
      refine ⟨?_, fun _ => hlength⟩
      rw [hlength, BitVec.toNat_ofNat, duplicateNeeded]
      split_ifs with hflag
      · have hshort : s.units.length * 2 ≠ 0xfffe := fun he => h ⟨hflag, he⟩
        rw [Nat.mod_eq_of_lt (by omega)]
        omega
      · rw [Nat.mod_eq_of_lt (by omega)]
        exact le_max_left ..

/-! ## The whole string -/

/-- Each routine works on the whole of every string if and only if the string is within the copy that it gets; `strnlen`
gets none, and a copy that is terminated has to be described by sixteen bits. -/
theorem whole_string_iff (mem : Memory) :
    (∀ s : GuestString UInt16 mem, wcslen (arg s) = s.units.length ↔ s.units.length ≤ maxChars) ∧
    (∀ (s : GuestString UInt8 mem) (k : BitVec 64), strnlen mem s.addr k = min s.units.length k.toNat) ∧
    (∀ (s sub : GuestString UInt8 mem) (c : BitVec 32), sub.units = [UInt8.ofBitVec (c.setWidth 8)] →
      ((∃ fuel, strchr mem s.addr c fuel = some (strstr mem s.addr (arg sub))) ↔
        (UInt8.ofBitVec (c.setWidth 8) ∈ s.units → UInt8.ofBitVec (c.setWidth 8) ∈ s.units.take maxChars))) ∧
    (∀ (s : GuestString UInt8 mem) (destination : Addr) (size : BitVec 64), destination ≠ 0 →
      s.units.length < size.toNat →
      (Copied (strcpyS mem destination size (arg s)) destination s.units ↔ s.units.length ≤ maxChars)) ∧
    (∀ (s : GuestString UInt16 mem) (destination : Addr) (size : BitVec 64), destination ≠ 0 →
      s.units.length < size.toNat →
      (Copied (wcscpyS mem destination size (arg s)) destination s.units ↔ s.units.length ≤ maxChars)) ∧
    (∀ (s : GuestString UInt16 mem) (destination : Addr), destination ≠ 0 →
      ((∃ d, rtlInitUnicodeString mem destination s.addr = some d ∧ Describes d (s.units.length * 2) 2) ↔
        s.units.length ≤ maxChars ∨ 0xffff < s.units.length * 2 + 2)) ∧
    (∀ (s : GuestString UInt8 mem) (destination : Addr), destination ≠ 0 →
      ((∃ d, rtlInitAnsiString mem destination s.addr = some d ∧ Describes d s.units.length 1) ↔
        s.units.length ≤ maxChars ∨ 0xffff < s.units.length + 1)) ∧
    (∀ (s : GuestString UInt16 mem) (str : CountedString), Names str s →
      ∀ (allocate : Nat → Option Addr) (flags : BitVec 32) (stringOut : Addr),
      (rtlDuplicateUnicodeString mem allocate flags (some str) stringOut).status = .success →
      ((∃ d, (rtlDuplicateUnicodeString mem allocate flags (some str) stringOut).written = some d ∧
          Describes d (s.units.length * 2) 2) ↔
        ¬ (flags &&& duplicateNullTerminate ≠ 0 ∧ s.units.length * 2 = 0xfffe))) := by
  refine ⟨fun s => ?_, fun s k => strnlen_eq s k, fun s sub c hsub => ?_, fun s _ _ hdest hsize =>
    strcpyS_copied_iff s hdest hsize, fun s _ _ hdest hsize => wcscpyS_copied_iff s hdest hsize,
    fun s _ hdest => initString_describes_iff s hdest (.inr rfl), fun s _ hdest => ?_,
    fun s str hstr _ _ _ hsuccess => rtlDuplicateUnicodeString_describes_iff hstr hsuccess⟩
  · rw [wcslen, arg_eq, List.length_take]
    exact min_eq_right_iff
  · have hc : UInt8.ofBitVec (c.setWidth 8) ≠ 0 := fun h => sub.nul_notMem (hsub ▸ h ▸ List.mem_singleton_self _)
    have hsingle : arg sub = [UInt8.ofBitVec (c.setWidth 8)] := by
      rw [arg_eq, hsub]
      rfl
    rw [strchr_iff s hc, hsingle, strstr_eq, (foundAt_injective s.addr_ne).eq_iff, eq_comm, idxOf?_take_iff]
  · have hdescribes := initString_describes_iff s hdest (.inl rfl)
    rwa [show Encoding.size UInt8 = 1 from rfl, Nat.mul_one] at hdescribes

theorem nul_notMem_replicate (n : Nat) : nul ∉ List.replicate n (0x61 : UInt16) := fun h =>
  absurd (List.eq_of_mem_replicate h) (by decide)

def longString : GuestString UInt16
    (writeMem (fun _ => 0) 0x1000 (encodeAll (List.replicate 4097 (0x61 : UInt16) ++ [nul]))) :=
  GuestString.write (fun _ => 0) 0x1000 (by decide) (List.replicate 4097 0x61) (nul_notMem_replicate 4097)

theorem longString_cut : wcslen (arg longString) ≠ longString.units.length := by
  have hunits : longString.units.length = 4097 := List.length_replicate
  rw [wcslen, arg_eq, List.length_take, hunits]
  decide

end Kernemul.StringRoutines
