import Kernemul.Win.Format

/-!
# Formats and their arguments

The formats of `printf` as the guest's compiler knows them, and the arguments that belong to each conversion: one for
every star, and one for the conversion itself. `vformat` goes wrong where it does not know a conversion or its size, for
then it takes fewer arguments than belong to it and the conversions behind get those of others.
-/

namespace Kernemul.Format

open ByteMemory Text GuestStrings CharType FormatChar

/-! ## The grammar -/

inductive Flag
  | minus
  | plus
  | space
  | zero
  | hash
  deriving DecidableEq, Repr

def Flag.char : Flag → Char
  | minus => '-'
  | plus => '+'
  | space => ' '
  | zero => '0'
  | hash => '#'

def digitChar (n : Fin 10) : Char := Char.ofNat ('0'.toNat + n)

inductive Width
  | none
  | star
  | digits (first : Fin 9) (more : List (Fin 10))
  deriving DecidableEq, Repr

def Width.chars : Width → List Char
  | none => []
  | star => ['*']
  | digits first more => digitChar first.succ :: more.map digitChar

inductive Precision
  | none
  | star
  | digits (digits : List (Fin 10))
  deriving DecidableEq, Repr

def Precision.chars : Precision → List Char
  | none => []
  | star => ['.', '*']
  | digits ds => '.' :: ds.map digitChar

inductive Size
  | none
  | h
  | hh
  | l
  | ll
  | w
  | I
  | I32
  | I64
  | z
  | t
  deriving DecidableEq, Repr

def Size.chars : Size → List Char
  | none => []
  | h => ['h']
  | hh => ['h', 'h']
  | l => ['l']
  | ll => ['l', 'l']
  | w => ['w']
  | I => ['I']
  | I32 => ['I', '3', '2']
  | I64 => ['I', '6', '4']
  | z => ['z']
  | t => ['t']

inductive Conv
  | d
  | i
  | u
  | x
  | X
  | o
  | p
  | c
  | C
  | s
  | S
  | Z
  | n
  | f
  | e
  | g
  deriving DecidableEq, Repr

def Conv.char : Conv → Char
  | d => 'd'
  | i => 'i'
  | u => 'u'
  | x => 'x'
  | X => 'X'
  | o => 'o'
  | p => 'p'
  | c => 'c'
  | C => 'C'
  | s => 's'
  | S => 'S'
  | Z => 'Z'
  | n => 'n'
  | f => 'f'
  | e => 'e'
  | g => 'g'

structure Directive where
  flags : List Flag := []
  width : Width := .none
  precision : Precision := .none
  size : Size := .none
  conv : Conv
  deriving DecidableEq, Repr

variable {T : Type} [DecidableEq T] [FormatChar T]

def Directive.body (d : Directive) : List T :=
  (d.flags.map Flag.char).map lit ++ (d.width.chars.map lit ++ (d.precision.chars.map lit ++
    (d.size.chars.map lit ++ [lit d.conv.char])))

/-- A piece of a format: a unit that stands for itself, two percent signs, or a directive. -/
inductive Piece (T : Type) [DecidableEq T] [FormatChar T]
  | unit (u : T) (hu : ¬ Is u '%')
  | percent
  | directive (d : Directive)

def Piece.text : Piece T → List T
  | unit u _ => [u]
  | percent => [lit '%', lit '%']
  | directive d => lit '%' :: d.body

def render (ps : List (Piece T)) : List T := ps.flatMap Piece.text

/-! ## Whose argument is whose -/

def Width.stars : Width → Nat
  | star => 1
  | _ => 0

def Precision.stars : Precision → Nat
  | star => 1
  | _ => 0

def Directive.stars (d : Directive) : Nat := d.width.stars + d.precision.stars

def Directive.slots (d : Directive) : Nat := d.stars + 1

def Piece.slots : Piece T → Nat
  | directive d => d.slots
  | _ => 0

def slots (ps : List (Piece T)) : Nat := (ps.map Piece.slots).sum

def argsFrom (args : Nat → BitVec 64) (first : Nat) : Nat → BitVec 64 := fun i => args (first + i)

def starText (v : BitVec 64) : Str := toString (v.setWidth 32).toInt

def Width.mods (own : Nat → BitVec 64) : Width → Str
  | star => starText (own 0)
  | w => ascii w.chars

def Precision.mods (own : Nat → BitVec 64) : Precision → Str
  | star => ascii ['.'] ++ starText (own 0)
  | p => ascii p.chars

def Directive.mods (d : Directive) (own : Nat → BitVec 64) : Str :=
  ascii (d.flags.map Flag.char) ++ d.width.mods own ++ d.precision.mods (argsFrom own d.width.stars)

/-- The size as `vformat` knows it, if it does. -/
def Size.lengthMod : Size → Option LengthMod
  | none => some .none
  | h => some .h
  | hh => some .hh
  | l => some .l
  | ll => some .ll
  | I => some .z
  | I32 => some .I32
  | I64 => some .I64
  | z => some .z
  | w => Option.none
  | t => Option.none

def Size.is64 (size : Size) : Bool := size = .ll ∨ size = .I64 ∨ size = .I ∨ size = .z ∨ size = .t

/-- The string of a directive is in the units that are not those of the format. -/
def Size.Foreign (T : Type) [DecidableEq T] [FormatChar T] (size : Size) : Prop := size.lengthMod = some (foreignMod T)

instance (size : Size) : Decidable (size.Foreign T) := inferInstanceAs (Decidable (_ = _))

/-- What a directive prints of its own arguments. `vformat` knows no way to print the last four. -/
def Directive.output (host : Host) (mem : Memory) (d : Directive) (own : Nat → BitVec 64) : Option (List T) :=
  let raw := own d.stars
  let spec := hostSpec (d.mods own) d.size.is64 (lit d.conv.char : T)
  match d.conv with
  | .d | .i | .u | .x | .X | .o =>
    some (formatSpec host spec (if d.size.is64 then .u64 raw else .u32 (raw.setWidth 32)))
  | .p => some (formatSpec host (hostSpec (d.mods own) false (lit d.conv.char : T)) (.pointer raw))
  | .s => some (orNull raw fun addr => if d.size.Foreign T then readForeign mem addr else readNative mem addr)
  | .S => some (orNull raw (readForeign mem))
  | .c => some [ofArg raw]
  | .C => some [ofForeignArg raw]
  | .Z => some (orNull raw (unicodeString mem))
  | .n | .f | .e | .g => none

def number (ds : List (Fin 10)) : Nat := ds.foldl (fun n d => 10 * n + d) 0

def Directive.limit (d : Directive) (own : Nat → BitVec 64) : Option Nat :=
  match d.precision with
  | .none => none
  | .star =>
    let n := ((own d.width.stars).setWidth 32).toInt
    if 0 ≤ n then some n.toNat else none
  | .digits ds => some (number ds)

/-- How long the string is that the argument of a directive points to, with the null pointer's text in its place. -/
def Directive.stringLength (T : Type) [DecidableEq T] [FormatChar T] (mem : Memory) (d : Directive)
    (own : Nat → BitVec 64) : Nat :=
  let text : List T := orNull (own d.stars) fun addr =>
    if d.size.Foreign T then readForeign mem addr else readNative mem addr
  text.length

/-- What the pieces print, one after the other, each of its own arguments. -/
def printed (host : Host) (mem : Memory) (args : Nat → BitVec 64) : List (Piece T) → List T
  | [] => []
  | .unit u _ :: ps => u :: printed host mem args ps
  | .percent :: ps => lit '%' :: printed host mem args ps
  | .directive d :: ps => (d.output host mem args).getD [] ++ printed host mem (argsFrom args d.slots) ps

/-- The run over a format comes to every directive when the arguments in front of it have been taken; the directive
takes those that belong to it, prints what they are, and no more of a string than its precision. -/
structure Aligned (host : Host) (mem : Memory) (args : Nat → BitVec 64) (ps : List (Piece T)) : Prop where
  takes : ∀ before d behind, ps = before ++ .directive d :: behind → ∃ result out,
    Relation.ReflTransGen (Round host mem args) ⟨render ps, [], 0⟩
      ⟨render (.directive d :: behind), result, slots before⟩ ∧
    Round host mem args ⟨render (.directive d :: behind), result, slots before⟩
      ⟨render behind, result ++ out, slots before + d.slots⟩ ∧
    (∀ o ∈ d.output host mem (argsFrom args (slots before)), out = o) ∧
    (d.conv = .s → ∀ n ∈ d.limit (argsFrom args (slots before)), out.length ≤ n)
  prints : vformat host mem (render ps) args = printed host mem args ps

/-- A conversion that `vformat` has, with a size that it knows. -/
structure Directive.Known (d : Directive) : Prop where
  conv : d.conv ≠ .n ∧ d.conv ≠ .f ∧ d.conv ≠ .e ∧ d.conv ≠ .g
  size : d.size ≠ .t ∧ (d.size = .w → d.conv = .Z)

def StringsFit (mem : Memory) (args : Nat → BitVec 64) (ps : List (Piece T)) : Prop :=
  ∀ before d behind, ps = before ++ .directive d :: behind → d.conv = .s →
    ∀ n ∈ d.limit (argsFrom args (slots before)), d.stringLength T mem (argsFrom args (slots before)) ≤ n

/-! ## Characters -/

theorem code_lit {c : Char} (h : c.toNat < 0x100) : code (lit c : T) = c.toNat := code_ofCode _ h

theorem toChar_lit {c : Char} (h : c.toNat < 0x100) : toChar (lit c : T) = UInt8.ofNat c.toNat := by
  rw [toChar, code_lit h]

theorem map_toChar_lit {cs : List Char} (h : ∀ c ∈ cs, c.toNat < 0x100) :
    (cs.map (lit : Char → T)).map toChar = ascii cs := by
  rw [List.map_map]
  exact List.map_congr_left fun c hc => toChar_lit (h c hc)

theorem toNat_digitChar (n : Fin 10) : (digitChar n).toNat = 0x30 + n := by
  revert n
  decide

theorem Flag.toNat_char (f : Flag) : f.char.toNat < 0x31 ∧ f.char.toNat ≠ 0x25 := by
  cases f <;> decide

theorem isFlag_lit (f : Flag) : isFlag (lit f.char : T) = true := by
  rw [isFlag, decide_eq_true_eq]
  simp only [Is, code_lit (Nat.lt_trans f.toNat_char.1 (by decide))]
  cases f <;> decide

theorem isFlag_iff (u : T) : isFlag u = true ↔ Is u '-' ∨ Is u '+' ∨ Is u ' ' ∨ Is u '0' ∨ Is u '#' :=
  decide_eq_true_iff

theorem isDigit_iff (u : T) : isDigit u = true ↔ 0x30 ≤ code u ∧ code u ≤ 0x39 := decide_eq_true_iff

theorem Conv.toNat_char (conv : Conv) : 0x41 ≤ conv.char.toNat ∧ conv.char.toNat < 0x80 := by
  cases conv <;> decide

theorem Size.toNat_chars (size : Size) : ∀ c ∈ size.chars.head?, 0x41 ≤ c.toNat ∧ c.toNat < 0x80 := by
  cases size <;> simp [Size.chars]

/-! ## Parsing a directive -/

theorem mem_head?_append {α : Type*} {l r : List α} {u : α} (h : u ∈ (l ++ r).head?) : u ∈ l.head? ∨ u ∈ r.head? := by
  cases l with
  | nil => exact .inr h
  | cons v l => exact .inl h

theorem mem_head?_map {α β : Type*} {f : α → β} {l : List α} {u : β} (h : u ∈ (l.map f).head?) :
    ∃ c ∈ l.head?, f c = u := by
  cases l with
  | nil => cases h
  | cons c l => exact ⟨c, rfl, Option.some.inj h⟩

theorem takeWhile_append_stop {α : Type*} {p : α → Bool} {l r : List α} (hl : ∀ u ∈ l, p u)
    (hr : ∀ u ∈ r.head?, ¬ p u) : (l ++ r).takeWhile p = l ∧ (l ++ r).dropWhile p = r := by
  rw [List.takeWhile_append_of_pos hl, List.dropWhile_append_of_pos hl]
  cases r with
  | nil => exact ⟨List.append_nil l, rfl⟩
  | cons v r =>
    have hv : ¬ p v := hr v rfl
    rw [List.takeWhile_cons_of_neg hv, List.dropWhile_cons_of_neg hv]
    exact ⟨List.append_nil l, rfl⟩

variable {fmt : List T}

theorem parseNumber_of_not_star {args : Nat → BitVec 64} {next : Nat} (h : ∀ u ∈ fmt.head?, ¬ Is u '*') :
    parseNumber args next fmt = ((fmt.takeWhile isDigit).map toChar, fmt.dropWhile isDigit, next) := by
  cases fmt with
  | nil => rfl
  | cons u fmt => rw [parseNumber, if_neg (h u rfl)]

def DotOrLetter (fmt : List T) : Prop := ∀ u ∈ fmt.head?, code u = 0x2e ∨ 0x41 ≤ code u

theorem parseNumber_digits {args : Nat → BitVec 64} {next : Nat} {ds : List Char}
    (hds : ∀ c ∈ ds, 0x30 ≤ c.toNat ∧ c.toNat ≤ 0x39) (hfmt : DotOrLetter fmt) :
    parseNumber args next (ds.map lit ++ fmt) = (ascii ds, fmt, next) := by
  have hnarrow : ∀ c ∈ ds, c.toNat < 0x100 := fun c hc => by
    have := hds c hc
    omega
  have hdigit : ∀ u ∈ ds.map (lit : Char → T), isDigit u := fun u hu => by
    obtain ⟨c, hc, rfl⟩ := List.mem_map.mp hu
    rw [isDigit_iff, code_lit (hnarrow c hc)]
    exact hds c hc
  have hstop : ∀ u ∈ fmt.head?, ¬ isDigit u := fun u hu => by
    have := hfmt u hu
    rw [isDigit_iff]
    omega
  have hstar : ∀ u ∈ (ds.map lit ++ fmt).head?, ¬ Is u '*' := fun u hu => by
    change code u ≠ 0x2a
    rcases mem_head?_append hu with hmem | hmem
    · have := (isDigit_iff u).mp (hdigit u (List.mem_of_mem_head? hmem))
      omega
    · have := hfmt u hmem
      omega
  rw [parseNumber_of_not_star hstar, (takeWhile_append_stop hdigit hstop).1, (takeWhile_append_stop hdigit hstop).2,
    map_toChar_lit hnarrow]

theorem parseNumber_star (args : Nat → BitVec 64) (next : Nat) (fmt : List T) :
    parseNumber args next (lit '*' :: fmt) = (starText (args next), fmt, next + 1) := by
  have hstar : Is (lit '*' : T) '*' := code_lit (by decide)
  rw [parseNumber, if_pos hstar, starText]

theorem toNat_digits {ds : List (Fin 10)} : ∀ c ∈ ds.map digitChar, 0x30 ≤ c.toNat ∧ c.toNat ≤ 0x39 := by
  intro c hc
  obtain ⟨n, -, rfl⟩ := List.mem_map.mp hc
  rw [toNat_digitChar]
  omega

theorem parseNumber_width (args : Nat → BitVec 64) (next : Nat) (width : Width)
    (hfmt : DotOrLetter fmt) : parseNumber args next (width.chars.map lit ++ fmt) =
      (width.mods (argsFrom args next), fmt, next + width.stars) := by
  cases width with
  | none =>
    have hnone : ∀ c ∈ ([] : List Char), 0x30 ≤ c.toNat ∧ c.toNat ≤ 0x39 := nofun
    exact parseNumber_digits hnone hfmt
  | star => exact parseNumber_star args next fmt
  | digits first more =>
    have hds : ∀ c ∈ (Width.digits first more).chars, 0x30 ≤ c.toNat ∧ c.toNat ≤ 0x39 := by
      intro c hc
      rcases List.mem_cons.mp hc with rfl | hc
      · have hfirst := toNat_digitChar first.succ
        rw [Fin.val_succ] at hfirst
        omega
      · exact toNat_digits c hc
    exact parseNumber_digits hds hfmt

theorem parsePrecision_precision (args : Nat → BitVec 64) (next : Nat) (precision : Precision)
    (hfmt : ∀ u ∈ fmt.head?, 0x41 ≤ code u) :
    parsePrecision args next (precision.chars.map lit ++ fmt) =
      (precision.mods (argsFrom args next), fmt, next + precision.stars) := by
  have hdot : Is (lit '.' : T) '.' := code_lit (by decide)
  cases precision with
  | none =>
    cases fmt with
    | nil => rfl
    | cons u fmt =>
      have hu : ¬ Is u '.' := fun h => by
        have hle := hfmt u rfl
        rw [h] at hle
        exact absurd hle (by decide)
      exact if_neg hu
  | star =>
    change parsePrecision args next (lit '.' :: lit '*' :: fmt) = _
    rw [parsePrecision, if_pos hdot, parseNumber_star]
    rfl
  | digits ds =>
    change parsePrecision args next (lit '.' :: ((ds.map digitChar).map lit ++ fmt)) = _
    rw [parsePrecision, if_pos hdot, parseNumber_digits toNat_digits fun u hu => .inr (hfmt u hu)]
    rfl

/-- What of a format is left behind the flags, the width and the precision of a directive. -/
def Directive.sized (d : Directive) (behind : List T) : List T := d.size.chars.map lit ++ lit d.conv.char :: behind

theorem Directive.body_append (d : Directive) (behind : List T) :
    d.body ++ behind = (d.flags.map Flag.char).map lit ++ (d.width.chars.map lit ++ (d.precision.chars.map lit ++
      d.sized behind)) := by
  simp only [body, sized, List.append_assoc, List.cons_append, List.nil_append]

theorem Directive.head_sized (d : Directive) (behind : List T) : ∀ u ∈ (d.sized behind).head?, 0x41 ≤ code u := by
  intro u hu
  rcases mem_head?_append hu with hmem | hmem
  · obtain ⟨c, hc, rfl⟩ := mem_head?_map hmem
    have hbounds := d.size.toNat_chars c hc
    rw [code_lit (by omega)]
    exact hbounds.1
  · obtain rfl := Option.some.inj hmem
    have hbounds := d.conv.toNat_char
    rw [code_lit (by omega)]
    exact hbounds.1

theorem Directive.head_precision (d : Directive) (behind : List T) :
    DotOrLetter (d.precision.chars.map lit ++ d.sized behind) := by
  intro u hu
  rcases mem_head?_append hu with hmem | hmem
  · obtain ⟨c, hc, rfl⟩ := mem_head?_map hmem
    have hdot : c = '.' := by
      cases hp : d.precision <;> rw [hp] at hc <;> cases hc <;> rfl
    rw [hdot]
    exact .inl (code_lit (by decide))
  · exact .inr (d.head_sized behind u hmem)

/-- Behind the flags there is a star, a digit other than zero, a dot or a letter. -/
theorem Directive.head_width (d : Directive) (behind : List T) :
    ∀ u ∈ (d.width.chars.map lit ++ (d.precision.chars.map lit ++ d.sized behind)).head?,
      code u = 0x2a ∨ code u = 0x2e ∨ 0x31 ≤ code u := by
  intro u hu
  rcases mem_head?_append hu with hmem | hmem
  · obtain ⟨c, hc, rfl⟩ := mem_head?_map hmem
    cases hw : d.width with
    | none =>
      rw [hw] at hc
      cases hc
    | star =>
      rw [hw] at hc
      obtain rfl := Option.some.inj hc
      exact .inl (code_lit (by decide))
    | digits first more =>
      rw [hw] at hc
      obtain rfl := Option.some.inj hc
      have hfirst := toNat_digitChar first.succ
      rw [Fin.val_succ] at hfirst
      have hlt := first.isLt
      rw [code_lit (by omega)]
      exact .inr (.inr (by omega))
  · rcases d.head_precision behind u hmem with hdot | hletter
    · exact .inr (.inl hdot)
    · exact .inr (.inr (by omega))

theorem argsFrom_argsFrom (args : Nat → BitVec 64) (m n : Nat) :
    argsFrom (argsFrom args m) n = argsFrom args (m + n) := by
  funext i
  exact congrArg args (Nat.add_assoc m n i).symm

theorem parseMods_directive (args : Nat → BitVec 64) (next : Nat) (d : Directive) (behind : List T) :
    parseMods args next (d.body ++ behind) = (d.mods (argsFrom args next), d.sized behind, next + d.stars) := by
  have hflag : ∀ u ∈ (d.flags.map Flag.char).map (lit : Char → T), isFlag u := fun u hu => by
    obtain ⟨c, hc, rfl⟩ := List.mem_map.mp hu
    obtain ⟨f, -, rfl⟩ := List.mem_map.mp hc
    exact isFlag_lit f
  have hstop : ∀ u ∈ (d.width.chars.map lit ++ (d.precision.chars.map lit ++ d.sized behind)).head?, ¬ isFlag u := by
    intro u hu
    have hcode := d.head_width behind u hu
    rw [isFlag_iff]
    simp only [Is, Char.reduceToNat]
    omega
  have hnarrow : ∀ c ∈ d.flags.map Flag.char, c.toNat < 0x100 := fun c hc => by
    obtain ⟨f, -, rfl⟩ := List.mem_map.mp hc
    exact Nat.lt_trans f.toNat_char.1 (by decide)
  rw [parseMods, d.body_append, (takeWhile_append_stop hflag hstop).1, (takeWhile_append_stop hflag hstop).2,
    parseNumber_width args next d.width (d.head_precision behind)]
  simp only [parsePrecision_precision args (next + d.width.stars) d.precision (d.head_sized behind),
    map_toChar_lit hnarrow, Directive.mods, argsFrom_argsFrom, Directive.stars, Nat.add_assoc]

/-! ## One round -/

variable {host : Host} {mem : Memory} {args : Nat → BitVec 64}

theorem step_unit {u : T} (hu : ¬ Is u '%') (fmt result : List T) (next : Nat) :
    Round host mem args ⟨u :: fmt, result, next⟩ ⟨fmt, result ++ [u], next⟩ := if_pos hu

theorem is_percent : Is (lit '%' : T) '%' := code_lit (by decide)

theorem step_percent (fmt result : List T) (next : Nat) :
    Round host mem args ⟨lit '%' :: lit '%' :: fmt, result, next⟩ ⟨fmt, result ++ [lit '%'], next⟩ := by
  refine (if_neg (not_not.mpr is_percent)).trans ?_
  exact if_pos is_percent

variable (host mem args)

theorem step_directive (d : Directive) (behind result : List T) (next : Nat) :
    Round host mem args ⟨lit '%' :: (d.body ++ behind), result, next⟩
      (finish host mem args ⟨lit '%' :: (d.body ++ behind), result, next⟩ (d.mods (argsFrom args next))
        (d.sized behind) (next + d.stars)) := by
  have hhead : ∀ u ∈ (d.body ++ behind).head?, ¬ Is u '%' := by
    intro u hu
    change code u ≠ 0x25
    rw [d.body_append] at hu
    rcases mem_head?_append hu with hmem | hmem
    · obtain ⟨c, hc, rfl⟩ := mem_head?_map hmem
      obtain ⟨f, -, rfl⟩ := mem_head?_map hc
      rw [code_lit (Nat.lt_trans f.toNat_char.1 (by decide))]
      exact f.toNat_char.2
    · have hcode := d.head_width behind u hmem
      omega
  have hparse := parseMods_directive args next d behind
  cases hfmt : d.body ++ behind with
  | nil =>
    have hlength := congrArg List.length hfmt
    rw [d.body_append, Directive.sized] at hlength
    simp at hlength
  | cons v fmt =>
    rw [hfmt] at hhead hparse
    refine (if_neg (not_not.mpr is_percent)).trans ((if_neg (hhead v rfl)).trans ?_)
    simp only [hparse]

variable {host mem args}

theorem is_lit_iff {c c' : Char} (h : c.toNat < 0x100) : Is (lit c : T) c' ↔ c = c' := by
  rw [Is, code_lit h]
  exact Char.toNat_inj

theorem Conv.is_iff (conv : Conv) (c : Char) : Is (lit conv.char : T) c ↔ conv.char = c :=
  is_lit_iff (Nat.lt_trans conv.toNat_char.2 (by decide))

theorem Conv.is_Z_iff (conv : Conv) : Is (lit conv.char : T) 'Z' ↔ conv = .Z := by
  rw [conv.is_iff]
  cases conv <;> decide

theorem Conv.not_size (conv : Conv) : conv.char ≠ 'h' ∧ conv.char ≠ 'l' ∧ conv.char ≠ 'I' ∧ conv.char ≠ 'z' ∧
    conv.char ≠ '6' ∧ conv.char ≠ '3' ∧ conv.char ≠ 'w' ∧ conv.char ≠ 't' := by
  cases conv <;> decide

variable {m : LengthMod}

theorem parseLengthMod_known {size : Size} (hsize : size.lengthMod = some m) (conv : Conv) (behind : List T) :
    parseLengthMod (size.chars.map lit ++ lit conv.char :: behind) = (m, lit conv.char :: behind) := by
  obtain ⟨hh, hl, hI, hz, h6, h3, -, -⟩ := conv.not_size
  -- Behind a bare I, the format is looked at for two more units.
  cases behind <;> cases size <;> cases hsize <;>
    simp (disch := decide) [parseLengthMod, Size.chars, is_lit_iff, conv.is_iff, hh, hl, hI, hz, h6, h3]

theorem parseLengthMod_unknown {size : Size} (hsize : size.lengthMod = none) (conv : Conv) (behind : List T) :
    parseLengthMod (size.chars.map lit ++ lit conv.char :: behind) =
      (.none, size.chars.map lit ++ lit conv.char :: behind) := by
  cases size <;> cases hsize <;> simp (disch := decide) [parseLengthMod, Size.chars, is_lit_iff]

theorem convert_conv (d : Directive) (hsize : d.size.lengthMod = some m) (hconv : d.conv ≠ .Z)
    (own : Nat → BitVec 64) :
    convert host mem (d.mods own) m (lit d.conv.char : T) (own d.stars) = d.output host mem own := by
  have h64 : is64bit m = d.size.is64 := by
    cases hs : d.size <;> rw [hs] at hsize <;> cases hsize <;> rfl
  have hforeign : (m = foreignMod T) = d.size.Foreign T := by
    rw [Size.Foreign, hsize, Option.some.injEq]
  unfold Directive.output convert
  rw [h64]
  simp only [hforeign, Conv.is_iff]
  cases hc : d.conv <;> cases d.size.is64 <;> first | exact absurd hc hconv | simp [Conv.char]

theorem Size.lengthMod_eq_none (size : Size) : size.lengthMod = Option.none ↔ size = .w ∨ size = .t := by
  cases size <;> simp [Size.lengthMod]

theorem Directive.output_eq_none (T : Type) [DecidableEq T] [FormatChar T] (host : Host) (mem : Memory) (d : Directive)
    (own : Nat → BitVec 64) : d.output host mem own = (none : Option (List T)) ↔
      ¬ (d.conv ≠ .n ∧ d.conv ≠ .f ∧ d.conv ≠ .e ∧ d.conv ≠ .g) := by
  unfold Directive.output
  cases d.conv <;> simp

theorem finish_eq {s : State T} {mods : Str} {fmt' : List T} {spec : T} {next : Nat}
    (h : parseLengthMod fmt = (m, spec :: fmt')) :
    finish host mem args s mods fmt next =
      if Is spec 'w' ∧ ∃ u ∈ fmt'.head?, Is u 'Z' then
        ⟨fmt'.tail, s.result ++ orNull (args next) (unicodeString mem), next + 1⟩
      else if Is spec 'Z' then ⟨fmt', s.result ++ orNull (args next) (unicodeString mem), next + 1⟩
      else
        match convert host mem mods m spec (args next) with
        | some text => ⟨fmt', s.result ++ text, next + 1⟩
        | none => ⟨fmt', s.result ++ s.fmt.take (s.fmt.length - fmt'.length), next⟩ := by
  unfold finish
  generalize parseLengthMod fmt = parsed at h ⊢
  subst h
  rfl

theorem finish_default {s : State T} {mods : Str} {fmt' : List T} {spec : T} {next : Nat}
    (h : parseLengthMod fmt = (m, spec :: fmt')) (hw : ¬ (Is spec 'w' ∧ ∃ u ∈ fmt'.head?, Is u 'Z'))
    (hZ : ¬ Is spec 'Z') (hconvert : convert host mem mods m spec (args next) = none) :
    (finish host mem args s mods fmt next).next = next := by
  rw [finish_eq h, if_neg hw, if_neg hZ, hconvert]

variable (host mem args)

variable {d : Directive}

theorem finish_known (hd : d.Known) (s : State T) (behind : List T) (next : Nat) :
    ∃ out, d.output host mem (argsFrom args next) = some out ∧
      finish host mem args s (d.mods (argsFrom args next)) (d.sized behind) (next + d.stars) =
        ⟨behind, s.result ++ out, next + d.slots⟩ := by
  have hsome := (d.output_eq_none T host mem (argsFrom args next)).not.mpr (not_not.mpr hd.conv)
  obtain ⟨out, hout⟩ := Option.ne_none_iff_exists'.mp hsome
  refine ⟨out, hout, ?_⟩
  cases hsize : d.size.lengthMod with
  | none =>
    -- `wZ` is known as a whole.
    have hw : d.size = .w := (d.size.lengthMod_eq_none.mp hsize).resolve_right hd.size.1
    have hZ : d.conv = .Z := hd.size.2 hw
    have hparse : parseLengthMod (d.sized behind) = (.none, lit 'w' :: lit 'Z' :: behind) := by
      rw [Directive.sized, parseLengthMod_unknown hsize, hw, hZ]
      rfl
    simp only [Directive.output, hZ, Option.some.injEq] at hout
    have hwZ : Is (lit 'w' : T) 'w' ∧ ∃ u ∈ (lit 'Z' :: behind).head?, Is u 'Z' :=
      ⟨(is_lit_iff (by decide)).mpr rfl, lit 'Z', rfl, (is_lit_iff (by decide)).mpr rfl⟩
    rw [finish_eq hparse, if_pos hwZ, ← hout]
    rfl
  | some m =>
    have hparse : parseLengthMod (d.sized behind) = (m, lit d.conv.char :: behind) := parseLengthMod_known hsize ..
    have hw : ¬ Is (lit d.conv.char : T) 'w' := (d.conv.is_iff 'w').not.mpr d.conv.not_size.2.2.2.2.2.2.1
    rw [finish_eq hparse, if_neg fun h => hw h.1]
    by_cases hZ : d.conv = .Z
    · have his : Is (lit d.conv.char : T) 'Z' := d.conv.is_Z_iff.mpr hZ
      simp only [Directive.output, hZ, Option.some.injEq] at hout
      rw [if_pos his, ← hout]
      rfl
    · have his : ¬ Is (lit d.conv.char : T) 'Z' := d.conv.is_Z_iff.not.mpr hZ
      have hconvert : convert host mem (d.mods (argsFrom args next)) m (lit d.conv.char : T) (args (next + d.stars)) =
          some out := (convert_conv d hsize hZ (argsFrom args next)).trans hout
      rw [if_neg his, hconvert]
      rfl

theorem finish_unknown (hd : ¬ d.Known) (s : State T) (behind : List T) (next : Nat) :
    (finish host mem args s (d.mods (argsFrom args next)) (d.sized behind) (next + d.stars)).next = next + d.stars := by
  cases hsize : d.size.lengthMod with
  | none =>
    have hparse := parseLengthMod_unknown hsize d.conv behind
    rcases d.size.lengthMod_eq_none.mp hsize with hw | ht
    · have hZ : d.conv ≠ .Z := fun h => hd ⟨by rw [h]; decide, by rw [hw]; decide, fun _ => h⟩
      rw [hw] at hparse
      rw [Directive.sized, hw]
      refine finish_default hparse (fun h => ?_) ((is_lit_iff (by decide)).not.mpr (by decide)) ?_
      · obtain ⟨-, u, hu, his⟩ := h
        obtain rfl := Option.some.inj hu
        exact hZ (d.conv.is_Z_iff.mp his)
      · simp (disch := decide) [convert, is_lit_iff]
    · rw [ht] at hparse
      rw [Directive.sized, ht]
      refine finish_default hparse (fun h => ?_) ((is_lit_iff (by decide)).not.mpr (by decide)) ?_
      · exact absurd ((is_lit_iff (by decide)).mp h.1) (by decide)
      · simp (disch := decide) [convert, is_lit_iff]
  | some m =>
    have hparse : parseLengthMod (d.sized behind) = (m, lit d.conv.char :: behind) := parseLengthMod_known hsize ..
    have hw : ¬ Is (lit d.conv.char : T) 'w' := (d.conv.is_iff 'w').not.mpr d.conv.not_size.2.2.2.2.2.2.1
    have hconv : ¬ (d.conv ≠ .n ∧ d.conv ≠ .f ∧ d.conv ≠ .e ∧ d.conv ≠ .g) := fun h => hd ⟨h, by
      have hnone := d.size.lengthMod_eq_none.not.mp (by rw [hsize]; exact Option.some_ne_none m)
      exact ⟨fun ht => hnone (.inr ht), fun hw => absurd (.inl hw) hnone⟩⟩
    have hZ : d.conv ≠ .Z := fun h => hconv (by rw [h]; decide)
    have hconvert : convert host mem (d.mods (argsFrom args next)) m (lit d.conv.char : T) (args (next + d.stars)) =
        none := (convert_conv d hsize hZ (argsFrom args next)).trans ((d.output_eq_none T host mem _).mpr hconv)
    exact finish_default hparse (fun h => hw h.1) (d.conv.is_Z_iff.not.mpr hZ) hconvert

/-! ## Runs over formats -/

theorem round_known (hd : d.Known) (behind : List (Piece T)) (result : List T) (next : Nat) :
    ∃ out, d.output host mem (argsFrom args next) = some out ∧
      Round host mem args ⟨render (.directive d :: behind), result, next⟩
        ⟨render behind, result ++ out, next + d.slots⟩ := by
  obtain ⟨out, hout, hfinish⟩ := finish_known host mem args hd
    ⟨lit '%' :: (d.body ++ render behind), result, next⟩ (render behind) next
  refine ⟨out, hout, ?_⟩
  have hround := step_directive host mem args d (render behind) result next
  rwa [hfinish] at hround

theorem not_round_unknown (hd : ¬ d.Known) (behind : List (Piece T)) (result fmt' result' : List T) (next : Nat) :
    ¬ Round host mem args ⟨render (.directive d :: behind), result, next⟩ ⟨fmt', result', next + d.slots⟩ := by
  intro hround
  have hstep := Option.some.inj ((step_directive host mem args d (render behind) result next).symm.trans hround)
  have hnext := finish_unknown host mem args hd
    ⟨lit '%' :: (d.body ++ render behind), result, next⟩ (render behind) next
  rw [hstep] at hnext
  exact absurd hnext (Nat.ne_of_gt (Nat.lt_succ_self _))

theorem reached_known {ps : List (Piece T)} (hps : ∀ d, .directive d ∈ ps → d.Known) (behind : List (Piece T))
    (result : List T) (next : Nat) :
    Relation.ReflTransGen (Round host mem args) ⟨render (ps ++ behind), result, next⟩
      ⟨render behind, result ++ printed host mem (argsFrom args next) ps, next + slots ps⟩ := by
  induction ps generalizing result next with
  | nil =>
    rw [printed, List.append_nil]
    exact .refl
  | cons p ps ih =>
    have ih := ih fun d hd => hps d (List.mem_cons_of_mem p hd)
    cases p with
    | unit u hu =>
      refine .head (step_unit hu _ result next) ?_
      have hslots : slots (.unit u hu :: ps) = slots ps := Nat.zero_add _
      have hrest := ih (result ++ [u]) next
      rw [List.append_assoc] at hrest
      rw [hslots]
      exact hrest
    | percent =>
      refine .head (step_percent _ result next) ?_
      have hslots : slots (.percent :: ps) = slots ps := Nat.zero_add _
      have hrest := ih (result ++ [lit '%']) next
      rw [List.append_assoc] at hrest
      rw [hslots]
      exact hrest
    | directive d =>
      obtain ⟨out, hout, hround⟩ := round_known host mem args
        (hps d List.mem_cons_self) (ps ++ behind) result next
      refine .head hround ?_
      have hrest := ih (result ++ out) (next + d.slots)
      rw [List.append_assoc, Nat.add_assoc] at hrest
      rw [printed, hout, argsFrom_argsFrom]
      exact hrest

theorem argsFrom_zero (args : Nat → BitVec 64) : argsFrom args 0 = args := by
  funext i
  exact congrArg args (Nat.zero_add i)

theorem vformat_known {ps : List (Piece T)} (hps : ∀ d, .directive d ∈ ps → d.Known) :
    vformat host mem (render ps) args = printed host mem args ps := by
  have hreached := reached_known host mem args hps [] [] 0
  rw [List.append_nil, argsFrom_zero] at hreached
  rw [vformat, run_of_reached hreached rfl (Nat.le_refl _)]
  rfl

theorem length_output (hs : d.conv = .s) {own : Nat → BitVec 64} {out : List T}
    (hout : d.output host mem own = some out) : out.length = d.stringLength T mem own := by
  simp only [Directive.output, hs, Option.some.injEq] at hout
  rw [← hout]
  rfl

/-- Every conversion gets its own arguments, and no string is longer than its precision, if and only if all directives
are known and no string has to be cut. -/
theorem aligned_iff (ps : List (Piece T)) :
    Aligned host mem args ps ↔ (∀ d, .directive d ∈ ps → d.Known) ∧ StringsFit mem args ps := by
  constructor
  · intro h
    have hknown : ∀ d, .directive d ∈ ps → d.Known := by
      intro d hd
      by_contra hunknown
      obtain ⟨before, behind, hps⟩ := List.append_of_mem hd
      obtain ⟨result, out, -, hround, -⟩ := h.takes before d behind hps
      exact not_round_unknown host mem args hunknown behind result _ _ (slots before) hround
    refine ⟨hknown, fun before d behind hps hs n hn => ?_⟩
    obtain ⟨result, out, -, -, hown, hlimit⟩ := h.takes before d behind hps
    obtain ⟨out', hout', -⟩ := round_known host mem args
      (hknown d (hps ▸ List.mem_append_right before List.mem_cons_self)) behind result (slots before)
    rw [← length_output host mem hs hout', ← hown out' hout']
    exact hlimit hs n hn
  · rintro ⟨hknown, hfit⟩
    refine ⟨fun before d behind hps => ?_, vformat_known host mem args hknown⟩
    have hbefore : ∀ e, .directive e ∈ before → e.Known := fun e he => hknown e (hps ▸ List.mem_append_left _ he)
    have hreached := reached_known host mem args hbefore (.directive d :: behind) [] 0
    rw [Nat.zero_add, ← hps] at hreached
    obtain ⟨out, hout, hround⟩ := round_known host mem args
      (hknown d (hps ▸ List.mem_append_right before List.mem_cons_self)) behind
      ([] ++ printed host mem (argsFrom args 0) before) (slots before)
    refine ⟨_, out, hreached, hround, fun o ho => Option.some.inj (hout.symm.trans ho), fun hs n hn => ?_⟩
    rw [length_output host mem hs hout]
    exact hfit before d behind hps hs n hn

/-! ## A size that is not known -/

def wideFormat : List (Piece UInt8) := [.directive ⟨[], .none, .none, .w, .s⟩, .directive ⟨[], .none, .none, .none, .d⟩]

/-- `%ws` takes no argument, so the number is printed from the string's. -/
theorem wideFormat_misaligned : ¬ Aligned (fun _ _ => []) (fun _ => 0) (fun i => BitVec.ofNat 64 i) wideFormat := by
  intro h
  obtain ⟨result, out, -, hround, -⟩ := h.takes [] _ _ rfl
  have hunknown : ¬ (⟨[], .none, .none, .w, .s⟩ : Directive).Known := fun hd => absurd (hd.size.2 rfl) (by decide)
  exact not_round_unknown _ _ _ hunknown _ result _ _ 0 hround

end Kernemul.Format
