import Kernemul.Lib.Lexicographic
import Kernemul.Win.GuestStrings

/-!
# Comparing strings (`nt_crt_ops.cpp`, `nt_string_ops.cpp`)

The comparisons of the C runtime get host copies of both strings, those of the executive read counted strings. Where the
case matters they are the host library's, which takes the units as unsigned; where it does not, a loop of the emulator's
own compares a `char` as it is, with its sign. Of what a comparison returns, only the sign means something.
-/

namespace Kernemul.StringCompare

open ByteMemory Text GuestStrings CharType Lexicographic
open Std (LawfulEqCmp ReflCmp TransCmp)

variable {T : Type} [DecidableEq T] [CharType T]

def sign (r : Int) : Ordering := compare r 0

def byCode (c d : T) : Ordering := compare (code c) (code d)

def byValue (c d : T) : Ordering := compare (value c) (value d)

/-- A number of the sign, which is all that is said of what `std::strcmp` returns. -/
def ofOrdering : Ordering → Int
  | .lt => -1
  | .eq => 0
  | .gt => 1

/-- `std::basic_string::compare`, and `std::strcmp` of texts without terminators. -/
def hostCompare (a b : List T) : Int := ofOrdering (a.compareLex byCode b)

def asciiLower (c : T) : T := if 0x41 ≤ code c ∧ code c ≤ 0x5a then ofCode (code c + 0x20) else c

/-- `compare_ascii_nocase` of two arrays that have at least `count` units. -/
def compareAsciiNocase : Nat → List T → List T → Int
  | count + 1, x :: a, y :: b =>
    let ca := asciiLower x
    let cb := asciiLower y
    if ca ≠ cb then (if value ca < value cb then -1 else 1) else compareAsciiNocase count a b
  | _, _, _ => 0

/-- `compare_ascii_nocase` of two views. -/
def compareViewsNocase (a b : List T) : Int :=
  let diff := compareAsciiNocase (min a.length b.length) a b
  if diff ≠ 0 then diff else if a.length = b.length then 0 else if a.length < b.length then -1 else 1

def cStr (s : List T) : List T := s ++ [nul]

/-! ## The handlers -/

def strcmp (str1 str2 : Str) : Int := hostCompare str1 str2

def strncmp (str1 str2 : Str) (count : Nat) : Int := hostCompare (str1.take count) (str2.take count)

def stricmp (str1 str2 : Str) : Int := compareViewsNocase str1 str2

def strnicmp (str1 str2 : Str) (count : Nat) : Int :=
  compareAsciiNocase (min count (min str1.length str2.length + 1)) (cStr str1) (cStr str2)

def wcscmp (str1 str2 : WStr) : Int := hostCompare str1 str2

def wcsncmp (str1 str2 : WStr) (count : Nat) : Int :=
  let n := min count (min str1.length str2.length + 1)
  hostCompare (str1.take n) (str2.take n)

def wcsicmp (str1 str2 : WStr) : Int := compareViewsNocase str1 str2

def wcsnicmp (str1 str2 : WStr) (count : Nat) : Int :=
  compareAsciiNocase (min count (min str1.length str2.length + 1)) (cStr str1) (cStr str2)

def compareUnicode (a b : WStr) (caseInsensitive : Bool) : Int :=
  if caseInsensitive then compareViewsNocase a b else hostCompare a b

def rtlCompareUnicodeString (mem : Memory) (string1 string2 : Option CountedString) (caseInsensitive : UInt8) : Int :=
  compareUnicode (readUnicodeString mem string1) (readUnicodeString mem string2) (caseInsensitive != 0)

def rtlCompareString (mem : Memory) (string1 string2 : Option CountedString) (caseInsensitive : UInt8) : Int :=
  let a := readAnsiString mem string1
  let b := readAnsiString mem string2
  let r := if caseInsensitive != 0 then compareAsciiNocase (min a.length b.length) a b else hostCompare a b
  if r ≠ 0 then r else (a.length : Int) - b.length

/-! ## What they are to be -/

/-- The lexicographic order of the units as unsigned numbers, a proper prefix first. -/
def order (a b : List T) : Ordering := a.compareLex byCode b

def fold (s : List T) : List T := s.map asciiLower

def Letter (c : T) : Prop := (0x41 ≤ code c ∧ code c ≤ 0x5a) ∨ (0x61 ≤ code c ∧ code c ≤ 0x7a)

structure Family (T : Type) where
  plain : List T → List T → Int
  plainCounted : List T → List T → Nat → Int
  nocase : List T → List T → Int
  nocaseCounted : List T → List T → Nat → Int

def narrow : Family UInt8 := ⟨strcmp, strncmp, stricmp, strnicmp⟩

def wide : Family UInt16 := ⟨wcscmp, wcsncmp, wcsicmp, wcsnicmp⟩

/-- The comparisons are one order on two strings, and on the first `n` units of them. -/
structure Family.OneOrder (F : Family T) {mem : Memory} (a b : GuestString T mem) (n : Nat) : Prop where
  plain : sign (F.plain (arg a) (arg b)) = order a.units b.units
  nocase : sign (F.nocase (arg a) (arg b)) = order (fold a.units) (fold b.units)
  plainCounted : ∀ {mem'} (a' b' : GuestString T mem'), a'.units = a.units.take n → b'.units = b.units.take n →
    sign (F.plainCounted (arg a) (arg b) n) = sign (F.plain (arg a') (arg b'))
  nocaseCounted : ∀ {mem'} (a' b' : GuestString T mem'), a'.units = a.units.take n → b'.units = b.units.take n →
    sign (F.nocaseCounted (arg a) (arg b) n) = sign (F.nocase (arg a') (arg b'))
  letterless : (∀ c ∈ a.units ++ b.units, ¬ Letter c) → sign (F.nocase (arg a) (arg b)) = sign (F.plain (arg a) (arg b))
  letterlessCounted : (∀ c ∈ a.units ++ b.units, ¬ Letter c) →
    sign (F.nocaseCounted (arg a) (arg b) n) = sign (F.plainCounted (arg a) (arg b) n)

structure Family.Lawful (F : Family T) (mem : Memory) : Prop where
  plain : TransCmp fun a b : GuestString T mem => sign (F.plain (arg a) (arg b))
  plainCounted : ∀ n, TransCmp fun a b : GuestString T mem => sign (F.plainCounted (arg a) (arg b) n)
  nocase : TransCmp fun a b : GuestString T mem => sign (F.nocase (arg a) (arg b))
  nocaseCounted : ∀ n, TransCmp fun a b : GuestString T mem => sign (F.nocaseCounted (arg a) (arg b) n)

/-- A comparison of counted strings is the order of their units, folded if it is asked for. -/
structure CountedOrder (units : Option CountedString → List T)
    (compare : Option CountedString → Option CountedString → UInt8 → Int) (a b : Option CountedString) : Prop where
  plain : sign (compare a b 0) = order (units a) (units b)
  nocase : ∀ ci, ci ≠ 0 → sign (compare a b ci) = order (fold (units a)) (fold (units b))
  letterless : (∀ c ∈ units a ++ units b, ¬ Letter c) → ∀ ci, sign (compare a b ci) = sign (compare a b 0)

/-! ## Signs -/

@[simp] theorem sign_ofOrdering (o : Ordering) : sign (ofOrdering o) = o := by cases o <;> rfl

theorem sign_hostCompare (a b : List T) : sign (hostCompare a b) = order a b := sign_ofOrdering _

theorem sign_orElse (r d : Int) : sign (if r ≠ 0 then r else d) = (sign r).then (sign d) := by
  unfold sign
  split_ifs with h
  · rcases lt_or_gt_of_ne h with hlt | hgt
    · rw [compare_lt_iff_lt.mpr hlt]; rfl
    · rw [compare_gt_iff_gt.mpr hgt]; rfl
  · rw [not_not.mp h, compare_eq_iff_eq.mpr rfl, Ordering.eq_then]

theorem sign_sub (m n : Nat) : sign ((m : Int) - n) = compare m n := by
  unfold sign
  rcases Nat.lt_trichotomy m n with h | h | h
  · rw [compare_lt_iff_lt.mpr h, compare_lt_iff_lt]
    omega
  · rw [compare_eq_iff_eq.mpr h, compare_eq_iff_eq]
    omega
  · rw [compare_gt_iff_gt.mpr h, compare_gt_iff_gt]
    omega

theorem sign_lengths (m n : Nat) : sign (if m = n then 0 else if m < n then -1 else 1) = compare m n := by
  rcases Nat.lt_trichotomy m n with h | h | h
  · rw [if_neg (Nat.ne_of_lt h), if_pos h, compare_lt_iff_lt.mpr h]; rfl
  · rw [if_pos h, compare_eq_iff_eq.mpr h]; rfl
  · rw [if_neg (Nat.ne_of_gt h), if_neg (Nat.lt_asymm h), compare_gt_iff_gt.mpr h]; rfl

/-! ## Units -/

instance : LawfulEqCmp (byCode : T → T → Ordering) := lawfulEqCmp_of_eq code_injective fun _ _ => rfl

instance : LawfulEqCmp (byValue : T → T → Ordering) := lawfulEqCmp_of_eq value_injective fun _ _ => rfl

instance : TransCmp (byCode : T → T → Ordering) := transCmp_of_eq code fun _ _ => rfl

instance : TransCmp (byValue : T → T → Ordering) := transCmp_of_eq value fun _ _ => rfl

theorem asciiLower_eq_nul {c : T} (h : asciiLower c = nul) : c = nul := by
  unfold asciiLower at h
  split_ifs at h with hupper
  · have hcode := congrArg code h
    rw [code_ofCode _ (by omega), code_nul] at hcode
    omega
  · exact h

theorem asciiLower_of_not_letter {c : T} (h : ¬ Letter c) : asciiLower c = c := if_neg fun hupper => h (.inl hupper)

theorem nul_notMem_fold {s : List T} (h : nul ∉ s) : nul ∉ fold s := by
  intro hmem
  obtain ⟨c, hc, hlower⟩ := List.mem_map.mp hmem
  exact h (asciiLower_eq_nul hlower ▸ hc)

theorem fold_of_letterless {s : List T} (h : ∀ c ∈ s, ¬ Letter c) : fold s = s :=
  (List.map_congr_left fun c hc => asciiLower_of_not_letter (h c hc)).trans (List.map_id s)

theorem fold_take (s : List T) (n : Nat) : fold (s.take n) = (fold s).take n := List.map_take

theorem asciiLower_nul : asciiLower (nul : T) = nul := if_neg fun h => by rw [code_nul] at h; omega

theorem fold_cStr (s : List T) : fold (cStr s) = cStr (fold s) := by
  rw [fold, cStr, List.map_append, List.map_singleton, asciiLower_nul, cStr, fold]

/-! ## The loop -/

theorem compareAsciiNocase_zero (a b : List T) : compareAsciiNocase 0 a b = 0 := by cases a <;> rfl

theorem sign_compareAsciiNocase_cons (n : Nat) (x y : T) (a b : List T) :
    sign (compareAsciiNocase (n + 1) (x :: a) (y :: b)) =
      (byValue (asciiLower x) (asciiLower y)).then (sign (compareAsciiNocase n a b)) := by
  simp only [compareAsciiNocase, byValue]
  split_ifs with hne hlt
  · rw [compare_lt_iff_lt.mpr hlt]; rfl
  · have hgt := lt_of_le_of_ne (not_lt.mp hlt) fun h => hne (value_injective h.symm)
    rw [compare_gt_iff_gt.mpr hgt]; rfl
  · rw [not_not.mp hne, compare_eq_iff_eq.mpr rfl, Ordering.eq_then]

/-- Over the units that both have, the lengths decide where the loop does not. -/
theorem sign_compareAsciiNocase_min (a b : List T) :
    (sign (compareAsciiNocase (min a.length b.length) a b)).then (compare a.length b.length) =
      (fold a).compareLex byValue (fold b) := by
  induction a generalizing b with
  | nil =>
    rw [List.length_nil, Nat.zero_min, compareAsciiNocase_zero]
    cases b with
    | nil => rfl
    | cons y b =>
      rw [fold, fold, List.map_nil, List.map_cons, List.compareLex_nil_cons, List.length_cons,
        compare_lt_iff_lt.mpr (Nat.succ_pos _)]
      rfl
  | cons x a ih =>
    cases b with
    | nil =>
      rw [List.length_nil, Nat.min_zero, compareAsciiNocase_zero, fold, fold, List.map_nil, List.map_cons,
        List.compareLex_cons_nil, List.length_cons, compare_gt_iff_gt.mpr (Nat.succ_pos _)]
      rfl
    | cons y b =>
      have hlength : compare (a.length + 1) (b.length + 1) = compare a.length b.length := by
        simp only [Nat.compare_eq_ite_lt, Nat.add_lt_add_iff_right]
      rw [List.length_cons, List.length_cons, Nat.succ_min_succ, sign_compareAsciiNocase_cons, hlength,
        Ordering.then_assoc, ih]
      exact List.compareLex_cons_cons.symm

/-- Up to a count and the first terminator, the terminators are compared as units. -/
theorem sign_compareAsciiNocase_cStr {a b : List T} (ha : nul ∉ a) (hb : nul ∉ b) (n : Nat) :
    sign (compareAsciiNocase (min n (min a.length b.length + 1)) (cStr a) (cStr b)) =
      (fold (cStr (a.take n))).compareLex byValue (fold (cStr (b.take n))) := by
  have hself : (fold (cStr ([] : List T))).compareLex byValue (fold (cStr [])) = .eq := ReflCmp.compare_self
  induction n generalizing a b with
  | zero =>
    rw [Nat.zero_min, compareAsciiNocase_zero, List.take_zero, List.take_zero, hself]
    rfl
  | succ n ih =>
    cases a with
    | nil =>
      rw [List.length_nil, Nat.zero_min, Nat.min_eq_right (by omega)]
      cases b with
      | nil =>
        have hnul : byValue (asciiLower (nul : T)) (asciiLower nul) = .eq := ReflCmp.compare_self
        refine (sign_compareAsciiNocase_cons 0 (nul : T) nul [] []).trans ?_
        rw [List.take_nil, hself, hnul, compareAsciiNocase_zero]
        rfl
      | cons y b =>
        have hne : asciiLower (nul : T) ≠ asciiLower y := fun h => by
          have hy := asciiLower_eq_nul (h.symm.trans asciiLower_nul)
          exact hb (hy ▸ List.mem_cons_self)
        refine (sign_compareAsciiNocase_cons 0 nul y [] (cStr b)).trans ?_
        rw [compareAsciiNocase_zero]
        exact Ordering.then_eq.trans (compareLex_cons_of_ne hne _ _).symm
    | cons x a =>
      cases b with
      | nil =>
        rw [List.length_nil, Nat.min_zero, Nat.min_eq_right (by omega)]
        have hne : asciiLower x ≠ asciiLower (nul : T) := fun h => by
          have hx := asciiLower_eq_nul (h.trans asciiLower_nul)
          exact ha (hx ▸ List.mem_cons_self)
        refine (sign_compareAsciiNocase_cons 0 x nul (cStr a) []).trans ?_
        rw [compareAsciiNocase_zero]
        exact Ordering.then_eq.trans (compareLex_cons_of_ne hne _ _).symm
      | cons y b =>
        have hmin : min (n + 1) (min (x :: a).length (y :: b).length + 1) = min n (min a.length b.length + 1) + 1 := by
          simp only [List.length_cons]
          omega
        have ih := ih (fun h => ha (List.mem_cons_of_mem x h)) fun h => hb (List.mem_cons_of_mem y h)
        rw [hmin]
        refine (sign_compareAsciiNocase_cons _ x y (cStr a) (cStr b)).trans ?_
        rw [ih]
        exact List.compareLex_cons_cons.symm

theorem sign_compareViewsNocase (a b : List T) :
    sign (compareViewsNocase a b) = (fold a).compareLex byValue (fold b) := by
  rw [compareViewsNocase, sign_orElse, sign_lengths, sign_compareAsciiNocase_min]

/-- Behind the shorter string and its terminator there is nothing to compare. -/
theorem compareLex_take_min (a b : List T) (n : Nat) :
    (a.take (min n (min a.length b.length + 1))).compareLex byCode (b.take (min n (min a.length b.length + 1))) =
      (a.take n).compareLex byCode (b.take n) := by
  induction n generalizing a b with
  | zero => rw [Nat.zero_min]
  | succ n ih =>
    cases a with
    | nil =>
      rw [List.length_nil, Nat.zero_min, Nat.min_eq_right (by omega)]
      cases b with
      | nil => rfl
      | cons y b => rfl
    | cons x a =>
      cases b with
      | nil =>
        rw [List.length_nil, Nat.min_zero, Nat.min_eq_right (by omega)]
        rfl
      | cons y b =>
        have hmin : min (n + 1) (min (x :: a).length (y :: b).length + 1) = min n (min a.length b.length + 1) + 1 := by
          simp only [List.length_cons]
          omega
        rw [hmin]
        simp only [List.take_succ_cons, List.compareLex_cons_cons]
        rw [ih]

/-! ## Both families -/

/-- What the four comparisons of a family return, of which the two families make the same. -/
structure Family.Compares (F : Family T) : Prop where
  plain : ∀ a b, sign (F.plain a b) = a.compareLex byCode b
  plainCounted : ∀ a b n, sign (F.plainCounted a b n) = (a.take n).compareLex byCode (b.take n)
  nocase : ∀ a b, sign (F.nocase a b) = (fold a).compareLex byValue (fold b)
  nocaseCounted : ∀ a b n, nul ∉ a → nul ∉ b →
    sign (F.nocaseCounted a b n) = (cStr (fold (a.take n))).compareLex byValue (cStr (fold (b.take n)))

theorem narrow_compares : narrow.Compares where
  plain := sign_hostCompare
  plainCounted a b n := sign_hostCompare (a.take n) (b.take n)
  nocase := sign_compareViewsNocase
  nocaseCounted a b n ha hb := by rw [← fold_cStr, ← fold_cStr]; exact sign_compareAsciiNocase_cStr ha hb n

theorem wide_compares : wide.Compares where
  plain := sign_hostCompare
  plainCounted a b n := (sign_hostCompare _ _).trans (compareLex_take_min a b n)
  nocase := sign_compareViewsNocase
  nocaseCounted a b n ha hb := by rw [← fold_cStr, ← fold_cStr]; exact sign_compareAsciiNocase_cStr ha hb n

variable {mem : Memory}

theorem nul_notMem_arg (s : GuestString T mem) : nul ∉ arg s := by
  rw [arg_eq]
  exact s.nul_notMem_take maxChars

variable {F : Family T}

theorem Family.Compares.lawful (h : F.Compares) (mem : Memory) : F.Lawful mem where
  plain := transCmp_of_eq arg fun _ _ => h.plain _ _
  plainCounted n := transCmp_of_eq (fun s => (arg s).take n) fun _ _ => h.plainCounted _ _ n
  nocase := transCmp_of_eq (fun s => fold (arg s)) fun _ _ => h.nocase _ _
  nocaseCounted n := transCmp_of_eq (fun s => cStr (fold ((arg s).take n))) fun a b =>
    h.nocaseCounted _ _ n (nul_notMem_arg a) (nul_notMem_arg b)

/-- The first folded units in which two strings differ, compared as the loop does it, are in the order of the codes. -/
def ValuesInOrder (a b : List T) : Prop := ∀ p ∈ firstDiff (fold a) (fold b), byValue p.1 p.2 = byCode p.1 p.2

/-- A unit behind the shorter string comes after a terminator, compared as the loop does it. -/
def OverhangPositive (a b : List T) : Prop := ∀ c ∈ overhang (fold a) (fold b), byValue nul c = .lt

theorem Family.Compares.nocaseCounted_iff (h : F.Compares) (a b : GuestString T mem)
    (n : Nat) : (∀ {mem'} (a' b' : GuestString T mem'), a'.units = a.units.take n → b'.units = b.units.take n →
        sign (F.nocaseCounted (arg a) (arg b) n) = sign (F.nocase (arg a') (arg b'))) ↔
      OverhangPositive (a.units.take (min n maxChars)) (b.units.take (min n maxChars)) := by
  have hcut (s : GuestString T mem) : (arg s).take n = s.units.take (min n maxChars) := by rw [arg_eq, List.take_take]
  have hcut' {mem'} (s : GuestString T mem) (s' : GuestString T mem') (hs : s'.units = s.units.take n) :
      arg s' = s.units.take (min n maxChars) := by rw [arg_eq, hs, List.take_take, Nat.min_comm]
  have hnul (s : GuestString T mem) (k : Nat) := s.nul_notMem_take k
  rw [OverhangPositive, ← compareLex_terminated_iff (nul_notMem_fold (hnul a _)) (nul_notMem_fold (hnul b _)),
    h.nocaseCounted _ _ n (nul_notMem_arg a) (nul_notMem_arg b), hcut, hcut]
  constructor
  · intro hall
    obtain ⟨mem', a', b', ha', hb'⟩ := exists_guestStrings (hnul a n) (hnul b n)
    refine (hall a' b' ha' hb').trans ?_
    rw [h.nocase, hcut' a a' ha', hcut' b b' hb']
  · intro heq mem' a' b' ha' hb'
    rw [h.nocase, hcut' a a' ha', hcut' b b' hb']
    exact heq

theorem Family.Compares.nocase_iff (h : F.Compares) (a b : GuestString T mem) :
    sign (F.nocase (arg a) (arg b)) = order (fold a.units) (fold b.units) ↔
      ((fold a.units).take maxChars = (fold b.units).take maxChars → fold a.units = fold b.units) ∧
        ValuesInOrder a.units b.units := by
  rw [h.nocase, arg_eq, arg_eq, fold_take, fold_take, order, compareLex_take_eq_iff, ValuesInOrder]

theorem Family.Compares.plain_iff (h : F.Compares) (a b : GuestString T mem) :
    sign (F.plain (arg a) (arg b)) = order a.units b.units ↔
      (a.units.take maxChars = b.units.take maxChars → a.units = b.units) := by
  rw [h.plain, arg_eq, arg_eq, order, compareLex_take_eq_iff]
  exact and_iff_left fun _ _ => rfl

/-- Without letters there is nothing to fold: units in order are compared by their codes. -/
theorem compareLex_fold_of_letterless {a b : List T} (ha : ∀ c ∈ a, ¬ Letter c) (hb : ∀ c ∈ b, ¬ Letter c) (n : Nat)
    (hvalues : ValuesInOrder a b) :
    (fold (a.take n)).compareLex byValue (fold (b.take n)) = (a.take n).compareLex byCode (b.take n) := by
  rw [ValuesInOrder, fold_of_letterless ha, fold_of_letterless hb] at hvalues
  rw [fold_take, fold_take, fold_of_letterless ha, fold_of_letterless hb, compareLex_eq_iff]
  exact fun p hp => hvalues p (firstDiff_take hp)

theorem Family.Compares.oneOrder_iff (h : F.Compares) (a b : GuestString T mem) (n : Nat) : F.OneOrder a b n ↔
      (a.units.take maxChars = b.units.take maxChars → a.units = b.units) ∧
      ((fold a.units).take maxChars = (fold b.units).take maxChars → fold a.units = fold b.units) ∧
      ValuesInOrder a.units b.units ∧
      OverhangPositive (a.units.take (min n maxChars)) (b.units.take (min n maxChars)) := by
  constructor
  · intro hone
    have hnocase := (h.nocase_iff a b).mp hone.nocase
    exact ⟨(h.plain_iff a b).mp hone.plain, hnocase.1, hnocase.2, (h.nocaseCounted_iff a b n).mp hone.nocaseCounted⟩
  · rintro ⟨hplain, hnocase, hvalues, hover⟩
    refine ⟨(h.plain_iff a b).mpr hplain, (h.nocase_iff a b).mpr ⟨hnocase, hvalues⟩, ?_,
      (h.nocaseCounted_iff a b n).mpr hover, fun hletter => ?_, fun hletter => ?_⟩
    · intro mem' a' b' ha' hb'
      rw [h.plainCounted, h.plain, arg_eq, arg_eq, arg_eq, arg_eq, ha', hb', List.take_take, List.take_take,
        List.take_take, List.take_take, Nat.min_comm]
    · rw [List.forall_mem_append] at hletter
      rw [h.nocase, h.plain, arg_eq, arg_eq]
      exact compareLex_fold_of_letterless hletter.1 hletter.2 maxChars hvalues
    · rw [List.forall_mem_append] at hletter
      have hnul (s : GuestString T mem) (k : Nat) := s.nul_notMem_take k
      rw [h.nocaseCounted _ _ n (nul_notMem_arg a) (nul_notMem_arg b), h.plainCounted, arg_eq, arg_eq, List.take_take,
        List.take_take]
      refine Eq.trans ?_ (compareLex_fold_of_letterless hletter.1 hletter.2 (min n maxChars) hvalues)
      exact (compareLex_terminated_iff (nul_notMem_fold (hnul a _)) (nul_notMem_fold (hnul b _))).mpr hover

/-! ## Signed and unsigned -/

/-- The first folded bytes in which two strings differ are both below 0x80, or neither is. -/
def SameSide (a b : Str) : Prop := ∀ p ∈ firstDiff (fold a) (fold b), (p.1 < 0x80 ↔ p.2 < 0x80)

theorem value_eq (c : UInt8) : value c = if code c < 0x80 then (code c : Int) else code c - 0x100 :=
  forall_uint8 (P := fun c => value c = if code c < 0x80 then (code c : Int) else code c - 0x100) (by decide +kernel) c

theorem compare_eq_compare_iff {m n : Int} {i j : Nat} (hmn : m ≠ n) (hij : i ≠ j) :
    compare m n = compare i j ↔ (m < n ↔ i < j) := by
  rcases lt_or_gt_of_ne hmn with hm | hm <;> rcases lt_or_gt_of_ne hij with hi | hi
  · rw [compare_lt_iff_lt.mpr hm, compare_lt_iff_lt.mpr hi]
    exact iff_of_true rfl (iff_of_true hm hi)
  · rw [compare_lt_iff_lt.mpr hm, compare_gt_iff_gt.mpr hi]
    exact iff_of_false nofun fun h => Nat.lt_asymm hi (h.mp hm)
  · rw [compare_gt_iff_gt.mpr hm, compare_lt_iff_lt.mpr hi]
    exact iff_of_false nofun fun h => lt_asymm hm (h.mpr hi)
  · rw [compare_gt_iff_gt.mpr hm, compare_gt_iff_gt.mpr hi]
    exact iff_of_true rfl (iff_of_false (lt_asymm hm) (Nat.lt_asymm hi))

theorem byValue_eq_byCode_iff {c d : UInt8} (h : c ≠ d) : byValue c d = byCode c d ↔ (c < 0x80 ↔ d < 0x80) := by
  have hcode : code c ≠ code d := fun he => h (code_injective he)
  have hvalue : value c ≠ value d := fun he => h (value_injective he)
  have hc : code c < 0x100 := c.toNat_lt
  have hd : code d < 0x100 := d.toNat_lt
  rw [byValue, byCode, compare_eq_compare_iff hvalue hcode, value_eq, value_eq]
  change _ ↔ (code c < 0x80 ↔ code d < 0x80)
  split_ifs <;> omega

theorem valuesInOrder_iff (a b : Str) : ValuesInOrder a b ↔ SameSide a b :=
  forall₂_congr fun _ hp => byValue_eq_byCode_iff (firstDiff_ne hp)

theorem byValue_nul_iff {c : UInt8} (h : c ≠ nul) : byValue nul c = .lt ↔ c < 0x80 := by
  have hcode : code c ≠ 0 := fun he => h (code_injective (he.trans code_nul.symm))
  rw [byValue, compare_lt_iff_lt, value_eq, value_eq, code_nul]
  change _ ↔ code c < 0x80
  have hc : code c < 0x100 := c.toNat_lt
  split_ifs <;> omega

theorem byValue_wide : (byValue : UInt16 → UInt16 → Ordering) = byCode := by
  funext c d
  change compare (c.toNat : Int) d.toNat = compare c.toNat d.toNat
  simp only [Int.compare_eq_ite_lt, Nat.compare_eq_ite_lt, Int.ofNat_lt]

/-! ## Counted strings -/

theorem order_then_length (a b : List T) : (order a b).then (compare a.length b.length) = order a b := by
  cases h : order a b with
  | lt => rfl
  | gt => rfl
  | eq =>
    have hab : a = b := LawfulEqCmp.eq_of_compare (show a.compareLex byCode b = .eq from h)
    rw [hab, compare_eq_iff_eq.mpr rfl]
    rfl

theorem sign_rtlCompareString (mem : Memory) (string1 string2 : Option CountedString) (ci : UInt8) :
    sign (rtlCompareString mem string1 string2 ci) =
      if ci = 0 then order (readAnsiString mem string1) (readAnsiString mem string2)
      else (fold (readAnsiString mem string1)).compareLex byValue (fold (readAnsiString mem string2)) := by
  rw [rtlCompareString, sign_orElse, sign_sub]
  split_ifs with hne h0 h0
  · exact absurd h0 (bne_iff_ne.mp hne)
  · exact sign_compareAsciiNocase_min ..
  · rw [sign_hostCompare, order_then_length]
  · exact absurd (bne_iff_ne.mpr h0) hne

theorem sign_rtlCompareUnicodeString (mem : Memory) (string1 string2 : Option CountedString) (ci : UInt8) :
    sign (rtlCompareUnicodeString mem string1 string2 ci) =
      if ci = 0 then order (readUnicodeString mem string1) (readUnicodeString mem string2)
      else (fold (readUnicodeString mem string1)).compareLex byValue (fold (readUnicodeString mem string2)) := by
  rw [rtlCompareUnicodeString, compareUnicode]
  split_ifs with hne h0 h0
  · exact absurd h0 (bne_iff_ne.mp hne)
  · exact sign_compareViewsNocase ..
  · exact sign_hostCompare ..
  · exact absurd (bne_iff_ne.mpr h0) hne

def ComparesCounted (units : Option CountedString → List T)
    (compare : Option CountedString → Option CountedString → UInt8 → Int) : Prop :=
  ∀ a b ci, sign (compare a b ci) =
    if ci = 0 then order (units a) (units b) else (fold (units a)).compareLex byValue (fold (units b))

theorem ComparesCounted.order_iff {units : Option CountedString → List T}
    {compare : Option CountedString → Option CountedString → UInt8 → Int} (h : ComparesCounted units compare)
    (a b : Option CountedString) : CountedOrder units compare a b ↔ ValuesInOrder (units a) (units b) := by
  have hplain : sign (compare a b 0) = order (units a) (units b) := by rw [h, if_pos rfl]
  have hnocase (ci : UInt8) (hci : ci ≠ 0) :
      sign (compare a b ci) = (fold (units a)).compareLex byValue (fold (units b)) := by rw [h, if_neg hci]
  rw [ValuesInOrder, ← compareLex_eq_iff]
  constructor
  · intro hcounted
    exact (hnocase 1 (by decide)).symm.trans (hcounted.nocase 1 (by decide))
  · intro heq
    refine ⟨hplain, fun ci hci => (hnocase ci hci).trans heq, fun hletter ci => ?_⟩
    rw [List.forall_mem_append] at hletter
    by_cases hci : ci = 0
    · rw [hci]
    · rw [hnocase ci hci, heq, hplain, fold_of_letterless hletter.1, fold_of_letterless hletter.2, order]

theorem ComparesCounted.transCmp {units : Option CountedString → List T}
    {compare : Option CountedString → Option CountedString → UInt8 → Int} (h : ComparesCounted units compare)
    (ci : UInt8) : TransCmp fun a b => sign (compare a b ci) := by
  by_cases hci : ci = 0
  · exact transCmp_of_eq units fun a b => by rw [h, if_pos hci, order]
  · exact transCmp_of_eq (fun a => fold (units a)) fun a b => by rw [h, if_neg hci]

/-! ## The whole family -/

/-- Where the comparisons of narrow strings are one order: a difference is within what is copied, it is not between a
byte with the sign and one without, and no byte with the sign is compared with a terminator. -/
structure NarrowComparable (a b : Str) (n : Nat) : Prop where
  copied : a.take maxChars = b.take maxChars → a = b
  copiedFold : (fold a).take maxChars = (fold b).take maxChars → fold a = fold b
  sameSide : SameSide a b
  overhang : ∀ c ∈ overhang (fold (a.take (min n maxChars))) (fold (b.take (min n maxChars))), c < 0x80

/-- Where the comparisons of wide strings are: a difference is within what is copied. -/
structure WideComparable (a b : WStr) : Prop where
  copied : a.take maxChars = b.take maxChars → a = b
  copiedFold : (fold a).take maxChars = (fold b).take maxChars → fold a = fold b

theorem narrow_oneOrder_iff (a b : GuestString UInt8 mem) (n : Nat) :
    narrow.OneOrder a b n ↔ NarrowComparable a.units b.units n := by
  have hover : OverhangPositive (a.units.take (min n maxChars)) (b.units.take (min n maxChars)) ↔
      ∀ c ∈ overhang (fold (a.units.take (min n maxChars))) (fold (b.units.take (min n maxChars))), c < 0x80 := by
    refine forall₂_congr fun c hc => byValue_nul_iff fun hnul => ?_
    rcases List.mem_append.mp (hnul ▸ mem_of_mem_overhang hc) with hmem | hmem
    · exact nul_notMem_fold (a.nul_notMem_take _) hmem
    · exact nul_notMem_fold (b.nul_notMem_take _) hmem
  rw [narrow_compares.oneOrder_iff, valuesInOrder_iff, hover]
  exact ⟨fun h => ⟨h.1, h.2.1, h.2.2.1, h.2.2.2⟩, fun h => ⟨h.copied, h.copiedFold, h.sameSide, h.overhang⟩⟩

theorem wide_oneOrder_iff (a b : GuestString UInt16 mem) (n : Nat) :
    wide.OneOrder a b n ↔ WideComparable a.units b.units := by
  have hover : OverhangPositive (a.units.take (min n maxChars)) (b.units.take (min n maxChars)) := by
    intro c hc
    have hne : c ≠ nul := fun hnul => by
      rcases List.mem_append.mp (hnul ▸ mem_of_mem_overhang hc) with hmem | hmem
      · exact nul_notMem_fold (a.nul_notMem_take _) hmem
      · exact nul_notMem_fold (b.nul_notMem_take _) hmem
    have hcode : code c ≠ 0 := fun he => hne (code_injective (he.trans code_nul.symm))
    rw [byValue_wide, byCode, code_nul, compare_lt_iff_lt]
    exact Nat.pos_of_ne_zero hcode
  have hvalues : ValuesInOrder a.units b.units := fun p _ => by rw [byValue_wide]
  rw [wide_compares.oneOrder_iff]
  exact ⟨fun h => ⟨h.1, h.2.1⟩, fun h => ⟨h.copied, h.copiedFold, hvalues, hover⟩⟩

theorem one_order_iff (mem : Memory) :
    (∀ (a b : GuestString UInt8 mem) (n : Nat), narrow.OneOrder a b n ↔ NarrowComparable a.units b.units n) ∧
    (∀ (a b : GuestString UInt16 mem) (n : Nat), wide.OneOrder a b n ↔ WideComparable a.units b.units) ∧
    (∀ a b : Option CountedString, CountedOrder (readAnsiString mem) (rtlCompareString mem) a b ↔
      SameSide (readAnsiString mem a) (readAnsiString mem b)) ∧
    (∀ a b : Option CountedString, CountedOrder (readUnicodeString mem) (rtlCompareUnicodeString mem) a b) ∧
    narrow.Lawful mem ∧ wide.Lawful mem ∧
    ∀ ci, (TransCmp fun a b => sign (rtlCompareString mem a b ci)) ∧
      TransCmp fun a b => sign (rtlCompareUnicodeString mem a b ci) := by
  have hansi : ComparesCounted (readAnsiString mem) (rtlCompareString mem) := sign_rtlCompareString mem
  have hunicode : ComparesCounted (readUnicodeString mem) (rtlCompareUnicodeString mem) :=
    sign_rtlCompareUnicodeString mem
  refine ⟨narrow_oneOrder_iff, wide_oneOrder_iff, fun a b => ?_, fun a b => ?_, narrow_compares.lawful mem,
    wide_compares.lawful mem, fun ci => ⟨hansi.transCmp ci, hunicode.transCmp ci⟩⟩
  · rw [hansi.order_iff, valuesInOrder_iff]
  · exact (hunicode.order_iff a b).mpr fun p _ => by rw [byValue_wide]

/-! ## A byte with the sign -/

def twoStrings : Memory := writeMem (fun _ => 0) 1 [0x80, 0, 0x61, 0]

def signedByte : GuestString UInt8 twoStrings := ⟨1, [0x80], by decide, by decide, by decide⟩

def letterByte : GuestString UInt8 twoStrings := ⟨3, [0x61], by decide, by decide, by decide⟩

/-- `_stricmp` puts 0x80 before the letter a, and `strcmp` behind it. -/
theorem signedByte_not_in_order : ¬ narrow.OneOrder signedByte letterByte 1 := by
  intro h
  have hnocase := h.nocase
  rw [arg_eq, arg_eq] at hnocase
  revert hnocase
  decide

end Kernemul.StringCompare
