import Mathlib.Tactic.Common
import Mathlib.Tactic.Ring

/-!
# Bytes

Numbers and texts of 16-bit units as bytes, the low byte first, and reading them back: a record is the bytes of its
fields one after the other, and a field is found where the widths of those before it end.
-/

namespace Bytes

/-- The `k` low bytes of a number. -/
def ofNat : ℕ → ℕ → List UInt8
  | 0, _ => []
  | k + 1, n => UInt8.ofNat n :: ofNat k (n / 256)

def toNat : List UInt8 → ℕ
  | [] => 0
  | b :: bs => b.toNat + 256 * toNat bs

@[simp] theorem length_ofNat (k n : ℕ) : (ofNat k n).length = k := by
  induction k generalizing n with
  | zero => rfl
  | succ k ih => rw [ofNat, List.length_cons, ih]

theorem toNat_ofNat (k n : ℕ) : toNat (ofNat k n) = n % 256 ^ k := by
  induction k generalizing n with
  | zero => exact (Nat.mod_one n).symm
  | succ k ih => rw [ofNat, toNat, ih, pow_succ', Nat.mod_mul, UInt8.toNat_ofNat']

theorem toNat_lt (bs : List UInt8) : toNat bs < 256 ^ bs.length := by
  induction bs with
  | nil => exact Nat.one_pos
  | cons b bs ih =>
    have hb := b.toNat_lt
    rw [toNat, List.length_cons, pow_succ']
    omega

variable {n : ℕ}

theorem toNat_ofNat_of_lt {k : ℕ} (h : n < 256 ^ k) : toNat (ofNat k n) = n := by
  rw [toNat_ofNat, Nat.mod_eq_of_lt h]

/-! ## Reading -/

/-- The `n` bytes at `off`, if they are all there. -/
def slice (bs : List UInt8) (off n : ℕ) : Option (List UInt8) :=
  if off + n ≤ bs.length then some ((bs.drop off).take n) else none

variable {bs : List UInt8} {off : ℕ}

theorem slice_eq_some (h : off + n ≤ bs.length) :
    slice bs off n = some ((bs.drop off).take n) := if_pos h

theorem slice_append (a b c : List UInt8) : slice (a ++ (b ++ c)) a.length b.length = some b := by
  rw [slice_eq_some (by simp only [List.length_append]; omega), List.drop_left, List.take_left]

theorem slice_of_append {a b c : List UInt8} (h : bs = a ++ (b ++ c)) (ha : a.length = off)
    (hb : b.length = n) : slice bs off n = some b := by
  subst h ha hb
  exact slice_append a b c

theorem length_slice {r : List UInt8} (h : slice bs off n = some r) : r.length = n := by
  unfold slice at h
  split at h
  · obtain rfl := Option.some.inj h
    rw [List.length_take, List.length_drop]
    omega
  · cases h

theorem slice_inside {r : List UInt8} (h : slice bs off n = some r) : off + n ≤ bs.length := by
  unfold slice at h
  split at h
  · assumption
  · cases h

/-- The number of `k` bytes at `off`. -/
def num (bs : List UInt8) (off k : ℕ) : Option ℕ := (slice bs off k).map toNat

theorem num_eq_some {k : ℕ} (h : off + k ≤ bs.length) :
    num bs off k = some (toNat ((bs.drop off).take k)) := by
  rw [num, slice_eq_some h, Option.map_some]

/-! ## Overwriting -/

/-- Puts bytes in the place of those at `off`, if there are so many. -/
def patch (m : List UInt8) (off : ℕ) (bs : List UInt8) : Option (List UInt8) :=
  if off + bs.length ≤ m.length then some (m.take off ++ (bs ++ m.drop (off + bs.length))) else none

variable {m : List UInt8}

theorem patch_isSome : (patch m off bs).isSome ↔ off + bs.length ≤ m.length := by
  unfold patch
  split_ifs with h
  · exact iff_of_true rfl h
  · exact iff_of_false nofun h

theorem length_patch {m' : List UInt8} (h : patch m off bs = some m') : m'.length = m.length := by
  unfold patch at h
  split_ifs at h with hle
  obtain rfl := Option.some.inj h
  simp only [List.length_append, List.length_take, List.length_drop]
  omega

theorem patch_append {a b : List UInt8} (h : b.length = bs.length) :
    patch (a ++ b) a.length bs = some (a ++ bs) := by
  rw [patch, if_pos (by rw [List.length_append, h]), List.take_left, ← h, ← List.length_append, List.drop_length,
    List.append_nil]

theorem patch_between {a b c : List UInt8} (h : b.length = bs.length) :
    patch (a ++ (b ++ c)) a.length bs = some (a ++ (bs ++ c)) := by
  rw [patch, if_pos (by simp only [List.length_append]; omega), List.take_left, ← h, ← List.drop_drop, List.drop_left,
    List.drop_left]

theorem getElem?_patch_add {m' : List UInt8} (h : patch m off bs = some m') {i : ℕ}
    (hi : i < bs.length) : m'[off + i]? = bs[i]? := by
  unfold patch at h
  split_ifs at h with hle
  obtain rfl := Option.some.inj h
  have htake : (m.take off).length = off := by
    rw [List.length_take]
    omega
  rw [List.getElem?_append_right (by omega), htake, Nat.add_sub_cancel_left, List.getElem?_append_left hi]

theorem getElem?_patch_of_out {m' : List UInt8} (h : patch m off bs = some m') {i : ℕ}
    (hi : i < off ∨ off + bs.length ≤ i) : m'[i]? = m[i]? := by
  unfold patch at h
  split_ifs at h with hle
  obtain rfl := Option.some.inj h
  have htake : (m.take off).length = off := by
    rw [List.length_take]
    omega
  rcases hi with hlt | hge
  · rw [List.getElem?_append_left (by omega), List.getElem?_take_of_lt hlt]
  · rw [List.getElem?_append_right (by omega), htake, List.getElem?_append_right (by omega), List.getElem?_drop]
    congr 1
    omega

/-! ## Records -/

def encode (fields : List (ℕ × ℕ)) : List UInt8 := fields.flatMap fun f => ofNat f.1 f.2

def width (fields : List (ℕ × ℕ)) : ℕ := (fields.map Prod.fst).sum

@[simp] theorem length_encode (fields : List (ℕ × ℕ)) : (encode fields).length = width fields := by
  simp [encode, width, List.length_flatMap]

theorem encode_append (fields fields' : List (ℕ × ℕ)) : encode (fields ++ fields') = encode fields ++ encode fields' :=
  List.flatMap_append

theorem num_encode (before : List (ℕ × ℕ)) (k n : ℕ) (after : List (ℕ × ℕ)) (rest : List UInt8) :
    num (encode (before ++ (k, n) :: after) ++ rest) (width before) k = some (n % 256 ^ k) := by
  have hsplit : encode (before ++ (k, n) :: after) ++ rest =
      encode before ++ (ofNat k n ++ (encode after ++ rest)) := by
    rw [encode_append, List.append_assoc]
    exact congrArg (encode before ++ ·) (List.append_assoc ..)
  rw [num, slice_of_append hsplit (length_encode before) (length_ofNat k n), Option.map_some, toNat_ofNat]

theorem num_encode_of_lt (before : List (ℕ × ℕ)) {k n : ℕ} (h : n < 256 ^ k) (after : List (ℕ × ℕ))
    (rest : List UInt8) : num (encode (before ++ (k, n) :: after) ++ rest) (width before) k = some n := by
  rw [num_encode, Nat.mod_eq_of_lt h]

/-- A field of a record that does not stand at the start, of which the widths are known. -/
theorem num_append_field {fields : List (ℕ × ℕ)} {widths : List ℕ} (hwidths : fields.map Prod.fst = widths)
    (a rest : List UInt8) {i k p : ℕ} (hfield : fields.drop i = (k, n) :: fields.drop (i + 1))
    (hp : (widths.take i).sum = p) (hn : n < 256 ^ k) :
    num (a ++ (encode fields ++ rest)) (a.length + p) k = some n := by
  have hsplit : a ++ (encode fields ++ rest) =
      (a ++ encode (fields.take i)) ++ (ofNat k n ++ (encode (fields.drop (i + 1)) ++ rest)) := by
    conv_lhs => rw [← List.take_append_drop i fields, hfield, encode_append, List.append_assoc]
    rw [← List.append_assoc a]
    exact congrArg ((a ++ encode (fields.take i)) ++ ·) (List.append_assoc ..)
  have hbefore : (a ++ encode (fields.take i)).length = a.length + p := by
    rw [List.length_append, length_encode, width, List.map_take, hwidths, hp]
  rw [num, slice_of_append hsplit hbefore (length_ofNat k n), Option.map_some, toNat_ofNat_of_lt hn]

/-! ## Texts -/

def wide (s : List UInt16) : List UInt8 := s.flatMap fun c => ofNat 2 c.toNat

def unwide : List UInt8 → List UInt16
  | a :: b :: bs => UInt16.ofNat (toNat [a, b]) :: unwide bs
  | _ => []

@[simp] theorem length_wide (s : List UInt16) : (wide s).length = 2 * s.length := by
  induction s with
  | nil => rfl
  | cons c s ih =>
    rw [wide, List.flatMap_cons, List.length_append, length_ofNat, List.length_cons]
    change 2 + (wide s).length = _
    omega

theorem unwide_wide (s : List UInt16) : unwide (wide s) = s := by
  induction s with
  | nil => rfl
  | cons c s ih =>
    have hc : UInt16.ofNat (toNat (ofNat 2 c.toNat)) = c := by
      rw [toNat_ofNat_of_lt c.toNat_lt]
      exact UInt16.ofNat_toNat
    change UInt16.ofNat (toNat (ofNat 2 c.toNat)) :: unwide (wide s) = _
    rw [hc, ih]

theorem length_unwide (bs : List UInt8) : (unwide bs).length = bs.length / 2 := by
  fun_induction unwide bs with
  | case1 a b bs ih => simp only [List.length_cons, ih]; omega
  | case2 bs h =>
    match bs, h with
    | [], _ => simp
    | [_], _ => simp
    | a :: b :: bs, h => exact absurd rfl (h a b bs)

end Bytes
