import Mathlib.Data.Nat.Bitwise
import Mathlib.Tactic.Common

/-!
# Addresses, pages and protections

`addr_t` and `std::size_t` are natural numbers; where a sum can leave 64 bits, `wrap` takes it back.
Both guest architectures use pages of `0x1000` bytes.
-/

namespace Kernemul

def wrap (n : Nat) : Nat := n % 2 ^ 64

theorem wrap_of_lt {n : Nat} (h : n < 2 ^ 64) : wrap n = n := Nat.mod_eq_of_lt h

def pageSize : Nat := 0x1000

/-- `addr & ~(page_size() - 1)`. -/
def pageAlign (a : Nat) : Nat := a - a % pageSize

/-- `(size + page_size() - 1) & ~(page_size() - 1)`. -/
def sizeAlign (n : Nat) : Nat := pageAlign (wrap (n + (pageSize - 1)))

/-- `(a + mask) & ~mask` on 64 bits. -/
def alignMask (a mask : Nat) : Nat := wrap (a + mask) &&& (2 ^ 64 - 1 - mask)

/-- `mem_prot`, one field a flag. -/
structure MemProt where
  read : Bool := false
  write : Bool := false
  exec : Bool := false
  supervisor : Bool := false
  deriving DecidableEq, Repr

def protNone : MemProt := {}
def protRead : MemProt := { read := true }
def protExec : MemProt := { exec := true }
def protRw : MemProt := { read := true, write := true }
def protRx : MemProt := { read := true, exec := true }
def protRwx : MemProt := { read := true, write := true, exec := true }

/-- Where a handler is to write a result: nowhere, or to memory that is mapped or is not. -/
inductive Operand
  | null
  | mapped
  | unmapped
  deriving DecidableEq, Repr

/-- `a` is the address of a page. -/
def IsPage (a : Nat) : Prop := a % pageSize = 0

instance (a : Nat) : Decidable (IsPage a) := inferInstanceAs (Decidable (a % pageSize = 0))

theorem isPage_pageAlign (a : Nat) : IsPage (pageAlign a) := by
  unfold IsPage pageAlign pageSize
  omega

theorem pageAlign_le (a : Nat) : pageAlign a ≤ a := Nat.sub_le _ _

theorem lt_pageAlign_add (a : Nat) : a < pageAlign a + pageSize := by
  unfold pageAlign pageSize
  omega

theorem pageAlign_of_isPage {a : Nat} (h : IsPage a) : pageAlign a = a := by
  unfold IsPage at h
  simp [pageAlign, h]

theorem IsPage.le_pageAlign {a b : Nat} (ha : IsPage a) (hle : a ≤ b) : a ≤ pageAlign b := by
  unfold IsPage at ha
  unfold pageAlign pageSize at *
  omega

theorem isPage_sizeAlign (n : Nat) : IsPage (sizeAlign n) := isPage_pageAlign _

theorem sizeAlign_spec {n : Nat} (h : n + (pageSize - 1) < 2 ^ 64) :
    n ≤ sizeAlign n ∧ sizeAlign n < n + pageSize := by
  rw [sizeAlign, wrap_of_lt h]
  unfold pageAlign pageSize
  omega

theorem IsPage.add {a b : Nat} (ha : IsPage a) (hb : IsPage b) : IsPage (a + b) := by
  unfold IsPage pageSize at *
  omega

theorem IsPage.sub {a b : Nat} (ha : IsPage a) (hb : IsPage b) : IsPage (a - b) := by
  unfold IsPage pageSize at *
  omega

theorem isPage_pageSize : IsPage pageSize := rfl

theorem IsPage.add_le_of_lt {a b : Nat} (ha : IsPage a) (hb : IsPage b) (h : a < b) :
    a + pageSize ≤ b := by
  unfold IsPage pageSize at *
  omega

theorem IsPage.eq_of_within {a b : Nat} (ha : IsPage a) (hb : IsPage b) (h1 : b ≤ a)
    (h2 : a < b + pageSize) : a = b := by
  unfold IsPage pageSize at *
  omega

theorem and_low_zero (m n : Nat) (hm : m < 2 ^ n) : m &&& (2 ^ n - 1 - m) = 0 := by
  apply Nat.eq_of_testBit_eq
  intro i
  rw [Nat.testBit_and, show 2 ^ n - 1 - m = 2 ^ n - (m + 1) by omega,
    Nat.testBit_two_pow_sub_succ hm]
  cases m.testBit i <;> simp

/-- Whatever the mask, rounding a page address up with it answers a page address: the low bits of
`a + mask` are those of `mask`. -/
theorem isPage_alignMask {a mask : Nat} (ha : IsPage a) (hm : mask < 2 ^ 64) :
    IsPage (alignMask a mask) := by
  unfold IsPage alignMask wrap pageSize at *
  rw [show (0x1000 : Nat) = 2 ^ 12 from rfl] at *
  have h1 : (a + mask) % 2 ^ 64 % 2 ^ 12 = mask % 2 ^ 12 := by omega
  have h2 : (2 ^ 64 - 1 - mask) % 2 ^ 12 = 2 ^ 12 - 1 - mask % 2 ^ 12 := by omega
  rw [Nat.and_mod_two_pow, h1, h2]
  exact and_low_zero _ 12 (Nat.mod_lt _ (by decide))

theorem alignMask_low (a : Nat) {k : Nat} (hk : k ≤ 64) :
    alignMask a (2 ^ k - 1) = wrap (a + (2 ^ k - 1)) - wrap (a + (2 ^ k - 1)) % 2 ^ k := by
  unfold alignMask
  have hlt : wrap (a + (2 ^ k - 1)) < 2 ^ 64 := Nat.mod_lt _ (by decide)
  generalize wrap (a + (2 ^ k - 1)) = x at *
  have hpow : 0 < 2 ^ k := Nat.two_pow_pos k
  have hle : 2 ^ k ≤ 2 ^ 64 := Nat.pow_le_pow_right (by decide) hk
  have hdiv : x - x % 2 ^ k = 2 ^ k * (x / 2 ^ k) := by
    have := Nat.div_add_mod x (2 ^ k)
    omega
  rw [hdiv]
  apply Nat.eq_of_testBit_eq
  intro i
  rw [Nat.testBit_and, show 2 ^ 64 - 1 - (2 ^ k - 1) = 2 ^ 64 - (2 ^ k - 1 + 1) by omega,
    Nat.testBit_two_pow_sub_succ (by omega), Nat.testBit_two_pow_sub_one,
    Nat.testBit_two_pow_mul, Nat.testBit_div_two_pow]
  by_cases hik : k ≤ i
  · rw [Nat.sub_add_cancel hik]
    by_cases hi : i < 64
    · simp [hik, hi]
    · have : x.testBit i = false := Nat.testBit_lt_two_pow
        (lt_of_lt_of_le hlt (Nat.pow_le_pow_right (by decide) (by omega)))
      simp [this]
  · simp [hik, Nat.lt_of_not_le hik]

end Kernemul
