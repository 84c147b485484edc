import Kernemul.Win.Unwind.Arm64.Replay

/-!
# Code arrays

The bytes of a list of codes, and what the unwinder makes of an array that holds them: it reads the codes
back, counts the instructions of an epilogue, and finds the code of each of them.
-/

namespace Kernemul.Unwind.Arm64

open Stack

def Op.encode : Op → List Nat
  | allocS x => [x]
  | saveR19R20X z => [0x20 + z]
  | saveFplr z => [0x40 + z]
  | saveFplrX z => [0x80 + z]
  | allocM x => [0xC0 + x / 256, x % 256]
  | saveRegp x z => [0xC8 + x / 4, x % 4 * 64 + z]
  | saveRegpX x z => [0xCC + x / 4, x % 4 * 64 + z]
  | saveReg x z => [0xD0 + x / 4, x % 4 * 64 + z]
  | saveRegX x z => [0xD4 + x / 8, x % 8 * 32 + z]
  | saveLrpair x z => [0xD6 + x / 4, x % 4 * 64 + z]
  | saveFregp x z => [0xD8 + x / 4, x % 4 * 64 + z]
  | saveFregpX x z => [0xDA + x / 4, x % 4 * 64 + z]
  | saveFreg x z => [0xDC + x / 4, x % 4 * 64 + z]
  | saveFregX x z => [0xDE, x * 32 + z]
  | allocL x => [0xE0, x / 2 ^ 16, x / 2 ^ 8 % 256, x % 256]
  | setFp => [0xE1]
  | addFp x => [0xE2, x]
  | nop => [0xE3]
  | saveNext => [0xE6]

/-- The bytes of codes, up to an `end`. -/
def encode (ops : List Op) : List Nat := ops.flatMap Op.encode ++ [0xE4]

theorem length_encode_pos (op : Op) : 0 < op.encode.length := by cases op <;> simp [Op.encode]

theorem encode_cons (op : Op) (ops : List Op) : encode (op :: ops) = op.encode ++ encode ops := by
  rw [encode, List.flatMap_cons, List.append_assoc]
  rfl

theorem length_encode (op : Op) (ops : List Op) :
    (encode (op :: ops)).length = op.encode.length + (encode ops).length := by
  rw [encode_cons, List.length_append]

theorem length_le_encode (ops : List Op) : ops.length + 1 ≤ (encode ops).length := by
  induction ops with
  | nil => exact le_refl _
  | cons op ops ih =>
    have := length_encode_pos op
    rw [length_encode, List.length_cons]
    omega

section
variable {codes : Nat → Nat} {i : Nat}

theorem decode_encode {op : Op} (h : HoldsAt codes i op.encode) {size : Nat}
    (hsize : i + op.encode.length ≤ size) : decode codes i size = (.op op, op.encode.length) := by
  cases op <;>
    simp only [Op.encode, holdsAt_cons, List.length_cons, List.length_nil, Nat.add_assoc,
      Nat.reduceAdd] at h hsize ⊢
  case setFp | nop | saveNext => simp [decode, h]
  case addFp x =>
    simp only [decode, h, if_pos (show i + 1 < size from hsize)]
    simp
  case allocL x =>
    simp only [decode, h, Nat.reduceDiv, Nat.reduceEqDiff, if_true, if_false, Prod.mk.injEq,
      Code.op.injEq, Op.allocL.injEq, and_true]
    apply Fin.ext
    rw [Fin.val_ofNat]
    omega
  case allocS x | saveR19R20X x | saveFplr x | saveFplrX x =>
    rw [decode, h.1]
    clear h hsize
    repeat rw [if_neg (by omega)]
    rw [if_pos (by omega)]
    congr
    apply Fin.ext
    rw [Fin.val_ofNat]
    omega
  all_goals
    rw [decode, h.1, h.2.1, if_pos (show i + 1 < size from hsize)]
    clear h hsize
    repeat rw [if_neg (by omega)]
    rw [if_pos (by omega)]
    congr <;>
    · apply Fin.ext
      rw [Fin.val_ofNat]
      omega

theorem codeLen_encode {op : Op} (h : HoldsAt codes i op.encode) :
    codeLen (codes i) = op.encode.length ∧ codes i ≠ 0xE4 ∧ codes i ≠ 0xE5 := by
  cases op <;>
    simp only [Op.encode, holdsAt_cons, List.length_cons, List.length_nil, Nat.reduceAdd] at h ⊢
  case setFp | nop | saveNext | addFp | allocL | saveFregX => simp [codeLen, h]
  case allocS x | saveR19R20X x | saveFplr x | saveFplrX x =>
    rw [codeLen, h.1]
    refine ⟨?_, by omega, by omega⟩
    repeat rw [if_neg (by omega)]
    rw [if_pos (by omega)]
  all_goals
    rw [codeLen, h.1]
    clear h
    refine ⟨?_, by omega, by omega⟩
    repeat rw [if_neg (by omega)]

theorem runCodes_encode (mem : Mem) {ops : List Op} (h : HoldsAt codes i (encode ops)) {size : Nat}
    (hsize : i + (encode ops).length ≤ size) {fuel : Nat} (hfuel : ops.length < fuel)
    (ctx : UnwindContext) (last : Pair) :
    runCodes mem codes size fuel i ctx last = (true, (replayList mem ops ctx last).1) := by
  induction ops generalizing i fuel ctx last with
  | nil =>
    obtain ⟨fuel, rfl⟩ := Nat.exists_eq_add_of_lt hfuel
    have hlt : i < size := hsize
    have hend : codes i = 0xE4 := (holdsAt_cons.mp h).1
    rw [runCodes, if_pos hlt]
    simp [decode, hend, replayList]
  | cons op ops ih =>
    obtain ⟨fuel, rfl⟩ := Nat.exists_eq_add_of_lt hfuel
    have hpos := length_encode_pos op
    rw [encode_cons, holdsAt_append] at h
    rw [length_encode] at hsize
    rw [runCodes, if_pos (by omega), decode_encode h.1 (by omega)]
    exact ih h.2 (by omega) (by rw [List.length_cons]; omega) _ _

theorem extent_encode {ops : List Op} (h : HoldsAt codes i (encode ops)) {total : Nat}
    (htotal : i + (encode ops).length ≤ total) {fuel : Nat} (hfuel : ops.length < fuel) :
    extent codes total fuel i = ops.length + 1 := by
  induction ops generalizing i fuel with
  | nil =>
    obtain ⟨fuel, rfl⟩ := Nat.exists_eq_add_of_lt hfuel
    have hlt : i < total := htotal
    rw [extent, if_pos hlt, if_pos (.inl (holdsAt_cons.mp h).1)]
    rfl
  | cons op ops ih =>
    obtain ⟨fuel, rfl⟩ := Nat.exists_eq_add_of_lt hfuel
    have hpos := length_encode_pos op
    rw [encode_cons, holdsAt_append] at h
    rw [length_encode] at htotal
    obtain ⟨hlen, h4, h5⟩ := codeLen_encode h.1
    rw [extent, if_pos (by omega), if_neg (not_or.mpr ⟨h4, h5⟩), hlen, List.length_cons,
      ih h.2 (by omega) (by omega)]

theorem skipCodes_encode {ops : List Op} (h : HoldsAt codes i (encode ops)) {total : Nat}
    (htotal : i + (encode ops).length ≤ total) {k : Nat} (hk : k ≤ ops.length) :
    HoldsAt codes (skipCodes codes total k i) (encode (ops.drop k)) ∧
      skipCodes codes total k i + (encode (ops.drop k)).length ≤ total := by
  induction k generalizing i ops with
  | zero => exact ⟨h, htotal⟩
  | succ k ih =>
    cases ops with
    | nil => exact absurd hk (Nat.not_succ_le_zero k)
    | cons op ops =>
      have hpos := length_encode_pos op
      rw [encode_cons, holdsAt_append] at h
      rw [length_encode] at htotal
      rw [skipCodes, if_pos (by omega), (codeLen_encode h.1).1, List.drop_succ_cons]
      exact ih h.2 (by omega) (Nat.le_of_succ_le_succ hk)

end

end Kernemul.Unwind.Arm64
