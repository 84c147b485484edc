import Mathlib.Data.BitVec
import Mathlib.Tactic.LinearCombination
import Mathlib.Tactic.Ring

/-!
# Words in byte memory, and slots below a stack pointer

A 64-bit little-endian machine: addresses wrap around, a word is eight bytes. A `Slot` lies at an offset
above a stack pointer that is some depth below a fixed address. Slots that are apart, counted without
wrapping, share no byte as long as the counts stay in 64 bits.
-/

namespace Stack

abbrev Word := BitVec 64

abbrev Mem := Word → BitVec 8

/-- The eight bytes from `a` on. -/
def read64 (m : Mem) (a : Word) : Word :=
  m (a + 7#64) ++ m (a + 6#64) ++ m (a + 5#64) ++ m (a + 4#64) ++ m (a + 3#64) ++ m (a + 2#64) ++
    m (a + 1#64) ++ m a

/-- `m` with the eight bytes from `a` on replaced. -/
def write64 (m : Mem) (a v : Word) : Mem := fun x =>
  if (x - a).toNat < 8 then v.extractLsb' (8 * (x - a).toNat) 8 else m x

/-- The four bytes from `a` on. -/
def read32 (m : Mem) (a : Word) : BitVec 32 := m (a + 3#64) ++ m (a + 2#64) ++ m (a + 1#64) ++ m a

/-- `m` with `n` bytes from `a` on replaced. -/
def writeBytes (m : Mem) (a : Word) (n : Nat) (bytes : Nat → BitVec 8) : Mem := fun x =>
  if (x - a).toNat < n then bytes (x - a).toNat else m x

/-- `m` with words from `a` on replaced. -/
def writeWords (m : Mem) (a : Word) : List Word → Mem
  | [] => m
  | v :: vs => writeWords (write64 m a v) (a + 8#64) vs

theorem read64_congr {m m' : Mem} {a : Word}
    (h : ∀ i < 8, m (a + BitVec.ofNat 64 i) = m' (a + BitVec.ofNat 64 i)) :
    read64 m a = read64 m' a := by
  have h0 := h 0 (by omega)
  rw [BitVec.add_zero] at h0
  unfold read64
  rw [h0, h 1 (by omega), h 2 (by omega), h 3 (by omega), h 4 (by omega), h 5 (by omega),
    h 6 (by omega), h 7 (by omega)]

theorem add_ofNat_sub_self (a : Word) {i : Nat} (hi : i < 2 ^ 64) :
    (a + BitVec.ofNat 64 i - a).toNat = i := by
  rw [BitVec.add_comm, BitVec.add_sub_cancel, BitVec.toNat_ofNat]
  exact Nat.mod_eq_of_lt hi

theorem write64_inside (m : Mem) (a v : Word) {i : Nat} (hi : i < 8) :
    write64 m a v (a + BitVec.ofNat 64 i) = v.extractLsb' (8 * i) 8 := by
  unfold write64
  rw [add_ofNat_sub_self a (by omega), if_pos hi]

theorem read64_write64 (m : Mem) (a v : Word) : read64 (write64 m a v) a = v := by
  have h0 := write64_inside m a v (i := 0) (by omega)
  rw [BitVec.add_zero] at h0
  unfold read64
  rw [h0, write64_inside m a v (i := 1) (by omega), write64_inside m a v (i := 2) (by omega),
    write64_inside m a v (i := 3) (by omega), write64_inside m a v (i := 4) (by omega),
    write64_inside m a v (i := 5) (by omega), write64_inside m a v (i := 6) (by omega),
    write64_inside m a v (i := 7) (by omega)]
  ext i hi
  simp only [BitVec.getElem_append, BitVec.getElem_extractLsb']
  split_ifs <;> (rw [← BitVec.getLsbD_eq_getElem]; congr 1; omega)

theorem writeWords_of_le (m : Mem) {a x : Word} {vs : List Word} (h : 8 * vs.length ≤ (x - a).toNat) :
    writeWords m a vs x = m x := by
  induction vs generalizing m a with
  | nil => rfl
  | cons v vs ih =>
    rw [List.length_cons] at h
    have hnext : (x - (a + 8#64)).toNat = (x - a).toNat - 8 := by
      rw [sub_add_eq_sub_sub, BitVec.toNat_sub_of_le]
      · rfl
      · exact le_trans (show 8 ≤ 8 * (vs.length + 1) by omega) h
    rw [writeWords, ih _ (by rw [hnext]; omega)]
    exact if_neg (by omega)

theorem read64_writeWords (m : Mem) (a : Word) {vs : List Word} (hlen : 8 * vs.length < 2 ^ 64) {k : Nat}
    {w : Word} (hk : vs[k]? = some w) : read64 (writeWords m a vs) (a + BitVec.ofNat 64 (8 * k)) = w := by
  induction vs generalizing m a k with
  | nil => cases hk
  | cons v vs ih =>
    rw [List.length_cons] at hlen
    cases k with
    | zero =>
      obtain rfl := Option.some.inj hk
      rw [writeWords, Nat.mul_zero, BitVec.add_zero]
      refine (read64_congr fun i hi => writeWords_of_le _ ?_).trans (read64_write64 m a v)
      rw [show a + BitVec.ofNat 64 i - (a + 8#64) = BitVec.ofNat 64 i - 8#64 by ring, BitVec.toNat_sub,
        BitVec.toNat_ofNat, BitVec.toNat_ofNat]
      omega
    | succ k =>
      have := ih (write64 m a v) (a + 8#64) (by omega) hk
      rw [writeWords, show 8 * (k + 1) = 8 + 8 * k by omega, BitVec.ofNat_add, ← BitVec.add_assoc]
      exact this

/-- `m` with the sixteen bytes from `a` on replaced. -/
def write128 (m : Mem) (a : Word) (v : BitVec 128) : Mem :=
  write64 (write64 m a (v.extractLsb' 0 64)) (a + 8#64) (v.extractLsb' 64 64)

theorem and_not_add_and (a k : Word) : (a &&& ~~~k) + (a &&& k) = a := by
  have hdisj : (a &&& ~~~k) &&& (a &&& k) = 0#64 := by
    ext i hi
    simp only [BitVec.getElem_and, BitVec.getElem_not, BitVec.getElem_zero]
    cases a[i] <;> cases k[i] <;> rfl
  rw [BitVec.add_eq_or_of_and_eq_zero _ _ hdisj]
  ext i hi
  simp only [BitVec.getElem_or, BitVec.getElem_and, BitVec.getElem_not]
  cases a[i] <;> cases k[i] <;> rfl

/-! ## Slots -/

/-- `len` bytes, `off` above a stack pointer `depth` below a fixed address. -/
structure Slot where
  depth : Nat
  off : Nat
  len : Nat
  deriving DecidableEq, Repr

namespace Slot

def addr (top : Word) (s : Slot) : Word := top - BitVec.ofNat 64 s.depth + BitVec.ofNat 64 s.off

def Apart (s t : Slot) : Prop :=
  s.off + s.len + t.depth ≤ t.off + s.depth ∨ t.off + t.len + s.depth ≤ s.off + t.depth

instance (s t : Slot) : Decidable (s.Apart t) :=
  inferInstanceAs (Decidable (s.off + s.len + t.depth ≤ t.off + s.depth ∨ _))

def Small (s : Slot) : Prop := s.depth < 2 ^ 62 ∧ s.off + s.len < 2 ^ 62

theorem addr_add_ne {top : Word} {s t : Slot} (h : s.Apart t) (hs : s.Small) (ht : t.Small)
    {i j : Nat} (hi : i < s.len) (hj : j < t.len) :
    s.addr top + BitVec.ofNat 64 i ≠ t.addr top + BitVec.ofNat 64 j := by
  intro heq
  have hsum : BitVec.ofNat 64 (s.off + i + t.depth) = BitVec.ofNat 64 (t.off + j + s.depth) := by
    unfold addr at heq
    rw [BitVec.ofNat_add, BitVec.ofNat_add, BitVec.ofNat_add, BitVec.ofNat_add]
    generalize BitVec.ofNat 64 s.depth = ds at heq ⊢
    generalize BitVec.ofNat 64 t.depth = dt at heq ⊢
    generalize BitVec.ofNat 64 s.off = os at heq ⊢
    generalize BitVec.ofNat 64 t.off = ot at heq ⊢
    generalize BitVec.ofNat 64 i = bi at heq ⊢
    generalize BitVec.ofNat 64 j = bj at heq ⊢
    linear_combination heq
  have hnat := congrArg BitVec.toNat hsum
  rw [BitVec.toNat_ofNat, BitVec.toNat_ofNat] at hnat
  unfold Apart Small at *
  omega

def Agree (m m' : Mem) (top : Word) (s : Slot) : Prop :=
  ∀ i < s.len, m (s.addr top + BitVec.ofNat 64 i) = m' (s.addr top + BitVec.ofNat 64 i)

instance (m m' : Mem) (top : Word) (s : Slot) : Decidable (Agree m m' top s) :=
  inferInstanceAs (Decidable (∀ i < s.len, _))

theorem Agree.trans {m m' m'' : Mem} {top : Word} {s : Slot} (h : Agree m m' top s)
    (h' : Agree m' m'' top s) : Agree m m'' top s := fun i hi => (h i hi).trans (h' i hi)

theorem Agree.read64 {m m' : Mem} {top : Word} {s : Slot} (h : Agree m m' top s)
    (hlen : s.len = 8) : read64 m (s.addr top) = read64 m' (s.addr top) :=
  read64_congr fun i hi => h i (hlen ▸ hi)

theorem Agree.write64 (m : Mem) (top v : Word) {s t : Slot} (h : s.Apart t) (hs : s.Small)
    (ht : t.Small) (hlen : t.len = 8) : Agree (write64 m (t.addr top) v) m top s := by
  intro i hi
  unfold Stack.write64
  rw [if_neg]
  intro hlt
  apply addr_add_ne h hs ht hi (hlen ▸ hlt)
  rw [BitVec.ofNat_toNat, BitVec.setWidth_eq, BitVec.add_comm (t.addr top), BitVec.sub_add_cancel]

theorem Agree.write128 (m : Mem) (top : Word) (v : BitVec 128) {s t : Slot} (h : s.Apart t)
    (hs : s.Small) (ht : t.Small) (hlen : t.len = 16) :
    Agree (write128 m (t.addr top) v) m top s := by
  obtain ⟨d, o, l⟩ := t
  subst hlen
  unfold Apart Small at *
  have hhigh : addr top ⟨d, o, 16⟩ + 8#64 = addr top ⟨d, o + 8, 8⟩ := by
    unfold addr
    rw [BitVec.ofNat_add, BitVec.add_assoc]
  unfold Stack.write128
  rw [hhigh]
  apply Agree.trans (Agree.write64 _ top _ (t := ⟨d, o + 8, 8⟩) ?_ hs ?_ rfl)
  · apply Agree.write64 _ top _ (t := ⟨d, o, 8⟩) ?_ hs ?_ rfl
    · unfold Apart
      dsimp only at *
      omega
    · unfold Small
      dsimp only at *
      omega
  · unfold Apart
    dsimp only at *
    omega
  · unfold Small
    dsimp only at *
    omega

end Slot

/-! ## Places -/

/-- The address `p` bytes below `top`. -/
def place (top : Word) (p : Int) : Word := top - BitVec.ofInt 64 p

/-- A place that an eight byte word fits, far from wrapping around. -/
def Fits (p : Int) : Prop := p % 8 = 0 ∧ -2 ^ 62 < p ∧ p < 2 ^ 62

@[simp] theorem place_zero (top : Word) : place top 0 = top := by simp [place]

theorem place_add (top : Word) (p : Int) (n : Nat) :
    place top p + BitVec.ofNat 64 n = place top (p - n) := by
  unfold place
  rw [sub_eq_add_neg p, BitVec.ofInt_add, BitVec.ofInt_neg, BitVec.ofInt_natCast]
  ring

theorem place_sub (top : Word) (p : Int) (n : Nat) :
    place top p - BitVec.ofNat 64 n = place top (p + n) := by
  unfold place
  rw [BitVec.ofInt_add, BitVec.ofInt_natCast]
  ring

theorem place_far {top : Word} {p q : Int} (hp : Fits p) (hq : Fits q) (hne : p ≠ q) {i : Nat}
    (hi : i < 8) : ¬ (place top p + BitVec.ofNat 64 i - place top q).toNat < 8 := by
  have hdiff : place top p + BitVec.ofNat 64 i - place top q = BitVec.ofInt 64 (q - p + i) := by
    unfold place
    rw [sub_eq_add_neg q, BitVec.ofInt_add, BitVec.ofInt_add, BitVec.ofInt_neg, BitVec.ofInt_natCast]
    ring
  unfold Fits at hp hq
  rw [hdiff, BitVec.toNat_ofInt]
  omega

theorem read64_write64_place (m : Mem) (top v : Word) {p q : Int} (hp : Fits p) (hq : Fits q)
    (hne : p ≠ q) : read64 (write64 m (place top q) v) (place top p) = read64 m (place top p) :=
  read64_congr fun _ hi => if_neg (place_far hp hq hne hi)

/-! ## Below a stack pointer -/

/-- `a` lies at least `lo` and at most `hi` bytes below `sp`. -/
def Below (sp a : Word) (lo hi : Nat) : Prop := ∃ d, a = sp - BitVec.ofNat 64 d ∧ lo ≤ d ∧ d ≤ hi

/-- Memory at or above `sp`, up to half of the address space. -/
def Above (sp x : Word) : Prop := (x - sp).toNat < 2 ^ 63

namespace Below

variable {sp a b x : Word} {lo hi lo' hi' : Nat}

theorem refl (sp : Word) : Below sp sp 0 0 := ⟨0, by simp, le_refl _, le_refl _⟩

theorem mono (h : Below sp a lo hi) (hlo : lo' ≤ lo) (hhi : hi ≤ hi') : Below sp a lo' hi' := by
  obtain ⟨d, ha, h1, h2⟩ := h
  exact ⟨d, ha, hlo.trans h1, h2.trans hhi⟩

theorem trans (h : Below sp a lo hi) (h' : Below a b lo' hi') : Below sp b (lo + lo') (hi + hi') := by
  obtain ⟨d, rfl, h1, h2⟩ := h
  obtain ⟨d', rfl, h1', h2'⟩ := h'
  refine ⟨d + d', ?_, by omega, by omega⟩
  rw [BitVec.ofNat_add, sub_sub]

theorem add (h : Below sp a lo hi) {k : Nat} (hk : k ≤ lo) :
    Below sp (a + BitVec.ofNat 64 k) (lo - k) hi := by
  obtain ⟨d, rfl, h1, h2⟩ := h
  refine ⟨d - k, ?_, by omega, by omega⟩
  have hd : BitVec.ofNat 64 d = BitVec.ofNat 64 (d - k) + BitVec.ofNat 64 k := by
    rw [← BitVec.ofNat_add]
    congr 1
    omega
  rw [hd]
  ring

theorem ne (h : Below sp a lo (2 ^ 62)) (hx : Above sp x) : ¬ (x - a).toNat < lo := by
  obtain ⟨d, rfl, h1, h2⟩ := h
  intro hlt
  have hsum : x - (sp - BitVec.ofNat 64 d) = x - sp + BitVec.ofNat 64 d := by ring
  unfold Above at hx
  rw [hsum, BitVec.toNat_add, BitVec.toNat_ofNat] at hlt
  omega

end Below

def Keeps (P : Word → Prop) (m m' : Mem) : Prop := ∀ x, P x → m' x = m x

namespace Keeps

variable {P : Word → Prop} {sp a : Word} {m m' m'' : Mem}

theorem trans (h : Keeps P m m') (h' : Keeps P m' m'') : Keeps P m m'' :=
  fun x hx => (h' x hx).trans (h x hx)

theorem write64 (hP : ∀ x, P x → Above sp x) (h : Below sp a 8 (2 ^ 62)) (m : Mem) (v : Word) :
    Keeps P m (write64 m a v) := fun x hx => if_neg (h.ne (hP x hx))

theorem writeBytes (hP : ∀ x, P x → Above sp x) {n : Nat} (h : Below sp a n (2 ^ 62))
    (m : Mem) (bytes : Nat → BitVec 8) : Keeps P m (writeBytes m a n bytes) := fun x hx =>
  if_neg (h.ne (hP x hx))

theorem writeWords (hP : ∀ x, P x → Above sp x) {vs : List Word}
    (h : Below sp a (8 * vs.length) (2 ^ 62)) (m : Mem) : Keeps P m (writeWords m a vs) := by
  induction vs generalizing a m with
  | nil => exact fun _ _ => rfl
  | cons v vs ih =>
    rw [List.length_cons] at h
    apply (Keeps.write64 hP (h.mono (by omega) (le_refl _)) m v).trans
    exact ih ((h.add (by omega)).mono (by omega) (le_refl _)) _

end Keeps

end Stack
