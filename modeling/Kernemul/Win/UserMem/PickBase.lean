import Kernemul.Win.UserMem.Outcomes
import Mathlib.Order.Bounds.Defs

/-!
# Probing for a base (`pick_base`)

The loop goes from the end of each reservation that is in the way to the next multiple of the alignment. What it skips
is of no use, so what it finds is the least base that is; and no reservation is in the way twice.
-/

namespace Kernemul.UserMem

open Segments

/-- A base that a reservation of `size` bytes can be put at. -/
structure Usable (s : State) (size alignment t : Nat) : Prop where
  aligned : max alignment allocGranularity ∣ t
  after : s.nextFree ≤ t
  limit : t + size ≤ userAddrLimit
  outside : ∀ r ∈ s.reservations, ¬ r.Has t
  free : ∀ r ∈ s.reservations, ∀ a, t ≤ a → a < t + size → ¬ r.Has a

/-- The answer is a usable base, or 0 where no other base is usable. -/
def Complete (s : State) (size alignment : Nat) : Prop :=
  ∃ t s', pickBase s size alignment = some (t, s') ∧ (t ≠ 0 → Usable s size alignment t) ∧
    (t = 0 → ∀ b, b ≠ 0 → ¬ Usable s size alignment b)

/-! ## Rounding up -/

/-- Rounding up to a power of two gives the least multiple that is not below. -/
theorem alignMask_least {a k : Nat} (hk : k ≤ 64) (ha : a + (2 ^ k - 1) < 2 ^ 64) :
    2 ^ k ∣ alignMask a (2 ^ k - 1) ∧ a ≤ alignMask a (2 ^ k - 1) ∧
      ∀ b, 2 ^ k ∣ b → a ≤ b → alignMask a (2 ^ k - 1) ≤ b := by
  have hpos : 0 < 2 ^ k := Nat.two_pow_pos k
  have hmod := Nat.mod_lt (a + (2 ^ k - 1)) hpos
  have hdvd : 2 ^ k ∣ alignMask a (2 ^ k - 1) := by
    rw [alignMask_low a hk, wrap_of_lt ha]
    exact Nat.dvd_sub_mod _
  have heq : alignMask a (2 ^ k - 1) = a + (2 ^ k - 1) - (a + (2 ^ k - 1)) % 2 ^ k := by
    rw [alignMask_low a hk, wrap_of_lt ha]
  refine ⟨hdvd, by omega, fun b hb hab => Nat.le_of_lt_add_of_dvd ?_ hdvd hb⟩
  omega

theorem unit_eq (j : Nat) : max (2 ^ j) allocGranularity = 2 ^ max j 16 := by
  change max (2 ^ j) (2 ^ 16) = 2 ^ max j 16
  rcases le_total j 16 with h | h
  · rw [max_eq_right h, max_eq_right (Nat.pow_le_pow_right Nat.two_pos h)]
  · rw [max_eq_left h, max_eq_left (Nat.pow_le_pow_right Nat.two_pos h)]

theorem pickMask_eq (j : Nat) : pickMask (2 ^ j) = 2 ^ max j 16 - 1 := by
  rw [pickMask, unit_eq]

/-! ## One probe -/

variable {l : List (Seg Reservation)} {clash : Seg Reservation}

theorem overlapping_some (hv : Valid l) {base size : Nat} (hw : base + size < 2 ^ 64)
    (h : overlapping l base size = some clash) :
    clash ∈ l ∧ base < clash.stop ∧ (clash.Has base ∨ base ≤ clash.base ∧ clash.base < base + size) := by
  have hmem := overlapping_mem hv h
  unfold overlapping at h
  rw [wrap_of_lt hw] at h
  cases hfind : find l base with
  | some r =>
    rw [hfind] at h
    obtain rfl := Option.some.inj h
    have hhas := ((find_eq_some hv).mp hfind).2
    exact ⟨hmem, hhas.2, .inl hhas⟩
  | none =>
    rw [hfind] at h
    cases hhead : (since base l).head? with
    | none =>
      rw [hhead] at h
      cases h
    | some next =>
      rw [hhead] at h
      simp only [Option.ite_none_right_eq_some, Option.some.injEq] at h
      obtain ⟨hlt, rfl⟩ := h
      have hle : base ≤ next.base := mem_since_le hv (List.mem_of_head? hhead)
      exact ⟨hmem, hle.trans_lt (hv.base_lt_stop hmem), .inr ⟨hle, hlt⟩⟩

theorem pickBase_of_not_picks {s : State} {size alignment : Nat}
    (h : pickLoop s.reservations size (pickMask alignment) (s.reservations.length + 1)
      (alignMask s.nextFree (pickMask alignment)) = some none) : pickBase s size alignment = some (0, s) := by
  unfold pickMask at h
  unfold pickBase
  simp only
  rw [h]

/-- Between the candidate and the end of what is in its way there is no usable base. -/
theorem Usable.stop_le {s : State} {size alignment t c : Nat}
    (h : Usable s size alignment t) (hv : Valid s.reservations) (hct : c ≤ t) (hmem : clash ∈ s.reservations)
    (hclash : clash.Has c ∨ c ≤ clash.base ∧ clash.base < c + size) : clash.stop ≤ t := by
  by_contra hlt
  have hlow : t < clash.base := by
    by_contra hbase
    exact h.outside clash hmem ⟨Nat.le_of_not_lt hbase, Nat.lt_of_not_le hlt⟩
  rcases hclash with hhas | ⟨hle, hin⟩
  · exact absurd (hhas.1.trans hct) (Nat.not_le.mpr hlow)
  · exact h.free clash hmem clash.base hlow.le (by omega) ⟨le_rfl, hv.base_lt_stop hmem⟩

theorem overlapping_none_outside (hv : Valid l) {base size : Nat}
    (h : overlapping l base size = none) : ∀ r ∈ l, ¬ r.Has base := by
  refine (find_eq_none hv).mp ?_
  unfold overlapping at h
  cases hfind : find l base with
  | none => rfl
  | some r =>
    rw [hfind] at h
    cases h

/-! ## The loop -/

/-- The reservations that can still be in the way are fewer behind one that was. -/
theorem countP_stop_lt (hmem : clash ∈ l) {c c' : Nat} (hc : c < clash.stop) (hc' : clash.stop ≤ c') :
    l.countP (fun r => c' < r.stop) < l.countP (fun r => c < r.stop) := by
  obtain ⟨before, behind, rfl⟩ := List.append_of_mem hmem
  have hmono : ∀ m : List (Seg Reservation), m.countP (fun r => c' < r.stop) ≤ m.countP (fun r => c < r.stop) := by
    intro m
    refine List.countP_mono_left fun r _ hr => ?_
    simp only [decide_eq_true_eq] at hr ⊢
    exact (hc.trans_le hc').trans hr
  have hbefore := hmono before
  have hbehind := hmono behind
  rw [List.countP_append, List.countP_append, List.countP_cons_of_neg (by simpa using hc'),
    List.countP_cons_of_pos (by simpa using hc)]
  omega

section

variable {s : State} (hv : Valid s.reservations) (hlim : ∀ r ∈ s.reservations, r.stop ≤ userAddrLimit)
  {j : Nat} (hj : j < 64) {size : Nat}

include hv hlim hj

/-- The loop comes to the least usable base, or to the limit, if no usable base is below the candidate. -/
theorem pickLoop_least {fuel c : Nat} (haligned : 2 ^ max j 16 ∣ c) (hafter : s.nextFree ≤ c)
    (hsum : c + size < 2 ^ 64) (hskip : ∀ t, Usable s size (2 ^ j) t → c ≤ t)
    (hfuel : s.reservations.countP (fun r => c < r.stop) < fuel) :
    (∃ t, pickLoop s.reservations size (2 ^ max j 16 - 1) fuel c = some (some t) ∧
      IsLeast {t | Usable s size (2 ^ j) t} t) ∨
    pickLoop s.reservations size (2 ^ max j 16 - 1) fuel c = some none ∧ ∀ t, ¬ Usable s size (2 ^ j) t := by
  induction fuel generalizing c with
  | zero => exact absurd hfuel (Nat.not_lt_zero _)
  | succ fuel ih =>
    rw [pickLoop, wrap_of_lt hsum]
    by_cases hle : c + size ≤ userAddrLimit
    · rw [if_pos hle]
      cases hclash : overlapping s.reservations c size with
      | none =>
        refine .inl ⟨c, rfl, ⟨?_, hafter, hle, overlapping_none_outside hv hclash, fun r hr a hca hac hhas => ?_⟩,
          hskip⟩
        · rwa [unit_eq]
        · have hapart := overlapping_none hv hsum hclash r hr
          have hbase := hhas.1
          have hstop := hhas.2
          omega
      | some clash =>
        obtain ⟨hmem, hlt, hway⟩ := overlapping_some hv hsum hclash
        have hstop := hlim clash hmem
        have hpow : 2 ^ max j 16 ≤ 2 ^ 63 := Nat.pow_le_pow_right (by decide) (by omega)
        have hlong : clash.stop + (2 ^ max j 16 - 1) < 2 ^ 64 := by
          unfold userAddrLimit at hstop
          omega
        obtain ⟨hdvd, hle', hleast⟩ := alignMask_least (by omega) hlong
        have hshort : size < 2 ^ 49 := by
          unfold userAddrLimit at hle
          omega
        refine ih hdvd (hafter.trans (hlt.le.trans hle')) (alignMask_add_lt hstop hshort) (fun t ht => ?_) ?_
        · exact hleast t (unit_eq j ▸ ht.aligned) (ht.stop_le hv (hskip t ht) hmem hway)
        · exact (countP_stop_lt hmem hlt hle').trans_le (Nat.le_of_lt_succ hfuel)
    · rw [if_neg hle]
      exact .inr ⟨rfl, fun t ht => hle ((Nat.add_le_add_right (hskip t ht) size).trans ht.limit)⟩

/-- `pick_base` comes to an end with the least usable base, or with 0 where there is none; 0 is not usable but at the
start of the address space. -/
theorem pickBase_complete (hnext : s.nextFree ≤ userAddrLimit)
    (hsum : alignMask s.nextFree (pickMask (2 ^ j)) + size < 2 ^ 64) :
    (∃ t s', pickBase s size (2 ^ j) = some (t, s') ∧
      (IsLeast {t | Usable s size (2 ^ j) t} t ∨ t = 0 ∧ ∀ b, ¬ Usable s size (2 ^ j) b)) ∧
    (s.nextFree ≠ 0 → Complete s size (2 ^ j)) := by
  have hpow : 2 ^ max j 16 ≤ 2 ^ 63 := Nat.pow_le_pow_right (by decide) (by omega)
  have hlong : s.nextFree + (2 ^ max j 16 - 1) < 2 ^ 64 := by
    unfold userAddrLimit at hnext
    omega
  obtain ⟨hdvd, hle, hleast⟩ := alignMask_least (by omega) hlong
  rw [pickMask_eq] at hsum
  have hfuel : s.reservations.countP (fun r => alignMask s.nextFree (2 ^ max j 16 - 1) < r.stop) <
      s.reservations.length + 1 := Nat.lt_succ_of_le List.countP_le_length
  have hskip : ∀ t, Usable s size (2 ^ j) t → alignMask s.nextFree (2 ^ max j 16 - 1) ≤ t := fun t ht =>
    hleast t (unit_eq j ▸ ht.aligned) ht.after
  have hloop := pickLoop_least hv hlim hj hdvd hle hsum hskip hfuel
  rw [← pickMask_eq] at hloop
  rcases hloop with ⟨t, hpick, ht⟩ | ⟨hnone, hno⟩
  · have hanswer := pickBase_of_picks hpick
    refine ⟨⟨t, _, hanswer, .inl ht⟩, fun hne => ⟨t, _, hanswer, fun _ => ht.1, fun hzero => ?_⟩⟩
    exact absurd (Nat.le_zero.mp (ht.1.after.trans hzero.le)) hne
  · have hanswer := pickBase_of_not_picks hnone
    exact ⟨⟨0, s, hanswer, .inr ⟨rfl, hno⟩⟩, fun _ => ⟨0, s, hanswer, fun hne => absurd rfl hne, fun _ b _ => hno b⟩⟩

end

def crowdedState : State :=
  { State.init 0 with
    reservations := [⟨0x100000000, 0x3000, ⟨4, 0x20000, []⟩⟩, ⟨0x100100000, 0x180000, ⟨4, 0x20000, []⟩⟩] }

theorem pickBase_complete_init :
    (∃ t s', pickBase crowdedState 0xf8000 (2 ^ 20) = some (t, s') ∧
      (IsLeast {t | Usable crowdedState 0xf8000 (2 ^ 20) t} t ∨
        t = 0 ∧ ∀ b, ¬ Usable crowdedState 0xf8000 (2 ^ 20) b)) ∧
    (crowdedState.nextFree ≠ 0 → Complete crowdedState 0xf8000 (2 ^ 20)) :=
  pickBase_complete ⟨by decide, by decide⟩ (by decide) (by decide) (by decide) (by decide)

/-- A manager whose search starts at the bottom of the address space. -/
def lowState : State := { State.init 0 with nextFree := 0 }

/-- The base that is found is 0, and the next granule could be had. -/
theorem lowState_not_complete : ¬ Complete lowState 0x1000 0x10000 := by
  rintro ⟨t, s', hanswer, -, hzero⟩
  have hfirst : (pickBase lowState 0x1000 0x10000).map Prod.fst = some 0 := by decide +kernel
  rw [hanswer] at hfirst
  refine hzero (Option.some.inj hfirst) 0x10000 (by decide) ⟨by decide, Nat.zero_le _, by decide, ?_, ?_⟩
  · exact fun _ h => absurd h List.not_mem_nil
  · exact fun _ h => absurd h List.not_mem_nil

end Kernemul.UserMem
