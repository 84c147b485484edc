import Kernemul.Win.UserMem.Books

/-!
# What a call can do

For each call an inductive lists the answers it can give with the states it can leave, on any 64-bit
numbers: the two cuts of a committed map are resolved, and the sums that wrap are kept apart from the
ones that do not. `Fits` says of a range that its sums do not.
-/

namespace Kernemul.UserMem

open Segments

/-! ## Ranges -/

/-- The length in whole pages of the range a call names: `size_align(size + (base - start))`. -/
def regionOf (base size : Nat) : Nat := sizeAlign (wrap (size + (base - pageAlign base)))

def Fits (base size : Nat) : Prop := base + size + (pageSize - 1) < 2 ^ 64

instance (base size : Nat) : Decidable (Fits base size) := inferInstanceAs (Decidable (_ < _))

theorem isPage_regionOf (base size : Nat) : IsPage (regionOf base size) := isPage_sizeAlign _

variable {base size : Nat}

theorem Fits.region (h : Fits base size) :
    base + size ≤ pageAlign base + regionOf base size ∧
      pageAlign base + regionOf base size < base + size + pageSize := by
  have h1 := pageAlign_le base
  have h2 := lt_pageAlign_add base
  unfold Fits at h
  unfold regionOf
  unfold pageSize at *
  rw [wrap_of_lt (by omega)]
  have h3 := sizeAlign_spec (n := size + (base - pageAlign base)) (by unfold pageSize; omega)
  unfold pageSize at h3
  omega

theorem Fits.region_lt (h : Fits base size) :
    pageAlign base + regionOf base size < 2 ^ 64 := by
  have := h.region
  unfold Fits pageSize at *
  have h1 := isPage_pageAlign base
  have h2 := isPage_regionOf base size
  unfold IsPage pageSize at h1 h2
  omega

/-- Conversely, the whole pages of a range that covers it are the ones of a range that fits. -/
theorem fits_of_region (hle : size ≤ regionOf base size)
    (hpos : 0 < regionOf base size) (hlt : pageAlign base + regionOf base size < 2 ^ 64) :
    Fits base size := by
  have h1 := pageAlign_le base
  have h2 := lt_pageAlign_add base
  have h3 := isPage_pageAlign base
  have h4 := isPage_regionOf base size
  unfold Fits
  unfold regionOf sizeAlign pageAlign wrap IsPage pageSize at *
  omega

theorem fits_of_le (hb : base ≤ userAddrLimit) (hs : size ≤ userAddrLimit) :
    Fits base size := by
  unfold Fits
  unfold userAddrLimit at hb hs
  unfold pageSize
  omega

/-! ## Free ranges -/

variable {l : List (Seg Reservation)}

theorem overlapping_none (h : Valid l) (hw : base + size < 2 ^ 64) (hnone : overlapping l base size = none) :
    ∀ r ∈ l, r.stop ≤ base ∨ base + size ≤ r.base := by
  intro r hr
  unfold overlapping at hnone
  rw [wrap_of_lt hw] at hnone
  split at hnone
  · simp at hnone
  · rename_i hf
    have hnot := (find_eq_none h).mp hf r hr
    by_cases hb : base ≤ r.base
    · obtain ⟨t, ht, hle⟩ := head_since_le h hr hb
      rw [ht] at hnone
      simp only at hnone
      split at hnone
      · simp at hnone
      · right; omega
    · left
      by_contra hcon
      exact hnot ⟨by omega, by omega⟩

theorem overlapping_mem (hv : Valid l)
    {clash : Seg Reservation} (h : overlapping l base size = some clash) : clash ∈ l := by
  unfold overlapping at h
  split at h
  · rename_i r hr
    cases h
    exact ((find_eq_some hv).mp hr).1
  · split at h
    · rename_i next hnext
      split at h
      · cases h
        exact List.dropWhile_subset _ (List.mem_of_head? hnext)
      · simp at h
    · simp at h

theorem alignMask_add_lt {a mask : Nat} (ha : a ≤ userAddrLimit) (hs : size < 2 ^ 49) :
    alignMask a mask + size < 2 ^ 64 := by
  unfold alignMask wrap userAddrLimit at *
  have h1 : (a + mask) % 2 ^ 64 &&& (2 ^ 64 - 1 - mask) ≤ (a + mask) % 2 ^ 64 := Nat.and_le_left
  have h2 : (a + mask) % 2 ^ 64 &&& (2 ^ 64 - 1 - mask) ≤ 2 ^ 64 - 1 - mask := Nat.and_le_right
  omega

theorem pickLoop_spec (hal : ∀ r ∈ l, IsPage r.stop) (hv : Valid l) {mask : Nat} (hm : mask < 2 ^ 64) :
    ∀ (fuel c t : Nat), IsPage c → pickLoop l size mask fuel c = some (some t) →
      IsPage t ∧ wrap (t + size) ≤ userAddrLimit ∧ overlapping l t size = none := by
  intro fuel
  induction fuel with
  | zero => intro c t _ h; simp [pickLoop] at h
  | succ fuel ih =>
    intro c t hc h
    rw [pickLoop] at h
    split at h
    · rename_i hle
      split at h
      · rename_i hfree
        simp only [Option.some.injEq] at h
        subst h
        exact ⟨hc, hle, hfree⟩
      · rename_i clash hclash
        exact ih _ t (isPage_alignMask (hal clash (overlapping_mem hv hclash)) hm) h
    · simp at h

/-- When the first probe does not wrap, no probe does: a range that passed the limit is short. -/
theorem pickLoop_lt (hlim : ∀ r ∈ l, r.stop ≤ userAddrLimit) (hv : Valid l) {mask : Nat} :
    ∀ (fuel c t : Nat), c + size < 2 ^ 64 → pickLoop l size mask fuel c = some (some t) →
      t + size < 2 ^ 64 := by
  intro fuel
  induction fuel with
  | zero => intro c t _ h; simp [pickLoop] at h
  | succ fuel ih =>
    intro c t hc h
    rw [pickLoop, wrap_of_lt hc] at h
    split at h
    · rename_i hle
      split at h
      · simp only [Option.some.injEq] at h
        subst h
        exact hc
      · rename_i clash hclash
        refine ih _ t (alignMask_add_lt (hlim clash (overlapping_mem hv hclash)) ?_) h
        unfold userAddrLimit at hle
        omega
    · simp at h

/-- The mask `pick_base` rounds with. -/
def pickMask (alignment : Nat) : Nat := max alignment allocGranularity - 1

variable {alignment : Nat}

theorem pickMask_lt (h : alignment < 2 ^ 64) : pickMask alignment < 2 ^ 64 := by
  unfold pickMask allocGranularity
  omega

/-- The probing finds `t`. -/
def Picks (s : State) (size alignment t : Nat) : Prop :=
  pickLoop s.reservations size (pickMask alignment) (s.reservations.length + 1)
    (alignMask s.nextFree (pickMask alignment)) = some (some t)

instance (s : State) (size alignment t : Nat) : Decidable (Picks s size alignment t) :=
  inferInstanceAs (Decidable (_ = _))

variable {s : State}

theorem Picks.spec (h : Booked s) {t : Nat} (ha : alignment < 2 ^ 64) (hp : Picks s size alignment t) :
    IsPage t ∧ wrap (t + size) ≤ userAddrLimit ∧ overlapping s.reservations t size = none :=
  pickLoop_spec (fun r hr => (h.aligned r hr).2) h.valid (pickMask_lt ha) _ _ _
    (isPage_alignMask h.nextFree.1 (pickMask_lt ha)) hp

theorem isPage_wrap {n : Nat} (h : IsPage n) : IsPage (wrap n) := by
  unfold IsPage wrap pageSize at *
  omega

theorem pickBase_of_picks {t : Nat} (h : Picks s size alignment t) :
    pickBase s size alignment = some (t, { s with nextFree := wrap (t + size) }) := by
  unfold Picks pickMask at h
  unfold pickBase
  simp only
  rw [h]

/-- `pick_base` answers what the probing finds, or 0, and moves at most the cursor. -/
theorem pickBase_spec {s' : State} (h : Booked s) {t : Nat} (hs : IsPage size)
    (ha : alignment < 2 ^ 64) (hp : pickBase s size alignment = some (t, s')) :
    (t = 0 ∨ Picks s size alignment t) ∧
      ∃ n, (IsPage n ∧ n ≤ userAddrLimit) ∧ s' = { s with nextFree := n } := by
  unfold pickBase at hp
  simp only at hp
  split at hp
  · simp at hp
  · cases hp
    exact ⟨Or.inl rfl, s.nextFree, h.nextFree, rfl⟩
  · rename_i c hc
    cases hp
    have hpick : Picks s size alignment t := hc
    obtain ⟨h1, h2, -⟩ := hpick.spec h ha
    exact ⟨Or.inr hpick, _, ⟨isPage_wrap (h1.add hs), h2⟩, rfl⟩

/-! ## `allocate` -/

def commitsIn (s : State) (base : Nat) (allocType : BitVec 32) : Option (Seg Reservation) :=
  if hasBits allocType memCommit && !hasBits allocType memReserve && base != 0 then
    findReservation s (pageAlign base)
  else none

variable {allocType : BitVec 32}

theorem commitsIn_eq_some (h : Booked s) {res : Seg Reservation} (hc : commitsIn s base allocType = some res) :
    (res ∈ s.reservations ∧ res.Has (pageAlign base)) ∧ base ≠ 0 ∧
      hasBits allocType memCommit = true ∧ hasBits allocType memReserve = false := by
  unfold commitsIn at hc
  split at hc
  · rename_i hif
    simp only [Bool.and_eq_true, Bool.not_eq_true', bne_iff_ne, ne_eq] at hif
    exact ⟨h.of_find hc, hif.2, hif.1.1, hif.1.2⟩
  · cases hc

/-- Where a new reservation goes: at the base asked for, rounded down, or where the probing says. -/
def Placed (s : State) (base size : Nat) (allocType : BitVec 32) (alignment target : Nat) : Prop :=
  if base ≠ 0 then
    target = if hasBits allocType memReserve then base - base % allocGranularity else pageAlign base
  else Picks s (regionOf base size) alignment target

instance (s : State) (base size : Nat) (allocType : BitVec 32) (alignment target : Nat) :
    Decidable (Placed s base size allocType alignment target) :=
  inferInstanceAs (Decidable (ite ..))

variable {target : Nat}

theorem Placed.isPage (h : Booked s) (ha : alignment < 2 ^ 64)
    (hp : Placed s base size allocType alignment target) : IsPage target := by
  unfold Placed at hp
  split at hp
  · subst hp
    split
    · unfold IsPage allocGranularity pageSize
      omega
    · exact isPage_pageAlign base
  · exact (hp.spec h ha).1

theorem Placed.le (hb : base ≠ 0) (hp : Placed s base size allocType alignment target) :
    target ≤ pageAlign base ∧ pageAlign base < target + allocGranularity := by
  rw [Placed, if_pos hb] at hp
  subst hp
  unfold pageAlign pageSize allocGranularity
  split <;> omega

/-- The checks in front of a new reservation of `[target, target + region)`. -/
def Reservable (s : State) (target region : Nat) : Prop :=
  target ≠ 0 ∧ wrap (target + region) ≤ userAddrLimit ∧ overlapping s.reservations target region = none

/-- The call passes the checks of `allocate`, as they are computed modulo `2^64`. -/
def Accepts (s : State) (base size : Nat) (allocType : BitVec 32) (alignment : Nat) : Prop :=
  regionOf base size ≠ 0 ∧ (hasBits allocType memReserve = true ∨ hasBits allocType memCommit = true) ∧
    ((∃ res, commitsIn s base allocType = some res ∧
        wrap (pageAlign base + regionOf base size) ≤ res.stop) ∨
      commitsIn s base allocType = none ∧
        ∃ target, Placed s base size allocType alignment target ∧
          Reservable s target (regionOf base size))

/-- Where `allocate` commits or reserves. -/
def Targets (s : State) (base size : Nat) (allocType : BitVec 32) (alignment target : Nat) : Prop :=
  (base ≠ 0 ∧ target = pageAlign base ∧ hasBits allocType memReserve = false) ∨
    Placed s base size allocType alignment target

/-- What `allocate` answers and leaves: it refuses and moves at most the cursor, commits inside a
reservation, or makes a new one. In the last case a range that leaves 64 bits went through. -/
inductive AllocateOutcome (s : State) (base size : Nat) (allocType : BitVec 32) (prot : Prot)
    (alignment : Nat) : Ret → State → Prop
  | refused {status : Status} {n : Nat} (hnot : ¬ Accepts s base size allocType alignment)
      (hstatus : status ≠ .success) (hn : IsPage n ∧ n ≤ userAddrLimit) :
      AllocateOutcome s base size allocType prot alignment ⟨status, base, size⟩
        { s with nextFree := n }
  | committed {res : Seg Reservation} (hacc : Accepts s base size allocType alignment)
      (hin : commitsIn s base allocType = some res)
      (hpos : 0 < regionOf base size) (hle : pageAlign base + regionOf base size ≤ res.stop) :
      AllocateOutcome s base size allocType prot alignment
        ⟨.success, pageAlign base, regionOf base size⟩
        (s.commit res (pageAlign base) (pageAlign base + regionOf base size) prot)
  | reserved {target n : Nat} (hacc : Accepts s base size allocType alignment)
      (hn : IsPage n ∧ n ≤ userAddrLimit) (hnone : commitsIn s base allocType = none)
      (hplaced : Placed s base size allocType alignment target) (hpage : IsPage target)
      (hpos : 0 < regionOf base size) (hlim : target + regionOf base size ≤ userAddrLimit)
      (hdis : ∀ r ∈ s.reservations, r.stop ≤ target ∨ target + regionOf base size ≤ r.base) :
      AllocateOutcome s base size allocType prot alignment
        ⟨.success, target, regionOf base size⟩
        ({ s with nextFree := n }.addReservation target (regionOf base size)
          (hasBits allocType memCommit) prot)
  | wrapped {target : Nat} {s' : State} (hacc : Accepts s base size allocType alignment)
      (hpos : 0 < regionOf base size) (htarget : Targets s base size allocType alignment target)
      (hw : 2 ^ 64 ≤ target + regionOf base size) :
      AllocateOutcome s base size allocType prot alignment
        ⟨.success, target, regionOf base size⟩ s'

theorem commitInto_eq (h : Booked s) {res : Seg Reservation} (hres : res ∈ s.reservations)
    (base size : Nat) (prot : Prot) :
    (commitInto s res base size prot).1 =
      (if wrap (base + size) ≤ res.stop then .success else .conflictingAddresses) ∧
    (wrap (base + size) ≤ res.stop → base + size < 2 ^ 64 →
      (commitInto s res base size prot).2 = s.commit res base (base + size) prot) ∧
    (¬ wrap (base + size) ≤ res.stop → (commitInto s res base size prot).2 = s) := by
  unfold commitInto
  simp only
  by_cases hle : wrap (base + size) ≤ res.stop
  · rw [if_neg (by omega), if_pos hle]
    refine ⟨rfl, fun _ hw => ?_, fun hn => absurd hle hn⟩
    rw [wrap_of_lt hw, (h.inside res hres).splitAt_splitAt]
    rfl
  · rw [if_pos (by omega), if_neg hle]
    exact ⟨rfl, fun h => absurd h hle, fun _ => rfl⟩

theorem reserve_eq (s : State) (base size target region : Nat) (doCommit : Bool) (prot : Prot) :
    (∃ status, status ≠ .success ∧ ¬ Reservable s target region ∧
      reserve s base size target region doCommit prot = (⟨status, base, size⟩, s)) ∨
    (Reservable s target region ∧ reserve s base size target region doCommit prot =
      (⟨.success, target, region⟩, s.addReservation target region doCommit prot)) := by
  unfold reserve Reservable
  split
  · rename_i hlim
    exact Or.inl ⟨_, by simp, by omega, rfl⟩
  · rename_i hlim
    split
    · rename_i hclash
      exact Or.inl ⟨_, by simp, by simp [hclash], rfl⟩
    · rename_i hfree
      exact Or.inr ⟨⟨by omega, by omega, hfree⟩, rfl⟩

section Allocate
variable {s : State} (h : Booked s) {base size alignment : Nat} {allocType : BitVec 32} {prot : Prot}
  (ha : alignment < 2 ^ 64)
include h ha

theorem AllocateOutcome.of_reserve {target n : Nat} (hn : IsPage n ∧ n ≤ userAddrLimit)
    (hbits : hasBits allocType memReserve = true ∨ hasBits allocType memCommit = true)
    (hnone : commitsIn s base allocType = none)
    (hplaced : target ≠ 0 → Placed s base size allocType alignment target)
    (huniq : ∀ t, Placed s base size allocType alignment t → t = target)
    (hpos : 0 < regionOf base size) {ret : Ret} {s' : State}
    (hstep : reserve { s with nextFree := n } base size target (regionOf base size)
      (hasBits allocType memCommit) prot = (ret, s')) :
    AllocateOutcome s base size allocType prot alignment ret s' := by
  rcases reserve_eq { s with nextFree := n } base size target (regionOf base size)
      (hasBits allocType memCommit) prot with ⟨status, hstatus, hnot, heq⟩ | ⟨hres, heq⟩
  · rw [heq] at hstep
    cases hstep
    refine .refused (fun hacc => ?_) hstatus hn
    rcases hacc.2.2 with ⟨res, hin, -⟩ | ⟨-, t, ht, hres⟩
    · rw [hnone] at hin
      cases hin
    · obtain rfl := huniq t ht
      exact hnot hres
  · rw [heq] at hstep
    cases hstep
    have hplaced := hplaced hres.1
    have hacc : Accepts s base size allocType alignment :=
      ⟨hpos.ne', hbits, Or.inr ⟨hnone, target, hplaced, hres⟩⟩
    by_cases hw : target + regionOf base size < 2 ^ 64
    · obtain ⟨-, hlim, hfree⟩ := hres
      rw [wrap_of_lt hw] at hlim
      exact .reserved hacc hn hnone hplaced (hplaced.isPage h ha) hpos hlim
        (overlapping_none h.valid hw hfree)
    · exact .wrapped hacc hpos (Or.inr hplaced) (by omega)

theorem allocate_outcome {ret : Ret} {s' : State}
    (hstep : allocate s base size allocType prot alignment = some (ret, s')) :
    AllocateOutcome s base size allocType prot alignment ret s' := by
  unfold allocate at hstep
  simp only at hstep
  generalize hregion : sizeAlign (wrap (size + (base - pageAlign base))) = region at hstep
  obtain rfl : regionOf base size = region := hregion
  generalize hin : (if (hasBits allocType memCommit && !hasBits allocType memReserve && base != 0) = true
    then findReservation s (pageAlign base) else none) = within at hstep
  obtain rfl : commitsIn s base allocType = within := hin
  split at hstep
  · rename_i hzero
    cases hstep
    exact .refused (n := s.nextFree) (fun hacc => hacc.1 hzero) (by simp) h.nextFree
  · rename_i hpos
    have hpos : 0 < regionOf base size := Nat.pos_of_ne_zero hpos
    split at hstep
    · rename_i hbits
      cases hstep
      refine .refused (n := s.nextFree) (fun hacc => ?_) (by simp) h.nextFree
      simp only [Bool.and_eq_true, Bool.not_eq_true'] at hbits
      simpa [hbits.1, hbits.2] using hacc.2.1
    · rename_i hbits
      have hbits : hasBits allocType memReserve = true ∨ hasBits allocType memCommit = true := by
        by_contra hcon
        exact hbits (by simpa using hcon)
      split at hstep
      · rename_i res hin
        obtain ⟨⟨hmem, -⟩, hb, -, hres⟩ := commitsIn_eq_some h hin
        obtain ⟨hstatus, hdone, hkept⟩ := commitInto_eq h hmem (pageAlign base) (regionOf base size) prot
        simp only [Option.some.injEq, Prod.mk.injEq] at hstep
        obtain ⟨rfl, rfl⟩ := hstep
        by_cases hle : wrap (pageAlign base + regionOf base size) ≤ res.stop
        · have hacc : Accepts s base size allocType alignment :=
            ⟨hpos.ne', hbits, Or.inl ⟨res, hin, hle⟩⟩
          rw [hstatus, if_pos hle, if_pos rfl]
          by_cases hw : pageAlign base + regionOf base size < 2 ^ 64
          · rw [hdone hle hw]
            rw [wrap_of_lt hw] at hle
            exact .committed hacc hin hpos hle
          · exact .wrapped hacc hpos (Or.inl ⟨hb, rfl, hres⟩) (by omega)
        · rw [hstatus, if_neg hle, if_neg (by simp), hkept hle]
          refine .refused (n := s.nextFree) (fun hacc => ?_) (by simp) h.nextFree
          rcases hacc.2.2 with ⟨res', hin', hle'⟩ | ⟨hnone, -⟩
          · cases hin.symm.trans hin'
            exact hle hle'
          · rw [hin] at hnone
            cases hnone
      · rename_i hnone
        split at hstep
        · rename_i hb
          have hplaced : ∀ t, Placed s base size allocType alignment t ↔
              t = if hasBits allocType memReserve then base - base % allocGranularity
                else pageAlign base := fun t => by rw [Placed, if_pos hb]
          exact .of_reserve h ha (n := s.nextFree) h.nextFree hbits hnone
            (fun _ => (hplaced _).mpr rfl) (fun t ht => (hplaced t).mp ht) hpos (Option.some.inj hstep)
        · rename_i hb
          have hplaced : ∀ t, Placed s base size allocType alignment t ↔
              Picks s (regionOf base size) alignment t := fun t => by rw [Placed, if_neg hb]
          split at hstep
          · simp at hstep
          · rename_i target s₁ hpick
            obtain ⟨htarget, n, hn, rfl⟩ := pickBase_spec h (isPage_regionOf base size) ha hpick
            refine .of_reserve h ha hn hbits hnone
              (fun hne => (hplaced _).mpr (htarget.resolve_left hne)) (fun t ht => ?_) hpos
              (Option.some.inj hstep)
            have heq := (pickBase_of_picks ((hplaced t).mp ht)).symm.trans hpick
            exact (Prod.mk.inj (Option.some.inj heq)).1

end Allocate

theorem Accepts.returns (h : Accepts s base size allocType alignment) (prot : Prot) :
    allocate s base size allocType prot alignment ≠ none := by
  unfold allocate
  simp only
  generalize hregion : sizeAlign (wrap (size + (base - pageAlign base))) = region
  obtain rfl : regionOf base size = region := hregion
  generalize hin : (if (hasBits allocType memCommit && !hasBits allocType memReserve && base != 0) = true
    then findReservation s (pageAlign base) else none) = within
  obtain rfl : commitsIn s base allocType = within := hin
  rw [if_neg h.1]
  split
  · simp
  · split
    · simp
    · rename_i hnone
      split
      · simp
      · rename_i hb
        rcases h.2.2 with ⟨res, hin, -⟩ | ⟨-, t, ht, -⟩
        · rw [hnone] at hin
          cases hin
        · rw [Placed, if_neg hb] at ht
          rw [pickBase_of_picks ht]
          simp

/-! ## `free` -/

/-- What `free` answers and leaves: it refuses and changes nothing, gives up the reservation it finds, or
decommits a range that starts there. A decommit that leaves 64 bits cuts at most. -/
inductive FreeOutcome (s : State) (base size : Nat) (freeType : BitVec 32) : Ret → State → Prop
  | refused {status : Status} (hstatus : status ≠ .success) :
      FreeOutcome s base size freeType ⟨status, base, size⟩ s
  | released {res : Seg Reservation} (hbits : hasBits freeType memRelease = true)
      (hfind : findReservation s (pageAlign base) = some res) (hbase : res.base = pageAlign base) :
      FreeOutcome s base size freeType ⟨.success, res.base, res.size⟩ (s.release res)
  | decommitted {res : Seg Reservation} {region : Nat} (hbits : hasBits freeType memRelease = false)
      (hfind : findReservation s (pageAlign base) = some res) (hpage : IsPage region)
      (hpos : 0 < region) :
      FreeOutcome s base size freeType ⟨.success, pageAlign base, region⟩
        (s.decommit res (pageAlign base) (pageAlign base + region))
  | wrapped {res : Seg Reservation} {c : Committed} (hbits : hasBits freeType memRelease = false)
      (hfind : findReservation s (pageAlign base) = some res)
      (hw : 2 ^ 64 ≤ pageAlign base + regionOf base size)
      (hin : CommittedIn res.base res.stop c) (hval : ∀ x, valAt c x = valAt res.val.committed x) :
      FreeOutcome s base size freeType ⟨.success, pageAlign base, regionOf base size⟩
        (s.setCommitted res.base c)

/-- Cuts at both ends of a range that leaves 64 bits: nothing lies between them. -/
theorem CommittedIn.wrapped {lo hi a b : Nat} {c : Committed} (h : CommittedIn lo hi c)
    (ha : IsPage a) (hb : IsPage b) (hba : b ≤ a) :
    Segments.part a b c = [] ∧ CommittedIn lo hi (Segments.splice a b [] c) ∧
      ∀ x, valAt (Segments.splice a b [] c) x = valAt c x := by
  have hc := (h.cut ha).cut hb
  have hnil : Segments.part a b c = [] := by
    refine List.eq_nil_iff_forall_not_mem.mpr fun r hr => ?_
    have h1 := mem_since_le hc.valid (List.takeWhile_subset _ hr)
    have h2 := mem_below_lt hr
    omega
  have heq : Segments.splice a b [] c = Segments.cut b (Segments.cut a c) := by
    rw [← splice_part, hnil]
  rw [heq]
  exact ⟨hnil, hc, fun x => by rw [valAt_cut (h.valid.cut a), valAt_cut h.valid]⟩

theorem wrap_le_of_le {a n : Nat} (ha : a < 2 ^ 64) (hn : n < 2 ^ 64) (hw : 2 ^ 64 ≤ a + n) :
    wrap (a + n) ≤ a := by
  unfold wrap
  omega

theorem regionOf_lt (base size : Nat) : regionOf base size < 2 ^ 64 :=
  lt_of_le_of_lt (pageAlign_le _) (Nat.mod_lt _ (by decide))

theorem Booked.lt_of_has (h : Booked s) {res : Seg Reservation}
    (hres : res ∈ s.reservations) {a : Nat} (ha : res.Has a) : a < 2 ^ 64 := by
  have h1 := h.limit res hres
  have h2 := ha.2
  unfold userAddrLimit at h1
  omega

theorem free_outcome (h : Booked s) (base size : Nat) (freeType : BitVec 32) :
    FreeOutcome s base size freeType (free s base size freeType).1 (free s base size freeType).2 := by
  unfold free
  simp only
  generalize hregion : sizeAlign (wrap (size + (base - pageAlign base))) = region
  obtain rfl : regionOf base size = region := hregion
  have hstart := isPage_pageAlign base
  split
  · rename_i hbits
    split
    · exact .refused (by simp)
    · split
      · exact .refused (by simp)
      · rename_i res hfind
        split
        · exact .refused (by simp)
        · rename_i hbase
          split
          · exact .refused (by simp)
          · exact .released hbits hfind (not_not.mp hbase)
  · rename_i hbits
    have hbits : hasBits freeType memRelease = false := by simpa using hbits
    split
    · exact .refused (by simp)
    · split
      · exact .refused (by simp)
      · rename_i res hfind
        obtain ⟨hmem, hhas⟩ := h.of_find hfind
        have hin := h.inside res hmem
        split
        · exact .refused (by simp)
        · rename_i hwhole
          simp only [hin.splitAt_splitAt]
          by_cases hw : pageAlign base + regionOf base size < 2 ^ 64
          · -- an empty range stands for the whole reservation
            obtain ⟨region, hregion, hpage, hpos, hlt⟩ : ∃ region,
                (if regionOf base size = 0 then res.size else regionOf base size) = region ∧
                  IsPage region ∧ 0 < region ∧ pageAlign base + region < 2 ^ 64 := by
              refine ⟨_, rfl, ?_⟩
              split
              · rename_i hz
                have hbase : res.base = pageAlign base := by
                  by_contra hne
                  exact hwhole ⟨hz, hne⟩
                rw [← hbase]
                exact ⟨h.isPage_size hmem, h.valid.pos res hmem,
                  lt_of_le_of_lt (h.limit res hmem) (by decide)⟩
              · exact ⟨isPage_regionOf base size, by omega, hw⟩
            simp only [hregion]
            rw [wrap_of_lt hlt]
            exact .decommitted hbits hfind hpage hpos
          · have hne : regionOf base size ≠ 0 := by
              have := h.lt_of_has hmem hhas
              omega
            simp only [if_neg hne]
            have hle := wrap_le_of_le (h.lt_of_has hmem hhas) (regionOf_lt base size) (by omega)
            have hstop := isPage_wrap (hstart.add (isPage_regionOf base size))
            obtain ⟨hnil, hc, hval⟩ := hin.wrapped hstart hstop hle
            rw [show window _ _ _ = [] from hnil]
            exact .wrapped hbits hfind (by omega) hc hval

/-! ## `protect` -/

/-- What `protect` answers and leaves: it passes a range outside every reservation on to the page tables,
answers for a page that is not committed and changes nothing, or changes the committed regions of the
range. A range that leaves 64 bits cuts and merges at most. -/
inductive ProtectOutcome (s : State) (base size : Nat) (newProt : Prot) : Prot → State → Prop
  | untracked (hnone : findReservation s (pageAlign base) = none) :
      ProtectOutcome s base size newProt pageReadwrite
        { s with pages := s.pages.protVirt (pageAlign base) (regionOf base size) (toMemProt newProt) }
  | uncommitted {res : Seg Reservation} (hfind : findReservation s (pageAlign base) = some res)
      (hnone : valAt res.val.committed (pageAlign base) = none) :
      ProtectOutcome s base size newProt res.val.initialProt s
  | changed {res : Seg Reservation} {old : Prot}
      (hfind : findReservation s (pageAlign base) = some res)
      (hold : valAt res.val.committed (pageAlign base) = some old) :
      ProtectOutcome s base size newProt old
        (s.reprotect res (pageAlign base) (pageAlign base + regionOf base size) newProt)
  | wrapped {res : Seg Reservation} {old : Prot} {c : Committed}
      (hfind : findReservation s (pageAlign base) = some res)
      (hold : valAt res.val.committed (pageAlign base) = some old)
      (hw : 2 ^ 64 ≤ pageAlign base + regionOf base size)
      (hin : CommittedIn res.base res.stop c) (hval : ∀ x, valAt c x = valAt res.val.committed x) :
      ProtectOutcome s base size newProt old (s.setCommitted res.base c)

/-- Whatever it does, `protect` answers success for the whole pages of the range. -/
theorem protect_ret (s : State) (base size : Nat) (newProt : Prot) :
    (protect s base size newProt).1 = ⟨.success, pageAlign base, regionOf base size⟩ := by
  unfold protect
  simp only
  split
  · rfl
  · split <;> rfl

theorem protect_outcome (h : Booked s) (base size : Nat) (newProt : Prot) :
    ProtectOutcome s base size newProt (protect s base size newProt).2.1
      (protect s base size newProt).2.2 := by
  unfold protect
  simp only
  generalize hregion : sizeAlign (wrap (size + (base - pageAlign base))) = region
  obtain rfl : regionOf base size = region := hregion
  have hstart := isPage_pageAlign base
  split
  · rename_i hfind
    exact .untracked hfind
  · rename_i res hfind
    obtain ⟨hmem, hhas⟩ := h.of_find hfind
    have hin := h.inside res hmem
    split
    · rename_i hnone
      exact .uncommitted hfind (by rw [valAt, show find _ _ = none from hnone]; rfl)
    · rename_i first hfirst
      have hold : valAt res.val.committed (pageAlign base) = some first.val := by
        rw [valAt, show find _ _ = some first from hfirst]
        rfl
      simp only [hin.splitAt_splitAt]
      by_cases hw : pageAlign base + regionOf base size < 2 ^ 64
      · rw [wrap_of_lt hw]
        exact .changed hfind hold
      · have hle := wrap_le_of_le (h.lt_of_has hmem hhas) (regionOf_lt base size) (by omega)
        have hstop := isPage_wrap (hstart.add (isPage_regionOf base size))
        obtain ⟨hnil, hc, hval⟩ := hin.wrapped hstart hstop hle
        rw [show window _ _ _ = [] from hnil, List.map_nil]
        refine .wrapped hfind hold (by omega) hc.merge.1 fun x => ?_
        exact (valAt_mergeAdjacent hc.valid x).trans (hval x)

/-! ## `handle_fault` -/

/-- What `handle_fault` answers and leaves: it changes nothing, brings an uncommitted page in with the
reservation's protection, or clears the guard bit of a guarded page and maps it. -/
inductive FaultOutcome (s : State) (faultAddr : Nat) : Bool → State → Prop
  | ignored : FaultOutcome s faultAddr false s
  | demand {res : Seg Reservation} (hfind : findReservation s (pageAlign faultAddr) = some res)
      (hnone : valAt res.val.committed (pageAlign faultAddr) = none)
      (hresident : isResident res.val.initialProt) :
      FaultOutcome s faultAddr true (s.faultIn res (pageAlign faultAddr) res.val.initialProt)
  | guard {res : Seg Reservation} {old : Prot}
      (hfind : findReservation s (pageAlign faultAddr) = some res)
      (hold : valAt res.val.committed (pageAlign faultAddr) = some old) (hguard : hasBits old pageGuard) :
      FaultOutcome s faultAddr true (s.faultIn res (pageAlign faultAddr) (old &&& ~~~pageGuard))

theorem handleFault_outcome (h : Booked s) (faultAddr : Nat) :
    FaultOutcome s faultAddr (handleFault s faultAddr).1 (handleFault s faultAddr).2 := by
  have hpage := isPage_pageAlign faultAddr
  unfold handleFault
  simp only
  split
  · exact .ignored
  · rename_i res hfind
    obtain ⟨hmem, hhas⟩ := h.of_find hfind
    have hin := h.inside res hmem
    split
    · rename_i hnone
      split
      · exact .ignored
      · rename_i hresident
        have hout := (find_eq_none hin.valid).mp hnone
        have hdis : ∀ t ∈ res.val.committed,
            t.stop ≤ pageAlign faultAddr ∨ pageAlign faultAddr + pageSize ≤ t.base := by
          intro t ht
          have h1 := hin.aligned t ht
          by_cases hlt : pageAlign faultAddr < t.base
          · exact Or.inr (hpage.add_le_of_lt h1.1 hlt)
          · left
            by_contra hcon
            exact hout t ht ⟨by omega, by omega⟩
        simp only
        rw [put_eq_splice hin.valid (show 0 < pageSize by decide) hdis]
        exact .demand hfind ((valAt_eq_none hin.valid).mpr hout) (by simpa using hresident)
    · rename_i sub hsub
      split
      · exact .ignored
      · rename_i hguard
        obtain ⟨hsmem, hshas⟩ := (find_eq_some hin.valid).mp hsub
        have hstop := hpage.add_le_of_lt (hin.aligned sub hsmem).2 hshas.2
        have hlim := h.limit res hmem
        have hres := (hin.within sub hsmem).2
        have hpos : pageAlign faultAddr < pageAlign faultAddr + pageSize := by unfold pageSize; omega
        rw [hin.splitAt_splitAt, wrap_of_lt (by unfold userAddrLimit at hlim; omega),
          modify_eq_splice hin.valid hsmem hshas.1 hpos hstop]
        rw [Nat.add_sub_cancel_left]
        rw [show splice (pageAlign faultAddr) _ _ _ =
            splice _ (pageAlign faultAddr + pageSize) [⟨pageAlign faultAddr, pageSize, _⟩] _ from rfl,
          find?_splice (s := ⟨pageAlign faultAddr, pageSize, sub.val &&& ~~~pageGuard⟩)]
        exact .guard hfind ((valAt_eq_some hin.valid).mpr ⟨sub, hsmem, hshas, rfl⟩)
          (by simpa using hguard)

/-! ## Requests whose sums stay within 64 bits -/

def Call.NonWrapping (s : State) : Call → Prop
  | .allocate base size _ _ alignment =>
    Fits base size ∧ alignment < 2 ^ 64 ∧ (base = 0 →
      alignMask s.nextFree (pickMask alignment) + regionOf base size < 2 ^ 64)
  | .free base size _ => Fits base size
  | .protect base size _ => Fits base size
  | .handleFault faultAddr => faultAddr < 2 ^ 64

instance (s : State) : DecidablePred (Call.NonWrapping s)
  | .allocate .. => inferInstanceAs (Decidable (_ ∧ _ ∧ _))
  | .free .. => inferInstanceAs (Decidable (_ < _))
  | .protect .. => inferInstanceAs (Decidable (_ < _))
  | .handleFault _ => inferInstanceAs (Decidable (_ < _))

theorem Call.Bounded.nonWrapping (h : Booked s) {call : Call} (hb : call.Bounded) :
    call.NonWrapping s := by
  cases call with
  | allocate base size allocType prot alignment =>
    obtain ⟨hb, hs, ha⟩ := hb
    have hfits := fits_of_le hb hs
    refine ⟨hfits, ha, fun _ => alignMask_add_lt h.nextFree.2 ?_⟩
    have := hfits.region
    unfold userAddrLimit at hb hs
    unfold pageSize at this
    omega
  | free base size freeType => exact fits_of_le hb.1 hb.2
  | protect base size newProt => exact fits_of_le hb.1 hb.2
  | handleFault faultAddr =>
    simp only [Call.Bounded, userAddrLimit] at hb
    simp only [Call.NonWrapping]
    omega

theorem Placed.lt (h : Booked s) {prot : Prot}
    (hok : (Call.allocate base size allocType prot alignment).NonWrapping s)
    (hp : Placed s base size allocType alignment target) : target + regionOf base size < 2 ^ 64 := by
  by_cases hb : base = 0
  · rw [Placed, if_neg (not_not.mpr hb)] at hp
    exact pickLoop_lt h.limit h.valid _ _ _ (hok.2.2 hb) hp
  · have h1 := hp.le hb
    have h2 := hok.1.region_lt
    omega

theorem Targets.lt (h : Booked s) {prot : Prot}
    (hok : (Call.allocate base size allocType prot alignment).NonWrapping s)
    (ht : Targets s base size allocType alignment target) : target + regionOf base size < 2 ^ 64 := by
  rcases ht with ⟨-, rfl, -⟩ | hp
  · exact hok.1.region_lt
  · exact hp.lt h hok

end Kernemul.UserMem
