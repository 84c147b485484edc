import Kernemul.Win.UserMem.PageMap

/-!
# What an allocation may be relied on for

`Covers` and `AllocateSafe` are what a caller expects of a successful `allocate`: that the range answered
holds the range asked for, and that it is a range of the user half, long enough and apart from every other
reservation, in exact arithmetic. Each holds on a condition, and the condition is exact.
-/

namespace Kernemul.UserMem

open Segments

/-! ## The range asked for -/

/-- A successful `allocate` answers a range with every byte asked for, at the allocation granularity when
it reserves, and with the pages of those bytes committed when it commits. -/
def Covers (s : State) (base size : Nat) (allocType : BitVec 32) (prot : Prot) (alignment : Nat) :
    Prop :=
  ∀ ret s', allocate s base size allocType prot alignment = some (ret, s') → ret.status = .success →
    (∀ a, base ≤ a → a < base + size → ret.Has a) ∧
    (hasBits allocType memReserve = true → ret.base % allocGranularity = 0) ∧
    (hasBits allocType memCommit = true → ∀ a, base ≤ a → a < base + size →
      ∃ prot, absAt s' (pageAlign a) = .committed prot)

/-- A base in the first page of its granule, or a request whose base is not rounded to one. -/
def BaseKept (base size : Nat) (allocType : BitVec 32) : Prop :=
  size = 0 ∨ hasBits allocType memReserve = false ∨ base % allocGranularity < pageSize

instance (base size : Nat) (allocType : BitVec 32) : Decidable (BaseKept base size allocType) :=
  inferInstanceAs (Decidable (_ ∨ _ ∨ _))

variable {s : State} {base size alignment : Nat} {allocType : BitVec 32}

theorem Accepts.succeeds (h : Booked s) (ha : alignment < 2 ^ 64) (hacc : Accepts s base size allocType alignment)
    (prot : Prot) :
    ∃ target s', allocate s base size allocType prot alignment =
        some (⟨.success, target, regionOf base size⟩, s') ∧
      Targets s base size allocType alignment target := by
  obtain ⟨⟨ret, s'⟩, hret⟩ := Option.ne_none_iff_exists'.mp (hacc.returns prot)
  have hout := allocate_outcome h ha hret
  cases hout with
  | refused hnot => exact absurd hacc hnot
  | committed hacc hin =>
    obtain ⟨-, hb, -, hres⟩ := commitsIn_eq_some h hin
    exact ⟨_, _, hret, Or.inl ⟨hb, rfl, hres⟩⟩
  | reserved hacc hn hnone hplaced => exact ⟨_, _, hret, Or.inr hplaced⟩
  | wrapped hacc hpos htarget => exact ⟨_, _, hret, htarget⟩

/-- A success is a request that got through, for a range at one of its targets. -/
theorem accepts_of_success {s' : State} (h : Booked s) {prot : Prot} (ha : alignment < 2 ^ 64) {ret : Ret}
    (hret : allocate s base size allocType prot alignment = some (ret, s')) (hsuccess : ret.status = .success) :
    Accepts s base size allocType alignment ∧ 0 < regionOf base size ∧
      ret.size = regionOf base size ∧ Targets s base size allocType alignment ret.base := by
  have hout := allocate_outcome h ha hret
  clear hret
  cases hout with
  | refused hnot hstatus => exact absurd hsuccess hstatus
  | committed hacc hin hpos =>
    obtain ⟨-, hb, -, hres⟩ := commitsIn_eq_some h hin
    exact ⟨hacc, hpos, rfl, Or.inl ⟨hb, rfl, hres⟩⟩
  | reserved hacc hn hnone hplaced hpage hpos => exact ⟨hacc, hpos, rfl, Or.inr hplaced⟩
  | wrapped hacc hpos htarget => exact ⟨hacc, hpos, rfl, htarget⟩

/-- Where a request with a base goes: to the base's page, or to its granule when it reserves. -/
theorem Targets.eq {target : Nat} (hb : base ≠ 0) (ht : Targets s base size allocType alignment target) :
    target = if hasBits allocType memReserve then base - base % allocGranularity
      else pageAlign base := by
  rcases ht with ⟨-, rfl, hres⟩ | hp
  · rw [if_neg (by simp [hres])]
  · rwa [Placed, if_pos hb] at hp

/-- The range at a target holds the range asked for exactly when the base is kept. -/
theorem covers_target {target : Nat}
    (hb : base ≠ 0) (hfits : Fits base size) (ht : Targets s base size allocType alignment target) :
    (∀ a, base ≤ a → a < base + size → target ≤ a ∧ a < target + regionOf base size) ↔
      BaseKept base size allocType := by
  have htarget := ht.eq hb
  obtain ⟨hlow, hhigh⟩ := hfits.region
  have h1 := pageAlign_le base
  have h2 := lt_pageAlign_add base
  have h3 := isPage_pageAlign base
  unfold BaseKept
  unfold IsPage allocGranularity pageSize at *
  constructor
  · intro hcover
    by_contra hcon
    simp only [not_or, Bool.not_eq_false] at hcon
    obtain ⟨hsize, hres, hgranule⟩ := hcon
    rw [if_pos hres] at htarget
    have hlast := (hcover (base + size - 1) (by omega) (by omega)).2
    omega
  · rintro (rfl | hres | hgranule) a ha1 ha2
    · omega
    · rw [if_neg (by simp [hres])] at htarget
      omega
    · have : target = pageAlign base := by
        rw [htarget]
        split <;> omega
      omega

/-- **`allocate` answers the range asked for exactly when it keeps the base.** -/
theorem covers_iff {phys : Nat} {requests : List Request} {s : State} (h : SoundRun phys requests s)
    {base size alignment : Nat} {allocType : BitVec 32} {prot : Prot} (hb : base ≠ 0)
    (hok : (Call.allocate base size allocType prot alignment).NonWrapping s) :
    Covers s base size allocType prot alignment ↔
      (Accepts s base size allocType alignment → BaseKept base size allocType) := by
  have hbooked := soundRun_booked h
  constructor
  · intro hcovers hacc
    obtain ⟨target, s', hret, htarget⟩ := hacc.succeeds hbooked hok.2.1 prot
    exact (covers_target hb hok.1 htarget).mp (hcovers _ _ hret rfl).1
  · intro hkept ret s' hret hsuccess
    obtain ⟨hacc, -, hsize, htarget⟩ := accepts_of_success hbooked hok.2.1 hret hsuccess
    have hcover : ∀ a, base ≤ a → a < base + size → ret.Has a := by
      rw [← covers_target hb hok.1 htarget, ← hsize] at hkept
      exact hkept hacc
    refine ⟨hcover, fun hres => ?_, fun hcommit a ha1 ha2 => ⟨prot, ?_⟩⟩
    · rw [htarget.eq hb, if_pos hres]
      unfold allocGranularity
      omega
    · have hpage : IsPage ret.base := by
        rw [htarget.eq hb]
        split
        · unfold IsPage allocGranularity pageSize
          omega
        · exact isPage_pageAlign base
      have hhas : ret.Has (pageAlign a) := by
        have h1 := hcover a ha1 ha2
        have h2 := pageAlign_le a
        have h3 := lt_pageAlign_add a
        have h4 := isPage_pageAlign a
        unfold Ret.Has at h1 ⊢
        unfold IsPage pageSize at *
        omega
      rw [(allocate_exact hbooked hok ret s' hret).2 hsuccess, if_pos hhas, if_pos hcommit]

theorem covers_iff_granule : Covers (State.init 0) 0x10F000 0x1000 (memCommit ||| memReserve)
    pageReadwrite 0 ↔ (Accepts (State.init 0) 0x10F000 0x1000 (memCommit ||| memReserve) 0 →
      BaseKept 0x10F000 0x1000 (memCommit ||| memReserve)) :=
  covers_iff (show SoundRun 0 [] (State.init 0) from .nil _) (by decide) (by decide)

/-- The last page of a granule is asked for, the first one is answered. -/
theorem allocate_drops_tail :
    (Call.allocate 0x10F000 0x1000 (memCommit ||| memReserve) pageReadwrite 0).NonWrapping
      (State.init 0) ∧
    ¬ Covers (State.init 0) 0x10F000 0x1000 (memCommit ||| memReserve) pageReadwrite 0 := by
  refine ⟨by decide, fun hcovers => ?_⟩
  have hret : (allocate (State.init 0) 0x10F000 0x1000 (memCommit ||| memReserve) pageReadwrite 0).map
      Prod.fst = some ⟨.success, 0x100000, 0x1000⟩ := by decide +kernel
  obtain ⟨⟨ret, s'⟩, heq, rfl⟩ := Option.map_eq_some_iff.mp hret
  have hbyte := ((hcovers _ s' heq rfl).1 0x10F000 (by decide) (by decide)).2
  exact absurd hbyte (by decide)

/-! ## Exact arithmetic -/

/-- A successful `allocate` answers a range that ends below the user limit, is as long as asked for, lies in
one reservation and meets no other, and is committed throughout when it commits; a failure changes neither
the books nor the page tables. -/
def AllocateSafe (s : State) (base size : Nat) (allocType : BitVec 32) (prot : Prot)
    (alignment : Nat) : Prop :=
  ∀ ret s', allocate s base size allocType prot alignment = some (ret, s') →
    (ret.status = .success →
      ret.base + ret.size ≤ userAddrLimit ∧ size ≤ ret.size ∧
      (∃ res ∈ s'.reservations, (res.base ≤ ret.base ∧ ret.base + ret.size ≤ res.stop) ∧
        ∀ r ∈ s'.reservations, r ≠ res → r.stop ≤ ret.base ∨ ret.base + ret.size ≤ r.base) ∧
      (hasBits allocType memCommit = true → ∀ p, ret.Has p → absAt s' p = .committed prot)) ∧
    (ret.status ≠ .success → s'.reservations = s.reservations ∧ s'.pages = s.pages)

/-- A range within 64 bits that is as long as asked for has no sum that wraps. -/
theorem nonWrapping_of_target (h : Booked s) {target : Nat} (prot : Prot) (ha : alignment < 2 ^ 64)
    (ht : Targets s base size allocType alignment target) (hpos : 0 < regionOf base size)
    (hlim : target + regionOf base size ≤ userAddrLimit) (hsize : size ≤ regionOf base size) :
    (Call.allocate base size allocType prot alignment).NonWrapping s := by
  have hshort : regionOf base size < 2 ^ 49 := by
    unfold userAddrLimit at hlim
    omega
  refine ⟨fits_of_region hsize hpos ?_, ha, fun _ => alignMask_add_lt h.nextFree.2 hshort⟩
  by_cases hb : base = 0
  · rw [hb, show pageAlign 0 = 0 by decide, ← hb]
    omega
  · have htarget := ht.eq hb
    have h1 := pageAlign_le base
    have hle : pageAlign base ≤ target + allocGranularity := by
      rw [htarget]
      unfold allocGranularity
      split <;> omega
    unfold userAddrLimit at hlim
    unfold allocGranularity at hle
    omega

theorem Booked.apart (h : Booked s) {res : Seg Reservation} (hres : res ∈ s.reservations)
    {lo hi : Nat} (hlo : res.base ≤ lo) (hhi : hi ≤ res.stop) :
    ∀ r ∈ s.reservations, r ≠ res → r.stop ≤ lo ∨ hi ≤ r.base := by
  intro r hr hne
  rcases h.valid.apart hr hres hne with h1 | h1 <;> omega

/-- **`allocate` is safe in exact arithmetic exactly when no sum of a request it lets through wraps.** -/
theorem allocateSafe_iff {phys : Nat} {requests : List Request} {s : State}
    (h : SoundRun phys requests s) {base size alignment : Nat} {allocType : BitVec 32} {prot : Prot}
    (ha : alignment < 2 ^ 64) :
    AllocateSafe s base size allocType prot alignment ↔
      (Accepts s base size allocType alignment →
        (Call.allocate base size allocType prot alignment).NonWrapping s) := by
  have hbooked := soundRun_booked h
  constructor
  · intro hsafe hacc
    obtain ⟨target, s', hret, htarget⟩ := hacc.succeeds hbooked ha prot
    obtain ⟨hlim, hsize, -⟩ := (hsafe _ _ hret).1 rfl
    exact nonWrapping_of_target hbooked prot ha htarget (Nat.pos_of_ne_zero hacc.1) hlim hsize
  · intro hwrap ret s' hret
    have hbooked' : Booked s' :=
      hbooked.step (show (Request.call (.allocate base size allocType prot alignment)).Sound s from
        ⟨ha, hwrap⟩) (by rw [step, hret]; rfl)
    have hlong : Accepts s base size allocType alignment → size ≤ regionOf base size := fun hacc => by
      have h1 := (hwrap hacc).1.region
      have h2 := pageAlign_le base
      omega
    have hcommitted : ret.status = .success → hasBits allocType memCommit = true →
        ∀ p, ret.Has p → absAt s' p = .committed prot := fun hsuccess hcommit p hp => by
      have hacc := (accepts_of_success hbooked ha hret hsuccess).1
      rw [(allocate_exact hbooked (hwrap hacc) ret s' hret).2 hsuccess, if_pos hp, if_pos hcommit]
    have hinside : ∀ (lo hi : Nat) {res : Seg Reservation}, res ∈ s'.reservations → res.base ≤ lo →
        hi ≤ res.stop → ∃ res ∈ s'.reservations, (res.base ≤ lo ∧ hi ≤ res.stop) ∧
          ∀ r ∈ s'.reservations, r ≠ res → r.stop ≤ lo ∨ hi ≤ r.base :=
      fun lo hi _ hmem hlo hhi => ⟨_, hmem, ⟨hlo, hhi⟩, hbooked'.apart hmem hlo hhi⟩
    have hout := allocate_outcome hbooked ha hret
    clear hret
    cases hout with
    | refused hnot hstatus => exact ⟨fun hsuccess => absurd hsuccess hstatus, fun _ => ⟨rfl, rfl⟩⟩
    | committed hacc hin hpos hle =>
      obtain ⟨⟨hmem, hhas⟩, -⟩ := commitsIn_eq_some hbooked hin
      obtain ⟨res', hmem', hb, hs⟩ := exists_mem_commit hmem _ (pageAlign base)
        (pageAlign base + regionOf base size) prot
      have hrange := hinside (pageAlign base) (pageAlign base + regionOf base size) hmem'
        (hb.trans_le hhas.1) (by rwa [Seg.stop, hb, hs])
      exact ⟨fun hsuccess => ⟨hle.trans (hbooked.limit _ hmem), hlong hacc, hrange,
        hcommitted hsuccess⟩, fun hne => absurd rfl hne⟩
    | @reserved target n hacc hn hnone hplaced hpage hpos hlim hdis =>
      obtain ⟨res', hmem', hb, hs⟩ := exists_mem_addReservation (hbooked.withNextFree hn) hpos hdis
        (hasBits allocType memCommit) prot
      have hrange := hinside target (target + regionOf base size) hmem' hb.le
        (by rw [Seg.stop, hb, hs])
      exact ⟨fun hsuccess => ⟨hlim, hlong hacc, hrange, hcommitted hsuccess⟩,
        fun hne => absurd rfl hne⟩
    | wrapped hacc hpos htarget hw => exact absurd hw (not_le.mpr (htarget.lt hbooked (hwrap hacc)))

theorem allocateSafe_iff_huge : AllocateSafe (State.init 0) 0 0xFFFFFFFFFFFFF000 memReserve
    pageReadwrite 0 ↔ (Accepts (State.init 0) 0 0xFFFFFFFFFFFFF000 memReserve 0 →
      (Call.allocate 0 0xFFFFFFFFFFFFF000 memReserve pageReadwrite 0).NonWrapping (State.init 0)) :=
  allocateSafe_iff (show SoundRun 0 [] (State.init 0) from .nil _) (by decide)

/-- All of the address space but a page is reserved past the user limit. -/
theorem allocate_wraps : ¬ AllocateSafe (State.init 0) 0 0xFFFFFFFFFFFFF000 memReserve pageReadwrite 0 := by
  intro hsafe
  have hret : (allocate (State.init 0) 0 0xFFFFFFFFFFFFF000 memReserve pageReadwrite 0).map
      Prod.fst = some ⟨.success, 0x100000000, 0xFFFFFFFFFFFFF000⟩ := by decide +kernel
  obtain ⟨⟨ret, s'⟩, heq, rfl⟩ := Option.map_eq_some_iff.mp hret
  have hlim := ((hsafe _ s' heq).1 rfl).1
  exact absurd hlim (by decide)

end Kernemul.UserMem
