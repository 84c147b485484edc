import Kernemul.Win.UserMem.Residency

/-!
# Committed ranges

A range that is one whole reservation, committed throughout, stays one through every call but a `free`
that finds it. `alloc_pages` makes such a range, and `register_image` leaves it one under its new type.
-/

namespace Kernemul.UserMem

open Segments

/-- `[base, base + size)` is one reservation, committed throughout. -/
def CommittedRange (s : State) (base size : Nat) : Prop :=
  (∃ res, findReservation s base = some res ∧ res.base = base ∧ res.size = size) ∧
    ∀ p, IsPage p → base ≤ p → p < base + size → committedAt s p ≠ none

variable {s : State}

variable {res : Seg Reservation}

theorem findReservation_base (hv : Valid s.reservations)
    (hres : res ∈ s.reservations) : findReservation s res.base = some res :=
  (find_eq_some hv).mpr ⟨hres, le_rfl, hv.base_lt_stop hres⟩

variable {base size : Nat}

theorem CommittedRange.reservation (h : VadInv s)
    (hr : CommittedRange s base size) : ∃ res ∈ s.reservations, res.base = base ∧ res.size = size :=
  let ⟨⟨res, hfind, hb, hs⟩, _⟩ := hr
  ⟨res, (h.booked.of_find hfind).1, hb, hs⟩

theorem CommittedRange.of_mem (hv : Valid s.reservations) (hres : res ∈ s.reservations)
    (hc : ∀ p, IsPage p → res.Has p → valAt res.val.committed p ≠ none) :
    CommittedRange s res.base res.size := by
  refine ⟨⟨res, findReservation_base hv hres, rfl, rfl⟩, fun p hp h1 h2 => ?_⟩
  have hhas : res.Has p := ⟨h1, h2⟩
  rw [committedAt_of_mem hv hres hhas]
  exact hc p hp hhas

/-- What keeps a range committed: its reservation is still there, and no page of it was given up. -/
theorem CommittedRange.keep {s s' : State} (h : VadInv s) (hv' : Valid s'.reservations)
    {base size : Nat} (hr : CommittedRange s base size)
    (hentry : ∀ r ∈ s.reservations, r.base = base →
      ∃ r' ∈ s'.reservations, r'.base = r.base ∧ r'.size = r.size)
    (hpages : ∀ p, IsPage p → base ≤ p → p < base + size → committedAt s p ≠ none →
      committedAt s' p ≠ none) : CommittedRange s' base size := by
  obtain ⟨r, hmem, hb, hs⟩ := hr.reservation h
  obtain ⟨r', hmem', hb', hs'⟩ := hentry r hmem hb
  refine ⟨⟨r', ?_, hb'.trans hb, hs'.trans hs⟩, fun p hp h1 h2 => hpages p hp h1 h2 (hr.2 p hp h1 h2)⟩
  have hfind := findReservation_base hv' hmem'
  rwa [hb', hb] at hfind

/-! ## Allocating -/

variable {s' : State} {prot : Prot}

variable {allocType : BitVec 32}

theorem allocate_keepsEntries (h : VadInv s) {alignment : Nat} {ret : Ret}
    (hb : (Call.allocate base size allocType prot alignment).Bounded)
    (hstep : allocate s base size allocType prot alignment = some (ret, s')) {r : Seg Reservation}
    (hr : r ∈ s.reservations) : ∃ r' ∈ s'.reservations, r'.base = r.base ∧ r'.size = r.size := by
  cases allocate_outcome h.booked hb.2.2 hstep with
  | refused => exact ⟨r, hr, rfl, rfl⟩
  | committed => exact exists_mem_commit hr _ _ _ _
  | reserved hacc hn hnone hplaced hpage hpos hlim hdis =>
    exact ⟨r, (mem_put (h.booked.ne_base hpos hdis)).mpr (Or.inr hr), rfl, rfl⟩
  | wrapped hacc hpos htarget hw =>
    exact absurd hw (not_le.mpr (htarget.lt h.booked (hb.nonWrapping h.booked)))

theorem allocate_keepsCommitted (h : VadInv s) {alignment : Nat} {ret : Ret}
    (hb : (Call.allocate base size allocType prot alignment).Bounded)
    (hstep : allocate s base size allocType prot alignment = some (ret, s')) {p : Nat} (hp : IsPage p)
    (hc : committedAt s p ≠ none) : committedAt s' p ≠ none := by
  have hstep' : step s (.allocate base size allocType prot alignment) = some s' := by
    rw [step, hstep]
    rfl
  obtain ⟨a, -, hmoves⟩ := step_moves h hb hstep'
  exact (hmoves p hp).keeps (fun _ _ _ hcall => by cases hcall) hstep' hc

theorem CommittedRange.allocate (h : VadInv s) {alignment : Nat} {ret : Ret}
    (hb : (Call.allocate base size allocType prot alignment).Bounded)
    (hstep : UserMem.allocate s base size allocType prot alignment = some (ret, s')) {b n : Nat}
    (hr : CommittedRange s b n) : CommittedRange s' b n := by
  have hv' : VadInv s' := step_vadInv h hb (by rw [step, hstep]; rfl)
  exact hr.keep h hv'.valid (fun _ hmem _ => allocate_keepsEntries h hb hstep hmem)
    fun p hp _ _ hc => allocate_keepsCommitted h hb hstep hp hc

theorem allocPages_allocate (h : allocPages s size prot = some (base, s')) :
    ∃ ret, allocate s 0 size (memCommit ||| memReserve) prot 0 = some (ret, s') ∧
      base = if ret.status = .success then ret.base else 0 := by
  unfold allocPages at h
  obtain ⟨⟨ret, s₁⟩, hret, heq⟩ := Option.map_eq_some_iff.mp h
  cases heq
  exact ⟨ret, hret, rfl⟩

/-- The base `alloc_pages` tries. -/
def nextBase (s : State) (size : Nat) : Option Nat := (pickBase s (sizeAlign size) 0).map Prod.fst

theorem zero_bounded (hs : size ≤ userAddrLimit) (prot : Prot) :
    (Call.allocate 0 size (memCommit ||| memReserve) prot 0).Bounded :=
  ⟨by decide, hs, by decide⟩

theorem nextBase_of_picks (h : Picks s (sizeAlign size) 0 base) :
    nextBase s size = some base := by
  rw [nextBase, pickBase_of_picks h, Option.map_some]

/-- `alloc_pages` answers the base that was picked, with a new reservation committed there. -/
theorem allocPages_spec (h : VadInv s) (hs : size ≤ userAddrLimit)
    (hstep : allocPages s size prot = some (base, s')) (hbase : base ≠ 0) :
    nextBase s size = some base ∧ CommittedRange s' base (sizeAlign size) := by
  obtain ⟨ret, hret, rfl⟩ := allocPages_allocate hstep
  have hok : ret.status = .success := by
    by_contra hne
    exact hbase (if_neg hne)
  rw [if_pos hok] at hbase ⊢
  have hv' : VadInv s' := step_vadInv h (zero_bounded hs prot) (by rw [step, hret]; rfl)
  have hregion : regionOf 0 size = sizeAlign size := by
    rw [regionOf, show pageAlign 0 = 0 by decide, Nat.sub_zero, Nat.add_zero,
      wrap_of_lt (by unfold userAddrLimit at hs; omega)]
  cases allocate_outcome h.booked (by decide) hret with
  | refused hnot hstatus => exact absurd hok hstatus
  | committed hacc hin =>
    obtain ⟨-, hzero, -⟩ := commitsIn_eq_some h.booked hin
    exact absurd rfl hzero
  | reserved hacc hn hnone hplaced hpage hpos hlim hdis =>
    rw [Placed, if_neg (by simp), hregion] at hplaced
    refine ⟨nextBase_of_picks hplaced, ?_⟩
    rw [← hregion]
    refine CommittedRange.of_mem hv'.valid
      ((mem_put (h.booked.ne_base hpos hdis)).mpr (Or.inl rfl)) fun p _ hp => ?_
    rw [initialCommitted, if_pos (by decide), valAt_single (s := ⟨_, regionOf 0 size, prot⟩) hp]
    simp
  | wrapped hacc hpos htarget hw =>
    exact absurd hw (not_le.mpr (htarget.lt h.booked ((zero_bounded hs prot).nonWrapping h.booked)))

/-! ## Registering an image -/

/-- Over a committed range, `register_image` changes the type and the protection of the entry. -/
theorem registerImage_eq (h : VadInv s) (hres : res ∈ s.reservations) (hs : res.size = sizeAlign size) :
    registerImage s res.base size = { s with
      reservations := modify res.base (fun _ => ⟨pageExecuteReadwrite, memImage,
        [⟨res.base, res.size, pageExecuteReadwrite⟩]⟩) s.reservations
      pages := s.pages } := by
  unfold registerImage
  simp only [← hs]
  congr 1
  exact put_eq_modify h.valid hres rfl rfl

theorem registerImage_vadInv (h : VadInv s)
    (hr : CommittedRange s base (sizeAlign size)) : VadInv (registerImage s base size) := by
  obtain ⟨res, hres, rfl, hs⟩ := hr.reservation h
  have hpos := h.valid.pos res hres
  rw [registerImage_eq h hres hs]
  exact h.editWith hres
    (initialCommitted_in (h.aligned res hres).1 (h.booked.isPage_size hres) hpos true
      pageExecuteReadwrite)
    (maximal_initialCommitted hpos true pageExecuteReadwrite)

theorem CommittedRange.registerImage (h : VadInv s)
    {b n : Nat} (hbn : CommittedRange s b n) (hr : CommittedRange s base (sizeAlign size)) :
    CommittedRange (UserMem.registerImage s base size) b n := by
  obtain ⟨res, hres, rfl, hs⟩ := hr.reservation h
  have hv' := registerImage_vadInv h hr
  rw [registerImage_eq h hres hs] at hv' ⊢
  refine hbn.keep h hv'.valid (fun r hmem _ => ?_) fun p _ _ _ hc => ?_
  · dsimp only
    exact exists_entry_modify hmem _ _
  · rw [committedAt_modify h.booked hres]
    split
    · rename_i hp
      rw [valAt_single (s := ⟨res.base, res.size, pageExecuteReadwrite⟩) hp]
      simp
    · exact hc

/-! ## Giving pages up -/

/-- A call of `free` that finds another reservation leaves the range alone. -/
theorem CommittedRange.free (h : VadInv s) {t : BitVec 32}
    (hb : (Call.free base size t).Bounded) {b n : Nat} (hr : CommittedRange s b n)
    (hother : ∀ res, findReservation s (pageAlign base) = some res → res.base ≠ b) :
    CommittedRange (UserMem.free s base size t).2 b n := by
  have hv' : VadInv (UserMem.free s base size t).2 := step_vadInv h hb rfl
  obtain ⟨view, hview, hvb, hvs⟩ := hr.reservation h
  -- the reservation of the range is still there as it was
  have hstay : view ∈ (UserMem.free s base size t).2.reservations := by
    have hout := free_outcome h.booked base size t
    generalize (UserMem.free s base size t).1 = ret at hout
    generalize (UserMem.free s base size t).2 = s' at hout
    cases hout with
    | refused => exact hview
    | released hbits hfind =>
      have hne := hother _ hfind
      exact List.mem_filter.mpr ⟨hview, by simpa [hvb] using fun heq' => hne heq'.symm⟩
    | decommitted hbits hfind =>
      have hne := hother _ hfind
      simp only [State.decommit, State.setCommitted]
      refine mem_modify.mpr ⟨view, hview, rfl, rfl, ?_⟩
      rw [if_neg fun heq' => hne (heq'.symm.trans hvb)]
    | wrapped hbits hfind hw =>
      exact absurd hw (not_le.mpr (hb.nonWrapping h.booked).region_lt)
  refine hr.keep h hv'.valid (fun r hmem hrb => ?_) fun p hp h1 h2 hc => ?_
  · have h3 := h.valid.base_lt_stop hmem
    have h4 := h.valid.base_lt_stop hview
    have heq : r = view := h.valid.eq_of_has hmem hview (a := r.base) ⟨le_rfl, h3⟩ ⟨by omega, by omega⟩
    exact ⟨view, hstay, by rw [heq], by rw [heq]⟩
  · have hhas : view.Has p := ⟨by omega, by unfold Seg.stop; omega⟩
    rw [committedAt_of_mem hv'.valid hstay hhas, ← committedAt_of_mem h.valid hview hhas]
    exact hc

end Kernemul.UserMem
