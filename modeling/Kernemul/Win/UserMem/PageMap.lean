import Kernemul.Win.UserMem.Requests
import Kernemul.Win.UserMem.Moves

/-!
# The calls as updates of a page map

What the books stand for: each user page is free, reserved with a protection, or committed with one. The
merged and split runs of the books are one way to write that map down, and each call updates the map on
exactly the pages it names.
-/

namespace Kernemul.UserMem

open Segments

/-! ## The map -/

inductive PageState
  | free
  | reserved (initialProt : Prot)
  | committed (prot : Prot)
  deriving DecidableEq, Repr

def pageState (initialProt : Prot) : Option Prot → PageState
  | none => .reserved initialProt
  | some prot => .committed prot

def absAt (s : State) (p : Nat) : PageState :=
  match findReservation s p with
  | none => .free
  | some r => pageState r.val.initialProt (valAt r.val.committed p)

theorem absAt_of_mem {s : State} (hv : Valid s.reservations) {r : Seg Reservation} {p : Nat}
    (hr : r ∈ s.reservations) (hp : r.Has p) :
    absAt s p = pageState r.val.initialProt (valAt r.val.committed p) := by
  rw [absAt, findReservation, (find_eq_some hv).mpr ⟨hr, hp⟩]

theorem absAt_congr {s s' : State} (h : s'.reservations = s.reservations) (p : Nat) :
    absAt s' p = absAt s p := by
  rw [absAt, absAt, findReservation, findReservation, h]

/-! ## The map after an edit -/

section Edits
variable {s : State} (h : Booked s) {res : Seg Reservation} (hres : res ∈ s.reservations)
include h hres

theorem absAt_edit (m : Pages) (c : Committed) (p : Nat) :
    absAt ({ s with pages := m }.setCommitted res.base c) p =
      if res.Has p then pageState res.val.initialProt (valAt c p) else absAt s p := by
  rw [absAt, findReservation, State.setCommitted]
  simp only [find_modify_of_mem h.valid hres]
  by_cases hp : res.Has p
  · rw [if_pos hp, if_pos hp]
  · rw [if_neg hp, if_neg hp, absAt, findReservation]

/-- The map after the committed regions of `res` were replaced inside `[lo, hi)`. -/
theorem absAt_splice (m : Pages) {lo hi : Nat} (hle : lo ≤ hi) {w c : Committed}
    (hw : CommittedIn lo hi w) (hc : ∀ x, valAt c x = valAt (splice lo hi w res.val.committed) x)
    (p : Nat) :
    absAt ({ s with pages := m }.setCommitted res.base c) p =
      if res.Has p ∧ lo ≤ p ∧ p < hi then pageState res.val.initialProt (valAt w p)
      else absAt s p := by
  rw [absAt_edit h hres, hc, valAt_splice (h.inside res hres).valid hle hw.valid hw.within]
  by_cases hp : res.Has p
  · rw [if_pos hp]
    by_cases hr : lo ≤ p ∧ p < hi
    · rw [if_pos hr, if_pos ⟨hp, hr⟩]
    · rw [if_neg hr, if_neg fun h => hr h.2, absAt_of_mem h.valid hres hp]
  · rw [if_neg hp, if_neg fun h => hp h.1]

theorem absAt_commit {lo hi : Nat} (hlo : IsPage lo) (hhi : IsPage hi) (hb : res.base ≤ lo)
    (hlt : lo < hi) (hs : hi ≤ res.stop) (prot : Prot) (p : Nat) :
    absAt (s.commit res lo hi prot) p = if lo ≤ p ∧ p < hi then .committed prot else absAt s p := by
  have hin := h.inside res hres
  obtain ⟨hw, hcov⟩ := commitLoop_committed prot hhi (part lo hi res.val.committed) lo s.pages hlo
    hlt.le (hin.part hlo hhi).1
  rw [State.commit, absAt_splice h hres _ hlt.le hw
    (valAt_mergeAdjacent (valid_splice hin.valid hlt.le hw.valid hw.within))]
  by_cases hp : lo ≤ p ∧ p < hi
  · rw [if_pos ⟨⟨by omega, by omega⟩, hp⟩, if_pos hp, hcov p hp.1 hp.2]
    rfl
  · rw [if_neg fun h => hp h.2, if_neg hp]

theorem absAt_decommit {lo hi : Nat} (hlt : lo < hi) (p : Nat) :
    absAt (s.decommit res lo hi) p =
      if res.Has p ∧ lo ≤ p ∧ p < hi then .reserved res.val.initialProt else absAt s p := by
  rw [State.decommit, absAt_splice h hres _ hlt.le CommittedIn.nil fun _ => rfl]
  rfl

theorem absAt_reprotect {lo hi : Nat} (hlo : IsPage lo) (hhi : IsPage hi) (hle : lo ≤ hi)
    (newProt : Prot) (p : Nat) :
    absAt (s.reprotect res lo hi newProt) p =
      if res.Has p ∧ (lo ≤ p ∧ p < hi) ∧ valAt res.val.committed p ≠ none then .committed newProt
      else absAt s p := by
  have hin := h.inside res hres
  have hpart := (hin.part hlo hhi).1
  have hw := hpart.withProt newProt
  rw [State.reprotect, absAt_splice h hres _ hle hw
    (valAt_mergeAdjacent (valid_splice hin.valid hle hw.valid hw.within)), valAt_withProt hpart]
  by_cases hp : res.Has p ∧ lo ≤ p ∧ p < hi
  · rw [if_pos hp, valAt_part hin.valid hle hp.2.1 hp.2.2, absAt_of_mem h.valid hres hp.1]
    cases valAt res.val.committed p with
    | none => simp [pageState]
    | some old => simp [pageState, hp]
  · rw [if_neg hp, if_neg fun h => hp ⟨h.1, h.2.1⟩]

theorem absAt_faultIn {page : Nat} (hpage : IsPage page) (hhas : res.Has page) (prot : Prot)
    (p : Nat) :
    absAt (s.faultIn res page prot) p =
      if page ≤ p ∧ p < page + pageSize then .committed prot else absAt s p := by
  have hin := h.inside res hres
  have hstop := hpage.add_le_of_lt (h.aligned res hres).2 hhas.2
  have hw : CommittedIn page (page + pageSize) [⟨page, pageSize, prot⟩] :=
    (CommittedIn.nil : CommittedIn (page + pageSize) (page + pageSize) []).cons hpage
      (hpage.add isPage_pageSize) (show 0 < pageSize by decide) le_rfl le_rfl le_rfl
  have hle : page ≤ page + pageSize := Nat.le_add_right _ _
  rw [State.faultIn, absAt_splice h hres _ hle hw
    (valAt_mergeAdjacent (valid_splice hin.valid hle hw.valid hw.within))]
  by_cases hp : page ≤ p ∧ p < page + pageSize
  · have hhasp : res.Has p := ⟨hhas.1.trans hp.1, by omega⟩
    rw [if_pos ⟨hhasp, hp⟩, if_pos hp, valAt_single (s := ⟨page, pageSize, prot⟩) hp]
    rfl
  · rw [if_neg fun h => hp h.2, if_neg hp]

theorem absAt_release (p : Nat) :
    absAt (s.release res) p = if res.Has p then .free else absAt s p := by
  rw [absAt, findReservation, State.release]
  simp only [find_remove h.valid hres]
  by_cases hp : res.Has p
  · rw [if_pos hp, if_pos hp]
  · rw [if_neg hp, if_neg hp, absAt, findReservation]

end Edits

theorem absAt_addReservation {s : State} (h : Booked s) {target region : Nat} (hpos : 0 < region)
    (hdis : ∀ r ∈ s.reservations, r.stop ≤ target ∨ target + region ≤ r.base) (n : Nat)
    (doCommit : Bool) (prot : Prot) (p : Nat) :
    absAt ({ s with nextFree := n }.addReservation target region doCommit prot) p =
      if target ≤ p ∧ p < target + region then pageState prot (if doCommit then some prot else none)
      else absAt s p := by
  rw [absAt, findReservation, State.addReservation]
  simp only
  rw [find_put (s := ⟨target, region, _⟩) h.valid hpos hdis]
  by_cases hp : target ≤ p ∧ p < target + region
  · rw [if_pos (show Seg.Has ⟨target, region, _⟩ p from hp), if_pos hp]
    simp only [initialCommitted]
    cases doCommit with
    | false => rfl
    | true =>
      rw [if_pos rfl, if_pos rfl, valAt_single (s := ⟨target, region, prot⟩) hp]
  · rw [if_neg (show ¬ Seg.Has ⟨target, region, _⟩ p from hp), if_neg hp]
    rfl

/-! ## Exact updates -/

def Ret.Has (ret : Ret) (p : Nat) : Prop := ret.base ≤ p ∧ p < ret.base + ret.size

instance (ret : Ret) (p : Nat) : Decidable (ret.Has p) :=
  inferInstanceAs (Decidable (_ ∧ _))

/-- What a call made in `s` does to the map. A call that fails leaves it; `allocate` sets the range it
answers, `free` with `MEM_RELEASE` the pages of the reservation it answers, without it the committed pages
of the range that are in the reservation the range starts in, and `handle_fault` touches one page. -/
def Exact (s : State) : Call → Prop
  | .allocate base size allocType prot alignment =>
    ∀ ret s', allocate s base size allocType prot alignment = some (ret, s') →
      (ret.status ≠ .success → ∀ p, absAt s' p = absAt s p) ∧
      (ret.status = .success → ∀ p, absAt s' p =
        if ret.Has p then if hasBits allocType memCommit then .committed prot else .reserved prot
        else absAt s p)
  | .free base size freeType =>
    ∀ ret s', free s base size freeType = (ret, s') →
      (ret.status ≠ .success → ∀ p, absAt s' p = absAt s p) ∧
      (ret.status = .success → ∃ res, findReservation s ret.base = some res ∧
        if hasBits freeType memRelease then
          (ret.base = res.base ∧ ret.size = res.size) ∧
            ∀ p, absAt s' p = if ret.Has p then .free else absAt s p
        else
          ∀ p, absAt s' p = if (ret.Has p ∧ res.Has p) ∧ ∃ prot, absAt s p = .committed prot then
            .reserved res.val.initialProt else absAt s p)
  | .protect base size newProt =>
    ∀ ret old s', protect s base size newProt = (ret, old, s') →
      ret.status ≠ .success → ∀ p, absAt s' p = absAt s p
  | .handleFault faultAddr =>
    ∀ answer s', handleFault s faultAddr = (answer, s') →
      (answer = false → ∀ p, absAt s' p = absAt s p) ∧
        ∀ p, pageAlign p ≠ pageAlign faultAddr → absAt s' p = absAt s p

theorem allocate_exact {s : State} (h : Booked s) {base size alignment : Nat}
    {allocType : BitVec 32} {prot : Prot}
    (hok : (Call.allocate base size allocType prot alignment).NonWrapping s) :
    Exact s (.allocate base size allocType prot alignment) := by
  intro ret s' hret
  have hout := allocate_outcome h hok.2.1 hret
  clear hret
  cases hout with
  | refused hnot hstatus => exact ⟨fun _ => absAt_congr rfl, fun hsuccess => absurd hsuccess hstatus⟩
  | committed hacc hin hpos hle =>
    obtain ⟨⟨hmem, hhas⟩, -, hbits, -⟩ := commitsIn_eq_some h hin
    have hlo := isPage_pageAlign base
    refine ⟨fun hne => absurd rfl hne, fun _ p => ?_⟩
    rw [absAt_commit h hmem hlo (hlo.add (isPage_regionOf base size)) hhas.1 (by omega) hle,
      if_pos hbits]
    rfl
  | reserved hacc hn hnone hplaced hpage hpos hlim hdis =>
    refine ⟨fun hne => absurd rfl hne, fun _ p => ?_⟩
    rw [absAt_addReservation h hpos hdis]
    cases hasBits allocType memCommit <;> rfl
  | wrapped hacc hpos htarget hw => exact absurd hw (not_le.mpr (htarget.lt h hok))

theorem free_exact {s : State} (h : Booked s) {base size : Nat} {freeType : BitVec 32}
    (hok : (Call.free base size freeType).NonWrapping s) : Exact s (.free base size freeType) := by
  intro ret s' hret
  have hout := free_outcome h base size freeType
  rw [hret] at hout
  clear hret
  cases hout with
  | refused hstatus => exact ⟨fun _ => absAt_congr rfl, fun hsuccess => absurd hsuccess hstatus⟩
  | @released res hbits hfind hbase =>
    refine ⟨fun hne => absurd rfl hne, fun _ => ⟨res, by rw [hbase]; exact hfind, ?_⟩⟩
    rw [if_pos hbits]
    exact ⟨⟨rfl, rfl⟩, absAt_release h (h.of_find hfind).1⟩
  | @decommitted res region hbits hfind hpage hpos =>
    obtain ⟨hmem, -⟩ := h.of_find hfind
    refine ⟨fun hne => absurd rfl hne, fun _ => ⟨res, hfind, ?_⟩⟩
    rw [hbits, if_neg (by simp)]
    intro p
    refine (absAt_decommit h hmem (show pageAlign base < pageAlign base + region by omega) p).trans ?_
    by_cases hp : res.Has p ∧ pageAlign base ≤ p ∧ p < pageAlign base + region
    · rw [if_pos hp, absAt_of_mem h.valid hmem hp.1]
      -- a page of the range that is not committed is reserved already
      cases valAt res.val.committed p with
      | none => simp [pageState]
      | some prot => rw [if_pos ⟨⟨hp.2, hp.1⟩, prot, rfl⟩]
    · rw [if_neg hp, if_neg fun hc => hp ⟨hc.1.2, hc.1.1⟩]
  | wrapped hbits hfind hw => exact absurd hw (not_le.mpr hok.region_lt)

theorem handleFault_exact {s : State} (h : Booked s) (faultAddr : Nat) :
    Exact s (.handleFault faultAddr) := by
  intro answer s' hstep
  have hpage := isPage_pageAlign faultAddr
  have hother : ∀ p, pageAlign p ≠ pageAlign faultAddr →
      ¬ (pageAlign faultAddr ≤ p ∧ p < pageAlign faultAddr + pageSize) := by
    intro p hne hp
    refine hne ((isPage_pageAlign p).eq_of_within hpage ?_ ?_)
    · have h1 := lt_pageAlign_add p
      have h2 := isPage_pageAlign p
      unfold IsPage at h2 hpage
      unfold pageSize at *
      omega
    · exact lt_of_le_of_lt (pageAlign_le p) hp.2
  have hkeep : ∀ {res}, findReservation s (pageAlign faultAddr) = some res → ∀ prot p,
      pageAlign p ≠ pageAlign faultAddr →
      absAt (s.faultIn res (pageAlign faultAddr) prot) p = absAt s p := by
    intro res hfind prot p hne
    obtain ⟨hmem, hhas⟩ := h.of_find hfind
    rw [absAt_faultIn h hmem hpage hhas, if_neg (hother p hne)]
  have hout := handleFault_outcome h faultAddr
  rw [hstep] at hout
  clear hstep
  cases hout with
  | ignored => exact ⟨fun _ => absAt_congr rfl, fun p _ => rfl⟩
  | demand hfind => exact ⟨fun hfalse => absurd hfalse (by simp), hkeep hfind _⟩
  | guard hfind => exact ⟨fun hfalse => absurd hfalse (by simp), hkeep hfind _⟩

theorem protect_exact (s : State) (base size : Nat) (newProt : Prot) :
    Exact s (.protect base size newProt) := by
  intro ret old s' hret hne
  have hsuccess := protect_ret s base size newProt
  rw [hret] at hsuccess
  exact absurd (congrArg Ret.status hsuccess) hne

/-- **Every call is the update of the map that its answer says.** -/
theorem call_exact {phys : Nat} {requests : List Request} {s : State}
    (h : SoundRun phys requests s) {call : Call} (hok : call.NonWrapping s) : Exact s call := by
  have hbooked := soundRun_booked h
  cases call with
  | allocate => exact allocate_exact hbooked hok
  | free => exact free_exact hbooked hok
  | protect => exact protect_exact s _ _ _
  | handleFault => exact handleFault_exact hbooked _

/-- A commit, a guard armed on one of its pages, a fault on it, and a decommit of the page after. -/
def decommitted : List Request :=
  [.call (.allocate 0 0x3000 (memCommit ||| memReserve) pageReadwrite 0),
    .call (.protect 0x100001000 0x1000 (pageReadwrite ||| pageGuard)),
    .call (.handleFault 0x100001008)]

theorem call_exact_decommits : ∃ s, PlainRun 0 decommitted s ∧
    (free s 0x100002000 0x800 memDecommit).1 = ⟨.success, 0x100002000, 0x1000⟩ ∧
    absAt (free s 0x100002000 0x800 memDecommit).2 0x100002000 = .reserved pageReadwrite ∧
    Exact s (.free 0x100002000 0x800 memDecommit) := by
  have hexec : ((Run.exec serve plainCheck (State.init 0) decommitted).map fun s =>
      ((free s 0x100002000 0x800 memDecommit).1,
        absAt (free s 0x100002000 0x800 memDecommit).2 0x100002000)) =
      some (⟨.success, 0x100002000, 0x1000⟩, .reserved pageReadwrite) := by decide +kernel
  obtain ⟨s, hs, hval⟩ := Option.map_eq_some_iff.mp hexec
  obtain ⟨hret, habs⟩ := Prod.mk.inj hval
  have hrun : PlainRun 0 decommitted s := .of_exec (fun _ _ => of_decide_eq_true) hs
  exact ⟨s, hrun, hret, habs, call_exact hrun.sound (show Fits 0x100002000 0x800 by decide)⟩

/-! ## `protect` -/

/-- What an answered `protect` does to a range that starts in a reservation: it answers success for the whole
pages of the range and changes nothing outside them. When the first page is committed, it answers that page's
protection, and the committed pages of the range in the reservation get the new one; when it is only reserved, it
answers the reservation's protection and nothing changes. -/
theorem Booked.protect_spec {s : State} (hbooked : Booked s) {base size : Nat} (hfits : Fits base size)
    {newProt : Prot} {res : Seg Reservation} (hfind : findReservation s (pageAlign base) = some res)
    {ret : Ret} {old : Prot} {s' : State} (heq : protect s base size newProt = (ret, old, s')) :
    ret.status = .success ∧
      (IsPage ret.base ∧ IsPage ret.size ∧ ret.base ≤ base ∧ base + size ≤ ret.base + ret.size) ∧
      (∀ p, ¬ ret.Has p → absAt s' p = absAt s p) ∧
      (absAt s ret.base = .committed old ∧
          (∀ p, ret.Has p → res.Has p → ∀ prot, absAt s p = .committed prot →
            absAt s' p = .committed newProt) ∧
          (∀ p, (∀ prot, absAt s p ≠ .committed prot) → absAt s' p = absAt s p) ∨
        absAt s ret.base = .reserved old ∧ s' = s) := by
  obtain ⟨hmem, hhas⟩ := hbooked.of_find hfind
  have hfirst := absAt_of_mem hbooked.valid hmem hhas
  have hret := protect_ret s base size newProt
  have hout := protect_outcome hbooked base size newProt
  rw [heq] at hret hout
  obtain rfl : ret = ⟨.success, pageAlign base, regionOf base size⟩ := hret
  clear heq
  refine ⟨rfl, ⟨isPage_pageAlign base, isPage_regionOf base size, pageAlign_le base, hfits.region.1⟩, ?_⟩
  cases hout with
  | untracked hnone =>
    rw [hfind] at hnone
    cases hnone
  | uncommitted hfind' hnone =>
    cases hfind.symm.trans hfind'
    rw [hnone] at hfirst
    exact ⟨fun _ _ => rfl, Or.inr ⟨hfirst, rfl⟩⟩
  | changed hfind' hold =>
    cases hfind.symm.trans hfind'
    rw [hold] at hfirst
    have hlo := isPage_pageAlign base
    have habs := absAt_reprotect hbooked hmem hlo (hlo.add (isPage_regionOf base size))
      (Nat.le_add_right _ _) newProt
    refine ⟨fun p hp => ?_, Or.inl ⟨hfirst, fun p hp hrp prot hprot => ?_, fun p hp => ?_⟩⟩
    · exact (habs p).trans (if_neg fun hc => hp hc.2.1)
    · refine (habs p).trans (if_pos ⟨hrp, hp, fun hnone => ?_⟩)
      rw [absAt_of_mem hbooked.valid hmem hrp, hnone] at hprot
      cases hprot
    · refine (habs p).trans (if_neg fun hc => ?_)
      cases hval : valAt res.val.committed p with
      | none => exact hc.2.2 hval
      | some prot =>
        refine hp prot ?_
        rw [absAt_of_mem hbooked.valid hmem hc.1, hval]
        rfl
  | wrapped hfind' hold hw => exact absurd hw (not_le.mpr hfits.region_lt)

end Kernemul.UserMem
