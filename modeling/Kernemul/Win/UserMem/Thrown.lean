import Kernemul.Win.UserMem.OverMmu

/-!
# What a call over an mmu does to the books

A call that comes to its end leaves the books that the manager of `UserMem.State` leaves, whatever the mmu did
(`perform_returned`). One that throws leaves the committed regions of its range cut and partly changed, a
reservation with nothing committed, or the books as they were (`perform_thrown`). The first kind is the one that
does harm: the merge at the end of the call is missing.
-/

namespace Kernemul.UserMem.OverMmu

open Segments

variable {M : Type} {calls : MmuCalls M}

/-! ## Calls that come to their end -/

/-- The memory of a manager goes with pages of the exact manager, whatever both are put through. -/
structure Follows (calls : MmuCalls M) (R : Memory M → Pages → Prop) : Prop where
  mapped {m m' p} : R m p → ∀ {base size prot}, mapPages calls m base size prot = (m', true) →
    R m' (p.mapPages base size prot)
  evicted {m p} : R m p → ∀ base size, R (evictPages calls m base size) (p.evictPages base size)
  released {m p} : R m p → ∀ base size, R (releasePages calls m base size) (p.releasePages base size)
  reprotected {m p} : R m p → ∀ base size prot,
    R { m with mmu := calls.protVirt m.mmu base size prot } (p.protVirt base size prot)

/-- The manager of `UserMem.State` with the same books. -/
def Manager.over (s : Manager M) (p : Pages) : State := { s.books with pages := p }

theorem follows_true : Follows calls fun _ _ => True := by
  constructor <;> intros <;> trivial

namespace Follows

variable {R : Memory M → Pages → Prop} (h : Follows calls R) {s s' : Manager M} {m m' : Memory M} {p : Pages}
include h

variable {base size : Nat} {prot : Prot}

theorem commitPages (hR : R m p)
    (hm : OverMmu.commitPages calls m base size prot = (m', true)) : R m' (p.commitPages base size prot) := by
  unfold OverMmu.commitPages at hm
  unfold Pages.commitPages
  split at hm
  · rename_i hresident
    rw [if_pos hresident]
    exact h.mapped hR hm
  · rename_i hresident
    rw [if_neg hresident]
    cases hm
    exact hR

theorem applyProt (hR : R m p) {oldProt newProt : Prot}
    (hm : OverMmu.applyProt calls m base size oldProt newProt = (m', true)) :
    R m' (p.applyProt base size oldProt newProt) := by
  unfold OverMmu.applyProt at hm
  unfold Pages.applyProt
  simp only at hm ⊢
  split at hm
  · rename_i hevict
    rw [if_pos hevict]
    cases hm
    exact h.evicted hR base size
  · rename_i hevict
    rw [if_neg hevict]
    split at hm
    · rename_i hmap
      rw [if_pos hmap]
      exact h.mapped hR hm
    · rename_i hmap
      rw [if_neg hmap]
      split at hm
      · rename_i hprot
        rw [if_pos hprot]
        cases hm
        exact h.reprotected hR base size _
      · rename_i hprot
        rw [if_neg hprot]
        cases hm
        exact hR

theorem releaseAll (hR : R m p) (c : Committed) : R (OverMmu.releaseAll calls m c) (UserMem.releaseAll p c) := by
  induction c generalizing m p with
  | nil => exact hR
  | cons it rest ih => exact ih (h.released hR it.base it.size)

theorem commitLoop {stop : Nat} {w out : Committed} {cursor : Nat} (hR : R m p)
    (hm : OverMmu.commitLoop calls prot stop w cursor m = (out, m', true)) :
    (UserMem.commitLoop prot stop w cursor p).1 = out ∧ R m' (UserMem.commitLoop prot stop w cursor p).2 := by
  induction w generalizing cursor m p out with
  | nil =>
    unfold OverMmu.commitLoop at hm
    unfold UserMem.commitLoop
    split at hm
    · rename_i hlt
      rw [if_pos hlt]
      split at hm
      · cases hm
      · rename_i hcommit
        cases hm
        exact ⟨rfl, h.commitPages hR hcommit⟩
    · rename_i hlt
      rw [if_neg hlt]
      cases hm
      exact ⟨rfl, hR⟩
  | cons it rest ih =>
    unfold OverMmu.commitLoop at hm
    unfold UserMem.commitLoop
    simp only at hm ⊢
    rcases hgap : (if cursor < it.base then OverMmu.commitPages calls m cursor (it.base - cursor) prot
      else (m, true)) with ⟨m₁, _ | _⟩
    · rw [hgap] at hm
      cases hm
    · have hR₁ : R m₁ (if cursor < it.base then p.commitPages cursor (it.base - cursor) prot else p) := by
        split at hgap
        · rename_i hlt
          rw [if_pos hlt]
          exact h.commitPages hR hgap
        · rename_i hlt
          rw [if_neg hlt]
          cases hgap
          exact hR
      rw [hgap] at hm
      rcases hprot : OverMmu.applyProt calls m₁ it.base it.size it.val prot with ⟨m₂, _ | _⟩
      · simp only [hprot] at hm
        cases hm
      · rcases hrest : OverMmu.commitLoop calls prot stop rest it.stop m₂ with ⟨out', m₃, done⟩
        simp only [hprot, hrest] at hm
        cases hm
        obtain ⟨hout, hR₃⟩ := ih (h.applyProt hR₁ hprot) hrest
        rw [hout]
        exact ⟨by split <;> rfl, hR₃⟩

theorem protectLoop {newProt : Prot} {w out : Committed} (hR : R m p)
    (hm : OverMmu.protectLoop calls newProt w m = (out, m', true)) :
    withProt newProt w = out ∧ R m' (protectAll p newProt w) := by
  induction w generalizing m p out with
  | nil =>
    cases hm
    exact ⟨rfl, hR⟩
  | cons it rest ih =>
    unfold OverMmu.protectLoop at hm
    rcases hprot : OverMmu.applyProt calls m it.base it.size it.val newProt with ⟨m₁, _ | _⟩
    · rw [hprot] at hm
      cases hm
    · rcases hrest : OverMmu.protectLoop calls newProt rest m₁ with ⟨out', m₂, done⟩
      rw [hprot] at hm
      simp only [hrest] at hm
      cases hm
      obtain ⟨rfl, hR₂⟩ := ih (h.applyProt hR hprot) hrest
      exact ⟨rfl, hR₂⟩

theorem commitInto (hR : R s.memory p) {res : Seg Reservation} {status : Status}
    (hm : OverMmu.commitInto calls s res base size prot = (some status, s')) :
    ∃ p', UserMem.commitInto (s.over p) res base size prot = (status, s'.over p') ∧ R s'.memory p' := by
  unfold OverMmu.commitInto at hm
  unfold UserMem.commitInto
  simp only at hm ⊢
  split at hm
  · rename_i hstop
    cases hm
    exact ⟨p, by rw [if_pos hstop], hR⟩
  · rename_i hstop
    rw [if_neg hstop]
    rcases hloop : OverMmu.commitLoop calls prot (wrap (base + size)) (window base (wrap (base + size))
      (splitAt (splitAt res.val.committed base) (wrap (base + size)))) base s.memory with ⟨out, m', _ | _⟩
    · rw [hloop] at hm
      cases hm
    · rw [hloop] at hm
      cases hm
      obtain ⟨hout, hR'⟩ := h.commitLoop hR hloop
      rw [← hout]
      exact ⟨_, rfl, hR'⟩

theorem reserve (hR : R s.memory p) {target region : Nat} {doCommit : Bool} {ret : Ret}
    (hm : OverMmu.reserve calls s base size target region doCommit prot = (some ret, s')) :
    ∃ p', UserMem.reserve (s.over p) base size target region doCommit prot = (ret, s'.over p') ∧
      R s'.memory p' := by
  unfold OverMmu.reserve at hm
  unfold UserMem.reserve
  split at hm
  · rename_i hlim
    cases hm
    exact ⟨p, by rw [if_pos hlim], hR⟩
  · rename_i hlim
    rw [if_neg hlim, show (s.over p).reservations = s.reservations from rfl]
    cases hclash : overlapping s.reservations target region with
    | some clash =>
      rw [hclash] at hm
      cases hm
      exact ⟨p, rfl, hR⟩
    | none =>
      rw [hclash] at hm
      cases doCommit with
      | false =>
        cases hm
        exact ⟨p, rfl, hR⟩
      | true =>
        simp only [if_true] at hm
        split at hm
        · cases hm
        · rename_i hcommit
          cases hm
          exact ⟨_, rfl, h.commitPages hR hcommit⟩

omit h in
theorem pickBase_over (p : Pages) (size alignment : Nat) : pickBase (s.over p) size alignment =
    (pickBase s.books size alignment).map fun r => (r.1, ({ s with nextFree := r.2.nextFree } : Manager M).over p) := by
  unfold pickBase
  simp only
  rw [show (s.over p).reservations = s.books.reservations from rfl,
    show (s.over p).nextFree = s.books.nextFree from rfl]
  split <;> rfl

theorem allocate (hR : R s.memory p) {alignment : Nat} {allocType : BitVec 32} {ret : Ret}
    (hm : OverMmu.allocate calls s base size allocType prot alignment = some (some ret, s')) :
    ∃ p', UserMem.allocate (s.over p) base size allocType prot alignment = some (ret, s'.over p') ∧
      R s'.memory p' := by
  unfold OverMmu.allocate at hm
  unfold UserMem.allocate
  simp only at hm ⊢
  rw [show findReservation (s.over p) = findReservation s.books from rfl]
  split at hm
  · rename_i hzero
    cases hm
    exact ⟨p, by rw [if_pos hzero], hR⟩
  · rename_i hzero
    rw [if_neg hzero]
    split at hm
    · rename_i hbits
      cases hm
      exact ⟨p, by rw [if_pos hbits], hR⟩
    · rename_i hbits
      rw [if_neg hbits]
      cases hin : (if (hasBits allocType memCommit && !hasBits allocType memReserve && base != 0) = true
        then findReservation s.books (pageAlign base) else none) with
      | some res =>
        simp only [hin] at hm ⊢
        split at hm
        · cases hm
        · rename_i hcommit
          cases hm
          obtain ⟨p', hp, hR'⟩ := h.commitInto hR hcommit
          exact ⟨p', by rw [hp], hR'⟩
      | none =>
        simp only [hin] at hm ⊢
        split at hm
        · rename_i hb
          rw [if_pos hb]
          obtain ⟨p', hp, hR'⟩ := h.reserve hR (Option.some.inj hm)
          exact ⟨p', congrArg some hp, hR'⟩
        · rename_i hb
          rw [if_neg hb, pickBase_over]
          cases hpick : pickBase s.books (sizeAlign (wrap (size + (base - pageAlign base)))) alignment with
          | none =>
            rw [hpick] at hm
            cases hm
          | some found =>
            obtain ⟨target, b⟩ := found
            rw [hpick] at hm
            obtain ⟨p', hp, hR'⟩ := h.reserve (s := { s with nextFree := b.nextFree }) hR (Option.some.inj hm)
            exact ⟨p', congrArg some hp, hR'⟩

theorem free (hR : R s.memory p) (base size : Nat) (freeType : BitVec 32) :
    ∃ p', UserMem.free (s.over p) base size freeType = ((OverMmu.free calls s base size freeType).1,
        (OverMmu.free calls s base size freeType).2.over p') ∧
      R (OverMmu.free calls s base size freeType).2.memory p' := by
  unfold OverMmu.free UserMem.free
  simp only
  rw [show findReservation (s.over p) = findReservation s.books from rfl]
  cases findReservation s.books (pageAlign base) with
  | none =>
    simp only
    split
    · split <;> exact ⟨p, rfl, hR⟩
    · split <;> exact ⟨p, rfl, hR⟩
  | some res =>
    simp only
    split
    · split
      · exact ⟨p, rfl, hR⟩
      · split
        · exact ⟨p, rfl, hR⟩
        · split
          · exact ⟨p, rfl, hR⟩
          · exact ⟨_, rfl, h.releaseAll hR _⟩
    · split
      · exact ⟨p, rfl, hR⟩
      · split
        · exact ⟨p, rfl, hR⟩
        · exact ⟨_, rfl, h.releaseAll hR _⟩

theorem protect (hR : R s.memory p) {newProt old : Prot} {ret : Ret}
    (hm : OverMmu.protect calls s base size newProt = (some (ret, old), s')) :
    ∃ p', UserMem.protect (s.over p) base size newProt = (ret, old, s'.over p') ∧ R s'.memory p' := by
  unfold OverMmu.protect at hm
  unfold UserMem.protect
  simp only at hm ⊢
  rw [show findReservation (s.over p) = findReservation s.books from rfl]
  cases hfind : findReservation s.books (pageAlign base) with
  | none =>
    rw [hfind] at hm
    cases hm
    exact ⟨_, rfl, h.reprotected hR _ _ _⟩
  | some res =>
    simp only [hfind] at hm ⊢
    cases hfirst : findCommitted res.val.committed (pageAlign base) with
    | none =>
      rw [hfirst] at hm
      cases hm
      exact ⟨p, rfl, hR⟩
    | some first =>
      simp only [hfirst] at hm ⊢
      generalize wrap (pageAlign base + sizeAlign (wrap (size + (base - pageAlign base)))) = stop at hm ⊢
      rcases hloop : OverMmu.protectLoop calls newProt
        (window (pageAlign base) stop (splitAt (splitAt res.val.committed (pageAlign base)) stop)) s.memory with
        ⟨out, m', _ | _⟩
      · rw [hloop] at hm
        cases hm
      · rw [hloop] at hm
        cases hm
        obtain ⟨rfl, hR'⟩ := h.protectLoop hR hloop
        exact ⟨_, rfl, hR'⟩

theorem handleFault (hR : R s.memory p) {faultAddr : Nat} {answer : Bool}
    (hm : OverMmu.handleFault calls s faultAddr = (some answer, s')) :
    ∃ p', UserMem.handleFault (s.over p) faultAddr = (answer, s'.over p') ∧ R s'.memory p' := by
  unfold OverMmu.handleFault at hm
  unfold UserMem.handleFault
  simp only at hm ⊢
  rw [show findReservation (s.over p) = findReservation s.books from rfl]
  cases hfind : findReservation s.books (pageAlign faultAddr) with
  | none =>
    rw [hfind] at hm
    cases hm
    exact ⟨p, rfl, hR⟩
  | some res =>
    simp only [hfind] at hm ⊢
    cases hsub : findCommitted res.val.committed (pageAlign faultAddr) with
    | none =>
      simp only [hsub] at hm ⊢
      split at hm
      · rename_i hresident
        cases hm
        exact ⟨p, by rw [if_pos hresident], hR⟩
      · rename_i hresident
        rw [if_neg hresident]
        split at hm
        · cases hm
        · rename_i hmap
          cases hm
          exact ⟨_, rfl, h.mapped hR hmap⟩
    | some sub =>
      simp only [hsub] at hm ⊢
      split at hm
      · rename_i hguard
        cases hm
        exact ⟨p, by rw [if_pos hguard], hR⟩
      · rename_i hguard
        rw [if_neg hguard]
        generalize modify (pageAlign faultAddr) _ _ = cut at hm ⊢
        cases hhit : cut.find? fun it => decide (it.base = pageAlign faultAddr) with
        | none =>
          rw [hhit] at hm
          cases hm
          exact ⟨p, rfl, hR⟩
        | some hit =>
          simp only [hhit] at hm ⊢
          split at hm
          · cases hm
          · rename_i hmap
            cases hm
            exact ⟨_, rfl, h.mapped hR hmap⟩

/-- **A call that comes to its end is the call of `UserMem.State`**, and the memory still goes with the pages. -/
theorem perform {call : Call} (hR : R s.memory p) (hm : OverMmu.perform calls s call = some (true, s')) :
    ∃ p', UserMem.step (s.over p) call = some (s'.over p') ∧ R s'.memory p' := by
  cases call with
  | allocate base size allocType prot alignment =>
    rw [OverMmu.perform, Option.map_eq_some_iff] at hm
    obtain ⟨⟨answer, s₁⟩, ha, heq⟩ := hm
    obtain ⟨hsome, rfl⟩ := Prod.mk.inj heq
    obtain ⟨ret, rfl⟩ := Option.isSome_iff_exists.mp hsome
    obtain ⟨p', hp, hR'⟩ := h.allocate hR ha
    exact ⟨p', by rw [UserMem.step, hp, Option.map_some], hR'⟩
  | free base size freeType =>
    cases hm
    obtain ⟨p', hp, hR'⟩ := h.free hR base size freeType
    exact ⟨p', by rw [UserMem.step, hp], hR'⟩
  | protect base size newProt =>
    obtain ⟨hsome, rfl⟩ := Prod.mk.inj (Option.some.inj hm)
    obtain ⟨⟨ret, old⟩, hret⟩ := Option.isSome_iff_exists.mp hsome
    obtain ⟨p', hp, hR'⟩ := h.protect hR (Prod.ext hret rfl)
    exact ⟨p', by rw [UserMem.step, hp], hR'⟩
  | handleFault faultAddr =>
    obtain ⟨hsome, rfl⟩ := Prod.mk.inj (Option.some.inj hm)
    obtain ⟨answer, hanswer⟩ := Option.isSome_iff_exists.mp hsome
    obtain ⟨p', hp, hR'⟩ := h.handleFault hR (Prod.ext hanswer rfl)
    exact ⟨p', by rw [UserMem.step, hp], hR'⟩

end Follows

/-- Whatever the mmu does, a call that comes to its end leaves the books of the exact manager. -/
theorem perform_returned {s s' : Manager M} {call : Call} (h : perform calls s call = some (true, s')) :
    ∃ p, UserMem.step s.books call = some (s'.over p) :=
  (follows_true.perform (p := s.books.pages) trivial h).imp fun _ hp => hp.1

/-! ## Calls that throw -/

/-- The call cuts the committed regions of a reservation before it maps anything. -/
def cuts (b : State) : Call → Bool
  | .allocate base _ allocType _ _ => (commitsIn b base allocType).isSome
  | .free .. => false
  | .protect .. => true
  | .handleFault faultAddr =>
    match findReservation b (pageAlign faultAddr) with
    | none => false
    | some res => (findCommitted res.val.committed (pageAlign faultAddr)).isSome

/-- What a call that throws leaves of the books: the regions of a range cut, as far as it has come with them, a
new reservation with nothing committed, or the books as they were. -/
inductive Thrown (b : State) (call : Call) : State → Prop
  | cut {res : Seg Reservation} {lo hi : Nat} {w : Committed} (hcuts : cuts b call = true)
      (hres : res ∈ b.reservations) (hlo : IsPage lo) (hhi : IsPage hi) (hle : lo ≤ hi)
      (hw : CommittedIn lo hi w) (hin : ∀ r ∈ w, res.base ≤ r.base ∧ r.stop ≤ res.stop) :
      Thrown b call (b.setCommitted res.base (splice lo hi w res.val.committed))
  | reserved {target region n : Nat} {prot : Prot} (hn : IsPage n ∧ n ≤ userAddrLimit)
      (ht : IsPage target) (hr : IsPage region) (hpos : 0 < region)
      (hlim : target + region ≤ userAddrLimit)
      (hdis : ∀ r ∈ b.reservations, r.stop ≤ target ∨ target + region ≤ r.base) :
      Thrown b call ({ b with nextFree := n }.addReservation target region false prot)
  | unmapped : Thrown b call b

theorem Thrown.booked {b b' : State} {call : Call} (h : Thrown b call b') (hb : Booked b) : Booked b' := by
  cases h with
  | cut hcuts hres hlo hhi hle hw hin =>
    exact hb.edit (m := b.pages) hres ((hb.inside _ hres).splice hlo hhi hle hw hin)
  | reserved hn ht hr hpos hlim hdis =>
    exact (hb.withNextFree hn).addReservation ht hr hpos hlim hdis false _
  | unmapped => exact hb

/-- A call that cuts nothing leaves no two regions to merge when it throws. -/
theorem Thrown.vadInv {b b' : State} {call : Call} (h : Thrown b call b') (hb : VadInv b)
    (hcuts : cuts b call = false) : VadInv b' := by
  cases h with
  | cut hcut => exact absurd (hcut.symm.trans hcuts) (by simp)
  | reserved hn ht hr hpos hlim hdis =>
    exact (hb.withNextFree hn).addReservation ht hr hpos hlim hdis false _
  | unmapped => exact hb

/-! ### The loops -/

theorem commitLoop_in {prot : Prot} {stop : Nat} (hstop : IsPage stop) :
    ∀ {w : Committed} {cursor : Nat} {m : Memory M}, IsPage cursor → cursor ≤ stop →
      CommittedIn cursor stop w → CommittedIn cursor stop (commitLoop calls prot stop w cursor m).1 := by
  intro w
  induction w with
  | nil =>
    intro cursor m hc hle hw
    unfold commitLoop
    split
    · rename_i hlt
      split
      · exact hw
      · have h := (CommittedIn.nil : CommittedIn stop stop []).filled hc hstop hle le_rfl prot
        rwa [if_pos hlt] at h
    · exact hw
  | cons it rest ih =>
    intro cursor m hc hle hw
    obtain ⟨hit, hpos, hbase, hend, hrest⟩ := hw.uncons
    have hbs : it.base ≤ it.stop := Nat.le_add_right _ _
    unfold commitLoop
    simp only
    split
    · exact hw
    · split
      · exact (hrest.cons hit.1 hit.2 hpos le_rfl le_rfl hend).filled hc hit.1 hbase (hbs.trans hend) prot
      · have hout := (ih (m := ‹_›) hit.2 hend hrest).cons (r := { it with val := prot }) hit.1 hit.2 hpos
          le_rfl le_rfl hend
        exact hout.filled hc hit.1 hbase (hbs.trans hend) prot

theorem protectLoop_in {hi : Nat} :
    ∀ {w : Committed} {lo : Nat} {m : Memory M}, CommittedIn lo hi w →
      CommittedIn lo hi (protectLoop calls newProt w m).1 := by
  intro w
  induction w with
  | nil => exact fun hw => hw
  | cons it rest ih =>
    intro lo m hw
    obtain ⟨hit, hpos, hbase, hend, hrest⟩ := hw.uncons
    unfold protectLoop
    split
    · exact hw
    · exact (ih hrest).cons (r := { it with val := newProt }) hit.1 hit.2 hpos hbase le_rfl hend

theorem protectLoop_within {lo hi : Nat} :
    ∀ {w : Committed} {m : Memory M}, (∀ r ∈ w, lo ≤ r.base ∧ r.stop ≤ hi) →
      ∀ r ∈ (protectLoop calls newProt w m).1, lo ≤ r.base ∧ r.stop ≤ hi := by
  intro w
  induction w with
  | nil => exact fun hw => hw
  | cons it rest ih =>
    intro m hw
    unfold protectLoop
    split
    · exact hw
    · intro r hr
      rcases List.mem_cons.mp hr with rfl | hr
      · exact hw it (by simp)
      · exact ih (fun t ht => hw t (by simp [ht])) r hr

/-- `protect` throws for a region that its new protection makes accessible. -/
theorem protectLoop_threw :
    ∀ {w : Committed} {m : Memory M}, (protectLoop calls newProt w m).2.2 = false →
      isResident newProt = true ∧ ∃ it ∈ w, isResident it.val = false ∧
        ∃ m₁, (mapPages calls m₁ it.base it.size newProt).2 = false := by
  intro w
  induction w with
  | nil => exact fun h => (by cases h)
  | cons it rest ih =>
    intro m h
    unfold protectLoop at h
    rcases hprot : applyProt calls m it.base it.size it.val newProt with ⟨m₁, _ | _⟩
    · clear h
      unfold applyProt at hprot
      cases hwas : isResident it.val with
      | true => cases hnow : isResident newProt <;> simp [hwas, hnow] at hprot
      | false =>
        cases hnow : isResident newProt with
        | true =>
          simp only [hwas, hnow] at hprot
          exact ⟨rfl, it, by simp, hwas, m, congrArg Prod.snd hprot⟩
        | false => simp [hwas, hnow] at hprot
    · rw [hprot] at h
      obtain ⟨hnow, t, ht, hrest⟩ := ih h
      exact ⟨hnow, t, by simp [ht], hrest⟩

/-! ### The calls -/

section Threw
variable {s s' : Manager M} (h : Booked s.books)

variable {base size : Nat}

theorem reserve_threw {target region : Nat} {doCommit : Bool} {prot : Prot}
    (ht : reserve calls s base size target region doCommit prot = (none, s')) :
    Reservable s.books target region ∧
      s'.books = s.books.addReservation target region false prot := by
  unfold reserve at ht
  split at ht
  · cases ht
  · rename_i hlim
    split at ht
    · cases ht
    · rename_i hfree
      cases doCommit with
      | false => cases ht
      | true =>
        simp only [if_true] at ht
        split at ht
        · cases ht
          exact ⟨⟨by omega, by omega, hfree⟩, rfl⟩
        · cases ht

include h

theorem commitInto_threw {res : Seg Reservation} (hres : res ∈ s.reservations)
    {prot : Prot} (ht : commitInto calls s res base size prot = (none, s')) :
    wrap (base + size) ≤ res.stop ∧ (IsPage base → IsPage size → base + size < 2 ^ 64 →
      ∃ w, CommittedIn base (base + size) w ∧
        s'.books = s.books.setCommitted res.base (splice base (base + size) w res.val.committed)) := by
  unfold commitInto at ht
  simp only at ht
  split at ht
  · cases ht
  · rename_i hstop
    refine ⟨not_lt.mp hstop, fun hbase hsize hw => ?_⟩
    rw [wrap_of_lt hw] at ht
    have hin := h.inside res hres
    rw [hin.splitAt_splitAt] at ht
    split at ht
    · cases ht
    · cases ht
      exact ⟨_, commitLoop_in (hbase.add hsize) hbase (Nat.le_add_right _ _)
        (hin.part hbase (hbase.add hsize)).1, rfl⟩

theorem protect_threw {newProt : Prot} (ht : protect calls s base size newProt = (none, s')) :
    ∃ res w, (res ∈ s.reservations ∧ findReservation s.books (pageAlign base) = some res) ∧
      pageAlign base + regionOf base size < 2 ^ 64 ∧
      (CommittedIn (pageAlign base) (pageAlign base + regionOf base size) w ∧
        ∀ r ∈ w, res.base ≤ r.base ∧ r.stop ≤ res.stop) ∧
      s'.books = s.books.setCommitted res.base
        (splice (pageAlign base) (pageAlign base + regionOf base size) w res.val.committed) ∧
      isResident newProt = true ∧
        ∃ it ∈ part (pageAlign base) (pageAlign base + regionOf base size) res.val.committed,
          isResident it.val = false ∧ ∃ m, (mapPages calls m it.base it.size newProt).2 = false := by
  unfold protect at ht
  simp only at ht
  generalize hregion : sizeAlign (wrap (size + (base - pageAlign base))) = region at ht
  obtain rfl : regionOf base size = region := hregion
  have hstart := isPage_pageAlign base
  split at ht
  · cases ht
  · rename_i res hfind
    obtain ⟨hmem, hhas⟩ := h.of_find hfind
    have hin := h.inside res hmem
    split at ht
    · cases ht
    · rw [hin.splitAt_splitAt] at ht
      split at ht
      · cases ht
      · rename_i hdone
        cases ht
        by_cases hw : pageAlign base + regionOf base size < 2 ^ 64
        · rw [wrap_of_lt hw] at hdone ⊢
          obtain ⟨hpart, hrange⟩ := hin.part hstart (hstart.add (isPage_regionOf base size))
          obtain ⟨hnow, hit⟩ := protectLoop_threw (by simpa using hdone)
          exact ⟨res, _, ⟨hmem, hfind⟩, hw, ⟨protectLoop_in hpart, protectLoop_within hrange⟩, rfl,
            hnow, hit⟩
        · -- nothing lies between the cuts of a range that leaves 64 bits
          have hle := wrap_le_of_le (h.lt_of_has hmem hhas) (regionOf_lt base size) (by omega)
          have hstop := isPage_wrap (hstart.add (isPage_regionOf base size))
          obtain ⟨hnil, -, -⟩ := hin.wrapped hstart hstop hle
          rw [show window _ _ _ = [] from hnil] at hdone
          exact absurd rfl hdone

theorem handleFault_threw {faultAddr : Nat} (ht : handleFault calls s faultAddr = (none, s')) :
    Thrown s.books (.handleFault faultAddr) s'.books := by
  have hpage := isPage_pageAlign faultAddr
  unfold handleFault at ht
  simp only at ht
  split at ht
  · cases ht
  · rename_i res hfind
    obtain ⟨hmem, hhas⟩ := h.of_find hfind
    have hin := h.inside res hmem
    split at ht
    · split at ht
      · cases ht
      · split at ht
        · cases ht
          exact .unmapped
        · cases ht
    · rename_i sub hsub
      split at ht
      · cases ht
      · obtain ⟨hsmem, hshas⟩ := (find_eq_some hin.valid).mp hsub
        have hstop := hpage.add_le_of_lt (hin.aligned sub hsmem).2 hshas.2
        have hlim := h.limit res hmem
        have hwi := hin.within sub hsmem
        have hpos : pageAlign faultAddr < pageAlign faultAddr + pageSize := by unfold pageSize; omega
        rw [hin.splitAt_splitAt, wrap_of_lt (by unfold userAddrLimit at hlim; omega),
          modify_eq_splice hin.valid hsmem hshas.1 hpos hstop, Nat.add_sub_cancel_left] at ht
        split at ht
        · cases ht
        · split at ht
          · cases ht
            have hone : CommittedIn (pageAlign faultAddr) (pageAlign faultAddr + pageSize)
                [⟨pageAlign faultAddr, pageSize, sub.val &&& ~~~pageGuard⟩] :=
              (CommittedIn.nil : CommittedIn (pageAlign faultAddr + pageSize) _ []).cons hpage
                (hpage.add isPage_pageSize) (show 0 < pageSize by decide) le_rfl le_rfl le_rfl
            refine .cut ?_ hmem hpage (hpage.add isPage_pageSize) hpos.le hone fun r hr => ?_
            · rw [cuts, hfind]
              simp only [hsub, Option.isSome_some]
            · have hr := hone.within r hr
              exact ⟨hhas.1.trans hr.1, hr.2.trans (hstop.trans hwi.2)⟩
          · cases ht

theorem Thrown.of_reserve {alignment target n : Nat} {allocType : BitVec 32} {prot : Prot}
    (hok : (Request.call (.allocate base size allocType prot alignment)).Sound s.books)
    (hn : IsPage n ∧ n ≤ userAddrLimit)
    (hbits : hasBits allocType memReserve = true ∨ hasBits allocType memCommit = true)
    (hnone : commitsIn s.books base allocType = none) (hpos : 0 < regionOf base size)
    (hplaced : target ≠ 0 → Placed s.books base size allocType alignment target) {m : Memory M} {doCommit : Bool}
    (ht : reserve calls ⟨n, s.reservations, m⟩ base size target (regionOf base size) doCommit prot = (none, s')) :
    Thrown s.books (.allocate base size allocType prot alignment) s'.books := by
  obtain ⟨hfree, hbooks⟩ := reserve_threw ht
  rw [hbooks]
  have hplaced := hplaced hfree.1
  have hwrap := hok.2 ⟨hpos.ne', hbits, Or.inr ⟨hnone, target, hplaced, hfree⟩⟩
  have hlt := hplaced.lt h hwrap
  obtain ⟨-, hlim, hfree⟩ := hfree
  rw [wrap_of_lt hlt] at hlim
  exact .reserved hn (hplaced.isPage h hok.1) (isPage_regionOf base size) hpos hlim
    (overlapping_none h.valid hlt hfree)

theorem allocate_threw {alignment : Nat} {allocType : BitVec 32} {prot : Prot}
    (hok : (Request.call (.allocate base size allocType prot alignment)).Sound s.books)
    (ht : allocate calls s base size allocType prot alignment = some (none, s')) :
    Thrown s.books (.allocate base size allocType prot alignment) s'.books := by
  unfold allocate at ht
  simp only at ht
  generalize hregion : sizeAlign (wrap (size + (base - pageAlign base))) = region at ht
  obtain rfl : regionOf base size = region := hregion
  generalize hin : (if (hasBits allocType memCommit && !hasBits allocType memReserve && base != 0) = true
    then findReservation s.books (pageAlign base) else none) = within at ht
  obtain rfl : commitsIn s.books base allocType = within := hin
  split at ht
  · cases ht
  · rename_i hpos
    have hpos : 0 < regionOf base size := Nat.pos_of_ne_zero hpos
    split at ht
    · cases ht
    · rename_i hbits
      have hbits : hasBits allocType memReserve = true ∨ hasBits allocType memCommit = true := by
        by_contra hcon
        exact hbits (by simpa using hcon)
      split at ht
      · rename_i res hin
        obtain ⟨⟨hmem, hhas⟩, -⟩ := commitsIn_eq_some h hin
        split at ht
        · rename_i hcommit
          cases ht
          obtain ⟨hle, hdone⟩ := commitInto_threw h hmem hcommit
          have hwrap := hok.2 ⟨hpos.ne', hbits, Or.inl ⟨res, hin, hle⟩⟩
          have hlt := hwrap.1.region_lt
          rw [wrap_of_lt hlt] at hle
          have hlo := isPage_pageAlign base
          obtain ⟨w, hw, hbooks⟩ := hdone hlo (isPage_regionOf base size) hlt
          rw [hbooks]
          refine .cut ?_ hmem hlo (hlo.add (isPage_regionOf base size)) (Nat.le_add_right _ _) hw
            fun r hr => ?_
          · rw [cuts, hin]
            rfl
          · have hr := hw.within r hr
            exact ⟨hhas.1.trans hr.1, hr.2.trans hle⟩
        · cases ht
      · rename_i hnone
        split at ht
        · rename_i hb
          exact .of_reserve h hok h.nextFree hbits hnone hpos
            (fun _ => by rw [Placed, if_pos hb]) (Option.some.inj ht)
        · rename_i hb
          split at ht
          · cases ht
          · rename_i target b hpick
            obtain ⟨htarget, n, hn, rfl⟩ := pickBase_spec h (isPage_regionOf base size) hok.1 hpick
            exact .of_reserve h hok hn hbits hnone hpos
              (fun hne => by rw [Placed, if_neg hb]; exact htarget.resolve_left hne) (Option.some.inj ht)

theorem perform_thrown {call : Call} (hok : (Request.call call).Sound s.books)
    (ht : perform calls s call = some (false, s')) : Thrown s.books call s'.books := by
  cases call with
  | allocate base size allocType prot alignment =>
    rw [perform, Option.map_eq_some_iff] at ht
    obtain ⟨⟨answer, s₁⟩, ha, heq⟩ := ht
    obtain ⟨hnone, rfl⟩ := Prod.mk.inj heq
    obtain rfl : answer = none := by simpa using hnone
    exact allocate_threw h hok ha
  | free => cases ht
  | protect base size newProt =>
    obtain ⟨hnone, rfl⟩ := Prod.mk.inj (Option.some.inj ht)
    obtain ⟨res, w, ⟨hmem, -⟩, -, ⟨hw, hin⟩, hbooks, -⟩ :=
      protect_threw h (Prod.ext (by simpa using hnone) rfl)
    rw [hbooks]
    have hlo := isPage_pageAlign base
    exact .cut rfl hmem hlo (hlo.add (isPage_regionOf base size)) (Nat.le_add_right _ _) hw hin
  | handleFault faultAddr =>
    obtain ⟨hnone, rfl⟩ := Prod.mk.inj (Option.some.inj ht)
    exact handleFault_threw h (Prod.ext (by simpa using hnone) rfl)

end Threw

end Kernemul.UserMem.OverMmu
