import Kernemul.Win.UserMem.Pages

/-!
# What a call does to one page's record and mapping

`committedAt s p` is the protection the books hold for page `p`. `Moves` lists how a call can change it
together with the act it does on the page, and `step_moves` shows that the list is complete. What holds
of a page over a run is read off this list.
-/

namespace Kernemul.UserMem

open Segments

/-- The protection page `p` is committed with. -/
def committedAt (s : State) (p : Nat) : Option Prot :=
  (findReservation s p).bind fun r => valAt r.val.committed p

/-- How a call made in `s` can change the record of page `p`, with the act it does. -/
inductive Moves (s : State) (p : Nat) : Call → Option Prot → Option Prot → Act → Prop
  | idle {call : Call} {c : Option Prot} : Moves s p call c c .keep
  | commit {call : Call} {prot : Prot} (hcall : ∀ base size t, call ≠ .free base size t) :
      Moves s p call none (some prot) (commitAct prot)
  | change {call : Call} {old new : Prot} (hcall : ∀ base size t, call ≠ .free base size t) :
      Moves s p call (some old) (some new) (applyAct old new)
  | discard {base size : Nat} {t : BitVec 32} {old : Prot} :
      Moves s p (.free base size t) (some old) none .release
  | guard {a : Nat} {old : Prot} (ha : pageAlign a = p) (hg : hasBits old pageGuard) :
      Moves s p (.handleFault a) (some old) (some (old &&& ~~~pageGuard))
        (.map (toMemProt (old &&& ~~~pageGuard)))
  | untracked {base size : Nat} {new : Prot} {c : Option Prot}
      (hres : findReservation s (pageAlign base) = none)
      (hp : OnPages (pageAlign base) (sizeAlign (wrap (size + (base - pageAlign base)))) p) :
      Moves s p (.protect base size new) c c (.reprot (toMemProt new))

/-! ## The record after an edit -/

variable {s : State}

theorem committedAt_of_mem (hv : Valid s.reservations) {r : Seg Reservation} {p : Nat}
    (hr : r ∈ s.reservations) (hp : r.Has p) : committedAt s p = valAt r.val.committed p := by
  unfold committedAt findReservation
  rw [(find_eq_some hv).mpr ⟨hr, hp⟩]
  rfl

theorem committedAt_of_not_mem (hv : Valid s.reservations) {p : Nat}
    (hn : ∀ r ∈ s.reservations, ¬ r.Has p) : committedAt s p = none := by
  unfold committedAt findReservation
  rw [(find_eq_none hv).mpr hn]
  rfl

variable {res : Seg Reservation}

theorem committedAt_modify (h : Booked s)
    (hres : res ∈ s.reservations) (m : Pages) (f : Reservation → Reservation) (p : Nat) :
    committedAt { s with reservations := modify res.base f s.reservations, pages := m } p =
      if res.Has p then valAt (f res.val).committed p else committedAt s p := by
  unfold committedAt findReservation
  rw [find_modify_of_mem h.valid hres]
  split <;> rfl

theorem committedAt_release (h : Booked s) (hres : res ∈ s.reservations) (p : Nat) :
    committedAt (s.release res) p = if res.Has p then none else committedAt s p := by
  unfold committedAt findReservation State.release
  dsimp only
  rw [find_remove h.valid hres]
  split <;> rfl

theorem committedAt_addReservation (h : Booked s) {target region : Nat} (hpos : 0 < region)
    (hdis : ∀ r ∈ s.reservations, r.stop ≤ target ∨ target + region ≤ r.base) (n : Nat)
    (doCommit : Bool) (prot : Prot) (p : Nat) :
    committedAt ({ s with nextFree := n }.addReservation target region doCommit prot) p =
      if target ≤ p ∧ p < target + region then if doCommit then some prot else none
      else committedAt s p := by
  unfold committedAt findReservation State.addReservation
  dsimp only
  rw [find_put (s := ⟨target, region, _⟩) h.valid hpos hdis]
  by_cases hp : target ≤ p ∧ p < target + region
  · rw [if_pos (show Seg.Has ⟨target, region, _⟩ p from hp), if_pos hp, Option.bind_some, initialCommitted]
    cases doCommit with
    | false => rfl
    | true => exact valAt_single (s := ⟨target, region, prot⟩) hp
  · rw [if_neg (show ¬ Seg.Has ⟨target, region, _⟩ p from hp), if_neg hp]

theorem committedAt_edit (h : Booked s) (hres : res ∈ s.reservations) (m : Pages) (c : Committed) (p : Nat) :
    committedAt ({ s with pages := m }.setCommitted res.base c) p =
      if res.Has p then valAt c p else committedAt s p :=
  committedAt_modify h hres m (fun r => { r with committed := c }) p

variable {lo hi : Nat}

/-- The record of a page after the committed map of `res` was spliced inside `[lo, hi)`. -/
theorem committedAt_splice (h : Booked s) (hres : res ∈ s.reservations) (m : Pages) (hle : lo ≤ hi) {w c : Committed}
    (hw : CommittedIn lo hi w) (hc : ∀ x, valAt c x = valAt (splice lo hi w res.val.committed) x) (p : Nat) :
    committedAt ({ s with pages := m }.setCommitted res.base c) p =
      if res.Has p ∧ lo ≤ p ∧ p < hi then valAt w p else committedAt s p := by
  have hin := h.inside res hres
  rw [committedAt_edit h hres, hc, valAt_splice hin.valid hle hw.valid hw.within]
  by_cases hp : res.Has p
  · rw [if_pos hp]
    by_cases hr : lo ≤ p ∧ p < hi
    · rw [if_pos hr, if_pos ⟨hp, hr⟩]
    · rw [if_neg hr, if_neg fun h => hr h.2, committedAt_of_mem h.valid hres hp]
  · rw [if_neg hp, if_neg fun h => hp h.1]

/-! ## The moves of each call -/

def StepMoves (s s' : State) (call : Call) : Prop :=
  ∃ a, Effects a s.pages s'.pages ∧
    ∀ p, IsPage p → Moves s p call (committedAt s p) (committedAt s' p) (a p)

theorem stepMoves_idle {s' : State} (call : Call) (hp : s'.pages = s.pages)
    (hr : s'.reservations = s.reservations) : StepMoves s s' call := by
  refine ⟨fun _ => .keep, ?_, fun p _ => ?_⟩
  · rw [hp]
    exact Effects.refl _
  · have heq : committedAt s' p = committedAt s p := by
      unfold committedAt findReservation
      rw [hr]
    rw [heq]
    exact .idle

variable {call : Call}

theorem stepMoves_commit (h : Booked s) (hcall : ∀ base size t, call ≠ .free base size t)
    (hres : res ∈ s.reservations) (hlo : IsPage lo) (hhi : IsPage hi)
    (hb : res.base ≤ lo) (hlt : lo < hi) (hs : hi ≤ res.stop) (prot : Prot) :
    StepMoves s (s.commit res lo hi prot) call := by
  have hin := h.inside res hres
  have hpart := (hin.part hlo hhi).1
  obtain ⟨hw, hcov⟩ := commitLoop_committed prot hhi (part lo hi res.val.committed) lo s.pages hlo
    hlt.le hpart
  have heff := effects_commitLoop prot hhi (part lo hi res.val.committed) lo s.pages hlo hlt.le hpart
  refine ⟨_, heff, fun p _ => ?_⟩
  have hnew := committedAt_splice h hres (commitLoop prot hi (part lo hi res.val.committed) lo
    s.pages).2 hlt.le hw (valAt_mergeAdjacent (valid_splice hin.valid hlt.le hw.valid hw.within)) p
  rw [State.commit, hnew]
  by_cases hp : lo ≤ p ∧ p < hi
  · have hhas : res.Has p := ⟨by omega, by omega⟩
    rw [if_pos ⟨hhas, hp⟩, if_pos hp, hcov p hp.1 hp.2, valAt_part hin.valid hlt.le hp.1 hp.2,
      committedAt_of_mem h.valid hres hhas]
    cases valAt res.val.committed p with
    | none => exact .commit hcall
    | some old => exact .change hcall
  · rw [if_neg fun h => hp h.2, if_neg hp]
    exact .idle

theorem stepMoves_addReservation (h : Booked s)
    (hcall : ∀ base size t, call ≠ .free base size t) {target region : Nat} (ht : IsPage target)
    (hr : IsPage region) (hpos : 0 < region)
    (hdis : ∀ r ∈ s.reservations, r.stop ≤ target ∨ target + region ≤ r.base) (n : Nat)
    (doCommit : Bool) (prot : Prot) :
    StepMoves s ({ s with nextFree := n }.addReservation target region doCommit prot) call := by
  have hnew := committedAt_addReservation h hpos hdis n doCommit prot
  have hold : ∀ p, target ≤ p ∧ p < target + region → committedAt s p = none := fun p hp =>
    committedAt_of_not_mem h.valid fun r hr' hrp => by
      have h1 := hrp.1
      have h2 := hrp.2
      rcases hdis r hr' with h3 | h3 <;> omega
  cases doCommit with
  | false =>
    refine ⟨fun _ => .keep, Effects.refl _, fun p _ => ?_⟩
    rw [hnew p]
    split
    · rename_i hp
      rw [hold p hp]
      exact .idle
    · exact .idle
  | true =>
    refine ⟨_, effects_commitPages s.pages ht hr prot, fun p _ => ?_⟩
    rw [hnew p, onRange]
    split
    · rename_i hp
      rw [hold p hp]
      exact .commit hcall
    · exact .idle

theorem stepMoves_release (h : Booked s) {base size : Nat} {t : BitVec 32} (hres : res ∈ s.reservations) :
    StepMoves s (s.release res) (.free base size t) := by
  have hin := h.inside res hres
  refine ⟨_, effects_releaseAll s.pages hin, fun p _ => ?_⟩
  rw [regionAct, committedAt_release h hres]
  by_cases hp : res.Has p
  · rw [if_pos hp, committedAt_of_mem h.valid hres hp]
    cases valAt res.val.committed p with
    | none => exact .idle
    | some old => exact .discard
  · have hout : valAt res.val.committed p = none := (valAt_eq_none hin.valid).mpr fun r hr hrp => by
      have h1 := hin.within r hr
      have h2 := hrp.1
      have h3 := hrp.2
      exact hp ⟨by omega, by omega⟩
    rw [if_neg hp, hout]
    exact .idle

theorem valAt_part_outside (h : CommittedIn res.base res.stop res.val.committed) (hlo : IsPage lo)
    (hhi : IsPage hi) {p : Nat} (hp : ¬ (res.Has p ∧ lo ≤ p ∧ p < hi)) :
    valAt (part lo hi res.val.committed) p = none := by
  obtain ⟨hpart, hrange⟩ := h.part hlo hhi
  refine (valAt_eq_none hpart.valid).mpr fun r hr hrp => ?_
  have h1 := hpart.within r hr
  have h2 := hrange r hr
  have h3 := hrp.1
  have h4 := hrp.2
  exact hp ⟨⟨by omega, by omega⟩, by omega, by omega⟩

theorem stepMoves_decommit (h : Booked s) {base size : Nat} {t : BitVec 32}
    (hres : res ∈ s.reservations) (hlo : IsPage lo) (hhi : IsPage hi) (hlt : lo < hi) :
    StepMoves s (s.decommit res lo hi) (.free base size t) := by
  have hin := h.inside res hres
  have hpart := (hin.part hlo hhi).1
  refine ⟨_, effects_releaseAll s.pages hpart, fun p _ => ?_⟩
  rw [State.decommit, committedAt_splice h hres _ hlt.le CommittedIn.nil fun _ => rfl, regionAct]
  by_cases hp : res.Has p ∧ lo ≤ p ∧ p < hi
  · rw [if_pos hp, valAt_part hin.valid hlt.le hp.2.1 hp.2.2, committedAt_of_mem h.valid hres hp.1]
    cases valAt res.val.committed p with
    | none => exact .idle
    | some old => exact .discard
  · rw [if_neg hp, valAt_part_outside hin hlo hhi hp]
    exact .idle

theorem valAt_withProt {c : Committed} (hc : CommittedIn lo hi c) (newProt : Prot)
    (p : Nat) : valAt (withProt newProt c) p = (valAt c p).map fun _ => newProt := by
  have hw := (hc.withProt newProt).valid
  cases hx : valAt c p with
  | none =>
    refine (valAt_eq_none hw).mpr fun r hr hp => ?_
    obtain ⟨t, ht, rfl⟩ := List.mem_map.mp hr
    exact (valAt_eq_none hc.valid).mp hx t ht hp
  | some v =>
    obtain ⟨t, ht, hp, -⟩ := (valAt_eq_some hc.valid).mp hx
    exact (valAt_eq_some hw).mpr ⟨_, List.mem_map.mpr ⟨t, ht, rfl⟩, hp, rfl⟩

theorem stepMoves_reprotect (h : Booked s) (hcall : ∀ base size t, call ≠ .free base size t)
    (hres : res ∈ s.reservations) (hlo : IsPage lo) (hhi : IsPage hi) (hle : lo ≤ hi)
    (newProt : Prot) : StepMoves s (s.reprotect res lo hi newProt) call := by
  have hin := h.inside res hres
  have hpart := (hin.part hlo hhi).1
  have hw := hpart.withProt newProt
  refine ⟨_, effects_protectAll s.pages newProt hpart, fun p _ => ?_⟩
  rw [State.reprotect, committedAt_splice h hres _ hle hw
    (valAt_mergeAdjacent (valid_splice hin.valid hle hw.valid hw.within)),
    valAt_withProt hpart, regionAct]
  by_cases hp : res.Has p ∧ lo ≤ p ∧ p < hi
  · rw [if_pos hp, valAt_part hin.valid hle hp.2.1 hp.2.2, committedAt_of_mem h.valid hres hp.1]
    cases valAt res.val.committed p with
    | none => exact .idle
    | some old => exact .change hcall
  · rw [if_neg hp, valAt_part_outside hin hlo hhi hp]
    exact .idle

/-- A fault brings in one page, and the move of that page is the given one. -/
theorem stepMoves_faultIn (h : Booked s)
    (hres : res ∈ s.reservations) {page : Nat} (hpage : IsPage page) (hhas : res.Has page) {prot : Prot}
    (hmove : Moves s page call (valAt res.val.committed page) (some prot) (.map (toMemProt prot))) :
    StepMoves s (s.faultIn res page prot) call := by
  have hin := h.inside res hres
  have hw : CommittedIn page (page + pageSize) [⟨page, pageSize, prot⟩] :=
    (CommittedIn.nil : CommittedIn (page + pageSize) (page + pageSize) []).cons hpage
      (hpage.add isPage_pageSize) (show 0 < pageSize by decide) le_rfl le_rfl le_rfl
  have hle : page ≤ page + pageSize := Nat.le_add_right _ _
  refine ⟨_, effects_mapPages s.pages hpage isPage_pageSize prot, fun p hp => ?_⟩
  rw [State.faultIn, committedAt_splice h hres _ hle hw
    (valAt_mergeAdjacent (valid_splice hin.valid hle hw.valid hw.within)), onRange]
  by_cases hin' : page ≤ p ∧ p < page + pageSize
  · obtain rfl : p = page := hp.eq_of_within hpage hin'.1 hin'.2
    have hval : valAt [(⟨p, pageSize, prot⟩ : Seg Prot)] p = some prot := valAt_single hin'
    rw [if_pos ⟨hhas, hin'⟩, if_pos hin', hval, committedAt_of_mem h.valid hres hhas]
    exact hmove
  · rw [if_neg fun h => hin' h.2, if_neg hin']
    exact .idle

theorem step_moves {s' : State} (h : VadInv s) (hok : call.Bounded)
    (hstep : step s call = some s') : StepMoves s s' call := by
  have hbooked := h.booked
  have hnw := hok.nonWrapping hbooked
  cases call with
  | allocate base size allocType prot alignment =>
    rw [step, Option.map_eq_some_iff] at hstep
    obtain ⟨⟨ret, s'⟩, hret, rfl⟩ := hstep
    have hout := allocate_outcome hbooked hok.2.2 hret
    cases hout with
    | refused => exact stepMoves_idle _ rfl rfl
    | committed hacc hin hpos hle =>
      obtain ⟨⟨hmem, hhas⟩, -⟩ := commitsIn_eq_some hbooked hin
      have hlo := isPage_pageAlign base
      exact stepMoves_commit hbooked (by simp) hmem hlo (hlo.add (isPage_regionOf base size)) hhas.1
        (by omega) hle prot
    | reserved hacc hn hnone hplaced hpage hpos hlim hdis =>
      exact stepMoves_addReservation hbooked (by simp) hpage (isPage_regionOf base size) hpos hdis _ _
        prot
    | wrapped hacc hpos htarget hw => exact absurd hw (not_le.mpr (htarget.lt hbooked hnw))
  | free base size freeType =>
    cases hstep
    have hout := free_outcome hbooked base size freeType
    generalize (free s base size freeType).1 = ret at hout
    generalize (free s base size freeType).2 = s' at hout
    cases hout with
    | refused => exact stepMoves_idle _ rfl rfl
    | released hbits hfind => exact stepMoves_release hbooked (hbooked.of_find hfind).1
    | decommitted hbits hfind hpage hpos =>
      have hlo := isPage_pageAlign base
      exact stepMoves_decommit hbooked (hbooked.of_find hfind).1 hlo (hlo.add hpage) (by omega)
    | wrapped hbits hfind hw => exact absurd hw (not_le.mpr hnw.region_lt)
  | protect base size newProt =>
    cases hstep
    have hout := protect_outcome hbooked base size newProt
    generalize (protect s base size newProt).2.1 = old at hout
    generalize (protect s base size newProt).2.2 = s' at hout
    cases hout with
    | untracked hnone =>
      refine ⟨_, effects_protVirt s.pages _ _ _, fun p hp => ?_⟩
      rw [onRange]
      split
      · rename_i hin
        exact .untracked hnone ((onPages_iff hp).mpr hin)
      · exact .idle
    | uncommitted => exact stepMoves_idle _ rfl rfl
    | changed hfind hold =>
      have hlo := isPage_pageAlign base
      exact stepMoves_reprotect hbooked (by simp) (hbooked.of_find hfind).1 hlo
        (hlo.add (isPage_regionOf base size)) (Nat.le_add_right _ _) newProt
    | wrapped hfind hold hw => exact absurd hw (not_le.mpr hnw.region_lt)
  | handleFault faultAddr =>
    cases hstep
    have hpage := isPage_pageAlign faultAddr
    have hout := handleFault_outcome hbooked faultAddr
    generalize (handleFault s faultAddr).1 = ret at hout
    generalize (handleFault s faultAddr).2 = s' at hout
    cases hout with
    | ignored => exact stepMoves_idle _ rfl rfl
    | @demand res hfind hnone hresident =>
      obtain ⟨hmem, hhas⟩ := hbooked.of_find hfind
      refine stepMoves_faultIn hbooked hmem hpage hhas ?_
      rw [hnone, show Act.map (toMemProt res.val.initialProt) = commitAct res.val.initialProt by
        rw [commitAct, if_pos hresident]]
      exact .commit (by simp)
    | guard hfind hold hguard =>
      obtain ⟨hmem, hhas⟩ := hbooked.of_find hfind
      refine stepMoves_faultIn hbooked hmem hpage hhas ?_
      rw [hold]
      exact .guard rfl hguard

end Kernemul.UserMem
