import Kernemul.Win.UserMem.Model

/-!
# The manager's books

`Booked` says that the reservations are page aligned, non-empty, disjoint and below the user limit, and
that the committed regions of each are page aligned, non-empty, disjoint and inside it. What the calls
do to the books is a handful of edits, and each of them keeps `Booked`.

All edits of a committed map go through the same pattern: cut at both ends of the range, replace
what lies between (`valid_replace`), and merge. `CommittedIn` is what such an edit has to produce
before the merge.
-/

namespace Kernemul.UserMem

open Segments

/-- A committed map without the maximality a merge restores: regions of whole pages in order inside
`[lo, hi)`. -/
structure CommittedIn (lo hi : Nat) (c : Committed) : Prop where
  valid : Valid c
  aligned : ∀ r ∈ c, IsPage r.base ∧ IsPage r.stop
  within : ∀ r ∈ c, lo ≤ r.base ∧ r.stop ≤ hi

/-! ## Editing a committed map -/

/-- The regions with their protection set to `newProt`. -/
def withProt (newProt : Prot) (c : Committed) : Committed := c.map fun it => { it with val := newProt }

namespace CommittedIn

variable {lo hi : Nat} {c : Committed}

theorem nil : CommittedIn lo hi [] := ⟨Valid.nil, by simp, by simp⟩

theorem cut (h : CommittedIn lo hi c) {a : Nat} (ha : IsPage a) : CommittedIn lo hi (cut a c) := by
  refine ⟨h.valid.cut a, fun r hr => ?_, fun r hr => ?_⟩
  · rcases mem_cut hr with hr | ⟨t, ht, -, -, -, ⟨hb, hs⟩ | ⟨hb, hs⟩⟩
    · exact h.aligned r hr
    · rw [hb, hs]; exact ⟨(h.aligned t ht).1, ha⟩
    · rw [hb, hs]; exact ⟨ha, (h.aligned t ht).2⟩
  · obtain ⟨t, ht, h1, h2, -⟩ := mem_cut_sub hr
    have := h.within t ht
    omega

theorem splitAt_splitAt (h : CommittedIn lo hi c) (a b : Nat) :
    splitAt (splitAt c a) b = Segments.cut b (Segments.cut a c) := by
  rw [splitAt_eq_cut h.valid, splitAt_eq_cut (h.valid.cut a)]

theorem splice (h : CommittedIn lo hi c) {a b : Nat} (ha : IsPage a) (hb : IsPage b) (hab : a ≤ b)
    {w : Committed} (hw : CommittedIn a b w) (hwi : ∀ r ∈ w, lo ≤ r.base ∧ r.stop ≤ hi) :
    CommittedIn lo hi (Segments.splice a b w c) := by
  have hc := (h.cut ha).cut hb
  refine ⟨valid_splice h.valid hab hw.valid hw.within, fun r hr => ?_, fun r hr => ?_⟩
  · rcases mem_splice hr with hr | hr
    · exact hw.aligned r hr
    · exact hc.aligned r hr
  · rcases mem_splice hr with hr | hr
    · exact hwi r hr
    · exact hc.within r hr

theorem part (h : CommittedIn lo hi c) {a b : Nat} (ha : IsPage a) (hb : IsPage b) :
    CommittedIn a b (Segments.part a b c) ∧
      ∀ r ∈ Segments.part a b c, lo ≤ r.base ∧ r.stop ≤ hi := by
  have hc := (h.cut ha).cut hb
  obtain ⟨hv, hw⟩ := part_spec a b h.valid
  exact ⟨⟨hv, fun r hr => hc.aligned r (mem_part hr), hw⟩, fun r hr => hc.within r (mem_part hr)⟩

theorem merge (h : CommittedIn lo hi c) :
    CommittedIn lo hi (mergeAdjacent c) ∧ Maximal (mergeAdjacent c) := by
  refine ⟨⟨valid_mergeAdjacent h.valid, fun r hr => ?_, fun r hr => ?_⟩,
    maximal_mergeAdjacent h.valid⟩
  · obtain ⟨⟨t, ht, hb⟩, ⟨u, hu, hs⟩⟩ := ends_mergeAdjacent h.valid hr
    rw [hb, hs]
    exact ⟨(h.aligned t ht).1, (h.aligned u hu).2⟩
  · obtain ⟨⟨t, ht, hb⟩, ⟨u, hu, hs⟩⟩ := ends_mergeAdjacent h.valid hr
    rw [hb, hs]
    exact ⟨(h.within t ht).1, (h.within u hu).2⟩

theorem withProt (h : CommittedIn lo hi c) (newProt : Prot) :
    CommittedIn lo hi (withProt newProt c) := by
  unfold UserMem.withProt
  refine ⟨⟨?_, fun r hr => ?_⟩, fun r hr => ?_, fun r hr => ?_⟩
  · rw [List.pairwise_map]
    exact h.valid.ordered
  all_goals
    obtain ⟨t, ht, rfl⟩ := List.mem_map.mp hr
  · exact h.valid.pos t ht
  · exact h.aligned t ht
  · exact h.within t ht

theorem cons {r : Seg Prot} {mid : Nat} (h : CommittedIn mid hi c) (hb : IsPage r.base)
    (hs : IsPage r.stop) (hpos : 0 < r.size) (hlo : lo ≤ r.base) (hmid : r.stop ≤ mid)
    (hhi : mid ≤ hi) : CommittedIn lo hi (r :: c) := by
  refine ⟨valid_cons.mpr ⟨hpos, fun t ht => ?_, h.valid⟩, fun t ht => ?_, fun t ht => ?_⟩
  · exact le_trans hmid (h.within t ht).1
  · rcases List.mem_cons.mp ht with rfl | ht
    · exact ⟨hb, hs⟩
    · exact h.aligned t ht
  · rcases List.mem_cons.mp ht with rfl | ht
    · omega
    · have := h.within t ht
      have h1 : r.base ≤ r.stop := Nat.le_add_right _ _
      omega

theorem uncons {it : Seg Prot} {rest : Committed} (h : CommittedIn lo hi (it :: rest)) :
    (IsPage it.base ∧ IsPage it.stop) ∧ 0 < it.size ∧ lo ≤ it.base ∧ it.stop ≤ hi ∧
      CommittedIn it.stop hi rest := by
  obtain ⟨hpos, hit, hrest⟩ := valid_cons.mp h.valid
  obtain ⟨hlo, hhi⟩ := h.within it (by simp)
  exact ⟨h.aligned it (by simp), hpos, hlo, hhi, hrest, fun r hr => h.aligned r (by simp [hr]),
    fun r hr => ⟨hit r hr, (h.within r (by simp [hr])).2⟩⟩

theorem filled {mid : Nat} (h : CommittedIn mid hi c) (hlo : IsPage lo) (hmid : IsPage mid) (hle : lo ≤ mid)
    (hhi : mid ≤ hi) (prot : Prot) :
    CommittedIn lo hi ((if lo < mid then [⟨lo, mid - lo, prot⟩] else []) ++ c) := by
  split
  · rename_i hlt
    have hstop : (⟨lo, mid - lo, prot⟩ : Seg Prot).stop = mid := by
      simp only [Seg.stop]
      omega
    exact h.cons hlo (by rw [hstop]; exact hmid) (by simp only; omega) le_rfl hstop.le hhi
  · obtain rfl : lo = mid := by omega
    exact h

end CommittedIn

/-- What `commit_into`'s loop leaves between `cursor` and `stop`: everything there, and all of it
with the new protection. -/
theorem commitLoop_committed (prot : Prot) {stop : Nat} (hstop : IsPage stop) :
    ∀ (w : Committed) (cursor : Nat) (m : Pages), IsPage cursor → cursor ≤ stop →
      CommittedIn cursor stop w →
      CommittedIn cursor stop (commitLoop prot stop w cursor m).1 ∧
        ∀ x, cursor ≤ x → x < stop → valAt (commitLoop prot stop w cursor m).1 x = some prot := by
  intro w
  induction w with
  | nil =>
    intro cursor m hc hle _
    rw [commitLoop]
    split
    · rename_i hlt
      have heq : (⟨cursor, stop - cursor, prot⟩ : Seg Prot).stop = stop := by
        simp only [Seg.stop]; omega
      have hin : CommittedIn cursor stop [⟨cursor, stop - cursor, prot⟩] :=
        (CommittedIn.nil : CommittedIn stop stop []).cons hc (by rw [heq]; exact hstop)
          (by simp only; omega) le_rfl heq.le le_rfl
      refine ⟨hin, fun x h1 h2 => (valAt_eq_some hin.valid).mpr
        ⟨⟨cursor, stop - cursor, prot⟩, by simp, ⟨h1, ?_⟩, rfl⟩⟩
      rw [heq]
      exact h2
    · rename_i hlt
      exact ⟨CommittedIn.nil, fun x h1 h2 => by omega⟩
  | cons it rest ih =>
    intro cursor m hc hle hw
    obtain ⟨hal, hpos, hbase, hend, hrest⟩ := hw.uncons
    have hbs : it.base < it.stop := hw.valid.base_lt_stop (by simp)
    rw [commitLoop]
    generalize (if cursor < it.base then m.commitPages cursor (it.base - cursor) prot else m) = m1
    simp only
    obtain ⟨hout, hcov⟩ := ih it.stop (m1.applyProt it.base it.size it.val prot) hal.2 hend hrest
    generalize commitLoop prot stop rest it.stop (m1.applyProt it.base it.size it.val prot) = out at *
    have hcons : CommittedIn it.base stop ({ it with val := prot } :: out.1) :=
      hout.cons hal.1 hal.2 hpos le_rfl le_rfl hend
    have hat : ∀ x, it.base ≤ x → x < stop →
        valAt (({ it with val := prot } : Seg Prot) :: out.1) x = some prot := by
      intro x h1 h2
      rw [valAt_cons hcons.valid]
      by_cases hx : x < it.stop
      · rw [if_pos ⟨h1, hx⟩]
      · rw [if_neg fun h => hx h.2]
        exact hcov x (by omega) h2
    by_cases hgap : cursor < it.base
    · simp only [if_pos hgap]
      have heq : (⟨cursor, it.base - cursor, prot⟩ : Seg Prot).stop = it.base := by
        simp only [Seg.stop]; omega
      have hin : CommittedIn cursor stop (⟨cursor, it.base - cursor, prot⟩ :: _ :: out.1) :=
        hcons.cons hc (by rw [heq]; exact hal.1) (by simp only; omega) le_rfl heq.le (by omega)
      refine ⟨hin, fun x h1 h2 => ?_⟩
      rw [valAt_cons hin.valid]
      by_cases hx : x < it.base
      · rw [if_pos ⟨h1, by rw [heq]; exact hx⟩]
      · rw [if_neg fun h => hx (heq ▸ h.2)]
        exact hat x (by omega) h2
    · simp only [if_neg hgap]
      have : cursor = it.base := by omega
      subst this
      exact ⟨hcons, hat⟩

/-! ## The books -/

/-- The books are in order, but for the maximality of the committed regions. -/
structure Booked (s : State) : Prop where
  valid : Valid s.reservations
  aligned : ∀ r ∈ s.reservations, IsPage r.base ∧ IsPage r.stop
  limit : ∀ r ∈ s.reservations, r.stop ≤ userAddrLimit
  inside : ∀ r ∈ s.reservations, CommittedIn r.base r.stop r.val.committed
  nextFree : IsPage s.nextFree ∧ s.nextFree ≤ userAddrLimit

variable {s : State}

theorem Booked.withPages (h : Booked s) (m : Pages) : Booked { s with pages := m } :=
  ⟨h.valid, h.aligned, h.limit, h.inside, h.nextFree⟩

theorem Booked.withNextFree (h : Booked s) {n : Nat} (hn : IsPage n ∧ n ≤ userAddrLimit) :
    Booked { s with nextFree := n } :=
  ⟨h.valid, h.aligned, h.limit, h.inside, hn⟩

variable {res : Seg Reservation}

theorem Booked.of_find (h : Booked s) {a : Nat}
    (hf : findReservation s a = some res) : res ∈ s.reservations ∧ res.Has a :=
  (find_eq_some h.valid).mp hf

variable {r : Seg Reservation}

theorem Booked.isPage_size (h : Booked s) (hr : r ∈ s.reservations) : IsPage r.size := by
  obtain ⟨hb, hs⟩ := h.aligned r hr
  have := IsPage.sub hs hb
  rwa [Seg.stop, Nat.add_sub_cancel_left] at this

theorem init_booked (phys : Nat) : Booked (State.init phys) :=
  ⟨Valid.nil, by simp [State.init], by simp [State.init], by simp [State.init],
    show IsPage userAllocBase ∧ userAllocBase ≤ userAddrLimit by decide⟩

/-! ### One reservation's record replaced -/

theorem Booked.editWith (h : Booked s) (hres : res ∈ s.reservations)
    {m : Pages} {f : Reservation → Reservation} (hin : CommittedIn res.base res.stop (f res.val).committed) :
    Booked { s with reservations := modify res.base f s.reservations, pages := m } := by
  refine ⟨h.valid.modify _ _, fun r hr => ?_, fun r hr => ?_, fun r hr => ?_, h.nextFree⟩
  all_goals
    obtain ⟨t, ht, hb, hs, hc⟩ := h.valid.entry_of_modify hres hr
    have hstop : r.stop = t.stop := by rw [Seg.stop, Seg.stop, hb, hs]
  · rw [hb, hstop]
    exact h.aligned t ht
  · rw [hstop]
    exact h.limit t ht
  · rcases hc with ⟨rfl, hc⟩ | hc
    · rw [hb, hstop, hc]
      exact hin
    · rw [hb, hstop, hc]
      exact h.inside t ht

theorem Booked.edit (h : Booked s) (hres : res ∈ s.reservations)
    {m : Pages} {c : Committed} (hin : CommittedIn res.base res.stop c) :
    Booked ({ s with pages := m }.setCommitted res.base c) :=
  h.editWith hres (f := fun r => { r with committed := c }) hin

/-! ### A reservation added or removed -/

theorem Booked.ne_base (h : Booked s) {base size : Nat} (hpos : 0 < size)
    (hdis : ∀ r ∈ s.reservations, r.stop ≤ base ∨ base + size ≤ r.base) :
    ∀ r ∈ s.reservations, r.base ≠ base := by
  intro r hr
  have h1 := h.valid.base_lt_stop hr
  rcases hdis r hr with h2 | h2 <;> omega

theorem Booked.put (h : Booked s) {m : Pages}
    (hpage : IsPage r.base ∧ IsPage r.stop) (hpos : 0 < r.size) (hlim : r.stop ≤ userAddrLimit)
    (hdis : ∀ t ∈ s.reservations, t.stop ≤ r.base ∨ r.stop ≤ t.base)
    (hin : CommittedIn r.base r.stop r.val.committed) :
    Booked { s with reservations := put r s.reservations, pages := m } := by
  have hne := h.ne_base hpos hdis
  refine ⟨h.valid.put hpos hdis, fun t ht => ?_, fun t ht => ?_, fun t ht => ?_, h.nextFree⟩
  all_goals
    rcases (mem_put hne).mp ht with rfl | ht
  · exact hpage
  · exact h.aligned t ht
  · exact hlim
  · exact h.limit t ht
  · exact hin
  · exact h.inside t ht

def initialCommitted (target region : Nat) (doCommit : Bool) (prot : Prot) : Committed :=
  if doCommit then [⟨target, region, prot⟩] else []

variable {target region : Nat}

theorem initialCommitted_in (ht : IsPage target) (hr : IsPage region)
    (hpos : 0 < region) (doCommit : Bool) (prot : Prot) :
    CommittedIn target (target + region) (initialCommitted target region doCommit prot) := by
  unfold initialCommitted
  cases doCommit with
  | false => exact CommittedIn.nil
  | true =>
    exact (CommittedIn.nil : CommittedIn (target + region) (target + region) []).cons ht
      (ht.add hr) hpos le_rfl le_rfl le_rfl

theorem maximal_initialCommitted (hpos : 0 < region) (doCommit : Bool)
    (prot : Prot) : Maximal (initialCommitted target region doCommit prot) := by
  unfold initialCommitted
  cases doCommit with
  | false => exact fun r hr => by simp at hr
  | true =>
    intro r hr t ht hrt
    simp only [if_true, List.mem_singleton] at hr ht
    subst hr ht
    simp only [Seg.stop] at hrt
    omega

/-! ## What the calls do to the books -/

/-- The state `commit_into` leaves when it commits `[base, stop)` in `res`. -/
def State.commit (s : State) (res : Seg Reservation) (base stop : Nat) (prot : Prot) : State :=
  let out := commitLoop prot stop (part base stop res.val.committed) base s.pages
  { s with pages := out.2 }.setCommitted res.base
    (mergeAdjacent (splice base stop out.1 res.val.committed))

/-- The state with a new reservation of `[target, target + region)`. -/
def State.addReservation (s : State) (target region : Nat) (doCommit : Bool) (prot : Prot) : State :=
  { s with
    reservations := put ⟨target, region, ⟨prot, memPrivate,
      initialCommitted target region doCommit prot⟩⟩ s.reservations
    pages := if doCommit then s.pages.commitPages target region prot else s.pages }

/-- The state after a release of `res`. -/
def State.release (s : State) (res : Seg Reservation) : State :=
  { s with
    reservations := s.reservations.filter fun r => r.base ≠ res.base
    pages := releaseAll s.pages res.val.committed }

/-- The state after a decommit of `[lo, hi)` in `res`. -/
def State.decommit (s : State) (res : Seg Reservation) (lo hi : Nat) : State :=
  { s with pages := releaseAll s.pages (part lo hi res.val.committed) }.setCommitted res.base
    (splice lo hi [] res.val.committed)

/-- The state after a protection change of `[lo, hi)` in `res`. -/
def State.reprotect (s : State) (res : Seg Reservation) (lo hi : Nat) (newProt : Prot) : State :=
  { s with pages := protectAll s.pages newProt (part lo hi res.val.committed) }.setCommitted res.base
    (mergeAdjacent (splice lo hi (withProt newProt (part lo hi res.val.committed)) res.val.committed))

/-- The state after a fault has brought `page` of `res` in with protection `prot`. -/
def State.faultIn (s : State) (res : Seg Reservation) (page : Nat) (prot : Prot) : State :=
  { s with pages := s.pages.mapPages page pageSize prot }.setCommitted res.base
    (mergeAdjacent (splice page (page + pageSize) [⟨page, pageSize, prot⟩] res.val.committed))

section Edits
variable {s : State} (h : Booked s) {res : Seg Reservation} (hres : res ∈ s.reservations)
include h hres

theorem Booked.commit_committed {lo hi : Nat} (hlo : IsPage lo) (hhi : IsPage hi)
    (hb : res.base ≤ lo) (hlt : lo < hi) (hs : hi ≤ res.stop) (prot : Prot) :
    CommittedIn res.base res.stop (mergeAdjacent (splice lo hi
      (commitLoop prot hi (part lo hi res.val.committed) lo s.pages).1 res.val.committed)) ∧
    Maximal (mergeAdjacent (splice lo hi
      (commitLoop prot hi (part lo hi res.val.committed) lo s.pages).1 res.val.committed)) := by
  have hin := h.inside res hres
  obtain ⟨hmid, -⟩ := commitLoop_committed prot hhi (part lo hi res.val.committed) lo s.pages hlo
    hlt.le (hin.part hlo hhi).1
  exact (hin.splice hlo hhi hlt.le hmid fun r hr => by
    have := hmid.within r hr
    omega).merge

theorem Booked.reprotect_committed {lo hi : Nat} (hlo : IsPage lo) (hhi : IsPage hi) (hle : lo ≤ hi)
    (newProt : Prot) :
    CommittedIn res.base res.stop (mergeAdjacent (splice lo hi
      (withProt newProt (part lo hi res.val.committed)) res.val.committed)) ∧
    Maximal (mergeAdjacent (splice lo hi
      (withProt newProt (part lo hi res.val.committed)) res.val.committed)) := by
  have hin := h.inside res hres
  obtain ⟨hpart, hrange⟩ := hin.part hlo hhi
  exact (hin.splice hlo hhi hle (hpart.withProt newProt) fun r hr => by
    obtain ⟨t, ht, rfl⟩ := List.mem_map.mp hr
    exact hrange t ht).merge

theorem Booked.faultIn_committed {page : Nat} (hpage : IsPage page) (hhas : res.Has page)
    (prot : Prot) :
    CommittedIn res.base res.stop (mergeAdjacent (splice page (page + pageSize)
      [⟨page, pageSize, prot⟩] res.val.committed)) ∧
    Maximal (mergeAdjacent (splice page (page + pageSize)
      [⟨page, pageSize, prot⟩] res.val.committed)) := by
  have hstop := hpage.add_le_of_lt (h.aligned res hres).2 hhas.2
  have hone : CommittedIn page (page + pageSize) [⟨page, pageSize, prot⟩] :=
    (CommittedIn.nil : CommittedIn (page + pageSize) (page + pageSize) []).cons hpage
      (hpage.add isPage_pageSize) (show 0 < pageSize by decide) le_rfl le_rfl le_rfl
  exact ((h.inside res hres).splice hpage (hpage.add isPage_pageSize) (Nat.le_add_right _ _) hone
    fun r hr => by
      have := hone.within r hr
      have := hhas.1
      omega).merge

theorem Booked.decommit {lo hi : Nat} (hlo : IsPage lo) (hhi : IsPage hi) (hlt : lo < hi) :
    Booked (s.decommit res lo hi) :=
  h.edit hres ((h.inside res hres).splice hlo hhi hlt.le CommittedIn.nil (by simp))

end Edits

theorem Booked.addReservation (h : Booked s) (ht : IsPage target)
    (hr : IsPage region) (hpos : 0 < region) (hlim : target + region ≤ userAddrLimit)
    (hdis : ∀ r ∈ s.reservations, r.stop ≤ target ∨ target + region ≤ r.base) (doCommit : Bool)
    (prot : Prot) : Booked (s.addReservation target region doCommit prot) :=
  h.put ⟨ht, ht.add hr⟩ hpos hlim hdis (initialCommitted_in ht hr hpos doCommit prot)

theorem Booked.release (h : Booked s) (res : Seg Reservation) : Booked (s.release res) := by
  have hsub : ∀ r ∈ (s.release res).reservations, r ∈ s.reservations :=
    fun r hr => List.mem_of_mem_filter hr
  exact ⟨h.valid.filter _, fun r hr => h.aligned r (hsub r hr), fun r hr => h.limit r (hsub r hr),
    fun r hr => h.inside r (hsub r hr), h.nextFree⟩

theorem exists_mem_commit (hr : r ∈ s.reservations) (res : Seg Reservation) (lo hi : Nat) (prot : Prot) :
    ∃ r' ∈ (s.commit res lo hi prot).reservations, r'.base = r.base ∧ r'.size = r.size := by
  simp only [State.commit, State.setCommitted]
  exact exists_entry_modify hr _ _

theorem exists_mem_addReservation (h : Booked s) (hpos : 0 < region)
    (hdis : ∀ r ∈ s.reservations, r.stop ≤ target ∨ target + region ≤ r.base) (doCommit : Bool) (prot : Prot) :
    ∃ r ∈ (s.addReservation target region doCommit prot).reservations,
      r.base = target ∧ r.size = region :=
  ⟨⟨target, region, _⟩, (mem_put (h.ne_base hpos hdis)).mpr (Or.inl rfl), rfl, rfl⟩

end Kernemul.UserMem
