import Kernemul.Win.UserMem.Outcomes

/-!
# The manager's books stay well formed

`VadInv` says that the reservations are page aligned, non-empty, disjoint and below the user limit,
and that inside each of them the committed regions are page aligned, non-empty, disjoint, inside the
reservation, and maximal: two regions that touch differ in protection. Every call keeps it
(`step_vadInv`), so it holds in every state a run from a new manager reaches.
-/

namespace Kernemul.UserMem

open Segments

structure CommittedOk (res : Seg Reservation) : Prop where
  inside : CommittedIn res.base res.stop res.val.committed
  maximal : Maximal res.val.committed

structure VadInv (s : State) : Prop where
  valid : Valid s.reservations
  aligned : ∀ r ∈ s.reservations, IsPage r.base ∧ IsPage r.stop
  limit : ∀ r ∈ s.reservations, r.stop ≤ userAddrLimit
  committed : ∀ r ∈ s.reservations, CommittedOk r
  nextFree : IsPage s.nextFree ∧ s.nextFree ≤ userAddrLimit

theorem VadInv.booked {s : State} (h : VadInv s) : Booked s :=
  ⟨h.valid, h.aligned, h.limit, fun r hr => (h.committed r hr).inside, h.nextFree⟩

theorem Booked.vadInv {s : State} (h : Booked s)
    (hmax : ∀ r ∈ s.reservations, Maximal r.val.committed) : VadInv s :=
  ⟨h.valid, h.aligned, h.limit, fun r hr => ⟨h.inside r hr, hmax r hr⟩, h.nextFree⟩

/-! ## Every call keeps the books well formed -/

section Steps
variable {s : State} (h : VadInv s)
include h

theorem VadInv.withPages (m : Pages) : VadInv { s with pages := m } :=
  ⟨h.valid, h.aligned, h.limit, h.committed, h.nextFree⟩

theorem VadInv.withNextFree {n : Nat} (hn : IsPage n ∧ n ≤ userAddrLimit) :
    VadInv { s with nextFree := n } :=
  ⟨h.valid, h.aligned, h.limit, h.committed, hn⟩

theorem VadInv.editWith {res : Seg Reservation} (hres : res ∈ s.reservations) {m : Pages}
    {f : Reservation → Reservation} (hin : CommittedIn res.base res.stop (f res.val).committed)
    (hmax : Maximal (f res.val).committed) :
    VadInv { s with reservations := modify res.base f s.reservations, pages := m } := by
  refine (h.booked.editWith hres hin).vadInv fun r hr => ?_
  obtain ⟨t, ht, -, -, hval⟩ := h.valid.entry_of_modify hres hr
  rcases hval with ⟨-, hval⟩ | hval
  · rw [hval]
    exact hmax
  · rw [hval]
    exact (h.committed t ht).maximal

theorem VadInv.edit {res : Seg Reservation} (hres : res ∈ s.reservations) {m : Pages} {c : Committed}
    (hc : CommittedIn res.base res.stop c ∧ Maximal c) :
    VadInv ({ s with pages := m }.setCommitted res.base c) :=
  h.editWith hres (f := fun r => { r with committed := c }) hc.1 hc.2

theorem VadInv.put {r : Seg Reservation} {m : Pages} (hpage : IsPage r.base ∧ IsPage r.stop)
    (hpos : 0 < r.size) (hlim : r.stop ≤ userAddrLimit)
    (hdis : ∀ t ∈ s.reservations, t.stop ≤ r.base ∨ r.stop ≤ t.base)
    (hc : CommittedIn r.base r.stop r.val.committed ∧ Maximal r.val.committed) :
    VadInv { s with reservations := Segments.put r s.reservations, pages := m } := by
  refine (h.booked.put hpage hpos hlim hdis hc.1).vadInv fun t ht => ?_
  rcases (mem_put (h.booked.ne_base hpos hdis)).mp ht with rfl | ht
  · exact hc.2
  · exact (h.committed t ht).maximal

theorem VadInv.addReservation {target region : Nat} (ht : IsPage target) (hr : IsPage region)
    (hpos : 0 < region) (hlim : target + region ≤ userAddrLimit)
    (hdis : ∀ r ∈ s.reservations, r.stop ≤ target ∨ target + region ≤ r.base) (doCommit : Bool)
    (prot : Prot) : VadInv (s.addReservation target region doCommit prot) :=
  h.put ⟨ht, ht.add hr⟩ hpos hlim hdis
    ⟨initialCommitted_in ht hr hpos doCommit prot, maximal_initialCommitted hpos doCommit prot⟩

theorem VadInv.release (res : Seg Reservation) : VadInv (s.release res) :=
  (h.booked.release res).vadInv fun r hr => (h.committed r (List.mem_of_mem_filter hr)).maximal

theorem VadInv.decommit {res : Seg Reservation} (hres : res ∈ s.reservations) {lo hi : Nat}
    (hlo : IsPage lo) (hhi : IsPage hi) (hlt : lo < hi) : VadInv (s.decommit res lo hi) := by
  obtain ⟨hin, hmax⟩ := h.committed res hres
  exact h.edit hres ⟨hin.splice hlo hhi hlt.le CommittedIn.nil (by simp),
    maximal_remove hin.valid hmax hlt⟩

end Steps

theorem VadInv.step {s s' : State} {call : Call} (h : VadInv s) (hok : call.NonWrapping s)
    (hstep : UserMem.step s call = some s') : VadInv s' := by
  have hbooked := h.booked
  cases call with
  | allocate base size allocType prot alignment =>
    rw [UserMem.step, Option.map_eq_some_iff] at hstep
    obtain ⟨⟨ret, s'⟩, hret, rfl⟩ := hstep
    have hout := allocate_outcome hbooked hok.2.1 hret
    cases hout with
    | refused hnot hstatus hn => exact h.withNextFree hn
    | committed hacc hin hpos hle =>
      obtain ⟨⟨hmem, hhas⟩, -⟩ := commitsIn_eq_some hbooked hin
      have hlo := isPage_pageAlign base
      exact h.edit hmem (hbooked.commit_committed hmem hlo (hlo.add (isPage_regionOf base size))
        hhas.1 (by omega) hle prot)
    | reserved hacc hn hnone hplaced hpage hpos hlim hdis =>
      exact (h.withNextFree hn).addReservation hpage (isPage_regionOf base size) hpos hlim hdis _ prot
    | wrapped hacc hpos htarget hw => exact absurd hw (not_le.mpr (htarget.lt hbooked hok))
  | free base size freeType =>
    cases hstep
    have hout := free_outcome hbooked base size freeType
    generalize (free s base size freeType).1 = ret at hout
    generalize (free s base size freeType).2 = s' at hout
    cases hout with
    | refused => exact h
    | released => exact h.release _
    | decommitted hbits hfind hpage hpos =>
      have hlo := isPage_pageAlign base
      exact h.decommit (hbooked.of_find hfind).1 hlo (hlo.add hpage) (by omega)
    | wrapped hbits hfind hw => exact absurd hw (not_le.mpr hok.region_lt)
  | protect base size newProt =>
    cases hstep
    have hout := protect_outcome hbooked base size newProt
    generalize (protect s base size newProt).2.1 = old at hout
    generalize (protect s base size newProt).2.2 = s' at hout
    cases hout with
    | untracked => exact h.withPages _
    | uncommitted => exact h
    | changed hfind hold =>
      have hlo := isPage_pageAlign base
      have hmem := (hbooked.of_find hfind).1
      exact h.edit hmem (hbooked.reprotect_committed hmem hlo (hlo.add (isPage_regionOf base size))
        (Nat.le_add_right _ _) newProt)
    | wrapped hfind hold hw => exact absurd hw (not_le.mpr hok.region_lt)
  | handleFault faultAddr =>
    cases hstep
    have hpage := isPage_pageAlign faultAddr
    have hout := handleFault_outcome hbooked faultAddr
    generalize (handleFault s faultAddr).1 = ret at hout
    generalize (handleFault s faultAddr).2 = s' at hout
    cases hout with
    | ignored => exact h
    | demand hfind =>
      obtain ⟨hmem, hhas⟩ := hbooked.of_find hfind
      exact h.edit hmem (hbooked.faultIn_committed hmem hpage hhas _)
    | guard hfind =>
      obtain ⟨hmem, hhas⟩ := hbooked.of_find hfind
      exact h.edit hmem (hbooked.faultIn_committed hmem hpage hhas _)

theorem step_vadInv {s s' : State} {call : Call} (h : VadInv s) (hok : call.Bounded)
    (hstep : step s call = some s') : VadInv s' :=
  h.step (hok.nonWrapping h.booked) hstep

theorem init_vadInv (phys : Nat) : VadInv (State.init phys) :=
  ⟨Valid.nil, by simp [State.init], by simp [State.init], by simp [State.init],
    show IsPage userAllocBase ∧ userAllocBase ≤ userAddrLimit by decide⟩

abbrev BoundedRun (phys : Nat) : List Call → State → Prop :=
  Run.Steps step (fun _ call => call.Bounded) (State.init phys)

def boundedCheck (_ : State) (call : Call) : Bool := decide call.Bounded

theorem VadInv.wellFormed {s : State} (hv : VadInv s) :
    (∀ r ∈ s.reservations, IsPage r.base ∧ IsPage r.size ∧ 0 < r.size ∧
      r.base + r.size ≤ userAddrLimit) ∧
    s.reservations.Pairwise (fun r t => r.base + r.size ≤ t.base) ∧
    ∀ r ∈ s.reservations,
      (∀ c ∈ r.val.committed, IsPage c.base ∧ IsPage c.size ∧ 0 < c.size ∧
        r.base ≤ c.base ∧ c.base + c.size ≤ r.base + r.size) ∧
      r.val.committed.Pairwise (fun c d => c.base + c.size ≤ d.base) ∧
      ∀ c ∈ r.val.committed, ∀ d ∈ r.val.committed, c.base + c.size = d.base → c.val ≠ d.val := by
  have hsize : ∀ {α : Type} (r : Seg α), IsPage r.base → IsPage r.stop → IsPage r.size := by
    intro α r hb hs
    have := hs.sub hb
    rwa [Seg.stop, Nat.add_sub_cancel_left] at this
  refine ⟨fun r hr => ?_, hv.valid.ordered, fun r hr => ?_⟩
  · obtain ⟨hb, hs⟩ := hv.aligned r hr
    exact ⟨hb, hsize r hb hs, hv.valid.pos r hr, hv.limit r hr⟩
  · obtain ⟨hin, hmax⟩ := hv.committed r hr
    refine ⟨fun c hc => ?_, hin.valid.ordered, hmax⟩
    obtain ⟨hb, hs⟩ := hin.aligned c hc
    exact ⟨hb, hsize c hb hs, hin.valid.pos c hc, hin.within c hc⟩

/-- A commit of three pages, a guard armed on the middle one, and the fault that takes it off. -/
def guardExcursion : List Call :=
  [.allocate 0 0x3000 (memCommit ||| memReserve) pageReadwrite 0,
    .protect 0x100001000 0x1000 (pageReadwrite ||| pageGuard), .handleFault 0x100001008]

end Kernemul.UserMem
