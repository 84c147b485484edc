import Kernemul.Win.UserMem.Requests

/-!
# `query`

`query` answers for the largest range from the address's page on whose pages are all alike: in the same
state, with the same protection, in the same reservation. The length comes from the next reservation, from
the end of a committed region, or from the next committed region; it is the largest because regions that
touch differ in protection.
-/

namespace Kernemul.UserMem

open Segments

def memFree : BitVec 32 := 0x00010000

/-- `memory_basic_info`, zeroed where a field has no value. -/
structure MemoryBasicInfo where
  baseAddress : Nat := 0
  allocationBase : Nat := 0
  allocationProtect : Prot := 0
  regionSize : Nat := 0
  state : BitVec 32 := 0
  protect : Prot := 0
  type : BitVec 32 := 0
  deriving DecidableEq, Repr

/-- `stop - start`, on 64 bits. -/
def distance (stop start : Nat) : Nat := wrap (stop + 2 ^ 64 - start)

def query (s : State) (addr : Nat) : Status × MemoryBasicInfo :=
  let page := pageAlign addr
  match findReservation s addr with
  | none =>
    let stop := match after addr s.reservations with
      | some next => next.base
      | none => userAddrLimit + 1
    (.success, { baseAddress := page, state := memFree, protect := pageNoaccess,
                 regionSize := distance stop page })
  | some res =>
    match findCommitted res.val.committed addr with
    | some sub =>
      (.success, { baseAddress := page, allocationBase := res.base,
                   allocationProtect := res.val.initialProt, type := res.val.type,
                   state := memCommit, protect := sub.val, regionSize := distance sub.stop page })
    | none =>
      let stop := match after page res.val.committed with
        | some next => next.base
        | none => res.stop
      (.success, { baseAddress := page, allocationBase := res.base,
                   allocationProtect := res.val.initialProt, type := res.val.type,
                   state := memReserve, protect := pageNoaccess, regionSize := distance stop page })

/-! ## Uniform ranges -/

structure PageInfo where
  state : BitVec 32
  protect : Prot
  reservation : Option Nat
  deriving DecidableEq

def pageInfo (s : State) (p : Nat) : PageInfo :=
  match findReservation s p with
  | none => ⟨memFree, pageNoaccess, none⟩
  | some res =>
    match valAt res.val.committed p with
    | none => ⟨memReserve, pageNoaccess, some res.base⟩
    | some prot => ⟨memCommit, prot, some res.base⟩

/-- The pages of `[lo, hi)` are alike, and the page at `hi` is not like them unless it is past the user
limit. -/
structure Uniform (s : State) (info : PageInfo) (lo hi : Nat) : Prop where
  lt : lo < hi
  bound : hi ≤ userAddrLimit + 1
  page : IsPage hi
  alike : ∀ p, lo ≤ p → p < hi → pageInfo s p = info
  maximal : hi ≤ userAddrLimit → pageInfo s hi ≠ info

theorem pageAlign_has {α : Type*} {r : Seg α} {addr : Nat} (hb : IsPage r.base) (hr : r.Has addr) :
    r.Has (pageAlign addr) := by
  have h1 := lt_pageAlign_add addr
  have h2 := pageAlign_le addr
  have h3 := isPage_pageAlign addr
  have h4 := hr.1
  have h5 := hr.2
  refine ⟨?_, by omega⟩
  unfold IsPage pageSize at *
  omega

section
variable {s : State} (h : VadInv s) {addr : Nat}
include h

theorem pageInfo_of_mem {res : Seg Reservation} (hres : res ∈ s.reservations) {p : Nat} (hp : res.Has p) :
    pageInfo s p = match valAt res.val.committed p with
      | none => ⟨memReserve, pageNoaccess, some res.base⟩
      | some prot => ⟨memCommit, prot, some res.base⟩ := by
  rw [pageInfo, findReservation, (find_eq_some h.valid).mpr ⟨hres, hp⟩]

theorem pageInfo_of_not_mem {p : Nat} (hp : ∀ r ∈ s.reservations, ¬ r.Has p) :
    pageInfo s p = ⟨memFree, pageNoaccess, none⟩ := by
  rw [pageInfo, findReservation, (find_eq_none h.valid).mpr hp]

theorem pageInfo_ne {res : Seg Reservation} (hres : res ∈ s.reservations) {p : Nat} (hp : ¬ res.Has p) :
    (pageInfo s p).reservation ≠ some res.base := by
  unfold pageInfo
  cases hf : findReservation s p with
  | none => simp
  | some t =>
    obtain ⟨ht, htp⟩ := h.booked.of_find hf
    have hne := h.valid.base_ne_of_has hres ht htp hp
    simp only
    split <;> simpa using hne

theorem free_uniform (haddr : addr ≤ userAddrLimit) (hfind : findReservation s addr = none) :
    Uniform s ⟨memFree, pageNoaccess, none⟩ (pageAlign addr)
      (match after addr s.reservations with
        | some next => next.base
        | none => userAddrLimit + 1) := by
  have hnot := (find_eq_none h.valid).mp hfind
  have hle := pageAlign_le addr
  have hbelow : ∀ r ∈ s.reservations, r.base ≤ addr → r.stop ≤ pageAlign addr := fun r hr hb =>
    (h.aligned r hr).2.le_pageAlign (by
      by_contra hcon
      exact hnot r hr ⟨hb, by omega⟩)
  cases hafter : after addr s.reservations with
  | none =>
    have hlast := after_eq_none hafter
    refine ⟨by simp only; omega, le_rfl, by decide, fun p h1 _ => ?_,
      fun hlim => by simp only at hlim; omega⟩
    refine pageInfo_of_not_mem h fun r hr hp => ?_
    have h2 := hbelow r hr (hlast r hr)
    have h3 := hp.2
    omega
  | some next =>
    obtain ⟨hmem, hlt, hmin⟩ := after_eq_some h.valid hafter
    have hnext := (h.valid.base_lt_stop hmem).le.trans (h.limit next hmem)
    refine ⟨by simp only; omega, Nat.le_succ_of_le hnext, (h.aligned next hmem).1, fun p h1 h2 => ?_,
      fun _ => ?_⟩
    · refine pageInfo_of_not_mem h fun r hr hp => ?_
      have h3 := hp.1
      have h4 := hp.2
      simp only at h2
      by_cases hb : r.base ≤ addr
      · have h5 := hbelow r hr hb
        omega
      · have h5 := hmin r hr (by omega)
        omega
    · rw [pageInfo_of_mem h hmem ⟨le_rfl, h.valid.base_lt_stop hmem⟩]
      split <;> simp

section Reservation
variable {res : Seg Reservation} (hres : res ∈ s.reservations)
include hres

theorem committed_uniform {sub : Seg Prot} (hsub : sub ∈ res.val.committed) (hs : sub.Has addr) :
    Uniform s ⟨memCommit, sub.val, some res.base⟩ (pageAlign addr) sub.stop := by
  obtain ⟨hin, hmax⟩ := h.committed res hres
  obtain ⟨hpb, hps⟩ := hin.aligned sub hsub
  have hw := hin.within sub hsub
  have hpage := pageAlign_has hpb hs
  have hlimit := h.limit res hres
  refine ⟨hpage.2, by omega, hps, fun p h1 h2 => ?_, fun _ heq => ?_⟩
  · have hsp : sub.Has p := ⟨hpage.1.trans h1, h2⟩
    rw [pageInfo_of_mem h hres ⟨hw.1.trans hsp.1, by omega⟩,
      (valAt_eq_some hin.valid).mpr ⟨sub, hsub, hsp, rfl⟩]
  · by_cases hnext : res.Has sub.stop
    · rw [pageInfo_of_mem h hres hnext] at heq
      cases hval : valAt res.val.committed sub.stop with
      | none =>
        rw [hval] at heq
        exact absurd (congrArg PageInfo.state heq) (show memReserve ≠ memCommit by decide)
      | some prot =>
        -- the region that starts where this one ends
        obtain ⟨t, ht, htp, rfl⟩ := (valAt_eq_some hin.valid).mp hval
        have hne : sub ≠ t := fun heq => by
          rw [← heq] at htp
          exact absurd htp.2 (lt_irrefl _)
        have hbase : sub.stop = t.base := by
          rcases hin.valid.apart hsub ht hne with h1 | h1
          · exact le_antisymm h1 htp.1
          · have h2 := htp.2
            have h3 := hin.valid.base_lt_stop hsub
            omega
        rw [hval] at heq
        exact hmax sub hsub t ht hbase (congrArg PageInfo.protect heq).symm
    · exact pageInfo_ne h hres hnext (congrArg PageInfo.reservation heq)

theorem reserved_uniform (hp : res.Has addr)
    (hnone : findCommitted res.val.committed addr = none) :
    Uniform s ⟨memReserve, pageNoaccess, some res.base⟩ (pageAlign addr)
      (match after (pageAlign addr) res.val.committed with
        | some next => next.base
        | none => res.stop) := by
  have hin := (h.committed res hres).inside
  have hnot := (find_eq_none hin.valid).mp hnone
  have hpage := pageAlign_has (h.aligned res hres).1 hp
  have hbelow : ∀ c ∈ res.val.committed, c.base ≤ pageAlign addr → c.stop ≤ pageAlign addr :=
    fun c hc hb => (hin.aligned c hc).2.le_pageAlign (by
      by_contra hcon
      exact hnot c hc ⟨hb.trans (pageAlign_le addr), by omega⟩)
  have hgap : ∀ {stop p}, pageAlign addr ≤ p → p < stop → stop ≤ res.stop →
      (∀ c ∈ res.val.committed, pageAlign addr < c.base → stop ≤ c.base) →
      pageInfo s p = ⟨memReserve, pageNoaccess, some res.base⟩ := by
    intro stop p h1 h2 h3 hmin
    have hval : valAt res.val.committed p = none := (valAt_eq_none hin.valid).mpr fun c hc hcp => by
      have h4 := hcp.1
      have h5 := hcp.2
      by_cases hb : c.base ≤ pageAlign addr
      · have h6 := hbelow c hc hb
        omega
      · have h6 := hmin c hc (by omega)
        omega
    rw [pageInfo_of_mem h hres ⟨hpage.1.trans h1, by omega⟩, hval]
  have hlimit := h.limit res hres
  cases hafter : after (pageAlign addr) res.val.committed with
  | none =>
    have hlast := after_eq_none hafter
    refine ⟨hpage.2, Nat.le_succ_of_le hlimit, (h.aligned res hres).2, fun p h1 h2 => ?_, fun _ heq => ?_⟩
    · exact hgap h1 h2 le_rfl fun c hc hlt => absurd (hlast c hc) (by omega)
    · exact pageInfo_ne h hres (fun hhas => absurd hhas.2 (lt_irrefl _))
        (congrArg PageInfo.reservation heq)
  | some next =>
    obtain ⟨hmem, hlt, hmin⟩ := after_eq_some hin.valid hafter
    have hw := hin.within next hmem
    have hstop := hin.valid.base_lt_stop hmem
    refine ⟨hlt, show next.base ≤ userAddrLimit + 1 by omega, (hin.aligned next hmem).1,
      fun p h1 h2 => ?_, fun _ heq => ?_⟩
    · exact hgap h1 (show p < next.base from h2) (by omega) hmin
    · rw [pageInfo_of_mem h hres ⟨hw.1, by omega⟩,
        (valAt_eq_some hin.valid).mpr ⟨next, hmem, ⟨le_rfl, hstop⟩, rfl⟩] at heq
      exact absurd (congrArg PageInfo.state heq) (show memCommit ≠ memReserve by decide)

end Reservation

end

theorem distance_of_le {stop start : Nat} (h : start ≤ stop) (hlt : stop < 2 ^ 64) :
    distance stop start = stop - start := by
  unfold distance wrap
  omega

theorem Uniform.distance {s : State} {info : PageInfo} {lo hi : Nat} (h : Uniform s info lo hi) :
    distance hi lo = hi - lo :=
  distance_of_le h.lt.le (lt_of_le_of_lt h.bound (by decide))

theorem Uniform.answer {s : State} {info : PageInfo} {lo hi : Nat} (h : Uniform s info lo hi)
    (hlo : IsPage lo) :
    (0 < UserMem.distance hi lo ∧ IsPage (UserMem.distance hi lo)) ∧ pageInfo s lo = info ∧
      (∀ p, lo ≤ p → p < lo + UserMem.distance hi lo → pageInfo s p = pageInfo s lo) ∧
      (lo + UserMem.distance hi lo ≤ userAddrLimit →
        pageInfo s (lo + UserMem.distance hi lo) ≠ pageInfo s lo) := by
  have hlt := h.lt
  have hinfo := h.alike lo le_rfl hlt
  rw [h.distance, Nat.add_sub_cancel' hlt.le, hinfo]
  exact ⟨⟨by omega, h.page.sub hlo⟩, rfl, h.alike, h.maximal⟩

theorem VadInv.query_spec {s : State} (hvad : VadInv s) {addr : Nat} (haddr : addr ≤ userAddrLimit) :
    ∃ info, query s addr = (.success, info) ∧ info.baseAddress = pageAlign addr ∧
      (∀ res, findReservation s addr = some res → info.allocationBase = res.base ∧
        info.allocationProtect = res.val.initialProt ∧ info.type = res.val.type) ∧
      (findReservation s addr = none →
        info.allocationBase = 0 ∧ info.allocationProtect = 0 ∧ info.type = 0) ∧
      (0 < info.regionSize ∧ IsPage info.regionSize) ∧
      pageInfo s info.baseAddress =
        ⟨info.state, info.protect, (findReservation s addr).map fun _ => info.allocationBase⟩ ∧
      (∀ p, info.baseAddress ≤ p → p < info.baseAddress + info.regionSize →
        pageInfo s p = pageInfo s info.baseAddress) ∧
      (info.baseAddress + info.regionSize ≤ userAddrLimit →
        pageInfo s (info.baseAddress + info.regionSize) ≠ pageInfo s info.baseAddress) := by
  have hpage := isPage_pageAlign addr
  unfold query
  cases hfind : findReservation s addr with
  | none =>
    exact ⟨_, rfl, rfl, by simp, fun _ => ⟨rfl, rfl, rfl⟩,
      (free_uniform hvad haddr hfind).answer hpage⟩
  | some res =>
    obtain ⟨hres, hhas⟩ := hvad.booked.of_find hfind
    cases hsub : findCommitted res.val.committed addr with
    | some sub =>
      obtain ⟨hmem, hs⟩ := (find_eq_some (hvad.committed res hres).inside.valid).mp hsub
      simp only [hsub]
      refine ⟨_, rfl, rfl, fun r hr => ?_, by simp, ?_⟩
      · cases hr
        exact ⟨rfl, rfl, rfl⟩
      · exact (committed_uniform hvad hres hmem hs).answer hpage
    | none =>
      simp only [hsub]
      refine ⟨_, rfl, rfl, fun r hr => ?_, by simp, ?_⟩
      · cases hr
        exact ⟨rfl, rfl, rfl⟩
      · exact (reserved_uniform hvad hres hhas hsub).answer hpage

def middleCommitted : List Request :=
  [.call (.allocate 0 0x3000 memReserve pageReadwrite 0),
    .call (.allocate 0x100001000 0x1000 memCommit pageReadonly 0)]

end Kernemul.UserMem
