import Kernemul.Win.UserMem.Thrown
import Kernemul.Win.UserMem.PageMap
import Kernemul.Emu.Alloc

/-!
# The manager while guest memory lasts, and when it does not

Runs over any mmu. The books stay in order throughout (`run_booked`): a throw leaves them cut and unmerged, and
every later call can go on with that. That no two regions that touch are alike, and that `query` answers the largest
uniform range, is lost with the first call that throws behind a cut, and with no other (`books_wellFormed`,
`query_maximal`).
-/

namespace Kernemul.UserMem.OverMmu

open Segments

variable {M : Type} {calls : MmuCalls M}

/-! ## Runs -/

def Undisturbed (calls : MmuCalls M) (s : Manager M) (call : Call) : Prop :=
  cuts s.books call = true → throws calls s call = false

instance (s : Manager M) (call : Call) : Decidable (Undisturbed calls s call) :=
  inferInstanceAs (Decidable (_ → _))

def UndisturbedRequest (calls : MmuCalls M) (s : Manager M) : Request → Prop
  | .call call => Undisturbed calls s call
  | _ => True

instance (s : Manager M) : DecidablePred (UndisturbedRequest calls s)
  | .call call => inferInstanceAs (Decidable (Undisturbed calls s call))
  | .registerImage .. => .isTrue trivial
  | .registerMapped .. => .isTrue trivial

section Steps
variable {s s' : Manager M}

theorem step_cases {call : Call} (h : step calls s call = some s') :
    perform calls s call = some (true, s') ∨
      (perform calls s call = some (false, s') ∧ throws calls s call = true) := by
  obtain ⟨⟨done, s₁⟩, hp, rfl⟩ := Option.map_eq_some_iff.mp h
  cases done with
  | true => exact Or.inl hp
  | false => exact Or.inr ⟨hp, by rw [throws, hp]; rfl⟩

theorem step_booked {call : Call} (hb : Booked s.books) (hok : (Request.call call).Sound s.books)
    (h : step calls s call = some s') : Booked s'.books := by
  rcases step_cases h with hdone | ⟨hthrew, -⟩
  · obtain ⟨p, hp⟩ := perform_returned hdone
    exact (hb.step hok hp).withPages _
  · exact (perform_thrown hb hok hthrew).booked hb

theorem step_vadInv {call : Call} (hv : VadInv s.books) (hok : call.NonWrapping s.books)
    (hund : Undisturbed calls s call) (h : step calls s call = some s') : VadInv s'.books := by
  rcases step_cases h with hdone | ⟨hthrew, hthrows⟩
  · obtain ⟨p, hp⟩ := perform_returned hdone
    exact (hv.step hok hp).withPages _
  · have hsound : (Request.call call).Sound s.books := Request.NonWrapping.sound hok
    refine (perform_thrown hv.booked hsound hthrew).vadInv hv ?_
    by_contra hcuts
    exact absurd (hthrows.symm.trans (hund (by simpa using hcuts))) (by simp)

theorem serve_booked {request : Request} (hb : Booked s.books) (hok : request.Sound s.books)
    (h : serve calls s request = some s') : Booked s'.books := by
  cases request with
  | call call => exact step_booked hb hok h
  | registerImage base size =>
    cases h
    exact hb.register hok pageExecuteReadwrite memImage
  | registerMapped base size prot =>
    cases h
    exact hb.register hok prot memMapped

theorem serve_vadInv {request : Request} (hv : VadInv s.books) (hok : request.NonWrapping s.books)
    (hund : UndisturbedRequest calls s request) (h : serve calls s request = some s') :
    VadInv s'.books := by
  cases request with
  | call call => exact step_vadInv hv hok hund h
  | registerImage base size =>
    cases h
    exact hv.register hok pageExecuteReadwrite memImage
  | registerMapped base size prot =>
    cases h
    exact hv.register hok prot memMapped

end Steps

abbrev LastingCalls (calls : MmuCalls M) (m : M) : List Call → Manager M → Prop :=
  Run.Steps (step calls) (fun s call => call.Bounded ∧ Undisturbed calls s call) (Manager.init m)

/-- A run of requests in which nothing wraps and no call throws behind a cut. -/
abbrev LastingRun (calls : MmuCalls M) (m : M) : List Request → Manager M → Prop :=
  Run.Steps (serve calls) (fun s request => request.NonWrapping s.books ∧ UndisturbedRequest calls s request)
    (Manager.init m)

abbrev SoundRun (calls : MmuCalls M) (m : M) : List Request → Manager M → Prop :=
  Run.Steps (serve calls) (fun s request => request.Sound s.books) (Manager.init m)

theorem run_vadInv {m : M} {cs : List Call} {s : Manager M} (h : LastingCalls calls m cs s) :
    VadInv s.books :=
  h.invariant (P := fun s => VadInv s.books)
    (fun _ _ _ hv hok hstep => step_vadInv hv (hok.1.nonWrapping hv.booked) hok.2 hstep) (init_vadInv 0)

theorem lastingRun_vadInv {m : M} {requests : List Request} {s : Manager M}
    (h : LastingRun calls m requests s) : VadInv s.books :=
  h.invariant (P := fun s => VadInv s.books)
    (fun _ _ _ hv hok hstep => serve_vadInv hv hok.1 hok.2 hstep) (init_vadInv 0)

theorem run_booked {m : M} {requests : List Request} {s : Manager M} (h : SoundRun calls m requests s) :
    Booked s.books :=
  h.invariant (P := fun s => Booked s.books) (fun _ _ _ hb hok hstep => serve_booked hb hok hstep)
    (init_booked 0)

/-! ## The x86 mmu -/

/-- The x86 mmu through one space. A mapping has come to its end when all its pages are mapped. -/
def x86Calls (root : Nat) : MmuCalls X86.Mmu where
  mapVirt m va size prot :=
    let r := m.mapVirt root va size prot
    (r.1, r.2 = X86.pages size)
  mapVirtPhys m va pa size prot :=
    let r := m.mapVirtPhys root va pa size prot
    (r.1, r.2 = X86.pages size)
  unmapVirt m va size := m.unmapVirt root va size
  protVirt m va size prot := m.protVirt root va size prot
  virtToPhys m page := m.virtToPhys root page

def plainCheck (s : Manager M) (request : Request) : Bool := decide (request.NonWrapping s.books)

abbrev x86Serve : Manager X86.Mmu → Request → Option (Manager X86.Mmu) := serve (x86Calls X86.physBase)

abbrev x86Manager : Manager X86.Mmu := Manager.init X86.firstSpace

/-! ## Well-formed books -/

/-- **The books after a run.** Reservations and, inside each, committed regions are page aligned, non-empty and
pairwise disjoint; reservations end below the user limit, regions lie inside their reservation, and two regions
that touch differ in protection. -/
theorem books_wellFormed {m : M} {cs : List Call} {s : Manager M} (h : LastingCalls calls m cs s) :
    (∀ r ∈ s.reservations, IsPage r.base ∧ IsPage r.size ∧ 0 < r.size ∧
      r.base + r.size ≤ userAddrLimit) ∧
    s.reservations.Pairwise (fun r t => r.base + r.size ≤ t.base) ∧
    ∀ r ∈ s.reservations,
      (∀ c ∈ r.val.committed, IsPage c.base ∧ IsPage c.size ∧ 0 < c.size ∧
        r.base ≤ c.base ∧ c.base + c.size ≤ r.base + r.size) ∧
      r.val.committed.Pairwise (fun c d => c.base + c.size ≤ d.base) ∧
      ∀ c ∈ r.val.committed, ∀ d ∈ r.val.committed, c.base + c.size = d.base → c.val ≠ d.val :=
  (run_vadInv h).wellFormed

/-- A bounded call that does not throw behind a cut, as a check on each call of an execution. -/
def lastingCheck (s : Manager X86.Mmu) (call : Call) : Bool :=
  decide (call.Bounded ∧ Undisturbed (x86Calls X86.physBase) s call)

theorem guardExcursion_books : ∃ s, LastingCalls (x86Calls X86.physBase) X86.firstSpace guardExcursion s ∧
    (s.reservations.map fun r => (r.base, r.size, r.val.committed)) =
      [(0x100000000, 0x3000, [⟨0x100000000, 0x3000, pageReadwrite⟩])] ∧
    ∀ r ∈ s.reservations, IsPage r.base ∧ IsPage r.size ∧ 0 < r.size ∧
      r.base + r.size ≤ userAddrLimit := by
  have hexec : ((Run.exec (step (x86Calls X86.physBase)) lastingCheck x86Manager guardExcursion).map fun s =>
      s.reservations.map fun r => (r.base, r.size, r.val.committed)) =
      some [(0x100000000, 0x3000, [⟨0x100000000, 0x3000, pageReadwrite⟩])] := by decide +kernel
  obtain ⟨s, hs, hval⟩ := Option.map_eq_some_iff.mp hexec
  have hrun : LastingCalls (x86Calls X86.physBase) X86.firstSpace guardExcursion s :=
    .of_exec (fun _ _ => of_decide_eq_true) hs
  exact ⟨s, hrun, hval, (books_wellFormed hrun).1⟩

/-- A commit of inaccessible pages, more than there is guest memory, and a `protect` that makes all but the last
one accessible. -/
def pastGuestMemory : List Call :=
  [.allocate 0 0x100002000 (memCommit ||| memReserve) pageNoaccess 0,
    .protect 0x100000000 0x100001000 pageReadwrite]

/-- `protect` throws behind its cut, and two regions of one protection touch. -/
theorem protect_throws_unmerged :
    ¬ ∀ cs s, Run.Steps (step (x86Calls X86.physBase)) (fun _ call => call.Bounded) x86Manager cs s →
      ∀ r ∈ s.reservations, ∀ c ∈ r.val.committed, ∀ d ∈ r.val.committed,
        c.base + c.size = d.base → c.val ≠ d.val := by
  intro hclaim
  have hexec : ((Run.exec (step (x86Calls X86.physBase)) (fun _ call => decide call.Bounded) x86Manager
      pastGuestMemory).map fun s => s.reservations.map fun r => r.val.committed) =
      some [[⟨0x100000000, 0x100001000, pageNoaccess⟩, ⟨0x200001000, 0x1000, pageNoaccess⟩]] := by
    decide +kernel
  obtain ⟨s, hs, hval⟩ := Option.map_eq_some_iff.mp hexec
  have hrun := hclaim _ s (.of_exec (fun _ _ => of_decide_eq_true) hs)
  obtain ⟨r, hr, hc⟩ := List.mem_map.mp (hval ▸ List.mem_singleton_self _)
  have hmerged := hrun r hr
  rw [hc] at hmerged
  exact hmerged _ List.mem_cons_self _ (List.mem_cons_of_mem _ (List.mem_singleton_self _)) rfl rfl

/-! ## `query` -/

/-- **`query` answers the largest uniform range.** -/
theorem query_maximal {m : M} {requests : List Request} {s : Manager M} (h : LastingRun calls m requests s)
    {addr : Nat} (haddr : addr ≤ userAddrLimit) :
    ∃ info, query s addr = (.success, info) ∧ info.baseAddress = pageAlign addr ∧
      (∀ res, findReservation s.books addr = some res → info.allocationBase = res.base ∧
        info.allocationProtect = res.val.initialProt ∧ info.type = res.val.type) ∧
      (findReservation s.books addr = none →
        info.allocationBase = 0 ∧ info.allocationProtect = 0 ∧ info.type = 0) ∧
      (0 < info.regionSize ∧ IsPage info.regionSize) ∧
      pageInfo s.books info.baseAddress =
        ⟨info.state, info.protect, (findReservation s.books addr).map fun _ => info.allocationBase⟩ ∧
      (∀ p, info.baseAddress ≤ p → p < info.baseAddress + info.regionSize →
        pageInfo s.books p = pageInfo s.books info.baseAddress) ∧
      (info.baseAddress + info.regionSize ≤ userAddrLimit →
        pageInfo s.books (info.baseAddress + info.regionSize) ≠ pageInfo s.books info.baseAddress) :=
  (lastingRun_vadInv h).query_spec haddr

/-- A request in which nothing wraps and that does not throw behind a cut, as a check. -/
def lastingRequest (s : Manager X86.Mmu) (request : Request) : Bool :=
  decide (request.NonWrapping s.books ∧ UndisturbedRequest (x86Calls X86.physBase) s request)

theorem query_maximal_middle : ∃ s, LastingRun (x86Calls X86.physBase) X86.firstSpace middleCommitted s ∧
    ((query s 0x100001008).2.baseAddress = 0x100001000 ∧ (query s 0x100001008).2.regionSize = 0x1000 ∧
      (query s 0x100001008).2.protect = pageReadonly) ∧
    ∃ info, query s 0x100001008 = (.success, info) ∧ info.baseAddress = pageAlign 0x100001008 := by
  have hexec : ((Run.exec x86Serve lastingRequest x86Manager middleCommitted).map fun s =>
      ((query s 0x100001008).2.baseAddress, (query s 0x100001008).2.regionSize,
        (query s 0x100001008).2.protect)) = some (0x100001000, 0x1000, pageReadonly) := by
    decide +kernel
  obtain ⟨s, hs, hval⟩ := Option.map_eq_some_iff.mp hexec
  simp only [Prod.mk.injEq] at hval
  have hrun : LastingRun (x86Calls X86.physBase) X86.firstSpace middleCommitted s :=
    .of_exec (fun _ _ => of_decide_eq_true) hs
  obtain ⟨info, hquery, hbase, -⟩ := query_maximal hrun (show 0x100001008 ≤ userAddrLimit by decide)
  exact ⟨s, hrun, hval, info, hquery, hbase⟩

/-- After `protect` has thrown, `query` stops at the cut although the page behind it is alike. -/
theorem query_throws_short :
    ¬ ∀ requests s, Run.Steps x86Serve (fun s request => request.NonWrapping s.books) x86Manager requests s →
      ∀ addr ≤ userAddrLimit,
        (query s addr).2.baseAddress + (query s addr).2.regionSize ≤ userAddrLimit →
          pageInfo s.books ((query s addr).2.baseAddress + (query s addr).2.regionSize) ≠
            pageInfo s.books (query s addr).2.baseAddress := by
  intro hclaim
  have hexec : ((Run.exec x86Serve plainCheck x86Manager (pastGuestMemory.map .call)).map fun s =>
      ((query s 0x100000000).2.baseAddress, (query s 0x100000000).2.regionSize,
        pageInfo s.books 0x100000000, pageInfo s.books 0x200001000)) =
      some (0x100000000, 0x100001000, ⟨memCommit, pageNoaccess, some 0x100000000⟩,
        ⟨memCommit, pageNoaccess, some 0x100000000⟩) := by decide +kernel
  obtain ⟨s, hs, hval⟩ := Option.map_eq_some_iff.mp hexec
  simp only [Prod.mk.injEq] at hval
  obtain ⟨hbase, hsize, hfirst, hnext⟩ := hval
  have hshort := hclaim _ s (.of_exec (fun _ _ => of_decide_eq_true) hs) 0x100000000 (by decide)
  rw [hbase, hsize] at hshort
  exact hshort (by decide) (hnext.trans hfirst.symm)

/-! ## `protect` -/

def MapThrows (calls : MmuCalls M) (prot : MemProt) : Prop :=
  ∃ u va size, (calls.mapVirt u va size prot).2 = false ∨
    ∃ pa, (calls.mapVirtPhys u va pa size prot).2 = false

theorem mapEach_threw {prot : MemProt} :
    ∀ {n page : Nat} {m : Memory M}, (mapEach calls prot n page m).2 = false → MapThrows calls prot := by
  intro n
  induction n with
  | zero => exact fun h => (by cases h)
  | succ n ih =>
    intro page m h
    unfold mapEach at h
    split at h
    · split at h
      · rename_i hmap
        exact ⟨_, _, _, Or.inl (congrArg Prod.snd hmap)⟩
      · exact ih h
    · split at h
      · rename_i hmap
        exact ⟨_, _, _, Or.inr ⟨_, congrArg Prod.snd hmap⟩⟩
      · exact ih h

theorem mapPages_threw {m : Memory M} {base size : Nat} {prot : Prot}
    (h : (mapPages calls m base size prot).2 = false) : MapThrows calls (toMemProt prot) := by
  unfold mapPages at h
  simp only at h
  split at h
  · exact mapEach_threw h
  · exact ⟨_, _, _, Or.inl h⟩

theorem protect_of_reserved {s : Manager M} {base size : Nat} {newProt : Prot} {res : Seg Reservation}
    (hfind : findReservation s.books (pageAlign base) = some res)
    (hnone : findCommitted res.val.committed (pageAlign base) = none) :
    protect calls s base size newProt =
      (some (⟨.success, pageAlign base, regionOf base size⟩, res.val.initialProt), s) := by
  unfold protect
  simp only [hfind, hnone]
  rfl

theorem findCommitted_none_of_reserved {b : State} (h : Booked b) {res : Seg Reservation}
    (hres : res ∈ b.reservations) {p : Nat} (hp : res.Has p) {old : Prot}
    (hold : absAt b p = .reserved old) : findCommitted res.val.committed p = none := by
  rw [absAt_of_mem h.valid hres hp, valAt] at hold
  cases hf : find res.val.committed p with
  | none => exact hf
  | some sub =>
    rw [hf] at hold
    cases hold

/-- **What `protect` does to a range that starts in a reservation.** It answers nothing only when the new
protection makes a committed page of the range accessible and a mapping throws. Otherwise it answers success with
the whole pages of the range and changes nothing outside them. When the first page is committed, it answers that
page's protection, and the committed pages of the range in the reservation get the new one; when it is only
reserved, it answers the reservation's protection and nothing changes. -/
theorem protect_updates {m : M} {requests : List Request} {s : Manager M} (h : SoundRun calls m requests s)
    {base size : Nat} (hfits : Fits base size) (newProt : Prot) {res : Seg Reservation}
    (hfind : findReservation s.books (pageAlign base) = some res) :
    (∀ s', protect calls s base size newProt = (none, s') →
      MapThrows calls (toMemProt newProt) ∧ isResident newProt = true ∧
        ∃ p prot, (pageAlign base ≤ p ∧ p < pageAlign base + regionOf base size) ∧
          absAt s.books p = .committed prot ∧ isResident prot = false) ∧
    ∀ ret old s', protect calls s base size newProt = (some (ret, old), s') → ret.status = .success ∧
      (IsPage ret.base ∧ IsPage ret.size ∧ ret.base ≤ base ∧ base + size ≤ ret.base + ret.size) ∧
      (∀ p, ¬ ret.Has p → absAt s'.books p = absAt s.books p) ∧
      (absAt s.books ret.base = .committed old ∧
          (∀ p, ret.Has p → res.Has p → ∀ prot, absAt s.books p = .committed prot →
            absAt s'.books p = .committed newProt) ∧
          (∀ p, (∀ prot, absAt s.books p ≠ .committed prot) → absAt s'.books p = absAt s.books p) ∨
        absAt s.books ret.base = .reserved old ∧ s' = s) := by
  have hbooked := run_booked h
  constructor
  · intro s' ht
    obtain ⟨res', w, ⟨hmem, hfind'⟩, -, -, -, hnow, it, hit, hwas, m₁, hmap⟩ := protect_threw hbooked ht
    obtain ⟨hin, hrange⟩ := (hbooked.inside res' hmem).part (isPage_pageAlign base)
      ((isPage_pageAlign base).add (isPage_regionOf base size))
    have hpos := hin.valid.base_lt_stop hit
    have hwi := hin.within it hit
    have hres := hrange it hit
    refine ⟨mapPages_threw hmap, hnow, it.base, it.val, ⟨hwi.1, by omega⟩, ?_, hwas⟩
    rw [absAt_of_mem hbooked.valid hmem ⟨hres.1, by omega⟩,
      ← valAt_part (hbooked.inside res' hmem).valid (Nat.le_add_right (pageAlign base) (regionOf base size))
        hwi.1 (by omega),
      (valAt_eq_some hin.valid).mpr ⟨it, hit, ⟨le_rfl, hpos⟩, rfl⟩]
    rfl
  · intro ret old s' heq
    obtain ⟨p, hp, -⟩ := follows_true.protect (p := s.books.pages) trivial heq
    change UserMem.protect s.books base size newProt = _ at hp
    obtain ⟨hstatus, hrange, hout, hcases⟩ := hbooked.protect_spec hfits hfind hp
    have habs : ∀ q, absAt s'.books q = absAt { s'.books with pages := p } q := absAt_congr rfl
    refine ⟨hstatus, hrange, fun q hq => (habs q).trans (hout q hq), ?_⟩
    rcases hcases with ⟨hold, hin, hkept⟩ | ⟨hold, hsame⟩
    · exact Or.inl ⟨hold, fun q h1 h2 prot h3 => (habs q).trans (hin q h1 h2 prot h3),
        fun q hq => (habs q).trans (hkept q hq)⟩
    · refine Or.inr ⟨hold, ?_⟩
      have hret : ret = ⟨.success, pageAlign base, regionOf base size⟩ := by
        rw [← protect_ret s.books base size newProt, hp]
      rw [hret] at hold
      obtain ⟨hmem, hhas⟩ := hbooked.of_find hfind
      rw [protect_of_reserved hfind (findCommitted_none_of_reserved hbooked hmem hhas hold)] at heq
      exact (Prod.mk.inj heq).2.symm

def firstCommitted : List Request :=
  [.call (.allocate 0 0x3000 memReserve pageReadwrite 0),
    .call (.allocate 0x100000000 0x1000 memCommit pageReadwrite 0)]

theorem protect_updates_first : ∃ s res ret old s',
    SoundRun (x86Calls X86.physBase) X86.firstSpace firstCommitted s ∧
    findReservation s.books 0x100000000 = some res ∧
    protect (x86Calls X86.physBase) s 0x100000010 0x10 pageReadonly = (some (ret, old), s') ∧
    ret.status = .success ∧ (IsPage ret.base ∧ IsPage ret.size ∧ ret.base ≤ 0x100000010 ∧
      0x100000010 + 0x10 ≤ ret.base + ret.size) := by
  have hexec : ((Run.exec x86Serve plainCheck x86Manager firstCommitted).bind fun s =>
      (findReservation s.books 0x100000000).bind fun res =>
        (protect (x86Calls X86.physBase) s 0x100000010 0x10 pageReadonly).1).isSome = true := by decide +kernel
  obtain ⟨⟨ret, old⟩, hret⟩ := Option.isSome_iff_exists.mp hexec
  obtain ⟨s, hs, hrest⟩ := Option.bind_eq_some_iff.mp hret
  obtain ⟨res, hfind, hanswer⟩ := Option.bind_eq_some_iff.mp hrest
  have hrun : SoundRun (x86Calls X86.physBase) X86.firstSpace firstCommitted s :=
    .of_exec (fun _ _ hc => (of_decide_eq_true hc).sound) hs
  have heq : protect (x86Calls X86.physBase) s 0x100000010 0x10 pageReadonly = (some (ret, old), _) :=
    Prod.ext hanswer rfl
  obtain ⟨hstatus, hrange, -⟩ :=
    (protect_updates hrun (show Fits 0x100000010 0x10 by decide) pageReadonly hfind).2 ret old _ heq
  exact ⟨s, res, ret, old, _, hrun, hfind, heq, hstatus, hrange⟩

/-- `protect` answers success for a page that is only reserved. -/
theorem protect_reserved_succeeds : ∃ s old s',
    SoundRun (x86Calls X86.physBase) X86.firstSpace [.call (.allocate 0 0x1000 memReserve pageReadwrite 0)] s ∧
    protect (x86Calls X86.physBase) s 0x100000000 0x1000 pageReadonly =
      (some (⟨.success, 0x100000000, 0x1000⟩, old), s') ∧
    absAt s.books 0x100000000 = .reserved pageReadwrite ∧
    absAt s'.books 0x100000000 = .reserved pageReadwrite := by
  have hexec : ((Run.exec x86Serve plainCheck x86Manager
      [.call (.allocate 0 0x1000 memReserve pageReadwrite 0)]).map fun s =>
      ((protect (x86Calls X86.physBase) s 0x100000000 0x1000 pageReadonly).1, absAt s.books 0x100000000,
        absAt (protect (x86Calls X86.physBase) s 0x100000000 0x1000 pageReadonly).2.books 0x100000000)) =
      some (some (⟨.success, 0x100000000, 0x1000⟩, pageReadwrite), .reserved pageReadwrite,
        .reserved pageReadwrite) := by decide +kernel
  obtain ⟨s, hs, hval⟩ := Option.map_eq_some_iff.mp hexec
  simp only [Prod.mk.injEq] at hval
  obtain ⟨hanswer, hbefore, hafter⟩ := hval
  exact ⟨s, pageReadwrite, _, .of_exec (fun _ _ hc => (of_decide_eq_true hc).sound) hs,
    Prod.ext hanswer rfl, hbefore, hafter⟩

end Kernemul.UserMem.OverMmu
