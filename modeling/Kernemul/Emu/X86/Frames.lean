import Kernemul.Emu.X86.Translate

/-!
# What the frame allocator hands out

Every call on the mmu comes down to uses of `alloc_phys_locked`: `alloc_phys` itself, the block of a
`map_virt`, and the tables `ensure_table` and `create_addr_space` are short of. The log of a run has the
answer to each use, in order.

`size_align` adds before it masks, so the last `0xFFF` sizes of 64 bits come out as zero: such a request
is granted, without a byte to it, and the next one gets the same address.
-/

namespace Kernemul.X86

inductive Request
  | phys (size : Nat)
  | block (size : Nat)
  | table
  deriving DecidableEq, Repr

def Request.asked : Request → Nat
  | .phys size => size
  | .block size => size
  | .table => pageSize

/-- What `alloc_phys_locked` is called with: `map_virt` has rounded its size up. -/
def Request.passed : Request → Nat
  | .phys size => size
  | .block size => sizeAlign size
  | .table => pageSize

/-- What became of a request: where its range starts, unless the allocator threw, and `phys_next_` before
and after. -/
structure Answer where
  asked : Nat
  size : Nat
  start : Option Nat
  before : Nat
  after : Nat
  deriving DecidableEq, Repr

def Mmu.answer (m : Mmu) (r : Request) : Answer where
  asked := r.asked
  size := sizeAlign r.passed
  start := (m.allocPhys r.passed).map Prod.fst
  before := m.physNext
  after := ((m.allocPhys r.passed).map fun x => x.2.physNext).getD m.physNext

/-- The byte at `x` is in the range handed out. -/
def Answer.Holds (a : Answer) (x : Nat) : Prop := ∃ s, a.start = some s ∧ s ≤ x ∧ x < s + a.size

/-! ## The uses a call makes -/

def Mmu.tableAnswers (m : Mmu) (table index : Nat) : List Answer :=
  if (m.mem table index).present then [] else [m.answer .table]

def Mmu.pathAnswers (m : Mmu) (root va : Nat) (user : Bool) : List Answer :=
  m.tableAnswers root (pml4Index va) ++
    match m.ensureTable root (pml4Index va) user with
    | (_, none) => []
    | (m, some pdpt) => m.tableAnswers pdpt (pdptIndex va) ++
      match m.ensureTable pdpt (pdptIndex va) user with
      | (_, none) => []
      | (m, some pd) => m.tableAnswers pd (pdIndex va)

def mapLoopAnswers (root start pa : Nat) (prot : MemProt) : Nat → Nat → Mmu → List Answer
  | 0, _, _ => []
  | n + 1, k, m => m.pathAnswers root (pageAlign (pageOf start k)) (!prot.supervisor) ++
    match m.mapPage root (pageOf start k) (pageOf pa k) prot with
    | (_, false) => []
    | (m, true) => mapLoopAnswers root start pa prot n (k + 1) m

def Mmu.mapVirtAnswers (m : Mmu) (root va size : Nat) (prot : MemProt) : List Answer :=
  m.answer (.block size) ::
    match m.allocPhys (sizeAlign size) with
    | none => []
    | some (pa, m) => mapLoopAnswers root (pageAlign va) pa prot (pages size) 0 m

def Mmu.answers (m : Mmu) : Call → List Answer
  | .createAddrSpace => [m.answer .table]
  | .allocPhys size => [m.answer (.phys size)]
  | .mapVirt root va size prot => m.mapVirtAnswers root va size prot
  | .mapVirtPhys root va pa size prot =>
    mapLoopAnswers root (pageAlign va) (pageAlign pa) prot (pages size) 0 m
  | .alloc root size prot =>
    match m.spaces root with
    | none => []
    | some s => (m.moved root size prot).mapVirtAnswers root (s.cursor prot) (sizeAlign size) prot
  | .mapPhys root pa size prot =>
    match m.spaces root with
    | none => []
    | some s => mapLoopAnswers root (pageAlign (s.cursor prot)) (pageAlign pa) prot
        (pages (sizeAlign size)) 0 (m.moved root size prot)
  | .unmapVirt .. => []
  | .protVirt .. => []

def stepLogged (s : Mmu × List Answer) (call : Call) : Option (Mmu × List Answer) :=
  (step s.1 call).map fun m => (m, s.2 ++ s.1.answers call)

/-! ## What is asked of the log -/

structure Answer.Fair (a : Answer) : Prop where
  aligned : ∀ s, a.start = some s → IsPage s
  enough : ∀ s, a.start = some s → a.asked ≤ a.size
  inside : ∀ s, a.start = some s → physBase ≤ s ∧ s + a.size ≤ physEnd
  refused : physEnd - a.before < a.asked → a.start = none
  unchanged : a.start = none → a.after = a.before

structure FramesOnce (log : List Answer) : Prop where
  fair : ∀ a ∈ log, a.Fair
  disjoint : log.Pairwise fun a b => ∀ x, a.Holds x → ¬ b.Holds x

def Call.asks : Call → Option Nat
  | .allocPhys size => some size
  | .mapVirt _ _ size _ => some size
  | _ => none

/-- The size is a `std::size_t`. -/
def Sized (_ : Mmu × List Answer) (call : Call) : Prop := ∀ n ∈ call.asks, n < 2 ^ 64

instance (s : Mmu × List Answer) (call : Call) : Decidable (Sized s call) :=
  inferInstanceAs (Decidable (∀ n ∈ call.asks, n < 2 ^ 64))

def Call.Fits (call : Call) : Prop := ∀ n ∈ call.asks, n ≤ 2 ^ 64 - pageSize

instance (call : Call) : Decidable call.Fits :=
  inferInstanceAs (Decidable (∀ n ∈ call.asks, n ≤ 2 ^ 64 - pageSize))

/-! ## One use -/

/-- `phys_next_` is a page of guest memory, or its end. -/
structure CursorOk (next : Nat) : Prop where
  page : IsPage next
  base : physBase ≤ next
  bound : next ≤ physEnd

/-- A use that throws leaves the cursor; one that does not answers the cursor and moves it past the range. -/
theorem answer_cases (m : Mmu) (r : Request) :
    (physEnd - m.physNext < sizeAlign r.passed ∧ (m.answer r).start = none ∧
        (m.answer r).after = m.physNext) ∨
      (sizeAlign r.passed ≤ physEnd - m.physNext ∧ (m.answer r).start = some m.physNext ∧
        (m.answer r).after = m.physNext + sizeAlign r.passed) := by
  unfold Mmu.answer Mmu.allocPhys
  simp only
  split
  · rename_i h
    exact Or.inl ⟨h, rfl, rfl⟩
  · rename_i h
    exact Or.inr ⟨Nat.le_of_not_lt h, rfl, rfl⟩

variable {r : Request}

theorem answer_after_of_none {m : Mmu} (h : m.allocPhys r.passed = none) :
    (m.answer r).after = m.physNext := by
  unfold Mmu.answer
  rw [h]
  rfl

theorem answer_after_of_some {m m' : Mmu} {pa : Nat} (h : m.allocPhys r.passed = some (pa, m')) :
    (m.answer r).after = m'.physNext := by
  unfold Mmu.answer
  rw [h]
  rfl

theorem sizeAlign_passed (r : Request) : sizeAlign r.passed = sizeAlign r.asked := by
  cases r with
  | phys size => rfl
  | block size => exact sizeAlign_idem size
  | table => rfl

theorem CursorOk.answer {m : Mmu} (h : CursorOk m.physNext) (r : Request) :
    m.physNext ≤ (m.answer r).after ∧ CursorOk (m.answer r).after := by
  have hpage := isPage_sizeAlign r.passed
  rcases answer_cases m r with ⟨-, -, he⟩ | ⟨hroom, -, he⟩
  · rw [he]
    exact ⟨Nat.le_refl _, h⟩
  · have hb := h.base
    have hle := h.bound
    rw [he]
    exact ⟨Nat.le_add_right _ _, h.page.add hpage, by omega, by omega⟩

theorem sizeAlign_wrapped {n : Nat} (hlt : n < 2 ^ 64) (h : ¬ n ≤ 2 ^ 64 - pageSize) : sizeAlign n = 0 := by
  unfold sizeAlign pageAlign wrap pageSize at *
  omega

theorem answer_fair {m : Mmu} (h : CursorOk m.physNext) (hr : r.asked ≤ 2 ^ 64 - pageSize) :
    (m.answer r).Fair := by
  have hspec := sizeAlign_spec (n := r.asked) (by unfold pageSize at *; omega)
  have hb := h.base
  have hle := h.bound
  have hsize : (m.answer r).size = sizeAlign r.asked := sizeAlign_passed r
  have hasked : (m.answer r).asked = r.asked := rfl
  have hbefore : (m.answer r).before = m.physNext := rfl
  rcases answer_cases m r with ⟨hroom, hs, ha⟩ | ⟨hroom, hs, ha⟩
  · refine ⟨?_, ?_, ?_, fun _ => hs, fun _ => ha⟩ <;>
    · intro s he
      rw [hs] at he
      cases he
  · rw [sizeAlign_passed] at hroom
    refine ⟨fun s he => ?_, fun s he => ?_, fun s he => ?_, fun hfull => ?_, fun hn => ?_⟩
    · obtain rfl := Option.some.inj (hs.symm.trans he)
      exact h.page
    · omega
    · obtain rfl := Option.some.inj (hs.symm.trans he)
      omega
    · omega
    · rw [hs] at hn
      cases hn

theorem not_fair_of_wrapped {m : Mmu} (hlt : r.asked < 2 ^ 64)
    (h : ¬ r.asked ≤ 2 ^ 64 - pageSize) : ¬ (m.answer r).Fair := by
  intro hf
  have hzero : sizeAlign r.passed = 0 := by rw [sizeAlign_passed, sizeAlign_wrapped hlt h]
  rcases answer_cases m r with ⟨hroom, -, -⟩ | ⟨-, hs, -⟩
  · omega
  · have henough : r.asked ≤ sizeAlign r.passed := hf.enough _ hs
    unfold pageSize at h
    omega

/-! ## The uses of a call are the moves of the cursor -/

/-- The answers are those of the allocator to requests that satisfy `P`, one after the other, and lead the
cursor from the first value to the last. -/
inductive Chain (P : Request → Prop) : Nat → List Answer → Nat → Prop
  | nil (next : Nat) : Chain P next [] next
  | cons (m : Mmu) {r : Request} {as : List Answer} {next : Nat} (hr : P r)
      (rest : Chain P (m.answer r).after as next) : Chain P m.physNext (m.answer r :: as) next

section

variable {P : Request → Prop} {m : Mmu}

theorem Chain.append {as bs : List Answer} {n n₁ n₂ : Nat} (h : Chain P n as n₁) (h' : Chain P n₁ bs n₂) :
    Chain P n (as ++ bs) n₂ := by
  induction h with
  | nil => exact h'
  | cons m hr _ ih => exact .cons m hr (ih h')

theorem Chain.one {r : Request} (hr : P r) : Chain P m.physNext [m.answer r] (m.answer r).after :=
  .cons m hr (.nil _)

variable (hP : P .table)
include hP

theorem ensureTable_chain (table index : Nat) (user : Bool) :
    Chain P m.physNext (m.tableAnswers table index) (m.ensureTable table index user).1.physNext := by
  unfold Mmu.tableAnswers Mmu.ensureTable
  simp only
  split
  · split
    · exact .nil _
    · exact .nil _
  · have hone : Chain P m.physNext [m.answer .table] _ := .one hP
    cases ha : m.allocPhys pageSize with
    | none => rwa [answer_after_of_none (r := .table) ha] at hone
    | some x => rwa [answer_after_of_some (r := .table) ha] at hone

theorem ensurePath_chain (root va : Nat) (user : Bool) :
    Chain P m.physNext (m.pathAnswers root va user) (m.ensurePath root va user).1.physNext := by
  unfold Mmu.pathAnswers Mmu.ensurePath
  have h1 := ensureTable_chain (m := m) hP root (pml4Index va) user
  rcases he1 : m.ensureTable root (pml4Index va) user with ⟨m₁, _ | pdpt⟩
  · rw [he1] at h1
    exact h1.append (.nil _)
  · rw [he1] at h1
    refine h1.append ?_
    have h2 := ensureTable_chain (m := m₁) hP pdpt (pdptIndex va) user
    simp only
    rcases he2 : m₁.ensureTable pdpt (pdptIndex va) user with ⟨m₂, _ | pd⟩
    · rw [he2] at h2
      exact h2.append (.nil _)
    · rw [he2] at h2
      exact h2.append (ensureTable_chain hP pd (pdIndex va) user)

theorem mapPage_chain (root va pa : Nat) (prot : MemProt) :
    Chain P m.physNext (m.pathAnswers root (pageAlign va) (!prot.supervisor))
      (m.mapPage root va pa prot).1.physNext := by
  have h := ensurePath_chain (m := m) hP root (pageAlign va) (!prot.supervisor)
  unfold Mmu.mapPage
  simp only
  rcases he : m.ensurePath root (pageAlign va) (!prot.supervisor) with ⟨m₁, _ | pt⟩
  · rw [he] at h
    exact h
  · rw [he] at h
    exact h

theorem mapLoop_chain (root start pa : Nat) (prot : MemProt) : ∀ n k (m : Mmu),
    Chain P m.physNext (mapLoopAnswers root start pa prot n k m)
      (mapLoop root start pa prot n k m).1.physNext := by
  intro n
  induction n with
  | zero =>
    intro k m
    exact .nil _
  | succ n ih =>
    intro k m
    have h := mapPage_chain (m := m) hP root (pageOf start k) (pageOf pa k) prot
    rw [mapLoopAnswers, mapLoop]
    rcases he : m.mapPage root (pageOf start k) (pageOf pa k) prot with ⟨m₁, _ | _⟩
    · rw [he] at h
      exact h.append (.nil _)
    · rw [he] at h
      exact h.append (ih (k + 1) m₁)

theorem mapVirt_chain {size : Nat} (hsize : P (.block size)) (root va : Nat) (prot : MemProt) :
    Chain P m.physNext (m.mapVirtAnswers root va size prot) (m.mapVirt root va size prot).1.physNext := by
  unfold Mmu.mapVirtAnswers Mmu.mapVirt
  refine .cons m hsize ?_
  cases ha : m.allocPhys (sizeAlign size) with
  | none =>
    rw [answer_after_of_none (r := .block size) ha]
    exact .nil _
  | some x =>
    rw [answer_after_of_some (r := .block size) ha]
    exact mapLoop_chain hP root (pageAlign va) x.1 prot (pages size) 0 x.2

end

/-- The requests a call may make: tables, and what its caller asks for, which for `addr_space::alloc` is
rounded up. -/
def Call.Makes (call : Call) (r : Request) : Prop :=
  r = .table ∨ r.asked ∈ call.asks ∨ ∃ n, r = .block (sizeAlign n)

theorem Call.makes_table (call : Call) : call.Makes .table := Or.inl rfl

theorem Call.makes_asked {call : Call} (h : call.asks = some r.asked) : call.Makes r :=
  Or.inr (Or.inl h)

theorem unmapPage_physNext (m : Mmu) (root va : Nat) : (m.unmapPage root va).physNext = m.physNext := by
  unfold Mmu.unmapPage
  simp only
  split
  · rfl
  · rfl

theorem protPage_physNext (m : Mmu) (root v : Nat) (prot : MemProt) :
    (m.protPage root v prot).physNext = m.physNext := by
  unfold Mmu.protPage
  split
  · rfl
  · simp only
    split
    · rfl
    · rfl

theorem createAddrSpace_physNext (m : Mmu) :
    ((m.createAddrSpace.map Prod.snd).getD m).physNext = (m.answer .table).after := by
  unfold Mmu.createAddrSpace
  cases ha : m.allocPhys pageSize with
  | none => exact (answer_after_of_none (r := .table) ha).symm
  | some x =>
    rw [answer_after_of_some (r := .table) ha]
    simp only [Option.map_some, Option.getD_some]
    split
    · rfl
    · rfl

theorem perform_chain (m : Mmu) (call : Call) :
    Chain call.Makes m.physNext (m.answers call) (perform m call).physNext := by
  have htable := call.makes_table
  cases call with
  | createAddrSpace =>
    show Chain _ m.physNext [m.answer .table] ((m.createAddrSpace.map Prod.snd).getD m).physNext
    rw [createAddrSpace_physNext]
    exact .one htable
  | allocPhys size =>
    have hmakes : (Call.allocPhys size).Makes (.phys size) := Call.makes_asked rfl
    have hone := Chain.one (m := m) hmakes
    show Chain _ m.physNext [m.answer (.phys size)] (((m.allocPhys size).map Prod.snd).getD m).physNext
    cases ha : m.allocPhys size with
    | none => rwa [answer_after_of_none (r := .phys size) ha] at hone
    | some x => rwa [answer_after_of_some (r := .phys size) ha] at hone
  | mapVirt root va size prot =>
    have hmakes : (Call.mapVirt root va size prot).Makes (.block size) := Call.makes_asked rfl
    simp only [perform, Mmu.answers]
    exact mapVirt_chain htable hmakes root va prot
  | mapVirtPhys root va pa size prot => exact mapLoop_chain htable _ _ _ prot _ 0 m
  | alloc root size prot =>
    have hmakes : (Call.alloc root size prot).Makes (.block (sizeAlign size)) :=
      Or.inr (Or.inr ⟨size, rfl⟩)
    cases hs : m.spaces root with
    | none =>
      simp only [perform, Mmu.alloc, Mmu.answers, hs]
      exact .nil _
    | some s =>
      have h := mapVirt_chain (m := m.moved root size prot) htable hmakes root (s.cursor prot) prot
      rw [perform_alloc hs]
      simp only [Mmu.answers, hs]
      exact h
  | mapPhys root pa size prot =>
    cases hs : m.spaces root with
    | none =>
      simp only [perform, Mmu.mapPhys, Mmu.answers, hs]
      exact .nil _
    | some s =>
      rw [perform_mapPhys hs]
      simp only [Mmu.answers, hs]
      exact mapLoop_chain htable _ _ _ prot _ 0 (m.moved root size prot)
  | unmapVirt root va size =>
    have h : (m.unmapVirt root va size).physNext = m.physNext :=
      unmapLoop_induct (fun _ m' => m'.physNext = m.physNext)
        (fun k m' _ hm => (unmapPage_physNext m' root _).trans hm) _ 0 m (Nat.zero_add _) rfl
    show Chain _ m.physNext [] (m.unmapVirt root va size).physNext
    rw [h]
    exact .nil _
  | protVirt root va size prot =>
    have h : (m.protVirt root va size prot).physNext = m.physNext :=
      protLoop_induct (fun _ m' => m'.physNext = m.physNext)
        (fun k m' _ hm => (protPage_physNext m' root _ prot).trans hm) _ 0 m (Nat.zero_add _) rfl
    show Chain _ m.physNext [] (m.protVirt root va size prot).physNext
    rw [h]
    exact .nil _

/-! ## Logs -/

/-- What a log is once the cursor has come from `first` to `next`. -/
structure Served (first next : Nat) (log : List Answer) : Prop where
  cursor : CursorOk next
  le : first ≤ next
  within : ∀ a ∈ log, ∀ x, a.Holds x → first ≤ x ∧ x < next
  once : FramesOnce log

theorem Chain.served {P : Request → Prop} (hP : ∀ r, P r → r.asked ≤ 2 ^ 64 - pageSize) {n n' : Nat}
    {log : List Answer} (h : Chain P n log n') (hn : CursorOk n) : Served n n' log := by
  induction h with
  | nil next => exact ⟨hn, Nat.le_refl _, nofun, nofun, .nil⟩
  | @cons m r as next hr rest ih =>
    obtain ⟨hle, hok⟩ := hn.answer r
    have hrest := ih hok
    have hhead : ∀ x, (m.answer r).Holds x → m.physNext ≤ x ∧ x < (m.answer r).after := by
      rintro x ⟨s, hs, hsx, hx⟩
      rcases answer_cases m r with ⟨-, hnone, -⟩ | ⟨-, hsome, hafter⟩
      · rw [hnone] at hs
        cases hs
      · obtain rfl := Option.some.inj (hsome.symm.trans hs)
        rw [hafter]
        exact ⟨hsx, hx⟩
    have hle' := hrest.le
    refine ⟨hrest.cursor, hle.trans hle', fun a ha x hx => ?_, fun a ha => ?_, ?_⟩
    · rcases List.mem_cons.mp ha with rfl | ha
      · have := hhead x hx
        omega
      · have := hrest.within a ha x hx
        omega
    · rcases List.mem_cons.mp ha with rfl | ha
      · exact answer_fair hn (hP r hr)
      · exact hrest.once.fair a ha
    · refine List.pairwise_cons.mpr ⟨fun b hb x hx hbx => ?_, hrest.once.disjoint⟩
      have h1 := hhead x hx
      have h2 := hrest.within b hb x hbx
      omega

theorem Served.append {n n₁ n₂ : Nat} {as bs : List Answer} (h : Served n n₁ as) (h' : Served n₁ n₂ bs) :
    Served n n₂ (as ++ bs) := by
  have hle := h.le
  have hle' := h'.le
  refine ⟨h'.cursor, hle.trans hle', fun a ha x hx => ?_, fun a ha => ?_, ?_⟩
  · rcases List.mem_append.mp ha with ha | ha
    · have := h.within a ha x hx
      omega
    · have := h'.within a ha x hx
      omega
  · rcases List.mem_append.mp ha with ha | ha
    · exact h.once.fair a ha
    · exact h'.once.fair a ha
  · refine List.pairwise_append.mpr ⟨h.once.disjoint, h'.once.disjoint, fun a ha b hb x hx hbx => ?_⟩
    have h1 := h.within a ha x hx
    have h2 := h'.within b hb x hbx
    omega

/-! ## Runs -/

theorem Call.Makes.fits {call : Call} (h : call.Fits) (hr : call.Makes r) :
    r.asked ≤ 2 ^ 64 - pageSize := by
  rcases hr with rfl | hr | ⟨n, rfl⟩
  · decide
  · exact h _ hr
  · show sizeAlign n ≤ 2 ^ 64 - pageSize
    unfold sizeAlign pageAlign wrap pageSize
    omega

variable {s s' : Mmu × List Answer}

theorem stepLogged_eq {call : Call} (h : stepLogged s call = some s') :
    s' = (perform s.1 call, s.2 ++ s.1.answers call) := by
  obtain ⟨m, hm, rfl⟩ := Option.map_eq_some_iff.mp h
  unfold step at hm
  split at hm
  · rw [← Option.some.inj hm]
  · split at hm
    · rw [← Option.some.inj hm]
    · cases hm

theorem run_served {calls : List Call}
    (hrun : Run.Steps stepLogged Sized s calls s') (hfits : ∀ call ∈ calls, call.Fits)
    (hs : Served physBase s.1.physNext s.2) : Served physBase s'.1.physNext s'.2 := by
  induction hrun with
  | nil => exact hs
  | @cons s s₁ s₂ call calls _ hstep _ ih =>
    refine ih (fun c hc => hfits c (List.mem_cons_of_mem _ hc)) ?_
    rw [stepLogged_eq hstep]
    have hcall := hfits call List.mem_cons_self
    exact hs.append ((perform_chain s.1 call).served (fun r hr => hr.fits hcall) hs.cursor)

theorem log_grows {calls : List Call} (hrun : Run.Steps stepLogged Sized s calls s') : ∀ a ∈ s.2, a ∈ s'.2 := by
  refine hrun.invariant (P := fun t => ∀ a ∈ s.2, a ∈ t.2) ?_ fun a ha => ha
  intro t call t' ht _ hstep a ha
  rw [stepLogged_eq hstep]
  exact List.mem_append_left _ (ht a ha)

theorem answers_asked {call : Call} {n : Nat} (h : call.asks = some n) (m : Mmu) :
    ∃ r : Request, r.asked = n ∧ m.answer r ∈ m.answers call := by
  cases call with
  | allocPhys size =>
    obtain rfl := Option.some.inj h
    exact ⟨.phys size, rfl, List.mem_singleton_self _⟩
  | mapVirt root va size prot =>
    obtain rfl := Option.some.inj h
    exact ⟨.block size, rfl, List.mem_cons_self⟩
  | createAddrSpace => simp [Call.asks] at h
  | mapVirtPhys root va pa size prot => simp [Call.asks] at h
  | unmapVirt root va size => simp [Call.asks] at h
  | protVirt root va size prot => simp [Call.asks] at h
  | alloc root size prot => simp [Call.asks] at h
  | mapPhys root pa size prot => simp [Call.asks] at h

theorem fits_of_fair {calls : List Call} (hrun : Run.Steps stepLogged Sized s calls s') (hfair : ∀ a ∈ s'.2, a.Fair) :
    ∀ call ∈ calls, call.Fits := by
  induction hrun with
  | nil => nofun
  | @cons s s₁ s₂ call calls hsized hstep rest ih =>
    intro c hc
    rcases List.mem_cons.mp hc with rfl | hc
    · intro n hn
      by_contra hwrap
      obtain ⟨r, rfl, hr⟩ := answers_asked hn s.1
      refine not_fair_of_wrapped (m := s.1) (hsized _ hn) hwrap (hfair _ (log_grows rest _ ?_))
      rw [stepLogged_eq hstep]
      exact List.mem_append_right _ hr
    · exact ih hfair c hc

/-- **No frame is handed out twice**, in a run of any calls, exactly when no size asked for is among those
that wrap when they are rounded up. -/
theorem frames_once_iff {format : EntryFormat} {calls : List Call} {m : Mmu} {log : List Answer}
    (hrun : Run.Steps stepLogged Sized (Mmu.init format, []) calls (m, log)) :
    FramesOnce log ↔ ∀ call ∈ calls, call.Fits := by
  constructor
  · intro h
    exact fits_of_fair hrun h.fair
  · intro h
    have hinit : Served physBase physBase [] :=
      ⟨⟨rfl, Nat.le_refl _, by decide⟩, Nat.le_refl _, nofun, nofun, .nil⟩
    exact (run_served hrun h hinit).once

/-- A space, a block, a range of it mapped over a new set of tables, and a request past the end of memory. -/
def mixedSizes : List Call :=
  [.createAddrSpace, .allocPhys 0x1001, .mapVirt 0x100000000 0x400FFF 0x10 protRw, .allocPhys 0x100000000]

theorem mixedSizes_once : ∃ s, Run.Steps stepLogged Sized (Mmu.init pfn36, []) mixedSizes s ∧
    s.2.map Answer.start = [some 0x100000000, some 0x100001000, some 0x100003000, some 0x100004000,
      some 0x100005000, some 0x100006000, none] ∧ FramesOnce s.2 := by
  have hexec : ((Run.exec stepLogged (fun s call => decide (Sized s call))
      (Mmu.init pfn36, []) mixedSizes).map fun s => s.2.map Answer.start) =
      some [some 0x100000000, some 0x100001000, some 0x100003000, some 0x100004000, some 0x100005000,
        some 0x100006000, none] := by decide +kernel
  obtain ⟨s, hs, hval⟩ := Option.map_eq_some_iff.mp hexec
  have hrun : Run.Steps stepLogged Sized (Mmu.init pfn36, []) mixedSizes s :=
    .of_exec (fun _ _ => of_decide_eq_true) hs
  have hfits : ∀ call ∈ mixedSizes, call.Fits := by decide
  exact ⟨s, hrun, hval, (frames_once_iff hrun).mpr hfits⟩

/-- A request for all but one byte of the address space is granted, and the next one gets its address. -/
def lastSize : List Call := [.allocPhys (2 ^ 64 - 1), .allocPhys 0x1000]

theorem lastSize_twice :
    ¬ ∀ format calls m log, Run.Steps stepLogged Sized (Mmu.init format, []) calls (m, log) →
      FramesOnce log := by
  intro hall
  have hexec : ((Run.exec stepLogged (fun s call => decide (Sized s call))
      (Mmu.init pfn36, []) lastSize).map fun s => s.2) =
      some [⟨2 ^ 64 - 1, 0, some physBase, physBase, physBase⟩,
        ⟨0x1000, 0x1000, some physBase, physBase, physBase + 0x1000⟩] := by decide +kernel
  obtain ⟨⟨m, log⟩, hs, hval⟩ := Option.map_eq_some_iff.mp hexec
  have hrun : Run.Steps stepLogged Sized (Mmu.init pfn36, []) lastSize (m, log) :=
    .of_exec (fun _ _ => of_decide_eq_true) hs
  have honce := hall pfn36 lastSize m log hrun
  have hlog : log = _ := hval
  have henough := (honce.fair ⟨2 ^ 64 - 1, 0, some physBase, physBase, physBase⟩
    (by rw [hlog]; exact List.mem_cons_self)).enough physBase rfl
  exact absurd henough (by decide)

end Kernemul.X86
