import Kernemul.Win.UserMem.Moves

/-!
# Which pages are mapped, and with which frames

A page that may be accessed without a fault is mapped, every other page is not, and the frame of a
page outlives the times it is unmapped. Both hold as long as no guard fault is taken on a page whose
protection below the guard is `PAGE_NOACCESS`: `handle_fault` maps such a page although the
protection it leaves is one that must fault. The write and execute bits also need that a `protect`
outside every reservation does not run into one.
-/

namespace Kernemul.UserMem

open Segments

/-! ## The invariant of one page -/

/-- The mapping of page `p` agrees with its record: an uncommitted page has no frame at all, a
committed one is mapped when its protection is resident and only then. -/
def Resides (m : Pages) (p : Nat) : Option Prot → Prop
  | none => m.pte p = none ∧ m.backing.lookup p = none
  | some prot =>
    if isResident prot then (m.pte p).isSome ∧ m.backing.lookup p = none else m.pte p = none

variable {prot : Prot}

theorem isResident_clear_guard (h : prot &&& pageProtMask ≠ pageNoaccess) :
    isResident (prot &&& ~~~pageGuard) = true := by
  have h1 : prot &&& ~~~pageGuard &&& pageGuard = 0 := by
    rw [BitVec.and_assoc, show ~~~pageGuard &&& pageGuard = (0 : BitVec 32) by decide]
    simp
  have h2 : prot &&& ~~~pageGuard &&& pageProtMask = prot &&& pageProtMask := by
    rw [BitVec.and_assoc, show ~~~pageGuard &&& pageProtMask = pageProtMask by decide]
  unfold isResident hasBits
  rw [h1, h2]
  simpa using h

theorem not_isResident_of_guard (h : hasBits prot pageGuard) :
    isResident prot = false := by
  unfold isResident
  rw [h]
  rfl

/-- The guard faults that keep a page's mapping in step with its record. -/
def GuardOk (p : Nat) (s : State) (call : Call) : Prop :=
  ∀ a, call = .handleFault a → pageAlign a = p → ∀ prot, committedAt s p = some prot →
    hasBits prot pageGuard → prot &&& pageProtMask ≠ pageNoaccess

variable {m : Pages} {p : Nat}

theorem resides_resident (h : isResident prot = true) :
    Resides m p (some prot) ↔ (m.pte p).isSome ∧ m.backing.lookup p = none := by
  show (if isResident prot then _ else _) ↔ _
  rw [if_pos h]

theorem resides_absent (h : isResident prot = false) :
    Resides m p (some prot) ↔ m.pte p = none := by
  show (if isResident prot then _ else _) ↔ _
  rw [if_neg (by simp [h])]

theorem applyAct_eq (old new : Prot) :
    applyAct old new = match isResident old, isResident new with
      | true, false => .evict
      | false, true => .map (toMemProt new)
      | true, true => .reprot (toMemProt new)
      | false, false => .keep := by
  unfold applyAct
  cases isResident old <;> cases isResident new <;> rfl

variable {m' : Pages}

theorem Resides.reprot {c : Option Prot} {prot : MemProt}
    (h : Resides m p c) (he : Effect m m' p (.reprot prot)) : Resides m' p c := by
  obtain ⟨h1, h2⟩ := he
  cases c with
  | none =>
    obtain ⟨h3, h4⟩ := h
    exact ⟨by rw [h1, h3]; rfl, h2.trans h4⟩
  | some q =>
    cases hr : isResident q with
    | true =>
      rw [resides_resident hr] at h ⊢
      rw [h1, h2]
      exact ⟨by simpa using h.1, h.2⟩
    | false =>
      rw [resides_absent hr] at h ⊢
      rw [h1, h]
      rfl

theorem Resides.of_map (hr : isResident prot = true)
    (he : Effect m m' p (.map (toMemProt prot))) : Resides m' p (some prot) := by
  obtain ⟨h1, frame, h2, -⟩ := he
  rw [resides_resident hr, h2]
  exact ⟨rfl, h1⟩

variable {s : State} {call : Call} {act : Act}

theorem Resides.step {c' : Option Prot} (h : Resides s.pages p (committedAt s p)) (hg : GuardOk p s call)
    (hm : Moves s p call (committedAt s p) c' act) (he : Effect s.pages m' p act) :
    Resides m' p c' := by
  generalize hc : committedAt s p = c at h hm
  cases hm with
  | idle =>
    obtain ⟨h1, h2⟩ := he
    unfold Resides at h ⊢
    rw [h1, h2]
    exact h
  | commit =>
    rename_i prot _
    unfold commitAct at he
    cases hr : isResident prot with
    | true =>
      rw [if_pos hr] at he
      exact .of_map hr he
    | false =>
      rw [if_neg (by simp [hr])] at he
      rw [resides_absent hr, he.1]
      exact h.1
  | change =>
    rename_i old new _
    rw [applyAct_eq] at he
    cases ho : isResident old <;> cases hn : isResident new <;> rw [ho, hn] at he
    · rw [resides_absent ho] at h
      rw [resides_absent hn, he.1, h]
    · exact .of_map hn he
    · rw [resides_absent hn, he.1]
    · rw [resides_resident ho, ← resides_resident hn] at h
      exact h.reprot he
  | discard => exact he
  | guard ha hguard => exact .of_map (isResident_clear_guard (hg _ rfl ha _ hc hguard)) he
  | untracked => exact h.reprot he

def frameOf (m : Pages) (p : Nat) : Option Nat := ((m.pte p).map Pte.frame).or (m.backing.lookup p)

theorem frameOf_step {c' : Option Prot}
    (h : Resides s.pages p (committedAt s p)) (hm : Moves s p call (committedAt s p) c' act)
    (he : Effect s.pages m' p act) (hkeep : committedAt s p ≠ none → c' ≠ none) {frame : Nat}
    (hf : frameOf s.pages p = some frame) : frameOf m' p = some frame := by
  -- a page that is brought in while unmapped finds its frame kept
  have hmap : ∀ prot, s.pages.pte p = none → Effect s.pages m' p (.map prot) →
      frameOf m' p = some frame := by
    intro prot hpte hmap
    obtain ⟨h1, g, h2, h3⟩ := hmap
    rw [frameOf, hpte, Option.map_none, Option.none_or] at hf
    rw [hf] at h3
    rcases h3 with h3 | ⟨h3, -⟩
    · cases h3
      rw [frameOf, h2]
      rfl
    · simp at h3
  have hreprot : ∀ prot, Effect s.pages m' p (.reprot prot) → frameOf m' p = some frame := by
    intro prot hre
    obtain ⟨h1, h2⟩ := hre
    rw [frameOf, h1, h2, Option.map_map]
    exact hf
  generalize committedAt s p = c at h hm hkeep
  cases hm with
  | idle =>
    obtain ⟨h1, h2⟩ := he
    rw [frameOf, h1, h2]
    exact hf
  | commit =>
    obtain ⟨h1, h2⟩ := h
    rw [frameOf, h1, h2] at hf
    simp at hf
  | change =>
    rename_i old new _
    rw [applyAct_eq] at he
    cases ho : isResident old <;> cases hn : isResident new <;> rw [ho, hn] at he
    · obtain ⟨h1, h2⟩ := he
      rw [frameOf, h1, h2]
      exact hf
    · exact hmap _ ((resides_absent ho).mp h) he
    · obtain ⟨h1, h2⟩ := he
      rw [frameOf, h1, h2]
      exact hf
    · exact hreprot _ he
  | discard => exact absurd rfl (hkeep (by simp))
  | guard _ hguard =>
    exact hmap _ ((resides_absent (not_isResident_of_guard hguard)).mp h) he
  | untracked => exact hreprot _ he

/-! ## Residency over a run -/

/-- A mapped page carries the write and execute bits of its record. -/
def BitsAgree (m : Pages) (p : Nat) (c : Option Prot) : Prop :=
  ∀ prot e, c = some prot → isResident prot → m.pte p = some e →
    e.write = (toMemProt prot).write ∧ e.exec = (toMemProt prot).exec

/-- A `protect` that starts outside every reservation gives the mapped pages it runs into the bits
they have. -/
def UntrackedOk (s : State) (call : Call) : Prop :=
  ∀ base size new, call = .protect base size new → findReservation s (pageAlign base) = none →
    ∀ p, OnPages (pageAlign base) (sizeAlign (wrap (size + (base - pageAlign base)))) p →
      ∀ prot, committedAt s p = some prot → isResident prot →
        (toMemProt new).write = (toMemProt prot).write ∧ (toMemProt new).exec = (toMemProt prot).exec

theorem BitsAgree.of_map (he : Effect m m' p (.map (toMemProt prot))) : BitsAgree m' p (some prot) := by
  intro q e hq _ hpte
  obtain ⟨-, frame, h2, -⟩ := he
  rw [h2] at hpte
  cases hpte
  cases hq
  exact ⟨rfl, rfl⟩

theorem BitsAgree.step {c' : Option Prot} (h : BitsAgree s.pages p (committedAt s p)) (hu : UntrackedOk s call)
    (hm : Moves s p call (committedAt s p) c' act) (he : Effect s.pages m' p act) :
    BitsAgree m' p c' := by
  generalize hc : committedAt s p = c at h hm
  cases hm with
  | idle =>
    intro prot e hprot hr hpte
    exact h prot e hprot hr (he.1.symm.trans hpte)
  | commit =>
    rename_i prot _
    unfold commitAct at he
    split at he
    · exact .of_map he
    · rename_i hr
      intro q e hq hq' _
      cases hq
      exact absurd hq' hr
  | change =>
    rename_i old new _
    rw [applyAct_eq] at he
    cases hn : isResident new with
    | false =>
      intro q e hq hq' _
      cases hq
      rw [hn] at hq'
      simp at hq'
    | true =>
      cases ho : isResident old <;> rw [ho, hn] at he
      · exact .of_map he
      · intro q e hq _ hpte
        cases hq
        rw [he.1, Option.map_eq_some_iff] at hpte
        obtain ⟨e', -, rfl⟩ := hpte
        exact ⟨rfl, rfl⟩
  | discard =>
    intro q e hq
    simp at hq
  | guard => exact .of_map he
  | untracked hres hp =>
    intro q e hq hq' hpte
    rw [he.1, Option.map_eq_some_iff] at hpte
    obtain ⟨e', -, rfl⟩ := hpte
    exact hu _ _ _ rfl hres p hp q (hc.trans hq) hq'

/-- The condition on a call under which mappings stay in step with the books. -/
def ResidencyOk (s : State) (call : Call) : Prop :=
  call.Bounded ∧ (∀ p, GuardOk p s call) ∧ UntrackedOk s call

structure ResidencyInv (s : State) : Prop where
  vad : VadInv s
  resides : ∀ p, IsPage p → Resides s.pages p (committedAt s p)
  bits : ∀ p, IsPage p → BitsAgree s.pages p (committedAt s p)

theorem init_residencyInv (phys : Nat) : ResidencyInv (State.init phys) :=
  ⟨init_vadInv phys, fun _ _ => ⟨rfl, rfl⟩, fun _ _ _ _ h => by cases h⟩

theorem step_residencyInv {s' : State} (h : ResidencyInv s) (hok : ResidencyOk s call)
    (hstep : step s call = some s') : ResidencyInv s' := by
  obtain ⟨hb, hg, hu⟩ := hok
  obtain ⟨a, heff, hmoves⟩ := step_moves h.vad hb hstep
  refine ⟨step_vadInv h.vad hb hstep, fun p hp => ?_, fun p hp => ?_⟩
  · exact (h.resides p hp).step (hg p) (hmoves p hp) (heff.page p hp)
  · exact (h.bits p hp).step hu (hmoves p hp) (heff.page p hp)

/-- Every page of a private reservation is mapped exactly when it is committed with a resident
protection, with that protection's write and execute bits. -/
def ResidencyAgrees (s : State) : Prop :=
  ∀ r ∈ s.reservations, r.val.type = memPrivate → ∀ p, IsPage p → r.Has p →
    ((s.pages.pte p).isSome ↔ ∃ prot, valAt r.val.committed p = some prot ∧ isResident prot) ∧
    ∀ prot e, valAt r.val.committed p = some prot → s.pages.pte p = some e →
      e.write = (toMemProt prot).write ∧ e.exec = (toMemProt prot).exec

theorem ResidencyInv.agrees (h : ResidencyInv s) : ResidencyAgrees s := by
  intro r hr _ p hp hhas
  have hc := committedAt_of_mem h.vad.valid hr hhas
  have hres := h.resides p hp
  have hbits := h.bits p hp
  rw [hc] at hres hbits
  cases hv : valAt r.val.committed p with
  | none =>
    rw [hv] at hres
    simp [hres.1]
  | some prot =>
    rw [hv] at hres hbits
    cases hr' : isResident prot with
    | true =>
      rw [resides_resident hr'] at hres
      refine ⟨⟨fun _ => ⟨prot, rfl, hr'⟩, fun _ => hres.1⟩, fun q e hq hpte => ?_⟩
      exact hbits q e hq (by cases hq; exact hr') hpte
    | false =>
      rw [resides_absent hr'] at hres
      simp [hres, hr']

/-- **Residency after any run** whose guard faults and untracked protects meet the condition. -/
theorem residency_agrees {phys : Nat} {calls : List Call} {s : State}
    (h : Run.Steps step ResidencyOk (State.init phys) calls s) : ResidencyAgrees s :=
  (h.invariant (fun _ _ _ hs hok hstep => step_residencyInv hs hok hstep)
    (init_residencyInv phys)).agrees

/-- A check that is enough for `ResidencyOk`: no fault on a guarded `PAGE_NOACCESS` page and no
untracked `protect`. -/
def residencyCheck (s : State) (call : Call) : Bool :=
  boundedCheck s call && match call with
    | .handleFault a => (committedAt s (pageAlign a)).all fun prot =>
        !hasBits prot pageGuard || prot &&& pageProtMask != pageNoaccess
    | .protect base _ _ => (findReservation s (pageAlign base)).isSome
    | _ => true

theorem residencyOk_of_check (s : State) (call : Call) (h : residencyCheck s call = true) :
    ResidencyOk s call := by
  unfold residencyCheck at h
  obtain ⟨hb, hc⟩ := (Bool.and_eq_true _ _).mp h
  refine ⟨of_decide_eq_true hb, fun p a hcall ha prot hprot hguard => ?_, ?_⟩
  · subst hcall ha
    simp only [hprot, Option.all_some, hguard] at hc
    simpa using hc
  · intro base size new hcall hnone
    subst hcall
    simp [hnone] at hc

theorem guardExcursion_residency : ∃ s, Run.Steps step ResidencyOk (State.init 0) guardExcursion s ∧
    s.pages.pte 0x100001000 = some ⟨0x1000, true, false⟩ ∧ ResidencyAgrees s := by
  have hexec : ((Run.exec step residencyCheck (State.init 0) guardExcursion).map fun s =>
      s.pages.pte 0x100001000) = some (some ⟨0x1000, true, false⟩) := by decide +kernel
  obtain ⟨s, hs, hpte⟩ := Option.map_eq_some_iff.mp hexec
  have hrun := Run.Steps.of_exec residencyOk_of_check hs
  exact ⟨s, hrun, hpte, residency_agrees hrun⟩

/-- A page committed `PAGE_GUARD | PAGE_NOACCESS` is mapped by its first fault. -/
def guardedNoaccess : List Call :=
  [.allocate 0 0x1000 (memCommit ||| memReserve) (pageGuard ||| pageNoaccess) 0,
    .handleFault 0x100000000]

theorem guardedNoaccess_mapped :
    ¬ ∀ phys calls s, BoundedRun phys calls s → ResidencyAgrees s := by
  intro hall
  have hexec : ((Run.exec step boundedCheck (State.init 0) guardedNoaccess).map fun s =>
      ((s.pages.pte 0x100000000).isSome, s.reservations)) = some (true,
        [⟨0x100000000, 0x1000, ⟨pageGuard ||| pageNoaccess, memPrivate,
          [⟨0x100000000, 0x1000, pageNoaccess⟩]⟩⟩]) := by decide +kernel
  obtain ⟨s, hs, hval⟩ := Option.map_eq_some_iff.mp hexec
  obtain ⟨hpte, hres⟩ := Prod.mk.inj hval
  have hagree := hall 0 guardedNoaccess s (.of_exec (fun _ _ => of_decide_eq_true) hs)
  have hpage := (hagree _ (by rw [hres]; exact List.mem_singleton.mpr rfl) rfl 0x100000000 (by decide)
    (by decide)).1
  obtain ⟨prot, hprot, hresident⟩ := hpage.mp hpte
  have hcommitted : valAt [(⟨0x100000000, 0x1000, pageNoaccess⟩ : Seg Prot)] 0x100000000 =
    some pageNoaccess := by decide
  rw [hcommitted] at hprot
  cases hprot
  exact absurd hresident (by decide)

/-! ## Frames over a run -/

/-- Every frame page `p` has was handed out after `n`. -/
def FreshFrom (n p : Nat) (m : Pages) : Prop :=
  n ≤ m.physNext ∧ ∀ frame, (m.pte p).map Pte.frame = some frame ∨ m.backing.lookup p = some frame →
    n ≤ frame

/-- Where the frame behind a page comes from: the page itself or the allocator. -/
theorem Effect.frame (he : Effect m m' p act) {frame : Nat}
    (hf : (m'.pte p).map Pte.frame = some frame ∨ m'.backing.lookup p = some frame) :
    ((m.pte p).map Pte.frame = some frame ∨ m.backing.lookup p = some frame) ∨
      m.physNext ≤ frame ∧ frame < m'.physNext := by
  cases act with
  | keep =>
    obtain ⟨h1, h2⟩ := he
    rw [h1, h2] at hf
    exact Or.inl hf
  | map prot =>
    obtain ⟨h1, g, h2, h3⟩ := he
    rw [h1, h2] at hf
    simp only [Option.map_some, Option.some.injEq, reduceCtorEq, or_false] at hf
    subst hf
    rcases h3 with h3 | ⟨-, h3⟩
    · exact Or.inl (Or.inr h3)
    · exact Or.inr h3
  | evict =>
    obtain ⟨h1, h2⟩ := he
    rw [h1, h2] at hf
    simp only [Option.map_none, reduceCtorEq, false_or, Option.or_eq_some_iff] at hf
    tauto
  | release =>
    obtain ⟨h1, h2⟩ := he
    rw [h1, h2] at hf
    simp at hf
  | reprot prot =>
    obtain ⟨h1, h2⟩ := he
    rw [h1, h2, Option.map_map] at hf
    exact Or.inl hf

theorem frameOf_eq_some {frame : Nat} (h : frameOf m p = some frame) :
    (m.pte p).map Pte.frame = some frame ∨ m.backing.lookup p = some frame := by
  rw [frameOf, Option.or_eq_some_iff] at h
  tauto

/-- Every frame behind a page, mapped or kept, has been handed out. -/
def FramesBelow (m : Pages) : Prop :=
  ∀ p, IsPage p → ∀ frame, (m.pte p).map Pte.frame = some frame ∨ m.backing.lookup p = some frame →
    frame < m.physNext

theorem FramesBelow.effects {a : Nat → Act} (h : FramesBelow m) (he : Effects a m m') : FramesBelow m' := by
  intro p hp frame hf
  have hphys := he.phys
  rcases (he.page p hp).frame hf with hold | ⟨-, hnew⟩
  · have := h p hp frame hold
    omega
  · exact hnew

theorem FreshFrom.effects {a : Nat → Act} {n : Nat} (hp : IsPage p)
    (h : FreshFrom n p m) (he : Effects a m m') : FreshFrom n p m' := by
  obtain ⟨h1, h2⟩ := h
  refine ⟨h1.trans he.phys, fun frame hf => ?_⟩
  rcases (he.page p hp).frame hf with hold | ⟨hnew, -⟩
  · exact h2 frame hold
  · exact h1.trans hnew

structure FrameInv (s : State) : Prop where
  vad : VadInv s
  below : FramesBelow s.pages

theorem init_frameInv (phys : Nat) : FrameInv (State.init phys) := by
  refine ⟨init_vadInv phys, fun p _ frame hf => ?_⟩
  rcases hf with hf | hf <;> cases hf

theorem step_frameInv {s' : State} (h : FrameInv s) (hb : call.Bounded)
    (hstep : step s call = some s') : FrameInv s' := by
  obtain ⟨a, heff, -⟩ := step_moves h.vad hb hstep
  exact ⟨step_vadInv h.vad hb hstep, h.below.effects heff⟩

/-- A bounded call that takes no guard fault on page `p` while it is committed
`PAGE_GUARD | PAGE_NOACCESS`. -/
def FaultOk (p : Nat) (s : State) (call : Call) : Prop := call.Bounded ∧ GuardOk p s call

/-- The call does not decommit or release page `p`. -/
def KeepsCommitted (p : Nat) (s : State) (call : Call) : Prop :=
  ∀ base size t, call = .free base size t →
    committedAt (free s base size t).2 p = committedAt s p

theorem Moves.keeps {s' : State}
    (hm : Moves s p call (committedAt s p) (committedAt s' p) act) (hk : KeepsCommitted p s call)
    (hstep : step s call = some s') : committedAt s p ≠ none → committedAt s' p ≠ none := by
  intro hc hnone
  by_cases hfree : ∃ base size t, call = .free base size t
  · obtain ⟨base, size, t, rfl⟩ := hfree
    cases hstep
    exact hc ((hk base size t rfl).symm.trans hnone)
  · generalize committedAt s p = c at hm hc
    rw [hnone] at hm
    cases hm with
    | idle => exact hc rfl
    | discard => exact hfree ⟨_, _, _, rfl⟩
    | untracked => exact hc rfl

/-- What a run that keeps page `p` committed preserves about it. -/
structure FrameKept (p frame : Nat) (s : State) : Prop where
  vad : VadInv s
  resides : Resides s.pages p (committedAt s p)
  frame : frameOf s.pages p = some frame

theorem FrameKept.step {frame : Nat} (hp : IsPage p) {s' : State}
    (h : FrameKept p frame s) (hok : FaultOk p s call ∧ KeepsCommitted p s call)
    (hstep : step s call = some s') : FrameKept p frame s' := by
  obtain ⟨⟨hb, hg⟩, hk⟩ := hok
  obtain ⟨a, heff, hmoves⟩ := step_moves h.vad hb hstep
  have hm := hmoves p hp
  have he := heff.page p hp
  exact ⟨step_vadInv h.vad hb hstep, h.resides.step hg hm he,
    frameOf_step h.resides hm he (hm.keeps hk hstep) h.frame⟩

theorem free_freshFrom (h : VadInv s) {base size : Nat} {t : BitVec 32} (hp : IsPage p)
    (hb : (Call.free base size t).Bounded) (hc : committedAt s p ≠ none)
    (hgone : committedAt (free s base size t).2 p = none) :
    FreshFrom s.pages.physNext p (free s base size t).2.pages := by
  have hstep : step s (.free base size t) = some (free s base size t).2 := rfl
  obtain ⟨a, heff, hmoves⟩ := step_moves h hb hstep
  have hm := hmoves p hp
  have he := heff.page p hp
  refine ⟨heff.phys, fun frame hf => ?_⟩
  rw [hgone] at hm
  generalize committedAt s p = c at hm hc
  generalize a p = act at hm he
  cases hm with
  | idle => exact absurd rfl hc
  | discard =>
    obtain ⟨h1, h2⟩ := he
    rw [h1, h2] at hf
    simp at hf

theorem run_frameKept (hp : IsPage p) {phys : Nat} {calls : List Call}
    (h : Run.Steps step (FaultOk p) (State.init phys) calls s) :
    FrameInv s ∧ Resides s.pages p (committedAt s p) := by
  refine h.invariant (P := fun s => FrameInv s ∧ Resides s.pages p (committedAt s p)) ?_
    ⟨init_frameInv phys, rfl, rfl⟩
  intro s i s' ⟨hinv, hres⟩ ⟨hb, hg⟩ hstep
  obtain ⟨a, heff, hmoves⟩ := step_moves hinv.vad hb hstep
  exact ⟨step_frameInv hinv hb hstep, hres.step hg (hmoves p hp) (heff.page p hp)⟩

/-- **Frames over runs** that take no guard fault on page `p` while it is committed
`PAGE_GUARD | PAGE_NOACCESS`: as long as no call gives `p` up, it has the same frame whenever it is
mapped; and once a call has given it up, every frame it gets is one that no page had before. -/
theorem frame_survives {phys p : Nat} {before : List Call} {s : State} (hp : IsPage p)
    (h : Run.Steps step (FaultOk p) (State.init phys) before s) :
    (∀ later s' e e', Run.Steps step (fun t call => FaultOk p t call ∧ KeepsCommitted p t call) s
        later s' → s.pages.pte p = some e → s'.pages.pte p = some e' → e'.frame = e.frame) ∧
    (∀ base size t later s' e', (Call.free base size t).Bounded → committedAt s p ≠ none →
      committedAt (free s base size t).2 p = none →
      Run.Steps step (fun _ call => call.Bounded) (free s base size t).2 later s' →
      s'.pages.pte p = some e' →
      s.pages.physNext ≤ e'.frame ∧ ∀ q, IsPage q → frameOf s.pages q ≠ some e'.frame) := by
  obtain ⟨hinv, hres⟩ := run_frameKept hp h
  refine ⟨fun later s' e e' hlater he he' => ?_,
    fun base size t later s' e' hb hc hgone hlater he' => ?_⟩
  · have hframe : frameOf s.pages p = some e.frame := by
      rw [frameOf, he]
      rfl
    have hkept := hlater.invariant (fun _ _ _ hs hok hstep => hs.step hp hok hstep)
      (⟨hinv.vad, hres, hframe⟩ : FrameKept p e.frame s)
    have := hkept.frame
    rw [frameOf, he'] at this
    simpa using this
  · have hfresh := free_freshFrom hinv.vad hp hb hc hgone
    have hvad : VadInv (free s base size t).2 := step_vadInv hinv.vad hb rfl
    have hend : VadInv s' ∧ FreshFrom s.pages.physNext p s'.pages :=
      hlater.invariant (P := fun s' => VadInv s' ∧ FreshFrom s.pages.physNext p s'.pages)
        (fun _ _ _ hs hok hstep => by
          obtain ⟨a, heff, -⟩ := step_moves hs.1 hok hstep
          exact ⟨step_vadInv hs.1 hok hstep, hs.2.effects hp heff⟩) ⟨hvad, hfresh⟩
    have hle : s.pages.physNext ≤ e'.frame := hend.2.2 e'.frame (Or.inl (by rw [he']; rfl))
    refine ⟨hle, fun q hq hf => ?_⟩
    have := hinv.below q hq e'.frame (frameOf_eq_some hf)
    omega

/-- A check that no call of an execution is a `free`, on top of another check. -/
def keepingCheck (check : State → Call → Bool) (s : State) (call : Call) : Bool :=
  check s call && match call with
    | .free .. => false
    | _ => true

theorem keepsCommitted_of_check {check : State → Call → Bool} (p : Nat)
    (h : keepingCheck check s call = true) : check s call = true ∧ KeepsCommitted p s call := by
  unfold keepingCheck at h
  obtain ⟨hc, hf⟩ := (Bool.and_eq_true _ _).mp h
  refine ⟨hc, fun base size t hcall => ?_⟩
  subst hcall
  simp at hf

theorem guardExcursion_frame : ∃ (s s' : State) (e e' : Pte),
    Run.Steps step (FaultOk 0x100001000) (State.init 0) (guardExcursion.take 1) s ∧
    s.pages.pte 0x100001000 = some e ∧ s'.pages.pte 0x100001000 = some e' ∧ e'.frame = e.frame := by
  have hexec : ((Run.exec step residencyCheck (State.init 0) (guardExcursion.take 1)).bind fun s =>
      (Run.exec step (keepingCheck residencyCheck) s (guardExcursion.drop 1)).map fun s' =>
        ((s.pages.pte 0x100001000).isSome, (s'.pages.pte 0x100001000).isSome)) =
      some (true, true) := by decide +kernel
  obtain ⟨s, hs, hrest⟩ := Option.bind_eq_some_iff.mp hexec
  obtain ⟨s', hs', hval⟩ := Option.map_eq_some_iff.mp hrest
  obtain ⟨he, he'⟩ := Prod.mk.inj hval
  obtain ⟨e, he⟩ := Option.isSome_iff_exists.mp he
  obtain ⟨e', he'⟩ := Option.isSome_iff_exists.mp he'
  have hok : ∀ t call, residencyCheck t call = true → FaultOk 0x100001000 t call := fun t call h =>
    ⟨(residencyOk_of_check t call h).1, (residencyOk_of_check t call h).2.1 _⟩
  have hrun := Run.Steps.of_exec hok hs
  refine ⟨s, s', e, e', hrun, he, he',
    (frame_survives (by decide) hrun).1 (guardExcursion.drop 1) s' e e' ?_ he he'⟩
  exact .of_exec (fun t call h => ⟨hok t call (keepsCommitted_of_check 0x100001000 h).1,
    (keepsCommitted_of_check _ h).2⟩) hs'

/-- A committed page made `PAGE_GUARD | PAGE_NOACCESS`, touched, and made accessible again. -/
def noaccessExcursion : List Call :=
  [.protect 0x100000000 0x1000 (pageGuard ||| pageNoaccess), .handleFault 0x100000000,
    .protect 0x100000000 0x1000 pageReadwrite]

theorem noaccessExcursion_loses_frame :
    ¬ ∀ phys p before s later s' e e', IsPage p → BoundedRun phys before s →
      Run.Steps step (fun t call => call.Bounded ∧ KeepsCommitted p t call) s later s' →
      s.pages.pte p = some e → s'.pages.pte p = some e' → e'.frame = e.frame := by
  intro hall
  have hexec : ((Run.exec step boundedCheck (State.init 0)
      [.allocate 0 0x1000 (memCommit ||| memReserve) pageReadwrite 0]).bind fun s =>
      (Run.exec step (keepingCheck boundedCheck) s noaccessExcursion).map fun s' =>
        (s.pages.pte 0x100000000, s'.pages.pte 0x100000000)) =
      some (some ⟨0, true, false⟩, some ⟨0x1000, true, false⟩) := by decide +kernel
  obtain ⟨s, hs, hrest⟩ := Option.bind_eq_some_iff.mp hexec
  obtain ⟨s', hs', hval⟩ := Option.map_eq_some_iff.mp hrest
  obtain ⟨he, he'⟩ := Prod.mk.inj hval
  have := hall 0 0x100000000 _ s _ s' _ _ (by decide) (.of_exec (fun _ _ => of_decide_eq_true) hs)
    (.of_exec (fun t call h => ⟨of_decide_eq_true (keepsCommitted_of_check 0x100000000 h).1,
      (keepsCommitted_of_check _ h).2⟩) hs') he he'
  exact absurd this (by decide)

end Kernemul.UserMem
