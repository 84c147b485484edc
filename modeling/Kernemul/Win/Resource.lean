import Kernemul.Lib.Run
import Mathlib.Data.Nat.Bitwise
import Mathlib.Logic.Function.Basic

/-!
# Executive resources

`take_resource` and the release of `nt_lock_ops.cpp`. An `ERESOURCE` has one owner slot. As long as no thread
shares it with another one, the slot tells who holds it and how often.
-/

namespace Kernemul.Resource

abbrev Addr := Nat

def resourceOwnedExclusive : BitVec 16 := 0x80

def ownerFlagMask : BitVec 32 := 0x7

def ownerCountShift : Nat := 3

/-- The fields of `_ERESOURCE` that are used: `tableSize` holds flags below the owner's count. -/
structure EResource where
  activeEntries : BitVec 32 := 0
  activeCount : BitVec 16 := 0
  flag : BitVec 16 := 0
  ownerThread : Addr := 0
  tableSize : BitVec 32 := 0
  deriving DecidableEq, Repr

def ownerCount (r : EResource) : BitVec 32 := r.tableSize >>> ownerCountShift

def setOwner (r : EResource) (ownerThread : Addr) (count : BitVec 32) : EResource :=
  { r with ownerThread, tableSize := (r.tableSize &&& ownerFlagMask) ||| (count <<< ownerCountShift) }

def heldExclusive (r : EResource) : Bool := r.flag &&& resourceOwnedExclusive ≠ 0

/-- `take_resource`: whether it is granted, and what it leaves. -/
def takeResource (r : EResource) (owner : Addr) (exclusive : Bool) : Bool × EResource :=
  if r.activeEntries = 0 then
    let r := { r with
      flag := if exclusive then r.flag ||| resourceOwnedExclusive else r.flag &&& ~~~resourceOwnedExclusive }
    (true, { setOwner r owner 1 with activeEntries := 1, activeCount := 1 })
  else if r.ownerThread = owner ∨ (!exclusive ∧ !heldExclusive r) then
    let r' := if r.ownerThread ≠ owner then
        { r with activeEntries := r.activeEntries + 1, activeCount := r.activeCount + 1 }
      else r
    (true, setOwner r' owner (ownerCount r + 1))
  else (false, r)

/-- `ExReleaseResourceLite`. -/
def releaseResource (r : EResource) : EResource :=
  if ownerCount r = 0 ∨ r.activeEntries = 0 then r
  else if 1 < ownerCount r then setOwner r r.ownerThread (ownerCount r - 1)
  else
    { setOwner r 0 0 with
      activeEntries := r.activeEntries - 1
      flag := r.flag &&& ~~~resourceOwnedExclusive
      activeCount := if r.activeEntries = 1 then 0 else r.activeCount }

/-! ## Runs -/

structure State where
  resource : EResource := {}
  /-- What each thread has been granted and has not released, newest first, and whether exclusively. Nothing
  in the code reads it. -/
  grants : Addr → List Bool := fun _ => []

inductive Action
  | acquire (t : Addr) (exclusive : Bool)
  | release (t : Addr)
  deriving DecidableEq, Repr

/-- One action, none when it cannot happen: a thread has an `ETHREAD`, and releases what it was granted. -/
def step (s : State) : Action → Option State
  | .acquire t exclusive =>
    let r := takeResource s.resource t exclusive
    if t = 0 then none
    else if r.1 then
      some { resource := r.2, grants := Function.update s.grants t (exclusive :: s.grants t) }
    else some { s with resource := r.2 }
  | .release t =>
    if s.grants t = [] then none
    else
      some { resource := releaseResource s.resource
             grants := Function.update s.grants t (s.grants t).tail }

/-- No thread shares the resource with another one, or takes it more often than can be counted. -/
def Alone (s : State) : Action → Prop
  | .acquire t exclusive =>
    (exclusive = true ∨ s.resource.activeEntries = 0 ∨ heldExclusive s.resource = true ∨
      s.resource.ownerThread = t) ∧
    (s.resource.ownerThread = t → (ownerCount s.resource).toNat < 2 ^ 29 - 1)
  | .release _ => True

instance (s : State) (action : Action) : Decidable (Alone s action) :=
  match action with
  | .acquire _ _ => inferInstanceAs (Decidable (_ ∧ _))
  | .release _ => isTrue trivial

structure ResourceOk (s : State) : Prop where
  counted : ∀ t, s.grants t ≠ [] →
    s.resource.ownerThread = t ∧ (ownerCount s.resource).toNat = (s.grants t).length
  free : (∀ t, s.grants t = []) → s.resource.activeEntries = 0 ∧ s.resource.ownerThread = 0 ∧
    heldExclusive s.resource = false

/-- What is granted excludes the others: from everything, or from holding it exclusively. -/
def Excludes (s : State) (t : Addr) (exclusive : Bool) : Prop :=
  (takeResource s.resource t exclusive).1 = true →
    ∀ t', t' ≠ t → if exclusive then s.grants t' = [] else true ∉ s.grants t'

/-! ## The owner slot -/

theorem ownerCount_setOwner (r : EResource) (owner : Addr) {count : BitVec 32} (h : count.toNat < 2 ^ 29) :
    ownerCount (setOwner r owner count) = count := by
  have hshift : (count <<< ownerCountShift).toNat = 2 ^ 3 * count.toNat := by
    rw [BitVec.toNat_shiftLeft, Nat.shiftLeft_eq]
    show count.toNat * 2 ^ 3 % 2 ^ 32 = _
    omega
  have hlow : (r.tableSize &&& ownerFlagMask).toNat < 2 ^ 3 := by
    rw [BitVec.toNat_and]
    exact lt_of_le_of_lt Nat.and_le_right (by decide)
  apply BitVec.eq_of_toNat_eq
  show (((r.tableSize &&& ownerFlagMask) ||| (count <<< ownerCountShift)) >>> ownerCountShift).toNat = _
  rw [BitVec.toNat_ushiftRight, BitVec.toNat_or, hshift, Nat.or_comm,
    ← Nat.two_pow_add_eq_or_of_lt hlow, Nat.shiftRight_eq_div_pow]
  show (2 ^ 3 * count.toNat + _) / 2 ^ 3 = _
  omega

theorem heldExclusive_clear (r : EResource) (flag : BitVec 16) :
    heldExclusive { r with flag := flag &&& ~~~resourceOwnedExclusive } = false := by
  unfold heldExclusive
  rw [BitVec.and_assoc, BitVec.and_comm (~~~resourceOwnedExclusive)]
  simp [resourceOwnedExclusive]

/-- Nobody holds the resource, or one thread does and the slot counts its grants. -/
inductive Inv (s : State) : Prop
  | free (entries : s.resource.activeEntries = 0) (owner : s.resource.ownerThread = 0)
    (shared : heldExclusive s.resource = false) (none : ∀ t, s.grants t = [])
  | held (t : Addr) (ne : t ≠ 0) (entries : s.resource.activeEntries = 1)
    (owner : s.resource.ownerThread = t) (some : s.grants t ≠ [])
    (count : (ownerCount s.resource).toNat = (s.grants t).length)
    (lt : (ownerCount s.resource).toNat < 2 ^ 29) (others : ∀ t', t' ≠ t → s.grants t' = [])

theorem Inv.ok {s : State} (h : Inv s) : ResourceOk s := by
  cases h with
  | free he ho hx hn => exact ⟨fun t ht => absurd (hn t) ht, fun _ => ⟨he, ho, hx⟩⟩
  | held t hne he ho hs hc hlt hoth =>
    refine ⟨fun t' ht' => ?_, fun hall => absurd (hall t) hs⟩
    obtain rfl : t' = t := by
      by_contra hne'
      exact ht' (hoth t' hne')
    exact ⟨ho, hc⟩

theorem Inv.excludes {s : State} (h : Inv s) {t : Addr} {exclusive : Bool}
    (hok : Alone s (.acquire t exclusive)) : Excludes s t exclusive := by
  intro hgrant t' hne
  have hnone : s.grants t' = [] := by
    cases h with
    | free he ho hx hn => exact hn t'
    | held t₀ hne₀ he ho hs hc hlt hoth =>
      apply hoth
      rintro rfl
      have hentries : s.resource.activeEntries ≠ 0 := by
        rw [he]
        decide
      unfold takeResource at hgrant
      rw [if_neg hentries] at hgrant
      split at hgrant
      · rename_i hcond
        rcases hcond with hown | ⟨hsh, hx⟩
        · exact hne (ho.symm.trans hown)
        · rcases hok.1 with hex | h0 | hheld | hown
          · rw [hex] at hsh
            cases hsh
          · exact hentries h0
          · rw [hheld] at hx
            cases hx
          · exact hne (ho.symm.trans hown)
      · cases hgrant
  rw [hnone]
  split
  · rfl
  · exact List.not_mem_nil

/-- What a granted acquisition leaves to the thread that holds the resource already. -/
theorem takeResource_again {r : EResource} {t : Addr} (he : r.activeEntries = 1) (ho : r.ownerThread = t)
    (exclusive : Bool) : takeResource r t exclusive = (true, setOwner r t (ownerCount r + 1)) := by
  unfold takeResource
  rw [if_neg (by rw [he]; decide), if_pos (.inl ho)]
  simp [ho]

theorem inv_acquire {s s' : State} {t : Addr} {exclusive : Bool} (h : Inv s)
    (hok : Alone s (.acquire t exclusive)) (hstep : step s (.acquire t exclusive) = some s') : Inv s' := by
  simp only [step] at hstep
  split at hstep
  · cases hstep
  · rename_i hne
    cases h with
    | free he ho hx hn =>
      have htake : (takeResource s.resource t exclusive).1 = true := by
        unfold takeResource
        rw [if_pos he]
      rw [if_pos htake] at hstep
      obtain rfl := Option.some.inj hstep
      have hone : ownerCount (takeResource s.resource t exclusive).2 = 1 := by
        unfold takeResource
        rw [if_pos he]
        exact ownerCount_setOwner _ t (by decide)
      refine .held t hne ?_ ?_ ?_ ?_ ?_ fun t' ht' => ?_
      · show (takeResource s.resource t exclusive).2.activeEntries = 1
        unfold takeResource
        rw [if_pos he]
      · show (takeResource s.resource t exclusive).2.ownerThread = t
        unfold takeResource
        rw [if_pos he]
        rfl
      · simp
      · show (ownerCount (takeResource s.resource t exclusive).2).toNat = _
        rw [hone]
        dsimp only
        rw [Function.update_self, hn]
        rfl
      · show (ownerCount (takeResource s.resource t exclusive).2).toNat < _
        rw [hone]
        decide
      · exact (Function.update_of_ne ht' ..).trans (hn t')
    | held t₀ hne₀ he ho hs hc hlt hoth =>
      by_cases ht : t₀ = t
      · subst ht
        rw [takeResource_again he ho] at hstep
        obtain rfl := Option.some.inj hstep
        have hroom := hok.2 ho
        have hsucc : (ownerCount s.resource + 1).toNat = (ownerCount s.resource).toNat + 1 := by
          rw [BitVec.toNat_add]
          show (_ + 1) % 2 ^ 32 = _
          omega
        have hcount := ownerCount_setOwner s.resource t₀
          (show (ownerCount s.resource + 1).toNat < 2 ^ 29 by omega)
        refine .held t₀ hne₀ he rfl ?_ ?_ ?_ fun t' ht' => ?_
        · simp
        · show (ownerCount (setOwner s.resource t₀ (ownerCount s.resource + 1))).toNat = _
          rw [hcount, hsucc, hc]
          dsimp only
          rw [Function.update_self]
          rfl
        · show (ownerCount (setOwner s.resource t₀ (ownerCount s.resource + 1))).toNat < _
          rw [hcount, hsucc]
          omega
        · exact (Function.update_of_ne ht' ..).trans (hoth t' ht')
      · have hdenied : takeResource s.resource t exclusive = (false, s.resource) := by
          have hentries : s.resource.activeEntries ≠ 0 := by
            rw [he]
            decide
          unfold takeResource
          rw [if_neg hentries, if_neg]
          rintro (hown | ⟨hsh, hx⟩)
          · exact ht (ho.symm.trans hown)
          · rcases hok.1 with hex | h0 | hheld | hown
            · rw [hex] at hsh
              cases hsh
            · exact hentries h0
            · rw [hheld] at hx
              cases hx
            · exact ht (ho.symm.trans hown)
        rw [hdenied] at hstep
        obtain rfl := Option.some.inj hstep
        exact .held t₀ hne₀ he ho hs hc hlt hoth

theorem inv_release {s s' : State} {t : Addr} (h : Inv s) (hstep : step s (.release t) = some s') :
    Inv s' := by
  simp only [step] at hstep
  split at hstep
  · cases hstep
  · rename_i hgrants
    obtain rfl := Option.some.inj hstep
    cases h with
    | free he ho hx hn => exact absurd (hn t) hgrants
    | held t₀ hne₀ he ho hs hc hlt hoth =>
      obtain rfl : t = t₀ := by
        by_contra hne
        exact hgrants (hoth t hne)
      obtain ⟨mode, modes, hmodes⟩ := List.exists_cons_of_ne_nil hgrants
      rw [hmodes, List.length_cons] at hc
      have hcond : ¬ (ownerCount s.resource = 0 ∨ s.resource.activeEntries = 0) := by
        rintro (h0 | h0)
        · rw [h0] at hc
          cases hc
        · rw [he] at h0
          cases h0
      by_cases hone : 1 < ownerCount s.resource
      · have hgt : 1 < (ownerCount s.resource).toNat := hone
        have hrel : releaseResource s.resource =
            setOwner s.resource t (ownerCount s.resource - 1) := by
          unfold releaseResource
          rw [if_neg hcond, if_pos hone, ho]
        have hpred : (ownerCount s.resource - 1).toNat = (ownerCount s.resource).toNat - 1 :=
          BitVec.toNat_sub_of_le (BitVec.le_of_lt hone)
        have hcount := ownerCount_setOwner s.resource t
          (show (ownerCount s.resource - 1).toNat < 2 ^ 29 by omega)
        rw [hrel]
        refine .held t hne₀ he rfl ?_ ?_ ?_ fun t' ht' => ?_
        · dsimp only
          rw [Function.update_self, hmodes, List.tail_cons]
          rintro rfl
          simp only [List.length_nil] at hc
          omega
        · dsimp only
          rw [hcount, hpred, Function.update_self, hmodes, List.tail_cons]
          omega
        · dsimp only
          rw [hcount, hpred]
          omega
        · exact (Function.update_of_ne ht' ..).trans (hoth t' ht')
      · have hle : ¬ 1 < (ownerCount s.resource).toNat := hone
        have hrel : releaseResource s.resource =
            { setOwner s.resource 0 0 with
              activeEntries := 0
              flag := s.resource.flag &&& ~~~resourceOwnedExclusive
              activeCount := 0 } := by
          unfold releaseResource
          rw [if_neg hcond, if_neg hone, he]
          rfl
        have hnil : modes = [] := List.eq_nil_of_length_eq_zero (by omega)
        rw [hrel]
        refine .free rfl rfl (heldExclusive_clear { setOwner s.resource 0 0 with
          activeEntries := 0, activeCount := 0 } s.resource.flag) fun t' => ?_
        by_cases ht' : t' = t
        · dsimp only
          rw [ht', Function.update_self, hmodes, List.tail_cons, hnil]
        · exact (Function.update_of_ne ht' ..).trans (hoth t' ht')

/-- **Exclusion of resources.** In every state of a run in which no thread shares the resource with another
one, a thread that is granted it is alone with it, its grants are counted, and after as many releases the
resource is free. -/
theorem resourceOk_of_alone {s' : State} {actions : List Action}
    (hrun : Run.Steps step Alone {} actions s') :
    ResourceOk s' ∧ ∀ t exclusive, Alone s' (.acquire t exclusive) → Excludes s' t exclusive := by
  have hinv : Inv s' := by
    refine hrun.invariant (fun s action s₁ h hok hstep => ?_)
      (.free rfl rfl (by decide) fun _ => rfl)
    cases action with
    | acquire t exclusive => exact inv_acquire h hok hstep
    | release t => exact inv_release h hstep
  exact ⟨hinv.ok, fun t exclusive hok => hinv.excludes hok⟩

/-- One thread takes the resource twice and gives it back while another one asks for it. -/
theorem resourceOk_of_alone_recursive :
    ∃ s', Run.Steps step Alone {} [.acquire 0x8000 true, .acquire 0xC000 true, .acquire 0x8000 false,
        .release 0x8000, .release 0x8000] s' ∧
      s'.grants 0x8000 = [] ∧ ResourceOk s' ∧ Excludes s' 0xC000 true := by
  have hfacts : ((Run.exec step (fun s action => decide (Alone s action)) {}
      [.acquire 0x8000 true, .acquire 0xC000 true, .acquire 0x8000 false, .release 0x8000,
        .release 0x8000]).map fun s =>
      decide (s.grants 0x8000 = [] ∧ Alone s (.acquire 0xC000 true))) = some true := by
    decide +kernel
  obtain ⟨s', hexec, hs'⟩ := Option.map_eq_some_iff.mp hfacts
  obtain ⟨hnil, halone⟩ := of_decide_eq_true hs'
  have hrun := Run.Steps.of_exec (fun _ _ => of_decide_eq_true) hexec
  obtain ⟨hok, hex⟩ := resourceOk_of_alone hrun
  exact ⟨s', hrun, hnil, hok, hex 0xC000 true halone⟩

/-- A thread that shares the resource with another one is granted it exclusively, and when both have given
back all they were granted the resource is not free. -/
theorem resource_shared_then_exclusive :
    (∃ s, Run.Steps step (fun _ _ => True) {} [.acquire 0x8000 false, .acquire 0xC000 false] s ∧
      ¬ Excludes s 0xC000 true) ∧
    ∃ s', Run.Steps step (fun _ _ => True) {} [.acquire 0x8000 false, .acquire 0xC000 false,
        .release 0x8000, .release 0xC000] s' ∧ ¬ ResourceOk s' := by
  constructor
  · refine ⟨_, .cons trivial rfl (.cons trivial rfl (.nil _)), fun hex => ?_⟩
    have hnone := hex (by decide) 0x8000 (by decide)
    rw [if_pos rfl] at hnone
    revert hnone
    decide
  · refine ⟨_, .cons trivial rfl (.cons trivial rfl (.cons trivial rfl (.cons trivial rfl (.nil _)))),
      fun hok => ?_⟩
    have hfree := (hok.free fun t => ?_).1
    · revert hfree
      decide
    · by_cases ha : t = 0x8000
      · rw [ha]
        rfl
      · by_cases hb : t = 0xC000
        · rw [hb]
          rfl
        · simp [Function.update, ha, hb]

end Kernemul.Resource
