import Kernemul.Win.UserMem.Query

/-!
# `NtQueryVirtualMemory`, and the walk over an address space

A guest looks at its whole address space by asking for the basic information of one address after the
other, each past the region before. `query` has no answer but success: past the user limit the length of
the free region is a difference that comes out as zero at the limit and wraps behind it, so the walk comes
back to the first address past the limit and stays there.
-/

namespace Kernemul.UserMem

open Segments

inductive VmStatus
  | ofMem (status : Status)
  | invalidHandle
  | invalidInfoClass
  | infoLengthMismatch
  | invalidAddress
  | notSupported
  deriving DecidableEq, Repr

def currentProcessHandle : Nat := 2 ^ 64 - 1

def isCurrentProcess (handle : Nat) : Bool := handle = 0 || handle = currentProcessHandle

def memoryBasicInformation : Nat := 0
def memoryWorkingSetExInformation : Nat := 4
def memoryImageInformation : Nat := 6
def memoryImageExtensionInformation : Nat := 14

def basicInformationSize : Nat := 0x30
def imageInformationSize : Nat := 0x18
def workingSetExInformationSize : Nat := 0x10

/-- `working_set_valid | page_execute_readwrite << working_set_protection_shift`. -/
def workingSetAttributes : Nat := 1 ||| 0x40 <<< 4

/-- What a query reads: the user memory of the caller's process, if it is a user process, the pages its
tables map, the image at an address, and the addresses in the entries of the caller's buffer. -/
structure VmCaller where
  userMem : Option State
  mapped : Nat → Bool
  imageAt : Nat → Option (Nat × Nat) := fun _ => none
  entry : Nat → Nat := fun _ => 0

inductive VmInfo
  | basic (info : MemoryBasicInfo)
  | workingSet (attributes : List Nat)
  | image (base size : Nat)
  deriving DecidableEq, Repr

structure VmAnswer where
  status : VmStatus
  returnLength : Option Nat := none
  info : Option VmInfo := none
  deriving DecidableEq, Repr

/-- The basic information of a page of a process that has no books. -/
def pageInformation (mapped : Bool) (base : Nat) : MemoryBasicInfo where
  baseAddress := base
  allocationBase := if mapped then base else 0
  allocationProtect := if mapped then pageReadwrite else 0
  regionSize := pageSize
  state := if mapped then memCommit else memFree
  protect := if mapped then pageReadwrite else 0
  type := if mapped then memPrivate else 0

/-- `NtQueryVirtualMemory`. -/
def queryVm (c : VmCaller) (processHandle baseAddress cls length : Nat) : VmAnswer :=
  if !isCurrentProcess processHandle then { status := .invalidHandle }
  else if cls = memoryWorkingSetExInformation then
    let count := length / workingSetExInformationSize
    let returnLength := some (count * workingSetExInformationSize)
    if count = 0 then { status := .infoLengthMismatch, returnLength }
    else
      let attributes := (List.range count).map fun i =>
        if c.mapped (pageAlign (c.entry i)) then workingSetAttributes else 0
      { status := .ofMem .success, returnLength, info := some (.workingSet attributes) }
  else if cls = memoryImageInformation then
    let returnLength := some imageInformationSize
    if length < imageInformationSize then { status := .infoLengthMismatch, returnLength }
    else
      match c.imageAt baseAddress with
      | none => { status := .invalidAddress, returnLength }
      | some (base, size) => { status := .ofMem .success, returnLength, info := some (.image base size) }
  else if cls = memoryImageExtensionInformation then { status := .notSupported, returnLength := some 0 }
  else if cls ≠ memoryBasicInformation then { status := .invalidInfoClass }
  else
    let returnLength := some basicInformationSize
    if length < basicInformationSize then { status := .infoLengthMismatch, returnLength }
    else
      match c.userMem with
      | some mem =>
        match query mem baseAddress with
        | (.success, info) => { status := .ofMem .success, returnLength, info := some (.basic info) }
        | (status, _) => { status := .ofMem status, returnLength }
      | none =>
        let base := pageAlign baseAddress
        { status := .ofMem .success, returnLength,
          info := some (.basic (pageInformation (c.mapped base) base)) }

/-! ## The walk -/

/-- One round of the guest's loop: `base_address + region_size`, unless the query fails. -/
def nextRegion (c : VmCaller) (addr : Nat) : Option Nat :=
  match queryVm c currentProcessHandle addr memoryBasicInformation basicInformationSize with
  | { status := .ofMem .success, info := some (.basic info), .. } =>
    some (wrap (info.baseAddress + info.regionSize))
  | _ => none

inductive WalkEnds (next : Nat → Option Nat) : Nat → Prop
  | failed {a : Nat} (h : next a = none) : WalkEnds next a
  | step {a b : Nat} (h : next a = some b) (hlt : a < b) (rest : WalkEnds next b) : WalkEnds next a

def walk (c : VmCaller) : Nat → Nat → Nat
  | 0, a => a
  | n + 1, a => walk c n ((nextRegion c a).getD a)

theorem query_success (s : State) (addr : Nat) : (query s addr).1 = .success := by
  unfold query
  simp only
  split
  · rfl
  · split
    · rfl
    · rfl

theorem query_base (s : State) (addr : Nat) : (query s addr).2.baseAddress = pageAlign addr := by
  unfold query
  simp only
  split
  · rfl
  · split
    · rfl
    · rfl

theorem nextRegion_user {c : VmCaller} {s : State} (h : c.userMem = some s) (addr : Nat) :
    nextRegion c addr = some (wrap (pageAlign addr + (query s addr).2.regionSize)) := by
  have hq : query s addr = (.success, (query s addr).2) := Prod.ext (query_success s addr) rfl
  have hvm : queryVm c currentProcessHandle addr memoryBasicInformation basicInformationSize =
      { status := .ofMem .success, returnLength := some basicInformationSize,
        info := some (.basic (query s addr).2) } := by
    rw [queryVm, if_neg (by decide), if_neg (by decide), if_neg (by decide), if_neg (by decide),
      if_neg (by decide)]
    simp only
    rw [if_neg (by decide), h]
    simp only
    rw [hq]
  rw [nextRegion, hvm, ← query_base s addr]

theorem nextRegion_page {c : VmCaller} (h : c.userMem = none) (addr : Nat) :
    nextRegion c addr = some (wrap (pageAlign addr + pageSize)) := by
  have hvm : queryVm c currentProcessHandle addr memoryBasicInformation basicInformationSize =
      { status := .ofMem .success, returnLength := some basicInformationSize,
        info := some (.basic (pageInformation (c.mapped (pageAlign addr)) (pageAlign addr))) } := by
    rw [queryVm, if_neg (by decide), if_neg (by decide), if_neg (by decide), if_neg (by decide),
      if_neg (by decide)]
    simp only
    rw [if_neg (by decide), h]
  rw [nextRegion, hvm]
  rfl

theorem nextRegion_ne_none (c : VmCaller) (addr : Nat) : nextRegion c addr ≠ none := by
  cases h : c.userMem with
  | some s =>
    rw [nextRegion_user h]
    exact Option.some_ne_none _
  | none =>
    rw [nextRegion_page h]
    exact Option.some_ne_none _

theorem walk_succ (c : VmCaller) (n a : Nat) : walk c (n + 1) a = walk c n ((nextRegion c a).getD a) := rfl

section
variable {s : State} (hs : VadInv s)
include hs

theorem query_uniform {addr : Nat} (haddr : addr ≤ userAddrLimit) : ∃ info hi,
    Uniform s info (pageAlign addr) hi ∧ (query s addr).2.regionSize = distance hi (pageAlign addr) := by
  unfold query
  cases hfind : findReservation s addr with
  | none => exact ⟨_, _, free_uniform hs haddr hfind, rfl⟩
  | some res =>
    obtain ⟨hres, hhas⟩ := hs.booked.of_find hfind
    cases hsub : findCommitted res.val.committed addr with
    | some sub =>
      obtain ⟨hmem, hin⟩ := (find_eq_some (hs.committed res hres).inside.valid).mp hsub
      simp only [hsub]
      exact ⟨_, _, committed_uniform hs hres hmem hin, rfl⟩
    | none =>
      simp only [hsub]
      exact ⟨_, _, reserved_uniform hs hres hhas hsub, rfl⟩

variable {c : VmCaller} (hc : c.userMem = some s)
include hc

/-- Up to the user limit, a round goes up, and not past the first address behind the limit. -/
theorem nextRegion_below {addr : Nat} (haddr : addr ≤ userAddrLimit) :
    ∃ hi, nextRegion c addr = some hi ∧ addr < hi ∧ hi ≤ userAddrLimit + 1 := by
  obtain ⟨info, hi, hu, hsize⟩ := query_uniform hs haddr
  have hlt := hu.lt
  have hbound := hu.bound
  have hpage := lt_pageAlign_add addr
  have hnext := (isPage_pageAlign addr).add_le_of_lt hu.page hlt
  refine ⟨hi, ?_, by omega, hbound⟩
  rw [nextRegion_user hc, hsize, hu.distance, Nat.add_sub_cancel' hlt.le]
  exact congrArg some (wrap_of_lt (lt_of_le_of_lt hbound (by decide)))

theorem nextRegion_past {addr : Nat} (hlo : userAddrLimit < addr) (hhi : addr < 2 ^ 64) :
    nextRegion c addr = some (userAddrLimit + 1) := by
  have hpage : userAddrLimit + 1 ≤ pageAlign addr := by
    have hlimit : IsPage (userAddrLimit + 1) := by decide
    exact hlimit.le_pageAlign hlo
  have hle := pageAlign_le addr
  have hfind : findReservation s addr = none := (find_eq_none hs.valid).mpr fun r hr hhas => by
    have h1 := hs.limit r hr
    have h2 := hhas.2
    omega
  have hafter : after addr s.reservations = none := by
    cases ha : after addr s.reservations with
    | none => rfl
    | some next =>
      obtain ⟨hmem, hlt, -⟩ := after_eq_some hs.valid ha
      have h1 := hs.limit next hmem
      have h2 := hs.valid.base_lt_stop hmem
      omega
  have hsize : (query s addr).2.regionSize = distance (userAddrLimit + 1) (pageAlign addr) := by
    unfold query
    simp only [hfind, hafter]
  rw [nextRegion_user hc, hsize]
  unfold distance wrap userAddrLimit
  unfold userAddrLimit at hpage
  congr 1
  omega

theorem walk_settled (n : Nat) : walk c n (userAddrLimit + 1) = userAddrLimit + 1 := by
  induction n with
  | zero => rfl
  | succ n ih =>
    rw [walk_succ, nextRegion_past hs hc (Nat.lt_succ_self _) (by decide)]
    exact ih

/-- The walk comes to the first address behind the user limit, and stays there. -/
theorem walk_settles {addr : Nat} (haddr : addr < 2 ^ 64) :
    ∃ n, ∀ m, n ≤ m → walk c m addr = userAddrLimit + 1 := by
  -- on the distance to the limit; past the limit one round is enough
  induction hd : userAddrLimit + 1 - addr using Nat.strong_induction_on generalizing addr with
  | _ d ih =>
    have hround : ∃ b, nextRegion c addr = some b ∧
        ∃ n, ∀ m, n ≤ m → walk c m b = userAddrLimit + 1 := by
      by_cases hle : addr ≤ userAddrLimit
      · obtain ⟨b, hb, hlt, hbound⟩ := nextRegion_below hs hc hle
        exact ⟨b, hb, ih (userAddrLimit + 1 - b) (by omega) (lt_of_le_of_lt hbound (by decide)) rfl⟩
      · exact ⟨_, nextRegion_past hs hc (Nat.lt_of_not_le hle) haddr, 0, fun m _ => walk_settled hs hc m⟩
    obtain ⟨b, hb, n, hn⟩ := hround
    refine ⟨n + 1, fun m hm => ?_⟩
    obtain ⟨k, rfl⟩ : ∃ k, m = k + 1 := ⟨m - 1, by omega⟩
    rw [walk_succ, hb]
    exact hn k (by omega)

end

theorem not_walkEnds {next : Nat → Option Nat} (h : ∀ a, next a ≠ none) (a : Nat) : ¬ WalkEnds next a := by
  intro hends
  induction hends with
  | failed hnone => exact h _ hnone
  | step _ _ _ ih => exact ih

/-- **The walk never ends**: in no state and from no address does it come to a query that fails. Instead it
comes to the first address behind the user limit, where the region has no bytes, and stays there. -/
theorem virtualQuery_never_ends (c : VmCaller) (addr : Nat) :
    ¬ WalkEnds (nextRegion c) addr ∧
      ∀ phys requests s, PlainRun phys requests s → c.userMem = some s → addr < 2 ^ 64 →
        ∃ n, ∀ m, n ≤ m → walk c m addr = userAddrLimit + 1 :=
  ⟨not_walkEnds (nextRegion_ne_none c) addr,
    fun _ _ _ h hc haddr => walk_settles (plainRun_vadInv h) hc haddr⟩

theorem virtualQuery_middle : ∃ s, PlainRun 0 middleCommitted s ∧
    ¬ WalkEnds (nextRegion ⟨some s, fun _ => false, fun _ => none, fun _ => 0⟩) 0x100001008 ∧
    ∃ n, ∀ m, n ≤ m →
      walk ⟨some s, fun _ => false, fun _ => none, fun _ => 0⟩ m 0x100001008 = userAddrLimit + 1 := by
  have hexec : ((Run.exec serve plainCheck (State.init 0) middleCommitted).map fun s =>
      s.reservations.length) = some 1 := by decide +kernel
  obtain ⟨s, hs, -⟩ := Option.map_eq_some_iff.mp hexec
  have hrun : PlainRun 0 middleCommitted s := .of_exec (fun _ _ => of_decide_eq_true) hs
  obtain ⟨hnever, hsettle⟩ :=
    virtualQuery_never_ends ⟨some s, fun _ => false, fun _ => none, fun _ => 0⟩ 0x100001008
  exact ⟨s, hrun, hnever, hsettle 0 middleCommitted s hrun rfl (by decide)⟩

/-- The first address behind the user limit is free, for no bytes. -/
theorem query_limit : ¬ ∀ phys requests s (c : VmCaller) addr, PlainRun phys requests s →
    c.userMem = some s → addr < 2 ^ 64 → WalkEnds (nextRegion c) addr := by
  intro hall
  exact not_walkEnds (nextRegion_ne_none _) _
    (hall 0 [] (State.init 0) ⟨some (State.init 0), fun _ => false, fun _ => none, fun _ => 0⟩
      (userAddrLimit + 1) (.nil _) rfl (by decide))

example : query (State.init 0) (userAddrLimit + 1) =
    (.success, { baseAddress := userAddrLimit + 1, state := memFree, protect := pageNoaccess }) := by
  decide

end Kernemul.UserMem
