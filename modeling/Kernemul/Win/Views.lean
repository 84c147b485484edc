import Kernemul.Win.UserMem.Ranges

/-!
# Section views

`NtMapViewOfSection` takes pages for a view from the manager of the process that calls it and records
the view in a table of the kernel, by its base alone. `NtUnmapViewOfSection` takes the pages out of the
caller's page tables and the view out of the table, and leaves the manager alone. Callers are threads of
user processes, each with a manager of its own; `mapped` is what each process has mapped and not yet
unmapped, which the kernel does not record.
-/

namespace Kernemul.Views

open Segments UserMem

/-! ## State -/

/-- An image laid out at its virtual addresses, empty when the file is none; and the base it asks for. -/
structure Image where
  size : Nat
  imageBase : Nat

structure File where
  length : Nat
  image : Image

structure SectionHost where
  file : Option File
  size : Nat
  isImage : Bool

/-- The processes' managers, the kernel's table of views and the sections that handles name. -/
structure State where
  mem : Nat → UserMem.State
  views : Nat → Option Nat
  sections : Nat → Option SectionHost
  mapped : Nat → Nat → Option Nat

inductive Status
  | success
  | imageNotAtBase
  | invalidHandle
  | invalidParameter
  | invalidFileForSection
  | invalidImageFormat
  | insufficientResources
  /-- The call did not return to its caller: it touched memory that is not mapped. -/
  | faulted
  /-- What the manager answered. -/
  | memory (status : UserMem.Status)
  deriving DecidableEq, Repr

/-- An in/out parameter: null, memory that is not mapped, or memory that holds a value. -/
inductive Cell
  | null
  | unmapped
  | holds (value : Nat)
  deriving DecidableEq, Repr

/-- `cell ? cell.read() : 0`; `none` for memory that is not mapped. -/
def Cell.read : Cell → Option Nat
  | .null => some 0
  | .unmapped => none
  | .holds value => some value

def isCurrentProcess (handle : Nat) : Bool := handle == 0 || handle == 2 ^ 64 - 1

def State.setMem (s : State) (p : Nat) (m : UserMem.State) : State :=
  { s with mem := Function.update s.mem p m }

@[simp] theorem setMem_self (s : State) (p : Nat) (m : UserMem.State) : (s.setMem p m).mem p = m :=
  Function.update_self ..

variable {p : Nat}

theorem setMem_of_ne (s : State) {q : Nat} (m : UserMem.State) (h : q ≠ p) :
    (s.setMem p m).mem q = s.mem q := Function.update_of_ne h ..

/-- `views[base] = size`, for a view that process `p` mapped. -/
def State.record (s : State) (p base size : Nat) : State :=
  { s with
    views := Function.update s.views base (some size)
    mapped := Function.update s.mapped p (Function.update (s.mapped p) base (some size)) }

/-- `views.erase(base)`, when process `p` unmapped it. -/
def State.erase (s : State) (p base : Nat) : State :=
  { s with
    views := Function.update s.views base none
    mapped := Function.update s.mapped p (Function.update (s.mapped p) base none) }

/-! ## Handlers -/

/-- What `NtMapViewOfSection` is given. -/
structure MapArgs where
  sectionHandle : Nat
  processHandle : Nat
  baseAddress : Operand
  sectionOffset : Cell
  viewSize : Cell
  win32Protect : Prot

def viewExtent (host : SectionHost) (sectionOffset viewSize : Cell) : Except Status (Nat × Nat) :=
  match sectionOffset.read with
  | none => .error .faulted
  | some offset =>
    if offset ≥ host.size then .error .invalidParameter
    else
      match viewSize.read with
      | none => .error .faulted
      | some size =>
        let rest := host.size - offset
        let size := min (if size = 0 then rest else size) rest
        if host.isImage then
          match host.file with
          | none => .error .invalidFileForSection
          | some file =>
            if file.image.size = 0 then .error .invalidImageFormat
            else if offset ≠ 0 then .error .invalidParameter
            else .ok (offset, file.image.size)
        else .ok (offset, size)

def copied (host : SectionHost) (offset size : Nat) : Nat :=
  match host.file with
  | none => 0
  | some file => if host.isImage then file.image.size else min size (file.length - offset)

/-- Every page of a range is mapped, so a write to it goes through. -/
def present (m : Pages) (base size : Nat) : Bool :=
  (List.range (pageCount size)).all fun i => (m.pte (base + i * pageSize)).isSome

/-- The base an image section's file asks for, 0 for any other section. -/
def preferredBase (host : SectionHost) : Nat :=
  match host.file with
  | none => 0
  | some file => if host.isImage then file.image.imageBase else 0

def viewProt (host : SectionHost) (win32Protect : Prot) : Prot :=
  if host.isImage then pageExecuteReadwrite else win32Protect

/-- The end of `NtMapViewOfSection`, when pages at `base` were taken from `p`'s manager. -/
def fillView (s : State) (p : Nat) (a : MapArgs) (host : SectionHost) (offset size base : Nat) :
    Status × State :=
  if !present (s.mem p).pages base (copied host offset size) then (.faulted, s)
  else
    let s := if host.isImage then s.setMem p (registerImage (s.mem p) base size) else s
    if a.baseAddress = .unmapped then (.faulted, s)
    else
      let preferred := preferredBase host
      let rebased := preferred ≠ 0 ∧ base ≠ preferred
      (if rebased then .imageNotAtBase else .success, s.record p base size)

/-- The `NtMapViewOfSection` handler; `none` when the manager never answers. The preferred base of an
image is not tried: the branch that would is switched off. -/
def mapViewOfSection (s : State) (p : Nat) (a : MapArgs) : Option (Status × State) :=
  if !isCurrentProcess a.processHandle then some (.invalidHandle, s)
  else
    match s.sections a.sectionHandle with
    | none => some (.invalidHandle, s)
    | some host =>
      match viewExtent host a.sectionOffset a.viewSize with
      | .error status => some (status, s)
      | .ok (offset, size) =>
        (allocPages (s.mem p) size (viewProt host a.win32Protect)).map fun (base, m) =>
          if base = 0 then (.insufficientResources, s.setMem p m)
          else fillView (s.setMem p m) p a host offset size base

/-- The `NtUnmapViewOfSection` handler. -/
def unmapViewOfSection (s : State) (p processHandle base : Nat) : Status × State :=
  if !isCurrentProcess processHandle then (.invalidHandle, s)
  else
    match s.views base with
    | none => (.invalidParameter, s)
    | some size =>
      let m := s.mem p
      (.success, (s.setMem p { m with pages := m.pages.unmapVirt base size }).erase p base)

def answered (status : UserMem.Status) : Status :=
  if status = .success then .success else .memory status

/-- The `NtAllocateVirtualMemory` handler; `none` when the manager never answers. -/
def allocateVirtualMemory (s : State) (p processHandle : Nat) (baseAddress regionSize : Cell)
    (allocType : BitVec 32) (protect : Prot) : Option (Status × State) :=
  if !isCurrentProcess processHandle then some (.invalidHandle, s)
  else if baseAddress = .null ∨ regionSize = .null then some (.invalidParameter, s)
  else
    match regionSize.read, baseAddress.read with
    | none, _ => some (.faulted, s)
    | some 0, _ => some (.invalidParameter, s)
    | some _, none => some (.faulted, s)
    | some requested, some wanted =>
      if !hasBits allocType (memCommit ||| memReserve) then some (.invalidParameter, s)
      else
        (UserMem.allocate (s.mem p) wanted (sizeAlign requested) allocType protect 0).map
          fun (ret, m) => (answered ret.status, s.setMem p m)

/-- The `NtFreeVirtualMemory` handler. -/
def freeVirtualMemory (s : State) (p processHandle : Nat) (baseAddress regionSize : Cell)
    (freeType : BitVec 32) : Status × State :=
  if !isCurrentProcess processHandle then (.invalidHandle, s)
  else if baseAddress = .null then (.invalidParameter, s)
  else
    match baseAddress.read, regionSize.read with
    | some base, some size =>
      let (ret, m) := UserMem.free (s.mem p) (pageAlign base) size freeType
      (answered ret.status, s.setMem p m)
    | _, _ => (.faulted, s)

/-! ## Runs -/

inductive Call
  | map (a : MapArgs)
  | unmap (processHandle base : Nat)
  | allocate (processHandle : Nat) (baseAddress regionSize : Cell) (allocType : BitVec 32)
      (protect : Prot)
  | free (processHandle : Nat) (baseAddress regionSize : Cell) (freeType : BitVec 32)

def Call.handle : Call → Nat
  | .map a => a.processHandle
  | .unmap processHandle _ => processHandle
  | .allocate processHandle .. => processHandle
  | .free processHandle .. => processHandle

/-- What a call of process `p` answers, and the state it leaves. -/
def perform (s : State) (p : Nat) : Call → Option (Status × State)
  | .map a => mapViewOfSection s p a
  | .unmap processHandle base => some (unmapViewOfSection s p processHandle base)
  | .allocate processHandle baseAddress regionSize allocType protect =>
    allocateVirtualMemory s p processHandle baseAddress regionSize allocType protect
  | .free processHandle baseAddress regionSize freeType =>
    some (freeVirtualMemory s p processHandle baseAddress regionSize freeType)

def step (s : State) (c : Nat × Call) : Option State := (perform s c.1 c.2).map Prod.snd

/-- Processes with well-formed books, none of which has mapped a view. -/
structure Start (s : State) : Prop where
  vad : ∀ p, VadInv (s.mem p)
  views : ∀ base, s.views base = none
  mapped : ∀ p base, s.mapped p base = none

/-! ## What the views have to do with the books -/

/-- The view that `p` has at `base` is recorded, and its pages are a committed range of its size. -/
structure ViewOk (s : State) (p base size : Nat) : Prop where
  recorded : s.views base = some size
  committed : CommittedRange (s.mem p) base (sizeAlign size)

def ViewsAgree (s : State) : Prop :=
  ∀ p base size, s.mapped p base = some size → ViewOk s p base size

/-- Between `s` and `s'` exactly the view that `p` has at `base` is gone: its pages are free in the
manager and not in the page tables, and every other view is as it was. -/
def OnlyUnmapped (s s' : State) (p base : Nat) : Prop :=
  ∃ size, s.mapped p base = some size ∧
    (∀ page, IsPage page → base ≤ page → page < base + sizeAlign size →
      findReservation (s'.mem p) page = none ∧ (s'.mem p).pages.pte page = none) ∧
    ∀ q b n, (q, b) ≠ (p, base) → s.mapped q b = some n →
      ViewOk s' q b n ∧ ∀ page, IsPage page → b ≤ page → page < b + sizeAlign n →
        (s'.mem q).pages.pte page = (s.mem q).pages.pte page

/-! ## The calls that keep them in agreement -/

/-- The view is user-sized, and the table has no view of another size at the base that will be picked;
or the manager refuses. -/
def MapOk (s : State) (p : Nat) (a : MapArgs) : Prop :=
  ∀ host extent, s.sections a.sectionHandle = some host →
    viewExtent host a.sectionOffset a.viewSize = .ok extent →
    (extent.2 ≤ userAddrLimit ∧ ∀ base size, nextBase (s.mem p) extent.2 = some base →
      s.views base = some size → size = extent.2) ∨
    allocPages (s.mem p) extent.2 (viewProt host a.win32Protect) = some (0, s.mem p)

def AllocateOk (s : State) (p : Nat) (baseAddress regionSize : Cell) (allocType : BitVec 32)
    (protect : Prot) : Prop :=
  ∀ wanted requested, baseAddress = .holds wanted → regionSize = .holds requested →
    (wanted ≤ userAddrLimit ∧ sizeAlign requested ≤ userAddrLimit) ∨
    ∃ ret, UserMem.allocate (s.mem p) wanted (sizeAlign requested) allocType protect 0 =
      some (ret, s.mem p)

/-- The numbers are user-mode numbers and no view lies in the reservation they name, or the manager
refuses. -/
def FreeOk (s : State) (p : Nat) (baseAddress regionSize : Cell) (freeType : BitVec 32) : Prop :=
  ∀ base size, baseAddress = .holds base → regionSize.read = some size →
    (pageAlign base ≤ userAddrLimit ∧ size ≤ userAddrLimit ∧
      ∀ res, findReservation (s.mem p) (pageAlign base) = some res → s.mapped p res.base = none) ∨
    (UserMem.free (s.mem p) (pageAlign base) size freeType).2 = s.mem p

/-- No view is unmapped or given up by other means, and none is mapped over the record of another. -/
def Apart (s : State) (c : Nat × Call) : Prop :=
  isCurrentProcess c.2.handle → match c.2 with
    | .map a => MapOk s c.1 a
    | .unmap _ base => s.views base = none
    | .allocate _ baseAddress regionSize allocType protect =>
      AllocateOk s c.1 baseAddress regionSize allocType protect
    | .free _ baseAddress regionSize freeType => FreeOk s c.1 baseAddress regionSize freeType

structure Inv (s : State) : Prop where
  vad : ∀ p, VadInv (s.mem p)
  views : ViewsAgree s

variable {s : State}

theorem Start.inv (h : Start s) : Inv s :=
  ⟨h.vad, fun p base size hm => by rw [h.mapped p base] at hm; cases hm⟩

theorem Inv.setMem (h : Inv s) {m : UserMem.State} (hv : VadInv m) (hk : ∀ base size, s.mapped p base = some size →
      CommittedRange (s.mem p) base (sizeAlign size) → CommittedRange m base (sizeAlign size)) :
    Inv (s.setMem p m) := by
  refine ⟨fun q => ?_, fun q base size hm => ?_⟩
  · by_cases hq : q = p
    · rw [hq, setMem_self]
      exact hv
    · rw [setMem_of_ne s m hq]
      exact h.vad q
  · obtain ⟨h1, h2⟩ := h.views q base size hm
    refine ⟨h1, ?_⟩
    by_cases hq : q = p
    · subst hq
      rw [setMem_self]
      exact hk base size hm h2
    · rw [setMem_of_ne s m hq]
      exact h2

variable {base : Nat}

theorem Inv.record (h : Inv s) {size : Nat} (hc : CommittedRange (s.mem p) base (sizeAlign size))
    (hfree : ∀ n, s.views base = some n → n = size) : Inv (s.record p base size) := by
  refine ⟨h.vad, fun q b n hm => ?_⟩
  by_cases hnew : q = p ∧ b = base
  · obtain ⟨rfl, rfl⟩ := hnew
    simp only [State.record, Function.update_self, Option.some.injEq] at hm
    subst hm
    exact ⟨Function.update_self .., hc⟩
  · have hold : s.mapped q b = some n := by
      simp only [State.record] at hm
      by_cases hq : q = p
      · subst hq
        rwa [Function.update_self, Function.update_of_ne fun hb => hnew ⟨rfl, hb⟩] at hm
      · rwa [Function.update_of_ne hq] at hm
    obtain ⟨h1, h2⟩ := h.views q b n hold
    refine ⟨?_, h2⟩
    simp only [State.record]
    by_cases hb : b = base
    · subst hb
      rw [Function.update_self, hfree n h1]
    · rwa [Function.update_of_ne hb]

/-! ## What a call does -/

theorem setMem_setMem (s : State) (p : Nat) (m m' : UserMem.State) :
    (s.setMem p m).setMem p m' = s.setMem p m' := by
  unfold State.setMem
  rw [Function.update_idem]

theorem fillView_cases (s : State) (p : Nat) (m : UserMem.State) (a : MapArgs) (host : SectionHost)
    (offset size base : Nat) :
    ∃ m', (m' = m ∨ m' = registerImage m base size) ∧
      ((fillView (s.setMem p m) p a host offset size base).2 = s.setMem p m' ∨
        (fillView (s.setMem p m) p a host offset size base).2 = (s.setMem p m').record p base size) := by
  unfold fillView
  rw [setMem_self, setMem_setMem]
  split
  · exact ⟨m, Or.inl rfl, Or.inl rfl⟩
  · cases host.isImage with
    | false =>
      refine ⟨m, Or.inl rfl, ?_⟩
      dsimp only
      split
      · exact Or.inl rfl
      · exact Or.inr rfl
    | true =>
      refine ⟨registerImage m base size, Or.inr rfl, ?_⟩
      dsimp only
      split
      · exact Or.inl rfl
      · exact Or.inr rfl

variable {s' : State}

theorem map_cases {a : MapArgs} {status : Status} (h : mapViewOfSection s p a = some (status, s')) :
    s' = s ∨ isCurrentProcess a.processHandle ∧ ∃ host extent base m,
      s.sections a.sectionHandle = some host ∧
      viewExtent host a.sectionOffset a.viewSize = .ok extent ∧
      allocPages (s.mem p) extent.2 (viewProt host a.win32Protect) = some (base, m) ∧
      (s' = s.setMem p m ∨ base ≠ 0 ∧ ∃ m', (m' = m ∨ m' = registerImage m base extent.2) ∧
        (s' = s.setMem p m' ∨ s' = (s.setMem p m').record p base extent.2)) := by
  unfold mapViewOfSection at h
  split at h
  · cases h
    exact Or.inl rfl
  · rename_i hhandle
    split at h
    · cases h
      exact Or.inl rfl
    · rename_i host hhost
      split at h
      · cases h
        exact Or.inl rfl
      · rename_i offset size hextent
        obtain ⟨⟨base, m⟩, halloc, heq⟩ := Option.map_eq_some_iff.mp h
        refine Or.inr ⟨by simpa using hhandle, host, _, base, m, hhost, hextent, halloc, ?_⟩
        dsimp only at heq
        split at heq
        · cases heq
          exact Or.inl rfl
        · rename_i hbase
          obtain rfl : (fillView (s.setMem p m) p a host offset size base).2 = s' := by rw [heq]
          exact Or.inr ⟨hbase, fillView_cases s p m a host offset size base⟩

theorem setMem_mem (s : State) (p : Nat) : s.setMem p (s.mem p) = s := by
  unfold State.setMem
  rw [Function.update_eq_self]

variable {handle : Nat}

theorem allocate_cases {baseAddress regionSize : Cell} {allocType : BitVec 32} {protect : Prot} {status : Status}
    (h : allocateVirtualMemory s p handle baseAddress regionSize allocType protect =
      some (status, s')) :
    s' = s ∨ isCurrentProcess handle ∧ ∃ wanted requested ret m, baseAddress = .holds wanted ∧
      regionSize = .holds requested ∧
      UserMem.allocate (s.mem p) wanted (sizeAlign requested) allocType protect 0 = some (ret, m) ∧
      s' = s.setMem p m := by
  unfold allocateVirtualMemory at h
  split at h
  · cases h
    exact Or.inl rfl
  · rename_i hhandle
    split at h
    · cases h
      exact Or.inl rfl
    · rename_i hnull
      cases regionSize with
      | null => exact absurd (Or.inr rfl) hnull
      | unmapped =>
        cases h
        exact Or.inl rfl
      | holds requested =>
        cases baseAddress with
        | null => exact absurd (Or.inl rfl) hnull
        | unmapped =>
          cases requested <;> cases h <;> exact Or.inl rfl
        | holds wanted =>
          simp only [Cell.read] at h
          split at h
          · rename_i hnone
            cases hnone
          · cases h
            exact Or.inl rfl
          · rename_i hnone
            cases hnone
          · rename_i h1 h2
            cases h1
            cases h2
            split at h
            · cases h
              exact Or.inl rfl
            · obtain ⟨⟨ret, m⟩, halloc, heq⟩ := Option.map_eq_some_iff.mp h
              cases heq
              exact Or.inr ⟨by simpa using hhandle, wanted, requested, ret, m, rfl, rfl, halloc, rfl⟩

theorem free_cases (s : State) (p handle : Nat) (baseAddress regionSize : Cell) (t : BitVec 32) :
    (freeVirtualMemory s p handle baseAddress regionSize t).2 = s ∨
      isCurrentProcess handle ∧ ∃ base size, baseAddress = .holds base ∧ regionSize.read = some size ∧
        (freeVirtualMemory s p handle baseAddress regionSize t).2 =
          s.setMem p (UserMem.free (s.mem p) (pageAlign base) size t).2 := by
  unfold freeVirtualMemory
  split
  · exact Or.inl rfl
  · rename_i hhandle
    split
    · exact Or.inl rfl
    · rename_i hnull
      split
      · rename_i base size hbase hsize
        refine Or.inr ⟨by simpa using hhandle, base, size, ?_, hsize, rfl⟩
        cases baseAddress with
        | null => exact absurd rfl hnull
        | unmapped => cases hbase
        | holds v =>
          cases hbase
          rfl
      · exact Or.inl rfl

theorem unmap_success (h : unmapViewOfSection s p handle base = (.success, s')) :
    isCurrentProcess handle ∧ ∃ size, s.views base = some size ∧
      s' = (s.setMem p { s.mem p with pages := (s.mem p).pages.unmapVirt base size }).erase p base := by
  unfold unmapViewOfSection at h
  split at h
  · cases h
  · rename_i hhandle
    split at h
    · cases h
    · rename_i size hsize
      cases h
      exact ⟨by simpa using hhandle, size, hsize, rfl⟩

/-! ## Runs that keep them in agreement -/

theorem Inv.map (h : Inv s) {a : MapArgs} {status : Status} (hok : isCurrentProcess a.processHandle → MapOk s p a)
    (hmap : mapViewOfSection s p a = some (status, s')) : Inv s' := by
  rcases map_cases hmap with rfl | ⟨hhandle, host, extent, base, m, hhost, hextent, halloc, hcases⟩
  · exact h
  rcases hok hhandle host extent hhost hextent with ⟨hsize, hfree⟩ | hrefused
  · obtain ⟨ret, hret, -⟩ := allocPages_allocate halloc
    have hb := zero_bounded hsize (viewProt host a.win32Protect)
    have hm : VadInv m := step_vadInv (h.vad p) hb (by rw [UserMem.step, hret]; rfl)
    have hkeep : ∀ {b n}, CommittedRange (s.mem p) b n → CommittedRange m b n :=
      fun hr => hr.allocate (h.vad p) hb hret
    rcases hcases with rfl | ⟨hbase, m', hm', hend⟩
    · exact h.setMem hm fun _ _ _ => hkeep
    -- the view is committed, and registering an image leaves every range committed
    obtain ⟨hnext, hview⟩ := allocPages_spec (h.vad p) hsize halloc hbase
    have hset : Inv (s.setMem p m') ∧ CommittedRange m' base (sizeAlign extent.2) := by
      rcases hm' with rfl | rfl
      · exact ⟨h.setMem hm fun _ _ _ => hkeep, hview⟩
      · exact ⟨h.setMem (registerImage_vadInv hm hview) fun _ _ _ hr => (hkeep hr).registerImage hm hview,
          hview.registerImage hm hview⟩
    rcases hend with rfl | rfl
    · exact hset.1
    · exact hset.1.record (by rw [setMem_self]; exact hset.2) fun n hn => hfree base n hnext hn
  · rw [hrefused] at halloc
    cases halloc
    rcases hcases with rfl | ⟨hbase, -⟩
    · rw [setMem_mem]
      exact h
    · exact absurd rfl hbase

theorem Inv.step {c : Nat × Call} (h : Inv s) (hok : Apart s c) (hstep : Views.step s c = some s') : Inv s' := by
  obtain ⟨p, call⟩ := c
  obtain ⟨⟨status, s₁⟩, hperform, rfl⟩ := Option.map_eq_some_iff.mp hstep
  cases call with
  | map a => exact h.map hok hperform
  | unmap handle base =>
    obtain rfl : (unmapViewOfSection s p handle base).2 = s₁ := by rw [Option.some.inj hperform]
    unfold unmapViewOfSection
    split
    · exact h
    · rename_i hhandle
      have hnone : s.views base = none := hok (by simpa using hhandle : isCurrentProcess handle)
      rw [hnone]
      exact h
  | allocate handle baseAddress regionSize allocType protect =>
    rcases allocate_cases hperform with rfl | ⟨hhandle, wanted, requested, ret, m, hw, hr, halloc, rfl⟩
    · exact h
    rcases hok hhandle wanted requested hw hr with ⟨h1, h2⟩ | ⟨ret', hrefused⟩
    · have hb : (UserMem.Call.allocate wanted (sizeAlign requested) allocType protect 0).Bounded :=
        ⟨h1, h2, by decide⟩
      exact h.setMem (step_vadInv (h.vad p) hb (by rw [UserMem.step, halloc]; rfl))
        fun _ _ _ hr => hr.allocate (h.vad p) hb halloc
    · rw [hrefused] at halloc
      cases halloc
      rw [setMem_mem]
      exact h
  | free handle baseAddress regionSize freeType =>
    obtain rfl : (freeVirtualMemory s p handle baseAddress regionSize freeType).2 = s₁ := by
      rw [Option.some.inj hperform]
    rcases free_cases s p handle baseAddress regionSize freeType with heq |
      ⟨hhandle, base, size, hb, hs, heq⟩
    · rw [heq]
      exact h
    rw [heq]
    rcases hok hhandle base size hb hs with ⟨h1, h2, hother⟩ | hrefused
    · have hbounded : (UserMem.Call.free (pageAlign base) size freeType).Bounded := ⟨h1, h2⟩
      refine h.setMem (step_vadInv (h.vad p) hbounded rfl) fun b n hview hr => ?_
      refine hr.free (h.vad p) hbounded fun res hfind heq => ?_
      rw [pageAlign_of_isPage (isPage_pageAlign base)] at hfind
      rw [← heq, hother res hfind] at hview
      cases hview
    · rw [hrefused, setMem_mem]
      exact h

/-- An unmap that succeeds leaves the pages of the view taken in the manager. -/
theorem unmap_keeps_reservation {size : Nat}
    (h : ViewOk s p base size) (hunmap : unmapViewOfSection s p handle base = (.success, s')) :
    (findReservation (s'.mem p) base).isSome := by
  obtain ⟨-, n, -, rfl⟩ := unmap_success hunmap
  obtain ⟨⟨res, hfind, -, -⟩, -⟩ := h.committed
  have hmem : ((s.setMem p { s.mem p with pages := (s.mem p).pages.unmapVirt base n }).erase p base).mem
      p = { s.mem p with pages := (s.mem p).pages.unmapVirt base n } := setMem_self ..
  rw [hmem]
  exact Option.isSome_iff_exists.mpr ⟨res, hfind⟩

theorem Inv.unmap_wrong (h : Inv s)
    (hunmap : unmapViewOfSection s p handle base = (.success, s')) : ¬ OnlyUnmapped s s' p base := by
  rintro ⟨size, hmapped, hgone, -⟩
  have hview := h.views p base size hmapped
  obtain ⟨res, hres, hb, hs⟩ := hview.committed.reservation (h.vad p)
  have hpos := (h.vad p).valid.pos res hres
  have hpage : IsPage base := hb ▸ ((h.vad p).aligned res hres).1
  have hkept := unmap_keeps_reservation hview hunmap
  rw [(hgone base hpage le_rfl (by omega)).1] at hkept
  cases hkept

/-- **Views in a run of calls that keep apart**: every mapped view is recorded and is a committed range
of exactly its size in its process's manager. An unmap that succeeds from there is never right: it
leaves the pages of the view taken in the manager. -/
theorem views_agree {start s : State} {calls : List (Nat × Call)} (hstart : Start start)
    (h : Run.Steps step Apart start calls s) :
    ViewsAgree s ∧ ∀ p handle base s', unmapViewOfSection s p handle base = (.success, s') →
      ¬ OnlyUnmapped s s' p base := by
  have hinv := h.invariant (fun _ _ _ hs hok hstep => hs.step hok hstep) hstart.inv
  exact ⟨hinv.views, fun _ _ _ _ hunmap => hinv.unmap_wrong hunmap⟩

/-- A check that is enough for `Apart`: nothing is left to a refusal. -/
def apartCheck (s : State) (c : Nat × Call) : Bool :=
  match c.2 with
  | .map a => (s.sections a.sectionHandle).all fun host =>
      match viewExtent host a.sectionOffset a.viewSize with
      | .error _ => true
      | .ok extent => decide (extent.2 ≤ userAddrLimit) &&
          (nextBase (s.mem c.1) extent.2).all fun base => (s.views base).all (· == extent.2)
  | .unmap _ base => (s.views base).isNone
  | .allocate _ (.holds wanted) (.holds requested) _ _ =>
    decide (wanted ≤ userAddrLimit) && decide (sizeAlign requested ≤ userAddrLimit)
  | .allocate .. => true
  | .free _ (.holds base) regionSize _ => regionSize.read.all fun size =>
      decide (pageAlign base ≤ userAddrLimit) && decide (size ≤ userAddrLimit) &&
        (findReservation (s.mem c.1) (pageAlign base)).all fun res => (s.mapped c.1 res.base).isNone
  | .free .. => true

theorem apart_of_check (s : State) (c : Nat × Call) (h : apartCheck s c = true) : Apart s c := by
  obtain ⟨p, call⟩ := c
  intro _
  cases call with
  | map a =>
    intro host extent hhost hextent
    simp only [apartCheck, hhost, Option.all_some, hextent, Bool.and_eq_true, decide_eq_true_eq] at h
    refine Or.inl ⟨h.1, fun base size hbase hsize => ?_⟩
    simpa [hbase, hsize] using h.2
  | unmap handle base => simpa [apartCheck] using h
  | allocate handle baseAddress regionSize allocType protect =>
    intro wanted requested hw hr
    subst hw hr
    simpa [apartCheck] using Or.inl h
  | free handle baseAddress regionSize freeType =>
    intro base size hb hs
    subst hb
    simp only [apartCheck, hs, Option.all_some, Bool.and_eq_true, decide_eq_true_eq] at h
    refine Or.inl ⟨h.1.1, h.1.2, fun res hres => ?_⟩
    simpa [hres] using h.2

/-- No process has mapped anything; 4 names a section of two pages and 8 one of an image. -/
def freshViews : State where
  mem := fun _ => .init 0
  views := fun _ => none
  sections := fun handle =>
    if handle = 4 then some ⟨none, 0x2000, false⟩
    else if handle = 8 then some ⟨some ⟨0x1800, ⟨0x3000, 0x180000000⟩⟩, 0x1800, true⟩
    else none
  mapped := fun _ _ => none

theorem freshViews_start : Start freshViews := ⟨fun _ => init_vadInv 0, fun _ => rfl, fun _ _ => rfl⟩

def mapArgs (sectionHandle : Nat) : MapArgs where
  sectionHandle := sectionHandle
  processHandle := 0
  baseAddress := .mapped
  sectionOffset := .null
  viewSize := .holds 0
  win32Protect := pageReadwrite

/-- Two processes map views at one base; one of them maps an image as well, and takes and gives back a
page. -/
def mappings : List (Nat × Call) :=
  [(0, .map (mapArgs 4)), (1, .map (mapArgs 4)), (0, .map (mapArgs 8)),
    (0, .allocate 0 (.holds 0) (.holds 0x1000) memCommit pageReadwrite),
    (0, .free 0 (.holds 0x100020000) .null memRelease)]

theorem mappings_agree : ∃ s, Run.Steps step Apart freshViews mappings s ∧
    s.mapped 0 0x100000000 = some 0x2000 ∧ s.mapped 1 0x100000000 = some 0x2000 ∧
    s.mapped 0 0x100010000 = some 0x3000 ∧ ViewsAgree s := by
  have hexec : ((Run.exec step apartCheck freshViews mappings).map fun s =>
      (s.mapped 0 0x100000000, s.mapped 1 0x100000000, s.mapped 0 0x100010000)) =
      some (some 0x2000, some 0x2000, some 0x3000) := by decide +kernel
  obtain ⟨s, hs, hval⟩ := Option.map_eq_some_iff.mp hexec
  simp only [Prod.mk.injEq] at hval
  have hrun := Run.Steps.of_exec apart_of_check hs
  exact ⟨s, hrun, hval.1, hval.2.1, hval.2.2, (views_agree freshViews_start hrun).1⟩

theorem unmap_leaves_pages :
    ¬ ∀ start s calls, Start start → Run.Steps step (fun _ _ => True) start calls s →
      ViewsAgree s ∧ ∀ p handle base s', unmapViewOfSection s p handle base = (.success, s') →
        OnlyUnmapped s s' p base := by
  intro hall
  have hexec : ((Run.exec step (fun _ _ => true) freshViews [(0, .map (mapArgs 4))]).map fun s =>
      (s.mapped 0 0x100000000, (unmapViewOfSection s 0 0 0x100000000).1,
        (findReservation ((unmapViewOfSection s 0 0 0x100000000).2.mem 0) 0x100000000).isSome)) =
      some (some 0x2000, .success, true) := by decide +kernel
  obtain ⟨s, hs, hval⟩ := Option.map_eq_some_iff.mp hexec
  simp only [Prod.mk.injEq] at hval
  obtain ⟨hmapped, hok, hkept⟩ := hval
  have hrun := Run.Steps.of_exec (fun _ _ _ => trivial) hs
  obtain ⟨size, hsize, hgone, -⟩ := (hall freshViews s _ freshViews_start hrun).2 0 0 0x100000000 _
    (Prod.ext hok rfl)
  rw [hmapped] at hsize
  cases hsize
  rw [(hgone 0x100000000 (by decide) le_rfl (by decide)).1] at hkept
  cases hkept

end Kernemul.Views
