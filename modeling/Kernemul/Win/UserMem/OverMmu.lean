import Kernemul.Win.UserMem.Query

/-!
# The manager over an mmu that throws

`map_virt` and `map_virt_phys` throw when guest memory runs out, with the tables as far as they have come. The
manager catches nothing: its books stay as the call had them then, and somebody up the stack catches the
exception. A call that threw answers nothing here.

The mmu is any `MmuCalls`; `UserMem.State` is the manager over one that acts on exactly the pages it is given
and never throws.
-/

namespace Kernemul.UserMem.OverMmu

open Segments

/-! ## The address space -/

/-- What the manager calls the mmu for, on states that hold the address space. A mapping also says whether it
came to its end. -/
structure MmuCalls (M : Type) where
  mapVirt : M → Nat → Nat → MemProt → M × Bool
  mapVirtPhys : M → Nat → Nat → Nat → MemProt → M × Bool
  unmapVirt : M → Nat → Nat → M
  protVirt : M → Nat → Nat → MemProt → M
  virtToPhys : M → Nat → Option Nat

structure Memory (M : Type) where
  mmu : M
  backing : AList fun _ : Nat => Nat

variable {M : Type} (calls : MmuCalls M)

/-- The per-page loop of `map_pages`, with `n` pages from `page` on to go. A kept frame is given up once it is
mapped. -/
def mapEach (prot : MemProt) : Nat → Nat → Memory M → Memory M × Bool
  | 0, _, m => (m, true)
  | n + 1, page, m =>
    match m.backing.lookup page with
    | none =>
      match calls.mapVirt m.mmu page pageSize prot with
      | (u, false) => ({ m with mmu := u }, false)
      | (u, true) => mapEach prot n (page + pageSize) { m with mmu := u }
    | some pa =>
      match calls.mapVirtPhys m.mmu page pa pageSize prot with
      | (u, false) => ({ m with mmu := u }, false)
      | (u, true) => mapEach prot n (page + pageSize) ⟨u, m.backing.erase page⟩

/-- `map_pages`, and whether it came to its end. -/
def mapPages (m : Memory M) (base size : Nat) (prot : Prot) : Memory M × Bool :=
  let emuProt := toMemProt prot
  if m.backing.keys.any fun k => decide (base ≤ k ∧ k < base + size) then
    mapEach calls emuProt (pageCount size) base m
  else
    match calls.mapVirt m.mmu base size emuProt with
    | (u, done) => ({ m with mmu := u }, done)

def keepPage (m : Memory M) (page : Nat) : Memory M :=
  match calls.virtToPhys m.mmu page with
  | none => m
  | some pa => { m with backing := m.backing.insert page pa }

def keepEach : Nat → Nat → Memory M → Memory M
  | 0, _, m => m
  | n + 1, page, m => keepEach n (page + pageSize) (keepPage calls m page)

def evictPages (m : Memory M) (base size : Nat) : Memory M :=
  let m := keepEach calls (pageCount size) base m
  { m with mmu := calls.unmapVirt m.mmu base size }

def dropEach : Nat → Nat → Memory M → Memory M
  | 0, _, m => m
  | n + 1, page, m => dropEach n (page + pageSize) { m with backing := m.backing.erase page }

def releasePages (m : Memory M) (base size : Nat) : Memory M :=
  let m := dropEach (pageCount size) base m
  { m with mmu := calls.unmapVirt m.mmu base size }

def commitPages (m : Memory M) (base size : Nat) (prot : Prot) : Memory M × Bool :=
  if isResident prot then mapPages calls m base size prot else (m, true)

/-- `apply_prot` maps, and so can throw, when it makes pages accessible. -/
def applyProt (m : Memory M) (base size : Nat) (oldProt newProt : Prot) : Memory M × Bool :=
  let wasResident := isResident oldProt
  let nowResident := isResident newProt
  if wasResident && !nowResident then (evictPages calls m base size, true)
  else if !wasResident && nowResident then mapPages calls m base size newProt
  else if nowResident then
    ({ m with mmu := calls.protVirt m.mmu base size (toMemProt newProt) }, true)
  else (m, true)

/-! ## The manager -/

structure Manager (M : Type) where
  nextFree : Nat
  reservations : List (Seg Reservation)
  memory : Memory M

def Manager.init (m : M) : Manager M where
  nextFree := userAllocBase
  reservations := []
  memory := ⟨m, ∅⟩

def Manager.books (s : Manager M) : State where
  nextFree := s.nextFree
  reservations := s.reservations
  pages := (State.init 0).pages

/-- Put `c` in as the committed map of the reservation at `base`. -/
def Manager.setCommitted (s : Manager M) (base : Nat) (c : Committed) : Manager M :=
  { s with reservations := modify base (fun r => { r with committed := c }) s.reservations }

/-- The loop of `commit_into`: the regions as it leaves them, and whether it came to its end. The region for a gap
goes in before the next region is looked at. -/
def commitLoop (prot : Prot) (stop : Nat) : Committed → Nat → Memory M → Committed × Memory M × Bool
  | [], cursor, m =>
    if cursor < stop then
      match commitPages calls m cursor (stop - cursor) prot with
      | (m, false) => ([], m, false)
      | (m, true) => ([⟨cursor, stop - cursor, prot⟩], m, true)
    else ([], m, true)
  | it :: rest, cursor, m =>
    let gap := it.base - cursor
    match if cursor < it.base then commitPages calls m cursor gap prot else (m, true) with
    | (m, false) => (it :: rest, m, false)
    | (m, true) =>
      let filled : Committed := if cursor < it.base then [⟨cursor, gap, prot⟩] else []
      match applyProt calls m it.base it.size it.val prot with
      | (m, false) => (filled ++ it :: rest, m, false)
      | (m, true) =>
        match commitLoop prot stop rest it.stop m with
        | (out, m, done) => (filled ++ { it with val := prot } :: out, m, done)

/-- `commit_into`. Only a loop that came to its end is followed by the merge. -/
def commitInto (s : Manager M) (res : Seg Reservation) (base size : Nat) (prot : Prot) :
    Option Status × Manager M :=
  let stop := wrap (base + size)
  if stop > res.stop then (some .conflictingAddresses, s)
  else
    let c := splitAt (splitAt res.val.committed base) stop
    match commitLoop calls prot stop (window base stop c) base s.memory with
    | (mid, m, done) =>
      let c := below base c ++ (mid ++ above base stop c)
      if done then (some .success, { s with memory := m }.setCommitted res.base (mergeAdjacent c))
      else (none, { s with memory := m }.setCommitted res.base c)

/-- The second half of `allocate`. The entry for the reservation is there, with nothing committed, before its
pages are mapped. -/
def reserve (s : Manager M) (base size target region : Nat) (doCommit : Bool) (prot : Prot) :
    Option Ret × Manager M :=
  if target = 0 ∨ wrap (target + region) > userAddrLimit then (some ⟨.noMemory, base, size⟩, s)
  else
    match overlapping s.reservations target region with
    | some _ => (some ⟨.conflictingAddresses, base, size⟩, s)
    | none =>
      let entry (committed : Committed) : Seg Reservation :=
        ⟨target, region, ⟨prot, memPrivate, committed⟩⟩
      if doCommit then
        match commitPages calls s.memory target region prot with
        | (m, false) =>
          (none, { s with reservations := put (entry []) s.reservations, memory := m })
        | (m, true) =>
          (some ⟨.success, target, region⟩,
            { s with
              reservations := put (entry [⟨target, region, prot⟩]) s.reservations
              memory := m })
      else
        (some ⟨.success, target, region⟩, { s with reservations := put (entry []) s.reservations })

/-- `win_user_mem::allocate`; `none` when `pick_base` never ends. -/
def allocate (s : Manager M) (base size : Nat) (allocType : BitVec 32) (prot : Prot)
    (alignment : Nat) : Option (Option Ret × Manager M) :=
  let start := pageAlign base
  let region := sizeAlign (wrap (size + (base - start)))
  let doReserve := hasBits allocType memReserve
  let doCommit := hasBits allocType memCommit
  if region = 0 then some (some ⟨.invalidParameter, base, size⟩, s)
  else if !doReserve && !doCommit then some (some ⟨.invalidParameter, base, size⟩, s)
  else
    match (if doCommit && !doReserve && base != 0 then findReservation s.books start else none) with
    | some res =>
      match commitInto calls s res start region prot with
      | (none, s) => some (none, s)
      | (some status, s) =>
        some (some (if status = .success then ⟨status, start, region⟩ else ⟨status, base, size⟩), s)
    | none =>
      if base ≠ 0 then
        let target := if doReserve then base - base % allocGranularity else start
        some (reserve calls s base size target region doCommit prot)
      else
        -- `pick_base` looks at the reservations and moves the cursor
        match pickBase s.books region alignment with
        | none => none
        | some (target, b) =>
          some (reserve calls { s with nextFree := b.nextFree } base size target region doCommit prot)

def releaseAll (m : Memory M) (c : Committed) : Memory M :=
  c.foldl (fun m it => releasePages calls m it.base it.size) m

/-- `win_user_mem::free` maps nothing, so it always answers. -/
def free (s : Manager M) (base size : Nat) (freeType : BitVec 32) : Ret × Manager M :=
  let start := pageAlign base
  let res := findReservation s.books start
  if hasBits freeType memRelease then
    if size ≠ 0 then (⟨.invalidParameter, base, size⟩, s)
    else
      match res with
      | none => (⟨.unableToFreeVm, base, size⟩, s)
      | some res =>
        if res.base ≠ start then (⟨.unableToFreeVm, base, size⟩, s)
        else if res.val.type ≠ memPrivate then (⟨.unableToFreeVm, base, size⟩, s)
        else
          (⟨.success, res.base, res.size⟩,
            { s with
              reservations := s.reservations.filter fun r => r.base ≠ res.base
              memory := releaseAll calls s.memory res.val.committed })
  else if !hasBits freeType memDecommit then (⟨.invalidParameter, base, size⟩, s)
  else
    match res with
    | none => (⟨.memoryNotAllocated, base, size⟩, s)
    | some res =>
      let region := sizeAlign (wrap (size + (base - start)))
      if region = 0 ∧ res.base ≠ start then (⟨.unableToFreeVm, base, size⟩, s)
      else
        let region := if region = 0 then res.size else region
        let stop := wrap (start + region)
        let c := splitAt (splitAt res.val.committed start) stop
        let s := { s with memory := releaseAll calls s.memory (window start stop c) }
        (⟨.success, start, region⟩,
          s.setCommitted res.base (below start c ++ above start stop c))

/-- The loop of `protect`: a region gets its new protection once `apply_prot` has come to its end. -/
def protectLoop (newProt : Prot) : Committed → Memory M → Committed × Memory M × Bool
  | [], m => ([], m, true)
  | it :: rest, m =>
    match applyProt calls m it.base it.size it.val newProt with
    | (m, false) => (it :: rest, m, false)
    | (m, true) =>
      match protectLoop newProt rest m with
      | (out, m, done) => ({ it with val := newProt } :: out, m, done)

/-- `win_user_mem::protect`; the second half of the answer is `old_prot`. -/
def protect (s : Manager M) (base size : Nat) (newProt : Prot) : Option (Ret × Prot) × Manager M :=
  let start := pageAlign base
  let region := sizeAlign (wrap (size + (base - start)))
  let stop := wrap (start + region)
  match findReservation s.books start with
  | none =>
    let mmu := calls.protVirt s.memory.mmu start region (toMemProt newProt)
    (some (⟨.success, start, region⟩, pageReadwrite), { s with memory := { s.memory with mmu } })
  | some res =>
    match findCommitted res.val.committed start with
    | none => (some (⟨.success, start, region⟩, res.val.initialProt), s)
    | some first =>
      let c := splitAt (splitAt res.val.committed start) stop
      match protectLoop calls newProt (window start stop c) s.memory with
      | (w, m, done) =>
        let c := below start c ++ (w ++ above start stop c)
        if done then
          (some (⟨.success, start, region⟩, first.val),
            { s with memory := m }.setCommitted res.base (mergeAdjacent c))
        else (none, { s with memory := m }.setCommitted res.base c)

def handleFault (s : Manager M) (faultAddr : Nat) : Option Bool × Manager M :=
  let page := pageAlign faultAddr
  match findReservation s.books page with
  | none => (some false, s)
  | some res =>
    match findCommitted res.val.committed page with
    | none =>
      let prot := res.val.initialProt
      if !isResident prot then (some false, s)
      else
        match mapPages calls s.memory page pageSize prot with
        | (m, false) => (none, { s with memory := m })
        | (m, true) =>
          let c := mergeAdjacent (put ⟨page, pageSize, prot⟩ res.val.committed)
          (some true, { s with memory := m }.setCommitted res.base c)
    | some sub =>
      if !hasBits sub.val pageGuard then (some false, s)
      else
        let c := splitAt (splitAt res.val.committed page) (wrap (page + pageSize))
        let c := modify page (fun prot => prot &&& ~~~pageGuard) c
        match c.find? fun it => it.base = page with
        | none => (some false, s)
        | some hit =>
          -- the guard bit is off already when the page is mapped
          match mapPages calls s.memory page pageSize hit.val with
          | (m, false) => (none, { s with memory := m }.setCommitted res.base c)
          | (m, true) => (some true, { s with memory := m }.setCommitted res.base (mergeAdjacent c))

/-- `win_user_mem::query` reads the books only. -/
def query (s : Manager M) (addr : Nat) : Status × MemoryBasicInfo := UserMem.query s.books addr

def registerImage (s : Manager M) (base size : Nat) : Manager M :=
  { s with reservations := (UserMem.registerImage s.books base size).reservations }

def registerMapped (s : Manager M) (base size : Nat) (prot : Prot) : Manager M :=
  { s with reservations := (UserMem.registerMapped s.books base size prot).reservations }

/-! ## Runs -/

/-- Whether a call came to its end, and the manager it leaves; `none` when it never returns. -/
def perform (s : Manager M) : Call → Option (Bool × Manager M)
  | .allocate base size allocType prot alignment =>
    (allocate calls s base size allocType prot alignment).map fun r => (r.1.isSome, r.2)
  | .free base size freeType => some (true, (free calls s base size freeType).2)
  | .protect base size newProt =>
    let r := protect calls s base size newProt
    some (r.1.isSome, r.2)
  | .handleFault faultAddr =>
    let r := handleFault calls s faultAddr
    some (r.1.isSome, r.2)

/-- Whoever catches the exception goes on with the manager as it is. -/
def step (s : Manager M) (call : Call) : Option (Manager M) := (perform calls s call).map Prod.snd

/-- A `map_virt` or `map_virt_phys` of the call throws. -/
def throws (s : Manager M) (call : Call) : Bool := (perform calls s call).any fun r => !r.1

/-- The manager after a request; `none` when it never returns. -/
def serve (s : Manager M) : Request → Option (Manager M)
  | .call call => step calls s call
  | .registerImage base size => some (registerImage s base size)
  | .registerMapped base size prot => some (registerMapped s base size prot)

end Kernemul.UserMem.OverMmu
