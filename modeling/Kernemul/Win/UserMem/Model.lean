import Kernemul.Emu.Defs
import Kernemul.Lib.Run
import Kernemul.Lib.Segments
import Mathlib.Data.List.AList

/-!
# The user-mode memory manager (`win_user_mem`)

The manager's books are a map of reservations, each with a map of its committed regions, and
`backing`, the frames of pages it has unmapped without giving them up. Below it is the address
space: the page tables, seen as a partial map from page addresses to a frame and its write and
execute bits, and the physical allocator's cursor. The mmu is taken to act on exactly the pages it is
given and never to run out of frames; `Kernemul.Emu.X86` is about how it does, and `OverMmu` is the manager
over an mmu that throws.

Sums of stored addresses are plain: every stored end is at most `userAddrLimit`. Sums that involve a
caller's numbers wrap.
-/

namespace Kernemul.UserMem

open Segments

/-! ## Constants -/

def memCommit : BitVec 32 := 0x00001000
def memReserve : BitVec 32 := 0x00002000
def memDecommit : BitVec 32 := 0x00004000
def memRelease : BitVec 32 := 0x00008000
def memPrivate : BitVec 32 := 0x00020000
def memMapped : BitVec 32 := 0x00040000
def memImage : BitVec 32 := 0x01000000

def pageNoaccess : BitVec 32 := 0x001
def pageReadonly : BitVec 32 := 0x002
def pageReadwrite : BitVec 32 := 0x004
def pageWritecopy : BitVec 32 := 0x008
def pageExecute : BitVec 32 := 0x010
def pageExecuteRead : BitVec 32 := 0x020
def pageExecuteReadwrite : BitVec 32 := 0x040
def pageExecuteWritecopy : BitVec 32 := 0x080
def pageGuard : BitVec 32 := 0x100
def pageProtMask : BitVec 32 := 0xFF

def userAllocBase : Nat := 0x0000000100000000
def userAddrLimit : Nat := 0x00007FFFFFFEFFFF
def allocGranularity : Nat := 0x10000

/-- A `PAGE_*` protection word. -/
abbrev Prot := BitVec 32

/-- Some bit of `mask` is set in `w`. -/
def hasBits (w mask : BitVec 32) : Bool := w &&& mask != 0

inductive Status
  | success
  | invalidParameter
  | noMemory
  | conflictingAddresses
  | unableToFreeVm
  | memoryNotAllocated
  deriving DecidableEq, Repr

def isResident (prot : Prot) : Bool :=
  !hasBits prot pageGuard && prot &&& pageProtMask != pageNoaccess

def toMemProt (prot : Prot) : MemProt :=
  let base := prot &&& pageProtMask
  if base = pageNoaccess then protNone
  else if base = pageReadonly then protRead
  else if base = pageExecute then protExec
  else if base = pageExecuteRead then protRx
  else if base = pageExecuteReadwrite then protRwx
  else if base = pageExecuteWritecopy then protRwx
  else protRw

/-! ## The address space -/

structure Pte where
  frame : Nat
  write : Bool
  exec : Bool
  deriving DecidableEq, Repr

structure Pages where
  pte : Nat → Option Pte
  physNext : Nat
  backing : AList fun _ : Nat => Nat

/-- `p` is one of the pages of `[va, va + size)`. -/
def OnPages (va size p : Nat) : Prop := va ≤ p ∧ p < va + size ∧ IsPage p

instance (va size p : Nat) : Decidable (OnPages va size p) :=
  inferInstanceAs (Decidable (va ≤ p ∧ p < va + size ∧ IsPage p))

def Pages.mapVirt (m : Pages) (va size : Nat) (prot : MemProt) : Pages :=
  { m with
    pte := fun p => if OnPages va size p then some ⟨m.physNext + (p - va), prot.write, prot.exec⟩
      else m.pte p
    physNext := m.physNext + size }

/-- Map the frames from `pa` on behind a range. -/
def Pages.mapVirtPhys (m : Pages) (va pa size : Nat) (prot : MemProt) : Pages :=
  { m with
    pte := fun p => if OnPages va size p then some ⟨pa + (p - va), prot.write, prot.exec⟩
      else m.pte p }

def Pages.unmapVirt (m : Pages) (va size : Nat) : Pages :=
  { m with pte := fun p => if OnPages va size p then none else m.pte p }

def Pages.protVirt (m : Pages) (va size : Nat) (prot : MemProt) : Pages :=
  { m with
    pte := fun p =>
      if OnPages va size p then (m.pte p).map fun e => ⟨e.frame, prot.write, prot.exec⟩
      else m.pte p }

def Pages.virtToPhys (m : Pages) (page : Nat) : Option Nat := (m.pte page).map Pte.frame

/-- How often a loop `for (off = 0; off < size; off += page_size())` runs. -/
def pageCount (size : Nat) : Nat := (size + (pageSize - 1)) / pageSize

/-- The per-page loop of `map_pages`, with `n` pages from `page` on to go. -/
def Pages.mapEach (prot : MemProt) : Nat → Nat → Pages → Pages
  | 0, _, m => m
  | n + 1, page, m =>
    let m := match m.backing.lookup page with
      | none => m.mapVirt page pageSize prot
      | some pa => { m.mapVirtPhys page pa pageSize prot with backing := m.backing.erase page }
    mapEach prot n (page + pageSize) m

/-- Map a range, each page with the frame kept for it or a fresh one. The whole range is mapped at
once when `backing` has no entry from `lower_bound(base)` to the range's end. -/
def Pages.mapPages (m : Pages) (base size : Nat) (prot : Prot) : Pages :=
  let emuProt := toMemProt prot
  if m.backing.keys.any fun k => decide (base ≤ k ∧ k < base + size) then
    m.mapEach emuProt (pageCount size) base
  else m.mapVirt base size emuProt

def Pages.keepPage (m : Pages) (page : Nat) : Pages :=
  match m.virtToPhys page with
  | none => m
  | some pa => { m with backing := m.backing.insert page pa }

/-- The loop of `evict_pages` that keeps the frame of every mapped page. -/
def Pages.keepEach : Nat → Nat → Pages → Pages
  | 0, _, m => m
  | n + 1, page, m => keepEach n (page + pageSize) (m.keepPage page)

def Pages.evictPages (m : Pages) (base size : Nat) : Pages :=
  (m.keepEach (pageCount size) base).unmapVirt base size

/-- The loop of `release_pages` that forgets kept frames. -/
def Pages.dropEach : Nat → Nat → Pages → Pages
  | 0, _, m => m
  | n + 1, page, m => dropEach n (page + pageSize) { m with backing := m.backing.erase page }

def Pages.releasePages (m : Pages) (base size : Nat) : Pages :=
  (m.dropEach (pageCount size) base).unmapVirt base size

def Pages.commitPages (m : Pages) (base size : Nat) (prot : Prot) : Pages :=
  if isResident prot then m.mapPages base size prot else m

def Pages.applyProt (m : Pages) (base size : Nat) (oldProt newProt : Prot) : Pages :=
  let wasResident := isResident oldProt
  let nowResident := isResident newProt
  if wasResident && !nowResident then m.evictPages base size
  else if !wasResident && nowResident then m.mapPages base size newProt
  else if nowResident then m.protVirt base size (toMemProt newProt)
  else m

/-! ## The manager -/

/-- The committed regions of a reservation, with their protections. -/
abbrev Committed := List (Seg Prot)

structure Reservation where
  initialProt : Prot
  type : BitVec 32
  committed : Committed
  deriving DecidableEq

structure State where
  nextFree : Nat
  reservations : List (Seg Reservation)
  pages : Pages

/-- A new manager over an empty address space whose frames start at `phys`. -/
def State.init (phys : Nat) : State where
  nextFree := userAllocBase
  reservations := []
  pages := { pte := fun _ => none, physNext := phys, backing := ∅ }

def findReservation (s : State) (addr : Nat) : Option (Seg Reservation) :=
  find s.reservations addr

def findCommitted (c : Committed) (addr : Nat) : Option (Seg Prot) := find c addr

/-- Put `c` in as the committed map of the reservation at `base`. -/
def State.setCommitted (s : State) (base : Nat) (c : Committed) : State :=
  { s with reservations := modify base (fun r => { r with committed := c }) s.reservations }

/-- The reservation that holds `base`, or the next one when it starts below `base + size`. -/
def overlapping (l : List (Seg Reservation)) (base size : Nat) : Option (Seg Reservation) :=
  match find l base with
  | some r => some r
  | none =>
    match (since base l).head? with
    | some next => if next.base < wrap (base + size) then some next else none
    | none => none

/-- The probing loop of `pick_base`: `some none` when it runs out of address space, `none` when it
has not ended after `fuel` probes. Every probe after the first starts at the end of a clash, so a
loop that ends does so within one probe more than there are reservations. -/
def pickLoop (l : List (Seg Reservation)) (size mask : Nat) : Nat → Nat → Option (Option Nat)
  | 0, _ => none
  | fuel + 1, candidate =>
    if wrap (candidate + size) ≤ userAddrLimit then
      match overlapping l candidate size with
      | none => some (some candidate)
      | some clash => pickLoop l size mask fuel (alignMask clash.stop mask)
    else some none

/-- `pick_base` answers 0 when nothing is free; `none` when its loop never ends. -/
def pickBase (s : State) (size alignment : Nat) : Option (Nat × State) :=
  let mask := max alignment allocGranularity - 1
  match pickLoop s.reservations size mask (s.reservations.length + 1)
      (alignMask s.nextFree mask) with
  | none => none
  | some none => some (0, s)
  | some (some candidate) => some (candidate, { s with nextFree := wrap (candidate + size) })

/-- The loop of `commit_into` over the regions between `cursor` and `stop`, with the gap after the
last one. A region for a gap is put in right before the iterator. -/
def commitLoop (prot : Prot) (stop : Nat) : Committed → Nat → Pages → Committed × Pages
  | [], cursor, m =>
    if cursor < stop then
      ([⟨cursor, stop - cursor, prot⟩], m.commitPages cursor (stop - cursor) prot)
    else ([], m)
  | it :: rest, cursor, m =>
    let gap := it.base - cursor
    let m := if cursor < it.base then m.commitPages cursor gap prot else m
    let m := m.applyProt it.base it.size it.val prot
    let (out, m) := commitLoop prot stop rest it.stop m
    let out := { it with val := prot } :: out
    (if cursor < it.base then ⟨cursor, gap, prot⟩ :: out else out, m)

/-- Commit `[base, base + size)` inside the reservation `res`. -/
def commitInto (s : State) (res : Seg Reservation) (base size : Nat) (prot : Prot) :
    Status × State :=
  let stop := wrap (base + size)
  if stop > res.stop then (.conflictingAddresses, s)
  else
    let c := splitAt (splitAt res.val.committed base) stop
    let (mid, m) := commitLoop prot stop (window base stop c) base s.pages
    let c := mergeAdjacent (below base c ++ (mid ++ above base stop c))
    (.success, { s with pages := m }.setCommitted res.base c)

structure Ret where
  status : Status
  base : Nat
  size : Nat
  deriving DecidableEq, Repr

/-- The second half of `allocate`: a new reservation at `target`. -/
def reserve (s : State) (base size target region : Nat) (doCommit : Bool) (prot : Prot) :
    Ret × State :=
  if target = 0 ∨ wrap (target + region) > userAddrLimit then (⟨.noMemory, base, size⟩, s)
  else
    match overlapping s.reservations target region with
    | some _ => (⟨.conflictingAddresses, base, size⟩, s)
    | none =>
      let committed : Committed := if doCommit then [⟨target, region, prot⟩] else []
      let res : Seg Reservation := ⟨target, region, ⟨prot, memPrivate, committed⟩⟩
      let m := if doCommit then s.pages.commitPages target region prot else s.pages
      (⟨.success, target, region⟩,
        { s with reservations := put res s.reservations, pages := m })

/-- `win_user_mem::allocate`; `none` when `pick_base` never ends. -/
def allocate (s : State) (base size : Nat) (allocType : BitVec 32) (prot : Prot)
    (alignment : Nat) : Option (Ret × State) :=
  let start := pageAlign base
  let region := sizeAlign (wrap (size + (base - start)))
  let doReserve := hasBits allocType memReserve
  let doCommit := hasBits allocType memCommit
  if region = 0 then some (⟨.invalidParameter, base, size⟩, s)
  else if !doReserve && !doCommit then some (⟨.invalidParameter, base, size⟩, s)
  else
    match (if doCommit && !doReserve && base != 0 then findReservation s start else none) with
    | some res =>
      let (status, s) := commitInto s res start region prot
      some (if status = .success then ⟨status, start, region⟩ else ⟨status, base, size⟩, s)
    | none =>
      if base ≠ 0 then
        let target := if doReserve then base - base % allocGranularity else start
        some (reserve s base size target region doCommit prot)
      else
        match pickBase s region alignment with
        | none => none
        | some (target, s) => some (reserve s base size target region doCommit prot)

def releaseAll (m : Pages) (c : Committed) : Pages :=
  c.foldl (fun m it => m.releasePages it.base it.size) m

def free (s : State) (base size : Nat) (freeType : BitVec 32) : Ret × State :=
  let start := pageAlign base
  let res := findReservation s start
  if hasBits freeType memRelease then
    if size ≠ 0 then (⟨.invalidParameter, base, size⟩, s)
    else
      match res with
      | none => (⟨.unableToFreeVm, base, size⟩, s)
      | some res =>
        if res.base ≠ start then (⟨.unableToFreeVm, base, size⟩, s)
        else if res.val.type ≠ memPrivate then (⟨.unableToFreeVm, base, size⟩, s)
        else
          (⟨.success, res.base, res.size⟩,
            { s with
              reservations := s.reservations.filter fun r => r.base ≠ res.base
              pages := releaseAll s.pages res.val.committed })
  else if !hasBits freeType memDecommit then (⟨.invalidParameter, base, size⟩, s)
  else
    match res with
    | none => (⟨.memoryNotAllocated, base, size⟩, s)
    | some res =>
      let region := sizeAlign (wrap (size + (base - start)))
      if region = 0 ∧ res.base ≠ start then (⟨.unableToFreeVm, base, size⟩, s)
      else
        let region := if region = 0 then res.size else region
        let stop := wrap (start + region)
        let c := splitAt (splitAt res.val.committed start) stop
        let s := { s with pages := releaseAll s.pages (window start stop c) }
        (⟨.success, start, region⟩,
          s.setCommitted res.base (below start c ++ above start stop c))

/-- The loop of `protect` over the regions it changes. -/
def protectAll (m : Pages) (newProt : Prot) (c : Committed) : Pages :=
  c.foldl (fun m it => m.applyProt it.base it.size it.val newProt) m

/-- `win_user_mem::protect`; the second component is `old_prot`. -/
def protect (s : State) (base size : Nat) (newProt : Prot) : Ret × Prot × State :=
  let start := pageAlign base
  let region := sizeAlign (wrap (size + (base - start)))
  let stop := wrap (start + region)
  match findReservation s start with
  | none =>
    (⟨.success, start, region⟩, pageReadwrite,
      { s with pages := s.pages.protVirt start region (toMemProt newProt) })
  | some res =>
    match findCommitted res.val.committed start with
    | none => (⟨.success, start, region⟩, res.val.initialProt, s)
    | some first =>
      let c := splitAt (splitAt res.val.committed start) stop
      let w := window start stop c
      let m := protectAll s.pages newProt w
      let w := w.map fun it => { it with val := newProt }
      let c := mergeAdjacent (below start c ++ (w ++ above start stop c))
      (⟨.success, start, region⟩, first.val, { s with pages := m }.setCommitted res.base c)

def handleFault (s : State) (faultAddr : Nat) : Bool × State :=
  let page := pageAlign faultAddr
  match findReservation s page with
  | none => (false, s)
  | some res =>
    match findCommitted res.val.committed page with
    | none =>
      -- reserved but never committed: backed on demand
      let prot := res.val.initialProt
      if !isResident prot then (false, s)
      else
        let m := s.pages.mapPages page pageSize prot
        let c := mergeAdjacent (put ⟨page, pageSize, prot⟩ res.val.committed)
        (true, { s with pages := m }.setCommitted res.base c)
    | some sub =>
      if !hasBits sub.val pageGuard then (false, s)
      else
        let c := splitAt (splitAt res.val.committed page) (wrap (page + pageSize))
        let c := modify page (fun prot => prot &&& ~~~pageGuard) c
        match c.find? fun it => it.base = page with
        | none => (false, s)
        | some hit =>
          let m := s.pages.mapPages page pageSize hit.val
          (true, { s with pages := m }.setCommitted res.base (mergeAdjacent c))

/-- `win_user_mem::alloc_pages` answers 0 when the allocation is refused; `none` when `pick_base` never
ends. -/
def allocPages (s : State) (size : Nat) (prot : Prot) : Option (Nat × State) :=
  (allocate s 0 size (memCommit ||| memReserve) prot 0).map fun (r, s) =>
    (if r.status = .success then r.base else 0, s)

/-- `win_user_mem::register_image` writes the entry at `base` over one that is there. -/
def registerImage (s : State) (base size : Nat) : State :=
  let region := sizeAlign size
  { s with
    reservations := put ⟨base, region, ⟨pageExecuteReadwrite, memImage,
      [⟨base, region, pageExecuteReadwrite⟩]⟩⟩ s.reservations }

/-- `win_user_mem::register_mapped` writes the entry at `base` over one that is there. -/
def registerMapped (s : State) (base size : Nat) (prot : Prot) : State :=
  let region := sizeAlign size
  { s with
    reservations := put ⟨base, region, ⟨prot, memMapped, [⟨base, region, prot⟩]⟩⟩ s.reservations }

/-! ## Runs -/

inductive Call
  | allocate (base size : Nat) (allocType : BitVec 32) (prot : Prot) (alignment : Nat)
  | free (base size : Nat) (freeType : BitVec 32)
  | protect (base size : Nat) (newProt : Prot)
  | handleFault (faultAddr : Nat)
  deriving DecidableEq, Repr

/-- The state after a call; `none` when it never returns. -/
def step (s : State) : Call → Option State
  | .allocate base size allocType prot alignment =>
    (allocate s base size allocType prot alignment).map Prod.snd
  | .free base size freeType => some (free s base size freeType).2
  | .protect base size newProt => some (protect s base size newProt).2.2
  | .handleFault faultAddr => some (handleFault s faultAddr).2

/-- Every base and size of the call is a user-mode number, so no sum of them wraps. -/
def Call.Bounded : Call → Prop
  | .allocate base size _ _ alignment =>
    base ≤ userAddrLimit ∧ size ≤ userAddrLimit ∧ alignment < 2 ^ 64
  | .free base size _ => base ≤ userAddrLimit ∧ size ≤ userAddrLimit
  | .protect base size _ => base ≤ userAddrLimit ∧ size ≤ userAddrLimit
  | .handleFault faultAddr => faultAddr ≤ userAddrLimit

instance : DecidablePred Call.Bounded
  | .allocate .. => inferInstanceAs (Decidable (_ ∧ _ ∧ _))
  | .free .. => inferInstanceAs (Decidable (_ ∧ _))
  | .protect .. => inferInstanceAs (Decidable (_ ∧ _))
  | .handleFault _ => inferInstanceAs (Decidable (_ ≤ _))

end Kernemul.UserMem
