import Kernemul.Emu.Defs
import Kernemul.Lib.Run
import Kernemul.Lib.SegmentEdit
import Mathlib.Data.List.AList

/-!
# The kernel pool (`win_pool`)

The pool keeps a map of blocks over the runs it has reserved. `allocate` takes the first free block
with room at an aligned address and cuts it up to three ways; `free` joins a block with its
neighbours. What `addr_space::alloc` answers when a run is reserved is a parameter of `allocate`. Filling a block
with zeros writes guest memory only and is left out.

Beside the blocks, `World` keeps what the callers have seen: the runs handed to the pool and the
allocations not yet freed.
-/

namespace Kernemul.Pool

open Segments

def poolAlignment : Nat := 16
def runSize : Nat := 0x100000

/-- `align_up`, to a power of two. -/
def alignUp (size granule : Nat) : Nat := alignMask size (granule - 1)

structure Block where
  requested : Nat := 0
  tag : BitVec 32 := 0
  free : Bool := true
  deriving DecidableEq, Repr

abbrev Blocks := List (Seg Block)

/-- `win_pool::reserve`: the key of the new block and the blocks with it; `none` when
`addr_space::alloc` throws. -/
def reserve (blocks : Blocks) (size : Nat) (alloc : Option Nat) : Option (Nat × Blocks) :=
  let reserved := alignUp (max size runSize) pageSize
  alloc.map fun base => (base, emplace ⟨base, reserved, {}⟩ blocks)

/-- The first free block with room for `needed` bytes at an aligned address: its key and that
address. Differences of addresses are taken on 64 bits. -/
def firstFit (alignment needed : Nat) : Blocks → Option (Nat × Nat)
  | [] => none
  | cur :: rest =>
    if !cur.val.free then firstFit alignment needed rest
    else
      let aligned := alignUp cur.base alignment
      if cur.size ≥ wrap (wrap (aligned + 2 ^ 64 - cur.base) + needed) then some (cur.base, aligned)
      else firstFit alignment needed rest

/-- The size of the block at key `k`. -/
def blockSize (blocks : Blocks) (k : Nat) : Nat := ((byKey blocks k).map Seg.size).getD 0

/-- The part of a block before the aligned address stays free; the key of the block that starts at
that address, and the blocks. -/
def cutLead (blocks : Blocks) (it addr : Nat) : Nat × Blocks :=
  let lead := wrap (addr + 2 ^ 64 - it)
  if lead > 0 then
    let rest := blockSize blocks it - lead
    (addr, emplace ⟨addr, rest, {}⟩ (resize it lead blocks))
  else (it, blocks)

def cutTail (blocks : Blocks) (it addr needed : Nat) : Blocks :=
  let chosen := blockSize blocks it
  if chosen > needed then
    resize it needed (emplace ⟨wrap (addr + needed), chosen - needed, {}⟩ blocks)
  else blocks

/-- The block an allocation is cut from and the address inside it, found among the blocks or reserved
with room for the padding. -/
def chooseBlock (blocks : Blocks) (alignment needed : Nat) (alloc : Option Nat) :
    Option (Nat × Nat × Blocks) :=
  match firstFit alignment needed blocks with
  | some (it, addr) => some (it, addr, blocks)
  | none => (reserve blocks (wrap (needed + alignment)) alloc).map fun (it, blocks) =>
      (it, alignUp it alignment, blocks)

def alignmentFor (size : Nat) : Nat := if size ≥ pageSize then pageSize else poolAlignment

/-- Cut the chosen block and hand out the part at `addr`. -/
def carve (blocks : Blocks) (it addr needed size : Nat) (tag : BitVec 32) : Blocks :=
  let lead := cutLead blocks it addr
  let blocks := cutTail lead.2 lead.1 addr needed
  modify lead.1 (fun b => { b with free := false, requested := size, tag := tag }) blocks

/-- `win_pool::allocate`: the address and the blocks; `none` when a run cannot be reserved. -/
def allocate (blocks : Blocks) (size : Nat) (tag : BitVec 32) (alloc : Option Nat) :
    Option (Nat × Blocks) :=
  if size = 0 then some (0, blocks)
  else
    let needed := alignUp size poolAlignment
    (chooseBlock blocks (alignmentFor size) needed alloc).map fun (it, addr, blocks) =>
      (addr, carve blocks it addr needed size tag)

/-- Join the block at `it` with the one behind it, when that is free and they touch. -/
def joinNext (blocks : Blocks) (it : Nat) : Blocks :=
  match (since (it + 1) blocks).head? with
  | none => blocks
  | some next =>
    if next.val.free ∧ wrap (it + blockSize blocks it) = next.base then
      erase next.base (resize it (blockSize blocks it + next.size) blocks)
    else blocks

/-- Join the block before `it` with the one at `it`, when that is free and they touch. -/
def joinPrev (blocks : Blocks) (it : Nat) : Blocks :=
  match (below it blocks).getLast? with
  | none => blocks
  | some prev =>
    if prev.val.free ∧ wrap (prev.base + prev.size) = it then
      erase it (resize prev.base (prev.size + blockSize blocks it) blocks)
    else blocks

/-- `win_pool::free`: the size and tag of the allocation, and the blocks. -/
def free (blocks : Blocks) (addr : Nat) : Option (Nat × BitVec 32) × Blocks :=
  match byKey blocks addr with
  | none => (none, blocks)
  | some it =>
    if it.val.free then (none, blocks)
    else
      let blocks := modify addr (fun b => { b with free := true }) blocks
      (some (it.val.requested, it.val.tag), joinPrev (joinNext blocks addr) addr)

/-! ## Runs -/

/-- The pool with what its callers have seen: the runs reserved for it, and the allocations not yet
freed with their sizes and tags. -/
structure World where
  blocks : Blocks
  runs : List (Seg Unit)
  live : AList fun _ : Nat => Nat × BitVec 32

def World.init : World := ⟨[], [], ∅⟩

/-- A call on the pool; `alloc` is what `addr_space::alloc` answers during it. -/
inductive Call
  | allocate (size : Nat) (tag : BitVec 32) (alloc : Option Nat)
  | free (addr : Nat)

/-- The run an `allocate` reserves, if it does. -/
def newRun (blocks : Blocks) (size : Nat) (alloc : Option Nat) : Option (Seg Unit) :=
  let needed := alignUp size poolAlignment
  let reserved := alignUp (max (wrap (needed + alignmentFor size)) runSize) pageSize
  if size = 0 ∨ (firstFit (alignmentFor size) needed blocks).isSome then none
  else alloc.map fun base => ⟨base, reserved, ()⟩

/-- The world after a call; `none` when it throws. -/
def step (w : World) : Call → Option World
  | .allocate size tag alloc => (allocate w.blocks size tag alloc).map fun (addr, blocks) =>
      { blocks
        runs := (newRun w.blocks size alloc).toList ++ w.runs
        live := if size = 0 then w.live else w.live.insert addr (size, tag) }
  | .free addr =>
    let (result, blocks) := free w.blocks addr
    some { w with blocks, live := if result.isSome then w.live.erase addr else w.live }

/-- Sizes leave room for the padding, and `addr_space::alloc` answers a page-aligned range that is
disjoint from the ones before. -/
def Call.Ok (w : World) : Call → Prop
  | .allocate size _ alloc => size < 2 ^ 64 - 0x2000 ∧ ∀ run ∈ newRun w.blocks size alloc,
      IsPage run.base ∧ run.stop ≤ 2 ^ 64 ∧ ∀ old ∈ w.runs, old.stop ≤ run.base ∨ run.stop ≤ old.base
  | .free _ => True

instance (w : World) : DecidablePred (Call.Ok w)
  | .allocate size _ alloc => inferInstanceAs (Decidable (_ ∧ ∀ run ∈ newRun w.blocks size alloc, _))
  | .free _ => inferInstanceAs (Decidable True)

end Kernemul.Pool
