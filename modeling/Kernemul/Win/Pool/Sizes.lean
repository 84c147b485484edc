import Kernemul.Win.Pool.Heap

/-!
# How large a block is

The runs of the pool come from the kernel cursor of its space, which other users of `addr_space::alloc`
move as well. `addr_space::alloc` throws when guest memory has run out, after it has moved the cursor.

Two sums of `allocate` leave 64 bits for the last sizes: rounding up to 16 makes the very last ones zero,
and the room for the padding is lost from the others. Such a size passes the test of `firstFit` at a block
that is too short, or is given a run of the least length.
-/

namespace Kernemul.Pool

open Segments

/-- Where `kernel_next_` starts. -/
def kernelNext : Nat := 0xFFFFF80000000000

/-- The pool and `kernel_next_` of its space. -/
structure Kernel where
  world : World
  next : Nat

def Kernel.init : Kernel := ⟨.init, kernelNext⟩

/-- What `reserve` asks `addr_space::alloc` for, when `allocate` comes to it. -/
def reserved (blocks : Blocks) (size : Nat) : Option Nat :=
  let needed := alignUp size poolAlignment
  if size = 0 ∨ (firstFit (alignmentFor size) needed blocks).isSome then none
  else some (alignUp (max (wrap (needed + alignmentFor size)) runSize) pageSize)

/-- What happens to the pool and the cursor. `lasts` says that guest memory lasts for the run an
`allocate` reserves; `other` is an allocation of the space outside the pool. -/
inductive Event
  | allocate (size : Nat) (tag : BitVec 32) (lasts : Bool)
  | free (addr : Nat)
  | other (size : Nat)
  deriving DecidableEq, Repr

/-- What `addr_space::alloc` answers. -/
def Kernel.answer (k : Kernel) (lasts : Bool) : Option Nat := if lasts then some k.next else none

/-- The cursor after `addr_space::alloc`, whether it throws or not. -/
def Kernel.moved (k : Kernel) (size : Nat) : Nat := wrap (k.next + sizeAlign size)

/-- The kernel after an event; a call that throws leaves the blocks as they are. -/
def Kernel.step (k : Kernel) : Event → Option Kernel
  | .allocate size tag lasts => some
      { world := (Pool.step k.world (.allocate size tag (k.answer lasts))).getD k.world
        next := ((reserved k.world.blocks size).map k.moved).getD k.next }
  | .free addr => some { k with world := (Pool.step k.world (.free addr)).getD k.world }
  | .other size => some { k with next := k.moved size }

def Kernel.Room (k : Kernel) (size : Nat) : Prop :=
  ∀ n ∈ reserved k.world.blocks size, k.next + n < 2 ^ 64

instance (k : Kernel) (size : Nat) : Decidable (k.Room size) :=
  inferInstanceAs (Decidable (∀ n ∈ reserved k.world.blocks size, k.next + n < 2 ^ 64))

/-- The size leaves room for the padding of its block and of a run. -/
def Fits (size : Nat) : Prop := size < 2 ^ 64 - 0x2000

instance (size : Nat) : Decidable (Fits size) := inferInstanceAs (Decidable (size < 2 ^ 64 - 0x2000))

def Event.Ok (k : Kernel) : Event → Prop
  | .allocate size _ _ => Fits size ∧ k.Room size
  | .free _ => True
  | .other size => k.next + sizeAlign size < 2 ^ 64

instance (k : Kernel) : DecidablePred (Event.Ok k)
  | .allocate size _ _ => inferInstanceAs (Decidable (Fits size ∧ k.Room size))
  | .free _ => inferInstanceAs (Decidable True)
  | .other size => inferInstanceAs (Decidable (k.next + sizeAlign size < 2 ^ 64))

/-! ## What an allocation promises -/

structure Tiles (w : World) : Prop where
  ordered : w.blocks.Pairwise fun b c => b.base + b.size ≤ c.base
  pos : ∀ b ∈ w.blocks, 0 < b.size
  covers : ∀ x, Covers w.blocks x ↔ Covers w.runs x

/-- The block handed out at `addr`. -/
structure Granted (w : World) (size addr : Nat) (b : Seg Block) : Prop where
  mem : b ∈ w.blocks
  base : b.base = addr
  taken : b.val.free = false ∧ b.val.requested = size
  enough : size ≤ b.size
  inside : ∀ x, b.base ≤ x → x < b.base + b.size → Covers w.runs x
  alone : ∀ c ∈ w.blocks, c.val.free = false → c ≠ b →
    c.base + c.size ≤ b.base ∨ b.base + b.size ≤ c.base

/-- What `allocate` is to leave when it answers `addr`. -/
def BigEnough (w : World) (size addr : Nat) : Prop := (∃ b, Granted w size addr b) ∧ Tiles w

/-! ## The runs of the pool -/

theorem newRun_reserved (blocks : Blocks) (size : Nat) (alloc : Option Nat) :
    newRun blocks size alloc = (reserved blocks size).bind fun n => alloc.map fun base => ⟨base, n, ()⟩ := by
  unfold newRun reserved
  simp only
  split
  · rfl
  · rfl

theorem sizeAlign_alignUp (a : Nat) : sizeAlign (alignUp a pageSize) = alignUp a pageSize := by
  rw [alignUp_eq (Or.inr rfl)]
  unfold sizeAlign pageAlign wrap pageSize
  omega

theorem isPage_alignUp (a : Nat) : IsPage (alignUp a pageSize) := by
  rw [alignUp_eq (Or.inr rfl)]
  unfold IsPage wrap pageSize
  omega

variable {size : Nat}

theorem reserved_page {blocks : Blocks} {n : Nat} (h : reserved blocks size = some n) :
    sizeAlign n = n ∧ IsPage n := by
  unfold reserved at h
  simp only at h
  split at h
  · cases h
  · obtain rfl := Option.some.inj h
    exact ⟨sizeAlign_alignUp _, isPage_alignUp _⟩

/-- The pool is as it should be, and its runs lie below the cursor, in the kernel half. -/
structure KernelInv (k : Kernel) : Prop where
  pool : PoolInv k.world
  page : IsPage k.next
  base : kernelNext ≤ k.next
  bound : k.next < 2 ^ 64
  runs : ∀ run ∈ k.world.runs, kernelNext ≤ run.base ∧ run.stop ≤ k.next

theorem init_kernelInv : KernelInv Kernel.init :=
  ⟨init_poolInv, rfl, Nat.le_refl _, by decide, nofun⟩

variable {k : Kernel} {lasts : Bool}

theorem KernelInv.newRun (h : KernelInv k) (hroom : k.Room size)
    {run : Seg Unit} (hrun : run ∈ newRun k.world.blocks size (k.answer lasts)) :
    IsPage run.base ∧ run.base = k.next ∧ reserved k.world.blocks size = some run.size ∧
      run.stop < 2 ^ 64 := by
  rw [newRun_reserved] at hrun
  obtain ⟨n, hn, hmap⟩ := Option.bind_eq_some_iff.mp hrun
  obtain ⟨base, hbase, rfl⟩ := Option.map_eq_some_iff.mp hmap
  have hlt := hroom n hn
  cases lasts with
  | false => cases hbase
  | true =>
    obtain rfl := Option.some.inj hbase
    exact ⟨h.page, rfl, hn, hlt⟩

/-- In a call that fits, `addr_space::alloc` behaves as the pool relies on. -/
theorem KernelInv.callOk (h : KernelInv k) (tag : BitVec 32) (hfits : Fits size)
    (hroom : k.Room size) (lasts : Bool) : (Call.allocate size tag (k.answer lasts)).Ok k.world := by
  refine ⟨hfits, fun run hrun => ?_⟩
  obtain ⟨hpage, hbase, -, hstop⟩ := h.newRun hroom hrun
  refine ⟨hpage, hstop.le, fun old hold => Or.inl ?_⟩
  rw [hbase]
  exact (h.runs old hold).2

theorem moved_eq {n : Nat} (hlt : k.next + sizeAlign n < 2 ^ 64) :
    k.moved n = k.next + sizeAlign n := wrap_of_lt hlt

theorem KernelInv.next_allocate (h : KernelInv k) (hroom : k.Room size) :
    ∃ n, ((reserved k.world.blocks size).map k.moved).getD k.next = k.next + n ∧ IsPage n ∧
      k.next + n < 2 ^ 64 ∧ (∀ m ∈ reserved k.world.blocks size, m = n) := by
  cases hr : reserved k.world.blocks size with
  | none => exact ⟨0, rfl, rfl, h.bound, nofun⟩
  | some n =>
    obtain ⟨hsize, hpage⟩ := reserved_page hr
    have hlt := hroom n hr
    refine ⟨n, ?_, hpage, hlt, fun m hm => (Option.some.inj hm).symm⟩
    show k.moved n = k.next + n
    rw [moved_eq (by rw [hsize]; exact hlt), hsize]

variable {w : World} {tag : BitVec 32}

theorem allocate_runs {w' : World} {alloc : Option Nat} (h : step w (.allocate size tag alloc) = some w') :
    w'.runs = (newRun w.blocks size alloc).toList ++ w.runs := by
  rw [step, Option.map_eq_some_iff] at h
  obtain ⟨-, -, rfl⟩ := h
  rfl

theorem KernelInv.runs_allocate (h : KernelInv k) {n : Nat} (hroom : k.Room size)
    (hn : ∀ m ∈ reserved k.world.blocks size, m = n)
    (hw : step k.world (.allocate size tag (k.answer lasts)) = some w) :
    ∀ run ∈ w.runs, kernelNext ≤ run.base ∧ run.stop ≤ k.next + n := by
  intro run hrun
  rw [allocate_runs hw] at hrun
  rcases List.mem_append.mp hrun with hrun | hrun
  · obtain ⟨-, hbase, hsize, -⟩ := h.newRun hroom (Option.mem_toList.mp hrun)
    have := h.base
    obtain rfl := hn _ hsize
    unfold Seg.stop
    omega
  · have := h.runs run hrun
    omega

theorem step_kernelInv {k' : Kernel} {event : Event} (h : KernelInv k) (hok : event.Ok k)
    (hstep : k.step event = some k') : KernelInv k' := by
  cases event with
  | allocate size tag lasts =>
    obtain ⟨hfits, hroom⟩ := hok
    obtain rfl := Option.some.inj hstep
    obtain ⟨n, hnext, hpage, hlt, hn⟩ := h.next_allocate hroom
    have hbase := h.base
    have hcall := h.callOk tag hfits hroom lasts
    cases hw : step k.world (.allocate size tag (k.answer lasts)) with
    | none =>
      simp only [hnext, Option.getD_none]
      exact ⟨h.pool, h.page.add hpage, Nat.le_add_right_of_le hbase, hlt,
        fun run hrun => ⟨(h.runs run hrun).1, Nat.le_add_right_of_le (h.runs run hrun).2⟩⟩
    | some w =>
      simp only [hnext, Option.getD_some]
      exact ⟨step_poolInv h.pool hcall hw, h.page.add hpage, Nat.le_add_right_of_le hbase, hlt,
        h.runs_allocate hroom hn hw⟩
  | free addr =>
    obtain rfl := Option.some.inj hstep
    have hfree : (Call.free addr).Ok k.world := trivial
    exact ⟨step_poolInv h.pool hfree rfl, h.page, h.base, h.bound, h.runs⟩
  | other size =>
    obtain rfl := Option.some.inj hstep
    have hmoved : k.moved size = k.next + sizeAlign size := moved_eq hok
    simp only [hmoved]
    exact ⟨h.pool, h.page.add (isPage_sizeAlign size), Nat.le_add_right_of_le h.base, hok,
      fun run hrun => ⟨(h.runs run hrun).1, Nat.le_add_right_of_le (h.runs run hrun).2⟩⟩

theorem PoolInv.tiles (h : PoolInv w) : Tiles w :=
  ⟨h.wf.valid.ordered, h.wf.valid.pos, h.tile⟩

theorem WellFormed.alone {l : Blocks} (h : WellFormed l) {b c : Seg Block} (hb : b ∈ l) (hc : c ∈ l)
    (hne : c ≠ b) : c.base + c.size ≤ b.base ∨ b.base + b.size ≤ c.base := by
  have hbpos := h.valid.pos b hb
  have hcpos := h.valid.pos c hc
  by_contra hover
  refine hne (h.valid.eq_of_has hc hb (a := max b.base c.base) ⟨le_max_right _ _, ?_⟩
    ⟨le_max_left _ _, ?_⟩)
  · unfold Seg.stop
    omega
  · unfold Seg.stop
    omega

theorem KernelInv.bigEnough (h : KernelInv k) {addr : Nat}
    {blocks : Blocks} (h0 : size ≠ 0) (hfits : Fits size) (hroom : k.Room size)
    (hret : allocate k.world.blocks size tag (k.answer lasts) = some (addr, blocks))
    (hw : step k.world (.allocate size tag (k.answer lasts)) = some w) : BigEnough w size addr := by
  have hcall := h.callOk tag hfits hroom lasts
  have hinv := step_poolInv h.pool hcall hw
  have hal := allocate_spec h.pool.wf h0 hfits (h.pool.runOk hcall) hret
  obtain ⟨needed, hle, hlive⟩ := hal.live
  have hblocks : w.blocks = blocks := by
    rw [step, hret] at hw
    obtain rfl := Option.some.inj hw
    rfl
  have hmem : (⟨addr, needed, ⟨size, tag, false⟩⟩ : Seg Block) ∈ w.blocks := by
    rw [hblocks]
    exact (hlive _ rfl).mpr (Or.inl rfl)
  refine ⟨⟨_, hmem, rfl, ⟨rfl, rfl⟩, hle, fun x h1 h2 => ?_, fun c hc _ hne => ?_⟩, hinv.tiles⟩
  · exact (hinv.tile x).mp ⟨_, hmem, h1, h2⟩
  · exact hinv.wf.alone hmem hc hne

theorem KernelInv.fits (h : KernelInv k) {addr : Nat}
    (hroom : k.Room size) (hw : step k.world (.allocate size tag (k.answer lasts)) = some w)
    (hbig : BigEnough w size addr) : Fits size := by
  obtain ⟨⟨b, hb⟩, htiles⟩ := hbig
  obtain ⟨n, -, -, hlt, hn⟩ := h.next_allocate hroom
  have hruns := h.runs_allocate hroom hn hw
  have hpos := htiles.pos b hb.mem
  have henough := hb.enough
  obtain ⟨first, hfirst, hlo, -⟩ := hb.inside b.base (Nat.le_refl _) (by omega)
  obtain ⟨last, hlast, -, hhi⟩ := hb.inside (b.base + b.size - 1) (by omega) (by omega)
  have h1 := (hruns first hfirst).1
  have h2 := (hruns last hlast).2
  unfold Fits
  unfold kernelNext at *
  omega

/-- **Pool blocks are big enough**, in every state of a run, exactly when the size leaves room for the
padding. -/
theorem pool_block_iff {events : List Event} {k : Kernel}
    (hrun : Run.Steps Kernel.step Event.Ok Kernel.init events k) {size addr : Nat} {tag : BitVec 32}
    {lasts : Bool} {blocks : Blocks} {w : World} (hroom : k.Room size)
    (hret : allocate k.world.blocks size tag (k.answer lasts) = some (addr, blocks)) (hnonnull : addr ≠ 0)
    (hw : step k.world (.allocate size tag (k.answer lasts)) = some w) :
    BigEnough w size addr ↔ Fits size := by
  have hinv := hrun.invariant (fun _ _ _ h hok hstep => step_kernelInv h hok hstep) init_kernelInv
  have h0 : size ≠ 0 := by
    rintro rfl
    obtain rfl := (Prod.mk.inj (Option.some.inj hret)).1
    exact hnonnull rfl
  exact ⟨hinv.fits hroom hw, fun hfits => hinv.bigEnough h0 hfits hroom hret hw⟩

/-- A small block, the cursor moved on by someone else, and a block that needs a new run. -/
def newRunNeeded : List Event := [.allocate 0x28 0x41 true, .other 0x5000]

theorem newRunNeeded_bigEnough : ∃ k w, Run.Steps Kernel.step Event.Ok Kernel.init newRunNeeded k ∧
    step k.world (.allocate 0x200000 0x42 (k.answer true)) = some w ∧
    BigEnough w 0x200000 0xFFFFF80000105000 := by
  have hexec : ((Run.exec Kernel.step (fun k event => decide (Event.Ok k event)) Kernel.init
      newRunNeeded).map fun k => (decide (k.Room 0x200000),
        (allocate k.world.blocks 0x200000 0x42 (k.answer true)).map Prod.fst)) =
      some (true, some 0xFFFFF80000105000) := by decide +kernel
  obtain ⟨k, hk, hval⟩ := Option.map_eq_some_iff.mp hexec
  obtain ⟨hroom, haddr⟩ := Prod.mk.inj hval
  obtain ⟨⟨addr, blocks⟩, hret, rfl⟩ := Option.map_eq_some_iff.mp haddr
  have hrun : Run.Steps Kernel.step Event.Ok Kernel.init newRunNeeded k :=
    .of_exec (fun _ _ => of_decide_eq_true) hk
  refine ⟨k, _, hrun, by rw [step, hret]; rfl, ?_⟩
  refine (pool_block_iff hrun (of_decide_eq_true hroom) hret ?_ (by rw [step, hret]; rfl)).mpr ?_
  · decide
  · decide

/-- The last size is rounded to nothing: the block has no bytes. -/
theorem lastSize_small : ¬ ∀ (events : List Event) (k : Kernel) (size addr : Nat) (tag : BitVec 32)
    (blocks : Blocks) (w : World), Run.Steps Kernel.step Event.Ok Kernel.init events k → size < 2 ^ 64 →
      k.Room size → allocate k.world.blocks size tag (k.answer true) = some (addr, blocks) → addr ≠ 0 →
      step k.world (.allocate size tag (k.answer true)) = some w → BigEnough w size addr := by
  intro hall
  have hret : (allocate [] (2 ^ 64 - 1) 0x41 (some kernelNext)) =
      some (kernelNext, [⟨kernelNext, 0, ⟨2 ^ 64 - 1, 0x41, false⟩⟩]) := by decide +kernel
  have hroom : Kernel.init.Room (2 ^ 64 - 1) := by decide +kernel
  have hbig := hall [] Kernel.init (2 ^ 64 - 1) kernelNext 0x41 _ _ (.nil _) (by decide) hroom hret
    (by decide) (by rw [step, Kernel.init, Kernel.answer, if_pos rfl]; exact congrArg _ hret)
  obtain ⟨⟨b, hb⟩, -⟩ := hbig
  have hb' : b = ⟨kernelNext, 0, ⟨2 ^ 64 - 1, 0x41, false⟩⟩ := by simpa using hb.mem
  have henough := hb.enough
  rw [hb'] at henough
  exact absurd henough (by decide)

end Kernemul.Pool
