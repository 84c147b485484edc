import Kernemul.Emu.Phys

/-!
# Virtual reads and writes (`copy_virt`)

`copy_virt` goes page by page: it resolves the page, copies up to its end at most, and throws at a page that
does not resolve. The tables it walks are physical memory too, so a write may change what the pages still to
come resolve to.

`moved` is not in the source: it counts the bytes that `memcpy` has copied, which no caller is told.
-/

namespace Kernemul.Phys

/-- What a page of a space is resolved to, and the bytes of physical memory that say so. -/
structure Walk where
  resolve : Mem → Nat → Option Nat
  reads : Mem → Nat → Nat → Prop
  frame : ∀ {mem : Mem} {page f : Nat}, resolve mem page = some f → IsPage f ∧ f < 2 ^ 64
  congr : ∀ {mem mem' : Mem} {page : Nat}, PageBlocks mem → PageBlocks mem' →
    (∀ a, reads mem page a → byteAt mem' a = byteAt mem a) → resolve mem' page = resolve mem page

/-- Physical memory, the host's buffer, and the number of bytes copied. -/
structure Copy where
  mem : Mem
  buf : Buf
  moved : Nat := 0

/-- One round of `copy_virt`: `chunk` bytes at a physical address, `done` bytes into the buffer. -/
def Copy.chunk (c : Copy) (write : Bool) (pa done chunk : Nat) : Copy :=
  if write then
    { c with
      mem := writePhysMem c.mem pa (fun i => (c.buf (done + i)).getD 0) chunk
      moved := c.moved + copied c.mem pa chunk }
  else
    { c with
      buf := fun i =>
        if i < done then c.buf i else readPhysMem c.mem pa (fun k => c.buf (done + k)) chunk (i - done)
      moved := c.moved + copied c.mem pa chunk }

/-- The loop of `copy_virt`; false when it throws. A round copies at least one byte, so that as many rounds
as there are bytes are enough. -/
def copyLoop (resolve : Mem → Nat → Option Nat) (va size : Nat) (write : Bool) :
    Nat → Nat → Copy → Copy × Bool
  | 0, _, c => (c, true)
  | rounds + 1, done, c =>
    if done < size then
      let cur := wrap (va + done)
      let page := pageAlign cur
      let pageOff := cur - page
      let chunk := min (size - done) (pageSize - pageOff)
      match resolve c.mem page with
      | none => (c, false)
      | some frame => copyLoop resolve va size write rounds (done + chunk)
        (c.chunk write (wrap (frame + pageOff)) done chunk)
    else (c, true)

def Walk.copyVirt (w : Walk) (c : Copy) (va size : Nat) (write : Bool) : Copy × Bool :=
  copyLoop w.resolve va size write size 0 c

def Walk.readVirt (w : Walk) (mem : Mem) (va : Nat) (buf : Buf) (size : Nat) : Copy × Bool :=
  w.copyVirt { mem, buf } va size false

def Walk.writeVirt (w : Walk) (mem : Mem) (va : Nat) (buf : Buf) (size : Nat) : Copy × Bool :=
  w.copyVirt { mem, buf } va size true

def Walk.virtToPhys (w : Walk) (mem : Mem) (va : Nat) : Option Nat :=
  (w.resolve mem (pageAlign va)).map fun frame => wrap (frame + (va - pageAlign va))

/-! ## Rounds -/

theorem pageOff_lt (a : Nat) : a - pageAlign a < pageSize := by
  have := lt_pageAlign_add a
  have := pageAlign_le a
  omega

section rounds
variable {resolve : Mem → Nat → Option Nat} {va size : Nat} {write : Bool}

/-- How far the chunk from `done` on goes. -/
def chunkOf (va size done : Nat) : Nat :=
  min (size - done) (pageSize - (wrap (va + done) - pageAlign (wrap (va + done))))

theorem chunkOf_pos {done : Nat} (h : done < size) : 0 < chunkOf va size done := by
  have := lt_pageAlign_add (wrap (va + done))
  have := pageAlign_le (wrap (va + done))
  unfold chunkOf
  omega

theorem chunkOf_le (va size done : Nat) : chunkOf va size done ≤ size - done := Nat.min_le_left _ _

theorem chunkOf_in_page (va size done : Nat) :
    wrap (va + done) - pageAlign (wrap (va + done)) + chunkOf va size done ≤ pageSize := by
  have := lt_pageAlign_add (wrap (va + done))
  have := pageAlign_le (wrap (va + done))
  unfold chunkOf
  omega

theorem wrap_of_chunk {done i : Nat} (hlo : done ≤ i) (hi : i < done + chunkOf va size done) :
    wrap (va + i) = wrap (va + done) + (i - done) ∧
      pageAlign (wrap (va + i)) = pageAlign (wrap (va + done)) := by
  have hin := chunkOf_in_page va size done
  have hlt : i - done < chunkOf va size done := by omega
  generalize chunkOf va size done = n at *
  unfold pageAlign wrap pageSize at *
  omega

theorem copyLoop_done {rounds done : Nat} (h : size ≤ done) (c : Copy) :
    copyLoop resolve va size write rounds done c = (c, true) := by
  cases rounds with
  | zero => rfl
  | succ rounds => rw [copyLoop, if_neg (by omega)]

theorem copyLoop_none {rounds done : Nat} {c : Copy} (h : done < size)
    (hr : resolve c.mem (pageAlign (wrap (va + done))) = none) :
    copyLoop resolve va size write (rounds + 1) done c = (c, false) := by
  rw [copyLoop, if_pos h]
  simp only [hr]

theorem copyLoop_some {rounds done frame : Nat} {c : Copy} (h : done < size)
    (hr : resolve c.mem (pageAlign (wrap (va + done))) = some frame) :
    copyLoop resolve va size write (rounds + 1) done c =
      copyLoop resolve va size write rounds (done + chunkOf va size done)
        (c.chunk write (wrap (frame + (wrap (va + done) - pageAlign (wrap (va + done))))) done
          (chunkOf va size done)) := by
  rw [copyLoop, if_pos h]
  simp only [hr]
  rfl

/-- The induction over the rounds that are left, when there are enough of them. -/
theorem rounds_induct {motive : ∀ rounds done, Copy → size - done ≤ rounds → Prop}
    (done : ∀ rounds done c h, size ≤ done → motive rounds done c h)
    (none : ∀ rounds done c h, done < size → resolve c.mem (pageAlign (wrap (va + done))) = none →
      motive (rounds + 1) done c h)
    (some : ∀ rounds done c h frame h', done < size →
      resolve c.mem (pageAlign (wrap (va + done))) = some frame →
      motive rounds (done + chunkOf va size done)
        (c.chunk write (wrap (frame + (wrap (va + done) - pageAlign (wrap (va + done))))) done
          (chunkOf va size done)) h' →
      motive (rounds + 1) done c h)
    (rounds n : Nat) (c : Copy) (h : size - n ≤ rounds) : motive rounds n c h := by
  induction rounds generalizing n c with
  | zero => exact done 0 n c h (by omega)
  | succ rounds ih =>
    by_cases hlt : n < size
    · cases hr : resolve c.mem (pageAlign (wrap (va + n))) with
      | none => exact none rounds n c h hlt hr
      | some frame =>
        have hpos := @chunkOf_pos va _ _ hlt
        exact some rounds n c h frame (by omega) hlt hr (ih _ _ _)
    · exact done (rounds + 1) n c h (by omega)

end rounds

/-! ## Reading -/

section chunks
variable {w : Walk} {mem : Mem} {va size done frame : Nat}

theorem Walk.chunk_pa (hr : w.resolve mem (pageAlign (wrap (va + done))) = some frame) :
    wrap (frame + (wrap (va + done) - pageAlign (wrap (va + done)))) =
      frame + (wrap (va + done) - pageAlign (wrap (va + done))) := by
  obtain ⟨hframe, hlt⟩ := w.frame hr
  have hpage := lt_pageAlign_add (wrap (va + done))
  refine wrap_of_lt ?_
  unfold IsPage pageSize at *
  omega

theorem Walk.virtToPhys_chunk {i : Nat} (hr : w.resolve mem (pageAlign (wrap (va + done))) = some frame)
    (hlo : done ≤ i) (hi : i < done + chunkOf va size done) :
    w.virtToPhys mem (wrap (va + i)) =
      some (frame + (wrap (va + done) - pageAlign (wrap (va + done))) + (i - done)) := by
  obtain ⟨hw, hp⟩ := @wrap_of_chunk va size _ _ hlo hi
  obtain ⟨hframe, hlt⟩ := w.frame hr
  have hin := chunkOf_in_page va size done
  have hle := pageAlign_le (wrap (va + done))
  unfold Walk.virtToPhys
  rw [hp, hr, hw, Option.map_some, wrap_of_lt]
  · congr 1
    omega
  · unfold IsPage pageSize at *
    omega

theorem Copy.chunk_read {c : Copy} (hpages : PageBlocks c.mem) {off n : Nat} (hf : IsPage frame)
    (hlt : frame < 2 ^ 64) (ho : off < pageSize) (hin : off + n ≤ pageSize) (i : Nat) :
    (c.chunk false (frame + off) done n).buf i =
      if done ≤ i ∧ i < done + n then (byteAt c.mem (frame + off + (i - done))).or (c.buf i) else c.buf i := by
  unfold Copy.chunk
  simp only [Bool.false_eq_true, if_false]
  by_cases hlo : i < done
  · rw [if_pos hlo, if_neg (by omega)]
  rw [if_neg hlo, hpages.read hf hlt ho hin, Nat.add_sub_cancel' (Nat.le_of_not_lt hlo)]
  by_cases hi : i < done + n
  · rw [if_pos (by omega), if_pos (by omega)]
  · rw [if_neg (by omega), if_neg (by omega)]

end chunks

section read
variable (w : Walk) {mem : Mem} (va size : Nat)

theorem Walk.copyLoop_throws (rounds done : Nat) (c : Copy) (hmem : c.mem = mem) (hrounds : size - done ≤ rounds)
    (h : ∃ i, done ≤ i ∧ i < size ∧ w.resolve mem (pageAlign (wrap (va + i))) = none) :
    (copyLoop w.resolve va size false rounds done c).2 = false := by
  obtain ⟨i, hlo, hi, hnone⟩ := h
  induction rounds, done, c, hrounds using @rounds_induct w.resolve va size false with
  | done rounds done c _ hle => omega
  | none rounds done c _ hlt hr => rw [copyLoop_none hlt hr]
  | some rounds done c _ frame _ hlt hr ih =>
    rw [copyLoop_some hlt hr]
    refine ih hmem ?_
    -- the page is not that of this chunk, which does resolve
    by_contra hin
    obtain ⟨-, hp⟩ := @wrap_of_chunk va size _ _ hlo (by omega)
    rw [hmem, ← hp, hnone] at hr
    cases hr

/-- A read goes through when every page resolves, and takes every byte from where it is translated to. -/
theorem Walk.copyLoop_read (hpages : PageBlocks mem) (rounds done : Nat) (c : Copy) (hmem : c.mem = mem)
    (hrounds : size - done ≤ rounds)
    (hall : ∀ i, done ≤ i → i < size → (w.resolve mem (pageAlign (wrap (va + i)))).isSome) :
    (copyLoop w.resolve va size false rounds done c).2 = true ∧
      (copyLoop w.resolve va size false rounds done c).1.mem = mem ∧
      ∀ i, (copyLoop w.resolve va size false rounds done c).1.buf i =
        if done ≤ i ∧ i < size then ((w.virtToPhys mem (wrap (va + i))).bind (byteAt mem)).or (c.buf i)
        else c.buf i := by
  induction rounds, done, c, hrounds using @rounds_induct w.resolve va size false with
  | done rounds done c _ hle =>
    rw [copyLoop_done hle]
    refine ⟨rfl, hmem, fun i => ?_⟩
    rw [if_neg (by omega)]
  | none rounds done c _ hlt hr =>
    have hsome := hall done (Nat.le_refl _) hlt
    rw [← hmem, hr] at hsome
    cases hsome
  | some rounds done c _ frame _ hlt hr ih =>
    have hpos := @chunkOf_pos va _ _ hlt
    have hle := chunkOf_le va size done
    rw [copyLoop_some hlt hr]
    obtain ⟨hok, hmem', hbuf⟩ := ih hmem fun i hlo hi => hall i (by omega) hi
    refine ⟨hok, hmem', fun i => ?_⟩
    obtain ⟨hf, hflt⟩ := w.frame hr
    rw [hbuf, Walk.chunk_pa hr, Copy.chunk_read (hmem ▸ hpages) hf hflt (pageOff_lt _)
      (chunkOf_in_page va size done), hmem]
    by_cases hi : done ≤ i ∧ i < size
    · rw [if_pos hi]
      by_cases hin : i < done + chunkOf va size done
      · rw [if_neg (by omega), if_pos (by omega), Walk.virtToPhys_chunk (hmem ▸ hr) hi.1 hin]
        rfl
      · rw [if_pos (by omega), if_neg (by omega)]
    · rw [if_neg (by omega), if_neg (by omega), if_neg hi]

end read

/-! ## How much is copied -/

def landsLoop (resolve : Mem → Nat → Option Nat) (va size : Nat) (write : Bool) : Nat → Nat → Copy → Prop
  | 0, _, _ => True
  | rounds + 1, done, c =>
    done < size → ∀ frame, resolve c.mem (pageAlign (wrap (va + done))) = some frame →
      (findBacking c.mem frame).isSome ∧
        landsLoop resolve va size write rounds (done + chunkOf va size done)
          (c.chunk write (wrap (frame + (wrap (va + done) - pageAlign (wrap (va + done))))) done
            (chunkOf va size done))

theorem landsLoop_done {resolve : Mem → Nat → Option Nat} {va size : Nat} {write : Bool} {rounds done : Nat}
    (h : size ≤ done) (c : Copy) : landsLoop resolve va size write rounds done c := by
  cases rounds with
  | zero => trivial
  | succ rounds => exact fun hlt => absurd hlt (Nat.not_lt.mpr h)

theorem landsLoop_some {resolve : Mem → Nat → Option Nat} {va size : Nat} {write : Bool} {rounds done frame : Nat}
    {c : Copy} (h : done < size) (hr : resolve c.mem (pageAlign (wrap (va + done))) = some frame) :
    landsLoop resolve va size write (rounds + 1) done c ↔
      (findBacking c.mem frame).isSome ∧ landsLoop resolve va size write rounds (done + chunkOf va size done)
        (c.chunk write (wrap (frame + (wrap (va + done) - pageAlign (wrap (va + done))))) done
          (chunkOf va size done)) := by
  refine ⟨fun hlands => hlands h frame hr, fun hlands _ f hf => ?_⟩
  obtain rfl := Option.some.inj (hr.symm.trans hf)
  exact hlands

/-- A write of a range reaches backed pages only, each as it is resolved when its turn comes. -/
def Walk.Lands (w : Walk) (mem : Mem) (va : Nat) (buf : Buf) (size : Nat) : Prop :=
  landsLoop w.resolve va size true size 0 { mem, buf }

theorem Copy.chunk_pages {c : Copy} (h : PageBlocks c.mem) (write : Bool) (pa done n : Nat) :
    PageBlocks (c.chunk write pa done n).mem := by
  cases write with
  | false => exact h
  | true => exact h.write _ _ _

theorem Copy.chunk_moved (c : Copy) (write : Bool) (pa done n : Nat) :
    (c.chunk write pa done n).moved = c.moved + copied c.mem pa n := by
  cases write with
  | false => rfl
  | true => rfl

section moved
variable (w : Walk) (va size : Nat) (write : Bool)

/-- A copy that goes through has copied every byte exactly when every round reached a page that is backed. -/
theorem Walk.copyLoop_moved (rounds done : Nat) (c : Copy) (hpages : PageBlocks c.mem)
    (hrounds : size - done ≤ rounds) (hok : (copyLoop w.resolve va size write rounds done c).2 = true) :
    (copyLoop w.resolve va size write rounds done c).1.moved ≤ c.moved + (size - done) ∧
      (c.moved + (size - done) ≤ (copyLoop w.resolve va size write rounds done c).1.moved ↔
        landsLoop w.resolve va size write rounds done c) := by
  induction rounds, done, c, hrounds using @rounds_induct w.resolve va size write with
  | done rounds done c _ hle =>
    rw [copyLoop_done hle, Nat.sub_eq_zero_of_le hle]
    exact ⟨Nat.le_refl _, fun _ => landsLoop_done hle c, fun _ => Nat.le_refl _⟩
  | none rounds done c _ hlt hr =>
    rw [copyLoop_none hlt hr] at hok
    cases hok
  | some rounds done c _ frame _ hlt hr ih =>
    rw [copyLoop_some hlt hr] at hok ⊢
    have hpos := @chunkOf_pos va _ _ hlt
    have hle := chunkOf_le va size done
    obtain ⟨hup, hiff⟩ := ih (Copy.chunk_pages hpages _ _ _ _) hok
    have hcopied := hpages.copied_eq (w.frame hr).1 (pageOff_lt (wrap (va + done)))
      (chunkOf_in_page va size done)
    rw [landsLoop_some hlt hr, ← hiff]
    rw [← Walk.chunk_pa hr] at hcopied
    rw [Copy.chunk_moved, hcopied] at hup ⊢
    cases hb : (findBacking c.mem frame).isSome with
    | true =>
      rw [hb, if_pos rfl] at hup
      rw [if_pos rfl]
      refine ⟨by omega, fun h => ⟨rfl, by omega⟩, fun h => by have := h.2; omega⟩
    | false =>
      rw [hb, if_neg (by decide)] at hup
      rw [if_neg (by decide)]
      refine ⟨by omega, fun h => by omega, fun h => by cases h.1⟩

end moved

theorem Walk.lands_read (w : Walk) (va size : Nat) {mem : Mem} (rounds done : Nat) (c : Copy) (hmem : c.mem = mem)
    (hrounds : size - done ≤ rounds)
    (hall : ∀ i, done ≤ i → i < size → (w.resolve mem (pageAlign (wrap (va + i)))).isSome) :
    landsLoop w.resolve va size false rounds done c ↔ ∀ i, done ≤ i → i < size →
      ∃ frame, w.resolve mem (pageAlign (wrap (va + i))) = some frame ∧ (findBacking mem frame).isSome := by
  induction rounds, done, c, hrounds using @rounds_induct w.resolve va size false with
  | done rounds done c _ hle => exact ⟨fun _ i hlo hi => by omega, fun _ => landsLoop_done hle c⟩
  | none rounds done c _ hlt hr =>
    have hsome := hall done (Nat.le_refl _) hlt
    rw [← hmem, hr] at hsome
    cases hsome
  | some rounds done c _ frame _ hlt hr ih =>
    rw [landsLoop_some hlt hr, ih hmem fun i hlo hi => hall i (by omega) hi]
    rw [hmem] at hr ⊢
    constructor
    · rintro ⟨hb, hrest⟩ i hlo hi
      by_cases hin : i < done + chunkOf va size done
      · rw [(wrap_of_chunk hlo hin).2]
        exact ⟨frame, hr, hb⟩
      · exact hrest i (by omega) hi
    · intro h
      obtain ⟨f, hf, hb⟩ := h done (Nat.le_refl _) hlt
      obtain rfl := Option.some.inj (hr.symm.trans hf)
      exact ⟨hb, fun i hlo hi => h i (by omega) hi⟩

/-! ## Writing -/

def Walk.OnBacked (w : Walk) (mem : Mem) (va size : Nat) : Prop := ∀ i < size,
  ∃ frame, w.resolve mem (pageAlign (wrap (va + i))) = some frame ∧ (findBacking mem frame).isSome

def Walk.Distinct (w : Walk) (mem : Mem) (va size : Nat) : Prop := ∀ i < size, ∀ j < size,
  w.resolve mem (pageAlign (wrap (va + i))) = w.resolve mem (pageAlign (wrap (va + j))) →
    pageAlign (wrap (va + i)) = pageAlign (wrap (va + j))

def Walk.Steady (w : Walk) (mem : Mem) (va size : Nat) : Prop := ∀ i < size, ∀ j < size, ∀ a,
  w.virtToPhys mem (wrap (va + i)) = some a → ¬ w.reads mem (pageAlign (wrap (va + j))) a

/-- Memory after the first `done` bytes of a range were written. -/
structure Walk.Written (w : Walk) (old mem : Mem) (va size : Nat) (bytes : Nat → UInt8) (done : Nat) :
    Prop where
  pages : PageBlocks mem
  backed : ∀ a, (findBacking mem a).isSome = (findBacking old a).isSome
  other : ∀ a, (∀ i < done, w.virtToPhys old (wrap (va + i)) ≠ some a) → byteAt mem a = byteAt old a
  image : w.Distinct old va size → ∀ i < done, ∀ a, w.virtToPhys old (wrap (va + i)) = some a →
    byteAt mem a = some (bytes i)

section write
variable {w : Walk} {old mem : Mem} {va size : Nat}

theorem Walk.Distinct.injective (h : w.Distinct old va size) (hsize : size < 2 ^ 64) {i j a : Nat}
    (hi : i < size) (hj : j < size) (hia : w.virtToPhys old (wrap (va + i)) = some a)
    (hja : w.virtToPhys old (wrap (va + j)) = some a) : i = j := by
  obtain ⟨f, hf, hfa⟩ := Option.map_eq_some_iff.mp hia
  obtain ⟨g, hg, hga⟩ := Option.map_eq_some_iff.mp hja
  obtain ⟨hfpage, hflt⟩ := w.frame hf
  obtain ⟨hgpage, hglt⟩ := w.frame hg
  have hio := pageOff_lt (wrap (va + i))
  have hjo := pageOff_lt (wrap (va + j))
  have hfg : f = g ∧ wrap (va + i) - pageAlign (wrap (va + i)) = wrap (va + j) - pageAlign (wrap (va + j)) := by
    generalize wrap (va + i) - pageAlign (wrap (va + i)) = x at *
    generalize wrap (va + j) - pageAlign (wrap (va + j)) = y at *
    unfold wrap IsPage pageSize at *
    omega
  have hpage := h i hi j hj (by rw [hf, hg, hfg.1])
  have hile := pageAlign_le (wrap (va + i))
  have hjle := pageAlign_le (wrap (va + j))
  have hsame : wrap (va + i) = wrap (va + j) := by omega
  unfold wrap at hsame
  omega

/-- What a steady range's pages resolve to is not changed by writing some of it. -/
theorem Walk.Written.resolve {bytes : Nat → UInt8} {done j : Nat} (h : w.Written old mem va size bytes done)
    (hold : PageBlocks old) (hsteady : w.Steady old va size) (hdone : done ≤ size) (hj : j < size) :
    w.resolve mem (pageAlign (wrap (va + j))) = w.resolve old (pageAlign (wrap (va + j))) :=
  w.congr hold h.pages fun a ha => h.other a fun i hi hia => hsteady i (by omega) j hj a hia ha

theorem Walk.Written.chunk {bytes : Nat → UInt8} {done frame : Nat}
    (h : w.Written old mem va size bytes done) (hsize : size < 2 ^ 64) (hlt : done < size)
    (hr : w.resolve old (pageAlign (wrap (va + done))) = some frame)
    (hb : (findBacking old frame).isSome) :
    w.Written old (writePhysMem mem (frame + (wrap (va + done) - pageAlign (wrap (va + done))))
      (fun i => bytes (done + i)) (chunkOf va size done)) va size bytes (done + chunkOf va size done) := by
  obtain ⟨hf, hflt⟩ := w.frame hr
  have hle := chunkOf_le va size done
  have hbyte := h.pages.byteAt_write hf hflt (pageOff_lt (wrap (va + done)))
    (chunkOf_in_page va size done) (by rw [h.backed]; exact hb) fun i => bytes (done + i)
  have hin : ∀ i, done ≤ i → i < done + chunkOf va size done → w.virtToPhys old (wrap (va + i)) =
      some (frame + (wrap (va + done) - pageAlign (wrap (va + done))) + (i - done)) :=
    fun i hlo hi => Walk.virtToPhys_chunk hr hlo hi
  generalize frame + (wrap (va + done) - pageAlign (wrap (va + done))) = pa at *
  generalize chunkOf va size done = n at *
  refine ⟨h.pages.write _ _ _, fun a => ?_, fun a ha => ?_, fun hdist i hi a hia => ?_⟩
  · rw [isSome_findBacking_write, h.backed]
  · rw [hbyte, if_neg, h.other a fun i hi => ha i (by omega)]
    rintro ⟨hlo, hhi⟩
    refine ha (done + (a - pa)) (by omega) ?_
    rw [hin _ (by omega) (by omega)]
    congr 1
    omega
  · rw [hbyte]
    by_cases hnew : done ≤ i
    · rw [hin i hnew hi] at hia
      obtain rfl := Option.some.inj hia
      rw [if_pos (by omega)]
      congr 2
      omega
    · rw [if_neg, h.image hdist i (by omega) a hia]
      rintro ⟨hlo, hhi⟩
      have hja := hin (done + (a - pa)) (by omega) (by omega)
      have := hdist.injective hsize (i := i) (j := done + (a - pa)) (by omega) (by omega) hia
        (by rw [hja]; congr 1; omega)
      omega

/-- A write to a steady range of backed pages goes through, reaches all of it, and changes the bytes of the
range only. -/
theorem Walk.copyLoop_write (hold : PageBlocks old) (hsize : size < 2 ^ 64) (hback : w.OnBacked old va size)
    (hsteady : w.Steady old va size) (buf : Buf) (rounds done : Nat) (c : Copy) (hbuf : c.buf = buf)
    (hrounds : size - done ≤ rounds) (hdone : done ≤ size)
    (hw : w.Written old c.mem va size (fun i => (buf i).getD 0) done) :
    (copyLoop w.resolve va size true rounds done c).2 = true ∧
      w.Written old (copyLoop w.resolve va size true rounds done c).1.mem va size (fun i => (buf i).getD 0)
        size ∧
      landsLoop w.resolve va size true rounds done c := by
  induction rounds, done, c, hrounds using @rounds_induct w.resolve va size true with
  | done rounds done c _ hle =>
    obtain rfl : done = size := by omega
    rw [copyLoop_done hle]
    exact ⟨rfl, hw, landsLoop_done hle c⟩
  | none rounds done c _ hlt hr =>
    obtain ⟨frame, hr', -⟩ := hback done hlt
    rw [hw.resolve hold hsteady hdone hlt, hr'] at hr
    cases hr
  | some rounds done c _ frame _ hlt hr ih =>
    have hr' := hr
    rw [hw.resolve hold hsteady hdone hlt] at hr'
    obtain ⟨f, hf, hb⟩ := hback done hlt
    obtain rfl := Option.some.inj (hr'.symm.trans hf)
    have hle := chunkOf_le va size done
    have hchunk := hw.chunk hsize hlt hr' hb
    rw [← Walk.chunk_pa hr, ← hbuf] at hchunk
    rw [← hbuf] at ih
    obtain ⟨hok, hwritten, hlands⟩ := ih rfl (by omega) hchunk
    rw [hbuf] at hwritten
    rw [copyLoop_some hlt hr, landsLoop_some hlt hr]
    exact ⟨hok, hwritten, (hw.backed frame).trans hb, hlands⟩

end write

/-! ## Ranges -/

structure Walk.Exact (w : Walk) (mem : Mem) (va size : Nat) : Prop where
  throws : (∃ i < size, w.resolve mem (pageAlign (wrap (va + i))) = none) →
    ∀ buf, (w.readVirt mem va buf size).2 = false
  read : w.OnBacked mem va size → ∀ k n buf, k + n ≤ size →
    (w.readVirt mem (wrap (va + k)) buf n).2 = true ∧
      ∀ i < n, (w.readVirt mem (wrap (va + k)) buf n).1.buf i =
        (w.virtToPhys mem (wrap (va + (k + i)))).bind (byteAt mem)
  others : w.OnBacked mem va size → w.Steady mem va size → ∀ (buf : Buf) a,
    (∀ i < size, w.virtToPhys mem (wrap (va + i)) ≠ some a) →
      byteAt (w.writeVirt mem va buf size).1.mem a = byteAt mem a
  back : w.OnBacked mem va size → w.Steady mem va size → w.Distinct mem va size →
    ∀ (bytes : Nat → UInt8) (buf : Buf), (w.writeVirt mem va (fun i => some (bytes i)) size).2 = true ∧
      (w.readVirt (w.writeVirt mem va (fun i => some (bytes i)) size).1.mem va buf size).2 = true ∧
      ∀ i < size, (w.readVirt (w.writeVirt mem va (fun i => some (bytes i)) size).1.mem va buf size).1.buf i =
        some (bytes i)

theorem wrap_wrap_add (a i : Nat) : wrap (wrap a + i) = wrap (a + i) := by
  unfold wrap
  omega

section ranges
variable (w : Walk) {mem : Mem} {va size : Nat}

theorem Walk.readVirt_backed (hpages : PageBlocks mem) (hback : w.OnBacked mem va size) (buf : Buf) :
    (w.readVirt mem va buf size).2 = true ∧ ∀ i < size, (w.readVirt mem va buf size).1.buf i =
      (w.virtToPhys mem (wrap (va + i))).bind (byteAt mem) := by
  obtain ⟨hok, -, hbuf⟩ := w.copyLoop_read va size hpages size 0 { mem, buf } rfl (Nat.sub_le _ _)
    fun i _ hi => by
      obtain ⟨frame, hr, -⟩ := hback i hi
      rw [hr]
      rfl
  refine ⟨hok, fun i hi => (hbuf i).trans ?_⟩
  rw [if_pos ⟨Nat.zero_le _, hi⟩]
  obtain ⟨frame, hr, hb⟩ := hback i hi
  have hpa := Walk.chunk_pa hr
  have hfound := hpages.found (w.frame hr).1 (pageOff_lt (wrap (va + i)))
  obtain ⟨b, hb⟩ := Option.isSome_iff_exists.mp hb
  unfold Walk.virtToPhys byteAt
  rw [hr, Option.map_some, Option.bind_some, hpa, hfound, hb]
  rfl

theorem Walk.writeVirt_written (hpages : PageBlocks mem) (hsize : size < 2 ^ 64)
    (hback : w.OnBacked mem va size) (hsteady : w.Steady mem va size) (buf : Buf) :
    (w.writeVirt mem va buf size).2 = true ∧
      w.Written mem (w.writeVirt mem va buf size).1.mem va size (fun i => (buf i).getD 0) size ∧
      w.Lands mem va buf size :=
  Walk.copyLoop_write hpages hsize hback hsteady buf size 0 { mem, buf } rfl (Nat.sub_le _ _) (Nat.zero_le _)
    ⟨hpages, fun _ => rfl, fun _ _ => rfl, fun _ => nofun⟩

theorem Walk.exact (hpages : PageBlocks mem) (va : Nat) (hsize : size < 2 ^ 64) : w.Exact mem va size := by
  refine ⟨?_, fun hback k n buf hk => ?_, fun hback hsteady buf a ha => ?_,
    fun hback hsteady hdist bytes buf => ?_⟩
  · rintro ⟨i, hi, hnone⟩ buf
    exact w.copyLoop_throws va size size 0 _ rfl (Nat.sub_le _ _) ⟨i, Nat.zero_le _, hi, hnone⟩
  · have hsub : w.OnBacked mem (wrap (va + k)) n := by
      intro i hi
      rw [wrap_wrap_add, Nat.add_assoc]
      exact hback (k + i) (by omega)
    obtain ⟨hok, hbuf⟩ := w.readVirt_backed hpages hsub buf
    refine ⟨hok, fun i hi => ?_⟩
    rw [hbuf i hi, wrap_wrap_add, Nat.add_assoc]
  · exact (w.writeVirt_written hpages hsize hback hsteady buf).2.1.other a ha
  · obtain ⟨hok, hw, -⟩ := w.writeVirt_written hpages hsize hback hsteady fun i => some (bytes i)
    generalize (w.writeVirt mem va (fun i => some (bytes i)) size).1.mem = mem' at hw ⊢
    have hresolve : ∀ i < size, w.resolve mem' (pageAlign (wrap (va + i))) =
        w.resolve mem (pageAlign (wrap (va + i))) :=
      fun i hi => hw.resolve hpages hsteady (Nat.le_refl _) hi
    have hback' : w.OnBacked mem' va size := by
      intro i hi
      obtain ⟨frame, hr, hb⟩ := hback i hi
      exact ⟨frame, (hresolve i hi).trans hr, (hw.backed frame).trans hb⟩
    obtain ⟨hok', hbuf⟩ := w.readVirt_backed hw.pages hback' buf
    refine ⟨hok, hok', fun i hi => ?_⟩
    have hsame : w.virtToPhys mem' (wrap (va + i)) = w.virtToPhys mem (wrap (va + i)) := by
      unfold Walk.virtToPhys
      rw [hresolve i hi]
    rw [hbuf i hi, hsame]
    obtain ⟨frame, hr, -⟩ := hback i hi
    have hpa : w.virtToPhys mem (wrap (va + i)) = some _ := congrArg (Option.map _) hr
    rw [hpa, Option.bind_some]
    exact hw.image hdist i hi _ hpa

end ranges

end Kernemul.Phys
