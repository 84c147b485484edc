import Kernemul.Emu.Defs
import Mathlib.Data.List.Find
import Mathlib.Logic.Function.Basic

/-!
# Physical memory behind the emulator (`unicorn_emu_base`)

`mem_` is a map from addresses to blocks of bytes. A read or write looks up the block of its first byte and
goes to the end of that block at most; what is left over is dropped without a word.

The map is a list in the order it is walked in, which for a hash map may be any; blocks may overlap, and
then the first one that has a byte is asked for it. A host buffer is none at the bytes nothing has been
copied to yet; those read as zero.
-/

namespace Kernemul.Phys

/-- An entry of `mem_`, its bytes by their offset. -/
@[ext] structure Block where
  base : Nat
  size : Nat
  data : Nat → UInt8
  base_lt : base < 2 ^ 64
  size_lt : size < 2 ^ 64

abbrev Mem := List Block

abbrev Buf := Nat → Option UInt8

/-- The test of `find_backing`. -/
def Block.has (b : Block) (addr : Nat) : Bool := decide (b.base ≤ addr ∧ addr < wrap (b.base + b.size))

/-- `find_backing`: the block; the offset and what is left of it from there are computed from it. -/
def findBacking (mem : Mem) (addr : Nat) : Option Block := mem.find? fun b => b.has addr

def Block.avail (b : Block) (addr : Nat) : Nat := b.size - (addr - b.base)

def readPhysMem (mem : Mem) (addr : Nat) (buf : Buf) (size : Nat) : Buf :=
  match findBacking mem addr with
  | none => buf
  | some b => fun i =>
    if i < min size (b.avail addr) then some (b.data (addr - b.base + i)) else buf i

def Block.write (b : Block) (addr : Nat) (bytes : Nat → UInt8) (size : Nat) : Block :=
  let off := addr - b.base
  { b with data := fun o =>
      if off ≤ o ∧ o < off + min size (b.avail addr) then bytes (o - off) else b.data o }

def updateFirst {α : Type*} (p : α → Bool) (f : α → α) : List α → List α
  | [] => []
  | a :: l => if p a then f a :: l else a :: updateFirst p f l

def writePhysMem (mem : Mem) (addr : Nat) (bytes : Nat → UInt8) (size : Nat) : Mem :=
  updateFirst (fun b => b.has addr) (fun b => b.write addr bytes size) mem

/-- How many bytes `memcpy` copies in a read or write of physical memory. -/
def copied (mem : Mem) (addr size : Nat) : Nat :=
  match findBacking mem addr with
  | none => 0
  | some b => min size (b.avail addr)

/-- `map_phys_mem` on an entry that is there: `resize` keeps what fits and fills up with zeros. -/
def Block.resize (b : Block) (size : Nat) (h : size < 2 ^ 64) : Block :=
  { b with size, size_lt := h, data := fun o => if o < b.size then b.data o else 0 }

/-- `map_phys_mem`: the entry at the address is resized, or a new one of zeros is put into the map, which
may change the order of the rest. -/
inductive MapPhysMem (mem : Mem) (addr size : Nat) : Mem → Prop
  | resized (h : size < 2 ^ 64) (hkey : ∃ b ∈ mem, b.base = addr) :
    MapPhysMem mem addr size (updateFirst (fun b => b.base = addr) (fun b => b.resize size h) mem)
  | inserted (h : size < 2 ^ 64) (ha : addr < 2 ^ 64) (hkey : ∀ b ∈ mem, b.base ≠ addr) {mem' : Mem}
      (hperm : mem'.Perm (⟨addr, size, fun _ => 0, ha, h⟩ :: mem)) : MapPhysMem mem addr size mem'

/-! ## Single bytes -/

def byteAt (mem : Mem) (addr : Nat) : Option UInt8 := (findBacking mem addr).map fun b => b.data (addr - b.base)

/-- Reading the first `n` bytes of a range one by one. -/
def readBytes (mem : Mem) (addr : Nat) (buf : Buf) : Nat → Buf
  | 0 => buf
  | n + 1 =>
    let got := readPhysMem mem (wrap (addr + n)) (fun _ => buf n) 1
    Function.update (readBytes mem addr buf n) n (got 0)

/-- Writing the first `n` bytes of a range one by one. -/
def writeBytes (mem : Mem) (addr : Nat) (bytes : Nat → UInt8) : Nat → Mem
  | 0 => mem
  | n + 1 => writePhysMem (writeBytes mem addr bytes n) (wrap (addr + n)) (fun _ => bytes n) 1

def Backed (mem : Mem) (addr size : Nat) : Prop := ∀ i < size, (findBacking mem (wrap (addr + i))).isSome

instance (mem : Mem) (addr size : Nat) : Decidable (Backed mem addr size) :=
  inferInstanceAs (Decidable (∀ i < size, (findBacking mem (wrap (addr + i))).isSome))

structure ByteExact (mem : Mem) (addr size : Nat) : Prop where
  read : ∀ buf, readPhysMem mem addr buf size = readBytes mem addr buf size
  write : ∀ bytes, writePhysMem mem addr bytes size = writeBytes mem addr bytes size

def InBlock (mem : Mem) (addr size : Nat) : Prop :=
  ∀ i < size, findBacking mem (wrap (addr + i)) = findBacking mem addr

/-! ## Blocks -/

variable {b : Block} {addr : Nat}

theorem Block.has_iff : b.has addr = true ↔
    b.base ≤ addr ∧ addr < b.base + b.size ∧ b.base + b.size < 2 ^ 64 := by
  have h1 := b.base_lt
  have h2 := b.size_lt
  unfold Block.has wrap
  rw [decide_eq_true_eq]
  omega

theorem Block.write_data (b : Block) (addr : Nat) (bytes : Nat → UInt8) (size o : Nat) :
    (b.write addr bytes size).data o =
      if addr - b.base ≤ o ∧ o < addr - b.base + min size (b.avail addr) then bytes (o - (addr - b.base))
      else b.data o := rfl

@[simp] theorem Block.write_base (b : Block) (addr : Nat) (bytes : Nat → UInt8) (size : Nat) :
    (b.write addr bytes size).base = b.base := rfl

theorem Block.avail_eq (b : Block) (addr : Nat) : b.avail addr = b.size - (addr - b.base) := rfl

@[simp] theorem Block.write_has (b : Block) (addr : Nat) (bytes : Nat → UInt8) (size a : Nat) :
    (b.write addr bytes size).has a = b.has a := rfl

variable {mem : Mem}

theorem findBacking_has (h : findBacking mem addr = some b) :
    b.has addr = true :=
  List.find?_some (p := fun b : Block => b.has addr) h

section updateFirst
variable {α : Type*} {p q : α → Bool} {f g : α → α}

theorem find_updateFirst (hq : ∀ a, q (f a) = q a) (l : List α) :
    (∀ a, l.find? q = some a → l.find? p = some a → (updateFirst p f l).find? q = some (f a)) ∧
      (∀ a, l.find? q = some a → l.find? p ≠ some a → (updateFirst p f l).find? q = some a) ∧
      (l.find? q = none → (updateFirst p f l).find? q = none) := by
  induction l with
  | nil => exact ⟨nofun, nofun, fun _ => rfl⟩
  | cons a l ih =>
    obtain ⟨ih1, ih2, ih3⟩ := ih
    cases hp : p a with
    | true =>
      have hup : updateFirst p f (a :: l) = f a :: l := by rw [updateFirst, hp, if_pos rfl]
      rw [hup]
      simp only [List.find?_cons, hq, hp]
      cases hqa : q a with
      | true => exact ⟨fun c h _ => by rw [Option.some.inj h], fun c h hne => absurd h hne, nofun⟩
      | false =>
        refine ⟨fun c h heq => ?_, fun c h _ => h, fun h => h⟩
        obtain rfl := Option.some.inj heq
        have := List.find?_some h
        rw [hqa] at this
        cases this
    | false =>
      have hup : updateFirst p f (a :: l) = a :: updateFirst p f l := by
        rw [updateFirst, hp, if_neg (by decide)]
      rw [hup]
      simp only [List.find?_cons, hp]
      cases hqa : q a with
      | true =>
        refine ⟨fun c h heq => ?_, fun c h _ => h, nofun⟩
        obtain rfl := Option.some.inj h
        have := List.find?_some heq
        rw [hp] at this
        cases this
      | false => exact ⟨ih1, ih2, ih3⟩

theorem updateFirst_updateFirst {l : List α} (hq : ∀ a, q (f a) = q a) (h : l.find? q = l.find? p) :
    updateFirst q g (updateFirst p f l) = updateFirst p (fun a => g (f a)) l := by
  induction l with
  | nil => rfl
  | cons a l ih =>
    rw [List.find?_cons, List.find?_cons] at h
    cases hp : p a with
    | true =>
      rw [hp] at h
      cases hqa : q a with
      | true => rw [updateFirst, hp, if_pos rfl, updateFirst, hq, hqa, if_pos rfl, updateFirst, hp, if_pos rfl]
      | false =>
        rw [hqa] at h
        have := List.find?_some h
        rw [hqa] at this
        cases this
    | false =>
      rw [hp] at h
      cases hqa : q a with
      | true =>
        rw [hqa] at h
        have := List.find?_some h.symm
        rw [hp] at this
        cases this
      | false =>
        rw [hqa] at h
        rw [updateFirst, hp, if_neg (by decide), updateFirst, hqa, if_neg (by decide), ih h, updateFirst, hp,
          if_neg (by decide)]

theorem updateFirst_congr {l : List α} (h : ∀ a, l.find? p = some a → f a = g a) :
    updateFirst p f l = updateFirst p g l := by
  induction l with
  | nil => rfl
  | cons a l ih =>
    rw [List.find?_cons] at h
    cases hp : p a with
    | true =>
      rw [hp] at h
      rw [updateFirst, hp, if_pos rfl, h a rfl, updateFirst, hp, if_pos rfl]
    | false =>
      rw [hp] at h
      rw [updateFirst, hp, if_neg (by decide), ih h, updateFirst, hp, if_neg (by decide)]

end updateFirst

/-! ## Writes, byte by byte -/

theorem readPhysMem_none (hb : findBacking mem addr = none) (buf : Buf) (size : Nat) :
    readPhysMem mem addr buf size = buf := by
  simp only [readPhysMem, hb]

theorem readPhysMem_some (hb : findBacking mem addr = some b) (buf : Buf)
    (size i : Nat) : readPhysMem mem addr buf size i =
      if i < min size (b.avail addr) then some (b.data (addr - b.base + i)) else buf i := by
  simp only [readPhysMem, hb]

/-- What a write changes: the bytes of the block of its first byte, from there on. -/
theorem byteAt_write_same {a : Nat} (hb : findBacking mem addr = some b)
    (ha : findBacking mem a = some b) (bytes : Nat → UInt8) (size : Nat) :
    byteAt (writePhysMem mem addr bytes size) a =
      if addr ≤ a ∧ a < addr + size then some (bytes (a - addr)) else byteAt mem a := by
  obtain ⟨hlo, -, -⟩ := Block.has_iff.mp (findBacking_has hb)
  obtain ⟨hlo', hhi', -⟩ := Block.has_iff.mp (findBacking_has ha)
  have hfind : findBacking (writePhysMem mem addr bytes size) a = some (b.write addr bytes size) :=
    (find_updateFirst (p := fun b : Block => b.has addr) (q := fun b : Block => b.has a)
      (f := fun b : Block => b.write addr bytes size) (fun _ => rfl) mem).1 b ha hb
  have hav := b.avail_eq addr
  unfold byteAt
  rw [hfind, ha, Option.map_some, Option.map_some, Block.write_data, Block.write_base]
  by_cases hin : addr ≤ a ∧ a < addr + size
  · rw [if_pos hin, if_pos (by omega), show a - b.base - (addr - b.base) = a - addr by omega]
  · rw [if_neg hin, if_neg (by omega)]

theorem byteAt_write_other {a : Nat} (hne : findBacking mem a ≠ findBacking mem addr)
    (bytes : Nat → UInt8) (size : Nat) : byteAt (writePhysMem mem addr bytes size) a = byteAt mem a := by
  obtain ⟨-, hother, hnone⟩ := find_updateFirst (p := fun b : Block => b.has addr) (q := fun b : Block => b.has a)
    (f := fun b : Block => b.write addr bytes size) (fun _ => rfl) mem
  unfold byteAt
  cases ha : findBacking mem a with
  | none => rw [show findBacking (writePhysMem mem addr bytes size) a = none from hnone ha]
  | some c =>
    have hc : findBacking mem addr ≠ some c := fun h => hne (ha.trans h.symm)
    rw [show findBacking (writePhysMem mem addr bytes size) a = some c from hother c ha hc]

theorem findBacking_write (mem : Mem) (addr : Nat) (bytes : Nat → UInt8) (size a : Nat) :
    (findBacking (writePhysMem mem addr bytes size) a).map (fun b => (b.base, b.size)) =
      (findBacking mem a).map fun b => (b.base, b.size) := by
  obtain ⟨hsame, hother, hnone⟩ := find_updateFirst (p := fun b : Block => b.has addr) (q := fun b : Block => b.has a)
    (f := fun b : Block => b.write addr bytes size) (fun _ => rfl) mem
  cases ha : findBacking mem a with
  | none => rw [show findBacking (writePhysMem mem addr bytes size) a = none from hnone ha]
  | some c =>
    by_cases hc : findBacking mem addr = some c
    · rw [show findBacking (writePhysMem mem addr bytes size) a = some (c.write addr bytes size) from
        hsame c ha hc]
      rfl
    · rw [show findBacking (writePhysMem mem addr bytes size) a = some c from hother c ha hc]

theorem isSome_findBacking_write (mem : Mem) (addr : Nat) (bytes : Nat → UInt8) (size a : Nat) :
    (findBacking (writePhysMem mem addr bytes size) a).isSome = (findBacking mem a).isSome := by
  have := congrArg Option.isSome (findBacking_write mem addr bytes size a)
  rwa [Option.isSome_map, Option.isSome_map] at this

theorem byteAt_write_one (hb : (findBacking mem addr).isSome) (bytes : Nat → UInt8)
    (a : Nat) : byteAt (writePhysMem mem addr bytes 1) a = if a = addr then some (bytes 0) else byteAt mem a := by
  obtain ⟨b, hb⟩ := Option.isSome_iff_exists.mp hb
  by_cases hsame : findBacking mem a = findBacking mem addr
  · rw [byteAt_write_same hb (hsame.trans hb)]
    by_cases ha : a = addr
    · rw [if_pos (by omega), if_pos ha, ha, Nat.sub_self]
    · rw [if_neg (by omega), if_neg ha]
  · rw [byteAt_write_other hsame, if_neg fun ha => hsame (by rw [ha])]

theorem readPhysMem_one (mem : Mem) (addr : Nat) (buf : Buf) :
    readPhysMem mem addr buf 1 0 = (byteAt mem addr).or (buf 0) := by
  unfold byteAt
  cases hb : findBacking mem addr with
  | none => exact congrFun (readPhysMem_none hb buf 1) 0
  | some b =>
    obtain ⟨hlo, hhi, -⟩ := Block.has_iff.mp (findBacking_has hb)
    have hav := b.avail_eq addr
    rw [readPhysMem_some hb, if_pos (by omega), Nat.add_zero]
    rfl

theorem readBytes_apply (buf : Buf) (n i : Nat) :
    readBytes mem addr buf n i =
      if i < n then (byteAt mem (wrap (addr + i))).or (buf i) else buf i := by
  induction n with
  | zero => rfl
  | succ n ih =>
    rw [readBytes]
    by_cases hi : i = n
    · subst hi
      rw [Function.update_self, readPhysMem_one, if_pos (Nat.lt_succ_self _)]
    · rw [Function.update_of_ne hi, ih]
      by_cases hlt : i < n
      · rw [if_pos hlt, if_pos (by omega)]
      · rw [if_neg hlt, if_neg (by omega)]

variable {size : Nat}

/-- The range lies in the block: the bytes are found there, and do not wrap. -/
theorem InBlock.within (h : InBlock mem addr size) (ha : addr < 2 ^ 64) (hb : findBacking mem addr = some b) :
    ∀ i < size, wrap (addr + i) = addr + i ∧ i < b.avail addr := by
  intro i
  induction i with
  | zero =>
    intro _
    obtain ⟨hlo, hhi, -⟩ := Block.has_iff.mp (findBacking_has hb)
    exact ⟨wrap_of_lt ha, by unfold Block.avail; omega⟩
  | succ i ih =>
    intro hi
    obtain ⟨-, hav⟩ := ih (by omega)
    have hfound := h (i + 1) hi
    obtain ⟨hlo, hhi, hend⟩ := Block.has_iff.mp (findBacking_has hb)
    obtain ⟨hlo', hhi', -⟩ := Block.has_iff.mp (findBacking_has (hfound.trans hb))
    unfold Block.avail at *
    have hw : wrap (addr + (i + 1)) = addr + (i + 1) := wrap_of_lt (by omega)
    rw [hw] at hlo' hhi'
    exact ⟨hw, by omega⟩

theorem readPhysMem_inBlock (h : InBlock mem addr size) (ha : addr < 2 ^ 64)
    (hb : (findBacking mem addr).isSome) (buf : Buf) (i : Nat) :
    readPhysMem mem addr buf size i = if i < size then byteAt mem (wrap (addr + i)) else buf i := by
  obtain ⟨b, hb⟩ := Option.isSome_iff_exists.mp hb
  obtain ⟨hlo, -, -⟩ := Block.has_iff.mp (findBacking_has hb)
  rw [readPhysMem_some hb]
  by_cases hi : i < size
  · obtain ⟨hw, hav⟩ := h.within ha hb i hi
    unfold byteAt
    rw [if_pos (by omega), if_pos hi, h i hi, hb, hw, Option.map_some,
      show addr + i - b.base = addr - b.base + i by omega]
  · rw [if_neg (by omega), if_neg hi]

theorem byteAt_write_inBlock (h : InBlock mem addr size) (ha : addr < 2 ^ 64)
    (hb : (findBacking mem addr).isSome) (bytes : Nat → UInt8) (a : Nat) :
    byteAt (writePhysMem mem addr bytes size) a =
      if addr ≤ a ∧ a < addr + size then some (bytes (a - addr)) else byteAt mem a := by
  obtain ⟨b, hb⟩ := Option.isSome_iff_exists.mp hb
  by_cases hsame : findBacking mem a = findBacking mem addr
  · exact byteAt_write_same hb (hsame.trans hb) bytes size
  · rw [byteAt_write_other hsame, if_neg]
    rintro ⟨hlo, hhi⟩
    have hi : a - addr < size := by omega
    obtain ⟨hw, -⟩ := h.within ha hb (a - addr) hi
    have := h (a - addr) hi
    rw [hw, Nat.add_sub_cancel' hlo] at this
    exact hsame this

/-! ## Ranges over several blocks -/

theorem Block.write_write {n : Nat} (hlo : b.base ≤ addr) (hav : n < b.avail addr) (bytes : Nat → UInt8) :
    (b.write addr bytes n).write (addr + n) (fun _ => bytes n) 1 = b.write addr bytes (n + 1) := by
  have havail := b.avail_eq addr
  have havail' : (b.write addr bytes n).avail (addr + n) = b.size - (addr + n - b.base) := rfl
  refine Block.ext rfl rfl (funext fun o => ?_)
  rw [Block.write_data, Block.write_data, Block.write_data, Block.write_base]
  by_cases ho : o = addr - b.base + n
  · rw [if_pos (by omega), if_pos (by omega), show o - (addr - b.base) = n by omega]
  · rw [if_neg (by omega)]
    by_cases hin : addr - b.base ≤ o ∧ o < addr - b.base + min n (b.avail addr)
    · rw [if_pos hin, if_pos (by omega)]
    · rw [if_neg hin, if_neg (by omega)]

theorem Block.write_zero (b : Block) (addr : Nat) (bytes : Nat → UInt8) : b.write addr bytes 0 = b := by
  refine Block.ext rfl rfl (funext fun o => ?_)
  rw [Block.write_data, if_neg (by omega)]

theorem writePhysMem_zero (mem : Mem) (addr : Nat) (bytes : Nat → UInt8) :
    writePhysMem mem addr bytes 0 = mem := by
  unfold writePhysMem
  induction mem with
  | nil => rfl
  | cons b mem ih => rw [updateFirst, ih, Block.write_zero, ite_self]

theorem readPhysMem_zero (mem : Mem) (addr : Nat) (buf : Buf) : readPhysMem mem addr buf 0 = buf := by
  cases hb : findBacking mem addr with
  | none => exact readPhysMem_none hb buf 0
  | some b =>
    funext i
    rw [readPhysMem_some hb, if_neg (by omega)]

theorem writeBytes_inBlock (h : InBlock mem addr size) (ha : addr < 2 ^ 64)
    (hb : (findBacking mem addr).isSome) (bytes : Nat → UInt8) :
    ∀ n, n ≤ size → writeBytes mem addr bytes n = writePhysMem mem addr bytes n := by
  obtain ⟨b, hb⟩ := Option.isSome_iff_exists.mp hb
  obtain ⟨hlo, -, -⟩ := Block.has_iff.mp (findBacking_has hb)
  intro n
  induction n with
  | zero => exact fun _ => (writePhysMem_zero mem addr bytes).symm
  | succ n ih =>
    intro hn
    obtain ⟨hw, hav⟩ := h.within ha hb n hn
    have hsame : mem.find? (fun b => b.has (addr + n)) = mem.find? fun b => b.has addr := by
      have := h n hn
      rwa [hw] at this
    rw [writeBytes, ih (by omega), hw]
    unfold writePhysMem
    rw [updateFirst_updateFirst (p := fun b : Block => b.has addr) (q := fun b : Block => b.has (addr + n))
      (fun c => Block.write_has c addr bytes n (addr + n)) hsame]
    refine updateFirst_congr fun c hc => ?_
    obtain rfl := Option.some.inj (hc.symm.trans hb)
    exact Block.write_write hlo hav bytes

/-- Writing byte by byte leaves each byte written, when no address comes twice. -/
theorem byteAt_writeBytes (hback : Backed mem addr size)
    (hdistinct : ∀ i < size, wrap (addr + i) = addr + i) (bytes : Nat → UInt8) : ∀ n, n ≤ size →
      (∀ a, (findBacking (writeBytes mem addr bytes n) a).isSome = (findBacking mem a).isSome) ∧
        ∀ i < n, byteAt (writeBytes mem addr bytes n) (addr + i) = some (bytes i) := by
  intro n
  induction n with
  | zero => exact fun _ => ⟨fun _ => rfl, nofun⟩
  | succ n ih =>
    intro hn
    obtain ⟨hsome, hbytes⟩ := ih (by omega)
    have hw := hdistinct n hn
    rw [writeBytes, hw]
    have hfound : (findBacking (writeBytes mem addr bytes n) (addr + n)).isSome := by
      rw [hsome, ← hw]
      exact hback n hn
    refine ⟨fun a => ?_, fun i hi => ?_⟩
    · rw [isSome_findBacking_write, hsome]
    · rw [byteAt_write_one hfound]
      by_cases hin : i = n
      · rw [if_pos (by omega), hin]
      · rw [if_neg (by omega)]
        exact hbytes i (by omega)

/-- What reading and writing a range at once have to do is that its bytes are all found in one block. -/
theorem ByteExact.inBlock (h : ByteExact mem addr size) (ha : addr < 2 ^ 64)
    (hback : Backed mem addr size) : InBlock mem addr size := by
  intro k hk
  have hfirst := hback 0 (by omega)
  rw [Nat.add_zero, wrap_of_lt ha] at hfirst
  obtain ⟨b, hb⟩ := Option.isSome_iff_exists.mp hfirst
  obtain ⟨hlo, hhi, hend⟩ := Block.has_iff.mp (findBacking_has hb)
  have hav := b.avail_eq addr
  -- reading into an empty buffer shows how far the block reaches
  have hreach : ∀ i < size, i < b.avail addr := by
    intro i hi
    have hread := congrFun (h.read fun _ => none) i
    rw [readBytes_apply, if_pos hi] at hread
    obtain ⟨c, hc⟩ := Option.isSome_iff_exists.mp (hback i hi)
    unfold byteAt at hread
    by_contra hge
    rw [hc, readPhysMem_some hb, if_neg (by omega)] at hread
    cases hread
  have hplain : ∀ i < size, wrap (addr + i) = addr + i := fun i hi => wrap_of_lt (by have := hreach i hi; omega)
  by_contra hne
  -- a byte found elsewhere is left as it was by the write, but not byte by byte
  rw [hplain k hk] at hne
  obtain ⟨c, hc⟩ := Option.isSome_iff_exists.mp (hplain k hk ▸ hback k hk)
  have hwrite := h.write fun _ => c.data (addr + k - c.base) + 1
  have hbyte := (byteAt_writeBytes hback hplain (fun _ => c.data (addr + k - c.base) + 1) size
    (Nat.le_refl _)).2 k hk
  rw [← hwrite, byteAt_write_other hne] at hbyte
  unfold byteAt at hbyte
  rw [hc, Option.map_some] at hbyte
  have hself := Option.some.inj hbyte
  simp at hself

/-- **Physical access is byte exact** exactly when every byte is found in the block of the first one. -/
theorem byteExact_iff (ha : addr < 2 ^ 64) (hback : Backed mem addr size) :
    ByteExact mem addr size ↔ InBlock mem addr size := by
  refine ⟨fun h => h.inBlock ha hback, fun h => ?_⟩
  rcases Nat.eq_zero_or_pos size with rfl | hpos
  · exact ⟨fun buf => readPhysMem_zero mem addr buf, fun bytes => writePhysMem_zero mem addr bytes⟩
  have hfirst : (findBacking mem addr).isSome := by
    have := hback 0 hpos
    rwa [Nat.add_zero, wrap_of_lt ha] at this
  refine ⟨fun buf => ?_, fun bytes => (writeBytes_inBlock h ha hfirst bytes size (Nat.le_refl _)).symm⟩
  funext i
  rw [readPhysMem_inBlock h ha hfirst, readBytes_apply]
  by_cases hi : i < size
  · rw [if_pos hi, if_pos hi]
    obtain ⟨b, hb⟩ := Option.isSome_iff_exists.mp (hback i hi)
    unfold byteAt
    rw [hb]
    rfl
  · rw [if_neg hi, if_neg hi]

/-! ## Whole pages -/

def PageBlocks (mem : Mem) : Prop := ∀ b ∈ mem, IsPage b.base ∧ IsPage b.size

instance (mem : Mem) : Decidable (PageBlocks mem) :=
  inferInstanceAs (Decidable (∀ b ∈ mem, IsPage b.base ∧ IsPage b.size))

theorem mem_of_findBacking (h : findBacking mem addr = some b) :
    b ∈ mem :=
  List.mem_of_find?_eq_some h

theorem mem_updateFirst {α : Type*} {p : α → Bool} {f : α → α} {l : List α} {a : α}
    (h : a ∈ updateFirst p f l) : a ∈ l ∨ ∃ c ∈ l, a = f c := by
  induction l with
  | nil => exact Or.inl h
  | cons c l ih =>
    rw [updateFirst] at h
    split at h
    · rcases List.mem_cons.mp h with rfl | h
      · exact Or.inr ⟨c, List.mem_cons_self, rfl⟩
      · exact Or.inl (List.mem_cons_of_mem c h)
    · rcases List.mem_cons.mp h with rfl | h
      · exact Or.inl List.mem_cons_self
      · rcases ih h with h | ⟨d, hd, rfl⟩
        · exact Or.inl (List.mem_cons_of_mem c h)
        · exact Or.inr ⟨d, List.mem_cons_of_mem c hd, rfl⟩

theorem PageBlocks.write (h : PageBlocks mem) (addr : Nat) (bytes : Nat → UInt8) (size : Nat) :
    PageBlocks (writePhysMem mem addr bytes size) := by
  intro b hb
  rcases mem_updateFirst hb with hb | ⟨c, hc, rfl⟩
  · exact h b hb
  · exact h c hc

/-- `alloc_phys_locked` and `back_phys` ask for whole pages, so that blocks stay whole pages. -/
theorem PageBlocks.mapPhysMem {mem' : Mem} (h : PageBlocks mem) (ha : IsPage addr)
    (hs : IsPage size) (hmap : MapPhysMem mem addr size mem') : PageBlocks mem' := by
  intro b hb
  cases hmap with
  | resized hlt _ =>
    rcases mem_updateFirst hb with hb | ⟨c, hc, rfl⟩
    · exact h b hb
    · exact ⟨(h c hc).1, hs⟩
  | inserted hlt haddr _ hperm =>
    rcases List.mem_cons.mp (hperm.mem_iff.mp hb) with rfl | hb
    · exact ⟨ha, hs⟩
    · exact h b hb

theorem PageBlocks.found {mem : Mem} (h : PageBlocks mem) {frame off : Nat} (hf : IsPage frame)
    (ho : off < pageSize) : findBacking mem (frame + off) = findBacking mem frame := by
  unfold findBacking
  refine List.find?_congr fun b hb => ?_
  obtain ⟨hbase, hsize⟩ := h b hb
  rw [Bool.eq_iff_iff, Block.has_iff, Block.has_iff]
  unfold IsPage pageSize at *
  omega

theorem PageBlocks.inBlock (h : PageBlocks mem) {frame off : Nat} (hf : IsPage frame)
    (hlt : frame < 2 ^ 64) (hin : off + size ≤ pageSize) : InBlock mem (frame + off) size := by
  intro i hi
  have hw : wrap (frame + off + i) = frame + (off + i) := by
    rw [Nat.add_assoc]
    refine wrap_of_lt ?_
    unfold IsPage pageSize at *
    omega
  rw [hw, h.found hf (by omega), h.found hf (by omega)]

theorem PageBlocks.read (h : PageBlocks mem) {frame off : Nat} (hf : IsPage frame)
    (hlt : frame < 2 ^ 64) (ho : off < pageSize) (hin : off + size ≤ pageSize) (buf : Buf) (i : Nat) :
    readPhysMem mem (frame + off) buf size i =
      if i < size then (byteAt mem (frame + off + i)).or (buf i) else buf i := by
  have hpa : frame + off < 2 ^ 64 := by
    unfold IsPage pageSize at *
    omega
  by_cases hi : i < size
  · have hfound : findBacking mem (frame + off + i) = findBacking mem (frame + off) := by
      rw [Nat.add_assoc, h.found hf (by omega), h.found hf ho]
    rw [if_pos hi]
    cases hb : findBacking mem (frame + off) with
    | none =>
      unfold byteAt
      rw [readPhysMem_none hb, hfound, hb]
      rfl
    | some b =>
      have hsome : (findBacking mem (frame + off)).isSome := by rw [hb]; rfl
      have hw : wrap (frame + off + i) = frame + off + i := by
        refine wrap_of_lt ?_
        unfold IsPage pageSize at *
        omega
      rw [readPhysMem_inBlock (h.inBlock hf hlt hin) hpa hsome, if_pos hi, hw]
      unfold byteAt
      rw [hfound, hb]
      rfl
  · rw [if_neg hi]
    cases hb : findBacking mem (frame + off) with
    | none => rw [readPhysMem_none hb]
    | some b => rw [readPhysMem_some hb, if_neg (by omega)]

theorem PageBlocks.byteAt_write (h : PageBlocks mem) {frame off : Nat} (hf : IsPage frame)
    (hlt : frame < 2 ^ 64) (ho : off < pageSize) (hin : off + size ≤ pageSize)
    (hb : (findBacking mem frame).isSome) (bytes : Nat → UInt8) (a : Nat) :
    byteAt (writePhysMem mem (frame + off) bytes size) a =
      if frame + off ≤ a ∧ a < frame + off + size then some (bytes (a - (frame + off))) else byteAt mem a := by
  have hpa : frame + off < 2 ^ 64 := by
    unfold IsPage pageSize at *
    omega
  rw [← h.found hf ho] at hb
  exact byteAt_write_inBlock (h.inBlock hf hlt hin) hpa hb bytes a

theorem PageBlocks.copied_eq (h : PageBlocks mem) {frame off : Nat} (hf : IsPage frame)
    (ho : off < pageSize) (hin : off + size ≤ pageSize) :
    copied mem (frame + off) size = if (findBacking mem frame).isSome then size else 0 := by
  unfold copied
  rw [h.found hf ho]
  cases hb : findBacking mem frame with
  | none => rfl
  | some b =>
    obtain ⟨hlo, hhi, -⟩ := Block.has_iff.mp (findBacking_has hb)
    obtain ⟨hbase, hsize⟩ := h b (mem_of_findBacking hb)
    have hav := b.avail_eq (frame + off)
    have hreach : size ≤ b.avail (frame + off) := by
      unfold IsPage pageSize at *
      omega
    exact Nat.min_eq_left hreach

end Kernemul.Phys
