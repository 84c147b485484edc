import Kernemul.Lib.ByteMemory
import Kernemul.Lib.Ring

/-!
# Lists in guest memory (`win_linked_list`, `ldr_module_list`)

A list is a head and the records of one type, each with a `list_entry` at the offset that goes with the list. One record
can stand on several lists at different offsets. The links are words of one flat memory, and an operation writes four of
them at most, in the head, in the record and in the neighbours. On links that do not overlap those it writes, it does
what the edits of a ring do.
-/

namespace Kernemul.GuestLists

open ByteMemory LinkRing

abbrev Ptr := BitVec 64

instance : Encoding Ptr where
  size := 8
  encode p := Bytes.ofNat 8 p.toNat
  decode bytes := BitVec.ofNat 64 (Bytes.toNat bytes)
  length_encode p := Bytes.length_ofNat 8 p.toNat
  decode_encode p := by
    rw [Bytes.toNat_ofNat_of_lt p.isLt, BitVec.ofNat_toNat, BitVec.setWidth_eq]

/-! ## The operations -/

def encodeLinks (links : Links Ptr) : List UInt8 := encodeAll [links.flink, links.blink]

/-- `read_links`, and `read` of a head. -/
def readLinks (mem : Memory) (at' : Ptr) : Links Ptr := ⟨load Ptr mem at'.toNat, load Ptr mem (at'.toNat + 8)⟩

def writeLinks (mem : Memory) (at' : Ptr) (links : Links Ptr) : Memory := writeMem mem at'.toNat (encodeLinks links)

def writeFlink (mem : Memory) (at' value : Ptr) : Memory := writeMem mem at'.toNat (Encoding.encode value)

def writeBlink (mem : Memory) (at' value : Ptr) : Memory := writeMem mem (at' + 8).toNat (Encoding.encode value)

@[simp] theorem length_encodeLinks (links : Links Ptr) : (encodeLinks links).length = 16 := length_encodeAll _

/-- The bytes of a value of a type `T`. -/
abbrev Record (size : ℕ) := { bytes : List UInt8 // bytes.length = size }

theorem Record.length_val {size : ℕ} (r : Record size) : r.1.length = size := r.2

/-- A `win_linked_list<T, LinksOffset>`; `recordSize` is `sizeof(T)`. -/
structure GuestList where
  head : Ptr
  linksOffset : ℕ
  recordSize : ℕ
  inside : linksOffset + 16 ≤ recordSize
  deriving DecidableEq

def GuestList.linksAddr (l : GuestList) (entryAddr : Ptr) : Ptr := entryAddr + BitVec.ofNat 64 l.linksOffset

theorem length_getD_patch {size : ℕ} (entry : Record size) (offset : ℕ) (bytes : List UInt8) :
    ((Bytes.patch entry.1 offset bytes).getD entry.1).length = size := by
  cases h : Bytes.patch entry.1 offset bytes with
  | none => exact entry.2
  | some bytes => exact (Bytes.length_patch h).trans entry.2

/-- `links_of(entry) = links` -/
def setLinks {size : ℕ} (entry : Record size) (offset : ℕ) (links : Links Ptr) : Record size :=
  ⟨(Bytes.patch entry.1 offset (encodeLinks links)).getD entry.1, length_getD_patch entry offset (encodeLinks links)⟩

def readRecord (mem : Memory) (addr : Ptr) (size : ℕ) : Record size :=
  ⟨readMem mem addr.toNat size, length_readMem mem addr.toNat size⟩

def GuestList.init (l : GuestList) (mem : Memory) : Memory := writeLinks mem l.head ⟨l.head, l.head⟩

/-- `push_back(entry, entry_addr)` -/
def GuestList.pushBackAt (l : GuestList) (mem : Memory) (entry : Record l.recordSize) (entryAddr : Ptr) : Memory :=
  let head := readLinks mem l.head
  let tailLinks := head.blink
  let contents := setLinks entry l.linksOffset ⟨l.head, tailLinks⟩
  let mem := writeMem mem entryAddr.toNat contents.1
  if tailLinks = l.head then writeLinks mem l.head ⟨l.linksAddr entryAddr, l.linksAddr entryAddr⟩
  else writeLinks (writeFlink mem tailLinks (l.linksAddr entryAddr)) l.head ⟨head.flink, l.linksAddr entryAddr⟩

/-- `push_back(obj)` -/
def GuestList.pushBackObject (l : GuestList) (mem : Memory) (addr : Ptr) : Memory :=
  l.pushBackAt mem (readRecord mem addr l.recordSize) addr

def GuestList.remove (l : GuestList) (mem : Memory) (entryAddr : Ptr) : Memory :=
  let entryLinks := readLinks mem (l.linksAddr entryAddr)
  writeFlink (writeBlink mem entryLinks.flink entryLinks.blink) entryLinks.blink entryLinks.flink

def GuestList.forEach {σ : Type*} (l : GuestList) (mem : Memory) (fn : Ptr → σ → σ × Bool) (fuel : ℕ) (s : σ) :
    Option σ :=
  traverse (fun cur => (readLinks mem cur).flink) l.head (fun cur => fn (cur - BitVec.ofNat 64 l.linksOffset)) fuel
    (readLinks mem l.head).flink s

def GuestList.forEachBack {σ : Type*} (l : GuestList) (mem : Memory) (fn : Ptr → σ → σ × Bool) (fuel : ℕ) (s : σ) :
    Option σ :=
  traverse (fun cur => (readLinks mem cur).blink) l.head (fun cur => fn (cur - BitVec.ofNat 64 l.linksOffset)) fuel
    (readLinks mem l.head).blink s

def GuestList.size (l : GuestList) (mem : Memory) (fuel : ℕ) : Option ℕ :=
  l.forEach mem (fun _ n => (n + 1, true)) fuel 0

def GuestList.empty (l : GuestList) (mem : Memory) : Bool := (readLinks mem l.head).flink == l.head

/-! ## The lists of the loader -/

/-- The lists of a `_PEB_LDR_DATA`. -/
inductive Order
  | load
  | memory
  | initialization
  deriving DecidableEq, Repr

/-- Where the links are in a `_LDR_DATA_TABLE_ENTRY`; in a `_PEB_LDR_DATA` the heads come 16 bytes later. -/
def Order.offset : Order → ℕ
  | .load => 0x00
  | .memory => 0x10
  | .initialization => 0x20

def sizeOfLdrData : ℕ := 0x58

def sizeOfTableEntry : ℕ := 0x138

def Order.list (ldr : Ptr) (o : Order) : GuestList where
  head := ldr + BitVec.ofNat 64 (o.offset + 0x10)
  linksOffset := o.offset
  recordSize := sizeOfTableEntry
  inside := by cases o <;> decide

/-- `insert_tail`: the memory, and the links for the entry, which the caller writes. -/
def insertTail (mem : Memory) (headAddr entryLinksAddr : Ptr) : Memory × Links Ptr :=
  let oldTail := (readLinks mem headAddr).blink
  let mem :=
    if oldTail = headAddr then writeFlink mem headAddr entryLinksAddr else writeFlink mem oldTail entryLinksAddr
  (writeBlink mem headAddr entryLinksAddr, ⟨headAddr, oldTail⟩)

def orders (inInitOrder : Bool) : List Order :=
  [.load, .memory] ++ if inInitOrder then [.initialization] else []

/-- One of the calls of `insert_tail` that `add_module` makes. -/
def insertModule (ldr entryAddr : Ptr) (r : Memory × Record sizeOfTableEntry) (o : Order) :
    Memory × Record sizeOfTableEntry :=
  let inserted := insertTail r.1 (o.list ldr).head ((o.list ldr).linksAddr entryAddr)
  (inserted.1, setLinks r.2 o.offset inserted.2)

/-- `add_module` from where the other fields of the entry are filled in. -/
def addModule (ldr : Ptr) (mem : Memory) (entry : Record sizeOfTableEntry) (entryAddr : Ptr) (inInitOrder : Bool) :
    Memory :=
  let r := (orders inInitOrder).foldl (insertModule ldr entryAddr) (mem, entry)
  writeMem r.1 entryAddr.toNat r.2.1

/-- `Length` and `Initialized`. -/
def ldrData : Record sizeOfLdrData :=
  ⟨Bytes.ofNat 4 sizeOfLdrData ++ 1 :: List.replicate (sizeOfLdrData - 5) 0, by decide⟩

/-- The constructor of `ldr_module_list`. -/
def newModuleList (ldr : Ptr) (mem : Memory) : Memory :=
  let data := (orders true).foldl
    (fun data o => setLinks data (o.offset + 0x10) ⟨(o.list ldr).head, (o.list ldr).head⟩) ldrData
  writeMem mem ldr.toNat data.1

/-! ## Words -/

def Apart (a b : Ptr) : Prop := a.toNat + 16 ≤ b.toNat ∨ b.toNat + 16 ≤ a.toNat

instance (a b : Ptr) : Decidable (Apart a b) := inferInstanceAs (Decidable (_ ∨ _))

theorem readLinks_congr {mem mem' : Memory} {a : Ptr} (h : ∀ b, a.toNat ≤ b → b < a.toNat + 16 → mem b = mem' b) :
    readLinks mem a = readLinks mem' a := by
  have hflink : load Ptr mem a.toNat = load Ptr mem' a.toNat := by
    refine load_congr fun b hle hlt => h b hle ?_
    have hlt' : b < a.toNat + 8 := hlt
    omega
  have hblink : load Ptr mem (a.toNat + 8) = load Ptr mem' (a.toNat + 8) := by
    refine load_congr fun b hle hlt => h b (by omega) ?_
    have hlt' : b < a.toNat + 8 + 8 := hlt
    omega
  rw [readLinks, readLinks, hflink, hblink]

theorem readLinks_writeMem_of_out {mem : Memory} {a : Ptr} {va : ℕ} {bytes : List UInt8}
    (h : a.toNat + 16 ≤ va ∨ va + bytes.length ≤ a.toNat) : readLinks (writeMem mem va bytes) a = readLinks mem a :=
  readLinks_congr fun _ _ _ => writeMem_of_out (by omega)

theorem readLinks_writeLinks_self (mem : Memory) (a : Ptr) (links : Links Ptr) :
    readLinks (writeLinks mem a links) a = links := by
  have h := loadAll_writeMem mem a.toNat [links.flink, links.blink]
  simp only [List.length_cons, List.length_nil, loadAll, List.cons.injEq, and_true] at h
  rw [readLinks]
  exact congrArg₂ Links.mk h.1 h.2

variable {mem : Memory} {n a v : Ptr}

theorem Apart.ne (h : Apart n a) : n ≠ a := by
  rintro rfl
  rcases h with h | h <;> omega

theorem Apart.symm (h : Apart n a) : Apart a n := Or.symm h

def Clear (n a : Ptr) : Prop := n = a ∨ Apart n a

theorem readLinks_writeLinks (links : Links Ptr) (h : Clear n a) :
    readLinks (writeLinks mem a links) n = Function.update (readLinks mem) a links n := by
  rcases h with rfl | h
  · rw [readLinks_writeLinks_self, Function.update_self]
  · rw [Function.update_of_ne h.ne]
    exact readLinks_writeMem_of_out (by rwa [length_encodeLinks])

theorem readLinks_writeFlink (h : Clear n a) : readLinks (writeFlink mem a v) n = setFlink (readLinks mem) a v n := by
  rcases h with rfl | h
  · have hflink : load Ptr (writeFlink mem n v) n.toNat = v := load_writeMem mem n.toNat v
    have hblink : load Ptr (writeFlink mem n v) (n.toNat + 8) = load Ptr mem (n.toNat + 8) :=
      load_congr fun b hle _ => writeMem_of_out (.inr (by rwa [Encoding.length_encode]))
    rw [setFlink, Function.update_self, readLinks, hflink, hblink, readLinks]
  · rw [setFlink_of_ne h.ne]
    refine readLinks_writeMem_of_out ?_
    have hlength : (Encoding.encode v).length = 8 := Encoding.length_encode v
    rcases h with h | h
    · exact .inl h
    · exact .inr (by omega)

theorem toNat_add_eight (h : a.toNat + 16 ≤ 2 ^ 64) : (a + 8).toNat = a.toNat + 8 := by
  have height : (8 : Ptr).toNat = 8 := rfl
  rw [BitVec.toNat_add, height]
  omega

theorem readLinks_writeBlink (hfits : a.toNat + 16 ≤ 2 ^ 64) (h : Clear n a) :
    readLinks (writeBlink mem a v) n = setBlink (readLinks mem) a v n := by
  have hat : writeBlink mem a v = writeMem mem (a.toNat + 8) (Encoding.encode v) := by
    rw [writeBlink, toNat_add_eight hfits]
  have hlength : (Encoding.encode v).length = 8 := Encoding.length_encode v
  rw [hat]
  rcases h with rfl | h
  · have hflink : load Ptr (writeMem mem (n.toNat + 8) (Encoding.encode v)) n.toNat = load Ptr mem n.toNat :=
      load_congr fun b _ hlt => writeMem_of_out (.inl hlt)
    rw [setBlink, Function.update_self, readLinks, hflink, load_writeMem, readLinks]
  · rw [setBlink_of_ne h.ne]
    refine readLinks_writeMem_of_out ?_
    rcases h with h | h
    · exact .inl (by omega)
    · exact .inr (by omega)

/-! ## Records -/

theorem toNat_add_offset {addr : Ptr} {offset size : ℕ} (hinside : offset + 16 ≤ size)
    (hroom : addr.toNat + size ≤ 2 ^ 64) : (addr + BitVec.ofNat 64 offset).toNat = addr.toNat + offset := by
  rw [BitVec.toNat_add, BitVec.toNat_ofNat]
  omega

theorem GuestList.toNat_linksAddr (l : GuestList) {addr : Ptr} (hroom : addr.toNat + l.recordSize ≤ 2 ^ 64) :
    (l.linksAddr addr).toNat = addr.toNat + l.linksOffset := toNat_add_offset l.inside hroom


theorem writeMem_setLinks {size offset : ℕ} (hinside : offset + 16 ≤ size) (mem : Memory) {addr : Ptr}
    (hroom : addr.toNat + size ≤ 2 ^ 64) (entry : Record size) (links : Links Ptr) :
    writeMem mem addr.toNat (setLinks entry offset links).1 =
      writeLinks (writeMem mem addr.toNat entry.1) (addr + BitVec.ofNat 64 offset) links := by
  have hpatch : (Bytes.patch entry.1 offset (encodeLinks links)).isSome :=
    Bytes.patch_isSome.mpr (by rwa [length_encodeLinks, entry.2])
  obtain ⟨bytes, hbytes⟩ := Option.isSome_iff_exists.mp hpatch
  have hval : (setLinks entry offset links).1 = bytes := by
    simp only [setLinks, hbytes, Option.getD_some]
  rw [hval, writeMem_patch hbytes, writeLinks, toNat_add_offset hinside hroom]

/-! ## What the operations do to the links -/

section Operations

variable {l : GuestList} {x addr : Ptr}

theorem readLinks_pushBackAt {entry : Record l.recordSize} (hroom : addr.toNat + l.recordSize ≤ 2 ^ 64)
    (hhead : Clear n l.head) (htail : Clear n (readLinks mem l.head).blink)
    (hentry : n = l.linksAddr addr ∨
      Apart n (l.linksAddr addr) ∧ readLinks (writeMem mem addr.toNat entry.1) n = readLinks mem n) :
    readLinks (l.pushBackAt mem entry addr) n = LinkRing.pushBack (readLinks mem) l.head (l.linksAddr addr) n := by
  have hwritten : readLinks (writeMem mem addr.toNat
      (setLinks entry l.linksOffset ⟨l.head, (readLinks mem l.head).blink⟩).1) n =
      Function.update (readLinks mem) (l.linksAddr addr) ⟨l.head, (readLinks mem l.head).blink⟩ n := by
    rw [writeMem_setLinks l.inside mem hroom]
    rcases hentry with rfl | ⟨hapart, hkeep⟩
    · rw [GuestList.linksAddr, readLinks_writeLinks _ (.inl rfl), Function.update_self, Function.update_self]
    · rw [← GuestList.linksAddr, readLinks_writeLinks _ (.inr hapart), Function.update_of_ne hapart.ne, hkeep,
        Function.update_of_ne hapart.ne]
  rw [GuestList.pushBackAt, LinkRing.pushBack]
  split_ifs with hself
  · rw [readLinks_writeLinks _ hhead, Function.update_apply, Function.update_apply, hwritten]
  · rw [readLinks_writeLinks _ hhead, Function.update_apply, Function.update_apply, readLinks_writeFlink htail,
      setFlink_congr hwritten]

theorem readLinks_remove (hfits : (readLinks mem (l.linksAddr addr)).flink.toNat + 16 ≤ 2 ^ 64)
    (hflink : Clear n (readLinks mem (l.linksAddr addr)).flink)
    (hblink : Clear n (readLinks mem (l.linksAddr addr)).blink) :
    readLinks (l.remove mem addr) n = LinkRing.remove (readLinks mem) (l.linksAddr addr) n := by
  rw [GuestList.remove, readLinks_writeFlink hblink, LinkRing.remove]
  exact setFlink_congr (readLinks_writeBlink hfits hflink)

theorem readLinks_insertTail {head : Ptr} (hfits : head.toNat + 16 ≤ 2 ^ 64) (hhead : Clear n head)
    (htail : Clear n (readLinks mem head).blink) :
    readLinks (insertTail mem head x).1 n = linkTail (readLinks mem) head x n := by
  have hmem : (insertTail mem head x).1 = writeBlink (writeFlink mem (readLinks mem head).blink x) head x := by
    rw [insertTail]
    split_ifs with hself
    · rw [hself]
    · rfl
  rw [hmem, readLinks_writeBlink hfits hhead, linkTail]
  exact setBlink_congr (readLinks_writeFlink htail)

end Operations

end Kernemul.GuestLists
