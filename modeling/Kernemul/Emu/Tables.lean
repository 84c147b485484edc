import Kernemul.Emu.VirtCopy
import Kernemul.Emu.X86.Shadow
import Kernemul.Emu.X86.Translate

/-!
# The tables in physical memory, x86 and ARM64

Both walk four levels of tables of 512 entries of 8 bytes. They differ in the bits of an entry that say where
it leads, and the ARM64 walk takes a table at address 0 for none.
-/

namespace Kernemul

open Phys

/-! ## Entries -/

/-- The little-endian number in `n` bytes. -/
def ofBytes (bytes : Nat → UInt8) : Nat → Nat
  | 0 => 0
  | n + 1 => ofBytes bytes n + (bytes n).toNat * 256 ^ n

def entryByte (mem : Mem) (pa i : Nat) : UInt8 := (readPhysMem mem pa (fun _ => some 0) 8 i).getD 0

/-- `read_phys<std::uint64_t>`. -/
def readU64 (mem : Mem) (pa : Nat) : Nat := ofBytes (entryByte mem pa) 8

/-! ## `x86::mmu` -/

namespace X86

def entryTarget (format : EntryFormat) (entry : Nat) : Option Nat :=
  if entry % 2 = 1 then some (pfnToPa (entry / 2 ^ 12 % 2 ^ format.pfnBits)) else none

def translateVirt (format : EntryFormat) (mem : Mem) (pml4Pa page : Nat) : Option Nat :=
  (entryTarget format (readU64 mem (wrap (pml4Pa + pml4Index page * 8)))).bind fun pdpt =>
    (entryTarget format (readU64 mem (wrap (pdpt + pdptIndex page * 8)))).bind fun pd =>
      (entryTarget format (readU64 mem (wrap (pd + pdIndex page * 8)))).bind fun pt =>
        entryTarget format (readU64 mem (wrap (pt + ptIndex page * 8)))

end X86

/-! ## `arm64::mmu` -/

namespace Arm64

def descAddrMask : Nat := 0x0000FFFFFFFFF000

/-- The fields of `virt_addr`. -/
def l0Index (va : Nat) : Nat := va / 2 ^ 39 % 512
def l1Index (va : Nat) : Nat := va / 2 ^ 30 % 512
def l2Index (va : Nat) : Nat := va / 2 ^ 21 % 512
def l3Index (va : Nat) : Nat := va / 2 ^ 12 % 512

/-- The lambda of `walk_to_l3`: the next table, 0 when there is none. -/
def step (mem : Mem) (table index : Nat) : Nat :=
  let e := readU64 mem (wrap (table + index * 8))
  if e % 2 = 1 then e &&& descAddrMask else 0

def walkToL3 (mem : Mem) (ttbrPa va : Nat) : Nat :=
  let l1 := step mem ttbrPa (l0Index va)
  if l1 = 0 then 0
  else
    let l2 := step mem l1 (l1Index va)
    if l2 = 0 then 0 else step mem l2 (l2Index va)

def translateVirt (mem : Mem) (ttbrPa page : Nat) : Option Nat :=
  let l3 := walkToL3 mem ttbrPa page
  if l3 = 0 then none
  else
    let entry := readU64 mem (wrap (l3 + l3Index page * 8))
    if entry % 2 = 1 then some (entry &&& descAddrMask) else none

end Arm64

/-! ## Walks in general -/

structure Level where
  index : Nat
  next : Nat → Option Nat
  index_lt : index < 512
  next_page : ∀ {entry f : Nat}, next entry = some f → IsPage f ∧ f < 2 ^ 64

def descend (mem : Mem) : Nat → List Level → Option Nat
  | table, [] => some table
  | table, l :: levels =>
    (l.next (readU64 mem (wrap (table + l.index * 8)))).bind fun child => descend mem child levels

def visited (mem : Mem) : Nat → List Level → List Nat
  | _, [] => []
  | table, l :: levels =>
    wrap (table + l.index * 8) ::
      match l.next (readU64 mem (wrap (table + l.index * 8))) with
      | none => []
      | some child => visited mem child levels

theorem ofBytes_congr {f g : Nat → UInt8} {n : Nat} (h : ∀ i < n, f i = g i) : ofBytes f n = ofBytes g n := by
  induction n with
  | zero => rfl
  | succ n ih => rw [ofBytes, ofBytes, h n (Nat.lt_succ_self n), ih fun i hi => h i (by omega)]

theorem entry_address {table : Nat} {l : Level} (ht : IsPage table) (hlt : table < 2 ^ 64) :
    wrap (table + l.index * 8) = table + l.index * 8 := by
  have := l.index_lt
  refine wrap_of_lt ?_
  unfold IsPage pageSize at *
  omega

theorem entryByte_congr {mem mem' : Mem} (hpages : PageBlocks mem) (hpages' : PageBlocks mem') {table off : Nat}
    (ht : IsPage table) (hlt : table < 2 ^ 64) (hin : off + 8 ≤ pageSize) {i : Nat}
    (h : byteAt mem' (table + off + i) = byteAt mem (table + off + i)) :
    entryByte mem' (table + off) i = entryByte mem (table + off) i := by
  have hoff : off < pageSize := by omega
  unfold entryByte
  rw [hpages.read ht hlt hoff hin, hpages'.read ht hlt hoff hin, h]

theorem readU64_congr {mem mem' : Mem} (hpages : PageBlocks mem) (hpages' : PageBlocks mem') {table off : Nat}
    (ht : IsPage table) (hlt : table < 2 ^ 64) (hin : off + 8 ≤ pageSize)
    (h : ∀ i < 8, byteAt mem' (table + off + i) = byteAt mem (table + off + i)) :
    readU64 mem' (table + off) = readU64 mem (table + off) :=
  ofBytes_congr fun i hi => entryByte_congr hpages hpages' ht hlt hin (h i hi)

theorem descend_congr {mem mem' : Mem} (hpages : PageBlocks mem) (hpages' : PageBlocks mem') :
    ∀ (levels : List Level) (table : Nat), IsPage table → table < 2 ^ 64 →
      (∀ e ∈ visited mem table levels, ∀ k < 8, byteAt mem' (e + k) = byteAt mem (e + k)) →
      descend mem' table levels = descend mem table levels := by
  intro levels
  induction levels with
  | nil => exact fun _ _ _ _ => rfl
  | cons l levels ih =>
    intro table ht hlt h
    have hin : l.index * 8 + 8 ≤ pageSize := by
      have := l.index_lt
      unfold pageSize
      omega
    have hentry : readU64 mem' (wrap (table + l.index * 8)) = readU64 mem (wrap (table + l.index * 8)) := by
      have hbytes := h (wrap (table + l.index * 8)) (by rw [visited]; exact List.mem_cons_self)
      rw [entry_address ht hlt] at hbytes ⊢
      exact readU64_congr hpages hpages' ht hlt hin hbytes
    rw [descend, descend, hentry]
    cases hn : l.next (readU64 mem (wrap (table + l.index * 8))) with
    | none => rw [Option.bind_none, Option.bind_none]
    | some child =>
      obtain ⟨hc, hclt⟩ := l.next_page hn
      have hrest : ∀ e ∈ visited mem child levels, e ∈ visited mem table (l :: levels) := by
        intro e he
        simp only [visited, hn]
        exact List.mem_cons_of_mem _ he
      rw [Option.bind_some, Option.bind_some]
      exact ih child hc hclt fun e he => h e (hrest e he)

theorem descend_page {mem : Mem} : ∀ (levels : List Level) (table f : Nat), IsPage table → table < 2 ^ 64 →
    descend mem table levels = some f → IsPage f ∧ f < 2 ^ 64 := by
  intro levels
  induction levels with
  | nil =>
    rintro table f ht hlt h
    obtain rfl := Option.some.inj h
    exact ⟨ht, hlt⟩
  | cons l levels ih =>
    intro table f _ _ h
    rw [descend] at h
    obtain ⟨child, hc, hrest⟩ := Option.bind_eq_some_iff.mp h
    obtain ⟨hp, hlt⟩ := l.next_page hc
    exact ih child f hp hlt hrest

/-! ## The two architectures -/

inductive Arch
  | x86 (format : X86.EntryFormat)
  | arm64

/-- `translate_virt` of either. -/
def Arch.translateVirt : Arch → Mem → Nat → Nat → Option Nat
  | .x86 format => X86.translateVirt format
  | .arm64 => Arm64.translateVirt

theorem X86.entryTarget_page {format : X86.EntryFormat} {entry f : Nat}
    (h : X86.entryTarget format entry = some f) : IsPage f ∧ f < 2 ^ 64 := by
  unfold X86.entryTarget at h
  split at h
  · obtain rfl := Option.some.inj h
    have hpow : 2 ^ format.pfnBits ≤ 2 ^ 52 := Nat.pow_le_pow_right (by decide) format.width
    have hlt := Nat.mod_lt (entry / 2 ^ 12) (Nat.two_pow_pos format.pfnBits)
    unfold X86.pfnToPa IsPage pageSize
    omega
  · cases h

theorem Arm64.mask_page (entry : Nat) : IsPage (entry &&& Arm64.descAddrMask) ∧
    entry &&& Arm64.descAddrMask < 2 ^ 64 := by
  refine ⟨?_, lt_of_le_of_lt Nat.and_le_right (by decide)⟩
  unfold IsPage pageSize
  rw [show (0x1000 : Nat) = 2 ^ 12 from rfl, Nat.and_mod_two_pow,
    show Arm64.descAddrMask % 2 ^ 12 = 0 from rfl, Nat.and_zero]

def X86.level (format : X86.EntryFormat) (index : Nat) (h : index < 512) : Level :=
  ⟨index, X86.entryTarget format, h, X86.entryTarget_page⟩

def Arm64.tableTarget (entry : Nat) : Option Nat :=
  if entry % 2 = 1 ∧ entry &&& descAddrMask ≠ 0 then some (entry &&& descAddrMask) else none

def Arm64.pageTarget (entry : Nat) : Option Nat :=
  if entry % 2 = 1 then some (entry &&& descAddrMask) else none

theorem Arm64.pageTarget_page {entry f : Nat} (h : pageTarget entry = some f) : IsPage f ∧ f < 2 ^ 64 := by
  unfold pageTarget at h
  split at h
  · obtain rfl := Option.some.inj h
    exact mask_page entry
  · cases h

theorem Arm64.tableTarget_page {entry f : Nat} (h : tableTarget entry = some f) : IsPage f ∧ f < 2 ^ 64 := by
  unfold tableTarget at h
  split at h
  · obtain rfl := Option.some.inj h
    exact mask_page entry
  · cases h

/-- A level of `walk_to_l3`. -/
def Arm64.level (index : Nat) (h : index < 512) : Level := ⟨index, tableTarget, h, tableTarget_page⟩

def Arm64.pageLevel (index : Nat) (h : index < 512) : Level := ⟨index, pageTarget, h, pageTarget_page⟩

def Arch.levels (arch : Arch) (page : Nat) : List Level :=
  match arch with
  | .x86 format =>
    [X86.level format (X86.pml4Index page) (Nat.mod_lt _ (by decide)),
      X86.level format (X86.pdptIndex page) (Nat.mod_lt _ (by decide)),
      X86.level format (X86.pdIndex page) (Nat.mod_lt _ (by decide)),
      X86.level format (X86.ptIndex page) (Nat.mod_lt _ (by decide))]
  | .arm64 =>
    [Arm64.level (Arm64.l0Index page) (Nat.mod_lt _ (by decide)),
      Arm64.level (Arm64.l1Index page) (Nat.mod_lt _ (by decide)),
      Arm64.level (Arm64.l2Index page) (Nat.mod_lt _ (by decide)),
      Arm64.pageLevel (Arm64.l3Index page) (Nat.mod_lt _ (by decide))]

theorem Arm64.tableTarget_eq (mem : Mem) (table index : Nat) :
    tableTarget (readU64 mem (wrap (table + index * 8))) =
      if step mem table index = 0 then none else some (step mem table index) := by
  unfold tableTarget step
  by_cases he : readU64 mem (wrap (table + index * 8)) % 2 = 1
  · simp only [he, true_and, if_true]
    by_cases hz : readU64 mem (wrap (table + index * 8)) &&& descAddrMask = 0
    · rw [if_neg fun hne => hne hz, if_pos hz]
    · rw [if_pos hz, if_neg hz]
  · simp only [he, false_and, if_false, if_true]

theorem Arch.translateVirt_eq (arch : Arch) (mem : Mem) (root page : Nat) :
    arch.translateVirt mem root page = descend mem root (arch.levels page) := by
  cases arch with
  | x86 format =>
    simp only [Arch.translateVirt, X86.translateVirt, Arch.levels, descend, X86.level, Option.bind_fun_some]
  | arm64 =>
    simp only [Arch.translateVirt, Arm64.translateVirt, Arm64.walkToL3, Arch.levels, descend, Arm64.level,
      Arm64.pageLevel, Arm64.tableTarget_eq, Option.bind_fun_some]
    by_cases h1 : Arm64.step mem root (Arm64.l0Index page) = 0
    · rw [if_pos h1, if_pos h1]
      rfl
    rw [if_neg h1, if_neg h1, Option.bind_some]
    by_cases h2 : Arm64.step mem (Arm64.step mem root (Arm64.l0Index page)) (Arm64.l1Index page) = 0
    · rw [if_pos h2, if_pos h2]
      rfl
    rw [if_neg h2, if_neg h2, Option.bind_some]
    generalize Arm64.step mem _ (Arm64.l2Index page) = l3
    by_cases h3 : l3 = 0
    · rw [if_pos h3, if_pos h3]
      rfl
    · rw [if_neg h3, if_neg h3, Option.bind_some]
      rfl

/-! ## Address spaces -/

/-- An `addr_space` of either architecture, as far as reads and writes use it. -/
structure Space where
  root : Nat
  shadow : Nat → Option Nat
  root_page : IsPage root
  root_lt : root < 2 ^ 64
  shadow_page : ∀ {page f : Nat}, shadow page = some f → IsPage f ∧ f < 2 ^ 64

/-- The frame of a page: the walk decides, and the shadow map stands in when it finds nothing. -/
def Space.resolve (s : Space) (arch : Arch) (mem : Mem) (page : Nat) : Option Nat :=
  (arch.translateVirt mem s.root page).or (s.shadow page)

def Space.reads (s : Space) (arch : Arch) (mem : Mem) (page a : Nat) : Prop :=
  ∃ e ∈ visited mem s.root (arch.levels page), ∃ k < 8, a = e + k

/-- Both architectures' `copy_virt` goes by this. -/
def Space.walk (s : Space) (arch : Arch) : Walk where
  resolve := s.resolve arch
  reads := s.reads arch
  frame := by
    intro mem page f h
    rcases Option.or_eq_some_iff.mp h with h | ⟨-, h⟩
    · rw [Arch.translateVirt_eq] at h
      exact descend_page _ _ _ s.root_page s.root_lt h
    · exact s.shadow_page h
  congr := by
    intro mem mem' page hpages hpages' h
    unfold Space.resolve
    rw [Arch.translateVirt_eq, Arch.translateVirt_eq, descend_congr hpages hpages' _ _ s.root_page s.root_lt]
    exact fun e he k hk => h (e + k) ⟨e, he, k, hk, rfl⟩

/-- **Virtual reads and writes are byte exact**, as long as a write does not change the tables it is translated
by. -/
theorem Space.virtual_exact (s : Space) (arch : Arch) {mem : Mem} (hpages : PageBlocks mem) (va : Nat) {size : Nat}
    (hsize : size < 2 ^ 64) : (s.walk arch).Exact mem va size :=
  (s.walk arch).exact hpages va hsize

def fivePages : Mem := [⟨0x100000000, 0x5000, fun _ => 0, by decide, by decide⟩]

def twoShadows : Space where
  root := 0x100000000
  shadow := fun page =>
    if page = 0x10000 then some 0x100003000 else if page = 0x11000 then some 0x100001000 else none
  root_page := by decide
  root_lt := by decide
  shadow_page := by
    intro page f h
    split at h
    · obtain rfl := Option.some.inj h
      decide
    · split at h
      · obtain rfl := Option.some.inj h
        decide
      · cases h

theorem onBacked_of_any {w : Walk} {mem : Mem} {va size : Nat} (h : ∀ i < size,
    ((w.resolve mem (pageAlign (wrap (va + i)))).any fun frame => (findBacking mem frame).isSome) = true) :
    w.OnBacked mem va size := fun i hi => Option.any_eq_true _ _ |>.mp (h i hi)

/-- Eight bytes over the end of a page, whose next one has an earlier frame. -/
theorem twoShadows_exact :
    (List.range 8).map ((twoShadows.walk .arm64).readVirt ((twoShadows.walk .arm64).writeVirt fivePages 0x10FFC
      (fun i => some (UInt8.ofNat i)) 8).1.mem 0x10FFC (fun _ => none) 8).1.buf =
    (List.range 8).map fun i => some (UInt8.ofNat i) := by
  have hexact := @Space.virtual_exact twoShadows .arm64 fivePages (by decide) 0x10FFC 8 (by decide)
  have hback : (twoShadows.walk .arm64).OnBacked fivePages 0x10FFC 8 := onBacked_of_any (by decide +kernel)
  have hlow : ∀ i < 8, ∀ e ∈ visited fivePages twoShadows.root (Arch.arm64.levels (pageAlign (wrap (0x10FFC + i)))),
      e + 8 ≤ 0x100001000 := by decide +kernel
  have hhigh : ∀ i < 8, ((twoShadows.walk .arm64).virtToPhys fivePages (wrap (0x10FFC + i))).all
      (fun a => decide (0x100001000 ≤ a)) = true := by decide +kernel
  have hdist : ∀ i < 8, ∀ j < 8,
      (twoShadows.walk .arm64).resolve fivePages (pageAlign (wrap (0x10FFC + i))) =
        (twoShadows.walk .arm64).resolve fivePages (pageAlign (wrap (0x10FFC + j))) →
      pageAlign (wrap (0x10FFC + i)) = pageAlign (wrap (0x10FFC + j)) := by decide +kernel
  have hsteady : (twoShadows.walk .arm64).Steady fivePages 0x10FFC 8 := by
    rintro i hi j hj a ha ⟨e, he, k, hk, rfl⟩
    have hle := hlow j hj e he
    have hge := hhigh i hi
    rw [ha] at hge
    have := of_decide_eq_true hge
    omega
  obtain ⟨-, -, hread⟩ := hexact.back hback hsteady hdist UInt8.ofNat fun _ => none
  exact List.map_congr_left fun i hi => hread i (List.mem_range.mp hi)

/-- The root of a space with the self map in its slot, and another page after it. -/
def selfMapped : Mem :=
  [⟨0x100000000, 0x2000, fun o => if o = 0xF68 then 3 else if o = 0xF6C then 1 else 0, by decide, by decide⟩]

def selfMappedSpace : Space where
  root := 0x100000000
  shadow := fun _ => none
  root_page := by decide
  root_lt := by decide
  shadow_page := nofun

def otherEntry : Nat → UInt8 := fun i => if i = 0 then 3 else if i = 1 then 0x10 else if i = 4 then 1 else 0

/-- Writing to the self map entry through itself: what was written cannot be read back. -/
theorem selfMap_lost : PageBlocks selfMapped ∧
    (selfMappedSpace.walk (.x86 X86.pfn36)).OnBacked selfMapped 0xFFFFF6FB7DBEDF68 8 ∧
    (selfMappedSpace.walk (.x86 X86.pfn36)).Distinct selfMapped 0xFFFFF6FB7DBEDF68 8 ∧
    ((selfMappedSpace.walk (.x86 X86.pfn36)).writeVirt selfMapped 0xFFFFF6FB7DBEDF68
      (fun i => some (otherEntry i)) 8).2 = true ∧
    ((selfMappedSpace.walk (.x86 X86.pfn36)).readVirt
      ((selfMappedSpace.walk (.x86 X86.pfn36)).writeVirt selfMapped 0xFFFFF6FB7DBEDF68
        (fun i => some (otherEntry i)) 8).1.mem 0xFFFFF6FB7DBEDF68 (fun _ => none) 8).2 = false := by
  have hpage : ∀ i < 8, pageAlign (wrap (0xFFFFF6FB7DBEDF68 + i)) = 0xFFFFF6FB7DBED000 := by decide +kernel
  refine ⟨by decide, onBacked_of_any (by decide +kernel), fun i hi j hj _ => ?_, by decide +kernel,
    by decide +kernel⟩
  rw [hpage i hi, hpage j hj]


/-! ## The tables as entries -/

namespace X86

def Encodes (m : Mmu) (mem : Mem) : Prop := ∀ table index, IsPage table → table < 2 ^ 64 → index < 512 →
  entryTarget m.format (readU64 mem (wrap (table + index * 8))) = m.child table index

variable {m : Mmu} {mem : Mem}

theorem Encodes.child_page (h : Encodes m mem) {table index child : Nat} (ht : IsPage table)
    (hlt : table < 2 ^ 64) (hi : index < 512) (hc : m.child table index = some child) :
    IsPage child ∧ child < 2 ^ 64 :=
  entryTarget_page ((h table index ht hlt hi).trans hc)

theorem Encodes.translateVirt (h : Encodes m mem) {root : Nat} (hr : IsPage root) (hlt : root < 2 ^ 64)
    (page : Nat) : X86.translateVirt m.format mem root page = m.translateVirt root page := by
  unfold X86.translateVirt Mmu.translateVirt Mmu.pageTable
  rw [Option.bind_assoc]
  refine Option.bind_congr' (h root (pml4Index page) hr hlt (Nat.mod_lt _ (by decide))) fun pdpt h1 => ?_
  obtain ⟨hp1, hl1⟩ := h.child_page hr hlt (Nat.mod_lt _ (by decide)) h1
  rw [Option.bind_assoc]
  refine Option.bind_congr' (h pdpt (pdptIndex page) hp1 hl1 (Nat.mod_lt _ (by decide))) fun pd h2 => ?_
  obtain ⟨hp2, hl2⟩ := h.child_page hp1 hl1 (Nat.mod_lt _ (by decide)) h2
  refine Option.bind_congr' (h pd (pdIndex page) hp2 hl2 (Nat.mod_lt _ (by decide))) fun pt h3 => ?_
  obtain ⟨hp3, hl3⟩ := h.child_page hp2 hl2 (Nat.mod_lt _ (by decide)) h3
  exact h pt (ptIndex page) hp3 hl3 (Nat.mod_lt _ (by decide))

structure SpaceOf (m : Mmu) (root : Nat) (s : Space) : Prop where
  root_eq : s.root = root
  shadow_eq : ∀ page, s.shadow page = m.shadowOf root page

theorem Encodes.resolve (h : Encodes m mem) {root : Nat} {s : Space} (hs : SpaceOf m root s) (page : Nat) :
    s.resolve (.x86 m.format) mem page = m.resolve root page := by
  have htrans := h.translateVirt s.root_page s.root_lt page
  unfold Space.resolve Mmu.resolve
  rw [hs.shadow_eq, show Arch.translateVirt (.x86 m.format) mem s.root page = _ from htrans, hs.root_eq]
  cases m.translateVirt root page with
  | none => rfl
  | some frame => rfl

theorem Encodes.copyLoop (h : Encodes m mem) {root : Nat} {s : Space} (hs : SpaceOf m root s) (va size : Nat) :
    ∀ rounds done c, c.mem = mem → done ≤ size →
      (m.copyLoop root rounds (wrap (va + done)) (size - done)).isSome =
        (Phys.copyLoop (s.resolve (.x86 m.format)) va size false rounds done c).2 := by
  intro rounds
  induction rounds with
  | zero => exact fun _ _ _ _ => rfl
  | succ rounds ih =>
    intro done c hmem hdone
    rw [Mmu.copyLoop]
    by_cases hlt : done < size
    · rw [if_neg (by omega)]
      have hres := h.resolve hs (pageAlign (wrap (va + done)))
      rw [← hmem] at hres
      simp only
      cases hr : m.resolve root (pageAlign (wrap (va + done))) with
      | none =>
        rw [copyLoop_none hlt (hres.trans hr)]
        rfl
      | some frame =>
        have hle := chunkOf_le va size done
        rw [copyLoop_some hlt (hres.trans hr), Option.bind_some, Option.isSome_map]
        have hrest := ih (done + chunkOf va size done)
          (c.chunk false (wrap (frame + (wrap (va + done) - pageAlign (wrap (va + done))))) done
            (chunkOf va size done)) hmem (by omega)
        rw [← hrest, ← Nat.sub_sub, ← Nat.add_assoc, ← wrap_wrap_add (va + done)]
        rfl
    · rw [if_pos (by omega), copyLoop_done (by omega)]
      rfl

theorem Encodes.readVirt (h : Encodes m mem) {root : Nat} {s : Space} (hs : SpaceOf m root s) {va : Nat}
    (hva : va < 2 ^ 64) (size : Nat) (buf : Buf) :
    ((s.walk (.x86 m.format)).readVirt mem va buf size).2 = (m.copyVirt root va size).isSome := by
  have := h.copyLoop hs va size size 0 { mem, buf } rfl (Nat.zero_le _)
  rw [Nat.add_zero, wrap_of_lt hva] at this
  exact this.symm

end X86

end Kernemul
