import Kernemul.Kernel.Loader
import Mathlib.Data.Nat.Digits.Defs

/-!
# Symbols (`module_symbols`, `symbols::format_addr`)

A module has its exports for symbols, and those of its program database. An address in a module is written as the
symbol in front of it and how far it is behind that. The reader of the database is a parameter: it gives names with the
rva that they are at, which are 32 bits.
-/

namespace Kernemul.Symbols

open Text
open Loader (asciiLower)

structure SymbolInfo where
  name : Str
  addr : Nat
  size : BitVec 32 := 0
  deriving DecidableEq, Repr

structure ModuleSymbols where
  entries : List SymbolInfo := []
  nameIndex : Str → Option Nat := fun _ => none

structure ResolvedSymbol where
  symbol : SymbolInfo
  offset : BitVec 32
  deriving DecidableEq, Repr

namespace ModuleSymbols

def insert (s : ModuleSymbols) (i : SymbolInfo) : ModuleSymbols :=
  if (s.nameIndex i.name).isSome then s
  else { entries := s.entries ++ [i], nameIndex := Function.update s.nameIndex i.name (some i.addr) }

/-- `sort`. In which order it leaves the symbols of one address is not said. -/
structure Sorts (s s' : ModuleSymbols) : Prop where
  perm : s'.entries.Perm s.entries
  sorted : s'.entries.Pairwise fun i j => i.addr ≤ j.addr
  nameIndex : s'.nameIndex = s.nameIndex

/-- The entry in front of `std::ranges::upper_bound`. -/
def before (s : ModuleSymbols) (addr : Nat) : Option SymbolInfo :=
  (s.entries.takeWhile fun i => i.addr ≤ addr).getLast?

def resolve (s : ModuleSymbols) (addr : Nat) : Option ResolvedSymbol :=
  (s.before addr).bind fun i =>
    let offset := BitVec.ofNat 32 (addr - i.addr)
    if 0 < i.size ∧ i.size ≤ offset then none else some ⟨i, offset⟩

def lookup (s : ModuleSymbols) (name : Str) : Option Nat := s.nameIndex name

end ModuleSymbols

/-- `proc_module`, with its symbols. -/
structure Module extends Loader.ProcModule where
  symbols : ModuleSymbols

namespace Module

def containsAddr (m : Module) (a : Nat) : Prop := m.addr ≤ a ∧ a < m.addr + m.size

instance (m : Module) (a : Nat) : Decidable (m.containsAddr a) := inferInstanceAs (Decidable (_ ∧ _))

def findSymbol (m : Module) (name : Str) : Option Nat :=
  if m.symbols.entries ≠ [] then m.symbols.lookup name else m.findExport name

end Module

abbrev Table := List Module

def findModuleByAddr (p : Table) (addr : Nat) : Option Module := p.find? fun m => m.containsAddr addr

def findModule (p : Table) (name : Str) : Option Module := p.find? fun m => m.lookupName = asciiLower name

/-- What `format_addr` writes. -/
inductive Label
  | raw (addr : Nat)
  | inModule (name : Str) (offset : Nat)
  | atSymbol (name symbol : Str) (offset : BitVec 32)
  deriving DecidableEq, Repr

def hexDigit (d : Nat) : UInt8 := UInt8.ofNat (if d < 10 then 0x30 + d else 0x37 + d)

def hexDigits (n : Nat) : List Nat := if n = 0 then [0] else (Nat.digits 16 n).reverse

/-- `0x{:X}`. -/
def hexText (n : Nat) : Str := ascii ['0', 'x'] ++ (hexDigits n).map hexDigit

def plus : UInt8 := 0x2b
def bang : UInt8 := 0x21

/-- `resolved_symbol::format`. -/
def symbolText (symbol : Str) (offset : BitVec 32) : Str :=
  if offset = 0 then symbol else symbol ++ plus :: hexText offset.toNat

def Label.text : Label → Str
  | .raw addr => hexText addr
  | .inModule name offset => name ++ plus :: hexText offset
  | .atSymbol name symbol offset => name ++ bang :: symbolText symbol offset

def formatAddr (p : Table) (addr : Nat) : Label :=
  match findModuleByAddr p addr with
  | none => .raw addr
  | some m =>
    match m.symbols.resolve addr with
    | none => .inModule m.name (addr - m.addr)
    | some sym => .atSymbol m.name sym.symbol.name sym.offset

/-- The address that a label stands for, to someone who looks its names up. -/
def Label.address (p : Table) : Label → Option Nat
  | .raw addr => some addr
  | .inModule name offset => (findModule p name).map fun m => m.addr + offset
  | .atSymbol name symbol offset =>
    (findModule p name).bind fun m => (m.symbols.lookup symbol).map fun a => a + offset.toNat

/-- The symbols of a module at `base`: exports, and those of a database, are inserted and then sorted. -/
inductive Loaded (base : Nat) : ModuleSymbols → Prop
  | empty : Loaded base {}
  | load {s s' : ModuleSymbols} {batch : List SymbolInfo} (h : Loaded base s)
      (hbatch : ∀ i ∈ batch, base ≤ i.addr ∧ i.addr < base + 2 ^ 32)
      (hsort : (batch.foldl ModuleSymbols.insert s).Sorts s') : Loaded base s'

/-- A table whose modules were added by `add_module`. -/
structure Table.WellFormed (p : Table) : Prop where
  nodup : (p.map (·.lookupName)).Nodup
  lookupName : ∀ m ∈ p, m.lookupName = asciiLower m.name
  size : ∀ m ∈ p, m.size ≤ 2 ^ 32
  loaded : ∀ m ∈ p, Loaded m.addr m.symbols

def SymbolInfo.Covers (i : SymbolInfo) (addr : Nat) : Prop := i.size = 0 ∨ addr < i.addr + i.size.toNat

instance (i : SymbolInfo) (addr : Nat) : Decidable (i.Covers addr) := inferInstanceAs (Decidable (_ ∨ _))

structure Module.Nearest (m : Module) (addr : Nat) (i : SymbolInfo) : Prop where
  mem : i ∈ m.symbols.entries
  le : i.addr ≤ addr
  nearest : ∀ j ∈ m.symbols.entries, j.addr ≤ addr → j.addr ≤ i.addr

/-! ## The symbols of a module -/

structure Indexed (base : Nat) (s : ModuleSymbols) : Prop where
  found : ∀ i ∈ s.entries, s.nameIndex i.name = some i.addr
  named : ∀ name a, s.nameIndex name = some a → ∃ i ∈ s.entries, i.name = name ∧ i.addr = a
  within : ∀ i ∈ s.entries, base ≤ i.addr ∧ i.addr < base + 2 ^ 32

variable {base : Nat} {s s' : ModuleSymbols}

theorem Indexed.insert {i : SymbolInfo} (h : Indexed base s) (hi : base ≤ i.addr ∧ i.addr < base + 2 ^ 32) :
    Indexed base (s.insert i) := by
  unfold ModuleSymbols.insert
  split
  · exact h
  · rename_i hnew
    have hfresh : ∀ j ∈ s.entries, j.name ≠ i.name := by
      intro j hj heq
      have hfound := h.found j hj
      rw [heq] at hfound
      exact hnew (by rw [hfound]; rfl)
    refine ⟨fun j hj => ?_, fun name a hname => ?_, fun j hj => ?_⟩
    · rcases List.mem_append.mp hj with hold | hlast
      · exact (Function.update_of_ne (hfresh j hold) (some i.addr) s.nameIndex).trans (h.found j hold)
      · obtain rfl := List.mem_singleton.mp hlast
        exact Function.update_self j.name (some j.addr) s.nameIndex
    · by_cases heq : name = i.name
      · subst heq
        have ha : some i.addr = some a := (Function.update_self i.name (some i.addr) s.nameIndex).symm.trans hname
        exact ⟨i, List.mem_append_right _ (List.mem_singleton_self i), rfl, Option.some.inj ha⟩
      · obtain ⟨j, hj, hjname⟩ := h.named name a ((Function.update_of_ne heq _ _).symm.trans hname)
        exact ⟨j, List.mem_append_left _ hj, hjname⟩
    · rcases List.mem_append.mp hj with hold | hlast
      · exact h.within j hold
      · obtain rfl := List.mem_singleton.mp hlast
        exact hi

theorem Indexed.insertAll {batch : List SymbolInfo} (h : Indexed base s)
    (hbatch : ∀ i ∈ batch, base ≤ i.addr ∧ i.addr < base + 2 ^ 32) :
    Indexed base (batch.foldl ModuleSymbols.insert s) := by
  induction batch generalizing s with
  | nil => exact h
  | cons i batch ih =>
    obtain ⟨hi, hrest⟩ := List.forall_mem_cons.mp hbatch
    exact ih (h.insert hi) hrest

theorem Indexed.sort (h : Indexed base s) (hsort : s.Sorts s') : Indexed base s' where
  found i hi := by
    rw [hsort.nameIndex]
    exact h.found i (hsort.perm.mem_iff.mp hi)
  named name a hname := by
    rw [hsort.nameIndex] at hname
    obtain ⟨i, hi, hentry⟩ := h.named name a hname
    exact ⟨i, hsort.perm.mem_iff.mpr hi, hentry⟩
  within i hi := h.within i (hsort.perm.mem_iff.mp hi)

theorem Loaded.spec (h : Loaded base s) : Indexed base s ∧ s.entries.Pairwise fun i j => i.addr ≤ j.addr := by
  induction h with
  | empty => exact ⟨⟨fun _ => nofun, fun _ _ => nofun, fun _ => nofun⟩, List.Pairwise.nil⟩
  | load _ hbatch hsort ih => exact ⟨(ih.1.insertAll hbatch).sort hsort, hsort.sorted⟩

theorem takeWhile_eq_filter {entries : List SymbolInfo} (addr : Nat)
    (hsorted : entries.Pairwise fun i j => i.addr ≤ j.addr) :
    (entries.takeWhile fun i => i.addr ≤ addr) = entries.filter fun i => i.addr ≤ addr := by
  induction entries with
  | nil => rfl
  | cons i entries ih =>
    obtain ⟨hi, hrest⟩ := List.pairwise_cons.mp hsorted
    by_cases hle : i.addr ≤ addr
    · rw [List.takeWhile_cons_of_pos (by simpa using hle), List.filter_cons_of_pos (by simpa using hle), ih hrest]
    · rw [List.takeWhile_cons_of_neg (by simpa using hle), List.filter_cons_of_neg (by simpa using hle)]
      refine (List.filter_eq_nil_iff.mpr fun j hj => ?_).symm
      simpa using (Nat.lt_of_not_le hle).trans_le (hi j hj)

variable {addr : Nat}

theorem before_spec {i : SymbolInfo} (hsorted : s.entries.Pairwise fun i j => i.addr ≤ j.addr)
    (h : s.before addr = some i) :
    i ∈ s.entries ∧ i.addr ≤ addr ∧ ∀ j ∈ s.entries, j.addr ≤ addr → j.addr ≤ i.addr := by
  rw [ModuleSymbols.before, takeWhile_eq_filter addr hsorted] at h
  obtain ⟨front, hfront⟩ := List.getLast?_eq_some_iff.mp h
  have hi : i ∈ s.entries.filter fun i => i.addr ≤ addr := by
    rw [hfront]
    exact List.mem_append_right _ (List.mem_singleton_self i)
  obtain ⟨hmem, hle⟩ := List.mem_filter.mp hi
  refine ⟨hmem, of_decide_eq_true hle, fun j hj hjle => ?_⟩
  have hordered := hsorted.filter fun i => decide (i.addr ≤ addr)
  have hj' : j ∈ s.entries.filter fun i => i.addr ≤ addr := List.mem_filter.mpr ⟨hj, decide_eq_true hjle⟩
  rw [hfront] at hordered hj'
  rcases List.mem_append.mp hj' with hfirst | hlast
  · exact (List.pairwise_append.mp hordered).2.2 j hfirst i (List.mem_singleton_self i)
  · rw [List.mem_singleton.mp hlast]

theorem before_isSome {i : SymbolInfo} (hsorted : s.entries.Pairwise fun i j => i.addr ≤ j.addr)
    (hi : i ∈ s.entries) (hle : i.addr ≤ addr) : ∃ j, s.before addr = some j := by
  have hmem : i ∈ s.entries.filter fun i => i.addr ≤ addr := List.mem_filter.mpr ⟨hi, decide_eq_true hle⟩
  rw [← takeWhile_eq_filter addr hsorted] at hmem
  exact ⟨_, List.getLast?_eq_some_getLast (List.ne_nil_of_mem hmem)⟩

theorem offset_toNat {a : Nat} (hbase : base ≤ a) (haddr : addr < base + 2 ^ 32) :
    (BitVec.ofNat 32 (addr - a)).toNat = addr - a := by
  rw [BitVec.toNat_ofNat, Nat.mod_eq_of_lt (by omega)]

/-- The 32 bits of the offset do not cut it, so the check is whether the symbol covers the address. -/
theorem symbolCovers_iff {addr : Nat} {i : SymbolInfo} (hbase : base ≤ i.addr) (hle : i.addr ≤ addr)
    (haddr : addr < base + 2 ^ 32) :
    i.Covers addr ↔ ¬ (0 < i.size ∧ i.size ≤ BitVec.ofNat 32 (addr - i.addr)) := by
  have hzero : i.size = 0 ↔ i.size.toNat = 0 := by rw [← BitVec.toNat_inj]; rfl
  rw [SymbolInfo.Covers, hzero, BitVec.lt_def, BitVec.le_def, offset_toNat hbase haddr]
  show _ ↔ ¬ (0 < i.size.toNat ∧ _)
  omega

/-- What is found for an address is the symbol at or in front of it that is nearest, and the whole way from there. -/
theorem resolve_spec {sym : ResolvedSymbol} (hloaded : Loaded base s) (haddr : addr < base + 2 ^ 32)
    (h : s.resolve addr = some sym) : s.lookup sym.symbol.name = some sym.symbol.addr ∧
      sym.symbol.addr + sym.offset.toNat = addr ∧ s.before addr = some sym.symbol ∧ sym.symbol.Covers addr := by
  obtain ⟨hindexed, hsorted⟩ := hloaded.spec
  obtain ⟨i, hbefore, hi⟩ := Option.bind_eq_some_iff.mp h
  obtain ⟨hmem, hle, -⟩ := before_spec hsorted hbefore
  have hbase := (hindexed.within i hmem).1
  dsimp only at hi
  split at hi
  · cases hi
  · rename_i hcovers
    obtain rfl := Option.some.inj hi
    refine ⟨hindexed.found i hmem, ?_, hbefore, (symbolCovers_iff hbase hle haddr).mpr hcovers⟩
    show i.addr + (BitVec.ofNat 32 (addr - i.addr)).toNat = addr
    rw [offset_toNat hbase haddr]
    omega

theorem resolve_of_covers {i : SymbolInfo} (hloaded : Loaded base s) (haddr : addr < base + 2 ^ 32)
    (h : s.before addr = some i) (hcovers : i.Covers addr) : ∃ offset, s.resolve addr = some ⟨i, offset⟩ := by
  obtain ⟨hindexed, hsorted⟩ := hloaded.spec
  obtain ⟨hmem, hle, -⟩ := before_spec hsorted h
  refine ⟨BitVec.ofNat 32 (addr - i.addr), Option.bind_eq_some_iff.mpr ⟨i, h, ?_⟩⟩
  exact if_neg ((symbolCovers_iff (hindexed.within i hmem).1 hle haddr).mp hcovers)

/-! ## Labels -/

variable {p : Table}

theorem findModule_name (hp : p.WellFormed) {m : Module} (hm : m ∈ p) : findModule p m.name = some m := by
  cases hfind : findModule p m.name with
  | none => exact absurd (hp.lookupName m hm) (by simpa using List.find?_eq_none.mp hfind m hm)
  | some m' =>
    have hname : m'.lookupName = asciiLower m.name := by simpa using List.find?_some hfind
    exact congrArg some (List.inj_on_of_nodup_map hp.nodup (List.mem_of_find?_eq_some hfind) hm
      (hname.trans (hp.lookupName m hm).symm))

theorem addr_lt (hp : p.WellFormed) {m : Module} (h : findModuleByAddr p addr = some m) :
    m ∈ p ∧ m.containsAddr addr ∧ addr < m.addr + 2 ^ 32 := by
  have hm := List.mem_of_find?_eq_some h
  have hfound := List.find?_some h
  have hcontains : m.containsAddr addr := of_decide_eq_true hfound
  exact ⟨hm, hcontains, hcontains.2.trans_le (Nat.add_le_add_left (hp.size m hm) m.addr)⟩

theorem address_formatAddr (hp : p.WellFormed) (addr : Nat) : (formatAddr p addr).address p = some addr := by
  unfold formatAddr
  split
  · rfl
  · rename_i m hfind
    obtain ⟨hm, ⟨hle, -⟩, hend⟩ := addr_lt hp hfind
    split
    · rw [Label.address, findModule_name hp hm]
      exact congrArg some (Nat.add_sub_cancel' hle)
    · rename_i sym hresolve
      obtain ⟨hlookup, hoffset, -, -⟩ := resolve_spec (hp.loaded m hm) hend hresolve
      rw [Label.address, findModule_name hp hm, Option.bind_some, hlookup]
      exact congrArg some hoffset

theorem nearest_formatAddr (hp : p.WellFormed) {name symbol : Str} {offset : BitVec 32}
    (h : formatAddr p addr = .atSymbol name symbol offset) : ∃ m ∈ p, m.name = name ∧ m.containsAddr addr ∧
      ∃ i, m.Nearest addr i ∧ i.Covers addr ∧ i.name = symbol ∧ i.addr + offset.toNat = addr := by
  unfold formatAddr at h
  split at h
  · cases h
  · rename_i m hfind
    obtain ⟨hm, hcontains, hend⟩ := addr_lt hp hfind
    split at h
    · cases h
    · rename_i sym hresolve
      obtain ⟨rfl, rfl, rfl⟩ := Label.atSymbol.inj h
      obtain ⟨-, hoffset, hbefore, hcovers⟩ := resolve_spec (hp.loaded m hm) hend hresolve
      obtain ⟨hmem, hle, hnearest⟩ := before_spec (hp.loaded m hm).spec.2 hbefore
      exact ⟨m, hm, rfl, hcontains, sym.symbol, ⟨hmem, hle, hnearest⟩, hcovers, rfl, hoffset⟩

/-- Of several nearest symbols the sort leaves any one last, so all of them have to cover the address. -/
theorem formatAddr_of_covers (hp : p.WellFormed) {m : Module} (h : findModuleByAddr p addr = some m)
    (hsome : ∃ i ∈ m.symbols.entries, i.addr ≤ addr) (hcovers : ∀ i, m.Nearest addr i → i.Covers addr) :
    ∃ symbol offset, formatAddr p addr = .atSymbol m.name symbol offset := by
  obtain ⟨hm, -, hend⟩ := addr_lt hp h
  obtain ⟨j, hj, hjle⟩ := hsome
  obtain ⟨i, hbefore⟩ := before_isSome (hp.loaded m hm).spec.2 hj hjle
  obtain ⟨hmem, hle, hnearest⟩ := before_spec (hp.loaded m hm).spec.2 hbefore
  obtain ⟨offset, hresolve⟩ := resolve_of_covers (hp.loaded m hm) hend hbefore (hcovers i ⟨hmem, hle, hnearest⟩)
  exact ⟨i.name, offset, by rw [formatAddr, h]; dsimp only; rw [hresolve]⟩

/-- No symbol is named where none is in front of the address, or no nearest one covers it. -/
theorem formatAddr_of_not_covers (hp : p.WellFormed) {m : Module} (h : findModuleByAddr p addr = some m)
    (hcovers : ∀ i, m.Nearest addr i → ¬ i.Covers addr) : formatAddr p addr = .inModule m.name (addr - m.addr) := by
  obtain ⟨hm, -, hend⟩ := addr_lt hp h
  rw [formatAddr, h]
  dsimp only
  cases hresolve : m.symbols.resolve addr with
  | none => rfl
  | some sym =>
    obtain ⟨-, -, hbefore, hc⟩ := resolve_spec (hp.loaded m hm) hend hresolve
    obtain ⟨hmem, hle, hnearest⟩ := before_spec (hp.loaded m hm).spec.2 hbefore
    exact absurd hc (hcovers _ ⟨hmem, hle, hnearest⟩)

theorem formatAddr_raw_iff : formatAddr p addr = .raw addr ↔ ∀ m ∈ p, ¬ m.containsAddr addr := by
  unfold formatAddr
  split
  · rename_i hfind
    simpa using List.find?_eq_none.mp hfind
  · rename_i m hfind
    have hfound := List.find?_some hfind
    refine ⟨fun h => ?_, fun h => absurd (of_decide_eq_true hfound) (h m (List.mem_of_find?_eq_some hfind))⟩
    split at h <;> cases h

/-! ## Texts -/

def Plain (s : Str) : Prop := bang ∉ s ∧ plus ∉ s

def Label.Plain : Label → Prop
  | .raw _ => True
  | .inModule name _ => Symbols.Plain name
  | .atSymbol name symbol _ => Symbols.Plain name ∧ Symbols.Plain symbol

structure Table.Plain (p : Table) : Prop where
  modules : ∀ m ∈ p, Symbols.Plain m.name
  symbols : ∀ m ∈ p, ∀ i ∈ m.symbols.entries, Symbols.Plain i.name

def hexValue (c : UInt8) : Nat := c.toNat - if c < 0x3a then 0x30 else 0x37

theorem hexDigits_lt {n d : Nat} (h : d ∈ hexDigits n) : d < 16 := by
  unfold hexDigits at h
  split at h
  · rw [List.mem_singleton.mp h]
    decide
  · exact Nat.digits_lt_base' (List.mem_reverse.mp h)

theorem hexDigit_spec {d : Nat} (h : d < 16) : hexValue (hexDigit d) = d ∧ hexDigit d ≠ bang ∧ hexDigit d ≠ plus := by
  have hall : ∀ d < 16, hexValue (hexDigit d) = d ∧ hexDigit d ≠ bang ∧ hexDigit d ≠ plus := by decide
  exact hall d h

theorem ofDigits_hexDigits (n : Nat) : Nat.ofDigits 16 (hexDigits n).reverse = n := by
  unfold hexDigits
  split
  · rename_i hn
    rw [hn]
    rfl
  · rw [List.reverse_reverse, Nat.ofDigits_digits]

theorem hexText_inj {n k : Nat} (h : hexText n = hexText k) : n = k := by
  have hread : ∀ n, ((hexDigits n).map hexDigit).map hexValue = hexDigits n := by
    intro n
    rw [List.map_map]
    exact (List.map_congr_left fun d hd => (hexDigit_spec (hexDigits_lt hd)).1).trans (List.map_id _)
  have hdigits := congrArg (List.map hexValue) (List.append_cancel_left h)
  rw [hread, hread] at hdigits
  rw [← ofDigits_hexDigits n, hdigits, ofDigits_hexDigits]

theorem plain_hexText (n : Nat) : Plain (hexText n) := by
  have hdigit : ∀ c ∈ (hexDigits n).map hexDigit, c ≠ bang ∧ c ≠ plus := by
    intro c hc
    obtain ⟨d, hd, rfl⟩ := List.mem_map.mp hc
    exact (hexDigit_spec (hexDigits_lt hd)).2
  unfold hexText
  refine ⟨fun h => ?_, fun h => ?_⟩ <;> rcases List.mem_append.mp h with hfirst | hlast
  · exact absurd hfirst (by decide)
  · exact (hdigit _ hlast).1 rfl
  · exact absurd hfirst (by decide)
  · exact (hdigit _ hlast).2 rfl

theorem bang_notMem_symbolText {symbol : Str} {offset : BitVec 32} (h : Plain symbol) :
    bang ∉ symbolText symbol offset := by
  unfold symbolText
  split
  · exact h.1
  · rw [List.mem_append, List.mem_cons, not_or, not_or]
    exact ⟨h.1, by decide, (plain_hexText _).1⟩

theorem symbolText_inj {symbol symbol' : Str} {offset offset' : BitVec 32} (hs : Plain symbol) (hs' : Plain symbol')
    (h : symbolText symbol offset = symbolText symbol' offset') : symbol = symbol' ∧ offset = offset' := by
  have hplus : ∀ (s : Str) n, plus ∈ s ++ plus :: hexText n := fun s n =>
    List.mem_append_right s List.mem_cons_self
  unfold symbolText at h
  split at h <;> split at h
  · rename_i hzero hzero'
    exact ⟨h, hzero.trans hzero'.symm⟩
  · exact absurd (h ▸ hplus symbol' _) hs.2
  · exact absurd (h ▸ hplus symbol _) hs'.2
  · obtain ⟨hname, -, htext⟩ := (List.append_cons_inj_of_notMem hs'.2 (plain_hexText _).2).mp h.symm
    exact ⟨hname.symm, (BitVec.eq_of_toNat_eq (hexText_inj htext)).symm⟩

theorem plain_text_raw (a : Nat) : Plain (Label.raw a).text := plain_hexText a

theorem bang_mem_text (name symbol : Str) (offset : BitVec 32) : bang ∈ (Label.atSymbol name symbol offset).text :=
  List.mem_append_right name List.mem_cons_self

theorem bang_notMem_text {name : Str} (h : Plain name) (offset : Nat) : bang ∉ (Label.inModule name offset).text := by
  rw [Label.text, List.mem_append, List.mem_cons, not_or, not_or]
  exact ⟨h.1, by decide, (plain_hexText offset).1⟩

theorem plus_mem_text (name : Str) (offset : Nat) : plus ∈ (Label.inModule name offset).text :=
  List.mem_append_right name List.mem_cons_self

theorem text_inj {l l' : Label} (hl : l.Plain) (hl' : l'.Plain) (h : l.text = l'.text) : l = l' := by
  cases l with
  | raw a =>
    cases l' with
    | raw b => exact congrArg Label.raw (hexText_inj h)
    | inModule name offset => exact absurd (h ▸ plus_mem_text name offset) (plain_text_raw a).2
    | atSymbol name symbol offset => exact absurd (h ▸ bang_mem_text name symbol offset) (plain_text_raw a).1
  | inModule name offset =>
    cases l' with
    | raw b => exact absurd (h ▸ plus_mem_text name offset) (plain_text_raw b).2
    | inModule name' offset' =>
      obtain ⟨hname, -, htext⟩ := (List.append_cons_inj_of_notMem hl'.2 (plain_hexText offset').2).mp h.symm
      rw [hname, hexText_inj htext]
    | atSymbol name' symbol offset' =>
      exact absurd (h ▸ bang_mem_text name' symbol offset') (bang_notMem_text hl offset)
  | atSymbol name symbol offset =>
    cases l' with
    | raw b => exact absurd (h ▸ bang_mem_text name symbol offset) (plain_text_raw b).1
    | inModule name' offset' => exact absurd (h ▸ bang_mem_text name symbol offset) (bang_notMem_text hl' offset')
    | atSymbol name' symbol' offset' =>
      obtain ⟨hname, -, htext⟩ :=
        (List.append_cons_inj_of_notMem hl'.1.1 (bang_notMem_symbolText hl'.2)).mp h.symm
      obtain ⟨hsymbol, hoffset⟩ := symbolText_inj hl'.2 hl.2 htext
      rw [hname, hsymbol, hoffset]

theorem plain_formatAddr (hp : p.WellFormed) (hplain : p.Plain) (addr : Nat) : (formatAddr p addr).Plain := by
  unfold formatAddr
  split
  · trivial
  · rename_i m hfind
    have hm := List.mem_of_find?_eq_some hfind
    split
    · exact hplain.modules m hm
    · rename_i sym hresolve
      obtain ⟨i, hbefore, hi⟩ := Option.bind_eq_some_iff.mp hresolve
      have hsorted := (hp.loaded m hm).spec.2
      dsimp only at hi
      split at hi
      · cases hi
      · obtain rfl := Option.some.inj hi
        exact ⟨hplain.modules m hm, hplain.symbols m hm i (before_spec hsorted hbefore).1⟩

/-- What is written for an address leads back to it. An address in no module is written as it is, one in a module with
a nearest symbol that covers it as that symbol, one with no such symbol as the module; and with no mark in a name the
text is written for no other address. -/
theorem formatAddr_spec {p : Table} (hp : p.WellFormed) (addr : Nat) :
    (formatAddr p addr).address p = some addr ∧
      (formatAddr p addr = .raw addr ↔ ∀ m ∈ p, ¬ m.containsAddr addr) ∧
      (∀ name symbol offset, formatAddr p addr = .atSymbol name symbol offset → ∃ m ∈ p, m.name = name ∧
        m.containsAddr addr ∧ ∃ i, m.Nearest addr i ∧ i.Covers addr ∧ i.name = symbol ∧
          i.addr + offset.toNat = addr) ∧
      (∀ m, findModuleByAddr p addr = some m →
        ((∃ i ∈ m.symbols.entries, i.addr ≤ addr) → (∀ i, m.Nearest addr i → i.Covers addr) →
          ∃ symbol offset, formatAddr p addr = .atSymbol m.name symbol offset) ∧
        ((∀ i, m.Nearest addr i → ¬ i.Covers addr) → formatAddr p addr = .inModule m.name (addr - m.addr))) ∧
      (p.Plain → ∀ addr', (formatAddr p addr').text = (formatAddr p addr).text → addr' = addr) := by
  refine ⟨address_formatAddr hp addr, formatAddr_raw_iff, fun _ _ _ => nearest_formatAddr hp,
    fun _ hfind => ⟨formatAddr_of_covers hp hfind, formatAddr_of_not_covers hp hfind⟩, fun hplain addr' htext => ?_⟩
  have hlabel := text_inj (plain_formatAddr hp hplain addr') (plain_formatAddr hp hplain addr) htext
  have haddr := address_formatAddr hp addr'
  rw [hlabel, address_formatAddr hp addr] at haddr
  exact (Option.some.inj haddr).symm

/-- Two names of one address, and a function of 16 bytes behind them. -/
def hookedBatch : List SymbolInfo :=
  [⟨ascii ['N', 't'], 0x1500, 0⟩, ⟨ascii ['Z', 'w'], 0x1500, 0⟩, ⟨ascii ['f'], 0x1800, 0x10⟩]

def hookedSymbols : ModuleSymbols where
  entries := [⟨ascii ['Z', 'w'], 0x1500, 0⟩, ⟨ascii ['N', 't'], 0x1500, 0⟩, ⟨ascii ['f'], 0x1800, 0x10⟩]
  nameIndex := (hookedBatch.foldl ModuleSymbols.insert {}).nameIndex

def hookedTable : Table := [{ Loader.hookedModule with symbols := hookedSymbols }]

theorem hookedTable_wellFormed : hookedTable.WellFormed where
  nodup := List.nodup_singleton _
  lookupName m hm := by
    obtain rfl := List.mem_singleton.mp hm
    rfl
  size m hm := by
    obtain rfl := List.mem_singleton.mp hm
    decide
  loaded m hm := by
    obtain rfl := List.mem_singleton.mp hm
    have hbatch : ∀ i ∈ hookedBatch, 0x1000 ≤ i.addr ∧ i.addr < 0x1000 + 2 ^ 32 := by decide
    exact .load .empty hbatch ⟨List.Perm.swap _ _ _, by decide, rfl⟩

theorem hookedTable_labels : (formatAddr hookedTable 0x1510 = .atSymbol (ascii ['n']) (ascii ['N', 't']) 0x10) ∧
    (formatAddr hookedTable 0x1510).address hookedTable = some 0x1510 ∧
    formatAddr hookedTable 0x1810 = .inModule (ascii ['n']) 0x810 :=
  ⟨by decide, (formatAddr_spec hookedTable_wellFormed 0x1510).1,
    ((formatAddr_spec hookedTable_wellFormed 0x1810).2.2.2.1 _ rfl).2 fun i hi => by
      have hentry : ∀ i ∈ hookedSymbols.entries, i.addr < 0x1800 ∨ ¬ i.Covers 0x1810 := by decide
      rcases hentry i hi.mem with hfar | hcovers
      · exact absurd (hi.nearest ⟨ascii ['f'], 0x1800, 0x10⟩ (by decide) (by decide)) (Nat.not_le_of_lt hfar)
      · exact hcovers⟩

end Kernemul.Symbols
