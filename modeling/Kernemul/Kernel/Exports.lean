import Kernemul.Win.Text
import Mathlib.Logic.Function.Basic

/-!
# Exports and forwarders

An import is bound by name (`resolve_export`, which follows forwarders from module to module) or by ordinal
(`proc_module::find_ordinal`, which reads the function table). The library that reads the export directory is a
parameter of the images (`PeExports` is what it documents), and so is which module a name leads to: modules that a
resolution loads are there from the start. Hooks stand at addresses and have no part in it.
-/

namespace Kernemul.Exports

open Text

abbrev Addr := Nat

/-- What `pe->exports()` gives for a name: the slot of the function table it stands for, whether it forwards, and
where to. -/
structure Export where
  name : Str
  slot : Nat
  forwarded : Bool
  loc : BitVec 32
  forward : Str
  deriving DecidableEq, Repr

structure Image where
  used : Bool
  virtualAddress : BitVec 32
  size : BitVec 32
  base : BitVec 32
  numberOfFunctions : BitVec 32
  functions : Nat → BitVec 32
  exports : List Export

def Image.InDirectory (img : Image) (rva : BitVec 32) : Prop :=
  img.virtualAddress ≤ rva ∧ rva < img.virtualAddress + img.size

instance (img : Image) (rva : BitVec 32) : Decidable (img.InDirectory rva) := inferInstanceAs (Decidable (_ ∧ _))

structure Module where
  name : Str
  addr : Addr
  image : Option Image
  exports : Str → Option Addr

/-- The loop of `add_module` over the exports. -/
def addExport (addr : Addr) (exports : Str → Option Addr) (e : Export) : Str → Option Addr :=
  if e.forwarded then exports else Function.update exports e.name (some (addr + e.loc.toNat))

def addModule (name : Str) (addr : Addr) (img : Image) : Module where
  name := name
  addr := addr
  image := some img
  exports := img.exports.foldl (addExport addr) fun _ => none

def Module.findExport (m : Module) (name : Str) : Option Addr := m.exports name

def Module.findOrdinal (m : Module) (ordinal : BitVec 32) : Option Addr :=
  m.image.bind fun img =>
    if ¬ img.used then none
    else if ordinal < img.base ∨ ordinal - img.base ≥ img.numberOfFunctions then none
    else
      let rva := img.functions (ordinal - img.base).toNat
      if rva = 0 ∨ img.InDirectory rva then none else some (m.addr + rva.toNat)

def Module.findForward (m : Module) (name : Str) : Str :=
  (m.image.bind fun img => (img.exports.find? fun e => e.forwarded ∧ e.name = name).map (·.forward)).getD []

/-- `find_module_by_stem` and `find_or_load`. -/
structure Process where
  findModuleByStem : Str → Option Module
  findOrLoad : Str → Str → Option Module

inductive Target
  | name (m : Module) (sym : Str)
  | ordinal (m : Module) (ordinal : BitVec 32)

def dot : UInt8 := 0x2e
def hash : UInt8 := 0x23

/-- `std::from_chars` to 32 bits: the digits at the front. -/
def fromChars (s : Str) : Option (BitVec 32) :=
  let digits := s.takeWhile fun c => 0x30 ≤ c ∧ c ≤ 0x39
  let n := digits.foldl (fun n c => 10 * n + (c.toNat - 0x30)) 0
  if digits = [] ∨ 2 ^ 32 ≤ n then none else some (BitVec.ofNat 32 n)

namespace Process
variable (p : Process)

def target (m : Module) (forward : Str) : Option Target :=
  if dot ∉ forward then none
  else
    let targetMod := forward.takeWhile (· ≠ dot)
    let targetSym := forward.drop (targetMod.length + 1)
    ((p.findModuleByStem targetMod).or (p.findOrLoad (targetMod ++ ascii ['.', 'd', 'l', 'l']) m.name)).bind fun m' =>
      if targetSym.head? = some hash then (fromChars targetSym.tail).map (.ordinal m') else some (.name m' targetSym)

/-- `resolve_export`, when it may follow so many forwarders yet. -/
def resolveExport : Nat → Module → Str → Option Addr
  | left, m, sym =>
    match m.findExport sym with
    | some addr => some addr
    | none =>
      let forward := m.findForward sym
      if forward = [] then none
      else match left with
        | 0 => none
        | left + 1 =>
          (p.target m forward).bind fun
            | .ordinal m' ordinal => m'.findOrdinal ordinal
            | .name m' sym' => resolveExport left m' sym'

def depth : Nat := 8

def resolve (m : Module) (sym : Str) : Option Addr := p.resolveExport depth m sym

def resolveTarget : Target → Option Addr
  | .ordinal m ordinal => m.findOrdinal ordinal
  | .name m sym => p.resolve m sym

end Process

/-- What the library documents: a name stands for a slot of the function table, and forwards when the rva in it lies
in the directory; the ordinal is the slot counted from the base. -/
structure PeExports (img : Image) : Prop where
  used : img.exports ≠ [] → img.used = true
  slot : ∀ e ∈ img.exports, e.slot < img.numberOfFunctions.toNat ∧ img.base.toNat + e.slot < 2 ^ 32
  loc : ∀ e ∈ img.exports, e.loc = img.functions e.slot
  forwarded : ∀ e ∈ img.exports, e.forwarded = true ↔ img.InDirectory e.loc

structure Image.Named (img : Image) (e : Export) : Prop where
  mem : e ∈ img.exports
  alone : ∀ e' ∈ img.exports, e'.name = e.name → e' = e

def Image.ordinal (img : Image) (e : Export) : BitVec 32 := img.base + BitVec.ofNat 32 e.slot

/-- The export is at one address by its name and by its ordinal; and where what it forwards to is. -/
structure Agrees (p : Process) (m : Module) (img : Image) (e : Export) : Prop where
  ordinal : p.resolve m e.name = m.findOrdinal (img.ordinal e)
  forward : e.forwarded → ∀ t, p.target m e.forward = some t → p.resolve m e.name = p.resolveTarget t

/-- A chain of at most so many forwarders leads from a symbol to an address. -/
inductive Leads (p : Process) : Nat → Module → Str → Addr → Prop
  | export {n : Nat} {m : Module} {sym : Str} {addr : Addr} (h : m.findExport sym = some addr) : Leads p n m sym addr
  | ordinal {n : Nat} {m m' : Module} {sym : Str} {ordinal : BitVec 32} {addr : Addr} (hnone : m.findExport sym = none)
      (hforward : m.findForward sym ≠ []) (ht : p.target m (m.findForward sym) = some (.ordinal m' ordinal))
      (h : m'.findOrdinal ordinal = some addr) : Leads p (n + 1) m sym addr
  | forward {n : Nat} {m m' : Module} {sym sym' : Str} {addr : Addr} (hnone : m.findExport sym = none)
      (hforward : m.findForward sym ≠ []) (ht : p.target m (m.findForward sym) = some (.name m' sym'))
      (h : Leads p n m' sym' addr) : Leads p (n + 1) m sym addr

/-! ## Following forwarders -/

variable {p : Process} {m : Module} {sym : Str} {addr : Addr} {n : Nat}

theorem resolveExport_of_export (h : m.findExport sym = some addr) : p.resolveExport n m sym = some addr := by
  cases n <;> rw [Process.resolveExport, h]

theorem resolveExport_zero (h : m.findExport sym = none) : p.resolveExport 0 m sym = none := by
  rw [Process.resolveExport, h]
  exact ite_self none

theorem resolveExport_succ (h : m.findExport sym = none) (hforward : m.findForward sym ≠ []) :
    p.resolveExport (n + 1) m sym = (p.target m (m.findForward sym)).bind fun
      | .ordinal m' ordinal => m'.findOrdinal ordinal
      | .name m' sym' => p.resolveExport n m' sym' := by
  rw [Process.resolveExport, h]
  exact if_neg hforward

theorem resolveExport_iff : p.resolveExport n m sym = some addr ↔ Leads p n m sym addr := by
  constructor
  · intro h
    induction n generalizing m sym with
    | zero =>
      cases hexport : m.findExport sym with
      | none =>
        rw [resolveExport_zero hexport] at h
        cases h
      | some a =>
        rw [resolveExport_of_export hexport] at h
        exact .export (hexport.trans h)
    | succ n ih =>
      cases hexport : m.findExport sym with
      | none =>
        by_cases hforward : m.findForward sym = []
        · rw [Process.resolveExport, hexport, hforward] at h
          cases h
        · rw [resolveExport_succ hexport hforward] at h
          obtain ⟨t, ht, h⟩ := Option.bind_eq_some_iff.mp h
          cases t with
          | name m' sym' => exact .forward hexport hforward ht (ih h)
          | ordinal m' ordinal => exact .ordinal hexport hforward ht h
      | some a =>
        rw [resolveExport_of_export hexport] at h
        exact .export (hexport.trans h)
  · intro h
    induction h with
    | «export» h => exact resolveExport_of_export h
    | ordinal hnone hforward ht h => rw [resolveExport_succ hnone hforward, ht]; exact h
    | forward hnone hforward ht _ ih => rw [resolveExport_succ hnone hforward, ht]; exact ih

theorem Leads.succ (h : Leads p n m sym addr) : Leads p (n + 1) m sym addr := by
  induction h with
  | «export» h => exact .export h
  | ordinal hnone hforward ht h => exact .ordinal hnone hforward ht h
  | forward hnone hforward ht _ ih => exact .forward hnone hforward ht ih

/-! ## One export, by name and by ordinal -/

variable {img : Image} {e : Export}

theorem foldl_addExport_of_ne {es : List Export} (h : ∀ e' ∈ es, e'.name = sym → e'.forwarded = true)
    (f : Str → Option Addr) : es.foldl (addExport addr) f sym = f sym := by
  induction es generalizing f with
  | nil => rfl
  | cons e es ih =>
    obtain ⟨he, h⟩ := List.forall_mem_cons.mp h
    rw [List.foldl_cons, ih h, addExport]
    split_ifs with hforwarded
    · rfl
    · refine Function.update_of_ne ?_ ..
      rintro rfl
      exact hforwarded (he rfl)

theorem foldl_addExport_self {es : List Export} (he : e ∈ es) (halone : ∀ e' ∈ es, e'.name = e.name → e' = e)
    (hforwarded : e.forwarded = false) (f : Str → Option Addr) :
    es.foldl (addExport addr) f e.name = some (addr + e.loc.toNat) := by
  induction es generalizing f with
  | nil => cases he
  | cons e' es ih =>
    have hrest := (List.forall_mem_cons.mp halone).2
    rw [List.foldl_cons]
    by_cases hmem : e ∈ es
    · exact ih hmem hrest _
    · obtain rfl := (List.mem_cons.mp he).resolve_right hmem
      rw [foldl_addExport_of_ne, addExport, hforwarded]
      · exact Function.update_self ..
      · intro e' hin hname
        exact absurd (hrest e' hin hname ▸ hin) hmem

theorem Image.Named.findExport (h : img.Named e) (name : Str) (addr : Addr) :
    (addModule name addr img).findExport e.name = if e.forwarded then none else some (addr + e.loc.toNat) := by
  cases hforwarded : e.forwarded with
  | false => exact foldl_addExport_self h.mem h.alone hforwarded _
  | true => exact foldl_addExport_of_ne (fun e' he' hname => h.alone e' he' hname ▸ hforwarded) _

theorem Image.Named.findForward (h : img.Named e) (hforwarded : e.forwarded = true) (name : Str) (addr : Addr) :
    (addModule name addr img).findForward e.name = e.forward := by
  have hfind : img.exports.find? (fun e' => e'.forwarded ∧ e'.name = e.name) = some e := by
    obtain ⟨e', he'⟩ : ∃ e', img.exports.find? (fun e' => e'.forwarded ∧ e'.name = e.name) = some e' :=
      Option.isSome_iff_exists.mp (List.find?_isSome.mpr ⟨e, h.mem, by simp [hforwarded]⟩)
    have hname : e'.name = e.name := by
      have hfound := List.find?_some he'
      simp only [decide_eq_true_eq] at hfound
      exact hfound.2
    rw [he', h.alone e' (List.mem_of_find?_eq_some he') hname]
  rw [Module.findForward]
  change ((img.exports.find? _).map _).getD [] = _
  rw [hfind]
  rfl

theorem PeExports.findOrdinal (hpe : PeExports img) (he : e ∈ img.exports) (name : Str) (addr : Addr) :
    (addModule name addr img).findOrdinal (img.ordinal e) =
      if e.loc = 0 ∨ e.forwarded then none else some (addr + e.loc.toNat) := by
  obtain ⟨hslot, hwrap⟩ := hpe.slot e he
  have hused : img.used = true := hpe.used (List.ne_nil_of_mem he)
  have hbase : (img.ordinal e).toNat = img.base.toNat + e.slot := by
    rw [Image.ordinal, BitVec.toNat_add, BitVec.toNat_ofNat]
    omega
  have hsub : (img.ordinal e - img.base).toNat = e.slot := by
    rw [BitVec.toNat_sub, hbase]
    omega
  have hrange : ¬ (img.ordinal e < img.base ∨ img.ordinal e - img.base ≥ img.numberOfFunctions) := by
    rw [ge_iff_le, BitVec.lt_def, BitVec.le_def, hbase, hsub]
    omega
  rw [Module.findOrdinal]
  change (if ¬ img.used then none else _) = _
  rw [if_neg (not_not.mpr hused), if_neg hrange, hsub, ← hpe.loc e he]
  simp only [hpe.forwarded e he]
  rfl

/-- An export that does not forward has an address by its ordinal where its slot is used. -/
theorem agrees_export_iff (p : Process) (hpe : PeExports img) (he : img.Named e) (hforwarded : e.forwarded = false)
    (name : Str) (addr : Addr) : Agrees p (addModule name addr img) img e ↔ e.loc ≠ 0 := by
  have hexport := he.findExport name addr
  have hordinal := hpe.findOrdinal he.mem name addr
  rw [hforwarded] at hexport hordinal
  have hresolve : p.resolve (addModule name addr img) e.name = some (addr + e.loc.toNat) :=
    resolveExport_of_export hexport
  constructor
  · intro h hzero
    have heq := h.ordinal
    rw [hresolve, hordinal, if_pos (.inl hzero)] at heq
    cases heq
  · intro hne
    refine ⟨?_, fun hyes => ?_⟩
    · rw [hresolve, hordinal, if_neg (by simpa using hne)]
    · rw [hforwarded] at hyes
      cases hyes

/-- A forwarder has no address by its ordinal, so it must have none by its name. -/
theorem agrees_forwarder_iff (p : Process) (hpe : PeExports img) (he : img.Named e) (hforwarded : e.forwarded = true)
    (name : Str) (addr : Addr) : Agrees p (addModule name addr img) img e ↔
      ∀ a, ¬ Leads p (Process.depth + 1) (addModule name addr img) e.name a := by
  have hexport := he.findExport name addr
  have hordinal := hpe.findOrdinal he.mem name addr
  rw [hforwarded, if_pos rfl] at hexport
  rw [hforwarded, if_pos (.inr rfl)] at hordinal
  have hforward := he.findForward hforwarded name addr
  constructor
  · intro h a hleads
    have hnone := h.ordinal.trans hordinal
    cases hleads with
    | «export» ha =>
      rw [hexport] at ha
      cases ha
    | ordinal _ _ ht ha =>
      rw [hforward] at ht
      have htarget := h.forward hforwarded _ ht
      rw [hnone, Process.resolveTarget, ha] at htarget
      cases htarget
    | forward _ _ ht hleads =>
      rw [hforward] at ht
      have htarget := h.forward hforwarded _ ht
      rw [hnone, Process.resolveTarget, Process.resolve, resolveExport_iff.mpr hleads] at htarget
      cases htarget
  · intro hnowhere
    have hnone : p.resolve (addModule name addr img) e.name = none := by
      refine Option.eq_none_iff_forall_ne_some.mpr fun a ha => ?_
      exact hnowhere a (resolveExport_iff.mp ha).succ
    refine ⟨hnone.trans hordinal.symm, fun _ t ht => hnone.trans ?_⟩
    have hnonempty : (addModule name addr img).findForward e.name ≠ [] := by
      rw [hforward]
      intro hnil
      rw [hnil] at ht
      cases ht
    rw [← hforward] at ht
    refine (Option.eq_none_iff_forall_ne_some.mpr fun a ha => ?_).symm
    cases t with
    | name m' sym' => exact hnowhere a (.forward hexport hnonempty ht (resolveExport_iff.mp ha))
    | ordinal m' ordinal => exact hnowhere a (.ordinal hexport hnonempty ht ha)

/-- **Names and ordinals agree** on an export that does not forward, unless its slot is not used; and on one that
forwards only when no chain of forwarders leads from it to an address. -/
theorem agrees_iff (p : Process) {img : Image} (hpe : PeExports img) {e : Export} (he : img.Named e) (name : Str)
    (addr : Addr) : Agrees p (addModule name addr img) img e ↔
      e.forwarded = false ∧ e.loc ≠ 0 ∨
        e.forwarded = true ∧ ∀ a, ¬ Leads p (Process.depth + 1) (addModule name addr img) e.name a := by
  cases hforwarded : e.forwarded with
  | false =>
    rw [agrees_export_iff p hpe he hforwarded]
    simp
  | true =>
    rw [agrees_forwarder_iff p hpe he hforwarded]
    simp

/-! ## A forwarder -/

def oneExport (e : Export) : Image where
  used := true
  virtualAddress := 0x1000
  size := 0x100
  base := 1
  numberOfFunctions := 1
  functions _ := e.loc
  exports := [e]

theorem oneExport_peExports {e : Export} (hslot : e.slot = 0)
    (hforwarded : e.forwarded = true ↔ (oneExport e).InDirectory e.loc) : PeExports (oneExport e) where
  used _ := rfl
  slot e' he' := by
    obtain rfl := List.mem_singleton.mp he'
    rw [hslot]
    change 0 < (1 : BitVec 32).toNat ∧ (1 : BitVec 32).toNat + 0 < 2 ^ 32
    decide
  loc e' he' := by
    obtain rfl := List.mem_singleton.mp he'
    rfl
  forwarded e' he' := by
    obtain rfl := List.mem_singleton.mp he'
    exact hforwarded

theorem oneExport_named (e : Export) : (oneExport e).Named e where
  mem := List.mem_singleton_self e
  alone _ he _ := List.mem_singleton.mp he

def plainExport : Export := ⟨ascii ['g'], 0, false, 0x500, []⟩
def forwarder : Export := ⟨ascii ['f'], 0, true, 0x1010, ascii ['b', '.', 'g']⟩

def moduleB : Module := addModule (ascii ['b', '.', 's', 'y', 's']) 0x20000 (oneExport plainExport)

def twoModules : Process where
  findModuleByStem stem := if stem = ascii ['b'] then some moduleB else none
  findOrLoad _ _ := none

def laterExport : Export := ⟨ascii ['h'], 2, false, 0x700, []⟩

/-- An image with two exports and a forwarder, whose ordinals start at 5 and leave one out. -/
def threeExports : Image where
  used := true
  virtualAddress := 0x1000
  size := 0x100
  base := 5
  numberOfFunctions := 4
  functions
    | 0 => 0x500
    | 2 => 0x700
    | 3 => 0x1010
    | _ => 0
  exports := [plainExport, { forwarder with slot := 3 }, laterExport]

theorem threeExports_peExports : PeExports threeExports where
  used _ := rfl
  slot := by decide
  loc := by decide
  forwarded := by decide

theorem laterExport_agrees :
    Agrees twoModules (addModule (ascii ['c', '.', 's', 'y', 's']) 0x30000 threeExports) threeExports laterExport :=
  (agrees_iff twoModules threeExports_peExports ⟨by decide, by decide⟩ _ _).mpr (.inl (by decide))

theorem forwarder_disagrees : ¬ ∀ p img e name addr, PeExports img → img.Named e →
    Agrees p (addModule name addr img) img e := by
  intro hall
  have hagrees := hall twoModules (oneExport forwarder) forwarder (ascii ['a', '.', 's', 'y', 's']) 0x10000
    (oneExport_peExports rfl (by decide)) (oneExport_named forwarder)
  have hname : twoModules.resolve (addModule (ascii ['a', '.', 's', 'y', 's']) 0x10000 (oneExport forwarder))
      forwarder.name = some 0x20500 := by decide +kernel
  have hordinal : (addModule (ascii ['a', '.', 's', 'y', 's']) 0x10000 (oneExport forwarder)).findOrdinal
      ((oneExport forwarder).ordinal forwarder) = none := by decide +kernel
  have heq := hname.symm.trans (hagrees.ordinal.trans hordinal)
  cases heq

end Kernemul.Exports
