import Kernemul.Lib.Bytes
import Kernemul.Lib.Paths
import Kernemul.Win.Text
import Mathlib.Data.List.Sort

/-!
# Enumerating an object directory

`NtQueryDirectoryObject` lists the children of a directory of the object namespace: as many as fit into the buffer,
and the context says where the next call goes on. The namespace does not change between the calls, and the guest's
buffer, context and result length can be written.
-/

namespace Kernemul.DirectoryObjects

open Text Bytes Paths

abbrev Addr := Nat

/-- The host classes that `type_of` tells apart. -/
inductive HostKind
  | directory
  | driverObject
  | section
  | symbolicLink
  | file
  | device
  | other
  deriving DecidableEq, Repr

/-- `named_` and the host side of the objects. -/
structure Namespace where
  named : List (Str × Addr)
  hosts : Addr → Option HostKind

inductive Status
  | success
  | moreEntries
  | noMoreEntries
  | bufferTooSmall
  | invalidHandle
  deriving DecidableEq, Repr

structure DirectoryEntry where
  name : WStr
  type : WStr
  deriving DecidableEq, Repr

/-! ## The children -/

/-- One name of the loop of `child_names`. -/
def collectChild (start : Str) (names : List Str) (name : Str) : List Str :=
  if start <+: name then
    let child := component slash (name.drop start.length)
    if child ≠ [] ∧ child ∉ names then names ++ [child] else names
  else names

def childNames (ns : Namespace) (start : Str) : List Str :=
  ((ns.named.map Prod.fst).foldl (collectChild start) []).insertionSort (· ≤ ·)

def IsChild (ns : Namespace) (start child : Str) : Prop :=
  child ≠ [] ∧ ∃ name ∈ ns.named.map Prod.fst, ∃ rest, name = start ++ rest ∧ child = component slash rest

variable {start : Str} {names : List Str}

theorem mem_collectChild {name c : Str} : c ∈ collectChild start names name ↔
    c ∈ names ∨ c ≠ [] ∧ ∃ rest, name = start ++ rest ∧ c = component slash rest := by
  unfold collectChild
  by_cases hstart : start <+: name
  · rw [if_pos hstart]
    obtain ⟨rest, rfl⟩ := hstart
    rw [List.drop_left]
    have hrest : (c ≠ [] ∧ ∃ r, start ++ rest = start ++ r ∧ c = component slash r) ↔
        c ≠ [] ∧ c = component slash rest := by simp
    rw [hrest]
    dsimp only
    split_ifs with hnew
    · rw [List.mem_append, List.mem_singleton]
      refine or_congr_right ⟨fun heq => ⟨heq ▸ hnew.1, heq⟩, And.right⟩
    · refine (or_iff_left_of_imp ?_).symm
      rintro ⟨hne, rfl⟩
      by_contra hmem
      exact hnew ⟨hne, hmem⟩
  · rw [if_neg hstart]
    refine (or_iff_left_of_imp ?_).symm
    rintro ⟨-, rest, rfl, -⟩
    exact absurd (List.prefix_append ..) hstart

theorem nodup_collectChild {name : Str} (h : names.Nodup) :
    (collectChild start names name).Nodup := by
  unfold collectChild
  dsimp only
  split_ifs with hstart hnew
  · exact List.nodup_append'.mpr ⟨h, List.nodup_singleton _, List.disjoint_singleton.mpr hnew.2⟩
  · exact h
  · exact h

theorem mem_foldl_collectChild {c : Str} {keys : List Str} :
    c ∈ keys.foldl (collectChild start) names ↔
      c ∈ names ∨ c ≠ [] ∧ ∃ name ∈ keys, ∃ rest, name = start ++ rest ∧ c = component slash rest := by
  induction keys generalizing names with
  | nil => simp
  | cons key keys ih =>
    rw [List.foldl_cons, ih, mem_collectChild, List.exists_mem_cons_iff, or_assoc, ← and_or_left]

theorem nodup_foldl_collectChild {keys : List Str} (h : names.Nodup) :
    (keys.foldl (collectChild start) names).Nodup := by
  induction keys generalizing names with
  | nil => exact h
  | cons key keys ih => exact ih (nodup_collectChild h)

theorem mem_childNames {ns : Namespace} {c : Str} : c ∈ childNames ns start ↔ IsChild ns start c := by
  rw [childNames, List.mem_insertionSort, mem_foldl_collectChild, or_iff_right List.not_mem_nil]
  rfl

theorem nodup_childNames (ns : Namespace) (start : Str) : (childNames ns start).Nodup :=
  (List.perm_insertionSort ..).nodup_iff.mpr (nodup_foldl_collectChild List.nodup_nil)

/-! ## The handler -/

def Namespace.lookupNamedObject (ns : Namespace) (name : Str) : Addr := (ns.named.lookup name).getD 0

def typeOf (ns : Namespace) (name : Str) : WStr :=
  let addr := ns.lookupNamedObject name
  widenString <| ascii <|
    if addr = 0 then ['U', 'n', 'k', 'n', 'o', 'w', 'n']
    else match ns.hosts addr with
      | some .directory => ['D', 'i', 'r', 'e', 'c', 't', 'o', 'r', 'y']
      | some .driverObject => ['D', 'r', 'i', 'v', 'e', 'r']
      | some .section => ['S', 'e', 'c', 't', 'i', 'o', 'n']
      | some .symbolicLink => ['S', 'y', 'm', 'b', 'o', 'l', 'i', 'c', 'L', 'i', 'n', 'k']
      | some .file => ['F', 'i', 'l', 'e']
      | some .device => ['D', 'e', 'v', 'i', 'c', 'e']
      | _ => ['U', 'n', 'k', 'n', 'o', 'w', 'n']

/-- `sizeof(object_directory_information_t)`. -/
def header : Nat := 0x20

def directoryPrefix (name : Str) : Str := objectNamespaceKey name ++ [slash]

def entries (ns : Namespace) (name : Str) : List DirectoryEntry :=
  (childNames ns (directoryPrefix name)).map fun child => ⟨widenString child, typeOf ns (directoryPrefix name ++ child)⟩

def DirectoryEntry.add (e : DirectoryEntry) : Nat := header + e.name.length * 2 + 2 + e.type.length * 2 + 2

def choose (length : Nat) (returnSingleEntry : Bool) : Nat → List DirectoryEntry → List DirectoryEntry × Nat
  | total, [] => ([], total)
  | total, e :: es =>
    if total + e.add > length then ([], total)
    else if returnSingleEntry then ([e], total + e.add)
    else
      let r := choose length returnSingleEntry (total + e.add) es
      (e :: r.1, r.2)

/-- `Length`, in 16 bits. -/
def textBytes (s : WStr) : Nat := s.length * 2 % 2 ^ 16

def unicodeString (bytes buffer : Nat) : List UInt8 := encode [(2, bytes), (2, bytes + 2), (4, 0), (8, buffer)]

def textOut (s : WStr) : List UInt8 := (wide s).take (textBytes s) ++ [0, 0]

def textsOut (chosen : List DirectoryEntry) : List UInt8 := chosen.flatMap fun e => textOut e.name ++ textOut e.type

/-- The structures, with the texts from `stringAt` on. -/
def infos (buffer : Addr) : Nat → List DirectoryEntry → List UInt8
  | _, [] => []
  | stringAt, e :: es =>
    let typeAt := stringAt + (textBytes e.name + 2)
    unicodeString (textBytes e.name) (buffer + stringAt) ++ unicodeString (textBytes e.type) (buffer + typeAt)
      ++ infos buffer (typeAt + (textBytes e.type + 2)) es

/-- `out`: the structures, a zeroed one, and the texts, in `total` bytes of zeros. -/
def packed (buffer total : Nat) (chosen : List DirectoryEntry) : List UInt8 :=
  (infos buffer (header * (chosen.length + 1)) chosen ++ List.replicate header 0
    ++ textsOut chosen).rightpad total 0

structure Request where
  buffer : Addr
  length : BitVec 32
  returnSingleEntry : Bool
  restartScan : Bool

/-- The status, what is written to the buffer, and the context, which may be missing. -/
structure Reply where
  status : Status
  out : Option (List UInt8)
  context : Option (BitVec 32)
  returnLength : Option (BitVec 32)

def replyFrom (children : List DirectoryEntry) (r : Request) (context : Option (BitVec 32)) (index : BitVec 32) :
    Reply :=
  let (chosen, total) := choose r.length.toNat r.returnSingleEntry header (children.drop index.toNat)
  let next := index + BitVec.ofNat 32 chosen.length
  if total > r.length.toNat then ⟨.bufferTooSmall, none, context, none⟩
  else
    { status :=
        if chosen = [] ∧ index.toNat ≥ children.length then .noMoreEntries
        else if next.toNat < children.length then .moreEntries else .success
      out := some (packed r.buffer total chosen)
      context := context.map fun _ => next
      returnLength := some (BitVec.ofNat 32 (packed r.buffer total chosen).length) }

/-- `NtQueryDirectoryObject`, for a handle to a directory of a name or to none. -/
def queryDirectoryObject (ns : Namespace) (host : Option Str) (r : Request) (context : Option (BitVec 32)) : Reply :=
  match host with
  | none => ⟨.invalidHandle, none, context, none⟩
  | some name =>
    let children := entries ns name
    let index := if r.restartScan then 0 else context.getD 0
    replyFrom children r context <|
      if index.toNat > children.length then BitVec.ofNat 32 children.length else index

/-! ## What the guest reads -/

/-- The text of a `_UNICODE_STRING` that points into the buffer. -/
def readUnicodeString (buffer : Addr) (out info : List UInt8) : Option WStr :=
  (num info 0 2).bind fun length =>
    (num info 8 8).bind fun address =>
      (slice out ((address + (2 ^ 64 - buffer % 2 ^ 64)) % 2 ^ 64) length).map unwide

def readEntries (buffer : Addr) (out : List UInt8) : Nat → Nat → Option (List DirectoryEntry)
  | 0, _ => none
  | count + 1, pos =>
    (slice out pos header).bind fun info =>
      if info = List.replicate header 0 then some []
      else
        (readUnicodeString buffer out (info.take 16)).bind fun name =>
          (readUnicodeString buffer out (info.drop 16)).bind fun type =>
            (readEntries buffer out count (pos + header)).map (⟨name, type⟩ :: ·)

def decode (buffer : Addr) (out : List UInt8) : Option (List DirectoryEntry) := readEntries buffer out out.length 0

theorem length_infos (buffer stringAt : Nat) (es : List DirectoryEntry) :
    (infos buffer stringAt es).length = header * es.length := by
  induction es generalizing stringAt with
  | nil => rfl
  | cons e es ih =>
    simp only [infos, List.length_append, ih, unicodeString, length_encode, width, header, List.length_cons]
    simp only [List.map_cons, List.map_nil, List.sum_cons, List.sum_nil]
    omega

variable {buffer : Nat} {out : List UInt8}

theorem readUnicodeString_eq {stringAt : Nat} {s : WStr} (hs : s.length < 2 ^ 15) (hat : stringAt < 2 ^ 64)
    {a c : List UInt8} (hout : out = a ++ (textOut s ++ c)) (ha : a.length = stringAt) :
    readUnicodeString buffer out (unicodeString (textBytes s) (buffer + stringAt)) = some s := by
  have hbytes : textBytes s = s.length * 2 := Nat.mod_eq_of_lt (by omega)
  have htext : textOut s = wide s ++ [0, 0] := by
    rw [textOut, List.take_of_length_le (by rw [length_wide, hbytes]; omega)]
  have hlength : num (unicodeString (textBytes s) (buffer + stringAt)) 0 2 = some (textBytes s) := by
    have hfield := num_encode_of_lt [] (k := 2) (n := textBytes s) (Nat.mod_lt _ (by decide))
      [(2, textBytes s + 2), (4, 0), (8, buffer + stringAt)] []
    rwa [List.append_nil] at hfield
  have haddress : num (unicodeString (textBytes s) (buffer + stringAt)) 8 8 = some ((buffer + stringAt) % 2 ^ 64) := by
    have hfield := num_encode [(2, textBytes s), (2, textBytes s + 2), (4, 0)] 8 (buffer + stringAt) [] []
    rwa [List.append_nil] at hfield
  have hoffset : ((buffer + stringAt) % 2 ^ 64 + (2 ^ 64 - buffer % 2 ^ 64)) % 2 ^ 64 = stringAt := by omega
  have hslice : slice out stringAt (textBytes s) = some (wide s) := by
    refine slice_of_append (a := a) (c := [0, 0] ++ c) ?_ ha (by rw [length_wide, hbytes]; omega)
    rw [hout, htext, List.append_assoc]
  rw [readUnicodeString, hlength, Option.bind_some, haddress, Option.bind_some, hoffset, hslice, Option.map_some,
    unwide_wide]

theorem length_readUnicodeString {buffer : Addr} {info : List UInt8} {s : WStr}
    (h : readUnicodeString buffer out info = some s) : s.length < 2 ^ 15 := by
  obtain ⟨length, hlength, h⟩ := Option.bind_eq_some_iff.mp h
  obtain ⟨address, -, h⟩ := Option.bind_eq_some_iff.mp h
  obtain ⟨text, htext, rfl⟩ := Option.map_eq_some_iff.mp h
  obtain ⟨bytes, hbytes, rfl⟩ := Option.map_eq_some_iff.mp hlength
  have hlt := toNat_lt bytes
  rw [length_slice hbytes] at hlt
  rw [length_unwide, length_slice htext]
  omega

variable {es : List DirectoryEntry}

theorem length_of_readEntries {buffer : Addr} {count pos : Nat}
    (h : readEntries buffer out count pos = some es) : ∀ e ∈ es, e.name.length < 2 ^ 15 := by
  induction count generalizing pos es with
  | zero => cases h
  | succ count ih =>
    rw [readEntries] at h
    obtain ⟨info, -, h⟩ := Option.bind_eq_some_iff.mp h
    split at h
    · obtain rfl := Option.some.inj h
      exact fun e he => nomatch he
    · obtain ⟨name, hname, h⟩ := Option.bind_eq_some_iff.mp h
      obtain ⟨type, -, h⟩ := Option.bind_eq_some_iff.mp h
      obtain ⟨rest, hrest, rfl⟩ := Option.map_eq_some_iff.mp h
      exact List.forall_mem_cons.mpr ⟨length_readUnicodeString hname, ih hrest⟩

/-- Names and types that the guest can be told: short enough, and with a name to them. -/
def DirectoryEntry.Readable (e : DirectoryEntry) : Prop :=
  e.name ≠ [] ∧ e.name.length < 2 ^ 15 ∧ e.type.length < 2 ^ 15

theorem length_textOut (s : WStr) : (textOut s).length = textBytes s + 2 := by
  have hle : textBytes s ≤ (wide s).length := by
    rw [length_wide, textBytes, Nat.mul_comm]
    exact Nat.mod_le _ _
  rw [textOut, List.length_append, List.length_take, Nat.min_eq_left hle]
  rfl

theorem unicodeString_ne_zero {e : DirectoryEntry} (he : e.Readable) (address : Nat) (rest : List UInt8) :
    unicodeString (textBytes e.name) address ++ rest ≠ List.replicate header 0 := by
  intro hzero
  have hfield := num_encode_of_lt [] (k := 2) (n := textBytes e.name) (Nat.mod_lt _ (by decide))
    [(2, textBytes e.name + 2), (4, 0), (8, address)] rest
  change num (unicodeString (textBytes e.name) address ++ rest) 0 2 = _ at hfield
  rw [hzero] at hfield
  have hbytes : textBytes e.name = e.name.length * 2 := Nat.mod_eq_of_lt (by have := he.2.1; omega)
  have hpos := List.length_pos_of_ne_nil he.1
  have hnone : num (List.replicate header 0) 0 2 = some 0 := rfl
  rw [hnone, hbytes] at hfield
  have := Option.some.inj hfield
  omega

theorem readEntries_cons {nameAt typeAt pos count : Nat} {e : DirectoryEntry} (he : e.Readable)
    (hinfo : slice out pos header =
      some (unicodeString (textBytes e.name) (buffer + nameAt) ++ unicodeString (textBytes e.type) (buffer + typeAt)))
    (hname : readUnicodeString buffer out (unicodeString (textBytes e.name) (buffer + nameAt)) = some e.name)
    (htype : readUnicodeString buffer out (unicodeString (textBytes e.type) (buffer + typeAt)) = some e.type)
    (hrest : readEntries buffer out count (pos + header) = some es) :
    readEntries buffer out (count + 1) pos = some (e :: es) := by
  have htake : (unicodeString (textBytes e.name) (buffer + nameAt) ++
      unicodeString (textBytes e.type) (buffer + typeAt)).take 16 = _ := List.take_left' rfl
  have hdrop : (unicodeString (textBytes e.name) (buffer + nameAt) ++
      unicodeString (textBytes e.type) (buffer + typeAt)).drop 16 = _ := List.drop_left' rfl
  rw [readEntries, hinfo, Option.bind_some, if_neg (unicodeString_ne_zero he _ _), htake, hdrop, hname,
    Option.bind_some, htype, Option.bind_some, hrest, Option.map_some]

theorem readEntries_infos {stringAt : Nat} (hes : ∀ e ∈ es, e.Readable) {a b c : List UInt8}
    (hout : out = a ++ (infos buffer stringAt es ++ (List.replicate header 0 ++ (b ++ (textsOut es ++ c)))))
    (hat : stringAt = a.length + header * es.length + header + b.length) (hlt : out.length < 2 ^ 64)
    {count : Nat} (hcount : es.length < count) : readEntries buffer out count a.length = some es := by
  induction es generalizing a b stringAt count with
  | nil =>
    obtain ⟨count, rfl⟩ := Nat.exists_eq_succ_of_ne_zero (Nat.ne_of_gt hcount)
    have hzero : out = a ++ (List.replicate header 0 ++ (b ++ (textsOut [] ++ c))) := hout
    rw [readEntries, slice_of_append hzero rfl List.length_replicate, Option.bind_some, if_pos rfl]
  | cons e es ih =>
    obtain ⟨count, rfl⟩ := Nat.exists_eq_succ_of_ne_zero (Nat.ne_of_gt (Nat.zero_lt_of_lt hcount))
    obtain ⟨he, hes⟩ := List.forall_mem_cons.mp hes
    have hname := he.2.1
    have htype := he.2.2
    let nameInfo := unicodeString (textBytes e.name) (buffer + stringAt)
    let typeAt := stringAt + (textBytes e.name + 2)
    let typeInfo := unicodeString (textBytes e.type) (buffer + typeAt)
    let rest := infos buffer (typeAt + (textBytes e.type + 2)) es
    have hinfos : infos buffer stringAt (e :: es) = (nameInfo ++ typeInfo) ++ rest := rfl
    have htexts : textsOut (e :: es) = (textOut e.name ++ textOut e.type) ++ textsOut es := rfl
    have hinfo : (nameInfo ++ typeInfo).length = header := rfl
    rw [hinfos, htexts] at hout
    rw [List.length_cons, Nat.mul_succ] at hat
    have hslice : slice out a.length header = some (nameInfo ++ typeInfo) := by
      refine slice_of_append (c := rest ++ (List.replicate header 0 ++ (b ++
        ((textOut e.name ++ textOut e.type) ++ textsOut es ++ c)))) ?_ rfl hinfo
      rw [hout, List.append_assoc]
    have hlength : stringAt + (textOut e.name).length < out.length := by
      rw [hout]
      simp only [List.length_append, hinfo, rest, length_infos, List.length_replicate, length_textOut]
      omega
    rw [length_textOut] at hlength
    have hreadName : readUnicodeString buffer out nameInfo = some e.name := by
      refine readUnicodeString_eq (a := a ++ ((nameInfo ++ typeInfo) ++ rest ++
        (List.replicate header 0 ++ b))) (c := textOut e.type ++ (textsOut es ++ c)) hname (by omega) ?_ ?_
      · rw [hout]
        simp only [List.append_assoc]
      · simp only [List.length_append, hinfo, rest, length_infos, List.length_replicate]
        omega
    have hreadType : readUnicodeString buffer out typeInfo = some e.type := by
      refine readUnicodeString_eq (a := a ++ ((nameInfo ++ typeInfo) ++ rest ++
        (List.replicate header 0 ++ (b ++ textOut e.name)))) (c := textsOut es ++ c) htype (by omega) ?_ ?_
      · rw [hout]
        simp only [List.append_assoc]
      · simp only [List.length_append, hinfo, rest, length_infos, List.length_replicate, length_textOut, typeAt]
        omega
    have hrest : readEntries buffer out count (a.length + header) = some es := by
      have hadvance : a.length + header = (a ++ (nameInfo ++ typeInfo)).length := by
        rw [List.length_append, hinfo]
      rw [hadvance]
      refine @ih (typeAt + (textBytes e.type + 2)) hes _ (b ++ (textOut e.name ++ textOut e.type)) ?_ ?_ _
        (Nat.lt_of_succ_lt_succ hcount)
      · rw [hout]
        simp only [List.append_assoc]
        rfl
      · rw [← hadvance, List.length_append, List.length_append, length_textOut, length_textOut]
        omega
    exact readEntries_cons he hslice hreadName hreadType hrest

/-! ## What is picked -/

theorem choose_of_lt {length total : Nat} (h : length < total) (single : Bool) (es : List DirectoryEntry) :
    choose length single total es = ([], total) := by
  cases es with
  | nil => rfl
  | cons e es => exact if_pos (Nat.lt_add_right _ h)

/-- The entries picked are the first ones, each fits on its own, and there are none only when the first does not fit. -/
structure Chosen (length total : Nat) (es : List DirectoryEntry) (r : List DirectoryEntry × Nat) : Prop where
  first : r.1 <+: es
  sum : r.2 = total + (r.1.map DirectoryEntry.add).sum
  le : r.2 ≤ length
  fits : ∀ e ∈ r.1, total + e.add ≤ length
  none : r.1 = [] → ∀ e ∈ es.head?, length < total + e.add

theorem choose_spec {length total : Nat} (single : Bool) {es : List DirectoryEntry} (h : total ≤ length) :
    Chosen length total es (choose length single total es) := by
  induction es generalizing total with
  | nil => exact ⟨List.prefix_rfl, rfl, h, fun _ => nofun, fun _ _ => nofun⟩
  | cons e es ih =>
    unfold choose
    split_ifs with hlt hsingle
    · refine ⟨List.nil_prefix, rfl, h, fun _ => nofun, fun _ e' he' => ?_⟩
      obtain rfl := Option.some.inj he'
      exact hlt
    · refine ⟨⟨es, rfl⟩, rfl, Nat.le_of_not_lt hlt, fun e' he' => ?_, nofun⟩
      obtain rfl := List.mem_singleton.mp he'
      exact Nat.le_of_not_lt hlt
    · have hr := ih (Nat.le_of_not_lt hlt)
      refine ⟨(List.prefix_cons_inj e).mpr hr.first, ?_, hr.le, ?_, nofun⟩
      · dsimp only
        rw [hr.sum, List.map_cons, List.sum_cons, Nat.add_assoc]
      · refine List.forall_mem_cons.mpr ⟨Nat.le_of_not_lt hlt, fun e' he' => ?_⟩
        have hle := hr.fits e' he'
        omega

theorem decode_packed {total : Nat} (hes : ∀ e ∈ es, e.Readable)
    (htotal : total = header + (es.map DirectoryEntry.add).sum) (hlt : total < 2 ^ 64) :
    decode buffer (packed buffer total es) = some es := by
  have hadd : header * es.length + (textsOut es).length = (es.map DirectoryEntry.add).sum := by
    clear htotal hlt
    induction es with
    | nil => rfl
    | cons e es ih =>
      obtain ⟨⟨-, hname, htype⟩, hes⟩ := List.forall_mem_cons.mp hes
      have htexts : (textsOut (e :: es)).length =
          (textOut e.name).length + (textOut e.type).length + (textsOut es).length := by
        simp only [textsOut, List.flatMap_cons, List.length_append]
      have hnb : textBytes e.name = e.name.length * 2 := Nat.mod_eq_of_lt (by omega)
      have htb : textBytes e.type = e.type.length * 2 := Nat.mod_eq_of_lt (by omega)
      rw [List.map_cons, List.sum_cons, ← ih hes, htexts, List.length_cons, Nat.mul_succ, length_textOut,
        length_textOut, hnb, htb, DirectoryEntry.add]
      omega
  have hpacked : packed buffer total es = [] ++ (infos buffer (header * (es.length + 1)) es ++
      (List.replicate header 0 ++ ([] ++ (textsOut es ++ [])))) := by
    have hlength :
        (infos buffer (header * (es.length + 1)) es ++ List.replicate header 0 ++ textsOut es).length = total := by
      rw [List.length_append, List.length_append, length_infos, List.length_replicate, htotal, ← hadd]
      omega
    rw [packed, List.rightpad, hlength, Nat.sub_self]
    simp
  have hlength : (packed buffer total es).length = total := by
    rw [hpacked, htotal, ← hadd]
    simp only [List.length_append, length_infos, List.length_replicate, List.length_nil]
    omega
  refine readEntries_infos hes hpacked ?_ (by rw [hlength]; exact hlt) ?_
  · rw [Nat.mul_succ]
    simp
  · rw [hlength, htotal, ← hadd]
    have hheader : header = 0x20 := rfl
    rw [hheader]
    omega

/-! ## Call after call -/

/-- The calls of a guest: the first one starts anew, and each next one is given the context the one before it left. -/
structure Scan where
  buffer : ℕ → Addr
  length : BitVec 32
  returnSingleEntry : ℕ → Bool
  context : BitVec 32

namespace Scan
variable (q : Scan) (ns : Namespace) (name : Str)

def request (n : ℕ) : Request := ⟨q.buffer n, q.length, q.returnSingleEntry n, n = 0⟩

def call : ℕ → Reply
  | 0 => queryDirectoryObject ns (some name) (q.request 0) (some q.context)
  | n + 1 => queryDirectoryObject ns (some name) (q.request (n + 1)) (call n).context

def delivered (n : ℕ) : Option (List DirectoryEntry) := (q.call ns name n).out.bind (decode (q.buffer n))

/-- `n` calls deliver the entries in order, each once, and the next one reports that there are no more. -/
structure Enumerates (n : ℕ) : Prop where
  goesOn : ∀ i < n, (q.call ns name i).status = .success ∨ (q.call ns name i).status = .moreEntries
  ends : (q.call ns name n).status = .noMoreEntries
  each : ∃ batch : ℕ → List DirectoryEntry, (∀ i < n, q.delivered ns name i = some (batch i)) ∧
    (List.range n).flatMap batch = entries ns name

/-- The calls enumerate the directory or say that the buffer is too small, and never report more entries without
delivering one. -/
structure Pages : Prop where
  ends : (∃ n, q.Enumerates ns name n) ∨ ∀ n, (q.call ns name n).status = .bufferTooSmall
  delivers : ∀ n, (q.call ns name n).status = .moreEntries → q.delivered ns name n ≠ some []

/-- The buffer does not hold even the zeroed structure, or it holds each child together with it; and the children and
their names can be counted in the fields that count them. -/
def Fits : Prop :=
  q.length.toNat < header ∨ (entries ns name).length < 2 ^ 32 ∧
    ∀ e ∈ entries ns name, e.name.length < 2 ^ 15 ∧ header + e.add ≤ q.length.toNat

end Scan

variable {q : Scan} {ns : Namespace} {name : Str}

theorem replyFrom_of_lt {children : List DirectoryEntry} {r : Request} (h : r.length.toNat < header)
    (context : Option (BitVec 32)) (index : BitVec 32) :
    (replyFrom children r context index).status = .bufferTooSmall := by
  unfold replyFrom
  rw [choose_of_lt h]
  exact congrArg Reply.status (if_pos h)

theorem call_of_lt (h : q.length.toNat < header) (n : ℕ) : (q.call ns name n).status = .bufferTooSmall := by
  cases n with
  | zero => exact replyFrom_of_lt h ..
  | succ n => exact replyFrom_of_lt h ..

structure Page (ns : Namespace) (name : Str) (r : Request) (index : Nat) (reply : Reply) (batch : List DirectoryEntry) :
    Prop where
  first : batch <+: (entries ns name).drop index
  fits : ∀ e ∈ batch, header + e.add ≤ r.length.toNat
  none : batch = [] → ∀ e ∈ ((entries ns name).drop index).head?, r.length.toNat < header + e.add
  context : reply.context = some (BitVec.ofNat 32 (index + batch.length))
  decodes : (∀ e ∈ batch, e.Readable) → reply.out.bind (decode r.buffer) = some batch
  status : reply.status = if batch = [] ∧ (entries ns name).length ≤ index then .noMoreEntries
    else if (index + batch.length) % 2 ^ 32 < (entries ns name).length then .moreEntries else .success

theorem queryDirectoryObject_page {r : Request} (hlength : header ≤ r.length.toNat) {c : BitVec 32} {index : Nat}
    (hindex : (if r.restartScan then 0 else c).toNat = index) (hle : index ≤ (entries ns name).length) :
    ∃ batch, Page ns name r index (queryDirectoryObject ns (some name) r (some c)) batch := by
  have hchosen := @choose_spec _ _ r.returnSingleEntry ((entries ns name).drop index) hlength
  let start : BitVec 32 := if r.restartScan then 0 else c
  have hreply : queryDirectoryObject ns (some name) r (some c) = replyFrom (entries ns name) r (some c) start := by
    have hstart : (if start.toNat > (entries ns name).length then BitVec.ofNat 32 (entries ns name).length else start) =
        start := if_neg (by rw [hindex]; exact Nat.not_lt.mpr hle)
    exact congrArg (replyFrom (entries ns name) r (some c)) hstart
  have hnext : ∀ k, start + BitVec.ofNat 32 k = BitVec.ofNat 32 (index + k) := fun k => by
    rw [BitVec.ofNat_add, ← hindex, BitVec.ofNat_toNat, BitVec.setWidth_eq]
  rw [hreply, replyFrom, hindex]
  dsimp only
  rw [if_neg (Nat.not_lt.mpr hchosen.le), hnext]
  refine ⟨_, hchosen.first, hchosen.fits, hchosen.none, rfl, fun hread => ?_, ?_⟩
  · exact decode_packed hread hchosen.sum (hchosen.le.trans_lt (r.length.isLt.trans (by decide)))
  · dsimp only
    rw [BitVec.toNat_ofNat]

/-- Nothing says that there are no more entries but the end of the children. -/
theorem length_lt_of_noMoreEntries {children : List DirectoryEntry} {r : Request} {context : Option (BitVec 32)}
    {index : BitVec 32} (h : (replyFrom children r context index).status = .noMoreEntries) :
    children.length < 2 ^ 32 := by
  rw [replyFrom] at h
  dsimp only at h
  split_ifs at h with _ hend
  exact hend.2.trans_lt index.isLt

def Scan.index (q : Scan) (ns : Namespace) (name : Str) : ℕ → ℕ
  | 0 => 0
  | n + 1 => ((q.call ns name n).context.getD 0).toNat

theorem Page.length_le {r : Request} {index : Nat} {reply : Reply} {batch : List DirectoryEntry}
    (h : Page ns name r index reply batch) (hle : index ≤ (entries ns name).length) :
    index + batch.length ≤ (entries ns name).length := by
  have hbatch := h.first.length_le
  rw [List.length_drop] at hbatch
  omega

theorem exists_pages (hlength : header ≤ q.length.toNat) (hsize : (entries ns name).length < 2 ^ 32) :
    ∃ batch : ℕ → List DirectoryEntry, ∀ n, q.index ns name n ≤ (entries ns name).length ∧
      Page ns name (q.request n) (q.index ns name n) (q.call ns name n) (batch n) ∧
      q.index ns name (n + 1) = q.index ns name n + (batch n).length := by
  have hnext : ∀ {n batch}, q.index ns name n ≤ (entries ns name).length →
      Page ns name (q.request n) (q.index ns name n) (q.call ns name n) batch →
      q.index ns name (n + 1) = q.index ns name n + batch.length := by
    intro n batch hle hpage
    rw [Scan.index, hpage.context, Option.getD_some, BitVec.toNat_ofNat]
    exact Nat.mod_eq_of_lt ((hpage.length_le hle).trans_lt hsize)
  have hpages : ∀ n, q.index ns name n ≤ (entries ns name).length ∧
      ∃ batch, Page ns name (q.request n) (q.index ns name n) (q.call ns name n) batch := by
    intro n
    induction n with
    | zero => exact ⟨Nat.zero_le _, queryDirectoryObject_page hlength rfl (Nat.zero_le _)⟩
    | succ n ih =>
      obtain ⟨hle, batch, hpage⟩ := ih
      have hindex := hnext hle hpage
      have hle' : q.index ns name (n + 1) ≤ (entries ns name).length := hindex ▸ hpage.length_le hle
      refine ⟨hle', ?_⟩
      have hcontext := hpage.context
      have hcall : q.call ns name (n + 1) = queryDirectoryObject ns (some name) (q.request (n + 1))
          (some (BitVec.ofNat 32 (q.index ns name n + batch.length))) := by
        rw [← hcontext]
        rfl
      rw [hcall]
      refine queryDirectoryObject_page hlength ?_ hle'
      rw [Scan.index, hcontext]
      rfl
  choose hle batch hpage using hpages
  exact ⟨batch, fun n => ⟨hle n, hpage n, hnext (hle n) (hpage n)⟩⟩

theorem flatMap_pages {batch : ℕ → List DirectoryEntry} (h : ∀ n, q.index ns name n ≤ (entries ns name).length ∧
      Page ns name (q.request n) (q.index ns name n) (q.call ns name n) (batch n) ∧
      q.index ns name (n + 1) = q.index ns name n + (batch n).length) (n : ℕ) :
    (List.range n).flatMap batch = (entries ns name).take (q.index ns name n) := by
  induction n with
  | zero => rfl
  | succ n ih =>
    obtain ⟨-, hpage, hindex⟩ := h n
    rw [List.range_succ, List.flatMap_append, ih, List.flatMap_singleton, hindex, List.take_add,
      ← List.prefix_iff_eq_take.mp hpage.first]

theorem length_typeOf (ns : Namespace) (path : Str) : (typeOf ns path).length < 2 ^ 15 := by
  unfold typeOf
  dsimp only
  split_ifs
  · decide
  · split <;> decide

theorem readable_of_mem {e : DirectoryEntry} (he : e ∈ entries ns name) (hlength : e.name.length < 2 ^ 15) :
    e.Readable := by
  obtain ⟨child, hchild, rfl⟩ := List.mem_map.mp he
  refine ⟨?_, hlength, length_typeOf ..⟩
  intro hnil
  exact (mem_childNames.mp hchild).1 (List.map_eq_nil_iff.mp hnil)

theorem pages_of_fits (h : q.Fits ns name) : q.Pages ns name := by
  rcases Nat.lt_or_ge q.length.toNat header with hlt | hlength
  · refine ⟨.inr (call_of_lt hlt), fun n hmore => ?_⟩
    rw [call_of_lt hlt] at hmore
    cases hmore
  obtain ⟨hsize, hfits⟩ := h.resolve_left (Nat.not_lt.mpr hlength)
  obtain ⟨batch, hpages⟩ := exists_pages (q := q) hlength hsize
  have hread : ∀ n, ∀ e ∈ batch n, e.Readable := by
    intro n e he
    have hmem := List.mem_of_mem_drop ((hpages n).2.1.first.subset he)
    exact readable_of_mem hmem (hfits e hmem).1
  have hdelivered : ∀ n, q.delivered ns name n = some (batch n) := fun n => (hpages n).2.1.decodes (hread n)
  -- a call that starts before the end picks an entry
  have hprogress : ∀ n, q.index ns name n < (entries ns name).length → batch n ≠ [] := by
    intro n hlt hnil
    have hhead : (entries ns name)[q.index ns name n] ∈ ((entries ns name).drop (q.index ns name n)).head? := by
      rw [List.head?_drop]
      exact List.getElem?_eq_getElem hlt
    have hlong := (hpages n).2.1.none hnil _ hhead
    exact absurd (hfits _ (List.getElem_mem hlt)).2 (Nat.not_le.mpr hlong)
  have hreach : ∀ n, n ≤ q.index ns name n ∨ q.index ns name n = (entries ns name).length := by
    intro n
    induction n with
    | zero => exact .inl le_rfl
    | succ n ih =>
      obtain ⟨hle, hpage, hindex⟩ := hpages n
      have hle' := hpage.length_le hle
      rcases Nat.lt_or_eq_of_le hle with hlt | heq
      · have hpos := List.length_pos_of_ne_nil (hprogress n hlt)
        have hn := ih.resolve_right (Nat.ne_of_lt hlt)
        exact .inl (by omega)
      · exact .inr (by omega)
  refine ⟨.inl ?_, fun n hmore => ?_⟩
  · have hend : ∃ n, q.index ns name n = (entries ns name).length := by
      refine ⟨(entries ns name).length + 1, (hreach _).resolve_left fun hle => ?_⟩
      exact absurd (hle.trans (hpages _).1) (Nat.not_succ_le_self _)
    refine ⟨Nat.find hend, fun i hi => ?_, ?_, batch, fun i _ => hdelivered i, ?_⟩
    · have hne := Nat.find_min hend hi
      have hlt := Nat.lt_of_le_of_ne (hpages i).1 hne
      rw [(hpages i).2.1.status, if_neg fun hstop => Nat.not_le.mpr hlt hstop.2]
      split_ifs
      · exact .inr rfl
      · exact .inl rfl
    · have hlast : batch (Nat.find hend) = [] := by
        have hle := (hpages (Nat.find hend)).2.1.length_le (hpages _).1
        have heq := Nat.find_spec hend
        exact List.length_eq_zero_iff.mp (by omega)
      rw [(hpages _).2.1.status, if_pos ⟨hlast, (Nat.find_spec hend).ge⟩]
    · rw [flatMap_pages hpages, Nat.find_spec hend, List.take_length]
  · rw [hdelivered]
    rw [(hpages n).2.1.status] at hmore
    split_ifs at hmore with hstop hlt
    intro hnil
    have hnil := Option.some.inj hnil
    refine hstop ⟨hnil, Nat.le_of_not_lt fun hbefore => hprogress n hbefore hnil⟩

theorem fits_of_pages (h : q.Pages ns name) : q.Fits ns name := by
  rcases Nat.lt_or_ge q.length.toNat header with hlt | hlength
  · exact .inl hlt
  have hnotSmall : (q.call ns name 0).status ≠ .bufferTooSmall := by
    obtain ⟨batch, hpage⟩ : ∃ batch, Page ns name (q.request 0) 0 (q.call ns name 0) batch :=
      queryDirectoryObject_page hlength rfl (Nat.zero_le _)
    rw [hpage.status]
    split_ifs <;> nofun
  obtain ⟨n, hn⟩ := h.ends.resolve_right fun hall => hnotSmall (hall 0)
  have hsize : (entries ns name).length < 2 ^ 32 := by
    have hends := hn.ends
    cases n with
    | zero => exact length_lt_of_noMoreEntries hends
    | succ n => exact length_lt_of_noMoreEntries hends
  obtain ⟨batch, hpages⟩ := exists_pages (q := q) hlength hsize
  obtain ⟨read, hread, hall⟩ := hn.each
  refine .inr ⟨hsize, fun e he => ⟨?_, ?_⟩⟩
  · rw [← hall] at he
    obtain ⟨i, hi, he⟩ := List.mem_flatMap.mp he
    obtain ⟨out, -, hdecode⟩ := Option.bind_eq_some_iff.mp (hread i (List.mem_range.mp hi))
    exact length_of_readEntries hdecode e he
  · have hends := hn.ends
    rw [(hpages n).2.1.status] at hends
    split_ifs at hends with hstop
    have htake : (List.range n).flatMap batch = entries ns name := by
      rw [flatMap_pages hpages, List.take_of_length_le hstop.2]
    rw [← htake] at he
    obtain ⟨i, -, he⟩ := List.mem_flatMap.mp he
    exact (hpages i).2.1.fits e he

/-- **Object-directory paging.** -/
theorem pages_iff_fits (q : Scan) (ns : Namespace) (name : Str) :
    ((childNames ns (directoryPrefix name)).Nodup ∧
      ∀ c, c ∈ childNames ns (directoryPrefix name) ↔ IsChild ns (directoryPrefix name) c) ∧
    (q.Pages ns name ↔ q.Fits ns name) :=
  ⟨⟨nodup_childNames .., fun _ => mem_childNames⟩, fits_of_pages, pages_of_fits⟩

def oneDevice : Namespace where
  named := [(ascii ['/', 'd', 'e', 'v', 'i', 'c', 'e', '/', 'a'], 0x1000)]
  hosts addr := if addr = 0x1000 then some .device else none

/-- There is room for the zeroed structure but not for the device. -/
theorem oneDevice_stuck : ¬ ∀ q ns name, Scan.Pages q ns name := by
  intro hall
  let q : Scan := ⟨fun _ => 0x2000, 0x40, fun _ => false, 0⟩
  let name : Str := ascii ['\\', 'D', 'e', 'v', 'i', 'c', 'e']
  have hmore : (q.call oneDevice name 0).status = .moreEntries := by decide +kernel
  have hnone : q.delivered oneDevice name 0 = some [] := by decide +kernel
  exact (hall q oneDevice name).delivers 0 hmore hnone

end Kernemul.DirectoryObjects
