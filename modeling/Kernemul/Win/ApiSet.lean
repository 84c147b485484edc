import Kernemul.Lib.Bytes
import Kernemul.Win.Text
import Mathlib.Data.List.Nodup
import Mathlib.Logic.Function.Basic

/-!
# The API-set schema

`parse_api_set_map` reads the `.apiset` section: a table of entries, each with a table of values, each with two
texts, all found by offsets that the section holds. Reading outside the section gives no result here. The loops run
over the numbers of the entries and of the values, as the counters do.
-/

namespace Kernemul.ApiSet

open Text Bytes

/-- `api_set_namespace_entry`, as far as it is read. -/
structure NamespaceEntry where
  nameOffset : Nat
  hashedLength : Nat
  valueOffset : Nat
  valueCount : Nat
  deriving DecidableEq, Repr

/-- `api_set_value_entry`, as far as it is read. -/
structure ValueEntry where
  nameOffset : Nat
  nameLength : Nat
  valueOffset : Nat
  valueLength : Nat
  deriving DecidableEq, Repr

structure ApiSetEntry where
  host : Str := []
  overrides : List (Str × Str) := []
  deriving DecidableEq, Repr

abbrev ApiSetMap := Str → Option ApiSetEntry

/-- `sizeof(_API_SET_NAMESPACE)`. -/
def namespaceSize : Nat := 0x1c

/-- `sizeof(api_set_namespace_entry)`. -/
def namespaceEntrySize : Nat := 24

/-- `sizeof(api_set_value_entry)`. -/
def valueEntrySize : Nat := 20

def asciiLower (s : Str) : Str := s.map lower

variable (sec : List UInt8)

def namespaceEntryAt (off : Nat) : Option NamespaceEntry :=
  (num sec (off + 4) 4).bind fun nameOffset =>
    (num sec (off + 12) 4).bind fun hashedLength =>
      (num sec (off + 16) 4).bind fun valueOffset =>
        (num sec (off + 20) 4).map fun valueCount => ⟨nameOffset, hashedLength, valueOffset, valueCount⟩

def valueEntryAt (off : Nat) : Option ValueEntry :=
  (num sec (off + 4) 4).bind fun nameOffset =>
    (num sec (off + 8) 4).bind fun nameLength =>
      (num sec (off + 12) 4).bind fun valueOffset =>
        (num sec (off + 16) 4).map fun valueLength => ⟨nameOffset, nameLength, valueOffset, valueLength⟩

/-- `str`, which adds in 32 bits. A text of no characters is not read. -/
def str (offset bytes : Nat) : Option Str :=
  if (offset + bytes) % 2 ^ 32 > sec.length then some []
  else if bytes / 2 = 0 then some []
  else (slice sec offset (bytes / 2 * 2)).map fun b => narrowWstring (unwide b)

def parseValues (e : NamespaceEntry) : List Nat → ApiSetEntry → Option ApiSetEntry
  | [], parsed => some parsed
  | v :: vs, parsed =>
    let valueOff := e.valueOffset + v * valueEntrySize
    if valueOff + valueEntrySize > sec.length then some parsed
    else (valueEntryAt sec valueOff).bind fun value =>
      (str sec value.valueOffset value.valueLength).bind fun host =>
        if host = [] then parseValues e vs parsed
        else (str sec value.nameOffset value.nameLength).bind fun who =>
          parseValues e vs <|
            if who = [] then { parsed with host }
            else { parsed with overrides := parsed.overrides ++ [(asciiLower who, host)] }

def parseEntry (entry : NamespaceEntry) (map : ApiSetMap) : Option ApiSetMap :=
  if entry.valueCount = 0 then some map
  else (str sec entry.nameOffset entry.hashedLength).bind fun name =>
    if name = [] then some map
    else (parseValues sec entry (List.range entry.valueCount) {}).map fun parsed =>
      if parsed.host ≠ [] ∨ parsed.overrides ≠ [] then Function.update map (asciiLower name) (some parsed) else map

def parseEntries (entryOffset : Nat) : List Nat → ApiSetMap → Option ApiSetMap
  | [], map => some map
  | i :: is, map =>
    let entryOff := entryOffset + i * namespaceEntrySize
    if entryOff + namespaceEntrySize > sec.length then some map
    else (namespaceEntryAt sec entryOff).bind fun entry =>
      (parseEntry sec entry map).bind (parseEntries entryOffset is)

def parseApiSetMap : Option ApiSetMap :=
  if sec.length < namespaceSize then some fun _ => none
  else (num sec 0 4).bind fun version =>
    if version ≠ 6 then some fun _ => none
    else (num sec 0xc 4).bind fun count =>
      (num sec 0x10 4).bind fun entryOffset => parseEntries sec entryOffset (List.range count) fun _ => none

/-! ## What a section says -/

/-- The characters of a text lie in the section, and `str` takes it (`lies_iff`). -/
def Lies (offset bytes : Nat) : Prop :=
  offset + bytes / 2 * 2 ≤ sec.length ∧ (offset + bytes) % 2 ^ 32 ≤ sec.length

instance (offset bytes : Nat) : Decidable (Lies sec offset bytes) := inferInstanceAs (Decidable (_ ∧ _))

variable {sec} in
theorem lies_iff (h : sec.length + 1 < 2 ^ 32) {offset bytes : Nat} :
    Lies sec offset bytes ↔ offset + bytes ≤ sec.length := by
  unfold Lies
  omega

def text (offset bytes : Nat) : Option Str :=
  if Lies sec offset bytes then some (narrowWstring (unwide ((sec.drop offset).take (bytes / 2 * 2)))) else none

def valueRecord (e : NamespaceEntry) (v : Nat) : Option ValueEntry :=
  if e.valueOffset + v * valueEntrySize + valueEntrySize ≤ sec.length then
    valueEntryAt sec (e.valueOffset + v * valueEntrySize) else none

/-- The host that a value gives, and the importer it gives it to, if that one can be read; empty names everyone. -/
def hostOf (e : NamespaceEntry) (v : Nat) : Option (Str × Option Str) :=
  (valueRecord sec e v).bind fun value =>
    (text sec value.valueOffset value.valueLength).bind fun host =>
      if host = [] then none else some (host, text sec value.nameOffset value.nameLength)

def hostsOf (e : NamespaceEntry) : List (Str × Option Str) := (List.range e.valueCount).filterMap (hostOf sec e)

def defaults (hosts : List (Str × Option Str)) : List Str :=
  hosts.filterMap fun h => if h.2 = some [] then some h.1 else none

def defaultsOrStray (hosts : List (Str × Option Str)) : List Str :=
  hosts.filterMap fun h => if h.2.getD [] = [] then some h.1 else none

def overridesIn (hosts : List (Str × Option Str)) : List (Str × Str) :=
  hosts.filterMap fun h => if h.2.getD [] = [] then none else some (asciiLower (h.2.getD []), h.1)

def ApiSetEntry.some? (e : ApiSetEntry) : Option ApiSetEntry :=
  if e.host ≠ [] ∨ e.overrides ≠ [] then some e else none

/-- What an entry encodes: the last host for everyone, and a host for each importer that is named. -/
def encoded (e : NamespaceEntry) : ApiSetEntry where
  host := (defaults (hostsOf sec e)).getLast?.getD []
  overrides := overridesIn (hostsOf sec e)

def entryRecord (i : Nat) : Option NamespaceEntry :=
  (num sec 0x10 4).bind fun entryOffset =>
    if entryOffset + i * namespaceEntrySize + namespaceEntrySize ≤ sec.length then
      namespaceEntryAt sec (entryOffset + i * namespaceEntrySize) else none

def entryCount : Nat :=
  if sec.length < namespaceSize ∨ num sec 0 4 ≠ some 6 then 0 else (num sec 0xc 4).getD 0

/-- An entry with values and a name that can be read, and the name in lower case. -/
def keyOf (i : Nat) : Option (NamespaceEntry × Str) :=
  (entryRecord sec i).bind fun e =>
    if e.valueCount = 0 then none
    else (text sec e.nameOffset e.hashedLength).bind fun name =>
      if name = [] then none else some (e, asciiLower name)

def Alone (i : Nat) (key : Str) : Prop := ∀ j < entryCount sec, ∀ e, keyOf sec j = some (e, key) → j = i

/-- The map holds what each entry of a name of its own encodes, whatever the others are like, and nothing that no
entry has the name of. -/
structure Decodes (map : ApiSetMap) : Prop where
  entries : ∀ i < entryCount sec, ∀ e key, keyOf sec i = some (e, key) → Alone sec i key →
    map key = (encoded sec e).some?
  others : ∀ key entry, map key = some entry → ∃ i < entryCount sec, ∃ e, keyOf sec i = some (e, key)

/-- If `str` takes a text, it reads it from the section. -/
def TextOk (offset bytes : Nat) : Prop :=
  (offset + bytes) % 2 ^ 32 ≤ sec.length → bytes / 2 = 0 ∨ offset + bytes / 2 * 2 ≤ sec.length

/-- The texts of a value; the importer is looked at when there is a host. -/
def ValueOk (e : NamespaceEntry) (v : Nat) : Prop :=
  ∀ value, valueRecord sec e v = some value → TextOk sec value.valueOffset value.valueLength ∧
    ((text sec value.valueOffset value.valueLength).getD [] ≠ [] → TextOk sec value.nameOffset value.nameLength)

/-- The texts of an entry; its values are looked at when it has a name. -/
def EntryOk (i : Nat) : Prop :=
  ∀ e, entryRecord sec i = some e → e.valueCount ≠ 0 → TextOk sec e.nameOffset e.hashedLength ∧
    ((text sec e.nameOffset e.hashedLength).getD [] ≠ [] → ∀ v < e.valueCount, ValueOk sec e v)

/-- No value of an importer that cannot be read comes after the last one for everyone, unless it gives the same host. -/
def DefaultKept (e : NamespaceEntry) : Prop :=
  (defaultsOrStray (hostsOf sec e)).getLast? = (defaults (hostsOf sec e)).getLast?

/-- No 32-bit sum makes a text outside the section look as if it lay inside, and no default is displaced. -/
structure Clean : Prop where
  texts : ∀ i < entryCount sec, EntryOk sec i
  kept : ∀ i < entryCount sec, ∀ e key, keyOf sec i = some (e, key) → Alone sec i key → DefaultKept sec e

variable {sec}

/-! ## One text, one value, one entry -/

theorem str_of_ok {offset bytes : Nat} (h : TextOk sec offset bytes) :
    str sec offset bytes = some ((text sec offset bytes).getD []) := by
  unfold str text
  by_cases hcheck : (offset + bytes) % 2 ^ 32 > sec.length
  · rw [if_pos hcheck, if_neg fun hlies => Nat.not_lt.mpr hlies.2 hcheck]
    rfl
  rw [if_neg hcheck]
  by_cases hnone : bytes / 2 = 0
  · rw [if_pos hnone, hnone]
    split_ifs <;> rfl
  · have hinside := (h (Nat.le_of_not_lt hcheck)).resolve_left hnone
    rw [if_neg hnone, if_pos ⟨hinside, Nat.le_of_not_lt hcheck⟩, slice_eq_some hinside]
    rfl

theorem ok_of_str {offset bytes : Nat} {s : Str} (h : str sec offset bytes = some s) : TextOk sec offset bytes := by
  unfold str at h
  intro hcheck
  rw [if_neg (Nat.not_lt.mpr hcheck)] at h
  split_ifs at h with hnone
  · exact .inl hnone
  · obtain ⟨b, hb, -⟩ := Option.map_eq_some_iff.mp h
    unfold slice at hb
    split_ifs at hb with hinside
    exact .inr hinside

theorem namespaceEntryAt_isSome {off : Nat} (h : off + namespaceEntrySize ≤ sec.length) :
    ∃ e, namespaceEntryAt sec off = some e := by
  unfold namespaceEntrySize at h
  unfold namespaceEntryAt
  simp (disch := omega) only [num_eq_some, Option.bind_some, Option.map_some]
  exact ⟨_, rfl⟩

theorem valueEntryAt_isSome {off : Nat} (h : off + valueEntrySize ≤ sec.length) :
    ∃ e, valueEntryAt sec off = some e := by
  unfold valueEntrySize at h
  unfold valueEntryAt
  simp (disch := omega) only [num_eq_some, Option.bind_some, Option.map_some]
  exact ⟨_, rfl⟩

/-! ## The values of an entry -/

variable {e : NamespaceEntry}

theorem valueRecord_of_gt {v w : Nat} (hvw : v ≤ w)
    (h : e.valueOffset + v * valueEntrySize + valueEntrySize > sec.length) : valueRecord sec e w = none := by
  refine if_neg (Nat.not_le.mpr (h.trans_le ?_))
  have hmul : v * valueEntrySize ≤ w * valueEntrySize := Nat.mul_le_mul_right _ hvw
  omega

theorem hostOf_of_record {v : Nat} (h : valueRecord sec e v = none) : hostOf sec e v = none := by
  rw [hostOf, h]
  rfl

def takeHosts (parsed : ApiSetEntry) (hosts : List (Str × Option Str)) : ApiSetEntry where
  host := (defaultsOrStray hosts).getLast?.getD parsed.host
  overrides := parsed.overrides ++ overridesIn hosts

theorem takeHosts_nil (parsed : ApiSetEntry) : takeHosts parsed [] = parsed := by
  unfold takeHosts
  rw [show overridesIn [] = [] from rfl, List.append_nil]
  rfl

theorem takeHosts_cons (parsed : ApiSetEntry) (host : Str) (who : Option Str) (hosts : List (Str × Option Str)) :
    takeHosts parsed ((host, who) :: hosts) =
      takeHosts (if who.getD [] = [] then { parsed with host }
        else { parsed with overrides := parsed.overrides ++ [(asciiLower (who.getD []), host)] }) hosts := by
  unfold takeHosts defaultsOrStray overridesIn
  by_cases hwho : who.getD [] = []
  · simp [hwho, List.getLast?_cons]
  · simp [hwho]

theorem parseValues_of_ok {vs : List Nat} (hvs : vs.Pairwise (· < ·)) (h : ∀ v ∈ vs, ValueOk sec e v)
    (parsed : ApiSetEntry) : parseValues sec e vs parsed = some (takeHosts parsed (vs.filterMap (hostOf sec e))) := by
  induction vs generalizing parsed with
  | nil => rw [List.filterMap_nil, takeHosts_nil]; rfl
  | cons v vs ih =>
    obtain ⟨hlt, hvs⟩ := List.pairwise_cons.mp hvs
    obtain ⟨hv, h⟩ := List.forall_mem_cons.mp h
    rw [parseValues]
    by_cases hout : e.valueOffset + v * valueEntrySize + valueEntrySize > sec.length
    · have hnone : (v :: vs).filterMap (hostOf sec e) = [] := by
        refine List.filterMap_eq_nil_iff.mpr fun w hw => hostOf_of_record (valueRecord_of_gt ?_ hout)
        rcases List.mem_cons.mp hw with rfl | hw
        · exact le_rfl
        · exact (hlt w hw).le
      rw [if_pos hout, hnone, takeHosts_nil]
    · obtain ⟨value, hvalue⟩ := valueEntryAt_isSome (Nat.le_of_not_lt hout)
      have hrecord : valueRecord sec e v = some value := (if_pos (Nat.le_of_not_lt hout)).trans hvalue
      obtain ⟨hhost, hwho⟩ := hv value hrecord
      rw [if_neg hout, hvalue, Option.bind_some, str_of_ok hhost, Option.bind_some]
      by_cases hempty : (text sec value.valueOffset value.valueLength).getD [] = []
      · have hnone : hostOf sec e v = none := by
          rw [hostOf, hrecord, Option.bind_some]
          cases htext : text sec value.valueOffset value.valueLength with
          | none => rfl
          | some host => exact if_pos (by rwa [htext] at hempty)
        rw [if_pos hempty, List.filterMap_cons_none hnone]
        exact ih hvs h parsed
      · have hsome : hostOf sec e v = some ((text sec value.valueOffset value.valueLength).getD [],
            text sec value.nameOffset value.nameLength) := by
          rw [hostOf, hrecord, Option.bind_some]
          cases htext : text sec value.valueOffset value.valueLength with
          | none => exact absurd (by rw [htext]; rfl) hempty
          | some host => exact if_neg (by rwa [htext] at hempty)
        rw [if_neg hempty, str_of_ok (hwho hempty), Option.bind_some, List.filterMap_cons_some hsome, takeHosts_cons]
        exact ih hvs h _

theorem ok_of_parseValues {vs : List Nat} (hvs : vs.Pairwise (· < ·)) {parsed r : ApiSetEntry}
    (h : parseValues sec e vs parsed = some r) : ∀ v ∈ vs, ValueOk sec e v := by
  induction vs generalizing parsed with
  | nil => exact fun _ => nofun
  | cons v vs ih =>
    obtain ⟨hlt, hvs⟩ := List.pairwise_cons.mp hvs
    rw [parseValues] at h
    by_cases hout : e.valueOffset + v * valueEntrySize + valueEntrySize > sec.length
    · intro w hw value hvalue
      have hle : v ≤ w := by
        rcases List.mem_cons.mp hw with rfl | hw
        · exact le_rfl
        · exact (hlt w hw).le
      rw [valueRecord_of_gt hle hout] at hvalue
      cases hvalue
    · rw [if_neg hout] at h
      obtain ⟨value, hvalue, h⟩ := Option.bind_eq_some_iff.mp h
      obtain ⟨host, hhost, h⟩ := Option.bind_eq_some_iff.mp h
      have hrecord : valueRecord sec e v = some value := (if_pos (Nat.le_of_not_lt hout)).trans hvalue
      have hok := ok_of_str hhost
      obtain rfl := Option.some.inj ((str_of_ok hok).symm.trans hhost)
      have hv : ValueOk sec e v ∧ ∃ parsed, parseValues sec e vs parsed = some r := by
        by_cases hempty : (text sec value.valueOffset value.valueLength).getD [] = []
        · rw [if_pos hempty] at h
          refine ⟨fun value' hvalue' => ?_, _, h⟩
          obtain rfl := Option.some.inj (hrecord.symm.trans hvalue')
          exact ⟨hok, fun hne => absurd hempty hne⟩
        · rw [if_neg hempty] at h
          obtain ⟨who, hwho, h⟩ := Option.bind_eq_some_iff.mp h
          refine ⟨fun value' hvalue' => ?_, _, h⟩
          obtain rfl := Option.some.inj (hrecord.symm.trans hvalue')
          exact ⟨hok, fun _ => ok_of_str hwho⟩
      obtain ⟨parsed, hrest⟩ := hv.2
      exact List.forall_mem_cons.mpr ⟨hv.1, ih hvs hrest⟩

/-! ## The entries -/

def parsedEntry (sec : List UInt8) (e : NamespaceEntry) : ApiSetEntry := takeHosts {} (hostsOf sec e)

def addEntry (sec : List UInt8) (map : ApiSetMap) (i : Nat) : ApiSetMap :=
  match keyOf sec i with
  | none => map
  | some (e, key) =>
    match (parsedEntry sec e).some? with
    | none => map
    | some entry => Function.update map key (some entry)

variable {entryOffset : Nat}

theorem entryRecord_eq (ho : num sec 0x10 4 = some entryOffset) (i : Nat) : entryRecord sec i =
    if entryOffset + i * namespaceEntrySize + namespaceEntrySize ≤ sec.length then
      namespaceEntryAt sec (entryOffset + i * namespaceEntrySize) else none := by
  rw [entryRecord, ho, Option.bind_some]

variable {i : Nat}

theorem entryRecord_of_gt (ho : num sec 0x10 4 = some entryOffset) {j : Nat} (hij : i ≤ j)
    (h : entryOffset + i * namespaceEntrySize + namespaceEntrySize > sec.length) : entryRecord sec j = none := by
  rw [entryRecord_eq ho]
  refine if_neg (Nat.not_le.mpr (h.trans_le ?_))
  have hmul : i * namespaceEntrySize ≤ j * namespaceEntrySize := Nat.mul_le_mul_right _ hij
  omega

theorem addEntry_of_record (h : entryRecord sec i = none) (map : ApiSetMap) : addEntry sec map i = map := by
  rw [addEntry, keyOf, h]
  rfl

theorem keyOf_of_record (h : entryRecord sec i = some e) : keyOf sec i =
    if e.valueCount = 0 then none
    else (text sec e.nameOffset e.hashedLength).bind fun name =>
      if name = [] then none else some (e, asciiLower name) := by
  rw [keyOf, h, Option.bind_some]

theorem parseEntry_of_ok (he : entryRecord sec i = some e) (h : EntryOk sec i)
    (map : ApiSetMap) : parseEntry sec e map = some (addEntry sec map i) := by
  unfold parseEntry addEntry
  rw [keyOf_of_record he]
  by_cases hzero : e.valueCount = 0
  · rw [if_pos hzero, if_pos hzero]
  obtain ⟨hname, hvalues⟩ := h e he hzero
  rw [if_neg hzero, if_neg hzero, str_of_ok hname, Option.bind_some]
  cases htext : text sec e.nameOffset e.hashedLength with
  | none => rfl
  | some name =>
    rw [Option.bind_some, Option.getD_some]
    rw [htext, Option.getD_some] at hvalues
    by_cases hempty : name = []
    · rw [if_pos hempty, if_pos hempty]
    · rw [if_neg hempty, if_neg hempty, parseValues_of_ok List.pairwise_lt_range
        (fun v hv => hvalues hempty v (List.mem_range.mp hv)), Option.map_some]
      change some (if (parsedEntry sec e).host ≠ [] ∨ (parsedEntry sec e).overrides ≠ [] then
        Function.update map (asciiLower name) (some (parsedEntry sec e)) else map) = _
      dsimp only
      unfold ApiSetEntry.some?
      split_ifs <;> rfl

variable {map : ApiSetMap}

theorem ok_of_parseEntry (he : entryRecord sec i = some e) {r : ApiSetMap}
    (h : parseEntry sec e map = some r) : EntryOk sec i := by
  intro e' he' hzero
  obtain rfl := Option.some.inj (he.symm.trans he')
  rw [parseEntry, if_neg hzero] at h
  obtain ⟨name, hname, h⟩ := Option.bind_eq_some_iff.mp h
  have hok := ok_of_str hname
  obtain rfl := Option.some.inj ((str_of_ok hok).symm.trans hname)
  refine ⟨hok, fun hne v hv => ?_⟩
  rw [if_neg hne] at h
  obtain ⟨parsed, hparsed, -⟩ := Option.map_eq_some_iff.mp h
  exact ok_of_parseValues List.pairwise_lt_range hparsed v (List.mem_range.mpr hv)

variable {is : List Nat}

theorem foldl_addEntry_of_records (h : ∀ i ∈ is, entryRecord sec i = none) (map : ApiSetMap) :
    is.foldl (addEntry sec) map = map := by
  induction is with
  | nil => rfl
  | cons i is ih =>
    obtain ⟨hi, h⟩ := List.forall_mem_cons.mp h
    rw [List.foldl_cons, addEntry_of_record hi, ih h]

theorem records_of_gt (ho : num sec 0x10 4 = some entryOffset) (his : ∀ j ∈ is, i < j)
    (h : entryOffset + i * namespaceEntrySize + namespaceEntrySize > sec.length) :
    ∀ j ∈ i :: is, entryRecord sec j = none := by
  intro j hj
  refine entryRecord_of_gt ho ?_ h
  rcases List.mem_cons.mp hj with rfl | hj
  · exact le_rfl
  · exact (his j hj).le

theorem parseEntries_of_ok (ho : num sec 0x10 4 = some entryOffset) (his : is.Pairwise (· < ·))
    (h : ∀ i ∈ is, EntryOk sec i) (map : ApiSetMap) :
    parseEntries sec entryOffset is map = some (is.foldl (addEntry sec) map) := by
  induction is generalizing map with
  | nil => rfl
  | cons i is ih =>
    obtain ⟨hlt, his⟩ := List.pairwise_cons.mp his
    obtain ⟨hi, h⟩ := List.forall_mem_cons.mp h
    rw [parseEntries]
    by_cases hout : entryOffset + i * namespaceEntrySize + namespaceEntrySize > sec.length
    · rw [if_pos hout, foldl_addEntry_of_records (records_of_gt ho hlt hout)]
    · obtain ⟨e, he⟩ := namespaceEntryAt_isSome (Nat.le_of_not_lt hout)
      have hrecord : entryRecord sec i = some e :=
        (entryRecord_eq ho i).trans ((if_pos (Nat.le_of_not_lt hout)).trans he)
      rw [if_neg hout, he, Option.bind_some, parseEntry_of_ok hrecord hi, Option.bind_some, List.foldl_cons]
      exact ih his h _

theorem ok_of_parseEntries (ho : num sec 0x10 4 = some entryOffset) (his : is.Pairwise (· < ·))
    {r : ApiSetMap} (h : parseEntries sec entryOffset is map = some r) : ∀ i ∈ is, EntryOk sec i := by
  induction is generalizing map with
  | nil => exact fun _ => nofun
  | cons i is ih =>
    obtain ⟨hlt, his⟩ := List.pairwise_cons.mp his
    rw [parseEntries] at h
    by_cases hout : entryOffset + i * namespaceEntrySize + namespaceEntrySize > sec.length
    · intro j hj e he
      rw [records_of_gt ho hlt hout j hj] at he
      cases he
    · rw [if_neg hout] at h
      obtain ⟨e, he, h⟩ := Option.bind_eq_some_iff.mp h
      obtain ⟨map', hentry, h⟩ := Option.bind_eq_some_iff.mp h
      have hrecord : entryRecord sec i = some e :=
        (entryRecord_eq ho i).trans ((if_pos (Nat.le_of_not_lt hout)).trans he)
      exact List.forall_mem_cons.mpr ⟨ok_of_parseEntry hrecord hentry, ih his h⟩

/-! ## The map -/

theorem parseApiSetMap_cases (sec : List UInt8) :
    (entryCount sec = 0 ∧ parseApiSetMap sec = some fun _ => none) ∨
      ∃ entryOffset, num sec 0x10 4 = some entryOffset ∧
        parseApiSetMap sec = parseEntries sec entryOffset (List.range (entryCount sec)) fun _ => none := by
  unfold parseApiSetMap entryCount
  by_cases hshort : sec.length < namespaceSize
  · exact .inl ⟨if_pos (.inl hshort), if_pos hshort⟩
  have hlength : 0x1c ≤ sec.length := Nat.le_of_not_lt hshort
  obtain ⟨version, hversion⟩ : ∃ version, num sec 0 4 = some version := ⟨_, num_eq_some (by omega)⟩
  obtain ⟨count, hcount⟩ : ∃ count, num sec 0xc 4 = some count := ⟨_, num_eq_some (by omega)⟩
  obtain ⟨entryOffset, ho⟩ : ∃ entryOffset, num sec 0x10 4 = some entryOffset := ⟨_, num_eq_some (by omega)⟩
  rw [hversion, hcount, ho, if_neg hshort, Option.bind_some]
  by_cases hsix : version = 6
  · subst hsix
    refine .inr ⟨entryOffset, rfl, ?_⟩
    rw [if_neg (by simp), if_neg (not_or.mpr ⟨hshort, by simp⟩), Option.bind_some, Option.bind_some, Option.getD_some]
  · exact .inl ⟨if_pos (.inr (by simpa using hsix)), if_pos hsix⟩

theorem parseApiSetMap_of_ok (h : ∀ i < entryCount sec, EntryOk sec i) :
    parseApiSetMap sec = some ((List.range (entryCount sec)).foldl (addEntry sec) fun _ => none) := by
  rcases parseApiSetMap_cases sec with ⟨hzero, hparse⟩ | ⟨entryOffset, ho, hparse⟩
  · rw [hparse, hzero]
    rfl
  · rw [hparse]
    exact parseEntries_of_ok ho List.pairwise_lt_range (fun i hi => h i (List.mem_range.mp hi)) _

theorem ok_of_parseApiSetMap (h : parseApiSetMap sec = some map) :
    ∀ i < entryCount sec, EntryOk sec i := by
  rcases parseApiSetMap_cases sec with ⟨hzero, -⟩ | ⟨entryOffset, ho, hparse⟩
  · rw [hzero]
    exact fun _ => nofun
  · rw [hparse] at h
    exact fun i hi => ok_of_parseEntries ho List.pairwise_lt_range h i (List.mem_range.mpr hi)

variable {key : Str}

theorem addEntry_of_ne (h : ∀ e, keyOf sec i ≠ some (e, key)) (map : ApiSetMap) :
    addEntry sec map i key = map key := by
  rw [addEntry]
  cases hkey : keyOf sec i with
  | none => rfl
  | some r =>
    obtain ⟨e, key'⟩ := r
    dsimp only
    cases (parsedEntry sec e).some? with
    | none => rfl
    | some entry =>
      refine Function.update_of_ne ?_ ..
      rintro rfl
      exact h e hkey

theorem addEntry_self (h : keyOf sec i = some (e, key))
    (hmap : map key = none) : addEntry sec map i key = (parsedEntry sec e).some? := by
  rw [addEntry, h]
  dsimp only
  cases (parsedEntry sec e).some? with
  | none => exact hmap
  | some entry => exact Function.update_self ..

theorem foldl_addEntry_of_ne (h : ∀ i ∈ is, ∀ e, keyOf sec i ≠ some (e, key))
    (map : ApiSetMap) : is.foldl (addEntry sec) map key = map key := by
  induction is generalizing map with
  | nil => rfl
  | cons i is ih =>
    obtain ⟨hi, h⟩ := List.forall_mem_cons.mp h
    rw [List.foldl_cons, ih h, addEntry_of_ne hi]

theorem foldl_addEntry_self (hkey : keyOf sec i = some (e, key))
    (his : is.Nodup) (hi : i ∈ is) (halone : ∀ j ∈ is, ∀ e, keyOf sec j = some (e, key) → j = i) :
    is.foldl (addEntry sec) (fun _ => none) key = (parsedEntry sec e).some? := by
  obtain ⟨before, after, rfl⟩ := List.append_of_mem hi
  obtain ⟨-, hnodup, hdisj⟩ := List.nodup_append'.mp his
  have hout : ∀ j ∈ before ++ i :: after, j ≠ i → ∀ e, keyOf sec j ≠ some (e, key) :=
    fun j hj hne e he => hne (halone j hj e he)
  rw [List.foldl_append, List.foldl_cons, foldl_addEntry_of_ne, addEntry_self hkey]
  · rw [foldl_addEntry_of_ne]
    intro j hj
    refine hout j (List.mem_append_left _ hj) ?_
    rintro rfl
    exact hdisj hj List.mem_cons_self
  · intro j hj
    refine hout j (List.mem_append_right _ (List.mem_cons_of_mem _ hj)) ?_
    rintro rfl
    exact (List.nodup_cons.mp hnodup).1 hj

theorem exists_of_foldl_addEntry {entry : ApiSetEntry}
    (h : is.foldl (addEntry sec) (fun _ => none) key = some entry) : ∃ i ∈ is, ∃ e, keyOf sec i = some (e, key) := by
  by_contra hnone
  rw [foldl_addEntry_of_ne fun i hi e he => hnone ⟨i, hi, e, he⟩] at h
  cases h

theorem mem_hostsOf {h : Str × Option Str} (hh : h ∈ hostsOf sec e) : h.1 ≠ [] := by
  obtain ⟨v, -, hv⟩ := List.mem_filterMap.mp hh
  obtain ⟨value, -, hv⟩ := Option.bind_eq_some_iff.mp hv
  obtain ⟨host, -, hv⟩ := Option.bind_eq_some_iff.mp hv
  split_ifs at hv with hempty
  obtain rfl := Option.some.inj hv
  exact hempty

theorem getLast?_getD_inj {l l' : List Str} (hl : ∀ s ∈ l, s ≠ []) (hl' : ∀ s ∈ l', s ≠ []) :
    l.getLast?.getD [] = l'.getLast?.getD [] ↔ l.getLast? = l'.getLast? := by
  refine ⟨fun h => ?_, fun h => by rw [h]⟩
  cases hlast : l.getLast? with
  | none =>
    cases hlast' : l'.getLast? with
    | none => rfl
    | some s' =>
      rw [hlast, hlast'] at h
      exact absurd h.symm (hl' s' (List.mem_of_getLast? hlast'))
  | some s =>
    cases hlast' : l'.getLast? with
    | none =>
      rw [hlast, hlast'] at h
      exact absurd h (hl s (List.mem_of_getLast? hlast))
    | some s' =>
      rw [hlast, hlast'] at h
      exact congrArg some h

theorem some?_eq_none {a : ApiSetEntry} : a.some? = none ↔ a = {} := by
  unfold ApiSetEntry.some?
  obtain ⟨host, overrides⟩ := a
  simp

theorem some?_inj {a b : ApiSetEntry} : a.some? = b.some? ↔ a = b := by
  refine ⟨fun h => ?_, fun h => by rw [h]⟩
  cases ha : a.some? with
  | none => rw [some?_eq_none.mp ha, some?_eq_none.mp (h.symm.trans ha)]
  | some e =>
    have hself : ∀ {c : ApiSetEntry}, c.some? = some e → c = e := by
      intro c hc
      unfold ApiSetEntry.some? at hc
      split_ifs at hc
      exact Option.some.inj hc
    rw [hself ha, hself (h.symm.trans ha)]

/-- An entry is parsed to what it encodes exactly when its default is kept. -/
theorem parsedEntry_iff (sec : List UInt8) (e : NamespaceEntry) :
    parsedEntry sec e = encoded sec e ↔ DefaultKept sec e := by
  have hhosts : parsedEntry sec e =
      ⟨(defaultsOrStray (hostsOf sec e)).getLast?.getD [], overridesIn (hostsOf sec e)⟩ := rfl
  rw [hhosts, encoded, ApiSetEntry.mk.injEq, and_iff_left rfl, getLast?_getD_inj]
  · exact Iff.rfl
  · intro s hs
    obtain ⟨h, hh, hs⟩ := List.mem_filterMap.mp hs
    split_ifs at hs
    exact Option.some.inj hs ▸ mem_hostsOf hh
  · intro s hs
    obtain ⟨h, hh, hs⟩ := List.mem_filterMap.mp hs
    split_ifs at hs
    exact Option.some.inj hs ▸ mem_hostsOf hh

/-- **API-set parsing.** -/
theorem decodes_iff_clean (sec : List UInt8) :
    (∃ map, parseApiSetMap sec = some map ∧ Decodes sec map) ↔ Clean sec := by
  have hself : ∀ {i e key}, i < entryCount sec → keyOf sec i = some (e, key) → Alone sec i key →
      (List.range (entryCount sec)).foldl (addEntry sec) (fun _ => none) key = (parsedEntry sec e).some? := by
    intro i e key hi hkey halone
    refine foldl_addEntry_self hkey List.nodup_range (List.mem_range.mpr hi) fun j hj => ?_
    exact halone j (List.mem_range.mp hj)
  constructor
  · rintro ⟨map, hparse, hdecodes⟩
    have hok := ok_of_parseApiSetMap hparse
    obtain rfl := Option.some.inj ((parseApiSetMap_of_ok hok).symm.trans hparse)
    refine ⟨hok, fun i hi e key hkey halone => ?_⟩
    rw [← parsedEntry_iff, ← some?_inj, ← hself hi hkey halone]
    exact hdecodes.entries i hi e key hkey halone
  · intro h
    refine ⟨_, parseApiSetMap_of_ok h.texts, fun i hi e key hkey halone => ?_, fun key entry hentry => ?_⟩
    · rw [hself hi hkey halone, some?_inj, parsedEntry_iff]
      exact h.kept i hi e key hkey halone
    · obtain ⟨i, hi, e, hkey⟩ := exists_of_foldl_addEntry hentry
      exact ⟨i, List.mem_range.mp hi, e, hkey⟩

/-- One entry, with a name of four bytes at `0xfffffffe`. -/
def wrapsAround : List UInt8 :=
  encode [(4, 6), (4, 0x34), (4, 0), (4, 1), (4, 0x1c), (4, 0), (4, 0),
    (4, 0), (4, 0xfffffffe), (4, 4), (4, 4), (4, 0x34), (4, 1)]

theorem wrapsAround_read : ¬ ∀ sec, ∃ map, parseApiSetMap sec = some map ∧ Decodes sec map := by
  intro hall
  obtain ⟨map, hparse, -⟩ := hall wrapsAround
  have hnone : (parseApiSetMap wrapsAround).isSome = false := by decide +kernel
  rw [hparse] at hnone
  cases hnone

end Kernemul.ApiSet
