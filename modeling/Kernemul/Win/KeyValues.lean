import Kernemul.Lib.Bytes
import Kernemul.Win.Registry
import Kernemul.Win.Text

/-!
# The values of a registry key

`NtSetValueKey` stores a value under its narrowed name, and `NtQueryValueKey` and `NtEnumerateValueKey` answer with a
record of the information class that is asked for, or with as much of it as the buffer takes. Guest memory can be read
and written where a handler does; a copy outside of a buffer of the host gives no result.
-/

namespace Kernemul.KeyValues

open Text Bytes
open Registry (State RegistryValue setValue queryValue queryValue_setValue)

abbrev Addr := Nat

def keyValueBasicInformation : BitVec 32 := 0
def keyValueFullInformation : BitVec 32 := 1
def keyValuePartialInformation : BitVec 32 := 2

inductive Status
  | success
  | invalidHandle
  | objectNameNotFound
  | noMoreEntries
  | invalidInfoClass
  | bufferTooSmall
  | bufferOverflow
  deriving DecidableEq, Repr

/-- What a handler answers: the status, and what it writes to the result length and to the buffer. -/
structure Reply where
  status : Status
  resultLength : Option (BitVec 32)
  buffer : List UInt8
  deriving DecidableEq, Repr

def byteLength (s : WStr) : BitVec 32 := BitVec.ofNat 32 (2 * s.length)

def writeInfo (response : List UInt8) (buffer : Addr) (length : BitVec 32) : Reply :=
  let required := BitVec.ofNat 32 response.length
  if buffer = 0 ∨ length = 0 then ⟨.bufferTooSmall, some required, []⟩
  else if length < required then ⟨.bufferOverflow, some required, response.take length.toNat⟩
  else ⟨.success, some required, response.take required.toNat⟩

/-- `with_tail`; no caller has the tail stand elsewhere than behind the head. -/
def withTail (head tail : List UInt8) : List UInt8 := head ++ tail

def resize (out : List UInt8) (size : Nat) : List UInt8 := out.take size ++ List.replicate (size - out.length) 0

/-- `sizeof(key_value_full_information_t)`. -/
def fullSize : Nat := 0x14

def valueResponse (infoClass : BitVec 32) (valueName : WStr) (value : RegistryValue) : Option (List UInt8) :=
  let nameBytes := byteLength valueName
  let dataBytes := BitVec.ofNat 32 value.data.length
  if infoClass = keyValueBasicInformation then
    let head := encode [(4, 0), (4, value.type.toNat), (4, nameBytes.toNat)]
    some (withTail head ((wide valueName).take nameBytes.toNat))
  else if infoClass = keyValuePartialInformation then
    let head := encode [(4, 0), (4, value.type.toNat), (4, dataBytes.toNat)]
    some (withTail head (value.data.take dataBytes.toNat))
  else if infoClass = keyValueFullInformation then
    let dataOffset := BitVec.ofNat 32 (fullSize + nameBytes.toNat)
    let head := encode
      [(4, 0), (4, value.type.toNat), (4, dataOffset.toNat), (4, dataBytes.toNat), (4, nameBytes.toNat)]
    let out := resize (withTail head ((wide valueName).take nameBytes.toNat)) (dataOffset + dataBytes).toNat
    if dataBytes = 0 then some out else patch out dataOffset.toNat (value.data.take dataBytes.toNat)
  else some []

def answer (infoClass : BitVec 32) (valueName : WStr) (value : RegistryValue) (buffer : Addr) (length : BitVec 32) :
    Option Reply :=
  (valueResponse infoClass valueName value).map fun response =>
    if response = [] then ⟨.invalidInfoClass, none, []⟩ else writeInfo response buffer length

def queryValueKey (s : State) (host : Option Nat) (valueName : WStr) (infoClass : BitVec 32) (buffer : Addr)
    (length : BitVec 32) : Option Reply :=
  match host with
  | none => some ⟨.invalidHandle, none, []⟩
  | some key =>
    match queryValue s key (narrowWstring valueName) with
    | none => some ⟨.objectNameNotFound, some 0, []⟩
    | some value => answer infoClass valueName value buffer length

def enumerateValues (s : State) (key : Nat) : List Str := (s.values key).keys.insertionSort (· ≤ ·)

def enumerateValueKey (s : State) (host : Option Nat) (index : Nat) (infoClass : BitVec 32) (buffer : Addr)
    (length : BitVec 32) : Option Reply :=
  match host with
  | none => some ⟨.invalidHandle, none, []⟩
  | some key =>
    match (enumerateValues s key)[index]? with
    | none => some ⟨.noMoreEntries, none, []⟩
    | some name =>
      match queryValue s key name with
      | none => some ⟨.objectNameNotFound, none, []⟩
      | some value => answer infoClass (widenString name) value buffer length

def readMem (mem : Addr → UInt8) (va : Addr) (size : Nat) : List UInt8 := (List.range size).map fun i => mem (va + i)

def setValueKey (s : State) (mem : Addr → UInt8) (host : Option Nat) (valueName : WStr) (type : BitVec 32) (data : Addr)
    (dataSize : BitVec 32) : Status × State :=
  match host with
  | none => (.invalidHandle, s)
  | some key =>
    let bytes := if dataSize ≠ 0 ∧ data ≠ 0 then readMem mem data dataSize.toNat else List.replicate dataSize.toNat 0
    (.success, setValue s key (narrowWstring valueName) type bytes)

/-! ## The layouts -/

/-- `KEY_VALUE_BASIC_INFORMATION`: the type and the name. -/
def decodeBasic (bs : List UInt8) : Option (Nat × WStr) :=
  (num bs 4 4).bind fun type => (num bs 8 4).bind fun nameLength =>
    (slice bs 0xc nameLength).map fun name => (type, unwide name)

/-- `KEY_VALUE_PARTIAL_INFORMATION`: the type and the data. -/
def decodePartial (bs : List UInt8) : Option (Nat × List UInt8) :=
  (num bs 4 4).bind fun type => (num bs 8 4).bind fun dataLength =>
    (slice bs 0xc dataLength).map fun data => (type, data)

/-- `KEY_VALUE_FULL_INFORMATION`: the type, the name and the data, which is at an offset of its own. -/
def decodeFull (bs : List UInt8) : Option (Nat × WStr × List UInt8) :=
  (num bs 4 4).bind fun type => (num bs 8 4).bind fun dataOffset => (num bs 0xc 4).bind fun dataLength =>
    (num bs 0x10 4).bind fun nameLength => (slice bs 0x14 nameLength).bind fun name =>
      (slice bs dataOffset dataLength).map fun data => (type, unwide name, data)

def Decodes (infoClass : BitVec 32) (name : WStr) (value : RegistryValue) (bs : List UInt8) : Prop :=
  if infoClass = keyValueBasicInformation then decodeBasic bs = some (value.type.toNat, name)
  else if infoClass = keyValuePartialInformation then decodePartial bs = some (value.type.toNat, value.data)
  else decodeFull bs = some (value.type.toNat, name, value.data)

def Supported (infoClass : BitVec 32) : Prop :=
  infoClass = keyValueBasicInformation ∨ infoClass = keyValueFullInformation ∨ infoClass = keyValuePartialInformation

/-- As much of a response as the buffer takes, and the size of all of it. -/
structure Gives (response : List UInt8) (buffer : Addr) (length : BitVec 32) (r : Reply) : Prop where
  written : r.buffer = if buffer = 0 then [] else response.take length.toNat
  resultLength : r.resultLength.map BitVec.toNat = some response.length

/-- Whatever the buffer, a query gives of one response that decodes to the value. -/
def Answers (query : Addr → BitVec 32 → Option Reply) (infoClass : BitVec 32) (name : WStr) (value : RegistryValue) :
    Prop :=
  ∃ response, Decodes infoClass name value response ∧
    ∀ buffer length, ∃ r, query buffer length = some r ∧ Gives response buffer length r

/-- A value of a key is answered in every class, by its name and where it is enumerated. -/
structure RoundTrips (s : State) (key : Nat) (name : WStr) (value : RegistryValue) : Prop where
  query : ∀ infoClass, Supported infoClass → Answers (queryValueKey s (some key) name infoClass) infoClass name value
  enumerate : ∃ index, ∀ infoClass, Supported infoClass →
    Answers (enumerateValueKey s (some key) index infoClass) infoClass name value

/-! ## Buffers -/

theorem writeInfo_gives {response : List UInt8} (h : response.length < 2 ^ 32) (buffer : Addr) (length : BitVec 32) :
    Gives response buffer length (writeInfo response buffer length) := by
  have hrequired : (BitVec.ofNat 32 response.length).toNat = response.length := Nat.mod_eq_of_lt h
  unfold writeInfo
  dsimp only
  split_ifs with hnone hlt
  · refine ⟨?_, congrArg some hrequired⟩
    split_ifs with hbuffer
    · rfl
    · obtain rfl := hnone.resolve_left hbuffer
      rfl
  · exact ⟨(if_neg (not_or.mp hnone).1).symm, congrArg some hrequired⟩
  · refine ⟨?_, congrArg some hrequired⟩
    rw [if_neg (not_or.mp hnone).1]
    have hle : response.length ≤ length.toNat := by
      rw [BitVec.lt_def, hrequired] at hlt
      omega
    change response.take (BitVec.ofNat 32 response.length).toNat = _
    rw [hrequired, List.take_length, List.take_of_length_le hle]

theorem length_resize (out : List UInt8) (size : Nat) : (resize out size).length = size := by
  rw [resize, List.length_append, List.length_take, List.length_replicate]
  omega

/-! ## Records -/

section records
variable {name : WStr} {value : RegistryValue} {type n : Nat}

theorem toNat_byteLength (h : 2 * name.length < 2 ^ 32) : (byteLength name).toNat = 2 * name.length :=
  Nat.mod_eq_of_lt h

theorem record_three (htype : type < 2 ^ 32) {tail : List UInt8} (htail : tail.length < 2 ^ 32) :
    num (encode [(4, 0), (4, type), (4, tail.length)] ++ tail) 4 4 = some type ∧
      num (encode [(4, 0), (4, type), (4, tail.length)] ++ tail) 8 4 = some tail.length ∧
      slice (encode [(4, 0), (4, type), (4, tail.length)] ++ tail) 0xc tail.length = some tail := by
  refine ⟨num_encode_of_lt [(4, 0)] htype [(4, tail.length)] tail, ?_, ?_⟩
  · exact num_encode_of_lt [(4, 0), (4, type)] htail [] tail
  · exact slice_of_append (c := []) (by rw [List.append_nil]) (length_encode _) rfl

theorem valueResponse_basic (h : 2 * name.length < 2 ^ 32) : valueResponse keyValueBasicInformation name value =
    some (encode [(4, 0), (4, value.type.toNat), (4, (wide name).length)] ++ wide name) := by
  rw [valueResponse, if_pos rfl]
  dsimp only
  rw [withTail, toNat_byteLength h, ← length_wide, List.take_length]

theorem valueResponse_data (h : value.data.length < 2 ^ 32) : valueResponse keyValuePartialInformation name value =
    some (encode [(4, 0), (4, value.type.toNat), (4, value.data.length)] ++ value.data) := by
  have hdata : (BitVec.ofNat 32 value.data.length).toNat = value.data.length := Nat.mod_eq_of_lt h
  rw [valueResponse, if_neg (by decide), if_pos rfl]
  dsimp only
  rw [withTail, hdata, List.take_length]

theorem decodes_basic (h : 2 * name.length < 2 ^ 32) : Decodes keyValueBasicInformation name value
    (encode [(4, 0), (4, value.type.toNat), (4, (wide name).length)] ++ wide name) := by
  obtain ⟨htype, hlength, hname⟩ := record_three value.type.isLt (by rwa [length_wide] : (wide name).length < 2 ^ 32)
  rw [Decodes, if_pos rfl, decodeBasic, htype, Option.bind_some, hlength, Option.bind_some, hname, Option.map_some,
    unwide_wide]

theorem decodes_data (h : value.data.length < 2 ^ 32) : Decodes keyValuePartialInformation name value
    (encode [(4, 0), (4, value.type.toNat), (4, value.data.length)] ++ value.data) := by
  obtain ⟨htype, hlength, hdata⟩ := record_three value.type.isLt h
  rw [Decodes, if_neg (by decide), if_pos rfl, decodePartial, htype, Option.bind_some, hlength, Option.bind_some, hdata,
    Option.map_some]

def fullHead (name : WStr) (value : RegistryValue) : List UInt8 :=
  encode [(4, 0), (4, value.type.toNat), (4, fullSize + 2 * name.length), (4, value.data.length), (4, 2 * name.length)]

theorem length_fullHead (name : WStr) (value : RegistryValue) : (fullHead name value).length = fullSize :=
  length_encode _

theorem valueResponse_full (h : fullSize + 2 * name.length + value.data.length < 2 ^ 32) :
    valueResponse keyValueFullInformation name value = some (fullHead name value ++ wide name ++ value.data) := by
  have hname : (byteLength name).toNat = 2 * name.length := toNat_byteLength (by omega)
  have hdata : (BitVec.ofNat 32 value.data.length).toNat = value.data.length := Nat.mod_eq_of_lt (by omega)
  have hoffset : (BitVec.ofNat 32 (fullSize + 2 * name.length)).toNat = fullSize + 2 * name.length :=
    Nat.mod_eq_of_lt (by omega)
  have hsize : (BitVec.ofNat 32 (fullSize + 2 * name.length) + BitVec.ofNat 32 value.data.length).toNat =
      fullSize + 2 * name.length + value.data.length := by
    rw [BitVec.toNat_add, hoffset, hdata, Nat.mod_eq_of_lt h]
  have hfront : (fullHead name value ++ wide name).length = fullSize + 2 * name.length := by
    rw [List.length_append, length_fullHead, length_wide]
  rw [valueResponse, if_neg (by decide), if_neg (by decide), if_pos rfl]
  dsimp only
  rw [hname, hsize, hdata, hoffset, List.take_length, withTail, ← length_wide, List.take_length, length_wide]
  change (if _ then some (resize (fullHead name value ++ wide name) _)
    else patch (resize (fullHead name value ++ wide name) _) _ _) = _
  rw [resize, hfront, List.take_of_length_le (by rw [hfront]; omega), Nat.add_sub_cancel_left]
  split_ifs with hzero
  · have hnil : value.data.length = 0 := by rw [← hdata, hzero]; rfl
    rw [hnil, List.eq_nil_of_length_eq_zero hnil]
    rfl
  · rw [← hfront, patch_append (List.length_replicate ..)]

theorem decodes_full (h : fullSize + 2 * name.length + value.data.length < 2 ^ 32) :
    Decodes keyValueFullInformation name value (fullHead name value ++ wide name ++ value.data) := by
  have hrest := List.append_assoc (fullHead name value) (wide name) value.data
  have htype : num (fullHead name value ++ wide name ++ value.data) 4 4 = some value.type.toNat := by
    rw [hrest]
    exact num_encode_of_lt [(4, 0)] value.type.isLt [_, _, _] _
  have hoffset : num (fullHead name value ++ wide name ++ value.data) 8 4 = some (fullSize + 2 * name.length) := by
    rw [hrest]
    exact num_encode_of_lt [(4, 0), _] (by omega) [_, _] _
  have hdataLength : num (fullHead name value ++ wide name ++ value.data) 0xc 4 = some value.data.length := by
    rw [hrest]
    exact num_encode_of_lt [(4, 0), _, _] (by omega) [_] _
  have hnameLength : num (fullHead name value ++ wide name ++ value.data) 0x10 4 = some (2 * name.length) := by
    rw [hrest]
    exact num_encode_of_lt [(4, 0), _, _, _] (by omega) [] _
  have hname : slice (fullHead name value ++ wide name ++ value.data) 0x14 (2 * name.length) = some (wide name) :=
    slice_of_append hrest (length_fullHead name value) (length_wide name)
  have hdata : slice (fullHead name value ++ wide name ++ value.data) (fullSize + 2 * name.length) value.data.length =
      some value.data :=
    slice_of_append (c := []) (by rw [List.append_nil]) (by rw [List.length_append, length_fullHead, length_wide]) rfl
  rw [Decodes, if_neg (by decide), if_neg (by decide), decodeFull, htype, Option.bind_some, hoffset, Option.bind_some,
    hdataLength, Option.bind_some, hnameLength, Option.bind_some, hname, Option.bind_some, hdata, Option.map_some,
    unwide_wide]

/-- The offset and the size of the data wrap around together: the buffer is then too short for the copy. -/
theorem valueResponse_full_none (hname : name.length < 2 ^ 15) (hdata : value.data.length < 2 ^ 32)
    (h : 2 ^ 32 ≤ fullSize + 2 * name.length + value.data.length) :
    valueResponse keyValueFullInformation name value = none := by
  have hnameBytes : (byteLength name).toNat = 2 * name.length := toNat_byteLength (by omega)
  have hdataBytes : (BitVec.ofNat 32 value.data.length).toNat = value.data.length := Nat.mod_eq_of_lt hdata
  have hsmall : fullSize + 2 * name.length < 2 ^ 17 := by
    unfold fullSize
    omega
  have hoffset : (BitVec.ofNat 32 (fullSize + 2 * name.length)).toNat = fullSize + 2 * name.length :=
    Nat.mod_eq_of_lt (by omega)
  have hsize : (BitVec.ofNat 32 (fullSize + 2 * name.length) + BitVec.ofNat 32 value.data.length).toNat =
      fullSize + 2 * name.length + value.data.length - 2 ^ 32 := by
    rw [BitVec.toNat_add, hoffset, hdataBytes]
    omega
  have hne : BitVec.ofNat 32 value.data.length ≠ 0 := by
    intro hzero
    rw [hzero] at hdataBytes
    change 0 = value.data.length at hdataBytes
    omega
  rw [valueResponse, if_neg (by decide), if_neg (by decide), if_pos rfl]
  dsimp only
  rw [if_neg hne, hnameBytes, hsize, hdataBytes, hoffset, List.take_length]
  refine Option.not_isSome_iff_eq_none.mp fun hsome => ?_
  have hle := patch_isSome.mp hsome
  rw [length_resize] at hle
  omega

end records

/-! ## Round trips -/

variable {s : State} {key : Nat} {name : WStr} {value : RegistryValue}

theorem answers_of_eq {query : Addr → BitVec 32 → Option Reply} {infoClass : BitVec 32} {response : List UInt8}
    (hquery : ∀ buffer length, query buffer length = answer infoClass name value buffer length)
    (hresponse : valueResponse infoClass name value = some response) (hdecodes : Decodes infoClass name value response)
    (hne : response ≠ []) (hlength : response.length < 2 ^ 32) : Answers query infoClass name value := by
  refine ⟨response, hdecodes, fun buffer length => ⟨_, ?_, writeInfo_gives hlength buffer length⟩⟩
  rw [hquery, answer, hresponse, Option.map_some, if_neg hne]

theorem answers_of_fits (h : fullSize + 2 * name.length + value.data.length < 2 ^ 32)
    {query : BitVec 32 → Addr → BitVec 32 → Option Reply}
    (hquery : ∀ infoClass buffer length, query infoClass buffer length = answer infoClass name value buffer length)
    {infoClass : BitVec 32} (hclass : Supported infoClass) : Answers (query infoClass) infoClass name value := by
  have hfull : fullSize = 0x14 := rfl
  rcases hclass with rfl | rfl | rfl
  · refine answers_of_eq (hquery _) (valueResponse_basic (by omega)) (decodes_basic (by omega))
      (List.cons_ne_nil _ _) ?_
    rw [List.length_append, length_encode, length_wide]
    change 0xc + 2 * name.length < 2 ^ 32
    omega
  · refine answers_of_eq (hquery _) (valueResponse_full h) (decodes_full h) (List.cons_ne_nil _ _) ?_
    rwa [List.length_append, List.length_append, length_fullHead, length_wide]
  · refine answers_of_eq (hquery _) (valueResponse_data (by omega)) (decodes_data (by omega))
      (List.cons_ne_nil _ _) ?_
    rw [List.length_append, length_encode]
    change 0xc + value.data.length < 2 ^ 32
    omega

theorem length_readMem (mem : Addr → UInt8) (va : Addr) (size : Nat) : (readMem mem va size).length = size := by
  rw [readMem, List.length_map, List.length_range]

theorem setValueKey_eq (mem : Addr → UInt8) (type : BitVec 32) {data : Addr} (hdata : data ≠ 0) (dataSize : BitVec 32) :
    (setValueKey s mem (some key) name type data dataSize).2 =
      setValue s key (narrowWstring name) type (readMem mem data dataSize.toNat) := by
  unfold setValueKey
  dsimp only
  split_ifs with hsize
  · rfl
  · have hzero : dataSize = 0 := by
      by_contra hne
      exact hsize ⟨hne, hdata⟩
    subst hzero
    rfl

theorem mem_enumerateValues {narrow : Str} (h : queryValue s key narrow ≠ none) : narrow ∈ enumerateValues s key := by
  rw [enumerateValues, List.mem_insertionSort]
  by_contra hnot
  exact h (AList.lookup_eq_none.mpr hnot)

theorem queryValueKey_eq (hvalue : queryValue s key (narrowWstring name) = some value) (infoClass : BitVec 32)
    (buffer : Addr) (length : BitVec 32) :
    queryValueKey s (some key) name infoClass buffer length = answer infoClass name value buffer length := by
  unfold queryValueKey
  dsimp only
  rw [hvalue]

theorem enumerateValueKey_eq (hname : ∀ c ∈ name, c < 0x100)
    (hvalue : queryValue s key (narrowWstring name) = some value) {index : Nat}
    (hindex : (enumerateValues s key)[index]? = some (narrowWstring name)) (infoClass : BitVec 32) (buffer : Addr)
    (length : BitVec 32) :
    enumerateValueKey s (some key) index infoClass buffer length = answer infoClass name value buffer length := by
  unfold enumerateValueKey
  dsimp only
  rw [hindex]
  dsimp only
  rw [hvalue, widenString_narrowWstring hname]

/-- **A value comes back as it was set**, in every information class and through a buffer of any length, exactly when
its full record has less than `2 ^ 32` bytes. -/
theorem roundTrips_iff (s : State) (key : Nat) {name : WStr} (hname : ∀ c ∈ name, c < 0x100)
    (hlength : name.length < 2 ^ 15) (type : BitVec 32) (mem : Addr → UInt8) {data : Addr} (hdata : data ≠ 0)
    (dataSize : BitVec 32) :
    RoundTrips (setValueKey s mem (some key) name type data dataSize).2 key name
        ⟨type, readMem mem data dataSize.toNat⟩ ↔
      fullSize + 2 * name.length + dataSize.toNat < 2 ^ 32 := by
  have hsize : (readMem mem data dataSize.toNat).length = dataSize.toNat := length_readMem _ _ _
  have hvalue : queryValue (setValueKey s mem (some key) name type data dataSize).2 key (narrowWstring name) =
      some ⟨type, readMem mem data dataSize.toNat⟩ := by
    rw [setValueKey_eq mem type hdata, queryValue_setValue, if_pos ⟨rfl, rfl⟩]
  constructor
  · intro h
    by_contra hbig
    obtain ⟨response, -, hanswers⟩ := h.query keyValueFullInformation (.inr (.inl rfl))
    obtain ⟨r, hr, -⟩ := hanswers 0 0
    have hnone := @valueResponse_full_none name ⟨type, readMem mem data dataSize.toNat⟩ hlength
      (by rw [hsize]; exact dataSize.isLt) (by rw [hsize]; omega)
    rw [queryValueKey_eq hvalue, answer, hnone] at hr
    cases hr
  · intro h
    obtain ⟨index, hindex⟩ := List.mem_iff_getElem?.mp (mem_enumerateValues (by rw [hvalue]; nofun))
    exact ⟨fun _ => answers_of_fits (by rwa [hsize]) (queryValueKey_eq hvalue),
      index, fun _ => answers_of_fits (by rwa [hsize]) (enumerateValueKey_eq hname hvalue hindex)⟩

/-- A byte under the name "a". -/
theorem oneByte_roundTrips :
    RoundTrips (setValueKey State.init (fun _ => 7) (some 0) [0x61] 3 0x1000 1).2 0 [0x61] ⟨3, [7]⟩ :=
  (roundTrips_iff State.init 0 (List.forall_mem_singleton.mpr (by decide)) (by decide) 3 (fun _ => 7) (by decide) 1).mpr
    (by decide)

/-- Of a value of nearly `2 ^ 32` bytes there is no full record. -/
theorem fourGigabytes_fails : ¬ ∀ s key name type mem data dataSize, (∀ c ∈ name, c < 0x100) → name.length < 2 ^ 15 →
    data ≠ 0 → RoundTrips (setValueKey s mem (some key) name type data dataSize).2 key name
      ⟨type, readMem mem data dataSize.toNat⟩ := by
  intro hall
  have h := hall State.init 0 [] 3 (fun _ => 0) 0x1000 0xffffffec (by nofun) (by decide) (by decide)
  obtain ⟨response, -, hanswers⟩ := h.query keyValueFullInformation (.inr (.inl rfl))
  obtain ⟨r, hr, -⟩ := hanswers 0 0
  have hvalue : queryValue (setValueKey State.init (fun _ => 0) (some 0) [] 3 0x1000 0xffffffec).2 0
      (narrowWstring []) = some ⟨3, readMem (fun _ => 0) 0x1000 0xffffffec⟩ := by
    rw [setValueKey_eq _ _ (by decide), queryValue_setValue, if_pos ⟨rfl, rfl⟩]
    rfl
  have hnone := @valueResponse_full_none [] ⟨3, readMem (fun _ => 0) 0x1000 0xffffffec⟩ (by decide)
    (by rw [length_readMem]; decide) (by rw [length_readMem]; decide)
  rw [queryValueKey_eq hvalue, answer, hnone] at hr
  cases hr

end Kernemul.KeyValues
