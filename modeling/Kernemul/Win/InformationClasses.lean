import Kernemul.Win.KeyValues
import Mathlib.Data.List.DropRight

/-!
# Records of keys and of directory entries

`NtQueryKey` and `NtEnumerateKey` describe a key, `NtQueryDirectoryFile` one entry of a directory at each call. The
classes a handler takes share its record; `decode` reads a record as the layout of the class has it, and `stands` says
what it stands for. The filter of a directory query is not looked at, and the guest's buffers can be written.
-/

namespace Kernemul.InformationClasses

open Text Bytes KeyValues Paths
open Registry (State enumerateSubkeys queryValue)

def keyBasicInformation : BitVec 32 := 0
def keyNodeInformation : BitVec 32 := 1
def keyFullInformation : BitVec 32 := 2

def fileDirectoryInformation : BitVec 32 := 1
def fileFullDirectoryInformation : BitVec 32 := 2
def fileBothDirectoryInformation : BitVec 32 := 3

/-- A `std::uint32_t`. -/
def u32 (n : Nat) : Nat := n % 2 ^ 32

/-! ## Keys -/

structure KeyHost where
  key : Nat
  path : Str
  deriving DecidableEq, Repr

def KeyHost.name (host : KeyHost) : WStr := widenString (host.path.rtakeWhile (· ≠ slash))

/-- The response with `key_basic_information_t` that both handlers give. -/
def keyResponse (name : WStr) : List UInt8 :=
  withTail (encode [(8, 0), (4, 0), (4, (byteLength name).toNat)]) ((wide name).take (byteLength name).toNat)

/-- The longest of some sizes, as a loop of `std::max` finds it. -/
def maxU32 (sizes : List Nat) : Nat := sizes.foldl (fun m n => max m (u32 n)) 0

def dataSizes (s : State) (key : Nat) : List Nat :=
  (enumerateValues s key).filterMap fun name => (queryValue s key name).map fun value => value.data.length

/-- The fields of `key_full_information_t`. -/
def fullFields (subKeys maxNameLen values maxValueNameLen maxValueDataLen : Nat) : List (Nat × Nat) :=
  [(8, 0), (4, 0), (4, 0x2c), (4, 0), (4, subKeys), (4, maxNameLen), (4, 0), (4, values), (4, maxValueNameLen),
    (4, maxValueDataLen)]

def fullResponse (s : State) (host : KeyHost) : List UInt8 :=
  let subkeys := enumerateSubkeys s host.path
  let values := enumerateValues s host.key
  withTail (encode (fullFields (u32 subkeys.length) (maxU32 (subkeys.map fun sub => 2 * sub.length))
    (u32 values.length) (maxU32 (values.map fun name => 2 * name.length)) (maxU32 (dataSizes s host.key)))) []

def queryKey (s : State) (host : Option KeyHost) (infoClass : BitVec 32) (buffer : Addr) (length : BitVec 32) : Reply :=
  match host with
  | none => ⟨.invalidHandle, none, []⟩
  | some host =>
    if infoClass = keyBasicInformation ∨ infoClass = keyNodeInformation then
      writeInfo (keyResponse host.name) buffer length
    else if infoClass = keyFullInformation then writeInfo (fullResponse s host) buffer length
    else ⟨.invalidInfoClass, none, []⟩

def enumerateKey (s : State) (host : Option KeyHost) (index : Nat) (infoClass : BitVec 32) (buffer : Addr)
    (length : BitVec 32) : Reply :=
  match host with
  | none => ⟨.invalidHandle, none, []⟩
  | some host =>
    match (enumerateSubkeys s host.path)[index]? with
    | none => ⟨.noMoreEntries, none, []⟩
    | some sub =>
      if infoClass ≠ keyBasicInformation ∧ infoClass ≠ keyNodeInformation then ⟨.invalidInfoClass, none, []⟩
      else writeInfo (keyResponse (widenString sub)) buffer length

/-! ## Directories -/

structure DirEntry where
  name : Str
  isDirectory : Bool
  size : BitVec 64
  deriving DecidableEq, Repr

/-- `win_filesystem`: the size of every file that is not null, and the directories nothing else implies. -/
structure Filesystem where
  files : List (Str × Option (BitVec 64))
  dirs : List Str

/-- `entries[name]`, which is made where it is not there, and what is done to it. -/
def updateEntry (entries : List DirEntry) (name : Str) (f : DirEntry → DirEntry) : List DirEntry :=
  if ∃ e ∈ entries, e.name = name then entries.map fun e => if e.name = name then f e else e
  else entries ++ [f ⟨name, false, 0⟩]

/-- One file of the loop of `list_dir`. -/
def listFile (start : Str) (entries : List DirEntry) (file : Str × Option (BitVec 64)) : List DirEntry :=
  let rest := file.1.drop start.length
  if ¬ start <+: file.1 ∨ rest = [] then entries
  else if slash ∉ rest then updateEntry entries rest fun e => { e with size := file.2.getD 0 }
  else updateEntry entries (component slash rest) fun e => { e with isDirectory := true }

def listSubdir (start : Str) (entries : List DirEntry) (dir : Str) : List DirEntry :=
  let rest := dir.drop start.length
  if ¬ start <+: dir ∨ rest = [] then entries
  else updateEntry entries (component slash rest) fun e => { e with isDirectory := true }

/-- `list_dir`; the entries come from a `std::map`. -/
def Filesystem.listDir (fs : Filesystem) (path : Str) : List DirEntry :=
  let start := if normalize path = [] then [] else normalize path ++ [slash]
  (fs.dirs.foldl (listSubdir start) (fs.files.foldl (listFile start) [])).insertionSort fun a b => a.name ≤ b.name

structure FileHost where
  path : Str
  position : Nat
  deriving DecidableEq, Repr

inductive FileStatus
  | success
  | invalidHandle
  | invalidInfoClass
  | noMoreFiles
  | bufferTooSmall
  deriving DecidableEq, Repr

/-- The two fields of the status block, and what is written to the buffer. -/
structure FileReply where
  status : FileStatus
  information : Nat
  buffer : List UInt8
  deriving DecidableEq, Repr

/-- `sizeof(file_directory_information_t)`. -/
def directorySize : Nat := 0x40

def attributes (isDirectory : Bool) : Nat := if isDirectory then 0x10 else 0x80

def nameBytes (entry : DirEntry) : Nat := u32 (2 * entry.name.length)

/-- The fields of `file_directory_information_t`. -/
def directoryFields (size fileAttributes nameLength : Nat) : List (Nat × Nat) :=
  [(4, 0), (4, 0), (8, 0), (8, 0), (8, 0), (8, 0), (8, size), (8, size), (4, fileAttributes), (4, nameLength)]

def directoryRecord (entry : DirEntry) : List UInt8 :=
  encode (directoryFields entry.size.toNat (attributes entry.isDirectory) (nameBytes entry)) ++
    (wide (widenString entry.name)).take (nameBytes entry)

def AcceptedFile (infoClass : BitVec 32) : Prop :=
  infoClass = fileDirectoryInformation ∨ infoClass = fileBothDirectoryInformation ∨
    infoClass = fileFullDirectoryInformation

instance (infoClass : BitVec 32) : Decidable (AcceptedFile infoClass) := inferInstanceAs (Decidable (_ ∨ _))

def FileHost.restarted (host : FileHost) (restartScan : Bool) : FileHost :=
  if restartScan then { host with position := 0 } else host

def queryDirectoryFile (fs : Filesystem) (host : Option FileHost) (infoClass : BitVec 32) (length : BitVec 32)
    (restartScan : Bool) : FileReply × Option FileHost :=
  match host with
  | none => (⟨.invalidHandle, 0, []⟩, none)
  | some host =>
    if ¬ AcceptedFile infoClass then (⟨.invalidInfoClass, 0, []⟩, some host)
    else
      let host := host.restarted restartScan
      match (fs.listDir host.path)[host.position]? with
      | none => (⟨.noMoreFiles, 0, []⟩, some host)
      | some entry =>
        let needed := directorySize + nameBytes entry
        if length.toNat < needed then (⟨.bufferTooSmall, 0, []⟩, some host)
        else (⟨.success, needed, directoryRecord entry⟩, some { host with position := host.position + 1 })

/-! ## Layouts -/

inductive Contents
  | key (name : WStr)
  | keyFull (subKeys maxNameLen values maxValueNameLen maxValueDataLen : Nat)
  | file (nextEntryOffset endOfFile allocationSize fileAttributes : Nat) (name : WStr)
  deriving DecidableEq, Repr

/-- A name, by where its length in bytes and the name itself stand. -/
def decodeName (lengthAt nameAt : Nat) (bs : List UInt8) : Option WStr :=
  (num bs lengthAt 4).bind fun n => (slice bs nameAt n).map unwide

def decodeKeyFull (bs : List UInt8) : Option Contents :=
  (num bs 0x14 4).bind fun subKeys => (num bs 0x18 4).bind fun maxNameLen => (num bs 0x20 4).bind fun values =>
    (num bs 0x24 4).bind fun maxValueNameLen => (num bs 0x28 4).map fun maxValueDataLen =>
      .keyFull subKeys maxNameLen values maxValueNameLen maxValueDataLen

/-- `KEY_BASIC_INFORMATION`, `KEY_NODE_INFORMATION` and `KEY_FULL_INFORMATION`. -/
def decodeKey (infoClass : BitVec 32) (bs : List UInt8) : Option Contents :=
  if infoClass = keyFullInformation then decodeKeyFull bs
  else if infoClass = keyNodeInformation then (decodeName 0x14 0x18 bs).map .key
  else (decodeName 0xc 0x10 bs).map .key

/-- Where `FILE_DIRECTORY_INFORMATION`, `FILE_FULL_DIR_INFORMATION` and `FILE_BOTH_DIR_INFORMATION` have the name:
behind the fields they share, and those that they have of their own. -/
def fileNameAt (infoClass : BitVec 32) : Nat :=
  if infoClass = fileFullDirectoryInformation then 0x44
  else if infoClass = fileBothDirectoryInformation then 0x5e
  else 0x40

def decodeFile (infoClass : BitVec 32) (bs : List UInt8) : Option Contents :=
  (num bs 0 4).bind fun nextEntryOffset => (num bs 0x28 8).bind fun endOfFile =>
    (num bs 0x30 8).bind fun allocationSize => (num bs 0x38 4).bind fun fileAttributes =>
      (decodeName 0x3c (fileNameAt infoClass) bs).map fun name =>
        .file nextEntryOffset endOfFile allocationSize fileAttributes name

/-! ## Requests -/

structure System where
  reg : State
  fs : Filesystem

inductive Request
  | queryKey (host : KeyHost) (infoClass : BitVec 32)
  | enumerateKey (host : KeyHost) (index : Nat) (infoClass : BitVec 32)
  | queryDirectoryFile (host : FileHost) (infoClass : BitVec 32) (restartScan : Bool)
  deriving DecidableEq, Repr

namespace Request

def record (sys : System) (buffer : Addr) (length : BitVec 32) : Request → Option (List UInt8)
  | queryKey host infoClass =>
    let r := InformationClasses.queryKey sys.reg (some host) infoClass buffer length
    if r.status = .success then some r.buffer else none
  | enumerateKey host index infoClass =>
    let r := InformationClasses.enumerateKey sys.reg (some host) index infoClass buffer length
    if r.status = .success then some r.buffer else none
  | queryDirectoryFile host infoClass restartScan =>
    let r := (InformationClasses.queryDirectoryFile sys.fs (some host) infoClass length restartScan).1
    if r.status = .success then some r.buffer else none

def decode : Request → List UInt8 → Option Contents
  | queryKey _ infoClass => decodeKey infoClass
  | enumerateKey _ _ infoClass => decodeKey infoClass
  | queryDirectoryFile _ infoClass _ => decodeFile infoClass

/-- What a record stands for, if the handler accepts the class and there is an entry. -/
def stands (sys : System) : Request → Option Contents
  | queryKey host infoClass =>
    if infoClass = keyBasicInformation ∨ infoClass = keyNodeInformation then some (.key host.name)
    else if infoClass = keyFullInformation then
      let subkeys := enumerateSubkeys sys.reg host.path
      let values := enumerateValues sys.reg host.key
      some (.keyFull subkeys.length ((subkeys.map fun sub => 2 * sub.length).foldl max 0) values.length
        ((values.map fun name => 2 * name.length).foldl max 0) ((dataSizes sys.reg host.key).foldl max 0))
    else none
  | enumerateKey host index infoClass =>
    if infoClass = keyBasicInformation ∨ infoClass = keyNodeInformation then
      (enumerateSubkeys sys.reg host.path)[index]?.map fun sub => .key (widenString sub)
    else none
  | queryDirectoryFile host infoClass restartScan =>
    if AcceptedFile infoClass then
      (sys.fs.listDir host.path)[(host.restarted restartScan).position]?.map fun entry =>
        .file 0 entry.size.toNat entry.size.toNat (attributes entry.isDirectory) (widenString entry.name)
    else none

def OwnLayout : Request → Prop
  | queryKey _ infoClass => infoClass ≠ keyNodeInformation
  | enumerateKey _ _ infoClass => infoClass ≠ keyNodeInformation
  | queryDirectoryFile _ infoClass _ => infoClass = fileDirectoryInformation

end Request

def Contents.Fits : Contents → Prop
  | key name => 0x10 + 2 * name.length < 2 ^ 32
  | keyFull subKeys maxNameLen values maxValueNameLen maxValueDataLen =>
    subKeys < 2 ^ 32 ∧ maxNameLen < 2 ^ 32 ∧ values < 2 ^ 32 ∧ maxValueNameLen < 2 ^ 32 ∧ maxValueDataLen < 2 ^ 32
  | file _ _ _ _ name => 0x40 + 2 * name.length < 2 ^ 32

/-- A record can be had, and every record decodes to what it stands for. -/
structure Matches (sys : System) (req : Request) (contents : Contents) : Prop where
  written : ∃ buffer length, req.record sys buffer length ≠ none
  decodes : ∀ buffer length bs, req.record sys buffer length = some bs → req.decode bs = some contents

/-! ## Reading records -/

theorem length_of_decodeName {lengthAt nameAt : Nat} {bs : List UInt8} {name : WStr}
    (h : decodeName lengthAt nameAt bs = some name) : nameAt + 2 * name.length ≤ bs.length := by
  obtain ⟨n, -, h⟩ := Option.bind_eq_some_iff.mp h
  obtain ⟨text, htext, rfl⟩ := Option.map_eq_some_iff.mp h
  have hlength := length_slice htext
  have hinside := slice_inside htext
  rw [length_unwide]
  omega

theorem decodeName_record {head : List UInt8} {name : WStr} {lengthAt nameAt : Nat}
    (hlength : num (head ++ wide name) lengthAt 4 = some (2 * name.length)) (hhead : head.length = nameAt) :
    decodeName lengthAt nameAt (head ++ wide name) = some name := by
  have hname : slice (head ++ wide name) nameAt (2 * name.length) = some (wide name) :=
    slice_of_append (c := []) (by rw [List.append_nil]) hhead (length_wide name)
  rw [decodeName, hlength, Option.bind_some, hname, Option.map_some, unwide_wide]

/-! ## What the writer gives -/

variable {response : List UInt8}

theorem writeInfo_success {buffer : Addr} {length : BitVec 32}
    (h : (writeInfo response buffer length).status = .success) :
    (writeInfo response buffer length).buffer = response.take (u32 response.length) := by
  unfold writeInfo at h ⊢
  dsimp only at h ⊢
  split_ifs at h ⊢
  rfl

theorem writeInfo_max (response : List UInt8) : (writeInfo response 1 (BitVec.allOnes 32)).status = .success := by
  unfold writeInfo
  dsimp only
  rw [if_neg (by decide), if_neg]
  rw [BitVec.lt_def, BitVec.toNat_allOnes]
  have := (BitVec.ofNat 32 response.length).isLt
  omega

theorem take_u32 (h : response.length < 2 ^ 32) :
    response.take (u32 response.length) = response := by
  rw [u32, Nat.mod_eq_of_lt h, List.take_length]

theorem length_take_u32 (response : List UInt8) : (response.take (u32 response.length)).length < 2 ^ 32 := by
  rw [List.length_take, u32]
  omega

variable {sys : System} {req : Request} {contents : Contents} {infoClass : BitVec 32}

theorem matches_writeInfo (hrecord : ∀ buffer length, req.record sys buffer length =
      if (writeInfo response buffer length).status = .success then some (writeInfo response buffer length).buffer
      else none) :
    Matches sys req contents ↔ req.decode (response.take (u32 response.length)) = some contents := by
  have hmax : req.record sys 1 (BitVec.allOnes 32) = some (response.take (u32 response.length)) := by
    rw [hrecord, if_pos (writeInfo_max response), writeInfo_success (writeInfo_max response)]
  constructor
  · intro h
    exact h.decodes 1 (BitVec.allOnes 32) _ hmax
  · intro h
    refine ⟨⟨1, BitVec.allOnes 32, by rw [hmax]; nofun⟩, fun buffer length bs hbs => ?_⟩
    rw [hrecord] at hbs
    split_ifs at hbs with hsuccess
    obtain rfl := Option.some.inj hbs
    rwa [writeInfo_success hsuccess]

/-! ## Records of keys -/

theorem length_keyResponse (name : WStr) : (keyResponse name).length ≤ 0x10 + 2 * name.length := by
  rw [keyResponse, withTail, List.length_append, length_encode, List.length_take, length_wide]
  exact Nat.add_le_add_left (Nat.min_le_right ..) _

theorem decodeName_keyResponse {name : WStr} (h : 0x10 + 2 * name.length < 2 ^ 32) :
    decodeName 0xc 0x10 (keyResponse name) = some name := by
  have hbytes : (byteLength name).toNat = 2 * name.length := toNat_byteLength (by omega)
  rw [keyResponse, withTail, hbytes, ← length_wide, List.take_length, length_wide]
  exact decodeName_record (num_encode_of_lt [(8, 0), (4, 0)] (by omega) [] _) (length_encode _)

theorem decodeKey_keyResponse (hclass : infoClass = keyBasicInformation ∨ infoClass = keyNodeInformation)
    (name : WStr) : decodeKey infoClass ((keyResponse name).take (u32 (keyResponse name).length)) = some (.key name) ↔
      infoClass ≠ keyNodeInformation ∧ 0x10 + 2 * name.length < 2 ^ 32 := by
  have hshort := length_take_u32 (keyResponse name)
  have hresponse := length_keyResponse name
  rcases hclass with rfl | rfl
  · rw [decodeKey, if_neg (by decide), if_neg (by decide)]
    constructor
    · intro h
      obtain ⟨name', hname, hkey⟩ := Option.map_eq_some_iff.mp h
      obtain rfl := Contents.key.inj hkey
      exact ⟨by decide, Nat.lt_of_le_of_lt (length_of_decodeName hname) hshort⟩
    · rintro ⟨-, h⟩
      rw [take_u32 (by omega), decodeName_keyResponse h, Option.map_some]
  · rw [decodeKey, if_neg (by decide), if_pos rfl]
    refine iff_of_false (fun h => ?_) fun h => h.1 rfl
    obtain ⟨name', hname, hkey⟩ := Option.map_eq_some_iff.mp h
    obtain rfl := Contents.key.inj hkey
    have hlength := length_of_decodeName hname
    rw [List.length_take] at hlength
    omega

theorem u32_eq {n : Nat} (h : n < 2 ^ 32) : u32 n = n := Nat.mod_eq_of_lt h

theorem u32_lt (n : Nat) : u32 n < 2 ^ 32 := Nat.mod_lt n (by decide)

theorem le_foldl_max (m : Nat) (sizes : List Nat) : m ≤ sizes.foldl max m := by
  induction sizes generalizing m with
  | nil => exact le_refl m
  | cons n sizes ih => exact le_trans (le_max_left m n) (ih _)

theorem foldl_maxU32_lt {m : Nat} (hm : m < 2 ^ 32) (sizes : List Nat) :
    sizes.foldl (fun m n => max m (u32 n)) m < 2 ^ 32 := by
  induction sizes generalizing m with
  | nil => exact hm
  | cons n sizes ih => exact ih (max_lt hm (u32_lt n))

theorem foldl_maxU32_eq {m : Nat} {sizes : List Nat} (h : sizes.foldl max m < 2 ^ 32) :
    sizes.foldl (fun m n => max m (u32 n)) m = sizes.foldl max m := by
  induction sizes generalizing m with
  | nil => rfl
  | cons n sizes ih =>
    have hn : n < 2 ^ 32 := lt_of_le_of_lt (le_trans (le_max_right m n) (le_foldl_max _ sizes)) h
    rw [List.foldl_cons, u32_eq hn]
    exact ih h

theorem maxU32_eq_iff (sizes : List Nat) : maxU32 sizes = sizes.foldl max 0 ↔ sizes.foldl max 0 < 2 ^ 32 :=
  ⟨fun h => h ▸ foldl_maxU32_lt (by decide) sizes, foldl_maxU32_eq⟩

theorem u32_eq_iff (n : Nat) : u32 n = n ↔ n < 2 ^ 32 := ⟨fun h => h ▸ u32_lt n, u32_eq⟩

theorem decodeKeyFull_encode {a b c d e : Nat} (ha : a < 2 ^ 32) (hb : b < 2 ^ 32) (hc : c < 2 ^ 32) (hd : d < 2 ^ 32)
    (he : e < 2 ^ 32) : decodeKeyFull (encode (fullFields a b c d e) ++ []) = some (.keyFull a b c d e) := by
  have hsubKeys := @num_encode_of_lt ((fullFields a b c d e).take 4) 4 a ha ((fullFields a b c d e).drop 5) []
  have hmaxNameLen := @num_encode_of_lt ((fullFields a b c d e).take 5) 4 b hb ((fullFields a b c d e).drop 6) []
  have hvalues := @num_encode_of_lt ((fullFields a b c d e).take 7) 4 c hc ((fullFields a b c d e).drop 8) []
  have hmaxValueNameLen := @num_encode_of_lt ((fullFields a b c d e).take 8) 4 d hd ((fullFields a b c d e).drop 9) []
  have hmaxValueDataLen := @num_encode_of_lt ((fullFields a b c d e).take 9) 4 e he [] []
  exact Option.bind_eq_some_iff.mpr ⟨_, hsubKeys, Option.bind_eq_some_iff.mpr ⟨_, hmaxNameLen,
    Option.bind_eq_some_iff.mpr ⟨_, hvalues, Option.bind_eq_some_iff.mpr ⟨_, hmaxValueNameLen,
      Option.map_eq_some_iff.mpr ⟨_, hmaxValueDataLen, rfl⟩⟩⟩⟩⟩

/-- The record of a whole key decodes to its counts and sizes, if they fit. -/
theorem decodeKey_fullResponse (s : State) (host : KeyHost) {a b c d e : Nat}
    (ha : a = (enumerateSubkeys s host.path).length)
    (hb : b = ((enumerateSubkeys s host.path).map fun sub => 2 * sub.length).foldl max 0)
    (hc : c = (enumerateValues s host.key).length)
    (hd : d = ((enumerateValues s host.key).map fun name => 2 * name.length).foldl max 0)
    (he : e = (dataSizes s host.key).foldl max 0) :
    decodeKey keyFullInformation ((fullResponse s host).take (u32 (fullResponse s host).length)) =
      some (.keyFull a b c d e) ↔ (Contents.keyFull a b c d e).Fits := by
  have hlength : (fullResponse s host).length = 0x2c := by
    rw [fullResponse, withTail, List.append_nil, length_encode]
    rfl
  rw [take_u32 (by rw [hlength]; decide), decodeKey, if_pos rfl]
  have hdecode : decodeKeyFull (fullResponse s host) = _ := decodeKeyFull_encode (u32_lt _)
    (foldl_maxU32_lt (by decide) _) (u32_lt _) (foldl_maxU32_lt (by decide) _) (foldl_maxU32_lt (by decide) _)
  rw [hdecode, Option.some_inj, Contents.keyFull.injEq]
  subst ha hb hc hd he
  exact and_congr (u32_eq_iff _) (and_congr (maxU32_eq_iff _) (and_congr (u32_eq_iff _)
    (and_congr (maxU32_eq_iff _) (maxU32_eq_iff _))))

/-! ## Records of directory entries -/

theorem length_directoryRecord (entry : DirEntry) :
    (directoryRecord entry).length ≤ directorySize + nameBytes entry ∧
      (directoryRecord entry).length ≤ directorySize + 2 * entry.name.length := by
  have hwide : (wide (widenString entry.name)).length = 2 * entry.name.length := by
    rw [length_wide, widenString, List.length_map]
  rw [directoryRecord, List.length_append, length_encode, List.length_take, hwide]
  exact ⟨Nat.add_le_add_left (Nat.min_le_left ..) _, Nat.add_le_add_left (Nat.min_le_right ..) _⟩

theorem decodeFile_encode {size fileAttributes : Nat} (hsize : size < 2 ^ 64) (hattributes : fileAttributes < 2 ^ 32)
    {name : WStr} (hname : 2 * name.length < 2 ^ 32) : decodeFile fileDirectoryInformation
      (encode (directoryFields size fileAttributes (2 * name.length)) ++ wide name) =
        some (.file 0 size size fileAttributes name) := by
  have hnext := @num_encode_of_lt [] 4 0 (by decide) ((directoryFields size fileAttributes (2 * name.length)).drop 1)
    (wide name)
  have hend := @num_encode_of_lt ((directoryFields size fileAttributes (2 * name.length)).take 6) 8 size hsize
    ((directoryFields size fileAttributes (2 * name.length)).drop 7) (wide name)
  have hallocation := @num_encode_of_lt ((directoryFields size fileAttributes (2 * name.length)).take 7) 8 size hsize
    ((directoryFields size fileAttributes (2 * name.length)).drop 8) (wide name)
  have hattributes := @num_encode_of_lt ((directoryFields size fileAttributes (2 * name.length)).take 8) 4 _
    hattributes ((directoryFields size fileAttributes (2 * name.length)).drop 9) (wide name)
  have hlength := @num_encode_of_lt ((directoryFields size fileAttributes (2 * name.length)).take 9) 4 _ hname []
    (wide name)
  exact Option.bind_eq_some_iff.mpr ⟨_, hnext, Option.bind_eq_some_iff.mpr ⟨_, hend,
    Option.bind_eq_some_iff.mpr ⟨_, hallocation, Option.bind_eq_some_iff.mpr ⟨_, hattributes,
      Option.map_eq_some_iff.mpr ⟨_, decodeName_record hlength (length_encode _), rfl⟩⟩⟩⟩⟩

variable {entry : DirEntry}

theorem decodeFile_directoryRecord (h : 2 * entry.name.length < 2 ^ 32) :
    decodeFile fileDirectoryInformation (directoryRecord entry) =
      some (.file 0 entry.size.toNat entry.size.toNat (attributes entry.isDirectory) (widenString entry.name)) := by
  have hwide : (widenString entry.name).length = entry.name.length := List.length_map ..
  have hbytes : nameBytes entry = 2 * (widenString entry.name).length := by rw [nameBytes, u32_eq h, hwide]
  have hattributes : attributes entry.isDirectory < 2 ^ 32 := by cases entry.isDirectory <;> decide
  rw [directoryRecord, hbytes, ← length_wide, List.take_length, length_wide]
  exact decodeFile_encode entry.size.isLt hattributes (by rwa [hwide])

/-- The record of a directory entry decodes by the layout of its class only if that is the first. -/
theorem decodeFile_iff (hclass : AcceptedFile infoClass) (entry : DirEntry) :
    directorySize + nameBytes entry < 2 ^ 32 ∧ decodeFile infoClass (directoryRecord entry) =
        some (.file 0 entry.size.toNat entry.size.toNat (attributes entry.isDirectory) (widenString entry.name)) ↔
      infoClass = fileDirectoryInformation ∧ 0x40 + 2 * (widenString entry.name).length < 2 ^ 32 := by
  have hwide : (widenString entry.name).length = entry.name.length := List.length_map ..
  have hsize : directorySize = 0x40 := rfl
  rw [hwide]
  constructor
  · rintro ⟨hneeded, h⟩
    obtain ⟨_, -, h⟩ := Option.bind_eq_some_iff.mp h
    obtain ⟨_, -, h⟩ := Option.bind_eq_some_iff.mp h
    obtain ⟨_, -, h⟩ := Option.bind_eq_some_iff.mp h
    obtain ⟨_, -, h⟩ := Option.bind_eq_some_iff.mp h
    obtain ⟨name, hname, heq⟩ := Option.map_eq_some_iff.mp h
    obtain ⟨-, -, -, -, rfl⟩ := Contents.file.inj heq
    have hlength := length_of_decodeName hname
    obtain ⟨hbytes, hunits⟩ := length_directoryRecord entry
    rw [hwide] at hlength
    rcases hclass with rfl | rfl | rfl
    · have hat : fileNameAt fileDirectoryInformation = 0x40 := rfl
      exact ⟨rfl, by omega⟩
    · have hat : fileNameAt fileBothDirectoryInformation = 0x5e := rfl
      omega
    · have hat : fileNameAt fileFullDirectoryInformation = 0x44 := rfl
      omega
  · rintro ⟨rfl, hfits⟩
    have hbytes : nameBytes entry = 2 * entry.name.length := u32_eq (by omega)
    exact ⟨by rw [hbytes, hsize]; exact hfits, decodeFile_directoryRecord (by omega)⟩

variable {restartScan : Bool}

/-- One step of the scan: an entry that fits is written, and the position goes on. -/
theorem queryDirectoryFile_entry {fs : Filesystem} {host : FileHost} (hclass : AcceptedFile infoClass)
    (hentry : (fs.listDir host.path)[(host.restarted restartScan).position]? = some entry) (length : BitVec 32) :
    queryDirectoryFile fs (some host) infoClass length restartScan =
      if length.toNat < directorySize + nameBytes entry then
        (⟨.bufferTooSmall, 0, []⟩, some (host.restarted restartScan))
      else (⟨.success, directorySize + nameBytes entry, directoryRecord entry⟩,
        some { host with position := (host.restarted restartScan).position + 1 }) := by
  have hpath : (host.restarted restartScan).path = host.path := by
    unfold FileHost.restarted
    split_ifs <;> rfl
  rw [queryDirectoryFile]
  dsimp only
  rw [if_neg (not_not.mpr hclass), hpath, hentry]

theorem record_queryDirectoryFile {host : FileHost} (hclass : AcceptedFile infoClass)
    (hentry : (sys.fs.listDir host.path)[(host.restarted restartScan).position]? = some entry) (buffer : Addr)
    (length : BitVec 32) : (Request.queryDirectoryFile host infoClass restartScan).record sys buffer length =
      if length.toNat < directorySize + nameBytes entry then none else some (directoryRecord entry) := by
  have hreply := queryDirectoryFile_entry hclass hentry length
  by_cases hlength : length.toNat < directorySize + nameBytes entry
  · rw [if_pos hlength] at hreply ⊢
    rw [Request.record, hreply]
    rfl
  · rw [if_neg hlength] at hreply ⊢
    rw [Request.record, hreply]
    rfl

theorem matches_queryDirectoryFile {host : FileHost} (hclass : AcceptedFile infoClass)
    (hentry : (sys.fs.listDir host.path)[(host.restarted restartScan).position]? = some entry) :
    Matches sys (.queryDirectoryFile host infoClass restartScan) contents ↔
      directorySize + nameBytes entry < 2 ^ 32 ∧ decodeFile infoClass (directoryRecord entry) = some contents := by
  have hrecord := record_queryDirectoryFile hclass hentry
  constructor
  · rintro ⟨⟨buffer, length, hwritten⟩, hdecodes⟩
    have hlong : ¬ length.toNat < directorySize + nameBytes entry := by
      intro hshort
      rw [hrecord, if_pos hshort] at hwritten
      exact hwritten rfl
    refine ⟨Nat.lt_of_le_of_lt (Nat.not_lt.mp hlong) length.isLt, hdecodes buffer length _ ?_⟩
    rw [hrecord, if_neg hlong]
  · rintro ⟨hneeded, hdecode⟩
    refine ⟨⟨0, BitVec.allOnes 32, ?_⟩, fun buffer length bs hbs => ?_⟩
    · rw [hrecord, if_neg (by rw [BitVec.toNat_allOnes]; omega)]
      nofun
    · rw [hrecord] at hbs
      split_ifs at hbs
      obtain rfl := Option.some.inj hbs
      exact hdecode

/-! ## All classes -/

/-- **Records match their class** exactly when the class has the layout that the handler writes, and the sizes fit:
the node class of a key and the full and both classes of a directory never do. -/
theorem matches_iff (sys : System) {req : Request} {contents : Contents} (h : req.stands sys = some contents) :
    Matches sys req contents ↔ req.OwnLayout ∧ contents.Fits := by
  cases req with
  | queryKey host infoClass =>
    rw [Request.stands] at h
    split_ifs at h with hname hfull
    · obtain rfl := Option.some.inj h
      refine (matches_writeInfo fun buffer length => ?_).trans (decodeKey_keyResponse hname host.name)
      have hreply : queryKey sys.reg (some host) infoClass buffer length =
          writeInfo (keyResponse host.name) buffer length := if_pos hname
      rw [Request.record, hreply]
    · subst hfull
      obtain rfl := Option.some.inj h
      have hown : keyFullInformation ≠ keyNodeInformation := by decide
      refine (matches_writeInfo fun buffer length => ?_).trans
        ((decodeKey_fullResponse sys.reg host rfl rfl rfl rfl rfl).trans (and_iff_right hown).symm)
      rfl
  | enumerateKey host index infoClass =>
    rw [Request.stands] at h
    split_ifs at h with hname
    obtain ⟨sub, hsub, rfl⟩ := Option.map_eq_some_iff.mp h
    refine (matches_writeInfo fun buffer length => ?_).trans (decodeKey_keyResponse hname (widenString sub))
    have hreply : enumerateKey sys.reg (some host) index infoClass buffer length =
        writeInfo (keyResponse (widenString sub)) buffer length := by
      rw [enumerateKey, hsub]
      exact if_neg (not_and_or.mpr (hname.imp not_not.mpr not_not.mpr))
    rw [Request.record, hreply]
  | queryDirectoryFile host infoClass restartScan =>
    rw [Request.stands] at h
    split_ifs at h with hclass
    obtain ⟨entry, hentry, rfl⟩ := Option.map_eq_some_iff.mp h
    exact (matches_queryDirectoryFile hclass hentry).trans (decodeFile_iff hclass entry)

/-! ## A key of one name -/

def oneFile : System where
  reg := State.init
  fs := ⟨[(ascii ['c', ':', '/', 'f'], some 5)], []⟩

def onDrive : FileHost := ⟨ascii ['c', ':'], 0⟩

theorem oneFile_matches : Matches oneFile (.queryDirectoryFile onDrive fileDirectoryInformation false)
    (.file 0 5 5 0x80 [0x66]) :=
  (matches_iff oneFile (by decide +kernel)).mpr ⟨rfl, by unfold Contents.Fits; decide⟩

/-- The node record of a key has its name in another place. -/
theorem node_mismatch : ¬ ∀ sys req contents, Request.stands sys req = some contents → Matches sys req contents := by
  intro hall
  have h := hall ⟨State.init, ⟨[], []⟩⟩ (.queryKey ⟨0, ascii ['a', 'b', 'c', 'd']⟩ keyNodeInformation) _ rfl
  have hdecodes := h.decodes 0x1000 0x18 _ rfl
  revert hdecodes
  decide +kernel

end Kernemul.InformationClasses
