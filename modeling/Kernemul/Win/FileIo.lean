import Kernemul.Lib.Bytes
import Kernemul.Lib.Run
import Kernemul.Win.FileSystem

/-!
# Reading and writing files (`NtCreateFile`, `NtReadFile`, `NtWriteFile`, `NtClose`)

A handle holds a file of its own accord: opening to overwrite puts a new file under the path and leaves the handles that
are open with the old one. A directory is opened as a file that is nobody else's. Host memory is not exhausted, but a
file does not grow beyond what a vector can hold.
-/

namespace Kernemul.FileIo

open Text FileSystem Bytes

structure FileHost where
  file : FileId
  path : Str
  position : Nat
  deriving DecidableEq

structure State where
  fs : FileSystem.State
  handles : AList fun _ : Nat => FileHost

inductive Status
  | success
  | invalidHandle
  | invalidParameter
  | endOfFile
  | objectNameInvalid
  | objectNameNotFound
  | objectNameCollision
  | fileIsADirectory
  | notADirectory
  | insufficientResources
  | unsuccessful
  deriving DecidableEq, Repr

inductive CreateResult
  | superseded
  | opened
  | created
  | overwritten
  deriving DecidableEq, Repr

/-- What a call answers: an open says what it did, a read delivers bytes. -/
structure Outcome where
  status : Status
  result : CreateResult := .opened
  data : List UInt8 := []
  deriving DecidableEq, Repr

def fileSupersede : BitVec 32 := 0
def fileOpen : BitVec 32 := 1
def fileCreate : BitVec 32 := 2
def fileOpenIf : BitVec 32 := 3
def fileOverwrite : BitVec 32 := 4
def fileOverwriteIf : BitVec 32 := 5

def fileDirectoryFile : BitVec 32 := 1
def fileNonDirectoryFile : BitVec 32 := 0x40

def fileUseFilePointerPosition : BitVec 64 := -2
def fileWriteToEndOfFile : BitVec 64 := -1

/-! ## Opening -/

/-- A file object and a handle for it, if there is room for the object and somewhere to put the handle. -/
def State.bind (s : State) (object : Bool) (handle : Option Nat) (file : FileId) (path : Str) (result : CreateResult) :
    State × Outcome :=
  if ¬ object then (s, { status := .insufficientResources })
  else
    match handle with
    | none => (s, { status := .success, result })
    | some h => ({ s with handles := s.handles.insert h ⟨file, path, 0⟩ }, { status := .success, result })

def disposed (fs : FileSystem.State) (path : Str) (existed : Bool) (disposition : BitVec 32) :
    Except Status (Option FileId × FileSystem.State × CreateResult) :=
  let opened := (openFile fs path, fs, CreateResult.opened)
  let created (result : CreateResult) := (some (create fs path).1, (create fs path).2, result)
  if disposition = fileOpen then if existed then .ok opened else .error .objectNameNotFound
  else if disposition = fileCreate then if existed then .error .objectNameCollision else .ok (created .created)
  else if disposition = fileOpenIf then .ok (if existed then opened else created .created)
  else if disposition = fileOverwrite then if existed then .ok (created .overwritten) else .error .objectNameNotFound
  else if disposition = fileSupersede ∨ disposition = fileOverwriteIf then
    .ok (created (if existed then if disposition = fileSupersede then .superseded else .overwritten else .created))
  else .error .invalidParameter

/-- `open_file`; `object` and `handle` are what `create_object` and `create_handle` come to. -/
def openPath (s : State) (path : Str) (disposition createOptions : BitVec 32) (object : Bool) (handle : Option Nat) :
    State × Outcome :=
  if path = [] then (s, { status := .objectNameInvalid })
  else
    let isDirectory := dirExists s.fs path
    let existed := exists? s.fs path || isDirectory
    if existed ∧ isDirectory ∧ createOptions &&& fileNonDirectoryFile ≠ 0 then (s, { status := .fileIsADirectory })
    else if existed ∧ ¬ isDirectory ∧ createOptions &&& fileDirectoryFile ≠ 0 then (s, { status := .notADirectory })
    else if isDirectory then
      let (file, fs) := s.fs.makeFile []
      { s with fs }.bind object handle file path .opened
    else
      match disposed s.fs path existed disposition with
      | .error status => (s, { status })
      | .ok (none, fs, _) => ({ s with fs }, { status := .unsuccessful })
      | .ok (some file, fs, result) => { s with fs }.bind object handle file path result

/-! ## Reading and writing -/

def fileOffset (byteOffset : Option (BitVec 64)) (position : Nat) : Nat :=
  match byteOffset with
  | none => position
  | some value =>
    if value = fileUseFilePointerPosition ∨ value = fileWriteToEndOfFile then position
    else if value.toInt < 0 then position else value.toNat

def State.setPosition (s : State) (handle : Nat) (host : FileHost) (position : Nat) : State :=
  { s with handles := s.handles.insert handle { host with position } }

/-- `buffer` says that the pointer is not null. -/
def readFile (s : State) (handle : Nat) (buffer : Bool) (length : BitVec 32) (byteOffset : Option (BitVec 64)) :
    State × Outcome :=
  match s.handles.lookup handle with
  | none => (s, { status := .invalidHandle })
  | some host =>
    if ¬ buffer ∨ length = 0 then (s, { status := .invalidParameter })
    else
      let data := s.fs.data host.file
      let offset := fileOffset byteOffset host.position
      if data.length ≤ offset then (s, { status := .endOfFile })
      else
        let copied := min length.toNat (data.length - offset)
        (s.setPosition handle host (offset + copied), { status := .success, data := (data.drop offset).take copied })

def maxSize : Nat := 2 ^ 63 - 1

def resize (data : List UInt8) (size : Nat) : List UInt8 := data.take size ++ List.replicate (size - data.length) 0

/-- What becomes of the bytes of a file; there is no result where a vector cannot hold them. -/
def overwrite (current : List UInt8) (offset : Nat) (bytes : List UInt8) : Option (List UInt8) :=
  let size := (offset + bytes.length) % 2 ^ 64
  if current.length < size then if maxSize < size then none else patch (resize current size) offset bytes
  else patch current offset bytes

def State.setData (s : State) (file : FileId) (data : List UInt8) : State :=
  { s with fs := { s.fs with data := Function.update s.fs.data file data } }

/-- `bytes` is what the buffer holds. -/
def writeFile (s : State) (handle : Nat) (buffer : Bool) (bytes : List UInt8) (byteOffset : Option (BitVec 64)) :
    Option (State × Outcome) :=
  match s.handles.lookup handle with
  | none => some (s, { status := .invalidHandle })
  | some host =>
    if ¬ buffer ∨ bytes = [] then some (s, { status := .invalidParameter })
    else
      let offset := fileOffset byteOffset host.position
      (overwrite (s.fs.data host.file) offset bytes).map fun data =>
        ((s.setData host.file data).setPosition handle host ((offset + bytes.length) % 2 ^ 64), { status := .success })

def closeHandle (s : State) (handle : Nat) : State × Outcome :=
  match s.handles.lookup handle with
  | none => (s, { status := .invalidHandle })
  | some _ => ({ s with handles := s.handles.erase handle }, { status := .success })

/-! ## Calls -/

inductive Call
  | create (name : Str) (disposition createOptions : BitVec 32) (object : Bool) (handle : Option Nat)
  | read (handle : Nat) (buffer : Bool) (length : BitVec 32) (byteOffset : Option (BitVec 64))
  | write (handle : Nat) (buffer : Bool) (bytes : List UInt8) (byteOffset : Option (BitVec 64))
  | close (handle : Nat)

def State.answer (s : State) : Call → Option (State × Outcome)
  | .create name disposition createOptions object handle =>
    if handle.any fun h => h ∈ s.handles then none
    else some (openPath s (normalize name) disposition createOptions object handle)
  | .read handle buffer length byteOffset => some (readFile s handle buffer length byteOffset)
  | .write handle buffer bytes byteOffset => writeFile s handle buffer bytes byteOffset
  | .close handle => some (closeHandle s handle)

/-! ## One byte array per path -/

/-- What files are for: a byte array for every path, and for every handle the path and a position. -/
structure Spec where
  contents : Str → List UInt8
  handles : AList fun _ : Nat => Str × Nat

/-- The bytes at an offset are the new ones, and zero where nothing was written. -/
def written (data : List UInt8) (offset : Nat) (bytes : List UInt8) : List UInt8 :=
  (List.range (max data.length (offset + bytes.length))).map fun i =>
    if offset ≤ i ∧ i < offset + bytes.length then bytes.getD (i - offset) 0 else data.getD i 0

/-- The offset that is given, or else the position; the sentinel for the end is for writes. -/
def Spec.offset (byteOffset : Option (BitVec 64)) (position size : Nat) : Nat :=
  match byteOffset with
  | none => position
  | some value =>
    if value = fileWriteToEndOfFile then size else if value.toInt < 0 then position else value.toNat

def Spec.read (a : Spec) (handle : Nat) (buffer : Bool) (length : BitVec 32) (byteOffset : Option (BitVec 64)) :
    Spec × Outcome :=
  match a.handles.lookup handle with
  | none => (a, { status := .invalidHandle })
  | some (path, position) =>
    if ¬ buffer ∨ length = 0 then (a, { status := .invalidParameter })
    else
      let data := a.contents path
      let offset := Spec.offset byteOffset position position
      if data.length ≤ offset then (a, { status := .endOfFile })
      else
        let bytes := (data.drop offset).take length.toNat
        ({ a with handles := a.handles.insert handle (path, offset + bytes.length) },
          { status := .success, data := bytes })

def Spec.write (a : Spec) (handle : Nat) (buffer : Bool) (bytes : List UInt8) (byteOffset : Option (BitVec 64)) :
    Spec × Outcome :=
  match a.handles.lookup handle with
  | none => (a, { status := .invalidHandle })
  | some (path, position) =>
    if ¬ buffer ∨ bytes = [] then (a, { status := .invalidParameter })
    else
      let data := a.contents path
      let offset := Spec.offset byteOffset position data.length
      (⟨Function.update a.contents path (written data offset bytes),
        a.handles.insert handle (path, offset + bytes.length)⟩, { status := .success })

/-- An open empties the array of its path unless it says that it just opened it. -/
def Spec.opened (a : Spec) (path : Str) (result : CreateResult) : Spec :=
  { a with contents := if result = .opened then a.contents else Function.update a.contents path [] }

def Spec.create (a : Spec) (path : Str) (handle : Option Nat) (o : Outcome) : Spec :=
  if o.status ≠ .success then a
  else
    match handle with
    | none => a.opened path o.result
    | some h => { a.opened path o.result with handles := a.handles.insert h (path, 0) }

def Spec.step (a : Spec) (o : Outcome) : Call → Option Spec
  | .create name _ _ _ handle => some (a.create (normalize (normalize name)) handle o)
  | .read handle buffer length byteOffset =>
    let (a, expected) := a.read handle buffer length byteOffset
    if o = expected then some a else none
  | .write handle buffer bytes byteOffset =>
    let (a, expected) := a.write handle buffer bytes byteOffset
    if o = expected then some a else none
  | .close handle =>
    if o.status = (if handle ∈ a.handles then .success else .invalidHandle) then
      some { a with handles := a.handles.erase handle }
    else none

/-- The files and handles are the arrays, under every path and to every handle. -/
structure Refines (s : State) (a : Spec) : Prop where
  stored : ∀ path file, s.fs.files.lookup path = some file → s.fs.data file = a.contents path
  absent : ∀ path, path ∉ s.fs.files → a.contents path = []
  handles : ∀ h, a.handles.lookup h = (s.handles.lookup h).map fun host => (Text.normalize host.path, host.position)
  held : ∀ h host, s.handles.lookup h = some host → s.fs.data host.file = a.contents (Text.normalize host.path)

/-- The files and what the arrays make of the same calls, if they allow what was answered. -/
abbrev Both := State × Option Spec

def step : Both → Call → Option Both
  | (s, a), call => (s.answer call).map fun (s', o) => (s', a.bind fun a => a.step o call)

def Refined (st : Both) : Prop := ∃ a, st.2 = some a ∧ Refines st.1 a

inductive Boot
  | load (path : Str) (bytes : { bytes : List UInt8 // bytes.length ≤ maxSize })
  | link (source target : Str)
  | createDirectory (path : Str)

def boot (fs : FileSystem.State) : Boot → FileSystem.State
  | .load path bytes => loadFile fs path bytes
  | .link source target => (link fs source target).2
  | .createDirectory path => createDirectory fs path

def contents (fs : FileSystem.State) (path : Str) : List UInt8 := (fs.files.lookup path).elim [] fs.data

def start (boots : List Boot) : Both :=
  let fs := boots.foldl boot FileSystem.State.init
  (⟨fs, ∅⟩, some ⟨contents fs, ∅⟩)

/-! ## The condition -/

def OpensDirectory (s : State) (path : Str) (createOptions : BitVec 32) : Prop :=
  path ≠ [] ∧ dirExists s.fs path ∧ createOptions &&& fileNonDirectoryFile = 0

def Replaces (s : State) (path : Str) (disposition createOptions : BitVec 32) : Prop :=
  path ≠ [] ∧ ¬ dirExists s.fs path ∧ exists? s.fs path ∧ createOptions &&& fileDirectoryFile = 0 ∧
    (disposition = fileOverwrite ∨ disposition = fileSupersede ∨ disposition = fileOverwriteIf)

def Unopened (s : State) (path : Str) : Prop := ∀ h host, s.handles.lookup h = some host → normalize host.path ≠ path

/-- The file of a handle is stored under its path alone, and is that of all handles on this path and of no others. -/
def Sole (s : State) (host : FileHost) : Prop :=
  (∀ path, s.fs.files.lookup path = some host.file ↔ path = normalize host.path) ∧
    ∀ h host', s.handles.lookup h = some host' → (host'.file = host.file ↔ normalize host'.path = normalize host.path)

/-- A file that is replaced is empty or not open; what is opened as a directory has no bytes as a file; a write to the
end of the file is made there; and a write that changes anything is made to the one file of its path. -/
def CallOk (s : State) : Call → Prop
  | .create name disposition createOptions object handle =>
    let path := normalize name
    (OpensDirectory s path createOptions → object → handle.isSome → contents s.fs (normalize path) = []) ∧
      (Replaces s path disposition createOptions →
        contents s.fs (normalize path) = [] ∨ object ∧ Unopened s (normalize path))
  | .write handle buffer bytes byteOffset => ∀ host, s.handles.lookup handle = some host → buffer → bytes ≠ [] →
    (byteOffset = some fileWriteToEndOfFile → host.position = (s.fs.data host.file).length) ∧
      (slice (s.fs.data host.file) (fileOffset byteOffset host.position) bytes.length = some bytes ∨ Sole s host)
  | .read .. => True
  | .close _ => True

/-! ## Bytes -/

theorem length_written (data : List UInt8) (offset : Nat) (bytes : List UInt8) :
    (written data offset bytes).length = max data.length (offset + bytes.length) := by
  rw [written, List.length_map, List.length_range]

theorem getElem?_written (data : List UInt8) (offset : Nat) (bytes : List UInt8) (i : Nat) :
    (written data offset bytes)[i]? = if i < max data.length (offset + bytes.length) then
      some (if offset ≤ i ∧ i < offset + bytes.length then bytes.getD (i - offset) 0 else data.getD i 0) else none := by
  rw [written, List.getElem?_map]
  by_cases hi : i < max data.length (offset + bytes.length)
  · rw [if_pos hi, List.getElem?_range hi]
    rfl
  · rw [if_neg hi, List.getElem?_eq_none (by rw [List.length_range]; exact Nat.not_lt.mp hi)]
    rfl

theorem length_resize (data : List UInt8) (size : Nat) : (resize data size).length = size := by
  rw [resize, List.length_append, List.length_take, List.length_replicate]
  omega

variable {data : List UInt8}

theorem getElem?_resize {size i : Nat} (hsize : data.length ≤ size) (hi : i < size) :
    (resize data size)[i]? = some (data.getD i 0) := by
  rw [resize, List.take_of_length_le hsize, List.getElem?_append]
  split_ifs with hlt
  · rw [List.getD_eq_getElem?_getD, List.getElem?_eq_getElem hlt]
    rfl
  · rw [List.getElem?_replicate, if_pos (by omega), List.getD_eq_getElem?_getD,
      List.getElem?_eq_none (Nat.not_lt.mp hlt)]
    rfl

variable {bytes : List UInt8}

theorem patch_eq_written {grown m : List UInt8} {offset : Nat}
    (hgrown : ∀ i < grown.length, grown[i]? = some (data.getD i 0))
    (hlength : grown.length = max data.length (offset + bytes.length)) (h : patch grown offset bytes = some m) :
    m = written data offset bytes := by
  have hm := length_patch h
  refine List.ext_getElem? fun i => ?_
  rw [getElem?_written, ← hlength]
  split_ifs with hi hin
  · obtain ⟨k, rfl⟩ := Nat.exists_eq_add_of_le hin.1
    have hk : k < bytes.length := by omega
    rw [getElem?_patch_add h hk, Nat.add_sub_cancel_left, List.getD_eq_getElem?_getD, List.getElem?_eq_getElem hk]
    rfl
  · rw [getElem?_patch_of_out h (by omega), hgrown i hi]
  · exact List.getElem?_eq_none (by omega)

theorem getElem?_getD {i : Nat} (hi : i < data.length) : data[i]? = some (data.getD i 0) := by
  rw [List.getD_eq_getElem?_getD, List.getElem?_eq_getElem hi]
  rfl

theorem overwrite_eq {current : List UInt8} {offset : Nat}
    (hcurrent : current.length ≤ maxSize) (h : overwrite current offset bytes = some data) :
    data = written current offset bytes ∧ offset + bytes.length ≤ maxSize := by
  have hmax : maxSize < 2 ^ 64 := by decide
  unfold overwrite at h
  dsimp only at h
  split_ifs at h with hgrows hlarge
  · have hfits := patch_isSome.mp (Option.isSome_iff_exists.mpr ⟨data, h⟩)
    rw [length_resize] at hfits
    have hsum : (offset + bytes.length) % 2 ^ 64 = offset + bytes.length := by
      have := Nat.mod_le (offset + bytes.length) (2 ^ 64)
      omega
    rw [hsum] at h hgrows hlarge
    refine ⟨patch_eq_written (fun i hi => ?_) ?_ h, Nat.not_lt.mp hlarge⟩
    · rw [length_resize] at hi
      exact getElem?_resize hgrows.le hi
    · rw [length_resize]
      omega
  · have hfits := patch_isSome.mp (Option.isSome_iff_exists.mpr ⟨data, h⟩)
    refine ⟨patch_eq_written (fun i hi => getElem?_getD hi) ?_ h, by omega⟩
    omega

theorem written_eq_iff {offset : Nat} (hne : bytes ≠ []) :
    written data offset bytes = data ↔ slice data offset bytes.length = some bytes := by
  have hpos := List.length_pos_of_ne_nil hne
  constructor
  · intro h
    have hle : offset + bytes.length ≤ data.length := by
      have hlength := congrArg List.length h
      rw [length_written] at hlength
      omega
    rw [slice_eq_some hle]
    refine congrArg some (List.ext_getElem? fun i => ?_)
    by_cases hi : i < bytes.length
    · rw [List.getElem?_take_of_lt hi, List.getElem?_drop, ← h, getElem?_written, if_pos (by omega), if_pos (by omega),
        Nat.add_sub_cancel_left]
      exact (getElem?_getD hi).symm
    · rw [List.getElem?_eq_none (Nat.not_lt.mp hi), List.getElem?_eq_none]
      rw [List.length_take]
      omega
  · intro h
    have hle := slice_inside h
    rw [slice_eq_some hle] at h
    refine List.ext_getElem? fun i => ?_
    rw [getElem?_written, Nat.max_eq_left hle]
    split_ifs with hi hin
    · obtain ⟨k, rfl⟩ := Nat.exists_eq_add_of_le hin.1
      have hk : k < bytes.length := by omega
      rw [Nat.add_sub_cancel_left, ← getElem?_getD hk, ← Option.some.inj h, List.getElem?_take_of_lt hk,
        List.getElem?_drop]
    · exact (getElem?_getD hi).symm
    · exact (List.getElem?_eq_none (Nat.not_lt.mp hi)).symm

/-! ## Positions and data -/

theorem lookup_setPosition (s : State) (h : Nat) (host : FileHost) (p h' : Nat) :
    (s.setPosition h host p).handles.lookup h' = if h' = h then some { host with position := p }
      else s.handles.lookup h' := by
  rw [State.setPosition]
  split_ifs with heq
  · rw [heq]
    exact AList.lookup_insert _
  · exact AList.lookup_insert_ne heq

variable {s : State} {h : Nat} {host : FileHost}

theorem refines_setPosition_iff {handles : AList fun _ : Nat => Str × Nat}
    (hlook : s.handles.lookup h = some host) (ha : handles.lookup h = some (normalize host.path, host.position))
    (contents : Str → List UInt8) (p q : Nat) :
    Refines (s.setPosition h host p) ⟨contents, handles.insert h (normalize host.path, q)⟩ ↔
      p = q ∧ Refines s ⟨contents, handles⟩ := by
  constructor
  · intro hr
    refine ⟨?_, ⟨hr.stored, hr.absent, fun h' => ?_, fun h' host' hlook' => ?_⟩⟩
    · have hpos := hr.handles h
      rw [lookup_setPosition, if_pos rfl, AList.lookup_insert] at hpos
      exact (congrArg Prod.snd (Option.some.inj hpos)).symm
    · by_cases heq : h' = h
      · rw [heq, ha, hlook]
        rfl
      · have hother := hr.handles h'
        rwa [lookup_setPosition, if_neg heq, AList.lookup_insert_ne heq] at hother
    · by_cases heq : h' = h
      · obtain rfl := Option.some.inj (hlook'.symm.trans (heq ▸ hlook))
        exact hr.held h' { host' with position := p } (by rw [lookup_setPosition, if_pos heq])
      · exact hr.held h' host' (by rw [lookup_setPosition, if_neg heq, hlook'])
  · rintro ⟨rfl, hr⟩
    refine ⟨hr.stored, hr.absent, fun h' => ?_, fun h' host' hlook' => ?_⟩
    · rw [lookup_setPosition]
      split_ifs with heq
      · rw [heq, AList.lookup_insert]
        rfl
      · rw [AList.lookup_insert_ne heq]
        exact hr.handles h'
    · rw [lookup_setPosition] at hlook'
      split_ifs at hlook' with heq
      · obtain rfl := Option.some.inj hlook'
        exact hr.held h host hlook
      · exact hr.held h' host' hlook'

theorem data_setData (s : State) (file file' : FileId) (data : List UInt8) :
    (s.setData file data).fs.data file' = if file' = file then data else s.fs.data file' :=
  Function.update_apply ..

variable {a : Spec}

theorem refines_setData_iff (hr : Refines s a) (hlook : s.handles.lookup h = some host) (hne : data ≠ []) :
    Refines (s.setData host.file data) { a with contents := Function.update a.contents (normalize host.path) data } ↔
      data = s.fs.data host.file ∨ Sole s host := by
  have hheld := hr.held h host hlook
  constructor
  · intro hr'
    by_cases heq : data = s.fs.data host.file
    · exact .inl heq
    · have hnew : ∀ path file, (s.setData host.file data).fs.data file =
          Function.update a.contents (normalize host.path) data path →
          s.fs.data file = a.contents path → (file = host.file ↔ path = normalize host.path) := by
        intro path file hdata hold
        rw [data_setData] at hdata
        by_cases hfile : file = host.file <;> by_cases hpath : path = normalize host.path
        · exact iff_of_true hfile hpath
        · rw [if_pos hfile, Function.update_of_ne hpath, ← hold, hfile] at hdata
          exact absurd hdata heq
        · rw [if_neg hfile, hpath, Function.update_self, hold, hpath, ← hheld] at hdata
          exact absurd hdata.symm heq
        · exact iff_of_false hfile hpath
      refine .inr ⟨fun path => ⟨fun hstored => ?_, ?_⟩, fun h' host' hlook' => ?_⟩
      · exact (hnew path host.file (hr'.stored path host.file hstored) (hr.stored path host.file hstored)).mp rfl
      · rintro rfl
        by_cases hmem : normalize host.path ∈ s.fs.files
        · obtain ⟨file, hfile⟩ := Option.isSome_iff_exists.mp (AList.lookup_isSome.mpr hmem)
          have := (hnew _ file (hr'.stored _ file hfile) (hr.stored _ file hfile)).mpr rfl
          rwa [this] at hfile
        · exact absurd ((Function.update_self ..).symm.trans (hr'.absent _ hmem)) hne
      · exact hnew _ host'.file (hr'.held h' host' hlook') (hr.held h' host' hlook')
  · rintro (rfl | hsole)
    · rw [hheld, Function.update_eq_self]
      refine ⟨fun path file hstored => ?_, hr.absent, hr.handles, fun h' host' hlook' => ?_⟩
      all_goals
        rw [data_setData]
        split_ifs with hfile
      · rw [← hheld, ← hfile]
        exact hr.stored path file hstored
      · exact hr.stored path file hstored
      · rw [← hheld, ← hfile]
        exact hr.held h' host' hlook'
      · exact hr.held h' host' hlook'
    · refine ⟨fun path file hstored => ?_, fun path hmem => ?_, hr.handles, fun h' host' hlook' => ?_⟩
      · rw [data_setData]
        refine Eq.trans ?_ (Function.update_apply ..).symm
        by_cases hpath : path = normalize host.path
        · have := hstored.symm.trans ((hsole.1 path).mpr hpath)
          rw [if_pos (Option.some.inj this), if_pos hpath]
        · have hfile : file ≠ host.file := by
            rintro rfl
            exact hpath ((hsole.1 path).mp hstored)
          rw [if_neg hpath, if_neg hfile]
          exact hr.stored path file hstored
      · have hpath : path ≠ normalize host.path := fun hpath =>
          hmem (AList.lookup_isSome.mp (Option.isSome_iff_exists.mpr ⟨_, (hsole.1 path).mpr hpath⟩))
        exact (Function.update_of_ne hpath ..).trans (hr.absent path hmem)
      · rw [data_setData]
        refine Eq.trans ?_ (Function.update_apply ..).symm
        exact (if_congr (hsole.2 h' host' hlook') rfl (hr.held h' host' hlook'))

/-! ## Opening -/

/-- What an open comes to: it is refused, or it goes on with a directory, with the file that is stored, or with one that
is made for it. -/
inductive Opening (s : State) (path : Str) (disposition createOptions : BitVec 32) (object : Bool)
    (handle : Option Nat) : State × Outcome → Prop
  | refused (status : Status) (hstatus : status ≠ .success) (hdirectory : ¬ OpensDirectory s path createOptions)
      (hreplaces : ¬ Replaces s path disposition createOptions) :
      Opening s path disposition createOptions object handle (s, { status })
  | directory (hdirectory : OpensDirectory s path createOptions)
      (hreplaces : ¬ Replaces s path disposition createOptions) :
      Opening s path disposition createOptions object handle
        ({ s with fs := (s.fs.makeFile []).2 }.bind object handle s.fs.next path .opened)
  | stored (file : FileId) (hfile : s.fs.files.lookup (normalize path) = some file)
      (hdirectory : ¬ OpensDirectory s path createOptions) (hreplaces : ¬ Replaces s path disposition createOptions) :
      Opening s path disposition createOptions object handle (s.bind object handle file path .opened)
  | made (result : CreateResult) (hresult : result ≠ .opened) (hdirectory : ¬ OpensDirectory s path createOptions)
      (hreplaces : Replaces s path disposition createOptions ↔ normalize path ∈ s.fs.files) :
      Opening s path disposition createOptions object handle
        ({ s with fs := (create s.fs path).2 }.bind object handle s.fs.next path result)

/-- Without a directory, a file is opened or made, as the disposition says. -/
theorem disposed_cases {fs : FileSystem.State} {path : Str} {disposition : BitVec 32}
    {r : Except Status (Option FileId × FileSystem.State × CreateResult)}
    (h : disposed fs path (exists? fs path) disposition = r) :
    (∃ status, r = .error status ∧ status ≠ .success ∧ (exists? fs path →
      ¬ (disposition = fileOverwrite ∨ disposition = fileSupersede ∨ disposition = fileOverwriteIf))) ∨
    (∃ file, r = .ok (some file, fs, .opened) ∧ fs.files.lookup (normalize path) = some file ∧
      ¬ (disposition = fileOverwrite ∨ disposition = fileSupersede ∨ disposition = fileOverwriteIf)) ∨
    ∃ result, r = .ok (some fs.next, (create fs path).2, result) ∧ result ≠ .opened ∧ (exists? fs path →
      disposition = fileOverwrite ∨ disposition = fileSupersede ∨ disposition = fileOverwriteIf) := by
  have hopen : exists? fs path →
      ∃ file, openFile fs path = some file ∧ fs.files.lookup (normalize path) = some file := by
    intro he
    obtain ⟨file, hfile⟩ := Option.isSome_iff_exists.mp (AList.lookup_isSome.mpr (of_decide_eq_true he))
    exact ⟨file, hfile, hfile⟩
  unfold disposed at h
  dsimp only at h
  subst h
  split_ifs with hopens he hcreates he hopenIf he hover he hboth he hsuper
  · obtain ⟨file, hfile, hlook⟩ := hopen he
    exact .inr (.inl ⟨file, by rw [hfile], hlook, by rw [hopens]; decide⟩)
  · exact .inl ⟨_, rfl, by decide, fun h => absurd h he⟩
  · exact .inl ⟨_, rfl, by decide, fun _ => by rw [hcreates]; decide⟩
  · exact .inr (.inr ⟨_, rfl, by decide, fun h => absurd h he⟩)
  · obtain ⟨file, hfile, hlook⟩ := hopen he
    exact .inr (.inl ⟨file, by rw [hfile], hlook, by rw [hopenIf]; decide⟩)
  · exact .inr (.inr ⟨_, rfl, by decide, fun h => absurd h he⟩)
  · exact .inr (.inr ⟨_, rfl, by decide, fun _ => .inl hover⟩)
  · exact .inl ⟨_, rfl, by decide, fun h => absurd h he⟩
  · exact .inr (.inr ⟨_, rfl, by decide, fun _ => .inr hboth⟩)
  · exact .inr (.inr ⟨_, rfl, by decide, fun _ => .inr hboth⟩)
  · exact .inr (.inr ⟨_, rfl, by decide, fun h => absurd h he⟩)
  · exact .inl ⟨_, rfl, by decide, fun _ => fun hor => hor.elim hover fun h => hboth h⟩

theorem openPath_opening (s : State) (path : Str) (disposition createOptions : BitVec 32) (object : Bool)
    (handle : Option Nat) :
    Opening s path disposition createOptions object handle
      (openPath s path disposition createOptions object handle) := by
  unfold openPath
  dsimp only
  split_ifs with hempty hfileWanted hdirectoryWanted hdir
  · exact .refused _ (by decide) (fun h => h.1 hempty) fun h => h.1 hempty
  · exact .refused _ (by decide) (fun h => hfileWanted.2.2 h.2.2) fun h => h.2.1 hfileWanted.2.1
  · exact .refused _ (by decide) (fun h => hdirectoryWanted.2.1 h.2.1) fun h => hdirectoryWanted.2.2 h.2.2.2.1
  · refine .directory ⟨hempty, hdir, ?_⟩ fun h => h.2.1 hdir
    rw [hdir, Bool.or_true] at hfileWanted
    exact not_not.mp fun h => hfileWanted ⟨rfl, rfl, h⟩
  · have hplain : ∀ r, disposed s.fs path (exists? s.fs path || dirExists s.fs path) disposition = r →
        disposed s.fs path (exists? s.fs path) disposition = r := by
      intro r hr
      rwa [Bool.eq_false_of_not_eq_true hdir, Bool.or_false] at hr
    have hno : ¬ OpensDirectory s path createOptions := fun h => hdir h.2.1
    cases h : disposed s.fs path (exists? s.fs path || dirExists s.fs path) disposition with
    | error status =>
      obtain ⟨_, ⟨⟩, hstatus, hreplaces⟩ | ⟨_, ⟨⟩, _⟩ | ⟨_, ⟨⟩, _⟩ := disposed_cases (hplain _ h)
      exact .refused _ hstatus hno fun h => hreplaces h.2.2.1 h.2.2.2.2
    | ok made =>
      obtain ⟨_, ⟨⟩, _⟩ | ⟨file, ⟨⟩, hfile, hreplaces⟩ | ⟨result, ⟨⟩, hresult, hreplaces⟩ := disposed_cases (hplain _ h)
      · exact .stored file hfile hno fun h => hreplaces h.2.2.2.2
      · refine .made result hresult hno ⟨fun h => of_decide_eq_true h.2.2.1, fun hmem => ?_⟩
        have he : exists? s.fs path := decide_eq_true hmem
        refine ⟨hempty, hdir, he, not_not.mp fun hoptions => hdirectoryWanted ⟨?_, hdir, hoptions⟩, hreplaces he⟩
        rw [he, Bool.true_or]

theorem refines_insert_iff (hs : h ∉ s.handles) (ha : h ∉ a.handles) (file : FileId) (path : Str) :
    Refines { s with handles := s.handles.insert h ⟨file, path, 0⟩ }
        { a with handles := a.handles.insert h (normalize path, 0) } ↔
      Refines s a ∧ s.fs.data file = a.contents (normalize path) := by
  have hs' := AList.lookup_eq_none.mpr hs
  constructor
  · intro hr
    refine ⟨⟨hr.stored, hr.absent, fun h' => ?_, fun h' host hlook => ?_⟩, hr.held h _ (AList.lookup_insert _)⟩
    · by_cases heq : h' = h
      · rw [heq, hs', AList.lookup_eq_none.mpr ha]
        rfl
      · have hother := hr.handles h'
        rwa [AList.lookup_insert_ne heq, AList.lookup_insert_ne heq] at hother
    · have hne : h' ≠ h := by
        rintro rfl
        exact nomatch hs'.symm.trans hlook
      exact hr.held h' host ((AList.lookup_insert_ne hne).trans hlook)
  · rintro ⟨hr, hdata⟩
    refine ⟨hr.stored, hr.absent, fun h' => ?_, fun h' host hlook => ?_⟩
    · by_cases heq : h' = h
      · rw [heq, AList.lookup_insert, AList.lookup_insert]
        rfl
      · rw [AList.lookup_insert_ne heq, AList.lookup_insert_ne heq]
        exact hr.handles h'
    · by_cases heq : h' = h
      · rw [heq, AList.lookup_insert] at hlook
        obtain rfl := Option.some.inj hlook
        exact hdata
      · rw [AList.lookup_insert_ne heq] at hlook
        exact hr.held h' host hlook

theorem refines_bind_iff {handle : Option Nat}
    (hnew : ∀ h, handle = some h → h ∉ s.handles ∧ h ∉ a.handles) (object : Bool) (file : FileId) (path : Str)
    (result : CreateResult) :
    Refines (s.bind object handle file path result).1
        (a.create (normalize path) handle (s.bind object handle file path result).2) ↔
      if object then Refines s (a.opened (normalize path) result) ∧
        (handle.isSome → s.fs.data file = (a.opened (normalize path) result).contents (normalize path))
      else Refines s a := by
  cases object with
  | false => exact Iff.rfl
  | true =>
    cases handle with
    | none => exact (and_iff_left fun h => nomatch h).symm
    | some h =>
      have ⟨hs, ha⟩ := hnew h rfl
      refine (refines_insert_iff (a := a.opened (normalize path) result) hs ha file path).trans (and_congr_right' ?_)
      exact ⟨fun hdata _ => hdata, fun hdata => hdata rfl⟩

/-! ## New files -/

/-- Files are numbered in the order they are made, and are not too large. -/
structure Fresh (s : State) : Prop where
  stored : ∀ path file, s.fs.files.lookup path = some file → file < s.fs.next
  held : ∀ h host, s.handles.lookup h = some host → host.file < s.fs.next
  small : ∀ file, (s.fs.data file).length ≤ maxSize

theorem data_makeFile {fs : FileSystem.State} {file : FileId} (h : file < fs.next) (bytes : List UInt8) :
    (fs.makeFile bytes).2.data file = fs.data file := Function.update_of_ne h.ne ..

theorem data_makeFile_next (fs : FileSystem.State) (bytes : List UInt8) : (fs.makeFile bytes).2.data fs.next = bytes :=
  Function.update_self ..

theorem Refines.makeFile (hr : Refines s a) (hf : Fresh s) :
    Refines { s with fs := (s.fs.makeFile []).2 } a where
  stored path file h := (data_makeFile (hf.stored path file h) []).trans (hr.stored path file h)
  absent := hr.absent
  handles := hr.handles
  held h host hlook := (data_makeFile (hf.held h host hlook) []).trans (hr.held h host hlook)

theorem refines_create_iff (hr : Refines s a) (hf : Fresh s) (path : Str) (d : List UInt8) :
    Refines { s with fs := (create s.fs path).2 }
        { a with contents := Function.update a.contents (normalize path) d } ↔
      d = [] ∧ (a.contents (normalize path) = d ∨ Unopened s (normalize path)) := by
  constructor
  · intro hr'
    have hd : d = [] := by
      have hmade := hr'.stored (normalize path) s.fs.next (AList.lookup_insert _)
      exact ((data_makeFile_next s.fs []).symm.trans (hmade.trans (Function.update_self ..))).symm
    refine ⟨hd, or_iff_not_imp_right.mpr fun hopen => ?_⟩
    rw [Unopened] at hopen
    push Not at hopen
    obtain ⟨h, host, hlook, hpath⟩ := hopen
    have hnow := hr'.held h host hlook
    rw [hpath] at hnow
    rw [← hpath, ← hr.held h host hlook, ← data_makeFile (hf.held h host hlook) []]
    exact hnow.trans (Function.update_self ..)
  · rintro ⟨rfl, hopen⟩
    refine ⟨fun path' file hstored => ?_, fun path' hmem => ?_, hr.handles, fun h host hlook => ?_⟩
    · by_cases hpath : path' = normalize path
      · obtain rfl := Option.some.inj ((AList.lookup_insert _).symm.trans (hpath ▸ hstored))
        rw [hpath]
        exact (data_makeFile_next s.fs []).trans (Function.update_self (normalize path) [] a.contents).symm
      · have hold := (AList.lookup_insert_ne hpath).symm.trans hstored
        exact (data_makeFile (hf.stored path' file hold) []).trans
          ((hr.stored path' file hold).trans (Function.update_of_ne hpath ..).symm)
    · have hmem' := (AList.mem_insert _).not.mp hmem
      push Not at hmem'
      exact (Function.update_of_ne hmem'.1 ..).trans (hr.absent path' hmem'.2)
    · refine (data_makeFile (hf.held h host hlook) []).trans ((hr.held h host hlook).trans ?_)
      by_cases hpath : normalize host.path = normalize path
      · rw [hpath]
        refine Eq.trans ?_ (Function.update_self (normalize path) [] a.contents).symm
        exact hopen.elim id fun hopen => absurd hpath (hopen h host hlook)
      · exact (Function.update_of_ne hpath ..).symm

theorem Refines.contents_eq (hr : Refines s a) (path : Str) :
    contents s.fs path = a.contents path := by
  rw [contents]
  cases h : s.fs.files.lookup path with
  | none => exact (hr.absent path (AList.lookup_eq_none.mp h)).symm
  | some file => exact hr.stored path file h

/-- An open is one of the arrays exactly when it does not take an array of bytes from anyone. -/
theorem refines_opening_iff (hr : Refines s a) (hf : Fresh s) {path : Str}
    {disposition createOptions : BitVec 32} {object : Bool} {handle : Option Nat}
    (hnew : ∀ h, handle = some h → h ∉ s.handles ∧ h ∉ a.handles) {r : State × Outcome}
    (ho : Opening s path disposition createOptions object handle r) :
    Refines r.1 (a.create (normalize path) handle r.2) ↔
      (OpensDirectory s path createOptions → object → handle.isSome → contents s.fs (normalize path) = []) ∧
        (Replaces s path disposition createOptions →
          contents s.fs (normalize path) = [] ∨ object ∧ Unopened s (normalize path)) := by
  rw [hr.contents_eq]
  cases ho with
  | refused status hstatus hdirectory hreplaces =>
    have hsame : a.create (normalize path) handle { status } = a := if_pos hstatus
    rw [hsame]
    exact iff_of_true hr ⟨fun h => absurd h hdirectory, fun h => absurd h hreplaces⟩
  | directory hdirectory hreplaces =>
    have hr' := hr.makeFile hf
    refine (refines_bind_iff (s := { s with fs := (s.fs.makeFile []).2 }) hnew ..).trans ?_
    cases object with
    | false => exact iff_of_true hr' ⟨fun _ h => (nomatch h), fun h => absurd h hreplaces⟩
    | true =>
      constructor
      · rintro ⟨_, hdata⟩
        refine ⟨fun _ _ hhandle => ?_, fun h => absurd h hreplaces⟩
        exact (hdata hhandle).symm.trans (data_makeFile_next s.fs [])
      · intro h
        exact ⟨hr', fun hhandle => (data_makeFile_next s.fs []).trans (h.1 hdirectory rfl hhandle).symm⟩
  | stored file hfile hdirectory hreplaces =>
    rw [refines_bind_iff hnew]
    refine iff_of_true ?_ ⟨fun h => absurd h hdirectory, fun h => absurd h hreplaces⟩
    split_ifs
    · exact ⟨hr, fun _ => hr.stored _ file hfile⟩
    · exact hr
  | made result hresult hdirectory hreplaces =>
    refine (refines_bind_iff (s := { s with fs := (create s.fs path).2 }) hnew ..).trans ?_
    have habsent : ¬ Replaces s path disposition createOptions → a.contents (normalize path) = [] := fun h =>
      hr.absent _ (hreplaces.not.mp h)
    have hdata := data_makeFile_next s.fs []
    cases object with
    | false =>
      have hfailed := refines_create_iff hr hf path (a.contents (normalize path))
      rw [Function.update_eq_self] at hfailed
      refine hfailed.trans ⟨fun h => ⟨fun _ h => (nomatch h), fun _ => .inl h.1⟩, fun h => ⟨?_, .inl rfl⟩⟩
      by_cases hrep : Replaces s path disposition createOptions
      · exact (h.2 hrep).elim id fun h => nomatch h.1
      · exact habsent hrep
    | true =>
      have hopened : a.opened (normalize path) result =
          { a with contents := Function.update a.contents (normalize path) [] } := by
        rw [Spec.opened, if_neg hresult]
      rw [if_pos rfl, hopened]
      constructor
      · rintro ⟨hr', _⟩
        have := ((refines_create_iff hr hf path []).mp hr').2
        exact ⟨fun h => absurd h hdirectory, fun _ => this.imp_right fun h => ⟨rfl, h⟩⟩
      · intro h
        refine ⟨(refines_create_iff hr hf path []).mpr ⟨rfl, ?_⟩, fun _ => ?_⟩
        · by_cases hrep : Replaces s path disposition createOptions
          · exact (h.2 hrep).imp_right fun h => h.2
          · exact .inl (habsent hrep)
        · exact hdata.trans (Function.update_self (normalize path) [] a.contents).symm

/-! ## One call -/

theorem fileOffset_eq_iff (byteOffset : Option (BitVec 64)) (position size : Nat) :
    fileOffset byteOffset position = Spec.offset byteOffset position size ↔
      (byteOffset = some fileWriteToEndOfFile → position = size) := by
  cases byteOffset with
  | none => exact iff_of_true rfl fun h => nomatch h
  | some value =>
    rw [Option.some.injEq, fileOffset, Spec.offset]
    by_cases hend : value = fileWriteToEndOfFile
    · rw [if_pos (.inr hend), if_pos hend]
      exact ⟨fun h _ => h, fun h => h hend⟩
    · have hpointer : value = fileUseFilePointerPosition → value.toInt < 0 := by
        rintro rfl
        decide
      refine iff_of_true ?_ fun h => absurd h hend
      rw [if_neg hend]
      split_ifs with h₁ h₂ h₂
      · rfl
      · exact absurd (hpointer (h₁.resolve_right hend)) h₂
      · rfl
      · rfl

theorem Refines.lookup (hr : Refines s a)
    (hlook : s.handles.lookup h = some host) : a.handles.lookup h = some (normalize host.path, host.position) := by
  rw [hr.handles, hlook]
  rfl

theorem Refines.lookup_none (hr : Refines s a) (hlook : s.handles.lookup h = none) :
    a.handles.lookup h = none := by
  rw [hr.handles, hlook]
  rfl

theorem refines_read (hr : Refines s a) (handle : Nat) (buffer : Bool) (length : BitVec 32)
    (byteOffset : Option (BitVec 64)) :
    (readFile s handle buffer length byteOffset).2 = (a.read handle buffer length byteOffset).2 ∧
      Refines (readFile s handle buffer length byteOffset).1 (a.read handle buffer length byteOffset).1 := by
  unfold readFile Spec.read
  cases hlook : s.handles.lookup handle with
  | none =>
    rw [hr.lookup_none hlook]
    exact ⟨rfl, hr⟩
  | some host =>
    have ha := hr.lookup hlook
    rw [ha]
    dsimp only
    have hoffset := (fileOffset_eq_iff byteOffset host.position host.position).mpr fun _ => rfl
    rw [← hr.held handle host hlook, ← hoffset]
    split_ifs with hparam hend
    · exact ⟨rfl, hr⟩
    · exact ⟨rfl, hr⟩
    · have htake : ((s.fs.data host.file).drop (fileOffset byteOffset host.position)).take
          (min length.toNat ((s.fs.data host.file).length - fileOffset byteOffset host.position)) =
          ((s.fs.data host.file).drop (fileOffset byteOffset host.position)).take length.toNat := by
        rw [List.take_eq_take_iff, List.length_drop, Nat.min_assoc, Nat.min_self]
      refine ⟨by rw [htake], (refines_setPosition_iff hlook ha ..).mpr ⟨?_, hr⟩⟩
      rw [List.length_take, List.length_drop]

theorem refines_write_iff {s' : State} (hr : Refines s a) (hf : Fresh s) {handle : Nat} {buffer : Bool}
    {byteOffset : Option (BitVec 64)} {o : Outcome} (hw : writeFile s handle buffer bytes byteOffset = some (s', o)) :
    o = (a.write handle buffer bytes byteOffset).2 ∧
      (Refines s' (a.write handle buffer bytes byteOffset).1 ↔ CallOk s (.write handle buffer bytes byteOffset)) := by
  unfold writeFile at hw
  unfold Spec.write
  cases hlook : s.handles.lookup handle with
  | none =>
    rw [hlook] at hw
    cases hw
    rw [hr.lookup_none hlook]
    exact ⟨rfl, iff_of_true hr fun host h => nomatch hlook.symm.trans h⟩
  | some host =>
    have ha := hr.lookup hlook
    rw [hlook] at hw
    rw [ha]
    dsimp only at hw ⊢
    split_ifs at hw ⊢ with hparam
    · cases hw
      refine ⟨rfl, iff_of_true hr fun _ _ hbuffer hne => ?_⟩
      exact hparam.elim (absurd hbuffer) fun h => absurd h hne
    · rw [not_or, not_not] at hparam
      obtain ⟨data, hdata, ho⟩ := Option.map_eq_some_iff.mp hw
      cases ho
      refine ⟨rfl, ?_⟩
      obtain ⟨rfl, hfits⟩ := overwrite_eq (hf.small host.file) hdata
      have hmax : maxSize < 2 ^ 64 := by decide
      rw [Nat.mod_eq_of_lt (by omega), ← hr.held handle host hlook]
      have hne : ∀ offset, written (s.fs.data host.file) offset bytes ≠ [] := by
        intro offset h
        have hlength := congrArg List.length h
        rw [length_written] at hlength
        have := List.length_pos_of_ne_nil hparam.2
        rw [List.length_nil] at hlength
        omega
      have hsame := fileOffset_eq_iff byteOffset host.position (s.fs.data host.file).length
      refine (refines_setPosition_iff (s := s.setData host.file _) hlook ha ..).trans ?_
      rw [Nat.add_right_cancel_iff, hsame]
      refine ⟨fun ⟨hend, hdata⟩ => ?_, fun h => ?_⟩
      · intro host' hlook' _ _
        obtain rfl := Option.some.inj (hlook.symm.trans hlook')
        refine ⟨hend, ?_⟩
        rw [← hsame.mpr hend, refines_setData_iff hr hlook (hne _)] at hdata
        exact hdata.imp_left (written_eq_iff hparam.2).mp
      · obtain ⟨hend, hchange⟩ := h host hlook hparam.1 hparam.2
        rw [← hsame.mpr hend, refines_setData_iff hr hlook (hne _)]
        exact ⟨hend, hchange.imp_left (written_eq_iff hparam.2).mpr⟩

theorem refines_close (hr : Refines s a) (handle : Nat) :
    (closeHandle s handle).2.status = (if handle ∈ a.handles then .success else .invalidHandle) ∧
      Refines (closeHandle s handle).1 { a with handles := a.handles.erase handle } := by
  unfold closeHandle
  cases hlook : s.handles.lookup handle with
  | none =>
    have ha := hr.lookup_none hlook
    refine ⟨(if_neg (AList.lookup_eq_none.mp ha)).symm, hr.stored, hr.absent, fun h => ?_, hr.held⟩
    by_cases heq : h = handle
    · rw [heq, AList.lookup_erase, hlook]
      rfl
    · rw [AList.lookup_erase_ne heq]
      exact hr.handles h
  | some host =>
    have ha := hr.lookup hlook
    refine ⟨(if_pos (AList.lookup_isSome.mp (by rw [ha]; rfl))).symm, hr.stored, hr.absent, fun h => ?_,
      fun h host' h' => ?_⟩
    · by_cases heq : h = handle
      · rw [heq, AList.lookup_erase, AList.lookup_erase]
        rfl
      · rw [AList.lookup_erase_ne heq, AList.lookup_erase_ne heq]
        exact hr.handles h
    · have heq : h ≠ handle := by
        rintro rfl
        exact nomatch (AList.lookup_erase h s.handles).symm.trans h'
      exact hr.held h host' ((AList.lookup_erase_ne heq).symm.trans h')

/-! ## Runs -/

theorem Fresh.bind (hf : Fresh s) {file : FileId} (hfile : file < s.fs.next) (object : Bool)
    (handle : Option Nat) (path : Str) (result : CreateResult) : Fresh (s.bind object handle file path result).1 := by
  cases object with
  | false => exact hf
  | true =>
    cases handle with
    | none => exact hf
    | some h =>
      refine ⟨hf.stored, fun h' host hlook => ?_, hf.small⟩
      by_cases heq : h' = h
      · obtain rfl := Option.some.inj ((AList.lookup_insert _).symm.trans (heq ▸ hlook))
        exact hfile
      · exact hf.held h' host ((AList.lookup_insert_ne heq).symm.trans hlook)

theorem Fresh.makeFile (hf : Fresh s) (hbytes : bytes.length ≤ maxSize) :
    Fresh { s with fs := (s.fs.makeFile bytes).2 } where
  stored path file h := Nat.lt_succ_of_lt (hf.stored path file h)
  held h host hlook := Nat.lt_succ_of_lt (hf.held h host hlook)
  small file := by
    by_cases heq : file = s.fs.next
    · rw [heq, data_makeFile_next]
      exact hbytes
    · exact (congrArg List.length (Function.update_of_ne heq ..)).trans_le (hf.small file)

theorem Fresh.store (hf : Fresh s) {file : FileId} (hfile : file < s.fs.next) (path : Str) :
    Fresh { s with fs := s.fs.store path file } where
  stored path' file' h := by
    by_cases heq : path' = path
    · obtain rfl := Option.some.inj ((AList.lookup_insert _).symm.trans (heq ▸ h))
      exact hfile
    · exact hf.stored path' file' ((AList.lookup_insert_ne heq).symm.trans h)
  held := hf.held
  small := hf.small

theorem Fresh.create (hf : Fresh s) (path : Str) : Fresh { s with fs := (create s.fs path).2 } :=
  (hf.makeFile (Nat.zero_le _)).store (Nat.lt_succ_self _) _

theorem Fresh.setPosition (hf : Fresh s)
    (hlook : s.handles.lookup h = some host) (position : Nat) : Fresh (s.setPosition h host position) where
  stored := hf.stored
  held h' host' hlook' := by
    rw [lookup_setPosition] at hlook'
    split_ifs at hlook'
    · obtain rfl := Option.some.inj hlook'
      exact hf.held h host hlook
    · exact hf.held h' host' hlook'
  small := hf.small

theorem Fresh.setData (hf : Fresh s) (file : FileId) (hdata : data.length ≤ maxSize) :
    Fresh (s.setData file data) where
  stored := hf.stored
  held := hf.held
  small file' := by
    rw [data_setData]
    split_ifs
    · exact hdata
    · exact hf.small file'

theorem Fresh.opening (hf : Fresh s) {path : Str} {disposition createOptions : BitVec 32} {object : Bool}
    {handle : Option Nat} {r : State × Outcome} (ho : Opening s path disposition createOptions object handle r) :
    Fresh r.1 := by
  cases ho with
  | refused => exact hf
  | directory => exact (hf.makeFile (Nat.zero_le _)).bind (Nat.lt_succ_self _) ..
  | stored file hfile => exact hf.bind (hf.stored _ file hfile) ..
  | made => exact (hf.create path).bind (Nat.lt_succ_self _) ..

theorem Fresh.answer {s' : State} (hf : Fresh s) {call : Call} {o : Outcome} (h : s.answer call = some (s', o)) :
    Fresh s' := by
  cases call with
  | create name disposition createOptions object handle =>
    rw [State.answer] at h
    split_ifs at h
    obtain rfl := congrArg Prod.fst (Option.some.inj h)
    exact hf.opening (openPath_opening ..)
  | read handle buffer length byteOffset =>
    obtain rfl := congrArg Prod.fst (Option.some.inj h)
    unfold readFile
    cases hlook : s.handles.lookup handle with
    | none => exact hf
    | some host =>
      dsimp only
      split_ifs
      · exact hf
      · exact hf
      · exact hf.setPosition hlook _
  | write handle buffer bytes byteOffset =>
    rw [State.answer, writeFile] at h
    cases hlook : s.handles.lookup handle with
    | none =>
      rw [hlook] at h
      cases h
      exact hf
    | some host =>
      rw [hlook] at h
      dsimp only at h
      split_ifs at h
      · cases h
        exact hf
      · obtain ⟨data, hdata, ho⟩ := Option.map_eq_some_iff.mp h
        cases ho
        obtain ⟨rfl, hfits⟩ := overwrite_eq (hf.small host.file) hdata
        have hlength := length_written (s.fs.data host.file) (fileOffset byteOffset host.position) bytes
        have hsmall := hf.small host.file
        exact Fresh.setPosition (hf.setData host.file (by omega)) hlook _
  | close handle =>
    obtain rfl := congrArg Prod.fst (Option.some.inj h)
    unfold closeHandle
    cases hlook : s.handles.lookup handle with
    | none => exact hf
    | some host =>
      refine ⟨hf.stored, fun h' host' (hlook' : (s.handles.erase handle).lookup h' = some host') => ?_, hf.small⟩
      by_cases heq : h' = handle
      · rw [heq, AList.lookup_erase] at hlook'
        exact nomatch hlook'
      · exact hf.held h' host' ((AList.lookup_erase_ne heq).symm.trans hlook')

/-- What was answered is what the arrays say, and the files are the arrays again, exactly under the condition. -/
theorem answered_iff {s' : State} (hr : Refines s a) (hf : Fresh s) {call : Call} {o : Outcome}
    (h : s.answer call = some (s', o)) : Refined (s', a.step o call) ↔ CallOk s call := by
  have hsome : ∀ a', a.step o call = some a' → (Refined (s', a.step o call) ↔ Refines s' a') := fun a' ha' =>
    ⟨fun ⟨_, ha, hr'⟩ => Option.some.inj (ha.symm.trans ha') ▸ hr', fun hr' => ⟨a', ha', hr'⟩⟩
  cases call with
  | create name disposition createOptions object handle =>
    rw [State.answer] at h
    split_ifs at h with hused
    obtain rfl := congrArg Prod.fst (Option.some.inj h)
    obtain rfl := congrArg Prod.snd (Option.some.inj h)
    refine (hsome _ rfl).trans (refines_opening_iff hr hf (fun h hhandle => ?_) (openPath_opening ..))
    have hs : h ∉ s.handles := fun hmem => hused (by rw [hhandle]; exact decide_eq_true hmem)
    exact ⟨hs, AList.lookup_eq_none.mp (hr.lookup_none (AList.lookup_eq_none.mpr hs))⟩
  | read handle buffer length byteOffset =>
    have ⟨ho, hr'⟩ := refines_read hr handle buffer length byteOffset
    obtain rfl := congrArg Prod.fst (Option.some.inj h)
    obtain rfl := congrArg Prod.snd (Option.some.inj h)
    exact iff_of_true ((hsome _ (if_pos ho)).mpr hr') trivial
  | write handle buffer bytes byteOffset =>
    have ⟨ho, hiff⟩ := refines_write_iff hr hf h
    exact (hsome _ (if_pos ho)).trans hiff
  | close handle =>
    have ⟨ho, hr'⟩ := refines_close hr handle
    obtain rfl := congrArg Prod.fst (Option.some.inj h)
    obtain rfl := congrArg Prod.snd (Option.some.inj h)
    exact iff_of_true ((hsome _ (if_pos ho)).mpr hr') trivial

theorem Fresh.boot (hf : Fresh s) (b : Boot) : Fresh { s with fs := boot s.fs b } := by
  cases b with
  | load path bytes => exact (hf.makeFile bytes.2).store (Nat.lt_succ_self _) _
  | link source target =>
    change Fresh { s with fs := (link s.fs source target).2 }
    unfold link
    cases hlook : s.fs.files.lookup (normalize source) with
    | none => exact hf
    | some file => exact hf.store (hf.stored _ file hlook) _
  | createDirectory path => exact ⟨hf.stored, hf.held, hf.small⟩

theorem fresh_start (boots : List Boot) : Fresh (start boots).1 := by
  have hboots : ∀ fs, Fresh ⟨fs, ∅⟩ → Fresh ⟨boots.foldl boot fs, ∅⟩ := by
    induction boots with
    | nil => exact fun _ hf => hf
    | cons b boots ih => exact fun _ hf => ih _ (hf.boot b)
  exact hboots _ ⟨fun _ _ h => (nomatch h), fun _ _ h => (nomatch h), fun _ => Nat.zero_le _⟩

theorem refined_start (boots : List Boot) : Refined (start boots) := by
  refine ⟨_, rfl, fun path file h => ?_, fun path hmem => ?_, fun _ => rfl, fun _ _ h => nomatch h⟩
  · have hcontents : contents (start boots).1.fs path = (start boots).1.fs.data file := by
      rw [contents, h]
      rfl
    exact hcontents.symm
  · have hcontents : contents (start boots).1.fs path = [] := by
      rw [contents, AList.lookup_eq_none.mpr hmem]
      rfl
    exact hcontents

/-- Files are one array of bytes per path in all states of a run exactly when no call of it replaces a file under its
handles, writes where the bytes are not those of the path, or writes to an end that is not at the position. -/
theorem refined_iff {boots : List Boot} {calls : List Call} {st : Both}
    (h : Run.Steps step (fun _ _ => True) (start boots) calls st) :
    Run.Steps step (fun st call => CallOk st.1 call) (start boots) calls st ↔
      ∀ before st', before <+: calls → Run.Steps step (fun _ _ => True) (start boots) before st' → Refined st' := by
  refine Run.Steps.allowed_iff_always (I := fun st => Fresh st.1) (fun st call st' hf _ _ hstep _ => ?_)
    (fun st call st' hf hp _ hstep => ?_) (fresh_start boots) (refined_start boots) h
  all_goals obtain ⟨⟨s', o⟩, hanswer, rfl⟩ := Option.map_eq_some_iff.mp hstep
  · exact hf.answer hanswer
  · obtain ⟨s, a⟩ := st
    obtain ⟨a, rfl, hr⟩ := hp
    exact (answered_iff hr hf hanswer).symm

def twoBytes : List Boot := [.load [0x62] ⟨[1, 2], by decide⟩]

def readWritten : List Call :=
  [.create [0x62] fileOpen 0 true (some 4), .read 4 true 8 (some 1), .write 4 true [3, 4] none,
    .read 4 true 8 (some 0)]

theorem readWritten_runs : (Run.exec step (fun _ _ => true) (start twoBytes) readWritten).isSome := by decide +kernel

theorem refined_iff_opened :
    Run.Steps step (fun st call => CallOk st.1 call) (start twoBytes) readWritten
        ((Run.exec step (fun _ _ => true) (start twoBytes) readWritten).get readWritten_runs) ↔
      ∀ before st', before <+: readWritten →
        Run.Steps step (fun _ _ => True) (start twoBytes) before st' → Refined st' :=
  refined_iff (Run.Steps.of_exec (fun _ _ _ => trivial) (Option.some_get readWritten_runs).symm)

/-- What is written to the end of the file goes to the position, over the bytes that are there. -/
theorem appended_not_refined : ¬ ∀ boots calls st,
    Run.Steps step (fun _ _ => True) (start boots) calls st → Refined st := by
  intro h
  let boots : List Boot := [.load [0x61] ⟨[1], by decide⟩]
  let calls : List Call := [.create [0x61] fileOpen 0 true (some 4), .write 4 true [2] (some fileWriteToEndOfFile)]
  have hrun : (Run.exec step (fun _ _ => true) (start boots) calls).any fun st =>
      st.2.any (fun a => a.handles.lookup 4 = some ([0x61], 2)) ∧
        (st.1.handles.lookup 4).map FileHost.position = some 1 := by decide +kernel
  obtain ⟨st, hst, hpositions⟩ := (Option.any_eq_true ..).mp hrun
  have ⟨hspec, hpos⟩ := of_decide_eq_true hpositions
  obtain ⟨a, ha, hr⟩ := h boots calls st (Run.Steps.of_exec (fun _ _ _ => trivial) hst)
  rw [ha, Option.any_some, decide_eq_true_eq] at hspec
  have hhandles := hr.handles 4
  rw [hspec] at hhandles
  cases hlook : st.1.handles.lookup 4 with
  | none =>
    rw [hlook] at hpos
    exact nomatch hpos
  | some host =>
    rw [hlook] at hpos hhandles
    have hend : 2 = host.position := congrArg Prod.snd (Option.some.inj hhandles)
    exact absurd (hend.trans (Option.some.inj hpos)) (by decide)

end Kernemul.FileIo
