import Kernemul.Lib.Paths
import Kernemul.Win.Text
import Mathlib.Data.List.AList
import Mathlib.Data.List.Sort

/-!
# The files of the guest (`win_filesystem`)

A flat map from normalized paths to files, and a set of directories that no file implies. A file can stand under
several names and outlives its names while a handle holds it.
-/

namespace Kernemul.FileSystem

open Text Paths

/-- A `win_file`, by the order in which they are made. -/
abbrev FileId := Nat

structure State where
  files : AList fun _ : Str => FileId
  dirs : List Str
  data : FileId → List UInt8
  next : FileId

def State.init : State where
  files := ∅
  dirs := []
  data := fun _ => []
  next := 0

def openFile (s : State) (path : Str) : Option FileId := s.files.lookup (normalize path)

/-- `std::make_shared<win_file>(bytes)`. -/
def State.makeFile (s : State) (bytes : List UInt8) : FileId × State :=
  (s.next, { s with data := Function.update s.data s.next bytes, next := s.next + 1 })

/-- `files_[path] = file`. -/
def State.store (s : State) (path : Str) (file : FileId) : State := { s with files := s.files.insert path file }

def create (s : State) (path : Str) : FileId × State :=
  let (file, s) := s.makeFile []
  (file, s.store (normalize path) file)

/-- `load_file`, of a file of the host. -/
def loadFile (s : State) (path : Str) (bytes : List UInt8) : State :=
  let (file, s) := s.makeFile bytes
  s.store (normalize path) file

/-- `use_count() > 1`: another name, or something that is not a name. -/
def State.shared (s : State) (held : FileId → Bool) (path : Str) (file : FileId) : Bool :=
  held file || s.files.keys.any fun key => key ≠ path && s.files.lookup key = some file

def remove (s : State) (held : FileId → Bool) (path : Str) : Bool × State :=
  let norm := normalize path
  match s.files.lookup norm with
  | none => (false, s)
  | some file => if s.shared held norm file then (false, s) else (true, { s with files := s.files.erase norm })

def exists? (s : State) (path : Str) : Bool := decide (normalize path ∈ s.files)

def createDirectory (s : State) (path : Str) : State :=
  let norm := normalize path
  { s with dirs := (norm :: ancestors slash norm).filter (· ≠ []) ∪ s.dirs }

def link (s : State) (source target : Str) : Bool × State :=
  match s.files.lookup (normalize source) with
  | none => (false, s)
  | some file => (true, s.store (normalize target) file)

def dirExists (s : State) (path : Str) : Bool :=
  let norm := normalize path
  norm.isEmpty || s.dirs.contains norm || s.files.keys.any fun key => (norm ++ [slash]).isPrefixOf key

structure DirEntry where
  name : Str
  isDirectory : Bool := false
  size : Nat := 0

abbrev Entries := AList fun _ : Str => DirEntry

/-- `entries[name]`, which makes an entry where there is none, and what is assigned to it. -/
def Entries.assign (entries : Entries) (name : Str) (f : DirEntry → DirEntry) : Entries :=
  entries.insert name { f ((entries.lookup name).getD { name := [] }) with name := name }

def addFile (s : State) (pre : Str) (entries : Entries) (key : Str) : Entries :=
  if ¬ pre <+: key then entries
  else
    let rest := key.drop pre.length
    if rest = [] then entries
    else if slash ∉ rest then
      entries.assign rest fun e => { e with size := ((s.files.lookup key).map fun file => (s.data file).length).getD 0 }
    else entries.assign (component slash rest) fun e => { e with isDirectory := true }

def addDir (pre : Str) (entries : Entries) (dir : Str) : Entries :=
  if ¬ pre <+: dir then entries
  else
    let rest := dir.drop pre.length
    if rest = [] then entries
    else entries.assign (component slash rest) fun e => { e with isDirectory := true }

def listPrefix (path : Str) : Str := if normalize path = [] then [] else normalize path ++ [slash]

/-- Both loops of `list_dir`. -/
def listEntries (s : State) (pre : Str) : Entries := s.dirs.foldl (addDir pre) (s.files.keys.foldl (addFile s pre) ∅)

/-- The entries come out of a `std::map`, in the order of their names. -/
def listDir (s : State) (path : Str) : List DirEntry :=
  ((listEntries s (listPrefix path)).entries.map (·.2)).insertionSort fun e e' => e.name ≤ e'.name

end Kernemul.FileSystem
