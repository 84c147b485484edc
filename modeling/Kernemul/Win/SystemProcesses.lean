import Kernemul.Lib.Bytes
import Kernemul.Win.Text

/-!
# The list of processes (`NtQuerySystemInformation(SystemProcessInformation)`)

An entry is a process record, one thread record and the name, which a `_UNICODE_STRING` of the record points to; it ends
on a multiple of 8 bytes and says how far it is to the next one. What would be written outside of the bytes that were
set aside is no answer at all.
-/

namespace Kernemul.SystemProcesses

open Text Bytes

/-- What is read of an `_EPROCESS`. -/
structure Eprocess where
  uniqueProcessId : BitVec 64
  imageFileName : List UInt8
  length_imageFileName : imageFileName.length = 15

structure ListedProcess where
  pid : BitVec 64
  name : Str
  deriving DecidableEq

def collectProcesses (active : List Eprocess) : List ListedProcess :=
  active.map fun ep => { pid := ep.uniqueProcessId, name := ep.imageFileName.takeWhile (· ≠ 0) }

/-- `sizeof(system_process_information_t)`. -/
def processSize : Nat := 0x100

/-- `sizeof(system_thread_information_t)`. -/
def threadSize : Nat := 0x50

def ListedProcess.nameBytes (proc : ListedProcess) : Nat := 2 * proc.name.length

def entrySizeFor (proc : ListedProcess) : Nat := (processSize + threadSize + (proc.nameBytes + 7) / 8 * 8) % 2 ^ 32

/-- The members of a `system_process_information_t` with their widths. -/
def processFields (proc : ListedProcess) (nextEntryOffset : Nat) (buffer : BitVec 64) : List (Nat × Nat) :=
  [ -- up to the times
    (4, nextEntryOffset), (4, 1), (8, 0), (4, 0), (4, 0), (8, 0), (8, 0), (8, 0), (8, 0),
    -- `image_name`
    (2, proc.nameBytes), (2, proc.nameBytes + 2), (4, 0), (8, buffer.toNat),
    -- `base_priority`, `unique_process_id`, `handle_count`, and what stays zero
    (4, 8), (4, 0), (8, proc.pid.toNat), (8, 0), (4, 32), (0x9c, 0)]

/-- The members of a `system_thread_information_t`. -/
def threadFields (proc : ListedProcess) : List (Nat × Nat) :=
  [(0x28, 0), (8, proc.pid.toNat), (8, (proc.pid + 4).toNat), (4, 8), (4, 8), (4, 0), (4, 5), (4, 13), (4, 0)]

def fillEntry (base : BitVec 64) (out : List UInt8) (offset : Nat) (last : Bool) (proc : ListedProcess) :
    Option (List UInt8) :=
  let nameAt := (offset + (processSize + threadSize)) % 2 ^ 32
  let next := if last then 0 else entrySizeFor proc
  (patch out nameAt (wide (widenString proc.name))).bind fun out =>
    (patch out offset (encode (processFields proc next (base + BitVec.ofNat 64 nameAt)))).bind fun out =>
      patch out (offset + processSize) (encode (threadFields proc))

def fill (base : BitVec 64) : List UInt8 → Nat → List ListedProcess → Option (List UInt8)
  | out, _, [] => some out
  | out, offset, proc :: procs =>
    (fillEntry base out offset procs.isEmpty proc).bind fun out =>
      fill base out ((offset + entrySizeFor proc) % 2 ^ 32) procs

def required (procs : List ListedProcess) : Nat :=
  procs.foldl (fun required proc => (required + entrySizeFor proc) % 2 ^ 32) 0

inductive Status
  | success
  | infoLengthMismatch
  deriving DecidableEq, Repr

/-- The status, what goes to `return_length`, and what is written to the buffer. -/
structure Reply where
  status : Status
  returnLength : Nat
  out : List UInt8
  deriving DecidableEq, Repr

/-- The case `system_process_information`, for a buffer at `base`. -/
def querySystemProcessInformation (active : List Eprocess) (base : BitVec 64) (length : BitVec 32) : Option Reply :=
  let procs := collectProcesses active
  if length.toNat < required procs then some ⟨.infoLengthMismatch, required procs, []⟩
  else (fill base (List.replicate (required procs) 0) 0 procs).map fun out => ⟨.success, required procs, out⟩

/-! ## What the caller reads -/

structure Entry where
  nextEntryOffset : Nat
  length : Nat
  maximumLength : Nat
  buffer : Nat
  pid : Nat
  deriving DecidableEq, Repr

def entryAt (out : List UInt8) (pos : Nat) : Option Entry :=
  (num out pos 4).bind fun nextEntryOffset =>
    (num out (pos + 0x38) 2).bind fun length =>
      (num out (pos + 0x3a) 2).bind fun maximumLength =>
        (num out (pos + 0x40) 8).bind fun buffer =>
          (num out (pos + 0x50) 8).map fun pid => { nextEntryOffset, length, maximumLength, buffer, pid }

/-- Where in the buffer at `base` the name is. -/
def Entry.nameAt (e : Entry) (base : BitVec 64) : Nat := (BitVec.ofNat 64 e.buffer - base).toNat

/-- An entry of `size` bytes is that of the process. -/
structure Sound (base : BitVec 64) (out : List UInt8) (pos size : Nat) (e : Entry) (proc : ListedProcess) : Prop where
  aligned : pos % 8 = 0
  inside : processSize + threadSize ≤ size ∧ pos + size ≤ out.length
  pid : e.pid = proc.pid.toNat
  name : slice out (e.nameAt base) e.length = some (wide (widenString proc.name))
  room : pos ≤ e.nameAt base ∧ e.nameAt base + e.maximumLength ≤ pos + size
  terminated : e.length + 2 ≤ e.maximumLength ∧ slice out (e.nameAt base + e.length) 2 = some [0, 0]

/-- The entries from one place on are those of the processes, in this order. -/
inductive Visits (base : BitVec 64) (out : List UInt8) : Nat → List ListedProcess → Prop
  | last {pos : Nat} {e : Entry} {proc : ListedProcess} (he : entryAt out pos = some e) (hnext : e.nextEntryOffset = 0)
      (hsound : Sound base out pos (out.length - pos) e proc) : Visits base out pos [proc]
  | next {pos : Nat} {e : Entry} {proc : ListedProcess} {procs : List ListedProcess} (he : entryAt out pos = some e)
      (hnext : e.nextEntryOffset ≠ 0) (hsound : Sound base out pos e.nextEntryOffset e proc)
      (rest : Visits base out (pos + e.nextEntryOffset) procs) : Visits base out pos (proc :: procs)

def Decodes (base : BitVec 64) (out : List UInt8) (procs : List ListedProcess) : Prop :=
  out = [] ∧ procs = [] ∨ Visits base out 0 procs

/-- A buffer that is as long as the call says gets the processes, and a shorter one a length that is enough. -/
def Answers (active : List Eprocess) (base : BitVec 64) (length : BitVec 32) : Prop :=
  ∃ r, querySystemProcessInformation active base length = some r ∧
    if r.returnLength ≤ length.toNat then
      r.status = .success ∧ r.out.length ≤ length.toNat ∧ Decodes base r.out (collectProcesses active)
    else
      r.status = .infoLengthMismatch ∧ r.out = [] ∧
        ∃ r', querySystemProcessInformation active base (BitVec.ofNat 32 r.returnLength) = some r' ∧
          r'.status = .success

/-! ## The condition -/

def total (procs : List ListedProcess) : Nat := (procs.map entrySizeFor).sum

/-- The sizes add up in 32 bits, and if the buffer is large enough there is no name of 0, 4, 8 or 12 bytes. -/
def Fits (active : List Eprocess) (length : BitVec 32) : Prop :=
  total (collectProcesses active) < 2 ^ 32 ∧
    (total (collectProcesses active) ≤ length.toNat → ∀ proc ∈ collectProcesses active, proc.name.length % 4 ≠ 0)

/-! ## Sizes -/

variable {proc : ListedProcess}

theorem length_name_le {active : List Eprocess} (h : proc ∈ collectProcesses active) :
    proc.name.length ≤ 15 := by
  obtain ⟨ep, _, rfl⟩ := List.mem_map.mp h
  exact (List.takeWhile_sublist _).length_le.trans ep.length_imageFileName.le

def pad (proc : ListedProcess) : Nat := (proc.nameBytes + 7) / 8 * 8 - proc.nameBytes

theorem entrySizeFor_eq (h : proc.name.length ≤ 15) :
    entrySizeFor proc = processSize + (threadSize + (proc.nameBytes + pad proc)) := by
  unfold entrySizeFor pad ListedProcess.nameBytes processSize threadSize
  omega

theorem entrySizeFor_mod (proc : ListedProcess) : entrySizeFor proc % 8 = 0 := by
  unfold entrySizeFor processSize threadSize
  omega

theorem pad_ge : 2 ≤ pad proc ↔ proc.name.length % 4 ≠ 0 := by
  unfold pad ListedProcess.nameBytes
  omega

theorem total_cons (proc : ListedProcess) (procs : List ListedProcess) :
    total (proc :: procs) = entrySizeFor proc + total procs := List.sum_cons

theorem required_eq (procs : List ListedProcess) : required procs = total procs % 2 ^ 32 := by
  have hfold : ∀ n, n < 2 ^ 32 → procs.foldl (fun required proc => (required + entrySizeFor proc) % 2 ^ 32) n =
      (n + total procs) % 2 ^ 32 := by
    induction procs with
    | nil =>
      intro n hn
      rw [List.foldl_nil, show total [] = 0 from rfl, Nat.add_zero, Nat.mod_eq_of_lt hn]
    | cons proc procs ih =>
      intro n _
      rw [List.foldl_cons, ih _ (Nat.mod_lt _ (by decide)), total_cons]
      omega
  rw [required, hfold 0 (by decide), Nat.zero_add]

theorem total_mod (procs : List ListedProcess) : total procs % 8 = 0 := by
  induction procs with
  | nil => rfl
  | cons proc procs ih =>
    have := entrySizeFor_mod proc
    rw [total_cons]
    omega

/-! ## One entry -/

theorem length_processFields (proc : ListedProcess) (next : Nat) (buffer : BitVec 64) :
    (encode (processFields proc next buffer)).length = processSize := by
  simp only [length_encode, width, processFields, List.map_cons, List.map_nil, List.sum_cons, List.sum_nil]
  rfl

theorem length_threadFields (proc : ListedProcess) : (encode (threadFields proc)).length = threadSize := by
  simp only [length_encode, width, threadFields, List.map_cons, List.map_nil, List.sum_cons, List.sum_nil]
  rfl

theorem length_nameBytes (proc : ListedProcess) : (wide (widenString proc.name)).length = proc.nameBytes := by
  rw [length_wide, widenString, List.length_map]
  rfl

/-- The bytes of an entry that stands at `pos`. -/
def entryBytes (base : BitVec 64) (pos next : Nat) (proc : ListedProcess) : List UInt8 :=
  encode (processFields proc next (base + BitVec.ofNat 64 (pos + (processSize + threadSize)))) ++
    (encode (threadFields proc) ++ (wide (widenString proc.name) ++ List.replicate (pad proc) 0))

theorem length_entryBytes (h : proc.name.length ≤ 15) (base : BitVec 64) (pos next : Nat) :
    (entryBytes base pos next proc).length = entrySizeFor proc := by
  rw [entryBytes, List.length_append, List.length_append, List.length_append, length_processFields, length_threadFields,
    length_nameBytes, List.length_replicate, entrySizeFor_eq h]

theorem fillEntry_eq (h : proc.name.length ≤ 15) (base : BitVec 64) {done : List UInt8}
    (hdone : done.length + entrySizeFor proc < 2 ^ 32) (last : Bool) (k : Nat) :
    fillEntry base (done ++ List.replicate (entrySizeFor proc + k) 0) done.length last proc =
      some (done ++ (entryBytes base done.length (if last then 0 else entrySizeFor proc) proc ++
        List.replicate k 0)) := by
  have hsize := entrySizeFor_eq h
  have hmod : (done.length + (processSize + threadSize)) % 2 ^ 32 = done.length + (processSize + threadSize) :=
    Nat.mod_eq_of_lt (by omega)
  have hname : (done ++ (List.replicate processSize (0 : UInt8) ++ List.replicate threadSize 0)).length =
      done.length + (processSize + threadSize) := by
    simp only [List.length_append, List.length_replicate]
  have hzeros : done ++ List.replicate (entrySizeFor proc + k) (0 : UInt8) =
      (done ++ (List.replicate processSize 0 ++ List.replicate threadSize 0)) ++
        (List.replicate proc.nameBytes 0 ++ (List.replicate (pad proc) 0 ++ List.replicate k 0)) := by
    rw [hsize]
    simp only [List.replicate_add, List.append_assoc]
  unfold fillEntry
  dsimp only
  rw [hmod, hzeros, ← hname, patch_between (by rw [List.length_replicate, length_nameBytes]), Option.bind_some, hname,
    List.append_assoc, List.append_assoc,
    patch_between (by rw [List.length_replicate, length_processFields]), Option.bind_some, ← List.append_assoc done]
  have hrecord := length_processFields proc (if last then 0 else entrySizeFor proc)
    (base + BitVec.ofNat 64 (done.length + (processSize + threadSize)))
  rw [show done.length + processSize = (done ++ encode (processFields proc (if last then 0 else entrySizeFor proc)
    (base + BitVec.ofNat 64 (done.length + (processSize + threadSize))))).length by rw [List.length_append, hrecord],
    patch_between (by rw [List.length_replicate, length_threadFields]), entryBytes]
  simp only [List.append_assoc]

theorem widths_processFields (proc : ListedProcess) (next : Nat) (buffer : BitVec 64) :
    (processFields proc next buffer).map Prod.fst = [4, 4, 8, 4, 4, 8, 8, 8, 8, 2, 2, 4, 8, 4, 4, 8, 8, 4, 0x9c] := rfl

theorem entryAt_record (done tail : List UInt8) (h : proc.name.length ≤ 15) {next : Nat}
    (hnext : next < 2 ^ 32) (buffer : BitVec 64) :
    entryAt (done ++ (encode (processFields proc next buffer) ++ tail)) done.length =
      some { nextEntryOffset := next, length := proc.nameBytes, maximumLength := proc.nameBytes + 2,
             buffer := buffer.toNat, pid := proc.pid.toNat } := by
  have hname : proc.nameBytes + 2 < 256 ^ 2 := by
    unfold ListedProcess.nameBytes
    omega
  have hwidths := widths_processFields proc next buffer
  have hnextAt := num_append_field hwidths done tail (i := 0) (p := 0) rfl (by decide) hnext
  have hlengthAt := num_append_field hwidths done tail (i := 9) (p := 0x38) rfl (by decide)
    (Nat.lt_of_add_right_lt hname)
  have hmaximumAt := num_append_field hwidths done tail (i := 10) (p := 0x3a) rfl (by decide) hname
  have hbufferAt := num_append_field hwidths done tail (i := 12) (k := 8) (p := 0x40) rfl (by decide) buffer.isLt
  have hpidAt := num_append_field hwidths done tail (i := 15) (k := 8) (p := 0x50) rfl (by decide) proc.pid.isLt
  rw [Nat.add_zero] at hnextAt
  unfold entryAt
  rw [hnextAt, Option.bind_some, hlengthAt, Option.bind_some, hmaximumAt, Option.bind_some, hbufferAt, Option.bind_some,
    hpidAt, Option.map_some]

def entryOf (base : BitVec 64) (pos next : Nat) (proc : ListedProcess) : Entry where
  nextEntryOffset := next
  length := proc.nameBytes
  maximumLength := proc.nameBytes + 2
  buffer := (base + BitVec.ofNat 64 (pos + (processSize + threadSize))).toNat
  pid := proc.pid.toNat

theorem entryAt_eq (h : proc.name.length ≤ 15) (base : BitVec 64) (done : List UInt8)
    (next : Nat) (hnext : next < 2 ^ 32) (rest : List UInt8) :
    entryAt (done ++ (entryBytes base done.length next proc ++ rest)) done.length =
      some (entryOf base done.length next proc) := by
  rw [entryBytes, List.append_assoc]
  exact entryAt_record done _ h hnext _

theorem nameAt_entryOf (base : BitVec 64) (pos : Nat) (hpos : pos + (processSize + threadSize) < 2 ^ 64) (next : Nat)
    (proc : ListedProcess) : (entryOf base pos next proc).nameAt base = pos + (processSize + threadSize) := by
  rw [Entry.nameAt, entryOf, BitVec.ofNat_toNat, BitVec.setWidth_eq, BitVec.add_comm, BitVec.add_sub_cancel,
    BitVec.toNat_ofNat, Nat.mod_eq_of_lt hpos]

/-- An entry is sound where the zeros behind the name have room for a terminator. -/
theorem sound_iff (h : proc.name.length ≤ 15) (base : BitVec 64) {done : List UInt8}
    (hdone : done.length % 8 = 0) (hlength : done.length + entrySizeFor proc < 2 ^ 32) (next : Nat)
    (rest : List UInt8) :
    Sound base (done ++ (entryBytes base done.length next proc ++ rest)) done.length (entrySizeFor proc)
      (entryOf base done.length next proc) proc ↔ proc.name.length % 4 ≠ 0 := by
  have hsize := entrySizeFor_eq h
  have hnameAt := nameAt_entryOf base done.length (by omega) next proc
  have hentry := length_entryBytes h base done.length next
  rw [← pad_ge]
  constructor
  · intro hs
    have hroom := hs.room.2
    rw [hnameAt, entryOf] at hroom
    dsimp only at hroom
    omega
  · intro hpad
    obtain ⟨record, hrecord⟩ : ∃ record, record =
        encode (processFields proc next (base + BitVec.ofNat 64 (done.length + (processSize + threadSize)))) ++
          encode (threadFields proc) := ⟨_, rfl⟩
    have hsplit : done ++ (entryBytes base done.length next proc ++ rest) =
        (done ++ record) ++ (wide (widenString proc.name) ++ (List.replicate (pad proc) 0 ++ rest)) := by
      simp only [entryBytes, hrecord, List.append_assoc]
    have hbefore : (done ++ record).length = done.length + (processSize + threadSize) := by
      rw [List.length_append, hrecord, List.length_append, length_processFields, length_threadFields]
    have hzeros : List.replicate (pad proc) (0 : UInt8) = [0, 0] ++ List.replicate (pad proc - 2) 0 := by
      rw [show [(0 : UInt8), 0] = List.replicate 2 0 from rfl, ← List.replicate_add, Nat.add_sub_cancel' hpad]
    refine ⟨hdone, ⟨by omega, ?_⟩, rfl, ?_, ⟨?_, ?_⟩, le_refl _, ?_⟩
    · rw [List.length_append, List.length_append, hentry]
      omega
    · rw [hnameAt]
      exact slice_of_append hsplit hbefore (length_nameBytes proc)
    · rw [hnameAt]
      omega
    · rw [hnameAt, entryOf]
      dsimp only
      omega
    · rw [hnameAt, hsplit, ← List.append_assoc, hzeros, List.append_assoc [0, 0]]
      refine slice_of_append rfl ?_ rfl
      rw [List.length_append, hbefore, length_nameBytes]
      rfl

/-! ## All entries -/

def encodeAll (base : BitVec 64) : Nat → List ListedProcess → List UInt8
  | _, [] => []
  | pos, proc :: procs =>
    entryBytes base pos (if procs.isEmpty then 0 else entrySizeFor proc) proc ++
      encodeAll base (pos + entrySizeFor proc) procs

variable {procs : List ListedProcess}

theorem fill_eq (base : BitVec 64) (hnames : ∀ proc ∈ procs, proc.name.length ≤ 15)
    (done : List UInt8) (hlength : done.length + total procs < 2 ^ 32) :
    fill base (done ++ List.replicate (total procs) 0) done.length procs =
      some (done ++ encodeAll base done.length procs) := by
  induction procs generalizing done with
  | nil => exact congrArg some (congrArg (done ++ ·) rfl)
  | cons proc procs ih =>
    have hname := hnames proc List.mem_cons_self
    rw [total_cons] at hlength
    have hentry := length_entryBytes hname base done.length (if procs.isEmpty then 0 else entrySizeFor proc)
    have hnext : (done.length + entrySizeFor proc) % 2 ^ 32 =
        (done ++ entryBytes base done.length (if procs.isEmpty then 0 else entrySizeFor proc) proc).length := by
      rw [Nat.mod_eq_of_lt (by omega), List.length_append, hentry]
    rw [fill, total_cons, fillEntry_eq hname base (by omega), Option.bind_some, hnext, ← List.append_assoc,
      ih (fun p hp => hnames p (List.mem_cons_of_mem _ hp)) _ (by rw [List.length_append, hentry]; omega), encodeAll,
      List.append_assoc, List.length_append, hentry]

theorem length_encodeAll (base : BitVec 64)
    (hnames : ∀ proc ∈ procs, proc.name.length ≤ 15) (pos : Nat) : (encodeAll base pos procs).length = total procs := by
  induction procs generalizing pos with
  | nil => rfl
  | cons proc procs ih =>
    rw [encodeAll, List.length_append, length_entryBytes (hnames proc List.mem_cons_self),
      ih fun p hp => hnames p (List.mem_cons_of_mem _ hp), total_cons]

/-- The walk finds all processes, and in order, exactly when each name has room for its terminator. -/
theorem visits_iff (base : BitVec 64) (hnames : ∀ proc ∈ procs, proc.name.length ≤ 15)
    (hne : procs ≠ []) (done : List UInt8) (hdone : done.length % 8 = 0)
    (hlength : done.length + total procs < 2 ^ 32) :
    Visits base (done ++ encodeAll base done.length procs) done.length procs ↔
      ∀ proc ∈ procs, proc.name.length % 4 ≠ 0 := by
  induction procs generalizing done with
  | nil => exact absurd rfl hne
  | cons proc procs ih =>
    have hname := hnames proc List.mem_cons_self
    have htail := fun p hp => hnames p (List.mem_cons_of_mem proc hp)
    have hmod := entrySizeFor_mod proc
    have hsize := entrySizeFor_eq hname
    rw [total_cons] at hlength
    rw [List.forall_mem_cons, encodeAll]
    cases procs with
    | nil =>
      have he := entryAt_eq hname base done 0 (by decide) []
      have hsound := sound_iff hname base hdone (by omega) 0 []
      have hrest : (done ++ (entryBytes base done.length 0 proc ++ [])).length - done.length = entrySizeFor proc := by
        rw [List.length_append, List.append_nil, length_entryBytes hname, Nat.add_sub_cancel_left]
      rw [encodeAll]
      rw [List.isEmpty_nil, if_pos rfl, ← hsound]
      constructor
      · rintro (⟨he', hnext, hs⟩ | ⟨_, _, _, hrest⟩)
        · obtain rfl := Option.some.inj (he.symm.trans he')
          rw [hrest] at hs
          exact ⟨hs, fun _ h => nomatch h⟩
        · cases hrest
      · rintro ⟨hs, _⟩
        exact .last he rfl (by rwa [hrest])
    | cons proc' procs =>
      have he := entryAt_eq hname base done (entrySizeFor proc) (by omega)
        (encodeAll base (done.length + entrySizeFor proc) (proc' :: procs))
      have hsound := sound_iff hname base hdone (by omega) (entrySizeFor proc)
        (encodeAll base (done.length + entrySizeFor proc) (proc' :: procs))
      have hpos : entrySizeFor proc ≠ 0 := by
        unfold processSize at hsize
        omega
      have hentry := length_entryBytes hname base done.length (entrySizeFor proc)
      have hnext := ih htail (List.cons_ne_nil _ _) (done ++ entryBytes base done.length (entrySizeFor proc) proc)
        (by rw [List.length_append, hentry]; omega) (by rw [List.length_append, hentry]; omega)
      rw [List.length_append, hentry, List.append_assoc] at hnext
      rw [List.isEmpty_cons, if_neg Bool.false_ne_true, ← hnext, ← hsound]
      constructor
      · rintro (_ | ⟨he', _, hs, hrest⟩)
        obtain rfl := Option.some.inj (he.symm.trans he')
        exact ⟨hs, hrest⟩
      · rintro ⟨hs, hrest⟩
        exact .next he hpos hs hrest

/-! ## Sizes that do not add up -/

theorem fillEntry_inside (h : proc.name.length ≤ 15) {base : BitVec 64} {out out' : List UInt8}
    {offset : Nat} {last : Bool} (hmod : out.length % 8 = 0 ∧ offset % 8 = 0) (hout : out.length < 2 ^ 32)
    (hfill : fillEntry base out offset last proc = some out') :
    out'.length = out.length ∧ offset + entrySizeFor proc ≤ out.length := by
  unfold fillEntry at hfill
  obtain ⟨out₁, hname, hfill⟩ := Option.bind_eq_some_iff.mp hfill
  obtain ⟨out₂, hrecord, hthread⟩ := Option.bind_eq_some_iff.mp hfill
  have h₁ := length_patch hname
  have h₂ := length_patch hrecord
  have h₃ := length_patch hthread
  have hinside₁ := patch_isSome.mp (Option.isSome_iff_exists.mpr ⟨_, hname⟩)
  have hinside₃ := patch_isSome.mp (Option.isSome_iff_exists.mpr ⟨_, hthread⟩)
  rw [length_nameBytes] at hinside₁
  rw [length_threadFields] at hinside₃
  have hsize := entrySizeFor_eq h
  rw [Nat.mod_eq_of_lt (by omega)] at hinside₁
  have hentry := entrySizeFor_mod proc
  unfold pad processSize threadSize at hsize
  unfold processSize threadSize at hinside₁
  omega

theorem fill_inside (hnames : ∀ proc ∈ procs, proc.name.length ≤ 15) {base : BitVec 64}
    {out out' : List UInt8} {offset : Nat} (hmod : out.length % 8 = 0 ∧ offset % 8 = 0) (hoffset : offset ≤ out.length)
    (hout : out.length < 2 ^ 32) (hfill : fill base out offset procs = some out') :
    offset + total procs ≤ out.length := by
  induction procs generalizing out offset with
  | nil => exact hoffset
  | cons proc procs ih =>
    obtain ⟨out₁, hentry, hrest⟩ := Option.bind_eq_some_iff.mp hfill
    obtain ⟨hlength, hinside⟩ := fillEntry_inside (hnames proc List.mem_cons_self) hmod hout hentry
    have hsize := entrySizeFor_mod proc
    rw [Nat.mod_eq_of_lt (by omega)] at hrest
    have := ih (fun p hp => hnames p (List.mem_cons_of_mem _ hp)) (by omega) (by omega) (by omega) hrest
    rw [total_cons]
    omega

/-! ## The answer -/

theorem query_short {active : List Eprocess} {length : BitVec 32}
    (h : length.toNat < required (collectProcesses active)) (base : BitVec 64) :
    querySystemProcessInformation active base length =
      some ⟨.infoLengthMismatch, required (collectProcesses active), []⟩ := if_pos h

/-- A call with a buffer that is long enough returns exactly when the sizes add up. -/
theorem query_long (active : List Eprocess) (length : BitVec 32)
    (h : required (collectProcesses active) ≤ length.toNat) (base : BitVec 64) :
    querySystemProcessInformation active base length =
      if total (collectProcesses active) < 2 ^ 32 then
        some ⟨.success, total (collectProcesses active), encodeAll base 0 (collectProcesses active)⟩
      else none := by
  have hnames : ∀ proc ∈ collectProcesses active, proc.name.length ≤ 15 := fun proc => length_name_le
  have hquery : querySystemProcessInformation active base length =
      (fill base (List.replicate (required (collectProcesses active)) 0) 0 (collectProcesses active)).map fun out =>
        ⟨.success, required (collectProcesses active), out⟩ := if_neg (Nat.not_lt.mpr h)
  have hrequired := required_eq (collectProcesses active)
  rw [hquery]
  split_ifs with htotal
  · rw [Nat.mod_eq_of_lt htotal] at hrequired
    have hfill := fill_eq base hnames [] (by rwa [List.length_nil, Nat.zero_add])
    rw [List.nil_append, List.length_nil, List.nil_append] at hfill
    rw [hrequired, hfill, Option.map_some]
  · cases hfill : fill base (List.replicate (required (collectProcesses active)) 0) 0 (collectProcesses active) with
    | none => rfl
    | some out =>
      have hmod := total_mod (collectProcesses active)
      have hinside := fill_inside hnames (by rw [List.length_replicate]; omega) (Nat.zero_le _)
        (by rw [List.length_replicate]; omega) hfill
      rw [List.length_replicate] at hinside
      omega

theorem decodes_iff (base : BitVec 64) (hnames : ∀ proc ∈ procs, proc.name.length ≤ 15)
    (htotal : total procs < 2 ^ 32) :
    Decodes base (encodeAll base 0 procs) procs ↔ ∀ proc ∈ procs, proc.name.length % 4 ≠ 0 := by
  by_cases hne : procs = []
  · subst hne
    exact iff_of_true (.inl ⟨rfl, rfl⟩) fun _ h => nomatch h
  · have hvisits := visits_iff base hnames hne [] rfl (by rwa [List.length_nil, Nat.zero_add])
    rw [List.length_nil, List.nil_append] at hvisits
    rw [Decodes, or_iff_right fun h => hne h.2, hvisits]

/-- The answer is right exactly where the sizes add up and the names that are given leave room for a terminator. -/
theorem answers_iff_fits (active : List Eprocess) (base : BitVec 64) (length : BitVec 32) :
    Answers active base length ↔ Fits active length := by
  have hnames : ∀ proc ∈ collectProcesses active, proc.name.length ≤ 15 := fun proc => length_name_le
  have hrequired := required_eq (collectProcesses active)
  have hlt : required (collectProcesses active) < 2 ^ 32 := by
    rw [hrequired]
    exact Nat.mod_lt _ (by decide)
  by_cases hshort : length.toNat < required (collectProcesses active)
  · have hagain := BitVec.toNat_ofNat (required (collectProcesses active)) 32
    rw [Nat.mod_eq_of_lt hlt] at hagain
    have hretry := query_long active (BitVec.ofNat 32 (required (collectProcesses active))) hagain.ge base
    constructor
    · rintro ⟨r, hr, hanswer⟩
      obtain rfl := Option.some.inj ((query_short hshort base).symm.trans hr)
      rw [if_neg (Nat.not_le.mpr hshort)] at hanswer
      obtain ⟨-, -, r', hr', -⟩ := hanswer
      rw [hretry] at hr'
      split_ifs at hr' with htotal
      rw [Nat.mod_eq_of_lt htotal] at hrequired
      exact ⟨htotal, fun hle => absurd hshort (by omega)⟩
    · rintro ⟨htotal, -⟩
      rw [if_pos htotal] at hretry
      refine ⟨_, query_short hshort base, ?_⟩
      rw [if_neg (Nat.not_le.mpr hshort)]
      exact ⟨rfl, rfl, _, hretry, rfl⟩
  · have hquery := query_long active length (Nat.not_lt.mp hshort) base
    constructor
    · rintro ⟨r, hr, hanswer⟩
      rw [hquery] at hr
      split_ifs at hr with htotal
      obtain rfl := Option.some.inj hr
      rw [Nat.mod_eq_of_lt htotal] at hrequired
      have hle : total (collectProcesses active) ≤ length.toNat := by omega
      rw [if_pos hle] at hanswer
      exact ⟨htotal, fun _ => (decodes_iff base hnames htotal).mp hanswer.2.2⟩
    · rintro ⟨htotal, hterminated⟩
      rw [if_pos htotal] at hquery
      rw [Nat.mod_eq_of_lt htotal] at hrequired
      have hle : total (collectProcesses active) ≤ length.toNat := by omega
      refine ⟨_, hquery, ?_⟩
      rw [if_pos hle]
      refine ⟨rfl, ?_, (decodes_iff base hnames htotal).mpr (hterminated hle)⟩
      rwa [length_encodeAll base hnames]

/-- The name `smss.exe` is followed by no terminator. -/
theorem smss_not_answered : ¬ ∀ active base length, Answers active base length := by
  intro h
  let smss : Eprocess :=
    { uniqueProcessId := 0x1c8
      imageFileName := ascii ['s', 'm', 's', 's', '.', 'e', 'x', 'e'] ++ List.replicate 7 0
      length_imageFileName := rfl }
  obtain ⟨r, hr, hanswer⟩ := h [smss] 0 0x1000
  have hquery := query_long [smss] 0x1000 (by decide) 0
  rw [if_pos (by decide)] at hquery
  obtain rfl := Option.some.inj (hquery.symm.trans hr)
  rw [if_pos (by decide)] at hanswer
  exact (decodes_iff 0 (fun proc => length_name_le) (by decide)).mp hanswer.2.2 _ List.mem_cons_self (by decide)

end Kernemul.SystemProcesses
