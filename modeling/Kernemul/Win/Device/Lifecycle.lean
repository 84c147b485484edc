import Kernemul.Win.Device.Books

/-!
# The life of a device handle

What the driver is told about an open, what the handles of it lead to and what it leaves in the pool,
over runs of opens, duplications and closes.
-/

namespace Kernemul.Device

open Segments

def State.isOpen (s : State) (body : Nat) : Bool := s.opens.any fun o => o.body = body

def State.requestsFor (s : State) (body : Nat) : List (Major × Nat × Nat) :=
  (s.irps.filter fun irp => irp.about = some body).map fun irp =>
    (irp.major, irp.deviceObject, irp.fileObject)

/-- What the driver is to receive about an open that is over, once. -/
def State.closing (s : State) (host : FileHost) : List (Major × Nat × Nat) :=
  match s.driver host.deviceObject with
  | none => []
  | some driver => ([Major.cleanup, Major.close].filter driver.handles).map fun major =>
      (major, host.deviceObject, host.fileObject)

/-- The law of device handles, for a pool with the live set `live₀` before anything was opened. -/
structure Law (live₀ : Live) (s : State) : Prop where
  /-- The driver is told about an open when it is over, and once. -/
  requests : ∀ body host, s.deviceHost body = some host →
    s.requestsFor body = if s.isOpen body then [] else s.closing host
  /-- A handle leads to a file object that is live and its own. -/
  resolves : ∀ handle e host, s.handles.lookup handle = some e → s.deviceHost e.bodyAddr = some host →
    s.isOpen e.bodyAddr ∧
      s.pool.live.lookup host.fileObject = some (fileObjectSize, fileTag) ∧
      (s.fileObjects host.fileObject).map FileObject.deviceObject = some host.deviceObject
  /-- What is live in the pool beside `live₀` is what the opens have that are not over. -/
  pool : s.pool.live.entries.Perm (s.opens.flatMap Open.blocks ++ live₀)

structure Start (s : State) : Prop where
  space : SpaceInv s
  wchar : s.wcharSize = 2 ∨ s.wcharSize = 4
  objects : ∀ addr, (s.objects addr).isSome → addr < s.kernelNext
  handles : ∀ handle e, s.handles.lookup handle = some e → handle < s.nextHandle
  opens : s.opens = []
  hosts : ∀ addr, s.deviceHost addr = none
  irps : ∀ irp ∈ s.irps, irp.about = none

def State.isLast (s : State) (handle bodyAddr : Nat) : Prop :=
  ∀ e ∈ s.handles.entries, e.2.bodyAddr = bodyAddr → e.1 = handle

instance (s : State) (handle bodyAddr : Nat) : Decidable (s.isLast handle bodyAddr) :=
  inferInstanceAs (Decidable (∀ _ ∈ _, _))

/-- An open without a name buffer may be refused and closed, and is closed through its last handle. -/
def Call.Proper (s : State) : Call → Prop
  | .createFile device path fileHandle answer => fileHandle = .unmapped ∨ s.nameLength path = 0 ∨
      (s.driver device).any (fun driver => driver.handles .create) ∧ answer.msb = false
  | .close handle => ∀ e, s.handles.lookup handle = some e → ∀ host, s.deviceHost e.bodyAddr = some host →
      s.isLast handle e.bodyAddr ∧ s.nameLength host.path = 0
  | _ => True

instance (s : State) : DecidablePred (Call.Proper s)
  | .createFile .. => inferInstanceAs (Decidable (_ ∨ _ ∨ _ ∧ _))
  | .close _ => inferInstanceAs (Decidable (∀ e, _ = some e → ∀ host, _ = some host → _ ∧ _))
  | .duplicate .. => inferInstanceAs (Decidable True)
  | .openByPointer .. => inferInstanceAs (Decidable True)

/-! ## The invariant -/

structure Inv (held : Live) (s : State) : Prop where
  books : Books held s
  handles : ∀ handle e, s.handles.lookup handle = some e → handle < s.nextHandle
  named : ∀ handle e, s.handles.lookup handle = some e → (s.deviceHost e.bodyAddr).isSome →
    s.isOpen e.bodyAddr
  requests : ∀ body host, s.deviceHost body = some host →
    s.requestsFor body = if s.isOpen body then [] else s.closing host
  about : ∀ irp ∈ s.irps, ∀ body, irp.about = some body → (s.objects body).isSome

variable {s : State}

theorem Start.inv (h : Start s) : Inv s.pool.live.entries s := by
  refine ⟨⟨h.space, h.wchar, h.objects, fun o ho => ?_, ?_, ?_⟩, h.handles, fun _ e _ he => ?_,
    fun body host hb => ?_, fun irp hirp body hb => ?_⟩
  · rw [h.opens] at ho
    cases ho
  · rw [h.opens]
    exact List.nodup_nil
  · rw [h.opens]
    exact .refl _
  · rw [h.hosts] at he
    cases he
  · rw [h.hosts] at hb
    cases hb
  · rw [h.irps irp hirp] at hb
    cases hb

theorem isOpen_iff {body : Nat} : s.isOpen body ↔ ∃ o ∈ s.opens, o.body = body := by
  unfold State.isOpen
  simp

theorem Inv.open_of_handle {held : Live} (h : Inv held s) {handle : Nat} {e : HandleEntry}
    {host : FileHost} (he : s.handles.lookup handle = some e) (hhost : s.deviceHost e.bodyAddr = some host) :
    ∃ o ∈ s.opens, o.body = e.bodyAddr ∧ host.fileObject = o.fileObject ∧
      (o.nameBuffer = 0 ↔ s.nameLength host.path = 0) ∧ (s.driver host.deviceObject).isSome ∧
      s.fileObjects o.fileObject =
        some ⟨host.deviceObject, fileName (s.nameLength host.path) s.wcharSize o.nameBuffer⟩ := by
  obtain ⟨o, ho, hbody⟩ := isOpen_iff.mp (h.named handle e he (by rw [hhost]; rfl))
  obtain ⟨host', hhost', hrest⟩ := h.books.opens o ho
  rw [hbody, hhost] at hhost'
  obtain rfl := Option.some.inj hhost'
  exact ⟨o, ho, hbody, hrest⟩

theorem Inv.law {held : Live} (h : Inv held s) : Law held s := by
  refine ⟨h.requests, fun handle e host he hhost => ?_, h.books.live⟩
  obtain ⟨o, ho, hbody, hfile, -, -, hobj⟩ := h.open_of_handle he hhost
  refine ⟨isOpen_iff.mpr ⟨o, ho, hbody⟩, ?_, ?_⟩
  · refine AList.mem_lookup_iff.mpr (h.books.live.mem_iff.mpr (List.mem_append_left _ ?_))
    exact List.mem_flatMap.mpr ⟨o, ho, by simp [Open.blocks, hfile]⟩
  · rw [hfile, hobj]
    rfl

theorem Books.not_law {held : Live} {x : Sigma fun _ : Nat => Nat × BitVec 32}
    (h : Books (x :: held) s) : ¬ Law held s := by
  intro hlaw
  have h1 := h.live.length_eq
  have h2 := hlaw.pool.length_eq
  simp only [List.length_append, List.length_cons] at h1 h2
  omega

/-! ## Opening -/

/-- A handler changed no more than memory, file objects and requests of one kind. -/
structure Frame (about : Option Nat) (s s' : State) : Prop where
  wcharSize : s'.wcharSize = s.wcharSize
  objects : s'.objects = s.objects
  handles : s'.handles = s.handles
  nextHandle : s'.nextHandle = s.nextHandle
  opens : s'.opens = s.opens
  irps : ∃ irps, s'.irps = s.irps ++ irps ∧ ∀ irp ∈ irps, irp.about = about

theorem Frame.refl (about : Option Nat) (s : State) : Frame about s s :=
  ⟨rfl, rfl, rfl, rfl, rfl, [], by simp, by simp⟩

theorem Frame.trans {about : Option Nat} {s₁ s₂ : State} (h : Frame about s s₁)
    (h' : Frame about s₁ s₂) : Frame about s s₂ := by
  obtain ⟨l, hl, hl'⟩ := h.irps
  obtain ⟨m, hm, hm'⟩ := h'.irps
  refine ⟨h'.wcharSize.trans h.wcharSize, h'.objects.trans h.objects, h'.handles.trans h.handles,
    h'.nextHandle.trans h.nextHandle, h'.opens.trans h.opens, l ++ m, ?_, fun irp hirp => ?_⟩
  · rw [hm, hl, List.append_assoc]
  · rcases List.mem_append.mp hirp with hirp | hirp
    · exact hl' irp hirp
    · exact hm' irp hirp

theorem Taken.frame {s' : State} {addr size : Nat} {tag : BitVec 32} (h : Taken s s' addr size tag)
    (about : Option Nat) : Frame about s s' := by
  rw [h.rest]
  exact ⟨rfl, rfl, rfl, rfl, rfl, [], by simp, by simp⟩

theorem Given.frame {s' : State} {addr : Nat} (h : Given s s' addr) (about : Option Nat) :
    Frame about s s' := by
  rw [h.rest]
  exact ⟨rfl, rfl, rfl, rfl, rfl, [], by simp, by simp⟩

theorem Dispatched.frame {s' : State} {driver : Driver} {irp : Irp} {answer status : Status}
    (h : Dispatched s s' driver irp answer status) : Frame irp.about s s' := by
  rw [h.rest]
  refine ⟨rfl, rfl, rfl, rfl, rfl, _, rfl, fun i hi => ?_⟩
  split at hi
  · rw [List.mem_singleton.mp hi]
  · cases hi

theorem requestsFor_append {s' : State} {irps : List Irp} (h : s'.irps = s.irps ++ irps)
    {body : Nat} (hirps : ∀ irp ∈ irps, irp.about ≠ some body) :
    s'.requestsFor body = s.requestsFor body := by
  unfold State.requestsFor
  have hnone : irps.filter (fun irp => irp.about = some body) = [] :=
    List.filter_eq_nil_iff.mpr fun irp hirp => by simpa using hirps irp hirp
  rw [h, List.filter_append, hnone, List.append_nil]

section
variable {held held' : Live} {s s' : State}

theorem Inv.frame (h : Inv held s) (hb : Books held' s') (hf : Frame none s s') : Inv held' s' := by
  obtain ⟨hwchar, hobjects, hhandles, hnext, hopens, irps, hirps, hnone⟩ := hf
  have hhost : ∀ body, s'.deviceHost body = s.deviceHost body := fun body => by
    simp only [State.deviceHost, State.fileHost, hobjects]
  have hopen : ∀ body, s'.isOpen body = s.isOpen body := fun body => by
    simp only [State.isOpen, hopens]
  have hclosing : ∀ host, s'.closing host = s.closing host := fun host => by
    simp only [State.closing, State.driver, hobjects]
  refine ⟨hb, ?_, ?_, fun body host hbody => ?_, fun irp hirp body habout => ?_⟩
  · rw [hhandles, hnext]
    exact h.handles
  · intro handle e he hsome
    rw [hhandles] at he
    rw [hhost] at hsome
    rw [hopen]
    exact h.named handle e he hsome
  · rw [hhost] at hbody
    rw [requestsFor_append hirps fun irp hirp => by rw [hnone irp hirp]; simp, hopen, hclosing]
    exact h.requests body host hbody
  · rw [hobjects]
    rw [hirps] at hirp
    rcases List.mem_append.mp hirp with hold | hnew
    · exact h.about irp hold body habout
    · rw [hnone irp hnew] at habout
      cases habout

theorem Books.perm (h : Books held s) (hp : held.Perm held') : Books held' s :=
  ⟨h.space, h.wchar, h.objects, h.opens, h.bodies, h.live.trans (hp.append_left _)⟩

def nameBlocks (nameBuffer nameSize : Nat) : Live :=
  if nameBuffer = 0 then [] else [⟨nameBuffer, nameSize, nameTag⟩]

variable {path : List UInt8}

theorem nameBuffer_spec (h : Books held s) {nameBuffer : Nat} (hn : s.nameBuffer path = some (nameBuffer, s')) :
    Books (nameBlocks nameBuffer (s.nameLength path + s.wcharSize) ++ held) s' ∧ Frame none s s' ∧
      (nameBuffer = 0 ↔ s.nameLength path = 0) := by
  unfold State.nameBuffer at hn
  unfold nameBlocks
  split at hn
  · rename_i h0
    cases hn
    exact ⟨h, .refl none s, by simp [h0]⟩
  · rename_i h0
    have hlt : s.nameLength path < 2 ^ 16 := Nat.mod_lt _ (by decide)
    have hw : s.wcharSize ≤ 4 := by rcases h.wchar with hw | hw <;> omega
    have htaken := poolAllocate_spec h.space (by omega) (by omega) hn
    rw [if_neg htaken.ne_zero]
    exact ⟨h.take htaken, htaken.frame none, by simp [htaken.ne_zero, h0]⟩

/-- What `open_device` has done when the driver has answered. -/
structure Asked (held : Live) (s s₁ : State) (device : Nat) (path : List UInt8)
    (fileObject nameBuffer : Nat) : Prop where
  books : Books (nameBlocks nameBuffer (s.nameLength path + s.wcharSize) ++
    ⟨fileObject, fileObjectSize, fileTag⟩ :: held) s₁
  frame : Frame none s s₁
  name : nameBuffer = 0 ↔ s.nameLength path = 0
  object : s₁.fileObjects fileObject =
    some ⟨device, fileName (s.nameLength path) s.wcharSize nameBuffer⟩

variable {device : Nat}

theorem openDevice_spec (h : Books held s) {fileHandle : Bool}
    {answer status : Status} {driver : Driver} (hdriver : s.driver device = some driver)
    (ho : s.openDevice device path fileHandle answer = some (status, s')) :
    ∃ fileObject nameBuffer s₁, Asked held s s₁ device path fileObject nameBuffer ∧
      if driver.handles .create ∧ answer.msb = false then
        s₁.finishOpen device path fileHandle fileObject nameBuffer = some (status, s')
      else s' = s₁.poolFree fileObject := by
  unfold State.openDevice at ho
  obtain ⟨⟨fileObject, s₁⟩, hfile, ho⟩ := Option.bind_eq_some_iff.mp ho
  have htaken := poolAllocate_spec h.space (by decide) (by decide) hfile
  simp only [if_neg htaken.ne_zero] at ho
  obtain ⟨⟨nameBuffer, s₂⟩, hname, ho⟩ := Option.bind_eq_some_iff.mp ho
  obtain ⟨hbooks, hframe₂, hzero⟩ := nameBuffer_spec (h.take htaken) hname
  obtain ⟨⟨status₁, s₃⟩, hdispatch, ho⟩ := Option.bind_eq_some_iff.mp ho
  have hframe := (htaken.frame none).trans hframe₂
  have hlen : ∀ {t : State}, Frame none s t → t.nameLength path = s.nameLength path := fun hf => by
    unfold State.nameLength
    rw [hf.wcharSize]
  dsimp only at hdispatch ho
  rw [hlen (htaken.frame none)] at hzero hbooks
  rw [(htaken.frame none).wcharSize] at hbooks
  have hwritten := hbooks.write (List.mem_append_right _ (List.mem_cons_self ..))
    ⟨device, fileName (s₂.nameLength path) s₂.wcharSize nameBuffer⟩
  have hdriver' : s₂.driver device = some driver := by
    unfold State.driver at hdriver ⊢
    rwa [hframe.objects]
  have hd := dispatchIrp_spec hwritten.space hdriver' hdispatch
  have hasked : Asked held s s₃ device path fileObject nameBuffer := by
    refine ⟨hwritten.dispatch hd, hframe.trans (Frame.trans ?_ hd.frame), hzero, ?_⟩
    · exact ⟨rfl, rfl, rfl, rfl, rfl, [], by simp, by simp⟩
    · rw [hd.rest, ← hlen hframe, ← hframe.wcharSize]
      exact Function.update_self ..
  refine ⟨fileObject, nameBuffer, s₃, hasked, ?_⟩
  have hstatus := hd.status
  cases hroutine : driver.handles .create with
  | false =>
    simp only [hroutine, Bool.false_eq_true, if_false] at hstatus
    rw [hstatus, if_pos (by decide)] at ho
    simp only [Bool.false_eq_true, false_and, if_false]
    cases ho
    rfl
  | true =>
    simp only [hroutine, if_true] at hstatus
    rw [hstatus] at ho
    cases hmsb : answer.msb with
    | true =>
      rw [hmsb, if_pos rfl] at ho
      simp only [Bool.true_eq_false, and_false, if_false]
      cases ho
      rfl
    | false =>
      rw [hmsb, if_neg (by simp)] at ho
      rw [if_pos ⟨rfl, rfl⟩]
      exact ho

theorem Books.advance (h : Books held s) {n : Nat} (hn : IsPage n) (hle : n ≤ s.physLeft) :
    Books held { s with kernelNext := s.kernelNext + n, physLeft := s.physLeft - n } :=
  ⟨h.space.advance hn hle, h.wchar, fun a ha => (h.objects a ha).trans_le (Nat.le_add_right _ _),
    fun o ho => (h.opens o ho).congr rfl (fun _ _ => rfl) rfl, h.bodies, h.live⟩

theorem deviceHost_count (addr body : Nat) (f : Header → Header) :
    (s.count addr f).deviceHost body = s.deviceHost body := by
  unfold State.deviceHost
  rw [fileHost_eq, count_objects, ← fileHost_eq]

theorem closing_count (addr : Nat) (f : Header → Header) (host : FileHost) :
    (s.count addr f).closing host = s.closing host := by
  unfold State.closing
  rw [driver_eq, count_objects, ← driver_eq]

theorem Inv.count (h : Inv held s) (addr : Nat) (f : Header → Header) : Inv held (s.count addr f) := by
  refine ⟨h.books.count addr f, h.handles, fun handle e he hsome => ?_, fun body host hbody => ?_,
    fun irp hirp body habout => ?_⟩
  · rw [deviceHost_count] at hsome
    exact h.named handle e he hsome
  · rw [deviceHost_count] at hbody
    rw [closing_count]
    exact h.requests body host hbody
  · have hsome := congrArg Option.isSome (count_objects s addr body f)
    rw [Option.isSome_map, Option.isSome_map] at hsome
    rw [hsome]
    exact h.about irp hirp body habout

theorem Inv.createHandle (h : Inv held s) {bodyAddr : Nat} (access : BitVec 32)
    (hopen : (s.deviceHost bodyAddr).isSome → s.isOpen bodyAddr) :
    Inv held (s.createHandle bodyAddr access).2 := by
  unfold State.createHandle
  split
  · exact h
  · refine Inv.count (s := { s with nextHandle := _, handles := _ }) ?_ _ _
    have hlookup : ∀ handle e, (s.handles.insert s.nextHandle ⟨bodyAddr, access⟩).lookup handle = some e →
        (handle = s.nextHandle ∧ e.bodyAddr = bodyAddr) ∨ s.handles.lookup handle = some e := by
      intro handle e he
      by_cases hh : handle = s.nextHandle
      · rw [hh, AList.lookup_insert] at he
        cases he
        exact Or.inl ⟨hh, rfl⟩
      · rw [AList.lookup_insert_ne hh] at he
        exact Or.inr he
    refine ⟨h.books.withHandles _ _, fun handle e he => ?_, fun handle e he hsome => ?_, h.requests, h.about⟩
    · rcases hlookup handle e he with ⟨rfl, -⟩ | hold
      · exact Nat.lt_add_of_pos_right (by decide)
      · exact Nat.lt_add_right 4 (h.handles handle e hold)
    · rcases hlookup handle e he with ⟨-, hbody⟩ | hold
      · rw [hbody] at hsome ⊢
        exact hopen hsome
      · exact h.named handle e hold hsome

/-- The state with an object for a new open, at the first address not handed out yet. -/
def State.withOpen (s : State) (device : Nat) (path : List UInt8) (fileObject nameBuffer : Nat) : State :=
  let addr := s.kernelNext + objectHeaderSize
  { s with
    kernelNext := s.kernelNext + 0x1000
    physLeft := s.physLeft - 0x1000
    objects := Function.update s.objects addr (some ⟨some ⟨1, 0⟩, .file ⟨path, device, fileObject⟩⟩)
    opens := ⟨addr, fileObject, nameBuffer, s.nameLength path + s.wcharSize⟩ :: s.opens }

theorem Inv.openObject {fileObject nameBuffer : Nat}
    (h : Inv (nameBlocks nameBuffer (s.nameLength path + s.wcharSize) ++
      ⟨fileObject, fileObjectSize, fileTag⟩ :: held) s) (hdevice : device ≠ 0)
    (hdriver : (s.driver device).isSome) (hname : nameBuffer = 0 ↔ s.nameLength path = 0)
    (hobject : s.fileObjects fileObject =
      some ⟨device, fileName (s.nameLength path) s.wcharSize nameBuffer⟩)
    (hle : 0x1000 ≤ s.physLeft) : Inv held (s.withOpen device path fileObject nameBuffer) := by
  have hfresh : s.objects (s.kernelNext + objectHeaderSize) = none := by
    by_contra hne
    have := h.books.objects _ (Option.isSome_iff_ne_none.mpr hne)
    omega
  have hother : ∀ a, a ≠ s.kernelNext + objectHeaderSize →
      (s.withOpen device path fileObject nameBuffer).objects a = s.objects a :=
    fun a ha => Function.update_of_ne ha ..
  have hsome : ∀ a, (s.objects a).isSome → a ≠ s.kernelNext + objectHeaderSize := by
    rintro a ha rfl
    rw [hfresh] at ha
    cases ha
  have hself : (s.withOpen device path fileObject nameBuffer).objects
      (s.kernelNext + objectHeaderSize) = some ⟨some ⟨1, 0⟩, .file ⟨path, device, fileObject⟩⟩ :=
    Function.update_self ..
  have hdrivers : ∀ a, (s.withOpen device path fileObject nameBuffer).driver a = s.driver a := by
    intro a
    unfold State.driver
    by_cases ha : a = s.kernelNext + objectHeaderSize
    · rw [ha, hself, hfresh]
      rfl
    · rw [hother a ha]
  have hhosts : ∀ a, a ≠ s.kernelNext + objectHeaderSize →
      (s.withOpen device path fileObject nameBuffer).deviceHost a = s.deviceHost a := by
    intro a ha
    simp only [State.deviceHost, State.fileHost, hother a ha]
  have hopens : ∀ body, body ≠ s.kernelNext + objectHeaderSize →
      (s.withOpen device path fileObject nameBuffer).isOpen body = s.isOpen body := by
    intro body hbody
    simp only [State.isOpen, State.withOpen, List.any_cons, Ne.symm hbody, decide_false, Bool.false_or]
  have hself_host : (s.withOpen device path fileObject nameBuffer).deviceHost
      (s.kernelNext + objectHeaderSize) = some ⟨path, device, fileObject⟩ := by
    simp [State.deviceHost, State.fileHost, hself, Host.file?, FileHost.isDevice, hdevice]
  refine ⟨?_, h.handles, fun handle e he hsomehost => ?_, fun body host hbody => ?_,
    fun irp hirp body habout => ?_⟩
  · refine ((h.books.advance (n := 0x1000) rfl hle).perm List.perm_middle).addOpen
      (o := ⟨s.kernelNext + objectHeaderSize, fileObject, nameBuffer, s.nameLength path + s.wcharSize⟩)
      (fun a ha => congrArg (Option.map ObjectEntry.host) (hother a (hsome a ha))) (fun a ha => ?_)
      (Option.isNone_iff_eq_none.mpr hfresh) ?_
    · by_cases hnew : a = s.kernelNext + objectHeaderSize
      · rw [hnew]
        exact Nat.add_lt_add_left (by decide) _
      · rw [Function.update_of_ne hnew] at ha
        exact (h.books.objects a ha).trans_le (Nat.le_add_right _ _)
    · exact ⟨⟨path, device, fileObject⟩, hself_host, rfl, hname, by rwa [← hdrivers] at hdriver, hobject⟩
  · by_cases hnew : e.bodyAddr = s.kernelNext + objectHeaderSize
    · exact isOpen_iff.mpr ⟨_, List.mem_cons_self .., hnew.symm⟩
    · rw [hhosts _ hnew] at hsomehost
      rw [hopens _ hnew]
      exact h.named handle e he hsomehost
  · have hclosing : (s.withOpen device path fileObject nameBuffer).closing host = s.closing host := by
      unfold State.closing
      rw [hdrivers]
    have hrequests : (s.withOpen device path fileObject nameBuffer).requestsFor body =
        s.requestsFor body := rfl
    rw [hclosing, hrequests]
    by_cases hnew : body = s.kernelNext + objectHeaderSize
    · -- nothing was received about an object that was not there
      have hopen : (s.withOpen device path fileObject nameBuffer).isOpen body :=
        isOpen_iff.mpr ⟨_, List.mem_cons_self .., hnew.symm⟩
      rw [if_pos hopen]
      unfold State.requestsFor
      rw [List.map_eq_nil_iff, List.filter_eq_nil_iff]
      intro irp hirp habout
      refine hsome body (h.about irp hirp body (by simpa using habout)) hnew
    · rw [hhosts _ hnew] at hbody
      rw [hopens _ hnew]
      exact h.requests body host hbody
  · have hold := h.about irp hirp body habout
    rwa [hother body (hsome body hold)]

theorem Inv.finishOpen {fileHandle : Bool} {fileObject nameBuffer : Nat} {status : Status}
    (h : Inv (nameBlocks nameBuffer (s.nameLength path + s.wcharSize) ++
      ⟨fileObject, fileObjectSize, fileTag⟩ :: held) s) (hdevice : device ≠ 0)
    (hdriver : (s.driver device).isSome) (hname : nameBuffer = 0 ↔ s.nameLength path = 0)
    (hobject : s.fileObjects fileObject =
      some ⟨device, fileName (s.nameLength path) s.wcharSize nameBuffer⟩)
    (hf : s.finishOpen device path fileHandle fileObject nameBuffer = some (status, s')) :
    Inv held s' := by
  unfold State.finishOpen at hf
  obtain ⟨⟨addr, s₁⟩, hcreate, hf⟩ := Option.bind_eq_some_iff.mp hf
  unfold State.createObject at hcreate
  obtain ⟨⟨base, s₀⟩, halloc, hcreate⟩ := Option.bind_eq_some_iff.mp hcreate
  obtain ⟨rfl, hle, rfl⟩ := alloc_spec h.books.space halloc
  cases hcreate
  have hpos := h.books.space.pos
  have hsize : sizeAlign (objectHeaderSize + 8) = 0x1000 := by decide
  have hopened := h.openObject hdevice hdriver hname hobject (hsize ▸ hle)
  rw [hsize] at hf
  simp only [if_neg (show s.kernelNext + objectHeaderSize ≠ 0 by omega)] at hf
  cases hf
  cases fileHandle with
  | false => exact hopened
  | true =>
    exact hopened.createHandle 0 fun _ => isOpen_iff.mpr ⟨_, List.mem_cons_self .., rfl⟩

theorem Inv.createFile {fileHandle : Operand} {answer : Status}
    {result : Answer} (h : Inv held s) (hvalid : (Call.createFile device path fileHandle answer).Valid s)
    (hc : Device.createFile s device path fileHandle answer = some (result, s')) :
    ((Call.createFile device path fileHandle answer).Proper s → Inv held s') ∧
      (¬ (Call.createFile device path fileHandle answer).Proper s → ∃ x, Books (x :: held) s') := by
  obtain ⟨hdevice, hsome⟩ := hvalid
  obtain ⟨driver, hdriver⟩ := Option.isSome_iff_exists.mp hsome
  unfold Device.createFile at hc
  split at hc
  · rename_i hunmapped
    cases hc
    exact ⟨fun _ => h, fun hnot => absurd (Or.inl hunmapped) hnot⟩
  · rename_i hmapped
    obtain ⟨⟨status, s₁⟩, hopen, heq⟩ := Option.map_eq_some_iff.mp hc
    cases heq
    obtain ⟨fileObject, nameBuffer, s₁, hasked, hend⟩ := openDevice_spec h.books hdriver hopen
    have hlen : s₁.nameLength path = s.nameLength path := by
      unfold State.nameLength
      rw [hasked.frame.wcharSize]
    by_cases haccept : driver.handles .create ∧ answer.msb = false
    · rw [if_pos haccept] at hend
      have hany : (s.driver device).any (fun driver => driver.handles .create) := by
        rw [hdriver]
        exact haccept.1
      have hinv := h.frame hasked.books hasked.frame
      rw [← hlen, ← hasked.frame.wcharSize] at hinv
      refine ⟨fun _ => hinv.finishOpen hdevice ?_ ?_ ?_ hend,
        fun hnot => absurd (Or.inr (Or.inr ⟨hany, haccept.2⟩)) hnot⟩
      · unfold State.driver at hsome ⊢
        rwa [hasked.frame.objects]
      · rw [hlen]
        exact hasked.name
      · rw [hlen, hasked.frame.wcharSize]
        exact hasked.object
    · rw [if_neg haccept] at hend
      subst hend
      have hgiven := poolFree_spec hasked.books.space fileObject
      have hbooks := (hasked.books.perm List.perm_middle).give hgiven
      have hframe := hasked.frame.trans (hgiven.frame none)
      unfold nameBlocks at hbooks
      by_cases hzero : s.nameLength path = 0
      · rw [if_pos (hasked.name.mpr hzero)] at hbooks
        exact ⟨fun _ => h.frame hbooks hframe, fun hnot => absurd (Or.inr (Or.inl hzero)) hnot⟩
      · rw [if_neg fun h0 => hzero (hasked.name.mp h0)] at hbooks
        refine ⟨fun hproper => ?_, fun _ => ⟨_, hbooks⟩⟩
        rcases hproper with hu | h0 | ⟨hany, hmsb⟩
        · exact absurd hu hmapped
        · exact absurd h0 hzero
        · rw [hdriver] at hany
          exact absurd ⟨hany, hmsb⟩ haccept

/-! ## Handles -/

theorem named_iff {bodyAddr : Nat} :
    s.named bodyAddr ↔ ∃ handle e, s.handles.lookup handle = some e ∧ e.bodyAddr = bodyAddr := by
  unfold State.named
  rw [List.any_eq_true]
  constructor
  · rintro ⟨x, hx, hb⟩
    exact ⟨x.1, x.2, AList.mem_lookup_iff.mpr hx, by simpa using hb⟩
  · rintro ⟨handle, e, he, hb⟩
    exact ⟨⟨handle, e⟩, AList.mem_lookup_iff.mp he, by simpa using hb⟩

variable {handle : Nat} {e : HandleEntry}

theorem lookup_erase_some {m : AList fun _ : Nat => HandleEntry} {handle' : Nat}
    (h : (m.erase handle).lookup handle' = some e) : handle' ≠ handle ∧ m.lookup handle' = some e := by
  by_cases heq : handle' = handle
  · rw [heq, AList.lookup_erase] at h
    cases h
  · rw [AList.lookup_erase_ne heq] at h
    exact ⟨heq, h⟩

theorem named_erase {bodyAddr : Nat} :
    ({ s with handles := s.handles.erase handle } : State).named bodyAddr ↔ ¬ s.isLast handle bodyAddr := by
  rw [named_iff]
  unfold State.isLast
  push Not
  constructor
  · rintro ⟨handle', e, he, hb⟩
    obtain ⟨hne, he⟩ := lookup_erase_some he
    exact ⟨⟨handle', e⟩, AList.mem_lookup_iff.mp he, hb, hne⟩
  · rintro ⟨⟨handle', e⟩, he, hb, hne⟩
    exact ⟨handle', e, (AList.lookup_erase_ne hne).trans (AList.mem_lookup_iff.mpr he), hb⟩

theorem closeHandle_eq (he : s.handles.lookup handle = some e) :
    (s.closeHandle handle).2 = ({ s with
      handles := s.handles.erase handle
      opens := if s.isLast handle e.bodyAddr then s.opens.filter (fun o => o.body ≠ e.bodyAddr)
        else s.opens } : State).count e.bodyAddr fun h => { h with handleCount := h.handleCount - 1 } := by
  unfold State.closeHandle
  rw [he]
  by_cases hlast : s.isLast handle e.bodyAddr
  · have hnamed : ¬ ({ s with handles := s.handles.erase handle } : State).named e.bodyAddr :=
      fun hn => named_erase.mp hn hlast
    rw [if_pos hlast]
    exact if_neg hnamed
  · rw [if_neg hlast]
    exact if_pos (named_erase.mpr hlast)

/-- Closing a handle is no more than that, when its object is no open or keeps another handle. -/
theorem Inv.closeHandle (h : Inv held s) (handle : Nat)
    (hkeep : ∀ e, s.handles.lookup handle = some e → (s.deviceHost e.bodyAddr).isSome →
      ¬ s.isLast handle e.bodyAddr) : Inv held (s.closeHandle handle).2 := by
  cases he : s.handles.lookup handle with
  | none =>
    unfold State.closeHandle
    rw [he]
    exact h
  | some e =>
    -- no open is over: the object is none, or keeps a handle
    have hself : (if s.isLast handle e.bodyAddr then s.opens.filter (fun o => o.body ≠ e.bodyAddr)
        else s.opens) = s.opens := by
      split
      · rename_i hlast
        refine List.filter_eq_self.mpr fun o ho => ?_
        simp only [ne_eq, decide_eq_true_eq]
        intro hbody
        obtain ⟨host, hhost, -⟩ := h.books.opens o ho
        rw [hbody] at hhost
        exact hkeep e he (by rw [hhost]; rfl) hlast
      · rfl
    have herase : Inv held { s with handles := s.handles.erase handle } := by
      refine ⟨h.books.withHandles _ _, fun h' e' he' => ?_, fun h' e' he' hsome => ?_, h.requests, h.about⟩
      · exact h.handles h' e' (lookup_erase_some he').2
      · exact h.named h' e' (lookup_erase_some he').2 hsome
    rw [closeHandle_eq he, hself]
    exact herase.count _ _

/-- A further handle of an object that is no open, or an open that is not over. -/
theorem Inv.newHandle (h : Inv held s) {object : Nat} {access allowed : BitVec 32}
    (hopen : (s.deviceHost object).isSome → s.isOpen object)
    (hn : s.newHandle object access allowed = some (handle, s')) : Inv held s' := by
  unfold State.newHandle at hn
  split at hn
  · cases hn
  · obtain rfl : _ = s' := congrArg Prod.snd (Option.some.inj hn)
    refine (h.count object _).createHandle _ ?_
    rw [deviceHost_count]
    exact hopen

/-- The new handle of an object names it next to the others; what is no object gets none. -/
theorem newHandle_handles {object : Nat} {access allowed : BitVec 32}
    (hn : s.newHandle object access allowed = some (handle, s')) :
    (∃ a, s'.handles = s.handles.insert s.nextHandle ⟨object, a⟩) ∨
      s'.handles = s.handles ∧ s'.deviceHost object = none := by
  unfold State.newHandle at hn
  split at hn
  · cases hn
  · obtain rfl : _ = s' := congrArg Prod.snd (Option.some.inj hn)
    unfold State.createHandle
    split
    · rename_i hnone
      refine Or.inr ⟨rfl, ?_⟩
      rw [Option.eq_none_iff_forall_ne_some]
      intro host hhost
      have hsome := isSome_of_deviceHost hhost
      rw [← Option.not_isNone, hnone] at hsome
      cases hsome
    · exact Or.inl ⟨_, rfl⟩

theorem Inv.duplicateObject (h : Inv held s) (a : DuplicateArgs) (allowed : BitVec 32) :
    Inv held (Device.duplicateObject s a allowed).2 := by
  unfold Device.duplicateObject
  split
  · exact h
  split
  · exact h
  rename_i e he
  dsimp only
  split
  · exact h
  rename_i handle s₁ hnew
  have hinv : Inv held s₁ := h.newHandle (h.named _ e he) hnew
  split
  · exact hinv
  dsimp only
  split
  · -- the source is closed beside the handle just made
    refine hinv.closeHandle a.sourceHandle fun e' he' hsome => ?_
    rcases newHandle_handles hnew with ⟨access, hhandles⟩ | ⟨hhandles, hnone⟩
    · have hne : s.nextHandle ≠ a.sourceHandle := fun heq => by
        have := h.handles _ e he
        omega
      rw [hhandles, AList.lookup_insert_ne hne.symm, he] at he'
      obtain rfl := Option.some.inj he'
      intro hlast
      refine hne (hlast ⟨s.nextHandle, ⟨e.bodyAddr, access⟩⟩ (AList.mem_lookup_iff.mp ?_) rfl)
      rw [hhandles, AList.lookup_insert]
      rfl
    · rw [hhandles, he] at he'
      obtain rfl := Option.some.inj he'
      rw [hnone] at hsome
      cases hsome
  · exact hinv

theorem Inv.openObjectByPointer (h : Inv held s) {object : Nat} {desiredAccess allowed : BitVec 32}
    {handle : Operand} (hvalid : (Call.openByPointer object desiredAccess allowed handle).Valid s) :
    Inv held (Device.openObjectByPointer s object desiredAccess allowed handle).2 := by
  unfold Device.openObjectByPointer
  split
  · exact h
  split
  · exact h
  rename_i value s₁ hnew
  refine h.newHandle (fun hsome => ?_) hnew
  obtain ⟨handle', e, he, rfl⟩ := named_iff.mp (hvalid hsome)
  exact h.named handle' e he hsome

/-! ## Closing -/

/-- What `NtClose` has done when it comes to the handle. -/
structure Ended (held : Live) (s s₁ : State) (o : Open) (host : FileHost) : Prop where
  told : ∃ irps, s₁.irps = s.irps ++ irps ∧ (∀ irp ∈ irps, irp.about = some o.body) ∧
    irps.map (fun irp => (irp.major, irp.deviceObject, irp.fileObject)) = s.closing host
  frame : Frame (some o.body) s s₁
  books : Books (nameBlocks o.nameBuffer o.nameSize ++ held)
    { s₁ with opens := s.opens.filter fun p => p.body ≠ o.body }

theorem Inv.endOpen (h : Inv held s) {host : FileHost}
    (he : s.handles.lookup handle = some e) (hhost : s.deviceHost e.bodyAddr = some host)
    (hend : s.endOpen handle = some s') :
    ∃ o ∈ s.opens, o.body = e.bodyAddr ∧ (o.nameBuffer = 0 ↔ s.nameLength host.path = 0) ∧
      Ended held s s' o host := by
  obtain ⟨o, ho, hbody, hfile, hname, hdriver, -⟩ := h.open_of_handle he hhost
  obtain ⟨driver, hdriver⟩ := Option.isSome_iff_exists.mp hdriver
  obtain ⟨hfilehost, hdevice⟩ := deviceHost_eq_some hhost
  unfold State.endOpen at hend
  simp only [he, hfilehost, hdevice, if_true] at hend
  obtain ⟨⟨status₁, s₁⟩, hcleanup, hend⟩ := Option.bind_eq_some_iff.mp hend
  obtain ⟨⟨status₂, s₂⟩, hclose, hend⟩ := Option.bind_eq_some_iff.mp hend
  cases hend
  have hd₁ := dispatchIrp_spec h.books.space hdriver hcleanup
  have hdriver₁ : s₁.driver host.deviceObject = some driver := by
    unfold State.driver at hdriver ⊢
    rwa [hd₁.frame.objects]
  have hd₂ := dispatchIrp_spec hd₁.space hdriver₁ hclose
  have hbooks := (h.books.dispatch hd₁).dispatch hd₂
  have hopens : s₂.opens = s.opens := hd₂.frame.opens.trans hd₁.frame.opens
  have hgiven := poolFree_spec hbooks.space host.fileObject
  rw [← hbody] at hd₁ hd₂
  refine ⟨o, ho, hbody, hname, ?_, (hd₁.frame.trans hd₂.frame).trans (hgiven.frame _), ?_⟩
  · have h₁ := congrArg State.irps hd₁.rest
    have h₂ := congrArg State.irps hd₂.rest
    dsimp only at h₁ h₂
    refine ⟨_, (h₂.trans (congrArg (· ++ _) h₁)).trans (List.append_assoc ..), fun irp hirp => ?_, ?_⟩
    · rcases List.mem_append.mp hirp with hirp | hirp
      all_goals
        split at hirp
        · rw [List.mem_singleton.mp hirp]
        · cases hirp
    · unfold State.closing
      rw [hdriver]
      cases hc : driver.handles .cleanup <;> cases hl : driver.handles .close <;> simp [hc, hl]
  · have hdropped := hbooks.dropOpen (hopens ▸ ho)
    rw [hopens, Open.blocks, ← hfile] at hdropped
    exact hdropped.give (poolFree_spec hdropped.space host.fileObject)

theorem endOpen_of_none (he : s.handles.lookup handle = some e)
    (hnone : s.deviceHost e.bodyAddr = none) : s.endOpen handle = some s := by
  unfold State.endOpen
  rw [he]
  dsimp only
  cases hfile : s.fileHost e.bodyAddr with
  | none => rfl
  | some host =>
    have hdevice : host.isDevice = false := by
      unfold State.deviceHost at hnone
      rw [hfile] at hnone
      simpa using hnone
    dsimp only
    rw [if_neg (by simp [hdevice])]

theorem isOpen_drop {o : Open} (hopens : s'.opens = s.opens.filter fun p => p.body ≠ o.body) (body : Nat) :
    s'.isOpen body = if body = o.body then false else s.isOpen body := by
  rw [Bool.eq_iff_iff, isOpen_iff, hopens]
  split
  · rename_i heq
    simp [heq]
  · rename_i hne
    rw [isOpen_iff]
    constructor
    · rintro ⟨p, hp, hb⟩
      exact ⟨p, List.mem_of_mem_filter hp, hb⟩
    · rintro ⟨p, hp, hb⟩
      exact ⟨p, List.mem_filter.mpr ⟨hp, by simpa [hb] using hne⟩, hb⟩

theorem Ended.inv (h : Inv held s) {s₁ : State} {o : Open} {host : FileHost} (he : Ended held s s₁ o host)
    (ho : o ∈ s.opens) (hhost : s.deviceHost o.body = some host) (hname : o.nameBuffer = 0)
    (hlast : s.isLast handle o.body) :
    Inv held { s₁ with
      handles := s.handles.erase handle
      opens := s.opens.filter fun p => p.body ≠ o.body } := by
  obtain ⟨⟨irps, hirps, habout, htold⟩, hframe, hbooks⟩ := he
  have hdrop : ∀ body, ({ s₁ with
      handles := s.handles.erase handle
      opens := s.opens.filter fun p => p.body ≠ o.body } : State).isOpen body =
        if body = o.body then false else s.isOpen body := isOpen_drop rfl
  have hhosts : ∀ body, s₁.deviceHost body = s.deviceHost body := fun body => by
    simp only [State.deviceHost, State.fileHost, hframe.objects]
  unfold nameBlocks at hbooks
  rw [if_pos hname, List.nil_append] at hbooks
  refine ⟨hbooks.withHandles _ _, fun handle' e he => ?_, fun handle' e he hsome => ?_,
    fun body host' hbody => ?_, fun irp hirp body hb => ?_⟩
  · dsimp only
    rw [hframe.nextHandle]
    exact h.handles handle' e (lookup_erase_some he).2
  · obtain ⟨hne, he⟩ := lookup_erase_some he
    have hbody : e.bodyAddr ≠ o.body := fun heq => hne (hlast ⟨handle', e⟩ (AList.mem_lookup_iff.mp he) heq)
    rw [hdrop, if_neg hbody]
    exact h.named handle' e he (hhosts _ ▸ hsome)
  · replace hbody : s.deviceHost body = some host' := (hhosts body).symm.trans hbody
    have hclosing : s₁.closing host' = s.closing host' := by
      simp only [State.closing, State.driver, hframe.objects]
    rw [hdrop]
    by_cases heq : body = o.body
    · subst heq
      obtain rfl := Option.some.inj (hhost.symm.trans hbody)
      rw [if_pos rfl, if_neg (by simp)]
      refine Eq.trans ?_ (htold.trans hclosing.symm)
      have hbefore := h.requests o.body host hhost
      rw [if_pos (isOpen_iff.mpr ⟨o, ho, rfl⟩)] at hbefore
      have hall : irps.filter (fun irp => irp.about = some o.body) = irps :=
        List.filter_eq_self.mpr fun irp hirp => by simpa using habout irp hirp
      unfold State.requestsFor at hbefore ⊢
      dsimp only
      rw [hirps, List.filter_append, List.map_append, hbefore, hall, List.nil_append]
    · rw [if_neg heq]
      refine Eq.trans ?_ ((h.requests body host' hbody).trans (by rw [← hclosing]; rfl))
      refine requestsFor_append hirps fun irp hirp => ?_
      rw [habout irp hirp]
      exact fun hsome => heq (Option.some.inj hsome).symm
  · dsimp only at hirp ⊢
    rw [hframe.objects]
    rw [hirps] at hirp
    rcases List.mem_append.mp hirp with hold | hnew
    · exact h.about irp hold body hb
    · rw [habout irp hnew] at hb
      exact Option.some.inj hb ▸ isSome_of_deviceHost hhost

/-- A close that leaves an open with no block of its own beside the file object breaks the law: the
file object is gone while a handle names it, or a name buffer is nobody's. -/
theorem Ended.not_law (h : Inv held s) {s₁ : State} {o : Open} {host : FileHost} (he : Ended held s s₁ o host)
    (ho : o ∈ s.opens) (hnot : ¬ (s.isLast handle o.body ∧ o.nameBuffer = 0)) {live₁ : State}
    (hlive : live₁.pool.live = s₁.pool.live)
    (hopens : live₁.opens = if s.isLast handle o.body then s.opens.filter (fun p => p.body ≠ o.body)
      else s.opens) : ¬ Law held live₁ := by
  intro hlaw
  have h1 := he.books.live.length_eq
  have h2 := hlaw.pool.length_eq
  have hblocks := ((perm_dropOpen h.books.bodies ho).flatMap_right Open.blocks).length_eq
  rw [hlive, hopens] at h2
  simp only [List.flatMap_cons, List.length_append] at h1 h2 hblocks
  have hcount : o.blocks.length = 1 + (nameBlocks o.nameBuffer o.nameSize).length := Nat.add_comm _ 1
  split at h2
  · rename_i hlast
    unfold nameBlocks at h1
    rw [if_neg fun h0 => hnot ⟨hlast, h0⟩] at h1
    simp only [List.length_cons, List.length_nil] at h1
    omega
  · omega

theorem Inv.close (h : Inv held s) {result : Answer} (hc : Device.close s handle = some (result, s')) :
    ((Call.close handle).Proper s → Inv held s') ∧ (¬ (Call.close handle).Proper s → ¬ Law held s') := by
  unfold Device.close at hc
  obtain ⟨s₁, hend, hc⟩ := Option.bind_eq_some_iff.mp hc
  obtain rfl : (s₁.closeHandle handle).2 = s' := by
    cases hc
    rfl
  cases he : s.handles.lookup handle with
  | none =>
    have hsame : s₁ = s := by
      unfold State.endOpen at hend
      rw [he] at hend
      exact (Option.some.inj hend).symm
    rw [hsame]
    refine ⟨fun _ => h.closeHandle handle fun e he' => ?_, fun hnot => absurd (fun e he' => ?_) hnot⟩
    all_goals
      rw [he] at he'
      cases he'
  | some e =>
    cases hhost : s.deviceHost e.bodyAddr with
    | none =>
      have hsame : s₁ = s := by
        rw [endOpen_of_none he hhost] at hend
        exact (Option.some.inj hend).symm
      rw [hsame]
      refine ⟨fun _ => h.closeHandle handle fun e' he' hsome => ?_,
        fun hnot => absurd (fun e' he' host hhost' => ?_) hnot⟩
      all_goals obtain rfl := Option.some.inj (he.symm.trans he')
      · rw [hhost] at hsome
        cases hsome
      · rw [hhost] at hhost'
        cases hhost'
    | some host =>
      obtain ⟨o, ho, hbody, hname, hended⟩ := h.endOpen he hhost hend
      have hhandles := hended.frame.handles
      have hlast : s₁.isLast handle o.body ↔ s.isLast handle o.body := by
        unfold State.isLast
        rw [hhandles]
      rw [closeHandle_eq (hhandles ▸ he), hhandles, hended.frame.opens]
      rw [← hbody] at hhost ⊢
      simp only [hlast]
      by_cases hproper : s.isLast handle o.body ∧ s.nameLength host.path = 0
      · rw [if_pos hproper.1]
        have hinv := hended.inv h ho hhost (hname.mpr hproper.2) hproper.1
        refine ⟨fun _ => hinv.count _ _, fun hnot => absurd (fun e' he' host' hhost' => ?_) hnot⟩
        obtain rfl := Option.some.inj (he.symm.trans he')
        rw [← hbody] at hhost' ⊢
        obtain rfl := Option.some.inj (hhost.symm.trans hhost')
        exact hproper
      · refine ⟨fun hp => absurd (hbody ▸ hp e he host (hbody ▸ hhost)) hproper, fun _ => ?_⟩
        rw [← hname] at hproper
        exact hended.not_law h ho hproper rfl rfl

/-! ## Runs of calls -/

theorem Inv.step {call : Call} (h : Inv held s) (hvalid : call.Valid s)
    (hs : Device.step s call = some s') :
    (call.Proper s → Inv held s') ∧ (¬ call.Proper s → ¬ Law held s') := by
  obtain ⟨⟨answer, s₁⟩, hperform, rfl⟩ := Option.map_eq_some_iff.mp hs
  cases call with
  | createFile device path fileHandle answer =>
    obtain ⟨hinv, hnot⟩ := h.createFile hvalid hperform
    refine ⟨hinv, fun hp => ?_⟩
    obtain ⟨x, hbooks⟩ := hnot hp
    exact hbooks.not_law
  | close handle => exact h.close hperform
  | duplicate a allowed =>
    obtain rfl : _ = s₁ := congrArg Prod.snd (Option.some.inj hperform)
    exact ⟨fun _ => h.duplicateObject a allowed, fun hnot => absurd trivial hnot⟩
  | openByPointer object desiredAccess allowed handle =>
    obtain rfl : _ = s₁ := congrArg Prod.snd (Option.some.inj hperform)
    exact ⟨fun _ => h.openObjectByPointer hvalid, fun hnot => absurd trivial hnot⟩

end

/-- **The life of a device handle.** As long as opens without a name are closed through their last
handle, and opens with a name are accepted and stay open, the driver is told about every open once,
every handle leads to a live file object, and the pool has what it had before beside what the opens
that are not over have. The first other call breaks that. -/
theorem lifecycle {start s : State} {calls : List Call} (hstart : Start start)
    (hrun : Run.Steps step (fun s c => c.Valid s ∧ c.Proper s) start calls s) :
    Law start.pool.live.entries s ∧ ∀ call s', call.Valid s → step s call = some s' →
      (Law start.pool.live.entries s' ↔ call.Proper s) := by
  have hinv : Inv start.pool.live.entries s := by
    refine Run.Steps.invariant (P := fun s : State => Inv start.pool.live.entries s)
      (fun s call s' h hok hs => ?_) hrun hstart.inv
    exact (h.step hok.1 hs).1 hok.2
  refine ⟨hinv.law, fun call s' hvalid hs => ?_⟩
  obtain ⟨hproper, hnot⟩ := hinv.step hvalid hs
  exact ⟨fun hlaw => by_contra fun hp => hnot hp hlaw, fun hp => (hproper hp).law⟩

def deviceAddr : Nat := 0xFFFFF80000000000

def booted : State where
  wcharSize := 2
  kernelNext := 0xFFFFF80000001000
  physLeft := 0x1000000
  pool := .init
  objects := fun addr => if addr = deviceAddr then some ⟨none, .device ⟨fun _ => true⟩⟩ else none
  handles := ∅
  nextHandle := 4
  fileObjects := fun _ => none
  irps := []
  opens := []

theorem booted_start : Start booted := by
  refine ⟨⟨Pool.init_poolInv, by decide, by decide, by decide, fun run hrun => by cases hrun⟩, Or.inl rfl,
    fun addr hsome => ?_, fun handle e he => ?_, rfl, fun addr => ?_, fun irp hirp => by cases hirp⟩
  · simp only [booted] at hsome ⊢
    split at hsome
    · rename_i heq
      rw [heq]
      decide
    · cases hsome
  · cases he
  · simp only [State.deviceHost, State.fileHost, booted]
    split <;> rfl

def duplicateArgs (sourceHandle : Nat) (options : BitVec 32) : DuplicateArgs where
  sourceProcess := currentProcessHandle
  sourceHandle := sourceHandle
  targetProcess := currentProcessHandle
  targetHandle := .mapped
  desiredAccess := 0
  options := options

/-- Two opens, one by a name; both get a second handle, and the one without a name is closed. -/
def twoOpens : List Call :=
  [.createFile deviceAddr [0x41, 0x42] .mapped 0, .createFile deviceAddr [] .mapped 0,
    .openByPointer 0xFFFFF80000101038 0 0 .mapped, .duplicate (duplicateArgs 8 duplicateCloseSource) 0,
    .close 16]

theorem twoOpens_lifecycle :
    ∃ s, Run.Steps step (fun s c => c.Valid s ∧ c.Proper s) booted twoOpens s ∧
      s.handles.keys = [12, 4] ∧ (s.isOpen 0xFFFFF80000101038, s.isOpen 0xFFFFF80000102038) = (true, false) ∧
      (s.requestsFor 0xFFFFF80000102038).map Prod.fst = [.cleanup, .close] ∧
      Law booted.pool.live.entries s := by
  have hexec : ((Run.exec step (fun s c => decide (c.Valid s ∧ c.Proper s)) booted twoOpens).map fun s =>
      (s.handles.keys, (s.isOpen 0xFFFFF80000101038, s.isOpen 0xFFFFF80000102038),
        (s.requestsFor 0xFFFFF80000102038).map Prod.fst)) =
      some ([12, 4], (true, false), [.cleanup, .close]) := by decide +kernel
  obtain ⟨s, hs, hval⟩ := Option.map_eq_some_iff.mp hexec
  rw [Prod.mk.injEq, Prod.mk.injEq] at hval
  have hrun := Run.Steps.of_exec (fun _ _ => of_decide_eq_true) hs
  exact ⟨s, hrun, hval.1, hval.2.1, hval.2.2, (lifecycle booted_start hrun).1⟩

/-- Closing one of two handles frees the file object of the other. -/
theorem close_frees_shared :
    ¬ ∀ start s calls, Start start → Run.Steps step (fun s c => c.Valid s) start calls s →
      Law start.pool.live.entries s := by
  intro hall
  have hexec : ((Run.exec step (fun s c => decide (c.Valid s)) booted
      [.createFile deviceAddr [0x41, 0x42] .mapped 0, .duplicate (duplicateArgs 4 0) 0, .close 4]).map
      fun s => (s.handles.lookup 8).bind fun e => (s.deviceHost e.bodyAddr).map fun host =>
        s.pool.live.lookup host.fileObject) = some (some none) := by decide +kernel
  obtain ⟨s, hs, hval⟩ := Option.map_eq_some_iff.mp hexec
  obtain ⟨e, he, hval⟩ := Option.bind_eq_some_iff.mp hval
  obtain ⟨host, hhost, hgone⟩ := Option.map_eq_some_iff.mp hval
  have hrun := Run.Steps.of_exec (fun _ _ => of_decide_eq_true) hs
  have hlive := ((hall booted s _ booted_start hrun).resolves 8 e host he hhost).2.1
  rw [hgone] at hlive
  cases hlive

end Kernemul.Device
