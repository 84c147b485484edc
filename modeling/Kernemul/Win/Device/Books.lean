import Kernemul.Win.Device.Handlers

/-!
# What opens have from the pool

Every pool allocation of a handler has a lemma that names what it adds to the live set. `Books` says
that the live set is what the opens have, beside what was live before and what the handler that runs
holds at the moment.
-/

namespace Kernemul.Device

open Segments

/-! ## The address space and the pool -/

/-- The pool is well formed, and its runs lie below the addresses still to be handed out. -/
structure SpaceInv (s : State) : Prop where
  pool : Pool.PoolInv s.pool
  page : IsPage s.kernelNext
  bound : s.kernelNext + s.physLeft < 2 ^ 64
  pos : 0 < s.kernelNext
  runs : ∀ run ∈ s.pool.runs, 0 < run.base ∧ run.stop ≤ s.kernelNext

variable {s s' : State}

theorem alloc_spec (h : SpaceInv s) {size base : Nat}
    (ha : s.alloc size = some (base, s')) : base = s.kernelNext ∧ sizeAlign size ≤ s.physLeft ∧
      s' = { s with kernelNext := s.kernelNext + sizeAlign size
                    physLeft := s.physLeft - sizeAlign size } := by
  have hbound := h.bound
  unfold State.alloc at ha
  simp only at ha
  split at ha
  · rename_i hle
    rw [wrap_of_lt (by omega)] at ha
    cases ha
    exact ⟨rfl, hle, rfl⟩
  · cases ha

theorem SpaceInv.advance (h : SpaceInv s) {n : Nat} (hn : IsPage n) (hle : n ≤ s.physLeft) :
    SpaceInv { s with kernelNext := s.kernelNext + n, physLeft := s.physLeft - n } := by
  have hbound := h.bound
  refine ⟨h.pool, h.page.add hn, ?_, ?_, fun run hrun => ?_⟩
  · dsimp only
    omega
  · exact Nat.add_pos_left h.pos _
  · obtain ⟨h1, h2⟩ := h.runs run hrun
    exact ⟨h1, h2.trans (Nat.le_add_right _ _)⟩

theorem newRun_spec {blocks : Pool.Blocks} {size next : Nat} (hs : size < 2 ^ 63) {run : Seg Unit}
    (h : Pool.newRun blocks size (some next) = some run) :
    run.base = next ∧ IsPage run.size ∧ run.size < 2 ^ 63 + 2 ^ 62 := by
  unfold Pool.newRun at h
  simp only at h
  split at h
  · cases h
  · cases h
    have h1 := Pool.alignUp_spec (Or.inl rfl : Pool.poolAlignment = Pool.poolAlignment ∨ _) (a := size)
      (by unfold Pool.poolAlignment; omega)
    have hal : Pool.alignmentFor size ≤ 0x1000 := by
      rcases Pool.alignmentFor_cases size with heq | heq <;> rw [heq] <;> decide
    have hneeded : wrap (Pool.alignUp size Pool.poolAlignment + Pool.alignmentFor size) < 2 ^ 63 + 2 ^ 16 := by
      unfold Pool.poolAlignment at *
      rw [wrap_of_lt (by omega)]
      omega
    generalize wrap (Pool.alignUp size Pool.poolAlignment + Pool.alignmentFor size) = n at *
    have h2 := Pool.alignUp_spec (Or.inr rfl : pageSize = Pool.poolAlignment ∨ _)
      (a := max n Pool.runSize) (by unfold Pool.runSize pageSize; omega)
    refine ⟨rfl, h2.2.2, ?_⟩
    have h3 := h2.2.1
    unfold Pool.runSize pageSize at *
    dsimp only
    omega

/-- What an allocation adds to the live set: one entry, at an address that was not live. -/
structure Taken (s s' : State) (addr size : Nat) (tag : BitVec 32) : Prop where
  ne_zero : addr ≠ 0
  fresh : addr ∉ s.pool.live
  live : s'.pool.live = s.pool.live.insert addr (size, tag)
  rest : s' = { s with pool := s'.pool, kernelNext := s'.kernelNext, physLeft := s'.physLeft }
  next : s.kernelNext ≤ s'.kernelNext
  space : SpaceInv s'

theorem poolTake_spec (h : SpaceInv s) {size addr : Nat} {tag : BitVec 32}
    {alloc : Option Nat} (h0 : size ≠ 0) (hok : (Pool.Call.allocate size tag alloc).Ok s.pool)
    (hrun : ∀ run ∈ Pool.newRun s.pool.blocks size alloc, 0 < run.base ∧ run.stop ≤ s.kernelNext)
    (ht : s.poolTake size tag alloc = some (addr, s')) : Taken s s' addr size tag := by
  unfold State.poolTake at ht
  obtain ⟨⟨addr', blocks⟩, halloc, ht⟩ := Option.bind_eq_some_iff.mp ht
  obtain ⟨pool, hstep, ht⟩ := Option.bind_eq_some_iff.mp ht
  cases ht
  have hinv := Pool.step_poolInv h.pool hok hstep
  obtain ⟨hfresh, hcov⟩ := h.pool.allocate_live hok h0 halloc
  have hruns : ∀ run ∈ (Pool.newRun s.pool.blocks size alloc).toList ++ s.pool.runs,
      0 < run.base ∧ run.stop ≤ s.kernelNext := by
    intro run hmem
    rcases List.mem_append.mp hmem with hnew | hold
    · exact hrun run (Option.mem_toList.mp hnew)
    · exact h.runs run hold
  simp only [Pool.step, halloc, Option.map_some, Option.some.injEq] at hstep
  subst hstep
  refine ⟨?_, AList.lookup_eq_none.mp hfresh, by simp only [if_neg h0], rfl, le_rfl,
    ⟨hinv, h.page, h.bound, h.pos, hruns⟩⟩
  obtain ⟨run, hmem, h1, -⟩ := hcov
  have := (hruns run hmem).1
  omega

theorem poolAllocate_spec (h : SpaceInv s) {size addr : Nat} {tag : BitVec 32}
    (h0 : size ≠ 0) (hs : size < 2 ^ 63) (ha : s.poolAllocate size tag = some (addr, s')) :
    Taken s s' addr size tag := by
  unfold State.poolAllocate at ha
  split at ha
  · rename_i hnone
    have hnew : Pool.newRun s.pool.blocks size none = none := by
      unfold Pool.newRun
      simp
    refine poolTake_spec h h0 ⟨by omega, fun run hrun => ?_⟩ (fun run hrun => ?_) ha
    all_goals
      rw [hnew] at hrun
      cases hrun
  · rename_i run hsome
    obtain ⟨⟨base, s₁⟩, halloc, ht⟩ := Option.bind_eq_some_iff.mp ha
    obtain ⟨rfl, hle, rfl⟩ := alloc_spec h halloc
    obtain ⟨hbase, hpage, hlt⟩ := newRun_spec hs hsome
    have hsize : sizeAlign run.size = run.size := by
      unfold sizeAlign
      rw [wrap_of_lt (by unfold pageSize; omega)]
      unfold pageAlign IsPage pageSize at *
      omega
    rw [hsize] at hle ht
    have hbound := h.bound
    have hrun : run.stop = s.kernelNext + run.size := by rw [Seg.stop, hbase]
    have htaken := poolTake_spec (h.advance hpage hle) h0 ⟨by omega, fun r hr => ?_⟩ (fun r hr => ?_) ht
    · exact ⟨htaken.ne_zero, htaken.fresh, htaken.live, htaken.rest,
        (Nat.le_add_right _ _).trans htaken.next, htaken.space⟩
    all_goals
      dsimp only at hr ⊢
      rw [hsome] at hr
      obtain rfl := Option.some.inj hr
    · refine ⟨hbase ▸ h.page, by omega, fun old hold => Or.inl ?_⟩
      rw [hbase]
      exact (h.runs old hold).2
    · have := h.pos
      exact ⟨by omega, hrun.le⟩

/-- What `pool.free` takes from the live set. -/
structure Given (s s' : State) (addr : Nat) : Prop where
  live : s'.pool.live = s.pool.live.erase addr
  rest : s' = { s with pool := s'.pool }
  space : SpaceInv s'

theorem poolFree_spec (h : SpaceInv s) (addr : Nat) : Given s (s.poolFree addr) addr := by
  have hstep : Pool.step s.pool (.free addr) = some (s.poolFree addr).pool := rfl
  have hok : (Pool.Call.free addr).Ok s.pool := trivial
  have hinv := Pool.step_poolInv h.pool hok hstep
  have hruns : (s.poolFree addr).pool.runs = s.pool.runs := rfl
  refine ⟨?_, rfl, ⟨hinv, h.page, h.bound, h.pos, fun run hrun => h.runs run (hruns ▸ hrun)⟩⟩
  simp only [State.poolFree, Pool.step, Option.getD_some]
  rw [h.pool.free_answer]
  split
  · rfl
  · rename_i hnone
    have hmem : addr ∉ s.pool.live := by
      rw [← AList.lookup_eq_none]
      simpa using hnone
    refine AList.ext ?_
    exact (List.kerase_of_notMem_keys hmem).symm

/-- What a request leaves: the pool as it was, and the request with the driver when that has a routine
for it. -/
structure Dispatched (s s' : State) (driver : Driver) (irp : Irp) (answer status : Status) : Prop where
  live : s'.pool.live = s.pool.live
  rest : s' = { s with
    pool := s'.pool
    kernelNext := s'.kernelNext
    physLeft := s'.physLeft
    irps := s.irps ++ if driver.handles irp.major then [irp] else [] }
  status : status = if driver.handles irp.major then answer else statusInvalidDeviceRequest
  next : s.kernelNext ≤ s'.kernelNext
  space : SpaceInv s'

theorem dispatchIrp_spec (h : SpaceInv s) {major : Major} {deviceObject fileObject : Nat}
    {about : Option Nat} {answer status : Status} {driver : Driver} (hdriver : s.driver deviceObject = some driver)
    (hd : s.dispatchIrp major deviceObject fileObject about answer = some (status, s')) :
    Dispatched s s' driver ⟨major, deviceObject, fileObject, about⟩ answer status := by
  unfold State.dispatchIrp at hd
  simp only [hdriver] at hd
  cases hroutine : driver.handles major with
  | false =>
    simp only [hroutine, Bool.not_false, if_true] at hd
    cases hd
    refine ⟨rfl, ?_, ?_, le_rfl, h⟩
    · simp only [hroutine, Bool.false_eq_true, if_false, List.append_nil]
    · simp only [hroutine, Bool.false_eq_true, if_false]
  | true =>
    simp only [hroutine, Bool.not_true, Bool.false_eq_true, if_false] at hd
    obtain ⟨⟨request, s₁⟩, halloc, hd⟩ := Option.bind_eq_some_iff.mp hd
    have htaken := poolAllocate_spec h (by decide) (by decide) halloc
    simp only [if_neg htaken.ne_zero] at hd
    cases hd
    -- the request's block is the one that is freed
    have hgiven := poolFree_spec htaken.space request
    have hlive : (s₁.poolFree request).pool.live = s.pool.live := by
      refine hgiven.live.trans (AList.ext ?_)
      rw [htaken.live]
      show List.kerase request (AList.insert request _ s.pool.live).entries = _
      rw [AList.entries_insert_of_notMem htaken.fresh]
      exact List.kerase_cons_eq rfl
    have hnext := htaken.next
    obtain ⟨pool, next, left, rfl⟩ : ∃ pool next left,
        s₁ = { s with pool, kernelNext := next, physLeft := left } := ⟨_, _, _, htaken.rest⟩
    refine ⟨hlive, ?_, ?_, hnext, ?_⟩
    · simp only [hroutine, if_true]
      rfl
    · simp only [hroutine, if_true]
    · exact ⟨hgiven.space.pool, hgiven.space.page, hgiven.space.bound, hgiven.space.pos,
        hgiven.space.runs⟩

/-! ## Objects under counting -/

theorem count_objects (s : State) (addr a : Nat) (f : Header → Header) :
    ((s.count addr f).objects a).map ObjectEntry.host = (s.objects a).map ObjectEntry.host := by
  simp only [State.count]
  split
  · cases s.objects a <;> rfl
  · rfl

theorem driver_eq (s : State) (a : Nat) :
    s.driver a = ((s.objects a).map ObjectEntry.host).bind Host.driver? := by
  unfold State.driver
  cases s.objects a <;> rfl

theorem fileHost_eq (s : State) (a : Nat) :
    s.fileHost a = ((s.objects a).map ObjectEntry.host).bind Host.file? := by
  unfold State.fileHost
  cases s.objects a <;> rfl

theorem deviceHost_eq_some {a : Nat} {host : FileHost} (h : s.deviceHost a = some host) :
    s.fileHost a = some host ∧ host.isDevice := by
  unfold State.deviceHost at h
  rw [Option.filter_eq_some_iff] at h
  exact h

theorem isSome_of_deviceHost {a : Nat} {host : FileHost} (h : s.deviceHost a = some host) :
    (s.objects a).isSome := by
  have hfile := (deviceHost_eq_some h).1
  unfold State.fileHost at hfile
  obtain ⟨e, he, -⟩ := Option.bind_eq_some_iff.mp hfile
  rw [he]
  rfl

theorem isSome_of_driver {a : Nat} (h : (s.driver a).isSome) : (s.objects a).isSome := by
  obtain ⟨d, hd⟩ := Option.isSome_iff_exists.mp h
  unfold State.driver at hd
  obtain ⟨e, he, -⟩ := Option.bind_eq_some_iff.mp hd
  rw [he]
  rfl

/-! ## The books of the opens -/

abbrev Live := List (Sigma fun _ : Nat => Nat × BitVec 32)

def Open.blocks (o : Open) : Live :=
  ⟨o.fileObject, fileObjectSize, fileTag⟩ ::
    if o.nameBuffer = 0 then [] else [⟨o.nameBuffer, o.nameSize, nameTag⟩]

def OpenOk (s : State) (o : Open) : Prop :=
  ∃ host, s.deviceHost o.body = some host ∧ host.fileObject = o.fileObject ∧
    (o.nameBuffer = 0 ↔ s.nameLength host.path = 0) ∧ (s.driver host.deviceObject).isSome ∧
    s.fileObjects o.fileObject =
      some ⟨host.deviceObject, fileName (s.nameLength host.path) s.wcharSize o.nameBuffer⟩

/-- The live set is what the opens have, and `held`. -/
structure Books (held : Live) (s : State) : Prop where
  space : SpaceInv s
  wchar : s.wcharSize = 2 ∨ s.wcharSize = 4
  objects : ∀ addr, (s.objects addr).isSome → addr < s.kernelNext
  opens : ∀ o ∈ s.opens, OpenOk s o
  bodies : (s.opens.map Open.body).Nodup
  live : s.pool.live.entries.Perm (s.opens.flatMap Open.blocks ++ held)

/-- An open goes on agreeing while the hosts of the objects there and its file object are untouched. -/
theorem OpenOk.congr {o : Open} (h : OpenOk s o) (hw : s'.wcharSize = s.wcharSize)
    (hhost : ∀ a, (s.objects a).isSome → (s'.objects a).map ObjectEntry.host = (s.objects a).map ObjectEntry.host)
    (hfile : s'.fileObjects o.fileObject = s.fileObjects o.fileObject) : OpenOk s' o := by
  obtain ⟨host, h1, h2, h3, h4, h5⟩ := h
  have hbody := hhost o.body (isSome_of_deviceHost h1)
  have hdevice := hhost host.deviceObject (isSome_of_driver h4)
  refine ⟨host, ?_, h2, ?_, ?_, ?_⟩
  · unfold State.deviceHost at h1 ⊢
    rwa [fileHost_eq, hbody, ← fileHost_eq]
  · unfold State.nameLength at h3 ⊢
    rwa [hw]
  · rwa [driver_eq, hdevice, ← driver_eq]
  · unfold State.nameLength at h5 ⊢
    rwa [hfile, hw]

section
variable {held : Live} {s s' : State}

theorem Books.take (h : Books held s) {addr size : Nat} {tag : BitVec 32}
    (ht : Taken s s' addr size tag) : Books (⟨addr, size, tag⟩ :: held) s' := by
  obtain ⟨-, hfresh, hlive, hrest, hnext, hspace⟩ := ht
  obtain ⟨pool, next, left, rfl⟩ : ∃ pool next left,
      s' = { s with pool, kernelNext := next, physLeft := left } := ⟨_, _, _, hrest⟩
  refine ⟨hspace, h.wchar, fun a ha => lt_of_lt_of_le (h.objects a ha) hnext, fun o ho => ?_, h.bodies, ?_⟩
  · exact (h.opens o ho).congr rfl (fun _ _ => rfl) rfl
  · rw [hlive, AList.entries_insert_of_notMem hfresh]
    exact (h.live.cons _).trans List.perm_middle.symm

theorem Books.give {addr : Nat} {info : Nat × BitVec 32} (h : Books (⟨addr, info⟩ :: held) s)
    (hg : Given s s' addr) : Books held s' := by
  obtain ⟨hlive, hrest, hspace⟩ := hg
  obtain ⟨pool, rfl⟩ : ∃ pool, s' = { s with pool } := ⟨_, hrest⟩
  refine ⟨hspace, h.wchar, h.objects, fun o ho => ?_, h.bodies, ?_⟩
  · exact (h.opens o ho).congr rfl (fun _ _ => rfl) rfl
  · have hperm := (h.live.trans List.perm_middle).kerase (a := addr) s.pool.live.nodupKeys
    rw [hlive]
    refine hperm.trans (List.Perm.of_eq ?_)
    exact List.kerase_cons_eq rfl

theorem Books.dispatch (h : Books held s) {driver : Driver} {irp : Irp} {answer status : Status}
    (hd : Dispatched s s' driver irp answer status) : Books held s' := by
  obtain ⟨hlive, hrest, -, hnext, hspace⟩ := hd
  obtain ⟨pool, next, left, irps, rfl⟩ : ∃ pool next left irps,
      s' = { s with pool, kernelNext := next, physLeft := left, irps } := ⟨_, _, _, _, hrest⟩
  refine ⟨hspace, h.wchar, fun a ha => lt_of_lt_of_le (h.objects a ha) hnext, fun o ho => ?_, h.bodies, ?_⟩
  · exact (h.opens o ho).congr rfl (fun _ _ => rfl) rfl
  · rw [hlive]
    exact h.live

theorem Books.fileObject_ne (h : Books held s) {addr : Nat} {info : Nat × BitVec 32}
    (hheld : ⟨addr, info⟩ ∈ held) {o : Open} (ho : o ∈ s.opens) : o.fileObject ≠ addr := by
  intro heq
  have hnodup := (List.perm_nodupKeys h.live).mp s.pool.live.nodupKeys
  have hkeys : ((s.opens.flatMap Open.blocks).keys ++ held.keys).Nodup := by
    rw [← List.keys_append]
    exact hnodup
  refine (List.nodup_append.mp hkeys).2.2 addr ?_ addr ?_ rfl
  · refine List.mem_map.mpr ⟨⟨o.fileObject, fileObjectSize, fileTag⟩, ?_, heq⟩
    exact List.mem_flatMap.mpr ⟨o, ho, by simp [Open.blocks]⟩
  · exact List.mem_map.mpr ⟨_, hheld, rfl⟩

theorem Books.write (h : Books held s) {addr : Nat} {info : Nat × BitVec 32}
    (hheld : ⟨addr, info⟩ ∈ held) (obj : FileObject) :
    Books held { s with fileObjects := Function.update s.fileObjects addr (some obj) } := by
  refine ⟨⟨h.space.pool, h.space.page, h.space.bound, h.space.pos, h.space.runs⟩, h.wchar, h.objects,
    fun o ho => ?_, h.bodies, h.live⟩
  exact (h.opens o ho).congr rfl (fun _ _ => rfl) (Function.update_of_ne (h.fileObject_ne hheld ho) ..)

theorem Books.withHandles (h : Books held s) (handles : AList fun _ : Nat => HandleEntry)
    (nextHandle : Nat) : Books held { s with handles, nextHandle } :=
  ⟨⟨h.space.pool, h.space.page, h.space.bound, h.space.pos, h.space.runs⟩, h.wchar, h.objects,
    fun o ho => (h.opens o ho).congr rfl (fun _ _ => rfl) rfl, h.bodies, h.live⟩

theorem Books.count (h : Books held s) (addr : Nat) (f : Header → Header) :
    Books held (s.count addr f) := by
  refine ⟨⟨h.space.pool, h.space.page, h.space.bound, h.space.pos, h.space.runs⟩, h.wchar,
    fun a ha => h.objects a ?_, fun o ho => ?_, h.bodies, h.live⟩
  · have := congrArg Option.isSome (count_objects s addr a f)
    rw [Option.isSome_map, Option.isSome_map] at this
    rwa [← this]
  · exact (h.opens o ho).congr rfl (fun a _ => count_objects s addr a f) rfl

theorem perm_dropOpen {l : List Open} (hl : (l.map Open.body).Nodup) {o : Open} (ho : o ∈ l) :
    l.Perm (o :: l.filter fun p => p.body ≠ o.body) := by
  induction l with
  | nil => cases ho
  | cons p l ih =>
    obtain ⟨hp, hl⟩ := List.nodup_cons.mp hl
    rcases List.mem_cons.mp ho with rfl | ho
    · have hrest : l.filter (fun q => q.body ≠ o.body) = l := by
        refine List.filter_eq_self.mpr fun q hq => ?_
        simp only [ne_eq, decide_eq_true_eq]
        intro heq
        exact hp (List.mem_map.mpr ⟨q, hq, heq⟩)
      rw [List.filter_cons_of_neg (by simp), hrest]
    · have hne : p.body ≠ o.body := fun heq => hp (List.mem_map.mpr ⟨o, ho, heq.symm⟩)
      rw [List.filter_cons_of_pos (by simpa using hne)]
      exact ((ih hl ho).cons p).trans (.swap o p _)

theorem Books.dropOpen (h : Books held s) {o : Open} (ho : o ∈ s.opens) :
    Books (o.blocks ++ held) { s with opens := s.opens.filter fun p => p.body ≠ o.body } := by
  refine ⟨⟨h.space.pool, h.space.page, h.space.bound, h.space.pos, h.space.runs⟩, h.wchar, h.objects,
    fun p hp => (h.opens p (List.mem_of_mem_filter hp)).congr rfl (fun _ _ => rfl) rfl, ?_, ?_⟩
  · exact h.bodies.sublist (List.filter_sublist.map _)
  · have hperm := (perm_dropOpen h.bodies ho).flatMap_right Open.blocks
    refine h.live.trans ((hperm.append_right held).trans ?_)
    rw [List.flatMap_cons, List.append_assoc, ← List.append_assoc]
    refine (List.perm_append_comm.append_right held).trans ?_
    rw [List.append_assoc]

/-- The open that a new object makes takes over what the handler has for it. -/
theorem Books.addOpen {o : Open} (h : Books (o.blocks ++ held) s) {objects : Nat → Option ObjectEntry}
    (hobjects : ∀ a, (s.objects a).isSome →
      (objects a).map ObjectEntry.host = (s.objects a).map ObjectEntry.host)
    (hbelow : ∀ a, (objects a).isSome → a < s.kernelNext) (hnew : (s.objects o.body).isNone)
    (ho : OpenOk { s with objects } o) :
    Books held { s with objects, opens := o :: s.opens } := by
  have hold : ∀ p ∈ s.opens, p.body ≠ o.body := by
    intro p hp heq
    obtain ⟨host, hhost, -⟩ := h.opens p hp
    have hsome := isSome_of_deviceHost hhost
    rw [heq, ← Option.not_isNone, hnew] at hsome
    cases hsome
  refine ⟨⟨h.space.pool, h.space.page, h.space.bound, h.space.pos, h.space.runs⟩, h.wchar, hbelow,
    fun p hp => ?_, ?_, ?_⟩
  · rcases List.mem_cons.mp hp with rfl | hp
    · exact ho
    · exact (h.opens p hp).congr rfl hobjects rfl
  · refine List.nodup_cons.mpr ⟨fun hmem => ?_, h.bodies⟩
    obtain ⟨p, hp, heq⟩ := List.mem_map.mp hmem
    exact hold p hp heq
  · refine h.live.trans ?_
    rw [List.flatMap_cons, ← List.append_assoc]
    exact List.perm_append_comm.append_right held

end

end Kernemul.Device
