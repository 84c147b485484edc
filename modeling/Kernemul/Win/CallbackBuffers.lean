import Kernemul.Emu.X86.Reach
import Kernemul.Win.ObCallbacks

/-!
# The buffers of callbacks

A process or an image notification, and an object callback, is guest code that runs in kernel mode on the cpu whose
event it is, under whatever CR3 that has. What it is shown is in blocks of the default space, taken with `prot_rw`.
What a callback does to the tables, and the access that it leaves, is a parameter. What is in the blocks is not
modelled.
-/

namespace Kernemul.CallbackBuffers

open X86
open ObCallbacks (Registration)

/-- A call of guest code, and the blocks that the kernel filled in for it. -/
structure GuestCall where
  routine : Nat
  args : List Nat
  buffers : List Block

/-- What guest code does: the tables it leaves, and the access in the block it was shown. -/
structure Guest where
  callGuestKernel : Mmu → GuestCall → Mmu × BitVec 32

/-- `win_notify_routines`, less those for threads. -/
structure NotifyRoutines where
  process : List Nat
  processEx : List Nat
  image : List Nat

structure Kernel where
  mmu : Mmu
  /-- `kernel_space()`. -/
  space : Nat
  notifyRoutines : Option NotifyRoutines
  obRegistrations : List Registration

structure Called where
  call : GuestCall
  before : Mmu
  after : Mmu
  updated : BitVec 32

/-- The supervisor found what the kernel had filled in, and the kernel read that back. -/
def Called.Visible (space : Nat) (cpu : Cpu) (c : Called) : Prop :=
  ∀ b ∈ c.call.buffers, ∀ page ∈ b.pages, ∃ frame, c.before.translateVirt space page = some frame ∧
    c.before.supervisorFrame cpu page = some frame ∧ c.after.translateVirt space page = some frame

def callAll (g : Guest) (goOn : BitVec 32 → Bool) : List GuestCall → Mmu → List Called × Mmu
  | [], m => ([], m)
  | c :: cs, m =>
    let (m', updated) := g.callGuestKernel m c
    if goOn updated then
      let rest := callAll g goOn cs m'
      (⟨c, m, m', updated⟩ :: rest.1, rest.2)
    else ([⟨c, m, m', updated⟩], m')

variable (g : Guest) (k : Kernel)

def plainCalls (r : NotifyRoutines) (parentPid pid : BitVec 32) (create : Bool) : List GuestCall :=
  r.process.map fun routine => ⟨routine, [parentPid.toNat, pid.toNat, create.toNat], []⟩

def exCalls (r : NotifyRoutines) (eprocess : Nat) (pid : BitVec 32) (create : Bool) (info : Block) : List GuestCall :=
  r.processEx.map fun routine =>
    ⟨routine, [eprocess, pid.toNat, if create then info.va else 0], if create then [info] else []⟩

/-- `sizeof(ps_create_notify_info_t)`. -/
def createNotifyInfoSize : Nat := 72

/-- `notify_process_create`; no more calls when it throws. -/
def notifyProcessCreate (eprocess : Nat) (parentPid pid : BitVec 32) (create : Bool) : List Called :=
  match k.notifyRoutines with
  | none => []
  | some r =>
    if r.process.isEmpty && r.processEx.isEmpty then []
    else
      let (plain, m) := callAll g (fun _ => true) (plainCalls r parentPid pid create) k.mmu
      if r.processEx.isEmpty then plain
      else match m.allocBlock k.space createNotifyInfoSize with
        | none => plain
        | some (info, m) =>
          if info.va = 0 then plain
          else plain ++ (callAll g (fun _ => true) (exCalls r eprocess pid create info) m).1

/-- `widen_string` of a name below the system directory, with its terminator. -/
def systemPath : String := "\\SystemRoot\\System32\\"

def imageNameSize (name : List (BitVec 8)) : Nat := (systemPath.length + name.length + 1) * 2

/-- `sizeof(_UNICODE_STRING)` and `sizeof(image_info_t)`. -/
def unicodeStringSize : Nat := 16
def imageInfoSize : Nat := 24

def imageCalls (r : NotifyRoutines) (pid : BitVec 32) (name nameObj info : Block) : List GuestCall :=
  r.image.map fun routine => ⟨routine, [nameObj.va, pid.toNat, info.va], [name, nameObj, info]⟩

def notifyImageLoad (base : Nat) (name : List (BitVec 8)) (pid : BitVec 32) : List Called :=
  match k.notifyRoutines with
  | none => []
  | some r =>
    if base = 0 ∨ r.image.isEmpty then []
    else
      let blocks := do
        let (buffer, m) ← k.mmu.allocBlock k.space (imageNameSize name)
        let (nameObj, m) ← m.allocBlock k.space unicodeStringSize
        let (info, m) ← m.allocBlock k.space imageInfoSize
        pure (buffer, nameObj, info, m)
      match blocks with
      | none => []
      | some (buffer, nameObj, info, m) =>
        if info.va = 0 then [] else (callAll g (fun _ => true) (imageCalls r pid buffer nameObj info) m).1

/-- `sizeof(ob_pre_handle_parameters_t)` and `sizeof(ob_pre_operation_information_t)`. -/
def preHandleParametersSize : Nat := 24
def preOperationInformationSize : Nat := 40

def Kernel.matching (objectType : Nat) (operation : BitVec 32) : List Registration :=
  k.obRegistrations.filter fun r => r.pre ≠ 0 ∧ r.operations &&& operation ≠ 0 ∧ r.objectType = objectType

def preCalls (rs : List Registration) (params info : Block) : List GuestCall :=
  rs.map fun r => ⟨r.pre, [r.context, info.va], [params, info]⟩

/-- `ob_pre_handle`: the calls, and the access that is left unless it throws. -/
def obPreHandle (objectType : Nat) (operation desiredAccess : BitVec 32) : List Called × Option (BitVec 32) :=
  if (k.matching objectType operation).isEmpty then ([], some desiredAccess)
  else
    let blocks := do
      let (params, m) ← k.mmu.allocBlock k.space preHandleParametersSize
      let (info, m) ← m.allocBlock k.space preOperationInformationSize
      pure (params, info, m)
    match blocks with
    | none => ([], none)
    | some (params, info, m) =>
      if params.va = 0 ∨ info.va = 0 then ([], some desiredAccess)
      else
        let rs := k.matching objectType operation
        let calls := (callAll g (fun updated => updated ≠ 0) (preCalls rs params info) m).1
        (calls, calls.getLast?.map (·.updated))

inductive Event
  | processCreate (eprocess : Nat) (parentPid pid : BitVec 32) (create : Bool)
  | imageLoad (base : Nat) (name : List (BitVec 8)) (pid : BitVec 32)
  | preHandle (objectType : Nat) (operation desiredAccess : BitVec 32)

namespace Event

def calls : Event → List Called
  | processCreate eprocess parentPid pid create => notifyProcessCreate g k eprocess parentPid pid create
  | imageLoad base name pid => notifyImageLoad g k base name pid
  | preHandle objectType operation desiredAccess => (obPreHandle g k objectType operation desiredAccess).1

def Hands : Event → Prop
  | processCreate _ _ _ create => create = true ∧ ∃ r, k.notifyRoutines = some r ∧ r.processEx ≠ []
  | imageLoad base _ _ => base ≠ 0 ∧ ∃ r, k.notifyRoutines = some r ∧ r.image ≠ []
  | preHandle objectType operation _ => k.matching objectType operation ≠ []

/-- The tables when the blocks are taken: the plain process routines have run by then. -/
def tables : Event → Mmu
  | processCreate _ parentPid pid create => match k.notifyRoutines with
    | none => k.mmu
    | some r => (callAll g (fun _ => true) (plainCalls r parentPid pid create) k.mmu).2
  | _ => k.mmu

def sizes : Event → List Nat
  | processCreate .. => [createNotifyInfoSize]
  | imageLoad _ name _ => [imageNameSize name, unicodeStringSize, imageInfoSize]
  | preHandle .. => [preHandleParametersSize, preOperationInformationSize]

/-- How many of the blocks come before the first that is checked for null. -/
def unchecked : Event → Nat
  | imageLoad .. => 2
  | _ => 0

/-- The blocks that come next from the user cursor of the default space. -/
def next (e : Event) (k : Kernel) : List Block :=
  match (e.tables g k).spaces k.space with
  | none => []
  | some s => blocksFrom s.userNext e.sizes

/-- No block is handed out, or the cpu will find every page of them. -/
def Meets (e : Event) (g : Guest) (k : Kernel) (cpu : Cpu) : Prop :=
  ¬ e.Hands k ∨ (e.tables g k).allocBlocks k.space e.sizes = none ∨
    (∃ b ∈ (e.next g k).drop e.unchecked, b.va = 0) ∨
    ∀ b ∈ e.next g k, ∀ page ∈ b.pages, (e.tables g k).Meets k.space cpu page

end Event

/-- A callback goes to the tables through the mmu, and leaves the pages of its buffers as they are while it runs. -/
structure Guest.KeepsBuffers (g : Guest) (space : Nat) (cpu : Cpu) : Prop where
  runs : ∀ m c, ∃ calls, Run.Steps step TargetsOk m calls (g.callGuestKernel m c).1
  keeps : ∀ m c, ∀ b ∈ c.buffers, ∀ page ∈ b.pages,
    (g.callGuestKernel m c).1.translateVirt space page = m.translateVirt space page ∧
    (g.callGuestKernel m c).1.supervisorFrame cpu page = m.supervisorFrame cpu page

/-! ## The loop -/

variable {g : Guest} {k : Kernel} {cpu : Cpu}

theorem keeps_visible {space : Nat} (hg : g.KeepsBuffers space cpu) (m : Mmu) (c : GuestCall) :
    (∀ b ∈ c.buffers, ∀ page ∈ b.pages, (g.callGuestKernel m c).1.Visible space cpu page) ↔
      ∀ b ∈ c.buffers, ∀ page ∈ b.pages, m.Visible space cpu page := by
  refine forall₂_congr fun b hb => forall₂_congr fun page hpage => ?_
  obtain ⟨htranslate, hframe⟩ := hg.keeps m c b hb page hpage
  rw [Mmu.Visible, Mmu.Visible, htranslate, hframe]

/-- With the same blocks for all, every call sees them when the first does. -/
theorem callAll_visible {space : Nat} (hg : g.KeepsBuffers space cpu) (goOn : BitVec 32 → Bool) {bs : List Block}
    {cs : List GuestCall} (hbs : ∀ c ∈ cs, c.buffers = bs) (m : Mmu) :
    (∀ c ∈ (callAll g goOn cs m).1, c.Visible space cpu) ↔
      cs = [] ∨ ∀ b ∈ bs, ∀ page ∈ b.pages, m.Visible space cpu page := by
  induction cs generalizing m with
  | nil => exact iff_of_true nofun (Or.inl rfl)
  | cons c cs ih =>
    obtain ⟨rfl, hrest⟩ := List.forall_mem_cons.mp hbs
    have hfirst : ∀ updated, (Called.mk c m (g.callGuestKernel m c).1 updated).Visible space cpu ↔
        ∀ b ∈ c.buffers, ∀ page ∈ b.pages, m.Visible space cpu page := by
      intro updated
      refine forall₂_congr fun b hb => forall₂_congr fun page hpage => ?_
      refine exists_congr fun frame => ?_
      rw [(hg.keeps m c b hb page hpage).1]
      exact ⟨fun ⟨h1, h2, _⟩ => ⟨h1, h2⟩, fun ⟨h1, h2⟩ => ⟨h1, h2, h1⟩⟩
    rw [or_iff_right (List.cons_ne_nil c cs)]
    unfold callAll
    dsimp only
    split
    · rw [List.forall_mem_cons, hfirst, ih hrest, keeps_visible hg]
      exact and_iff_left_of_imp Or.inr
    · rw [List.forall_mem_singleton, hfirst]

theorem callAll_runs {space : Nat} (hg : g.KeepsBuffers space cpu) (goOn : BitVec 32 → Bool) (cs : List GuestCall)
    (m : Mmu) : ∃ calls, Run.Steps step TargetsOk m calls (callAll g goOn cs m).2 := by
  induction cs generalizing m with
  | nil => exact ⟨[], .nil m⟩
  | cons c cs ih =>
    obtain ⟨first, hfirst⟩ := hg.runs m c
    unfold callAll
    dsimp only
    split
    · obtain ⟨rest, hrest⟩ := ih (g.callGuestKernel m c).1
      exact ⟨first ++ rest, hfirst.append hrest⟩
    · exact ⟨first, hfirst⟩

/-! ## The events -/

/-- What an event does with its blocks: none is taken, they are taken and checked, and then there are the calls that
are handed them. -/
inductive Handed (g : Guest) (k : Kernel) (e : Event) : List Called → Prop
  | none (cs : List Called) (hcs : ∀ c ∈ cs, c.call.buffers = []) (hnone : ¬ e.Hands k) : Handed g k e cs
  | throws (cs : List Called) (hcs : ∀ c ∈ cs, c.call.buffers = [])
      (hfull : (e.tables g k).allocBlocks k.space e.sizes = Option.none) : Handed g k e cs
  | null (cs : List Called) (hcs : ∀ c ∈ cs, c.call.buffers = []) (bs : List Block) (m : Mmu)
      (hbs : (e.tables g k).allocBlocks k.space e.sizes = some (bs, m)) (hnull : ∃ b ∈ bs.drop e.unchecked, b.va = 0) :
      Handed g k e cs
  | calls (before : List Called) (hbefore : ∀ c ∈ before, c.call.buffers = []) (bs : List Block) (m : Mmu)
      (hbs : (e.tables g k).allocBlocks k.space e.sizes = some (bs, m))
      (hnull : ¬ ∃ b ∈ bs.drop e.unchecked, b.va = 0) (goOn : BitVec 32 → Bool) (cs : List GuestCall) (hcs : cs ≠ [])
      (hbuffers : ∀ c ∈ cs, c.buffers = bs) (hhands : e.Hands k) : Handed g k e (before ++ (callAll g goOn cs m).1)

theorem callAll_mem (g : Guest) (goOn : BitVec 32 → Bool) (cs : List GuestCall) (m : Mmu) :
    ∀ c ∈ (callAll g goOn cs m).1, c.call ∈ cs := by
  induction cs generalizing m with
  | nil => exact nofun
  | cons c cs ih =>
    unfold callAll
    dsimp only
    split
    · exact List.forall_mem_cons.mpr ⟨List.mem_cons_self, fun c' hc' => List.mem_cons_of_mem _ (ih _ c' hc')⟩
    · exact List.forall_mem_singleton.mpr List.mem_cons_self

theorem callAll_empty (g : Guest) (goOn : BitVec 32 → Bool) {cs : List GuestCall} (hcs : ∀ c ∈ cs, c.buffers = [])
    (m : Mmu) : ∀ c ∈ (callAll g goOn cs m).1, c.call.buffers = [] :=
  fun c hc => hcs c.call (callAll_mem g goOn cs m c hc)

theorem allocBlocks_two (m : Mmu) (root a b : Nat) : m.allocBlocks root [a, b] =
    (do
      let (x, m) ← m.allocBlock root a
      let (y, m) ← m.allocBlock root b
      pure (x, y, m) : Option (Block × Block × Mmu)).map fun r => ([r.1, r.2.1], r.2.2) := by
  simp only [Mmu.allocBlocks, Option.bind_eq_bind, Option.map_bind, Function.comp_def, Option.map_some, Option.pure_def]

theorem allocBlocks_three (m : Mmu) (root a b c : Nat) : m.allocBlocks root [a, b, c] =
    (do
      let (x, m) ← m.allocBlock root a
      let (y, m) ← m.allocBlock root b
      let (z, m) ← m.allocBlock root c
      pure (x, y, z, m) : Option (Block × Block × Block × Mmu)).map fun r => ([r.1, r.2.1, r.2.2.1], r.2.2.2) := by
  simp only [Mmu.allocBlocks, Option.bind_eq_bind, Option.map_bind, Function.comp_def, Option.map_some, Option.pure_def]

theorem handed_processCreate (g : Guest) (k : Kernel) (eprocess : Nat) (parentPid pid : BitVec 32) (create : Bool) :
    Handed g k (.processCreate eprocess parentPid pid create)
      (notifyProcessCreate g k eprocess parentPid pid create) := by
  unfold notifyProcessCreate
  cases hr : k.notifyRoutines with
  | none =>
    refine .none [] nofun ?_
    rintro ⟨-, r, hr', -⟩
    rw [hr] at hr'
    cases hr'
  | some r =>
    have hplain : ∀ c ∈ plainCalls r parentPid pid create, c.buffers = [] := by
      intro c hc
      obtain ⟨routine, -, rfl⟩ := List.mem_map.mp hc
      rfl
    have htables : (Event.processCreate eprocess parentPid pid create).tables g k =
        (callAll g (fun _ => true) (plainCalls r parentPid pid create) k.mmu).2 := by
      unfold Event.tables
      rw [hr]
    have hempty := callAll_empty g (fun _ => true) hplain k.mmu
    rcases hcall : callAll g (fun _ => true) (plainCalls r parentPid pid create) k.mmu with ⟨plain, m⟩
    rw [hcall] at htables hempty
    dsimp only
    rw [hcall]
    dsimp only
    by_cases hex : r.processEx = []
    · have hnone : ¬ (Event.processCreate eprocess parentPid pid create).Hands k := by
        rintro ⟨-, r', hr', hne⟩
        obtain rfl := Option.some.inj (hr.symm.trans hr')
        exact hne hex
      rw [if_pos (List.isEmpty_iff.mpr hex)]
      split
      · exact .none [] nofun hnone
      · exact .none plain hempty hnone
    · rw [if_neg (by simp [hex]), if_neg (by simp [hex])]
      cases hb : m.allocBlock k.space createNotifyInfoSize with
      | none => exact .throws plain hempty (by rw [htables, Event.sizes, Mmu.allocBlocks, hb]; rfl)
      | some b =>
        obtain ⟨info, m'⟩ := b
        have hbs : ((Event.processCreate eprocess parentPid pid create).tables g k).allocBlocks k.space
            (Event.processCreate eprocess parentPid pid create).sizes = some ([info], m') := by
          rw [htables, Event.sizes, Mmu.allocBlocks, hb]
          rfl
        dsimp only
        split
        · rename_i hnull
          exact .null plain hempty _ _ hbs ⟨info, List.mem_singleton_self info, hnull⟩
        · rename_i hnull
          have hcalls : ∀ c ∈ exCalls r eprocess pid create info, c.buffers = if create then [info] else [] := by
            intro c hc
            obtain ⟨routine, -, rfl⟩ := List.mem_map.mp hc
            rfl
          cases create with
          | false =>
            refine .none _ (List.forall_mem_append.mpr ⟨hempty, callAll_empty g _ hcalls m'⟩) ?_
            rintro ⟨hcreate, -⟩
            cases hcreate
          | true =>
            refine .calls plain hempty _ _ hbs ?_ _ _ ?_ hcalls ⟨rfl, r, hr, hex⟩
            · rintro ⟨b, hb, hzero⟩
              obtain rfl := List.mem_singleton.mp hb
              exact hnull hzero
            · exact fun h => hex (List.map_eq_nil_iff.mp h)

theorem handed_imageLoad (g : Guest) (k : Kernel) (base : Nat) (name : List (BitVec 8)) (pid : BitVec 32) :
    Handed g k (.imageLoad base name pid) (notifyImageLoad g k base name pid) := by
  unfold notifyImageLoad
  cases hr : k.notifyRoutines with
  | none =>
    refine .none [] nofun ?_
    rintro ⟨-, r, hr', -⟩
    rw [hr] at hr'
    cases hr'
  | some r =>
    dsimp only
    split
    · rename_i hno
      refine .none [] nofun ?_
      rintro ⟨hbase, r', hr', hne⟩
      obtain rfl := Option.some.inj (hr.symm.trans hr')
      exact hno.elim hbase fun h => hne (List.isEmpty_iff.mp h)
    · rename_i hyes
      have hblocks := allocBlocks_three k.mmu k.space (imageNameSize name) unicodeStringSize imageInfoSize
      split
      · rename_i hnone
        rw [hnone] at hblocks
        exact .throws [] nofun hblocks
      · rename_i buffer nameObj info m hsome
        rw [hsome] at hblocks
        split
        · rename_i hnull
          exact .null [] nofun _ _ hblocks ⟨info, List.mem_singleton_self info, hnull⟩
        · rename_i hnull
          refine .calls [] nofun _ _ hblocks ?_ _ _ ?_ ?_ ⟨fun h => hyes (Or.inl h), r, hr, fun h => ?_⟩
          · rintro ⟨b, hb, hzero⟩
            obtain rfl := List.mem_singleton.mp hb
            exact hnull hzero
          · exact fun h => hyes (Or.inr (List.isEmpty_iff.mpr (List.map_eq_nil_iff.mp h)))
          · intro c hc
            obtain ⟨routine, -, rfl⟩ := List.mem_map.mp hc
            rfl
          · exact hyes (Or.inr (List.isEmpty_iff.mpr h))

theorem handed_preHandle (g : Guest) (k : Kernel) (objectType : Nat) (operation desiredAccess : BitVec 32) :
    Handed g k (.preHandle objectType operation desiredAccess)
      (obPreHandle g k objectType operation desiredAccess).1 := by
  unfold obPreHandle
  split
  · rename_i hno
    exact .none [] nofun fun h => h (List.isEmpty_iff.mp hno)
  · rename_i hyes
    have hblocks := allocBlocks_two k.mmu k.space preHandleParametersSize preOperationInformationSize
    dsimp only
    split
    · rename_i hnone
      rw [hnone] at hblocks
      exact .throws [] nofun hblocks
    · rename_i params info m hsome
      rw [hsome] at hblocks
      split
      · rename_i hnull
        refine .null [] nofun _ _ hblocks ?_
        rcases hnull with h | h
        · exact ⟨params, by simp [Event.unchecked], h⟩
        · exact ⟨info, by simp [Event.unchecked], h⟩
      · rename_i hnull
        refine .calls [] nofun _ _ hblocks ?_ _ _ ?_ ?_ fun h => hyes (List.isEmpty_iff.mpr h)
        · rintro ⟨b, hb, hzero⟩
          have hb' : b = params ∨ b = info := by simpa [Event.unchecked] using hb
          rcases hb' with rfl | rfl
          · exact hnull (Or.inl hzero)
          · exact hnull (Or.inr hzero)
        · exact fun h => hyes (List.isEmpty_iff.mpr (List.map_eq_nil_iff.mp h))
        · intro c hc
          obtain ⟨routine, -, rfl⟩ := List.mem_map.mp hc
          rfl

theorem handed (g : Guest) (k : Kernel) (e : Event) : Handed g k e (e.calls g k) := by
  cases e with
  | processCreate eprocess parentPid pid create => exact handed_processCreate g k eprocess parentPid pid create
  | imageLoad base name pid => exact handed_imageLoad g k base name pid
  | preHandle objectType operation desiredAccess => exact handed_preHandle g k objectType operation desiredAccess

theorem tables_spec (hg : g.KeepsBuffers k.space cpu) (hm : MapInv k.mmu) (e : Event) :
    MapInv (e.tables g k) ∧ ∀ r, (k.mmu.spaces r).isSome → ((e.tables g k).spaces r).isSome := by
  unfold Event.tables
  split
  · split
    · exact ⟨hm, fun _ => id⟩
    · obtain ⟨calls, hrun⟩ := callAll_runs hg (fun _ => true) (plainCalls _ _ _ _) k.mmu
      exact run_live hm hrun
  · exact ⟨hm, fun _ => id⟩

theorem visible_of_empty {space : Nat} {cs : List Called} (hcs : ∀ c ∈ cs, c.call.buffers = []) :
    ∀ c ∈ cs, c.Visible space cpu := by
  intro c hc b hb
  rw [hcs c hc] at hb
  exact absurd hb List.not_mem_nil

/-- **Callbacks see their buffers** in every call of an event, exactly when no buffer is handed out or the cpu will
find the pages that come next from the user cursor of the default space. -/
theorem buffers_visible_iff {format : EntryFormat} {calls : List Call} {k : Kernel} {g : Guest} {cpu : Cpu}
    (hrun : Run.Steps step TargetsOk (Mmu.init format) calls k.mmu) (hspace : (k.mmu.spaces k.space).isSome)
    (hcpu : (k.mmu.spaces cpu.cr3).isSome) (hg : g.KeepsBuffers k.space cpu) (e : Event) :
    (∀ c ∈ e.calls g k, c.Visible k.space cpu) ↔ e.Meets g k cpu := by
  obtain ⟨hinv, hlive⟩ := tables_spec hg (run_mapInv hrun) e
  obtain ⟨s, hs⟩ := Option.isSome_iff_exists.mp (hlive k.space hspace)
  have hnext : e.next g k = blocksFrom s.userNext e.sizes := by
    rw [Event.next, hs]
  have hhanded := handed g k e
  unfold Event.Meets
  rw [hnext]
  generalize e.calls g k = made at hhanded
  cases hhanded with
  | none _ hcs hnone => exact iff_of_true (visible_of_empty hcs) (Or.inl hnone)
  | throws _ hcs hfull => exact iff_of_true (visible_of_empty hcs) (Or.inr (Or.inl hfull))
  | null _ hcs bs m hbs hnull =>
    obtain ⟨rfl, -⟩ := allocBlocks_spec hinv hs hbs
    exact iff_of_true (visible_of_empty hcs) (Or.inr (Or.inr (Or.inl hnull)))
  | calls before hbefore bs m hbs hnull goOn cs hcs hbuffers hhands =>
    obtain ⟨rfl, hpages⟩ := allocBlocks_spec hinv hs hbs
    have hmeets : (∀ b ∈ blocksFrom s.userNext e.sizes, ∀ page ∈ b.pages, m.Visible k.space cpu page) ↔
        ∀ b ∈ blocksFrom s.userNext e.sizes, ∀ page ∈ b.pages, (e.tables g k).Meets k.space cpu page :=
      forall₂_congr fun b hb => forall₂_congr fun page hpage => hpages cpu (hlive cpu.cr3 hcpu) b hb page hpage
    rw [List.forall_mem_append, and_iff_right (visible_of_empty hbefore), callAll_visible hg goOn hbuffers,
      or_iff_right hcs, hmeets, or_iff_right (not_not_intro hhands), hbs, or_iff_right (Option.some_ne_none _),
      or_iff_right hnull]

def idle : Guest := ⟨fun m _ => (m, 1)⟩

theorem idle_keeps (space : Nat) (cpu : Cpu) : idle.KeepsBuffers space cpu :=
  ⟨fun m _ => ⟨[], .nil m⟩, fun _ _ _ _ _ _ => ⟨rfl, rfl⟩⟩

def spacesOnly : List Call := [.createAddrSpace, .createAddrSpace]

def oneRoutine (m : Mmu) : Kernel := ⟨m, 0x100000000, some ⟨[], [0x5000], []⟩, []⟩

def created : Event := .processCreate 0x7000 4 8 true

theorem buffers_visible_open : ∃ m, Run.Steps step TargetsOk (Mmu.init pfn36) spacesOnly m ∧
    (created.calls idle (oneRoutine m)).length = 1 ∧
    ∀ c ∈ created.calls idle (oneRoutine m), c.Visible 0x100000000 ⟨0x100000000, true, true⟩ := by
  have hexec : (Run.exec step (fun m call => decide (TargetsOk m call)) (Mmu.init pfn36) spacesOnly).map (fun m =>
      ((m.spaces 0x100000000).isSome, (created.calls idle (oneRoutine m)).length, created.next idle (oneRoutine m))) =
      some (true, 1, [⟨0x10000, 72⟩]) := by decide +kernel
  obtain ⟨m, hm, hval⟩ := Option.map_eq_some_iff.mp hexec
  simp only [Prod.mk.injEq] at hval
  obtain ⟨hlive, hlength, hnext⟩ := hval
  have hrun := Run.Steps.of_exec (fun _ _ => of_decide_eq_true) hm
  have hcpu : (m.spaces (Cpu.cr3 ⟨0x100000000, true, true⟩)).isSome := hlive
  refine ⟨m, hrun, hlength, ?_⟩
  refine (buffers_visible_iff (k := oneRoutine m) hrun hlive hcpu (idle_keeps _ _) created).mpr ?_
  refine Or.inr (Or.inr (Or.inr ?_))
  rw [hnext]
  refine List.forall_mem_singleton.mpr fun page hpage => ?_
  obtain rfl : page = 0x10000 := List.mem_singleton.mp hpage
  exact (meets_self rfl).mpr ⟨by decide, rfl⟩

/-- Another process makes one: its cpu does not find the block. -/
theorem otherSpace_unseen : ¬ ∀ (format : EntryFormat) (calls : List Call) (k : Kernel) (g : Guest) (cpu : Cpu),
    Run.Steps step TargetsOk (Mmu.init format) calls k.mmu → (k.mmu.spaces k.space).isSome →
    (k.mmu.spaces cpu.cr3).isSome → g.KeepsBuffers k.space cpu → ∀ e : Event, ∀ c ∈ e.calls g k,
      c.Visible k.space cpu := by
  intro hall
  have hexec : (Run.exec step (fun m call => decide (TargetsOk m call)) (Mmu.init pfn36) spacesOnly).map (fun m =>
      ((m.spaces 0x100000000).isSome, (m.spaces 0x100001000).isSome,
        (created.calls idle (oneRoutine m)).map fun c => (c.call.buffers.flatMap Block.pages,
          c.before.supervisorFrame ⟨0x100001000, true, false⟩ 0x10000))) =
      some (true, true, [([0x10000], none)]) := by decide +kernel
  obtain ⟨m, hm, hval⟩ := Option.map_eq_some_iff.mp hexec
  simp only [Prod.mk.injEq] at hval
  obtain ⟨hspace, hcpu, hcalls⟩ := hval
  have hrun := Run.Steps.of_exec (fun _ _ => of_decide_eq_true) hm
  have hvisible := hall pfn36 spacesOnly (oneRoutine m) idle ⟨0x100001000, true, false⟩ hrun hspace hcpu
    (idle_keeps _ _) created
  obtain ⟨c, hc, hval⟩ := List.mem_map.mp (hcalls ▸ List.mem_singleton_self _)
  obtain ⟨hpages, hframe⟩ := Prod.mk.inj hval
  obtain ⟨b, hb, hpage⟩ := List.mem_flatMap.mp (hpages ▸ List.mem_singleton_self _)
  obtain ⟨frame, -, hfound, -⟩ := hvisible c hc b hb 0x10000 hpage
  rw [hframe] at hfound
  cases hfound

end Kernemul.CallbackBuffers
