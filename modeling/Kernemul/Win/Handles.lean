import Kernemul.Lib.Run
import Mathlib.Data.Set.Card

/-!
# Handle tables and the object manager

`win_handle_table` hands out numbers for objects of `win_obj_manager`, which keeps in each object's header how
many handles name it. The table and the header are updated one after the other, for any number of tables
over one object manager.
-/

namespace Kernemul.Handles

open Run

abbrev Handle := BitVec 64

/-- The counts of an `_OBJECT_HEADER`. -/
structure Header where
  pointerCount : BitVec 64
  handleCount : BitVec 64
  deriving DecidableEq, Repr

/-- An object is found by the address of its body; one that was registered without being built here has no
header. -/
structure ObjectEntry (Host : Type*) where
  header : Option Header
  host : Option Host

structure HandleEntry where
  bodyAddr : Nat
  access : BitVec 32
  deriving DecidableEq, Repr

structure HandleTable where
  handles : Handle → Option HandleEntry := fun _ => none
  nextHandle : Handle := 4

structure State (Host : Type*) where
  objects : Nat → Option (ObjectEntry Host) := fun _ => none
  tables : Nat → HandleTable := fun _ => {}

variable {Host : Type*}

/-! ### `win_obj_manager` -/

def hasObject (s : State Host) (bodyAddr : Nat) : Bool := (s.objects bodyAddr).isSome

def State.putObject (s : State Host) (bodyAddr : Nat) (entry : ObjectEntry Host) : State Host :=
  { s with objects := Function.update s.objects bodyAddr (some entry) }

/-- `space_.alloc` answers with memory that nothing else holds, so there is no object at `bodyAddr`. -/
def createObject (s : State Host) (bodyAddr : Nat) (host : Option Host) : Option (State Host) :=
  if hasObject s bodyAddr then none
  else some (s.putObject bodyAddr ⟨some ⟨1, 0⟩, host⟩)

def registerObject (s : State Host) (bodyAddr : Nat) (host : Option Host) : Option (State Host) :=
  if hasObject s bodyAddr then none
  else some (s.putObject bodyAddr ⟨none, host⟩)

def State.editHeader (s : State Host) (bodyAddr : Nat) (edit : Header → Header) : State Host :=
  let entry := (s.objects bodyAddr).map fun entry => { entry with header := entry.header.map edit }
  { s with objects := Function.update s.objects bodyAddr entry }

def referenceObject (s : State Host) (bodyAddr : Nat) : State Host :=
  s.editHeader bodyAddr fun hdr => { hdr with pointerCount := hdr.pointerCount + 1 }

def dereferenceObject (s : State Host) (bodyAddr : Nat) : State Host :=
  s.editHeader bodyAddr fun hdr => { hdr with pointerCount := hdr.pointerCount - 1 }

def incrementHandleCount (s : State Host) (bodyAddr : Nat) : State Host :=
  s.editHeader bodyAddr fun hdr => { hdr with handleCount := hdr.handleCount + 1 }

def decrementHandleCount (s : State Host) (bodyAddr : Nat) : State Host :=
  s.editHeader bodyAddr fun hdr => { hdr with handleCount := hdr.handleCount - 1 }

/-! ### `win_handle_table` -/

def allocHandle (s : State Host) (t : Nat) : Handle × State Host :=
  let h := (s.tables t).nextHandle
  (h, { s with tables := Function.update s.tables t { s.tables t with nextHandle := h + 4 } })

/-- `handles_[h] = …`, and `handles_.erase(it)` for `none`. -/
def State.setHandle (s : State Host) (t : Nat) (h : Handle) (entry : Option HandleEntry) : State Host :=
  let handles := Function.update (s.tables t).handles h entry
  { s with tables := Function.update s.tables t { s.tables t with handles := handles } }

def createHandle (s : State Host) (t bodyAddr : Nat) (access : BitVec 32) : Handle × State Host :=
  if hasObject s bodyAddr then
    let (h, s) := allocHandle s t
    (h, incrementHandleCount (s.setHandle t h (some ⟨bodyAddr, access⟩)) bodyAddr)
  else (0, s)

def lookupHandle (s : State Host) (t : Nat) (h : Handle) : Option HandleEntry := (s.tables t).handles h

def closeHandle (s : State Host) (t : Nat) (h : Handle) : Bool × State Host :=
  match lookupHandle s t h with
  | none => (false, s)
  | some entry => (true, decrementHandleCount (s.setHandle t h none) entry.bodyAddr)

/-- `cast` is the `dynamic_pointer_cast` to the wanted type of object. -/
def getObject {T : Type*} (cast : Host → Option T) (s : State Host) (t : Nat) (h : Handle) : Option T :=
  (lookupHandle s t h).bind fun entry =>
    (s.objects entry.bodyAddr).bind fun object => object.host.bind cast

/-! ## Runs -/

inductive Call (Host : Type*)
  | createObject (bodyAddr : Nat) (host : Option Host)
  | registerObject (bodyAddr : Nat) (host : Option Host)
  | referenceObject (bodyAddr : Nat)
  | dereferenceObject (bodyAddr : Nat)
  | createHandle (t bodyAddr : Nat) (access : BitVec 32)
  | closeHandle (t : Nat) (h : Handle)

def step (s : State Host) : Call Host → Option (State Host)
  | .createObject bodyAddr host => createObject s bodyAddr host
  | .registerObject bodyAddr host => registerObject s bodyAddr host
  | .referenceObject bodyAddr => some (referenceObject s bodyAddr)
  | .dereferenceObject bodyAddr => some (dereferenceObject s bodyAddr)
  | .createHandle t bodyAddr access => some (createHandle s t bodyAddr access).2
  | .closeHandle t h => some (closeHandle s t h).2

/-- The calls lead from `s` to `s'`. -/
def Leads (s : State Host) (calls : List (Call Host)) (s' : State Host) : Prop :=
  Steps step (fun _ _ => True) s calls s'

/-- The handles that a call takes from table `t`. -/
def handsOut (s : State Host) (t : Nat) : Call Host → List Handle
  | .createHandle t' bodyAddr access =>
    if t' = t ∧ hasObject s bodyAddr then [(createHandle s t' bodyAddr access).1] else []
  | _ => []

/-- The handles that table `t` hands out while the calls are made, in order. -/
def handedOut (t : Nat) : State Host → List (Call Host) → List Handle
  | _, [] => []
  | s, call :: calls => handsOut s t call ++ ((step s call).elim [] fun s' => handedOut t s' calls)

def State.live (s : State Host) (bodyAddr : Nat) : Set (Nat × Handle) :=
  fun p => ∃ access, lookupHandle s p.1 p.2 = some ⟨bodyAddr, access⟩

/-- What a run from a new object manager has to show for its handles: each header counts the live handles of
its object, a handle names the object it was made for until it is closed and nothing after that, and no
table has handed a handle out twice. -/
structure Accounted (calls : List (Call Host)) (s : State Host) : Prop where
  counted : ∀ a object hdr, s.objects a = some object → object.header = some hdr →
    hdr.handleCount = BitVec.ofNat 64 (s.live a).ncard
  resolves : ∀ done t a access more before, calls = done ++ .createHandle t a access :: more →
    Leads {} done before → hasObject before a →
    let h := (createHandle before t a access).1
    (.closeHandle t h ∉ more → lookupHandle s t h = some ⟨a, access⟩ ∧
      ∀ (T : Type) (cast : Host → Option T), getObject cast s t h =
        (before.objects a).bind fun object => object.host.bind cast) ∧
    (.closeHandle t h ∈ more → lookupHandle s t h = none ∧
      ∀ (T : Type) (cast : Host → Option T), getObject cast s t h = none)
  distinct : ∀ t, (handedOut t {} calls).Nodup

/-! ## The state after each operation -/

def State.header (s : State Host) (a : Nat) : Option Header := (s.objects a).bind (·.header)

theorem objects_putObject (s : State Host) (a b : Nat) (entry : ObjectEntry Host) :
    (s.putObject a entry).objects b = if b = a then some entry else s.objects b :=
  Function.update_apply ..

theorem objects_editHeader (s : State Host) (a b : Nat) (edit : Header → Header) :
    (s.editHeader a edit).objects b = if b = a then
      (s.objects b).map fun entry => { entry with header := entry.header.map edit }
    else s.objects b := by
  by_cases h : b = a
  · rw [if_pos h, h]
    exact Function.update_self ..
  · rw [if_neg h]
    exact Function.update_of_ne h ..

theorem hasObject_editHeader (s : State Host) (a b : Nat) (edit : Header → Header) :
    hasObject (s.editHeader a edit) b = hasObject s b := by
  unfold hasObject
  rw [objects_editHeader]
  split
  · exact Option.isSome_map
  · rfl

theorem header_editHeader (s : State Host) (a b : Nat) (edit : Header → Header) :
    (s.editHeader a edit).header b = if b = a then (s.header b).map edit else s.header b := by
  unfold State.header
  rw [objects_editHeader]
  split
  · cases s.objects b <;> rfl
  · rfl

theorem lookup_setHandle (s : State Host) (t t' : Nat) (h h' : Handle) (entry : Option HandleEntry) :
    lookupHandle (s.setHandle t h entry) t' h' =
      if t' = t ∧ h' = h then entry else lookupHandle s t' h' := by
  unfold lookupHandle State.setHandle
  by_cases ht : t' = t
  · subst ht
    simp only [Function.update_self, true_and, Function.update_apply]
  · simp only [Function.update_of_ne ht, ht, false_and, if_false]

theorem lookup_allocHandle (s : State Host) (t t' : Nat) (h : Handle) :
    lookupHandle (allocHandle s t).2 t' h = lookupHandle s t' h := by
  unfold lookupHandle allocHandle
  by_cases ht : t' = t
  · subst ht
    simp only [Function.update_self]
  · simp only [Function.update_of_ne ht]

theorem nextHandle_allocHandle (s : State Host) (t t' : Nat) :
    ((allocHandle s t).2.tables t').nextHandle =
      if t' = t then (s.tables t').nextHandle + 4 else (s.tables t').nextHandle := by
  unfold allocHandle
  by_cases ht : t' = t
  · subst ht
    simp only [Function.update_self, if_pos]
  · simp only [Function.update_of_ne ht, if_neg ht]

theorem nextHandle_setHandle (s : State Host) (t t' : Nat) (h : Handle) (entry : Option HandleEntry) :
    ((s.setHandle t h entry).tables t').nextHandle = (s.tables t').nextHandle := by
  unfold State.setHandle
  by_cases ht : t' = t
  · subst ht
    simp only [Function.update_self]
  · simp only [Function.update_of_ne ht]

variable {s : State Host} {a : Nat}

theorem createHandle_eq (ha : hasObject s a) (t : Nat) (access : BitVec 32) :
    createHandle s t a access = ((s.tables t).nextHandle,
      incrementHandleCount ((allocHandle s t).2.setHandle t (s.tables t).nextHandle (some ⟨a, access⟩)) a) := by
  unfold createHandle
  rw [if_pos ha]
  rfl

theorem createHandle_none (ha : ¬ hasObject s a) (t : Nat) (access : BitVec 32) :
    createHandle s t a access = (0, s) := if_neg ha

/-! ### Lookups -/

theorem lookup_closeHandle (s : State Host) (t t' : Nat) (h h' : Handle) :
    lookupHandle (closeHandle s t' h').2 t h =
      if t = t' ∧ h = h' then none else lookupHandle s t h := by
  unfold closeHandle
  split
  · rename_i hnone
    split
    · rename_i heq
      rw [heq.1, heq.2]
      exact hnone
    · rfl
  · exact lookup_setHandle ..

/-- What a call makes of the handle `h` of table `t`. -/
def State.entryAfter (s : State Host) (t : Nat) (h : Handle) : Call Host → Option HandleEntry
  | .createHandle t' a access =>
    if hasObject s a ∧ t = t' ∧ h = (s.tables t').nextHandle then some ⟨a, access⟩ else lookupHandle s t h
  | .closeHandle t' h' => if t = t' ∧ h = h' then none else lookupHandle s t h
  | _ => lookupHandle s t h

variable {s' : State Host} {call : Call Host}

theorem lookup_step (hstep : step s call = some s') (t : Nat)
    (h : Handle) : lookupHandle s' t h = s.entryAfter t h call := by
  cases call with
  | createObject a host =>
    simp only [step, createObject, Option.ite_none_left_eq_some, Option.some.injEq] at hstep
    rw [← hstep.2]
    rfl
  | registerObject a host =>
    simp only [step, registerObject, Option.ite_none_left_eq_some, Option.some.injEq] at hstep
    rw [← hstep.2]
    rfl
  | referenceObject a =>
    obtain rfl := Option.some.inj hstep
    rfl
  | dereferenceObject a =>
    obtain rfl := Option.some.inj hstep
    rfl
  | createHandle t' a access =>
    obtain rfl := Option.some.inj hstep
    unfold State.entryAfter
    by_cases ha : hasObject s a
    · rw [createHandle_eq ha]
      refine (lookup_setHandle ..).trans ?_
      simp only [ha, true_and, lookup_allocHandle]
    · rw [createHandle_none ha]
      exact (if_neg fun hc => ha hc.1).symm
  | closeHandle t' h' =>
    obtain rfl := Option.some.inj hstep
    exact lookup_closeHandle ..

/-! ### Numbers -/

/-- The `i`-th handle of a table. -/
def nth (i : Nat) : Handle := BitVec.ofNat 64 (4 * (i + 1))

theorem nth_succ (i : Nat) : nth i + 4 = nth (i + 1) := by
  unfold nth
  rw [show (4 : Handle) = BitVec.ofNat 64 4 from rfl, ← BitVec.ofNat_add]
  rfl

theorem nth_eq_iff (i j : Nat) : nth i = nth j ↔ i % 2 ^ 62 = j % 2 ^ 62 := by
  rw [nth, nth, ← BitVec.toNat_inj, BitVec.toNat_ofNat, BitVec.toNat_ofNat]
  omega

theorem nth_inj {i j : Nat} (hi : i < 2 ^ 62) (hj : j < 2 ^ 62) (h : nth i = nth j) : i = j := by
  rwa [nth_eq_iff, Nat.mod_eq_of_lt hi, Nat.mod_eq_of_lt hj] at h

/-- Each table counts its handles: `n t` is how many it has handed out. -/
def Numbered (n : Nat → Nat) (s : State Host) : Prop := ∀ t, (s.tables t).nextHandle = nth (n t)

theorem numbered_init : Numbered (fun _ => 0) ({} : State Host) := fun _ => rfl

variable {n : Nat → Nat}

theorem handsOut_eq (hn : Numbered n s) (t : Nat) (call : Call Host) :
    handsOut s t call = (List.range' (n t) (handsOut s t call).length).map nth := by
  unfold handsOut
  split
  · rename_i t' a access
    split
    · rename_i hsome
      rw [createHandle_eq hsome.2, hsome.1, hn t]
      rfl
    · rfl
  · rfl

theorem numbered_step (hn : Numbered n s)
    (hstep : step s call = some s') : Numbered (fun t => n t + (handsOut s t call).length) s' := by
  intro t
  cases call with
  | createObject a host =>
    simp only [step, createObject, Option.ite_none_left_eq_some, Option.some.injEq] at hstep
    rw [← hstep.2]
    exact hn t
  | registerObject a host =>
    simp only [step, registerObject, Option.ite_none_left_eq_some, Option.some.injEq] at hstep
    rw [← hstep.2]
    exact hn t
  | referenceObject a =>
    obtain rfl := Option.some.inj hstep
    exact hn t
  | dereferenceObject a =>
    obtain rfl := Option.some.inj hstep
    exact hn t
  | createHandle t' a access =>
    obtain rfl := Option.some.inj hstep
    by_cases ha : hasObject s a
    · rw [createHandle_eq ha]
      refine (nextHandle_setHandle ..).trans ((nextHandle_allocHandle ..).trans ?_)
      by_cases ht : t = t'
      · rw [if_pos ht, hn t, nth_succ]
        simp [handsOut, ht, ha]
      · rw [if_neg ht, hn t]
        simp [handsOut, Ne.symm ht]
    · rw [createHandle_none ha, hn t]
      simp [handsOut, ha]
  | closeHandle t' h' =>
    obtain rfl := Option.some.inj hstep
    unfold closeHandle
    split
    · exact hn t
    · exact (nextHandle_setHandle ..).trans (hn t)

theorem handedOut_cons {s₁ : State Host} (hstep : step s call = some s₁) (t : Nat) (calls : List (Call Host)) :
    handedOut t s (call :: calls) = handsOut s t call ++ handedOut t s₁ calls := by
  rw [handedOut, hstep]
  rfl

variable {calls : List (Call Host)}

theorem numbered_run (hn : Numbered n s) (hrun : Leads s calls s') :
    Numbered (fun t => n t + (handedOut t s calls).length) s' ∧
      ∀ t, handedOut t s calls = (List.range' (n t) (handedOut t s calls).length).map nth := by
  induction hrun generalizing n with
  | nil => exact ⟨hn, fun t => rfl⟩
  | @cons s s₁ s₂ call calls _ hstep rest ih =>
    obtain ⟨hn₂, hout⟩ := ih (numbered_step hn hstep)
    have hcons := fun t => handedOut_cons hstep t calls
    constructor
    · intro t
      simp only [hn₂ t, hcons, List.length_append, Nat.add_assoc]
    · intro t
      rw [hcons, List.length_append, ← List.range'_append_1, List.map_append, ← handsOut_eq hn, ← hout t]

/-! ## Accounting -/

/-- Holds of a state whose tables have handed out `n t` handles each. -/
structure Inv (n : Nat → Nat) (s : State Host) : Prop where
  numbered : Numbered n s
  issued : ∀ t h, lookupHandle s t h ≠ none → ∃ i < n t, h = nth i
  named : ∀ t h entry, lookupHandle s t h = some entry → hasObject s entry.bodyAddr
  finite : ∀ a, (s.live a).Finite
  counted : ∀ a hdr, s.header a = some hdr → hdr.handleCount = BitVec.ofNat 64 (s.live a).ncard

theorem Inv.init : Inv (fun _ => 0) ({} : State Host) where
  numbered := numbered_init
  issued := fun _ _ h => absurd rfl h
  named := fun _ _ _ h => nomatch h
  finite := fun _ => Set.finite_empty.subset fun _ h => nomatch h
  counted := fun _ _ h => nomatch h

theorem Inv.putObject (hI : Inv n s) (ha : ¬ hasObject s a)
    {entry : ObjectEntry Host} (hentry : ∀ hdr, entry.header = some hdr → hdr.handleCount = 0) :
    Inv n (s.putObject a entry) := by
  refine ⟨hI.numbered, hI.issued, fun t h e he => ?_, hI.finite, fun b hdr hhdr => ?_⟩
  · unfold hasObject
    rw [objects_putObject]
    split
    · rfl
    · exact hI.named t h e he
  · unfold State.header at hhdr
    rw [objects_putObject] at hhdr
    split at hhdr
    · rename_i hb
      have hlive : s.live b = ∅ := by
        refine Set.eq_empty_of_forall_notMem fun p hp => ?_
        obtain ⟨access, hlook⟩ := hp
        exact ha (hb ▸ hI.named _ _ _ hlook)
      rw [hentry hdr hhdr, show (s.putObject a entry).live b = ∅ from hlive, Set.ncard_empty]
      rfl
    · exact hI.counted b hdr hhdr

/-- Editing a header keeps everything but the count, and the count too where `edit` does. -/
theorem Inv.editHeader (hI : Inv n s) (a : Nat) {edit : Header → Header}
    (hedit : ∀ hdr, (edit hdr).handleCount = hdr.handleCount) : Inv n (s.editHeader a edit) := by
  refine ⟨hI.numbered, hI.issued, fun t h e he => ?_, hI.finite, fun b hdr hhdr => ?_⟩
  · rw [hasObject_editHeader]
    exact hI.named t h e he
  · rw [header_editHeader] at hhdr
    split at hhdr
    · obtain ⟨old, hold, rfl⟩ := Option.map_eq_some_iff.mp hhdr
      rw [hedit]
      exact hI.counted b old hold
    · exact hI.counted b hdr hhdr

/-! ### Opening and closing -/

variable {t : Nat}

theorem live_open {h : Handle} {access : BitVec 32} (hnew : lookupHandle s t h = none)
    (hlook : ∀ t' h', lookupHandle s' t' h' =
      if t' = t ∧ h' = h then some ⟨a, access⟩ else lookupHandle s t' h') (b : Nat) :
    s'.live b = if b = a then insert (t, h) (s.live b) else s.live b := by
  ext p
  have hp : p ∈ s'.live b ↔ ∃ acc, (if p.1 = t ∧ p.2 = h then some ⟨a, access⟩
      else lookupHandle s p.1 p.2) = some ⟨b, acc⟩ := by
    rw [← hlook]
    rfl
  rw [hp]
  by_cases hth : p.1 = t ∧ p.2 = h
  · obtain rfl : p = (t, h) := Prod.ext hth.1 hth.2
    have hnot : (t, h) ∉ s.live b := by
      rintro ⟨acc, hacc⟩
      rw [hnew] at hacc
      simp at hacc
    simp only [and_self, if_pos, Option.some.injEq, HandleEntry.mk.injEq, exists_and_left]
    split
    · rename_i hb
      simp [hb]
    · rename_i hb
      simp [hnot, Ne.symm hb]
  · have hne : p ≠ (t, h) := fun heq => hth (heq ▸ ⟨rfl, rfl⟩)
    simp only [if_neg hth]
    split
    · rw [Set.mem_insert_iff, or_iff_right hne]
      rfl
    · rfl

theorem live_close {h : Handle} {entry : HandleEntry} (hold : lookupHandle s t h = some entry)
    (hlook : ∀ t' h', lookupHandle s' t' h' = if t' = t ∧ h' = h then none else lookupHandle s t' h') (b : Nat) :
    s'.live b = if b = entry.bodyAddr then s.live b \ {(t, h)} else s.live b := by
  ext p
  have hp : p ∈ s'.live b ↔ ∃ acc, (if p.1 = t ∧ p.2 = h then none
      else lookupHandle s p.1 p.2) = some ⟨b, acc⟩ := by
    rw [← hlook]
    rfl
  rw [hp]
  by_cases hth : p.1 = t ∧ p.2 = h
  · obtain rfl : p = (t, h) := Prod.ext hth.1 hth.2
    simp only [and_self, if_pos, reduceCtorEq, exists_false, false_iff]
    split
    · exact fun hmem => hmem.2 rfl
    · rename_i hb
      rintro ⟨acc, hacc⟩
      rw [hold] at hacc
      exact hb (Option.some.inj hacc ▸ rfl)
  · have hne : p ≠ (t, h) := fun heq => hth (heq ▸ ⟨rfl, rfl⟩)
    simp only [if_neg hth]
    split
    · exact ⟨fun hmem => ⟨hmem, hne⟩, fun hmem => hmem.1⟩
    · rfl

theorem Inv.createHandle (hI : Inv n s) (ha : hasObject s a) (access : BitVec 32) (hroom : n t < 2 ^ 62) :
    Inv (fun t' => n t' + (handsOut s t' (.createHandle t a access)).length)
      (Handles.createHandle s t a access).2 := by
  have hstep : step s (.createHandle t a access) = some (Handles.createHandle s t a access).2 := rfl
  have hlook : ∀ t' h', lookupHandle (Handles.createHandle s t a access).2 t' h' =
      if t' = t ∧ h' = nth (n t) then some ⟨a, access⟩ else lookupHandle s t' h' := by
    intro t' h'
    rw [lookup_step hstep, State.entryAfter, hI.numbered t]
    simp only [ha, true_and]
  have hnew : lookupHandle s t (nth (n t)) = none := by
    by_contra hold
    obtain ⟨i, hi, heq⟩ := hI.issued _ _ hold
    exact Nat.ne_of_lt hi (nth_inj (hi.trans hroom) hroom heq.symm)
  have hlive := live_open hnew hlook
  refine ⟨numbered_step hI.numbered hstep, fun t' h' hne => ?_, fun t' h' entry he => ?_, fun b => ?_,
    fun b hdr hhdr => ?_⟩
  · rw [hlook] at hne
    split at hne
    · rename_i hth
      refine ⟨n t, ?_, hth.2⟩
      simp [handsOut, hth.1, ha]
    · obtain ⟨i, hi, heq⟩ := hI.issued _ _ hne
      exact ⟨i, hi.trans_le (Nat.le_add_right ..), heq⟩
  · rw [createHandle_eq ha]
    refine (hasObject_editHeader ..).trans ?_
    rw [hlook] at he
    split at he
    · exact Option.some.inj he ▸ ha
    · exact hI.named t' h' entry he
  · rw [hlive]
    split
    · exact (hI.finite b).insert _
    · exact hI.finite b
  · rw [createHandle_eq ha] at hhdr
    replace hhdr := (header_editHeader ..).symm.trans hhdr
    rw [hlive]
    split at hhdr
    · rename_i hb
      obtain ⟨old, hold, rfl⟩ := Option.map_eq_some_iff.mp hhdr
      have hnot : (t, nth (n t)) ∉ s.live b := by
        rintro ⟨acc, hacc⟩
        rw [hnew] at hacc
        simp at hacc
      rw [if_pos hb, Set.ncard_insert_of_notMem hnot (hI.finite b), BitVec.ofNat_add,
        ← hI.counted b old hold]
      rfl
    · rename_i hb
      rw [if_neg hb]
      exact hI.counted b hdr hhdr

theorem Inv.closeHandle (hI : Inv n s) (t : Nat) (h : Handle) :
    Inv n (Handles.closeHandle s t h).2 := by
  cases hold : lookupHandle s t h with
  | none =>
    have hsame : Handles.closeHandle s t h = (false, s) := by
      unfold Handles.closeHandle
      rw [hold]
    rw [hsame]
    exact hI
  | some entry =>
    have hclose : Handles.closeHandle s t h =
        (true, decrementHandleCount (s.setHandle t h none) entry.bodyAddr) := by
      unfold Handles.closeHandle
      rw [hold]
    have hlook := fun t' h' => lookup_closeHandle s t' t h' h
    have hlive := live_close hold hlook
    have hstep : step s (.closeHandle t h) = some (Handles.closeHandle s t h).2 := rfl
    refine ⟨numbered_step hI.numbered hstep, fun t' h' hne => ?_, fun t' h' e he => ?_, fun b => ?_,
      fun b hdr hhdr => ?_⟩
    · rw [hlook] at hne
      split at hne
      · exact absurd rfl hne
      · exact hI.issued t' h' hne
    · rw [hclose]
      refine (hasObject_editHeader ..).trans ?_
      rw [hlook] at he
      split at he
      · simp at he
      · exact hI.named t' h' e he
    · rw [hlive]
      split
      · exact (hI.finite b).subset Set.sdiff_subset
      · exact hI.finite b
    · rw [hclose] at hhdr
      replace hhdr := (header_editHeader ..).symm.trans hhdr
      rw [hlive]
      split at hhdr
      · rename_i hb
        obtain ⟨old, hhold, rfl⟩ := Option.map_eq_some_iff.mp hhdr
        have hmem : (t, h) ∈ s.live b := ⟨entry.access, hb ▸ hold⟩
        rw [if_pos hb, hI.counted b old hhold, ← Set.ncard_sdiff_singleton_add_one hmem (hI.finite b),
          BitVec.ofNat_add]
        exact BitVec.add_sub_cancel ..
      · rename_i hb
        rw [if_neg hb]
        exact hI.counted b hdr hhdr

theorem Inv.step (hI : Inv n s) (hstep : Handles.step s call = some s')
    (hroom : ∀ t, n t + (handsOut s t call).length ≤ 2 ^ 62) :
    Inv (fun t => n t + (handsOut s t call).length) s' := by
  cases call with
  | createObject a host =>
    simp only [Handles.step, createObject, Option.ite_none_left_eq_some, Option.some.injEq] at hstep
    rw [← hstep.2]
    exact hI.putObject hstep.1 fun hdr hhdr => Option.some.inj hhdr ▸ rfl
  | registerObject a host =>
    simp only [Handles.step, registerObject, Option.ite_none_left_eq_some, Option.some.injEq] at hstep
    rw [← hstep.2]
    exact hI.putObject hstep.1 fun hdr hhdr => nomatch hhdr
  | referenceObject a =>
    obtain rfl := Option.some.inj hstep
    exact hI.editHeader a fun _ => rfl
  | dereferenceObject a =>
    obtain rfl := Option.some.inj hstep
    exact hI.editHeader a fun _ => rfl
  | createHandle t a access =>
    obtain rfl := Option.some.inj hstep
    by_cases ha : hasObject s a
    · refine hI.createHandle ha access ?_
      have := hroom t
      simp only [handsOut, ha, and_self, if_pos, List.length_singleton] at this
      omega
    · simpa [handsOut, createHandle_none ha, ha] using hI
  | closeHandle t h =>
    obtain rfl := Option.some.inj hstep
    exact hI.closeHandle t h

/-! ### A handle over the rest of a run -/

/-- The `i`-th handle of a table, once handed out, is closed by a later call or left alone. -/
theorem entry_step (hn : Numbered n s) (hstep : step s call = some s') {i : Nat} (hi : i < n t)
    (hroom : n t + (handsOut s t call).length ≤ 2 ^ 62) (hopen : call ≠ .closeHandle t (nth i)) :
    lookupHandle s' t (nth i) = lookupHandle s t (nth i) := by
  rw [lookup_step hstep]
  unfold State.entryAfter
  split
  · rename_i t' a access
    refine if_neg fun hnew => ?_
    obtain ⟨ha, rfl, heq⟩ := hnew
    rw [hn t] at heq
    simp only [handsOut, ha, and_self, if_pos, List.length_singleton] at hroom
    exact Nat.ne_of_lt hi (nth_inj (by omega) (by omega) heq)
  · rename_i t' h'
    refine if_neg fun hclose => hopen ?_
    rw [hclose.1, hclose.2]
  · rfl

theorem entry_run (hn : Numbered n s) (hrun : Leads s calls s') {i : Nat} (hi : i < n t)
    (hroom : n t + (handedOut t s calls).length ≤ 2 ^ 62) :
    (.closeHandle t (nth i) ∉ calls → lookupHandle s' t (nth i) = lookupHandle s t (nth i)) ∧
      (.closeHandle t (nth i) ∈ calls → lookupHandle s' t (nth i) = none) := by
  induction hrun generalizing n with
  | nil => exact ⟨fun _ => rfl, fun h => absurd h List.not_mem_nil⟩
  | @cons s s₁ s₂ call calls _ hstep rest ih =>
    rw [handedOut_cons hstep, List.length_append, ← Nat.add_assoc] at hroom
    obtain ⟨hkept, hclosed⟩ := ih (numbered_step hn hstep) (hi.trans_le (Nat.le_add_right ..)) hroom
    have hhere := entry_step hn hstep hi ((Nat.le_add_right ..).trans hroom)
    constructor
    · intro hopen
      rw [List.mem_cons, not_or] at hopen
      rw [hkept hopen.2, hhere (Ne.symm hopen.1)]
    · intro hmem
      by_cases hlater : .closeHandle t (nth i) ∈ calls
      · exact hclosed hlater
      · obtain rfl := (List.mem_cons.mp hmem).resolve_right hlater
        rw [hkept hlater, lookup_step hstep]
        exact if_pos ⟨rfl, rfl⟩

theorem getObject_eq {h : Handle} {access : BitVec 32}
    (hentry : lookupHandle s t h = some ⟨a, access⟩) {T : Type*} (cast : Host → Option T) :
    getObject cast s t h = ((s.objects a).map (·.host)).bind (·.bind cast) := by
  rw [getObject, hentry]
  cases hobject : s.objects a <;> simp [hobject]

theorem host_step (hstep : step s call = some s') (ha : hasObject s a) :
    (s'.objects a).map (·.host) = (s.objects a).map (·.host) := by
  have hput : ∀ b entry, ¬ hasObject s b → (s.putObject b entry).objects a = s.objects a := by
    intro b entry hb
    exact (objects_putObject ..).trans (if_neg fun heq : a = b => hb (heq ▸ ha))
  have hedit : ∀ (s : State Host) b edit,
      ((s.editHeader b edit).objects a).map (·.host) = (s.objects a).map (·.host) := by
    intro s b edit
    rw [objects_editHeader]
    split
    · cases s.objects a <;> rfl
    · rfl
  cases call with
  | createObject b host =>
    simp only [step, createObject, Option.ite_none_left_eq_some, Option.some.injEq] at hstep
    rw [← hstep.2, hput b _ hstep.1]
  | registerObject b host =>
    simp only [step, registerObject, Option.ite_none_left_eq_some, Option.some.injEq] at hstep
    rw [← hstep.2, hput b _ hstep.1]
  | referenceObject b =>
    obtain rfl := Option.some.inj hstep
    exact hedit ..
  | dereferenceObject b =>
    obtain rfl := Option.some.inj hstep
    exact hedit ..
  | createHandle t b access =>
    obtain rfl := Option.some.inj hstep
    unfold createHandle
    split
    · exact hedit ..
    · rfl
  | closeHandle t h =>
    obtain rfl := Option.some.inj hstep
    unfold closeHandle
    split
    · rfl
    · exact hedit ..

theorem host_run (hrun : Leads s calls s') (ha : hasObject s a) :
    (s'.objects a).map (·.host) = (s.objects a).map (·.host) := by
  induction hrun with
  | nil => rfl
  | @cons s s₁ s₂ call calls _ hstep _ ih =>
    have hhost := host_step hstep ha
    have hstill : hasObject s₁ a := by
      rw [hasObject, ← Option.isSome_map, hhost, Option.isSome_map]
      exact ha
    exact (ih hstill).trans hhost

theorem Inv.run (hI : Inv n s) (hrun : Leads s calls s') (hroom : ∀ t, n t + (handedOut t s calls).length ≤ 2 ^ 62) :
    Inv (fun t => n t + (handedOut t s calls).length) s' := by
  induction hrun generalizing n with
  | nil => exact hI
  | @cons s s₁ s₂ call calls _ hstep rest ih =>
    simp only [handedOut_cons hstep, List.length_append, ← Nat.add_assoc] at hroom ⊢
    exact ih (hI.step hstep fun t => (Nat.le_add_right ..).trans (hroom t)) hroom

theorem length_handedOut_le (t : Nat) (s : State Host) (calls : List (Call Host)) :
    (handedOut t s calls).length ≤ calls.length := by
  induction calls generalizing s with
  | nil => exact le_rfl
  | cons call calls ih =>
    have hone : (handsOut s t call).length ≤ 1 := by
      unfold handsOut
      split
      · split <;> simp
      · simp
    have hrest : ((step s call).elim [] fun s' => handedOut t s' calls).length ≤ calls.length := by
      cases step s call with
      | none => exact Nat.zero_le _
      | some s' => exact ih s'
    rw [handedOut, List.length_append, List.length_cons]
    omega

theorem handedOut_append {s₁ : State Host} (hrun : Leads s calls s₁) (t : Nat) (more : List (Call Host)) :
    handedOut t s (calls ++ more) = handedOut t s calls ++ handedOut t s₁ more := by
  induction hrun with
  | nil => rfl
  | cons _ hstep _ ih => rw [List.cons_append, handedOut_cons hstep, handedOut_cons hstep, ih, List.append_assoc]

/-- **The books of a run agree as long as no table hands out more than `2 ^ 62` handles.** -/
theorem handles_accounted {calls : List (Call Host)} {s : State Host} (hrun : Leads {} calls s)
    (hroom : ∀ t, (handedOut t {} calls).length ≤ 2 ^ 62) : Accounted calls s := by
  have hroom₀ : ∀ t, 0 + (handedOut t {} calls).length ≤ 2 ^ 62 := by simpa using hroom
  have hI := Inv.init.run hrun hroom₀
  refine ⟨fun a object hdr hobject hhdr => ?_, ?_, fun t => ?_⟩
  · refine hI.counted a hdr ?_
    rw [State.header, hobject]
    exact hhdr
  · rintro done t a access more before rfl hdone ha
    obtain ⟨s₁, hdone₁, hrest⟩ := hrun.of_append
    obtain rfl := hdone₁.unique hdone
    obtain ⟨⟩ | ⟨-, hstep, hmore⟩ := hrest
    have hbefore := (numbered_run numbered_init hdone).1
    have hafter := numbered_step hbefore hstep
    have hout : (handsOut s₁ t (.createHandle t a access)).length = 1 := by simp [handsOut, ha]
    have hlen := hroom₀ t
    rw [handedOut_append hdone, handedOut_cons hstep, List.length_append, List.length_append,
      ← Nat.add_assoc, ← Nat.add_assoc] at hlen
    have hopened := lookup_step hstep t (nth (0 + (handedOut t {} done).length))
    rw [State.entryAfter, if_pos ⟨ha, rfl, (hbefore t).symm⟩] at hopened
    have hyet : 0 + (handedOut t {} done).length < 0 + (handedOut t {} done).length +
        (handsOut s₁ t (.createHandle t a access)).length := by omega
    obtain ⟨hkept, hclosed⟩ := entry_run hafter hmore hyet hlen
    rw [createHandle_eq ha, hbefore t]
    constructor
    · intro hopen
      have hentry := (hkept hopen).trans hopened
      refine ⟨hentry, fun T cast => ?_⟩
      rw [getObject_eq hentry, host_run (.cons trivial hstep hmore) ha]
      cases s₁.objects a <;> rfl
    · intro hclose
      refine ⟨hclosed hclose, fun T cast => ?_⟩
      rw [getObject, hclosed hclose]
      rfl
  · rw [(numbered_run numbered_init hrun).2 t]
    refine List.Nodup.map_on (fun i hi j hj heq => ?_) List.nodup_range'
    rw [List.mem_range'_1] at hi hj
    have := hroom₀ t
    exact nth_inj (by omega) (by omega) heq

/-- An object that is open in two tables, closed in the first and opened there again. -/
def twoTables : List (Call Unit) :=
  [.createObject 0x1038 none, .createHandle 0 0x1038 1, .createHandle 7 0x1038 2, .closeHandle 0 4,
    .createHandle 0 0x1038 3]

theorem handles_accounted_twoTables : ∃ s, Accounted twoTables s ∧
    lookupHandle s 0 4 = none ∧ lookupHandle s 7 4 = some ⟨0x1038, 2⟩ ∧
    lookupHandle s 0 8 = some ⟨0x1038, 3⟩ := by
  have hrun : Leads {} twoTables _ := .cons trivial rfl (.cons trivial rfl (.cons trivial rfl
    (.cons trivial rfl (.cons trivial rfl (.nil _)))))
  have hroom : ∀ t, (handedOut t {} twoTables).length ≤ 2 ^ 62 := fun t =>
    (length_handedOut_le t {} twoTables).trans (by decide)
  exact ⟨_, handles_accounted hrun hroom, rfl, rfl, rfl⟩

def oneByOne (t a : Nat) (access : BitVec 32) (handles : List Handle) : List (Call Host) :=
  handles.flatMap fun h => [.createHandle t a access, .closeHandle t h]

/-- One object, and `n` handles of it in one table. -/
def manyHandles (n : Nat) : List (Call Unit) :=
  .createObject 0x1038 none :: oneByOne 0 0x1038 0 ((List.range n).map nth)

theorem hasObject_createHandle (ha : hasObject s a) (t : Nat) (access : BitVec 32) :
    hasObject (createHandle s t a access).2 a := by
  rw [createHandle_eq ha]
  exact (hasObject_editHeader ..).trans ha

theorem hasObject_closeHandle (s : State Host) (t : Nat) (h : Handle) (a : Nat) :
    hasObject (closeHandle s t h).2 a = hasObject s a := by
  unfold closeHandle
  split
  · rfl
  · exact hasObject_editHeader ..

theorem leads_oneByOne (ha : hasObject s a) (t : Nat) (access : BitVec 32)
    (handles : List Handle) : ∃ s', Leads s (oneByOne t a access handles) s' ∧
      (handedOut t s (oneByOne t a access handles)).length = handles.length := by
  induction handles generalizing s with
  | nil => exact ⟨s, .nil s, rfl⟩
  | cons h handles ih =>
    have hcreate : step s (.createHandle t a access) = some (createHandle s t a access).2 := rfl
    have hclose : step (createHandle s t a access).2 (.closeHandle t h) =
        some (closeHandle (createHandle s t a access).2 t h).2 := rfl
    have hstill : hasObject (closeHandle (createHandle s t a access).2 t h).2 a :=
      (hasObject_closeHandle ..).trans (hasObject_createHandle ha t access)
    obtain ⟨s', hrun, hlen⟩ := ih hstill
    refine ⟨s', .cons trivial hcreate (.cons trivial hclose hrun), ?_⟩
    rw [oneByOne, List.flatMap_cons, List.cons_append, List.cons_append, List.nil_append,
      handedOut_cons hcreate, handedOut_cons hclose, List.length_append, List.length_append,
      show (handles.flatMap _) = oneByOne t a access handles from rfl, hlen]
    simp [handsOut, ha, Nat.add_comm]

/-- A table that goes past `2 ^ 62` handles starts its numbers over, also when there is never more than one. -/
theorem not_accounted_manyHandles {n : Nat} (hn : 2 ^ 62 < n) :
    ∃ s, Leads {} (manyHandles n) s ∧ ¬ Accounted (manyHandles n) s := by
  have hstep : step ({} : State Unit) (.createObject 0x1038 none) =
      some (({} : State Unit).putObject 0x1038 ⟨some ⟨1, 0⟩, none⟩) := rfl
  obtain ⟨s, hrun, hlen⟩ := leads_oneByOne
    (show hasObject (({} : State Unit).putObject 0x1038 ⟨some ⟨1, 0⟩, none⟩) 0x1038 from rfl) 0 0
    ((List.range n).map nth)
  have hall : Leads {} (manyHandles n) s := .cons trivial hstep hrun
  refine ⟨s, hall, fun hacc => ?_⟩
  have hmany : (handedOut 0 {} (manyHandles n)).length = n := by
    rw [manyHandles, handedOut_cons hstep, List.length_append, hlen, List.length_map, List.length_range]
    exact Nat.zero_add n
  have hdistinct := hacc.distinct 0
  rw [(numbered_run numbered_init hall).2 0, hmany] at hdistinct
  have hsame : 0 = 2 ^ 62 := List.inj_on_of_nodup_map hdistinct
    (List.mem_range'_1.mpr ⟨le_rfl, by omega⟩) (List.mem_range'_1.mpr ⟨Nat.zero_le _, by omega⟩)
    ((nth_eq_iff 0 (2 ^ 62)).mpr (by omega))
  omega

/-- The handle 4 is handed out again. -/
theorem handle_reused : ∃ s, Leads {} (manyHandles (2 ^ 62 + 1)) s ∧
    ¬ Accounted (manyHandles (2 ^ 62 + 1)) s :=
  not_accounted_manyHandles (Nat.lt_succ_self _)

end Kernemul.Handles
