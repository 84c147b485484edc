import Kernemul.Lib.KeyedTable
import Kernemul.Lib.Run
import Kernemul.Win.Text

/-!
# Callback objects (`ExCreateCallback`, `ExRegisterCallback`, `ExUnregisterCallback`)

A callback object keeps the functions that are registered with it, and each registration is an object of its own, by
which it is taken back. Nothing frees an object, so a registration that was taken back is marked instead.

Names and objects are as the object manager has them; guest memory does not run out, and none of the three reads what is
in it, so the bodies of the objects are left out. Other code makes objects, and names and unnames them.
-/

namespace Kernemul.ExCallbacks

open Text KeyedTable

abbrev Addr := Nat

/-- The host side of an object: `callback_host`, `callback_registration_host`, or one of another kind. -/
inductive Host
  | callback (allowMultiple : Bool) (registrations : List (Addr × Addr))
  | registration (callbackObjectAddr function context : Addr)
  | other
  deriving DecidableEq, Repr

def Host.callback? : Host → Option (Bool × List (Addr × Addr))
  | .callback allowMultiple registrations => some (allowMultiple, registrations)
  | _ => none

def Host.registration? : Host → Option (Addr × Addr × Addr)
  | .registration callbackObjectAddr function context => some (callbackObjectAddr, function, context)
  | _ => none

structure State where
  /-- `objects_`, the newest first. -/
  objects : List (Addr × Host) := []
  /-- `named_`; zero where there is no such name. -/
  named : Str → Addr := fun _ => 0

namespace State
variable (s : State)

/-- `objs.get_object<callback_host>(addr)`. -/
def callback? (addr : Addr) : Option (Bool × List (Addr × Addr)) := (s.objects.lookup addr).bind Host.callback?

/-- `objs.get_object<callback_registration_host>(addr)`. -/
def registration? (addr : Addr) : Option (Addr × Addr × Addr) :=
  (s.objects.lookup addr).bind Host.registration?

/-- `create_object`, at the body that it found room for. -/
def createObject (addr : Addr) (host : Host) : State := { s with objects := (addr, host) :: s.objects }

def setHost (addr : Addr) (host : Host) : State := { s with objects := replace s.objects addr host }

def registerNamedObject (name : Str) (addr : Addr) : State :=
  if name = [] then s else { s with named := Function.update s.named name addr }

def unregisterNamedObject (name : Str) : State := { s with named := Function.update s.named name 0 }

end State

/-- `ExCreateCallback`: the object that is written out, if there is one. -/
def exCreateCallback (s : State) (addr : Addr) (name : Str) (create allowMultiple : Bool) : Option Addr × State :=
  if name = [] ∧ ¬ create then (none, s)
  else
    let key := if name = [] then [] else objectNamespaceKey name
    let existing := if key = [] then 0 else s.named key
    if existing ≠ 0 ∧ (s.callback? existing).isSome then (some existing, s)
    else
      let s := s.createObject addr (.callback allowMultiple [])
      (some addr, s.registerNamedObject key addr)

/-- `ExRegisterCallback`: zero when there is nothing to register with, or no more room. -/
def exRegisterCallback (s : State) (addr callbackObjectAddr callbackFunction callbackContext : Addr) : Addr × State :=
  match s.callback? callbackObjectAddr with
  | none => (0, s)
  | some (allowMultiple, registrations) =>
    if registrations ≠ [] ∧ ¬ allowMultiple then (0, s)
    else
      let s := s.createObject addr (.registration callbackObjectAddr callbackFunction callbackContext)
      let registrations := registrations ++ [(callbackFunction, callbackContext)]
      (addr, s.setHost callbackObjectAddr (.callback allowMultiple registrations))

def exUnregisterCallback (s : State) (callbackRegistration : Addr) : State :=
  match s.registration? callbackRegistration with
  | none => s
  | some (objectAddr, function, context) =>
    if objectAddr = 0 then s
    else
      match s.callback? objectAddr with
      | none => s
      | some (allowMultiple, registrations) =>
        let s := s.setHost objectAddr (.callback allowMultiple (registrations.erase (function, context)))
        s.setHost callbackRegistration (.registration 0 function context)

inductive Call
  | exCreateCallback (addr : Addr) (name : Str) (create allowMultiple : Bool)
  | exRegisterCallback (addr callbackObjectAddr callbackFunction callbackContext : Addr)
  | exUnregisterCallback (callbackRegistration : Addr)
  | createOther (addr : Addr)
  | registerNamedObject (name : Str) (addr : Addr)
  | unregisterNamedObject (name : Str)

def step (s : State) : Call → Option State
  | .exCreateCallback addr name create allowMultiple => some (exCreateCallback s addr name create allowMultiple).2
  | .exRegisterCallback addr object function context => some (exRegisterCallback s addr object function context).2
  | .exUnregisterCallback registration => some (exUnregisterCallback s registration)
  | .createOther addr => some (s.createObject addr .other)
  | .registerNamedObject name addr => some (s.registerNamedObject name addr)
  | .unregisterNamedObject name => some (s.unregisterNamedObject name)

def State.Fresh (s : State) (addr : Addr) : Prop := addr ≠ 0 ∧ addr ∉ s.objects.map Prod.fst

instance (s : State) (addr : Addr) : Decidable (s.Fresh addr) := inferInstanceAs (Decidable (_ ∧ _))

def Call.Ok (s : State) : Call → Prop
  | .exCreateCallback addr _ _ _ | .exRegisterCallback addr _ _ _ | .createOther addr => s.Fresh addr
  | _ => True

/-- What a host stands for with an object, if it is of a registration there that was not taken back. -/
def Host.at? (object : Addr) : Host → Option (Addr × Addr)
  | .registration object' function context =>
    if object' = object ∧ object' ≠ 0 then some (function, context) else none
  | _ => none

/-- The registrations with an object that were not taken back, each as its function and its context. -/
def State.live (s : State) (object : Addr) : List (Addr × Addr) := s.objects.filterMap fun e => e.2.at? object

structure Books (s : State) : Prop where
  nodup : (s.objects.map Prod.fst).Nodup
  nonzero : ∀ e ∈ s.objects, e.1 ≠ 0
  registered : ∀ object allowMultiple registrations, s.callback? object = some (allowMultiple, registrations) →
    registrations.Perm (s.live object) ∧ (allowMultiple = false → registrations.length ≤ 1)
  targets : ∀ r object function context, s.registration? r = some (object, function, context) → object ≠ 0 →
    (s.callback? object).isSome

variable {s s' : State} {object addr : Addr} {allowMultiple : Bool} {registrations : List (Addr × Addr)}

theorem callback?_eq_some : s.callback? addr = some (allowMultiple, registrations) ↔
    s.objects.lookup addr = some (.callback allowMultiple registrations) := by
  constructor
  · intro h
    obtain ⟨host, hlookup, hhost⟩ := Option.bind_eq_some_iff.mp h
    rw [hlookup]
    cases host with
    | callback => exact congrArg some (by simpa [Host.callback?] using hhost)
    | registration => cases hhost
    | other => cases hhost
  · intro h
    rw [State.callback?, h]
    rfl

variable {function context : Addr}

theorem registration?_eq_some : s.registration? addr = some (object, function, context) ↔
    s.objects.lookup addr = some (.registration object function context) := by
  constructor
  · intro h
    obtain ⟨host, hlookup, hhost⟩ := Option.bind_eq_some_iff.mp h
    rw [hlookup]
    cases host with
    | registration => exact congrArg some (by simpa [Host.registration?] using hhost)
    | callback => cases hhost
    | other => cases hhost
  · intro h
    rw [State.registration?, h]
    rfl

/-! ## The objects after each change -/

theorem lookup_createObject (s : State) (addr a : Addr) (host : Host) :
    (s.createObject addr host).objects.lookup a = if a = addr then some host else s.objects.lookup a := by
  rw [State.createObject, List.lookup_cons]
  by_cases h : a = addr
  · simp [h]
  · have hbeq : (a == addr) = false := by simpa using h
    rw [hbeq, if_neg h]

theorem lookup_setHost (s : State) (addr a : Addr) (host : Host) : (s.setHost addr host).objects.lookup a =
    if a = addr then (s.objects.lookup addr).map fun _ => host else s.objects.lookup a :=
  lookup_replace s.objects addr a host

theorem keys_setHost (s : State) (addr : Addr) (host : Host) :
    (s.setHost addr host).objects.map Prod.fst = s.objects.map Prod.fst := keys_replace s.objects addr host

theorem live_createObject (s : State) (addr object : Addr) (host : Host) :
    (s.createObject addr host).live object = (host.at? object).toList ++ s.live object := by
  unfold State.live State.createObject
  rw [List.filterMap_cons]
  cases host.at? object <;> rfl

theorem live_setHost {host host' : Host} (hnodup : (s.objects.map Prod.fst).Nodup)
    (h : s.objects.lookup addr = some host) (hsame : host'.at? object = host.at? object) :
    (s.setHost addr host').live object = s.live object := filterMap_replace hnodup h hsame

theorem mem_live {p : Addr × Addr} (hnodup : (s.objects.map Prod.fst).Nodup) (h : p ∈ s.live object) :
    ∃ r, s.registration? r = some (object, p) := by
  obtain ⟨⟨r, host⟩, hmem, hat⟩ := List.mem_filterMap.mp h
  refine ⟨r, registration?_eq_some.mpr ?_⟩
  cases host with
  | registration object' function context =>
    dsimp only [Host.at?] at hat
    split at hat
    · rename_i heq
      obtain rfl := Option.some.inj hat
      exact heq.1 ▸ lookup_of_mem hnodup hmem
    · cases hat
  | callback => cases hat
  | other => cases hat

theorem notMem_of_lookup_none (h : addr ∉ s.objects.map Prod.fst) : s.objects.lookup addr = none := by
  refine List.lookup_eq_none_iff.mpr fun p hp => ?_
  have hne : addr ≠ p.1 := fun heq => h (heq ▸ List.mem_map_of_mem hp)
  simpa using hne

/-! ## Steps -/

theorem Books.congr (h : Books s) (hobjects : s'.objects = s.objects) : Books s' := by
  have hcallback : s'.callback? = s.callback? := by
    funext a
    unfold State.callback?
    rw [hobjects]
  have hregistration : s'.registration? = s.registration? := by
    funext a
    unfold State.registration?
    rw [hobjects]
  have hlive : s'.live = s.live := by
    funext a
    unfold State.live
    rw [hobjects]
  refine ⟨hobjects ▸ h.nodup, hobjects ▸ h.nonzero, ?_, ?_⟩
  · rw [hcallback, hlive]
    exact h.registered
  · rw [hcallback, hregistration]
    exact h.targets

theorem Books.live_fresh (h : Books s) (hfresh : s.Fresh addr) : s.live addr = [] := by
  refine List.eq_nil_iff_forall_not_mem.mpr fun p hp => ?_
  obtain ⟨r, hr⟩ := mem_live h.nodup hp
  have hsome := h.targets r addr p.1 p.2 hr hfresh.1
  unfold State.callback? at hsome
  rw [notMem_of_lookup_none hfresh.2] at hsome
  cases hsome

theorem callback?_createObject_of_ne {a : Addr} (hne : a ≠ addr) (host : Host) :
    (s.createObject addr host).callback? a = s.callback? a := by
  unfold State.callback?
  rw [lookup_createObject, if_neg hne]

theorem registration?_createObject_of_ne {a : Addr} (hne : a ≠ addr) (host : Host) :
    (s.createObject addr host).registration? a = s.registration? a := by
  unfold State.registration?
  rw [lookup_createObject, if_neg hne]

theorem Books.createObject {host : Host} (h : Books s) (hfresh : s.Fresh addr)
    (hcallback : ∀ allowMultiple registrations, host = .callback allowMultiple registrations → registrations = [])
    (hat : ∀ object, host.at? object = none) : Books (s.createObject addr host) := by
  have hlive : ∀ object, (s.createObject addr host).live object = s.live object := fun object => by
    rw [live_createObject, hat]
    rfl
  refine ⟨List.nodup_cons.mpr ⟨hfresh.2, h.nodup⟩, List.forall_mem_cons.mpr ⟨hfresh.1, h.nonzero⟩, ?_, ?_⟩
  · intro object allowMultiple registrations hobject
    rw [hlive]
    by_cases hne : object = addr
    · subst hne
      rw [callback?_eq_some, lookup_createObject, if_pos rfl] at hobject
      rw [hcallback _ _ (Option.some.inj hobject), h.live_fresh hfresh]
      exact ⟨List.Perm.refl _, fun _ => Nat.zero_le 1⟩
    · rw [callback?_createObject_of_ne hne] at hobject
      exact h.registered object allowMultiple registrations hobject
  · intro r object function context hr hobject
    by_cases hne : r = addr
    · subst hne
      rw [registration?_eq_some, lookup_createObject, if_pos rfl] at hr
      have hsome := hat object
      rw [Option.some.inj hr, Host.at?, if_pos ⟨rfl, hobject⟩] at hsome
      cases hsome
    · rw [registration?_createObject_of_ne hne] at hr
      have hsome := h.targets r object function context hr hobject
      by_cases heq : object = addr
      · subst heq
        unfold State.callback? at hsome
        rw [notMem_of_lookup_none hfresh.2] at hsome
        cases hsome
      · rwa [callback?_createObject_of_ne heq]

theorem callback?_setHost {host : Host} (hlookup : s.objects.lookup addr = some host) (a : Addr) (allowMultiple : Bool)
    (registrations : List (Addr × Addr)) : (s.setHost addr (.callback allowMultiple registrations)).callback? a =
      if a = addr then some (allowMultiple, registrations) else s.callback? a := by
  unfold State.callback?
  rw [lookup_setHost, hlookup]
  by_cases heq : a = addr
  · rw [if_pos heq, if_pos heq]
    rfl
  · rw [if_neg heq, if_neg heq]

theorem registration?_setHost_callback {registrations' : List (Addr × Addr)} {allowMultiple' : Bool}
    (hlookup : s.objects.lookup addr = some (.callback allowMultiple registrations)) (a : Addr) :
    (s.setHost addr (.callback allowMultiple' registrations')).registration? a = s.registration? a := by
  unfold State.registration?
  rw [lookup_setHost, hlookup]
  by_cases heq : a = addr
  · rw [if_pos heq, heq, hlookup]
    rfl
  · rw [if_neg heq]

theorem Books.ne_of_callback? (hfresh : s.Fresh addr) (h : (s.callback? object).isSome) : object ≠ addr := by
  rintro rfl
  unfold State.callback? at h
  rw [notMem_of_lookup_none hfresh.2] at h
  cases h

theorem Books.live_register (h : Books s) (hfresh : s.Fresh addr)
    (hobject : s.callback? object = some (allowMultiple, registrations)) (a : Addr)
    (registrations' : List (Addr × Addr)) :
    ((s.createObject addr (.registration object function context)).setHost object
      (.callback allowMultiple registrations')).live a =
        (if object = a then [(function, context)] else []) ++ s.live a := by
  let s₁ := s.createObject addr (.registration object function context)
  have hne : object ≠ addr := Books.ne_of_callback? hfresh (Option.isSome_iff_exists.mpr ⟨_, hobject⟩)
  have hnonzero : object ≠ 0 := h.nonzero _ (mem_of_lookup (callback?_eq_some.mp hobject))
  have hnodup : (s₁.objects.map Prod.fst).Nodup := List.nodup_cons.mpr ⟨hfresh.2, h.nodup⟩
  have hlookup : s₁.objects.lookup object = some (.callback allowMultiple registrations) := by
    rw [lookup_createObject, if_neg hne]
    exact callback?_eq_some.mp hobject
  have hsame : (Host.callback allowMultiple registrations').at? a =
      (Host.callback allowMultiple registrations).at? a := rfl
  rw [live_setHost hnodup hlookup hsame, live_createObject, Host.at?]
  by_cases heq : object = a
  · rw [if_pos ⟨heq, hnonzero⟩, if_pos heq]
    rfl
  · rw [if_neg fun hand => heq hand.1, if_neg heq]
    rfl

theorem Books.register (h : Books s) (hfresh : s.Fresh addr)
    (hobject : s.callback? object = some (allowMultiple, registrations))
    (hroom : allowMultiple = false → registrations = []) :
    Books ((s.createObject addr (.registration object function context)).setHost object
      (.callback allowMultiple (registrations ++ [(function, context)]))) := by
  let s₁ := s.createObject addr (.registration object function context)
  have hne : object ≠ addr := Books.ne_of_callback? hfresh (Option.isSome_iff_exists.mpr ⟨_, hobject⟩)
  have hnodup : (s₁.objects.map Prod.fst).Nodup := List.nodup_cons.mpr ⟨hfresh.2, h.nodup⟩
  have hlookup : s₁.objects.lookup object = some (.callback allowMultiple registrations) := by
    rw [lookup_createObject, if_neg hne]
    exact callback?_eq_some.mp hobject
  have hlive : ∀ a, (s₁.setHost object (.callback allowMultiple (registrations ++ [(function, context)]))).live a =
      (if object = a then [(function, context)] else []) ++ s.live a := fun a => h.live_register hfresh hobject a _
  refine ⟨?_, ?_, ?_, ?_⟩
  · rw [keys_setHost]
    exact hnodup
  · intro e he
    have hkey : e.1 ∈ s₁.objects.map Prod.fst := keys_setHost s₁ object _ ▸ List.mem_map_of_mem he
    rcases List.mem_cons.mp hkey with heq | hold
    · exact heq ▸ hfresh.1
    · obtain ⟨e', he', heq⟩ := List.mem_map.mp hold
      exact heq ▸ h.nonzero e' he'
  · intro a allowMultiple' registrations' ha
    rw [callback?_setHost hlookup] at ha
    rw [hlive]
    split at ha
    · rename_i heq
      subst heq
      obtain ⟨rfl, rfl⟩ := Prod.mk.inj (Option.some.inj ha)
      rw [if_pos rfl]
      refine ⟨?_, fun hsingle => ?_⟩
      · exact List.perm_append_comm.trans (((h.registered a _ _ hobject).1).append_left _)
      · rw [hroom hsingle]
        exact Nat.le_refl 1
    · rename_i hother
      rw [if_neg (Ne.symm hother)]
      by_cases haddr : a = addr
      · subst haddr
        rw [callback?_eq_some, lookup_createObject, if_pos rfl] at ha
        cases ha
      · rw [callback?_createObject_of_ne haddr] at ha
        exact h.registered a allowMultiple' registrations' ha
  · intro r a function' context' hr ha
    rw [registration?_setHost_callback hlookup] at hr
    rw [callback?_setHost hlookup]
    split
    · rfl
    · rename_i hother
      by_cases hraddr : r = addr
      · subst hraddr
        rw [registration?_eq_some, lookup_createObject, if_pos rfl] at hr
        exact absurd (Host.registration.inj (Option.some.inj hr)).1.symm hother
      · rw [registration?_createObject_of_ne hraddr] at hr
        have hsome := h.targets r a function' context' hr ha
        have haddr : a ≠ addr := by
          rintro rfl
          unfold State.callback? at hsome
          rw [notMem_of_lookup_none hfresh.2] at hsome
          cases hsome
        rwa [callback?_createObject_of_ne haddr]

theorem Books.exUnregisterCallback_eq {r : Addr} (h : Books s)
    (hr : s.registration? r = some (object, function, context)) (hobject : object ≠ 0) :
    ∃ allowMultiple registrations, s.callback? object = some (allowMultiple, registrations) ∧
      exUnregisterCallback s r =
        (s.setHost object (.callback allowMultiple (registrations.erase (function, context)))).setHost r
          (.registration 0 function context) := by
  obtain ⟨⟨allowMultiple, registrations⟩, hcallback⟩ :=
    Option.isSome_iff_exists.mp (h.targets r object function context hr hobject)
  refine ⟨allowMultiple, registrations, hcallback, ?_⟩
  unfold exUnregisterCallback
  rw [hr]
  dsimp only
  rw [if_neg hobject, hcallback]

structure TakesBack (s s' : State) (r object function context : Addr) : Prop where
  books : Books s'
  one : (s.live object).Perm ((function, context) :: s'.live object)
  others : ∀ a, a ≠ object → s'.live a = s.live a
  spent : s'.registration? r = some (0, function, context)

theorem Books.unregister {r : Addr} (h : Books s)
    (hr : s.registration? r = some (object, function, context)) (hobject : object ≠ 0) :
    TakesBack s (exUnregisterCallback s r) r object function context := by
  obtain ⟨allowMultiple, registrations, hcallback, heq⟩ := h.exUnregisterCallback_eq hr hobject
  rw [heq]
  let s₁ := s.setHost object (.callback allowMultiple (registrations.erase (function, context)))
  let s₂ := s₁.setHost r (.registration 0 function context)
  have hlookup := callback?_eq_some.mp hcallback
  have hlookupr := registration?_eq_some.mp hr
  have hne : r ≠ object := by
    rintro rfl
    rw [hlookup] at hlookupr
    cases hlookupr
  have hnodup : (s₁.objects.map Prod.fst).Nodup := by
    rw [keys_setHost]
    exact h.nodup
  have hlookup₁ : s₁.objects.lookup r = some (.registration object function context) := by
    rw [lookup_setHost, if_neg hne]
    exact hlookupr
  have hlive₁ : ∀ a, s₁.live a = s.live a := fun a =>
    live_setHost h.nodup hlookup (show Host.at? a (.callback _ _) = Host.at? a (.callback _ _) from rfl)
  have hspent : ∀ a, (Host.registration 0 function context).at? a = none := fun a => if_neg fun hand => hand.2 rfl
  have hone : (s.live object).Perm ((function, context) :: s₂.live object) := by
    rw [← hlive₁]
    exact perm_filterMap_replace hnodup hlookup₁ (if_pos ⟨rfl, hobject⟩) (hspent object)
  have hothers : ∀ a, a ≠ object → s₂.live a = s.live a := by
    intro a ha
    rw [← hlive₁]
    have hnone : (Host.registration object function context).at? a = none := if_neg fun hand => ha hand.1.symm
    exact live_setHost hnodup hlookup₁ ((hspent a).trans hnone.symm)
  have hcallback₂ : ∀ a, s₂.callback? a =
      if a = object then some (allowMultiple, registrations.erase (function, context)) else s.callback? a := by
    intro a
    rw [← callback?_setHost hlookup]
    unfold State.callback?
    rw [lookup_setHost, hlookup₁]
    by_cases ha : a = r
    · rw [if_pos ha, ha, hlookup₁]
      rfl
    · rw [if_neg ha]
  refine ⟨⟨?_, ?_, ?_, ?_⟩, hone, hothers, ?_⟩
  · rw [keys_setHost]
    exact hnodup
  · intro e he
    have hkey : e.1 ∈ s.objects.map Prod.fst := by
      rw [← keys_setHost s object, ← keys_setHost s₁ r]
      exact List.mem_map_of_mem he
    obtain ⟨e', he', heq⟩ := List.mem_map.mp hkey
    exact heq ▸ h.nonzero e' he'
  · intro a allowMultiple' registrations' ha
    rw [hcallback₂] at ha
    split at ha
    · rename_i heq
      subst heq
      obtain ⟨rfl, rfl⟩ := Prod.mk.inj (Option.some.inj ha)
      obtain ⟨hperm, hsingle⟩ := h.registered a _ _ hcallback
      refine ⟨?_, fun hfalse => (List.erase_sublist.length_le).trans (hsingle hfalse)⟩
      have herase := (hperm.trans hone).erase (function, context)
      rwa [List.erase_cons_head] at herase
    · rename_i hother
      rw [hothers a hother]
      exact h.registered a allowMultiple' registrations' ha
  · intro r' a function' context' hr' ha
    rw [hcallback₂]
    split
    · rfl
    · by_cases hrr : r' = r
      · subst hrr
        rw [registration?_eq_some, lookup_setHost, if_pos rfl, hlookup₁] at hr'
        exact absurd (Host.registration.inj (Option.some.inj hr')).1.symm ha
      · have hold : s.registration? r' = some (a, function', context') := by
          rw [← registration?_setHost_callback hlookup]
          unfold State.registration? at hr' ⊢
          rwa [lookup_setHost, if_neg hrr] at hr'
        exact h.targets r' a function' context' hold ha
  · rw [registration?_eq_some, lookup_setHost, if_pos rfl, hlookup₁]
    rfl

@[simp] theorem objects_registerNamedObject (s : State) (name : Str) (a : Addr) :
    (s.registerNamedObject name a).objects = s.objects := by
  unfold State.registerNamedObject
  split <;> rfl

/-- What `ExCreateCallback` makes, when it makes an object. -/
def created (s : State) (addr : Addr) (key : Str) (allowMultiple : Bool) : State :=
  (s.createObject addr (.callback allowMultiple [])).registerNamedObject key addr

theorem exCreateCallback_cases (s : State) (addr : Addr) (name : Str) (create allowMultiple : Bool) :
    let key := if name = [] then [] else objectNamespaceKey name
    exCreateCallback s addr name create allowMultiple = (none, s) ∧ name = [] ∨
      exCreateCallback s addr name create allowMultiple = (some (s.named key), s) ∧ key ≠ [] ∧ s.named key ≠ 0 ∧
        (s.callback? (s.named key)).isSome ∨
      exCreateCallback s addr name create allowMultiple = (some addr, created s addr key allowMultiple) ∧
        (key ≠ [] → ¬ (s.named key ≠ 0 ∧ (s.callback? (s.named key)).isSome)) := by
  intro key
  by_cases hnone : name = [] ∧ ¬ create
  · exact .inl ⟨if_pos hnone, hnone.1⟩
  · right
    have hunfold : exCreateCallback s addr name create allowMultiple =
        if (if key = [] then 0 else s.named key) ≠ 0 ∧ (s.callback? (if key = [] then 0 else s.named key)).isSome then
          (some (if key = [] then 0 else s.named key), s)
        else (some addr, created s addr key allowMultiple) := if_neg hnone
    rw [hunfold]
    by_cases hkey : key = []
    · right
      rw [if_pos hkey, if_neg fun h => h.1 rfl]
      exact ⟨rfl, fun hne => absurd hkey hne⟩
    · rw [if_neg hkey]
      by_cases hexisting : s.named key ≠ 0 ∧ (s.callback? (s.named key)).isSome
      · exact .inl ⟨if_pos hexisting, hkey, hexisting⟩
      · exact .inr ⟨if_neg hexisting, fun _ => hexisting⟩

theorem created_objects (s : State) (addr : Addr) (key : Str) (allowMultiple : Bool) :
    (created s addr key allowMultiple).objects = (s.createObject addr (.callback allowMultiple [])).objects :=
  objects_registerNamedObject _ key addr

theorem Books.created (h : Books s) (hfresh : s.Fresh addr) (key : Str) (allowMultiple : Bool) :
    Books (created s addr key allowMultiple) := by
  refine Books.congr (h.createObject hfresh ?_ fun _ => rfl) (created_objects s addr key allowMultiple)
  intro allowMultiple' registrations heq
  exact (Host.callback.inj heq).2.symm

/-- `ExRegisterCallback` does nothing, or registers with an object that has room. -/
theorem exRegisterCallback_cases (s : State) (addr object function context : Addr) :
    exRegisterCallback s addr object function context = (0, s) ∧
      (∀ allowMultiple registrations, s.callback? object = some (allowMultiple, registrations) →
        registrations ≠ [] ∧ allowMultiple = false) ∨
    ∃ allowMultiple registrations, s.callback? object = some (allowMultiple, registrations) ∧
      (allowMultiple = false → registrations = []) ∧
      exRegisterCallback s addr object function context =
        (addr, (s.createObject addr (.registration object function context)).setHost object
          (.callback allowMultiple (registrations ++ [(function, context)]))) := by
  unfold exRegisterCallback
  cases hcallback : s.callback? object with
  | none => exact .inl ⟨rfl, fun _ _ => nofun⟩
  | some host =>
    obtain ⟨allowMultiple, registrations⟩ := host
    dsimp only
    by_cases hfull : registrations ≠ [] ∧ ¬ allowMultiple
    · left
      rw [if_pos hfull]
      refine ⟨rfl, ?_⟩
      rintro allowMultiple' registrations' ⟨⟩
      exact ⟨hfull.1, by simpa using hfull.2⟩
    · right
      rw [if_neg hfull]
      refine ⟨allowMultiple, registrations, rfl, fun hfalse => ?_, rfl⟩
      by_contra hne
      exact hfull ⟨hne, by simp [hfalse]⟩

/-- `ExUnregisterCallback` takes back a registration that is there, or does nothing. -/
theorem exUnregisterCallback_cases (s : State) (r : Addr) :
    (exUnregisterCallback s r = s ∧ ∀ object function context,
      s.registration? r = some (object, function, context) → object = 0) ∨
    ∃ object function context, s.registration? r = some (object, function, context) ∧ object ≠ 0 := by
  cases hr : s.registration? r with
  | none =>
    refine .inl ⟨?_, fun _ _ _ => nofun⟩
    unfold exUnregisterCallback
    rw [hr]
  | some host =>
    obtain ⟨object, function, context⟩ := host
    by_cases hobject : object = 0
    · refine .inl ⟨?_, ?_⟩
      · unfold exUnregisterCallback
        rw [hr]
        exact if_pos hobject
      · rintro object' function' context' ⟨⟩
        exact hobject
    · exact .inr ⟨object, function, context, rfl, hobject⟩

theorem Books.step {c : Call} (h : Books s) (hok : c.Ok s) (hstep : step s c = some s') : Books s' := by
  cases c with
  | exCreateCallback addr name create allowMultiple =>
    obtain rfl := Option.some.inj hstep
    obtain ⟨heq, -⟩ | ⟨heq, -⟩ | ⟨heq, -⟩ := exCreateCallback_cases s addr name create allowMultiple
    · rw [heq]
      exact h
    · rw [heq]
      exact h
    · rw [heq]
      exact h.created hok _ allowMultiple
  | exRegisterCallback addr object function context =>
    obtain rfl := Option.some.inj hstep
    obtain ⟨heq, -⟩ | ⟨allowMultiple, registrations, hobject, hroom, heq⟩ :=
      exRegisterCallback_cases s addr object function context
    · rw [heq]
      exact h
    · rw [heq]
      exact h.register hok hobject hroom
  | exUnregisterCallback r =>
    obtain rfl := Option.some.inj hstep
    obtain ⟨heq, -⟩ | ⟨object, function, context, hr, hobject⟩ := exUnregisterCallback_cases s r
    · rw [heq]
      exact h
    · exact (h.unregister hr hobject).books
  | createOther addr =>
    obtain rfl := Option.some.inj hstep
    exact h.createObject hok (fun _ _ => nofun) fun _ => rfl
  | registerNamedObject name addr =>
    obtain rfl := Option.some.inj hstep
    exact h.congr (objects_registerNamedObject s name addr)
  | unregisterNamedObject name =>
    obtain rfl := Option.some.inj hstep
    exact h.congr rfl

theorem Books.init : Books {} := ⟨List.nodup_nil, fun _ => nofun, fun _ _ _ => nofun, fun _ _ _ _ => nofun⟩

/-! ## Names -/

def State.Holds (s : State) (key : Str) (object : Addr) : Prop :=
  s.named key = object ∧ object ≠ 0 ∧ (s.callback? object).isSome

/-- Other code that gives the name to another object, or takes it away. -/
def Call.Renames (key : Str) : Call → Prop
  | .registerNamedObject name _ | .unregisterNamedObject name => name = key
  | _ => False

theorem named_registerNamedObject_of_ne {key name : Str} (hne : key ≠ name) (s : State) (a : Addr) :
    (s.registerNamedObject name a).named key = s.named key := by
  unfold State.registerNamedObject
  split
  · rfl
  · exact Function.update_of_ne hne a s.named

theorem State.Holds.created {key key' : Str} (h : s.Holds key object) (hfresh : s.Fresh addr)
    (hexisting : key' ≠ [] → ¬ (s.named key' ≠ 0 ∧ (s.callback? (s.named key')).isSome)) (allowMultiple : Bool) :
    (created s addr key' allowMultiple).Holds key object := by
  obtain ⟨hnamed, hnonzero, hsome⟩ := h
  refine ⟨?_, hnonzero, ?_⟩
  · by_cases hkey : key' = []
    · rw [ExCallbacks.created, State.registerNamedObject, if_pos hkey]
      exact hnamed
    · have hne : key ≠ key' := by
        rintro rfl
        exact hexisting hkey (by rw [hnamed]; exact ⟨hnonzero, hsome⟩)
      rw [ExCallbacks.created, named_registerNamedObject_of_ne hne]
      exact hnamed
  · unfold State.callback?
    rw [created_objects]
    have hne := Books.ne_of_callback? hfresh hsome
    rw [← callback?_createObject_of_ne hne] at hsome
    exact hsome

theorem State.Holds.step {key : Str} {c : Call} (h : s.Holds key object) (hbooks : Books s) (hok : c.Ok s)
    (hkeeps : ¬ c.Renames key) (hstep : step s c = some s') : s'.Holds key object := by
  have hsome := h.2.2
  cases c with
  | exCreateCallback addr name create allowMultiple =>
    obtain rfl := Option.some.inj hstep
    obtain ⟨heq, -⟩ | ⟨heq, -⟩ | ⟨heq, hexisting⟩ := exCreateCallback_cases s addr name create allowMultiple
    · rw [heq]
      exact h
    · rw [heq]
      exact h
    · rw [heq]
      exact h.created hok hexisting allowMultiple
  | exRegisterCallback addr target function context =>
    obtain rfl := Option.some.inj hstep
    obtain ⟨heq, -⟩ | ⟨allowMultiple, registrations, htarget, -, heq⟩ :=
      exRegisterCallback_cases s addr target function context
    · rw [heq]
      exact h
    · rw [heq]
      have hlookup : (s.createObject addr (.registration target function context)).objects.lookup target =
          some (.callback allowMultiple registrations) := by
        rw [lookup_createObject, if_neg (Books.ne_of_callback? hok (by rw [htarget]; rfl))]
        exact callback?_eq_some.mp htarget
      refine ⟨h.1, h.2.1, ?_⟩
      rw [callback?_setHost hlookup]
      split
      · rfl
      · rwa [callback?_createObject_of_ne (Books.ne_of_callback? hok hsome)]
  | exUnregisterCallback r =>
    obtain rfl := Option.some.inj hstep
    obtain ⟨heq, -⟩ | ⟨target, function, context, hr, htarget⟩ := exUnregisterCallback_cases s r
    · rw [heq]
      exact h
    · obtain ⟨allowMultiple, registrations, hcallback, heq⟩ := hbooks.exUnregisterCallback_eq hr htarget
      rw [heq]
      refine ⟨h.1, h.2.1, ?_⟩
      have hne : object ≠ r := by
        rintro rfl
        obtain ⟨⟨_, _⟩, hobject⟩ := Option.isSome_iff_exists.mp hsome
        have hboth := (callback?_eq_some.mp hobject).symm.trans (registration?_eq_some.mp hr)
        cases hboth
      have hkept := callback?_setHost (callback?_eq_some.mp hcallback) object allowMultiple
        (registrations.erase (function, context))
      unfold State.callback? at hkept ⊢
      rw [lookup_setHost, if_neg hne, hkept]
      split
      · rfl
      · exact hsome
  | createOther addr =>
    obtain rfl := Option.some.inj hstep
    refine ⟨h.1, h.2.1, ?_⟩
    rwa [callback?_createObject_of_ne (Books.ne_of_callback? hok hsome)]
  | registerNamedObject name a =>
    obtain rfl := Option.some.inj hstep
    refine ⟨?_, h.2.1, ?_⟩
    · rw [named_registerNamedObject_of_ne (Ne.symm hkeeps)]
      exact h.1
    · unfold State.callback?
      rw [objects_registerNamedObject]
      exact hsome
  | unregisterNamedObject name =>
    obtain rfl := Option.some.inj hstep
    refine ⟨?_, h.2.1, hsome⟩
    exact (Function.update_of_ne (Ne.symm hkeeps) 0 s.named).trans h.1

/-- What `ExCreateCallback` writes out under a name is what the name stands for then. -/
theorem holds_exCreateCallback {name : Str} {create : Bool} (hname : name ≠ []) (hkey : objectNamespaceKey name ≠ [])
    (haddr : addr ≠ 0) (h : exCreateCallback s addr name create allowMultiple = (some object, s')) :
    s'.Holds (objectNamespaceKey name) object := by
  obtain ⟨-, hnil⟩ | ⟨heq, -, hnonzero, hsome⟩ | ⟨heq, -⟩ := exCreateCallback_cases s addr name create allowMultiple
  · exact absurd hnil hname
  · rw [if_neg hname] at heq hnonzero hsome
    obtain ⟨hobject, rfl⟩ := Prod.mk.inj (heq.symm.trans h)
    obtain rfl := Option.some.inj hobject
    exact ⟨rfl, hnonzero, hsome⟩
  · rw [if_neg hname] at heq
    obtain ⟨hobject, rfl⟩ := Prod.mk.inj (heq.symm.trans h)
    obtain rfl := Option.some.inj hobject
    refine ⟨?_, haddr, ?_⟩
    · rw [created, State.registerNamedObject, if_neg hkey]
      exact Function.update_self (objectNamespaceKey name) _ _
    · unfold State.callback?
      rw [created_objects, lookup_createObject, if_pos rfl]
      rfl

theorem State.Holds.opens {name : Str} (hname : name ≠ []) (hkey : objectNamespaceKey name ≠ [])
    (h : s.Holds (objectNamespaceKey name) object) (addr : Addr) (create allowMultiple : Bool) :
    exCreateCallback s addr name create allowMultiple = (some object, s) := by
  obtain ⟨hnamed, hnonzero, hsome⟩ := h
  unfold exCreateCallback
  rw [if_neg fun hand => hname hand.1]
  dsimp only
  rw [if_neg hname, if_neg hkey, hnamed, if_pos ⟨hnonzero, hsome⟩]

/-! ## Whole runs -/

structure Registers (s s' : State) (addr object function context : Addr) : Prop where
  one : s'.live object = (function, context) :: s.live object
  others : ∀ a, a ≠ object → s'.live a = s.live a
  recorded : s'.registration? addr = some (object, function, context)
  kept : ∀ r, r ≠ addr → s'.registration? r = s.registration? r

theorem Books.registers (h : Books s) (hfresh : s.Fresh addr)
    (hadmitted : (exRegisterCallback s addr object function context).1 ≠ 0) :
    Registers s (exRegisterCallback s addr object function context).2 addr object function context := by
  obtain ⟨heq, -⟩ | ⟨allowMultiple, registrations, hobject, -, heq⟩ :=
    exRegisterCallback_cases s addr object function context
  · rw [heq] at hadmitted
    exact absurd rfl hadmitted
  · have hne : object ≠ addr := Books.ne_of_callback? hfresh (Option.isSome_iff_exists.mpr ⟨_, hobject⟩)
    have hlookup : (s.createObject addr (.registration object function context)).objects.lookup object =
        some (.callback allowMultiple registrations) := by
      rw [lookup_createObject, if_neg hne]
      exact callback?_eq_some.mp hobject
    rw [heq]
    refine ⟨?_, fun a ha => ?_, ?_, fun r hr => ?_⟩
    · rw [h.live_register hfresh hobject, if_pos rfl]
      rfl
    · rw [h.live_register hfresh hobject, if_neg (Ne.symm ha)]
      rfl
    · rw [registration?_setHost_callback hlookup, registration?_eq_some, lookup_createObject, if_pos rfl]
    · rw [registration?_setHost_callback hlookup, registration?_createObject_of_ne hr]

/-- What the three calls do in a state: an object keeps the registrations with it that were not taken back, one at most
if it allows one only, each is taken back once, and a name keeps its object. -/
structure Accounted (s : State) : Prop where
  registered : ∀ object allowMultiple registrations, s.callback? object = some (allowMultiple, registrations) →
    registrations.Perm (s.live object) ∧ (allowMultiple = false → (s.live object).length ≤ 1)
  admits : ∀ addr object function context, s.Fresh addr →
    ((exRegisterCallback s addr object function context).1 ≠ 0 ↔ ∃ allowMultiple registrations,
      s.callback? object = some (allowMultiple, registrations) ∧ (allowMultiple = true ∨ s.live object = []))
  registers : ∀ addr object function context, s.Fresh addr →
    (exRegisterCallback s addr object function context).1 ≠ 0 →
    Registers s (exRegisterCallback s addr object function context).2 addr object function context
  refuses : ∀ addr object function context, addr ≠ 0 → (exRegisterCallback s addr object function context).1 = 0 →
    (exRegisterCallback s addr object function context).2 = s
  takesBack : ∀ r object function context, s.registration? r = some (object, function, context) → object ≠ 0 →
    TakesBack s (exUnregisterCallback s r) r object function context
  twice : ∀ r, exUnregisterCallback (exUnregisterCallback s r) r = exUnregisterCallback s r
  reopens : ∀ addr name create allowMultiple object s', s.Fresh addr → name ≠ [] → objectNamespaceKey name ≠ [] →
    exCreateCallback s addr name create allowMultiple = (some object, s') → ∀ calls s'',
    Run.Steps step (fun s c => c.Ok s ∧ ¬ c.Renames (objectNamespaceKey name)) s' calls s'' →
    ∀ addr' create' allowMultiple',
      exCreateCallback s'' addr' name create' allowMultiple' = (some object, s'')

theorem Books.admits (h : Books s) (hfresh : s.Fresh addr) :
    (exRegisterCallback s addr object function context).1 ≠ 0 ↔ ∃ allowMultiple registrations,
      s.callback? object = some (allowMultiple, registrations) ∧ (allowMultiple = true ∨ s.live object = []) := by
  obtain ⟨heq, hfull⟩ | ⟨allowMultiple, registrations, hobject, hroom, heq⟩ :=
    exRegisterCallback_cases s addr object function context
  · rw [heq]
    refine ⟨fun hne => absurd rfl hne, ?_⟩
    rintro ⟨allowMultiple, registrations, hobject, hroom⟩
    obtain ⟨hne, hfalse⟩ := hfull allowMultiple registrations hobject
    rcases hroom with htrue | hlive
    · rw [hfalse] at htrue
      cases htrue
    · have hperm := (h.registered object allowMultiple registrations hobject).1
      rw [hlive] at hperm
      exact absurd hperm.eq_nil hne
  · rw [heq]
    refine ⟨fun _ => ⟨allowMultiple, registrations, hobject, ?_⟩, fun _ => hfresh.1⟩
    cases allowMultiple with
    | true => exact .inl rfl
    | false =>
      have hperm := (h.registered object false registrations hobject).1
      rw [hroom rfl] at hperm
      exact .inr hperm.symm.eq_nil

theorem exRegisterCallback_refused (haddr : addr ≠ 0)
    (hrefused : (exRegisterCallback s addr object function context).1 = 0) :
    (exRegisterCallback s addr object function context).2 = s := by
  obtain ⟨heq, -⟩ | ⟨_, _, -, -, heq⟩ := exRegisterCallback_cases s addr object function context
  · rw [heq]
  · rw [heq] at hrefused
    exact absurd hrefused haddr

theorem Books.twice (h : Books s) (r : Addr) :
    exUnregisterCallback (exUnregisterCallback s r) r = exUnregisterCallback s r := by
  obtain ⟨heq, -⟩ | ⟨object, function, context, hr, hobject⟩ := exUnregisterCallback_cases s r
  · rw [heq, heq]
  · have hspent := (h.unregister hr hobject).spent
    generalize exUnregisterCallback s r = s' at hspent ⊢
    unfold exUnregisterCallback
    rw [hspent]
    exact if_pos rfl

theorem Books.reopens {name : Str} {create : Bool} (h : Books s) (hfresh : s.Fresh addr) (hname : name ≠ [])
    (hkey : objectNamespaceKey name ≠ [])
    (hopen : exCreateCallback s addr name create allowMultiple = (some object, s')) {calls : List Call} {s'' : State}
    (hrun : Run.Steps ExCallbacks.step (fun s c => c.Ok s ∧ ¬ c.Renames (objectNamespaceKey name)) s' calls s'')
    (addr' : Addr) (create' allowMultiple' : Bool) :
    exCreateCallback s'' addr' name create' allowMultiple' = (some object, s'') := by
  have hbooks : Books s' := by
    refine Books.step (c := .exCreateCallback addr name create allowMultiple) h hfresh ?_
    exact congrArg (fun p => some p.2) hopen
  have hboth := hrun.invariant (P := fun s => Books s ∧ s.Holds (objectNamespaceKey name) object)
    (fun _ _ _ hP hok hstep => ⟨hP.1.step hok.1 hstep, hP.2.step hP.1 hok.1 hok.2 hstep⟩)
    ⟨hbooks, holds_exCreateCallback hname hkey hfresh.1 hopen⟩
  exact hboth.2.opens hname hkey addr' create' allowMultiple'

/-- In every run, each callback object has exactly the registrations that were not taken back. -/
theorem accounted {calls : List Call} (h : Run.Steps step (fun s c => c.Ok s) {} calls s) : Accounted s := by
  have hbooks : Books s := h.invariant (fun _ _ _ hP hok hstep => hP.step hok hstep) Books.init
  refine ⟨?_, fun _ _ _ _ hfresh => hbooks.admits hfresh, fun _ _ _ _ hfresh => hbooks.registers hfresh,
    fun _ _ _ _ => exRegisterCallback_refused, fun _ _ _ _ => hbooks.unregister, hbooks.twice, ?_⟩
  · intro object allowMultiple registrations hobject
    obtain ⟨hperm, hsingle⟩ := hbooks.registered object allowMultiple registrations hobject
    exact ⟨hperm, fun hfalse => hperm.length_eq ▸ hsingle hfalse⟩
  · intro addr name create allowMultiple object s' hfresh hname hkey hopen calls s'' hrun
    exact hbooks.reopens hfresh hname hkey hopen hrun

instance (s : State) : ∀ c : Call, Decidable (c.Ok s)
  | .exCreateCallback addr _ _ _ | .exRegisterCallback addr _ _ _ | .createOther addr =>
    inferInstanceAs (Decidable (s.Fresh addr))
  | .exUnregisterCallback _ | .registerNamedObject _ _ | .unregisterNamedObject _ => isTrue trivial

/-- Two drivers that share an object, one of which takes its registration back twice. -/
def shares : List Call :=
  [.exCreateCallback 0x10 (ascii ['\\', 'C']) true true, .exRegisterCallback 0x20 0x10 0x7 0x1,
    .exCreateCallback 0x30 (ascii ['\\', 'c']) false false, .exRegisterCallback 0x40 0x10 0x7 0x1,
    .exUnregisterCallback 0x20, .exUnregisterCallback 0x20]

theorem shares_accounted : ∃ s, Run.Steps step (fun s c => c.Ok s) {} shares s ∧
    s.callback? 0x10 = some (true, [(0x7, 0x1)]) ∧ Accounted s := by
  have hexec : (Run.exec step (fun s c => decide (c.Ok s)) {} shares).map (fun s => s.callback? 0x10) =
      some (some (true, [(0x7, 0x1)])) := by decide +kernel
  obtain ⟨s, hs, hobject⟩ := Option.map_eq_some_iff.mp hexec
  have hrun : Run.Steps step (fun s c => c.Ok s) {} shares s := Run.Steps.of_exec (fun _ _ => of_decide_eq_true) hs
  exact ⟨s, hrun, hobject, accounted hrun⟩

end Kernemul.ExCallbacks
