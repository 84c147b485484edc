import Kernemul.Emu.Defs
import Kernemul.Lib.LinkedList
import Kernemul.Lib.Run
import Kernemul.Win.Text

/-!
# Devices and their names

A driver's devices are linked from its driver object through guest memory (`create_device_object`,
`IoDeleteDevice`). Named ones are in the object namespace as well, which symbolic links share with them
(`register_device`, `register_device_link`, `unregister_device_name`). The host object of a device stays when the
device is deleted, so that a device can be deleted again.

Driver objects and device objects do not overlap in memory, and nothing else writes their links. Calls end without a
result when guest memory runs out. `live` is what has been created and not deleted.
-/

namespace Kernemul.DeviceNames

open Text LinkedList

abbrev Addr := Nat

inductive Host
  | device (driverObject : Addr) (name : Str)
  | symbolicLink (target : Str)
  | other
  deriving DecidableEq, Repr

structure State where
  kernelNext : Addr
  physLeft : Nat
  hosts : Addr → Option Host
  /-- `named_`; zero where there is no such name. -/
  named : Str → Addr
  /-- `_DRIVER_OBJECT::DeviceObject` and `_DEVICE_OBJECT::NextDevice`. -/
  links : Memory Addr Addr
  live : List Addr

/-- `sizeof(_OBJECT_HEADER)`. -/
def objectHeaderSize : Nat := 0x38

/-- `sizeof(_DEVICE_OBJECT)`. -/
def deviceObjectSize : Nat := 0x150

namespace State
variable (s : State)

def createObject (bodySize : Nat) (host : Host) : Option (Addr × State) :=
  let aligned := sizeAlign (objectHeaderSize + bodySize)
  if aligned ≤ s.physLeft then
    some (s.kernelNext + objectHeaderSize,
      { s with
        kernelNext := s.kernelNext + aligned
        physLeft := s.physLeft - aligned
        hosts := Function.update s.hosts (s.kernelNext + objectHeaderSize) (some host) })
  else none

def registerNamedObject (name : Str) (bodyAddr : Addr) : State :=
  if name = [] then s else { s with named := Function.update s.named name bodyAddr }

def unregisterNamedObject (name : Str) : State := { s with named := Function.update s.named name 0 }

def registerDevice (name : Str) (device : Addr) : State :=
  if name ≠ [] ∧ device ≠ 0 then s.registerNamedObject (objectNamespaceKey name) device else s

def registerDeviceLink (link target : Str) : Option State :=
  if link = [] ∨ target = [] then some s
  else (s.createObject 8 (.symbolicLink target)).map fun r => r.2.registerNamedObject (objectNamespaceKey link) r.1

def unregisterDeviceName (name : Str) : State :=
  if name = [] then s else s.unregisterNamedObject (objectNamespaceKey name)

/-- `objs.get_object<device_host>(addr)`: the driver object and the name. -/
def device? (addr : Addr) : Option (Addr × Str) :=
  match s.hosts addr with
  | some (.device driverObject name) => some (driverObject, name)
  | _ => none

/-- The loop of `find_device`. -/
def findFrom : Nat → Str → Addr
  | 0, _ => 0
  | depth + 1, name =>
    let addr := s.named name
    if addr = 0 ∨ (s.device? addr).isSome then addr
    else match s.hosts addr with
      | some (.symbolicLink target) => findFrom depth (objectNamespaceKey target)
      | _ => 0

def findDevice (path : Str) : Addr := s.findFrom 8 (objectNamespaceKey path)

def createDeviceObject (driverObject : Addr) (deviceExtensionSize : BitVec 32) (name : Str) : Option State :=
  let extensionSize := (deviceExtensionSize + 7) &&& ~~~7
  (s.createObject (deviceObjectSize + extensionSize.toNat) (.device driverObject name)).map fun r =>
    { r.2.registerDevice name r.1 with
      links := r.2.links.push driverObject r.1
      live := r.1 :: r.2.live }

/-- `IoDeleteDevice`. There are no more entries than addresses, so a walk that takes more steps never ends. -/
def deleteDevice (deviceObject : Addr) : Option State :=
  match s.device? deviceObject with
  | none => some s
  | some (driverObject, name) =>
    (s.links.unlink 0 deviceObject (s.kernelNext + 1) (.head driverObject)).map fun links =>
      { s.unregisterDeviceName name with links, live := s.live.erase deviceObject }

end State

/-- The calls, with their names as `narrow_wstring` has them. -/
inductive Call
  | ioCreateDevice (driverObject : Addr) (deviceExtensionSize : BitVec 32) (deviceName : Str)
  | ioDeleteDevice (deviceObject : Addr)
  | ioCreateSymbolicLink (symbolicLinkName deviceName : Str)
  | ioDeleteSymbolicLink (symbolicLinkName : Str)
  deriving DecidableEq, Repr

def step (s : State) : Call → Option State
  | .ioCreateDevice driverObject size name =>
    if driverObject = 0 then some s else s.createDeviceObject driverObject size name
  | .ioDeleteDevice deviceObject => if deviceObject = 0 then some s else s.deleteDevice deviceObject
  | .ioCreateSymbolicLink link target => s.registerDeviceLink link target
  | .ioDeleteSymbolicLink link => some (s.unregisterDeviceName link)

/-- The lists of the drivers hold their live devices, each once, and a live device is found by its name. -/
structure Agree (s : State) : Prop where
  lists : ∀ driver, ∃ l, Leads s.links 0 (s.links.head driver) l ∧ l.Nodup ∧
    ∀ d, d ∈ l ↔ d ∈ s.live ∧ (s.device? d).map Prod.fst = some driver
  names : ∀ d ∈ s.live, ∀ host, s.device? d = some host → host.2 ≠ [] → s.findDevice host.2 = d

def State.FreeName (s : State) (name : Str) (devices : List Addr) : Prop :=
  ∀ d ∈ devices, ∀ host, s.device? d = some host → host.2 ≠ [] → objectNamespaceKey host.2 ≠ objectNamespaceKey name

/-- No name is given to a device or a link, or taken away, that is another live device's; and the name of a device is
more than separators. -/
def Distinct (s : State) : Call → Prop
  | .ioCreateDevice driverObject _ name =>
    driverObject = 0 ∨ name = [] ∨ objectNamespaceKey name ≠ [] ∧ s.FreeName name s.live
  | .ioDeleteDevice deviceObject => ∀ host, s.device? deviceObject = some host →
    host.2 = [] ∨ s.FreeName host.2 (s.live.erase deviceObject)
  | .ioCreateSymbolicLink link target => link = [] ∨ target = [] ∨ s.FreeName link s.live
  | .ioDeleteSymbolicLink link => link = [] ∨ s.FreeName link s.live

instance (s : State) (name : Str) (devices : List Addr) : Decidable (s.FreeName name devices) :=
  inferInstanceAs (Decidable (∀ d ∈ devices, ∀ host, s.device? d = some host → host.2 ≠ [] → _))

instance (s : State) : DecidablePred (Distinct s)
  | .ioCreateDevice .. => inferInstanceAs (Decidable (_ ∨ _ ∨ _ ∧ _))
  | .ioDeleteDevice _ => inferInstanceAs (Decidable (∀ host, _ = some host → _ ∨ _))
  | .ioCreateSymbolicLink .. => inferInstanceAs (Decidable (_ ∨ _ ∨ _))
  | .ioDeleteSymbolicLink _ => inferInstanceAs (Decidable (_ ∨ _))

structure Start (s : State) : Prop where
  hosts : ∀ a, s.device? a = none
  below : ∀ a, (s.hosts a).isSome → a < s.kernelNext
  named : ∀ k, s.named k ≤ s.kernelNext
  unnamed : s.named [] = 0
  heads : ∀ driver, s.links.head driver = 0
  live : s.live = []

/-! ## The invariant -/

def State.Listed (s : State) (driver : Addr) (l : List Addr) : Prop :=
  Leads s.links 0 (s.links.head driver) l ∧ l.Nodup ∧
    ∀ d, d ∈ l ↔ d ∈ s.live ∧ (s.device? d).map Prod.fst = some driver

structure Names (s : State) : Prop where
  below : ∀ a, (s.hosts a).isSome → a < s.kernelNext
  zero : s.device? 0 = none
  named : ∀ k, s.named k ≤ s.kernelNext
  unnamed : s.named [] = 0
  /-- A device has no name but its own. -/
  owned : ∀ k host, s.device? (s.named k) = some host → k = objectNamespaceKey host.2

structure Inv (s : State) : Prop extends Names s where
  nodup : s.live.Nodup
  live : ∀ d ∈ s.live, (s.device? d).isSome
  lists : ∀ driver, ∃ l, s.Listed driver l

def State.Named (s : State) (d : Addr) : Prop :=
  ∀ host, s.device? d = some host → host.2 ≠ [] → s.named (objectNamespaceKey host.2) = d

variable {s s' : State}

theorem Start.inv (h : Start s) : Inv s where
  below := h.below
  zero := h.hosts 0
  named := h.named
  unnamed := h.unnamed
  owned k host hk := by
    rw [h.hosts] at hk
    cases hk
  nodup := h.live ▸ List.nodup_nil
  live d hd := by
    rw [h.live] at hd
    cases hd
  lists driver := ⟨[], h.heads driver, List.nodup_nil, fun d => by simp [h.live]⟩

variable {d : Addr}

theorem hosts_of_device {host : Addr × Str} (h : s.device? d = some host) :
    s.hosts d = some (.device host.1 host.2) := by
  unfold State.device? at h
  split at h
  · rename_i heq
    rw [heq, ← Option.some.inj h]
  · cases h

theorem Names.device_below (h : Names s) (hd : (s.device? d).isSome) : d < s.kernelNext := by
  obtain ⟨host, hhost⟩ := Option.isSome_iff_exists.mp hd
  exact h.below d (by rw [hosts_of_device hhost]; rfl)

theorem findFrom_named {depth : Nat} {key : Str} (h : s.findFrom depth key = d) (hd : d ≠ 0) :
    ∃ k, s.named k = d := by
  induction depth generalizing key with
  | zero => exact absurd h.symm hd
  | succ depth ih =>
    rw [State.findFrom] at h
    split at h
    · exact ⟨key, h⟩
    · split at h
      · exact ih h
      · exact absurd h.symm hd

theorem Names.findDevice_iff (h : Names s) {host : Addr × Str} (hd : s.device? d = some host) :
    s.findDevice host.2 = d ↔ s.named (objectNamespaceKey host.2) = d := by
  constructor
  · intro hfind
    have hne : d ≠ 0 := by
      rintro rfl
      rw [h.zero] at hd
      cases hd
    obtain ⟨k, hk⟩ := findFrom_named hfind hne
    rw [← h.owned k host (by rw [hk]; exact hd)]
    exact hk
  · intro hnamed
    unfold State.findDevice
    rw [State.findFrom, hnamed]
    exact if_pos (.inr (by rw [hd]; rfl))

theorem Inv.agree_iff (h : Inv s) : Agree s ↔ ∀ d ∈ s.live, s.Named d := by
  constructor
  · intro hagree d hd host hhost hne
    exact (h.findDevice_iff hhost).mp (hagree.names d hd host hhost hne)
  · intro hnamed
    exact ⟨h.lists, fun d hd host hhost hne => (h.findDevice_iff hhost).mpr (hnamed d hd host hhost hne)⟩

/-! ## What a name that changes hands does -/

variable {name : Str}

/-- When a name is given to something else, the devices that keep theirs are those that do not go by it. -/
theorem named_update_iff {devices : List Addr} {v : Addr} (hnamed : ∀ d ∈ devices, s.Named d)
    (hdevice : ∀ d ∈ devices, s'.device? d = s.device? d) (hv : v ∉ devices)
    (hs' : s'.named = Function.update s.named (objectNamespaceKey name) v) :
    (∀ d ∈ devices, s'.Named d) ↔ s.FreeName name devices := by
  constructor
  · intro h d hd host hhost hne heq
    have hd' := h d hd host (by rw [hdevice d hd]; exact hhost) hne
    rw [hs', heq, Function.update_self] at hd'
    exact hv (hd' ▸ hd)
  · intro h d hd host hhost hne
    rw [hdevice d hd] at hhost
    rw [hs', Function.update_of_ne (h d hd host hhost hne)]
    exact hnamed d hd host hhost hne

theorem named_congr (h : s.Named d) (hdevice : s'.device? d = s.device? d) (hs' : s'.named = s.named) :
    s'.Named d := by
  intro host hhost hne
  rw [hs']
  exact h host (hdevice ▸ hhost) hne

/-! ## Creating objects -/

/-- A created object: at an address of its own, which nothing had a name for. -/
structure Created (s : State) (host : Host) (addr : Addr) (s' : State) : Prop where
  above : s.kernelNext < addr
  below : addr < s'.kernelNext
  hosts : s'.hosts = Function.update s.hosts addr (some host)
  named : s'.named = s.named
  links : s'.links = s.links
  live : s'.live = s.live

theorem createObject_spec {bodySize : Nat} {host : Host} {r : Addr × State}
    (h : s.createObject bodySize host = some r) (hpos : 0 < bodySize) (hsize : bodySize < 2 ^ 33) :
    Created s host r.1 r.2 := by
  have haligned : objectHeaderSize < sizeAlign (objectHeaderSize + bodySize) := by
    have hle := (sizeAlign_spec (n := objectHeaderSize + bodySize) (by unfold objectHeaderSize pageSize; omega)).1
    omega
  unfold State.createObject at h
  dsimp only at h
  split at h
  · obtain rfl := Option.some.inj h
    refine ⟨?_, Nat.add_lt_add_left haligned _, rfl, rfl, rfl, rfl⟩
    exact Nat.lt_add_of_pos_right (by decide)
  · cases h

variable {host : Host} {a : Addr}

theorem Created.device_of_ne (h : Created s host a s') (hd : d ≠ a) : s'.device? d = s.device? d := by
  unfold State.device?
  rw [h.hosts, Function.update_of_ne hd]

variable {driver : Addr}

theorem Created.device_self (h : Created s (.device driver name) a s') :
    s'.device? a = some (driver, name) := by
  unfold State.device?
  rw [h.hosts, Function.update_self]

theorem Names.created (h : Names s) (hc : Created s host a s') {s'' : State} (hnext : s''.kernelNext = s'.kernelNext)
    (hhosts : s''.hosts = s'.hosts)
    (hnamed : s''.named = s.named ∨ ∃ key ≠ [], s''.named = Function.update s.named key a ∧
      ∀ driver name, host = .device driver name → key = objectNamespaceKey name) : Names s'' := by
  have hlt : s.kernelNext < s'.kernelNext := hc.above.trans hc.below
  have hdevice : ∀ d, s''.device? d = s'.device? d := fun d => by rw [State.device?, hhosts]; rfl
  have hname : ∀ k, s''.named k = s.named k ∨ s''.named k = a ∧ k ≠ [] ∧
      ∀ driver name, host = .device driver name → k = objectNamespaceKey name := by
    intro k
    rcases hnamed with hsame | ⟨key, hkey, hupdate, hdev⟩
    · exact .inl (by rw [hsame])
    · by_cases hk : k = key
      · subst hk
        exact .inr ⟨by rw [hupdate, Function.update_self], hkey, hdev⟩
      · exact .inl (by rw [hupdate, Function.update_of_ne hk])
  refine ⟨fun d hd => ?_, ?_, fun k => ?_, ?_, fun k hst hk => ?_⟩
  · rw [hnext]
    rw [hhosts, hc.hosts] at hd
    by_cases hda : d = a
    · exact hda ▸ hc.below
    · rw [Function.update_of_ne hda] at hd
      exact (h.below d hd).trans hlt
  · rw [hdevice, hc.device_of_ne (Nat.ne_of_lt (Nat.zero_lt_of_lt hc.above))]
    exact h.zero
  · rw [hnext]
    rcases hname k with hk | ⟨hk, -⟩
    · exact hk ▸ (h.named k).trans hlt.le
    · exact hk ▸ hc.below.le
  · rcases hname [] with hk | ⟨-, hk, -⟩
    · exact hk.trans h.unnamed
    · exact absurd rfl hk
  · rw [hdevice] at hk
    rcases hname k with hsame | ⟨hself, -, hdev⟩
    · rw [hsame, hc.device_of_ne (Nat.ne_of_lt ((h.named k).trans_lt hc.above))] at hk
      exact h.owned k hst hk
    · have hhost := hosts_of_device (hself ▸ hk)
      rw [hc.hosts, Function.update_self] at hhost
      exact hdev _ _ (Option.some.inj hhost)

theorem Names.unregister (h : Names s) (hhosts : s'.hosts = s.hosts) (hnext : s'.kernelNext = s.kernelNext)
    (hnamed : s'.named = if name = [] then s.named else Function.update s.named (objectNamespaceKey name) 0) :
    Names s' := by
  have hdevice : ∀ d, s'.device? d = s.device? d := fun d => by rw [State.device?, hhosts]; rfl
  have hname : ∀ k, s'.named k = s.named k ∨ s'.named k = 0 := by
    intro k
    rw [hnamed]
    split_ifs
    · exact .inl rfl
    · by_cases hk : k = objectNamespaceKey name
      · exact .inr (by rw [hk, Function.update_self])
      · exact .inl (Function.update_of_ne hk ..)
  refine ⟨fun d hd => ?_, ?_, fun k => ?_, ?_, fun k hst hk => ?_⟩
  · rw [hnext]
    exact h.below d (hhosts ▸ hd)
  · exact (hdevice 0).trans h.zero
  · rw [hnext]
    rcases hname k with hk | hk
    · exact hk ▸ h.named k
    · exact hk ▸ Nat.zero_le _
  · rcases hname [] with hk | hk
    · exact hk.trans h.unnamed
    · exact hk
  · rw [hdevice] at hk
    rcases hname k with hsame | hzero
    · exact h.owned k hst (hsame ▸ hk)
    · rw [hzero, h.zero] at hk
      cases hk

/-! ## The lists -/

theorem Listed.congr {l : List Addr} (h : s.Listed driver l) (hlinks : s'.links = s.links)
    (hlive : s'.live = s.live) (hdevice : ∀ d ∈ s.live, s'.device? d = s.device? d) : s'.Listed driver l := by
  obtain ⟨hleads, hnodup, hmem⟩ := h
  refine ⟨hlinks ▸ hleads, hnodup, fun d => ?_⟩
  rw [hmem, hlive]
  constructor
  · rintro ⟨hd, hfst⟩
    exact ⟨hd, by rw [hdevice d hd]; exact hfst⟩
  · rintro ⟨hd, hfst⟩
    exact ⟨hd, by rw [← hdevice d hd]; exact hfst⟩

theorem Inv.notMem (h : Inv s) (hd : s.kernelNext < d) : d ∉ s.live :=
  fun hmem => absurd (h.device_below (h.live d hmem)) (Nat.not_lt.mpr hd.le)

theorem Listed.push {l : List Addr} (h : Inv s) (hl : s.Listed d l)
    (hc : Created s (.device driver name) a s') {s'' : State} (hhosts : s''.hosts = s'.hosts)
    (hlinks : s''.links = s.links.push driver a) (hlive : s''.live = a :: s.live) :
    s''.Listed d (if d = driver then a :: l else l) := by
  obtain ⟨hleads, hnodup, hmem⟩ := hl
  have hfresh : a ∉ s.live := h.notMem hc.above
  have hout : a ∉ l := fun ha => hfresh ((hmem a).mp ha).1
  have hdevice : ∀ x, s''.device? x = s'.device? x := fun x => by rw [State.device?, hhosts]; rfl
  have hnew : s''.device? a = some (driver, name) := (hdevice a).trans hc.device_self
  have hold : ∀ x ≠ a, s''.device? x = s.device? x := fun x hx => (hdevice x).trans (hc.device_of_ne hx)
  have hiff : ∀ x ≠ a, x ∈ l ↔ x ∈ s''.live ∧ (s''.device? x).map Prod.fst = some d := by
    intro x hx
    rw [hmem, hold x hx, hlive, List.mem_cons, or_iff_right hx]
  by_cases hd : d = driver
  · subst hd
    rw [if_pos rfl]
    refine ⟨?_, List.nodup_cons.mpr ⟨hout, hnodup⟩, fun x => ?_⟩
    · rw [hlinks]
      exact hleads.push hout (Nat.ne_of_gt (Nat.zero_lt_of_lt hc.above))
    · by_cases hx : x = a
      · subst hx
        simp [hlive, hnew]
      · rw [List.mem_cons, or_iff_right hx]
        exact hiff x hx
  · rw [if_neg hd]
    refine ⟨?_, hnodup, fun x => ?_⟩
    · rw [hlinks]
      exact hleads.push_of_ne hout hd
    · by_cases hx : x = a
      · subst hx
        refine iff_of_false hout fun hlisted => hd ?_
        rw [hnew] at hlisted
        exact (Option.some.inj hlisted.2).symm
      · exact hiff x hx

/-- Deleting a device ends, and takes it out of the list of its driver and no other. -/
theorem Inv.unlink (h : Inv s) {x : Addr} (hx : s.device? x = some (driver, name)) :
    ∃ links, s.links.unlink 0 x (s.kernelNext + 1) (.head driver) = some links ∧
      ∀ s'' : State, s''.hosts = s.hosts → s''.links = links → s''.live = s.live.erase x →
        ∀ d, ∃ l, s''.Listed d l := by
  obtain ⟨l, hleads, hnodup, hmem⟩ := h.lists driver
  have hlength : l.length < s.kernelNext + 1 := by
    have hsub : l ⊆ List.range s.kernelNext := fun d hd =>
      List.mem_range.mpr (h.device_below (h.live d ((hmem d).mp hd).1))
    have hle := (List.subperm_of_subset hnodup hsub).length_le
    rw [List.length_range] at hle
    exact Nat.lt_succ_of_le hle
  have hread : Leads s.links 0 (s.links.read (.head driver)) l := hleads
  obtain ⟨links, hunlink, hunlinked⟩ := hread.unlink hnodup (fun _ _ => nofun) x hlength
  refine ⟨links, hunlink, fun s'' hhosts hlinks hlive d => ?_⟩
  have hdevice : ∀ d, s''.device? d = s.device? d := fun d => by rw [State.device?, hhosts]; rfl
  by_cases hd : d = driver
  · subst hd
    refine ⟨l.erase x, hlinks ▸ hunlinked.leads, hnodup.erase x, fun y => ?_⟩
    rw [hnodup.mem_erase_iff, hmem, hdevice, hlive, h.nodup.mem_erase_iff, and_assoc]
  · obtain ⟨l', hleads', hnodup', hmem'⟩ := h.lists d
    have hhead : s''.links.head d = s.links.head d :=
      hlinks ▸ hunlinked.rest (.head d) (fun heq => hd (Link.head.inj heq)) fun _ _ => nofun
    refine ⟨l', ?_, hnodup', fun y => ?_⟩
    · rw [hhead]
      refine hleads'.congr fun y hy => hlinks ▸ hunlinked.rest (.next y) nofun ?_
      rintro z hz heq
      obtain rfl := Link.next.inj heq
      have hfst := ((hmem y).mp hz).2.symm.trans ((hmem' y).mp hy).2
      exact hd (Option.some.inj hfst).symm
    · rw [hmem', hdevice, hlive, h.nodup.mem_erase_iff]
      constructor
      · rintro ⟨hy, hfst⟩
        refine ⟨⟨?_, hy⟩, hfst⟩
        rintro rfl
        rw [hx] at hfst
        exact hd (Option.some.inj hfst).symm
      · rintro ⟨⟨-, hy⟩, hfst⟩
        exact ⟨hy, hfst⟩

theorem Inv.congr (h : Inv s) (hnames : Names s') (hlinks : s'.links = s.links) (hlive : s'.live = s.live)
    (hdevice : ∀ d ∈ s.live, s'.device? d = s.device? d) : Inv s' where
  toNames := hnames
  nodup := hlive ▸ h.nodup
  live d hd := by
    rw [hlive] at hd
    rw [hdevice d hd]
    exact h.live d hd
  lists d := by
    obtain ⟨l, hl⟩ := h.lists d
    exact ⟨l, Listed.congr hl hlinks hlive hdevice⟩

/-! ## The calls -/

/-- What `create_device_object` leaves. -/
structure CreatedDevice (s : State) (driver : Addr) (name : Str) (a : Addr) (s' : State) : Prop where
  above : s.kernelNext < a
  hosts : s'.hosts = Function.update s.hosts a (some (.device driver name))
  live : s'.live = a :: s.live
  named : s'.named = if objectNamespaceKey name = [] ∨ name = [] then s.named
    else Function.update s.named (objectNamespaceKey name) a
  inv : Inv s'

theorem registerDevice_named (name : Str) (ha : a ≠ 0) :
    (s.registerDevice name a).named = if objectNamespaceKey name = [] ∨ name = [] then s.named
      else Function.update s.named (objectNamespaceKey name) a := by
  unfold State.registerDevice State.registerNamedObject
  split_ifs <;> simp_all

theorem registerDevice_hosts (name : Str) : (s.registerDevice name a).hosts = s.hosts := by
  unfold State.registerDevice State.registerNamedObject
  split_ifs <;> rfl

theorem registerDevice_kernelNext (name : Str) : (s.registerDevice name a).kernelNext = s.kernelNext := by
  unfold State.registerDevice State.registerNamedObject
  split_ifs <;> rfl

theorem Inv.created (h : Inv s) (hc : Created s (.device driver name) a s') {s'' : State}
    (hnext : s''.kernelNext = s'.kernelNext) (hhosts : s''.hosts = s'.hosts)
    (hlinks : s''.links = s.links.push driver a) (hlive : s''.live = a :: s.live)
    (hnamed : s''.named = if objectNamespaceKey name = [] ∨ name = [] then s.named
      else Function.update s.named (objectNamespaceKey name) a) : Inv s'' := by
  have hdevice : ∀ x, s''.device? x = s'.device? x := fun x => by rw [State.device?, hhosts]; rfl
  refine { h.toNames.created hc hnext hhosts ?_ with
    nodup := ?_
    live := fun d hd => ?_
    lists := fun d => ?_ }
  · by_cases hkey : objectNamespaceKey name = [] ∨ name = []
    · exact .inl (hnamed.trans (if_pos hkey))
    · refine .inr ⟨objectNamespaceKey name, fun hnil => hkey (.inl hnil), hnamed.trans (if_neg hkey), ?_⟩
      rintro d n heq
      cases heq
      rfl
  · rw [hlive]
    exact List.nodup_cons.mpr ⟨h.notMem hc.above, h.nodup⟩
  · rw [hdevice]
    rw [hlive] at hd
    by_cases hda : d = a
    · rw [hda, hc.device_self]
      rfl
    · rw [hc.device_of_ne hda]
      exact h.live d ((List.mem_cons.mp hd).resolve_left hda)
  · obtain ⟨l, hl⟩ := h.lists d
    exact ⟨_, Listed.push h hl hc hhosts hlinks hlive⟩

theorem Inv.createDeviceObject (h : Inv s) {size : BitVec 32}
    (hstep : s.createDeviceObject driver size name = some s') : ∃ a, CreatedDevice s driver name a s' := by
  rw [State.createDeviceObject] at hstep
  obtain ⟨⟨a, s₁⟩, hcreate, rfl⟩ := Option.map_eq_some_iff.mp hstep
  have hsize : deviceObjectSize + ((size + 7) &&& ~~~7).toNat < 2 ^ 33 :=
    Nat.add_lt_add (by decide : deviceObjectSize < 2 ^ 32) (BitVec.isLt _)
  have hc := createObject_spec hcreate (Nat.lt_add_right _ (by decide)) hsize
  have hhosts := registerDevice_hosts (s := s₁) (a := a) name
  have hnamed := registerDevice_named (s := s₁) name (Nat.ne_of_gt (Nat.zero_lt_of_lt hc.above))
  rw [hc.named] at hnamed
  have hlinks : s₁.links.push driver a = s.links.push driver a := by rw [hc.links]
  have hlive : a :: s₁.live = a :: s.live := by rw [hc.live]
  exact ⟨a, hc.above, hhosts.trans hc.hosts, hlive, hnamed,
    h.created hc (registerDevice_kernelNext name) hhosts hlinks hlive hnamed⟩

theorem CreatedDevice.named_iff (h : CreatedDevice s driver name a s') (hs : Inv s)
    (hnamed : ∀ d ∈ s.live, s.Named d) :
    (∀ d ∈ s'.live, s'.Named d) ↔ name = [] ∨ objectNamespaceKey name ≠ [] ∧ s.FreeName name s.live := by
  have hfresh : a ∉ s.live := hs.notMem h.above
  have hself : s'.device? a = some (driver, name) := by
    rw [State.device?, h.hosts, Function.update_self]
  have hold : ∀ d ∈ s.live, s'.device? d = s.device? d := by
    intro d hd
    have hda : d ≠ a := by
      rintro rfl
      exact hfresh hd
    rw [State.device?, h.hosts, Function.update_of_ne hda]
    rfl
  rw [h.live, List.forall_mem_cons]
  by_cases hname : name = []
  · refine iff_of_true ⟨?_, fun d hd => ?_⟩ (.inl hname)
    · intro host hhost hne
      rw [hself] at hhost
      cases hhost
      exact absurd hname hne
    · exact named_congr (hnamed d hd) (hold d hd) (h.named.trans (if_pos (.inr hname)))
  · rw [or_iff_right hname]
    by_cases hkey : objectNamespaceKey name = []
    · refine iff_of_false (fun hall => ?_) fun hdistinct => hdistinct.1 hkey
      have hzero := hall.1 _ hself hname
      rw [hkey, h.inv.unnamed] at hzero
      exact absurd hzero (Nat.ne_of_lt (Nat.zero_lt_of_lt h.above))
    · have hupdate := h.named.trans (if_neg (not_or.mpr ⟨hkey, hname⟩))
      rw [and_iff_right hkey, ← named_update_iff hnamed hold hfresh hupdate]
      refine and_iff_right ?_
      intro host hhost hne
      rw [hself] at hhost
      rw [← Option.some.inj hhost, hupdate, Function.update_self]

theorem unregisterDeviceName_named (name : Str) : (s.unregisterDeviceName name).named =
    if name = [] then s.named else Function.update s.named (objectNamespaceKey name) 0 := by
  unfold State.unregisterDeviceName State.unregisterNamedObject
  split_ifs <;> rfl

theorem Inv.zero_notMem (h : Inv s) : 0 ∉ s.live := by
  intro hzero
  have hlive := h.live 0 hzero
  rw [h.zero] at hlive
  cases hlive

theorem Inv.unregister_iff {devices : List Addr} (h : Inv s) (hsub : devices ⊆ s.live)
    (hnamed : ∀ d ∈ s.live, s.Named d) (hhosts : s'.hosts = s.hosts)
    (hs' : s'.named = if name = [] then s.named else Function.update s.named (objectNamespaceKey name) 0) :
    (∀ d ∈ devices, s'.Named d) ↔ name = [] ∨ s.FreeName name devices := by
  have hdevice : ∀ d, s'.device? d = s.device? d := fun d => by rw [State.device?, hhosts]; rfl
  by_cases hname : name = []
  · refine iff_of_true (fun d hd => ?_) (.inl hname)
    exact named_congr (hnamed d (hsub hd)) (hdevice d) (hs'.trans (if_pos hname))
  · rw [or_iff_right hname]
    exact named_update_iff (fun d hd => hnamed d (hsub hd)) (fun d _ => hdevice d)
      (fun hzero => h.zero_notMem (hsub hzero)) (hs'.trans (if_neg hname))

theorem Inv.deleteDevice (h : Inv s) {x : Addr} (hx : s.device? x = some (driver, name)) :
    ∃ s', s.deleteDevice x = some s' ∧ Inv s' ∧ ((∀ d ∈ s.live, s.Named d) →
      ((∀ d ∈ s'.live, s'.Named d) ↔ name = [] ∨ s.FreeName name (s.live.erase x))) := by
  obtain ⟨links, hunlink, hlists⟩ := h.unlink hx
  let s' : State := { s.unregisterDeviceName name with links, live := s.live.erase x }
  have hstep : s.deleteDevice x = some s' := by
    rw [State.deleteDevice, hx]
    exact congrArg (Option.map _) hunlink
  have hhosts : s'.hosts = s.hosts := by
    unfold s' State.unregisterDeviceName
    split_ifs <;> rfl
  have hnext : s'.kernelNext = s.kernelNext := by
    unfold s' State.unregisterDeviceName
    split_ifs <;> rfl
  have hnamed : s'.named = if name = [] then s.named else Function.update s.named (objectNamespaceKey name) 0 :=
    unregisterDeviceName_named name
  have hnames : Names s' := h.toNames.unregister hhosts hnext hnamed
  have hinv : Inv s' :=
    { hnames with
      nodup := h.nodup.erase x
      live := fun d hd => by
        rw [State.device?, hhosts]
        exact h.live d (List.mem_of_mem_erase hd)
      lists := hlists s' hhosts rfl rfl }
  exact ⟨s', hstep, hinv, fun hall => h.unregister_iff (List.erase_subset ..) hall hhosts hnamed⟩

theorem Inv.deleteSymbolicLink (h : Inv s) (name : Str) : Inv (s.unregisterDeviceName name) ∧
    ((∀ d ∈ s.live, s.Named d) → ((∀ d ∈ (s.unregisterDeviceName name).live, (s.unregisterDeviceName name).Named d) ↔
      name = [] ∨ s.FreeName name s.live)) := by
  have hnamed := unregisterDeviceName_named (s := s) name
  have hsame : (s.unregisterDeviceName name).hosts = s.hosts ∧ (s.unregisterDeviceName name).links = s.links ∧
      (s.unregisterDeviceName name).live = s.live ∧ (s.unregisterDeviceName name).kernelNext = s.kernelNext := by
    unfold State.unregisterDeviceName
    split_ifs <;> exact ⟨rfl, rfl, rfl, rfl⟩
  obtain ⟨hhosts, hlinks, hlive, hnext⟩ := hsame
  have hdevice : ∀ d, (s.unregisterDeviceName name).device? d = s.device? d := fun d => by
    rw [State.device?, hhosts]
    rfl
  refine ⟨h.congr (h.toNames.unregister hhosts hnext hnamed) hlinks hlive fun d _ => hdevice d, fun hall => ?_⟩
  rw [hlive]
  exact h.unregister_iff (List.Subset.refl _) hall hhosts hnamed

theorem Inv.createSymbolicLink (h : Inv s) {link target : Str} (hstep : s.registerDeviceLink link target = some s') :
    Inv s' ∧ ((∀ d ∈ s.live, s.Named d) →
      ((∀ d ∈ s'.live, s'.Named d) ↔ link = [] ∨ target = [] ∨ s.FreeName link s.live)) := by
  unfold State.registerDeviceLink at hstep
  split_ifs at hstep with hempty
  · obtain rfl := Option.some.inj hstep
    exact ⟨h, fun hall => iff_of_true hall (by tauto)⟩
  · obtain ⟨⟨a, s₁⟩, hcreate, rfl⟩ := Option.map_eq_some_iff.mp hstep
    have hc := createObject_spec hcreate (by decide) (by decide)
    have hfresh : a ∉ s.live := h.notMem hc.above
    have hold : ∀ d ∈ s.live, s₁.device? d = s.device? d := by
      intro d hd
      refine hc.device_of_ne ?_
      rintro rfl
      exact hfresh hd
    rw [or_iff_right (not_or.mp hempty).1, or_iff_right (not_or.mp hempty).2]
    unfold State.registerNamedObject
    dsimp only
    split_ifs with hkey
    · have hnames := Names.created h.toNames hc rfl rfl (.inl hc.named)
      refine ⟨h.congr hnames hc.links hc.live hold, fun hall => iff_of_true ?_ ?_⟩
      · rw [hc.live]
        exact fun d hd => named_congr (hall d hd) (hold d hd) hc.named
      · intro d hd host hhost hne heq
        have hzero := hall d hd host hhost hne
        rw [heq, hkey, h.unnamed] at hzero
        exact h.zero_notMem (hzero ▸ hd)
    · have hnamed : Function.update s₁.named (objectNamespaceKey link) a =
          Function.update s.named (objectNamespaceKey link) a := by rw [hc.named]
      have hnames : Names { s₁ with named := Function.update s₁.named (objectNamespaceKey link) a } :=
        h.toNames.created hc rfl rfl (.inr ⟨_, hkey, hnamed, nofun⟩)
      refine ⟨h.congr hnames hc.links hc.live hold, fun hall => ?_⟩
      rw [hc.live]
      exact named_update_iff hall hold hfresh hnamed

theorem Inv.of_step (h : Inv s) {c : Call} (hstep : step s c = some s') :
    Inv s' ∧ ((∀ d ∈ s.live, s.Named d) → ((∀ d ∈ s'.live, s'.Named d) ↔ Distinct s c)) := by
  cases c with
  | ioCreateDevice driver size name =>
    rw [DeviceNames.step] at hstep
    split_ifs at hstep with hdriver
    · obtain rfl := Option.some.inj hstep
      exact ⟨h, fun hall => iff_of_true hall (.inl hdriver)⟩
    · obtain ⟨a, ha⟩ := h.createDeviceObject hstep
      refine ⟨ha.inv, fun hall => (ha.named_iff h hall).trans ?_⟩
      exact (or_iff_right hdriver).symm
  | ioDeleteDevice x =>
    rw [DeviceNames.step] at hstep
    cases hx : s.device? x with
    | none =>
      have hsame : s' = s := by
        split_ifs at hstep with hzero
        · exact (Option.some.inj hstep).symm
        · rw [State.deleteDevice, hx] at hstep
          exact (Option.some.inj hstep).symm
      rw [hsame]
      refine ⟨h, fun hall => iff_of_true hall fun host hhost => ?_⟩
      rw [hx] at hhost
      cases hhost
    | some host =>
      have hne : x ≠ 0 := by
        rintro rfl
        rw [h.zero] at hx
        cases hx
      rw [if_neg hne] at hstep
      obtain ⟨s₁, hdelete, hinv, hiff⟩ := h.deleteDevice hx
      obtain rfl := Option.some.inj (hdelete.symm.trans hstep)
      refine ⟨hinv, fun hall => (hiff hall).trans ⟨fun hfree host' hhost => ?_, fun hfree => hfree _ hx⟩⟩
      rw [hx] at hhost
      exact Option.some.inj hhost ▸ hfree
  | ioCreateSymbolicLink link target => exact h.createSymbolicLink hstep
  | ioDeleteSymbolicLink link =>
    obtain rfl := Option.some.inj hstep
    exact h.deleteSymbolicLink link

theorem Inv.ioDeleteDevice_isSome (h : Inv s) (x : Addr) : (step s (.ioDeleteDevice x)).isSome := by
  rw [DeviceNames.step]
  split_ifs with hzero
  · rfl
  · cases hx : s.device? x with
    | none =>
      rw [State.deleteDevice, hx]
      rfl
    | some host =>
      obtain ⟨s', hdelete, -⟩ := h.deleteDevice hx
      rw [hdelete]
      rfl

abbrev Runs := Run.Steps step fun _ _ => True

theorem listed_of_run (h0 : Start s) {calls : List Call} (h : Runs s calls s') (driver : Addr) :
    ∃ l, s'.Listed driver l := by
  refine (Run.Steps.invariant ?_ h h0.inv).lists driver
  exact fun _ _ _ hinv _ hstep => (hinv.of_step hstep).1

/-- Lists and names agree in every state of a run exactly when no name is given out, or taken away, that is another
live device's. -/
theorem agree_iff_distinct (h0 : Start s) {calls : List Call} (h : Runs s calls s') :
    Run.Steps step Distinct s calls s' ↔ ∀ js s₁, js <+: calls → Runs s js s₁ → Agree s₁ := by
  refine Run.Steps.allowed_iff_always (I := Inv) ?_ ?_ h0.inv ?_ h
  · exact fun _ _ _ hinv _ _ hstep _ => (hinv.of_step hstep).1
  · intro s c s' hinv hagree _ hstep
    rw [(hinv.of_step hstep).1.agree_iff]
    exact ((hinv.of_step hstep).2 (hinv.agree_iff.mp hagree)).symm
  · rw [h0.inv.agree_iff, h0.live]
    exact fun d hd => nomatch hd

/-! ## A name used again -/

def emptyNamespace : State where
  kernelNext := 0x1000
  physLeft := 0x10000
  hosts _ := none
  named _ := 0
  links := ⟨fun _ => 0, fun _ => 0⟩
  live := []

theorem emptyNamespace_start : Start emptyNamespace where
  hosts _ := rfl
  below _ h := nomatch h
  named _ := Nat.zero_le _
  unnamed := rfl
  heads _ := rfl
  live := rfl

def deviceName : Str := ascii ['\\', 'D', 'e', 'v', 'i', 'c', 'e', '\\', 'A']

/-- A driver deletes its device and creates one by the same name; a link and a device of another driver come and
go. -/
def createsAgain : List Call :=
  [.ioCreateDevice 0x10 8 deviceName, .ioCreateSymbolicLink (ascii ['a']) deviceName, .ioDeleteDevice 0x1038,
    .ioCreateDevice 0x10 0 deviceName, .ioCreateDevice 0x20 0 (ascii ['b']), .ioDeleteSymbolicLink (ascii ['a']),
    .ioDeleteDevice 0x4038]

theorem createsAgain_agrees :
    ∃ s, Run.Steps step Distinct emptyNamespace createsAgain s ∧ s.live = [0x3038] ∧ Agree s := by
  have hexec : (Run.exec step (fun s c => decide (Distinct s c)) emptyNamespace createsAgain).map
      (fun s => s.live) = some [0x3038] := by decide +kernel
  obtain ⟨s, hs, hlive⟩ := Option.map_eq_some_iff.mp hexec
  have hrun : Run.Steps step Distinct emptyNamespace createsAgain s :=
    Run.Steps.of_exec (fun _ _ => of_decide_eq_true) hs
  have hany : Runs emptyNamespace createsAgain s := hrun.mono fun _ _ _ => trivial
  exact ⟨s, hrun, hlive, (agree_iff_distinct emptyNamespace_start hany).mp hrun _ s (List.prefix_refl _) hany⟩

/-- Deleting the first device again takes the name from the second. -/
theorem deletesTwice_disagrees : ¬ ∀ start s calls, Start start → Runs start calls s → Agree s := by
  intro hall
  have hexec : (Run.exec step (fun _ _ => true) emptyNamespace [.ioCreateDevice 0x10 8 deviceName,
      .ioDeleteDevice 0x1038, .ioCreateDevice 0x10 0 deviceName, .ioDeleteDevice 0x1038]).map
      (fun s => (s.live, s.device? 0x2038, s.findDevice deviceName)) =
      some ([0x2038], some (0x10, deviceName), 0) := by decide +kernel
  obtain ⟨s, hs, hval⟩ := Option.map_eq_some_iff.mp hexec
  simp only [Prod.mk.injEq] at hval
  obtain ⟨hlive, hdevice, hfind⟩ := hval
  have hagree := hall emptyNamespace s _ emptyNamespace_start (Run.Steps.of_exec (fun _ _ _ => trivial) hs)
  have hfound := hagree.names 0x2038 (by rw [hlive]; exact List.mem_singleton_self _) _ hdevice (by decide)
  rw [hfind] at hfound
  cases hfound

end Kernemul.DeviceNames
