import Kernemul.Win.GuestLists.Operations

/-!
# What an operation makes of the lists

`exec` is what an operation does to the memory, `spec` what it should do to the lists. Between two operations anything
else may be written, except over the links that are in use. An `Effect` is that the lists an operation is about are
rings again, with the records they should have, and that the links of all others are as they were.
-/

namespace Kernemul.GuestLists

open ByteMemory LinkRing

/-! ## Runs -/

inductive Event
  | init (l : GuestList)
  /-- `push_back(entry)`, for which `alloc` gave the address. -/
  | pushBack (l : GuestList) (entry : Record l.recordSize) (addr : Ptr)
  | pushBackObject (l : GuestList) (addr : Ptr)
  | pushBackAt (l : GuestList) (entry : Record l.recordSize) (addr : Ptr)
  | remove (l : GuestList) (addr : Ptr)
  | newModuleList (ldr : Ptr)
  | addModule (ldr : Ptr) (entry : Record sizeOfTableEntry) (addr : Ptr) (inInitOrder : Bool)
  /-- Anything else that is written. -/
  | write (va : ℕ) (bytes : List UInt8)

def Event.exec (mem : Memory) : Event → Memory
  | .init l => l.init mem
  | .pushBack l entry addr | .pushBackAt l entry addr => l.pushBackAt mem entry addr
  | .pushBackObject l addr => l.pushBackObject mem addr
  | .remove l addr => l.remove mem addr
  | .newModuleList ldr => GuestLists.newModuleList ldr mem
  | .addModule ldr entry addr inInitOrder => GuestLists.addModule ldr mem entry addr inInitOrder
  | .write va bytes => writeMem mem va bytes

def Event.lists : Event → List GuestList
  | .init l | .pushBack l .. | .pushBackObject l _ | .pushBackAt l .. | .remove l _ => [l]
  | .newModuleList ldr => (orders true).map (Order.list ldr)
  | .addModule ldr _ _ inInitOrder => (orders inInitOrder).map (Order.list ldr)
  | .write .. => []

def Event.edit : Event → Option (List Ptr) → Option (List Ptr)
  | .init _ | .newModuleList _ => fun _ => some []
  | .pushBack _ _ addr | .pushBackObject _ addr | .pushBackAt _ _ addr | .addModule _ _ addr _ =>
    Option.map (· ++ [addr])
  | .remove _ addr => Option.map (·.erase addr)
  | .write .. => id

/-- The records on the lists that are initialized, in the order in which they came. -/
abbrev Entries := GuestList → Option (List Ptr)

def edited (ls : List GuestList) (f : Option (List Ptr) → Option (List Ptr)) (entries : Entries) : Entries := fun l =>
  if l ∈ ls then f (entries l) else entries l

def Event.spec (entries : Entries) (e : Event) : Entries := edited e.lists e.edit entries

/-- `entries` is not in the source. -/
structure State where
  mem : Memory
  entries : Entries := fun _ => none

def step (s : State) (e : Event) : Option State := some ⟨e.exec s.mem, e.spec s.entries⟩

def nodes (entries : Entries) (l : GuestList) : List Ptr :=
  match entries l with
  | none => []
  | some xs => l.head :: xs.map l.linksAddr

def State.Free (s : State) (va size : ℕ) : Prop :=
  va + size ≤ 2 ^ 64 ∧ ∀ l, ∀ n ∈ nodes s.entries l, n.toNat + 16 ≤ va ∨ va + size ≤ n.toNat

def State.Keeps (s : State) (va : ℕ) (bytes : List UInt8) : Prop :=
  ∀ l, ∀ n ∈ nodes s.entries l, readLinks (writeMem s.mem va bytes) n = readLinks s.mem n

/-- A head is where no other links are. A record that is pushed is new, or is one whose links for the list are not in
use, and a record that is removed is on the list. -/
def Placed (s : State) : Event → Prop
  | .init l => l.head.toNat + 16 ≤ 2 ^ 64 ∧ ∀ l' ≠ l, ∀ n ∈ nodes s.entries l', Apart n l.head
  | .pushBack l _ addr => (s.entries l).isSome ∧ s.Free addr.toNat l.recordSize
  | .pushBackObject l addr | .pushBackAt l _ addr =>
    (s.entries l).isSome ∧ addr.toNat + l.recordSize ≤ 2 ^ 64 ∧ s.Free (l.linksAddr addr).toNat 16
  | .remove l addr => ∃ xs, s.entries l = some xs ∧ addr ∈ xs
  | .newModuleList ldr => ldr.toNat + sizeOfLdrData ≤ 2 ^ 64 ∧ ∀ l, (∀ o, l ≠ Order.list ldr o) →
    ∀ n ∈ nodes s.entries l, n.toNat + 16 ≤ ldr.toNat ∨ ldr.toNat + sizeOfLdrData ≤ n.toNat
  | .addModule ldr _ addr _ =>
    (∀ o, (s.entries (Order.list ldr o)).isSome) ∧ s.Free addr.toNat sizeOfTableEntry
  | .write va bytes => s.Keeps va bytes

/-- The contents that are given for a record agree with the links that the record has in use. -/
def Faithful (s : State) : Event → Prop
  | .pushBackAt _ entry addr => s.Keeps addr.toNat entry.1
  | _ => True

/-- The list is a ring through its head, and followed from there it has the records, forward in order and backward in
the reverse order. -/
structure IsList (mem : Memory) (l : GuestList) (xs : List Ptr) : Prop where
  ring : IsRing (readLinks mem) l.head (xs.map l.linksAddr)
  forEach {σ : Type} (fn : Ptr → σ → σ × Bool) (s : σ) {fuel : ℕ} : xs.length < fuel →
    l.forEach mem fn fuel s = some (visit fn xs s)
  forEachBack {σ : Type} (fn : Ptr → σ → σ × Bool) (s : σ) {fuel : ℕ} : xs.length < fuel →
    l.forEachBack mem fn fuel s = some (visit fn xs.reverse s)

variable {mem : Memory} {n : Ptr}

/-! ## What holds between two operations -/

structure Spread (entries : Entries) : Prop where
  fits {l : GuestList} {n : Ptr} : n ∈ nodes entries l → n.toNat + 16 ≤ 2 ^ 64
  apart {l l' : GuestList} {n n' : Ptr} : n ∈ nodes entries l → n' ∈ nodes entries l' → l = l' ∧ n = n' ∨ Apart n n'

structure WellFormed (s : State) : Prop where
  spread : Spread s.entries
  ring {l : GuestList} {xs : List Ptr} : s.entries l = some xs → IsRing (readLinks s.mem) l.head (xs.map l.linksAddr)

section

variable {entries : Entries} {l l' : GuestList} {xs : List Ptr} {n' : Ptr}

theorem nodes_of_some (h : entries l = some xs) : nodes entries l = l.head :: xs.map l.linksAddr := by
  rw [nodes, h]

theorem nodes_edited_of_not_mem {ls : List GuestList} (f : Option (List Ptr) → Option (List Ptr)) (h : l ∉ ls) :
    nodes (edited ls f entries) l = nodes entries l := by
  rw [nodes, edited, if_neg h, nodes]

theorem Spread.clear (h : Spread entries) (hn : n ∈ nodes entries l) (hn' : n' ∈ nodes entries l') : Clear n n' :=
  (h.apart hn hn').imp_left And.right

theorem Spread.apart_of_ne (h : Spread entries) (hl : l ≠ l') (hn : n ∈ nodes entries l) (hn' : n' ∈ nodes entries l') :
    Apart n n' :=
  (h.apart hn hn').resolve_left fun heq => hl heq.1

/-- The links of some lists remain in use, and others come in where there are none. -/
theorem Spread.extend (h : Spread entries) {entries' : Entries} (kept : GuestList → Prop) (new : GuestList → Ptr → Prop)
    (hnodes : ∀ l n, n ∈ nodes entries' l → kept l ∧ n ∈ nodes entries l ∨ new l n)
    (hfits : ∀ l n, new l n → n.toNat + 16 ≤ 2 ^ 64)
    (hold : ∀ l n, new l n → ∀ l' n', kept l' → n' ∈ nodes entries l' → Apart n' n)
    (hnew : ∀ l n l' n', new l n → new l' n' → l = l' ∧ n = n' ∨ Apart n n') : Spread entries' where
  fits := by
    intro l n hn
    rcases hnodes l n hn with ⟨-, hn⟩ | hn
    · exact h.fits hn
    · exact hfits l n hn
  apart := by
    intro l l' n n' hn hn'
    rcases hnodes l n hn with ⟨hkept, hn⟩ | hn <;> rcases hnodes l' n' hn' with ⟨hkept', hn'⟩ | hn'
    · exact h.apart hn hn'
    · exact .inr (hold l' n' hn' l n hkept hn)
    · exact .inr (hold l n hn l' n' hkept' hn').symm
    · exact hnew l n l' n' hn hn'

theorem Spread.of_subset (h : Spread entries) {entries' : Entries}
    (hnodes : ∀ l n, n ∈ nodes entries' l → n ∈ nodes entries l) : Spread entries' where
  fits hn := h.fits (hnodes _ _ hn)
  apart hn hn' := h.apart (hnodes _ _ hn) (hnodes _ _ hn')

end

/-- What an operation makes of some lists, and that it leaves the others alone. -/
structure Effect (s : State) (mem' : Memory) (ls : List GuestList) (f : Option (List Ptr) → Option (List Ptr)) :
    Prop where
  wellFormed : WellFormed ⟨mem', edited ls f s.entries⟩
  frame {l : GuestList} : l ∉ ls → ∀ n ∈ nodes s.entries l, readLinks mem' n = readLinks s.mem n

section Effects

variable {s : State} {mem' mem'' : Memory} {l : GuestList} {ls : List GuestList} {xs : List Ptr}
  {f : Option (List Ptr) → Option (List Ptr)}

theorem WellFormed.effect (h : WellFormed s) (hspread : Spread (edited ls f s.entries))
    (hframe : ∀ l ∉ ls, ∀ n ∈ nodes s.entries l, readLinks mem' n = readLinks s.mem n)
    (hring : ∀ l ∈ ls, ∀ xs, f (s.entries l) = some xs → IsRing (readLinks mem') l.head (xs.map l.linksAddr)) :
    Effect s mem' ls f where
  frame hl := hframe _ hl
  wellFormed :=
    { spread := hspread
      ring := by
        intro l xs (hxs : edited ls f s.entries l = some xs)
        by_cases hl : l ∈ ls
        · exact hring l hl xs (by rwa [edited, if_pos hl] at hxs)
        · have hxs' : s.entries l = some xs := by rwa [edited, if_neg hl] at hxs
          refine (h.ring hxs').congr fun n hn => hframe l hl n ?_
          rwa [nodes_of_some hxs'] }

theorem Effect.comp (h : Effect s mem' [l] f) (h' : Effect ⟨mem', edited [l] f s.entries⟩ mem'' ls f) (hl : l ∉ ls) :
    Effect s mem'' (l :: ls) f where
  wellFormed := by
    have hboth : edited ls f (edited [l] f s.entries) = edited (l :: ls) f s.entries := by
      funext l'
      by_cases hll : l' = l
      · subst hll
        simp [edited, hl]
      · simp [edited, hll]
    exact hboth ▸ h'.wellFormed
  frame := by
    intro l' hl' n hn
    obtain ⟨hne, hls⟩ := List.ne_and_not_mem_of_not_mem_cons hl'
    have hone : l' ∉ [l] := by simpa using hne
    rw [h'.frame hls n (by rwa [nodes_edited_of_not_mem f hone]), h.frame hone n hn]

theorem WellFormed.head_mem (hxs : s.entries l = some xs) : l.head ∈ nodes s.entries l := by
  rw [nodes_of_some hxs]
  exact List.mem_cons_self

theorem WellFormed.tail_mem (h : WellFormed s) (hxs : s.entries l = some xs) :
    (readLinks s.mem l.head).blink ∈ nodes s.entries l := by
  rw [nodes_of_some hxs]
  exact (h.ring hxs).blink_mem

theorem WellFormed.write (h : WellFormed s) (f : Option (List Ptr) → Option (List Ptr))
    (hmem : ∀ l, ∀ n ∈ nodes s.entries l, readLinks mem' n = readLinks s.mem n) : Effect s mem' [] f :=
  h.effect h.spread (fun l _ => hmem l) (fun _ hl => absurd hl List.not_mem_nil)

theorem WellFormed.init (h : WellFormed s) (hfits : l.head.toNat + 16 ≤ 2 ^ 64)
    (happ : ∀ l' ≠ l, ∀ n ∈ nodes s.entries l', Apart n l.head) : Effect s (l.init s.mem) [l] fun _ => some [] := by
  refine h.effect ?_ (fun l' hl' n hn => ?_) fun l' hl' xs hxs => ?_
  · refine h.spread.extend (· ≠ l) (fun l' n => l' = l ∧ n = l.head) (fun l' n hn => ?_) ?_ ?_ ?_
    · by_cases hl : l' = l
      · subst hl
        refine .inr ⟨rfl, ?_⟩
        simpa [nodes, edited] using hn
      · exact .inl ⟨hl, by rwa [nodes_edited_of_not_mem _ (by simpa using hl)] at hn⟩
    · rintro l' n ⟨-, rfl⟩
      exact hfits
    · rintro l' n ⟨-, rfl⟩ l'' n' hkept hn'
      exact happ l'' hkept n' hn'
    · rintro l₁ n₁ l₂ n₂ ⟨rfl, rfl⟩ ⟨rfl, rfl⟩
      exact .inl ⟨rfl, rfl⟩
  · have hapart := happ l' (by simpa using hl') n hn
    rw [GuestList.init, readLinks_writeLinks _ (.inr hapart), Function.update_of_ne hapart.ne]
  · obtain rfl := List.mem_singleton.mp hl'
    obtain rfl := Option.some.inj hxs
    refine (isRing_init (readLinks s.mem) l'.head).congr fun n hn => ?_
    obtain rfl := List.mem_singleton.mp hn
    rw [GuestList.init, readLinks_writeLinks _ (.inl rfl), LinkRing.init]

/-- The links are pushed as on a store of links, into a place that was free. -/
theorem WellFormed.push (h : WellFormed s) {addr : Ptr} (hinit : (s.entries l).isSome)
    (hfree : s.Free (l.linksAddr addr).toNat 16)
    (hmem : ∀ n, (n = l.linksAddr addr ∨ ∃ l', n ∈ nodes s.entries l') →
      readLinks mem' n = LinkRing.pushBack (readLinks s.mem) l.head (l.linksAddr addr) n) :
    Effect s mem' [l] (Option.map (· ++ [addr])) := by
  obtain ⟨xs, hxs⟩ := Option.isSome_iff_exists.mp hinit
  have hapart : ∀ l', ∀ n ∈ nodes s.entries l', Apart n (l.linksAddr addr) := hfree.2
  have hhead := WellFormed.head_mem hxs
  have hxh : l.linksAddr addr ≠ l.head := (hapart l _ hhead).ne.symm
  refine h.effect ?_ (fun l' hl' n hn => ?_) fun l' hl' ys hys => ?_
  · refine h.spread.extend (fun _ => True) (fun l' n => l' = l ∧ n = l.linksAddr addr) (fun l' n hn => ?_) ?_ ?_ ?_
    · by_cases hl : l' = l
      · subst hl
        have hn' : (n = l'.head ∨ ∃ x ∈ xs, l'.linksAddr x = n) ∨ n = l'.linksAddr addr := by
          simpa [nodes, edited, hxs, or_assoc] using hn
        refine hn'.imp (fun hold => ⟨trivial, ?_⟩) fun hnew => ⟨rfl, hnew⟩
        rw [nodes_of_some hxs]
        simpa using hold
      · exact .inl ⟨trivial, by rwa [nodes_edited_of_not_mem _ (by simpa using hl)] at hn⟩
    · rintro l' n ⟨-, rfl⟩
      exact hfree.1
    · rintro l' n ⟨-, rfl⟩ l'' n' - hn'
      exact hapart l'' n' hn'
    · rintro l₁ n₁ l₂ n₂ ⟨rfl, rfl⟩ ⟨rfl, rfl⟩
      exact .inl ⟨rfl, rfl⟩
  · have hne : l' ≠ l := by simpa using hl'
    rw [hmem n (.inr ⟨l', hn⟩)]
    exact pushBack_of_ne hxh (hapart l' n hn).ne (h.spread.apart_of_ne hne hn hhead).ne
      (h.spread.apart_of_ne hne hn (h.tail_mem hxs)).ne
  · obtain rfl := List.mem_singleton.mp hl'
    have hys' : xs ++ [addr] = ys := by simpa [hxs] using hys
    have hfresh : l'.linksAddr addr ∉ l'.head :: xs.map l'.linksAddr := by
      rw [← nodes_of_some hxs]
      exact fun hn => (hapart l' _ hn).ne rfl
    rw [← hys', List.map_append, List.map_singleton]
    refine ((h.ring hxs).pushBack hfresh).congr fun n hn => hmem n ?_
    have hn' : n ∈ l'.head :: xs.map l'.linksAddr ∨ n = l'.linksAddr addr := by
      simpa [or_assoc] using hn
    rcases hn' with hn' | hn'
    · exact .inr ⟨l', by rwa [nodes_of_some hxs]⟩
    · exact .inl hn'

theorem WellFormed.pushBackAt (h : WellFormed s) {entry : Record l.recordSize} {addr : Ptr}
    (hinit : (s.entries l).isSome) (hroom : addr.toNat + l.recordSize ≤ 2 ^ 64)
    (hfree : s.Free (l.linksAddr addr).toNat 16) (hkeep : s.Keeps addr.toNat entry.1) :
    Effect s (l.pushBackAt s.mem entry addr) [l] (Option.map (· ++ [addr])) := by
  obtain ⟨xs, hxs⟩ := Option.isSome_iff_exists.mp hinit
  have hhead := WellFormed.head_mem hxs
  have htail := h.tail_mem hxs
  refine h.push hinit hfree fun n hn => ?_
  rcases hn with rfl | ⟨l', hn⟩
  · exact readLinks_pushBackAt hroom (.inr (Apart.symm (hfree.2 l _ hhead))) (.inr (Apart.symm (hfree.2 l _ htail)))
      (.inl rfl)
  · exact readLinks_pushBackAt hroom (h.spread.clear hn hhead) (h.spread.clear hn htail)
      (.inr ⟨hfree.2 l' n hn, hkeep l' n hn⟩)

theorem WellFormed.remove (h : WellFormed s) {addr : Ptr} (hxs : s.entries l = some xs) (hmem : addr ∈ xs) :
    Effect s (l.remove s.mem addr) [l] (Option.map (·.erase addr)) := by
  have hnodes := nodes_of_some hxs
  obtain ⟨hflink, hblink⟩ := (h.ring hxs).neighbours_mem (List.mem_map_of_mem hmem)
  rw [← hnodes] at hflink hblink
  have hread : ∀ l', ∀ n ∈ nodes s.entries l',
      readLinks (l.remove s.mem addr) n = LinkRing.remove (readLinks s.mem) (l.linksAddr addr) n := fun l' n hn =>
    readLinks_remove (h.spread.fits hflink) (h.spread.clear hn hflink) (h.spread.clear hn hblink)
  refine h.effect ?_ (fun l' hl' n hn => ?_) fun l' hl' ys hys => ?_
  · refine h.spread.of_subset fun l' n hn => ?_
    by_cases hl : l' = l
    · subst hl
      have hn' : n = l'.head ∨ ∃ x ∈ xs.erase addr, l'.linksAddr x = n := by
        simpa [nodes, edited, hxs] using hn
      rw [hnodes]
      rcases hn' with rfl | ⟨x, hx, rfl⟩
      · exact List.mem_cons_self
      · exact List.mem_cons_of_mem _ (List.mem_map_of_mem (List.mem_of_mem_erase hx))
    · rwa [nodes_edited_of_not_mem _ (by simpa using hl)] at hn
  · have hne : l' ≠ l := by simpa using hl'
    rw [hread l' n hn]
    exact remove_of_ne (h.spread.apart_of_ne hne hn hflink).ne (h.spread.apart_of_ne hne hn hblink).ne
  · obtain rfl := List.mem_singleton.mp hl'
    have hys' : xs.erase addr = ys := by simpa [hxs] using hys
    obtain ⟨front, back, -, hsplit, herase⟩ := List.exists_erase_eq hmem
    have hring := h.ring hxs
    rw [hsplit, List.map_append, List.map_cons] at hring
    rw [← hys', herase, List.map_append]
    refine hring.remove.congr fun n hn => hread l' n ?_
    have hsub : (front ++ back).Sublist (front ++ addr :: back) := (List.sublist_cons_self addr back).append_left front
    rw [← List.map_append] at hn
    rw [hnodes, hsplit]
    exact ((hsub.map l'.linksAddr).cons_cons l'.head).subset hn

end Effects

/-! ## The loader -/

section Loader

variable {ldr addr : Ptr} {o o' : Order} {mem' : Memory}

theorem Order.offset_apart (h : o ≠ o') : o.offset + 16 ≤ o'.offset ∨ o'.offset + 16 ≤ o.offset := by
  cases o <;> cases o' <;> simp [Order.offset] at h ⊢

theorem Order.head_inside (o : Order) : o.offset + 0x10 + 16 ≤ sizeOfLdrData := by
  cases o <;> decide

theorem Order.list_injective (ldr : Ptr) : Function.Injective (Order.list ldr) := by
  intro o o' h
  by_contra hne
  have hoffset : o.offset = o'.offset := congrArg GuestList.linksOffset h
  rcases Order.offset_apart hne with hlt | hlt <;> omega

theorem mem_orders (o : Order) : o ∈ orders true := by
  cases o <;> decide

theorem nodup_orders (inInitOrder : Bool) : (orders inInitOrder).Nodup := by
  cases inInitOrder <;> decide

theorem readLinks_setLinks {size offset : ℕ} (hinside : offset + 16 ≤ size) (hroom : addr.toNat + size ≤ 2 ^ 64)
    (entry : Record size) (links : Links Ptr) (h : Clear n (addr + BitVec.ofNat 64 offset)) :
    readLinks (writeMem mem addr.toNat (setLinks entry offset links).1) n =
      Function.update (readLinks (writeMem mem addr.toNat entry.1)) (addr + BitVec.ofNat 64 offset) links n := by
  rw [writeMem_setLinks hinside mem hroom, readLinks_writeLinks _ h]

/-- What is read inside of a record that is written does not depend on what was there. -/
theorem readLinks_writeMem_of_in {va : ℕ} {bytes : List UInt8} (h : va ≤ n.toNat ∧ n.toNat + 16 ≤ va + bytes.length) :
    readLinks (writeMem mem va bytes) n = readLinks (writeMem mem' va bytes) n := by
  refine readLinks_congr fun b hle hlt => ?_
  obtain ⟨i, rfl⟩ := Nat.exists_eq_add_of_le (h.1.trans hle)
  rw [writeMem_add (by omega), writeMem_add (by omega)]

theorem toNat_head (hroom : ldr.toNat + sizeOfLdrData ≤ 2 ^ 64) (o : Order) :
    (o.list ldr).head.toNat = ldr.toNat + (o.offset + 0x10) :=
  toNat_add_offset o.head_inside hroom

theorem head_apart (hroom : ldr.toNat + sizeOfLdrData ≤ 2 ^ 64) (h : o ≠ o') :
    Apart (o.list ldr).head (o'.list ldr).head := by
  rw [Apart, toNat_head hroom, toNat_head hroom]
  rcases Order.offset_apart h with h | h <;> omega

theorem readLinks_ldrData (hroom : ldr.toNat + sizeOfLdrData ≤ 2 ^ 64) (os : List Order) (data : Record sizeOfLdrData)
    (o : Order) :
    readLinks
        (writeMem mem ldr.toNat (os.foldl
          (fun data o => setLinks data (o.offset + 0x10) ⟨(o.list ldr).head, (o.list ldr).head⟩) data).1)
        (o.list ldr).head =
      if o ∈ os then ⟨(o.list ldr).head, (o.list ldr).head⟩
      else readLinks (writeMem mem ldr.toNat data.1) (o.list ldr).head := by
  induction os generalizing data with
  | nil => rfl
  | cons o' os ih =>
    rw [List.foldl_cons, ih]
    by_cases hos : o ∈ os
    · rw [if_pos hos, if_pos (List.mem_cons_of_mem _ hos)]
    · rw [if_neg hos]
      by_cases ho : o = o'
      · subst ho
        rw [if_pos List.mem_cons_self]
        exact (readLinks_setLinks o.head_inside hroom data _ (.inl rfl)).trans (Function.update_self ..)
      · have hapart : Apart (o.list ldr).head (o'.list ldr).head := head_apart hroom ho
        rw [if_neg (by simp [ho, hos])]
        exact (readLinks_setLinks o'.head_inside hroom data _ (.inr hapart)).trans (Function.update_of_ne hapart.ne ..)

theorem WellFormed.newModuleList {s : State} (h : WellFormed s) (hroom : ldr.toNat + sizeOfLdrData ≤ 2 ^ 64)
    (hfree : ∀ l, (∀ o, l ≠ Order.list ldr o) → ∀ n ∈ nodes s.entries l,
      n.toNat + 16 ≤ ldr.toNat ∨ ldr.toNat + sizeOfLdrData ≤ n.toNat) :
    Effect s (newModuleList ldr s.mem) ((orders true).map (Order.list ldr)) fun _ => some [] := by
  have hother : ∀ l, l ∉ (orders true).map (Order.list ldr) → ∀ o, l ≠ Order.list ldr o := by
    rintro l hl o rfl
    exact hl (List.mem_map_of_mem (mem_orders o))
  refine h.effect ?_ (fun l hl n hn => ?_) fun l hl xs hxs => ?_
  · refine h.spread.extend (fun l => ∀ o, l ≠ Order.list ldr o) (fun l n => ∃ o, l = Order.list ldr o ∧ n = l.head)
      (fun l n hn => ?_) ?_ ?_ ?_
    · by_cases hl : l ∈ (orders true).map (Order.list ldr)
      · obtain ⟨o, -, rfl⟩ := List.mem_map.mp hl
        refine .inr ⟨o, rfl, ?_⟩
        rw [nodes, edited, if_pos hl] at hn
        simpa using hn
      · exact .inl ⟨hother l hl, by rwa [nodes_edited_of_not_mem _ hl] at hn⟩
    · rintro l n ⟨o, rfl, rfl⟩
      have hinside := o.head_inside
      rw [toNat_head hroom]
      omega
    · rintro l n ⟨o, rfl, rfl⟩ l' n' hkept hn'
      have hinside := o.head_inside
      have hout := hfree l' hkept n' hn'
      rw [Apart, toNat_head hroom]
      omega
    · rintro l n l' n' ⟨o, rfl, rfl⟩ ⟨o', rfl, rfl⟩
      by_cases ho : o = o'
      · exact .inl ⟨ho ▸ rfl, ho ▸ rfl⟩
      · exact .inr (head_apart hroom ho)
  · have hout := hfree l (hother l hl) n hn
    exact readLinks_writeMem_of_out (by rwa [Record.length_val])
  · obtain ⟨o, -, rfl⟩ := List.mem_map.mp hl
    obtain rfl := Option.some.inj hxs
    refine (isRing_init (readLinks s.mem) (o.list ldr).head).congr fun n hn => ?_
    obtain rfl := List.mem_singleton.mp hn
    rw [GuestLists.newModuleList, readLinks_ldrData hroom, if_pos (mem_orders o), LinkRing.init, Function.update_self]

def Outside (addr n : Ptr) : Prop := n.toNat + 16 ≤ addr.toNat ∨ addr.toNat + sizeOfTableEntry ≤ n.toNat

theorem toNat_links (hroom : addr.toNat + sizeOfTableEntry ≤ 2 ^ 64) (o : Order) :
    ((o.list ldr).linksAddr addr).toNat = addr.toNat + o.offset :=
  (o.list ldr).toNat_linksAddr hroom

/-- The links that an entry has for other lists are apart from those for one. -/
theorem links_apart (hroom : addr.toNat + sizeOfTableEntry ≤ 2 ^ 64) (h : o' ≠ o) :
    Apart ((o'.list ldr).linksAddr addr) ((o.list ldr).linksAddr addr) := by
  rw [Apart, toNat_links hroom, toNat_links hroom]
  rcases Order.offset_apart h with h | h <;> omega

theorem Outside.apart (hroom : addr.toNat + sizeOfTableEntry ≤ 2 ^ 64) (h : Outside addr n) (o : Order) :
    Apart n ((o.list ldr).linksAddr addr) := by
  have hinside : o.offset + 16 ≤ sizeOfTableEntry := (o.list ldr).inside
  rw [Apart, toNat_links hroom]
  rcases h with h | h
  · exact .inl (by omega)
  · exact .inr (by omega)

theorem Outside.readLinks (h : Outside addr n) (entry : Record sizeOfTableEntry) :
    readLinks (writeMem mem addr.toNat entry.1) n = readLinks mem n :=
  readLinks_writeMem_of_out (by rwa [Record.length_val])

/-- An entry, as far as it is filled in, is written to the memory in which it was inserted into some of the lists: the
next list comes to that as by `push_back`. -/
theorem WellFormed.insertModule {r : Memory × Record sizeOfTableEntry} {entries : Entries}
    (h : WellFormed ⟨writeMem r.1 addr.toNat r.2.1, entries⟩) (hroom : addr.toNat + sizeOfTableEntry ≤ 2 ^ 64)
    (hinit : (entries (o.list ldr)).isSome)
    (hnodes : ∀ l, ∀ n ∈ nodes entries l,
      Outside addr n ∨ ∃ o' ≠ o, l = o'.list ldr ∧ n = (o'.list ldr).linksAddr addr) :
    Effect ⟨writeMem r.1 addr.toNat r.2.1, entries⟩
      (writeMem (insertModule ldr addr r o).1 addr.toNat (insertModule ldr addr r o).2.1) [o.list ldr]
      (Option.map (· ++ [addr])) := by
  obtain ⟨xs, hxs⟩ := Option.isSome_iff_exists.mp hinit
  have hinside : o.offset + 16 ≤ sizeOfTableEntry := (o.list ldr).inside
  have hhead := WellFormed.head_mem (s := ⟨writeMem r.1 addr.toNat r.2.1, entries⟩) hxs
  have htail := h.tail_mem hxs
  have hown : ∀ n ∈ nodes entries (o.list ldr), Outside addr n := by
    intro n hn
    rcases hnodes _ n hn with hout | ⟨o', ho', hl, -⟩
    · exact hout
    · exact absurd (Order.list_injective ldr hl).symm ho'
  have hheadLinks : GuestLists.readLinks (writeMem r.1 addr.toNat r.2.1) (o.list ldr).head =
      GuestLists.readLinks r.1 (o.list ldr).head := (hown _ hhead).readLinks r.2
  have hxh : (o.list ldr).linksAddr addr ≠ (o.list ldr).head := ((hown _ hhead).apart hroom o).ne.symm
  have htailApart : Apart _ ((o.list ldr).linksAddr addr) := (hown _ htail).apart hroom o
  have hxt := htailApart.ne.symm
  have hapart : ∀ l, ∀ n ∈ nodes entries l, Apart n ((o.list ldr).linksAddr addr) := by
    intro l n hn
    rcases hnodes l n hn with hout | ⟨o', ho', -, rfl⟩
    · exact hout.apart hroom o
    · exact links_apart hroom ho'
  refine h.push hinit ⟨?_, hapart⟩ fun n hn => ?_
  · rw [toNat_links hroom]
    omega
  · rcases hn with rfl | ⟨l', hn⟩
    · rw [pushBack_eq hxh, linkTail_of_ne hxh (by rwa [Function.update_of_ne hxh.symm]), Function.update_self,
        hheadLinks]
      exact (readLinks_setLinks hinside hroom r.2 _ (.inl rfl)).trans (Function.update_self ..)
    · rcases hnodes l' n hn with hout | ⟨o', ho', rfl, rfl⟩
      · have hinserted : GuestLists.readLinks (GuestLists.insertModule ldr addr r o).1 n =
            linkTail (GuestLists.readLinks r.1) (o.list ldr).head ((o.list ldr).linksAddr addr) n :=
          readLinks_insertTail (h.spread.fits hhead) (h.spread.clear hn hhead)
            (hheadLinks ▸ h.spread.clear hn htail)
        rw [hout.readLinks, hinserted, pushBack_eq hxh]
        refine linkTail_congr ?_ ?_
        · rw [Function.update_of_ne hxh.symm, hheadLinks]
        · rw [Function.update_of_ne (hout.apart hroom o).ne, hout.readLinks]
      · -- the links of the entry for a list that came before are in the bytes already
        have hother : Apart ((o'.list ldr).linksAddr addr) ((o.list ldr).linksAddr addr) := links_apart hroom ho'
        have hlists : o'.list ldr ≠ o.list ldr := fun heq => ho' (Order.list_injective ldr heq)
        rw [pushBack_of_ne hxh hother.ne (h.spread.apart_of_ne hlists hn hhead).ne
          (h.spread.apart_of_ne hlists hn htail).ne]
        refine (readLinks_setLinks hinside hroom r.2 _ (.inr hother)).trans ?_
        refine (Function.update_of_ne hother.ne ..).trans (readLinks_writeMem_of_in ?_)
        have hinside' : o'.offset + 16 ≤ sizeOfTableEntry := (o'.list ldr).inside
        rw [toNat_links hroom, Record.length_val]
        omega

theorem WellFormed.insertModules {os : List Order} (hnodup : os.Nodup) {r : Memory × Record sizeOfTableEntry}
    {entries : Entries} (h : WellFormed ⟨writeMem r.1 addr.toNat r.2.1, entries⟩)
    (hroom : addr.toNat + sizeOfTableEntry ≤ 2 ^ 64) (hinit : ∀ o, (entries (Order.list ldr o)).isSome)
    (hnodes : ∀ l, ∀ n ∈ nodes entries l,
      Outside addr n ∨ ∃ o ∉ os, l = o.list ldr ∧ n = (o.list ldr).linksAddr addr) :
    Effect ⟨writeMem r.1 addr.toNat r.2.1, entries⟩
      (writeMem (os.foldl (GuestLists.insertModule ldr addr) r).1 addr.toNat
        (os.foldl (GuestLists.insertModule ldr addr) r).2.1)
      (os.map (Order.list ldr)) (Option.map (· ++ [addr])) := by
  induction os generalizing r entries with
  | nil => exact h.write _ fun _ _ _ => rfl
  | cons o os ih =>
    obtain ⟨hos, hnodup⟩ := List.nodup_cons.mp hnodup
    have hone := h.insertModule hroom (hinit o) fun l n hn => (hnodes l n hn).imp_right fun ⟨o', ho', hrest⟩ =>
      ⟨o', (List.ne_and_not_mem_of_not_mem_cons ho').1, hrest⟩
    have hlist : o.list ldr ∉ os.map (Order.list ldr) := by
      rwa [List.mem_map_of_injective (Order.list_injective ldr)]
    refine hone.comp (ih hnodup hone.wellFormed (fun o' => ?_) fun l n hn => ?_) hlist
    · rw [edited]
      split_ifs
      · rw [Option.isSome_map, hinit]
      · exact hinit o'
    · obtain ⟨xs, hxs⟩ := Option.isSome_iff_exists.mp (hinit o)
      by_cases hl : l = o.list ldr
      · subst hl
        have hn' : n ∈ nodes entries (o.list ldr) ∨ n = (o.list ldr).linksAddr addr := by
          rw [nodes_of_some hxs]
          simpa [nodes, edited, hxs, or_assoc] using hn
        rcases hn' with hn' | rfl
        · refine (hnodes _ n hn').imp_right fun ⟨o', ho', hrest⟩ => ?_
          exact ⟨o', (List.ne_and_not_mem_of_not_mem_cons ho').2, hrest⟩
        · exact .inr ⟨o, hos, rfl, rfl⟩
      · rw [nodes_edited_of_not_mem _ (by simpa using hl)] at hn
        refine (hnodes l n hn).imp_right fun ⟨o', ho', hrest⟩ => ?_
        exact ⟨o', (List.ne_and_not_mem_of_not_mem_cons ho').2, hrest⟩

theorem WellFormed.addModule {s : State} (h : WellFormed s) {entry : Record sizeOfTableEntry} (inInitOrder : Bool)
    (hinit : ∀ o, (s.entries (Order.list ldr o)).isSome) (hfree : s.Free addr.toNat sizeOfTableEntry) :
    Effect s (addModule ldr s.mem entry addr inInitOrder) ((orders inInitOrder).map (Order.list ldr))
      (Option.map (· ++ [addr])) := by
  have hout : ∀ l, ∀ n ∈ nodes s.entries l, Outside addr n := hfree.2
  -- the entry may as well be written before it is inserted
  have hfirst : WellFormed ⟨writeMem s.mem addr.toNat entry.1, s.entries⟩ :=
    (h.write id fun l n hn => (hout l n hn).readLinks entry).wellFormed
  have hrest := hfirst.insertModules (nodup_orders inInitOrder) (r := (s.mem, entry)) hfree.1 hinit
    fun l n hn => Or.inl (hout l n hn)
  refine ⟨hrest.wellFormed, fun hl n hn => ?_⟩
  exact (hrest.frame hl n hn).trans ((hout _ n hn).readLinks entry)

end Loader

end Kernemul.GuestLists
