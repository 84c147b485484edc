import Kernemul.Lib.Run
import Kernemul.Win.GuestLists.Effects

/-!
# Runs of list operations

After any operations on any lists, each list has the records that were pushed and not removed, in the order in which
they came. A push with contents that are given writes the whole record, with what stands there for other lists.
-/

namespace Kernemul.GuestLists

open ByteMemory LinkRing

variable {mem : Memory} {n a : Ptr}

/-! ## Every run -/

section Runs

variable {s s' : State} {e : Event} {events : List Event} {l : GuestList} {xs : List Ptr}

theorem State.Free.links (h : s.Free a.toNat l.recordSize) : s.Free (l.linksAddr a).toNat 16 := by
  have hinside := l.inside
  have hat := l.toNat_linksAddr h.1
  refine ⟨?_, fun l' n hn => ?_⟩
  · have hroom := h.1
    omega
  · rcases h.2 l' n hn with hout | hout
    · exact .inl (by omega)
    · exact .inr (by omega)

theorem State.Free.keeps {size va : ℕ} (h : s.Free va size) (entry : Record size) : s.Keeps va entry.1 := fun l' n hn =>
  readLinks_writeMem_of_out (by rw [Record.length_val]; exact h.2 l' n hn)

theorem State.keeps_readRecord (s : State) (addr : Ptr) (size : ℕ) :
    s.Keeps addr.toNat (readRecord s.mem addr size).1 := by
  intro l n _
  rw [readRecord, writeMem_readMem]

theorem WellFormed.step (h : WellFormed s) (hplaced : Placed s e) (hfaithful : Faithful s e) :
    Effect s (e.exec s.mem) e.lists e.edit := by
  cases e with
  | init l => exact h.init hplaced.1 hplaced.2
  | pushBack l entry addr =>
    obtain ⟨hinit, hfree⟩ : (s.entries l).isSome ∧ s.Free addr.toNat l.recordSize := hplaced
    have heffect : Effect s (l.pushBackAt s.mem entry addr) [l] (Option.map (· ++ [addr])) :=
      h.pushBackAt hinit hfree.1 hfree.links (hfree.keeps entry)
    exact heffect
  | pushBackObject l addr =>
    obtain ⟨hinit, hroom, hfree⟩ := hplaced
    have heffect : Effect s (l.pushBackObject s.mem addr) [l] (Option.map (· ++ [addr])) :=
      h.pushBackAt hinit hroom hfree (s.keeps_readRecord addr l.recordSize)
    exact heffect
  | pushBackAt l entry addr =>
    obtain ⟨hinit, hroom, hfree⟩ := hplaced
    have heffect : Effect s (l.pushBackAt s.mem entry addr) [l] (Option.map (· ++ [addr])) :=
      h.pushBackAt hinit hroom hfree hfaithful
    exact heffect
  | remove l addr =>
    obtain ⟨xs, hxs, hmem⟩ := hplaced
    exact h.remove hxs hmem
  | newModuleList ldr => exact h.newModuleList hplaced.1 hplaced.2
  | addModule ldr entry addr inInitOrder => exact h.addModule inInitOrder hplaced.1 hplaced.2
  | write va bytes => exact h.write id hplaced

theorem wellFormed_start (mem : Memory) : WellFormed { mem } where
  spread := ⟨fun hn => absurd hn List.not_mem_nil, fun hn => absurd hn List.not_mem_nil⟩
  ring hxs := nomatch hxs

theorem WellFormed.of_steps (h : WellFormed s)
    (hsteps : Run.Steps GuestLists.step (fun s e => Placed s e ∧ Faithful s e) s events s') : WellFormed s' := by
  refine hsteps.invariant (P := WellFormed) (fun s e s' hwf hok hstep => ?_) h
  obtain rfl := Option.some.inj hstep
  exact (hwf.step hok.1 hok.2).wellFormed

theorem linksAddr_sub (l : GuestList) (addr : Ptr) : l.linksAddr addr - BitVec.ofNat 64 l.linksOffset = addr :=
  BitVec.add_sub_cancel ..

theorem WellFormed.isList (h : WellFormed s) (hxs : s.entries l = some xs) : IsList s.mem l xs where
  ring := h.ring hxs
  forEach fn t fuel hfuel := by
    rw [GuestList.forEach, (h.ring hxs).traverse _ t (by rwa [List.length_map]), visit_map]
    simp only [linksAddr_sub]
  forEachBack fn t fuel hfuel := by
    rw [GuestList.forEachBack, (h.ring hxs).traverse_back _ t (by rwa [List.length_map]), ← List.map_reverse, visit_map]
    simp only [linksAddr_sub]

theorem visit_count (xs : List Ptr) (n : ℕ) : visit (fun _ n => (n + 1, true)) xs n = n + xs.length := by
  induction xs generalizing n with
  | nil => rfl
  | cons x xs ih => rw [visit, if_pos rfl, ih, List.length_cons, Nat.add_assoc, Nat.add_comm 1]

theorem IsList.size_eq (h : IsList mem l xs) {fuel : ℕ} (hfuel : xs.length < fuel) :
    l.size mem fuel = some xs.length := by
  rw [GuestList.size, h.forEach _ 0 hfuel, visit_count, Nat.zero_add]

theorem IsList.empty_iff (h : IsList mem l xs) : l.empty mem ↔ xs = [] := by
  rw [GuestList.empty, beq_iff_eq, h.ring.flink_eq_head_iff, List.map_eq_nil_iff]

/-- In every run every list that was initialized is a ring with the records that were pushed and not removed, and the
next operation leaves the links of all lists that it is not about. -/
theorem lists_wellFormed (mem : Memory)
    (h : Run.Steps step (fun s e => Placed s e ∧ Faithful s e) { mem } events s) :
    (∀ l xs, s.entries l = some xs → IsList s.mem l xs) ∧
    ∀ e s', Placed s e → Faithful s e → step s e = some s' → ∀ l ∉ e.lists, ∀ n ∈ nodes s.entries l,
      readLinks s'.mem n = readLinks s.mem n := by
  have hwf : WellFormed s := (wellFormed_start mem).of_steps h
  refine ⟨fun l xs hxs => hwf.isList hxs, fun e s' hplaced hfaithful hstep l hl => ?_⟩
  obtain rfl := Option.some.inj hstep
  exact (hwf.step hplaced hfaithful).frame hl

end Runs

/-! ## One record on two lists -/

def byFirst : GuestList := ⟨0x1000, 0, 32, by decide⟩

def bySecond : GuestList := ⟨0x2000, 16, 32, by decide⟩

def zeros : Record 32 := ⟨List.replicate 32 0, List.length_replicate⟩

def State.after (s : State) (events : List Event) : State :=
  events.foldl (fun s e => ⟨e.exec s.mem, e.spec s.entries⟩) s

def blank : State := { mem := fun _ => 0 }

def onFirst : List Event := [.init byFirst, .init bySecond, .pushBack byFirst zeros 0x3000]

theorem entries_after (s : State) {events : List Event} {l : GuestList} (h : ∀ e ∈ events, l ∉ e.lists) :
    (s.after events).entries l = s.entries l := by
  induction events generalizing s with
  | nil => rfl
  | cons e events ih =>
    refine (ih _ fun e' he' => h e' (List.mem_cons_of_mem e he')).trans ?_
    exact if_neg (h e List.mem_cons_self)

theorem nodes_after {events : List Event} (hlists : ∀ e ∈ events, ∀ l ∈ e.lists, l = byFirst ∨ l = bySecond)
    {ns ns' : List Ptr} (hfirst : nodes (blank.after events).entries byFirst = ns)
    (hsecond : nodes (blank.after events).entries bySecond = ns') {l : GuestList}
    (hn : n ∈ nodes (blank.after events).entries l) : n ∈ ns ++ ns' := by
  rw [List.mem_append, ← hfirst, ← hsecond]
  by_cases hl : l = byFirst ∨ l = bySecond
  · rcases hl with rfl | rfl
    · exact .inl hn
    · exact .inr hn
  · rw [nodes, entries_after blank fun e he hmem => hl (hlists e he l hmem)] at hn
    exact absurd hn List.not_mem_nil

theorem steps_onFirst :
    Run.Steps step (fun s e => Placed s e ∧ Faithful s e) blank onFirst (blank.after onFirst) := by
  have hfirst : ∀ l, ∀ n ∈ nodes (blank.after [.init byFirst]).entries l, Apart n 0x2000 := by
    intro l n hn
    have hn' : n ∈ [0x1000] ++ [] :=
      nodes_after (by simp [Event.lists]) (by decide +kernel) (by decide +kernel) hn
    obtain rfl : n = 0x1000 := by simpa using hn'
    decide
  have hboth : ∀ l, ∀ n ∈ nodes (blank.after [.init byFirst, .init bySecond]).entries l,
      n.toNat + 16 ≤ 0x3000 ∨ 0x3020 ≤ n.toNat := by
    intro l n hn
    have hn' : n ∈ [0x1000] ++ [0x2000] :=
      nodes_after (by simp [Event.lists]) (by decide +kernel) (by decide +kernel) hn
    obtain rfl | rfl : n = 0x1000 ∨ n = 0x2000 := by simpa using hn'
    · decide
    · decide
  refine .cons ⟨⟨by decide, fun l' _ n hn => absurd hn List.not_mem_nil⟩, trivial⟩ rfl ?_
  refine .cons ⟨⟨by decide, fun l' _ => hfirst l'⟩, trivial⟩ rfl ?_
  exact .cons ⟨⟨by decide, by decide, hboth⟩, trivial⟩ rfl (.nil _)

theorem free_bySecond :
    ((blank.after onFirst).entries bySecond).isSome ∧ (0x3000 : Ptr).toNat + 32 ≤ 2 ^ 64 ∧
      (blank.after onFirst).Free (bySecond.linksAddr 0x3000).toNat 16 := by
  have hnodes : ∀ l, ∀ n ∈ nodes (blank.after onFirst).entries l, n.toNat + 16 ≤ 0x3010 ∨ 0x3020 ≤ n.toNat := by
    intro l n hn
    have hn' : n ∈ [0x1000, 0x3000] ++ [0x2000] :=
      nodes_after (by simp [onFirst, Event.lists]) (by decide +kernel) (by decide +kernel) hn
    obtain rfl | rfl | rfl : n = 0x1000 ∨ n = 0x3000 ∨ n = 0x2000 := by simpa using hn'
    · decide
    · decide
    · decide
  exact ⟨by decide +kernel, by decide, by decide, hnodes⟩

/-- The record is then pushed on the second list where it stands. -/
theorem lists_wellFormed_both :
    IsList ((blank.after onFirst).after [.pushBackObject bySecond 0x3000]).mem byFirst [0x3000] ∧
      IsList ((blank.after onFirst).after [.pushBackObject bySecond 0x3000]).mem bySecond [0x3000] := by
  have hlast : Run.Steps step (fun s e => Placed s e ∧ Faithful s e) (blank.after onFirst)
      [.pushBackObject bySecond 0x3000] ((blank.after onFirst).after [.pushBackObject bySecond 0x3000]) :=
    .cons ⟨free_bySecond, trivial⟩ rfl (.nil _)
  have hall := (lists_wellFormed (fun _ => 0) (steps_onFirst.append hlast)).1
  exact ⟨hall byFirst [0x3000] (by decide +kernel), hall bySecond [0x3000] (by decide +kernel)⟩

/-- The record is pushed on the second list with contents from before it was pushed on the first. -/
theorem staleContents_not_wellFormed : ¬ ∀ (mem : Memory) (events : List Event) (s : State),
    Run.Steps step Placed { mem } events s → ∀ l xs, s.entries l = some xs → IsList s.mem l xs := by
  intro hall
  have hlast : Run.Steps step Placed (blank.after onFirst) [.pushBackAt bySecond zeros 0x3000]
      ((blank.after onFirst).after [.pushBackAt bySecond zeros 0x3000]) :=
    .cons free_bySecond rfl (.nil _)
  have hlist := hall (fun _ => 0) _ _ ((steps_onFirst.mono fun _ _ h => h.1).append hlast) byFirst [0x3000]
    (by decide +kernel)
  have hback :
      (readLinks ((blank.after onFirst).after [.pushBackAt bySecond zeros 0x3000]).mem 0x3000).flink = 0x1000 :=
    (List.isChain_cons_cons.mp (List.isChain_cons_cons.mp hlist.ring.linked).2).1.1
  have hlost : (readLinks ((blank.after onFirst).after [.pushBackAt bySecond zeros 0x3000]).mem 0x3000).flink = 0 := by
    decide +kernel
  exact absurd (hlost.symm.trans hback) (by decide)

end Kernemul.GuestLists
