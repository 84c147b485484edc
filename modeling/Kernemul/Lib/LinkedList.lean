import Mathlib.Data.List.Nodup
import Mathlib.Logic.Function.Basic

/-!
# Singly linked lists in memory

Every owner has the head of a list, every entry the link to the next one. An entry is pushed at a head (`push`), and
taken out by walking to the link that leads to it (`unlink`); one list is changed and the others are left alone.
-/

namespace LinkedList

variable {δ α : Type*}

@[ext] structure Memory (δ α : Type*) where
  head : δ → α
  next : α → α

inductive Link (δ α : Type*)
  | head (owner : δ)
  | next (entry : α)

def Memory.read (m : Memory δ α) : Link δ α → α
  | .head d => m.head d
  | .next a => m.next a

/-- The links from `a` on lead through the entries, in order, to `null`. -/
def Leads (m : Memory δ α) (null : α) : α → List α → Prop
  | a, [] => a = null
  | a, x :: l => a = x ∧ x ≠ null ∧ Leads m null (m.next x) l

variable {m m' : Memory δ α} {null : α}

theorem Leads.congr {a : α} {l : List α} (h : Leads m null a l) (hnext : ∀ x ∈ l, m'.next x = m.next x) :
    Leads m' null a l := by
  induction l generalizing a with
  | nil => exact h
  | cons x l ih =>
    obtain ⟨hx, hne, hl⟩ := h
    refine ⟨hx, hne, ?_⟩
    rw [hnext x List.mem_cons_self]
    exact ih hl fun y hy => hnext y (List.mem_cons_of_mem _ hy)

variable [DecidableEq δ] [DecidableEq α]

def Memory.write (m : Memory δ α) (v : α) : Link δ α → Memory δ α
  | .head d => { m with head := Function.update m.head d v }
  | .next a => { m with next := Function.update m.next a v }

def Memory.push (m : Memory δ α) (d : δ) (x : α) : Memory δ α where
  head := Function.update m.head d x
  next := Function.update m.next x (m.head d)

/-- Walks to the link that leads to `x`, and makes it lead past it; `none` when the walk takes too many steps. -/
def Memory.unlink (m : Memory δ α) (null x : α) : Nat → Link δ α → Option (Memory δ α)
  | 0, _ => none
  | fuel + 1, link =>
    if m.read link = null then some m
    else if m.read link = x then some (m.write (m.next x) link)
    else m.unlink null x fuel (.next (m.read link))

theorem Memory.read_write_self (m : Memory δ α) (v : α) (link : Link δ α) : (m.write v link).read link = v := by
  cases link <;> exact Function.update_self ..

theorem Memory.read_write_of_ne (m : Memory δ α) (v : α) {link link' : Link δ α} (h : link' ≠ link) :
    (m.write v link).read link' = m.read link' := by
  cases link <;> cases link' <;> simp_all [Memory.write, Memory.read]

/-! ## Pushing -/

theorem Leads.push {d : δ} {l : List α} (h : Leads m null (m.head d) l) {x : α} (hx : x ∉ l) (hne : x ≠ null) :
    Leads (m.push d x) null ((m.push d x).head d) (x :: l) := by
  refine ⟨Function.update_self .., hne, ?_⟩
  have hnext : (m.push d x).next x = m.head d := Function.update_self ..
  rw [hnext]
  refine h.congr fun y hy => Function.update_of_ne ?_ ..
  rintro rfl
  exact hx hy

theorem Leads.push_of_ne {d d' : δ} {l : List α} (h : Leads m null (m.head d') l) {x : α} (hx : x ∉ l)
    (hd : d' ≠ d) : Leads (m.push d x) null ((m.push d x).head d') l := by
  have hhead : (m.push d x).head d' = m.head d' := Function.update_of_ne hd ..
  rw [hhead]
  refine h.congr fun y hy => Function.update_of_ne ?_ ..
  rintro rfl
  exact hx hy

/-! ## Unlinking -/

/-- What unlinking an entry from the list at a link leaves: the list without it, and every other link as it was. -/
structure Unlinked (m : Memory δ α) (null x : α) (link : Link δ α) (l : List α) (m' : Memory δ α) : Prop where
  leads : Leads m' null (m'.read link) (l.erase x)
  rest : ∀ link', link' ≠ link → (∀ a ∈ l, link' ≠ .next a) → m'.read link' = m.read link'

theorem Leads.unlink {l : List α} {link : Link δ α} (h : Leads m null (m.read link) l) (hnodup : l.Nodup)
    (hout : ∀ a ∈ l, link ≠ .next a) (x : α) {fuel : Nat} (hfuel : l.length < fuel) :
    ∃ m', m.unlink null x fuel link = some m' ∧ Unlinked m null x link l m' := by
  induction l generalizing link fuel with
  | nil =>
    obtain ⟨fuel, rfl⟩ := Nat.exists_eq_succ_of_ne_zero (Nat.ne_of_gt hfuel)
    exact ⟨m, if_pos h, h, fun _ _ _ => rfl⟩
  | cons y l ih =>
    obtain ⟨fuel, rfl⟩ := Nat.exists_eq_succ_of_ne_zero (Nat.ne_of_gt (Nat.zero_lt_of_lt hfuel))
    obtain ⟨hy, hne, hl⟩ := h
    obtain ⟨hyl, hnodup⟩ := List.nodup_cons.mp hnodup
    rw [Memory.unlink, hy, if_neg hne]
    by_cases hyx : y = x
    · subst hyx
      refine ⟨_, if_pos rfl, ?_, fun link' hlink' _ => Memory.read_write_of_ne m _ hlink'⟩
      rw [Memory.read_write_self, List.erase_cons_head]
      refine hl.congr fun z hz => ?_
      exact m.read_write_of_ne _ (Ne.symm (hout z (List.mem_cons_of_mem _ hz)))
    · rw [if_neg hyx]
      have hnot : ∀ a ∈ l, Link.next (δ := δ) y ≠ .next a := by
        rintro a ha heq
        cases heq
        exact hyl ha
      obtain ⟨m', hm', hleads, hrest⟩ := @ih (.next y) hl hnodup hnot _ (Nat.lt_of_succ_lt_succ hfuel)
      refine ⟨m', hm', ?_, fun link' hlink' hmem => ?_⟩
      · have hread : m'.read link = y := by
          rw [hrest link (hout y List.mem_cons_self) fun a ha => hout a (List.mem_cons_of_mem _ ha)]
          exact hy
        rw [List.erase_cons_tail (by simpa using hyx)]
        exact ⟨hread, hne, hleads⟩
      · exact hrest link' (hmem y List.mem_cons_self) fun a ha => hmem a (List.mem_cons_of_mem _ ha)

end LinkedList
