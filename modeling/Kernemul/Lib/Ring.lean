import Mathlib.Data.List.Chain
import Mathlib.Data.List.Nodup
import Mathlib.Logic.Function.Basic

/-!
# Rings of doubly linked entries

A store gives each node the node after it and the node before it. `IsRing m head xs` says that from `head` the
forward links go through `xs` in order and back to `head`, and the backward links the other way round. The
two edits are local: `pushBack` links a node in before the head, `remove` links a node's neighbours to each
other and reads nothing but the links of the node itself. A ring can be followed from its head in both directions
(`traverse`).
-/

namespace LinkRing

variable {α : Type*}

structure Links (α : Type*) where
  flink : α
  blink : α
  deriving DecidableEq, Repr

def Linked (m : α → Links α) (a b : α) : Prop := (m a).flink = b ∧ (m b).blink = a

structure IsRing (m : α → Links α) (head : α) (xs : List α) : Prop where
  linked : (head :: (xs ++ [head])).IsChain (Linked m)
  nodup : (head :: xs).Nodup

section Edit

variable [DecidableEq α]

def init (m : α → Links α) (head : α) : α → Links α := Function.update m head ⟨head, head⟩

def setFlink (m : α → Links α) (a value : α) : α → Links α :=
  Function.update m a { m a with flink := value }

def setBlink (m : α → Links α) (a value : α) : α → Links α :=
  Function.update m a { m a with blink := value }

def pushBack (m : α → Links α) (head x : α) : α → Links α :=
  let h := m head
  let m := Function.update m x ⟨head, h.blink⟩
  if h.blink = head then Function.update m head ⟨x, x⟩
  else Function.update (setFlink m h.blink x) head ⟨h.flink, x⟩

def remove (m : α → Links α) (x : α) : α → Links α :=
  let l := m x
  setFlink (setBlink m l.flink l.blink) l.blink l.flink

/-- Makes `x` the last node for the nodes that are there, and leaves its own links to others. -/
def linkTail (m : α → Links α) (head x : α) : α → Links α :=
  setBlink (setFlink m (m head).blink x) head x

end Edit

section Follow

variable {σ : Type*}

/-- From `cur` on along `next` until the head, as long as `fn` wants more. -/
def traverse [DecidableEq α] (next : α → α) (head : α) (fn : α → σ → σ × Bool) : ℕ → α → σ → Option σ
  | 0, _, _ => none
  | k + 1, cur, s =>
    if cur = head then some s
    else if (fn cur s).2 then traverse next head fn k (next cur) (fn cur s).1
    else some (fn cur s).1

/-- `fn` on one node after the other, as long as it wants more. -/
def visit (fn : α → σ → σ × Bool) : List α → σ → σ
  | [], s => s
  | x :: xs, s => if (fn x s).2 then visit fn xs (fn x s).1 else (fn x s).1

theorem visit_map {β : Type*} (fn : α → σ → σ × Bool) (f : β → α) (xs : List β) (s : σ) :
    visit fn (xs.map f) s = visit (fun x => fn (f x)) xs s := by
  induction xs generalizing s with
  | nil => rfl
  | cons x xs ih => rw [List.map_cons, visit, visit, ih]

end Follow

/-- A chain reads the forward links of all its nodes but the last and the backward links of all but the
first. -/
theorem isChain_linked_congr {m m' : α → Links α} {l : List α} (h : l.IsChain (Linked m))
    (hf : ∀ a ∈ l.dropLast, (m' a).flink = (m a).flink)
    (hb : ∀ b ∈ l.tail, (m' b).blink = (m b).blink) : l.IsChain (Linked m') := by
  induction h with
  | nil => exact .nil
  | singleton a => exact .singleton a
  | @cons_cons a b l hab hl ih =>
    refine .cons_cons ⟨?_, ?_⟩ (ih ?_ ?_)
    · rw [hf a (by simp), hab.1]
    · rw [hb b (by simp), hab.2]
    · intro c hc
      exact hf c (by simpa using Or.inr hc)
    · intro c hc
      exact hb c (by simpa using Or.inr hc)

section Specs

variable [DecidableEq α] {m : α → Links α} {head x : α} {xs : List α}

@[simp] theorem setFlink_blink (m : α → Links α) (a value b : α) :
    (setFlink m a value b).blink = (m b).blink := by
  by_cases h : b = a <;> simp [setFlink, h]

@[simp] theorem setBlink_flink (m : α → Links α) (a value b : α) :
    (setBlink m a value b).flink = (m b).flink := by
  by_cases h : b = a <;> simp [setBlink, h]

variable {a value b : α}

theorem setFlink_flink_of_ne (h : b ≠ a) :
    (setFlink m a value b).flink = (m b).flink := by
  simp [setFlink, h]

theorem setBlink_blink_of_ne (h : b ≠ a) :
    (setBlink m a value b).blink = (m b).blink := by
  simp [setBlink, h]

theorem isRing_init (m : α → Links α) (head : α) : IsRing (init m head) head [] where
  linked := .cons_cons (by simp [Linked, init]) (.singleton _)
  nodup := List.nodup_singleton head

theorem isChain_pushBack {A : List α} {t : α} (h : (head :: A ++ t :: [head]).IsChain (Linked m))
    (hnodup : (head :: A ++ [t]).Nodup) (hx : x ∉ head :: A ++ [t]) :
    (head :: A ++ t :: x :: [head]).IsChain (Linked (pushBack m head x)) := by
  rw [List.isChain_append_cons_cons] at h
  obtain ⟨hleft, hlast, -⟩ := h
  have hhead : head ∉ A ++ [t] := (List.nodup_cons.mp hnodup).1
  have hth : t ≠ head := fun hth => hhead (by simp [hth])
  have ht : t ∉ head :: A := fun hmem => (List.nodup_append.mp hnodup).2.2 t hmem t (by simp) rfl
  have hxh : x ≠ head := fun hxh => hx (by simp [hxh])
  have hxt : x ≠ t := fun hxt => hx (by simp [hxt])
  have hpush : pushBack m head x =
      Function.update (setFlink (Function.update m x ⟨head, t⟩) t x) head ⟨(m head).flink, x⟩ := by
    simp [pushBack, hlast.2, hth]
  rw [List.isChain_append_cons_cons, List.isChain_cons_cons, hpush]
  refine ⟨?_, ⟨?_, ?_⟩, ⟨?_, ?_⟩, .singleton _⟩
  · refine isChain_linked_congr hleft (fun a ha => ?_) fun b hb => ?_
    · have ha' : a ∈ head :: A := by
        rwa [List.dropLast_concat] at ha
      by_cases hah : a = head
      · simp [hah]
      · have hat : a ≠ t := fun hat => ht (hat ▸ ha')
        have hax : a ≠ x := fun hax => hx (List.mem_append_left _ (hax ▸ ha'))
        rw [Function.update_of_ne hah, setFlink_flink_of_ne hat, Function.update_of_ne hax]
    · have hbh : b ≠ head := fun hbh => hhead (hbh ▸ hb)
      have hbx : b ≠ x := fun hbx => hx (List.mem_cons_of_mem _ (hbx ▸ hb))
      rw [Function.update_of_ne hbh, setFlink_blink, Function.update_of_ne hbx]
  · simp [hth, setFlink]
  · simp [hxh, setFlink, hxt]
  · simp [hxh, setFlink, hxt]
  · simp

theorem IsRing.pushBack (h : IsRing m head xs) (hx : x ∉ head :: xs) :
    IsRing (pushBack m head x) head (xs ++ [x]) where
  nodup := by
    rw [← List.cons_append]
    exact List.nodup_append.mpr ⟨h.nodup, List.nodup_singleton x, fun a ha b hb hab =>
      hx (List.mem_singleton.mp hb ▸ hab ▸ ha)⟩
  linked := by
    have hchain := h.linked
    have hnodup := h.nodup
    rcases List.eq_nil_or_concat' xs with rfl | ⟨A, t, rfl⟩
    · have hxh : x ≠ head := fun hxh => hx (by simp [hxh])
      have hself : (m head).blink = head := (List.isChain_cons_cons.mp hchain).1.2
      simp [LinkRing.pushBack, hself, Linked, hxh]
    · simpa using isChain_pushBack (A := A) (by simpa using hchain) (by simpa using hnodup)
        (by simpa using hx)

theorem isChain_remove {A B : List α} {p n : α} (h : (A ++ p :: x :: n :: B).IsChain (Linked m))
    (hp : p ∉ A) (hA : n ∉ (A ++ [p]).tail) (hB : p ∉ (n :: B).dropLast) (hn : n ∉ B) :
    (A ++ p :: n :: B).IsChain (Linked (remove m x)) := by
  rw [List.isChain_append_cons_cons, List.isChain_cons_cons] at h
  obtain ⟨hleft, hpx, hxn, hright⟩ := h
  have hremove : remove m x = setFlink (setBlink m n p) p n := by
    rw [remove, hpx.2, hxn.1]
  rw [List.isChain_append_cons_cons, hremove]
  refine ⟨?_, ⟨?_, ?_⟩, ?_⟩
  · refine isChain_linked_congr hleft (fun a ha => ?_) fun b hb => ?_
    · have hap : a ≠ p := by
        rintro rfl
        exact hp (by simpa using ha)
      rw [setFlink_flink_of_ne hap, setBlink_flink]
    · have hbn : b ≠ n := fun h => hA (h ▸ hb)
      rw [setFlink_blink, setBlink_blink_of_ne hbn]
  · simp [setFlink]
  · simp [setBlink]
  · refine isChain_linked_congr hright (fun a ha => ?_) fun b hb => ?_
    · have hap : a ≠ p := fun h => hB (h ▸ ha)
      rw [setFlink_flink_of_ne hap, setBlink_flink]
    · have hbn : b ≠ n := by
        rintro rfl
        exact hn hb
      rw [setFlink_blink, setBlink_blink_of_ne hbn]

theorem IsRing.remove {l r : List α} (h : IsRing m head (l ++ x :: r)) :
    IsRing (remove m x) head (l ++ r) where
  nodup := h.nodup.sublist (List.Sublist.cons_cons _ ((List.sublist_cons_self x r).append_left l))
  linked := by
    obtain ⟨A, p, hA⟩ : ∃ A p, head :: l = A ++ [p] :=
      ((List.eq_nil_or_concat' (head :: l)).resolve_left (by simp))
    obtain ⟨n, B, hB⟩ : ∃ n B, r ++ [head] = n :: B := List.exists_cons_of_ne_nil (by simp)
    obtain ⟨hl, hr, hdisj⟩ := List.nodup_append.mp (show (head :: l ++ x :: r).Nodup from h.nodup)
    have hback : (r ++ [head]).Nodup := by
      refine List.nodup_append.mpr ⟨(List.nodup_cons.mp hr).2, List.nodup_singleton head, ?_⟩
      intro a ha b hb hab
      exact hdisj head (by simp) a (by simp [ha]) (by simpa [hab, eq_comm] using hb)
    have hall : head :: (l ++ x :: r ++ [head]) = A ++ p :: x :: n :: B := by
      rw [List.append_assoc, List.cons_append, hB, ← List.cons_append, hA]
      simp
    have hrest : head :: (l ++ r ++ [head]) = A ++ p :: n :: B := by
      rw [List.append_assoc, hB, ← List.cons_append, hA]
      simp
    rw [hrest]
    refine isChain_remove (hall ▸ h.linked) ?_ ?_ ?_ ?_
    · rw [hA] at hl
      exact fun hp => (List.nodup_append.mp hl).2.2 p hp p (by simp) rfl
    · rw [← hA, List.tail_cons]
      intro hn
      obtain hnr | hnh : n ∈ r ∨ n = head := by
        simpa using (hB ▸ List.mem_cons_self : n ∈ r ++ [head])
      · exact hdisj n (by simp [hn]) n (by simp [hnr]) rfl
      · exact (List.nodup_cons.mp hl).1 (hnh ▸ hn)
    · rw [← hB, List.dropLast_concat]
      intro hp
      exact hdisj p (hA ▸ by simp) p (by simp [hp]) rfl
    · rw [hB] at hback
      exact (List.nodup_cons.mp hback).1

/-! ## What the edits leave alone -/

theorem setFlink_of_ne (h : b ≠ a) : setFlink m a value b = m b := Function.update_of_ne h ..

theorem setBlink_of_ne (h : b ≠ a) : setBlink m a value b = m b := Function.update_of_ne h ..

theorem setFlink_congr {m' : α → Links α} (h : m b = m' b) :
    setFlink m a value b = setFlink m' a value b := by
  by_cases hb : b = a
  · subst hb
    simp only [setFlink, Function.update_self, h]
  · rw [setFlink_of_ne hb, setFlink_of_ne hb, h]

theorem setBlink_congr {m' : α → Links α} (h : m b = m' b) :
    setBlink m a value b = setBlink m' a value b := by
  by_cases hb : b = a
  · subst hb
    simp only [setBlink, Function.update_self, h]
  · rw [setBlink_of_ne hb, setBlink_of_ne hb, h]

/-- What `linkTail` leaves at a node comes from the links of the node and of the head. -/
theorem linkTail_congr {m' : α → Links α} (hhead : m head = m' head) (ha : m a = m' a) :
    linkTail m head x a = linkTail m' head x a := by
  rw [linkTail, linkTail, hhead]
  exact setBlink_congr (setFlink_congr ha)

theorem linkTail_of_ne (hhead : a ≠ head) (htail : a ≠ (m head).blink) : linkTail m head x a = m a := by
  rw [linkTail, setBlink_of_ne hhead, setFlink_of_ne htail]

theorem pushBack_eq (hx : x ≠ head) :
    pushBack m head x = linkTail (Function.update m x ⟨head, (m head).blink⟩) head x := by
  have hhead : Function.update m x ⟨head, (m head).blink⟩ head = m head := Function.update_of_ne hx.symm ..
  unfold pushBack linkTail
  rw [hhead]
  by_cases htail : (m head).blink = head
  · simp [setBlink, setFlink, htail]
  · simp only [if_neg htail, setBlink, setFlink_of_ne (Ne.symm htail), hhead]

theorem pushBack_of_ne (hxh : x ≠ head) (hax : a ≠ x) (hhead : a ≠ head) (htail : a ≠ (m head).blink) :
    pushBack m head x a = m a := by
  rw [pushBack_eq hxh, linkTail_of_ne hhead (by rwa [Function.update_of_ne hxh.symm]), Function.update_of_ne hax]

theorem remove_of_ne (hflink : a ≠ (m x).flink) (hblink : a ≠ (m x).blink) : remove m x a = m a := by
  rw [remove, setFlink_of_ne hblink, setBlink_of_ne hflink]

end Specs

section Shape

variable {m m' : α → Links α} {head : α} {xs : List α}

theorem IsRing.congr (h : IsRing m head xs) (hm : ∀ a ∈ head :: xs, m' a = m a) : IsRing m' head xs where
  nodup := h.nodup
  linked := by
    refine isChain_linked_congr h.linked (fun a ha => ?_) fun b hb => ?_
    · rw [← List.cons_append, List.dropLast_concat] at ha
      rw [hm a ha]
    · rw [List.tail_cons] at hb
      rw [hm b (by simpa [or_comm] using hb)]

theorem mem_of_isChain_linked {A B : List α} {x : α} (h : (A ++ x :: B).IsChain (Linked m)) (hA : A ≠ [])
    (hB : B ≠ []) : (m x).flink ∈ B ∧ (m x).blink ∈ A := by
  obtain ⟨A, p, rfl⟩ := (List.eq_nil_or_concat' A).resolve_left hA
  obtain ⟨n, B, rfl⟩ := List.exists_cons_of_ne_nil hB
  rw [List.append_assoc, List.singleton_append, List.isChain_append_cons_cons, List.isChain_cons_cons] at h
  obtain ⟨-, hpx, hxn, -⟩ := h
  rw [hpx.2, hxn.1]
  exact ⟨List.mem_cons_self, List.mem_append_right _ (List.mem_singleton_self p)⟩

theorem IsRing.neighbours_mem (h : IsRing m head xs) {x : α} (hx : x ∈ xs) :
    (m x).flink ∈ head :: xs ∧ (m x).blink ∈ head :: xs := by
  obtain ⟨l, r, rfl⟩ := List.append_of_mem hx
  have hchain : ((head :: l) ++ x :: (r ++ [head])).IsChain (Linked m) := by
    simpa using h.linked
  obtain ⟨hf, hb⟩ := mem_of_isChain_linked hchain (by simp) (by simp)
  constructor
  · have hf' : (m x).flink ∈ r ∨ (m x).flink = head := by
      simpa using hf
    rcases hf' with hf' | hf'
    · simp [hf']
    · simp [hf']
  · rcases List.mem_cons.mp hb with hb' | hb'
    · simp [hb']
    · simp [hb']

theorem IsRing.blink_mem (h : IsRing m head xs) : (m head).blink ∈ head :: xs := by
  obtain ⟨A, t, hA⟩ := (List.eq_nil_or_concat' (head :: xs)).resolve_left (by simp)
  have hchain := h.linked
  rw [← List.cons_append, hA, List.append_assoc, List.singleton_append, List.isChain_append_cons_cons] at hchain
  rw [hA, hchain.2.1.2]
  simp

def swap (m : α → Links α) (a : α) : Links α := ⟨(m a).blink, (m a).flink⟩

theorem IsRing.reverse (h : IsRing m head xs) : IsRing (swap m) head xs.reverse where
  nodup := by
    rw [List.nodup_cons, List.mem_reverse, List.nodup_reverse]
    exact List.nodup_cons.mp h.nodup
  linked := by
    have hflip : (head :: (xs.reverse ++ [head])) = (head :: (xs ++ [head])).reverse := by
      simp
    rw [hflip, List.isChain_reverse]
    exact h.linked.imp fun a b hab => ⟨hab.2, hab.1⟩

variable [DecidableEq α] {σ : Type*}

theorem traverse_of_isChain (fn : α → σ → σ × Bool) {fuel : ℕ} {a : α} (s : σ)
    (h : (a :: (xs ++ [head])).IsChain (Linked m)) (hhead : head ∉ xs) (hfuel : xs.length < fuel) :
    traverse (fun b => (m b).flink) head fn fuel (m a).flink s = some (visit fn xs s) := by
  induction xs generalizing a fuel s with
  | nil =>
    obtain ⟨k, rfl⟩ := Nat.exists_eq_add_one.mpr hfuel
    rw [traverse, if_pos (List.isChain_cons_cons.mp h).1.1, visit]
  | cons x xs ih =>
    obtain ⟨k, rfl⟩ := Nat.exists_eq_add_one.mpr (Nat.zero_lt_of_lt hfuel)
    obtain ⟨hax, hrest⟩ := List.isChain_cons_cons.mp h
    obtain ⟨hne, hhead'⟩ := List.ne_and_not_mem_of_not_mem_cons hhead
    rw [traverse, hax.1, if_neg (Ne.symm hne), visit]
    split_ifs with hmore
    · exact ih (fn x s).1 hrest hhead' (by simpa using hfuel)
    · rfl

theorem IsRing.traverse (h : IsRing m head xs) (fn : α → σ → σ × Bool) {fuel : ℕ} (s : σ) (hfuel : xs.length < fuel) :
    traverse (fun a => (m a).flink) head fn fuel (m head).flink s = some (visit fn xs s) :=
  traverse_of_isChain fn s h.linked (List.nodup_cons.mp h.nodup).1 hfuel

theorem IsRing.traverse_back (h : IsRing m head xs) (fn : α → σ → σ × Bool) {fuel : ℕ} (s : σ)
    (hfuel : xs.length < fuel) :
    LinkRing.traverse (fun a => (m a).blink) head fn fuel (m head).blink s = some (visit fn xs.reverse s) :=
  h.reverse.traverse fn s (by rwa [List.length_reverse])

omit [DecidableEq α] in
theorem IsRing.flink_eq_head_iff (h : IsRing m head xs) : (m head).flink = head ↔ xs = [] := by
  cases xs with
  | nil => exact iff_of_true (List.isChain_cons_cons.mp h.linked).1.1 rfl
  | cons x xs =>
    have hx : (m head).flink = x := (List.isChain_cons_cons.mp h.linked).1.1
    refine iff_of_false (fun hself => ?_) (List.cons_ne_nil x xs)
    exact (List.nodup_cons.mp h.nodup).1 ((hx.symm.trans hself) ▸ List.mem_cons_self)

end Shape

end LinkRing
