import Kernemul.Lib.Walk
import Mathlib.Logic.Function.Basic

/-!
# Radix trees in a memory of words

A word of a table leads to another table or it does not, and a level says how far down a table is: the roots are at the
top, the tables that hold values at 1, and what is no table at 0. In a `Forest` every table but the roots hangs in one
slot, where slots of the roots may be shared. Hanging an empty table into an empty slot changes no value (`Grown`),
writing a value changes it for the paths that end in its slot, and a new root has the values of the slots it takes over.
-/

namespace Radix

open Walk

variable {N I W : Type*}

structure Words (N W : Type*) where
  empty : W
  lead : W → Option N
  lead_empty : lead empty = none

variable (ω : Words N W)

def step (mem : N → I → W) (t : N) (i : I) : Option N := ω.lead (mem t i)

def find (mem : N → I → W) (r : N) (p : List I) (i : I) : W :=
  match walk (step ω mem) r p with
  | none => ω.empty
  | some t => mem t i

def set [DecidableEq N] [DecidableEq I] (mem : N → I → W) (t : N) (i : I) (w : W) : N → I → W := fun t' i' =>
  if t' = t ∧ i' = i then w else mem t' i'

structure Forest (top : ℕ) (Shared : I → Prop) (mem : N → I → W) (level : N → ℕ) : Prop where
  bounded : ∀ t, level t ≤ top
  untouched : ∀ t i, level t = 0 → mem t i = ω.empty
  child : ∀ t i c, 2 ≤ level t → step ω mem t i = some c → level c + 1 = level t
  unique : ∀ t i t' i' c, 2 ≤ level t → 2 ≤ level t' → step ω mem t i = some c → step ω mem t' i' = some c →
    t = t' ∧ i = i' ∨ level t = top ∧ level t' = top ∧ i = i' ∧ Shared i

variable {ω} {top : ℕ} {Shared : I → Prop} {mem mem' mem'' : N → I → W} {level level' level'' : N → ℕ}

/-! ## Walks -/

def next (ω : Words N W) (mem : N → I → W) (level : N → ℕ) (t : N) (i : I) : Option N :=
  if 2 ≤ level t then step ω mem t i else none

theorem next_eq_some {t c : N} {i : I} : next ω mem level t i = some c ↔ 2 ≤ level t ∧ step ω mem t i = some c := by
  unfold next
  split
  · rename_i ht
    exact (and_iff_right ht).symm
  · rename_i ht
    exact ⟨fun hc => absurd hc.symm (Option.some_ne_none c), fun hc => absurd hc.1 ht⟩

section Forest
variable (h : Forest ω top Shared mem level)
include h

theorem Forest.walk_next (p : List I) : ∀ r, p.length < level r →
    walk (next ω mem level) r p = walk (step ω mem) r p := by
  induction p with
  | nil => exact fun r _ => rfl
  | cons i p ih =>
    intro r hr
    rw [List.length_cons] at hr
    rw [walk_cons, walk_cons, next, if_pos (by omega)]
    cases hc : step ω mem r i with
    | none => rfl
    | some c =>
      have := h.child r i c (by omega) hc
      exact ih c (by omega)

theorem Forest.level_walk {p : List I} : ∀ {r t : N}, p.length < level r → walk (step ω mem) r p = some t →
    level t + p.length = level r := by
  induction p with
  | nil =>
    intro r t _ hw
    rw [walk_nil] at hw
    rw [Option.some.inj hw]
    rfl
  | cons i p ih =>
    intro r t hr hw
    rw [List.length_cons] at hr
    rw [walk_cons] at hw
    obtain ⟨c, hc, hw⟩ := Option.bind_eq_some_iff.mp hw
    have hchild := h.child r i c (by omega) hc
    have := ih (by omega) hw
    rw [List.length_cons]
    omega

theorem Forest.parented : Parented (next ω mem level) (fun t => level t = top) Shared where
  unique t i t' i' c hc hc' := by
    rw [next_eq_some] at hc hc'
    exact h.unique t i t' i' c hc.1 hc'.1 hc.2 hc'.2
  root t i c hc := by
    rw [next_eq_some] at hc
    have hchild := h.child t i c hc.1 hc.2
    have := h.bounded t
    omega

theorem Forest.walk_inj {r r' t : N} {p p' : List I} (hr : p.length < level r) (hr' : p'.length < level r')
    (hlen : p.length = p'.length) (hw : walk (step ω mem) r p = some t) (hw' : walk (step ω mem) r' p' = some t) :
    p = p' ∧ (r = r' ∨ ∃ i q, p = i :: q ∧ Shared i) := by
  rw [← h.walk_next p r hr] at hw
  rw [← h.walk_next p' r' hr'] at hw'
  exact h.parented.walk_inj p p' r r' t hlen hw hw'

theorem Forest.child_ne_zero {t c : N} {i : I} (ht : 2 ≤ level t) (hc : step ω mem t i = some c) : level c ≠ 0 := by
  have := h.child t i c ht hc
  omega

end Forest

/-- Below the roots, two paths of one length to the same table start at the same one. -/
theorem Forest.start_eq (h : Forest ω top Shared mem level) {r r' t : N} {p p' : List I} (hr : p.length < level r)
    (hr' : p'.length < level r') (htop : level r < top) (hlen : p.length = p'.length)
    (hw : walk (step ω mem) r p = some t) (hw' : walk (step ω mem) r' p' = some t) : r = r' := by
  induction p using List.reverseRecOn generalizing p' t with
  | nil =>
    obtain rfl : p' = [] := List.length_eq_zero_iff.mp hlen.symm
    exact Option.some.inj (hw.trans hw'.symm)
  | append_singleton p i ih =>
    rcases List.eq_nil_or_concat p' with rfl | ⟨q, i', rfl⟩
    · simp at hlen
    rw [List.concat_eq_append] at *
    rw [walk_snoc] at hw hw'
    rw [List.length_append, List.length_singleton] at hr hr' hlen
    obtain ⟨n, hn, hc⟩ := Option.bind_eq_some_iff.mp hw
    obtain ⟨n', hn', hc'⟩ := Option.bind_eq_some_iff.mp hw'
    have hlevel := h.level_walk (by omega) hn
    have hlevel' := h.level_walk (by omega) hn'
    rcases h.unique n i n' i' t (by omega) (by omega) hc hc' with ⟨rfl, -⟩ | ⟨htop', -, -, -⟩
    · rw [List.length_append, List.length_singleton] at hlen
      exact ih (by omega) (by omega) (by omega) hn hn'
    · omega

/-! ## Growing -/

/-- Tables stay tables, and slots lead where they led. A slot of a table that was there leads to where it led or to a
table that was not there, which is in one such slot only. -/
structure Keeps (ω : Words N W) (mem : N → I → W) (level : N → ℕ) (mem' : N → I → W) (level' : N → ℕ) : Prop where
  kept : ∀ t, level t ≠ 0 → level' t = level t
  leads : ∀ t i c, 2 ≤ level t → step ω mem t i = some c → step ω mem' t i = some c
  hangs : ∀ t i c, 2 ≤ level t → step ω mem' t i = some c → step ω mem t i = some c ∨ level c = 0
  alone : ∀ t i t' i' c, 2 ≤ level t → 2 ≤ level t' → step ω mem' t i = some c → step ω mem' t' i' = some c →
    level c = 0 → t = t' ∧ i = i'

theorem Keeps.of_step (h : Forest ω top Shared mem level)
    (hstep : ∀ t i, 2 ≤ level t → step ω mem' t i = step ω mem t i) : Keeps ω mem level mem' level where
  kept _ _ := rfl
  leads t i _ ht hc := (hstep t i ht).trans hc
  hangs t i _ ht hc := .inl ((hstep t i ht).symm.trans hc)
  alone t i _ _ _ ht _ hc _ hzero := absurd hzero (h.child_ne_zero ht ((hstep t i ht).symm.trans hc))

theorem Keeps.trans (h : Keeps ω mem level mem' level') (h' : Keeps ω mem' level' mem'' level'') :
    Keeps ω mem level mem'' level'' := by
  have hlevel : ∀ t, 2 ≤ level t → 2 ≤ level' t := fun t ht => by rw [h.kept t (by omega)]; exact ht
  have hzero : ∀ t, level' t = 0 → level t = 0 := fun t ht => by
    by_contra hne
    exact hne (h.kept t hne ▸ ht)
  refine ⟨fun t ht => ?_, fun t i c ht hc => h'.leads t i c (hlevel t ht) (h.leads t i c ht hc),
    fun t i c ht hc => ?_, fun t i t' i' c ht ht' hc hc' h0 => ?_⟩
  · have ht' := h.kept t ht
    rw [h'.kept t (ht' ▸ ht), ht']
  · rcases h'.hangs t i c (hlevel t ht) hc with hold | hnew
    · exact h.hangs t i c ht hold
    · exact .inr (hzero c hnew)
  · by_cases hnew : level' c = 0
    · exact h'.alone t i t' i' c (hlevel t ht) (hlevel t' ht') hc hc' hnew
    · have hold := (h'.hangs t i c (hlevel t ht) hc).resolve_right hnew
      have hold' := (h'.hangs t' i' c (hlevel t' ht') hc').resolve_right hnew
      exact h.alone t i t' i' c ht ht' hold hold' h0

/-- Different slots lead to the same table afterwards exactly when they did before. -/
theorem Keeps.shared_iff (h : Keeps ω mem level mem' level') {t t' c : N} {i : I} (ht : 2 ≤ level t)
    (ht' : 2 ≤ level t') (hne : t ≠ t') : step ω mem' t i = some c ∧ step ω mem' t' i = some c ↔
      step ω mem t i = some c ∧ step ω mem t' i = some c := by
  refine ⟨fun ⟨hc, hc'⟩ => ?_, fun ⟨hc, hc'⟩ => ⟨h.leads t i c ht hc, h.leads t' i c ht' hc'⟩⟩
  have hold : level c ≠ 0 := fun h0 => hne (h.alone t i t' i c ht ht' hc hc' h0).1
  exact ⟨(h.hangs t i c ht hc).resolve_right hold, (h.hangs t' i c ht' hc').resolve_right hold⟩

structure Grown (ω : Words N W) (mem : N → I → W) (level : N → ℕ) (mem' : N → I → W) (level' : N → ℕ) : Prop
    extends Keeps ω mem level mem' level' where
  finds : ∀ r p i, level r = p.length + 1 → find ω mem' r p i = find ω mem r p i

section Hang
variable [DecidableEq N] [DecidableEq I] {t c : N} {i : I} {w : W}

theorem step_set (mem : N → I → W) (t' : N) (i' : I) :
    step ω (set mem t i w) t' i' = if t' = t ∧ i' = i then ω.lead w else step ω mem t' i' := by
  unfold step set
  split
  · rfl
  · rfl

variable (h : Forest ω top Shared mem level) (hc : level c = 0) (hw : ω.lead w = some c)
include h hc hw

/-- A slot leads to the new table, or it is an old one that leads to an old table. -/
theorem hang_cases {t' c' : N} {i' : I} (hl : 2 ≤ Function.update level c (level t - 1) t')
    (hs : step ω (set mem t i w) t' i' = some c') :
    (t' = t ∧ i' = i ∧ c' = c) ∨ (2 ≤ level t' ∧ t' ≠ c ∧ c' ≠ c ∧ step ω mem t' i' = some c') := by
  rw [step_set] at hs
  split at hs
  · rename_i hslot
    exact .inl ⟨hslot.1, hslot.2, (Option.some.inj (hw.symm.trans hs)).symm⟩
  · have hne : t' ≠ c := by
      intro he
      rw [he, step, h.untouched c i' hc, ω.lead_empty] at hs
      cases hs
    rw [Function.update_of_ne hne] at hl
    refine .inr ⟨hl, hne, fun he => ?_, hs⟩
    exact h.child_ne_zero hl hs (by rw [he]; exact hc)

variable (ht : 2 ≤ level t) (hempty : step ω mem t i = none)
include ht

theorem Forest.hang : Forest ω top Shared (set mem t i w) (Function.update level c (level t - 1)) := by
  have hne : ∀ {t'}, level t' ≠ 0 → t' ≠ c := fun ht' he => ht' (he ▸ hc)
  have hold : ∀ {t'}, level t' ≠ 0 → Function.update level c (level t - 1) t' = level t' := fun ht' =>
    Function.update_of_ne (hne ht') _ _
  refine ⟨fun t' => ?_, fun t' i' h0 => ?_, fun t' i' c' hl hs => ?_, fun t₁ i₁ t₂ i₂ c' hl₁ hl₂ hs₁ hs₂ => ?_⟩
  · by_cases he : t' = c
    · rw [he, Function.update_self]
      exact Nat.le_trans (Nat.sub_le _ _) (h.bounded t)
    · rw [Function.update_of_ne he]
      exact h.bounded t'
  · by_cases he : t' = c
    · rw [he, Function.update_self] at h0
      omega
    · rw [Function.update_of_ne he] at h0
      rw [set, if_neg fun hs => by rw [hs.1] at h0; omega]
      exact h.untouched t' i' h0
  · rcases hang_cases h hc hw hl hs with ⟨rfl, rfl, rfl⟩ | ⟨hl', htn, hcn, hs'⟩
    · rw [Function.update_self, hold (by omega)]
      omega
    · rw [hold (h.child_ne_zero hl' hs'), hold (by omega)]
      exact h.child t' i' c' hl' hs'
  · rcases hang_cases h hc hw hl₁ hs₁ with ⟨rfl, rfl, rfl⟩ | ⟨hl₁', -, hcn, hs₁'⟩
    · rcases hang_cases h hc hw hl₂ hs₂ with ⟨rfl, rfl, -⟩ | ⟨-, -, hcn', -⟩
      · exact .inl ⟨rfl, rfl⟩
      · exact absurd rfl hcn'
    · rcases hang_cases h hc hw hl₂ hs₂ with ⟨-, -, he⟩ | ⟨hl₂', -, -, hs₂'⟩
      · exact absurd he hcn
      · rw [hold (by omega), hold (by omega)]
        exact h.unique t₁ i₁ t₂ i₂ c' hl₁' hl₂' hs₁' hs₂'

include hempty in
/-- The new table is empty, so nothing is found in it that was not found before. -/
theorem Forest.hang_grown : Grown ω mem level (set mem t i w) (Function.update level c (level t - 1)) := by
  have h' : Forest ω top Shared (set mem t i w) (Function.update level c (level t - 1)) := h.hang hc hw ht
  have hold : ∀ t', level t' ≠ 0 → Function.update level c (level t - 1) t' = level t' := fun t' ht' =>
    Function.update_of_ne (fun he : t' = c => ht' (he ▸ hc)) _ _
  have hstep : ∀ t' i' c', 2 ≤ level t' → step ω mem t' i' = some c' → step ω (set mem t i w) t' i' = some c' := by
    intro t' i' c' _ hs
    rw [step_set, if_neg]
    · exact hs
    · rintro ⟨rfl, rfl⟩
      rw [hempty] at hs
      cases hs
  have hkept : ∀ {t' i' c'}, 2 ≤ level t' → step ω (set mem t i w) t' i' = some c' →
      (t' = t ∧ i' = i ∧ c' = c) ∨ (2 ≤ level t' ∧ t' ≠ c ∧ c' ≠ c ∧ step ω mem t' i' = some c') := fun hl hs =>
    hang_cases h hc hw (by rw [hold _ (by omega)]; exact hl) hs
  refine ⟨⟨hold, hstep, fun t' i' c' hl hs => ?_, fun t₁ i₁ t₂ i₂ c' hl₁ hl₂ hs₁ hs₂ h0 => ?_⟩, fun r p j hr => ?_⟩
  · rcases hkept hl hs with ⟨-, -, rfl⟩ | ⟨-, -, -, hs'⟩
    · exact .inr hc
    · exact .inl hs'
  · rcases hkept hl₁ hs₁ with ⟨rfl, rfl, -⟩ | ⟨-, -, -, hs'⟩
    · rcases hkept hl₂ hs₂ with ⟨rfl, rfl, -⟩ | ⟨-, -, -, hs'⟩
      · exact ⟨rfl, rfl⟩
      · exact absurd h0 (h.child_ne_zero hl₂ hs')
    · exact absurd h0 (h.child_ne_zero hl₁ hs')
  have hgrows : Walk.Grows (next ω mem level) (next ω (set mem t i w) (Function.update level c (level t - 1)))
      fun t' => level t' ≠ 0 := by
    refine ⟨fun t' i' c' hl hs => ?_, fun t' i' c' hs => ?_⟩
    · rw [next_eq_some] at *
      exact ⟨⟨by rw [hold t' hl]; exact hs.1, hstep t' i' c' hs.1 hs.2⟩, h.child_ne_zero hs.1 hs.2⟩
    · rw [next_eq_some] at hs
      rcases hang_cases h hc hw hs.1 hs.2 with ⟨-, -, he⟩ | ⟨hl, -, -, hs'⟩
      · exact .inr (not_not.mpr (he ▸ hc))
      · exact .inl ⟨by omega, next_eq_some.mpr ⟨hl, hs'⟩⟩
  have hr0 : level r ≠ 0 := by omega
  have hwalk := h.walk_next p r (by omega)
  have hwalk' := h'.walk_next p r (by rw [hold r hr0]; omega)
  unfold find
  rw [← hwalk, ← hwalk']
  cases hfind : walk (next ω mem level) r p with
  | some t' =>
    rw [(hgrows.walk_old hr0 hfind).1]
    have hleaf := h.level_walk (by omega) (hwalk.symm.trans hfind)
    show set mem t i w t' j = mem t' j
    rw [set, if_neg fun hs => by rw [hs.1] at hleaf; omega]
  | none =>
    cases hfind' : walk (next ω (set mem t i w) (Function.update level c (level t - 1))) r p with
    | none => rfl
    | some t' =>
      have hnew : level t' = 0 := by
        by_contra hne
        rw [hgrows.walk_new hfind' hne] at hfind
        cases hfind
      show set mem t i w t' j = ω.empty
      rw [set, if_neg fun hs => by rw [hs.1] at hnew; omega]
      exact h.untouched t' j hnew

end Hang

/-! ## Writing -/

section Write
variable [DecidableEq N] [DecidableEq I] {t : N} (h : Forest ω top Shared mem level) (ht : level t = 1) (i : I) (w : W)
include ht

theorem write_step {t' : N} (i' : I) (hl : 2 ≤ level t') : step ω (set mem t i w) t' i' = step ω mem t' i' := by
  rw [step_set, if_neg fun hs => by rw [hs.1] at hl; omega]

include h

theorem Forest.write : Forest ω top Shared (set mem t i w) level where
  bounded := h.bounded
  untouched t' i' h0 := by
    rw [set, if_neg fun hs => by rw [hs.1] at h0; omega]
    exact h.untouched t' i' h0
  child t' i' c hl hs := h.child t' i' c hl (by rwa [write_step ht i w i' hl] at hs)
  unique t₁ i₁ t₂ i₂ c hl₁ hl₂ hs₁ hs₂ := h.unique t₁ i₁ t₂ i₂ c hl₁ hl₂ (by rwa [write_step ht i w i₁ hl₁] at hs₁)
    (by rwa [write_step ht i w i₂ hl₂] at hs₂)

theorem Forest.write_walk {r : N} {p : List I} (hr : p.length < level r) :
    walk (step ω (set mem t i w)) r p = walk (step ω mem) r p := by
  have hnext : next ω (set mem t i w) level = next ω mem level := by
    funext t' i'
    unfold next
    split
    · rename_i hl
      exact write_step ht i w i' hl
    · rfl
  rw [← (h.write ht i w).walk_next p r hr, ← h.walk_next p r hr, hnext]

/-- The paths that end in the slot find the word, and the others what they found. -/
theorem Forest.find_write {r : N} {p : List I} (j : I) (hr : level r = p.length + 1) :
    find ω (set mem t i w) r p j = if walk (step ω mem) r p = some t ∧ j = i then w else find ω mem r p j := by
  unfold find
  rw [h.write_walk ht i w (by omega)]
  cases walk (step ω mem) r p with
  | none => rw [if_neg fun hs => absurd hs.1.symm (Option.some_ne_none t)]
  | some t' =>
    show (if t' = t ∧ j = i then w else mem t' j) = _
    simp only [Option.some.injEq]

end Write

/-! ## New roots -/

section Root
variable [DecidableEq N] {c : N} {copy : I → W}
variable (hcopy : ∀ i d, ω.lead (copy i) = some d → Shared i ∧ ∃ src, level src = top ∧ step ω mem src i = some d)
include hcopy

theorem root_cases {t d : N} {i : I} (hl : 2 ≤ Function.update level c top t)
    (hs : step ω (fun t i => if t = c then copy i else mem t i) t i = some d) :
    (t = c ∧ Shared i ∧ ∃ src, level src = top ∧ step ω mem src i = some d) ∨
      (t ≠ c ∧ 2 ≤ level t ∧ step ω mem t i = some d) := by
  by_cases he : t = c
  · rw [step, if_pos he] at hs
    exact .inl ⟨he, hcopy i d hs⟩
  · rw [step, if_neg he] at hs
    rw [Function.update_of_ne he] at hl
    exact .inr ⟨he, hl, hs⟩

variable (h : Forest ω top Shared mem level) (htop : 2 ≤ top) (hc : level c = 0)
include h hc htop

theorem Forest.root :
    Forest ω top Shared (fun t i => if t = c then copy i else mem t i) (Function.update level c top) := by
  have hold : ∀ {t}, level t ≠ 0 → Function.update level c top t = level t := fun {t} ht =>
    Function.update_of_ne (fun he : t = c => ht (he ▸ hc)) _ _
  refine ⟨fun t => ?_, fun t i h0 => ?_, fun t i d hl hs => ?_, fun t i t' i' d hl hl' hs hs' => ?_⟩
  · by_cases he : t = c
    · subst he
      exact Nat.le_of_eq (Function.update_self t top level)
    · rw [Function.update_of_ne he]
      exact h.bounded t
  · have he : t ≠ c := by
      rintro rfl
      rw [Function.update_self] at h0
      omega
    rw [Function.update_of_ne he] at h0
    rw [if_neg he]
    exact h.untouched t i h0
  · rcases root_cases hcopy hl hs with ⟨rfl, -, src, hsrc, hd⟩ | ⟨he, hl', hd⟩
    · rw [Function.update_self, hold (h.child_ne_zero (by omega) hd), ← hsrc]
      exact h.child src i d (by omega) hd
    · rw [Function.update_of_ne he, hold (h.child_ne_zero hl' hd)]
      exact h.child t i d hl' hd
  · rcases root_cases hcopy hl hs with ⟨rfl, hshared, src, hsrc, hd⟩ | ⟨he, hl₁, hd⟩
    · rcases root_cases hcopy hl' hs' with ⟨rfl, -, src', hsrc', hd'⟩ | ⟨he', hl₂, hd'⟩
      · rcases h.unique src i src' i' d (by omega) (by omega) hd hd' with ⟨-, hi⟩ | ⟨-, -, hi, -⟩
        · exact .inl ⟨rfl, hi⟩
        · exact .inl ⟨rfl, hi⟩
      · refine .inr ⟨Function.update_self .., ?_⟩
        rw [Function.update_of_ne he']
        rcases h.unique src i t' i' d (by omega) hl₂ hd hd' with ⟨rfl, hi⟩ | ⟨-, ht', hi, -⟩
        · exact ⟨hsrc, hi, hshared⟩
        · exact ⟨ht', hi, hshared⟩
    · rcases root_cases hcopy hl' hs' with ⟨rfl, hshared, src', hsrc', hd'⟩ | ⟨he', hl₂, hd'⟩
      · refine .inr ?_
        rw [Function.update_self, Function.update_of_ne he]
        rcases h.unique t i src' i' d hl₁ (by omega) hd hd' with ⟨rfl, rfl⟩ | ⟨ht, -, rfl, -⟩
        · exact ⟨hsrc', rfl, rfl, hshared⟩
        · exact ⟨ht, rfl, rfl, hshared⟩
      · rw [Function.update_of_ne he, Function.update_of_ne he']
        exact h.unique t i t' i' d hl₁ hl₂ hd hd'

omit hcopy htop in
theorem Forest.root_walk (p : List I) : ∀ {t : N}, p.length < level t →
    walk (step ω fun t i => if t = c then copy i else mem t i) t p = walk (step ω mem) t p := by
  induction p with
  | nil => exact fun _ => rfl
  | cons i p ih =>
    intro t ht
    rw [List.length_cons] at ht
    have hne : t ≠ c := fun he => by rw [he] at ht; omega
    have hstep : step ω (fun t i => if t = c then copy i else mem t i) t i = step ω mem t i := by
      rw [step, if_neg hne, step]
    rw [walk_cons, walk_cons, hstep]
    cases hd : step ω mem t i with
    | none => rfl
    | some d =>
      have := h.child t i d (by omega) hd
      exact ih (by omega)

omit hcopy htop in
theorem Forest.root_find {t : N} {p : List I} (i : I) (ht : p.length < level t) :
    find ω (fun t i => if t = c then copy i else mem t i) t p i = find ω mem t p i := by
  unfold find
  rw [h.root_walk hc p ht]
  cases hw : walk (step ω mem) t p with
  | none => rfl
  | some t' =>
    have := h.level_walk ht hw
    exact if_neg fun he => by rw [he] at this; omega

omit hcopy htop in
theorem Forest.root_grown : Grown ω mem level (fun t i => if t = c then copy i else mem t i)
    (Function.update level c top) := by
  have hstep : ∀ t i, 2 ≤ level t → step ω (fun t i => if t = c then copy i else mem t i) t i = step ω mem t i := by
    intro t i ht
    rw [step, if_neg fun he => by rw [he] at ht; omega, step]
  have hkeeps := Keeps.of_step h hstep
  have hkept : ∀ t, level t ≠ 0 → Function.update level c top t = level t := fun t ht =>
    Function.update_of_ne (fun he : t = c => ht (he ▸ hc)) _ _
  exact ⟨⟨hkept, hkeeps.leads, hkeeps.hangs, hkeeps.alone⟩,
    fun r p i hr => h.root_find hc i (by omega)⟩

theorem Forest.find_root {i : I} {p : List I} (j : I) (hp : p.length + 2 = top) :
    find ω (fun t i => if t = c then copy i else mem t i) c (i :: p) j =
      match ω.lead (copy i) with
      | none => ω.empty
      | some d => find ω mem d p j := by
  have hstep : step ω (fun t i => if t = c then copy i else mem t i) c i = ω.lead (copy i) := by
    rw [step, if_pos rfl]
  unfold find
  rw [walk_cons, hstep]
  cases hd : ω.lead (copy i) with
  | none => rfl
  | some d =>
    obtain ⟨-, src, hsrc, hlead⟩ := hcopy i d hd
    have hchild := h.child src i d (by omega) hlead
    rw [Option.bind_some]
    exact h.root_find hc j (by omega)

end Root

end Radix
