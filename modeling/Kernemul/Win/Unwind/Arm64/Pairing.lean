import Kernemul.Win.Unwind.Arm64.Replay

/-!
# The `save_next`s of a prologue

Only a `save_next` can load something else than it stored: every other code says by itself where its
registers are. So a prologue is undone exactly when its `save_next`s, each taken to go on from the code
before it in the array, stand for the pairs that were stored (`NextPaired`).
-/

namespace Kernemul.Unwind.Arm64

open Stack

/-- The registers the `save_next`s of a prologue store, with their places. -/
def nextSaves : List Op → List (Reg × Int)
  | [] => []
  | .saveNext :: cs => (nextPair cs).stores.map (fun e => (e.1, (depth cs : Int) - e.2)) ++ nextSaves cs
  | _ :: cs => nextSaves cs

/-- The registers the `save_next`s stand for when each goes on from the pair before it in the array, which
is `last` at the beginning; `d` is where the stack pointer is. -/
def nextTakes (d : Int) (last : Pair) : List Op → List (Reg × Int)
  | [] => []
  | .saveNext :: cs => last.next.stores.map (fun e => (e.1, d - e.2)) ++ nextTakes d last.next cs
  | op :: cs => nextTakes (d - op.drop) (op.mark last) cs

/-- What a `save_next` stores is what some `save_next` stands for by the order of the array, and none before
the instruction that sets x29 stands for x29. -/
structure NextPaired (cs : List Op) : Prop where
  found : ∀ e ∈ nextSaves cs, e ∈ nextTakes (depth cs) firstPair cs
  x29 : ∀ post op pre, cs = post ++ op :: pre → op.fp?.isSome = true →
    x29 ∉ (nextTakes (depth cs) firstPair post).map Prod.fst

def ownSaves (d : Int) : List Op → List (Reg × Int)
  | [] => []
  | .saveNext :: cs => ownSaves d cs
  | op :: cs => (op.stores firstPair).map (fun e => (e.1, d - e.2)) ++ ownSaves (d - op.drop) cs

theorem stores_eq {op : Op} (h : op ≠ .saveNext) (p q : Pair) : op.stores p = op.stores q := by
  cases op <;> first | rfl | exact absurd rfl h

theorem nextSaves_cons {op : Op} (h : op ≠ .saveNext) (cs : List Op) :
    nextSaves (op :: cs) = nextSaves cs := by
  cases op <;> first | rfl | exact absurd rfl h

theorem nextTakes_cons {op : Op} (h : op ≠ .saveNext) (d : Int) (last : Pair) (cs : List Op) :
    nextTakes d last (op :: cs) = nextTakes (d - op.drop) (op.mark last) cs := by
  cases op <;> first | rfl | exact absurd rfl h

theorem ownSaves_cons {op : Op} (h : op ≠ .saveNext) (d : Int) (p : Pair) (cs : List Op) :
    ownSaves d (op :: cs) =
      (op.stores p).map (fun e => (e.1, d - e.2)) ++ ownSaves (d - op.drop) cs := by
  rw [stores_eq h p firstPair]
  cases op <;> first | rfl | exact absurd rfl h

theorem saves_perm (cs : List Op) : (saves cs).Perm (ownSaves (depth cs) cs ++ nextSaves cs) := by
  induction cs with
  | nil => exact List.Perm.refl _
  | cons op cs ih =>
    by_cases h : op = .saveNext
    · subst h
      have hdepth : depth (.saveNext :: cs) = depth cs := rfl
      rw [saves, hdepth]
      refine (ih.append_left _).trans ?_
      rw [← List.append_assoc]
      refine (List.perm_append_comm.append_right _).trans ?_
      rw [List.append_assoc]
      exact List.Perm.refl _
    · have hdepth : (depth (op :: cs) : Int) - op.drop = depth cs := by
        rw [depth, Nat.cast_add]
        omega
      rw [saves, ownSaves_cons h _ (nextPair cs), nextSaves_cons h, hdepth, List.append_assoc]
      exact ih.append_left _

variable {cs : List Op} {e : Reg × Int}

theorem mem_saves_iff :
    e ∈ saves cs ↔ e ∈ ownSaves (depth cs) cs ∨ e ∈ nextSaves cs := by
  rw [(saves_perm cs).mem_iff, List.mem_append]

/-- What is loaded by an instruction that loads registers from places below the entry. -/
theorem mem_loads_step {l : List (Reg × Nat)} {d : Int} :
    e ∈ (l.filter fun e => decide e.1.Tracked).map (fun e => (e.1, d - e.2)) ↔
      e ∈ l.map (fun e => (e.1, d - (e.2 : Int))) ∧ e.1.Tracked := by
  simp only [List.mem_map, List.mem_filter, decide_eq_true_eq]
  constructor
  · rintro ⟨a, ⟨ha, ht⟩, rfl⟩
    exact ⟨⟨a, ha, rfl⟩, ht⟩
  · rintro ⟨⟨a, ha, rfl⟩, ht⟩
    exact ⟨a, ⟨ha, ht⟩, rfl⟩

theorem mem_loadsFrom {d : Int} {last : Pair} :
    e ∈ loadsFrom d last cs ↔ (e ∈ ownSaves d cs ∨ e ∈ nextTakes d last cs) ∧ e.1.Tracked := by
  induction cs generalizing d last with
  | nil => simp [loadsFrom, ownSaves, nextTakes]
  | cons op cs ih =>
    rw [loadsFrom, List.mem_append, mem_loads_step, ih]
    by_cases h : op = .saveNext
    · subst h
      have hdrop : d - (Op.saveNext.drop : Nat) = d := by simp [Op.drop]
      rw [hdrop, ownSaves, nextTakes, List.mem_append]
      show (e ∈ last.next.stores.map _ ∧ _) ∨ (_ ∨ e ∈ nextTakes d last.next cs) ∧ _ ↔ _
      tauto
    · rw [ownSaves_cons h d last.next, nextTakes_cons h, List.mem_append]
      tauto

/-- A register that the codes other than `save_next`s name is stored by one of them. -/
theorem ownSaves_fst {d : Int} {r : Reg} (h : r ∈ (ownSaves d cs).map Prod.fst) :
    ∃ post op pre, cs = post ++ op :: pre ∧ ∀ p, r ∈ (op.stores p).map Prod.fst := by
  induction cs generalizing d with
  | nil => exact absurd h List.not_mem_nil
  | cons op cs ih =>
    have htail : ∀ d', r ∈ (ownSaves d' cs).map Prod.fst → ∃ post o pre, op :: cs = post ++ o :: pre ∧
        ∀ p, r ∈ (o.stores p).map Prod.fst := by
      intro d' h'
      obtain ⟨post, o, pre, rfl, ho⟩ := ih h'
      exact ⟨op :: post, o, pre, rfl, ho⟩
    by_cases hop : op = .saveNext
    · subst hop
      exact htail d h
    · rw [ownSaves_cons hop d firstPair, List.map_append, List.map_map] at h
      rcases List.mem_append.mp h with h | h
      · exact ⟨[], op, cs, rfl, fun p => stores_eq hop firstPair p ▸ h⟩
      · exact htail _ h

/-- A register that was saved earlier is stored by none of the later codes. -/
theorem Valid.not_mem_ownSaves {post pre : List Op} (hv : Valid (post ++ pre)) {r : Reg}
    (hr : r ∈ (saves pre).map Prod.fst) (d : Int) : r ∉ (ownSaves d post).map Prod.fst := by
  intro h
  obtain ⟨a, op, b, rfl, hstores⟩ := ownSaves_fst h
  obtain ⟨e, he, rfl⟩ := List.mem_map.mp (hstores (nextPair (b ++ pre)))
  rw [List.append_assoc] at hv
  exact hv.right.not_mem_tail he (((saves_sublist b pre).map Prod.fst).subset hr)

theorem Valid.not_own_of_next (hv : Valid cs) (h : e ∈ nextSaves cs) :
    e ∉ ownSaves (depth cs) cs := by
  have honce := ((saves_perm cs).map Prod.fst).nodup_iff.mp hv.once
  rw [List.map_append] at honce
  exact fun hown => List.disjoint_of_nodup_append honce (List.mem_map_of_mem hown)
    (List.mem_map_of_mem h)

theorem paired_iff (hv : Valid cs) : Paired cs ↔ NextPaired cs := by
  have htracked : ∀ e ∈ saves cs, e.1.Tracked := fun e he => (hv.regs e he).tracked
  have hx29 : ∀ post op pre, cs = post ++ op :: pre → op.fp?.isSome = true →
      (x29 ∈ (loadsFrom (depth cs) firstPair post).map Prod.fst ↔
        x29 ∈ (nextTakes (depth cs) firstPair post).map Prod.fst) := by
    intro post op pre hsplit hsome
    have hsaved : x29 ∈ (saves (op :: pre)).map Prod.fst := by
      rw [← List.singleton_append]
      exact ((saves_sublist [op] pre).map Prod.fst).subset (hv.fpSaved post op pre hsplit hsome).1
    have hown := (hsplit ▸ hv).not_mem_ownSaves hsaved (depth cs)
    simp only [List.mem_map, mem_loadsFrom]
    constructor
    · rintro ⟨e, ⟨he | he, -⟩, hr⟩
      · exact absurd (hr ▸ List.mem_map_of_mem he) hown
      · exact ⟨e, he, hr⟩
    · rintro ⟨e, he, hr⟩
      exact ⟨e, ⟨.inr he, hr ▸ by decide⟩, hr⟩
  constructor
  · intro h
    refine ⟨fun e he => ?_, fun post op pre hsplit hsome => ?_⟩
    · have hload := h.found e (mem_saves_iff.mpr (.inr he))
      rcases (mem_loadsFrom.mp hload).1 with hown | htake
      · exact absurd hown (hv.not_own_of_next he)
      · exact htake
    · rw [← hx29 post op pre hsplit hsome]
      exact h.x29 post op pre hsplit hsome
  · intro h
    refine ⟨fun e he => mem_loadsFrom.mpr ⟨?_, htracked e he⟩, fun post op pre hsplit hsome => ?_⟩
    · exact (mem_saves_iff.mp he).imp_right (h.found e)
    · rw [hx29 post op pre hsplit hsome]
      exact h.x29 post op pre hsplit hsome

end Kernemul.Unwind.Arm64
