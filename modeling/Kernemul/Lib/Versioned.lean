import Mathlib.Tactic.Common

/-!
# Versioned registers

A register for each key, with a stamp for each value it is given. What is done to the registers is a log, its
newest act first. A log is legal when every read tells what the last update left and no delete took away, a
conditional update goes through exactly when its stamp is the current one, and the stamps of a key increase.
-/

namespace Versioned

variable {κ α : Type*}

/-- What was done; an update that was refused, or one that was made, conditional or not. -/
inductive Act (κ α : Type*)
  | update (key : κ) (value : α) (expected : Option Nat) (stamp : Nat)
  | refuse (key : κ) (expected : Nat)
  | delete (key : κ)
  | read (key : κ) (told : Option (α × Nat))

section current
variable [DecidableEq κ]

/-- What the last update of a key left, unless it was deleted since. -/
def current (key : κ) : List (Act κ α) → Option (α × Nat)
  | [] => none
  | .update k value _ stamp :: log => if k = key then some (value, stamp) else current key log
  | .delete k :: log => if k = key then none else current key log
  | .refuse _ _ :: log | .read _ _ :: log => current key log

/-- The stamps that a key has been given, also before it was deleted. -/
def stamps (key : κ) : List (Act κ α) → List Nat
  | [] => []
  | .update k _ _ stamp :: log => if k = key then stamp :: stamps key log else stamps key log
  | .delete _ :: log | .refuse _ _ :: log | .read _ _ :: log => stamps key log

def currentStamp (key : κ) (log : List (Act κ α)) : Nat := ((current key log).map Prod.snd).getD 0

/-- An act is one that a versioned register allows after the others. -/
def Act.Allowed (log : List (Act κ α)) : Act κ α → Prop
  | .update key _ expected stamp =>
    (∀ m ∈ expected, m = currentStamp key log) ∧ ∀ old ∈ stamps key log, old < stamp
  | .refuse key expected => expected ≠ currentStamp key log
  | .delete _ => True
  | .read key told => told = current key log

inductive Legal : List (Act κ α) → Prop
  | nil : Legal []
  | cons {act : Act κ α} {log : List (Act κ α)} (hact : act.Allowed log) (h : Legal log) : Legal (act :: log)

theorem legal_cons {act : Act κ α} {log : List (Act κ α)} : Legal (act :: log) ↔ act.Allowed log ∧ Legal log := by
  constructor
  · rintro (_ | ⟨hact, h⟩)
    exact ⟨hact, h⟩
  · exact fun ⟨hact, h⟩ => .cons hact h

theorem Legal.of_append {acts log : List (Act κ α)} (h : Legal (acts ++ log)) : Legal log := by
  induction acts with
  | nil => exact h
  | cons act acts ih => exact ih (legal_cons.mp h).2

/-- No conditional update overwrites one that its client has not seen: the update whose stamp it came with is still
what the key holds. -/
theorem Legal.not_lost {key : κ} {value : α} {m stamp : Nat} {acts log : List (Act κ α)}
    (h : Legal (acts ++ .update key value (some m) stamp :: log)) (hm : m ≠ 0) :
    ∃ old, current key log = some (old, m) := by
  obtain ⟨⟨hcurrent, -⟩, -⟩ := legal_cons.mp h.of_append
  have hstamp := hcurrent m rfl
  unfold currentStamp at hstamp
  cases hc : current key log with
  | none =>
    rw [hc] at hstamp
    exact absurd hstamp hm
  | some entry =>
    rw [hc] at hstamp
    obtain ⟨old, st⟩ := entry
    exact ⟨old, by rw [hstamp]; rfl⟩

end current

end Versioned
