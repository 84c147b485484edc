import Kernemul.Win.UserMem.Vad

/-!
# Requests

What the rest of the kernel asks of the manager: the calls, with any 64-bit numbers, and the registration of
images and mappings. A run is sound when no `allocate` in it gets past the checks with a sum that wraps;
the books of every state of such a run are in order.
-/

namespace Kernemul.UserMem

open Segments

inductive Request
  | call (call : Call)
  | registerImage (base size : Nat)
  | registerMapped (base size : Nat) (prot : Prot)
  deriving DecidableEq, Repr

/-- The state after a request; `none` when it never returns. -/
def serve (s : State) : Request → Option State
  | .call call => step s call
  | .registerImage base size => some (registerImage s base size)
  | .registerMapped base size prot => some (registerMapped s base size prot)

/-- What is registered is a page range below the user limit, and each reservation is that range or apart
from it. -/
def Registers (s : State) (base size : Nat) : Prop :=
  IsPage base ∧ 0 < sizeAlign size ∧ base + sizeAlign size ≤ userAddrLimit ∧
    ∀ r ∈ s.reservations, (r.base = base ∧ r.size = sizeAlign size) ∨
      r.stop ≤ base ∨ base + sizeAlign size ≤ r.base

instance (s : State) (base size : Nat) : Decidable (Registers s base size) :=
  inferInstanceAs (Decidable (_ ∧ _ ∧ _ ∧ _))

/-- An `allocate` that passes its checks has no sum that wraps. -/
def Request.Sound (s : State) : Request → Prop
  | .call (.allocate base size allocType prot alignment) =>
    alignment < 2 ^ 64 ∧ (Accepts s base size allocType alignment →
      (Call.allocate base size allocType prot alignment).NonWrapping s)
  | .call _ => True
  | .registerImage base size => Registers s base size
  | .registerMapped base size _ => Registers s base size

def Request.NonWrapping (s : State) : Request → Prop
  | .call c => c.NonWrapping s
  | .registerImage base size => Registers s base size
  | .registerMapped base size _ => Registers s base size

instance (s : State) : DecidablePred (Request.NonWrapping s)
  | .call c => inferInstanceAs (Decidable (c.NonWrapping s))
  | .registerImage base size => inferInstanceAs (Decidable (Registers s base size))
  | .registerMapped base size _ => inferInstanceAs (Decidable (Registers s base size))

variable {s : State}

theorem Request.NonWrapping.sound {request : Request} (h : request.NonWrapping s) :
    request.Sound s := by
  cases request with
  | call call =>
    cases call with
    | allocate => exact ⟨h.2.1, fun _ => h⟩
    | free => trivial
    | protect => trivial
    | handleFault => trivial
  | registerImage => exact h
  | registerMapped => exact h

abbrev SoundRun (phys : Nat) : List Request → State → Prop :=
  Run.Steps serve (fun s request => request.Sound s) (State.init phys)

abbrev PlainRun (phys : Nat) : List Request → State → Prop :=
  Run.Steps serve (fun s request => request.NonWrapping s) (State.init phys)

def plainCheck (s : State) (request : Request) : Bool := decide (request.NonWrapping s)

variable {requests : List Request}

theorem PlainRun.sound {phys : Nat} (h : PlainRun phys requests s) : SoundRun phys requests s :=
  h.mono fun _ _ => Request.NonWrapping.sound

/-! ## Registering -/

def registered (base size : Nat) (prot : Prot) (type : BitVec 32) : Seg Reservation :=
  ⟨base, sizeAlign size, ⟨prot, type, [⟨base, sizeAlign size, prot⟩]⟩⟩

section Register
variable {s : State} {base size : Nat} (hr : Registers s base size) (prot : Prot) (type : BitVec 32)
include hr

theorem Registers.committed :
    CommittedIn base (base + sizeAlign size) (registered base size prot type).val.committed ∧
      Maximal (registered base size prot type).val.committed :=
  ⟨initialCommitted_in hr.1 (isPage_sizeAlign size) hr.2.1 true prot,
    maximal_initialCommitted hr.2.1 true prot⟩

theorem Booked.register (h : Booked s) :
    Booked { s with reservations := Segments.put (registered base size prot type) s.reservations } := by
  have hin := (hr.committed prot type).1
  obtain ⟨hpage, hpos, hlim, hapart⟩ := hr
  by_cases hex : ∃ t ∈ s.reservations, t.base = base ∧ t.size = sizeAlign size
  · obtain ⟨t, ht, rfl, hs⟩ := hex
    unfold registered at hin ⊢
    rw [← hs] at hin ⊢
    rw [put_eq_modify (s := ⟨t.base, t.size, ⟨prot, type, [⟨t.base, t.size, prot⟩]⟩⟩) h.valid ht rfl rfl]
    exact h.editWith ht (m := s.pages) (f := fun _ => ⟨prot, type, [⟨t.base, t.size, prot⟩]⟩) hin
  · exact h.put (r := registered base size prot type) (m := s.pages)
      ⟨hpage, hpage.add (isPage_sizeAlign size)⟩ hpos hlim
      (fun t ht => (hapart t ht).resolve_left fun heq => hex ⟨t, ht, heq⟩) hin

theorem VadInv.register (h : VadInv s) :
    VadInv { s with reservations := Segments.put (registered base size prot type) s.reservations } := by
  refine (h.booked.register hr prot type).vadInv fun t ht => ?_
  rcases mem_of_mem_put ht with rfl | ht
  · exact (hr.committed prot type).2
  · exact (h.committed t ht).maximal

end Register

/-! ## The books after any run -/

theorem Booked.step {s' : State} {call : Call} (h : Booked s) (hok : (Request.call call).Sound s)
    (hstep : UserMem.step s call = some s') : Booked s' := by
  cases call with
  | allocate base size allocType prot alignment =>
    rw [UserMem.step, Option.map_eq_some_iff] at hstep
    obtain ⟨⟨ret, s'⟩, hret, rfl⟩ := hstep
    obtain ⟨ha, hsound⟩ := hok
    have hout := allocate_outcome h ha hret
    cases hout with
    | refused hnot hstatus hn => exact h.withNextFree hn
    | committed hacc hin hpos hle =>
      obtain ⟨⟨hmem, hhas⟩, -⟩ := commitsIn_eq_some h hin
      have hlo := isPage_pageAlign base
      exact h.edit hmem (h.commit_committed hmem hlo (hlo.add (isPage_regionOf base size)) hhas.1
        (by omega) hle prot).1
    | reserved hacc hn hnone hplaced hpage hpos hlim hdis =>
      exact (h.withNextFree hn).addReservation hpage (isPage_regionOf base size) hpos hlim hdis _ prot
    | wrapped hacc hpos htarget hw => exact absurd hw (not_le.mpr (htarget.lt h (hsound hacc)))
  | free base size freeType =>
    cases hstep
    have hout := free_outcome h base size freeType
    generalize (free s base size freeType).1 = ret at hout
    generalize (free s base size freeType).2 = s' at hout
    cases hout with
    | refused => exact h
    | released => exact h.release _
    | decommitted hbits hfind hpage hpos =>
      have hlo := isPage_pageAlign base
      exact h.decommit (h.of_find hfind).1 hlo (hlo.add hpage) (by omega)
    | wrapped hbits hfind hw hin => exact h.edit (m := s.pages) (h.of_find hfind).1 hin
  | protect base size newProt =>
    cases hstep
    have hout := protect_outcome h base size newProt
    generalize (protect s base size newProt).2.1 = old at hout
    generalize (protect s base size newProt).2.2 = s' at hout
    cases hout with
    | untracked => exact h.withPages _
    | uncommitted => exact h
    | changed hfind hold =>
      have hlo := isPage_pageAlign base
      have hmem := (h.of_find hfind).1
      exact h.edit hmem (h.reprotect_committed hmem hlo (hlo.add (isPage_regionOf base size))
        (Nat.le_add_right _ _) newProt).1
    | wrapped hfind hold hw hin => exact h.edit (m := s.pages) (h.of_find hfind).1 hin
  | handleFault faultAddr =>
    cases hstep
    have hpage := isPage_pageAlign faultAddr
    have hout := handleFault_outcome h faultAddr
    generalize (handleFault s faultAddr).1 = ret at hout
    generalize (handleFault s faultAddr).2 = s' at hout
    cases hout with
    | ignored => exact h
    | demand hfind =>
      obtain ⟨hmem, hhas⟩ := h.of_find hfind
      exact h.edit hmem (h.faultIn_committed hmem hpage hhas _).1
    | guard hfind =>
      obtain ⟨hmem, hhas⟩ := h.of_find hfind
      exact h.edit hmem (h.faultIn_committed hmem hpage hhas _).1

theorem serve_booked {s' : State} {request : Request} (h : Booked s) (hok : request.Sound s)
    (hstep : serve s request = some s') : Booked s' := by
  cases request with
  | call call => exact h.step hok hstep
  | registerImage base size =>
    cases hstep
    exact h.register hok pageExecuteReadwrite memImage
  | registerMapped base size prot =>
    cases hstep
    exact h.register hok prot memMapped

theorem serve_vadInv {s' : State} {request : Request} (h : VadInv s) (hok : request.NonWrapping s)
    (hstep : serve s request = some s') : VadInv s' := by
  cases request with
  | call call => exact h.step hok hstep
  | registerImage base size =>
    cases hstep
    exact h.register hok pageExecuteReadwrite memImage
  | registerMapped base size prot =>
    cases hstep
    exact h.register hok prot memMapped

theorem soundRun_booked {phys : Nat} (h : SoundRun phys requests s) : Booked s :=
  h.invariant (fun _ _ _ hs hok hstep => serve_booked hs hok hstep) (init_booked phys)

theorem plainRun_vadInv {phys : Nat} (h : PlainRun phys requests s) : VadInv s :=
  h.invariant (fun _ _ _ hs hok hstep => serve_vadInv hs hok hstep) (init_vadInv phys)

end Kernemul.UserMem
