import Kernemul.Win.Device.Lifecycle
import Kernemul.Win.Requests.Dispatch

/-!
# How long a request has its memory

`Inv` says that what the running calls of `dispatch_irp` have is live in the pool and apart, and that every
request a driver holds belongs to a running call. It is kept as long as a routine returns from requests that
it has completed.
-/

namespace Kernemul.Requests

open Device (SpaceInv irpSize irpTag)

def State.live (s : State) (addr : Nat) : Option (Nat × BitVec 32) := s.kernel.pool.live.lookup addr

/-! ## Blocks -/

/-- What `pool_block` takes from the pool; nothing for a size of 0. -/
structure Borrowed (s s' : State) (addr size : Nat) (tag : BitVec 32) : Prop where
  zero : addr = 0 ↔ size = 0
  fresh : addr ≠ 0 → s.live addr = none
  live : ∀ a, s'.live a = if a = addr ∧ addr ≠ 0 then some (size, tag) else s.live a
  rest : s' = { s with kernel := s'.kernel, mem := s'.mem }
  space : SpaceInv s'.kernel

variable {s s' : State}

theorem poolBlock_spec (h : SpaceInv s.kernel) {size addr : Nat} {tag : BitVec 32}
    (hs : size < 2 ^ 63) (hb : s.poolBlock size tag = some (addr, s')) : Borrowed s s' addr size tag := by
  unfold State.poolBlock at hb
  split at hb
  · rename_i h0
    cases hb
    refine ⟨⟨fun _ => h0, fun _ => rfl⟩, fun hne => absurd rfl hne, fun a => ?_, rfl, h⟩
    rw [if_neg fun hc => hc.2 rfl]
  · rename_i h0
    obtain ⟨⟨addr', kernel⟩, halloc, hb⟩ := Option.map_eq_some_iff.mp hb
    cases hb
    have htaken := Device.poolAllocate_spec h h0 hs halloc
    refine ⟨⟨fun hz => absurd hz htaken.ne_zero, fun hz => absurd hz h0⟩, fun _ => ?_, fun a => ?_, rfl,
      htaken.space⟩
    · exact AList.lookup_eq_none.mpr htaken.fresh
    · unfold State.live
      dsimp only
      rw [htaken.live]
      by_cases ha : a = addr
      · rw [ha, AList.lookup_insert, if_pos ⟨rfl, htaken.ne_zero⟩]
      · rw [AList.lookup_insert_ne ha, if_neg fun hc => ha hc.1]

theorem giveBack_space (h : SpaceInv s.kernel) (addr : Nat) : SpaceInv (s.giveBack addr).kernel := by
  unfold State.giveBack
  split
  · exact h
  · exact (Device.poolFree_spec h addr).space

theorem giveBack_live (h : SpaceInv s.kernel) (addr a : Nat) :
    (s.giveBack addr).live a = if a = addr ∧ addr ≠ 0 then none else s.live a := by
  unfold State.giveBack
  split
  · rename_i h0
    rw [if_neg fun hc => hc.2 h0]
  · rename_i h0
    unfold State.live
    dsimp only
    rw [(Device.poolFree_spec h addr).live]
    by_cases ha : a = addr
    · rw [ha, AList.lookup_erase, if_pos ⟨rfl, h0⟩]
    · rw [AList.lookup_erase_ne ha, if_neg fun hc => ha hc.1]

theorem giveBack_rest (s : State) (addr : Nat) :
    s.giveBack addr = { s with kernel := (s.giveBack addr).kernel } := by
  unfold State.giveBack
  split <;> rfl

def Dispatch.addrs (d : Dispatch) : List Nat := d.blocks.map Prod.fst

variable {d : Dispatch}

theorem Dispatch.mem_addrs {a : Nat} :
    a ∈ d.addrs ↔ a ≠ 0 ∧ (a = d.buffer ∨ a = d.mdl ∨ a = d.request) := by
  simp only [addrs, blocks, List.mem_map, List.mem_filter, List.mem_cons, List.not_mem_nil, or_false,
    decide_eq_true_eq]
  constructor
  · rintro ⟨e, ⟨rfl | rfl | rfl, hne⟩, rfl⟩
    · exact ⟨hne, Or.inl rfl⟩
    · exact ⟨hne, Or.inr (Or.inl rfl)⟩
    · exact ⟨hne, Or.inr (Or.inr rfl)⟩
  · rintro ⟨hne, rfl | rfl | rfl⟩
    · exact ⟨_, ⟨Or.inl rfl, hne⟩, rfl⟩
    · exact ⟨_, ⟨Or.inr (Or.inl rfl), hne⟩, rfl⟩
    · exact ⟨_, ⟨Or.inr (Or.inr rfl), hne⟩, rfl⟩

/-- Leaving a call takes what it had out of the live set, and nothing else. -/
structure Released (s s' : State) (d : Dispatch) : Prop where
  live : ∀ a, s'.live a = if a ∈ d.addrs then none else s.live a
  rest : s' = { s with kernel := s'.kernel }
  space : SpaceInv s'.kernel

theorem release_spec (h : SpaceInv s.kernel) (d : Dispatch) : Released s (s.release d) d := by
  have h1 := giveBack_space h d.request
  have h2 := giveBack_space h1 d.mdl
  refine ⟨fun a => ?_, ?_, giveBack_space h2 d.buffer⟩
  · unfold State.release
    rw [giveBack_live h2, giveBack_live h1, giveBack_live h]
    simp only [Dispatch.mem_addrs]
    grind
  · unfold State.release
    rw [giveBack_rest, giveBack_rest (s.giveBack d.request), giveBack_rest s]

/-! ## Sending -/

structure Built (s s' : State) (d : Dispatch) : Prop where
  request_ne : d.request ≠ 0
  buffer_zero : d.buffer = 0 → d.req.bufferSize = 0
  fresh : ∀ a ∈ d.addrs, s.live a = none
  own : ∀ e ∈ d.blocks, s'.live e.1 = some e.2
  others : ∀ a ∉ d.addrs, s'.live a = s.live a
  rest : s' = { s with kernel := s'.kernel, mem := s'.mem }
  space : SpaceInv s'.kernel

theorem Request.bufferSize_lt (r : Request) : r.bufferSize < 2 ^ 32 := by
  have h1 := r.inputLength.toNat_lt
  have h2 := r.outputLength.toNat_lt
  unfold bufferSize
  split
  · split <;> omega
  · decide

theorem Request.mdlBytes_lt (r : Request) : r.mdlBytes < 2 ^ 32 := by
  have h := r.outputLength.toNat_lt
  unfold mdlBytes mdlSize mdlPageCount mdlPageOffset pageSize
  split
  · omega
  · decide

theorem built {s₁ s₂ s₃ : State} {req : Request} {buffer mdl request : Nat}
    (h1 : Borrowed s s₁ buffer req.bufferSize irpTag) (h2 : Borrowed s₁ s₂ mdl req.mdlBytes mdlTag)
    (h3 : Borrowed s₂ s₃ request irpSize irpTag) : Built s s₃ ⟨req, buffer, mdl, request⟩ := by
  have hne : request ≠ 0 := fun h0 => absurd (h3.zero.mp h0) (by decide)
  -- a block that is new is none of those that were made before it
  have hmdl : mdl ≠ 0 → buffer ≠ 0 → mdl ≠ buffer := by
    rintro hm hb rfl
    have := h2.fresh hm
    rw [h1.live, if_pos ⟨rfl, hb⟩] at this
    cases this
  have hreq := h3.fresh hne
  rw [h2.live] at hreq
  have hreq2 : mdl ≠ 0 → request ≠ mdl := by
    rintro hm rfl
    rw [if_pos ⟨rfl, hm⟩] at hreq
    cases hreq
  rw [if_neg fun hc => hreq2 hc.2 hc.1, h1.live] at hreq
  have hreq1 : buffer ≠ 0 → request ≠ buffer := by
    rintro hb rfl
    rw [if_pos ⟨rfl, hb⟩] at hreq
    cases hreq
  rw [if_neg fun hc => hreq1 hc.2 hc.1] at hreq
  refine ⟨hne, h1.zero.mp, fun a ha => ?_, fun e he => ?_, fun a ha => ?_, ?_, h3.space⟩
  · obtain ⟨ha0, rfl | rfl | rfl⟩ := Dispatch.mem_addrs.mp ha
    · exact h1.fresh ha0
    · have hfresh := h2.fresh ha0
      rw [h1.live] at hfresh
      split at hfresh
      · cases hfresh
      · exact hfresh
    · exact hreq
  · simp only [Dispatch.blocks, List.mem_filter, List.mem_cons, List.not_mem_nil, or_false,
      decide_eq_true_eq] at he
    rw [h3.live, h2.live, h1.live]
    obtain ⟨rfl | rfl | rfl, he0⟩ := he
    · rw [if_neg fun hc => hreq1 he0 hc.1.symm, if_neg fun hc => hmdl hc.2 he0 hc.1.symm, if_pos ⟨rfl, he0⟩]
    · rw [if_neg fun hc => hreq2 he0 hc.1.symm, if_pos ⟨rfl, he0⟩]
    · rw [if_pos ⟨rfl, he0⟩]
  · have hnot := mt Dispatch.mem_addrs.mpr ha
    rw [h3.live, h2.live, h1.live]
    grind
  · rw [h3.rest, h2.rest, h1.rest]

structure Aside (s s' : State) : Prop where
  live : ∀ a, s'.live a = s.live a
  rest : s' = { s with kernel := s'.kernel, mem := s'.mem }
  space : SpaceInv s'.kernel

theorem Built.release (h : Built s s' d) (mem : Nat → Option UInt8) :
    Aside s ({ s' with mem }.release d) := by
  have hr := release_spec (s := { s' with mem }) h.space d
  refine ⟨fun a => ?_, ?_, hr.space⟩
  · rw [hr.live]
    split
    · rename_i ha
      exact (h.fresh a ha).symm
    · rename_i ha
      exact h.others a ha
  · rw [hr.rest, h.rest]

/-- A request that reaches its driver: it has its blocks, and is written, running and held. -/
structure Issued (s s' : State) (d : Dispatch) : Prop where
  built : ∃ s₁, Built s s₁ d ∧ s'.kernel = s₁.kernel
  irps : s'.irps = Function.update s.irps d.request d.body
  dispatches : s'.dispatches = d :: s.dispatches
  held : s'.held = d :: s.held

theorem startIrp_spec {s₁ : State} {answer : Answer} (h : Built s s₁ d)
    (hs : s₁.startIrp d = (answer, s')) : Aside s s' ∨ Issued s s' d := by
  unfold State.startIrp at hs
  split at hs
  · cases hs
    exact Or.inl (h.release s₁.mem)
  · generalize hcopy : (if d.req.copiesIn then
      copyGuest s₁.mem d.buffer d.req.inputBuffer d.req.inputLength.toNat else (true, s₁.mem)) = r at hs
    obtain ⟨copied, mem⟩ := r
    cases copied with
    | false =>
      cases hs
      exact Or.inl (h.release mem)
    | true =>
      cases hs
      refine Or.inr ⟨⟨s₁, h, rfl⟩, ?_, ?_, ?_⟩
      all_goals
        rw [h.rest]
        rfl

theorem sendIrp_spec (h : SpaceInv s.kernel) {req : Request} {answer : Answer}
    (hs : s.sendIrp req = some (answer, s')) : Aside s s' ∨ ∃ d, d.req = req ∧ Issued s s' d := by
  unfold State.sendIrp at hs
  split at hs
  · cases hs
    exact Or.inl ⟨fun _ => rfl, rfl, h⟩
  · split at hs
    · cases hs
      exact Or.inl ⟨fun _ => rfl, rfl, h⟩
    · obtain ⟨⟨buffer, s₁⟩, h1, hs⟩ := Option.bind_eq_some_iff.mp hs
      obtain ⟨⟨mdl, s₂⟩, h2, hs⟩ := Option.bind_eq_some_iff.mp hs
      obtain ⟨⟨request, s₃⟩, h3, hs⟩ := Option.bind_eq_some_iff.mp hs
      have hb1 := poolBlock_spec h (req.bufferSize_lt.trans (by decide)) h1
      have hb2 := poolBlock_spec hb1.space (req.mdlBytes_lt.trans (by decide)) h2
      have hb3 := poolBlock_spec hb2.space (by decide) h3
      exact (startIrp_spec (built hb1 hb2 hb3) (Option.some.inj hs)).imp_right fun hi => ⟨_, rfl, hi⟩

/-! ## The invariant -/

structure Inv (s : State) : Prop where
  space : SpaceInv s.kernel
  own : ∀ d ∈ s.dispatches, ∀ e ∈ d.blocks, s.live e.1 = some e.2
  apart : ∀ d ∈ s.dispatches, ∀ d' ∈ s.dispatches, ∀ a ∈ d.addrs, a ∈ d'.addrs → d = d'
  nodup : s.dispatches.Nodup
  request_ne : ∀ d ∈ s.dispatches, d.request ≠ 0
  buffer_zero : ∀ d ∈ s.dispatches, d.buffer = 0 → d.req.bufferSize = 0
  active : ∀ d ∈ s.held, d ∈ s.dispatches
  stackCount : ∀ d ∈ s.dispatches, (s.irps d.request).stackCount = 1
  completed : ∀ d ∈ s.dispatches, (s.irps d.request).completed ↔ d ∉ s.held

theorem request_mem (h : d.request ≠ 0) : d.request ∈ d.addrs :=
  Dispatch.mem_addrs.mpr ⟨h, Or.inr (Or.inr rfl)⟩

theorem Inv.live_addr (h : Inv s) (hd : d ∈ s.dispatches) {a : Nat} (ha : a ∈ d.addrs) : s.live a ≠ none := by
  obtain ⟨e, he, rfl⟩ := List.mem_map.mp ha
  rw [h.own d hd e he]
  exact Option.some_ne_none _

/-- **What the requests that drivers hold have from the pool is live.** -/
def State.Kept (s : State) : Prop := ∀ d ∈ s.held, ∀ e ∈ d.blocks, s.live e.1 = some e.2

theorem Inv.kept (h : Inv s) : s.Kept := fun d hd => h.own d (h.active d hd)

theorem Inv.aside (h : Inv s) (hspace : SpaceInv s'.kernel)
    (hlive : ∀ d ∈ s.dispatches, ∀ a ∈ d.addrs, s'.live a = s.live a)
    (hirps : ∀ a, (s'.irps a).stackCount = (s.irps a).stackCount ∧
      (s'.irps a).currentLocation = (s.irps a).currentLocation)
    (hd : s'.dispatches = s.dispatches) (hheld : s'.held = s.held) : Inv s' := by
  refine ⟨hspace, ?_, ?_, ?_, ?_, ?_, ?_, ?_, ?_⟩ <;> rw [hd]
  · intro d hmem e he
    rw [hlive d hmem e.1 (List.mem_map_of_mem he)]
    exact h.own d hmem e he
  · exact h.apart
  · exact h.nodup
  · exact h.request_ne
  · exact h.buffer_zero
  · rw [hheld]
    exact h.active
  · intro d hmem
    rw [(hirps _).1]
    exact h.stackCount d hmem
  · intro d hmem
    rw [hheld, ← h.completed d hmem, Irp.completed, Irp.completed, (hirps _).1, (hirps _).2]

theorem Issued.inv (h : Inv s) (hi : Issued s s' d) : Inv s' := by
  obtain ⟨s₁, hb, hk⟩ := hi.built
  have hlive : ∀ a, s'.live a = s₁.live a := fun a => by rw [State.live, hk, State.live]
  -- the blocks of the calls that run already are not the new ones
  have hold : ∀ d' ∈ s.dispatches, ∀ a ∈ d'.addrs, a ∉ d.addrs := fun d' hd' a ha hmem =>
    h.live_addr hd' ha (hb.fresh a hmem)
  have hself := request_mem hb.request_ne
  have hne : ∀ d' ∈ s.dispatches, d'.request ≠ d.request := fun d' hd' heq =>
    hold d' hd' _ (request_mem (h.request_ne d' hd')) (heq ▸ hself)
  have hnew : d ∉ s.dispatches := fun hd => hne d hd rfl
  have hirp : ∀ d' ∈ s.dispatches, s'.irps d'.request = s.irps d'.request := fun d' hd' => by
    rw [hi.irps, Function.update_of_ne (hne d' hd')]
  refine ⟨hk ▸ hb.space, ?_, ?_, ?_, ?_, ?_, ?_, ?_, ?_⟩ <;> rw [hi.dispatches]
  · refine List.forall_mem_cons.mpr ⟨fun e he => (hlive _).trans (hb.own e he), fun d' hd' e he => ?_⟩
    rw [hlive, hb.others _ (hold d' hd' _ (List.mem_map_of_mem he))]
    exact h.own d' hd' e he
  · refine List.forall_mem_cons.mpr ⟨?_, fun d₁ h₁ => ?_⟩ <;>
      refine List.forall_mem_cons.mpr ⟨?_, fun d₂ h₂ a ha₁ ha₂ => ?_⟩
    · exact fun _ _ _ => rfl
    · exact absurd ha₁ (hold d₂ h₂ a ha₂)
    · exact fun a ha₁ ha₂ => absurd ha₂ (hold d₁ h₁ a ha₁)
    · exact h.apart d₁ h₁ d₂ h₂ a ha₁ ha₂
  · exact List.nodup_cons.mpr ⟨hnew, h.nodup⟩
  · exact List.forall_mem_cons.mpr ⟨hb.request_ne, h.request_ne⟩
  · exact List.forall_mem_cons.mpr ⟨hb.buffer_zero, h.buffer_zero⟩
  · rw [hi.held]
    exact List.forall_mem_cons.mpr ⟨List.mem_cons_self, fun d' hd' => List.mem_cons_of_mem _ (h.active d' hd')⟩
  · refine List.forall_mem_cons.mpr ⟨?_, fun d' hd' => ?_⟩
    · rw [hi.irps, Function.update_self]
      rfl
    · rw [hirp d' hd']
      exact h.stackCount d' hd'
  · rw [hi.held]
    refine List.forall_mem_cons.mpr ⟨?_, fun d' hd' => ?_⟩
    · rw [hi.irps, Function.update_self]
      exact ⟨fun hc => absurd hc (by simp [Irp.completed, Dispatch.body]), fun hc => absurd List.mem_cons_self hc⟩
    · rw [hirp d' hd', h.completed d' hd', List.mem_cons, not_or]
      exact ⟨fun hc => ⟨fun heq => hnew (heq ▸ hd'), hc⟩, And.right⟩

theorem iofCompleteRequest_inv (h : Inv s) (irp : Nat) : Inv (s.iofCompleteRequest irp) := by
  unfold State.iofCompleteRequest
  split
  · exact h
  · refine ⟨h.space, h.own, h.apart, h.nodup, h.request_ne, h.buffer_zero, fun d hd => ?_, fun d hd => ?_,
      fun d hd => ?_⟩
    · exact h.active d (List.mem_of_mem_filter hd)
    · dsimp only
      rw [Function.update_apply]
      split
      · rename_i heq
        exact heq ▸ h.stackCount d hd
      · exact h.stackCount d hd
    · dsimp only
      rw [Function.update_apply, List.mem_filter]
      split
      · rename_i heq
        rw [Irp.completed]
        dsimp only
        rw [← heq, h.stackCount d hd]
        simp
      · rename_i hne
        rw [h.completed d hd]
        simp [hne]

/-! ## Returning -/

theorem dispatch?_spec {irp : Nat} (h : s.dispatch? irp = some d) :
    d ∈ s.dispatches ∧ d.request = irp :=
  ⟨List.mem_of_find?_eq_some h, by simpa using List.find?_some h⟩

structure Finished (s s' : State) (d : Dispatch) : Prop where
  live : ∀ a, s'.live a = if a ∈ d.addrs then none else s.live a
  irps : s'.irps = s.irps
  dispatches : s'.dispatches = s.dispatches.erase d
  held : s'.held = s.held
  mem : s'.mem = if (s.irps d.request).completed ∧ d.req.copiesOut then
    (copyGuest s.mem d.req.outputBuffer d.buffer (s.outputSize d)).2 else s.mem
  space : SpaceInv s'.kernel

theorem released_off (h : SpaceInv s.kernel) (d : Dispatch) (mem : Nat → Option UInt8)
    (hmem : mem = if (s.irps d.request).completed ∧ d.req.copiesOut then
      (copyGuest s.mem d.req.outputBuffer d.buffer (s.outputSize d)).2 else s.mem) :
    Finished s (({ s with dispatches := s.dispatches.erase d, mem } : State).release d) d := by
  have hr := release_spec (s := { s with dispatches := s.dispatches.erase d, mem }) h d
  refine ⟨hr.live, ?_, ?_, ?_, ?_, hr.space⟩ <;> rw [hr.rest]
  exact hmem

theorem finishIrp_spec (h : SpaceInv s.kernel) (d : Dispatch) : Finished s (s.finishIrp d).2 d := by
  unfold State.finishIrp
  dsimp only
  split
  · rename_i hdone
    split
    · rename_i hout
      exact released_off h d _ (if_pos ⟨hdone, hout⟩).symm
    · rename_i hout
      exact released_off h d _ (if_neg fun hc => hout hc.2).symm
  · rename_i hdone
    exact released_off h d s.mem (if_neg fun hc => hdone hc.1).symm

theorem Finished.inv (h : Inv s) (hd : d ∈ s.dispatches) (hdone : d ∉ s.held) (hf : Finished s s' d) : Inv s' := by
  have hmem : ∀ {d'}, d' ∈ s'.dispatches ↔ d' ≠ d ∧ d' ∈ s.dispatches := by
    intro d'
    rw [hf.dispatches]
    exact h.nodup.mem_erase_iff
  refine ⟨hf.space, fun d' hd' e he => ?_, fun d₁ h₁ d₂ h₂ => ?_, ?_, fun d' hd' => ?_, fun d' hd' => ?_,
    fun d' hd' => ?_, fun d' hd' => ?_, fun d' hd' => ?_⟩
  · -- the blocks that are freed are of the call that is left
    obtain ⟨hne, hold⟩ := hmem.mp hd'
    have haddr : e.1 ∈ d'.addrs := List.mem_map_of_mem he
    rw [hf.live, if_neg fun hc => hne (h.apart d' hold d hd _ haddr hc)]
    exact h.own d' hold e he
  · exact h.apart d₁ (hmem.mp h₁).2 d₂ (hmem.mp h₂).2
  · rw [hf.dispatches]
    exact h.nodup.erase d
  · exact h.request_ne d' (hmem.mp hd').2
  · exact h.buffer_zero d' (hmem.mp hd').2
  · rw [hf.held] at hd'
    exact hmem.mpr ⟨fun heq => hdone (heq ▸ hd'), h.active d' hd'⟩
  · rw [hf.irps]
    exact h.stackCount d' (hmem.mp hd').2
  · rw [hf.irps, hf.held]
    exact h.completed d' (hmem.mp hd').2

theorem request_block (h : d.request ≠ 0) : (d.request, irpSize, irpTag) ∈ d.blocks :=
  List.mem_filter.mpr ⟨List.mem_cons_of_mem _ (List.mem_cons_of_mem _ List.mem_cons_self), by simpa using h⟩

/-- A routine that returns with its request held has it held without its memory. -/
theorem Finished.not_kept (h : Inv s) (hheld : d ∈ s.held) (hf : Finished s s' d) : ¬ s'.Kept := by
  intro hk
  have hne := h.request_ne d (h.active d hheld)
  have hlive := hk d (hf.held ▸ hheld) _ (request_block hne)
  rw [hf.live, if_pos (request_mem hne)] at hlive
  cases hlive

/-! ## What reaches the caller -/

/-- How much of the system buffer a completed request is to bring back: as much as the driver says that it has
written and the output buffer holds, for a buffered control of a caller with an output buffer. -/
def State.delivery (s : State) (d : Dispatch) : Nat :=
  if d.req.copiesOut ∧ d.req.outputBuffer ≠ 0 then s.outputSize d else 0

/-- These bytes of the system buffer, and no others, are put in the caller's output buffer. -/
def Delivers (s s' : State) (d : Dispatch) : Prop :=
  Copy.Copied s.mem s'.mem (span d.req.outputBuffer) (span d.buffer) (s.delivery d)

def State.Reachable (s : State) (d : Dispatch) : Prop :=
  ∀ i < s.delivery d, (s.mem (span d.buffer i)).isSome ∧ (s.mem (span d.req.outputBuffer i)).isSome

theorem span_inj {va n : Nat} (hn : n ≤ 2 ^ 64) :
    ∀ i < n, ∀ j < n, span va i = span va j → i = j := by
  intro i hi j hj heq
  unfold span wrap at heq
  omega

theorem outputSize_le (s : State) (d : Dispatch) :
    s.outputSize d ≤ d.req.outputLength.toNat ∧ s.outputSize d < 2 ^ 32 := by
  have h := d.req.outputLength.toNat_lt
  unfold State.outputSize
  omega

theorem Inv.buffer_ne (h : Inv s) (hd : d ∈ s.dispatches)
    (hout : d.req.copiesOut) (hn : s.outputSize d ≠ 0) : d.buffer ≠ 0 := by
  intro hzero
  have hsize := h.buffer_zero d hd hzero
  have hle := (outputSize_le s d).1
  have hin : d.req.copiesIn := by
    unfold Request.copiesOut at hout
    unfold Request.copiesIn
    simp only [Bool.and_eq_true, decide_eq_true_eq] at hout ⊢
    exact ⟨hout.1, by rw [hout.2]; decide⟩
  unfold Request.bufferSize at hsize
  rw [if_pos hin, if_pos hout] at hsize
  omega

/-- **What a completed request is to bring back reaches the caller exactly when it can be read and there is
room for it.** -/
theorem Finished.delivers_iff (h : Inv s) (hd : d ∈ s.dispatches)
    (hdone : d ∉ s.held) (hf : Finished s s' d) : Delivers s s' d ↔ s.Reachable d := by
  have hmem := hf.mem
  simp only [(h.completed d hd).mpr hdone, true_and] at hmem
  unfold Delivers State.Reachable
  by_cases hzero : s.delivery d = 0
  · rw [hzero, Copy.copied_zero_iff]
    refine ⟨fun _ i hi => absurd hi (Nat.not_lt_zero i), fun _ => ?_⟩
    rw [hmem]
    split
    · rename_i hout
      have hnone : s.outputSize d = 0 ∨ d.req.outputBuffer = 0 ∨ d.buffer = 0 := by
        by_contra hc
        push Not at hc
        rw [State.delivery, if_pos ⟨hout, hc.2.1⟩] at hzero
        exact hc.1 hzero
      rw [copyGuest, if_pos hnone]
    · rfl
  · -- something is to be brought back, so that the copy is made
    obtain ⟨hout, hbuf⟩ : d.req.copiesOut ∧ d.req.outputBuffer ≠ 0 := by
      by_contra hc
      exact hzero (if_neg hc)
    have hsize : s.delivery d = s.outputSize d := if_pos ⟨hout, hbuf⟩
    rw [hsize] at hzero ⊢
    have hmade : ¬ (s.outputSize d = 0 ∨ d.req.outputBuffer = 0 ∨ d.buffer = 0) := by
      rintro (hc | hc | hc)
      · exact hzero hc
      · exact hbuf hc
      · exact h.buffer_ne hd hout hzero hc
    rw [hmem, if_pos hout, copyGuest, if_neg hmade]
    exact Copy.copied_iff (span_inj ((outputSize_le s d).2.le.trans (by decide)))

/-! ## Runs -/

structure Started (s : State) : Prop where
  space : SpaceInv s.kernel
  dispatches : s.dispatches = []
  held : s.held = []

theorem Started.inv (h : Started s) : Inv s := by
  refine ⟨h.space, ?_, ?_, ?_, ?_, ?_, ?_, ?_, ?_⟩ <;> simp [h.dispatches, h.held]

/-- A routine returns from a request that has been completed, and what that is to bring back can be read and has
room. -/
def Call.InTime (s : State) : Call → Prop
  | .finish irp => ∀ d, s.dispatch? irp = some d → d ∉ s.held ∧ s.Reachable d
  | _ => True

/-- The memory of the requests that drivers hold is not given back, and a completed one delivers. -/
def Call.Keeps (s : State) (c : Call) : Prop :=
  ∀ s', step s c = some s' → s'.Kept ∧
    ∀ irp d, c = .finish irp → s.dispatch? irp = some d → d ∉ s.held → Delivers s s' d

theorem allocate_inv (h : Inv s) {size addr : Nat} {tag : BitVec 32} {kernel : Device.State}
    (hs : size < 2 ^ 63) (ha : s.kernel.poolAllocate size tag = some (addr, kernel)) :
    Inv { s with kernel } := by
  by_cases h0 : size = 0
  · obtain rfl : kernel = s.kernel := by
      rw [h0] at ha
      exact (congrArg Prod.snd (Option.some.inj ha)).symm
    exact h
  · have htaken := Device.poolAllocate_spec h.space h0 hs ha
    refine h.aside htaken.space (fun d hd a hmem => ?_) (fun _ => ⟨rfl, rfl⟩) rfl rfl
    -- a new block is none of those that a call has
    have hne : a ≠ addr := by
      rintro rfl
      exact h.live_addr hd hmem (AList.lookup_eq_none.mpr htaken.fresh)
    unfold State.live
    dsimp only
    rw [htaken.live, AList.lookup_insert_ne hne]

theorem free_inv (h : Inv s) {addr : Nat} (hok : (Call.free addr).Ok s) :
    Inv { s with kernel := s.kernel.poolFree addr } := by
  have hgiven := Device.poolFree_spec h.space addr
  refine h.aside hgiven.space (fun d hd a hmem => ?_) (fun _ => ⟨rfl, rfl⟩) rfl rfl
  obtain ⟨e, he, rfl⟩ := List.mem_map.mp hmem
  unfold State.live
  dsimp only
  rw [hgiven.live, AList.lookup_erase_ne (hok d hd e he)]

theorem writeIrp_inv (h : Inv s) (irp : Nat) (body : Irp) : Inv (s.writeIrp irp body) := by
  refine h.aside h.space (fun _ _ _ _ => rfl) (fun a => ?_) rfl rfl
  unfold State.writeIrp
  dsimp only
  rw [Function.update_apply]
  split
  · rename_i heq
    rw [heq]
    exact ⟨rfl, rfl⟩
  · exact ⟨rfl, rfl⟩

theorem step_inv (h : Inv s) {c : Call} (hok : c.Ok s) (htime : c.InTime s) (hs : step s c = some s') : Inv s' := by
  cases c with
  | send req =>
    obtain ⟨⟨answer, s₁⟩, hsend, rfl⟩ := Option.map_eq_some_iff.mp hs
    rcases sendIrp_spec h.space hsend with ha | ⟨d, -, hi⟩
    · refine h.aside ha.space (fun _ _ a _ => ha.live a) (fun a => ?_) ?_ ?_ <;> rw [ha.rest]
      exact ⟨rfl, rfl⟩
    · exact hi.inv h
  | finish irp =>
    obtain ⟨d, hd, rfl⟩ := Option.map_eq_some_iff.mp hs
    exact (finishIrp_spec h.space d).inv h (dispatch?_spec hd).1 (htime d hd).1
  | complete irp =>
    cases hs
    exact iofCompleteRequest_inv h irp
  | write irp body =>
    cases hs
    exact writeIrp_inv h irp body
  | guest mem devices majorFunction =>
    cases hs
    exact h.aside h.space (fun _ _ _ _ => rfl) (fun _ => ⟨rfl, rfl⟩) rfl rfl
  | allocate size tag =>
    obtain ⟨⟨addr, kernel⟩, halloc, rfl⟩ := Option.map_eq_some_iff.mp hs
    exact allocate_inv h hok halloc
  | free addr =>
    cases hs
    exact free_inv h hok

theorem keeps_iff_inTime (h : Inv s) {c : Call} (hok : c.Ok s) : c.Keeps s ↔ c.InTime s := by
  constructor
  · intro hkeeps
    cases c with
    | finish irp =>
      intro d hd
      have hf := finishIrp_spec h.space d
      obtain ⟨hkept, hdel⟩ := hkeeps (s.finishIrp d).2 (by simp only [step, hd, Option.map_some])
      have hdone : d ∉ s.held := fun hc => hf.not_kept h hc hkept
      exact ⟨hdone, (hf.delivers_iff h (dispatch?_spec hd).1 hdone).mp (hdel irp d rfl hd hdone)⟩
    | _ => trivial
  · rintro htime s' hs
    refine ⟨(step_inv h hok htime hs).kept, ?_⟩
    rintro irp d rfl hd hdone
    obtain ⟨d', hd', rfl⟩ := Option.map_eq_some_iff.mp hs
    obtain rfl := Option.some.inj (hd.symm.trans hd')
    exact ((finishIrp_spec h.space d).delivers_iff h (dispatch?_spec hd).1 hdone).mpr (htime d hd).2

/-- **At every step of a run the requests that drivers hold have their memory, and those that are completed
deliver what they are to, exactly when every routine that returns has its request completed**, with what that is
to bring back readable and room for it. -/
theorem run_keeps_iff {s₀ s : State} (h₀ : Started s₀) (calls : List Call) :
    Run.Steps step (fun s c => c.Ok s ∧ c.Keeps s) s₀ calls s ↔
      Run.Steps step (fun s c => c.Ok s ∧ c.InTime s) s₀ calls s :=
  Run.Steps.iff_of_invariant (P := Inv) (fun _ _ _ h hok hs => step_inv h hok.1 hok.2 hs)
    (fun _ _ h => and_congr_right fun hok => keeps_iff_inTime h hok) h₀.inv

instance (s : State) : DecidablePred (Call.Ok s)
  | .allocate size _ => inferInstanceAs (Decidable (size < 2 ^ 63))
  | .free addr => inferInstanceAs (Decidable (∀ d ∈ s.dispatches, ∀ e ∈ d.blocks, e.1 ≠ addr))
  | .send _ | .finish _ | .complete _ | .write _ _ | .guest _ _ _ => inferInstanceAs (Decidable True)

instance (s : State) (d : Dispatch) : Decidable (s.Reachable d) :=
  inferInstanceAs (Decidable (∀ i < s.delivery d, _))

instance (s : State) : DecidablePred (Call.InTime s)
  | .finish irp => inferInstanceAs (Decidable (∀ d, s.dispatch? irp = some d → d ∉ s.held ∧ s.Reachable d))
  | .send _ | .complete _ | .write _ _ | .guest _ _ _ | .allocate _ _ | .free _ =>
    inferInstanceAs (Decidable True)

def userMem : Nat → Option UInt8 := fun a => if 0x10000 ≤ a ∧ a < 0x12000 then some 0 else none

def started : State where
  kernel := Device.booted
  mem := userMem
  devices := fun a => if a = Device.deviceAddr then some 0xFFFFF80100000000 else none
  majorFunction := fun _ _ => 0xFFFFF80100001000
  irps := fun _ => {}
  locations := fun _ => {}
  mdls := fun _ => {}
  dispatches := []
  held := []

theorem started_started : Started started := ⟨Device.booted_start.space, rfl, rfl⟩

def bufferedControl : Request where
  deviceObject := Device.deviceAddr
  controlCode := 0x222000
  inputBuffer := 0x10000
  inputLength := 4
  outputBuffer := 0x11000
  outputLength := 8

/-- Where the first buffered control has its system buffer and its `_IRP`. -/
def bufferAddr : Nat := 0xFFFFF80000001000
def irpAddr : Nat := 0xFFFFF80000001010

/-- The driver fills the system buffer, says that 6 bytes are for the caller, completes, and returns. -/
def completeInTime : List Call :=
  [.send bufferedControl,
    .guest (fun a => if bufferAddr ≤ a ∧ a < bufferAddr + 8 then some 0x41 else userMem a)
      started.devices started.majorFunction,
    .write irpAddr { information := 6 }, .complete irpAddr, .finish irpAddr]

theorem run_keeps_completeInTime :
    ∃ s, Run.Steps step (fun s c => c.Ok s ∧ c.Keeps s) started completeInTime s ∧
    (List.range 8).map (fun i => s.mem (0x11000 + i)) =
      [some 0x41, some 0x41, some 0x41, some 0x41, some 0x41, some 0x41, some 0, some 0] := by
  have hexec : ((Run.exec step (fun s c => decide (c.Ok s ∧ c.InTime s)) started completeInTime).map fun s =>
      (List.range 8).map fun i => s.mem (0x11000 + i)) =
      some [some 0x41, some 0x41, some 0x41, some 0x41, some 0x41, some 0x41, some 0, some 0] := by
    decide +kernel
  obtain ⟨s, hs, hval⟩ := Option.map_eq_some_iff.mp hexec
  have hrun := Run.Steps.of_exec (fun _ _ => of_decide_eq_true) hs
  exact ⟨s, (run_keeps_iff started_started completeInTime).mpr hrun, hval⟩

/-- The driver keeps the request: its routine returns, and the memory of the request goes back to the pool. -/
theorem keptRequest_freed : Started started ∧ ∃ s, Run.Steps step (fun s c => c.Ok s) started
    [.send bufferedControl, .finish irpAddr] s ∧ ¬ s.Kept := by
  have hexec : ((Run.exec step (fun s c => decide (c.Ok s)) started
      [.send bufferedControl, .finish irpAddr]).map fun s =>
        (s.held.map Dispatch.request, s.live irpAddr)) = some ([irpAddr], none) := by decide +kernel
  obtain ⟨s, hs, hval⟩ := Option.map_eq_some_iff.mp hexec
  obtain ⟨hheld, hgone⟩ := Prod.mk.inj hval
  refine ⟨started_started, s, Run.Steps.of_exec (fun _ _ => of_decide_eq_true) hs, fun hk => ?_⟩
  obtain ⟨d, hd, hreq⟩ : ∃ d ∈ s.held, d.request = irpAddr := by
    rw [← List.mem_map, hheld]
    exact List.mem_singleton_self _
  have hlive := hk d hd _ (request_block (hreq ▸ by decide))
  rw [hreq, hgone] at hlive
  cases hlive

end Kernemul.Requests
