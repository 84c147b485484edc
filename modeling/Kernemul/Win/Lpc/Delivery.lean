import Kernemul.Win.Lpc.Wiring

/-!
# Delivery

What is sent on a port arrives at its peer, once and in order, when every message is a whole one and every
receive has room for it.
-/

namespace Kernemul.Lpc

/-! ## What clients and servers rely on -/

/-- The message is a whole one, of a length that is not negative as a `short`. -/
def Memory.WellSized (mem : Memory) : Prop :=
  ∀ header, mem.readMem portMessageSize = some header → portMessageSize ≤ totalLength header

def State.messagesTo (s : State) (b : Addr) : List Bytes :=
  (s.sent.filter fun m => s.peerOf m.port = some b).map fun m => stamp m.bytes m.client

/-- Peers are each other's, and a port has been given what has been sent to it, or is about to be. -/
structure Delivers (s : State) : Prop where
  mutual_peers : ∀ a b, s.peerOf a = some b → s.peerOf b = some a
  messages : ∀ b p, s.ports b = some p → s.received b ++ p.messages = s.messagesTo b

def NamesOk (s : State) : Prop :=
  ∀ a p, s.ports a = some p → p.isServer = true → p.name ≠ "" → s.findServer p.name = some a

def Unconnected (s : State) : Prop := ∀ a, s.peerOf a = none

/-- Whoever sends sends a whole message, and whoever receives has room for it. -/
def Fits (s : State) : Call → Prop
  | .create .. => True
  | .connect _ _ _ connectionMessage _ => ∀ mem, connectionMessage = some mem → mem.WellSized
  | .sendWaitReceive client handle sendMessage receiveMessage bufferLength =>
    (∀ mem, sendMessage = some mem → mem.WellSized) ∧
      ∀ port, s.portFromHandle handle = some port → (sendHalf s client port sendMessage).2 = none →
        ∀ p, s.ports port = some p → ∀ bytes, p.messages.head? = some bytes →
          ∀ mapped, receiveMessage = some mapped →
            bytes.length ≤ mapped ∧ ∀ room, bufferLength = some room → ∃ n ∈ room, bytes.length ≤ n

instance (mem : Memory) : Decidable mem.WellSized :=
  inferInstanceAs (Decidable (∀ header, mem.readMem portMessageSize = some header →
    portMessageSize ≤ totalLength header))

instance (s : State) : (c : Call) → Decidable (Fits s c)
  | .create .. => .isTrue trivial
  | .connect .. | .sendWaitReceive .. => by
    unfold Fits
    infer_instance

theorem totalLength_lt (header : Bytes) : totalLength header < 2 ^ 15 := by
  unfold totalLength
  dsimp only
  omega

theorem messageSize_of_le {total : Int} (hlo : portMessageSize ≤ total) (hhi : total < 2 ^ 15) :
    messageSize total = total.toNat := by
  unfold portMessageSize at hlo
  have hmod : total % 2 ^ 64 = total := Int.emod_eq_of_lt (by omega) (by omega)
  unfold messageSize portMessageSize maximumMessageLength
  rw [hmod]
  dsimp only
  rw [if_neg (by omega), if_neg (by omega)]

theorem readMessage_eq {mem : Memory} {client : Client} {bytes : Bytes} (hsize : mem.WellSized)
    (h : readMessage mem client = some bytes) : bytes = stamp (message mem) client := by
  obtain ⟨header, hheader, hread⟩ := Option.bind_eq_some_iff.mp h
  obtain ⟨original, horiginal, rfl⟩ := Option.map_eq_some_iff.mp hread
  rw [messageSize_of_le (hsize header hheader) (totalLength_lt header)] at horiginal
  unfold message
  rw [hheader, Option.bind_some, horiginal]
  rfl

/-! ## Messages on their way -/

/-- What has been sent was sent on a port that had a peer, and has arrived. -/
structure Carried (s : State) : Prop where
  sent_on : ∀ m ∈ s.sent, s.peerOf m.port ≠ none
  fresh : ∀ a, s.ports a = none → s.received a = []
  messages : ∀ b p, s.ports b = some p → s.received b ++ p.messages = s.messagesTo b

structure LpcInv (s : State) : Prop where
  wired : Wired s.wires s.named s.next
  carried : Carried s

section
variable {s s' : State}

/-- New ports, and new peers of ports that had none, change nothing for what has been sent. -/
theorem Carried.rewire (h : Carried s) (hsent : s'.sent = s.sent) (hreceived : s'.received = s.received)
    (hkeeps : ∀ a b, s.peerOf a = some b → s'.peerOf a = some b)
    (hto : ∀ a b, s.peerOf a = some b → s.ports b ≠ none)
    (hports : ∀ b p, s'.ports b = some p → (∃ q, s.ports b = some q ∧ q.messages = p.messages) ∨
      (s.ports b = none ∧ p.messages = []))
    (hnone : ∀ b, s'.ports b = none → s.ports b = none) : Carried s' := by
  have hpeer : ∀ m ∈ s.sent, s'.peerOf m.port = s.peerOf m.port := by
    intro m hm
    obtain ⟨b, hb⟩ := Option.ne_none_iff_exists'.mp (h.sent_on m hm)
    rw [hb]
    exact hkeeps _ _ hb
  have hmessages : ∀ b, s'.messagesTo b = s.messagesTo b := by
    intro b
    unfold State.messagesTo
    rw [hsent, List.filter_congr fun m hm => by rw [hpeer m hm]]
  refine ⟨fun m hm => ?_, fun a ha => ?_, fun b p hp => ?_⟩
  · rw [hsent] at hm
    rw [hpeer m hm]
    exact h.sent_on m hm
  · rw [hreceived]
    exact h.fresh a (hnone a ha)
  · rw [hreceived, hmessages]
    rcases hports b p hp with ⟨q, hq, heq⟩ | ⟨hb, hnil⟩
    · rw [← heq]
      exact h.messages b q hq
    · -- nothing has been sent to a port that was not there
      rw [h.fresh b hb, hnil]
      refine (List.map_eq_nil_iff.mpr (List.filter_eq_nil_iff.mpr fun m _ hm => ?_)).symm
      exact hto m.port b (of_decide_eq_true hm) hb

theorem peerOf_of_wires (h : s'.wires = s.wires) (a : Addr) : s'.peerOf a = s.peerOf a := by
  rw [peerOf_eq, peerOf_eq, h]

theorem ports_of_peer (h : Wired s.wires s.named s.next) {a b : Addr} (hab : s.peerOf a = some b) :
    ∃ p, s.ports b = some p ∧ p.peer = some a := by
  obtain ⟨p, hp, hpeer⟩ := peerOf_eq_some hab
  obtain ⟨-, q, hq, hback, -⟩ := h.peers a p b hp hpeer
  obtain ⟨q', hq', rfl⟩ := Option.map_eq_some_iff.mp hq
  exact ⟨q', hq', hback⟩

theorem LpcInv.post (h : LpcInv s) {a b : Addr} (hab : s.peerOf a = some b) {client : Client}
    {mem : Memory} {bytes : Bytes} (hbytes : bytes = stamp (message mem) client) :
    LpcInv (s.post a b client mem bytes) := by
  obtain ⟨p, hp, -⟩ := ports_of_peer h.wired hab
  have hpost : s.post a b client mem bytes =
      { s.setPort b { p with messages := p.messages ++ [bytes] } with
        sent := s.sent ++ [{ port := a, client, bytes := message mem }] } := by
    unfold State.post
    rw [hp]
  have hwires : (s.post a b client mem bytes).wires = s.wires := by
    rw [hpost]
    exact wires_setMessages hp _
  have hsent : (s.post a b client mem bytes).sent =
      s.sent ++ [{ port := a, client, bytes := message mem }] := by
    rw [hpost]
  have hreceived : (s.post a b client mem bytes).received = s.received := by
    rw [hpost]
    rfl
  have hports : (s.post a b client mem bytes).ports =
      Function.update s.ports b (some { p with messages := p.messages ++ [bytes] }) := by
    rw [hpost]
    rfl
  have hmessages : ∀ c, (s.post a b client mem bytes).messagesTo c =
      s.messagesTo c ++ if c = b then [bytes] else [] := by
    intro c
    unfold State.messagesTo
    rw [hsent, List.filter_congr fun m _ => by rw [peerOf_of_wires hwires], List.filter_append,
      List.map_append]
    congr 1
    by_cases hc : c = b
    · simp [hab, hc, hbytes]
    · simp [hab, hc, Ne.symm hc]
  constructor
  · rw [hwires, hpost]
    exact h.wired
  · refine ⟨fun m hm => ?_, fun c hc => ?_, fun c q hq => ?_⟩
    · rw [peerOf_of_wires hwires]
      rw [hsent, List.mem_append, List.mem_singleton] at hm
      rcases hm with hm | rfl
      · exact h.carried.sent_on m hm
      · rw [hab]
        exact Option.some_ne_none b
    · rw [hreceived]
      refine h.carried.fresh c ?_
      by_cases hcb : c = b
      · rw [hports, hcb, Function.update_self] at hc
        cases hc
      · rw [hports, Function.update_of_ne hcb] at hc
        exact hc
    · rw [hreceived, hmessages]
      by_cases hcb : c = b
      · subst hcb
        rw [hports, Function.update_self] at hq
        rw [← Option.some.inj hq, if_pos rfl, ← h.carried.messages c p hp, List.append_assoc]
      · rw [hports, Function.update_of_ne hcb] at hq
        rw [if_neg hcb, List.append_nil]
        exact h.carried.messages c q hq

theorem LpcInv.receive (h : LpcInv s) {a : Addr} {p : Port} (hp : s.ports a = some p) {bytes : Bytes}
    {messages : List Bytes} (hm : p.messages = bytes :: messages) :
    LpcInv { s.setPort a { p with messages } with
      received := Function.update s.received a (s.received a ++ [bytes]) } := by
  have hwires := wires_setMessages hp messages
  have hpeer : ∀ b, (s.setPort a { p with messages }).peerOf b = s.peerOf b := peerOf_of_wires hwires
  constructor
  · show Wired (s.setPort a { p with messages }).wires s.named s.next
    rw [hwires]
    exact h.wired
  · refine ⟨fun m hmem => ?_, fun b hb => ?_, fun b q hq => ?_⟩
    · show (s.setPort a { p with messages }).peerOf m.port ≠ none
      rw [hpeer]
      exact h.carried.sent_on m hmem
    · have hb' : Function.update s.ports a (some { p with messages }) b = none := hb
      by_cases hba : b = a
      · rw [hba, Function.update_self] at hb'
        cases hb'
      · rw [Function.update_of_ne hba] at hb'
        show Function.update s.received a (s.received a ++ [bytes]) b = []
        rw [Function.update_of_ne hba]
        exact h.carried.fresh b hb'
    · have hto : (s.setPort a { p with messages }).messagesTo b = s.messagesTo b := by
        unfold State.messagesTo
        exact congrArg _ (List.filter_congr fun m _ => by rw [hpeer])
      have hq' : Function.update s.ports a (some { p with messages }) b = some q := hq
      show Function.update s.received a (s.received a ++ [bytes]) b ++ q.messages =
        (s.setPort a { p with messages }).messagesTo b
      rw [hto]
      by_cases hba : b = a
      · subst hba
        rw [Function.update_self] at hq'
        rw [Function.update_self, ← Option.some.inj hq', ← h.carried.messages b p hp, hm,
          List.append_assoc]
        rfl
      · rw [Function.update_of_ne hba] at hq'
        rw [Function.update_of_ne hba]
        exact h.carried.messages b q hq'

theorem ports_ne_none_of_peer (h : LpcInv s) {a b : Addr} (hab : s.peerOf a = some b) :
    s.ports b ≠ none := by
  obtain ⟨p, hp, -⟩ := ports_of_peer h.wired hab
  rw [hp]
  exact Option.some_ne_none p

theorem ports_next (h : LpcInv s) : s.ports s.next = none := Option.map_eq_none_iff.mp h.wired.next_free

theorem LpcInv.alpcCreatePort (h : LpcInv s) (portHandle : Operand) (name : String) :
    LpcInv (alpcCreatePort s portHandle name).1 := by
  unfold Lpc.alpcCreatePort
  split
  · exact h
  · split
    · exact h
    · rename_i hfree
      have hwires := wires_createPortObject s { name, isServer := true }
      have hnext := ports_next h
      constructor
      · rw [hwires]
        exact h.wired.create fun hne => Option.not_isSome_iff_eq_none.mp fun hsome => hfree ⟨hne, hsome⟩
      · refine h.carried.rewire rfl rfl (fun a b hab => ?_) (fun a b hab => ports_ne_none_of_peer h hab)
          (fun b p hp => ?_) (fun b hb => ?_)
        · obtain ⟨p, hp, -⟩ := peerOf_eq_some hab
          rw [peerOf_eq] at hab ⊢
          rw [hwires, Function.update_of_ne (h.wired.ne_next hp)]
          exact hab
        · have hp' : Function.update s.ports s.next (some { name, isServer := true }) b = some p := hp
          by_cases hb : b = s.next
          · rw [hb, Function.update_self] at hp'
            exact .inr ⟨hb ▸ hnext, by rw [← Option.some.inj hp']⟩
          · rw [Function.update_of_ne hb] at hp'
            exact .inl ⟨p, hp', rfl⟩
        · have hb' : Function.update s.ports s.next (some { name, isServer := true }) b = none := hb
          by_cases hbn : b = s.next
          · exact hbn ▸ hnext
          · rw [Function.update_of_ne hbn] at hb'
            exact hb'

theorem findServer_eq_some {name : String} {a : Addr} (h : s.findServer name = some a) :
    ∃ p, s.named name = some a ∧ s.ports a = some p ∧ p.isServer = true := by
  obtain ⟨hn, hserver⟩ := Option.filter_eq_some_iff.mp h
  cases hp : s.ports a with
  | none =>
    rw [hp] at hserver
    cases hserver
  | some p =>
    rw [hp] at hserver
    exact ⟨p, hn, rfl, hserver⟩

theorem LpcInv.connect (h : LpcInv s) {name : String} {server : Addr} {p : Port}
    (hn : s.named name = some server) (hp : s.ports server = some p) (hs : p.isServer = true) :
    LpcInv ((s.createPortObject { name, peer := some server }).setPort server
      { p with peer := some s.next }) ∧
      ((s.createPortObject { name, peer := some server }).setPort server
        { p with peer := some s.next }).peerOf s.next = some server := by
  obtain ⟨s', hs'⟩ : ∃ s', s' = (s.createPortObject { name, peer := some server }).setPort server
    { p with peer := some s.next } := ⟨_, rfl⟩
  have hnext := ports_next h
  have hserver : s.wires server = some p.wire := wires_eq_some hp
  have hsn : server ≠ s.next := h.wired.ne_next hserver
  obtain ⟨-, hne, hnone⟩ := h.wired.found hn hserver hs
  have hwires : s'.wires = Function.update (Function.update s.wires s.next
      (some { name, peer := some server })) server (some { p.wire with peer := some s.next }) := by
    rw [hs', wires_setPort, wires_createPortObject]
    rfl
  have hports : s'.ports = Function.update (Function.update s.ports s.next
      (some { name, peer := some server })) server (some { p with peer := some s.next }) := by
    rw [hs']
    rfl
  have hnamed : s'.named = Function.update s.named name (some s.next) := by
    rw [hs']
    exact if_neg hne
  rw [← hs']
  refine ⟨⟨?_, ?_⟩, ?_⟩
  · rw [hwires, hnamed, hs']
    exact h.wired.connect hn hserver hs
  · refine h.carried.rewire (by rw [hs']; rfl) (by rw [hs']; rfl) (fun a b hab => ?_)
      (fun a b hab => ports_ne_none_of_peer h hab) (fun b q hq => ?_) (fun b hb => ?_)
    · obtain ⟨q, hq, hpeer⟩ := peerOf_eq_some hab
      have has : a ≠ server := by
        rintro rfl
        rw [hserver] at hq
        rw [← Option.some.inj hq, hnone] at hpeer
        cases hpeer
      rw [peerOf_eq] at hab ⊢
      rw [hwires, Function.update_of_ne has, Function.update_of_ne (h.wired.ne_next hq)]
      exact hab
    · rw [hports] at hq
      by_cases hbs : b = server
      · subst hbs
        rw [Function.update_self] at hq
        exact .inl ⟨p, hp, by rw [← Option.some.inj hq]⟩
      · rw [Function.update_of_ne hbs] at hq
        by_cases hbn : b = s.next
        · rw [hbn, Function.update_self] at hq
          exact .inr ⟨hbn ▸ hnext, by rw [← Option.some.inj hq]⟩
        · rw [Function.update_of_ne hbn] at hq
          exact .inl ⟨q, hq, rfl⟩
    · rw [hports] at hb
      by_cases hbs : b = server
      · rw [hbs, Function.update_self] at hb
        cases hb
      · rw [Function.update_of_ne hbs] at hb
        by_cases hbn : b = s.next
        · exact hbn ▸ hnext
        · rw [Function.update_of_ne hbn] at hb
          exact hb
  · rw [peerOf_eq, hwires, Function.update_of_ne (Ne.symm hsn), Function.update_self]
    rfl

theorem LpcInv.alpcConnectPort (h : LpcInv s) (client : Client) (portHandle : Operand) (name : String)
    {connectionMessage : Option Memory} (bufferLength : Operand)
    (hok : ∀ mem, connectionMessage = some mem → mem.WellSized) :
    LpcInv (alpcConnectPort s client portHandle name connectionMessage bufferLength).1 := by
  unfold Lpc.alpcConnectPort
  split
  · exact h
  · cases hfind : s.findServer name with
    | none => exact h
    | some server =>
      obtain ⟨p, hn, hp, hs⟩ := findServer_eq_some hfind
      have hsn : server ≠ s.next := h.wired.ne_next (wires_eq_some hp)
      have hp' : (s.createPortObject { name, peer := some server }).ports server = some p := by
        show Function.update s.ports s.next _ server = some p
        rw [Function.update_of_ne hsn]
        exact hp
      obtain ⟨hinv, hpeer⟩ := h.connect hn hp hs
      dsimp only
      rw [hp']
      dsimp only
      split
      · exact hinv
      · cases connectionMessage with
        | none => exact hinv
        | some mem =>
          dsimp only
          cases hread : readMessage mem client with
          | none => exact hinv
          | some bytes => exact hinv.post hpeer (readMessage_eq (hok mem rfl) hread)

theorem LpcInv.sendHalf (h : LpcInv s) (client : Client) (port : Addr) {sendMessage : Option Memory}
    (hok : ∀ mem, sendMessage = some mem → mem.WellSized) :
    LpcInv (sendHalf s client port sendMessage).1 := by
  unfold Lpc.sendHalf
  cases sendMessage with
  | none => exact h
  | some mem =>
    dsimp only
    cases hpeer : s.peerOf port with
    | none => exact h
    | some peer =>
      dsimp only
      cases hread : readMessage mem client with
      | none => exact h
      | some bytes => exact h.post hpeer (readMessage_eq (hok mem rfl) hread)

theorem sendHalf_ports (h : LpcInv s) (client : Client) (port : Addr) (sendMessage : Option Memory) :
    (sendHalf s client port sendMessage).1.ports port = s.ports port := by
  unfold sendHalf
  cases sendMessage with
  | none => rfl
  | some mem =>
    dsimp only
    cases hpeer : s.peerOf port with
    | none => rfl
    | some peer =>
      dsimp only
      cases readMessage mem client with
      | none => rfl
      | some bytes =>
        have hne : port ≠ peer := by
          rintro rfl
          obtain ⟨p, hp, hpp⟩ := peerOf_eq_some hpeer
          obtain ⟨-, q, hq, -, hkind⟩ := h.wired.peers port p port hp hpp
          rw [hp] at hq
          obtain rfl := Option.some.inj hq
          cases hs : p.isServer <;> rw [hs] at hkind <;> cases hkind
        dsimp only
        unfold State.post
        split
        · exact Function.update_of_ne hne ..
        · rfl

theorem LpcInv.receiveHalf (h : LpcInv s) (port : Addr) {receiveMessage : Option Nat}
    {bufferLength : Option (Option Nat)}
    (hok : ∀ p, s.ports port = some p → ∀ bytes, p.messages.head? = some bytes →
      ∀ mapped, receiveMessage = some mapped →
        bytes.length ≤ mapped ∧ ∀ room, bufferLength = some room → ∃ n ∈ room, bytes.length ≤ n) :
    LpcInv (receiveHalf s port receiveMessage bufferLength).1 := by
  unfold Lpc.receiveHalf
  cases receiveMessage with
  | none => exact h
  | some mapped =>
    dsimp only
    cases hp : s.ports port with
    | none => exact h
    | some p =>
      dsimp only
      cases hm : p.messages with
      | nil => exact h
      | cons bytes messages =>
        obtain ⟨hmapped, hroom⟩ := hok p hp bytes (by rw [hm]; rfl) mapped rfl
        have hinv := h.receive hp hm
        dsimp only
        -- the room that is given is enough
        obtain ⟨n, hn, hle⟩ : ∃ n, bufferLength.getD (some bytes.length) = some n ∧
            bytes.length ≤ n := by
          cases bufferLength with
          | none => exact ⟨_, rfl, le_refl _⟩
          | some room =>
            obtain ⟨n, hn, hle⟩ := hroom room rfl
            exact ⟨n, Option.mem_def.mp hn, hle⟩
        rw [hn]
        dsimp only
        rw [min_eq_right hle, if_neg (Nat.not_lt.mpr hmapped), if_neg (Nat.lt_irrefl _)]
        exact hinv

theorem LpcInv.step {c : Call} (h : LpcInv s) (hok : Fits s c) (hstep : step s c = some s') : LpcInv s' := by
  cases c with
  | create portHandle name =>
    obtain rfl := Option.some.inj hstep
    exact h.alpcCreatePort portHandle name
  | connect client portHandle name connectionMessage bufferLength =>
    obtain rfl := Option.some.inj hstep
    exact h.alpcConnectPort client portHandle name bufferLength hok
  | sendWaitReceive client handle sendMessage receiveMessage bufferLength =>
    obtain rfl := Option.some.inj hstep
    obtain ⟨hsend, hreceive⟩ := hok
    unfold Lpc.alpcSendWaitReceivePort
    cases hport : s.portFromHandle handle with
    | none => exact h
    | some port =>
      have hsent := h.sendHalf client port hsend
      have hports := sendHalf_ports h client port sendMessage
      have hroom := hreceive port hport
      dsimp only
      obtain ⟨r, hr⟩ : ∃ r, r = Lpc.sendHalf s client port sendMessage := ⟨_, rfl⟩
      rw [← hr] at hsent hports hroom ⊢
      obtain ⟨s₁, result⟩ := r
      cases result with
      | some result => exact hsent
      | none =>
        refine hsent.receiveHalf port fun p hp => ?_
        exact hroom rfl p (hports ▸ hp)

end

structure LpcStart (s : State) : Prop where
  ports : ∀ a, s.ports a = none
  named : ∀ n a, s.named n = some a → a < s.next
  sent : s.sent = []
  received : ∀ a, s.received a = []

theorem LpcStart.inv {s : State} (h : LpcStart s) : LpcInv s := by
  have hwires : ∀ a p, s.wires a ≠ some p := by
    intro a p hp
    unfold State.wires at hp
    rw [h.ports a] at hp
    cases hp
  refine ⟨⟨fun a p hp => absurd hp (hwires a p), h.named, fun n a p _ hp => absurd hp (hwires a p),
    fun a p b hp => absurd hp (hwires a p), fun a p hp => absurd hp (hwires a p),
    fun a p hp => absurd hp (hwires a p)⟩, fun m hm => ?_, fun a _ => h.received a, fun b p hp => ?_⟩
  · rw [h.sent] at hm
    cases hm
  · rw [h.ports b] at hp
    cases hp

theorem LpcInv.delivers {s : State} (h : LpcInv s) : Delivers s := by
  refine ⟨fun a b hab => ?_, h.carried.messages⟩
  obtain ⟨p, hp, hpeer⟩ := ports_of_peer h.wired hab
  unfold State.peerOf
  rw [hp]
  exact hpeer

/-- Every server is found by its name just as long as nobody has connected. -/
theorem LpcInv.namesOk_iff {s : State} (h : LpcInv s) : NamesOk s ↔ Unconnected s := by
  have hserves : ∀ {a p}, s.ports a = some p → p.isServer = true → p.name ≠ "" →
      ∃ c, s.named p.name = some c ∧ (p.peer = none → c = a) ∧
        (p.peer ≠ none → ∃ q, s.ports c = some q ∧ q.isServer = false) := by
    intro a p hp hs hname
    obtain ⟨c, hc, hself, hpeer⟩ := h.wired.server a p.wire (wires_eq_some hp) hs hname
    refine ⟨c, hc, hself, fun hsome => ?_⟩
    obtain ⟨q, hq, hclient⟩ := hpeer hsome
    obtain ⟨q', hq', rfl⟩ := Option.map_eq_some_iff.mp hq
    exact ⟨q', hq', hclient⟩
  -- a server that has a peer is not found
  have hlost : NamesOk s → ∀ a p b, s.ports a = some p → p.isServer = true → p.peer = some b → False := by
    intro hnames a p b hp hs hpeer
    obtain ⟨hname, -⟩ := h.wired.peers a p.wire b (wires_eq_some hp) hpeer
    obtain ⟨c, hc, -, hclient⟩ := hserves hp hs hname
    obtain ⟨q, hq, hqs⟩ := hclient (by rw [hpeer]; exact Option.some_ne_none b)
    obtain ⟨r, hr, hr', hrs⟩ := findServer_eq_some (hnames a p hp hs hname)
    rw [hc] at hr
    obtain rfl := Option.some.inj hr
    rw [hq] at hr'
    obtain rfl := Option.some.inj hr'
    rw [hqs] at hrs
    cases hrs
  constructor
  · intro hnames a
    cases hpeer : s.peerOf a with
    | none => rfl
    | some b =>
      exfalso
      obtain ⟨p, hp, hpp⟩ := peerOf_eq_some hpeer
      obtain ⟨p', hp', rfl⟩ := Option.map_eq_some_iff.mp hp
      cases hs : p'.isServer with
      | true => exact hlost hnames a p' b hp' hs hpp
      | false =>
        obtain ⟨-, q, hq, hback, hkind⟩ := h.wired.peers a _ b hp hpp
        obtain ⟨q', hq', rfl⟩ := Option.map_eq_some_iff.mp hq
        refine hlost hnames b q' a hq' (hkind.trans ?_) hback
        show (!p'.isServer) = true
        rw [hs]
        rfl
  · intro hnone a p hp hs hname
    obtain ⟨c, hc, hself, -⟩ := hserves hp hs hname
    have hpeer : p.peer = none := by
      have ha := hnone a
      unfold State.peerOf at ha
      rw [hp] at ha
      exact ha
    rw [hself hpeer] at hc
    unfold State.findServer
    rw [hc]
    exact Option.filter_eq_some_iff.mpr ⟨rfl, by rw [hp]; exact hs⟩

/-- **ALPC delivers every message, in order, to the peer of the port it was sent on, when it is a whole one
and is received with room for it; a server is found by its name as long as nobody has connected.** -/
theorem delivers_of_fits {s s' : State} {calls : List Call} (hs : LpcStart s)
    (hrun : Run.Steps step Fits s calls s') : Delivers s' ∧ (NamesOk s' ↔ Unconnected s') := by
  have hinv : LpcInv s' :=
    hrun.invariant (P := fun s : State => LpcInv s) (fun _ _ _ h hok hstep => h.step hok hstep) hs.inv
  exact ⟨hinv.delivers, hinv.namesOk_iff⟩

/-! ## A server and its clients -/

/-- A message of `0x30` bytes, the last of which are `fill`. -/
def note (fill : UInt8) : Memory := fun i =>
  if i < 0x30 then some (if i = 2 then 0x30 else if i < 0x28 then 0 else fill) else none

theorem lpcStart_empty : LpcStart {} := ⟨fun _ => rfl, fun _ _ h => (nomatch h), rfl, fun _ => rfl⟩

/-- The second client is told that there is no server of that name. -/
theorem connect_hides_server :
    ∃ s', Run.Steps step (fun _ _ => True) {}
        [.create .mapped "srv", .connect ⟨4, 8⟩ .mapped "srv" none .null] s' ∧
      LpcStart {} ∧ ¬ NamesOk s' ∧
      (alpcConnectPort s' ⟨12, 16⟩ .mapped "srv" none .null).2 = .objectNameNotFound := by
  have hfacts : ((Run.exec step (fun _ _ => true) {}
      [.create .mapped "srv", .connect ⟨4, 8⟩ .mapped "srv" none .null]).map fun s =>
      (s.ports 1, s.findServer "srv")) =
      some (some { name := "srv", isServer := true, peer := some 2 }, none) := by
    decide +kernel
  obtain ⟨s', hexec, hfacts⟩ := Option.map_eq_some_iff.mp hfacts
  obtain ⟨hport, hfind⟩ := Prod.mk.injEq .. ▸ hfacts
  refine ⟨s', Run.Steps.of_exec (fun _ _ _ => trivial) hexec, lpcStart_empty, fun hnames => ?_, ?_⟩
  · have hfound := hnames 1 _ hport rfl (by decide)
    rw [hfind] at hfound
    cases hfound
  · unfold alpcConnectPort
    rw [if_neg (by decide), hfind]

/-- A receive without room for a message takes it from the queue and throws it away. -/
theorem receive_loses_message :
    ∃ s', Run.Steps step (fun _ _ => True) {}
        [.create .mapped "srv", .connect ⟨4, 8⟩ .mapped "srv" (some (note 1)) .null,
          .sendWaitReceive ⟨20, 24⟩ 4 none (some 0x100) (some (some 0x28))] s' ∧
      s'.messagesTo 1 = [stamp (message (note 1)) ⟨4, 8⟩] ∧ s'.received 1 = [] ∧
      (s'.ports 1).map Port.messages = some [] := by
  have hfacts : ((Run.exec step (fun _ _ => true) {}
      [.create .mapped "srv", .connect ⟨4, 8⟩ .mapped "srv" (some (note 1)) .null,
        .sendWaitReceive ⟨20, 24⟩ 4 none (some 0x100) (some (some 0x28))]).map fun s =>
      (s.messagesTo 1, s.received 1, (s.ports 1).map Port.messages)) =
      some ([stamp (message (note 1)) ⟨4, 8⟩], [], some []) := by
    decide +kernel
  obtain ⟨s', hexec, hfacts⟩ := Option.map_eq_some_iff.mp hfacts
  refine ⟨s', Run.Steps.of_exec (fun _ _ _ => trivial) hexec, ?_⟩
  simpa only [Prod.mk.injEq] using hfacts

/-- A client and its server exchange messages. -/
theorem delivers_exchange :
    ∃ s', Run.Steps step Fits {}
        [.create .mapped "srv", .connect ⟨4, 8⟩ .mapped "srv" (some (note 1)) .null,
          .sendWaitReceive ⟨4, 8⟩ 8 (some (note 2)) none none,
          .sendWaitReceive ⟨20, 24⟩ 4 (some (note 3)) (some 0x100) (some (some 0x30)),
          .sendWaitReceive ⟨20, 24⟩ 4 none (some 0x100) none,
          .sendWaitReceive ⟨4, 8⟩ 8 none (some 0x30) (some (some 0x100))] s' ∧
      s'.received 1 = [stamp (message (note 1)) ⟨4, 8⟩, stamp (message (note 2)) ⟨4, 8⟩] ∧
      s'.received 2 = [stamp (message (note 3)) ⟨20, 24⟩] ∧ Delivers s' ∧
      (NamesOk s' ↔ Unconnected s') := by
  have hfacts : ((Run.exec step (fun s c => decide (Fits s c)) {}
      [.create .mapped "srv", .connect ⟨4, 8⟩ .mapped "srv" (some (note 1)) .null,
        .sendWaitReceive ⟨4, 8⟩ 8 (some (note 2)) none none,
        .sendWaitReceive ⟨20, 24⟩ 4 (some (note 3)) (some 0x100) (some (some 0x30)),
        .sendWaitReceive ⟨20, 24⟩ 4 none (some 0x100) none,
        .sendWaitReceive ⟨4, 8⟩ 8 none (some 0x30) (some (some 0x100))]).map fun s =>
      (s.received 1, s.received 2)) =
      some ([stamp (message (note 1)) ⟨4, 8⟩, stamp (message (note 2)) ⟨4, 8⟩],
        [stamp (message (note 3)) ⟨20, 24⟩]) := by
    decide +kernel
  obtain ⟨s', hexec, hfacts⟩ := Option.map_eq_some_iff.mp hfacts
  obtain ⟨hserver, hclient⟩ := Prod.mk.injEq .. ▸ hfacts
  have hrun := Run.Steps.of_exec (fun _ _ => of_decide_eq_true) hexec
  obtain ⟨hdelivers, hnames⟩ := delivers_of_fits lpcStart_empty hrun
  exact ⟨s', hrun, hserver, hclient, hdelivers, hnames⟩

end Kernemul.Lpc
