import Kernemul.Win.Lpc.Handlers

/-!
# How ports are named and connected

What the names and the peers of ports look like in every state that the handlers reach, whatever is sent.
-/

namespace Kernemul.Lpc

def Port.wire (p : Port) : Port := { p with messages := [] }

def State.wires (s : State) (a : Addr) : Option Port := (s.ports a).map Port.wire

/-- How ports are named and connected. A server is found by its name until it is connected to. -/
structure Wired (ports : Addr → Option Port) (named : String → Option Addr) (next : Addr) : Prop where
  below : ∀ a p, ports a = some p → a < next
  named_below : ∀ n a, named n = some a → a < next
  named_name : ∀ n a p, named n = some a → ports a = some p → p.name = n ∧ n ≠ ""
  peers : ∀ a p b, ports a = some p → p.peer = some b →
    p.name ≠ "" ∧ ∃ q, ports b = some q ∧ q.peer = some a ∧ q.isServer = !p.isServer
  client : ∀ a p, ports a = some p → p.isServer = false → p.peer ≠ none
  server : ∀ a p, ports a = some p → p.isServer = true → p.name ≠ "" →
    ∃ c, named p.name = some c ∧ (p.peer = none → c = a) ∧
      (p.peer ≠ none → ∃ q, ports c = some q ∧ q.isServer = false)

section
variable {s : State}

theorem peerOf_eq (s : State) (a : Addr) : s.peerOf a = (s.wires a).bind Port.peer := by
  unfold State.peerOf State.wires
  cases s.ports a <;> rfl

theorem wires_eq_some {a : Addr} {p : Port} (h : s.ports a = some p) : s.wires a = some p.wire := by
  unfold State.wires
  rw [h]
  rfl

theorem peerOf_eq_some {a b : Addr} (h : s.peerOf a = some b) :
    ∃ p, s.wires a = some p ∧ p.peer = some b := by
  rw [peerOf_eq] at h
  exact Option.bind_eq_some_iff.mp h

theorem wires_setPort (s : State) (a : Addr) (p : Port) :
    (s.setPort a p).wires = Function.update s.wires a (some p.wire) := by
  funext b
  by_cases hb : b = a
  · subst hb
    simp [State.wires, State.setPort]
  · simp [State.wires, State.setPort, hb]

theorem wires_createPortObject (s : State) (host : Port) :
    (s.createPortObject host).wires = Function.update s.wires s.next (some host.wire) := by
  funext b
  by_cases hb : b = s.next
  · subst hb
    simp [State.wires, State.createPortObject]
  · simp [State.wires, State.createPortObject, hb]

theorem wires_setMessages {a : Addr} {p : Port} (h : s.ports a = some p) (messages : List Bytes) :
    (s.setPort a { p with messages }).wires = s.wires := by
  rw [wires_setPort]
  exact Function.update_eq_self_iff.mpr (wires_eq_some h).symm

end

section
variable {ports : Addr → Option Port} {named : String → Option Addr} {next : Addr}

theorem Wired.next_free (h : Wired ports named next) : ports next = none := by
  cases hp : ports next with
  | none => rfl
  | some p => exact absurd (h.below next p hp) (Nat.lt_irrefl next)

theorem Wired.ne_next (h : Wired ports named next) {a : Addr} {p : Port} (ha : ports a = some p) :
    a ≠ next := Nat.ne_of_lt (h.below a p ha)

theorem Wired.found (h : Wired ports named next) {n : String} {a : Addr} {p : Port}
    (hn : named n = some a) (hp : ports a = some p) (hs : p.isServer = true) :
    p.name = n ∧ n ≠ "" ∧ p.peer = none := by
  obtain ⟨hname, hne⟩ := h.named_name n a p hn hp
  refine ⟨hname, hne, ?_⟩
  obtain ⟨c, hc, -, hpeer⟩ := h.server a p hp hs (hname ▸ hne)
  rw [hname, hn] at hc
  obtain rfl := Option.some.inj hc
  by_contra hsome
  obtain ⟨q, hq, hclient⟩ := hpeer hsome
  rw [hp] at hq
  obtain rfl := Option.some.inj hq
  rw [hs] at hclient
  cases hclient

theorem Wired.create (h : Wired ports named next) {name : String}
    (hfree : name ≠ "" → named name = none) :
    Wired (Function.update ports next (some { name, isServer := true }))
      (if name = "" then named else Function.update named name (some next)) (next + 1) := by
  -- a name leads to the new server, or where it led before
  have hnamed : ∀ n a, (if name = "" then named else Function.update named name (some next)) n = some a →
      (n = name ∧ n ≠ "" ∧ a = next) ∨ named n = some a := by
    intro n a hn
    split at hn
    · exact .inr hn
    · rename_i hne
      by_cases hnn : n = name
      · rw [hnn, Function.update_self] at hn
        exact .inl ⟨hnn, hnn ▸ hne, (Option.some.inj hn).symm⟩
      · rw [Function.update_of_ne hnn] at hn
        exact .inr hn
  have hkeeps : ∀ n a, named n = some a →
      (if name = "" then named else Function.update named name (some next)) n = some a := by
    intro n a hn
    split
    · exact hn
    · rename_i hne
      have hnn : n ≠ name := by
        rintro rfl
        rw [hfree hne] at hn
        cases hn
      rw [Function.update_of_ne hnn]
      exact hn
  have hports : ∀ a p, Function.update ports next (some { name, isServer := true }) a = some p →
      (a = next ∧ p = { name, isServer := true }) ∨ ports a = some p := by
    intro a p hp
    by_cases ha : a = next
    · subst ha
      rw [Function.update_self] at hp
      exact .inl ⟨rfl, (Option.some.inj hp).symm⟩
    · rw [Function.update_of_ne ha] at hp
      exact .inr hp
  have hold : ∀ {a p}, ports a = some p →
      Function.update ports next (some { name, isServer := true }) a = some p := by
    intro a p hp
    rw [Function.update_of_ne (h.ne_next hp)]
    exact hp
  constructor
  · intro a p hp
    rcases hports a p hp with ⟨rfl, -⟩ | hp
    · exact Nat.lt_succ_self a
    · exact Nat.lt_succ_of_lt (h.below a p hp)
  · intro n a hn
    rcases hnamed n a hn with ⟨-, -, rfl⟩ | hn
    · exact Nat.lt_succ_self a
    · exact Nat.lt_succ_of_lt (h.named_below n a hn)
  · intro n a p hn hp
    rcases hnamed n a hn with ⟨rfl, hne, rfl⟩ | hn
    · rw [Function.update_self] at hp
      rw [← Option.some.inj hp]
      exact ⟨rfl, hne⟩
    · rw [Function.update_of_ne (Nat.ne_of_lt (h.named_below n a hn))] at hp
      exact h.named_name n a p hn hp
  · intro a p b hp hpeer
    rcases hports a p hp with ⟨-, rfl⟩ | hp
    · cases hpeer
    · obtain ⟨hname, q, hq, hback, hkind⟩ := h.peers a p b hp hpeer
      exact ⟨hname, q, hold hq, hback, hkind⟩
  · intro a p hp hclient
    rcases hports a p hp with ⟨-, rfl⟩ | hp
    · cases hclient
    · exact h.client a p hp hclient
  · intro a p hp hs hname
    rcases hports a p hp with ⟨rfl, rfl⟩ | hp
    · refine ⟨a, ?_, fun _ => rfl, fun hpeer => absurd rfl hpeer⟩
      dsimp only at hname ⊢
      rw [if_neg hname, Function.update_self]
    · obtain ⟨c, hc, hself, hpeer⟩ := h.server a p hp hs hname
      refine ⟨c, hkeeps _ _ hc, hself, fun hsome => ?_⟩
      obtain ⟨q, hq, hclient⟩ := hpeer hsome
      exact ⟨q, hold hq, hclient⟩

/-- A client connects to the server of a name, which leads to the client from then on. -/
theorem Wired.connect (h : Wired ports named next) {name : String} {server : Addr} {p : Port}
    (hn : named name = some server) (hp : ports server = some p) (hs : p.isServer = true) :
    Wired (Function.update (Function.update ports next (some { name, peer := some server })) server
      (some { p with peer := some next })) (Function.update named name (some next)) (next + 1) := by
  obtain ⟨hname, hne, hnone⟩ := h.found hn hp hs
  have hsn : server ≠ next := h.ne_next hp
  obtain ⟨ports', hports'⟩ : ∃ f, f = Function.update (Function.update ports next
    (some { name, peer := some server })) server (some { p with peer := some next }) := ⟨_, rfl⟩
  have hserver : ports' server = some { p with peer := some next } := by
    rw [hports', Function.update_self]
  have hclient : ports' next = some { name, peer := some server } := by
    rw [hports', Function.update_of_ne (Ne.symm hsn), Function.update_self]
  have hother : ∀ {a}, a ≠ server → a ≠ next → ports' a = ports a := by
    intro a has han
    rw [hports', Function.update_of_ne has, Function.update_of_ne han]
  have hcases : ∀ a q, ports' a = some q → (a = server ∧ q = { p with peer := some next }) ∨
      (a = next ∧ q = { name, peer := some server }) ∨ (a ≠ server ∧ a ≠ next ∧ ports a = some q) := by
    intro a q hq
    by_cases has : a = server
    · rw [has, hserver] at hq
      exact .inl ⟨has, (Option.some.inj hq).symm⟩
    · by_cases han : a = next
      · rw [han, hclient] at hq
        exact .inr (.inl ⟨han, (Option.some.inj hq).symm⟩)
      · rw [hother has han] at hq
        exact .inr (.inr ⟨has, han, hq⟩)
  rw [← hports']
  constructor
  · intro a q hq
    rcases hcases a q hq with ⟨rfl, -⟩ | ⟨rfl, -⟩ | ⟨-, -, hq⟩
    · exact Nat.lt_succ_of_lt (h.below a p hp)
    · exact Nat.lt_succ_self a
    · exact Nat.lt_succ_of_lt (h.below a q hq)
  · intro n a hna
    by_cases hnn : n = name
    · rw [hnn, Function.update_self] at hna
      rw [← Option.some.inj hna]
      exact Nat.lt_succ_self next
    · rw [Function.update_of_ne hnn] at hna
      exact Nat.lt_succ_of_lt (h.named_below n a hna)
  · intro n a q hna hq
    by_cases hnn : n = name
    · rw [hnn, Function.update_self] at hna
      obtain rfl := Option.some.inj hna
      rw [hclient] at hq
      rw [← Option.some.inj hq, hnn]
      exact ⟨rfl, hne⟩
    · rw [Function.update_of_ne hnn] at hna
      rcases hcases a q hq with ⟨rfl, rfl⟩ | ⟨rfl, rfl⟩ | ⟨-, -, hq⟩
      · exact h.named_name n a p hna hp
      · exact absurd (h.named_below n a hna) (Nat.lt_irrefl a)
      · exact h.named_name n a q hna hq
  · intro a q b hq hpeer
    rcases hcases a q hq with ⟨rfl, rfl⟩ | ⟨rfl, rfl⟩ | ⟨-, -, hq⟩
    · obtain rfl := Option.some.inj hpeer
      exact ⟨hname ▸ hne, _, hclient, rfl, by rw [hs]; rfl⟩
    · obtain rfl := Option.some.inj hpeer
      exact ⟨hne, _, hserver, rfl, hs⟩
    · obtain ⟨hqname, r, hr, hback, hkind⟩ := h.peers a q b hq hpeer
      have hbs : b ≠ server := by
        rintro rfl
        rw [hp] at hr
        obtain rfl := Option.some.inj hr
        rw [hnone] at hback
        cases hback
      exact ⟨hqname, r, by rw [hother hbs (h.ne_next hr)]; exact hr, hback, hkind⟩
  · intro a q hq hkind
    rcases hcases a q hq with ⟨-, rfl⟩ | ⟨-, rfl⟩ | ⟨-, -, hq⟩
    · exact Option.some_ne_none _
    · exact Option.some_ne_none _
    · exact h.client a q hq hkind
  · intro a q hq hkind hqname
    rcases hcases a q hq with ⟨rfl, rfl⟩ | ⟨-, rfl⟩ | ⟨has, -, hq⟩
    · refine ⟨next, ?_, fun hc => (Option.some_ne_none _ hc).elim, fun _ => ⟨_, hclient, rfl⟩⟩
      dsimp only
      rw [hname, Function.update_self]
    · cases hkind
    · obtain ⟨c, hc, hself, hpeer⟩ := h.server a q hq hkind hqname
      -- nobody else has the name
      have hnn : q.name ≠ name := by
        intro heq
        rw [heq, hn] at hc
        obtain rfl := Option.some.inj hc
        cases hqp : q.peer with
        | none => exact has (hself hqp).symm
        | some b =>
          obtain ⟨r, hr, hrkind⟩ := hpeer (by rw [hqp]; exact Option.some_ne_none b)
          rw [hp] at hr
          obtain rfl := Option.some.inj hr
          rw [hs] at hrkind
          cases hrkind
      refine ⟨c, by rw [Function.update_of_ne hnn]; exact hc, hself, fun hsome => ?_⟩
      obtain ⟨r, hr, hrkind⟩ := hpeer hsome
      have hcs : c ≠ server := by
        rintro rfl
        rw [hp] at hr
        obtain rfl := Option.some.inj hr
        rw [hs] at hrkind
        cases hrkind
      exact ⟨r, by rw [hother hcs (h.ne_next hr)]; exact hr, hrkind⟩

end

end Kernemul.Lpc
