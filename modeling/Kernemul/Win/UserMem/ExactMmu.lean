import Kernemul.Win.UserMem.Thrown

/-!
# The manager over an exact mmu

Over an mmu that acts on exactly the pages it is given and never throws, a call is the one of `UserMem.State`,
pages and kept frames included (`exact_perform`).
-/

namespace Kernemul.UserMem.OverMmu

def exactCalls : MmuCalls Pages where
  mapVirt m va size prot := (m.mapVirt va size prot, true)
  mapVirtPhys m va pa size prot := (m.mapVirtPhys va pa size prot, true)
  unmapVirt m va size := m.unmapVirt va size
  protVirt m va size prot := m.protVirt va size prot
  virtToPhys m page := m.virtToPhys page

def Memory.pages (m : Memory Pages) : Pages := { m.mmu with backing := m.backing }

def Manager.state (s : Manager Pages) : State := ⟨s.nextFree, s.reservations, s.memory.pages⟩

theorem mapEach_exact (prot : MemProt) : ∀ (n page : Nat) (m : Memory Pages),
    (mapEach exactCalls prot n page m).1.pages = Pages.mapEach prot n page m.pages ∧
      (mapEach exactCalls prot n page m).2 = true := by
  intro n
  induction n with
  | zero => exact fun _ _ => ⟨rfl, rfl⟩
  | succ n ih =>
    intro page m
    unfold mapEach Pages.mapEach
    show _ ∧ _
    rw [show m.pages.backing = m.backing from rfl]
    cases m.backing.lookup page with
    | none => exact ih _ _
    | some pa => exact ih _ _

theorem mapPages_exact (m : Memory Pages) (base size : Nat) (prot : Prot) :
    (mapPages exactCalls m base size prot).1.pages = m.pages.mapPages base size prot ∧
      (mapPages exactCalls m base size prot).2 = true := by
  unfold mapPages Pages.mapPages
  simp only
  rw [show m.pages.backing = m.backing from rfl]
  split
  · exact mapEach_exact _ _ _ m
  · exact ⟨rfl, rfl⟩

theorem keepEach_exact : ∀ (n page : Nat) (m : Memory Pages),
    (keepEach exactCalls n page m).pages = Pages.keepEach n page m.pages := by
  intro n
  induction n with
  | zero => exact fun _ _ => rfl
  | succ n ih =>
    intro page m
    rw [keepEach, Pages.keepEach, ih]
    congr 1
    unfold keepPage Pages.keepPage
    rw [show m.pages.virtToPhys page = exactCalls.virtToPhys m.mmu page from rfl]
    cases exactCalls.virtToPhys m.mmu page <;> rfl

theorem dropEach_exact : ∀ (n page : Nat) (m : Memory Pages),
    (dropEach n page m).pages = Pages.dropEach n page m.pages := by
  intro n
  induction n with
  | zero => exact fun _ _ => rfl
  | succ n ih => exact fun _ _ => ih _ _

theorem evictPages_exact (m : Memory Pages) (base size : Nat) :
    (evictPages exactCalls m base size).pages = m.pages.evictPages base size :=
  congrArg (fun q : Pages => q.unmapVirt base size) (keepEach_exact _ _ m)

theorem releasePages_exact (m : Memory Pages) (base size : Nat) :
    (releasePages exactCalls m base size).pages = m.pages.releasePages base size :=
  congrArg (fun q : Pages => q.unmapVirt base size) (dropEach_exact _ _ m)

theorem follows_exact : Follows exactCalls fun m p => m.pages = p where
  mapped {m m' p} hR base size prot hm := by
    rw [← hR, ← (mapPages_exact m base size prot).1, hm]
  evicted hR base size := by rw [evictPages_exact, hR]
  released hR base size := by rw [releasePages_exact, hR]
  reprotected hR base size prot := by
    rw [← hR]
    rfl

theorem exact_perform {s s' : Manager Pages} {call : Call} (h : perform exactCalls s call = some (true, s')) :
    UserMem.step s.state call = some s'.state := by
  obtain ⟨p, hstep, rfl⟩ := follows_exact.perform (p := s.memory.pages) rfl h
  exact hstep

end Kernemul.UserMem.OverMmu
