import Kernemul.Emu.Arm64.UserHalf

/-!
# The kernel half of the ARM64 spaces

A new space takes over the slots of the first root that lead to tables, and with them all that is below. A slot that is
filled later is filled for one space.
-/

namespace Kernemul.Arm64

open Walk Radix
open X86 (vpn)

variable {m m' : Mmu} {level level' : Nat → Nat}

/-- What no call takes back: tables stay where they hang, and roots keep their level. -/
structure Later (m : Mmu) (level : Nat → Nat) (m' : Mmu) (level' : Nat → Nat) : Prop
    extends Keeps words m.mem level m'.mem level' where
  inv : TreeInv m' level'

theorem call_later (h : TreeInv m level) {c : Call} (hcall : call m c = some m') :
    ∃ level', Later m level m' level' := by
  have hrefl : Later m level m level := ⟨.of_step h.forest fun _ _ _ => rfl, h⟩
  unfold call at hcall
  cases hroot : c.root with
  | some root =>
    rw [hroot] at hcall
    dsimp only at hcall
    split at hcall
    · rename_i hlive
      obtain rfl := Option.some.inj hcall
      obtain ⟨level', hk, -⟩ := perform_pages h hroot hlive
      exact ⟨level', hk.toKeeps, hk.inv⟩
    · cases hcall
  | none =>
    rw [hroot] at hcall
    obtain rfl := Option.some.inj hcall
    cases c with
    | createAddrSpace =>
      unfold perform
      cases hc : m.createAddrSpace with
      | none => exact ⟨level, hrefl⟩
      | some r =>
        obtain ⟨root, m'⟩ := r
        have hcreated := createAddrSpace_spec h hc
        exact ⟨_, hcreated.grown.toKeeps, hcreated.inv⟩
    | allocPhys size =>
      unfold perform
      dsimp only
      cases ha : m.allocPhys size with
      | none => exact ⟨level, hrefl⟩
      | some r =>
        obtain ⟨pa, m'⟩ := r
        obtain ⟨-, hmem, -, -, h'⟩ := allocPhys_spec h ha
        exact ⟨level, (quiet_of_mem h' hmem).1.toKeeps, h'⟩
    | _ => cases hroot

theorem run_later (h : TreeInv m level) {calls : List Call}
    (hrun : Run.Steps call (fun _ _ => True) m calls m') : ∃ level', Later m level m' level' := by
  induction hrun generalizing level with
  | nil m => exact ⟨level, .of_step h.forest fun _ _ _ => rfl, h⟩
  | cons _ hcall _ ih =>
    obtain ⟨level₁, hlater⟩ := call_later h hcall
    obtain ⟨level₂, hlater'⟩ := ih hlater.inv
    exact ⟨level₂, hlater.toKeeps.trans hlater'.toKeeps, hlater'.inv⟩

theorem page_of_shared {root root' va d : Nat} (hd : Radix.step words m.mem root (l0Index va) = some d)
    (hd' : Radix.step words m.mem root' (l0Index va) = some d) : m.page root va = m.page root' va := by
  have hfind : ∀ r, Radix.step words m.mem r (l0Index va) = some d →
      m.word r va = find words m.mem d [l1Index va, l2Index va] (l3Index va) := fun r hr => by
    rw [Mmu.word, path, find, walk_cons, hr]
    rfl
  rw [Mmu.page, Mmu.page, hfind root hd, hfind root' hd']

/-- Two roots that come to the same table of pages, whatever the addresses, share the slot above it. -/
theorem shared_of_walk (h : TreeInv m level) {root root' va va' : Nat} (hroot : level root = 4)
    (hroot' : level root' = 4) (hwalk : m.walkToL3 root va = m.walkToL3 root' va') (hne : m.walkToL3 root va ≠ 0) :
    ∃ d, Radix.step words m.mem root (l0Index va) = some d ∧ Radix.step words m.mem root' (l0Index va) = some d := by
  rcases h.walk_cases hroot va with ⟨hzero, -⟩ | ⟨-, hw, -, -⟩
  · exact absurd hzero hne
  rcases h.walk_cases hroot' va' with ⟨hzero, -⟩ | ⟨-, hw', -, -⟩
  · exact absurd (hwalk.trans hzero) hne
  rw [← hwalk] at hw'
  have hlen : ∀ a r, level r = 4 → (path a).length < level r := fun a r hr => by
    rw [hr]
    exact Nat.lt_succ_self 3
  obtain ⟨hpath, -⟩ := h.forest.walk_inj (hlen va root hroot) (hlen va' root' hroot') rfl hw hw'
  rw [← hpath] at hw'
  rw [path, walk_cons] at hw hw'
  obtain ⟨d, hd, hrest⟩ := Option.bind_eq_some_iff.mp hw
  obtain ⟨d', hd', hrest'⟩ := Option.bind_eq_some_iff.mp hw'
  have hl := h.forest.child root _ d (by omega) hd
  have hl' := h.forest.child root' _ d' (by omega) hd'
  have hlen' : [l1Index va, l2Index va].length = 2 := rfl
  have heq := h.forest.start_eq (by rw [hlen']; omega) (by rw [hlen']; omega) (by omega) rfl hrest hrest'
  exact ⟨d, hd, heq ▸ hd'⟩

/-- A space shares with the first one exactly the slots of the kernel half that led to tables when it was made: below
them both translate alike for ever, whatever is mapped, unmapped and reprotected through any space, and below the
others they never have a table of pages in common. -/
theorem kernel_half_shared {calls calls' : List Call} {m₀ m₁ : Mmu} {S va : Nat}
    (hrun : Run.Steps call (fun _ _ => True) Mmu.init calls m₀) (hcreate : m₀.createAddrSpace = some (S, m₁))
    (hfirst : m₀.kernelTtbrPa ≠ 0) (hrun' : Run.Steps call (fun _ _ => True) m₁ calls' m) (hva : 256 ≤ l0Index va) :
    (m₀.step m₀.kernelTtbrPa (l0Index va) ≠ 0 → m.page S va = m.page m₀.kernelTtbrPa va ∧
      m.translateVirt S va = m.translateVirt m₀.kernelTtbrPa va) ∧
    (m₀.step m₀.kernelTtbrPa (l0Index va) = 0 → ∀ va', m.walkToL3 S va = m.walkToL3 m₀.kernelTtbrPa va' →
      m.walkToL3 S va = 0) := by
  obtain ⟨level₀, hlater₀⟩ := run_later init_treeInv hrun
  have hcreated := createAddrSpace_spec hlater₀.inv hcreate
  obtain ⟨level, hlater⟩ := run_later hcreated.inv hrun'
  have hkernel₀ := hlater₀.inv.kernel hfirst
  have hkernel₁ := hcreated.grown.kept _ (show level₀ m₀.kernelTtbrPa ≠ 0 by omega)
  rw [hkernel₀] at hkernel₁
  have hS₁ : Function.update level₀ S 4 S = 4 := Function.update_self ..
  have hkernel := hlater.kept _ (show Function.update level₀ S 4 m₀.kernelTtbrPa ≠ 0 by omega)
  have hS := hlater.kept _ (show Function.update level₀ S 4 S ≠ 0 by omega)
  rw [hkernel₁] at hkernel
  rw [hS₁] at hS
  have hne : S ≠ m₀.kernelTtbrPa := fun he => by rw [← he, hcreated.fresh] at hkernel₀; cases hkernel₀
  have hlt : l0Index va < 512 := Nat.mod_lt _ (by decide)
  have hslot : ∀ d, Radix.step words m₁.mem S (l0Index va) = some d ↔
      Radix.step words m₀.mem m₀.kernelTtbrPa (l0Index va) = some d := fun d => by
    have hentry : m₁.mem S (l0Index va) = m₀.mem m₀.kernelTtbrPa (l0Index va) := by
      rw [hcreated.mem]
      exact (if_pos rfl).trans (if_pos ⟨hfirst, hva, hlt⟩)
    rw [Radix.step, hentry, Radix.step]
  refine ⟨fun hfilled => ?_, fun hempty va' hwalk => ?_⟩
  · cases hd : Radix.step words m₀.mem m₀.kernelTtbrPa (l0Index va) with
    | none =>
      rw [step_eq, hd] at hfilled
      exact absurd rfl hfilled
    | some d =>
      have hfirst₁ := hcreated.grown.leads _ _ d (by omega) hd
      have hpage := page_of_shared (hlater.leads S _ d (by omega) ((hslot d).mpr hd))
        (hlater.leads _ _ d (by omega) hfirst₁)
      exact ⟨hpage, by rw [hlater.inv.translateVirt hS, hlater.inv.translateVirt hkernel, hpage]⟩
  · by_contra hzero
    obtain ⟨d, hd, hd'⟩ := shared_of_walk hlater.inv hS hkernel hwalk hzero
    have hshared := (hlater.shared_iff (by omega) (by omega) hne).mp ⟨hd, hd'⟩
    have hfilled := (hslot d).mp hshared.1
    obtain ⟨hstep, hne0, -⟩ := hlater₀.inv.child (by omega) hfilled
    exact hne0 (hstep.symm.trans hempty)

/-- A kernel page of the first space, then a second space, and another kernel page beside the first. -/
def beforeSecond : List Call :=
  [.createAddrSpace, .mapVirt 0x100000000 0xFFFFF80000000000 0x1000 { protRw with supervisor := true }]

def afterSecond : List Call :=
  [.mapVirt 0x100000000 0xFFFFF80000001000 0x1000 { protRw with supervisor := true }]

theorem afterSecond_shared : ∃ (m₀ m₁ m : Mmu) (S : Nat), Run.Steps call (fun _ _ => True) Mmu.init beforeSecond m₀ ∧
    m₀.createAddrSpace = some (S, m₁) ∧ Run.Steps call (fun _ _ => True) m₁ afterSecond m ∧
    m.translateVirt S 0xFFFFF80000001000 = some 0x100006000 := by
  have hexec : ((Run.exec call (fun _ _ => true) Mmu.init beforeSecond).bind fun m₀ => m₀.createAddrSpace.bind fun r =>
      (Run.exec call (fun _ _ => true) r.2 afterSecond).map fun m =>
        (m₀.kernelTtbrPa, m₀.step m₀.kernelTtbrPa (l0Index 0xFFFFF80000001000),
          m.translateVirt m₀.kernelTtbrPa 0xFFFFF80000001000)) =
      some (0x100000000, 0x100002000, some 0x100006000) := by decide +kernel
  obtain ⟨m₀, h₀, hrest⟩ := Option.bind_eq_some_iff.mp hexec
  obtain ⟨⟨S, m₁⟩, h₁, hrest⟩ := Option.bind_eq_some_iff.mp hrest
  obtain ⟨m, hm, hval⟩ := Option.map_eq_some_iff.mp hrest
  obtain ⟨hfirst, hrest⟩ := Prod.mk.inj hval
  obtain ⟨hslot, htranslate⟩ := Prod.mk.inj hrest
  have hrun : Run.Steps call (fun _ _ => True) Mmu.init beforeSecond m₀ := .of_exec (fun _ _ _ => trivial) h₀
  have hrun' : Run.Steps call (fun _ _ => True) m₁ afterSecond m := .of_exec (fun _ _ _ => trivial) hm
  refine ⟨m₀, m₁, m, S, hrun, h₁, hrun', ?_⟩
  have hshared := kernel_half_shared hrun h₁ (by rw [hfirst]; decide) hrun'
    (show 256 ≤ l0Index 0xFFFFF80000001000 by decide)
  exact (hshared.1 (by rw [hslot]; decide)).2.trans htranslate

end Kernemul.Arm64
