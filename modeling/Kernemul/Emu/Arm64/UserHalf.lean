import Kernemul.Emu.Arm64.Tree
import Kernemul.Lib.Run

/-!
# The user halves of the ARM64 spaces

Below `2 ^ 47` a space has its pages to itself: they are the ones that the calls made through the space have set, one
after the other, whatever was done through other spaces in between.
-/

namespace Kernemul.Arm64

open Walk Radix
open X86 (vpn vpn_pageAlign isPage_pageOf)

variable {m m' : Mmu} {level level' : Nat → Nat}

/-! ## One page -/

theorem ensurePath_spec (h : TreeInv m level) {root : Nat} (va : Nat) (hroot : level root = 4) :
    ∃ level', Kept m level (m.ensurePath root va).1 level' ∧ Quiet m level (m.ensurePath root va).1 ∧
      ∀ l3, (m.ensurePath root va).2 = some l3 →
        walk (Radix.step words (m.ensurePath root va).1.mem) root (path va) = some l3 := by
  obtain ⟨level₁, hk₁, hq₁, hs₁⟩ := ensureTable_spec h (l0Index va) (show 2 ≤ level root by omega)
  unfold Mmu.ensurePath
  rcases he₁ : Mmu.ensureTable root (l0Index va) m with ⟨m₁, _ | l1⟩
  · rw [he₁] at hk₁ hq₁
    rw [Budget.andThen_none he₁]
    exact ⟨level₁, hk₁, hq₁, nofun⟩
  rw [he₁] at hk₁ hq₁ hs₁
  rw [Budget.andThen_some he₁]
  have hroot₁ : level₁ root = 4 := by rw [hk₁.kept root (by omega), hroot]
  have hc₁ := hs₁ l1 rfl
  have hl1 := hk₁.inv.forest.child root _ l1 (by omega) hc₁
  obtain ⟨level₂, hk₂, hq₂, hs₂⟩ := ensureTable_spec hk₁.inv (l1Index va) (show 2 ≤ level₁ l1 by omega)
  have hk := hk₁.trans hk₂
  have hq := hq₁.trans hk₁ hq₂
  rcases he₂ : Mmu.ensureTable l1 (l1Index va) m₁ with ⟨m₂, _ | l2⟩
  · rw [he₂] at hk hq
    rw [Budget.andThen_none he₂]
    exact ⟨level₂, hk, hq, nofun⟩
  rw [he₂] at hk₂ hk hq hs₂
  rw [Budget.andThen_some he₂]
  have hl1₂ : level₂ l1 = level₁ l1 := hk₂.kept l1 (by omega)
  have hc₂ := hs₂ l2 rfl
  have hl2 := hk₂.inv.forest.child l1 _ l2 (by omega) hc₂
  obtain ⟨level₃, hk₃, hq₃, hs₃⟩ := ensureTable_spec hk₂.inv (l2Index va) (show 2 ≤ level₂ l2 by omega)
  refine ⟨level₃, hk.trans hk₃, hq.trans hk hq₃, fun l3 hl3 => ?_⟩
  simp only [path, walk_cons, walk_nil]
  rw [(hk₂.trans hk₃).leads root _ l1 (by omega) hc₁, Option.bind_some, hk₃.leads l1 _ l2 (by omega) hc₂,
    Option.bind_some, hs₃ l3 hl3]
  rfl

/-- The page is set in the user half of the space, and every other page of a user half is as it was. -/
def Sets (m : Mmu) (level : Nat → Nat) (m' : Mmu) (root va : Nat) (f : Option Page → Option Page) : Prop :=
  ∀ r v, level r = 4 → l0Index v < 256 →
    m'.page r v = if r = root ∧ vpn v = vpn va then f (m.page r v) else m.page r v

theorem TreeInv.updateSpace (h : TreeInv m level) (root : Nat) (f : AddrSpace → AddrSpace) :
    TreeInv (m.updateSpace root f) level where
  forest := h.forest
  phys := h.phys
  table := h.table
  roots r hr := h.roots r (by
    unfold Mmu.updateSpace at hr
    dsimp only at hr
    split at hr
    · rwa [Option.isSome_map] at hr
    · exact hr)
  kernel := h.kernel

theorem Kept.updateSpace (h : Kept m level m' level') (root : Nat) (f : AddrSpace → AddrSpace) :
    Kept m level (m'.updateSpace root f) level' :=
  ⟨h.toKeeps, h.inv.updateSpace root f, h.old⟩

theorem writeEntry_spec (h : TreeInv m level) {root va l3 : Nat} (hroot : level root = 4)
    (hl3 : walk (Radix.step words m.mem) root (path va) = some l3) (e : Nat) :
    Kept m level (m.writeEntry l3 (l3Index va) e) level ∧
      Sets m level (m.writeEntry l3 (l3Index va) e) root va fun _ => decode e := by
  have hlevel : level l3 + 3 = level root := h.forest.level_walk (by rw [hroot]; exact Nat.lt_succ_self 3) hl3
  have hone : level l3 = 1 := by omega
  refine ⟨⟨.of_step h.forest fun t i ht => ?_, ⟨h.forest.write hone _ e, h.phys, h.table, h.roots, h.kernel⟩,
    fun _ ht => ht⟩, ?_⟩
  · exact write_step hone (l3Index va) e i ht
  · intro r v hr hv
    have hfind : (m.writeEntry l3 (l3Index va) e).word r v = _ :=
      h.forest.find_write hone (l3Index va) e (l3Index v) (show level r = (path v).length + 1 from hr)
    rw [Mmu.page, hfind]
    by_cases hs : walk (Radix.step words m.mem) r (path v) = some l3 ∧ l3Index v = l3Index va
    · have hlen : ∀ a, (path a).length < 4 := fun _ => Nat.lt_succ_self 3
      have hsize : (path v).length = (path va).length := rfl
      obtain ⟨hpath, hsame⟩ := h.forest.walk_inj (hr ▸ hlen v) (hroot ▸ hlen va) hsize hs.1 hl3
      have hroots : r = root := by
        rcases hsame with hsame | ⟨i, q, hq, hi⟩
        · exact hsame
        · have := (List.cons.inj hq).1
          unfold Shared at hi
          omega
      rw [if_pos hs, if_pos ⟨hroots, vpn_eq_iff.mpr ⟨hpath, hs.2⟩⟩]
    · rw [if_neg hs, if_neg]
      · rfl
      · rintro ⟨rfl, hvpn⟩
        obtain ⟨hpath, hidx⟩ := vpn_eq_iff.mp hvpn
        exact hs ⟨by rw [hpath]; exact hl3, hidx⟩

theorem Sets.congr {root va va' : Nat} {f g : Option Page → Option Page} (h : Sets m level m' root va f)
    (hvpn : vpn va = vpn va') (hfg : ∀ v, vpn v = vpn va → f (m.page root v) = g (m.page root v)) :
    Sets m level m' root va' g := by
  intro r v hr hv
  rw [h r v hr hv, ← hvpn]
  split
  · rename_i hs
    rw [hs.1]
    exact hfg v hs.2
  · rfl

/-- `map_page` maps the page, or runs out of guest memory and changes no page. -/
theorem mapPage_spec (h : TreeInv m level) {root : Nat} (va pa : Nat) (prot : MemProt) (hroot : level root = 4) :
    ∃ level', Kept m level (m.mapPage root va pa prot).1 level' ∧
      ((m.mapPage root va pa prot).2 = false ∧ Quiet m level (m.mapPage root va pa prot).1 ∨
        (m.mapPage root va pa prot).2 = true ∧ Sets m level (m.mapPage root va pa prot).1 root va fun _ =>
          some ⟨pa &&& descAddrMask, !prot.supervisor, !prot.write⟩) := by
  obtain ⟨level₁, hk, hq, hfound⟩ := ensurePath_spec h (pageAlign va) hroot
  unfold Mmu.mapPage
  dsimp only
  rcases he : Mmu.ensurePath root (pageAlign va) m with ⟨m₁, _ | l3⟩
  · rw [he] at hk hq
    exact ⟨level₁, hk, .inl ⟨rfl, hq⟩⟩
  rw [he] at hk hq hfound
  have hroot₁ : level₁ root = 4 := by rw [hk.kept root (by omega), hroot]
  obtain ⟨hkw, hsets⟩ := writeEntry_spec hk.inv hroot₁ (hfound l3 rfl) (pa &&& descAddrMask ||| pageAttrs prot)
  refine ⟨level₁, (hk.trans hkw).updateSpace root _, .inr ⟨rfl, fun r v hr hv => ?_⟩⟩
  have hr₁ : level₁ r = 4 := by rw [hk.kept r (by omega), hr]
  refine (hsets r v hr₁ hv).trans ?_
  rw [vpn_pageAlign, decode_pageAttrs]
  split
  · rfl
  · exact congrArg decode (hq r v hr)

theorem unmapPage_spec (h : TreeInv m level) {root : Nat} (va : Nat) (hroot : level root = 4) :
    Kept m level (m.unmapPage root va) level ∧ Sets m level (m.unmapPage root va) root va fun _ => none := by
  have hupdate := h.updateSpace root fun s => { s with shadow := Function.update s.shadow (pageAlign va) none }
  have hvpn := vpn_pageAlign va
  unfold Mmu.unmapPage
  dsimp only
  rcases hupdate.walk_cases hroot (pageAlign va) with ⟨hzero, hword⟩ | ⟨hne, hwalk, -, -⟩
  · rw [if_pos hzero]
    refine ⟨(Kept.refl h).updateSpace root _, fun r v hr hv => ?_⟩
    show m.page r v = _
    split
    · rename_i hs
      rw [hs.1, page_congr m root (hs.2.trans hvpn.symm)]
      exact congrArg decode hword
    · rfl
  · rw [if_neg hne]
    obtain ⟨hk, hsets⟩ := writeEntry_spec hupdate hroot hwalk 0
    refine ⟨((Kept.refl h).updateSpace root _).trans hk, fun r v hr hv => ?_⟩
    rw [hsets r v hr hv, hvpn]
    rfl

theorem protPage_spec (h : TreeInv m level) {root : Nat} (v : Nat) (prot : MemProt) (hroot : level root = 4) :
    Kept m level (m.protPage root v prot) level ∧
      Sets m level (m.protPage root v prot) root v (Option.map (Page.reprot prot)) := by
  have hsame : decode (m.word root v) = none → Sets m level m root v (Option.map (Page.reprot prot)) := by
    intro hnone r v' hr _
    split
    · rename_i hs
      rw [hs.1, page_congr m root hs.2, show m.page root v = none from hnone]
      rfl
    · rfl
  unfold Mmu.protPage
  dsimp only
  rcases h.walk_cases hroot v with ⟨hzero, hword⟩ | ⟨hne, hwalk, -, hword⟩
  · rw [if_pos hzero]
    exact ⟨.refl h, hsame (by rw [hword]; rfl)⟩
  · rw [if_neg hne]
    by_cases hvalid : m.mem (m.walkToL3 root v) (l3Index v) % 2 = 1
    · rw [if_pos hvalid]
      obtain ⟨hk, hsets⟩ := writeEntry_spec h hroot hwalk (reprotEntry (m.mem (m.walkToL3 root v) (l3Index v)) prot)
      refine ⟨hk, hsets.congr rfl fun v' hv' => ?_⟩
      rw [decode_reprotEntry prot hvalid, page_congr m root hv', Mmu.page, hword]
    · rw [if_neg hvalid]
      exact ⟨.refl h, hsame (by rw [hword, decode, if_neg hvalid])⟩

/-! ## Ranges -/

abbrev Pages := Nat → Option Page

/-- Edit `n` pages from `start` on, one after the other. -/
def overPages (A : Pages) (start : Nat) (f : Nat → Option Page → Option Page) : Nat → Pages
  | 0 => A
  | n + 1 =>
    let B := overPages A start f n
    Function.update B (vpn (pageOf start n)) (f n (B (vpn (pageOf start n))))

def Mmu.pages (m : Mmu) (root : Nat) : Pages := fun n => m.page root (n * pageSize)

/-- After the first `n` pages from `start` on were edited. -/
def Visited (m : Mmu) (level : Nat → Nat) (root start : Nat) (f : Nat → Option Page → Option Page) (n : Nat)
    (m' : Mmu) : Prop :=
  ∃ level', Kept m level m' level' ∧ ∀ r p, level r = 4 → p < 2 ^ 35 →
    m'.pages r p = if r = root then overPages (m.pages root) start f n p else m.pages r p

theorem user_page {p : Nat} (hp : p < 2 ^ 35) : l0Index (p * pageSize) < 256 ∧ vpn (p * pageSize) = p := by
  unfold l0Index vpn pageSize
  omega

section Visited
variable {root start n : Nat} {f : Nat → Option Page → Option Page}

theorem Visited.zero (hk : Kept m level m' level') (hq : Quiet m level m') (root start : Nat)
    (f : Nat → Option Page → Option Page) : Visited m level root start f 0 m' := by
  refine ⟨level', hk, fun r p hr _ => ?_⟩
  have hpage : m'.pages r p = m.pages r p := congrArg decode (hq r _ hr)
  split
  · rename_i he
    rw [hpage, he]
    rfl
  · exact hpage

theorem Visited.quiet {m₁ : Mmu} (h : Visited m level root start f n m₁)
    (hstep : ∀ level₁, TreeInv m₁ level₁ → Kept m level m₁ level₁ →
      ∃ level', Kept m₁ level₁ m' level' ∧ Quiet m₁ level₁ m') : Visited m level root start f n m' := by
  obtain ⟨level₁, hk, hpages⟩ := h
  obtain ⟨level', hk', hq⟩ := hstep level₁ hk.inv hk
  refine ⟨level', hk.trans hk', fun r p hr hp => ?_⟩
  rw [← hpages r p hr hp]
  exact congrArg decode (hq r _ (by rw [hk.kept r (by omega), hr]))

theorem Visited.sets {m₁ : Mmu} (h : Visited m level root start f n m₁)
    (hstep : ∀ level₁, TreeInv m₁ level₁ → Kept m level m₁ level₁ →
      ∃ level', Kept m₁ level₁ m' level' ∧ Sets m₁ level₁ m' root (pageOf start n) (f n)) :
    Visited m level root start f (n + 1) m' := by
  obtain ⟨level₁, hk, hpages⟩ := h
  obtain ⟨level', hk', hsets⟩ := hstep level₁ hk.inv hk
  refine ⟨level', hk.trans hk', fun r p hr hp => ?_⟩
  obtain ⟨huser, hvpn⟩ := user_page hp
  have hset := hsets r (p * pageSize) (by rw [hk.kept r (by omega), hr]) huser
  rw [hvpn] at hset
  have hbefore : m₁.page r (p * pageSize) = _ := hpages r p hr hp
  rw [Mmu.pages, hset, hbefore]
  by_cases hroot : r = root
  · rw [if_pos hroot, if_pos hroot, overPages]
    by_cases hpage : p = vpn (pageOf start n)
    · rw [if_pos ⟨hroot, hpage⟩, ← hpage, Function.update_self]
    · rw [if_neg fun hs => hpage hs.2, Function.update_of_ne hpage]
  · rw [if_neg hroot, if_neg hroot, if_neg fun hs => hroot hs.1]

end Visited

/-! ### Loops -/

/-- What mapping makes of page `k`; it is writable, whatever was asked for. -/
def mapped (pa : Nat) (prot : MemProt) (k : Nat) (_ : Option Page) : Option Page :=
  some ⟨pageOf pa k % 2 ^ 48, !prot.supervisor, false⟩

section loops
variable {root : Nat} (start : Nat) (hroot : level root = 4)
include hroot

theorem mapLoop_visited {pa : Nat} (hpa : IsPage pa) (prot : MemProt) (n : Nat) : ∀ k m₁,
    Visited m level root start (mapped pa prot) k m₁ →
      Visited m level root start (mapped pa prot) (mapLoop root start pa prot n k m₁).2
        (mapLoop root start pa prot n k m₁).1 := by
  induction n with
  | zero => exact fun k m₁ h => h
  | succ n ih =>
    intro k m₁ h
    have hspec : ∀ level₁, TreeInv m₁ level₁ → Kept m level m₁ level₁ → _ := fun level₁ h₁ hk =>
      mapPage_spec h₁ (pageOf start k) (pageOf pa k) { prot with write := true }
        (by rw [hk.kept root (by omega), hroot])
    unfold mapLoop Budget.loop
    rcases hm : m₁.mapPage root (pageOf start k) (pageOf pa k) { prot with write := true } with ⟨m₂, _ | _⟩
    · refine h.quiet fun level₁ h₁ hk => ?_
      obtain ⟨level₂, hk₂, ⟨-, hq⟩ | ⟨htrue, -⟩⟩ := hspec level₁ h₁ hk
      · rw [hm] at hk₂ hq
        exact ⟨level₂, hk₂, hq⟩
      · rw [hm] at htrue
        cases htrue
    · refine ih (k + 1) m₂ (h.sets fun level₁ h₁ hk => ?_)
      obtain ⟨level₂, hk₂, ⟨hfalse, -⟩ | ⟨-, hsets⟩⟩ := hspec level₁ h₁ hk
      · rw [hm] at hfalse
        cases hfalse
      · rw [hm] at hk₂ hsets
        rw [mask_of_isPage (isPage_pageOf hpa k)] at hsets
        exact ⟨level₂, hk₂, hsets⟩

theorem eachPage_visited {f : Nat → Option Page → Option Page} {visit : Nat → Mmu → Mmu}
    (hvisit : ∀ k m₁ level₁, TreeInv m₁ level₁ → level₁ root = 4 →
      Kept m₁ level₁ (visit k m₁) level₁ ∧ Sets m₁ level₁ (visit k m₁) root (pageOf start k) (f k)) (n : Nat) :
    ∀ k m₁, Visited m level root start f k m₁ → Visited m level root start f (k + n) (eachPage visit n k m₁) := by
  induction n with
  | zero => exact fun k m₁ h => h
  | succ n ih =>
    intro k m₁ h
    have hnext := ih (k + 1) (visit k m₁) (h.sets fun level₁ h₁ hk =>
      ⟨level₁, hvisit k m₁ level₁ h₁ (by rw [hk.kept root (by omega), hroot])⟩)
    rwa [show k + (n + 1) = k + 1 + n by omega]

end loops

/-! ## Calls -/

/-- What a call does to the pages of the space it is made through: of a call that runs out of guest memory, what it has
done until then. -/
def Mmu.edit (m : Mmu) (c : Call) (A : Pages) : Pages :=
  match c with
  | .mapVirt root va size prot =>
    overPages A (pageAlign va) (mapped m.physNext prot) (m.mapVirt root va size prot).2
  | .mapVirtPhys root va pa size prot =>
    overPages A (pageAlign va) (mapped (pageAlign pa) prot) (m.mapVirtPhys root va pa size prot).2
  | .unmapVirt _ va size => overPages A (pageAlign va) (fun _ _ => none) (Arm64.pages size)
  | .protVirt _ va size prot => overPages A (pageAlign va) (fun _ => Option.map (Page.reprot prot)) (Arm64.pages size)
  | .alloc root size prot => ((m.alloc root size prot).map fun r =>
      overPages A (pageAlign r.1) (mapped m.physNext prot) r.2.2).getD A
  | .mapPhys root pa size prot => ((m.mapPhys root pa size prot).map fun r =>
      overPages A (pageAlign r.1) (mapped (pageAlign pa) prot) r.2.2).getD A
  | _ => A

theorem allocPhys_spec (h : TreeInv m level) {size pa : Nat} (ha : m.allocPhys size = some (pa, m')) :
    pa = m.physNext ∧ m'.mem = m.mem ∧ m'.kernelTtbrPa = m.kernelTtbrPa ∧ m'.spaces = m.spaces ∧ TreeInv m' level := by
  unfold Mmu.allocPhys at ha
  dsimp only at ha
  split at ha
  · cases ha
  · rename_i hroom
    obtain ⟨rfl, rfl⟩ := Prod.mk.inj (Option.some.inj ha)
    have hphys := h.phys
    refine ⟨rfl, rfl, rfl, rfl, h.forest, ⟨hphys.1.add (isPage_sizeAlign size), ?_, ?_⟩, fun t ht => ?_, h.roots,
      h.kernel⟩
    · exact Nat.le_trans hphys.2.1 (Nat.le_add_right ..)
    · show m.physNext + sizeAlign size ≤ physEnd
      omega
    · exact ⟨(h.table t ht).1, Nat.lt_add_right _ (h.table t ht).2⟩

/-- Frames were reserved or records of spaces changed; the tables are as they were. -/
theorem quiet_of_mem {level : Nat → Nat} (h' : TreeInv m' level) (hmem : m'.mem = m.mem) :
    Kept m level m' level ∧ Quiet m level m' :=
  ⟨⟨.of_step (hmem ▸ h'.forest) fun _ _ _ => by rw [hmem], h', fun _ ht => ht⟩,
    fun r va _ => by rw [Mmu.word, Mmu.word, hmem]⟩

section calls
variable {root : Nat} (h : TreeInv m level) (hroot : level root = 4)
include hroot

theorem mapVirt_visited {m₁ : Mmu} (hk : Kept m level m₁ level) (hq : Quiet m level m₁) (va size : Nat)
    (prot : MemProt) : Visited m level root (pageAlign va) (mapped m₁.physNext prot) (m₁.mapVirt root va size prot).2
      (m₁.mapVirt root va size prot).1 := by
  unfold Mmu.mapVirt
  cases ha : m₁.allocPhys (sizeAlign size) with
  | none => exact .zero hk hq root _ _
  | some r =>
    obtain ⟨pa, m₂⟩ := r
    obtain ⟨rfl, hmem, -, -, h₂⟩ := allocPhys_spec hk.inv ha
    obtain ⟨hk₂, hq₂⟩ := quiet_of_mem h₂ hmem
    exact mapLoop_visited (pageAlign va) hroot hk.inv.phys.1 prot (Arm64.pages size) 0 m₂
      (.zero (hk.trans hk₂) (hq.trans hk hq₂) root _ _)

theorem mapVirtPhys_visited {m₁ : Mmu} (hk : Kept m level m₁ level) (hq : Quiet m level m₁) (va pa size : Nat)
    (prot : MemProt) : Visited m level root (pageAlign va) (mapped (pageAlign pa) prot)
      (m₁.mapVirtPhys root va pa size prot).2 (m₁.mapVirtPhys root va pa size prot).1 :=
  mapLoop_visited (pageAlign va) hroot (isPage_pageAlign pa) prot (Arm64.pages size) 0 m₁ (.zero hk hq root _ _)

include h

theorem unmapVirt_visited (va size : Nat) : Visited m level root (pageAlign va) (fun _ _ => none) (Arm64.pages size)
    (m.unmapVirt root va size) := by
  have hloop := eachPage_visited (pageAlign va) hroot (f := fun _ _ => none)
    (fun k _ _ h₁ hroot₁ => unmapPage_spec h₁ (pageOf (pageAlign va) k) hroot₁) (Arm64.pages size) 0 m
    (.zero (.refl h) (fun _ _ _ => rfl) root _ _)
  rwa [Nat.zero_add] at hloop

theorem protVirt_visited (va size : Nat) (prot : MemProt) : Visited m level root (pageAlign va)
    (fun _ => Option.map (Page.reprot prot)) (Arm64.pages size) (m.protVirt root va size prot) := by
  have hloop := eachPage_visited (pageAlign va) hroot (f := fun _ => Option.map (Page.reprot prot))
    (fun k _ _ h₁ hroot₁ => protPage_spec h₁ (pageOf (pageAlign va) k) prot hroot₁) (Arm64.pages size) 0 m
    (.zero (.refl h) (fun _ _ _ => rfl) root _ _)
  rwa [Nat.zero_add] at hloop

end calls

/-- A call through a space edits the user half of that space and leaves those of the others. -/
theorem perform_pages (h : TreeInv m level) {c : Call} {root : Nat} (hc : c.root = some root)
    (hlive : (m.spaces root).isSome) : ∃ level', Kept m level (perform m c) level' ∧
      ∀ r p, level r = 4 → p < 2 ^ 35 →
        (perform m c).pages r p = if r = root then m.edit c (m.pages root) p else m.pages r p := by
  have hroot := h.roots root hlive
  have hrefl := quiet_of_mem h rfl
  cases c with
  | createAddrSpace => cases hc
  | allocPhys size => cases hc
  | destroyAddrSpace r =>
    have h' : TreeInv (m.destroyAddrSpace r) level := by
      refine ⟨h.forest, h.phys, h.table, fun r' hr' => ?_, h.kernel⟩
      have hr'' : (Function.update m.spaces r none r').isSome := hr'
      by_cases he : r' = r
      · rw [he, Function.update_self] at hr''
        cases hr''
      · rw [Function.update_of_ne he] at hr''
        exact h.roots r' hr''
    obtain ⟨hk, hq⟩ := quiet_of_mem h' (m := m) rfl
    obtain ⟨level', hk', hpages⟩ := Visited.zero hk hq root 0 fun _ _ => none
    exact ⟨level', hk', hpages⟩
  | mapVirt r va size prot =>
    obtain rfl := Option.some.inj hc
    exact mapVirt_visited hroot hrefl.1 hrefl.2 va size prot
  | mapVirtPhys r va pa size prot =>
    obtain rfl := Option.some.inj hc
    exact mapVirtPhys_visited hroot hrefl.1 hrefl.2 va pa size prot
  | unmapVirt r va size =>
    obtain rfl := Option.some.inj hc
    exact unmapVirt_visited h hroot va size
  | protVirt r va size prot =>
    obtain rfl := Option.some.inj hc
    exact protVirt_visited h hroot va size prot
  | alloc r size prot =>
    obtain rfl := Option.some.inj hc
    obtain ⟨s, hs⟩ := Option.isSome_iff_exists.mp hlive
    obtain ⟨hk, hq⟩ := quiet_of_mem (h.updateSpace r fun s => s.advance prot (sizeAlign size)) (m := m) rfl
    have hvisited := mapVirt_visited hroot hk hq (s.cursor prot) (sizeAlign size) prot
    have halloc : m.alloc r size prot = some (s.cursor prot, (m.updateSpace r fun s =>
        s.advance prot (sizeAlign size)).mapVirt r (s.cursor prot) (sizeAlign size) prot) := by
      rw [Mmu.alloc, hs]
      rfl
    unfold perform Mmu.edit
    simp only [halloc, Option.map_some, Option.getD_some]
    exact hvisited
  | mapPhys r pa size prot =>
    obtain rfl := Option.some.inj hc
    obtain ⟨s, hs⟩ := Option.isSome_iff_exists.mp hlive
    obtain ⟨hk, hq⟩ := quiet_of_mem (h.updateSpace r fun s => s.advance prot (sizeAlign size)) (m := m) rfl
    have hvisited := mapVirtPhys_visited hroot hk hq (s.cursor prot) pa (sizeAlign size) prot
    have hmap : m.mapPhys r pa size prot = some (s.cursor prot, (m.updateSpace r fun s =>
        s.advance prot (sizeAlign size)).mapVirtPhys r (s.cursor prot) pa (sizeAlign size) prot) := by
      rw [Mmu.mapPhys, hs]
      rfl
    unfold perform Mmu.edit
    simp only [hmap, Option.map_some, Option.getD_some]
    exact hvisited

/-! ## New spaces -/

variable {root : Nat}

def Mmu.inherited (m : Mmu) (i : Nat) : Nat :=
  if m.kernelTtbrPa ≠ 0 ∧ 256 ≤ i ∧ i < 512 then m.mem m.kernelTtbrPa i else 0

structure Created (m : Mmu) (level : Nat → Nat) (root : Nat) (m' : Mmu) : Prop where
  inv : TreeInv m' (Function.update level root 4)
  fresh : level root = 0
  mem : m'.mem = fun t i => if t = root then m.inherited i else m.mem t i
  kernel : m'.kernelTtbrPa = if m.kernelTtbrPa = 0 then root else m.kernelTtbrPa
  grown : Grown words m.mem level m'.mem (Function.update level root 4)

theorem inherited_lead (h : TreeInv m level) (i d : Nat) (hd : words.lead (m.inherited i) = some d) :
    Shared i ∧ ∃ src, level src = 4 ∧ Radix.step words m.mem src i = some d := by
  unfold Mmu.inherited at hd
  split at hd
  · rename_i hs
    exact ⟨hs.2, m.kernelTtbrPa, h.kernel hs.1, hd⟩
  · cases hd

theorem createAddrSpace_eq (h : TreeInv m level) {root : Nat} (hc : m.createAddrSpace = some (root, m')) :
    root = m.physNext ∧ m.physNext + pageSize ≤ physEnd ∧ m' = {
      mem := fun t i => if t = m.physNext then m.inherited i else m.mem t i
      physNext := m.physNext + pageSize
      kernelTtbrPa := if m.kernelTtbrPa = 0 then m.physNext else m.kernelTtbrPa
      spaces := fun r => if r = m.physNext then some {} else m.spaces r } := by
  have hblank := h.forest.untouched m.physNext
  unfold Mmu.createAddrSpace at hc
  rcases allocPhys_page m h.phys.2.2 with hnone | ⟨hroom, hsome⟩
  · rw [hnone] at hc
    cases hc
  rw [hsome, Option.map_some] at hc
  obtain ⟨rfl, rfl⟩ := Prod.mk.inj (Option.some.inj hc)
  refine ⟨rfl, hroom, ?_⟩
  unfold Mmu.inherited
  by_cases hk : m.kernelTtbrPa = 0
  · simp only [hk, if_true]
    congr 1
    funext t i
    by_cases ht : t = m.physNext
    · rw [if_pos ht, if_neg fun hs => hs.1 rfl, ht]
      exact hblank i h.level_physNext
    · rw [if_neg ht]
  · simp only [hk, if_false]
    congr 1
    funext t i
    by_cases ht : t = m.physNext
    · by_cases hi : 256 ≤ i ∧ i < 512
      · rw [if_pos ⟨ht, hi⟩, if_pos ht, if_pos ⟨hk, hi⟩]
      · rw [if_neg fun hs => hi hs.2, if_pos ht, if_neg fun hs => hi hs.2, ht]
        exact hblank i h.level_physNext
    · rw [if_neg fun hs => ht hs.1, if_neg ht]

theorem createAddrSpace_spec (h : TreeInv m level) {root : Nat} (hc : m.createAddrSpace = some (root, m')) :
    Created m level root m' := by
  obtain ⟨rfl, hroom, rfl⟩ := createAddrSpace_eq h hc
  have hfresh := h.level_physNext
  have hcopy := inherited_lead h
  have hgrown : Grown words m.mem level (fun t i => if t = m.physNext then m.inherited i else m.mem t i)
      (Function.update level m.physNext 4) := h.forest.root_grown hfresh
  refine ⟨⟨h.forest.root hcopy (by decide) hfresh, ⟨h.phys.1.add isPage_pageSize, ?_, hroom⟩, fun t ht => ?_,
    fun r hr => ?_, fun hk => ?_⟩, hfresh, rfl, rfl, hgrown⟩
  · exact Nat.le_trans h.phys.2.1 (Nat.le_add_right ..)
  · show physBase ≤ t ∧ t < m.physNext + pageSize
    by_cases he : t = m.physNext
    · rw [he]
      exact ⟨h.phys.2.1, Nat.lt_add_of_pos_right (by decide)⟩
    · rw [Function.update_of_ne he] at ht
      exact ⟨(h.table t ht).1, Nat.lt_add_right _ (h.table t ht).2⟩
  · by_cases he : r = m.physNext
    · rw [he, Function.update_self]
    · have hr' : (if r = m.physNext then some {} else m.spaces r).isSome := hr
      rw [if_neg he] at hr'
      rw [Function.update_of_ne he, h.roots r hr']
  · show Function.update level m.physNext 4 (if m.kernelTtbrPa = 0 then m.physNext else m.kernelTtbrPa) = 4
    split
    · exact Function.update_self ..
    · rename_i hne
      rw [hgrown.kept _ (by rw [h.kernel hne]; decide), h.kernel hne]

theorem Created.page (hc : Created m level root m') {r : Nat} (hr : level r = 4) (va : Nat) :
    m'.page r va = m.page r va :=
  congrArg decode (hc.grown.finds r (path va) (l3Index va) hr)

/-- A new space has the pages of the first one in the slots of the kernel half that are filled, and no others. -/
theorem Created.page_new (h : TreeInv m level) (hc : Created m level root m') (va : Nat) :
    m'.page root va = if m.kernelTtbrPa ≠ 0 ∧ 256 ≤ l0Index va then m.page m.kernelTtbrPa va else none := by
  have hlt : l0Index va < 512 := Nat.mod_lt _ (by decide)
  have hfind := h.forest.find_root (inherited_lead h) (by decide) hc.fresh (i := l0Index va)
    (p := [l1Index va, l2Index va]) (l3Index va) rfl
  rw [← hc.mem] at hfind
  unfold Mmu.page Mmu.word path
  rw [hfind]
  by_cases hs : m.kernelTtbrPa ≠ 0 ∧ 256 ≤ l0Index va
  · have hinherited : m.inherited (l0Index va) = m.mem m.kernelTtbrPa (l0Index va) := if_pos ⟨hs.1, hs.2, hlt⟩
    rw [if_pos hs, hinherited]
    unfold find
    rw [walk_cons, Radix.step]
    cases words.lead (m.mem m.kernelTtbrPa (l0Index va)) with
    | none => rfl
    | some d => rfl
  · have hinherited : m.inherited (l0Index va) = 0 := if_neg fun h' => hs ⟨h'.1, h'.2.1⟩
    rw [if_neg hs, hinherited]
    rfl

/-! ## Runs -/

def stepRecorded (S : Nat) (s : Mmu × Pages) (c : Call) : Option (Mmu × Pages) :=
  (call s.1 c).map fun m' => (m', if c.root = some S then s.1.edit c s.2 else s.2)

theorem overPages_congr {A B : Pages} (h : ∀ p < 2 ^ 35, A p = B p) (start : Nat) (f : Nat → Option Page → Option Page)
    (n : Nat) : ∀ p < 2 ^ 35, overPages A start f n p = overPages B start f n p := by
  induction n with
  | zero => exact h
  | succ n ih =>
    intro p hp
    rw [overPages, overPages]
    by_cases he : p = vpn (pageOf start n)
    · rw [← he, Function.update_self, Function.update_self, ih p hp]
    · rw [Function.update_of_ne he, Function.update_of_ne he, ih p hp]

theorem edit_congr {A B : Pages} (h : ∀ p < 2 ^ 35, A p = B p) (m : Mmu) (c : Call) :
    ∀ p < 2 ^ 35, m.edit c A p = m.edit c B p := by
  unfold Mmu.edit
  cases c with
  | createAddrSpace => exact h
  | allocPhys size => exact h
  | destroyAddrSpace r => exact h
  | mapVirt r va size prot => exact overPages_congr h _ _ _
  | mapVirtPhys r va pa size prot => exact overPages_congr h _ _ _
  | unmapVirt r va size => exact overPages_congr h _ _ _
  | protVirt r va size prot => exact overPages_congr h _ _ _
  | alloc r size prot =>
    dsimp only
    cases m.alloc r size prot with
    | none => exact h
    | some out => exact overPages_congr h _ _ _
  | mapPhys r pa size prot =>
    dsimp only
    cases m.mapPhys r pa size prot with
    | none => exact h
    | some out => exact overPages_congr h _ _ _

/-- The user half of a space is what was recorded for it; nothing is before it is made. -/
def LedgerInv (S : Nat) (s : Mmu × Pages) : Prop :=
  ∃ level, TreeInv s.1 level ∧ (level S = 4 → ∀ p < 2 ^ 35, s.1.pages S p = s.2 p) ∧
    (level S ≠ 4 → ∀ p, s.2 p = none)

theorem init_treeInv : TreeInv Mmu.init fun _ => 0 where
  forest := ⟨fun _ => Nat.zero_le _, fun _ _ _ => rfl, fun _ _ _ h => absurd h (by decide), fun _ _ _ _ _ h =>
    absurd h (by decide)⟩
  phys := ⟨rfl, Nat.le_refl _, by decide⟩
  table _ ht := absurd rfl ht
  roots _ hr := nomatch hr
  kernel hk := absurd rfl hk

theorem step_ledgerInv {S : Nat} {s s' : Mmu × Pages} {c : Call} (h : LedgerInv S s)
    (hstep : stepRecorded S s c = some s') : LedgerInv S s' := by
  obtain ⟨m, A⟩ := s
  obtain ⟨m', hcall, rfl⟩ := Option.map_eq_some_iff.mp hstep
  obtain ⟨level, hinv, hledger, hnone⟩ := h
  unfold call at hcall
  dsimp only at hcall hinv hledger hnone
  cases hroot : c.root with
  | some root =>
    rw [hroot] at hcall
    dsimp only at hcall
    split at hcall
    · rename_i hlive
      obtain rfl := Option.some.inj hcall
      obtain ⟨level', hk, hpages⟩ := perform_pages hinv hroot hlive
      refine ⟨level', hk.inv, fun h4 p hp => ?_, fun hne p => ?_⟩
      · have h4' := hk.old S h4
        have hpage := hpages S p h4' hp
        dsimp only
        rw [hpage]
        by_cases hS : S = root
        · rw [if_pos hS, if_pos (by rw [hS]), ← hS]
          exact edit_congr (hledger h4') m c p hp
        · rw [if_neg hS, if_neg fun he => hS (Option.some.inj he).symm]
          exact hledger h4' p hp
      · have hne' : level S ≠ 4 := fun h4 => hne (by rw [hk.kept S (by omega), h4])
        have hS : S ≠ root := fun he => hne' (he ▸ hinv.roots root hlive)
        rw [if_neg fun he => hS (Option.some.inj he).symm]
        exact hnone hne' p
    · cases hcall
  | none =>
    rw [hroot] at hcall
    obtain rfl := Option.some.inj hcall
    rw [if_neg (by simp)]
    cases c with
    | createAddrSpace =>
      unfold perform
      cases hc : m.createAddrSpace with
      | none => exact ⟨level, hinv, hledger, hnone⟩
      | some r =>
        obtain ⟨root, m'⟩ := r
        have hcreated := createAddrSpace_spec hinv hc
        refine ⟨_, hcreated.inv, fun h4 p hp => ?_, fun hne p => ?_⟩
        · by_cases hS : S = root
          · have hempty := hcreated.page_new hinv (p * pageSize)
            rw [if_neg fun hs => Nat.not_le.mpr (user_page hp).1 hs.2] at hempty
            have hne : level S ≠ 4 := by rw [hS, hcreated.fresh]; decide
            dsimp only
            rw [hnone hne p, hS]
            exact hempty
          · rw [Function.update_of_ne hS] at h4
            exact (hcreated.page h4 _).trans (hledger h4 p hp)
        · refine hnone (fun h4 => hne ?_) p
          rw [Function.update_of_ne, h4]
          rintro rfl
          rw [hcreated.fresh] at h4
          cases h4
    | allocPhys size =>
      unfold perform
      dsimp only
      cases ha : m.allocPhys size with
      | none => exact ⟨level, hinv, hledger, hnone⟩
      | some r =>
        obtain ⟨pa, m'⟩ := r
        obtain ⟨-, hmem, -, -, hinv'⟩ := allocPhys_spec hinv ha
        refine ⟨level, hinv', fun h4 p hp => ?_, hnone⟩
        exact (congrArg decode ((quiet_of_mem hinv' hmem).2 S _ h4)).trans (hledger h4 p hp)
    | _ => cases hroot

/-- The user half of a space is exactly what the calls through it have made of it: a page is mapped when the last of
them that named it mapped it or reprotected it, to the frame and with the rights that were asked for, whatever was done
through other spaces and whether or not guest memory ran out in between. -/
theorem user_half_refines {S : Nat} {calls : List Call} {A : Pages}
    (hrun : Run.Steps (stepRecorded S) (fun _ _ => True) (Mmu.init, fun _ => none) calls (m, A))
    (hlive : (m.spaces S).isSome) {va : Nat} (hva : va < 2 ^ 47) :
    m.page S va = A (va / pageSize) ∧ m.translateVirt S va = (A (va / pageSize)).map Page.frame := by
  have hinit : LedgerInv S (Mmu.init, fun _ => none) :=
    ⟨fun _ => 0, init_treeInv, fun h4 => absurd (show 0 = 4 from h4) (by decide), fun _ _ => rfl⟩
  obtain ⟨level, hinv, hledger, -⟩ := hrun.invariant (fun _ _ _ h _ hstep => step_ledgerInv h hstep) hinit
  have hroot := hinv.roots S hlive
  have hp : va / pageSize < 2 ^ 35 := by
    unfold pageSize
    omega
  have hpage : m.page S va = A (va / pageSize) := by
    refine (page_congr m S ?_).trans (hledger hroot _ hp)
    rw [(user_page hp).2]
    unfold vpn pageSize
    omega
  exact ⟨hpage, by rw [hinv.translateVirt hroot, hpage]⟩

/-- Two spaces map the same address, and one of them makes its second page read only. -/
def twoUsers : List Call :=
  [.createAddrSpace, .createAddrSpace, .mapVirt 0x100000000 0x400000 0x2000 protRw,
    .mapVirtPhys 0x100001000 0x400000 0x5000 0x1000 protRw, .protVirt 0x100000000 0x401000 0x1000 protRead]

theorem twoUsers_pages : ∃ s : Mmu × Pages,
    Run.Steps (stepRecorded 0x100000000) (fun _ _ => True) (Mmu.init, fun _ => none) twoUsers s ∧
    s.1.page 0x100000000 0x400000 = some ⟨0x100002000, true, false⟩ ∧
    s.1.page 0x100000000 0x401000 = some ⟨0x100003000, true, true⟩ := by
  have hexec : ((Run.exec (stepRecorded 0x100000000) (fun _ _ => true) (Mmu.init, fun _ => none) twoUsers).map fun s =>
      (s.2 0x400, s.2 0x401, (s.1.spaces 0x100000000).isSome)) =
      some (some ⟨0x100002000, true, false⟩, some ⟨0x100003000, true, true⟩, true) := by decide +kernel
  obtain ⟨s, hs, hval⟩ := Option.map_eq_some_iff.mp hexec
  obtain ⟨h1, hrest⟩ := Prod.mk.inj hval
  obtain ⟨h2, hlive⟩ := Prod.mk.inj hrest
  have hrun := Run.Steps.of_exec (fun _ _ _ => trivial) hs
  refine ⟨s, hrun, ?_, ?_⟩
  · exact (user_half_refines hrun hlive (show 0x400000 < 2 ^ 47 by decide)).1.trans h1
  · exact (user_half_refines hrun hlive (show 0x401000 < 2 ^ 47 by decide)).1.trans h2

end Kernemul.Arm64
