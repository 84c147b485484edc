import Kernemul.Emu.X86.Cursor

/-!
# The shadow maps

Every space has a map of what was mapped through it, besides the tables. Reads, writes and `virt_to_phys`
use it when the walk finds nothing, and `phys_to_virt` looks only there. A shadow entry that no longer
agrees with the walk (`Agree`) is a stale translation: unmapping, or mapping something else, through
another space that shares the page table leaves one behind, and so does the same page under another 64-bit
address.
-/

namespace Kernemul.X86

/-! ## Lookups -/

def Mmu.shadowOf (m : Mmu) (root page : Nat) : Option Nat :=
  (m.spaces root).bind fun s => s.shadow page

/-- The frame of a page: the walk decides, and the shadow map stands in when it finds nothing. -/
def Mmu.resolve (m : Mmu) (root page : Nat) : Option Nat :=
  match m.translateVirt root page with
  | some frame => some frame
  | none => m.shadowOf root page

def Mmu.virtToPhys (m : Mmu) (root va : Nat) : Option Nat :=
  (m.resolve root (pageAlign va)).map fun frame => wrap (frame + (va - pageAlign va))

/-- The loop of `copy_virt`, with `n` bytes to go: the physical chunks it copies, or none when it throws. A
round takes at least one byte, so that `n` rounds are enough. -/
def Mmu.copyLoop (m : Mmu) (root : Nat) : Nat → Nat → Nat → Option (List (Nat × Nat))
  | 0, _, _ => some []
  | rounds + 1, cur, n =>
    if n = 0 then some []
    else
      let page := pageAlign cur
      let chunk := min n (pageSize - (cur - page))
      (m.resolve root page).bind fun frame =>
        (m.copyLoop root rounds (wrap (cur + chunk)) (n - chunk)).map fun rest =>
          (wrap (frame + (cur - page)), chunk) :: rest

/-- `copy_virt`, of which `read_virt` and `write_virt` are the two directions. -/
def Mmu.copyVirt (m : Mmu) (root va size : Nat) : Option (List (Nat × Nat)) :=
  m.copyLoop root size va size

/-- The answers of `phys_to_virt`: it takes the first entry that fits in the order of a hash map. -/
def Mmu.PhysToVirt (m : Mmu) (root pa va : Nat) : Prop :=
  ∃ page, m.shadowOf root page = some (pageAlign pa) ∧ va = wrap (page + (pa - pageAlign pa))

/-- A page the walk does not find cannot be read, written or translated, and `phys_to_virt` is undone by
`virt_to_phys`. -/
structure NoStale (m : Mmu) : Prop where
  translate : ∀ S va, (m.spaces S).isSome → m.translateVirt S (pageAlign va) = none →
    m.virtToPhys S va = none
  copy : ∀ S va size i, (m.spaces S).isSome → va < 2 ^ 64 → i < size →
    m.translateVirt S (pageAlign (wrap (va + i))) = none → m.copyVirt S va size = none
  back : ∀ S pa va, (m.spaces S).isSome → pa < 2 ^ 64 → m.PhysToVirt S pa va →
    m.virtToPhys S va = some pa

def Agree (m : Mmu) : Prop := ∀ T page pa, m.shadowOf T page = some pa →
  IsPage page ∧ page < 2 ^ 64 ∧ m.translateVirt T page = some pa

variable {m : Mmu} {root : Nat}

theorem Agree.resolve (h : Agree m) {page : Nat}
    (hnone : m.translateVirt root page = none) : m.resolve root page = none := by
  unfold Mmu.resolve
  rw [hnone]
  cases hs : m.shadowOf root page with
  | none => rfl
  | some pa =>
    rw [(h root page pa hs).2.2] at hnone
    simp at hnone

theorem Agree.copyLoop (h : Agree m) (root : Nat) : ∀ rounds cur n i, n ≤ rounds →
    cur < 2 ^ 64 → i < n → m.translateVirt root (pageAlign (wrap (cur + i))) = none →
    m.copyLoop root rounds cur n = none := by
  intro rounds
  induction rounds with
  | zero =>
    intro cur n i hn _ hi
    omega
  | succ rounds ih =>
    intro cur n i hn hcur hi hnone
    rw [Mmu.copyLoop, if_neg (by omega)]
    simp only
    have hpage := lt_pageAlign_add cur
    have hle := pageAlign_le cur
    by_cases hin : i < min n (pageSize - (cur - pageAlign cur))
    · have hsame : pageAlign (wrap (cur + i)) = pageAlign cur := by
        unfold pageAlign wrap pageSize at *
        omega
      rw [hsame] at hnone
      rw [h.resolve hnone]
      rfl
    · cases hr : m.resolve root (pageAlign cur) with
      | none => rfl
      | some frame =>
        have hrest := ih (wrap (cur + min n (pageSize - (cur - pageAlign cur))))
          (n - min n (pageSize - (cur - pageAlign cur)))
          (i - min n (pageSize - (cur - pageAlign cur))) (by omega) (Nat.mod_lt _ (by decide)) (by omega)
          ?_
        · rw [Option.bind_some, hrest]
          rfl
        · rw [← hnone]
          congr 2
          unfold wrap
          omega

theorem Agree.noStale (h : Agree m) : NoStale m := by
  refine ⟨fun S va _ hnone => ?_, fun S va size i _ hva hi hnone => ?_, fun S pa va _ hpa hp => ?_⟩
  · unfold Mmu.virtToPhys
    rw [h.resolve hnone]
    rfl
  · exact h.copyLoop S size va size i le_rfl hva hi hnone
  · obtain ⟨page, hs, rfl⟩ := hp
    obtain ⟨hpage, hlt, ht⟩ := h S page _ hs
    have hoff := lt_pageAlign_add pa
    have hle := pageAlign_le pa
    have halign : pageAlign (wrap (page + (pa - pageAlign pa))) = page ∧
        wrap (page + (pa - pageAlign pa)) - page = pa - pageAlign pa := by
      unfold pageAlign wrap IsPage pageSize at *
      omega
    unfold Mmu.virtToPhys Mmu.resolve
    rw [halign.1, ht, Option.map_some, halign.2, Nat.add_sub_cancel' hle, wrap_of_lt hpa]

/-! ## What the calls must not do -/

/-- Some shadow entry other than that of `(root, v)` is for the same page of the same page table. -/
def Mmu.Twin (m : Mmu) (root v T page pa : Nat) : Prop :=
  m.shadowOf T page = some pa ∧ ¬ (T = root ∧ page = v) ∧ vpn page = vpn v ∧ m.Shares T root v

/-- A map request names frames that fit an entry, wraps around no more than once, and remaps no page that
another shadow entry has with another frame; an unmap request unmaps no page that another shadow entry
has. -/
structure StaleOk (m : Mmu) (call : Call) : Prop where
  map : ∀ m₀ j, m.job call = some (m₀, j) → j.n ≤ 2 ^ 36 ∧ ∀ k < j.n,
    m.frame (pageOf j.pa k) = pageOf j.pa k ∧
      ∀ T page pa, m.Twin j.root (pageOf j.start k) T page pa → pa = pageOf j.pa k
  unmap : ∀ root va size, call = .unmapVirt root va size → ∀ k < pages size, ∀ T page pa,
    ¬ m.Twin root (pageOf (pageAlign va) k) T page pa

/-! ## Shadow entries of the page operations -/

theorem updateSpace_shadowOf (m : Mmu) (v : Nat) (shadow : Option Nat)
    (hlive : (m.spaces root).isSome) (T page : Nat) :
    (m.updateSpace root fun s => { s with shadow := Function.update s.shadow v shadow }).shadowOf T page =
      if T = root ∧ page = v then shadow else m.shadowOf T page := by
  show (if T = root then (m.spaces T).map _ else m.spaces T).bind _ = _
  by_cases hT : T = root
  · obtain ⟨s, hs⟩ := Option.isSome_iff_exists.mp hlive
    rw [if_pos hT, hT, hs]
    show Function.update s.shadow v shadow page = _
    unfold Mmu.shadowOf
    rw [hs]
    by_cases hv : page = v
    · rw [hv, Function.update_self, if_pos ⟨rfl, rfl⟩]
    · rw [Function.update_of_ne hv, if_neg fun hh => hv hh.2]
      rfl
  · rw [if_neg hT, if_neg fun hh => hT hh.1]
    rfl

variable {m' : Mmu}

theorem mapPage_shadowOf (h : TreeInv m) {v pa : Nat} {prot : MemProt}
    (hroot : m.level root = 4) (hlive : (m.spaces root).isSome) (hv : IsPage v)
    (hm : m.mapPage root v pa prot = (m', true)) (T page : Nat) :
    m'.shadowOf T page = if T = root ∧ page = v then some pa else m.shadowOf T page := by
  obtain ⟨m₁, _, hp, -, ⟨-, he⟩ | ⟨pt, -, he⟩⟩ := mapPage_cases h v pa prot hroot
  · rw [he] at hm
    simp at hm
  · rw [he] at hm
    obtain ⟨rfl, -⟩ := Prod.mk.inj hm
    have hsp : m₁.spaces = m.spaces := hp.grow.spaces
    unfold Mmu.setPage
    rw [pageAlign_of_isPage hv, updateSpace_shadowOf _ v (some pa) (by rw [← hsp] at hlive; exact hlive)]
    have hsame : (m₁.writeEntry pt (ptIndex v) (leafEntry m₁ pa prot)).shadowOf T page =
        m.shadowOf T page := by
      show (m₁.spaces T).bind _ = (m.spaces T).bind _
      rw [hsp]
    rw [hsame]

theorem unmapPage_shadowOf (m : Mmu) {v : Nat} (hlive : (m.spaces root).isSome) (hv : IsPage v)
    (T page : Nat) : (m.unmapPage root v).shadowOf T page =
      if T = root ∧ page = v then none else m.shadowOf T page := by
  rw [unmapPage_eq, pageAlign_of_isPage hv]
  cases m.pageTable root v with
  | none => exact updateSpace_shadowOf m v none hlive T page
  | some pt => exact updateSpace_shadowOf _ v none hlive T page

theorem live_of_shadowOf {T page pa : Nat} (h : m.shadowOf T page = some pa) :
    (m.spaces T).isSome := by
  obtain ⟨s, hs, -⟩ := Option.bind_eq_some_iff.mp h
  rw [hs]
  rfl

theorem isPage_pageOf {start : Nat} (h : IsPage start) (k : Nat) : IsPage (pageOf start k) := by
  unfold IsPage pageOf wrap pageSize at *
  omega

theorem pageOf_lt (start k : Nat) : pageOf start k < 2 ^ 64 := Nat.mod_lt _ (by decide)

theorem vpn_pageOf_ne {start i k : Nat} (hik : i < k) (hk : k ≤ 2 ^ 36 - 1) :
    vpn (pageOf start i) ≠ vpn (pageOf start k) := by
  unfold vpn pageOf wrap pageSize
  omega

/-! ## Loops -/

variable {m₀ : Mmu}

/-- A twin that shares a page table after some steps shared it before them. -/
theorem Agree.twin (h₀ : TreeInv m₀) (hagree : Agree m₀) (hkept : Kept m₀ m')
    {v T page pa : Nat} (hroot : m₀.level root = 4) (hs : m₀.shadowOf T page = some pa)
    (hne : ¬ (T = root ∧ page = v)) (hv : vpn page = vpn v) (hshare : m'.Shares T root v) :
    m₀.Twin root v T page pa := by
  refine ⟨hs, hne, hv, ?_⟩
  rcases hshare with he | ⟨pt', hpt', hroot'⟩
  · exact Or.inl he
  · have hT := h₀.roots T (live_of_shadowOf hs)
    have ht := (hagree T page pa hs).2.2
    obtain ⟨pt, hpt⟩ := pageTable_of_translate (by rw [ht]; simp : m₀.translateVirt T page ≠ none)
    rw [pageTable_congr m₀ T (vpn_eq_iff.mp hv).1] at hpt
    obtain rfl : pt = pt' := Option.some.inj ((hkept.found T v pt hT hpt).symm.trans hpt')
    have hl := h₀.pageTable_level hT hpt
    exact Or.inr ⟨pt, hpt, hkept.back root v pt hroot (by omega) hroot'⟩

theorem Agree.mapRun (h₀ : TreeInv m₀) (hagree : Agree m₀) {j : MapJob}
    (hlive : (m₀.spaces j.root).isSome) (hstart : IsPage j.start) (hn : j.n ≤ 2 ^ 36)
    (hok : ∀ k < j.n, m₀.frame (pageOf j.pa k) = pageOf j.pa k ∧
      ∀ T page pa, m₀.Twin j.root (pageOf j.start k) T page pa → pa = pageOf j.pa k) :
    Agree (j.run m₀).1 ∧ Kept m₀ (j.run m₀).1 ∧ ∀ T page pa, (j.run m₀).1.shadowOf T page = some pa →
      m₀.shadowOf T page = some pa ∨ T = j.root ∧ ∃ i < j.n, page = pageOf j.start i := by
  have hroot := h₀.roots j.root hlive
  have hloop := mapLoop_induct (fun k m => Agree m ∧ Kept m₀ m ∧ ∀ T page pa,
      m.shadowOf T page = some pa → m₀.shadowOf T page = some pa ∨
        T = j.root ∧ ∃ i < k, page = pageOf j.start i) (fun _ => True) j.root j.start j.pa j.prot j.n
    ?_ ?_ j.n 0 m₀ (Nat.zero_add _) ⟨hagree, Kept.refl h₀, fun _ _ _ hs => Or.inl hs⟩
  · obtain ⟨⟨hag, hkept, hsub⟩, hdone⟩ := hloop
    refine ⟨hag, hkept, fun T page pa hs => ?_⟩
    have hle : (j.run m₀).2 ≤ j.n := hdone.elim Nat.le_of_eq fun hlt => hlt.1.le
    exact (hsub T page pa hs).imp id fun ⟨hT, i, hi, hp⟩ => ⟨hT, i, hi.trans_le hle, hp⟩
  · rintro k m m' hk ⟨hag, hkept, hsub⟩ hm
    have hr := hkept.level_root hroot
    have hlv : (m.spaces j.root).isSome := by
      rw [hkept.live]
      exact hlive
    have hw := mapPage_wrote hkept.tree hr hm
    have hsh := mapPage_shadowOf hkept.tree hr hlv (isPage_pageOf hstart k) hm
    have htarget : (leafEntry m (pageOf j.pa k) j.prot).target = some (pageOf j.pa k) := by
      rw [leafEntry_target, frame_of_format hkept.format, (hok k hk).1]
    refine ⟨fun T page pa hs => ?_, hkept.trans hw.kept, fun T page pa hs => ?_⟩
    · rw [hsh] at hs
      split at hs
      · rename_i hself
        obtain ⟨rfl, rfl⟩ := hself
        refine ⟨isPage_pageOf hstart k, pageOf_lt _ _, ?_⟩
        rw [translateVirt_eq, hw.hit _ _ hr (Or.inl rfl) rfl, htarget]
        exact hs
      · rename_i hself
        obtain ⟨hp, hlt, ht⟩ := hag T page pa hs
        refine ⟨hp, hlt, ?_⟩
        have hT := hkept.tree.roots T (live_of_shadowOf hs)
        by_cases hhit : m'.Shares T j.root (pageOf j.start k) ∧ vpn page = vpn (pageOf j.start k)
        · rw [translateVirt_eq, hw.hit T page hT hhit.1 hhit.2, htarget]
          rcases hsub T page pa hs with hs₀ | ⟨rfl, i, hi, rfl⟩
          · rw [(hok k hk).2 T page pa
              (hagree.twin h₀ (hkept.trans hw.kept) hroot hs₀ hself hhit.2 hhit.1)]
          · exact absurd hhit.2 (vpn_pageOf_ne hi (by omega))
        · rw [translateVirt_eq, hw.miss T page hT hhit, ← translateVirt_eq]
          exact ht
    · rw [hsh] at hs
      split at hs
      · rename_i hself
        exact Or.inr ⟨hself.1, k, by omega, hself.2⟩
      · exact (hsub T page pa hs).imp id fun ⟨hT, i, hi, hp⟩ => ⟨hT, i, by omega, hp⟩
  · rintro k m m' hk ⟨hag, hkept, hsub⟩ hm
    have hr := hkept.level_root hroot
    obtain ⟨hg, htree, -⟩ := mapPage_grow hkept.tree hr hm
    have hsh : ∀ T page, m'.shadowOf T page = m.shadowOf T page := by
      intro T page
      unfold Mmu.shadowOf
      rw [hg.spaces]
    refine ⟨⟨fun T page pa hs => ?_, hkept.trans (hg.kept hkept.tree htree), fun T page pa hs => ?_⟩, trivial⟩
    · rw [hsh] at hs
      obtain ⟨hp, hlt, ht⟩ := hag T page pa hs
      refine ⟨hp, hlt, ?_⟩
      rw [translateVirt_eq, hg.leaf_eq hkept.tree (hkept.tree.roots T (live_of_shadowOf hs)) htree,
        ← translateVirt_eq]
      exact ht
    · rw [hsh] at hs
      exact hsub T page pa hs

theorem Agree.unmapVirt (h₀ : TreeInv m₀) (hagree : Agree m₀) (va size : Nat) (hlive : (m₀.spaces root).isSome)
    (hok : ∀ k < pages size, ∀ T page pa, ¬ m₀.Twin root (pageOf (pageAlign va) k) T page pa) :
    Agree (m₀.unmapVirt root va size) ∧ Kept m₀ (m₀.unmapVirt root va size) := by
  have hroot := h₀.roots root hlive
  have hstart := isPage_pageAlign va
  suffices hloop : Agree (m₀.unmapVirt root va size) ∧ Kept m₀ (m₀.unmapVirt root va size) ∧
      ∀ T page pa, (m₀.unmapVirt root va size).shadowOf T page = some pa →
        m₀.shadowOf T page = some pa from ⟨hloop.1, hloop.2.1⟩
  refine unmapLoop_induct (fun _ m => Agree m ∧ Kept m₀ m ∧ ∀ T page pa,
      m.shadowOf T page = some pa → m₀.shadowOf T page = some pa) ?_ (pages size) 0 m₀
    (Nat.zero_add _) ⟨hagree, Kept.refl h₀, fun _ _ _ hs => hs⟩
  rintro k m hk ⟨hag, hkept, hsub⟩
  have hr := hkept.level_root hroot
  have hlv : (m.spaces root).isSome := by
    rw [hkept.live]
    exact hlive
  have hw := unmapPage_wrote hkept.tree (pageOf (pageAlign va) k) hr
  have hsh := unmapPage_shadowOf m hlv (isPage_pageOf hstart k)
  refine ⟨fun T page pa hs => ?_, hkept.trans hw.kept, fun T page pa hs => ?_⟩
  · rw [hsh] at hs
    split at hs
    · simp at hs
    · rename_i hself
      obtain ⟨hp, hlt, ht⟩ := hag T page pa hs
      refine ⟨hp, hlt, ?_⟩
      have hT := hkept.tree.roots T (live_of_shadowOf hs)
      rw [translateVirt_eq, hw.miss T page hT, ← translateVirt_eq]
      · exact ht
      · intro hhit
        exact hok k hk T page pa (hagree.twin h₀ (hkept.trans hw.kept) hroot (hsub T page pa hs) hself
          hhit.2 hhit.1)
  · rw [hsh] at hs
    split at hs
    · simp at hs
    · exact hsub T page pa hs

theorem Agree.protVirt (h₀ : TreeInv m₀) (hagree : Agree m₀) (va size : Nat)
    (prot : MemProt) (hlive : (m₀.spaces root).isSome) :
    Agree (m₀.protVirt root va size prot) ∧ Kept m₀ (m₀.protVirt root va size prot) := by
  refine protLoop_induct (fun _ m => Agree m ∧ Kept m₀ m) ?_ _ 0 m₀ (Nat.zero_add _)
    ⟨hagree, Kept.refl h₀⟩
  rintro k m hk ⟨hag, hkept⟩
  have hr := hkept.level_root (h₀.roots root hlive)
  have hw := protPage_wrote hkept.tree (pageOf (pageAlign va) k) prot hr
  have hsh : ∀ T page, (m.protPage root (pageOf (pageAlign va) k) prot).shadowOf T page =
      m.shadowOf T page := by
    intro T page
    rw [protPage_eq]
    cases m.pageTable root (pageOf (pageAlign va) k) with
    | none => rfl
    | some pt => rfl
  refine ⟨fun T page pa hs => ?_, hkept.trans hw.kept⟩
  rw [hsh] at hs
  obtain ⟨hp, hlt, ht⟩ := hag T page pa hs
  refine ⟨hp, hlt, ?_⟩
  rw [translateVirt_eq] at ht ⊢
  rcases protPage_leaf hkept.tree (pageOf (pageAlign va) k) prot hr
    (hkept.tree.roots T (live_of_shadowOf hs)) page with he | he
  · rw [he]
    exact ht
  · rw [he, reprotLeaf_target]
    exact ht

/-! ## Runs -/

structure ShadowInv (m : Mmu) : Prop where
  tree : TreeInv m
  agree : Agree m

theorem init_shadowInv (format : EntryFormat) : ShadowInv (Mmu.init format) :=
  ⟨init_treeInv format, nofun⟩

theorem Prelude.shadowOf (h : Prelude m m') (T page : Nat) :
    m'.shadowOf T page = m.shadowOf T page := by
  have hs := h.shadow T
  unfold Mmu.shadowOf
  cases hm : m.spaces T with
  | none =>
    rw [hm] at hs
    rw [Option.map_eq_none_iff.mp hs]
  | some t =>
    rw [hm] at hs
    obtain ⟨t', ht', he⟩ := Option.map_eq_some_iff.mp hs
    rw [ht', Option.bind_some, Option.bind_some, he]

theorem Prelude.agree (h : Prelude m m') (hagree : Agree m) : Agree m' := by
  intro T page pa hs
  rw [h.shadowOf] at hs
  obtain ⟨hp, hlt, ht⟩ := hagree T page pa hs
  refine ⟨hp, hlt, ?_⟩
  rw [translateVirt_eq, h.leaf, ← translateVirt_eq]
  exact ht

theorem Created.agree (hc : Created m root m') (h : TreeInv m) (hagree : Agree m) : Agree m' := by
  intro T page pa hs
  by_cases he : T = root
  · unfold Mmu.shadowOf at hs
    rw [hc.spaces, if_pos he] at hs
    simp at hs
  · have hs' : m.shadowOf T page = some pa := by
      unfold Mmu.shadowOf at hs ⊢
      rw [hc.spaces, if_neg he] at hs
      exact hs
    obtain ⟨hp, hlt, ht⟩ := hagree T page pa hs'
    refine ⟨hp, hlt, ?_⟩
    rw [translateVirt_eq, hc.leaf h (h.roots T (live_of_shadowOf hs')), ← translateVirt_eq]
    exact ht

theorem job_start {call : Call} {j : MapJob} (hj : m.job call = some (m₀, j)) :
    IsPage j.start := by
  cases call with
  | mapVirt root va size prot =>
    simp only [Mmu.job, Mmu.virtJob] at hj
    obtain ⟨r, -, he⟩ := Option.map_eq_some_iff.mp hj
    obtain ⟨-, rfl⟩ := Prod.mk.inj he
    exact isPage_pageAlign va
  | mapVirtPhys root va pa size prot =>
    obtain ⟨-, rfl⟩ := Prod.mk.inj (Option.some.inj hj)
    exact isPage_pageAlign va
  | alloc root size prot =>
    obtain ⟨sp, -, hj⟩ := Option.bind_eq_some_iff.mp hj
    obtain ⟨r, -, he⟩ := Option.map_eq_some_iff.mp hj
    obtain ⟨-, rfl⟩ := Prod.mk.inj he
    exact isPage_pageAlign _
  | mapPhys root pa size prot =>
    obtain ⟨sp, -, he⟩ := Option.map_eq_some_iff.mp hj
    obtain ⟨-, rfl⟩ := Prod.mk.inj he
    exact isPage_pageAlign _
  | createAddrSpace => simp [Mmu.job] at hj
  | allocPhys size => simp [Mmu.job] at hj
  | unmapVirt root va size => simp [Mmu.job] at hj
  | protVirt root va size prot => simp [Mmu.job] at hj

theorem step_shadowInv {call : Call} (h : ShadowInv m) (hok : StaleOk m call)
    (hstep : step m call = some m') : ShadowInv m' := by
  rcases step_did h.tree.phys hstep with ⟨hp, -, -, -, -, -⟩ | ⟨root, -, hc⟩ | ⟨m₀, j, hj, hlive, rfl⟩ |
    ⟨root, va, size, rfl, hlive, rfl⟩ | ⟨root, va, size, prot, -, hlive, rfl⟩
  · exact ⟨hp.treeInv h.tree, hp.agree h.agree⟩
  · have hcr := createAddrSpace_spec h.tree hc
    exact ⟨hcr.tree, hcr.agree h.tree h.agree⟩
  · obtain ⟨hp, -, -, -⟩ := job_spec h.tree.phys hj
    obtain ⟨hn, hpages⟩ := hok.map m₀ j hj
    have hpages₀ : ∀ k < j.n, m₀.frame (pageOf j.pa k) = pageOf j.pa k ∧
        ∀ T page pa, m₀.Twin j.root (pageOf j.start k) T page pa → pa = pageOf j.pa k := by
      intro k hk
      obtain ⟨hframe, htwin⟩ := hpages k hk
      refine ⟨by rw [frame_of_format hp.format]; exact hframe, fun T page pa ht => htwin T page pa ?_⟩
      obtain ⟨h1, h2, h3, h4⟩ := ht
      exact ⟨by rw [← hp.shadowOf]; exact h1, h2, h3, (hp.shares T j.root _).mp h4⟩
    have hlive₀ : (m₀.spaces j.root).isSome := by
      rw [hp.live]
      exact hlive
    obtain ⟨hagree, hkept, -⟩ := (hp.agree h.agree).mapRun (hp.treeInv h.tree) hlive₀ (job_start hj) hn hpages₀
    exact ⟨hkept.tree, hagree⟩
  · obtain ⟨hagree, hkept⟩ := h.agree.unmapVirt h.tree va size hlive (hok.unmap root va size rfl)
    exact ⟨hkept.tree, hagree⟩
  · obtain ⟨hagree, hkept⟩ := h.agree.protVirt h.tree va size prot hlive
    exact ⟨hkept.tree, hagree⟩

/-- **No stale translation** in every run whose calls leave no shadow entry behind. -/
theorem no_stale_translation {format : EntryFormat} {calls : List Call} {m : Mmu}
    (hrun : Run.Steps step StaleOk (Mmu.init format) calls m) : NoStale m :=
  (hrun.invariant (fun _ _ _ h hok hstep => step_shadowInv h hok hstep)
    (init_shadowInv format)).agree.noStale

def onePage : List Call :=
  [.createAddrSpace, .mapVirt 0x100000000 0x400000 0x1000 protRw]

theorem onePage_noStale : ∃ m, Run.Steps step StaleOk (Mmu.init pfn36) onePage m ∧
    m.virtToPhys 0x100000000 0x400010 = some 0x100001010 ∧
    m.copyVirt 0x100000000 0x400FF0 0x20 = none := by
  have hexec : ((step (Mmu.init pfn36) .createAddrSpace).bind fun m₁ =>
      (step m₁ (.mapVirt 0x100000000 0x400000 0x1000 protRw)).map fun m =>
        ((m.spaces 0x100000000).isSome, m.virtToPhys 0x100000000 0x400010,
          m.translateVirt 0x100000000 (pageAlign (wrap (0x400FF0 + 0x10))),
          (m₁.job (.mapVirt 0x100000000 0x400000 0x1000 protRw)).all fun r =>
            r.2.n == 1 && m₁.frame (pageOf r.2.pa 0) == pageOf r.2.pa 0)) =
      some (true, some 0x100001010, none, true) := by decide +kernel
  obtain ⟨m₁, h₁, hexec⟩ := Option.bind_eq_some_iff.mp hexec
  obtain ⟨m, h₂, hval⟩ := Option.map_eq_some_iff.mp hexec
  simp only [Prod.mk.injEq] at hval
  obtain ⟨hlive, hphys, hwalk, hjob⟩ := hval
  have hok₁ : StaleOk (Mmu.init pfn36) .createAddrSpace :=
    ⟨fun _ _ hj => by simp [Mmu.job] at hj, by simp⟩
  have hshadow : ∀ T page, m₁.shadowOf T page = none := by
    intro T page
    unfold Mmu.shadowOf
    cases ht : m₁.spaces T with
    | none => rfl
    | some t =>
      rw [(first_space h₁ ht).2]
      rfl
  have hok₂ : StaleOk m₁ (.mapVirt 0x100000000 0x400000 0x1000 protRw) := by
    refine ⟨fun m₀ j hj => ?_, by simp⟩
    rw [hj] at hjob
    simp only [Option.all_some, Bool.and_eq_true, beq_iff_eq] at hjob
    refine ⟨by omega, fun k hk => ?_⟩
    obtain rfl : k = 0 := by omega
    refine ⟨hjob.2, fun T page pa ht => ?_⟩
    rw [Mmu.Twin, hshadow] at ht
    simp at ht
  have hrun : Run.Steps step StaleOk (Mmu.init pfn36) onePage m :=
    .cons hok₁ h₁ (.cons hok₂ h₂ (.nil _))
  exact ⟨m, hrun, hphys,
    (no_stale_translation hrun).copy _ _ _ 0x10 hlive (by decide) (by decide) hwalk⟩

/-- A kernel page mapped through one space and unmapped through another. -/
def unmapElsewhere : List Call :=
  [.createAddrSpace, .alloc 0x100000000 0x1000 { protRw with supervisor := true }, .createAddrSpace,
    .unmapVirt 0x100005000 0xFFFFF80000000000 0x1000]

theorem unmapElsewhere_stale :
    ¬ ∀ format calls m, Run.Steps step (fun _ _ => True) (Mmu.init format) calls m → NoStale m := by
  intro hall
  have hexec : ((Run.exec step (fun _ _ => true) (Mmu.init pfn36) unmapElsewhere).map fun m =>
      ((m.spaces 0x100000000).isSome, m.translateVirt 0x100000000 0xFFFFF80000000000,
        m.virtToPhys 0x100000000 0xFFFFF80000000000)) = some (true, none, some 0x100001000) := by
    decide +kernel
  obtain ⟨m, hm, hval⟩ := Option.map_eq_some_iff.mp hexec
  simp only [Prod.mk.injEq] at hval
  obtain ⟨hlive, hwalk, hphys⟩ := hval
  have hstale := (hall pfn36 unmapElsewhere m (.of_exec (fun _ _ _ => trivial) hm)).translate 0x100000000
    0xFFFFF80000000000 hlive hwalk
  rw [hphys] at hstale
  simp at hstale

end Kernemul.X86
