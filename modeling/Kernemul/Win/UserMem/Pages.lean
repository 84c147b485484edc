import Kernemul.Win.UserMem.Vad

/-!
# What a call does to one page

Every operation on the address space does one of five things to each page (`Act`), and `Effects` says
so for all pages at once. Each helper of the manager has a lemma that names its acts; operations on
disjoint pages compose (`Effects.trans`).
-/

namespace Kernemul.UserMem

open Segments

inductive Act
  | keep
  | map (prot : MemProt)
  | evict
  | release
  | reprot (prot : MemProt)
  deriving DecidableEq

/-- The act done to page `p` between two address spaces. A mapped page gets the frame kept for it, or
one handed out in between. -/
def Effect (m m' : Pages) (p : Nat) : Act → Prop
  | .keep => m'.pte p = m.pte p ∧ m'.backing.lookup p = m.backing.lookup p
  | .map prot => m'.backing.lookup p = none ∧ ∃ frame, m'.pte p = some ⟨frame, prot.write, prot.exec⟩ ∧
      (m.backing.lookup p = some frame ∨
        m.backing.lookup p = none ∧ m.physNext ≤ frame ∧ frame < m'.physNext)
  | .evict => m'.pte p = none ∧
      m'.backing.lookup p = ((m.pte p).map Pte.frame).or (m.backing.lookup p)
  | .release => m'.pte p = none ∧ m'.backing.lookup p = none
  | .reprot prot => m'.pte p = (m.pte p).map (fun e => ⟨e.frame, prot.write, prot.exec⟩) ∧
      m'.backing.lookup p = m.backing.lookup p

structure Effects (a : Nat → Act) (m m' : Pages) : Prop where
  phys : m.physNext ≤ m'.physNext
  page : ∀ p, IsPage p → Effect m m' p (a p)

theorem Effects.refl (m : Pages) : Effects (fun _ => .keep) m m := ⟨le_rfl, fun _ _ => ⟨rfl, rfl⟩⟩

variable {m : Pages}

theorem Effects.congr {a b : Nat → Act} {m' : Pages} (h : Effects a m m')
    (hab : ∀ p, IsPage p → b p = a p) : Effects b m m' :=
  ⟨h.phys, fun p hp => by rw [hab p hp]; exact h.page p hp⟩

/-- One operation after another that leaves alone what the first one touched. -/
theorem Effects.trans {a b : Nat → Act} {m₁ m₂ : Pages} (ha : Effects a m m₁)
    (hb : Effects b m₁ m₂) (hdis : ∀ p, IsPage p → a p = .keep ∨ b p = .keep) :
    Effects (fun p => if a p = .keep then b p else a p) m m₂ := by
  refine ⟨ha.phys.trans hb.phys, fun p hp => ?_⟩
  have h1 := ha.page p hp
  have h2 := hb.page p hp
  have hm := ha.phys
  have hm' := hb.phys
  by_cases hk : a p = .keep
  · rw [if_pos hk]
    rw [hk] at h1
    obtain ⟨hpte, hback⟩ := h1
    -- the second operation finds the page as the first one found it
    cases hb' : b p with
    | keep =>
      rw [hb'] at h2
      exact ⟨h2.1.trans hpte, h2.2.trans hback⟩
    | map prot =>
      rw [hb'] at h2
      obtain ⟨h3, frame, h4, h5⟩ := h2
      rw [hback] at h5
      refine ⟨h3, frame, h4, ?_⟩
      rcases h5 with h5 | ⟨h5, h6, h7⟩
      · exact Or.inl h5
      · exact Or.inr ⟨h5, by omega, h7⟩
    | evict =>
      rw [hb'] at h2
      rw [Effect, hpte, hback] at h2
      exact h2
    | release =>
      rw [hb'] at h2
      exact h2
    | reprot prot =>
      rw [hb'] at h2
      rw [Effect, hpte, hback] at h2
      exact h2
  · rw [if_neg hk]
    have hbk : b p = .keep := (hdis p hp).resolve_left hk
    rw [hbk] at h2
    obtain ⟨hpte, hback⟩ := h2
    cases ha' : a p with
    | keep => exact absurd ha' hk
    | map prot =>
      rw [ha'] at h1
      obtain ⟨h3, frame, h4, h5⟩ := h1
      refine ⟨hback.trans h3, frame, hpte.trans h4, ?_⟩
      rcases h5 with h5 | ⟨h5, h6, h7⟩
      · exact Or.inl h5
      · exact Or.inr ⟨h5, h6, by omega⟩
    | evict =>
      rw [ha'] at h1
      exact ⟨hpte.trans h1.1, hback.trans h1.2⟩
    | release =>
      rw [ha'] at h1
      exact ⟨hpte.trans h1.1, hback.trans h1.2⟩
    | reprot prot =>
      rw [ha'] at h1
      exact ⟨hpte.trans h1.1, hback.trans h1.2⟩

/-- The same act on every page of `[lo, hi)`. -/
def onRange (lo hi : Nat) (act : Act) (p : Nat) : Act := if lo ≤ p ∧ p < hi then act else .keep

theorem Effects.append {a b : Nat → Act} {m₁ m₂ : Pages} (ha : Effects a m m₁)
    (hb : Effects b m₁ m₂) (mid : Nat) (ha' : ∀ p, mid ≤ p → a p = .keep) (hb' : ∀ p, p < mid → b p = .keep) :
    Effects (fun p => if p < mid then a p else b p) m m₂ := by
  refine (ha.trans hb fun p _ => ?_).congr fun p _ => ?_
  · by_cases hp : p < mid
    · exact Or.inr (hb' p hp)
    · exact Or.inl (ha' p (by omega))
  · by_cases hp : p < mid
    · rw [if_pos hp]
      by_cases hk : a p = .keep
      · rw [if_pos hk, hk, hb' p hp]
      · rw [if_neg hk]
    · rw [if_neg hp, if_pos (ha' p (by omega))]

theorem Effects.range_append {lo mid hi : Nat} {act : Act} {m₁ m₂ : Pages}
    (ha : Effects (onRange lo mid act) m m₁) (hb : Effects (onRange mid hi act) m₁ m₂)
    (h1 : lo ≤ mid) (h2 : mid ≤ hi) : Effects (onRange lo hi act) m m₂ := by
  refine (ha.append hb mid (fun p hp => ?_) fun p hp => ?_).congr fun p _ => ?_
  · rw [onRange, if_neg (by omega)]
  · rw [onRange, if_neg (by omega)]
  · unfold onRange
    by_cases hp : p < mid
    · rw [if_pos hp]
      by_cases hlo : lo ≤ p
      · rw [if_pos (by omega), if_pos (by omega)]
      · rw [if_neg (by omega), if_neg (by omega)]
    · rw [if_neg hp]
      by_cases hhi : p < hi
      · rw [if_pos (by omega), if_pos (by omega)]
      · rw [if_neg (by omega), if_neg (by omega)]

/-! ## The manager's helpers -/

variable {size : Nat}

theorem onPages_iff {va p : Nat} (hp : IsPage p) : OnPages va size p ↔ va ≤ p ∧ p < va + size := by
  unfold OnPages
  tauto

theorem effects_mapVirt (m : Pages) (va size : Nat) (prot : MemProt)
    (hfree : ∀ p, IsPage p → va ≤ p → p < va + size → m.backing.lookup p = none) :
    Effects (onRange va (va + size) (.map prot)) m (m.mapVirt va size prot) := by
  refine ⟨Nat.le_add_right _ _, fun p hp => ?_⟩
  unfold onRange
  split
  · rename_i hin
    have hnone := hfree p hp hin.1 hin.2
    refine ⟨hnone, m.physNext + (p - va), ?_, Or.inr ⟨hnone, by omega, ?_⟩⟩
    · simp only [Pages.mapVirt]
      rw [if_pos ((onPages_iff hp).mpr hin)]
    · simp only [Pages.mapVirt]
      omega
  · rename_i hout
    refine ⟨?_, rfl⟩
    simp only [Pages.mapVirt]
    rw [if_neg fun h => hout ((onPages_iff hp).mp h)]

theorem effects_mapVirtPhys {page pa : Nat} (hpage : IsPage page) (prot : MemProt)
    (hpa : m.backing.lookup page = some pa) :
    Effects (onRange page (page + pageSize) (.map prot)) m
      { m.mapVirtPhys page pa pageSize prot with backing := m.backing.erase page } := by
  refine ⟨le_rfl, fun p hp => ?_⟩
  unfold onRange
  split
  · rename_i hin
    obtain rfl : p = page := hp.eq_of_within hpage hin.1 hin.2
    refine ⟨AList.lookup_erase _ _, pa, ?_, Or.inl hpa⟩
    simp only [Pages.mapVirtPhys]
    rw [if_pos ((onPages_iff hp).mpr hin), Nat.sub_self, Nat.add_zero]
  · rename_i hout
    have hne : p ≠ page := by
      unfold pageSize at hout
      omega
    refine ⟨?_, AList.lookup_erase_ne hne⟩
    simp only [Pages.mapVirtPhys]
    rw [if_neg fun h => hout ((onPages_iff hp).mp h)]

theorem effects_mapEach (prot : MemProt) : ∀ (n page : Nat) (m : Pages), IsPage page →
    Effects (onRange page (page + n * pageSize) (.map prot)) m (m.mapEach prot n page) := by
  intro n
  induction n with
  | zero =>
    intro page m _
    refine (Effects.refl m).congr fun p _ => ?_
    rw [onRange, if_neg (by omega)]
  | succ n ih =>
    intro page m hpage
    have hnext : page + (n + 1) * pageSize = page + pageSize + n * pageSize := by
      rw [Nat.succ_mul]
      omega
    rw [Pages.mapEach, hnext]
    cases hback : m.backing.lookup page with
    | none =>
      have hone := effects_mapVirt m page pageSize prot fun p hp h1 h2 => by
        rwa [hp.eq_of_within hpage h1 h2]
      exact hone.range_append (ih _ _ (hpage.add isPage_pageSize)) (Nat.le_add_right _ _)
        (Nat.le_add_right _ _)
    | some pa =>
      exact (effects_mapVirtPhys hpage prot hback).range_append (ih _ _ (hpage.add isPage_pageSize))
        (Nat.le_add_right _ _) (Nat.le_add_right _ _)

theorem pageCount_mul (h : IsPage size) : pageCount size * pageSize = size := by
  unfold IsPage pageCount pageSize at *
  omega

variable {base : Nat}

theorem effects_mapPages (m : Pages) (hb : IsPage base) (hs : IsPage size) (prot : Prot) :
    Effects (onRange base (base + size) (.map (toMemProt prot))) m (m.mapPages base size prot) := by
  unfold Pages.mapPages
  simp only
  split
  · have := effects_mapEach (toMemProt prot) (pageCount size) base m hb
    rwa [pageCount_mul hs] at this
  · rename_i hany
    refine effects_mapVirt m base size _ fun p _ h1 h2 => ?_
    rw [AList.lookup_eq_none]
    intro hmem
    exact hany (List.any_eq_true.mpr ⟨p, AList.mem_keys.mp hmem, by simpa using ⟨h1, h2⟩⟩)

/-- Pages of a range keep the frames that `g` says, by their entries and the frames they kept, and nothing else
changes. -/
def Rekept (g : Option Pte → Option Nat → Option Nat) (lo hi : Nat) (m m' : Pages) : Prop :=
  m'.pte = m.pte ∧ m'.physNext = m.physNext ∧ ∀ p, IsPage p → m'.backing.lookup p =
    if lo ≤ p ∧ p < hi then g (m.pte p) (m.backing.lookup p) else m.backing.lookup p

theorem rekept_loop {g : Option Pte → Option Nat → Option Nat} {visit : Nat → Pages → Pages}
    {loop : Nat → Nat → Pages → Pages} (hzero : ∀ page m, loop 0 page m = m)
    (hsucc : ∀ n page m, loop (n + 1) page m = loop n (page + pageSize) (visit page m))
    (hvisit : ∀ page m, (visit page m).pte = m.pte ∧ (visit page m).physNext = m.physNext ∧
      ∀ p, (visit page m).backing.lookup p =
        if p = page then g (m.pte p) (m.backing.lookup p) else m.backing.lookup p)
    (n page : Nat) (m : Pages) (hpage : IsPage page) :
    Rekept g page (page + n * pageSize) m (loop n page m) := by
  induction n generalizing page m with
  | zero =>
    rw [hzero]
    refine ⟨rfl, rfl, fun p _ => ?_⟩
    rw [if_neg (by omega)]
  | succ n ih =>
    have hnext : page + (n + 1) * pageSize = page + pageSize + n * pageSize := by
      rw [Nat.succ_mul]
      omega
    rw [hsucc, hnext]
    obtain ⟨h1, h2, h3⟩ := hvisit page m
    obtain ⟨h4, h5, h6⟩ := ih (page + pageSize) (visit page m) (hpage.add isPage_pageSize)
    refine ⟨h4.trans h1, h5.trans h2, fun p hp => ?_⟩
    rw [h6 p hp, h3 p, h1]
    by_cases heq : p = page
    · subst heq
      have hpos : 0 < pageSize := by decide
      rw [if_neg (by omega), if_pos rfl, if_pos (by omega)]
    · rw [if_neg heq]
      by_cases hin : page + pageSize ≤ p ∧ p < page + pageSize + n * pageSize
      · rw [if_pos hin, if_pos (by omega)]
      · rw [if_neg hin, if_neg]
        intro hcon
        exact heq (hp.eq_of_within hpage hcon.1 (by omega))

/-- The frames of a range are written down or forgotten, and then it is unmapped. -/
theorem Rekept.effects {g : Option Pte → Option Nat → Option Nat} {act : Act} {m' : Pages}
    (h : Rekept g base (base + pageCount size * pageSize) m m') (hs : IsPage size)
    (hact : ∀ m₁ p, m₁.pte p = none → m₁.backing.lookup p = g (m.pte p) (m.backing.lookup p) →
      Effect m m₁ p act) :
    Effects (onRange base (base + size) act) m (m'.unmapVirt base size) := by
  obtain ⟨h1, h2, h3⟩ := h
  rw [pageCount_mul hs] at h3
  refine ⟨h2.ge, fun p hp => ?_⟩
  have h3 := h3 p hp
  unfold onRange
  split
  · rename_i hin
    rw [if_pos hin] at h3
    refine hact _ p ?_ h3
    simp only [Pages.unmapVirt]
    rw [if_pos ((onPages_iff hp).mpr hin)]
  · rename_i hout
    rw [if_neg hout] at h3
    refine ⟨?_, h3⟩
    simp only [Pages.unmapVirt]
    rw [if_neg fun h => hout ((onPages_iff hp).mp h), h1]

theorem keepPage_spec (page : Nat) (m : Pages) :
    (m.keepPage page).pte = m.pte ∧ (m.keepPage page).physNext = m.physNext ∧
    ∀ p, (m.keepPage page).backing.lookup p =
      if p = page then ((m.pte p).map Pte.frame).or (m.backing.lookup p)
      else m.backing.lookup p := by
  unfold Pages.keepPage Pages.virtToPhys
  cases hpte : m.pte page with
  | none =>
    refine ⟨rfl, rfl, fun p => ?_⟩
    by_cases hp : p = page
    · rw [if_pos hp, hp, hpte]
      rfl
    · rw [if_neg hp]
      rfl
  | some e =>
    refine ⟨rfl, rfl, fun p => ?_⟩
    by_cases hp : p = page
    · rw [if_pos hp, hp, hpte]
      exact AList.lookup_insert _
    · rw [if_neg hp]
      exact AList.lookup_insert_ne hp

/-- The loop of `evict_pages` writes down the frame of every mapped page it visits. -/
theorem effects_evictPages (m : Pages) (hb : IsPage base) (hs : IsPage size) :
    Effects (onRange base (base + size) .evict) m (m.evictPages base size) := by
  have hkept := @rekept_loop (fun e kept => (e.map Pte.frame).or kept) (fun page m => m.keepPage page)
    Pages.keepEach (fun _ _ => rfl) (fun _ _ _ => rfl) keepPage_spec (pageCount size) base m hb
  exact hkept.effects hs fun _ _ hpte hback => ⟨hpte, hback⟩

theorem effects_releasePages (m : Pages) (hb : IsPage base) (hs : IsPage size) :
    Effects (onRange base (base + size) .release) m (m.releasePages base size) := by
  have hforget : ∀ page (m : Pages) p, (m.backing.erase page).lookup p =
      if p = page then none else m.backing.lookup p := by
    intro page m p
    by_cases hp : p = page
    · rw [if_pos hp, hp]
      exact AList.lookup_erase _ _
    · rw [if_neg hp]
      exact AList.lookup_erase_ne hp
  have hkept := @rekept_loop (fun _ _ => none) (fun page m => { m with backing := m.backing.erase page })
    Pages.dropEach (fun _ _ => rfl) (fun _ _ _ => rfl) (fun page m => ⟨rfl, rfl, hforget page m⟩) (pageCount size)
    base m hb
  exact hkept.effects hs fun _ _ hpte hback => ⟨hpte, hback⟩

theorem effects_protVirt (m : Pages) (va size : Nat) (prot : MemProt) :
    Effects (onRange va (va + size) (.reprot prot)) m (m.protVirt va size prot) := by
  refine ⟨le_rfl, fun p hp => ?_⟩
  unfold onRange
  split
  · rename_i hin
    refine ⟨?_, rfl⟩
    simp only [Pages.protVirt]
    rw [if_pos ((onPages_iff hp).mpr hin)]
  · rename_i hout
    refine ⟨?_, rfl⟩
    simp only [Pages.protVirt]
    rw [if_neg fun h => hout ((onPages_iff hp).mp h)]

def commitAct (prot : Prot) : Act := if isResident prot then .map (toMemProt prot) else .keep

def applyAct (oldProt newProt : Prot) : Act :=
  if isResident oldProt && !isResident newProt then .evict
  else if !isResident oldProt && isResident newProt then .map (toMemProt newProt)
  else if isResident newProt then .reprot (toMemProt newProt)
  else .keep

theorem onRange_keep (lo hi : Nat) : onRange lo hi .keep = fun _ => .keep := by
  funext p
  unfold onRange
  split <;> rfl

theorem effects_commitPages (m : Pages) (hb : IsPage base) (hs : IsPage size) (prot : Prot) :
    Effects (onRange base (base + size) (commitAct prot)) m (m.commitPages base size prot) := by
  unfold Pages.commitPages commitAct
  split
  · exact effects_mapPages m hb hs prot
  · rw [onRange_keep]
    exact Effects.refl m

theorem effects_applyProt (m : Pages) (hb : IsPage base) (hs : IsPage size) (oldProt newProt : Prot) :
    Effects (onRange base (base + size) (applyAct oldProt newProt)) m
      (m.applyProt base size oldProt newProt) := by
  unfold Pages.applyProt applyAct
  simp only
  split
  · exact effects_evictPages m hb hs
  · split
    · exact effects_mapPages m hb hs newProt
    · split
      · exact effects_protVirt m base size _
      · rw [onRange_keep]
        exact Effects.refl m

/-! ## Lists of regions -/

/-- What an operation that treats every committed region in turn does to a page. -/
def regionAct (act : Prot → Act) (c : Committed) (p : Nat) : Act :=
  match valAt c p with
  | some prot => act prot
  | none => .keep

theorem effects_foldl (f : Pages → Seg Prot → Pages) (act : Prot → Act)
    (hf : ∀ m (it : Seg Prot), IsPage it.base → IsPage it.size →
      Effects (onRange it.base it.stop (act it.val)) m (f m it)) {lo hi : Nat} :
    ∀ (c : Committed) (m : Pages), CommittedIn lo hi c →
      Effects (regionAct act c) m (c.foldl f m) := by
  intro c
  induction c generalizing lo with
  | nil =>
    intro m _
    exact Effects.refl m
  | cons it rest ih =>
    intro m hc
    obtain ⟨hpos, hit, hrest⟩ := valid_cons.mp hc.valid
    obtain ⟨hb, hs⟩ := hc.aligned it (by simp)
    have hsize : IsPage it.size := by
      have := hs.sub hb
      rwa [Seg.stop, Nat.add_sub_cancel_left] at this
    have hin : CommittedIn it.stop hi rest :=
      ⟨hrest, fun r hr => hc.aligned r (by simp [hr]),
        fun r hr => ⟨hit r hr, (hc.within r (by simp [hr])).2⟩⟩
    have hout : ∀ p, p < it.stop → valAt rest p = none := fun p hp =>
      (valAt_eq_none hrest).mpr fun r hr hrp => by
        have := hit r hr
        have := hrp.1
        omega
    refine ((hf m it hb hsize).append (ih (f m it) hin) it.stop (fun p hp => ?_) fun p hp => ?_).congr
      fun p _ => ?_
    · rw [onRange, if_neg (by omega)]
    · rw [regionAct, hout p hp]
    · rw [regionAct, valAt_cons hc.valid]
      by_cases hp : p < it.stop
      · rw [if_pos hp, onRange, hout p hp]
        by_cases hlo : it.base ≤ p
        · rw [if_pos ⟨hlo, hp⟩, if_pos ⟨hlo, hp⟩]
        · rw [if_neg fun h => hlo h.1, if_neg fun h => hlo h.1]
      · rw [if_neg hp, if_neg fun h => hp h.2]
        rfl

theorem effects_releaseAll (m : Pages) {lo hi : Nat} {c : Committed} (hc : CommittedIn lo hi c) :
    Effects (regionAct (fun _ => .release) c) m (releaseAll m c) :=
  effects_foldl _ (fun _ => .release) (fun m _ hb hs => effects_releasePages m hb hs) c m hc

theorem effects_protectAll (m : Pages) (newProt : Prot) {lo hi : Nat} {c : Committed}
    (hc : CommittedIn lo hi c) :
    Effects (regionAct (fun old => applyAct old newProt) c) m (protectAll m newProt c) :=
  effects_foldl _ (fun old => applyAct old newProt) (fun m it hb hs => effects_applyProt m hb hs it.val newProt) c m hc

/-- What `commit_into` does to a page of its range: the committed ones change protection, the gaps
are committed. -/
def recommitAct (prot : Prot) : Option Prot → Act
  | some old => applyAct old prot
  | none => commitAct prot

theorem effects_commitLoop (prot : Prot) {stop : Nat} (hstop : IsPage stop) :
    ∀ (w : Committed) (cursor : Nat) (m : Pages), IsPage cursor → cursor ≤ stop →
      CommittedIn cursor stop w →
      Effects (fun p => if cursor ≤ p ∧ p < stop then recommitAct prot (valAt w p) else .keep) m
        (commitLoop prot stop w cursor m).2 := by
  intro w
  induction w with
  | nil =>
    intro cursor m hc hle _
    rw [commitLoop]
    split
    · have := effects_commitPages m hc (hstop.sub hc) prot
      rw [Nat.add_sub_cancel' hle] at this
      exact this
    · refine (Effects.refl m).congr fun p _ => ?_
      rw [if_neg (by omega)]
  | cons it rest ih =>
    intro cursor m hc hle hw
    obtain ⟨hpos, hit, hrest⟩ := valid_cons.mp hw.valid
    obtain ⟨hb, hs⟩ := hw.aligned it (by simp)
    obtain ⟨hlo, hhi⟩ := hw.within it (by simp)
    have hsize : IsPage it.size := by
      have := hs.sub hb
      rwa [Seg.stop, Nat.add_sub_cancel_left] at this
    have hin : CommittedIn it.stop stop rest :=
      ⟨hrest, fun r hr => hw.aligned r (by simp [hr]),
        fun r hr => ⟨hit r hr, (hw.within r (by simp [hr])).2⟩⟩
    have hbs : it.base < it.stop := hw.valid.base_lt_stop (by simp)
    have hout : ∀ p, p < it.stop → valAt rest p = none := fun p hp =>
      (valAt_eq_none hrest).mpr fun r hr hrp => by
        have := hit r hr
        have := hrp.1
        omega
    rw [commitLoop]
    simp only
    generalize hm₁ : (if cursor < it.base then m.commitPages cursor (it.base - cursor) prot else m) = m₁
    have hgap : Effects (onRange cursor it.base (commitAct prot)) m m₁ := by
      rw [← hm₁]
      split
      · have := effects_commitPages m hc (hb.sub hc) prot
        rwa [Nat.add_sub_cancel' hlo] at this
      · refine (Effects.refl m).congr fun p _ => ?_
        rw [onRange, if_neg (by omega)]
    have hmid := effects_applyProt m₁ hb hsize it.val prot
    have htail := ih it.stop (m₁.applyProt it.base it.size it.val prot) hs hhi hin
    -- the gap below the region, the region, and the rest
    refine ((hgap.append hmid it.base (fun p hp => ?_) fun p hp => ?_).append htail it.stop
      (fun p hp => ?_) fun p hp => ?_).congr fun p _ => ?_
    · rw [onRange, if_neg (by omega)]
    · rw [onRange, if_neg (by omega)]
    · rw [if_neg (by omega), onRange, if_neg]
      unfold Seg.stop at hp
      omega
    · rw [if_neg (by omega)]
    · by_cases h1 : p < it.base
      · have hv : valAt (it :: rest) p = none := by
          rw [valAt_cons hw.valid, if_neg fun h => absurd h.1 (by omega), hout p (by omega)]
        rw [hv, if_pos (show p < it.stop by omega), if_pos h1, onRange]
        by_cases h2 : cursor ≤ p
        · rw [if_pos ⟨h2, by omega⟩, if_pos ⟨h2, h1⟩]
          rfl
        · rw [if_neg fun h => h2 h.1, if_neg fun h => h2 h.1]
      · by_cases h2 : p < it.stop
        · have hv : valAt (it :: rest) p = some it.val := by
            rw [valAt_cons hw.valid, if_pos ⟨by omega, h2⟩]
          rw [hv, if_pos h2, if_neg h1, onRange, if_pos ⟨by omega, by omega⟩, if_pos ⟨by omega, h2⟩]
          rfl
        · have hv : valAt (it :: rest) p = valAt rest p := by
            rw [valAt_cons hw.valid, if_neg fun h => h2 h.2]
          rw [hv, if_neg h2]
          by_cases h3 : p < stop
          · rw [if_pos ⟨by omega, h3⟩, if_pos ⟨by omega, h3⟩]
          · rw [if_neg fun h => h3 h.2, if_neg fun h => h3 h.2]

end Kernemul.UserMem
