import Kernemul.Emu.Defs
import Kernemul.Lib.Loop
import Mathlib.Data.List.Chain
import Mathlib.Order.Nat

/-!
# The physical memory behind a range (`x86_whp_emu::phys_runs`)

The backend hooks physical memory, so a range of virtual addresses is taken apart page by page, and pages that are one
behind the other in physical memory are taken together. The last address of the range belongs to it.
-/

namespace Kernemul.PhysRuns

/-- What the mmu says of the pages of each space (`virt_to_phys`). The last frame of 64 bits is out of reach. -/
structure Pages (S : Type) where
  virtToPhys : S → Nat → Option Nat
  bounded : ∀ {s page pa}, virtToPhys s page = some pa → pa + pageSize < 2 ^ 64

structure PhysRun where
  begin : Nat
  stop : Nat
  deriving DecidableEq, Repr

def PhysRun.bytes (r : PhysRun) : List Nat := List.range' r.begin (r.stop - r.begin)

inductive Outcome
  | unbounded
  | notMapped (va : Nat)
  | runs (runs : List PhysRun)

/-- The variables of the loop; `runs` has its back first. -/
structure State where
  va : Nat
  runs : List PhysRun

def extend (r : PhysRun) : List PhysRun → List PhysRun
  | [] => [r]
  | back :: rest => if back.stop = r.begin then { back with stop := r.stop } :: rest else r :: back :: rest

variable {S : Type} [DecidableEq S]

/-- The space that is looked in first: the one that was named, or the one that the cpu is in. -/
def current (named inCpu : Option S) : Option S := named.or inCpu

def Pages.resolve (m : Pages S) (current fallback : Option S) (page : Nat) : Option Nat :=
  match current.bind fun s => m.virtToPhys s page with
  | some pa => some pa
  | none => if current ≠ fallback then fallback.bind fun s => m.virtToPhys s page else none

/-- The pass of the loop at `va`. Differences wrap as sums do. -/
def pass (m : Pages S) (current fallback : Option S) (endAddr : Nat) (s : State) : State ⊕ Outcome :=
  if s.va ≤ endAddr then
    let page := pageAlign s.va
    let chunkEnd := min (wrap (page + pageSize)) (wrap (endAddr + 1))
    match m.resolve current fallback page with
    | none => .inr (.notMapped s.va)
    | some pa =>
      let begin := wrap (pa + (s.va - page))
      .inl ⟨chunkEnd, extend ⟨begin, wrap (begin + (2 ^ 64 + chunkEnd - s.va))⟩ s.runs⟩
  else .inr (.runs s.runs.reverse)

/-- `phys_runs` comes to an end with an outcome. -/
def Returns (m : Pages S) (named inCpu shared : Option S) (startAddr endAddr : Nat) (o : Outcome) : Prop :=
  if startAddr > endAddr then o = .unbounded
  else Loop.Ends (pass m (current named inCpu) shared endAddr) ⟨startAddr, []⟩ o

/-! ## What is asked of it -/

section

variable (m : Pages S) (cur fallback : Option S)

def Pages.physOf (va : Nat) : Option Nat :=
  (m.resolve cur fallback (pageAlign va)).map fun pa => pa + (va - pageAlign va)

/-- It throws for a page that is not mapped, and the runs are the bytes behind the range, in order, in runs that cannot
be joined. -/
def Outcome.Right (startAddr endAddr : Nat) : Outcome → Prop
  | .unbounded => False
  | .notMapped _ => ∃ va, startAddr ≤ va ∧ va ≤ endAddr ∧ m.resolve cur fallback (pageAlign va) = none
  | .runs rs =>
    (rs.flatMap PhysRun.bytes).map some =
      (List.range' startAddr (endAddr + 1 - startAddr)).map (m.physOf cur fallback) ∧
    rs.IsChain fun r r' => r.stop ≠ r'.begin

/-- The range ends before the last page; or a page of it is not mapped and, if it ends with the last address, its first
page is not or the first of all pages is not. -/
def Spared (startAddr endAddr : Nat) : Prop :=
  endAddr < 2 ^ 64 - pageSize ∨
    (∃ va, startAddr ≤ va ∧ va ≤ endAddr ∧ m.resolve cur fallback (pageAlign va) = none) ∧
      (endAddr = 2 ^ 64 - 1 → m.resolve cur fallback (pageAlign startAddr) = none ∨ m.resolve cur fallback 0 = none)

end

/-! ## Joining runs -/

theorem bytes_extend {r : PhysRun} {rs : List PhysRun} (hr : r.begin < r.stop) (hrs : ∀ b ∈ rs, b.begin < b.stop) :
    (extend r rs).reverse.flatMap PhysRun.bytes = rs.reverse.flatMap PhysRun.bytes ++ r.bytes := by
  cases rs with
  | nil => simp [extend]
  | cons back rest =>
    have hback := hrs back List.mem_cons_self
    rw [extend]
    split_ifs with hjoin
    · have hbytes : PhysRun.bytes { back with stop := r.stop } = back.bytes ++ r.bytes := by
        unfold PhysRun.bytes
        rw [← hjoin, show r.stop - back.begin = (back.stop - back.begin) + (r.stop - back.stop) by omega,
          ← List.range'_append_1, show back.begin + (back.stop - back.begin) = back.stop by omega]
      simp [hbytes]
    · simp

theorem extend_pos {r : PhysRun} {rs : List PhysRun} (hr : r.begin < r.stop) (hrs : ∀ b ∈ rs, b.begin < b.stop) :
    ∀ b ∈ extend r rs, b.begin < b.stop := by
  cases rs with
  | nil => exact List.forall_mem_singleton.mpr hr
  | cons back rest =>
    obtain ⟨hback, hrest⟩ := List.forall_mem_cons.mp hrs
    rw [extend]
    split_ifs with hjoin
    · exact List.forall_mem_cons.mpr ⟨by change back.begin < r.stop; omega, hrest⟩
    · exact List.forall_mem_cons.mpr ⟨hr, hrs⟩

theorem extend_apart {r : PhysRun} {rs : List PhysRun} (hrs : rs.IsChain fun r r' => r'.stop ≠ r.begin) :
    (extend r rs).IsChain fun r r' => r'.stop ≠ r.begin := by
  cases rs with
  | nil => exact .singleton r
  | cons back rest =>
    rw [extend]
    split_ifs with hjoin
    · cases rest with
      | nil => exact .singleton _
      | cons b rest =>
        obtain ⟨hfirst, hrest⟩ := List.isChain_cons_cons.mp hrs
        exact List.isChain_cons_cons.mpr ⟨hfirst, hrest⟩
    · exact List.isChain_cons_cons.mpr ⟨hjoin, hrs⟩

/-! ## Passes -/

section

variable {m : Pages S} {cur fallback : Option S} {endAddr : Nat}

theorem resolve_bounded {page pa : Nat} (h : m.resolve cur fallback page = some pa) : pa + pageSize < 2 ^ 64 := by
  unfold Pages.resolve at h
  cases hcur : cur.bind fun s => m.virtToPhys s page with
  | some pa' =>
    rw [hcur] at h
    obtain rfl := Option.some.inj h
    obtain ⟨s, -, hs⟩ := Option.bind_eq_some_iff.mp hcur
    exact m.bounded hs
  | none =>
    rw [hcur] at h
    simp only [Option.ite_none_right_eq_some] at h
    obtain ⟨s, -, hs⟩ := Option.bind_eq_some_iff.mp h.2
    exact m.bounded hs

def nextVa (va endAddr : Nat) : Nat := min (wrap (pageAlign va + pageSize)) (wrap (endAddr + 1))

theorem pass_none {s : State} (hva : s.va ≤ endAddr) (h : m.resolve cur fallback (pageAlign s.va) = none) :
    pass m cur fallback endAddr s = .inr (.notMapped s.va) := by
  rw [pass, if_pos hva]
  simp only [h]

theorem pass_some {s : State} (hva : s.va ≤ endAddr) {pa : Nat}
    (h : m.resolve cur fallback (pageAlign s.va) = some pa) :
    ∃ rs, pass m cur fallback endAddr s = .inl ⟨nextVa s.va endAddr, rs⟩ := by
  rw [pass, if_pos hva]
  simp only [h]
  exact ⟨_, rfl⟩

theorem pass_end {s : State} (hva : endAddr < s.va) :
    pass m cur fallback endAddr s = .inr (.runs s.runs.reverse) := if_neg (Nat.not_le.mpr hva)

theorem nextVa_eq {va : Nat} (hpage : pageAlign va + pageSize < 2 ^ 64) (hend : endAddr + 1 < 2 ^ 64) :
    nextVa va endAddr = min (pageAlign va + pageSize) (endAddr + 1) := by
  rw [nextVa, wrap_of_lt hpage, wrap_of_lt hend]

/-- In a range that ends in the last page a pass never comes behind the end. -/
theorem nextVa_le {va : Nat} (hva : va ≤ endAddr) (hlast : 2 ^ 64 - pageSize ≤ endAddr) (hend : endAddr < 2 ^ 64) :
    nextVa va endAddr ≤ endAddr := by
  unfold nextVa wrap pageAlign
  unfold pageSize at *
  omega

/-- A page that is not mapped is come to, unless the last address is the end. -/
theorem exists_ends_notMapped (hend : endAddr + 1 < 2 ^ 64) {u : Nat} (hu : u ≤ endAddr)
    (hnone : m.resolve cur fallback (pageAlign u) = none) {va : Nat} (hva : va ≤ u) (rs : List PhysRun) :
    ∃ v, Loop.Ends (pass m cur fallback endAddr) ⟨va, rs⟩ (.notMapped v) := by
  induction hlen : u - va using Nat.strong_induction_on generalizing va rs with
  | _ len ih =>
    cases hres : m.resolve cur fallback (pageAlign va) with
    | none => exact ⟨va, .done (pass_none (hva.trans hu) hres)⟩
    | some pa =>
      have hne : pageAlign va ≠ pageAlign u := fun heq => by
        rw [heq, hnone] at hres
        cases hres
      have hpages : pageAlign va + pageSize ≤ pageAlign u := by
        unfold pageAlign pageSize at *
        omega
      have hpage := pageAlign_le u
      have hnext : nextVa va endAddr = pageAlign va + pageSize := by
        rw [nextVa_eq (by omega) hend]
        omega
      have hlt := lt_pageAlign_add va
      obtain ⟨rs', hpass⟩ := pass_some (s := ⟨va, rs⟩) (hva.trans hu) hres
      rw [hnext] at hpass
      obtain ⟨v, hv⟩ := ih (u - (pageAlign va + pageSize)) (by omega) (hpages.trans hpage) rs' rfl
      exact ⟨v, .next hpass hv⟩

structure Gathered (m : Pages S) (cur fallback : Option S) (startAddr : Nat) (s : State) : Prop where
  bytes : (s.runs.reverse.flatMap PhysRun.bytes).map some =
    (List.range' startAddr (s.va - startAddr)).map (m.physOf cur fallback)
  pos : ∀ r ∈ s.runs, r.begin < r.stop
  apart : s.runs.IsChain fun r r' => r'.stop ≠ r.begin

theorem physOf_chunk {va n pa : Nat} (hres : m.resolve cur fallback (pageAlign va) = some pa)
    (hn : n ≤ pageAlign va + pageSize) :
    (List.range' va (n - va)).map (m.physOf cur fallback) =
      (List.range' (pa + (va - pageAlign va)) (n - va)).map some := by
  rw [List.range'_eq_map_range, List.range'_eq_map_range, List.map_map, List.map_map]
  refine List.map_congr_left fun i hi => ?_
  have hlt := List.mem_range.mp hi
  have hle := pageAlign_le va
  have hpage : pageAlign (va + i) = pageAlign va := by
    unfold pageAlign pageSize at *
    omega
  change m.physOf cur fallback (va + i) = some (pa + (va - pageAlign va) + i)
  rw [Pages.physOf, hpage, hres, Option.map_some]
  congr 1
  omega

/-- Before the last page a pass takes the bytes up to the end of the page or of the range. -/
theorem Gathered.pass {startAddr : Nat} {s : State} (h : Gathered m cur fallback startAddr s)
    (hstart : startAddr ≤ s.va) (hva : s.va ≤ endAddr) (hend : endAddr < 2 ^ 64 - pageSize) {pa : Nat}
    (hres : m.resolve cur fallback (pageAlign s.va) = some pa) :
    ∃ s', PhysRuns.pass m cur fallback endAddr s = .inl s' ∧ Gathered m cur fallback startAddr s' ∧ s.va < s'.va ∧
      s'.va ≤ endAddr + 1 := by
  have hbounded := resolve_bounded hres
  have hle := pageAlign_le s.va
  have hlt := lt_pageAlign_add s.va
  have hnext : nextVa s.va endAddr = min (pageAlign s.va + pageSize) (endAddr + 1) := by
    rw [nextVa_eq (by omega) (by omega)]
  have hlo : s.va < nextVa s.va endAddr := by omega
  have hhi : nextVa s.va endAddr ≤ pageAlign s.va + pageSize := by omega
  have hend' : nextVa s.va endAddr ≤ endAddr + 1 := by omega
  have hbegin : wrap (pa + (s.va - pageAlign s.va)) = pa + (s.va - pageAlign s.va) := wrap_of_lt (by omega)
  have hstop : wrap (pa + (s.va - pageAlign s.va) + (2 ^ 64 + nextVa s.va endAddr - s.va)) =
      pa + (s.va - pageAlign s.va) + (nextVa s.va endAddr - s.va) := by
    unfold wrap
    omega
  have hpass : PhysRuns.pass m cur fallback endAddr s = .inl ⟨nextVa s.va endAddr,
      extend ⟨wrap (pa + (s.va - pageAlign s.va)), wrap (wrap (pa + (s.va - pageAlign s.va)) +
        (2 ^ 64 + nextVa s.va endAddr - s.va))⟩ s.runs⟩ := by
    rw [PhysRuns.pass, if_pos hva]
    simp only [hres]
    rfl
  rw [hbegin, hstop] at hpass
  have hpos : pa + (s.va - pageAlign s.va) < pa + (s.va - pageAlign s.va) + (nextVa s.va endAddr - s.va) := by omega
  refine ⟨_, hpass, ⟨?_, extend_pos hpos h.pos, extend_apart h.apart⟩, hlo, hend'⟩
  have hrange : List.range' startAddr (nextVa s.va endAddr - startAddr) =
      List.range' startAddr (s.va - startAddr) ++ List.range' s.va (nextVa s.va endAddr - s.va) := by
    rw [show nextVa s.va endAddr - startAddr = s.va - startAddr + (nextVa s.va endAddr - s.va) by omega,
      ← List.range'_append_1, show startAddr + (s.va - startAddr) = s.va by omega]
  rw [bytes_extend hpos h.pos, List.map_append, h.bytes, hrange, List.map_append, physOf_chunk hres hhi, PhysRun.bytes,
    Nat.add_sub_cancel_left]

/-- A range that ends before the last page comes to its end, if all of it is mapped. -/
theorem exists_ends_runs {startAddr : Nat} (hend : endAddr < 2 ^ 64 - pageSize) {s : State}
    (h : Gathered m cur fallback startAddr s) (hstart : startAddr ≤ s.va) (hle : s.va ≤ endAddr + 1)
    (hall : ∀ u, startAddr ≤ u → u ≤ endAddr → m.resolve cur fallback (pageAlign u) ≠ none) :
    ∃ o, Loop.Ends (PhysRuns.pass m cur fallback endAddr) s o ∧ o.Right m cur fallback startAddr endAddr := by
  induction hlen : endAddr + 1 - s.va using Nat.strong_induction_on generalizing s with
  | _ len ih =>
    by_cases hva : s.va ≤ endAddr
    · obtain ⟨pa, hres⟩ := Option.ne_none_iff_exists'.mp (hall s.va hstart hva)
      obtain ⟨s', hpass, hgathered, hlt, hle'⟩ := h.pass hstart hva hend hres
      obtain ⟨o, ho, hright⟩ := ih (endAddr + 1 - s'.va) (by omega) hgathered (hstart.trans hlt.le) hle' rfl
      exact ⟨o, .next hpass ho, hright⟩
    · have heq : s.va = endAddr + 1 := Nat.le_antisymm hle (Nat.not_le.mp hva)
      refine ⟨_, .done (pass_end (Nat.not_le.mp hva)), ?_, List.isChain_reverse.mpr h.apart⟩
      rw [h.bytes, heq]

/-! ## The last page -/

theorem notMapped_of_ends {s : State} {o : Outcome} (h : Loop.Ends (PhysRuns.pass m cur fallback endAddr) s o)
    (hlast : 2 ^ 64 - pageSize ≤ endAddr) (hend : endAddr < 2 ^ 64) (hva : s.va ≤ endAddr) : ∃ v, o = .notMapped v := by
  refine h.invariant (I := fun s => s.va ≤ endAddr) (Q := fun o => ∃ v, o = .notMapped v) ?_ ?_ hva
  · intro s s' hva hpass
    cases hres : m.resolve cur fallback (pageAlign s.va) with
    | none => cases (pass_none hva hres).symm.trans hpass
    | some pa =>
      obtain ⟨rs, hrs⟩ := pass_some hva hres
      obtain rfl := Sum.inl.inj (hrs.symm.trans hpass)
      exact nextVa_le hva hlast hend
  · intro s o hva hpass
    cases hres : m.resolve cur fallback (pageAlign s.va) with
    | none => exact ⟨_, (Sum.inr.inj ((pass_none hva hres).symm.trans hpass)).symm⟩
    | some pa =>
      obtain ⟨rs, hrs⟩ := pass_some hva hres
      cases hrs.symm.trans hpass

theorem nextVa_max (va : Nat) : nextVa va (2 ^ 64 - 1) = 0 := Nat.min_eq_zero_iff.mpr (.inr (Nat.mod_self _))

/-- From the first address on, the loop goes round for ever if the first page is mapped. -/
theorem not_ends_max {startAddr : Nat} (hstart : startAddr ≤ 2 ^ 64 - 1)
    (hfirst : m.resolve cur fallback (pageAlign startAddr) ≠ none) (hzero : m.resolve cur fallback 0 ≠ none)
    {rs : List PhysRun} {o : Outcome} : ¬ Loop.Ends (PhysRuns.pass m cur fallback (2 ^ 64 - 1)) ⟨startAddr, rs⟩ o := by
  intro h
  have hmapped : ∀ s : State, s.va = startAddr ∨ s.va = 0 →
      ∃ rs, PhysRuns.pass m cur fallback (2 ^ 64 - 1) s = .inl ⟨0, rs⟩ := by
    intro s hs
    have hva : s.va ≤ 2 ^ 64 - 1 ∧ m.resolve cur fallback (pageAlign s.va) ≠ none := by
      rcases hs with hs | hs
      · rw [hs]
        exact ⟨hstart, hfirst⟩
      · rw [hs]
        exact ⟨Nat.zero_le _, hzero⟩
    obtain ⟨pa, hres⟩ := Option.ne_none_iff_exists'.mp hva.2
    have hpass := pass_some hva.1 hres
    rwa [nextVa_max] at hpass
  refine h.invariant (I := fun s => s.va = startAddr ∨ s.va = 0) (Q := fun _ => False) ?_ ?_ (.inl rfl)
  · intro s s' hs hpass
    obtain ⟨rs, hrs⟩ := hmapped s hs
    obtain rfl := Sum.inl.inj (hrs.symm.trans hpass)
    exact .inr rfl
  · intro s o hs hpass
    obtain ⟨rs, hrs⟩ := hmapped s hs
    cases hrs.symm.trans hpass

end

/-! ## The whole -/

/-- `phys_runs` comes to an end with what is asked of it if and only if the range is spared. -/
theorem returns_right_iff (m : Pages S) (named inCpu shared : Option S) {startAddr endAddr : Nat}
    (hle : startAddr ≤ endAddr) (hend : endAddr < 2 ^ 64) :
    (∃ o, Returns m named inCpu shared startAddr endAddr o ∧
        o.Right m (current named inCpu) shared startAddr endAddr) ↔
      Spared m (current named inCpu) shared startAddr endAddr := by
  have hreturns : ∀ o, Returns m named inCpu shared startAddr endAddr o ↔
      Loop.Ends (pass m (current named inCpu) shared endAddr) ⟨startAddr, []⟩ o := fun o => by
    rw [Returns, if_neg (Nat.not_lt.mpr hle)]
  simp only [hreturns]
  generalize current named inCpu = cur
  constructor
  · rintro ⟨o, ho, hright⟩
    by_cases hlast : endAddr < 2 ^ 64 - pageSize
    · exact .inl hlast
    · obtain ⟨v, rfl⟩ := notMapped_of_ends ho (Nat.not_lt.mp hlast) hend hle
      refine .inr ⟨hright, fun hmax => ?_⟩
      by_contra hnot
      obtain ⟨hfirst, hzero⟩ := not_or.mp hnot
      subst hmax
      exact not_ends_max hle hfirst hzero ho
  · intro hspared
    by_cases hall : ∀ u, startAddr ≤ u → u ≤ endAddr → m.resolve cur shared (pageAlign u) ≠ none
    · rcases hspared with hlast | ⟨⟨u, hlo, hhi, hnone⟩, -⟩
      · have hgathered : Gathered m cur shared startAddr ⟨startAddr, []⟩ :=
          ⟨by simp, fun _ h => absurd h List.not_mem_nil, .nil⟩
        exact exists_ends_runs hlast hgathered le_rfl (Nat.le_succ_of_le hle) hall
      · exact absurd hnone (hall u hlo hhi)
    · push Not at hall
      obtain ⟨u, hlo, hhi, hnone⟩ := hall
      have hright : ∀ v, (Outcome.notMapped v).Right m cur shared startAddr endAddr := fun _ => ⟨u, hlo, hhi, hnone⟩
      by_cases hmax : endAddr = 2 ^ 64 - 1
      · cases hfirst : m.resolve cur shared (pageAlign startAddr) with
        | none => exact ⟨_, .done (pass_none hle hfirst), hright _⟩
        | some pa =>
          have hzero : m.resolve cur shared 0 = none := by
            rcases hspared with hlast | ⟨-, hmax'⟩
            · exact absurd hmax (Nat.ne_of_lt (hlast.trans_le (by decide)))
            · exact (hmax' hmax).resolve_left (by rw [hfirst]; exact Option.some_ne_none pa)
          obtain ⟨rs, hpass⟩ := pass_some (s := ⟨startAddr, []⟩) hle hfirst
          subst hmax
          rw [nextVa_max] at hpass
          exact ⟨_, .next hpass (.done (pass_none (Nat.zero_le _) hzero)), hright _⟩
      · have hend' : endAddr + 1 < 2 ^ 64 := by omega
        obtain ⟨v, hv⟩ := exists_ends_notMapped hend' hhi hnone hlo []
        exact ⟨_, hv, hright v⟩

/-- A space with two pages in a row and the shared space with a third one, which is elsewhere. -/
def twoSpaces : Pages Bool where
  virtToPhys
    | true, page => if page = 0x1000 then some 0x5000 else if page = 0x2000 then some 0x6000 else none
    | false, page => if page = 0x3000 then some 0x9000 else none
  bounded {s page pa} h := by
    cases s with
    | true =>
      dsimp only at h
      split_ifs at h
      · obtain rfl := Option.some.inj h
        decide
      · obtain rfl := Option.some.inj h
        decide
    | false =>
      obtain ⟨-, hpa⟩ := Option.ite_none_right_eq_some.mp h
      obtain rfl := Option.some.inj hpa
      decide

theorem returns_right_iff_first :
    ∃ o, Returns twoSpaces none (some true) (some false) 0x1800 0x37ff o ∧
      o.Right twoSpaces (current none (some true)) (some false) 0x1800 0x37ff :=
  (returns_right_iff twoSpaces none (some true) (some false) (by decide) (by decide)).mpr (.inl (by decide))

def lastPage : Pages Unit where
  virtToPhys _ page := if page = 2 ^ 64 - pageSize then some 0 else none
  bounded h := by
    obtain ⟨-, hpa⟩ := Option.ite_none_right_eq_some.mp h
    obtain rfl := Option.some.inj hpa
    decide

/-- A watch on the last page goes on with the first one, which is not mapped. -/
theorem lastPage_wraps : ¬ ∃ o, Returns lastPage (some ()) none none (2 ^ 64 - pageSize) (2 ^ 64 - pageSize) o ∧
    o.Right lastPage (current (some ()) none) none (2 ^ 64 - pageSize) (2 ^ 64 - pageSize) := by
  rintro ⟨o, ho, hright⟩
  rw [Returns, if_neg (Nat.lt_irrefl _)] at ho
  obtain ⟨v, rfl⟩ := notMapped_of_ends ho le_rfl (by decide) le_rfl
  obtain ⟨va, hlo, hhi, hnone⟩ := hright
  obtain rfl := Nat.le_antisymm hhi hlo
  exact absurd hnone (by decide)

end Kernemul.PhysRuns
