import Kernemul.Lib.Bisect
import Kernemul.Win.Unwind.X64
import Kernemul.Win.Unwind.Arm64

/-!
# Looking a function up (`lookup_function_entry`)

Both tables are sorted by where the functions begin, and searched by bisection. An x64 entry says where its function
ends; an ARM64 entry has the length in its packed data or in its record.
-/

namespace Kernemul.Unwind

open Bisect Stack

/-- Of two ranges without a common address, the one that begins first ends where the other one begins or before. -/
theorem end_le_of_apart {begin₁ end₁ begin₂ end₂ : BitVec 32} (hle : begin₁ ≤ begin₂) (hpos : begin₂ < end₂)
    (h : ∀ rva, ¬ ((begin₁ ≤ rva ∧ rva < end₁) ∧ begin₂ ≤ rva ∧ rva < end₂)) : end₁ ≤ begin₂ :=
  BitVec.not_lt.mp fun hlt => h begin₂ ⟨⟨hle, hlt⟩, BitVec.le_refl _, hpos⟩

/-! ## x64 -/

namespace X64

def RuntimeFunction.Has (f : RuntimeFunction) (rva : BitVec 32) : Prop := f.beginAddress ≤ rva ∧ rva < f.endAddress

instance (f : RuntimeFunction) (rva : BitVec 32) : Decidable (f.Has rva) := inferInstanceAs (Decidable (_ ∧ _))

/-- The functions begin in order, and each ends before the next one begins. -/
def Sorted (funcs : List RuntimeFunction) : Prop :=
  funcs.Pairwise fun f g => f.beginAddress ≤ g.beginAddress ∧ f.endAddress ≤ g.beginAddress

instance (funcs : List RuntimeFunction) : Decidable (Sorted funcs) := inferInstanceAs (Decidable (List.Pairwise _ _))

def probe (funcs : List RuntimeFunction) (rva : BitVec 32) (i : Nat) : Turn RuntimeFunction :=
  match funcs[i]? with
  | none => .left
  | some f => if rva < f.beginAddress then .left else if f.endAddress ≤ rva then .right else .found f

variable {funcs : List RuntimeFunction} {rva : BitVec 32}

theorem probe_eq {i : Nat} (h : i < funcs.length) : probe funcs rva i =
    if rva < funcs[i].beginAddress then .left else if funcs[i].endAddress ≤ rva then .right else .found funcs[i] := by
  rw [probe, List.getElem?_eq_getElem h]

theorem probe_of_has {i : Nat} (h : i < funcs.length) (hhas : funcs[i].Has rva) :
    probe funcs rva i = .found funcs[i] := by
  rw [probe_eq h, if_neg (BitVec.not_lt.mpr hhas.1), if_neg (BitVec.not_le.mpr hhas.2)]

theorem probe_eq_found {i : Nat} (h : i < funcs.length) {f : RuntimeFunction} (hprobe : probe funcs rva i = .found f) :
    funcs[i] = f ∧ funcs[i].Has rva := by
  rw [probe_eq h] at hprobe
  split_ifs at hprobe with hbegin hend
  exact ⟨Turn.found.inj hprobe, BitVec.not_lt.mp hbegin, BitVec.not_le.mp hend⟩

theorem lookupLoop_succ {lo hi : Nat} (hwindow : lo < hi) (hhi : hi ≤ funcs.length) (fuel : Nat) :
    lookupLoop funcs rva (fuel + 1) lo hi =
      match probe funcs rva (middle lo hi) with
      | .left => lookupLoop funcs rva fuel lo (middle lo hi)
      | .right => lookupLoop funcs rva fuel (middle lo hi + 1) hi
      | .found f => some f := by
  have hmid := (middle_lt hwindow).trans_le hhi
  rw [lookupLoop, if_pos hwindow, probe_eq hmid]
  change (match funcs[middle lo hi]? with | none => none | some entry => _) = _
  rw [List.getElem?_eq_getElem hmid]
  dsimp only
  split_ifs <;> rfl

/-- The loop is the bisection, if it is let run for as many passes as the window has indices. -/
theorem lookupLoop_of_ends {lo hi : Nat} {out : RuntimeFunction ⊕ Nat} (h : Ends (probe funcs rva) lo hi out)
    (hhi : hi ≤ funcs.length) {fuel : Nat} (hfuel : hi - lo ≤ fuel) :
    lookupLoop funcs rva fuel lo hi = out.getLeft? := by
  induction h generalizing fuel with
  | closed hwindow =>
    cases fuel with
    | zero => rfl
    | succ fuel => exact if_neg hwindow
  | @found lo hi f hwindow hprobe =>
    obtain ⟨fuel, rfl⟩ := Nat.exists_eq_succ_of_ne_zero (Nat.ne_of_gt ((Nat.sub_pos_of_lt hwindow).trans_le hfuel))
    rw [lookupLoop_succ hwindow hhi, hprobe]
    rfl
  | @left lo hi out hwindow hprobe rest ih =>
    obtain ⟨fuel, rfl⟩ := Nat.exists_eq_succ_of_ne_zero (Nat.ne_of_gt ((Nat.sub_pos_of_lt hwindow).trans_le hfuel))
    have hmid := middle_lt hwindow
    rw [lookupLoop_succ hwindow hhi, hprobe]
    exact ih (hmid.le.trans hhi) (by omega)
  | @right lo hi out hwindow hprobe rest ih =>
    obtain ⟨fuel, rfl⟩ := Nat.exists_eq_succ_of_ne_zero (Nat.ne_of_gt ((Nat.sub_pos_of_lt hwindow).trans_le hfuel))
    have hmid := le_middle lo hi
    rw [lookupLoop_succ hwindow hhi, hprobe]
    exact ih hhi (by omega)

/-- Functions in order of their begins that have bytes, and none in common, are sorted. -/
theorem sorted_of_disjoint (hbegin : funcs.Pairwise fun f g => f.beginAddress ≤ g.beginAddress)
    (hdisjoint : funcs.Pairwise fun f g => ∀ rva, ¬ (f.Has rva ∧ g.Has rva))
    (hpos : ∀ f ∈ funcs, f.beginAddress < f.endAddress) : Sorted funcs :=
  (hbegin.and hdisjoint).imp_of_mem fun _ hg h => ⟨h.1, end_le_of_apart h.1 (hpos _ hg) h.2⟩

theorem Sorted.of_lt (h : Sorted funcs) {i j : Nat} (hi : i < funcs.length) (hj : j < funcs.length) (hlt : i < j) :
    funcs[i].beginAddress ≤ funcs[j].beginAddress ∧ funcs[i].endAddress ≤ funcs[j].beginAddress :=
  List.pairwise_iff_getElem.mp h i j hi hj hlt

theorem Sorted.ordered (h : Sorted funcs) (rva : BitVec 32) : Ordered (probe funcs rva) funcs.length where
  left i j hij hj hleft := by
    rcases Nat.eq_or_lt_of_le hij with rfl | hlt
    · exact hleft
    have hi := hlt.trans hj
    rw [probe_eq hi] at hleft
    have hbegin : rva < funcs[i].beginAddress := by
      by_contra hnot
      rw [if_neg hnot] at hleft
      split_ifs at hleft
    have hbefore : rva < funcs[j].beginAddress := BitVec.lt_def.mpr (Nat.lt_of_lt_of_le hbegin (h.of_lt hi hj hlt).1)
    rw [probe_eq hj, if_pos hbefore]
  right i j hij hj hright := by
    rcases Nat.eq_or_lt_of_le hij with rfl | hlt
    · exact hright
    have hi := hlt.trans hj
    rw [probe_eq hj] at hright
    have hbegin : ¬ rva < funcs[j].beginAddress := by
      intro hlt
      rw [if_pos hlt] at hright
      cases hright
    obtain ⟨hbegins, hends⟩ := h.of_lt hi hj hlt
    have hle := BitVec.not_lt.mp hbegin
    rw [probe_eq hi, if_neg (BitVec.not_lt.mpr (BitVec.le_trans hbegins hle)), if_pos (BitVec.le_trans hends hle)]

theorem Sorted.index_unique (h : Sorted funcs) {i j : Nat} (hi : i < funcs.length) (hj : j < funcs.length)
    (hhas : funcs[i].Has rva) (hhas' : funcs[j].Has rva) : i = j := by
  have hnot : ∀ {i j : Nat} (hi : i < funcs.length) (hj : j < funcs.length), funcs[i].Has rva → funcs[j].Has rva →
      ¬ i < j := by
    intro i j hi hj hhas hhas' hlt
    exact BitVec.not_le.mpr hhas.2 (BitVec.le_trans (h.of_lt hi hj hlt).2 hhas'.1)
  exact Nat.le_antisymm (Nat.not_lt.mp (hnot hj hi hhas' hhas)) (Nat.not_lt.mp (hnot hi hj hhas hhas'))

theorem lookupLoop_eq_some_iff (h : Sorted funcs) (f : RuntimeFunction) :
    lookupLoop funcs rva funcs.length 0 funcs.length = some f ↔ f ∈ funcs ∧ f.Has rva := by
  obtain ⟨out, hends⟩ := exists_ends (probe funcs rva) 0 funcs.length
  rw [lookupLoop_of_ends hends le_rfl (Nat.sub_le ..)]
  constructor
  · intro hout
    obtain ⟨i, -, hi, hprobe⟩ := (Sum.getLeft?_eq_some_iff.mp hout ▸ hends).probe_of_found
    obtain ⟨rfl, hhas⟩ := probe_eq_found hi hprobe
    exact ⟨List.getElem_mem hi, hhas⟩
  · rintro ⟨hmem, hhas⟩
    obtain ⟨i, hi, rfl⟩ := List.getElem_of_mem hmem
    have hfound := probe_of_has hi hhas
    cases out with
    | inl g =>
      obtain ⟨k, -, hk, hprobe⟩ := hends.probe_of_found
      obtain ⟨rfl, hhas'⟩ := probe_eq_found hk hprobe
      obtain rfl := h.index_unique hi hk hhas hhas'
      rfl
    | inr p =>
      obtain ⟨-, hright, hleft⟩ := hends.closed_at (h.ordered rva) (Nat.zero_le _) le_rfl
      rcases Nat.lt_or_ge i p with hip | hip
      · exact absurd (hfound.symm.trans (hright i (Nat.zero_le i) hip)) nofun
      · exact absurd (hfound.symm.trans (hleft i hip hi)) nofun

end X64

/-! ## ARM64 -/

namespace Arm64

/-- What an entry says of its function, with the length from its packed data or from its record. -/
def entryOf (img : Image) (e : BitVec 32 × Nat) : FunctionEntry :=
  let packed := decide (e.2 % 4 ≠ 0)
  { beginRva := e.1
    length := if packed then e.2 / 4 % 2 ^ 11 * 4 else word img e.2 % 2 ^ 18 * 4
    unwindData := e.2
    packed }

def FunctionEntry.endRva (f : FunctionEntry) : BitVec 32 := f.beginRva + BitVec.ofNat 32 f.length

def FunctionEntry.Has (f : FunctionEntry) (rva : BitVec 32) : Prop := f.beginRva ≤ rva ∧ rva < f.endRva

instance (f : FunctionEntry) (rva : BitVec 32) : Decidable (f.Has rva) := inferInstanceAs (Decidable (_ ∧ _))

/-- The functions begin in order, and each ends before the next one begins. -/
def Sorted (img : Image) (funcs : List (BitVec 32 × Nat)) : Prop :=
  funcs.Pairwise fun e e' => e.1 ≤ e'.1 ∧ (entryOf img e).endRva ≤ e'.1

instance (img : Image) (funcs : List (BitVec 32 × Nat)) : Decidable (Sorted img funcs) :=
  inferInstanceAs (Decidable (List.Pairwise _ _))

/-- The search is for the last function that begins at or below an address, so a probe finds nothing by itself. -/
def probe (funcs : List (BitVec 32 × Nat)) (rva : BitVec 32) (i : Nat) : Turn Empty :=
  if (funcs.getD i (0, 0)).1 ≤ rva then .right else .left

variable {img : Image} {funcs : List (BitVec 32 × Nat)} {rva : BitVec 32}

theorem probe_eq_right {i : Nat} : probe funcs rva i = .right ↔ (funcs.getD i (0, 0)).1 ≤ rva := by
  unfold probe
  split_ifs with h
  · exact iff_of_true rfl h
  · exact iff_of_false nofun h

theorem probe_eq_left {i : Nat} : probe funcs rva i = .left ↔ ¬ (funcs.getD i (0, 0)).1 ≤ rva := by
  unfold probe
  split_ifs with h
  · exact iff_of_false nofun (not_not.mpr h)
  · exact iff_of_true rfl h

/-- The loop is the bisection, if it is let run for as many passes as the window has indices. -/
theorem lookupLoop_of_ends {lo hi p : Nat} (h : Ends (probe funcs rva) lo hi (.inr p)) {fuel : Nat}
    (hfuel : hi - lo ≤ fuel) : lookupLoop funcs rva fuel lo hi = p := by
  generalize hout : Sum.inr p = out at h
  induction h generalizing fuel with
  | closed hwindow =>
    cases hout
    cases fuel with
    | zero => rfl
    | succ fuel => exact if_neg hwindow
  | found => cases hout
  | @left lo hi out hwindow hprobe rest ih =>
    obtain ⟨fuel, rfl⟩ := Nat.exists_eq_succ_of_ne_zero (Nat.ne_of_gt ((Nat.sub_pos_of_lt hwindow).trans_le hfuel))
    have hmid := middle_lt hwindow
    rw [lookupLoop, if_pos hwindow]
    exact (if_neg (probe_eq_left.mp hprobe)).trans (ih (by omega) hout)
  | @right lo hi out hwindow hprobe rest ih =>
    obtain ⟨fuel, rfl⟩ := Nat.exists_eq_succ_of_ne_zero (Nat.ne_of_gt ((Nat.sub_pos_of_lt hwindow).trans_le hfuel))
    have hmid := le_middle lo hi
    rw [lookupLoop, if_pos hwindow]
    exact (if_pos (probe_eq_right.mp hprobe)).trans (ih (by omega) hout)

theorem getD_eq {i : Nat} (h : i < funcs.length) : funcs.getD i (0, 0) = funcs[i] := by
  rw [List.getD_eq_getElem?_getD, List.getElem?_eq_getElem h, Option.getD_some]

/-- Functions in order of their begins that have bytes, and none in common, are sorted. -/
theorem sorted_of_disjoint (hbegin : funcs.Pairwise fun e e' => e.1 ≤ e'.1)
    (hdisjoint : funcs.Pairwise fun e e' => ∀ rva, ¬ ((entryOf img e).Has rva ∧ (entryOf img e').Has rva))
    (hpos : ∀ e ∈ funcs, e.1 < (entryOf img e).endRva) : Sorted img funcs :=
  (hbegin.and hdisjoint).imp_of_mem fun _ he h => ⟨h.1, end_le_of_apart h.1 (hpos _ he) h.2⟩

theorem Sorted.of_lt (h : Sorted img funcs) {i j : Nat} (hi : i < funcs.length) (hj : j < funcs.length)
    (hlt : i < j) : funcs[i].1 ≤ funcs[j].1 ∧ (entryOf img funcs[i]).endRva ≤ funcs[j].1 :=
  List.pairwise_iff_getElem.mp h i j hi hj hlt

theorem Sorted.ordered (h : Sorted img funcs) (rva : BitVec 32) : Ordered (probe funcs rva) funcs.length where
  left i j hij hj hleft := by
    rcases Nat.eq_or_lt_of_le hij with rfl | hlt
    · exact hleft
    have hi := hlt.trans hj
    rw [probe_eq_left, getD_eq hi] at hleft
    rw [probe_eq_left, getD_eq hj]
    exact fun hle => hleft (BitVec.le_trans (h.of_lt hi hj hlt).1 hle)
  right i j hij hj hright := by
    rcases Nat.eq_or_lt_of_le hij with rfl | hlt
    · exact hright
    have hi := hlt.trans hj
    rw [probe_eq_right, getD_eq hj] at hright
    rw [probe_eq_right, getD_eq hi]
    exact BitVec.le_trans (h.of_lt hi hj hlt).1 hright

/-- Where the search comes to: behind the last function that begins at or below the address. -/
theorem exists_lookupLoop (funcs : List (BitVec 32 × Nat)) (rva : BitVec 32) :
    ∃ p, Ends (probe funcs rva) 0 funcs.length (.inr p) ∧ lookupLoop funcs rva funcs.length 0 funcs.length = p := by
  obtain ⟨out, hends⟩ := exists_ends (probe funcs rva) 0 funcs.length
  cases out with
  | inl b => exact b.elim
  | inr p => exact ⟨p, hends, lookupLoop_of_ends hends (Nat.sub_le ..)⟩

theorem lookupFunctionEntry_eq (mod : Module) (pc : Word) {p : Nat}
    (hp : lookupLoop mod.funcs ((pc - mod.addr).setWidth 32) mod.funcs.length 0 mod.funcs.length = p) :
    lookupFunctionEntry mod pc = if p = 0 then none
      else if (entryOf mod.img (mod.funcs.getD (p - 1) (0, 0))).endRva ≤ (pc - mod.addr).setWidth 32 then none
      else some (entryOf mod.img (mod.funcs.getD (p - 1) (0, 0))) := by
  subst hp
  rfl

theorem lookupFunctionEntry_eq_some_iff (mod : Module) (h : Sorted mod.img mod.funcs) (pc : Word) (f : FunctionEntry) :
    lookupFunctionEntry mod pc = some f ↔
      f ∈ mod.funcs.map (entryOf mod.img) ∧ f.Has ((pc - mod.addr).setWidth 32) := by
  obtain ⟨p, hends, hp⟩ := exists_lookupLoop mod.funcs ((pc - mod.addr).setWidth 32)
  obtain ⟨⟨-, hple⟩, hright, hleft⟩ := hends.closed_at (h.ordered _) (Nat.zero_le _) le_rfl
  rw [lookupFunctionEntry_eq mod pc hp]
  generalize (pc - mod.addr).setWidth 32 = rva at *
  constructor
  · intro hfound
    split_ifs at hfound with hzero hend
    obtain rfl := Option.some.inj hfound
    have hlast : p - 1 < mod.funcs.length := by omega
    have hbegin := probe_eq_right.mp (hright (p - 1) (Nat.zero_le _) (by omega))
    rw [getD_eq hlast] at hend hbegin ⊢
    exact ⟨List.mem_map_of_mem (List.getElem_mem hlast), hbegin, BitVec.not_le.mp hend⟩
  · rintro ⟨hmem, hhas⟩
    obtain ⟨e, he, rfl⟩ := List.mem_map.mp hmem
    obtain ⟨i, hi, rfl⟩ := List.getElem_of_mem he
    -- The function is the last one that begins at or below the address: it ends before any other begins.
    have hip : i < p := by
      by_contra hpi
      have hnot := probe_eq_left.mp (hleft i (Nat.not_lt.mp hpi) hi)
      rw [getD_eq hi] at hnot
      exact hnot hhas.1
    have hlast : p - 1 < mod.funcs.length := by omega
    have hsame : i = p - 1 := by
      by_contra hne
      have hbegin := probe_eq_right.mp (hright (p - 1) (Nat.zero_le _) (by omega))
      rw [getD_eq hlast] at hbegin
      exact BitVec.not_le.mpr hhas.2 (BitVec.le_trans (h.of_lt hi hlast (by omega)).2 hbegin)
    subst hsame
    rw [if_neg (by omega), getD_eq hi, if_neg (BitVec.not_le.mpr hhas.2)]

end Arm64

/-! ## Both -/

/-- The search comes to an end whatever the table holds; and in a sorted one it finds the function that an address is
in, and nothing where there is none. -/
theorem lookup_exact (x64 : X64.Module) (arm64 : Arm64.Module) (pc : Word) :
    ((∃ out, Ends (X64.probe x64.funcs ((pc - x64.addr).setWidth 32)) 0 x64.funcs.length out ∧
        X64.lookupFunctionEntry x64 pc = out.getLeft?) ∧
      (X64.Sorted x64.funcs → ∀ f, X64.lookupFunctionEntry x64 pc = some f ↔
        f ∈ x64.funcs ∧ f.Has ((pc - x64.addr).setWidth 32))) ∧
    (∃ p, Ends (Arm64.probe arm64.funcs ((pc - arm64.addr).setWidth 32)) 0 arm64.funcs.length (.inr p) ∧
      Arm64.lookupLoop arm64.funcs ((pc - arm64.addr).setWidth 32) arm64.funcs.length 0 arm64.funcs.length = p) ∧
    (Arm64.Sorted arm64.img arm64.funcs → ∀ f, Arm64.lookupFunctionEntry arm64 pc = some f ↔
      f ∈ arm64.funcs.map (Arm64.entryOf arm64.img) ∧ f.Has ((pc - arm64.addr).setWidth 32)) := by
  refine ⟨⟨?_, fun h f => X64.lookupLoop_eq_some_iff h f⟩, Arm64.exists_lookupLoop .., fun h f =>
    Arm64.lookupFunctionEntry_eq_some_iff arm64 h pc f⟩
  obtain ⟨out, hends⟩ := exists_ends (X64.probe x64.funcs ((pc - x64.addr).setWidth 32)) 0 x64.funcs.length
  exact ⟨out, hends, X64.lookupLoop_of_ends hends le_rfl (Nat.sub_le ..)⟩

def twoX64 : X64.Module :=
  ⟨0x400000, 0x10000, fun _ => { sizeOfProlog := 0, unwindCodeCount := 0, codes := fun _ => 0 }, 0x5000,
    [⟨0x1000, 0x1010, 0⟩, ⟨0x1010, 0x1020, 0⟩]⟩

/-- The first has its length, 16 bytes, in the entry, the second has a record for as many. -/
def twoArm64 : Arm64.Module := ⟨0x400000, fun a => if a = 0x2000 then 4 else 0, [(0x1000, 17), (0x1010, 0x2000)]⟩

theorem lookup_exact_two :
    X64.lookupFunctionEntry twoX64 0x401010 = some ⟨0x1010, 0x1020, 0⟩ ∧
    Arm64.lookupFunctionEntry twoArm64 0x401010 = some ⟨0x1010, 16, 0x2000, false⟩ :=
  ⟨((lookup_exact twoX64 twoArm64 0x401010).1.2 (by decide) _).mpr (by decide),
    ((lookup_exact twoX64 twoArm64 0x401010).2.2 (by decide) _).mpr
      ⟨List.mem_map.mpr ⟨(0x1010, 0x2000), by decide, rfl⟩, by decide⟩⟩

end Kernemul.Unwind
