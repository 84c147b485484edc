import Kernemul.Emu.Defs
import Kernemul.Lib.Bisect
import Kernemul.Lib.StableSort
import Kernemul.Win.FormattedOutput

/-!
# Sorting and searching the guest's arrays (`qsort`, `bsearch` of `nt_crt_ops.cpp`)

The comparator is guest code: it is called with the addresses of two elements, and may leave anything in memory.
`qsort` sorts the places of a copy and writes the elements back in that order.
-/

namespace Kernemul.SortSearch

open ByteMemory FormattedOutput

/-- `guest_caller::call` with a function and its arguments: what it returns, and the memory it leaves. -/
abbrev Call := Memory → Nat → List Nat → Nat × Memory

def elementAt (base width i : Nat) : Nat := wrap (base + i * width)

/-- What `std::stable_sort` asks. Its result is defined for the answers of an order only. -/
def less (call : Call) (base width comparator a b : Nat) (mem : Memory) : Bool × Memory :=
  let (order, mem) := call mem comparator [elementAt base width a, elementAt base width b]
  (int32 order < 0, mem)

def qsort (call : Call) (mem : Memory) (base count width comparator : Nat) : Memory :=
  if base = 0 ∨ width = 0 ∨ comparator = 0 ∨ count < 2 then mem
  else
    let elements := readMem mem base (wrap (count * width))
    let (order, mem) := StableSort.sort (less call base width comparator) (List.range count) mem
    let sorted := order.flatMap fun i => (elements.drop (i * width)).take width
    writeMem mem base sorted

/-- One round of `bsearch`. -/
def probe (call : Call) (key base width comparator mid : Nat) (mem : Memory) : Bisect.Turn Nat × Memory :=
  let (order, mem) := call mem comparator [key, elementAt base width mid]
  (if int32 order = 0 then .found (elementAt base width mid) else if int32 order < 0 then .left else .right, mem)

def bsearch (call : Call) (mem : Memory) (key base count width comparator : Nat) : Nat × Memory :=
  if key = 0 ∨ base = 0 ∨ width = 0 ∨ comparator = 0 ∨ count = 0 then (0, mem)
  else
    match Bisect.loop (probe call key base width comparator) 0 count mem with
    | (.inl found, mem) => (found, mem)
    | (.inr _, mem) => (0, mem)

/-! ## Elements -/

def element (mem : Memory) (base width i : Nat) : List UInt8 := readMem mem (base + i * width) width

def elements (mem : Memory) (base count width : Nat) : List (List UInt8) :=
  (List.range count).map (element mem base width)

theorem elements_succ (mem : Memory) (base n width : Nat) :
    elements mem base (n + 1) width = readMem mem base width :: elements mem (base + width) n width := by
  rw [elements, List.range_succ_eq_map, List.map_cons, List.map_map, element, Nat.zero_mul, Nat.add_zero]
  refine congrArg (readMem mem base width :: ·) (List.map_congr_left fun i _ => ?_)
  rw [Function.comp_apply, element, element, Nat.succ_mul, Nat.add_assoc, Nat.add_comm width]

theorem mem_elements {mem : Memory} {base count width : Nat} {e : List UInt8} :
    e ∈ elements mem base count width ↔ ∃ i < count, element mem base width i = e := by
  rw [elements, List.mem_map]
  simp only [List.mem_range]

theorem elements_writeMem {width : Nat} {xs : List (List UInt8)} (h : ∀ x ∈ xs, x.length = width) (mem : Memory)
    (base : Nat) : elements (writeMem mem base xs.flatten) base xs.length width = xs := by
  induction xs generalizing mem base with
  | nil => rfl
  | cons x xs ih =>
    have hx := h x List.mem_cons_self
    rw [List.length_cons, elements_succ, List.flatten_cons, writeMem_append, hx,
      ih fun y hy => h y (List.mem_cons_of_mem x hy)]
    have hhead : readMem (writeMem (writeMem mem base x) (base + width) xs.flatten) base width = x := by
      rw [readMem_congr fun a _ hlt => writeMem_of_out (.inl hlt), ← hx, readMem_writeMem]
    rw [hhead]

theorem slice_eq (mem : Memory) (base : Nat) {count width i : Nat} (hi : i < count) :
    ((readMem mem base (count * width)).drop (i * width)).take width = element mem base width i := by
  have hroom : i * width + width ≤ count * width := by
    rw [← Nat.succ_mul]
    exact Nat.mul_le_mul_right width hi
  refine List.ext_getElem ?_ fun k hk hk' => ?_
  · rw [List.length_take, List.length_drop, length_readMem, element, length_readMem]
    omega
  · simp only [element, readMem, List.getElem_take, List.getElem_drop, List.getElem_map, List.getElem_range,
      Nat.add_assoc]

theorem length_flatten_of_width {width : Nat} {xs : List (List UInt8)} (h : ∀ x ∈ xs, x.length = width) :
    xs.flatten.length = xs.length * width := by
  induction xs with
  | nil => exact (Nat.zero_mul width).symm
  | cons x xs ih =>
    rw [List.flatten_cons, List.length_append, h x List.mem_cons_self, ih fun y hy => h y (List.mem_cons_of_mem x hy),
      List.length_cons, Nat.succ_mul, Nat.add_comm]

theorem elementAt_eq {base count width : Nat} (hwidth : width ≠ 0) (hfit : base + count * width ≤ 2 ^ 64) {i : Nat}
    (hi : i < count) : elementAt base width i = base + i * width := by
  have : i * width + width ≤ count * width := by
    rw [← Nat.succ_mul]
    exact Nat.mul_le_mul_right width hi
  exact wrap_of_lt (by omega)

/-! ## Sorting -/

variable {call : Call} {mem : Memory} {base count width comparator key : Nat}

/-- The order that `qsort` finds, and the memory that finding it leaves. -/
def ordered (call : Call) (mem : Memory) (base count width comparator : Nat) : List Nat × Memory :=
  StableSort.sort (less call base width comparator) (List.range count) mem

theorem ordered_perm (call : Call) (mem : Memory) (base count width comparator : Nat) :
    (ordered call mem base count width comparator).1.Perm (List.range count) :=
  StableSort.sort_perm ..

theorem qsort_idle (hargs : base = 0 ∨ width = 0 ∨ comparator = 0 ∨ count < 2) :
    qsort call mem base count width comparator = mem := by
  rw [qsort, if_pos hargs]

theorem qsort_eq (hfit : base + count * width ≤ 2 ^ 64)
    (hargs : ¬ (base = 0 ∨ width = 0 ∨ comparator = 0 ∨ count < 2)) :
    qsort call mem base count width comparator =
      writeMem (ordered call mem base count width comparator).2 base
        ((ordered call mem base count width comparator).1.map (element mem base width)).flatten := by
  have hsize : wrap (count * width) = count * width := wrap_of_lt (by omega)
  unfold qsort
  rw [if_neg hargs, hsize]
  show writeMem (ordered call mem base count width comparator).2 base _ = _
  rw [List.flatMap_def]
  refine congrArg (fun xs => writeMem _ base (List.flatten xs)) (List.map_congr_left fun i hi => ?_)
  exact slice_eq mem base (List.mem_range.mp ((ordered_perm ..).mem_iff.mp hi))

theorem length_of_mem_map {order : List Nat} {x : List UInt8} (h : x ∈ order.map (element mem base width)) :
    x.length = width := by
  obtain ⟨i, -, rfl⟩ := List.mem_map.mp h
  exact length_readMem ..

theorem elements_qsort (hfit : base + count * width ≤ 2 ^ 64)
    (hargs : ¬ (base = 0 ∨ width = 0 ∨ comparator = 0 ∨ count < 2)) :
    elements (qsort call mem base count width comparator) base count width =
      (ordered call mem base count width comparator).1.map (element mem base width) := by
  have hlength : ((ordered call mem base count width comparator).1.map (element mem base width)).length = count := by
    rw [List.length_map, (ordered_perm ..).length_eq, List.length_range]
  have hwidth : ∀ x ∈ (ordered call mem base count width comparator).1.map (element mem base width),
      x.length = width := fun x hx => length_of_mem_map hx
  have hwritten := elements_writeMem hwidth (ordered call mem base count width comparator).2 base
  rwa [hlength, ← qsort_eq hfit hargs] at hwritten

def Spares (call : Call) (comparator a : Nat) : Prop := ∀ m args, (call m comparator args).2 a = m a

theorem ordered_spares {a : Nat} (h : Spares call comparator a) :
    (ordered call mem base count width comparator).2 a = mem a :=
  StableSort.sort_keeps (less call base width comparator) (P := fun m => m a = mem a)
    (fun _ _ m hm => (h m _).trans hm) (List.range count) mem rfl

/-- Outside of the array nothing has changed but what the comparator changed. -/
theorem qsort_outside (hfit : base + count * width ≤ 2 ^ 64) {a : Nat} (hout : a < base ∨ base + count * width ≤ a)
    (hspares : Spares call comparator a) : qsort call mem base count width comparator a = mem a := by
  by_cases hargs : base = 0 ∨ width = 0 ∨ comparator = 0 ∨ count < 2
  · rw [qsort_idle hargs]
  · have hwidth : ∀ x ∈ (ordered call mem base count width comparator).1.map (element mem base width),
        x.length = width := fun x hx => length_of_mem_map hx
    have hlength := length_flatten_of_width hwidth
    rw [List.length_map, (ordered_perm ..).length_eq, List.length_range] at hlength
    rw [qsort_eq hfit hargs, writeMem_of_out (by omega), ordered_spares hspares]

structure Comparison (cmp : List UInt8 → List UInt8 → Int) : Prop where
  flip : ∀ a b, 0 < cmp a b ↔ cmp b a < 0
  trans : ∀ a b c, cmp a b ≤ 0 → cmp b c ≤ 0 → cmp a c ≤ 0

/-- While the invariant holds, the call answers `answer`, and it keeps the invariant. -/
def Answers (call : Call) (comparator : Nat) (inv : Memory → Prop) (args : List Nat) (answer : Int) : Prop :=
  ∀ m, inv m → int32 (call m comparator args).1 = answer ∧ inv (call m comparator args).2

/-- The elements in order; what was in order before is in the same order. -/
structure Sorts (cmp : List UInt8 → List UInt8 → Int) (before after : List (List UInt8)) : Prop where
  perm : after.Perm before
  ordered : after.Pairwise fun a b => cmp a b ≤ 0
  stable : ∀ c : List (List UInt8), c.Pairwise (fun a b => cmp a b ≤ 0) → c.Sublist before → c.Sublist after

section Sorting
variable {cmp : List UInt8 → List UInt8 → Int} {inv : Memory → Prop}

theorem Comparison.not_lt (h : Comparison cmp) (a b : List UInt8) : ¬ cmp b a < 0 ↔ cmp a b ≤ 0 := by
  rw [← h.flip, Int.not_lt]

theorem Comparison.sorts_mergeSort (h : Comparison cmp) (l : List (List UInt8)) :
    Sorts cmp l (l.mergeSort fun a b => !decide (cmp b a < 0)) := by
  have hle : ∀ a b, (!decide (cmp b a < 0)) = true ↔ cmp a b ≤ 0 := fun a b => by
    rw [Bool.not_eq_true', decide_eq_false_iff_not, h.not_lt]
  have htrans : ∀ a b c, (!decide (cmp b a < 0)) = true → (!decide (cmp c b < 0)) = true →
      (!decide (cmp c a < 0)) = true := fun a b c hab hbc =>
    (hle a c).mpr (h.trans a b c ((hle a b).mp hab) ((hle b c).mp hbc))
  have htotal : ∀ a b, (!decide (cmp b a < 0) || !decide (cmp a b < 0)) = true := fun a b => by
    rw [Bool.or_eq_true, hle, hle]
    have := h.flip a b
    omega
  refine ⟨List.mergeSort_perm .., ?_, fun c hc hsub => ?_⟩
  · exact (List.pairwise_mergeSort htrans htotal l).imp fun {a b} hab => (hle a b).mp hab
  · exact List.sublist_mergeSort htrans htotal (hc.imp fun {a b} hab => (hle a b).mpr hab) hsub

theorem sorts_of_length_lt_two {l : List (List UInt8)} (h : l.length < 2) : Sorts cmp l l := by
  refine ⟨.refl l, ?_, fun c _ hsub => hsub⟩
  match l with
  | [] => exact .nil
  | [a] => exact List.pairwise_singleton _ a
  | a :: b :: l =>
    rw [List.length_cons, List.length_cons] at h
    omega

/-- A comparator that compares contents, whatever else it writes: the array is sorted, and what compares alike keeps
its order. -/
theorem qsort_sorts (hcmp : Comparison cmp) (hbase : base ≠ 0) (hwidth : width ≠ 0) (hcomparator : comparator ≠ 0)
    (hfit : base + count * width ≤ 2 ^ 64) (hstart : inv mem)
    (hanswers : ∀ i < count, ∀ j < count, Answers call comparator inv [base + i * width, base + j * width]
      (cmp (element mem base width i) (element mem base width j))) :
    Sorts cmp (elements mem base count width)
      (elements (qsort call mem base count width comparator) base count width) := by
  by_cases hcount : count < 2
  · rw [qsort_idle (.inr (.inr (.inr hcount)))]
    exact sorts_of_length_lt_two (by rwa [elements, List.length_map, List.length_range])
  · have hargs : ¬ (base = 0 ∨ width = 0 ∨ comparator = 0 ∨ count < 2) := by tauto
    have hless : StableSort.Answers (less call base width comparator) inv
        (fun i j => decide (cmp (element mem base width i) (element mem base width j) < 0)) (List.range count) := by
      refine ⟨fun i hi j hj m hm => ?_, fun i hi j hj m hm => ?_⟩
      all_goals
        have hi := List.mem_range.mp hi
        have hj := List.mem_range.mp hj
        have hanswer := hanswers i hi j hj m hm
        unfold less
        rw [elementAt_eq hwidth hfit hi, elementAt_eq hwidth hfit hj]
      · exact congrArg (fun n : Int => decide (n < 0)) hanswer.1
      · exact hanswer.2
    have horder := (StableSort.sort_eq hless (List.range count) mem (fun _ hi => hi) hstart).1
    rw [elements_qsort hfit hargs, ordered, horder, List.map_mergeSort (s := fun a b => !decide (cmp b a < 0))
      fun i _ j _ => rfl]
    exact hcmp.sorts_mergeSort _

/-- With a comparator that compares contents the elements are sorted, what compares alike keeps its order, and nothing
else changes but what the comparator changed. Of answers that contradict each other nothing is said, as
`std::stable_sort` is undefined for them. -/
theorem qsort_correct (call : Call) (mem : Memory) {base count width : Nat} (comparator : Nat)
    (hfit : base + count * width ≤ 2 ^ 64) :
    (base = 0 ∨ width = 0 ∨ comparator = 0 ∨ count < 2 → qsort call mem base count width comparator = mem) ∧
      ∀ (cmp : List UInt8 → List UInt8 → Int) (inv : Memory → Prop), Comparison cmp → base ≠ 0 → width ≠ 0 →
        comparator ≠ 0 → inv mem →
        (∀ i < count, ∀ j < count, Answers call comparator inv [base + i * width, base + j * width]
          (cmp (element mem base width i) (element mem base width j))) →
        Sorts cmp (elements mem base count width)
            (elements (qsort call mem base count width comparator) base count width) ∧
          ∀ a, a < base ∨ base + count * width ≤ a → Spares call comparator a →
            qsort call mem base count width comparator a = mem a :=
  ⟨qsort_idle, fun _ _ hcmp hbase hwidth hcomparator hstart hanswers =>
    ⟨qsort_sorts hcmp hbase hwidth hcomparator hfit hstart hanswers,
      fun _ hout hspares => qsort_outside hfit hout hspares⟩⟩

end Sorting

def letters : Memory := fun a => if a = 100 then 3 else if a = 101 then 1 else if a = 102 ∨ a = 200 then 2 else 0

def compareBytes : Call := fun m _ args =>
  (2 ^ 32 + (m (args.getD 0 0)).toNat - (m (args.getD 1 0)).toNat, Function.update m 0 (m 0 + 1))

def byteOrder (a b : List UInt8) : Int := (a.headD 0).toNat - (b.headD 0).toNat

theorem comparison_byteOrder : Comparison byteOrder where
  flip a b := by
    unfold byteOrder
    omega
  trans a b c hab hbc := by
    unfold byteOrder at *
    omega

theorem int32_sub (x y : UInt8) : int32 (2 ^ 32 + x.toNat - y.toNat) = (x.toNat : Int) - y.toNat := by
  have hx := x.toNat_lt
  have hy := y.toNat_lt
  rw [int32, BitVec.toInt_eq_toNat_cond, BitVec.toNat_ofNat]
  split <;> omega

/-- It compares the bytes that were there at first, and spares all but its own. -/
theorem compareBytes_answers (mem : Memory) (comparator : Nat) {p q : Nat} (hp : p ≠ 0) (hq : q ≠ 0) :
    Answers compareBytes comparator (fun m => ∀ a, a ≠ 0 → m a = mem a) [p, q]
      (byteOrder (readMem mem p 1) (readMem mem q 1)) := by
  refine fun m hm => ⟨?_, fun a ha => ?_⟩
  · show int32 (2 ^ 32 + (m p).toNat - (m q).toNat) = ((mem p).toNat : Int) - (mem q).toNat
    rw [hm p hp, hm q hq]
    exact int32_sub ..
  · rw [← hm a ha]
    exact Function.update_of_ne ha _ _

theorem compareBytes_spares {a : Nat} (comparator : Nat) (ha : a ≠ 0) : Spares compareBytes comparator a :=
  fun _ _ => Function.update_of_ne ha _ _

theorem qsort_correct_letters : Sorts byteOrder (elements letters 100 3 1)
    (elements (qsort compareBytes letters 100 3 1 7) 100 3 1) ∧ qsort compareBytes letters 100 3 1 7 200 = 2 :=
  have hcorrect := (qsort_correct compareBytes letters 7 (show 100 + 3 * 1 ≤ 2 ^ 64 by decide)).2 byteOrder _
    comparison_byteOrder (by decide) (by decide) (by decide) (fun _ _ => rfl)
    fun i _ j _ => compareBytes_answers letters 7 (by omega) (by omega)
  ⟨hcorrect.1, (hcorrect.2 200 (.inr (by decide)) (compareBytes_spares 7 (by decide))).trans (by decide)⟩

/-! ## Searching -/

section Searching
variable {order : List UInt8 → Int} {inv : Memory → Prop}

def turn (order : List UInt8 → Int) (mem : Memory) (base width i : Nat) : Bisect.Turn Nat :=
  if order (element mem base width i) = 0 then .found (base + i * width)
  else if order (element mem base width i) < 0 then .left else .right

/-- First the elements that the key is greater than, then those it is like, then those it is less than. -/
structure InOrder (order : List UInt8 → Int) (mem : Memory) (base count width : Nat) : Prop where
  less : ∀ i j, i ≤ j → j < count → order (element mem base width i) < 0 → order (element mem base width j) < 0
  greater : ∀ i j, i ≤ j → j < count → 0 < order (element mem base width j) → 0 < order (element mem base width i)

theorem turn_left {i : Nat} : turn order mem base width i = .left ↔ order (element mem base width i) < 0 := by
  unfold turn
  split_ifs with hzero hneg
  · exact ⟨fun h => (by cases h), fun h => by omega⟩
  · exact ⟨fun _ => hneg, fun _ => rfl⟩
  · exact ⟨fun h => (by cases h), fun h => absurd h hneg⟩

theorem turn_right {i : Nat} : turn order mem base width i = .right ↔ 0 < order (element mem base width i) := by
  unfold turn
  split_ifs with hzero hneg
  · exact ⟨fun h => (by cases h), fun h => by omega⟩
  · exact ⟨fun h => (by cases h), fun h => by omega⟩
  · exact ⟨fun _ => by omega, fun _ => rfl⟩

theorem turn_found {i found : Nat} (h : turn order mem base width i = .found found) :
    order (element mem base width i) = 0 ∧ found = base + i * width := by
  unfold turn at h
  split_ifs at h with hzero hneg
  exact ⟨hzero, (Bisect.Turn.found.inj h).symm⟩

theorem InOrder.ordered (h : InOrder order mem base count width) :
    Bisect.Ordered (turn order mem base width) count where
  left i j hij hj hi := turn_left.mpr (h.less i j hij hj (turn_left.mp hi))
  right i j hij hj hj' := turn_right.mpr (h.greater i j hij hj (turn_right.mp hj'))

/-- The search comes back after at most one call of the comparator more than the binary logarithm of the count, each
with an element of the array. -/
theorem bsearch_calls (call : Call) (mem : Memory) (key comparator : Nat) (hwidth : width ≠ 0)
    (hfit : base + count * width ≤ 2 ^ 64) : ∃ asked : List Nat, asked.length ≤ count.log2 + 1 ∧
      (∀ i ∈ asked, i < count) ∧ (bsearch call mem key base count width comparator).2 =
        asked.foldl (fun m i => (call m comparator [key, base + i * width]).2) mem := by
  by_cases hargs : key = 0 ∨ base = 0 ∨ width = 0 ∨ comparator = 0 ∨ count = 0
  · rw [bsearch, if_pos hargs]
    exact ⟨[], Nat.zero_le _, fun i hi => absurd hi List.not_mem_nil, rfl⟩
  · obtain ⟨asked, hstate, hin, hcount⟩ := Bisect.loop_asks (probe call key base width comparator) 0 count mem
    have hmem : (bsearch call mem key base count width comparator).2 =
        (Bisect.loop (probe call key base width comparator) 0 count mem).2 := by
      rw [bsearch, if_neg hargs]
      split <;> rename_i hloop <;> rw [hloop]
    refine ⟨asked, ?_, fun i hi => (hin i hi).2, ?_⟩
    · have hcount0 : count ≠ 0 := by tauto
      rcases hcount with rfl | hcount
      · exact Nat.zero_le _
      · cases hlen : asked.length with
        | zero => exact Nat.zero_le _
        | succ k =>
          rw [hlen, Nat.pow_succ] at hcount
          exact Nat.succ_le_succ ((Nat.le_log2 hcount0).mpr (by omega))
    · rw [hmem, hstate]
      refine List.foldl_ext _ _ _ fun m i hi => ?_
      rw [probe, elementAt_eq hwidth hfit (hin i hi).2]

/-- What the search finds compares like the key, and where the elements are in the order of the key, it finds
something if any of them does. -/
theorem bsearch_finds (hkey : key ≠ 0) (hbase : base ≠ 0) (hwidth : width ≠ 0) (hcomparator : comparator ≠ 0)
    (hfit : base + count * width ≤ 2 ^ 64) (hstart : inv mem)
    (hanswers : ∀ i < count, Answers call comparator inv [key, base + i * width] (order (element mem base width i))) :
    ((bsearch call mem key base count width comparator).1 ≠ 0 → ∃ i < count,
      (bsearch call mem key base count width comparator).1 = base + i * width ∧ order (element mem base width i) = 0) ∧
    (InOrder order mem base count width → (bsearch call mem key base count width comparator).1 = 0 →
      ∀ i < count, order (element mem base width i) ≠ 0) := by
  by_cases hcount : count = 0
  · rw [bsearch, if_pos (.inr (.inr (.inr (.inr hcount))))]
    exact ⟨fun h => absurd rfl h, fun _ _ i hi => by omega⟩
  · have hargs : ¬ (key = 0 ∨ base = 0 ∨ width = 0 ∨ comparator = 0 ∨ count = 0) := by tauto
    have hsays : Bisect.Says inv (probe call key base width comparator) (turn order mem base width) 0 count := by
      intro i m _ hi hm
      obtain ⟨hanswer, hkeeps⟩ := hanswers i hi m hm
      unfold probe turn
      rw [elementAt_eq hwidth hfit hi]
      dsimp only
      rw [hanswer]
      exact ⟨rfl, hkeeps⟩
    obtain ⟨hends, -⟩ := Bisect.loop_ends hsays hstart
    rw [bsearch, if_neg hargs]
    cases hloop : Bisect.loop (probe call key base width comparator) 0 count mem with
    | mk out m =>
      rw [hloop] at hends
      cases out with
      | inl found =>
        obtain ⟨i, -, hi, hturn⟩ := hends.probe_of_found
        obtain ⟨hzero, rfl⟩ := turn_found hturn
        exact ⟨fun _ => ⟨i, hi, rfl, hzero⟩, fun _ h => absurd h (by dsimp only; omega)⟩
      | inr place =>
        refine ⟨fun h => absurd rfl h, fun hordered _ i hi hzero => ?_⟩
        obtain ⟨-, hright, hleft⟩ := hends.closed_at hordered.ordered (Nat.zero_le _) (Nat.le_refl _)
        by_cases hip : i < place
        · have := turn_right.mp (hright i (Nat.zero_le i) hip)
          omega
        · have := turn_left.mp (hleft i (Nat.not_lt.mp hip) hi)
          omega

/-- `bsearch` comes back after at most one call more than the binary logarithm of the count, whatever is answered. If
the answers are those of an order it finds an element that compares like the key, and where the elements are in the
order of the key, it finds one if there is any. -/
theorem bsearch_correct (call : Call) (mem : Memory) (key comparator : Nat) (hwidth : width ≠ 0)
    (hfit : base + count * width ≤ 2 ^ 64) :
    (∃ asked : List Nat, asked.length ≤ count.log2 + 1 ∧ (∀ i ∈ asked, i < count) ∧
      (bsearch call mem key base count width comparator).2 =
        asked.foldl (fun m i => (call m comparator [key, base + i * width]).2) mem) ∧
    ∀ (order : List UInt8 → Int) (inv : Memory → Prop), key ≠ 0 → base ≠ 0 → comparator ≠ 0 → inv mem →
      (∀ i < count, Answers call comparator inv [key, base + i * width] (order (element mem base width i))) →
      ((bsearch call mem key base count width comparator).1 ≠ 0 → ∃ i < count,
        (bsearch call mem key base count width comparator).1 = base + i * width ∧
          order (element mem base width i) = 0) ∧
      (InOrder order mem base count width → (bsearch call mem key base count width comparator).1 = 0 →
        ∀ i < count, order (element mem base width i) ≠ 0) :=
  ⟨bsearch_calls call mem key comparator hwidth hfit, fun _ _ hkey hbase hcomparator hstart hanswers =>
    bsearch_finds hkey hbase hwidth hcomparator hfit hstart hanswers⟩

/-- The bytes are not in order, but the way to the last of them does not show it. -/
theorem bsearch_correct_letters : ∃ i < 3, (bsearch compareBytes letters 200 100 3 1 7).1 = 100 + i * 1 ∧
    byteOrder [2] (element letters 100 1 i) = 0 :=
  have hanswers : ∀ i < 3, Answers compareBytes 7 (fun m => ∀ a, a ≠ 0 → m a = letters a) [200, 100 + i * 1]
      (byteOrder [2] (element letters 100 1 i)) := fun i _ => compareBytes_answers letters 7 (by decide) (by omega)
  have hfound : (bsearch compareBytes letters 200 100 3 1 7).1 ≠ 0 := by decide +kernel
  ((bsearch_correct compareBytes letters 200 7 (by decide) (by decide)).2 (byteOrder [2]) _ (by decide) (by decide)
    (by decide) (fun _ _ => rfl) hanswers).1 hfound

end Searching

/-! ## Both -/

section Both
variable {cmp : List UInt8 → List UInt8 → Int} {inv inv' : Memory → Prop}

theorem Comparison.refl (h : Comparison cmp) (a : List UInt8) : cmp a a = 0 := by
  have := h.flip a a
  omega

theorem getElem_elements {i : Nat} (hi : i < (elements mem base count width).length) :
    (elements mem base count width)[i] = element mem base width i := by
  simp only [elements, List.getElem_map, List.getElem_range]

theorem Comparison.inOrder (h : Comparison cmp) (k : List UInt8)
    (hordered : (elements mem base count width).Pairwise fun a b => cmp a b ≤ 0) :
    InOrder (cmp k) mem base count width := by
  have hlength : (elements mem base count width).length = count := by
    rw [elements, List.length_map, List.length_range]
  have hle : ∀ i j, i ≤ j → j < count → cmp (element mem base width i) (element mem base width j) ≤ 0 := by
    intro i j hij hj
    rcases Nat.lt_or_eq_of_le hij with hlt | rfl
    · have := List.pairwise_iff_getElem.mp hordered i j (by omega) (by omega) hlt
      rwa [getElem_elements, getElem_elements] at this
    · exact (h.refl _).le
  refine ⟨fun i j hij hj hless => ?_, fun i j hij hj hgreater => ?_⟩
  · refine Int.not_le.mp fun hnot => ?_
    have hback : cmp (element mem base width j) k ≤ 0 := by
      have := h.flip (element mem base width j) k
      omega
    have := h.trans _ _ _ (hle i j hij hj) hback
    have := h.flip (element mem base width i) k
    omega
  · refine Int.not_le.mp fun hnot => ?_
    have := h.trans _ _ _ hnot (hle i j hij hj)
    omega

/-- An array that `qsort` has sorted is searched with success exactly when one of the elements it had
compares like the key, and what is found is such an element. -/
theorem bsearch_qsort (hcmp : Comparison cmp) {k : List UInt8} (hkey : key ≠ 0) (hbase : base ≠ 0) (hwidth : width ≠ 0)
    (hcomparator : comparator ≠ 0) (hfit : base + count * width ≤ 2 ^ 64) (hstart : inv mem)
    (hanswers : ∀ i < count, ∀ j < count, Answers call comparator inv [base + i * width, base + j * width]
      (cmp (element mem base width i) (element mem base width j)))
    (hsorted : inv' (qsort call mem base count width comparator))
    (hanswers' : ∀ i < count, Answers call comparator inv' [key, base + i * width]
      (cmp k (element (qsort call mem base count width comparator) base width i))) :
    ((bsearch call (qsort call mem base count width comparator) key base count width comparator).1 ≠ 0 ↔
      ∃ e ∈ elements mem base count width, cmp k e = 0) ∧
    ((bsearch call (qsort call mem base count width comparator) key base count width comparator).1 ≠ 0 →
      ∃ i < count, (bsearch call (qsort call mem base count width comparator) key base count width comparator).1 =
        base + i * width ∧ cmp k (element (qsort call mem base count width comparator) base width i) = 0) := by
  have hsorts := qsort_sorts hcmp hbase hwidth hcomparator hfit hstart hanswers
  obtain ⟨hfound, hnone⟩ := bsearch_finds hkey hbase hwidth hcomparator hfit hsorted hanswers'
  refine ⟨⟨fun h => ?_, fun ⟨e, he, hzero⟩ hmiss => ?_⟩, hfound⟩
  · obtain ⟨i, hi, -, hzero⟩ := hfound h
    exact ⟨_, hsorts.perm.mem_iff.mp (mem_elements.mpr ⟨i, hi, rfl⟩), hzero⟩
  · obtain ⟨i, hi, rfl⟩ := mem_elements.mp (hsorts.perm.mem_iff.mpr he)
    exact hnone (hcmp.inOrder k hsorts.ordered) hmiss i hi hzero

/-- The key is after the array and the second in its order. -/
theorem bsearch_qsort_letters :
    (bsearch compareBytes (qsort compareBytes letters 100 3 1 7) 200 100 3 1 7).1 ≠ 0 := by
  have hkey : readMem (qsort compareBytes letters 100 3 1 7) 200 1 = [2] :=
    congrArg (fun b : UInt8 => [b]) ((qsort_outside (by decide) (.inr (by decide))
      (compareBytes_spares 7 (by decide))).trans (by decide))
  have hanswers : ∀ i < 3, Answers compareBytes 7 (fun m => ∀ a, a ≠ 0 → m a = qsort compareBytes letters 100 3 1 7 a)
      [200, 100 + i * 1] (byteOrder [2] (element (qsort compareBytes letters 100 3 1 7) 100 1 i)) := fun i _ => by
    rw [← hkey]
    exact compareBytes_answers _ 7 (by decide) (by omega)
  have hfound : ∃ e ∈ elements letters 100 3 1, byteOrder [2] e = 0 := ⟨[2], by decide, by decide⟩
  exact (bsearch_qsort comparison_byteOrder (by decide) (by decide) (by decide) (by decide) (by decide)
    (fun a _ => rfl) (fun i _ j _ => compareBytes_answers letters 7 (by omega) (by omega)) (fun a _ => rfl)
    hanswers).1.mpr hfound

end Both

end Kernemul.SortSearch
