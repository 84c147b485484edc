import Kernemul.Win.Unwind.Arm64.Inversion

/-!
# Packed unwind data

The saved registers are at the top of a frame: x19 up, then lr, then d8 up, then the home of the parameters. A chained
frame has x29 and lr at its bottom, and locals in between. `apply_packed` looks for the saved registers of a chained
frame right above the pair, as if there were no locals.
-/

namespace Kernemul.Unwind.Arm64

open Stack

structure Packed where
  regF : Nat
  regI : Nat
  h : Nat
  cr : Nat
  frameSize : Nat

def packedOf (w : Nat) : Packed where
  regF := w / 2 ^ 13 % 8
  regI := w / 2 ^ 16 % 16
  h := w / 2 ^ 20 % 2
  cr := w / 2 ^ 21 % 4
  frameSize := w / 2 ^ 23 % 2 ^ 9 * 16

def slotsAt (off : Nat) : List Reg → List (Reg × Nat)
  | [] => []
  | r :: rs => (r, off) :: slotsAt (off + 8) rs

namespace Packed

def fpCount (p : Packed) : Nat := if p.regF = 0 then 0 else p.regF + 1

def Chained (p : Packed) : Prop := p.cr = 2 ∨ p.cr = 3

instance (p : Packed) : Decidable p.Chained := inferInstanceAs (Decidable (p.cr = 2 ∨ p.cr = 3))

def area (p : Packed) : List Reg :=
  (List.range p.regI).map (fun k => .x (19 + k)) ++ (if p.cr = 1 then [.x regLr] else []) ++
    (List.range p.fpCount).map .d

def homes (p : Packed) : List Reg := if p.h = 0 then [] else (List.range 8).map .x

def saved (p : Packed) : Nat := (8 * (p.area.length + p.homes.length) + 15) / 16 * 16

def bottom (p : Packed) : List (Reg × Nat) := if p.Chained then [(x29, 0), (.x regLr, 8)] else []

/-- Where the canonical prologue stores what, counted from the bottom of the frame. -/
def stores (p : Packed) : List (Reg × Nat) := p.bottom ++ slotsAt (p.frameSize - p.saved) (p.area ++ p.homes)

example : stores ⟨2, 2, 0, 1, 0x30⟩ =
    [(.x 19, 0), (.x 20, 8), (.x 30, 0x10), (.d 0, 0x18), (.d 1, 0x20), (.d 2, 0x28)] := by decide

example : stores ⟨0, 2, 0, 3, 0x20⟩ = [(.x 29, 0), (.x 30, 8), (.x 19, 0x10), (.x 20, 0x18)] := by decide

def places (p : Packed) : List (Reg × Int) := p.stores.map fun e => (e.1, (p.frameSize : Int) - e.2)

/-- The canonical prologue. A chained frame has its frame pointer at the bottom. -/
def run (p : Packed) (m : Machine) : Machine where
  sp := place m.sp p.frameSize
  reg := if p.Chained then Function.update m.reg x29 (place m.sp p.frameSize) else m.reg
  mem := storePlaces m.sp m.reg p.places m.mem

/-- The word describes a canonical prologue: there are the registers it names, and the frame holds them. -/
structure Canonical (p : Packed) : Prop where
  regI : p.regI ≤ 10
  fits : p.saved + (if p.Chained then 16 else 0) ≤ p.frameSize

/-- A machine in the body: it may have changed every register that was saved, but neither the stack pointer nor the
callee-saved registers on the stack. -/
structure Body (p : Packed) (m₀ m : Machine) : Prop where
  kept : ∀ r, r.CalleeSaved → r ∉ p.stores.map Prod.fst → m.reg r = m₀.reg r
  sp : m.sp = (p.run m₀).sp
  stack : ∀ e ∈ p.places, e.1.CalleeSaved → ∀ i < 8,
    m.mem (place m₀.sp e.2 + BitVec.ofNat 64 i) = (p.run m₀).mem (place m₀.sp e.2 + BitVec.ofNat 64 i)

/-- Where `apply_packed` takes the saved registers to begin. -/
def areaRead (p : Packed) : Nat := if p.Chained then 0x10 else p.frameSize - p.saved

def loads (p : Packed) : List (Reg × Nat) := p.bottom ++ slotsAt p.areaRead p.area

end Packed

/-! ## Slots in a row -/

theorem slotsAt_append (off : Nat) (rs rs' : List Reg) :
    slotsAt off (rs ++ rs') = slotsAt off rs ++ slotsAt (off + 8 * rs.length) rs' := by
  induction rs generalizing off with
  | nil => rfl
  | cons r rs ih =>
    rw [List.cons_append, slotsAt, slotsAt, ih, List.length_cons, List.cons_append,
      show off + 8 + 8 * rs.length = off + 8 * (rs.length + 1) by omega]

theorem slotsAt_range (off n : Nat) (f : Nat → Reg) :
    slotsAt off ((List.range n).map f) = (List.range n).map fun k => (f k, off + 8 * k) := by
  induction n with
  | zero => rfl
  | succ n ih =>
    rw [List.range_succ, List.map_append, slotsAt_append, ih, List.map_append, List.length_map, List.length_range]
    rfl

theorem slotsAt_off {off : Nat} {rs : List Reg} {e : Reg × Nat} (he : e ∈ slotsAt off rs) :
    off ≤ e.2 ∧ e.2 + 8 ≤ off + 8 * rs.length ∧ e.2 % 8 = off % 8 := by
  induction rs generalizing off with
  | nil => cases he
  | cons r rs ih =>
    rw [List.length_cons]
    rcases List.mem_cons.mp he with rfl | he
    · dsimp only
      omega
    · have := ih he
      omega

theorem slotsAt_nodup (off : Nat) (rs : List Reg) : ((slotsAt off rs).map Prod.snd).Nodup := by
  induction rs generalizing off with
  | nil => exact List.nodup_nil
  | cons r rs ih =>
    rw [slotsAt, List.map_cons, List.nodup_cons]
    refine ⟨fun hmem => ?_, ih (off + 8)⟩
    obtain ⟨e, he, heq⟩ := List.mem_map.mp hmem
    have := (slotsAt_off he).1
    dsimp only at heq
    omega

theorem slotsAt_fst (off : Nat) (rs : List Reg) : (slotsAt off rs).map Prod.fst = rs := by
  induction rs generalizing off with
  | nil => rfl
  | cons r rs ih => rw [slotsAt, List.map_cons, ih]

/-! ## What is loaded -/

theorem loadRun_eq (mem : Mem) (load : UnwindContext → Nat → Nat → UnwindContext) (reg : Nat → Reg)
    (first off n : Nat) (ctx : UnwindContext)
    (hload : ∀ ctx k off, k < n → load ctx (first + k) off = loadAll mem ctx [(reg k, off)]) :
    loadRun load first off n ctx = loadAll mem ctx ((List.range n).map fun k => (reg k, off + 8 * k)) := by
  unfold loadRun
  have hstep : (List.range n).foldl (fun ctx k => load ctx (first + k) (off + 8 * k)) ctx =
      (List.range n).foldl (fun ctx k => loadAll mem ctx [(reg k, off + 8 * k)]) ctx :=
    List.foldl_ext _ _ _ fun ctx k hk => hload ctx k _ (List.mem_range.mp hk)
  rw [hstep, loadAll, List.foldl_map]
  rfl

theorem loadGp_eq (mem : Mem) (ctx : UnwindContext) {n : Nat} (hn : n < maxGp) (off : Nat) :
    loadGp mem ctx n off = loadAll mem ctx [(.x n, off)] := by
  rw [← loadReg_eq, loadReg, if_pos hn]

namespace Packed

variable {p : Packed}

theorem length_area (p : Packed) : p.area.length = p.regI + (if p.cr = 1 then 1 else 0) + p.fpCount := by
  unfold area
  rw [List.length_append, List.length_append, List.length_map, List.length_range, List.length_map, List.length_range]
  split <;> rfl

theorem length_homes (p : Packed) : p.homes.length = if p.h = 0 then 0 else 8 := by
  unfold homes
  split
  · rfl
  · rw [List.length_map, List.length_range]

theorem saved_eq (p : Packed) : p.saved = (8 * (p.regI + (if p.cr = 1 then 1 else 0) + p.fpCount) +
    (if p.h = 0 then 0 else 64) + 15) / 16 * 16 := by
  unfold saved
  rw [length_area, length_homes]
  by_cases hh : p.h = 0
  · simp only [hh, if_true, Nat.add_zero]
  · rw [if_neg hh, if_neg hh, Nat.mul_add]

theorem slotsAt_area (off : Nat) (p : Packed) : slotsAt off p.area =
    ((List.range p.regI).map fun k => (.x (19 + k), off + 8 * k)) ++
    (if p.cr = 1 then [(.x regLr, off + 8 * p.regI)] else []) ++
    (List.range p.fpCount).map fun k => (.d k, off + 8 * (p.regI + if p.cr = 1 then 1 else 0) + 8 * k) := by
  unfold area
  rw [slotsAt_append, slotsAt_append, slotsAt_range, slotsAt_range, List.length_append, List.length_map,
    List.length_range]
  split <;> rfl

end Packed

theorem applyPacked_eq (mem : Mem) {w : Nat} (hcan : (packedOf w).Canonical) (ctx : UnwindContext) :
    applyPacked mem w ctx =
      (true, addSp (loadAll mem ctx (packedOf w).loads) (packedOf w).frameSize) := by
  have hregF : (packedOf w).regF ≤ 7 := by
    unfold packedOf
    dsimp only
    omega
  have hfp : (packedOf w).fpCount ≤ maxFp := by
    unfold Packed.fpCount maxFp
    split <;> omega
  have hdef : applyPacked mem w ctx =
      let p := packedOf w
      let lrs := if p.cr = 1 then 1 else 0
      let saved := (8 * (p.regI + lrs + p.fpCount) + (if p.h = 0 then 0 else 64) + 15) / 16 * 16
      if ¬ p.Chained ∧ saved > p.frameSize then (false, ctx)
      else
        let area := if p.Chained then 0x10 else p.frameSize - saved
        let ctx := if p.Chained then loadGp mem (loadGp mem ctx regFp 0) regLr 8 else ctx
        let ctx := loadRun (loadGp mem) 19 area p.regI ctx
        let ctx := if p.cr = 1 then loadGp mem ctx regLr (area + 8 * p.regI) else ctx
        let ctx := loadRun (loadFp mem) 0 (area + 8 * (p.regI + lrs)) p.fpCount ctx
        (true, addSp ctx p.frameSize) := rfl
  rw [hdef]
  generalize packedOf w = p at *
  obtain ⟨hregI, hfits⟩ := hcan
  dsimp only
  rw [← p.saved_eq, if_neg (by split at hfits <;> omega)]
  have hbottom : (if p.Chained then loadGp mem (loadGp mem ctx regFp 0) regLr 8 else ctx) =
      loadAll mem ctx p.bottom := by
    unfold Packed.bottom
    split
    · rw [loadGp_eq mem _ (show regLr < maxGp by decide), loadGp_eq mem _ (show regFp < maxGp by decide),
        loadAll_append]
      rfl
    · rfl
  have hlr : ∀ ctx off, (if p.cr = 1 then loadGp mem ctx regLr off else ctx) =
      loadAll mem ctx (if p.cr = 1 then [(.x regLr, off)] else []) := by
    intro ctx off
    split
    · exact loadGp_eq mem ctx (by decide) off
    · rfl
  rw [hbottom, hlr,
    loadRun_eq mem (loadGp mem) (fun k => .x (19 + k)) 19 _ _ _
      (fun ctx k off hk => loadGp_eq mem ctx (show 19 + k < 31 by omega) off),
    loadRun_eq mem (loadFp mem) .d 0 _ _ _ (fun ctx k off _ => by rw [Nat.zero_add, loadFp_eq]),
    loadAll_append, loadAll_append, loadAll_append]
  congr 3
  unfold Packed.loads
  rw [Packed.slotsAt_area]
  simp only [List.append_assoc]
  rfl

namespace Packed

variable {p : Packed}

/-! ## What the prologue stores -/

theorem Canonical.area_saved (h : p.Canonical) (hregF : p.regF ≤ 7) : ∀ r ∈ p.area, r.CalleeSaved := by
  have hfp : p.fpCount ≤ 8 := by
    unfold fpCount
    split <;> omega
  have hregI := h.regI
  intro r hr
  unfold area at hr
  simp only [List.mem_append, List.mem_map, List.mem_range] at hr
  obtain (⟨k, hk, rfl⟩ | hlr) | ⟨k, hk, rfl⟩ := hr
  · exact ⟨by omega, by omega⟩
  · split at hlr
    · rw [List.mem_singleton.mp hlr]
      decide
    · cases hlr
  · exact show k < 8 by omega

theorem bottom_mem {e : Reg × Nat} (he : e ∈ p.bottom) :
    p.Chained ∧ e.1.CalleeSaved ∧ e.2 + 8 ≤ 16 ∧ e.2 % 8 = 0 := by
  unfold bottom at he
  split at he
  · rename_i hchained
    rcases List.mem_pair.mp he with rfl | rfl
    · exact ⟨hchained, by decide, by decide, rfl⟩
    · exact ⟨hchained, by decide, by decide, rfl⟩
  · cases he

theorem area_le_saved (p : Packed) : 8 * (p.area ++ p.homes).length ≤ p.saved ∧ p.saved % 16 = 0 := by
  rw [List.length_append]
  unfold saved
  omega

theorem Canonical.stores_off (h : p.Canonical) (hframe : p.frameSize % 16 = 0) {e : Reg × Nat} (he : e ∈ p.stores) :
    e.2 + 8 ≤ p.frameSize ∧ e.2 % 8 = 0 := by
  obtain ⟨harea, hsaved⟩ := p.area_le_saved
  have hfits := h.fits
  rcases List.mem_append.mp he with he | he
  · obtain ⟨hchained, -, hoff⟩ := bottom_mem he
    rw [if_pos hchained] at hfits
    omega
  · have hoff := slotsAt_off he
    omega

theorem Canonical.places_fit (h : p.Canonical) (hframe : p.frameSize % 16 = 0) (hsize : p.frameSize < 2 ^ 13) :
    ∀ e ∈ p.places, Fits e.2 := by
  intro e he
  obtain ⟨e', he', rfl⟩ := List.mem_map.mp he
  have hoff := h.stores_off hframe he'
  unfold Fits
  dsimp only
  omega

theorem Canonical.stores_nodup (h : p.Canonical) : (p.stores.map Prod.snd).Nodup := by
  have hfits := h.fits
  unfold stores
  rw [List.map_append, List.nodup_append]
  refine ⟨?_, slotsAt_nodup _ _, fun a ha b hb => ?_⟩
  · unfold bottom
    split <;> decide
  · obtain ⟨e, he, rfl⟩ := List.mem_map.mp ha
    obtain ⟨e', he', rfl⟩ := List.mem_map.mp hb
    obtain ⟨hchained, -, hoff⟩ := bottom_mem he
    have hoff' := (slotsAt_off he').1
    rw [if_pos hchained] at hfits
    omega

theorem Canonical.places_nodup (h : p.Canonical) : (p.places.map Prod.snd).Nodup := by
  have hmap : p.places.map Prod.snd = (p.stores.map Prod.snd).map fun off : Nat => (p.frameSize : Int) - off := by
    unfold places
    rw [List.map_map, List.map_map]
    rfl
  rw [hmap]
  exact h.stores_nodup.map fun a b hab => by omega

/-- The fields of a word are small, and a frame is a multiple of 16. -/
structure Small (p : Packed) : Prop where
  regF : p.regF ≤ 7
  frame : p.frameSize % 16 = 0
  size : p.frameSize < 2 ^ 13

theorem packedOf_small (w : Nat) : (packedOf w).Small := by
  constructor <;> (unfold packedOf; dsimp only; omega)

variable {m₀ m : Machine}

theorem Body.read (h : p.Body m₀ m) (hcan : p.Canonical) (hsmall : p.Small) {e : Reg × Int} (he : e ∈ p.places)
    (hr : e.1.CalleeSaved) : read64 m.mem (place m₀.sp e.2) = m₀.reg e.1 := by
  rw [read64_congr (h.stack e he hr)]
  exact storePlaces_stored (hcan.places_fit hsmall.frame hsmall.size) hcan.places_nodup he m₀.mem

/-! ## What is restored -/

def reads (p : Packed) : List (Reg × Nat) := p.bottom ++ slotsAt (p.frameSize - p.saved) p.area

theorem reads_stores {e : Reg × Nat} (he : e ∈ p.reads) : e ∈ p.stores := by
  unfold stores
  rw [slotsAt_append, ← List.append_assoc]
  exact List.mem_append_left _ he

theorem Canonical.reads_saved (h : p.Canonical) (hsmall : p.Small) {e : Reg × Nat} (he : e ∈ p.reads) :
    e.1.CalleeSaved := by
  rcases List.mem_append.mp he with he | he
  · exact (bottom_mem he).2.1
  · refine h.area_saved hsmall.regF e.1 ?_
    rw [← slotsAt_fst (p.frameSize - p.saved) p.area]
    exact List.mem_map_of_mem he

theorem mem_reads {r : Reg} (hr : r.CalleeSaved) (hmem : r ∈ p.stores.map Prod.fst) : r ∈ p.reads.map Prod.fst := by
  unfold stores at hmem
  unfold reads
  rw [slotsAt_append, List.map_append, List.map_append, slotsAt_fst, slotsAt_fst] at hmem
  rw [List.map_append, slotsAt_fst]
  rcases List.mem_append.mp hmem with hmem | hmem
  · exact List.mem_append_left _ hmem
  · rcases List.mem_append.mp hmem with hmem | hmem
    · exact List.mem_append_right _ hmem
    · unfold homes at hmem
      split at hmem
      · cases hmem
      · obtain ⟨k, hk, rfl⟩ := List.mem_map.mp hmem
        have hk := List.mem_range.mp hk
        have := hr.1
        omega

theorem Body.restored (h : p.Body m₀ m) (hcan : p.Canonical) (hsmall : p.Small) {ctx : UnwindContext}
    (hctx : Matches ctx m) : Restored m₀ (addSp (loadAll m.mem ctx p.reads) p.frameSize) := by
  have hsp : ctx.sp = place m₀.sp p.frameSize := hctx.sp.trans h.sp
  have htracked : p.reads.filter (fun e => decide e.1.Tracked) = p.reads :=
    List.filter_eq_self.mpr fun e he => decide_eq_true (hcan.reads_saved hsmall he).tracked
  have hval : ∀ e ∈ p.reads.map (fun e => (e.1, (p.frameSize : Int) - e.2)),
      read64 m.mem (place m₀.sp e.2) = m₀.reg e.1 := by
    intro e he
    obtain ⟨e', he', rfl⟩ := List.mem_map.mp he
    exact h.read hcan hsmall (List.mem_map_of_mem (reads_stores he')) (hcan.reads_saved hsmall he')
  constructor
  · show (loadAll m.mem ctx p.reads).sp + _ = _
    rw [loadAll_sp, hsp, place_add]
    simp
  · intro r hr
    show ctxReg (loadAll m.mem ctx p.reads) r = _
    rw [loadAll_reg m.mem ctx hsp, htracked, loadPlaces_eq hval, List.map_map]
    split
    · rfl
    · rename_i hnot
      rw [hctx.reg r hr]
      exact h.kept r hr fun hmem => hnot (mem_reads hr hmem)

/-- What `apply_packed` reads is at the top of the frame: the frame is not chained, or has no locals, or nothing is
saved but the pair. -/
def AtTop (p : Packed) : Prop := p.Chained → p.frameSize = p.saved + 16 ∨ p.regI = 0 ∧ p.regF = 0

instance (p : Packed) : Decidable p.AtTop :=
  inferInstanceAs (Decidable (p.Chained → p.frameSize = p.saved + 16 ∨ p.regI = 0 ∧ p.regF = 0))

theorem not_lr_of_chained (h : p.Chained) : p.cr ≠ 1 := by
  unfold Chained at h
  omega

theorem loads_of_atTop (h : p.AtTop) : p.loads = p.reads := by
  unfold loads reads areaRead
  by_cases hchained : p.Chained
  · rw [if_pos hchained]
    rcases h hchained with hsize | ⟨hregI, hregF⟩
    · rw [hsize, Nat.add_sub_cancel_left]
    · have hnil : p.area = [] := by
        unfold area fpCount
        rw [hregI, hregF, if_neg (not_lr_of_chained hchained)]
        rfl
      rw [hnil]
      rfl
  · rw [if_neg hchained]

/-! ## Where it is not -/

theorem body_run (p : Packed) (m₀ : Machine) : p.Body m₀ (p.run m₀) where
  kept r hr hnot := by
    unfold run
    dsimp only
    split
    · rename_i hchained
      refine Function.update_of_ne ?_ _ _
      rintro rfl
      exact hnot (List.mem_map_of_mem (List.mem_append_left _ (by simp [bottom, hchained] : (x29, 0) ∈ p.bottom)))
    · rfl
  sp := rfl
  stack _ _ _ _ _ := rfl

theorem Canonical.run_locals (h : p.Canonical) (hsmall : p.Small) (hchained : p.Chained)
    (hsize : p.frameSize ≠ p.saved + 16) (m₀ : Machine) :
    read64 (p.run m₀).mem (place m₀.sp (p.frameSize - (16 : Nat))) =
      read64 m₀.mem (place m₀.sp (p.frameSize - (16 : Nat))) := by
  have hfits := h.fits
  have hsaved := p.area_le_saved
  have hframe := hsmall.frame
  have hlt := hsmall.size
  rw [if_pos hchained] at hfits
  refine storePlaces_other (h.places_fit hsmall.frame hsmall.size) ?_ ?_ _
  · unfold Fits
    omega
  · intro hmem
    obtain ⟨e, he, heq⟩ := List.mem_map.mp hmem
    obtain ⟨e', he', rfl⟩ := List.mem_map.mp he
    dsimp only at heq
    rcases List.mem_append.mp he' with hb | hslot
    · have := bottom_mem hb
      omega
    · have := slotsAt_off hslot
      omega

theorem first_load (hchained : p.Chained) (hregs : ¬ (p.regI = 0 ∧ p.regF = 0)) :
    ∃ r, r.CalleeSaved ∧ (r, 16) ∈ p.loads ∧ ∀ off, (r, off) ∈ p.loads → off = 16 := by
  have hloads : p.loads = [(x29, 0), (.x regLr, 8)] ++
      (((List.range p.regI).map fun k => (.x (19 + k), 16 + 8 * k)) ++
        (List.range p.fpCount).map fun k => (.d k, 16 + 8 * p.regI + 8 * k)) := by
    have hlr := not_lr_of_chained hchained
    unfold loads bottom areaRead
    rw [slotsAt_area, if_pos hchained, if_pos hchained, if_neg hlr, if_neg hlr, List.append_nil, Nat.add_zero]
  rw [hloads]
  by_cases hregI : p.regI = 0
  · have hfp : 0 < p.fpCount := by
      unfold fpCount
      rw [if_neg fun hregF => hregs ⟨hregI, hregF⟩]
      exact Nat.succ_pos _
    refine ⟨.d 0, by decide, ?_, fun off hoff => ?_⟩
    · simp [hregI, hfp]
    · simp [hregI, x29] at hoff
      omega
  · refine ⟨.x 19, by decide, ?_, fun off hoff => ?_⟩
    · simp [Nat.pos_of_ne_zero hregI]
    · simp [x29, regFp, regLr] at hoff
      omega

theorem Canonical.not_restored (h : p.Canonical) (hsmall : p.Small) (hnot : ¬ p.AtTop) (pc : Word) :
    ¬ Restored entry (addSp (loadAll (p.run entry).mem (contextOf pc (p.run entry)) p.loads) p.frameSize) := by
  unfold AtTop at hnot
  push Not at hnot
  obtain ⟨hchained, hsize, hregs⟩ := hnot
  obtain ⟨r, hr, hmem, honly⟩ := first_load hchained fun hzero => hregs hzero.1 hzero.2
  intro hback
  have hsp : (contextOf pc (p.run entry)).sp = place entry.sp p.frameSize := rfl
  have hvalue : ctxReg (loadAll (p.run entry).mem (contextOf pc (p.run entry)) p.loads) r = 0#64 := by
    rw [loadAll_reg _ _ hsp]
    rcases loadPlaces_cases (p.run entry).mem entry.sp
      ((p.loads.filter fun e => decide e.1.Tracked).map fun e => (e.1, (p.frameSize : Int) - e.2))
      (ctxReg (contextOf pc (p.run entry))) r with ⟨hnone, -⟩ | ⟨q, hq, heq⟩
    · refine absurd ?_ hnone
      rw [List.map_map]
      exact List.mem_map.mpr ⟨(r, 16), List.mem_filter.mpr ⟨hmem, decide_eq_true hr.tracked⟩, rfl⟩
    · obtain ⟨e, he, hpair⟩ := List.mem_map.mp hq
      obtain ⟨rfl, rfl⟩ := Prod.mk.inj hpair
      have hoff := honly e.2 (List.mem_filter.mp he).1
      rw [heq, hoff, h.run_locals hsmall hchained hsize]
      simp [entry, read64]
  have hentry := (entry_reg hr).1
  have hreg : ctxReg (loadAll (p.run entry).mem (contextOf pc (p.run entry)) p.loads) r = entry.reg r :=
    hback.reg r hr
  rw [← hreg, hvalue] at hentry
  exact absurd hentry (by decide)

end Packed

/-! ## Unwinding -/

/-- A stop in the body of a function with packed data: at its first instruction only if there is no prologue. -/
structure PackedStop (mod : Module) (func : FunctionEntry) (pc : Word) : Prop where
  found : lookupFunctionEntry mod pc = some func
  packed : func.packed = true
  after : pc = mod.addr + func.beginRva.setWidth 64 → (packedOf func.unwindData).frameSize = 0

section
variable {mod : Module} {func : FunctionEntry}

theorem Packed.Canonical.loads_nil {p : Packed} (h : p.Canonical) (hzero : p.frameSize = 0) : p.loads = [] := by
  have hfits := h.fits
  have hsaved := p.area_le_saved
  have hchained : ¬ p.Chained := fun hchained => by
    rw [if_pos hchained] at hfits
    omega
  have harea : p.area = [] := by
    rw [List.length_append] at hsaved
    exact List.length_eq_zero_iff.mp (by omega)
  unfold Packed.loads Packed.bottom
  rw [harea, if_neg hchained]
  rfl

theorem unwindFrame_packed {ctx : UnwindContext} (h : PackedStop mod func ctx.pc)
    (hcan : (packedOf func.unwindData).Canonical) (mem : Mem) :
    (unwindFrame mem mod ctx).2.2 = (toCaller (addSp (loadAll mem ctx (packedOf func.unwindData).loads)
      (packedOf func.unwindData).frameSize)).2 := by
  rw [unwindFrame, h.found]
  dsimp only
  by_cases hbegin : ctx.pc = mod.addr + func.beginRva.setWidth 64
  · have hzero := h.after hbegin
    rw [if_pos hbegin, hcan.loads_nil hzero, hzero, addSp_zero, loadAll_nil]
  · rw [if_neg hbegin, h.packed, if_pos rfl, applyPacked_eq mem hcan]

/-- **Packed data is undone** in every body of a function exactly when `apply_packed` reads at the top of its frame. -/
theorem packed_restores_iff {pc : Word} (h : PackedStop mod func pc)
    (hcan : (packedOf func.unwindData).Canonical) :
    (∀ m₀ m, (packedOf func.unwindData).Body m₀ m → ∀ ctx : UnwindContext, ctx.pc = pc → Matches ctx m →
      Restored m₀ (unwindFrame m.mem mod ctx).2.2) ↔ (packedOf func.unwindData).AtTop := by
  have hsmall := Packed.packedOf_small func.unwindData
  constructor
  · intro hres
    by_contra hnot
    refine hcan.not_restored hsmall hnot pc ?_
    have hback := hres entry _ (Packed.body_run _ entry) (contextOf pc _) rfl (contextOf_matches _ _)
    rwa [@unwindFrame_packed mod func (contextOf pc _) h hcan, toCaller_restored] at hback
  · intro htop m₀ m hm ctx hpc hctx
    subst hpc
    rw [unwindFrame_packed h hcan, toCaller_restored, Packed.loads_of_atTop htop]
    exact hm.restored hcan hsmall hctx

end

/-! ## Two chained frames -/

/-- A chained frame of so many bytes with x19 and x20 above the locals; the function has eight instructions. -/
def chainedWord (frame : Nat) : Nat := 1 + 8 * 2 ^ 2 + 2 * 2 ^ 16 + 3 * 2 ^ 21 + frame / 16 * 2 ^ 23

def chainedModule (frame : Nat) : Module where
  addr := 0x140000000
  img := fun _ => 0
  funcs := [(0x1000, chainedWord frame)]

def chainedEntry (frame : Nat) : FunctionEntry where
  beginRva := 0x1000
  length := 32
  unwindData := chainedWord frame
  packed := true

theorem chainedStop_locals : PackedStop (chainedModule 0x40) (chainedEntry 0x40) 0x140001010 where
  found := by decide +kernel
  packed := rfl
  after h := absurd h (by decide +kernel)

theorem canonical_locals : (packedOf (chainedEntry 0x40).unwindData).Canonical := ⟨by decide, by decide⟩

/-- x19 is at 0x30 of a frame with locals, and read at 0x10. -/
theorem packed_loses_x19 : ¬ ∀ mod func pc, PackedStop mod func pc → (packedOf func.unwindData).Canonical →
    ∀ m₀ m, (packedOf func.unwindData).Body m₀ m → ∀ ctx : UnwindContext, ctx.pc = pc → Matches ctx m →
      Restored m₀ (unwindFrame m.mem mod ctx).2.2 := by
  intro hall
  refine canonical_locals.not_restored (Packed.packedOf_small _) (by decide) 0x140001010 ?_
  have hback := hall _ _ _ chainedStop_locals canonical_locals entry _ (Packed.body_run _ entry)
    (contextOf 0x140001010 _) rfl (contextOf_matches _ _)
  rwa [@unwindFrame_packed _ _ (contextOf 0x140001010 _) chainedStop_locals canonical_locals,
    toCaller_restored] at hback

/-- Without locals all is restored. -/
theorem packed_restores_pair : (packedOf (chainedEntry 0x20).unwindData).AtTop ∧
    ∀ m₀ m, (packedOf (chainedEntry 0x20).unwindData).Body m₀ m → ∀ ctx : UnwindContext, ctx.pc = 0x140001010 →
      Matches ctx m → Restored m₀ (unwindFrame m.mem (chainedModule 0x20) ctx).2.2 := by
  have hstop : PackedStop (chainedModule 0x20) (chainedEntry 0x20) 0x140001010 :=
    ⟨by decide +kernel, rfl, fun h => absurd h (by decide +kernel)⟩
  have htop : (packedOf (chainedEntry 0x20).unwindData).AtTop := by decide
  exact ⟨htop, (packed_restores_iff hstop ⟨by decide, by decide⟩).mpr htop⟩

end Kernemul.Unwind.Arm64
