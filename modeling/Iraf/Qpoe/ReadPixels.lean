import Mathlib.Algebra.Order.Field.Rat
import Mathlib.Data.List.Count
import Iraf.Qpoe.LookupTable

/-!
# Events as pixels

`qpio_readpix` counts the events of a rectangle in the pixels of a matrix.  The two bins of an
event become one index, and only the bin of the second axis is checked on its own.  Real values
are exact here.
-/

namespace Iraf.Qpoe

/-- The types of an event coordinate; `qpio_readpix` has a case for each but the last. -/
inductive EvType where
  | short
  | int
  | long
  | real
  | double
  | other
  deriving DecidableEq, Repr

inductive ReadpixError where
  | qpblockoor
  | qpinvevt
  deriving DecidableEq, Repr

/-- `EPSILOND * 1000`. -/
def binEpsilon : ℚ := 2220 / 10 ^ 16

/-- The element of the output array that an event is counted in. -/
def eventPixel (xw yw : Int) (vs : Int × Int) (xblock yblock : ℚ) (ev : ℚ × ℚ) : Option Int :=
  let j := truncReal ((ev.2 - vs.2) / yblock + binEpsilon)
  if j ≥ 0 ∧ j < yw then
    let pix := truncReal (j * xw + (ev.1 - vs.1) / xblock + 1)
    if pix > 0 ∧ pix ≤ xw * yw then some pix else none
  else none

def countEvent (obuf : Int → Int) : Option Int → Int → Int
  | none => obuf
  | some pix => Function.update obuf pix (obuf pix + 1)

/-- The events come in the batches that `qpio_getevents` returns.  The output array is counted
from 1; the number of events is the value of the function. -/
def qpioReadpix (evxtype evytype : EvType) (batches : List (List (ℚ × ℚ))) (obuf : Int → Int)
    (vs ve : Int × Int) (xblock yblock : ℚ) : Except ReadpixError ((Int → Int) × Int) :=
  if xblock ≤ 0 ∨ xblock > (ve.1 - vs.1 + 1 : Int) then .error .qpblockoor
  else if yblock ≤ 0 ∨ yblock > (ve.2 - vs.2 + 1 : Int) then .error .qpblockoor
  else
    let xw := truncReal ((ve.1 - vs.1 + 1 : Int) / xblock + binEpsilon)
    let yw := truncReal ((ve.2 - vs.2 + 1 : Int) / yblock + binEpsilon)
    if xw ≤ 0 ∨ yw ≤ 0 then .ok (obuf, 0)
    else if evxtype ≠ evytype then .error .qpinvevt
    else
      let readBatch := fun obuf events =>
        if evxtype = .other then obuf
        else events.foldl
          (fun obuf ev => countEvent obuf (eventPixel xw yw vs xblock yblock ev)) obuf
      .ok (batches.foldl readBatch obuf, (batches.map fun events => (events.length : Int)).sum)

/-! ## Counting -/

theorem foldl_countEvent {α : Type*} (pixel : α → Option Int) (events : List α)
    (obuf : Int → Int) (pix : Int) :
    events.foldl (fun obuf ev => countEvent obuf (pixel ev)) obuf pix =
      obuf pix + events.countP (fun ev => pixel ev = some pix) := by
  induction events generalizing obuf with
  | nil => simp
  | cons ev events ih =>
      rw [List.foldl_cons, ih, List.countP_cons]
      cases hpixel : pixel ev with
      | none => simp [countEvent]
      | some p =>
          rcases eq_or_ne p pix with rfl | hne
          · simp [countEvent]
            omega
          · simp [countEvent, hne, hne.symm]

theorem countP_lt {α : Type*} {p q : α → Bool} {l : List α} (hsub : ∀ a ∈ l, q a → p a)
    (hmore : ∃ a ∈ l, p a ∧ ¬ q a) : l.countP q < l.countP p := by
  induction l with
  | nil =>
      obtain ⟨a, ha, -⟩ := hmore
      exact absurd ha List.not_mem_nil
  | cons a l ih =>
      obtain ⟨ha, hl⟩ := List.forall_mem_cons.mp hsub
      have hle : l.countP q ≤ l.countP p := List.countP_mono_left hl
      rw [List.countP_cons, List.countP_cons]
      obtain ⟨b, hb, hpb, hqb⟩ := hmore
      rcases List.mem_cons.mp hb with rfl | hb
      · rw [if_pos hpb, if_neg hqb]
        omega
      · have hlt := ih hl ⟨b, hb, hpb, hqb⟩
        by_cases hqa : q a = true
        · rw [if_pos hqa, if_pos (ha hqa)]
          omega
        · rw [if_neg hqa]
          omega

/-! ## Integer bins -/

theorem binEpsilon_pos : 0 < binEpsilon := by norm_num [binEpsilon]

/-- The quotient of integers, with the small amount added, has the integer quotient as its
integer part. -/
theorem truncReal_div {a b : Int} (ha : 0 ≤ a) (hb : 1 ≤ b) (hsmall : b ≤ 2 ^ 32) :
    truncReal ((a : ℚ) / b + binEpsilon) = a / b := by
  have hbq : (1 : ℚ) ≤ b := by exact_mod_cast hb
  have hbpos : (0 : ℚ) < b := by linarith
  have hsmallq : (b : ℚ) ≤ 2 ^ 32 := by exact_mod_cast hsmall
  have hdiv : (b : ℚ) * (a / b : Int) + (a % b : Int) = a := by
    exact_mod_cast Int.mul_ediv_add_emod a b
  have hrem : ((a % b : Int) : ℚ) + 1 ≤ b := by
    exact_mod_cast Int.emod_lt_of_pos a (by omega)
  have hrem' : (0 : ℚ) ≤ ((a % b : Int) : ℚ) := by
    exact_mod_cast Int.emod_nonneg a (by omega)
  have hquot : (a : ℚ) / b = (a / b : Int) + ((a % b : Int) : ℚ) / b := by
    rw [← hdiv]
    field_simp
  have hfrac : ((a % b : Int) : ℚ) / b + binEpsilon < 1 := by
    rw [div_add' _ _ _ hbpos.ne', div_lt_one hbpos]
    have : binEpsilon * b ≤ 2220 / 10 ^ 16 * 2 ^ 32 :=
      mul_le_mul_of_nonneg_left hsmallq binEpsilon_pos.le
    have hlt : (2220 / 10 ^ 16 * 2 ^ 32 : ℚ) < 1 := by norm_num
    linarith
  refine truncReal_of_nonneg (Int.ediv_nonneg ha (by omega)) ?_ ?_
  · rw [hquot]
    have := div_nonneg hrem' hbpos.le
    linarith [binEpsilon_pos]
  · rw [hquot]
    linarith

/-- The index of an event is truncated as a whole, with the 1 that it is counted from. -/
theorem truncReal_index {a b k : Int} (ha : 0 ≤ a) (hb : 1 ≤ b) (hk : 0 ≤ k) :
    truncReal ((k : ℚ) + (a : ℚ) / b + 1) = k + a / b + 1 := by
  have hbpos : (0 : ℚ) < b := by exact_mod_cast (by omega : 0 < b)
  have hdiv : (b : ℚ) * (a / b : Int) + (a % b : Int) = a := by
    exact_mod_cast Int.mul_ediv_add_emod a b
  have hrem : ((a % b : Int) : ℚ) < b := by
    exact_mod_cast Int.emod_lt_of_pos a (by omega)
  have hrem' : (0 : ℚ) ≤ ((a % b : Int) : ℚ) := by
    exact_mod_cast Int.emod_nonneg a (by omega)
  have hquot : (a : ℚ) / b = (a / b : Int) + ((a % b : Int) : ℚ) / b := by
    rw [← hdiv]
    field_simp
  have hle := div_nonneg hrem' hbpos.le
  have hlt := (div_lt_one hbpos).mpr hrem
  have hnonneg := Int.ediv_nonneg ha (by omega : 0 ≤ b)
  apply truncReal_of_nonneg (by omega)
  · rw [hquot]
    push_cast
    linarith
  · rw [hquot]
    push_cast
    linarith

theorem line_and_place {w j k i x : Int} (hi : 0 ≤ i) (hiw : i < w) (hx : 0 ≤ x) (hxw : x < w)
    (heq : k * w + x = j * w + i) : k = j ∧ x = i := by
  have hw : w ≠ 0 := by omega
  have hline : k = j := by
    have hquot := congrArg (· / w) heq
    simpa [Int.add_comm, Int.add_mul_ediv_right _ _ hw, Int.ediv_eq_zero_of_lt hi hiw,
      Int.ediv_eq_zero_of_lt hx hxw] using hquot
  subst hline
  exact ⟨rfl, by omega⟩

/-- A rectangle with integer blocking factors that are not larger than its sides. -/
structure BlockedRect where
  vs : Int × Int
  ve : Int × Int
  xblock : Int
  yblock : Int
  machine : -(2 ^ 31) ≤ vs.1 ∧ -(2 ^ 31) ≤ vs.2 ∧ ve.1 < 2 ^ 31 ∧ ve.2 < 2 ^ 31
  xblock_pos : 1 ≤ xblock
  xblock_le : xblock ≤ ve.1 - vs.1 + 1
  yblock_pos : 1 ≤ yblock
  yblock_le : yblock ≤ ve.2 - vs.2 + 1

namespace BlockedRect

variable (r : BlockedRect)

def xw : Int := (r.ve.1 - r.vs.1 + 1) / r.xblock

def yw : Int := (r.ve.2 - r.vs.2 + 1) / r.yblock

def xbin (ev : Int × Int) : Int := (ev.1 - r.vs.1) / r.xblock

def ybin (ev : Int × Int) : Int := (ev.2 - r.vs.2) / r.yblock

def Contains (ev : Int × Int) : Prop :=
  (r.vs.1 ≤ ev.1 ∧ ev.1 ≤ r.ve.1) ∧ r.vs.2 ≤ ev.2 ∧ ev.2 ≤ r.ve.2

/-- Every pixel has grown by the number of the events that belong in it, and nothing else in the
output array has changed. -/
structure BinsExact (events : List (Int × Int)) (obuf out : Int → Int) : Prop where
  inside : ∀ i j, 0 ≤ i → i < r.xw → 0 ≤ j → j < r.yw →
    out (j * r.xw + i + 1) =
      obuf (j * r.xw + i + 1) + events.countP (fun ev => r.xbin ev = i ∧ r.ybin ev = j)
  outside : ∀ pix, pix < 1 ∨ r.xw * r.yw < pix → out pix = obuf pix

/-- An event in the partial block at the end of a line that is not the last line. -/
def Stray (ev : Int × Int) : Prop := r.xbin ev = r.xw ∧ r.ybin ev + 1 < r.yw

variable {r}

theorem xw_pos : 1 ≤ r.xw := by
  have hpos := r.xblock_pos
  exact (Int.le_ediv_iff_mul_le (by omega)).mpr (by simpa using r.xblock_le)

theorem yw_pos : 1 ≤ r.yw := by
  have hpos := r.yblock_pos
  exact (Int.le_ediv_iff_mul_le (by omega)).mpr (by simpa using r.yblock_le)

theorem Contains.xbin {ev : Int × Int} (hev : r.Contains ev) :
    0 ≤ r.xbin ev ∧ r.xbin ev ≤ r.xw := by
  have hpos := r.xblock_pos
  obtain ⟨⟨hlo, hhi⟩, -⟩ := hev
  exact ⟨Int.ediv_nonneg (by omega) (by omega), Int.ediv_le_ediv (by omega) (by omega)⟩

theorem Contains.ybin {ev : Int × Int} (hev : r.Contains ev) :
    0 ≤ r.ybin ev ∧ r.ybin ev ≤ r.yw := by
  have hpos := r.yblock_pos
  obtain ⟨-, hlo, hhi⟩ := hev
  exact ⟨Int.ediv_nonneg (by omega) (by omega), Int.ediv_le_ediv (by omega) (by omega)⟩

theorem eventPixel_int {ev : Int × Int} (hev : r.Contains ev) :
    eventPixel r.xw r.yw r.vs r.xblock r.yblock (ev.1, ev.2) =
      if r.ybin ev < r.yw ∧ r.ybin ev * r.xw + r.xbin ev + 1 ≤ r.xw * r.yw then
        some (r.ybin ev * r.xw + r.xbin ev + 1)
      else none := by
  have hmachine := r.machine
  have hxpos := r.xblock_pos
  have hypos := r.yblock_pos
  have hyle := r.yblock_le
  have hxw := xw_pos (r := r)
  have hxbin := hev.xbin
  have hybin := hev.ybin
  obtain ⟨⟨hxlo, hxhi⟩, hylo, hyhi⟩ := hev
  have hrow : truncReal (((ev.2 : ℚ) - r.vs.2) / r.yblock + binEpsilon) = r.ybin ev := by
    rw [← Int.cast_sub]
    exact truncReal_div (by omega) hypos (by omega)
  have hstart : 0 ≤ r.ybin ev * r.xw := Int.mul_nonneg hybin.1 (by omega)
  have hpix : truncReal ((r.ybin ev : ℚ) * r.xw + ((ev.1 : ℚ) - r.vs.1) / r.xblock + 1) =
      r.ybin ev * r.xw + r.xbin ev + 1 := by
    rw [← Int.cast_sub, ← Int.cast_mul]
    exact truncReal_index (by omega) hxpos hstart
  simp only [eventPixel, hrow, hpix]
  by_cases hy : r.ybin ev < r.yw
  · rw [if_pos ⟨hybin.1, hy⟩]
    simp only [hy, true_and]
    refine if_congr ?_ rfl rfl
    omega
  · rw [if_neg (by omega), if_neg (by omega)]

/-- The events that are counted in a pixel: those of the pixel, and for the first pixel of a line
those of the partial block at the end of the line before. -/
theorem eventPixel_eq_some_iff {ev : Int × Int} (hev : r.Contains ev) {i j : Int} (hi : 0 ≤ i)
    (hix : i < r.xw) (hj : 0 ≤ j) (hjy : j < r.yw) :
    eventPixel r.xw r.yw r.vs r.xblock r.yblock (ev.1, ev.2) = some (j * r.xw + i + 1) ↔
      (r.xbin ev = i ∧ r.ybin ev = j) ∨ (r.xbin ev = r.xw ∧ r.ybin ev + 1 = j ∧ i = 0) := by
  obtain ⟨hx, hxle⟩ := hev.xbin
  obtain ⟨hy, hyle⟩ := hev.ybin
  have hlast : (j + 1) * r.xw ≤ r.xw * r.yw := by
    rw [mul_comm r.xw]
    exact Int.mul_le_mul_of_nonneg_right (by omega) (by omega)
  rw [eventPixel_int hev]
  constructor
  · intro h
    split at h
    · have hindex : r.ybin ev * r.xw + r.xbin ev = j * r.xw + i := by
        have := Option.some.inj h
        omega
      rcases eq_or_lt_of_le hxle with hpart | hlt
      · obtain ⟨hline, hplace⟩ := line_and_place (k := r.ybin ev + 1) hi hix le_rfl (by omega)
          (by rw [← hindex, hpart]; ring)
        exact .inr ⟨hpart, hline, hplace.symm⟩
      · obtain ⟨hline, hplace⟩ := line_and_place hi hix hx hlt hindex
        exact .inl ⟨hplace, hline⟩
    · cases h
  · rintro (⟨rfl, rfl⟩ | ⟨hpart, rfl, rfl⟩)
    · rw [if_pos ⟨hjy, by linarith⟩]
    · rw [if_pos ⟨by omega, by linarith⟩, hpart]
      congr 1
      ring

/-- Without a stray event every pixel counts its own events, and nothing else. -/
theorem eventPixel_exact {ev : Int × Int} (hev : r.Contains ev) (hstray : ¬ r.Stray ev)
    {i j : Int} (hi : 0 ≤ i) (hix : i < r.xw) (hj : 0 ≤ j) (hjy : j < r.yw) :
    eventPixel r.xw r.yw r.vs r.xblock r.yblock (ev.1, ev.2) = some (j * r.xw + i + 1) ↔
      r.xbin ev = i ∧ r.ybin ev = j := by
  rw [eventPixel_eq_some_iff hev hi hix hj hjy]
  refine or_iff_left ?_
  rintro ⟨hpart, hline, -⟩
  exact hstray ⟨hpart, by omega⟩

theorem eventPixel_outside {ev : Int × Int} (hev : r.Contains ev) {pix : Int}
    (hpix : pix < 1 ∨ r.xw * r.yw < pix) :
    eventPixel r.xw r.yw r.vs r.xblock r.yblock (ev.1, ev.2) ≠ some pix := by
  have hx := hev.xbin
  have hstart : 0 ≤ r.ybin ev * r.xw := Int.mul_nonneg hev.ybin.1 (by omega)
  rw [eventPixel_int hev]
  intro h
  split at h
  · have := Option.some.inj h
    omega
  · cases h

theorem qpioReadpix_eq {evtype : EvType} (hty : evtype ≠ .other) (batches : List (List (Int × Int)))
    (obuf : Int → Int) :
    ∃ out totev, qpioReadpix evtype evtype
        (batches.map (List.map fun ev => ((ev.1 : ℚ), (ev.2 : ℚ)))) obuf r.vs r.ve
        r.xblock r.yblock = .ok (out, totev) ∧
      ∀ pix, out pix = obuf pix + batches.flatten.countP (fun ev =>
        eventPixel r.xw r.yw r.vs r.xblock r.yblock (ev.1, ev.2) = some pix) := by
  have hmachine := r.machine
  have hxpos := r.xblock_pos
  have hxle := r.xblock_le
  have hypos := r.yblock_pos
  have hyle := r.yblock_le
  have hxw : truncReal ((r.ve.1 - r.vs.1 + 1 : Int) / (r.xblock : ℚ) + binEpsilon) = r.xw :=
    truncReal_div (by omega) hxpos (by omega)
  have hyw : truncReal ((r.ve.2 - r.vs.2 + 1 : Int) / (r.yblock : ℚ) + binEpsilon) = r.yw :=
    truncReal_div (by omega) hypos (by omega)
  have hxblock : ¬ ((r.xblock : ℚ) ≤ 0 ∨ (r.xblock : ℚ) > (r.ve.1 - r.vs.1 + 1 : Int)) := by
    rw [not_or, not_le, not_lt]
    exact ⟨by exact_mod_cast hxpos, by exact_mod_cast hxle⟩
  have hyblock : ¬ ((r.yblock : ℚ) ≤ 0 ∨ (r.yblock : ℚ) > (r.ve.2 - r.vs.2 + 1 : Int)) := by
    rw [not_or, not_le, not_lt]
    exact ⟨by exact_mod_cast hypos, by exact_mod_cast hyle⟩
  have hsize : ¬ (r.xw ≤ 0 ∨ r.yw ≤ 0) := by
    have := xw_pos (r := r)
    have := yw_pos (r := r)
    omega
  rw [qpioReadpix, if_neg hxblock, if_neg hyblock]
  simp only [hxw, hyw, if_neg hsize, ne_eq, not_true_eq_false, if_false, if_neg hty]
  refine ⟨_, _, rfl, fun pix => ?_⟩
  rw [← foldl_countEvent, ← List.foldl_flatten, ← List.map_flatten, List.foldl_map]

/-- The events are counted where they belong exactly when none of them is in the partial block at
the end of a line that another line follows. -/
theorem binsExact_iff (r : BlockedRect) {evtype : EvType} (hty : evtype ≠ .other)
    (batches : List (List (Int × Int))) (hin : ∀ ev ∈ batches.flatten, r.Contains ev)
    (obuf : Int → Int) :
    (∃ out totev, qpioReadpix evtype evtype
        (batches.map (List.map fun ev => ((ev.1 : ℚ), (ev.2 : ℚ)))) obuf r.vs r.ve
        r.xblock r.yblock = .ok (out, totev) ∧ r.BinsExact batches.flatten obuf out) ↔
      ∀ ev ∈ batches.flatten, ¬ r.Stray ev := by
  obtain ⟨out, totev, hread, hout⟩ := qpioReadpix_eq (r := r) hty batches obuf
  constructor
  · rintro ⟨out', totev', hread', hexact⟩ ev hev ⟨hpart, hline⟩
    obtain ⟨rfl, -⟩ := Prod.mk.inj (Except.ok.inj (hread.symm.trans hread'))
    -- the first pixel of the next line has the stray event besides its own
    have hline0 : 0 ≤ r.ybin ev + 1 := by
      have := (hin ev hev).ybin
      omega
    have hxw : 0 < r.xw := xw_pos
    have hpix := hexact.inside 0 (r.ybin ev + 1) le_rfl hxw hline0 hline
    rw [hout] at hpix
    refine absurd (Int.ofNat.inj (Int.add_left_cancel hpix)) (countP_lt ?_ ⟨ev, hev, ?_, ?_⟩).ne'
    · intro a ha hbin
      rw [decide_eq_true_eq] at hbin ⊢
      exact (eventPixel_eq_some_iff (hin a ha) le_rfl hxw hline0 hline).mpr (.inl hbin)
    · rw [decide_eq_true_eq]
      exact (eventPixel_eq_some_iff (hin ev hev) le_rfl hxw hline0 hline).mpr
        (.inr ⟨hpart, rfl, rfl⟩)
    · rw [decide_eq_true_eq]
      omega
  · intro hstray
    refine ⟨out, totev, hread, ⟨fun i j hi hix hj hjy => ?_, fun pix hpix => ?_⟩⟩
    · rw [hout]
      congr 2
      refine List.countP_congr fun ev hev => ?_
      rw [decide_eq_true_eq, decide_eq_true_eq]
      exact eventPixel_exact (hin ev hev) (hstray ev hev) hi hix hj hjy
    · rw [hout, List.countP_eq_zero.mpr fun ev hev => ?_]
      · simp
      · rw [decide_eq_true_eq]
        exact eventPixel_outside (hin ev hev) hpix

/-- Five columns in blocks of two. -/
def fiveByTwo : BlockedRect where
  vs := (1, 1)
  ve := (5, 2)
  xblock := 2
  yblock := 1
  machine := by decide
  xblock_pos := by decide
  xblock_le := by decide
  yblock_pos := by decide
  yblock_le := by decide

theorem binsExact_fiveByTwo :
    (∃ out totev, qpioReadpix .short .short
        ([[(4, 1), (5, 2)], [(1, 2)]].map (List.map fun ev : Int × Int => ((ev.1 : ℚ), (ev.2 : ℚ))))
        0 fiveByTwo.vs fiveByTwo.ve fiveByTwo.xblock fiveByTwo.yblock = .ok (out, totev) ∧
      fiveByTwo.BinsExact [[(4, 1), (5, 2)], [(1, 2)]].flatten 0 out) ↔
      ∀ ev ∈ [[(4, 1), (5, 2)], [(1, 2)]].flatten, ¬ fiveByTwo.Stray ev :=
  binsExact_iff fiveByTwo (by decide) _ (by simp [Contains, fiveByTwo]) 0

/-- The event in the last column of the first line is counted in the second line. -/
theorem not_binsExact_lastColumn :
    ¬ ∃ out totev, qpioReadpix .short .short
        ([[(5, 1)]].map (List.map fun ev : Int × Int => ((ev.1 : ℚ), (ev.2 : ℚ))))
        0 fiveByTwo.vs fiveByTwo.ve fiveByTwo.xblock fiveByTwo.yblock = .ok (out, totev) ∧
      fiveByTwo.BinsExact [[(5, 1)]].flatten 0 out := by
  obtain ⟨out, totev, hread, hout⟩ :=
    @qpioReadpix_eq fiveByTwo .short (by decide) [[(5, 1)]] 0
  rintro ⟨out', totev', hread', hexact⟩
  obtain ⟨rfl, -⟩ := Prod.mk.inj (Except.ok.inj (hread.symm.trans hread'))
  have hev : fiveByTwo.Contains (5, 1) := by simp [Contains, fiveByTwo]
  have hpix := hexact.inside 0 1 le_rfl (by decide) (by decide) (by decide)
  have hcounted := (eventPixel_eq_some_iff hev (i := 0) (j := 1) le_rfl (by decide) (by decide)
    (by decide)).mpr (.inr (by decide))
  rw [hout, List.flatten_singleton, List.countP_singleton, List.countP_singleton, if_pos
    (decide_eq_true hcounted), if_neg (by decide)] at hpix
  cases hpix

end BlockedRect

end Iraf.Qpoe
