import Mathlib.Algebra.Order.Field.Rat
import Mathlib.Algebra.Order.Floor.Ring
import Mathlib.Data.Rat.Floor
import Iraf.Qpoe.RangeMerge

/-!
# The scale of a lookup table

`qpex_codegeni` compiles a long range list as a table of bins.  The number of
bins and the scale are fixed when the table is made; `qpex_evaluate` computes
the bin of a data value from the scale alone.  Real values are exact here.
-/

namespace Iraf.Qpoe

/-- A real value stored in an integer variable. -/
def truncReal (q : ℚ) : Int := if 0 ≤ q then ⌊q⌋ else ⌈q⌉

@[simp] theorem truncReal_intCast (n : Int) : truncReal (n : ℚ) = n := by
  simp [truncReal]

theorem truncReal_of_nonneg {q : ℚ} {n : Int} (hn : 0 ≤ n) (hlo : (n : ℚ) ≤ q)
    (hhi : q < n + 1) : truncReal q = n := by
  have hq : 0 ≤ q := le_trans (by exact_mod_cast hn) hlo
  rw [truncReal, if_pos hq]
  exact Int.floor_eq_iff.mpr ⟨hlo, hhi⟩

theorem truncReal_of_nonpos {q : ℚ} {n : Int} (hn : n ≤ 0) (hlo : (n : ℚ) - 1 < q)
    (hhi : q ≤ n) : truncReal q = n := by
  have hn' : (n : ℚ) ≤ 0 := by exact_mod_cast hn
  rcases (le_trans hhi hn').lt_or_eq with hq | rfl
  · rw [truncReal, if_neg (not_le.mpr hq)]
    exact Int.ceil_eq_iff.mpr ⟨hlo, hhi⟩
  · have hzero : n = 0 := le_antisymm hn (by exact_mod_cast hhi)
    simp [truncReal, hzero]

/-- The table-size settings of the expression descriptor. -/
structure LutSizes where
  maxFrLutLen : Int
  maxRrLutLen : Int
  lutMinRanges : Int
  lutScale : Int

/-- The part of the lookup table descriptor from which a bin is computed. -/
structure LutScaling where
  nbins : Int
  i0 : ℚ
  is : ℚ
  deriving DecidableEq

/-- `xmin`, the end of the first range when it is open on the left. -/
def lutXmin (rl : List (Int × Int)) : Int :=
  let r := rl.headD (0, 0)
  if intMarks.isLeft r.1 then r.2 else r.1

/-- `xmax`, the start of the last range when it is open on the right. -/
def lutXmax (rl : List (Int × Int)) : Int :=
  let r := rl.getLastD (0, 0)
  if intMarks.isRight r.2 then r.1 else r.2

def lutNbins (ex : LutSizes) (rl : List (Int × Int)) : Int :=
  let nbins := lutXmax rl - lutXmin rl + 1
  if nbins > ex.maxFrLutLen then min ex.maxRrLutLen (rl.length * ex.lutScale) else nbins

def lutScaling (ex : LutSizes) (rl : List (Int × Int)) : LutScaling where
  nbins := lutNbins ex rl
  i0 := lutXmin rl
  -- an integer division, stored in a real
  is := ((lutNbins ex rl).tdiv (lutXmax rl - lutXmin rl + 1) : Int)

namespace LutScaling

/-- The data interval `[x1,x2]` of a bin; a division by zero gives none. -/
def bin (lt : LutScaling) (i : Int) : Option (Int × Int) :=
  if lt.is = 0 then none
  else some (truncReal ((i - 1 : Int) / lt.is + lt.i0), truncReal (i / lt.is + lt.i0 - 1))

/-- Where `qpex_evaluate` takes the table value from. -/
inductive Place
  | left
  | right
  | lut (bin : Int)
  deriving DecidableEq

def place (lt : LutScaling) (i0 : Int) : Place :=
  let rbin := (i0 - truncReal lt.i0 : Int) * lt.is
  if rbin ≤ 0 then .left
  else
    let bin := truncReal rbin + 1
    if bin > lt.nbins then .right else .lut bin

/-- The intervals of the bins partition the data range and `v` is looked up in its own. -/
structure WellDefined (lt : LutScaling) (xmin xmax v : Int) : Prop where
  scale : lt.is ≠ 0
  interval : ∀ i, 1 ≤ i → i ≤ lt.nbins → ∃ x1 x2, lt.bin i = some (x1, x2) ∧ x1 ≤ x2
  cover : ∀ u, xmin ≤ u → u ≤ xmax →
    ∃ i x1 x2, 1 ≤ i ∧ i ≤ lt.nbins ∧ lt.bin i = some (x1, x2) ∧ x1 ≤ u ∧ u ≤ x2
  apart : ∀ i j x1 x2 y1 y2, 1 ≤ i → i < j → j ≤ lt.nbins →
    lt.bin i = some (x1, x2) → lt.bin j = some (y1, y2) → x2 < y1 ∨ y2 < x1
  lookup : ∃ i x1 x2, lt.place v = .lut i ∧ 1 ≤ i ∧ i ≤ lt.nbins ∧
    lt.bin i = some (x1, x2) ∧ x1 ≤ v ∧ v ≤ x2

variable {lt : LutScaling} {xmin xmax : Int}

theorem bin_of_scale_one (hi0 : lt.i0 = xmin) (his : lt.is = 1) (i : Int) :
    lt.bin i = some (xmin + i - 1, xmin + i - 1) := by
  have hstart : ((i - 1 : Int) : ℚ) / lt.is + lt.i0 = ((xmin + i - 1 : Int) : ℚ) := by
    rw [hi0, his]
    push_cast
    ring
  have hend : (i : ℚ) / lt.is + lt.i0 - 1 = ((xmin + i - 1 : Int) : ℚ) := by
    rw [hi0, his]
    push_cast
    ring
  rw [bin, if_neg (by rw [his]; exact one_ne_zero), hstart, hend, truncReal_intCast]

theorem place_of_scale_one (hi0 : lt.i0 = xmin) (his : lt.is = 1) {v : Int}
    (hv : xmin < v) (hbin : v - xmin < lt.nbins) :
    lt.place v = .lut (v - xmin + 1) := by
  have hrbin : ((v - truncReal lt.i0 : Int) : ℚ) * lt.is = ((v - xmin : Int) : ℚ) := by
    rw [hi0, his, truncReal_intCast, mul_one]
  have hpos : ¬ ((v - xmin : Int) : ℚ) ≤ 0 := by
    rw [not_le]
    exact_mod_cast sub_pos.mpr hv
  rw [place]
  simp only [hrbin, if_neg hpos, truncReal_intCast]
  rw [if_neg (by omega)]

theorem place_xmin (hi0 : lt.i0 = xmin) : lt.place xmin = .left := by
  rw [place, hi0, truncReal_intCast, sub_self]
  simp

theorem wellDefined_of_scale_one (hi0 : lt.i0 = xmin) (his : lt.is = 1)
    (hwidth : xmax - xmin + 1 ≤ lt.nbins) {v : Int} (hv : xmin < v) (hmax : v ≤ xmax) :
    lt.WellDefined xmin xmax v where
  scale := by
    rw [his]
    exact one_ne_zero
  interval i _ _ := ⟨_, _, bin_of_scale_one hi0 his i, le_rfl⟩
  cover u hlo hhi :=
    ⟨u - xmin + 1, _, _, by omega, by omega, bin_of_scale_one hi0 his _, by omega, by omega⟩
  apart i j x1 x2 y1 y2 _ hij _ hx hy := by
    rw [bin_of_scale_one hi0 his, Option.some.injEq, Prod.mk.injEq] at hx hy
    omega
  lookup :=
    ⟨v - xmin + 1, _, _, place_of_scale_one hi0 his hv (by omega), by omega, by omega,
      bin_of_scale_one hi0 his _, by omega, by omega⟩

theorem exists_empty_bin (hi0 : lt.i0 = xmin) {s : Int} (his : lt.is = s) (hs : 2 ≤ s) :
    ∃ i, 1 ≤ i ∧ i ≤ s + 1 ∧ lt.bin i = some (xmin + 1, xmin) := by
  have hs' : (2 : ℚ) ≤ s := by exact_mod_cast hs
  have hspos : (0 : ℚ) < s := by linarith
  have hinv : (0 : ℚ) < 1 / s := by positivity
  have hhalf : (1 : ℚ) / s ≤ 1 / 2 := one_div_le_one_div_of_le two_pos hs'
  have hscale : lt.is ≠ 0 := by
    rw [his]
    exact hspos.ne'
  rcases lt_or_ge xmin 0 with hneg | hpos
  · -- below zero a real is cut towards the next larger integer
    refine ⟨2, by omega, by omega, ?_⟩
    rw [bin, if_neg hscale, hi0, his]
    have hstart : truncReal (((2 - 1 : Int) : ℚ) / s + xmin) = xmin + 1 := by
      apply truncReal_of_nonpos (by omega)
      · push_cast
        linarith
      · push_cast
        linarith
    have hend : truncReal (((2 : Int) : ℚ) / s + xmin - 1) = xmin := by
      have hdouble : ((2 : Int) : ℚ) / s = 2 * (1 / s) := by
        push_cast
        ring
      apply truncReal_of_nonpos (by omega)
      · rw [hdouble]
        linarith
      · rw [hdouble]
        linarith
    rw [hstart, hend]
  · refine ⟨s + 1, by omega, le_rfl, ?_⟩
    rw [bin, if_neg hscale, hi0, his]
    have hstart : ((s + 1 - 1 : Int) : ℚ) / s + xmin = ((xmin + 1 : Int) : ℚ) := by
      push_cast
      rw [add_sub_cancel_right, div_self hspos.ne', add_comm]
    have hend : truncReal (((s + 1 : Int) : ℚ) / s + xmin - 1) = xmin := by
      have hone : ((s + 1 : Int) : ℚ) / s = 1 + 1 / s := by
        push_cast
        rw [add_div, div_self hspos.ne']
      apply truncReal_of_nonneg hpos
      · rw [hone]
        linarith
      · rw [hone]
        linarith
    rw [hstart, hend, truncReal_intCast]

end LutScaling

/-- A range list that `qpex_codegeni` compiles as a table; the ends of the table are finite. -/
structure Tabled (ex : LutSizes) (rl : List (Int × Int)) : Prop where
  maxFr : 0 < ex.maxFrLutLen
  maxRr : 0 < ex.maxRrLutLen
  lutScale : 0 < ex.lutScale
  several : 2 ≤ rl.length
  minRanges : ex.lutMinRanges ≤ rl.length
  lt : lutXmin rl < lutXmax rl

variable {ex : LutSizes} {rl : List (Int × Int)}

theorem Tabled.nbins_pos (h : Tabled ex rl) : 0 < lutNbins ex rl := by
  have hlt := h.lt
  have hlen : (0 : Int) < rl.length := by have := h.several; omega
  have hprod := mul_pos hlen h.lutScale
  have hrr := h.maxRr
  rw [lutNbins]
  split <;> omega

theorem Tabled.scale_eq_zero (h : Tabled ex rl)
    (hfew : lutNbins ex rl < lutXmax rl - lutXmin rl + 1) : (lutScaling ex rl).is = 0 := by
  rw [lutScaling, Int.tdiv_eq_zero_of_lt h.nbins_pos.le hfew, Int.cast_zero]

theorem Tabled.scale_eq_one (h : Tabled ex rl)
    (hwidth : lutXmax rl - lutXmin rl + 1 ≤ lutNbins ex rl)
    (hfew : lutNbins ex rl < 2 * (lutXmax rl - lutXmin rl + 1)) :
    (lutScaling ex rl).is = 1 := by
  have hlt := h.lt
  have hdiv : (lutNbins ex rl).tdiv (lutXmax rl - lutXmin rl + 1) = 1 := by
    rw [Int.tdiv_eq_ediv_of_nonneg h.nbins_pos.le]
    refine le_antisymm ?_ ?_
    · have := Int.ediv_lt_of_lt_mul (by omega) hfew
      omega
    · exact Int.le_ediv_of_mul_le (by omega) (by omega)
  simp only [lutScaling, hdiv, Int.cast_one]

theorem Tabled.two_le_scale (h : Tabled ex rl)
    (hmany : 2 * (lutXmax rl - lutXmin rl + 1) ≤ lutNbins ex rl) :
    2 ≤ (lutNbins ex rl).tdiv (lutXmax rl - lutXmin rl + 1) := by
  have hlt := h.lt
  rw [Int.tdiv_eq_ediv_of_nonneg h.nbins_pos.le]
  exact Int.le_ediv_of_mul_le (by omega) hmany

theorem Tabled.nbins_bounds_iff (h : Tabled ex rl) :
    (lutXmax rl - lutXmin rl + 1 ≤ lutNbins ex rl ∧
        lutNbins ex rl < 2 * (lutXmax rl - lutXmin rl + 1)) ↔
      lutXmax rl - lutXmin rl + 1 ≤ ex.maxFrLutLen ∨
        lutXmax rl - lutXmin rl + 1 ≤ min ex.maxRrLutLen (rl.length * ex.lutScale) ∧
          min ex.maxRrLutLen (rl.length * ex.lutScale) <
            2 * (lutXmax rl - lutXmin rl + 1) := by
  have hlt := h.lt
  rw [lutNbins]
  split <;> omega

theorem Tabled.not_wellDefined_of_many (h : Tabled ex rl) {v : Int}
    (hmany : 2 * (lutXmax rl - lutXmin rl + 1) ≤ lutNbins ex rl) :
    ¬ (lutScaling ex rl).WellDefined (lutXmin rl) (lutXmax rl) v := by
  intro hdef
  have hs := h.two_le_scale hmany
  have hlt := h.lt
  obtain ⟨i, hi, his, hbin⟩ :=
    @LutScaling.exists_empty_bin (lutScaling ex rl) (lutXmin rl) rfl _ rfl hs
  -- the bins of one unit scale more than fill the table
  have hfit : (lutNbins ex rl).tdiv (lutXmax rl - lutXmin rl + 1) + 1 ≤ lutNbins ex rl := by
    have hle := Int.ediv_mul_le (lutNbins ex rl)
      (show lutXmax rl - lutXmin rl + 1 ≠ 0 by omega)
    rw [← Int.tdiv_eq_ediv_of_nonneg h.nbins_pos.le] at hle
    nlinarith
  obtain ⟨x1, x2, hbin', hle⟩ := hdef.interval i hi (le_trans his hfit)
  rw [hbin, Option.some.injEq, Prod.mk.injEq] at hbin'
  omega

/-- The bins give the data values their own places, but not the lowest value, and only in a
table of at least as many and less than twice as many bins as there are data values. -/
theorem lutScaling_wellDefined_iff (h : Tabled ex rl) {v : Int} (hmin : lutXmin rl ≤ v)
    (hmax : v ≤ lutXmax rl) :
    (lutScaling ex rl).WellDefined (lutXmin rl) (lutXmax rl) v ↔
      lutXmin rl < v ∧
        (lutXmax rl - lutXmin rl + 1 ≤ ex.maxFrLutLen ∨
          lutXmax rl - lutXmin rl + 1 ≤ min ex.maxRrLutLen (rl.length * ex.lutScale) ∧
            min ex.maxRrLutLen (rl.length * ex.lutScale) <
              2 * (lutXmax rl - lutXmin rl + 1)) := by
  rw [← h.nbins_bounds_iff]
  constructor
  · intro hdef
    have hv : lutXmin rl < v := by
      refine lt_of_le_of_ne hmin ?_
      rintro rfl
      obtain ⟨i, -, -, hplace, -⟩ := hdef.lookup
      rw [LutScaling.place_xmin rfl] at hplace
      cases hplace
    have hwidth : lutXmax rl - lutXmin rl + 1 ≤ lutNbins ex rl := by
      by_contra hfew
      exact hdef.scale (h.scale_eq_zero (not_le.mp hfew))
    refine ⟨hv, hwidth, ?_⟩
    by_contra hmany
    exact h.not_wellDefined_of_many (not_lt.mp hmany) hdef
  · rintro ⟨hv, hwidth, hfew⟩
    exact LutScaling.wellDefined_of_scale_one rfl (h.scale_eq_one hwidth hfew) hwidth hv hmax

/-- The table-size settings of a new expression descriptor. -/
def defaultLutSizes : LutSizes where
  maxFrLutLen := 8192
  maxRrLutLen := 1024
  lutMinRanges := 5
  lutScale := 15

def fivePoints : List (Int × Int) := [(1, 1), (3, 3), (5, 5), (7, 7), (9, 9)]

def fiveFarPoints : List (Int × Int) :=
  [(1, 1), (3, 3), (5, 5), (7, 7), (100000, 100000)]

theorem tabled_fivePoints : Tabled defaultLutSizes fivePoints := by
  constructor <;> decide

theorem tabled_fiveFarPoints : Tabled defaultLutSizes fiveFarPoints := by
  constructor <;> decide

theorem lutScaling_wellDefined_five :
    (lutScaling defaultLutSizes fivePoints).WellDefined 1 9 5 ↔
      (1 : Int) < 5 ∧ ((9 : Int) - 1 + 1 ≤ 8192 ∨
        (9 : Int) - 1 + 1 ≤ min 1024 (5 * 15) ∧
          min 1024 (5 * 15) < 2 * ((9 : Int) - 1 + 1)) :=
  lutScaling_wellDefined_iff tabled_fivePoints (by decide) (by decide)

/-- Five values spread over a wide range: the scale is an integer division that gives zero. -/
theorem not_wellDefined_fiveFarPoints :
    Tabled defaultLutSizes fiveFarPoints ∧
      (lutScaling defaultLutSizes fiveFarPoints).is = 0 ∧
      ¬ (lutScaling defaultLutSizes fiveFarPoints).WellDefined 1 100000 7 := by
  have hscale : (lutScaling defaultLutSizes fiveFarPoints).is = 0 :=
    tabled_fiveFarPoints.scale_eq_zero (by decide)
  exact ⟨tabled_fiveFarPoints, hscale, fun hdef => hdef.scale hscale⟩

end Iraf.Qpoe
