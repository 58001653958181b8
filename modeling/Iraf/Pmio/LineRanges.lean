import Iraf.Plio.LineGet
import Iraf.Pmio.Region

/-!
# The ranges of the lines of a region

What `mio_glseg` asks of the mask about a line of a region: whether the line has pixels
in the region, and the ranges of its pixels there.
-/

namespace Iraf.Plio

open Odometer

/-- The ranges of the line through `w`, in the region. -/
def lineRanges (m : Mask) (axlen v1 v2 : List Int) (ndim : Nat) (w : List Int) : List RlElem :=
  (plL2r (m.ll (m.lpAt ((lineNumber axlen w : Int) + 1))) (sectAxis v1 v2 ndim 1).1
    (sectAxis v1 v2 ndim 1).2).tail

section Line

variable {m : Mask} {axlen v1 v2 w : List Int} {rows : List (List Int)} {ndim : Nat}

theorem word_append {l r : List Int} {i : Nat} (hi : 1 ≤ i) (hl : i ≤ l.length) :
    word (l ++ r) i = word l i := by
  have hindex : ((i : Int) - 1).toNat < l.length := by omega
  rw [word, word, List.getD_append _ _ _ _ hindex]

theorem word_take {l : List Int} {i n : Nat} (hi : 1 ≤ i) (hn : i ≤ n) :
    word (l.take n) i = word l i := by
  have hindex : ((i : Int) - 1).toNat < n := by omega
  rw [word, word, List.getD_eq_getElem?_getD, List.getD_eq_getElem?_getD,
    List.getElem?_take_of_lt hindex]

theorem maskPixel_cons (hw : w.length = axlen.length) (x : Int) :
    maskPixel axlen rows (x :: w.tail) =
      (rows.getD (lineNumber axlen w) []).getD (x - 1).toNat 0 := by
  have hnumber : lineNumber axlen (x :: w.tail) = lineNumber axlen w := by
    apply lineNumber_congr
    intro i hlo hhi
    obtain ⟨y, t, rfl⟩ := List.exists_cons_of_length_pos (show 0 < w.length by omega)
    obtain ⟨j, rfl⟩ : ∃ j, i = j + 1 := ⟨i - 1, by omega⟩
    rw [List.tail_cons, word_cons_succ _ _ (by omega), word_cons_succ _ _ (by omega)]
  rw [maskPixel, hnumber]
  rfl

theorem onLine_append (hw : w.length = axlen.length) (rest : List Int) :
    OnLine axlen (w ++ rest) ↔ OnLine axlen w := by
  refine forall_congr' fun i => forall_congr' fun hlo => forall_congr' fun hhi => ?_
  rw [word_append (by omega) (by omega)]

theorem lineNumber_append (hw : w.length = axlen.length) (rest : List Int) :
    lineNumber axlen (w ++ rest) = lineNumber axlen w :=
  lineNumber_congr fun i hlo hhi => word_append (by omega) (by omega)

variable (hax : Axes axlen) (hm : m.Draws axlen rows) (hv1 : InMask axlen v1 ndim)
  (hv2 : InMask axlen v2 ndim)
include hax hm hv1 hv2

theorem lineRanges_spec (hpx : ∀ line ∈ rows, ∀ p ∈ line, 0 ≤ p)
    (hw : w.length = axlen.length) (hon : OnLine axlen w) :
    plL2r (m.ll (m.lpAt ((lineNumber axlen w : Int) + 1))) (sectAxis v1 v2 ndim 1).1
        (sectAxis v1 v2 ndim 1).2 =
      ⟨(lineRanges m axlen v1 v2 ndim w).length + 1, (sectAxis v1 v2 ndim 1).2, 0⟩ ::
        lineRanges m axlen v1 v2 ndim w ∧
      RangesFrom ((sectAxis v1 v2 ndim 1).1 + (sectAxis v1 v2 ndim 1).2 - 1)
        (sectAxis v1 v2 ndim 1).1 (lineRanges m axlen v1 v2 ndim w) ∧
      (∀ r ∈ lineRanges m axlen v1 v2 ndim w, 0 < r.v) ∧
      ∀ x, (sectAxis v1 v2 ndim 1).1 ≤ x →
        x ≤ (sectAxis v1 v2 ndim 1).1 + (sectAxis v1 v2 ndim 1).2 - 1 →
        rangeValue (lineRanges m axlen v1 v2 ndim w) x = maskPixel axlen rows (x :: w.tail) := by
  obtain ⟨line, hrow, -, hencodes, hcount⟩ := hm.reference hax hon
  obtain ⟨hlo, hsize, hhi⟩ := sectAxis_bounds hax hv1 hv2 (Nat.le_refl 1) hax.1
  rw [Nat.cast_one] at hhi
  have hline := hpx line (List.mem_of_getElem? hrow)
  have hexact := rangesExact_of_encodes hencodes hline hlo hsize
  have hget : rows.getD (lineNumber axlen w) [] = line := by
    rw [List.getD_eq_getElem?_getD, hrow]
    rfl
  unfold lineRanges
  generalize hs : (sectAxis v1 v2 ndim 1).1 = s at *
  generalize hn : (sectAxis v1 v2 ndim 1).2 = n at *
  obtain ⟨a, rfl⟩ : ∃ a : Nat, s = a + 1 := ⟨(s - 1).toNat, by omega⟩
  obtain ⟨k, rfl⟩ : ∃ k : Nat, n = k := ⟨n.toNat, by omega⟩
  obtain ⟨rl, hrl, -⟩ := plL2r_of_encodes hencodes hline a (show 0 < k by omega)
  have hpixels := hexact.pixels
  rw [plL2p_eq_window hencodes (by omega) (by omega)] at hpixels
  refine ⟨by rw [hrl]; rfl, hexact.inside, hexact.positive, fun x hxlo hxhi => ?_⟩
  have hindex : (x - (a + 1)).toNat < k := by omega
  have hpixel := congrArg (·[(x - (a + 1)).toNat]?) hpixels
  simp only [rangePixels, window, List.getElem?_map, List.getElem?_take_of_lt hindex,
    List.getElem?_drop, Int.toNat_natCast, List.getElem?_range hindex, Option.map_some] at hpixel
  have hplace : a + (x - (a + 1)).toNat = (x - 1).toNat := by omega
  have hx : (a : Int) + 1 + (x - (a + 1)).toNat = x := by omega
  rw [hx, hplace] at hpixel
  rw [maskPixel_cons hw, hget, List.getD_eq_getElem?_getD, ← hpixel]
  rfl

theorem plGlr_line (hpx : ∀ line ∈ rows, ∀ p ∈ line, 0 ≤ p)
    (hw : w.length = axlen.length) (hfirst : word w 1 = (sectAxis v1 v2 ndim 1).1)
    (hon : OnLine axlen w) (rest : List Int) (rlDst : List RlElem) (depth : Int) :
    plGlr m (w ++ rest) rlDst depth (sectAxis v1 v2 ndim 1).2 pixSrc =
      .ok (⟨(lineRanges m axlen v1 v2 ndim w).length + 1, (sectAxis v1 v2 ndim 1).2, 0⟩ ::
        (lineRanges m axlen v1 v2 ndim w ++
          rlDst.drop ((lineRanges m axlen v1 v2 ndim w).length + 1))) := by
  obtain ⟨-, -, href, -, -⟩ := hm.reference hax ((onLine_append hw rest).mpr hon)
  obtain ⟨hlist, -, -, -⟩ := lineRanges_spec hax hm hv1 hv2 hpx hw hon
  have hneed : ¬ RNeedDst pixSrc := by decide
  have hx : word (w ++ rest) 1 = (sectAxis v1 v2 ndim 1).1 := by
    have hlen := hax.1
    have happend := @word_append w rest 1 (Nat.le_refl 1) (by omega)
    rw [Nat.cast_one] at happend
    rw [happend, hfirst]
  rw [lineNumber_append hw] at href
  simp only [plGlr, href, bind, Except.bind, if_pos hneed, hx, hlist]
  rfl

end Line

/-! ## Testing a line of the region -/

section Test

variable {m : Mask} {axlen v1 v2 w : List Int} {rows : List (List Int)} {ndim : Nat}
  (rest : List Int)

/-- The end of the line through `w` in the region. -/
def lineEnd (v1 v2 : List Int) (ndim : Nat) (v : List Int) : List Int :=
  (v.take ndim).set 0 ((sectAxis v1 v2 ndim 1).1 + (sectAxis v1 v2 ndim 1).2 - 1)

variable (hlo : 1 ≤ ndim) (hhi : ndim ≤ axlen.length)
  (hrow : Row axlen.length v1 v2 ndim w)
include hlo hhi hrow

theorem word_lineEnd_one : word (lineEnd v1 v2 ndim (w ++ rest)) 1 =
    (sectAxis v1 v2 ndim 1).1 + (sectAxis v1 v2 ndim 1).2 - 1 := by
  have hlen := hrow.length
  obtain ⟨x, t, rfl⟩ := List.exists_cons_of_length_pos (show 0 < w.length by omega)
  obtain ⟨n, rfl⟩ : ∃ n, ndim = n + 1 := ⟨ndim - 1, by omega⟩
  rfl

theorem word_lineEnd {i : Nat} (hi : 2 ≤ i) (hi' : i ≤ ndim) :
    word (lineEnd v1 v2 ndim (w ++ rest)) i = word w i := by
  have hlen := hrow.length
  obtain ⟨x, t, rfl⟩ := List.exists_cons_of_length_pos (show 0 < w.length by omega)
  obtain ⟨n, rfl⟩ : ∃ n, ndim = n + 1 := ⟨ndim - 1, by omega⟩
  obtain ⟨j, rfl⟩ : ∃ j, i = j + 1 := ⟨i - 1, by omega⟩
  rw [List.length_cons] at hlen
  change word (_ :: (t ++ rest).take n) (j + 1 : Nat) = _
  rw [word_cons_succ _ _ (by omega), word_cons_succ _ _ (by omega), word_take (by omega) (by omega),
    word_append (by omega) (by omega)]

theorem sectAxis_line (i : Nat) (hi : 1 ≤ i) (hi' : i ≤ axlen.length) :
    sectAxis (w ++ rest) (lineEnd v1 v2 ndim (w ++ rest)) ndim i =
      if i = 1 then sectAxis v1 v2 ndim 1 else (word w i, 1) := by
  have hsize := sectAxis_size v1 v2 ndim 1
  have hlen := hrow.length
  unfold sectAxis
  by_cases hone : i = 1
  · subst hone
    have hfirst := @word_append w rest 1 (Nat.le_refl 1) (by omega)
    rw [Nat.cast_one] at hfirst
    have hend := word_lineEnd_one rest hlo hhi hrow
    rw [if_pos hlo, if_pos rfl, Nat.cast_one, hend, hfirst, hrow.first, if_pos (by omega)]
    change _ = sectAxis v1 v2 ndim 1
    ext
    · rfl
    · simp only
      omega
  · rw [if_neg hone]
    by_cases hdim : i ≤ ndim
    · rw [if_pos hdim, word_append hi (by omega), word_lineEnd rest hlo hhi hrow (by omega) hdim,
        if_pos (Int.le_refl _)]
      ext
      · rfl
      · simp only
        omega
    · rw [if_neg hdim, hrow.rest i (by omega) hi']

theorem sectLines_line : sectLines axlen.length (w ++ rest)
    (lineEnd v1 v2 ndim (w ++ rest)) ndim = [w] := by
  have haxis := sectAxis_line rest hlo hhi hrow
  have hlen := hrow.length
  obtain ⟨x, t, rfl⟩ := List.exists_cons_of_length_pos (show 0 < w.length by omega)
  rw [List.length_cons] at hlen
  have hfirst : x = (sectAxis v1 v2 ndim 1).1 := hrow.first
  have hcoords : ∀ n : Nat, n = t.length →
      ((List.range n).map fun k => word (x :: t) (k + 2 : Nat)) = t := by
    rintro n rfl
    apply List.ext_getElem
    · simp
    · intro k hk hk'
      rw [List.getElem_map, List.getElem_range, word_eq_getElem (by omega) (by simp; omega)]
      rfl
  have hstart : ((List.range (axlen.length - 1)).map fun k =>
      (sectAxis (x :: t ++ rest) (lineEnd v1 v2 ndim (x :: t ++ rest)) ndim (k + 2)).1) = t := by
    refine Eq.trans (List.map_congr_left fun k hk => ?_) (hcoords (axlen.length - 1) (by omega))
    have hlt := List.mem_range.mp hk
    rw [haxis (k + 2) (by omega) (by omega), if_neg (by omega)]
  have hend : ((List.range (axlen.length - 1)).map fun k =>
      (sectAxis (x :: t ++ rest) (lineEnd v1 v2 ndim (x :: t ++ rest)) ndim (k + 2)).1 +
        (sectAxis (x :: t ++ rest) (lineEnd v1 v2 ndim (x :: t ++ rest)) ndim (k + 2)).2 - 1) =
      t := by
    refine Eq.trans (List.map_congr_left fun k hk => ?_) (hcoords (axlen.length - 1) (by omega))
    have hlt := List.mem_range.mp hk
    rw [haxis (k + 2) (by omega) (by omega), if_neg (by omega)]
    simp only
    omega
  rw [sectLines, hstart, hend, box_self, haxis 1 (Nat.le_refl 1) (by omega), if_pos rfl, hfirst]
  rfl

theorem sectnotempty_oob (hm : m.HasAxes axlen) (hax : Axes axlen) (htwo : 2 ≤ ndim)
    (hout : word axlen ndim < word w ndim) :
    plSectnotempty m (w ++ rest) (lineEnd v1 v2 ndim (w ++ rest)) ndim 1 =
      some (.error .plrefoob) := by
  have hnaxes := hm.1
  have hmax := hax.2.1
  have haxis := sectAxis_line rest hlo hhi hrow ndim (by omega) hhi
  rw [if_neg (by omega)] at haxis
  have hstart : word (plsslv m (sectVectors (w ++ rest) (lineEnd v1 v2 ndim (w ++ rest)) ndim).1
      (sectVectors (w ++ rest) (lineEnd v1 v2 ndim (w ++ rest)) ndim).2).1 ndim =
        word w ndim := by
    rw [plsslv, sectVectors, hnaxes]
    simp only
    rw [word_take (by omega) hhi, word_map_range _ (by omega) (by omega),
      Nat.sub_add_cancel (by omega), haxis]
  have herror : plReference m
      (plsslv m (sectVectors (w ++ rest) (lineEnd v1 v2 ndim (w ++ rest)) ndim).1
        (sectVectors (w ++ rest) (lineEnd v1 v2 ndim (w ++ rest)) ndim).2).1 =
        .error .plrefoob := by
    rw [plReference, lineIndex_oob hm htwo hhi (by rw [hstart]; exact hout)]
    rfl
  unfold plSectnotempty
  simp only [StepMachine.run, turn, notemptyLine, herror, bind, Except.bind]

variable (hax : Axes axlen) (hm : m.Draws axlen rows) (hv1 : InMask axlen v1 ndim)
  (hv2 : InMask axlen v2 ndim)
include hax hm hv1 hv2

/-- A line without pixels in the region is the only kind that is passed over. -/
theorem sectnotempty_line (hlen : word axlen 1 ≤ arb) (hon : OnLine axlen w) :
    ∃ b, plSectnotempty m (w ++ rest) (lineEnd v1 v2 ndim (w ++ rest)) ndim 1 = some (.ok b) ∧
      (b = false → ∀ x, (sectAxis v1 v2 ndim 1).1 ≤ x →
        x ≤ (sectAxis v1 v2 ndim 1).1 + (sectAxis v1 v2 ndim 1).2 - 1 →
        maskPixel axlen rows (x :: w.tail) = 0) := by
  have haxis := sectAxis_line rest hlo hhi hrow
  have hlines := sectLines_line rest hlo hhi hrow
  obtain ⟨hstart, hsize, hend⟩ := sectAxis_bounds hax hv1 hv2 (Nat.le_refl 1) hax.1
  rw [Nat.cast_one] at hend
  have hlength := hrow.length
  have hfirst := @word_append w rest 1 (Nat.le_refl 1) (by omega)
  rw [Nat.cast_one] at hfirst
  have hw1 : InMask axlen (w ++ rest) ndim := by
    intro i hi hi' hdim
    rcases Nat.lt_or_ge i 2 with hone | htwo
    · obtain rfl : i = 1 := by omega
      rw [Nat.cast_one, hfirst, hrow.first]
      omega
    · rw [word_append hi (by omega)]
      exact hon i htwo hi'
  have hw2 : InMask axlen (lineEnd v1 v2 ndim (w ++ rest)) ndim := by
    intro i hi hi' hdim
    rcases Nat.lt_or_ge i 2 with hone | htwo
    · obtain rfl : i = 1 := by omega
      rw [Nat.cast_one, word_lineEnd_one rest hlo hhi hrow]
      omega
    · rw [word_lineEnd rest hlo hhi hrow htwo hdim]
      exact hon i htwo hi'
  refine ⟨_, plSectnotempty_run hax hm hw1 hw2 (by rw [hlines]; exact Nat.le_refl 1), ?_⟩
  intro hfalse x hxlo hxhi
  rw [decide_eq_false_iff_not, hlines] at hfalse
  have hmem : w ∈ sectLines axlen.length (w ++ rest) (lineEnd v1 v2 ndim (w ++ rest)) ndim := by
    rw [hlines]
    exact List.mem_singleton.mpr rfl
  have hblank : LineBlank axlen rows (w ++ rest) (lineEnd v1 v2 ndim (w ++ rest)) ndim w := by
    by_contra hpixels
    exact hfalse ⟨w, List.mem_singleton.mpr rfl,
      (lineFlagged_iff hax hm hlen hw1 hw2 hmem).mpr (.inr hpixels)⟩
  rw [maskPixel_cons hlength]
  unfold LineBlank at hblank
  rw [haxis 1 (Nat.le_refl 1) hax.1, if_pos rfl] at hblank
  exact hblank x hxlo hxhi

end Test

end Iraf.Plio
