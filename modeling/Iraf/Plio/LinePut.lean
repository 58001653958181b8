import Iraf.Plio.LineRopCodec
import Iraf.Plio.LostZeros
import Iraf.Plio.RangesToLine
import Iraf.Plio.RopAgreement

/-!
# Writing a segment of a mask line

`pl_plp`, `pl_plr` and `pl_plls` store the list they are given, or made of the pixels or
ranges they are given, when the rasterop does not need the old line and the segment is
the whole line; else they store the result of `pl_linerop`.
-/

namespace Iraf.Plio

open IntBits

/-- The arguments of the three procedures, with what they read of the mask: `PL_MAXVAL`,
`PL_AXLEN(pl,1)` and the list that `pl_access` finds. -/
structure LinePut where
  maxval : Int
  axlen : Int
  old : List Int
  v1 : Int
  depth : Int
  npix : Int
  rop : Int

/-- The arguments passed to `pl_linerop`. -/
def LinePut.ropArgs (a : LinePut) (llSrc : List Int) : RopArgs (List Int) :=
  { src := llSrc, xs := 1, srcMaxval := a.maxval, dst := a.old, ds := a.v1,
    dstMaxval := mv a.depth, npix := a.npix, rop := a.rop }

/-- The segment replaces the line. -/
abbrev LinePut.Direct (a : LinePut) : Prop :=
  ¬ RNeedDst a.rop ∧ a.v1 = 1 ∧ a.npix = a.axlen

/-- The list passed to `pl_update`. -/
def LinePut.store (a : LinePut) (llSrc : List Int) : List Int :=
  if a.Direct then llSrc else plLinerop (a.ropArgs llSrc)

def plPlp (a : LinePut) (px : Int → Int) : List Int := a.store (plP2l px 1 a.npix)

def plPlr (a : LinePut) (rl : List RlElem) : List Int := a.store (plR2l rl 1 a.npix)

def plPlls (a : LinePut) (ll : List Int) : List Int := a.store ll

/-! ## Rasterops that do not need the destination -/

theorem need_opcode {rop : Int} (hrop : 0 ≤ rop) :
    (RNeedDst rop ↔ RNeedDst (rOpcode rop)) ∧ (RNeedSrc rop ↔ RNeedSrc (rOpcode rop)) := by
  obtain ⟨n, rfl⟩ := Int.eq_ofNat_of_zero_le hrop
  have hdst : (n / 2 ^^^ n) &&& 5 = ((n &&& 15) / 2 ^^^ (n &&& 15)) &&& 5 := by
    apply Nat.eq_of_testBit_eq
    intro i
    simp only [Nat.testBit_and, Nat.testBit_xor, ← Nat.testBit_succ]
    rcases i with _ | _ | _ | i
    · simp [Nat.testBit_succ]
    · simp [Nat.testBit_succ]
    · simp [Nat.testBit_succ]
    · have hout : Nat.testBit 5 (i + 1 + 1 + 1) = false := by
        rw [Nat.testBit_succ, Nat.testBit_succ, Nat.testBit_succ]
        simp
      simp [hout]
  have hsrc : (n / 4 ^^^ n) &&& 3 = ((n &&& 15) / 4 ^^^ (n &&& 15)) &&& 3 := by
    have hquarter : ∀ m : Nat, m / 4 = m / 2 / 2 := by omega
    apply Nat.eq_of_testBit_eq
    intro i
    simp only [Nat.testBit_and, Nat.testBit_xor, hquarter, ← Nat.testBit_succ]
    rcases i with _ | _ | i
    · simp [Nat.testBit_succ]
    · simp [Nat.testBit_succ]
    · have hout : Nat.testBit 3 (i + 1 + 1) = false := by
        rw [Nat.testBit_succ, Nat.testBit_succ]
        simp
      simp [hout]
  constructor
  · change ¬ (((n / 2 ^^^ n) &&& 5 : Nat) : Int) = 0 ↔
      ¬ ((((n &&& 15) / 2 ^^^ (n &&& 15)) &&& 5 : Nat) : Int) = 0
    rw [hdst]
  · change ¬ (((n / 4 ^^^ n) &&& 3 : Nat) : Int) = 0 ↔
      ¬ ((((n &&& 15) / 4 ^^^ (n &&& 15)) &&& 3 : Nat) : Int) = 0
    rw [hsrc]

theorem opcode_of_noDst {rop : Int} (hrop : 0 ≤ rop) (h : ¬ RNeedDst rop) :
    rOpcode rop = pixClr ∨ rOpcode rop = pixSet ∨ rOpcode rop = pixSrc ∨
      rOpcode rop = pixNotsrc := by
  rw [(need_opcode hrop).1] at h
  have hcases := opcode_cases rop
  generalize rOpcode rop = opcode at h hcases ⊢
  rcases hcases with rfl | rfl | rfl | rfl | rfl | rfl | rfl | rfl | rfl | rfl | rfl | rfl |
    rfl | rfl | rfl | rfl
  all_goals first | exact absurd (by decide) h | simp

section NoDst

variable {rop : Int} (hrop : 0 ≤ rop) (hneed : ¬ RNeedDst rop)

include hrop hneed in
theorem ropPixel_noDst (srcMaxval dstMaxval v w : Int) :
    ropPixel rop srcMaxval dstMaxval v w = ropMask dstMaxval
      (if rOpcode rop = pixClr then 0 else if rOpcode rop = pixSet then rData rop
        else ropSrc rop srcMaxval dstMaxval v) := by
  have hsrc := (need_opcode hrop).2
  rcases opcode_of_noDst hrop hneed with hop | hop | hop | hop
  · simp [ropPixel, applyRop, hop]
  · simp [ropPixel, applyRop, hop]
  · have hneedSrc : RNeedSrc rop := hsrc.mpr (by rw [hop]; decide)
    simp only [ropPixel, if_pos hneedSrc, hop]
    rfl
  · have hneedSrc : RNeedSrc rop := hsrc.mpr (by rw [hop]; decide)
    simp only [ropPixel, if_pos hneedSrc, hop]
    rfl

theorem ropMask_zero (dstMaxval : Int) : ropMask dstMaxval 0 = 0 := by
  have hland : Int.land dstMaxval 0 = 0 := by
    apply eq_of_testBit
    intro i
    rw [Int.testBit_land, testBit_zero, Bool.and_false]
  unfold ropMask
  rw [hland]
  simp

theorem ropMask_not {srcMaxval dstMaxval : Int} (hbool : dstMaxval ≠ 1) :
    ropMask dstMaxval (Int.land (Int.lnot (ropMask dstMaxval srcMaxval)) srcMaxval) = 0 := by
  unfold ropMask
  by_cases hdeep : dstMaxval > 1
  · simp only [hbool, hdeep, false_and, if_false, if_true]
    apply eq_of_testBit
    intro i
    simp only [Int.testBit_land, Int.testBit_lnot, testBit_zero]
    cases dstMaxval.testBit i <;> cases srcMaxval.testBit i <;> rfl
  · simp only [hbool, hdeep, false_and, if_false]
    apply eq_of_testBit
    intro i
    simp only [Int.testBit_land, Int.testBit_lnot, testBit_zero]
    cases srcMaxval.testBit i <;> rfl

theorem land_lnot_zero (v : Int) : Int.land (Int.lnot 0) v = v := by
  apply eq_of_testBit
  intro i
  rw [Int.testBit_land, Int.testBit_lnot, testBit_zero, Bool.not_false, Bool.true_and]

theorem land_one (v : Int) : Int.land v 1 = 0 ∨ Int.land v 1 = 1 := by
  have hcomm : Int.land v 1 = Int.land 1 v := by
    apply eq_of_testBit
    intro i
    rw [Int.testBit_land, Int.testBit_land, Bool.and_comm]
  have hrange := land_nonneg_left (m := 1) (by decide) v
  omega

include hrop hneed in
/-- The pixelwise image of zero is zero, or is taken to zero, or is the only other
value. -/
theorem ropPixel_image {srcMaxval : Int} (hmaxval : 1 ≤ srcMaxval) (dstMaxval w : Int)
    {f : Int → Int} (hf : ∀ v, f v = ropPixel rop srcMaxval dstMaxval v w) :
    f 0 = 0 ∨ f (f 0) = 0 ∨ (f (f 0) = f 0 ∧ ∀ v, f v = 0 ∨ f v = f 0) := by
  have hrule : ∀ v, f v = ropMask dstMaxval
      (if rOpcode rop = pixClr then 0 else if rOpcode rop = pixSet then rData rop
        else ropSrc rop srcMaxval dstMaxval v) :=
    fun v => (hf v).trans (ropPixel_noDst hrop hneed srcMaxval dstMaxval v w)
  -- Only two values, one of them that of zero: enough in any case.
  have htwo : (∀ v, f v = 0 ∨ f v = f 0) →
      f 0 = 0 ∨ f (f 0) = 0 ∨ (f (f 0) = f 0 ∧ ∀ v, f v = 0 ∨ f v = f 0) := by
    intro hvalues
    rcases hvalues (f 0) with hzero | hsame
    · exact .inr (.inl hzero)
    · exact .inr (.inr ⟨hsame, hvalues⟩)
  have hnotsrc : RNotsrc rop ↔ RNotsrc (rOpcode rop) := by
    rw [RNotsrc, land_rOpcode]
  rcases opcode_of_noDst hrop hneed with hop | hop | hop | hop
  · left
    rw [hrule, if_pos hop, ropMask_zero]
  · apply htwo
    intro v
    right
    simp [hrule, hop]
  · left
    have hplain : ¬ RNotsrc rop := by
      rw [hnotsrc, hop]
      decide
    have hsrc : ropSrc rop srcMaxval dstMaxval 0 = 0 := by
      simp [ropSrc, hplain]
    rw [hrule, hop, hsrc]
    exact ropMask_zero dstMaxval
  · have hnot : RNotsrc rop := by
      rw [hnotsrc, hop]
      decide
    have hmax : srcMaxval ≠ 0 := by omega
    have hsrc : ∀ v, f v = ropMask dstMaxval
        (if Int.land (Int.lnot v) srcMaxval ≠ 0 ∧ srcMaxval = 1 then srcValue rop dstMaxval
          else Int.land (Int.lnot v) srcMaxval) := by
      intro v
      rw [hrule, hop]
      simp only [ropSrc, notPixel, if_pos hnot, if_pos hmax]
      rfl
    by_cases hone : srcMaxval = 1
    · apply htwo
      intro v
      rw [hsrc v, hsrc 0, hone, land_lnot_zero]
      rcases land_one (Int.lnot v) with hbit | hbit
      · left
        rw [hbit]
        exact ropMask_zero dstMaxval
      · right
        rw [hbit]
    · have hdeep : ∀ v, f v = ropMask dstMaxval (Int.land (Int.lnot v) srcMaxval) := by
        intro v
        rw [hsrc, if_neg fun h => hone h.2]
      by_cases hbool : dstMaxval = 1
      · apply htwo
        intro v
        rw [hdeep v, hdeep 0, land_lnot_zero, hbool]
        unfold ropMask
        simp only [true_and, ne_eq, hmax, not_false_eq_true, if_true]
        split
        case isTrue => exact .inr rfl
        case isFalse hzero => simp [not_not.mp hzero]
      · right
        left
        rw [hdeep 0, land_lnot_zero, hdeep]
        exact ropMask_not hbool

end NoDst

theorem mv_range {depth : Int} (hdepth : 0 ≤ depth) :
    mv depth = 0 ∨ (1 ≤ mv depth ∧ mv depth ≤ iPvmax) := by
  by_cases hzero : depth = 0
  · left
    rw [hzero]
    rfl
  · right
    exact mask_range (d := (min depth 27).toNat) (by omega) rfl

theorem ropPixel_pixel {rop : Int} (hrop : 0 ≤ rop ∧ rop < 2147483648)
    (hneed : ¬ RNeedDst rop) {srcMaxval : Int} (hmaxval : 1 ≤ srcMaxval ∧ srcMaxval ≤ iPvmax)
    {depth : Int} (hdepth : 0 ≤ depth) {v : Int} (hv : Pixel v) (w : Int) :
    Pixel (ropPixel rop srcMaxval (mv depth) v w) := by
  rcases mv_range hdepth with hzero | ⟨hone, hmax⟩
  · have hdata : Pixel (rData rop) := by
      unfold rData
      rw [Int.tdiv_eq_ediv_of_nonneg hrop.1]
      exact ⟨by omega, by simp only [iPvmax]; omega⟩
    have hnot : Pixel (notPixel srcMaxval v) := by
      have hcomm : notPixel srcMaxval v = Int.land srcMaxval (Int.lnot v) := by
        rw [notPixel, if_pos (by omega)]
        apply eq_of_testBit
        intro i
        rw [Int.testBit_land, Int.testBit_land, Bool.and_comm]
      have hrange := land_nonneg_left (m := srcMaxval) (by omega) (Int.lnot v)
      rw [hcomm]
      exact ⟨hrange.1, by omega⟩
    have hvalue : Pixel (srcValue rop 0) := by
      unfold srcValue
      split
      · exact ⟨by decide, by decide⟩
      · exact hdata
    rw [ropPixel_noDst hrop.1 hneed, hzero, ropMask, if_neg (by simp), if_neg (by decide)]
    split
    · exact ⟨by decide, by decide⟩
    split
    · exact hdata
    · have hsource : Pixel (if RNotsrc rop then notPixel srcMaxval v else v) := by
        split
        · exact hnot
        · exact hv
      unfold ropSrc
      generalize (if RNotsrc rop then notPixel srcMaxval v else v) = u at hsource ⊢
      dsimp only
      split
      · exact hvalue
      · exact hsource
  · have hrange := ropPixel_range hone rop srcMaxval v w
    exact ⟨hrange.1, Int.le_trans hrange.2 hmax⟩

/-! ## The direct branch -/

/-- The rasterop's rule leaves every pixel of the segment as it is (zero where the old
line has ended), and the line it gives loses no zeros when it is encoded. -/
structure LinePut.Keeps (a : LinePut) (src old : List Int) : Prop where
  pixels : ∀ k : Nat, k < a.npix → src.getD k 0 =
    if k < old.length then
      ropPixel a.rop a.maxval (mv a.depth) (src.getD k 0) (old.getD k 0)
    else 0
  whole : NoFullPn (roppedLine (a.ropArgs []) src old)

theorem plL2p_eq_map {ll line : List Int} (h : Encodes ll line) {n : Nat} (hn : 0 < n) :
    plL2p ll 1 n = (List.range n).map fun k => line.getD k 0 := by
  have hread := plL2p_of_encodes h 0 hn
  have hlen : (window 0 n line).length = min n line.length := by simp [window]
  have hone : ((0 : Nat) : Int) + 1 = 1 := rfl
  rw [hone] at hread
  rw [hread]
  apply List.ext_getElem
  · rw [List.length_append, List.length_replicate, List.length_map, List.length_range]
    omega
  · intro k hk hk'
    rw [List.getElem_map, List.getElem_range]
    by_cases hin : k < (window 0 n line).length
    · rw [List.getElem_append_left hin, List.getD_eq_getElem _ _ (by omega)]
      simp [window]
    · rw [List.getElem_append_right (by omega), List.getElem_replicate,
        List.getD_eq_default]
      rw [List.length_map, List.length_range] at hk'
      omega

theorem plL2p_eq_iff {ll ll' line line' : List Int} (h : Encodes ll line)
    (h' : Encodes ll' line') {n : Nat} (hn : 0 < n) :
    plL2p ll 1 n = plL2p ll' 1 n ↔ ∀ k < n, line.getD k 0 = line'.getD k 0 := by
  rw [plL2p_eq_map h hn, plL2p_eq_map h' hn]
  simp [List.map_inj_left]

section Direct

variable {a : LinePut} {old : List Int} (hdirect : a.Direct)
  (hrop : 0 ≤ a.rop ∧ a.rop < 2147483648) (hmaxval : 1 ≤ a.maxval ∧ a.maxval ≤ iPvmax)
  (hdepth : 0 ≤ a.depth) (hold : Encodes a.old old) (holdlen : (old.length : Int) ≤ a.npix)
  (hnpix : 1 ≤ a.npix ∧ a.npix < arb)

include hdirect hrop hmaxval hdepth hold holdlen hnpix in
theorem store_eq_linerop_iff {ll line src : List Int} (hll : Encodes ll line)
    (hline : ∀ v ∈ line, Pixel v) (hlinelen : line.length ≤ arb)
    (hout : (plLinerop (a.ropArgs ll)).length < 2 ^ 30)
    (hsrc : ∀ k : Nat, k < a.npix → line.getD k 0 = src.getD k 0) :
    plL2p (a.store ll) 1 a.npix = plL2p (plLinerop (a.ropArgs ll)) 1 a.npix ↔
      a.Keeps src old := by
  obtain ⟨hneed, hv1, -⟩ := id hdirect
  obtain ⟨n, hn⟩ : ∃ n : Nat, a.npix = n := ⟨a.npix.toNat, by omega⟩
  have hresult : roppedLine (a.ropArgs ll) line old =
      roppedLine (a.ropArgs []) src old := by
    apply List.ext_getElem
    · simp
    · intro k hk hk'
      rw [length_roppedLine] at hk
      have hindex : (1 - 1 + ((k : Int) + 1 - a.v1)).toNat = k := by omega
      have hcover : a.v1 ≤ (k : Int) + 1 ∧ (k : Int) + 1 < a.v1 + a.npix := by omega
      simp only [roppedLine, List.getElem_mapIdx, LinePut.ropArgs, hindex, if_pos hcover]
      rw [hsrc k (by omega)]
  have hpixel : ∀ k : Nat, Pixel (line.getD k 0) := by
    intro k
    by_cases hk : k < line.length
    · rw [List.getD_eq_getElem _ _ hk]
      exact hline _ (List.getElem_mem hk)
    · rw [List.getD_eq_default _ _ (by omega)]
      exact ⟨by decide, by decide⟩
  have hgetD : ∀ k < old.length, (roppedLine (a.ropArgs []) src old).getD k 0 =
      ropPixel a.rop a.maxval (mv a.depth) (src.getD k 0) (old.getD k 0) := by
    intro k hk
    have hindex : (1 - 1 + ((k : Int) + 1 - a.v1)).toNat = k := by omega
    have hcover : a.v1 ≤ (k : Int) + 1 ∧ (k : Int) + 1 < a.v1 + a.npix := by omega
    rw [List.getD_eq_getElem _ _ (by rwa [length_roppedLine])]
    simp only [roppedLine, List.getElem_mapIdx, LinePut.ropArgs, hindex, if_pos hcover]
    rw [List.getD_eq_getElem old _ hk]
  have hres : ∀ v ∈ roppedLine (a.ropArgs ll) line old, Pixel v := by
    intro v hv
    rw [hresult] at hv
    obtain ⟨k, hk, rfl⟩ := List.mem_iff_getElem.mp hv
    rw [length_roppedLine] at hk
    rw [← List.getD_eq_getElem _ 0 (by rwa [length_roppedLine]), hgetD k hk,
      ← hsrc k (by omega)]
    exact ropPixel_pixel hrop hneed hmaxval hdepth (hpixel k) _
  have hencodes := @plLinerop_encodes (a.ropArgs ll) line old
    (Int.le_refl 1) (by simp only [LinePut.ropArgs]; omega) (fun _ => ⟨hll, hlinelen⟩) hold
    (by omega) hres hout []
  rw [List.append_nil, hresult] at hencodes
  rw [hresult] at hres
  rw [LinePut.store, if_pos hdirect, hn, plL2p_eq_iff hll hencodes (by omega)]
  -- The image of a pixel does not depend on the old line.
  have himage : ∀ k < old.length, (roppedLine (a.ropArgs []) src old).getD k 0 =
      ropPixel a.rop a.maxval (mv a.depth) (line.getD k 0) 0 := by
    intro k hk
    rw [hgetD k hk, hsrc k (by omega), ropPixel_noDst hrop.1 hneed,
      ropPixel_noDst hrop.1 hneed]
  have hend : ∀ k, ¬ k < old.length → (roppedLine (a.ropArgs []) src old).getD k 0 = 0 := by
    intro k hk
    rw [List.getD_eq_default _ _ (by rw [length_roppedLine]; omega)]
  constructor
  · intro hsame
    have hfull : NoFullPn (roppedLine (a.ropArgs []) src old) := by
      apply noFullPn_of_shifted (f := fun v => ropPixel a.rop a.maxval (mv a.depth) v 0) hres
        (ropPixel_image hrop.1 hneed hmaxval.1 (mv a.depth) 0 fun v => rfl)
      intro k hk
      rw [length_roppedLine] at hk
      rw [himage k hk, hsame k (by omega)]
    refine ⟨fun k hk => ?_, hfull⟩
    have hpixel := hsame k (by omega)
    rw [encodedLine_eq hres hfull, hsrc k hk] at hpixel
    split
    case isTrue hin => rw [← hgetD k hin, ← hpixel]
    case isFalse hout => rw [hpixel, hend k hout]
  · rintro ⟨hpixels, hfull⟩ k hk
    rw [encodedLine_eq hres hfull, hsrc k (by omega), hpixels k (by omega)]
    split
    case isTrue hin => rw [hgetD k hin]
    case isFalse hout => rw [hend k hout]

end Direct

theorem rangeValue_pixel {rs : List RlElem} (hvalues : ∀ r ∈ rs, 0 < r.v ∧ r.v ≤ iPvmax)
    (i : Int) : Pixel (rangeValue rs i) := by
  rcases rangeValue_eq_zero_or_mem rs i with hzero | ⟨r, hr, hvalue⟩
  · rw [hzero]
    exact ⟨by decide, by decide⟩
  · have hrange := hvalues r hr
    rw [hvalue]
    exact ⟨by omega, hrange.2⟩

/-- A range list that begins at position 1 or later is encoded as far as its zeros at the
end are put out. -/
theorem plR2l_encodes {rs : List RlElem} (hrs : RangesOrdered rs)
    (hvalues : ∀ r ∈ rs, 0 < r.v ∧ r.v ≤ iPvmax) (hstart : ∀ r ∈ rs, 1 ≤ r.x)
    (axlen v : Int) (rest : List RlElem) {npix : Int} (hnpix : 1 ≤ npix)
    (hlen : (plR2l (rangeList axlen v rs rest) 1 npix).length < 2 ^ 30) :
    ∃ n : Nat, n ≤ npix ∧
      Encodes (plR2l (rangeList axlen v rs rest) 1 npix) (rangePixels rs 1 n) ∧
      ∀ k : Nat, k < npix → (rangePixels rs 1 n).getD k 0 = rangeValue rs (1 + k) := by
  obtain ⟨hrllen, hranges⟩ := rangeList_ranges axlen v rs rest
  have hcall : plR2l (rangeList axlen v rs rest) 1 npix =
      header 0 (llCurhdrlen + (R2l.loop 1 (1 + npix - 1) ⟨⟨1, []⟩, 1⟩ rs).ll.length) 0 ++
        (R2l.loop 1 (1 + npix - 1) ⟨⟨1, []⟩, 1⟩ rs).ll := by
    unfold plR2l
    rw [if_neg (by omega), hranges]
  have hbefore : R2l.Before 1 (1 + npix - 1) ⟨⟨1, []⟩, 1⟩ rs [] := by
    constructor
    · simp only
      omega
    · exact Encoder.spells_nil
    · intro r _
      exact Int.le_max_right r.x 1
  have hcut : ∀ r ∈ rs, ¬ Straddles 1 (1 + npix - 1) r := fun r hr hstraddles =>
    absurd hstraddles.1 (by have := hstart r hr; omega)
  obtain ⟨n, hspells, hle, -, hzero⟩ := R2l.loop_spells (by omega) hrs hvalues hcut hbefore
  rw [hcall] at hlen ⊢
  rw [List.nil_append] at hspells
  simp only at hle hzero
  refine ⟨n, by omega, hspells.encodes hlen, fun k hk => ?_⟩
  by_cases hin : k < n
  · rw [List.getD_eq_getElem _ _ (by simpa using hin)]
    simp [rangePixels]
  · rw [List.getD_eq_default _ _ (by simpa using hin), hzero (1 + k) (by omega) (by omega)]

/-- The direct branch and the branch with `pl_linerop` store the same pixels exactly when
the rasterop's rule keeps the pixels, whichever procedure writes the line. -/
theorem direct_write_iff {a : LinePut} {old : List Int} (hdirect : a.Direct)
    (hrop : 0 ≤ a.rop ∧ a.rop < 2147483648) (hmaxval : 1 ≤ a.maxval ∧ a.maxval ≤ iPvmax)
    (hdepth : 0 ≤ a.depth) (hold : Encodes a.old old) (holdlen : (old.length : Int) ≤ a.npix)
    (hnpix : 1 ≤ a.npix ∧ a.npix < arb) :
    (∀ px : Int → Int, (∀ i, 1 ≤ i → i ≤ a.npix → px i ≤ iPvmax) →
      (plP2l px 1 a.npix).length < 2 ^ 30 →
      (plLinerop (a.ropArgs (plP2l px 1 a.npix))).length < 2 ^ 30 →
      (plL2p (plPlp a px) 1 a.npix =
          plL2p (plLinerop (a.ropArgs (plP2l px 1 a.npix))) 1 a.npix ↔
        a.Keeps (pixels px 1 a.npix.toNat) old)) ∧
    (∀ (rs : List RlElem) (axlen v : Int) (rest : List RlElem), RangesOrdered rs →
      (∀ r ∈ rs, 0 < r.v ∧ r.v ≤ iPvmax) → (∀ r ∈ rs, 1 ≤ r.x) →
      (plR2l (rangeList axlen v rs rest) 1 a.npix).length < 2 ^ 30 →
      (plLinerop (a.ropArgs (plR2l (rangeList axlen v rs rest) 1 a.npix))).length < 2 ^ 30 →
      (plL2p (plPlr a (rangeList axlen v rs rest)) 1 a.npix =
          plL2p (plLinerop (a.ropArgs (plR2l (rangeList axlen v rs rest) 1 a.npix)))
            1 a.npix ↔
        a.Keeps (rangePixels rs 1 a.npix.toNat) old)) ∧
    (∀ ll line : List Int, Encodes ll line → (∀ v ∈ line, Pixel v) → line.length ≤ arb →
      (plLinerop (a.ropArgs ll)).length < 2 ^ 30 →
      (plL2p (plPlls a ll) 1 a.npix = plL2p (plLinerop (a.ropArgs ll)) 1 a.npix ↔
        a.Keeps line old)) := by
  have hiff := @store_eq_linerop_iff a old hdirect hrop hmaxval hdepth hold holdlen hnpix
  refine ⟨fun px hpx hlen hout => ?_, fun rs axlen v rest hrs hvalues hstart hlen hout => ?_,
    fun ll line hll hline hlinelen hout => ?_⟩
  · have hencodes := plP2l_encodes hnpix.1 (fun i h1 h2 => hpx i h1 (by omega)) hlen []
    rw [List.append_nil] at hencodes
    apply hiff hencodes _ _ hout fun k _ => rfl
    · exact pixels_pixel fun i h1 h2 => hpx i h1 (by omega)
    · rw [length_pixels]
      omega
  · obtain ⟨n, hn, hencodes, hpixels⟩ :=
      plR2l_encodes hrs hvalues hstart axlen v rest hnpix.1 hlen
    apply hiff hencodes _ _ hout
    · intro k hk
      rw [hpixels k hk, List.getD_eq_getElem _ _ (by rw [length_rangePixels]; omega)]
      simp [rangePixels]
    · intro w hw
      obtain ⟨k, -, rfl⟩ := List.mem_map.mp hw
      exact rangeValue_pixel hvalues _
    · rw [length_rangePixels]
      omega
  · exact hiff hll hline hlinelen hout fun k _ => rfl

/-- `PIX_CLR` of a whole line of one pixel. -/
def clearArgs : LinePut :=
  { maxval := 1, axlen := 1, old := plP2l (fun _ => 0) 1 1, v1 := 1, depth := 1, npix := 1,
    rop := pixClr }

/-- The direct branch stores the pixel it should clear. -/
theorem not_direct_clear :
    clearArgs.Direct ∧ plL2p (plPlp clearArgs fun _ => 1) 1 1 ≠
      plL2p (plLinerop (clearArgs.ropArgs (plP2l (fun _ => 1) 1 1))) 1 1 := by
  constructor
  · decide
  · decide

theorem direct_write_clear : clearArgs.Keeps [0] [0] := by
  have hold : Encodes clearArgs.old [0] := by
    have hencodes := @plP2l_encodes (fun _ => 0) 1 1 (by decide) (fun _ _ _ => by decide)
      (by decide) []
    rwa [List.append_nil] at hencodes
  exact ((direct_write_iff (a := clearArgs) (by decide) (by decide) (by decide) (by decide)
    hold (by decide) (by decide)).1 (fun _ => 0) (fun _ _ _ => by decide) (by decide)
    (by decide)).mp (by decide)

end Iraf.Plio
