import Iraf.Plio.Defs

/-!
# Rasterops on pixel values

The part of the rasterop loops that combines one source value with one
destination value.  The line list and the range list procedures both contain
it, statement for statement.
-/

namespace Iraf.Plio

/-- The value used for the nonzero pixels of a boolean source mask. -/
def srcValue (rop dstMaxval : Int) : Int :=
  if rData rop ≤ 0 then dstMaxval else rData rop

/-- `not` of a pixel, cut to the depth of its mask unless that is unknown. -/
def notPixel (maxval v : Int) : Int :=
  if maxval ≠ 0 then Int.land (Int.lnot v) maxval else Int.lnot v

/-- The source value entering the rasterop. -/
def ropSrc (rop srcMaxval dstMaxval v : Int) : Int :=
  let v := if RNotsrc rop then notPixel srcMaxval v else v
  if v ≠ 0 ∧ srcMaxval = 1 then srcValue rop dstMaxval else v

/-- The destination value entering the rasterop. -/
def ropDst (rop dstMaxval v : Int) : Int :=
  if RNeedDst rop ∧ RNotdst rop then notPixel dstMaxval v else v

/-- Apply the rasterop. -/
def applyRop (opcode data vSrc vDst : Int) : Int :=
  if opcode = pixClr then 0
  else if opcode = pixSet then data
  else if opcode = pixSrc ∨ opcode = pixNotsrc then vSrc
  else if opcode = pixDst ∨ opcode = pixNotdst then vDst
  else if opcode = pixSrcAndDst ∨ opcode = pixSrcAndNotdst ∨
      opcode = pixNotsrcAndDst then Int.land vSrc vDst
  else if opcode = pixSrcOrDst ∨ opcode = pixSrcOrNotdst ∨
      opcode = pixNotsrcOrDst then Int.lor vSrc vDst
  else if opcode = pixSrcXorDst then Int.xor vSrc vDst
  else if opcode = pixNotSrcAndDst then Int.lnot (Int.land vSrc vDst)
  else if opcode = pixNotSrcOrDst then Int.lnot (Int.lor vSrc vDst)
  else Int.lnot (Int.xor vSrc vDst)

/-- Mask the high bits to prevent negative values, or map int to bool for the
case of a boolean output mask. -/
def ropMask (dstMaxval pv : Int) : Int :=
  if dstMaxval = 1 ∧ pv ≠ 0 then 1
  else if dstMaxval > 1 then Int.land dstMaxval pv
  else pv

/-- The pixel that replaces `vDst` where the rasterop applies; `vSrc` is not
looked at when the rasterop needs no source. -/
def ropPixel (rop srcMaxval dstMaxval vSrc vDst : Int) : Int :=
  let vSrc := if RNeedSrc rop then ropSrc rop srcMaxval dstMaxval vSrc else 0
  ropMask dstMaxval
    (applyRop (rOpcode rop) (rData rop) vSrc (ropDst rop dstMaxval vDst))

theorem ropPixel_noSrc {rop : Int} (h : ¬ RNeedSrc rop)
    (srcMaxval dstMaxval vSrc vSrc' vDst : Int) :
    ropPixel rop srcMaxval dstMaxval vSrc vDst =
      ropPixel rop srcMaxval dstMaxval vSrc' vDst := by
  simp [ropPixel, h]

theorem land_nonneg_left {m : Int} (hm : 0 ≤ m) (v : Int) :
    0 ≤ Int.land m v ∧ Int.land m v ≤ m := by
  obtain ⟨n, rfl⟩ := Int.eq_ofNat_of_zero_le hm
  cases v with
  | ofNat k =>
      change 0 ≤ ((n &&& k : Nat) : Int) ∧ ((n &&& k : Nat) : Int) ≤ n
      have := Nat.and_le_left (n := n) (m := k)
      omega
  | negSucc k =>
      change 0 ≤ ((Nat.ldiff n k : Nat) : Int) ∧
        ((Nat.ldiff n k : Nat) : Int) ≤ n
      have hle : Nat.ldiff n k ≤ n := by
        apply Nat.le_of_testBit
        intro i hi
        rw [Nat.testBit_ldiff] at hi
        simp only [Bool.and_eq_true] at hi
        exact hi.1
      omega

theorem ropMask_range {dstMaxval : Int} (hmax : 1 ≤ dstMaxval) (pv : Int) :
    0 ≤ ropMask dstMaxval pv ∧ ropMask dstMaxval pv ≤ dstMaxval := by
  unfold ropMask
  split
  next => omega
  next hbool =>
    split
    next => exact land_nonneg_left (by omega) pv
    next =>
      have hpv : pv = 0 := by
        by_contra hne
        exact hbool ⟨by omega, hne⟩
      omega

theorem ropPixel_range {dstMaxval : Int} (hmax : 1 ≤ dstMaxval)
    (rop srcMaxval vSrc vDst : Int) :
    0 ≤ ropPixel rop srcMaxval dstMaxval vSrc vDst ∧
      ropPixel rop srcMaxval dstMaxval vSrc vDst ≤ dstMaxval :=
  ropMask_range hmax _

/-! ## Lines -/

/-- The arguments of a rasterop procedure, for lines stored as an `L`. -/
structure RopArgs (L : Type) where
  src : L
  xs : Int
  srcMaxval : Int
  dst : L
  ds : Int
  dstMaxval : Int
  npix : Int
  rop : Int

/-- The destination line with the rasterop applied to `npix` pixels from `ds`
on; a source line that ends early counts as zero from there. -/
def roppedLine {L : Type} (a : RopArgs L) (src dst : List Int) : List Int :=
  dst.mapIdx fun k v =>
    if a.ds ≤ k + 1 ∧ (k : Int) + 1 < a.ds + a.npix then
      ropPixel a.rop a.srcMaxval a.dstMaxval
        (src.getD (a.xs - 1 + (k + 1 - a.ds)).toNat 0) v
    else v

@[simp] theorem length_roppedLine {L : Type} (a : RopArgs L) (src dst : List Int) :
    (roppedLine a src dst).length = dst.length := by
  simp [roppedLine]

theorem roppedLine_range {L : Type} {a : RopArgs L} {src dst : List Int}
    (hmax : 1 ≤ a.dstMaxval) (hdst : ∀ v ∈ dst, 0 ≤ v ∧ v ≤ a.dstMaxval) :
    ∀ v ∈ roppedLine a src dst, 0 ≤ v ∧ v ≤ a.dstMaxval := by
  intro v hv
  obtain ⟨k, hk, rfl⟩ := List.mem_mapIdx.mp hv
  split
  next => exact ropPixel_range hmax _ _ _ _
  next => exact hdst _ (List.getElem_mem hk)

end Iraf.Plio
