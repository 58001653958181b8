import Iraf.Lib.IntBits
import Iraf.Plio.Rasterop

/-!
# Rasterops on pixel arrays

`plPixrop` works on the pixels in place.  It was written apart from the loops
over lists: it complements and maps the source in another order, and cuts the
values to the depth of the destination only at the end.  `RopAgrees` says on
which pixels the two come to the same value.
-/

namespace Iraf.Plio

open IntBits

/-- `do i = 1, npix` over `px_dst[ds+i-1]`, from iteration `i` on; `f` sees the
array as it stands. -/
def pixLoop (ds : Int) (f : List Int → Int → Int) : Nat → Int → List Int →
    List Int
  | 0, _, px => px
  | n + 1, i, px =>
      pixLoop ds f n (i + 1) (px.set (ds + i - 2).toNat (f px i))

/-- The source pixel: for a boolean mask the value to be used where it is set. -/
def pixropSrc (rop srcMaxval dstMaxval v : Int) : Int :=
  if srcMaxval ≠ 1 then v
  else if v > 0 then srcValue rop dstMaxval
  else 0

/-- The value stored by the loop for each rasterop; `vOther` is the pixel of the
destination at the index of the source, which is what `PIX_NOTDST` reads. -/
def pixropValue (opcode data vSrc vDst vOther : Int) : Int :=
  if opcode = pixClr then 0
  else if opcode = pixSet then data
  else if opcode = pixSrc then vSrc
  else if opcode = pixNotsrc then Int.lnot vSrc
  else if opcode = pixNotdst then Int.lnot vOther
  else if opcode = pixSrcAndDst then Int.land vSrc vDst
  else if opcode = pixSrcOrDst then Int.lor vSrc vDst
  else if opcode = pixSrcXorDst then Int.xor vSrc vDst
  else if opcode = pixSrcAndNotdst then Int.land vSrc (Int.lnot vDst)
  else if opcode = pixSrcOrNotdst then Int.lor vSrc (Int.lnot vDst)
  else if opcode = pixNotsrcAndDst then Int.land (Int.lnot vSrc) vDst
  else if opcode = pixNotsrcOrDst then Int.lor (Int.lnot vSrc) vDst
  else if opcode = pixNotSrcAndDst then Int.lnot (Int.land vSrc vDst)
  else if opcode = pixNotSrcOrDst then Int.lnot (Int.lor vSrc vDst)
  else if opcode = pixNotSrcXorDst then Int.lnot (Int.xor vSrc vDst)
  else vDst

/-- `argt` or `aandk` on one pixel. -/
def pixropMask (dstMaxval v : Int) : Int :=
  if dstMaxval = 1 then if v > 0 then 1 else v
  else if dstMaxval > 1 then Int.land v dstMaxval
  else v

/-- The destination array after `pl_pixrop`. -/
def plPixrop (a : RopArgs (List Int)) : List Int :=
  let opcode := rOpcode a.rop
  let value (px : List Int) (i : Int) : Int :=
    pixropValue opcode (rData a.rop)
      (pixropSrc a.rop a.srcMaxval a.dstMaxval (word a.src (a.xs + i - 1)))
      (word px (a.ds + i - 1)) (word px (a.xs + i - 1))
  let run (f : List Int → Int → Int) (px : List Int) : List Int :=
    pixLoop a.ds f a.npix.toNat 1 px
  if opcode = pixDst then a.dst
  else if opcode = pixClr then run value a.dst
  else
    run (fun px i => pixropMask a.dstMaxval (word px (a.ds + i - 1)))
      (run value a.dst)

/-! ## The array after a loop -/

@[simp] theorem length_pixLoop (ds : Int) (f : List Int → Int → Int) (n : Nat) :
    ∀ (i : Int) (px : List Int), (pixLoop ds f n i px).length = px.length := by
  induction n with
  | zero => intros; rfl
  | succ n ih => intro i px; rw [pixLoop, ih, List.length_set]

theorem rOpcode_range (rop : Int) : 0 ≤ rOpcode rop ∧ rOpcode rop ≤ 15 := by
  have hcomm : rOpcode rop = Int.land 15 rop := by
    apply eq_of_testBit
    intro i
    rw [rOpcode, Int.testBit_land, Int.testBit_land, Bool.and_comm]
  rw [hcomm]
  exact land_nonneg_left (by decide) rop

theorem land_rOpcode (rop : Int) : Int.land rop 6 = Int.land (rOpcode rop) 6 := by
  apply eq_of_testBit
  intro i
  rw [rOpcode, Int.testBit_land, Int.testBit_land, Int.testBit_land]
  cases hbit : (6 : Int).testBit i with
  | false => simp
  | true =>
      have h15 : (15 : Int).testBit i = true :=
        testBit_mask (d := 4) (by decide) (by decide) hbit
      simp [h15]

end Iraf.Plio
