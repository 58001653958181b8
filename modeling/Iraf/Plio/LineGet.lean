import Iraf.Plio.LineToRanges
import Iraf.Plio.Mask
import Iraf.Plio.RopAgreement

/-!
# Reading a segment of a mask line

`pl_glp`, `pl_glr` and `pl_glls` hand out a segment of a line as pixels, as a range list
or as a line list.  When the rasterop does not need what the destination holds, the
segment is converted into it, else it is combined with it.
-/

namespace Iraf.Plio

/-- `amov`: the first `n` words of an array are moved to another. -/
def amov (n : Nat) (src dst : List Int) : List Int := src.take n ++ dst.drop n

/-- The words of a range list. -/
def rangeWords (rl : List RlElem) : List Int := rl.flatMap fun r => [r.x, r.n, r.v]

def ofRangeWords : List Int → List RlElem
  | x :: n :: v :: ws => ⟨x, n, v⟩ :: ofRangeWords ws
  | _ => []

/-- `pl_glp`: the destination after the call. -/
def plGlp (pl : Mask) (v pxDst : List Int) (pxDepth npix rop : Int) :
    Except PlErr (List Int) := do
  let llSrc ← plReference pl v
  let px := plL2p (pl.ll llSrc) (word v 1) npix
  if ¬ RNeedDst rop then return amov px.length px pxDst
  else
    return plPixrop
      { src := px, xs := 1, srcMaxval := pl.maxval, dst := pxDst, ds := 1,
        dstMaxval := mv pxDepth, npix := npix, rop := rop }

/-- `pl_glr`: the destination after the call. -/
def plGlr (pl : Mask) (v : List Int) (rlDst : List RlElem) (rlDepth npix rop : Int) :
    Except PlErr (List RlElem) := do
  let llSrc ← plReference pl v
  let rlSrc := plL2r (pl.ll llSrc) (word v 1) npix
  if ¬ RNeedDst rop then return rlSrc ++ rlDst.drop rlSrc.length
  else
    let rlOut := plRangerop
      { src := rlSrc, xs := 1, srcMaxval := pl.maxval, dst := rlDst, ds := 1,
        dstMaxval := mv rlDepth, npix := npix, rop := rop }
    -- As many words are copied out as the list has elements.
    return ofRangeWords (amov (rlLen rlOut).toNat (rangeWords rlOut) (rangeWords rlDst))

/-- `pl_glls`: the destination after the call. -/
def plGlls (pl : Mask) (v llDst : List Int) (llDepth npix rop : Int) :
    Except PlErr (List Int) := do
  let llSrc ← plReference pl v
  if ¬ RNeedDst rop ∧ word v 1 = 1 ∧ npix = pl.axlenAt 1 then
    return amov (llLen (pl.ll llSrc)).toNat (pl.ll llSrc) llDst
  else
    let llOut := plLinerop
      { src := pl.ll llSrc, xs := word v 1, srcMaxval := pl.maxval, dst := llDst, ds := 1,
        dstMaxval := mv llDepth, npix := npix, rop := rop }
    return amov (llLen llOut).toNat llOut llDst

end Iraf.Plio
