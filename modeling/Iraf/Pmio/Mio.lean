import Iraf.Plio.LineGet
import Iraf.Plio.SectNotConst
import Iraf.Plio.SectNotEmpty

/-!
# Image i/o through a mask

The descriptor of `mio.h` with `mio_setrange` and `mio_glseg`.  The image is read through
the procedures of IMIO, which return the address of the pixels that they have read.  The
mask is not mapped through an image section, `PM_MAPXY` is NO, so that the `pm_`
procedures are those of PLIO.
-/

namespace Iraf.Pmio

open Plio Odometer

/-- How a call can fail. -/
inductive MioErr where
  | mask (e : LoopErr)
  /-- `SYS_IMREFOOB`. -/
  | imrefoob
  deriving DecidableEq, Repr

def onMask {α : Type} : Except LoopErr α → Except MioErr α
  | .error e => .error (.mask e)
  | .ok a => .ok a

/-- The lengths of the axes of an image, its memory and its procedures, where `σ` is the
state of the image. -/
structure Image (σ Px : Type) where
  len : List Int
  mem : σ → Int → Px
  imgl2 : σ → Int → Except MioErr (σ × Int)
  imgl3 : σ → Int → Int → Except MioErr (σ × Int)
  imggs : σ → List Int → List Int → Nat → Except MioErr (σ × Int)

/-- The MIO descriptor; `rl` is the array at `M_RLP`. -/
structure Mio (σ : Type) where
  im : σ
  pm : Mask
  depth : Int
  active : Bool
  lbp : Int
  rl : List RlElem
  rli : Int
  ndim : Nat
  lineio : Bool
  regcoords : Bool
  v : List Int
  vs : List Int
  ve : List Int
  vn : List Int

/-- What `mio_glseg` returns besides EOF. -/
structure Segment where
  ptr : Int
  mval : Int
  v : List Int
  npix : Int
  deriving DecidableEq, Repr

variable {σ Px : Type}

/-- `mio_setrange`. -/
def mioSetrange (im : Image σ Px) (mp : Mio σ) (vs ve : List Int) (ndim : Nat) : Mio σ :=
  let axes : List Nat := (List.range plMaxdim).map (· + 1)
  { mp with
    vs := axes.map fun i : Nat => if i ≤ ndim then min (word vs i) (word ve i) else 1
    vn := axes.map fun i : Nat => if i ≤ ndim then |word ve i - word vs i| + 1 else 1
    lineio := word vs 1 = 1 ∧ word ve 1 = word im.len 1
    regcoords := true
    active := false
    ndim := ndim }

/-- `mio_seti (mp, P_REGCOORDS, value)`. -/
def Mio.setRegcoords (mp : Mio σ) (value : Bool) : Mio σ := { mp with regcoords := value }

namespace Mio

/-- The call of `pm_glri` on the current line. -/
def glri (mp : Mio σ) : Except MioErr (Mio σ) := do
  let rl ← onMask (liftMask (plGlr mp.pm mp.v mp.rl mp.depth (word mp.vn 1) pixSrc))
  return { mp with rl := rl, rli := rlFirst }

/-- Initialization performed for the first i/o on a new region. -/
def start (mp : Mio σ) : Except MioErr (Mio σ) :=
  if mp.active then .ok mp
  else do
    let loop := plsslv mp.pm mp.vs mp.vn
    let mp ← { mp with v := loop.1 ++ mp.v.drop loop.1.length,
                       ve := loop.2 ++ mp.ve.drop loop.2.length }.glri
    return { mp with active := true }

/-- The vector `ve`, at the end of the current line of the region. -/
def lineEnd (mp : Mio σ) : List Int := (mp.v.take mp.ndim).set 0 (word mp.ve 1)

/-- A turn of the loop that gets a new mask line.  The section that is tested is a line. -/
def maskLine (mp : Mio σ) : Except MioErr (Mio σ ⊕ (Mio σ × LoopStatus)) :=
  if mp.rli > rlLen mp.rl then
    match plloop mp.v mp.vs mp.ve mp.ndim with
    | (v, .done) => .ok (.inr ({ mp with v := v }, .done))
    | (v, .again) => do
        let mp := { mp with v := v }
        if ← onMask (atMost ((plSectnotempty mp.pm mp.v mp.lineEnd mp.ndim 1).map
            liftMask)) then
          return .inl (← mp.glri)
        else return .inl mp
  else .ok (.inr (mp, .again))

/-- Read the current line of the image; what is returned is the address `bp`. -/
def readLine (im : Image σ Px) (mp : Mio σ) : Except MioErr (σ × Int) :=
  if mp.lineio ∧ mp.ndim = 2 then im.imgl2 mp.im (word mp.v 2)
  else if mp.lineio ∧ mp.ndim = 3 then im.imgl3 mp.im (word mp.v 2) (word mp.v 3)
  else im.imggs mp.im (mp.v.take mp.ndim) mp.lineEnd mp.ndim

/-- Get a new image line? -/
def imageLine (im : Image σ Px) (mp : Mio σ) : Except MioErr (Mio σ) :=
  if mp.rli = rlFirst then do
    let bp ← mp.readLine im
    return { mp with im := bp.1, lbp := bp.2 }
  else .ok mp

/-- Return the next line segment. -/
def nextSegment (mp : Mio σ) : Mio σ × Segment :=
  let r := rlElem mp.rl mp.rli
  let tail : List Nat := (List.range (mp.ndim - 1)).map (· + 2)
  ({ mp with rli := mp.rli + 1 },
    { ptr := mp.lbp + r.x - word mp.vs 1
      mval := r.v
      npix := r.n
      v :=
        if mp.regcoords then
          (r.x - word mp.vs 1 + 1) :: tail.map fun i : Nat => word mp.v i - word mp.vs i + 1
        else r.x :: tail.map fun i : Nat => word mp.v i })

end Mio

/-- `mio_glseg`, in at most `fuel` turns of its loop; `none` is EOF. -/
def mioGlseg (im : Image σ Px) (mp : Mio σ) (fuel : Nat) :
    Except MioErr (Mio σ × Option Segment) := do
  let mp ← mp.start
  match StepMachine.run Mio.maskLine fuel mp with
  | none => .error (.mask .turns)
  | some (.error e) => .error e
  | some (.ok (mp, .done)) => return (mp, none)
  | some (.ok (mp, .again)) =>
      let mp ← mp.imageLine im
      let out := mp.nextSegment
      return (out.1, some out.2)

end Iraf.Pmio
