import Iraf.Lib.Cells
import Iraf.Plio.SectNotConst

/-!
# Random access to a mask

`plr_open` makes a table of the values of blocks of pixels: it looks at the whole table
first and divides a region that is not constant into quadrants, kept on a stack.
`plr_getpix` looks a pixel up in the table, or in the mask where the table says that the
block has several values.
-/

namespace Iraf.Plio

@[simp] abbrev defBuflimit : Int := 128 * 128
@[simp] abbrev lenStack : Nat := 4 * 32
/-- The value of a bin that maps to a complex region. -/
@[simp] abbrev complexBin : Int := -1

/-- The descriptor.  A bin of the table is `none` until it is set. -/
structure Plr where
  pl : Mask
  ncols : Int
  nlines : Int
  xblock : Int
  yblock : Int
  bufp : List (Option Int)
  x1 : Int
  y1 : Int
  x2 : Int
  y2 : Int
  plane : List Int

/-- `PLR_PLANE(pl,i) = x` on a mask descriptor, where the words are those of `PL_AXLEN`
and `PL_PLANE`. -/
def Mask.setPlrPlane (m : Mask) (i : Nat) (x : Int) : Mask :=
  if i ≤ 3 then { m with axlen := m.axlen.set (i + 3) x }
  else { m with plane := m.plane.set (i - 4) x }

/-- Set the plane to be accessed. -/
def setPlane (pl : Mask) (plane : List Int) : Mask :=
  [1, 2, 3, 4, 5, 6, 7].foldl
    (fun m i =>
      if i > pl.naxes then m.setPlrPlane i 1
      else if i > 2 then m.setPlrPlane i (word plane i)
      else m)
    pl

/-- The coordinates above the second. -/
def planeCoords (ndim : Nat) (plane : List Int) : List Int :=
  [3, 4, 5, 6, 7].map fun i : Nat => if i > ndim then 1 else word plane i

/-- Determine the blocking factors. -/
def blockStep (msize : Int × Int) (maxpix : Int) (block : Int × Int) :
    Except LoopErr ((Int × Int) ⊕ (Int × Int)) :=
  if msize.1 / block.1 * (msize.2 / block.2) > maxpix then
    .ok (.inl (min msize.1 (block.1 * 2), min msize.2 (block.2 * 2)))
  else .ok (.inr block)

/-- The size of the mask plane and of a block. -/
structure Grid where
  msize : Int × Int
  block : Int × Int

/-- The size of the table. -/
def Grid.tsize (g : Grid) : Int × Int :=
  ((g.msize.1 + g.block.1 - 1) / g.block.1, (g.msize.2 + g.block.2 - 1) / g.block.2)

/-- A region of the table. -/
structure Region where
  x1 : Int
  y1 : Int
  x2 : Int
  y2 : Int
  deriving DecidableEq, Repr

/-- The region has pixels. -/
def Region.Valid (r : Region) : Prop := r.x1 ≤ r.x2 ∧ r.y1 ≤ r.y2

instance : DecidablePred Region.Valid := fun r => by
  unfold Region.Valid
  infer_instance

/-- The four quadrants of a region, in the order in which they are stacked. -/
def Region.quadrants (r : Region) : List Region :=
  let vm1 := (r.x1 + r.x2 + 1) / 2
  let vm2 := (r.y1 + r.y2 + 1) / 2
  [⟨r.x1, vm2, vm1 - 1, r.y2⟩, ⟨vm1, vm2, r.x2, r.y2⟩, ⟨r.x1, r.y1, vm1 - 1, vm2 - 1⟩,
    ⟨vm1, r.y1, r.x2, vm2 - 1⟩]

/-- The mask coordinates of a region. -/
def Region.corners (r : Region) (g : Grid) (coords : List Int) : List Int × List Int :=
  (((r.x1 - 1) * g.block.1 + 1) :: ((r.y1 - 1) * g.block.2 + 1) :: coords,
    min g.msize.1 (r.x2 * g.block.1) :: min g.msize.2 (r.y2 * g.block.2) :: coords)

structure PlrLoop where
  stack : List Region
  /-- The index of the region on top. -/
  el : Int
  bufp : List (Option Int)

/-- Store a region at the stack pointer, which is only advanced when it is valid. -/
def PlrLoop.push (s : PlrLoop) (r : Region) : Except LoopErr PlrLoop :=
  if 0 ≤ s.el ∧ s.el < s.stack.length then
    .ok { s with stack := s.stack.set s.el.toNat r, el := if r.Valid then s.el + 1 else s.el }
  else .error (.mask .fault)

/-- Set `npix` bins from `rp` on. -/
def fillRow (bufp : List (Option Int)) (rp npix mval : Int) :
    Except LoopErr (List (Option Int)) :=
  if 0 ≤ rp ∧ rp + npix ≤ bufp.length then
    .ok (Cells.overlay bufp rp.toNat (List.replicate npix.toNat (some mval)))
  else .error (.mask .fault)

/-- Set an entire region. -/
def fillRegion (tsize1 : Int) (r : Region) (mval : Int) (bufp : List (Option Int)) :
    Except LoopErr (List (Option Int)) :=
  (Int.range r.y1 (r.y2 + 1)).foldlM
    (fun bufp j => fillRow bufp ((j - 1) * tsize1 + r.x1 - 1) (r.x2 - r.x1 + 1) mval) bufp

/-- What is done with the region on top. -/
def regionBody (g : Grid) (s : PlrLoop) (r : Region) (complex : Bool) (mval : Int) :
    Except LoopErr PlrLoop :=
  if complex then
    if r.x1 = r.x2 ∧ r.y1 = r.y2 then do
      let bufp ← fillRow s.bufp ((r.y1 - 1) * g.tsize.1 + r.x1 - 1) 1 complexBin
      return { s with bufp := bufp }
    else if s.el + 4 ≥ lenStack then .error .stackOverflow
    else r.quadrants.foldlM PlrLoop.push s
  else do
    let bufp ← fillRegion g.tsize.1 r mval s.bufp
    return { s with bufp := bufp }

/-- A turn of the loop: examine the region on top of the stack and pop it. -/
def regionStep (pl : Mask) (g : Grid) (coords : List Int) (ndim fuel : Nat) (s : PlrLoop) :
    Except LoopErr (PlrLoop ⊕ List (Option Int)) := do
  let r ← match s.stack[s.el.toNat]? with
    | some r => .ok r
    | none => .error (.mask .fault)
  let v := r.corners g coords
  let test ← plSectnotconst pl v.1 v.2 ndim fuel
  let s ← regionBody g s r test.1 test.2
  if s.el - 1 < 0 then return .inr s.bufp
  return .inl { s with el := s.el - 1 }

/-- `plr_open`: the loops of `pl_sectnotconst` take at most `fuel` turns, the others at
most `turns`. -/
def plrOpen (pl : Mask) (plane : List Int) (buflimit : Int) (fuel turns : Nat) :
    Except LoopErr Plr := do
  let msize := (pl.axlenAt 1, pl.axlenAt 2)
  let coords := planeCoords pl.naxes plane
  let ndim := pl.naxes
  let pl := setPlane pl plane
  let maxpix := if buflimit ≤ 0 then defBuflimit else buflimit
  let block ← atMost (StepMachine.run (blockStep msize maxpix) turns (1, 1))
  let g : Grid := ⟨msize, block⟩
  let stack := (List.replicate lenStack (⟨0, 0, 0, 0⟩ : Region)).set 0 ⟨1, 1, g.tsize.1, g.tsize.2⟩
  let bufp ← atMost (StepMachine.run (regionStep pl g coords ndim fuel) turns
    ⟨stack, 0, List.replicate (g.tsize.1 * g.tsize.2).toNat none⟩)
  return { pl := pl, ncols := g.tsize.1, nlines := g.tsize.2, xblock := block.1,
           yblock := block.2, bufp := bufp, x1 := 1, y1 := 1, x2 := msize.1, y2 := msize.2,
           plane := List.replicate plMaxdim 0 }

/-- `plr_getpix`: the descriptor and the value.  Reading a bin that was not set is a
fault. -/
def plrGetpix (plr : Plr) (i j : Int) : Except LoopErr (Plr × Int) :=
  if i < plr.x1 ∨ i > plr.x2 then .ok (plr, errValue)
  else if j < plr.y1 ∨ j > plr.y2 then .ok (plr, errValue)
  else
    let ii := (i - 1) / plr.xblock
    let jj := (j - 1) / plr.yblock
    match plr.bufp[(jj * plr.ncols + ii).toNat]? with
    | some (some mval) =>
        if mval = complexBin then do
          let plr := { plr with plane := plr.plane.set 1 j }
          let llSrc ← liftMask (plReference plr.pl plr.plane)
          return (plr, (plL2p (plr.pl.ll llSrc) i 1).headD mval)
        else .ok (plr, mval)
    | _ => .error (.mask .fault)

/-- Calls of `plr_getpix` one after the other. -/
def plrGetpixs (plr : Plr) : List (Int × Int) → Except LoopErr (List Int)
  | [] => .ok []
  | p :: ps => do
      let next ← plrGetpix plr p.1 p.2
      let vals ← plrGetpixs next.1 ps
      return next.2 :: vals

end Iraf.Plio
