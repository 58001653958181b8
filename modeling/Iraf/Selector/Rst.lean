import Mathlib
import Iraf.Lib.BracketSearch

/-!
# Row sets

The functions of `rst.x`.  A row set is an array of ranges of rows; each range
also holds the number of rows of the set up to its end.
-/

namespace Iraf.Selector

open Iraf.BracketSearch

/-- One element of the arrays `RST_LOARY`, `RST_HIARY` and `RST_NUMARY`. -/
structure RowRange where
  loval : Int
  hival : Int
  nrow : Int
  deriving DecidableEq, Repr

def RowRange.ends (r : RowRange) : Int × Int := (r.loval, r.hival)

/-- The arrays are held up to `RST_LAST`; `max` is the room they have. -/
structure Rst where
  ranges : List RowRange
  max : Int
  current : Int
  deriving DecidableEq, Repr

namespace Rst

def last (set : Rst) : Int := set.ranges.length

/-- Element `i` of the arrays, counted from 1. -/
def range (set : Rst) (i : Int) : RowRange :=
  set.ranges.getD (i - 1).toNat ⟨0, 0, 0⟩

def loval (set : Rst) (i : Int) : Int := (set.range i).loval

def hival (set : Rst) (i : Int) : Int := (set.range i).hival

def nrow (set : Rst) (i : Int) : Int := (set.range i).nrow

/-- Store `RST_LAST`, which here only truncates the arrays. -/
def truncate (set : Rst) (n : Int) : Rst :=
  { set with ranges := set.ranges.take n.toNat }

end Rst

/-- Limits out of order are swapped, and a range that begins at 0 is empty. -/
def rstCreate (loval hival : Int) : Rst :=
  let lo := if loval > hival then hival else loval
  let hi := if loval > hival then loval else hival
  if lo = 0 then ⟨[], 1, 0⟩ else ⟨[⟨lo, hi, hi - lo + 1⟩], 1, 0⟩

/-! ## Internal functions -/

/-- Add a range at the end. -/
def rstAddrange (set : Rst) (loval hival : Int) : Rst :=
  let last := set.last
  let nrow := if last = 0 then 0 else set.nrow last
  if last ≠ 0 ∧ set.hival last + 1 = loval then
    { set with
      ranges := set.ranges.set (last - 1).toNat
        { set.range last with
          hival := hival
          nrow := nrow + hival - loval + 1 } }
  else
    { set with
      ranges := set.ranges ++ [⟨loval, hival, nrow + hival - loval + 1⟩]
      max := if last + 1 > set.max then 2 * set.max else set.max }

/-- The loop that adds ranges one after another. -/
def addRanges (set : Rst) (ranges : List (Int × Int)) : Rst :=
  ranges.foldl (fun s r => rstAddrange s r.1 r.2) set

/-- The elements from `idx` on; `RST_NUMARY` is not copied. -/
def rstTail (set : Rst) (idx : Int) : List (Int × Int) :=
  (set.ranges.drop (idx - 1).toNat).map RowRange.ends

def rstConcat (set : Rst) (tail : List (Int × Int)) (shift : Int) : Rst :=
  addRanges set (tail.map fun r => (r.1 + shift, r.2 + shift))

/-- The first range that ends at `value` or above it, found from the hint
`RST_CURRENT`, which is left there. -/
def rstFindloc (set : Rst) (value : Int) : Int × Rst :=
  let hi := search (fun i => value > set.hival i) set.last set.current
  (hi, { set with current := hi })

/-! ## Looking up rows -/

def rstInset (set : Rst) (value : Int) : Bool × Rst :=
  let (idx, set) := rstFindloc set value
  (if idx > set.last then false else decide (value ≥ set.loval idx), set)

def rstNelem (set : Rst) : Int :=
  if set.last = 0 then 0 else set.nrow set.last

/-- The row with a given index into the set. -/
def rstRownum (set : Rst) (index : Int) : Int × Rst :=
  let hi := search (fun i => index > set.nrow i) set.last set.current
  let irow :=
    if hi < 1 ∨ hi > set.last then 0
    else set.hival hi - (set.nrow hi - index)
  if ¬ (hi < 1 ∨ hi > set.last) ∧ irow < 1 then
    (0, { set with current := 0 })
  else (irow, { set with current := hi })

/-! ## Logical operations

The loops over two sets are written on the ranges that `idx1` and `idx2` have not passed
yet, and give the ranges that are added to the output set.  The output range `loval3` to
`hival3` is not set where `loval3` is 0.
-/

def outputRange (loval3 hival3 : Int) : List (Int × Int) :=
  if loval3 = 0 then [] else [(loval3, hival3)]

/-- A later loop of `rst_or` over one set: the ranges added, `loval3`, `hival3` and the ranges
still left. -/
def orRest (loval3 hival3 : Int) :
    List (Int × Int) → List (Int × Int) × Int × Int × List (Int × Int)
  | [] => ([], loval3, hival3, [])
  | r :: rs =>
      if loval3 = 0 then ([], loval3, hival3, r :: rs)
      else if r.1 ≤ hival3 then orRest (min loval3 r.1) (max hival3 r.2) rs
      else ([(loval3, hival3)], 0, hival3, r :: rs)

/-- `rst_or` after its main loop. -/
def orEnd (loval3 hival3 : Int) (rs1 rs2 : List (Int × Int)) : List (Int × Int) :=
  let (added1, lo1, hi1, rest1) := orRest loval3 hival3 rs1
  let (added2, lo2, hi2, rest2) := orRest lo1 hi1 rs2
  added1 ++ added2 ++ outputRange lo2 hi2 ++ rest1 ++ rest2

/-- The main loop of `rst_or` and what follows it. -/
def orMain (loval3 hival3 : Int) :
    List (Int × Int) → List (Int × Int) → List (Int × Int)
  | [], rs2 => orEnd loval3 hival3 [] rs2
  | r1 :: rs1, [] => orEnd loval3 hival3 (r1 :: rs1) []
  | r1 :: rs1, r2 :: rs2 =>
      if loval3 = 0 then
        if r1.1 ≤ r2.1 then orMain r1.1 r1.2 rs1 (r2 :: rs2)
        else orMain r2.1 r2.2 (r1 :: rs1) rs2
      else if r1.1 ≤ r2.1 then
        if r1.1 ≤ hival3 then orMain (min loval3 r1.1) (max hival3 r1.2) rs1 (r2 :: rs2)
        else (loval3, hival3) :: orMain 0 hival3 (r1 :: rs1) (r2 :: rs2)
      else
        if r2.1 ≤ hival3 then orMain (min loval3 r2.1) (max hival3 r2.2) (r1 :: rs1) rs2
        else (loval3, hival3) :: orMain 0 hival3 (r1 :: rs1) (r2 :: rs2)
termination_by rs1 rs2 => (rs1.length + rs2.length, if loval3 = 0 then 0 else 1)
decreasing_by all_goals simp_all [Prod.lex_iff]

def rstOr (set1 set2 : Rst) : Rst :=
  addRanges (rstCreate 0 0)
    (orMain 0 0 (set1.ranges.map RowRange.ends) (set2.ranges.map RowRange.ends))

/-- The gaps between ranges, from row `loval2` to row `nrow`. -/
def notRanges (nrow loval2 : Int) : List (Int × Int) → List (Int × Int)
  | [] => if loval2 ≤ nrow then [(loval2, nrow)] else []
  | r :: rs =>
      (if loval2 < r.1 then [(loval2, r.1 - 1)] else []) ++ notRanges nrow (r.2 + 1) rs

def rstNot (nrow : Int) (set1 : Rst) : Rst :=
  addRanges (rstCreate 0 0) (notRanges nrow 1 (set1.ranges.map RowRange.ends))

/-- A later loop of `rst_and` over one set: the ranges added and `loval3`. -/
def andRest (loval3 hival3 : Int) : List (Int × Int) → List (Int × Int) × Int
  | [] => ([], loval3)
  | r :: rs =>
      if loval3 = 0 ∨ r.1 > hival3 then ([], 0)
      else
        let (added, lo) := andRest loval3 hival3 rs
        (if loval3 ≤ r.2 then (max loval3 r.1, min hival3 r.2) :: added else added, lo)

/-- `rst_and` after its main loop. -/
def andEnd (loval3 hival3 : Int) (rs1 rs2 : List (Int × Int)) : List (Int × Int) :=
  let (added1, lo1) := andRest loval3 hival3 rs1
  added1 ++ (andRest lo1 hival3 rs2).1

/-- The main loop of `rst_and` and what follows it. -/
def andMain (loval3 hival3 : Int) :
    List (Int × Int) → List (Int × Int) → List (Int × Int)
  | [], rs2 => andEnd loval3 hival3 [] rs2
  | r1 :: rs1, [] => andEnd loval3 hival3 (r1 :: rs1) []
  | r1 :: rs1, r2 :: rs2 =>
      if loval3 = 0 then
        if r1.1 ≤ r2.1 then andMain r1.1 r1.2 rs1 (r2 :: rs2)
        else andMain r2.1 r2.2 (r1 :: rs1) rs2
      else if r1.1 ≤ r2.1 then
        if r1.1 ≤ hival3 then
          (max loval3 r1.1, min hival3 r1.2) ::
            if r1.2 ≤ hival3 then andMain loval3 hival3 rs1 (r2 :: rs2)
            else andMain r2.1 r2.2 (r1 :: rs1) rs2
        else andMain 0 hival3 (r1 :: rs1) (r2 :: rs2)
      else
        if r2.1 ≤ hival3 then
          (max loval3 r2.1, min hival3 r2.2) ::
            if r2.2 ≤ hival3 then andMain loval3 hival3 (r1 :: rs1) rs2
            else andMain r1.1 r1.2 rs1 (r2 :: rs2)
        else andMain 0 hival3 (r1 :: rs1) (r2 :: rs2)
termination_by rs1 rs2 => (rs1.length + rs2.length, if loval3 = 0 then 0 else 1)
decreasing_by all_goals simp_all [Prod.lex_iff]

def rstAnd (set1 set2 : Rst) : Rst :=
  addRanges (rstCreate 0 0)
    (andMain 0 0 (set1.ranges.map RowRange.ends) (set2.ranges.map RowRange.ends))

/-! ## Editing -/

/-- Rows are inserted after `loval`, and all of them belong to the set. -/
def rstAddtab (set : Rst) (loval nval : Int) : Rst :=
  let (idx, set) := rstFindloc set (loval + 1)
  if idx > set.last then rstAddrange set (loval + 1) (loval + nval)
  else
    let hival := loval + nval
    -- Check for union with existing range.
    let (lo, hi, ndx) :=
      if loval + 1 < set.loval idx then (loval + 1, hival, 0)
      else (set.loval idx, set.hival idx + nval, 1)
    let tail := rstTail set (idx + ndx)
    rstConcat (rstAddrange (set.truncate (idx - 1)) lo hi) tail nval

def rstAddval (set : Rst) (value : Int) : Rst :=
  let (idx, set) := rstFindloc set value
  if idx > set.last then rstAddrange set value value
  else if value ≥ set.loval idx then set
  else
    let tail := rstTail set idx
    rstConcat (rstAddrange (set.truncate (idx - 1)) value value) tail 0

/-- The rows from `loval` to `loval + nval - 1` are deleted from the table. -/
def rstDeltab (set : Rst) (loval nval : Int) : Rst :=
  let (idx, set) := rstFindloc set loval
  if idx > set.last then set
  else
    let below :=
      if loval > set.loval idx then [(set.loval idx, loval - 1)] else []
    -- The first element past the deleted range.
    let hival := loval + nval
    let (jdx, set) := rstFindloc set hival
    let split := decide (jdx ≤ set.last ∧ hival > set.loval jdx)
    let above :=
      if split then [(hival - nval, set.hival jdx - nval)] else []
    let tail := rstTail set (if split then jdx + 1 else jdx)
    rstConcat (addRanges (set.truncate (idx - 1)) (below ++ above)) tail
      (-nval)

def rstDelval (set : Rst) (value : Int) : Rst :=
  let (idx, set) := rstFindloc set value
  if idx < 1 ∨ idx > set.last then set
  else if value < set.loval idx then set
  else
    let lo := set.loval idx
    let hi := set.hival idx
    let kept :=
      if lo = hi then []
      else if value = lo then [(value + 1, hi)]
      else if value = hi then [(lo, value - 1)]
      else [(lo, value - 1), (value + 1, hi)]
    let tail := rstTail set (idx + 1)
    rstConcat (addRanges (set.truncate (idx - 1)) kept) tail 0

end Iraf.Selector
