import Mathlib.Data.Set.Finite.Basic
import Mathlib.Order.Interval.Set.Basic
import Mathlib.Order.Bounds.Basic
import Iraf.Fmtio.Ctol

/-!
# Lists of ranges with steps

The routines of `ranges.x`.  A range string is the list of its chars; the array of ranges is the
list of its triples, after which `EOLIST` follows.
-/

namespace Iraf.Xtools

open Fmtio.LongText (isWhite toInteg indefl indef)

/-- The largest integer, `MAX_INT` of the machine include file. -/
def maxInt : Int := 2147483647

def EOLIST : Int := 0

/-- The elements `ranges[1,n]`, `ranges[2,n]` and `ranges[3,n]`. -/
structure RangeTriple where
  first : Int
  last : Int
  step : Int
  deriving DecidableEq, Repr

/-! ## Decoding -/

/-- The number of chars converted, the value, and the text after them. -/
def ctoi (str : List Char) : Int × Int × List Char :=
  let start := str.dropWhile isWhite
  if indef <+: start ∧ ((start.drop 5).head?.all fun c => !c.isAlphanum) then
    (5, indefl, start.drop 5)
  else
    let neg := start.head? == some '-'
    let ip := if neg then start.drop 1 else start
    let digits := ip.takeWhile Char.isDigit
    let sum : Int := Numeral.value 10 (digits.map toInteg)
    let ip := ip.drop digits.length
    (start.length - ip.length, if neg then -sum else sum, ip)

def skipDelimiters (str : List Char) : List Char :=
  str.dropWhile fun c => isWhite c || c == ','

/-- The first limit, which may be left out; `none` stands for `ERR`. -/
def firstLimit : List Char → Option (Int × List Char)
  | [] => none
  | c :: str =>
      if c = '-' ∨ c = 'x' then some (1, c :: str)
      else if c.isDigit then
        let (nchars, first, str) := ctoi (c :: str)
        if nchars = 0 then none else some (first, str)
      else none

/-- The last limit. -/
def lastLimit (first : Int) (str : List Char) : Option (Int × List Char) :=
  match str with
  | 'x' :: str => some (maxInt, 'x' :: str)
  | '-' :: str =>
      match skipDelimiters str with
      | [] => some (maxInt, [])
      | c :: str =>
          if c.isDigit then
            let (nchars, last, str) := ctoi (c :: str)
            if nchars = 0 then none else some (last, str)
          else if c = 'x' then some (maxInt, c :: str)
          else none
  | str => some (first, str)

def rangeStep (str : List Char) : Option (Int × List Char) :=
  match str with
  | 'x' :: str =>
      match skipDelimiters str with
      | [] => some (1, [])
      | c :: str =>
          if c.isDigit then
            let (_, step, str) := ctoi (c :: str)
            if step = 0 then none else some (step, str)
          else if c = '-' then some (1, c :: str)
          else none
  | str => some (1, str)

/-- The loop over `nrange`, with `room` turns left. -/
def decodeLoop : Nat → Bool → List Char → Int → Option (List RangeTriple × Int)
  | 0, _, _, _ => none
  | room + 1, isFirst, str, nvalues =>
      match skipDelimiters str with
      | [] => if isFirst then some ([⟨1, maxInt, 1⟩], maxInt) else some ([], nvalues)
      | c :: str => do
          let (first, str) ← firstLimit (c :: str)
          let (last, str) ← lastLimit first (skipDelimiters str)
          let (step, str) ← rangeStep (skipDelimiters str)
          let (ranges, nvalues) ←
            decodeLoop room false str (nvalues + (|last - first|).tdiv step + 1)
          some (⟨first, last, step⟩ :: ranges, nvalues)

/-- The triples and the number of values; `none` stands for `ERR`. -/
def decodeRanges (rangeString : List Char) (maxRanges : Nat) : Option (List RangeTriple × Int) :=
  decodeLoop (maxRanges - 1) true rangeString 0

/-! ## Numbers of a list -/

namespace RangeTriple

def lo (r : RangeTriple) : Int := min r.first r.last

def hi (r : RangeTriple) : Int := max r.first r.last

/-- `mod (number - first, step)`. -/
def remainder (r : RangeTriple) (number : Int) : Int := (number - r.lo).tmod r.step

end RangeTriple

def stepZero : String := "Step size of zero in range list"

/-- `EOF`, when the sentinel has not been replaced, or the number. -/
def numberOrEof (sentinel next_number : Int) : Option Int :=
  if next_number = sentinel then none else some next_number

/-- The loop of `get_next_number`. -/
def nextLoop (number next_number : Int) : List RangeTriple → Except String (Option Int)
  | [] => .ok (numberOrEof maxInt next_number)
  | r :: ranges =>
      if r.first = EOLIST then .ok (numberOrEof maxInt next_number)
      else if r.step = 0 then .error stepZero
      else if number ≥ r.lo ∧ number ≤ r.hi then
        if r.remainder number = 0 then .ok (some number)
        else if number - r.remainder number + r.step ≤ r.hi then
          nextLoop number (number - r.remainder number + r.step) ranges
        else nextLoop number next_number ranges
      else if r.lo > number then nextLoop number (min next_number r.lo) ranges
      else nextLoop number next_number ranges

/-- `none` stands for `EOF`; otherwise the number is also what `number` is set to. -/
def getNextNumber (ranges : List RangeTriple) (number : Int) : Except String (Option Int) :=
  nextLoop (number + 1) maxInt ranges

/-- The loop of `get_previous_number`. -/
def previousLoop (number next_number : Int) : List RangeTriple → Except String (Option Int)
  | [] => .ok (numberOrEof 0 next_number)
  | r :: ranges =>
      if r.first = EOLIST then .ok (numberOrEof 0 next_number)
      else if r.step = 0 then .error stepZero
      else if number ≥ r.lo ∧ number ≤ r.hi then
        if r.remainder number = 0 then .ok (some number)
        else if number - r.remainder number ≥ r.lo then
          previousLoop number (number - r.remainder number) ranges
        else previousLoop number next_number ranges
      else if r.hi < number then
        if r.remainder r.hi = 0 then previousLoop number (max next_number r.hi) ranges
        else if r.hi - r.remainder r.hi ≥ r.lo then
          previousLoop number (max next_number (r.hi - r.remainder r.hi)) ranges
        else previousLoop number next_number ranges
      else previousLoop number next_number ranges

def getPreviousNumber (ranges : List RangeTriple) (number : Int) : Except String (Option Int) :=
  previousLoop (number - 1) 0 ranges

/-- The number that `is_in_range` looks for: an indefinite one is mapped to the largest
integer. -/
def soughtNumber (number : Int) : Int := if number = indefl then maxInt else number

/-- The loop of `is_in_range`. -/
def inRangeLoop (num : Int) : List RangeTriple → Bool
  | [] => false
  | r :: ranges =>
      if r.first = EOLIST then false
      else if (num ≥ r.lo ∧ num ≤ r.hi) ∧ r.remainder num = 0 then true
      else inRangeLoop num ranges

def isInRange (ranges : List RangeTriple) (number : Int) : Bool :=
  inRangeLoop (soughtNumber number) ranges

end Iraf.Xtools
