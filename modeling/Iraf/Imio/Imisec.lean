import Iraf.Fmtio.Ctol

/-!
# Image sections

`imisec.x` and `imaplv.x`.  The section is read from a pointer on, as the list of
the chars from there.  Arrays are indexed from 1.
-/

namespace Iraf.Imio

open Fmtio.LongText

def imMaxdim : Nat := 7
def maxLong : Int := 2147483647

inductive SectionError where
  | imsynsec
  | imdimsec
  | imstepsec
  deriving DecidableEq, Repr

/-- The part of the image descriptor that maps logical to physical pixels. -/
structure Imdes where
  imNdim : Nat
  imNphysdim : Nat
  imLen : Nat → Int
  imVmap : Nat → Nat
  imVoff : Nat → Int
  imVstep : Nat → Int

namespace Imdes

/-! ## Subscripts -/

structure Subscript where
  x1 : Int
  x2 : Int
  step : Int
  deriving DecidableEq, Repr

abbrev first : Int := 1
abbrev last : Int := maxLong

def imCtranset (im : Imdes) (dim : Nat) (s : Subscript) : Except SectionError Imdes :=
  let x1 := if s.x1 = last then im.imLen dim else s.x1
  let x2 := if s.x2 = last then im.imLen dim else s.x2
  let lengthAxis := (x2 - x1).tdiv s.step + 1
  if lengthAxis ≤ 0 then .error .imstepsec
  else .ok { im with
    imLen := Function.update im.imLen dim lengthAxis
    imVoff := Function.update im.imVoff dim (x1 - s.step)
    imVstep := Function.update im.imVstep dim s.step }

/-- The loop over the physical dimensions from `j` on, at the logical dimension `i`. -/
def imaplvFrom (im : Imdes) (lv : Nat → Int) (nldims : Nat) :
    Nat → Nat → Nat → (Nat → Int) → Nat → Int
  | 0, _, _, pv => pv
  | n + 1, j, i, pv =>
      let mapped := i ≤ nldims ∧ im.imVmap i = j
      let loff := if mapped then lv i else 1
      imaplvFrom im lv nldims n (j + 1) (if mapped then i + 1 else i)
        (Function.update pv j (im.imVoff j + im.imVstep j * loff))

/-- The physical vector of a logical one. -/
def imaplv (im : Imdes) (lv : Nat → Int) (ndim : Nat) : Nat → Int :=
  imaplvFrom im lv (min im.imNdim ndim) im.imNphysdim 1 1 fun _ => 0

end Imdes

/-! ## What a section says -/

namespace SectionText

open Imdes

/-- The subscripts of a field: all of an axis, all in the other order, one or a
range of them. -/
inductive Range where
  | star
  | flip
  | single (x : Int)
  | pair (x1 x2 : Int)
  deriving DecidableEq, Repr

structure Field where
  range : Range
  step : Option Int
  deriving DecidableEq, Repr

namespace Field

def x1 (f : Field) (n : Int) : Int :=
  match f.range with
  | .star => 1
  | .flip => n
  | .single x => x
  | .pair x1 _ => x1

def x2 (f : Field) (n : Int) : Int :=
  match f.range with
  | .star => n
  | .flip => 1
  | .single x => x
  | .pair _ x2 => x2

/-- A positive step is a negative one when the range goes down. -/
def stride (f : Field) (n : Int) : Int :=
  let step := f.step.getD 1
  if f.x1 n > f.x2 n ∧ step > 0 then -step else step

/-- The subscript that stands for the field. -/
def encoded (f : Field) : Subscript := ⟨f.x1 last, f.x2 last, f.stride last⟩

/-- How many steps there are from the first subscript up to the last one. -/
def count (f : Field) (n : Int) : Nat :=
  if 0 < f.stride n then ((f.x2 n - f.x1 n) / f.stride n + 1).toNat
  else ((f.x1 n - f.x2 n) / -f.stride n + 1).toNat

/-- The subscripts on an axis of `n` pixels. -/
def subscripts (f : Field) (n : Int) : List Int :=
  (List.range (f.count n)).map fun k : Nat => f.x1 n + k * f.stride n

end Field

def Blanks (text : List Char) : Prop := ∀ c ∈ text, isWhite c = true

/-- A number with a sign or without one. -/
inductive Number : List Char → Int → Prop
  | plain {digits : List Char} (hne : digits ≠ []) (h : ∀ c ∈ digits, c.isDigit = true) :
      Number digits (Numeral.value 10 (digits.map toInteg) : Nat)
  | plus {digits : List Char} (hne : digits ≠ []) (h : ∀ c ∈ digits, c.isDigit = true) :
      Number ('+' :: digits) (Numeral.value 10 (digits.map toInteg) : Nat)
  | minus {digits : List Char} (hne : digits ≠ []) (h : ∀ c ∈ digits, c.isDigit = true) :
      Number ('-' :: digits) (-(Numeral.value 10 (digits.map toInteg) : Nat))

inductive RangeText : List Char → Range → Prop
  | all : RangeText [] .star
  | star : RangeText ['*'] .star
  | down : RangeText ['-'] .flip
  | flip : RangeText ['-', '*'] .flip
  | single {t : List Char} {x : Int} (h : Number t x) : RangeText t (.single x)
  | pair {t t' b b' : List Char} {x1 x2 : Int} (h : Number t x1) (hb : Blanks b)
      (hb' : Blanks b') (h' : Number t' x2) :
      RangeText (t ++ (b ++ ':' :: (b' ++ t'))) (.pair x1 x2)

/-- The text of a field.  A number and a step would be the two numbers of a range. -/
inductive FieldText : List Char → Field → Prop
  | range {a t b : List Char} {range : Range} (ha : Blanks a) (h : RangeText t range)
      (hb : Blanks b) : FieldText (a ++ (t ++ b)) ⟨range, none⟩
  | step {a t b c t' d : List Char} {range : Range} {step : Int} (ha : Blanks a)
      (h : RangeText t range) (hrange : ∀ x, range ≠ .single x) (hb : Blanks b)
      (hc : Blanks c) (h' : Number t' step) (hd : Blanks d) :
      FieldText (a ++ (t ++ (b ++ ':' :: (c ++ (t' ++ d))))) ⟨range, some step⟩

/-- The texts between the commas of a section, and what comes after it. -/
def sectionText (texts : List (List Char)) (after : List Char) : List Char :=
  '[' :: ([','].intercalate texts ++ ']' :: after)

/-- The subscripts on a physical axis; an axis without a field has subscript 1. -/
def axisSubscripts (im : Imdes) (fs : List Field) (j : Nat) : List Int :=
  (fs.getD (j - 1) ⟨.single 1, none⟩).subscripts (im.imLen j)

/-- A pixel of the section. -/
def InSection (r : Imdes) (lv : Nat → Int) : Prop :=
  ∀ i, 1 ≤ i → i ≤ r.imNdim → 1 ≤ lv i ∧ lv i ≤ r.imLen i

/-- The logical pixels are the subscripts of the fields, in their order, and inside
of the image. -/
structure Shows (im r : Imdes) (fs : List Field) : Prop where
  inside : ∀ lv, InSection r lv → ∀ j, 1 ≤ j → j ≤ im.imNdim →
    1 ≤ r.imaplv lv r.imNdim j ∧ r.imaplv lv r.imNdim j ≤ im.imLen j
  axes : ∀ j, 1 ≤ j → j ≤ im.imNdim →
    (∃ i, 1 ≤ i ∧ i ≤ r.imNdim ∧ r.imVmap i = j ∧
      r.imLen i = (axisSubscripts im fs j).length ∧
      ∀ lv, InSection r lv → (axisSubscripts im fs j)[(lv i - 1).toNat]? =
        some (r.imaplv lv r.imNdim j)) ∨
    (∀ i, 1 ≤ i → i ≤ r.imNdim → r.imVmap i ≠ j) ∧
      ∀ lv, InSection r lv → axisSubscripts im fs j = [r.imaplv lv r.imNdim j]
  used : ∀ i, 1 ≤ i → i ≤ r.imNdim → 1 ≤ r.imVmap i ∧ r.imVmap i ≤ im.imNdim
  order : ∀ i i', 1 ≤ i → i < i' → i' ≤ r.imNdim → r.imVmap i < r.imVmap i'
  excess : ∀ f ∈ fs.drop im.imNdim, f.subscripts 1 = [1]

/-- An image that is not a section of another one. -/
structure WellFormed (im : Imdes) : Prop where
  pos : 1 ≤ im.imNdim
  le : im.imNdim ≤ imMaxdim
  nphysdim : im.imNphysdim = im.imNdim
  len : ∀ j, 1 ≤ j → j ≤ im.imNdim → 1 ≤ im.imLen j

/-! ## The condition -/

/-- The text up to the end of the section. -/
def inner (section_ : List Char) : List Char := section_.takeWhile (· ≠ ']')

/-- The first number of a field is followed by blanks and a colon. -/
def GapBeforeColon (text : List Char) : Prop :=
  ∃ a t b rest x, text = a ++ (t ++ (b ++ ':' :: rest)) ∧ Blanks a ∧ Number t x ∧
    Blanks b ∧ b ≠ []

/-- The first and the last pixel of the field are inside of the axis, and the step does
not go away from the second subscript so far that nothing is between.  The value that
stands for the last pixel is the last pixel. -/
structure Field.Within (f : Field) (n : Int) : Prop where
  first : 1 ≤ f.x1 n ∧ f.x1 n ≤ n
  last : 1 ≤ f.x1 n + ((f.count n : Int) - 1) * f.stride n ∧
    f.x1 n + ((f.count n : Int) - 1) * f.stride n ≤ n
  notLast : f.x1 n = maxLong ∨ f.x2 n = maxLong → n = maxLong
  stride : f.x1 n < f.x2 n → 0 < f.step.getD 1 ∨ -f.step.getD 1 ≤ f.x2 n - f.x1 n

/-- The numbers of the field are long integers. -/
structure Field.Fits (f : Field) : Prop where
  x1 : |f.x1 1| ≤ maxLong
  x2 : |f.x2 1| ≤ maxLong
  step : |f.step.getD 1| ≤ maxLong

structure Plain (im : Imdes) (section_ : List Char) : Prop where
  indef : ¬indef <:+: inner section_
  count : (inner section_).count ',' < imMaxdim
  comma : (inner section_).getLast? ≠ some ','
  fields : ∀ texts fs after, section_ = sectionText texts after →
    List.Forall₂ FieldText texts fs →
      (∀ t ∈ texts, ¬GapBeforeColon t) ∧ (∀ f ∈ fs, f.Fits) ∧
        ∀ j f, fs[j]? = some f → j < im.imNdim → f.Within (im.imLen (j + 1))

end SectionText

end Iraf.Imio
