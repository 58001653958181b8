import Mathlib.Data.Int.Bitwise
import Mathlib.Data.List.Basic

/-!
# Definitions of the pixel list package

The constants and macros of `plio.h` and `plset.h`.  An SPP `int` is an `Int`.
A `short` is an `Int` too, and what is stored in one goes through `toShort`.
Arrays are lists; `word` indexes them from 1 as the source does.
-/

namespace Iraf.Plio

/-! ## Machine integers -/

/-- The value a 16 bit `short` holds after `x` is assigned to it. -/
def toShort (x : Int) : Int := Int.bmod x 65536

@[simp] abbrev maxShort : Int := 32767

/-- The bound of loops and arrays declared without a size. -/
@[simp] abbrev arb : Nat := 999999999

theorem toShort_of_mem {x : Int} (hlo : -32768 ≤ x) (hhi : x ≤ 32767) :
    toShort x = x := by
  unfold toShort
  rw [Int.bmod_def]
  split <;> omega

theorem toShort_neg {x : Int} (hlo : 32768 ≤ x) (hhi : x < 65536) :
    toShort x < 0 := by
  unfold toShort
  rw [Int.bmod_def]
  split <;> omega

/-- `ll[i]` of an array indexed from 1. -/
def word (ll : List Int) (i : Int) : Int := ll.getD (i - 1).toNat 0

theorem word_append_right (before after : List Int) (i : Nat) :
    word (before ++ after) (before.length + i + 1) = after.getD i 0 := by
  have hindex : ((before.length : Int) + i + 1 - 1).toNat =
      before.length + i := by omega
  simp only [word, hindex, List.getD_eq_getElem?_getD]
  rw [List.getElem?_append_right (by omega), Nat.add_sub_cancel_left]

/-! ## Packed instructions -/

@[simp] abbrev iShift : Int := 4096
@[simp] abbrev iDatamax : Int := 4095
@[simp] abbrev iPvmax : Int := 134217727

/-- Extract the data bits; on two's complement this is `and(int(w), 7777B)`. -/
def iData (w : Int) : Int := w % 4096

def iOpcode (w : Int) : Int := w.tdiv 4096

@[simp] abbrev iZn : Int := 0
@[simp] abbrev iSh : Int := 1
@[simp] abbrev iIh : Int := 2
@[simp] abbrev iDh : Int := 3
@[simp] abbrev iHn : Int := 4
@[simp] abbrev iPn : Int := 5
@[simp] abbrev iIs : Int := 6
@[simp] abbrev iDs : Int := 7

@[simp] abbrev mZn : Int := 0
@[simp] abbrev mSh : Int := 4096
@[simp] abbrev mIh : Int := 8192
@[simp] abbrev mDh : Int := 12288
@[simp] abbrev mMove : Int := 16384
@[simp] abbrev mHn : Int := 16384
@[simp] abbrev mPn : Int := 20480
@[simp] abbrev mIs : Int := 24576
@[simp] abbrev mDs : Int := 28672

/-! ## Line list headers -/

@[simp] abbrev llCurversion : Int := -100
@[simp] abbrev llCurhdrlen : Nat := 7
@[simp] abbrev ollFirst : Int := 4

def llNref (ll : List Int) : Int := word ll 1
def llHdrlen (ll : List Int) : Int := word ll 2
def llVersion (ll : List Int) : Int := word ll 3
def llLen (ll : List Int) : Int := word ll 5 * 32768 + word ll 4
def llBlen (ll : List Int) : Int := word ll 7 * 32768 + word ll 6
def llFirst (ll : List Int) : Int := llHdrlen ll + 1
def ollLen (ll : List Int) : Int := word ll 3

abbrev LlOldformat (ll : List Int) : Prop := llVersion ll > 0

/-- The two words that hold a length, low part first. -/
def lengthWords (n : Int) : List Int :=
  [toShort (n.tmod 32768), toShort (n.tdiv 32768)]

/-- A header with reference count `nref`, list length `len` and buffer length
`blen`. -/
def header (nref len blen : Int) : List Int :=
  [toShort nref, llCurhdrlen, llCurversion] ++ lengthWords len ++
    lengthWords blen

@[simp] theorem length_header (nref len blen : Int) :
    (header nref len blen).length = llCurhdrlen := rfl

theorem lengthWords_value {n : Int} (hlo : 0 ≤ n) (hhi : n < 2 ^ 30) :
    toShort (n.tdiv 32768) * 32768 + toShort (n.tmod 32768) = n := by
  rw [Int.tdiv_eq_ediv_of_nonneg hlo, Int.tmod_eq_emod_of_nonneg hlo,
    toShort_of_mem (by omega) (by omega), toShort_of_mem (by omega) (by omega)]
  omega

section HeaderFields

variable (nref len blen : Int) (body : List Int)

theorem llNref_header : llNref (header nref len blen ++ body) =
    toShort nref := rfl

theorem llFirst_header : llFirst (header nref len blen ++ body) = 8 := rfl

theorem llVersion_header :
    llVersion (header nref len blen ++ body) = llCurversion := rfl

theorem not_oldformat_header :
    ¬ LlOldformat (header nref len blen ++ body) := by
  simp [LlOldformat, llVersion_header]

theorem word_lenhi_header : word (header nref len blen ++ body) 5 =
    toShort (len.tdiv 32768) := rfl

theorem llLen_header (hlo : 0 ≤ len) (hhi : len < 2 ^ 30) :
    llLen (header nref len blen ++ body) = len :=
  lengthWords_value hlo hhi

theorem llLen_header_neg (hlo : 1073741824 ≤ len) (hhi : len < 2147483648) :
    llLen (header nref len blen ++ body) < 0 := by
  have hhigh := toShort_neg (x := len.tdiv 32768)
    (by rw [Int.tdiv_eq_ediv_of_nonneg (by omega)]; omega)
    (by rw [Int.tdiv_eq_ediv_of_nonneg (by omega)]; omega)
  have hlow : toShort (len.tmod 32768) ≤ 32767 := by
    rw [Int.tmod_eq_emod_of_nonneg (by omega), toShort_of_mem (by omega) (by omega)]
    omega
  change toShort (len.tdiv 32768) * 32768 + toShort (len.tmod 32768) < 0
  omega

theorem llBlen_header (hlo : 0 ≤ blen) (hhi : blen < 2 ^ 30) :
    llBlen (header nref len blen ++ body) = blen :=
  lengthWords_value hlo hhi

end HeaderFields

/-! ## Rasterops -/

@[simp] abbrev pixClr : Int := 0
@[simp] abbrev pixNotSrcOrDst : Int := 1
@[simp] abbrev pixNotsrcAndDst : Int := 2
@[simp] abbrev pixNotsrc : Int := 3
@[simp] abbrev pixSrcAndNotdst : Int := 4
@[simp] abbrev pixNotdst : Int := 5
@[simp] abbrev pixSrcXorDst : Int := 6
@[simp] abbrev pixNotSrcAndDst : Int := 7
@[simp] abbrev pixSrcAndDst : Int := 8
@[simp] abbrev pixNotSrcXorDst : Int := 9
@[simp] abbrev pixDst : Int := 10
@[simp] abbrev pixNotsrcOrDst : Int := 11
@[simp] abbrev pixSrc : Int := 12
@[simp] abbrev pixSrcOrNotdst : Int := 13
@[simp] abbrev pixSrcOrDst : Int := 14
@[simp] abbrev pixSet : Int := 15

def rOpcode (rop : Int) : Int := Int.land rop 15
def rData (rop : Int) : Int := rop.tdiv 64

abbrev RNeedDst (rop : Int) : Prop :=
  Int.land (Int.xor (rop.tdiv 2) rop) 5 ≠ 0
abbrev RNeedSrc (rop : Int) : Prop :=
  Int.land (Int.xor (rop.tdiv 4) rop) 3 ≠ 0
abbrev RNotdst (rop : Int) : Prop := Int.land rop 6 = 4
abbrev RNotsrc (rop : Int) : Prop := Int.land rop 6 = 2

/-- `MV`: the greatest pixel value of a mask of the given depth. -/
def mv (depth : Int) : Int := 2 ^ (min depth 27).toNat - 1

end Iraf.Plio
