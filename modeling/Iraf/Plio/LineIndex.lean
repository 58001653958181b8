import Mathlib.Tactic.Ring
import Iraf.Lib.MixedRadix
import Iraf.Plio.Mask

/-!
# The index of a line

The index that `pl_reference` and `pl_update` compute for a line of a mask, as
the number of its coordinates above the first in the radix of the axis lengths.
-/

namespace Iraf.Plio

open MixedRadix

/-- The axis lengths a mask can be made with. -/
def Axes (axlen : List Int) : Prop :=
  0 < axlen.length ∧ axlen.length ≤ plMaxdim ∧ ∀ a ∈ axlen, 0 < a

instance : DecidablePred Axes := fun axlen => by unfold Axes; infer_instance

/-- The coordinates of a line, from the second one on, are in the mask. -/
def OnLine (axlen v : List Int) : Prop :=
  ∀ i, 2 ≤ i → i ≤ axlen.length → 1 ≤ word v i ∧ word v i ≤ word axlen i

/-- The number of lines. -/
def lineCount (axlen : List Int) : Nat := (axlen.drop 1).prod.toNat

/-- The index of a line, counted from 0. -/
def lineNumber (axlen v : List Int) : Nat :=
  (value (axlen.drop 1) fun j => word v (j + 2 : Nat) - 1).toNat

/-- The descriptor has the given axis lengths. -/
def Mask.HasAxes (m : Mask) (axlen : List Int) : Prop :=
  m.naxes = axlen.length ∧
    m.axlen = axlen ++ List.replicate (plMaxdim - axlen.length) 1

namespace OnLine

variable {axlen v w : List Int}

theorem digits (h : OnLine axlen v) :
    Digits (axlen.drop 1) fun j => word v (j + 2 : Nat) - 1 := by
  intro j hj
  rw [List.length_drop] at hj
  have hget := h (j + 2) (by omega) (by omega)
  have hindex : (((j + 2 : Nat) : Int) - 1).toNat = j + 1 := by omega
  have hlen : word axlen (j + 2 : Nat) = (axlen.drop 1)[j] := by
    rw [List.getElem_drop, word, hindex, List.getD_eq_getElem _ _ (by omega)]
    congr 1
    omega
  rw [hlen] at hget
  simp only
  omega

theorem lineNumber_lt (h : OnLine axlen v) :
    lineNumber axlen v < lineCount axlen := by
  have hrange := value_range h.digits
  unfold lineNumber lineCount
  omega

end OnLine

theorem axisIndex_eq {m : Mask} {v bs : List Int} {i : Nat}
    (hax : ∀ j (hj : j < bs.length), m.axlenAt (i + j) = bs[j])
    (hv : Digits bs fun j => word v (i + j : Nat) - 1) (index totlen : Int) :
    axisIndex m v bs.length i index totlen =
      .ok (index + totlen * value bs fun j => word v (i + j : Nat) - 1) := by
  induction bs generalizing i index totlen with
  | nil => simp [axisIndex, value]
  | cons b bs ih =>
      have hb : m.axlenAt i = b := hax 0 (by simp)
      have hdigit := hv.head
      have hnext : ∀ j, i + (j + 1) = i + 1 + j := fun j => by omega
      have hshift : (fun j => word v (i + (j + 1) : Nat) - 1) =
          fun j => word v (i + 1 + j : Nat) - 1 := by
        funext j
        rw [hnext j]
      have htail := hv.tail
      rw [hshift] at htail
      have hrun := ih (i := i + 1)
        (fun j hj => by
          rw [← hnext j]
          exact hax (j + 1) (by simpa using hj)) htail
        (index + totlen * (word v i - 1)) (totlen * b)
      rw [List.length_cons, axisIndex]
      simp only [hb, Nat.add_zero] at hdigit ⊢
      rw [if_neg (by omega), hrun, value, hshift]
      congr 1
      rw [Int.mul_add, Int.mul_assoc, Int.add_assoc]
      rfl

theorem axisIndex_oob {m : Mask} {v : List Int} {n i j : Nat} (hj : i ≤ j) (hn : j < i + n)
    (hout : word v j < 1 ∨ m.axlenAt j < word v j) (index totlen : Int) :
    axisIndex m v n i index totlen = .error .plrefoob := by
  induction n generalizing i index totlen with
  | zero => omega
  | succ n ih =>
      rw [axisIndex]
      by_cases hbad : word v i < 1 ∨ word v i > m.axlenAt i
      · rw [if_pos hbad]
      · rw [if_neg hbad]
        have hne : i ≠ j := by
          rintro rfl
          exact hbad hout
        exact ih (by omega) (by omega) _ _

theorem lineIndex_off_axis {m : Mask} {axlen v : List Int} (hm : m.HasAxes axlen) {j : Nat}
    (hlo : 2 ≤ j) (hhi : j ≤ axlen.length) (hout : word v j < 1 ∨ word axlen j < word v j) :
    lineIndex m v = .error .plrefoob := by
  have hword : m.axlenAt j = word axlen j := by
    have hindex : ((j : Int) - 1).toNat < axlen.length := by omega
    rw [Mask.axlenAt, hm.2, word, word, List.getD_append _ _ _ _ hindex]
  rw [← hword] at hout
  unfold lineIndex
  by_cases htwo : m.naxes = 2
  · have hnaxes := hm.1
    obtain rfl : j = 2 := by omega
    rw [if_pos htwo]
    exact if_pos hout
  · rw [if_neg htwo]
    exact axisIndex_oob hlo (by rw [hm.1]; omega) hout 1 1

theorem lineIndex_oob {m : Mask} {axlen v : List Int} (hm : m.HasAxes axlen) {j : Nat}
    (hlo : 2 ≤ j) (hhi : j ≤ axlen.length) (hout : word axlen j < word v j) :
    lineIndex m v = .error .plrefoob :=
  lineIndex_off_axis hm hlo hhi (.inr hout)

theorem lineIndex_eq {m : Mask} {axlen v : List Int} (hm : m.HasAxes axlen)
    (hax : Axes axlen) (hv : OnLine axlen v) :
    lineIndex m v = .ok ((lineNumber axlen v : Int) + 1) := by
  have hrange := value_range hv.digits
  have hword : ∀ j (hj : j < (axlen.drop 1).length),
      m.axlenAt (2 + j) = (axlen.drop 1)[j] := by
    intro j hj
    rw [List.length_drop] at hj
    have hindex : (((2 + j : Nat) : Int) - 1).toNat = j + 1 := by omega
    rw [Mask.axlenAt, hm.2, word, hindex,
      List.getD_append _ _ _ _ (by omega), List.getD_eq_getElem _ _ (by omega),
      List.getElem_drop]
    congr 1
    omega
  have hcomm : (fun j => word v (j + 2 : Nat) - 1) =
      fun j => word v (2 + j : Nat) - 1 := by
    funext j
    rw [Nat.add_comm]
  unfold lineIndex lineNumber
  by_cases htwo : m.naxes = 2
  · obtain ⟨a, b, rfl⟩ : ∃ a b, axlen = [a, b] := by
      rw [hm.1] at htwo
      exact List.length_eq_two.mp htwo
    have hb : m.axlenAt 2 = b := hword 0 (by simp)
    have hget := hv 2 (by omega) (by simp)
    have hbound : word [a, b] (2 : Nat) = b := rfl
    rw [hbound] at hget
    rw [if_pos htwo, hb, if_neg (by simp only [Nat.cast_ofNat] at hget; omega)]
    congr 1
    simp only [List.drop_succ_cons, List.drop_zero, value, mul_zero, add_zero,
      Nat.zero_add, Nat.cast_ofNat] at hget ⊢
    omega
  · have hn : m.naxes - 1 = (axlen.drop 1).length := by
      rw [hm.1, List.length_drop]
    have hdigits := hv.digits
    rw [hcomm] at hdigits hrange ⊢
    rw [if_neg htwo, hn, axisIndex_eq hword hdigits]
    congr 1
    omega

end Iraf.Plio
