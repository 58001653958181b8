import Mathlib.Algebra.BigOperators.Group.List.Basic
import Mathlib.Algebra.Order.Ring.Int
import Mathlib.Tactic.Linarith

/-!
# Numbers in a mixed radix

The number of a cell of an array of several dimensions, the first of them
running fastest.  Digits below their bases and numbers below the product of the
bases determine each other.
-/

namespace Iraf.MixedRadix

/-- The number with the given digits, the least significant first. -/
def value : List Int → (Nat → Int) → Int
  | [], _ => 0
  | b :: bs, d => d 0 + b * value bs fun j => d (j + 1)

/-- The digits are digits for the bases. -/
def Digits (bs : List Int) (d : Nat → Int) : Prop :=
  ∀ j (hj : j < bs.length), 0 ≤ d j ∧ d j < bs[j]

theorem Digits.head {b : Int} {bs : List Int} {d : Nat → Int}
    (h : Digits (b :: bs) d) : 0 ≤ d 0 ∧ d 0 < b := h 0 (by simp)

theorem Digits.tail {b : Int} {bs : List Int} {d : Nat → Int}
    (h : Digits (b :: bs) d) : Digits bs fun j => d (j + 1) :=
  fun j hj => h (j + 1) (by simpa using hj)

theorem value_congr {bs : List Int} {d e : Nat → Int}
    (h : ∀ j, j < bs.length → d j = e j) : value bs d = value bs e := by
  induction bs generalizing d e with
  | nil => rfl
  | cons b bs ih =>
      rw [value, value, h 0 (Nat.succ_pos _),
        ih fun j hj => h (j + 1) (Nat.succ_lt_succ hj)]

theorem value_range {bs : List Int} {d : Nat → Int} (h : Digits bs d) :
    0 ≤ value bs d ∧ value bs d < bs.prod := by
  induction bs generalizing d with
  | nil => simp [value]
  | cons b bs ih =>
      obtain ⟨hlo, hhi⟩ := h.head
      obtain ⟨hrlo, hrhi⟩ := ih h.tail
      rw [value, List.prod_cons]
      constructor
      · nlinarith
      · nlinarith

end Iraf.MixedRadix
