import Mathlib.Data.Int.Bitwise

/-!
# Bits of integers

An integer is determined by its bits, and the bits of a number between 0 and a
mask `2 ^ d - 1` are bits of the mask.
-/

namespace Iraf.IntBits

theorem eq_of_testBit {m n : Int} (h : ∀ i, m.testBit i = n.testBit i) :
    m = n := by
  -- Bits far enough out tell the sign.
  have hfar : ∀ a b : Nat, ∃ i, a.testBit i = false ∧ b.testBit i = false := by
    intro a b
    have hpow : max a b < 2 ^ max a b := Nat.lt_two_pow_self
    exact ⟨max a b, Nat.testBit_lt_two_pow (by omega),
      Nat.testBit_lt_two_pow (by omega)⟩
  cases m with
  | ofNat a =>
      cases n with
      | ofNat b =>
          have hab : a = b := Nat.eq_of_testBit_eq h
          rw [hab]
      | negSucc b =>
          obtain ⟨i, ha, hb⟩ := hfar a b
          have hi := h i
          simp only [Int.testBit, ha, hb] at hi
          cases hi
  | negSucc a =>
      cases n with
      | ofNat b =>
          obtain ⟨i, ha, hb⟩ := hfar a b
          have hi := h i
          simp only [Int.testBit, ha, hb] at hi
          cases hi
      | negSucc b =>
          have hab : a = b := Nat.eq_of_testBit_eq fun i =>
            Bool.not_inj (h i)
          rw [hab]

theorem testBit_zero (i : Nat) : (0 : Int).testBit i = false := by
  simp [Int.testBit]

theorem testBit_mask {d : Nat} {v : Int} (hlo : 0 ≤ v) (hhi : v ≤ 2 ^ d - 1)
    {i : Nat} (hi : v.testBit i = true) : (2 ^ d - 1 : Int).testBit i = true := by
  obtain ⟨n, rfl⟩ := Int.eq_ofNat_of_zero_le hlo
  have hmask : (2 ^ d - 1 : Int) = ((2 ^ d - 1 : Nat) : Int) := by
    have := Nat.two_pow_pos d
    push_cast [Nat.cast_sub this]
    rfl
  rw [hmask] at hhi ⊢
  change (2 ^ d - 1 : Nat).testBit i = true
  change n.testBit i = true at hi
  have hlt : n < 2 ^ d := by
    have := Nat.two_pow_pos d
    omega
  rw [Nat.testBit_two_pow_sub_one, decide_eq_true_iff]
  by_contra hge
  rw [Nat.testBit_lt_two_pow (lt_of_lt_of_le hlt
    (Nat.pow_le_pow_right (by decide) (by omega)))] at hi
  cases hi

end Iraf.IntBits
