import Mathlib.Data.Nat.Digits.Lemmas

/-!
# Numerals

The digits of a number are written with the most significant one first, and zero
is written with one digit.  Reading from the left is a fold.
-/

namespace Iraf.Numeral

variable {b n k : Nat} {ds : List Nat}

def numeral (b n : Nat) : List Nat :=
  if n = 0 then [0] else (Nat.digits b n).reverse

/-- The number that a row of digits stands for. -/
def value (b : Nat) (ds : List Nat) : Nat := ds.foldl (fun sum d => sum * b + d) 0

theorem value_reverse : value b ds.reverse = Nat.ofDigits b ds := by
  rw [value, List.foldl_reverse, Nat.ofDigits_eq_foldr]
  congr 1
  funext d sum
  simp only [Nat.cast_id]
  ring

theorem value_cons {d : Nat} : value b (d :: ds) = d * b ^ ds.length + value b ds := by
  have hrev : d :: ds = (ds.reverse ++ [d]).reverse := by simp
  have hds : value b ds = Nat.ofDigits b ds.reverse := by
    rw [← value_reverse, List.reverse_reverse]
  rw [hrev, value_reverse, Nat.ofDigits_append, Nat.ofDigits_singleton, List.length_reverse,
    hds]
  ring

@[simp] theorem value_numeral : value b (numeral b n) = n := by
  unfold numeral
  split
  · simp_all [value]
  · rw [value_reverse, Nat.ofDigits_digits]

theorem numeral_ne_nil : numeral b n ≠ [] := by
  unfold numeral
  split
  · exact List.cons_ne_nil _ _
  · rwa [Ne, List.reverse_eq_nil_iff, Nat.digits_eq_nil_iff_eq_zero]

theorem lt_of_mem_numeral (hb : 1 < b) {d : Nat} (h : d ∈ numeral b n) : d < b := by
  unfold numeral at h
  split at h
  · rw [List.mem_singleton] at h
    omega
  · exact Nat.digits_lt_base hb (List.mem_reverse.1 h)

theorem length_numeral_le_iff (hb : 1 < b) (hk : 0 < k) :
    (numeral b n).length ≤ k ↔ n < b ^ k := by
  unfold numeral
  split
  · have hpow : 0 < b ^ k := by positivity
    exact iff_of_true (by simpa [Nat.one_le_iff_ne_zero] using hk.ne') (by omega)
  · rw [List.length_reverse, Nat.digits_length_le_iff hb]

/-- A row of `k` digits stands for a number less than the `k`th power of the
base. -/
theorem value_lt (hb : 1 < b) (h : ∀ d ∈ ds, d < b) : value b ds < b ^ ds.length := by
  have hlt := Nat.ofDigits_lt_base_pow_length hb (l := ds.reverse)
    fun d hd => h d (List.mem_reverse.1 hd)
  rwa [← value_reverse, List.reverse_reverse, List.length_reverse] at hlt

end Iraf.Numeral
