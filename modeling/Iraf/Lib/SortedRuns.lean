import Mathlib.Data.List.Basic
import Mathlib.Order.Lattice
import Mathlib.Tactic.Common

/-!
# The runs of a sorted list

In a sorted list the elements below a bound come first, so that equal elements lie one
behind another; where they lie is found by counting.
-/

namespace Iraf

variable {α : Type*} [LinearOrder α]

theorem sorted_lt_iff {l : List α} (h : l.Pairwise (· ≤ ·)) {i : Nat} (hi : i < l.length) (y : α) :
    l[i] < y ↔ i < l.countP (· < y) := by
  induction l generalizing i with
  | nil => simp at hi
  | cons a l ih =>
      obtain ⟨hhead, htail⟩ := List.pairwise_cons.1 h
      by_cases ha : a < y
      · rw [List.countP_cons_of_pos (by simpa using ha)]
        cases i with
        | zero => simpa using ha
        | succ i =>
            rw [List.getElem_cons_succ, ih htail]
            omega
      · have hnone : l.countP (· < y) = 0 := by
          rw [List.countP_eq_zero]
          intro b hb
          have := hhead b hb
          simpa using (not_lt.1 ha).trans this
        rw [List.countP_cons_of_neg (by simpa using ha), hnone]
        cases i with
        | zero => simpa using ha
        | succ i =>
            rw [List.getElem_cons_succ, ih htail, hnone]
            omega

theorem sorted_le_iff {l : List α} (h : l.Pairwise (· ≤ ·)) {i : Nat} (hi : i < l.length) (y : α) :
    l[i] ≤ y ↔ i < l.countP (· < y) + l.countP (· = y) := by
  induction l generalizing i with
  | nil => simp at hi
  | cons a l ih =>
      obtain ⟨hhead, htail⟩ := List.pairwise_cons.1 h
      rcases lt_trichotomy a y with ha | rfl | ha
      · rw [List.countP_cons_of_pos (by simpa using ha),
          List.countP_cons_of_neg (by simpa using ha.ne)]
        cases i with
        | zero => exact iff_of_true ha.le (by omega)
        | succ i =>
            rw [List.getElem_cons_succ, ih htail]
            omega
      · rw [List.countP_cons_of_neg (by simp), List.countP_cons_of_pos (by simp)]
        cases i with
        | zero => exact iff_of_true le_rfl (by omega)
        | succ i =>
            rw [List.getElem_cons_succ, ih htail]
            omega
      · have hnone : ∀ b ∈ a :: l, ¬ b ≤ y := by
          intro b hb
          rcases List.mem_cons.1 hb with rfl | hb
          · exact not_le.2 ha
          · exact not_le.2 (ha.trans_le (hhead b hb))
        have hlt : (a :: l).countP (· < y) = 0 := by
          rw [List.countP_eq_zero]
          exact fun b hb => by simpa using (not_le.1 (hnone b hb)).le
        have heq : (a :: l).countP (· = y) = 0 := by
          rw [List.countP_eq_zero]
          exact fun b hb => by simpa using (not_le.1 (hnone b hb)).ne'
        rw [hlt, heq]
        exact iff_of_false (hnone _ (List.getElem_mem hi)) (by omega)

theorem sorted_eq_iff {l : List α} (h : l.Pairwise (· ≤ ·)) {i : Nat} (hi : i < l.length) (y : α) :
    l[i] = y ↔ l.countP (· < y) ≤ i ∧ i < l.countP (· < y) + l.countP (· = y) := by
  have hge : y ≤ l[i] ↔ l.countP (· < y) ≤ i := by
    rw [← not_lt, sorted_lt_iff h hi, Nat.not_lt]
  rw [← hge, ← sorted_le_iff h hi, and_comm]
  exact le_antisymm_iff

end Iraf
