import Mathlib.Data.Nat.ModEq
import Mathlib.Logic.Function.Basic
import Mathlib.Tactic.Common

/-!
# Rings that hold the end of a tape

All that was ever written is a tape.  A ring of `size` cells holds its last
`size` items, the item at place `i` of the tape in cell `i % size`.
-/

namespace Iraf.RingTape

variable {α : Type*} {size : Nat} {m : Nat → α} {tape : List α} {i j k : Nat}

/-! ## Cells -/

theorem mod_succ (h : 0 < size) :
    (k + 1) % size = if k % size + 1 ≥ size then 0 else k % size + 1 := by
  have hlt := Nat.mod_lt k h
  by_cases hone : size = 1
  · subst hone
    simp [Nat.mod_one]
  · rw [Nat.add_mod_eq_ite, Nat.mod_eq_of_lt (show 1 < size by omega)]
    split <;> omega

theorem mod_pred (h : 0 < size) :
    k % size = if (k + 1) % size = 0 then size - 1 else (k + 1) % size - 1 := by
  have hlt := Nat.mod_lt k h
  rw [mod_succ h]
  split <;> split <;> omega

theorem mod_eq_iff (hle : i ≤ k) (hlt : k < i + size) : i % size = k % size ↔ i = k := by
  refine ⟨fun h => ?_, fun h => by rw [h]⟩
  obtain ⟨d, rfl⟩ := Nat.exists_eq_add_of_le hle
  have hdvd : size ∣ i + d - i := (Nat.modEq_iff_dvd' hle).1 h
  rw [Nat.add_sub_cancel_left] at hdvd
  have := Nat.eq_zero_of_dvd_of_lt hdvd (by omega)
  omega

/-! ## The ring -/

/-- The ring holds the last `size` items of the tape. -/
def Window (size : Nat) (m : Nat → α) (tape : List α) : Prop :=
  ∀ (i : Nat) (h : i < tape.length), tape.length ≤ i + size → m (i % size) = tape[i]

theorem Window.nil : Window size m ([] : List α) :=
  fun _ h => absurd h (Nat.not_lt_zero _)

theorem Window.push (h : Window size m tape) (item : α) :
    Window size (Function.update m (tape.length % size) item) (tape ++ [item]) := by
  intro i hi hlast
  rw [List.length_append, List.length_singleton] at hi hlast
  obtain hlt | rfl : i < tape.length ∨ i = tape.length := by omega
  · have hne : i % size ≠ tape.length % size := by
      rw [Ne, mod_eq_iff hlt.le (by omega)]
      omega
    rw [Function.update_of_ne hne, h i hlt (by omega), List.getElem_append_left]
  · rw [Function.update_self, List.getElem_append_right le_rfl]
    simp

end Iraf.RingTape
