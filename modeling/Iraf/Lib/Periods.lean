import Mathlib.Algebra.BigOperators.Group.Finset.Basic
import Mathlib.Algebra.Order.BigOperators.Group.Finset
import Mathlib.Data.Prod.Lex

/-!
# Periods

Units counted from 1 on are divided into periods of given lengths, one after the other.
A loop that passes whole periods finds the one that a unit lies in.
-/

namespace Iraf.Periods

variable {len : Nat → Nat} {k l u v fuel : Nat}

/-- The number of units before a period. -/
def before (len : Nat → Nat) (k : Nat) : Nat := ∑ i ∈ Finset.range k, len i

/-- The unit lies in the period. -/
def Within (len : Nat → Nat) (k u : Nat) : Prop :=
  before len k < u ∧ u ≤ before len (k + 1)

/-- The loop that passes the periods from `k` on, with the number of units passed; nothing
if there is no end to it within `fuel` passes. -/
def locate (len : Nat → Nat) (u : Nat) : Nat → Nat → Nat → Option (Nat × Nat)
  | 0, _, _ => none
  | fuel + 1, k, passed =>
      if u > passed + len k then locate len u fuel (k + 1) (passed + len k)
      else some (k, passed)

@[simp] theorem before_zero : before len 0 = 0 := rfl

theorem before_succ : before len (k + 1) = before len k + len k :=
  Finset.sum_range_succ len k

theorem before_mono (h : k ≤ l) : before len k ≤ before len l :=
  Finset.sum_le_sum_of_subset (Finset.range_mono h)

theorem locate_spec (hlo : before len k < u) (hhi : u ≤ before len (k + fuel)) :
    ∃ l < k + fuel, Within len l u ∧
      locate len u fuel k (before len k) = some (l, before len l) := by
  induction fuel generalizing k with
  | zero =>
      rw [Nat.add_zero] at hhi
      omega
  | succ fuel ih =>
      rw [locate, ← before_succ]
      by_cases hpass : u > before len (k + 1)
      · rw [if_pos hpass]
        obtain ⟨l, hl, hwithin, hlocate⟩ := ih hpass (by rwa [Nat.add_assoc, Nat.add_comm 1])
        exact ⟨l, by omega, hwithin, hlocate⟩
      · rw [if_neg hpass]
        exact ⟨k, by omega, ⟨hlo, not_lt.1 hpass⟩, rfl⟩

theorem Within.le_of_lt (hu : Within len k u) (hv : Within len l v) (h : u < v) : k ≤ l := by
  by_contra hlt
  have hmono := @before_mono len (l + 1) k (by omega)
  obtain ⟨hlo, -⟩ := hu
  obtain ⟨-, hhi⟩ := hv
  omega

end Iraf.Periods
