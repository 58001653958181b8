import Mathlib.Algebra.BigOperators.Group.List.Basic
import Mathlib.Algebra.Order.Ring.Int
import Mathlib.Order.Interval.Set.Basic

/-!
# Step functions

A list of positions with steps stands for a function of a position: the sum of the steps
up to there.
-/

namespace Iraf.StepFunction

variable {α : Type*} [LinearOrder α]

/-- The sum of the steps at the positions up to `x`. -/
def level (bs : List (α × Int)) (x : α) : Int :=
  (bs.map fun b => if b.1 ≤ x then b.2 else 0).sum

variable {bs cs : List (α × Int)} {x a b : α} {k : Int}

@[simp] theorem level_nil : level ([] : List (α × Int)) x = 0 := rfl

@[simp] theorem level_cons (p : α × Int) :
    level (p :: bs) x = (if p.1 ≤ x then p.2 else 0) + level bs x := by
  rw [level, List.map_cons, List.sum_cons]
  rfl

@[simp] theorem level_append : level (bs ++ cs) x = level bs x + level cs x := by
  rw [level, List.map_append, List.sum_append]
  rfl

theorem level_perm (h : bs.Perm cs) : level bs x = level cs x :=
  (h.map _).sum_eq

theorem level_of_lt (h : ∀ p ∈ bs, x < p.1) : level bs x = 0 := by
  apply List.sum_eq_zero
  intro n hn
  obtain ⟨p, hp, rfl⟩ := List.mem_map.1 hn
  exact if_neg (not_le.2 (h p hp))

theorem level_of_le (h : ∀ p ∈ bs, p.1 ≤ x) : level bs x = (bs.map Prod.snd).sum := by
  rw [level]
  congr 1
  exact List.map_congr_left fun p hp => if_pos (h p hp)

theorem level_pair (h : a ≤ b) :
    level [(a, k), (b, -k)] x = if a ≤ x ∧ x < b then k else 0 := by
  simp only [level_cons, level_nil, add_zero]
  by_cases ha : a ≤ x
  · by_cases hb : b ≤ x
    · rw [if_pos ha, if_pos hb, if_neg fun hx => not_lt.2 hb hx.2, add_neg_cancel]
    · rw [if_pos ha, if_neg hb, if_pos ⟨ha, not_le.1 hb⟩, add_zero]
  · rw [if_neg ha, if_neg fun hb => ha (h.trans hb), if_neg fun hx => ha hx.1, add_zero]

end Iraf.StepFunction
