import Mathlib.Order.Interval.Set.Basic

/-!
# Lists of closed ranges

Closed ranges of a linear order, listed in increasing order, and the list of the ranges
that two such lists have in common.
-/

namespace Iraf.RangeSets

variable {β : Type*} [LinearOrder β]

/-- The points of the ranges. -/
def points (l : List (β × β)) : Set β := {b | ∃ r ∈ l, b ∈ Set.Icc r.1 r.2}

/-- Increasing disjoint ranges. -/
structure Increasing (l : List (β × β)) : Prop where
  proper : ∀ r ∈ l, r.1 ≤ r.2
  apart : l.Pairwise fun r s => r.2 < s.1

/-- The ranges in common, found by advancing in one list or the other. -/
def common : List (β × β) → List (β × β) → List (β × β)
  | [], _ => []
  | _ :: _, [] => []
  | x :: xs, y :: ys =>
      if x.2 < y.1 then common xs (y :: ys)
      else if y.2 < x.1 then common (x :: xs) ys
      else (max x.1 y.1, min x.2 y.2) ::
        if x.2 < y.2 then common xs (y :: ys) else common (x :: xs) ys
termination_by xs ys => xs.length + ys.length

variable {x y : β × β} {xs ys : List (β × β)} {b : β}

theorem points_cons : points (x :: xs) = Set.Icc x.1 x.2 ∪ points xs := by
  ext b
  simp [points]

@[simp] theorem points_nil : points ([] : List (β × β)) = ∅ := by
  ext b
  simp [points]

theorem Increasing.sublist (h : Increasing ys) (hsub : xs.Sublist ys) : Increasing xs where
  proper r hr := h.proper r (hsub.subset hr)
  apart := h.apart.sublist hsub

theorem Increasing.tail (h : Increasing (x :: xs)) : Increasing xs :=
  h.sublist (List.sublist_cons_self x xs)

theorem Increasing.lt_of_mem (h : Increasing (x :: xs)) (hb : b ∈ points xs) : x.2 < b := by
  obtain ⟨r, hr, hlo, -⟩ := hb
  exact lt_of_lt_of_le ((List.pairwise_cons.mp h.apart).1 r hr) hlo

theorem Increasing.le_of_mem (h : Increasing (x :: xs)) (hb : b ∈ points (x :: xs)) :
    x.1 ≤ b := by
  rw [points_cons] at hb
  rcases hb with hb | hb
  · exact hb.1
  · exact le_trans (h.proper x List.mem_cons_self) (h.lt_of_mem hb).le

theorem mem_common {r : β × β} (hr : r ∈ common xs ys) :
    ∃ x ∈ xs, ∃ y ∈ ys, r = (max x.1 y.1, min x.2 y.2) := by
  induction xs, ys using common.induct with
  | case1 ys => simp [common] at hr
  | case2 x xs => simp [common] at hr
  | case3 x xs y ys hbefore ih =>
      rw [common, if_pos hbefore] at hr
      obtain ⟨x', hx', h⟩ := ih hr
      exact ⟨x', List.mem_cons_of_mem x hx', h⟩
  | case4 x xs y ys hbefore hafter ih =>
      rw [common, if_neg hbefore, if_pos hafter] at hr
      obtain ⟨x', hx', y', hy', h⟩ := ih hr
      exact ⟨x', hx', y', List.mem_cons_of_mem y hy', h⟩
  | case5 x xs y ys hbefore hafter ihx ihy =>
      rw [common, if_neg hbefore, if_neg hafter, List.mem_cons] at hr
      rcases hr with rfl | hr
      · exact ⟨x, List.mem_cons_self, y, List.mem_cons_self, rfl⟩
      · split at hr
        · obtain ⟨x', hx', h⟩ := ihx hr
          exact ⟨x', List.mem_cons_of_mem x hx', h⟩
        · obtain ⟨x', hx', y', hy', h⟩ := ihy hr
          exact ⟨x', hx', y', List.mem_cons_of_mem y hy', h⟩

theorem points_common (hxs : Increasing xs) (hys : Increasing ys) :
    points (common xs ys) = points xs ∩ points ys := by
  induction xs, ys using common.induct with
  | case1 ys => simp [common]
  | case2 x xs => simp [common]
  | case3 x xs y ys hbefore ih =>
      rw [common, if_pos hbefore, ih hxs.tail hys, points_cons (x := x)]
      ext b
      constructor
      · rintro ⟨hx, hy⟩
        exact ⟨.inr hx, hy⟩
      · rintro ⟨hx | hx, hy⟩
        · exact absurd (lt_of_le_of_lt hx.2 hbefore) (not_lt.mpr (hys.le_of_mem hy))
        · exact ⟨hx, hy⟩
  | case4 x xs y ys hbefore hafter ih =>
      rw [common, if_neg hbefore, if_pos hafter, ih hxs hys.tail, points_cons (x := y)]
      ext b
      constructor
      · rintro ⟨hx, hy⟩
        exact ⟨hx, .inr hy⟩
      · rintro ⟨hx, hy | hy⟩
        · exact absurd (lt_of_le_of_lt hy.2 hafter) (not_lt.mpr (hxs.le_of_mem hx))
        · exact ⟨hx, hy⟩
  | case5 x xs y ys hbefore hafter ihx ihy =>
      rw [common, if_neg hbefore, if_neg hafter, points_cons, ← Set.Icc_inter_Icc]
      by_cases hshort : x.2 < y.2
      · rw [if_pos hshort, ihx hxs.tail hys]
        rw [points_cons (x := x), points_cons (x := y)]
        ext b
        constructor
        · rintro (⟨hx, hy⟩ | ⟨hx, hy⟩)
          · exact ⟨.inl hx, .inl hy⟩
          · exact ⟨.inr hx, hy⟩
        · rintro ⟨hx | hx, hy | hy⟩
          · exact .inl ⟨hx, hy⟩
          · exact absurd (lt_of_le_of_lt hx.2 hshort) (hys.lt_of_mem hy).not_gt
          · exact .inr ⟨hx, .inl hy⟩
          · exact .inr ⟨hx, .inr hy⟩
      · rw [if_neg hshort, ihy hxs hys.tail]
        rw [points_cons (x := x), points_cons (x := y)]
        ext b
        constructor
        · rintro (⟨hx, hy⟩ | ⟨hx, hy⟩)
          · exact ⟨.inl hx, .inl hy⟩
          · exact ⟨hx, .inr hy⟩
        · rintro ⟨hx | hx, hy | hy⟩
          · exact .inl ⟨hx, hy⟩
          · exact .inr ⟨.inl hx, hy⟩
          · exact absurd (lt_of_lt_of_le (hxs.lt_of_mem hx) (hy.2.trans (not_lt.mp hshort)))
              (lt_irrefl _)
          · exact .inr ⟨.inr hx, hy⟩

theorem Increasing.common (hxs : Increasing xs) (hys : Increasing ys) :
    Increasing (common xs ys) := by
  induction xs, ys using RangeSets.common.induct with
  | case1 ys => exact ⟨by simp [RangeSets.common], by simp [RangeSets.common]⟩
  | case2 x xs => exact ⟨by simp [RangeSets.common], by simp [RangeSets.common]⟩
  | case3 x xs y ys hbefore ih =>
      rw [RangeSets.common, if_pos hbefore]
      exact ih hxs.tail hys
  | case4 x xs y ys hbefore hafter ih =>
      rw [RangeSets.common, if_neg hbefore, if_pos hafter]
      exact ih hxs hys.tail
  | case5 x xs y ys hbefore hafter ihx ihy =>
      rw [RangeSets.common, if_neg hbefore, if_neg hafter]
      have hxproper := hxs.proper x List.mem_cons_self
      have hyproper := hys.proper y List.mem_cons_self
      have hfirst : max x.1 y.1 ≤ min x.2 y.2 :=
        max_le (le_min hxproper (not_lt.mp hafter)) (le_min (not_lt.mp hbefore) hyproper)
      have hrest : Increasing (if x.2 < y.2 then RangeSets.common xs (y :: ys)
          else RangeSets.common (x :: xs) ys) := by
        split
        · exact ihx hxs.tail hys
        · exact ihy hxs hys.tail
      constructor
      · exact List.forall_mem_cons.mpr ⟨hfirst, hrest.proper⟩
      · refine List.pairwise_cons.mpr ⟨fun r hr => ?_, hrest.apart⟩
        simp only
        split at hr
        case isTrue hshort =>
          obtain ⟨x', hx', y', -, rfl⟩ := mem_common hr
          exact lt_of_le_of_lt (min_le_left _ _)
            (lt_of_lt_of_le ((List.pairwise_cons.mp hxs.apart).1 x' hx') (le_max_left _ _))
        case isFalse hshort =>
          obtain ⟨x', -, y', hy', rfl⟩ := mem_common hr
          exact lt_of_le_of_lt (min_le_right _ _)
            (lt_of_lt_of_le ((List.pairwise_cons.mp hys.apart).1 y' hy') (le_max_right _ _))

/-- A range that ends before the other list begins has nothing in common with it. -/
theorem common_singleton (h : ∀ y ∈ ys, x.2 < y.1) : common [x] ys = [] := by
  cases ys with
  | nil => rw [common]
  | cons y ys => rw [common, if_pos (h y List.mem_cons_self), common]

end Iraf.RangeSets
