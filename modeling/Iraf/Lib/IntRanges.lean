import Mathlib.Data.Int.Interval
import Mathlib.Data.Set.Card
import Mathlib.Data.Set.Card.Arithmetic
import Mathlib.Order.Interval.Finset.Nat
import Iraf.Lib.RangeSets

/-!
# Canonical lists of integer ranges

Increasing ranges of integers with a number missing between any two of them: their points are
counted by the sum of their lengths, and two lists have their common part in the same form.
-/

namespace Iraf.RangeSets

variable {l xs ys : List (Int × Int)} {r : Int × Int}

/-- Increasing ranges that do not even touch. -/
structure Canonical (l : List (Int × Int)) : Prop where
  proper : ∀ r ∈ l, r.1 ≤ r.2
  gaps : l.Pairwise fun r s => r.2 + 1 < s.1

theorem Canonical.increasing (h : Canonical l) : Increasing l :=
  ⟨h.proper, h.gaps.imp fun hlt => by omega⟩

theorem Canonical.tail (h : Canonical (r :: l)) : Canonical l :=
  ⟨fun s hs => h.proper s (List.mem_cons_of_mem r hs), (List.pairwise_cons.mp h.gaps).2⟩

theorem canonical_nil : Canonical [] := ⟨by simp, by simp⟩

theorem finite_points (l : List (Int × Int)) : (points l).Finite := by
  induction l with
  | nil =>
      rw [points_nil]
      exact Set.finite_empty
  | cons r l ih =>
      rw [points_cons]
      exact (Set.finite_Icc r.1 r.2).union ih

theorem Increasing.ncard_points (h : Increasing l) :
    ((points l).ncard : Int) = (l.map fun r => r.2 - r.1 + 1).sum := by
  induction l with
  | nil => simp
  | cons r l ih =>
      have hr := h.proper r List.mem_cons_self
      have hcard : (Set.Icc r.1 r.2).ncard = (r.2 + 1 - r.1).toNat := by
        rw [← Finset.coe_Icc, Set.ncard_coe_finset, Int.card_Icc]
      have hdisjoint : Disjoint (Set.Icc r.1 r.2) (points l) := by
        refine Set.disjoint_left.mpr fun v hv hmem => ?_
        exact absurd hv.2 (not_le.mpr (h.lt_of_mem hmem))
      rw [points_cons, Set.ncard_union_eq hdisjoint (Set.finite_Icc r.1 r.2) (finite_points l),
        hcard, Nat.cast_add, ih h.tail, List.map_cons, List.sum_cons]
      omega

theorem mem_points_start (h : r.1 ≤ r.2) (hr : r ∈ l) : r.1 ∈ points l :=
  ⟨r, hr, le_refl _, h⟩

theorem Canonical.succ_notMem (h : Canonical l) (hr : r ∈ l) : r.2 + 1 ∉ points l := by
  induction l with
  | nil => exact absurd hr List.not_mem_nil
  | cons s l ih =>
      obtain ⟨hgap, -⟩ := List.pairwise_cons.mp h.gaps
      rw [points_cons]
      rintro (hmem | ⟨t, ht, hlo, hhi⟩)
      · rcases List.mem_cons.mp hr with rfl | hr
        · have := hmem.2
          omega
        · have hlt := hgap r hr
          have hproper := h.tail.proper r hr
          have := hmem.2
          omega
      · rcases List.mem_cons.mp hr with rfl | hr
        · have hlt := hgap t ht
          omega
        · exact ih h.tail hr ⟨t, ht, hlo, hhi⟩

theorem Canonical.common (hxs : Canonical xs) (hys : Canonical ys) :
    Canonical (common xs ys) := by
  have hincreasing := hxs.increasing.common hys.increasing
  have hpoints := points_common hxs.increasing hys.increasing
  refine ⟨hincreasing.proper, hincreasing.apart.imp_of_mem fun {r s} hr hs hlt => ?_⟩
  -- the number after a common range is missing in one of the lists
  have hne : r.2 + 1 ≠ s.1 := by
    intro heq
    have hmem := mem_points_start (hincreasing.proper s hs) hs
    rw [← heq, hpoints] at hmem
    obtain ⟨x, hx, y, hy, rfl⟩ := mem_common hr
    rcases min_choice x.2 y.2 with hmin | hmin
    · exact hxs.succ_notMem hx (hmin ▸ hmem.1)
    · exact hys.succ_notMem hy (hmin ▸ hmem.2)
  omega

end Iraf.RangeSets
