import Mathlib.Data.Set.Card
import Mathlib.Order.Interval.Finset.Nat
import Mathlib.Data.Int.Interval
import Mathlib.Data.Finset.Sort
import Mathlib.Data.Int.ConditionallyCompleteOrder
import Iraf.Lib.RangeSets
import Iraf.Lib.IntRanges

/-!
# The ranges package

The routines of `xtools$ranges` that order, merge and combine range descriptors.  A loop over
the ranges from one index on is a recursion on the rest of the list.

Ordering and merging make a descriptor canonical without changing its members, and the other
operations keep it so.
-/

namespace Iraf.Xtools

open RangeSets

/-- A range descriptor: `RG_NPTS` and the intervals `RG_X1` to `RG_X2`, `RG_NRGS` of them. -/
structure Rg where
  npts : Int
  ranges : List (Int × Int)
  deriving DecidableEq, Repr

def Rg.nrgs (rg : Rg) : Nat := rg.ranges.length

/-- The sum that `rg_merge` and `rg_intersect` leave in `RG_NPTS`. -/
def countPoints (l : List (Int × Int)) : Int :=
  (l.map fun r => r.2 - r.1 + 1).sum

/-! ## Order and merge -/

/-- Make a range increasing. -/
def increase (r : Int × Int) : Int × Int := if r.1 > r.2 then (r.2, r.1) else r

/-- The inner loop of the sort: range `i` is exchanged with each range that starts before it. -/
def exchange (r : Int × Int) : List (Int × Int) → (Int × Int) × List (Int × Int)
  | [] => (r, [])
  | s :: rest =>
      if r.1 > s.1 then
        let (least, rest) := exchange s rest
        (least, r :: rest)
      else
        let (least, rest) := exchange r rest
        (least, s :: rest)

theorem length_exchange (r : Int × Int) (l : List (Int × Int)) :
    (exchange r l).2.length = l.length := by
  induction l generalizing r with
  | nil => rfl
  | cons s rest ih =>
      rw [exchange]
      split
      · exact congrArg (· + 1) (ih s)
      · exact congrArg (· + 1) (ih r)

/-- The outer loop of the sort. -/
def sortRanges : List (Int × Int) → List (Int × Int)
  | [] => []
  | r :: rest => (exchange r rest).1 :: sortRanges (exchange r rest).2
termination_by l => l.length
decreasing_by
  rw [length_exchange, List.length_cons]
  exact Nat.lt_succ_self _

def rgOrder (rg : Rg) : Rg := { rg with ranges := sortRanges (rg.ranges.map increase) }

/-- The loop of `rg_merge`, with range `new` so far. -/
def mergeRanges (new : Int × Int) : List (Int × Int) → List (Int × Int)
  | [] => [new]
  | old :: rest =>
      if old.1 > new.2 + 1 then new :: mergeRanges old rest
      else mergeRanges (new.1, max old.2 new.2) rest

/-- A descriptor without ranges is left as it is. -/
def rgMerge (rg : Rg) : Rg :=
  match rg.ranges with
  | [] => rg
  | new :: rest => ⟨countPoints (mergeRanges new rest), mergeRanges new rest⟩

/-! ## Operations -/

def rgUnion (rg1 rg2 : Rg) : Rg :=
  rgMerge (rgOrder ⟨rg1.npts + rg2.npts, rg1.ranges ++ rg2.ranges⟩)

/-- The loop of `rg_intersect` is the one of `RangeSets.common`. -/
def rgIntersect (rg1 rg2 : Rg) : Rg :=
  let ranges := common rg1.ranges rg2.ranges
  ⟨countPoints ranges, ranges⟩

/-- The ranges that meet the window, cut to it. -/
def windowRanges (rmin rmax : Int) (l : List (Int × Int)) : List (Int × Int) :=
  l.filterMap fun r =>
    if rmin ≤ r.2 ∧ rmax ≥ r.1 then some (max rmin r.1, min rmax r.2) else none

def rgWindow (rg : Rg) (rmin rmax : Int) : Rg :=
  let ranges := windowRanges rmin rmax rg.ranges
  ⟨(ranges.map fun r => |r.1 - r.2| + 1).sum, ranges⟩

/-- The provisional ranges of `rg_inverse`: from `x1` up to each range and past the last one. -/
def inverseRanges (x1 rmax : Int) : List (Int × Int) → List (Int × Int)
  | [] => [(x1, rmax)]
  | r :: rest => (x1, r.1 - 1) :: inverseRanges (r.2 + 1) rmax rest

/-- `RG_NPTS` of the provisional descriptor is never set. -/
def rgInverse (junk : Int) (rg : Rg) (rmin rmax : Int) : Rg :=
  rgWindow ⟨junk, inverseRanges rmin rmax rg.ranges⟩ rmin rmax

/-! ## The algebra of range descriptors -/

variable {l rest : List (Int × Int)} {r new : Int × Int} {rg rg1 rg2 : Rg} {rmin rmax x1 : Int}

/-! ## Order -/

theorem exchange_perm (r : Int × Int) (l : List (Int × Int)) :
    ((exchange r l).1 :: (exchange r l).2).Perm (r :: l) := by
  induction l generalizing r with
  | nil => exact List.Perm.refl _
  | cons s rest ih =>
      rw [exchange]
      split
      · exact (List.Perm.swap r _ _).trans ((ih s).cons r)
      · exact (List.Perm.swap s _ _).trans (((ih r).cons s).trans (List.Perm.swap r s rest))

theorem exchange_least (r : Int × Int) (l : List (Int × Int)) :
    (exchange r l).1.1 ≤ r.1 ∧ ∀ s ∈ (exchange r l).2, (exchange r l).1.1 ≤ s.1 := by
  induction l generalizing r with
  | nil => exact ⟨Int.le_refl _, by simp [exchange]⟩
  | cons s rest ih =>
      rw [exchange]
      split
      case isTrue hgt =>
        obtain ⟨hle, hrest⟩ := ih s
        refine ⟨by simp only; omega, List.forall_mem_cons.mpr ⟨by simp only; omega, hrest⟩⟩
      case isFalse hle' =>
        obtain ⟨hle, hrest⟩ := ih r
        exact ⟨hle, List.forall_mem_cons.mpr ⟨by simp only; omega, hrest⟩⟩

theorem sortRanges_perm (l : List (Int × Int)) : (sortRanges l).Perm l := by
  fun_induction sortRanges l with
  | case1 => exact List.Perm.refl _
  | case2 r rest ih => exact (ih.cons _).trans (exchange_perm r rest)

theorem sortRanges_sorted (l : List (Int × Int)) :
    (sortRanges l).Pairwise fun r s => r.1 ≤ s.1 := by
  fun_induction sortRanges l with
  | case1 => exact List.Pairwise.nil
  | case2 r rest ih =>
      refine List.pairwise_cons.mpr ⟨fun s hs => ?_, ih⟩
      exact (exchange_least r rest).2 s ((sortRanges_perm _).mem_iff.mp hs)

/-! ## Merge -/

theorem mergeRanges_start (hsorted : (new :: rest).Pairwise fun r s => r.1 ≤ s.1) :
    ∀ r ∈ mergeRanges new rest, new.1 ≤ r.1 := by
  induction rest generalizing new with
  | nil => simp [mergeRanges]
  | cons old rest ih =>
      obtain ⟨hfirst, htail⟩ := List.pairwise_cons.mp hsorted
      rw [mergeRanges]
      split
      · refine List.forall_mem_cons.mpr ⟨Int.le_refl _, fun r hr => ?_⟩
        exact Int.le_trans (hfirst old List.mem_cons_self) (ih htail r hr)
      · refine fun r hr => @ih (new.1, max old.2 new.2) ?_ r hr
        exact List.pairwise_cons.mpr ⟨fun s hs => hfirst s (List.mem_cons_of_mem old hs),
          (List.pairwise_cons.mp htail).2⟩

theorem mergeRanges_spec (hsorted : (new :: rest).Pairwise fun r s => r.1 ≤ s.1)
    (hproper : ∀ r ∈ new :: rest, r.1 ≤ r.2) :
    Canonical (mergeRanges new rest) ∧ points (mergeRanges new rest) = points (new :: rest) := by
  induction rest generalizing new with
  | nil => exact ⟨⟨hproper, by simp [mergeRanges]⟩, rfl⟩
  | cons old rest ih =>
      obtain ⟨hfirst, htail⟩ := List.pairwise_cons.mp hsorted
      obtain ⟨hnew, hrest⟩ := List.forall_mem_cons.mp hproper
      obtain ⟨hold, hlater⟩ := List.forall_mem_cons.mp hrest
      have hstart := hfirst old List.mem_cons_self
      rw [mergeRanges]
      split
      case isTrue hgap =>
        obtain ⟨hcanonical, hpoints⟩ := ih htail hrest
        refine ⟨⟨List.forall_mem_cons.mpr ⟨hnew, hcanonical.proper⟩,
          List.pairwise_cons.mpr ⟨fun r hr => ?_, hcanonical.gaps⟩⟩, ?_⟩
        · have := mergeRanges_start htail r hr
          omega
        · rw [points_cons, hpoints, points_cons (x := new)]
      case isFalse hjoin =>
        have hwide : new.1 ≤ max old.2 new.2 := by omega
        obtain ⟨hcanonical, hpoints⟩ := @ih (new.1, max old.2 new.2)
          (List.pairwise_cons.mpr ⟨fun s hs => hfirst s (List.mem_cons_of_mem old hs),
            (List.pairwise_cons.mp htail).2⟩)
          (List.forall_mem_cons.mpr ⟨hwide, hlater⟩)
        refine ⟨hcanonical, ?_⟩
        rw [hpoints, points_cons, points_cons (x := new), points_cons (x := old),
          ← Set.union_assoc]
        congr 1
        ext v
        simp only [Set.mem_union, Set.mem_Icc]
        omega

/-! ## Descriptors -/

/-- The numbers in a descriptor; the end points of a range may be in either order. -/
def Rg.members (rg : Rg) : Set Int :=
  {v | ∃ r ∈ rg.ranges, min r.1 r.2 ≤ v ∧ v ≤ max r.1 r.2}

/-- `RG_NPTS` as the routines that make a descriptor set it. -/
def Rg.Counted (rg : Rg) : Prop := rg.npts = (rg.ranges.map fun r => |r.1 - r.2| + 1).sum

/-- Increasing ranges that do not touch, with the number of their points. -/
structure Rg.Canonical (rg : Rg) : Prop where
  ranges : RangeSets.Canonical rg.ranges
  npts : rg.npts = (rg.members.ncard : Int)

theorem members_eq_points (h : ∀ r ∈ rg.ranges, r.1 ≤ r.2) : rg.members = points rg.ranges := by
  ext v
  constructor
  · rintro ⟨r, hr, hlo, hhi⟩
    rw [min_eq_left (h r hr)] at hlo
    rw [max_eq_right (h r hr)] at hhi
    exact ⟨r, hr, hlo, hhi⟩
  · rintro ⟨r, hr, hlo, hhi⟩
    exact ⟨r, hr, le_trans (min_le_left _ _) hlo, le_trans hhi (le_max_right _ _)⟩

theorem Rg.Canonical.members_eq (h : rg.Canonical) : rg.members = points rg.ranges :=
  members_eq_points h.ranges.proper

theorem canonical_of_count (h : RangeSets.Canonical rg.ranges)
    (hnpts : rg.npts = countPoints rg.ranges) : rg.Canonical := by
  refine ⟨h, ?_⟩
  rw [members_eq_points h.proper, h.increasing.ncard_points, hnpts]
  rfl

theorem rgMerge_spec (hsorted : rg.ranges.Pairwise fun r s => r.1 ≤ s.1)
    (hproper : ∀ r ∈ rg.ranges, r.1 ≤ r.2) (hnpts : rg.ranges = [] → rg.npts = 0) :
    (rgMerge rg).Canonical ∧ (rgMerge rg).members = rg.members := by
  obtain ⟨npts, ranges⟩ := rg
  cases ranges with
  | nil =>
      refine ⟨canonical_of_count canonical_nil ?_, rfl⟩
      exact hnpts rfl
  | cons new rest =>
      obtain ⟨hcanonical, hpoints⟩ := mergeRanges_spec hsorted hproper
      refine ⟨canonical_of_count hcanonical rfl, ?_⟩
      rw [members_eq_points hproper, members_eq_points hcanonical.proper]
      exact hpoints

theorem increase_spec (r : Int × Int) :
    (increase r).1 = min r.1 r.2 ∧ (increase r).2 = max r.1 r.2 := by
  rw [increase]
  split
  · constructor <;> simp only <;> omega
  · constructor <;> omega

theorem rgMerge_rgOrder (hnpts : rg.ranges = [] → rg.npts = 0) :
    (rgMerge (rgOrder rg)).Canonical ∧ (rgMerge (rgOrder rg)).members = rg.members := by
  have hperm : (rgOrder rg).ranges.Perm (rg.ranges.map increase) := sortRanges_perm _
  have hproper : ∀ r ∈ (rgOrder rg).ranges, r.1 ≤ r.2 := by
    intro r hr
    obtain ⟨s, -, rfl⟩ := List.mem_map.mp (hperm.mem_iff.mp hr)
    rw [(increase_spec s).1, (increase_spec s).2]
    exact min_le_max
  have hempty : (rgOrder rg).ranges = [] → (rgOrder rg).npts = 0 := by
    intro hnil
    rw [hnil] at hperm
    exact hnpts (List.map_eq_nil_iff.mp hperm.symm.eq_nil)
  obtain ⟨hcanonical, hmembers⟩ := rgMerge_spec (sortRanges_sorted _) hproper hempty
  refine ⟨hcanonical, ?_⟩
  rw [hmembers, members_eq_points hproper]
  ext v
  constructor
  · rintro ⟨r, hr, hlo, hhi⟩
    obtain ⟨s, hs, rfl⟩ := List.mem_map.mp (hperm.mem_iff.mp hr)
    rw [(increase_spec s).1] at hlo
    rw [(increase_spec s).2] at hhi
    exact ⟨s, hs, hlo, hhi⟩
  · rintro ⟨s, hs, hlo, hhi⟩
    refine ⟨increase s, hperm.mem_iff.mpr (List.mem_map_of_mem hs), ?_, ?_⟩
    · rw [(increase_spec s).1]
      exact hlo
    · rw [(increase_spec s).2]
      exact hhi

theorem Rg.Canonical.npts_nil (h : rg.Canonical) (hnil : rg.ranges = []) : rg.npts = 0 := by
  rw [h.npts, h.members_eq, hnil, points_nil, Set.ncard_empty]
  rfl

/-! ## Operations -/

theorem rgUnion_spec (h1 : rg1.Canonical) (h2 : rg2.Canonical) :
    (rgUnion rg1 rg2).Canonical ∧ (rgUnion rg1 rg2).members = rg1.members ∪ rg2.members := by
  obtain ⟨hcanonical, hmembers⟩ :=
    @rgMerge_rgOrder ⟨rg1.npts + rg2.npts, rg1.ranges ++ rg2.ranges⟩ fun hnil => by
      obtain ⟨hnil1, hnil2⟩ := List.append_eq_nil_iff.mp hnil
      simp only [h1.npts_nil hnil1, h2.npts_nil hnil2, Int.add_zero]
  refine ⟨hcanonical, hmembers.trans ?_⟩
  ext v
  constructor
  · rintro ⟨r, hr, hv⟩
    exact (List.mem_append.mp hr).imp (fun hr => ⟨r, hr, hv⟩) fun hr => ⟨r, hr, hv⟩
  · rintro (⟨r, hr, hv⟩ | ⟨r, hr, hv⟩)
    · exact ⟨r, List.mem_append_left _ hr, hv⟩
    · exact ⟨r, List.mem_append_right _ hr, hv⟩

theorem rgIntersect_spec (h1 : rg1.Canonical) (h2 : rg2.Canonical) :
    (rgIntersect rg1 rg2).Canonical ∧
      (rgIntersect rg1 rg2).members = rg1.members ∩ rg2.members := by
  have hcanonical := h1.ranges.common h2.ranges
  have hdone : (rgIntersect rg1 rg2).Canonical := canonical_of_count hcanonical rfl
  refine ⟨hdone, ?_⟩
  rw [hdone.members_eq, h1.members_eq, h2.members_eq]
  exact points_common h1.ranges.increasing h2.ranges.increasing

theorem points_windowRanges (rmin rmax : Int) (l : List (Int × Int)) :
    points (windowRanges rmin rmax l) = points l ∩ Set.Icc rmin rmax := by
  ext v
  constructor
  · rintro ⟨r, hr, hlo, hhi⟩
    obtain ⟨s, hs, heq⟩ := List.mem_filterMap.mp hr
    split at heq
    · obtain rfl := Option.some_injective _ heq
      exact ⟨⟨s, hs, le_trans (le_max_right _ _) hlo, le_trans hhi (min_le_right _ _)⟩,
        le_trans (le_max_left _ _) hlo, le_trans hhi (min_le_left _ _)⟩
    · exact absurd heq (by simp)
  · rintro ⟨⟨s, hs, hlo, hhi⟩, hmin, hmax⟩
    refine ⟨(max rmin s.1, min rmax s.2), List.mem_filterMap.mpr ⟨s, hs, ?_⟩,
      max_le hmin hlo, le_min hmax hhi⟩
    exact if_pos ⟨le_trans hmin hhi, le_trans hlo hmax⟩

theorem canonical_windowRanges (hwindow : rmin ≤ rmax)
    (hproper : ∀ r ∈ l, rmin ≤ r.2 → r.1 ≤ rmax → r.1 ≤ r.2)
    (hgaps : l.Pairwise fun r s => r.2 + 1 < s.1) :
    RangeSets.Canonical (windowRanges rmin rmax l) where
  proper := by
    intro r hr
    obtain ⟨s, hs, heq⟩ := List.mem_filterMap.mp hr
    split at heq
    case isTrue hmeets =>
      obtain rfl := Option.some_injective _ heq
      have hle := hproper s hs hmeets.1 hmeets.2
      exact max_le (le_min hwindow hmeets.1) (le_min hmeets.2 hle)
    case isFalse => exact absurd heq (by simp)
  gaps := by
    refine List.pairwise_filterMap.mpr (hgaps.imp fun {r s} hgap r' hr' s' hs' => ?_)
    split at hr'
    · split at hs'
      · obtain rfl := Option.some_injective _ hr'
        obtain rfl := Option.some_injective _ hs'
        simp only
        omega
      · exact absurd hs' (by simp)
    · exact absurd hr' (by simp)

theorem rgWindow_spec (hwindow : rmin ≤ rmax)
    (hproper : ∀ r ∈ rg.ranges, rmin ≤ r.2 → r.1 ≤ rmax → r.1 ≤ r.2)
    (hgaps : rg.ranges.Pairwise fun r s => r.2 + 1 < s.1) :
    (rgWindow rg rmin rmax).Canonical ∧
      (rgWindow rg rmin rmax).members = points rg.ranges ∩ Set.Icc rmin rmax := by
  have hcanonical := canonical_windowRanges hwindow hproper hgaps
  have hdone : (rgWindow rg rmin rmax).Canonical := by
    refine canonical_of_count hcanonical (congrArg List.sum (List.map_congr_left fun r hr => ?_))
    have hle := hcanonical.proper r hr
    rw [abs_of_nonpos (by omega)]
    omega
  refine ⟨hdone, ?_⟩
  rw [hdone.members_eq]
  exact points_windowRanges rmin rmax rg.ranges

/-! ### The provisional ranges of the inverse -/

theorem inverseRanges_start (h : RangeSets.Canonical l) (hstart : ∀ r ∈ l, x1 ≤ r.1) :
    ∀ r ∈ inverseRanges x1 rmax l, x1 ≤ r.1 := by
  induction l generalizing x1 with
  | nil => simp [inverseRanges]
  | cons s l ih =>
      obtain ⟨hgap, -⟩ := List.pairwise_cons.mp h.gaps
      have hs := h.proper s List.mem_cons_self
      have hx1 := hstart s List.mem_cons_self
      refine List.forall_mem_cons.mpr ⟨Int.le_refl _, fun r hr => ?_⟩
      have := ih h.tail (fun t ht => by
        have := hgap t ht
        omega) r hr
      omega

theorem inverseRanges_gaps (h : RangeSets.Canonical l) :
    (inverseRanges x1 rmax l).Pairwise fun r s => r.2 + 1 < s.1 := by
  induction l generalizing x1 with
  | nil => simp [inverseRanges]
  | cons s l ih =>
      obtain ⟨hgap, -⟩ := List.pairwise_cons.mp h.gaps
      have hs := h.proper s List.mem_cons_self
      refine List.pairwise_cons.mpr ⟨fun r hr => ?_, ih h.tail⟩
      have := inverseRanges_start h.tail (fun t ht => by
        have := hgap t ht
        omega) r hr
      simp only
      omega

theorem inverseRanges_proper (h : RangeSets.Canonical l)
    (hx1 : x1 ≤ rmin ∨ ∀ r ∈ l, x1 < r.1) :
    ∀ r ∈ inverseRanges x1 rmax l, rmin ≤ r.2 → r.1 ≤ rmax → r.1 ≤ r.2 := by
  induction l generalizing x1 with
  | nil => simp [inverseRanges]
  | cons s l ih =>
      obtain ⟨hgap, -⟩ := List.pairwise_cons.mp h.gaps
      refine List.forall_mem_cons.mpr ⟨fun hmin _ => ?_, ih h.tail (.inr hgap)⟩
      rcases hx1 with hx1 | hx1
      · simp only at hmin ⊢
        omega
      · have := hx1 s List.mem_cons_self
        simp only
        omega

theorem mem_points_inverseRanges (h : RangeSets.Canonical l)
    (hx1 : x1 ≤ rmin ∨ ∀ r ∈ l, x1 < r.1) {v : Int} (hv : rmin ≤ v ∧ v ≤ rmax) :
    v ∈ points (inverseRanges x1 rmax l) ↔ x1 ≤ v ∧ v ∉ points l := by
  induction l generalizing x1 with
  | nil =>
      rw [inverseRanges, points_cons, points_nil]
      simp only [Set.union_empty, Set.mem_Icc, Set.mem_empty_iff_false, not_false_eq_true, and_true]
      omega
  | cons s l ih =>
      obtain ⟨hgap, -⟩ := List.pairwise_cons.mp h.gaps
      have hs := h.proper s List.mem_cons_self
      have hlater : v ∈ points l → s.2 < v := h.increasing.lt_of_mem
      have hle : x1 ≤ v ∨ x1 < s.1 := hx1.imp (fun hle => by omega) fun hlt =>
        hlt s List.mem_cons_self
      rw [inverseRanges, points_cons, points_cons (x := s), Set.mem_union, Set.mem_union,
        ih h.tail (.inr hgap)]
      simp only [Set.mem_Icc]
      constructor
      · rintro (hv' | ⟨hv', hnot⟩)
        · refine ⟨hv'.1, not_or.mpr ⟨by omega, fun hmem => ?_⟩⟩
          have := hlater hmem
          omega
        · exact ⟨by omega, not_or.mpr ⟨by omega, hnot⟩⟩
      · rintro ⟨hle', hnot⟩
        obtain ⟨houtside, hnot⟩ := not_or.mp hnot
        rcases Int.lt_or_le v s.1 with hlt | hge
        · exact .inl ⟨hle', by omega⟩
        · exact .inr ⟨by omega, hnot⟩

theorem rgInverse_spec (junk : Int) (h : rg.Canonical) (hwindow : rmin ≤ rmax) :
    (rgInverse junk rg rmin rmax).Canonical ∧
      (rgInverse junk rg rmin rmax).members = Set.Icc rmin rmax \ rg.members := by
  have hx1 : rmin ≤ rmin ∨ ∀ r ∈ rg.ranges, rmin < r.1 := .inl (Int.le_refl _)
  obtain ⟨hcanonical, hmembers⟩ :=
    @rgWindow_spec ⟨junk, inverseRanges rmin rmax rg.ranges⟩ rmin rmax hwindow
      (inverseRanges_proper h.ranges hx1) (inverseRanges_gaps h.ranges)
  refine ⟨hcanonical, hmembers.trans ?_⟩
  ext v
  rw [h.members_eq]
  constructor
  · rintro ⟨hmem, hv⟩
    exact ⟨hv, ((mem_points_inverseRanges h.ranges hx1 hv).mp hmem).2⟩
  · rintro ⟨hv, hnot⟩
    exact ⟨(mem_points_inverseRanges h.ranges hx1 hv).mpr ⟨hv.1, hnot⟩, hv⟩

/-! ## The space allocated -/

theorem length_common (xs ys : List (Int × Int)) :
    common xs ys = [] ∨ (common xs ys).length + 1 ≤ xs.length + ys.length := by
  induction xs, ys using common.induct with
  | case1 ys => exact .inl (by simp [common])
  | case2 x xs => exact .inl (by simp [common])
  | case3 x xs y ys hbefore ih =>
      rw [common, if_pos hbefore]
      refine ih.imp_right fun hle => ?_
      simp only [List.length_cons] at hle ⊢
      omega
  | case4 x xs y ys hbefore hafter ih =>
      rw [common, if_neg hbefore, if_pos hafter]
      refine ih.imp_right fun hle => ?_
      simp only [List.length_cons] at hle ⊢
      omega
  | case5 x xs y ys hbefore hafter ihx ihy =>
      rw [common, if_neg hbefore, if_neg hafter]
      right
      have hrest : (if x.2 < y.2 then common xs (y :: ys) else common (x :: xs) ys).length ≤
          xs.length + ys.length := by
        split
        · rcases ihx with hnil | hle
          · rw [hnil]
            exact Nat.zero_le _
          · simp only [List.length_cons] at hle
            omega
        · rcases ihy with hnil | hle
          · rw [hnil]
            exact Nat.zero_le _
          · simp only [List.length_cons] at hle
            omega
      simp only [List.length_cons]
      omega

theorem length_inverseRanges (x1 rmax : Int) (l : List (Int × Int)) :
    (inverseRanges x1 rmax l).length = l.length + 1 := by
  induction l generalizing x1 with
  | nil => rfl
  | cons r l ih => exact congrArg (· + 1) (ih (r.2 + 1))

/-- The ranges that `rg_union`, `rg_intersect` and `rg_window` allocate before they know how
many they need, and those of the provisional descriptor of `rg_inverse`. -/
structure FitsAllocation (rg1 rg2 : Rg) (rmin rmax : Int) : Prop where
  union : rg1.nrgs + rg2.nrgs ≤ max 1 (rg1.nrgs + rg2.nrgs)
  intersect : (rgIntersect rg1 rg2).nrgs ≤ max 1 (rg1.nrgs + rg2.nrgs - 1)
  window : (rgWindow rg1 rmin rmax).nrgs ≤ max 1 rg1.nrgs
  inverse : (inverseRanges rmin rmax rg1.ranges).length ≤ rg1.nrgs + 1

theorem fitsAllocation (rg1 rg2 : Rg) (rmin rmax : Int) : FitsAllocation rg1 rg2 rmin rmax where
  union := le_max_right _ _
  intersect := by
    have hlength : (rgIntersect rg1 rg2).nrgs = (common rg1.ranges rg2.ranges).length := rfl
    simp only [Rg.nrgs] at hlength ⊢
    rcases length_common rg1.ranges rg2.ranges with hnil | hle
    · rw [hlength, hnil]
      exact Nat.zero_le _
    · omega
  window := le_trans (List.length_filterMap_le _ _) (le_max_right _ _)
  inverse := Nat.le_of_eq (length_inverseRanges rmin rmax rg1.ranges)

/-- A canonical descriptor with the members `s`. -/
structure Rg.Gives (rg : Rg) (s : Set Int) : Prop where
  canonical : rg.Canonical
  members : rg.members = s

theorem Rg.Counted.npts_nil (h : rg.Counted) (hnil : rg.ranges = []) : rg.npts = 0 := by
  rw [h, hnil]
  rfl

/-- The package is a set algebra: ordering and merging keep the members of any descriptor, and
union, intersection, window and inverse do on canonical ones what they say. -/
theorem range_algebra :
    (∀ rg : Rg, rg.Counted → (rgMerge (rgOrder rg)).Gives rg.members) ∧
      ∀ rg1 rg2 : Rg, rg1.Canonical → rg2.Canonical →
        (rgUnion rg1 rg2).Gives (rg1.members ∪ rg2.members) ∧
        (rgIntersect rg1 rg2).Gives (rg1.members ∩ rg2.members) ∧
        ∀ rmin rmax, rmin ≤ rmax →
          (rgWindow rg1 rmin rmax).Gives (rg1.members ∩ Set.Icc rmin rmax) ∧
          (∀ junk, (rgInverse junk rg1 rmin rmax).Gives (Set.Icc rmin rmax \ rg1.members)) ∧
          FitsAllocation rg1 rg2 rmin rmax := by
  constructor
  · intro rg hcounted
    obtain ⟨hcanonical, hmembers⟩ := rgMerge_rgOrder hcounted.npts_nil
    exact ⟨hcanonical, hmembers⟩
  · intro rg1 rg2 h1 h2
    obtain ⟨hunion, hunion'⟩ := rgUnion_spec h1 h2
    obtain ⟨hintersect, hintersect'⟩ := rgIntersect_spec h1 h2
    refine ⟨⟨hunion, hunion'⟩, ⟨hintersect, hintersect'⟩, fun rmin rmax hwindow =>
      ⟨?_, fun junk => ?_, fitsAllocation rg1 rg2 rmin rmax⟩⟩
    · obtain ⟨hcanonical, hmembers⟩ := rgWindow_spec hwindow
        (fun r hr _ _ => h1.ranges.proper r hr) h1.ranges.gaps
      exact ⟨hcanonical, by rw [hmembers, h1.members_eq]⟩
    · obtain ⟨hcanonical, hmembers⟩ := rgInverse_spec junk h1 hwindow
      exact ⟨hcanonical, hmembers⟩

theorem range_algebra_overlap :
    (rgMerge (rgOrder ⟨12, [(10, 5), (1, 3), (2, 4)]⟩)).Gives
        (Rg.members ⟨12, [(10, 5), (1, 3), (2, 4)]⟩) ∧
      (rgIntersect ⟨3, [(2, 4)]⟩ ⟨3, [(3, 5)]⟩).Gives
        (Rg.members ⟨3, [(2, 4)]⟩ ∩ Rg.members ⟨3, [(3, 5)]⟩) ∧
      (rgInverse 0 ⟨3, [(2, 4)]⟩ 1 9).Gives (Set.Icc 1 9 \ Rg.members ⟨3, [(2, 4)]⟩) := by
  have hcanonical : ∀ a b : Int, a + 2 = b → Rg.Canonical ⟨3, [(a, b)]⟩ := by
    rintro a b rfl
    refine canonical_of_count ⟨by simp, by simp⟩ ?_
    simp [countPoints]
  obtain ⟨hmerge, hoperations⟩ := range_algebra
  obtain ⟨-, hintersect, hwindow⟩ :=
    hoperations _ _ (hcanonical 2 4 rfl) (hcanonical 3 5 rfl)
  exact ⟨hmerge _ rfl, hintersect, (hwindow 1 9 (by decide)).2.1 0⟩

end Iraf.Xtools
