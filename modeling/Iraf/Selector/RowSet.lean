import Mathlib.Data.List.GetD
import Mathlib.Data.Set.Card
import Mathlib.Data.Set.Card.Arithmetic
import Mathlib.Order.Interval.Finset.Nat
import Mathlib.Data.Int.Interval
import Iraf.Selector.Rst

/-!
# The rows of a row set

The ranges of a row set are in order, with a row missing between any two of
them.  Adding a range after the last one keeps this and adds its rows.
-/

namespace Iraf.Selector

open Iraf.BracketSearch

/-- The rows in a list of ranges. -/
def cells (rs : List (Int × Int)) : Set Int :=
  { v | ∃ r ∈ rs, r.1 ≤ v ∧ v ≤ r.2 }

@[simp] theorem cells_nil : cells [] = ∅ := by simp [cells]

@[simp] theorem cells_cons (r : Int × Int) (rs : List (Int × Int)) :
    cells (r :: rs) = Set.Icc r.1 r.2 ∪ cells rs := by
  ext v
  simp [cells]

@[simp] theorem cells_append (rs ss : List (Int × Int)) :
    cells (rs ++ ss) = cells rs ∪ cells ss := by
  ext v
  simp [cells, or_and_right, exists_or]

/-- The ranges hold rows of a table, and each begins after the one before. -/
structure InOrder (rs : List (Int × Int)) : Prop where
  rows : ∀ r ∈ rs, 1 ≤ r.1 ∧ r.1 ≤ r.2
  sorted : rs.Pairwise fun r s => r.2 < s.1

theorem InOrder.append_iff {rs ss : List (Int × Int)} :
    InOrder (rs ++ ss) ↔
      InOrder rs ∧ InOrder ss ∧ ∀ r ∈ rs, ∀ s ∈ ss, r.2 < s.1 := by
  constructor
  · rintro ⟨hrows, hsorted⟩
    obtain ⟨hrs, hss, hcross⟩ := List.pairwise_append.mp hsorted
    exact ⟨⟨fun r hr => hrows r (by simp [hr]), hrs⟩,
      ⟨fun r hr => hrows r (by simp [hr]), hss⟩, hcross⟩
  · rintro ⟨⟨hrows, hrs⟩, ⟨hrows', hss⟩, hcross⟩
    refine ⟨fun r hr => ?_, List.pairwise_append.mpr ⟨hrs, hss, hcross⟩⟩
    rcases List.mem_append.mp hr with h | h
    · exact hrows r h
    · exact hrows' r h

namespace Rst

def ends (set : Rst) : List (Int × Int) := set.ranges.map RowRange.ends

def rows (set : Rst) : Set Int := cells set.ends

/-- The number of rows in the first ranges. -/
def count (rs : List RowRange) : Int :=
  (rs.map fun r => r.hival - r.loval + 1).sum

/-- What the arrays of a row set always satisfy. -/
structure WellFormed (set : Rst) : Prop where
  rows : ∀ r ∈ set.ranges, 1 ≤ r.loval ∧ r.loval ≤ r.hival
  apart : set.ranges.Pairwise fun r s => r.hival + 1 < s.loval
  nrow : ∀ k, (h : k < set.ranges.length) →
    (set.ranges[k]).nrow = count (set.ranges.take (k + 1))
  room : 1 ≤ set.max ∧ set.last ≤ set.max

variable {set : Rst}

theorem WellFormed.inOrder (h : set.WellFormed) : InOrder set.ends where
  rows := by
    intro r hr
    obtain ⟨s, hs, rfl⟩ := List.mem_map.mp hr
    exact h.rows s hs
  sorted := by
    refine List.pairwise_map.mpr (h.apart.imp ?_)
    intro r s hrs
    simp only [RowRange.ends]
    omega

theorem WellFormed.hint (h : set.WellFormed) (current : Int) :
    { set with current := current }.WellFormed :=
  ⟨h.rows, h.apart, h.nrow, h.room⟩

theorem WellFormed.truncate (h : set.WellFormed) (n : Int) :
    (set.truncate n).WellFormed where
  rows r hr := h.rows r (List.mem_of_mem_take hr)
  apart := h.apart.sublist (List.take_sublist ..)
  nrow k hk := by
    simp only [Rst.truncate, List.length_take] at hk
    simp only [Rst.truncate, List.getElem_take, List.take_take]
    rw [h.nrow k (by omega), Nat.min_eq_left (by omega)]
  room := by
    refine ⟨h.room.1, ?_⟩
    have hle := h.room.2
    simp only [Rst.last, Rst.truncate, List.length_take] at hle ⊢
    omega

/-! ## Adding a range -/

theorem count_append (rs ss : List RowRange) :
    count (rs ++ ss) = count rs + count ss := by simp [count]

@[simp] theorem count_singleton (r : RowRange) :
    count [r] = r.hival - r.loval + 1 := by simp [count]

theorem take_concat (rs : List RowRange) (r : RowRange) :
    (rs ++ [r]).take (rs.length + 1) = rs ++ [r] :=
  List.take_of_length_le (by simp)

theorem WellFormed.nrow_last (h : set.WellFormed) {rs : List RowRange}
    {r : RowRange} (hset : set.ranges = rs ++ [r]) :
    r.nrow = count rs + (r.hival - r.loval + 1) := by
  have hget := h.nrow rs.length (by simp [hset])
  simp only [hset, List.getElem_concat_length, take_concat, count_append,
    count_singleton] at hget
  exact hget

theorem WellFormed.concat {rs : List RowRange} {r : RowRange} {m c : Int}
    (h : WellFormed ⟨rs, m, c⟩) (hr : 1 ≤ r.loval ∧ r.loval ≤ r.hival)
    (hafter : ∀ s ∈ rs, s.hival + 1 < r.loval)
    (hnrow : r.nrow = count rs + (r.hival - r.loval + 1)) {m' c' : Int}
    (hroom : (rs.length : Int) + 1 ≤ m') :
    WellFormed ⟨rs ++ [r], m', c'⟩ where
  rows := by
    intro s hs
    rcases List.mem_append.mp hs with hs | hs
    · exact h.rows s hs
    · obtain rfl := List.mem_singleton.mp hs
      exact hr
  apart := by
    refine List.pairwise_append.mpr ⟨h.apart, by simp, ?_⟩
    intro s hs t ht
    obtain rfl := List.mem_singleton.mp ht
    exact hafter s hs
  nrow k hk := by
    simp only [List.length_append, List.length_singleton] at hk
    rcases Nat.lt_or_eq_of_le (Nat.lt_succ_iff.mp hk) with hlt | rfl
    · have htake := h.nrow k hlt
      simp only [List.getElem_append_left hlt,
        List.take_append_of_le_length (Nat.succ_le_of_lt hlt)]
      exact htake
    · simp only [List.getElem_concat_length, take_concat, count_append,
        count_singleton]
      exact hnrow
  room := by
    simp only [Rst.last, List.length_append, List.length_singleton]
    omega

theorem range_concat {rs : List RowRange} {r : RowRange} {m c : Int} :
    Rst.range ⟨rs ++ [r], m, c⟩ (Rst.last ⟨rs ++ [r], m, c⟩) = r := by
  simp [Rst.range, Rst.last]

theorem rstAddrange_concat (rs : List RowRange) (r : RowRange) (m c : Int)
    (lo hi : Int) :
    rstAddrange ⟨rs ++ [r], m, c⟩ lo hi =
      if r.hival + 1 = lo then
        ⟨rs ++ [⟨r.loval, hi, r.nrow + hi - lo + 1⟩], m, c⟩
      else
        ⟨rs ++ [r] ++ [⟨lo, hi, r.nrow + hi - lo + 1⟩],
          if (rs.length : Int) + 2 > m then 2 * m else m, c⟩ := by
  have hlast : Rst.last ⟨rs ++ [r], m, c⟩ = rs.length + 1 := by
    simp [Rst.last]
  have hne : Rst.last ⟨rs ++ [r], m, c⟩ ≠ 0 := by omega
  have hindex : ((rs.length : Int) + 1 - 1).toNat = rs.length := by omega
  unfold rstAddrange
  simp only [Rst.hival, Rst.nrow, range_concat, hne, ne_eq, not_false_eq_true,
    true_and, if_false]
  split
  · simp [hlast]
  · simp [hlast, Int.add_assoc]

theorem addrange_spec (h : set.WellFormed) {lo hi : Int} (hlo : 1 ≤ lo)
    (hle : lo ≤ hi) (hafter : ∀ r ∈ set.ranges, r.hival < lo) :
    (rstAddrange set lo hi).WellFormed ∧
      (rstAddrange set lo hi).rows = set.rows ∪ Set.Icc lo hi ∧
      ∀ r ∈ (rstAddrange set lo hi).ranges, r.hival ≤ hi := by
  obtain ⟨ranges, m, c⟩ := set
  have hroom := h.room
  simp only [Rst.last] at hroom
  rcases List.eq_nil_or_concat ranges with rfl | ⟨rs, r, rfl⟩
  · have hadd : rstAddrange ⟨[], m, c⟩ lo hi =
        ⟨[] ++ [⟨lo, hi, hi - lo + 1⟩], if 1 > m then 2 * m else m, c⟩ := by
      simp [rstAddrange, Rst.last]
    rw [hadd, if_neg (by omega)]
    refine ⟨h.concat ⟨hlo, hle⟩ (by simp) (by simp [count]) (by simpa using
      hroom.1), ?_, by simp⟩
    simp [Rst.rows, ends, RowRange.ends]
  · rw [List.concat_eq_append] at h hafter hroom ⊢
    have hr := h.rows r (by simp)
    have hbefore := hafter r (by simp)
    have hnrow := h.nrow_last rfl
    rw [List.length_append, List.length_singleton] at hroom
    have hapart := (List.pairwise_append.mp h.apart).2.2
    have hinit : WellFormed ⟨rs, m, c⟩ := by
      have htake := h.truncate rs.length
      simpa [Rst.truncate] using htake
    have hends : ∀ s ∈ rs, s.hival ≤ r.hival := by
      intro s hs
      have := hapart s hs r (by simp)
      omega
    rw [rstAddrange_concat]
    by_cases hadj : r.hival + 1 = lo
    · rw [if_pos hadj]
      have hgrown : WellFormed
          ⟨rs ++ [⟨r.loval, hi, r.nrow + hi - lo + 1⟩], m, c⟩ :=
        hinit.concat (r := ⟨r.loval, hi, r.nrow + hi - lo + 1⟩)
          ⟨hr.1, show r.loval ≤ hi by omega⟩
          (fun s hs => hapart s hs r (by simp))
          (show r.nrow + hi - lo + 1 = count rs + (hi - r.loval + 1) by omega)
          (by omega)
      refine ⟨hgrown, ?_, ?_⟩
      · ext v
        simp only [Rst.rows, ends, List.map_append, List.map_cons,
          List.map_nil, RowRange.ends, cells_append, cells_cons, cells_nil,
          Set.union_empty, Set.mem_union, Set.mem_Icc]
        constructor
        · rintro (hv | hv)
          · exact .inl (.inl hv)
          · rcases Int.lt_or_le v lo with hlt | hge
            · exact .inl (.inr (by omega))
            · exact .inr (by omega)
        · rintro ((hv | hv) | hv)
          · exact .inl hv
          · exact .inr (by omega)
          · exact .inr (by omega)
      · intro s hs
        rcases List.mem_append.mp hs with hs | hs
        · have := hends s hs
          omega
        · obtain rfl := List.mem_singleton.mp hs
          exact Int.le_refl _
    · rw [if_neg hadj]
      refine ⟨h.concat ⟨hlo, hle⟩ ?_ ?_ ?_, ?_, ?_⟩
      · intro s hs
        rcases List.mem_append.mp hs with hs | hs
        · have := hends s hs
          simp only
          omega
        · obtain rfl := List.mem_singleton.mp hs
          simp only
          omega
      · rw [count_append, count_singleton]
        simp only
        omega
      · rw [List.length_append, List.length_singleton]
        split <;> omega
      · simp [Rst.rows, ends, RowRange.ends, Set.union_assoc]
      · intro s hs
        rcases List.mem_append.mp hs with hs | hs
        · have := hafter s hs
          omega
        · obtain rfl := List.mem_singleton.mp hs
          exact Int.le_refl _

theorem addRanges_spec {rs : List (Int × Int)} (hrs : InOrder rs)
    (h : set.WellFormed) (hafter : ∀ r ∈ set.ranges, ∀ s ∈ rs, r.hival < s.1) :
    (addRanges set rs).WellFormed ∧
      (addRanges set rs).rows = set.rows ∪ cells rs ∧
      ∀ v, (∀ r ∈ set.ranges, r.hival < v) → (∀ r ∈ rs, r.2 < v) →
        ∀ r ∈ (addRanges set rs).ranges, r.hival < v := by
  induction rs generalizing set with
  | nil => exact ⟨h, by simp [addRanges], fun v hv _ => hv⟩
  | cons s rs ih =>
      obtain ⟨hpos, hle⟩ := hrs.rows s (by simp)
      obtain ⟨hwf, hrows, hends⟩ := addrange_spec h hpos hle fun r hr =>
        hafter r hr s (by simp)
      obtain ⟨hfirst, hrest⟩ := List.pairwise_cons.mp hrs.sorted
      obtain ⟨hwf', hrows', hends'⟩ :=
        ih ⟨fun r hr => hrs.rows r (by simp [hr]), hrest⟩ hwf
          fun r hr t ht => Int.lt_of_le_of_lt (hends r hr) (hfirst t ht)
      refine ⟨hwf', ?_, fun v hv hlast => ?_⟩
      · rw [cells_cons, ← Set.union_assoc, ← hrows]
        exact hrows'
      · refine hends' v (fun r hr => ?_) fun r hr => hlast r (by simp [hr])
        exact Int.lt_of_le_of_lt (hends r hr) (hlast s (by simp))

/-! ## Counting rows -/

theorem finite_cells (rs : List (Int × Int)) : (cells rs).Finite := by
  induction rs with
  | nil => simp
  | cons r rs ih =>
      rw [cells_cons]
      exact (Set.finite_Icc r.1 r.2).union ih

theorem ncard_cells {rs : List (Int × Int)} (h : InOrder rs) :
    ((cells rs).ncard : Int) = (rs.map fun r => r.2 - r.1 + 1).sum := by
  induction rs with
  | nil => simp
  | cons r rs ih =>
      obtain ⟨hfirst, hrest⟩ := List.pairwise_cons.mp h.sorted
      have hr := h.rows r (by simp)
      have hcard : (Set.Icc r.1 r.2).ncard = (r.2 + 1 - r.1).toNat := by
        rw [← Finset.coe_Icc, Set.ncard_coe_finset, Int.card_Icc]
      have hdisjoint : Disjoint (Set.Icc r.1 r.2) (cells rs) := by
        refine Set.disjoint_left.mpr ?_
        rintro v ⟨-, hle⟩ ⟨s, hs, hlo, -⟩
        have := hfirst s hs
        omega
      rw [cells_cons, Set.ncard_union_eq hdisjoint (Set.finite_Icc r.1 r.2)
        (finite_cells rs), hcard, Nat.cast_add,
        ih ⟨fun s hs => h.rows s (by simp [hs]), hrest⟩, List.map_cons,
        List.sum_cons]
      omega

theorem WellFormed.nelem (h : set.WellFormed) :
    rstNelem set = set.rows.ncard := by
  have hcount : (set.rows.ncard : Int) = count set.ranges := by
    rw [Rst.rows, ncard_cells h.inOrder, ends, List.map_map]
    rfl
  rw [hcount]
  obtain ⟨ranges, m, c⟩ := set
  rcases List.eq_nil_or_concat ranges with rfl | ⟨rs, r, rfl⟩
  · simp [rstNelem, Rst.last, count]
  · rw [List.concat_eq_append] at h ⊢
    have hlast : Rst.last ⟨rs ++ [r], m, c⟩ ≠ 0 := by
      simp only [Rst.last, List.length_append, List.length_singleton]
      omega
    rw [rstNelem, if_neg hlast, Rst.nrow, range_concat, count_append,
      count_singleton]
    exact h.nrow_last rfl

/-! ## Finding a row -/

theorem hival_eq {i : Int} (hi : (i - 1).toNat < set.ranges.length) :
    set.hival i = (set.ranges[(i - 1).toNat]).hival := by
  rw [Rst.hival, Rst.range, List.getD_eq_getElem _ _ hi]

theorem WellFormed.falls (h : set.WellFormed) (value : Int) :
    Falls (fun i => value > set.hival i) set.last := by
  intro i j hi hij hj hpass
  simp only [Rst.last] at hj
  have hi' : (i - 1).toNat < set.ranges.length := by omega
  have hj' : (j - 1).toNat < set.ranges.length := by omega
  rw [decide_eq_true_eq, hival_eq hj'] at hpass
  rw [decide_eq_true_eq, hival_eq hi']
  rcases Int.lt_or_eq_of_le hij with hlt | rfl
  · have hapart := List.pairwise_iff_getElem.mp h.apart _ _ hi' hj' (by omega)
    have hrow := h.rows _ (List.getElem_mem hj')
    omega
  · exact hpass

/-- What a search for `value` finds: the ranges `rs` end below it, the ranges
`ss` do not. -/
structure Found (set found : Rst) (value : Int) (rs ss : List RowRange) :
    Prop where
  eq : rstFindloc set value = ((rs.length : Int) + 1, found)
  wellFormed : found.WellFormed
  same : found.ranges = set.ranges
  split : found.ranges = rs ++ ss
  below : ∀ r ∈ rs, r.hival < value
  above : ∀ r ∈ ss, value ≤ r.hival

theorem WellFormed.findloc (h : set.WellFormed) (value : Int) :
    ∃ found rs ss, Found set found value rs ss := by
  have hb := search_bracket (h.falls value) (by simp [Rst.last]) set.current
  generalize hidx : search (fun i => value > set.hival i) set.last
    set.current = idx at hb
  have hlo := hb.lo_nonneg
  have hhi := hb.hi_le
  simp only [Rst.last] at hhi
  have hlength : ((set.ranges.take (idx - 1).toNat).length : Int) + 1 = idx := by
    rw [List.length_take]
    omega
  refine ⟨{ set with current := idx }, set.ranges.take (idx - 1).toNat,
    set.ranges.drop (idx - 1).toNat, ?_, h.hint idx, rfl,
    (List.take_append_drop ..).symm, ?_, ?_⟩
  · rw [rstFindloc, hidx, hlength]
  · intro r hr
    obtain ⟨k, hk, rfl⟩ := List.mem_take_iff_getElem.mp hr
    have hpass := hb.pass (k + 1) (by omega) (by omega)
    rw [decide_eq_true_eq, hival_eq (by omega)] at hpass
    simpa using hpass
  · intro r hr
    obtain ⟨k, hk, rfl⟩ := List.mem_drop_iff_getElem.mp hr
    have hfail := hb.fail (((idx - 1).toNat + k : Nat) + 1) (by omega)
      (by simp only [Rst.last]; omega)
    rw [decide_eq_false_iff_not, hival_eq (by omega)] at hfail
    simpa only [Int.add_sub_cancel, Int.toNat_natCast, gt_iff_lt,
      Int.not_lt] using hfail

end Rst

end Iraf.Selector
