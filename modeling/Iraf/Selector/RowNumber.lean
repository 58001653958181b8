import Iraf.Selector.RstEdits

/-!
# The rows of a row set by number

`rst_rownum` looks an index up in the cumulative numbers of rows.  The first range that
reaches the index holds its row, but an index below 1 is answered from the first range too.
-/

namespace Iraf.Selector

open Iraf.BracketSearch

/-- The row of the given index when the rows are counted from the smallest one. -/
def NthRow (s : Set Int) (index row : Int) : Prop :=
  row ∈ s ∧ ((s ∩ Set.Iic row).ncard : Int) = index

namespace Rst

variable {set : Rst} {rs ss : List RowRange} {r : RowRange} {index : Int}

/-! ## Cumulative numbers -/

theorem count_nonneg (h : ∀ r ∈ rs, 1 ≤ r.loval ∧ r.loval ≤ r.hival) : 0 ≤ count rs := by
  induction rs with
  | nil => exact Int.le_refl 0
  | cons r rs ih =>
      have hr := h r List.mem_cons_self
      have hrest := ih fun s hs => h s (List.mem_cons_of_mem r hs)
      have hcount : count (r :: rs) = r.hival - r.loval + 1 + count rs := by
        rw [count, List.map_cons, List.sum_cons, ← count]
      omega

theorem count_take_le (h : ∀ r ∈ rs, 1 ≤ r.loval ∧ r.loval ≤ r.hival) {i j : Nat} (hij : i ≤ j) :
    count (rs.take i) ≤ count (rs.take j) := by
  obtain ⟨d, rfl⟩ := Nat.exists_eq_add_of_le hij
  rw [List.take_add, count_append]
  have hpos : 0 ≤ count ((rs.drop i).take d) :=
    count_nonneg fun r hr => h r (List.mem_of_mem_drop (List.mem_of_mem_take hr))
  omega

theorem nrow_eq {i : Int} (hi : (i - 1).toNat < set.ranges.length) :
    set.nrow i = (set.ranges[(i - 1).toNat]).nrow := by
  rw [Rst.nrow, Rst.range, List.getD_eq_getElem _ _ hi]

theorem WellFormed.nrow_take (h : set.WellFormed) {i : Int} (hpos : 1 ≤ i) (hi : i ≤ set.last) :
    set.nrow i = count (set.ranges.take i.toNat) := by
  simp only [Rst.last] at hi
  have hindex : (i - 1).toNat + 1 = i.toNat := by omega
  rw [nrow_eq (by omega), h.nrow, hindex]

theorem WellFormed.nrow_falls (h : set.WellFormed) (index : Int) :
    Falls (fun i => index > set.nrow i) set.last := by
  intro i j hi hij hj hpass
  rw [decide_eq_true_eq, h.nrow_take (by omega) hj] at hpass
  rw [decide_eq_true_eq, h.nrow_take hi (by omega)]
  have hle := @count_take_le set.ranges h.rows i.toNat j.toNat (by omega)
  omega

/-! ## The search -/

/-- Where the search for an index ends: the ranges `rs` do not reach it, and the range
after them, if there is one, does. -/
structure Reached (set : Rst) (index : Int) (rs ss : List RowRange) : Prop where
  split : set.ranges = rs ++ ss
  eq : search (fun i => index > set.nrow i) set.last set.current = (rs.length : Int) + 1
  below : rs ≠ [] → count rs < index
  above : ∀ r ∈ ss.head?, index ≤ count rs + (r.hival - r.loval + 1)

theorem WellFormed.reached (h : set.WellFormed) (index : Int) :
    ∃ rs ss, set.Reached index rs ss := by
  have hb := search_bracket (h.nrow_falls index) (by simp [Rst.last]) set.current
  generalize hidx : search (fun i => index > set.nrow i) set.last set.current = idx at hb
  have hlo := hb.lo_nonneg
  have hhi := hb.hi_le
  have hlength : ((set.ranges.take (idx - 1).toNat).length : Int) + 1 = idx := by
    simp only [Rst.last] at hhi
    rw [List.length_take]
    omega
  refine ⟨set.ranges.take (idx - 1).toNat, set.ranges.drop (idx - 1).toNat,
    (List.take_append_drop _ _).symm, ?_, ?_, ?_⟩
  · rw [hidx, hlength]
  · intro hne
    have hpos : 1 ≤ idx - 1 := by
      by_contra hzero
      have hindex : (idx - 1).toNat = 0 := by omega
      rw [hindex, List.take_zero] at hne
      exact hne rfl
    have hpass := hb.pass (idx - 1) hpos (Int.le_refl _)
    rw [decide_eq_true_eq, h.nrow_take hpos (by omega)] at hpass
    exact hpass
  · intro r hr
    rw [List.head?_drop, Option.mem_def, List.getElem?_eq_some_iff] at hr
    obtain ⟨hlt, rfl⟩ := hr
    have hle : idx ≤ set.last := by
      simp only [Rst.last]
      omega
    have hfail := hb.fail idx (Int.le_refl idx) hle
    have hindex : idx.toNat = (idx - 1).toNat + 1 := by omega
    rw [decide_eq_false_iff_not, h.nrow_take (by omega) hle, hindex,
      List.take_succ_eq_append_getElem hlt, count_append, count_singleton] at hfail
    omega

theorem Reached.rownum_cons (h : set.WellFormed) (hr : set.Reached index rs (r :: ss)) :
    rstRownum set index =
      if r.loval + index - count rs ≤ 1 then (0, { set with current := 0 })
      else (r.loval + index - count rs - 1, { set with current := (rs.length : Int) + 1 }) := by
  have hlast := last_append hr.split
  rw [List.length_cons] at hlast
  have hinside : ¬ ((rs.length : Int) + 1 < 1 ∨ (rs.length : Int) + 1 > set.last) := by omega
  have hnrow : set.nrow ((rs.length : Int) + 1) = count rs + (r.hival - r.loval + 1) := by
    have htake : set.ranges.take ((rs.length : Int) + 1).toNat = rs ++ [r] := by
      have hconcat : rs ++ r :: ss = (rs ++ [r]) ++ ss := by simp
      rw [hr.split, hconcat]
      refine List.take_left' ?_
      rw [List.length_append, List.length_singleton]
      omega
    rw [h.nrow_take (by omega) (by omega), htake, count_append, count_singleton]
  have hrow : set.hival ((rs.length : Int) + 1) - (count rs + (r.hival - r.loval + 1) - index) =
      r.loval + index - count rs - 1 := by
    rw [hival_append hr.split]
    omega
  unfold rstRownum
  simp only [hr.eq, hnrow, hrow, hinside, not_false_eq_true, true_and, if_false]
  by_cases hlow : r.loval + index - count rs ≤ 1
  · rw [if_pos hlow, if_pos (by omega)]
  · rw [if_neg hlow, if_neg (by omega)]

theorem Reached.rownum_nil (hr : set.Reached index rs []) :
    rstRownum set index = (0, { set with current := (rs.length : Int) + 1 }) := by
  have hlast := last_append hr.split
  rw [List.length_nil] at hlast
  have houtside : (rs.length : Int) + 1 < 1 ∨ (rs.length : Int) + 1 > set.last := by omega
  unfold rstRownum
  simp only [hr.eq, houtside, not_true_eq_false, false_and, if_false, if_true]

/-- `rst_rownum` answers with the row of the index, or 0, and keeps the ranges. -/
structure Enumerates (set : Rst) (index : Int) : Prop where
  kept : (rstRownum set index).2.ranges = set.ranges
  inside : 1 ≤ index → index ≤ rstNelem set → NthRow set.rows index (rstRownum set index).1
  outside : ¬ (1 ≤ index ∧ index ≤ rstNelem set) → (rstRownum set index).1 = 0

theorem WellFormed.nelem_eq_count (h : set.WellFormed) : rstNelem set = count set.ranges := by
  rw [h.nelem, Rst.rows, ncard_cells h.inOrder, ends, List.map_map]
  rfl

theorem WellFormed.rownum_below (h : set.WellFormed) (hindex : index ≤ 0) :
    (rstRownum set index).2.ranges = set.ranges ∧
      (rstRownum set index).1 = match set.ranges with
        | [] => 0
        | r :: _ => if r.loval + index ≤ 1 then 0 else r.loval + index - 1 := by
  obtain ⟨rs, ss, hr⟩ := h.reached index
  have hnil : rs = [] := by
    by_contra hne
    have hlt := hr.below hne
    have hpos : 0 ≤ count rs := count_nonneg fun r hr' => h.rows r (by
      rw [hr.split]
      exact List.mem_append_left ss hr')
    omega
  subst hnil
  have hsplit : set.ranges = ss := hr.split
  rw [hsplit]
  cases ss with
  | nil =>
      rw [hr.rownum_nil]
      exact ⟨hsplit, rfl⟩
  | cons r ss =>
      have hanswer := hr.rownum_cons h
      simp only [count, List.map_nil, List.sum_nil, Int.sub_zero] at hanswer
      rw [hanswer]
      by_cases hearly : r.loval + index ≤ 1
      · simp only [if_pos hearly]
        exact ⟨hsplit, trivial⟩
      · simp only [if_neg hearly]
        exact ⟨hsplit, trivial⟩

theorem nthRow_inside (h : set.WellFormed) (hset : set.ranges = rs ++ r :: ss) {index : Int}
    (hlo : count rs < index) (hhi : index ≤ count rs + (r.hival - r.loval + 1)) :
    NthRow set.rows index (r.loval + index - count rs - 1) := by
  have haround := h.around hset
  have hrows := rows_append hset
  rw [List.map_cons, cells_cons] at hrows
  constructor
  · rw [hrows]
    exact .inr (.inl ⟨by simp only [RowRange.ends]; omega, by simp only [RowRange.ends]; omega⟩)
  · generalize hrow : r.loval + index - count rs - 1 = row
    have hbelow : set.rows ∩ Set.Iic row =
        cells (rs.map RowRange.ends ++ [(r.loval, row)]) := by
      rw [hrows, cells_append, cells_cons, cells_nil, Set.union_empty]
      ext v
      simp only [Set.mem_inter_iff, Set.mem_union, Set.mem_Iic, Set.mem_Icc, RowRange.ends]
      constructor
      · rintro ⟨hv | hv | hv, hle⟩
        · exact .inl hv
        · exact .inr ⟨hv.1, hle⟩
        · have hgt := le_of_mem_cells (fun s hs => Int.le_of_lt (haround.above s hs)) hv
          omega
      · rintro (hv | hv)
        · have hlt : v < r.loval := lt_of_mem_cells (fun s hs => by
            have := haround.below s hs
            omega) hv
          exact ⟨.inl hv, by omega⟩
        · exact ⟨.inr (.inl ⟨hv.1, by omega⟩), hv.2⟩
    have horder : InOrder (rs.map RowRange.ends ++ [(r.loval, row)]) := by
      refine InOrder.append_iff.mpr ⟨haround.before,
        inOrder_singleton haround.row.1 (by omega), fun t ht u hu => ?_⟩
      obtain ⟨s, hs, rfl⟩ := List.mem_map.mp ht
      obtain rfl := List.mem_singleton.mp hu
      have hlt := haround.below s hs
      simp only [RowRange.ends]
      omega
    have hcount : ((rs.map RowRange.ends).map fun r => r.2 - r.1 + 1).sum = count rs := by
      rw [List.map_map]
      rfl
    rw [hbelow, ncard_cells horder, List.map_append, List.sum_append, hcount, List.map_singleton,
      List.sum_singleton]
    omega

/-- An index is answered with its row, or with 0 when it has none; below 1 only where the
first range begins early enough. -/
theorem rstRownum_enumerates_iff (h : set.WellFormed) (index : Int) :
    set.Enumerates index ↔ 1 ≤ index ∨ ∀ r ∈ set.ranges.head?, r.loval + index ≤ 1 := by
  obtain ⟨rs, ss, hr⟩ := h.reached index
  have hnelem := h.nelem_eq_count
  rw [hr.split, count_append] at hnelem
  have hrs : 0 ≤ count rs := count_nonneg fun r hr' => h.rows r (by
    rw [hr.split]
    exact List.mem_append_left ss hr')
  rcases Int.lt_or_le 0 index with hpos | hneg
  · refine iff_of_true ?_ (.inl hpos)
    have hbelow : count rs < index := by
      rcases eq_or_ne rs [] with rfl | hne
      · exact hpos
      · exact hr.below hne
    cases ss with
    | nil =>
        have hpast : rstNelem set < index := by
          rw [hnelem]
          exact (Int.add_zero _).symm ▸ hbelow
        refine ⟨?_, fun _ hhi => absurd hhi (by omega), fun _ => ?_⟩
        · rw [hr.rownum_nil]
        · rw [hr.rownum_nil]
    | cons r ss =>
        have hrow := (h.around hr.split).row
        have hanswer := hr.rownum_cons h
        rw [if_neg (by omega)] at hanswer
        have hreach := hr.above r rfl
        have hss : 0 ≤ count ss := count_nonneg fun s hs => h.rows s (by simp [hr.split, hs])
        have hcount : count (r :: ss) = r.hival - r.loval + 1 + count ss := by
          rw [count, List.map_cons, List.sum_cons, ← count]
        constructor
        · rw [hanswer]
        · intro _ _
          rw [hanswer]
          exact nthRow_inside h hr.split hbelow hreach
        · intro hnot
          exact absurd ⟨hpos, by omega⟩ hnot
  · have hnot : ¬ (1 ≤ index ∧ index ≤ rstNelem set) := by omega
    have hindex : ¬ 1 ≤ index := by omega
    obtain ⟨hkept, hanswer⟩ := h.rownum_below hneg
    cases hranges : set.ranges with
    | nil =>
        refine iff_of_true ⟨hkept, fun hlo => absurd hlo hindex, fun _ => ?_⟩ (.inr ?_)
        · rw [hanswer, hranges]
        · simp
    | cons r ss =>
        rw [hranges] at hanswer
        have hcond : (1 ≤ index ∨ ∀ s ∈ (r :: ss).head?, s.loval + index ≤ 1) ↔
            r.loval + index ≤ 1 := by
          simp [hindex]
        rw [hcond]
        constructor
        · intro henum
          by_contra hlate
          have hzero := henum.outside hnot
          rw [hanswer] at hzero
          simp only [if_neg hlate] at hzero
          omega
        · intro hearly
          refine ⟨hkept, fun hlo => absurd hlo hindex, fun _ => ?_⟩
          rw [hanswer]
          exact if_pos hearly

/-- A set that holds the rows 5 to 10. -/
def lateRows : Rst := rstCreate 5 10

theorem lateRows_wellFormed : lateRows.WellFormed := by
  have hset : lateRows = rstAddrange (rstCreate 0 0) 5 10 := by decide
  rw [hset]
  have hempty : (rstCreate 0 0).WellFormed :=
    ⟨by decide, List.Pairwise.nil, by decide, by decide⟩
  exact (addrange_spec hempty (by decide) (by decide) (by decide)).1

theorem enumerates_lateRows : lateRows.Enumerates 3 :=
  (rstRownum_enumerates_iff lateRows_wellFormed 3).mpr (.inl (by decide))

/-- Index 0 is answered with row 4, which is not in the set. -/
theorem not_enumerates_lateRows :
    lateRows.WellFormed ∧ rstNelem lateRows = 6 ∧ ¬ lateRows.Enumerates 0 := by
  refine ⟨lateRows_wellFormed, by decide, fun henum => ?_⟩
  have hzero := henum.outside (by decide)
  rw [(lateRows_wellFormed.rownum_below (Int.le_refl 0)).2] at hzero
  exact absurd hzero (by decide)

end Rst

end Iraf.Selector
