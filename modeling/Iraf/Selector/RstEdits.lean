import Iraf.Selector.RowSet

/-!
# Editing a row set

Every edit truncates the ranges, adds a few new ones and appends the ranges
that followed, shifted.
-/

namespace Iraf.Selector

/-! ## Rows of a table that changes -/

/-- The set after rows have been inserted after row `loval` of the table. -/
def rowsInserted (loval nval : Int) (s : Set Int) : Set Int :=
  { v | v ≤ loval ∧ v ∈ s ∨ loval < v ∧ v ≤ loval + nval ∨
    loval + nval < v ∧ v - nval ∈ s }

/-- The set after rows have been deleted from row `loval` of the table on. -/
def rowsDeleted (loval nval : Int) (s : Set Int) : Set Int :=
  { v | v < loval ∧ v ∈ s ∨ loval ≤ v ∧ v + nval ∈ s }

namespace Rst

variable {set : Rst} {rs ss : List RowRange} {r : RowRange}

/-! ## Rebuilding the ranges -/

def shifted (tail : List (Int × Int)) (shift : Int) : List (Int × Int) :=
  tail.map fun r => (r.1 + shift, r.2 + shift)

@[simp] theorem mem_cells_shifted (tail : List (Int × Int)) (shift v : Int) :
    v ∈ cells (shifted tail shift) ↔ v - shift ∈ cells tail := by
  constructor
  · rintro ⟨r, hr, hlo, hhi⟩
    obtain ⟨s, hs, rfl⟩ := List.mem_map.mp hr
    exact ⟨s, hs, by simp only at hlo; omega, by simp only at hhi; omega⟩
  · rintro ⟨s, hs, hlo, hhi⟩
    exact ⟨_, List.mem_map.mpr ⟨s, hs, rfl⟩, by simp only; omega,
      by simp only; omega⟩

theorem shifted_inOrder {tail : List (Int × Int)} (h : InOrder tail)
    {shift : Int} (hpos : ∀ r ∈ tail, 1 ≤ r.1 + shift) :
    InOrder (shifted tail shift) where
  rows := by
    intro r hr
    obtain ⟨s, hs, rfl⟩ := List.mem_map.mp hr
    have hrow := h.rows s hs
    exact ⟨hpos s hs, by simp only; omega⟩
  sorted := List.pairwise_map.mpr (h.sorted.imp fun hlt => by
    simp only
    omega)

theorem ends_append (hset : set.ranges = rs ++ ss) :
    set.ends = rs.map RowRange.ends ++ ss.map RowRange.ends := by
  rw [Rst.ends, hset, List.map_append]

theorem range_append (hset : set.ranges = rs ++ r :: ss) :
    set.range (rs.length + 1) = r := by
  simp [Rst.range, hset]

theorem loval_append (hset : set.ranges = rs ++ r :: ss) :
    set.loval (rs.length + 1) = r.loval := by
  rw [Rst.loval, range_append hset]

theorem hival_append (hset : set.ranges = rs ++ r :: ss) :
    set.hival (rs.length + 1) = r.hival := by
  rw [Rst.hival, range_append hset]

theorem ranges_truncate (hset : set.ranges = rs ++ ss) :
    (set.truncate (rs.length + 1 - 1)).ranges = rs := by
  simp [Rst.truncate, hset]

theorem rstTail_append (hset : set.ranges = rs ++ ss) :
    rstTail set (rs.length + 1) = ss.map RowRange.ends := by
  simp [rstTail, hset]

theorem rstTail_next (hset : set.ranges = rs ++ r :: ss) :
    rstTail set (rs.length + 1 + 1) = ss.map RowRange.ends := by
  have hindex : ((rs.length : Int) + 1 + 1 - 1).toNat = rs.length + 1 := by
    omega
  rw [rstTail, hset, hindex, ← List.drop_drop, List.drop_left]
  rfl

theorem rebuild (h : set.WellFormed) (hset : set.ranges = rs ++ ss)
    {mid tail : List (Int × Int)} {shift : Int}
    (hmid : InOrder (rs.map RowRange.ends ++ (mid ++ shifted tail shift))) :
    (rstConcat (addRanges (set.truncate (rs.length + 1 - 1)) mid) tail
        shift).WellFormed ∧
      (rstConcat (addRanges (set.truncate (rs.length + 1 - 1)) mid) tail
        shift).rows =
        cells (rs.map RowRange.ends) ∪ cells mid ∪
          cells (shifted tail shift) := by
  have hfold : rstConcat (addRanges (set.truncate (rs.length + 1 - 1)) mid)
      tail shift = addRanges (set.truncate (rs.length + 1 - 1))
        (mid ++ shifted tail shift) := by
    rw [rstConcat, addRanges, addRanges, addRanges, List.foldl_append]
    rfl
  obtain ⟨-, hnew, hcross⟩ := InOrder.append_iff.mp hmid
  obtain ⟨hwf, hrows, -⟩ := addRanges_spec hnew (h.truncate _)
    fun r hr s hs => by
      rw [ranges_truncate hset] at hr
      exact hcross r.ends (List.mem_map_of_mem hr) s hs
  rw [hfold]
  refine ⟨hwf, ?_⟩
  rw [hrows, cells_append, ← Set.union_assoc, Rst.rows, Rst.ends,
    ranges_truncate hset]

theorem WellFormed.parts (h : set.WellFormed) (hset : set.ranges = rs ++ ss) :
    InOrder (rs.map RowRange.ends) ∧ InOrder (ss.map RowRange.ends) := by
  have horder := h.inOrder
  rw [ends_append hset] at horder
  obtain ⟨hrs, hss, -⟩ := InOrder.append_iff.mp horder
  exact ⟨hrs, hss⟩

/-- What holds of the ranges on both sides of range `r`. -/
structure Around (rs : List RowRange) (r : RowRange) (ss : List RowRange) :
    Prop where
  before : InOrder (rs.map RowRange.ends)
  after : InOrder (ss.map RowRange.ends)
  row : 1 ≤ r.loval ∧ r.loval ≤ r.hival
  below : ∀ s ∈ rs, s.hival + 1 < r.loval
  above : ∀ s ∈ ss, r.hival + 1 < s.loval

theorem WellFormed.around (h : set.WellFormed)
    (hset : set.ranges = rs ++ r :: ss) : Around rs r ss := by
  have hafter : set.ranges = (rs ++ [r]) ++ ss := by simp [hset]
  have hapart := h.apart
  rw [hset] at hapart
  obtain ⟨-, hright, hcross⟩ := List.pairwise_append.mp hapart
  exact ⟨(h.parts hset).1, (h.parts hafter).2, h.rows r (by simp [hset]),
    fun s hs => hcross s hs r (by simp),
    fun s hs => (List.pairwise_cons.mp hright).1 s hs⟩

theorem lt_of_mem_cells {b v : Int} (hrs : ∀ r ∈ rs, r.hival < b)
    (hv : v ∈ cells (rs.map RowRange.ends)) : v < b := by
  obtain ⟨r, hr, -, hhi⟩ := hv
  obtain ⟨s, hs, rfl⟩ := List.mem_map.mp hr
  exact Int.lt_of_le_of_lt hhi (hrs s hs)

theorem le_of_mem_cells {b v : Int} (hrs : ∀ r ∈ rs, b ≤ r.loval)
    (hv : v ∈ cells (rs.map RowRange.ends)) : b ≤ v := by
  obtain ⟨r, hr, hlo, -⟩ := hv
  obtain ⟨s, hs, rfl⟩ := List.mem_map.mp hr
  exact Int.le_trans (hrs s hs) hlo

/-- The new ranges lie in the rows from `x` to `y - 1`, the kept ranges before
them and the shifted ones after them. -/
theorem inOrder_between {x y shift : Int} (hxy : x ≤ y)
    {mid : List (Int × Int)} (hrs : InOrder (rs.map RowRange.ends))
    (hmid : InOrder mid) (hss : InOrder (ss.map RowRange.ends))
    (hpos : 1 ≤ y) (hbefore : ∀ r ∈ rs, r.hival < x)
    (hinside : ∀ m ∈ mid, x ≤ m.1 ∧ m.2 < y)
    (hafter : ∀ s ∈ ss, y ≤ s.loval + shift) :
    InOrder (rs.map RowRange.ends ++
      (mid ++ shifted (ss.map RowRange.ends) shift)) := by
  have hshifted : ∀ t ∈ shifted (ss.map RowRange.ends) shift, y ≤ t.1 := by
    intro t ht
    simp only [shifted, List.map_map, List.mem_map] at ht
    obtain ⟨s, hs, rfl⟩ := ht
    exact hafter s hs
  have hkept : ∀ a ∈ rs.map RowRange.ends, a.2 < x := by
    intro a ha
    obtain ⟨s, hs, rfl⟩ := List.mem_map.mp ha
    exact hbefore s hs
  refine InOrder.append_iff.mpr ⟨hrs, InOrder.append_iff.mpr
    ⟨hmid, shifted_inOrder hss ?_, ?_⟩, ?_⟩
  · intro a ha
    obtain ⟨s, hs, rfl⟩ := List.mem_map.mp ha
    exact Int.le_trans hpos (hafter s hs)
  · intro m hm t ht
    exact Int.lt_of_lt_of_le (hinside m hm).2 (hshifted t ht)
  · intro a ha t ht
    rcases List.mem_append.mp ht with ht | ht
    · exact Int.lt_of_lt_of_le (hkept a ha) (hinside t ht).1
    · exact Int.lt_of_lt_of_le (hkept a ha) (Int.le_trans hxy (hshifted t ht))

theorem inOrder_nil : InOrder [] := ⟨by simp, by simp⟩

theorem inOrder_singleton {lo hi : Int} (hlo : 1 ≤ lo) (hle : lo ≤ hi) :
    InOrder [(lo, hi)] :=
  ⟨fun r hr => by
    obtain rfl := List.mem_singleton.mp hr
    exact ⟨hlo, hle⟩, by simp⟩

/-! ## Adding a row -/

theorem last_append (hset : set.ranges = rs ++ ss) :
    set.last = rs.length + ss.length := by
  rw [Rst.last, hset, List.length_append, Nat.cast_add]

theorem rows_append (hset : set.ranges = rs ++ ss) :
    set.rows = cells (rs.map RowRange.ends) ∪ cells (ss.map RowRange.ends) := by
  rw [Rst.rows, ends_append hset, cells_append]

theorem Found.rows {found : Rst} {value : Int} (h : Found set found value rs ss) :
    set.rows = cells (rs.map RowRange.ends) ∪ cells (ss.map RowRange.ends) :=
  rows_append (h.same.symm.trans h.split)

theorem addrange_last (h : set.WellFormed) (hset : set.ranges = rs ++ [])
    {lo hi : Int} (hlo : 1 ≤ lo) (hle : lo ≤ hi)
    (hbelow : ∀ r ∈ rs, r.hival < lo) :
    (rstAddrange set lo hi).WellFormed ∧
      (rstAddrange set lo hi).rows =
        cells (rs.map RowRange.ends) ∪ Set.Icc lo hi := by
  obtain ⟨hwf, hrows, -⟩ := addrange_spec h hlo hle (by simpa [hset] using hbelow)
  refine ⟨hwf, hrows.trans ?_⟩
  rw [rows_append hset]
  simp

theorem addval_spec (h : set.WellFormed) {value : Int} (hvalue : 1 ≤ value) :
    (rstAddval set value).WellFormed ∧
      (rstAddval set value).rows = insert value set.rows := by
  obtain ⟨found, rs, ss, hfound⟩ := h.findloc value
  have hlast := last_append hfound.split
  unfold rstAddval
  rw [hfound.eq, hfound.rows]
  cases ss with
  | nil =>
      simp only [List.length_nil] at hlast
      simp only
      rw [if_pos (by omega)]
      obtain ⟨hwf, hrows⟩ := addrange_last hfound.wellFormed hfound.split hvalue
        (Int.le_refl value) hfound.below
      refine ⟨hwf, ?_⟩
      rw [hrows]
      ext v
      simp
  | cons r ss =>
      have haround := hfound.wellFormed.around hfound.split
      have hhi := hfound.above r (by simp)
      simp only [List.length_cons] at hlast
      simp only [loval_append hfound.split]
      rw [if_neg (by omega)]
      by_cases hin : value ≥ r.loval
      · rw [if_pos hin]
        refine ⟨hfound.wellFormed, ?_⟩
        rw [rows_append hfound.split, Set.insert_eq_of_mem]
        exact .inr (by simp [RowRange.ends, hin, hhi])
      · rw [if_neg hin, rstTail_append hfound.split]
        have horder : InOrder (rs.map RowRange.ends ++ ([(value, value)] ++
            shifted ((r :: ss).map RowRange.ends) 0)) := by
          refine inOrder_between (show value ≤ value + 1 by omega)
            haround.before (inOrder_singleton hvalue (Int.le_refl value))
            (hfound.wellFormed.parts hfound.split).2 (by omega) hfound.below
            (by simp) ?_
          intro s hs
          rcases List.mem_cons.mp hs with rfl | hs
          · omega
          · have := haround.above s hs
            omega
        obtain ⟨hwf, hrows⟩ := rebuild hfound.wellFormed hfound.split horder
        refine ⟨hwf, hrows.trans ?_⟩
        ext v
        simp [-List.map_cons]
        tauto

theorem addtab_spec (h : set.WellFormed) {loval nval : Int}
    (hloval : 0 ≤ loval) (hnval : 1 ≤ nval) :
    (rstAddtab set loval nval).WellFormed ∧
      (rstAddtab set loval nval).rows = rowsInserted loval nval set.rows := by
  obtain ⟨found, rs, ss, hfound⟩ := h.findloc (loval + 1)
  have hlast := last_append hfound.split
  have hkept : ∀ v ∈ cells (rs.map RowRange.ends), v < loval + 1 :=
    fun v hv => lt_of_mem_cells hfound.below hv
  unfold rstAddtab
  rw [hfound.eq, hfound.rows]
  cases ss with
  | nil =>
      simp only [List.length_nil] at hlast
      simp only
      rw [if_pos (by omega)]
      obtain ⟨hwf, hrows⟩ := addrange_last hfound.wellFormed hfound.split
        (show 1 ≤ loval + 1 by omega) (show loval + 1 ≤ loval + nval by omega)
        hfound.below
      refine ⟨hwf, hrows.trans ?_⟩
      ext v
      have hv := hkept v
      have hv' := hkept (v - nval)
      simp only [rowsInserted, Set.mem_union, Set.mem_Icc, List.map_nil,
        cells_nil, Set.mem_empty_iff_false, or_false, Set.mem_ofPred_eq]
      constructor
      · rintro (hmem | hmem)
        · exact .inl ⟨by have := hv hmem; omega, hmem⟩
        · exact .inr (.inl (by omega))
      · rintro (⟨-, hmem⟩ | hmem | ⟨hlt, hmem⟩)
        · exact .inl hmem
        · exact .inr (by omega)
        · have := hv' hmem
          omega
  | cons r ss =>
      have haround := hfound.wellFormed.around hfound.split
      have hrow := haround.row
      have hhi := hfound.above r (by simp)
      have hrest : ∀ v ∈ cells (ss.map RowRange.ends), r.hival + 2 ≤ v :=
        fun v hv => le_of_mem_cells (fun s hs => by
          have := haround.above s hs
          omega) hv
      simp only [List.length_cons] at hlast
      simp only [loval_append hfound.split, hival_append hfound.split]
      rw [if_neg (by omega)]
      by_cases hgap : loval + 1 < r.loval
      · -- The new rows lie before range `r`.
        simp only [if_pos hgap, Int.add_zero, rstTail_append hfound.split]
        have horder : InOrder (rs.map RowRange.ends ++
            ([(loval + 1, loval + nval)] ++
              shifted ((r :: ss).map RowRange.ends) nval)) := by
          refine inOrder_between
            (show loval + 1 ≤ loval + nval + 1 by omega) haround.before
            (inOrder_singleton (by omega) (by omega))
            (hfound.wellFormed.parts hfound.split).2 (by omega) hfound.below
            (by simp) ?_
          intro s hs
          rcases List.mem_cons.mp hs with rfl | hs
          · omega
          · have := haround.above s hs
            omega
        obtain ⟨hwf, hrows⟩ := rebuild hfound.wellFormed hfound.split horder
        refine ⟨hwf, hrows.trans ?_⟩
        ext v
        have hv := hkept v
        have hv' := hkept (v - nval)
        have hw := hrest v
        have hw' := hrest (v - nval)
        simp only [rowsInserted, Set.mem_union, Set.mem_Icc, List.map_cons,
          cells_cons, cells_nil, Set.mem_empty_iff_false, or_false,
          mem_cells_shifted, RowRange.ends, Set.mem_ofPred_eq]
        grind
      · -- The range `r` takes in the new rows.
        simp only [if_neg hgap, rstTail_next hfound.split]
        have horder : InOrder (rs.map RowRange.ends ++
            ([(r.loval, r.hival + nval)] ++
              shifted (ss.map RowRange.ends) nval)) := by
          refine inOrder_between
            (show r.loval ≤ r.hival + nval + 1 by omega) haround.before
            (inOrder_singleton hrow.1 (by omega)) haround.after (by omega) ?_
            (by simp) ?_
          · intro s hs
            have := haround.below s hs
            omega
          · intro s hs
            have := haround.above s hs
            omega
        obtain ⟨hwf, hrows⟩ := rebuild hfound.wellFormed hfound.split horder
        refine ⟨hwf, hrows.trans ?_⟩
        ext v
        have hv := hkept v
        have hv' := hkept (v - nval)
        have hw := hrest v
        have hw' := hrest (v - nval)
        simp only [rowsInserted, Set.mem_union, Set.mem_Icc, List.map_cons,
          cells_cons, cells_nil, Set.mem_empty_iff_false, or_false,
          mem_cells_shifted, RowRange.ends, Set.mem_ofPred_eq]
        grind

/-! ## Deleting rows -/

theorem delval_spec (h : set.WellFormed) (value : Int) :
    (rstDelval set value).WellFormed ∧
      (rstDelval set value).rows = set.rows \ {value} := by
  obtain ⟨found, rs, ss, hfound⟩ := h.findloc value
  have hlast := last_append hfound.split
  have hkept : ∀ v ∈ cells (rs.map RowRange.ends), v < value :=
    fun v hv => lt_of_mem_cells hfound.below hv
  unfold rstDelval
  rw [hfound.eq, hfound.rows]
  cases ss with
  | nil =>
      simp only [List.length_nil] at hlast
      simp only
      rw [if_pos (by omega)]
      refine ⟨hfound.wellFormed, ?_⟩
      rw [rows_append hfound.split]
      refine (Set.sdiff_singleton_eq_self fun hmem => ?_).symm
      simp only [List.map_nil, cells_nil, Set.union_empty] at hmem
      exact absurd (hkept value hmem) (Int.lt_irrefl value)
  | cons r ss =>
      have haround := hfound.wellFormed.around hfound.split
      have hrow := haround.row
      have hhi := hfound.above r (by simp)
      have hrest : ∀ v ∈ cells (ss.map RowRange.ends), r.hival + 2 ≤ v :=
        fun v hv => le_of_mem_cells (fun s hs => by
          have := haround.above s hs
          omega) hv
      simp only [List.length_cons] at hlast
      simp only [loval_append hfound.split, hival_append hfound.split]
      rw [if_neg (by omega)]
      by_cases hout : value < r.loval
      · rw [if_pos hout]
        refine ⟨hfound.wellFormed, ?_⟩
        rw [rows_append hfound.split]
        refine (Set.sdiff_singleton_eq_self fun hmem => ?_).symm
        rcases hmem with hmem | hmem
        · exact absurd (hkept value hmem) (Int.lt_irrefl value)
        · rw [List.map_cons, cells_cons] at hmem
          rcases hmem with ⟨hlo, -⟩ | hmem
          · simp only [RowRange.ends] at hlo
            omega
          · have := hrest value hmem
            omega
      · rw [if_neg hout, rstTail_next hfound.split]
        -- What is left of range `r`.
        generalize hparts : (if r.loval = r.hival then []
          else if value = r.loval then [(value + 1, r.hival)]
          else if value = r.hival then [(r.loval, value - 1)]
          else [(r.loval, value - 1), (value + 1, r.hival)]) = parts
        have hcells : cells parts = Set.Icc r.loval r.hival \ {value} := by
          rw [← hparts]
          ext v
          split_ifs <;> simp <;> omega
        have hinside : ∀ m ∈ parts, r.loval ≤ m.1 ∧ m.2 < r.hival + 1 := by
          rw [← hparts]
          split_ifs <;> simp <;> omega
        have hmid : InOrder parts := by
          rw [← hparts]
          split_ifs
          · exact ⟨by simp, by simp⟩
          · exact inOrder_singleton (by omega) (by omega)
          · exact inOrder_singleton (by omega) (by omega)
          · exact ⟨by simp; omega, by simp⟩
        have horder : InOrder (rs.map RowRange.ends ++
            (parts ++ shifted (ss.map RowRange.ends) 0)) := by
          refine inOrder_between (show r.loval ≤ r.hival + 1 by omega)
            haround.before hmid haround.after (by omega) ?_ hinside ?_
          · intro s hs
            have := haround.below s hs
            omega
          · intro s hs
            have := haround.above s hs
            omega
        obtain ⟨hwf, hrows⟩ := rebuild hfound.wellFormed hfound.split horder
        refine ⟨hwf, hrows.trans ?_⟩
        rw [hcells]
        ext v
        have hv := hkept v
        have hw := hrest v
        simp only [Set.mem_union, Set.mem_sdiff, Set.mem_Icc, List.map_cons,
          cells_cons, mem_cells_shifted, RowRange.ends, Int.sub_zero,
          Set.mem_singleton_iff]
        grind

theorem rows_above {found : Rst} {loval nval hival : Int}
    (hfound : Found set found hival rs ss) (hhival : hival = loval + nval)
    (hloval : 1 ≤ loval) {split : Bool}
    (hsplit : split = decide ((rs.length : Int) + 1 ≤ found.last ∧
      hival > found.loval (rs.length + 1)))
    {above tail : List (Int × Int)}
    (habove : above = if split then
      [(hival - nval, found.hival (rs.length + 1) - nval)] else [])
    (htail : tail = rstTail found
      (if split then (rs.length : Int) + 1 + 1 else rs.length + 1)) :
    InOrder (above ++ shifted tail (-nval)) ∧
      (∀ m ∈ above ++ shifted tail (-nval), loval ≤ m.1) ∧
      cells (above ++ shifted tail (-nval)) =
        { v | loval ≤ v ∧ v + nval ∈ set.rows } := by
  have hlast := last_append hfound.split
  have hkept : ∀ v ∈ cells (rs.map RowRange.ends), v < hival :=
    fun v hv => lt_of_mem_cells hfound.below hv
  have hsublist : ∀ {ts : List RowRange} {mid : List (Int × Int)},
      InOrder (ts.map RowRange.ends) → InOrder mid →
      (∀ m ∈ mid, loval ≤ m.1 ∧ ∀ t ∈ ts, m.2 < t.loval - nval) →
      (∀ t ∈ ts, hival ≤ t.loval) →
      InOrder (mid ++ shifted (ts.map RowRange.ends) (-nval)) ∧
        ∀ m ∈ mid ++ shifted (ts.map RowRange.ends) (-nval), loval ≤ m.1 := by
    intro ts mid hts hmid hfirst hge
    have hmem : ∀ m ∈ shifted (ts.map RowRange.ends) (-nval),
        ∃ t ∈ ts, m.1 = t.loval - nval := by
      intro m hm
      simp only [shifted, List.map_map, List.mem_map] at hm
      obtain ⟨t, ht, rfl⟩ := hm
      exact ⟨t, ht, rfl⟩
    refine ⟨InOrder.append_iff.mpr ⟨hmid, shifted_inOrder hts ?_, ?_⟩, ?_⟩
    · intro a ha
      obtain ⟨t, ht, rfl⟩ := List.mem_map.mp ha
      have := hge t ht
      simp only [RowRange.ends]
      omega
    · intro m hm n hn
      obtain ⟨t, ht, heq⟩ := hmem n hn
      rw [heq]
      exact (hfirst m hm).2 t ht
    · intro m hm
      rcases List.mem_append.mp hm with hm | hm
      · exact (hfirst m hm).1
      · obtain ⟨t, ht, heq⟩ := hmem m hm
        have := hge t ht
        omega
  rw [hfound.rows]
  cases ss with
  | nil =>
      simp only [List.length_nil] at hlast
      have hno : split = false := by
        rw [hsplit, decide_eq_false_iff_not]
        omega
      rw [hno] at habove htail
      rw [htail, if_neg (by decide), rstTail_append hfound.split, habove,
        if_neg (by decide)]
      refine ⟨⟨by simp [shifted], by simp [shifted]⟩, by simp [shifted], ?_⟩
      ext v
      have hv := hkept (v + nval)
      simp only [shifted, List.map_nil, List.append_nil, cells_nil,
        Set.mem_empty_iff_false, Set.union_empty, Set.mem_ofPred_eq, false_iff]
      grind
  | cons s ss =>
      have haround := hfound.wellFormed.around hfound.split
      have hrow := haround.row
      have hhi := hfound.above s (by simp)
      have hrest : ∀ v ∈ cells (ss.map RowRange.ends), s.hival + 2 ≤ v :=
        fun v hv => le_of_mem_cells (fun t ht => by
          have := haround.above t ht
          omega) hv
      simp only [List.length_cons] at hlast
      rw [loval_append hfound.split] at hsplit
      rw [hival_append hfound.split] at habove
      by_cases hcut : hival > s.loval
      · have hyes : split = true := by
          rw [hsplit, decide_eq_true_eq]
          omega
        rw [hyes] at habove htail
        rw [htail, if_pos rfl, rstTail_next hfound.split, habove, if_pos rfl]
        obtain ⟨horder, hge⟩ := hsublist haround.after
          (inOrder_singleton (show 1 ≤ hival - nval by omega)
            (show hival - nval ≤ s.hival - nval by omega))
          (by
            intro m hm
            obtain rfl := List.mem_singleton.mp hm
            refine ⟨by simp only; omega, fun t ht => ?_⟩
            have := haround.above t ht
            simp only
            omega)
          (fun t ht => by
            have := haround.above t ht
            omega)
        refine ⟨horder, hge, ?_⟩
        ext v
        have hv := hkept (v + nval)
        have hw := hrest (v + nval)
        simp only [cells_append, cells_cons, cells_nil, Set.union_empty,
          Set.mem_union, Set.mem_Icc, mem_cells_shifted, Int.sub_neg,
          List.map_cons, RowRange.ends, Set.mem_ofPred_eq]
        grind
      · have hno : split = false := by
          rw [hsplit, decide_eq_false_iff_not]
          omega
        rw [hno] at habove htail
        rw [htail, if_neg (by decide), rstTail_append hfound.split, habove,
          if_neg (by decide)]
        obtain ⟨horder, hge⟩ := hsublist
          (hfound.wellFormed.parts hfound.split).2 inOrder_nil (by simp)
          (fun t ht => by
            rcases List.mem_cons.mp ht with rfl | ht
            · omega
            · have := haround.above t ht
              omega)
        refine ⟨horder, hge, ?_⟩
        ext v
        have hv := hkept (v + nval)
        have hw := hrest (v + nval)
        simp only [cells_append, cells_cons, cells_nil, Set.empty_union,
          Set.mem_union, Set.mem_Icc, mem_cells_shifted, Int.sub_neg,
          List.map_cons, RowRange.ends, Set.mem_ofPred_eq]
        grind

theorem deltab_spec (h : set.WellFormed) {loval nval : Int}
    (hloval : 1 ≤ loval) (hnval : 1 ≤ nval) :
    (rstDeltab set loval nval).WellFormed ∧
      (rstDeltab set loval nval).rows = rowsDeleted loval nval set.rows := by
  obtain ⟨found, rs, ss, hfound⟩ := h.findloc loval
  have hlast := last_append hfound.split
  have hkept : ∀ v ∈ cells (rs.map RowRange.ends), v < loval :=
    fun v hv => lt_of_mem_cells hfound.below hv
  unfold rstDeltab
  rw [hfound.eq]
  cases ss with
  | nil =>
      simp only [List.length_nil] at hlast
      simp only
      rw [if_pos (by omega), hfound.rows]
      refine ⟨hfound.wellFormed, (rows_append hfound.split).trans ?_⟩
      ext v
      have hv := hkept v
      have hv' := hkept (v + nval)
      simp only [rowsDeleted, List.map_nil, cells_nil, Set.union_empty,
        Set.mem_ofPred_eq]
      grind
  | cons r ss =>
      have haround := hfound.wellFormed.around hfound.split
      have hrow := haround.row
      have hhi := hfound.above r (by simp)
      have hrest : ∀ v ∈ cells (ss.map RowRange.ends), r.hival + 2 ≤ v :=
        fun v hv => le_of_mem_cells (fun s hs => by
          have := haround.above s hs
          omega) hv
      simp only [List.length_cons] at hlast
      obtain ⟨found', rs', ss', hfound'⟩ :=
        hfound.wellFormed.findloc (loval + nval)
      simp only [loval_append hfound.split]
      rw [if_neg (by omega), hfound'.eq]
      simp only
      generalize hsplit : decide ((rs'.length : Int) + 1 ≤ found'.last ∧
        loval + nval > found'.loval (rs'.length + 1)) = split
      generalize habove : (if split = true then
        [(loval + nval - nval, found'.hival (rs'.length + 1) - nval)]
        else []) = above
      generalize htail : rstTail found'
        (if split = true then (rs'.length : Int) + 1 + 1
          else rs'.length + 1) = tail
      obtain ⟨hupper, hge, hcells⟩ := rows_above hfound' rfl hloval hsplit.symm
        habove.symm htail.symm
      generalize hbelow : (if loval > r.loval then [(r.loval, loval - 1)]
        else []) = below
      have hinside : ∀ m ∈ below, r.loval ≤ m.1 ∧ m.2 < loval := by
        rw [← hbelow]
        split_ifs <;> simp
      have hlower : InOrder below := by
        rw [← hbelow]
        split_ifs
        · exact inOrder_singleton (by omega) (by omega)
        · exact ⟨by simp, by simp⟩
      have hcut : cells below = Set.Icc r.loval (loval - 1) := by
        rw [← hbelow]
        ext v
        split_ifs
        · simp
        · simp
          omega
      have hkeep : ∀ a ∈ rs.map RowRange.ends, a.2 < r.loval ∧ a.2 < loval := by
        intro a ha
        obtain ⟨s, hs, rfl⟩ := List.mem_map.mp ha
        have := haround.below s hs
        have := hfound.below s hs
        simp only [RowRange.ends]
        omega
      have horder : InOrder (rs.map RowRange.ends ++
          (below ++ above ++ shifted tail (-nval))) := by
        rw [List.append_assoc]
        refine InOrder.append_iff.mpr ⟨haround.before, InOrder.append_iff.mpr
          ⟨hlower, hupper, fun m hm n hn => ?_⟩, fun a ha m hm => ?_⟩
        · exact Int.lt_of_lt_of_le (hinside m hm).2 (hge n hn)
        · rcases List.mem_append.mp hm with hm | hm
          · exact Int.lt_of_lt_of_le (hkeep a ha).1 (hinside m hm).1
          · exact Int.lt_of_lt_of_le (hkeep a ha).2 (hge m hm)
      obtain ⟨hwf, hrows⟩ := rebuild hfound'.wellFormed
        (hfound'.same.trans hfound.split) horder
      refine ⟨hwf, hrows.trans ?_⟩
      have hsame : found.rows = set.rows := by
        rw [Rst.rows, Rst.rows, Rst.ends, Rst.ends, hfound.same]
      rw [cells_append, Set.union_assoc, Set.union_assoc, ← cells_append above,
        hcells, hsame, hcut]
      ext v
      have hv := hkept v
      have hw := hrest v
      have hset := hfound.rows
      have hmem : v ∈ set.rows ↔ v ∈ cells (rs.map RowRange.ends) ∨
          (r.loval ≤ v ∧ v ≤ r.hival) ∨ v ∈ cells (ss.map RowRange.ends) := by
        rw [hset, List.map_cons, cells_cons]
        rfl
      simp only [rowsDeleted, Set.mem_union, Set.mem_Icc, Set.mem_ofPred_eq, hmem]
      grind

theorem WellFormed.inset (h : set.WellFormed) (value : Int) :
    (rstInset set value).1 = true ↔ value ∈ set.rows := by
  obtain ⟨found, rs, ss, hfound⟩ := h.findloc value
  have hlast := last_append hfound.split
  have hkept : value ∉ cells (rs.map RowRange.ends) := fun hv =>
    Int.lt_irrefl value (lt_of_mem_cells hfound.below hv)
  unfold rstInset
  rw [hfound.eq, hfound.rows]
  cases ss with
  | nil =>
      simp only [List.length_nil] at hlast
      simp only
      rw [if_pos (by omega)]
      simpa using hkept
  | cons r ss =>
      have haround := hfound.wellFormed.around hfound.split
      have hhi := hfound.above r (by simp)
      have hrest : value ∉ cells (ss.map RowRange.ends) := fun hv => by
        have := le_of_mem_cells (fun t ht => Int.le_of_lt (haround.above t ht)) hv
        omega
      simp only [List.length_cons] at hlast
      simp only [loval_append hfound.split]
      rw [if_neg (by omega), List.map_cons, cells_cons]
      simp [hkept, hrest, RowRange.ends, hhi]

end Rst

/-! ## Histories -/

inductive RstEdit where
  | addval (value : Int)
  | delval (value : Int)
  | addtab (loval nval : Int)
  | deltab (loval nval : Int)
  deriving DecidableEq, Repr

namespace RstEdit

/-- Rows are numbered from 1, and `loval` is 0 before the first row. -/
def Legal : RstEdit → Prop
  | addval value => 1 ≤ value
  | delval _ => True
  | addtab loval nval => 0 ≤ loval ∧ 1 ≤ nval
  | deltab loval nval => 1 ≤ loval ∧ 1 ≤ nval

def run (set : Rst) : RstEdit → Rst
  | addval value => rstAddval set value
  | delval value => rstDelval set value
  | addtab loval nval => rstAddtab set loval nval
  | deltab loval nval => rstDeltab set loval nval

/-- What the edit does to the rows. -/
def ideal (s : Set Int) : RstEdit → Set Int
  | addval value => insert value s
  | delval value => s \ {value}
  | addtab loval nval => rowsInserted loval nval s
  | deltab loval nval => rowsDeleted loval nval s

theorem step {set : Rst} (h : set.WellFormed) {e : RstEdit} (he : e.Legal) :
    (e.run set).WellFormed ∧ (e.run set).rows = e.ideal set.rows := by
  cases e with
  | addval value => exact Rst.addval_spec h he
  | delval value => exact Rst.delval_spec h value
  | addtab loval nval => exact Rst.addtab_spec h he.1 he.2
  | deltab loval nval => exact Rst.deltab_spec h he.1 he.2

end RstEdit

/-- A row set with a history, and the ideal set of that history.  A lookup
leaves any hint. -/
inductive RowSetOf : Rst → Set Int → Prop
  | empty : RowSetOf (rstCreate 0 0) ∅
  | create {n : Int} (hn : 0 ≤ n) : RowSetOf (rstCreate 1 n) (Set.Icc 1 n)
  | lookup {set : Rst} {s : Set Int} (h : RowSetOf set s) (current : Int) :
      RowSetOf { set with current := current } s
  | edit {set : Rst} {s : Set Int} (h : RowSetOf set s) {e : RstEdit}
      (he : e.Legal) : RowSetOf (e.run set) (e.ideal s)

theorem rstCreate_spec {n : Int} (hn : 0 ≤ n) :
    (rstCreate 1 n).WellFormed ∧ (rstCreate 1 n).rows = Set.Icc 1 n := by
  rcases Int.lt_or_eq_of_le hn with hpos | rfl
  · have hone : rstCreate 1 n = rstAddrange ⟨[], 1, 0⟩ 1 n := by
      simp only [rstCreate, if_neg (show ¬ (1 : Int) > n by omega)]
      simp [rstAddrange, Rst.last]
    have hempty : Rst.WellFormed ⟨[], 1, 0⟩ :=
      ⟨by simp, by simp, by simp, by simp [Rst.last]⟩
    obtain ⟨hwf, hrows, -⟩ :=
      Rst.addrange_spec hempty (Int.le_refl 1) hpos (by simp)
    rw [hone]
    refine ⟨hwf, hrows.trans ?_⟩
    simp [Rst.rows, Rst.ends]
  · refine ⟨⟨by simp [rstCreate], by simp [rstCreate], by simp [rstCreate],
      by simp [rstCreate, Rst.last]⟩, ?_⟩
    ext v
    simp [rstCreate, Rst.rows, Rst.ends]

theorem RowSetOf.inv {set : Rst} {s : Set Int} (h : RowSetOf set s) :
    set.WellFormed ∧ set.rows = s := by
  induction h with
  | empty =>
      refine ⟨⟨by simp [rstCreate], by simp [rstCreate], by simp [rstCreate],
        by simp [rstCreate, Rst.last]⟩, ?_⟩
      simp [rstCreate, Rst.rows, Rst.ends]
  | create hn => exact rstCreate_spec hn
  | lookup h current ih => exact ⟨ih.1.hint current, ih.2⟩
  | edit h he ih =>
      obtain ⟨hwf, hrows⟩ := RstEdit.step ih.1 he
      exact ⟨hwf, by rw [hrows, ih.2]⟩

/-- A row set is the set of rows its history describes, and stays in order. -/
theorem row_set_of_history {set : Rst} {s : Set Int} (h : RowSetOf set s) :
    set.WellFormed ∧ set.rows = s ∧
      (∀ value, (rstInset set value).1 = true ↔ value ∈ s) ∧
      rstNelem set = s.ncard := by
  obtain ⟨hwf, rfl⟩ := h.inv
  exact ⟨hwf, rfl, hwf.inset, hwf.nelem⟩

/-- Four rows, one deleted, and two inserted after the first. -/
def historyRows : Rst :=
  rstAddtab (rstDelval (rstCreate 1 4) 2) 1 2

theorem row_set_of_history_four :
    RowSetOf historyRows (rowsInserted 1 2 (Set.Icc 1 4 \ {2})) ∧
      historyRows.WellFormed ∧
      historyRows.rows = rowsInserted 1 2 (Set.Icc 1 4 \ {2}) := by
  have h : RowSetOf historyRows (rowsInserted 1 2 (Set.Icc 1 4 \ {2})) :=
    .edit (e := .addtab 1 2)
      (.edit (e := .delval 2) (.create (by decide)) trivial)
      ⟨by decide, by decide⟩
  exact ⟨h, (row_set_of_history h).1, (row_set_of_history h).2.1⟩

end Iraf.Selector
