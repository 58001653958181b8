import Iraf.Selector.RstEdits

/-!
# Union and complement of row sets

`rst_or` and `rst_not` add ranges in increasing order, and `rst_addrange` joins those that
touch.  A well formed set is determined by its rows.
-/

namespace Iraf.Selector

/-- Ranges in order that hold exactly the rows of `s`. -/
structure Lists (rs : List (Int × Int)) (s : Set Int) : Prop where
  order : InOrder rs
  rows : cells rs = s

variable {rs ss : List (Int × Int)} {r : Int × Int} {s : Set Int} {lo hi nrow : Int}

theorem mem_cells {v : Int} (hr : r ∈ rs) (hlo : r.1 ≤ v) (hhi : v ≤ r.2) : v ∈ cells rs :=
  ⟨r, hr, hlo, hhi⟩

theorem InOrder.tail (h : InOrder (r :: rs)) : InOrder rs :=
  ⟨fun t ht => h.rows t (List.mem_cons_of_mem r ht), (List.pairwise_cons.mp h.sorted).2⟩

theorem InOrder.above (h : InOrder rs) {b : Int} (hb : ∀ v ∈ cells rs, b < v) :
    ∀ t ∈ rs, b < t.1 :=
  fun t ht => hb t.1 (mem_cells ht (Int.le_refl _) (h.rows t ht).2)

theorem InOrder.head_le (h : InOrder (r :: rs)) : ∀ v ∈ cells (r :: rs), r.1 ≤ v := by
  rintro v ⟨t, ht, hlo, -⟩
  rcases List.mem_cons.mp ht with rfl | ht
  · exact hlo
  · have hrow := h.rows r List.mem_cons_self
    have hlt := (List.pairwise_cons.mp h.sorted).1 t ht
    omega

theorem Lists.nil : Lists [] ∅ := ⟨⟨by simp, by simp⟩, cells_nil⟩

theorem Lists.cons (h : Lists rs s) (hlo : 1 ≤ lo) (hle : lo ≤ hi) (hs : ∀ v ∈ s, hi < v) :
    Lists ((lo, hi) :: rs) (Set.Icc lo hi ∪ s) where
  order :=
    ⟨List.forall_mem_cons.mpr ⟨⟨hlo, hle⟩, h.order.rows⟩,
      List.pairwise_cons.mpr ⟨h.order.above (h.rows ▸ hs), h.order.sorted⟩⟩
  rows := by rw [cells_cons, h.rows]

/-! ## Union -/

/-- The output range, when it is set, lies before the ranges still to be read. -/
def Before (lo hi : Int) (s : Set Int) : Prop :=
  lo = 0 ∨ 1 ≤ lo ∧ lo ≤ hi ∧ ∀ v ∈ s, lo ≤ v

@[simp] theorem outputRange_zero (hi : Int) : outputRange 0 hi = [] := if_pos rfl

theorem outputRange_set (hset : lo ≠ 0) (hi : Int) : outputRange lo hi = [(lo, hi)] := if_neg hset

theorem takes_output (h : InOrder (r :: rs)) (hs : ∀ v ∈ s, r.1 ≤ v) :
    Before r.1 r.2 (cells rs ∪ s) ∧
      cells (outputRange r.1 r.2) ∪ cells rs = cells (r :: rs) := by
  have hrow := h.rows r List.mem_cons_self
  constructor
  · refine .inr ⟨hrow.1, hrow.2, ?_⟩
    rintro v (hv | hv)
    · exact h.head_le v (cells_cons r rs ▸ .inr hv)
    · exact hs v hv
  · rw [outputRange_set (by omega), cells_cons, cells_nil, Set.union_empty, cells_cons]

theorem extends_output (hset : lo ≠ 0) (hb : Before lo hi (cells (r :: rs) ∪ s))
    (h : InOrder (r :: rs)) (hr : r.1 ≤ hi) :
    Before (min lo r.1) (max hi r.2) (cells rs ∪ s) ∧
      cells (outputRange (min lo r.1) (max hi r.2)) ∪ cells rs =
        cells (outputRange lo hi) ∪ cells (r :: rs) := by
  obtain rfl | ⟨hpos, hle, hafter⟩ := hb
  · exact absurd rfl hset
  have hrow := h.rows r List.mem_cons_self
  have hstart : lo ≤ r.1 := by
    apply hafter
    left
    exact mem_cells List.mem_cons_self (Int.le_refl _) hrow.2
  have hmin : min lo r.1 = lo := min_eq_left hstart
  rw [hmin]
  constructor
  · refine .inr ⟨hpos, le_trans hle (le_max_left _ _), fun v hv => hafter v ?_⟩
    rw [cells_cons]
    exact hv.imp_left .inr
  · rw [outputRange_set hset, outputRange_set hset, cells_cons, cells_nil, Set.union_empty,
      cells_cons, cells_nil, Set.union_empty, cells_cons, ← Set.union_assoc]
    congr 1
    ext v
    simp only [Set.mem_union, Set.mem_Icc, le_max_iff]
    omega

theorem flushes_output {added : List (Int × Int)} (hset : lo ≠ 0) (hb : Before lo hi s)
    (hs : ∀ v ∈ s, hi < v) (h : Lists added s) :
    Lists ((lo, hi) :: added) (cells (outputRange lo hi) ∪ s) := by
  obtain rfl | ⟨hpos, hle, -⟩ := hb
  · exact absurd rfl hset
  rw [outputRange_set hset, cells_cons, cells_nil, Set.union_empty]
  exact h.cons hpos hle hs

theorem orEnd_nil (lo hi : Int) : orEnd lo hi [] [] = outputRange lo hi := by
  simp only [orEnd, orRest, List.nil_append, List.append_nil]

theorem orEnd_comm (lo hi : Int) (rs : List (Int × Int)) :
    orEnd lo hi rs [] = orEnd lo hi [] rs := by
  simp only [orEnd, orRest, List.nil_append, List.append_nil]

theorem orEnd_cons (lo hi : Int) (r : Int × Int) (rs : List (Int × Int)) :
    orEnd lo hi [] (r :: rs) =
      if lo = 0 then r :: rs
      else if r.1 ≤ hi then orEnd (min lo r.1) (max hi r.2) [] rs
      else (lo, hi) :: r :: rs := by
  by_cases hset : lo = 0
  · simp [orEnd, orRest, hset]
  · by_cases hr : r.1 ≤ hi
    · simp only [orEnd, orRest, List.nil_append, hset, hr, if_true, if_false]
    · simp [orEnd, orRest, hset, hr]

theorem orEnd_lists (hb : Before lo hi (cells rs)) (h : InOrder rs) :
    Lists (orEnd lo hi [] rs) (cells (outputRange lo hi) ∪ cells rs) := by
  induction rs generalizing lo hi with
  | nil =>
      rw [orEnd_nil]
      rcases hb with rfl | ⟨hpos, hle, -⟩
      · simpa using Lists.nil
      · rw [outputRange_set (by omega), cells_cons, cells_nil, Set.union_empty]
        exact Lists.nil.cons hpos hle (by simp)
  | cons r rs ih =>
      rw [orEnd_cons]
      by_cases hset : lo = 0
      · rw [if_pos hset, hset, outputRange_zero, cells_nil, Set.empty_union]
        exact ⟨h, rfl⟩
      rw [if_neg hset]
      rcases Int.lt_or_le hi r.1 with hr | hr
      · rw [if_neg (Int.not_le.mpr hr)]
        exact flushes_output hset hb (fun v hv => Int.lt_of_lt_of_le hr (h.head_le v hv)) ⟨h, rfl⟩
      · rw [if_pos hr]
        obtain ⟨hb', hrows⟩ := extends_output (s := ∅) hset (by simpa using hb) h hr
        rw [← hrows]
        exact ih (by simpa using hb') h.tail

theorem heads_le {r1 r2 : Int × Int} {rs1 rs2 : List (Int × Int)} (h1 : InOrder (r1 :: rs1))
    (h2 : InOrder (r2 :: rs2)) (hr1 : hi < r1.1) (hr2 : hi < r2.1) :
    ∀ v ∈ cells (r1 :: rs1) ∪ cells (r2 :: rs2), hi < v := by
  rintro v (hv | hv)
  · exact Int.lt_of_lt_of_le hr1 (h1.head_le v hv)
  · exact Int.lt_of_lt_of_le hr2 (h2.head_le v hv)

theorem orMain_lists {rs1 rs2 : List (Int × Int)} (hb : Before lo hi (cells rs1 ∪ cells rs2))
    (h1 : InOrder rs1) (h2 : InOrder rs2) :
    Lists (orMain lo hi rs1 rs2) (cells (outputRange lo hi) ∪ (cells rs1 ∪ cells rs2)) := by
  fun_induction orMain lo hi rs1 rs2 with
  | case1 lo hi rs2 =>
      rw [cells_nil, Set.empty_union] at *
      exact orEnd_lists hb h2
  | case2 lo hi r1 rs1 =>
      rw [cells_nil, Set.union_empty] at *
      rw [orEnd_comm]
      exact orEnd_lists hb h1
  | case3 hi r1 rs1 r2 rs2 hle ih =>
      obtain ⟨hb', hrows⟩ := takes_output h1 fun v hv => Int.le_trans hle (h2.head_le v hv)
      rw [outputRange_zero, cells_nil, Set.empty_union, ← hrows, Set.union_assoc]
      exact ih hb' h1.tail h2
  | case4 hi r1 rs1 r2 rs2 hle ih =>
      have hlt : r2.1 ≤ r1.1 := by omega
      obtain ⟨hb', hrows⟩ := takes_output h2 fun v hv => Int.le_trans hlt (h1.head_le v hv)
      rw [outputRange_zero, cells_nil, Set.empty_union, ← hrows, Set.union_left_comm]
      exact ih (Set.union_comm _ _ ▸ hb') h1 h2.tail
  | case5 lo hi r1 rs1 r2 rs2 hset hle hr ih =>
      obtain ⟨hb', hrows⟩ := extends_output hset hb h1 hr
      rw [← Set.union_assoc, ← hrows, Set.union_assoc]
      exact ih hb' h1.tail h2
  | case6 lo hi r1 rs1 r2 rs2 hset hle hr ih =>
      have hrest := ih (.inl rfl) h1 h2
      rw [outputRange_zero, cells_nil, Set.empty_union] at hrest
      exact flushes_output hset hb (heads_le h1 h2 (by omega) (by omega)) hrest
  | case7 lo hi r1 rs1 r2 rs2 hset hle hr ih =>
      rw [Set.union_comm] at hb
      obtain ⟨hb', hrows⟩ := extends_output hset hb h2 hr
      rw [Set.union_left_comm, ← hrows, Set.union_left_comm]
      exact ih (Set.union_comm _ _ ▸ hb') h1 h2.tail
  | case8 lo hi r1 rs1 r2 rs2 hset hle hr ih =>
      have hrest := ih (.inl rfl) h1 h2
      rw [outputRange_zero, cells_nil, Set.empty_union] at hrest
      exact flushes_output hset hb (heads_le h1 h2 (by omega) (by omega)) hrest

/-! ## Complement -/

theorem notRanges_lists (hlo : 1 ≤ lo) (h : InOrder rs) (hfrom : ∀ v ∈ cells rs, lo ≤ v)
    (hto : ∀ v ∈ cells rs, v ≤ nrow) :
    Lists (notRanges nrow lo rs) (Set.Icc lo nrow \ cells rs) := by
  induction rs generalizing lo with
  | nil =>
      rw [notRanges, cells_nil, Set.sdiff_empty]
      by_cases hle : lo ≤ nrow
      · rw [if_pos hle]
        simpa using Lists.nil.cons hlo hle (by simp)
      · rw [if_neg hle, Set.Icc_eq_empty hle]
        exact Lists.nil
  | cons r rs ih =>
      have hrow := h.rows r List.mem_cons_self
      have hstart : lo ≤ r.1 :=
        hfrom r.1 (mem_cells List.mem_cons_self (Int.le_refl _) hrow.2)
      have hend : r.2 ≤ nrow :=
        hto r.2 (mem_cells List.mem_cons_self hrow.2 (Int.le_refl _))
      have hafter : ∀ v ∈ cells rs, r.2 + 1 ≤ v := by
        rintro v ⟨t, ht, hle, -⟩
        have hlt := (List.pairwise_cons.mp h.sorted).1 t ht
        omega
      have hrest := ih (by omega) h.tail hafter fun v hv => hto v (cells_cons r rs ▸ .inr hv)
      have hsplit : Set.Icc lo nrow \ cells (r :: rs) =
          Set.Icc lo (r.1 - 1) ∪ Set.Icc (r.2 + 1) nrow \ cells rs := by
        ext v
        rw [cells_cons]
        simp only [Set.mem_sdiff, Set.mem_union, Set.mem_Icc]
        constructor
        · rintro ⟨hv, hnot⟩
          rw [not_or] at hnot
          rcases Int.lt_or_le v r.1 with hlt | hge
          · left
            omega
          · right
            exact ⟨by omega, hnot.2⟩
        · rintro (hv | ⟨hv, hnot⟩)
          · refine ⟨by omega, not_or.mpr ⟨by omega, fun hmem => ?_⟩⟩
            have := hafter v hmem
            omega
          · exact ⟨by omega, not_or.mpr ⟨by omega, hnot⟩⟩
      rw [notRanges, hsplit]
      by_cases hgap : lo < r.1
      · rw [if_pos hgap, List.singleton_append]
        exact hrest.cons hlo (by omega) fun v hv => by
          have := hv.1.1
          omega
      · rw [if_neg hgap, List.nil_append, Set.Icc_eq_empty (by omega), Set.empty_union]
        exact hrest

/-! ## The same rows, the same ranges -/

theorem InOrder.head_start {t : Int × Int} {ts : List (Int × Int)} (h : InOrder (r :: rs))
    (ht : InOrder (t :: ts)) (hrows : cells (r :: rs) = cells (t :: ts)) : t.1 ≤ r.1 := by
  have hrow := h.rows r List.mem_cons_self
  have hmem : r.1 ∈ cells (r :: rs) := mem_cells List.mem_cons_self (Int.le_refl _) hrow.2
  exact ht.head_le r.1 (hrows ▸ hmem)

theorem head_end {t : Int × Int} {ts : List (Int × Int)}
    (hgap : ∀ u ∈ ts, t.2 + 1 < u.1) (ht : t.1 ≤ t.2) (hle : r.1 ≤ t.1)
    (hrows : cells (r :: rs) = cells (t :: ts)) : r.2 ≤ t.2 := by
  by_contra hlt
  have hmem : t.2 + 1 ∈ cells (t :: ts) :=
    hrows ▸ mem_cells List.mem_cons_self (by omega) (by omega)
  obtain ⟨u, hu, hlo, hhi⟩ := hmem
  rcases List.mem_cons.mp hu with rfl | hu
  · omega
  · have := hgap u hu
    omega

theorem cells_injective {ts : List (Int × Int)} (hrs : InOrder rs) (hts : InOrder ts)
    (hapart : rs.Pairwise fun r s => r.2 + 1 < s.1)
    (hapart' : ts.Pairwise fun r s => r.2 + 1 < s.1) (hrows : cells rs = cells ts) : rs = ts := by
  induction rs generalizing ts with
  | nil =>
      cases ts with
      | nil => rfl
      | cons t ts =>
          have hrow := hts.rows t List.mem_cons_self
          have hmem : t.1 ∈ cells (t :: ts) :=
            mem_cells List.mem_cons_self (Int.le_refl _) hrow.2
          rw [← hrows, cells_nil] at hmem
          exact absurd hmem (Set.notMem_empty _)
  | cons r rs ih =>
      have hr := hrs.rows r List.mem_cons_self
      cases ts with
      | nil =>
          have hmem : r.1 ∈ cells (r :: rs) :=
            mem_cells List.mem_cons_self (Int.le_refl _) hr.2
          rw [hrows, cells_nil] at hmem
          exact absurd hmem (Set.notMem_empty _)
      | cons t ts =>
          have ht := hts.rows t List.mem_cons_self
          obtain ⟨hgap, hrest⟩ := List.pairwise_cons.mp hapart
          obtain ⟨hgap', hrest'⟩ := List.pairwise_cons.mp hapart'
          have hstart : r.1 = t.1 :=
            Int.le_antisymm (hts.head_start hrs hrows.symm) (hrs.head_start hts hrows)
          have hend : r.2 = t.2 :=
            Int.le_antisymm (head_end hgap' ht.2 (Int.le_of_eq hstart) hrows)
              (head_end hgap hr.2 (Int.le_of_eq hstart.symm) hrows.symm)
          have hhead : r = t := Prod.ext hstart hend
          subst hhead
          have htail : ∀ {us : List (Int × Int)}, (∀ u ∈ us, r.2 + 1 < u.1) →
              cells us = cells (r :: us) \ Set.Icc r.1 r.2 := by
            intro us hus
            rw [cells_cons, Set.union_sdiff_left]
            refine (sdiff_eq_left.mpr (Set.disjoint_left.mpr ?_)).symm
            rintro v ⟨u, hu, hlo, -⟩ hv
            have hlt := hus u hu
            have hle := hv.2
            omega
          rw [ih hrs.tail hts.tail hrest hrest' (by rw [htail hgap, htail hgap', hrows])]

namespace Rst

variable {set set1 set2 : Rst}

theorem WellFormed.ends_apart (h : set.WellFormed) :
    set.ends.Pairwise fun r s => r.2 + 1 < s.1 :=
  List.pairwise_map.mpr h.apart

theorem WellFormed.ranges_eq (h1 : set1.WellFormed) (h2 : set2.WellFormed)
    (hrows : set1.rows = set2.rows) : set1.ranges = set2.ranges := by
  have hends : set1.ends = set2.ends :=
    cells_injective h1.inOrder h2.inOrder h1.ends_apart h2.ends_apart hrows
  have hlength : set1.ranges.length = set2.ranges.length := by
    have := congrArg List.length hends
    rwa [Rst.ends, Rst.ends, List.length_map, List.length_map] at this
  have hcount : ∀ k, count (set1.ranges.take k) = count (set2.ranges.take k) := by
    intro k
    have hsum : ∀ set : Rst, count (set.ranges.take k) =
        ((set.ends.take k).map fun r => r.2 - r.1 + 1).sum := fun set => by
      rw [Rst.ends, ← List.map_take, List.map_map]
      rfl
    rw [hsum, hsum, hends]
  refine List.ext_getElem hlength fun k hk hk' => ?_
  have hend : (set1.ranges[k]).ends = (set2.ranges[k]).ends := by
    have hk1 : k < set1.ends.length := by rwa [Rst.ends, List.length_map]
    have hk2 : k < set2.ends.length := by rwa [Rst.ends, List.length_map]
    have hget : set1.ends[k] = set2.ends[k] := by simp only [hends]
    simpa only [Rst.ends, List.getElem_map] using hget
  have hnrow : (set1.ranges[k]).nrow = (set2.ranges[k]).nrow := by
    rw [h1.nrow k hk, h2.nrow k hk', hcount]
  simp only [RowRange.ends, Prod.mk.injEq] at hend
  rw [RowRange.mk.injEq]
  exact ⟨hend.1, hend.2, hnrow⟩

theorem wellFormed_empty : (rstCreate 0 0).WellFormed :=
  ⟨by decide, List.Pairwise.nil, by decide, by decide⟩

theorem rstCreate_spec (hlo : 1 ≤ lo) (hle : lo ≤ hi) :
    (rstCreate lo hi).WellFormed ∧ (rstCreate lo hi).rows = Set.Icc lo hi := by
  have hset : rstCreate lo hi = ⟨[⟨lo, hi, hi - lo + 1⟩], 1, 0⟩ := by
    simp only [rstCreate, if_neg (Int.not_lt.mpr hle), gt_iff_lt]
    rw [if_neg (by omega)]
  rw [hset]
  constructor
  · have hempty : WellFormed ⟨[], 1, 0⟩ := wellFormed_empty
    refine hempty.concat ⟨hlo, hle⟩ (by simp) ?_ (by simp)
    simp [count]
  · simp [Rst.rows, ends, RowRange.ends]

end Rst

theorem Lists.wellFormed (h : Lists rs s) :
    (addRanges (rstCreate 0 0) rs).WellFormed ∧ (addRanges (rstCreate 0 0) rs).rows = s := by
  obtain ⟨hwf, hrows, -⟩ := Rst.addRanges_spec h.order Rst.wellFormed_empty (by simp [rstCreate])
  refine ⟨hwf, ?_⟩
  rw [hrows, h.rows]
  simp [Rst.rows, Rst.ends, rstCreate]

/-- `rst_or` gives a set of the rows in either set. -/
structure UnionExact (set1 set2 : Rst) : Prop where
  wellFormed : (rstOr set1 set2).WellFormed
  rows : (rstOr set1 set2).rows = set1.rows ∪ set2.rows

/-- `rst_not` gives a set of the rows of the table that are not in the set. -/
structure ComplementExact (nrow : Int) (set1 : Rst) : Prop where
  wellFormed : (rstNot nrow set1).WellFormed
  rows : (rstNot nrow set1).rows = Set.Icc 1 nrow \ set1.rows

namespace Rst

variable {set set1 set2 : Rst}

theorem WellFormed.rstOr (h1 : set1.WellFormed) (h2 : set2.WellFormed) : UnionExact set1 set2 := by
  have hlists := @orMain_lists 0 0 _ _ (.inl rfl) h1.inOrder h2.inOrder
  rw [outputRange_zero, cells_nil, Set.empty_union] at hlists
  obtain ⟨hwf, hrows⟩ := hlists.wellFormed
  exact ⟨hwf, hrows⟩

theorem WellFormed.rows_pos (h : set.WellFormed) : ∀ v ∈ set.rows, 1 ≤ v := by
  rintro v ⟨r, hr, hlo, -⟩
  exact Int.le_trans (h.inOrder.rows r hr).1 hlo

theorem WellFormed.rstNot (h : set.WellFormed) (hto : ∀ v ∈ set.rows, v ≤ nrow) :
    ComplementExact nrow set := by
  obtain ⟨hwf, hrows⟩ :=
    (notRanges_lists (Int.le_refl 1) h.inOrder h.rows_pos hto).wellFormed
  exact ⟨hwf, hrows⟩

end Rst

/-- Union and complement are exact, and the complement of the complement is the set again. -/
theorem row_algebra {set1 set2 : Rst} (h1 : set1.WellFormed) (h2 : set2.WellFormed) :
    UnionExact set1 set2 ∧
      ∀ nrow, (∀ v ∈ set1.rows, v ≤ nrow) →
        ComplementExact nrow set1 ∧
          (rstNot nrow (rstNot nrow set1)).ranges = set1.ranges := by
  refine ⟨h1.rstOr h2, fun nrow hto => ?_⟩
  have hnot := h1.rstNot hto
  have htable : ∀ v ∈ (rstNot nrow set1).rows, v ≤ nrow := by
    intro v hv
    rw [hnot.rows] at hv
    exact hv.1.2
  have hagain := hnot.wellFormed.rstNot htable
  have hrows : (rstNot nrow (rstNot nrow set1)).rows = set1.rows := by
    rw [hagain.rows, hnot.rows, Set.sdiff_sdiff_right_self]
    exact Set.inter_eq_right.mpr fun v hv => ⟨h1.rows_pos v hv, hto v hv⟩
  exact ⟨hnot, hagain.wellFormed.ranges_eq h1 hrows⟩

theorem row_algebra_overlap :
    UnionExact (rstCreate 2 5) (rstCreate 4 8) ∧ ComplementExact 9 (rstCreate 2 5) := by
  have h1 := @Rst.rstCreate_spec 2 5 (by decide) (by decide)
  have h2 := @Rst.rstCreate_spec 4 8 (by decide) (by decide)
  obtain ⟨hor, hnot⟩ := row_algebra h1.1 h2.1
  refine ⟨hor, (hnot 9 ?_).1⟩
  intro v hv
  rw [h1.2] at hv
  exact Int.le_trans hv.2 (by decide)

end Iraf.Selector
