import Iraf.Plio.RangeList

/-!
# The pixels of a window of a range list

A range list defines a pixel at every position: the value of the range that holds
it, zero between the ranges.  `plR2p` regenerates a window of these pixels.
-/

namespace Iraf.Plio

/-- The value of the range that contains position `i`. -/
def rangeValue : List RlElem → Int → Int
  | [], _ => 0
  | r :: rs, i => if r.x ≤ i ∧ i < r.x + r.n then r.v else rangeValue rs i

/-- The `n` pixels from position `x` on. -/
def rangePixels (rs : List RlElem) (x : Int) (n : Nat) : List Int :=
  (List.range n).map fun k : Nat => rangeValue rs (x + k)

/-- Sorted, disjoint, non-empty ranges. -/
structure RangesOrdered (rs : List RlElem) : Prop where
  sorted : rs.Pairwise fun r s => r.x + r.n ≤ s.x
  nonempty : ∀ r ∈ rs, 0 < r.n

/-- The elements `rl[1..3,RL_FIRST]` to the end of a list that is stored with
arbitrary memory after it. -/
def rangeList (axlen v : Int) (rs rest : List RlElem) : List RlElem :=
  ⟨rs.length + 1, axlen, v⟩ :: (rs ++ rest)

theorem rangeList_ranges (axlen v : Int) (rs rest : List RlElem) :
    rlLen (rangeList axlen v rs rest) = rs.length + 1 ∧
      ((rangeList axlen v rs rest).take (rlLen (rangeList axlen v rs rest)).toNat).drop 1 =
        rs := by
  have hlen : rlLen (rangeList axlen v rs rest) = rs.length + 1 := rfl
  have hcount : ((rs.length : Int) + 1).toNat = rs.length + 1 := by omega
  constructor
  · exact hlen
  · rw [hlen, hcount]
    simp [rangeList]

/-! ## Values and pixels -/

variable {r : RlElem} {rs : List RlElem} {x i axlen pos : Int}

theorem RangesOrdered.tail (h : RangesOrdered (r :: rs)) : RangesOrdered rs := by
  constructor
  · exact (List.pairwise_cons.mp h.sorted).2
  · exact fun s hs => h.nonempty s (List.mem_cons_of_mem _ hs)

theorem RangesOrdered.lt (h : RangesOrdered (r :: rs)) : ∀ s ∈ rs, r.x + r.n ≤ s.x :=
  (List.pairwise_cons.mp h.sorted).1

theorem rangeValue_of_before (h : ∀ r ∈ rs, i < r.x) : rangeValue rs i = 0 := by
  induction rs with
  | nil => rfl
  | cons r rs ih =>
      have hr := h r List.mem_cons_self
      rw [rangeValue, if_neg (by omega)]
      exact ih fun s hs => h s (List.mem_cons_of_mem _ hs)

theorem rangeValue_of_mem (h : r.x ≤ i ∧ i < r.x + r.n) : rangeValue (r :: rs) i = r.v :=
  if_pos h

theorem rangeValue_of_not_mem (h : ¬ (r.x ≤ i ∧ i < r.x + r.n)) :
    rangeValue (r :: rs) i = rangeValue rs i :=
  if_neg h

theorem rangeValue_eq_zero_or_mem (rs : List RlElem) (i : Int) :
    rangeValue rs i = 0 ∨ ∃ r ∈ rs, rangeValue rs i = r.v := by
  induction rs with
  | nil => exact .inl rfl
  | cons r rs ih =>
      rw [rangeValue]
      split
      · exact .inr ⟨r, List.mem_cons_self, rfl⟩
      · rcases ih with hzero | ⟨q, hq, hvalue⟩
        · exact .inl hzero
        · exact .inr ⟨q, List.mem_cons_of_mem _ hq, hvalue⟩

@[simp] theorem length_rangePixels (rs : List RlElem) (x : Int) (n : Nat) :
    (rangePixels rs x n).length = n := by
  simp [rangePixels]

theorem rangePixels_append (rs : List RlElem) (x : Int) (m n : Nat) :
    rangePixels rs x (m + n) = rangePixels rs x m ++ rangePixels rs (x + m) n := by
  rw [rangePixels, List.range_add, List.map_append, List.map_map]
  congr 1
  apply List.map_congr_left
  intro k _
  simp [Int.add_assoc]

theorem rangePixels_congr {ss : List RlElem} {n : Nat}
    (h : ∀ i, x ≤ i → i < x + n → rangeValue rs i = rangeValue ss i) :
    rangePixels rs x n = rangePixels ss x n := by
  apply List.map_congr_left
  intro k hk
  have hlt := List.mem_range.mp hk
  exact h _ (by omega) (by omega)

theorem rangePixels_eq_replicate {n : Nat} {v : Int}
    (h : ∀ i, x ≤ i → i < x + n → rangeValue rs i = v) :
    rangePixels rs x n = List.replicate n v := by
  rw [List.eq_replicate_iff]
  constructor
  · exact length_rangePixels rs x n
  · intro w hw
    obtain ⟨k, hk, rfl⟩ := List.mem_map.mp hw
    have hlt := List.mem_range.mp hk
    exact h _ (by omega) (by omega)

theorem rangePixels_nil (x : Int) (n : Nat) : rangePixels [] x n = List.replicate n 0 :=
  rangePixels_eq_replicate fun _ _ _ => rfl

theorem RangesFrom.bounds (h : RangesFrom axlen pos rs) :
    ∀ s ∈ rs, pos ≤ s.x ∧ 0 < s.n ∧ s.x + s.n ≤ axlen + 1 := by
  induction rs generalizing pos with
  | nil => simp
  | cons r rs ih =>
      obtain ⟨hpos, hn, hrest⟩ := h
      intro s hs
      rcases List.mem_cons.mp hs with rfl | hs
      · exact ⟨hpos, hn, hrest.le⟩
      · have hbounds := ih hrest s hs
        omega

theorem RangesFrom.rangePixels (h : RangesFrom axlen pos rs) :
    Plio.rangePixels rs pos (axlen + 1 - pos).toNat = rangeCells axlen pos rs := by
  induction rs generalizing pos with
  | nil => exact rangePixels_nil pos _
  | cons r rs ih =>
      obtain ⟨hpos, hn, hrest⟩ := h
      have hend := hrest.le
      have hcount : (axlen + 1 - pos).toNat =
          (r.x - pos).toNat + (r.n.toNat + (axlen + 1 - (r.x + r.n)).toNat) := by omega
      have hlater : ∀ s ∈ rs, r.x + r.n ≤ s.x := fun s hs => (hrest.bounds s hs).1
      have hx : pos + ((r.x - pos).toNat : Int) = r.x := by omega
      have hnext : r.x + (r.n.toNat : Int) = r.x + r.n := by omega
      rw [hcount, rangePixels_append, rangePixels_append, hx, hnext, rangeCells, ← ih hrest]
      congr 1
      · apply rangePixels_eq_replicate
        intro i _ hi
        apply rangeValue_of_before
        intro s hs
        rcases List.mem_cons.mp hs with rfl | hs
        · omega
        · have := hlater s hs
          omega
      · congr 1
        · apply rangePixels_eq_replicate
          intro i hlo hhi
          exact rangeValue_of_mem (by omega)
        · apply rangePixels_congr
          intro i hlo _
          exact rangeValue_of_not_mem (by omega)

/-! ## Reading a window of a range list -/

/-- A range that begins before the window and ends after it. -/
def Straddles (xs xe : Int) (r : RlElem) : Prop := r.x < xs ∧ xe < r.x + r.n - 1

instance (xs xe : Int) : DecidablePred (Straddles xs xe) := fun r => by
  unfold Straddles
  infer_instance

/-- `pl_r2p` stores the pixels of the window and nothing after them. -/
def ReadsWindow (rl rs : List RlElem) (xs npix : Int) : Prop :=
  plR2p rl xs npix = rangePixels rs xs npix.toNat

variable {xs xe : Int} {s : R2p}

/-- A range that is cut at one end at most is put out after the zeros before it. -/
theorem R2p.step_cut (hn : 0 < r.n) (hlo : ¬ r.x > xe) (hhi : ¬ xs > r.x + r.n - 1)
    (hcut : ¬ Straddles xs xe r) :
    s.step xs xe r = some ⟨s.px ++ List.replicate (max r.x xs - s.iz).toNat 0 ++
      List.replicate (min (r.x + r.n - 1) xe - max r.x xs + 1).toNat r.v,
      min (r.x + r.n - 1) xe + 1⟩ := by
  unfold Straddles at hcut
  have hx1 : (if r.x < xs then xs else r.x) = max r.x xs := by
    split <;> omega
  have hx2 : (if r.x < xs then r.x + r.n - 1 else min (r.x + r.n - 1) xe) =
      min (r.x + r.n - 1) xe := by
    split <;> omega
  rw [R2p.step, if_neg hlo, if_neg hhi]
  simp only [hx1, hx2]
  rw [if_neg (by omega)]

/-- The pixels stored so far end where the next range may begin. -/
structure R2p.Before (xs xe : Int) (s : R2p) (rs : List RlElem) : Prop where
  inside : xs ≤ s.iz ∧ s.iz ≤ xe + 1
  length : (s.px.length : Int) + xs = s.iz
  later : ∀ r ∈ rs, s.iz ≤ max r.x xs

theorem R2p.loop_window (hwin : xs ≤ xe) (hrs : RangesOrdered rs)
    (hcut : ∀ r ∈ rs, ¬ Straddles xs xe r) (h : s.Before xs xe rs) :
    (R2p.loop xs xe s rs).px ++
        List.replicate ((xe + 1 - xs).toNat - (R2p.loop xs xe s rs).px.length) 0 =
      s.px ++ rangePixels rs s.iz (xe + 1 - s.iz).toNat := by
  induction rs generalizing s with
  | nil =>
      obtain ⟨hinside, hlen, -⟩ := h
      have hcount : (xe + 1 - xs).toNat - s.px.length = (xe + 1 - s.iz).toNat := by omega
      rw [R2p.loop, rangePixels_nil, hcount]
  | cons r rs ih =>
      obtain ⟨hinside, hlen, hlater⟩ := h
      have hn := hrs.nonempty r List.mem_cons_self
      have hnext := hrs.lt
      have hrest : ∀ q ∈ rs, ¬ Straddles xs xe q := fun q hq =>
        hcut q (List.mem_cons_of_mem _ hq)
      have hiz := hlater r List.mem_cons_self
      by_cases hbeyond : r.x > xe
      · -- The ranges from here on lie after the window.
        have hzero : rangePixels (r :: rs) s.iz (xe + 1 - s.iz).toNat =
            List.replicate (xe + 1 - s.iz).toNat 0 := by
          apply rangePixels_eq_replicate
          intro i _ hi
          apply rangeValue_of_before
          intro q hq
          rcases List.mem_cons.mp hq with rfl | hq
          · omega
          · have := hnext q hq
            omega
        have hcount : (xe + 1 - xs).toNat - s.px.length = (xe + 1 - s.iz).toNat := by omega
        rw [R2p.loop, R2p.step, if_pos hbeyond]
        simp only
        rw [hzero, hcount]
      by_cases hbehind : xs > r.x + r.n - 1
      · -- The range lies before the window.
        rw [R2p.loop, R2p.step, if_neg hbeyond, if_pos hbehind]
        simp only
        have hkept : s.Before xs xe rs :=
          ⟨hinside, hlen, fun q hq => hlater q (List.mem_cons_of_mem _ hq)⟩
        rw [ih hrs.tail hrest hkept]
        congr 1
        apply rangePixels_congr
        intro i hi _
        exact (rangeValue_of_not_mem (by omega)).symm
      · have hstep := s.step_cut hn hbeyond hbehind (hcut r List.mem_cons_self)
        have hx1 : max r.x xs ≤ min (r.x + r.n - 1) xe := by omega
        have hout : R2p.Before xs xe ⟨s.px ++ List.replicate (max r.x xs - s.iz).toNat 0 ++
            List.replicate (min (r.x + r.n - 1) xe - max r.x xs + 1).toNat r.v,
            min (r.x + r.n - 1) xe + 1⟩ rs := by
          constructor
          · simp only
            omega
          · simp only [List.length_append, List.length_replicate]
            omega
          · intro q hq
            have := hnext q hq
            simp only
            omega
        rw [R2p.loop, hstep]
        simp only
        rw [ih hrs.tail hrest hout]
        have hcount : (xe + 1 - s.iz).toNat = (max r.x xs - s.iz).toNat +
            ((min (r.x + r.n - 1) xe - max r.x xs + 1).toNat +
              (xe + 1 - (min (r.x + r.n - 1) xe + 1)).toNat) := by omega
        have hfirst : s.iz + ((max r.x xs - s.iz).toNat : Int) = max r.x xs := by omega
        have hlast : max r.x xs +
            ((min (r.x + r.n - 1) xe - max r.x xs + 1).toNat : Int) =
              min (r.x + r.n - 1) xe + 1 := by omega
        have hgap : rangePixels (r :: rs) s.iz (max r.x xs - s.iz).toNat =
            List.replicate (max r.x xs - s.iz).toNat 0 := by
          apply rangePixels_eq_replicate
          intro i hi hi'
          apply rangeValue_of_before
          intro q hq
          rcases List.mem_cons.mp hq with rfl | hq
          · omega
          · have := hnext q hq
            omega
        have hrange : rangePixels (r :: rs) (max r.x xs)
            (min (r.x + r.n - 1) xe - max r.x xs + 1).toNat =
              List.replicate (min (r.x + r.n - 1) xe - max r.x xs + 1).toNat r.v := by
          apply rangePixels_eq_replicate
          intro i hi hi'
          exact rangeValue_of_mem (by omega)
        have hafter : rangePixels (r :: rs) (min (r.x + r.n - 1) xe + 1)
            (xe + 1 - (min (r.x + r.n - 1) xe + 1)).toNat =
              rangePixels rs (min (r.x + r.n - 1) xe + 1)
                (xe + 1 - (min (r.x + r.n - 1) xe + 1)).toNat := by
          apply rangePixels_congr
          intro i hi hi'
          exact rangeValue_of_not_mem (by omega)
        rw [hcount, rangePixels_append, rangePixels_append, hfirst, hlast, hgap, hrange,
          hafter]
        simp only [List.append_assoc]

theorem R2p.step_cases (xs xe : Int) (s : R2p) (r : RlElem) :
    s.step xs xe r = none ∨ s.step xs xe r = some s ∨
      ∃ px iz, s.step xs xe r = some ⟨s.px ++ px, iz⟩ := by
  unfold R2p.step
  by_cases hbeyond : r.x > xe
  · exact .inl (if_pos hbeyond)
  by_cases hbehind : xs > r.x + r.n - 1
  · apply Or.inr ∘ Or.inl
    rw [if_neg hbeyond, if_pos hbehind]
  · apply Or.inr
    rw [if_neg hbeyond, if_neg hbehind]
    dsimp only
    generalize (if r.x < xs then xs else r.x) = x1
    generalize (if r.x < xs then r.x + r.n - 1 else min (r.x + r.n - 1) xe) = x2
    rw [List.append_assoc]
    split
    · exact .inl rfl
    · exact .inr ⟨_, _, rfl⟩

theorem R2p.length_le_loop (rs : List RlElem) (s : R2p) :
    s.px.length ≤ (R2p.loop xs xe s rs).px.length := by
  induction rs generalizing s with
  | nil => exact Nat.le_refl _
  | cons r rs ih =>
      rw [R2p.loop]
      rcases R2p.step_cases xs xe s r with hstep | hstep | ⟨px, iz, hstep⟩
      · simp only [hstep]
        exact Nat.le_refl _
      · simp only [hstep]
        exact ih s
      · have hmore := ih ⟨s.px ++ px, iz⟩
        simp only [hstep, List.length_append] at hmore ⊢
        omega

theorem R2p.loop_straddles (hwin : xs ≤ xe) (hrs : RangesOrdered rs)
    (hcut : ∃ r ∈ rs, Straddles xs xe r) (px : List Int) :
    (xe + 1 - xs).toNat < (R2p.loop xs xe ⟨px, xs⟩ rs).px.length := by
  obtain ⟨q, hq, hqs⟩ := hcut
  obtain ⟨hlo, hhi⟩ := hqs
  induction rs with
  | nil => cases hq
  | cons r rs ih =>
      rcases List.mem_cons.mp hq with rfl | hmem
      · have hstep : R2p.step xs xe ⟨px, xs⟩ q = some ⟨px ++ List.replicate (xs - xs).toNat 0 ++
            List.replicate (q.x + q.n - 1 - xs + 1).toNat q.v, q.x + q.n - 1 + 1⟩ := by
          rw [R2p.step, if_neg (by omega), if_neg (by omega)]
          simp only [if_pos hlo]
          rw [if_neg (by omega)]
        rw [R2p.loop, hstep]
        have hkept := @R2p.length_le_loop xs xe rs
          ⟨px ++ List.replicate (xs - xs).toNat 0 ++
            List.replicate (q.x + q.n - 1 - xs + 1).toNat q.v, q.x + q.n - 1 + 1⟩
        simp only [List.length_append, List.length_replicate] at hkept ⊢
        omega
      · have hbehind := hrs.lt q hmem
        have hn := hrs.nonempty r List.mem_cons_self
        rw [R2p.loop, R2p.step, if_neg (by omega), if_pos (by omega)]
        exact ih hrs.tail hmem

/-- `pl_r2p` regenerates a window exactly when no range straddles it. -/
theorem plR2p_readsWindow_iff (hrs : RangesOrdered rs) (axlen v : Int) (rest : List RlElem)
    (xs : Int) {npix : Int} (hnpix : 1 ≤ npix) :
    ReadsWindow (rangeList axlen v rs rest) rs xs npix ↔
      ∀ r ∈ rs, ¬ Straddles xs (xs + npix - 1) r := by
  obtain ⟨hlen, hranges⟩ := rangeList_ranges axlen v rs rest
  have hcount : (xs + npix - 1 + 1 - xs).toNat = npix.toNat := by omega
  unfold ReadsWindow plR2p
  rw [if_neg (by omega), hranges]
  constructor
  · intro hreads r hr hcut
    have hlong := R2p.loop_straddles (by omega) hrs ⟨r, hr, hcut⟩ []
    have hsame := congrArg List.length hreads
    rw [List.length_append, List.length_replicate, length_rangePixels] at hsame
    omega
  · intro hcut
    have hstart : R2p.Before xs (xs + npix - 1) ⟨[], xs⟩ rs := by
      constructor
      · simp only
        omega
      · exact Int.zero_add xs
      · intro r _
        exact Int.le_max_right r.x xs
    have hloop := R2p.loop_window (by omega) hrs hcut hstart
    rw [hcount] at hloop
    rw [hloop, List.nil_append]

/-- A window of two pixels inside one range of five. -/
theorem not_readsWindow_straddle :
    RangesOrdered [⟨1, 5, 7⟩] ∧ ¬ ReadsWindow (rangeList 5 0 [⟨1, 5, 7⟩] []) [⟨1, 5, 7⟩] 2 2 := by
  constructor
  · exact ⟨List.pairwise_singleton _ _, by simp⟩
  · unfold ReadsWindow
    decide

theorem plR2p_readsWindow_cut :
    ReadsWindow (rangeList 5 0 [⟨1, 2, 7⟩, ⟨4, 2, 3⟩] []) [⟨1, 2, 7⟩, ⟨4, 2, 3⟩] 2 3 ↔
      ∀ r ∈ ([⟨1, 2, 7⟩, ⟨4, 2, 3⟩] : List RlElem), ¬ Straddles 2 (2 + 3 - 1) r :=
  plR2p_readsWindow_iff ⟨by simp, by simp⟩ 5 0 [] 2 (by decide)

end Iraf.Plio
