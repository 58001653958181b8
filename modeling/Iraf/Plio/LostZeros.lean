import Iraf.Plio.LineList

/-!
# Lines that lose zeros

An encoder that cuts zeros into pieces of 4095 drops a piece before a single pixel, so
that what follows moves to the left.  Such a line is never the pixelwise image of the
line it decodes to.
-/

namespace Iraf.Plio

open RunLength

/-! ## Runs at the end of a line -/

theorem append_replicate_inj {α : Type} {c : α} (n : Nat) :
    ∀ {m : Nat} {l l' : List α}, l ++ List.replicate n c = l' ++ List.replicate m c →
      l.getLast? ≠ some c → l'.getLast? ≠ some c → n = m ∧ l = l' := by
  induction n with
  | zero =>
      intro m l l' h hl hl'
      rw [List.replicate_zero, List.append_nil] at h
      cases m with
      | zero => exact ⟨rfl, by simpa using h⟩
      | succ m =>
          rw [h, List.replicate_succ', ← List.append_assoc] at hl
          simp at hl
  | succ n ih =>
      intro m l l' h hl hl'
      cases m with
      | zero =>
          rw [List.replicate_zero, List.append_nil, List.replicate_succ',
            ← List.append_assoc] at h
          rw [← h] at hl'
          simp at hl'
      | succ m =>
          rw [List.replicate_succ', List.replicate_succ', ← List.append_assoc,
            ← List.append_assoc] at h
          have hinit := List.append_inj_left' h rfl
          obtain ⟨hnm, hll⟩ := ih hinit hl hl'
          exact ⟨by rw [hnm], hll⟩

/-- Runs of nonzero cells that are maximal. -/
structure ProperRuns (rs : List (Run Int)) : Prop where
  cells : ∀ r ∈ rs, r.value ≠ 0 ∧ 0 < r.count
  apart : rs.IsChain Run.Apart

theorem ProperRuns.init {rs : List (Run Int)} {r : Run Int} (h : ProperRuns (rs ++ [r])) :
    ProperRuns rs := by
  constructor
  · exact fun q hq => h.cells q (List.mem_append_left _ hq)
  · exact (List.isChain_append.mp h.apart).1

theorem ProperRuns.last {rs : List (Run Int)} {r : Run Int} (h : ProperRuns (rs ++ [r])) :
    r.value ≠ 0 ∧ 0 < r.count ∧ ∀ q ∈ rs.getLast?, q.Apart r := by
  obtain ⟨hvalue, hcount⟩ := h.cells r (by simp)
  refine ⟨hvalue, hcount, fun q hq => ?_⟩
  exact (List.isChain_append.mp h.apart).2.2 q hq r (by simp)

theorem getLast?_append_replicate {α : Type} (l : List α) {n : Nat} (hn : 0 < n) (v : α) :
    (l ++ List.replicate n v).getLast? = some v := by
  obtain ⟨m, rfl⟩ : ∃ m, n = m + 1 := ⟨n - 1, by omega⟩
  rw [List.replicate_succ', ← List.append_assoc]
  simp

theorem ProperRuns.getLast?_ne {rs : List (Run Int)} (h : ProperRuns rs) :
    (rs.flatMap Run.cells).getLast? ≠ some 0 := by
  induction rs using List.reverseRecOn with
  | nil => simp
  | append_singleton rs r _ =>
      obtain ⟨hvalue, hcount, -⟩ := h.last
      rw [List.flatMap_append, List.flatMap_singleton, Run.cells, ← List.append_assoc,
        getLast?_append_replicate _ hcount]
      exact fun hzero => hvalue (Option.some.inj hzero)

theorem ProperRuns.getLast?_before {rs : List (Run Int)} {r : Run Int}
    (h : ProperRuns (rs ++ [r])) :
    (rs.flatMap Run.cells ++ List.replicate r.zeros 0).getLast? ≠ some r.value := by
  obtain ⟨hvalue, -, happart⟩ := h.last
  rcases Nat.eq_zero_or_pos r.zeros with hzero | hpos
  · rw [hzero, List.replicate_zero, List.append_nil]
    rcases List.eq_nil_or_concat rs with rfl | ⟨rs, q, rfl⟩
    · simp
    · rw [List.concat_eq_append] at h happart ⊢
      obtain ⟨-, hcount, -⟩ := h.init.last
      have hother : r.value ≠ q.value := by
        rcases happart q (by simp) with hzeros | hne
        · omega
        · exact hne.2
      rw [List.flatMap_append, List.flatMap_singleton, Run.cells, ← List.append_assoc,
        getLast?_append_replicate _ hcount]
      exact fun hsame => hother (Option.some.inj hsame).symm
  · rw [getLast?_append_replicate _ hpos]
    exact fun hsame => hvalue (Option.some.inj hsame).symm

/-- The runs of a line and the zeros after them, as they are and as they are encoded. -/
theorem exists_properRuns (line : List Int) :
    ∃ rs z, ProperRuns rs ∧ line = rs.flatMap Run.cells ++ List.replicate z 0 ∧
      encodedLine 4095 line =
        rs.flatMap (encodedCells 4095) ++ List.replicate z 0 := by
  obtain ⟨hruns, hpending⟩ := proper_lineRuns line
  have hchain := maximal_lineRuns line
  have hcells := cells_lineRuns line
  unfold Scan.cells at hcells
  by_cases hcount : (lineRuns line).pending.count = 0
  · refine ⟨(lineRuns line).runs, (lineRuns line).pending.zeros, ?_, ?_, ?_⟩
    · exact ⟨hruns, ((lineRuns line).maximal_iff.mp hchain).1⟩
    · rw [Run.cells, hcount, List.replicate_zero, List.append_nil] at hcells
      exact hcells.symm
    · have hlost : lostZeros 4095 true (lineRuns line).pending.value
          (lineRuns line).pending.zeros (lineRuns line).pending.count = 0 :=
        if_neg fun h => absurd (hcount.symm.trans h.2.1) (by decide)
      rw [encodedLine, List.flatMap_append, List.flatMap_singleton, encodedCells, hlost,
        hcount, Nat.sub_zero, List.replicate_zero, List.append_nil]
  · refine ⟨(lineRuns line).runs ++ [(lineRuns line).pending], 0, ?_, ?_, ?_⟩
    · constructor
      · intro r hr
        rcases List.mem_append.mp hr with hr | hr
        · exact hruns r hr
        · rw [List.mem_singleton.mp hr]
          exact ⟨fun h => hcount (hpending.mpr h), by omega⟩
      · exact hchain
    · rw [List.flatMap_append, List.flatMap_singleton, List.replicate_zero, List.append_nil]
      exact hcells.symm
    · rw [List.replicate_zero, List.append_nil, encodedLine]

/-! ## Lines that are read back shifted -/

/-- Runs of which the pixelwise image, moved to the left, is followed by pixels of
value `c`: the last run takes up these pixels, and the zeros before it are those of
the image, so that the runs before are of this kind again. -/
theorem shifted_runs {f : Int → Int} {c : Int} (hc : c ≠ 0) (hzero : f 0 = c)
    (hvalue : f c = 0) {lost : Nat} {rs : List (Run Int)} (hrs : ProperRuns rs)
    (hlen : (rs.flatMap Run.cells).length =
      (rs.flatMap (encodedCells 4095)).length + lost)
    (h : rs.flatMap Run.cells =
      (rs.flatMap (encodedCells 4095)).map f ++ List.replicate lost c) : lost = 0 := by
  induction rs using List.reverseRecOn with
  | nil => simpa using hlen.symm
  | append_singleton rs p ih =>
      by_contra hne
      obtain ⟨-, hcount, -⟩ := hrs.last
      have hbefore := hrs.getLast?_before
      have hle := length_encodedCells_le rs
      simp only [List.flatMap_append, List.flatMap_singleton, List.length_append] at hlen h
      rw [Run.cells, ← List.append_assoc] at h
      have hlast : p.value = c := by
        have hends := congrArg List.getLast? h
        rw [getLast?_append_replicate _ hcount, getLast?_append_replicate _ (by omega)] at hends
        exact Option.some.inj hends
      have himage : ((rs.flatMap (encodedCells 4095) ++ encodedCells 4095 p).map f).getLast? ≠
          some c := by
        rw [encodedCells, ← List.append_assoc, List.map_append, List.map_replicate,
          getLast?_append_replicate _ hcount, hlast, hvalue]
        exact fun hsame => hc (Option.some.inj hsame).symm
      rw [hlast] at h hbefore
      obtain ⟨hcounts, hrest⟩ := append_replicate_inj p.count h hbefore himage
      have hkept : lostZeros 4095 true p.value p.zeros p.count = 0 := by
        apply if_neg
        intro hfull
        have hpiece : lostZeros 4095 true p.value p.zeros p.count = 4095 := if_pos hfull
        obtain ⟨hzeros, hone, -, -, hpieces⟩ := hfull
        simp only [Run.cells, encodedCells, hpiece, List.length_append,
          List.length_replicate] at hlen
        omega
      have hsame : (encodedCells 4095 p) = List.replicate p.zeros 0 ++ List.replicate p.count c := by
        rw [encodedCells, hkept, Nat.sub_zero, hlast]
      rw [hsame, List.map_append, List.map_append, List.map_replicate, List.map_replicate,
        hzero, hvalue, ← List.append_assoc] at hrest
      have hzeros : 0 < p.zeros := by
        by_contra hnone
        have hz : p.zeros = 0 := by omega
        rw [hz, List.replicate_zero, List.append_nil] at hrest
        apply hrs.init.getLast?_ne
        rw [hrest, getLast?_append_replicate _ hcount]
      have himage' : ((rs.flatMap (encodedCells 4095)).map f ++
          List.replicate p.zeros c).getLast? ≠ some 0 := by
        rw [getLast?_append_replicate _ hzeros]
        exact fun hsame => hc (Option.some.inj hsame)
      obtain ⟨hcounts', hinit⟩ :=
        append_replicate_inj p.zeros hrest hrs.init.getLast?_ne himage'
      apply hne
      apply ih hrs.init
      · rw [hsame, Run.cells, hlast] at hlen
        omega
      · rw [hinit, hcounts', hcounts]

/-- A line that is the pixelwise image of what its list decodes to has lost nothing. -/
theorem noFullPn_of_shifted {f : Int → Int} {line : List Int} (hline : ∀ v ∈ line, Pixel v)
    (hf : f 0 = 0 ∨ f (f 0) = 0 ∨ (f (f 0) = f 0 ∧ ∀ v, f v = 0 ∨ f v = f 0))
    (h : ∀ k < line.length, line.getD k 0 = f ((encodedLine 4095 line).getD k 0)) :
    NoFullPn line := by
  rw [← length_encodedLine_iff hline]
  obtain ⟨rs, z, hrs, hspell, henc⟩ := exists_properRuns line
  have hle := length_encodedCells_le rs
  have hshort : (encodedLine 4095 line).length ≤ line.length := by
    rw [henc, hspell]
    simp only [List.length_append, List.length_replicate]
    omega
  obtain ⟨lost, hlost⟩ : ∃ lost, line.length = (encodedLine 4095 line).length + lost :=
    ⟨line.length - (encodedLine 4095 line).length, by omega⟩
  have heq : line = (encodedLine 4095 line).map f ++ List.replicate lost (f 0) := by
    apply List.ext_getElem
    · rw [List.length_append, List.length_map, List.length_replicate]
      exact hlost
    · intro k hk hk'
      have hpixel := h k hk
      rw [List.getD_eq_getElem _ _ hk] at hpixel
      rw [hpixel]
      by_cases hin : k < (encodedLine 4095 line).length
      · rw [List.getElem_append_left (by simpa using hin), List.getElem_map,
          List.getD_eq_getElem _ _ hin]
      · rw [List.getElem_append_right (by simpa using hin), List.getElem_replicate,
          List.getD_eq_default _ _ (by omega)]
  suffices hnone : lost = 0 by omega
  by_cases hzero : f 0 = 0
  · -- The pixels of the last run stay where they are.
    by_contra hne
    have hcells : rs.flatMap Run.cells =
        (rs.flatMap (encodedCells 4095)).map f ++ List.replicate lost 0 := by
      rw [henc, List.map_append, List.map_replicate, hzero, List.append_assoc,
        List.replicate_append_replicate, Nat.add_comm, ← List.replicate_append_replicate,
        ← List.append_assoc, hspell] at heq
      exact List.append_cancel_right heq
    apply hrs.getLast?_ne
    rw [hcells, getLast?_append_replicate _ (by omega)]
  · rcases hf with hf | hf | ⟨hf, hrange⟩
    · exact absurd hf hzero
    · by_contra hne
      have hz : z = 0 := by
        by_contra hz
        have hends := congrArg List.getLast? (hspell.symm.trans heq)
        rw [getLast?_append_replicate _ (by omega), getLast?_append_replicate _ (by omega)]
          at hends
        exact hzero (Option.some.inj hends).symm
      rw [hz, List.replicate_zero, List.append_nil] at hspell henc
      rw [henc, hspell] at heq hlost
      exact hne (shifted_runs hzero rfl hf hrs hlost heq)
    · -- All pixels have the value `f 0`.
      have hvalues : ∀ v ∈ line, v = 0 ∨ v = f 0 := by
        intro v hv
        obtain ⟨k, hk, rfl⟩ := List.mem_iff_getElem.mp hv
        rw [← List.getD_eq_getElem line 0 hk, h k hk]
        exact hrange _
      have hmem : ∀ v ∈ encodedLine 4095 line, v = 0 ∨ v ∈ line := by
        intro v hv
        rw [henc] at hv
        rcases List.mem_append.mp hv with hv | hv
        · obtain ⟨r, hr, hv⟩ := List.mem_flatMap.mp hv
          rcases List.mem_append.mp hv with hv | hv
          · exact .inl (List.eq_of_mem_replicate hv)
          · apply Or.inr
            rw [hspell]
            exact List.mem_append_left _ (List.mem_flatMap.mpr
              ⟨r, hr, List.mem_append_right _ hv⟩)
        · exact .inl (List.eq_of_mem_replicate hv)
      have hpixels : ∀ v ∈ line, v = f 0 := by
        intro v hv
        obtain ⟨k, hk, rfl⟩ := List.mem_iff_getElem.mp hv
        have hpixel := h k hk
        rw [List.getD_eq_getElem _ _ hk] at hpixel
        rw [hpixel]
        by_cases hin : k < (encodedLine 4095 line).length
        · rw [List.getD_eq_getElem _ _ hin]
          rcases hmem _ (List.getElem_mem hin) with hx | hx
          · rw [hx]
          · rcases hvalues _ hx with hx | hx
            · rw [hx]
            · rw [hx, hf]
        · rw [List.getD_eq_default _ _ (by omega)]
      have hsame : rs.flatMap (encodedCells 4095) = rs.flatMap Run.cells := by
        apply List.flatMap_congr
        intro r hr
        have hnone : r.zeros = 0 := by
          by_contra hsome
          have hzeroIn : (0 : Int) ∈ line := by
            rw [hspell]
            exact List.mem_append_left _ (List.mem_flatMap.mpr
              ⟨r, hr, by simp [Run.cells, hsome]⟩)
          exact hzero (hpixels 0 hzeroIn).symm
        rw [encodedCells, Run.cells, hnone, Nat.zero_sub]
      rw [henc, hsame, ← hspell] at hlost
      omega

end Iraf.Plio
