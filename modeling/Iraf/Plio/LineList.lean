import Iraf.Plio.Encode

/-!
# Line lists and the lines they encode

A line is encoded run by run.  `Encodes` says what a stored line list stands
for: a header that gives its length, then well formed instructions that
regenerate the line.
-/

namespace Iraf.Plio

open RunLength

/-! ## Encoding the runs of a line -/

def encodeRun (zlim : Int) (e : Encoder) (r : Run Int) : Encoder :=
  encodeRange zlim true e r.value r.zeros r.count

/-- The encoder after completed runs, at the beginning of a line. -/
def encodeRuns (zlim : Int) (rs : List (Run Int)) : Encoder :=
  rs.foldl (encodeRun zlim) ⟨1, []⟩

def encodeScan (zlim : Int) (s : Scan Int) : Encoder :=
  encodeRun zlim (encodeRuns zlim s.runs) s.pending

/-- A whole line list: the header and the words of the runs of the line. -/
def packLine (zlim : Int) (line : List Int) : List Int :=
  let ll := (encodeScan zlim (lineRuns line)).ll
  header 0 (llCurhdrlen + ll.length) 0 ++ ll

/-! ## The line a list encodes -/

/-- The cells of a run as its encoding regenerates them. -/
def encodedCells (zlim : Nat) (r : Run Int) : List Int :=
  List.replicate
      (r.zeros - lostZeros zlim true r.value r.zeros r.count) 0 ++
    List.replicate r.count r.value

/-- The words written so far regenerate `line`. -/
def Encoder.Spells (e : Encoder) (line : List Int) : Prop :=
  ∃ is, e.ll = packed is ∧ e.hi = finalHigh 1 is ∧ (∀ i ∈ is, i.Ok) ∧
    expand 1 is = line

theorem Encoder.spells_nil : Encoder.Spells ⟨1, []⟩ [] :=
  ⟨[], rfl, rfl, by simp, rfl⟩

/-- A pixel value that fits the format. -/
def Pixel (v : Int) : Prop := 0 ≤ v ∧ v ≤ iPvmax

instance : DecidablePred Pixel := fun v => by unfold Pixel; infer_instance

theorem Encoder.Spells.run {e : Encoder} {line : List Int} (h : e.Spells line)
    {zlim : Nat} (hlo : 0 < zlim) (hhi : zlim ≤ 4095) {r : Run Int}
    (hvalue : r.value ≤ iPvmax) (hcount : 0 < r.value ∨ r.count = 0) :
    (encodeRun zlim e r).Spells (line ++ encodedCells zlim r) := by
  obtain ⟨is, hll, hhigh, hok, hline⟩ := h
  refine ⟨is ++ encodeInstrs zlim true e.hi r.value r.zeros r.count,
    ?_, ?_, ?_, ?_⟩
  · rw [encodeRun, encodeRange_eq hlo true e hvalue, hll, packed_append]
  · rw [encodeRun, encodeRange_eq hlo true e hvalue, finalHigh_append, hhigh]
  · intro i hi
    rcases List.mem_append.mp hi with hi | hi
    · exact hok i hi
    · exact encodeInstrs_ok hlo hhi true e.hi hvalue r.zeros r.count i hi
  · rw [expand_append, hline, ← hhigh,
      expand_encodeInstrs true e.hi r.zeros hcount, encodedCells]

theorem encodeRuns_spells {zlim : Nat} (hlo : 0 < zlim) (hhi : zlim ≤ 4095)
    {rs : List (Run Int)} (hrs : ∀ r ∈ rs, 0 < r.value ∧ r.value ≤ iPvmax) :
    (encodeRuns zlim rs).Spells (rs.flatMap (encodedCells zlim)) := by
  suffices h : ∀ (e : Encoder) (line : List Int), e.Spells line →
      (rs.foldl (encodeRun zlim) e).Spells
        (line ++ rs.flatMap (encodedCells zlim)) by
    simpa [encodeRuns] using h _ _ Encoder.spells_nil
  induction rs with
  | nil => intro e line h; simpa using h
  | cons r rs ih =>
      intro e line h
      have hr := hrs r (by simp)
      have hrun := h.run hlo hhi hr.2 (.inl hr.1)
      simpa [List.append_assoc] using
        ih (fun r' hr' => hrs r' (by simp [hr'])) _ _ hrun

theorem lineRuns_values {line : List Int} (hline : ∀ v ∈ line, Pixel v) :
    (∀ r ∈ (lineRuns line).runs, 0 < r.value ∧ r.value ≤ iPvmax) ∧
      (lineRuns line).pending.value ≤ iPvmax ∧
      (0 < (lineRuns line).pending.value ∨
        (lineRuns line).pending.count = 0) := by
  have hproper := proper_lineRuns line
  have hcells := cells_lineRuns line
  have hmem : ∀ r : Run Int, r.count ≠ 0 → (∀ v ∈ r.cells, v ∈ line) →
      Pixel r.value := by
    intro r hcount hr
    exact hline _ (hr _ (by simp [Run.cells, hcount]))
  refine ⟨fun r hr => ?_, ?_⟩
  · have hpixel := hmem r (by have := (hproper.1 r hr).2; omega) fun v hv => by
      rw [← hcells]
      exact List.mem_append_left _ (List.mem_flatMap.mpr ⟨r, hr, hv⟩)
    have hne := (hproper.1 r hr).1
    have hnonneg := hpixel.1
    exact ⟨by omega, hpixel.2⟩
  · by_cases hcount : (lineRuns line).pending.count = 0
    · rw [hproper.2.mp hcount]
      exact ⟨by decide, .inr hcount⟩
    · have hpixel := hmem _ hcount fun v hv => by
        rw [← hcells]
        exact List.mem_append_right _ hv
      have hne : (lineRuns line).pending.value ≠ 0 :=
        fun h => hcount (hproper.2.mpr h)
      have hnonneg := hpixel.1
      exact ⟨hpixel.2, .inl (by omega)⟩

/-- The line a packed line regenerates. -/
def encodedLine (zlim : Nat) (line : List Int) : List Int :=
  ((lineRuns line).runs ++ [(lineRuns line).pending]).flatMap
    (encodedCells zlim)

theorem encodeScan_spells {zlim : Nat} (hlo : 0 < zlim) (hhi : zlim ≤ 4095)
    {line : List Int} (hline : ∀ v ∈ line, Pixel v) :
    (encodeScan zlim (lineRuns line)).Spells (encodedLine zlim line) := by
  obtain ⟨hruns, hvalue, hcount⟩ := lineRuns_values hline
  simpa [encodedLine, encodeScan] using
    (encodeRuns_spells hlo hhi hruns).run hlo hhi hvalue hcount

theorem encodedLine_of_lossless {zlim : Nat} {line : List Int}
    (h : ∀ r ∈ (lineRuns line).runs ++ [(lineRuns line).pending],
      lostZeros zlim true r.value r.zeros r.count = 0) :
    encodedLine zlim line = line := by
  have hcells : ∀ r ∈ (lineRuns line).runs ++ [(lineRuns line).pending],
      encodedCells zlim r = r.cells := fun r hr => by
    rw [encodedCells, h r hr]
    rfl
  rw [encodedLine, List.flatMap_congr hcells, List.flatMap_append]
  simpa [Scan.cells] using cells_lineRuns line

theorem encodedLine_of_lt {zlim : Nat} (hlo : 0 < zlim) (hhi : zlim < 4095)
    (line : List Int) : encodedLine zlim line = line := by
  refine encodedLine_of_lossless fun r _ => if_neg fun h => ?_
  have hrem := Nat.mod_lt (r.zeros - 1) hlo
  omega

/-- A single pixel after zeros that fill their pieces of 4095 to the end. -/
def FullPn (r : Run Int) : Prop :=
  0 < r.zeros ∧ r.zeros % 4095 = 0 ∧ r.count = 1

instance : DecidablePred FullPn := fun r => by unfold FullPn; infer_instance

/-- No run of the line is cut so that its PN overflows. -/
def NoFullPn (line : List Int) : Prop :=
  ∀ r ∈ (lineRuns line).runs ++ [(lineRuns line).pending], ¬ FullPn r

instance : DecidablePred NoFullPn := fun line => by
  unfold NoFullPn
  infer_instance

theorem length_encodedCells_le (rs : List (Run Int)) :
    (rs.flatMap (encodedCells 4095)).length ≤ (rs.flatMap Run.cells).length := by
  induction rs with
  | nil => exact Nat.le_refl _
  | cons r rs ih =>
      simp only [List.flatMap_cons, List.length_append, encodedCells, Run.cells,
        List.length_replicate]
      omega

/-- Pieces as long as the data field lose the zeros before such a pixel, and
only those. -/
theorem length_encodedLine_iff {line : List Int}
    (hline : ∀ v ∈ line, Pixel v) :
    (encodedLine 4095 line).length = line.length ↔ NoFullPn line := by
  obtain ⟨hruns, -, hpending⟩ := lineRuns_values hline
  have hpos : ∀ r ∈ (lineRuns line).runs ++ [(lineRuns line).pending],
      r.count = 1 → 0 < r.value := by
    intro r hr hcount
    rcases List.mem_append.mp hr with hr | hr
    · exact (hruns r hr).1
    · rw [List.mem_singleton.mp hr] at hcount ⊢
      omega
  have hlost : ∀ r ∈ (lineRuns line).runs ++ [(lineRuns line).pending],
      (lostZeros 4095 true r.value r.zeros r.count = 0 ↔ ¬ FullPn r) := by
    intro r hr
    have hvalue := hpos r hr
    simp only [lostZeros, FullPn, true_and]
    split <;> omega
  constructor
  · intro hlen r hr hfull
    -- One run that loses zeros makes the whole line too short.
    have hshort : r.zeros - lostZeros 4095 true r.value r.zeros r.count <
        r.zeros := by
      have hne := mt (hlost r hr).mp (not_not.mpr hfull)
      have := hfull.1
      omega
    obtain ⟨before, after, hsplit⟩ := List.append_of_mem hr
    have hcells := congrArg List.length (cells_lineRuns line)
    have hb := length_encodedCells_le before
    have ha := length_encodedCells_le after
    have hsum : (lineRuns line).cells =
        (before ++ r :: after).flatMap Run.cells := by
      rw [← hsplit]
      simp [Scan.cells]
    rw [hsum] at hcells
    rw [encodedLine, hsplit] at hlen
    simp only [List.flatMap_append, List.flatMap_cons, List.length_append,
      encodedCells, Run.cells, List.length_replicate] at hlen hcells hb ha
    omega
  · intro h
    rw [encodedLine_of_lossless fun r hr => (hlost r hr).mpr (h r hr)]

theorem encodedLine_eq {line : List Int} (hline : ∀ v ∈ line, Pixel v)
    (h : NoFullPn line) : encodedLine 4095 line = line := by
  obtain ⟨hruns, -, hpending⟩ := lineRuns_values hline
  refine encodedLine_of_lossless fun r hr => if_neg fun hlost => h r hr ?_
  exact ⟨hlost.1, by omega, hlost.2.1⟩

/-- Memory that begins with a line list of the current format for `line`. -/
def Encodes (ll line : List Int) : Prop :=
  ∃ nref blen is rest,
    ll = header nref (llCurhdrlen + (packed is).length) blen ++
      (packed is ++ rest) ∧
    (∀ i ∈ is, i.Ok) ∧ expand 1 is = line ∧
    llCurhdrlen + (packed is).length < 2 ^ 30

theorem packLine_encodes {zlim : Nat} (hlo : 0 < zlim) (hhi : zlim ≤ 4095)
    {line : List Int} (hline : ∀ v ∈ line, Pixel v)
    (hlen : (packLine zlim line).length < 2 ^ 30) (rest : List Int) :
    Encodes (packLine zlim line ++ rest) (encodedLine zlim line) := by
  obtain ⟨is, hll, -, hok, hexpand⟩ := encodeScan_spells hlo hhi hline
  have hlen' : llCurhdrlen + (packed is).length < 2 ^ 30 := by
    simpa [packLine, hll] using hlen
  exact ⟨0, 0, is, rest, by simp [packLine, hll], hok, hexpand, hlen'⟩

/-! ## The zero line -/

theorem lineRuns_zeros (n : Nat) :
    lineRuns (List.replicate n (0 : Int)) = ⟨[], ⟨n, 0, 0⟩⟩ := by
  cases n with
  | zero => rfl
  | succ n =>
      rw [lineRuns, scan_replicate]
      simp [Scan.push, Scan.start]

theorem encodeScan_zeros {zlim : Nat} (hlo : 0 < zlim) (n : Nat) :
    (encodeScan zlim (lineRuns (List.replicate n 0))).ll =
      (pieces zlim n).map fun c => (c : Int) := by
  have hrun := encodeRange_eq hlo true ⟨1, []⟩ (show 0 ≤ iPvmax by decide) n 0
  have hinstrs : encodeInstrs zlim true 1 0 n 0 = (pieces zlim n).map .zn := by
    have hnone : pieces 4095 0 = [] := rfl
    simp [encodeInstrs, highInstrs, rangeInstrs, hnone]
  rw [hinstrs, packed_zn] at hrun
  rw [lineRuns_zeros, encodeScan, encodeRun]
  change (encodeRange zlim true ⟨1, []⟩ 0 n (0 : Nat)).ll = _
  rw [hrun]
  simp

theorem length_packLine_zeros {zlim : Nat} (hlo : 0 < zlim) (n : Nat) :
    (packLine zlim (List.replicate n 0)).length =
      llCurhdrlen + (pieces zlim n).length := by
  simp [packLine, encodeScan_zeros hlo]

theorem length_pieces (lim : Nat) {n : Nat} (hn : 0 < n) :
    (pieces lim n).length = (n - 1) / lim + 1 := by
  have hn0 : n ≠ 0 := by omega
  simp [pieces, hn0]

end Iraf.Plio
