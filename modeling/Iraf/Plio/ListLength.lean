import Iraf.Plio.LineList

/-!
# How long a line list is

The number of words that `pl_p2l` needs for a line, counted run by run.
-/

namespace Iraf.Plio

open RunLength

/-- The words of a run after the high value `hi`. -/
def codeWords (hi : Int) (r : Run Int) : Nat :=
  let change :=
    if r.value ≤ 0 ∨ r.value = hi then 0
    else if (r.value - hi).natAbs ≤ 4095 then 1
    else 2
  let zeros := (r.zeros + 4093) / 4094
  if 0 < r.value ∧ r.count = 1 ∧ (0 < r.zeros ∨ change = 1) then change + zeros
  else change + zeros + (r.count + 4094) / 4095

def runsWords : Int → List (Run Int) → Nat
  | _, [] => 0
  | hi, r :: rs => codeWords hi r + runsWords (if 0 < r.value then r.value else hi) rs

/-- The words of a line list for `line`, the header included. -/
def lineWords (line : List Int) : Nat :=
  llCurhdrlen + runsWords 1 ((lineRuns line).runs ++ [(lineRuns line).pending])

theorem length_pieces_eq {lim : Nat} (hlim : 0 < lim) (n : Nat) :
    (pieces lim n).length = (n + (lim - 1)) / lim := by
  rcases Nat.eq_zero_or_pos n with rfl | hn
  · rw [Nat.zero_add, Nat.div_eq_of_lt (by omega)]
    rfl
  · rw [length_pieces lim hn, ← Nat.add_div_right _ hlim]
    congr 1
    omega

theorem length_packed_highInstrs (hi pv : Int) :
    (packed (highInstrs hi pv)).length =
      if pv ≤ 0 ∨ pv = hi then 0 else if (pv - hi).natAbs ≤ 4095 then 1 else 2 := by
  unfold highInstrs
  by_cases hchange : 0 < pv ∧ pv ≠ hi
  · have hpos : ¬ (pv ≤ 0 ∨ pv = hi) := by omega
    rw [if_pos hchange, if_neg hpos]
    by_cases hfar : 4095 < (pv - hi).natAbs
    · rw [if_pos hfar, if_neg (show ¬ (pv - hi).natAbs ≤ 4095 by omega)]
      rfl
    · rw [if_neg hfar, if_pos (show (pv - hi).natAbs ≤ 4095 by omega)]
      split <;> rfl
  · rw [if_neg hchange, if_pos (by omega)]
    rfl

theorem length_packed_map {instr : Nat → Instr} (hinstr : ∀ n, (instr n).words.length = 1)
    (ns : List Nat) : (packed (ns.map instr)).length = ns.length := by
  induction ns with
  | nil => rfl
  | cons n ns ih =>
      rw [List.map_cons, packed_cons, List.length_append, hinstr, ih, List.length_cons]
      omega

theorem length_packed_rangeInstrs (pv : Int) (nz np : Nat) :
    (packed (rangeInstrs 4094 true pv nz np)).length =
      if 0 < nz ∧ np = 1 ∧ 0 < pv then (nz + 4093) / 4094
      else (nz + 4093) / 4094 + (np + 4094) / 4095 := by
  unfold rangeInstrs
  by_cases hpn : 0 < nz ∧ np = 1 ∧ 0 < pv
  · have hlast : (nz - 1) % 4094 + 1 ≠ 4095 := by omega
    rw [if_pos ⟨hpn.1, hpn.2.1, hpn.2.2, rfl⟩, if_pos hpn, if_neg hlast, packed_append,
      List.length_append, length_packed_map (fun _ => rfl), List.length_replicate]
    show (nz - 1) / 4094 + 1 = (nz + 4093) / 4094
    omega
  · have hzeros := length_pieces_eq (show 0 < 4094 by decide) nz
    have hhigh := length_pieces_eq (show 0 < 4095 by decide) np
    rw [if_neg (fun h => hpn ⟨h.1, h.2.1, h.2.2.1⟩), if_neg hpn, packed_append,
      List.length_append, length_packed_map (fun _ => rfl), length_packed_map (fun _ => rfl),
      hzeros, hhigh]

theorem length_packed_encodeInstrs (hi : Int) (r : Run Int) :
    (packed (encodeInstrs 4094 true hi r.value r.zeros r.count)).length = codeWords hi r := by
  unfold encodeInstrs codeWords
  dsimp only
  by_cases hsingle : 0 < r.value ∧ r.value ≠ hi ∧ (r.value - hi).natAbs ≤ 4095 ∧
      r.count = 1 ∧ r.zeros = 0
  · obtain ⟨hpos, hne, hnear, hcount, hzeros⟩ := hsingle
    have hchange : ¬ (r.value ≤ 0 ∨ r.value = hi) := by omega
    rw [if_pos ⟨hpos, hne, hnear, hcount, hzeros⟩, if_neg hchange, if_pos hnear,
      if_pos (show 0 < r.value ∧ r.count = 1 ∧ (0 < r.zeros ∨ 1 = 1) from
        ⟨hpos, hcount, .inr rfl⟩), hzeros]
    split <;> rfl
  · rw [if_neg hsingle, packed_append, List.length_append, length_packed_highInstrs,
      length_packed_rangeInstrs]
    by_cases hsame : r.value ≤ 0 ∨ r.value = hi
    · simp only [if_pos hsame, zero_ne_one, or_false]
      split_ifs <;> omega
    · by_cases hnear : (r.value - hi).natAbs ≤ 4095
      · simp only [if_neg hsame, if_pos hnear]
        split_ifs <;> omega
      · simp only [if_neg hsame, if_neg hnear]
        split_ifs <;> omega

theorem length_foldl_encodeRun (rs : List (Run Int)) (hrs : ∀ r ∈ rs, r.value ≤ iPvmax)
    (e : Encoder) :
    (rs.foldl (encodeRun 4094) e).ll.length = e.ll.length + runsWords e.hi rs := by
  induction rs generalizing e with
  | nil => rfl
  | cons r rs ih =>
      have hrun : encodeRun 4094 e r = ⟨if 0 < r.value then r.value else e.hi,
          e.ll ++ packed (encodeInstrs 4094 true e.hi r.value r.zeros r.count)⟩ := by
        rw [← finalHigh_encodeInstrs true e.hi r.value r.zeros r.count]
        exact encodeRange_eq (show 0 < 4094 by decide) true e (hrs r (by simp)) _ _
      rw [List.foldl_cons, ih (fun r' hr' => hrs r' (by simp [hr'])), hrun, List.length_append,
        length_packed_encodeInstrs, runsWords, Nat.add_assoc]

theorem length_packLine {line : List Int} (hline : ∀ v ∈ line, Pixel v) :
    (packLine 4094 line).length = lineWords line := by
  obtain ⟨hruns, hpending, -⟩ := lineRuns_values hline
  have hscan : encodeScan 4094 (lineRuns line) =
      ((lineRuns line).runs ++ [(lineRuns line).pending]).foldl (encodeRun 4094) ⟨1, []⟩ := by
    rw [List.foldl_concat]
    rfl
  have hvalues : ∀ r ∈ (lineRuns line).runs ++ [(lineRuns line).pending], r.value ≤ iPvmax := by
    intro r hr
    rcases List.mem_append.1 hr with hr | hr
    · exact (hruns r hr).2
    · rw [List.mem_singleton.1 hr]
      exact hpending
  rw [packLine, hscan, List.length_append, length_header, length_foldl_encodeRun _ hvalues,
    lineWords, List.length_nil, Nat.zero_add]

/-! ## A bound -/

theorem codeWords_le (hi : Int) (r : Run Int) :
    codeWords hi r ≤ 4 + r.cells.length / 4094 := by
  have hcells : r.cells.length = r.zeros + r.count := by simp [Run.cells]
  rw [hcells]
  unfold codeWords
  dsimp only
  split_ifs <;> omega

theorem runsWords_le (hi : Int) (rs : List (Run Int)) :
    runsWords hi rs ≤ 4 * rs.length + (rs.flatMap Run.cells).length / 4094 := by
  induction rs generalizing hi with
  | nil => exact Nat.zero_le _
  | cons r rs ih =>
      have hrange := codeWords_le hi r
      have hrest := ih (if 0 < r.value then r.value else hi)
      rw [runsWords, List.flatMap_cons, List.length_append, List.length_cons]
      omega

theorem length_runs_le (line : List Int) :
    (lineRuns line).runs.length ≤ line.countP (· ≠ 0) := by
  have hcells := cells_lineRuns line
  have hruns := (proper_lineRuns line).1
  rw [Scan.cells] at hcells
  conv_rhs => rw [← hcells, List.countP_append]
  generalize (lineRuns line).runs = rs at hruns
  suffices hle : rs.length ≤ (rs.flatMap Run.cells).countP (· ≠ 0) by omega
  induction rs with
  | nil => exact Nat.zero_le _
  | cons r rs ih =>
      have hr := hruns r (by simp)
      have hpos : 1 ≤ r.cells.countP (· ≠ 0) := by
        rw [Nat.one_le_iff_ne_zero, ← Nat.pos_iff_ne_zero, List.countP_pos_iff]
        exact ⟨r.value, by simp [Run.cells]; omega, by simpa using hr.1⟩
      have hrest := ih (fun r' hr' => hruns r' (by simp [hr']))
      rw [List.flatMap_cons, List.countP_append, List.length_cons]
      omega

theorem lineWords_le (line : List Int) :
    lineWords line ≤ 11 + 4 * line.countP (· ≠ 0) + line.length / 4094 := by
  have hruns := length_runs_le line
  have hwords := runsWords_le 1 ((lineRuns line).runs ++ [(lineRuns line).pending])
  have hlength : (((lineRuns line).runs ++ [(lineRuns line).pending]).flatMap Run.cells).length =
      line.length := by
    conv_rhs => rw [← cells_lineRuns line, Scan.cells]
    rw [List.flatMap_append]
    simp
  rw [hlength, List.length_append, List.length_singleton] at hwords
  rw [lineWords, llCurhdrlen]
  omega

end Iraf.Plio
