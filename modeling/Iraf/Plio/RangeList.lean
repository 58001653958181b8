import Iraf.Plio.PixelLine

/-!
# Range lists

The second form of a mask line: the ranges of constant nonzero value with their
positions.  `plP2r` makes one from a pixel array and `plR2p` reads it back.
-/

namespace Iraf.Plio

open RunLength

/-- An element of a range list, `rl[1..3,i]`. -/
structure RlElem where
  x : Int
  n : Int
  v : Int
  deriving DecidableEq, Repr

@[simp] abbrev rlFirst : Int := 2

/-- `rl[1..3,i]`, indexed from 1; what lies past the memory given is zero. -/
def rlElem (rl : List RlElem) (i : Int) : RlElem :=
  rl.getD (i - 1).toNat ⟨0, 0, 0⟩

/-- The first element holds the length of the list and that of the line. -/
def rlLen (rl : List RlElem) : Int := (rlElem rl 1).x
def rlAxlen (rl : List RlElem) : Int := (rlElem rl 1).n

/-- Append a nonzero range. -/
def putRangeElem : PutRange (List RlElem) := fun rl x1 pv _ np =>
  if pv > 0 then rl ++ [⟨x1, np, pv⟩] else rl

/-- The list stored in `rl`, with its first element `⟨RL_LEN, RL_AXLEN, _⟩`; the
third column of that element is not set.  The source leaves `x1` alone when the
line ends in zeros, which puts out nothing either way. -/
def plP2r (px : Int → Int) (xs npix : Int) : List RlElem :=
  if npix ≤ 0 then []
  else
    let rl := scanPixels putRangeElem [] px xs npix
    ⟨rl.length + 1, npix, 0⟩ :: rl

/-- The variables of `pl_r2p`; `px` holds the pixels output so far. -/
structure R2p where
  px : List Int
  iz : Int

/-- One range; `none` when it begins past `xe`. -/
def R2p.step (xs xe : Int) (s : R2p) (r : RlElem) : Option R2p :=
  let x2 := r.x + r.n - 1
  if r.x > xe then none
  else if xs > x2 then some s
  else
    -- Get an inbounds range; only one end of it is cut.
    let x1 := if r.x < xs then xs else r.x
    let x2 := if r.x < xs then x2 else min x2 xe
    let nz := x1 - s.iz
    let np := x2 - x1 + 1
    if np ≤ 0 then some s
    else
      some ⟨s.px ++ List.replicate nz.toNat 0 ++ List.replicate np.toNat r.v,
        x2 + 1⟩

def R2p.loop (xs xe : Int) (s : R2p) : List RlElem → R2p
  | [] => s
  | r :: rs =>
      match s.step xs xe r with
      | none => s
      | some s' => R2p.loop xs xe s' rs

/-- The pixels stored in `px_dst`; none when 0 is returned. -/
def plR2p (rl : List RlElem) (xs npix : Int) : List Int :=
  if npix ≤ 0 ∨ rlLen rl ≤ 0 then []
  else
    let ranges := (rl.take (rlLen rl).toNat).drop 1
    let px := (R2p.loop xs (xs + npix - 1) ⟨[], xs⟩ ranges).px
    -- Zero any remaining output range.
    px ++ List.replicate (npix.toNat - px.length) 0

/-! ## The line of a range list -/

/-- The pixels from position `pos` to the end of a line of `axlen` pixels. -/
def rangeCells (axlen : Int) : Int → List RlElem → List Int
  | pos, [] => List.replicate (axlen + 1 - pos).toNat 0
  | pos, r :: rs =>
      List.replicate (r.x - pos).toNat 0 ++
        (List.replicate r.n.toNat r.v ++ rangeCells axlen (r.x + r.n) rs)

/-- The ranges stand in order between `pos` and the end of the line. -/
def RangesFrom (axlen : Int) : Int → List RlElem → Prop
  | pos, [] => pos ≤ axlen + 1
  | pos, r :: rs => pos ≤ r.x ∧ 0 < r.n ∧ RangesFrom axlen (r.x + r.n) rs

theorem RangesFrom.le {axlen : Int} {rs : List RlElem} :
    ∀ {pos : Int}, RangesFrom axlen pos rs → pos ≤ axlen + 1 := by
  induction rs with
  | nil => intro pos h; exact h
  | cons r rs ih =>
      rintro pos ⟨hpos, hn, hrest⟩
      have := ih hrest
      omega

/-- The ranges of runs that begin at `pos`. -/
def runRanges : Int → List (Run Int) → List RlElem
  | _, [] => []
  | pos, r :: rs =>
      (if r.value > 0 then [⟨pos + r.zeros, r.count, r.value⟩] else []) ++
        runRanges (pos + r.zeros + r.count) rs

theorem putRuns_putRangeElem (rs : List (Run Int)) :
    ∀ (pos : Int) (rl : List RlElem),
      putRuns putRangeElem pos rl rs = rl ++ runRanges pos rs := by
  induction rs with
  | nil => intro pos rl; simp [putRuns, runRanges]
  | cons r rs ih =>
      intro pos rl
      rw [putRuns, ih, runRanges, putRangeElem]
      split <;> simp

theorem runRanges_spec {axlen : Int} (rs : List (Run Int)) {last : Run Int}
    (hlast : 0 < last.value ∧ 0 < last.count ∨ last.count = 0 ∧ last.value ≤ 0)
    (hrs : ∀ r ∈ rs, 0 < r.value ∧ 0 < r.count) :
    ∀ {pos : Int}, runsEnd pos (rs ++ [last]) = axlen + 1 →
      RangesFrom axlen pos (runRanges pos (rs ++ [last])) ∧
        rangeCells axlen pos (runRanges pos (rs ++ [last])) =
          (rs ++ [last]).flatMap Run.cells := by
  induction rs with
  | nil =>
      intro pos hend
      simp only [List.nil_append, runsEnd, List.flatMap_cons, List.flatMap_nil,
        List.append_nil, Run.cells, List.length_append,
        List.length_replicate] at hend
      simp only [List.nil_append, runRanges, List.flatMap_cons,
        List.flatMap_nil, List.append_nil, Run.cells]
      rcases hlast with ⟨hvalue, hcount⟩ | ⟨hcount, hvalue⟩
      · rw [if_pos hvalue]
        refine ⟨⟨by simp only; omega, by simp only; omega,
          by simp only [RangesFrom]; omega⟩, ?_⟩
        have hrest : (axlen + 1 - (pos + last.zeros + last.count)).toNat =
            0 := by omega
        simp [rangeCells, hrest]
      · rw [if_neg (by omega)]
        refine ⟨by simp only [RangesFrom]; omega, ?_⟩
        have hzeros : (axlen + 1 - pos).toNat = last.zeros := by omega
        simp [rangeCells, hzeros, hcount]
  | cons r rs ih =>
      intro pos hend
      obtain ⟨hvalue, hcount⟩ := hrs r (by simp)
      rw [List.cons_append, runsEnd_cons] at hend
      obtain ⟨hfrom, hcells⟩ := ih (fun r' hr' => hrs r' (by simp [hr'])) hend
      have hzeros : (pos + (r.zeros : Int) - pos).toNat = r.zeros := by omega
      simp only [List.cons_append, runRanges, if_pos hvalue, List.nil_append,
        List.flatMap_cons]
      refine ⟨⟨by simp only; omega, by simp only; omega, hfrom⟩, ?_⟩
      simp only [rangeCells, hzeros, Int.toNat_natCast, hcells, Run.cells,
        List.append_assoc]

theorem lineRuns_ranges {line : List Int} (hnonneg : ∀ v ∈ line, 0 ≤ v) (pos : Int) :
    RangesFrom (pos + line.length - 1) pos
        (runRanges pos ((lineRuns line).runs ++ [(lineRuns line).pending])) ∧
      rangeCells (pos + line.length - 1) pos
        (runRanges pos ((lineRuns line).runs ++ [(lineRuns line).pending])) = line := by
  have hproper := proper_lineRuns line
  have hcells : ((lineRuns line).runs ++ [(lineRuns line).pending]).flatMap
      Run.cells = line := by
    simpa [Scan.cells] using cells_lineRuns line
  have hmem : ∀ r ∈ (lineRuns line).runs ++ [(lineRuns line).pending],
      r.count ≠ 0 → r.value ∈ line := by
    intro r hr hcount
    rw [← hcells]
    exact List.mem_flatMap.mpr ⟨r, hr, by simp [Run.cells, hcount]⟩
  have hruns : ∀ r ∈ (lineRuns line).runs, 0 < r.value ∧ 0 < r.count := by
    intro r hr
    obtain ⟨hvalue, hcount⟩ := hproper.1 r hr
    have := hnonneg _ (hmem r (List.mem_append_left _ hr) (by omega))
    exact ⟨by omega, hcount⟩
  have hlast : 0 < (lineRuns line).pending.value ∧
      0 < (lineRuns line).pending.count ∨
      (lineRuns line).pending.count = 0 ∧
        (lineRuns line).pending.value ≤ 0 := by
    have hiff := hproper.2
    by_cases hcount : (lineRuns line).pending.count = 0
    · exact .inr ⟨hcount, by have := hiff.mp hcount; omega⟩
    · have hvalue := hnonneg _ (hmem (lineRuns line).pending (by simp) hcount)
      have hne : (lineRuns line).pending.value ≠ 0 :=
        fun h => hcount (hiff.mpr h)
      exact .inl ⟨by omega, by omega⟩
  have hend : runsEnd pos ((lineRuns line).runs ++ [(lineRuns line).pending]) =
      pos + line.length - 1 + 1 := by
    rw [runsEnd, hcells]
    omega
  obtain ⟨hfrom, hspell⟩ := runRanges_spec _ hlast hruns hend
  exact ⟨hfrom, hspell.trans hcells⟩

theorem plP2r_ranges (px : Int → Int) (xs : Int) {npix : Int} (hnpix : 1 ≤ npix) :
    ∃ rs, plP2r px xs npix = ⟨rs.length + 1, npix, 0⟩ :: rs ∧
      RangesFrom (xs + npix - 1) xs rs ∧
      rangeCells (xs + npix - 1) xs rs = pixels px xs npix.toNat := by
  have hnonneg : ∀ v ∈ pixels px xs npix.toNat, 0 ≤ v := by
    intro v hv
    obtain ⟨i, -, rfl⟩ := List.mem_map.mp hv
    omega
  obtain ⟨hfrom, hcells⟩ := lineRuns_ranges hnonneg xs
  have hlen : ((pixels px xs npix.toNat).length : Int) = npix := by
    rw [length_pixels]
    omega
  rw [hlen] at hfrom hcells
  refine ⟨_, ?_, hfrom, hcells⟩
  rw [plP2r, if_neg (by omega), scanPixels_eq _ _ _ (by omega), putRuns_putRangeElem]
  rfl

end Iraf.Plio
