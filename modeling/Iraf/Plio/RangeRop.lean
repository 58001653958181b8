import Iraf.Plio.RangeSegment
import Iraf.Plio.LineRop

/-!
# Rasterops on range lists

`plRangerop` is the loop of `plLinerop` over range lists, with an output that
joins adjacent ranges of one value.
-/

namespace Iraf.Plio

open SegmentWalk

/-- The ranges written so far and the position after the last pixel. -/
structure RangeOut where
  rl : List RlElem
  x : Int

/-- Output a nonzero range. -/
def RangeOut.put (o : RangeOut) (_nleft pv np : Int) : RangeOut :=
  { rl :=
      if pv > 0 then
        match o.rl.getLast? with
        | some p =>
            if pv = p.v ∧ o.x = p.x + p.n then
              -- Merge new range with previous one.
              o.rl.dropLast ++ [{ p with n := p.n + np }]
            else o.rl ++ [⟨o.x, np, pv⟩]
        | none => o.rl ++ [⟨o.x, np, pv⟩]
      else o.rl
    x := o.x + np }

/-- The main loop of `pl_rangerop`. -/
def rangeWalk (a : RopArgs (List RlElem)) : Walk Int RlDes RangeOut :=
  { src := rlReader a.src, dst := rlReader a.dst, needSrc := RNeedSrc a.rop,
    zero := 0, combine := ropPixel a.rop a.srcMaxval a.dstMaxval,
    put := RangeOut.put, ds := a.ds, npix := a.npix, far := arb }

/-- The output after the main loop. -/
def rangeOut (a : RopArgs (List RlElem)) : RangeOut :=
  let dSrc :=
    if RNeedSrc a.rop then
      (rlReader a.src).advance a.xs arb 1 (plrInit a.src)
    else ⟨0, 0, 0, 0⟩
  ((rangeWalk a).loop arb ⟨dSrc, plrInit a.dst, a.ds - 1, false, ⟨[], 1⟩⟩).out

/-- The result list: the first element of the destination list with a new
length, then the ranges. -/
def plRangerop (a : RopArgs (List RlElem)) : List RlElem :=
  let rl := (rangeOut a).rl
  { rlElem a.dst 1 with x := rl.length + 1 } :: rl

/-! ## The ranges written -/

theorem RangesFrom.extend {len : Int} (n : Nat) {rs : List RlElem} :
    ∀ {pos : Int}, RangesFrom len pos rs →
      RangesFrom (len + n) pos rs ∧
        rangeCells (len + n) pos rs =
          rangeCells len pos rs ++ List.replicate n 0 := by
  induction rs with
  | nil =>
      intro pos h
      simp only [RangesFrom] at h ⊢
      have hcount : (len + n + 1 - pos).toNat = (len + 1 - pos).toNat + n := by
        omega
      exact ⟨by omega, by
        rw [rangeCells, rangeCells, hcount, List.replicate_append_replicate]⟩
  | cons r rs ih =>
      rintro pos ⟨hpos, hn, hrest⟩
      obtain ⟨hfrom, hcells⟩ := ih hrest
      exact ⟨⟨hpos, hn, hfrom⟩, by simp [rangeCells, hcells]⟩

theorem RangesFrom.concat {len : Int} {r : RlElem} (hx : r.x = len + 1)
    (hn : 0 < r.n) {rs : List RlElem} :
    ∀ {pos : Int}, RangesFrom len pos rs →
      RangesFrom (len + r.n) pos (rs ++ [r]) ∧
        rangeCells (len + r.n) pos (rs ++ [r]) =
          rangeCells len pos rs ++ List.replicate r.n.toNat r.v := by
  induction rs with
  | nil =>
      intro pos h
      simp only [RangesFrom] at h
      have hend : (len + r.n + 1 - (len + 1 + r.n)).toNat = 0 := by omega
      refine ⟨⟨by omega, hn, by simp only [RangesFrom]; omega⟩, ?_⟩
      simp only [List.nil_append, rangeCells, hx, hend, List.replicate_zero,
        List.append_nil]
  | cons r' rs ih =>
      rintro pos ⟨hpos, hn', hrest⟩
      obtain ⟨hfrom, hcells⟩ := ih hrest
      exact ⟨⟨hpos, hn', hfrom⟩, by simp [rangeCells, hcells]⟩

theorem RangesFrom.init {len : Int} {r : RlElem} {rs : List RlElem} :
    ∀ {pos : Int}, RangesFrom len pos (rs ++ [r]) →
      RangesFrom (r.x - 1) pos rs ∧ 0 < r.n := by
  induction rs with
  | nil =>
      rintro pos ⟨hpos, hn, -⟩
      exact ⟨by simp only [RangesFrom]; omega, hn⟩
  | cons r' rs ih =>
      rintro pos ⟨hpos, hn, hrest⟩
      exact ⟨⟨hpos, hn, (ih hrest).1⟩, (ih hrest).2⟩

/-- The output stands for the pixels it has been given. -/
structure RangeOut.Writes (o : RangeOut) (line : List Int) : Prop where
  x : o.x = line.length + 1
  ranges : RangesFrom line.length 1 o.rl
  cells : rangeCells line.length 1 o.rl = line

theorem RangeOut.Writes.put {o : RangeOut} {line : List Int} (h : o.Writes line)
    {v : Int} (hv : 0 ≤ v) {np : Nat} (hnp : 0 < np) (nleft : Int) :
    (o.put nleft v np).Writes (line ++ List.replicate np v) := by
  obtain ⟨hx, hranges, hcells⟩ := h
  have hlen : ((line ++ List.replicate np v).length : Int) =
      line.length + np := by simp
  have hx' : o.x + np = ((line ++ List.replicate np v).length : Int) + 1 := by
    omega
  have happend : RangesFrom (line.length + (np : Int)) 1
        (o.rl ++ [⟨o.x, np, v⟩]) ∧
      rangeCells (line.length + (np : Int)) 1 (o.rl ++ [⟨o.x, np, v⟩]) =
        line ++ List.replicate np v := by
    have hconcat := RangesFrom.concat (r := ⟨o.x, np, v⟩) hx
      (by simp only; omega) hranges
    rw [hcells] at hconcat
    simpa using hconcat
  unfold RangeOut.put
  by_cases hpv : v > 0
  · simp only [if_pos hpv]
    split
    next p hlast =>
      by_cases hmerge : v = p.v ∧ o.x = p.x + p.n
      · rw [if_pos hmerge]
        have hsplit : o.rl = o.rl.dropLast ++ [p] :=
          (List.dropLast_append_getLast? p hlast).symm
        generalize o.rl.dropLast = init at hsplit
        rw [hsplit] at hranges hcells
        obtain ⟨hinit, hn⟩ := hranges.init
        have hbefore := RangesFrom.concat (r := p) (by omega) hn hinit
        have hafter := RangesFrom.concat (r := { p with n := p.n + np })
          (show p.x = p.x - 1 + 1 by omega) (by simp only; omega) hinit
        have hend : p.x - 1 + p.n = line.length := by omega
        have hend' : p.x - 1 + (p.n + (np : Int)) = line.length + np := by omega
        have hcount : (p.n + (np : Int)).toNat = p.n.toNat + np := by omega
        simp only [hend', hcount, ← List.replicate_append_replicate] at hafter
        rw [hend, hcells] at hbefore
        refine ⟨hx', hlen ▸ hafter.1, ?_⟩
        simp only
        rw [hlen, hafter.2, ← List.append_assoc, ← hbefore.2, hmerge.1]
      · rw [if_neg hmerge]
        exact ⟨hx', hlen ▸ happend.1, by simp only; rw [hlen, happend.2]⟩
    next => exact ⟨hx', hlen ▸ happend.1, by simp only; rw [hlen, happend.2]⟩
  · obtain rfl : v = 0 := by omega
    simp only [if_neg hpv]
    obtain ⟨hfrom, hspell⟩ := hranges.extend np
    exact ⟨hx', hlen ▸ hfrom, by simp only; rw [hlen, hspell, hcells]⟩

end Iraf.Plio
