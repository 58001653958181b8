import Iraf.Plio.ListSegments
import Iraf.Plio.MaskPut

/-!
# Testing a section for emptiness

`pl_sectnotempty` tests the lines of a section with `pll_empty`, which answers from the
segment that the section begins in.  A section whose zeros are cut into several segments
is taken for one that is not empty.
-/

namespace Iraf.Plio

open Odometer RunLength SegmentWalk

/-- `pll_empty`.  The loop over segments that follows in the source is not reached. -/
def pllEmpty (llSrc : List Int) (xs npix : Int) : Bool :=
  let dSrc := (llReader llSrc).advance xs arb 1 (pllInit llSrc)
  if dSrc.nleft < npix then false
  else (pllGetseg llSrc dSrc npix).2 = 0

/-- A turn of the loop of `pl_sectnotempty`. -/
def notemptyLine (pl : Mask) (xs npix : Int) (_ : Unit) (v : List Int) :
    Except PlErr (Unit ⊕ Bool) := do
  let llSrc ← plReference pl v
  if llSrc ≠ plEmptyline ∧ pllEmpty (pl.ll llSrc) xs npix = false then return .inr true
  return .inl ()

/-- `pl_sectnotempty`, with a bound on the lines it looks at. -/
def plSectnotempty (pl : Mask) (v1 v2 : List Int) (ndim : Nat) (fuel : Nat) :
    Option (Except PlErr Bool) :=
  let vs := (sectVectors v1 v2 ndim).1
  let vn := (sectVectors v1 v2 ndim).2
  let ve := (plsslv pl vs vn).2
  StepMachine.run
    (turn (notemptyLine pl (word vs 1) (word vn 1))
      (fun v => nextAfter (plloop v vs ve pl.naxes)) fun _ => false)
    fuel ((), (plsslv pl vs vn).1)

/-! ## One line -/

theorem Packs.unique {ll : List Int} {is js : List Instr} (h : Packs ll is)
    (h' : Packs ll js) : is = js :=
  (h.pllEqual_iff h').mp ((h.pllEqual_iff h).mpr rfl)

/-- The `npix` pixels from `xs` on lie in one segment of the list. -/
def OneSegment (ll : List Int) (xs npix : Int) : Prop :=
  ∃ is, Packs ll is ∧ npix ≤ leftAt (listSegments 1 is) (xs - 1).toNat

/-- `pll_empty` says that pixels are zero when they are, and lie in one segment. -/
theorem pllEmpty_iff {ll line : List Int} (h : Encodes ll line) (hline : line.length ≤ arb)
    {xs npix : Int} (hxs : 1 ≤ xs) (hnpix : 1 ≤ npix) (hlast : xs + npix - 1 ≤ line.length) :
    pllEmpty ll xs npix = true ↔ OneSegment ll xs npix ∧
      ∀ x, xs ≤ x → x ≤ xs + npix - 1 → line.getD (x - 1).toNat 0 = 0 := by
  obtain ⟨is, hpacks, rfl⟩ := encodes_iff.mp h
  have hpixels := segPixels_listSegments 1 is
  have hqueue := (llReader_queues ll).advance (listSegments 1 is) arb (pllInit_queue hpacks)
    hxs (by rw [hpixels]; omega) (by omega)
  have hskip := segPixels_skip (listSegments 1 is) (xs - 1).toNat
  rw [hpixels] at hskip
  have hone : OneSegment ll xs npix ↔ npix ≤ leftAt (listSegments 1 is) (xs - 1).toNat := by
    constructor
    · rintro ⟨js, hjs, hleft⟩
      obtain rfl := hpacks.unique hjs
      exact hleft
    · exact fun hleft => ⟨is, hpacks, hleft⟩
  rw [hone, leftAt]
  unfold pllEmpty
  generalize (llReader ll).advance xs arb 1 (pllInit ll) = dSrc at hqueue ⊢
  cases hsegs : skip (listSegments 1 is) (xs - 1).toNat with
  | nil =>
      rw [hsegs, segPixels_nil] at hskip
      have hlen := congrArg List.length hskip
      rw [List.length_nil, List.length_drop] at hlen
      omega
  | cons s segs =>
      obtain ⟨n, v⟩ := s
      rw [hsegs] at hqueue
      have hleft : dSrc.nleft = n := ((llReader_queues ll).head hqueue).2
      have hvalue : (pllGetseg ll dSrc npix).2 = v := (llReader_queues ll).value hqueue npix
      have hsame : ∀ x, xs ≤ x → x ≤ xs + n - 1 → (expand 1 is).getD (x - 1).toNat 0 = v := by
        intro x hlo hhi
        have hindex : (x - 1).toNat = (xs - 1).toNat + (x - xs).toNat := by omega
        rw [hindex, ← hpixels]
        exact getD_of_skip hsegs (by omega) 0
      simp only [hleft, hvalue, List.head?_cons, Option.map_some, Option.getD_some]
      by_cases hmore : (n : Int) < npix
      · rw [if_pos hmore]
        exact iff_of_false (by decide) fun hfits => absurd hfits.1 (by omega)
      · rw [if_neg hmore, decide_eq_true_eq]
        constructor
        · rintro rfl
          exact ⟨by omega, fun x hlo hhi => hsame x hlo (by omega)⟩
        · intro hzero
          rw [← hsame xs (Int.le_refl xs) (by omega)]
          exact hzero.2 xs (Int.le_refl xs) (by omega)

/-! ## The section -/

/-- The test ends, and its answer is whether some pixel of the section is not zero. -/
def NotemptyExact (m : Mask) (axlen : List Int) (rows : List (List Int))
    (v1 v2 : List Int) (ndim : Nat) : Prop :=
  ∃ fuel b, plSectnotempty m v1 v2 ndim fuel = some (.ok b) ∧
    (b = true ↔ ∃ v, InSection axlen v1 v2 ndim v ∧ maskPixel axlen rows v ≠ 0)

/-- The line through `w` is the empty line, or its part in the section is one segment. -/
def LineSettled (m : Mask) (axlen v1 v2 : List Int) (ndim : Nat) (w : List Int) : Prop :=
  m.lpAt ((lineNumber axlen w : Int) + 1) = plEmptyline ∨
    OneSegment (m.ll (m.lpAt ((lineNumber axlen w : Int) + 1))) (sectAxis v1 v2 ndim 1).1
      (sectAxis v1 v2 ndim 1).2

/-- The line through `w` is taken for one with pixels in the section. -/
def LineFlagged (m : Mask) (axlen v1 v2 : List Int) (ndim : Nat) (w : List Int) : Prop :=
  m.lpAt ((lineNumber axlen w : Int) + 1) ≠ plEmptyline ∧
    pllEmpty (m.ll (m.lpAt ((lineNumber axlen w : Int) + 1))) (sectAxis v1 v2 ndim 1).1
      (sectAxis v1 v2 ndim 1).2 = false

instance (m : Mask) (axlen v1 v2 : List Int) (ndim : Nat) :
    DecidablePred (LineFlagged m axlen v1 v2 ndim) := fun w => by
  unfold LineFlagged
  infer_instance

/-- The line through `w` has only zeros in the section. -/
def LineBlank (axlen : List Int) (rows : List (List Int)) (v1 v2 : List Int) (ndim : Nat)
    (w : List Int) : Prop :=
  ∀ x, (sectAxis v1 v2 ndim 1).1 ≤ x →
    x ≤ (sectAxis v1 v2 ndim 1).1 + (sectAxis v1 v2 ndim 1).2 - 1 →
    (rows.getD (lineNumber axlen w) []).getD (x - 1).toNat 0 = 0

section Exact

variable {m : Mask} {axlen v1 v2 w : List Int} {rows : List (List Int)} {ndim : Nat}
  (hax : Axes axlen) (hm : m.Draws axlen rows) (hlen : word axlen 1 ≤ arb)
  (hv1 : InMask axlen v1 ndim) (hv2 : InMask axlen v2 ndim)
include hax hm hlen hv1 hv2

theorem lineFlagged_iff (hw : w ∈ sectLines axlen.length v1 v2 ndim) :
    LineFlagged m axlen v1 v2 ndim w ↔
      ¬ LineSettled m axlen v1 v2 ndim w ∨ ¬ LineBlank axlen rows v1 v2 ndim w := by
  obtain ⟨hlo, hsize, hhi⟩ := sectAxis_bounds hax hv1 hv2 (Nat.le_refl 1) hax.1
  rw [Nat.cast_one] at hhi
  obtain ⟨row, hrow, -, hencodes, hcount⟩ :=
    hm.reference hax (onLine_sectLines hax hv1 hv2 hw)
  have hget : rows.getD (lineNumber axlen w) [] = row := by
    rw [List.getD_eq_getElem?_getD, hrow]
    rfl
  have hempty := pllEmpty_iff hencodes (by omega) hlo hsize (by omega)
  have hblank : m.lpAt ((lineNumber axlen w : Int) + 1) = plEmptyline →
      LineBlank axlen rows v1 v2 ndim w := by
    intro hzero x _ _
    rw [hget, List.getD_eq_getElem?_getD]
    cases hj : row[(x - 1).toNat]? with
    | none => rfl
    | some p => exact hm.empty _ _ hrow hzero p (List.mem_of_getElem? hj)
  rw [← hget] at hempty
  unfold LineFlagged LineSettled
  rw [← Bool.not_eq_true, hempty, ← LineBlank]
  tauto

omit hlen in
theorem plSectnotempty_run {fuel : Nat}
    (hfuel : (sectLines axlen.length v1 v2 ndim).length ≤ fuel) :
    plSectnotempty m v1 v2 ndim fuel = some (.ok (decide
      (∃ w ∈ sectLines axlen.length v1 v2 ndim, LineFlagged m axlen v1 v2 ndim w))) := by
  have hnaxes := hm.axes.1
  have hstart : word (sectVectors v1 v2 ndim).1 1 = (sectAxis v1 v2 ndim 1).1 := rfl
  have hsize : word (sectVectors v1 v2 ndim).2 1 = (sectAxis v1 v2 ndim 1).2 := rfl
  have hbody : ∀ w ∈ sectLines axlen.length v1 v2 ndim,
      notemptyLine m (sectAxis v1 v2 ndim 1).1 (sectAxis v1 v2 ndim 1).2 () w =
        .ok (if LineFlagged m axlen v1 v2 ndim w then .inr true else .inl ()) := by
    intro w hw
    obtain ⟨-, -, href, -, -⟩ := hm.reference hax (onLine_sectLines hax hv1 hv2 hw)
    rw [notemptyLine, href]
    change (if LineFlagged m axlen v1 v2 ndim w then _ else _) = _
    split_ifs <;> rfl
  rw [plSectnotempty, hstart, hsize,
    sect_run (hnaxes ▸ hax.1) (hnaxes ▸ hax.2.1) _ _ (hnaxes ▸ hfuel), hnaxes, visit_any hbody]

omit hlen in
theorem plSectnotempty_ends : ∃ fuel, plSectnotempty m v1 v2 ndim fuel =
    some (.ok (decide (∃ w ∈ sectLines axlen.length v1 v2 ndim,
      LineFlagged m axlen v1 v2 ndim w))) :=
  ⟨_, plSectnotempty_run hax hm hv1 hv2 (Nat.le_refl _)⟩

omit hlen in
theorem notemptyExact_flags : NotemptyExact m axlen rows v1 v2 ndim ↔
    ((∃ w ∈ sectLines axlen.length v1 v2 ndim, LineFlagged m axlen v1 v2 ndim w) ↔
      ∃ v, InSection axlen v1 v2 ndim v ∧ maskPixel axlen rows v ≠ 0) := by
  obtain ⟨fuel, hrun⟩ := plSectnotempty_ends hax hm hv1 hv2
  constructor
  · rintro ⟨fuel', b, hb, hiff⟩
    have hsame := StepMachine.Ends.unique ⟨fuel, hrun⟩ ⟨fuel', hb⟩
    rw [← Except.ok.inj hsame, decide_eq_true_eq] at hiff
    exact hiff
  · intro hiff
    exact ⟨fuel, _, hrun, by rw [decide_eq_true_eq]; exact hiff⟩

/-- In a section of the mask, the test is exact when some pixel is not zero, and else when
every line of the section is the empty line or one segment there. -/
theorem notemptyExact_iff : NotemptyExact m axlen rows v1 v2 ndim ↔
    (∃ v, InSection axlen v1 v2 ndim v ∧ maskPixel axlen rows v ≠ 0) ∨
      ∀ w ∈ sectLines axlen.length v1 v2 ndim, LineSettled m axlen v1 v2 ndim w := by
  have hflagged := fun w => @lineFlagged_iff m axlen v1 v2 w rows ndim hax hm hlen hv1 hv2
  have hpixel : (∃ v, InSection axlen v1 v2 ndim v ∧ maskPixel axlen rows v ≠ 0) ↔
      ∃ w ∈ sectLines axlen.length v1 v2 ndim, ¬ LineBlank axlen rows v1 v2 ndim w := by
    rw [exists_inSection_iff hax rows (· ≠ 0)]
    refine exists_congr fun w => and_congr_right fun _ => ?_
    simp only [LineBlank, not_forall, exists_prop]
  rw [notemptyExact_flags hax hm hv1 hv2, hpixel]
  constructor
  · intro hiff
    by_cases hfound : ∃ w ∈ sectLines axlen.length v1 v2 ndim,
        ¬ LineBlank axlen rows v1 v2 ndim w
    · exact .inl hfound
    · right
      intro w hw
      by_contra hunsettled
      exact hfound (hiff.mp ⟨w, hw, (hflagged w hw).mpr (.inl hunsettled)⟩)
  · intro hcond
    constructor
    · rintro ⟨w, hw, hflag⟩
      rcases hcond with hfound | hsettled
      · exact hfound
      · rcases (hflagged w hw).mp hflag with hunsettled | hpixels
        · exact absurd (hsettled w hw) hunsettled
        · exact ⟨w, hw, hpixels⟩
    · rintro ⟨w, hw, hpixels⟩
      exact ⟨w, hw, (hflagged w hw).mpr (.inr hpixels)⟩

end Exact

/-! ## A line with many zeros -/

/-- Zeros, and one pixel after `n` of them. -/
def lastPixel (n : Nat) : Int → Int := fun i => if i = n + 1 then 1 else 0

theorem pixels_lastPixel (n : Nat) :
    pixels (lastPixel n) 1 (n + 1) = List.replicate n 0 ++ [1] := by
  have hzeros : pixels (lastPixel n) 1 n = List.replicate n 0 := by
    rw [← pixels_zero 1 n]
    apply List.map_congr_left
    intro k hk
    have hlast : (1 : Int) + (k : Nat) ≠ n + 1 := by
      have := List.mem_range.mp hk
      omega
    rw [lastPixel, if_neg hlast]
  rw [← hzeros]
  unfold pixels
  rw [List.range_succ, List.map_append, List.map_singleton, lastPixel, if_pos (Int.add_comm _ _)]
  rfl

theorem length_lastPixel : (plP2l (lastPixel 4999) 1 5000).length < 2 ^ 30 := by
  have hruns : ∀ n : Nat, lineRuns (List.replicate (n + 1) (0 : Int) ++ [1]) =
      ⟨[], ⟨n + 1, 1, 1⟩⟩ := by
    intro n
    rw [lineRuns, scan_append]
    change scan (lineRuns (List.replicate (n + 1) 0)) [1] = _
    rw [lineRuns_zeros]
    rfl
  have hpack := plP2l_eq (lastPixel 4999) 1 (show (0 : Int) < (4999 + 1 : Nat) by decide)
  rw [Int.toNat_natCast, pixels_lastPixel] at hpack
  change plP2l (lastPixel 4999) 1 5000 = packLine 4094 _ at hpack
  rw [hpack, packLine, hruns 4998]
  decide

theorem written_lastPixel : ∃ m, Written [5000] m [List.replicate 4999 0 ++ [1]] := by
  have hax : Axes [5000] := by decide
  have hempty : EmptyLineFits (word [5000] 1) := by decide
  have hline : OnLine [5000] [1] := by
    intro i hlo hhi
    exact absurd (Nat.le_trans hlo hhi) (by decide)
  obtain ⟨m, s, hm, hinv⟩ :=
    plSsize_inv Descriptor.opened.counts hax hempty 1 ⟨1, Int.one_pos⟩
  have hsized : Written [5000] m (picture [5000] []) := .sized .opened hempty hm
  obtain ⟨-, -, hold, -, -⟩ := (hsized.draws hax).reference hax hline
  have hencodes := @plP2l_encodes (lastPixel 4999) 1 5000 (by decide) (fun i _ _ => by
    unfold lastPixel
    split <;> decide) length_lastPixel []
  have hdirect : ∀ old, (m.linePut [1] 27 5000 pixSrc old).Direct := by
    intro old
    have hneed : ¬ RNeedDst pixSrc := by decide
    exact ⟨hneed, rfl, (hinv.axes.axlenAt_one hax).symm⟩
  have hstore : Plio.plPlp (m.linePut [1] 27 5000 pixSrc
      (m.lpAt ((lineNumber [5000] [1] : Int) + 1))) (lastPixel 4999) =
        plP2l (lastPixel 4999) 1 5000 := by
    rw [Plio.plPlp, LinePut.store, if_pos (hdirect _)]
    rfl
  have hcount : (5000 : Int).toNat = 4999 + 1 := by decide
  rw [List.append_nil, hcount, pixels_lastPixel, ← hstore] at hencodes
  obtain ⟨is, hpacks, hexpand⟩ := encodes_iff.mp hencodes
  obtain ⟨m', s', hm', -⟩ := hinv.update hax hline hpacks ⟨1, Int.one_pos⟩
  rw [← Mask.plPlp_eq hold] at hm'
  have hfull : (List.replicate 4999 (0 : Int) ++ [1]).length = (word [5000] 1).toNat := by
    rw [List.length_append, List.length_replicate]
    rfl
  exact ⟨m', hsized.plp hline hold hencodes hfull hm'⟩

theorem inMask_lastPixel {x : Int} (h : 1 ≤ x ∧ x ≤ 5000) : InMask [5000] [x] 1 := by
  intro i hlo hhi _
  obtain rfl : i = 1 := Nat.le_antisymm hhi hlo
  exact h

/-- The zeros before the last pixel are taken for a section that is not empty. -/
theorem not_notemptyExact_lastPixel :
    ∃ m, Written [5000] m [List.replicate 4999 0 ++ [1]] ∧
      InMask [5000] [1] 1 ∧ InMask [5000] [4999] 1 ∧
      ¬ NotemptyExact m [5000] [List.replicate 4999 0 ++ [1]] [1] [4999] 1 := by
  have hax : Axes [5000] := by decide
  have hv1 : InMask [5000] [1] 1 := inMask_lastPixel (by decide)
  have hv2 : InMask [5000] [4999] 1 := inMask_lastPixel (by decide)
  obtain ⟨m, hm⟩ := written_lastPixel
  refine ⟨m, hm, hv1, hv2, fun hexact => ?_⟩
  have hdraws := hm.draws hax
  have hline : [1] ∈ sectLines [5000].length [1] [4999] 1 := by decide
  have hflagged : LineFlagged m [5000] [1] [4999] 1 [1] := by
    rw [lineFlagged_iff hax hdraws (by decide) hv1 hv2 hline]
    left
    rintro (hzero | ⟨is, hpacks, hleft⟩)
    · have hmem : (1 : Int) ∈ List.replicate 4999 0 ++ [1] :=
        List.mem_append_right _ (List.mem_singleton.mpr rfl)
      exact absurd (hdraws.empty 0 _ rfl hzero 1 hmem) (by decide)
    · obtain ⟨nref, blen, rest, -, hok, -⟩ := hpacks
      have hle := leftAt_le (listSegments_le hok 1) 0
      have hfits : (4999 : Int) ≤ leftAt (listSegments 1 is) 0 := hleft
      omega
  obtain ⟨v, hv, hpixel⟩ := ((notemptyExact_flags hax hdraws hv1 hv2).mp hexact).mp
    ⟨[1], hline, hflagged⟩
  have hfirst : 1 ≤ word v 1 ∧ word v 1 ≤ 4999 := hv 1 (by decide) (by decide)
  have hnumber : lineNumber [5000] v = 0 := rfl
  have hin : (word v 1 - 1).toNat < (List.replicate 4999 (0 : Int)).length := by
    rw [List.length_replicate]
    omega
  apply hpixel
  rw [maskPixel, hnumber, List.getD_cons_zero, List.getD_append _ _ _ _ hin,
    List.getD_eq_getElem _ _ hin, List.getElem_replicate]

theorem notemptyExact_lastPixel :
    ∃ m, Written [5000] m [List.replicate 4999 0 ++ [1]] ∧
      NotemptyExact m [5000] [List.replicate 4999 0 ++ [1]] [5000] [4000] 1 := by
  obtain ⟨m, hm⟩ := written_lastPixel
  have hax : Axes [5000] := by decide
  refine ⟨m, hm, (notemptyExact_iff hax (hm.draws hax) (by decide)
    (inMask_lastPixel (by decide)) (inMask_lastPixel (by decide))).mpr (.inl ?_)⟩
  refine ⟨[5000], fun i hlo hhi => ?_, ?_⟩
  · obtain rfl : i = 1 := Nat.le_antisymm hhi hlo
    decide
  · have hnumber : lineNumber [5000] [5000] = 0 := rfl
    have hlast : (word [5000] 1 - 1).toNat = 4999 := rfl
    rw [maskPixel, hnumber, hlast, List.getD_cons_zero,
      List.getD_append_right _ _ _ _ (Nat.le_of_eq List.length_replicate),
      List.length_replicate]
    decide

end Iraf.Plio
