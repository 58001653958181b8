import Mathlib.Tactic.IntervalCases
import Iraf.Plio.MaskRuns
import Iraf.Pmio.GetSegment

/-!
# Reading a region through a mask

The calls of `mio_glseg` after `mio_setrange` return the masked pixels of the region, in
storage order, and then EOF.  A further call steps the loop vector from where it was left,
past the end of the last axis.
-/

namespace Iraf.Pmio

open Plio Odometer StepMachine Cursor

variable {σ Px : Type}

/-! ## Calls -/

/-- What a call returns, when its loop takes the turns that it needs. -/
def Returns (im : Image σ Px) (mp : Mio σ) (out : Mio σ × Option Segment) : Prop :=
  ∃ fuel, mioGlseg im mp fuel = .ok out

/-- What a call does after its loop. -/
def Mio.finish (im : Image σ Px) (r : Mio σ × LoopStatus) :
    Except MioErr (Mio σ × Option Segment) :=
  match r with
  | (mp, .done) => .ok (mp, none)
  | (mp, .again) => (mp.imageLine im).map fun mp => (mp.nextSegment.1, some mp.nextSegment.2)

theorem returns_iff {im : Image σ Px} {mp mp' : Mio σ} (hstart : mp.start = .ok mp')
    {out : Mio σ × Option Segment} :
    Returns im mp out ↔ ∃ r, Ends Mio.maskLine mp' (.ok r) ∧ Mio.finish im r = .ok out := by
  have hcall : ∀ fuel, mioGlseg im mp fuel = .ok out ↔
      ∃ r, run Mio.maskLine fuel mp' = some (.ok r) ∧ Mio.finish im r = .ok out := by
    intro fuel
    unfold mioGlseg
    simp only [hstart, bind, Except.bind]
    cases run Mio.maskLine fuel mp' with
    | none => simp
    | some result =>
        cases result with
        | error e => simp
        | ok r =>
            obtain ⟨mp'', status⟩ := r
            simp only [Option.some.injEq, Except.ok.injEq, exists_eq_left']
            cases status with
            | done => exact Iff.rfl
            | again =>
                unfold Mio.finish
                cases mp''.imageLine im with
                | error e => exact Iff.rfl
                | ok mp₃ => exact Iff.rfl
  constructor
  · rintro ⟨fuel, hok⟩
    obtain ⟨r, hrun, hfinish⟩ := (hcall fuel).mp hok
    exact ⟨r, ⟨fuel, hrun⟩, hfinish⟩
  · rintro ⟨r, ⟨fuel, hrun⟩, hfinish⟩
    exact ⟨fuel, (hcall fuel).mpr ⟨r, hrun, hfinish⟩⟩

theorem returns_start {im : Image σ Px} {mp mp' : Mio σ} (hstart : mp.start = .ok mp') (hactive : mp'.active = true)
    {out : Mio σ × Option Segment} : Returns im mp out ↔ Returns im mp' out := by
  have hstart' : mp'.start = .ok mp' := by rw [Mio.start, if_pos hactive]
  rw [returns_iff hstart, returns_iff hstart']

theorem Returns.unique {im : Image σ Px} {mp : Mio σ} {a b : Mio σ × Option Segment}
    (ha : Returns im mp a) (hb : Returns im mp b) : a = b := by
  cases hstart : mp.start with
  | error e =>
      obtain ⟨fuel, hok⟩ := ha
      unfold mioGlseg at hok
      simp only [hstart, bind, Except.bind] at hok
      cases hok
  | ok mp' =>
      obtain ⟨r, hr, hfinish⟩ := (returns_iff hstart).mp ha
      obtain ⟨r', hr', hfinish'⟩ := (returns_iff hstart).mp hb
      obtain rfl := Except.ok.inj (hr.unique hr')
      exact Except.ok.inj (hfinish.symm.trans hfinish')

/-! ## Segments -/

/-- The coordinates of the first pixel of a segment in the mask. -/
def Segment.first (naxes : Nat) (v1 v2 : List Int) (ndim : Nat) (reg : Bool) (s : Segment) :
    List Int :=
  (if reg then
    List.zipWith (fun x start => x + start - 1) s.v
      ((List.range ndim).map fun k => (sectAxis v1 v2 ndim (k + 1)).1)
  else s.v) ++ List.replicate (naxes - ndim) 1

/-- The pixels of a segment that begins at `v`. -/
def segmentPixels (v : List Int) (npix : Int) : List (List Int) :=
  (Int.range (word v 1) (word v 1 + npix)).map (· :: v.tail)

/-- A segment that begins at `v`: its pixels have the mask value that is returned, which
is not zero, and `ptr` is the address of its first pixel. -/
structure SegmentRight (im : Image σ Px) (pixel : List Int → Px) (axlen : List Int)
    (rows : List (List Int)) (mp : Mio σ) (s : Segment) (v : List Int) : Prop where
  nonempty : 0 < s.npix
  value : s.mval ≠ 0
  mask : ∀ p ∈ segmentPixels v s.npix, maskPixel axlen rows p = s.mval
  data : ∀ k, 0 ≤ k → k < s.npix →
    im.mem mp.im (s.ptr + k) = pixel ((word v 1 + k) :: v.tail)

theorem mioSetrange_vectors (im : Image σ Px) (mp : Mio σ) (v1 v2 : List Int) (ndim : Nat) :
    (mioSetrange im mp v1 v2 ndim).vs = (sectVectors v1 v2 ndim).1 ∧
      (mioSetrange im mp v1 v2 ndim).vn = (sectVectors v1 v2 ndim).2 := by
  unfold mioSetrange sectVectors
  simp only [List.map_map]
  constructor
  · apply List.map_congr_left
    intro k _
    unfold sectAxis
    simp only [Function.comp_apply]
    split_ifs with hdim hle
    · exact min_eq_left hle
    · exact min_eq_right (by omega)
    · rfl
  · apply List.map_congr_left
    intro k _
    unfold sectAxis
    simp only [Function.comp_apply]
    split_ifs with hdim hle
    · rw [abs_of_nonneg (by omega)]
    · rw [abs_of_nonpos (by omega)]
      omega
    · rfl

section Region

variable {im : Image σ Px} {pixel : List Int → Px} {m : Mask} {axlen v1 v2 : List Int}
  {rows : List (List Int)} {ndim : Nat} {reg : Bool} {mp : Mio σ}
  (hax : Axes axlen) (hm : m.Draws axlen rows) (hpx : ∀ line ∈ rows, ∀ p ∈ line, 0 ≤ p)
  (hlen : word axlen 1 ≤ arb) (hv1 : InMask axlen v1 ndim) (hv2 : InMask axlen v2 ndim)
  (hlo : 1 ≤ ndim) (hhi : ndim ≤ axlen.length)
include hax hm hpx hlen hv1 hv2 hlo hhi

omit hax hm hpx hlen hv1 hv2 in
/-- The coordinates that are returned are those of the first pixel of the range. -/
theorem first_nextSegment (h : mp.OnRegion m axlen v1 v2 ndim reg) {w rest : List Int}
    (hv : mp.v = w ++ rest) (hrow : Row axlen.length v1 v2 ndim w) :
    mp.nextSegment.2.first axlen.length v1 v2 ndim reg = (rlElem mp.rl mp.rli).x :: w.tail := by
  have hlength := hrow.length
  have hcoord : ∀ k, k < ndim - 1 → word mp.v (k + 2 : Nat) = word w (k + 2 : Nat) := by
    intro k hk
    rw [hv, word_append (by omega) (by omega)]
  have hvs := h.word_vs (Nat.le_refl 1) hlo
  rw [Nat.cast_one] at hvs
  obtain ⟨n, rfl⟩ : ∃ n, ndim = n + 1 := ⟨ndim - 1, by omega⟩
  rw [hrow.tail_eq hlo hhi, Segment.first, ← List.cons_append]
  congr 1
  cases reg with
  | false =>
      simp only [Mio.nextSegment, h.regcoords, h.dims, Bool.false_eq_true, if_false, List.map_map]
      congr 1
      apply List.map_congr_left
      intro k hk
      exact hcoord k (List.mem_range.mp hk)
  | true =>
      simp only [Mio.nextSegment, h.regcoords, h.dims, if_true, List.map_map]
      rw [List.range_succ_eq_map, List.map_cons, List.map_map, List.zipWith_cons_cons, hvs,
        Nat.add_sub_cancel, List.zipWith_map, List.zipWith_self]
      congr 1
      · simp only [Nat.zero_add]
        omega
      · apply List.map_congr_left
        intro k hk
        have hlt := List.mem_range.mp hk
        have hstart := h.word_vs (i := k + 2) (by omega) (by omega)
        simp only [Function.comp_apply, hcoord k hlt, hstart]
        change _ + (sectAxis v1 v2 (n + 1) (k + 2)).1 - 1 = _
        omega

omit hax hm hpx hlen hv1 hv2 hlo hhi in
theorem Mio.At.nextSegment {w : List Int} {r : RlElem} {q : List RlElem} {later : List (List Int)}
    (h : mp.At im pixel m axlen v1 v2 ndim reg w (r :: q) later)
    (hloaded : mp.Loaded im pixel v1 v2 ndim w) :
    mp.nextSegment.1.At im pixel m axlen v1 v2 ndim reg w q later := by
  obtain ⟨hon, hmem⟩ := h.current (List.cons_ne_nil r q)
  constructor
  · exact h.region.reads _ _ _ _ _
  · obtain ⟨before, after, hrl, hrli, hcount⟩ := h.queue.parts
    refine ⟨before ++ [r], after, ?_, ?_, ?_⟩
    · change mp.rl = _
      rw [hrl]
      simp
    · change mp.rli + 1 = _
      rw [hrli, List.length_append]
      rfl
    · change rlLen mp.rl = _
      rw [hcount, List.length_append, List.length_cons, List.length_singleton]
      omega
  · exact h.vector
  · exact h.rows
  · exact h.onLine
  · exact fun _ => ⟨hon, fun t ht => hmem t (List.mem_cons_of_mem r ht)⟩
  · exact fun _ _ => hloaded

theorem Mio.At.next (him : im.Reads axlen pixel) {w : List Int} {q : List RlElem}
    {later : List (List Int)} (h : mp.At im pixel m axlen v1 v2 ndim reg w q later)
    {p : List Int × RlElem} {ps : List (List Int × RlElem)}
    (hpend : pending m axlen v1 v2 ndim w q later = p :: ps) :
    ∃ mp' s, Returns im mp (mp', some s) ∧
      (SegmentRight im pixel axlen rows mp' s (s.first axlen.length v1 v2 ndim reg) ∧
        segmentPixels (s.first axlen.length v1 v2 ndim reg) s.npix =
          p.2.positions.map (· :: p.1.tail)) ∧
      ∃ w' q' later', mp'.At im pixel m axlen v1 v2 ndim reg w' q' later' ∧
        pending m axlen v1 v2 ndim w' q' later' = ps := by
  have hstart : mp.start = .ok mp := by rw [Mio.start, if_pos h.region.active]
  rcases h.maskLine hax hm hpx hlen hv1 hv2 hlo hhi with
    ⟨mp₁, w', r, q', later', hends, hat, hsame, -⟩ | ⟨hnone, -⟩
  · obtain ⟨mp₂, hread, hat₂, hloaded, -, -⟩ := hat.imageLine hax hv1 hv2 hlo hhi him
    rw [hsame] at hpend
    obtain ⟨hp, hps⟩ := List.cons.inj hpend
    have hhead := hat₂.queue.head
    obtain ⟨rest, hv, horbit⟩ := hat₂.vector
    have hrow := hat₂.rows w' List.mem_cons_self
    obtain ⟨hon, hmem⟩ := hat₂.current (List.cons_ne_nil r q')
    obtain ⟨-, hranges, hvalues, hpixels⟩ := lineRanges_spec hax hm hv1 hv2 hpx hrow.length hon
    have hr := hmem r List.mem_cons_self
    obtain ⟨hrlo, hrn, hrhi⟩ := hranges.bounds r hr
    have hvs := hat₂.region.word_vs (Nat.le_refl 1) hlo
    rw [Nat.cast_one] at hvs
    have hfirst := first_nextSegment hlo hhi hat₂.region hv hrow
    rw [hhead] at hfirst
    have hnpix : mp₂.nextSegment.2.npix = r.n := congrArg RlElem.n hhead
    have hmval : mp₂.nextSegment.2.mval = r.v := congrArg RlElem.v hhead
    have hptr : mp₂.nextSegment.2.ptr = mp₂.lbp + r.x - (sectAxis v1 v2 ndim 1).1 := by
      rw [Mio.nextSegment, hhead, hvs]
    have hwhere : word (r.x :: w'.tail) 1 = r.x := rfl
    have hpix : segmentPixels (r.x :: w'.tail) r.n = r.positions.map (· :: w'.tail) := rfl
    refine ⟨mp₂.nextSegment.1, mp₂.nextSegment.2, ?_, ⟨?_, ?_⟩, w', q', later', ?_, hps⟩
    · refine (returns_iff hstart).mpr ⟨(mp₁, .again), hends, ?_⟩
      rw [Mio.finish, hread]
      rfl
    · rw [hfirst]
      constructor
      · rw [hnpix]
        exact hrn
      · rw [hmval]
        exact (hvalues r hr).ne'
      · rw [hnpix, hmval, hpix]
        intro p hp
        obtain ⟨x, hx, rfl⟩ := List.mem_map.mp hp
        have hrange := Int.mem_range_iff.mp hx
        rw [← hpixels x (by omega) (by omega)]
        exact hranges.value_of_mem hr hrange
      · rw [hnpix, hptr, hwhere]
        intro k hk hk'
        have haddress : mp₂.lbp + r.x - (sectAxis v1 v2 ndim 1).1 + k =
            mp₂.lbp + (r.x + k) - (sectAxis v1 v2 ndim 1).1 := by ring
        rw [haddress]
        exact hloaded (r.x + k) (by omega) (by omega)
    · rw [hfirst, hnpix, hpix, ← hp]
    · exact hat₂.nextSegment hloaded
  · rw [hnone] at hpend
    cases hpend

theorem Mio.At.stop (him : im.Reads axlen pixel) {w : List Int} {q : List RlElem}
    {later : List (List Int)} (h : mp.At im pixel m axlen v1 v2 ndim reg w q later)
    (hpend : pending m axlen v1 v2 ndim w q later = []) :
    ∃ mp', Returns im mp (mp', none) ∧ mp'.OnRegion m axlen v1 v2 ndim reg ∧ mp'.Queue [] ∧
      ∃ u ∈ w :: later, ∃ rest, plloop (u ++ rest) mp'.vs mp'.ve ndim = (mp'.v, .done) := by
  have hstart : mp.start = .ok mp := by rw [Mio.start, if_pos h.region.active]
  rcases h.maskLine hax hm hpx hlen hv1 hv2 hlo hhi with
    ⟨mp₁, w', r, q', later', -, -, hsame, -⟩ | ⟨-, mp', hends, hreg, hqueue, -, hdone⟩
  · rw [hpend] at hsame
    cases hsame
  · exact ⟨mp', (returns_iff hstart).mpr ⟨(mp', .done), hends, rfl⟩, hreg, hqueue, hdone⟩

variable (reg) in
omit hlen in
theorem mioSetrange_start (him : im.Reads axlen pixel) (hpm : mp.pm = m) :
    ∃ mp' w later, ((mioSetrange im mp v1 v2 ndim).setRegcoords reg).start = .ok mp' ∧
      mp'.At im pixel m axlen v1 v2 ndim reg w (lineRanges m axlen v1 v2 ndim w) later ∧
      sectLines axlen.length v1 v2 ndim = w :: later := by
  obtain ⟨hvs, hvn⟩ := mioSetrange_vectors im mp v1 v2 ndim
  obtain ⟨rest, later, hstarts, hends, hlines⟩ :=
    @plsslv_sect m v1 v2 ndim (hm.axes.1 ▸ hax.1) (hm.axes.1 ▸ hax.2.1)
  rw [hm.axes.1] at hstarts hends hlines
  obtain ⟨hstart, hend⟩ := @inner_split v1 v2 ndim axlen.length hlo hhi
  set vs := (sectVectors v1 v2 ndim).1 with hvsdef
  set vn := (sectVectors v1 v2 ndim).2 with hvndef
  obtain ⟨mp₀, hmp₀⟩ : ∃ mp₀ : Mio σ, mp₀ = (mioSetrange im mp v1 v2 ndim).setRegcoords reg :=
    ⟨_, rfl⟩
  have hpm₀ : mp₀.pm = m := by rw [hmp₀]; exact hpm
  have hvs₀ : mp₀.vs = vs := by rw [hmp₀]; exact hvs
  have hvn₀ : mp₀.vn = vn := by rw [hmp₀]; exact hvn
  have hndim₀ : mp₀.ndim = ndim := by rw [hmp₀]; rfl
  have hreg₀ : mp₀.regcoords = reg := by rw [hmp₀]; rfl
  have hactive₀ : mp₀.active = false := by rw [hmp₀]; rfl
  have hlineio₀ : mp₀.lineio = decide (word v1 1 = 1 ∧ word v2 1 = word im.len 1) := by
    rw [hmp₀]
    rfl
  rw [← hmp₀]
  generalize hw : (plsslv m vs vn).1 = w at hlines
  generalize hve : (plsslv m vs vn).2 = ve at hends
  have hmem : ∀ u ∈ w :: later, u ∈ sectLines axlen.length v1 v2 ndim := by
    rw [hlines]
    exact fun u hu => hu
  have hrows : ∀ u ∈ w :: later, Row axlen.length v1 v2 ndim u :=
    fun u hu => Row.of_sectLines hax.1 (hmem u hu)
  have honLine : ∀ u ∈ w :: later, OnLine axlen u :=
    fun u hu => onLine_sectLines hax hv1 hv2 (hmem u hu)
  have hloop : LoopVectors v1 v2 ndim vs (ve ++ mp₀.ve.drop ve.length) := by
    constructor
    · rw [innerStart] at hstart
      rw [hstarts, hstart, List.append_assoc]
      exact ⟨_, rfl⟩
    · rw [innerEnd] at hend
      rw [hends, hend, List.cons_append, List.append_assoc]
      exact ⟨_, rfl⟩
  obtain ⟨rl, hglri, hqueue⟩ := Mio.glri_line hax hm hpx hv1 hv2
    (show ({ mp₀ with v := w ++ mp₀.v.drop w.length
                      ve := ve ++ mp₀.ve.drop ve.length } : Mio σ).pm = m from hpm₀)
    (by rw [hvn₀]; rfl) rfl (hrows w List.mem_cons_self) (honLine w List.mem_cons_self)
  refine ⟨{ mp₀ with v := w ++ mp₀.v.drop w.length, ve := ve ++ mp₀.ve.drop ve.length, rl := rl,
                     rli := rlFirst, active := true }, w, later, ?_, ?_, hlines⟩
  · rw [Mio.start, if_neg (by rw [hactive₀]; exact Bool.false_ne_true)]
    simp only [hpm₀, hvs₀, hvn₀, hw, hve] at hglri ⊢
    rw [hglri]
    rfl
  · constructor
    · refine ⟨hpm₀, hndim₀, hvs₀ ▸ hloop, by rw [hvn₀]; rfl, fun hline => ?_, hreg₀, rfl⟩
      obtain ⟨hone, hwhole⟩ := of_decide_eq_true (hlineio₀.symm.trans hline)
      rw [him.len] at hwhole
      have hpos := word_axis_pos hax (Nat.le_refl 1) hax.1
      rw [Nat.cast_one] at hpos
      unfold sectAxis
      rw [if_pos hlo, Nat.cast_one, hone, hwhole, if_pos (by omega)]
      simp
    · exact ⟨hqueue.parts⟩
    · refine ⟨mp₀.v.drop w.length, rfl, ?_⟩
      have horbit := hloop.orbit hlo hhi (mp₀.v.drop w.length)
      rw [hlines, ← hvs₀] at horbit
      exact horbit
    · exact hrows
    · exact fun u hu => honLine u (List.mem_cons_of_mem w hu)
    · exact fun _ => ⟨honLine w List.mem_cons_self, fun _ hr => hr⟩
    · exact fun hne => absurd rfl hne

/-! ## The segments of a region -/

/-- The descriptor after a call that has returned EOF. -/
def Mio.Exhausted (m : Mask) (axlen v1 v2 : List Int) (ndim : Nat) (reg : Bool)
    (mp : Mio σ) : Prop :=
  mp.OnRegion m axlen v1 v2 ndim reg ∧ mp.Queue [] ∧
    ∃ u, Row axlen.length v1 v2 ndim u ∧
      ∃ rest, plloop (u ++ rest) mp.vs mp.ve ndim = (mp.v, .done)

omit hlen hlo hhi in
theorem lineRanges_pixels {w : List Int} (hw : w.length = axlen.length)
    (hon : OnLine axlen w) :
    (lineRanges m axlen v1 v2 ndim w).flatMap (fun r => r.positions.map (· :: w.tail)) =
      ((Int.range (sectAxis v1 v2 ndim 1).1
        ((sectAxis v1 v2 ndim 1).1 + (sectAxis v1 v2 ndim 1).2)).map (· :: w.tail)).filter
          fun p => maskPixel axlen rows p ≠ 0 := by
  obtain ⟨-, hranges, hvalues, hpixels⟩ := lineRanges_spec hax hm hv1 hv2 hpx hw hon
  have hpositions := hranges.positions hvalues
  rw [Int.sub_add_cancel] at hpositions
  rw [← List.map_flatMap, hpositions, List.filter_map]
  congr 1
  apply List.filter_congr
  intro x hx
  have hrange := Int.mem_range_iff.mp hx
  rw [hpixels x hrange.1 (by omega)]
  rfl

omit hlen hlo hhi in
theorem region_pixels :
    ((sectLines axlen.length v1 v2 ndim).flatMap fun u =>
        (lineRanges m axlen v1 v2 ndim u).map (u, ·)).flatMap
          (fun p => p.2.positions.map (· :: p.1.tail)) =
      (sectPixels axlen.length v1 v2 ndim).filter fun p => maskPixel axlen rows p ≠ 0 := by
  rw [List.flatMap_assoc, sectPixels_lines hax.1, List.filter_flatMap]
  refine List.flatMap_congr fun u hu => ?_
  rw [List.flatMap_map]
  exact lineRanges_pixels hax hm hpx hv1 hv2 (Row.of_sectLines hax.1 hu).length
    (onLine_sectLines hax hv1 hv2 hu)

variable (reg) in
/-- The calls of `mio_glseg` on a region return the masked pixels of the region, in
storage order, and then EOF. -/
theorem mioGlseg_segments (him : im.Reads axlen pixel) (hpm : mp.pm = m) :
    ∃ out last, Delivers (Returns im) ((mioSetrange im mp v1 v2 ndim).setRegcoords reg) out last ∧
      (∀ o ∈ out, SegmentRight im pixel axlen rows o.1 o.2
        (o.2.first axlen.length v1 v2 ndim reg)) ∧
      out.flatMap (fun o => segmentPixels (o.2.first axlen.length v1 v2 ndim reg) o.2.npix) =
        (sectPixels axlen.length v1 v2 ndim).filter (fun p => maskPixel axlen rows p ≠ 0) ∧
      last.Exhausted m axlen v1 v2 ndim reg := by
  obtain ⟨mp', w, later, hstart, hat, hlines⟩ :=
    mioSetrange_start reg hax hm hpx hv1 hv2 hlo hhi him hpm
  have hbegun : ∀ {mp mp' : Mio σ}, mp.start = .ok mp' → ∀ {w q later},
      mp'.At im pixel m axlen v1 v2 ndim reg w q later →
      ∀ out, Returns im mp out ↔ Returns im mp' out :=
    fun hstart _ _ _ hat _ => returns_start hstart hat.region.active
  obtain ⟨out, last, hdelivers, hright, hlast⟩ := Delivers.of_pending (Returns im)
    (I := fun s l => ∃ s' w q later, s.start = .ok s' ∧
      s'.At im pixel m axlen v1 v2 ndim reg w q later ∧
      pending m axlen v1 v2 ndim w q later = l)
    (J := fun s => s.Exhausted m axlen v1 v2 ndim reg)
    (R := fun o p => SegmentRight im pixel axlen rows o.1 o.2
        (o.2.first axlen.length v1 v2 ndim reg) ∧
      segmentPixels (o.2.first axlen.length v1 v2 ndim reg) o.2.npix =
        p.2.positions.map (· :: p.1.tail))
    (fun s p l hs => by
      obtain ⟨s', w, q, later, hstart, hat, hpend⟩ := hs
      obtain ⟨t, a, hcall, hright, w', q', later', hat', hpend'⟩ :=
        hat.next hax hm hpx hlen hv1 hv2 hlo hhi him hpend
      exact ⟨t, a, (hbegun hstart hat _).mpr hcall, hright, t, w', q', later',
        by rw [Mio.start, if_pos hat'.region.active], hat', hpend'⟩)
    (fun s hs => by
      obtain ⟨s', w, q, later, hstart, hat, hpend⟩ := hs
      obtain ⟨t, hcall, hregion, hqueue, u, hu, hdone⟩ :=
        hat.stop hax hm hpx hlen hv1 hv2 hlo hhi him hpend
      exact ⟨t, (hbegun hstart hat _).mpr hcall, hregion, hqueue, u, hat.rows u hu, hdone⟩)
    ⟨mp', w, _, later, hstart, hat, rfl⟩
  have hpending : pending m axlen v1 v2 ndim w (lineRanges m axlen v1 v2 ndim w) later =
      (sectLines axlen.length v1 v2 ndim).flatMap fun u =>
        (lineRanges m axlen v1 v2 ndim u).map (u, ·) := by
    rw [hlines]
    rfl
  obtain ⟨hall, hpixels⟩ := forall₂_flatMap hright
  refine ⟨out, last, hdelivers, hall, ?_, hlast⟩
  rw [hpixels, hpending, region_pixels hax hm hpx hv1 hv2]

/-! ## After the end of a region -/

omit hax hm hpx hlen hv1 hv2 hlo hhi in
theorem aboveLines_single {naxes : Nat}
    (h : ∀ i : Nat, 2 ≤ i → i < ndim → word v1 i = word v2 i) (x : Int) :
    aboveLines naxes v1 v2 ndim x = [aboveStart naxes v1 v2 ndim x] := by
  have hsame : innerEnd v1 v2 ndim (ndim - 2) = innerStart v1 v2 ndim (ndim - 2) := by
    apply List.map_congr_left
    intro k hk
    have hlt := List.mem_range.mp hk
    have heq := h (k + 2) (by omega) (by omega)
    unfold sectAxis
    rw [if_pos (by omega), heq, if_pos (Int.le_refl _)]
    simp
  rw [aboveLines, hsame, box_self]
  rfl

omit hax hm hpx hlen hv1 hv2 hlo hhi in
theorem aboveLines_more {naxes : Nat}
    (h : ¬ ∀ i : Nat, 2 ≤ i → i < ndim → word v1 i = word v2 i) (x : Int) :
    ∃ u l, aboveLines naxes v1 v2 ndim x = aboveStart naxes v1 v2 ndim x :: u :: l := by
  obtain ⟨l, hl⟩ := aboveLines_head naxes v1 v2 ndim x
  cases l with
  | cons u l => exact ⟨u, l, hl⟩
  | nil =>
      exfalso
      apply h
      intro i hlo hhi
      have hmem : innerEnd v1 v2 ndim (ndim - 2) ∈
          box (innerStart v1 v2 ndim (ndim - 2)) (innerEnd v1 v2 ndim (ndim - 2)) := by
        rw [mem_box (by simp), length_innerEnd, length_innerStart]
        refine ⟨rfl, fun j hj hj' => ?_⟩
        have hsize := sectAxis_size v1 v2 ndim (j - 1 + 2)
        rw [innerStart, innerEnd, word_map_range _ hj hj', word_map_range _ hj hj']
        omega
      have hlast := List.mem_map_of_mem
        (f := fun u => (sectAxis v1 v2 ndim 1).1 ::
          (u ++ [x] ++ List.replicate (naxes - ndim) 1)) hmem
      rw [← aboveLines, hl, List.mem_singleton, aboveStart] at hlast
      have hsame := List.append_cancel_right (List.append_cancel_right (List.cons.inj hlast).2)
      have hword := congrArg (word · (i - 1 : Nat)) hsame
      have hindex : i - 1 - 1 + 2 = i := by omega
      simp only [innerStart, innerEnd] at hword
      rw [word_map_range _ (by omega) (by omega), word_map_range _ (by omega) (by omega),
        hindex] at hword
      unfold sectAxis at hword
      rw [if_pos (by omega)] at hword
      split at hword
      · simp only at hword
        omega
      · simp only at hword
        omega

/-- The descriptor stands at place `x` of the last axis, beyond the end of the region, and
has no ranges left. -/
structure Mio.Beyond (m : Mask) (axlen v1 v2 : List Int) (ndim : Nat) (reg : Bool) (x : Int)
    (mp : Mio σ) : Prop where
  region : mp.OnRegion m axlen v1 v2 ndim reg
  queue : mp.Queue []
  beyond : (sectAxis v1 v2 ndim ndim).1 + (sectAxis v1 v2 ndim ndim).2 - 1 < x
  vector : ∃ rest, mp.v = aboveStart axlen.length v1 v2 ndim x ++ rest

omit hax hm hpx hlen hv1 hv2 hlo in
theorem Mio.Exhausted.beyond (h : mp.Exhausted m axlen v1 v2 ndim reg) (htwo : 2 ≤ ndim) :
    ∃ x, mp.Beyond m axlen v1 v2 ndim reg x := by
  obtain ⟨hregion, hqueue, u, hrow, rest, hdone⟩ := h
  obtain ⟨hv, hend⟩ := hregion.loop.done htwo hhi hrow hdone
  exact ⟨word u ndim + 1, hregion, hqueue, hend, rest, hv⟩

variable (im pixel) in
omit hax hm hpx hlen hv1 hv2 hlo in
theorem Mio.Beyond.at {x : Int} (h : mp.Beyond m axlen v1 v2 ndim reg x) (htwo : 2 ≤ ndim)
    {later : List (List Int)} (hlines : aboveLines axlen.length v1 v2 ndim x =
      aboveStart axlen.length v1 v2 ndim x :: later) (hon : ∀ u ∈ later, OnLine axlen u) :
    mp.At im pixel m axlen v1 v2 ndim reg (aboveStart axlen.length v1 v2 ndim x) [] later := by
  obtain ⟨rest, hv⟩ := h.vector
  have hbeyond := h.beyond
  have horbit := h.region.loop.orbit_above axlen.length htwo rest
    (show _ < x + 1 by omega)
  rw [hlines] at horbit
  constructor
  · exact h.region
  · exact h.queue
  · exact ⟨rest, hv, horbit⟩
  · rw [← hlines]
    exact fun u hu => (Row.of_aboveLines htwo hhi hu).1
  · exact hon
  · exact fun hne => absurd rfl hne
  · exact fun _ hne => absurd rfl hne

/-- Once EOF has been returned, it is returned again when the inner axes have one line. -/
theorem spent_of_single (him : im.Reads axlen pixel)
    (hsingle : ∀ i : Nat, 2 ≤ i → i < ndim → word v1 i = word v2 i)
    (h : mp.Exhausted m axlen v1 v2 ndim reg) : Spent (Returns im) mp := by
  apply Spent.of_invariant (J := fun mp => mp.Exhausted m axlen v1 v2 ndim reg) _ h
  intro mp h
  have hat : ∃ w, mp.At im pixel m axlen v1 v2 ndim reg w [] [] := by
    rcases Nat.lt_or_ge ndim 2 with hone | htwo
    · obtain ⟨hregion, hqueue, u, hrow, rest, hdone⟩ := h
      obtain rfl : ndim = 1 := by omega
      have hstays : ∀ v, plloop v mp.vs mp.ve 1 = (v, .done) := by
        intro v
        cases v with
        | nil => rfl
        | cons x v =>
            cases v with
            | nil => rfl
            | cons y v => rfl
      have hv : mp.v = u ++ rest := by
        rw [hstays] at hdone
        exact (congrArg Prod.fst hdone).symm
      refine ⟨u, hregion, hqueue, ⟨rest, hv, orbit_singleton.mpr ?_⟩, ?_, ?_, ?_, ?_⟩
      · rw [hstays]
        rfl
      · exact fun t ht => (List.mem_singleton.mp ht) ▸ hrow
      · exact fun t ht => absurd ht List.not_mem_nil
      · exact fun hne => absurd rfl hne
      · exact fun _ hne => absurd rfl hne
    · obtain ⟨x, hbeyond⟩ := h.beyond hhi htwo
      exact ⟨_, hbeyond.at im pixel hhi htwo (aboveLines_single hsingle x)
        fun _ hu => absurd hu List.not_mem_nil⟩
  obtain ⟨w, hat⟩ := hat
  obtain ⟨t, hcall, hregion, hqueue, u, hu, hdone⟩ :=
    hat.stop hax hm hpx hlen hv1 hv2 hlo hhi him rfl
  exact ⟨t, hcall, hregion, hqueue, u, hat.rows u hu, hdone⟩

omit hpx hlen hv1 hv2 hlo in
/-- Beyond the end of the mask the loop steps to a line that the mask does not have. -/
theorem Mio.Beyond.fails {x : Int} (h : mp.Beyond m axlen v1 v2 ndim reg x)
    (hmore : ¬ ∀ i : Nat, 2 ≤ i → i < ndim → word v1 i = word v2 i) (htwo : 2 ≤ ndim)
    (hout : word axlen ndim < x) (out : Mio σ × Option Segment) : ¬ Returns im mp out := by
  obtain ⟨u, later, hlines⟩ := aboveLines_more hmore x
  obtain ⟨rest, hv⟩ := h.vector
  have hbeyond := h.beyond
  have horbit := h.region.loop.orbit_above axlen.length htwo rest
    (show _ < x + 1 by omega)
  rw [hlines, List.map_cons, List.map_cons, orbit_cons, ← hv] at horbit
  obtain ⟨hrow, hplace, -⟩ := Row.of_aboveLines htwo hhi
    (show u ∈ aboveLines axlen.length v1 v2 ndim x by rw [hlines]; simp)
  have hregion : Mio.OnRegion m axlen v1 v2 ndim reg { mp with v := u ++ rest } :=
    h.region.reads _ _ _ _ _
  have htest := sectnotempty_oob rest (by omega) hhi hrow hm.axes hax htwo (hplace ▸ hout)
  have hturn := Mio.maskLine_turn (h.queue.more.mpr rfl)
    (by rw [h.region.dims]; exact again_of_nextAfter horbit.1)
    (show plSectnotempty mp.pm (u ++ rest) (Mio.lineEnd { mp with v := u ++ rest }) mp.ndim 1 =
        some (.error .plrefoob) by
      rw [hregion.lineEnd, h.region.pm, h.region.dims, htest])
  intro hcall
  have hstart : mp.start = .ok mp := by rw [Mio.start, if_pos h.region.active]
  obtain ⟨r, hends, -⟩ := (returns_iff hstart).mp hcall
  cases hends.unique (ends_fault hturn)

theorem not_spent_of_more (him : im.Reads axlen pixel)
    (hmore : ¬ ∀ i : Nat, 2 ≤ i → i < ndim → word v1 i = word v2 i)
    (h : mp.Exhausted m axlen v1 v2 ndim reg) : ¬ Spent (Returns im) mp := by
  have htwo : 2 ≤ ndim := by
    by_contra hone
    exact hmore fun i hi hi' => absurd hi' (by omega)
  obtain ⟨x, hbeyond⟩ := h.beyond hhi htwo
  apply not_spent_of_rank (J := fun n mp => ∃ x, mp.Beyond m axlen v1 v2 ndim reg x ∧
    word axlen ndim < x + n) (n := (word axlen ndim + 1 - x).toNat) _ _
    ⟨x, hbeyond, by omega⟩
  · rintro mp t ⟨x, hbeyond, hout⟩
    exact hbeyond.fails hax hm hhi hmore htwo (by simpa using hout) _
  · rintro n mp t ⟨x, hbeyond, hnear⟩ hcall
    rcases Int.lt_or_le (word axlen ndim) x with hout | hin
    · exact absurd hcall (hbeyond.fails hax hm hhi hmore htwo hout _)
    · obtain ⟨later, hlines⟩ := aboveLines_head axlen.length v1 v2 ndim x
      have hplaces : ∀ u ∈ aboveLines axlen.length v1 v2 ndim x, OnLine axlen u := by
        intro u hu i hi hi'
        obtain ⟨hrow, hplace, hcoord⟩ := Row.of_aboveLines htwo hhi hu
        rcases Nat.lt_trichotomy i ndim with hinner | rfl | houter
        · have hget := hcoord i hi hinner
          have hbounds := sectAxis_bounds hax hv1 hv2 (show 1 ≤ i by omega) hi'
          omega
        · have hbounds := sectAxis_bounds hax hv1 hv2 (show 1 ≤ i by omega) hi'
          have hend := hbeyond.beyond
          omega
        · have hpos := word_axis_pos hax (show 1 ≤ i by omega) hi'
          rw [hrow.rest i houter hi']
          omega
      have hat := hbeyond.at im pixel hhi htwo hlines fun u hu =>
        hplaces u (by rw [hlines]; exact List.mem_cons_of_mem _ hu)
      cases hpend : pending m axlen v1 v2 ndim (aboveStart axlen.length v1 v2 ndim x) [] later with
      | cons p ps =>
          obtain ⟨t', s, hcall', -⟩ := hat.next hax hm hpx hlen hv1 hv2 hlo hhi him hpend
          cases hcall.unique hcall'
      | nil =>
          obtain ⟨t', hcall', hregion, hqueue, u, hu, rest, hdone⟩ :=
            hat.stop hax hm hpx hlen hv1 hv2 hlo hhi him hpend
          obtain rfl : t = t' := congrArg Prod.fst (hcall.unique hcall')
          rw [← hlines] at hu
          obtain ⟨hrow, hplace, -⟩ := Row.of_aboveLines htwo hhi hu
          obtain ⟨hv, hend⟩ := hregion.loop.done htwo hhi hrow hdone
          rw [hplace] at hv hend
          exact ⟨x + 1, ⟨hregion, hqueue, hend, rest, hv⟩, by omega⟩

end Region

/-! ## The region is visited once -/

/-- The calls of `mio_glseg` after `mio_setrange` and the setting of the region coordinates
flag return segments of the masked pixels of the region, each pixel once and in storage
order; then EOF, and EOF again on every further call. -/
def VisitsOnce (im : Image σ Px) (pixel : List Int → Px) (axlen : List Int)
    (rows : List (List Int)) (mp : Mio σ) (v1 v2 : List Int) (ndim : Nat) (reg : Bool) : Prop :=
  ∃ out last, Delivers (Returns im) ((mioSetrange im mp v1 v2 ndim).setRegcoords reg) out last ∧
    (∀ o ∈ out, SegmentRight im pixel axlen rows o.1 o.2
      (o.2.first axlen.length v1 v2 ndim reg)) ∧
    out.flatMap (fun o => segmentPixels (o.2.first axlen.length v1 v2 ndim reg) o.2.npix) =
      (sectPixels axlen.length v1 v2 ndim).filter (fun p => maskPixel axlen rows p ≠ 0) ∧
    Spent (Returns im) last

/-- A region is not visited once when a further call can step to another line. -/
theorem not_visitsOnce_of_more {im : Image σ Px} {pixel : List Int → Px} {m : Mask}
    {axlen v1 v2 : List Int} {rows : List (List Int)} {ndim : Nat} {mp : Mio σ}
    (hax : Axes axlen) (hm : m.Draws axlen rows) (hpx : ∀ line ∈ rows, ∀ p ∈ line, 0 ≤ p)
    (hlen : word axlen 1 ≤ arb) (hv1 : InMask axlen v1 ndim) (hv2 : InMask axlen v2 ndim)
    (hlo : 1 ≤ ndim) (hhi : ndim ≤ axlen.length) (him : im.Reads axlen pixel)
    (hpm : mp.pm = m) (reg : Bool)
    (hmore : ¬ ∀ i : Nat, 2 ≤ i → i < ndim → word v1 i = word v2 i) :
    ¬ VisitsOnce im pixel axlen rows mp v1 v2 ndim reg := by
  rintro ⟨out', last', hdelivers', -, -, hspent⟩
  obtain ⟨out, last, hdelivers, -, -, hlast⟩ :=
    mioGlseg_segments reg hax hm hpx hlen hv1 hv2 hlo hhi him hpm
  obtain ⟨-, rfl⟩ := hdelivers.unique (fun _ _ _ ha hb => ha.unique hb) hdelivers'
  exact not_spent_of_more hax hm hpx hlen hv1 hv2 hlo hhi him hmore hlast hspent

/-- A region is visited once when its inner axes, from the second to the last but one,
have one line. -/
theorem visitsOnce_iff {im : Image σ Px} {pixel : List Int → Px} {m : Mask}
    {axlen v1 v2 : List Int} {rows : List (List Int)} {ndim : Nat} {mp : Mio σ}
    (hax : Axes axlen) (hm : m.Draws axlen rows) (hpx : ∀ line ∈ rows, ∀ p ∈ line, 0 ≤ p)
    (hlen : word axlen 1 ≤ arb) (hv1 : InMask axlen v1 ndim) (hv2 : InMask axlen v2 ndim)
    (hlo : 1 ≤ ndim) (hhi : ndim ≤ axlen.length) (him : im.Reads axlen pixel)
    (hpm : mp.pm = m) (reg : Bool) :
    VisitsOnce im pixel axlen rows mp v1 v2 ndim reg ↔
      ∀ i : Nat, 2 ≤ i → i < ndim → word v1 i = word v2 i := by
  constructor
  · intro hvisits
    by_contra hmore
    exact not_visitsOnce_of_more hax hm hpx hlen hv1 hv2 hlo hhi him hpm reg hmore hvisits
  · intro hsingle
    obtain ⟨out, last, hdelivers, hall, hpixels, hlast⟩ :=
      mioGlseg_segments reg hax hm hpx hlen hv1 hv2 hlo hhi him hpm
    exact ⟨out, last, hdelivers, hall, hpixels,
      spent_of_single hax hm hpx hlen hv1 hv2 hlo hhi him hsingle hlast⟩

/-! ## A mask with a line in its second plane -/

/-- An image whose lines are read into one buffer, at address 1. -/
def lineImage (axlen : List Int) (pixel : List Int → Int) : Image (Int → Int) Int where
  len := axlen
  mem s := s
  imgl2 _ y := .ok (fun a => pixel (a :: y :: List.replicate (axlen.length - 2) 1), 1)
  imgl3 _ y z := .ok (fun a => pixel (a :: y :: z :: List.replicate (axlen.length - 3) 1), 1)
  imggs _ vs _ ndim := .ok (fun a => pixel ((a + word vs 1 - 1) ::
    (vs.tail ++ List.replicate (axlen.length - ndim) 1)), 1)

theorem lineImage_reads (axlen : List Int) (pixel : List Int → Int) :
    (lineImage axlen pixel).Reads axlen pixel where
  len := rfl
  imgl2 _ y _ _ _ := by
    refine ⟨_, _, rfl, fun x _ _ => ?_⟩
    have hplace : 1 + x - 1 = x := by omega
    rw [hplace]
    rfl
  imgl3 _ y z _ _ _ _ _ := by
    refine ⟨_, _, rfl, fun x _ _ => ?_⟩
    have hplace : 1 + x - 1 = x := by omega
    rw [hplace]
    rfl
  imggs _ vs _ ndim _ _ _ _ _ _ _ := by
    refine ⟨_, _, rfl, fun x _ _ => ?_⟩
    have hplace : 1 + x - word vs 1 + word vs 1 - 1 = x := by omega
    simp only [lineImage, hplace]

/-- The descriptor of `mio_openo`, with nothing in its arrays. -/
def freshMio (m : Mask) : Mio (Int → Int) :=
  { im := fun _ => 0, pm := m, depth := 0, active := false, lbp := 0, rl := [], rli := 0,
    ndim := 0, lineio := false, regcoords := false, v := List.replicate plMaxdim 0,
    vs := List.replicate plMaxdim 0, ve := List.replicate plMaxdim 0,
    vn := List.replicate plMaxdim 0 }

/-- One line of ones in a mask of two planes of two lines of two pixels. -/
def upperLine : List MaskOp := [.update [1, 2, 2] (fun _ => 1) 1 ⟨1, Int.one_pos⟩]

theorem upperLine_draws : ∃ m₀ m, plSsize plOpen [2, 2, 2] 1 ⟨1, Int.one_pos⟩ = .ok m₀ ∧
    runOps m₀ upperLine = .ok m ∧ m.Draws [2, 2, 2] (picture [2, 2, 2] upperLine) := by
  have hline : OnLine [2, 2, 2] [1, 2, 2] := by
    intro i hlo hhi
    have hi : i ≤ 3 := hhi
    interval_cases i
    · decide
    · decide
  have hlegal : ∀ op ∈ upperLine, op.Legal [2, 2, 2] := by
    intro op hop
    obtain rfl := List.mem_singleton.mp hop
    exact ⟨hline, fun _ _ _ => show (1 : Int) ≤ 134217727 by decide⟩
  have hfit : SizedFits plOpen [2, 2, 2] 1 ⟨1, Int.one_pos⟩ upperLine := by decide +kernel
  obtain ⟨m₀, m, s, hm₀, hm, hinv⟩ := hfit.run Descriptor.opened.counts (by decide) hlegal
  exact ⟨m₀, m, hm₀, hm, hinv.draws (length_picture [2, 2, 2] upperLine).2⟩

theorem inMask_cube {x y z : Int} (hx : 1 ≤ x ∧ x ≤ 2) (hy : 1 ≤ y ∧ y ≤ 2)
    (hz : 1 ≤ z ∧ z ≤ 2) : InMask [2, 2, 2] [x, y, z] 3 := by
  intro i hlo hhi _
  have hi : i ≤ 3 := hhi
  interval_cases i
  · exact hx
  · exact hy
  · exact hz

/-- After the first plane has been read, a call steps into the second one. -/
theorem not_visitsOnce_upperLine :
    ∃ m₀ m, plSsize plOpen [2, 2, 2] 1 ⟨1, Int.one_pos⟩ = .ok m₀ ∧
      runOps m₀ upperLine = .ok m ∧
      ¬ VisitsOnce (lineImage [2, 2, 2] fun _ => 0) (fun _ => 0) [2, 2, 2]
        (picture [2, 2, 2] upperLine) (freshMio m) [1, 1, 1] [2, 2, 1] 3 true := by
  obtain ⟨m₀, m, hm₀, hm, hdraws⟩ := upperLine_draws
  refine ⟨m₀, m, hm₀, hm, not_visitsOnce_of_more (by decide) hdraws (by decide) (by decide)
    (inMask_cube (by decide) (by decide) (by decide))
    (inMask_cube (by decide) (by decide) (by decide)) (by decide) (by decide)
    (lineImage_reads _ _) rfl true ?_⟩
  intro hsingle
  exact absurd (hsingle 2 (Nat.le_refl 2) (by decide)) (by decide)

theorem visitsOnce_upperLine :
    ∃ m₀ m, plSsize plOpen [2, 2, 2] 1 ⟨1, Int.one_pos⟩ = .ok m₀ ∧
      runOps m₀ upperLine = .ok m ∧
      VisitsOnce (lineImage [2, 2, 2] fun _ => 0) (fun _ => 0) [2, 2, 2]
        (picture [2, 2, 2] upperLine) (freshMio m) [1, 2, 1] [2, 2, 2] 3 true := by
  obtain ⟨m₀, m, hm₀, hm, hdraws⟩ := upperLine_draws
  refine ⟨m₀, m, hm₀, hm, (visitsOnce_iff (by decide) hdraws (by decide) (by decide)
    (inMask_cube (by decide) (by decide) (by decide))
    (inMask_cube (by decide) (by decide) (by decide)) (by decide) (by decide)
    (lineImage_reads _ _) rfl true).mpr ?_⟩
  intro i hlo hhi
  obtain rfl : i = 2 := by omega
  rfl

end Iraf.Pmio
