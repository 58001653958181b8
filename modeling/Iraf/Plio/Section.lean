import Mathlib.Data.List.Forall2
import Iraf.Plio.Loop
import Iraf.Plio.MaskRuns

/-!
# Sections of a mask

The pixels of a mask as its line lists define them, and the loop over the lines of a
section that `pl_sectnotempty` and `pl_sectnotconst` share.
-/

namespace Iraf.Plio

open Odometer MixedRadix

/-! ## The pixels of a mask -/

/-- The line lists of the mask encode the given lines, each of them in full, and a line
whose pointer is `PL_EMPTYLINE` is empty. -/
structure Mask.Draws (m : Mask) (axlen : List Int) (rows : List (List Int)) : Prop where
  axes : m.HasAxes axlen
  count : rows.length = lineCount axlen
  full : ∀ line ∈ rows, line.length = (word axlen 1).toNat
  encodes : ∀ (i : Nat) line, rows[i]? = some line →
    Encodes (m.ll (m.lpAt ((i : Int) + 1))) line
  empty : ∀ (i : Nat) line, rows[i]? = some line →
    m.lpAt ((i : Int) + 1) = plEmptyline → ∀ p ∈ line, p = 0

theorem MaskInv.draws {axlen : List Int} {acc : Prop} {rows : List (List Int)} {m : Mask}
    {s : Shelf (word axlen 1).toNat} (h : MaskInv axlen acc rows m s)
    (hfull : ∀ line ∈ rows, line.length = (word axlen 1).toNat) : m.Draws axlen rows where
  axes := h.axes
  count := by
    rw [← h.rows, Shelf.rows, List.length_map, h.lines]
  full := hfull
  encodes i line hline := h.holds.encodes (h.rows ▸ hline)
  empty i line hline hzero p hp := by
    rw [← h.rows, Shelf.rows, List.getElem?_map, Option.map_eq_some_iff] at hline
    obtain ⟨k, hk, rfl⟩ := hline
    rw [h.holds.lpAt hk] at hzero
    obtain rfl := (offset_eq_emptyline_iff (s.owned k (List.mem_of_getElem? hk))).mp hzero
    obtain ⟨e, he, -, hempty⟩ := s.first
    have hzeros : expand 1 e.is = List.replicate (word axlen 1).toNat 0 := hempty
    rw [Shelf.listAt_eq he, hzeros] at hp
    exact List.eq_of_mem_replicate hp

/-- The pixel at `v`. -/
def maskPixel (axlen : List Int) (rows : List (List Int)) (v : List Int) : Int :=
  (rows.getD (lineNumber axlen v) []).getD (word v 1 - 1).toNat 0

section Lines

variable {m : Mask} {axlen v w : List Int} {rows : List (List Int)}

theorem lineNumber_congr (h : ∀ i : Nat, 2 ≤ i → i ≤ axlen.length → word v i = word w i) :
    lineNumber axlen v = lineNumber axlen w := by
  unfold lineNumber
  rw [value_congr]
  intro j hj
  rw [List.length_drop] at hj
  rw [h (j + 2) (by omega) (by omega)]

theorem Mask.Draws.reference (h : m.Draws axlen rows) (hax : Axes axlen)
    (hv : OnLine axlen v) : ∃ line, rows[lineNumber axlen v]? = some line ∧
      plReference m v = .ok (m.lpAt ((lineNumber axlen v : Int) + 1)) ∧
      Encodes (m.ll (m.lpAt ((lineNumber axlen v : Int) + 1))) line ∧
      line.length = (word axlen 1).toNat := by
  have hlt := hv.lineNumber_lt
  rw [← h.count] at hlt
  have hline := List.getElem?_eq_getElem hlt
  refine ⟨rows[lineNumber axlen v], hline, ?_, h.encodes _ _ hline,
    h.full _ (List.getElem_mem hlt)⟩
  rw [plReference, lineIndex_eq h.axes hax hv]
  rfl

end Lines

/-! ## Sections -/

/-- The start and the size of a section along axis `i`, its corners in either order. -/
def sectAxis (v1 v2 : List Int) (ndim i : Nat) : Int × Int :=
  if i ≤ ndim then
    if word v1 i ≤ word v2 i then (word v1 i, word v2 i - word v1 i + 1)
    else (word v2 i, word v1 i - word v2 i + 1)
  else (1, 1)

/-- The vectors `vs` and `vn`. -/
def sectVectors (v1 v2 : List Int) (ndim : Nat) : List Int × List Int :=
  ((List.range plMaxdim).map fun k => (sectAxis v1 v2 ndim (k + 1)).1,
    (List.range plMaxdim).map fun k => (sectAxis v1 v2 ndim (k + 1)).2)

/-- A corner of a section lies in the mask. -/
def InMask (axlen v : List Int) (ndim : Nat) : Prop :=
  ∀ i : Nat, 1 ≤ i → i ≤ axlen.length → i ≤ ndim → 1 ≤ word v i ∧ word v i ≤ word axlen i

/-- The vector lies in the section. -/
def InSection (axlen v1 v2 : List Int) (ndim : Nat) (v : List Int) : Prop :=
  ∀ i : Nat, 1 ≤ i → i ≤ axlen.length →
    if i ≤ ndim then
      min (word v1 i) (word v2 i) ≤ word v i ∧ word v i ≤ max (word v1 i) (word v2 i)
    else word v i = 1

/-- The first vectors of the lines of a section, in storage order. -/
def sectLines (naxes : Nat) (v1 v2 : List Int) (ndim : Nat) : List (List Int) :=
  (box ((List.range (naxes - 1)).map fun k => (sectAxis v1 v2 ndim (k + 2)).1)
    ((List.range (naxes - 1)).map fun k =>
      (sectAxis v1 v2 ndim (k + 2)).1 + (sectAxis v1 v2 ndim (k + 2)).2 - 1)).map
    ((sectAxis v1 v2 ndim 1).1 :: ·)

section Loop

variable {m : Mask} {axlen v v1 v2 : List Int} {ndim : Nat}

theorem sectAxis_size (v1 v2 : List Int) (ndim i : Nat) : 1 ≤ (sectAxis v1 v2 ndim i).2 := by
  unfold sectAxis
  split_ifs <;> simp only <;> omega

theorem box_cons {vs ve : List Int} (h : List.Forall₂ (· ≤ ·) vs ve) :
    ∃ l, box vs ve = vs :: l := by
  induction h with
  | nil => exact ⟨[], rfl⟩
  | cons hle _ ih =>
      obtain ⟨l, hl⟩ := ih
      rw [box, range_cons hle, hl, List.flatMap_cons]
      exact ⟨_, rfl⟩

theorem sect_forall₂ (n : Nat) : List.Forall₂ (· ≤ ·)
    ((List.range n).map fun k => (sectAxis v1 v2 ndim (k + 2)).1)
    ((List.range n).map fun k =>
      (sectAxis v1 v2 ndim (k + 2)).1 + (sectAxis v1 v2 ndim (k + 2)).2 - 1) := by
  rw [List.forall₂_map_left_iff, List.forall₂_map_right_iff, List.forall₂_same]
  intro k _
  have hsize := sectAxis_size v1 v2 ndim (k + 2)
  omega

theorem plsslv_sect (hn : 0 < m.naxes) (hmax : m.naxes ≤ plMaxdim) :
    ∃ rest l, (sectVectors v1 v2 ndim).1 = (sectAxis v1 v2 ndim 1).1 ::
        (((List.range (m.naxes - 1)).map fun k => (sectAxis v1 v2 ndim (k + 2)).1) ++ rest) ∧
      (plsslv m (sectVectors v1 v2 ndim).1 (sectVectors v1 v2 ndim).2).2 =
        ((sectAxis v1 v2 ndim 1).1 + (sectAxis v1 v2 ndim 1).2 - 1) ::
        ((List.range (m.naxes - 1)).map fun k =>
          (sectAxis v1 v2 ndim (k + 2)).1 + (sectAxis v1 v2 ndim (k + 2)).2 - 1) ∧
      sectLines m.naxes v1 v2 ndim =
        (plsslv m (sectVectors v1 v2 ndim).1 (sectVectors v1 v2 ndim).2).1 :: l := by
  obtain ⟨n, hnaxes⟩ : ∃ n, m.naxes = n + 1 := ⟨m.naxes - 1, by omega⟩
  rw [hnaxes, Nat.add_sub_cancel]
  have hrange : ∀ f : Nat → Int, ((List.range plMaxdim).map f).take (n + 1) =
      f 0 :: (List.range n).map fun k => f (k + 1) := by
    intro f
    rw [← List.map_take, List.take_range, Nat.min_eq_left (by omega), List.range_succ_eq_map,
      List.map_cons, List.map_map]
    rfl
  obtain ⟨l, hl⟩ := box_cons (@sect_forall₂ v1 v2 ndim n)
  refine ⟨((sectVectors v1 v2 ndim).1).drop (n + 1), l.map ((sectAxis v1 v2 ndim 1).1 :: ·),
    ?_, ?_, ?_⟩
  · rw [← List.cons_append, sectVectors]
    simp only
    rw [← hrange fun k => (sectAxis v1 v2 ndim (k + 1)).1, List.take_append_drop]
  · rw [plsslv, sectVectors, hnaxes]
    simp only
    rw [hrange fun k => (sectAxis v1 v2 ndim (k + 1)).1,
      hrange fun k => (sectAxis v1 v2 ndim (k + 1)).2, List.zipWith_cons_cons,
      List.zipWith_map, List.zipWith_self]
  · rw [sectLines, plsslv, sectVectors, hnaxes, Nat.add_sub_cancel, hl]
    simp only
    rw [hrange fun k => (sectAxis v1 v2 ndim (k + 1)).1]
    rfl

/-- A loop over the lines of a section ends, after its body was executed at each of
them in turn. -/
theorem sect_run {σ ρ ε : Type} (hn : 0 < m.naxes) (hmax : m.naxes ≤ plMaxdim)
    (body : σ → List Int → Except ε (σ ⊕ ρ)) (last : σ → ρ) {fuel : Nat}
    (hfuel : (sectLines m.naxes v1 v2 ndim).length ≤ fuel) (s : σ) :
    StepMachine.run
      (turn body (fun v => nextAfter (plloop v (sectVectors v1 v2 ndim).1
        (plsslv m (sectVectors v1 v2 ndim).1 (sectVectors v1 v2 ndim).2).2 m.naxes)) last) fuel
      (s, (plsslv m (sectVectors v1 v2 ndim).1 (sectVectors v1 v2 ndim).2).1) =
      some (visit body last s (sectLines m.naxes v1 v2 ndim)) := by
  obtain ⟨rest, l, hvs, hve, hlines⟩ := @plsslv_sect m v1 v2 ndim hn hmax
  have horbit := plloop_orbit (sectAxis v1 v2 ndim 1).1 (sectAxis v1 v2 ndim 1).1
    ((sectAxis v1 v2 ndim 1).1 + (sectAxis v1 v2 ndim 1).2 - 1)
    (@sect_forall₂ v1 v2 ndim (m.naxes - 1)) [] rest []
  simp only [List.append_nil, List.length_map, List.length_range,
    Nat.sub_add_cancel hn] at horbit
  rw [← hvs, ← hve, ← sectLines, hlines] at horbit
  rw [hlines] at hfuel ⊢
  exact horbit.run hfuel s

theorem word_map_range {n i : Nat} (f : Nat → Int) (hi : 1 ≤ i) (hn : i ≤ n) :
    word ((List.range n).map f) i = f (i - 1) := by
  have hindex : ((i : Int) - 1).toNat = i - 1 := by omega
  rw [word, hindex, List.getD_eq_getElem _ _ (by simp; omega), List.getElem_map,
    List.getElem_range]

theorem mem_sectLines {naxes : Nat} {w : List Int} (hn : 0 < naxes) :
    w ∈ sectLines naxes v1 v2 ndim ↔ w.length = naxes ∧
      word w 1 = (sectAxis v1 v2 ndim 1).1 ∧
      ∀ i : Nat, 2 ≤ i → i ≤ naxes → (sectAxis v1 v2 ndim i).1 ≤ word w i ∧
        word w i ≤ (sectAxis v1 v2 ndim i).1 + (sectAxis v1 v2 ndim i).2 - 1 := by
  have hbox : ∀ v : List Int, v ∈ box
        ((List.range (naxes - 1)).map fun k => (sectAxis v1 v2 ndim (k + 2)).1)
        ((List.range (naxes - 1)).map fun k =>
          (sectAxis v1 v2 ndim (k + 2)).1 + (sectAxis v1 v2 ndim (k + 2)).2 - 1) ↔
      v.length = naxes - 1 ∧ ∀ i : Nat, 1 ≤ i → i ≤ naxes - 1 →
        (sectAxis v1 v2 ndim (i + 1)).1 ≤ word v i ∧ word v i ≤
          (sectAxis v1 v2 ndim (i + 1)).1 + (sectAxis v1 v2 ndim (i + 1)).2 - 1 := by
    intro v
    rw [mem_box (by simp), List.length_map, List.length_range]
    refine and_congr_right fun _ => forall_congr' fun i => forall_congr' fun hi =>
      forall_congr' fun hi' => ?_
    have hindex : i - 1 + 2 = i + 1 := by omega
    rw [word_map_range _ hi hi', word_map_range _ hi hi', hindex]
  rw [sectLines, List.mem_map]
  constructor
  · rintro ⟨v, hv, rfl⟩
    obtain ⟨hlen, hcoord⟩ := (hbox v).mp hv
    refine ⟨by rw [List.length_cons]; omega, rfl, fun i hlo hhi => ?_⟩
    obtain ⟨j, rfl⟩ : ∃ j, i = j + 1 := ⟨i - 1, by omega⟩
    rw [word_cons_succ _ _ (by omega)]
    exact hcoord j (by omega) (by omega)
  · rintro ⟨hlen, hfirst, hcoord⟩
    obtain ⟨x, v, rfl⟩ := List.exists_cons_of_length_pos (hlen ▸ hn)
    obtain rfl : x = (sectAxis v1 v2 ndim 1).1 := hfirst
    rw [List.length_cons] at hlen
    refine ⟨v, (hbox v).mpr ⟨by omega, fun i hlo hhi => ?_⟩, rfl⟩
    have hnext := hcoord (i + 1) (by omega) (by omega)
    rwa [word_cons_succ _ _ hlo] at hnext

theorem inSection_iff : InSection axlen v1 v2 ndim v ↔
    ∀ i : Nat, 1 ≤ i → i ≤ axlen.length → (sectAxis v1 v2 ndim i).1 ≤ word v i ∧
      word v i ≤ (sectAxis v1 v2 ndim i).1 + (sectAxis v1 v2 ndim i).2 - 1 := by
  unfold InSection sectAxis
  refine forall_congr' fun i => forall_congr' fun _ => forall_congr' fun _ => ?_
  split_ifs <;> simp only <;> omega

theorem word_axis_pos (hax : Axes axlen) {i : Nat} (hi : 1 ≤ i) (hi' : i ≤ axlen.length) :
    0 < word axlen i := by
  have hindex : (((i : Nat) : Int) - 1).toNat = i - 1 := by omega
  rw [word, hindex, List.getD_eq_getElem _ _ (by omega)]
  exact hax.2.2 _ (List.getElem_mem _)

theorem sectAxis_bounds (hax : Axes axlen) (hv1 : InMask axlen v1 ndim)
    (hv2 : InMask axlen v2 ndim) {i : Nat} (hi : 1 ≤ i) (hi' : i ≤ axlen.length) :
    1 ≤ (sectAxis v1 v2 ndim i).1 ∧ 1 ≤ (sectAxis v1 v2 ndim i).2 ∧
      (sectAxis v1 v2 ndim i).1 + (sectAxis v1 v2 ndim i).2 - 1 ≤ word axlen i := by
  have hpos := word_axis_pos hax hi hi'
  unfold sectAxis
  by_cases hdim : i ≤ ndim
  · have h1 := hv1 i hi hi' hdim
    have h2 := hv2 i hi hi' hdim
    rw [if_pos hdim]
    split_ifs <;> simp only <;> omega
  · rw [if_neg hdim]
    simp only
    omega

theorem onLine_sectLines (hax : Axes axlen) (hv1 : InMask axlen v1 ndim)
    (hv2 : InMask axlen v2 ndim) {w : List Int}
    (hw : w ∈ sectLines axlen.length v1 v2 ndim) : OnLine axlen w := by
  obtain ⟨-, -, hcoord⟩ := (mem_sectLines hax.1).mp hw
  intro i hlo hhi
  have hget := hcoord i hlo hhi
  have hbounds := sectAxis_bounds hax hv1 hv2 (show 1 ≤ i by omega) hhi
  omega

/-- The pixels of a section are those of its lines between the bounds of the first axis. -/
theorem exists_inSection_iff (hax : Axes axlen) (rows : List (List Int)) (P : Int → Prop) :
    (∃ v, InSection axlen v1 v2 ndim v ∧ P (maskPixel axlen rows v)) ↔
      ∃ w ∈ sectLines axlen.length v1 v2 ndim, ∃ x, (sectAxis v1 v2 ndim 1).1 ≤ x ∧
        x ≤ (sectAxis v1 v2 ndim 1).1 + (sectAxis v1 v2 ndim 1).2 - 1 ∧
        P ((rows.getD (lineNumber axlen w) []).getD (x - 1).toNat 0) := by
  constructor
  · rintro ⟨v, hv, hpixel⟩
    rw [inSection_iff] at hv
    have hfirst := hv 1 (Nat.le_refl 1) hax.1
    have hword : ∀ i : Nat, 2 ≤ i → i ≤ axlen.length →
        word ((sectAxis v1 v2 ndim 1).1 ::
          (List.range (axlen.length - 1)).map fun k => word v (k + 2 : Nat)) i = word v i := by
      intro i hlo hhi
      obtain ⟨j, rfl⟩ : ∃ j, i = j + 1 := ⟨i - 1, by omega⟩
      have hindex : j - 1 + 2 = j + 1 := by omega
      rw [word_cons_succ _ _ (by omega),
        word_map_range (fun k => word v (k + 2 : Nat)) (by omega) (by omega), hindex]
    have hmem : (sectAxis v1 v2 ndim 1).1 ::
        ((List.range (axlen.length - 1)).map fun k => word v (k + 2 : Nat)) ∈
          sectLines axlen.length v1 v2 ndim := by
      refine (mem_sectLines hax.1).mpr ⟨?_, rfl, fun i hlo hhi => ?_⟩
      · rw [List.length_cons, List.length_map, List.length_range, Nat.sub_add_cancel hax.1]
      · rw [hword i hlo hhi]
        exact hv i (by omega) hhi
    refine ⟨_, hmem, word v 1, hfirst.1, hfirst.2, ?_⟩
    rw [lineNumber_congr hword]
    exact hpixel
  · rintro ⟨w, hw, x, hlo, hhi, hpixel⟩
    obtain ⟨hlen, -, hcoord⟩ := (mem_sectLines hax.1).mp hw
    obtain ⟨y, w, rfl⟩ := List.exists_cons_of_length_pos (hlen ▸ hax.1)
    have hword : ∀ i : Nat, 2 ≤ i → i ≤ axlen.length → word (x :: w) i = word (y :: w) i := by
      intro i hi _
      obtain ⟨j, rfl⟩ : ∃ j, i = j + 1 := ⟨i - 1, by omega⟩
      rw [word_cons_succ _ _ (by omega), word_cons_succ _ _ (by omega)]
    refine ⟨x :: w, inSection_iff.mpr fun i hi hi' => ?_, ?_⟩
    · rcases Nat.lt_or_ge 1 i with hmore | hone
      · rw [hword i hmore hi']
        exact hcoord i hmore hi'
      · obtain rfl : i = 1 := by omega
        exact ⟨hlo, hhi⟩
    · rw [maskPixel, lineNumber_congr hword]
      exact hpixel

end Loop

end Iraf.Plio
