import Iraf.Plio.LineToRanges
import Iraf.Plio.SectNotEmpty

/-!
# The lines and the pixels of a region

A region of a mask in storage order, as the loop over its lines goes through it, and the
lines that the loop would visit beyond the end of the region.
-/

namespace Iraf.Plio

open Odometer

/-! ## The positions of ranges -/

/-- The pixels of a line that a range stands for. -/
def RlElem.positions (r : RlElem) : List Int := Int.range r.x (r.x + r.n)

theorem intRange_append {a b c : Int} (hab : a ≤ b) (hbc : b ≤ c) :
    Int.range a c = Int.range a b ++ Int.range b c := by
  have hcount : (c - a).toNat = (b - a).toNat + (c - b).toNat := by omega
  unfold Int.range
  rw [hcount, List.range_add, List.map_append, List.map_map]
  congr 1
  apply List.map_congr_left
  intro k _
  simp only [Function.comp_apply]
  omega

theorem RangesFrom.positions {last pos : Int} {rs : List RlElem} (h : RangesFrom last pos rs)
    (hv : ∀ r ∈ rs, 0 < r.v) :
    rs.flatMap RlElem.positions =
      (Int.range pos (last + 1)).filter fun i => rangeValue rs i ≠ 0 := by
  induction rs generalizing pos with
  | nil =>
      symm
      apply List.filter_eq_nil_iff.mpr
      intro i _
      simp [rangeValue]
  | cons r rs ih =>
      obtain ⟨hpos, hn, hrest⟩ := h
      have hr := hv r List.mem_cons_self
      rw [List.flatMap_cons, intRange_append hpos (show r.x ≤ last + 1 by have := hrest.le; omega),
        intRange_append (show r.x ≤ r.x + r.n by omega) hrest.le, List.filter_append,
        List.filter_append]
      have hbefore : (Int.range pos r.x).filter (fun i => rangeValue (r :: rs) i ≠ 0) = [] := by
        apply List.filter_eq_nil_iff.mpr
        intro i hi
        have hlt := (Int.mem_range_iff.mp hi).2
        have hzero : rangeValue (r :: rs) i = 0 := by
          apply rangeValue_of_before
          intro s hs
          rcases List.mem_cons.mp hs with rfl | hs
          · exact hlt
          · have := (hrest.bounds s hs).1
            omega
        simp [hzero]
      have hinside : (Int.range r.x (r.x + r.n)).filter
          (fun i => rangeValue (r :: rs) i ≠ 0) = r.positions := by
        apply List.filter_eq_self.mpr
        intro i hi
        rw [rangeValue_of_mem (Int.mem_range_iff.mp hi)]
        simpa using hr.ne'
      have hafter : (Int.range (r.x + r.n) (last + 1)).filter
          (fun i => rangeValue (r :: rs) i ≠ 0) = rs.flatMap RlElem.positions := by
        rw [ih hrest fun s hs => hv s (List.mem_cons_of_mem r hs)]
        apply List.filter_congr
        intro i hi
        have hge := (Int.mem_range_iff.mp hi).1
        rw [rangeValue_of_not_mem (by omega)]
      rw [hbefore, hinside, hafter, List.nil_append]

theorem RangesFrom.value_of_mem {last pos : Int} {rs : List RlElem}
    (h : RangesFrom last pos rs) {r : RlElem} (hr : r ∈ rs) {i : Int}
    (hi : r.x ≤ i ∧ i < r.x + r.n) : rangeValue rs i = r.v := by
  induction rs generalizing pos with
  | nil => cases hr
  | cons s rs ih =>
      obtain ⟨-, -, hrest⟩ := h
      rcases List.mem_cons.mp hr with rfl | hr
      · exact rangeValue_of_mem hi
      · have hbefore := (hrest.bounds r hr).1
        rw [rangeValue_of_not_mem (by omega)]
        exact ih hrest hr

/-! ## The pixels of a section -/

/-- The pixels of a section, in storage order. -/
def sectPixels (naxes : Nat) (v1 v2 : List Int) (ndim : Nat) : List (List Int) :=
  box ((List.range naxes).map fun k => (sectAxis v1 v2 ndim (k + 1)).1)
    ((List.range naxes).map fun k =>
      (sectAxis v1 v2 ndim (k + 1)).1 + (sectAxis v1 v2 ndim (k + 1)).2 - 1)

theorem mem_sectPixels {axlen v1 v2 v : List Int} {ndim : Nat} :
    v ∈ sectPixels axlen.length v1 v2 ndim ↔
      v.length = axlen.length ∧ InSection axlen v1 v2 ndim v := by
  rw [sectPixels, mem_box (by simp), List.length_map, List.length_range, inSection_iff]
  refine and_congr_right fun _ => forall_congr' fun i => forall_congr' fun hi =>
    forall_congr' fun hi' => ?_
  rw [word_map_range _ hi hi', word_map_range _ hi hi', Nat.sub_add_cancel hi]

theorem sectPixels_lines {naxes : Nat} (hn : 0 < naxes) (v1 v2 : List Int) (ndim : Nat) :
    sectPixels naxes v1 v2 ndim = (sectLines naxes v1 v2 ndim).flatMap fun w =>
      (Int.range (sectAxis v1 v2 ndim 1).1
        ((sectAxis v1 v2 ndim 1).1 + (sectAxis v1 v2 ndim 1).2)).map (· :: w.tail) := by
  obtain ⟨n, rfl⟩ : ∃ n, naxes = n + 1 := ⟨naxes - 1, by omega⟩
  rw [sectPixels, sectLines, Nat.add_sub_cancel, List.range_succ_eq_map, List.map_cons,
    List.map_cons, List.map_map, List.map_map, box, List.flatMap_map]
  simp only [Int.sub_add_cancel]
  rfl

/-! ## The axes of a region -/

section Axes

variable {v1 v2 w rest vs ve : List Int} {ndim naxes : Nat}

/-- The starts of `n` axes from the second one on. -/
def innerStart (v1 v2 : List Int) (ndim n : Nat) : List Int :=
  (List.range n).map fun k => (sectAxis v1 v2 ndim (k + 2)).1

/-- The ends of `n` axes from the second one on. -/
def innerEnd (v1 v2 : List Int) (ndim n : Nat) : List Int :=
  (List.range n).map fun k =>
    (sectAxis v1 v2 ndim (k + 2)).1 + (sectAxis v1 v2 ndim (k + 2)).2 - 1

@[simp] theorem length_innerStart (v1 v2 : List Int) (ndim n : Nat) :
    (innerStart v1 v2 ndim n).length = n := by simp [innerStart]

@[simp] theorem length_innerEnd (v1 v2 : List Int) (ndim n : Nat) :
    (innerEnd v1 v2 ndim n).length = n := by simp [innerEnd]

theorem map_range_ones {f : Nat → Int} {a b : Nat} (h : ∀ k, a ≤ k → f k = 1) :
    (List.range (a + b)).map f = (List.range a).map f ++ List.replicate b 1 := by
  rw [List.range_add, List.map_append, List.map_map]
  congr 1
  rw [List.eq_replicate_iff]
  constructor
  · simp
  · intro x hx
    obtain ⟨k, -, rfl⟩ := List.mem_map.mp hx
    exact h _ (Nat.le_add_right a k)

theorem inner_split (hlo : 1 ≤ ndim) (hhi : ndim ≤ naxes) :
    innerStart v1 v2 ndim (naxes - 1) =
        innerStart v1 v2 ndim (ndim - 1) ++ List.replicate (naxes - ndim) 1 ∧
      innerEnd v1 v2 ndim (naxes - 1) =
        innerEnd v1 v2 ndim (ndim - 1) ++ List.replicate (naxes - ndim) 1 := by
  have hcount : naxes - 1 = ndim - 1 + (naxes - ndim) := by omega
  have hone : ∀ k, ndim - 1 ≤ k → sectAxis v1 v2 ndim (k + 2) = (1, 1) := by
    intro k hk
    exact if_neg (by omega)
  rw [hcount]
  constructor
  · exact map_range_ones fun k hk => by rw [hone k hk]
  · exact map_range_ones fun k hk => by rw [hone k hk]; rfl

theorem inner_last (hlo : 2 ≤ ndim) :
    innerStart v1 v2 ndim (ndim - 1) =
        innerStart v1 v2 ndim (ndim - 2) ++ [(sectAxis v1 v2 ndim ndim).1] ∧
      innerEnd v1 v2 ndim (ndim - 1) = innerEnd v1 v2 ndim (ndim - 2) ++
        [(sectAxis v1 v2 ndim ndim).1 + (sectAxis v1 v2 ndim ndim).2 - 1] := by
  obtain ⟨n, rfl⟩ : ∃ n, ndim = n + 2 := ⟨ndim - 2, by omega⟩
  have hcount : n + 2 - 1 = n + 1 := rfl
  rw [hcount, Nat.add_sub_cancel]
  constructor
  · rw [innerStart, List.range_succ, List.map_append]
    rfl
  · rw [innerEnd, List.range_succ, List.map_append]
    rfl

theorem box_append {us ts : List Int} (h : vs.length = ve.length) :
    box (vs ++ us) (ve ++ ts) =
      (box us ts).flatMap fun u => (box vs ve).map (· ++ u) := by
  induction vs generalizing ve with
  | nil =>
      obtain rfl := List.length_eq_zero_iff.mp h.symm
      have hbox : box [] [] = [[]] := rfl
      rw [hbox]
      simp
  | cons s vs ih =>
      obtain ⟨e, ve, rfl⟩ := List.exists_cons_of_length_eq_add_one h.symm
      rw [List.cons_append, List.cons_append, box, box, ih (by simpa using h),
        List.flatMap_assoc]
      congr 1
      funext u
      rw [List.flatMap_map, List.map_flatMap]
      simp only [List.map_map]
      rfl

theorem sectLines_split (hlo : 1 ≤ ndim) (hhi : ndim ≤ naxes) :
    sectLines naxes v1 v2 ndim =
      (box (innerStart v1 v2 ndim (ndim - 1)) (innerEnd v1 v2 ndim (ndim - 1))).map fun v =>
        (sectAxis v1 v2 ndim 1).1 :: (v ++ List.replicate (naxes - ndim) 1) := by
  obtain ⟨hstart, hend⟩ := @inner_split v1 v2 ndim naxes hlo hhi
  change (box (innerStart v1 v2 ndim (naxes - 1)) (innerEnd v1 v2 ndim (naxes - 1))).map _ = _
  rw [hstart, hend, box_append (by simp), box_self, List.flatMap_singleton, List.map_map]
  rfl

/-! ## The loop over the lines -/

/-- The vectors `vs` and `ve` of a loop over the lines of a region. -/
structure LoopVectors (v1 v2 : List Int) (ndim : Nat) (vs ve : List Int) : Prop where
  starts : ∃ y, vs = (sectAxis v1 v2 ndim 1).1 :: (innerStart v1 v2 ndim (ndim - 1) ++ y)
  ends : ∃ z, ve = ((sectAxis v1 v2 ndim 1).1 + (sectAxis v1 v2 ndim 1).2 - 1) ::
    (innerEnd v1 v2 ndim (ndim - 1) ++ z)

/-- The first vector of a line that may lie beyond the end of the last axis. -/
structure Row (naxes : Nat) (v1 v2 : List Int) (ndim : Nat) (w : List Int) : Prop where
  length : w.length = naxes
  first : word w 1 = (sectAxis v1 v2 ndim 1).1
  rest : ∀ i : Nat, ndim < i → i ≤ naxes → word w i = 1

/-- The line that a loop stands at when its last axis is at `x` and the others are at
their starts. -/
def aboveStart (naxes : Nat) (v1 v2 : List Int) (ndim : Nat) (x : Int) : List Int :=
  (sectAxis v1 v2 ndim 1).1 ::
    (innerStart v1 v2 ndim (ndim - 2) ++ [x] ++ List.replicate (naxes - ndim) 1)

/-- The lines at `x` of the last axis. -/
def aboveLines (naxes : Nat) (v1 v2 : List Int) (ndim : Nat) (x : Int) : List (List Int) :=
  (box (innerStart v1 v2 ndim (ndim - 2)) (innerEnd v1 v2 ndim (ndim - 2))).map fun u =>
    (sectAxis v1 v2 ndim 1).1 :: (u ++ [x] ++ List.replicate (naxes - ndim) 1)

theorem aboveLines_head (naxes : Nat) (v1 v2 : List Int) (ndim : Nat) (x : Int) :
    ∃ l, aboveLines naxes v1 v2 ndim x = aboveStart naxes v1 v2 ndim x :: l := by
  obtain ⟨l, hl⟩ := box_cons (@sect_forall₂ v1 v2 ndim (ndim - 2))
  refine ⟨l.map fun u => (sectAxis v1 v2 ndim 1).1 ::
    (u ++ [x] ++ List.replicate (naxes - ndim) 1), ?_⟩
  rw [aboveLines, innerStart, innerEnd, hl]
  rfl

theorem word_eq_getElem {l : List Int} {i : Nat} (hi : 1 ≤ i) (hl : i ≤ l.length) :
    word l i = l[i - 1] := by
  have hindex : ((i : Int) - 1).toNat = i - 1 := by omega
  rw [word, hindex, List.getD_eq_getElem _ _ (by omega)]

theorem Row.of_sectLines (hn : 0 < naxes) (hw : w ∈ sectLines naxes v1 v2 ndim) :
    Row naxes v1 v2 ndim w := by
  obtain ⟨hlen, hfirst, hcoord⟩ := (mem_sectLines hn).mp hw
  refine ⟨hlen, hfirst, fun i hlo hhi => ?_⟩
  rcases Nat.lt_or_ge i 2 with hone | htwo
  · obtain rfl : i = 1 := by omega
    rw [Nat.cast_one, hfirst]
    exact congrArg Prod.fst (if_neg (by omega))
  · have hget := hcoord i htwo hhi
    have haxis : sectAxis v1 v2 ndim i = (1, 1) := if_neg (by omega)
    rw [haxis] at hget
    simp only at hget
    omega

theorem Row.of_aboveLines {x : Int} (hlo : 2 ≤ ndim) (hhi : ndim ≤ naxes)
    (hw : w ∈ aboveLines naxes v1 v2 ndim x) : Row naxes v1 v2 ndim w ∧ word w ndim = x ∧
      ∀ i : Nat, 2 ≤ i → i < ndim → (sectAxis v1 v2 ndim i).1 ≤ word w i ∧
        word w i ≤ (sectAxis v1 v2 ndim i).1 + (sectAxis v1 v2 ndim i).2 - 1 := by
  obtain ⟨u, hu, rfl⟩ := List.mem_map.mp hw
  obtain ⟨hlen, hcoord⟩ := (mem_box (by simp)).mp hu
  rw [length_innerStart] at hlen hcoord
  have hword : ∀ i : Nat, 2 ≤ i →
      word ((sectAxis v1 v2 ndim 1).1 :: (u ++ [x] ++ List.replicate (naxes - ndim) 1)) i =
        (u ++ [x] ++ List.replicate (naxes - ndim) 1).getD (i - 2) 0 := by
    intro i hi
    have hindex : ((i : Int) - 1).toNat = i - 2 + 1 := by omega
    rw [word, hindex, List.getD_cons_succ]
  have hlast : ∀ i : Nat, ndim < i → i ≤ naxes →
      (u ++ [x] ++ List.replicate (naxes - ndim) 1).getD (i - 2) 0 = 1 := by
    intro i hi hi'
    rw [List.getD_append_right _ _ _ _ (by simp; omega), List.getD_eq_getElem _ _ (by simp; omega),
      List.getElem_replicate]
  refine ⟨⟨by simp; omega, rfl, fun i hi hi' => ?_⟩, ?_, fun i hi hi' => ?_⟩
  · rw [hword i (by omega), hlast i hi hi']
  · rw [hword ndim hlo, List.getD_append _ _ _ _ (by simp; omega),
      List.getD_append_right _ _ _ _ (by omega), hlen, Nat.sub_self]
    rfl
  · have hindex : i - 2 = ((i - 1 : Nat) - 1 : Int).toNat := by omega
    have hget := hcoord (i - 1) (by omega) (by omega)
    have haxis : i - 1 - 1 + 2 = i := by omega
    rw [innerStart, innerEnd, word_map_range _ (by omega) (by omega),
      word_map_range _ (by omega) (by omega), haxis] at hget
    rw [hword i hi, List.getD_append _ _ _ _ (by simp; omega),
      List.getD_append _ _ _ _ (by omega), hindex]
    exact hget

theorem Row.ones (h : Row naxes v1 v2 ndim w) :
    w.drop ndim = List.replicate (naxes - ndim) 1 := by
  have hlen := h.length
  apply List.ext_getElem
  · simp [hlen]
  · intro i hi _
    rw [List.length_drop] at hi
    have hone := h.rest (ndim + 1 + i) (by omega) (by omega)
    rw [word_eq_getElem (by omega) (by omega)] at hone
    rw [List.getElem_drop, List.getElem_replicate, ← hone]
    congr 1
    omega

theorem Row.tail_eq (h : Row naxes v1 v2 ndim w) (hlo : 1 ≤ ndim) (hhi : ndim ≤ naxes) :
    w.tail = (List.range (ndim - 1)).map (fun k => word w (k + 2 : Nat)) ++
      List.replicate (naxes - ndim) 1 := by
  have hlen := h.length
  have hones := h.ones
  obtain ⟨x, t, rfl⟩ := List.exists_cons_of_length_pos (show 0 < w.length by omega)
  obtain ⟨n, rfl⟩ : ∃ n, ndim = n + 1 := ⟨ndim - 1, by omega⟩
  rw [List.length_cons] at hlen
  rw [List.drop_succ_cons] at hones
  rw [List.tail_cons, Nat.add_sub_cancel, ← hones]
  conv_lhs => rw [← List.take_append_drop n t]
  congr 1
  apply List.ext_getElem
  · simp
    omega
  · intro k hk _
    rw [List.length_take] at hk
    rw [List.getElem_take, List.getElem_map, List.getElem_range,
      word_eq_getElem (by omega) (by rw [List.length_cons]; omega)]
    rfl

theorem Row.split (h : Row naxes v1 v2 ndim w) (hlo : 2 ≤ ndim) (hhi : ndim ≤ naxes) :
    ∃ u, u.length = ndim - 2 ∧ w = (sectAxis v1 v2 ndim 1).1 ::
      (u ++ [word w ndim] ++ List.replicate (naxes - ndim) 1) := by
  have htail := h.tail_eq (by omega) hhi
  have hlen := h.length
  have hfirst := h.first
  obtain ⟨n, rfl⟩ : ∃ n, ndim = n + 2 := ⟨ndim - 2, by omega⟩
  have hcount : n + 2 - 1 = n + 1 := rfl
  rw [hcount, List.range_succ, List.map_append, List.map_singleton] at htail
  refine ⟨(List.range n).map fun k => word w (k + 2 : Nat), by simp, ?_⟩
  rw [← htail]
  obtain ⟨x, t, rfl⟩ := List.exists_cons_of_length_pos (show 0 < w.length by omega)
  exact congrArg (· :: t) hfirst

namespace LoopVectors

variable (h : LoopVectors v1 v2 ndim vs ve)
include h

theorem orbit (hlo : 1 ≤ ndim) (hhi : ndim ≤ naxes) (rest : List Int) :
    Orbit (fun v => nextAfter (plloop v vs ve ndim))
      ((sectLines naxes v1 v2 ndim).map (· ++ rest)) := by
  obtain ⟨y, rfl⟩ := h.starts
  obtain ⟨z, rfl⟩ := h.ends
  have horbit := plloop_orbit (sectAxis v1 v2 ndim 1).1 (sectAxis v1 v2 ndim 1).1
    ((sectAxis v1 v2 ndim 1).1 + (sectAxis v1 v2 ndim 1).2 - 1)
    (@sect_forall₂ v1 v2 ndim (ndim - 1)) (List.replicate (naxes - ndim) 1 ++ rest) y z
  rw [List.length_map, List.length_range, Nat.sub_add_cancel hlo] at horbit
  rw [sectLines_split hlo hhi, List.map_map]
  simp only [Function.comp_def, List.cons_append, List.append_assoc]
  exact horbit

variable (naxes) in
/-- Beyond the end of the region the loop goes through the lines at one place of the last
axis. -/
theorem orbit_above (hlo : 2 ≤ ndim) (rest : List Int) {x : Int}
    (hx : (sectAxis v1 v2 ndim ndim).1 + (sectAxis v1 v2 ndim ndim).2 - 1 < x + 1) :
    Orbit (fun v => nextAfter (plloop v vs ve ndim))
      ((aboveLines naxes v1 v2 ndim x).map (· ++ rest)) := by
  obtain ⟨y, rfl⟩ := h.starts
  obtain ⟨z, rfl⟩ := h.ends
  obtain ⟨hstart, hend⟩ := @inner_last v1 v2 ndim hlo
  have haxes := plloopAxes_orbit_above (@sect_forall₂ v1 v2 ndim (ndim - 2))
    (sectAxis v1 v2 ndim ndim).1 hx
  have horbit := orbit_plloop haxes (by simp) (fun v hv => by
      obtain ⟨u, hu, rfl⟩ := List.mem_map.mp hv
      have hlen := ((mem_box (by simp)).mp hu).1
      simp only [List.length_append, hlen]
      rfl) (sectAxis v1 v2 ndim 1).1 (sectAxis v1 v2 ndim 1).1
    ((sectAxis v1 v2 ndim 1).1 + (sectAxis v1 v2 ndim 1).2 - 1)
    (List.replicate (naxes - ndim) 1 ++ rest) y z
  have hcount : ndim - 2 + 1 + 1 = ndim := by omega
  rw [hstart, hend, aboveLines, List.map_map]
  rw [List.length_append, List.length_map, List.length_range, List.length_singleton, hcount,
    List.map_map] at horbit
  simp only [Function.comp_def, List.cons_append, List.append_assoc] at horbit ⊢
  exact horbit

theorem done (hlo : 2 ≤ ndim) (hhi : ndim ≤ naxes) (hw : Row naxes v1 v2 ndim w)
    {v : List Int} (hdone : plloop (w ++ rest) vs ve ndim = (v, .done)) :
    v = aboveStart naxes v1 v2 ndim (word w ndim + 1) ++ rest ∧
      (sectAxis v1 v2 ndim ndim).1 + (sectAxis v1 v2 ndim ndim).2 - 1 < word w ndim + 1 := by
  obtain ⟨y, rfl⟩ := h.starts
  obtain ⟨z, rfl⟩ := h.ends
  obtain ⟨hstart, hend⟩ := @inner_last v1 v2 ndim hlo
  obtain ⟨u, hu, hsplit⟩ := hw.split hlo hhi
  have happend := plloop_append (sectAxis v1 v2 ndim 1).1 (sectAxis v1 v2 ndim 1).1
    ((sectAxis v1 v2 ndim 1).1 + (sectAxis v1 v2 ndim 1).2 - 1)
    (u ++ [word w ndim]) (innerStart v1 v2 ndim (ndim - 1)) (innerEnd v1 v2 ndim (ndim - 1))
    (by simp; omega) (by simp; omega)
    (List.replicate (naxes - ndim) 1 ++ rest) y z
  have hcount : (u ++ [word w ndim]).length = u.length + 1 := by simp
  have hndim : u.length + 1 + 1 = ndim := by omega
  generalize hlast : word w ndim = x at *
  rw [hsplit, List.cons_append, List.append_assoc] at hdone
  rw [hcount, hndim, hdone, hstart, hend] at happend
  obtain ⟨hv, hstatus⟩ := Prod.mk.inj happend
  obtain ⟨hrest, hend⟩ := plloopAxes_done (by simp [hu]) (by simp [hu])
    (Prod.ext rfl hstatus.symm)
  refine ⟨?_, hend⟩
  rw [hv, aboveStart, List.cons_append, List.append_assoc]
  congr 2

end LoopVectors

end Axes

end Iraf.Plio
