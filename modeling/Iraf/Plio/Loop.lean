import Mathlib.Data.Int.Range
import Iraf.Lib.Odometer
import Iraf.Plio.LineIndex

/-!
# Loops over the lines of a section

`plloop` steps a vector through the lines of a section of a mask, along all axes but
the first, and `plsslv` sets the vector up.  A loop that ends with
`until (plloop (v, vs, ve, ndim) == LOOP_DONE)` executes its body at every line of the
section, once and in storage order.
-/

namespace Iraf.Plio

open Odometer

inductive LoopStatus where
  | again
  | done
  deriving DecidableEq, Repr

/-- The loop of `plloop` over `n` axes, on the coordinates from the first of them on. -/
def plloopAxes : Nat → List Int → List Int → List Int → List Int × LoopStatus
  | n + 1, x :: v, s :: vs, e :: ve =>
      if x + 1 > e then
        if n > 0 then
          let next := plloopAxes n v vs ve
          (s :: next.1, next.2)
        -- The last coordinate is left past its end.
        else ((x + 1) :: v, .done)
      else ((x + 1) :: v, .again)
  | _, v, _, _ => (v, .done)

/-- `plloop`: the vector and what is returned. -/
def plloop (v vs ve : List Int) (ndim : Nat) : List Int × LoopStatus :=
  match v with
  | [] => ([], .done)
  | x :: v =>
      let next := plloopAxes (ndim - 1) v vs.tail ve.tail
      (x :: next.1, next.2)

/-- `plsslv`: the loop index and the end of the section. -/
def plsslv (pl : Mask) (vs vn : List Int) : List Int × List Int :=
  (vs.take pl.naxes,
    List.zipWith (fun s n => s + n - 1) (vs.take pl.naxes) (vn.take pl.naxes))

/-- What a loop goes on with; nothing after `LOOP_DONE`. -/
def nextAfter {α : Type} : α × LoopStatus → Option α
  | (v, .again) => some v
  | (_, .done) => none

/-! ## The lines that a loop visits -/

/-- The vectors between two corners, in storage order. -/
def box : List Int → List Int → List (List Int)
  | s :: vs, e :: ve => (box vs ve).flatMap fun v => (Int.range s (e + 1)).map (· :: v)
  | _, _ => [[]]

theorem word_cons_succ (x : Int) (l : List Int) {i : Nat} (hi : 1 ≤ i) :
    word (x :: l) (i + 1 : Nat) = word l i := by
  obtain ⟨j, rfl⟩ := Nat.exists_eq_add_of_le' hi
  have houter : (((j + 1 + 1 : Nat) : Int) - 1).toNat = j + 1 := by omega
  have hinner : (((j + 1 : Nat) : Int) - 1).toNat = j := by omega
  rw [word, word, houter, hinner, List.getD_cons_succ]

theorem mem_box {vs ve v : List Int} (h : vs.length = ve.length) :
    v ∈ box vs ve ↔ v.length = vs.length ∧
      ∀ i : Nat, 1 ≤ i → i ≤ vs.length → word vs i ≤ word v i ∧ word v i ≤ word ve i := by
  induction vs generalizing ve v with
  | nil =>
      obtain rfl : ve = [] := List.length_eq_zero_iff.mp h.symm
      have hbox : box [] [] = [[]] := rfl
      rw [hbox, List.mem_singleton, List.length_nil, List.length_eq_zero_iff]
      constructor
      · intro hv
        exact ⟨hv, fun i hlo hhi => absurd hhi (by omega)⟩
      · exact fun hv => hv.1
  | cons s vs ih =>
      obtain ⟨e, ve, rfl⟩ := List.exists_cons_of_length_eq_add_one h.symm
      rw [List.length_cons, List.length_cons, Nat.add_right_cancel_iff] at h
      have hmem : v ∈ box (s :: vs) (e :: ve) ↔
          ∃ x w, v = x :: w ∧ w ∈ box vs ve ∧ s ≤ x ∧ x ≤ e := by
        rw [box, List.mem_flatMap]
        constructor
        · rintro ⟨w, hw, hv⟩
          obtain ⟨x, hx, rfl⟩ := List.mem_map.mp hv
          have hrange := Int.mem_range_iff.mp hx
          exact ⟨x, w, rfl, hw, hrange.1, by omega⟩
        · rintro ⟨x, w, rfl, hw, hlo, hhi⟩
          exact ⟨w, hw, List.mem_map.mpr ⟨x, Int.mem_range_iff.mpr ⟨hlo, by omega⟩, rfl⟩⟩
      rw [hmem]
      constructor
      · rintro ⟨x, w, rfl, hw, hlo, hhi⟩
        obtain ⟨hlen, hcoord⟩ := (ih h).mp hw
        refine ⟨by simp [hlen], fun i hi hi' => ?_⟩
        rcases Nat.lt_or_ge 1 i with hmore | hone
        · obtain ⟨j, rfl⟩ := Nat.exists_eq_add_of_le' hi
          rw [word_cons_succ _ _ (by omega), word_cons_succ _ _ (by omega),
            word_cons_succ _ _ (by omega)]
          exact hcoord j (by omega) (by simpa using hi')
        · obtain rfl : i = 1 := by omega
          exact ⟨hlo, hhi⟩
      · rintro ⟨hlen, hcoord⟩
        obtain ⟨x, w, rfl⟩ := List.exists_cons_of_length_eq_add_one hlen
        have hfirst := hcoord 1 (by omega) (by simp)
        refine ⟨x, w, rfl, (ih h).mpr ⟨by simpa using hlen, fun i hi hi' => ?_⟩, hfirst⟩
        have hnext := hcoord (i + 1) (by omega) (by simpa using hi')
        rwa [word_cons_succ _ _ hi, word_cons_succ _ _ hi, word_cons_succ _ _ hi] at hnext

theorem range_cons {s e : Int} (h : s ≤ e) :
    Int.range s (e + 1) = s :: Int.range (s + 1) (e + 1) := by
  obtain ⟨n, rfl⟩ : ∃ n : Nat, e = s + n := ⟨(e - s).toNat, by omega⟩
  have hcount : (s + (n : Int) + 1 - s).toNat = n + 1 := by omega
  have hrest : (s + (n : Int) + 1 - (s + 1)).toNat = n := by omega
  unfold Int.range
  rw [hcount, hrest, List.range_succ_eq_map, List.map_cons, List.map_map]
  congr 1
  · simp
  · apply List.map_congr_left
    intro k _
    simp only [Function.comp_apply]
    omega

theorem box_self (u : List Int) : box u u = [u] := by
  induction u with
  | nil => rfl
  | cons x u ih =>
      have hone : Int.range x (x + 1) = [x] := by
        rw [range_cons (Int.le_refl x)]
        simp [Int.range]
      rw [box, ih, hone]
      rfl

theorem orbit_range (n : Nat) {s e : Int} (hn : (n : Int) = e - s) :
    Orbit (fun x => if x + 1 > e then none else some (x + 1)) (Int.range s (e + 1)) := by
  induction n generalizing s with
  | zero =>
      obtain rfl : s = e := by omega
      rw [range_cons (Int.le_refl s), show Int.range (s + 1) (s + 1) = [] by simp [Int.range]]
      exact orbit_singleton.mpr (if_pos (by omega))
  | succ n ih =>
      have hrest := ih (s := s + 1) (by omega)
      rw [range_cons (by omega)] at hrest ⊢
      rw [range_cons (by omega)]
      exact orbit_cons.mpr ⟨if_neg (by omega), hrest⟩

theorem plloopAxes_cons_orbit {n : Nat} {vs ve : List Int} {l : List (List Int)}
    (h : Orbit (fun v => nextAfter (plloopAxes n v vs ve)) l) {s e : Int} (hle : s ≤ e) :
    Orbit (fun v => nextAfter (plloopAxes (n + 1) v (s :: vs) (e :: ve)))
      (l.flatMap fun v => (Int.range s (e + 1)).map (· :: v)) := by
  have hrow := orbit_range (e - s).toNat (s := s) (e := e) (by omega)
  rw [range_cons hle] at hrow ⊢
  apply Orbit.product _ _ hrow h
  · intro x x' v hx
    by_cases hlast : x + 1 > e
    · rw [if_pos hlast] at hx
      cases hx
    · rw [if_neg hlast] at hx
      obtain rfl := Option.some.inj hx
      rw [plloopAxes, if_neg hlast]
      rfl
  · intro x v hx
    by_cases hlast : x + 1 > e
    · rw [plloopAxes, if_pos hlast]
      cases n with
      | zero =>
          cases v with
          | nil => rfl
          | cons _ _ => rfl
      | succ n =>
          rw [if_pos (Nat.succ_pos n)]
          simp only
          generalize plloopAxes _ v _ _ = next
          obtain ⟨w, status⟩ := next
          cases status with
          | again => rfl
          | done => rfl
    · rw [if_neg hlast] at hx
      cases hx

theorem plloopAxes_orbit {vs ve : List Int} (h : List.Forall₂ (· ≤ ·) vs ve) :
    Orbit (fun v => nextAfter (plloopAxes vs.length v vs ve)) (box vs ve) := by
  induction h with
  | nil => exact orbit_singleton.mpr rfl
  | cons hle _ ih =>
      rw [box]
      exact plloopAxes_cons_orbit ih hle

/-- Beyond the end of the last axis the loop goes through one box of the others. -/
theorem plloopAxes_orbit_above {vs ve : List Int} (h : List.Forall₂ (· ≤ ·) vs ve)
    (s : Int) {e x : Int} (hx : e < x + 1) :
    Orbit (fun v => nextAfter (plloopAxes (vs ++ [s]).length v (vs ++ [s]) (ve ++ [e])))
      ((box vs ve).map (· ++ [x])) := by
  induction h with
  | nil =>
      apply orbit_singleton.mpr
      change nextAfter (plloopAxes 1 [x] [s] [e]) = none
      rw [plloopAxes, if_pos hx]
      rfl
  | @cons s' e' vs ve hle _ ih =>
      have hbox : (box (s' :: vs) (e' :: ve)).map (· ++ [x]) =
          ((box vs ve).map (· ++ [x])).flatMap fun v => (Int.range s' (e' + 1)).map (· :: v) := by
        rw [box, List.map_flatMap, List.flatMap_map]
        simp only [List.map_map]
        rfl
      rw [hbox]
      exact plloopAxes_cons_orbit ih hle

/-- A loop that is done leaves its vector at the start of every axis but the last, where
it is past the end. -/
theorem plloopAxes_done {u vs ve v : List Int} {x s e : Int} (hvs : vs.length = u.length)
    (hve : ve.length = u.length)
    (h : plloopAxes (u.length + 1) (u ++ [x]) (vs ++ [s]) (ve ++ [e]) = (v, .done)) :
    v = vs ++ [x + 1] ∧ e < x + 1 := by
  induction u generalizing vs ve v with
  | nil =>
      obtain rfl := List.length_eq_zero_iff.mp hvs
      obtain rfl := List.length_eq_zero_iff.mp hve
      change plloopAxes 1 [x] [s] [e] = _ at h
      by_cases hlast : x + 1 > e
      · rw [plloopAxes, if_pos hlast] at h
        obtain ⟨rfl, -⟩ := Prod.mk.inj h
        exact ⟨rfl, hlast⟩
      · rw [plloopAxes, if_neg hlast] at h
        cases (Prod.mk.inj h).2
  | cons y u ih =>
      obtain ⟨s', vs, rfl⟩ := List.exists_cons_of_length_eq_add_one hvs
      obtain ⟨e', ve, rfl⟩ := List.exists_cons_of_length_eq_add_one hve
      rw [List.length_cons, List.cons_append, List.cons_append, List.cons_append,
        plloopAxes] at h
      by_cases hlast : y + 1 > e'
      · rw [if_pos hlast, if_pos (Nat.succ_pos _)] at h
        obtain ⟨rfl, hdone⟩ := Prod.mk.inj h
        obtain ⟨hrest, hend⟩ := ih (v := (plloopAxes (u.length + 1) (u ++ [x]) (vs ++ [s])
          (ve ++ [e])).1) (by simpa using hvs) (by simpa using hve) (Prod.ext rfl hdone)
        rw [hrest]
        exact ⟨rfl, hend⟩
      · rw [if_neg hlast] at h
        cases (Prod.mk.inj h).2

theorem plloopAxes_append (v vs ve rest y z : List Int) (hvs : vs.length = v.length)
    (hve : ve.length = v.length) :
    plloopAxes v.length (v ++ rest) (vs ++ y) (ve ++ z) =
      ((plloopAxes v.length v vs ve).1 ++ rest, (plloopAxes v.length v vs ve).2) := by
  induction v generalizing vs ve with
  | nil => rfl
  | cons x v ih =>
      obtain ⟨s, vs, rfl⟩ := List.exists_cons_of_length_eq_add_one hvs
      obtain ⟨e, ve, rfl⟩ := List.exists_cons_of_length_eq_add_one hve
      have hrest := ih vs ve (by simpa using hvs) (by simpa using hve)
      simp only [List.length_cons, List.cons_append, plloopAxes]
      by_cases hlast : x + 1 > e
      · rw [if_pos hlast, if_pos hlast]
        by_cases hmore : v.length > 0
        · rw [if_pos hmore, if_pos hmore, hrest]
          rfl
        · rw [if_neg hmore, if_neg hmore]
          rfl
      · rw [if_neg hlast, if_neg hlast]
        rfl

/-- The loop leaves the first coordinate alone, and those after the last axis. -/
theorem plloop_append (x s e : Int) (v vs ve : List Int) (hvs : vs.length = v.length)
    (hve : ve.length = v.length) (rest y z : List Int) :
    plloop (x :: (v ++ rest)) (s :: (vs ++ y)) (e :: (ve ++ z)) (v.length + 1) =
      (x :: ((plloopAxes v.length v vs ve).1 ++ rest), (plloopAxes v.length v vs ve).2) := by
  simp only [plloop, List.tail_cons, Nat.add_sub_cancel,
    plloopAxes_append v vs ve rest y z hvs hve]

theorem orbit_plloop {vs ve : List Int} {l : List (List Int)}
    (h : Orbit (fun v => nextAfter (plloopAxes vs.length v vs ve)) l)
    (hve : ve.length = vs.length) (hl : ∀ v ∈ l, v.length = vs.length)
    (x s e : Int) (rest y z : List Int) :
    Orbit (fun v => nextAfter (plloop v (s :: (vs ++ y)) (e :: (ve ++ z)) (vs.length + 1)))
      (l.map fun v => x :: (v ++ rest)) := by
  apply h.map
  intro v hv
  have hlen := hl v hv
  have happend := plloop_append x s e _ _ _ (hlen.symm) (hve.trans hlen.symm) rest y z
  rw [hlen] at happend
  rw [happend]
  generalize plloopAxes _ v _ _ = next
  obtain ⟨w, status⟩ := next
  cases status with
  | again => rfl
  | done => rfl

/-- A loop over the lines of a section goes through the lines of the section. -/
theorem plloop_orbit (x s e : Int) {vs ve : List Int} (h : List.Forall₂ (· ≤ ·) vs ve)
    (rest y z : List Int) :
    Orbit (fun v => nextAfter (plloop v (s :: (vs ++ y)) (e :: (ve ++ z)) (vs.length + 1)))
      ((box vs ve).map fun v => x :: (v ++ rest)) :=
  orbit_plloop (plloopAxes_orbit h) h.length_eq.symm
    (fun _ hv => ((mem_box h.length_eq).mp hv).1) x s e rest y z

end Iraf.Plio
