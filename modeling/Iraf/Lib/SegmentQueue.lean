import Iraf.Lib.SegmentWalk

/-!
# The segments that a cursor delivers

A cursor known by the segments it has still to deliver, their lengths and values.  The
pixels of a line may be cut into segments in several ways; a reader that looks at one
segment only depends on the cut.
-/

namespace Iraf.SegmentWalk

variable {α C : Type}

/-- The pixels of some segments. -/
def segPixels (segs : List (Nat × α)) : List α :=
  segs.flatMap fun s => List.replicate s.1 s.2

@[simp] theorem segPixels_nil : segPixels ([] : List (Nat × α)) = [] := rfl

@[simp] theorem segPixels_cons (n : Nat) (v : α) (segs : List (Nat × α)) :
    segPixels ((n, v) :: segs) = List.replicate n v ++ segPixels segs := rfl

@[simp] theorem segPixels_append (segs segs' : List (Nat × α)) :
    segPixels (segs ++ segs') = segPixels segs ++ segPixels segs' :=
  List.flatMap_append

/-- The segments after the first `k` pixels. -/
def skip : List (Nat × α) → Nat → List (Nat × α)
  | [], _ => []
  | (n, v) :: segs, k => if k < n then (n - k, v) :: segs else skip segs (k - n)

/-- The pixels of a segment from the place `k` on. -/
def leftAt (segs : List (Nat × α)) (k : Nat) : Nat :=
  ((skip segs k).head?.map Prod.fst).getD 0

theorem leftAt_le {segs : List (Nat × α)} {n : Nat} (h : ∀ s ∈ segs, s.1 ≤ n) (k : Nat) :
    leftAt segs k ≤ n := by
  induction segs generalizing k with
  | nil => exact Nat.zero_le n
  | cons s segs ih =>
      have hs := h s List.mem_cons_self
      unfold leftAt
      rw [skip]
      split
      case isTrue hk =>
        change s.1 - k ≤ n
        omega
      case isFalse => exact ih (fun t ht => h t (List.mem_cons_of_mem s ht)) _

theorem segPixels_skip (segs : List (Nat × α)) (k : Nat) :
    segPixels (skip segs k) = (segPixels segs).drop k := by
  induction segs generalizing k with
  | nil => simp [skip]
  | cons s segs ih =>
      obtain ⟨n, v⟩ := s
      rw [skip]
      by_cases hk : k < n
      · rw [if_pos hk, segPixels_cons, segPixels_cons,
          List.drop_append_of_le_length (by simp; omega), List.drop_replicate]
      · have hnone : n - k = 0 := by omega
        rw [if_neg hk, ih, segPixels_cons, List.drop_append, List.length_replicate,
          List.drop_replicate, hnone]
        rfl

theorem getD_of_skip {segs rest : List (Nat × α)} {k n j : Nat} {v : α}
    (h : skip segs k = (n, v) :: rest) (hj : j < n) (d : α) :
    (segPixels segs).getD (k + j) d = v := by
  have hdrop := segPixels_skip segs k
  have hget : (segPixels segs)[k + j]? = some v := by
    rw [← List.getElem?_drop, ← hdrop, h, segPixels_cons,
      List.getElem?_append_left (by rwa [List.length_replicate]), List.getElem?_replicate,
      if_pos hj]
  rw [List.getD_eq_getElem?_getD, hget]
  rfl

/-- `queue c segs` says that the cursor `c` has still to deliver `segs`. -/
structure Reader.Queues (r : Reader α C) (queue : C → List (Nat × α) → Prop) : Prop where
  head : ∀ {c n v segs}, queue c ((n, v) :: segs) → 0 < n ∧ r.nleft c = n
  value : ∀ {c n v segs}, queue c ((n, v) :: segs) → ∀ np, (r.getseg c np).2 = v
  part : ∀ {c n v segs}, queue c ((n, v) :: segs) → ∀ np : Nat, np < n →
    queue (r.getseg c np).1 ((n - np, v) :: segs)
  next : ∀ {c n v segs}, queue c ((n, v) :: segs) → queue (r.getseg c (n : Int)).1 segs

namespace Reader.Queues

variable {r : Reader α C} {queue : C → List (Nat × α) → Prop} (h : r.Queues queue)
include h

theorem advance {xs : Int} (segs : List (Nat × α)) :
    ∀ {x1 : Int} {c : C} (fuel : Nat), queue c segs → x1 ≤ xs →
      xs - x1 < (segPixels segs).length → xs - x1 < fuel →
      queue (r.advance xs fuel x1 c) (skip segs (xs - x1).toNat) := by
  induction segs with
  | nil =>
      intro x1 c fuel _ hle hlen
      rw [segPixels_nil, List.length_nil] at hlen
      omega
  | cons s segs ih =>
      intro x1 c fuel hc hle hlen hfuel
      obtain ⟨n, v⟩ := s
      obtain ⟨hpos, hleft⟩ := h.head hc
      rw [segPixels_cons, List.length_append, List.length_replicate] at hlen
      obtain ⟨fuel, rfl⟩ : ∃ f, fuel = f + 1 := ⟨fuel - 1, by omega⟩
      rw [Reader.advance, hleft]
      by_cases hin : xs - x1 < n
      · -- The position lies in this segment.
        have hmin : min (n : Int) (xs - x1) = ((xs - x1).toNat : Nat) := by omega
        have hstop : x1 + ((xs - x1).toNat : Int) ≥ xs ∨ ((xs - x1).toNat : Int) = 0 := by
          omega
        simp only [hmin]
        rw [if_pos hstop, skip, if_pos (by omega)]
        exact h.part hc _ (by omega)
      · have hmin : min (n : Int) (xs - x1) = (n : Nat) := by omega
        have hcount : (xs - x1).toNat - n = (xs - (x1 + n)).toNat := by omega
        have hout : ¬ (xs - x1).toNat < n := by omega
        have hrest := h.next hc
        simp only [hmin]
        rw [skip, if_neg hout, hcount]
        by_cases hstop : x1 + (n : Int) ≥ xs ∨ (n : Int) = 0
        · -- The position is the first one of the next segment.
          have hzero : (xs - (x1 + (n : Int))).toNat = 0 := by omega
          rw [if_pos hstop, hzero]
          cases segs with
          | nil =>
              rw [segPixels_nil, List.length_nil] at hlen
              omega
          | cons t segs =>
              rw [skip, if_pos (h.head hrest).1]
              exact hrest
        · rw [if_neg hstop]
          exact ih fuel hrest (by omega) (by omega) (by omega)

end Reader.Queues

end Iraf.SegmentWalk
