import Mathlib.Data.Int.Interval
import Mathlib.Data.Set.Finite.Lemmas
import Iraf.Lib.Enumeration
import Iraf.Xtools.RangeList

/-!
# The numbers of a range list

Which calls of `get_next_number` and `get_previous_number` give the nearest number.  A range
that the number lies in, without being one of its numbers, sets the candidate without a look at
those of the ranges before it.
-/

namespace Iraf.Xtools

open Enumeration
open Fmtio.LongText (isWhite)

/-! ## Decoded lists -/

/-- What the conversion of digits leaves in a triple. -/
structure RangeTriple.Decoded (r : RangeTriple) : Prop where
  first : 0 ≤ r.first
  last : 0 ≤ r.last
  step : 1 ≤ r.step

theorem ctoi_digit {c : Char} {str rest : List Char} {nchars val : Int} (hc : c.isDigit)
    (h : ctoi (c :: str) = (nchars, val, rest)) : 0 ≤ val := by
  have hwhite : isWhite c = false := by
    rw [isWhite]
    rcases eq_or_ne c ' ' with rfl | hblank
    · exact absurd hc (by decide)
    · rcases eq_or_ne c '\t' with rfl | htab
      · exact absurd hc (by decide)
      · simp [hblank, htab]
  have hminus : c ≠ '-' := by
    rintro rfl
    exact absurd hc (by decide)
  have hindef : c ≠ 'I' := by
    rintro rfl
    exact absurd hc (by decide)
  have hstart : (c :: str).dropWhile isWhite = c :: str := by
    rw [List.dropWhile_cons, hwhite]
    rfl
  have hprefix : ¬ Fmtio.LongText.indef <+: c :: str := by
    rw [Fmtio.LongText.indef]
    intro hp
    exact hindef (List.cons_prefix_cons.mp hp).1.symm
  simp only [ctoi, hstart, hprefix, false_and, if_false, List.head?_cons] at h
  have hneg : (some c == some '-') = false := by simp [hminus]
  simp only [hneg, Bool.false_eq_true, if_false, Prod.mk.injEq] at h
  rw [← h.2.1]
  exact Int.natCast_nonneg _

theorem firstLimit_nonneg {str rest : List Char} {first : Int}
    (h : firstLimit str = some (first, rest)) : 0 ≤ first := by
  cases str with
  | nil => exact absurd h (by simp [firstLimit])
  | cons c str =>
      rw [firstLimit] at h
      split at h
      · obtain ⟨rfl, -⟩ := Prod.mk.inj (Option.some.inj h)
        decide
      · split at h
        case isTrue hdigit =>
          rcases hctoi : ctoi (c :: str) with ⟨nchars, val, tail⟩
          rw [hctoi] at h
          simp only at h
          split at h
          · exact absurd h (by simp)
          · obtain ⟨rfl, -⟩ := Prod.mk.inj (Option.some.inj h)
            exact ctoi_digit hdigit hctoi
        case isFalse => exact absurd h (by simp)

theorem maxInt_nonneg : 0 ≤ maxInt := by decide

theorem lastLimit_nonneg {str rest : List Char} {first last : Int} (hfirst : 0 ≤ first)
    (h : lastLimit first str = some (last, rest)) : 0 ≤ last := by
  rw [lastLimit.eq_def] at h
  split at h
  · obtain ⟨rfl, -⟩ := Prod.mk.inj (Option.some.inj h)
    exact maxInt_nonneg
  · split at h
    · obtain ⟨rfl, -⟩ := Prod.mk.inj (Option.some.inj h)
      exact maxInt_nonneg
    · split at h
      case isTrue hdigit =>
        rcases hctoi : ctoi (_ :: _) with ⟨nchars, val, tail⟩
        rw [hctoi] at h
        simp only at h
        split at h
        · exact absurd h (by simp)
        · obtain ⟨rfl, -⟩ := Prod.mk.inj (Option.some.inj h)
          exact ctoi_digit hdigit hctoi
      case isFalse =>
        split at h
        · obtain ⟨rfl, -⟩ := Prod.mk.inj (Option.some.inj h)
          exact maxInt_nonneg
        · exact absurd h (by simp)
  · obtain ⟨rfl, -⟩ := Prod.mk.inj (Option.some.inj h)
    exact hfirst

theorem rangeStep_pos {str rest : List Char} {step : Int}
    (h : rangeStep str = some (step, rest)) : 1 ≤ step := by
  rw [rangeStep.eq_def] at h
  split at h
  · split at h
    · obtain ⟨rfl, -⟩ := Prod.mk.inj (Option.some.inj h)
      exact Int.le_refl 1
    · split at h
      case isTrue hdigit =>
        rcases hctoi : ctoi (_ :: _) with ⟨nchars, val, tail⟩
        rw [hctoi] at h
        simp only at h
        have hnonneg := ctoi_digit hdigit hctoi
        split at h
        · exact absurd h (by simp)
        · obtain ⟨rfl, -⟩ := Prod.mk.inj (Option.some.inj h)
          omega
      case isFalse =>
        split at h
        · obtain ⟨rfl, -⟩ := Prod.mk.inj (Option.some.inj h)
          exact Int.le_refl 1
        · exact absurd h (by simp)
  · obtain ⟨rfl, -⟩ := Prod.mk.inj (Option.some.inj h)
    exact Int.le_refl 1

theorem decodeLoop_decoded {room : Nat} {isFirst : Bool} {str : List Char} {nvalues n : Int}
    {ranges : List RangeTriple} (h : decodeLoop room isFirst str nvalues = some (ranges, n)) :
    ∀ r ∈ ranges, r.Decoded := by
  induction room generalizing isFirst str nvalues ranges n with
  | zero => exact absurd h (by simp [decodeLoop])
  | succ room ih =>
      rw [decodeLoop.eq_def] at h
      simp only at h
      split at h
      · split at h
        · obtain ⟨rfl, -⟩ := Prod.mk.inj (Option.some.inj h)
          intro r hr
          obtain rfl := List.mem_singleton.mp hr
          exact ⟨by decide, maxInt_nonneg, Int.le_refl 1⟩
        · obtain ⟨rfl, -⟩ := Prod.mk.inj (Option.some.inj h)
          simp
      · simp only [Option.bind_eq_bind, Option.bind_eq_some_iff, Prod.exists] at h
        obtain ⟨first, str1, hfirst, last, str2, hlast, step, str3, hstep, rest, m, hrest, heq⟩ := h
        obtain ⟨rfl, -⟩ := Prod.mk.inj (Option.some.inj heq)
        have hnonneg := firstLimit_nonneg hfirst
        exact List.forall_mem_cons.mpr
          ⟨⟨hnonneg, lastLimit_nonneg hnonneg hlast, rangeStep_pos hstep⟩, ih hrest⟩

theorem decodeRanges_decoded {str : List Char} {maxRanges : Nat} {ranges : List RangeTriple}
    {n : Int} (h : decodeRanges str maxRanges = some (ranges, n)) : ∀ r ∈ ranges, r.Decoded :=
  decodeLoop_decoded h

/-! ## Numbers -/

namespace RangeTriple

variable {r : RangeTriple} {m v : Int}

/-- The numbers from the smaller limit on, in steps. -/
def numbers (r : RangeTriple) : Set Int :=
  {v | r.lo ≤ v ∧ v ≤ r.hi ∧ (v - r.lo) % r.step = 0}

theorem remainder_eq (hm : r.lo ≤ m) : r.remainder m = (m - r.lo) % r.step :=
  Int.tmod_eq_emod_of_nonneg (by omega)

theorem mem_numbers : m ∈ r.numbers ↔ (m ≥ r.lo ∧ m ≤ r.hi) ∧ r.remainder m = 0 := by
  constructor
  · rintro ⟨hlo, hhi, hmod⟩
    exact ⟨⟨hlo, hhi⟩, (remainder_eq hlo).trans hmod⟩
  · rintro ⟨⟨hlo, hhi⟩, hmod⟩
    exact ⟨hlo, hhi, (remainder_eq hlo).symm.trans hmod⟩

theorem finite_numbers (r : RangeTriple) : r.numbers.Finite :=
  (Set.finite_Icc r.lo r.hi).subset fun _ hv => ⟨hv.1, hv.2.1⟩

theorem lo_le_hi (r : RangeTriple) : r.lo ≤ r.hi := min_le_max

theorem lo_mem (r : RangeTriple) : r.lo ∈ r.numbers :=
  ⟨Int.le_refl _, r.lo_le_hi, by rw [Int.sub_self, Int.zero_emod]⟩

/-- `number` lies between the limits, but is none of the numbers. -/
def inside (r : RangeTriple) (number : Int) : Bool :=
  decide ((number ≥ r.lo ∧ number ≤ r.hi) ∧ r.remainder number ≠ 0)

/-- And there is a number of the range after it. -/
def stepsOver (r : RangeTriple) (number : Int) : Bool :=
  r.inside number && decide (number - r.remainder number + r.step ≤ r.hi)

theorem remainder_bounds (hstep : 1 ≤ r.step) (hm : r.lo ≤ m) :
    0 ≤ r.remainder m ∧ r.remainder m < r.step := by
  rw [remainder_eq hm]
  exact ⟨Int.emod_nonneg _ (by omega), Int.emod_lt_of_pos _ (by omega)⟩

theorem remainder_spec (hm : r.lo ≤ m) :
    ∃ k, m - r.remainder m = r.lo + r.step * k := by
  refine ⟨(m - r.lo) / r.step, ?_⟩
  rw [remainder_eq hm]
  have := Int.mul_ediv_add_emod (m - r.lo) r.step
  omega

theorem numbers_spec (hv : v ∈ r.numbers) : ∃ k, v = r.lo + r.step * k := by
  obtain ⟨k, hk⟩ := Int.dvd_of_emod_eq_zero hv.2.2
  exact ⟨k, by omega⟩

theorem mem_of_multiple {k : Int} (hv : v = r.lo + r.step * k) (hlo : r.lo ≤ v) (hhi : v ≤ r.hi) :
    v ∈ r.numbers := by
  have hsub : v - r.lo = r.step * k := by omega
  exact ⟨hlo, hhi, by rw [hsub, Int.mul_emod_right]⟩

theorem isGreatest_below (hstep : 1 ≤ r.step) (hlo : r.lo ≤ m) (hhi : m ≤ r.hi) :
    IsGreatest {v | v ∈ r.numbers ∧ v ≤ m} (m - r.remainder m) := by
  obtain ⟨hnonneg, hlt⟩ := remainder_bounds hstep hlo
  obtain ⟨k, hk⟩ := remainder_spec hlo
  have hkpos : 0 ≤ k := by
    by_contra hneg
    have : r.step * k ≤ r.step * (-1) := Int.mul_le_mul_of_nonneg_left (by omega) (by omega)
    omega
  have hbase : r.lo ≤ m - r.remainder m := by
    rw [hk]
    have := Int.mul_nonneg (show 0 ≤ r.step by omega) hkpos
    omega
  refine ⟨⟨mem_of_multiple hk hbase (by omega), by omega⟩, fun v hv => ?_⟩
  obtain ⟨j, hj⟩ := numbers_spec hv.1
  have hle : v ≤ m := hv.2
  by_contra hgt
  have hjk : k + 1 ≤ j := by
    by_contra hnot
    have : r.step * j ≤ r.step * k := Int.mul_le_mul_of_nonneg_left (by omega) (by omega)
    omega
  have : r.step * (k + 1) ≤ r.step * j := Int.mul_le_mul_of_nonneg_left hjk (by omega)
  rw [Int.mul_add, Int.mul_one] at this
  omega

/-- A number above `m` is at least one step above the greatest number up to `m`. -/
theorem step_le (hstep : 1 ≤ r.step) (hlo : r.lo ≤ m) (hv : v ∈ r.numbers) (hlt : m < v) :
    m - r.remainder m + r.step ≤ v := by
  obtain ⟨hnonneg, -⟩ := remainder_bounds hstep hlo
  obtain ⟨k, hk⟩ := remainder_spec hlo
  obtain ⟨j, hj⟩ := numbers_spec hv
  have hjk : k + 1 ≤ j := by
    by_contra hnot
    have : r.step * j ≤ r.step * k := Int.mul_le_mul_of_nonneg_left (by omega) (by omega)
    omega
  have : r.step * (k + 1) ≤ r.step * j := Int.mul_le_mul_of_nonneg_left hjk (by omega)
  rw [Int.mul_add, Int.mul_one] at this
  omega

theorem isLeast_above (hstep : 1 ≤ r.step) (hover : r.stepsOver m = true) :
    IsLeast {v | v ∈ r.numbers ∧ m ≤ v} (m - r.remainder m + r.step) := by
  simp only [stepsOver, inside, Bool.and_eq_true, decide_eq_true_eq] at hover
  obtain ⟨⟨⟨hlo, hhi⟩, hrem⟩, hnext⟩ := hover
  obtain ⟨hnonneg, hlt⟩ := remainder_bounds hstep hlo
  obtain ⟨k, hk⟩ := remainder_spec hlo
  have hbase := (isGreatest_below hstep hlo hhi).1.1.1
  have hmul : m - r.remainder m + r.step = r.lo + r.step * (k + 1) := by
    rw [Int.mul_add, Int.mul_one]
    omega
  refine ⟨⟨mem_of_multiple hmul (by omega) hnext, by omega⟩, fun v hv => ?_⟩
  rcases Int.lt_or_eq_of_le hv.2 with hlt' | rfl
  · exact step_le hstep hlo hv.1 hlt'
  · exact absurd (mem_numbers.mp hv.1).2 hrem

/-- A range that is not stepped over begins above `m`, or has no number from `m` on. -/
theorem lt_of_not_stepsOver (hstep : 1 ≤ r.step) (hm : m ∉ r.numbers)
    (hover : r.stepsOver m = false) (hlo : ¬ r.lo > m) (hv : v ∈ r.numbers) : v < m := by
  by_contra hle
  have hne : m ≠ v := by
    rintro rfl
    exact hm hv
  have hnext := step_le hstep (Int.not_lt.mp hlo) hv (by omega)
  have hhi : v ≤ r.hi := hv.2.1
  have hrem : r.remainder m ≠ 0 := fun hzero =>
    hm (mem_numbers.mpr ⟨⟨by omega, by omega⟩, hzero⟩)
  have htrue : r.stepsOver m = true := by
    simp only [stepsOver, inside, Bool.and_eq_true, decide_eq_true_eq]
    exact ⟨⟨⟨by omega, by omega⟩, hrem⟩, by omega⟩
  rw [hover] at htrue
  exact Bool.false_ne_true htrue

end RangeTriple

/-! ## Lists of positive ranges -/

def numbersOf (ranges : List RangeTriple) : Set Int := {v | ∃ r ∈ ranges, v ∈ r.numbers}

structure RangeTriple.Positive (r : RangeTriple) : Prop where
  first : 1 ≤ r.first
  last : 1 ≤ r.last
  step : 1 ≤ r.step

theorem RangeTriple.Positive.lo_pos {r : RangeTriple} (h : r.Positive) : 1 ≤ r.lo :=
  le_min h.first h.last

/-- The loops do not stop at the range. -/
structure RangeTriple.Walked (r : RangeTriple) : Prop where
  first : ¬ r.first = EOLIST
  step : 1 ≤ r.step

theorem RangeTriple.Walked.step_ne {r : RangeTriple} (h : r.Walked) : ¬ r.step = 0 := by
  have := h.step
  omega

theorem RangeTriple.Positive.walked {r : RangeTriple} (h : r.Positive) : r.Walked := by
  have hfirst := h.first
  refine ⟨?_, h.step⟩
  rw [EOLIST]
  omega

variable {ranges rest : List RangeTriple} {r : RangeTriple} {m n next_number : Int}

theorem numbersOf_nil : numbersOf [] = ∅ := by simp [numbersOf]

theorem numbersOf_cons : numbersOf (r :: rest) = r.numbers ∪ numbersOf rest := by
  ext v
  simp [numbersOf]

theorem finite_numbersOf (ranges : List RangeTriple) : (numbersOf ranges).Finite := by
  induction ranges with
  | nil =>
      rw [numbersOf_nil]
      exact Set.finite_empty
  | cons r rest ih =>
      rw [numbersOf_cons]
      exact r.finite_numbers.union ih

theorem numbersOf_pos (h : ∀ r ∈ ranges, r.Positive) : ∀ v ∈ numbersOf ranges, 1 ≤ v := by
  rintro v ⟨r, hr, hv⟩
  exact le_trans (h r hr).lo_pos hv.1

/-- The ranges from the last one on that `p` holds of. -/
def fromLast (p : RangeTriple → Bool) : List RangeTriple → Option (List RangeTriple)
  | [] => none
  | r :: rest =>
      match fromLast p rest with
      | some found => some found
      | none => if p r then some (r :: rest) else none

/-! ### The next number -/

/-- What one range makes of the candidate, when `m` is not one of its numbers. -/
def nextCandidate (m next_number : Int) (r : RangeTriple) : Int :=
  if r.stepsOver m then m - r.remainder m + r.step
  else if r.lo > m then min next_number r.lo else next_number

theorem nextLoop_miss (h : r.Positive) (hm : m ∉ r.numbers) :
    nextLoop m next_number (r :: rest) = nextLoop m (nextCandidate m next_number r) rest := by
  rw [nextLoop, if_neg h.walked.first, if_neg h.walked.step_ne, nextCandidate]
  by_cases hlimits : m ≥ r.lo ∧ m ≤ r.hi
  · have hrem : ¬ r.remainder m = 0 := fun hzero =>
      hm (RangeTriple.mem_numbers.mpr ⟨hlimits, hzero⟩)
    have hlo : ¬ r.lo > m := by omega
    rw [if_pos hlimits, if_neg hrem, if_neg hlo]
    by_cases hnext : m - r.remainder m + r.step ≤ r.hi
    · have hover : r.stepsOver m = true := by
        simp [RangeTriple.stepsOver, RangeTriple.inside, hlimits, hrem, hnext]
      rw [if_pos hnext, if_pos hover]
    · have hover : ¬ r.stepsOver m = true := by
        simp [RangeTriple.stepsOver, hnext]
      rw [if_neg hnext, if_neg hover]
  · have hover : ¬ r.stepsOver m = true := by
      simp only [RangeTriple.stepsOver, RangeTriple.inside, Bool.and_eq_true, decide_eq_true_eq]
      exact fun hboth => hlimits hboth.1.1
    rw [if_neg hlimits, if_neg hover]
    by_cases hlo : r.lo > m
    · rw [if_pos hlo, if_pos hlo]
    · rw [if_neg hlo, if_neg hlo]

theorem nextLoop_hit (h : ∀ r ∈ ranges, r.Positive) (hm : m ∈ numbersOf ranges) :
    nextLoop m next_number ranges = .ok (some m) := by
  induction ranges generalizing next_number with
  | nil =>
      rw [numbersOf_nil] at hm
      exact absurd hm (Set.notMem_empty m)
  | cons r rest ih =>
      obtain ⟨hr, hrest⟩ := List.forall_mem_cons.mp h
      by_cases hmr : m ∈ r.numbers
      · obtain ⟨hlimits, hzero⟩ := RangeTriple.mem_numbers.mp hmr
        rw [nextLoop, if_neg hr.walked.first, if_neg hr.walked.step_ne, if_pos hlimits, if_pos hzero]
      · rw [numbersOf_cons] at hm
        rw [nextLoop_miss hr hmr]
        exact ih hrest (hm.resolve_left hmr)

theorem nextLoop_fold (h : ∀ r ∈ ranges, r.Positive) (hm : m ∉ numbersOf ranges) :
    nextLoop m next_number ranges =
      .ok (numberOrEof maxInt (ranges.foldl (nextCandidate m) next_number)) := by
  induction ranges generalizing next_number with
  | nil => rfl
  | cons r rest ih =>
      obtain ⟨hr, hrest⟩ := List.forall_mem_cons.mp h
      rw [numbersOf_cons] at hm
      rw [nextLoop_miss hr fun hmr => hm (.inl hmr), List.foldl_cons]
      exact ih hrest fun hmrest => hm (.inr hmrest)

/-- The numbers from `m` on. -/
def numbersFrom (ranges : List RangeTriple) (m : Int) : Set Int :=
  {v | v ∈ numbersOf ranges ∧ m ≤ v}

theorem numbersFrom_cons :
    numbersFrom (r :: rest) m = {v | v ∈ r.numbers ∧ m ≤ v} ∪ numbersFrom rest m := by
  ext v
  rw [numbersFrom, numbersOf_cons]
  exact ⟨fun hv => hv.1.imp (fun hr => ⟨hr, hv.2⟩) fun hrest => ⟨hrest, hv.2⟩,
    fun hv => hv.elim (fun hr => ⟨.inl hr.1, hr.2⟩) fun hrest => ⟨.inr hrest.1, hrest.2⟩⟩

theorem isLeast_of_insert {s t : Set Int} {c f : Int} (hs : IsLeast s c)
    (ht : IsLeast (insert c t) f) : IsLeast (s ∪ t) f where
  left := by
    rcases Set.mem_insert_iff.mp ht.1 with rfl | hmem
    · exact .inl hs.1
    · exact .inr hmem
  right v hv := hv.elim (fun hvs => le_trans (ht.2 (Set.mem_insert c t)) (hs.2 hvs))
    fun hvt => ht.2 (Set.mem_insert_of_mem c hvt)

/-- The candidate at the end of the loop is the least number of the ranges from the last one
on that is stepped over, or of all of them and the first candidate. -/
theorem foldl_nextCandidate (h : ∀ r ∈ ranges, r.Positive) (hm : m ∉ numbersOf ranges) :
    match fromLast (fun r => r.stepsOver m) ranges with
    | some found => IsLeast (numbersFrom found m) (ranges.foldl (nextCandidate m) next_number)
    | none => IsLeast (insert next_number (numbersFrom ranges m))
        (ranges.foldl (nextCandidate m) next_number) := by
  induction ranges generalizing next_number with
  | nil => simp [fromLast, numbersFrom, numbersOf_nil]
  | cons r rest ih =>
      obtain ⟨hr, hrest⟩ := List.forall_mem_cons.mp h
      rw [numbersOf_cons] at hm
      have hnext := @ih (nextCandidate m next_number r) hrest fun hmrest => hm (.inr hmrest)
      rw [List.foldl_cons, fromLast]
      cases hfound : fromLast (fun r => r.stepsOver m) rest with
      | some found =>
          rw [hfound] at hnext
          exact hnext
      | none =>
          rw [hfound] at hnext
          simp only at hnext ⊢
          have hmr : m ∉ r.numbers := fun hmr => hm (.inl hmr)
          by_cases hover : r.stepsOver m = true
          · have hcandidate : nextCandidate m next_number r = m - r.remainder m + r.step :=
              if_pos hover
            rw [if_pos hover]
            rw [hcandidate] at hnext ⊢
            simp only
            rw [numbersFrom_cons]
            exact isLeast_of_insert (RangeTriple.isLeast_above hr.step hover) hnext
          · rw [if_neg hover, numbersFrom_cons, ← Set.insert_union]
            by_cases hlo : r.lo > m
            · have hcandidate : nextCandidate m next_number r = min next_number r.lo := by
                rw [nextCandidate, if_neg hover, if_pos hlo]
              have hleast : IsLeast {v | v ∈ r.numbers ∧ m ≤ v} r.lo :=
                ⟨⟨r.lo_mem, by omega⟩, fun v hv => hv.1.1⟩
              exact isLeast_of_insert (hleast.insert next_number) (hcandidate ▸ hnext)
            · have hcandidate : nextCandidate m next_number r = next_number := by
                rw [nextCandidate, if_neg hover, if_neg hlo]
              have hnone : {v | v ∈ r.numbers ∧ m ≤ v} = ∅ := by
                refine Set.eq_empty_iff_forall_notMem.mpr fun v hv => ?_
                have := RangeTriple.lt_of_not_stepsOver hr.step hmr
                  (Bool.not_eq_true _ ▸ hover) hlo hv.1
                have hle := hv.2
                omega
              rw [hcandidate] at hnext ⊢
              rw [hnone, insert_empty_eq]
              exact isLeast_of_insert isLeast_singleton hnext

/-- The nearest number `n` from `m` on belongs to a range from the last one on that is stepped
over, and is not taken for the end of the list. -/
def NextKept (ranges : List RangeTriple) (m n : Int) : Prop :=
  match fromLast (fun r => r.stepsOver m) ranges with
  | some found => n ∈ numbersOf found ∧ n ≠ maxInt
  | none => n < maxInt

theorem fromLast_suffix {p : RangeTriple → Bool} {found : List RangeTriple}
    (h : fromLast p ranges = some found) : found <:+ ranges := by
  induction ranges with
  | nil => exact absurd h (by simp [fromLast])
  | cons r rest ih =>
      rw [fromLast] at h
      cases hrest : fromLast p rest with
      | some found' =>
          rw [hrest] at h
          obtain rfl := Option.some.inj h
          exact (ih hrest).trans (List.suffix_cons r rest)
      | none =>
          rw [hrest] at h
          simp only at h
          split at h
          · obtain rfl := Option.some.inj h
            exact List.suffix_rfl
          · exact absurd h (by simp)

theorem numbersOf_suffix {found : List RangeTriple} (h : found <:+ ranges) :
    numbersOf found ⊆ numbersOf ranges :=
  fun _ ⟨r, hr, hv⟩ => ⟨r, h.subset hr, hv⟩

theorem nextLoop_answers_iff (h : ∀ r ∈ ranges, r.Positive) (hm : m ∉ numbersOf ranges)
    (hn : IsLeast (numbersFrom ranges m) n) :
    nextLoop m maxInt ranges = .ok (some n) ↔ NextKept ranges m n := by
  rw [nextLoop_fold h hm, NextKept]
  have hfold := @foldl_nextCandidate ranges m maxInt h hm
  generalize ranges.foldl (nextCandidate m) maxInt = f at hfold ⊢
  have hanswer : (Except.ok (numberOrEof maxInt f) : Except String (Option Int)) = .ok (some n) ↔
      f = n ∧ f ≠ maxInt := by
    rw [numberOrEof]
    by_cases hend : f = maxInt
    · simp [hend]
    · simp [hend]
  rw [hanswer]
  cases hfound : fromLast (fun r => r.stepsOver m) ranges with
  | some found =>
      rw [hfound] at hfold
      simp only at hfold ⊢
      have hsub := numbersOf_suffix (fromLast_suffix hfound)
      constructor
      · rintro ⟨rfl, hne⟩
        exact ⟨hfold.1.1, hne⟩
      · rintro ⟨hmem, hne⟩
        have hle : f ≤ n := hfold.2 ⟨hmem, hn.1.2⟩
        have hge : n ≤ f := hn.2 ⟨hsub hfold.1.1, hfold.1.2⟩
        obtain rfl := Int.le_antisymm hle hge
        exact ⟨rfl, hne⟩
  | none =>
      rw [hfound] at hfold
      simp only at hfold ⊢
      have hmin : f = min maxInt n := hfold.unique (hn.insert maxInt)
      omega

theorem nextLoop_end (h : ∀ r ∈ ranges, r.Positive) (hnone : numbersFrom ranges m = ∅) :
    nextLoop m maxInt ranges = .ok none := by
  have hm : m ∉ numbersOf ranges := fun hm =>
    Set.eq_empty_iff_forall_notMem.mp hnone m ⟨hm, Int.le_refl m⟩
  rw [nextLoop_fold h hm]
  have hfold := @foldl_nextCandidate ranges m maxInt h hm
  generalize ranges.foldl (nextCandidate m) maxInt = f at hfold ⊢
  cases hfound : fromLast (fun r => r.stepsOver m) ranges with
  | some found =>
      rw [hfound] at hfold
      have hmem : f ∈ numbersFrom ranges m :=
        ⟨numbersOf_suffix (fromLast_suffix hfound) hfold.1.1, hfold.1.2⟩
      rw [hnone] at hmem
      exact absurd hmem (Set.notMem_empty f)
  | none =>
      rw [hfound] at hfold
      simp only [hnone, insert_empty_eq] at hfold
      rw [hfold.unique isLeast_singleton]
      simp [numberOrEof]

variable {call : Int → Option Int}

theorem nextAfter_iff (h : ∀ r ∈ ranges, r.Positive)
    (hcall : ∀ number, getNextNumber ranges number = .ok (call number)) :
    (∀ start, NextAfter (numbersOf ranges) start (call start)) ↔
      ∀ m n, m ∉ numbersOf ranges → IsLeast (numbersFrom ranges m) n → NextKept ranges m n := by
  constructor
  · intro hnext m n hm hn
    rw [← nextLoop_answers_iff h hm hn]
    have hstart := hnext (m - 1)
    have hloop := hcall (m - 1)
    rw [getNextNumber, Int.sub_add_cancel] at hloop
    cases hvalue : call (m - 1) with
    | none =>
        rw [hvalue] at hstart
        exact absurd (show m - 1 < n by have := hn.1.2; omega) (hstart n hn.1.1)
    | some k =>
        rw [hvalue] at hstart hloop
        have hk : IsLeast (numbersFrom ranges (m - 1 + 1)) k := hstart
        rw [Int.sub_add_cancel] at hk
        rw [hloop, hk.unique hn]
  · intro hkept start
    have hloop := hcall start
    rw [getNextNumber] at hloop
    by_cases hm : start + 1 ∈ numbersOf ranges
    · rw [nextLoop_hit h hm] at hloop
      rw [← Except.ok.inj hloop]
      exact ⟨⟨hm, by omega⟩, fun v hv => hv.2⟩
    · rcases (numbersFrom ranges (start + 1)).eq_empty_or_nonempty with hnone | hsome
      · rw [nextLoop_end h hnone] at hloop
        rw [← Except.ok.inj hloop]
        intro v hv hlt
        exact Set.eq_empty_iff_forall_notMem.mp hnone v ⟨hv, hlt⟩
      · obtain ⟨n, hn, hleast⟩ := Set.exists_min_image _ id
          ((finite_numbersOf ranges).subset fun v hv => hv.1) hsome
        have hmin : IsLeast (numbersFrom ranges (start + 1)) n := ⟨hn, fun v hv => hleast v hv⟩
        rw [(nextLoop_answers_iff h hm hmin).mpr (hkept _ n hm hmin)] at hloop
        rw [← Except.ok.inj hloop]
        exact hmin

/-! ### The previous number -/

def previousCandidate (m next_number : Int) (r : RangeTriple) : Int :=
  if r.inside m then m - r.remainder m
  else if r.hi < m then max next_number (r.hi - r.remainder r.hi) else next_number

theorem previousLoop_miss (h : r.Walked) (hm : m ∉ r.numbers) :
    previousLoop m next_number (r :: rest) =
      previousLoop m (previousCandidate m next_number r) rest := by
  rw [previousLoop, if_neg h.first, if_neg h.step_ne, previousCandidate]
  by_cases hlimits : m ≥ r.lo ∧ m ≤ r.hi
  · have hrem : ¬ r.remainder m = 0 := fun hzero =>
      hm (RangeTriple.mem_numbers.mpr ⟨hlimits, hzero⟩)
    have hbase := (RangeTriple.isGreatest_below h.step hlimits.1 hlimits.2).1.1.1
    have hinside : r.inside m = true := by
      simp [RangeTriple.inside, hlimits, hrem]
    rw [if_pos hlimits, if_neg hrem, if_pos hbase, if_pos hinside]
  · have hinside : ¬ r.inside m = true := by
      simp only [RangeTriple.inside, decide_eq_true_eq]
      exact fun hboth => hlimits hboth.1
    rw [if_neg hlimits, if_neg hinside]
    by_cases hhi : r.hi < m
    · have hbase := (RangeTriple.isGreatest_below h.step r.lo_le_hi (Int.le_refl _)).1.1.1
      rw [if_pos hhi, if_pos hhi]
      by_cases hzero : r.remainder r.hi = 0
      · rw [if_pos hzero, hzero, Int.sub_zero]
      · rw [if_neg hzero, if_pos hbase]
    · rw [if_neg hhi, if_neg hhi]

theorem previousLoop_hit (h : ∀ r ∈ ranges, r.Walked) (hm : m ∈ numbersOf ranges) :
    previousLoop m next_number ranges = .ok (some m) := by
  induction ranges generalizing next_number with
  | nil =>
      rw [numbersOf_nil] at hm
      exact absurd hm (Set.notMem_empty m)
  | cons r rest ih =>
      obtain ⟨hr, hrest⟩ := List.forall_mem_cons.mp h
      by_cases hmr : m ∈ r.numbers
      · obtain ⟨hlimits, hzero⟩ := RangeTriple.mem_numbers.mp hmr
        rw [previousLoop, if_neg hr.first, if_neg hr.step_ne, if_pos hlimits, if_pos hzero]
      · rw [numbersOf_cons] at hm
        rw [previousLoop_miss hr hmr]
        exact ih hrest (hm.resolve_left hmr)

theorem previousLoop_fold (h : ∀ r ∈ ranges, r.Positive) (hm : m ∉ numbersOf ranges) :
    previousLoop m next_number ranges =
      .ok (numberOrEof 0 (ranges.foldl (previousCandidate m) next_number)) := by
  induction ranges generalizing next_number with
  | nil => rfl
  | cons r rest ih =>
      obtain ⟨hr, hrest⟩ := List.forall_mem_cons.mp h
      rw [numbersOf_cons] at hm
      rw [previousLoop_miss hr.walked fun hmr => hm (.inl hmr), List.foldl_cons]
      exact ih hrest fun hmrest => hm (.inr hmrest)

/-- The numbers up to `m`. -/
def numbersTo (ranges : List RangeTriple) (m : Int) : Set Int :=
  {v | v ∈ numbersOf ranges ∧ v ≤ m}

theorem numbersTo_cons :
    numbersTo (r :: rest) m = {v | v ∈ r.numbers ∧ v ≤ m} ∪ numbersTo rest m := by
  ext v
  rw [numbersTo, numbersOf_cons]
  exact ⟨fun hv => hv.1.imp (fun hr => ⟨hr, hv.2⟩) fun hrest => ⟨hrest, hv.2⟩,
    fun hv => hv.elim (fun hr => ⟨.inl hr.1, hr.2⟩) fun hrest => ⟨.inr hrest.1, hrest.2⟩⟩

theorem isGreatest_of_insert {s t : Set Int} {c f : Int} (hs : IsGreatest s c)
    (ht : IsGreatest (insert c t) f) : IsGreatest (s ∪ t) f where
  left := by
    rcases Set.mem_insert_iff.mp ht.1 with rfl | hmem
    · exact .inl hs.1
    · exact .inr hmem
  right v hv := hv.elim (fun hvs => le_trans (hs.2 hvs) (ht.2 (Set.mem_insert c t)))
    fun hvt => ht.2 (Set.mem_insert_of_mem c hvt)

theorem foldl_previousCandidate (h : ∀ r ∈ ranges, r.Positive) (hm : m ∉ numbersOf ranges) :
    match fromLast (fun r => r.inside m) ranges with
    | some found => IsGreatest (numbersTo found m) (ranges.foldl (previousCandidate m) next_number)
    | none => IsGreatest (insert next_number (numbersTo ranges m))
        (ranges.foldl (previousCandidate m) next_number) := by
  induction ranges generalizing next_number with
  | nil => simp [fromLast, numbersTo, numbersOf_nil]
  | cons r rest ih =>
      obtain ⟨hr, hrest⟩ := List.forall_mem_cons.mp h
      rw [numbersOf_cons] at hm
      have hnext := @ih (previousCandidate m next_number r) hrest fun hmrest => hm (.inr hmrest)
      rw [List.foldl_cons, fromLast]
      cases hfound : fromLast (fun r => r.inside m) rest with
      | some found =>
          rw [hfound] at hnext
          exact hnext
      | none =>
          rw [hfound] at hnext
          simp only at hnext ⊢
          have hmr : m ∉ r.numbers := fun hmr => hm (.inl hmr)
          by_cases hinside : r.inside m = true
          · have hcandidate : previousCandidate m next_number r = m - r.remainder m :=
              if_pos hinside
            have hlimits : (m ≥ r.lo ∧ m ≤ r.hi) ∧ r.remainder m ≠ 0 := by
              simpa only [RangeTriple.inside, decide_eq_true_eq] using hinside
            rw [if_pos hinside]
            rw [hcandidate] at hnext ⊢
            simp only
            rw [numbersTo_cons]
            exact isGreatest_of_insert
              (RangeTriple.isGreatest_below hr.step hlimits.1.1 hlimits.1.2) hnext
          · rw [if_neg hinside, numbersTo_cons, ← Set.insert_union]
            by_cases hhi : r.hi < m
            · have hcandidate : previousCandidate m next_number r =
                  max next_number (r.hi - r.remainder r.hi) := by
                rw [previousCandidate, if_neg hinside, if_pos hhi]
              have hbelow := RangeTriple.isGreatest_below hr.step r.lo_le_hi (Int.le_refl _)
              have hgreatest : IsGreatest {v | v ∈ r.numbers ∧ v ≤ m} (r.hi - r.remainder r.hi) :=
                ⟨⟨hbelow.1.1, by have := hbelow.1.2; omega⟩, fun v hv => hbelow.2 ⟨hv.1, hv.1.2.1⟩⟩
              rw [hcandidate] at hnext ⊢
              exact isGreatest_of_insert (hgreatest.insert next_number) hnext
            · have hcandidate : previousCandidate m next_number r = next_number := by
                rw [previousCandidate, if_neg hinside, if_neg hhi]
              have hnone : {v | v ∈ r.numbers ∧ v ≤ m} = ∅ := by
                refine Set.eq_empty_iff_forall_notMem.mpr fun v hv => hinside ?_
                have hlo := hv.1.1
                have hle := hv.2
                simp only [RangeTriple.inside, decide_eq_true_eq]
                refine ⟨⟨by omega, by omega⟩, fun hzero => hmr ?_⟩
                exact RangeTriple.mem_numbers.mpr ⟨⟨by omega, by omega⟩, hzero⟩
              rw [hcandidate] at hnext ⊢
              rw [hnone, insert_empty_eq]
              exact isGreatest_of_insert isGreatest_singleton hnext

/-- The nearest number `n` up to `m` belongs to a range from the last one on that `m` lies in. -/
def PreviousKept (ranges : List RangeTriple) (m n : Int) : Prop :=
  match fromLast (fun r => r.inside m) ranges with
  | some found => n ∈ numbersOf found
  | none => True

theorem previousLoop_answers_iff (h : ∀ r ∈ ranges, r.Positive) (hm : m ∉ numbersOf ranges)
    (hn : IsGreatest (numbersTo ranges m) n) :
    previousLoop m 0 ranges = .ok (some n) ↔ PreviousKept ranges m n := by
  rw [previousLoop_fold h hm, PreviousKept]
  have hfold := @foldl_previousCandidate ranges m 0 h hm
  generalize ranges.foldl (previousCandidate m) 0 = f at hfold ⊢
  have hpos := numbersOf_pos h n hn.1.1
  have hanswer : (Except.ok (numberOrEof 0 f) : Except String (Option Int)) = .ok (some n) ↔
      f = n := by
    rw [numberOrEof]
    by_cases hend : f = 0
    · simp only [hend, if_true]
      refine iff_of_false (by simp) (by omega)
    · simp [hend]
  rw [hanswer]
  cases hfound : fromLast (fun r => r.inside m) ranges with
  | some found =>
      rw [hfound] at hfold
      simp only at hfold ⊢
      have hsub := numbersOf_suffix (fromLast_suffix hfound)
      constructor
      · rintro rfl
        exact hfold.1.1
      · intro hmem
        exact Int.le_antisymm (hn.2 ⟨hsub hfold.1.1, hfold.1.2⟩) (hfold.2 ⟨hmem, hn.1.2⟩)
  | none =>
      rw [hfound] at hfold
      simp only at hfold ⊢
      have hmax : f = max 0 n := hfold.unique (hn.insert 0)
      exact iff_of_true (by omega) trivial

theorem previousLoop_end (h : ∀ r ∈ ranges, r.Positive) (hnone : numbersTo ranges m = ∅) :
    previousLoop m 0 ranges = .ok none := by
  have hm : m ∉ numbersOf ranges := fun hm =>
    Set.eq_empty_iff_forall_notMem.mp hnone m ⟨hm, Int.le_refl m⟩
  rw [previousLoop_fold h hm]
  have hfold := @foldl_previousCandidate ranges m 0 h hm
  generalize ranges.foldl (previousCandidate m) 0 = f at hfold ⊢
  cases hfound : fromLast (fun r => r.inside m) ranges with
  | some found =>
      rw [hfound] at hfold
      have hmem : f ∈ numbersTo ranges m :=
        ⟨numbersOf_suffix (fromLast_suffix hfound) hfold.1.1, hfold.1.2⟩
      rw [hnone] at hmem
      exact absurd hmem (Set.notMem_empty f)
  | none =>
      rw [hfound] at hfold
      simp only [hnone, insert_empty_eq] at hfold
      rw [hfold.unique isGreatest_singleton]
      simp [numberOrEof]

theorem nextBefore_iff (h : ∀ r ∈ ranges, r.Positive)
    (hcall : ∀ number, getPreviousNumber ranges number = .ok (call number)) :
    (∀ start, NextBefore (numbersOf ranges) start (call start)) ↔
      ∀ m n, m ∉ numbersOf ranges → IsGreatest (numbersTo ranges m) n →
        PreviousKept ranges m n := by
  have hto : ∀ start, numbersTo ranges (start - 1) = {v | v ∈ numbersOf ranges ∧ v < start} := by
    intro start
    ext v
    exact and_congr Iff.rfl (by omega)
  constructor
  · intro hnext m n hm hn
    rw [← previousLoop_answers_iff h hm hn]
    have hstart := hnext (m + 1)
    have hloop := hcall (m + 1)
    rw [getPreviousNumber, Int.add_sub_cancel] at hloop
    cases hvalue : call (m + 1) with
    | none =>
        rw [hvalue] at hstart
        exact absurd (show n < m + 1 by have := hn.1.2; omega) (hstart n hn.1.1)
    | some k =>
        rw [hvalue] at hstart hloop
        have hk : IsGreatest {v | v ∈ numbersOf ranges ∧ v < m + 1} k := hstart
        rw [← hto, Int.add_sub_cancel] at hk
        rw [hloop, hk.unique hn]
  · intro hkept start
    have hloop := hcall start
    rw [getPreviousNumber] at hloop
    by_cases hm : start - 1 ∈ numbersOf ranges
    · rw [previousLoop_hit (fun r hr => (h r hr).walked) hm] at hloop
      rw [← Except.ok.inj hloop]
      exact ⟨⟨hm, by omega⟩, fun v hv => Int.le_sub_one_of_lt hv.2⟩
    · rcases (numbersTo ranges (start - 1)).eq_empty_or_nonempty with hnone | hsome
      · rw [previousLoop_end h hnone] at hloop
        rw [← Except.ok.inj hloop]
        intro v hv hlt
        exact Set.eq_empty_iff_forall_notMem.mp hnone v ⟨hv, Int.le_sub_one_of_lt hlt⟩
      · obtain ⟨n, hn, hgreatest⟩ := Set.exists_max_image _ id
          ((finite_numbersOf ranges).subset fun v hv => hv.1) hsome
        have hmax : IsGreatest (numbersTo ranges (start - 1)) n :=
          ⟨hn, fun v hv => hgreatest v hv⟩
        rw [(previousLoop_answers_iff h hm hmax).mpr (hkept _ n hm hmax)] at hloop
        rw [← Except.ok.inj hloop]
        rw [hto] at hmax
        exact hmax

/-! ## The list as a whole -/

/-- The three routines agree with the union of the ranges; an indefinite number stands for the
largest integer. -/
structure ListExact (ranges : List RangeTriple) : Prop where
  next : ∃ call : Int → Option Int, (∀ number, getNextNumber ranges number = .ok (call number)) ∧
    ∀ start, Enumerates call (numbersOf ranges) start
  previous : ∃ call : Int → Option Int, (∀ number, getPreviousNumber ranges number = .ok (call number)) ∧
    ∀ start, EnumeratesDown call {v | v ∈ numbersOf ranges ∧ 0 < v} start
  inRange : ∀ number, isInRange ranges number = true ↔ soughtNumber number ∈ numbersOf ranges

theorem inRangeLoop_iff (h : ∀ r ∈ ranges, r.Walked) (num : Int) :
    inRangeLoop num ranges = true ↔ num ∈ numbersOf ranges := by
  induction ranges with
  | nil => simp [inRangeLoop, numbersOf_nil]
  | cons r rest ih =>
      obtain ⟨hr, hrest⟩ := List.forall_mem_cons.mp h
      rw [inRangeLoop, if_neg hr.first, numbersOf_cons, Set.mem_union,
        RangeTriple.mem_numbers]
      by_cases hhit : (num ≥ r.lo ∧ num ≤ r.hi) ∧ r.remainder num = 0
      · rw [if_pos hhit]
        exact iff_of_true rfl (.inl hhit)
      · rw [if_neg hhit, ih hrest]
        exact (or_iff_right hhit).symm

theorem exists_nextCall (h : ∀ r ∈ ranges, r.Positive) :
    ∃ call : Int → Option Int, ∀ number, getNextNumber ranges number = .ok (call number) := by
  have hanswer : ∀ number, ∃ n, getNextNumber ranges number = .ok n := by
    intro number
    rw [getNextNumber]
    by_cases hm : number + 1 ∈ numbersOf ranges
    · exact ⟨_, nextLoop_hit h hm⟩
    · exact ⟨_, nextLoop_fold h hm⟩
  exact ⟨fun number => (hanswer number).choose, fun number => (hanswer number).choose_spec⟩

theorem exists_previousCall (h : ∀ r ∈ ranges, r.Positive) :
    ∃ call : Int → Option Int, ∀ number, getPreviousNumber ranges number = .ok (call number) := by
  have hanswer : ∀ number, ∃ n, getPreviousNumber ranges number = .ok n := by
    intro number
    rw [getPreviousNumber]
    by_cases hm : number - 1 ∈ numbersOf ranges
    · exact ⟨_, previousLoop_hit (fun r hr => (h r hr).walked) hm⟩
    · exact ⟨_, previousLoop_fold h hm⟩
  exact ⟨fun number => (hanswer number).choose, fun number => (hanswer number).choose_spec⟩

theorem listExact_iff_kept (h : ∀ r ∈ ranges, r.Positive) :
    ListExact ranges ↔
      (∀ m n, m ∉ numbersOf ranges → IsLeast (numbersFrom ranges m) n → NextKept ranges m n) ∧
        ∀ m n, m ∉ numbersOf ranges → IsGreatest (numbersTo ranges m) n →
          PreviousKept ranges m n := by
  have hfinite := finite_numbersOf ranges
  have hpositive : {v | v ∈ numbersOf ranges ∧ 0 < v} = numbersOf ranges := by
    ext v
    exact ⟨fun hv => hv.1, fun hv => ⟨hv, numbersOf_pos h v hv⟩⟩
  constructor
  · rintro ⟨⟨next, hnext, hnexts⟩, ⟨previous, hprevious, hpreviouses⟩, -⟩
    rw [hpositive] at hpreviouses
    exact ⟨(nextAfter_iff h hnext).mp ((enumerates_iff hfinite).mp hnexts),
      (nextBefore_iff h hprevious).mp ((enumeratesDown_iff hfinite).mp hpreviouses)⟩
  · rintro ⟨hnext, hprevious⟩
    obtain ⟨next, hcall⟩ := exists_nextCall h
    obtain ⟨previous, hcall'⟩ := exists_previousCall h
    refine ⟨⟨next, hcall, (enumerates_iff hfinite).mpr ((nextAfter_iff h hcall).mpr hnext)⟩,
      ⟨previous, hcall', ?_⟩, fun number => inRangeLoop_iff (fun r hr => (h r hr).walked) _⟩
    rw [hpositive]
    exact (enumeratesDown_iff hfinite).mpr ((nextBefore_iff h hcall').mpr hprevious)

/-! ### Limits of zero -/

/-- The ranges before the first one that looks like the end of the list. -/
def walkedRanges (ranges : List RangeTriple) : List RangeTriple :=
  ranges.takeWhile fun r => r.first ≠ EOLIST

theorem previousLoop_walkedRanges (m next_number : Int) (ranges : List RangeTriple) :
    previousLoop m next_number ranges = previousLoop m next_number (walkedRanges ranges) := by
  induction ranges generalizing next_number with
  | nil => rfl
  | cons r rest ih =>
      rw [walkedRanges, List.takeWhile_cons]
      by_cases hend : r.first = EOLIST
      · simp [previousLoop, hend]
      · simp only [hend, ne_eq, not_false_eq_true, decide_true, if_true]
        rw [previousLoop.eq_def, previousLoop.eq_def]
        simp only [ih]
        rfl

theorem inRangeLoop_walkedRanges (num : Int) (ranges : List RangeTriple) :
    inRangeLoop num ranges = inRangeLoop num (walkedRanges ranges) := by
  induction ranges with
  | nil => rfl
  | cons r rest ih =>
      rw [walkedRanges, List.takeWhile_cons]
      by_cases hend : r.first = EOLIST
      · simp [inRangeLoop, hend]
      · simp only [hend, ne_eq, not_false_eq_true, decide_true, if_true]
        rw [inRangeLoop.eq_def, inRangeLoop.eq_def]
        simp only [ih]
        rfl

theorem walked_walkedRanges (h : ∀ r ∈ ranges, r.Decoded) :
    ∀ r ∈ walkedRanges ranges, r.Walked := by
  intro r hr
  refine ⟨?_, (h r (List.takeWhile_sublist _ |>.subset hr)).step⟩
  simpa using List.mem_takeWhile_imp hr

theorem zero_mem_numbers (h : r.Decoded) (hzero : r.first = 0 ∨ r.last = 0) : 0 ∈ r.numbers := by
  have hfirst := h.first
  have hlast := h.last
  have hlo : r.lo = 0 := by
    rw [RangeTriple.lo]
    omega
  rw [← hlo]
  exact r.lo_mem

/-- A limit of zero is given as a previous number, or is taken for the end of the list. -/
theorem ListExact.positive (hexact : ListExact ranges) (h : ∀ r ∈ ranges, r.Decoded) :
    ∀ r ∈ ranges, r.Positive := by
  have hwalked := walked_walkedRanges h
  have hsub : ∀ r ∈ walkedRanges ranges, r ∈ ranges := fun r hr =>
    (List.takeWhile_sublist _).subset hr
  have hlast : ∀ r ∈ walkedRanges ranges, 1 ≤ r.last := by
    intro r hr
    by_contra hzero
    have hdecoded := h r (hsub r hr)
    have hmem : 0 ∈ numbersOf (walkedRanges ranges) :=
      ⟨r, hr, zero_mem_numbers hdecoded (.inr (by have := hdecoded.last; omega))⟩
    obtain ⟨call, hcall, henumerates⟩ := hexact.previous
    have hloop := hcall 1
    rw [getPreviousNumber, Int.sub_self, previousLoop_walkedRanges,
      previousLoop_hit hwalked hmem] at hloop
    obtain ⟨l, hyields, -, hmems⟩ := henumerates 1
    rcases l with - | ⟨n, l⟩
    · have hend : call 1 = none := hyields
      rw [← Except.ok.inj hloop] at hend
      exact absurd hend (by simp)
    · have hfirst := hyields.1
      rw [← Except.ok.inj hloop] at hfirst
      obtain rfl := Option.some.inj hfirst
      exact absurd ((hmems 0).mp List.mem_cons_self).1.2 (Int.lt_irrefl 0)
  have hpositive : ∀ r ∈ walkedRanges ranges, r.Positive := fun r hr => by
    refine ⟨?_, hlast r hr, (hwalked r hr).step⟩
    have hne := (hwalked r hr).first
    have hfirst := (h r (hsub r hr)).first
    rw [EOLIST] at hne
    omega
  have hall : walkedRanges ranges = ranges := by
    refine List.takeWhile_eq_self_iff.mpr fun r hr => ?_
    by_contra hend
    have hzero : r.first = 0 := by
      by_contra hne
      exact hend (decide_eq_true hne)
    have hmem : (0 : Int) ∈ numbersOf ranges := ⟨r, hr, zero_mem_numbers (h r hr) (.inl hzero)⟩
    have htrue : isInRange ranges 0 = true := (hexact.inRange 0).mpr hmem
    have hloop : inRangeLoop 0 (walkedRanges ranges) = true :=
      inRangeLoop_walkedRanges 0 ranges ▸ htrue
    have hpos := numbersOf_pos hpositive 0 ((inRangeLoop_iff hwalked 0).mp hloop)
    omega
  exact hall ▸ hpositive

/-- A decoded list is enumerated just if no limit is zero and no nearest number is lost. -/
theorem listExact_iff {rangeString : List Char} {maxRanges : Nat} {nvalues : Int}
    (h : decodeRanges rangeString maxRanges = some (ranges, nvalues)) :
    ListExact ranges ↔
      (∀ r ∈ ranges, 1 ≤ r.first ∧ 1 ≤ r.last) ∧
      (∀ m n, m ∉ numbersOf ranges → IsLeast (numbersFrom ranges m) n → NextKept ranges m n) ∧
      ∀ m n, m ∉ numbersOf ranges → IsGreatest (numbersTo ranges m) n →
        PreviousKept ranges m n := by
  have hdecoded := decodeRanges_decoded h
  constructor
  · intro hexact
    have hpositive := hexact.positive hdecoded
    exact ⟨fun r hr => ⟨(hpositive r hr).first, (hpositive r hr).last⟩,
      (listExact_iff_kept hpositive).mp hexact⟩
  · rintro ⟨hlimits, hkept⟩
    have hpositive : ∀ r ∈ ranges, r.Positive := fun r hr =>
      ⟨(hlimits r hr).1, (hlimits r hr).2, (hdecoded r hr).step⟩
    exact (listExact_iff_kept hpositive).mpr hkept

theorem listExact_single : ListExact [⟨1, 5, 1⟩] := by
  have hdecode : decodeRanges ['1', '-', '5'] 9 = some ([⟨1, 5, 1⟩], 5) := by decide
  have hmem : ∀ m n, IsLeast (numbersFrom [⟨1, 5, 1⟩] m) n → n ∈ numbersOf [⟨1, 5, 1⟩] ∧ n ≤ 5 := by
    rintro m n ⟨⟨⟨r, hr, hn⟩, -⟩, -⟩
    obtain rfl := List.mem_singleton.mp hr
    exact ⟨⟨_, List.mem_singleton_self _, hn⟩, hn.2.1⟩
  have hmax : ∀ n : Int, n ≤ 5 → n < maxInt := fun n hn => by
    rw [maxInt]
    omega
  refine (listExact_iff hdecode).mpr ⟨by decide, fun m n _ hn => ?_, fun m n _ hn => ?_⟩
  · obtain ⟨hnumber, hle⟩ := hmem m n hn
    rw [NextKept, fromLast, fromLast]
    by_cases hover : RangeTriple.stepsOver ⟨1, 5, 1⟩ m = true
    · simp only [hover, if_true]
      exact ⟨hnumber, Int.ne_of_lt (hmax n hle)⟩
    · simp only [hover, Bool.false_eq_true, if_false]
      exact hmax n hle
  · rw [PreviousKept, fromLast, fromLast]
    by_cases hinside : RangeTriple.inside ⟨1, 5, 1⟩ m = true
    · simp only [hinside, if_true]
      exact hn.1.1
    · simp only [hinside, Bool.false_eq_true, if_false]

/-- After number 1 the list gives 5 and not 3. -/
theorem not_listExact_stepped :
    decodeRanges ['3', ',', '1', '-', '9', 'x', '4'] 9 = some ([⟨3, 3, 1⟩, ⟨1, 9, 4⟩], 4) ∧
      getNextNumber [⟨3, 3, 1⟩, ⟨1, 9, 4⟩] 1 = .ok (some 5) ∧
      ¬ ListExact [⟨3, 3, 1⟩, ⟨1, 9, 4⟩] := by
  have hnext : getNextNumber [⟨3, 3, 1⟩, ⟨1, 9, 4⟩] 1 = .ok (some 5) := by decide
  refine ⟨by decide, hnext, fun hexact => ?_⟩
  obtain ⟨call, hcall, henumerates⟩ := hexact.next
  have hfive : call 1 = some 5 := (Except.ok.inj ((hcall 1).symm.trans hnext))
  have hafter := (henumerates 1).nextAfter
  rw [hfive] at hafter
  have hthree : (3 : Int) ∈ numbersOf [⟨3, 3, 1⟩, ⟨1, 9, 4⟩] :=
    ⟨⟨3, 3, 1⟩, by decide, by decide, by decide, by decide⟩
  exact absurd (hafter.2 ⟨hthree, by decide⟩) (by decide)

end Iraf.Xtools
