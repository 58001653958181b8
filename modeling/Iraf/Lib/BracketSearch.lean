import Mathlib.Tactic.Common

/-!
# Search from a hint

The positions `1`, .., `last` of a table are divided by a test that holds up to
some position and fails from there on.  The search for the first position that
fails it begins at a hint: steps of growing length bracket the position, and the
bracket is then halved.
-/

namespace Iraf.BracketSearch

variable (above : Int → Bool)

/-- Steps down from `hi`, where the test fails, to a position that passes it. -/
def bracketDown (hi inc : Int) (h : 0 < inc) : Int × Int :=
  let lo := hi - inc
  if lo < 1 then (0, hi)
  else if above lo then (lo, hi)
  else bracketDown lo (2 * inc) (by omega)
termination_by hi.toNat
decreasing_by omega

/-- Steps up from `lo`, which passes the test, to a position that fails it. -/
def bracketUp (last lo inc : Int) (h : 0 < inc) : Int × Int :=
  let hi := lo + inc
  if hi > last then (lo, last + 1)
  else if !above hi then (lo, hi)
  else bracketUp last hi (2 * inc) (by omega)
termination_by (last - lo).toNat
decreasing_by omega

/-- Halve the bracket. -/
def bisect (lo hi : Int) : Int :=
  if h : hi > lo + 1 then
    let mid := (lo + hi) / 2
    if above mid then bisect mid hi else bisect lo mid
  else hi
termination_by (hi - lo).toNat
decreasing_by all_goals omega

/-- The search, from the hint `current`. -/
def search (last current : Int) : Int :=
  let bracket :=
    if current < 1 ∨ current > last then (0, last + 1)
    else if !above current then bracketDown above current 1 (by omega)
    else bracketUp above last current 1 (by omega)
  bisect above bracket.1 bracket.2

/-- The test holds up to some position. -/
def Falls (last : Int) : Prop :=
  ∀ i j, 1 ≤ i → i ≤ j → j ≤ last → above j = true → above i = true

/-- All positions up to `lo` pass the test, and none does from `hi` on. -/
structure Bracket (last lo hi : Int) : Prop where
  lo_nonneg : 0 ≤ lo
  lt : lo < hi
  hi_le : hi ≤ last + 1
  pass : ∀ i, 1 ≤ i → i ≤ lo → above i = true
  fail : ∀ i, hi ≤ i → i ≤ last → above i = false

variable {above} {last : Int}

theorem Falls.pass_le (h : Falls above last) {lo : Int} (hlo : lo ≤ last)
    (habove : above lo = true) :
    ∀ i, 1 ≤ i → i ≤ lo → above i = true :=
  fun i hi hle => h i lo hi hle hlo habove

theorem Falls.fail_le (h : Falls above last) {hi : Int} (hpos : 1 ≤ hi)
    (habove : above hi = false) :
    ∀ i, hi ≤ i → i ≤ last → above i = false := by
  intro i hle hi'
  cases hpass : above i with
  | false => rfl
  | true =>
      rw [h hi i hpos hle hi' hpass] at habove
      exact habove

theorem bracketDown_bracket (h : Falls above last) {hi inc : Int}
    (hinc : 0 < inc) (hpos : 1 ≤ hi) (hlast : hi ≤ last)
    (hfail : above hi = false) :
    Bracket above last (bracketDown above hi inc hinc).1
      (bracketDown above hi inc hinc).2 := by
  fun_induction bracketDown above hi inc hinc with
  | case1 hi inc hinc lo hlo =>
      exact ⟨by omega, by omega, by omega, fun i h1 h2 => by omega,
        h.fail_le hpos hfail⟩
  | case2 hi inc hinc lo hlo habove =>
      exact ⟨by omega, by omega, by omega, h.pass_le (by omega) habove,
        h.fail_le hpos hfail⟩
  | case3 hi inc hinc lo hlo habove ih =>
      exact ih (by omega) (by omega) (by simpa using habove)

theorem bracketUp_bracket (h : Falls above last) {lo inc : Int}
    (hinc : 0 < inc) (hpos : 1 ≤ lo) (hlast : lo ≤ last)
    (hpass : above lo = true) :
    Bracket above last (bracketUp above last lo inc hinc).1
      (bracketUp above last lo inc hinc).2 := by
  fun_induction bracketUp above last lo inc hinc with
  | case1 lo inc hinc hi hhi =>
      exact ⟨by omega, by omega, by omega, h.pass_le hlast hpass,
        fun i h1 h2 => by omega⟩
  | case2 lo inc hinc hi hhi habove =>
      exact ⟨by omega, by omega, by omega, h.pass_le hlast hpass,
        h.fail_le (by omega) (by simpa using habove)⟩
  | case3 lo inc hinc hi hhi habove ih =>
      exact ih (by omega) (by omega) (by simpa using habove)

theorem Bracket.bisect (h : Falls above last) {lo hi : Int}
    (hb : Bracket above last lo hi) :
    Bracket above last (bisect above lo hi - 1) (bisect above lo hi) := by
  fun_induction BracketSearch.bisect above lo hi with
  | case1 lo hi hgt mid habove ih =>
      have hlo := hb.lo_nonneg
      have hhi := hb.hi_le
      exact ih ⟨by omega, by omega, hhi, h.pass_le (by omega) habove, hb.fail⟩
  | case2 lo hi hgt mid habove ih =>
      have hlo := hb.lo_nonneg
      have hhi := hb.hi_le
      exact ih ⟨hlo, by omega, by omega, hb.pass,
        h.fail_le (by omega) (by simpa using habove)⟩
  | case3 lo hi hle =>
      have hlt := hb.lt
      obtain rfl : hi - 1 = lo := by omega
      exact hb

theorem search_bracket (h : Falls above last) (hlast : 0 ≤ last)
    (current : Int) :
    Bracket above last (search above last current - 1)
      (search above last current) := by
  unfold search
  refine Bracket.bisect h ?_
  by_cases hhint : current < 1 ∨ current > last
  · rw [if_pos hhint]
    exact ⟨by omega, by omega, by omega, fun i h1 h2 => by omega,
      fun i h1 h2 => by omega⟩
  · simp only [if_neg hhint]
    cases hcurrent : above current with
    | false =>
        exact bracketDown_bracket h (by omega) (by omega) (by omega) hcurrent
    | true => exact bracketUp_bracket h (by omega) (by omega) (by omega) hcurrent

end Iraf.BracketSearch
