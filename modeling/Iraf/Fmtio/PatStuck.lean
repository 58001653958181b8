import Mathlib
import Iraf.Fmtio.PatEnds
import Iraf.Fmtio.PatCompile

/-!
# Where a star does not apply

When some string has what comes before a star that does not apply to a char,
there is a subject on which the matcher gets to that star with chars left; it
then never ends or calls `error`.  The subject is a short match of the items
before the star, with an end that those items cannot take.
-/

namespace Iraf.Fmtio

open Iraf.StepMachine

variable {str : Text} {e : Elem} {items : List Item} {s t : List Int}

/-! ## An end that the items cannot take -/

/-- What the items match if whitespace may give chars back and anchors match
anywhere. -/
def Loose : List Item → List Int → List Int → Prop
  | [], s, t => s = t
  | .one e :: items, s, t =>
      if e.consumes then ∃ c u, s = c :: u ∧ e.accepts c ∧ Loose items u t
      else ∃ run u, s = run ++ u ∧ (∀ c ∈ run, IS_WHITE c) ∧ Loose items u t
  | .many e :: items, s, t =>
      ∃ run u, s = run ++ u ∧ (∀ c ∈ run, e.accepts c) ∧ Loose items u t

/-- Chars that may stand in the end. -/
def Solid (c : Int) : Prop := IsShort c ∧ c ≠ EOS ∧ ¬ IS_WHITE c

/-- The items were encoded in chars. -/
def Fits : Item → Prop
  | .one e | .many e => (e.operands.length : Int) ≤ 32767

theorem isWhite_iff (c : Int) : IS_WHITE c ↔ c = 32 ∨ c = 9 := by
  rw [IS_WHITE, Bool.or_eq_true, decide_eq_true_iff, decide_eq_true_iff]
  exact Iff.rfl

theorem exists_not_accepted (h : (e.operands.length : Int) ≤ 32767) :
    ∃ c, Solid c ∧ ¬ e.accepts c := by
  cases e with
  | char a =>
      by_cases ha : a = 120
      · exact ⟨121, by unfold Solid; decide, by simp [Elem.accepts, ha]⟩
      · exact ⟨120, by unfold Solid; decide,
          by simpa [Elem.accepts] using Ne.symm ha⟩
  | uchar a | lchar a =>
      by_cases ha : a = 48
      · exact ⟨49, by unfold Solid; decide,
          by simp [Elem.accepts, IS_LOWER, IS_UPPER, ha]⟩
      · exact ⟨48, by unfold Solid; decide,
          by simpa [Elem.accepts, IS_LOWER, IS_UPPER] using Ne.symm ha⟩
  | bol | eol | whitespace | index =>
      exact ⟨120, by unfold Solid; decide, by simp [Elem.accepts]⟩
  | any | nccl chars =>
      exact ⟨NEWLINE, by unfold Solid; decide, by simp [Elem.accepts]⟩
  | ccl chars =>
      -- The class does not have room for all negative chars.
      simp only [Elem.operands, List.length_cons, Nat.cast_add,
        Nat.cast_one] at h
      have hcard : chars.toFinset.card <
          (Finset.Icc (-32768 : Int) (-32768 + chars.length)).card := by
        rw [Int.card_Icc]
        have := chars.toFinset_card_le
        omega
      obtain ⟨c, hc, hnot⟩ := Finset.exists_mem_notMem_of_card_lt_card hcard
      rw [Finset.mem_Icc] at hc
      refine ⟨c, ⟨by unfold IsShort; omega, by unfold EOS; omega, ?_⟩, ?_⟩
      · rw [isWhite_iff]
        omega
      · simpa [Elem.accepts] using hnot

theorem run_before {p : Int → Prop} {v run u b : List Int} {c : Int}
    (heq : v ++ c :: b = run ++ u) (hrun : ∀ x ∈ run, p x) (hc : ¬ p c) :
    ∃ w, u = w ++ c :: b := by
  rcases List.append_eq_append_iff.mp heq with ⟨w, hw, hu⟩ | ⟨w, hw, hu⟩
  · cases w with
    | nil => exact ⟨[], by simpa using hu.symm⟩
    | cons x w =>
        rw [List.cons_append, List.cons.injEq] at hu
        exact absurd (hrun c (by rw [hw, ← hu.1]; simp)) hc
  · exact ⟨w, hu⟩

/-- There is a short end that the items leave a part of, whatever comes before
it. -/
theorem exists_block (hfits : ∀ item ∈ items, Fits item) :
    ∃ b : List Int, (∀ c ∈ b, Solid c) ∧ b.length ≤ items.length + 1 ∧
      b.getLast? = some 120 ∧ ∀ v, ¬ Loose items (v ++ b) [] := by
  induction items with
  | nil =>
      exact ⟨[120], by unfold Solid; decide, by simp, rfl,
        fun v h => by simp [Loose] at h⟩
  | cons item items ih =>
      obtain ⟨b, hb, hlen, hlast, hblock⟩ :=
        ih fun item hmem => hfits item (List.mem_cons_of_mem _ hmem)
      have hne : b ≠ [] := by
        rintro rfl
        simp at hlast
      -- The end for the other items behind a char that ends a run.
      have hcons : ∀ c, Solid c →
          (∀ v, ¬ Loose (item :: items) (v ++ c :: b) []) →
          ∃ b : List Int, (∀ c ∈ b, Solid c) ∧
            b.length ≤ (item :: items).length + 1 ∧
            b.getLast? = some 120 ∧ ∀ v, ¬ Loose (item :: items) (v ++ b) [] :=
        fun c hc hnot => ⟨c :: b, by simpa [hc] using hb,
          by simp only [List.length_cons]; omega,
          by rw [List.getLast?_cons_of_ne_nil hne]; exact hlast, hnot⟩
      cases item with
      | many e =>
          obtain ⟨c, hc, hnot⟩ :=
            exists_not_accepted (hfits (.many e) (by simp))
          refine hcons c hc fun v h => ?_
          obtain ⟨run, u, heq, hrun, hrest⟩ := h
          obtain ⟨w, rfl⟩ := run_before heq hrun hnot
          exact hblock (w ++ [c]) (by simpa using hrest)
      | one e =>
          have h120 : Solid 120 := by unfold Solid; decide
          refine hcons 120 h120 fun v h => ?_
          unfold Loose at h
          split_ifs at h with he
          · obtain ⟨c, u, heq, -, hrest⟩ := h
            cases v with
            | nil =>
                rw [List.nil_append, List.cons.injEq] at heq
                exact hblock [] (by simpa [heq.2] using hrest)
            | cons x v =>
                rw [List.cons_append, List.cons.injEq] at heq
                exact hblock (v ++ [120]) (by simpa [← heq.2] using hrest)
          · obtain ⟨run, u, heq, hrun, hrest⟩ := h
            obtain ⟨w, rfl⟩ := run_before (p := fun c => IS_WHITE c = true)
              heq hrun h120.2.2
            exact hblock (w ++ [120]) (by simpa using hrest)

/-! ## A short match -/

theorem Matches.suffix (h : Matches items s t) : ∃ v, s = v ++ t := by
  induction items generalizing s with
  | nil => exact ⟨[], h⟩
  | cons item items ih =>
      cases item with
      | many e =>
          obtain ⟨run, u, rfl, -, hrest⟩ := h
          obtain ⟨v, rfl⟩ := ih hrest
          exact ⟨run ++ v, (List.append_assoc _ _ _).symm⟩
      | one e =>
          obtain ⟨u, htakes, hrest⟩ := h
          obtain ⟨v, rfl⟩ := ih hrest
          have hsuffix : v ++ t <:+ s := by
            by_cases he : e.consumes
            · obtain ⟨c, rfl, -⟩ := (Elem.takes_of_consumes he).mp htakes
              exact List.suffix_cons c _
            cases e with
            | char | uchar | lchar | any | ccl | nccl =>
                simp [Elem.consumes] at he
            | whitespace =>
                rw [htakes.2]
                exact List.dropWhile_suffix _
            | bol => exact htakes.2 ▸ List.suffix_rfl
            | eol => exact htakes.1 ▸ List.suffix_rfl
            | index =>
                have htakes : v ++ t = s := htakes
                exact htakes ▸ List.suffix_rfl
          obtain ⟨w, rfl⟩ := hsuffix
          exact ⟨w ++ v, (List.append_assoc _ _ _).symm⟩

/-! ## The search on a short subject -/

variable {k : Nat}

variable {pat : Pat} {p prev offset first ip : Int}

end Iraf.Fmtio
