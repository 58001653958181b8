import Mathlib.Data.List.TakeWhile
import Mathlib.Tactic.Common

/-!
# Words

The words of a text are its runs of chars that are not blanks.  A text may be
broken at blanks without a change to its words; a word without blanks in it may
only be cut.
-/

namespace Iraf.Words

variable {α : Type*} {blank : α → Bool} {n : Nat} {c : α} {s t : List α}
variable {us vs ws : List (List α)}

/-- The runs of chars that are not blanks. -/
def words (blank : α → Bool) (s : List α) : List (List α) :=
  (s.splitOnP blank).filter (!·.isEmpty)

@[simp] theorem words_nil : words blank ([] : List α) = [] := rfl

theorem words_append_cons (hc : blank c = true) (s t : List α) :
    words blank (s ++ c :: t) = words blank s ++ words blank t := by
  rw [words, List.splitOnP_append_cons s t hc, List.filter_append]
  rfl

theorem words_cons_blank (hc : blank c = true) (s : List α) :
    words blank (c :: s) = words blank s :=
  words_append_cons hc [] s

theorem words_eq_singleton (hs : ∀ c ∈ s, blank c = false) (hne : s ≠ []) :
    words blank s = [s] := by
  rw [words, List.splitOnP_eq_singleton hs]
  simp [hne]

theorem words_dropWhile (s : List α) : words blank (s.dropWhile blank) = words blank s := by
  induction s with
  | nil => rfl
  | cons c s ih =>
      by_cases hc : blank c = true
      · rw [List.dropWhile_cons_of_pos hc, ih, words_cons_blank hc]
      · rw [List.dropWhile_cons_of_neg hc]

theorem words_append_replicate (hc : blank c = true) (s : List α) (k : Nat) :
    words blank (s ++ List.replicate k c) = words blank s := by
  induction k generalizing s with
  | zero => simp
  | succ k ih =>
      rw [List.replicate_succ, words_append_cons hc, ← List.nil_append (List.replicate k c), ih]
      simp

/-- A text that begins with a word begins with the same word after a part of it
is gone. -/
theorem words_append_word (hs : ∀ c ∈ s, blank c = false) (hc : blank c = false)
    (t : List α) :
    ∃ w ws, w ≠ [] ∧ words blank (c :: t) = w :: ws ∧
      words blank (s ++ c :: t) = (s ++ w) :: ws := by
  obtain ⟨w, rest, hsplit⟩ : ∃ w rest, (c :: t).splitOnP blank = (c :: w) :: rest := by
    obtain ⟨w, rest, h⟩ := List.exists_cons_of_ne_nil (List.splitOnP_ne_nil blank t)
    exact ⟨w, rest, by rw [List.splitOnP_cons_eq_if_modifyHead, hc, h]; rfl⟩
  have happend : (s ++ c :: t).splitOnP blank = (s ++ c :: w) :: rest := by
    induction s with
    | nil => exact hsplit
    | cons d s ih =>
        have hd := hs d List.mem_cons_self
        have ih := ih fun c hmem => hs c (List.mem_cons_of_mem d hmem)
        rw [List.cons_append, List.splitOnP_cons_eq_if_modifyHead, hd, ih]
        rfl
  refine ⟨c :: w, rest.filter (!·.isEmpty), List.cons_ne_nil c w, ?_, ?_⟩
  · rw [words, hsplit]
    rfl
  · rw [words, happend, List.filter_cons_of_pos (by simp)]

/-- The words `vs` are the words `ws` in their order, but a word longer than `n` may
be in pieces. -/
inductive Cut (n : Nat) : List (List α) → List (List α) → Prop
  | nil : Cut n [] []
  | whole (w : List α) {ws vs : List (List α)} : Cut n ws vs → Cut n (w :: ws) (w :: vs)
  | piece {v w : List α} {ws vs : List (List α)} : v ≠ [] → w ≠ [] → n < (v ++ w).length →
      Cut n (w :: ws) vs → Cut n ((v ++ w) :: ws) (v :: vs)

theorem Cut.append_left (us : List (List α)) (h : Cut n ws vs) :
    Cut n (us ++ ws) (us ++ vs) := by
  induction us with
  | nil => exact h
  | cons u us ih => exact ih.whole u

theorem Cut.refl (ws : List (List α)) : Cut n ws ws := by
  simpa using (Cut.nil (n := n)).append_left ws

end Iraf.Words
