import Iraf.Fmtio.PatStuck

/-!
# When matching ends

For a pattern that `patmake` accepts, every match ends inside the pattern and
without an error exactly when its stars apply to elements that take a char, as
far as a subject can get to them.
-/

namespace Iraf.Fmtio

open Iraf.StepMachine

variable {pat : Pat} {pieces : List Piece} {items : List Item} {s : List Int}

/-! ## The condition is enough -/

theorem Encoded.safe (h : Encoded pat pieces) (hguard : Guarded pieces) :
    Safe pat := by
  have hconst := closure_words
  cases h with
  | whole last apply laid ends size =>
      exact ⟨leading pieces, pat.size, last, laid, size, Or.inl ⟨ends, le_rfl⟩⟩
  | upTo before bad after p prev split apply anchored bol eol unsound laid
      words =>
      have hp := laid.le
      have hinside := words.inside
      refine ⟨leading pieces, p, prev, laid, by omega, Or.inr ?_⟩
      refine hguard.resolve_left fun hall => ?_
      have := hall bad (by rw [split]; simp)
      simp [unsound] at this

/-! ## The condition is needed -/

theorem Layout.fits {p prev q last : Int}
    (h : Layout pat items p prev q last) (hsize : pat.size ≤ 32767) :
    ∀ item ∈ items, Fits item := by
  have hfits : ∀ {p : Int} {e : Elem}, ElemAt pat p e →
      (e.operands.length : Int) ≤ 32767 := fun {p e} helem => by
    have := helem.first
    have := helem.last
    have := e.operands_length_le
    omega
  induction items generalizing p prev with
  | nil => simp
  | cons item items ih =>
      intro x hx
      cases item with
      | one e =>
          cases hx with
          | head => exact hfits h.1
          | tail _ hx => exact ih h.2 x hx
      | many e =>
          cases hx with
          | head => exact hfits h.2.2.1
          | tail _ hx => exact ih h.2.2.2 x hx

theorem Layout.length_le {p prev q last : Int}
    (h : Layout pat items p prev q last) : (items.length : Int) ≤ q - p := by
  induction items generalizing p prev with
  | nil => simp [h.1]
  | cons item items ih =>
      simp only [List.length_cons, Nat.cast_add, Nat.cast_one]
      cases item with
      | one e =>
          have := ih h.2
          have := e.size_pos
          omega
      | many e =>
          have := ih h.2.2.2
          have := e.size_pos
          have := closure_words
          omega

theorem PatmatchEnds.amatch {str : Text} (h : PatmatchEnds str pat)
    (hc : str.char 1 ≠ EOS) :
    ∃ r, Ends (amatchStep str 1) ⟨.head 1 1 0, pat⟩ (.ok r) := by
  obtain ⟨fuel, r, hrun⟩ := h
  unfold patmatch gpatmatch at hrun
  cases hget : pat.get 1 with
  | error fault => simp [hget, Except.map] at hrun
  | ok code =>
      simp only [hget] at hrun
      cases hfirst : pat_amatch fuel str 1 pat with
      | none =>
          split_ifs at hrun
          all_goals simp [gpatmatchFrom, hc, hfirst] at hrun
      | some result =>
          cases result with
          | ok r => exact ⟨r, fuel, hfirst⟩
          | error fault =>
              split_ifs at hrun
              all_goals simp [gpatmatchFrom, hc, hfirst, Except.map] at hrun

end Iraf.Fmtio
