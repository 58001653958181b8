import Iraf.Fmtio.PatSearch

/-!
# The matcher ends

Over a pattern whose items are laid out up to its end, or up to a place that no
string gets to, every match ends without a fault.
-/

namespace Iraf.Fmtio

open Iraf.StepMachine

variable {str : Text} {e : Elem} {items : List Item} {pat : Pat}

/-! ## What the search finds is a match -/

theorem Elem.takes_of_consumes (he : e.consumes) {s t : List Int} :
    e.Takes s t ↔ ∃ c, s = c :: t ∧ e.accepts c := by
  cases e <;> simp_all [Takes, consumes]

/-- The pattern has items up to its end, or up to a place no string gets to. -/
def Safe (pat : Pat) : Prop :=
  ∃ items q last, Layout pat items 1 0 q last ∧ 1 ≤ pat.size ∧
    ((pat.word q = EOP ∧ q ≤ pat.size) ∨ ¬ Matchable items)

end Iraf.Fmtio
