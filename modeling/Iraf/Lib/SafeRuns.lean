import Mathlib.Data.List.Infix
import Mathlib.Tactic.Common

/-!
# Runs that keep an invariant

A property of the states of a system holds throughout a run as long as every step meets a
condition, and fails after the first step that does not.
-/

namespace Iraf.SafeRuns

variable {σ ε : Type*} {step : σ → ε → σ} {Inv P : σ → Prop} {Meets : σ → ε → Prop} {s : σ}
  {es : List ε}

/-- Every state that a run passes has the property. -/
def Always (step : σ → ε → σ) (P : σ → Prop) (s : σ) (es : List ε) : Prop :=
  ∀ before, before <+: es → P (before.foldl step s)

/-- Every step of a run meets the condition in the state that it is made in. -/
def EachStep (step : σ → ε → σ) (Meets : σ → ε → Prop) : σ → List ε → Prop
  | _, [] => True
  | s, e :: es => Meets s e ∧ EachStep step Meets (step s e) es

@[simp] theorem always_nil : Always step P s [] ↔ P s := by
  constructor
  · intro h
    exact h [] List.prefix_rfl
  · intro h before hbefore
    rw [List.prefix_nil.1 hbefore]
    exact h

theorem always_cons {e : ε} :
    Always step P s (e :: es) ↔ P s ∧ Always step P (step s e) es := by
  constructor
  · intro h
    refine ⟨h [] (List.nil_prefix), fun before hbefore => ?_⟩
    exact h (e :: before) ((List.prefix_cons_inj e).2 hbefore)
  · rintro ⟨hs, hrest⟩ before hbefore
    cases before with
    | nil => exact hs
    | cons e' before =>
        obtain ⟨rfl, hprefix⟩ := List.cons_prefix_cons.1 hbefore
        exact hrest before hprefix

theorem always_iff (hprop : ∀ s, Inv s → P s)
    (hkeep : ∀ s e, Inv s → Meets s e → Inv (step s e))
    (hbreak : ∀ s e, Inv s → ¬ Meets s e → ¬ P (step s e)) (hs : Inv s) :
    Always step P s es ↔ EachStep step Meets s es := by
  induction es generalizing s with
  | nil =>
      rw [always_nil]
      exact iff_of_true (hprop s hs) trivial
  | cons e es ih =>
      rw [always_cons, EachStep, and_iff_right (hprop s hs)]
      by_cases hmeets : Meets s e
      · rw [ih (hkeep s e hs hmeets), and_iff_right hmeets]
      · refine iff_of_false (fun h => ?_) fun h => hmeets h.1
        exact hbreak s e hs hmeets (h [] List.nil_prefix)

theorem EachStep.imp {Safe : σ → ε → Prop} (h : EachStep step Meets s es)
    (hsafe : ∀ s e, Inv s → Meets s e → Safe s e)
    (hkeep : ∀ s e, Inv s → Meets s e → Inv (step s e)) (hs : Inv s) :
    EachStep step Safe s es := by
  induction es generalizing s with
  | nil => trivial
  | cons e es ih => exact ⟨hsafe s e hs h.1, ih h.2 (hkeep s e hs h.1)⟩

end Iraf.SafeRuns
