import Mathlib.Order.Defs.PartialOrder

/-!
# Machines that run step by step

A step gives the next state, a result, or a fault.  `run` bounds the number of
steps; a machine that never ends has no bound that gives it an end.
-/

namespace Iraf

theorem bind_eq_ok {ε α β : Type} {x : Except ε α} {f : α → Except ε β} {b : β} :
    x >>= f = .ok b ↔ ∃ a, x = .ok a ∧ f a = .ok b := by
  cases x with
  | error e => simp [bind, Except.bind]
  | ok a => simp [bind, Except.bind]

namespace StepMachine

variable {σ ε ρ : Type*} {step : σ → Except ε (σ ⊕ ρ)}

/-- At most `fuel` steps; the last one gives the result or the fault. -/
def run (step : σ → Except ε (σ ⊕ ρ)) : Nat → σ → Option (Except ε ρ)
  | 0, _ => none
  | fuel + 1, s =>
      match step s with
      | .error fault => some (.error fault)
      | .ok (.inr result) => some (.ok result)
      | .ok (.inl next) => run step fuel next

inductive Reaches (step : σ → Except ε (σ ⊕ ρ)) : σ → σ → Prop
  | refl (s : σ) : Reaches step s s
  | next {s t u : σ} :
      step s = .ok (.inl t) → Reaches step t u → Reaches step s u

/-- The machine ends, with a result or a fault. -/
def Ends (step : σ → Except ε (σ ⊕ ρ)) (s : σ) (r : Except ε ρ) : Prop :=
  ∃ fuel, run step fuel s = some r

theorem Reaches.one {s t : σ} (h : step s = .ok (.inl t)) :
    Reaches step s t :=
  .next h (.refl t)

theorem Reaches.trans {s t u : σ} (first : Reaches step s t)
    (second : Reaches step t u) : Reaches step s u := by
  induction first with
  | refl s => exact second
  | next h _ ih => exact .next h (ih second)

theorem run_mono {fuel extra : Nat} {s : σ} {r : Except ε ρ}
    (h : run step fuel s = some r) : run step (fuel + extra) s = some r := by
  induction fuel generalizing s with
  | zero => simp [run] at h
  | succ fuel ih =>
      rw [Nat.succ_add]
      simp only [run] at h ⊢
      split
      · simpa [*] using h
      · simpa [*] using h
      · rename_i next hstep
        rw [hstep] at h
        exact ih h

theorem Ends.unique {s : σ} {r r' : Except ε ρ} (h : Ends step s r)
    (h' : Ends step s r') : r = r' := by
  obtain ⟨n, hn⟩ := h
  obtain ⟨m, hm⟩ := h'
  have hn' : run step (n + m) s = some r := run_mono hn
  have hm' : run step (m + n) s = some r' := run_mono hm
  rw [Nat.add_comm, hn'] at hm'
  exact Option.some.inj hm'

theorem ends_result {s : σ} {r : ρ} (h : step s = .ok (.inr r)) :
    Ends step s (.ok r) :=
  ⟨1, by simp [run, h]⟩

theorem ends_fault {s : σ} {fault : ε} (h : step s = .error fault) :
    Ends step s (.error fault) :=
  ⟨1, by simp [run, h]⟩

theorem ends_next {s t : σ} {r : Except ε ρ} (h : step s = .ok (.inl t)) :
    Ends step s r ↔ Ends step t r := by
  constructor
  · rintro ⟨fuel, hrun⟩
    cases fuel with
    | zero => simp [run] at hrun
    | succ fuel => exact ⟨fuel, by simpa [run, h] using hrun⟩
  · rintro ⟨fuel, hrun⟩
    exact ⟨fuel + 1, by simpa [run, h] using hrun⟩

theorem Reaches.ends_iff {s t : σ} (h : Reaches step s t)
    {r : Except ε ρ} : Ends step s r ↔ Ends step t r := by
  induction h with
  | refl s => exact Iff.rfl
  | next hstep _ ih => exact (ends_next hstep).trans ih

/-- A machine whose steps keep `P` and lower a rank ends with a result in `Q`. -/
theorem ends_of_rank {P : σ → Prop} {Q : ρ → Prop} (rank : σ → Nat)
    (hstep : ∀ s, P s → (∃ t, step s = .ok (.inl t) ∧ P t ∧ rank t < rank s) ∨
      ∃ r, step s = .ok (.inr r) ∧ Q r) {s : σ} (hs : P s) :
    ∃ r, Ends step s (.ok r) ∧ Q r := by
  induction hn : rank s using Nat.strongRecOn generalizing s with
  | ind n ih =>
      rcases hstep s hs with ⟨t, ht, hP, hlt⟩ | ⟨r, hr, hQ⟩
      · obtain ⟨r, hr, hQ⟩ := ih (rank t) (hn ▸ hlt) hP rfl
        exact ⟨r, (ends_next ht).mpr hr, hQ⟩
      · exact ⟨r, ends_result hr, hQ⟩

end StepMachine

end Iraf
