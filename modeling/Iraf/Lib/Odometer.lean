import Mathlib.Data.List.Chain
import Iraf.Lib.StepMachine

/-!
# Loops over the cells of a box

A counter goes through the elements of an orbit one after the other and stops at the
last.  Counters put side by side, each carrying into the next, go through the product
of their orbits, the first of them running fastest.
-/

namespace Iraf.Odometer

variable {α β γ σ ε ρ : Type*}

/-- What `next` goes through: every element but the last is followed by its next one,
and the last has none. -/
structure Orbit (next : α → Option α) (l : List α) : Prop where
  chain : l.IsChain fun x y => next x = some y
  stops : ∃ a, l.getLast? = some a ∧ next a = none

section Orbit

variable {next : α → Option α} {a b : α} {l : List α}

theorem Orbit.ne_nil (h : Orbit next l) : l ≠ [] := by
  rintro rfl
  obtain ⟨a, hlast, -⟩ := h.stops
  cases hlast

theorem orbit_singleton : Orbit next [a] ↔ next a = none := by
  constructor
  · rintro ⟨-, b, hlast, hb⟩
    obtain rfl : a = b := Option.some.inj hlast
    exact hb
  · intro h
    exact ⟨.singleton a, a, rfl, h⟩

theorem orbit_cons : Orbit next (a :: b :: l) ↔ next a = some b ∧ Orbit next (b :: l) := by
  have hlast : (a :: b :: l).getLast? = (b :: l).getLast? := List.getLast?_cons_cons
  constructor
  · rintro ⟨hchain, hstops⟩
    rw [List.isChain_cons_cons] at hchain
    rw [hlast] at hstops
    exact ⟨hchain.1, hchain.2, hstops⟩
  · rintro ⟨hnext, hchain, hstops⟩
    constructor
    · exact hchain.cons_cons hnext
    · rwa [hlast]

theorem Orbit.map {f : α → β} {next' : β → Option β} (h : Orbit next l)
    (hf : ∀ a ∈ l, next' (f a) = (next a).map f) : Orbit next' (l.map f) := by
  induction l with
  | nil => exact absurd rfl h.ne_nil
  | cons a l ih =>
      have ha := hf a List.mem_cons_self
      cases l with
      | nil =>
          rw [orbit_singleton] at h
          rw [h] at ha
          exact orbit_singleton.mpr ha
      | cons b l =>
          obtain ⟨hnext, hrest⟩ := orbit_cons.mp h
          rw [hnext] at ha
          exact orbit_cons.mpr ⟨ha, ih hrest fun c hc => hf c (List.mem_cons_of_mem a hc)⟩

end Orbit

/-! ## Counters side by side -/

theorem Orbit.product {step : α → Option α} {next : β → Option β} {both : γ → Option γ}
    {pair : α → β → γ} {lo : α}
    (hstep : ∀ a a' b, step a = some a' → both (pair a b) = some (pair a' b))
    (hcarry : ∀ a b, step a = none → both (pair a b) = (next b).map (pair lo))
    {ds : List α} (hds : Orbit step (lo :: ds)) {bs : List β} (hbs : Orbit next bs) :
    Orbit both (bs.flatMap fun b => (lo :: ds).map fun a => pair a b) := by
  obtain ⟨top, htop, hend⟩ := hds.stops
  have hrow : ∀ b, ((lo :: ds).map fun a => pair a b).IsChain fun x y => both x = some y :=
    fun b => List.isChain_map_of_isChain (fun a => pair a b)
      (fun a a' hnext => hstep a a' b hnext) hds.chain
  have hlast : ∀ b, ((lo :: ds).map fun a => pair a b).getLast? = some (pair top b) := by
    intro b
    rw [List.getLast?_map, htop]
    rfl
  induction bs with
  | nil => exact absurd rfl hbs.ne_nil
  | cons b bs ih =>
      cases bs with
      | nil =>
          rw [orbit_singleton] at hbs
          rw [List.flatMap_singleton]
          have hnone := hcarry top b hend
          rw [hbs] at hnone
          exact ⟨hrow b, pair top b, hlast b, hnone⟩
      | cons b' bs =>
          obtain ⟨hnext, hrest⟩ := orbit_cons.mp hbs
          obtain ⟨hchain, c, hc, hstops⟩ := ih hrest
          have hcarried := hcarry top b hend
          rw [hnext] at hcarried
          rw [List.flatMap_cons]
          constructor
          · apply (hrow b).append hchain
            intro x hx y hy
            rw [hlast b] at hx
            obtain rfl := Option.some.inj hx
            obtain rfl : pair lo b' = y := Option.some.inj hy
            exact hcarried
          · refine ⟨c, ?_, hstops⟩
            rw [List.getLast?_append, hc]
            rfl

/-! ## Loops -/

/-- One turn of a loop that executes its body, which may end the loop, and then steps
its counter; the loop also ends when the counter is at its last element. -/
def turn (body : σ → α → Except ε (σ ⊕ ρ)) (next : α → Option α) (last : σ → ρ)
    (s : σ × α) : Except ε ((σ × α) ⊕ ρ) :=
  match body s.1 s.2 with
  | .error fault => .error fault
  | .ok (.inr result) => .ok (.inr result)
  | .ok (.inl t) =>
      match next s.2 with
      | some a => .ok (.inl (t, a))
      | none => .ok (.inr (last t))

/-- The body at each element of a list in turn. -/
def visit (body : σ → α → Except ε (σ ⊕ ρ)) (last : σ → ρ) : σ → List α → Except ε ρ
  | s, [] => .ok (last s)
  | s, a :: l =>
      match body s a with
      | .error fault => .error fault
      | .ok (.inr result) => .ok result
      | .ok (.inl t) => visit body last t l

/-- The loop ends, and it has executed its body at the elements of the orbit. -/
theorem Orbit.run {body : σ → α → Except ε (σ ⊕ ρ)} {next : α → Option α} {last : σ → ρ}
    {a : α} {l : List α} (h : Orbit next (a :: l)) {fuel : Nat} (hfuel : l.length < fuel) (s : σ) :
    StepMachine.run (turn body next last) fuel (s, a) = some (visit body last s (a :: l)) := by
  induction l generalizing a s fuel with
  | nil =>
      have hnone := orbit_singleton.mp h
      obtain ⟨fuel, rfl⟩ := Nat.exists_eq_add_of_lt hfuel
      rw [StepMachine.run, visit]
      cases hbody : body s a with
      | error fault => simp only [turn, hbody]
      | ok r =>
          cases r with
          | inr result => simp only [turn, hbody]
          | inl t =>
              simp only [turn, hbody, hnone]
              rfl
  | cons b l ih =>
      obtain ⟨hnext, hrest⟩ := orbit_cons.mp h
      rw [List.length_cons] at hfuel
      obtain ⟨fuel, rfl⟩ : ∃ k, fuel = k + 1 := ⟨fuel - 1, by omega⟩
      rw [StepMachine.run, visit]
      cases hbody : body s a with
      | error fault => simp only [turn, hbody]
      | ok r =>
          cases r with
          | inr result => simp only [turn, hbody]
          | inl t =>
              simp only [turn, hbody, hnext]
              exact ih hrest (by omega) t

theorem visit_any {body : Unit → α → Except ε (Unit ⊕ Bool)} {l : List α} {p : α → Prop}
    [DecidablePred p]
    (h : ∀ a ∈ l, body () a = .ok (if p a then .inr true else .inl ())) :
    visit body (fun _ => false) () l = .ok (decide (∃ a ∈ l, p a)) := by
  induction l with
  | nil => simp [visit]
  | cons a l ih =>
      have hrest := ih fun b hb => h b (List.mem_cons_of_mem a hb)
      rw [visit, h a List.mem_cons_self]
      by_cases ha : p a
      · simp [ha]
      · simp [ha, hrest]

end Iraf.Odometer
