import Mathlib.Computability.RegularExpressions

/-!
# Longest matches

An automaton keeps the last place where it accepted.  It finds the longest prefix of a text
that a regular expression matches when the residuals of the expression are those of its
states.
-/

namespace Iraf.LongestMatch

open RegularExpression

variable {α σ τ : Type*} {P Q : RegularExpression α} {a : α} {w u : List α}

/-! ## Residuals -/

/-- A sum without its empty part. -/
def plus : RegularExpression α → RegularExpression α → RegularExpression α
  | .zero, Q => Q
  | P, .zero => P
  | .plus P P', Q => .plus P (plus P' Q)
  | P, Q => .plus P Q

/-- A product, nested to the right, without its unit. -/
def comp : RegularExpression α → RegularExpression α → RegularExpression α
  | .zero, _ => .zero
  | .epsilon, Q => Q
  | .comp P P', Q => .comp P (comp P' Q)
  | P, Q => .comp P Q

theorem matches_plus : (plus P Q).matches' = P.matches' + Q.matches' := by
  fun_induction plus P Q with
  | case1 Q => exact (zero_add _).symm
  | case2 P => exact (add_zero _).symm
  | case3 P P' Q _ ih =>
      change P.matches' + (plus P' Q).matches' = P.matches' + P'.matches' + Q.matches'
      rw [ih, add_assoc]
  | case4 P Q => rfl

theorem matches_comp : (comp P Q).matches' = P.matches' * Q.matches' := by
  fun_induction comp P Q with
  | case1 Q => exact (zero_mul _).symm
  | case2 Q => exact (one_mul _).symm
  | case3 P P' Q ih =>
      change P.matches' * (comp P' Q).matches' = P.matches' * P'.matches' * Q.matches'
      rw [ih, mul_assoc]
  | case4 P Q => rfl

/-- The text begins with a word of the expression. -/
def Begins (P : RegularExpression α) (w : List α) : Prop := ∃ u, u <+: w ∧ u ∈ P.matches'

theorem begins_zero : ¬ Begins (0 : RegularExpression α) w := by
  rintro ⟨u, -, hu⟩
  exact Language.notMem_zero u hu

theorem begins_plus : Begins (P + Q) w ↔ Begins P w ∨ Begins Q w := by
  constructor
  · rintro ⟨u, hpre, hu⟩
    rw [matches'_add, Language.mem_add] at hu
    exact hu.imp (fun hp => ⟨u, hpre, hp⟩) fun hq => ⟨u, hpre, hq⟩
  · rintro (⟨u, hpre, hu⟩ | ⟨u, hpre, hu⟩)
    · refine ⟨u, hpre, ?_⟩
      rw [matches'_add, Language.mem_add]
      exact .inl hu
    · refine ⟨u, hpre, ?_⟩
      rw [matches'_add, Language.mem_add]
      exact .inr hu

theorem Begins.of_comp (h : Begins (P * Q) w) : Begins P w := by
  obtain ⟨u, hpre, hu⟩ := h
  obtain ⟨p, hp, q, -, rfl⟩ := Language.mem_mul.1 hu
  exact ⟨p, (List.prefix_append p q).trans hpre, hp⟩

theorem begins_assoc {R : RegularExpression α} :
    Begins (P * (Q * R)) w ↔ Begins (P * Q * R) w := by
  rw [Begins, Begins, matches'_mul, matches'_mul, matches'_mul, matches'_mul, mul_assoc]

section

variable [DecidableEq α]

/-- What may follow a symbol. -/
def residual : RegularExpression α → α → RegularExpression α
  | .zero, _ => .zero
  | .epsilon, _ => .zero
  | .char b, a => if b = a then .epsilon else .zero
  | .plus P Q, a => plus (residual P a) (residual Q a)
  | .comp P Q, a =>
      if P.matchEpsilon then plus (comp (residual P a) Q) (residual Q a)
      else comp (residual P a) Q
  | .star P, a => comp (residual P a) (.star P)

theorem matches_residual : (residual P a).matches' = (P.deriv a).matches' := by
  induction P with
  | zero => rfl
  | epsilon => rfl
  | char b =>
      rw [residual, RegularExpression.deriv]
      split <;> rfl
  | plus P Q ihp ihq =>
      rw [residual, matches_plus, ihp, ihq]
      rfl
  | comp P Q ihp ihq =>
      rw [residual, RegularExpression.deriv]
      split
      · rw [matches_plus, matches_comp, ihp, ihq]
        rfl
      · rw [matches_comp, ihp]
        rfl
  | star P ih =>
      rw [residual, matches_comp, ih]
      rfl

theorem cons_mem_matches : a :: w ∈ P.matches' ↔ w ∈ (residual P a).matches' := by
  rw [matches_residual, ← rmatch_iff_matches', ← rmatch_iff_matches']
  rfl

theorem nil_mem_matches : [] ∈ P.matches' ↔ P.matchEpsilon = true := by
  rw [← rmatch_iff_matches']
  rfl

theorem begins_comp_of_matchEpsilon (h : Q.matchEpsilon = true) :
    Begins (P * Q) w ↔ Begins P w := by
  refine ⟨Begins.of_comp, ?_⟩
  rintro ⟨u, hpre, hu⟩
  exact ⟨u, hpre, Language.mem_mul.2 ⟨u, hu, [], nil_mem_matches.2 h, List.append_nil u⟩⟩

theorem begins_nil (h : P.matchEpsilon = false) : ¬ Begins P [] := by
  rintro ⟨u, hpre, hu⟩
  rw [List.prefix_nil.1 hpre, nil_mem_matches, h] at hu
  cases hu

theorem begins_cons (h : P.matchEpsilon = false) :
    Begins P (a :: w) ↔ Begins (residual P a) w := by
  constructor
  · rintro ⟨u, hpre, hu⟩
    cases u with
    | nil =>
        rw [nil_mem_matches, h] at hu
        cases hu
    | cons b u =>
        obtain ⟨rfl, htail⟩ := List.cons_prefix_cons.1 hpre
        exact ⟨u, htail, cons_mem_matches.1 hu⟩
  · rintro ⟨u, hpre, hu⟩
    exact ⟨a :: u, (List.prefix_cons_inj a).2 hpre, cons_mem_matches.2 hu⟩

/-! ## The automaton -/

variable {next : σ → α → Option σ} {accept : σ → Option τ} {lang : σ → τ → RegularExpression α} {q : σ}
  {t t' : τ} {n : Nat}

/-- The type and length of the longest prefix that is accepted. -/
def longest (next : σ → α → Option σ) (accept : σ → Option τ) : σ → List α → Option (τ × Nat)
  | q, [] => (accept q).map fun t => (t, 0)
  | q, a :: w =>
      match next q a with
      | none => (accept q).map fun t => (t, 0)
      | some q' =>
          match longest next accept q' w with
          | some (t, n) => some (t, n + 1)
          | none => (accept q).map fun t => (t, 0)

/-- The languages of the states follow the steps of the automaton. -/
structure Follows (next : σ → α → Option σ) (accept : σ → Option τ)
    (lang : σ → τ → RegularExpression α) : Prop where
  nil : ∀ q t, (lang q t).matchEpsilon = true ↔ accept q = some t
  cons : ∀ q a t, residual (lang q t) a = (next q a).elim 0 fun q' => lang q' t

/-- The longest of the prefixes of a text that are in a language, with its type. -/
def IsLongest (lang : τ → RegularExpression α) (w : List α) : Option (τ × Nat) → Prop
  | none => ∀ t u, u <+: w → u ∉ (lang t).matches'
  | some (t, n) => n ≤ w.length ∧ w.take n ∈ (lang t).matches' ∧ ∀ t u, u <+: w → u ∈ (lang t).matches' → u.length ≤ n

namespace Follows

variable (h : Follows next accept lang)
include h

theorem nil_mem : [] ∈ (lang q t).matches' ↔ accept q = some t :=
  nil_mem_matches.trans (h.nil q t)

theorem mem_cons {q' : σ} (hnext : next q a = some q') : a :: w ∈ (lang q t).matches' ↔ w ∈ (lang q' t).matches' := by
  rw [cons_mem_matches, h.cons, hnext]
  rfl

theorem not_mem_cons (hnext : next q a = none) : a :: w ∉ (lang q t).matches' := by
  rw [cons_mem_matches, h.cons, hnext]
  exact Language.notMem_zero w

theorem type_unique (ht : w ∈ (lang q t).matches') (ht' : w ∈ (lang q t').matches') : t = t' := by
  induction w generalizing q with
  | nil => exact Option.some.inj ((h.nil_mem.1 ht).symm.trans (h.nil_mem.1 ht'))
  | cons a w ih =>
      cases hnext : next q a with
      | none => exact absurd ht (h.not_mem_cons hnext)
      | some q' => exact ih ((h.mem_cons hnext).1 ht) ((h.mem_cons hnext).1 ht')

theorem isLongest_nil (hnone : ∀ t u, u ≠ [] → u <+: w → u ∉ (lang q t).matches') :
    IsLongest (lang q) w ((accept q).map fun t => (t, 0)) := by
  cases haccept : accept q with
  | none =>
      intro t u hpre hu
      cases u with
      | nil =>
          rw [h.nil_mem, haccept] at hu
          cases hu
      | cons b u => exact hnone t _ (List.cons_ne_nil b u) hpre hu
  | some t =>
      refine ⟨Nat.zero_le _, ?_, fun t' u hpre hu => ?_⟩
      · rw [List.take_zero]
        exact h.nil_mem.2 haccept
      · by_contra hpos
        refine hnone t' u (fun hnil => hpos ?_) hpre hu
        rw [hnil]
        exact Nat.le_refl 0

theorem longest_isLongest : IsLongest (lang q) w (longest next accept q w) := by
  induction w generalizing q with
  | nil => exact h.isLongest_nil fun t u hne hpre => absurd (List.prefix_nil.1 hpre) hne
  | cons a w ih =>
      rw [longest]
      cases hnext : next q a with
      | none =>
          refine h.isLongest_nil fun t u hne hpre hu => ?_
          cases u with
          | nil => exact hne rfl
          | cons b u =>
              obtain ⟨rfl, -⟩ := List.cons_prefix_cons.1 hpre
              exact h.not_mem_cons hnext hu
      | some q' =>
          have hrest := @ih q'
          cases hlongest : longest next accept q' w with
          | none =>
              rw [hlongest] at hrest
              simp only [hlongest]
              refine h.isLongest_nil fun t u hne hpre hu => ?_
              cases u with
              | nil => exact hne rfl
              | cons b u =>
                  obtain ⟨rfl, htail⟩ := List.cons_prefix_cons.1 hpre
                  exact hrest t u htail ((h.mem_cons hnext).1 hu)
          | some r =>
              obtain ⟨t, n⟩ := r
              rw [hlongest] at hrest
              simp only [hlongest]
              obtain ⟨hle, hmem, hmax⟩ := hrest
              refine ⟨Nat.succ_le_succ hle, ?_, fun t' u hpre hu => ?_⟩
              · rw [List.take_succ_cons]
                exact (h.mem_cons hnext).2 hmem
              · cases u with
                | nil => exact Nat.zero_le _
                | cons b u =>
                    obtain ⟨rfl, htail⟩ := List.cons_prefix_cons.1 hpre
                    exact Nat.succ_le_succ (hmax t' u htail ((h.mem_cons hnext).1 hu))

theorem isLongest_iff {r : Option (τ × Nat)} :
    IsLongest (lang q) w r ↔ longest next accept q w = r := by
  constructor
  · intro hr
    have hl : IsLongest (lang q) w (longest next accept q w) := h.longest_isLongest
    cases hlongest : longest next accept q w with
    | none =>
        rw [hlongest] at hl
        cases r with
        | none => rfl
        | some r => exact absurd hr.2.1 (hl r.1 _ (List.take_prefix r.2 w))
    | some l =>
        obtain ⟨t, n⟩ := l
        rw [hlongest] at hl
        obtain ⟨hle, hmem, hmax⟩ := hl
        cases r with
        | none => exact absurd hmem (hr t _ (List.take_prefix n w))
        | some r =>
            obtain ⟨t', n'⟩ := r
            obtain ⟨hle', hmem', hmax'⟩ := hr
            have hn := hmax t' _ (List.take_prefix n' w) hmem'
            have hn' := hmax' t _ (List.take_prefix n w) hmem
            rw [List.length_take_of_le hle'] at hn
            rw [List.length_take_of_le hle] at hn'
            obtain rfl := Nat.le_antisymm hn' hn
            rw [h.type_unique hmem hmem']
  · rintro rfl
    exact h.longest_isLongest

theorem longest_eq_none :
    longest next accept q w = none ↔ ∀ t, ¬ Begins (lang q t) w := by
  rw [← h.isLongest_iff]
  constructor
  · rintro hnone t ⟨u, hpre, hu⟩
    exact hnone t u hpre hu
  · intro hnone t u hpre hu
    exact hnone t ⟨u, hpre, hu⟩

theorem accept_eq_none (hlongest : longest next accept q w = none) : accept q = none := by
  cases haccept : accept q with
  | none => rfl
  | some t =>
      refine absurd ⟨[], List.nil_prefix, ?_⟩ (h.longest_eq_none.1 hlongest t)
      exact h.nil_mem.2 haccept

end Follows

end

end Iraf.LongestMatch
