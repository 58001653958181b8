import Mathlib.Data.List.Forall2

/-!
# Cursors

A cursor is called again and again.  A call returns an element or, at the end, nothing;
it may be called once more after that.
-/

namespace Iraf.Cursor

variable {σ α β : Type*}

/-- The cursor returns the elements of a list, each with the state that the call leaves,
and then nothing. -/
inductive Delivers (call : σ → σ × Option α → Prop) : σ → List (σ × α) → σ → Prop
  | stop {s t : σ} : call s (t, none) → Delivers call s [] t
  | next {s t u : σ} {a : α} {l : List (σ × α)} :
      call s (t, some a) → Delivers call t l u → Delivers call s ((t, a) :: l) u

/-- The next `n` calls return nothing. -/
def Quiet (call : σ → σ × Option α → Prop) : Nat → σ → Prop
  | 0, _ => True
  | n + 1, s => ∃ t, call s (t, none) ∧ Quiet call n t

/-- No call returns anything any more. -/
def Spent (call : σ → σ × Option α → Prop) (s : σ) : Prop :=
  ∀ n, Quiet call n s

theorem forall₂_flatMap {γ : Type*} {P : α → Prop} {f : α → List γ} {g : β → List γ}
    {out : List α} {l : List β} (h : List.Forall₂ (fun a b => P a ∧ f a = g b) out l) :
    (∀ a ∈ out, P a) ∧ out.flatMap f = l.flatMap g := by
  induction h with
  | nil => exact ⟨fun _ ha => absurd ha List.not_mem_nil, rfl⟩
  | cons hab _ ih =>
      constructor
      · exact List.forall_mem_cons.mpr ⟨hab.1, ih.1⟩
      · rw [List.flatMap_cons, List.flatMap_cons, hab.2, ih.2]

section Rules

variable {call : σ → σ × Option α → Prop} {s : σ}

variable (call) in
theorem Delivers.of_pending {I : σ → List β → Prop} {J : σ → Prop} {R : σ × α → β → Prop}
    (hnext : ∀ s b l, I s (b :: l) → ∃ t a, call s (t, some a) ∧ R (t, a) b ∧ I t l)
    (hstop : ∀ s, I s [] → ∃ t, call s (t, none) ∧ J t) {l : List β} (hs : I s l) :
    ∃ out t, Delivers call s out t ∧ List.Forall₂ R out l ∧ J t := by
  induction l generalizing s with
  | nil =>
      obtain ⟨t, hcall, ht⟩ := hstop s hs
      exact ⟨[], t, .stop hcall, .nil, ht⟩
  | cons b l ih =>
      obtain ⟨t, a, hcall, hright, ht⟩ := hnext s b l hs
      obtain ⟨out, u, hout, hall, hu⟩ := ih ht
      exact ⟨(t, a) :: out, u, .next hcall hout, .cons hright hall, hu⟩

theorem Delivers.unique (hcall : ∀ s a b, call s a → call s b → a = b) {l l' : List (σ × α)}
    {t t' : σ} (h : Delivers call s l t) (h' : Delivers call s l' t') : l = l' ∧ t = t' := by
  induction h generalizing l' with
  | stop hstop =>
      cases h' with
      | stop hstop' => exact ⟨rfl, congrArg Prod.fst (hcall _ _ _ hstop hstop')⟩
      | next hnext' _ => cases hcall _ _ _ hstop hnext'
  | next hnext _ ih =>
      cases h' with
      | stop hstop' => cases hcall _ _ _ hnext hstop'
      | next hnext' hrest' =>
          cases hcall _ _ _ hnext hnext'
          obtain ⟨rfl, ht⟩ := ih hrest'
          exact ⟨rfl, ht⟩

theorem Spent.of_invariant {J : σ → Prop} (hstep : ∀ s, J s → ∃ t, call s (t, none) ∧ J t)
    (hs : J s) : Spent call s := by
  intro n
  induction n generalizing s with
  | zero => trivial
  | succ n ih =>
      obtain ⟨t, hcall, ht⟩ := hstep s hs
      exact ⟨t, hcall, ih ht⟩

/-- A cursor that every silent call brings nearer to a state where it fails to be silent. -/
theorem not_spent_of_rank {J : Nat → σ → Prop} (hzero : ∀ s t, J 0 s → ¬ call s (t, none))
    (hsucc : ∀ n s t, J (n + 1) s → call s (t, none) → J n t) {n : Nat} (hs : J n s) :
    ¬ Spent call s := by
  intro hspent
  have hquiet := hspent (n + 1)
  clear hspent
  induction n generalizing s with
  | zero =>
      obtain ⟨t, hcall, -⟩ := hquiet
      exact hzero s t hs hcall
  | succ n ih =>
      obtain ⟨t, hcall, hrest⟩ := hquiet
      exact ih (hsucc n s t hs hcall) hrest

end Rules

end Iraf.Cursor
