import Mathlib.Data.Set.Card
import Mathlib.Order.Bounds.Basic

/-!
# Calls that enumerate a set

A function that is called with the last element it gave, to get the next one.  It enumerates a
finite set from every start just if each call gives the least element after its argument.
-/

namespace Iraf.Enumeration

variable {α : Type*} [LinearOrder α] {call : α → Option α} {s : Set α}

/-- The calls from `start` on give the elements of the list, and then the end. -/
def Yields (call : α → Option α) : α → List α → Prop
  | start, [] => call start = none
  | start, n :: l => call start = some n ∧ Yields call n l

/-- Every element after `start` is given once, in increasing order, and then the end. -/
def Enumerates (call : α → Option α) (s : Set α) (start : α) : Prop :=
  ∃ l, Yields call start l ∧ l.Pairwise (· < ·) ∧ ∀ v, v ∈ l ↔ v ∈ s ∧ start < v

/-- The least element after `start`, if there is one. -/
def NextAfter (s : Set α) (start : α) : Option α → Prop
  | none => ∀ v ∈ s, ¬ start < v
  | some n => IsLeast {v | v ∈ s ∧ start < v} n

theorem Enumerates.nextAfter {start : α} (h : Enumerates call s start) :
    NextAfter s start (call start) := by
  obtain ⟨l, hyields, hsorted, hmem⟩ := h
  cases l with
  | nil =>
      rw [show call start = none from hyields]
      intro v hv hlt
      exact absurd ((hmem v).mpr ⟨hv, hlt⟩) List.not_mem_nil
  | cons n l =>
      rw [hyields.1]
      refine ⟨(hmem n).mp List.mem_cons_self, fun v hv => ?_⟩
      rcases List.mem_cons.mp ((hmem v).mpr hv) with rfl | hv
      · exact le_refl _
      · exact ((List.pairwise_cons.mp hsorted).1 v hv).le

theorem enumerates_of_nextAfter (hs : s.Finite) (h : ∀ start, NextAfter s start (call start))
    (start : α) : Enumerates call s start := by
  generalize hcard : {v | v ∈ s ∧ start < v}.ncard = k
  induction k using Nat.strong_induction_on generalizing start with
  | _ k ih =>
      have hnext := h start
      cases hcall : call start with
      | none =>
          rw [hcall] at hnext
          refine ⟨[], hcall, List.Pairwise.nil, fun v => ?_⟩
          refine iff_of_false List.not_mem_nil fun hv => hnext v hv.1 hv.2
      | some n =>
          rw [hcall] at hnext
          obtain ⟨⟨hn, hlt⟩, hleast⟩ := hnext
          have hfewer : {v | v ∈ s ∧ n < v}.ncard < k := by
            rw [← hcard]
            refine Set.ncard_lt_ncard ?_ (hs.subset fun v hv => hv.1)
            refine ⟨fun v hv => ⟨hv.1, hlt.trans hv.2⟩, fun hsub => ?_⟩
            exact lt_irrefl n (hsub ⟨hn, hlt⟩).2
          obtain ⟨l, hyields, hsorted, hmem⟩ := ih _ hfewer n rfl
          refine ⟨n :: l, ⟨hcall, hyields⟩, List.pairwise_cons.mpr
            ⟨fun v hv => ((hmem v).mp hv).2, hsorted⟩, fun v => ?_⟩
          rw [List.mem_cons, hmem]
          constructor
          · rintro (rfl | ⟨hv, hafter⟩)
            · exact ⟨hn, hlt⟩
            · exact ⟨hv, hlt.trans hafter⟩
          · rintro ⟨hv, hafter⟩
            rcases (hleast ⟨hv, hafter⟩).eq_or_lt with rfl | hlater
            · exact .inl rfl
            · exact .inr ⟨hv, hlater⟩

theorem enumerates_iff (hs : s.Finite) :
    (∀ start, Enumerates call s start) ↔ ∀ start, NextAfter s start (call start) :=
  ⟨fun h start => (h start).nextAfter, enumerates_of_nextAfter hs⟩

/-! ## Downwards -/

/-- Every element before `start` is given once, in decreasing order, and then the end. -/
def EnumeratesDown (call : α → Option α) (s : Set α) (start : α) : Prop :=
  ∃ l, Yields call start l ∧ l.Pairwise (· > ·) ∧ ∀ v, v ∈ l ↔ v ∈ s ∧ v < start

/-- The greatest element before `start`, if there is one. -/
def NextBefore (s : Set α) (start : α) : Option α → Prop
  | none => ∀ v ∈ s, ¬ v < start
  | some n => IsGreatest {v | v ∈ s ∧ v < start} n

omit [LinearOrder α] in
theorem yields_dual (start : α) (l : List α) :
    @Yields αᵒᵈ call start l ↔ Yields call start l := by
  induction l generalizing start with
  | nil => exact Iff.rfl
  | cons n l ih => exact and_congr Iff.rfl (ih n)

theorem nextAfter_dual (start : α) (n : Option α) :
    @NextAfter αᵒᵈ _ s start n ↔ NextBefore s start n := by
  cases n with
  | none => exact Iff.rfl
  | some n => exact Iff.rfl

theorem enumeratesDown_iff (hs : s.Finite) :
    (∀ start, EnumeratesDown call s start) ↔ ∀ start, NextBefore s start (call start) := by
  have hdual := @enumerates_iff αᵒᵈ _ call s hs
  constructor
  · intro h start
    refine (nextAfter_dual start _).mp (hdual.mp (fun start => ?_) start)
    obtain ⟨l, hyields, hsorted, hmem⟩ := h start
    exact ⟨l, (yields_dual start l).mpr hyields, hsorted, hmem⟩
  · intro h start
    have hnext : ∀ start : α, @NextAfter αᵒᵈ _ s start (call start) := fun start =>
      (nextAfter_dual start (call start)).mpr (h start)
    obtain ⟨l, hyields, hsorted, hmem⟩ := hdual.mpr hnext start
    exact ⟨l, (yields_dual start l).mp hyields, hsorted, hmem⟩

end Iraf.Enumeration
