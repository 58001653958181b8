import Mathlib.Data.List.TakeDrop
import Iraf.Lib.Links

/-!
# Threaded stacks

The elements of a stack are linked on threads: an element leads to the next one below it with the
same thread, and the head of a thread is the topmost element with that thread.
-/

namespace Iraf

open Function

variable {α τ : Type*} [DecidableEq τ] {thread thread' : α → τ}
  {heads : τ → Option α} {next next' : α → Option α} {first : Option α} {a : α} {l l₁ l₂ : List α}

/-- Each thread visits the elements of the stack that belong to it. -/
def Threaded (thread : α → τ) (heads : τ → Option α) (next : α → Option α) (l : List α) : Prop :=
  ∀ t, Visits next (heads t) (l.filter fun a => thread a = t)

theorem Threaded.congr (h : Threaded thread heads next l)
    (hthread : ∀ a ∈ l, thread' a = thread a) (hnext : ∀ a ∈ l, next' a = next a) :
    Threaded thread' heads next' l := by
  intro t
  have hfilter : (l.filter fun a => thread' a = t) = l.filter fun a => thread a = t :=
    List.filter_congr fun a ha => by rw [hthread a ha]
  rw [hfilter]
  exact (h t).congr fun a ha => hnext a (List.mem_of_mem_filter ha)

theorem Threaded.push [DecidableEq α] (h : Threaded thread heads next l) (ha : a ∉ l) :
    Threaded thread (update heads (thread a) (some a)) (update next a (heads (thread a)))
      (a :: l) := by
  intro t
  rw [List.filter_cons]
  by_cases ht : thread a = t
  · subst ht
    rw [if_pos (decide_eq_true rfl), update_self]
    exact (h (thread a)).cons fun hmem => ha (List.mem_of_mem_filter hmem)
  · rw [if_neg (by simpa using ht), update_of_ne (Ne.symm ht)]
    refine (h t).congr fun b hb => update_of_ne ?_ _ _
    rintro rfl
    exact ha (List.mem_of_mem_filter hb)

theorem Threaded.head_eq (h : Threaded thread heads next (a :: l)) :
    heads (thread a) = some a := by
  have := h (thread a)
  rw [List.filter_cons, if_pos (decide_eq_true rfl)] at this
  exact this.1

theorem Threaded.pop (h : Threaded thread heads next (a :: l)) :
    Threaded thread (update heads (thread a) (next a)) next l := by
  intro t
  have ht := h t
  rw [List.filter_cons] at ht
  by_cases heq : thread a = t
  · subst heq
    rw [if_pos (decide_eq_true rfl)] at ht
    rw [update_self]
    exact ht.2
  · rw [if_neg (by simpa using heq)] at ht
    rwa [update_of_ne (Ne.symm heq)]

/-- A search for elements of one thread finds what a search of the stack finds. -/
theorem find?_filter_thread {t : τ} {p : α → Bool} (hp : ∀ a ∈ l, p a = true → thread a = t) :
    (l.filter fun a => thread a = t).find? p = l.find? p := by
  induction l with
  | nil => rfl
  | cons a l ih =>
      have ih := ih fun b hb => hp b (List.mem_cons_of_mem a hb)
      rw [List.filter_cons]
      by_cases ht : thread a = t
      · rw [if_pos (decide_eq_true ht), List.find?_cons, List.find?_cons, ih]
      · have hpa : p a = false :=
          Bool.eq_false_iff.mpr fun h => ht (hp a List.mem_cons_self h)
        rw [if_neg (by simpa using ht), ih, List.find?_cons, hpa]

theorem filter_filter_thread {t : τ} {p : α → Bool} (hp : ∀ a ∈ l, p a = true → thread a = t) :
    (l.filter fun a => thread a = t).filter p = l.filter p := by
  rw [List.filter_filter]
  refine List.filter_congr fun a ha => ?_
  cases hpa : p a with
  | false => rfl
  | true =>
      rw [Bool.true_and]
      exact decide_eq_true (hp a ha hpa)

end Iraf
