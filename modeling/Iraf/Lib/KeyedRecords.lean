import Mathlib.Data.List.Induction
import Mathlib.Data.List.Nodup

/-!
# Records with keys

A list of records of which some have a key.  Records are found by their keys, the
first of each key counts, and an edit reaches the first record of a key only.
-/

namespace Iraf.KeyedRecords

variable {α κ : Type*} [DecidableEq κ] {key : α → Option κ} {k k' : κ} {a : α} {l : List α}

/-- The records of a key, in their order. -/
def recordsOf (key : α → Option κ) (k : κ) (l : List α) : List α :=
  l.filter fun a => key a = some k

@[simp] theorem recordsOf_nil : recordsOf key k [] = [] := rfl

theorem recordsOf_cons_of_key (h : key a = some k) :
    recordsOf key k (a :: l) = a :: recordsOf key k l := by
  simp [recordsOf, h]

theorem recordsOf_cons_of_ne (h : key a ≠ some k) :
    recordsOf key k (a :: l) = recordsOf key k l := by
  simp [recordsOf, h]

@[simp] theorem recordsOf_append (l' : List α) :
    recordsOf key k (l ++ l') = recordsOf key k l ++ recordsOf key k l' := by
  simp [recordsOf]

/-- A record is entered unless its key is known. -/
def enter (key : α → Option κ) (seen : List (κ × α)) (a : α) : List (κ × α) :=
  match key a with
  | none => seen
  | some k => if k ∈ seen.map Prod.fst then seen else seen ++ [(k, a)]

def scan (key : α → Option κ) (l : List α) : List (κ × α) := l.foldl (enter key) []

/-- What a scan has found: each key once, with its first record. -/
structure Scanned (key : α → Option κ) (l : List α) (seen : List (κ × α)) : Prop where
  nodup : (seen.map Prod.fst).Nodup
  first : ∀ k a, (k, a) ∈ seen ↔ (recordsOf key k l).head? = some a

theorem Scanned.mem_keys {seen : List (κ × α)} (h : Scanned key l seen) :
    k ∈ seen.map Prod.fst ↔ recordsOf key k l ≠ [] := by
  constructor
  · intro hk
    obtain ⟨⟨k, a⟩, hmem, rfl⟩ := List.mem_map.1 hk
    have hfirst := (h.first k a).1 hmem
    rintro hnil
    simp [hnil] at hfirst
  · intro hne
    cases hrec : recordsOf key k l with
    | nil => exact absurd hrec hne
    | cons a rest =>
        exact List.mem_map.2 ⟨(k, a), (h.first k a).2 (by simp [hrec]), rfl⟩

theorem Scanned.enter {seen : List (κ × α)} (h : Scanned key l seen) (a : α) :
    Scanned key (l ++ [a]) (enter key seen a) := by
  unfold KeyedRecords.enter
  cases hkey : key a with
  | none =>
      refine ⟨h.nodup, fun k b => ?_⟩
      have hother : recordsOf key k [a] = [] := recordsOf_cons_of_ne (by simp [hkey])
      simpa [hother] using h.first k b
  | some k₀ =>
      dsimp only
      by_cases hseen : k₀ ∈ seen.map Prod.fst
      · rw [if_pos hseen]
        refine ⟨h.nodup, fun k b => ?_⟩
        rw [h.first, recordsOf_append]
        by_cases hk : k = k₀
        · subst hk
          have hne := h.mem_keys.1 hseen
          rw [List.head?_append_of_ne_nil _ hne]
        · have hother : recordsOf key k [a] = [] :=
            recordsOf_cons_of_ne (by simpa [hkey] using Ne.symm hk)
          simp [hother]
      · rw [if_neg hseen]
        have hnil : recordsOf key k₀ l = [] := by
          by_contra hne
          exact hseen (h.mem_keys.2 hne)
        refine ⟨?_, fun k b => ?_⟩
        · rw [List.map_append, List.map_singleton, ← List.concat_eq_append]
          exact h.nodup.concat hseen
        · rw [List.mem_append, h.first, recordsOf_append]
          by_cases hk : k = k₀
          · subst hk
            simp [hnil, recordsOf_cons_of_key hkey, eq_comm]
          · have hother : recordsOf key k [a] = [] :=
              recordsOf_cons_of_ne (by simpa [hkey] using Ne.symm hk)
            simp [hother, hk]

/-- The first record that satisfies `p` is changed. -/
def changeFirst (p : α → Bool) (f : α → α) : List α → List α
  | [] => []
  | a :: l => if p a then f a :: l else a :: changeFirst p f l

/-- The first record that satisfies `p` is the first one of a key. -/
structure Reaches (key : α → Option κ) (k : κ) (p : α → Bool) (l : List α) : Prop where
  keyed : ∀ a ∈ l, p a = true → key a = some k
  first : ∀ a, (recordsOf key k l).head? = some a → p a = true

variable {p : α → Bool} {f : α → α}

theorem Reaches.tail (h : Reaches key k p (a :: l)) (hp : ¬p a = true) :
    key a ≠ some k ∧ Reaches key k p l := by
  have hkey : key a ≠ some k := fun hkey => hp (h.first a (by simp [recordsOf_cons_of_key hkey]))
  refine ⟨hkey, fun b hb => h.keyed b (List.mem_cons_of_mem a hb), fun b hb => h.first b ?_⟩
  rwa [recordsOf_cons_of_ne hkey]

end Iraf.KeyedRecords
