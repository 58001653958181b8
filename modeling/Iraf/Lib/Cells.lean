import Mathlib.Data.Int.Order.Basic
import Mathlib.Tactic.Common

/-!
# Cells of memory

A memory gives a value at every address.  `fetch` reads a block of cells as a
list and `put` stores a list.
-/

namespace Iraf.Cells

variable {α : Type*}

abbrev Memory (α : Type*) := Int → α

/-- The `n` cells from `a` on. -/
def fetch (m : Memory α) (a : Int) (n : Nat) : List α :=
  (List.range n).map fun j => m (a + (j : Nat))

/-- The cells from `a` on are replaced by those of a list. -/
def put (m : Memory α) (a : Int) (xs : List α) : Memory α :=
  fun x => if a ≤ x then (xs[(x - a).toNat]?).getD (m x) else m x

/-- The elements of a list from place `o` on are replaced, and the list grows
when those that replace them reach past its end. -/
def overlay (l : List α) (o : Nat) (xs : List α) : List α :=
  l.take o ++ xs ++ l.drop (o + xs.length)

variable {m m' : Memory α} {a b x : Int} {n k o : Nat} {xs ys l : List α}

/-! ## Reading -/

@[simp] theorem length_fetch : (fetch m a n).length = n := by
  simp [fetch]

@[simp] theorem fetch_zero : fetch m a 0 = [] := rfl

theorem getElem?_fetch {j : Nat} :
    (fetch m a n)[j]? = if j < n then some (m (a + j)) else none := by
  by_cases h : j < n
  · simp [fetch, h]
  · simp [fetch, h]

theorem fetch_congr (h : ∀ j < n, m (a + (j : Nat)) = m' (b + (j : Nat))) :
    fetch m a n = fetch m' b n := by
  refine List.map_congr_left fun j hj => ?_
  exact h j (List.mem_range.1 hj)

theorem fetch_add : fetch m a (n + k) = fetch m a n ++ fetch m (a + n) k := by
  unfold fetch
  rw [List.range_add, List.map_append, List.map_map]
  congr 1
  refine List.map_congr_left fun j _ => ?_
  rw [Function.comp_apply, Int.natCast_add, Int.add_assoc]

@[simp] theorem fetch_one : fetch m a 1 = [m a] := by
  simp [fetch]

theorem take_fetch (h : k ≤ n) : (fetch m a n).take k = fetch m a k := by
  obtain ⟨r, rfl⟩ := Nat.exists_eq_add_of_le h
  rw [fetch_add, List.take_left' length_fetch]

theorem drop_fetch (h : k ≤ n) :
    (fetch m a n).drop k = fetch m (a + k) (n - k) := by
  obtain ⟨r, rfl⟩ := Nat.exists_eq_add_of_le h
  rw [fetch_add, List.drop_left' length_fetch, Nat.add_sub_cancel_left]

theorem fetch_eq_of_getElem? (hlen : xs.length = n)
    (h : ∀ j < n, xs[j]? = some (m (a + (j : Nat)))) : fetch m a n = xs := by
  refine List.ext_getElem? fun j => ?_
  rw [getElem?_fetch]
  by_cases hj : j < n
  · rw [if_pos hj, h j hj]
  · rw [if_neg hj, List.getElem?_eq_none (by omega)]

/-! ## Storing -/

theorem put_of_mem (j : Nat) (hj : j < xs.length) (hx : x = a + j) :
    put m a xs x = xs[j] := by
  subst hx
  have hle : a ≤ a + (j : Int) := by omega
  have hsub : (a + (j : Int) - a).toNat = j := by omega
  rw [put, if_pos hle, hsub, List.getElem?_eq_getElem hj, Option.getD_some]

theorem put_of_not_mem (h : x < a ∨ a + xs.length ≤ x) :
    put m a xs x = m x := by
  unfold put
  split
  · rw [List.getElem?_eq_none (by omega)]
    rfl
  · rfl

@[simp] theorem put_nil : put m a ([] : List α) = m := by
  funext x
  exact put_of_not_mem (by simp; omega)

theorem put_append :
    put (put m a xs) (a + xs.length) ys = put m a (xs ++ ys) := by
  have hlen : (xs ++ ys).length = xs.length + ys.length := List.length_append
  funext x
  rcases lt_or_ge x a with hlt | hge
  · rw [put_of_not_mem (.inl (by omega)), put_of_not_mem (.inl hlt),
      put_of_not_mem (.inl hlt)]
  · obtain ⟨j, rfl⟩ : ∃ j : Nat, x = a + j := ⟨(x - a).toNat, by omega⟩
    by_cases hx : j < xs.length
    · rw [put_of_not_mem (.inl (by omega)), put_of_mem j hx rfl,
        put_of_mem j (by omega) rfl, List.getElem_append_left hx]
    · by_cases hy : j < (xs ++ ys).length
      · rw [put_of_mem (j - xs.length) (by omega) (by omega),
          put_of_mem j hy rfl, List.getElem_append_right (by omega)]
      · rw [put_of_not_mem (.inr (by omega)), put_of_not_mem (.inr (by omega)),
          put_of_not_mem (.inr (by omega))]

theorem fetch_put_same : fetch (put m a xs) a xs.length = xs := by
  refine fetch_eq_of_getElem? rfl fun j hj => ?_
  rw [put_of_mem j hj rfl, List.getElem?_eq_getElem hj]

theorem fetch_put_of_apart (h : b + n ≤ a ∨ a + xs.length ≤ b) :
    fetch (put m a xs) b n = fetch m b n := by
  refine fetch_congr fun j hj => put_of_not_mem ?_
  omega

theorem fetch_put_of_le (h : n ≤ xs.length) :
    fetch (put m a xs) a n = xs.take n := by
  rw [← take_fetch h, fetch_put_same]

/-! ## Overlays -/

theorem length_overlay (h : o ≤ l.length) :
    (overlay l o xs).length = max l.length (o + xs.length) := by
  simp only [overlay, List.length_append, List.length_take, List.length_drop]
  omega

theorem getElem?_overlay_of_mem {i : Nat} (h : o ≤ l.length) (hi : o ≤ i)
    (hi' : i < o + xs.length) : (overlay l o xs)[i]? = xs[i - o]? := by
  have hlen : (l.take o).length = o := by
    rw [List.length_take]
    omega
  rw [overlay, List.append_assoc, List.getElem?_append_right (by omega), hlen,
    List.getElem?_append_left (by omega)]

theorem getElem?_overlay_of_not_mem {i : Nat} (h : o ≤ l.length)
    (hi : i < o ∨ o + xs.length ≤ i) : (overlay l o xs)[i]? = l[i]? := by
  have hlen : (l.take o).length = o := by
    rw [List.length_take]
    omega
  rw [overlay, List.append_assoc]
  rcases hi with hi | hi
  · rw [List.getElem?_append_left (by omega), List.getElem?_take_of_lt hi]
  · rw [List.getElem?_append_right (by omega), hlen,
      List.getElem?_append_right (by omega), List.getElem?_drop]
    congr 1
    omega

theorem overlay_append (h : o ≤ l.length) :
    overlay (overlay l o xs) (o + xs.length) ys = overlay l o (xs ++ ys) := by
  have hlen : (overlay l o xs).length = _ := length_overlay h
  have hmid : o + xs.length ≤ (overlay l o xs).length := by omega
  refine List.ext_getElem? fun i => ?_
  have hboth : (xs ++ ys).length = xs.length + ys.length := List.length_append
  by_cases hin : o ≤ i ∧ i < o + (xs ++ ys).length
  · rw [getElem?_overlay_of_mem h hin.1 hin.2]
    by_cases hx : i < o + xs.length
    · rw [getElem?_overlay_of_not_mem hmid (.inl hx),
        getElem?_overlay_of_mem h hin.1 hx, List.getElem?_append_left (by omega)]
    · rw [getElem?_overlay_of_mem hmid (by omega) (by omega),
        List.getElem?_append_right (by omega)]
      congr 1
      omega
  · rw [getElem?_overlay_of_not_mem h (by omega),
      getElem?_overlay_of_not_mem hmid (by omega),
      getElem?_overlay_of_not_mem h (by omega)]

theorem overlay_overlay (h : o ≤ l.length) (hle : xs.length ≤ ys.length) :
    overlay (overlay l o xs) o ys = overlay l o ys := by
  have hlen : (overlay l o xs).length = _ := length_overlay h
  have hmid : o ≤ (overlay l o xs).length := by omega
  refine List.ext_getElem? fun i => ?_
  by_cases hin : o ≤ i ∧ i < o + ys.length
  · rw [getElem?_overlay_of_mem hmid hin.1 hin.2, getElem?_overlay_of_mem h hin.1 hin.2]
  · rw [getElem?_overlay_of_not_mem hmid (by omega), getElem?_overlay_of_not_mem h (by omega),
      getElem?_overlay_of_not_mem h (by omega)]

@[simp] theorem overlay_nil : overlay l o [] = l := by
  simp [overlay]

end Iraf.Cells
