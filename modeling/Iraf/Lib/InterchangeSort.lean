import Mathlib.Algebra.Order.Ring.Int
import Mathlib.Data.Int.Init
import Iraf.Lib.Rearrangement

/-!
# The simple interchange sort

Neighbours that are out of order are exchanged, in passes over the array, until a
pass exchanges nothing.
-/

namespace Iraf.Cells

section InterchangeSort

variable {α : Type*} (key : α → Int)

/-- A pass over a number of neighbours from `i` on, and whether any were exchanged. -/
def pass : Nat → Int → Memory α → Memory α × Bool
  | 0, _, m => (m, false)
  | n + 1, i, m =>
      if key (m i) > key (m (i + 1)) then ((pass n (i + 1) (swap m i (i + 1))).1, true)
      else pass n (i + 1) m

/-- Passes over `n` cells, a number of them at most. -/
def interchangeSort (n : Nat) : Nat → Memory α → Option (Memory α)
  | 0, _ => none
  | passes + 1, m =>
      if (pass key (n - 1) 1 m).2 then interchangeSort n passes (pass key (n - 1) 1 m).1
      else some (pass key (n - 1) 1 m).1

variable {key} {m m' : Memory α} {n k passes : Nat} {i : Int}

theorem pass_rearranged {hi : Int} (hhi : i + n ≤ hi) :
    Rearranged i hi m (pass key n i m).1 := by
  induction n generalizing i m with
  | zero => exact .refl i hi m
  | succ n ih =>
      rw [pass]
      have hrest : ∀ m, Rearranged i hi m (pass key n (i + 1) m).1 := fun m =>
        (ih (i := i + 1) (m := m) (by push_cast at hhi; omega)).mono (by omega) le_rfl
      split
      · refine Rearranged.trans (rearranged_swap m ?_ ?_) (hrest _) <;> omega
      · exact hrest m

theorem pass_unchanged (h : (pass key n i m).2 = false) :
    (pass key n i m).1 = m ∧ ∀ a, i ≤ a → a < i + n → key (m a) ≤ key (m (a + 1)) := by
  induction n generalizing i m with
  | zero => exact ⟨rfl, fun a ha ha' => by omega⟩
  | succ n ih =>
      rw [pass] at h ⊢
      split at h
      · cases h
      next hle =>
        rw [if_neg hle]
        obtain ⟨hsame, hordered⟩ := ih h
        refine ⟨hsame, fun a ha ha' => ?_⟩
        rcases ha.eq_or_lt with rfl | hlt
        · exact not_lt.1 hle
        · exact hordered a (by omega) (by omega)

theorem pass_ordered (h : ∀ a, i ≤ a → a < i + n → key (m a) ≤ key (m (a + 1))) :
    pass key n i m = (m, false) := by
  induction n generalizing i with
  | zero => rfl
  | succ n ih =>
      rw [pass, if_neg (not_lt.2 (h i le_rfl (by omega)))]
      exact ih fun a ha ha' => h a (by omega) (by omega)

/-- The last `k` of `n` cells are not below any cell before them. -/
def Settled (key : α → Int) (n k : Nat) (m : Memory α) : Prop :=
  ∀ a b : Int, 1 ≤ a → a ≤ b → (n : Int) - k < b → b ≤ n → key (m a) ≤ key (m b)

/-- The cells up to `i` are not above the cell at `i`. -/
def Carries (key : α → Int) (i : Int) (m : Memory α) : Prop :=
  ∀ a, 1 ≤ a → a ≤ i → key (m a) ≤ key (m i)

theorem Carries.step (h : Carries key i m) (hle : ¬key (m i) > key (m (i + 1))) :
    Carries key (i + 1) m := by
  intro a ha ha'
  rcases ha'.eq_or_lt with rfl | hlt
  · exact le_rfl
  · exact (h a ha (by omega)).trans (not_lt.1 hle)

theorem Carries.exchange (h : Carries key i m) (hgt : key (m i) > key (m (i + 1))) :
    Carries key (i + 1) (swap m i (i + 1)) := by
  intro a ha ha'
  rw [swap_right]
  rcases ha'.eq_or_lt with rfl | hlt
  · rw [swap_right]
  · rcases (Int.lt_add_one_iff.1 hlt).eq_or_lt with rfl | hlt'
    · rw [swap_left]
      exact hgt.le
    · rw [swap_of_ne (by omega) (by omega)]
      exact h a ha hlt'.le

theorem Settled.exchange (h : Settled key n k m) (hi : 1 ≤ i) (hlast : i + 1 ≤ (n : Int) - k) :
    Settled key n k (swap m i (i + 1)) := by
  intro a b ha hab hb hbn
  rw [swap_of_ne (show b ≠ i by omega) (show b ≠ i + 1 by omega)]
  by_cases hai : a = i
  · rw [hai, swap_left]
    exact h (i + 1) b (by omega) (by omega) hb hbn
  · by_cases hai' : a = i + 1
    · rw [hai', swap_right]
      exact h i b hi (by omega) hb hbn
    · rw [swap_of_ne hai hai']
      exact h a b ha hab hb hbn

theorem pass_settles {r : Nat} (hi : 1 ≤ i) (hr : i + r = n) (hsettled : Settled key n k m)
    (hcarries : Carries key (min i ((n : Int) - k)) m) :
    Settled key n (k + 1) (pass key r i m).1 := by
  induction r generalizing i m with
  | zero =>
      intro a b ha hab hb hbn
      by_cases hlast : (n : Int) - k < b
      · exact hsettled a b ha hab hlast hbn
      · have hmin : min i ((n : Int) - k) = b := by push_cast at hb hr; omega
        rw [hmin] at hcarries
        exact hcarries a ha hab
  | succ r ih =>
      rw [pass]
      split
      next hgt =>
        have hlast : i + 1 ≤ (n : Int) - k := by
          by_contra hlate
          exact absurd (hsettled i (i + 1) hi (by omega) (by omega) (by push_cast at hr; omega))
            (not_le.2 hgt)
        rw [min_eq_left (by omega)] at hcarries
        refine ih (by omega) (by push_cast at hr; omega) (hsettled.exchange hi hlast) ?_
        rw [min_eq_left hlast]
        exact hcarries.exchange hgt
      next hle =>
        refine ih (by omega) (by push_cast at hr; omega) hsettled ?_
        rcases le_or_gt (i + 1) ((n : Int) - k) with hlast | hlate
        · rw [min_eq_left (by omega)] at hcarries
          rw [min_eq_left hlast]
          exact hcarries.step hle
        · rw [min_eq_right (by omega)] at hcarries
          rw [min_eq_right (by omega)]
          exact hcarries

theorem ordered_of_neighbours {lo hi : Int}
    (h : ∀ a, lo ≤ a → a < hi → key (m a) ≤ key (m (a + 1))) {a b : Int} (ha : lo ≤ a)
    (hab : a ≤ b) (hb : b ≤ hi) : key (m a) ≤ key (m b) := by
  induction b, hab using Int.leInduction with
  | base => exact le_rfl
  | succ b hab ih => exact (ih (by omega)).trans (h b (by omega) (by omega))

theorem interchangeSort_spec (hpasses : 1 ≤ passes) (hk : n ≤ k + passes)
    (h : Settled key n k m) :
    ∃ m', interchangeSort key n passes m = some m' ∧ Rearranged 1 n m m' ∧
      ∀ a b : Int, 1 ≤ a → a ≤ b → b ≤ n → key (m' a) ≤ key (m' b) := by
  induction passes generalizing k m with
  | zero => exact absurd hpasses (by decide)
  | succ passes ih =>
      rw [interchangeSort]
      rcases Nat.eq_zero_or_pos n with rfl | hn
      · exact ⟨m, rfl, .refl 1 0 m, fun a b ha hab hb => by omega⟩
      have hbound : (1 : Int) + (n - 1 : Nat) = n := by omega
      split
      next hswap =>
        have hpos : 1 ≤ passes := by
          by_contra hlast
          have hordered : pass key (n - 1) 1 m = (m, false) := pass_ordered fun a ha ha' =>
            h a (a + 1) ha (by omega) (by omega) (by omega)
          rw [hordered] at hswap
          exact Bool.false_ne_true hswap
        have hcarries : Carries key (min 1 ((n : Int) - k)) m := by
          intro a ha ha'
          obtain rfl : a = min 1 ((n : Int) - k) := by omega
          exact le_rfl
        obtain ⟨m', hsort, hperm, hordered⟩ :=
          ih hpos (by omega) (pass_settles le_rfl hbound h hcarries)
        exact ⟨m', hsort, (pass_rearranged hbound.le).trans hperm, hordered⟩
      next hswap =>
        obtain ⟨hsame, hordered⟩ := pass_unchanged (Bool.not_eq_true _ ▸ hswap)
        refine ⟨_, rfl, pass_rearranged hbound.le, fun a b ha hab hb => ?_⟩
        rw [hsame]
        exact ordered_of_neighbours (fun a ha ha' => hordered a ha (by omega)) ha hab hb

end InterchangeSort

end Iraf.Cells
