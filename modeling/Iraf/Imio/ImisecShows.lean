import Iraf.Imio.ImisecReads
import Mathlib.Data.List.GetD

/-!
# What image sections show

The section of an image is seen through the transformation that `imisec` sets.
-/

namespace Iraf.Imio.SectionText

open Imdes

variable {im r : Imdes} {fs : List Field} {subscript : Nat → Subscript}

/-! ## One axis -/

/-- A subscript with the last pixel of an axis in the place of LAST. -/
def resolve (x n : Int) : Int := if x = last then n else x

def axisLength (s : Subscript) (n : Int) : Int :=
  (resolve s.x2 n - resolve s.x1 n).tdiv s.step + 1

theorem imCtranset_eq {im im' : Imdes} {dim : Nat} {s : Subscript}
    (h : im.imCtranset dim s = .ok im') :
    0 < axisLength s (im.imLen dim) ∧ im' = { im with
      imLen := Function.update im.imLen dim (axisLength s (im.imLen dim))
      imVoff := Function.update im.imVoff dim (resolve s.x1 (im.imLen dim) - s.step)
      imVstep := Function.update im.imVstep dim s.step } := by
  have hset : im.imCtranset dim s = if axisLength s (im.imLen dim) ≤ 0 then .error .imstepsec
      else .ok { im with
        imLen := Function.update im.imLen dim (axisLength s (im.imLen dim))
        imVoff := Function.update im.imVoff dim (resolve s.x1 (im.imLen dim) - s.step)
        imVstep := Function.update im.imVstep dim s.step } := rfl
  rw [hset] at h
  split at h
  · cases h
  next hpos =>
    cases h
    exact ⟨by omega, rfl⟩

/-- What the loop over the dimensions from `d` on sets. -/
structure MapsDims (subscript : Nat → Subscript) (d m : Nat) (im : Imdes) (nlog : Nat)
    (r : Imdes) (nlog' : Nat) : Prop where
  le : nlog ≤ nlog'
  nphysdim : r.imNphysdim = im.imNphysdim
  below : ∀ i ≤ nlog, r.imVmap i = im.imVmap i ∧ r.imLen i = im.imLen i
  before : ∀ j < d, r.imVoff j = im.imVoff j ∧ r.imVstep j = im.imVstep j
  set : ∀ j, d ≤ j → j < d + m →
    r.imVoff j = resolve (subscript j).x1 (im.imLen j) - (subscript j).step ∧
      r.imVstep j = (subscript j).step
  accepted : ∀ j, d ≤ j → j < d + m → 0 < axisLength (subscript j) (im.imLen j)
  kept : ∀ i, nlog < i → i ≤ nlog' → d ≤ r.imVmap i ∧ r.imVmap i < d + m ∧
    r.imLen i = axisLength (subscript (r.imVmap i)) (im.imLen (r.imVmap i))
  mono : ∀ i i', nlog < i → i < i' → i' ≤ nlog' → r.imVmap i < r.imVmap i'
  all : ∀ j, d ≤ j → j < d + m → (subscript j).x1 ≠ (subscript j).x2 →
    ∃ i, nlog < i ∧ i ≤ nlog' ∧ r.imVmap i = j

theorem MapsDims.skip {d m nlog nlog' : Nat} {im im' r : Imdes} (hnlog : nlog < d)
    (hset : im.imCtranset d (subscript d) = .ok im')
    (heq : (subscript d).x1 = (subscript d).x2)
    (h : MapsDims subscript (d + 1) m im' nlog r nlog') :
    MapsDims subscript d (m + 1) im nlog r nlog' := by
  obtain ⟨haccepted, rfl⟩ := imCtranset_eq hset
  have hlen : ∀ j ≠ d, Function.update im.imLen d (axisLength (subscript d) (im.imLen d)) j =
      im.imLen j := fun j hj => Function.update_of_ne hj _ _
  refine ⟨h.le, h.nphysdim, fun i hi => ?_, fun j hj => ?_, fun j hj hjm => ?_,
    fun j hj hjm => ?_, fun i hi hi' => ?_, h.mono, fun j hj hjm hne => ?_⟩
  · rw [(h.below i hi).1, (h.below i hi).2]
    exact ⟨rfl, hlen i (by omega)⟩
  · rw [(h.before j (by omega)).1, (h.before j (by omega)).2]
    exact ⟨Function.update_of_ne (by omega) _ _, Function.update_of_ne (by omega) _ _⟩
  · rcases Nat.eq_or_lt_of_le hj with rfl | hlt
    · rw [(h.before d (by omega)).1, (h.before d (by omega)).2]
      exact ⟨Function.update_self _ _ _, Function.update_self _ _ _⟩
    · have hj' := h.set j hlt (by omega)
      dsimp only at hj'
      rwa [hlen j (by omega)] at hj'
  · rcases Nat.eq_or_lt_of_le hj with rfl | hlt
    · exact haccepted
    · have hj' := h.accepted j hlt (by omega)
      dsimp only at hj'
      rwa [hlen j (by omega)] at hj'
  · obtain ⟨hge, hlt, hi''⟩ := h.kept i hi hi'
    dsimp only at hi''
    rw [hlen _ (by omega)] at hi''
    exact ⟨by omega, by omega, hi''⟩
  · rcases Nat.eq_or_lt_of_le hj with rfl | hlt
    · exact absurd heq hne
    · exact h.all j hlt (by omega) hne

/-- The logical axes up to `i` are those that are mapped to physical axes before `j`. -/
theorem imaplvFrom_spec {lv : Nat → Int} {nldims n j i : Nat} {pv : Nat → Int}
    (hmono : ∀ i i', 1 ≤ i → i < i' → i' ≤ nldims → r.imVmap i < r.imVmap i') (hi : 1 ≤ i)
    (hpast : ∀ i', 1 ≤ i' → i' ≤ nldims → (i' < i ↔ r.imVmap i' < j)) :
    (∀ j' < j, imaplvFrom r lv nldims n j i pv j' = pv j') ∧
      ∀ j', j ≤ j' → j' < j + n →
        (∀ i', 1 ≤ i' → i' ≤ nldims → r.imVmap i' = j' →
          imaplvFrom r lv nldims n j i pv j' = r.imVoff j' + r.imVstep j' * lv i') ∧
        ((∀ i', 1 ≤ i' → i' ≤ nldims → r.imVmap i' ≠ j') →
          imaplvFrom r lv nldims n j i pv j' = r.imVoff j' + r.imVstep j' * 1) := by
  induction n generalizing j i pv with
  | zero => exact ⟨fun _ _ => rfl, fun j' hj hj' => absurd hj' (by omega)⟩
  | succ n ih =>
      rw [imaplvFrom]
      by_cases hmapped : i ≤ nldims ∧ r.imVmap i = j
      · rw [if_pos hmapped, if_pos hmapped]
        have hpast' : ∀ i', 1 ≤ i' → i' ≤ nldims → (i' < i + 1 ↔ r.imVmap i' < j + 1) := by
          intro i' h1 h2
          rcases lt_trichotomy i' i with hlt | rfl | hgt
          · have := (hpast i' h1 h2).1 hlt
            omega
          · omega
          · have := hmono i i' hi hgt h2
            omega
        obtain ⟨hbefore, hrest⟩ := @ih (j + 1) (i + 1) (Function.update pv j
          (r.imVoff j + r.imVstep j * lv i)) (by omega) hpast'
        refine ⟨fun j' hj' => ?_, fun j' hj hj' => ?_⟩
        · rw [hbefore j' (by omega), Function.update_of_ne (by omega)]
        · rcases Nat.eq_or_lt_of_le hj with rfl | hlt
          · rw [hbefore j (by omega), Function.update_self]
            refine ⟨fun i' h1 h2 h3 => ?_, fun hnone => absurd hmapped.2 (hnone i hi hmapped.1)⟩
            rcases lt_trichotomy i' i with hlt | rfl | hgt
            · have := (hpast i' h1 h2).1 hlt
              omega
            · rfl
            · have := hmono i i' hi hgt h2
              omega
          · exact hrest j' hlt (by omega)
      · rw [if_neg hmapped, if_neg hmapped]
        have hfree : ∀ i', 1 ≤ i' → i' ≤ nldims → r.imVmap i' ≠ j := by
          intro i' h1 h2 h3
          have hge : ¬i' < i := fun hlt => by
            have := (hpast i' h1 h2).1 hlt
            omega
          rcases Nat.eq_or_lt_of_le (Nat.not_lt.1 hge) with rfl | hlt
          · exact hmapped ⟨h2, h3⟩
          · have hvmap := hmono i i' hi hlt h2
            have := (hpast i hi (by omega)).2 (by omega)
            omega
        have hpast' : ∀ i', 1 ≤ i' → i' ≤ nldims → (i' < i ↔ r.imVmap i' < j + 1) := by
          intro i' h1 h2
          have hne := hfree i' h1 h2
          have := hpast i' h1 h2
          omega
        obtain ⟨hbefore, hrest⟩ := @ih (j + 1) i (Function.update pv j
          (r.imVoff j + r.imVstep j * 1)) hi hpast'
        refine ⟨fun j' hj' => ?_, fun j' hj hj' => ?_⟩
        · rw [hbefore j' (by omega), Function.update_of_ne (by omega)]
        · rcases Nat.eq_or_lt_of_le hj with rfl | hlt
          · rw [hbefore j (by omega), Function.update_self]
            exact ⟨fun i' h1 h2 h3 => absurd h3 (hfree i' h1 h2), fun _ => rfl⟩
          · exact hrest j' hlt (by omega)

/-- The transformation that shows the fields of a section. -/
structure Transformed (im r : Imdes) (fs : List Field) : Prop where
  nphysdim : r.imNphysdim = im.imNdim
  mono : ∀ i i', 1 ≤ i → i < i' → i' ≤ r.imNdim → r.imVmap i < r.imVmap i'
  used : ∀ i, 1 ≤ i → i ≤ r.imNdim → 1 ≤ r.imVmap i ∧ r.imVmap i ≤ im.imNdim
  len : ∀ i, 1 ≤ i → i ≤ r.imNdim →
    r.imLen i = (axisSubscripts im fs (r.imVmap i)).length
  pixel : ∀ j, 1 ≤ j → j ≤ im.imNdim → ∀ k : Nat, k < (axisSubscripts im fs j).length →
    (axisSubscripts im fs j)[k]? = some (r.imVoff j + r.imVstep j * (k + 1))
  inside : ∀ j, 1 ≤ j → j ≤ im.imNdim → ∀ x ∈ axisSubscripts im fs j, 1 ≤ x ∧ x ≤ im.imLen j
  dropped : ∀ j, 1 ≤ j → j ≤ im.imNdim → (∀ i, 1 ≤ i → i ≤ r.imNdim → r.imVmap i ≠ j) →
    (axisSubscripts im fs j).length = 1
  excess : ∀ f ∈ fs.drop im.imNdim, f.subscripts 1 = [1]

theorem Transformed.imaplv (h : Transformed im r fs) (lv : Nat → Int) {j : Nat} (hj : 1 ≤ j)
    (hj' : j ≤ im.imNdim) :
    (∀ i, 1 ≤ i → i ≤ r.imNdim → r.imVmap i = j →
      r.imaplv lv r.imNdim j = r.imVoff j + r.imVstep j * lv i) ∧
    ((∀ i, 1 ≤ i → i ≤ r.imNdim → r.imVmap i ≠ j) →
      r.imaplv lv r.imNdim j = r.imVoff j + r.imVstep j * 1) := by
  rw [Imdes.imaplv, min_self, h.nphysdim]
  refine (imaplvFrom_spec h.mono le_rfl fun i hi hi' => ?_).2 j hj (by omega)
  have := (h.used i hi hi').1
  omega

end Iraf.Imio.SectionText
