import Mathlib.Logic.Equiv.Basic
import Mathlib.Data.List.Nodup
import Mathlib.Data.List.Perm.Subperm
import Iraf.Lib.Cells

/-!
# Rearranged cells

A part of a memory is rearranged by a permutation of its addresses.
-/

namespace Iraf.Cells

variable {α : Type*} {m m₁ m₂ : Memory α} {lo hi a b : Int} {n : Nat}

/-- The cells of a range are permuted, and the others are left alone. -/
def Rearranged (lo hi : Int) (m m' : Memory α) : Prop :=
  ∃ σ : Equiv.Perm Int, (∀ a, a < lo ∨ hi < a → σ a = a) ∧ ∀ a, m' a = m (σ a)

/-- Two cells are exchanged. -/
def swap (m : Memory α) (a b : Int) : Memory α := fun c => m (Equiv.swap a b c)

@[simp] theorem swap_left : swap m a b a = m b := by
  rw [swap, Equiv.swap_apply_left]

@[simp] theorem swap_right : swap m a b b = m a := by
  rw [swap, Equiv.swap_apply_right]

theorem swap_of_ne {c : Int} (ha : c ≠ a) (hb : c ≠ b) : swap m a b c = m c := by
  rw [swap, Equiv.swap_apply_of_ne_of_ne ha hb]

theorem Rearranged.refl (lo hi : Int) (m : Memory α) : Rearranged lo hi m m :=
  ⟨Equiv.refl Int, fun _ _ => rfl, fun _ => rfl⟩

theorem Rearranged.trans (h : Rearranged lo hi m m₁) (h' : Rearranged lo hi m₁ m₂) :
    Rearranged lo hi m m₂ := by
  obtain ⟨σ, hσ, hm⟩ := h
  obtain ⟨τ, hτ, hm'⟩ := h'
  refine ⟨τ.trans σ, fun a ha => ?_, fun a => ?_⟩
  · rw [Equiv.trans_apply, hτ a ha, hσ a ha]
  · rw [hm', hm, Equiv.trans_apply]

theorem Rearranged.mono {lo' hi' : Int} (h : Rearranged lo hi m m₁) (hlo : lo' ≤ lo)
    (hhi : hi ≤ hi') : Rearranged lo' hi' m m₁ := by
  obtain ⟨σ, hσ, hm⟩ := h
  exact ⟨σ, fun a ha => hσ a (by omega), hm⟩

theorem rearranged_swap (m : Memory α) (ha : lo ≤ a ∧ a ≤ hi) (hb : lo ≤ b ∧ b ≤ hi) :
    Rearranged lo hi m (swap m a b) := by
  refine ⟨Equiv.swap a b, fun c hc => ?_, fun _ => rfl⟩
  exact Equiv.swap_apply_of_ne_of_ne (by omega) (by omega)

theorem Rearranged.outside (h : Rearranged lo hi m m₁) (ha : a < lo ∨ hi < a) : m₁ a = m a := by
  obtain ⟨σ, hσ, hm⟩ := h
  rw [hm, hσ a ha]

/-- A permutation that leaves everything outside of a range alone keeps the range. -/
theorem mem_of_fixes {σ : Equiv.Perm Int} (hσ : ∀ a, a < lo ∨ hi < a → σ a = a)
    (ha : lo ≤ a ∧ a ≤ hi) : lo ≤ σ a ∧ σ a ≤ hi := by
  by_contra hout
  have hfix : σ (σ a) = σ a := hσ _ (by omega)
  have := σ.injective hfix
  omega

theorem Rearranged.inside (h : Rearranged lo hi m m₁) (ha : lo ≤ a ∧ a ≤ hi) :
    ∃ b, (lo ≤ b ∧ b ≤ hi) ∧ m₁ a = m b := by
  obtain ⟨σ, hσ, hm⟩ := h
  exact ⟨σ a, mem_of_fixes hσ ha, hm a⟩

theorem fetch_eq_map (m : Memory α) (a : Int) (n : Nat) :
    fetch m a n = ((List.range n).map fun j : Nat => a + j).map m := by
  rw [fetch, List.map_map]
  rfl

theorem Rearranged.perm_fetch (h : Rearranged a (a + n - 1) m m₁) :
    (fetch m₁ a n).Perm (fetch m a n) := by
  obtain ⟨σ, hσ, hm⟩ := h
  have hmem : ∀ c, c ∈ ((List.range n).map fun j : Nat => a + j) ↔ a ≤ c ∧ c ≤ a + n - 1 := by
    intro c
    rw [List.mem_map]
    constructor
    · rintro ⟨j, hj, rfl⟩
      have := List.mem_range.mp hj
      omega
    · intro hc
      exact ⟨(c - a).toNat, List.mem_range.mpr (by omega), by omega⟩
  have hnodup : ((List.range n).map fun j : Nat => a + (j : Int)).Nodup :=
    List.nodup_range.map fun i j hij => by omega
  have hsubset : (((List.range n).map fun j : Nat => a + (j : Int)).map σ) ⊆
      (List.range n).map fun j : Nat => a + (j : Int) := by
    intro c hc
    obtain ⟨b, hb, rfl⟩ := List.mem_map.mp hc
    exact (hmem _).mpr (mem_of_fixes hσ ((hmem b).mp hb))
  have hperm := (List.subperm_of_subset (hnodup.map σ.injective) hsubset).perm_of_length_le
    (Nat.le_of_eq (List.length_map _).symm)
  rw [fetch_eq_map, fetch_eq_map, show m₁ = m ∘ σ from funext hm, ← List.map_map]
  exact hperm.map m

end Iraf.Cells
