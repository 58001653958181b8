import Iraf.Osb.Mii32Inverse

/-!
# Repacking in overlapping arrays

`I64TO32` and `I32TO64` convert big endian integers, wherever the two arrays lie.
-/

namespace Iraf.Osb

open Iraf.ByteMemory

def bigEndian64 : Host := ⟨true, false, false, false⟩

/-- What is left in the output does not depend on where it is, and the integers of a host
that fit in 32 bits are got back. -/
structure Repacks (host : Host) : Prop where
  narrow : ∀ (m m' : Memory) (a b a' b' : Int) (n : Nat), Apart a' (8 * n) b' (4 * n) →
    (∀ j < 8 * n, m' (a' + j) = m (a + j)) →
    ∀ j < 4 * n, i64to32 m a b n (b + j) = i64to32 m' a' b' n (b' + j)
  widen : ∀ (m m' : Memory) (a b a' b' : Int) (n : Nat), Apart a' (4 * n) b' (8 * n) →
    (∀ j < 4 * n, m' (a' + j) = m (a + j)) →
    ∀ j < 8 * n, i32to64 m a b n (b + j) = i32to64 m' a' b' n (b' + j)
  restore : ∀ (m : Memory) (a b c : Int) (n : Nat),
    (∀ i < n, -2 ^ 31 ≤ element host .long m a i ∧ element host .long m a i < 2 ^ 31) →
    ∀ j < 8 * n, i32to64 (i64to32 m a b n) b c n (c + j) = m (a + j)

variable {m : Memory} {a b c : Int} {n : Nat}

theorem sign_bytes (f : Nat → Byte)
    (hfits : -2 ^ 31 ≤ signed ((List.range 8).map f) ∧
      signed ((List.range 8).map f) < 2 ^ 31) {j : Nat} (hj : j < 4) :
    f j = if (f 4).val ≥ 128 then 255 else 0 := by
  have h0 := (f 0).isLt
  have h1 := (f 1).isLt
  have h2 := (f 2).isLt
  have h3 := (f 3).isLt
  have h4 := (f 4).isLt
  have h5 := (f 5).isLt
  have h6 := (f 6).isLt
  have h7 := (f 7).isLt
  have hrange : List.range 8 = [0, 1, 2, 3, 4, 5, 6, 7] := by decide
  simp only [hrange, List.map_cons, List.map_nil, signed, negative, unsigned,
    List.headD_cons, List.foldl_cons, List.foldl_nil, List.length_cons,
    List.length_nil, decide_eq_true_eq] at hfits
  have hval : (f j).val = if (f 4).val ≥ 128 then 255 else 0 := by
    norm_num at hfits
    obtain rfl | rfl | rfl | rfl : j = 0 ∨ j = 1 ∨ j = 2 ∨ j = 3 := by omega
    all_goals split_ifs at hfits ⊢ <;> omega
  apply Fin.ext
  rw [hval]
  split <;> rfl

theorem element_bigEndian (i : Nat) :
    element bigEndian64 .long m a i =
      signed ((List.range 8).map fun j => m (a + (8 * i + j : Nat))) := by
  refine congrArg signed (List.map_congr_left fun j hj => ?_)
  congr 1
  have hgroup : bigEndian64.group (SppType.long.bytes bigEndian64) = 1 := by decide
  have hbytes : SppType.long.bytes bigEndian64 = 8 := by decide
  rw [hgroup, hbytes, reflect]
  push_cast
  omega

theorem widened_narrowed (f : Nat → Byte)
    (hsign : ∀ i < n, ∀ j < 4, f (8 * i + j) = if (f (8 * i + 4)).val ≥ 128 then 255 else 0)
    {j : Nat} (hj : j < 8 * n) : widened (narrowed f) j = f j := by
  obtain ⟨i, r, hr, rfl⟩ : ∃ i r, r < 8 ∧ j = 8 * i + r :=
    ⟨j / 8, j % 8, by omega, by omega⟩
  have hmod : (8 * i + r) % 8 = r := by omega
  have hdiv : (8 * i + r) / 8 = i := by omega
  have hfirst : narrowed f (4 * i) = f (8 * i + 4) := narrowed_of_lt f (j := 0) (by decide)
  rw [widened, hmod, hdiv, hfirst]
  split
  next hlow => exact (hsign i (by omega) r hlow).symm
  next hhigh =>
    rw [Nat.add_sub_assoc (by omega), narrowed_of_lt f (by omega)]
    congr 1
    omega

theorem repacks_bigEndian : Repacks bigEndian64 where
  narrow m m' a b a' b' n _ heq j hj := by
    rw [i64to32_eq, i64to32_eq, splice_add hj, splice_add hj]
    exact (heq _ (by omega)).symm
  widen m m' a b a' b' n _ heq j hj := by
    rw [i32to64_eq, i32to64_eq, splice_add hj, splice_add hj, widened, widened,
      heq _ (by omega)]
    split
    · rfl
    · exact (heq _ (by omega)).symm
  restore m a b c n hfits j hj := by
    rw [i32to64_eq, splice_add hj, i64to32_eq]
    have hread : widened (fun j => splice m b (4 * n) (narrowed fun j => m (a + j)) (b + j)) j =
        widened (narrowed fun j => m (a + j)) j := by
      rw [widened, widened, splice_add (by omega)]
      split
      · rfl
      · exact splice_add (by omega)
    rw [hread]
    refine widened_narrowed (fun j => m (a + j)) (fun i hi r hr => ?_) hj
    have hfit := hfits i hi
    rw [element_bigEndian] at hfit
    exact sign_bytes (fun j => m (a + (8 * i + j : Nat))) hfit hr

/-- The integer 1 becomes 0. -/
theorem not_repacks_littleEndian : ¬ Repacks littleEndian64 := by
  intro h
  have hfirst := h.restore (byteAt 0 1) 0 0 0 1
    (fun i hi => by
      obtain rfl : i = 0 := by omega
      decide) 0 (by decide)
  exact absurd hfirst (by decide)

end Iraf.Osb
