import Mathlib
import Iraf.Lib.ByteMemory

/-!
# Byte swapping and the width of integers

The C functions `BSWAP2`, `BSWAP4`, `BSWAP8`, `I32TO64` and `I64TO32`, which
work on the bytes of arrays of integers.
-/

namespace Iraf.Osb

open Iraf.ByteMemory

/-- An `XINT` stored in a `register int`. -/
def cInt (x : Int) : Int := (x + 2 ^ 31) % 2 ^ 32 - 2 ^ 31

/-- The first bytes of the arrays are numbers `aoff` and `boff`. -/
def bswap2 (m : Memory) (a aoff b boff nbytes : Int) : Memory :=
  let ip := a + aoff - 1
  let op := b + boff - 1
  let n := (nbytes / 2).toNat
  moveUp (nbytes % 2).toNat (swapGroups 2 n m ip op) (ip + 2 * n) (op + 2 * n)

def bswap4 (m : Memory) (a aoff b boff nbytes : Int) : Memory :=
  let ip := a + aoff - 1
  let op := b + boff - 1
  let n := (cInt (nbytes / 4)).toNat
  moveUp (nbytes % 4).toNat (swapGroups 4 n m ip op) (ip + 4 * n) (op + 4 * n)

/-- The odd bytes are counted as in `bswap4`. -/
def bswap8 (m : Memory) (a aoff b boff nbytes : Int) : Memory :=
  let ip := a + aoff - 1
  let op := b + boff - 1
  let n := (cInt (nbytes / 8)).toNat
  moveUp (nbytes % 4).toNat (swapGroups 8 n m ip op) (ip + 8 * n) (op + 8 * n)

/-! ## From 32 to 64 bits -/

/-- The loop over the elements, from the last one down: four bytes are moved and
the four before them are filled with the sign. -/
def widen : Nat → Memory → Int → Memory
  | 0, m, _ => m
  | n + 1, m, op =>
      let m := moveDown 4 m (op + 4 * n) (op + 8 * n + 4)
      let pad : Byte := if (m (op + 4 * n)).val ≥ 128 then 255 else 0
      widen n (splice m (op + 8 * n) 4 fun _ => pad) op

def i32to64 (m : Memory) (a b : Int) (nelems : Nat) : Memory :=
  let k := 4 * nelems
  let m :=
    if a < b then moveDown k m a b
    else if b < a then moveUp k m a b
    else m
  widen nelems m b

/-! ## From 64 to 32 bits -/

def narrowUp : Nat → Memory → Int → Int → Memory
  | 0, m, _, _ => m
  | n + 1, m, ip, op => narrowUp n (moveUp 4 m (ip + 4) op) (ip + 8) (op + 4)

def narrowDown : Nat → Memory → Int → Int → Memory
  | 0, m, _, _ => m
  | n + 1, m, ip, op =>
      narrowDown n (moveDown 4 m (ip + 8 * n + 4) (op + 4 * n)) ip op

/-- Both ends at once; `ip`, `op` are the first bytes of the arrays to be moved
and `ipe`, `ope` the last ones. -/
def narrowBoth : Nat → Memory → Int → Int → Int → Int → Memory
  | 0, m, _, _, _, _ => m
  | n + 1, m, ip, op, ipe, ope =>
      let m := if op < ip + 4 then moveUp 4 m (ip + 4) op else m
      let m := if ipe < ope then moveDown 4 m (ipe - 3) (ope - 3) else m
      narrowBoth n m (ip + 8) (op + 4) (ipe - 8) (ope - 4)

def i64to32 (m : Memory) (a b : Int) (nelems : Nat) : Memory :=
  if b ≤ a then narrowUp nelems m a b
  else
    let ipe := a + nelems * 8 - 1
    let ope := b + nelems * 4 - 1
    if ipe ≤ ope then narrowDown nelems m a b
    else narrowBoth nelems m a b ipe ope

/-! ## What is moved where -/

theorem cInt_le {x : Int} (hx : 0 ≤ x) : cInt x ≤ x := by
  unfold cInt
  omega

theorem cInt_eq_iff {x : Int} (hx : 0 ≤ x) : cInt x = x ↔ x < 2 ^ 31 := by
  unfold cInt
  omega

variable {m : Memory} {a b : Int} {n : Nat}

theorem bswap2_eq {k : Nat} (h : a = b ∨ Apart a (2 * k) b (2 * k)) :
    bswap2 m a 1 b 1 (2 * k : Nat) =
      splice m b (2 * k) fun j => m (a + reflect 2 j) := by
  have hn : (((2 * k : Nat) : Int) / 2).toNat = k := by omega
  have hodd : (((2 * k : Nat) : Int) % 2).toNat = 0 := by omega
  unfold bswap2
  simp only [hn, hodd, moveUp, Int.add_sub_cancel]
  exact swapGroups_eq (by omega) h

theorem bswap4_eq {k c : Nat} (hc : (c : Int) = max 0 (cInt k))
    (h : a = b ∨ Apart a (4 * c) b (4 * c)) :
    bswap4 m a 1 b 1 (4 * k : Nat) =
      splice m b (4 * c) fun j => m (a + reflect 4 j) := by
  have hn : (cInt (((4 * k : Nat) : Int) / 4)).toNat = c := by
    have hk : ((4 * k : Nat) : Int) / 4 = k := by omega
    rw [hk]
    omega
  have hodd : (((4 * k : Nat) : Int) % 4).toNat = 0 := by omega
  unfold bswap4
  simp only [hn, hodd, moveUp, Int.add_sub_cancel]
  exact swapGroups_eq (by omega) h

theorem bswap8_eq {k c : Nat} (hc : (c : Int) = max 0 (cInt k))
    (h : a = b ∨ Apart a (8 * c) b (8 * c)) :
    bswap8 m a 1 b 1 (8 * k : Nat) =
      splice m b (8 * c) fun j => m (a + reflect 8 j) := by
  have hn : (cInt (((8 * k : Nat) : Int) / 8)).toNat = c := by
    have hk : ((8 * k : Nat) : Int) / 8 = k := by omega
    rw [hk]
    omega
  have hodd : (((8 * k : Nat) : Int) % 4).toNat = 0 := by omega
  unfold bswap8
  simp only [hn, hodd, moveUp, Int.add_sub_cancel]
  exact swapGroups_eq (by omega) h

/-- Byte `j` of the widened elements. -/
def widened (f : Nat → Byte) (j : Nat) : Byte :=
  if j % 8 < 4 then if (f (4 * (j / 8))).val ≥ 128 then 255 else 0
  else f (4 * (j / 8) + j % 8 - 4)

theorem widen_eq (f : Nat → Byte) (hf : ∀ j < 4 * n, m (b + j) = f j) :
    widen n m b = splice m b (8 * n) (widened f) := by
  induction n generalizing m with
  | zero => simp [widen]
  | succ n ih =>
      have hmove : moveDown 4 m (b + 4 * n) (b + 8 * n + 4) =
          splice m (b + 8 * n + 4) 4 fun j => f (4 * n + j) := by
        rw [moveDown_eq (.inl (by omega))]
        refine splice_congr fun j hj => ?_
        rw [← hf (4 * n + j) (by omega)]
        congr 1
        omega
      have hsign : splice m (b + 8 * n + 4) 4 (fun j => f (4 * n + j))
          (b + 4 * n) = f (4 * n) := by
        rw [splice_of_not_mem (by omega), ← hf (4 * n) (by omega)]
        rfl
      rw [widen]
      simp only [hmove, hsign]
      rw [ih fun j hj => by
        rw [splice_of_not_mem (by omega), splice_of_not_mem (by omega)]
        exact hf j (by omega)]
      funext x
      by_cases hx : b ≤ x ∧ x < b + 8 * (n + 1 : Nat)
      · have hright : splice m b (8 * (n + 1)) (widened f) x =
            widened f (x - b).toNat := splice_of_mem hx.1 (by omega)
        rw [hright]
        rcases Int.lt_or_le x (b + 8 * n) with hlow | hhigh
        · exact splice_of_mem hx.1 (by omega)
        · obtain ⟨j, rfl⟩ : ∃ j : Nat, x = b + 8 * n + j :=
            ⟨(x - (b + 8 * n)).toNat, by omega⟩
          have hindex : (b + 8 * (n : Int) + j - b).toNat = 8 * n + j := by
            omega
          have hmod : (8 * n + j) % 8 = j := by omega
          have hdiv : (8 * n + j) / 8 = n := by omega
          rw [splice_of_not_mem (by omega), hindex, widened, hmod, hdiv]
          by_cases hj : j < 4
          · rw [splice_of_mem (by omega) (by omega), if_pos hj]
          · rw [splice_of_not_mem (by omega),
              splice_of_mem (by omega) (by omega), if_neg hj]
            congr 1
            omega
      · rw [splice_of_not_mem (by omega), splice_of_not_mem (by omega),
          splice_of_not_mem (by omega), splice_of_not_mem (by omega)]

theorem i32to64_eq : i32to64 m a b n = splice m b (8 * n) (widened fun j => m (a + j)) := by
  have hcopy : ∀ {m' : Memory},
      m' = splice m b (4 * n) (fun j => m (a + j)) →
      widen n m' b = splice m b (8 * n) (widened fun j => m (a + j)) := by
    rintro m' rfl
    rw [widen_eq (fun j => m (a + j)) fun j hj => splice_add hj,
      splice_splice_of_le (by omega)]
  unfold i32to64
  by_cases hlt : a < b
  · simp only [if_pos hlt]
    exact hcopy (moveDown_eq (.inl (by omega)))
  · by_cases hgt : b < a
    · simp only [if_neg hlt, if_pos hgt]
      exact hcopy (moveUp_eq (.inl (by omega)))
    · obtain rfl : a = b := by omega
      simp only [if_neg hlt]
      exact hcopy (splice_self fun j _ => rfl).symm

/-- Byte `j` of the narrowed elements. -/
def narrowed (f : Nat → Byte) (j : Nat) : Byte := f (8 * (j / 4) + 4 + j % 4)

theorem narrowed_of_lt (f : Nat → Byte) {i j : Nat} (hj : j < 4) :
    narrowed f (4 * i + j) = f (8 * i + 4 + j) := by
  have hdiv : (4 * i + j) / 4 = i := by omega
  have hmod : (4 * i + j) % 4 = j := by omega
  rw [narrowed, hdiv, hmod]

theorem narrowUp_eq (h : b ≤ a) :
    narrowUp n m a b = splice m b (4 * n) (narrowed fun j => m (a + j)) := by
  induction n generalizing m a b with
  | zero => simp [narrowUp]
  | succ n ih =>
      rw [narrowUp, moveUp_eq (by omega), ih (by omega), Nat.mul_succ,
        Nat.add_comm (4 * n) 4]
      refine splice_cons (fun j hj => ?_) fun j hj => ?_
      · have := narrowed_of_lt (fun j => m (a + j)) (i := 0) hj
        simp only [Nat.mul_zero, Nat.zero_add] at this
        rw [this]
        congr 1
        omega
      · obtain ⟨i, r, hr, rfl⟩ : ∃ i r, r < 4 ∧ j = 4 * i + r :=
          ⟨j / 4, j % 4, by omega, by omega⟩
        have hnext : 4 + (4 * i + r) = 4 * (i + 1) + r := by omega
        rw [narrowed_of_lt _ hr, hnext, narrowed_of_lt _ hr,
          splice_of_not_mem (by omega)]
        congr 1
        omega

/-- Up to the end of the source or beyond, the elements from the last one down. -/
theorem narrowDown_eq (h : a + 4 * n ≤ b) :
    narrowDown n m a b = splice m b (4 * n) (narrowed fun j => m (a + j)) := by
  induction n generalizing m with
  | zero => simp [narrowDown]
  | succ n ih =>
      have hlast : b + 4 * (n : Int) = b + (4 * n : Nat) := by push_cast; rfl
      rw [narrowDown, moveDown_eq (by omega), ih (by omega), hlast, Nat.mul_succ]
      refine splice_snoc (fun j hj => ?_) fun j hj => ?_
      · obtain ⟨i, r, hr, rfl⟩ : ∃ i r, r < 4 ∧ j = 4 * i + r :=
          ⟨j / 4, j % 4, by omega, by omega⟩
        rw [narrowed_of_lt _ hr, narrowed_of_lt _ hr,
          splice_of_not_mem (by omega)]
      · rw [narrowed_of_lt _ hj]
        congr 1
        omega

/-- Between the ends the elements that go down are moved from the first one up and those
that go up from the last one down.  These are the ones in place after `i` passes; the one
that stays where it is always is. -/
def Placed (a b : Int) (n i e : Nat) : Prop :=
  b < a + 4 * e + 4 ∧ e < i ∨ a + 4 * e + 4 < b ∧ n ≤ e + i ∨ a + 4 * e + 4 = b

section Both

variable {m₀ : Memory} {i k : Nat}

/-- The elements on their way from `a` to `b`. -/
abbrev Narrowing (a b : Int) (n : Nat) : Memory → Memory → (Nat → Prop) → Prop :=
  Relocated 4 (fun e => a + 8 * e + 4) (fun e => b + 4 * e) n

theorem Narrowing.up (h : Narrowing a b n m₀ m (Placed a b n i)) (hi : i < n) :
    Narrowing a b n m₀
      (if b + 4 * (i : Int) < a + 8 * i + 4 then moveUp 4 m (a + 8 * i + 4) (b + 4 * i) else m)
      fun e => Placed a b n i e ∨ e = i ∧ b < a + 4 * e + 4 := by
  split
  · rw [moveUp_eq (.inl (by omega))]
    refine (Relocated.move h hi ?_ (by omega) ?_).congr ?_ <;> unfold Placed <;> omega
  · refine Relocated.congr h fun e _ => ?_
    unfold Placed
    omega

theorem Narrowing.down (hk : i + (k + 1) = n)
    (h : Narrowing a b n m₀ m fun e => Placed a b n i e ∨ e = i ∧ b < a + 4 * e + 4) :
    Narrowing a b n m₀
      (if a + 8 * ((k + 1 : Nat) : Int) - 1 < b + 4 * ((k + 1 : Nat) : Int) - 1 then
        moveDown 4 m (a + 8 * k + 4) (b + 4 * k) else m)
      (Placed a b n (i + 1)) := by
  split
  · rw [moveDown_eq (.inl (by omega))]
    refine (Relocated.move h (e := k) (by omega) ?_ (by omega) ?_).congr ?_ <;>
      unfold Placed <;> omega
  · refine Relocated.congr h fun e _ => ?_
    unfold Placed
    omega

theorem narrowBoth_from (hk : i + k = n) (h : Narrowing a b n m₀ m (Placed a b n i)) :
    Narrowing a b n m₀
      (narrowBoth k m (a + 8 * i) (b + 4 * i) (a + 8 * k - 1) (b + 4 * k - 1))
      (Placed a b n n) := by
  induction k generalizing m i with
  | zero =>
      obtain rfl : i = n := by omega
      exact h
  | succ k ih =>
      have hnext := ih (i := i + 1) (by omega) ((h.up (by omega)).down hk)
      rw [narrowBoth]
      convert hnext using 2 <;> push_cast <;> ring_nf

end Both

theorem narrowBoth_eq :
    narrowBoth n m a b (a + n * 8 - 1) (b + n * 4 - 1) =
      splice m b (4 * n) (narrowed fun j => m (a + j)) := by
  have hstart : Narrowing a b n m m (Placed a b n 0) :=
    ⟨fun e he hplaced j hj => by
      obtain hlt | hlt | heq := hplaced
      · omega
      · omega
      · congr 1
        omega, fun _ _ _ _ _ => rfl, fun _ _ => rfl⟩
  have hend := narrowBoth_from (k := n) (Nat.zero_add n) hstart
  simp only [Nat.cast_zero, Int.mul_zero, Int.add_zero] at hend
  rw [Int.mul_comm n 8, Int.mul_comm n 4]
  funext x
  by_cases hx : b ≤ x ∧ x < b + 4 * n
  · obtain ⟨e, r, hr, rfl⟩ : ∃ e r : Nat, r < 4 ∧ x = b + (4 * e + r : Nat) :=
      ⟨((x - b) / 4).toNat, ((x - b) % 4).toNat, by omega, by omega⟩
    have hmoved := hend.moved e (by omega) (by unfold Placed; omega) r hr
    rw [splice_add (by omega), narrowed_of_lt _ hr]
    convert hmoved using 2 <;> omega
  · rw [splice_of_not_mem (by omega)]
    exact hend.frame x fun e he => by omega

theorem i64to32_eq : i64to32 m a b n = splice m b (4 * n) (narrowed fun j => m (a + j)) := by
  unfold i64to32
  by_cases hle : b ≤ a
  · rw [if_pos hle]
    exact narrowUp_eq hle
  · simp only [if_neg hle]
    split
    · exact narrowDown_eq (by omega)
    · exact narrowBoth_eq

end Iraf.Osb
