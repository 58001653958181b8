import Iraf.Osb.Mii32Inverse

/-!
# Machine independent integers

The bytes of the integers that are packed, the high order byte first: `miipak32` leaves
them in the memory of every host, and `miiupk32` reads them, so that an array packed by
one host can be unpacked by another.
-/

namespace Iraf.Osb

open Iraf.ByteMemory

/-! ## Bytes of integers -/

theorem toNat_emod_lt (v : Int) : (v % 256).toNat < 256 := by omega

/-- The low order `n` bytes of an integer. -/
def miiBytes : Nat → Int → List Byte
  | 0, _ => []
  | n + 1, v => miiBytes n (v / 256) ++ [⟨(v % 256).toNat, toNat_emod_lt v⟩]

def miiPack (n : Nat) (vs : List Int) : List Byte := vs.flatMap (miiBytes n)

/-- `k` integers of `n` bytes. -/
def miiUnpack (n : Nat) : Nat → List Byte → List Int
  | 0, _ => []
  | k + 1, bs => signed (bs.take n) :: miiUnpack n k (bs.drop n)

@[simp] theorem length_miiBytes (n : Nat) (v : Int) : (miiBytes n v).length = n := by
  induction n generalizing v with
  | zero => rfl
  | succ n ih => simp [miiBytes, ih]

@[simp] theorem length_miiPack (n : Nat) (vs : List Int) :
    (miiPack n vs).length = n * vs.length := by
  simp [miiPack, Nat.mul_comm]

@[simp] theorem length_miiUnpack (n k : Nat) (bs : List Byte) :
    (miiUnpack n k bs).length = k := by
  induction k generalizing bs with
  | zero => rfl
  | succ k ih => simp [miiUnpack, ih]

theorem unsigned_append (bs : List Byte) (b : Byte) :
    unsigned (bs ++ [b]) = 256 * unsigned bs + b.val := by
  simp [unsigned]

theorem unsigned_cons (b : Byte) (bs : List Byte) :
    unsigned (b :: bs) = b.val * 256 ^ bs.length + unsigned bs := by
  induction bs using List.reverseRecOn with
  | nil => simp [unsigned]
  | append_singleton bs c ih =>
      rw [← List.cons_append, unsigned_append, ih, unsigned_append, List.length_append,
        List.length_singleton, pow_succ]
      ring

theorem unsigned_nonneg (bs : List Byte) : 0 ≤ unsigned bs := by
  induction bs using List.reverseRecOn with
  | nil => exact le_refl _
  | append_singleton bs c ih =>
      rw [unsigned_append]
      omega

theorem unsigned_lt (bs : List Byte) : unsigned bs < 256 ^ bs.length := by
  induction bs using List.reverseRecOn with
  | nil => decide
  | append_singleton bs c ih =>
      have hc := c.isLt
      rw [unsigned_append, List.length_append, List.length_singleton, pow_succ]
      omega

theorem signed_eq_bmod {bs : List Byte} (h : bs ≠ []) :
    signed bs = Int.bmod (unsigned bs) (256 ^ bs.length : Nat) := by
  obtain ⟨b, bs, rfl⟩ := List.exists_cons_of_ne_nil h
  have hnonneg := unsigned_nonneg bs
  have hlt := unsigned_lt bs
  have hlt' := unsigned_lt (b :: bs)
  have hnonneg' := unsigned_nonneg (b :: bs)
  have hb := b.isLt
  have hcast : (((256 ^ (b :: bs).length : Nat)) : Int) = 256 ^ (b :: bs).length := by push_cast; rfl
  rw [Int.bmod_def, hcast, Int.emod_eq_of_lt hnonneg' hlt', signed]
  have hlength : (256 : Int) ^ (b :: bs).length = 256 * 256 ^ bs.length := by
    rw [List.length_cons, pow_succ, mul_comm]
  rw [hlength]
  have hvalue := unsigned_cons b bs
  by_cases hneg : 128 ≤ b.val
  · have hge : 128 * 256 ^ bs.length ≤ (b.val : Int) * 256 ^ bs.length :=
      mul_le_mul_of_nonneg_right (by exact_mod_cast hneg) (by positivity)
    rw [if_pos (by simpa [negative] using hneg), if_neg (by omega)]
  · have hle : (b.val : Int) * 256 ^ bs.length ≤ 127 * 256 ^ bs.length :=
      mul_le_mul_of_nonneg_right (by omega) (by positivity)
    rw [if_neg (by simpa [negative] using hneg), if_pos (by omega)]

theorem unsigned_miiBytes (n : Nat) (v : Int) : unsigned (miiBytes n v) = v % 256 ^ n := by
  induction n generalizing v with
  | zero => simp [miiBytes, unsigned]
  | succ n ih =>
      have hpos : (0 : Int) < 256 ^ n := by positivity
      have hbyte : ((v % 256).toNat : Int) = v % 256 := Int.toNat_of_nonneg (by omega)
      rw [miiBytes, unsigned_append, ih, hbyte, pow_succ, mul_comm (256 ^ n) (256 : Int)]
      rw [Int.emod_def v (256 * 256 ^ n), ← Int.ediv_ediv_of_nonneg (by decide : (0 : Int) ≤ 256),
        Int.emod_def (v / 256)]
      have hv := Int.emod_add_mul_ediv v 256
      rw [mul_assoc]
      linarith

theorem signed_miiBytes {n : Nat} (hn : 0 < n) (v : Int) :
    signed (miiBytes n v) = Int.bmod v (256 ^ n : Nat) := by
  have hne : miiBytes n v ≠ [] := List.length_pos_iff.mp (by simpa using hn)
  have hcast : (((256 ^ n : Nat)) : Int) = 256 ^ n := by push_cast; rfl
  rw [signed_eq_bmod hne, length_miiBytes, unsigned_miiBytes, ← hcast, Int.emod_bmod]

theorem miiUnpack_append {n : Nat} (hn : 0 < n) (vs : List Int) (rest : List Byte) :
    miiUnpack n vs.length (miiPack n vs ++ rest) =
      vs.map fun v => Int.bmod v (256 ^ n : Nat) := by
  induction vs with
  | nil => rfl
  | cons v vs ih =>
      have hsplit : miiPack n (v :: vs) ++ rest = miiBytes n v ++ (miiPack n vs ++ rest) := by
        simp [miiPack]
      rw [hsplit, List.length_cons, miiUnpack,
        List.take_left' (length_miiBytes n v), List.drop_left' (length_miiBytes n v), ih,
        signed_miiBytes hn, List.map_cons]

variable {host host' : Host} {ty ty' : SppType} {m m' : Memory}
  {spp mii out tmpp : Int} {n : Nat}

end Iraf.Osb
