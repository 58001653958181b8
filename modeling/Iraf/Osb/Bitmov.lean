import Mathlib.Algebra.Group.Nat.Defs
import Mathlib.Logic.Function.Basic
import Mathlib.Tactic.Common

/-!
# Moving bits

`bitmov.x` moves bits from one bit array to another, a word at a time, with the C functions
`BITPAK` and `BITUPK` of `bitfields.c`.
-/

namespace Iraf.Osb

variable {w : Nat}

/-- An array of words of `NBITS_INT` bits. -/
abbrev BitArray (w : Nat) := Nat → BitVec w

/-- The shifts of a host.  A count that is not less than the width is undefined in C. -/
structure Shifts (w : Nat) where
  left : BitVec w → Nat → BitVec w
  right : BitVec w → Nat → BitVec w
  left_eq : ∀ x k, k < w → left x k = x <<< k
  right_eq : ∀ x k, k < w → right x k = x >>> k

def bitmask (w nbits : Nat) : BitVec w := BitVec.ofNat w (2 ^ nbits - 1)

def bitpak (host : Shifts w) (ival : BitVec w) (wordp : BitArray w) (offset : Int)
    (nbits : Nat) : BitArray w :=
  let shift := (offset - 1).toNat
  let mask := host.left (bitmask w nbits) shift
  Function.update wordp 0 (wordp 0 &&& ~~~mask ||| host.left ival shift &&& mask)

def bitupk (host : Shifts w) (wordp : BitArray w) (offset : Int) (nbits : Nat) : BitVec w :=
  host.right (wordp 0) (offset - 1).toNat &&& bitmask w nbits

/-- The loop over the whole words, with `ip`, `op` and the output array. -/
def bitmovWords (host : Shifts w) (a : BitArray w) (ipTop : Int) :
    Nat → Int → Int → BitArray w → Option (Int × Int × BitArray w)
  | 0, _, _, _ => none
  | fuel + 1, ip, op, b =>
      if ip ≤ ipTop then
        bitmovWords host a ipTop fuel (ip + w) (op + w)
          (bitpak host (bitupk host a ip w) b op w)
      else some (ip, op, b)

/-- One more pass than there are whole words ends the loop. -/
def bitmov (host : Shifts w) (a : BitArray w) (aOff : Int) (b : BitArray w) (bOff : Int)
    (nbits : Nat) : Option (BitArray w) := do
  let ipTop := aOff + nbits - w
  let (ip, op, b) ← bitmovWords host a ipTop (nbits / w + 1) aOff bOff b
  let nbitsLeft := aOff + nbits - ip
  if nbitsLeft > 0 then
    pure (bitpak host (bitupk host a ip nbitsLeft.toNat) b op nbitsLeft.toNat)
  else pure b

/-- Bit `i` of an array, counted from 1, the low order bits of a word first. -/
def bit (x : BitArray w) (i : Nat) : Bool := (x ((i - 1) / w)).getLsbD ((i - 1) % w)

/-- The bits are moved and all others are left as they were. -/
structure Moved (a : BitArray w) (aOff : Nat) (b : BitArray w) (bOff nbits : Nat)
    (out : BitArray w) : Prop where
  moved : ∀ k < nbits, bit out (bOff + k) = bit a (aOff + k)
  kept : ∀ i, 1 ≤ i → i < bOff ∨ bOff + nbits ≤ i → bit out i = bit b i

variable {host : Shifts w} {a a' b b' out : BitArray w} {aOff bOff nbits : Nat}

/-! ## One field -/

theorem getLsbD_bitmask {nbits i : Nat} (hi : i < w) :
    (bitmask w nbits).getLsbD i = decide (i < nbits) := by
  rw [bitmask, BitVec.getLsbD_ofNat, Nat.testBit_two_pow_sub_one, decide_eq_true hi,
    Bool.true_and]

theorem getLsbD_bitupk {i : Nat} (hlo : 1 ≤ aOff) (hhi : aOff + nbits ≤ w + 1) (hi : i < w)
    (hpos : 0 < nbits) :
    (bitupk host a aOff nbits).getLsbD i =
      (decide (i < nbits) && (a 0).getLsbD (aOff - 1 + i)) := by
  have hshift : ((aOff : Int) - 1).toNat = aOff - 1 := by omega
  rw [bitupk, hshift, host.right_eq _ _ (by omega), BitVec.getLsbD_and, getLsbD_bitmask hi,
    BitVec.getLsbD_ushiftRight, Bool.and_comm]

theorem getLsbD_bitpak {ival : BitVec w} {i : Nat} (hlo : 1 ≤ bOff)
    (hhi : bOff + nbits ≤ w + 1) (hi : i < w) (hpos : 0 < nbits) :
    (bitpak host ival b bOff nbits 0).getLsbD i =
      if bOff - 1 ≤ i ∧ i < bOff - 1 + nbits then ival.getLsbD (i - (bOff - 1))
      else (b 0).getLsbD i := by
  have hshift : ((bOff : Int) - 1).toNat = bOff - 1 := by omega
  have hmask : (host.left (bitmask w nbits) (bOff - 1)).getLsbD i =
      decide (bOff - 1 ≤ i ∧ i < bOff - 1 + nbits) := by
    rw [host.left_eq _ _ (by omega), BitVec.getLsbD_shiftLeft, decide_eq_true hi,
      getLsbD_bitmask (by omega), Bool.true_and, ← decide_not, ← Bool.decide_and]
    exact decide_eq_decide.2 (by omega)
  rw [bitpak]
  simp only [hshift, Function.update_self, BitVec.getLsbD_or, BitVec.getLsbD_and,
    BitVec.getLsbD_not, decide_eq_true hi, Bool.true_and, hmask]
  rw [host.left_eq _ _ (by omega), BitVec.getLsbD_shiftLeft, decide_eq_true hi]
  by_cases hin : bOff - 1 ≤ i ∧ i < bOff - 1 + nbits
  · rw [if_pos hin, decide_eq_true hin, decide_eq_false (by omega)]
    simp
  · rw [if_neg hin, decide_eq_false hin]
    simp

theorem bitpak_of_ne {ival : BitVec w} {offset : Int} {n j : Nat} (hj : j ≠ 0) :
    bitpak host ival b offset n j = b j := Function.update_of_ne hj _ _

theorem moved_bitpak (ha : 1 ≤ aOff) (hb : 1 ≤ bOff) (hpos : 0 < nbits)
    (haw : aOff + nbits ≤ w + 1) (hbw : bOff + nbits ≤ w + 1) :
    Moved a aOff b bOff nbits (bitpak host (bitupk host a aOff nbits) b bOff nbits) where
  moved k hk := by
    have hbit : ∀ {x : BitArray w} {i : Nat}, 1 ≤ i → i ≤ w →
        bit x i = (x 0).getLsbD (i - 1) := fun {x i} hlo hhi => by
      rw [bit, Nat.div_eq_of_lt (by omega), Nat.mod_eq_of_lt (by omega)]
    rw [hbit (by omega) (by omega), hbit (by omega) (by omega),
      getLsbD_bitpak hb hbw (by omega) hpos, if_pos (by omega),
      getLsbD_bitupk ha haw (by omega) hpos, decide_eq_true (by omega), Bool.true_and]
    congr 1
    omega
  kept i hi hout := by
    rw [bit, bit]
    by_cases hword : (i - 1) / w = 0
    · have hw : 0 < w := by omega
      have hlt : i - 1 < w := (Nat.div_eq_zero_iff_lt hw).1 hword
      rw [hword, Nat.mod_eq_of_lt hlt, getLsbD_bitpak hb hbw hlt hpos, if_neg (by omega)]
    · rw [bitpak_of_ne hword]

/-! ## The loop -/

/-- Only the first word of the input is read, and only that of the output is written. -/
theorem bitmovWords_congr {ipTop ip op : Int} {fuel : Nat} (h : a 0 = a' 0) :
    bitmovWords host a ipTop fuel ip op b = bitmovWords host a' ipTop fuel ip op b := by
  induction fuel generalizing ip op b with
  | zero => rfl
  | succ fuel ih =>
      have hread : bitupk host a ip w = bitupk host a' ip w := by rw [bitupk, h, bitupk]
      rw [bitmovWords, bitmovWords, hread, ih]

theorem bitmov_congr {aOff bOff : Int} (h : a 0 = a' 0) :
    bitmov host a aOff b bOff nbits = bitmov host a' aOff b bOff nbits := by
  simp only [bitmov, bitmovWords_congr h, bitupk, h]

theorem bitmovWords_frame {ipTop ip op ip' op' : Int} {fuel j : Nat} (hj : j ≠ 0)
    (h : bitmovWords host a ipTop fuel ip op b = some (ip', op', out)) : out j = b j := by
  induction fuel generalizing ip op b with
  | zero => cases h
  | succ fuel ih =>
      rw [bitmovWords] at h
      split at h
      · rw [ih h, bitpak_of_ne hj]
      · cases h
        rfl

theorem bitmov_frame {aOff bOff : Int} {j : Nat} (hj : j ≠ 0)
    (h : bitmov host a aOff b bOff nbits = some out) : out j = b j := by
  simp only [bitmov, Option.bind_eq_bind, Option.bind_eq_some_iff] at h
  obtain ⟨⟨ip, op, b'⟩, hloop, hrest⟩ := h
  have hframe := bitmovWords_frame hj hloop
  simp only [Option.pure_def] at hrest
  split at hrest <;> cases hrest
  · rw [bitpak_of_ne hj, hframe]
  · exact hframe

theorem bitmov_first (ha : 1 ≤ aOff) (hpos : 0 < nbits) (haw : aOff + nbits ≤ w + 1) :
    bitmov host a aOff b bOff nbits =
      some (bitpak host (bitupk host a aOff nbits) b bOff nbits) := by
  rw [bitmov]
  rcases Nat.lt_or_ge nbits w with hlt | hge
  · have hleft : ((aOff : Int) + nbits - aOff).toNat = nbits := by omega
    rw [Nat.div_eq_of_lt hlt, bitmovWords, if_neg (by omega)]
    simp only [Option.bind_eq_bind, Option.bind_some, hleft]
    exact if_pos (by omega)
  · obtain rfl : nbits = w := by omega
    rw [Nat.div_self hpos, bitmovWords, if_pos (by omega), bitmovWords, if_neg (by omega)]
    simp only [Option.bind_eq_bind, Option.bind_some]
    exact if_neg (by omega)

theorem bitmov_zero (hw : 0 < w) : bitmov host a aOff b bOff 0 = some b := by
  have hleft : ¬ (aOff : Int) + (0 : Nat) - aOff > 0 := by omega
  rw [bitmov, Nat.zero_div, bitmovWords, if_neg (by omega)]
  simp only [Option.bind_eq_bind, Option.bind_some]
  exact if_neg hleft

/-- The bits of any two arrays are moved if and only if they lie in the first word of each
array. -/
theorem bitmov_iff (hw : 0 < w) (ha : 1 ≤ aOff) (hb : 1 ≤ bOff) :
    (∀ a b : BitArray w, ∃ out, bitmov host a aOff b bOff nbits = some out ∧
      Moved a aOff b bOff nbits out) ↔
    nbits = 0 ∨ aOff + nbits ≤ w + 1 ∧ bOff + nbits ≤ w + 1 := by
  constructor
  · intro h
    refine or_iff_not_imp_left.2 fun hpos => ⟨?_, ?_⟩
    · by_contra hlong
      -- a bit behind the first word of the input cannot be told
      obtain ⟨out, hcall, hmoved⟩ := h (fun _ => 0) fun _ => 0
      obtain ⟨out', hcall', hmoved'⟩ :=
        h (fun j => if j = 0 then 0 else BitVec.allOnes w) fun _ => 0
      rw [← bitmov_congr (a := fun _ => 0) rfl, hcall] at hcall'
      obtain rfl := Option.some.inj hcall'
      have hword : (aOff + (nbits - 1) - 1) / w ≠ 0 :=
        Nat.ne_of_gt (Nat.div_pos (by omega) hw)
      have hzero := hmoved.moved (nbits - 1) (by omega)
      rw [hmoved'.moved (nbits - 1) (by omega), bit, bit, if_neg hword,
        BitVec.getLsbD_allOnes, decide_eq_true (Nat.mod_lt _ hw)] at hzero
      simp at hzero
    · by_contra hlong
      -- a bit behind the first word of the output is not set
      obtain ⟨out, hcall, hmoved⟩ := h (fun _ => 0) fun _ => BitVec.allOnes w
      have hword : (bOff + (nbits - 1) - 1) / w ≠ 0 :=
        Nat.ne_of_gt (Nat.div_pos (by omega) hw)
      have hset := hmoved.moved (nbits - 1) (by omega)
      rw [bit, bit, bitmov_frame hword hcall, BitVec.getLsbD_allOnes,
        decide_eq_true (Nat.mod_lt _ hw)] at hset
      simp at hset
  · rintro hfits a b
    rcases Nat.eq_zero_or_pos nbits with rfl | hpos
    · exact ⟨b, bitmov_zero hw, ⟨fun k hk => absurd hk (Nat.not_lt_zero k), fun _ _ _ => rfl⟩⟩
    · obtain ⟨haw, hbw⟩ := hfits.resolve_left (Nat.ne_of_gt hpos)
      exact ⟨_, bitmov_first ha hpos haw, moved_bitpak ha hb hpos haw hbw⟩

/-- A host that takes the count of a shift modulo the width. -/
def Shifts.modulo (w : Nat) : Shifts w where
  left x k := x <<< (k % w)
  right x k := x >>> (k % w)
  left_eq x k hk := by rw [Nat.mod_eq_of_lt hk]
  right_eq x k hk := by rw [Nat.mod_eq_of_lt hk]

theorem bitmov_iff_oneWord :
    (∀ a b : BitArray 64, ∃ out, bitmov (Shifts.modulo 64) a (3 : Nat) b (58 : Nat) 7 = some out ∧
      Moved a 3 b 58 7 out) ↔
    7 = 0 ∨ 3 + 7 ≤ 64 + 1 ∧ 58 + 7 ≤ 64 + 1 :=
  bitmov_iff (by decide) (by decide) (by decide)

/-- The first bit of the second word. -/
theorem not_moved_secondWord :
    ¬ ∃ out, bitmov (Shifts.modulo 64) (fun j => if j = 1 then 1 else 0) (65 : Nat)
        (fun _ => 0) (1 : Nat) 1 = some out ∧
      Moved (fun j => if j = 1 then 1 else 0) 65 (fun _ => 0) 1 1 out := by
  rintro ⟨out, hcall, hmoved⟩
  have hbit := hmoved.moved 0 (by decide)
  have hout : out 0 = 0 := by
    have hvalue := congrArg (Option.map fun out => out 0) hcall
    exact (Option.some.inj hvalue).symm.trans (by decide)
  rw [bit, hout] at hbit
  exact absurd hbit (by decide)

end Iraf.Osb
