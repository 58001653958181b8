import Iraf.Plio.LineRopCodec
import Iraf.Plio.PixRop
import Iraf.Plio.RangeRop

/-!
# The three rasterops

The loops over line lists and over range lists apply the same rule to a pixel.
The procedure for pixel arrays applies its own; it agrees with the loops where
`RopAgrees` holds.
-/

namespace Iraf.Plio

open IntBits

/-! ## The rule of the loops, by opcode -/

theorem opcode_cases (rop : Int) :
    rOpcode rop = 0 ∨ rOpcode rop = 1 ∨ rOpcode rop = 2 ∨ rOpcode rop = 3 ∨
    rOpcode rop = 4 ∨ rOpcode rop = 5 ∨ rOpcode rop = 6 ∨ rOpcode rop = 7 ∨
    rOpcode rop = 8 ∨ rOpcode rop = 9 ∨ rOpcode rop = 10 ∨
    rOpcode rop = 11 ∨ rOpcode rop = 12 ∨ rOpcode rop = 13 ∨
    rOpcode rop = 14 ∨ rOpcode rop = 15 := by
  have := rOpcode_range rop
  omega

section Pixel

variable {rop srcMaxval dstMaxval vSrc vDst : Int} {m n : Nat}
  (hsrcMaxval : srcMaxval = 2 ^ m - 1) (hdstMaxval : dstMaxval = 2 ^ n - 1)
  (hone : 1 ≤ dstMaxval) (hsrc : 0 ≤ vSrc ∧ vSrc ≤ srcMaxval)
  (hdst : 0 ≤ vDst ∧ vDst ≤ dstMaxval)

end Pixel

/-! ## Whole lines -/

theorem mask_range {maxval : Int} {d : Nat} (hd : 1 ≤ d ∧ d ≤ 27)
    (h : maxval = 2 ^ d - 1) : 1 ≤ maxval ∧ maxval ≤ iPvmax := by
  have hlo : (2 : Int) ^ 1 ≤ 2 ^ d := by
    exact_mod_cast Nat.pow_le_pow_right (by decide) hd.1
  have hhi : (2 : Int) ^ d ≤ 2 ^ 27 := by
    exact_mod_cast Nat.pow_le_pow_right (by decide) hd.2
  simp only [iPvmax]
  omega

end Iraf.Plio
