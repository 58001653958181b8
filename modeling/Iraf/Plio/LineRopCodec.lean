import Iraf.Plio.Codec
import Iraf.Plio.LineRop

/-!
# Rasterops between packed lines

The rasterop of two lines packed by `pl_p2l` decodes to the pointwise rasterop
of the lines unless the result has a run of zeros that the encoder cuts into
pieces of 4095 and follows by a single pixel.
-/

namespace Iraf.Plio

open RunLength

theorem plP2l_encodes {px : Int → Int} {xs npix : Int} (hnpix : 1 ≤ npix)
    (hpx : ∀ i, xs ≤ i → i ≤ xs + npix - 1 → px i ≤ iPvmax)
    (hlen : (plP2l px xs npix).length < 2 ^ 30) (rest : List Int) :
    Encodes (plP2l px xs npix ++ rest) (pixels px xs npix.toNat) := by
  have hline : ∀ v ∈ pixels px xs npix.toNat, Pixel v :=
    pixels_pixel fun i h1 h2 => hpx i h1 (by omega)
  have heq : plP2l px xs npix = packLine (4094 : Nat) (pixels px xs npix.toNat) :=
    plP2l_eq px xs (by omega)
  rw [heq] at hlen ⊢
  have hencodes := packLine_encodes (show 0 < 4094 by decide) (by decide)
    hline hlen rest
  rwa [encodedLine_of_lt (by decide) (by decide)] at hencodes

theorem roppedLine_pixel {L : Type} {a : RopArgs L} {src dst : List Int}
    (hmax : 1 ≤ a.dstMaxval) (hfits : a.dstMaxval ≤ iPvmax)
    (hdst : ∀ v ∈ dst, 0 ≤ v ∧ v ≤ a.dstMaxval) :
    ∀ v ∈ roppedLine a src dst, Pixel v := fun v hv =>
  have h := roppedLine_range hmax hdst v hv
  ⟨h.1, Int.le_trans h.2 hfits⟩

/-- The output list decodes to the pointwise rasterop of the lines, and is made
of well formed instructions for a line as long as the destination. -/
def LineropCorrect (a : RopArgs (List Int)) (src dst : List Int) : Prop :=
  let ll := plLinerop a
  plL2p ll 1 dst.length = roppedLine a src dst ∧ llLen ll = ll.length ∧
    ∃ is, instructions (bodyWords ll) = some is ∧ (∀ i ∈ is, i.Ok) ∧
      (expand 1 is).length = dst.length

section Correct

variable {a : RopArgs (List Int)} {src dst : List Int} (hxs : 1 ≤ a.xs) (hds : 1 ≤ a.ds)
  (hsrc : RNeedSrc a.rop → Encodes a.src src ∧ src.length ≤ arb)
  (hdst : Encodes a.dst dst) (hlen : dst.length < arb)
  (hres : ∀ v ∈ roppedLine a src dst, Pixel v)

include hxs hds hsrc hdst hlen hres

theorem plLinerop_instructions : ∃ is,
    instructions (bodyWords (plLinerop a)) = some is ∧ (∀ i ∈ is, i.Ok) ∧
      expand 1 is = encodedLine 4095 (roppedLine a src dst) := by
  obtain ⟨nref, blen, heq⟩ := plLinerop_eq hxs hds hsrc hdst hlen hres
  obtain ⟨is, hll, -, hok, hexpand⟩ :=
    encodeScan_spells (show 0 < 4095 by decide) (by decide) hres
  have hwords : (encodeScan iDatamax
      (lineRuns (roppedLine a src dst))).ll = packed is := hll
  refine ⟨is, ?_, hok, hexpand⟩
  rw [heq, hwords]
  exact instructions_packed hok

theorem LineropCorrect.noFullPn (h : LineropCorrect a src dst) :
    NoFullPn (roppedLine a src dst) := by
  obtain ⟨is, hbody, -, hexpand⟩ :=
    plLinerop_instructions hxs hds hsrc hdst hlen hres
  obtain ⟨-, -, js, hjs, -, hlength⟩ := h
  obtain rfl : is = js := Option.some.inj (hbody.symm.trans hjs)
  rw [← length_encodedLine_iff hres, ← hexpand, hlength, length_roppedLine]

theorem lineropCorrect_of_noFullPn (hne : dst ≠ [])
    (hout : (plLinerop a).length < 2 ^ 30)
    (hfull : NoFullPn (roppedLine a src dst)) : LineropCorrect a src dst := by
  obtain ⟨nref, blen, heq⟩ := plLinerop_eq hxs hds hsrc hdst hlen hres
  obtain ⟨is, hbody, hok, hexpand⟩ :=
    plLinerop_instructions hxs hds hsrc hdst hlen hres
  have hline := encodedLine_eq hres hfull
  have hencodes := plLinerop_encodes hxs hds hsrc hdst hlen hres hout []
  rw [List.append_nil, hline] at hencodes
  have hread := plL2p_eq_line hencodes (by
    rw [← List.length_pos_iff, length_roppedLine, List.length_pos_iff]
    exact hne)
  rw [length_roppedLine] at hread
  refine ⟨hread, ?_, is, hbody, hok, by
    rw [hexpand, hline, length_roppedLine]⟩
  rw [heq] at hout ⊢
  rw [List.length_append, length_header] at hout ⊢
  exact llLen_header nref _ blen _ (by omega) (by exact_mod_cast hout)

end Correct

/-- Within the limits of the format and of the loops, the rasterop of two packed
lines is right just when no run of the result fills the pieces it is cut into
and ends in a single pixel. -/
theorem plLinerop_correct_iff {pxSrc pxDst : Int → Int} {a : RopArgs (List Int)}
    {srclen axlen : Int}
    (hlsrc : a.src = plP2l pxSrc 1 srclen)
    (hldst : a.dst = plP2l pxDst 1 axlen)
    (hpxSrc : ∀ i, 1 ≤ i → i ≤ srclen → 0 ≤ pxSrc i ∧ pxSrc i ≤ a.srcMaxval)
    (hpxDst : ∀ i, 1 ≤ i → i ≤ axlen → 0 ≤ pxDst i ∧ pxDst i ≤ a.dstMaxval)
    (hsrcMaxval : 1 ≤ a.srcMaxval ∧ a.srcMaxval ≤ iPvmax)
    (hdstMaxval : 1 ≤ a.dstMaxval ∧ a.dstMaxval ≤ iPvmax)
    (hsrclen : 1 ≤ srclen ∧ srclen ≤ arb) (haxlen : 1 ≤ axlen ∧ axlen < arb)
    (hxs : 1 ≤ a.xs ∧ a.xs + a.npix - 1 ≤ srclen)
    (hds : 1 ≤ a.ds ∧ a.ds + a.npix - 1 ≤ axlen)
    (hsizes : a.src.length < 2 ^ 30 ∧ a.dst.length < 2 ^ 30 ∧
      (plLinerop a).length < 2 ^ 30) :
    LineropCorrect a (pixels pxSrc 1 srclen.toNat)
        (pixels pxDst 1 axlen.toNat) ↔
      NoFullPn (roppedLine a (pixels pxSrc 1 srclen.toNat)
        (pixels pxDst 1 axlen.toNat)) := by
  have hsrc : Encodes a.src (pixels pxSrc 1 srclen.toNat) := by
    have hlen := hsizes.1
    rw [hlsrc] at hlen ⊢
    simpa using plP2l_encodes hsrclen.1
      (fun i h1 h2 => by have := hpxSrc i h1 (by omega); omega) hlen []
  have hdst : Encodes a.dst (pixels pxDst 1 axlen.toNat) := by
    have hlen := hsizes.2.1
    rw [hldst] at hlen ⊢
    simpa using plP2l_encodes haxlen.1
      (fun i h1 h2 => by have := hpxDst i h1 (by omega); omega) hlen []
  have hpixels : ∀ v ∈ pixels pxDst 1 axlen.toNat,
      0 ≤ v ∧ v ≤ a.dstMaxval := by
    intro v hv
    obtain ⟨i, hi, rfl⟩ := List.mem_map.mp hv
    have hlt := List.mem_range.mp hi
    have := hpxDst (1 + i) (by omega) (by omega)
    omega
  have hshort : (pixels pxSrc 1 srclen.toNat).length ≤ arb := by
    rw [length_pixels]
    omega
  have hlen : (pixels pxDst 1 axlen.toNat).length < arb := by
    rw [length_pixels]
    omega
  have hne : pixels pxDst 1 axlen.toNat ≠ [] := by
    rw [← List.length_pos_iff, length_pixels]
    omega
  have hres : ∀ v ∈ roppedLine a (pixels pxSrc 1 srclen.toNat)
      (pixels pxDst 1 axlen.toNat), Pixel v :=
    roppedLine_pixel hdstMaxval.1 hdstMaxval.2 hpixels
  constructor
  · exact LineropCorrect.noFullPn hxs.1 hds.1 (fun _ => ⟨hsrc, hshort⟩) hdst
      hlen hres
  · exact lineropCorrect_of_noFullPn hxs.1 hds.1 (fun _ => ⟨hsrc, hshort⟩) hdst
      hlen hres hne hsizes.2.2

/-- A copy of two pixels of one line into another. -/
def copyArgs : RopArgs (List Int) :=
  { src := plP2l (fun i => i) 1 3, xs := 2, srcMaxval := 7,
    dst := plP2l (fun _ => 1) 1 4, ds := 2, dstMaxval := 7, npix := 2,
    rop := pixSrc }

theorem plLinerop_correct_copy :
    LineropCorrect copyArgs (pixels (fun i => i) 1 3)
      (pixels (fun _ => 1) 1 4) :=
  (@plLinerop_correct_iff (fun i => i) (fun _ => 1) copyArgs 3 4 rfl rfl
    (fun i _ _ => by simp only [copyArgs]; omega)
    (fun i _ _ => by simp only [copyArgs]; omega) (by decide) (by decide)
    (by decide) (by decide) (by decide) (by decide) (by decide)).mpr (by decide)

/-- Set the last pixel of a zero line of 4096 pixels. -/
def fullPnArgs : RopArgs (List Int) :=
  { src := plP2l (fun _ => 0) 1 1, xs := 1, srcMaxval := 1,
    dst := plP2l (fun _ => 0) 1 4096, ds := 4096, dstMaxval := 1, npix := 1,
    rop := 64 + pixSet }

theorem roppedLine_last {a : RopArgs (List Int)} {n : Nat} (hds : a.ds = n + 1)
    (hnpix : a.npix = 1) (hsrc : ¬ RNeedSrc a.rop) (src : List Int) :
    roppedLine a src (List.replicate (n + 1) 0) =
      List.replicate n 0 ++ [ropPixel a.rop a.srcMaxval a.dstMaxval 0 0] := by
  apply List.ext_getElem
  · simp
  · intro k hk hk'
    rw [length_roppedLine, List.length_replicate] at hk
    simp only [roppedLine, List.getElem_mapIdx, List.getElem_replicate]
    by_cases hlast : k = n
    · subst hlast
      rw [if_pos (by omega), List.getElem_append_right (by simp)]
      simpa using ropPixel_noSrc hsrc a.srcMaxval a.dstMaxval _ 0 0
    · rw [if_neg (by omega), List.getElem_append_left (by simp; omega),
        List.getElem_replicate]

theorem roppedLine_fullPnArgs (src : List Int) :
    roppedLine fullPnArgs src (List.replicate 4096 0) =
      List.replicate 4095 0 ++ [1] := by
  have hset : ropPixel fullPnArgs.rop fullPnArgs.srcMaxval
      fullPnArgs.dstMaxval 0 0 = 1 := by decide
  rw [roppedLine_last (n := 4095) rfl rfl (by decide), hset]

/-- The word of the last 4095 zeros turns into the code of an IS. -/
theorem not_lineropCorrect_fullPnArgs :
    ¬ LineropCorrect fullPnArgs (pixels (fun _ => 0) 1 1)
      (pixels (fun _ => 0) 1 4096) := by
  intro h
  have hlen : (plP2l (fun _ => 0) 1 4096).length < 2 ^ 30 := by
    rw [plP2l_eq _ _ (by decide), pixels_zero]
    have := length_packLine_zeros (show 0 < 4094 by decide) 4096
    rw [length_pieces _ (by decide)] at this
    exact this ▸ (by decide)
  have hencodes := @plP2l_encodes (fun _ => 0) 1 4096 (by decide)
    (fun _ _ _ => by decide) hlen []
  rw [List.append_nil] at hencodes
  have hres : ∀ v ∈ roppedLine fullPnArgs (pixels (fun _ => 0) 1 1)
      (pixels (fun _ => 0) 1 4096), Pixel v := by
    rw [pixels_zero 1 4096, roppedLine_fullPnArgs]
    intro v hv
    rcases List.mem_append.mp hv with hv | hv
    · rw [List.eq_of_mem_replicate hv]
      decide
    · rw [List.mem_singleton.mp hv]
      decide
  have hfull := LineropCorrect.noFullPn (by decide) (by decide)
    (fun hneed => absurd hneed (by decide)) hencodes
    (by rw [length_pixels]; decide) hres h
  rw [pixels_zero 1 4096, roppedLine_fullPnArgs] at hfull
  have hruns : lineRuns (List.replicate 4095 (0 : Int) ++ [1]) =
      ⟨[], ⟨4095, 1, 1⟩⟩ := by
    rw [lineRuns, scan_append]
    change scan (lineRuns (List.replicate 4095 0)) [1] = _
    rw [lineRuns_zeros]
    rfl
  rw [NoFullPn, hruns] at hfull
  exact hfull ⟨4095, 1, 1⟩ (by simp) (by decide)

end Iraf.Plio
