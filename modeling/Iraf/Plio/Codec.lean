import Iraf.Plio.PixelLine
import Iraf.Plio.Decode

/-!
# The line list codec

What `pl_p2l` writes is read back by `pl_l2p`, as long as the length of the
list fits the two length words of its header.
-/

namespace Iraf.Plio

open RunLength

/-- The words after the header of a list stored in `ll`. -/
def bodyWords (ll : List Int) : List Int := ll.drop llCurhdrlen

/-- The list written for a pixel array decodes to the pixels with negative
values set to zero; its words, but for the version, are nonnegative shorts; and
its instructions advance the pixel position to the end of the line. -/
def CodecRoundTrip (px : Int → Int) (xs npix : Int) : Prop :=
  let ll := plP2l px xs npix
  plL2p ll 1 npix = pixels px xs npix.toNat ∧
    (∀ i : Int, 1 ≤ i → i ≤ ll.length → i ≠ 3 →
      0 ≤ word ll i ∧ word ll i ≤ maxShort) ∧
    ∃ is, instructions (bodyWords ll) = some is ∧
      ((expand 1 is).length : Int) = npix

theorem pixels_pixel {px : Int → Int} {xs : Int} {n : Nat}
    (hpx : ∀ i : Int, xs ≤ i → i ≤ xs + n - 1 → px i ≤ iPvmax) :
    ∀ v ∈ pixels px xs n, Pixel v := by
  intro v hv
  obtain ⟨i, hi, rfl⟩ := List.mem_map.mp hv
  have hlt := List.mem_range.mp hi
  have hle := hpx (xs + i) (by omega) (by omega)
  simp only [Pixel, iPvmax] at hle ⊢
  omega

theorem header_words {len : Int} (hlo : 0 ≤ len) (hhi : len < 2 ^ 30) :
    ∀ i : Nat, i < 7 → i ≠ 2 →
      0 ≤ (header 0 len 0).getD i 0 ∧ (header 0 len 0).getD i 0 ≤ 32767 := by
  have hmod : toShort (len.tmod 32768) = len % 32768 := by
    rw [Int.tmod_eq_emod_of_nonneg hlo]
    exact toShort_of_mem (by omega) (by omega)
  have hdiv : toShort (len.tdiv 32768) = len / 32768 := by
    rw [Int.tdiv_eq_ediv_of_nonneg hlo]
    exact toShort_of_mem (by omega) (by omega)
  have hzero : toShort 0 = 0 := by decide
  intro i hi hne
  match i, hi with
  | 0, _ | 1, _ | 5, _ | 6, _ => simp [header, lengthWords, hzero]
  | 2, _ => exact absurd rfl hne
  | 3, _ =>
      simp only [header, lengthWords, hmod]
      simp
      omega
  | 4, _ =>
      simp only [header, lengthWords, hdiv]
      simp
      omega

theorem plP2l_round_trip (px : Int → Int) (xs : Int) {npix : Int}
    (hnpix : 1 ≤ npix)
    (hpx : ∀ i, xs ≤ i → i ≤ xs + npix - 1 → px i ≤ iPvmax)
    (hlen : (plP2l px xs npix).length < 2 ^ 30) :
    CodecRoundTrip px xs npix := by
  have hline : ∀ v ∈ pixels px xs npix.toNat, Pixel v :=
    pixels_pixel fun i h1 h2 => hpx i h1 (by omega)
  have hencoded := encodedLine_of_lt (show 0 < 4094 by decide) (by decide)
    (pixels px xs npix.toNat)
  have hcast : (npix.toNat : Int) = npix := by omega
  have heq : plP2l px xs npix = packLine (4094 : Nat) (pixels px xs npix.toNat) :=
    plP2l_eq px xs (by omega)
  rw [heq] at hlen
  obtain ⟨is, hll, -, hok, hexpand⟩ :=
    encodeScan_spells (show 0 < 4094 by decide) (by decide) hline
  have hwords : packLine (4094 : Nat) (pixels px xs npix.toNat) =
      header 0 (llCurhdrlen + (packed is).length) 0 ++ packed is := by
    rw [packLine, hll]
  refine ⟨?_, ?_, is, ?_, ?_⟩
  · have hencodes := packLine_encodes (show 0 < 4094 by decide) (by decide)
      hline hlen []
    rw [List.append_nil, hencoded] at hencodes
    have hne : pixels px xs npix.toNat ≠ [] := by
      rw [← List.length_pos_iff, length_pixels]
      omega
    have hread := plL2p_eq_line hencodes hne
    rwa [length_pixels, hcast, ← heq] at hread
  · intro i hlo hhi hne
    rw [heq, hwords] at hhi ⊢
    rw [hwords] at hlen
    simp only [List.length_append, length_header, llCurhdrlen] at hhi hlen
    by_cases hhdr : i ≤ 7
    · have hget := header_words
        (show 0 ≤ (llCurhdrlen : Int) + (packed is).length by omega)
        (by simp only [llCurhdrlen]; omega) (i - 1).toNat
        (by omega) (by omega)
      rw [word, List.getD_append _ _ _ _ (by
        simp only [length_header, llCurhdrlen]
        omega)]
      exact hget
    · obtain ⟨j, rfl⟩ : ∃ j : Nat, i = 7 + j + 1 := ⟨(i - 8).toNat, by omega⟩
      have hget := word_append_right
        (header 0 (llCurhdrlen + (packed is).length) 0) (packed is) j
      rw [length_header] at hget
      rw [show (7 : Int) + j + 1 = (llCurhdrlen : Nat) + j + 1 from rfl, hget]
      have hj : j < (packed is).length := by omega
      rw [List.getD_eq_getElem _ _ hj]
      exact packed_range hok _ (List.getElem_mem hj)
  · rw [heq, hwords, bodyWords]
    simp only [llCurhdrlen, header, lengthWords]
    exact instructions_packed hok
  · rw [hexpand, hencoded, length_pixels, hcast]

/-- Three pixels, the first of them negative. -/
theorem plP2l_round_trip_three : CodecRoundTrip (fun i => i - 2) 1 3 :=
  plP2l_round_trip (fun i => i - 2) 1 (by decide)
    (fun i _ _ => by simp only [iPvmax]; omega) (by decide)

/-! ## Lists longer than the header can tell -/

/-- Every pixel changes the high value by more than a data field. -/
def Jumps : Int → List Int → Prop
  | _, [] => True
  | hi, v :: line =>
      0 < v ∧ v ≤ iPvmax ∧ 4095 < (v - hi).natAbs ∧ Jumps v line

theorem encodeRun_jump {zlim : Nat} (hlo : 0 < zlim) (e : Encoder) {v : Int}
    (hpos : 0 < v) (hmax : v ≤ iPvmax) (hjump : 4095 < (v - e.hi).natAbs) :
    (encodeRun zlim e ⟨0, v, 1⟩).hi = v ∧
      (encodeRun zlim e ⟨0, v, 1⟩).ll.length = e.ll.length + 3 := by
  have hinstrs : encodeInstrs zlim true e.hi v 0 1 = [.sh v, .hn 1] := by
    rw [encodeInstrs, if_neg (by omega), highInstrs, if_pos (by omega),
      if_pos hjump]
    rfl
  have h := encodeRange_eq hlo true e hmax 0 1
  rw [hinstrs] at h
  rw [encodeRun, h]
  simp [Instr.high, Instr.words]

theorem length_encodeScan_jumps {zlim : Nat} (hlo : 0 < zlim)
    (line : List Int) : ∀ {rs : List (Run Int)} {v : Int},
      Jumps (encodeRuns zlim rs).hi (v :: line) →
      (encodeScan zlim (scan ⟨rs, ⟨0, v, 1⟩⟩ line)).ll.length =
        (encodeRuns zlim rs).ll.length + 3 * (line.length + 1) := by
  induction line with
  | nil =>
      rintro rs v ⟨hpos, hmax, hjump, -⟩
      exact (encodeRun_jump hlo _ hpos hmax hjump).2
  | cons w line ih =>
      rintro rs v ⟨hpos, hmax, hjump, hrest⟩
      have hrun := encodeRun_jump hlo _ hpos hmax hjump
      have hnext : encodeRuns zlim (rs ++ [⟨0, v, 1⟩]) =
          encodeRun zlim (encodeRuns zlim rs) ⟨0, v, 1⟩ := by
        simp [encodeRuns]
      have hw0 : w ≠ 0 := by have := hrest.1; omega
      have hwv : w ≠ v := by
        have := hrest.2.2.1
        omega
      have hpush : Scan.push ⟨rs, ⟨0, v, 1⟩⟩ 1 w =
          ⟨rs ++ [⟨0, v, 1⟩], ⟨0, w, 1⟩⟩ := by
        simp [Scan.push, hw0, hwv]
      rw [scan_cons, hpush, ih (by rw [hnext, hrun.1]; exact hrest), hnext,
        hrun.2, List.length_cons]
      omega

/-- Pixels that alternate between 5001 and 1. -/
def alternating (i : Int) : Int := if i % 2 = 1 then 5001 else 1

theorem jumps_alternating (n : Nat) : ∀ i : Int,
    Jumps (alternating (i - 1)) (pixels alternating i n) := by
  induction n with
  | zero => intro i; trivial
  | succ n ih =>
      intro i
      have hnext := ih (i + 1)
      rw [Int.add_sub_cancel] at hnext
      have hmax : max 0 (alternating i) = alternating i := by
        unfold alternating
        split <;> decide
      rw [pixels_succ, hmax]
      refine ⟨?_, ?_, ?_, hnext⟩
      · unfold alternating
        split <;> decide
      · unfold alternating
        split <;> decide
      · unfold alternating
        split <;> split <;> omega

theorem length_plP2l_alternating {n : Nat} (hn : 0 < n) :
    (plP2l alternating 1 n).length = 3 * n + 7 := by
  obtain ⟨m, rfl⟩ : ∃ m, n = m + 1 := ⟨n - 1, by omega⟩
  have hjumps : Jumps 1 (pixels alternating 1 (m + 1)) :=
    jumps_alternating (m + 1) 1
  rw [pixels_succ] at hjumps
  have hscan := @length_encodeScan_jumps 4094 (by decide)
    (pixels alternating (1 + 1) m) [] _ hjumps
  rw [plP2l_eq _ _ (by omega), packLine, Int.toNat_natCast, lineRuns,
    pixels_succ, scan_cons]
  have hpush : Scan.start.push 1 (max 0 (alternating 1)) =
      ⟨[], ⟨0, max 0 (alternating 1), 1⟩⟩ := by decide
  rw [hpush, List.length_append, length_header]
  simp only [length_pixels] at hscan
  have hscan' : (encodeScan (iDatamax - 1) (scan
      ⟨[], ⟨0, max 0 (alternating 1), 1⟩⟩
      (pixels alternating (1 + 1) m))).ll.length = 0 + 3 * (m + 1) := hscan
  rw [hscan']
  simp only [llCurhdrlen]
  omega

/-- The high length word of a list of 2^30 words or more is not a nonnegative
short. -/
theorem not_codecRoundTrip_alternating {n : Nat}
    (hlo : 1073741824 ≤ 3 * n + 7) (hhi : 3 * n + 7 < 2147483648) : ¬ CodecRoundTrip alternating 1 n := by
  rintro ⟨-, hwords, -⟩
  have hlen := length_plP2l_alternating (n := n) (by omega)
  have hword := (hwords 5 (by decide) (by omega) (by decide)).1
  rw [plP2l_eq alternating 1 (by omega), packLine] at hlen hword
  rw [List.length_append, length_header] at hlen
  rw [word_lenhi_header] at hword
  generalize (encodeScan (iDatamax - 1) (lineRuns
    (pixels alternating 1 (n : Int).toNat))).ll.length = len at hlen hword
  simp only [llCurhdrlen] at hlen hword
  have hquot : 32768 ≤ (((7 : Nat) : Int) + len) / 32768 ∧
      (((7 : Nat) : Int) + len) / 32768 < 65536 := by omega
  rw [Int.tdiv_eq_ediv_of_nonneg (by omega)] at hword
  exact absurd (toShort_neg hquot.1 hquot.2) (by omega)

/-- A list of 2^29 pixels that alternate does not survive the round trip. -/
theorem plP2l_long_line :
    (∀ i : Int, 1 ≤ i → i ≤ 1 + 536870912 - 1 → alternating i ≤ iPvmax) ∧
      ¬ CodecRoundTrip alternating 1 536870912 := by
  constructor
  · intro i _ _
    unfold alternating
    split <;> decide
  · have hlong := not_codecRoundTrip_alternating (n := 536870912) (by omega)
      (by omega)
    exact_mod_cast hlong

end Iraf.Plio
