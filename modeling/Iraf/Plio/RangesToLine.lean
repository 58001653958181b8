import Iraf.Plio.Codec
import Iraf.Plio.RangeWindow

/-!
# Range list to line list

`plR2l` encodes the ranges of a window.  The ranges are cut as in `plR2p`; the zeros
after the last range have a branch of their own.
-/

namespace Iraf.Plio

/-- The variables of `pl_r2l`: the encoder and the start of the next range of zeros. -/
structure R2l where
  enc : Encoder
  iz : Int

/-- One range; `none` when it begins past `xe`. -/
def R2l.step (xs xe : Int) (s : R2l) (r : RlElem) : Option R2l :=
  let last := r.x + r.n - 1
  if r.x > xe then none
  else if xs > last then some s
  else
    -- Get an inbounds range; only one end of it is cut.
    let x1 := if r.x < xs then xs else r.x
    let x2 := if r.x < xs then last else min last xe
    let nz := x1 - s.iz
    let np := x2 - x1 + 1
    -- Go again if nothing inbounds.
    if np ≤ 0 then some s
    else some ⟨encodeRange (iDatamax - 1) (x2 = last) s.enc r.v nz np, x2 + 1⟩

/-- `do i = RL_FIRST, nr + 1`; the turn after the last range outputs a ZN, in which
no single pixel can join the zeros. -/
def R2l.loop (xs xe : Int) (s : R2l) : List RlElem → Encoder
  | [] =>
      if s.iz < xe then encodeRange (iDatamax - 1) false s.enc 0 (xe - s.iz + 1) 0
      else s.enc
  | r :: rs =>
      match s.step xs xe r with
      | none => s.enc
      | some s' => R2l.loop xs xe s' rs

/-- The line list stored; nothing when 0 is returned. -/
def plR2l (rl : List RlElem) (xs npix : Int) : List Int :=
  if npix ≤ 0 ∨ rlLen rl ≤ 0 then []
  else
    let ranges := (rl.take (rlLen rl).toNat).drop 1
    let ll := (R2l.loop xs (xs + npix - 1) ⟨⟨1, []⟩, xs⟩ ranges).ll
    header 0 (llCurhdrlen + ll.length) 0 ++ ll

/-! ## Encoding one range -/

variable {e : Encoder} {line : List Int}

theorem Encoder.Spells.range (h : e.Spells line) (pnOk : Bool) {v : Int} (hv : v ≤ iPvmax)
    (nz np : Nat) (hcount : 0 < v ∨ np = 0) :
    (encodeRange (iDatamax - 1) pnOk e v nz np).Spells
      (line ++ (List.replicate nz 0 ++ List.replicate np v)) := by
  obtain ⟨is, hll, hhigh, hok, hline⟩ := h
  have hrange := encodeRange_eq (show 0 < 4094 by decide) pnOk e hv nz np
  have hlost : lostZeros 4094 pnOk v nz np = 0 := by
    have hrem := Nat.mod_lt (nz - 1) (show 0 < 4094 by decide)
    exact if_neg fun hfull => by omega
  change (encodeRange (4094 : Nat) pnOk e v nz np).Spells _
  rw [hrange]
  refine ⟨is ++ encodeInstrs 4094 pnOk e.hi v nz np, ?_, ?_, ?_, ?_⟩
  · rw [hll, packed_append]
  · rw [finalHigh_append, hhigh]
  · intro i hi
    rcases List.mem_append.mp hi with hi | hi
    · exact hok i hi
    · exact encodeInstrs_ok (by decide) (by decide) pnOk e.hi hv nz np i hi
  · rw [expand_append, hline, ← hhigh, expand_encodeInstrs pnOk e.hi nz hcount, hlost,
      Nat.sub_zero]

/-! ## Encoding the ranges of a window -/

variable {r : RlElem} {rs : List RlElem} {xs xe : Int} {s : R2l}

theorem R2l.step_cut (hn : 0 < r.n) (hlo : ¬ r.x > xe) (hhi : ¬ xs > r.x + r.n - 1)
    (hcut : ¬ Straddles xs xe r) :
    s.step xs xe r = some ⟨encodeRange (iDatamax - 1)
      (min (r.x + r.n - 1) xe = r.x + r.n - 1) s.enc r.v (max r.x xs - s.iz)
      (min (r.x + r.n - 1) xe - max r.x xs + 1), min (r.x + r.n - 1) xe + 1⟩ := by
  unfold Straddles at hcut
  have hx1 : (if r.x < xs then xs else r.x) = max r.x xs := by
    split <;> omega
  have hx2 : (if r.x < xs then r.x + r.n - 1 else min (r.x + r.n - 1) xe) =
      min (r.x + r.n - 1) xe := by
    split <;> omega
  rw [R2l.step, if_neg hlo, if_neg hhi]
  simp only [hx1, hx2]
  rw [if_neg (by omega)]

/-- The zeros at the end of a window are put out: there are none, or there are two or
more and no range follows the window. -/
def ZerosPutOut (iz xe : Int) (rs : List RlElem) : Prop :=
  xe < iz ∨ rangeValue rs xe ≠ 0 ∨
    (iz < xe ∧ rangeValue rs (xe - 1) = 0 ∧ ∀ r ∈ rs, r.x ≤ xe)

instance (iz xe : Int) (rs : List RlElem) : Decidable (ZerosPutOut iz xe rs) := by
  unfold ZerosPutOut
  infer_instance

/-- The pixels encoded so far end where the next range may begin. -/
structure R2l.Before (xs xe : Int) (s : R2l) (rs : List RlElem) (line : List Int) :
    Prop where
  inside : xs ≤ s.iz ∧ s.iz ≤ xe + 1
  spells : s.enc.Spells line
  later : ∀ r ∈ rs, s.iz ≤ max r.x xs

theorem zerosPutOut_cons {iz iz' : Int} (hv : 0 < r.v)
    (hx : r.x ≤ xe) (hiz : iz < iz') (hend : iz' = min (r.x + r.n - 1) xe + 1)
    (hlast : r.x < iz') : ZerosPutOut iz xe (r :: rs) ↔ ZerosPutOut iz' xe rs := by
  unfold ZerosPutOut
  by_cases hfull : xe < iz'
  · have hvalue : rangeValue (r :: rs) xe = r.v := rangeValue_of_mem (by omega)
    exact iff_of_true (.inr (.inl (by omega))) (.inl hfull)
  have hsame : rangeValue (r :: rs) xe = rangeValue rs xe := rangeValue_of_not_mem (by omega)
  have hall : (∀ q ∈ r :: rs, q.x ≤ xe) ↔ ∀ q ∈ rs, q.x ≤ xe :=
    List.forall_mem_cons.trans (and_iff_right hx)
  rw [hsame, hall]
  by_cases hmore : iz' < xe
  · have hprev : rangeValue (r :: rs) (xe - 1) = rangeValue rs (xe - 1) :=
      rangeValue_of_not_mem (by omega)
    have hbefore : iz < xe := by omega
    simp only [hprev, hmore, hbefore, hfull, show ¬ xe < iz by omega]
  · have hprev : rangeValue (r :: rs) (xe - 1) ≠ 0 := by
      rw [rangeValue_of_mem (by omega)]
      omega
    simp only [hprev, hmore, hfull, show ¬ xe < iz by omega, false_and, and_false]

/-- What `pl_r2l` encodes of a window: all its pixels, or all but zeros at the end. -/
theorem R2l.loop_spells (hwin : xs ≤ xe) (hrs : RangesOrdered rs)
    (hvalues : ∀ r ∈ rs, 0 < r.v ∧ r.v ≤ iPvmax) (hcut : ∀ r ∈ rs, ¬ Straddles xs xe r)
    (h : s.Before xs xe rs line) :
    ∃ n : Nat, (R2l.loop xs xe s rs).Spells (line ++ rangePixels rs s.iz n) ∧
      s.iz + n ≤ xe + 1 ∧ (s.iz + n = xe + 1 ↔ ZerosPutOut s.iz xe rs) ∧
      ∀ i, s.iz + n ≤ i → i ≤ xe → rangeValue rs i = 0 := by
  induction rs generalizing s line with
  | nil =>
      obtain ⟨hinside, hspells, -⟩ := h
      rw [R2l.loop]
      by_cases hmore : s.iz < xe
      · have hcount : ((xe - s.iz + 1).toNat : Int) = xe - s.iz + 1 := by omega
        have hzeros := hspells.range false (v := 0) (by decide) (xe - s.iz + 1).toNat
          0 (.inr rfl)
        rw [hcount] at hzeros
        refine ⟨(xe - s.iz + 1).toNat, ?_, by omega, ?_, fun i hi hi' => rfl⟩
        · rw [if_pos hmore, rangePixels_nil]
          simpa using hzeros
        · exact iff_of_true (by omega) (.inr (.inr ⟨hmore, rfl, by simp⟩))
      · refine ⟨0, ?_, by omega, ?_, fun i _ _ => rfl⟩
        · rw [if_neg hmore]
          simpa [rangePixels] using hspells
        · unfold ZerosPutOut
          have hzero : rangeValue [] xe = 0 := rfl
          omega
  | cons r rs ih =>
      obtain ⟨hinside, hspells, hlater⟩ := h
      have hn := hrs.nonempty r List.mem_cons_self
      have hv := hvalues r List.mem_cons_self
      have hnext := hrs.lt
      have hvalues' : ∀ q ∈ rs, 0 < q.v ∧ q.v ≤ iPvmax := fun q hq =>
        hvalues q (List.mem_cons_of_mem _ hq)
      have hrest : ∀ q ∈ rs, ¬ Straddles xs xe q := fun q hq =>
        hcut q (List.mem_cons_of_mem _ hq)
      have hiz := hlater r List.mem_cons_self
      by_cases hbeyond : r.x > xe
      · -- A range after the window ends the loop.
        have hzero : ∀ i, i ≤ xe → rangeValue (r :: rs) i = 0 := by
          intro i hi
          apply rangeValue_of_before
          intro q hq
          rcases List.mem_cons.mp hq with rfl | hq
          · omega
          · have := hnext q hq
            omega
        refine ⟨0, ?_, by omega, ?_, fun i _ hi => hzero i hi⟩
        · rw [R2l.loop, R2l.step, if_pos hbeyond]
          simpa [rangePixels] using hspells
        · have hlast := hzero xe (Int.le_refl xe)
          have hfollows : ¬ ∀ q ∈ r :: rs, q.x ≤ xe := fun hall =>
            absurd (hall r List.mem_cons_self) (by omega)
          unfold ZerosPutOut
          simp only [hlast, hfollows, and_false, or_false, ne_eq, not_true_eq_false]
          omega
      by_cases hbehind : xs > r.x + r.n - 1
      · have hkept : s.Before xs xe rs line :=
          ⟨hinside, hspells, fun q hq => hlater q (List.mem_cons_of_mem _ hq)⟩
        have hsame : ∀ i, xs ≤ i → rangeValue (r :: rs) i = rangeValue rs i :=
          fun i hi => rangeValue_of_not_mem (by omega)
        obtain ⟨n, hline, hle, hiff, hzero⟩ := ih hrs.tail hvalues' hrest hkept
        refine ⟨n, ?_, hle, ?_, fun i hi hi' => ?_⟩
        · have hpixels : rangePixels (r :: rs) s.iz n = rangePixels rs s.iz n :=
            rangePixels_congr fun i hi _ => hsame i (by omega)
          rw [R2l.loop, R2l.step, if_neg hbeyond, if_pos hbehind, hpixels]
          exact hline
        · rw [hiff]
          unfold ZerosPutOut
          have hall : (∀ q ∈ r :: rs, q.x ≤ xe) ↔ ∀ q ∈ rs, q.x ≤ xe :=
            List.forall_mem_cons.trans (and_iff_right (by omega))
          rw [hsame xe hwin, hall]
          by_cases hmore : s.iz < xe
          · rw [hsame (xe - 1) (by omega)]
          · simp only [hmore, false_and]
        · rw [hsame i (by omega)]
          exact hzero i hi hi'
      · have hstep := s.step_cut hn hbeyond hbehind (hcut r List.mem_cons_self)
        have hx1 : max r.x xs ≤ min (r.x + r.n - 1) xe := by omega
        obtain ⟨nz, hnz⟩ : ∃ nz : Nat, (nz : Int) = max r.x xs - s.iz :=
          ⟨(max r.x xs - s.iz).toNat, by omega⟩
        obtain ⟨np, hnp⟩ : ∃ np : Nat, (np : Int) = min (r.x + r.n - 1) xe - max r.x xs + 1 :=
          ⟨(min (r.x + r.n - 1) xe - max r.x xs + 1).toNat, by omega⟩
        rw [← hnz, ← hnp] at hstep
        have hgap : rangePixels (r :: rs) s.iz nz = List.replicate nz 0 := by
          apply rangePixels_eq_replicate
          intro i hi hi'
          apply rangeValue_of_before
          intro q hq
          rcases List.mem_cons.mp hq with rfl | hq
          · omega
          · have := hnext q hq
            omega
        have hrange : rangePixels (r :: rs) (s.iz + nz) np = List.replicate np r.v := by
          apply rangePixels_eq_replicate
          intro i hi hi'
          exact rangeValue_of_mem (by omega)
        have hafter : ∀ i, s.iz + nz + np ≤ i → i ≤ xe →
            rangeValue (r :: rs) i = rangeValue rs i := fun i hi hi' =>
          rangeValue_of_not_mem (by omega)
        have hspells' := hspells.range (min (r.x + r.n - 1) xe = r.x + r.n - 1) hv.2 nz
          np (.inl hv.1)
        have hstart : min (r.x + r.n - 1) xe + 1 = s.iz + nz + np := by omega
        rw [hstart] at hstep
        generalize encodeRange (iDatamax - 1) (min (r.x + r.n - 1) xe = r.x + r.n - 1)
          s.enc r.v nz np = enc at hstep hspells'
        have hout : R2l.Before xs xe ⟨enc, s.iz + nz + np⟩ rs
            (line ++ (List.replicate nz 0 ++ List.replicate np r.v)) := by
          constructor
          · simp only
            omega
          · exact hspells'
          · intro q hq
            have := hnext q hq
            simp only
            omega
        obtain ⟨n, hline, hle, hiff, hzero⟩ := ih hrs.tail hvalues' hrest hout
        simp only at hle hiff hzero
        have hpixels : rangePixels (r :: rs) (s.iz + nz + np) n =
            rangePixels rs (s.iz + nz + np) n :=
          rangePixels_congr fun i hi hi' => hafter i hi (by omega)
        refine ⟨nz + (np + n), ?_, by omega, ?_, fun i hi hi' => ?_⟩
        · rw [R2l.loop, hstep, rangePixels_append, rangePixels_append, hgap, hrange, hpixels]
          simpa only [List.append_assoc] using hline
        · have hsum : s.iz + ((nz + (np + n) : Nat) : Int) = s.iz + nz + np + n := by omega
          rw [hsum, hiff]
          exact (zerosPutOut_cons hv.1 (by omega) (by omega) (by omega) (by omega)).symm
        · rw [hafter i (by omega) hi']
          exact hzero i (by omega) hi'

theorem R2l.loop_straddles (hwin : xs ≤ xe) (hrs : RangesOrdered rs)
    (hvalues : ∀ r ∈ rs, 0 < r.v ∧ r.v ≤ iPvmax) (hcut : ∃ r ∈ rs, Straddles xs xe r)
    (h : e.Spells []) :
    ∃ line, (R2l.loop xs xe ⟨e, xs⟩ rs).Spells line ∧ xe + 1 - xs < line.length := by
  obtain ⟨q, hq, hqs⟩ := hcut
  obtain ⟨hlo, hhi⟩ := hqs
  induction rs with
  | nil => cases hq
  | cons r rs ih =>
      have hnext := hrs.lt
      rcases List.mem_cons.mp hq with rfl | hmem
      · have hv := hvalues q List.mem_cons_self
        obtain ⟨np, hnp⟩ : ∃ np : Nat, (np : Int) = q.x + q.n - 1 - xs + 1 :=
          ⟨(q.x + q.n - 1 - xs + 1).toNat, by omega⟩
        have hstep : R2l.step xs xe ⟨e, xs⟩ q =
            some ⟨encodeRange (iDatamax - 1) true e q.v (0 : Nat) np, q.x + q.n - 1 + 1⟩ := by
          rw [R2l.step, if_neg (by omega), if_neg (by omega)]
          simp only [if_pos hlo]
          rw [if_neg (by omega), hnp]
          simp
        have hspells := h.range true hv.2 0 np (.inl hv.1)
        refine ⟨[] ++ (List.replicate 0 0 ++ List.replicate np q.v), ?_, ?_⟩
        · rw [R2l.loop, hstep]
          simp only
          -- What follows lies after the window.
          cases rs with
          | nil =>
              rw [R2l.loop, if_neg (by simp only; omega)]
              exact hspells
          | cons r rs =>
              have hbeyond := hnext r List.mem_cons_self
              rw [R2l.loop, R2l.step, if_pos (by omega)]
              exact hspells
        · simp only [List.nil_append, List.replicate_zero, List.length_replicate]
          omega
      · have hbehind := hnext q hmem
        have hn := hrs.nonempty r List.mem_cons_self
        rw [R2l.loop, R2l.step, if_neg (by omega), if_pos (by omega)]
        exact ih hrs.tail (fun r hr => hvalues r (List.mem_cons_of_mem _ hr)) hmem

/-! ## The line list of a window -/

/-- The list stored decodes to the pixels of the window, and its instructions advance
the position to the end of the window. -/
def WindowEncoded (rl rs : List RlElem) (xs npix : Int) : Prop :=
  plL2p (plR2l rl xs npix) 1 npix = rangePixels rs xs npix.toNat ∧
    ∃ is, instructions (bodyWords (plR2l rl xs npix)) = some is ∧
      ((expand 1 is).length : Int) = npix

theorem Encoder.Spells.advance (h : e.Spells line) (n : Int) :
    (∃ is, instructions (bodyWords (header 0 (llCurhdrlen + e.ll.length) 0 ++ e.ll)) =
      some is ∧ ((expand 1 is).length : Int) = n) ↔ (line.length : Int) = n := by
  obtain ⟨is, hll, -, hok, hline⟩ := h
  have hbody : bodyWords (header 0 (llCurhdrlen + e.ll.length) 0 ++ e.ll) = packed is := by
    rw [hll]
    rfl
  rw [hbody, instructions_packed hok]
  constructor
  · rintro ⟨js, hjs, hlen⟩
    rw [← Option.some.inj hjs, hline] at hlen
    exact hlen
  · intro hlen
    exact ⟨is, rfl, by rw [hline, hlen]⟩

theorem Encoder.Spells.encodes (h : e.Spells line)
    (hlen : (header 0 (llCurhdrlen + e.ll.length) 0 ++ e.ll).length < 2 ^ 30) :
    Encodes (header 0 (llCurhdrlen + e.ll.length) 0 ++ e.ll) line := by
  obtain ⟨is, hll, -, hok, hline⟩ := h
  rw [hll] at hlen ⊢
  exact ⟨0, 0, is, [], by rw [List.append_nil], hok, hline,
    by simpa only [List.length_append, length_header] using hlen⟩

/-- `pl_r2l` encodes a window exactly when no range straddles it and its last zeros are
put out. -/
theorem plR2l_windowEncoded_iff (hrs : RangesOrdered rs)
    (hvalues : ∀ r ∈ rs, 0 < r.v ∧ r.v ≤ iPvmax) (axlen v : Int) (rest : List RlElem)
    (xs : Int) {npix : Int} (hnpix : 1 ≤ npix)
    (hlen : (plR2l (rangeList axlen v rs rest) xs npix).length < 2 ^ 30) :
    WindowEncoded (rangeList axlen v rs rest) rs xs npix ↔
      (∀ r ∈ rs, ¬ Straddles xs (xs + npix - 1) r) ∧ ZerosPutOut xs (xs + npix - 1) rs := by
  obtain ⟨hrllen, hranges⟩ := rangeList_ranges axlen v rs rest
  have hcall : plR2l (rangeList axlen v rs rest) xs npix =
      header 0 (llCurhdrlen + (R2l.loop xs (xs + npix - 1) ⟨⟨1, []⟩, xs⟩ rs).ll.length) 0 ++
        (R2l.loop xs (xs + npix - 1) ⟨⟨1, []⟩, xs⟩ rs).ll := by
    unfold plR2l
    rw [if_neg (by omega), hranges]
  unfold WindowEncoded
  rw [hcall] at hlen ⊢
  by_cases hcut : ∀ r ∈ rs, ¬ Straddles xs (xs + npix - 1) r
  · have hstart : R2l.Before xs (xs + npix - 1) ⟨⟨1, []⟩, xs⟩ rs [] := by
      constructor
      · simp only
        omega
      · exact Encoder.spells_nil
      · intro r _
        exact Int.le_max_right r.x xs
    obtain ⟨n, hspells, hle, hiff, hzero⟩ := R2l.loop_spells (by omega) hrs hvalues hcut hstart
    simp only [List.nil_append] at hspells hle hiff hzero
    have hadvance := hspells.advance npix
    rw [length_rangePixels] at hadvance
    rw [hadvance, and_iff_right hcut, ← hiff]
    constructor
    · intro h
      omega
    · intro hfull
      obtain rfl : npix = n := by omega
      have hread := plL2p_eq_line (hspells.encodes hlen)
        (by rw [← List.length_pos_iff, length_rangePixels]; omega)
      rw [length_rangePixels] at hread
      constructor
      · rw [hread, Int.toNat_natCast]
      · rfl
  · have hsome : ∃ r ∈ rs, Straddles xs (xs + npix - 1) r := by
      by_contra hnone
      exact hcut fun r hr hstraddles => hnone ⟨r, hr, hstraddles⟩
    obtain ⟨line, hspells, hlong⟩ := R2l.loop_straddles (by omega) hrs hvalues hsome
      Encoder.spells_nil
    rw [hspells.advance npix]
    constructor
    · rintro ⟨-, hlength⟩
      omega
    · exact fun h => absurd h.1 hcut

/-- One zero after the last range is not put out. -/
theorem not_windowEncoded_lastZero :
    RangesOrdered [⟨1, 1, 5⟩] ∧
      ¬ WindowEncoded (rangeList 2 0 [⟨1, 1, 5⟩] []) [⟨1, 1, 5⟩] 1 2 := by
  constructor
  · exact ⟨List.pairwise_singleton _ _, by simp⟩
  · rintro ⟨-, is, his, hlen⟩
    have hone : instructions (bodyWords (plR2l (rangeList 2 0 [⟨1, 1, 5⟩] []) 1 2)) =
        some [.is 4] := rfl
    rw [hone] at his
    rw [← Option.some.inj his] at hlen
    exact absurd hlen (by decide)

theorem plR2l_windowEncoded_zeros :
    WindowEncoded (rangeList 5 0 [⟨2, 1, 5⟩] []) [⟨2, 1, 5⟩] 1 5 ↔
      (∀ r ∈ ([⟨2, 1, 5⟩] : List RlElem), ¬ Straddles 1 (1 + 5 - 1) r) ∧
        ZerosPutOut 1 (1 + 5 - 1) [⟨2, 1, 5⟩] :=
  plR2l_windowEncoded_iff ⟨by simp, by simp⟩ (by simp) 5 0 [] 1 (by decide) (by decide)

end Iraf.Plio
