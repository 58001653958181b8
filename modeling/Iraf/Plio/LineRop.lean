import Iraf.Lib.SegmentWalk
import Iraf.Plio.Rasterop
import Iraf.Plio.Segment

/-!
# Rasterops on line lists

`plLinerop` copies one line list to another, and applies a rasterop with a
second list in part of the line.  It writes the words of each range as soon as
the range is seen, and rewinds them when the next range has the same value; the
result is the encoding of the maximal runs of the result line.
-/

namespace Iraf.Plio

open RunLength SegmentWalk

/-- The variables of the output of `pl_linerop`.  `op` and `hi` are in `enc`, and
`oOp` is the number of words before the last range. -/
structure LineOut where
  enc : Encoder
  x1 : Int
  iz : Int
  oPv : Int
  oNp : Int
  oIz : Int
  oHi : Int
  oOp : Nat

namespace LineOut

/-- Nothing has been written yet. -/
def start : LineOut :=
  { enc := ⟨1, []⟩, x1 := 1, iz := 1, oPv := -1, oNp := 0, oIz := 0, oHi := 0,
    oOp := 0 }

/-- Encode the instructions of a range and move past it.  The zeros that end
the line are in front of `x1` already. -/
def flush (o : LineOut) (pv np : Int) : LineOut :=
  let nz := o.x1 - o.iz
  let count := if nz > 0 ∧ pv = 0 then 0 else np
  { o with
    enc := encodeRange iDatamax true o.enc pv nz count
    x1 := o.x1 + np
    iz := o.x1 + np }

/-- Output `np` pixels of value `pv`; `nleft` is what the destination cursor has
left.  The source counts a range that it combines once more in `segsize`, and
then takes both lengths off. -/
def put (o : LineOut) (nleft pv np : Int) : LineOut :=
  if pv = 0 then
    if nleft ≤ 0 then
      -- Output zeros at end of list.
      { o with x1 := o.x1 + np }.flush pv np
    else
      -- Keep going until we get a nonzero range.
      { o with oPv := 0, x1 := o.x1 + np }
  else if pv = o.oPv then
    -- Combine with previous range.
    { o with
      iz := o.oIz
      enc := ⟨o.oHi, o.enc.ll.take o.oOp⟩
      x1 := o.x1 - o.oNp
      oNp := np + o.oNp }.flush pv (np + o.oNp)
  else
    { o with
      oOp := o.enc.ll.length
      oNp := np
      oIz := o.iz
      oHi := o.enc.hi
      oPv := pv }.flush pv np

end LineOut

/-- The macros of `pllseg.h` on a list. -/
def llReader (ll : List Int) : Reader Int LlDes := ⟨LlDes.nleft, pllGetseg ll⟩

/-- The main loop of `pl_linerop`. -/
def lineWalk (a : RopArgs (List Int)) : Walk Int LlDes LineOut :=
  { src := llReader a.src, dst := llReader a.dst, needSrc := RNeedSrc a.rop,
    zero := 0, combine := ropPixel a.rop a.srcMaxval a.dstMaxval,
    put := LineOut.put, ds := a.ds, npix := a.npix, far := arb }

/-- The output after the main loop. -/
def lineOut (a : RopArgs (List Int)) : LineOut :=
  let dSrc :=
    if RNeedSrc a.rop then
      (llReader a.src).advance a.xs arb 1 (pllInit a.src)
    else ⟨0, 0, 0, 0, 0, 0⟩
  ((lineWalk a).loop arb
    ⟨dSrc, pllInit a.dst, a.ds - 1, false, LineOut.start⟩).out

/-- The result list: the header of the destination list with a new length, then
the words of the ranges. -/
def plLinerop (a : RopArgs (List Int)) : List Int :=
  let ll := (lineOut a).enc.ll
  a.dst.take 3 ++ lengthWords (llCurhdrlen + ll.length) ++
    (a.dst.drop 5).take 2 ++ ll

/-! ## Runs and rewinding -/

theorem encodeRuns_concat (zlim : Int) (rs : List (Run Int)) (r : Run Int) :
    encodeRuns zlim (rs ++ [r]) = encodeRun zlim (encodeRuns zlim rs) r := by
  simp [encodeRuns]

theorem take_encodeRun {zlim : Nat} (hlo : 0 < zlim) (e : Encoder)
    {r : Run Int} (hvalue : r.value ≤ iPvmax) :
    (encodeRun zlim e r).ll.take e.ll.length = e.ll := by
  rw [encodeRun, encodeRange_eq hlo true e hvalue]
  simp

/-- The loop has written the runs `r.runs`; a pending run that has pixels is
written as well, and can be rewound. -/
structure LineOut.Writes (o : LineOut) (r : Scan Int) : Prop where
  proper : r.Proper
  zeros : r.pending.count = 0 →
    o.enc = encodeRuns iDatamax r.runs ∧ o.x1 - o.iz = r.pending.zeros ∧
      o.oPv ≤ 0
  pixels : r.pending.count ≠ 0 →
    o.enc = encodeScan iDatamax r ∧ o.x1 = o.iz ∧
      o.oPv = r.pending.value ∧ o.oNp = r.pending.count ∧
      o.oIz = o.x1 - r.pending.count - r.pending.zeros ∧
      (⟨o.oHi, o.enc.ll.take o.oOp⟩ : Encoder) = encodeRuns iDatamax r.runs ∧
      o.oOp = (encodeRuns iDatamax r.runs).ll.length

namespace LineOut

variable {o : LineOut} {r : Scan Int} {pv : Int}

theorem Writes.flush {rs : List (Run Int)} {zeros np : Nat}
    (hproper : Scan.Proper ⟨rs, ⟨zeros, pv, np⟩⟩) (hlo : 0 < pv)
    (hhi : pv ≤ iPvmax) (henc : o.enc = encodeRuns iDatamax rs)
    (hzeros : o.x1 - o.iz = zeros) (hoPv : o.oPv = pv) (hoNp : o.oNp = np)
    (hoIz : o.oIz = o.iz) (hoHi : o.oHi = (encodeRuns iDatamax rs).hi)
    (hoOp : o.oOp = (encodeRuns iDatamax rs).ll.length) :
    (o.flush pv np).Writes ⟨rs, ⟨zeros, pv, np⟩⟩ ∧
      (o.flush pv np).enc = encodeScan iDatamax ⟨rs, ⟨zeros, pv, np⟩⟩ := by
  have hpv : pv ≠ 0 := by omega
  have hflush : (o.flush pv np).enc =
      encodeScan iDatamax ⟨rs, ⟨zeros, pv, np⟩⟩ := by
    simp [LineOut.flush, hpv, hzeros, henc, encodeScan, encodeRun]
  refine ⟨⟨hproper, fun hcount => ?_, fun _ =>
    ⟨hflush, rfl, hoPv, hoNp, ?_, ?_, hoOp⟩⟩, hflush⟩
  · exact absurd (hproper.2.mp hcount) hpv
  · change o.oIz = o.x1 + np - np - zeros
    omega
  · have hrewind := take_encodeRun (show 0 < 4095 by decide)
      (encodeRuns iDatamax rs) (r := ⟨zeros, pv, np⟩) hhi
    rw [hflush]
    simp only [LineOut.flush, hoHi, hoOp]
    exact congrArg (Encoder.mk _) hrewind

theorem Writes.put_zeros (h : o.Writes r) {np : Nat} (hnp : 0 < np)
    (nleft : Int) :
    (0 < nleft → (o.put nleft 0 np).Writes (r.push np 0)) ∧
      (nleft ≤ 0 →
        (o.put nleft 0 np).enc = encodeScan iDatamax (r.push np 0)) := by
  -- Either way the zeros join those between `iz` and `x1`.
  have hpushed : (r.push np 0).pending.count = 0 ∧
      o.enc = encodeRuns iDatamax (r.push np 0).runs ∧
      o.x1 + np - o.iz = (r.push np 0).pending.zeros := by
    by_cases hcount : r.pending.count = 0
    · obtain ⟨henc, hzeros, -⟩ := h.zeros hcount
      have hpush : r.push np 0 =
          ⟨r.runs, { r.pending with zeros := r.pending.zeros + np }⟩ := by
        simp [Scan.push, hcount]
      rw [hpush]
      exact ⟨hcount, henc, by push_cast; omega⟩
    · obtain ⟨henc, hx1, -⟩ := h.pixels hcount
      have hpush : r.push np 0 = ⟨r.runs ++ [r.pending], ⟨np, 0, 0⟩⟩ := by
        simp [Scan.push, hcount]
      rw [hpush, encodeRuns_concat]
      exact ⟨rfl, henc, by simp only; omega⟩
  obtain ⟨hcount, henc, hzeros⟩ := hpushed
  have hproper := h.proper.push hnp 0
  constructor
  · intro hmore
    have hput : o.put nleft 0 np = { o with oPv := 0, x1 := o.x1 + np } := by
      rw [put, if_pos rfl, if_neg (by omega)]
    rw [hput]
    exact ⟨hproper, fun _ => ⟨henc, hzeros, Int.le_refl 0⟩,
      fun hne => absurd hcount hne⟩
  · intro hend
    have hpos : o.x1 + np - o.iz > 0 := by
      rw [hzeros]
      unfold Scan.push
      by_cases hr : r.pending.count = 0 <;> simp [hr] <;> omega
    rw [put, if_pos rfl, if_pos hend]
    simp only [LineOut.flush, hpos, true_and, if_true]
    rw [hzeros, henc, encodeScan, encodeRun, hproper.2.mp hcount, hcount]
    rfl

theorem Writes.put_pixels (h : o.Writes r) (hlo : 0 < pv) (hhi : pv ≤ iPvmax)
    {np : Nat} (hnp : 0 < np) (nleft : Int) :
    (o.put nleft pv np).Writes (r.push np pv) ∧
      (o.put nleft pv np).enc = encodeScan iDatamax (r.push np pv) := by
  have hpv : pv ≠ 0 := by omega
  have hproper := h.proper.push hnp pv
  by_cases hcount : r.pending.count = 0
  · obtain ⟨henc, hzeros, hoPv⟩ := h.zeros hcount
    have hpush : r.push np pv = ⟨r.runs, ⟨r.pending.zeros, pv, np⟩⟩ := by
      simp [Scan.push, hpv, hcount]
    rw [hpush] at hproper ⊢
    rw [put, if_neg hpv, if_neg (by omega)]
    exact Writes.flush hproper hlo hhi henc hzeros rfl rfl rfl
      (by simp only [henc]) (by simp only [henc])
  · obtain ⟨henc, hx1, hoPv, hoNp, hoIz, hrewind, hoOp⟩ := h.pixels hcount
    by_cases hsame : pv = r.pending.value
    · have hpush : r.push np pv =
          ⟨r.runs, ⟨r.pending.zeros, pv, r.pending.count + np⟩⟩ := by
        simp [Scan.push, ← hsame, hpv, hcount]
      have hsum : (np : Int) + o.oNp = (r.pending.count + np : Nat) := by
        omega
      rw [hpush] at hproper ⊢
      rw [put, if_neg hpv, if_pos (by omega), hsum]
      exact Writes.flush hproper hlo hhi hrewind (by simp only; omega)
        (by simp only; omega) rfl rfl (congrArg Encoder.hi hrewind) hoOp
    · have hpush : r.push np pv =
          ⟨r.runs ++ [r.pending], ⟨0, pv, np⟩⟩ := by
        simp [Scan.push, hpv, hcount, hsame]
      have hruns : o.enc = encodeRuns iDatamax (r.runs ++ [r.pending]) := by
        rw [encodeRuns_concat]
        exact henc
      rw [hpush] at hproper ⊢
      rw [put, if_neg hpv, if_neg (by omega)]
      exact Writes.flush hproper hlo hhi hruns (by simp only; omega) rfl rfl
        rfl (by simp only [hruns]) (by simp only [hruns])

end LineOut

theorem llReader_delivers (ll : List Int) :
    (llReader ll).Delivers fun ld line => ld.Ahead ll line where
  done h hleft := h.2.2.1 (Int.le_antisymm hleft h.1)
  getseg h hnp _ := by
    obtain ⟨hrest, hvalue, hsegment⟩ := h.getseg hnp
    exact ⟨hrest, hvalue ▸ hsegment⟩

theorem llReader_exact (ll : List Int) :
    (llReader ll).Exact fun ld line => ld.Ahead ll line where
  nonneg h := h.1
  le h := h.nleft_le

theorem lineSink (a : RopArgs (List Int)) :
    Sink (lineWalk a) Pixel (fun o line => o.Writes (lineRuns line))
      fun o line => o.enc = encodeScan iDatamax (lineRuns line) := by
  have hpush : ∀ (line : List Int) (v : Int) {np : Nat}, 0 < np →
      lineRuns (line ++ List.replicate np v) = (lineRuns line).push np v := by
    intro line v np hnp
    obtain ⟨n, rfl⟩ : ∃ n, np = n + 1 := ⟨np - 1, by omega⟩
    rw [lineRuns, scan_append, scan_replicate]
    rfl
  constructor
  · intro o line v nl np h hv hnp hnl
    rw [hpush line v hnp]
    by_cases hzero : v = 0
    · subst hzero
      exact (h.put_zeros hnp nl).1 hnl
    · have hlo := hv.1
      exact (h.put_pixels (by omega) hv.2 hnp nl).1
  · intro o line v nl np h hv hnp hnl
    rw [hpush line v hnp]
    by_cases hzero : v = 0
    · subst hzero
      exact (h.put_zeros hnp nl).2 hnl
    · have hlo := hv.1
      exact (h.put_pixels (by omega) hv.2 hnp nl).2

section Result

variable {a : RopArgs (List Int)} {src dst : List Int} (hxs : 1 ≤ a.xs) (hds : 1 ≤ a.ds)
  (hsrc : RNeedSrc a.rop → Encodes a.src src ∧ src.length ≤ arb)
  (hdst : Encodes a.dst dst) (hlen : dst.length < arb)
  (hres : ∀ v ∈ roppedLine a src dst, Pixel v)

include hxs hds hsrc hdst hlen hres

theorem lineOut_enc :
    (lineOut a).enc =
      encodeScan iDatamax (lineRuns (roppedLine a src dst)) := by
  refine SegmentWalk.run (llReader_delivers a.src)
    (.inr (llReader_exact a.src)) (llReader_delivers a.dst)
    (llReader_exact a.dst) (lineSink a)
    (fun hneed _ _ _ => ropPixel_noSrc ?_ _ _ _ _ _) hxs
    (Int.ofNat_lt.mpr hlen) hres hds hlen (fun hneed _ => ?_)
    (pllInit_ahead hdst) ?_ rfl
  · simpa [lineWalk] using hneed
  · have hneed' : RNeedSrc a.rop := by simpa [lineWalk] using hneed
    obtain ⟨hencodes, hshort⟩ := hsrc hneed'
    rw [if_pos hneed']
    exact (llReader_delivers a.src).advance
      (.inr (llReader_exact a.src)) arb (by simpa using pllInit_ahead hencodes)
      (by decide) hxs (by omega)
  · exact ⟨proper_lineRuns [], fun _ => ⟨rfl, rfl, by decide⟩,
      fun h => absurd rfl h⟩

theorem plLinerop_eq : ∃ nref blen,
    plLinerop a =
      header nref (llCurhdrlen +
        (encodeScan iDatamax (lineRuns (roppedLine a src dst))).ll.length)
        blen ++
      (encodeScan iDatamax (lineRuns (roppedLine a src dst))).ll := by
  have henc := lineOut_enc hxs hds hsrc hdst hlen hres
  obtain ⟨nref, blen, is, rest, hll, -⟩ := hdst
  refine ⟨nref, blen, ?_⟩
  rw [plLinerop, henc, hll]
  rfl

theorem plLinerop_encodes (hout : (plLinerop a).length < 2 ^ 30)
    (rest : List Int) :
    Encodes (plLinerop a ++ rest)
      (encodedLine 4095 (roppedLine a src dst)) := by
  obtain ⟨nref, blen, heq⟩ := plLinerop_eq hxs hds hsrc hdst hlen hres
  obtain ⟨is, hll, -, hok, hexpand⟩ :=
    encodeScan_spells (show 0 < 4095 by decide) (by decide) hres
  have hwords : (encodeScan iDatamax
      (lineRuns (roppedLine a src dst))).ll = packed is := hll
  rw [heq, hwords] at hout ⊢
  exact ⟨nref, blen, is, rest, by simp, hok, hexpand, by
    simpa using hout⟩

end Result

end Iraf.Plio
