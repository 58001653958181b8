import Iraf.Plio.LineList

/-!
# Pixel lines as line lists

The conversions of a pixel array scan it for ranges of constant value and put
out each one that is not zero, with the zeros before it.  What they put out are
the maximal runs of the line, whatever the indices of the array are.
-/

namespace Iraf.Plio

open RunLength

/-! ## Scanning a pixel array -/

/-- The variables of a scan: the current range begins at `x1` and has value
`pv`; the pixels from `iz` up to it are zeros. -/
structure PixScan (O : Type) where
  out : O
  pv : Int
  x1 : Int
  iz : Int
  deriving DecidableEq, Repr

/-- How a range is put out: `put out x1 pv nz np` is the output after the range
of `np` pixels of value `pv` from `x1` on, with `nz` zeros before it. -/
abbrev PutRange (O : Type) := O → Int → Int → Int → Int → O

namespace PixScan

variable {O : Type} (put : PutRange O)

/-- Put out the current range, which ends at `ip`, and start the next one. -/
def flush (s : PixScan O) (x1 ip nv : Int) : PixScan O :=
  { out := put s.out x1 s.pv (x1 - s.iz) (ip - x1 + 1)
    pv := nv
    x1 := ip + 1
    iz := ip + 1 }

def step (px : Int → Int) (xe : Int) (s : PixScan O) (ip : Int) : PixScan O :=
  if ip < xe then
    let nv := max 0 (px (ip + 1))
    if nv = s.pv then s
    else if s.pv = 0 then { s with pv := nv, x1 := ip + 1 }
    else s.flush put s.x1 ip nv
  else
    -- The value of the next range is not used after the last pixel.
    let x1 := if s.pv = 0 then xe + 1 else s.x1
    s.flush put x1 ip s.pv

/-- `do ip = xs, xe`, with `n` iterations left. -/
def loop (px : Int → Int) (xe : Int) : Nat → Int → PixScan O → PixScan O
  | 0, _, s => s
  | n + 1, ip, s => loop px xe n (ip + 1) (s.step put px xe ip)

end PixScan

/-- The output of a scan of `npix` pixels from `xs` on. -/
def scanPixels {O : Type} (put : PutRange O) (o : O) (px : Int → Int)
    (xs npix : Int) : O :=
  (PixScan.loop put px (xs + npix - 1) npix.toNat xs
    ⟨o, max 0 (px xs), xs, xs⟩).out

/-- The pixels from `xs` on with negative values replaced by zero. -/
def pixels (px : Int → Int) (xs : Int) (n : Nat) : List Int :=
  (List.range n).map fun i : Nat => max 0 (px (xs + i))

@[simp] theorem length_pixels (px : Int → Int) (xs : Int) (n : Nat) :
    (pixels px xs n).length = n := by
  simp [pixels]

theorem pixels_zero (xs : Int) (n : Nat) :
    pixels (fun _ => 0) xs n = List.replicate n 0 := by
  simp [pixels, List.map_const']

theorem pixels_succ (px : Int → Int) (xs : Int) (n : Nat) :
    pixels px xs (n + 1) = max 0 (px xs) :: pixels px (xs + 1) n := by
  simp only [pixels, List.range_succ_eq_map, List.map_cons, List.map_map,
    Int.natCast_zero, Int.add_zero]
  congr 1
  apply List.map_congr_left
  intro i _
  simp only [Function.comp, Nat.succ_eq_add_one]
  congr 2
  omega

/-! ## The runs put out -/

/-- The output after runs that begin at position `pos`. -/
def putRuns {O : Type} (put : PutRange O) : Int → O → List (Run Int) → O
  | _, o, [] => o
  | pos, o, r :: rs =>
      putRuns put (pos + r.zeros + r.count)
        (put o (pos + r.zeros) r.value r.zeros r.count) rs

/-- The position after some runs. -/
def runsEnd (pos : Int) (rs : List (Run Int)) : Int :=
  pos + (rs.flatMap Run.cells).length

theorem runsEnd_cons (pos : Int) (r : Run Int) (rs : List (Run Int)) :
    runsEnd pos (r :: rs) = runsEnd (pos + r.zeros + r.count) rs := by
  simp only [runsEnd, List.flatMap_cons, List.length_append, Run.cells,
    List.length_replicate]
  push_cast
  omega

theorem runsEnd_concat (pos : Int) (rs : List (Run Int)) (r : Run Int) :
    runsEnd pos (rs ++ [r]) = runsEnd pos rs + r.zeros + r.count := by
  simp [runsEnd, Run.cells, Int.add_assoc]

variable {O : Type} {put : PutRange O}

theorem putRuns_concat (rs : List (Run Int)) (r : Run Int) :
    ∀ (pos : Int) (o : O), putRuns put pos o (rs ++ [r]) =
      put (putRuns put pos o rs) (runsEnd pos rs + r.zeros) r.value r.zeros
        r.count := by
  induction rs with
  | nil => intro pos o; simp [putRuns, runsEnd]
  | cons r' rs ih =>
      intro pos o
      rw [List.cons_append, putRuns, putRuns, ih, runsEnd_cons]

/-- The loop has read the pixels up to `ip`, and `r` is what the scanner of
those pixels holds. -/
structure PixScan.Reads (put : PutRange O) (o : O) (xs : Int) (s : PixScan O)
    (ip : Int) (r : Scan Int) : Prop where
  out : s.out = putRuns put xs o r.runs
  start : s.iz = runsEnd xs r.runs
  value : r.pending.value = s.pv
  zero : s.pv = 0 → r.pending.count = 0 ∧ s.x1 = s.iz ∧
    (r.pending.zeros : Int) = ip + 1 - s.iz
  nonzero : s.pv ≠ 0 → r.pending.count ≠ 0 ∧
    (r.pending.zeros : Int) = s.x1 - s.iz ∧
    (r.pending.count : Int) = ip + 1 - s.x1

theorem PixScan.Reads.step {o : O} {xs : Int} {px : Int → Int} {xe ip : Int}
    {s : PixScan O} {r : Scan Int} (h : s.Reads put o xs ip r) (hip : ip < xe) :
    (s.step put px xe ip).Reads put o xs (ip + 1)
      (r.push 1 (max 0 (px (ip + 1)))) := by
  obtain ⟨hout, hstart, hvalue, hzero, hnonzero⟩ := h
  simp only [PixScan.step, if_pos hip]
  generalize max 0 (px (ip + 1)) = nv
  by_cases hsame : nv = s.pv
  · subst hsame
    rw [if_pos rfl]
    by_cases hpv : s.pv = 0
    · obtain ⟨hcount, hx1, hzeros⟩ := hzero hpv
      have hpush : r.push 1 s.pv =
          ⟨r.runs, { r.pending with zeros := r.pending.zeros + 1 }⟩ := by
        simp [Scan.push, hpv, hcount]
      rw [hpush]
      exact ⟨hout, hstart, hvalue,
        fun _ => ⟨hcount, hx1, by push_cast; omega⟩, fun h => absurd hpv h⟩
    · obtain ⟨hcount, hzeros, hlen⟩ := hnonzero hpv
      have hpush : r.push 1 s.pv =
          ⟨r.runs, { r.pending with count := r.pending.count + 1 }⟩ := by
        simp [Scan.push, hpv, hcount, hvalue]
      rw [hpush]
      exact ⟨hout, hstart, hvalue, fun h => absurd h hpv,
        fun _ => ⟨Nat.succ_ne_zero _, hzeros, by push_cast; omega⟩⟩
  · rw [if_neg hsame]
    by_cases hpv : s.pv = 0
    · obtain ⟨hcount, hx1, hzeros⟩ := hzero hpv
      have hnv : nv ≠ 0 := fun h => hsame (h.trans hpv.symm)
      have hpush : r.push 1 nv = ⟨r.runs, ⟨r.pending.zeros, nv, 1⟩⟩ := by
        simp [Scan.push, hnv, hcount]
      rw [if_pos hpv, hpush]
      exact ⟨hout, hstart, rfl, fun h => absurd h hnv,
        fun _ => ⟨Nat.one_ne_zero, by simp only; omega,
          by simp only; omega⟩⟩
    · obtain ⟨hcount, hzeros, hlen⟩ := hnonzero hpv
      have hnp : ip - s.x1 + 1 = r.pending.count := by omega
      have hx1 : s.x1 = runsEnd xs r.runs + r.pending.zeros := by omega
      have hruns : (s.flush put s.x1 ip nv).out =
          putRuns put xs o (r.runs ++ [r.pending]) := by
        rw [putRuns_concat, ← hout, ← hx1, hvalue, ← hnp, hzeros]
        rfl
      have hend : ip + 1 = runsEnd xs (r.runs ++ [r.pending]) := by
        rw [runsEnd_concat]
        omega
      have hpush : r.push 1 nv = ⟨r.runs ++ [r.pending],
          if nv = 0 then ⟨1, 0, 0⟩ else ⟨0, nv, 1⟩⟩ := by
        unfold Scan.push
        by_cases hnv : nv = 0 <;> simp [hnv, hcount, hvalue, hsame]
      rw [if_neg hpv, hpush]
      refine ⟨hruns, hend, ?_, ?_, ?_⟩
      · by_cases hnv : nv = 0 <;> simp [PixScan.flush, hnv]
      · intro hnv
        simp only [PixScan.flush] at hnv ⊢
        simp only [hnv, if_true, true_and]
        omega
      · intro hnv
        simp only [PixScan.flush] at hnv ⊢
        simp only [hnv, if_false, ne_eq, Nat.one_ne_zero, not_false_iff,
          true_and]
        omega

theorem PixScan.Reads.last {o : O} {xs : Int} {px : Int → Int} {xe : Int}
    {s : PixScan O} {r : Scan Int} (h : s.Reads put o xs xe r) :
    (s.step put px xe xe).out = putRuns put xs o (r.runs ++ [r.pending]) := by
  obtain ⟨hout, hstart, hvalue, hzero, hnonzero⟩ := h
  rw [putRuns_concat, ← hout, ← hstart, hvalue, PixScan.step,
    if_neg (Int.lt_irrefl xe)]
  simp only [PixScan.flush]
  by_cases hpv : s.pv = 0
  · obtain ⟨hcount, -, hzeros⟩ := hzero hpv
    have hx1 : s.iz + r.pending.zeros = xe + 1 := by omega
    have hnp : xe - (xe + 1) + 1 = (r.pending.count : Int) := by omega
    rw [if_pos hpv, hnp, ← hzeros, hx1]
  · obtain ⟨-, hzeros, hlen⟩ := hnonzero hpv
    have hx1 : s.iz + r.pending.zeros = s.x1 := by omega
    have hnp : xe - s.x1 + 1 = (r.pending.count : Int) := by omega
    rw [if_neg hpv, hnp, ← hzeros, hx1]

theorem PixScan.Reads.loop {o : O} {xs : Int} {px : Int → Int} {xe : Int}
    (n : Nat) : ∀ {ip : Int} {s : PixScan O} {r : Scan Int},
      s.Reads put o xs ip r → xe = ip + n →
      (PixScan.loop put px xe (n + 1) ip s).out =
        putRuns put xs o ((scan r (pixels px (ip + 1) n)).runs ++
          [(scan r (pixels px (ip + 1) n)).pending]) := by
  induction n with
  | zero =>
      intro ip s r h hxe
      obtain rfl : xe = ip := by omega
      exact h.last
  | succ n ih =>
      intro ip s r h hxe
      rw [PixScan.loop, ih (h.step (by omega)) (by omega), pixels_succ,
        scan_cons]

theorem scanPixels_eq (o : O) (px : Int → Int) (xs : Int) {npix : Int}
    (hnpix : 0 < npix) :
    scanPixels put o px xs npix = putRuns put xs o
      ((lineRuns (pixels px xs npix.toNat)).runs ++
        [(lineRuns (pixels px xs npix.toNat)).pending]) := by
  obtain ⟨n, hn⟩ : ∃ n : Nat, npix.toNat = n + 1 :=
    ⟨npix.toNat - 1, by omega⟩
  have hreads : PixScan.Reads put o xs ⟨o, max 0 (px xs), xs, xs⟩ xs
      (Scan.start.push 1 (max 0 (px xs))) := by
    generalize max 0 (px xs) = pv
    by_cases hpv : pv = 0
    · subst hpv
      exact ⟨rfl, by simp [Scan.push, Scan.start, runsEnd], rfl,
        fun _ => ⟨rfl, rfl, by simp [Scan.push, Scan.start]⟩,
        fun h => absurd rfl h⟩
    · have hpush : Scan.start.push 1 pv = ⟨[], ⟨0, pv, 1⟩⟩ := by
        simp [Scan.push, Scan.start, hpv]
      rw [hpush]
      exact ⟨rfl, by simp [runsEnd], rfl, fun h => absurd h hpv,
        fun _ => by simp⟩
  have hloop := @PixScan.Reads.loop _ _ _ _ px _ n _ _ _ hreads
    (show xs + npix - 1 = xs + n by omega)
  rw [scanPixels, hn, pixels_succ, hloop, lineRuns, scan_cons]

/-! ## Line lists -/

/-- Encode a range as `pl_p2l` does. -/
def putLineRange : PutRange Encoder := fun e _ pv nz np =>
  encodeRange (iDatamax - 1) true e pv nz np

/-- The list stored in `ll_dst`; its length is the value of the function.
Nothing is stored when there are no pixels. -/
def plP2l (px : Int → Int) (xs npix : Int) : List Int :=
  if npix ≤ 0 then []
  else
    let e := scanPixels putLineRange ⟨1, []⟩ px xs npix
    header 0 (llCurhdrlen + e.ll.length) 0 ++ e.ll

theorem putRuns_putLineRange (rs : List (Run Int)) :
    ∀ (pos : Int) (e : Encoder), putRuns putLineRange pos e rs =
      rs.foldl (encodeRun (iDatamax - 1)) e := by
  induction rs with
  | nil => intros; rfl
  | cons r rs ih => intro pos e; rw [putRuns, ih]; rfl

theorem plP2l_eq (px : Int → Int) (xs : Int) {npix : Int} (hnpix : 0 < npix) :
    plP2l px xs npix =
      packLine (iDatamax - 1) (pixels px xs npix.toNat) := by
  have hscan : scanPixels putLineRange ⟨1, []⟩ px xs npix =
      encodeScan (iDatamax - 1) (lineRuns (pixels px xs npix.toNat)) := by
    rw [scanPixels_eq _ _ _ hnpix, putRuns_putLineRange, List.foldl_concat]
    rfl
  rw [plP2l, if_neg (by omega), hscan]
  rfl

end Iraf.Plio
