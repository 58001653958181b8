import Iraf.Lib.RunLength
import Iraf.Plio.Instruction

/-!
# Encoding a line list

The block of code that regenerates a range of pixels after some zeros stands in
three procedures of the source; they differ in the length at which a run of
zeros is cut and in when a single pixel may join the zeros before it.
`encodeRange` is that block.  `plP2l` is the loop that feeds it the ranges of a
pixel array.
-/

namespace Iraf.Plio

open RunLength

/-- The current high value and the words written after the header. -/
structure Encoder where
  hi : Int
  ll : List Int
  deriving DecidableEq, Repr

/-- `for (; n > 0; n = n - lim) output mask + min (lim, n)`. -/
def runWords (mask lim : Int) : Nat → Int → List Int
  | 0, _ => []
  | fuel + 1, n =>
      if n > 0 then (mask + min lim n) :: runWords mask lim fuel (n - lim)
      else []

/-- Rewrite the word stored last, at `op - 1`. -/
def rewriteLast (f : Int → Int) (ll : List Int) : List Int :=
  ll.dropLast ++ (ll.getLast?.map f).toList

/-- Output the zeros up to the current range and then the range. -/
def putRange (zlim : Int) (pnOk : Bool) (e : Encoder) (pv nz np : Int) :
    Encoder :=
  if nz > 0 then
    let ll := e.ll ++ runWords mZn zlim nz.toNat nz
    -- Convert to PN if range is a single pixel.
    if np = 1 ∧ pv > 0 ∧ pnOk then
      { e with ll := rewriteLast (fun w => w + mPn + 1) ll }
    else { e with ll := ll ++ runWords mHn iDatamax np.toNat np }
  else { e with ll := e.ll ++ runWords mHn iDatamax np.toNat np }

/-- Encode the instructions that regenerate `nz` zeros and `np` pixels of level
`pv`, changing the high value first when it differs. -/
def encodeRange (zlim : Int) (pnOk : Bool) (e : Encoder) (pv nz np : Int) :
    Encoder :=
  let dv := pv - e.hi
  if pv > 0 ∧ dv ≠ 0 then
    if (dv.natAbs : Int) > iDatamax then
      putRange zlim pnOk
        ⟨pv, e.ll ++ [mSh + Int.land pv iDatamax, toShort (pv.tdiv iShift)]⟩
        pv nz np
    else
      let w := if dv < 0 then mDh + -dv else mIh + dv
      -- Convert to IS or DS if range is a single pixel.
      if np = 1 ∧ nz = 0 then ⟨pv, e.ll ++ [Int.lor w mMove]⟩
      else putRange zlim pnOk ⟨pv, e.ll ++ [w]⟩ pv nz np
  else putRange zlim pnOk e pv nz np

/-! ## The instructions of one range -/

/-- The lengths of the pieces a run is cut into. -/
def pieces (lim n : Nat) : List Nat :=
  if n = 0 then []
  else List.replicate ((n - 1) / lim) lim ++ [(n - 1) % lim + 1]

theorem pieces_of_le {lim n : Nat} (hn : 0 < n) (hle : n ≤ lim) :
    pieces lim n = [n] := by
  have hn0 : n ≠ 0 := by omega
  have hlt : n - 1 < lim := by omega
  rw [pieces, if_neg hn0, Nat.div_eq_of_lt hlt, Nat.mod_eq_of_lt hlt]
  simp only [List.replicate_zero, List.nil_append]
  congr 1
  omega

theorem pieces_add {lim n : Nat} (hlim : 0 < lim) (hn : 0 < n) :
    pieces lim (lim + n) = lim :: pieces lim n := by
  have hsum : lim + n - 1 = (n - 1) + lim := by omega
  have hne : lim + n ≠ 0 := by omega
  have hn0 : n ≠ 0 := by omega
  rw [pieces, if_neg hne, hsum, Nat.add_div_right _ hlim, Nat.add_mod_right,
    pieces, if_neg hn0, List.replicate_succ]
  rfl

theorem runWords_eq (mask : Int) {lim : Nat} (hlim : 0 < lim) (fuel : Nat) :
    ∀ n : Nat, n ≤ fuel →
      runWords mask lim fuel n = (pieces lim n).map fun c => mask + (c : Int) := by
  induction fuel with
  | zero =>
      intro n hn
      obtain rfl : n = 0 := by omega
      rfl
  | succ fuel ih =>
      intro n hn
      rcases Nat.eq_zero_or_pos n with rfl | hpos
      · simp [runWords, pieces]
      have hgt : (n : Int) > 0 := by omega
      rw [runWords, if_pos hgt]
      rcases Nat.lt_or_ge lim n with hlt | hge
      · obtain ⟨m, rfl⟩ : ∃ m, n = lim + m := ⟨n - lim, by omega⟩
        have hmin : min (lim : Int) ((lim + m : Nat) : Int) = lim := by omega
        have hrest : ((lim + m : Nat) : Int) - lim = (m : Nat) := by omega
        rw [pieces_add hlim (by omega), hmin, hrest, ih m (by omega)]
        rfl
      · have hmin : min (lim : Int) (n : Int) = n := by omega
        rw [pieces_of_le hpos hge, hmin]
        have hrest : (n : Int) - lim ≤ 0 := by omega
        cases fuel with
        | zero => rfl
        | succ fuel =>
            rw [runWords, if_neg (by omega)]
            rfl

theorem sum_pieces {lim n : Nat} : (pieces lim n).sum = n := by
  unfold pieces
  split
  next h => simp [h]
  next h =>
    have := Nat.div_add_mod (n - 1) lim
    rw [List.sum_append, List.sum_replicate_nat, List.sum_singleton,
      Nat.mul_comm]
    omega

theorem mem_pieces {lim n c : Nat} (hlim : 0 < lim) (hc : c ∈ pieces lim n) :
    1 ≤ c ∧ c ≤ lim := by
  unfold pieces at hc
  split at hc
  next => simp at hc
  next =>
    rcases List.mem_append.mp hc with hc | hc
    · rw [List.eq_of_mem_replicate hc]
      omega
    · rw [List.mem_singleton.mp hc]
      have := Nat.mod_lt (n - 1) hlim
      omega

/-- The instruction that changes the high value without output. -/
def highInstrs (hi pv : Int) : List Instr :=
  if 0 < pv ∧ pv ≠ hi then
    if 4095 < (pv - hi).natAbs then [.sh pv]
    else if pv < hi then [.dh (hi - pv).toNat]
    else [.ih (pv - hi).toNat]
  else []

/-- The instructions that output zeros and then a range.  A last piece of 4095
zeros leaves no room for the pixel of a PN: the sum is the code of an IS. -/
def rangeInstrs (zlim : Nat) (pnOk : Bool) (pv : Int) (nz np : Nat) :
    List Instr :=
  if 0 < nz ∧ np = 1 ∧ 0 < pv ∧ pnOk then
    (List.replicate ((nz - 1) / zlim) zlim).map .zn ++
      [if (nz - 1) % zlim + 1 = 4095 then .is 0
        else .pn ((nz - 1) % zlim + 2)]
  else (pieces zlim nz).map .zn ++ (pieces 4095 np).map .hn

def encodeInstrs (zlim : Nat) (pnOk : Bool) (hi pv : Int) (nz np : Nat) :
    List Instr :=
  if 0 < pv ∧ pv ≠ hi ∧ (pv - hi).natAbs ≤ 4095 ∧ np = 1 ∧ nz = 0 then
    [if pv < hi then .ds (hi - pv).toNat else .is (pv - hi).toNat]
  else highInstrs hi pv ++ rangeInstrs zlim pnOk pv nz np

theorem land_datamax {x : Int} (hx : 0 ≤ x) :
    Int.land x iDatamax = x % 4096 := by
  obtain ⟨m, rfl⟩ := Int.eq_ofNat_of_zero_le hx
  change ((m &&& 4095 : Nat) : Int) = _
  rw [show (4095 : Nat) = 2 ^ 12 - 1 from rfl, Nat.and_two_pow_sub_one_eq_mod]
  rfl

theorem lor_move {w : Int} (hlo : 0 ≤ w) (hhi : w < 16384) :
    Int.lor w mMove = mMove + w := by
  obtain ⟨m, rfl⟩ := Int.eq_ofNat_of_zero_le hlo
  have hsum : 2 ^ 14 * 1 + m = 2 ^ 14 * 1 ||| m :=
    Nat.two_pow_add_eq_or_of_lt (by omega) 1
  change ((m ||| 16384 : Nat) : Int) = _
  rw [Nat.or_comm, show (16384 : Nat) = 2 ^ 14 * 1 from rfl, ← hsum]
  simp

@[simp] theorem rewriteLast_append (f : Int → Int) (ll : List Int) (w : Int) :
    rewriteLast f (ll ++ [w]) = ll ++ [f w] := by
  simp [rewriteLast]

private theorem packed_map_single (f : Nat → Instr) (mask : Int)
    (hf : ∀ n, (f n).words = [mask + n]) (ns : List Nat) :
    packed (ns.map f) = ns.map fun n => mask + (n : Int) := by
  induction ns with
  | nil => rfl
  | cons n ns ih => simp [ih, hf]

theorem packed_zn (ns : List Nat) :
    packed (ns.map .zn) = ns.map fun n => mZn + (n : Int) :=
  packed_map_single .zn mZn (fun _ => rfl) ns

theorem packed_hn (ns : List Nat) :
    packed (ns.map .hn) = ns.map fun n => mHn + (n : Int) :=
  packed_map_single .hn mHn (fun _ => rfl) ns

theorem putRange_eq {zlim : Nat} (hlo : 0 < zlim) (pnOk : Bool) (e : Encoder)
    (pv : Int) (nz np : Nat) :
    putRange zlim pnOk e pv nz np =
      { e with ll := e.ll ++ packed (rangeInstrs zlim pnOk pv nz np) } := by
  have hzeros : runWords mZn zlim (nz : Int).toNat nz =
      (pieces zlim nz).map fun c => mZn + (c : Int) :=
    runWords_eq mZn hlo _ nz (by simp)
  have hpixels : runWords mHn iDatamax (np : Int).toNat np =
      (pieces 4095 np).map fun c => mHn + (c : Int) :=
    runWords_eq mHn (show 0 < 4095 by decide) _ np (by simp)
  unfold putRange rangeInstrs
  rw [hzeros, hpixels]
  rcases Nat.eq_zero_or_pos nz with rfl | hpos
  · simp [pieces, packed_hn]
  have hgt : (nz : Int) > 0 := by omega
  have hnz : nz ≠ 0 := by omega
  rw [if_pos hgt]
  by_cases hsingle : np = 1 ∧ 0 < pv ∧ pnOk = true
  · obtain ⟨rfl, hpv, hpn⟩ := hsingle
    have hwords : e.ll ++ (pieces zlim nz).map (fun c => mZn + (c : Int)) =
        (e.ll ++ (List.replicate ((nz - 1) / zlim) zlim).map
          fun c => mZn + (c : Int)) ++
            [mZn + (((nz - 1) % zlim + 1 : Nat) : Int)] := by
      simp [pieces, hnz]
    rw [if_pos ⟨rfl, hpv, hpn⟩, if_pos ⟨hpos, rfl, hpv, hpn⟩]
    simp only [hwords, rewriteLast_append, packed_append]
    congr 1
    rw [List.append_assoc, ← packed_zn]
    congr 2
    split
    next h => simp [packed, Instr.words, h]
    next h => simp [packed, Instr.words]; omega
  · have hcond : ¬ ((np : Int) = 1 ∧ pv > 0 ∧ pnOk = true) := by
      rintro ⟨h1, h2⟩
      exact hsingle ⟨by omega, h2⟩
    rw [if_neg hcond, if_neg fun h => hsingle h.2]
    simp [packed_zn, packed_hn]

@[simp] theorem finalHigh_rangeInstrs (zlim : Nat) (pnOk : Bool) (hi pv : Int)
    (nz np : Nat) : finalHigh hi (rangeInstrs zlim pnOk pv nz np) = hi := by
  unfold rangeInstrs
  split
  next =>
    rw [finalHigh_append, finalHigh_zn]
    split <;> simp [Instr.high]
  next => simp

theorem finalHigh_highInstrs (hi pv : Int) :
    finalHigh hi (highInstrs hi pv) = if 0 < pv then pv else hi := by
  unfold highInstrs
  by_cases hpos : 0 < pv
  · by_cases hne : pv = hi
    · simp [hne]
    · rw [if_pos ⟨hpos, hne⟩, if_pos hpos]
      split
      next => rfl
      next =>
        split <;> simp only [finalHigh_cons, finalHigh_nil, Instr.high] <;>
          omega
  · rw [if_neg fun h => hpos h.1, if_neg hpos]
    rfl

theorem encodeRange_eq {zlim : Nat} (hlo : 0 < zlim) (pnOk : Bool)
    (e : Encoder) {pv : Int} (hpv : pv ≤ iPvmax) (nz np : Nat) :
    encodeRange zlim pnOk e pv nz np =
      ⟨finalHigh e.hi (encodeInstrs zlim pnOk e.hi pv nz np),
        e.ll ++ packed (encodeInstrs zlim pnOk e.hi pv nz np)⟩ := by
  have hput : ∀ (hi : Int) (is : List Instr),
      putRange zlim pnOk ⟨hi, e.ll ++ packed is⟩ pv nz np =
        ⟨hi, e.ll ++ packed (is ++ rangeInstrs zlim pnOk pv nz np)⟩ := by
    intro hi is
    rw [putRange_eq hlo]
    simp
  unfold encodeRange encodeInstrs
  by_cases hchange : 0 < pv ∧ pv ≠ e.hi
  · obtain ⟨hpos, hne⟩ := hchange
    have hif : pv > 0 ∧ pv - e.hi ≠ 0 := ⟨hpos, by omega⟩
    simp only [if_pos hif]
    by_cases hfar : 4095 < (pv - e.hi).natAbs
    · have hfar' : ((pv - e.hi).natAbs : Int) > iDatamax := by
        simp only [iDatamax]; omega
      have hstep : ¬ (0 < pv ∧ pv ≠ e.hi ∧ (pv - e.hi).natAbs ≤ 4095 ∧
          np = 1 ∧ nz = 0) := by omega
      have hwords : [mSh + Int.land pv iDatamax, toShort (pv.tdiv iShift)] =
          packed [.sh pv] := by
        simp only [iPvmax] at hpv
        rw [land_datamax (by omega), Int.tdiv_eq_ediv_of_nonneg (by omega),
          toShort_of_mem (by simp only [iShift]; omega)
            (by simp only [iShift]; omega)]
        rfl
      rw [if_pos hfar', if_neg hstep, hwords, hput, highInstrs,
        if_pos ⟨hpos, hne⟩, if_pos hfar]
      simp [Instr.high]
    · have hnear : ¬ ((pv - e.hi).natAbs : Int) > iDatamax := by
        simp only [iDatamax]; omega
      rw [if_neg hnear]
      by_cases hstep : np = 1 ∧ nz = 0
      · have hstep' : 0 < pv ∧ pv ≠ e.hi ∧ (pv - e.hi).natAbs ≤ 4095 ∧
            np = 1 ∧ nz = 0 := ⟨hpos, hne, by omega, hstep⟩
        have hstepInt : (np : Int) = 1 ∧ (nz : Int) = 0 := by omega
        rw [if_pos hstepInt, if_pos hstep']
        by_cases hdown : pv < e.hi
        · have hneg : pv - e.hi < 0 := by omega
          rw [if_pos hneg, if_pos hdown,
            lor_move (by simp only [mDh]; omega) (by simp only [mDh]; omega)]
          simp [Instr.high, Instr.words]
          omega
        · have hneg : ¬ pv - e.hi < 0 := by omega
          rw [if_neg hneg, if_neg hdown,
            lor_move (by simp only [mIh]; omega) (by simp only [mIh]; omega)]
          simp [Instr.high, Instr.words]
          omega
      · have hstep' : ¬ (0 < pv ∧ pv ≠ e.hi ∧ (pv - e.hi).natAbs ≤ 4095 ∧
            np = 1 ∧ nz = 0) := fun h => hstep h.2.2.2
        have hstepInt : ¬ ((np : Int) = 1 ∧ (nz : Int) = 0) := by omega
        have hwords :
            [if pv - e.hi < 0 then mDh + -(pv - e.hi) else mIh + (pv - e.hi)] =
              packed (highInstrs e.hi pv) := by
          rw [highInstrs, if_pos (And.intro hpos hne), if_neg hfar]
          by_cases hdown : pv < e.hi
          · have hneg : pv - e.hi < 0 := by omega
            rw [if_pos hdown, if_pos hneg]
            simp [Instr.words]
            omega
          · have hneg : ¬ pv - e.hi < 0 := by omega
            rw [if_neg hdown, if_neg hneg]
            simp [Instr.words]
            omega
        rw [if_neg hstepInt, if_neg hstep', hwords, hput]
        simp [finalHigh_highInstrs, hpos]
  · have hif : ¬ (pv > 0 ∧ pv - e.hi ≠ 0) := by omega
    have hstep : ¬ (0 < pv ∧ pv ≠ e.hi ∧ (pv - e.hi).natAbs ≤ 4095 ∧
        np = 1 ∧ nz = 0) := fun h => hchange ⟨h.1, h.2.1⟩
    rw [if_neg hif, if_neg hstep, putRange_eq hlo, highInstrs, if_neg hchange]
    simp

theorem rangeInstrs_ok {zlim : Nat} (hlo : 0 < zlim) (hhi : zlim ≤ 4095)
    (pnOk : Bool) (pv : Int) (nz np : Nat) :
    ∀ i ∈ rangeInstrs zlim pnOk pv nz np, i.Ok := by
  have hrem := Nat.mod_lt (nz - 1) hlo
  intro i hi
  unfold rangeInstrs at hi
  split at hi
  next =>
    rcases List.mem_append.mp hi with hi | hi
    · obtain ⟨n, hn, rfl⟩ := List.mem_map.mp hi
      rw [List.eq_of_mem_replicate hn]
      exact ⟨hlo, hhi⟩
    · rw [List.mem_singleton.mp hi]
      split
      next => exact Nat.zero_le _
      next => exact ⟨by omega, by omega⟩
  next =>
    rcases List.mem_append.mp hi with hi | hi
    · obtain ⟨n, hn, rfl⟩ := List.mem_map.mp hi
      have := mem_pieces hlo hn
      exact ⟨this.1, by omega⟩
    · obtain ⟨n, hn, rfl⟩ := List.mem_map.mp hi
      exact mem_pieces (by decide) hn

theorem encodeInstrs_ok {zlim : Nat} (hlo : 0 < zlim) (hhi : zlim ≤ 4095)
    (pnOk : Bool) (hi : Int) {pv : Int} (hpv : pv ≤ iPvmax) (nz np : Nat) :
    ∀ i ∈ encodeInstrs zlim pnOk hi pv nz np, i.Ok := by
  intro i hmem
  unfold encodeInstrs at hmem
  split at hmem
  next hstep =>
    rw [List.mem_singleton.mp hmem]
    split <;> simp only [Instr.Ok] <;> omega
  next =>
    rcases List.mem_append.mp hmem with hmem | hmem
    · unfold highInstrs at hmem
      split at hmem
      next hne =>
        split at hmem
        next =>
          rw [List.mem_singleton.mp hmem]
          exact ⟨by omega, hpv⟩
        next =>
          split at hmem <;>
            rw [List.mem_singleton.mp hmem] <;> simp only [Instr.Ok] <;> omega
      next => simp at hmem
    · exact rangeInstrs_ok hlo hhi pnOk pv nz np i hmem

/-- The zeros that are lost when a single pixel joins a piece of 4095. -/
def lostZeros (zlim : Nat) (pnOk : Bool) (pv : Int) (nz np : Nat) : Nat :=
  if 0 < nz ∧ np = 1 ∧ 0 < pv ∧ pnOk ∧ (nz - 1) % zlim + 1 = 4095 then 4095
  else 0

theorem expand_rangeInstrs {zlim : Nat} (pnOk : Bool) (pv : Int)
    (nz np : Nat) :
    expand pv (rangeInstrs zlim pnOk pv nz np) =
      List.replicate (nz - lostZeros zlim pnOk pv nz np) 0 ++
        List.replicate np pv := by
  have hdiv := Nat.div_add_mod (nz - 1) zlim
  unfold rangeInstrs lostZeros
  by_cases hsingle : 0 < nz ∧ np = 1 ∧ 0 < pv ∧ pnOk = true
  · obtain ⟨hnz, rfl, hpv, hpn⟩ := hsingle
    rw [if_pos ⟨hnz, rfl, hpv, hpn⟩]
    rw [expand_append, expand_zn, finalHigh_zn, List.sum_replicate_nat,
      Nat.mul_comm]
    by_cases hfull : (nz - 1) % zlim + 1 = 4095
    · have hzeros : zlim * ((nz - 1) / zlim) = nz - 4095 := by omega
      rw [if_pos hfull, if_pos ⟨hnz, rfl, hpv, hpn, hfull⟩, hzeros]
      simp [Instr.output, Instr.high]
    · have hzeros : zlim * ((nz - 1) / zlim) + ((nz - 1) % zlim + 1) = nz := by
        omega
      rw [if_neg hfull, if_neg fun h => hfull h.2.2.2.2]
      simp only [expand_cons, expand_nil, Instr.output, Instr.high,
        List.append_nil, List.replicate_one, Nat.sub_zero]
      rw [← List.append_assoc, List.replicate_append_replicate]
      congr 2
  · rw [if_neg hsingle,
      if_neg fun h => hsingle ⟨h.1, h.2.1, h.2.2.1, h.2.2.2.1⟩]
    simp [sum_pieces]

theorem expand_encodeInstrs {zlim : Nat} (pnOk : Bool) (hi : Int) {pv : Int}
    (nz : Nat) {np : Nat} (hpv : 0 < pv ∨ np = 0) :
    expand hi (encodeInstrs zlim pnOk hi pv nz np) =
      List.replicate (nz - lostZeros zlim pnOk pv nz np) 0 ++
        List.replicate np pv := by
  have hsilent : expand hi (highInstrs hi pv) = [] := by
    unfold highInstrs
    split
    next => split <;> [rfl; split <;> rfl]
    next => rfl
  unfold encodeInstrs
  split
  next hstep =>
    obtain ⟨hpos, hne, hnear, rfl, rfl⟩ := hstep
    split
    next =>
      have hvalue : hi - ((hi - pv).toNat : Int) = pv := by omega
      simp only [expand_cons, Instr.output, Instr.high, hvalue]
      rfl
    next =>
      have hvalue : hi + ((pv - hi).toNat : Int) = pv := by omega
      simp only [expand_cons, Instr.output, Instr.high, hvalue]
      rfl
  next =>
    rw [expand_append, hsilent, finalHigh_highInstrs, List.nil_append]
    split
    next => exact expand_rangeInstrs pnOk pv nz np
    next hneg =>
      obtain rfl : np = 0 := by omega
      have hnone : pieces 4095 0 = [] := rfl
      simp [rangeInstrs, lostZeros, sum_pieces, hneg, hnone]

theorem finalHigh_encodeInstrs {zlim : Nat} (pnOk : Bool) (hi pv : Int)
    (nz np : Nat) :
    finalHigh hi (encodeInstrs zlim pnOk hi pv nz np) =
      if 0 < pv then pv else hi := by
  unfold encodeInstrs
  split
  next hstep =>
    rw [if_pos hstep.1]
    split <;> simp only [finalHigh_cons, finalHigh_nil, Instr.high] <;> omega
  next => rw [finalHigh_append, finalHigh_rangeInstrs, finalHigh_highInstrs]

end Iraf.Plio
