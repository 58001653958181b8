import Iraf.Fmtio.GctolTokens

/-!
# Integers as text in any radix

`gltoc.x`, and `gctol.x` with the arithmetic of a `long` of `w` bits.  The text that
`gltoc` leaves is the list of its chars; they are generated from the last one on.
-/

namespace Iraf.Fmtio.LongText

open Numeral Gctol

/-- `MAX_LONG`, of `mach32.h` as of `mach64.h`. -/
def maxLong : Nat := 2147483647

def maxRadix : Int := 'Z'.toNat - 'A'.toNat + 11

/-- The char that is stored for a digit. -/
def radixChar (d : Int) : Char :=
  if d < 10 then Char.ofNat (d + '0'.toNat).toNat else Char.ofNat (d - 10 + 'A'.toNat).toNat

namespace Gltoc

/-- What the loop changes; the chars are those stored, the last one first. -/
structure State where
  n : Int
  carry : Int
  out : List Char
  deriving DecidableEq

def pass (radix : Int) (unsigned : Bool) (s : State) : State :=
  let d := |s.n.tmod radix|
  if unsigned then
    let d := 2 * d + s.carry
    if d ≥ radix then ⟨s.n.tdiv radix, 1, radixChar (d - radix) :: s.out⟩
    else ⟨s.n.tdiv radix, 0, radixChar d :: s.out⟩
  else ⟨s.n.tdiv radix, s.carry, radixChar d :: s.out⟩

/-- The loop, which takes at most one pass for each bit of `n`. -/
def loop (radix : Int) (unsigned : Bool) (size : Nat) : Nat → State → State
  | 0, s => s
  | fuel + 1, s =>
      let s := pass radix unsigned s
      if s.n = 0 ∨ s.out.length ≥ size then s else loop radix unsigned size fuel s

variable {w : Nat}

/-- The number that digits are generated from and the first carry. -/
def start (lval : BitVec w) (unsigned : Bool) : State :=
  if unsigned then
    let n := (lval &&& BitVec.ofNat w maxLong).toInt.tdiv 2
    let n :=
      if lval.toInt < 0 then
        (BitVec.ofInt w n ||| BitVec.ofNat w (maxLong / 2 + 1)).toInt
      else n
    ⟨n, (lval &&& 1).toInt, []⟩
  else ⟨lval.toInt, 0, []⟩

/-- The last carry or the sign, for which there may be no room. -/
def finish (lval : BitVec w) (unsigned : Bool) (size : Nat) (s : State) : List Char :=
  if unsigned then
    if s.carry ≠ 0 ∧ s.out.length < size then '1' :: s.out else s.out
  else if lval.toInt < 0 ∧ s.out.length < size then '-' :: s.out
  else s.out

end Gltoc

open Gltoc

variable {w : Nat}

def gltoc (lval : BitVec w) (maxch : Nat) (base : Int) : List Char :=
  if lval.toInt = indefl ∧ base > 0 then indef.take maxch
  else
    let radix := max 2 (min maxRadix |base|)
    finish lval (base < 0) maxch
      (loop radix (base < 0) maxch w (start lval (base < 0)))

namespace Gctol

def scanLong (base : Int) : List Char → BitVec w → Char → Nat → BitVec w × Char × Nat
  | [], lval, ch, n => (lval, ch, n)
  | c :: str, lval, _, n =>
      match digitOf base c with
      | (none, ch) => (lval, ch, n)
      | (some digit, ch) =>
          if digit < 0 ∨ digit ≥ base then (lval, ch, n)
          else scanLong base str
            (lval * BitVec.ofInt w base + BitVec.ofInt w digit) ch (n + 1)

/-- As `Result`, with the number as it is in a `long`. -/
structure LongResult (w : Nat) where
  nchars : Int
  lval : BitVec w
  used : Nat
  deriving DecidableEq

end Gctol

def gctolLong (w : Nat) (str : List Char) (radix : Int) : LongResult w :=
  let white := (str.takeWhile isWhite).length
  let start := str.drop white
  let (neg, nsign) := sign start
  let (lval, ch, n) := scanLong |radix| (start.drop nsign) (0 : BitVec w) '\x00' 0
  let lval := if neg then -lval else lval
  if n = 0 then ⟨-nsign, lval, white⟩
  else if radix = 8 ∧ ch = 'b' ∨ ch = 'B' then ⟨n + 1, lval, white + nsign + n + 1⟩
  else if radix = 16 ∧ ch = 'x' ∨ ch = 'X' then ⟨n + 1, lval, white + nsign + n + 1⟩
  else ⟨n, lval, white + nsign + n⟩

/-- What `gltoc` leaves in a buffer of `maxch` chars is read as the number it was made
from, to its end. -/
def RoundTrip (lval : BitVec w) (maxch : Nat) (base : Int) : Prop :=
  (gctolLong w (gltoc lval maxch base) base).lval = lval ∧
    (gctolLong w (gltoc lval maxch base) base).used = (gltoc lval maxch base).length

variable {base radix : Int} {lval : BitVec w} {maxch : Nat} {str : List Char} {ch : Char}
  {n : Nat}

/-! ## Reading in a word -/

theorem scanLong_eq (str : List Char) (lval : Int) (ch : Char) (n : Nat) :
    scanLong base str (BitVec.ofInt w lval) ch n =
      (BitVec.ofInt w (scan base str lval ch n).1, (scan base str lval ch n).2) := by
  induction str generalizing lval ch n with
  | nil => rfl
  | cons c str ih =>
      rw [scanLong, scan]
      rcases digitOf base c with ⟨digit | digit, next⟩
      · rfl
      · dsimp only
        by_cases hdigit : digit < 0 ∨ digit ≥ base
        · rw [if_pos hdigit, if_pos hdigit]
        · rw [if_neg hdigit, if_neg hdigit, ← BitVec.ofInt_mul, ← BitVec.ofInt_add, ih]

theorem gctolLong_eq (str : List Char) (radix : Int) :
    gctolLong w str radix =
      ⟨(gctol str radix).nchars, BitVec.ofInt w (gctol str radix).lval,
        (gctol str radix).used⟩ := by
  have hzero : (0 : BitVec w) = BitVec.ofInt w 0 := rfl
  rw [gctolLong, gctol, hzero]
  simp only [scanLong_eq]
  split_ifs <;> simp [BitVec.ofInt_neg]

/-! ## Generating the digits -/

namespace Gltoc

variable {r size : Nat} {unsigned : Bool} {s : State}

/-- The number that is still to be written. -/
def State.rest (unsigned : Bool) (s : State) : Nat :=
  if unsigned then 2 * s.n.natAbs + s.carry.natAbs else s.n.natAbs

/-- The chars of a row of digits. -/
def row (ds : List Nat) : List Char := ds.map fun d : Nat => radixChar d

/-- A carry is a bit, and only numbers without sign have one. -/
def Carries (unsigned : Bool) (s : State) : Prop :=
  if unsigned then 0 ≤ s.carry ∧ s.carry ≤ 1 else s.carry = 0

theorem abs_tmod (n : Int) (r : Nat) : |n.tmod r| = ((n.natAbs % r : Nat) : Int) := by
  rw [Int.abs_eq_natAbs, Int.natAbs_tmod, Int.natAbs_natCast]

theorem pass_spec (hr : 0 < r) (hcarry : Carries unsigned s) :
    ∃ d < r, (pass r unsigned s).out = radixChar d :: s.out ∧
      s.rest unsigned = (pass r unsigned s).rest unsigned * r + d ∧
      Carries unsigned (pass r unsigned s) ∧
      (pass r unsigned s).n.natAbs = s.n.natAbs / r := by
  have hmod := Nat.mod_lt s.n.natAbs hr
  have hdiv := Nat.div_add_mod s.n.natAbs r
  have hn : (s.n.tdiv r).natAbs = s.n.natAbs / r := by
    rw [Int.natAbs_tdiv, Int.natAbs_natCast]
    rfl
  unfold pass
  rw [abs_tmod]
  cases unsigned with
  | false =>
      refine ⟨s.n.natAbs % r, hmod, rfl, ?_, hcarry, hn⟩
      change s.n.natAbs = (s.n.tdiv r).natAbs * r + _
      rw [hn, mul_comm, hdiv]
  | true =>
      obtain ⟨hle, hge⟩ := hcarry
      obtain ⟨c, hc⟩ := Int.eq_ofNat_of_zero_le hle
      have hsplit : 2 * s.n.natAbs = 2 * (s.n.natAbs / r) * r + 2 * (s.n.natAbs % r) := by
        nlinarith [hdiv]
      simp only [if_true]
      split_ifs with hover
      · refine ⟨2 * (s.n.natAbs % r) + c - r, by omega, ?_, ?_, by simp [Carries], hn⟩
        · dsimp only
          congr 2
          omega
        · change 2 * s.n.natAbs + s.carry.natAbs = (2 * (s.n.tdiv r).natAbs + 1) * r + _
          rw [hn, add_mul]
          omega
      · refine ⟨2 * (s.n.natAbs % r) + c, by omega, ?_, ?_, by simp [Carries], hn⟩
        · dsimp only
          congr 2
          omega
        · change 2 * s.n.natAbs + s.carry.natAbs = (2 * (s.n.tdiv r).natAbs + 0) * r + _
          rw [hn, add_zero]
          omega

theorem loop_spec (hr : 1 < r) (fuel : Nat) (s : State) (hcarry : Carries unsigned s)
    (hfuel : s.n.natAbs < r ^ fuel) (hpos : 0 < fuel) (hsize : s.out.length + fuel ≤ size) :
    ∃ ds : List Nat, ds ≠ [] ∧ (∀ d ∈ ds, d < r) ∧ ds.length ≤ fuel ∧
      (loop r unsigned size fuel s).out = row ds ++ s.out ∧
      (loop r unsigned size fuel s).n = 0 ∧ Carries unsigned (loop r unsigned size fuel s) ∧
      s.rest unsigned =
        (loop r unsigned size fuel s).rest unsigned * r ^ ds.length + value r ds := by
  induction fuel generalizing s with
  | zero => omega
  | succ fuel ih =>
      obtain ⟨d, hd, hout, hrest, hcarry', hn⟩ :=
        @pass_spec r unsigned s (by omega) hcarry
      rw [loop]
      by_cases hstop : (pass r unsigned s).n = 0
      · rw [if_pos (.inl hstop)]
        refine ⟨[d], by simp, by simpa using hd, by simp, hout, hstop, hcarry', ?_⟩
        simpa [value] using hrest
      · have hfuel' : (pass r unsigned s).n.natAbs < r ^ fuel := by
          rw [hn]
          exact Nat.div_lt_of_lt_mul (by rwa [← pow_succ'])
        have hpos' : 0 < fuel := by
          rcases Nat.eq_zero_or_pos fuel with rfl | h
          · rw [pow_zero] at hfuel'
            omega
          · exact h
        have hlen : (pass r unsigned s).out.length = s.out.length + 1 := by
          rw [hout, List.length_cons]
        rw [if_neg (by omega)]
        obtain ⟨ds, hne, hlt, hle, hout', hzero, hlast, hsum⟩ :=
          ih _ hcarry' hfuel' hpos' (by omega)
        refine ⟨ds ++ [d], by simp, ?_, by simpa using hle, ?_, hzero, hlast, ?_⟩
        · intro e he
          rcases List.mem_append.1 he with he | he
          · exact hlt e he
          · rwa [List.mem_singleton.1 he]
        · rw [hout', hout, row, row, List.map_append, List.append_assoc]
          rfl
        · rw [hrest, hsum, value, value, List.foldl_append, List.length_append, pow_add]
          simp only [List.foldl_cons, List.foldl_nil, List.length_singleton, pow_one]
          ring

theorem length_pass : (pass radix unsigned s).out.length = s.out.length + 1 := by
  unfold pass
  dsimp only
  split_ifs <;> rfl

theorem length_le_loop (fuel : Nat) (s : State) :
    s.out.length ≤ (loop radix unsigned size fuel s).out.length := by
  induction fuel generalizing s with
  | zero => exact le_rfl
  | succ fuel ih =>
      have hpass := @length_pass radix unsigned s
      rw [loop]
      split
      · omega
      · exact (by omega : s.out.length ≤ (pass radix unsigned s).out.length).trans (ih _)

theorem loop_size {size' : Nat} (fuel : Nat) (s : State)
    (hzero : (loop radix unsigned size fuel s).n = 0)
    (hfits : (loop radix unsigned size fuel s).out.length ≤ size') :
    loop radix unsigned size' fuel s = loop radix unsigned size fuel s := by
  induction fuel generalizing s with
  | zero => rfl
  | succ fuel ih =>
      rw [loop] at hzero hfits ⊢
      rw [loop]
      by_cases hstop : (pass radix unsigned s).n = 0
      · rw [if_pos (.inl hstop), if_pos (.inl hstop)]
      · by_cases hfull : (pass radix unsigned s).out.length ≥ size
        · rw [if_pos (.inr hfull)] at hzero
          exact absurd hzero hstop
        · rw [if_neg (not_or.2 ⟨hstop, hfull⟩)] at hzero hfits ⊢
          -- the loop goes on, so there is room for one more char
          have hnext : ¬ (pass radix unsigned s).out.length ≥ size' := by
            cases fuel with
            | zero => exact absurd hzero hstop
            | succ fuel =>
                have hpass := @length_pass radix unsigned (pass radix unsigned s)
                have hle := @length_le_loop radix size unsigned fuel
                  (pass radix unsigned (pass radix unsigned s))
                rw [loop] at hfits
                split at hfits <;> omega
          rw [if_neg (not_or.2 ⟨hstop, hnext⟩)]
          exact ih _ hzero hfits

/-! ## Reading the digits back -/

theorem radixChar_digit {d : Nat} (hd : d < 10) :
    (radixChar d).isDigit = true ∧ toInteg (radixChar d) = d := by
  interval_cases d <;> decide

theorem radixChar_letter {d : Nat} (hle : 10 ≤ d) (hd : d < 36) :
    (radixChar d).isDigit = false ∧ (radixChar d).isUpper = true ∧
      ((radixChar d).toLower.toNat : Int) - 'a'.toNat + 10 = d := by
  interval_cases d <;> decide

theorem radixChar_start {d : Nat} (hd : d < 36) :
    isWhite (radixChar d) = false ∧ radixChar d ≠ '-' ∧ radixChar d ≠ '+' := by
  interval_cases d <;> decide

theorem digitOf_radixChar {b d : Nat} (hb : b ≤ 36) (hd : d < b) :
    (digitOf b (radixChar d)).1 = some (d : Int) := by
  unfold digitOf
  rcases Nat.lt_or_ge d 10 with hlt | hge
  · obtain ⟨hdigit, hval⟩ := radixChar_digit hlt
    rw [if_pos hdigit, hval]
  · obtain ⟨hdigit, hupper, hval⟩ := radixChar_letter hge (by omega)
    rw [hdigit, if_neg (by decide), if_pos (by omega), if_pos hupper, hval]

theorem scan_row {b : Nat} (hb : b ≤ 36) {ds : List Nat} (hds : ∀ d ∈ ds, d < b) (sum : Nat)
    {ch : Char} (hch : ¬ EatsSuffix b ch) (n : Nat) :
    ∃ last, scan b (row ds) sum ch n =
        (((ds.foldl (fun sum d => sum * b + d) sum : Nat) : Int), last, n + ds.length) ∧
      ¬ EatsSuffix b last := by
  induction ds generalizing sum ch n with
  | nil => exact ⟨ch, rfl, hch⟩
  | cons d ds ih =>
      have hd := hds d List.mem_cons_self
      have hdigit := digitOf_radixChar hb hd
      have hlt : ¬ ((d : Int) < 0 ∨ (d : Int) ≥ b) := by omega
      obtain ⟨last, hscan, hlast⟩ := ih (fun e he => hds e (List.mem_cons_of_mem d he))
        (sum * b + d) (not_eatsSuffix_digit (isDigitOf_iff.2 ⟨d, hdigit, hlt⟩)) (n + 1)
      refine ⟨last, ?_, hlast⟩
      rw [row, List.map_cons, scan]
      rcases hnext : digitOf b (radixChar d) with ⟨digit, next⟩
      rw [hnext] at hdigit hscan
      cases hdigit
      dsimp only
      rw [if_neg hlt, List.foldl_cons, List.length_cons,
        show n + (ds.length + 1) = n + 1 + ds.length by omega, ← hscan]
      push_cast
      rfl

def signText (neg : Bool) : List Char := if neg then ['-'] else []

theorem gctol_row (hb : base.natAbs ≤ 36) {ds : List Nat} (hne : ds ≠ [])
    (hds : ∀ d ∈ ds, d < base.natAbs) (neg : Bool) :
    gctol (signText neg ++ row ds) base =
      ⟨ds.length, if neg then -(value base.natAbs ds : Int) else value base.natAbs ds,
        (signText neg ++ row ds).length⟩ := by
  have hrow : (row ds).length = ds.length := List.length_map _
  obtain ⟨last, hscan, hlast⟩ := scan_row hb hds 0 not_eatsSuffix_null 0
  have heats : ¬ EatsSuffix base last := by
    rintro ((⟨rfl, h⟩ | h) | (⟨rfl, h⟩ | h))
    · exact hlast (.inl (.inl ⟨rfl, h⟩))
    · exact hlast (.inl (.inr h))
    · exact hlast (.inr (.inl ⟨rfl, h⟩))
    · exact hlast (.inr (.inr h))
  have hstart : (signText neg ++ row ds).takeWhile isWhite = [] ∧
      (signText neg ++ row ds).dropWhile isWhite = signText neg ++ row ds ∧
      sign (signText neg ++ row ds) = (neg, (signText neg).length) := by
    cases neg with
    | true => exact ⟨rfl, rfl, rfl⟩
    | false =>
        cases ds with
        | nil => exact absurd rfl hne
        | cons d ds =>
            obtain ⟨hwhite, hminus, hplus⟩ :=
              radixChar_start (lt_of_lt_of_le (hds d List.mem_cons_self) hb)
            refine ⟨?_, ?_, ?_⟩
            · simp [signText, row, hwhite]
            · simp [signText, row, hwhite]
            · simp [signText, row, sign, hminus, hplus]
  obtain ⟨hwhite, hdrop, hsign⟩ := hstart
  have hbody : body (signText neg ++ row ds) = row ds := by
    rw [body, hdrop, hsign, List.drop_left]
  have habs : scan |base| (body (signText neg ++ row ds)) 0 '\x00' 0 =
      (((value base.natAbs ds : Nat) : Int), last, ds.length) := by
    rw [hbody, Int.abs_eq_natAbs, value, ← Nat.zero_add ds.length]
    exact hscan
  have hlen : ds.length ≠ 0 := fun h => hne (List.length_eq_zero_iff.1 h)
  rw [gctol_scan habs]
  simp only [hdrop, hwhite, hsign, if_neg hlen, if_neg heats, List.length_nil, Nat.zero_add,
    List.length_append, hrow]

/-! ## The number that is written -/

/-- Without its sign; of a number of 64 bits `MAX_LONG` leaves 31, and its sign is put
after these. -/
def magnitude (lval : BitVec w) (base : Int) : Nat :=
  if base < 0 then lval.toNat % 2 ^ 31 + (if lval.toInt < 0 then 2 ^ 31 else 0)
  else lval.toInt.natAbs

theorem toNat_and_maxLong (hw : 32 ≤ w) (lval : BitVec w) :
    (lval &&& BitVec.ofNat w maxLong).toNat = lval.toNat % 2 ^ 31 := by
  have hpow : 2 ^ 32 ≤ 2 ^ w := Nat.pow_le_pow_right (by decide) hw
  have hmask : maxLong % 2 ^ w = 2 ^ 31 - 1 := by
    rw [Nat.mod_eq_of_lt (lt_of_lt_of_le (by decide) hpow)]
    rfl
  rw [BitVec.toNat_and, BitVec.toNat_ofNat, hmask, Nat.and_two_pow_sub_one_eq_mod]

theorem toInt_and_one (hw : 32 ≤ w) (lval : BitVec w) :
    (lval &&& 1).toInt = ((lval.toNat % 2 : Nat) : Int) := by
  have hpow : 2 ^ 32 ≤ 2 ^ w := Nat.pow_le_pow_right (by decide) hw
  have hone : (1 : BitVec w).toNat = 1 :=
    (BitVec.toNat_ofNat 1 w).trans (Nat.mod_eq_of_lt (lt_of_lt_of_le (by decide) hpow))
  have hand : (lval &&& 1).toNat = lval.toNat % 2 := by
    rw [BitVec.toNat_and, hone, Nat.and_one_is_mod]
  rw [BitVec.toInt_eq_toNat_of_lt (by omega), hand]

theorem start_unsigned (hw : 32 ≤ w) (lval : BitVec w) :
    Carries true (start lval true) ∧ (start lval true).n.natAbs < 2 ^ 31 ∧
      (start lval true).rest true =
        lval.toNat % 2 ^ 31 + (if lval.toInt < 0 then 2 ^ 31 else 0) := by
  have hpow : 2 ^ 32 ≤ 2 ^ w := Nat.pow_le_pow_right (by decide) hw
  have hand := toNat_and_maxLong hw lval
  have hhalf : lval.toNat % 2 ^ 31 / 2 < 2 ^ 30 := by omega
  have hlow : (lval &&& BitVec.ofNat w maxLong).toInt.tdiv 2 =
      ((lval.toNat % 2 ^ 31 / 2 : Nat) : Int) := by
    rw [BitVec.toInt_eq_toNat_of_lt (by omega), hand]
    rfl
  have hhigh : (BitVec.ofInt w ((lval.toNat % 2 ^ 31 / 2 : Nat) : Int) |||
      BitVec.ofNat w (maxLong / 2 + 1)).toInt = ((2 ^ 30 + lval.toNat % 2 ^ 31 / 2 : Nat) : Int) := by
    have hor : (BitVec.ofInt w ((lval.toNat % 2 ^ 31 / 2 : Nat) : Int) |||
        BitVec.ofNat w (maxLong / 2 + 1)).toNat = 2 ^ 30 + lval.toNat % 2 ^ 31 / 2 := by
      rw [BitVec.ofInt_natCast, BitVec.toNat_or, BitVec.toNat_ofNat, BitVec.toNat_ofNat,
        Nat.mod_eq_of_lt (hhalf.trans (lt_of_lt_of_le (by decide) hpow)),
        Nat.mod_eq_of_lt (lt_of_lt_of_le (by decide) hpow), Nat.or_comm]
      exact (Nat.two_pow_add_eq_or_of_lt hhalf 1).symm
    rw [BitVec.toInt_eq_toNat_of_lt (by omega), hor]
  have hbit := toInt_and_one hw lval
  unfold start State.rest Carries
  simp only [if_true, hlow, hhigh, hbit]
  by_cases hneg : lval.toInt < 0
  · simp only [if_pos hneg]
    omega
  · simp only [if_neg hneg]
    omega

theorem start_spec (hw : 32 ≤ w) (lval : BitVec w) (base : Int) :
    Carries (base < 0) (start lval (base < 0)) ∧
      (start lval (base < 0)).n.natAbs < 2 ^ w ∧
      (start lval (base < 0)).rest (base < 0) = magnitude lval base ∧
      (start lval (base < 0)).out = [] := by
  have hpow : 2 ^ 31 < 2 ^ w := Nat.pow_lt_pow_right (by decide) (by omega)
  by_cases hbase : base < 0
  · obtain ⟨hcarry, hlt, hrest⟩ := start_unsigned hw lval
    rw [magnitude, if_pos hbase, decide_eq_true hbase]
    exact ⟨hcarry, hlt.trans hpow, hrest, rfl⟩
  · rw [magnitude, if_neg hbase, decide_eq_false hbase]
    refine ⟨rfl, ?_, rfl, rfl⟩
    have hge := BitVec.le_two_mul_toInt (x := lval)
    have hlt := BitVec.two_mul_toInt_lt (x := lval)
    have hcast : ((2 ^ w : Nat) : Int) = 2 ^ w := by push_cast; rfl
    change lval.toInt.natAbs < 2 ^ w
    omega

theorem finish_size {size' : Nat} (hsize : s.out.length < size)
    (hfits : (finish lval unsigned size s).length ≤ size') :
    s.out.length ≤ size' ∧ finish lval unsigned size' s = finish lval unsigned size s := by
  unfold finish at hfits ⊢
  simp only [hsize, and_true] at hfits ⊢
  by_cases hlt : s.out.length < size'
  · simp only [hlt, and_true]
    exact Nat.le_of_lt hlt
  · split_ifs at hfits ⊢ <;> simp_all
    all_goals omega

theorem gltoc_eq (hle : 2 ≤ base.natAbs) (hge : base.natAbs ≤ 36)
    (hindef : ¬ (lval.toInt = indefl ∧ base > 0)) :
    gltoc lval maxch base = finish lval (base < 0) maxch
      (loop base.natAbs (base < 0) maxch w (start lval (base < 0))) := by
  have hradix : max 2 (min maxRadix |base|) = (base.natAbs : Int) := by
    rw [Int.abs_eq_natAbs, show maxRadix = 36 from rfl]
    omega
  rw [gltoc, if_neg hindef, hradix]

theorem finish_row {ds : List Nat} (hroom : ds.length < size) (hle : 2 ≤ base.natAbs)
    (hzero : s.n = 0) (hcarry : Carries (base < 0) s) (hchars : s.out = row ds)
    (hds : ∀ d ∈ ds, d < base.natAbs) (hne : ds ≠ []) :
    ∃ ds', ds' ≠ [] ∧ (∀ d ∈ ds', d < base.natAbs) ∧
      value base.natAbs ds' =
        s.rest (base < 0) * base.natAbs ^ ds.length + value base.natAbs ds ∧
      finish lval (base < 0) size s =
        signText (decide (0 < base ∧ lval.toInt < 0)) ++ row ds' := by
  have hrow : (row ds).length < size := by rwa [row, List.length_map]
  rw [finish, State.rest, hzero, hchars]
  simp only [hrow, and_true, decide_eq_true_eq, Int.natAbs_zero, Nat.mul_zero, Nat.zero_add]
  by_cases hbase : base < 0
  · have hsign : decide (0 < base ∧ lval.toInt < 0) = false := by
      simp
      omega
    rw [decide_eq_true hbase] at hcarry
    obtain ⟨hpos, hone⟩ := hcarry
    rw [if_pos hbase, if_pos hbase, hsign]
    by_cases hcarry0 : s.carry = 0
    · refine ⟨ds, hne, hds, by simp [hcarry0], ?_⟩
      rw [if_neg (by simpa using hcarry0)]
      rfl
    · have hcarry1 : s.carry = 1 := by omega
      refine ⟨1 :: ds, by simp, ?_, ?_, ?_⟩
      · intro d hd
        rcases List.mem_cons.1 hd with rfl | hd
        · omega
        · exact hds d hd
      · rw [value_cons, hcarry1]
        rfl
      · rw [if_pos hcarry0]
        rfl
  · have hpos : 0 < base := by omega
    rw [if_neg hbase, if_neg hbase]
    refine ⟨ds, hne, hds, by simp, ?_⟩
    by_cases hneg : lval.toInt < 0
    · simp [hneg, hpos, signText]
    · simp [hneg, signText]

/-- In a buffer with room for all bits and a sign the whole number is written, and the
same in each buffer that holds this text. -/
theorem gltoc_whole (hw : 32 ≤ w) (hle : 2 ≤ base.natAbs) (hge : base.natAbs ≤ 36)
    (hindef : ¬ (lval.toInt = indefl ∧ base > 0)) :
    ∃ ds, ds ≠ [] ∧ (∀ d ∈ ds, d < base.natAbs) ∧ value base.natAbs ds = magnitude lval base ∧
      ∀ maxch, (gltoc lval (w + 1) base).length ≤ maxch →
        gltoc lval maxch base = signText (decide (0 < base ∧ lval.toInt < 0)) ++ row ds := by
  obtain ⟨hcarry, hlt, hrest, hout⟩ := start_spec hw lval base
  have hfuel : (start lval (base < 0)).n.natAbs < base.natAbs ^ w :=
    lt_of_lt_of_le hlt (Nat.pow_le_pow_left hle w)
  obtain ⟨ds, hne, hds, hlen, hchars, hzero, hlast, hsum⟩ :=
    @loop_spec base.natAbs (w + 1) (base < 0) (by omega) w _ hcarry hfuel (by omega)
      (by rw [hout]; simp)
  rw [hrest] at hsum
  rw [hout, List.append_nil] at hchars
  have hroom : ds.length < w + 1 := by omega
  obtain ⟨ds', hne', hds', hvalue, htext⟩ :=
    @finish_row w base lval (w + 1) _ ds hroom hle hzero hlast hchars hds hne
  refine ⟨ds', hne', hds', hvalue.trans hsum.symm, ?_⟩
  intro maxch hmaxch
  rw [gltoc_eq hle hge hindef] at hmaxch
  obtain ⟨hfits, hfinish⟩ := finish_size
    (by rw [hchars, row, List.length_map]; exact hroom) hmaxch
  rw [gltoc_eq hle hge hindef, loop_size w _ hzero hfits, hfinish, htext]

theorem magnitude_eq_iff (hw : w = 32 ∨ w = 64) (hbase : base < 0) :
    BitVec.ofNat w (magnitude lval base) = lval ↔
      w = 32 ∨ 0 ≤ lval.toInt ∧ lval.toInt ≤ maxLong := by
  have hlt := lval.isLt
  have hint := BitVec.toInt_eq_toNat_cond lval
  have hmax : (maxLong : Int) = 2147483647 := rfl
  rw [← BitVec.toNat_inj, BitVec.toNat_ofNat, magnitude, if_pos hbase, hmax]
  rcases hw with rfl | rfl
  · split_ifs at hint ⊢ <;> omega
  · split_ifs at hint ⊢ <;> omega

end Gltoc

/-- The number is read back exactly if the radix is positive, or the long has 32 bits, or
the number lies between 0 and `MAX_LONG`. -/
theorem roundTrip_iff (hw : w = 32 ∨ w = 64) (hle : 2 ≤ base.natAbs) (hge : base.natAbs ≤ 36)
    (hindef : lval.toInt ≠ indefl) (hmaxch : (gltoc lval (w + 1) base).length ≤ maxch) :
    RoundTrip lval maxch base ↔
      0 < base ∨ w = 32 ∨ 0 ≤ lval.toInt ∧ lval.toInt ≤ maxLong := by
  obtain ⟨ds, hne, hds, hvalue, htext⟩ :=
    gltoc_whole (by omega) hle hge fun h : lval.toInt = indefl ∧ base > 0 => hindef h.1
  rw [RoundTrip, htext maxch hmaxch, gctolLong_eq, gctol_row hge hne hds, hvalue]
  dsimp only
  rw [and_iff_left rfl]
  by_cases hbase : 0 < base
  · refine iff_of_true ?_ (.inl hbase)
    have hsigned : (if decide (0 < base ∧ lval.toInt < 0) = true then -(magnitude lval base : Int)
        else magnitude lval base) = lval.toInt := by
      have hmag : magnitude lval base = lval.toInt.natAbs := if_neg (by omega)
      simp only [hmag, hbase, true_and, decide_eq_true_eq]
      split_ifs <;> omega
    rw [hsigned, BitVec.ofInt_toInt]
  · have hneg : base < 0 := by omega
    rw [or_iff_right hbase, ← magnitude_eq_iff hw hneg, decide_eq_false (by omega),
      if_neg (by decide), BitVec.ofInt_natCast]

/-- The most negative number of 32 bits in radix 2, in a buffer without any more room. -/
theorem roundTrip_mostNegative : RoundTrip (BitVec.intMin 32) 33 2 :=
  (roundTrip_iff (.inl rfl) (by decide) (by decide) (by decide) (by decide)).2 (.inl (by decide))

/-- A number of 64 bits is cut to its lower 31 bits. -/
theorem not_roundTrip_wide : ¬ RoundTrip (4294967296 : BitVec 64) 65 (-16) := by
  rw [RoundTrip]
  decide

end Iraf.Fmtio.LongText
