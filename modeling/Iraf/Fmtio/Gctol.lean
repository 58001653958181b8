import Iraf.Fmtio.Ctol
import Mathlib.Data.Int.Order.Basic

/-!
# Reading integers in any radix

`gctol` decodes the number at the start of a string, here a list of chars.  The index
is returned as the number of chars that it has advanced, which may be one more than there
are.
-/

namespace Iraf.Fmtio.LongText

open Numeral

namespace Gctol

/-- The digit that a char stands for, and the char as the loop leaves it. -/
def digitOf (base : Int) (ch : Char) : Option Int × Char :=
  if ch.isDigit then (some (toInteg ch), ch)
  else if base > 10 then
    if ch.isUpper then (some (ch.toLower.toNat - 'a'.toNat + 10), ch.toLower)
    else if ch.isLower then (some (ch.toNat - 'a'.toNat + 10), ch)
    else (none, ch)
  else (none, ch)

/-- The value, the last char looked at and the number of digits. -/
def scan (base : Int) : List Char → Int → Char → Nat → Int × Char × Nat
  | [], lval, ch, n => (lval, ch, n)
  | c :: str, lval, _, n =>
      match digitOf base c with
      | (none, ch) => (lval, ch, n)
      | (some digit, ch) =>
          if digit < 0 ∨ digit ≥ base then (lval, ch, n)
          else scan base str (lval * base + digit) ch (n + 1)

def sign : List Char → Bool × Nat
  | '-' :: _ => (true, 1)
  | '+' :: _ => (false, 1)
  | _ => (false, 0)

/-- The function value, the number and how far the index has advanced. -/
structure Result where
  nchars : Int
  lval : Int
  used : Nat
  deriving DecidableEq

end Gctol

open Gctol

def gctol (str : List Char) (radix : Int) : Gctol.Result :=
  let white := (str.takeWhile isWhite).length
  let start := str.drop white
  let (neg, nsign) := sign start
  let (lval, ch, n) := scan |radix| (start.drop nsign) 0 '\x00' 0
  let lval := if neg then -lval else lval
  if n = 0 then ⟨-nsign, lval, white⟩
  else if radix = 8 ∧ ch = 'b' ∨ ch = 'B' then ⟨n + 1, lval, white + nsign + n + 1⟩
  else if radix = 16 ∧ ch = 'x' ∨ ch = 'X' then ⟨n + 1, lval, white + nsign + n + 1⟩
  else ⟨n, lval, white + nsign + n⟩

theorem used_pos {str : List Char} {radix : Int} (h : 0 < (gctol str radix).nchars) :
    0 < (gctol str radix).used := by
  rw [gctol] at h ⊢
  dsimp only at h ⊢
  split at h
  · dsimp only at h
    omega
  · rename_i hn
    rw [if_neg hn]
    split_ifs <;> dsimp only <;> omega

/-! ## Decimal numbers -/

/-- A row of decimal digits, not empty, with an optional sign. -/
structure Decimal where
  signed : Option Bool
  digits : List Nat
  nonempty : digits ≠ []
  lt : ∀ d ∈ digits, d < 10

namespace Decimal

def signText : Option Bool → List Char
  | none => []
  | some true => ['-']
  | some false => ['+']

def text (m : Decimal) : List Char := signText m.signed ++ m.digits.map digitChar

def val (m : Decimal) : Int :=
  if m.signed = some true then -(value 10 m.digits : Int) else value 10 m.digits

end Decimal

variable {rest : List Char}

/-- A char that is not taken for the suffix of an octal or hex number. -/
def NoSuffix (c : Char) : Prop := c ≠ 'B' ∧ c ≠ 'b' ∧ c ≠ 'X' ∧ c ≠ 'x'

/-- The text after a number does not go on with a digit or a suffix. -/
def Stops (rest : List Char) : Prop := ∀ c ∈ rest.head?, c.isDigit = false ∧ NoSuffix c

theorem noSuffix_digitChar {d : Nat} (hd : d < 10) : NoSuffix (digitChar d) := by
  interval_cases d <;> refine ⟨?_, ?_, ?_, ?_⟩ <;> decide

theorem digitOf_digitChar {d : Nat} (hd : d < 10) :
    digitOf 10 (digitChar d) = (some (d : Int), digitChar d) := by
  obtain ⟨hdigit, hval, -⟩ := digitChar_eq hd
  rw [digitOf, if_pos hdigit, hval]

theorem scan_digits {ds : List Nat} (hds : ∀ d ∈ ds, d < 10) (hrest : Stops rest)
    (sum : Nat) {ch : Char} (hch : NoSuffix ch) (n : Nat) :
    ∃ ch', scan 10 (ds.map digitChar ++ rest) sum ch n =
        (((ds.foldl (fun sum d => sum * 10 + d) sum : Nat) : Int), ch', n + ds.length) ∧
      NoSuffix ch' := by
  induction ds generalizing sum ch n with
  | nil =>
      cases rest with
      | nil => exact ⟨ch, rfl, hch⟩
      | cons c rest =>
          obtain ⟨hdigit, hc⟩ := hrest c rfl
          refine ⟨c, ?_, hc⟩
          have hdigitOf : digitOf 10 c = (none, c) := by
            rw [digitOf, hdigit]
            rfl
          simp only [List.map_nil, List.nil_append, scan, hdigitOf, List.foldl_nil,
            List.length_nil, Nat.add_zero]
  | cons d ds ih =>
      have hd := hds d List.mem_cons_self
      obtain ⟨ch', hscan, hch'⟩ := ih (fun e he => hds e (List.mem_cons_of_mem d he))
        (sum * 10 + d) (noSuffix_digitChar hd) (n + 1)
      refine ⟨ch', ?_, hch'⟩
      rw [List.map_cons, List.cons_append, scan, digitOf_digitChar hd]
      dsimp only
      rw [if_neg (by omega), List.foldl_cons, List.length_cons,
        show n + (ds.length + 1) = n + 1 + ds.length by omega]
      exact_mod_cast hscan

theorem Decimal.length_text (m : Decimal) :
    m.text.length = (Decimal.signText m.signed).length + m.digits.length := by
  rw [Decimal.text, List.length_append, List.length_map]

theorem Decimal.sign_text (m : Decimal) (rest : List Char) :
    sign (m.text ++ rest) = (decide (m.signed = some true), (signText m.signed).length) ∧
      (m.text ++ rest).drop (signText m.signed).length = m.digits.map digitChar ++ rest ∧
      (m.text ++ rest).takeWhile isWhite = [] := by
  obtain ⟨signed, digits, hne, hlt⟩ := m
  cases signed with
  | some neg => cases neg <;> exact ⟨rfl, rfl, rfl⟩
  | none =>
      cases digits with
      | nil => exact absurd rfl hne
      | cons d ds =>
          have hd := hlt d List.mem_cons_self
          obtain ⟨-, -, hwhite, hminus, -⟩ := digitChar_eq hd
          have hplus : digitChar d ≠ '+' := by interval_cases d <;> decide
          refine ⟨?_, rfl, ?_⟩
          · simp [text, signText, sign, hminus, hplus]
          · simp [text, signText, hwhite]

theorem gctol_decimal (m : Decimal) (hrest : Stops rest) :
    gctol (m.text ++ rest) 10 = ⟨m.digits.length, m.val, m.text.length⟩ := by
  obtain ⟨hsign, hdrop, hwhite⟩ := m.sign_text rest
  have hnull : NoSuffix '\x00' := by refine ⟨?_, ?_, ?_, ?_⟩ <;> decide
  obtain ⟨ch, hscan, hch⟩ := scan_digits m.lt hrest 0 hnull 0
  have hlen : m.digits.length ≠ 0 := fun h => m.nonempty (List.length_eq_zero_iff.1 h)
  rw [gctol]
  simp only [hwhite, List.length_nil, List.drop_zero, hsign, hdrop, abs_of_pos
    (show (0 : Int) < 10 by decide), Nat.cast_zero] at hscan ⊢
  simp only [hscan, Nat.zero_add, if_neg hlen]
  rw [if_neg (by simp [hch.1]), if_neg (by simp [hch.2.2.1])]
  simp [Decimal.val, Decimal.length_text, value]

theorem drop_white (str : List Char) :
    str.drop (str.takeWhile isWhite).length = str.dropWhile isWhite := by
  calc
    str.drop (str.takeWhile isWhite).length
    _ = (str.takeWhile isWhite ++ str.dropWhile isWhite).drop
          (str.takeWhile isWhite).length := by rw [List.takeWhile_append_dropWhile]
    _ = str.dropWhile isWhite := List.drop_left

theorem gctol_none {str : List Char} (h : ∀ c ∈ (str.dropWhile isWhite).head?,
    c.isDigit = false ∧ c ≠ '-' ∧ c ≠ '+') :
    gctol str 10 = ⟨0, 0, (str.takeWhile isWhite).length⟩ := by
  have hstart := drop_white str
  rw [gctol]
  simp only [hstart]
  cases hrest : str.dropWhile isWhite with
  | nil => rfl
  | cons c rest =>
      rw [hrest] at h
      obtain ⟨hdigit, hminus, hplus⟩ := h c rfl
      have hdigitOf : digitOf 10 c = (none, c) := by
        rw [digitOf, hdigit]
        rfl
      have hsign : sign (c :: rest) = (false, 0) := by simp [sign, hminus, hplus]
      have habs : |(10 : Int)| = 10 := rfl
      simp only [hsign, List.drop_zero, scan, habs, hdigitOf, if_true]
      rfl

end Iraf.Fmtio.LongText
