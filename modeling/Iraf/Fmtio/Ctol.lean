import Iraf.Lib.Numeral
import Mathlib.Data.List.TakeWhile

/-!
# Long integers as text

The formats `%d` and `%g` of `sprintf`, and `ctol.x`.  A string is the list of its
chars, without the EOS, and an index is given by the chars from there on.
-/

namespace Iraf.Fmtio

open Numeral

namespace LongText

abbrev newline : Char := '\n'

def isWhite (c : Char) : Bool := c == ' ' || c == '\t'

def toInteg (c : Char) : Nat := c.toNat - '0'.toNat

def digitChar (d : Nat) : Char := Char.ofNat ('0'.toNat + d)

def indefl : Int := -2147483647

def indef : List Char := ['I', 'N', 'D', 'E', 'F']

/-- The decimal digits of a number. -/
def decimal (n : Nat) : List Char := (numeral 10 n).map digitChar

/-- What the format `%d` prints. -/
def formatLong (lval : Int) : List Char :=
  if lval = indefl then indef
  else if lval < 0 then '-' :: decimal lval.natAbs
  else decimal lval.natAbs

/-- The sign before a number, and where the number begins. -/
def ctolSign : List Char → Bool × List Char
  | c :: d :: str =>
      if d.isDigit && c == '-' then (true, d :: str)
      else if d.isDigit && c == '+' then (false, d :: str)
      else (false, c :: d :: str)
  | str => (false, str)

/-- The number of chars, the value, and the text after it. -/
def ctol (str : List Char) : Int × Int × List Char :=
  let start := str.dropWhile isWhite
  if indef <+: start ∧ ((start.drop 5).head?.all fun c => !c.isAlphanum) then
    (5, indefl, start.drop 5)
  else
    let (neg, ip) := ctolSign start
    let digits := ip.takeWhile Char.isDigit
    let sum : Int := value 10 (digits.map toInteg)
    let ip := ip.drop digits.length
    (start.length - ip.length, if neg then -sum else sum, ip)

theorem ctolSign_suffix (str : List Char) : (ctolSign str).2 <:+ str := by
  match str with
  | [] => exact List.suffix_rfl
  | [c] => exact List.suffix_rfl
  | c :: d :: str =>
      rw [ctolSign]
      split_ifs
      · exact List.suffix_cons c _
      · exact List.suffix_cons c _
      · exact List.suffix_rfl

theorem ctol_suffix (str : List Char) : (ctol str).2.2 <:+ str := by
  simp only [ctol]
  split
  · exact (List.drop_suffix _ _).trans (List.dropWhile_suffix _)
  · exact (List.drop_suffix _ _).trans
      ((ctolSign_suffix _).trans (List.dropWhile_suffix _))

/-! ## Digits -/

variable {n d : Nat} {lval : Int} {rest : List Char}

theorem digitChar_eq (h : d < 10) :
    (digitChar d).isDigit = true ∧ toInteg (digitChar d) = d ∧ isWhite (digitChar d) = false ∧
      digitChar d ≠ '-' ∧ digitChar d ≠ 'I' := by
  interval_cases d <;> decide

theorem decimal_ne_nil : decimal n ≠ [] := by
  simpa [decimal] using numeral_ne_nil

theorem mem_decimal {c : Char} (h : c ∈ decimal n) : ∃ d < 10, c = digitChar d := by
  obtain ⟨d, hd, rfl⟩ := List.mem_map.1 h
  exact ⟨d, lt_of_mem_numeral (by omega) hd, rfl⟩

theorem value_decimal : value 10 ((decimal n).map toInteg) = n := by
  have hmap : (decimal n).map toInteg = numeral 10 n := by
    rw [decimal, List.map_map]
    conv_rhs => rw [← List.map_id (numeral 10 n)]
    exact List.map_congr_left fun d hd => (digitChar_eq (lt_of_mem_numeral (by omega) hd)).2.1
  rw [hmap, value_numeral]

theorem takeWhile_decimal :
    (decimal n ++ newline :: rest).takeWhile Char.isDigit = decimal n := by
  rw [List.takeWhile_append_of_pos]
  · rw [List.takeWhile_cons_of_neg (by decide), List.append_nil]
  · intro c hc
    obtain ⟨d, hd, rfl⟩ := mem_decimal hc
    exact (digitChar_eq hd).1

theorem decimal_eq_cons : ∃ d str, d < 10 ∧ decimal n = digitChar d :: str := by
  cases hdec : decimal n with
  | nil => exact absurd hdec decimal_ne_nil
  | cons c str =>
      obtain ⟨d, hd, rfl⟩ := mem_decimal (n := n) (c := c) (by simp [hdec])
      exact ⟨d, str, hd, rfl⟩

theorem ctolSign_digit (h : d < 10) {str : List Char} :
    ctolSign (digitChar d :: str) = (false, digitChar d :: str) := by
  cases str with
  | nil => rfl
  | cons c str =>
      have hminus : digitChar d ≠ '-' := (digitChar_eq h).2.2.2.1
      have hplus : digitChar d ≠ '+' := by interval_cases d <;> decide
      simp [ctolSign, hminus, hplus]

/-! ## Printing and reading -/

theorem ctol_digits {c : Char} {str : List Char} {neg : Bool} (hwhite : isWhite c = false)
    (hindef : c ≠ 'I') (hsign : ctolSign (c :: str) = (neg, decimal n ++ newline :: rest))
    (hlen : (newline :: rest).length < (c :: str).length) :
    ∃ nchars : Int, 0 < nchars ∧
      ctol (c :: str) = (nchars, if neg then -(n : Int) else n, newline :: rest) := by
  refine ⟨((c :: str).length : Int) - (newline :: rest).length, by omega, ?_⟩
  have hprefix : ¬ indef <+: c :: str := fun h => hindef (List.cons_prefix_cons.1 h).1.symm
  unfold ctol
  rw [List.dropWhile_cons_of_neg (by simp [hwhite]), if_neg fun h => hprefix h.1, hsign]
  simp only [takeWhile_decimal, List.drop_left, value_decimal]

theorem ctol_formatLong : ∃ nchars : Int, 0 < nchars ∧
    ctol (formatLong lval ++ newline :: rest) = (nchars, lval, newline :: rest) := by
  obtain ⟨d, str, hd, hdec⟩ := decimal_eq_cons (n := lval.natAbs)
  obtain ⟨-, -, hwhite, -, hindef⟩ := digitChar_eq hd
  unfold formatLong
  split_ifs with heq hneg
  · subst heq
    exact ⟨5, by decide, by simp [ctol, indef, isWhite, newline]⟩
  · have hsign : ctolSign ('-' :: (decimal lval.natAbs ++ newline :: rest)) =
        (true, decimal lval.natAbs ++ newline :: rest) := by
      simp [hdec, ctolSign, (digitChar_eq hd).1]
    obtain ⟨nchars, hpos, hctol⟩ := ctol_digits rfl (by decide) hsign (by simp)
    have hval : (if true then -(lval.natAbs : Int) else lval.natAbs) = lval := by
      rw [if_pos rfl]
      omega
    exact ⟨nchars, hpos, by rw [List.cons_append, hctol, hval]⟩
  · have hsign : ctolSign (digitChar d :: (str ++ newline :: rest)) =
        (false, digitChar d :: (str ++ newline :: rest)) := ctolSign_digit hd
    have hval : (if false then -(lval.natAbs : Int) else lval.natAbs) = lval := by
      rw [if_neg (by decide)]
      omega
    have hstart : digitChar d :: (str ++ newline :: rest) =
        decimal lval.natAbs ++ newline :: rest := by rw [hdec, List.cons_append]
    obtain ⟨nchars, hpos, hctol⟩ :=
      ctol_digits hwhite hindef (hsign.trans (by rw [hstart])) (by simp)
    exact ⟨nchars, hpos, by rw [← hstart, hctol, hval]⟩

theorem length_formatLong {k : Nat} (hk : 4 ≤ k) (h : lval.natAbs < 10 ^ k) :
    (formatLong lval).length ≤ k + 1 := by
  have hle : (decimal lval.natAbs).length ≤ k := by
    rw [decimal, List.length_map]
    exact (length_numeral_le_iff (by omega) (by omega)).2 h
  unfold formatLong
  split_ifs
  · exact Nat.succ_le_succ hk
  · exact Nat.succ_le_succ hle
  · exact hle.trans (Nat.le_succ k)

theorem plain_formatLong {c : Char} (h : c ∈ formatLong lval) :
    c.isAlphanum ∨ c = '-' := by
  have hdecimal : c ∈ decimal lval.natAbs → c.isAlphanum := fun hc => by
    obtain ⟨d, hd, rfl⟩ := mem_decimal hc
    interval_cases d <;> decide
  unfold formatLong at h
  split_ifs at h
  · exact .inl (List.all_eq_true.1 (by decide : indef.all Char.isAlphanum = true) c h)
  · obtain rfl | h := List.mem_cons.1 h
    · exact .inr rfl
    · exact .inl (hdecimal h)
  · exact .inl (hdecimal h)

end LongText

end Iraf.Fmtio
