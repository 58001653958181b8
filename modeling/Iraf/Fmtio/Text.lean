import Mathlib.Algebra.Order.Group.Unbundled.Int
import Mathlib.Algebra.Order.Ring.Int
import Mathlib.Data.List.GetD

/-!
# Strings in memory

An SPP string is an array of 16 bit chars indexed from 1 that ends at the first
EOS.  The functions index it freely, so a `Text` is the memory around it as
well.  `cctoc.x`, `gctol.x` and `stridx.x` follow.
-/

namespace Iraf.Fmtio

/-- The value that a 16 bit char keeps of an integer. -/
def short (x : Int) : Int := (x + 32768) % 65536 - 32768

def IsShort (x : Int) : Prop := -32768 ≤ x ∧ x ≤ 32767

instance (x : Int) : Decidable (IsShort x) :=
  inferInstanceAs (Decidable (_ ∧ _))

theorem short_of_isShort {x : Int} (h : IsShort x) : short x = x := by
  unfold short IsShort at *
  omega

theorem isShort_short (x : Int) : IsShort (short x) := by
  unfold short IsShort
  omega

/-- Memory indexed as the string is; past `extent` it holds zeros. -/
structure Text where
  char : Int → Int
  extent : Nat
  isShort : ∀ i, IsShort (char i)
  ends : ∀ i, (extent : Int) < i → char i = 0

namespace Text

end Text

/-! ## Character codes -/

def EOS : Int := 0
def BLANK : Int := 32
def TAB : Int := 9
def NEWLINE : Int := 10
def SQUOTE : Int := 39
def ESCAPE : Int := 92

def IS_UPPER (c : Int) : Bool := decide (65 ≤ c) && decide (c ≤ 90)
def IS_LOWER (c : Int) : Bool := decide (97 ≤ c) && decide (c ≤ 122)
def IS_DIGIT (c : Int) : Bool := decide (48 ≤ c) && decide (c ≤ 57)
def IS_WHITE (c : Int) : Bool := decide (c = BLANK) || decide (c = TAB)
def TO_UPPER (c : Int) : Int := c + 65 - 97
def TO_LOWER (c : Int) : Int := c + 97 - 65
def TO_INTEG (c : Int) : Int := c - 48

/-- The index of the first char from `ip` on that `p` does not hold of, where
`p` holds of no EOS: the text has one at the end of its memory at the latest. -/
def Text.skip (str : Text) (p : Int → Bool) (ip : Int) : Int :=
  go (str.extent + 1 - ip).toNat ip
where
  go : Nat → Int → Int
    | 0, ip => ip
    | fuel + 1, ip => if p (str.char ip) then go fuel (ip + 1) else ip

/-! ## Character constants -/

/-- The loop over the digits: the index of the char that ends the number, its
value, and the last char that was looked at. -/
def gctolDigits (str : Text) (base : Int) : Nat → Int → Int → Int →
    Int × Int × Int
  | 0, ip, lval, ch => (ip, lval, ch)
  | fuel + 1, ip, lval, ch =>
      if str.char ip = EOS then (ip, lval, ch)
      else
        let ch := str.char ip
        if IS_DIGIT ch then
          let digit := TO_INTEG ch
          if digit < 0 ∨ digit ≥ base then (ip, lval, ch)
          else gctolDigits str base fuel (ip + 1) (lval * base + digit) ch
        else if base > 10 then
          let ch := if IS_UPPER ch then TO_LOWER ch else ch
          if ¬ IS_UPPER (str.char ip) ∧ ¬ IS_LOWER ch then (ip, lval, ch)
          else
            let digit := ch - 97 + 10
            if digit < 0 ∨ digit ≥ base then (ip, lval, ch)
            else gctolDigits str base fuel (ip + 1) (lval * base + digit) ch
        else (ip, lval, ch)

/-- The number after its sign: the index after it, and its value. -/
def gctolFrom (str : Text) (ip_save first_char radix : Int) : Int × Int :=
  let base := if radix < 0 then -radix else radix
  let (ip, lval, ch) :=
    gctolDigits str base (str.extent + 1 - first_char).toNat first_char 0 0
  if ip = first_char then (ip_save, lval)
  else if (radix = 8 ∧ ch = 98) ∨ ch = 66 then (ip + 1, lval)
  else if (radix = 16 ∧ ch = 120) ∨ ch = 88 then (ip + 1, lval)
  else (ip, lval)

/-- The index after the number and its value. -/
def gctol (str : Text) (ip radix : Int) : Int × Int :=
  let ip_save := str.skip IS_WHITE ip
  if str.char ip_save = 45 then
    let (ip, lval) := gctolFrom str ip_save (ip_save + 1) radix
    (ip, -lval)
  else if str.char ip_save = 43 then
    gctolFrom str ip_save (ip_save + 1) radix
  else gctolFrom str ip_save ip_save radix

/-- The index of a char in a string, counted from 1; 0 when it is not there. -/
def stridx (ch : Int) (chars : List Int) : Int :=
  if ch ∈ chars then chars.idxOf ch + 1 else 0

def escape_chars : List Int := [110, 116, 102, 114, 39, 34, 92]

def mapped_chars : List Int := [10, 9, 12, 13, 39, 34, 92]

/-- What stands behind the tick, if there is one: the index after it, and the
value, which stays `cval` when nothing is converted. -/
def cctocChar (str : Text) (ip cval : Int) (eat_tick : Bool) : Int × Int :=
  if str.char ip = ESCAPE ∧ str.char (ip + 1) ≠ EOS then
    let n := stridx (str.char (ip + 1)) escape_chars
    if n > 0 then (ip + 2, mapped_chars.getD (n - 1).toNat 0)
    else if IS_DIGIT (str.char (ip + 1)) then
      let (ip, lval) := gctol str (ip + 1) (-8)
      (ip, short lval)
    else if eat_tick then (ip + 2, str.char (ip + 1))
    else (ip + 1, ESCAPE)
  else if str.char ip ≠ EOS then (ip + 1, str.char ip)
  else if eat_tick then (ip, SQUOTE)
  else (ip, cval)

/-- The number of chars converted, the index after them, and the value. -/
def cctoc (str : Text) (ip cval : Int) : Int × Int × Int :=
  let ip_save := str.skip IS_WHITE ip
  let eat_tick := decide (str.char ip_save = SQUOTE)
  let ip := if eat_tick then ip_save + 1 else ip_save
  let (ip, cval) := cctocChar str ip cval eat_tick
  let ip := if eat_tick ∧ str.char ip = SQUOTE then ip + 1 else ip
  (ip - ip_save, ip, cval)

end Iraf.Fmtio
