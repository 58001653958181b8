import Mathlib.Data.Int.Bitwise
import Mathlib.Logic.Function.Basic

/-!
# Argument substitution in control strings

`ttysubi.x`.  Arrays are indexed from 1; the output string is the list of its char
codes.  What `sprintf` makes of a number, given the field width and the format char,
is a parameter.
-/

namespace Iraf.Tty

abbrev Array1 := Nat → Int

abbrev Sprintf := Nat → Char → Int → List Int

/-- The assignment of an integer to a char. -/
def toChar (i : Int) : Int := i.bmod 65536

/-- EOT, HT and LF. -/
def driverChars : List Int := [4, 9, 10]

/-- The local variables, with the output string. -/
structure Subst where
  args : Array1
  coords : Array1
  argnum : Nat
  reverse : Bool
  revstart : Nat
  outstr : List Int

def exchange (a : Array1) (left right : Nat) : Array1 :=
  Function.update (Function.update a left (a right)) right (a left)

/-- The loop that reverses an array from `start` on. -/
def reverseFrom (nargs start : Nat) (a : Array1) : Array1 :=
  (List.range' start ((nargs - start + 1) / 2 + 1 - start)).foldl
    (fun a left => exchange a left (nargs - (left - start))) a

/-- An argument and its delta, as long as the driver would map the argument. -/
def acceptable : Nat → Int → Int → Int × Int
  | 0, arg, delta => (arg, delta)
  | n + 1, arg, delta =>
      if toChar arg ∈ driverChars then acceptable n (arg + 1) (delta + 1) else (arg, delta)

/-! ## Formats -/

def isNumberFormat (ch : Char) : Bool := ch ∈ ['d', 'o', 'x', '1', '2', '3', '4']

/-- The field width and the format char of a number. -/
def numberFormat (ch : Char) : Nat × Char :=
  if ch.isDigit then (ch.toNat - '0'.toNat, 'd') else (0, ch)

def exceed (arg : Int) (x y : Char) : Int := if arg > x.toNat then arg + y.toNat else arg

def bcdEncode (temp : Int) : Int := 16 * temp.tdiv 10 + temp.tmod 10

def reverseCode (temp : Int) : Int := temp - 2 * temp.tmod 16

def exclusiveOr (arg : Int) : Int := arg.xor 0o140

namespace Subst

variable (sprintf : Sprintf) (maxch nargs : Nat)

def put (s : Subst) (ch : Char) : Subst := { s with outstr := s.outstr ++ [(ch.toNat : Int)] }

/-- The change of the next argument. -/
def edit (s : Subst) (f : Int → Int) : Subst :=
  { s with args := Function.update s.args s.argnum (f (s.args s.argnum)) }

/-- The change of the remaining arguments. -/
def editAll (s : Subst) (f : Int → Int) : Subst :=
  { s with args := fun i => if s.argnum ≤ i ∧ i ≤ nargs then f (s.args i) else s.args i }

def number (s : Subst) (ch : Char) : Subst :=
  let (fieldWidth, formatChar) := numberFormat ch
  { s with
    outstr := s.outstr ++
      (sprintf fieldWidth formatChar (s.args s.argnum)).take (maxch - s.outstr.length)
    argnum := min nargs (s.argnum + 1) }

def binary (s : Subst) : Subst :=
  let (arg, delta) := acceptable 3 (s.args s.argnum) (s.coords s.argnum)
  { s with
    args := Function.update s.args s.argnum arg
    coords := Function.update s.coords s.argnum delta
    outstr := s.outstr ++ [toChar arg]
    argnum := min nargs (s.argnum + 1) }

def swapArgs (s : Subst) : Subst :=
  { s with
    args := reverseFrom nargs s.argnum s.args
    reverse := !s.reverse
    revstart := s.argnum }

/-- The case of the switch for the chars after a `%`, and the chars that are left. -/
def format (s : Subst) (ip : List Char) : Subst × List Char :=
  let ch := ip.headD '\x00'
  let ip := ip.tail
  let operand := fun i => ip.getD i '\x00'
  if ch = '%' then (s.put ch, ip)
  else if isNumberFormat ch then (s.number sprintf maxch nargs ch, ip)
  else if ch = '.' then (s.binary nargs, ip)
  else if ch = '+' then
    ((s.edit fun arg => arg + (operand 0).toNat).binary nargs, ip.drop 1)
  else if ch = '>' then (s.edit fun arg => exceed arg (operand 0) (operand 1), ip.drop 2)
  else if ch = 'r' then (s.swapArgs nargs, ip)
  else if ch = 'i' then (s.editAll nargs fun arg => arg + 1, ip)
  else if ch = 'n' then (s.editAll nargs exclusiveOr, ip)
  else if ch = 'B' then (s.edit bcdEncode, ip)
  else if ch = 'D' then (s.edit reverseCode, ip)
  else (s, ip)

/-- The loop over the control string, for a number of turns at most. -/
def scan : Nat → Subst → List Char → Subst
  | 0, s, _ => s
  | _ + 1, s, [] => s
  | n + 1, s, ch :: ip =>
      if s.outstr.length ≥ maxch then s
      else if ch ≠ '%' then scan n (s.put ch) ip
      else scan n (s.format sprintf maxch nargs ip).1 (s.format sprintf maxch nargs ip).2

end Subst

inductive Code where
  | text (ch : Char) (h : ch ≠ '%')
  | percent
  | number (ch : Char) (h : isNumberFormat ch = true)
  | binary
  | add (x : Char)
  | exceed (x y : Char)
  | reverse
  | increment
  | exclusiveOr
  | bcd
  | reverseCode

namespace Code

def chars : Code → List Char
  | text ch _ => [ch]
  | percent => ['%', '%']
  | number ch _ => ['%', ch]
  | binary => ['%', '.']
  | add x => ['%', '+', x]
  | exceed x y => ['%', '>', x, y]
  | reverse => ['%', 'r']
  | increment => ['%', 'i']
  | exclusiveOr => ['%', 'n']
  | bcd => ['%', 'B']
  | reverseCode => ['%', 'D']

def isReverse : Code → Bool
  | reverse => true
  | _ => false

/-- The code outputs an argument in binary. -/
def isBinary : Code → Bool
  | binary => true
  | add _ => true
  | _ => false

/-- The code outputs an argument. -/
def isOutput : Code → Bool
  | number _ _ => true
  | code => code.isBinary

end Code

/-- The arguments that are not yet output, each with the number of its coordinate; the
last one is output again when there are too few.  The deltas are by coordinate. -/
structure Pending where
  args : List (Nat × Int)
  delta : Nat → Int
  outstr : List Int

namespace Pending

/-- The next argument is changed. -/
def edit (f : Int → Int) (p : Pending) : Pending :=
  match p.args with
  | [] => p
  | (k, arg) :: args => { p with args := (k, f arg) :: args }

def editAll (f : Int → Int) (p : Pending) : Pending :=
  { p with args := p.args.map fun a => (a.1, f a.2) }

/-- The next argument has been output. -/
def advance (p : Pending) : Pending :=
  match p.args with
  | _ :: a :: args => { p with args := a :: args }
  | _ => p

/-- The next argument is output in binary, as a char that the driver does not map. -/
def binary (p : Pending) : Pending :=
  match p.args with
  | [] => p
  | (k, arg) :: args =>
      let (value, correction) := acceptable 3 arg 0
      advance
        { args := (k, value) :: args
          delta := Function.update p.delta k (p.delta k + correction)
          outstr := p.outstr ++ [toChar value] }

def number (sprintf : Sprintf) (maxch : Nat) (ch : Char) (p : Pending) : Pending :=
  match p.args with
  | [] => p
  | (_, arg) :: _ =>
      advance { p with
        outstr := p.outstr ++ (sprintf (numberFormat ch).1 (numberFormat ch).2 arg).take
          (maxch - p.outstr.length) }

/-- What a code does. -/
def perform (sprintf : Sprintf) (maxch : Nat) (p : Pending) : Code → Pending
  | .text ch _ => { p with outstr := p.outstr ++ [(ch.toNat : Int)] }
  | .percent => { p with outstr := p.outstr ++ [('%'.toNat : Int)] }
  | .number ch _ => p.number sprintf maxch ch
  | .binary => p.binary
  | .add x => (p.edit fun arg => arg + x.toNat).binary
  | .exceed x y => p.edit fun arg => Tty.exceed arg x y
  | .reverse => { p with args := p.args.reverse }
  | .increment => p.editAll fun arg => arg + 1
  | .exclusiveOr => p.editAll Tty.exclusiveOr
  | .bcd => p.edit bcdEncode
  | .reverseCode => p.edit Tty.reverseCode

/-- The codes are performed until the output string is full. -/
def run (sprintf : Sprintf) (maxch : Nat) : Pending → List Code → Pending
  | p, [] => p
  | p, code :: codes =>
      if p.outstr.length ≥ maxch then p
      else run sprintf maxch (p.perform sprintf maxch code) codes

/-- The zero indexed coordinates. -/
def start (coords : Array1) (ncoords : Nat) : Pending :=
  ⟨(List.range' 1 ncoords).map fun k => (k, coords k - 1), fun _ => 0, []⟩

end Pending

/-- Every reversal comes before the first output, or when no more than one argument is
left to be output; in that case the number of reversals before was even, or there are
no corrections.  The position is that of the next argument. -/
def TurnsFit (nargs : Nat) (plain : Prop) : Nat → Bool → List Code → Prop
  | _, _, [] => True
  | argnum, odd, code :: codes =>
      if code.isReverse then
        if argnum = 1 then TurnsFit nargs plain 1 (!odd) codes
        else argnum = nargs ∧ (odd = false ∨ plain) ∧ TurnsFit nargs plain argnum odd codes
      else if code.isOutput then TurnsFit nargs plain (min nargs (argnum + 1)) odd codes
      else TurnsFit nargs plain argnum odd codes

end Iraf.Tty
