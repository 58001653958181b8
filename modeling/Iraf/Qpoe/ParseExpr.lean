import Iraf.Fmtio.Gctol
import Iraf.Fmtio.Lexnum
import Iraf.Lib.StepMachine
import Iraf.Qpoe.RangeMerge

/-!
# Parsing attribute expressions

`qpex_parsei`: the terms of an integer attribute expression are entered as a list of
breakpoints, in the order of the string, which is then sorted and collapsed into a list of
ranges.  A string is the list of its chars, and an index into it is given by the chars from
there on.
-/

namespace Iraf.Qpoe

open Iraf.Fmtio Iraf.Fmtio.LongText Iraf.StepMachine

/-- `qp_ctoi`: the number of chars, the value and the text after the number. -/
def qpCtoi (str : List Char) : Int × Int × List Char :=
  let base := match (lexnum str).1 with
    | .octal => 8
    | .hex => 16
    | _ => 10
  let n := gctol str base
  (n.nchars, n.lval, str.drop n.used)

def maxNest : Nat := 20

/-- The step at the boundary of a range of accepted values. -/
def step : Int := 1

/-- The step at the boundary of a range of excluded values. -/
def zero : Int := 1000

/-- A breakpoint: its position, 0 or 1 for the first or second of a pair, and its step. -/
structure Breakpoint where
  xv : Int
  uv : Int
  sv : Int
  deriving DecidableEq

def Breakpoint.invert (b : Breakpoint) : Breakpoint :=
  if b.sv = step then { b with sv := -zero }
  else if b.sv = -step then { b with sv := zero }
  else if b.sv = zero then { b with sv := -step }
  else if b.sv = -zero then { b with sv := step }
  else b

/-- The two breakpoints of a range. -/
def breakpoints (xstart xend : Int) : List Breakpoint :=
  [⟨xstart, 0, step⟩, ⟨xend, 1, -step⟩]

/-- The rest of the string, the tokens on the stack with the top first, each with the number
of breakpoints before it, and the breakpoints. -/
structure Parser where
  ip : List Char
  stack : List (Char × Nat)
  list : List Breakpoint
  deriving DecidableEq

inductive ParseFault
  | level
  | missingLeftParen
  | rightParen
  | badRange
  | turns
  deriving DecidableEq

namespace Parser

/-- The code at `pop_`. -/
def pop (p : Parser) : Parser :=
  match p.stack with
  | ('!', n) :: stack =>
      { p with stack, list := p.list.take n ++ (p.list.drop n).map Breakpoint.invert }
  | _ => p

def push (p : Parser) (ch : Char) (ip : List Char) : Except ParseFault Parser :=
  if p.stack.length + 1 > maxNest then .error .level
  else .ok { p with ip, stack := (ch, p.list.length) :: p.stack }

end Parser

/-- The first number of a range term, the colon or the hyphen, and the second number. -/
def scanRange (expr : List Char) : Bool × Int × Int × List Char :=
  let (nchars, val, ip) := qpCtoi expr
  let xstart := if nchars ≤ 0 then -maxInt else val
  let ip := ip.dropWhile isWhite
  let (range, ip) := match ip with
    | ':' :: after => (true, after)
    | '-' :: after => if xstart = -maxInt then (false, ip) else (true, after)
    | _ => (false, ip)
  if range then
    let (nchars, val, ip) := qpCtoi ip
    let xend := if nchars ≤ 0 then maxInt else val
    (xstart != xend, xstart, xend, ip)
  else (false, xstart, xstart, ip)

/-- The breakpoints of a term and the text after it. -/
def scanTerm (expr : List Char) : Except ParseFault (List Breakpoint × List Char) :=
  let (range, xstart, xend, ip) := scanRange expr
  if !range then
    if xstart = -maxInt then .error .badRange
    else .ok (breakpoints xstart (xstart + 1), ip)
  else
    let lo := if xstart > xend then xend else xstart
    let hi := if xstart > xend then xstart else xend
    .ok (breakpoints lo (if hi = maxInt then hi else hi + 1), ip)

def parseStep (p : Parser) : Except ParseFault (Parser ⊕ List Breakpoint) :=
  match p.ip with
  | [] => .ok (.inr p.list)
  | _ :: _ =>
      match p.ip.dropWhile fun c => isWhite c || c == newline with
      | [] =>
          if p.stack.length > 0 then .ok (.inl { p with ip := [] }.pop)
          else .ok (.inr p.list)
      | ',' :: ip => .ok (.inl { p with ip }.pop)
      | '!' :: ip => (p.push '!' ip).map .inl
      | '(' :: ip => (p.push '(' ip).map .inl
      | ')' :: ip =>
          match p.stack with
          | [] => .error .missingLeftParen
          | (token, _) :: stack =>
              if token = '(' then .ok (.inl { p with ip, stack }.pop)
              else .error .rightParen
      | ip =>
          (scanTerm ip).map fun (term, ip) => .inl { p with ip, list := p.list ++ term }.pop

/-- The list with the full line when the first range is an excluded one. -/
def addFullLine (list : List Breakpoint) : List Breakpoint :=
  match list.head? with
  | some b => if b.sv = -zero then list ++ breakpoints (-maxInt) maxInt else list
  | none => list

def Breakpoint.before (b c : Breakpoint) : Bool :=
  b.xv < c.xv || b.xv == c.xv && b.uv < c.uv

/-- The least breakpoint that follows, when it comes before `m`, and its index. -/
def leastBefore (m : Breakpoint) : Nat → List Breakpoint → Option (Nat × Breakpoint)
  | _, [] => none
  | i, b :: bs =>
      if b.before m then (leastBefore b (i + 1) bs).or (some (i, b))
      else leastBefore m (i + 1) bs

/-- The least breakpoint is exchanged with the first one, again and again. -/
def sortBreakpoints : Nat → List Breakpoint → List Breakpoint
  | fuel + 1, b :: bs =>
      match leastBefore b 0 bs with
      | some (i, m) => m :: sortBreakpoints fuel (bs.set i b)
      | none => b :: sortBreakpoints fuel bs
  | _, bs => bs

/-- The running sum, and the start of the range of nonzero value that is under way. -/
structure Sweep where
  y : Int
  nxs : Option Int
  deriving DecidableEq

/-- A single breakpoint at `x`: the new state, and the range that ends there. -/
def Sweep.at (s : Sweep) (x dy : Int) : Sweep × Option (Int × Int) :=
  let y := s.y + dy
  let v := max 0 (min 1 y)
  match s.nxs with
  | none => if v = 1 then (⟨y, some x⟩, none) else (⟨y, none⟩, none)
  | some start =>
      if v = 0 then (⟨y, none⟩, some (start, if x = maxInt then x else x - 1))
      else (⟨y, some start⟩, none)

/-- Breakpoints of one position make a single one. -/
def collapse : Nat → Sweep → List Breakpoint → List (Int × Int)
  | fuel + 1, s, b :: bs =>
      let same := bs.takeWhile fun c => c.xv == b.xv
      let (s, range) := s.at b.xv (b.sv + (same.map Breakpoint.sv).sum)
      range.toList ++ collapse fuel s (bs.drop same.length)
  | _, _, _ => []

/-- The range list of the breakpoints. -/
def rangesOf (list : List Breakpoint) : List (Int × Int) :=
  let list := addFullLine list
  let sorted := sortBreakpoints list.length list
  collapse sorted.length ⟨0, none⟩ sorted

def qpexParsei (expr : List Char) : Except ParseFault (List (Int × Int)) :=
  match run parseStep (expr.length + 1) ⟨expr, [], []⟩ with
  | some r => r.map rangesOf
  | none => .error .turns

end Iraf.Qpoe
