import Iraf.Cl.History
import Mathlib.Logic.Function.Basic

/-!
# Compiled code and the two stacks

`compile` and `comstr` of `pkg/cl/compile.c`, and `pkg/cl/stack.c`.  The array
`stack` holds compiled code from `pc` down, the operand stack from `topos` down and
the control stack from `topcs` up.  Addresses count from the first byte of it.
-/

namespace Iraf.Cl

def stacksiz : Int := 128000

/-- The cells of a `struct task`, which takes 200 bytes. -/
def tasksiz : Int := 25

/-- The cells of a `struct operand`. -/
def opsiz : Int := 2

/-- The value that an `int` keeps of an integer. -/
def toInt (x : Int) : Int := (x + 2 ^ 31) % 2 ^ 32 - 2 ^ 31

/-- The cells that a number of bytes takes, without the cast to `int`. -/
def cells (x : Nat) : Nat := (x + 7) / 8

def btoi (x : Nat) : Int := toInt (cells x)

/-- A `long` as the `unsigned long` that a cell is. -/
def cell (x : Int) : UInt64 := (Int64.ofInt x).toUInt64

def signed (v : UInt64) : Int := v.toInt64.toInt

theorem signed_cell {x : Int} (hlo : -2 ^ 63 ≤ x) (hhi : x < 2 ^ 63) : signed (cell x) = x :=
  Int64.toInt_ofInt_of_le hlo hhi

theorem toInt_eq {x : Int} (hlo : -2 ^ 31 ≤ x) (hhi : x < 2 ^ 31) : toInt x = x := by
  unfold toInt
  omega

/-! ## Opcodes -/

inductive Opcode where
  | ABSARGSET | ADD | ADDASSIGN | ADDPIPE | ALLAPPEND
  | ALLREDIR | AND | APPENDOUT | ASSIGN | BIFF
  | CALL | CASE | CHSIGN | CONCAT | DEFAULT
  | DIV | DIVASSIGN | END | EQ | EXEC
  | FSCAN | FSCANF | GE | GOTO | GETPIPE
  | GT | IMMED | INDIRABSSET | INDIRPOSSET | INDXINCR
  | INSPECT | INTRINSIC | LE | LT | MUL
  | MULASSIGN | NE | NOT | OR | OSESC
  | POSARGSET | POW | PRINT | PUSHCONST | PUSHINDEX
  | PUSHPARAM | REDIR | REDIRIN | RMPIPES | RETURN
  | SCAN | SCANF | SUB | SUBASSIGN | SWITCH
  | SWOFF | SWON | FIXLANGUAGE | GSREDIR | CATASSIGN
  /-- No opcode has this code. -/
  | unknown (code : UInt64)

def Opcode.code : Opcode → UInt64
  | .unknown code => code
  | opcode => UInt64.ofNat (opcode.ctorIdx + 1)

/-- What is compiled after the opcode and the length of an instruction. -/
inductive Layout where
  | string
  | operand
  | none
  | int
  /-- A cell for the argument of `SWITCH`, which is supplied later. -/
  | switch
  | case
  | twoInts
  | bad
  deriving DecidableEq, Repr

def Opcode.layout : Opcode → Layout
  | .ABSARGSET | .ADDASSIGN | .ASSIGN | .CALL | .CATASSIGN | .DIVASSIGN | .GETPIPE
  | .GSREDIR | .INDIRABSSET | .INSPECT | .INTRINSIC | .OSESC | .MULASSIGN | .PUSHPARAM
  | .SUBASSIGN | .SWOFF | .SWON => .string
  | .PUSHCONST => .operand
  | .ADD | .ALLAPPEND | .ALLREDIR | .AND | .APPENDOUT | .CHSIGN | .CONCAT | .DEFAULT
  | .DIV | .END | .EQ | .EXEC | .FSCAN | .FSCANF | .GE | .GT | .IMMED | .LE | .LT | .MUL
  | .NE | .NOT | .OR | .POW | .PRINT | .REDIR | .REDIRIN | .RETURN | .SCAN | .SCANF
  | .SUB | .FIXLANGUAGE => .none
  | .ADDPIPE | .BIFF | .GOTO | .INDIRPOSSET | .PUSHINDEX | .POSARGSET | .RMPIPES => .int
  | .SWITCH => .switch
  | .CASE => .case
  | .INDXINCR => .twoInts
  | .unknown _ => .bad

/-! ## The array -/

structure Operand where
  oType : UInt16
  oVal : UInt64

def otBasic : UInt16 := 3
def otString : UInt16 := 3

/-- `written` are the cells that `compile` and `pushop` stored into. -/
structure Stacks where
  stack : Int → UInt64
  pc : Int
  topos : Int
  topcs : Int
  basos : Int
  lastTaskFrame : Int
  written : List Int

/-- What an operation reports. -/
inductive Report where
  | normal
  | overflow
  | underflow
  | unknownOpcode
  deriving DecidableEq, Repr

namespace Stacks

/-- The state when the CL starts. -/
def initial : Stacks := ⟨fun _ => 0, 0, -1, stacksiz, -1, 0, []⟩

def poke (s : Stacks) (i : Int) (v : UInt64) : Stacks :=
  { s with stack := Function.update s.stack i v, written := i :: s.written }

/-- A cell with one of its bytes replaced. -/
def withByte (v : UInt64) (k : Int) (b : UInt8) : UInt64 :=
  let shift := UInt64.ofNat (8 * k.toNat)
  (v &&& ~~~(255 <<< shift)) ||| (b.toUInt64 <<< shift)

/-- The bytes from an address on. -/
def storeBytes : List UInt8 → Int → Stacks → Stacks
  | [], _, s => s
  | b :: bytes, loc, s =>
      storeBytes bytes (loc + 1) (s.poke (loc / 8) (withByte (s.stack (loc / 8)) (loc % 8) b))

/-- A string with its EOS, in the cells from `loc` on. -/
def putString (s : Stacks) (str : CString) (loc : Int) : Stacks :=
  storeBytes (str.chars ++ [EOS]) (8 * loc) s

/-- The cells that are taken up by the string. -/
def comstr (s : Stacks) (str : CString) (loc : Int) : Int × Stacks :=
  (btoi (str.chars.length + 1), s.putString str loc)

/-- The padding after the type is taken as zero. -/
def putOperand (s : Stacks) (op : Operand) (loc : Int) : Stacks :=
  (s.poke loc op.oType.toUInt64).poke (loc + 1) op.oVal

def getOperand (s : Stacks) (loc : Int) : Operand :=
  ⟨(s.stack loc).toUInt16, s.stack (loc + 1)⟩

/-- The address of a cell. -/
def address (loc : Int) : UInt64 := cell (8 * loc)

/-! ## Compiling -/

/-- The arguments, of which the opcode takes its own: the string is also the one
that an operand points at. -/
structure Args where
  str : CString
  op : Operand
  arg₁ : Int
  arg₂ : Int

/-- The status, and the length of the instruction after its first two cells. -/
def compileArgs (s : Stacks) (layout : Layout) (args : Args) (loc : Int) :
    Int × Int × Stacks :=
  match layout with
  | .string =>
      let (status, s) := s.comstr args.str loc
      (status, status, s)
  | .operand =>
      let s := s.putOperand args.op loc
      if args.op.oType &&& otBasic = otString then
        let (status, s) := s.comstr args.str (loc + opsiz)
        if status ≠ -1 then (status, opsiz + status, s.poke (loc + 1) (address (loc + opsiz)))
        else (status, opsiz, s)
      else (0, opsiz, s)
  | .none => (0, 0, s)
  | .int => (0, 1, s.poke loc (cell (toInt args.arg₁)))
  | .switch => (0, 1, s)
  | .case => (0, toInt args.arg₁, s)
  | .twoInts =>
      (0, 2, (s.poke loc (cell (toInt args.arg₁))).poke (loc + 1)
        (cell (toInt args.arg₂)))
  | .bad => (-1, 0, s)

/-- The address of the instruction, and `pc` after it. -/
def compile (s : Stacks) (opcode : Opcode) (args : Args) : Except Report Int × Stacks :=
  if s.pc > s.topcs - 20 then (.error .overflow, s)
  else
    let pc := s.pc
    let s := s.poke pc opcode.code
    if opcode.layout = .bad then (.error .unknownOpcode, s.poke (pc + 1) 2)
    else
      let (status, length, s) := s.compileArgs opcode.layout args (pc + 2)
      let s := s.poke (pc + 1) (cell (2 + length))
      if status ≠ -1 then (.ok pc, { s with pc := pc + (2 + length) })
      else (.error .overflow, s)

/-! ## Stacks -/

def pushmem (s : Stacks) (v : UInt64) : Except Report Unit × Stacks :=
  if s.topcs - 1 > s.topos then
    (.ok (), { s with
      topcs := s.topcs - 1, stack := Function.update s.stack (s.topcs - 1) v })
  else (.error .overflow, s)

def popmem (s : Stacks) : Except Report UInt64 × Stacks :=
  if s.topcs < stacksiz then (.ok (s.stack s.topcs), { s with topcs := s.topcs + 1 })
  else (.error .underflow, s)

/-- The end of `pushop`: the link to the operand below. -/
def linkOperand (s : Stacks) (lasttopos dest : Int) : Except Report Operand × Stacks :=
  let topos := s.topos + (opsiz + 1)
  let s := { s with topos := topos }
  let s := s.poke topos (cell (toInt lasttopos))
  (.ok (s.getOperand dest), s)

def pushop (s : Stacks) (op : Operand) (str : CString) : Except Report Operand × Stacks :=
  if s.topos + (opsiz + 1) < s.topcs then
    let dest := s.topos + 1
    let lasttopos := s.topos
    let s := s.putOperand op dest
    if op.oType = otString then
      let len := btoi (str.chars.length + 1)
      if s.topos + (opsiz + 1) + len ≥ s.topcs then (.error .overflow, s)
      else
        let loc := s.topos + (opsiz + 1)
        let s := (s.poke (dest + 1) (address loc)).putString str loc
        linkOperand { s with topos := s.topos + len } lasttopos dest
    else linkOperand s lasttopos dest
  else (.error .overflow, s)

def popop (s : Stacks) : Except Report Operand × Stacks :=
  if s.topos > s.basos then
    let topos := signed (s.stack s.topos)
    (.ok (s.getOperand (topos + 1)), { s with topos := topos })
  else (.error .underflow, s)

/-- The cell of the new frame. -/
def pushtask (s : Stacks) : Except Report Int × Stacks :=
  if s.topcs - tasksiz > s.topos then
    let topcs := s.topcs - tasksiz
    (.ok topcs, { s with topcs := topcs, lastTaskFrame := topcs })
  else (.error .overflow, s)

def poptask (s : Stacks) : Except Report Int × Stacks :=
  if s.topcs ≤ stacksiz - tasksiz then
    let topcs := (if s.topcs < s.lastTaskFrame then s.lastTaskFrame else s.topcs) + tasksiz
    (.ok topcs, { s with topcs := topcs, lastTaskFrame := topcs })
  else (.error .underflow, s)

end Stacks

end Iraf.Cl
