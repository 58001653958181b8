import Iraf.Lib.StepMachine
import Iraf.Selector.RowNumber
import Iraf.Selector.RowExpression

/-!
# Compiling a row selector

`trsgencode` compiles the tree of a row selection expression.  The parts of the
tree that are about row numbers become a row set and are cut off; the rest
becomes pseudocode for a stack machine, `trscalc`, which jumps over an operand
that cannot change the result.
-/

namespace Iraf.Selector.Trs

/-! ## Values and tables -/

/-- A pointer into the value buffer, with what is there. -/
inductive Value where
  | null
  | memd (d : ℚ)
  | memc (s : List Char)
  deriving DecidableEq

def Value.d : Value → ℚ
  | memd d => d
  | _ => 0

def Value.c : Value → List Char
  | memc s => s
  | _ => []

/-- What `tbegtd` and `tbegtt` read from a column and a row. -/
structure Table where
  tbegtd : Nat → Int → ℚ
  tbegtt : Nat → Int → List Char

def itoc (num : Int) : List Char := (toString num).toList

/-- Column 0 is `NULL`: the value is the row number. -/
def trsgetd (tp : Table) (cp : Nat) (irow : Int) : ℚ :=
  if cp = 0 then irow else tp.tbegtd cp irow

def trsgett (tp : Table) (cp : Nat) (irow : Int) : List Char :=
  if cp = 0 then itoc irow else tp.tbegtt cp irow

/-- The chars that the loop of `trstrim` keeps, and whether the last one that it saw was
white space. -/
def trstrimScan : Bool → List Char → List Char × Bool
  | flag, [] => ([], flag)
  | flag, ch :: str =>
      if ch > ' ' then (ch :: (trstrimScan false str).1, (trstrimScan false str).2)
      else if flag then trstrimScan true str
      else (' ' :: (trstrimScan true str).1, (trstrimScan true str).2)

def trstrim (str : List Char) : List Char :=
  let (kept, flag) := trstrimScan true str
  if flag then kept.dropLast else kept

def strle : List Char → List Char → Bool
  | [], _ => true
  | _ :: _, [] => false
  | a :: s1, b :: s2 => if a ≠ b then decide (a < b) else strle s1 s2

def strge : List Char → List Char → Bool
  | _, [] => true
  | [], _ :: _ => false
  | a :: s1, b :: s2 => if a ≠ b then decide (a > b) else strge s1 s2

def strgt : List Char → List Char → Bool
  | [], _ => false
  | _ :: _, [] => true
  | a :: s1, b :: s2 => if a ≠ b then decide (a > b) else strgt s1 s2

/-- A double assigned to an integer. -/
def int (d : ℚ) : Int := if 0 ≤ d then ⌊d⌋ else ⌈d⌉

/-! ## The tree -/

/-- The operations of `trs.h`. -/
inductive Oper where
  | ydone
  | yrange
  | yand
  | yor
  | ynot
  | yeqn
  | yeqs
  | ylen
  | yles
  | yinn
  | yins
  | ygen
  | yges
  | ymsk
  deriving DecidableEq, Repr

/-- The leaves, with the values that their fields point to. -/
inductive Test where
  | eqn (a : ℚ)
  | eqs (s : List Char)
  | len (b : ℚ)
  | les (s : List Char)
  | inn (a b : ℚ)
  | ins (s t : List Char)
  | gen (a : ℚ)
  | ges (s : List Char)
  | msk (a : ℚ)
  deriving DecidableEq

/-- What may stand behind the equal sign of a filter. -/
inductive RangeList where
  | test (t : Test)
  | yor (left right : RangeList)
  | ynot (arg : RangeList)
  deriving DecidableEq

/-- The nodes above.  An operand that is left out is `NULL`, and so is the column of a range of
row numbers. -/
inductive Filter where
  | null
  | yrange (list : RangeList) (cptr : Nat)
  | yand (left right : Filter)
  | ynot (arg : Filter)
  deriving DecidableEq

inductive TrsError where
  /-- "trs_roweval: stack overflow", or a read below the stack. -/
  | roweval (error : RowError)
  /-- "trs_roweval: bad instruction" -/
  | badcode
  /-- "Table row selection expression too complex" -/
  | noroom
  /-- "trscalc: stack overflow" -/
  | ovflow
  /-- "trscalc: bad instruction" -/
  | badinst
  /-- The source reads outside of the tree or the stack here. -/
  | outside
  deriving DecidableEq, Repr

/-! ## Row expressions -/

/-- Is the node over the range of a row number? -/
def trsOverTree : Filter → Bool
  | .null => false
  | .yrange _ cptr => cptr == 0
  | .yand left right => trsOverTree left || trsOverTree right
  | .ynot arg => trsOverTree arg

/-- A node below the range of a row number. -/
inductive RowNode where
  | test (t : Test)
  | yor
  | ynot
  deriving DecidableEq

def RangeList.nodes : RangeList → List RowNode
  | test t => [.test t]
  | yor left right => left.nodes ++ right.nodes ++ [.yor]
  | ynot arg => arg.nodes ++ [.ynot]

/-- The nodes for which `trs_under_tree` holds, in postfix order. -/
def Filter.rowNodes : Filter → List RowNode
  | null => []
  | yrange list cptr => if cptr = 0 then list.nodes else []
  | yand left right => left.rowNodes ++ right.rowNodes
  | ynot arg => arg.rowNodes

/-- The instructions that `trsroweval` knows. -/
def RowNode.inst : RowNode → Option RowInst
  | test (.eqn a) => some (.yeqn (int a))
  | test (.len b) => some (.ylen (int b))
  | test (.inn a b) => some (.yinn (int a) (int b))
  | test (.gen a) => some (.ygen (int a))
  | test _ => none
  | yor => some .yor
  | ynot => some .ynot

def evalNode (nrow : Int) (eval : List Rst) (node : RowNode) : Except TrsError (List Rst) :=
  match node.inst with
  | some code => (trsroweval code nrow eval).mapError .roweval
  | none => .error (if eval.length = MAXDEPTH then .roweval .ovflow else .badcode)

/-- The sets that are left are combined with ands. -/
def evalRows (nodes : List RowNode) (nrow : Int) : Except TrsError Rst := do
  let eval ← nodes.foldlM (evalNode nrow) []
  let eval ← (List.replicate (eval.length - 1) RowInst.yand).foldlM
    (fun eval code => (trsroweval code nrow eval).mapError .roweval) eval
  match eval.getLast? with
  | some set => .ok set
  | none => .error .outside

/-- The tree without its row ranges, and without the logicals that have lost both branches. -/
def Filter.snip : Filter → Filter
  | null => null
  | yrange list cptr => if cptr = 0 then null else yrange list cptr
  | yand left right =>
      if left.snip = null ∧ right.snip = null then null else yand left.snip right.snip
  | ynot arg => ynot arg.snip

/-- Evaluate the row ranges and remove them from the tree. -/
def trsoptimize (root : Filter) (nrow : Int) : Except TrsError (Rst × Filter) := do
  let set ← evalRows root.rowNodes nrow
  return (set, root.snip)

/-! ## Pseudocode -/

def SZ_INSTR : Nat := 6
def SZ_BUFFER : Nat := 600
def MAXSTACK : Nat := 8
def OCOLUMN : Nat := 1
def OTJUMP : Nat := 2
def OFJUMP : Nat := 3
def ERR : Int := -1

structure Instr where
  code : Oper
  column : Nat
  tjump : Nat
  fjump : Nat
  loval : Value
  hival : Value
  deriving DecidableEq

def Test.oper : Test → Oper
  | eqn _ => .yeqn
  | eqs _ => .yeqs
  | len _ => .ylen
  | les _ => .yles
  | inn _ _ => .yinn
  | ins _ _ => .yins
  | gen _ => .ygen
  | ges _ => .yges
  | msk _ => .ymsk

/-- The smaller and the larger of the two values; a single value is both. -/
def Test.trsvalue : Test → Value × Value
  | eqn a => (.memd a, .memd a)
  | eqs s => (.memc s, .memc s)
  | len b => (.memd b, .memd b)
  | les s => (.memc s, .memc s)
  | inn a b => if b > a then (.memd a, .memd b) else (.memd b, .memd a)
  | ins s t => if strgt t s then (.memc s, .memc t) else (.memc t, .memc s)
  | gen a => (.memd a, .memd a)
  | ges s => (.memc s, .memc s)
  | msk a => (.memd a, .memd a)

/-- The instruction of a leaf. -/
def Test.instr (t : Test) (col : Nat) : Instr :=
  ⟨t.oper, col, 0, 0, t.trsvalue.1, t.trsvalue.2⟩

/-- The instruction of a node that has no column. -/
def logical (oper : Oper) : Instr := ⟨oper, 0, 0, 0, .null, .null⟩

def RangeList.putcode (col : Nat) : RangeList → List Instr
  | test t => [t.instr col]
  | yor left right => left.putcode col ++ right.putcode col ++ [logical .yor]
  | ynot arg => arg.putcode col ++ [logical .ynot]

/-- A logical with one branch is not encoded. -/
def Filter.putcode : Filter → List Instr
  | null => []
  | yrange list cptr => list.putcode cptr ++ [logical .yrange]
  | yand left right =>
      if left = null ∨ right = null then left.putcode ++ right.putcode
      else left.putcode ++ right.putcode ++ [logical .yand]
  | ynot arg => arg.putcode ++ [logical .ynot]

def trsputcode (root : Filter) : Except TrsError (List Instr) :=
  let code := root.putcode ++ [logical .ydone]
  if SZ_INSTR * code.length < SZ_BUFFER then .ok code else .error .noroom

/-- `TREE_INST` of the root of a tree whose code begins at `icode`. -/
def RangeList.inst (icode : Nat) (list : RangeList) : Nat :=
  icode + SZ_INSTR * ((list.putcode 0).length - 1)

def Filter.inst (icode : Nat) : Filter → Int
  | yand left right =>
      if left = null ∨ right = null then ERR
      else icode + SZ_INSTR * ((yand left right).putcode.length - 1)
  | root => icode + SZ_INSTR * (root.putcode.length - 1)

/-- Store a jump in field `cell` of an instruction. -/
def Instr.put (cell jump : Nat) (inst : Instr) : Instr :=
  if cell = OCOLUMN then { inst with column := jump }
  else if cell = OTJUMP then { inst with tjump := jump }
  else if cell = OFJUMP then { inst with fjump := jump }
  else inst

/-- `Memi[codebuf+icode] = jump` -/
def poke (codebuf : List Instr) (icode : Int) (jump : Nat) : List Instr :=
  codebuf.modify (icode / SZ_INSTR).toNat (Instr.put (icode % SZ_INSTR).toNat jump)

def RangeList.putjump (icode : Nat) : RangeList → List Instr → List Instr
  | test _, codebuf => codebuf
  | yor left right, codebuf =>
      let next := icode + SZ_INSTR * (left.putcode 0).length
      poke (right.putjump next (left.putjump icode codebuf))
        ((left.inst icode : Int) + OTJUMP) ((yor left right).inst icode)
  | ynot arg, codebuf => arg.putjump icode codebuf

/-- The `TREE_INST` of a left branch that was not encoded is `ERR`; the jump is stored all the
same. -/
def Filter.putjump (icode : Nat) : Filter → List Instr → List Instr
  | null, codebuf => codebuf
  | yrange list _, codebuf => list.putjump icode codebuf
  | yand left right, codebuf =>
      let next := icode + SZ_INSTR * left.putcode.length
      let codebuf := right.putjump next (left.putjump icode codebuf)
      if left = null ∨ right = null then codebuf
      else poke codebuf (left.inst icode + OFJUMP)
        (icode + SZ_INSTR * ((yand left right).putcode.length - 1))
  | ynot arg, codebuf => arg.putjump icode codebuf

structure Pcode where
  rows : Rst
  code : List Instr
  deriving DecidableEq

/-- The result of the instructions that test a column. -/
def Instr.test (tp : Table) (irow : Int) (inst : Instr) : Option Bool :=
  let val := trsgetd tp inst.column irow
  let str := trstrim (trsgett tp inst.column irow)
  match inst.code with
  | .yeqn => some (decide (val = inst.loval.d))
  | .yeqs => some (decide (str = inst.loval.c))
  | .ylen => some (decide (val ≤ inst.loval.d))
  | .yles => some (strle str inst.loval.c)
  | .yinn => some (decide (val ≥ inst.loval.d) && decide (val ≤ inst.hival.d))
  | .yins => some (strge str inst.loval.c && strle str inst.hival.c)
  | .ygen => some (decide (val ≥ inst.loval.d))
  | .yges => some (strge str inst.loval.c)
  | .ymsk => some (decide (Int.land (int val) (int inst.loval.d) = int inst.loval.d))
  | _ => none

/-- The stack after an instruction, its top first. -/
def Instr.exec (tp : Table) (irow : Int) (jump : Bool) (inst : Instr) (stack : List Bool) :
    Except TrsError (List Bool) :=
  match inst.code, stack with
  | .yrange, stack => .ok stack
  | .yand, b :: a :: stack => .ok (if jump then b :: a :: stack else (a && b) :: stack)
  | .yand, stack => if jump then .ok stack else .error .outside
  | .yor, b :: a :: stack => .ok (if jump then b :: a :: stack else (a || b) :: stack)
  | .yor, stack => if jump then .ok stack else .error .outside
  | .ynot, a :: stack => .ok ((!a) :: stack)
  | .ynot, [] => .error .outside
  | _, stack =>
      match inst.test tp irow with
      | some result => .ok (result :: stack)
      | none => .error .badinst

structure Calc where
  stack : List Bool
  icode : Nat
  jump : Bool
  deriving DecidableEq, Repr

/-- Perform a jump if the jump field for the result is not `NULL`. -/
def Instr.jumpOn (inst : Instr) (icode : Nat) (result : Bool) (stack : List Bool) : Calc :=
  if inst.tjump ≠ 0 ∧ result = true then ⟨stack, inst.tjump, true⟩
  else if inst.fjump ≠ 0 ∧ result = false then ⟨stack, inst.fjump, true⟩
  else ⟨stack, icode + SZ_INSTR, false⟩

def Instr.next (inst : Instr) (icode : Nat) : List Bool → Except TrsError Calc
  | result :: stack => .ok (inst.jumpOn icode result (result :: stack))
  | [] =>
      if inst.tjump = 0 ∧ inst.fjump = 0 then .ok ⟨[], icode + SZ_INSTR, false⟩
      else .error .outside

/-- One turn of the loop of `trscalc`.  The result is at the bottom of the stack; that of an
empty program is true. -/
def trscalcStep (tp : Table) (irow : Int) (codebuf : List Instr) (st : Calc) :
    Except TrsError (Calc ⊕ Bool) :=
  if st.stack.length = MAXSTACK then .error .ovflow
  else match codebuf[st.icode / SZ_INSTR]? with
    | none => .error .badinst
    | some inst =>
        if inst.code = .ydone then .ok (.inr (st.stack.getLast?.getD true))
        else do
          let stack ← inst.exec tp irow st.jump st.stack
          let st ← inst.next st.icode stack
          return .inl st

def trscalc (fuel : Nat) (tp : Table) (irow : Int) (codebuf : List Instr) :
    Option (Except TrsError Bool) :=
  StepMachine.run (trscalcStep tp irow codebuf) fuel ⟨[], 0, false⟩

end Iraf.Selector.Trs
