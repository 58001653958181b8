import Iraf.Lib.Links
import Iraf.Qpoe.LookupTable
import Iraf.Qpoe.ParseExpr
import Iraf.Plio.Defs

/-!
# The compiled event filter

The QPEX descriptor: the program buffer, and the data buffer with the linked lists of
expression terms and lookup tables.  A pointer is an integer and NULL is 0.  The procedures
of `qpexdata.x` allocate storage in the buffers and free it again.

`qpex_codegeni` and `qpex_sublisti`.  A range list is
compiled as a single test, as a list of tests, or as a lookup table with subprograms for the
bins that are neither inside nor outside of the ranges.  The lists of a table and of its
bins lie behind one another in the same buffers.
-/

namespace Iraf.Qpoe

/-- The opcodes of integer attributes. -/
inductive Opcode
  | pass
  | ret
  | nop
  | goto
  | xift
  | xiff
  | ldsi
  | ldii
  | btti
  | eqli
  | leqi
  | geqi
  | rngi
  | bttxs
  | bttxi
  | neqxs
  | neqxi
  | eqlxs
  | eqlxi
  | leqxs
  | leqxi
  | geqxs
  | geqxi
  | rngxs
  | rngxi
  | lutxs
  | lutxi
  deriving DecidableEq

/-- An instruction; cleared memory is a PASS. -/
structure Instr where
  opcode : Opcode := .pass
  iarg1 : Int := 0
  iarg2 : Int := 0
  iarg3 : Int := 0
  deriving DecidableEq, Inhabited

def lenInstruction : Int := 4

/-- The datatype of an attribute. -/
inductive AttrType
  | short
  | int
  | real
  | double
  deriving DecidableEq, Inhabited

/-- Expression terms descriptor. -/
structure ExprTerm where
  atttype : AttrType
  attoff : Int
  progptr : Int
  ninstr : Int
  deleted : Bool
  atname : List Char
  assignop : List Char
  exprtext : List Char
  next : Option Int
  deriving Inhabited

/-- Lookup table descriptor, with the table itself. -/
structure LookupTable where
  next : Option Int
  scaling : LutScaling
  left : Int
  right : Int
  lut : List Int

instance : Inhabited LookupTable := ⟨⟨none, ⟨0, 0, 0⟩, 0, 0, []⟩⟩

/-- The QPEX descriptor; `et`, `lt` and `prog` are the memory that pointers point to. -/
structure Ex where
  sizes : LutSizes
  pb : Int
  pbtop : Int
  pbop : Int
  db : Int
  dbtop : Int
  dbop : Int
  ethead : Option Int
  ettail : Option Int
  lthead : Option Int
  et : Int → ExprTerm
  lt : Int → LookupTable
  prog : Int → Instr

inductive QpexFault
  | pbOverflow
  | dbOverflow
  | parse (fault : ParseFault)
  | divideByZero
  | listBounds
  deriving DecidableEq

/-! ## Storage -/

def szDouble : Int := 4

def szStruct : Int := 4

def lenEtdes : Int := 9

def lenLtdes : Int := 10

/-- A pointer to chars as a pointer to structures. -/
def coerceStruct (op : Int) : Int := (op - 1) / szStruct + 1

/-- The next position that is aligned for a double. -/
def align (op : Int) : Int := op + (-(op - 1)) % szDouble

/-- `qpex_dballoc` for structures. -/
def qpexDballoc (ex : Ex) (nelem : Int) : Except QpexFault (Int × Ex) :=
  let op := align ex.dbop
  let top := op + nelem * szStruct
  if top ≥ ex.dbtop then .error .dbOverflow
  else .ok (coerceStruct op, { ex with dbop := top })

/-- `qpex_dbpstr`: the room that a string takes. -/
def qpexDbpstr (ex : Ex) (strval : List Char) : Except QpexFault Ex :=
  let nchars : Int := strval.length + 1
  if ex.dbop + nchars ≥ ex.dbtop then .error .dbOverflow
  else .ok { ex with dbop := ex.dbop + nchars }

def qpexPbpin (ex : Ex) (instr : Instr) : Except QpexFault Ex :=
  if ex.pbop ≥ ex.pbtop then .error .pbOverflow
  else .ok { ex with
    prog := Function.update ex.prog ex.pbop instr
    pbop := ex.pbop + lenInstruction }

/-! ## The lists -/

def Ex.etNext (ex : Ex) (et : Int) : Option Int := (ex.et et).next

def Ex.ltNext (ex : Ex) (lt : Int) : Option Int := (ex.lt lt).next

/-- The data buffer holds not more descriptors than it has chars. -/
def Ex.dbLen (ex : Ex) : Nat := (ex.dbtop - ex.db).toNat

/-- The terms that a loop along the list passes. -/
def Ex.eterms (ex : Ex) : List Int := walk ex.etNext (ex.dbLen + 1) ex.ethead

def Ex.luts (ex : Ex) : List Int := walk ex.ltNext (ex.dbLen + 1) ex.lthead

/-- `qpex_free`: free storage back to the marked points. -/
def qpexFree (ex : Ex) (pbSave dbSave : Int) : Ex :=
  let top := coerceStruct dbSave
  let lthead := ex.luts.foldl
    (fun lthead lt => if lt ≥ top then (ex.lt lt).next else lthead) ex.lthead
  -- `prev` is NULL before the loop over the terms and is not assigned in it
  let prev : Option Int := none
  let ettail := if (ex.eterms.find? fun et => decide (et ≥ top)).isSome then prev else ex.ettail
  { ex with
    prog := fun i => if pbSave ≤ i ∧ i < ex.pbtop then default else ex.prog i
    pbop := pbSave
    lthead, ettail
    dbop := dbSave }

/-- `qpex_getfilter`. -/
def qpexGetfilter (ex : Ex) (maxch : Nat) : List Char :=
  let text := ex.eterms.foldl (fun out p =>
    let et := ex.et p
    if et.deleted then out
    else
      let out := if out.length > 0 then out ++ [',', ' '] else out
      out ++ et.atname ++ ' ' :: et.assignop ++ ' ' :: et.exprtext) []
  text.take maxch

/-! ## Compiling a term -/

/-- A term of an expression list, with its attribute looked up. -/
structure Stmt where
  atname : List Char
  assignop : List Char
  expr : List Char
  offset : Int
  dtype : AttrType

inductive Status
  | ok
  | err
  deriving DecidableEq

/-- The descriptor of a new term, linked onto the tail of the list. -/
def linkTerm (ex : Ex) (s : Stmt) : Except QpexFault (Int × Ex) := do
  let (et, ex) ← qpexDballoc ex lenEtdes
  let ex ← qpexDbpstr ex s.atname
  let ex ← qpexDbpstr ex s.assignop
  let ex ← qpexDbpstr ex s.expr
  let term : ExprTerm :=
    { atttype := s.dtype, attoff := s.offset, progptr := ex.pbop, ninstr := (ex.et et).ninstr
      deleted := false, atname := s.atname, assignop := s.assignop, exprtext := s.expr, next := none }
  let cells := match ex.ettail with
    | some prev => Function.update ex.et prev { ex.et prev with next := some et }
    | none => ex.et
  return (et, { ex with
    et := Function.update cells et term
    ettail := some et
    ethead := some (ex.ethead.getD et) })

/-- `qpex_codegen`, where `code` compiles the expression. -/
def qpexCodegen (code : Stmt → Ex → Except QpexFault (Status × Ex)) (ex : Ex) (s : Stmt) :
    Except QpexFault (Status × Ex) := do
  let (et, linked) ← linkTerm ex s
  let (status, compiled) ← code s linked
  match status with
  | .ok =>
      let ninstr := (compiled.pbop - (compiled.et et).progptr) / lenInstruction
      return (.ok, { compiled with
        et := Function.update compiled.et et { compiled.et et with ninstr } })
  | .err => return (.err, qpexFree compiled ex.pbop ex.dbop)

/-- `qpex_delete`: the terms of an attribute become jumps over their code. -/
def deleteTerm (ex : Ex) (p : Int) : Ex :=
  let et := ex.et p
  let prog := fun i =>
    if i = et.progptr then
      { opcode := .goto, iarg1 := et.progptr + et.ninstr * lenInstruction }
    else if et.progptr < i ∧ i < et.progptr + et.ninstr * lenInstruction then
      { opcode := .nop }
    else ex.prog i
  { ex with prog, et := Function.update ex.et p { et with deleted := true } }

/-- The loop over the terms up to the last one to be edited. -/
def deleteLoop (etLast offset : Int) (dtype : AttrType) : List Int → Ex → Ex
  | [], ex => ex
  | p :: ps, ex =>
      let et := ex.et p
      -- a term that is skipped is not compared with the last one
      if et.deleted then deleteLoop etLast offset dtype ps ex
      else if et.attoff ≠ offset ∨ et.atttype ≠ dtype then deleteLoop etLast offset dtype ps ex
      else
        let ex := deleteTerm ex p
        if p = etLast then ex else deleteLoop etLast offset dtype ps ex

def qpexDelete (ex : Ex) (etLast : Option Int) (offset : Int) (dtype : AttrType) : Ex :=
  match etLast with
  | none => ex
  | some etLast => deleteLoop etLast offset dtype ex.eterms ex

/-- `qpex_open` with an empty expression, for buffers at `pb` and `db`. -/
def qpexOpen (sizes : LutSizes) (pb pbLen db dbLen : Int) : Ex where
  sizes := sizes
  pb := pb
  pbtop := pb + pbLen
  pbop := pb
  db := db
  dbtop := db + dbLen
  dbop := db
  ethead := none
  ettail := none
  lthead := none
  et := fun _ => default
  lt := fun _ => default
  prog := fun _ => default

/-! ## Code for integer attributes -/

open Iraf.Plio

/-! ## Bitmasks -/

structure Bitmask where
  complement : Bool
  level : Int
  maskval : Int

/-- The characters of a bitmask expression; none when it is a bad one. -/
def scanBitmask : Nat → List Char → Bitmask → Option Bitmask
  | 0, _, b => some b
  | fuel + 1, expr, b =>
      match expr with
      | [] => some b
      | '!' :: rest => scanBitmask fuel rest { b with complement := !b.complement }
      | '(' :: rest => scanBitmask fuel rest { b with level := b.level + 1 }
      | '[' :: rest => scanBitmask fuel rest { b with level := b.level + 1 }
      | ')' :: rest => scanBitmask fuel rest { b with level := b.level - 1 }
      | ']' :: rest => scanBitmask fuel rest { b with level := b.level - 1 }
      | '%' :: rest =>
          let (nchars, maskval, rest) := qpCtoi rest
          if nchars < 0 then none else scanBitmask fuel rest { b with maskval }
      | _ => none

/-! ## Sublists -/

/-- The buffers `xs_buf` and `xe_buf`; nothing is known of what lies behind the lists. -/
abbrev RangeBuf := Nat → Int × Int

/-- The ranges from `xs` on. -/
def rangesAt (buf : RangeBuf) (xs nranges : Nat) : List (Int × Int) :=
  (List.range nranges).map fun i => buf (xs + i)

/-- `while (x1 < xs[ip] && ip > 1) ip = ip - 1`. -/
def sublistBack (buf : RangeBuf) (xs : Nat) (x1 : Int) : Nat → Nat
  | 0 => 0
  | ip + 1 => if x1 < (buf (xs + ip)).1 ∧ ip + 1 > 1 then sublistBack buf xs x1 ip else ip + 1

/-- The range that holds `x1` or follows it, with so many ranges behind `ip`. -/
def sublistForward (buf : RangeBuf) (xs : Nat) (x1 : Int) : Nat → Nat → Nat
  | 0, ip => ip
  | left + 1, ip =>
      let r := buf (xs + ip - 1)
      if x1 ≥ r.1 ∧ ¬ x1 ≤ r.2 then sublistForward buf xs x1 left (ip + 1) else ip

/-- `do i = ip, nranges`: `op` ranges are put out behind the list, which the loop may read. -/
def sublistCopy (xs nranges : Nat) (x1 x2 : Int) :
    Nat → Nat → Nat → RangeBuf → RangeBuf × Nat × Nat
  | 0, i, op, buf => (buf, op, i)
  | left + 1, i, op, buf =>
      let r := buf (xs + i - 1)
      let first := if r.1 ≤ x1 then -maxInt else r.1
      if r.2 - x2 ≥ 0 then
        (Function.update buf (xs + nranges + op) (first, maxInt), op + 1, i)
      else
        let buf := Function.update buf (xs + nranges + op) (first, r.2)
        if (buf (xs + i)).1 > x2 then (buf, op + 1, i)
        else sublistCopy xs nranges x1 x2 left (i + 1) (op + 1) buf

/-- `qpex_sublisti`: the buffers, the number of ranges, and the new `ip`. -/
def qpexSublisti (x1 x2 : Int) (xs nranges ip : Nat) (buf : RangeBuf) : RangeBuf × Nat × Nat :=
  let ip := sublistBack buf xs x1 ip
  let ip := sublistForward buf xs x1 (nranges - ip) ip
  if (buf (xs + ip - 1)).1 > x2 then (buf, 0, ip)
  else sublistCopy xs nranges x1 x2 (nranges + 1 - ip) ip 0 buf

/-! ## Range lists -/

/-- The load, test and exit in a single instruction. -/
def singleTest (s : Stmt) (x1 x2 : Int) : Option Instr :=
  let short := s.dtype = .short
  if intMarks.isLeft x1 && intMarks.isRight x2 then none
  else if intMarks.isLeft x1 then
    some { opcode := if short then .leqxs else .leqxi, iarg1 := s.offset, iarg2 := x2 }
  else if intMarks.isRight x2 then
    some { opcode := if short then .geqxs else .geqxi, iarg1 := s.offset, iarg2 := x1 }
  else if x1 = x2 then
    some { opcode := if short then .eqlxs else .eqlxi, iarg1 := s.offset, iarg2 := x1, iarg3 := x2 }
  else
    some { opcode := if short then .rngxs else .rngxi, iarg1 := s.offset, iarg2 := x1, iarg3 := x2 }

/-- The test of the value in the register. -/
def registerTest (r : Int × Int) : Instr :=
  if intMarks.isLeft r.1 then { opcode := .leqi, iarg1 := r.2 }
  else if intMarks.isRight r.2 then { opcode := .geqi, iarg1 := r.1 }
  else if r.1 = r.2 then { opcode := .eqli, iarg1 := r.1, iarg2 := r.2 }
  else { opcode := .rngi, iarg1 := r.1, iarg2 := r.2 }

/-- The value that `!X` excludes, as a list of the ranges on both sides of it. -/
def excludedValue : List (Int × Int) → Option Int
  | [r, r'] =>
      if intMarks.isLeft r.1 && intMarks.isRight r'.2 && r.2 + 1 == r'.1 - 1 then some (r.2 + 1)
      else none
  | _ => none

def emitAll : List Instr → Ex → Except QpexFault Ex
  | [], ex => .ok ex
  | i :: is, ex => do
      let ex ← qpexPbpin ex i
      emitAll is ex

/-- The instructions of a list of explicit tests; a subprogram has its register loaded. -/
def explicitTests (s : Stmt) (level0 : Bool) (rl : List (Int × Int)) : List Instr :=
  match excludedValue rl with
  | some x => [{ opcode := if s.dtype = .short then .neqxs else .neqxi, iarg1 := s.offset, iarg2 := x }]
  | none =>
      (if level0 then
        [{ opcode := if s.dtype = .short then .ldsi else .ldii, iarg1 := s.offset }] else []) ++
      rl.map registerTest ++ [{ opcode := .xiff }]

/-! ## Lookup tables -/

def setCell (ex : Ex) (lt i v : Int) : Ex :=
  let table := ex.lt lt
  { ex with
    lt := Function.update ex.lt lt { table with lut := table.lut.set (i - 1).toNat v } }

/-- Compiles the list of ranges from `xs` on. -/
abbrev Compiler := (xs nranges : Nat) → RangeBuf → Ex → Except QpexFault (Status × RangeBuf × Ex)

/-- `do i = bin, nbins`, with the bins that are left. -/
def compileBins (sub : Compiler) (lt lutx : Int) (scaling : LutScaling) (xs nranges : Nat) :
    Nat → Int → Nat → RangeBuf → Ex → Except QpexFault (Status × RangeBuf × Ex)
  | 0, _, _, buf, ex => .ok (.ok, buf, ex)
  | bins + 1, i, xp, buf, ex =>
      match scaling.bin i with
      | none => .error .divideByZero
      | some (x1, x2) =>
          let (buf, count, xp) := qpexSublisti x1 x2 xs nranges xp buf
          if count = 0 then
            compileBins sub lt lutx scaling xs nranges bins (i + 1) xp buf (setCell ex lt i 0)
          else if count = 1 ∧ buf (xs + nranges) = (-maxInt, maxInt) then
            compileBins sub lt lutx scaling xs nranges bins (i + 1) xp buf (setCell ex lt i 1)
          else do
            let (status, buf, ex) ←
              sub (xs + nranges) count buf (setCell ex lt i (toShort (ex.pbop - ex.pb)))
            match status with
            | .err => return (.err, buf, ex)
            | .ok =>
                let ex ← qpexPbpin ex { opcode := .ret }
                -- the table instruction jumps over the subprogram
                let patched := { ex.prog lutx with iarg3 := ex.pbop }
                let ex := { ex with prog := Function.update ex.prog lutx patched }
                compileBins sub lt lutx scaling xs nranges bins (i + 1) xp buf ex

def compileLut (s : Stmt) (sub : Compiler) : Compiler := fun xs nranges buf ex => do
  let rl := rangesAt buf xs nranges
  let scaling := lutScaling ex.sizes rl
  let (lt, ex) ← qpexDballoc ex lenLtdes
  let table : LookupTable :=
    { next := ex.lthead, scaling
      left := if intMarks.isLeft (rl.headD (0, 0)).1 then 1 else 0
      right := if intMarks.isRight (rl.getLastD (0, 0)).2 then 1 else 0
      lut := List.replicate scaling.nbins.toNat 0 }
  let ex := { ex with lt := Function.update ex.lt lt table, lthead := some lt }
  let lutx := ex.pbop
  let ex ← qpexPbpin ex
    { opcode := if s.dtype = .short then .lutxs else .lutxi, iarg1 := s.offset, iarg2 := lt }
  let (status, buf, ex) ←
    compileBins sub lt lutx scaling xs nranges scaling.nbins.toNat 1 1 buf ex
  match status with
  | .err => return (.err, buf, ex)
  | .ok =>
      if ex.pbop - lutx > lenInstruction then do
        let ex ← qpexPbpin ex { opcode := .xiff }
        return (.ok, buf, ex)
      else return (.ok, buf, ex)

def maxLevels : Nat := 32

/-- A range list; `sub` compiles the subprograms of a table. -/
def compileWith (s : Stmt) (sub : Compiler) (level0 : Bool) : Compiler := fun xs nranges buf ex =>
  match rangesAt buf xs nranges with
  | [] => do
      let ex ← qpexPbpin ex { opcode := .pass }
      return (.ok, buf, ex)
  | [(x1, x2)] => do
      let ex ← emitAll (singleTest s x1 x2).toList ex
      return (.ok, buf, ex)
  | rl =>
      if rl.length < ex.sizes.lutMinRanges then do
        let ex ← emitAll (explicitTests s level0 rl) ex
        return (.ok, buf, ex)
      else compileLut s sub xs nranges buf ex

/-- A range list at a level from which so many more may be opened. -/
def compileRanges (s : Stmt) : Nat → Bool → Compiler
  | 0, level0 => compileWith s (fun _ _ buf ex => .ok (.err, buf, ex)) level0
  | left + 1, level0 => compileWith s (compileRanges s left false) level0

/-- The buffers with a range list at their start. -/
def rangeBuf (rl : List (Int × Int)) (junk : RangeBuf) : RangeBuf := fun i => rl.getD i (junk i)

/-- The expression of a term; `junk` is what `malloc` leaves in the buffers. -/
def compileExpr (junk : RangeBuf) (s : Stmt) (ex : Ex) : Except QpexFault (Status × Ex) :=
  if '%' ∈ s.expr then
    match scanBitmask s.expr.length s.expr ⟨false, 0, 0⟩ with
    | none => .ok (.err, ex)
    | some b =>
        if b.level ≠ 0 then .ok (.err, ex)
        else do
          let maskval := if b.complement then Int.not b.maskval else b.maskval
          let ex ← qpexPbpin ex
            { opcode := if s.dtype = .short then .bttxs else .bttxi
              iarg1 := s.offset, iarg2 := maskval }
          return (.ok, ex)
  else
    match qpexParsei s.expr with
    | .error fault => .error (.parse fault)
    | .ok rl => do
        let (status, _, ex) ←
          compileRanges s maxLevels true 0 rl.length (rangeBuf rl junk) ex
        return (status, ex)

/-- `qpex_codegeni`. -/
def qpexCodegeni (junk : RangeBuf) (ex : Ex) (s : Stmt) : Except QpexFault (Status × Ex) :=
  qpexCodegen (compileExpr junk) ex s

end Iraf.Qpoe
