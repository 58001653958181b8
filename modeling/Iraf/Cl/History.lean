import Iraf.Lib.RingTape
import Mathlib.Data.List.DropRight

/-!
# The command history of the CL

`put_history`, `get_history`, `fetch_history` and `find_history` of
`pkg/cl/history.c`.  Commands are stored in a circular buffer of chars, each
with its newline and EOS.
-/

namespace Iraf.Cl

@[simp] abbrev EOS : UInt8 := 0
@[simp] abbrev newline : UInt8 := 10

def szHistbuf : Nat := 8192
def szCmdblk : Nat := 2048

inductive Status where
  | ok
  | err
  deriving DecidableEq, Repr

/-- The history buffer, and the variables that `find_history` keeps between
calls.  Pointers are offsets in the buffer; that of a first call is null. -/
structure History where
  histbuf : Nat → UInt8
  opHist : Nat
  histbufFull : Nat
  histnum : Nat
  historyNumber : Nat
  currentRecord : Nat
  recptr : Nat
  oldOphist : Option Nat

/-- A string of C. -/
structure CString where
  chars : List UInt8
  noEos : EOS ∉ chars

/-- The class `_S` of `ctype.c`. -/
def isspace (ch : UInt8) : Bool := (9 ≤ ch && ch ≤ 13) || ch == 32

namespace History

/-- The state when the CL starts. -/
def initial : History where
  histbuf _ := EOS
  opHist := 0
  histbufFull := 0
  histnum := 0
  historyNumber := 0
  currentRecord := 0
  recptr := 0
  oldOphist := none

/-! ## Storing -/

/-- Exactly one newline at the end of the command. -/
def terminated (command : CString) : List UInt8 :=
  command.chars.rdropWhile isspace ++ [newline]

/-- One turn of the loop of `put_history`. -/
def putChar (h : History) (ch : UInt8) : History :=
  let histbuf := Function.update h.histbuf h.opHist ch
  if h.opHist + 1 ≥ szHistbuf then
    { h with histbuf := histbuf, opHist := 0, histbufFull := h.histbufFull + 1 }
  else { h with histbuf := histbuf, opHist := h.opHist + 1 }

def putHistory (h : History) (command : CString) : History :=
  let h := (terminated command ++ [EOS]).foldl putChar h
  { h with histnum := h.histnum + 1 }

/-! ## Searching -/

/-- `--ip`, around the end of the buffer once it is full. -/
def backup (h : History) (ip : Nat) : Option Nat :=
  if ip = 0 then
    if h.histbufFull = 0 then none else some (szHistbuf - 1)
  else some (ip - 1)

/-- The outcome of the inner loop of `find_history`. -/
inductive Scan where
  /-- The first char of a record. -/
  | record (ip : Nat)
  | null
  /-- The loop has not come to its end. -/
  | running
  deriving DecidableEq, Repr

/-- Back to the EOS before a record, and on to the first char of the record. -/
def scanBack (h : History) : Nat → Nat → Scan
  | 0, _ => .running
  | fuel + 1, ip =>
      match h.backup ip with
      -- there is no EOS before the first record
      | none => .record 0
      | some ip =>
          if ip = h.opHist then .null
          else if h.histbuf ip = EOS then
            .record (if ip + 1 ≥ szHistbuf then 0 else ip + 1)
          else scanBack h fuel ip

/-- The outer loop, a number of records back; `none` when it does not end. -/
def findLoop : Nat → History → Option (Option Nat × History)
  | 0, h => some (some h.recptr, { h with historyNumber := h.currentRecord })
  | n + 1, h =>
      match h.backup h.recptr with
      | none => some (none, h)
      | some ip =>
          match h.scanBack szHistbuf ip with
          | .record ip =>
              findLoop n { h with recptr := ip, currentRecord := h.currentRecord + 1 }
          | .null => some (none, h)
          | .running => none

/-- The search starts from the next record to be filled when the buffer has been
written into, or the record is more recent than the current one. -/
def startSearch (h : History) (record : Nat) : History :=
  if h.oldOphist ≠ some h.opHist ∨ record < h.currentRecord then
    { h with currentRecord := 0, recptr := h.opHist, oldOphist := some h.opHist }
  else h

def findHistory (h : History) (record : Int) : Option (Option Nat × History) :=
  if h.histnum = 0 ∨ record ≤ 0 then some (none, h)
  else
    let h := h.startSearch record.toNat
    findLoop (record.toNat - h.currentRecord) h

/-! ## Fetching -/

/-- The loop of `fetch_history`: the chars before the EOS, `n` at most. -/
def fetchLoop (h : History) : Nat → Nat → List UInt8
  | 0, _ => []
  | n + 1, ip =>
      if h.histbuf ip = EOS then []
      else
        h.histbuf ip :: fetchLoop h n (if ip + 1 ≥ szHistbuf then 0 else ip + 1)

def fetchHistory (h : History) (recptr : Nat) (maxch : Int) : List UInt8 :=
  let n := (if maxch < szHistbuf then maxch else szHistbuf) - 1
  fetchLoop h n.toNat recptr

/-- The status, the string in the buffer of the caller, and the state. -/
def getHistory (h : History) (record maxch : Int) :
    Option (Status × List UInt8 × History) :=
  match h.findHistory record with
  | none => none
  | some (none, h) => some (.err, [], h)
  | some (some recptr, h) => some (.ok, h.fetchHistory recptr maxch, h)

end History

end Iraf.Cl
