import Iraf.Fio.Pushback

/-!
# Logical lines

`getlongline` over the pieces of at most `SZ_LINE` chars that `getline` delivers of a text.  The
output buffer is memory counted from 1.
-/

namespace Iraf.Fio.LongLine

open Cells

abbrev Line := List Int

@[simp] abbrev HASH : Int := 35
@[simp] abbrev DOT : Int := 46
@[simp] abbrev BACKSLASH : Int := 92

/-- `.help` -/
def helpKey : Line := [46, 104, 101, 108, 112]

/-- `.endhelp` -/
def endhelpKey : Line := [46, 101, 110, 100, 104, 101, 108, 112]

/-! ## The procedures -/

/-- The text that is left, the output buffer and the line number counter. -/
structure Reader where
  text : List Int
  obuf : Memory Int
  linenum : Int

/-- The chars that `getline` takes: up to the first newline, and at most `n`. -/
def lineChars : Nat → List Int → Line
  | 0, _ => []
  | _ + 1, [] => []
  | n + 1, ch :: rest => if ch = NEWLINE then [ch] else ch :: lineChars n rest

def getline (s : Reader) (op : Int) : Int × Reader :=
  let line := lineChars szLine s.text
  if line = [] then (EOF, s)
  else
    (line.length,
      { s with
        obuf := put s.obuf op (line ++ [Fmtio.EOS])
        text := s.text.drop line.length })

def Reader.countLine (s : Reader) : Reader := { s with linenum := s.linenum + 1 }

/-- The loop over a help section. -/
def skipHelp : Nat → Reader → Int → Reader
  | 0, s, _ => s
  | fuel + 1, s, op =>
      match getline s op with
      | (status, s) =>
          if status = EOF then s.countLine
          else if fetch s.obuf op 8 = endhelpKey then s.countLine
          else skipHelp fuel s.countLine op

/-- Get the next line that is not a comment. -/
def nextLine : Nat → Reader → Int → Int × Reader
  | 0, s, _ => (EOF, s)
  | fuel + 1, s, op =>
      match getline s op with
      | (status, s) =>
          let s := if status > 0 ∧ s.obuf (op + status - 1) = NEWLINE then s.countLine else s
          if status = EOF then (status, s)
          else if s.obuf op = HASH then nextLine fuel s op
          else if s.obuf op = DOT then
            if fetch s.obuf op 5 = helpKey then
              nextLine fuel (skipHelp (s.text.length + 1) s op) op
            else (status, s)
          else (status, s)

/-- A char before the start of the output buffer is examined. -/
inductive LongLineErr where
  | beforeBuffer
  deriving DecidableEq, Repr

/-- The loop over the pieces of a logical line. -/
def joinLines : Nat → Reader → Int → Int → Except LongLineErr (Int × Reader)
  | 0, s, _, op => .ok (op - 1, s)
  | fuel + 1, s, maxch, op =>
      if maxch - op + 1 ≥ szLine then
        match nextLine (s.text.length + 1) s op with
        | (status, s) =>
            if status = EOF then .ok (if op = 1 then EOF else op - 1, s)
            else
              let op := op + status
              if s.obuf (op - 1) = NEWLINE then
                if op - 2 < 1 then .error .beforeBuffer
                else if s.obuf (op - 2) = BACKSLASH then joinLines fuel s maxch (op - 2)
                else .ok (op - 1, s)
              else joinLines fuel s maxch op
      else .ok (op - 1, s)

def getlongline (s : Reader) (maxch : Int) : Except LongLineErr (Int × Reader) :=
  joinLines (s.text.length + 1) s maxch 1

/-! ## What logical lines are -/

/-- The lines of a text with their newlines. -/
def physicalLines : List Int → List Line
  | [] => []
  | ch :: rest =>
      if ch = NEWLINE then [ch] :: physicalLines rest
      else match physicalLines rest with
        | [] => [[ch]]
        | l :: ls => (ch :: l) :: ls

def isComment (l : Line) : Prop := l.head? = some HASH

instance : DecidablePred isComment := fun l => inferInstanceAs (Decidable (l.head? = some HASH))

/-- The lines without comments and help sections; the flag is set inside a section. -/
def visibleLines : Bool → List Line → List Line
  | _, [] => []
  | true, l :: ls => visibleLines (decide (¬ endhelpKey <+: l)) ls
  | false, l :: ls =>
      if isComment l then visibleLines false ls
      else if helpKey <+: l then visibleLines true ls
      else l :: visibleLines false ls

def isEscaped (l : Line) : Prop := [BACKSLASH, NEWLINE] <:+ l

instance : DecidablePred isEscaped := fun l =>
  inferInstanceAs (Decidable ([BACKSLASH, NEWLINE] <:+ l))

/-- Without the backslash and the newline. -/
def unescaped (l : Line) : Line := l.take (l.length - 2)

/-- Lines are joined at the escaped newlines; `acc` is what there is of the line. -/
def joined : Line → List Line → List Line
  | acc, [] => if acc = [] then [] else [acc]
  | acc, l :: ls =>
      if isEscaped l then joined (acc ++ unescaped l) ls
      else if l.getLast? = some NEWLINE then (acc ++ l) :: joined [] ls
      else joined (acc ++ l) ls

def logicalLines (text : List Int) : List Line :=
  joined [] (visibleLines false (physicalLines text))

/-- Successive calls return the lines, each as a string in the output buffer, and then `EOF`. -/
def Returns (maxch : Int) : Reader → List Line → Prop
  | s, [] => ∃ s', getlongline s maxch = .ok (EOF, s')
  | s, l :: ls => ∃ s', getlongline s maxch = .ok ((l.length : Int), s') ∧
      fetch s'.obuf 1 (l.length + 1) = l ++ [Fmtio.EOS] ∧ Returns maxch s' ls

/-! ## Texts that are read as they are meant -/

/-- At every place of the line where a piece of `SZ_LINE` chars ends and another begins. -/
def AtBreaks (P : Line → Prop) (l : Line) : Prop :=
  ∀ k, 0 < k → k * szLine < l.length → P (l.drop (k * szLine))

/-- No piece of a line is taken for the start of another kind of line. -/
def PiecesKept : Bool → List Line → Prop
  | _, [] => True
  | true, l :: ls =>
      AtBreaks (if endhelpKey <+: l then isComment else fun r => ¬ endhelpKey <+: r) l ∧
        PiecesKept (decide (¬ endhelpKey <+: l)) ls
  | false, l :: ls =>
      if isComment l then AtBreaks isComment l ∧ PiecesKept false ls
      else if helpKey <+: l then
        AtBreaks (fun r => ¬ endhelpKey <+: r) l ∧ PiecesKept true ls
      else AtBreaks (fun r => ¬ isComment r ∧ ¬ helpKey <+: r) l ∧ PiecesKept false ls

/-- A blank line stands after a part of its logical line that does not end in a backslash. -/
def BlanksKept : Line → List Line → Prop
  | _, [] => True
  | acc, l :: ls =>
      (l = [NEWLINE] → acc ≠ [] ∧ acc.getLast? ≠ some BACKSLASH) ∧
        if isEscaped l then BlanksKept (acc ++ unescaped l) ls
        else l.getLast? = some NEWLINE → BlanksKept [] ls

/-- The text does not end after an escaped newline, unless there is nothing in front of it. -/
def EndKept : Line → List Line → Prop
  | acc, [] => acc = []
  | acc, l :: ls =>
      if isEscaped l then EndKept (acc ++ unescaped l) ls
      else l.getLast? = some NEWLINE → EndKept [] ls

/-- Nothing in the text is mistaken for something else. -/
structure WellRead (text : List Int) : Prop where
  pieces : PiecesKept false (physicalLines text)
  blanks : BlanksKept [] (visibleLines false (physicalLines text))
  ends : EndKept [] (visibleLines false (physicalLines text))

end Iraf.Fio.LongLine
