import Iraf.Fmtio.Ctol

/-!
# The types of numeric tokens

`lexnum` runs a finite automaton over a string and tells what kind of number
stands at its start.  The action table is that of `lexdata.inc`, row by row.
-/

namespace Iraf.Fmtio

open LongText

inductive LexType
  | octal
  | decimal
  | hex
  | real
  | nonnum
  deriving DecidableEq

inductive CharClass
  | signchar
  | octdig
  | decdig
  | hexdig
  | realexp
  | sexag
  | fraction
  | hexsuffix
  | octsuffix
  | other
  deriving DecidableEq

inductive LexState
  | start
  | unm
  | odh
  | dhr
  | qrf
  | hex
  | qhx
  | qrn
  | ohn
  | rfr
  | rrx
  | qrx
  | hrx
  | rnm
  | rex
  deriving DecidableEq

inductive LexAction
  | accept
  | revert
  | reduce (toktype : LexType)
  | shift (state : LexState)
  deriving DecidableEq

namespace Lexnum

open LexAction

/-- The column of a class in the table. -/
def column : CharClass → Nat
  | .signchar => 0
  | .octdig => 1
  | .decdig => 2
  | .hexdig => 3
  | .realexp => 4
  | .sexag => 5
  | .fraction => 6
  | .hexsuffix => 7
  | .octsuffix => 8
  | .other => 9

def nn : LexAction := reduce .nonnum
def oo : LexAction := reduce .octal
def dd : LexAction := reduce .decimal
def xx : LexAction := reduce .hex
def rr : LexAction := reduce .real
def unm : LexAction := shift .unm
def odh : LexAction := shift .odh
def dhr : LexAction := shift .dhr
def qrf : LexAction := shift .qrf
def hex : LexAction := shift .hex
def qhx : LexAction := shift .qhx
def qrn : LexAction := shift .qrn
def ohn : LexAction := shift .ohn
def rfr : LexAction := shift .rfr
def rrx : LexAction := shift .rrx
def qrx : LexAction := shift .qrx
def hrx : LexAction := shift .hrx
def rnm : LexAction := shift .rnm
def rex : LexAction := shift .rex
def acc : LexAction := accept
def rvt : LexAction := revert

/-- Signs, octal and decimal digits, hex digits, exponents, colon, period, the two suffixes
and the rest. -/
def row : LexState → List LexAction
  | .start => [unm, odh, dhr, nn, nn, qrn, qrf, nn, nn, nn]
  | .unm => [rvt, odh, dhr, rvt, rvt, rvt, qrf, rvt, rvt, rvt]
  | .odh => [dd, acc, dhr, hex, qhx, qrn, rfr, xx, ohn, dd]
  | .dhr => [dd, acc, acc, hex, qhx, qrn, rfr, xx, hex, dd]
  | .qrf => [rvt, rfr, rfr, rvt, rvt, rvt, rvt, rvt, rvt, rvt]
  | .hex => [rvt, acc, acc, acc, acc, rvt, rvt, xx, acc, rvt]
  | .qhx => [qrx, hrx, hrx, hex, hex, rvt, rvt, xx, hex, rvt]
  | .qrn => [rvt, rnm, rnm, rvt, rvt, acc, rvt, rvt, rvt, rvt]
  | .ohn => [oo, hex, hex, hex, hex, oo, oo, xx, hex, oo]
  | .rfr => [rr, acc, acc, rr, rrx, rr, rr, rr, rr, rr]
  | .rrx => [qrx, rex, rex, rvt, rvt, rvt, rvt, rvt, rvt, rvt]
  | .qrx => [rvt, rex, rex, rvt, rvt, rvt, rvt, rvt, rvt, rvt]
  | .hrx => [rr, acc, acc, hex, hex, rr, rr, xx, rr, rr]
  | .rnm => [rr, acc, acc, rr, qrx, acc, qrf, rr, rr, rr]
  | .rex => [rr, acc, acc, rr, rr, rr, rr, rr, rr, rr]

def action (cc : CharClass) (state : LexState) : LexAction :=
  (row state).getD (column cc) accept

/-- The class of a char; a lower case letter counts as its upper case letter. -/
def charClass (ch : Char) : CharClass :=
  let ch := ch.toUpper
  if ch = '+' ∨ ch = '-' then .signchar
  else if '0' ≤ ch ∧ ch ≤ '7' then .octdig
  else if ch = '8' ∨ ch = '9' then .decdig
  else if ch = 'B' then .octsuffix
  else if ch = 'D' ∨ ch = 'E' then .realexp
  else if ch = 'A' ∨ ch = 'C' ∨ ch = 'F' then .hexdig
  else if ch = ':' then .sexag
  else if ch = '.' then .fraction
  else if ch = 'X' then .hexsuffix
  else .other

def szStack : Nat := 15

/-- Pop states until one of them reduces the class `other`. -/
def unwind : List (Nat × LexState) → LexType × Nat
  | [] => (.nonnum, 0)
  | (ip, state) :: stk =>
      match action .other state with
      | .revert => unwind stk
      | .reduce toktype => (toktype, ip)
      | _ => (.nonnum, ip)

/-- The token type and the index after the token; `ip` counts the chars before `str` and the
stack has its top first. -/
def scan : List Char → Nat → LexState → List (Nat × LexState) → LexType × Nat
  | str, ip, state, stk =>
      let cc := match str with
        | [] => .other
        | ch :: _ => charClass ch
      match action cc state with
      | .revert => unwind stk
      | .reduce toktype =>
          if toktype = .octal ∧ cc = .octsuffix ∨ toktype = .hex ∧ cc = .hexsuffix then
            (toktype, ip + 1)
          else (toktype, ip)
      | .accept =>
          match str with
          | [] => (.nonnum, ip)
          | _ :: str => scan str (ip + 1) state stk
      | .shift next =>
          match str with
          | [] => (.nonnum, ip)
          | _ :: str =>
              if stk.length + 1 > szStack then (.nonnum, ip)
              else scan str (ip + 1) next ((ip, state) :: stk)
termination_by structural str => str

/-- The states of a string of digits, signs and colons. -/
def Plain (state : LexState) : Prop :=
  state ∈ [LexState.start, .unm, .odh, .dhr, .qrn, .rnm]

instance (state : LexState) : Decidable (Plain state) :=
  inferInstanceAs (Decidable (state ∈ _))

def PlainClass (cc : CharClass) : Prop :=
  cc ∈ [CharClass.signchar, .octdig, .decdig, .sexag, .other]

/-- What the automaton does in such a state keeps to such states. -/
def PlainAction : LexAction → Prop
  | .accept => True
  | .revert => True
  | .reduce toktype => toktype ≠ .octal ∧ toktype ≠ .hex
  | .shift next => Plain next

theorem plainClass_other : PlainClass .other := by simp [PlainClass]

theorem plainAction_action {cc : CharClass} {state : LexState} (hcc : PlainClass cc)
    (hstate : Plain state) : PlainAction (action cc state) := by
  simp only [PlainClass, Plain, List.mem_cons, List.not_mem_nil, or_false] at hcc hstate
  rcases hcc with rfl | rfl | rfl | rfl | rfl <;>
    rcases hstate with rfl | rfl | rfl | rfl | rfl | rfl <;>
    simp [action, row, column, PlainAction, nn, dd, rr, unm, odh, dhr, qrn, rnm, acc, rvt,
      Plain]

variable {stk : List (Nat × LexState)} {state : LexState} {str : List Char} {ip : Nat}

theorem unwind_plain (hstk : ∀ e ∈ stk, Plain e.2) :
    (unwind stk).1 ≠ .octal ∧ (unwind stk).1 ≠ .hex := by
  induction stk with
  | nil => simp [unwind]
  | cons e stk ih =>
      have hact := plainAction_action plainClass_other
        (hstk e List.mem_cons_self)
      rw [unwind]
      split
      · exact ih fun e' he' => hstk e' (List.mem_cons_of_mem e he')
      · rename_i heq
        rw [heq] at hact
        exact hact
      · simp

theorem scan_plain (hstr : ∀ c ∈ str, PlainClass (charClass c)) (hstate : Plain state)
    (hstk : ∀ e ∈ stk, Plain e.2) :
    (scan str ip state stk).1 ≠ .octal ∧ (scan str ip state stk).1 ≠ .hex := by
  induction str generalizing ip state stk with
  | nil =>
      have hact := plainAction_action plainClass_other hstate
      rw [scan]
      cases haction : action .other state with
      | revert => exact unwind_plain hstk
      | reduce toktype =>
          rw [haction] at hact
          simp only [hact.1, hact.2, false_and, or_self, if_false]
          exact hact
      | accept => simp
      | shift next => simp
  | cons c str ih =>
      have hact := plainAction_action (hstr c List.mem_cons_self) hstate
      have htail : ∀ d ∈ str, PlainClass (charClass d) :=
        fun d hd => hstr d (List.mem_cons_of_mem c hd)
      rw [scan]
      cases haction : action (charClass c) state with
      | revert => exact unwind_plain hstk
      | reduce toktype =>
          rw [haction] at hact
          simp only [hact.1, hact.2, false_and, or_self, if_false]
          exact hact
      | accept => exact ih htail hstate hstk
      | shift next =>
          rw [haction] at hact
          dsimp only
          split
          · simp
          · refine ih htail hact fun e he => ?_
            rcases List.mem_cons.1 he with rfl | he
            · exact hstate
            · exact hstk e he

end Lexnum

/-- The type of the first token and the number of its chars. -/
def lexnum (str : List Char) : LexType × Nat :=
  let start := str.dropWhile isWhite
  if indef <+: start then (.real, 5)
  else
    let (toktype, ip) := Lexnum.scan start 0 .start []
    (toktype, if toktype = .nonnum then 0 else ip)

theorem lexnum_plain {str : List Char}
    (hstr : ∀ c ∈ str, Lexnum.PlainClass (Lexnum.charClass c)) :
    (lexnum str).1 ≠ .octal ∧ (lexnum str).1 ≠ .hex := by
  have hstart : ∀ c ∈ str.dropWhile isWhite, Lexnum.PlainClass (Lexnum.charClass c) :=
    fun c hc => hstr c ((List.dropWhile_suffix _).subset hc)
  rw [lexnum]
  dsimp only
  split
  · simp
  · exact Lexnum.scan_plain hstart (by decide) (by simp)

end Iraf.Fmtio
