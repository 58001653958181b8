import Iraf.Fmtio.Patmatch

/-!
# Patterns as their author reads them

A pattern string is a list of elements, each with the stars that follow it.
What a list of elements matches is stated on lists of chars, without the
encoding and without the search.
-/

namespace Iraf.Fmtio

inductive Elem where
  | char (c : Int)
  | uchar (c : Int)
  | lchar (c : Int)
  | bol
  | eol
  | any
  | whitespace
  | ccl (chars : List Int)
  | nccl (chars : List Int)
  | index
  deriving DecidableEq, Repr

namespace Elem

def code : Elem → Int
  | char _ => CHAR
  | uchar _ => UCHAR
  | lchar _ => LCHAR
  | bol => BOL
  | eol => EOL
  | any => ANY
  | whitespace => WHITESPACE
  | ccl _ => CCL
  | nccl _ => NCCL
  | index => INDEX

/-- The words after the code that stay as they were encoded. -/
def operands : Elem → List Int
  | char c | uchar c | lchar c => [c]
  | ccl chars | nccl chars => (chars.length : Int) :: chars
  | bol | eol | any | whitespace | index => []

def size : Elem → Int
  | char _ | uchar _ | lchar _ | index => 2
  | ccl chars | nccl chars => chars.length + 2
  | bol | eol | any | whitespace => 1

/-- The element takes exactly one char when it matches. -/
def consumes : Elem → Bool
  | char _ | uchar _ | lchar _ | any | ccl _ | nccl _ => true
  | bol | eol | whitespace | index => false

/-- The chars that an element takes. -/
def accepts : Elem → Int → Bool
  | char a, c => decide (c = a)
  | uchar a, c => decide ((if IS_LOWER c then TO_UPPER c else c) = a)
  | lchar a, c => decide ((if IS_UPPER c then TO_LOWER c else c) = a)
  | any, c => decide (c ≠ NEWLINE)
  | ccl chars, c => decide (c ∈ chars)
  | nccl chars, c => decide (c ≠ NEWLINE ∧ c ∉ chars)
  | bol, _ | eol, _ | whitespace, _ | index, _ => false

theorem size_pos (e : Elem) : 1 ≤ e.size := by
  cases e <;> simp [size] <;> omega

theorem operands_length_le (e : Elem) : (e.operands.length : Int) + 1 ≤ e.size := by
  cases e <;> simp [operands, size] <;> omega

end Elem

structure Piece where
  elem : Elem
  stars : Nat
  deriving DecidableEq, Repr

/-- An element that is matched once, or as often as possible. -/
inductive Item where
  | one (e : Elem)
  | many (e : Elem)
  deriving DecidableEq, Repr

/-- A star makes sense on an element that takes a char. -/
def Piece.item? : Piece → Option Item
  | ⟨e, 0⟩ => some (.one e)
  | ⟨e, 1⟩ => if e.consumes then some (.many e) else none
  | ⟨_, _ + 2⟩ => none

/-- The items before the first piece whose stars make no sense. -/
def leading : List Piece → List Item
  | [] => []
  | piece :: pieces =>
      match piece.item? with
      | some item => item :: leading pieces
      | none => []

def StarsApply (pieces : List Piece) : Prop :=
  ∀ piece ∈ pieces, piece.item?.isSome

/-! ## Reading a pattern string -/

/-- The chars that a class lists, after those of `chars`. -/
def classChars (patstr : Text) : Nat → Int → List Int → Int × List Int
  | 0, ip, chars => (ip, chars)
  | fuel + 1, ip, chars =>
      let c := patstr.char ip
      if c = CH_CCLEND ∨ c = EOS then (ip, chars)
      else if c = ESCAPE then
        let (ch, ip) := patEscape patstr ip
        classChars patstr fuel (ip + 1) (chars ++ [ch])
      else if c ≠ CH_RANGE ∨ patstr.char (ip + 1) = EOS then
        classChars patstr fuel (ip + 1) (chars ++ [c])
      else
        let ch1 := chars.getLastD 0
        let ch2 := patstr.char (ip + 1)
        if (IS_DIGIT ch1 ∧ IS_DIGIT ch2) ∨ (IS_LOWER ch1 ∧ IS_LOWER ch2) ∨
            (IS_UPPER ch1 ∧ IS_UPPER ch2) then
          classChars patstr fuel (ip + 2) (chars ++ rangeChars ch1 ch2)
        else classChars patstr fuel (ip + 1) (chars ++ [CH_RANGE])

/-- The pieces are held last first; `detached` says that `{` or `}` came after
the last of them. -/
structure Read where
  ip : Int
  ignore_case : Bool
  detached : Bool
  pieces : List Piece

def Read.push (r : Read) (e : Elem) (ip : Int) : Read :=
  ⟨ip, r.ignore_case, false, ⟨e, 0⟩ :: r.pieces⟩

/-- A star belongs to the element before it; a first one to any char. -/
def Read.star (r : Read) : Option Read :=
  if r.ip = 1 then some { r with pieces := [⟨.any, 1⟩] }
  else if r.detached then none
  else
    match r.pieces with
    | [] => none
    | ⟨e, stars⟩ :: pieces =>
        some { r with pieces := ⟨e, stars + 1⟩ :: pieces }

/-- Read what stands at `ip`, which is left at its last char.  Not read are an
escape that stands for NUL, a star that follows `{` or `}`, and a class without
an end. -/
def readBody (patstr : Text) (r : Read) : Option Read :=
  let c := patstr.char r.ip
  if c = CH_ANY then some (r.push .any r.ip)
  else if c = CH_WHITESPACE then some (r.push .whitespace r.ip)
  else if c = CH_BOL then
    some (r.push (if r.ip = 1 then .bol else .char CH_BOL) r.ip)
  else if c = CH_EOL then
    some (r.push
      (if patstr.char (r.ip + 1) = EOS then .eol else .char CH_EOL) r.ip)
  else if c = CH_IGNORECASE then
    some { r with ignore_case := true, detached := true }
  else if c = CH_MATCHCASE then
    some { r with ignore_case := false, detached := true }
  else if c = CH_CCL then
    let neg := patstr.char (r.ip + 1) = CH_NOT
    let ip := if neg then r.ip + 2 else r.ip + 1
    let (ip, chars) := classChars patstr (rounds patstr ip) ip []
    if patstr.char ip = CH_CCLEND then
      some (r.push (if neg then .nccl chars else .ccl chars) ip)
    else none
  else if c = CH_CLOSURE then r.star
  else if c = CH_INDEX then some (r.push .index r.ip)
  else
    let (cval, ip) := if c = CH_ESCAPE then patEscape patstr r.ip else (c, r.ip)
    if cval = 0 then none
    else if r.ignore_case then
      some (r.push (if IS_UPPER c then .uchar cval else .lchar cval) ip)
    else some (r.push (.char cval) ip)

def readLoop (patstr : Text) : Nat → Read → Option Read
  | 0, r => some r
  | fuel + 1, r =>
      if patstr.char r.ip = EOS then some r
      else
        match readBody patstr r with
        | none => none
        | some r => readLoop patstr fuel { r with ip := r.ip + 1 }

/-- The element takes chars from the front of `s` and leaves `t`. -/
def Elem.Takes (e : Elem) (s t : List Int) : Prop :=
  match e with
  | bol => s ≠ [] ∧ t = s
  | index => t = s
  | eol => t = s ∧ (s = [] ∨ s.head? = some NEWLINE)
  | whitespace => s ≠ [] ∧ t = s.dropWhile IS_WHITE
  | e => ∃ c, s = c :: t ∧ e.accepts c

def Matches : List Item → List Int → List Int → Prop
  | [], s, t => s = t
  | .one e :: items, s, t => ∃ u, e.Takes s u ∧ Matches items u t
  | .many e :: items, s, t =>
      ∃ run u, s = run ++ u ∧ (∀ c ∈ run, e.accepts c) ∧ Matches items u t

/-- Some string of chars begins with what the items match. -/
def Matchable (items : List Item) : Prop :=
  ∃ s t, (∀ c ∈ s, IsShort c ∧ c ≠ EOS) ∧ Matches items s t

/-- Every star applies to an element that takes a char, or no string has what
comes before the first star that does not. -/
def Guarded (pieces : List Piece) : Prop :=
  StarsApply pieces ∨ ¬ Matchable (leading pieces)

end Iraf.Fmtio
