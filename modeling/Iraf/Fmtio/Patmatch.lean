import Iraf.Fmtio.Text
import Iraf.Lib.StepMachine

/-!
# Matching an encoded pattern

The second half of `patmatch.x`.  The encoded pattern is a buffer of chars in
which the matcher also keeps its backtracking stack, so an access is checked
against its size and a step may fault.

The first half of `patmatch.x`: the metacharacters and `patmake`.  The buffer is
memory that is written without a check of its size except for the one that
`chdeposit` makes.
-/

namespace Iraf.Fmtio

open Iraf.StepMachine

/-! ## Pattern codes -/

def EOP : Int := -1
def CHAR : Int := -2
def UCHAR : Int := -3
def LCHAR : Int := -4
def BOL : Int := -5
def EOL : Int := -6
def ANY : Int := -7
def WHITESPACE : Int := -8
def CCL : Int := -9
def NCCL : Int := -10
def CLOSURE : Int := -11
def INDEX : Int := -12

/-! The closure structure. -/

def CLOSIZE : Int := 4
def COUNT : Int := 1
def PREVCL : Int := 2
def START : Int := 3

/-- What the matcher must not do: `call error`, or index outside of the encoded
pattern. -/
inductive Fault where
  | patsize
  | omatch
  | outside
  deriving DecidableEq, Repr

/-- The encoded pattern, words 1 to `size`. -/
structure Pat where
  word : Int → Int
  size : Int

namespace Pat

def Inside (pat : Pat) (i : Int) : Prop := 1 ≤ i ∧ i ≤ pat.size

instance (pat : Pat) (i : Int) : Decidable (pat.Inside i) :=
  inferInstanceAs (Decidable (_ ∧ _))

def get (pat : Pat) (i : Int) : Except Fault Int :=
  if pat.Inside i then .ok (pat.word i) else .error .outside

/-- A char keeps 16 bits of what is stored. -/
def put (pat : Pat) (i v : Int) : Pat :=
  { pat with word := fun j => if j = i then short v else pat.word j }

def set (pat : Pat) (i v : Int) : Except Fault Pat :=
  if pat.Inside i then .ok (pat.put i v) else .error .outside

end Pat

/-- Look for `ch` in the class at `pat[offset]`: the loop over its chars. -/
def patLocateFrom (ch : Int) (pat : Pat) : Nat → Int → Except Fault Bool
  | 0, _ => .ok false
  | nchars + 1, i => do
      if ch = (← pat.get i) then return true
      patLocateFrom ch pat nchars (i + 1)

def pat_locate (ch : Int) (pat : Pat) (offset : Int) : Except Fault Bool := do
  let nchars ← pat.get offset
  patLocateFrom ch pat nchars.toNat (offset + 1)

def pat_gsize (pat : Pat) (n : Int) : Except Fault Int := do
  let code ← pat.get n
  if code = CHAR ∨ code = UCHAR ∨ code = LCHAR ∨ code = INDEX then return 2
  else if code = BOL ∨ code = EOL ∨ code = ANY ∨ code = WHITESPACE then
    return 1
  else if code = CCL ∨ code = NCCL then return (← pat.get (n + 1)) + 2
  else if code = CLOSURE then return CLOSIZE
  else .error .patsize

/-- The opcodes that match a char in the position `ip`: how far to bump. -/
def patBump (str : Text) (ip : Int) (pat : Pat) (pp : Int) (code : Int) :
    Except Fault (Option Int) := do
  let c := str.char ip
  if code = CHAR then
    return if c = (← pat.get (pp + 1)) then some 1 else none
  else if code = UCHAR then
    let str_ch := if IS_LOWER c then TO_UPPER c else c
    return if str_ch = (← pat.get (pp + 1)) then some 1 else none
  else if code = LCHAR then
    let str_ch := if IS_UPPER c then TO_LOWER c else c
    return if str_ch = (← pat.get (pp + 1)) then some 1 else none
  else if code = BOL then return if ip = 1 then some 0 else none
  else if code = EOL then return if c = NEWLINE then some 0 else none
  else if code = ANY then return if c ≠ NEWLINE then some 1 else none
  else if code = WHITESPACE then return some (str.skip IS_WHITE ip - ip)
  else if code = CCL then
    return if (← pat_locate c pat (pp + 1)) then some 1 else none
  else if code = NCCL then
    if c = NEWLINE then return none
    return if (← pat_locate c pat (pp + 1)) then none else some 1
  else .error .omatch

/-- Try to match the single element at `pat[pp]`: the new `ip`, if it matches,
and the pattern, where INDEX leaves the position. -/
def pat_omatch (str : Text) (ip : Int) (pat : Pat) (pp : Int) :
    Except Fault (Option Int × Pat) := do
  let code ← pat.get pp
  if code = INDEX then return (some ip, ← pat.set (pp + 1) ip)
  else if str.char ip = EOS then
    return (if code = EOL then some ip else none, pat)
  else
    return ((← patBump str ip pat pp code).map (ip + ·), pat)

/-! ## Anchored match -/

/-- The places of `pat_amatch` between which a step goes: the head of the main
loop, the loop that runs a closure, the search for a closure to give back a
char, and the end of the loop body. -/
inductive Place where
  | head (pp offset stack : Int)
  | closure (pp offset ip stack : Int)
  | failed (stack : Int)
  | next (pp offset stack : Int)

structure MatchState where
  place : Place
  pat : Pat

def amatchStep (str : Text) (first : Int) :
    MatchState → Except Fault (MatchState ⊕ Int × Pat)
  | ⟨.head pp offset stack, pat⟩ => do
      let code ← pat.get pp
      if code = EOP then return .inr (offset - first, pat)
      else if code = CLOSURE then
        return .inl ⟨.closure (pp + CLOSIZE) offset offset pp, pat⟩
      else
        match ← pat_omatch str offset pat pp with
        | (some offset, pat) => return .inl ⟨.next pp offset stack, pat⟩
        | (none, pat) => return .inl ⟨.failed stack, pat⟩
  | ⟨.closure pp offset ip stack, pat⟩ => do
      -- Match as many characters as possible, save results.
      let (ip', pat) ←
        if str.char ip = EOS then pure (none, pat)
        else pat_omatch str ip pat pp
      match ip' with
      | some ip => return .inl ⟨.closure pp offset ip stack, pat⟩
      | none =>
          let pat ← pat.set (stack + COUNT) (ip - offset)
          let pat ← pat.set (stack + START) offset
          return .inl ⟨.next pp ip stack, pat⟩
  | ⟨.failed stack, pat⟩ => do
      if stack ≤ 0 then return .inr (0, pat)
      let count ← pat.get (stack + COUNT)
      if count > 0 then
        let pat ← pat.set (stack + COUNT) (count - 1)
        let start ← pat.get (stack + START)
        let count ← pat.get (stack + COUNT)
        return .inl ⟨.next (stack + CLOSIZE) (start + count) stack, pat⟩
      else return .inl ⟨.failed (← pat.get (stack + PREVCL)), pat⟩
  | ⟨.next pp offset stack, pat⟩ => do
      return .inl ⟨.head (pp + (← pat_gsize pat pp)) offset stack, pat⟩

/-- The number of characters matched, or 0. -/
def pat_amatch (fuel : Nat) (str : Text) (first : Int) (pat : Pat) :
    Option (Except Fault (Int × Pat)) :=
  run (amatchStep str first) fuel ⟨.head 1 first 0, pat⟩

/-! ## Matching anywhere on a line -/

/-- The loop over the places where a match may begin. -/
def gpatmatchFrom (fuel : Nat) (str : Text) : Nat → Int → Pat →
    Option (Except Fault (Int × Int × Pat))
  | 0, ip, pat => some (.ok (ip, 0, pat))
  | places + 1, ip, pat =>
      if str.char ip = EOS then some (.ok (ip, 0, pat))
      else
        match pat_amatch fuel str ip pat with
        | none => none
        | some (.error fault) => some (.error fault)
        | some (.ok (nchars_matched, pat)) =>
            if nchars_matched > 0 then
              some (.ok (ip, nchars_matched, pat))
            else gpatmatchFrom fuel str places (ip + 1) pat

/-- The index after the match, and the first and the last char matched; or 0,
when the last two are not set. -/
def gpatmatch (fuel : Nat) (str : Text) (pat : Pat) :
    Option (Except Fault (Int × Option (Int × Int) × Pat)) :=
  match pat.get 1 with
  | .error fault => some (.error fault)
  | .ok code =>
      let found :=
        if code = BOL then
          (pat_amatch fuel str 1 pat).map (·.map fun r => (1, r.1, r.2))
        else gpatmatchFrom fuel str (str.extent + 1) 1 pat
      found.map (·.map fun (ip, nchars_matched, pat) =>
        if nchars_matched > 0 then
          (ip + nchars_matched, some (ip, ip + nchars_matched - 1), pat)
        else (0, none, pat))

def patmatch (fuel : Nat) (str : Text) (pat : Pat) :
    Option (Except Fault (Int × Pat)) :=
  (gpatmatch fuel str pat).map (·.map fun r => (r.1, r.2.2))

/-- The match ends without an error and inside of the pattern. -/
def PatmatchEnds (str : Text) (pat : Pat) : Prop :=
  ∃ fuel r, patmatch fuel str pat = some (.ok r)

/-! ## Metacharacters -/

def CH_BOL : Int := 94
def CH_NOT : Int := 94
def CH_EOL : Int := 36
def CH_ANY : Int := 63
def CH_CLOSURE : Int := 42
def CH_CCL : Int := 91
def CH_CCLEND : Int := 93
def CH_RANGE : Int := 45
def CH_ESCAPE : Int := 92
def CH_WHITESPACE : Int := 35
def CH_IGNORECASE : Int := 123
def CH_MATCHCASE : Int := 125
def CH_INDEX : Int := 37

def ERR : Int := -1

/-- A buffer and the index of the next word to be deposited in it. -/
structure Out where
  buf : Int → Int
  op : Int

def store (buf : Int → Int) (i v : Int) : Int → Int :=
  fun j => if j = i then short v else buf j

/-- Deposit a char and bump the index, but not past `maxch`. -/
def chdeposit (ch maxch : Int) (out : Out) : Out where
  buf := store out.buf out.op ch
  op := if out.op < maxch then out.op + 1 else out.op

/-- Deposit chars one after another. -/
def deposits (chars : List Int) (maxch : Int) (out : Out) : Out :=
  chars.foldl (fun out ch => chdeposit ch maxch out) out

/-- The char that an escape at `ip` stands for, and the index of the last char
of the escape. -/
def patEscape (patstr : Text) (ip : Int) : Int × Int :=
  let (n, ip, cval) := cctoc patstr ip 0
  if n = 1 then (patstr.char ip, ip) else (cval, ip - 1)

/-! ## Character classes -/

/-- The chars that follow `ch1` up to `ch2`, in either direction. -/
def rangeChars (ch1 ch2 : Int) : List Int :=
  if ch1 ≤ ch2 then
    (List.range (ch2 - ch1).toNat).map fun k : Nat => ch1 + 1 + k
  else (List.range (ch1 - ch2).toNat).map fun k : Nat => ch1 - 1 - k

/-- Process a character class into a simple list of characters. -/
def patFilset (delim : Int) (patstr : Text) (sz_pat : Int) :
    Nat → Int → Out → Int × Out
  | 0, ip, out => (ip, out)
  | fuel + 1, ip, out =>
      let c := patstr.char ip
      if c = delim ∨ c = EOS then (ip, out)
      else if c = ESCAPE then
        let (ch, ip) := patEscape patstr ip
        patFilset delim patstr sz_pat fuel (ip + 1) (chdeposit ch sz_pat out)
      else if c ≠ CH_RANGE then
        patFilset delim patstr sz_pat fuel (ip + 1) (chdeposit c sz_pat out)
      else if out.op ≤ 1 ∨ patstr.char (ip + 1) = EOS then
        patFilset delim patstr sz_pat fuel (ip + 1)
          (chdeposit CH_RANGE sz_pat out)
      else
        -- Valid only if the limits are both digits or both of one case.
        let ch1 := out.buf (out.op - 1)
        let ch2 := patstr.char (ip + 1)
        if (IS_DIGIT ch1 ∧ IS_DIGIT ch2) ∨ (IS_LOWER ch1 ∧ IS_LOWER ch2) ∨
            (IS_UPPER ch1 ∧ IS_UPPER ch2) then
          patFilset delim patstr sz_pat fuel (ip + 2)
            (deposits (rangeChars ch1 ch2) sz_pat out)
        else
          patFilset delim patstr sz_pat fuel (ip + 1)
            (chdeposit CH_RANGE sz_pat out)

/-- Each round of a loop over the pattern string moves on by a char or more. -/
def rounds (patstr : Text) (ip : Int) : Nat := (patstr.extent + 2 - ip).toNat

/-- Expand the class at `patstr[ip]`; `false` stands for ERR. -/
def pat_getccl (patstr : Text) (sz_pat ip : Int) (out : Out) :
    Bool × Int × Out :=
  let ip := ip + 1
  let (cval, ip) :=
    if patstr.char ip = CH_NOT then (NCCL, ip + 1) else (CCL, ip)
  let out := chdeposit cval sz_pat out
  let op_start := out.op
  let out := chdeposit 0 sz_pat out
  let (ip, out) :=
    patFilset CH_CCLEND patstr sz_pat (rounds patstr ip) ip out
  let out :=
    { out with buf := store out.buf op_start (out.op - op_start - 1) }
  (decide (patstr.char ip = CH_CCLEND), ip, out)

/-! ## Closures -/

/-- Make a hole at `last_op`: the words from `jp` down to it move up. -/
def patHole (sz_pat last_op : Int) : Nat → Int → (Int → Int) → Int → Int
  | 0, _, buf => buf
  | count + 1, jp, buf =>
      if jp < last_op then buf
      else
        let jt := min sz_pat (jp + CLOSIZE)
        patHole sz_pat last_op count (jp - 1)
          (fun j => if j = jt then buf jp else buf j)

/-- Insert a closure entry at `last_op`. -/
def pat_stclos (sz_pat last_op last_closure : Int) (out : Out) : Out :=
  let buf :=
    patHole sz_pat last_op (out.op - last_op).toNat (out.op - 1) out.buf
  let entry :=
    deposits [CLOSURE, 0, last_closure, 0] sz_pat ⟨buf, last_op⟩
  ⟨entry.buf, out.op + CLOSIZE⟩

/-! ## The main loop -/

structure Make where
  ip : Int
  out : Out
  last_op : Int
  last_closure : Int
  ignore_case : Bool

/-- Deposit the char left in `cval`, if it is not zero. -/
def depositNonzero (cval sz_pat : Int) (out : Out) : Out :=
  if cval ≠ 0 then chdeposit cval sz_pat out else out

/-- The body of the loop without its final `ip = ip + 1`; `none` stands for the
return of ERR. -/
def gpatmakeBody (patstr : Text) (first delim sz_pat : Int) (m : Make) :
    Option Make :=
  let c := patstr.char m.ip
  let l_op := m.out.op
  let put (cvals : List Int) : Make :=
    { m with out := deposits cvals sz_pat m.out, last_op := l_op }
  if c = CH_ANY then some (put [ANY])
  else if c = CH_WHITESPACE then some (put [WHITESPACE])
  else if c = CH_BOL then
    some (put (if m.ip = first then [BOL] else [CHAR, CH_BOL]))
  else if c = CH_EOL then
    some (put (if patstr.char (m.ip + 1) = delim then [EOL]
      else [CHAR, CH_EOL]))
  else if c = CH_IGNORECASE then
    some { m with ignore_case := true, last_op := l_op }
  else if c = CH_MATCHCASE then
    some { m with ignore_case := false, last_op := l_op }
  else if c = CH_CCL then
    match pat_getccl patstr sz_pat m.ip m.out with
    | (true, ip, out) => some { m with ip := ip, out := out, last_op := l_op }
    | (false, _, _) => none
  else if c = CH_CLOSURE then
    let l_op := m.last_op
    -- Convert a pattern such as "*..." into "?*...".
    let code := m.out.buf l_op
    let out :=
      if m.ip = first ∨ code = BOL ∨ code = EOL ∨ code = CLOSURE then
        chdeposit ANY sz_pat m.out
      else m.out
    some { m with
      out := pat_stclos sz_pat m.last_op m.last_closure out
      last_op := l_op
      last_closure := m.last_op }
  else if c = CH_INDEX then some (put [INDEX, 0])
  else
    -- Ordinary character.
    let code :=
      if m.ignore_case then (if IS_UPPER c then UCHAR else LCHAR) else CHAR
    let out := chdeposit code sz_pat m.out
    let (cval, ip) := if c = CH_ESCAPE then patEscape patstr m.ip else (c, m.ip)
    some { m with
      ip := ip, out := depositNonzero cval sz_pat out, last_op := l_op }

def gpatmakeLoop (patstr : Text) (first delim sz_pat : Int) :
    Nat → Make → Option Make
  | 0, m => some m
  | fuel + 1, m =>
      if patstr.char m.ip = delim ∨ patstr.char m.ip = EOS then some m
      else
        match gpatmakeBody patstr first delim sz_pat m with
        | none => none
        | some m =>
            gpatmakeLoop patstr first delim sz_pat fuel { m with ip := m.ip + 1 }

end Iraf.Fmtio
