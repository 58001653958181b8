import Iraf.Cl.History
import Iraf.Lib.Words
import Mathlib.Data.List.GetD

/-!
# The history macros of the CL

`expand_history_macros` and `get_arglist` of `pkg/cl/history.c`.  The command line
is read from a pointer on, its EOS comes after the last char of the list, and the
output is memory with a pointer.
-/

namespace Iraf.Cl.HistoryMacros

@[simp] abbrev quote : UInt8 := 34
@[simp] abbrev backslash : UInt8 := 92
@[simp] abbrev blank : UInt8 := 32
@[simp] abbrev tab : UInt8 := 9
@[simp] abbrev histchar : UInt8 := 94
@[simp] abbrev firstarg : UInt8 := 94
@[simp] abbrev lastarg : UInt8 := 36
@[simp] abbrev allargs : UInt8 := 42

def argchars : List UInt8 := [lastarg, histchar, allargs]

/-- The places of `argp`. -/
def szArgp : Nat := 100

/-- The class `_N` of `ctype.c`. -/
def isdigit (ch : UInt8) : Bool := 48 ≤ ch && ch ≤ 57

/-- The EOS of the string is one of the chars that are searched. -/
def index (str : List UInt8) (ch : UInt8) : Option Nat := (str ++ [EOS]).findIdx? (· == ch)

/-! ## The arguments of the last command -/

def isBlank (ch : UInt8) : Bool := ch == blank || ch == tab

/-- The tokens of the command from a pointer on, with so many places left in
`argp`; none when a token is stored past them. -/
def getArglist : Nat → List UInt8 → Option (List (List UInt8))
  | room, cmdblk =>
      match cmdblk.dropWhile isBlank with
      | [] => some []
      | ch :: rest =>
          if ch = newline then some []
          else
            match room with
            | 0 => none
            | room + 1 =>
                let token := (ch :: rest).takeWhile fun ch => !isspace ch
                let cp := (ch :: rest).dropWhile fun ch => !isspace ch
                let cp := if isBlank (cp.headD EOS) then cp.tail else cp
                (getArglist room cp).map (token :: ·)

/-! ## The expansion -/

structure Output where
  text : Int → UInt8
  op : Int

namespace Output

def put (out : Output) (ch : UInt8) : Output :=
  { out with text := Function.update out.text out.op ch }

def next (out : Output) : Output := { out with op := out.op + 1 }

def back (out : Output) : Output := { out with op := out.op - 1 }

end Output

inductive Expansion where
  /-- The output, and whether there were macros in the command line. -/
  | expanded (text : Int → UInt8) (haveArgStrings : Bool)
  /-- The error when there is no last command. -/
  | nothingInHistory
  /-- The EOS of the command line was passed, or `argp` was used outside of the
  arguments in it. -/
  | outOfBounds

/-- The arguments from a number on, with blanks between them. -/
def copyArgs (argp : List (List UInt8)) : Nat → Int → Output → Option Output
  | 0, _, out => some out
  | nrep + 1, argno, out =>
      if argno ≤ (argp.length : Int) - 1 then
        if argno < 0 then none
        else
          let arg := argp.getD argno.toNat []
          let out := (arg.foldl (fun out ch => (out.put ch).next) out).put EOS
          copyArgs argp nrep (argno + 1) (if nrep > 0 then (out.put blank).next else out)
      else some out

/-- The number of the first argument of a macro, and how many there are. -/
def substitution (nargs : Int) (ch : UInt8) : Int × Int :=
  if ch = firstarg then (1, 1)
  else if ch = lastarg then (nargs, 1)
  else if ch = allargs then (1, nargs)
  else ((ch.toNat : Int) - 48, 1)

/-- The arguments of the last command, which are parsed once. -/
def argStrings (command : Option CString) :
    Option (List (List UInt8)) → Except Expansion (List (List UInt8))
  | some argp => .ok argp
  | none =>
      match command with
      | none => .error .nothingInHistory
      | some command =>
          match getArglist szArgp command.chars with
          | none => .error .outOfBounds
          | some argp => .ok argp

mutual

/-- The loop, from the char after `before` on. -/
def expandFrom (command : Option CString) (argp : Option (List (List UInt8)))
    (before : Option UInt8) (out : Output) : List UInt8 → Expansion
  | [] => .expanded (out.put EOS).text argp.isSome
  | ch :: rest =>
      let out := out.put ch
      if ch = quote then spanLiteral command argp out.next rest
      else if ch = histchar then
        if before = some backslash then
          expandFrom command argp (some ch) (out.back.put histchar).next rest
        else if !isdigit (rest.headD EOS) && (index argchars (rest.headD EOS)).isNone then
          expandFrom command argp (some ch) out.next rest
        else
          match argStrings command argp with
          | .error e => e
          | .ok args =>
              let (argno, nrep) := substitution ((args.length : Int) - 1) (rest.headD EOS)
              match copyArgs args nrep.toNat argno out with
              | none => .outOfBounds
              | some out =>
                  match rest with
                  -- the pointer is moved to the EOS and then past it
                  | [] => .outOfBounds
                  | ch :: rest => expandFrom command (some args) (some ch) out.back.next rest
      else expandFrom command argp (some ch) out.next rest

/-- The loop that spans a literal string, after a char of it was copied. -/
def spanLiteral (command : Option CString) (argp : Option (List (List UInt8)))
    (out : Output) : List UInt8 → Expansion
  -- the EOS is copied, and the char after it is looked at
  | [] => .outOfBounds
  | ch :: rest =>
      let out := out.put ch
      if ch = quote ∧ rest.headD EOS ≠ quote then
        expandFrom command argp (some ch) out.next rest
      else spanLiteral command argp out.next rest

end

def expandHistoryMacros (inText : CString) (command : Option CString)
    (outText : Int → UInt8) : Expansion :=
  expandFrom command none none ⟨outText, 0⟩ inText.chars

/-! ## What the macros stand for -/

/-- The task name of a command, and its arguments. -/
def words (command : CString) : List (List UInt8) := Words.words isspace command.chars

/-- What a macro is replaced by; nothing for an argument that does not exist. -/
def replacement (words : List (List UInt8)) (ch : UInt8) : List UInt8 :=
  if ch = firstarg then words.tail.headD []
  else if ch = lastarg then words.tail.getLast?.getD []
  else if ch = allargs then [blank].intercalate words.tail
  else words.getD (ch.toNat - 48) []

def isArgchar (ch : UInt8) : Bool := isdigit ch || argchars.contains ch

/-- A part of the command line. -/
inductive Piece where
  | copied (ch : UInt8)
  /-- An escaped history character. -/
  | escaped
  /-- A macro for an argument. -/
  | argument (ch : UInt8)
  deriving DecidableEq, Repr

/-- The parts of a command line.  A char is inside a quoted string when there is an
odd number of quotes before it, so that a doubled quote does not end one. -/
def pieces : Bool → List UInt8 → List Piece
  | _, [] => []
  | inside, ch :: rest =>
      if ch = quote then .copied ch :: pieces (!inside) rest
      else if inside then .copied ch :: pieces inside rest
      else
        match rest with
        | [] => [.copied ch]
        | next :: rest' =>
            if ch = backslash ∧ next = histchar then .escaped :: pieces false rest'
            else if ch = histchar ∧ isArgchar next then .argument next :: pieces false rest'
            else .copied ch :: pieces false (next :: rest')

def Piece.expand (words : List (List UInt8)) : Piece → List UInt8
  | .copied ch => [ch]
  | .escaped => [histchar]
  | .argument ch => replacement words ch

/-- The command line with its macros replaced. -/
def expansion (line command : CString) : List UInt8 :=
  (pieces false line.chars).flatMap (Piece.expand (words command))

/-- The memory holds a string. -/
def Written (text : Int → UInt8) (chars : List UInt8) : Prop :=
  (∀ (i : Nat) ch, chars[i]? = some ch → text i = ch) ∧ text chars.length = EOS

/-- The command line is expanded within the memory of the strings. -/
def Expands (line command : CString) (r : Expansion) : Prop :=
  ∃ text haveArgStrings, r = .expanded text haveArgStrings ∧
    Written text (expansion line command) ∧
    (haveArgStrings = true ↔ ∃ ch, .argument ch ∈ pieces false line.chars)

/-! ## The condition -/

/-- Every quoted string is closed, and a doubled quote in it stands before another
quote. -/
def StringsEnd : Bool → List UInt8 → Prop
  | inside, [] => inside = false
  | inside, ch :: rest =>
      if ch = quote then
        (inside = true → rest.head? = some quote → rest.tail.head? = some quote) ∧
          StringsEnd (!inside) rest
      else StringsEnd inside rest

/-- The tokens are separated by blanks and tabs, and there is only white space after
the first newline. -/
def OneLine : List UInt8 → Prop
  | [] => True
  | ch :: rest =>
      if ch = newline then ∀ ch ∈ rest, isspace ch = true
      else (isspace ch = true → isBlank ch = true) ∧ OneLine rest

/-- The part of the command line that is left, from inside or outside of a string. -/
structure Expandable (command : CString) (inside : Bool) (text : List UInt8) : Prop where
  strings : StringsEnd inside text
  caret : (pieces inside text).getLast? ≠ some (.copied histchar)
  oneLine : ∀ ch, .argument ch ∈ pieces inside text → OneLine command.chars
  room : ∀ ch, .argument ch ∈ pieces inside text → (words command).length ≤ szArgp
  last : .argument lastarg ∈ pieces inside text → 2 ≤ (words command).length

variable {line command : CString} {before : Option UInt8} {out : Output}
  {argp : Option (List (List UInt8))} {text done rest : List UInt8} {inside inside' : Bool}
  {ch next : UInt8} {p : Piece} {r : Expansion} {n : Nat}

/-! ## The arguments -/

theorem isspace_of_isBlank (h : isBlank ch = true) : isspace ch = true := by
  unfold isBlank isspace at *
  simp only [Bool.or_eq_true, beq_iff_eq] at h
  rcases h with rfl | rfl <;> rfl

theorem OneLine.cons (hne : ch ≠ newline) (h : OneLine (ch :: rest)) :
    (isspace ch = true → isBlank ch = true) ∧ OneLine rest := by
  rwa [OneLine, if_neg hne] at h

theorem OneLine.dropWhile {p : UInt8 → Bool} (hp : p newline = false) (h : OneLine text) :
    OneLine (text.dropWhile p) := by
  induction text with
  | nil => exact h
  | cons ch rest ih =>
      by_cases hch : p ch = true
      · rw [List.dropWhile_cons_of_pos hch]
        refine ih (h.cons ?_).2
        rintro rfl
        rw [hp] at hch
        cases hch
      · rw [List.dropWhile_cons_of_neg hch]
        exact h

theorem words_dropBlanks (text : List UInt8) :
    Words.words isspace (text.dropWhile isBlank) = Words.words isspace text := by
  induction text with
  | nil => rfl
  | cons ch rest ih =>
      by_cases hch : isBlank ch = true
      · rw [List.dropWhile_cons_of_pos hch, ih,
          Words.words_cons_blank (isspace_of_isBlank hch)]
      · rw [List.dropWhile_cons_of_neg hch]

theorem words_takeWhile (hch : isspace ch = false) (rest : List UInt8) :
    Words.words isspace (ch :: rest) =
      (ch :: rest).takeWhile (fun ch => !isspace ch) ::
        Words.words isspace ((ch :: rest).dropWhile fun ch => !isspace ch) := by
  have hsplit := List.takeWhile_append_dropWhile (p := fun ch => !isspace ch) (l := ch :: rest)
  have hword : Words.words isspace ((ch :: rest).takeWhile fun ch => !isspace ch) =
      [(ch :: rest).takeWhile fun ch => !isspace ch] := by
    refine Words.words_eq_singleton (fun c hc => ?_) ?_
    · simpa using List.mem_takeWhile_imp hc
    · rw [List.takeWhile_cons_of_pos (by simp [hch])]
      exact List.cons_ne_nil _ _
  conv_lhs => rw [← hsplit]
  cases hrest : (ch :: rest).dropWhile fun ch => !isspace ch with
  | nil => rw [List.append_nil, hword, Words.words_nil]
  | cons d r =>
      have hd : isspace d = true := by
        have := List.head_dropWhile_not (fun ch => !isspace ch) (by rw [hrest]; simp)
        simpa [hrest] using this
      rw [Words.words_append_cons hd, hword, Words.words_cons_blank hd]
      rfl

theorem words_eq_nil (h : ∀ ch ∈ text, isspace ch = true) :
    Words.words isspace text = [] := by
  induction text with
  | nil => rfl
  | cons ch rest ih =>
      rw [Words.words_cons_blank (h ch List.mem_cons_self)]
      exact ih fun c hc => h c (List.mem_cons_of_mem ch hc)

theorem OneLine.token (h : OneLine text) :
    (text.dropWhile isBlank = [] ∧ Words.words isspace text = []) ∨
      ∃ ch rest, text.dropWhile isBlank = ch :: rest ∧
        Words.words isspace text = Words.words isspace (ch :: rest) ∧
        OneLine (ch :: rest) ∧
        (ch = newline ∧ Words.words isspace text = [] ∨
          ch ≠ newline ∧ isspace ch = false) := by
  have hline := h.dropWhile (p := isBlank) rfl
  have hwords := words_dropBlanks text
  cases htoken : text.dropWhile isBlank with
  | nil =>
      rw [htoken] at hwords
      exact .inl ⟨rfl, hwords.symm⟩
  | cons ch rest =>
      rw [htoken] at hline hwords
      refine .inr ⟨ch, rest, rfl, hwords.symm, hline, ?_⟩
      by_cases hch : ch = newline
      · refine .inl ⟨hch, hwords.symm.trans (words_eq_nil fun c hc => ?_)⟩
        rw [OneLine, if_pos hch] at hline
        rcases List.mem_cons.1 hc with rfl | hc
        · rw [hch]
          rfl
        · exact hline c hc
      · refine .inr ⟨hch, ?_⟩
        have hblank : isBlank ch = false := by
          have := List.head_dropWhile_not isBlank (by rw [htoken]; simp)
          simpa [htoken] using this
        by_contra hspace
        rw [Bool.not_eq_false] at hspace
        rw [(hline.cons hch).1 hspace] at hblank
        cases hblank

theorem getArglist_eq {room : Nat} (h : OneLine text)
    (hroom : (Words.words isspace text).length ≤ room) :
    getArglist room text = some (Words.words isspace text) := by
  induction room generalizing text with
  | zero =>
      have hnil := List.eq_nil_of_length_eq_zero (Nat.le_zero.1 hroom)
      rw [getArglist, hnil]
      rcases h.token with ⟨htoken, -⟩ | ⟨ch, rest, htoken, hwords, -, hend⟩
      · rw [htoken]
      · rw [htoken]
        rcases hend with ⟨hch, -⟩ | ⟨hch, hspace⟩
        · exact if_pos hch
        · rw [hwords, words_takeWhile hspace] at hnil
          cases hnil
  | succ room ih =>
      rw [getArglist]
      rcases h.token with ⟨htoken, hwords⟩ | ⟨ch, rest, htoken, hwords, hline, hend⟩
      · rw [htoken, hwords]
      · rw [htoken]
        rcases hend with ⟨hch, hnil⟩ | ⟨hch, hspace⟩
        · rw [hnil]
          exact if_pos hch
        · rw [hwords, words_takeWhile hspace] at hroom ⊢
          dsimp only
          rw [if_neg hch]
          have hafter := hline.dropWhile (p := fun ch => !isspace ch) rfl
          generalize (ch :: rest).dropWhile (fun ch => !isspace ch) = cp at hroom hafter ⊢
          cases cp with
          | nil =>
              rw [if_neg (by decide), ih hafter (by simp)]
              rfl
          | cons d r =>
              by_cases hd : isBlank d = true
              · have hne : d ≠ newline := by
                  rintro rfl
                  cases hd
                have hr := Words.words_cons_blank (isspace_of_isBlank hd) r
                rw [List.length_cons, hr] at hroom
                rw [List.headD_cons, if_pos hd, List.tail_cons, hr,
                  ih (hafter.cons hne).2 (Nat.le_of_succ_le_succ hroom)]
                rfl
              · rw [List.headD_cons, if_neg hd, ih hafter (Nat.le_of_succ_le_succ hroom)]
                rfl

/-! ## The output -/

/-- The chars before the pointer. -/
structure Output.Holds (out : Output) (done : List UInt8) : Prop where
  op : out.op = done.length
  chars : ∀ (i : Nat) ch, done[i]? = some ch → out.text i = ch

theorem Output.Holds.put (h : out.Holds done) (ch : UInt8) : (out.put ch).Holds done := by
  refine ⟨h.op, fun i c hi => ?_⟩
  have hlt := (List.getElem?_eq_some_iff.1 hi).1
  have hne : (i : Int) ≠ out.op := by
    rw [h.op]
    exact fun heq => hlt.ne (Int.ofNat_inj.1 heq)
  show Function.update out.text out.op ch i = c
  rw [Function.update_of_ne hne]
  exact h.chars i c hi

theorem Output.Holds.putNext (h : out.Holds done) (ch : UInt8) :
    (out.put ch).next.Holds (done ++ [ch]) := by
  have hput := h.put ch
  refine ⟨?_, fun i c hi => ?_⟩
  · rw [List.length_append, Int.natCast_add, ← h.op]
    rfl
  · rcases lt_or_ge i done.length with hlt | hge
    · rw [List.getElem?_append_left hlt] at hi
      exact hput.chars i c hi
    · rw [List.getElem?_append_right hge, List.getElem?_singleton] at hi
      split at hi
      · next hzero =>
        have heq : (i : Int) = out.op := by
          rw [h.op]
          omega
        cases hi
        rw [heq]
        exact Function.update_self ..
      · cases hi

theorem Output.Holds.back (h : out.Holds (done ++ [ch])) : out.back.Holds done := by
  refine ⟨?_, fun i c hi => ?_⟩
  · have hop := h.op
    rw [List.length_append, Int.natCast_add] at hop
    show out.op - 1 = _
    rw [hop]
    exact Int.add_sub_cancel _ _
  · refine h.chars i c ?_
    rwa [List.getElem?_append_left (List.getElem?_eq_some_iff.1 hi).1]

theorem Output.Holds.backNext (h : out.Holds done) : out.back.next.Holds done := by
  refine ⟨?_, h.chars⟩
  show out.op - 1 + 1 = _
  rw [Int.sub_add_cancel, h.op]

theorem Output.Holds.written (h : out.Holds done) : Written (out.put EOS).text done := by
  refine ⟨(h.put EOS).chars, ?_⟩
  rw [← h.op]
  exact Function.update_self ..

theorem Output.Holds.copy (h : out.Holds done) (arg : List UInt8) :
    (arg.foldl (fun out ch => (out.put ch).next) out).Holds (done ++ arg) := by
  induction arg generalizing out done with
  | nil => rwa [List.append_nil]
  | cons ch arg ih =>
      have := ih (h.putNext ch)
      rwa [List.append_assoc] at this

theorem copyArgs_one (args : List (List UInt8)) (k : Nat) (h : out.Holds done) :
    ∃ out', copyArgs args 1 k out = some out' ∧ out'.Holds (done ++ args.getD k []) := by
  rw [copyArgs]
  split
  next hk =>
    refine ⟨_, if_neg (Int.not_lt.2 (Int.natCast_nonneg k)), ?_⟩
    exact (h.copy _).put EOS
  next hk =>
    refine ⟨out, rfl, ?_⟩
    rw [List.getD_eq_default _ _ (by omega), List.append_nil]
    exact h

theorem copyArgs_all {args rest : List (List UInt8)} {k : Nat} (hrest : args.drop k = rest)
    (h : out.Holds done) :
    ∃ out', copyArgs args rest.length k out = some out' ∧
      out'.Holds (done ++ [blank].intercalate rest) := by
  induction rest generalizing k out done with
  | nil => exact ⟨out, rfl, by simpa using h⟩
  | cons arg rest ih =>
      have hk : k < args.length := by
        by_contra hk
        rw [List.drop_eq_nil_of_le (Nat.not_lt.1 hk)] at hrest
        cases hrest
      have harg : args.getD k [] = arg := by
        rw [List.drop_eq_getElem_cons hk, List.cons.injEq] at hrest
        rw [List.getD_eq_getElem _ _ hk, hrest.1]
      have hdrop : args.drop (k + 1) = rest := by
        rw [← List.tail_drop, hrest, List.tail_cons]
      rw [List.length_cons, copyArgs, if_pos (by omega),
        if_neg (Int.not_lt.2 (Int.natCast_nonneg k)), Int.toNat_natCast, harg]
      have hcopy := (h.copy arg).put EOS
      cases rest with
      | nil => exact ⟨_, rfl, by simpa using hcopy⟩
      | cons arg' rest =>
          have hblank := (hcopy.putNext blank)
          obtain ⟨out', heq, hout⟩ := ih hdrop hblank
          refine ⟨out', heq, ?_⟩
          rw [List.intercalate_cons_cons]
          simpa using hout

theorem getLast_arg {args : List (List UInt8)} (h : 2 ≤ args.length) :
    args.getD (args.length - 1) [] = args.tail.getLast?.getD [] := by
  obtain ⟨first, rest, rfl⟩ :=
    List.exists_cons_of_length_pos (Nat.lt_of_lt_of_le Nat.zero_lt_two h)
  have hne : 0 < rest.length := Nat.lt_of_succ_lt_succ h
  rw [List.tail_cons, List.getLast?_eq_getElem?, List.getD_eq_getElem?_getD,
    List.length_cons, Nat.add_sub_cancel, List.getElem?_cons,
    if_neg hne.ne']

theorem substitution_spec (args : List (List UInt8)) (hch : isArgchar ch = true)
    (hlast : ch = lastarg → 2 ≤ args.length) (h : out.Holds done) :
    ∃ out', copyArgs args (substitution ((args.length : Int) - 1) ch).2.toNat
        (substitution ((args.length : Int) - 1) ch).1 out = some out' ∧
      out'.Holds (done ++ replacement args ch) := by
  unfold substitution replacement
  split
  · obtain ⟨out', heq, hout⟩ := copyArgs_one args 1 h
    refine ⟨out', heq, ?_⟩
    rwa [List.headD_eq_head?_getD, List.head?_tail, ← List.getD_eq_getElem?_getD]
  next hfirst =>
    split
    next hch =>
      have hlen := hlast hch
      obtain ⟨out', heq, hout⟩ := copyArgs_one args (args.length - 1) h
      rw [Int.natCast_sub (by omega)] at heq
      exact ⟨out', heq, getLast_arg hlen ▸ hout⟩
    next hlast =>
      split
      · have hdrop : args.drop 1 = args.tail := List.drop_one
        obtain ⟨out', heq, hout⟩ := copyArgs_all hdrop h
        refine ⟨out', ?_, hout⟩
        have hnrep : ((args.length : Int) - 1).toNat = args.tail.length := by
          rw [List.length_tail]
          omega
        dsimp only
        rw [hnrep]
        exact heq
      next hall =>
        obtain ⟨out', heq, hout⟩ := copyArgs_one args (ch.toNat - 48) h
        have hdigit : 48 ≤ ch.toNat := by
          simp only [isArgchar, argchars, List.contains_cons, List.contains_nil, Bool.or_false,
            Bool.or_eq_true, beq_iff_eq] at hch
          rcases hch with hch | hch | hch | hch
          · simp only [isdigit, Bool.and_eq_true, decide_eq_true_eq] at hch
            exact hch.1
          · exact absurd hch hlast
          · exact absurd hch hfirst
          · exact absurd hch hall
        rw [Int.natCast_sub hdigit] at heq
        exact ⟨out', heq, hout⟩

/-! ## The command line -/

theorem pieces_quote (inside : Bool) (rest : List UInt8) :
    pieces inside (quote :: rest) = .copied quote :: pieces (!inside) rest := by
  rw [pieces.eq_def]
  exact if_pos rfl

theorem pieces_inside (hch : ch ≠ quote) (rest : List UInt8) :
    pieces true (ch :: rest) = .copied ch :: pieces true rest := by
  rw [pieces.eq_def]
  dsimp only
  rw [if_neg hch, if_pos rfl]

theorem pieces_outside (hch : ch ≠ quote) (hback : ch = backslash → rest.head? ≠ some histchar)
    (hhist : ch = histchar → ∀ next, rest.head? = some next → isArgchar next = false) :
    pieces false (ch :: rest) = .copied ch :: pieces false rest := by
  rw [pieces.eq_def]
  dsimp only
  rw [if_neg hch, if_neg Bool.false_ne_true]
  cases rest with
  | nil => rfl
  | cons next rest =>
      dsimp only
      rw [if_neg, if_neg]
      · rintro ⟨hch, hnext⟩
        rw [hhist hch next rfl] at hnext
        cases hnext
      · rintro ⟨hch, hnext⟩
        exact hback hch (congrArg some hnext)

theorem StringsEnd.step (hch : ch ≠ quote) (h : StringsEnd inside (ch :: rest)) :
    StringsEnd inside rest := by
  rwa [StringsEnd, if_neg hch] at h

theorem StringsEnd.step_quote (h : StringsEnd inside (quote :: rest)) :
    (inside = true → rest.head? = some quote → rest.tail.head? = some quote) ∧
      StringsEnd (!inside) rest := by
  rwa [StringsEnd, if_pos rfl] at h

theorem Expandable.step (h : Expandable command inside text)
    (hp : pieces inside text = p :: pieces inside' rest) (hstrings : StringsEnd inside' rest) :
    Expandable command inside' rest := by
  obtain ⟨-, hcaret, hline, hroom, hlast⟩ := h
  rw [hp] at hcaret hline hroom hlast
  refine ⟨hstrings, fun heq => hcaret ?_, fun ch hch => hline ch (List.mem_cons_of_mem p hch),
    fun ch hch => hroom ch (List.mem_cons_of_mem p hch),
    fun hch => hlast (List.mem_cons_of_mem p hch)⟩
  rw [List.getLast?_cons, heq]
  rfl

/-- What is left is expanded after what was written. -/
def ExpandsFrom (command : CString) (argp : Option (List (List UInt8))) (done : List UInt8)
    (inside : Bool) (text : List UInt8) (r : Expansion) : Prop :=
  ∃ outText haveArgStrings, r = .expanded outText haveArgStrings ∧
    Written outText (done ++ (pieces inside text).flatMap (Piece.expand (words command))) ∧
    (haveArgStrings = true ↔ argp.isSome = true ∨ ∃ ch, .argument ch ∈ pieces inside text)

theorem ExpandsFrom.copied (hp : pieces inside text = .copied ch :: pieces inside' rest)
    (h : ExpandsFrom command argp (done ++ [ch]) inside' rest r) :
    ExpandsFrom command argp done inside text r := by
  obtain ⟨outText, flag, hr, hwritten, hflag⟩ := h
  refine ⟨outText, flag, hr, ?_, ?_⟩
  · rw [hp, List.flatMap_cons, ← List.append_assoc]
    exact hwritten
  · simpa [hp] using hflag

theorem ExpandsFrom.escaped (hp : pieces inside text = .escaped :: pieces inside' rest)
    (h : ExpandsFrom command argp (done ++ [histchar]) inside' rest r) :
    ExpandsFrom command argp done inside text r := by
  obtain ⟨outText, flag, hr, hwritten, hflag⟩ := h
  refine ⟨outText, flag, hr, ?_, ?_⟩
  · rw [hp, List.flatMap_cons, ← List.append_assoc]
    exact hwritten
  · simpa [hp] using hflag

theorem ExpandsFrom.argument {args : List (List UInt8)}
    (hp : pieces inside text = .argument ch :: pieces inside' rest)
    (h : ExpandsFrom command (some args) (done ++ replacement (words command) ch) inside' rest r) :
    ExpandsFrom command argp done inside text r := by
  obtain ⟨outText, flag, hr, hwritten, hflag⟩ := h
  refine ⟨outText, flag, hr, ?_, ?_⟩
  · rw [hp, List.flatMap_cons, ← List.append_assoc]
    exact hwritten
  · rw [hflag, hp]
    exact iff_of_true (.inl rfl) (.inr ⟨ch, List.mem_cons_self⟩)

theorem index_argchars (next : UInt8) :
    (index argchars next).isNone = !(argchars.contains next || next == EOS) := by
  have hany : (argchars ++ [EOS]).any (· == next) =
      (argchars.contains next || next == EOS) := by
    rw [List.any_append, List.contains_eq_any_beq, List.any_cons, List.any_nil, Bool.or_false,
      Bool.beq_comm]
    simp only [Bool.beq_comm]
  rw [index, List.findIdx?_isNone, ← hany, List.not_any_eq_all_not]
  simp only [Bool.not_eq_true, Bool.decide_eq_false]

theorem isArgchar_iff (next : UInt8) :
    (!isdigit next && (index argchars next).isNone) = false ↔
      next = EOS ∨ isArgchar next = true := by
  rw [index_argchars, isArgchar, ← Bool.not_or, Bool.not_eq_false', ← Bool.or_assoc,
    Bool.or_eq_true, beq_iff_eq, or_comm]

theorem argStrings_eq (hargs : ∀ args, argp = some args → args = words command)
    (hline : OneLine command.chars) (hroom : (words command).length ≤ szArgp) :
    argStrings (some command) argp = .ok (words command) := by
  cases argp with
  | none =>
      rw [argStrings, getArglist_eq hline hroom]
      rfl
  | some args => rw [argStrings, hargs args rfl]

/-! ## One char of the command line -/

section

variable {last : Option CString}

theorem expandFrom_quote :
    expandFrom last argp before out (quote :: rest) =
      spanLiteral last argp (out.put quote).next rest := by
  rw [expandFrom.eq_def]
  exact if_pos rfl

theorem expandFrom_escaped :
    expandFrom last argp (some backslash) out (histchar :: rest) =
      expandFrom last argp (some histchar) ((out.put histchar).back.put histchar).next rest := by
  rw [expandFrom.eq_def]
  rfl

theorem expandFrom_copied (hch : ch ≠ quote) (hhist : ch = histchar → before ≠ some backslash ∧
      rest.headD EOS ≠ EOS ∧ isArgchar (rest.headD EOS) = false) :
    expandFrom last argp before out (ch :: rest) =
      expandFrom last argp (some ch) (out.put ch).next rest := by
  rw [expandFrom.eq_def]
  dsimp only
  rw [if_neg hch]
  by_cases hc : ch = histchar
  · obtain ⟨hbefore, heos, harg⟩ := hhist hc
    rw [if_pos hc, if_neg hbefore, if_pos]
    by_contra hnot
    rw [Bool.not_eq_true] at hnot
    rcases (isArgchar_iff _).1 hnot with h | h
    · exact heos h
    · rw [harg] at h
      cases h
  · rw [if_neg hc]

theorem expandFrom_argument {args : List (List UInt8)} {out' : Output}
    (hbefore : before ≠ some backslash) (hnext : isArgchar next = true)
    (hargs : argStrings last argp = .ok args)
    (hcopy : copyArgs args (substitution ((args.length : Int) - 1) next).2.toNat
      (substitution ((args.length : Int) - 1) next).1 (out.put histchar) = some out') :
    expandFrom last argp before out (histchar :: next :: rest) =
      expandFrom last (some args) (some next) out'.back.next rest := by
  have htest := (isArgchar_iff next).2 (.inr hnext)
  rw [expandFrom.eq_def]
  dsimp only
  rw [if_neg (by decide), if_pos rfl, if_neg hbefore, List.headD_cons, htest,
    if_neg Bool.false_ne_true, hargs]
  dsimp only
  rw [hcopy]

theorem spanLiteral_end (hrest : rest.headD EOS ≠ quote) :
    spanLiteral last argp out (quote :: rest) =
      expandFrom last argp (some quote) (out.put quote).next rest := by
  rw [spanLiteral]
  exact if_pos ⟨rfl, hrest⟩

theorem spanLiteral_copied (hch : ¬(ch = quote ∧ rest.headD EOS ≠ quote)) :
    spanLiteral last argp out (ch :: rest) = spanLiteral last argp (out.put ch).next rest := by
  rw [spanLiteral]
  exact if_neg hch

end

/-! ## The loop -/

/-- The arguments are those of the last command when they were parsed. -/
def Parsed (command : CString) (argp : Option (List (List UInt8))) : Prop :=
  ∀ args, argp = some args → args = words command

def LoopExpands (command : CString) (text : List UInt8) : Prop :=
  ∀ argp before out done, Parsed command argp →
    (before = some backslash → text.head? ≠ some histchar) → out.Holds done →
    Expandable command false text →
    ExpandsFrom command argp done false text (expandFrom (some command) argp before out text)

/-- The text is not inside of a string after the first quote of a doubled one. -/
def SpanExpands (command : CString) (text : List UInt8) : Prop :=
  ∀ argp out done inside, Parsed command argp → out.Holds done →
    Expandable command inside text →
    (inside = false → text.head? = some quote ∧ text.tail.head? = some quote) →
    ExpandsFrom command argp done inside text (spanLiteral (some command) argp out text)

theorem loopExpands_nil (command : CString) : LoopExpands command [] := by
  intro argp before out done hargs hbefore hout h
  refine ⟨(out.put EOS).text, argp.isSome, by rw [expandFrom], ?_, ?_⟩
  · rw [pieces, List.flatMap_nil, List.append_nil]
    exact hout.written
  · simp [pieces]

theorem spanExpands_nil (command : CString) : SpanExpands command [] := by
  intro argp out done inside hargs hout h hinside
  have hfalse : inside = false := h.strings
  exact absurd (hinside hfalse).1 nofun

theorem spanExpands_cons (hloop : LoopExpands command rest) (hspan : SpanExpands command rest) :
    SpanExpands command (ch :: rest) := by
  intro argp out done inside hargs hout h hinside
  by_cases hch : ch = quote
  · subst hch
    have hp := pieces_quote inside rest
    obtain ⟨hdoubled, hstrings⟩ := h.strings.step_quote
    refine .copied hp ?_
    have hrest := h.step hp hstrings
    have hput := hout.putNext quote
    cases inside with
    | false =>
        -- the second quote of a doubled one, before the one that ends the string
        have hhead := (hinside rfl).2
        rw [List.tail_cons] at hhead
        rw [spanLiteral_copied fun hend => hend.2 (by rw [List.headD_eq_head?_getD, hhead]; rfl)]
        exact hspan argp _ _ true hargs hput hrest nofun
    | true =>
        by_cases hend : rest.headD EOS = quote
        · have hhead : rest.head? = some quote := by
            cases rest with
            | nil => cases hend
            | cons c rest => exact congrArg some hend
          rw [spanLiteral_copied fun hnot => hnot.2 hend]
          exact hspan argp _ _ false hargs hput hrest fun _ => ⟨hhead, hdoubled rfl hhead⟩
        · rw [spanLiteral_end hend]
          exact hloop argp _ _ _ hargs nofun hput hrest
  · cases inside with
    | false => exact absurd (Option.some.inj (hinside rfl).1) hch
    | true =>
        have hp := pieces_inside hch rest
        refine .copied hp ?_
        rw [spanLiteral_copied fun hend => hch hend.1]
        exact hspan argp _ _ true hargs (hout.putNext ch) (h.step hp (h.strings.step hch)) nofun

theorem loopExpands_cons (heos : EOS ∉ ch :: rest) (hloop : LoopExpands command rest)
    (htail : LoopExpands command rest.tail) (hspan : SpanExpands command rest) :
    LoopExpands command (ch :: rest) := by
  intro argp before out done hargs hbefore hout h
  by_cases hquote : ch = quote
  · subst hquote
    have hp := pieces_quote false rest
    refine .copied hp ?_
    rw [expandFrom_quote]
    exact hspan argp _ _ true hargs (hout.putNext quote) (h.step hp h.strings.step_quote.2) nofun
  have hstrings := h.strings.step hquote
  by_cases hescape : ch = backslash ∧ rest.head? = some histchar
  · obtain ⟨rfl, hnext⟩ := hescape
    obtain ⟨rest', rfl⟩ : ∃ rest', rest = histchar :: rest' := by
      cases rest with
      | nil => cases hnext
      | cons c rest => exact ⟨rest, by rw [Option.some.inj hnext]⟩
    have hp : pieces false (backslash :: histchar :: rest') = .escaped :: pieces false rest' := by
      rw [pieces.eq_def]
      rfl
    refine .escaped hp ?_
    rw [expandFrom_copied hquote fun hc => absurd hc (by decide), expandFrom_escaped]
    have hback := ((hout.putNext backslash).put histchar).back
    exact htail argp _ _ _ hargs nofun (hback.putNext histchar)
      (h.step hp (hstrings.step (by decide)))
  by_cases harg : ch = histchar ∧ ∃ next rest', rest = next :: rest' ∧ isArgchar next = true
  · obtain ⟨rfl, next, rest', rfl, hnext⟩ := harg
    have hne : next ≠ quote := by
      rintro rfl
      cases hnext
    have hp : pieces false (histchar :: next :: rest') = .argument next :: pieces false rest' := by
      rw [pieces.eq_def]
      dsimp only
      rw [if_neg (by decide), if_neg Bool.false_ne_true,
        if_neg fun hc => absurd hc.1 (by decide), if_pos ⟨rfl, hnext⟩]
    have hmem : .argument next ∈ pieces false (histchar :: next :: rest') := by
      rw [hp]
      exact List.mem_cons_self
    obtain ⟨out', hcopy, hout'⟩ := substitution_spec (words command) hnext
      (fun hlast => h.last (hlast ▸ hmem)) (hout.put histchar)
    rw [expandFrom_argument (fun hb => hbefore hb rfl) hnext
      (argStrings_eq hargs (h.oneLine next hmem) (h.room next hmem)) hcopy]
    refine .argument hp (htail (some (words command)) _ _ _ (by rintro _ ⟨⟩; rfl) ?_
      hout'.backNext (h.step hp (hstrings.step hne)))
    intro hb
    cases hb
    cases hnext
  · have hnot : ch = histchar → ∀ next, rest.head? = some next → isArgchar next = false := by
      intro hch next hnext
      by_contra hnot
      rw [Bool.not_eq_false] at hnot
      cases rest with
      | nil => cases hnext
      | cons c rest =>
          exact harg ⟨hch, c, rest, rfl, Option.some.inj hnext ▸ hnot⟩
    have hp := pieces_outside hquote (fun hch hnext => hescape ⟨hch, hnext⟩) hnot
    refine .copied hp ?_
    rw [expandFrom_copied hquote]
    · refine hloop argp _ _ _ hargs (fun hb => ?_) (hout.putNext ch) (h.step hp hstrings)
      exact fun hnext => hescape ⟨Option.some.inj hb, hnext⟩
    · intro hch
      refine ⟨fun hb => hbefore hb (congrArg some hch), ?_⟩
      cases rest with
      | nil =>
          -- a history character at the end of the line
          refine absurd ?_ h.caret
          rw [hp, hch]
          rfl
      | cons next rest =>
          rw [List.headD_cons]
          refine ⟨fun hnext => heos ?_, hnot hch next rfl⟩
          rw [← hnext]
          exact List.mem_cons_of_mem ch List.mem_cons_self

theorem loop_expands (command : CString) (n : Nat) (text : List UInt8) (hn : text.length ≤ n)
    (heos : EOS ∉ text) : LoopExpands command text ∧ SpanExpands command text := by
  induction n generalizing text with
  | zero =>
      obtain rfl := List.eq_nil_of_length_eq_zero (Nat.le_zero.1 hn)
      exact ⟨loopExpands_nil command, spanExpands_nil command⟩
  | succ n ih =>
      cases text with
      | nil => exact ⟨loopExpands_nil command, spanExpands_nil command⟩
      | cons ch rest =>
          have hrest := ih rest (Nat.le_of_succ_le_succ hn) fun h =>
            heos (List.mem_cons_of_mem ch h)
          have htail := ih rest.tail (by
            rw [List.length_tail]
            exact (Nat.sub_le _ _).trans (Nat.le_of_succ_le_succ hn)) fun h =>
              heos (List.mem_cons_of_mem ch (List.mem_of_mem_tail h))
          exact ⟨loopExpands_cons heos hrest.1 htail.1 hrest.2,
            spanExpands_cons hrest.1 hrest.2⟩

/-- Where every string is closed, doubled quotes are at the ends of strings, no
history character ends the line and the arguments can be parsed, the macros are
replaced and nothing else is. -/
theorem expandHistoryMacros_expands (line command : CString)
    (h : Expandable command false line.chars) (outText : Int → UInt8) :
    Expands line command (expandHistoryMacros line (some command) outText) := by
  have hout : (Output.mk outText 0).Holds [] := ⟨rfl, nofun⟩
  obtain ⟨text, flag, hr, hwritten, hflag⟩ :=
    (loop_expands command _ line.chars le_rfl line.noEos).1 none none _ [] nofun nofun hout h
  refine ⟨text, flag, hr, hwritten, ?_⟩
  rw [hflag]
  simp

/-- The line `p "^^""" \^ ^^ ^9` after the command `dir x y`. -/
theorem expandHistoryMacros_expands_dir :
    Expands
      ⟨[112, 32, 34, 94, 94, 34, 34, 34, 32, 92, 94, 32, 94, 94, 32, 94, 57], by decide⟩
      ⟨[100, 105, 114, 32, 120, 32, 121, 10], by decide⟩
      (expandHistoryMacros
        ⟨[112, 32, 34, 94, 94, 34, 34, 34, 32, 92, 94, 32, 94, 94, 32, 94, 57], by decide⟩
        (some ⟨[100, 105, 114, 32, 120, 32, 121, 10], by decide⟩) fun _ => EOS) :=
  expandHistoryMacros_expands _ _ ⟨by simp [StringsEnd], by decide,
    fun _ _ => by simp [OneLine]; decide, fun _ _ => by decide, fun _ => by decide⟩ fun _ => EOS

/-- The loop that looks for the end of a string passes the end of the line. -/
theorem not_expands_unclosed :
    ¬∀ (line command : CString) (outText : Int → UInt8),
      Expands line command (expandHistoryMacros line (some command) outText) := by
  intro h
  obtain ⟨text, flag, hr, -⟩ :=
    h ⟨[34, 97], by decide⟩ ⟨[120, 10], by decide⟩ fun _ => EOS
  cases hr

end Iraf.Cl.HistoryMacros
