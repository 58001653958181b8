import Iraf.Qpoe.BreakpointRanges

/-!
# Attribute expressions

The expressions that the parser is documented to take, their text, and the breakpoints that
a term is entered as.
-/

namespace Iraf.Qpoe

open Iraf.Fmtio Iraf.Fmtio.LongText

/-- A value, or a range of which either end may be left out. -/
inductive Term
  | value (m : Decimal)
  | range (m n : Option Decimal)

mutual

/-- A term, or a group in parentheses. -/
inductive Operand
  | term (t : Term)
  | group (l : Exprs)

/-- Operands separated by commas, each with the number of `!` in front of it. -/
inductive Exprs
  | last (nots : Nat) (o : Operand)
  | comma (nots : Nat) (o : Operand) (l : Exprs)

end

namespace Term

def endText (m : Option Decimal) : List Char := m.elim [] Decimal.text

def text : Term → List Char
  | value m => m.text
  | range m n => endText m ++ ':' :: endText n

/-- The values lie between the markers of open ranges. -/
def Between (m : Decimal) : Prop := -maxInt < m.val ∧ m.val < maxInt

def Finite : Term → Prop
  | value m => Between m
  | range m n => (∀ v ∈ m, Between v) ∧ ∀ v ∈ n, Between v

/-- The values that the term stands for; the end points come in any order. -/
def Mem (x : Int) : Term → Prop
  | value m => x = m.val
  | range none none => True
  | range none (some n) => x ≤ n.val
  | range (some m) none => m.val ≤ x
  | range (some m) (some n) => min m.val n.val ≤ x ∧ x ≤ max m.val n.val

def lower : Term → Int
  | value m => m.val
  | range m n => min (m.elim (-maxInt) Decimal.val) (n.elim maxInt Decimal.val)

def upper : Term → Int
  | value m => m.val
  | range m n => max (m.elim (-maxInt) Decimal.val) (n.elim maxInt Decimal.val)

/-- The breakpoints that the term is entered as. -/
def points (t : Term) : List Breakpoint :=
  breakpoints t.lower (if t.upper = maxInt then t.upper else t.upper + 1)

/-- The text that is left after the term; blanks are skipped where a number or a colon may
follow. -/
def after (rest : List Char) : Term → List Char
  | range _ (some _) => rest
  | _ => rest.dropWhile isWhite

end Term

/-! ## Numbers -/

/-- Digits, signs, colons and what is in no number. -/
def PlainText (str : List Char) : Prop :=
  ∀ c ∈ str, Lexnum.PlainClass (Lexnum.charClass c)

instance (cc : CharClass) : Decidable (Lexnum.PlainClass cc) :=
  inferInstanceAs (Decidable (cc ∈ _))

variable {rest str : List Char} {m : Decimal}

theorem plainText_append : PlainText (str ++ rest) ↔ PlainText str ∧ PlainText rest := by
  simp only [PlainText, List.mem_append]
  constructor
  · exact fun h => ⟨fun c hc => h c (.inl hc), fun c hc => h c (.inr hc)⟩
  · rintro ⟨hstr, hrest⟩ c (hc | hc)
    · exact hstr c hc
    · exact hrest c hc

theorem plainText_cons {c : Char} :
    PlainText (c :: str) ↔ Lexnum.PlainClass (Lexnum.charClass c) ∧ PlainText str := by
  simp [PlainText]

theorem plainText_signText (signed : Option Bool) : PlainText (Decimal.signText signed) := by
  cases signed with
  | none => exact fun c hc => absurd hc List.not_mem_nil
  | some neg =>
      intro c hc
      cases neg with
      | true =>
          rw [List.mem_singleton.1 hc]
          decide
      | false =>
          rw [List.mem_singleton.1 hc]
          decide

theorem plainText_decimal (m : Decimal) : PlainText m.text := by
  rw [Decimal.text, plainText_append]
  refine ⟨plainText_signText m.signed, ?_⟩
  intro c hc
  obtain ⟨d, hd, rfl⟩ := List.mem_map.1 hc
  have hlt := m.lt d hd
  interval_cases d <;> decide

theorem qpCtoi_plain (h : PlainText str) :
    qpCtoi str = ((gctol str 10).nchars, (gctol str 10).lval, str.drop (gctol str 10).used) := by
  obtain ⟨hoct, hhex⟩ := lexnum_plain h
  rw [qpCtoi]
  cases htype : (lexnum str).1 with
  | octal => exact absurd htype hoct
  | hex => exact absurd htype hhex
  | decimal => rfl
  | real => rfl
  | nonnum => rfl

theorem qpCtoi_decimal (m : Decimal) (hrest : PlainText rest) (hstops : Stops rest) :
    qpCtoi (m.text ++ rest) = ((m.digits.length : Int), m.val, rest) := by
  rw [qpCtoi_plain (plainText_append.2 ⟨plainText_decimal m, hrest⟩), gctol_decimal m hstops]
  simp only [List.drop_left]

theorem qpCtoi_none (hstr : PlainText str) (h : ∀ c ∈ (str.dropWhile isWhite).head?,
    c.isDigit = false ∧ c ≠ '-' ∧ c ≠ '+') :
    qpCtoi str = (0, 0, str.dropWhile isWhite) := by
  rw [qpCtoi_plain hstr, gctol_none h, drop_white]

/-! ## Terms -/

/-- What may follow a term: blanks, and the end, a comma or a closing parenthesis. -/
structure Follows (rest : List Char) : Prop where
  plain : PlainText rest
  head : ∀ c ∈ (rest.dropWhile isWhite).head?, c = ',' ∨ c = ')'

theorem Follows.stops (h : Follows rest) : Stops rest := by
  intro c hc
  cases rest with
  | nil => cases hc
  | cons d rest =>
      cases hc
      by_cases hwhite : isWhite c = true
      · have hc : c = ' ' ∨ c = '\t' := by simpa [isWhite] using hwhite
        rcases hc with rfl | rfl <;> exact ⟨rfl, by decide, by decide, by decide, by decide⟩
      · rcases h.head c (by simp [hwhite]) with rfl | rfl <;>
          exact ⟨rfl, by decide, by decide, by decide, by decide⟩

theorem stops_colon : Stops (':' :: rest) := by
  intro c hc
  cases hc
  exact ⟨rfl, by decide, by decide, by decide, by decide⟩

theorem plainText_colon (h : PlainText rest) : PlainText (':' :: rest) :=
  plainText_cons.2 ⟨by decide, h⟩

theorem plainText_endText (m : Option Decimal) : PlainText (Term.endText m) := by
  cases m with
  | none => exact fun c hc => absurd hc List.not_mem_nil
  | some m => exact plainText_decimal m

theorem length_digits_pos (m : Decimal) : ¬ (m.digits.length : Int) ≤ 0 := by
  have := List.length_pos_iff.2 m.nonempty
  omega

theorem scanEnd (m n : Option Decimal) (h : Follows rest) :
    (if (qpCtoi (Term.endText n ++ rest)).1 ≤ 0 then maxInt
        else (qpCtoi (Term.endText n ++ rest)).2.1) = n.elim maxInt Decimal.val ∧
      (qpCtoi (Term.endText n ++ rest)).2.2 = (Term.range m n).after rest := by
  cases n with
  | none =>
      have hnone : qpCtoi rest = (0, 0, rest.dropWhile isWhite) := by
        refine qpCtoi_none h.plain fun c hc => ?_
        rcases h.head c hc with rfl | rfl <;> exact ⟨rfl, by decide, by decide⟩
      simp only [Term.endText, Option.elim, List.nil_append, hnone]
      exact ⟨rfl, rfl⟩
  | some n =>
      simp only [Term.endText, Option.elim, qpCtoi_decimal n h.plain h.stops]
      exact ⟨if_neg (length_digits_pos n), rfl⟩

theorem scanStart (m : Option Decimal) (h : PlainText rest) :
    (if (qpCtoi (Term.endText m ++ ':' :: rest)).1 ≤ 0 then -maxInt
        else (qpCtoi (Term.endText m ++ ':' :: rest)).2.1) = m.elim (-maxInt) Decimal.val ∧
      (qpCtoi (Term.endText m ++ ':' :: rest)).2.2 = ':' :: rest := by
  cases m with
  | none =>
      have hnone : qpCtoi (':' :: rest) = (0, 0, ':' :: rest) :=
        qpCtoi_none (plainText_colon h) fun c hc => by
          cases hc
          exact ⟨rfl, by decide, by decide⟩
      simp only [Term.endText, Option.elim, List.nil_append, hnone]
      exact ⟨rfl, trivial⟩
  | some m =>
      simp only [Term.endText, Option.elim, qpCtoi_decimal m (plainText_colon h) stops_colon]
      exact ⟨if_neg (length_digits_pos m), trivial⟩

theorem scanRange_value (m : Decimal) (h : Follows rest) :
    scanRange (m.text ++ rest) = (false, m.val, m.val, rest.dropWhile isWhite) := by
  rw [scanRange]
  simp only [qpCtoi_decimal m h.plain h.stops, if_neg (length_digits_pos m)]
  have hhead := h.head
  cases hrest : rest.dropWhile isWhite with
  | nil => rfl
  | cons c tail =>
      rw [hrest] at hhead
      rcases hhead c rfl with rfl | rfl <;> rfl

theorem scanRange_range (m n : Option Decimal) (h : Follows rest) :
    scanRange ((Term.range m n).text ++ rest) =
      (m.elim (-maxInt) Decimal.val != n.elim maxInt Decimal.val, m.elim (-maxInt) Decimal.val,
        n.elim maxInt Decimal.val, (Term.range m n).after rest) := by
  have hplain : PlainText (Term.endText n ++ rest) :=
    plainText_append.2 ⟨plainText_endText n, h.plain⟩
  obtain ⟨hstart, hip⟩ := scanStart m hplain
  obtain ⟨hend, hafter⟩ := scanEnd m n h
  have hcolon : (':' :: (Term.endText n ++ rest)).dropWhile isWhite =
      ':' :: (Term.endText n ++ rest) := rfl
  rw [scanRange, Term.text, List.append_assoc, List.cons_append]
  simp only [hstart, hip, hcolon, hend, hafter, if_true]

theorem Term.Finite.ends {m n : Option Decimal} (h : (Term.range m n).Finite) :
    m.elim (-maxInt) Decimal.val < maxInt ∧ -maxInt < n.elim maxInt Decimal.val := by
  constructor
  · cases m with
    | none => decide
    | some m => exact (h.1 m rfl).2
  · cases n with
    | none => decide
    | some n => exact (h.2 n rfl).1

theorem scanTerm_text (t : Term) (hfin : t.Finite) (h : Follows rest) :
    scanTerm (t.text ++ rest) = .ok (t.points, t.after rest) := by
  cases t with
  | value m =>
      obtain ⟨hlo, hhi⟩ := hfin
      rw [scanTerm, Term.text, scanRange_value m h]
      simp only [Bool.not_false, if_true]
      rw [if_neg (by omega), Term.points, Term.upper, Term.lower, if_neg (by omega)]
      rfl
  | range m n =>
      obtain ⟨hm, hn⟩ := hfin.ends
      rw [scanTerm, scanRange_range m n h, Term.points, Term.lower, Term.upper]
      generalize m.elim (-maxInt) Decimal.val = xstart at hm ⊢
      generalize n.elim maxInt Decimal.val = xend at hn ⊢
      by_cases heq : xstart = xend
      · -- `M:M` is a single point
        subst heq
        simp only [bne_self_eq_false, Bool.not_false, if_true, min_self, max_self]
        rw [if_neg (by omega), if_neg (by omega)]
      · have hrange : (!(xstart != xend)) = false := by simpa using heq
        simp only [hrange, Bool.false_eq_true, if_false]
        rcases lt_or_gt_of_ne heq with hlt | hgt
        · simp only [if_neg (not_lt.2 hlt.le), min_eq_left hlt.le, max_eq_right hlt.le]
        · simp only [if_pos hgt, min_eq_right hgt.le, max_eq_left hgt.le]

/-! ## Expressions -/

mutual

def Operand.text : Operand → List Char
  | .term t => t.text
  | .group l => '(' :: (l.text ++ [')'])

def Exprs.text : Exprs → List Char
  | .last nots o => List.replicate nots '!' ++ o.text
  | .comma nots o l => List.replicate nots '!' ++ (o.text ++ ',' :: l.text)

end

mutual

/-- The terms, each with the number of negations around it; `n` are around the whole. -/
def Operand.leaves (n : Nat) : Operand → List (Nat × Term)
  | .term t => [(n, t)]
  | .group l => l.leaves n

def Exprs.leaves (n : Nat) : Exprs → List (Nat × Term)
  | .last nots o => o.leaves (n + nots)
  | .comma nots o l => o.leaves (n + nots) ++ l.leaves n

end

mutual

/-- The depth of the parser stack. -/
def Operand.nest : Operand → Nat
  | .term _ => 0
  | .group l => l.nest + 1

def Exprs.nest : Exprs → Nat
  | .last nots o => o.nest + nots
  | .comma nots o l => max (o.nest + nots) l.nest

end

mutual

def Operand.Finite : Operand → Prop
  | .term t => t.Finite
  | .group l => l.Finite

def Exprs.Finite : Exprs → Prop
  | .last _ o => o.Finite
  | .comma _ o l => o.Finite ∧ l.Finite

end

mutual

/-- No operand has more `!` in front of it than are popped: one after the operand and one more
at a comma.  The last operand may have `n`. -/
def Operand.Popped : Operand → Prop
  | .term _ => True
  | .group l => l.Popped 1

def Exprs.Popped (n : Nat) : Exprs → Prop
  | .last nots o => nots ≤ n ∧ o.Popped
  | .comma nots o l => nots ≤ 2 ∧ o.Popped ∧ l.Popped n

end

def Operand.after (rest : List Char) : Operand → List Char
  | .term t => t.after rest
  | .group _ => rest

def Exprs.after (rest : List Char) : Exprs → List Char
  | .last _ o => o.after rest
  | .comma _ _ l => l.after rest

/-- Blanks after the expression are not skipped with its last number. -/
def Operand.KeepsBlanks : Operand → Prop
  | .term (.range _ (some _)) => True
  | .term _ => False
  | .group _ => True

def Exprs.KeepsBlanks : Exprs → Prop
  | .last _ o => o.KeepsBlanks
  | .comma _ _ l => l.KeepsBlanks

/-- The breakpoints of a term under negations. -/
def leafPoints (p : Nat × Term) : List Breakpoint := p.2.points.map Breakpoint.invert^[p.1]

def Operand.points (n : Nat) (o : Operand) : List Breakpoint := (o.leaves n).flatMap leafPoints

def Exprs.points (n : Nat) (l : Exprs) : List Breakpoint := (l.leaves n).flatMap leafPoints

/-- The values that an expression is documented to denote; the full line is added when the
first term is negated. -/
def Exprs.Denotes (l : Exprs) (x : Int) : Prop :=
  ((∃ p ∈ l.leaves 0, Even p.1 ∧ p.2.Mem x) ∨ ∃ p ∈ (l.leaves 0).head?, Odd p.1) ∧
    ∀ p ∈ l.leaves 0, Odd p.1 → ¬ p.2.Mem x

mutual

theorem Operand.leaves_succ (n : Nat) (o : Operand) :
    o.leaves (n + 1) = (o.leaves n).map fun p => (p.1 + 1, p.2) := by
  cases o with
  | term t => rfl
  | group l =>
      rw [Operand.leaves, Operand.leaves]
      exact l.leaves_succ n

theorem Exprs.leaves_succ (n : Nat) (l : Exprs) :
    l.leaves (n + 1) = (l.leaves n).map fun p => (p.1 + 1, p.2) := by
  cases l with
  | last nots o =>
      rw [Exprs.leaves, Exprs.leaves, Nat.add_right_comm]
      exact o.leaves_succ (n + nots)
  | comma nots o l =>
      rw [Exprs.leaves, Exprs.leaves, Nat.add_right_comm, List.map_append,
        o.leaves_succ (n + nots), l.leaves_succ n]

end

theorem leafPoints_succ (ps : List (Nat × Term)) :
    (ps.map fun p => (p.1 + 1, p.2)).flatMap leafPoints =
      (ps.flatMap leafPoints).map Breakpoint.invert := by
  induction ps with
  | nil => rfl
  | cons p ps ih =>
      rw [List.map_cons, List.flatMap_cons, List.flatMap_cons, List.map_append, ih]
      congr 1
      rw [leafPoints, leafPoints, List.map_map, ← Function.iterate_succ']

theorem Operand.points_succ (n : Nat) (o : Operand) :
    o.points (n + 1) = (o.points n).map Breakpoint.invert := by
  rw [points, points, o.leaves_succ, leafPoints_succ]

end Iraf.Qpoe
