import Iraf.Qpoe.AttrExpr

/-!
# Attribute expressions as sets of values

The parser enters the breakpoints of an expression in the order of its terms, each inverted
once for every `!` around it that is popped.  The ranges that are made of them hold the
values that the expression denotes.
-/

namespace Iraf.Qpoe

open Iraf.Fmtio Iraf.Fmtio.LongText Iraf.StepMachine

/-! ## Tokens -/

variable {rest str : List Char} {stack : List (Char × Nat)} {list term : List Breakpoint}

/-- The top of the stack is no `!`. -/
def Level (stack : List (Char × Nat)) : Prop := ∀ e ∈ stack.head?, e.1 = '('

theorem pop_level (h : Level stack) : (⟨rest, stack, list⟩ : Parser).pop = ⟨rest, stack, list⟩ := by
  cases stack with
  | nil => rfl
  | cons e stack =>
      obtain ⟨token, n⟩ := e
      obtain rfl : token = '(' := h _ rfl
      rfl

theorem pop_not : (⟨rest, ('!', list.length) :: stack, list ++ term⟩ : Parser).pop =
    ⟨rest, stack, list ++ term.map Breakpoint.invert⟩ := by
  simp only [Parser.pop, List.take_left, List.drop_left]

theorem parseStep_not (h : stack.length < maxNest) :
    parseStep ⟨'!' :: rest, stack, list⟩ =
      .ok (.inl ⟨rest, ('!', list.length) :: stack, list⟩) := by
  have hpush : ¬ stack.length + 1 > maxNest := by omega
  rw [parseStep]
  change (Parser.push _ '!' rest).map _ = _
  rw [Parser.push, if_neg hpush]
  rfl

theorem parseStep_open (h : stack.length < maxNest) :
    parseStep ⟨'(' :: rest, stack, list⟩ =
      .ok (.inl ⟨rest, ('(', list.length) :: stack, list⟩) := by
  have hpush : ¬ stack.length + 1 > maxNest := by omega
  rw [parseStep]
  change (Parser.push _ '(' rest).map _ = _
  rw [Parser.push, if_neg hpush]
  rfl

theorem parseStep_close {n : Nat} :
    parseStep ⟨')' :: rest, ('(', n) :: stack, list⟩ =
      .ok (.inl (⟨rest, stack, list⟩ : Parser).pop) := rfl

theorem parseStep_comma :
    parseStep ⟨',' :: rest, stack, list⟩ = .ok (.inl (⟨rest, stack, list⟩ : Parser).pop) := rfl

/-- A char with which a range term begins. -/
def Starts (c : Char) : Prop := c = ':' ∨ c = '-' ∨ c = '+' ∨ c.isDigit = true

theorem parseStep_term {c : Char} (hc : Starts c)
    (h : scanTerm (c :: str) = .ok (term, rest)) :
    parseStep ⟨c :: str, stack, list⟩ =
      .ok (.inl (⟨rest, stack, list ++ term⟩ : Parser).pop) := by
  have hne : c ≠ ' ' ∧ c ≠ '\t' ∧ c ≠ newline ∧ c ≠ ',' ∧ c ≠ '!' ∧ c ≠ '(' ∧ c ≠ ')' := by
    rcases hc with rfl | rfl | rfl | hdigit
    · decide
    · decide
    · decide
    · refine ⟨?_, ?_, ?_, ?_, ?_, ?_, ?_⟩ <;> rintro rfl <;> exact absurd hdigit (by decide)
  obtain ⟨hblank, htab, hnewline, hcomma, hbang, hleft, hright⟩ := hne
  have hwhite : (isWhite c || c == newline) = false := by simp [isWhite, *]
  rw [parseStep]
  simp only [List.dropWhile_cons, hwhite, Bool.false_eq_true, if_false]
  split
  · rename_i heq
    cases heq
  · rename_i heq
    exact absurd (List.cons.inj heq).1 hcomma
  · rename_i heq
    exact absurd (List.cons.inj heq).1 hbang
  · rename_i heq
    exact absurd (List.cons.inj heq).1 hleft
  · rename_i heq
    exact absurd (List.cons.inj heq).1 hright
  · rw [h]
    rfl

theorem starts_decimal (m : Decimal) : ∃ c tail, m.text = c :: tail ∧ Starts c := by
  obtain ⟨signed, digits, hne, hlt⟩ := m
  cases signed with
  | some neg =>
      cases neg with
      | true => exact ⟨_, _, rfl, .inr (.inl rfl)⟩
      | false => exact ⟨_, _, rfl, .inr (.inr (.inl rfl))⟩
  | none =>
      cases digits with
      | nil => exact absurd rfl hne
      | cons d ds =>
          exact ⟨_, _, rfl, .inr (.inr (.inr (digitChar_eq (hlt d List.mem_cons_self)).1))⟩

theorem starts_term (t : Term) : ∃ c tail, t.text = c :: tail ∧ Starts c := by
  cases t with
  | value m => exact starts_decimal m
  | range m n =>
      cases m with
      | none => exact ⟨_, _, rfl, .inl rfl⟩
      | some m =>
          obtain ⟨c, tail, htext, hc⟩ := starts_decimal m
          exact ⟨c, tail ++ ':' :: Term.endText n, by simp [Term.text, Term.endText, htext], hc⟩

theorem Term.reaches (t : Term) (hfin : t.Finite) (hrest : Follows rest) :
    Reaches parseStep ⟨t.text ++ rest, stack, list⟩
      (⟨t.after rest, stack, list ++ t.points⟩ : Parser).pop := by
  obtain ⟨c, tail, htext, hc⟩ := starts_term t
  have hscan := scanTerm_text t hfin hrest
  rw [htext, List.cons_append] at hscan ⊢
  exact .one (parseStep_term hc hscan)

/-! ## Negations -/

theorem nots_reaches (nots : Nat) (h : stack.length + nots ≤ maxNest) :
    Reaches parseStep ⟨List.replicate nots '!' ++ str, stack, list⟩
      ⟨str, List.replicate nots ('!', list.length) ++ stack, list⟩ := by
  induction nots generalizing stack with
  | zero => exact .refl _
  | succ nots ih =>
      rw [List.replicate_succ, List.cons_append]
      refine .next (parseStep_not (by omega)) ?_
      have hreach := @ih (('!', list.length) :: stack) (by rw [List.length_cons]; omega)
      rwa [List.append_cons, ← List.replicate_succ'] at hreach

theorem pop_ip (rest : List Char) (p : Parser) :
    ({ p with ip := rest } : Parser).pop = { p.pop with ip := rest } := by
  obtain ⟨ip, stack, list⟩ := p
  rw [Parser.pop, Parser.pop]
  dsimp only
  split <;> rfl

/-- The parser has entered breakpoints and has at most one more `!` to pop. -/
structure Entered (q : Parser) (rest : List Char) (stack : List (Char × Nat))
    (list : List Breakpoint) : Prop where
  ip : q.ip = rest
  pop : q.pop = ⟨rest, stack, list⟩

theorem Entered.comma {q : Parser} (h : Entered q (',' :: str) stack list) :
    parseStep q = .ok (.inl ⟨str, stack, list⟩) := by
  obtain ⟨ip, qstack, qlist⟩ := q
  obtain ⟨rfl, hpop⟩ := h
  have hip := pop_ip str ⟨',' :: str, qstack, qlist⟩
  rw [hpop] at hip
  rw [parseStep_comma, hip]

variable (rest list) in
theorem entered_pop {nots : Nat} (hnots : nots ≤ 2) (hstack : Level stack) (o : Operand) :
    Entered (⟨rest, List.replicate nots ('!', list.length) ++ stack, list ++ o.points 0⟩ :
        Parser).pop rest stack (list ++ o.points nots) ∧
      (nots ≤ 1 → (⟨rest, List.replicate nots ('!', list.length) ++ stack,
        list ++ o.points 0⟩ : Parser).pop = ⟨rest, stack, list ++ o.points nots⟩) := by
  match nots with
  | 0 =>
      rw [List.replicate_zero, List.nil_append, pop_level hstack]
      exact ⟨⟨rfl, pop_level hstack⟩, fun _ => rfl⟩
  | 1 =>
      rw [List.replicate_one, List.singleton_append, pop_not, ← o.points_succ]
      exact ⟨⟨rfl, pop_level hstack⟩, fun _ => rfl⟩
  | 2 =>
      rw [List.replicate_succ, List.cons_append, pop_not, ← o.points_succ,
        List.replicate_one, List.singleton_append]
      refine ⟨⟨rfl, ?_⟩, by omega⟩
      rw [pop_not, ← o.points_succ]

theorem follows_comma (h : PlainText rest) : Follows (',' :: rest) :=
  ⟨plainText_cons.2 ⟨by decide, h⟩, by rintro c hc; cases hc; exact .inl rfl⟩

theorem follows_close (h : PlainText rest) : Follows (')' :: rest) :=
  ⟨plainText_cons.2 ⟨by decide, h⟩, by rintro c hc; cases hc; exact .inr rfl⟩

theorem plainText_term (t : Term) : PlainText t.text := by
  cases t with
  | value m => exact plainText_decimal m
  | range m n =>
      exact plainText_append.2 ⟨plainText_endText m, plainText_colon (plainText_endText n)⟩

theorem plainText_nots (nots : Nat) : PlainText (List.replicate nots '!') := by
  intro c hc
  rw [List.eq_of_mem_replicate hc]
  decide

mutual

theorem plainText_operand (o : Operand) : PlainText o.text := by
  cases o with
  | term t => exact plainText_term t
  | group l =>
      rw [Operand.text, plainText_cons, plainText_append]
      exact ⟨by decide, plainText_exprs l, plainText_cons.2 ⟨by decide, by simp [PlainText]⟩⟩

theorem plainText_exprs (l : Exprs) : PlainText l.text := by
  cases l with
  | last nots o =>
      rw [Exprs.text, plainText_append]
      exact ⟨plainText_nots nots, plainText_operand o⟩
  | comma nots o l =>
      rw [Exprs.text, plainText_append, plainText_append, plainText_cons]
      exact ⟨plainText_nots nots, plainText_operand o, by decide, plainText_exprs l⟩

end

theorem Operand.after_comma (o : Operand) : o.after (',' :: rest) = ',' :: rest := by
  match o with
  | .term (.value _) => rfl
  | .term (.range _ none) => rfl
  | .term (.range _ (some _)) => rfl
  | .group _ => rfl

theorem Operand.after_close (o : Operand) : o.after (')' :: rest) = ')' :: rest := by
  match o with
  | .term (.value _) => rfl
  | .term (.range _ none) => rfl
  | .term (.range _ (some _)) => rfl
  | .group _ => rfl

theorem Exprs.after_close (l : Exprs) : l.after (')' :: rest) = ')' :: rest := by
  match l with
  | .last _ o => exact o.after_close
  | .comma _ _ l => exact l.after_close

/-! ## Runs of the parser -/

mutual

theorem Operand.reaches (o : Operand) (rest : List Char) (stack : List (Char × Nat))
    (list : List Breakpoint) (hfin : o.Finite) (hpop : o.Popped)
    (hnest : stack.length + o.nest ≤ maxNest) (hrest : Follows rest) :
    Reaches parseStep ⟨o.text ++ rest, stack, list⟩
      (⟨o.after rest, stack, list ++ o.points 0⟩ : Parser).pop := by
  cases o with
  | term t =>
      have hpoints : (Operand.term t).points 0 = t.points := by
        simp [Operand.points, Operand.leaves, leafPoints]
      rw [hpoints]
      exact t.reaches hfin hrest
  | group l =>
      rw [Operand.nest] at hnest
      have htext : (Operand.group l).text ++ rest = '(' :: (l.text ++ ')' :: rest) := by
        simp [Operand.text]
      have hlevel : Level (('(', list.length) :: stack) := by
        rintro e ⟨⟩
        rfl
      obtain ⟨q, hreach, -, hq⟩ := l.reaches 1 (')' :: rest) (('(', list.length) :: stack) list
        hfin hpop (by rw [List.length_cons]; omega) hlevel (follows_close hrest.plain) (by omega)
      rw [hq le_rfl, l.after_close] at hreach
      rw [htext]
      exact .next (parseStep_open (by omega)) (hreach.trans (.one parseStep_close))

theorem Exprs.reaches (l : Exprs) (n : Nat) (rest : List Char) (stack : List (Char × Nat))
    (list : List Breakpoint) (hfin : l.Finite) (hpop : l.Popped n)
    (hnest : stack.length + l.nest ≤ maxNest) (hstack : Level stack) (hrest : Follows rest)
    (hn : n ≤ 2) :
    ∃ q, Reaches parseStep ⟨l.text ++ rest, stack, list⟩ q ∧
      Entered q (l.after rest) stack (list ++ l.points 0) ∧
      (n ≤ 1 → q = ⟨l.after rest, stack, list ++ l.points 0⟩) := by
  cases l with
  | last nots o =>
      obtain ⟨hnots, hopop⟩ := hpop
      rw [Exprs.nest] at hnest
      have hpoints : (Exprs.last nots o).points 0 = o.points nots := by
        rw [Exprs.points, Exprs.leaves, zero_add, Operand.points]
      have hreach := (nots_reaches nots (by omega)).trans
        (o.reaches rest (List.replicate nots ('!', list.length) ++ stack) list
          hfin hopop (by rw [List.length_append, List.length_replicate]; omega) hrest)
      obtain ⟨hentered, hone⟩ := entered_pop (o.after rest) list (hnots.trans hn) hstack o
      rw [hpoints, Exprs.text, List.append_assoc]
      exact ⟨_, hreach, hentered, fun h => hone (hnots.trans h)⟩
  | comma nots o l =>
      obtain ⟨hnots, hopop, hlpop⟩ := hpop
      obtain ⟨hofin, hlfin⟩ := hfin
      rw [Exprs.nest] at hnest
      have hpoints : (Exprs.comma nots o l).points 0 = o.points nots ++ l.points 0 := by
        rw [Exprs.points, Exprs.leaves, zero_add, List.flatMap_append, Operand.points,
          Exprs.points]
      have hcomma : Follows (',' :: (l.text ++ rest)) :=
        follows_comma (plainText_append.2 ⟨plainText_exprs l, hrest.plain⟩)
      have hfirst := (nots_reaches nots (by omega)).trans
        (o.reaches _ (List.replicate nots ('!', list.length) ++ stack) list
          hofin hopop (by rw [List.length_append, List.length_replicate]; omega) hcomma)
      obtain ⟨hentered, -⟩ :=
        entered_pop (o.after (',' :: (l.text ++ rest))) list hnots hstack o
      rw [o.after_comma] at hfirst hentered
      obtain ⟨q, hreach, hq, hone⟩ := l.reaches n rest stack (list ++ o.points nots) hlfin hlpop
        (by omega) hstack hrest hn
      rw [hpoints, ← List.append_assoc]
      refine ⟨q, ?_, hq, hone⟩
      rw [Exprs.text, List.append_assoc, List.append_assoc, List.cons_append]
      exact hfirst.trans (.next hentered.comma hreach)

end

/-! ## The parser ends -/

theorem length_qpCtoi_le (str : List Char) : (qpCtoi str).2.2.length ≤ str.length := by
  rw [qpCtoi, List.length_drop]
  exact Nat.sub_le _ _

theorem length_qpCtoi_lt (h : 0 < (qpCtoi str).1) (hne : str ≠ []) :
    (qpCtoi str).2.2.length < str.length := by
  have hpos := List.length_pos_iff.2 hne
  rw [qpCtoi] at h ⊢
  have hused := used_pos h
  rw [List.length_drop]
  omega

theorem length_dropWhile_le (p : Char → Bool) (str : List Char) :
    (str.dropWhile p).length ≤ str.length :=
  (List.dropWhile_suffix p).length_le

/-- A range term takes some of the text, or nothing recognizable was scanned. -/
theorem scanRange_length (hne : str ≠ []) :
    ((scanRange str).1 = false ∧ (scanRange str).2.1 = -maxInt) ∨
      (scanRange str).2.2.2.length < str.length := by
  rw [scanRange]
  generalize hfirst : qpCtoi str = first
  obtain ⟨nchars, val, ip⟩ := first
  have hle : ip.length ≤ str.length := by
    have := length_qpCtoi_le str
    rwa [hfirst] at this
  have hlt : 0 < nchars → ip.length < str.length := by
    have := @length_qpCtoi_lt str
    rw [hfirst] at this
    exact fun h => this h hne
  have hwhite := length_dropWhile_le isWhite ip
  dsimp only
  generalize ip.dropWhile isWhite = ip' at hwhite ⊢
  split
  · rename_i after
    rw [List.length_cons] at hwhite
    have := length_qpCtoi_le after
    refine .inr ?_
    change (qpCtoi after).2.2.length < str.length
    omega
  · rename_i after
    rw [List.length_cons] at hwhite
    by_cases hleft : (if nchars ≤ 0 then -maxInt else val) = -maxInt
    · rw [if_pos hleft]
      exact .inl ⟨rfl, hleft⟩
    · have := length_qpCtoi_le after
      rw [if_neg hleft]
      refine .inr ?_
      change (qpCtoi after).2.2.length < str.length
      omega
  · by_cases hn : nchars ≤ 0
    · simp only [if_pos hn]
      exact .inl ⟨rfl, rfl⟩
    · have := hlt (not_le.1 hn)
      refine .inr ?_
      change ip'.length < str.length
      omega

theorem scanTerm_length (hne : str ≠ []) (h : scanTerm str = .ok (term, rest)) :
    rest.length < str.length := by
  have hlen := scanRange_length hne
  rw [scanTerm] at h
  generalize scanRange str = r at h hlen
  obtain ⟨range, xstart, xend, ip⟩ := r
  dsimp only at h hlen
  split at h
  · split at h
    · cases h
    · rename_i hrange hleft
      cases h
      rcases hlen with ⟨-, hstart⟩ | hlt
      · exact absurd hstart hleft
      · exact hlt
  · rename_i hrange
    cases h
    rcases hlen with ⟨hfalse, -⟩ | hlt
    · simp [hfalse] at hrange
    · exact hlt

theorem pop_length (p : Parser) : p.pop.ip = p.ip := by
  rw [Parser.pop]
  split <;> rfl

theorem parseStep_length {p q : Parser} (h : parseStep p = .ok (.inl q)) :
    q.ip.length < p.ip.length := by
  obtain ⟨ip, stack, list⟩ := p
  rw [parseStep] at h
  dsimp only at h
  split at h
  · cases h
  · rename_i c str
    have hwhite := length_dropWhile_le (fun c => isWhite c || c == newline) (c :: str)
    generalize (c :: str).dropWhile (fun c => isWhite c || c == newline) = ip' at h hwhite
    split at h
    · split at h
      · cases h
        rw [pop_length]
        exact Nat.succ_pos _
      · cases h
    · cases h
      rw [pop_length]
      exact hwhite
    · rw [Parser.push] at h
      split at h
      · cases h
      · cases h
        exact hwhite
    · rw [Parser.push] at h
      split at h
      · cases h
      · cases h
        exact hwhite
    · split at h
      · cases h
      · split at h
        · cases h
          rw [pop_length]
          exact hwhite
        · cases h
    · rename_i hne _ _ _ _
      cases hscan : scanTerm ip' with
      | error fault =>
          rw [hscan] at h
          cases h
      | ok found =>
          rw [hscan] at h
          cases h
          rw [pop_length]
          exact (scanTerm_length hne hscan).trans_le hwhite

theorem run_parseStep (p : Parser) (fuel : Nat) (h : p.ip.length < fuel) :
    ∃ r, run parseStep fuel p = some r := by
  induction fuel generalizing p with
  | zero => omega
  | succ fuel ih =>
      rw [run]
      cases hstep : parseStep p with
      | error fault => exact ⟨_, rfl⟩
      | ok next =>
          cases next with
          | inr list => exact ⟨_, rfl⟩
          | inl q =>
              have := parseStep_length hstep
              exact ih q (by omega)

theorem qpexParsei_eq {expr : List Char} (h : Ends parseStep ⟨expr, [], []⟩ (.ok list)) :
    qpexParsei expr = .ok (rangesOf list) := by
  obtain ⟨r, hrun⟩ := run_parseStep ⟨expr, [], []⟩ (expr.length + 1) (Nat.lt_succ_self _)
  obtain rfl : r = .ok list := Ends.unique ⟨_, hrun⟩ h
  rw [qpexParsei, hrun]
  rfl

theorem dropWhile_blanks (p : Char → Bool) (hp : p ' ' = true) (blanks : Nat) :
    (List.replicate blanks ' ').dropWhile p = [] := by
  rw [List.dropWhile_eq_nil_iff]
  intro c hc
  rwa [List.eq_of_mem_replicate hc]

theorem follows_blanks (blanks : Nat) : Follows (List.replicate blanks ' ') where
  plain c hc := by
    rw [List.eq_of_mem_replicate hc]
    decide
  head c hc := by
    rw [dropWhile_blanks isWhite rfl] at hc
    cases hc

theorem Operand.after_blanks (o : Operand) (blanks : Nat) :
    ∃ k, o.after (List.replicate blanks ' ') = List.replicate k ' ' := by
  match o with
  | .term (.value _) => exact ⟨0, dropWhile_blanks isWhite rfl blanks⟩
  | .term (.range _ none) => exact ⟨0, dropWhile_blanks isWhite rfl blanks⟩
  | .term (.range _ (some _)) => exact ⟨blanks, rfl⟩
  | .group _ => exact ⟨blanks, rfl⟩

theorem Exprs.after_blanks (l : Exprs) (blanks : Nat) :
    ∃ k, l.after (List.replicate blanks ' ') = List.replicate k ' ' := by
  match l with
  | .last _ o => exact o.after_blanks blanks
  | .comma _ _ l => exact l.after_blanks blanks

theorem Operand.KeepsBlanks.after {o : Operand} (h : o.KeepsBlanks) : o.after rest = rest := by
  match o, h with
  | .term (.range _ (some _)), _ => rfl
  | .group _, _ => rfl

theorem Exprs.KeepsBlanks.after {l : Exprs} (h : l.KeepsBlanks) : l.after rest = rest := by
  match l, h with
  | .last _ _, h => exact Operand.KeepsBlanks.after h
  | .comma _ _ l, h => exact Exprs.KeepsBlanks.after (l := l) h

theorem ends_blanks (k : Nat) :
    Ends parseStep ⟨List.replicate k ' ', stack, list⟩
      (.ok (if 0 < k ∧ 0 < stack.length then
        (⟨[], stack, list⟩ : Parser).pop.list else list)) := by
  cases k with
  | zero =>
      rw [if_neg (by omega)]
      exact ends_result rfl
  | succ k =>
      have hwhite := dropWhile_blanks (fun c => isWhite c || c == newline) rfl (k + 1)
      by_cases hstack : stack.length > 0
      · rw [if_pos ⟨Nat.succ_pos k, hstack⟩]
        have hstep : parseStep ⟨List.replicate (k + 1) ' ', stack, list⟩ =
            .ok (.inl (⟨[], stack, list⟩ : Parser).pop) := by
          rw [parseStep]
          simp only [hwhite, if_pos hstack]
          rfl
        refine (ends_next hstep).2 (ends_result ?_)
        have hip := pop_length ⟨[], stack, list⟩
        rw [parseStep]
        simp only [hip]
      · rw [if_neg (by omega)]
        refine ends_result ?_
        rw [parseStep]
        simp only [hwhite, if_neg hstack]
        rfl

/-- No `!` stays on the stack: at the end of the string a second one is popped only when
blanks are left. -/
def Exprs.Balanced (l : Exprs) (blanks : Nat) : Prop :=
  l.Popped 1 ∨ l.Popped 2 ∧ 0 < blanks ∧ l.KeepsBlanks

theorem Exprs.Balanced.ends {l : Exprs} {blanks : Nat} (h : l.Balanced blanks)
    (hfin : l.Finite) (hnest : l.nest ≤ maxNest) :
    Ends parseStep ⟨l.text ++ List.replicate blanks ' ', [], []⟩ (.ok (l.points 0)) := by
  have hlevel : Level [] := by rintro e ⟨⟩
  have hnest' : ([] : List (Char × Nat)).length + l.nest ≤ maxNest := by
    rw [List.length_nil]
    omega
  rcases h with hpop | ⟨hpop, hblanks, hkeeps⟩
  · obtain ⟨q, hreach, -, hq⟩ := l.reaches 1 (List.replicate blanks ' ') [] [] hfin hpop hnest'
      hlevel (follows_blanks blanks) (by omega)
    obtain ⟨k, hafter⟩ := l.after_blanks blanks
    have hends := @ends_blanks [] (l.points 0) k
    rw [if_neg fun h => absurd h.2 (Nat.lt_irrefl 0)] at hends
    rwa [hreach.ends_iff, hq le_rfl, hafter, List.nil_append]
  · obtain ⟨q, hreach, hq, -⟩ := l.reaches 2 (List.replicate blanks ' ') [] [] hfin hpop hnest'
      hlevel (follows_blanks blanks) le_rfl
    rw [hkeeps.after, List.nil_append] at hq
    rw [hreach.ends_iff]
    obtain ⟨ip, stack, list⟩ := q
    obtain ⟨rfl, hqpop⟩ := hq
    have hends := @ends_blanks stack list blanks
    have hpoints : (if 0 < blanks ∧ 0 < stack.length then
        (⟨[], stack, list⟩ : Parser).pop.list else list) = l.points 0 := by
      cases stack with
      | nil =>
          have : list = l.points 0 := congrArg Parser.list hqpop
          simpa using this
      | cons e stack =>
          have hip := pop_ip [] ⟨List.replicate blanks ' ', e :: stack, list⟩
          rw [hqpop] at hip
          rw [if_pos ⟨hblanks, Nat.succ_pos _⟩, hip]
    rwa [hpoints] at hends

/-! ## Levels -/

/-- The breakpoints of a range of excluded values. -/
def excluded (xstart xend : Int) : List Breakpoint := [⟨xstart, 0, -zero⟩, ⟨xend, 1, zero⟩]

theorem map_invert_breakpoints (a b : Int) :
    (breakpoints a b).map Breakpoint.invert = excluded a b := rfl

theorem map_invert_excluded (a b : Int) :
    (excluded a b).map Breakpoint.invert = breakpoints a b := rfl

theorem map_invert_iterate (n : Nat) (a b : Int) :
    (breakpoints a b).map Breakpoint.invert^[n] =
      if Even n then breakpoints a b else excluded a b := by
  induction n with
  | zero => simp
  | succ n ih =>
      rw [Function.iterate_succ', ← List.map_map, ih]
      by_cases hn : Even n
      · rw [if_pos hn, if_neg (by rwa [Nat.even_add_one, not_not]), map_invert_breakpoints]
      · rw [if_neg hn, if_pos (by rwa [Nat.even_add_one]), map_invert_excluded]

/-- The end of the range that a term is entered as. -/
def Term.stop (t : Term) : Int := if t.upper = maxInt then t.upper else t.upper + 1

theorem leafPoints_eq (p : Nat × Term) :
    leafPoints p = if Even p.1 then breakpoints p.2.lower p.2.stop
      else excluded p.2.lower p.2.stop :=
  map_invert_iterate p.1 p.2.lower p.2.stop

instance (x : Int) (t : Term) : Decidable (t.Mem x) :=
  match t with
  | .value _ => inferInstanceAs (Decidable (_ = _))
  | .range none none => inferInstanceAs (Decidable True)
  | .range none (some _) => inferInstanceAs (Decidable (_ ≤ _))
  | .range (some _) none => inferInstanceAs (Decidable (_ ≤ _))
  | .range (some _) (some _) => inferInstanceAs (Decidable (_ ∧ _))

variable {x : Int}

theorem Term.Finite.bounds {t : Term} (h : t.Finite) :
    -maxInt ≤ t.lower ∧ t.lower < maxInt ∧ t.lower ≤ t.upper ∧ t.upper ≤ maxInt := by
  have hmax : (0 : Int) < maxInt := by decide
  match t, h with
  | .value m, ⟨hlo, hhi⟩ =>
      simp only [Term.lower, Term.upper]
      omega
  | .range none none, _ =>
      simp only [Term.lower, Term.upper, Option.elim]
      omega
  | .range none (some n), ⟨_, hn⟩ =>
      obtain ⟨hlo, hhi⟩ := hn n rfl
      simp only [Term.lower, Term.upper, Option.elim]
      omega
  | .range (some m) none, ⟨hm, _⟩ =>
      obtain ⟨hlo, hhi⟩ := hm m rfl
      simp only [Term.lower, Term.upper, Option.elim]
      omega
  | .range (some m) (some n), ⟨hm, hn⟩ =>
      obtain ⟨hlo, hhi⟩ := hm m rfl
      obtain ⟨hlo', hhi'⟩ := hn n rfl
      simp only [Term.lower, Term.upper, Option.elim]
      omega

theorem Term.Finite.mem_iff {t : Term} (h : t.Finite) (hx : -maxInt < x) (hxmax : x < maxInt) :
    t.Mem x ↔ t.lower ≤ x ∧ x ≤ t.upper := by
  match t, h with
  | .value m, _ =>
      simp only [Term.lower, Term.upper, Term.Mem]
      omega
  | .range none none, _ =>
      simp only [Term.lower, Term.upper, Option.elim, Term.Mem, true_iff]
      omega
  | .range none (some n), ⟨_, hn⟩ =>
      obtain ⟨hlo, hhi⟩ := hn n rfl
      simp only [Term.lower, Term.upper, Option.elim, Term.Mem]
      omega
  | .range (some m) none, ⟨hm, _⟩ =>
      obtain ⟨hlo, hhi⟩ := hm m rfl
      simp only [Term.lower, Term.upper, Option.elim, Term.Mem]
      omega
  | .range (some m) (some n), _ => exact Iff.rfl

theorem Term.Finite.lt_stop {t : Term} (h : t.Finite) :
    t.lower < t.stop ∧ t.stop ≤ maxInt := by
  obtain ⟨-, hlt, hle, hmax⟩ := h.bounds
  rw [Term.stop]
  split <;> omega

theorem Term.lt_stop_iff (t : Term) (hxmax : x < maxInt) : x < t.stop ↔ x ≤ t.upper := by
  rw [Term.stop]
  split <;> omega

/-- The step of a term at `x`. -/
def weight (x : Int) (p : Nat × Term) : Int :=
  if p.2.Mem x then if Even p.1 then step else -zero else 0

theorem levelOf_breakpoints {a b : Int} (h : a ≤ b) :
    levelOf (breakpoints a b) x = if a ≤ x ∧ x < b then step else 0 :=
  StepFunction.level_pair h

theorem levelOf_excluded {a b : Int} (h : a ≤ b) :
    levelOf (excluded a b) x = if a ≤ x ∧ x < b then -zero else 0 :=
  StepFunction.level_pair (k := -zero) h

theorem levelOf_leafPoints {p : Nat × Term} (h : p.2.Finite) (hx : -maxInt < x)
    (hxmax : x < maxInt) : levelOf (leafPoints p) x = weight x p := by
  obtain ⟨hlt, -⟩ := h.lt_stop
  rw [leafPoints_eq, weight]
  by_cases hn : Even p.1
  · simp only [if_pos hn, levelOf_breakpoints hlt.le, h.mem_iff hx hxmax,
      Term.lt_stop_iff _ hxmax]
  · simp only [if_neg hn, levelOf_excluded hlt.le, h.mem_iff hx hxmax, Term.lt_stop_iff _ hxmax]

/-! ## The sum of the steps -/

def total (x : Int) (ps : List (Nat × Term)) : Int := (ps.map (weight x)).sum

theorem weight_le (p : Nat × Term) : weight x p ≤ 1 := by
  rw [weight, step, zero]
  split
  · split <;> decide
  · decide

theorem total_cons (p : Nat × Term) (ps : List (Nat × Term)) :
    total x (p :: ps) = weight x p + total x ps := by
  rw [total, List.map_cons, List.sum_cons, total]

theorem total_le (ps : List (Nat × Term)) : total x ps ≤ ps.length := by
  induction ps with
  | nil => exact le_rfl
  | cons p ps ih =>
      have := weight_le (x := x) p
      rw [total_cons, List.length_cons]
      push_cast
      omega

theorem total_excluded {ps : List (Nat × Term)} {p : Nat × Term} (hp : p ∈ ps)
    (hodd : Odd p.1) (hmem : p.2.Mem x) : total x ps + 1001 ≤ ps.length := by
  induction ps with
  | nil => cases hp
  | cons q ps ih =>
      rw [total_cons, List.length_cons]
      push_cast
      rcases List.mem_cons.1 hp with rfl | hp
      · have hweight : weight x p = -1000 := by
          rw [weight, if_pos hmem, if_neg (Nat.not_even_iff_odd.2 hodd)]
          rfl
        have := total_le (x := x) ps
        omega
      · have := ih hp
        have := weight_le (x := x) q
        omega

theorem total_included {ps : List (Nat × Term)} (h : ∀ p ∈ ps, Odd p.1 → ¬ p.2.Mem x) :
    0 ≤ total x ps ∧ (0 < total x ps ↔ ∃ p ∈ ps, Even p.1 ∧ p.2.Mem x) := by
  induction ps with
  | nil => simp [total]
  | cons p ps ih =>
      obtain ⟨hnonneg, hpos⟩ := ih fun q hq => h q (List.mem_cons_of_mem p hq)
      rw [total_cons]
      by_cases hmem : Even p.1 ∧ p.2.Mem x
      · have hweight : weight x p = 1 := by
          rw [weight, if_pos hmem.2, if_pos hmem.1]
          rfl
        refine ⟨by omega, iff_of_true (by omega) ⟨p, List.mem_cons_self, hmem⟩⟩
      · have hweight : weight x p = 0 := by
          rw [weight]
          split
          · rename_i hx
            rcases Nat.even_or_odd p.1 with heven | hodd
            · exact absurd ⟨heven, hx⟩ hmem
            · exact absurd hx (h p List.mem_cons_self hodd)
          · rfl
        rw [hweight, zero_add, List.exists_mem_cons_iff]
        refine ⟨hnonneg, hpos.trans ?_⟩
        simp [hmem]

theorem levelOf_append (bs cs : List Breakpoint) :
    levelOf (bs ++ cs) x = levelOf bs x + levelOf cs x := by
  rw [levelOf, List.map_append, StepFunction.level_append]
  rfl

theorem levelOf_points {ps : List (Nat × Term)} (h : ∀ p ∈ ps, p.2.Finite) (hx : -maxInt < x)
    (hxmax : x < maxInt) : levelOf (ps.flatMap leafPoints) x = total x ps := by
  induction ps with
  | nil => rfl
  | cons p ps ih =>
      rw [List.flatMap_cons, levelOf_append, total_cons,
        levelOf_leafPoints (h p List.mem_cons_self) hx hxmax,
        ih fun q hq => h q (List.mem_cons_of_mem p hq)]

mutual

theorem Operand.finite_leaves (o : Operand) (n : Nat) (h : o.Finite) :
    ∀ p ∈ o.leaves n, p.2.Finite := by
  cases o with
  | term t =>
      intro p hp
      rw [List.mem_singleton.1 hp]
      exact h
  | group l => exact l.finite_leaves n h

theorem Exprs.finite_leaves (l : Exprs) (n : Nat) (h : l.Finite) :
    ∀ p ∈ l.leaves n, p.2.Finite := by
  cases l with
  | last nots o => exact o.finite_leaves (n + nots) h
  | comma nots o l =>
      intro p hp
      rw [Exprs.leaves, List.mem_append] at hp
      rcases hp with hp | hp
      · exact o.finite_leaves (n + nots) h.1 p hp
      · exact l.finite_leaves n h.2 p hp

end

/-- What every list of breakpoints of terms has. -/
structure Entries (list : List Breakpoint) : Prop where
  ge : ∀ b ∈ list, -maxInt ≤ b.xv
  le : ∀ b ∈ list, b.xv ≤ maxInt
  sum : (list.map Breakpoint.sv).sum = 0

theorem Entries.append {bs cs : List Breakpoint} (hb : Entries bs) (hc : Entries cs) :
    Entries (bs ++ cs) where
  ge b h := (List.mem_append.1 h).elim (hb.ge b) (hc.ge b)
  le b h := (List.mem_append.1 h).elim (hb.le b) (hc.le b)
  sum := by rw [List.map_append, List.sum_append, hb.sum, hc.sum, add_zero]

theorem entries_pair {a b k : Int} (hab : a ≤ b) (ha : -maxInt ≤ a) (hb : b ≤ maxInt) :
    Entries [⟨a, 0, k⟩, ⟨b, 1, -k⟩] where
  ge c hc := by
    rcases List.mem_pair.1 hc with rfl | rfl
    · exact ha
    · exact ha.trans hab
  le c hc := by
    rcases List.mem_pair.1 hc with rfl | rfl
    · exact hab.trans hb
    · exact hb
  sum := by simp

theorem entries_points {ps : List (Nat × Term)} (h : ∀ p ∈ ps, p.2.Finite) :
    Entries (ps.flatMap leafPoints) := by
  induction ps with
  | nil => exact ⟨by simp, by simp, rfl⟩
  | cons p ps ih =>
      obtain ⟨hlo, -⟩ := (h p List.mem_cons_self).bounds
      obtain ⟨hlt, hle⟩ := (h p List.mem_cons_self).lt_stop
      refine Entries.append ?_ (ih fun q hq => h q (List.mem_cons_of_mem p hq))
      rw [leafPoints_eq]
      split
      · exact entries_pair hlt.le hlo hle
      · exact entries_pair (k := -zero) hlt.le hlo hle

/-! ## The ranges of an expression -/

/-- The first term is negated. -/
def NegatedFirst (ps : List (Nat × Term)) : Prop := ∃ p ∈ ps.head?, Odd p.1

theorem addFullLine_points (ps : List (Nat × Term)) :
    (NegatedFirst ps ∧ addFullLine (ps.flatMap leafPoints) =
        ps.flatMap leafPoints ++ breakpoints (-maxInt) maxInt) ∨
      ¬ NegatedFirst ps ∧ addFullLine (ps.flatMap leafPoints) = ps.flatMap leafPoints := by
  cases ps with
  | nil => exact .inr ⟨by simp [NegatedFirst], rfl⟩
  | cons p ps =>
      rw [List.flatMap_cons, leafPoints_eq]
      rcases Nat.even_or_odd p.1 with heven | hodd
      · refine .inr ⟨?_, ?_⟩
        · rintro ⟨q, hq, hodd⟩
          cases hq
          exact Nat.not_even_iff_odd.2 hodd heven
        · rw [if_pos heven]
          rfl
      · refine .inl ⟨⟨p, rfl, hodd⟩, ?_⟩
        rw [if_neg (Nat.not_even_iff_odd.2 hodd)]
        rfl

theorem entries_fullLine : Entries (breakpoints (-maxInt) maxInt) :=
  entries_pair (by decide) le_rfl le_rfl

theorem levelOf_fullLine (hx : -maxInt < x) (hxmax : x < maxInt) :
    levelOf (breakpoints (-maxInt) maxInt) x = 1 := by
  rw [levelOf_breakpoints (by decide), if_pos ⟨hx.le, hxmax⟩]
  rfl

theorem Exprs.level_pos_iff (l : Exprs) (hfin : l.Finite) (hterms : (l.leaves 0).length < 1000)
    (hx : -maxInt < x) (hxmax : x < maxInt) :
    0 < levelOf (addFullLine (l.points 0)) x ↔ l.Denotes x := by
  have hlevel := levelOf_points (l.finite_leaves 0 hfin) hx hxmax
  rw [Exprs.points, Exprs.Denotes]
  by_cases hexcl : ∀ p ∈ l.leaves 0, Odd p.1 → ¬ p.2.Mem x
  · obtain ⟨hnonneg, hpos⟩ := total_included hexcl
    rcases addFullLine_points (l.leaves 0) with ⟨hfirst, hadd⟩ | ⟨hfirst, hadd⟩
    · rw [hadd, levelOf_append, hlevel, levelOf_fullLine hx hxmax]
      exact iff_of_true (by omega) ⟨.inr hfirst, hexcl⟩
    · rw [hadd, hlevel, hpos]
      constructor
      · exact fun h => ⟨.inl h, hexcl⟩
      · rintro ⟨h | h, -⟩
        · exact h
        · exact absurd h hfirst
  · push Not at hexcl
    obtain ⟨p, hp, hodd, hmem⟩ := hexcl
    have hle := total_excluded hp hodd hmem
    refine iff_of_false ?_ fun h => h.2 p hp hodd hmem
    rcases addFullLine_points (l.leaves 0) with ⟨-, hadd⟩ | ⟨-, hadd⟩
    · rw [hadd, levelOf_append, hlevel, levelOf_fullLine hx hxmax]
      omega
    · rw [hadd, hlevel]
      omega

theorem Exprs.entries (l : Exprs) (hfin : l.Finite) : Entries (addFullLine (l.points 0)) := by
  have hentries := entries_points (l.finite_leaves 0 hfin)
  rcases addFullLine_points (l.leaves 0) with ⟨-, hadd⟩ | ⟨-, hadd⟩
  · rw [Exprs.points, hadd]
    exact hentries.append entries_fullLine
  · rw [Exprs.points, hadd]
    exact hentries

/-- The ranges that an expression is parsed into hold the values that it denotes. -/
theorem qpexParsei_denotes (l : Exprs) (blanks : Nat) (hfin : l.Finite)
    (hnest : l.nest ≤ maxNest) (hterms : (l.leaves 0).length < 1000)
    (hbalanced : l.Balanced blanks) :
    ∃ rl, qpexParsei (l.text ++ List.replicate blanks ' ') = .ok rl ∧ Separated rl ∧
      ∀ x, -maxInt < x → x < maxInt → (InRanges rl x ↔ l.Denotes x) := by
  have hentries := l.entries hfin
  obtain ⟨hseparated, hmem⟩ := collapse_sorted hentries.ge hentries.le hentries.sum
  refine ⟨_, qpexParsei_eq (hbalanced.ends hfin hnest), hseparated, fun x hx hxmax => ?_⟩
  exact (hmem x hx.le hxmax).trans (l.level_pos_iff hfin hterms hx hxmax)

/-! ### Examples -/

/-- A number of one digit. -/
def digit (d : Nat) (h : d < 10) : Decimal where
  signed := none
  digits := [d]
  nonempty := List.cons_ne_nil d []
  lt := by simpa using h

/-- `!!5,3:7` -/
def doubledThenRange : Exprs :=
  .comma 2 (.term (.value (digit 5 (by decide))))
    (.last 0 (.term (.range (some (digit 3 (by decide))) (some (digit 7 (by decide))))))

/-- `!!5` -/
def doubled : Exprs := .last 2 (.term (.value (digit 5 (by decide))))

theorem qpexParsei_denotes_doubledThenRange :
    ∃ rl, qpexParsei (doubledThenRange.text ++ List.replicate 2 ' ') = .ok rl ∧ Separated rl ∧
      ∀ x, -maxInt < x → x < maxInt → (InRanges rl x ↔ doubledThenRange.Denotes x) := by
  refine qpexParsei_denotes doubledThenRange 2 ?_ (by decide) (by decide) (.inl ?_)
  · refine ⟨by constructor <;> decide, ?_, ?_⟩
    · rintro v ⟨⟩
      constructor <;> decide
    · rintro v ⟨⟩
      constructor <;> decide
  · exact ⟨by decide, trivial, by decide, trivial⟩

theorem qpexParsei_doubled : qpexParsei ['!', '!', '5'] = .ok [(-maxInt, 4), (6, maxInt)] := by
  decide +kernel

/-- The second `!` in front of the last term is not popped. -/
theorem not_denotes_doubled :
    (doubled.text = ['!', '!', '5'] ∧ doubled.Finite ∧ doubled.nest ≤ maxNest ∧
      (doubled.leaves 0).length < 1000) ∧
    ¬ ∃ rl, qpexParsei doubled.text = .ok rl ∧ Separated rl ∧
      ∀ x, -maxInt < x → x < maxInt → (InRanges rl x ↔ doubled.Denotes x) := by
  refine ⟨⟨by decide, by constructor <;> decide, by decide, by decide⟩, ?_⟩
  rintro ⟨rl, hparse, -, hmem⟩
  have htext : doubled.text = ['!', '!', '5'] := by decide
  rw [htext, qpexParsei_doubled, Except.ok.injEq] at hparse
  subst hparse
  have hdenotes : doubled.Denotes 5 := by
    refine ⟨.inl ⟨_, List.mem_singleton_self _, by decide, by decide⟩, ?_⟩
    intro p hp hodd
    rw [List.mem_singleton.1 hp] at hodd
    exact absurd hodd (by decide)
  obtain ⟨r, hr, hlo, hhi⟩ := (hmem 5 (by decide) (by decide)).2 hdenotes
  rcases List.mem_pair.1 hr with rfl | rfl
  · exact absurd hhi (by decide)
  · exact absurd hlo (by decide)

end Iraf.Qpoe
