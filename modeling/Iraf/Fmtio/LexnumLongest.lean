import Mathlib.Data.Fintype.Option
import Iraf.Fmtio.Lexnum
import Iraf.Lib.LongestMatch

/-!
# The grammar of numbers

The numbers that `lexnum.hlp` describes, in terms of the classes of their chars, and the
automaton that recognises them.  It differs from the table of `lexnum` in three actions.

What `lexnum` finds is compared with the longest number of the grammar.  They are the same
but for the texts that lead into one of the three actions where the table departs from it.
-/

namespace Iraf.Fmtio

instance : Fintype LexType :=
  .ofList [.octal, .decimal, .hex, .real, .nonnum] fun t => by cases t <;> decide

instance : Fintype CharClass :=
  .ofList [.signchar, .octdig, .decdig, .hexdig, .realexp, .sexag, .fraction, .hexsuffix,
    .octsuffix, .other] fun cc => by cases cc <;> decide

instance : Fintype LexState :=
  .ofList [.start, .unm, .odh, .dhr, .qrf, .hex, .qhx, .qrn, .ohn, .rfr, .rrx, .qrx, .hrx, .rnm,
    .rex] fun state => by cases state <;> decide

namespace Lexnum

open LongestMatch RegularExpression

abbrev Pattern := RegularExpression CharClass

/-! ## The grammar -/

def sign : Pattern := char .signchar
def octal : Pattern := char .octdig
def digit : Pattern := octal + char .decdig
def hexDigit : Pattern :=
  char .octdig + (char .decdig + (char .hexdig + (char .realexp + char .octsuffix)))
def colon : Pattern := char .sexag

def exponent : Pattern := char .realexp * ((1 + sign) * (digit * digit.star))

def fractionPart : Pattern := char .fraction * (digit * digit.star)

/-- The number may go on like this. -/
def optional (P : Pattern) : Pattern := 1 + P

/-- A sexagesimal number behind its first digits. -/
def sexagesimal : Pattern :=
  colon * (colon.star * (digit * ((digit + colon).star * (optional fractionPart *
    optional exponent))))

def unsigned : LexType → Pattern
  | .octal => octal * (octal.star * char .octsuffix)
  | .decimal => digit * digit.star
  | .hex => digit * (hexDigit.star * char .hexsuffix)
  | .real =>
      digit * (digit.star * (char .fraction * (digit.star * optional exponent))) +
        (digit * (digit.star * exponent) + (fractionPart * optional exponent +
          digit.star * sexagesimal))
  | .nonnum => 0

def number (toktype : LexType) : Pattern := optional sign * unsigned toktype

/-! ## The automaton -/

/-- The action that keeps to the grammar. -/
def goodAction (cc : CharClass) (state : LexState) : LexAction :=
  match state, cc with
  | .unm, .sexag => qrn
  | .hrx, .octsuffix => hex
  | .rnm, .realexp => rrx
  | _, _ => action cc state

/-- The next state; nothing stands for the state behind the suffix of a hex number. -/
def next : Option LexState → CharClass → Option (Option LexState)
  | none, _ => none
  | some state, cc =>
      match goodAction cc state with
      | .accept => some (some state)
      | .shift state => some (some state)
      | .revert => none
      | .reduce toktype => if toktype = .hex ∧ cc = .hexsuffix then some none else none

def accepts : Option LexState → Option LexType
  | none => some .hex
  | some state =>
      match action .other state with
      | .reduce toktype => if toktype = .nonnum then none else some toktype
      | _ => none

/-- A number behind its first digits. -/
def afterDigits : LexType → Pattern
  | .octal => octal.star * char .octsuffix
  | .decimal => digit.star
  | .hex => hexDigit.star * char .hexsuffix
  | .real =>
      digit.star * (char .fraction * (digit.star * optional exponent)) +
        (digit.star * exponent + digit.star * sexagesimal)
  | .nonnum => 0

/-- What is missing to a number of the type in a state. -/
def lang : Option LexState → LexType → Pattern
  | none, .hex => 1
  | some .start, t => number t
  | some .unm, t => unsigned t
  | some .odh, t => afterDigits t
  | some .dhr, .octal => 0
  | some .dhr, t => afterDigits t
  | some .qrf, .real => digit * (digit.star * optional exponent)
  | some .hex, .hex => afterDigits .hex
  | some .qhx, .hex => afterDigits .hex
  | some .qhx, .real => optional sign * (digit * digit.star)
  | some .qrn, .real =>
      colon.star * (digit * ((digit + colon).star * (optional fractionPart * optional exponent)))
  | some .ohn, .octal => 1
  | some .ohn, .hex => afterDigits .hex
  | some .rfr, .real => digit.star * optional exponent
  | some .rrx, .real => optional sign * (digit * digit.star)
  | some .qrx, .real => digit * digit.star
  | some .hrx, .hex => afterDigits .hex
  | some .hrx, .real => digit.star
  | some .rnm, .real => (digit + colon).star * (optional fractionPart * optional exponent)
  | some .rex, .real => digit.star
  | _, _ => 0

theorem follows : Follows next accepts lang where
  nil q t := by
    rcases q with _ | state
    · cases t <;> decide
    · cases state <;> cases t <;> decide
  cons q a t := by
    rcases q with _ | state
    · cases a <;> cases t <;> rfl
    · cases state <;> cases a <;> cases t <;> rfl

end Lexnum

/-! ## The longest number -/

open LongestMatch

namespace Lexnum

open RegularExpression

/-! ## The table -/

/-- The actions that do not keep to the grammar. -/
def Bad (state : LexState) (cc : CharClass) : Prop :=
  state = .unm ∧ cc = .sexag ∨ state = .hrx ∧ cc = .octsuffix ∨ state = .rnm ∧ cc = .realexp

instance (state : LexState) (cc : CharClass) : Decidable (Bad state cc) :=
  inferInstanceAs (Decidable (_ ∨ _))

/-- A bound on the number of states that have been left. -/
def depth : LexState → Nat
  | .start => 0
  | .unm => 1
  | .odh => 2
  | .dhr => 3
  | .qhx => 4
  | .ohn => 4
  | .qrn => 4
  | .hrx => 5
  | .rnm => 5
  | .hex => 6
  | .qrf => 6
  | .rfr => 7
  | .rrx => 8
  | .qrx => 9
  | .rex => 10

/-- `E5B1X` behind the first digits of a number. -/
def hexFault : Pattern :=
  digit.star * (char .realexp * (digit * (digit.star * (char .octsuffix *
    (hexDigit.star * char .hexsuffix)))))

/-- `30E+5` behind the first colon of a number. -/
def expFault : Pattern :=
  colon.star * (digit * ((digit + colon).star * (char .realexp * (sign * digit))))

/-- What leads from a state to an action that does not keep to the grammar, and on to a
longer number. -/
def fault : LexState → Pattern
  | .start =>
      optional sign * (digit * hexFault + digit.star * (colon * expFault)) +
        sign * (colon * (colon.star * digit))
  | .unm =>
      digit * hexFault + (digit.star * (colon * expFault) + colon * (colon.star * digit))
  | .odh => hexFault + digit.star * (colon * expFault)
  | .dhr => hexFault + digit.star * (colon * expFault)
  | .qhx =>
      digit * (digit.star * (char .octsuffix * (hexDigit.star * char .hexsuffix)))
  | .hrx => digit.star * (char .octsuffix * (hexDigit.star * char .hexsuffix))
  | .qrn => expFault
  | .rnm => (digit + colon).star * (char .realexp * (sign * digit))
  | _ => 0

def faultBehind : Option LexState → Pattern
  | none => 0
  | some state => fault state

theorem fault_nil (state : LexState) : (fault state).matchEpsilon = false := by
  cases state <;> rfl

theorem fault_cons : ∀ state cc, ¬ Bad state cc →
    residual (fault state) cc = (next (some state) cc).elim 0 faultBehind := by
  intro state cc hbad
  cases state <;> cases cc <;> first | rfl | exact absurd (by decide) hbad

theorem goodAction_eq : ∀ state cc, ¬ Bad state cc → goodAction cc state = action cc state := by
  intro state cc hbad
  cases state <;> cases cc <;> first | rfl | exact absurd (by decide) hbad

theorem depth_shift : ∀ state cc state', action cc state = .shift state' →
    depth state < depth state' ∧ depth state' < szStack := by
  have hall : ∀ state cc, match action cc state with
      | .shift state' => depth state < depth state' ∧ depth state' < szStack
      | _ => True := by
    intro state cc
    cases state <;> cases cc <;> trivial
  intro state cc state' hshift
  simpa only [hshift] using hall state cc

theorem action_other (state : LexState) :
    action .other state = .revert ∨ ∃ toktype, action .other state = .reduce toktype := by
  cases state <;> first | exact .inl rfl | exact .inr ⟨_, rfl⟩

theorem action_revert : ∀ state cc, action cc state = .revert →
    action .other state = .revert := by
  decide

theorem action_reduce : ∀ state cc toktype, action cc state = .reduce toktype →
    toktype = .hex ∧ cc = .hexsuffix ∨
      ¬ (toktype = .octal ∧ cc = .octsuffix ∨ toktype = .hex ∧ cc = .hexsuffix) ∧
        action .other state = .reduce toktype := by
  decide

theorem action_nonnum : ∀ state, action .other state = .reduce .nonnum → state = .start := by
  decide

theorem not_shift_start : ∀ state cc, action cc state ≠ .shift .start := by
  decide

/-! ## The scan -/

/-- What the caller sees of a result. -/
def token (r : LexType × Nat) : Option (LexType × Nat) :=
  if r.1 = .nonnum then none else some r

variable {str : List Char} {ip : Nat} {state state' : LexState} {stk : List (Nat × LexState)}
  {w : List CharClass} {cc : CharClass} {toktype : LexType}

/-- The longest number behind a place, or else what the states left before it allow. -/
def found (ip : Nat) (stk : List (Nat × LexState)) : Option (LexType × Nat) →
    Option (LexType × Nat)
  | none => token (unwind stk)
  | some (toktype, n) => some (toktype, ip + n)

theorem unwind_le (hstk : (unwind stk).2 ≤ ip) : (unwind ((ip, state) :: stk)).2 ≤ ip := by
  rw [unwind]
  split
  · exact hstk
  · exact Nat.le_refl ip
  · exact Nat.le_refl ip

theorem token_unwind (hstart : state = .start → stk = []) :
    token (unwind ((ip, state) :: stk)) =
      found ip stk ((accepts (some state)).map fun t => (t, 0)) := by
  rw [unwind, accepts]
  rcases action_other state with hother | ⟨t, hother⟩
  · rw [hother]
    rfl
  · rw [hother]
    by_cases ht : t = .nonnum
    · subst ht
      rw [hstart (action_nonnum state hother)]
      rfl
    · simp only [token, ht, if_false]
      rfl

/-- The search goes on in the next state with the place of this one on the stack. -/
theorem found_longest_cons (hstart : state = .start → stk = [])
    (hnext : next (some state) cc = some (some state')) :
    found ip stk (longest next accepts (some state) (cc :: w)) =
      found (ip + 1) ((ip, state) :: stk) (longest next accepts (some state') w) := by
  rw [longest, hnext]
  dsimp only
  cases longest next accepts (some state') w with
  | none => exact (token_unwind hstart).symm
  | some r =>
      simp only [found]
      rw [Nat.add_assoc, Nat.add_comm 1]

theorem found_longest_stop (hnext : next (some state) cc = none)
    (hstart : state = .start → stk = []) :
    found ip stk (longest next accepts (some state) (cc :: w)) =
      token (unwind ((ip, state) :: stk)) := by
  rw [longest, hnext]
  exact (token_unwind hstart).symm

theorem found_longest_nil (hstart : state = .start → stk = []) :
    found ip stk (longest next accepts (some state) []) =
      token (unwind ((ip, state) :: stk)) := by
  rw [longest]
  exact (token_unwind hstart).symm

theorem next_reduce (haction : goodAction cc state = .reduce toktype) :
    next (some state) cc = if toktype = .hex ∧ cc = .hexsuffix then some none else none := by
  rw [next, haction]

theorem found_longest_stay (hnext : next (some state) cc = some (some state)) :
    found ip stk (longest next accepts (some state) (cc :: w)) =
      found (ip + 1) stk (longest next accepts (some state) w) := by
  rw [longest, hnext]
  dsimp only
  cases hlongest : longest next accepts (some state) w with
  | none =>
      rw [follows.accept_eq_none hlongest]
      rfl
  | some r =>
      simp only [found]
      rw [Nat.add_assoc, Nat.add_comm 1]

theorem longest_none : longest next accepts none w = some (.hex, 0) := by
  cases w <;> rfl

theorem token_ne_found {r : LexType × Nat} (hle : r.2 ≤ ip) {l : Option (LexType × Nat)}
    (hl : l ≠ none) : token r ≠ found (ip + 1) stk l := by
  obtain ⟨⟨t, n⟩, rfl⟩ := Option.ne_none_iff_exists'.1 hl
  rw [token, found]
  split
  · simp
  · intro heq
    have := congrArg Prod.snd (Option.some.inj heq)
    dsimp only at this
    omega

theorem found_inj {l l' : Option (LexType × Nat)} (hle : (unwind stk).2 ≤ ip) :
    found (ip + 1) stk l = found (ip + 1) stk l' ↔ l = l' := by
  refine ⟨fun heq => ?_, congrArg _⟩
  cases l with
  | none =>
      by_contra hl
      exact token_ne_found hle (Ne.symm hl) heq
  | some r =>
      cases l' with
      | none => exact absurd heq.symm (token_ne_found hle (Option.some_ne_none r))
      | some r' =>
          have hpair : (r.1, ip + 1 + r.2) = (r'.1, ip + 1 + r'.2) := Option.some.inj heq
          obtain ⟨hfst, hsnd⟩ := Prod.mk.inj hpair
          rw [Prod.ext hfst (Nat.add_left_cancel hsnd)]

/-! ## The three actions -/

theorem longest_eq_none_iff (toktype : LexType)
    (honly : ∀ t, t ≠ toktype → lang (some state) t = 0) :
    longest next accepts (some state) w = none ↔ ¬ Begins (lang (some state) toktype) w := by
  rw [follows.longest_eq_none]
  constructor
  · exact fun hnone => hnone toktype
  · intro hnone t
    by_cases ht : t = toktype
    · rw [ht]
      exact hnone
    · rw [honly t ht]
      exact begins_zero

theorem unm_sexag : longest next accepts (some .qrn) w = none ↔
    ¬ Begins (fault .unm) (.sexag :: w) := by
  have hrest : residual (fault .unm) .sexag = expFault + colon.star * digit := rfl
  have hlang : lang (some .qrn) .real = colon.star * (digit *
      ((digit + colon).star * (optional fractionPart * optional exponent))) := rfl
  have hexp : Begins expFault w → Begins (colon.star * digit) w := by
    rw [expFault, begins_assoc]
    exact Begins.of_comp
  have honly : ∀ t, t ≠ .real → lang (some .qrn) t = 0 := by
    intro t ht
    cases t <;> first | rfl | exact absurd rfl ht
  rw [longest_eq_none_iff .real honly, begins_cons (fault_nil _), hrest, hlang,
    begins_assoc, begins_comp_of_matchEpsilon (by decide), begins_plus,
    or_iff_right_of_imp hexp]

theorem hrx_octsuffix : longest next accepts (some .hex) w = none ↔
    ¬ Begins (fault .hrx) (.octsuffix :: w) := by
  have hrest : residual (fault .hrx) .octsuffix = lang (some .hex) .hex := rfl
  have honly : ∀ t, t ≠ .hex → lang (some .hex) t = 0 := by
    intro t ht
    cases t <;> first | rfl | exact absurd rfl ht
  rw [longest_eq_none_iff .hex honly, begins_cons (fault_nil _), hrest]

theorem rnm_realexp : longest next accepts (some .qrx) w = longest next accepts (some .rrx) w ↔
    ¬ Begins (fault .rnm) (.realexp :: w) := by
  have hrest : residual (fault .rnm) .realexp = sign * digit := rfl
  rw [begins_cons (fault_nil _), hrest]
  cases w with
  | nil => exact iff_of_true rfl (begins_nil rfl)
  | cons cc w =>
      rw [begins_cons rfl]
      by_cases hcc : cc = .signchar
      · subst hcc
        have hdigit : residual (sign * digit) .signchar = digit := rfl
        have hlang : lang (some .qrx) .real = digit * digit.star := rfl
        have hqrx : longest next accepts (some .qrx) w = none ↔ ¬ Begins digit w := by
          have honly : ∀ t, t ≠ .real → lang (some .qrx) t = 0 := by
            intro t ht
            cases t <;> first | rfl | exact absurd rfl ht
          rw [longest_eq_none_iff .real honly, hlang, begins_comp_of_matchEpsilon (by decide)]
        have hshift : next (some .rrx) .signchar = some (some .qrx) := by decide
        have hstop : next (some .qrx) .signchar = none := by decide
        have hqrxAcc : accepts (some .qrx) = none := by decide
        have hrrxAcc : accepts (some .rrx) = none := by decide
        rw [hdigit, ← hqrx, longest, longest, hshift, hstop, hqrxAcc, hrrxAcc]
        dsimp only
        cases longest next accepts (some .qrx) w with
        | none => exact iff_of_true rfl rfl
        | some r => exact iff_of_false (Option.some_ne_none _).symm (Option.some_ne_none r)
      · have hrest : residual (sign * digit) cc = 0 := by
          cases cc <;> first | rfl | exact absurd rfl hcc
        have hnext : next (some .qrx) cc = next (some .rrx) cc := by
          cases cc <;> first | rfl | exact absurd rfl hcc
        rw [hrest, longest, longest, hnext]
        exact iff_of_true rfl begins_zero

/-! ## The comparison -/

/-- The scan never shifts with a full stack. -/
def overruns : List Char → LexState → Nat → Bool
  | [], _, _ => false
  | ch :: str, state, sp =>
      match action (charClass ch) state with
      | .accept => overruns str state sp
      | .shift next => decide (sp + 1 > szStack) || overruns str next (sp + 1)
      | _ => false

theorem overruns_eq {sp : Nat} (hdepth : sp ≤ depth state) : overruns str state sp = false := by
  induction str generalizing state sp with
  | nil => rfl
  | cons ch str ih =>
      rw [overruns]
      cases haction : action (charClass ch) state with
      | accept => exact ih hdepth
      | revert => rfl
      | reduce t => rfl
      | shift state' =>
          obtain ⟨hlt, hmax⟩ := depth_shift state _ state' haction
          have hroom : ¬ sp + 1 > szStack := by omega
          simp only [hroom, decide_false, Bool.false_or]
          exact ih (Nat.le_trans (Nat.succ_le_succ hdepth) hlt)

/-- The scan finds the longest number unless the text takes a bad action to a longer one. -/
theorem token_scan (hdepth : stk.length ≤ depth state) (hle : (unwind stk).2 ≤ ip)
    (hstart : state = .start → stk = []) :
    token (scan str ip state stk) =
        found ip stk (longest next accepts (some state) (str.map charClass)) ↔
      ¬ Begins (fault state) (str.map charClass) := by
  induction str generalizing ip state stk with
  | nil =>
      refine iff_of_true ?_ (begins_nil (fault_nil state))
      rw [List.map_nil, found_longest_nil hstart, scan, unwind]
      rcases action_other state with hother | ⟨t, hother⟩
      · simp only [hother]
      · simp [hother]
  | cons ch str ih =>
      rw [List.map_cons]
      by_cases hbad : Bad state (charClass ch)
      · have hshift : ∀ state', next (some state) (charClass ch) = some (some state') →
            found ip stk (longest next accepts (some state) (charClass ch :: str.map charClass)) =
              found (ip + 1) ((ip, state) :: stk)
                (longest next accepts (some state') (str.map charClass)) :=
          fun state' hnext => found_longest_cons hstart hnext
        have hpop : (unwind ((ip, state) :: stk)).2 ≤ ip := unwind_le hle
        rcases hbad with ⟨rfl, hcc⟩ | ⟨rfl, hcc⟩ | ⟨rfl, hcc⟩
        · have hnext : next (some .unm) .sexag = some (some .qrn) := by decide
          have haction : action .sexag .unm = .revert := rfl
          have hscan : scan (ch :: str) ip .unm stk = unwind ((ip, .unm) :: stk) := by
            simp only [scan, hcc, haction, unwind]
            rfl
          rw [hshift .qrn (hcc ▸ hnext), hscan, hcc, ← unm_sexag]
          exact (found_inj (l := none) hpop).trans eq_comm
        · have hnext : next (some .hrx) .octsuffix = some (some .hex) := by decide
          have haction : action .octsuffix .hrx = .reduce .real := rfl
          have hscan : scan (ch :: str) ip .hrx stk = unwind ((ip, .hrx) :: stk) := by
            simp [scan, hcc, haction, unwind]
            rfl
          rw [hshift .hex (hcc ▸ hnext), hscan, hcc, ← hrx_octsuffix]
          exact (found_inj (l := none) hpop).trans eq_comm
        · have hnext : next (some .rnm) .realexp = some (some .rrx) := by decide
          have haction : action .realexp .rnm = .shift .qrx := rfl
          have hroom : ¬ stk.length + 1 > szStack := by
            change stk.length ≤ 5 at hdepth
            change ¬ stk.length + 1 > 15
            omega
          have hscan : scan (ch :: str) ip .rnm stk =
              scan str (ip + 1) .qrx ((ip, .rnm) :: stk) := by
            simp only [scan, hcc, haction, hroom, if_false]
          have hrest : token (scan str (ip + 1) .qrx ((ip, .rnm) :: stk)) =
              found (ip + 1) ((ip, .rnm) :: stk)
                (longest next accepts (some .qrx) (str.map charClass)) := by
            refine (ih ?_ (Nat.le_succ_of_le hpop) (fun h => by cases h)).2 begins_zero
            change stk.length ≤ 5 at hdepth
            change stk.length + 1 ≤ 9
            omega
          rw [hshift .rrx (hcc ▸ hnext), hscan, hrest, hcc, ← rnm_realexp]
          exact found_inj hpop
      · have hgood := goodAction_eq state _ hbad
        rw [begins_cons (fault_nil state), fault_cons state _ hbad, scan]
        cases haction : action (charClass ch) state with
        | accept =>
            have hnext : next (some state) (charClass ch) = some (some state) := by
              rw [next, hgood, haction]
            rw [hnext, found_longest_stay hnext]
            exact ih hdepth (Nat.le_succ_of_le hle) hstart
        | revert =>
            have hnext : next (some state) (charClass ch) = none := by
              rw [next, hgood, haction]
            rw [hnext, found_longest_stop hnext hstart, unwind, action_revert state _ haction]
            exact iff_of_true rfl begins_zero
        | reduce t =>
            dsimp only
            rcases action_reduce state _ t haction with hsuffix | ⟨hplain, hother⟩
            · have hnext : next (some state) (charClass ch) = some none := by
                rw [next_reduce (hgood.trans haction), if_pos hsuffix]
              rw [hnext, if_pos (.inr hsuffix), longest, hnext]
              dsimp only
              rw [longest_none, hsuffix.1]
              exact iff_of_true rfl begins_zero
            · have hnext : next (some state) (charClass ch) = none := by
                rw [next_reduce (hgood.trans haction), if_neg fun h => hplain (.inr h)]
              rw [hnext, if_neg hplain, found_longest_stop hnext hstart, unwind, hother]
              exact iff_of_true rfl begins_zero
        | shift state' =>
            have hnext : next (some state) (charClass ch) = some (some state') := by
              rw [next, hgood, haction]
            obtain ⟨hlt, hmax⟩ := depth_shift state _ state' haction
            have hroom : ¬ stk.length + 1 > szStack := by omega
            dsimp only
            rw [if_neg hroom, hnext, found_longest_cons hstart hnext]
            refine ih (Nat.le_trans (Nat.succ_le_succ hdepth) hlt)
              (Nat.le_succ_of_le (unwind_le hle)) fun hs => ?_
            rw [hs] at haction
            exact absurd haction (not_shift_start state _)

end Lexnum

open Lexnum LongText

/-- The legal numbers, `INDEF` included. -/
def Legal (toktype : LexType) (u : List Char) : Prop :=
  u.map charClass ∈ (number toktype).matches' ∨ toktype = .real ∧ u = indef

/-- The longest legal number behind the white space, or nothing. -/
def Recognises (str : List Char) (r : LexType × Nat) : Prop :=
  let start := str.dropWhile isWhite
  r.2 ≤ start.length ∧ (if r.1 = .nonnum then r.2 = 0 else Legal r.1 (start.take r.2)) ∧
    ∀ toktype u, u <+: start → Legal toktype u → r.1 ≠ .nonnum ∧ u.length ≤ r.2

/-- The texts that are read into a bad action: one with an exponent, `B` and `X`; one with a
sign before a colon; and one with a signed exponent behind a colon. -/
def Misled (str : List Char) : Prop :=
  Begins (fault .start) ((str.dropWhile isWhite).map charClass)

section

variable {str : List Char} {toktype : LexType} {n : Nat}

theorem recognises_iff (hindef : ¬ indef <+: str.dropWhile isWhite) :
    Recognises str (toktype, if toktype = .nonnum then 0 else n) ↔
      IsLongest number ((str.dropWhile isWhite).map charClass) (token (toktype, n)) := by
  have hlegal : ∀ t u, u <+: str.dropWhile isWhite →
      (Legal t u ↔ u.map charClass ∈ (number t).matches') :=
    fun t u hpre => or_iff_left fun h => hindef (h.2 ▸ hpre)
  by_cases hnonnum : toktype = .nonnum
  · simp only [Recognises, token, hnonnum, if_true, IsLongest]
    constructor
    · rintro ⟨-, -, hnone⟩ t u hpre hu
      obtain ⟨v, hv, rfl⟩ := List.prefix_map_iff.1 hpre
      exact (hnone t v hv ((hlegal t v hv).2 hu)).1 rfl
    · intro hnone
      refine ⟨Nat.zero_le _, trivial, fun t u hpre hu => ?_⟩
      exact absurd ((hlegal t u hpre).1 hu) (hnone t _ (hpre.map charClass))
  · simp only [Recognises, token, hnonnum, if_false, IsLongest, List.length_map]
    refine and_congr Iff.rfl (and_congr ?_ ?_)
    · rw [hlegal _ _ (List.take_prefix n _), List.map_take]
    · constructor
      · intro hmax t u hpre hu
        obtain ⟨v, hv, rfl⟩ := List.prefix_map_iff.1 hpre
        rw [List.length_map]
        exact (hmax t v hv ((hlegal t v hv).2 hu)).2
      · intro hmax t u hpre hu
        refine ⟨hnonnum, ?_⟩
        have := hmax t _ (hpre.map charClass) ((hlegal t u hpre).1 hu)
        rwa [List.length_map] at this

end

/-- The longest number is found, with no overrun of the stack, except in the texts that are
misled. -/
theorem lexnum_longest_iff (str : List Char) :
    (overruns (str.dropWhile isWhite) .start 0 = false ∧ Recognises str (lexnum str)) ↔
      ¬ Misled str := by
  rw [and_iff_right (overruns_eq (Nat.le_refl 0)), Misled]
  by_cases hindef : indef <+: str.dropWhile isWhite
  · obtain ⟨rest, hstart⟩ := hindef
    have hmap : (str.dropWhile isWhite).map charClass =
        .other :: (['N', 'D', 'E', 'F'] ++ rest).map charClass := by
      rw [← hstart]
      rfl
    have hrest : residual (fault .start) .other = 0 := rfl
    have hlexnum : lexnum str = (.real, 5) := by
      rw [lexnum]
      exact if_pos ⟨rest, hstart⟩
    rw [hmap, begins_cons (fault_nil _), hrest, hlexnum]
    refine iff_of_true ?_ begins_zero
    have htake : (str.dropWhile isWhite).take 5 = indef := by
      rw [← hstart]
      rfl
    refine ⟨?_, .inr ⟨rfl, htake⟩, fun t u hpre hu => ⟨by decide, ?_⟩⟩
    · rw [← hstart, List.length_append]
      exact Nat.le_add_right 5 _
    · rcases hu with hu | ⟨-, rfl⟩
      · have hnone := follows.longest_eq_none (q := some .start)
          (w := (str.dropWhile isWhite).map charClass)
        rw [hmap] at hnone
        refine absurd ⟨_, ?_, hu⟩ (hnone.1 rfl t)
        rw [← hmap]
        exact hpre.map charClass
      · exact Nat.le_refl 5
  · have hscan : token (scan (str.dropWhile isWhite) 0 .start []) =
        found 0 [] (longest next accepts (some .start) ((str.dropWhile isWhite).map charClass)) ↔
          ¬ Begins (fault .start) ((str.dropWhile isWhite).map charClass) :=
      token_scan (Nat.le_refl 0) (Nat.le_refl 0) fun _ => rfl
    have hfound : ∀ l, found 0 [] l = l := by
      rintro (- | ⟨t, n⟩)
      · rfl
      · rw [found, Nat.zero_add]
    have hlexnum : lexnum str =
        ((scan (str.dropWhile isWhite) 0 .start []).1,
          if (scan (str.dropWhile isWhite) 0 .start []).1 = .nonnum then 0
          else (scan (str.dropWhile isWhite) 0 .start []).2) := by
      rw [lexnum]
      exact if_neg hindef
    rw [hlexnum, recognises_iff hindef, ← hscan, hfound]
    exact (follows.isLongest_iff (q := some .start)).trans eq_comm

/-- `1E5BX` is a hex number, but its first three chars are returned as a real number. -/
theorem not_recognises_hexNumber :
    ¬ Recognises ['1', 'E', '5', 'B', 'X'] (lexnum ['1', 'E', '5', 'B', 'X']) := by
  have hlexnum : lexnum ['1', 'E', '5', 'B', 'X'] = (.real, 3) := by decide +kernel
  have hhex : Legal .hex ['1', 'E', '5', 'B', 'X'] :=
    .inl ((RegularExpression.rmatch_iff_matches' _ _).1 (by decide))
  rintro ⟨-, -, hmax⟩
  rw [hlexnum] at hmax
  exact absurd (hmax .hex _ (List.prefix_refl _) hhex).2 (by decide)

end Iraf.Fmtio
