import Iraf.Fmtio.Gctol

/-!
# Which chars a number takes

The digits of a radix, the tokens that `gctol.x` documents, and where a call takes one
of these or nothing at all.
-/

namespace Iraf.Fmtio.LongText

open Gctol

/-- A digit of the radix; from the eleventh on these are letters of either case. -/
def isDigitOf (radix : Int) (c : Char) : Bool :=
  (c.isDigit && decide ((toInteg c : Int) < radix)) ||
    (c.isAlpha && decide ((c.toLower.toNat : Int) - 'a'.toNat + 10 < radix))

/-- Whitespace, a sign, one or more digits, and the suffix of an octal or hex number. -/
structure IsToken (radix : Int) (white sign digits suffix : List Char) : Prop where
  white : ∀ c ∈ white, isWhite c
  sign : sign ∈ [[], ['-'], ['+']]
  nonempty : digits ≠ []
  digits : ∀ c ∈ digits, isDigitOf radix c
  suffix : suffix = [] ∨ radix = 8 ∧ suffix ∈ [['b'], ['B']] ∨
    radix = 16 ∧ suffix ∈ [['x'], ['X']]

/-- What a call does that finds a number: it returns the number of chars that the index
advances by, and these are a token. -/
def TakesToken (str : List Char) (radix : Int) : Prop :=
  (gctol str radix).nchars = (gctol str radix).used ∧
    ∃ white sign digits suffix, IsToken radix white sign digits suffix ∧
      str.take (gctol str radix).used = white ++ sign ++ digits ++ suffix

/-- A call with `lval` in the output variable finds no number and leaves everything as
it was, or it takes a token. -/
def AllOrNothing (str : List Char) (lval radix : Int) : Prop :=
  gctol str radix = ⟨0, lval, 0⟩ ∨ TakesToken str radix

/-- An upper case letter that the tests of `gctol.x` take for a suffix in every radix up
to ten; only `B` after an octal number is one. -/
def IsForeign (radix : Int) (c : Char) : Prop :=
  radix ≤ 10 ∧ (c = 'X' ∨ c = 'B' ∧ radix ≠ 8)

/-- The text begins with a digit and no letter that is not a suffix of the radix follows
its number; or it begins with no digit, sign or whitespace, and the output variable holds
the zero that a call stores there. -/
def Plain (str : List Char) (lval radix : Int) : Prop :=
  (∀ c ∈ str.head?, isWhite c = false ∧ c ≠ '-' ∧ c ≠ '+') ∧
    (if str.takeWhile (isDigitOf radix) = [] then lval = 0
      else ∀ c ∈ (str.dropWhile (isDigitOf radix)).head?, ¬ IsForeign radix c)

variable {str : List Char} {radix lval : Int} {c ch : Char} {n : Nat}

/-! ## Digits -/

theorem upper_eq (h : c.isUpper = true) : ∃ k < 26, c = Char.ofNat (65 + k) := by
  have hcode : c.val ≥ 'A'.val ∧ c.val ≤ 'Z'.val := of_decide_eq_true h
  have hval : 65 ≤ c.toNat ∧ c.toNat ≤ 90 := by
    simpa [UInt32.le_iff_toNat_le] using hcode
  refine ⟨c.toNat - 65, by omega, ?_⟩
  rw [Nat.add_sub_cancel' hval.1, Char.ofNat_toNat]

theorem lower_eq (h : c.isLower = true) : ∃ k < 26, c = Char.ofNat (97 + k) := by
  have hcode : (decide (c.val ≥ 'a'.val) && decide (c.val ≤ 'z'.val)) = true := h
  have hval : 97 ≤ c.toNat ∧ c.toNat ≤ 122 := by
    simpa [UInt32.le_iff_toNat_le] using hcode
  refine ⟨c.toNat - 97, by omega, ?_⟩
  rw [Nat.add_sub_cancel' hval.1, Char.ofNat_toNat]

theorem toLower_upper (h : c.isUpper = true) :
    97 ≤ c.toLower.toNat ∧ c.isDigit = false ∧ c.toLower ≠ 'B' ∧ c.toLower ≠ 'X' ∧
      (c.toLower = 'x' ↔ c = 'X') := by
  obtain ⟨k, hk, rfl⟩ := upper_eq h
  interval_cases k <;> decide

theorem toLower_lower (h : c.isLower = true) :
    97 ≤ c.toNat ∧ c.isDigit = false ∧ c.isUpper = false ∧ c.toLower = c := by
  obtain ⟨k, hk, rfl⟩ := lower_eq h
  interval_cases k <;> decide

theorem isAlpha_eq (c : Char) : c.isAlpha = (c.isUpper || c.isLower) := rfl

theorem isAlpha_isDigit (h : c.isDigit = true) : c.isAlpha = false := by
  rw [isAlpha_eq, Bool.or_eq_false_iff]
  constructor
  · exact Bool.eq_false_iff.2 fun hupper => by simp [(toLower_upper hupper).2.1] at h
  · exact Bool.eq_false_iff.2 fun hlower => by simp [(toLower_lower hlower).2.1] at h

theorem isDigitOf_iff :
    isDigitOf radix c = true ↔ ∃ d, (digitOf radix c).1 = some d ∧ ¬ (d < 0 ∨ d ≥ radix) := by
  unfold isDigitOf digitOf
  by_cases hdigit : c.isDigit = true
  · simp [hdigit, isAlpha_isDigit hdigit]
  · by_cases hupper : c.isUpper = true
    · have hle := (toLower_upper hupper).1
      by_cases hradix : radix > 10
      · simp [hdigit, hupper, hradix, isAlpha_eq]
        omega
      · simp [hdigit, hradix]
        omega
    · by_cases hlower : c.isLower = true
      · obtain ⟨hle, -, -, hlow⟩ := toLower_lower hlower
        by_cases hradix : radix > 10
        · simp [hdigit, hupper, hlower, hradix, isAlpha_eq, hlow]
          omega
        · simp [hdigit, hradix, hlow]
          omega
      · by_cases hradix : radix > 10 <;> simp [hdigit, hupper, hlower, hradix, isAlpha_eq]

/-! ## Suffixes -/

/-- The tests for a suffix, as the operators of the source group. -/
def EatsSuffix (radix : Int) (ch : Char) : Prop :=
  (radix = 8 ∧ ch = 'b' ∨ ch = 'B') ∨ (radix = 16 ∧ ch = 'x' ∨ ch = 'X')

instance : Decidable (EatsSuffix radix ch) := inferInstanceAs (Decidable (_ ∨ _))

def IsSuffix (radix : Int) (c : Char) : Prop :=
  radix = 8 ∧ (c = 'b' ∨ c = 'B') ∨ radix = 16 ∧ (c = 'x' ∨ c = 'X')

theorem eatsSuffix_iff :
    EatsSuffix radix (digitOf radix c).2 ↔ IsSuffix radix c ∨ IsForeign radix c := by
  unfold EatsSuffix IsSuffix IsForeign digitOf
  by_cases hradix : radix > 10
  · have h8 : radix ≠ 8 := by omega
    have hle : ¬ radix ≤ 10 := by omega
    by_cases hdigit : c.isDigit = true
    · have hne : c ≠ 'x' ∧ c ≠ 'X' ∧ c ≠ 'B' := by
        refine ⟨?_, ?_, ?_⟩ <;> rintro rfl <;> exact absurd hdigit (by decide)
      simp [hdigit, hne, h8]
    · by_cases hupper : c.isUpper = true
      · obtain ⟨-, -, hB, hX, hx⟩ := toLower_upper hupper
        have hne : c ≠ 'x' := by
          rintro rfl
          exact absurd hupper (by decide)
        simp [hdigit, hupper, hradix, hB, hX, hx, hne, h8, hle]
      · have hne : c ≠ 'X' ∧ c ≠ 'B' := by
          refine ⟨?_, ?_⟩ <;> rintro rfl <;> exact hupper (by decide)
        by_cases hlower : c.isLower = true <;>
          simp [hdigit, hupper, hlower, hradix, hne, h8]
  · have hsame : (if c.isDigit then (some (toInteg c : Int), c) else
        if radix > 10 then
          if c.isUpper then (some ((c.toLower.toNat : Int) - 'a'.toNat + 10), c.toLower)
          else if c.isLower then (some ((c.toNat : Int) - 'a'.toNat + 10), c) else (none, c)
        else (none, c)).2 = c := by
      rw [if_neg hradix]
      split <;> rfl
    rw [hsame]
    have h16 : radix ≠ 16 := by omega
    have hle : radix ≤ 10 := by omega
    simp only [h16, hle, false_and, true_and, false_or, or_false]
    tauto

theorem not_eatsSuffix_digit (h : isDigitOf radix c = true) :
    ¬ EatsSuffix radix (digitOf radix c).2 := by
  have hletter (hc : c = 'X' ∨ c = 'B') : ¬ radix ≤ 10 := by
    intro hle
    rcases hc with rfl | rfl
    · have h33 : (33 : Int) < radix := by simpa [isDigitOf] using h
      omega
    · have h11 : (11 : Int) < radix := by simpa [isDigitOf] using h
      omega
  rw [eatsSuffix_iff]
  rintro ((⟨rfl, hc⟩ | ⟨rfl, hc⟩) | ⟨hle, hc⟩)
  · rcases hc with rfl | rfl <;> exact absurd h (by decide)
  · rcases hc with rfl | rfl <;> exact absurd h (by decide)
  · exact hletter (hc.imp_right And.left) hle

/-! ## What a call takes -/

/-- The loop takes the digits at the start of a text, and its last char is taken for a
suffix if the char after the digits is. -/
theorem scan_eq (str : List Char) (lval : Int) (n : Nat) (hch : ¬ EatsSuffix radix ch) :
    ∃ sum last, scan radix str lval ch n =
        (sum, last, n + (str.takeWhile (isDigitOf radix)).length) ∧
      (str.takeWhile (isDigitOf radix) = [] → sum = lval) ∧
      (EatsSuffix radix last ↔ ∃ c ∈ (str.dropWhile (isDigitOf radix)).head?,
        IsSuffix radix c ∨ IsForeign radix c) := by
  induction str generalizing lval ch n with
  | nil => exact ⟨lval, ch, rfl, fun _ => rfl, by simp [hch]⟩
  | cons c str ih =>
      rw [scan]
      by_cases hc : isDigitOf radix c = true
      · obtain ⟨d, hd, hlt⟩ := isDigitOf_iff.1 hc
        obtain ⟨sum, last, hscan, -, hlast⟩ := ih (lval * radix + d) (n + 1)
          (not_eatsSuffix_digit hc)
        refine ⟨sum, last, ?_, by simp [hc], by rwa [List.dropWhile_cons_of_pos hc]⟩
        rw [List.takeWhile_cons_of_pos hc, List.length_cons,
          show n + ((str.takeWhile (isDigitOf radix)).length + 1) =
            n + 1 + (str.takeWhile (isDigitOf radix)).length by omega, ← hscan]
        rcases hdigit : digitOf radix c with ⟨digit, next⟩
        rw [hdigit] at hd
        cases hd
        exact if_neg hlt
      · refine ⟨lval, (digitOf radix c).2, ?_, fun _ => rfl, ?_⟩
        · rw [List.takeWhile_cons_of_neg hc, List.length_nil, Nat.add_zero]
          rcases hdigit : digitOf radix c with ⟨digit | digit, next⟩
          · rfl
          · refine if_pos ?_
            by_contra hlt
            exact hc (isDigitOf_iff.2 ⟨digit, by rw [hdigit], hlt⟩)
        · rw [List.dropWhile_cons_of_neg hc, eatsSuffix_iff]
          simp

theorem not_eatsSuffix_null : ¬ EatsSuffix radix '\x00' := by
  rintro ((⟨-, h⟩ | h) | (⟨-, h⟩ | h)) <;> exact absurd h (by decide)

/-- The chars after the whitespace and the sign. -/
def body (str : List Char) : List Char :=
  (str.dropWhile isWhite).drop (sign (str.dropWhile isWhite)).2

theorem gctol_scan {sum : Int} {last : Char}
    (hscan : scan |radix| (body str) 0 '\x00' 0 = (sum, last, n)) :
    gctol str radix =
      let nsign := (sign (str.dropWhile isWhite)).2
      let lval := if (sign (str.dropWhile isWhite)).1 then -sum else sum
      let white := (str.takeWhile isWhite).length
      if n = 0 then ⟨-nsign, lval, white⟩
      else if EatsSuffix radix last then ⟨n + 1, lval, white + nsign + n + 1⟩
      else ⟨n, lval, white + nsign + n⟩ := by
  rw [gctol]
  rw [body] at hscan
  simp only [drop_white, hscan]
  by_cases hn : n = 0
  · simp only [if_pos hn]
  simp only [if_neg hn]
  by_cases h8 : radix = 8 ∧ last = 'b' ∨ last = 'B'
  · have heats : EatsSuffix radix last := .inl h8
    simp only [if_pos h8, if_pos heats]
  · by_cases h16 : radix = 16 ∧ last = 'x' ∨ last = 'X'
    · have heats : EatsSuffix radix last := .inr h16
      simp only [if_neg h8, if_pos h16, if_pos heats]
    · have heats : ¬ EatsSuffix radix last := not_or.2 ⟨h8, h16⟩
      simp only [if_neg h8, if_neg h16, if_neg heats]

def digits (radix : Int) (str : List Char) : List Char :=
  (body str).takeWhile (isDigitOf radix)

/-- The char after the digits passes one of the tests for a suffix. -/
def Suffixed (radix : Int) (str : List Char) : Prop :=
  ∃ c ∈ ((body str).dropWhile (isDigitOf radix)).head?, IsSuffix radix c ∨ IsForeign radix c

theorem gctol_noDigits (hradix : 0 ≤ radix) (h : digits radix str = []) :
    gctol str radix =
      ⟨-(sign (str.dropWhile isWhite)).2, 0, (str.takeWhile isWhite).length⟩ := by
  obtain ⟨sum, last, hscan, hzero, -⟩ := @scan_eq radix _ (body str) 0 0 not_eatsSuffix_null
  rw [digits] at h
  rw [h, hzero h, ← abs_of_nonneg hradix] at hscan
  rw [gctol_scan hscan]
  simp

theorem gctol_digits (hradix : 0 ≤ radix) (h : digits radix str ≠ []) : ∃ (sum : Int) (eats : Nat),
    gctol str radix = ⟨((digits radix str).length + eats : Nat), sum,
      (str.takeWhile isWhite).length + (sign (str.dropWhile isWhite)).2 +
        ((digits radix str).length + eats)⟩ ∧
      (eats = 1 ∧ Suffixed radix str ∨ eats = 0 ∧ ¬ Suffixed radix str) := by
  obtain ⟨sum, last, hscan, -, hlast⟩ := @scan_eq radix _ (body str) 0 0 not_eatsSuffix_null
  rw [Nat.zero_add] at hscan
  have hn : (digits radix str).length ≠ 0 := fun hn => h (List.length_eq_zero_iff.1 hn)
  have habs : scan |radix| (body str) 0 '\x00' 0 = (sum, last, (digits radix str).length) := by
    rw [abs_of_nonneg hradix, hscan, digits]
  rw [gctol_scan habs]
  simp only [if_neg hn]
  by_cases heats : EatsSuffix radix last
  · rw [if_pos heats]
    exact ⟨_, 1, rfl, .inl ⟨rfl, hlast.1 heats⟩⟩
  · rw [if_neg heats]
    exact ⟨_, 0, rfl, .inr ⟨rfl, fun hsuffix => heats (hlast.2 hsuffix)⟩⟩

/-! ## Tokens -/

theorem plain_iff (hhead : ∀ c ∈ str.head?, isWhite c = false ∧ c ≠ '-' ∧ c ≠ '+') :
    str.takeWhile isWhite = [] ∧ (sign (str.dropWhile isWhite)).2 = 0 ∧ body str = str := by
  cases str with
  | nil => exact ⟨rfl, rfl, rfl⟩
  | cons c str =>
      obtain ⟨hwhite, hminus, hplus⟩ := hhead c rfl
      have hsign : sign (c :: str) = (false, 0) := by simp [sign, hminus, hplus]
      have hdrop : (c :: str).dropWhile isWhite = c :: str := by simp [hwhite]
      refine ⟨by simp [hwhite], ?_, ?_⟩
      · rw [hdrop, hsign]
      · rw [body, hdrop, hsign, List.drop_zero]

theorem head_of_plain (hwhite : (str.takeWhile isWhite).length = 0)
    (hsign : (sign (str.dropWhile isWhite)).2 = 0) :
    ∀ c ∈ str.head?, isWhite c = false ∧ c ≠ '-' ∧ c ≠ '+' := by
  intro c hc
  cases str with
  | nil => cases hc
  | cons d str =>
      cases hc
      have hd : isWhite c = false := by
        by_contra hd
        rw [Bool.not_eq_false] at hd
        simp [hd] at hwhite
      rw [List.dropWhile_cons_of_neg (by simp [hd])] at hsign
      refine ⟨hd, ?_, ?_⟩
      · rintro rfl
        cases hsign
      · rintro rfl
        cases hsign

theorem not_isDigitOf_head (hc : c ∈ (str.dropWhile (isDigitOf radix)).head?) :
    isDigitOf radix c = false := by
  have h := List.head?_dropWhile_not (isDigitOf radix) str
  rw [Option.mem_def.1 hc] at h
  exact h

theorem take_takeWhile_succ {p : Char → Bool} (hc : c ∈ (str.dropWhile p).head?) :
    str.take ((str.takeWhile p).length + 1) = str.takeWhile p ++ [c] := by
  obtain ⟨rest, hrest⟩ : ∃ rest, str.dropWhile p = c :: rest := by
    rw [Option.mem_def, List.head?_eq_some_iff] at hc
    exact hc
  calc
    str.take ((str.takeWhile p).length + 1)
    _ = (str.takeWhile p ++ c :: rest).take ((str.takeWhile p).length + 1) := by
        rw [← hrest, List.takeWhile_append_dropWhile]
    _ = str.takeWhile p ++ [c] := by simp [List.take_append]

theorem not_isToken_foreign {white sgn ds suffix : List Char}
    (h : IsToken radix white sgn ds suffix) (hdigit : isDigitOf radix c = false)
    (hc : IsForeign radix c) (front : List Char) :
    white ++ sgn ++ ds ++ suffix ≠ front ++ [c] := by
  intro heq
  obtain ⟨hradix, hletter⟩ := hc
  rcases h.suffix with rfl | ⟨rfl, hmem⟩ | ⟨rfl, -⟩
  · obtain ⟨init, d, rfl⟩ := (List.eq_nil_or_concat ds).resolve_left h.nonempty
    rw [List.append_nil, List.concat_eq_append, ← List.append_assoc] at heq
    obtain ⟨-, hd⟩ := List.append_inj' heq rfl
    rw [List.singleton_inj] at hd
    have := h.digits d (by simp)
    rw [hd, hdigit] at this
    cases this
  · have hlast : suffix = [c] := by
      rcases List.mem_pair.1 hmem with rfl | rfl <;> exact (List.append_inj' heq rfl).2
    rcases hletter with rfl | ⟨rfl, h8⟩
    · rw [hlast] at hmem
      exact absurd hmem (by decide)
    · exact h8 rfl
  · omega

/-- A call takes a token or leaves everything as it was, exactly if the text is plain. -/
theorem allOrNothing_iff (hradix : 2 ≤ radix) :
    AllOrNothing str lval radix ↔ Plain str lval radix := by
  have hnonneg : 0 ≤ radix := by omega
  constructor
  · intro h
    by_cases hdigits : digits radix str = []
    · have hcall := gctol_noDigits hnonneg hdigits
      rcases h with h | ⟨hcount, white, sgn, ds, suffix, htoken, htake⟩
      · rw [hcall] at h
        injection h with hsign hlval hwhite
        have hhead := head_of_plain hwhite (by omega)
        obtain ⟨-, -, hbody⟩ := plain_iff hhead
        refine ⟨hhead, ?_⟩
        rw [digits, hbody] at hdigits
        rw [if_pos hdigits, hlval]
      · rw [hcall] at hcount htake
        dsimp only at hcount htake
        have hused : (str.takeWhile isWhite).length = 0 := by omega
        rw [hused, List.take_zero] at htake
        simp [htoken.nonempty] at htake
    · obtain ⟨sum, eats, hcall, heats⟩ := gctol_digits hnonneg hdigits
      have hpos := List.length_pos_iff.2 hdigits
      rcases h with h | ⟨hcount, white, sgn, ds, suffix, htoken, htake⟩
      · rw [hcall] at h
        injection h with hcount
        omega
      · rw [hcall] at hcount htake
        dsimp only at hcount htake
        have hhead : ∀ c ∈ str.head?, isWhite c = false ∧ c ≠ '-' ∧ c ≠ '+' :=
          head_of_plain (by omega) (by omega)
        obtain ⟨hwhite, hsign, hbody⟩ := plain_iff hhead
        refine ⟨hhead, ?_⟩
        rw [digits, hbody] at hdigits htake
        rw [if_neg hdigits]
        intro c hc hforeign
        have hsuffixed : Suffixed radix str := ⟨c, by rwa [hbody], .inr hforeign⟩
        obtain ⟨rfl, -⟩ := heats.resolve_right fun h => h.2 hsuffixed
        rw [hwhite, hsign, List.length_nil, Nat.zero_add,
          take_takeWhile_succ hc] at htake
        exact not_isToken_foreign htoken (not_isDigitOf_head hc) hforeign _ htake.symm
  · rintro ⟨hhead, h⟩
    obtain ⟨hwhite, hsign, hbody⟩ := plain_iff hhead
    by_cases hdigits : digits radix str = []
    · have hcall := gctol_noDigits hnonneg hdigits
      rw [digits, hbody] at hdigits
      rw [if_pos hdigits] at h
      left
      rw [hcall, hwhite, hsign, h]
      rfl
    · obtain ⟨sum, eats, hcall, heats⟩ := gctol_digits hnonneg hdigits
      rw [hwhite, hsign, digits, hbody, List.length_nil, Nat.zero_add] at hcall
      rw [digits, hbody] at hdigits
      rw [if_neg hdigits] at h
      right
      refine ⟨by rw [hcall], [], [], str.takeWhile (isDigitOf radix), ?_⟩
      rw [hcall]
      dsimp only
      rcases heats with ⟨rfl, c, hc, hsuffix⟩ | ⟨rfl, -⟩
      · rw [hbody] at hc
        refine ⟨[c], ⟨by simp, by simp, hdigits, fun d => List.mem_takeWhile_imp, ?_⟩,
          by rw [take_takeWhile_succ hc]; rfl⟩
        rcases hsuffix.resolve_right (h c hc) with ⟨rfl, hb⟩ | ⟨rfl, hx⟩
        · exact .inr (.inl ⟨rfl, by rcases hb with rfl | rfl <;> decide⟩)
        · exact .inr (.inr ⟨rfl, by rcases hx with rfl | rfl <;> decide⟩)
      · refine ⟨[], ⟨by simp, by simp, hdigits, fun d => List.mem_takeWhile_imp, .inl rfl⟩, ?_⟩
        rw [List.append_nil, Nat.add_zero]
        exact (List.prefix_iff_eq_take.1 (List.takeWhile_prefix _)).symm

theorem allOrNothing_octal : AllOrNothing "17B,".toList 0 8 := by
  have hhead : ∀ c ∈ "17B,".toList.head?, isWhite c = false ∧ c ≠ '-' ∧ c ≠ '+' := by
    rintro c ⟨⟩
    decide
  refine (allOrNothing_iff (by decide)).2 ⟨hhead, ?_⟩
  rw [if_neg (by decide)]
  rintro c hc ⟨-, rfl | ⟨rfl, h8⟩⟩
  · exact absurd hc (by decide)
  · exact h8 rfl

/-- An upper case `B` is taken after a decimal number. -/
theorem not_allOrNothing_decimal : ¬ AllOrNothing "12B".toList 0 10 := by
  have hforeign : IsForeign 10 'B' := ⟨by decide, .inr ⟨rfl, by decide⟩⟩
  rintro (h | ⟨-, white, sgn, ds, suffix, htoken, htake⟩)
  · exact absurd h (by decide)
  · refine not_isToken_foreign htoken (by decide) hforeign "12".toList ?_
    rw [← htake]
    decide

end Iraf.Fmtio.LongText
