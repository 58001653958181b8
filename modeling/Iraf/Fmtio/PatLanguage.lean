import Iraf.Fmtio.PatEnds

/-!
# The language of a pattern

What the comments in `patmatch.x` say of the elements, on the places of a text.
The search is sound for this language.  It is complete for the readings of a
text in which every element is taken as the matcher takes it.
-/

namespace Iraf.Fmtio

variable {str : Text} {e : Elem} {items : List Item} {i j k : Int} {c : Int} {newline : Bool}

/-! ## The language -/

/-- A letter in one case. -/
def fold (c : Int) : Int := if IS_UPPER c then TO_LOWER c else c

/-- The chars that an element stands for.  The comments do not say whether a
negated class takes a newline. -/
def Elem.means (newline : Bool) : Elem → Int → Bool
  | char a, c => decide (c = a)
  | uchar a, c | lchar a, c => decide (fold c = fold a)
  | any, c => decide (c ≠ NEWLINE)
  | ccl chars, c => decide (c ∈ chars)
  | nccl chars, c => (newline || decide (c ≠ NEWLINE)) && decide (c ∉ chars)
  | bol, _ | eol, _ | whitespace, _ | index, _ => false

/-- The element stands for the chars from `i` up to `j`. -/
def Elem.Denotes (newline : Bool) (str : Text) (e : Elem) (i j : Int) : Prop :=
  match e with
  | index => j = i
  | bol => i = 1 ∧ j = i
  | eol => (str.char i = EOS ∨ str.char i = NEWLINE) ∧ j = i
  | whitespace => i ≤ j ∧ ∀ k, i ≤ k → k < j → IS_WHITE (str.char k) = true
  | e => (str.char i ≠ EOS ∧ e.means newline (str.char i) = true) ∧ j = i + 1

/-- The items have a reading of the text from `i` up to `j`. -/
def Reads (R : Elem → Int → Int → Prop) : List Item → Int → Int → Prop
  | [], i, j => i = j
  | .one e :: items, i, j => ∃ k, R e i k ∧ Reads R items k j
  | .many e :: items, i, j =>
      ∃ k, i ≤ k ∧ (∀ m, i ≤ m → m < k → R e m (m + 1)) ∧ Reads R items k j

/-- The places of the chars of a string. -/
def Position (str : Text) (i : Int) : Prop := 1 ≤ i ∧ ∀ k, 1 ≤ k → k ≤ i → str.char k ≠ EOS

/-- A non-empty part of the text begins here. -/
def Starts (R : Elem → Int → Int → Prop) (items : List Item) (i : Int) : Prop :=
  ∃ j, i < j ∧ Reads R items i j

/-! ## What the matcher takes -/

/-- Whitespace does not stand at the end of the string and takes all there is; a
letter that is matched in either case was written in the case of its code; and a
negated class takes no newline. -/
def Elem.Plain (str : Text) (e : Elem) (i j : Int) : Prop :=
  match e with
  | whitespace => str.char i ≠ EOS ∧ IS_WHITE (str.char j) = false
  | uchar a => IS_LOWER a = false
  | lchar a => IS_UPPER a = false
  | nccl _ => str.char i ≠ NEWLINE
  | _ => True

def Elem.Taken (newline : Bool) (str : Text) (e : Elem) (i j : Int) : Prop :=
  e.Denotes newline str i j ∧ e.Plain str i j

theorem Text.skip_eq_iff (str : Text) {p : Int → Bool} (hp : p EOS = false) :
    str.skip p i = j ↔ i ≤ j ∧ (∀ k, i ≤ k → k < j → p (str.char k) = true) ∧ p (str.char j) = false := by
  induction i using str.skip_induction hp with
  | stop i h =>
      rw [str.skip_eq hp, h]
      constructor
      · rintro rfl
        exact ⟨le_rfl, fun k hk hk' => absurd hk' (by simpa using hk), h⟩
      · rintro ⟨hle, hall, -⟩
        rcases hle.eq_or_lt with heq | hlt
        · exact heq
        · exact absurd (hall i le_rfl hlt) (by rw [h]; decide)
  | next i h ih =>
      rw [str.skip_eq hp, if_pos h, ih]
      constructor
      · rintro ⟨hle, hall, hend⟩
        refine ⟨by omega, fun k hk hk' => ?_, hend⟩
        rcases hk.eq_or_lt with rfl | hlt
        · exact h
        · exact hall k hlt hk'
      · rintro ⟨hle, hall, hend⟩
        rcases hle.eq_or_lt with rfl | hlt
        · rw [h] at hend
          cases hend
        · exact ⟨hlt, fun k hk hk' => hall k (by omega) hk', hend⟩

theorem fold_uchar (h : IS_LOWER c = false) (a : Int) :
    fold a = fold c ↔ (if IS_LOWER a then TO_UPPER a else a) = c := by
  simp only [fold, IS_UPPER, IS_LOWER, TO_LOWER, TO_UPPER, Bool.and_eq_true, decide_eq_true_eq,
    Bool.and_eq_false_iff, decide_eq_false_iff_not] at *
  split_ifs <;> omega

theorem fold_lchar (h : IS_UPPER c = false) (a : Int) : fold a = fold c ↔ fold a = c := by
  simp only [fold, h, Bool.false_eq_true, if_false]

theorem not_lower_of_upper (a : Int) : IS_LOWER (if IS_LOWER a then TO_UPPER a else a) = false := by
  simp only [IS_LOWER, TO_UPPER, Bool.and_eq_true, decide_eq_true_eq, Bool.and_eq_false_iff,
    decide_eq_false_iff_not]
  split_ifs <;> omega

theorem not_upper_fold (a : Int) : IS_UPPER (fold a) = false := by
  simp only [fold, IS_UPPER, TO_LOWER, Bool.and_eq_true, decide_eq_true_eq, Bool.and_eq_false_iff,
    decide_eq_false_iff_not]
  split_ifs <;> omega

theorem Elem.at_iff (hne : str.char 1 ≠ EOS) : e.at str i = some j ↔ e.Taken newline str i j := by
  cases e with
  | index => simp [Elem.at, Taken, Denotes, Plain, eq_comm]
  | eol => simp [Elem.at, Taken, Denotes, Plain, eq_comm (a := i)]
  | bol =>
      simp only [Elem.at, Taken, Denotes, Plain, Option.ite_none_right_eq_some, Option.some.injEq,
        and_true]
      constructor
      · rintro ⟨⟨-, rfl⟩, rfl⟩
        exact ⟨rfl, rfl⟩
      · rintro ⟨rfl, rfl⟩
        exact ⟨⟨hne, rfl⟩, rfl⟩
  | whitespace =>
      simp only [Elem.at, Taken, Denotes, Plain, Option.ite_none_right_eq_some, Option.some.injEq,
        str.skip_eq_iff isWhite_EOS]
      tauto
  | char a => simp [Elem.at, Taken, Denotes, Plain, accepts, means, eq_comm (a := i + 1)]
  | any => simp [Elem.at, Taken, Denotes, Plain, accepts, means, eq_comm (a := i + 1)]
  | ccl chars => simp [Elem.at, Taken, Denotes, Plain, accepts, means, eq_comm (a := i + 1)]
  | nccl chars =>
      simp only [Elem.at, Taken, Denotes, Plain, accepts, means, Option.ite_none_right_eq_some,
        Option.some.injEq, Bool.and_eq_true, Bool.or_eq_true, decide_eq_true_eq]
      tauto
  | uchar a =>
      simp only [Elem.at, Taken, Denotes, Plain, accepts, means, Option.ite_none_right_eq_some,
        Option.some.injEq, decide_eq_true_eq]
      constructor
      · rintro ⟨⟨hchar, hc⟩, rfl⟩
        have ha : IS_LOWER a = false := by
          rw [← hc]
          exact not_lower_of_upper _
        exact ⟨⟨⟨hchar, (fold_uchar ha _).2 hc⟩, rfl⟩, ha⟩
      · rintro ⟨⟨⟨hchar, hc⟩, rfl⟩, ha⟩
        exact ⟨⟨hchar, (fold_uchar ha _).1 hc⟩, rfl⟩
  | lchar a =>
      simp only [Elem.at, Taken, Denotes, Plain, accepts, means, Option.ite_none_right_eq_some,
        Option.some.injEq, decide_eq_true_eq]
      constructor
      · rintro ⟨⟨hchar, hc⟩, rfl⟩
        have ha : IS_UPPER a = false := by
          rw [← hc]
          exact not_upper_fold _
        exact ⟨⟨⟨hchar, (fold_lchar ha _).2 hc⟩, rfl⟩, ha⟩
      · rintro ⟨⟨⟨hchar, hc⟩, rfl⟩, ha⟩
        exact ⟨⟨hchar, (fold_lchar ha _).1 hc⟩, rfl⟩

/-! ## The search -/

/-- Every star is on an element that takes a char. -/
def Closures (items : List Item) : Prop := ∀ e, .many e ∈ items → e.consumes

/-- A closure keeps the start and the length of its run in a char each: those that the
items have behind `i` fit. -/
def Counted (newline : Bool) (str : Text) : List Item → Int → Prop
  | [], _ => True
  | .one e :: items, i => ∀ k, e.Taken newline str i k → Counted newline str items k
  | .many e :: items, i =>
      (e.runEnd str i = i ∨ IsShort i ∧ IsShort (e.runEnd str i - i)) ∧
        ∀ k, i ≤ k → k ≤ e.runEnd str i → Counted newline str items k

theorem Closures.tail {item : Item} (h : Closures (item :: items)) : Closures items :=
  fun e he => h e (List.mem_cons_of_mem item he)

theorem Elem.taken_iff_runs (hne : str.char 1 ≠ EOS) (he : e.consumes) :
    e.Taken newline str i (i + 1) ↔ e.runs (str.char i) = true := by
  rw [← Elem.at_iff hne, Elem.at_of_consumes he]
  simp

theorem Elem.le_of_taken (h : e.Taken newline str i j) : i ≤ j := by
  obtain ⟨h, -⟩ := h
  cases e <;> simp only [Denotes] at h <;> omega

theorem Reads.le (h : Reads (fun e => e.Taken newline str) items i j) : i ≤ j := by
  induction items generalizing i with
  | nil => exact le_of_eq h
  | cons item items ih =>
      cases item with
      | one e =>
          obtain ⟨k, htaken, hrest⟩ := h
          exact (Elem.le_of_taken htaken).trans (ih hrest)
      | many e =>
          obtain ⟨k, hle, -, hrest⟩ := h
          exact hle.trans (ih hrest)

theorem run_iff (hne : str.char 1 ≠ EOS) (he : e.consumes) :
    (∀ m, i ≤ m → m < k → e.Taken newline str m (m + 1)) ↔ k ≤ e.runEnd str i := by
  obtain ⟨-, hall, hend⟩ := (str.skip_eq_iff e.runs_EOS (i := i)).1 rfl
  constructor
  · intro hrun
    by_contra hlt
    have htaken := hrun (e.runEnd str i) (str.le_skip e.runs_EOS i) (by omega)
    rw [Elem.taken_iff_runs hne he] at htaken
    exact Bool.false_ne_true (hend.symm.trans htaken)
  · intro hk m hm hm'
    exact (Elem.taken_iff_runs hne he).2 (hall m hm (lt_of_lt_of_le hm' hk))

end Iraf.Fmtio
