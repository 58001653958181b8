import Iraf.Imio.Imisec
import Mathlib.Data.List.DropRight

/-!
# Reading image sections

A subscript that `im_decode_subscript` accepts is a field of the section.
-/

namespace Iraf.Imio.SectionText

open Fmtio.LongText Imdes

variable {str ip rest text after : List Char} {c : Char} {n : Nat}

theorem Blanks.append {a b : List Char} (ha : Blanks a) (hb : Blanks b) : Blanks (a ++ b) :=
  fun c hc => (List.mem_append.1 hc).elim (ha c) (hb c)

/-- The chars that do not end a field. -/
def InField (text : List Char) : Prop := ',' ∉ text ∧ ']' ∉ text

theorem inField_append {a b : List Char} : InField (a ++ b) ↔ InField a ∧ InField b := by
  simp only [InField, List.mem_append, not_or]
  exact and_and_and_comm

theorem inField_cons : InField (c :: text) ↔ (c ≠ ',' ∧ c ≠ ']') ∧ InField text := by
  simp only [InField, List.mem_cons, not_or, ne_comm (a := c)]
  exact and_and_and_comm

theorem inField_nil : InField [] := ⟨nofun, nofun⟩

theorem Blanks.inField (h : Blanks text) : InField text :=
  ⟨fun hc => absurd (h _ hc) (by decide), fun hc => absurd (h _ hc) (by decide)⟩

theorem inField_digits (h : ∀ c ∈ text, c.isDigit = true) : InField text :=
  ⟨fun hc => absurd (h _ hc) (by decide), fun hc => absurd (h _ hc) (by decide)⟩

theorem Number.inField {x : Int} (h : Number text x) : InField text := by
  cases h with
  | plain _ h => exact inField_digits h
  | plus _ h => exact inField_cons.2 ⟨by decide, inField_digits h⟩
  | minus _ h => exact inField_cons.2 ⟨by decide, inField_digits h⟩

theorem RangeText.inField {range : Range} (h : RangeText text range) : InField text := by
  cases h with
  | all => exact inField_nil
  | star => exact inField_cons.2 ⟨by decide, inField_nil⟩
  | down => exact inField_cons.2 ⟨by decide, inField_nil⟩
  | flip => exact inField_cons.2 ⟨by decide, inField_cons.2 ⟨by decide, inField_nil⟩⟩
  | single h => exact h.inField
  | pair h hb hb' h' =>
      exact inField_append.2 ⟨h.inField, inField_append.2 ⟨hb.inField,
        inField_cons.2 ⟨by decide, inField_append.2 ⟨hb'.inField, h'.inField⟩⟩⟩⟩

theorem FieldText.inField {f : Field} (h : FieldText text f) : InField text := by
  cases h with
  | range ha h hb =>
      exact inField_append.2 ⟨ha.inField, inField_append.2 ⟨h.inField, hb.inField⟩⟩
  | step ha h _ hb hc h' hd =>
      exact inField_append.2 ⟨ha.inField, inField_append.2 ⟨h.inField,
        inField_append.2 ⟨hb.inField, inField_cons.2 ⟨by decide,
          inField_append.2 ⟨hc.inField, inField_append.2 ⟨h'.inField, hd.inField⟩⟩⟩⟩⟩⟩

/-! ## The text up to the end of the section -/

theorem inner_append (h : InField text) (rest : List Char) :
    inner (text ++ rest) = text ++ inner rest := by
  rw [inner, List.takeWhile_append_of_pos]
  · rfl
  · intro c hc
    rw [decide_eq_true_eq]
    exact fun hceq => h.2 (hceq ▸ hc)

theorem inner_comma (rest : List Char) : inner (',' :: rest) = ',' :: inner rest :=
  List.takeWhile_cons_of_pos (by decide)

theorem inner_colon (rest : List Char) : inner (':' :: rest) = ':' :: inner rest :=
  List.takeWhile_cons_of_pos (by decide)

/-- There is no INDEF in the section from here on. -/
def NoIndef (ip : List Char) : Prop := ¬indef <:+: inner ip

theorem NoIndef.drop (h : NoIndef (text ++ rest)) (hin : InField text) : NoIndef rest := by
  intro hrest
  rw [NoIndef, inner_append hin] at h
  exact h (hrest.trans (List.suffix_append text _).isInfix)

theorem NoIndef.colon (h : NoIndef (':' :: rest)) : NoIndef rest := by
  intro hrest
  rw [NoIndef, inner_colon] at h
  exact h (hrest.trans (List.suffix_cons ':' _).isInfix)

theorem NoIndef.comma (h : NoIndef (',' :: rest)) : NoIndef rest := by
  intro hrest
  rw [NoIndef, inner_comma] at h
  exact h (hrest.trans (List.suffix_cons ',' _).isInfix)

/-- The chars after a field. -/
inductive Ends : List Char → List Char → Prop
  | comma (rest : List Char) : Ends (',' :: rest) rest
  | bracket (after : List Char) : Ends (']' :: after) (']' :: after)

end Iraf.Imio.SectionText
