import Mathlib.Data.List.TakeDrop
import Mathlib.Data.List.Infix
import Mathlib.Tactic.Common

/-!
# Lines of text

Lines are written one after the other, each with a terminator.  A reader that
stands anywhere in such a text finds the start of a line after the next
terminator.
-/

namespace Iraf.TextLines

variable {α : Type*} [DecidableEq α] {nl : α} {lines : List (List α)} {l s : List α}

def joinLines (nl : α) (lines : List (List α)) : List α :=
  lines.flatMap (· ++ [nl])

/-- What follows the next terminator. -/
def nextLine (nl : α) (s : List α) : List α := (s.dropWhile (· ≠ nl)).tail

omit [DecidableEq α] in
@[simp] theorem joinLines_nil : joinLines nl [] = [] := rfl

omit [DecidableEq α] in
@[simp] theorem joinLines_cons :
    joinLines nl (l :: lines) = l ++ nl :: joinLines nl lines := by
  simp [joinLines]

omit [DecidableEq α] in
theorem joinLines_append {more : List (List α)} :
    joinLines nl (lines ++ more) = joinLines nl lines ++ joinLines nl more :=
  List.flatMap_append

/-! ## Finding the next line -/

@[simp] theorem nextLine_nil : nextLine nl [] = [] := rfl

theorem dropWhile_line (h : nl ∉ l) :
    (l ++ nl :: s).dropWhile (· ≠ nl) = nl :: s := by
  induction l with
  | nil => simp
  | cons c l ih =>
      have hc : c ≠ nl := fun heq => h (by simp [heq])
      have hl : nl ∉ l := fun hmem => h (List.mem_cons_of_mem _ hmem)
      rw [List.cons_append, List.dropWhile_cons_of_pos (by simpa using hc)]
      exact ih hl

theorem takeWhile_line (h : nl ∉ l) : (l ++ nl :: s).takeWhile (· ≠ nl) = l := by
  have happ := List.takeWhile_append_dropWhile (p := (· ≠ nl)) (l := l ++ nl :: s)
  rw [dropWhile_line h] at happ
  exact List.append_cancel_right happ

theorem nextLine_line (h : nl ∉ l) : nextLine nl (l ++ nl :: s) = s := by
  rw [nextLine, dropWhile_line h, List.tail_cons]

theorem nextLine_shorter (h : s ≠ []) : (nextLine nl s).length < s.length := by
  have hdrop := (List.dropWhile_suffix (l := s) (· ≠ nl)).length_le
  have hpos := List.length_pos_iff.2 h
  rw [nextLine, List.length_tail]
  omega

omit [DecidableEq α] in
theorem suffix_line {t : List α} (h : s <:+ l ++ nl :: t) :
    (∃ q, q <:+ l ∧ s = q ++ nl :: t) ∨ s <:+ t := by
  induction l with
  | nil =>
      obtain h | h := List.suffix_cons_iff.1 h
      · exact .inl ⟨[], List.suffix_rfl, h⟩
      · exact .inr h
  | cons c l ih =>
      obtain h | h := List.suffix_cons_iff.1 h
      · exact .inl ⟨c :: l, List.suffix_rfl, h⟩
      · obtain ⟨q, hq, hs⟩ | hs := ih h
        · exact .inl ⟨q, hq.trans (List.suffix_cons c l), hs⟩
        · exact .inr hs

/-- From anywhere in a text of whole lines the next line is a line of the text,
and the text ends there if there is none. -/
theorem nextLine_joinLines (h : ∀ l ∈ lines, nl ∉ l) (hs : s <:+ joinLines nl lines) :
    ∃ j, nextLine nl s = joinLines nl (lines.drop j) ∧ (lines ≠ [] → 0 < j) := by
  induction lines with
  | nil =>
      rw [joinLines_nil, List.suffix_nil] at hs
      exact ⟨0, by simp [hs], fun hne => absurd rfl hne⟩
  | cons l lines ih =>
      rw [joinLines_cons] at hs
      obtain ⟨q, hq, rfl⟩ | hs := suffix_line hs
      · have hnl : nl ∉ q := fun hmem => h l List.mem_cons_self (hq.subset hmem)
        exact ⟨1, nextLine_line hnl, fun _ => Nat.one_pos⟩
      · have hlines : ∀ l' ∈ lines, nl ∉ l' := fun l' hl' => h l' (List.mem_cons_of_mem _ hl')
        obtain ⟨j, hj, -⟩ := ih hlines hs
        exact ⟨j + 1, hj, fun _ => Nat.succ_pos j⟩

omit [DecidableEq α] in
theorem count_joinLines [BEq α] [LawfulBEq α] (h : ∀ l ∈ lines, nl ∉ l) :
    (joinLines nl lines).count nl = lines.length := by
  induction lines with
  | nil => rfl
  | cons l lines ih =>
      rw [joinLines_cons, List.count_append, List.count_cons_self,
        List.count_eq_zero.2 (h l List.mem_cons_self),
        ih fun l' hl' => h l' (List.mem_cons_of_mem _ hl'), List.length_cons]
      omega

omit [DecidableEq α] in
/-- Texts that begin with a whole line each begin with the same line when they
are equal. -/
theorem line_inj {l' s' : List α} (h : nl ∉ l) (h' : nl ∉ l')
    (heq : l ++ nl :: s = l' ++ nl :: s') : l = l' ∧ s = s' := by
  induction l generalizing l' with
  | nil =>
      cases l' with
      | nil => simpa using heq
      | cons c l' =>
          rw [List.nil_append, List.cons_append, List.cons.injEq] at heq
          exact absurd (List.mem_cons_self) (heq.1 ▸ h')
  | cons c l ih =>
      cases l' with
      | nil =>
          rw [List.cons_append, List.nil_append, List.cons.injEq] at heq
          exact absurd (List.mem_cons_self) (heq.1 ▸ h)
      | cons c' l' =>
          rw [List.cons_append, List.cons_append, List.cons.injEq] at heq
          have hrec := ih (fun hmem => h (List.mem_cons_of_mem _ hmem))
            (fun hmem => h' (List.mem_cons_of_mem _ hmem)) heq.2
          exact ⟨by rw [heq.1, hrec.1], hrec.2⟩

end Iraf.TextLines
