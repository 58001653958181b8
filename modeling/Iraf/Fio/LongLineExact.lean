import Iraf.Fio.LongLineReads

/-!
# Which texts `getlongline` reads

No call returns a blank line, or a line that ends in a backslash and a newline.  In a text whose
lines all fit into one piece nothing else can be mistaken but the end of the text.
-/

namespace Iraf.Fio.LongLine

open Cells

variable {s : Reader} {op maxch : Int} {acc : Line} {ls : List Line}

/-! ## What no call returns -/

theorem lineChars_body (n : Nat) (text : List Int) : NEWLINE ∉ (lineChars n text).dropLast := by
  induction n generalizing text with
  | zero => exact List.not_mem_nil
  | succ n ih =>
      cases text with
      | nil => exact List.not_mem_nil
      | cons ch rest =>
          rw [lineChars]
          split
          · exact List.not_mem_nil
          · next hch =>
              rcases eq_or_ne (lineChars n rest) [] with hnil | hne
              · rw [hnil]
                exact List.not_mem_nil
              · rw [List.dropLast_cons_of_ne_nil hne, List.mem_cons, not_or]
                exact ⟨fun h => hch h.symm, ih rest⟩

theorem getline_piece (h : (getline s op).1 ≠ EOF) :
    0 < (getline s op).1 ∧ ∀ a, op ≤ a → a < op + (getline s op).1 - 1 →
      (getline s op).2.obuf a ≠ NEWLINE := by
  rw [getline] at h ⊢
  split at h
  · exact absurd rfl h
  · next hline =>
      have hpos := List.length_pos_iff.mpr hline
      rw [if_neg hline]
      dsimp only
      refine ⟨by omega, fun a hlow hhigh hnl => ?_⟩
      obtain ⟨i, rfl⟩ : ∃ i : Nat, a = op + i := ⟨(a - op).toNat, by omega⟩
      have hi : i < (lineChars szLine s.text).dropLast.length := by
        rw [List.length_dropLast]
        omega
      have hlen : (lineChars szLine s.text ++ [Fmtio.EOS]).length =
          (lineChars szLine s.text).length + 1 := List.length_append
      rw [put_of_mem i (by omega) rfl, List.getElem_append_left (by omega),
        ← List.getElem_dropLast hi] at hnl
      exact lineChars_body _ _ (hnl ▸ List.getElem_mem hi)

theorem nextLine_obuf (fuel : Nat) (s : Reader) {a : Int} (ha : a < op) :
    (nextLine fuel s op).2.obuf a = s.obuf a := by
  have hlast := @nextLine_last op fuel s
  generalize nextLine fuel s op = r at hlast ⊢
  cases hlast with
  | none hobuf => exact hobuf a ha
  | piece hlength hobuf htext hsame =>
      show Reader.obuf _ a = _
      rw [hsame, getline_obuf _ ha, hobuf a ha]

theorem nextLine_piece (fuel : Nat) (s : Reader) (h : (nextLine fuel s op).1 ≠ EOF) :
    0 < (nextLine fuel s op).1 ∧ ∀ a, op ≤ a → a < op + (nextLine fuel s op).1 - 1 →
      (nextLine fuel s op).2.obuf a ≠ NEWLINE := by
  have hlast := @nextLine_last op fuel s
  generalize nextLine fuel s op = r at hlast h ⊢
  cases hlast with
  | none => exact absurd rfl h
  | piece hlength hobuf htext hsame =>
      rw [hsame]
      exact getline_piece h

/-- A line that is returned with a newline has a char other than a backslash in front of it. -/
theorem joinLines_newline {fuel : Nat} {status : Int} {s' : Reader} (hop : 1 ≤ op)
    (hno : ∀ a, 1 ≤ a → a < op → s.obuf a ≠ NEWLINE)
    (h : joinLines fuel s maxch op = .ok (status, s')) (hstatus : 1 ≤ status)
    (hnl : s'.obuf status = NEWLINE) : 2 ≤ status ∧ s'.obuf (status - 1) ≠ BACKSLASH := by
  induction fuel generalizing s op with
  | zero =>
      obtain ⟨rfl, rfl⟩ := Prod.mk.inj (Except.ok.inj h)
      exact absurd hnl (hno _ hstatus (by omega))
  | succ fuel ih =>
      rw [joinLines] at h
      split at h
      · have hobuf : ∀ a, a < op → (nextLine (s.text.length + 1) s op).2.obuf a = s.obuf a :=
          fun a => nextLine_obuf _ s
        have hpiece := @nextLine_piece op (s.text.length + 1) s
        generalize nextLine (s.text.length + 1) s op = r at h hobuf hpiece
        obtain ⟨n, s₁⟩ := r
        dsimp only at h hobuf hpiece
        split at h
        · obtain ⟨hend, rfl⟩ := Prod.mk.inj (Except.ok.inj h)
          split at hend
          · rw [← hend] at hstatus
            exact absurd hstatus (by decide)
          · subst hend
            rw [hobuf _ (by omega)] at hnl
            exact absurd hnl (hno _ hstatus (by omega))
        · next heof =>
            obtain ⟨hpos, hbody⟩ := hpiece heof
            have hno₁ : ∀ a, 1 ≤ a → a < op + n - 1 → s₁.obuf a ≠ NEWLINE := by
              intro a hlow hhigh
              rcases lt_or_ge a op with hlt | hge
              · rw [hobuf a hlt]
                exact hno a hlow hlt
              · exact hbody a hge hhigh
            split at h
            · split at h
              · cases h
              · split at h
                · exact ih (by omega) (fun a hlow hhigh => hno₁ a hlow (by omega)) h
                · next hback =>
                    obtain ⟨rfl, rfl⟩ := Prod.mk.inj (Except.ok.inj h)
                    refine ⟨by omega, ?_⟩
                    rwa [show op + n - 1 - 1 = op + n - 2 by omega]
            · next hlast =>
                refine ih (by omega) (fun a hlow hhigh => ?_) h
                rcases lt_or_eq_of_le (show a ≤ op + n - 1 by omega) with hlt | rfl
                · exact hno₁ a hlow hlt
                · exact hlast
      · obtain ⟨rfl, rfl⟩ := Prod.mk.inj (Except.ok.inj h)
        exact absurd hnl (hno _ hstatus (by omega))

/-- The newline of a line has a char other than a backslash in front of it. -/
def Plain (L : Line) : Prop :=
  L.getLast? = some NEWLINE → ∃ u x, L = u ++ [x, NEWLINE] ∧ x ≠ BACKSLASH

theorem Returns.plain {lines : List Line} (h : Returns maxch s lines) :
    ∀ L ∈ lines, Plain L := by
  induction lines generalizing s with
  | nil => exact nofun
  | cons L lines ih =>
      obtain ⟨s', hcall, hspelled, hnext⟩ := h
      refine List.forall_mem_cons.mpr ⟨fun hlast => ?_, ih hnext⟩
      obtain ⟨t, rfl⟩ := List.getLast?_eq_some_iff.mp hlast
      have hnl : s'.obuf (t.length + 1) = NEWLINE := Spelled.cell hspelled (by simp)
      have hlen : ((t ++ [NEWLINE]).length : Int) = t.length + 1 := by simp
      rw [hlen] at hcall
      obtain ⟨htwo, hback⟩ := joinLines_newline le_rfl (fun a hlow hhigh => by omega) hcall
        (by omega) hnl
      obtain ⟨u, x, rfl⟩ := (t.eq_nil_or_concat').resolve_left (by rintro rfl; simp at htwo)
      refine ⟨u, x, by simp, fun hx => hback ?_⟩
      have hcell : s'.obuf (u.length + 1) = x := Spelled.cell hspelled (by simp)
      rw [← hx, ← hcell]
      congr 1
      simp

theorem blanksKept_of_plain {lines : List Line} (h : ∀ L ∈ joined acc lines, Plain L) :
    BlanksKept acc lines := by
  induction lines generalizing acc with
  | nil => trivial
  | cons l lines ih =>
      rw [joined] at h
      refine ⟨?_, ?_⟩
      · rintro rfl
        rw [if_neg (by decide), if_pos (by decide)] at h
        obtain ⟨u, x, heq, hx⟩ := h _ List.mem_cons_self (by simp)
        have hacc : acc = u ++ [x] := List.append_cancel_right (by simpa using heq)
        rw [hacc]
        exact ⟨by simp, by simpa using hx⟩
      · split
        · next hescaped =>
            rw [if_pos hescaped] at h
            exact ih h
        · next hescaped =>
            intro hnl
            rw [if_neg hescaped, if_pos hnl] at h
            exact ih fun L hL => h L (List.mem_cons_of_mem _ hL)

/-! ## Texts of short lines -/

theorem piecesKept_of_short (hshort : ∀ l ∈ ls, l.length ≤ szLine) (inside : Bool) :
    PiecesKept inside ls := by
  induction ls generalizing inside with
  | nil => cases inside <;> trivial
  | cons l ls ih =>
      obtain ⟨hl, hls⟩ := List.forall_mem_cons.mp hshort
      have hbreaks : ∀ P : Line → Prop, AtBreaks P l := by
        intro P k hk hlt
        have := Nat.le_mul_of_pos_left szLine hk
        omega
      cases inside with
      | true => exact ⟨hbreaks _, ih hls _⟩
      | false =>
          rw [PiecesKept]
          split
          · exact ⟨hbreaks _, ih hls _⟩
          · split
            · exact ⟨hbreaks _, ih hls _⟩
            · exact ⟨hbreaks _, ih hls _⟩

theorem visibleLines_subset (inside : Bool) : visibleLines inside ls ⊆ ls := by
  induction ls generalizing inside with
  | nil => cases inside <;> exact List.Subset.refl _
  | cons l ls ih =>
      cases inside with
      | true => exact List.subset_cons_of_subset _ (ih _)
      | false =>
          rw [visibleLines]
          split
          · exact List.subset_cons_of_subset _ (ih _)
          · split
            · exact List.subset_cons_of_subset _ (ih _)
            · exact List.cons_subset_cons _ (ih _)

theorem AtLine.endKept (h : AtLine s [] ls) (hsize : (szLine : Int) ≤ maxch)
    (hroom : ∀ L ∈ joined [] (visibleLines false ls), ((L.length + szLine : Nat) : Int) ≤ maxch)
    (hshort : ∀ l ∈ visibleLines false ls, l.length ≤ szLine) (hno : Fmtio.EOS ∉ s.text)
    (hreturns : Returns maxch s (joined [] (visibleLines false ls))) :
    EndKept [] (visibleLines false ls) := by
  generalize hlines : joined [] (visibleLines false ls) = lines at hroom hreturns
  induction lines generalizing s ls with
  | nil =>
      have hcalled := h.called rfl (absurd rfl) hsize (by rw [hlines]; exact hroom) (.inr hshort)
        (Nat.lt_succ_self _)
      generalize joinLines s.text.length.succ s maxch _ = res at hcalled
      cases hcalled with
      | eof _ hend => exact hend
      | line hline => exact absurd (hlines.symm.trans hline) nofun
      | torn hline => exact absurd (hlines.symm.trans hline) nofun
  | cons L lines ih =>
      have hcalled := h.called rfl (absurd rfl) hsize (by rw [hlines]; exact hroom) (.inr hshort)
        (Nat.lt_succ_self _)
      obtain ⟨s', hcall, hspelled, hnext⟩ := hreturns
      have hcalled' : Called s [] ls (.ok ((L.length : Int), s')) := by
        rw [← hcall]
        exact hcalled
      generalize hres : (Except.ok ((L.length : Int), s') : Except LongLineErr _) = res
        at hcalled'
      cases hcalled' with
      | eof hnone => exact absurd (hlines.symm.trans hnone) nofun
      | line hline _ hat hshort' htext hend =>
          obtain ⟨rfl, rfl⟩ := List.cons.inj (hlines.symm.trans hline)
          obtain ⟨-, rfl⟩ := Prod.mk.inj (Except.ok.inj hres)
          exact hend.mp (ih hat (hshort' hshort) (htext hno) rfl
            (fun L hL => hroom L (List.mem_cons_of_mem _ hL)) hnext)
      | torn hline _ hcell =>
          obtain ⟨rfl, -⟩ := List.cons.inj (hlines.symm.trans hline)
          obtain ⟨-, rfl⟩ := Prod.mk.inj (Except.ok.inj hres)
          have heos := congrArg (·[L.length]?) hspelled
          simp only [getElem?_fetch, if_pos (Nat.lt_succ_self _)] at heos
          rw [List.getElem?_append_right le_rfl, Nat.sub_self] at heos
          refine absurd ?_ (hcell hno)
          rw [Int.add_comm]
          exact Option.some.inj heos

/-- A text is read line by line when nothing in it is mistaken, and only then if all its lines
fit into one piece. -/
theorem getlongline_reads (s : Reader) (maxch : Int) (hsize : (szLine : Int) ≤ maxch)
    (hroom : ∀ L ∈ logicalLines s.text, ((L.length + szLine : Nat) : Int) ≤ maxch) :
    (WellRead s.text → Returns maxch s (logicalLines s.text)) ∧
      ((∀ l ∈ physicalLines s.text, l.length ≤ szLine) → Fmtio.EOS ∉ s.text →
        Returns maxch s (logicalLines s.text) → WellRead s.text) := by
  have hflat := (flatten_physicalLines s.text).symm
  have hbroken := wellBroken_physicalLines s.text
  constructor
  · rintro ⟨hpieces, hblanks, hends⟩
    exact AtLine.returns ⟨hflat, hbroken, hpieces, hblanks⟩ hsize hroom hends
  · intro hshort hno hreturns
    have hpieces := piecesKept_of_short hshort false
    have hblanks := blanksKept_of_plain hreturns.plain
    refine ⟨hpieces, hblanks, ?_⟩
    exact AtLine.endKept ⟨hflat, hbroken, hpieces, hblanks⟩ hsize hroom
      (fun l hl => hshort l (visibleLines_subset _ hl)) hno hreturns

/-- A line with an escaped newline, a comment and the rest of the line. -/
def escapedText : List Int := [97, 98, 92, 10, 35, 10, 99, 100, 10]

theorem getlongline_reads_escapedText :
    (WellRead escapedText →
      Returns 1100 ⟨escapedText, fun _ => 0, 0⟩ (logicalLines escapedText)) ∧
    ((∀ l ∈ physicalLines escapedText, l.length ≤ szLine) → Fmtio.EOS ∉ escapedText →
      Returns 1100 ⟨escapedText, fun _ => 0, 0⟩ (logicalLines escapedText) →
      WellRead escapedText) :=
  getlongline_reads ⟨escapedText, fun _ => 0, 0⟩ 1100 (by decide) (by decide)

/-- A line with two backslashes at its end, a blank line that is joined to it, and another line. -/
def blankText : List Int := [97, 98, 99, 92, 92, 10, 10, 100, 101, 102, 10]

/-- The newline of the blank line is taken for an escaped one, and the next line is joined. -/
theorem not_returns_blankText :
    (∀ L ∈ logicalLines blankText, ((L.length + szLine : Nat) : Int) ≤ 1100) ∧
      ¬ Returns 1100 ⟨blankText, fun _ => 0, 0⟩ (logicalLines blankText) := by
  refine ⟨by decide, ?_⟩
  have hlines : logicalLines blankText =
      [[97, 98, 99, 92, 10], [100, 101, 102, 10]] := by decide
  have hstatus : (getlongline ⟨blankText, fun _ => 0, 0⟩ 1100).map Prod.fst = .ok 7 := by decide
  rw [hlines]
  rintro ⟨s', hcall, -⟩
  rw [hcall] at hstatus
  cases hstatus

end Iraf.Fio.LongLine
