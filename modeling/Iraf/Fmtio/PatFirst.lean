import Iraf.Fmtio.PatCompile
import Iraf.Fmtio.PatLanguage

/-!
# Matching anywhere on a line

`gpatmatch` tries the places of the string from the left.  Where every star is on
an element that takes a char, it stops at the first place where the pattern can be
read, and what it finds there is in the language of the pattern.
-/

namespace Iraf.Fmtio

open Iraf.StepMachine

variable {str : Text} {items : List Item} {pieces : List Piece} {pat : Pat}
  {i j stop count : Int} {newline : Bool}

/-! ## Readings -/

theorem Reads.imp {R R' : Elem → Int → Int → Prop} (h : ∀ e i j, R e i j → R' e i j)
    (hreads : Reads R items i j) : Reads R' items i j := by
  induction items generalizing i with
  | nil => exact hreads
  | cons item items ih =>
      cases item with
      | one e =>
          obtain ⟨k, he, hrest⟩ := hreads
          exact ⟨k, h e i k he, ih hrest⟩
      | many e =>
          obtain ⟨k, hle, hrun, hrest⟩ := hreads
          exact ⟨k, hle, fun m hm hm' => h e m (m + 1) (hrun m hm hm'), ih hrest⟩

/-- The pattern consists of the items. -/
def Whole (pat : Pat) (items : List Item) : Prop :=
  ∃ last, Layout pat items 1 0 pat.size last ∧ pat.word pat.size = EOP

theorem Whole.amatch (h : Whole pat items) (str : Text) (first : Int) :
    ∃ pat', Whole pat' items ∧ Ends (amatchStep str first) ⟨.head 1 first 0, pat⟩
      (.ok ((firstMatch str items first).elim 0 (· - first), pat')) := by
  obtain ⟨last, hlayout, hend⟩ := h
  have hsearch : SearchesFrom str first items 1 0 pat.size last := searches_items items 1 0
  obtain ⟨pat', hkept, hlayout', hreach⟩ := hsearch first pat hlayout
  have hend' : pat'.word pat.size = EOP := by rw [hkept.word _ (Or.inr le_rfl), hend]
  refine ⟨pat', ⟨last, by rwa [hkept.size], by rwa [hkept.size]⟩, ?_⟩
  cases hfound : firstMatch str items first with
  | none =>
      rw [hfound, settled_none] at hreach
      exact hreach.ends_iff.mpr (ends_result step_empty)
  | some offset =>
      rw [hfound, settled_some] at hreach
      exact hreach.ends_iff.mpr (ends_result (step_end hlayout.le (hkept.size ▸ le_rfl) hend'))

/-- The first place from `ip` on where a match is not empty, or the end of the string. -/
structure FirstFound (str : Text) (items : List Item) (ip stop count : Int) : Prop where
  le : ip ≤ stop
  before : ∀ k, ip ≤ k → k < stop →
    str.char k ≠ EOS ∧ ∀ l, firstMatch str items k = some l → l ≤ k
  found : 0 < count → str.char stop ≠ EOS ∧ firstMatch str items stop = some (stop + count)
  ended : count ≤ 0 → str.char stop = EOS

theorem FirstFound.atEnd (h : str.char i = EOS) : FirstFound str items i i 0 :=
  ⟨le_rfl, fun _ hk hk' => absurd hk (not_le.2 hk'), fun h => absurd h (lt_irrefl _), fun _ => h⟩

theorem Whole.gpatmatchFrom (h : Whole pat items) (places : Nat) {ip : Int}
    (hplaces : (str.extent : Int) < ip + places) :
    ∃ fuel stop count pat', FirstFound str items ip stop count ∧
      ∀ extra, gpatmatchFrom (fuel + extra) str places ip pat = some (.ok (stop, count, pat')) := by
  induction places generalizing ip pat with
  | zero => exact ⟨0, ip, 0, pat, .atEnd (str.ends ip (by simpa using hplaces)), fun extra => rfl⟩
  | succ places ih =>
      by_cases hc : str.char ip = EOS
      · exact ⟨0, ip, 0, pat, .atEnd hc, fun extra => by simp [Fmtio.gpatmatchFrom, hc]⟩
      obtain ⟨pat', hwhole, fuel, hrun⟩ := h.amatch str ip
      by_cases hcount : (firstMatch str items ip).elim 0 (· - ip) > 0
      · refine ⟨fuel, ip, _, pat', ⟨le_rfl, fun k hk hk' => absurd hk (not_le.2 hk'),
          fun _ => ⟨hc, ?_⟩, fun hle => absurd hcount (not_lt.2 hle)⟩, fun extra => ?_⟩
        · cases hfound : firstMatch str items ip with
          | none => simp [hfound] at hcount
          | some l => simp
        · simp [Fmtio.gpatmatchFrom, hc, pat_amatch, run_mono hrun, hcount]
      · have hplaces' : (str.extent : Int) < ip + 1 + places := by
          push_cast at hplaces
          omega
        obtain ⟨fuel', stop, count, pat'', hstops, hrest⟩ := ih hwhole hplaces'
        refine ⟨fuel + fuel', stop, count, pat'', ⟨by have := hstops.le; omega, fun k hk hk' => ?_,
          hstops.found, hstops.ended⟩, fun extra => ?_⟩
        · rcases hk.eq_or_lt with rfl | hlt
          · refine ⟨hc, fun l hl => ?_⟩
            rw [hl, Option.elim_some] at hcount
            omega
          · exact hstops.before k (by omega) hk'
        · have hrest' := hrest (fuel + extra)
          rw [show fuel' + (fuel + extra) = fuel + fuel' + extra by omega] at hrest'
          have hrun' : run (amatchStep str ip) (fuel + fuel' + extra) ⟨.head 1 ip 0, pat⟩ =
              some (.ok ((firstMatch str items ip).elim 0 (· - ip), pat')) := by
            rw [Nat.add_assoc]
            exact run_mono hrun
          simp [Fmtio.gpatmatchFrom, hc, pat_amatch, hrun', hcount, hrest']

/-! ## The first reading -/

theorem Position.ne (h : Position str i) : str.char 1 ≠ EOS := h.2 1 le_rfl h.1

end Iraf.Fmtio
