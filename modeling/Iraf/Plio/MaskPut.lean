import Iraf.Plio.LinePut
import Iraf.Plio.Section

/-!
# Masks written with pl_plp

`pl_plp` finds the line, makes a new line list and stores it.  A mask that was sized and
whose lines were written so draws the lines written.
-/

namespace Iraf.Plio

/-- What `pl_plp` reads of the mask. -/
def Mask.linePut (m : Mask) (v : List Int) (pxDepth npix rop old : Int) : LinePut :=
  { maxval := m.maxval, axlen := m.axlenAt 1, old := m.ll old, v1 := word v 1,
    depth := pxDepth, npix := npix, rop := rop }

/-- `pl_plp` on a mask. -/
def Mask.plPlp (m : Mask) (v : List Int) (px : Int → Int) (pxDepth npix rop : Int)
    (bp : Address) : Except PlErr Mask :=
  if (m.linePut v pxDepth npix rop 0).Direct then plUpdate m v (plP2l px 1 npix) bp
  else do
    let old ← plReference m v
    plUpdate m v (Plio.plPlp (m.linePut v pxDepth npix rop old) px) bp

/-- A mask sized by `pl_ssize`, whose lines were written by `pl_plp` in lists that encode
the line in full. -/
inductive Written (axlen : List Int) : Mask → List (List Int) → Prop where
  | sized {pl m : Mask} {depth : Int} {bp : Address} (hpl : Descriptor pl)
      (hempty : EmptyLineFits (word axlen 1)) (hm : plSsize pl axlen depth bp = .ok m) :
      Written axlen m (picture axlen [])
  | plp {m m' : Mask} {rows : List (List Int)} {v line : List Int} {px : Int → Int}
      {pxDepth npix rop old : Int} {bp : Address} (h : Written axlen m rows)
      (hv : OnLine axlen v) (hold : plReference m v = .ok old)
      (hline : Encodes (Plio.plPlp (m.linePut v pxDepth npix rop old) px) line)
      (hfull : line.length = (word axlen 1).toNat)
      (hm : m.plPlp v px pxDepth npix rop bp = .ok m') :
      Written axlen m' (rows.set (lineNumber axlen v) line)

theorem Mask.plPlp_eq {m : Mask} {v : List Int} {old : Int} (hold : plReference m v = .ok old)
    (px : Int → Int) (pxDepth npix rop : Int) (bp : Address) :
    m.plPlp v px pxDepth npix rop bp =
      plUpdate m v (Plio.plPlp (m.linePut v pxDepth npix rop old) px) bp := by
  unfold Mask.plPlp
  split
  case isTrue hdirect =>
    have hdirect' : (m.linePut v pxDepth npix rop old).Direct := hdirect
    rw [Plio.plPlp, LinePut.store, if_pos hdirect']
    rfl
  case isFalse =>
    rw [hold]
    rfl

theorem Written.inv {axlen : List Int} (hax : Axes axlen) {m : Mask} {rows : List (List Int)}
    (h : Written axlen m rows) : ∃ acc s, MaskInv axlen acc rows m s ∧
      ∀ line ∈ rows, line.length = (word axlen 1).toNat := by
  induction h with
  | sized hpl hempty hm =>
      obtain ⟨m, s, hm', hinv⟩ := plSsize_inv hpl.counts hax hempty _ _
      obtain rfl := Except.ok.inj (hm.symm.trans hm')
      exact ⟨_, s, hinv, (length_picture axlen []).2⟩
  | plp _ hv hold hline hfull hm ih =>
      obtain ⟨acc, s, hinv, hrows⟩ := ih
      obtain ⟨is, hpacks, rfl⟩ := encodes_iff.mp hline
      rw [Mask.plPlp_eq hold] at hm
      obtain ⟨m', s', hm', hinv'⟩ := hinv.update hax hv hpacks _
      obtain rfl := Except.ok.inj (hm.symm.trans hm')
      refine ⟨acc, s', hinv', fun row hrow => ?_⟩
      rcases List.mem_or_eq_of_mem_set hrow with hrow | rfl
      · exact hrows row hrow
      · exact hfull

theorem Written.draws {axlen : List Int} (hax : Axes axlen) {m : Mask}
    {rows : List (List Int)} (h : Written axlen m rows) : m.Draws axlen rows := by
  obtain ⟨acc, s, hinv, hrows⟩ := h.inv hax
  exact hinv.draws hrows

end Iraf.Plio
