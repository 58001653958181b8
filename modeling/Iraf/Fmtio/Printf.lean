import Iraf.Fmtio.Ctol

/-!
# Formatted output

The strings, blanks and columns of `fprfmt.x`: `fmtstr`, `fmt_setcol` and the
advance to a column.  The output is the list of its chars.
-/

namespace Iraf.Fmtio

open LongText

def szObuf : Nat := 1024
def tabstop : Int := 8

def isPrint (c : Char) : Bool := ' ' ≤ c && c < Char.ofNat 127

theorem isPrint_toUpper {c : Char} (h : isPrint c = true) : isPrint c.toUpper = true := by
  unfold Char.toUpper
  split
  · rename_i hlower
    have hlo : 97 ≤ c.val.toNat := hlower.1
    have hhi : c.val.toNat ≤ 122 := hlower.2
    have hsum : (c.val + ('A'.val - 'a'.val)).toNat = c.val.toNat - 32 := by
      have hshift : ('A'.val - 'a'.val).toNat = 4294967264 := by decide
      rw [UInt32.toNat_add, hshift]
      omega
    rw [isPrint, Bool.and_eq_true]
    constructor
    · refine decide_eq_true (show ' '.val ≤ _ from UInt32.le_iff_toNat_le.2 ?_)
      rw [hsum]
      show 32 ≤ _
      omega
    · refine decide_eq_true (show _ < (Char.ofNat 127).val from UInt32.lt_iff_toNat_lt.2 ?_)
      rw [hsum]
      show _ < 127
      omega
  · exact h

/-- The chars written and the column, from 1. -/
structure Printf where
  out : List Char
  col : Int

namespace Printf

/-- The start of a call of `printf`. -/
def start : Printf := ⟨[], 1⟩

def fmtSetcol (ch : Char) (col : Int) : Int :=
  if ch = '\t' then (col + tabstop - 1).tdiv tabstop * tabstop + 1
  else if ch = newline ∨ ch = '\r' ∨ ch = Char.ofNat 12 then 1
  else if ch = Char.ofNat 8 then col - 1
  else if isPrint ch then col + 1
  else col

def putc (f : Printf) (ch : Char) : Printf where
  out := f.out ++ [ch]
  col := if isPrint ch then f.col + 1 else fmtSetcol ch f.col

def blanks (f : Printf) (n : Nat) : Printf := ⟨f.out ++ List.replicate n ' ', f.col + n⟩

/-- A string in a field of the given width, or as it is for width 0. -/
def fmtstr (f : Printf) (str : List Char) (leftJustify : Bool) (maxch width : Nat) : Printf :=
  let nchars := if width > 0 then min maxch str.length else maxch
  let nfill := if width > 0 then width - nchars else 0
  let f := if leftJustify then f else f.blanks nfill
  let f := (str.take nchars).foldl putc f
  if leftJustify then f.blanks nfill else f

def tocolumn (f : Printf) (width : Int) : Printf := f.blanks (width - f.col).toNat

variable {f : Printf} {str : List Char}

theorem putc_out (f : Printf) (ch : Char) : (f.putc ch).out = f.out ++ [ch] := rfl

theorem putc_print {ch : Char} (h : isPrint ch = true) :
    f.putc ch = ⟨f.out ++ [ch], f.col + 1⟩ := by
  rw [putc, if_pos h]

theorem foldl_putc (h : ∀ ch ∈ str, isPrint ch = true) :
    str.foldl putc f = ⟨f.out ++ str, f.col + str.length⟩ := by
  induction str generalizing f with
  | nil => simp
  | cons ch str ih =>
      obtain ⟨hch, hstr⟩ := List.forall_mem_cons.1 h
      rw [List.foldl_cons, ih hstr, putc_print hch, List.append_assoc, List.length_cons,
        Nat.cast_succ, add_assoc, add_comm (1 : Int)]
      rfl

theorem fmtstr_free (h : ∀ ch ∈ str, isPrint ch = true) {maxch : Nat}
    (hlen : str.length ≤ maxch) (leftJustify : Bool) :
    f.fmtstr str leftJustify maxch 0 = ⟨f.out ++ str, f.col + str.length⟩ := by
  have hblank : ∀ g : Printf, g.blanks 0 = g := fun g => by simp [blanks]
  simp only [fmtstr, Nat.lt_irrefl, gt_iff_lt, if_false, List.take_of_length_le hlen, hblank,
    ite_self]
  exact foldl_putc h

theorem fmtstr_left (h : ∀ ch ∈ str, isPrint ch = true) {maxch width : Nat}
    (hlen : str.length ≤ maxch) (hwidth : 0 < width) :
    f.fmtstr str true maxch width =
      (⟨f.out ++ str, f.col + str.length⟩ : Printf).blanks (width - str.length) := by
  simp only [fmtstr, gt_iff_lt, hwidth, if_true, min_eq_right hlen, List.take_length]
  rw [foldl_putc h]

end Printf

end Iraf.Fmtio
