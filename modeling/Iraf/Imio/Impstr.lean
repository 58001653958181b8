import Iraf.Imio.Iminfi
import Iraf.Lib.KeyedRecords

/-!
# Editing header cards

`impstr.x`, `imaddf.x` and `imdelf.x` for the user fields of an image.  Where
`idb_findrecord` finds a card in memory was shown before; here a user area is the
list of its cards.
-/

namespace Iraf.Imio

open Cells Fmtio Fmtio.LongText KeyedRecords

def idbStartvalue : Nat := 10

abbrev apostrophe : Char := '\''

inductive IdbErr
  | idbredef (key : List Char)
  | idbovfl (key : List Char)
  | idbkeynf (key : List Char)
  | idbnodel (key : List Char)
  | idbdelnxkw (key : List Char)
  deriving DecidableEq

/-! ## The value of a card -/

/-- Blanks from column `a` up to column `b`, which are counted from 0. -/
def blankColumns (a b : Nat) (chars : List Char) : List Char :=
  chars.mapIdx fun p ch => if a ≤ p ∧ p < b then ' ' else ch

/-- A card while its value is put: its chars, the counter after the old value, and
the type of the value. -/
structure OldValue where
  chars : List Char
  i : Nat
  stringValued : Bool

/-- The old value is skipped, and blanks take its place. -/
def skipValue (chars : List Char) : OldValue :=
  let ip := idbStartvalue + ((chars.drop (idbStartvalue - 1)).takeWhile (· = ' ')).length
  if chars[ip - 1]? = some apostrophe then
    let i := ip + ((chars.drop ip).takeWhile (· ≠ apostrophe)).length
    ⟨blankColumns ip (i + 1) chars, i, true⟩
  else
    let i := ip + ((chars.drop (ip - 1)).takeWhile fun ch => ch ≠ ' ' ∧ ch ≠ '/').length
    ⟨blankColumns (ip - 1) (i - 1) chars, i, false⟩

/-- The rest of the card from the first char that is no blank. -/
def OldValue.rest (old : OldValue) : List Char :=
  (old.chars.drop (old.i - 1)).dropWhile (· = ' ')

/-- The comment with a leading blank, and a slash if it has none. -/
def OldValue.cmmt (old : OldValue) : List Char :=
  ' ' :: if old.rest = [] ∨ old.rest.head? = some '/' then old.rest else '/' :: old.rest

/-- The card without its comment. -/
def OldValue.cleared (old : OldValue) : List Char :=
  blankColumns (old.chars.length - old.rest.length) old.chars.length old.chars

/-- The formats `" '%-0.68s%11t'%22t%-0.68s"` and `"%21s%-0.68s"`. -/
def encodeValue (stringValued : Bool) (text cmmt : List Char) : List Char :=
  let f :=
    if stringValued then
      let f := ((Printf.start.putc ' ').putc apostrophe).fmtstr text true 68 0
      ((f.tocolumn 11).putc apostrophe).tocolumn 22
    else Printf.start.fmtstr text false szObuf 21
  (f.fmtstr cmmt true 68 0).out.take szLine

/-- The chars of a card after a new value is put. -/
def putValue (chars value : List Char) : List Char :=
  let old := skipValue chars
  let val := encodeValue old.stringValued (idbFilstr value szLine) old.cmmt
  overlay old.cleared (idbStartvalue - 1) (val.take (idbReclen - (idbStartvalue - 1)))

@[simp] theorem length_blankColumns (a b : Nat) (chars : List Char) :
    (blankColumns a b chars).length = chars.length := by
  simp [blankColumns]

theorem mem_blankColumns {a b : Nat} {chars : List Char} {ch : Char}
    (h : ch ∈ blankColumns a b chars) : ch = ' ' ∨ ch ∈ chars := by
  obtain ⟨p, hp, hch⟩ := List.mem_iff_getElem.1 h
  simp only [blankColumns, List.getElem_mapIdx] at hch
  split at hch
  · exact .inl hch.symm
  · exact .inr (hch ▸ List.getElem_mem _)

theorem take_blankColumns {n a : Nat} (h : n ≤ a) (b : Nat) (chars : List Char) :
    (blankColumns a b chars).take n = chars.take n := by
  apply List.ext_getElem?
  intro p
  by_cases hp : p < n
  · have hfree : ¬(a ≤ p ∧ p < b) := by omega
    simp [List.getElem?_take_of_lt hp, blankColumns, hfree]
  · simp [hp]

section

variable {chars text cmmt value : List Char} {ch : Char}

@[simp] theorem length_skipValue : (skipValue chars).chars.length = chars.length := by
  unfold skipValue
  dsimp only
  split <;> simp

@[simp] theorem length_cleared (old : OldValue) : old.cleared.length = old.chars.length := by
  simp [OldValue.cleared]

theorem mem_skipValue (h : ch ∈ (skipValue chars).chars) : ch = ' ' ∨ ch ∈ chars := by
  unfold skipValue at h
  dsimp only at h
  split at h <;> exact mem_blankColumns h

theorem OldValue.mem_rest {old : OldValue} (h : ch ∈ old.rest) : ch ∈ old.chars :=
  List.mem_of_mem_drop ((List.dropWhile_suffix _).subset h)

theorem OldValue.mem_cmmt {old : OldValue} (h : ch ∈ old.cmmt) :
    ch = ' ' ∨ ch = '/' ∨ ch ∈ old.chars := by
  unfold cmmt at h
  rcases List.mem_cons.1 h with rfl | h
  · exact .inl rfl
  · split at h
    · exact .inr (.inr (mem_rest h))
    · rcases List.mem_cons.1 h with rfl | h
      · exact .inr (.inl rfl)
      · exact .inr (.inr (mem_rest h))

theorem out_foldl_putc (f : Printf) (str : List Char) :
    (str.foldl Printf.putc f).out = f.out ++ str := by
  induction str generalizing f with
  | nil => simp
  | cons ch str ih => simp [ih, Printf.putc_out]

theorem out_fmtstr_free (f : Printf) (str : List Char) (leftJustify : Bool) (maxch : Nat) :
    (f.fmtstr str leftJustify maxch 0).out = f.out ++ str.take maxch := by
  cases leftJustify <;> simp [Printf.fmtstr, Printf.blanks, out_foldl_putc]

theorem out_fmtstr_right (f : Printf) (str : List Char) (maxch : Nat) {width : Nat}
    (hwidth : 0 < width) : (f.fmtstr str false maxch width).out =
      f.out ++ List.replicate (width - min maxch str.length) ' ' ++ str.take maxch := by
  simp [Printf.fmtstr, Printf.blanks, out_foldl_putc, hwidth, List.take_eq_take_iff]

theorem mem_encodeValue {stringValued : Bool} (h : ch ∈ encodeValue stringValued text cmmt) :
    ch = ' ' ∨ ch = apostrophe ∨ ch ∈ text ∨ ch ∈ cmmt := by
  have h := List.mem_of_mem_take h
  cases stringValued
  · simp only [Bool.false_eq_true, if_false, out_fmtstr_free, Printf.start, List.mem_append,
      out_fmtstr_right _ _ _ (show 0 < 21 by decide), List.nil_append, List.mem_replicate] at h
    rcases h with (⟨-, h⟩ | h) | h
    · exact .inl h
    · exact .inr (.inr (.inl (List.mem_of_mem_take h)))
    · exact .inr (.inr (.inr (List.mem_of_mem_take h)))
  · simp only [if_true, out_fmtstr_free, Printf.tocolumn, Printf.blanks, Printf.putc_out,
      Printf.start, List.mem_append, List.nil_append, List.mem_replicate, List.mem_singleton] at h
    rcases h with ((((((h | h) | h) | ⟨-, h⟩) | h) | ⟨-, h⟩) | h)
    · exact .inl h
    · exact .inr (.inl h)
    · exact .inr (.inr (.inl (List.mem_of_mem_take h)))
    · exact .inl h
    · exact .inr (.inl h)
    · exact .inl h
    · exact .inr (.inr (.inr (List.mem_of_mem_take h)))

theorem mem_putValue (h : ch ∈ putValue chars value) :
    ch ∈ chars ∨ isPrint ch = true := by
  have hold : ∀ {c}, c ∈ (skipValue chars).chars → c ∈ chars ∨ isPrint c = true := fun hc => by
    rcases mem_skipValue hc with rfl | hc
    · exact .inr (by decide)
    · exact .inl hc
  simp only [putValue, overlay, List.mem_append] at h
  rcases h with (h | h) | h
  · rcases mem_blankColumns (List.mem_of_mem_take h) with rfl | h
    · exact .inr (by decide)
    · exact hold h
  · rcases mem_encodeValue (List.mem_of_mem_take h) with rfl | rfl | h | h
    · exact .inr (by decide)
    · exact .inr (by decide)
    · exact .inr (isPrint_of_mem_idbFilstr h)
    · rcases OldValue.mem_cmmt h with rfl | rfl | h
      · exact .inr (by decide)
      · exact .inr (by decide)
      · exact hold h
  · rcases mem_blankColumns (List.mem_of_mem_drop h) with rfl | h
    · exact .inr (by decide)
    · exact hold h

theorem length_putValue (h : chars.length = idbReclen) :
    (putValue chars value).length = idbReclen := by
  have hle : idbStartvalue - 1 ≤ (skipValue chars).cleared.length := by
    simp [h, idbStartvalue, idbReclen]
  rw [putValue, length_overlay hle, length_cleared, length_skipValue, h, List.length_take]
  have hcols : idbStartvalue - 1 ≤ idbReclen := by decide
  omega

theorem take_putValue (h : chars.length = idbReclen) :
    (putValue chars value).take (idbStartvalue - 1) = chars.take (idbStartvalue - 1) := by
  have hskip : (skipValue chars).chars.take (idbStartvalue - 1) =
      chars.take (idbStartvalue - 1) ∧ idbStartvalue ≤ (skipValue chars).i := by
    unfold skipValue
    dsimp only
    split
    · refine ⟨take_blankColumns (by simp [idbStartvalue]; omega) _ _, ?_⟩
      simp [Nat.add_assoc]
    · refine ⟨take_blankColumns (by simp [idbStartvalue]) _ _, ?_⟩
      simp [Nat.add_assoc]
  have hrest : (skipValue chars).rest.length ≤ idbReclen - (idbStartvalue - 1) := by
    refine (List.dropWhile_suffix _).length_le.trans ?_
    rw [List.length_drop, length_skipValue, h]
    omega
  have hcols : idbStartvalue - 1 ≤ idbReclen := by decide
  have hle : idbStartvalue - 1 ≤ (skipValue chars).cleared.length := by simp [h, hcols]
  rw [putValue, overlay, List.append_assoc,
    List.take_left' (by rw [List.length_take, min_eq_left hle])]
  rw [OldValue.cleared, take_blankColumns, hskip.1]
  rw [length_skipValue, h]
  omega

end

/-- A card with a new value. -/
def Card.putValue (card : Card) (value : List Char) : Card where
  chars := Imio.putValue card.chars value
  length_eq := length_putValue card.length_eq
  plain _ hch := (mem_putValue hch).elim (card.plain _) isPrint_plain

/-! ## User fields -/

/-- The record test on the chars of a card. -/
instance recordDecidable (key : List Char) (card : Card) : Decidable (IsRecord key card) :=
  let k := key.take idbSzfitskey
  decidable_of_iff ((!k.isEmpty && card.chars[k.length]?.all (fun c => c = ' ' ∨ c = '=') &&
      (List.range k.length).all fun i => card.chars[i]? = k[i]?.map Char.toLower ∨
        card.chars[i]? = k[i]?.map Char.toUpper) = true) (by
    simp [IsRecord, k, and_assoc, Option.all_eq_true])

/-- The cards in the user area of an image, and the most chars that it can hold. -/
structure UserFields where
  cards : List Card
  maxLenuserarea : Nat

namespace UserFields

/-- `idb_findrecord`, for a key without pattern chars. -/
def idbFindrecord (im : UserFields) (key : List Char) : Option Nat :=
  im.cards.findIdx? fun card => IsRecord key card

/-- `imaddf`. -/
def imaddf (im : UserFields) (key datatype : List Char) : Except IdbErr UserFields :=
  if idbKwlookup key ∨ (im.idbFindrecord key).isSome then .error (.idbredef key)
  else if im.maxLenuserarea < (cardText im.cards).length + (idbReclen + 1) then
    .error (.idbovfl key)
  else .ok { im with cards := im.cards ++ [newCard key datatype] }

/-- `impstr`.  A standard parameter is set in the descriptor. -/
def impstr (im : UserFields) (key value : List Char) : Except IdbErr UserFields :=
  if idbKwlookup key then .ok im
  else if (im.idbFindrecord key).isNone then .error (.idbkeynf key)
  else .ok { im with
    cards := changeFirst (fun card => IsRecord key card) (·.putValue value) im.cards }

end UserFields

end Iraf.Imio
