import Iraf.Imio.Impstr
import Iraf.Mwcs.Mwrefstr
import Iraf.Xtools.RangeList

/-!
# WCS cards of an image header

The list of WCS cards that `iw_rfits` makes of a header, `iw_cardtype`,
`iw_findcard`, and how long strings are put in cards and read again: `iw_putstr`,
`iw_gbigfits`, and the end of `mw_saveim`.
-/

namespace Iraf.Mwcs

open Fmtio.LongText Imio KeyedRecords Numeral
open Xtools (ctoi)

def maxFitscols : Nat := 68
def szKwname : Nat := 8
def szSbuf : Nat := 163840
def szBigstr : Nat := maxFitscols

abbrev err : Int := -1

inductive CardType
  | ctype | cdelt | crota | crpix | crval | cd | ltv | ltm | watdata | wsvlen | wsvdata
  | wcsdim | waxmap
  deriving DecidableEq

/-- `C_TYPE`, `C_AXIS` and `C_INDEX`. -/
@[ext] structure CardId where
  type : CardType
  axis : Int
  index : Int
  deriving DecidableEq

/-! ## Card types -/

def toInteg (c : Char) : Int := c.toNat - '0'.toNat

/-- The chars `CDELT`, `CRPIX`, `CRVAL` or `CTYPE`, an axis and a blank. -/
def axisCard (card name : List Char) (type : CardType) : Option CardId :=
  if card.take 5 = name ∧ card.getD 6 eos = ' ' then
    some ⟨type, toInteg (card.getD 5 eos), err⟩
  else none

/-- The number in the card from column `ip` on. -/
def indexedCard (card : List Char) (ip : Nat) (type : CardType) (axis : Int) : Option CardId :=
  let read := ctoi (card.drop (ip - 1))
  if read.1 ≤ 0 then none else some ⟨type, axis, read.2.1⟩

/-- `iw_cardtype`; `none` for a card that is not a WCS card. -/
def iwCardtype (card : List Char) : Option CardId :=
  let ch (i : Nat) := card.getD (i - 1) eos
  if ch 1 = 'C' then
    if ch 2 = 'D' then
      if (ch 3).isDigit then
        if ch 6 = ' ' then some ⟨.cd, toInteg (ch 5), toInteg (ch 3)⟩ else none
      else axisCard card ['C', 'D', 'E', 'L', 'T'] .cdelt
    else if ch 2 = 'R' then
      if card.take 6 = ['C', 'R', 'O', 'T', 'A', '2'] then some ⟨.crota, err, err⟩
      else if card.take 5 = ['C', 'R', 'P', 'I', 'X'] then
        axisCard card ['C', 'R', 'P', 'I', 'X'] .crpix
      else axisCard card ['C', 'R', 'V', 'A', 'L'] .crval
    else if ch 2 = 'T' then axisCard card ['C', 'T', 'Y', 'P', 'E'] .ctype
    else none
  else if ch 1 = 'L' ∧ ch 2 = 'T' then
    if ch 3 = 'V' ∧ (ch 4).isDigit then some ⟨.ltv, toInteg (ch 4), err⟩
    else if ch 3 = 'M' ∧ (ch 4).isDigit then
      some ⟨.ltm, toInteg (ch 4), toInteg (ch 6)⟩
    else none
  else if ch 1 = 'W' then
    let ip := if (ch 5).isDigit then 5 else 6
    if ch 2 = 'A' then
      if ch 3 = 'T' ∧ (ch 4).isDigit then indexedCard card ip .watdata (toInteg (ch 4))
      else if card.take 6 = ['W', 'A', 'X', 'M', 'A', 'P'] then indexedCard card 7 .waxmap err
      else none
    else if ch 2 = 'C' then
      if card.take 6 = ['W', 'C', 'S', 'D', 'I', 'M'] then some ⟨.wcsdim, err, err⟩ else none
    else if ch 2 = 'S' then
      if ch 3 = 'V' ∧ (ch 4).isDigit then
        if (card.drop 4).take 4 = ['_', 'L', 'E', 'N'] then some ⟨.wsvlen, toInteg (ch 4), err⟩
        else indexedCard card ip .wsvdata (toInteg (ch 4))
      else none
    else none
  else none

/-- The place of a card among the WCS cards. -/
def cardId (card : Card) : Option CardId := iwCardtype card.chars

/-! ## The list of cards -/

/-- A card descriptor: what card it is, the card, and whether it has been updated. -/
structure CDes where
  id : CardId
  rp : Card
  updated : Bool

def CDes.matches (type : CardType) (axis index : Int) (cp : CDes) : Bool :=
  cp.id.type = type ∧ (0 ≤ axis → cp.id.axis = axis) ∧ (0 < index → cp.id.index = index)

def iwFindcard (iw : List CDes) (type : CardType) (axis index : Int) : Option CDes :=
  iw.find? (CDes.matches type axis index)

/-! ## Putting a string -/

/-- A part of a format: chars, or `%d` with zeros up to a width. -/
inductive Directive
  | chars (s : List Char)
  | decimal (zeros : Nat)

def sprintf : List Directive → List Int → List Char
  | [], _ => []
  | .chars s :: fmt, args => s ++ sprintf fmt args
  | .decimal _ :: _, [] => []
  | .decimal zeros :: fmt, arg :: args =>
      (formatLong arg).leftpad zeros '0' ++ sprintf fmt args

/-- The arguments of `iw_putstr` that stay the same. -/
structure PutString where
  axis : Int
  ctype : CardType
  fmt1 : List Directive
  fmt2 : List Directive
  maxIndex : Int

namespace PutString

variable (ps : PutString)

def kwname (index : Int) : List Char :=
  let fmt := if 0 < ps.maxIndex ∧ ps.maxIndex < index then ps.fmt2 else ps.fmt1
  (sprintf fmt (if 0 ≤ ps.axis then [ps.axis, index] else [index])).take szKwname

/-- One turn of the loop of `iw_putstr`. -/
def putCard (im : UserFields) (iw : List CDes) (index : Int) (bigstr : List Char) :
    Except IdbErr (UserFields × List CDes) := do
  let cp := iwFindcard iw ps.ctype ps.axis index
  let update := !cp.any fun cp =>
    (cp.rp.chars.drop (idbStartvalue + 1)).take szBigstr = bigstr.take szBigstr
  let im ←
    if update then do
      let im ← if cp.isNone then im.imaddf (ps.kwname index) ['c'] else pure im
      im.impstr (ps.kwname index) bigstr
    else pure im
  return (im, changeFirst (CDes.matches ps.ctype ps.axis index)
    (fun cp => { cp with updated := true }) iw)

end PutString

/-- The value of a card: `i` from `MAX_FITSCOLS - n + 1` on, the char before the
next one, and the chars from there on. -/
def gbigcard : Nat → Char → List Char → List Char
  | 0, _, _ => []
  | _, _, [] => []
  | n + 1, prev, ch :: ip =>
      if ch = eos ∨ ch = newline then []
      else if ch = apostrophe then
        if ip.head? = some apostrophe then ch :: gbigcard n ch ip
        else if prev = apostrophe then gbigcard n ch ip
        else if n + 1 < maxFitscols then [' ']
        else []
      else ch :: gbigcard n ch ip

def cardValue (card : Card) : List Char :=
  gbigcard maxFitscols (card.chars.getD idbStartvalue eos) (card.chars.drop (idbStartvalue + 1))

theorem ctoi_stops {d : List Char} (hd : d.length ≤ 4) (r r' : List Char) :
    (ctoi (d ++ '=' :: r)).1 = (ctoi (d ++ '=' :: r')).1 ∧
      (ctoi (d ++ '=' :: r)).2.1 = (ctoi (d ++ '=' :: r')).2.1 := by
  have hstart : ∀ s : List Char,
      (d ++ '=' :: s).dropWhile isWhite = d.dropWhile isWhite ++ '=' :: s := fun s => by
    rw [List.dropWhile_append]
    split
    · rename_i hnil
      rw [List.isEmpty_iff] at hnil
      simp [hnil, isWhite]
    · rfl
  have hlen : (d.dropWhile isWhite).length ≤ 4 := (List.dropWhile_suffix _).length_le.trans hd
  generalize d.dropWhile isWhite = e at hstart hlen
  have hindef : ∀ s : List Char, ¬indef <+: e ++ '=' :: s := fun s hp => by
    have hget : (e ++ '=' :: s)[e.length]? = indef[e.length]? := by
      obtain ⟨t, ht⟩ := hp
      rw [← ht, List.getElem?_append_left (by simp [indef]; omega)]
    have heq : indef[e.length]? = some '=' := by simpa using hget.symm
    interval_cases e.length <;> simp [indef] at heq
  have hneg : ∀ s : List Char, ((e ++ '=' :: s).head? == some '-') = (e.head? == some '-') :=
    fun s => by cases e <;> simp
  have hip : ∀ s : List Char,
      (if e.head? == some '-' then (e ++ '=' :: s).drop 1 else e ++ '=' :: s) =
        (if e.head? == some '-' then e.drop 1 else e) ++ '=' :: s := fun s => by
    cases e <;> simp [apply_ite (· ++ '=' :: s)]
  have hdigits : ∀ l s : List Char,
      (l ++ '=' :: s).takeWhile Char.isDigit = l.takeWhile Char.isDigit := fun l s => by
    rw [List.takeWhile_append]
    split
    · rename_i hall
      simp [(List.takeWhile_prefix _).eq_of_length hall]
    · rfl
  simp only [ctoi, hstart, hindef, false_and, if_false, hneg, hip, hdigits]
  generalize (if e.head? == some '-' then e.drop 1 else e) = ip
  have hdrop : (ip.takeWhile Char.isDigit).length ≤ ip.length :=
    (List.takeWhile_prefix _).length_le
  constructor
  · simp only [List.length_append, List.length_drop, List.length_cons]
    omega
  · trivial

theorem iwCardtype_congr {card card' : List Char} (htake : card.take 8 = card'.take 8)
    (hindexed : ∀ ip, 5 ≤ ip → ip ≤ 7 → ∀ type axis,
      indexedCard card ip type axis = indexedCard card' ip type axis) :
    iwCardtype card = iwCardtype card' := by
  have hch : ∀ i < 8, card.getD i eos = card'.getD i eos := fun i hi => by
    have hget := congrArg (·[i]?) htake
    simp only [List.getElem?_take_of_lt hi] at hget
    simp [hget]
  have hstart : ∀ n ≤ 8, card.take n = card'.take n := fun n hn => by
    have hget := congrArg (List.take n) htake
    simpa [List.take_take, Nat.min_eq_left hn] using hget
  have hlen : (card.drop 4).take 4 = (card'.drop 4).take 4 := by
    simpa [List.drop_take] using congrArg (List.drop 4) htake
  have hip : ∀ (p : Prop) [Decidable p] type axis,
      indexedCard card (if p then 5 else 6) type axis =
        indexedCard card' (if p then 5 else 6) type axis := fun p _ type axis =>
    hindexed _ (by split <;> decide) (by split <;> decide) type axis
  simp only [iwCardtype, axisCard, hch 0 (by decide), hch 1 (by decide), hch 2 (by decide),
    hch 3 (by decide), hch 4 (by decide), hch 5 (by decide), hch 6 (by decide), Nat.reduceSub,
    hstart 5 (by decide), hstart 6 (by decide), hlen, hip,
    hindexed 7 (by decide) (by decide)]

theorem iwCardtype_stops {k : List Char} (hk : k.length = 8) (r r' : List Char) :
    iwCardtype (k ++ '=' :: r) = iwCardtype (k ++ '=' :: r') := by
  apply iwCardtype_congr
  · simp [hk]
  · intro ip hlo hhi type axis
    have hdrop : ∀ s : List Char,
        (k ++ '=' :: s).drop (ip - 1) = k.drop (ip - 1) ++ '=' :: s := fun s => by
      rw [List.drop_append_of_le_length (by omega)]
    have hlen : (k.drop (ip - 1)).length ≤ 4 := by
      rw [List.length_drop]
      omega
    obtain ⟨hchars, hval⟩ := ctoi_stops hlen r r'
    simp only [indexedCard, hdrop, hchars, hval]
/-! ## Keywords -/

/-- The two families of cards that hold a string. -/
inductive StringKind
  | wat
  | wsv
  deriving DecidableEq

namespace StringKind

def letters : StringKind → List Char
  | wat => ['W', 'A', 'T']
  | wsv => ['W', 'S', 'V']

def ctype : StringKind → CardType
  | wat => .watdata
  | wsv => .wsvdata

/-- The calls of `iw_putstr` for `WATi_jjj` and `WSVi_jjj`. -/
def put (kind : StringKind) (axis : Nat) : PutString where
  axis := axis
  ctype := kind.ctype
  fmt1 := [.chars kind.letters, .decimal 0, .chars ['_'], .decimal 3]
  fmt2 := [.chars kind.letters, .decimal 0, .decimal 4]
  maxIndex := 999

end StringKind

variable {kind : StringKind} {axis j : Nat}

end Iraf.Mwcs
