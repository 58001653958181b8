import Iraf.Fmtio.Ctol
import Iraf.Lib.TextLines
import Mathlib.Data.List.DropRight

/-!
# The image header in the title of a mask file

`im_pmsvhdr` and `im_pmldhdr` of `impmhdr.x`, and the card i/o of `idbcard.x`.  A
string is the list of its chars, without the EOS.
-/

namespace Iraf.Imio

open Fmtio.LongText TextLines

def szImtitle : Nat := 383
def lenImhdr : Nat := 1024
def szStruct : Nat := 4
def defSzbuf : Int := 32768
def incSzbuf : Int := 16384
def incHdrmem : Nat := 8100
def idbReclen : Nat := 80

abbrev quote : Char := '\"'
abbrev escape : Char := '\\'
abbrev eos : Char := Char.ofNat 0

def kwTitle : List Char := ['$', 'T', 'I', 'T', 'L', 'E', ' ', '=', ' ']
def kwCtime : List Char := ['$', 'C', 'T', 'I', 'M', 'E', ' ', '=', ' ']
def kwMtime : List Char := ['$', 'M', 'T', 'I', 'M', 'E', ' ', '=', ' ']
def kwLimtime : List Char := ['$', 'L', 'I', 'M', 'T', 'I', 'M', 'E', ' ', '=', ' ']
def kwMinpixval : List Char :=
  ['$', 'M', 'I', 'N', 'P', 'I', 'X', 'V', 'A', 'L', ' ', '=', ' ']
def kwMaxpixval : List Char :=
  ['$', 'M', 'A', 'X', 'P', 'I', 'X', 'V', 'A', 'L', ' ', '=', ' ']

/-- The number that `ctor` finds, how many chars it has, and how many are passed
with the white space before it. -/
structure RealRead (ρ : Type) where
  nchars : Int
  rval : ρ
  passed : Nat

/-- The format `%g` of `sprintf`, and `ctor`.  A number is on one line. -/
structure RealText (ρ : Type) where
  zero : ρ
  format : ρ → List Char
  ctor : List Char → RealRead ρ
  plain : ∀ r, ∀ c ∈ format r, c.isAlphanum ∨ c = '-' ∨ c = '+' ∨ c = '.'
  passed_le : ∀ str, (ctor str).passed ≤ (str.takeWhile (· ≠ newline)).length

/-- A header card. -/
structure Card where
  chars : List Char
  length_eq : chars.length = idbReclen
  plain : ∀ c ∈ chars, c ≠ newline ∧ c ≠ eos

/-- The fields of an image descriptor that the header of a mask file keeps, and
its user area.  The standard header is always part of it. -/
structure ImDes (ρ : Type) where
  imTitle : List Char
  imCtime : Int
  imMtime : Int
  imLimtime : Int
  imMin : ρ
  imMax : ρ
  imUserarea : List Char
  imUablocked : Int
  imLenhdrmem : Nat
  lenImhdr_le : lenImhdr ≤ imLenhdrmem

/-- The number of chars from the user area to the end of the descriptor. -/
def userareaSize (lenhdrmem : Nat) : Nat := (lenhdrmem - lenImhdr) * szStruct

/-! ## Reading cards -/

/-- Whether all records have the length of a card. -/
def blockedFrom : Nat → List Char → Bool
  | 0, _ => true
  | _, [] => true
  | fuel + 1, ip =>
      (ip.takeWhile (· ≠ newline)).length == idbReclen && blockedFrom fuel (nextLine newline ip)

/-- The text from the current record on, and its place in the user area. -/
structure Idb where
  idbRecptr : List Char
  offset : Nat
  idbUalen : Int
  idbBlocked : Bool

def idbOpen {ρ : Type} (im : ImDes ρ) : Idb where
  idbRecptr := im.imUserarea
  offset := 0
  idbUalen := userareaSize im.imLenhdrmem - 1
  idbBlocked :=
    if im.imUablocked < 0 then blockedFrom im.imUserarea.length im.imUserarea
    else im.imUablocked ≠ 0

/-- What follows the next newline, if there is one in `n` chars. -/
def passLine : Nat → List Char → Option (List Char)
  | 0, _ => none
  | _, [] => some []
  | n + 1, c :: ip => if c = newline then some ip else passLine n ip

/-- The text after the current record. -/
def Idb.nextRecord (idb : Idb) : List Char :=
  if idb.idbBlocked then idb.idbRecptr.drop (idbReclen + 1)
  else (passLine (idbReclen + 1) idb.idbRecptr.tail).getD idb.idbRecptr.tail

/-- The text from the next card on, or none at the end of the header. -/
def idbNextcard (idb : Idb) : Option (List Char × Idb) :=
  if idb.idbRecptr = [] ∨ (idb.offset : Int) ≥ idb.idbUalen then none
  else some (idb.idbRecptr, { idb with
    idbRecptr := idb.nextRecord
    offset := idb.offset + (idb.idbRecptr.length - idb.nextRecord.length) })

theorem passLine_shorter {n : Nat} {ip rest : List Char} (h : passLine n ip = some rest) :
    rest.length ≤ ip.length := by
  induction n generalizing ip with
  | zero => cases h
  | succ n ih =>
      cases ip with
      | nil => simp_all [passLine]
      | cons c ip =>
          rw [passLine] at h
          split at h
          · rw [Option.some.injEq] at h
            simp [h]
          · exact (ih h).trans (Nat.le_succ _)

theorem Idb.nextRecord_shorter (idb : Idb) (h : idb.idbRecptr ≠ []) :
    idb.nextRecord.length < idb.idbRecptr.length := by
  have hpos := List.length_pos_iff.2 h
  unfold nextRecord
  split
  · rw [List.length_drop]
    omega
  · cases hpass : passLine (idbReclen + 1) idb.idbRecptr.tail with
    | none =>
        simp only [Option.getD_none, List.length_tail]
        omega
    | some rest =>
        have hle := passLine_shorter hpass
        rw [List.length_tail] at hle
        simp only [Option.getD_some]
        omega

/-! ## Saving -/

/-- The chars in the save buffer, the size it was allocated with, and whether all
chars were stored inside of it.  One more char is allocated for the EOS. -/
structure SaveBuf where
  text : List Char
  szBuf : Int
  inside : Bool

def SaveBuf.put (b : SaveBuf) (chars : List Char) : SaveBuf :=
  { b with
    text := b.text ++ chars
    inside := b.inside && decide ((b.text.length + chars.length : Int) ≤ b.szBuf + 1) }

/-- The title with a backslash before each quote. -/
def escapeQuotes : List Char → List Char
  | [] => []
  | c :: ip => if c = quote then escape :: c :: escapeQuotes ip else c :: escapeQuotes ip

/-- One keyword, its value and a newline. -/
def SaveBuf.putKeyword (b : SaveBuf) (keyword value : List Char) : SaveBuf :=
  b.put (keyword ++ value ++ [newline])

/-- The value is encoded in a buffer that has the size of a title. -/
def encoded (value : List Char) : List Char := value.take szImtitle

/-- More space when a card may not fit. -/
def SaveBuf.grow (b : SaveBuf) : SaveBuf :=
  if b.szBuf - b.text.length < idbReclen then { b with szBuf := b.szBuf + incSzbuf } else b

/-- The card without its trailing white space.  All of the card is stored first. -/
def SaveBuf.putCard (b : SaveBuf) (rp : List Char) : SaveBuf :=
  let stored := b.grow.put (rp.take idbReclen)
  let kept := b.grow.put ((rp.take idbReclen).rdropWhile isWhite ++ [newline])
  { kept with inside := stored.inside && kept.inside }

def svCards (idb : Idb) (b : SaveBuf) : SaveBuf :=
  match h : idbNextcard idb with
  | none => b
  | some (rp, idb') => svCards idb' (b.putCard rp)
termination_by idb.idbRecptr.length
decreasing_by
  unfold idbNextcard at h
  split at h
  · cases h
  · rename_i hnext
    obtain ⟨-, rfl⟩ := Prod.mk.inj (Option.some.inj h)
    exact idb.nextRecord_shorter fun hnil => hnext (.inl hnil)

/-- The save buffer that is returned.  `bp` is the size of the buffer that the
user allocated, if there is one. -/
def imPmsvhdr {ρ : Type} (fmt : RealText ρ) (im : ImDes ρ) (bp : Option Int) : SaveBuf :=
  let szBuf := match bp with
    | none => defSzbuf
    | some n => if n ≤ 0 then defSzbuf else n
  let b := SaveBuf.mk [] szBuf true
  let b := b.putKeyword kwTitle
    (quote :: escapeQuotes (im.imTitle.take szImtitle) ++ [quote])
  let b := b.putKeyword kwCtime (encoded (formatLong im.imCtime))
  let b := b.putKeyword kwMtime (encoded (formatLong im.imMtime))
  let b := b.putKeyword kwLimtime (encoded (formatLong im.imLimtime))
  let b := b.putKeyword kwMinpixval (encoded (fmt.format im.imMin))
  let b := b.putKeyword kwMaxpixval (encoded (fmt.format im.imMax))
  let b := svCards (idbOpen im) b
  { b with
    szBuf := b.text.length + 1
    inside := b.inside && decide ((b.text.length : Int) ≤ b.szBuf) }

/-! ## Loading -/

/-- The string up to the closing quote, and the text from there on. -/
def unquote : List Char → List Char × List Char
  | [] => ([], [])
  | [c] => if c = quote then ([], [c]) else ([c], [])
  | c :: d :: ip =>
      if c = quote then ([], c :: d :: ip)
      else if c = escape ∧ d = quote then (quote :: (unquote ip).1, (unquote ip).2)
      else (c :: (unquote (d :: ip)).1, (unquote (d :: ip)).2)

/-- The title, and the text from the closing quote on.  Chars that do not fit the
buffer are stored where the EOS comes. -/
def ldTitle (ip : List Char) : List Char × List Char :=
  let string := unquote (ip.dropWhile (· ≠ quote)).tail
  (string.1.take szImtitle, string.2)

/-- The number at `ip`, and the text after it. -/
def ldLong (ip : List Char) : Int × List Char :=
  let read := ctol ip
  (if read.1 ≤ 0 then 0 else read.2.1, read.2.2)

theorem unquote_suffix (ip : List Char) : (unquote ip).2 <:+ ip := by
  induction ip using unquote.induct with
  | case1 => exact List.suffix_rfl
  | case2 => simp [unquote]
  | case3 c h => simp [unquote, h]
  | case4 d ip => simp [unquote]
  | case5 c d ip h1 h2 ih =>
      rw [unquote, if_neg h1, if_pos h2]
      exact ih.trans ⟨[c, d], rfl⟩
  | case6 c d ip h1 h2 ih =>
      rw [unquote, if_neg h1, if_neg h2]
      exact ih.trans (List.suffix_cons c _)

theorem ldTitle_suffix (ip : List Char) : (ldTitle ip).2 <:+ ip :=
  (unquote_suffix _).trans ((List.tail_suffix _).trans (List.dropWhile_suffix _))

section Keywords

variable {ρ : Type} (fmt : RealText ρ)

def ldReal (ip : List Char) : ρ × List Char :=
  let read := fmt.ctor ip
  (if read.nchars ≤ 0 then fmt.zero else read.rval, ip.drop read.passed)

/-- The line at `ip`, which begins with a `$`: the descriptor after it, and where
the search for the next line begins. -/
def ldKeyword (im : ImDes ρ) (ip : List Char) : ImDes ρ × List Char :=
  if kwTitle <+: ip then
    let read := ldTitle (ip.drop kwTitle.length)
    ({ im with imTitle := read.1 }, read.2)
  else if kwCtime <+: ip then
    let read := ldLong (ip.drop kwCtime.length)
    ({ im with imCtime := read.1 }, read.2)
  else if kwMtime <+: ip then
    let read := ldLong (ip.drop kwMtime.length)
    ({ im with imMtime := read.1 }, read.2)
  else if kwLimtime <+: ip then
    let read := ldLong (ip.drop kwLimtime.length)
    ({ im with imLimtime := read.1 }, read.2)
  else if kwMinpixval <+: ip then
    let read := ldReal fmt (ip.drop kwMinpixval.length)
    ({ im with imMin := read.1 }, read.2)
  else if kwMaxpixval <+: ip then
    let read := ldReal fmt (ip.drop kwMaxpixval.length)
    ({ im with imMax := read.1 }, read.2)
  else (im, ip)

theorem ldKeyword_suffix (im : ImDes ρ) (ip : List Char) :
    (ldKeyword fmt im ip).2 <:+ ip := by
  unfold ldKeyword
  split_ifs
  · exact (ldTitle_suffix _).trans (List.drop_suffix _ _)
  · exact (ctol_suffix _).trans (List.drop_suffix _ _)
  · exact (ctol_suffix _).trans (List.drop_suffix _ _)
  · exact (ctol_suffix _).trans (List.drop_suffix _ _)
  · exact (List.drop_suffix _ _).trans (List.drop_suffix _ _)
  · exact (List.drop_suffix _ _).trans (List.drop_suffix _ _)
  · exact List.suffix_rfl

theorem ldKeyword_shorter (im : ImDes ρ) {ip : List Char} (h : ip ≠ []) :
    (nextLine newline (ldKeyword fmt im ip).2).length < ip.length := by
  have hle := (ldKeyword_suffix fmt im ip).length_le
  have hpos := List.length_pos_iff.2 h
  by_cases hnil : (ldKeyword fmt im ip).2 = []
  · rwa [hnil, nextLine_nil, List.length_nil]
  · exact (nextLine_shorter hnil).trans_le hle

/-- The lines that begin with a `$`. -/
def ldKeywords (im : ImDes ρ) (ip : List Char) : ImDes ρ × List Char :=
  if _h : ip.head? = some '$' then
    ldKeywords (ldKeyword fmt im ip).1 (nextLine newline (ldKeyword fmt im ip).2)
  else (im, ip)
termination_by ip.length
decreasing_by exact ldKeyword_shorter fmt im (by rintro rfl; cases _h)

end Keywords

/-- The chars that one card takes from the text, and the rest of the text. -/
def takeCard : Nat → List Char → List Char × List Char
  | 0, ip => ([], ip)
  | n + 1, [] => (eos :: (takeCard n []).1, (takeCard n []).2)
  | n + 1, c :: ip =>
      if c = newline then ([], ip) else (c :: (takeCard n ip).1, (takeCard n ip).2)

theorem takeCard_le (n : Nat) (ip : List Char) : (takeCard n ip).2.length ≤ ip.length := by
  induction n generalizing ip with
  | zero => exact le_rfl
  | succ n ih =>
      cases ip with
      | nil => exact ih []
      | cons c ip =>
          rw [takeCard]
          split
          · exact Nat.le_succ _
          · exact (ih ip).trans (Nat.le_succ _)

theorem takeCard_shorter (n : Nat) {ip : List Char} (h : ip ≠ []) :
    (takeCard (n + 1) ip).2.length < ip.length := by
  cases ip with
  | nil => exact absurd rfl h
  | cons c ip =>
      rw [takeCard]
      split
      · exact Nat.lt_succ_self _
      · exact Nat.lt_succ_of_le (takeCard_le n ip)

/-- The user area while cards are written into it: its address, the size of the
descriptor, the chars written, and whether all of them were stored inside. -/
structure LoadBuf where
  ua : Int
  lenhdrmem : Nat
  text : List Char
  inside : Bool

/-- A larger descriptor when a card may not fit.  `realloc` gives the address of
the user area after the descriptor is made larger. -/
def LoadBuf.grow (realloc : Int → Nat → Int) (b : LoadBuf) : LoadBuf :=
  if (b.text.length + idbReclen + 2 : Int) > userareaSize b.lenhdrmem - 1 then
    { b with
      ua := realloc b.ua (b.lenhdrmem + incHdrmem)
      lenhdrmem := b.lenhdrmem + incHdrmem }
  else b

/-- The card at `ip`, filled with blanks to the length that the pointers tell.
The pointer to its first char was taken before the descriptor grew. -/
def LoadBuf.putCard (realloc : Int → Nat → Int) (b : LoadBuf) (card : List Char) : LoadBuf :=
  let rp := b.ua + b.text.length
  let b := b.grow realloc
  let op := b.ua + b.text.length + card.length
  let filled := card ++ List.replicate (idbReclen - (op - rp)).toNat ' '
  let text := b.text ++ (filled ++ [newline])
  { b with
    text := text
    inside := b.inside && decide (text.length ≤ userareaSize b.lenhdrmem) }

def ldCards (realloc : Int → Nat → Int) (b : LoadBuf) (ip : List Char) : LoadBuf :=
  if h : ip = [] then b
  else
    let taken := takeCard (idbReclen + 1) ip
    ldCards realloc (b.putCard realloc taken.1) taken.2
termination_by ip.length
decreasing_by exact takeCard_shorter idbReclen h

theorem LoadBuf.le_lenhdrmem_putCard {realloc : Int → Nat → Int} (b : LoadBuf)
    (card : List Char) : b.lenhdrmem ≤ (b.putCard realloc card).lenhdrmem := by
  simp only [putCard, grow]
  split
  · exact Nat.le_add_right _ _
  · exact le_rfl

theorem le_lenhdrmem_ldCards {realloc : Int → Nat → Int} (b : LoadBuf) (ip : List Char) :
    b.lenhdrmem ≤ (ldCards realloc b ip).lenhdrmem := by
  induction b, ip using ldCards.induct realloc with
  | case1 b => rw [ldCards, dif_pos rfl]
  | case2 b ip h taken ih =>
      rw [ldCards, dif_neg h]
      exact (b.le_lenhdrmem_putCard taken.1).trans ih

/-- What is left after loading: the descriptor, and whether all chars were stored
inside of it. -/
structure Loaded (ρ : Type) where
  im : ImDes ρ
  inside : Bool

/-- `ua` is the address of the user area. -/
def imPmldhdr {ρ : Type} (fmt : RealText ρ) (realloc : Int → Nat → Int) (im : ImDes ρ)
    (ua : Int) (bp : List Char) : Loaded ρ :=
  let read := ldKeywords fmt im bp
  let start := LoadBuf.mk ua read.1.imLenhdrmem [] true
  let b := ldCards realloc start read.2
  { im := { read.1 with
      imUserarea := b.text
      imUablocked := 1
      imLenhdrmem := b.lenhdrmem
      lenImhdr_le := read.1.lenImhdr_le.trans (le_lenhdrmem_ldCards start _) }
    inside := b.inside && decide (b.text.length < userareaSize b.lenhdrmem) }

end Iraf.Imio
