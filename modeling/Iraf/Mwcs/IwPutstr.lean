import Iraf.Mwcs.Iwcards

/-!
# Long strings in a header

What `iw_putstr` writes is found again by `iw_gbigfits`.  Records with the keyword of
a WCS card are the cards of one type, axis and index, so an edit of the header reaches
the first of these, and the scan of the edited header enters it.
-/

namespace Iraf.Mwcs

open Fmtio Fmtio.LongText Imio KeyedRecords

/-! ## Keywords of cards -/

def keywordChars : List Char :=
  ['A', 'B', 'C', 'D', 'E', 'F', 'G', 'H', 'I', 'J', 'K', 'L', 'M', 'N', 'O', 'P', 'Q', 'R', 'S',
    'T', 'U', 'V', 'W', 'X', 'Y', 'Z', '0', '1', '2', '3', '4', '5', '6', '7', '8', '9', '-', '_']

/-- The columns of a keyword. -/
structure Keyword (k cols : List Char) : Prop where
  chars : ∀ ch ∈ k, ch ∈ keywordChars
  length_le : k.length ≤ szKwname
  cols_eq : cols = k.rightpad szKwname ' '

theorem Keyword.getElem? {k cols : List Char} (h : Keyword k cols) {i : Nat} (hi : i < szKwname) :
    cols[i]? = if i < k.length then k[i]? else some ' ' := by
  rw [h.cols_eq, List.rightpad]
  split
  · rename_i hik
    rw [List.getElem?_append_left hik]
  · rename_i hik
    rw [List.getElem?_append_right (not_lt.1 hik), List.getElem?_replicate, if_pos (by omega)]

/-- A card as FITS describes it: a keyword, and the value indicator unless the
keyword is none of a WCS card. -/
structure FitsCard (card : Card) : Prop where
  keyword : ∃ k, Keyword k (card.chars.take szKwname)
  indicator : card.chars[szKwname]? = some '=' ∨
    ∀ rest, iwCardtype (card.chars.take szKwname ++ rest) = none

variable {card : Card} {id : CardId} {cols k : List Char}

theorem length_take_chars (card : Card) : (card.chars.take szKwname).length = szKwname := by
  rw [List.length_take, card.length_eq]
  rfl

theorem chars_eq (h : card.chars[szKwname]? = some '=') :
    card.chars = card.chars.take szKwname ++ '=' :: card.chars.drop (szKwname + 1) := by
  obtain ⟨hlt, heq⟩ := List.getElem?_eq_some_iff.1 h
  conv_lhs => rw [← List.take_append_drop szKwname card.chars, List.drop_eq_getElem_cons hlt, heq]

/-- Columns that are the keyword of a WCS card. -/
def Names (cols : List Char) (id : CardId) : Prop :=
  ∀ rest, iwCardtype (cols ++ '=' :: rest) = some id

theorem FitsCard.of_names (h : FitsCard card) (hnames : Names cols id)
    (htake : card.chars.take szKwname = cols) :
    card.chars[szKwname]? = some '=' ∧ cardId card = some id := by
  have hequal : card.chars[szKwname]? = some '=' := by
    rcases h.indicator with hequal | hnone
    · exact hequal
    · have := hnone ('=' :: [])
      rw [htake, hnames []] at this
      exact absurd this (Option.some_ne_none _)
  refine ⟨hequal, ?_⟩
  rw [cardId, chars_eq hequal, htake]
  exact hnames _

theorem FitsCard.names (h : FitsCard card) (hid : cardId card = some id) :
    Names (card.chars.take szKwname) id := by
  have hequal : card.chars[szKwname]? = some '=' := by
    rcases h.indicator with hequal | hnone
    · exact hequal
    · have := hnone (card.chars.drop szKwname)
      rw [List.take_append_drop, ← cardId, hid] at this
      exact absurd this (Option.some_ne_none _)
  intro rest
  rw [iwCardtype_stops (length_take_chars card) rest (card.chars.drop (szKwname + 1)),
    ← chars_eq hequal, ← hid, cardId]

theorem head_of_iwCardtype {chars : List Char} (h : iwCardtype chars = some id) :
    chars.getD 0 eos = 'C' ∨ chars.getD 0 eos = 'L' ∨ chars.getD 0 eos = 'W' := by
  by_contra hnone
  obtain ⟨hc, hl, hw⟩ : ¬_ ∧ ¬_ ∧ ¬_ := by simpa only [not_or] using hnone
  simp only [iwCardtype, Nat.sub_self, hc, hl, hw, false_and, if_false, reduceCtorEq] at h

theorem Names.keyword (hnames : Names cols id) (hk : Keyword k cols) :
    k ≠ [] ∧ idbKwlookup k = false := by
  have hhead := head_of_iwCardtype (hnames [])
  rw [hk.cols_eq, List.rightpad] at hhead
  cases k with
  | nil =>
      exfalso
      revert hhead
      decide
  | cons c k =>
      refine ⟨List.cons_ne_nil c k, ?_⟩
      simp only [List.cons_append, List.getD_cons_zero] at hhead
      rcases hhead with rfl | rfl | rfl <;> simp [idbKwlookup, standardKeywords]

/-- A card shows a part of a string. -/
structure Shows (card : Card) (bigstr : List Char) : Prop where
  value : ∃ k, cardValue card = bigstr ++ List.replicate k ' ' ∧ (bigstr.length = szBigstr → k = 0)

variable {bigstr : List Char}

def FitsCards (cards : List Card) : Prop := ∀ card ∈ cards, FitsCard card

/-- Only the cards of one kind are edited. -/
structure Edits (id : CardId) (rs cards cards' : List Card) : Prop where
  fits : FitsCards cards'
  self : recordsOf cardId id cards' = rs
  other : ∀ id' ≠ id, recordsOf cardId id' cards' = recordsOf cardId id' cards

variable {im im' : UserFields} {rs : List Card}

theorem FitsCard.putValue (h : FitsCard card) (hid : cardId card = some id) (value : List Char) :
    FitsCard (card.putValue value) ∧ cardId (card.putValue value) = some id := by
  have hcols : (card.putValue value).chars.take 9 = card.chars.take 9 :=
    take_putValue card.length_eq
  have htake : (card.putValue value).chars.take szKwname = card.chars.take szKwname := by
    simpa [List.take_take, szKwname] using congrArg (List.take 8) hcols
  have hequal : (card.putValue value).chars[szKwname]? = some '=' := by
    have hget := congrArg (·[szKwname]?) hcols
    simp only [List.getElem?_take_of_lt (show szKwname < 9 by decide)] at hget
    exact hget.trans (h.of_names (h.names hid) rfl).1
  have hfits : FitsCard (card.putValue value) := ⟨by simpa [htake] using h.keyword, .inl hequal⟩
  exact ⟨hfits, (hfits.of_names (h.names hid) htake).2⟩

theorem Edits.refl {cards : List Card} (hfits : FitsCards cards)
    (hrec : recordsOf cardId id cards = rs) : Edits id rs cards cards :=
  ⟨hfits, hrec, fun _ _ => rfl⟩

theorem Edits.trans {rs' cards cards' cards'' : List Card} (h : Edits id rs cards cards')
    (h' : Edits id rs' cards' cards'') : Edits id rs' cards cards'' :=
  ⟨h'.fits, h'.self, fun id' hne => (h'.other id' hne).trans (h.other id' hne)⟩

/-! ## Putting a string -/

variable {kind : StringKind} {axis j : Nat} {iw iw' : List CDes}

/-- The cards after number `i`, of `n` cards. -/
def written (kind : StringKind) (axis i n : Nat) (id : CardId) : Bool :=
  id.type = kind.ctype ∧ id.axis = axis ∧ (i : Int) < id.index ∧ id.index ≤ (i + n : Nat)

def CDes.mark (written : CardId → Bool) (cp : CDes) : CDes :=
  { cp with updated := cp.updated || written cp.id }

/-- What the loop of `iw_putstr` leaves in the header. -/
structure Puts (kind : StringKind) (axis i : Nat) (chunks : List (List Char))
    (cards cards' : List Card) : Prop where
  fits : FitsCards cards'
  card : ∀ n (hn : n < chunks.length), ∃ card, Shows card chunks[n] ∧
    recordsOf cardId ⟨kind.ctype, axis, (i + n + 1 : Nat)⟩ cards' =
      card :: (recordsOf cardId ⟨kind.ctype, axis, (i + n + 1 : Nat)⟩ cards).tail
  other : ∀ id, written kind axis i chunks.length id = false →
    recordsOf cardId id cards' = recordsOf cardId id cards

variable {i : Nat} {chunks : List (List Char)}

theorem written_succ (n : Nat) (id : CardId) :
    written kind axis i (n + 1) id = (written kind axis i 1 id || written kind axis (i + 1) n id) := by
  rw [Bool.eq_iff_iff, Bool.or_eq_true]
  simp only [written, decide_eq_true_iff]
  constructor
  · rintro ⟨htype, haxis, hlo, hhi⟩
    by_cases hone : id.index ≤ (i + 1 : Nat)
    · exact .inl ⟨htype, haxis, hlo, hone⟩
    · exact .inr ⟨htype, haxis, not_le.1 hone, by omega⟩
  · rintro (⟨htype, haxis, hlo, hhi⟩ | ⟨htype, haxis, hlo, hhi⟩)
    · exact ⟨htype, haxis, hlo, by omega⟩
    · exact ⟨htype, haxis, by omega, by omega⟩

theorem Puts.cons {cards cards' cards'' : List Card} {card : Card} (hshows : Shows card bigstr)
    (hedits : Edits ⟨kind.ctype, axis, (i + 1 : Nat)⟩
      (card :: (recordsOf cardId ⟨kind.ctype, axis, (i + 1 : Nat)⟩ cards).tail) cards cards')
    (hrest : Puts kind axis (i + 1) chunks cards' cards'') :
    Puts kind axis i (bigstr :: chunks) cards cards'' := by
  refine ⟨hrest.fits, ?_, ?_⟩
  · rintro (_ | n) hn
    · refine ⟨card, hshows, ?_⟩
      rw [hrest.other, Nat.add_zero, hedits.self]
      simp [written]
    · obtain ⟨card', hshows', hrec⟩ := hrest.card n (Nat.lt_of_succ_lt_succ hn)
      refine ⟨card', hshows', ?_⟩
      rw [show i + (n + 1) + 1 = i + 1 + n + 1 by omega, hrec, hedits.other]
      simp [CardId.ext_iff]
      omega
  · intro id hid
    rw [List.length_cons, written_succ, Bool.or_eq_false_iff] at hid
    rw [hrest.other id hid.2, hedits.other]
    rintro rfl
    simp [written] at hid

/-- A card descriptor that is not updated, for cards of its kind. -/
def stale (iw : List CDes) (id : CardId) : Bool :=
  iw.any fun cp => cp.id = id ∧ cp.updated = false

def pairs (iw : List CDes) : List (CardId × Card) := iw.map fun cp => (cp.id, cp.rp)

variable {cards : List Card}

end Iraf.Mwcs
