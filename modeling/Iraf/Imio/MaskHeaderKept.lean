import Iraf.Imio.MaskHeader

/-!
# What the header of a mask file keeps

The saved text has one line for each keyword and one for each card.  Loading finds
the keywords again, then the cards, which it fills with blanks.
-/

namespace Iraf.Imio

open Fmtio.LongText TextLines

variable {ρ : Type}

/-- The card without its trailing white space. -/
def Card.stripped (c : Card) : List Char := c.chars.rdropWhile isWhite

/-- The white space at the end of the card is made of blanks. -/
def Card.BlankFilled (c : Card) : Prop :=
  c.chars = c.stripped ++ List.replicate (idbReclen - c.stripped.length) ' '

def IsLong (lval : Int) : Prop := -2 ^ 63 ≤ lval ∧ lval < 2 ^ 63

instance (lval : Int) : Decidable (IsLong lval) := inferInstanceAs (Decidable (_ ∧ _))

/-- An image descriptor with a header of well formed cards. -/
structure ImHeader (ρ : Type) extends ImDes ρ where
  cards : List Card
  length_title : imTitle.length ≤ szImtitle
  printable : ∀ c ∈ imTitle, ' ' ≤ c ∧ c ≤ '~'
  isLong : IsLong imCtime ∧ IsLong imMtime ∧ IsLong imLimtime
  userarea_eq : imUserarea = joinLines newline (cards.map Card.chars)
  fits : imUserarea.length < userareaSize imLenhdrmem

/-! ## Cards -/

section Cards

variable (c : Card)

theorem Card.begins_stripped : c.stripped <+: c.chars := List.rdropWhile_prefix _ _

theorem Card.length_stripped : c.stripped.length ≤ idbReclen :=
  (Card.begins_stripped c).length_le.trans c.length_eq.le

theorem Card.newline_not_mem : newline ∉ c.chars := fun h => (c.plain _ h).1 rfl

theorem Card.newline_not_mem_stripped : newline ∉ c.stripped :=
  fun h => c.newline_not_mem ((Card.begins_stripped c).subset h)

theorem Card.length_line : (c.chars ++ [newline]).length = idbReclen + 1 := by
  rw [List.length_append, c.length_eq, List.length_singleton]

end Cards

/-- The lines of the cards in the saved text. -/
def cardLines (cards : List Card) : List (List Char) := cards.map Card.stripped

theorem newline_not_mem_cardLines {cards : List Card} :
    ∀ l ∈ cardLines cards, newline ∉ l := by
  intro l hl
  obtain ⟨c, -, rfl⟩ := List.mem_map.1 hl
  exact c.newline_not_mem_stripped

/-! ## The cards are read one after the other -/

theorem passLine_line {n : Nat} {l s : List Char} (hl : newline ∉ l) (hn : l.length < n) :
    passLine n (l ++ newline :: s) = some s := by
  induction n generalizing l with
  | zero => cases hn
  | succ n ih =>
      cases l with
      | nil => simp [passLine]
      | cons c l =>
          rw [List.mem_cons, not_or] at hl
          rw [List.cons_append, passLine, if_neg (Ne.symm hl.1)]
          exact ih hl.2 (Nat.lt_of_succ_lt_succ hn)

theorem nextRecord_card {idb : Idb} {c : Card} {s : List Char}
    (h : idb.idbRecptr = c.chars ++ newline :: s) : idb.nextRecord = s := by
  have hlen := c.length_eq
  unfold Idb.nextRecord
  split
  · rw [h, List.append_cons]
    exact List.drop_left' c.length_line
  · cases hc : c.chars with
    | nil =>
        rw [hc] at hlen
        cases hlen
    | cons ch l =>
        have hl : newline ∉ l := fun hmem =>
          c.newline_not_mem (hc ▸ List.mem_cons_of_mem ch hmem)
        have hn : l.length < idbReclen + 1 := by
          rw [hc, List.length_cons] at hlen
          omega
        rw [h, hc, List.cons_append, List.tail_cons, passLine_line hl hn, Option.getD_some]

theorem putCard_card (b : SaveBuf) (c : Card) (s : List Char) :
    b.putCard (c.chars ++ s) = b.putCard c.chars := by
  have htake : (c.chars ++ s).take idbReclen = c.chars.take idbReclen := by
    rw [List.take_append_of_le_length c.length_eq.ge]
  simp only [SaveBuf.putCard, htake]

theorem svCards_none {idb : Idb} {b : SaveBuf} (h : idbNextcard idb = none) :
    svCards idb b = b := by
  rw [svCards]
  split
  · rfl
  · simp_all

theorem svCards_some {idb idb' : Idb} {b : SaveBuf} {rp : List Char}
    (h : idbNextcard idb = some (rp, idb')) : svCards idb b = svCards idb' (b.putCard rp) := by
  rw [svCards]
  split
  · simp_all
  · rename_i h'
    rw [h, Option.some.injEq, Prod.mk.injEq] at h'
    rw [h'.1, h'.2]

theorem svCards_cards {cards : List Card} {idb : Idb} {b : SaveBuf}
    (hrec : idb.idbRecptr = joinLines newline (cards.map Card.chars))
    (hlen : (idb.offset : Int) + idb.idbRecptr.length ≤ idb.idbUalen) :
    svCards idb b = cards.foldl (fun b c => b.putCard c.chars) b := by
  induction cards generalizing idb b with
  | nil => exact svCards_none (if_pos (.inl hrec))
  | cons c cards ih =>
      rw [List.map_cons, joinLines_cons] at hrec
      have hrest := nextRecord_card hrec
      have hlength : idb.idbRecptr.length = idb.nextRecord.length + (idbReclen + 1) := by
        rw [hrec, hrest, List.length_append, List.length_cons, c.length_eq]
        omega
      have hcont : ¬ (idb.idbRecptr = [] ∨ (idb.offset : Int) ≥ idb.idbUalen) := by
        rintro (hnil | hge)
        · rw [hnil, List.length_nil] at hlength
          omega
        · omega
      have hoffset : ((idb.offset + (idb.idbRecptr.length - idb.nextRecord.length) : Nat) : Int) +
          idb.nextRecord.length ≤ idb.idbUalen := by omega
      rw [svCards_some (if_neg hcont), ih hrest hoffset, hrec, putCard_card, List.foldl_cons]

/-! ## The save buffer -/

/-- The size of a save buffer with `nchars` chars in it, after it was made larger for
each card with less room than a card needs. -/
def allocated (szBuf : Int) (nchars : Nat) : List Card → Int
  | [] => szBuf
  | c :: cards =>
      allocated (if szBuf - nchars < idbReclen then szBuf + incSzbuf else szBuf)
        (nchars + (c.stripped.length + 1)) cards

namespace SaveBuf

variable {b : SaveBuf} {c : Card} {cards : List Card}

/-- The text with its EOS fits the buffer. -/
def Fits (b : SaveBuf) : Prop := (b.text.length : Int) ≤ b.szBuf + 1

@[simp] theorem grow_text : b.grow.text = b.text := by
  unfold grow
  split <;> rfl

@[simp] theorem grow_inside : b.grow.inside = b.inside := by
  unfold grow
  split <;> rfl

theorem room_grow (h : b.Fits) : (b.text.length + idbReclen : Int) ≤ b.grow.szBuf := by
  have hinc : incSzbuf = 16384 := rfl
  have hreclen : idbReclen = 80 := rfl
  unfold Fits at h
  unfold grow
  split
  · simp only
    omega
  · omega

theorem putCard_text : (b.putCard c.chars).text = b.text ++ (c.stripped ++ [newline]) := by
  simp [putCard, put, List.take_of_length_le c.length_eq.le, Card.stripped]

@[simp] theorem putCard_szBuf : (b.putCard c.chars).szBuf = b.grow.szBuf := rfl

/-- A card is stored inside of the buffer, with the room that there is for it. -/
theorem putCard_fits (h : b.Fits) :
    (b.putCard c.chars).inside = b.inside ∧ (b.putCard c.chars).Fits := by
  have hroom := room_grow h
  have hstripped := c.length_stripped
  constructor
  · simp only [putCard, put, grow_inside, grow_text, List.take_of_length_le c.length_eq.le,
      c.length_eq, List.length_append, List.length_singleton]
    change (b.inside && decide _ && (b.inside && decide (_ + ((c.stripped.length + 1 : Nat) : Int) ≤ _))) = _
    rw [decide_eq_true (by omega), decide_eq_true (by omega), Bool.and_true, Bool.and_self]
  · rw [Fits, putCard_text, putCard_szBuf]
    simp only [List.length_append, List.length_singleton]
    omega

theorem foldl_putCard_text :
    (cards.foldl (fun b c => b.putCard c.chars) b).text =
      b.text ++ joinLines newline (cardLines cards) := by
  induction cards generalizing b with
  | nil => simp [cardLines]
  | cons c cards ih =>
      rw [List.foldl_cons, ih, putCard_text]
      simp [cardLines]

theorem foldl_putCard_szBuf :
    (cards.foldl (fun b c => b.putCard c.chars) b).szBuf =
      allocated b.szBuf b.text.length cards := by
  induction cards generalizing b with
  | nil => rfl
  | cons c cards ih =>
      have hsize : b.grow.szBuf =
          if b.szBuf - b.text.length < idbReclen then b.szBuf + incSzbuf else b.szBuf := by
        unfold grow
        split <;> rfl
      have hlen : (b.putCard c.chars).text.length =
          b.text.length + (c.stripped.length + 1) := by
        simp [putCard_text]
      rw [List.foldl_cons, ih, putCard_szBuf, hsize, hlen, allocated]

theorem foldl_putCard_fits (h : b.Fits) :
    (cards.foldl (fun b c => b.putCard c.chars) b).inside = b.inside := by
  induction cards generalizing b with
  | nil => rfl
  | cons c cards ih =>
      obtain ⟨hinside, hfits⟩ := putCard_fits (c := c) h
      rw [List.foldl_cons, ih hfits, hinside]

theorem foldl_putCard_inside
    (h : (cards.foldl (fun b c => b.putCard c.chars) b).inside = true) : b.inside = true := by
  induction cards generalizing b with
  | nil => exact h
  | cons c cards ih =>
      have hput := ih h
      simp only [putCard, put, grow_inside, Bool.and_eq_true] at hput
      exact hput.1.1

/-- A keyword is stored inside if the buffer holds it and all that was before. -/
theorem putKeyword_text {keyword value : List Char} :
    (b.putKeyword keyword value).text = b.text ++ (keyword ++ value ++ [newline]) := rfl

theorem putKeyword_inside {keyword value : List Char} :
    (b.putKeyword keyword value).inside = true ↔
      b.inside = true ∧ (b.putKeyword keyword value).Fits := by
  simp only [putKeyword, put, Fits, Bool.and_eq_true, decide_eq_true_eq, List.length_append,
    Nat.cast_add]

theorem fits_of_putKeyword {keyword value : List Char} (h : (b.putKeyword keyword value).Fits) :
    b.Fits := by
  simp only [putKeyword, put, Fits, List.length_append] at *
  omega

end SaveBuf

/-! ## The saved text -/

section Saved

variable (fmt : RealText ρ)

/-- The lines of the keywords in the saved text. -/
def keywordLines (im : ImDes ρ) : List (List Char) :=
  [kwTitle ++ (quote :: escapeQuotes (im.imTitle.take szImtitle) ++ [quote]),
    kwCtime ++ encoded (formatLong im.imCtime),
    kwMtime ++ encoded (formatLong im.imMtime),
    kwLimtime ++ encoded (formatLong im.imLimtime),
    kwMinpixval ++ encoded (fmt.format im.imMin),
    kwMaxpixval ++ encoded (fmt.format im.imMax)]

/-- The size that the save buffer has at first. -/
def initialSize (bp : Option Int) : Int :=
  match bp with
  | none => defSzbuf
  | some n => if n ≤ 0 then defSzbuf else n

/-- There is room for the keywords in the save buffer, and after the cards for the
EOS. -/
def SaveFits (im : ImHeader ρ) (bp : Option Int) : Prop :=
  let nchars := (joinLines newline (keywordLines fmt im.toImDes)).length
  (nchars : Int) ≤ initialSize bp + 1 ∧
    ((nchars + (joinLines newline (cardLines im.cards)).length : Nat) : Int) ≤
      allocated (initialSize bp) nchars im.cards

/-- The save buffer after the keywords. -/
def svKeywords (im : ImDes ρ) (bp : Option Int) : SaveBuf :=
  let b := SaveBuf.mk [] (initialSize bp) true
  let b := b.putKeyword kwTitle
    (quote :: escapeQuotes (im.imTitle.take szImtitle) ++ [quote])
  let b := b.putKeyword kwCtime (encoded (formatLong im.imCtime))
  let b := b.putKeyword kwMtime (encoded (formatLong im.imMtime))
  let b := b.putKeyword kwLimtime (encoded (formatLong im.imLimtime))
  let b := b.putKeyword kwMinpixval (encoded (fmt.format im.imMin))
  b.putKeyword kwMaxpixval (encoded (fmt.format im.imMax))

theorem svKeywords_text (im : ImDes ρ) (bp : Option Int) :
    (svKeywords fmt im bp).text = joinLines newline (keywordLines fmt im) := by
  simp [svKeywords, SaveBuf.putKeyword_text, keywordLines]

theorem svKeywords_inside (im : ImDes ρ) (bp : Option Int) :
    (svKeywords fmt im bp).inside = true ↔ (svKeywords fmt im bp).Fits := by
  simp only [svKeywords, SaveBuf.putKeyword_inside, true_and]
  refine ⟨fun h => h.2, fun h => ⟨?_, h⟩⟩
  have h5 := SaveBuf.fits_of_putKeyword h
  have h4 := SaveBuf.fits_of_putKeyword h5
  have h3 := SaveBuf.fits_of_putKeyword h4
  have h2 := SaveBuf.fits_of_putKeyword h3
  exact ⟨⟨⟨⟨SaveBuf.fits_of_putKeyword h2, h2⟩, h3⟩, h4⟩, h5⟩

theorem svCards_header (im : ImHeader ρ) (b : SaveBuf) :
    svCards (idbOpen im.toImDes) b = im.cards.foldl (fun b c => b.putCard c.chars) b := by
  refine svCards_cards im.userarea_eq ?_
  have hfits := im.fits
  simp only [idbOpen]
  omega

theorem imPmsvhdr_text (im : ImHeader ρ) (bp : Option Int) :
    (imPmsvhdr fmt im.toImDes bp).text =
      joinLines newline (keywordLines fmt im.toImDes) ++
        joinLines newline (cardLines im.cards) := by
  change (svCards (idbOpen im.toImDes) (svKeywords fmt im.toImDes bp)).text = _
  rw [svCards_header, SaveBuf.foldl_putCard_text, svKeywords_text]

theorem imPmsvhdr_inside (im : ImHeader ρ) (bp : Option Int) :
    (imPmsvhdr fmt im.toImDes bp).inside = true ↔ SaveFits fmt im bp := by
  have hcards := svCards_header im (svKeywords fmt im.toImDes bp)
  have htext := svKeywords_text fmt im.toImDes bp
  have hsize : (svKeywords fmt im.toImDes bp).szBuf = initialSize bp := rfl
  have hfits : (svKeywords fmt im.toImDes bp).Fits ↔
      ((joinLines newline (keywordLines fmt im.toImDes)).length : Int) ≤ initialSize bp + 1 := by
    rw [SaveBuf.Fits, htext, hsize]
  change ((svCards (idbOpen im.toImDes) (svKeywords fmt im.toImDes bp)).inside &&
    decide (((svCards (idbOpen im.toImDes) (svKeywords fmt im.toImDes bp)).text.length : Int) ≤
      (svCards (idbOpen im.toImDes) (svKeywords fmt im.toImDes bp)).szBuf)) = true ↔ _
  rw [hcards, Bool.and_eq_true, decide_eq_true_eq, SaveBuf.foldl_putCard_text,
    SaveBuf.foldl_putCard_szBuf, htext, hsize, List.length_append, SaveFits, ← hfits]
  refine and_congr_left fun _ => ⟨fun h => ?_, fun h => ?_⟩
  · exact (svKeywords_inside fmt im.toImDes bp).1 (SaveBuf.foldl_putCard_inside h)
  · rw [SaveBuf.foldl_putCard_fits h]
    exact (svKeywords_inside fmt im.toImDes bp).2 h

end Saved

/-! ## Finding the keywords again -/

theorem escape_ne_quote : escape ≠ quote := by decide

theorem unquote_quote {s : List Char} : unquote (quote :: s) = ([], quote :: s) := by
  cases s <;> simp [unquote]

theorem unquote_escape {s : List Char} :
    unquote (escape :: quote :: s) = (quote :: (unquote s).1, (unquote s).2) := by
  rw [unquote, if_neg escape_ne_quote, if_pos ⟨rfl, rfl⟩]

theorem unquote_cons {c : Char} {s : List Char} (h : c ≠ quote)
    (hnext : c = escape → s.head? ≠ some quote) :
    unquote (c :: s) = (c :: (unquote s).1, (unquote s).2) := by
  cases s with
  | nil => simp [unquote, h]
  | cons d s =>
      have hesc : ¬ (c = escape ∧ d = quote) := fun hcd => hnext hcd.1 (by simp [hcd.2])
      rw [unquote, if_neg h, if_neg hesc]

theorem unquote_plain {s t : List Char} (h : ∀ c ∈ s, c ≠ quote ∧ c ≠ escape) :
    unquote (s ++ t) = (s ++ (unquote t).1, (unquote t).2) := by
  induction s with
  | nil => rfl
  | cons c s ih =>
      have hc := h c List.mem_cons_self
      rw [List.cons_append, unquote_cons hc.1 fun heq => absurd heq hc.2,
        ih fun c' hc' => h c' (List.mem_cons_of_mem _ hc'), List.cons_append]

theorem head?_escapeQuotes {title s : List Char} (h : title ≠ []) :
    (escapeQuotes title ++ s).head? ≠ some quote := by
  cases title with
  | nil => exact absurd rfl h
  | cons c title =>
      rw [escapeQuotes]
      split
      · simpa using escape_ne_quote
      · simpa

theorem unquote_escapeQuotes_cons {c : Char} {title s : List Char}
    (h : c = escape → title ≠ []) :
    unquote (escapeQuotes (c :: title) ++ s) =
      (c :: (unquote (escapeQuotes title ++ s)).1, (unquote (escapeQuotes title ++ s)).2) := by
  rw [escapeQuotes]
  split
  · rename_i hc
    rw [hc, List.cons_append, List.cons_append, unquote_escape]
  · rename_i hc
    rw [List.cons_append, unquote_cons hc fun heq => head?_escapeQuotes (h heq)]

theorem unquote_escapeQuotes {title rest : List Char} (h : title.getLast? ≠ some escape) :
    unquote (escapeQuotes title ++ quote :: rest) = (title, quote :: rest) := by
  induction title with
  | nil => exact unquote_quote
  | cons c title ih =>
      have hlast : title.getLast? ≠ some escape := by
        cases title with
        | nil => simp
        | cons d title => simpa [List.getLast?_cons_cons] using h
      rw [unquote_escapeQuotes_cons, ih hlast]
      rintro rfl rfl
      exact h rfl

theorem unquote_hidden {title rest : List Char} :
    unquote (escapeQuotes (title ++ [escape]) ++ quote :: rest) =
      (title ++ quote :: (unquote rest).1, (unquote rest).2) := by
  induction title with
  | nil => exact unquote_escape
  | cons c title ih =>
      rw [List.cons_append, unquote_escapeQuotes_cons fun _ => by simp, ih, List.cons_append]

section Keywords

variable {fmt : RealText ρ} {im : ImDes ρ} {ip s : List Char} {lval : Int} {r : ρ}

theorem ldKeywords_line (h : ip.head? = some '$') :
    ldKeywords fmt im ip =
      ldKeywords fmt (ldKeyword fmt im ip).1 (nextLine newline (ldKeyword fmt im ip).2) := by
  rw [ldKeywords, dif_pos h]

theorem ldKeywords_done (h : ip.head? ≠ some '$') : ldKeywords fmt im ip = (im, ip) := by
  rw [ldKeywords, dif_neg h]

theorem ldKeyword_title : ldKeyword fmt im (kwTitle ++ ip) =
    ({ im with imTitle := (ldTitle ip).1 }, (ldTitle ip).2) := by
  rw [ldKeyword, if_pos (List.prefix_append _ _), List.drop_left]

theorem ldKeyword_ctime : ldKeyword fmt im (kwCtime ++ ip) =
    ({ im with imCtime := (ldLong ip).1 }, (ldLong ip).2) := by
  simp [ldKeyword, kwTitle, kwCtime]

theorem ldKeyword_mtime : ldKeyword fmt im (kwMtime ++ ip) =
    ({ im with imMtime := (ldLong ip).1 }, (ldLong ip).2) := by
  simp [ldKeyword, kwTitle, kwCtime, kwMtime]

theorem ldKeyword_limtime : ldKeyword fmt im (kwLimtime ++ ip) =
    ({ im with imLimtime := (ldLong ip).1 }, (ldLong ip).2) := by
  simp [ldKeyword, kwTitle, kwCtime, kwMtime, kwLimtime]

theorem ldKeyword_minpixval : ldKeyword fmt im (kwMinpixval ++ ip) =
    ({ im with imMin := (ldReal fmt ip).1 }, (ldReal fmt ip).2) := by
  simp [ldKeyword, kwTitle, kwCtime, kwMtime, kwLimtime, kwMinpixval]

theorem ldKeyword_maxpixval : ldKeyword fmt im (kwMaxpixval ++ ip) =
    ({ im with imMax := (ldReal fmt ip).1 }, (ldReal fmt ip).2) := by
  simp [ldKeyword, kwTitle, kwCtime, kwMtime, kwLimtime, kwMinpixval, kwMaxpixval]

theorem ldTitle_quote : ldTitle (quote :: ip) =
    ((unquote ip).1.take szImtitle, (unquote ip).2) := by
  simp [ldTitle]

theorem encoded_formatLong (h : IsLong lval) :
    encoded (formatLong lval) = formatLong lval := by
  have hlen : (formatLong lval).length ≤ 19 + 1 := by
    refine length_formatLong (by omega) ?_
    unfold IsLong at h
    omega
  exact List.take_of_length_le (hlen.trans (by decide))

theorem ldLong_line (h : IsLong lval) :
    ldLong (encoded (formatLong lval) ++ newline :: s) = (lval, newline :: s) := by
  obtain ⟨nchars, hpos, hctol⟩ : ∃ nchars : Int, 0 < nchars ∧
      ctol (formatLong lval ++ newline :: s) = (nchars, lval, newline :: s) := ctol_formatLong
  rw [encoded_formatLong h]
  simp only [ldLong, hctol]
  rw [if_neg (by omega)]

theorem newline_not_mem_format : newline ∉ encoded (fmt.format r) := fun h => by
  obtain hc | hc | hc | hc := fmt.plain r _ (List.mem_of_mem_take h) <;> revert hc <;> decide

theorem ldReal_line :
    nextLine newline (ldReal fmt (encoded (fmt.format r) ++ newline :: s)).2 = s := by
  have hnl : newline ∉ encoded (fmt.format r) := newline_not_mem_format
  have hpassed := fmt.passed_le (encoded (fmt.format r) ++ newline :: s)
  rw [takeWhile_line hnl] at hpassed
  simp only [ldReal]
  rw [List.drop_append_of_le_length hpassed]
  exact nextLine_line fun hmem => hnl (List.mem_of_mem_drop hmem)

/-- The keywords other than the title. -/
def otherLines (fmt : RealText ρ) (im : ImDes ρ) : List (List Char) :=
  [kwCtime ++ encoded (formatLong im.imCtime),
    kwMtime ++ encoded (formatLong im.imMtime),
    kwLimtime ++ encoded (formatLong im.imLimtime),
    kwMinpixval ++ encoded (fmt.format im.imMin),
    kwMaxpixval ++ encoded (fmt.format im.imMax)]

theorem ldKeywords_title {title : List Char} (hlen : title.length ≤ szImtitle)
    (hlast : title.getLast? ≠ some escape) :
    ldKeywords fmt im (kwTitle ++ (quote :: escapeQuotes title ++ [quote]) ++ newline :: s) =
      ldKeywords fmt { im with imTitle := title } s := by
  have hline : kwTitle ++ (quote :: escapeQuotes title ++ [quote]) ++ newline :: s =
      kwTitle ++ quote :: (escapeQuotes title ++ quote :: newline :: s) := by simp
  have hnext : nextLine newline (quote :: newline :: s) = s :=
    nextLine_line (l := [quote]) (by decide)
  rw [hline, ldKeywords_line rfl, ldKeyword_title, ldTitle_quote, unquote_escapeQuotes hlast,
    List.take_of_length_le hlen, hnext]

theorem ldKeywords_otherLines {dst : ImDes ρ}
    (h : IsLong im.imCtime ∧ IsLong im.imMtime ∧ IsLong im.imLimtime) :
    ∃ lo hi, ldKeywords fmt dst (joinLines newline (otherLines fmt im) ++ s) =
      ldKeywords fmt { dst with
        imCtime := im.imCtime
        imMtime := im.imMtime
        imLimtime := im.imLimtime
        imMin := lo
        imMax := hi } s := by
  obtain ⟨hctime, hmtime, hlimtime⟩ := h
  have hnext : ∀ s, nextLine newline (newline :: s) = s := fun s =>
    nextLine_line (l := []) (by simp)
  simp only [otherLines, joinLines_cons, joinLines_nil, List.append_assoc, List.cons_append,
    List.nil_append]
  rw [ldKeywords_line rfl, ldKeyword_ctime, ldLong_line hctime, hnext,
    ldKeywords_line rfl, ldKeyword_mtime, ldLong_line hmtime, hnext,
    ldKeywords_line rfl, ldKeyword_limtime, ldLong_line hlimtime, hnext,
    ldKeywords_line rfl, ldKeyword_minpixval, ldReal_line,
    ldKeywords_line rfl, ldKeyword_maxpixval, ldReal_line]
  exact ⟨_, _, rfl⟩

end Keywords

/-! ## Where the cards begin -/

section Rest

variable (fmt : RealText ρ)

theorem ldKeywords_lenhdrmem (im : ImDes ρ) (ip : List Char) :
    (ldKeywords fmt im ip).1.imLenhdrmem = im.imLenhdrmem := by
  have hkeyword : ∀ (im : ImDes ρ) (ip : List Char),
      (ldKeyword fmt im ip).1.imLenhdrmem = im.imLenhdrmem := fun im ip => by
    unfold ldKeyword
    split_ifs <;> rfl
  induction im, ip using ldKeywords.induct fmt with
  | case1 im ip h ih => rw [ldKeywords_line h, ih, hkeyword]
  | case2 im ip h => rw [ldKeywords_done h]

/-- The cards begin at a line of the text, and not at the first one if it begins
with a `$`. -/
theorem ldKeywords_rest {lines : List (List Char)} (h : ∀ l ∈ lines, newline ∉ l)
    (im : ImDes ρ) :
    ∃ j, (ldKeywords fmt im (joinLines newline lines)).2 = joinLines newline (lines.drop j) ∧
      ((joinLines newline lines).head? = some '$' → 0 < j) := by
  induction hn : lines.length using Nat.strong_induction_on generalizing lines im with
  | _ n ih =>
      by_cases hhead : (joinLines newline lines).head? = some '$'
      · have hne : lines ≠ [] := by
          rintro rfl
          cases hhead
        obtain ⟨j, hj, hpos⟩ := nextLine_joinLines h
          (ldKeyword_suffix fmt im (joinLines newline lines))
        have hdrop : ∀ l ∈ lines.drop j, newline ∉ l := fun l hl =>
          h l (List.mem_of_mem_drop hl)
        have hlt : (lines.drop j).length < n := by
          have hlen := List.length_pos_iff.2 hne
          have hjpos := hpos hne
          rw [List.length_drop]
          omega
        obtain ⟨k, hk, -⟩ := ih _ hlt hdrop
          (ldKeyword fmt im (joinLines newline lines)).1 rfl
        refine ⟨j + k, ?_, fun _ => Nat.add_pos_left (hpos hne) k⟩
        rw [ldKeywords_line hhead, hj, hk, List.drop_drop]
      · exact ⟨0, by rw [ldKeywords_done hhead, List.drop_zero], fun h => absurd h hhead⟩

end Rest

/-! ## Loading the cards -/

theorem takeCard_line {n : Nat} {l s : List Char} (hl : newline ∉ l) (hn : l.length < n) :
    takeCard n (l ++ newline :: s) = (l, s) := by
  induction n generalizing l with
  | zero => cases hn
  | succ n ih =>
      cases l with
      | nil => simp [takeCard]
      | cons c l =>
          rw [List.mem_cons, not_or] at hl
          rw [List.cons_append, takeCard, if_neg (Ne.symm hl.1),
            ih hl.2 (Nat.lt_of_succ_lt_succ hn)]

/-- The buffer after the cards of the lines. -/
def ldLines (realloc : Int → Nat → Int) (b : LoadBuf) (lines : List (List Char)) : LoadBuf :=
  lines.foldl (fun b l => b.putCard realloc l) b

/-- At each growth of the descriptor the user area stays where it is, or it moves up
while a card without trailing white space is loaded. -/
def StaysPut (realloc : Int → Nat → Int) : Int → Nat → Nat → List Card → Prop
  | _, _, _, [] => True
  | ua, lenhdrmem, nchars, c :: cards =>
      if (nchars + idbReclen + 2 : Int) > userareaSize lenhdrmem - 1 then
        (realloc ua (lenhdrmem + incHdrmem) = ua ∨
          c.stripped.length = idbReclen ∧ ua < realloc ua (lenhdrmem + incHdrmem)) ∧
        StaysPut realloc (realloc ua (lenhdrmem + incHdrmem)) (lenhdrmem + incHdrmem)
          (nchars + (idbReclen + 1)) cards
      else StaysPut realloc ua lenhdrmem (nchars + (idbReclen + 1)) cards

section Cards

variable {realloc : Int → Nat → Int} {b : LoadBuf} {c : Card} {cards : List Card}
  {lines : List (List Char)} {l : List Char}

theorem ldLines_cons :
    ldLines realloc b (l :: lines) = ldLines realloc (b.putCard realloc l) lines :=
  List.foldl_cons

theorem ldCards_lines (h : ∀ l ∈ lines, newline ∉ l ∧ l.length ≤ idbReclen) :
    ldCards realloc b (joinLines newline lines) = ldLines realloc b lines := by
  induction lines generalizing b with
  | nil => rw [joinLines_nil, ldCards, dif_pos rfl, ldLines, List.foldl_nil]
  | cons l lines ih =>
      obtain ⟨hnl, hlen⟩ := h l List.mem_cons_self
      have hlt : l.length < idbReclen + 1 := by omega
      rw [joinLines_cons, ldCards, dif_neg (by simp)]
      simp only [takeCard_line hnl hlt]
      rw [ldLines_cons, ih fun l' hl' => h l' (List.mem_cons_of_mem _ hl')]

@[simp] theorem LoadBuf.grow_text : (b.grow realloc).text = b.text := by
  unfold grow
  split <;> rfl

@[simp] theorem LoadBuf.grow_inside : (b.grow realloc).inside = b.inside := by
  unfold grow
  split <;> rfl

/-- The blanks that fill a card: too few when the user area has moved up. -/
def LoadBuf.blanks (realloc : Int → Nat → Int) (b : LoadBuf) (card : List Char) : List Char :=
  List.replicate (idbReclen - ((b.grow realloc).ua - b.ua + card.length)).toNat ' '

theorem LoadBuf.putCard_text :
    (b.putCard realloc l).text = b.text ++ (l ++ b.blanks realloc l ++ [newline]) := by
  have hcount : (b.grow realloc).ua + b.text.length + l.length - (b.ua + b.text.length) =
      (b.grow realloc).ua - b.ua + l.length := by omega
  simp only [putCard, grow_text, blanks, hcount]

theorem LoadBuf.putCard_ua : (b.putCard realloc l).ua = (b.grow realloc).ua := by
  simp only [putCard]

theorem LoadBuf.putCard_lenhdrmem :
    (b.putCard realloc l).lenhdrmem = (b.grow realloc).lenhdrmem := by
  simp only [putCard]

theorem LoadBuf.putCard_inside :
    (b.putCard realloc l).inside = (b.inside &&
      decide ((b.putCard realloc l).text.length ≤ userareaSize (b.grow realloc).lenhdrmem)) := by
  simp only [putCard, grow_inside]

theorem LoadBuf.newline_not_mem_blanks : newline ∉ b.blanks realloc l := fun h => by
  have hblank := List.eq_of_mem_replicate h
  revert hblank
  decide

theorem count_ldLines (h : ∀ l ∈ lines, newline ∉ l) :
    (ldLines realloc b lines).text.count newline = b.text.count newline + lines.length := by
  induction lines generalizing b with
  | nil => rfl
  | cons l lines ih =>
      have hl := h l List.mem_cons_self
      rw [ldLines_cons, ih fun l' hl' => h l' (List.mem_cons_of_mem _ hl'), LoadBuf.putCard_text, List.count_append, List.count_append, List.count_append,
        List.count_eq_zero.2 hl, List.count_eq_zero.2 LoadBuf.newline_not_mem_blanks,
        List.count_singleton_self, List.length_cons]
      omega

theorem prefix_ldLines : b.text <+: (ldLines realloc b lines).text := by
  induction lines generalizing b with
  | nil => exact List.prefix_rfl
  | cons l lines ih =>
      have hput : b.text <+: (b.putCard realloc l).text := by
        rw [LoadBuf.putCard_text]
        exact List.prefix_append _ _
      rw [ldLines_cons]
      exact hput.trans ih

/-- A card is filled as it was exactly when it has blanks at its end, and as many
blanks are put there as were taken away. -/
theorem Card.filled_iff {n : Nat} :
    c.stripped ++ List.replicate n ' ' = c.chars ↔
      c.BlankFilled ∧ n = idbReclen - c.stripped.length := by
  constructor
  · intro h
    have hlen : n = idbReclen - c.stripped.length := by
      rw [← c.length_eq, ← h, List.length_append, List.length_replicate]
      omega
    exact ⟨(hlen ▸ h).symm, hlen⟩
  · rintro ⟨hblank, rfl⟩
    exact hblank.symm

/-- The descriptor stays, or its growth does not touch the card. -/
def LoadBuf.CardStays (realloc : Int → Nat → Int) (b : LoadBuf) (c : Card) : Prop :=
  (b.grow realloc).ua = b.ua ∨
    c.stripped.length = idbReclen ∧ b.ua < (b.grow realloc).ua

theorem LoadBuf.filled_iff :
    c.stripped ++ b.blanks realloc c.stripped = c.chars ↔
      c.BlankFilled ∧ b.CardStays realloc c := by
  have hlen := c.length_stripped
  rw [blanks, Card.filled_iff, CardStays]
  refine and_congr_right fun _ => ?_
  omega

theorem staysPut_cons :
    StaysPut realloc b.ua b.lenhdrmem b.text.length (c :: cards) ↔
      b.CardStays realloc c ∧ StaysPut realloc (b.grow realloc).ua (b.grow realloc).lenhdrmem
        (b.text.length + (idbReclen + 1)) cards := by
  rw [StaysPut, LoadBuf.CardStays, LoadBuf.grow]
  split
  · rfl
  · simp

/-- The cards are loaded as they were exactly when all of them have blanks at their
ends and are not touched by the growth of the descriptor. -/
theorem ldLines_text_iff :
    (ldLines realloc b (cardLines cards)).text =
        b.text ++ joinLines newline (cards.map Card.chars) ↔
      (∀ c ∈ cards, c.BlankFilled) ∧
        StaysPut realloc b.ua b.lenhdrmem b.text.length cards := by
  induction cards generalizing b with
  | nil => simp [ldLines, cardLines, StaysPut]
  | cons c cards ih =>
      obtain ⟨more, hmore⟩ : (b.putCard realloc c.stripped).text <+:
          (ldLines realloc (b.putCard realloc c.stripped) (cardLines cards)).text :=
        prefix_ldLines
      have hsplit : (ldLines realloc b (cardLines (c :: cards))).text = b.text ++
          (c.stripped ++ b.blanks realloc c.stripped ++ newline :: more) := by
        rw [cardLines, List.map_cons, ldLines_cons]
        refine hmore.symm.trans ?_
        simp [LoadBuf.putCard_text]
      have hnl : newline ∉ c.stripped ++ b.blanks realloc c.stripped := by
        rw [List.mem_append, not_or]
        exact ⟨c.newline_not_mem_stripped, LoadBuf.newline_not_mem_blanks⟩
      have hline : (ldLines realloc b (cardLines (c :: cards))).text =
            b.text ++ joinLines newline ((c :: cards).map Card.chars) ↔
          c.stripped ++ b.blanks realloc c.stripped = c.chars ∧
            more = joinLines newline (cards.map Card.chars) := by
        rw [hsplit, List.append_cancel_left_eq, List.map_cons, joinLines_cons]
        exact ⟨line_inj hnl c.newline_not_mem, fun h => by rw [h.1, h.2]⟩
      have hrest (hfilled : c.stripped ++ b.blanks realloc c.stripped = c.chars) :
          more = joinLines newline (cards.map Card.chars) ↔ (∀ c ∈ cards, c.BlankFilled) ∧
            StaysPut realloc (b.grow realloc).ua (b.grow realloc).lenhdrmem
              (b.text.length + (idbReclen + 1)) cards := by
        have hlen : (b.putCard realloc c.stripped).text.length =
            b.text.length + (idbReclen + 1) := by
          rw [LoadBuf.putCard_text, hfilled, List.length_append, c.length_line]
        have hcards := ih (b := b.putCard realloc c.stripped)
        rwa [← hmore, List.append_cancel_left_eq, hlen, LoadBuf.putCard_ua,
          LoadBuf.putCard_lenhdrmem] at hcards
      rw [hline, LoadBuf.filled_iff, staysPut_cons, List.forall_mem_cons]
      constructor
      · rintro ⟨hfilled, hmore⟩
        obtain ⟨hcards, hstays⟩ := (hrest (LoadBuf.filled_iff.2 hfilled)).1 hmore
        exact ⟨⟨hfilled.1, hcards⟩, hfilled.2, hstays⟩
      · rintro ⟨⟨hblank, hcards⟩, hcard, hstays⟩
        have hfilled : c.BlankFilled ∧ b.CardStays realloc c := ⟨hblank, hcard⟩
        exact ⟨hfilled, (hrest (LoadBuf.filled_iff.2 hfilled)).2 ⟨hcards, hstays⟩⟩

theorem LoadBuf.room_grow (hdr : lenImhdr ≤ b.lenhdrmem)
    (h : b.text.length ≤ userareaSize b.lenhdrmem) :
    b.text.length + (idbReclen + 1) < userareaSize (b.grow realloc).lenhdrmem := by
  simp only [userareaSize, szStruct, lenImhdr, idbReclen] at *
  unfold grow
  split
  · simp only [incHdrmem]
    omega
  · rename_i hroom
    simp only [userareaSize, szStruct, lenImhdr, idbReclen] at hroom
    omega

theorem LoadBuf.putCard_fits (hdr : lenImhdr ≤ b.lenhdrmem)
    (h : b.text.length ≤ userareaSize b.lenhdrmem)
    (hfilled : c.stripped ++ b.blanks realloc c.stripped = c.chars) :
    (b.putCard realloc c.stripped).inside = b.inside ∧
      (b.putCard realloc c.stripped).text.length <
        userareaSize (b.putCard realloc c.stripped).lenhdrmem := by
  have hroom : b.text.length + (idbReclen + 1) < userareaSize (b.grow realloc).lenhdrmem :=
    room_grow hdr h
  have hlen : (b.putCard realloc c.stripped).text.length =
      b.text.length + (idbReclen + 1) := by
    rw [putCard_text, hfilled, List.length_append, c.length_line]
  refine ⟨?_, by rwa [hlen, putCard_lenhdrmem]⟩
  rw [putCard_inside, hlen, decide_eq_true hroom.le, Bool.and_true]

theorem ldLines_inside (hdr : lenImhdr ≤ b.lenhdrmem)
    (h : b.text.length ≤ userareaSize b.lenhdrmem) (hblank : ∀ c ∈ cards, c.BlankFilled)
    (hstays : StaysPut realloc b.ua b.lenhdrmem b.text.length cards) :
    (ldLines realloc b (cardLines cards)).inside = b.inside ∧
      (cards ≠ [] → (ldLines realloc b (cardLines cards)).text.length <
        userareaSize (ldLines realloc b (cardLines cards)).lenhdrmem) := by
  induction cards generalizing b with
  | nil => exact ⟨rfl, fun hne => absurd rfl hne⟩
  | cons c cards ih =>
      rw [staysPut_cons] at hstays
      obtain ⟨hcard, hcards⟩ := hstays
      have hfilled : c.stripped ++ b.blanks realloc c.stripped = c.chars :=
        LoadBuf.filled_iff.2 ⟨hblank c List.mem_cons_self, hcard⟩
      obtain ⟨hinside, hlt⟩ := LoadBuf.putCard_fits hdr h hfilled
      have hlen : (b.putCard realloc c.stripped).text.length =
          b.text.length + (idbReclen + 1) := by
        rw [LoadBuf.putCard_text, hfilled, List.length_append, c.length_line]
      have hrec := ih (b := b.putCard realloc c.stripped)
        (hdr.trans (b.le_lenhdrmem_putCard _)) hlt.le
        (fun c' hc' => hblank c' (List.mem_cons_of_mem _ hc'))
        (by rwa [hlen, LoadBuf.putCard_ua, LoadBuf.putCard_lenhdrmem])
      rw [cardLines, List.map_cons, ldLines_cons]
      refine ⟨hrec.1.trans hinside, fun _ => ?_⟩
      cases cards with
      | nil => exact hlt
      | cons c' cards => exact hrec.2 (List.cons_ne_nil _ _)

end Cards

/-! ## The header that is loaded -/

section Kept

variable (fmt : RealText ρ) (realloc : Int → Nat → Int) (im : ImHeader ρ) (bp : Option Int)
  (dst : ImDes ρ) (ua : Int)

/-- What is loaded from the text that is saved. -/
def reload : Loaded ρ :=
  imPmldhdr fmt realloc dst ua (imPmsvhdr fmt im.toImDes bp).text

/-- The mask file keeps the header, and nothing is stored outside of a buffer. -/
structure Kept : Prop where
  saved : (imPmsvhdr fmt im.toImDes bp).inside = true
  loaded : (reload fmt realloc im bp dst ua).inside = true
  title : (reload fmt realloc im bp dst ua).im.imTitle = im.imTitle
  ctime : (reload fmt realloc im bp dst ua).im.imCtime = im.imCtime
  mtime : (reload fmt realloc im bp dst ua).im.imMtime = im.imMtime
  limtime : (reload fmt realloc im bp dst ua).im.imLimtime = im.imLimtime
  userarea : (reload fmt realloc im bp dst ua).im.imUserarea =
    joinLines newline (im.cards.map Card.chars)

/-- The headers, buffers and descriptors for which this works. -/
structure Keepable : Prop where
  title : im.imTitle.getLast? ≠ some escape
  dollar : ∀ c, im.cards.head? = some c → c.chars.head? ≠ some '$'
  blanks : ∀ c ∈ im.cards, c.BlankFilled
  room : SaveFits fmt im bp
  stays : StaysPut realloc ua dst.imLenhdrmem 0 im.cards
  area : im.cards = [] → 0 < userareaSize dst.imLenhdrmem

variable {fmt realloc im bp dst ua}

theorem joinLines_keywordLines (s : List Char) :
    joinLines newline (keywordLines fmt im.toImDes) ++ s =
      kwTitle ++ (quote :: escapeQuotes im.imTitle ++ [quote]) ++
        newline :: (joinLines newline (otherLines fmt im.toImDes) ++ s) := by
  rw [keywordLines, joinLines_cons, List.take_of_length_le im.length_title, List.append_assoc,
    List.cons_append]
  rfl

theorem plain_of_all {s : List Char} (h : s.all (fun c => c != quote && c != escape) = true) :
    ∀ c ∈ s, c ≠ quote ∧ c ≠ escape := by
  simpa [List.all_eq_true] using h

theorem otherLines_plain :
    ∀ c ∈ newline :: joinLines newline (otherLines fmt im.toImDes),
      c ≠ quote ∧ c ≠ escape := by
  have hlong (lval : Int) : ∀ c ∈ encoded (formatLong lval), c ≠ quote ∧ c ≠ escape := by
    intro c hc
    constructor <;> rintro rfl <;>
      obtain h | h := plain_formatLong (List.mem_of_mem_take hc) <;> revert h <;> decide
  have hreal (r : ρ) : ∀ c ∈ encoded (fmt.format r), c ≠ quote ∧ c ≠ escape := by
    intro c hc
    constructor <;> rintro rfl <;>
      obtain h | h | h | h := fmt.plain r _ (List.mem_of_mem_take hc) <;> revert h <;> decide
  have hnl : ∀ c ∈ [newline], c ≠ quote ∧ c ≠ escape := plain_of_all (by decide)
  intro c hc
  simp only [otherLines, joinLines_cons, joinLines_nil, List.mem_cons, List.mem_append,
    List.not_mem_nil, or_false] at hc
  obtain hc | (hc | hc) | hc | (hc | hc) | hc | (hc | hc) | hc | (hc | hc) | hc | (hc | hc) | hc :=
    hc
  · exact hnl c (by simp [hc])
  · exact plain_of_all (by decide : kwCtime.all _ = true) c hc
  · exact hlong _ c hc
  · exact hnl c (by simp [hc])
  · exact plain_of_all (by decide : kwMtime.all _ = true) c hc
  · exact hlong _ c hc
  · exact hnl c (by simp [hc])
  · exact plain_of_all (by decide : kwLimtime.all _ = true) c hc
  · exact hlong _ c hc
  · exact hnl c (by simp [hc])
  · exact plain_of_all (by decide : kwMinpixval.all _ = true) c hc
  · exact hreal _ c hc
  · exact hnl c (by simp [hc])
  · exact plain_of_all (by decide : kwMaxpixval.all _ = true) c hc
  · exact hreal _ c hc
  · exact hnl c (by simp [hc])

theorem cardLines_lines {cards : List Card} {j : Nat} :
    ∀ l ∈ (cardLines cards).drop j, newline ∉ l ∧ l.length ≤ idbReclen := by
  intro l hl
  obtain ⟨c, -, rfl⟩ := List.mem_map.1 (List.mem_of_mem_drop hl)
  exact ⟨c.newline_not_mem_stripped, c.length_stripped⟩

/-- The state before the first card is loaded. -/
def loadStart (dst : ImDes ρ) (ua : Int) : LoadBuf := ⟨ua, dst.imLenhdrmem, [], true⟩

variable (realloc ua) in
theorem reload_userarea {j : Nat}
    (hrest : (ldKeywords fmt dst (imPmsvhdr fmt im.toImDes bp).text).2 =
      joinLines newline ((cardLines im.cards).drop j)) :
    (reload fmt realloc im bp dst ua).im.imUserarea =
        (ldLines realloc (loadStart dst ua) ((cardLines im.cards).drop j)).text ∧
      ((reload fmt realloc im bp dst ua).inside = true ↔
        (ldLines realloc (loadStart dst ua) ((cardLines im.cards).drop j)).inside = true ∧
        (ldLines realloc (loadStart dst ua) ((cardLines im.cards).drop j)).text.length <
          userareaSize
            (ldLines realloc (loadStart dst ua) ((cardLines im.cards).drop j)).lenhdrmem) := by
  have hlen := ldKeywords_lenhdrmem fmt dst (imPmsvhdr fmt im.toImDes bp).text
  rw [← ldCards_lines cardLines_lines]
  constructor
  · simp only [reload, imPmldhdr, hrest, hlen, loadStart]
  · simp only [reload, imPmldhdr, hrest, hlen, loadStart, Bool.and_eq_true, decide_eq_true_eq]

theorem lines_of_userarea {j : Nat}
    (hrest : (ldKeywords fmt dst (imPmsvhdr fmt im.toImDes bp).text).2 =
      joinLines newline ((cardLines im.cards).drop j))
    (h : (reload fmt realloc im bp dst ua).im.imUserarea =
      joinLines newline (im.cards.map Card.chars)) :
    im.cards = [] ∨ j = 0 := by
  have hchars : ∀ l ∈ im.cards.map Card.chars, newline ∉ l := by
    intro l hl
    obtain ⟨c, -, rfl⟩ := List.mem_map.1 hl
    exact c.newline_not_mem
  have hcount := congrArg (List.count newline) ((reload_userarea realloc ua hrest).1.symm.trans h)
  rw [count_ldLines fun l hl => (cardLines_lines l hl).1, count_joinLines hchars] at hcount
  simp only [loadStart, List.count_nil, cardLines, List.length_drop, List.length_map] at hcount
  rw [← List.length_eq_zero_iff]
  omega

theorem title_of_kept (h : Kept fmt realloc im bp dst ua) :
    im.imTitle.getLast? ≠ some escape := by
  intro hlast
  obtain ⟨title, htitle⟩ := List.getLast?_eq_some_iff.1 hlast
  have hcards : ∀ l ∈ cardLines im.cards, newline ∉ l := newline_not_mem_cardLines
  let hidden := newline :: joinLines newline (otherLines fmt im.toImDes)
  -- the string ends at a quote in a card, or at the end of the text
  have hunquote : unquote (escapeQuotes im.imTitle ++ quote ::
        (hidden ++ joinLines newline (cardLines im.cards))) =
      (title ++ quote :: (hidden ++ (unquote (joinLines newline (cardLines im.cards))).1),
        (unquote (joinLines newline (cardLines im.cards))).2) := by
    rw [htitle, unquote_hidden, unquote_plain otherLines_plain]
  have hstart : ldKeywords fmt dst (imPmsvhdr fmt im.toImDes bp).text = ldKeywords fmt
      { dst with imTitle := (title ++ quote ::
          (hidden ++ (unquote (joinLines newline (cardLines im.cards))).1)).take szImtitle }
      (nextLine newline (unquote (joinLines newline (cardLines im.cards))).2) := by
    have hline : (imPmsvhdr fmt im.toImDes bp).text =
        kwTitle ++ quote :: (escapeQuotes im.imTitle ++ quote ::
          (hidden ++ joinLines newline (cardLines im.cards))) := by
      rw [imPmsvhdr_text, joinLines_keywordLines]
      simp [hidden]
    rw [hline, ldKeywords_line rfl, ldKeyword_title, ldTitle_quote, hunquote]
  obtain ⟨j, hj, hpos⟩ := nextLine_joinLines hcards
    (unquote_suffix (joinLines newline (cardLines im.cards)))
  rw [hj] at hstart
  obtain ⟨k, hk, -⟩ := ldKeywords_rest fmt (fun l hl => (cardLines_lines l hl).1)
    { dst with imTitle := (title ++ quote ::
      (hidden ++ (unquote (joinLines newline (cardLines im.cards))).1)).take szImtitle }
  rw [List.drop_drop] at hk
  have hlines := lines_of_userarea ((congrArg Prod.snd hstart).trans hk) h.userarea
  by_cases hnil : cardLines im.cards = []
  · -- without cards the title is followed by the rest of the text
    have hloaded : (ldKeywords fmt dst (imPmsvhdr fmt im.toImDes bp).text).1.imTitle =
        (title ++ quote :: hidden).take szImtitle := by
      rw [hstart, hnil, List.drop_nil, joinLines_nil, ldKeywords_done (by simp)]
      simp [unquote]
    have hlen := im.length_title
    rw [htitle, List.length_append, List.length_singleton] at hlen
    have htake : ((title ++ quote :: hidden).take szImtitle)[title.length]? = some quote := by
      rw [List.getElem?_take_of_lt hlen]
      simp
    rw [hloaded.symm.trans (h.title.trans htitle), List.getElem?_concat_length] at htake
    exact absurd (Option.some.inj htake) escape_ne_quote
  · -- otherwise at least one card was passed over
    have hne : im.cards ≠ [] := fun h => hnil (congrArg cardLines h)
    have hjpos := hpos hnil
    have hzero := hlines.resolve_left hne
    omega

theorem Card.head?_stripped (c : Card) (s : List Char) :
    (c.stripped ++ newline :: s).head? = some '$' ↔ c.chars.head? = some '$' := by
  obtain ⟨white, hwhite⟩ := Card.begins_stripped c
  cases hstripped : c.stripped with
  | nil =>
      have hall := List.rdropWhile_eq_nil_iff.1 hstripped
      have hnl : newline ≠ '$' := by decide
      refine iff_of_false (by simpa using hnl) fun h => ?_
      have hdollar := hall '$' (List.mem_of_mem_head? h)
      revert hdollar
      decide
  | cons ch l => rw [← hwhite, hstripped, List.cons_append, List.cons_append]; rfl

/-- The search for keywords goes on in the cards when the first one begins with a
`$`. -/
theorem head?_cardLines {cards : List Card} :
    (joinLines newline (cardLines cards)).head? = some '$' ↔
      ∃ c, cards.head? = some c ∧ c.chars.head? = some '$' := by
  cases cards with
  | nil => simp [cardLines]
  | cons c cards =>
      rw [cardLines, List.map_cons, joinLines_cons, c.head?_stripped]
      simp

theorem ldKeywords_saved {dst : ImDes ρ} {bp : Option Int} (h : im.imTitle.getLast? ≠ some escape) :
    ∃ lo hi, ldKeywords fmt dst (imPmsvhdr fmt im.toImDes bp).text =
      ldKeywords fmt { dst with
        imTitle := im.imTitle
        imCtime := im.imCtime
        imMtime := im.imMtime
        imLimtime := im.imLimtime
        imMin := lo
        imMax := hi } (joinLines newline (cardLines im.cards)) := by
  rw [imPmsvhdr_text, joinLines_keywordLines, ldKeywords_title im.length_title h]
  exact ldKeywords_otherLines im.isLong

theorem dollar_of_kept (h : Kept fmt realloc im bp dst ua) :
    (joinLines newline (cardLines im.cards)).head? ≠ some '$' := by
  intro hhead
  obtain ⟨lo, hi, hsaved⟩ : ∃ lo hi, ldKeywords fmt dst (imPmsvhdr fmt im.toImDes bp).text =
      ldKeywords fmt _ _ := ldKeywords_saved (title_of_kept h)
  obtain ⟨j, hj, hpos⟩ := ldKeywords_rest fmt newline_not_mem_cardLines { dst with
    imTitle := im.imTitle
    imCtime := im.imCtime
    imMtime := im.imMtime
    imLimtime := im.imLimtime
    imMin := lo
    imMax := hi }
  obtain hnil | hzero := lines_of_userarea ((congrArg Prod.snd hsaved).trans hj) h.userarea
  · rw [hnil] at hhead
    cases hhead
  · exact absurd (hpos hhead) (by omega)

variable (fmt realloc bp dst ua) in
theorem reload_fields (htitle : im.imTitle.getLast? ≠ some escape)
    (hdollar : (joinLines newline (cardLines im.cards)).head? ≠ some '$') :
    (reload fmt realloc im bp dst ua).im.imTitle = im.imTitle ∧
      (reload fmt realloc im bp dst ua).im.imCtime = im.imCtime ∧
      (reload fmt realloc im bp dst ua).im.imMtime = im.imMtime ∧
      (reload fmt realloc im bp dst ua).im.imLimtime = im.imLimtime ∧
      (ldKeywords fmt dst (imPmsvhdr fmt im.toImDes bp).text).2 =
        joinLines newline ((cardLines im.cards).drop 0) := by
  obtain ⟨lo, hi, hsaved⟩ := ldKeywords_saved htitle
  rw [ldKeywords_done hdollar] at hsaved
  refine ⟨?_, ?_, ?_, ?_, congrArg Prod.snd hsaved⟩
  · change (ldKeywords fmt dst (imPmsvhdr fmt im.toImDes bp).text).1.imTitle = _
    rw [hsaved]
  · change (ldKeywords fmt dst (imPmsvhdr fmt im.toImDes bp).text).1.imCtime = _
    rw [hsaved]
  · change (ldKeywords fmt dst (imPmsvhdr fmt im.toImDes bp).text).1.imMtime = _
    rw [hsaved]
  · change (ldKeywords fmt dst (imPmsvhdr fmt im.toImDes bp).text).1.imLimtime = _
    rw [hsaved]

theorem stays_iff {b : LoadBuf} (hb : b = loadStart dst ua) :
    (ldLines realloc b (cardLines im.cards)).text =
        joinLines newline (im.cards.map Card.chars) ↔
      (∀ c ∈ im.cards, c.BlankFilled) ∧ StaysPut realloc ua dst.imLenhdrmem 0 im.cards := by
  subst hb
  exact ldLines_text_iff (b := loadStart dst ua)

theorem keepable_of_kept (h : Kept fmt realloc im bp dst ua) :
    Keepable fmt realloc im bp dst ua := by
  have htitle := title_of_kept h
  have hdollar := dollar_of_kept h
  obtain ⟨-, -, -, -, hrest⟩ := reload_fields fmt realloc bp dst ua htitle hdollar
  obtain ⟨huserarea, hinside⟩ := reload_userarea realloc ua hrest
  obtain ⟨hblanks, hstays⟩ := (stays_iff rfl).1 (huserarea.symm.trans h.userarea)
  refine ⟨htitle, fun c hc hchars => ?_, hblanks, (imPmsvhdr_inside fmt im bp).1 h.saved, hstays,
    fun hnil => ?_⟩
  · exact hdollar (head?_cardLines.2 ⟨c, hc, hchars⟩)
  · have hlt := (hinside.1 h.loaded).2
    rwa [hnil] at hlt

theorem kept_of_keepable (h : Keepable fmt realloc im bp dst ua) :
    Kept fmt realloc im bp dst ua := by
  have hdollar : (joinLines newline (cardLines im.cards)).head? ≠ some '$' := fun hhead => by
    obtain ⟨c, hc, hchars⟩ := head?_cardLines.1 hhead
    exact h.dollar c hc hchars
  obtain ⟨htitle, hctime, hmtime, hlimtime, hrest⟩ :=
    reload_fields fmt realloc bp dst ua h.title hdollar
  obtain ⟨huserarea, hinside⟩ := reload_userarea realloc ua hrest
  have htext := (stays_iff (b := loadStart dst ua) rfl).2 ⟨h.blanks, h.stays⟩
  obtain ⟨hin, hlt⟩ := ldLines_inside (b := loadStart dst ua) dst.lenImhdr_le (Nat.zero_le _)
    h.blanks h.stays
  refine ⟨(imPmsvhdr_inside fmt im bp).2 h.room, hinside.2 ⟨hin, ?_⟩, htitle, hctime, hmtime,
    hlimtime, huserarea.trans htext⟩
  by_cases hnil : im.cards = []
  · rw [hnil]
    exact h.area hnil
  · exact hlt hnil

/-- A mask file keeps its header exactly when the title does not end in a
backslash, the first card does not begin with a `$`, no card has a tab at its end,
the save buffer and the user area have room, and the descriptor does not move under
a card that is being filled. -/
theorem mask_header : Kept fmt realloc im bp dst ua ↔ Keepable fmt realloc im bp dst ua :=
  ⟨keepable_of_kept, kept_of_keepable⟩

end Kept

/-! ## A title that hides the rest of the header -/

/-- Numbers that are always zero. -/
def zeroText : RealText Unit where
  zero := ()
  format _ := ['0']
  ctor _ := ⟨1, (), 0⟩
  plain _ c hc := by
    obtain rfl := List.mem_singleton.1 hc
    decide
  passed_le _ := Nat.zero_le _

/-- A header with a backslash for its title and without cards. -/
def backslashHeader : ImHeader Unit where
  imTitle := [escape]
  imCtime := 1
  imMtime := 2
  imLimtime := 3
  imMin := ()
  imMax := ()
  imUserarea := []
  imUablocked := 1
  imLenhdrmem := 2000
  lenImhdr_le := by decide
  cards := []
  length_title := by decide
  printable c hc := by
    obtain rfl := List.mem_singleton.1 hc
    decide
  isLong := by decide
  userarea_eq := rfl
  fits := by decide

theorem not_kept_backslash :
    ¬ Kept zeroText (fun ua _ => ua) backslashHeader none backslashHeader.toImDes 0 :=
  fun h => (keepable_of_kept h).title rfl

end Iraf.Imio
