import Iraf.Imio.Imputh
import Iraf.Lib.Cells

/-!
# Header cards in memory

`idbfind.x`: the search for a card in the user area of an image descriptor.  A
pointer is an address of chars, and `patmatch` stands for `patmake` and
`patmatch`.
-/

namespace Iraf.Imio

open Cells Fmtio Fmtio.LongText TextLines

/-- The places and lengths that the header database keeps of a descriptor. -/
structure HeaderArea where
  ua : Int
  imLenhdrmem : Nat
  imUablocked : Int

/-- Does a pattern match the string at an address? -/
abbrev Patmatch := List Char → Memory Char → Int → Bool

namespace HeaderArea

def maxLenuserarea (h : HeaderArea) : Int := userareaSize h.imLenhdrmem - 1

/-- The chars up to the EOS. -/
def text (h : HeaderArea) (m : Memory Char) : List Char :=
  (fetch m h.ua (userareaSize h.imLenhdrmem)).takeWhile (· ≠ eos)

end HeaderArea

/-! ## The search for a record -/

/-- The search in blocked records without a pattern. -/
def recordMatches (key : List Char) (m : Memory Char) (ip : Int) : Bool :=
  let lkey := (key.take idbSzfitskey).map Char.toLower
  let ukey := (key.take idbSzfitskey).map Char.toUpper
  let nchars := lkey.length
  if m ip ≠ lkey.getD 0 eos ∧ m ip ≠ ukey.getD 0 eos then false
  else if m (ip + nchars) ≠ ' ' ∧ m (ip + nchars) ≠ '=' then false
  else (List.range nchars).all fun i =>
    i = 0 ∨ m (ip + (i : Nat)) = lkey.getD i eos ∨ m (ip + (i : Nat)) = ukey.getD i eos

/-- Records of a fixed length; `none` if the loop has not come to the EOS. -/
def searchBlocked (test : Int → Bool) (m : Memory Char) : Nat → Int → Option (Option Int)
  | 0, _ => none
  | fuel + 1, ip =>
      if m ip = eos then some none
      else if test ip then some (some ip)
      else searchBlocked test m fuel (ip + idbReclen + 1)

def skipLine (m : Memory Char) : Nat → Int → Option Int
  | 0, _ => none
  | fuel + 1, ip =>
      if m ip = newline ∨ m ip = eos then some ip else skipLine m fuel (ip + 1)

/-- Records that end at a newline. -/
def searchLines (test : Int → Bool) (m : Memory Char) : Nat → Int → Option (Option Int)
  | 0, _ => none
  | fuel + 1, ip =>
      if m ip = eos then some none
      else if test ip then some (some ip)
      else (skipLine m fuel ip).bind fun ip => searchLines test m fuel (ip + 1)

def patternChars : List Char := ['*', '?', '[', ']']

/-- The test for a pattern in a key. -/
def isPattern (key : List Char) : Bool :=
  ((key.take idbSzfitskey).map Char.toUpper).any patternChars.contains

/-- `^{KEY}[ =]`. -/
def keyPattern (ukey : List Char) : List Char :=
  ['^', Char.ofNat 123] ++ ukey ++ [Char.ofNat 125, '[', ' ', '=', ']']

/-- The flag for blocked records, determined by inspection the first time. -/
def HeaderArea.inspected (h : HeaderArea) (m : Memory Char) : HeaderArea :=
  if h.imUablocked < 0 then
    { h with
      imUablocked := if blockedFrom (h.text m).length (h.text m) then 1 else 0 }
  else h

/-- `idb_findrecord`. -/
def HeaderArea.idbFindrecord (h : HeaderArea) (patmatch : Patmatch) (m : Memory Char)
    (key : List Char) : Option (Option Int × HeaderArea) :=
  let h := h.inspected m
  let ukey := (key.take idbSzfitskey).map Char.toUpper
  let size := userareaSize h.imLenhdrmem
  let rp :=
    if h.imUablocked = 0 then searchLines (patmatch (keyPattern ukey) m) m size h.ua
    else if isPattern key then
      searchBlocked (patmatch (keyPattern ukey) m) m size h.ua
    else searchBlocked (recordMatches key m) m size h.ua
  rp.map (·, h)

/-! ## Headers of cards -/

variable {h : HeaderArea} {m : Memory Char} {cards : List Card} {key : List Char} {p : Nat}

/-- The text of a header. -/
def cardText (cards : List Card) : List Char := joinLines newline (cards.map Card.chars)

/-- The user area holds the cards. -/
structure HeaderArea.Holds (h : HeaderArea) (m : Memory Char) (cards : List Card) : Prop where
  text : fetch m h.ua ((cardText cards).length + 1) = cardText cards ++ [eos]
  room : (cardText cards).length < userareaSize h.imLenhdrmem

/-- A card of the keyword, in upper or lower case. -/
def IsRecord (key : List Char) (card : Card) : Prop :=
  let key := key.take idbSzfitskey
  key ≠ [] ∧ (∀ c ∈ card.chars[key.length]?, c = ' ' ∨ c = '=') ∧
    ∀ i < key.length, card.chars[i]? = key[i]?.map Char.toLower ∨
      card.chars[i]? = key[i]?.map Char.toUpper

instance (key : List Char) (card : Card) : Decidable (IsRecord key card) :=
  inferInstanceAs (Decidable (_ ∧ _ ∧ _))

theorem length_cardText : (cardText cards).length = cards.length * (idbReclen + 1) := by
  induction cards with
  | nil => rfl
  | cons card cards ih =>
      rw [cardText, List.map_cons, joinLines_cons, List.length_append, List.length_cons,
        card.length_eq, List.length_cons, Nat.succ_mul, ← ih, cardText]
      omega

theorem cardText_append (cards more : List Card) :
    cardText (cards ++ more) = cardText cards ++ cardText more := by
  rw [cardText, List.map_append, joinLines_append]
  rfl

theorem cardText_cons (card : Card) (cards : List Card) :
    cardText (card :: cards) = card.chars ++ newline :: cardText cards := by
  rw [cardText, List.map_cons, joinLines_cons]
  rfl

theorem ne_eos_of_mem_cardText {c : Char} (hc : c ∈ cardText cards) : c ≠ eos := by
  simp only [cardText, joinLines, List.mem_flatMap, List.mem_map, List.mem_append,
    List.mem_singleton] at hc
  obtain ⟨-, ⟨card, -, rfl⟩, hc | rfl⟩ := hc
  · exact (card.plain c hc).2
  · decide

theorem blockedFrom_cardText (n : Nat) (cards : List Card) :
    blockedFrom n (cardText cards) = true := by
  induction n generalizing cards with
  | zero => simp [blockedFrom]
  | succ n ih =>
      cases cards with
      | nil => rfl
      | cons card cards =>
          have hplain : newline ∉ card.chars := fun hmem => (card.plain _ hmem).1 rfl
          rw [cardText_cons]
          have hne : card.chars ++ newline :: cardText cards ≠ [] := by simp
          rw [blockedFrom]
          · rw [takeWhile_line hplain, nextLine_line hplain, ih, card.length_eq]
            rfl
          · exact hne

theorem HeaderArea.Holds.char (hh : h.Holds m cards) {j : Nat} {c : Char}
    (hc : (cardText cards)[j]? = some c) : m (h.ua + j) = c := by
  obtain ⟨hj, rfl⟩ := List.getElem?_eq_some_iff.1 hc
  have hget := congrArg (·[j]?) hh.text
  simp only [getElem?_fetch, Nat.lt_succ_of_lt hj, if_true, List.getElem?_append_left hj,
    hc, Option.some.injEq] at hget
  exact hget

theorem HeaderArea.Holds.at_end (hh : h.Holds m cards) :
    m (h.ua + (cardText cards).length) = eos := by
  have hget := congrArg (·[(cardText cards).length]?) hh.text
  simpa only [getElem?_fetch, Nat.lt_succ_self, if_true, List.getElem?_concat_length,
    Option.some.injEq] using hget

theorem HeaderArea.Holds.text_eq (hh : h.Holds m cards) : h.text m = cardText cards := by
  obtain ⟨k, hk⟩ := Nat.exists_eq_add_of_lt hh.room
  rw [HeaderArea.text, hk, show (cardText cards).length + k + 1 = (cardText cards).length + 1 + k
    by omega, fetch_add, hh.text, List.append_assoc, List.takeWhile_append_of_pos]
  · simp
  · intro c hc
    simpa using ne_eos_of_mem_cardText hc

theorem HeaderArea.Holds.blocked (hh : h.Holds m cards) (hub : h.imUablocked ≠ 0) :
    (h.inspected m).imUablocked ≠ 0 ∧ (h.inspected m).ua = h.ua ∧
      (h.inspected m).imLenhdrmem = h.imLenhdrmem := by
  unfold HeaderArea.inspected
  split
  · rw [hh.text_eq, blockedFrom_cardText]
    exact ⟨one_ne_zero, rfl, rfl⟩
  · exact ⟨hub, rfl, rfl⟩

theorem getElem?_cardText {card : Card} (hp : cards[p]? = some card) {i : Nat}
    (hi : i < idbReclen) : (cardText cards)[p * (idbReclen + 1) + i]? = card.chars[i]? := by
  obtain ⟨hlt, rfl⟩ := List.getElem?_eq_some_iff.1 hp
  have hsplit : cards = cards.take p ++ cards[p] :: cards.drop (p + 1) := by simp
  have htake : (cardText (cards.take p)).length = p * (idbReclen + 1) := by
    rw [length_cardText, List.length_take_of_le hlt.le]
  have hi' : i < (cards[p]).chars.length := by rwa [cards[p].length_eq]
  conv_lhs => rw [hsplit, cardText_append, cardText_cons]
  rw [List.getElem?_append_right (by omega), htake, Nat.add_sub_cancel_left,
    List.getElem?_append_left hi']

theorem HeaderArea.Holds.card_char (hh : h.Holds m cards) {card : Card}
    (hp : cards[p]? = some card) {i : Nat} (hi : i < idbReclen) :
    some (m (h.ua + (p * (idbReclen + 1) : Nat) + i)) = card.chars[i]? := by
  have hi' : i < card.chars.length := by rwa [card.length_eq]
  rw [List.getElem?_eq_getElem hi', Int.add_assoc, ← Nat.cast_add,
    hh.char ((getElem?_cardText hp hi).trans (List.getElem?_eq_getElem hi'))]

theorem getElem?_cardText_newline (hp : p < cards.length) :
    (cardText cards)[p * (idbReclen + 1) + idbReclen]? = some newline := by
  have hsplit : cards = cards.take p ++ cards[p] :: cards.drop (p + 1) := by simp
  have htake : (cardText (cards.take p)).length = p * (idbReclen + 1) := by
    rw [length_cardText, List.length_take_of_le hp.le]
  conv_lhs => rw [hsplit, cardText_append, cardText_cons]
  rw [List.getElem?_append_right (by omega), htake, Nat.add_sub_cancel_left,
    List.getElem?_append_right (cards[p].length_eq).le, (cards[p]).length_eq, Nat.sub_self]
  rfl

theorem HeaderArea.Holds.of_chars
    (hcard : ∀ p card, cards[p]? = some card → ∀ i < idbReclen,
      card.chars[i]? = some (m (h.ua + (p * 81 : Nat) + (i : Nat))))
    (hnl : ∀ p < cards.length, m (h.ua + (p * 81 : Nat) + 80) = newline)
    (heos : m (h.ua + (cards.length * 81 : Nat)) = eos)
    (hroom : cards.length * 81 < userareaSize h.imLenhdrmem) : h.Holds m cards := by
  have hlen : (cardText cards).length = cards.length * 81 := length_cardText
  refine ⟨fetch_eq_of_getElem? (by rw [List.length_append, List.length_singleton])
    fun j hj => ?_, by rwa [hlen]⟩
  rcases Nat.lt_succ_iff_lt_or_eq.1 hj with hj | rfl
  · rw [List.getElem?_append_left hj]
    obtain ⟨p, i, rfl, hi⟩ : ∃ p i, j = p * 81 + i ∧ i < 81 :=
      ⟨j / 81, j % 81, (Nat.div_add_mod' j 81).symm, Nat.mod_lt _ (by decide)⟩
    have hp : p < cards.length := by omega
    have hplace : h.ua + ((p * 81 + i : Nat) : Int) = h.ua + (p * 81 : Nat) + (i : Nat) := by
      rw [Nat.cast_add, Int.add_assoc]
    rcases Nat.lt_succ_iff_lt_or_eq.1 hi with hi | rfl
    · rw [hplace, ← hcard p _ (List.getElem?_eq_getElem hp) i hi]
      exact getElem?_cardText (List.getElem?_eq_getElem hp) hi
    · rw [hplace]
      exact (getElem?_cardText_newline hp).trans (congrArg some (hnl p hp).symm)
  · rw [List.getElem?_concat_length, hlen, heos]

theorem recordMatches_iff {card : Card} {ip : Int}
    (hchar : ∀ i < idbReclen, some (m (ip + (i : Nat))) = card.chars[i]?) :
    recordMatches key m ip = true ↔ IsRecord key card := by
  unfold recordMatches IsRecord
  have hlen : (key.take idbSzfitskey).length ≤ 8 := List.length_take_le _ _
  generalize key.take idbSzfitskey = k at hlen ⊢
  have h0 : some (m ip) = card.chars[0]? := by simpa using hchar 0 (by decide)
  have hend := hchar k.length (hlen.trans_lt (by decide))
  have hcase : ∀ i < k.length,
      (m (ip + (i : Nat)) = (k.map Char.toLower).getD i eos ∨
        m (ip + (i : Nat)) = (k.map Char.toUpper).getD i eos) ↔
      (card.chars[i]? = k[i]?.map Char.toLower ∨ card.chars[i]? = k[i]?.map Char.toUpper) := by
    intro i hi
    rw [← hchar i (lt_trans (hi.trans_le hlen) (by decide))]
    simp [hi]
  dsimp only
  cases k with
  | nil =>
      have hne : m ip ≠ eos := (card.plain _ (List.mem_of_getElem? h0.symm)).2
      rw [if_pos ⟨hne, hne⟩]
      simp
  | cons c k =>
      have hfirst := hcase 0 (Nat.succ_pos _)
      rw [Int.natCast_zero, Int.add_zero] at hfirst
      rw [← hend, List.length_map]
      by_cases hz : m ip ≠ ((c :: k).map Char.toLower).getD 0 eos ∧
          m ip ≠ ((c :: k).map Char.toUpper).getD 0 eos
      · rw [if_pos hz]
        refine iff_of_false Bool.false_ne_true fun ⟨_, _, hall⟩ => ?_
        rcases hfirst.2 (hall 0 (Nat.succ_pos _)) with h | h
        exacts [hz.1 h, hz.2 h]
      · rw [if_neg hz]
        by_cases he : m (ip + ((c :: k).length : Nat)) ≠ ' ' ∧
            m (ip + ((c :: k).length : Nat)) ≠ '='
        · rw [if_pos he]
          refine iff_of_false Bool.false_ne_true fun ⟨_, hsep, _⟩ => ?_
          rcases hsep _ rfl with h | h
          exacts [he.1 h, he.2 h]
        · rw [if_neg he, List.all_eq_true]
          constructor
          · refine fun hall => ⟨List.cons_ne_nil c k, ?_, fun i hi => (hcase i hi).1 ?_⟩
            · rintro x ⟨⟩
              exact or_iff_not_imp_left.2 fun h => not_not.1 fun h' => he ⟨h, h'⟩
            · rcases of_decide_eq_true (hall i (List.mem_range.2 hi)) with rfl | h
              · rw [Int.natCast_zero, Int.add_zero]
                exact or_iff_not_imp_left.2 fun h => not_not.1 fun h' => hz ⟨h, h'⟩
              · exact h
          · rintro ⟨-, -, hall⟩ i hi
            have hi := List.mem_range.1 hi
            exact decide_eq_true (.inr ((hcase i hi).2 (hall i hi)))

theorem searchBlocked_eq {test : Int → Bool} {P : Card → Bool} {before after : List Card}
    (hh : h.Holds m (before ++ after))
    (htest : ∀ p card, (before ++ after)[p]? = some card →
      test (h.ua + (p * (idbReclen + 1) : Nat)) = P card)
    {fuel : Nat} (hfuel : after.length < fuel) :
    searchBlocked test m fuel (h.ua + (before.length * (idbReclen + 1) : Nat)) =
      some ((after.findIdx? P).map fun i =>
        h.ua + ((before.length + i) * (idbReclen + 1) : Nat)) := by
  induction after generalizing before fuel with
  | nil =>
      cases fuel with
      | zero => exact absurd hfuel (Nat.not_lt_zero _)
      | succ fuel =>
          have heos := hh.at_end
          rw [List.append_nil, length_cardText] at heos
          rw [searchBlocked, if_pos heos]
          rfl
  | cons card after ih =>
      cases fuel with
      | zero => exact absurd hfuel (Nat.not_lt_zero _)
      | succ fuel =>
          have hp : (before ++ card :: after)[before.length]? = some card := by simp
          have hne : m (h.ua + (before.length * (idbReclen + 1) : Nat)) ≠ eos := by
            have hchar := hh.card_char hp (i := 0) (by decide)
            rw [Int.natCast_zero, Int.add_zero] at hchar
            exact (card.plain _ (List.mem_of_getElem? hchar.symm)).2
          rw [searchBlocked, if_neg hne, htest _ card hp, List.findIdx?_cons]
          by_cases hP : P card = true
          · rw [if_pos hP, if_pos hP]
            rfl
          · rw [if_neg hP, if_neg hP]
            have hnext : h.ua + (before.length * (idbReclen + 1) : Nat) + idbReclen + 1 =
                h.ua + ((before ++ [card]).length * (idbReclen + 1) : Nat) := by
              rw [List.length_append, List.length_singleton]
              push_cast
              ring
            have hrest : h.Holds m ((before ++ [card]) ++ after) := by simpa using hh
            rw [hnext, ih hrest (by simpa using htest) (by simpa using hfuel), Option.map_map]
            congr 2
            funext i
            simp only [Function.comp_apply, List.length_append, List.length_singleton]
            rw [Nat.add_right_comm, Nat.add_assoc]

theorem HeaderArea.Holds.idbFindrecord (hh : h.Holds m cards) (hub : h.imUablocked ≠ 0)
    (hkey : isPattern key = false) (patmatch : Patmatch) :
    h.idbFindrecord patmatch m key = some ((cards.findIdx? fun card => IsRecord key card).map
      fun i => h.ua + (i * (idbReclen + 1) : Nat), h.inspected m) := by
  obtain ⟨hub', hua, hlen⟩ := hh.blocked hub
  have hsize : cards.length < userareaSize h.imLenhdrmem := by
    have hroom := hh.room
    rw [length_cardText] at hroom
    exact (Nat.le_mul_of_pos_right _ (Nat.succ_pos _)).trans_lt hroom
  have htest : ∀ p card, ([] ++ cards)[p]? = some card →
      recordMatches key m (h.ua + (p * (idbReclen + 1) : Nat)) =
        decide (IsRecord key card) := by
    intro p card hp
    rw [Bool.eq_iff_iff, decide_eq_true_iff]
    exact recordMatches_iff fun i hi => hh.card_char hp hi
  have hsearch := searchBlocked_eq hh htest hsize
  simp only [List.length_nil, Nat.zero_mul, Int.natCast_zero, Int.add_zero,
    Nat.zero_add] at hsearch
  simp only [HeaderArea.idbFindrecord, if_neg hub', hkey, Bool.false_eq_true, if_false, hua, hlen,
    hsearch, Option.map_some]

end Iraf.Imio
