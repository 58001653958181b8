import Iraf.Imio.HeaderArea

/-!
# Inserting a header card

`iminfi.x`.  The descriptor may be reallocated before the cards are moved; where
it goes is not known.
-/

namespace Iraf.Imio

open Cells Fmtio Fmtio.LongText TextLines

def szUapad : Nat := 5120
def imu : Nat := 1224

inductive Baf where
  | before
  | after
  deriving DecidableEq

/-- The outcome of `iminfi`. -/
inductive Inserted where
  | done
  /-- `SYS_IDBREDEF`. -/
  | redefined (key : List Char)
  /-- `SYS_IDBOVFL`. -/
  | overflow (key : List Char)
  deriving DecidableEq

/-! ## Writing -/

/-- A memory, and the places and lengths of what has been written. -/
structure Writes where
  memc : Memory Char
  writes : List (Int × Nat)

namespace Writes

def amovc (s : Writes) (chars : List Char) (a : Int) : Writes where
  memc := put s.memc a chars
  writes := (a, chars.length) :: s.writes

/-- The loop that moves the cards from `ip` back to `piv`. -/
def moveCards (s : Writes) : Nat → Int → Int → Writes
  | 0, _, _ => s
  | fuel + 1, ip, piv =>
      if ip ≥ piv then
        moveCards (s.amovc (fetch s.memc ip idbReclen) (ip + idbReclen + 1)) fuel
          (ip - idbReclen - 1) piv
      else s

end Writes

/-! ## The procedure -/

/-- `nowhite`, with room for all chars. -/
def nowhite (str : List Char) : List Char := str.filter fun c => !(isWhite c || c = newline)

/-- The keyword of the new card. -/
def newKeyname (key : List Char) : List Char :=
  (nowhite (idbFilstr key idbSzfitskey)).map Char.toUpper

def emptyString : List Char := ['\'', ' ', ' ', ' ', ' ', ' ', ' ', ' ', ' ', '\'']

/-- The format `%-8s= %s%*t\n`. -/
def newRecord (keyname datatype : List Char) : List Char :=
  cardRecord keyname '=' (if datatype.head? = some 'c' then emptyString else [])

def standardKeywords : List (List Char) :=
  [['c', 't', 'i', 'm', 'e'], ['h', 'i', 's', 't', 'o', 'r', 'y'],
    ['l', 'i', 'm', 't', 'i', 'm', 'e'], ['m', 'a', 'x', 'p', 'i', 'x', 'v', 'a', 'l'],
    ['m', 'i', 'n', 'p', 'i', 'x', 'v', 'a', 'l'], ['m', 't', 'i', 'm', 'e'],
    ['n', 'a', 'x', 'i', 's'], ['p', 'i', 'x', 'f', 'i', 'l', 'e'],
    ['p', 'i', 'x', 't', 'y', 'p', 'e'], ['t', 'i', 't', 'l', 'e']]

/-- `idb_kwlookup`: a keyword of the standard header, with `i_` or without. -/
def idbKwlookup (key : List Char) : Bool :=
  let kw := if key.take 2 = ['i', '_'] then key.drop 2 else key
  standardKeywords.contains kw ||
    (kw.take 5 = ['n', 'a', 'x', 'i', 's'] && kw.length = 6 && (kw.drop 5).all Char.isDigit)

/-- The new length of a descriptor that is full. -/
def grownLenhdrmem (curlen : Nat) : Nat :=
  lenImhdr + (curlen + 10 * 36 * 81 + szStruct - 1) / szStruct + szUapad / szStruct

/-- Where `realloc` puts the user area, and the memory then. -/
structure Realloc where
  ua : Int
  memc : Memory Char

/-- The cards moved, the end of the user area, and the new card. -/
def placeCard (s : Writes) (ua curlen : Int) (found : Option Int) (baf : Baf)
    (card : List Char) : Writes :=
  let rp := found.getD (ua + curlen)
  let baf := if found.isSome then baf else .before
  let piv := if baf = .after then rp else rp - idbReclen - 1
  let ip := ua + curlen - idbReclen - 1
  let s := if found.isSome then s.moveCards (ip + 1 - piv).toNat ip piv else s
  let s := (s.amovc [newline] (ua + curlen + idbReclen)).amovc [eos]
    (ua + curlen + idbReclen + 1)
  s.amovc card (if baf = .after then rp + idbReclen + 1 else rp)

/-- What `iminfi` does once there is room; `ua` was set before. -/
def addCard (patmatch : Patmatch) (h : HeaderArea) (m : Memory Char) (ua : Int) (curlen : Nat)
    (key pkey datatype : List Char) (baf : Baf) : Option (Inserted × HeaderArea × Writes) :=
  let unended := curlen > 0 ∧ m (ua + curlen - 1) ≠ newline
  if unended ∧ (curlen : Int) ≥ h.maxLenuserarea then some (.overflow key, h, ⟨m, []⟩)
  else do
    let s : Writes := ⟨m, []⟩
    let s := if unended then (s.amovc [newline] (ua + curlen)).amovc [eos] (ua + curlen + 1)
      else s
    let curlen : Int := if unended then curlen + 1 else curlen
    let (rp, h) ← h.idbFindrecord patmatch s.memc pkey
    let card := (newRecord (newKeyname key) datatype).take idbReclen
    return (.done, h, placeCard s ua curlen rp baf card)

/-- `iminfi`; `none` if a search does not come to its end. -/
def iminfi (patmatch : Patmatch) (r : Realloc) (h : HeaderArea) (m : Memory Char)
    (key pkey datatype : List Char) (baf : Baf) : Option (Inserted × HeaderArea × Writes) :=
  if idbKwlookup key then some (.redefined key, h, ⟨m, []⟩)
  else do
    let (rp, h) ← h.idbFindrecord patmatch m key
    if rp.isSome then return (.redefined key, h, ⟨m, []⟩)
    let curlen := (h.text m).length
    if (curlen : Int) + 81 ≥ h.maxLenuserarea then
      let grown := { h with ua := r.ua, imLenhdrmem := grownLenhdrmem curlen }
      addCard patmatch grown r.memc h.ua curlen key pkey datatype baf
    else addCard patmatch h m h.ua curlen key pkey datatype baf

/-! ## The new card -/

/-- The cards with a new one before or after the first of a keyword, or at the end. -/
def insertCard (pkey : List Char) (new : Card) (baf : Baf) : List Card → List Card
  | [] => [new]
  | card :: cards =>
      if IsRecord pkey card then
        if baf = .after then card :: new :: cards else new :: card :: cards
      else card :: insertCard pkey new baf cards

theorem isPrint_of_mem_idbFilstr {s1 : List Char} {maxch : Nat} {ch : Char}
    (h : ch ∈ idbFilstr s1 maxch) : isPrint ch = true := by
  induction s1 generalizing maxch with
  | nil => simp [idbFilstr] at h
  | cons c s1 ih =>
      simp only [idbFilstr] at h
      generalize (if c = '\t' ∨ c = newline then ' ' else c) = d at h
      by_cases hd : isPrint d = true
      · rw [hd, Bool.not_true, if_neg Bool.false_ne_true] at h
        split at h
        · rwa [List.mem_singleton.1 h]
        · rcases List.mem_cons.1 h with rfl | h
          exacts [hd, ih h]
      · rw [if_pos (by simpa using hd)] at h
        exact ih h

theorem length_idbFilstr_le {maxch : Nat} (hmax : 0 < maxch) (s1 : List Char) :
    (idbFilstr s1 maxch).length ≤ maxch := by
  induction s1 generalizing maxch with
  | nil => exact Nat.zero_le _
  | cons c s1 ih =>
      simp only [idbFilstr]
      generalize (if c = '\t' ∨ c = newline then ' ' else c) = d
      split
      · exact ih hmax
      · split
        · exact hmax
        · rw [List.length_cons]
          have := ih (show 0 < maxch - 1 by omega)
          omega

theorem newKeyname_print (key : List Char) :
    (newKeyname key).length ≤ idbSzfitskey ∧ ∀ ch ∈ newKeyname key, isPrint ch = true := by
  constructor
  · rw [newKeyname, List.length_map]
    exact (List.length_filter_le _ _).trans (length_idbFilstr_le (by decide) key)
  · intro ch hch
    obtain ⟨c, hc, rfl⟩ := List.mem_map.1 hch
    exact isPrint_toUpper (isPrint_of_mem_idbFilstr (List.mem_filter.1 hc).1)

theorem newRecord_eq (key datatype : List Char) :
    ∃ chars, newRecord (newKeyname key) datatype = chars ++ [newline] ∧
      chars.length = idbReclen ∧ ∀ ch ∈ chars, isPrint ch = true := by
  obtain ⟨hkey, hkeyp⟩ := newKeyname_print key
  generalize newKeyname key = keyname at hkey hkeyp
  unfold newRecord
  have hvalue : (if datatype.head? = some 'c' then emptyString else []).length ≤ lenHiststr ∧
      ∀ ch ∈ (if datatype.head? = some 'c' then emptyString else []), isPrint ch = true := by
    split
    · exact ⟨by decide, List.all_eq_true.1 rfl⟩
    · exact ⟨by decide, by simp⟩
  generalize (if datatype.head? = some 'c' then emptyString else []) = value at hvalue
  obtain ⟨hlen, hprint⟩ := hvalue
  refine ⟨_, cardRecord_eq hkey hlen hkeyp (by decide) hprint, ?_, ?_⟩
  · simp only [List.length_append, List.length_replicate, List.length_cons, List.length_nil]
    unfold idbSzfitskey lenHiststr idbReclen at *
    omega
  · intro ch hch
    simp only [List.mem_append, List.mem_replicate, List.mem_cons, List.not_mem_nil,
      or_false] at hch
    rcases hch with (((hch | ⟨-, rfl⟩) | rfl | rfl) | hch) | ⟨-, rfl⟩
    exacts [hkeyp ch hch, by decide, by decide, by decide, hprint ch hch, by decide]

/-- The card for a new keyword. -/
def newCard (key datatype : List Char) : Card where
  chars := (newRecord (newKeyname key) datatype).take idbReclen
  length_eq := by
    obtain ⟨chars, hrec, hlen, -⟩ := newRecord_eq key datatype
    rw [hrec, List.take_left' hlen, hlen]
  plain := by
    obtain ⟨chars, hrec, hlen, hprint⟩ := newRecord_eq key datatype
    rw [hrec, List.take_left' hlen]
    exact fun c hc => isPrint_plain (hprint c hc)

/-! ## Moving the cards -/

namespace Writes

variable {s : Writes} {piv : Int} {n fuel : Nat}

theorem moveCards_memc (hfuel : n ≤ fuel) (x : Int) :
    (s.moveCards fuel (piv + n * 81 - 81) piv).memc x =
      if ∃ k : Nat, k < n ∧ piv + (k * 81 : Nat) + 81 ≤ x ∧ x < piv + (k * 81 : Nat) + 161 then
        s.memc (x - 81)
      else s.memc x := by
  induction n generalizing s fuel with
  | zero =>
      have hstop : ¬(piv + (0 : Nat) * 81 - 81 ≥ piv) := by omega
      rw [if_neg (by simp)]
      cases fuel with
      | zero => rfl
      | succ fuel => rw [moveCards, if_neg hstop]
  | succ n ih =>
      cases fuel with
      | zero => exact absurd hfuel (Nat.not_succ_le_zero n)
      | succ fuel =>
          have hgo : piv + ((n + 1 : Nat) : Int) * 81 - 81 ≥ piv := by push_cast; omega
          have hnext : piv + ((n + 1 : Nat) : Int) * 81 - 81 - idbReclen - 1 =
              piv + (n : Nat) * 81 - 81 := by
            simp only [idbReclen]
            push_cast
            ring
          have hip : piv + ((n + 1 : Nat) : Int) * 81 - 81 + idbReclen + 1 =
              piv + (n * 81 : Nat) + 81 := by
            simp only [idbReclen]
            push_cast
            ring
          rw [moveCards, if_pos hgo, hnext, ih (Nat.le_of_succ_le_succ hfuel), amovc, hip]
          dsimp only
          have hlen : (fetch s.memc (piv + ((n + 1 : Nat) : Int) * 81 - 81) idbReclen).length =
              80 := length_fetch
          by_cases hlow : ∃ k : Nat, k < n ∧ piv + (k * 81 : Nat) + 81 ≤ x ∧
              x < piv + (k * 81 : Nat) + 161
          · obtain ⟨k, hk, hlo, hhi⟩ := hlow
            rw [if_pos ⟨k, hk, hlo, hhi⟩, if_pos ⟨k, hk.trans (Nat.lt_succ_self n), hlo, hhi⟩,
              put_of_not_mem (.inl (by omega))]
          · rw [if_neg hlow]
            by_cases hlast : piv + (n * 81 : Nat) + 81 ≤ x ∧ x < piv + (n * 81 : Nat) + 161
            · obtain ⟨j, hj⟩ : ∃ j : Nat, x = piv + (n * 81 : Nat) + 81 + j :=
                ⟨(x - (piv + (n * 81 : Nat) + 81)).toNat, by omega⟩
              rw [if_pos ⟨n, Nat.lt_succ_self n, hlast⟩, put_of_mem j (by omega) hj]
              simp only [fetch, List.getElem_map, List.getElem_range]
              congr 1
              rw [hj]
              push_cast
              ring
            · have hnone : ¬∃ k : Nat, k < n + 1 ∧ piv + (k * 81 : Nat) + 81 ≤ x ∧
                  x < piv + (k * 81 : Nat) + 161 := by
                rintro ⟨k, hk, hin⟩
                rcases Nat.lt_succ_iff_lt_or_eq.1 hk with hk | rfl
                exacts [hlow ⟨k, hk, hin⟩, hlast hin]
              rw [if_neg hnone, put_of_not_mem (by omega)]

theorem writes_moveCards {w : Int × Nat} {ip : Int}
    (hw : w ∈ (s.moveCards fuel ip piv).writes) :
    w ∈ s.writes ∨ w.2 = idbReclen ∧ piv + 81 ≤ w.1 ∧ w.1 ≤ ip + 81 := by
  induction fuel generalizing s ip with
  | zero => exact .inl hw
  | succ fuel ih =>
      rw [moveCards] at hw
      by_cases hgo : ip ≥ piv
      · rw [if_pos hgo] at hw
        rcases ih hw with hw | ⟨hlen, hlo, hhi⟩
        · rcases List.mem_cons.1 hw with rfl | hw
          · refine .inr ⟨length_fetch, ?_, ?_⟩ <;> simp only [idbReclen] <;> omega
          · exact .inl hw
        · refine .inr ⟨hlen, hlo, ?_⟩
          simp only [idbReclen] at hhi
          omega
      · rw [if_neg hgo] at hw
        exact .inl hw

end Writes

/-! ## The cards after the insertion -/

variable {h : HeaderArea} {s : Writes} {cards : List Card} {pkey : List Char} {new : Card}
variable {baf : Baf} {found : Option Int}

theorem insertCard_eq (pkey : List Char) (new : Card) (baf : Baf) (cards : List Card) :
    ∃ p ≤ cards.length, insertCard pkey new baf cards = cards.take p ++ new :: cards.drop p ∧
      ((cards.findIdx? fun card => IsRecord pkey card) = none ∧ p = cards.length ∨
        ∃ i < cards.length, (cards.findIdx? fun card => IsRecord pkey card) = some i ∧
          p = if baf = .after then i + 1 else i) := by
  induction cards with
  | nil => exact ⟨0, le_rfl, rfl, .inl ⟨rfl, rfl⟩⟩
  | cons card cards ih =>
      rw [insertCard, List.findIdx?_cons]
      by_cases hrec : IsRecord pkey card
      · rw [if_pos hrec, if_pos (decide_eq_true hrec)]
        cases baf with
        | before => exact ⟨0, Nat.zero_le _, rfl, .inr ⟨0, Nat.succ_pos _, rfl, rfl⟩⟩
        | after =>
            exact ⟨1, Nat.succ_pos _, rfl, .inr ⟨0, Nat.succ_pos _, rfl, rfl⟩⟩
      · rw [if_neg hrec, if_neg (by simpa using hrec)]
        obtain ⟨p, hp, hins, hplace⟩ := ih
        refine ⟨p + 1, Nat.succ_le_succ hp, by rw [hins]; rfl, ?_⟩
        rcases hplace with ⟨hnone, rfl⟩ | ⟨i, hi, hsome, rfl⟩
        · exact .inl ⟨by rw [hnone]; rfl, rfl⟩
        · refine .inr ⟨i + 1, Nat.succ_lt_succ hi, by rw [hsome]; rfl, ?_⟩
          split <;> rfl

theorem getElem?_insert {p : Nat} (hp : p ≤ cards.length) (q : Nat) :
    (cards.take p ++ new :: cards.drop p)[q]? =
      if q < p then cards[q]? else if q = p then some new else cards[q - 1]? := by
  have htake : (cards.take p).length = p := List.length_take_of_le hp
  rcases lt_trichotomy q p with hq | rfl | hq
  · rw [if_pos hq, List.getElem?_append_left (by omega), List.getElem?_take_of_lt hq]
  · rw [if_neg (lt_irrefl q), if_pos rfl, List.getElem?_append_right htake.le, htake,
      Nat.sub_self]
    rfl
  · obtain ⟨k, rfl⟩ : ∃ k, q = p + (k + 1) := ⟨q - p - 1, by omega⟩
    rw [if_neg (by omega), if_neg (by omega), List.getElem?_append_right (by omega), htake,
      Nat.add_sub_cancel_left, List.getElem?_cons_succ, List.getElem?_drop]
    rfl

/-- The user area is open at the place of the new card: the cards behind it are one
place further on. -/
structure Opened (h : HeaderArea) (m m' : Memory Char) (n p : Nat) : Prop where
  moved : ∀ q i : Nat, i < 80 → p < q → q ≤ n →
    m' (h.ua + (q * 81 : Nat) + i) = m (h.ua + ((q - 1) * 81 : Nat) + i)
  kept : ∀ q i : Nat, i < 81 → q < p ∨ i = 80 → q < n →
    m' (h.ua + (q * 81 : Nat) + i) = m (h.ua + (q * 81 : Nat) + i)

theorem Opened.holds {m m' : Memory Char} {p : Nat} (ho : Opened h m m' cards.length p)
    (hp : p ≤ cards.length) (hh : h.Holds m cards)
    (hroom : (cards.length + 1) * 81 < userareaSize h.imLenhdrmem) (new : Card) :
    h.Holds (put (put (put m' (h.ua + (cards.length * 81 : Nat) + (80 : Nat)) [newline])
      (h.ua + (cards.length * 81 : Nat) + (80 : Nat) + 1) [eos]) (h.ua + (p * 81 : Nat))
      new.chars) (cards.take p ++ new :: cards.drop p) := by
  have hlen : (cards.take p ++ new :: cards.drop p).length = cards.length + 1 := by
    rw [List.length_append, List.length_take_of_le hp, List.length_cons, List.length_drop]
    omega
  have hnew : new.chars.length = 80 := new.length_eq
  refine .of_chars ?_ ?_ ?_ (by rwa [hlen])
  · intro q card hq i hi
    have hi : i < 80 := hi
    rw [getElem?_insert hp] at hq
    rcases lt_trichotomy q p with hlt | rfl | hgt
    · rw [if_pos hlt] at hq
      rw [put_of_not_mem (by omega), put_of_not_mem (.inl (by omega)),
        put_of_not_mem (.inl (by omega)), ho.kept q i (by omega) (.inl hlt) (by omega)]
      exact (hh.card_char hq hi).symm
    · rw [if_neg (lt_irrefl q), if_pos rfl, Option.some.injEq] at hq
      subst hq
      rw [put_of_mem i (by omega) rfl, List.getElem?_eq_getElem]
    · rw [if_neg (by omega), if_neg (by omega)] at hq
      have hqn : q ≤ cards.length := by
        have := (List.getElem?_eq_some_iff.1 hq).1
        omega
      rw [put_of_not_mem (by omega), put_of_not_mem (.inl (by omega)),
        put_of_not_mem (.inl (by omega)), ho.moved q i hi hgt hqn]
      exact (hh.card_char hq hi).symm
  · intro q hq
    rw [hlen] at hq
    rw [put_of_not_mem (by omega), put_of_not_mem (.inl (by omega))]
    rcases Nat.lt_succ_iff_lt_or_eq.1 hq with hq | rfl
    · have hkept := ho.kept q 80 (by decide) (.inr rfl) hq
      have hold := hh.char (getElem?_cardText_newline hq)
      rw [put_of_not_mem (.inl (by omega))]
      refine hkept.trans ?_
      rw [← hold, Int.add_assoc, ← Nat.cast_add]
      rfl
    · exact put_of_mem 0 (by decide) (by omega)
  · rw [hlen, put_of_not_mem (by omega)]
    exact put_of_mem 0 (by decide) (by push_cast; omega)

theorem Writes.opened {p fuel : Nat} {ip piv : Int} (hp : p ≤ cards.length)
    (hpiv : piv = h.ua + (p * 81 : Nat) - 81) (hip : ip = h.ua + (cards.length * 81 : Nat) - 81)
    (hfuel : cards.length + 1 - p ≤ fuel) :
    Opened h s.memc (s.moveCards fuel ip piv).memc cards.length p := by
  have hplace : ip = piv + ((cards.length + 1 - p : Nat) : Int) * 81 - 81 := by
    rw [hip, hpiv]
    omega
  rw [hplace]
  constructor
  · intro q i hi hpq hqn
    rw [moveCards_memc hfuel, if_pos ⟨q - p, by omega, by omega, by omega⟩]
    congr 1
    omega
  · intro q i hi hqi hqn
    rw [moveCards_memc hfuel, if_neg]
    rintro ⟨k, -, hlo, hhi⟩
    omega

theorem placeCard_holds (hh : h.Holds s.memc cards)
    (hroom : (cards.length + 1) * 81 < userareaSize h.imLenhdrmem)
    (hfound : found = (cards.findIdx? fun card => IsRecord pkey card).map
      fun i => h.ua + (i * (idbReclen + 1) : Nat)) (new : Card) :
    h.Holds (placeCard s h.ua (cards.length * 81 : Nat) found baf new.chars).memc
      (insertCard pkey new baf cards) := by
  obtain ⟨p, hp, hins, hplace⟩ := insertCard_eq pkey new baf cards
  rw [hins]
  rcases hplace with ⟨hnone, rfl⟩ | ⟨i, hi, hsome, hpi⟩
  · rw [hnone] at hfound
    subst hfound
    have ho : Opened h s.memc s.memc cards.length cards.length :=
      ⟨fun q i hi hpq hqn => absurd hpq (Nat.not_lt.2 hqn), fun q i hi hqi hqn => rfl⟩
    exact ho.holds hp hh hroom new
  · rw [hsome] at hfound
    subst hfound
    have hreclen : (idbReclen : Int) = 80 := rfl
    cases baf with
    | before =>
        obtain rfl : p = i := hpi
        have ho : Opened h s.memc _ cards.length p := Writes.opened hp
          (show h.ua + (p * 81 : Nat) - idbReclen - 1 = _ by omega)
          (show h.ua + (cards.length * 81 : Nat) - idbReclen - 1 = _ by omega)
          (show _ ≤ (h.ua + (cards.length * 81 : Nat) - idbReclen - 1 + 1 -
            (h.ua + (p * 81 : Nat) - idbReclen - 1)).toNat by omega)
        exact ho.holds hp hh hroom new
    | after =>
        obtain rfl : p = i + 1 := hpi
        have ho : Opened h s.memc _ cards.length (i + 1) := Writes.opened hp
          (show h.ua + (i * 81 : Nat) = _ by omega)
          (show h.ua + (cards.length * 81 : Nat) - idbReclen - 1 = _ by omega)
          (show _ ≤ (h.ua + (cards.length * 81 : Nat) - idbReclen - 1 + 1 -
            (h.ua + (i * 81 : Nat))).toNat by omega)
        have hput : h.ua + ((i + 1) * 81 : Nat) = h.ua + (i * 81 : Nat) + idbReclen + 1 := by
          omega
        have hholds := ho.holds hp hh hroom new
        rw [hput] at hholds
        exact hholds

theorem writes_placeCard {w : Int × Nat}
    (hfound : found = (cards.findIdx? fun card => IsRecord pkey card).map
      fun i => h.ua + (i * (idbReclen + 1) : Nat))
    (hw : w ∈ (placeCard s h.ua (cards.length * 81 : Nat) found baf new.chars).writes) :
    w ∈ s.writes ∨ h.ua ≤ w.1 ∧ w.1 + w.2 ≤ h.ua + (cards.length * 81 + 82 : Nat) := by
  have hreclen : (idbReclen : Int) = 80 := rfl
  have hnew : new.chars.length = 80 := new.length_eq
  obtain ⟨p, hp, -, hplace⟩ := insertCard_eq pkey new baf cards
  rcases hplace with ⟨hnone, -⟩ | ⟨i, hi, hsome, -⟩
  · rw [hnone] at hfound
    subst hfound
    simp only [placeCard, Writes.amovc, Option.map_none, Option.isSome_none,
      Bool.false_eq_true, if_false, reduceCtorEq, Option.getD_none, List.mem_cons,
      List.length_singleton] at hw
    rcases hw with rfl | rfl | rfl | hw
    · exact .inr ⟨by dsimp only; omega, by dsimp only; omega⟩
    · exact .inr ⟨by dsimp only; omega, by dsimp only; omega⟩
    · exact .inr ⟨by dsimp only; omega, by dsimp only; omega⟩
    · exact .inl hw
  · rw [hsome] at hfound
    subst hfound
    have hcast : ((i * (idbReclen + 1) : Nat) : Int) = (i * 81 : Nat) := rfl
    simp only [placeCard, Writes.amovc, Option.map_some, Option.isSome_some, if_true,
      Option.getD_some, List.mem_cons, List.length_singleton, hcast] at hw
    rcases hw with rfl | rfl | rfl | hw
    · refine .inr ⟨?_, ?_⟩ <;> dsimp only <;> split <;> omega
    · exact .inr ⟨by dsimp only; omega, by dsimp only; omega⟩
    · exact .inr ⟨by dsimp only; omega, by dsimp only; omega⟩
    · rcases Writes.writes_moveCards hw with hw | ⟨hlen, hlo, hhi⟩
      · exact .inl hw
      · refine .inr ⟨?_, ?_⟩
        · split at hlo <;> omega
        · rw [hlen]
          omega

theorem mem_writes_placeCard (s : Writes) (ua curlen : Int) (found : Option Int) (baf : Baf)
    (card : List Char) :
    (ua + curlen + idbReclen, 1) ∈ (placeCard s ua curlen found baf card).writes :=
  List.mem_cons_of_mem _ (List.mem_cons_of_mem _ List.mem_cons_self)

theorem addCard_holds {m : Memory Char} {key datatype : List Char} (hh : h.Holds m cards)
    (hub : h.imUablocked ≠ 0) (hpkey : isPattern pkey = false)
    (hroom : (cards.length + 1) * 81 < userareaSize h.imLenhdrmem) (patmatch : Patmatch) :
    ∃ h' s, addCard patmatch h m h.ua (cards.length * 81) key pkey datatype baf =
        some (.done, h', s) ∧
      h'.Holds s.memc (insertCard pkey (newCard key datatype) baf cards) ∧
      ∀ w ∈ s.writes, h'.ua ≤ w.1 ∧ w.1 + w.2 ≤ h'.ua + userareaSize h'.imLenhdrmem := by
  have hended : ¬(cards.length * 81 > 0 ∧
      m (h.ua + (cards.length * 81 : Nat) - 1) ≠ newline) := by
    rintro ⟨hpos, hne⟩
    refine hne ?_
    have hlast := hh.char (getElem?_cardText_newline (p := cards.length - 1) (by omega))
    rw [← hlast]
    congr 1
    show _ = h.ua + (((cards.length - 1) * 81 + 80 : Nat) : Int)
    omega
  obtain ⟨-, hua, hlen⟩ := hh.blocked hub
  have hkept : ∀ {m' cards'}, h.Holds m' cards' → (h.inspected m).Holds m' cards' :=
    fun hh' => ⟨hua.symm ▸ hh'.text, hlen.symm ▸ hh'.room⟩
  refine ⟨h.inspected m, placeCard ⟨m, []⟩ h.ua (cards.length * 81 : Nat)
    ((cards.findIdx? fun card => IsRecord pkey card).map
      fun i => h.ua + (i * (idbReclen + 1) : Nat)) baf (newCard key datatype).chars, ?_, ?_, ?_⟩
  · simp only [addCard, hended, false_and, if_false, hh.idbFindrecord hub hpkey patmatch]
    rfl
  · exact hkept (placeCard_holds (s := ⟨m, []⟩) hh hroom rfl _)
  · intro w hw
    rcases writes_placeCard rfl hw with hw | ⟨hlo, hhi⟩
    · exact absurd hw List.not_mem_nil
    · rw [hua, hlen]
      omega

theorem HeaderArea.idbFindrecord_some {h' : HeaderArea} {rp : Option Int} {m : Memory Char}
    {key : List Char} {patmatch : Patmatch}
    (hfind : h.idbFindrecord patmatch m key = some (rp, h')) :
    h'.ua = h.ua ∧ h'.imLenhdrmem = h.imLenhdrmem := by
  unfold HeaderArea.idbFindrecord at hfind
  obtain ⟨_, _, hr⟩ := Option.map_eq_some_iff.1 hfind
  obtain ⟨-, rfl⟩ := Prod.mk.inj hr
  unfold HeaderArea.inspected
  split <;> exact ⟨rfl, rfl⟩

/-- The newline behind the cards is written at the place that was set before. -/
theorem addCard_writes {m : Memory Char} {ua : Int} {curlen : Nat} {h' : HeaderArea}
    {key datatype : List Char} {patmatch : Patmatch}
    (hadd : addCard patmatch h m ua curlen key pkey datatype baf = some (.done, h', s)) :
    (h'.ua = h.ua ∧ h'.imLenhdrmem = h.imLenhdrmem) ∧
      ∃ a, ua + curlen + 80 ≤ a ∧ a ≤ ua + curlen + 81 ∧ (a, 1) ∈ s.writes := by
  have hreclen : (idbReclen : Int) = 80 := rfl
  simp only [addCard] at hadd
  split at hadd
  · simp at hadd
  · obtain ⟨⟨rp, h1⟩, hfind, hplaced⟩ := Option.bind_eq_some_iff.1 hadd
    simp only [Option.pure_def, Option.some.injEq, Prod.mk.injEq, true_and] at hplaced
    obtain ⟨rfl, rfl⟩ := hplaced
    refine ⟨HeaderArea.idbFindrecord_some hfind, _, ?_, ?_, mem_writes_placeCard _ _ _ _ _ _⟩
    · split <;> omega
    · split <;> omega

/-! ## Insertion in a list -/

/-- What `realloc` does with a descriptor that grows. -/
structure Realloc.Moves (r : Realloc) (h : HeaderArea) (m : Memory Char) : Prop where
  kept : ∀ j < userareaSize h.imLenhdrmem, r.memc (r.ua + (j : Nat)) = m (h.ua + (j : Nat))
  /-- A block that is moved does not overlap the old one. -/
  apart : r.ua = h.ua ∨
    h.ua + userareaSize h.imLenhdrmem ≤ r.ua - (imu * szStruct : Nat) ∨
    r.ua + userareaSize (grownLenhdrmem (h.text m).length) ≤ h.ua - (imu * szStruct : Nat)

theorem lt_userareaSize_grown (curlen : Nat) {n : Nat} (hn : n ≤ curlen + 81) :
    n < userareaSize (grownLenhdrmem curlen) := by
  unfold userareaSize grownLenhdrmem lenImhdr szStruct szUapad
  omega

/-- There is no room for a card. -/
def HeaderArea.Full (h : HeaderArea) (cards : List Card) : Prop :=
  h.maxLenuserarea ≤ (cardText cards).length + 81

/-- The new card is put in the list of cards, and only the user area of the
descriptor is written. -/
def Inserts (patmatch : Patmatch) (r : Realloc) (h : HeaderArea) (m : Memory Char)
    (key pkey datatype : List Char) (baf : Baf) (cards : List Card) : Prop :=
  ∃ h' s, iminfi patmatch r h m key pkey datatype baf = some (.done, h', s) ∧
    h'.Holds s.memc (insertCard pkey (newCard key datatype) baf cards) ∧
    ∀ w ∈ s.writes, h'.ua ≤ w.1 ∧ w.1 + w.2 ≤ h'.ua + userareaSize h'.imLenhdrmem

/-- A keyword that is not in the header. -/
structure IsNew (key : List Char) (cards : List Card) : Prop where
  user : idbKwlookup key = false
  keyword : isPattern key = false
  absent : ∀ card ∈ cards, ¬IsRecord key card

theorem iminfi_eq {m : Memory Char} {key : List Char} (hh : h.Holds m cards)
    (hub : h.imUablocked ≠ 0) (hkey : IsNew key cards) (patmatch : Patmatch) (r : Realloc)
    (pkey datatype : List Char) (baf : Baf) :
    ∃ h1 : HeaderArea, h1.ua = h.ua ∧ h1.imLenhdrmem = h.imLenhdrmem ∧ h1.imUablocked ≠ 0 ∧
      iminfi patmatch r h m key pkey datatype baf =
        if (cards.length * 81 : Nat) + (81 : Int) ≥ h.maxLenuserarea then
          addCard patmatch
            { h1 with ua := r.ua, imLenhdrmem := grownLenhdrmem (cards.length * 81) } r.memc
            h1.ua (cards.length * 81) key pkey datatype baf
        else addCard patmatch h1 m h1.ua (cards.length * 81) key pkey datatype baf := by
  obtain ⟨hub1, hua, hlen⟩ := hh.blocked hub
  refine ⟨h.inspected m, hua, hlen, hub1, ?_⟩
  have hnone : (cards.findIdx? fun card => IsRecord key card) = none :=
    List.findIdx?_eq_none_iff.2 fun card hmem => decide_eq_false (hkey.absent card hmem)
  have htext : ((h.inspected m).text m).length = cards.length * 81 := by
    rw [HeaderArea.text, hua, hlen, ← HeaderArea.text, hh.text_eq]
    exact length_cardText
  have hmax : (h.inspected m).maxLenuserarea = h.maxLenuserarea := by
    rw [HeaderArea.maxLenuserarea, hlen, HeaderArea.maxLenuserarea]
  simp only [iminfi, hkey.user, Bool.false_eq_true, if_false,
    hh.idbFindrecord hub hkey.keyword patmatch, hnone, Option.map_none, Option.bind_eq_bind,
    Option.bind_some, Option.isSome_none, htext, hmax]

theorem full_iff (h : HeaderArea) (cards : List Card) :
    (cards.length * 81 : Nat) + (81 : Int) ≥ h.maxLenuserarea ↔ h.Full cards := by
  have hcurlen : (cardText cards).length = cards.length * 81 := length_cardText
  rw [HeaderArea.Full, hcurlen]

section

variable {m : Memory Char} {key datatype : List Char} {r : Realloc}
variable (hh : h.Holds m cards) (hub : h.imUablocked ≠ 0) (hkey : IsNew key cards)
include hh hub hkey

theorem inserts_of_not_full (hpkey : isPattern pkey = false) (hgrow : ¬h.Full cards)
    (patmatch : Patmatch) : Inserts patmatch r h m key pkey datatype baf cards := by
  obtain ⟨h1, hua, hlen, hub1, heq⟩ := iminfi_eq hh hub hkey patmatch r pkey datatype baf
  have hplace : (cards.length + 1) * 81 < userareaSize h.imLenhdrmem := by
    have hmax : ¬((cards.length * 81 : Nat) + (81 : Int) ≥ h.maxLenuserarea) :=
      fun hle => hgrow ((full_iff h cards).1 hle)
    rw [HeaderArea.maxLenuserarea] at hmax
    omega
  rw [Inserts, heq, if_neg fun hle => hgrow ((full_iff h cards).1 hle)]
  exact addCard_holds ⟨hua.symm ▸ hh.text, hlen.symm ▸ hh.room⟩ hub1 hpkey
    (hlen.symm ▸ hplace) patmatch

theorem inserts_of_stays (hpkey : isPattern pkey = false) (hgrow : h.Full cards)
    (hr : r.Moves h m) (hstay : r.ua = h.ua) (patmatch : Patmatch) :
    Inserts patmatch r h m key pkey datatype baf cards := by
  obtain ⟨h1, hua, hlen, hub1, heq⟩ := iminfi_eq hh hub hkey patmatch r pkey datatype baf
  have hcurlen : (cardText cards).length = cards.length * 81 := length_cardText
  have hroom := hh.room
  rw [Inserts, heq, if_pos ((full_iff h cards).2 hgrow), hua.trans hstay.symm]
  refine addCard_holds (h := { h1 with
    ua := r.ua
    imLenhdrmem := grownLenhdrmem (cards.length * 81) }) ⟨?_, ?_⟩ hub1 hpkey ?_ patmatch
  · rw [← hh.text]
    refine fetch_congr fun j hj => hr.kept j ?_
    omega
  · rw [hcurlen]
    exact lt_userareaSize_grown _ (by omega)
  · exact lt_userareaSize_grown _ (by omega)

theorem not_inserts_of_moved (hgrow : h.Full cards) (hr : r.Moves h m) (hmoved : r.ua ≠ h.ua)
    (patmatch : Patmatch) : ¬Inserts patmatch r h m key pkey datatype baf cards := by
  obtain ⟨h1, hua, hlen, hub1, heq⟩ := iminfi_eq hh hub hkey patmatch r pkey datatype baf
  have hcurlen : (cardText cards).length = cards.length * 81 := length_cardText
  have hroom := hh.room
  have hapart := hr.apart
  rw [hh.text_eq, hcurlen] at hapart
  rw [Inserts, heq, if_pos ((full_iff h cards).2 hgrow)]
  rintro ⟨h', s, hrun, -, hwrites⟩
  obtain ⟨⟨hua', hlen'⟩, a, hlo, hhi, hmem⟩ := addCard_writes hrun
  have hin := hwrites _ hmem
  rw [hua', hlen'] at hin
  dsimp only at hin
  rw [hua] at hlo hhi
  have hsize : imu * szStruct = 4896 := rfl
  omega

/-- `iminfi` inserts the card as long as the descriptor stays in its place. -/
theorem iminfi_inserts_iff (hpkey : isPattern pkey = false)
    (hr : h.Full cards → r.Moves h m) (patmatch : Patmatch) :
    Inserts patmatch r h m key pkey datatype baf cards ↔ (h.Full cards → r.ua = h.ua) := by
  by_cases hgrow : h.Full cards
  · refine ⟨fun hins _ => ?_, fun hstay =>
      inserts_of_stays hh hub hkey hpkey hgrow (hr hgrow) (hstay hgrow) patmatch⟩
    by_contra hmoved
    exact not_inserts_of_moved hh hub hkey hgrow (hr hgrow) hmoved patmatch hins
  · exact iff_of_true (inserts_of_not_full hh hub hkey hpkey hgrow patmatch)
      fun h => absurd h hgrow

end

/-! ## A descriptor that is moved -/

def oneCard : Card where
  chars := 'A' :: List.replicate 79 ' '
  length_eq := by
    rw [List.length_cons, List.length_replicate]
    rfl
  plain c hc := by
    rcases List.mem_cons.1 hc with rfl | hc
    · decide
    · rw [(List.mem_replicate.1 hc).2]
      decide

def fullHeader : HeaderArea := ⟨4896, 1064, 1⟩

def fullMemory : Memory Char := put (fun _ => eos) 4896 (cardText [oneCard] ++ [eos])

def movedAway : Realloc where
  ua := 100000
  memc x := if x < 50000 then fullMemory x else fullMemory (x - 95104)

theorem fullHeader_holds : fullHeader.Holds fullMemory [oneCard] := by
  refine ⟨?_, by decide⟩
  rw [← List.length_singleton, ← List.length_append]
  exact fetch_put_same

theorem isNew_b : IsNew ['B'] [oneCard] := by
  refine ⟨by decide, by decide, fun card hmem => ?_⟩
  rw [List.mem_singleton.1 hmem]
  rintro ⟨-, -, h⟩
  have hfirst : some 'A' = some 'b' ∨ some 'A' = some 'B' := h 0 Nat.one_pos
  exact absurd hfirst (by decide)

theorem fullHeader_full : fullHeader.Full [oneCard] :=
  (full_iff _ _).1 (by decide)

theorem movedAway_moves : movedAway.Moves fullHeader fullMemory := by
  refine ⟨fun j hj => ?_, .inr (.inl (by decide))⟩
  have hfar : ¬((100000 : Int) + (j : Nat) < 50000) := by omega
  have hback : (100000 : Int) + (j : Nat) - 95104 = 4896 + (j : Nat) := by omega
  simp only [movedAway, fullHeader, hfar, if_false, hback]

/-- The card after `A` is not inserted. -/
theorem not_inserts_movedAway : fullHeader.Holds fullMemory [oneCard] ∧
    IsNew ['B'] [oneCard] ∧ movedAway.Moves fullHeader fullMemory ∧
    ¬Inserts (fun _ _ _ => false) movedAway fullHeader fullMemory ['B'] ['A'] [] .after
      [oneCard] :=
  ⟨fullHeader_holds, isNew_b, movedAway_moves, not_inserts_of_moved fullHeader_holds (by decide)
    isNew_b fullHeader_full movedAway_moves (by decide) _⟩

theorem iminfi_inserts_iff_movedAway :
    Inserts (fun _ _ _ => false) movedAway fullHeader fullMemory ['B'] ['A'] [] .after
      [oneCard] ↔ (fullHeader.Full [oneCard] → movedAway.ua = fullHeader.ua) :=
  iminfi_inserts_iff fullHeader_holds (by decide) isNew_b (by decide) (fun _ => movedAway_moves) _

end Iraf.Imio
