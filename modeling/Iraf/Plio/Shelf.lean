import Mathlib.Algebra.BigOperators.Group.List.Basic
import Iraf.Lib.Tiling
import Iraf.Plio.LineList
import Iraf.Plio.Mask

/-!
# The line lists of a mask

What the line list buffer holds: blocks laid end to end, each a line list and
the space it may still grow in, and for every line of the mask the number of
the block it is stored in.  The shelf has the empty line first, and its other
blocks count the lines that they are shared by.
-/

namespace Iraf.Plio

open Tiling

/-! ## Blocks -/

/-- A stored list; `pad` is what earlier, longer lists left behind. -/
structure Block where
  nref : Int
  is : List Instr
  pad : List Int
  ok : ∀ i ∈ is, i.Ok
  short : llCurhdrlen + (packed is).length + pad.length < 2 ^ 30

namespace Block

def len (b : Block) : Nat := llCurhdrlen + (packed b.is).length

def blen (b : Block) : Nat := b.len + b.pad.length

def words (b : Block) : List Int :=
  header b.nref b.len b.blen ++ (packed b.is ++ b.pad)

/-- The pixels of the list. -/
def line (b : Block) : List Int := expand 1 b.is

def refs (b : Block) (n : Int) : Block := { b with nref := n }

@[simp] theorem refs_nref (b : Block) (n : Int) : (b.refs n).nref = n := rfl

@[simp] theorem refs_is (b : Block) (n : Int) : (b.refs n).is = b.is := rfl

@[simp] theorem refs_pad (b : Block) (n : Int) : (b.refs n).pad = b.pad := rfl

@[simp] theorem refs_len (b : Block) (n : Int) : (b.refs n).len = b.len := rfl

@[simp] theorem refs_blen (b : Block) (n : Int) : (b.refs n).blen = b.blen :=
  rfl

@[simp] theorem refs_line (b : Block) (n : Int) : (b.refs n).line = b.line :=
  rfl

@[simp] theorem length_words (b : Block) : b.words.length = b.blen := by
  simp [words, blen, len, Nat.add_assoc]

theorem blen_lt (b : Block) : b.blen < 2 ^ 30 := b.short

theorem len_le_blen (b : Block) : b.len ≤ b.blen := Nat.le_add_right _ _

theorem len_pos (b : Block) : 0 < b.len := by
  simp only [len, llCurhdrlen]
  omega

theorem words_pos (b : Block) : 0 < b.words.length := by
  rw [length_words]
  exact Nat.lt_of_lt_of_le b.len_pos b.len_le_blen

section Reading

variable (b : Block) (rest : List Int)

theorem llNref_words : llNref (b.words ++ rest) = toShort b.nref := rfl

theorem llLen_words : llLen (b.words ++ rest) = b.len := by
  have hlt := b.blen_lt
  have hle := b.len_le_blen
  rw [words, List.append_assoc, llLen_header _ _ _ _ (by omega) (by omega)]

theorem llBlen_words : llBlen (b.words ++ rest) = b.blen := by
  have hlt := b.blen_lt
  rw [words, List.append_assoc, llBlen_header _ _ _ _ (by omega) (by omega)]

end Reading

end Block

/-! ## Memory that begins with a line list -/

/-- Memory that begins with the line list of some instructions. -/
def Packs (ll : List Int) (is : List Instr) : Prop :=
  ∃ nref blen rest,
    ll = header nref (llCurhdrlen + (packed is).length) blen ++
      (packed is ++ rest) ∧
    (∀ i ∈ is, i.Ok) ∧ llCurhdrlen + (packed is).length < 2 ^ 30

theorem encodes_iff {ll line : List Int} :
    Encodes ll line ↔ ∃ is, Packs ll is ∧ expand 1 is = line := by
  constructor
  · rintro ⟨nref, blen, is, rest, hll, hok, hline, hlen⟩
    exact ⟨is, ⟨nref, blen, rest, hll, hok, hlen⟩, hline⟩
  · rintro ⟨is, ⟨nref, blen, rest, hll, hok, hlen⟩, hline⟩
    exact ⟨nref, blen, is, rest, hll, hok, hline, hlen⟩

theorem Block.packs_words (b : Block) (rest : List Int) :
    Packs (b.words ++ rest) b.is := by
  refine ⟨b.nref, b.blen, b.pad ++ rest, ?_, b.ok, ?_⟩
  · simp [Block.words, Block.len]
  · have := b.short
    omega

theorem Packs.llLen {ll : List Int} {is : List Instr} (h : Packs ll is) :
    llLen ll = 7 + (packed is).length := by
  obtain ⟨nref, blen, rest, rfl, -, hlen⟩ := h
  rw [llLen_header _ _ _ _ (by omega) (by omega)]
  rfl

theorem packed_injective {is js : List Instr} (his : ∀ i ∈ is, i.Ok)
    (hjs : ∀ j ∈ js, j.Ok) (h : packed is = packed js) : is = js := by
  have hread := instructions_packed his
  rw [h, instructions_packed hjs] at hread
  exact (Option.some.inj hread).symm

theorem Packs.pllEqual_iff {l1 l2 : List Int} {is js : List Instr}
    (h1 : Packs l1 is) (h2 : Packs l2 js) : pllEqual l1 l2 ↔ is = js := by
  have hlen1 := h1.llLen
  have hlen2 := h2.llLen
  obtain ⟨nref1, blen1, rest1, hl1, his, -⟩ := h1
  obtain ⟨nref2, blen2, rest2, hl2, hjs, -⟩ := h2
  have hword : ∀ (nref blen : Int) (ws rest : List Int) (k : Nat),
      k < ws.length →
      word (header nref (llCurhdrlen + ws.length) blen ++ (ws ++ rest))
        (8 + k) = ws.getD k 0 := by
    intro nref blen ws rest k hk
    have hget := word_append_right
      (header nref (llCurhdrlen + ws.length) blen) (ws ++ rest) k
    rw [show (8 : Int) + k = (header nref (llCurhdrlen + ws.length)
      blen).length + k + 1 by simp only [length_header, llCurhdrlen]; omega,
      hget, List.getD_append _ _ _ _ hk]
  have hnew1 : ¬ LlOldformat l1 := by
    rw [hl1]
    exact not_oldformat_header _ _ _ _
  have hnew2 : ¬ LlOldformat l2 := by
    rw [hl2]
    exact not_oldformat_header _ _ _ _
  have hfirst1 : llFirst l1 = 8 := hl1 ▸ llFirst_header ..
  have hfirst2 : llFirst l2 = 8 := hl2 ▸ llFirst_header ..
  have hunfold : pllEqual l1 l2 =
      (if Plio.llLen l1 ≠ Plio.llLen l2 then false else
        (List.range (Plio.llLen l1 - 8 + 1).toNat).all fun k : Nat =>
          word l1 (8 + k) = word l2 (8 + k)) := by
    simp only [pllEqual, if_neg hnew1, if_neg hnew2, hfirst1, hfirst2]
  rw [hunfold, hlen1, hlen2]
  constructor
  · intro h
    split at h
    next => exact absurd h (by simp)
    next heq =>
      have hsame : (packed is).length = (packed js).length := by omega
      refine packed_injective his hjs (List.ext_getElem hsame fun k hk hk' => ?_)
      have hk8 := (List.all_eq_true.mp h) k (List.mem_range.mpr (by omega))
      rw [decide_eq_true_eq, hl1, hl2, hword _ _ _ _ k hk,
        hword _ _ _ _ k hk'] at hk8
      rwa [List.getD_eq_getElem _ _ hk, List.getD_eq_getElem _ _ hk'] at hk8
  · rintro rfl
    rw [if_neg (by simp), List.all_eq_true]
    intro k hk
    have hk' : k < (packed is).length := by
      have := List.mem_range.mp hk
      omega
    rw [decide_eq_true_eq, hl1, hl2, hword _ _ _ _ k hk', hword _ _ _ _ k hk']

/-! ## Writing inside a buffer -/

section Writing

variable (before body : List Int) (nref len blen : Int)

theorem poke_append (i : Nat) (v : Int) {ws : List Int} (hi : i < ws.length) :
    poke (before ++ ws) (before.length + i) v =
      .ok (before ++ ws.set i v) := by
  rw [poke, if_pos (by simp; omega), List.set_append_right _ _ (by omega),
    Nat.add_sub_cancel_left]

theorem setNrefs_append (n : Int) :
    setNrefs (before ++ (header nref len blen ++ body)) before.length n =
      .ok (before ++ (header n len blen ++ body)) :=
  poke_append before 0 (toShort n) (by
    rw [List.length_append, length_header, llCurhdrlen]
    omega)

theorem setBlen_append {n : Int} :
    setBlen (before ++ (header nref len blen ++ body)) before.length n =
      .ok (before ++ (header nref len n ++ body)) := by
  unfold setBlen
  rw [poke_append before 5 _ (by simp; omega)]
  exact poke_append before 6 _ (by simp; omega)

theorem amovs_append {ws mid : List Int} (h : ws.length ≤ mid.length) :
    amovs ws (before ++ mid) before.length =
      .ok (before ++ (ws ++ mid.drop ws.length)) := by
  rw [amovs, if_pos (by simp; omega), List.take_left, List.drop_append,
    List.drop_eq_nil_of_le (by omega), Nat.add_sub_cancel_left,
    List.nil_append, List.append_assoc]

end Writing

theorem setNrefs_tiles {bs : List Block} {k : Nat} {b : Block}
    (h : bs[k]? = some b) (t : List Int) (n : Int) :
    setNrefs (tiles Block.words bs ++ t) (offset Block.words bs k) n =
      .ok (tiles Block.words (bs.set k (b.refs n)) ++ t) := by
  rw [tiles_split _ h, tiles_set _ h, offset]
  have hset := setNrefs_append (tiles Block.words (bs.take k))
    (packed b.is ++ b.pad ++ (tiles Block.words (bs.drop (k + 1)) ++ t))
    b.nref b.len b.blen n
  simpa [Block.words] using hset

/-! ## The shelf -/

/-- The blocks of a mask with lines of `npix` pixels, and the block of every
line. -/
structure Shelf (npix : Nat) where
  blocks : List Block
  own : List Nat
  first : ∃ e, blocks[0]? = some e ∧ e.pad = [] ∧
    e.line = List.replicate npix 0
  owned : ∀ k ∈ own, k < blocks.length
  counted : ∀ k b, blocks[k]? = some b → k ≠ 0 →
    b.nref = (own.count k : Int) ∧ b.nref ≤ maxShort

namespace Shelf

variable {npix : Nat} (s : Shelf npix)

def words : List Int := tiles Block.words s.blocks

def offset (k : Nat) : Nat := Tiling.offset Block.words s.blocks k

/-- The instructions of a block. -/
def listAt (k : Nat) : List Instr := (s.blocks[k]?.map Block.is).getD []

/-- The lines of the mask. -/
def rows : List (List Int) := s.own.map fun k => expand 1 (s.listAt k)

/-- The lists stored, in use or not. -/
def lists : List (List Instr) := s.blocks.map Block.is

/-- The words of a block while some line refers to it. -/
def live (b : Block) : Int := if 0 < b.nref then b.len else 0

/-- The words of the lists in use: the empty line and the lists that some line
refers to. -/
def liveSum : List Block → Int
  | [] => 0
  | e :: bs => e.len + (bs.map live).sum

/-- The words of the buffer that compressing it would free. -/
def freed : Int := s.words.length - liveSum s.blocks

variable {s} {k : Nat} {b : Block}

theorem listAt_eq (h : s.blocks[k]? = some b) : s.listAt k = b.is := by
  simp [listAt, h]

theorem exists_block (hk : k < s.blocks.length) :
    ∃ b, s.blocks[k]? = some b := ⟨_, List.getElem?_eq_getElem hk⟩

theorem exists_owned {i : Nat} (hi : s.own[i]? = some k) :
    ∃ b, s.blocks[k]? = some b :=
  exists_block (s.owned k (List.mem_of_getElem? hi))

theorem blocks_pos : 0 < s.blocks.length := by
  obtain ⟨e, he, -⟩ := s.first
  exact (List.getElem?_eq_some_iff.mp he).1

@[simp] theorem offset_zero : s.offset 0 = 0 := rfl

theorem live_refs (b : Block) (n : Int) :
    live (b.refs n) = if 0 < n then (b.len : Int) else 0 := rfl

theorem liveSum_set {bs : List Block} (h : bs[k]? = some b) (hk : k ≠ 0)
    (b' : Block) : liveSum (bs.set k b') = liveSum bs - live b + live b' := by
  cases bs with
  | nil => simp at h
  | cons e bs =>
      obtain ⟨j, rfl⟩ := Nat.exists_eq_succ_of_ne_zero hk
      obtain ⟨hj, hget⟩ := List.getElem?_eq_some_iff.mp h
      have hj' : j < (bs.map live).length := by simpa using hj
      have hb : (bs.map live)[j] = live b := by
        rw [← hget]
        simp
      simp only [List.set_cons_succ, liveSum, List.map_set, List.sum_set',
        dif_pos hj', hb]
      omega

theorem liveSum_set_zero {bs : List Block} (h : bs[0]? = some b) (n : Int) :
    liveSum (bs.set 0 (b.refs n)) = liveSum bs := by
  cases bs with
  | nil => simp at h
  | cons e bs =>
      obtain rfl : e = b := by simpa using h
      simp [liveSum]

theorem liveSum_append {bs : List Block} (hbs : bs ≠ []) (c : Block) :
    liveSum (bs ++ [c]) = liveSum bs + live c := by
  cases bs with
  | nil => exact absurd rfl hbs
  | cons e bs =>
      simp [liveSum]
      omega

end Shelf

/-! ## Masks and their shelves -/

/-- The line list buffer begins with the words of some blocks. -/
def Mask.Stores (m : Mask) (bs : List Block) : Prop :=
  ∃ t, m.llbuf = tiles Block.words bs ++ t

namespace Mask.Stores

variable {m : Mask} {bs : List Block} {k : Nat} {b : Block}

theorem ll (h : m.Stores bs) (hb : bs[k]? = some b) :
    ∃ rest, m.ll (Tiling.offset Block.words bs k) = b.words ++ rest := by
  obtain ⟨t, ht⟩ := h
  rw [Mask.ll, ht, Int.toNat_natCast]
  exact ⟨_, drop_offset _ hb t⟩

theorem packs (h : m.Stores bs) (hb : bs[k]? = some b) :
    Packs (m.ll (Tiling.offset Block.words bs k)) b.is := by
  obtain ⟨rest, hrest⟩ := h.ll hb
  exact hrest ▸ b.packs_words rest

theorem llNref (h : m.Stores bs) (hb : bs[k]? = some b) :
    llNref (m.ll (Tiling.offset Block.words bs k)) = toShort b.nref := by
  obtain ⟨rest, hrest⟩ := h.ll hb
  rw [hrest, b.llNref_words]

theorem llLen (h : m.Stores bs) (hb : bs[k]? = some b) :
    llLen (m.ll (Tiling.offset Block.words bs k)) = b.len := by
  obtain ⟨rest, hrest⟩ := h.ll hb
  rw [hrest, b.llLen_words]

theorem llBlen (h : m.Stores bs) (hb : bs[k]? = some b) :
    llBlen (m.ll (Tiling.offset Block.words bs k)) = b.blen := by
  obtain ⟨rest, hrest⟩ := h.ll hb
  rw [hrest, b.llBlen_words]

theorem storedAt_iff (h : m.Stores bs) (hb : bs[k]? = some b)
    {l : List Int} {is : List Instr} (hl : Packs l is) :
    m.storedAt l (Tiling.offset Block.words bs k) ↔ is = b.is := by
  rw [Mask.storedAt, decide_eq_true_eq, hl.pllEqual_iff (h.packs hb)]
  refine ⟨fun hstored => hstored.2, fun heq => ⟨?_, heq⟩⟩
  rw [hl.llLen, (h.packs hb).llLen, heq]

end Mask.Stores

/-- The mask stores the blocks of a shelf. -/
structure Mask.Holds (m : Mask) {npix : Nat} (s : Shelf npix) : Prop where
  stores : m.Stores s.blocks
  llop : m.llop = s.words.length
  lllen : m.lllen = m.llbuf.length
  lp : m.lp = s.own.map fun k => (s.offset k : Int)
  nlp : m.nlp = s.own.length
  llbp : 0 < m.llbp
  llinc : 0 < m.llinc

theorem Mask.Holds.lpAt {m : Mask} {npix : Nat} {s : Shelf npix} {i k : Nat}
    (h : m.Holds s) (hi : s.own[i]? = some k) :
    m.lpAt ((i : Int) + 1) = s.offset k := by
  have hindex : ((i : Int) + 1 - 1).toNat = i := by omega
  rw [Mask.lpAt, word, h.lp, hindex, List.getD_eq_getElem?_getD,
    List.getElem?_map, hi]
  rfl

end Iraf.Plio
