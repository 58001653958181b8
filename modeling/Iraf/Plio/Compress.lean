import Iraf.Plio.Update

/-!
# Compressing the line lists

What `pl_compress` and `pl_clear` do to the shelf of a mask.  Compressing keeps
the blocks that lines refer to, without the space they had to grow in.  A moved
list is found through the tag left in the reference count and the length of its
old copy, so its new offset must fit the tag.
-/

namespace Iraf.Plio

open Tiling

/-! ## The blocks that are kept -/

def Block.isLive (b : Block) : Bool := 0 < b.nref

/-- A block with no space after its list. -/
def Block.trim (b : Block) : Block where
  nref := b.nref
  is := b.is
  pad := []
  ok := b.ok
  short := by
    have := b.short
    simp only [List.length_nil]
    omega

theorem Block.trim_words (b : Block) :
    b.trim.words = header b.nref b.len b.len ++ packed b.is := by
  simp [Block.words, Block.trim, Block.len, Block.blen]

@[simp] theorem Block.trim_blen (b : Block) : b.trim.blen = b.len := by
  simp [Block.trim, Block.blen, Block.len]

def kept (bs : List Block) : List Block :=
  (bs.filter Block.isLive).map Block.trim

@[simp] theorem kept_nil : kept [] = [] := rfl

theorem kept_cons_live {b : Block} (h : b.isLive) (bs : List Block) :
    kept (b :: bs) = b.trim :: kept bs := by
  simp [kept, h]

theorem kept_cons_dead {b : Block} (h : ¬ b.isLive) (bs : List Block) :
    kept (b :: bs) = kept bs := by
  simp [kept, h]

theorem live_of_isLive {b : Block} (h : b.isLive) : Shelf.live b = b.len :=
  if_pos (of_decide_eq_true h)

theorem live_of_not_isLive {b : Block} (h : ¬ b.isLive) : Shelf.live b = 0 :=
  if_neg fun hpos => h (decide_eq_true hpos)

theorem length_tiles_kept (bs : List Block) :
    ((tiles Block.words (kept bs)).length : Int) = (bs.map Shelf.live).sum := by
  induction bs with
  | nil => rfl
  | cons b bs ih =>
      by_cases h : b.isLive
      · rw [kept_cons_live h, tiles_cons, List.length_append,
          Block.length_words, Block.trim_blen, List.map_cons, List.sum_cons,
          live_of_isLive h, ← ih]
        simp
      · rw [kept_cons_dead h, List.map_cons, List.sum_cons,
          live_of_not_isLive h, ih, zero_add]

/-! ## Counting -/

theorem Mask.ll_append {m : Mask} {done rest : List Int}
    (h : m.llbuf = done ++ rest) : m.ll done.length = rest := by
  rw [Mask.ll, h, Int.toNat_natCast, List.drop_left]

theorem liveWords_blocks {bs : List Block}
    (hshort : ∀ b ∈ bs, toShort b.nref = b.nref) {m : Mask}
    {done t : List Int} (hdone : 0 < done.length)
    (hbuf : m.llbuf = done ++ (tiles Block.words bs ++ t))
    (hllop : m.llop = (done.length + (tiles Block.words bs).length : Nat))
    {fuel : Nat} (hfuel : bs.length ≤ fuel) (n : Int) :
    liveWords m fuel done.length n = .ok (n + (bs.map Shelf.live).sum) := by
  induction bs generalizing done fuel n with
  | nil =>
      have hend : ¬ (done.length : Int) < m.llop := by
        rw [hllop]
        simp
      cases fuel with
      | zero => simp [liveWords]
      | succ fuel => simp [liveWords, hend]
  | cons b bs ih =>
      obtain ⟨fuel, rfl⟩ : ∃ f, fuel = f + 1 := ⟨fuel - 1, by simp at hfuel; omega⟩
      rw [tiles_cons, List.append_assoc] at hbuf
      rw [tiles_cons, List.length_append, Block.length_words] at hllop
      have hpos := b.words_pos
      rw [Block.length_words] at hpos
      have hblen : llBlen (m.ll done.length) = b.blen := by
        rw [Mask.ll_append hbuf, b.llBlen_words]
      have hlen : llLen (m.ll done.length) = b.len := by
        rw [Mask.ll_append hbuf, b.llLen_words]
      have hnref : llNref (m.ll done.length) = b.nref := by
        rw [Mask.ll_append hbuf, b.llNref_words, hshort b (by simp)]
      have hnext : (done.length : Int) + b.blen = (done ++ b.words).length := by
        rw [List.length_append, Block.length_words, Nat.cast_add]
      have hrun := ih (fun c hc => hshort c (by simp [hc]))
        (show 0 < (done ++ b.words).length by rw [List.length_append]; omega)
        (by rw [List.append_assoc, hbuf])
        (by rw [List.length_append, Block.length_words, hllop]; omega)
        (show bs.length ≤ fuel by simpa using hfuel)
      rw [liveWords, if_pos (by omega)]
      simp only [hblen, hlen, hnref, plEmptyline]
      rw [if_neg (by omega), hnext, hrun, List.map_cons, List.sum_cons,
        Shelf.live]
      congr 1
      by_cases hlive : 0 < b.nref
      · rw [if_pos (.inr hlive), if_pos hlive]
        omega
      · rw [if_neg (by omega), if_neg hlive]
        omega

theorem length_le_tiles (bs : List Block) :
    bs.length ≤ (tiles Block.words bs).length := by
  induction bs with
  | nil => simp
  | cons b bs ih =>
      have := b.words_pos
      rw [tiles_cons, List.length_append, List.length_cons]
      omega

theorem liveWords_eq {bs : List Block}
    (hshort : ∀ b ∈ bs.tail, toShort b.nref = b.nref) {m : Mask}
    (hbuf : m.Stores bs) (hllop : m.llop = (tiles Block.words bs).length) :
    liveWords m m.llop.toNat 0 0 = .ok (Shelf.liveSum bs) := by
  obtain ⟨t, ht⟩ := hbuf
  cases bs with
  | nil =>
      rw [hllop]
      rfl
  | cons e bs =>
      have hfuel := length_le_tiles bs
      rw [tiles_cons, List.append_assoc] at ht
      rw [tiles_cons, List.length_append] at hllop
      have hpos := e.words_pos
      obtain ⟨fuel, hf⟩ : ∃ f, m.llop.toNat = f + 1 :=
        ⟨m.llop.toNat - 1, by omega⟩
      have hread : m.ll 0 = e.words ++ (tiles Block.words bs ++ t) := by
        rw [Mask.ll, ht]
        rfl
      have hrun := liveWords_blocks hshort hpos ht hllop
        (show bs.length ≤ fuel by omega) e.len
      rw [Block.length_words] at hpos hllop hrun
      rw [hf, liveWords, if_pos (by omega)]
      simp only [hread, e.llBlen_words, e.llLen_words, plEmptyline, true_or,
        if_true]
      rw [if_neg (by omega), zero_add, zero_add, hrun]
      rfl

/-! ## Moving -/

/-- The words of a block after its new offset is left in it. -/
def Block.tagWords (b : Block) (op : Nat) : List Int :=
  header ((op : Int).tdiv iShift) b.len ((op : Int).tmod iShift) ++
    (packed b.is ++ b.pad)

@[simp] theorem Block.length_tagWords (b : Block) (op : Nat) :
    (b.tagWords op).length = b.blen := by
  simp [Block.tagWords, Block.blen, Block.len, Nat.add_assoc]

/-- The old copies after the loop, from new offset `op` on. -/
def tagged : Nat → List Block → List Int
  | _, [] => []
  | op, b :: bs =>
      if b.isLive then b.tagWords op ++ tagged (op + b.len) bs
      else b.words ++ tagged op bs

theorem Moved.copy_eq (b : Block) (done after moved free : List Int)
    (hroom : b.len ≤ free.length) :
    Moved.copy (moved.length + free.length : Nat)
        ⟨done ++ (b.words ++ after), moved ++ free, moved.length⟩
        done.length =
      .ok ⟨done ++ (b.tagWords moved.length ++ after),
        moved ++ (b.trim.words ++ free.drop b.len),
        (moved.length + b.len : Nat)⟩ := by
  have hread : (done ++ (b.words ++ after)).drop (done.length : Int).toNat =
      b.words ++ after := by
    rw [Int.toNat_natCast, List.drop_left]
  have htake : (b.words ++ after).take b.len =
      header b.nref b.len b.blen ++ packed b.is := by
    have hsize : (header b.nref b.len b.blen ++ packed b.is).length = b.len := by
      simp [Block.len]
    rw [Block.words, List.append_assoc, List.append_assoc, ← List.append_assoc,
      List.take_left' hsize]
  have hmove : amovs ((b.words ++ after).take b.len) (moved ++ free)
      moved.length = .ok (moved ++ (header b.nref b.len b.blen ++
        (packed b.is ++ free.drop b.len))) := by
    rw [htake, amovs_append _ (by simpa [Block.len] using hroom)]
    simp [Block.len]
  have hwords : b.words ++ after =
      header b.nref b.len b.blen ++ (packed b.is ++ b.pad ++ after) := by
    simp [Block.words]
  have htag : b.tagWords moved.length ++ after =
      header ((moved.length : Int).tdiv iShift) b.len
        ((moved.length : Int).tmod iShift) ++
        (packed b.is ++ b.pad ++ after) := by
    simp [Block.tagWords]
  unfold Moved.copy
  simp only [hread, b.llLen_words]
  rw [if_neg (by push_cast; omega), Int.toNat_natCast, Int.toNat_natCast,
    Int.toNat_natCast, hmove, hwords]
  simp only [bind, Except.bind, pure, Except.pure, setNrefs_append]
  rw [setBlen_append, setBlen_append, htag, b.trim_words, List.append_assoc]
  rfl

theorem moveLists_blocks {bs : List Block}
    (hshort : ∀ b ∈ bs, toShort b.nref = b.nref) {llop : Int}
    {done t : List Int} (hdone : 0 < done.length) (moved free : List Int)
    (hllop : llop = (done.length + (tiles Block.words bs).length : Nat))
    (hroom : (tiles Block.words (kept bs)).length ≤ free.length)
    {fuel : Nat} (hfuel : bs.length ≤ fuel) :
    moveLists llop (moved.length + free.length : Nat) fuel done.length
        ⟨done ++ (tiles Block.words bs ++ t), moved ++ free, moved.length⟩ =
      .ok ⟨done ++ (tagged moved.length bs ++ t),
        moved ++ (tiles Block.words (kept bs) ++
          free.drop (tiles Block.words (kept bs)).length),
        (moved.length + (tiles Block.words (kept bs)).length : Nat)⟩ := by
  induction bs generalizing done moved free fuel with
  | nil =>
      have hend : ¬ (done.length : Int) < llop := by
        rw [hllop]
        simp
      cases fuel with
      | zero => simp [moveLists, tagged]
      | succ fuel => simp [moveLists, hend, tagged]
  | cons b bs ih =>
      obtain ⟨fuel, rfl⟩ : ∃ f, fuel = f + 1 := ⟨fuel - 1, by simp at hfuel; omega⟩
      rw [tiles_cons, List.length_append, Block.length_words] at hllop
      have hpos := b.words_pos
      rw [Block.length_words] at hpos
      have hread : (done ++ (tiles Block.words (b :: bs) ++ t)).drop
          (done.length : Int).toNat = b.words ++ (tiles Block.words bs ++ t) := by
        rw [Int.toNat_natCast, List.drop_left, tiles_cons, List.append_assoc]
      rw [moveLists, if_pos (by omega)]
      simp only [hread, b.llBlen_words, b.llNref_words,
        hshort b (by simp), plEmptyline]
      rw [if_neg (by omega)]
      have hnext : ∀ ws : List Int, ws.length = b.blen →
          (done.length : Int) + b.blen = (done ++ ws).length := by
        intro ws hws
        rw [List.length_append, hws, Nat.cast_add]
      rw [tiles_cons, List.append_assoc]
      by_cases hlive : b.isLive
      · have hpos' : 0 < b.nref := of_decide_eq_true hlive
        have hfirst : (tiles Block.words (kept (b :: bs))) =
            b.trim.words ++ tiles Block.words (kept bs) := by
          rw [kept_cons_live hlive, tiles_cons]
        have htrim : b.trim.words.length = b.len := by
          rw [Block.length_words, Block.trim_blen]
        rw [hfirst, List.length_append, htrim] at hroom
        have hrun := ih (fun c hc => hshort c (by simp [hc]))
          (show 0 < (done ++ b.tagWords moved.length).length by
            rw [List.length_append]
            omega)
          (moved ++ b.trim.words) (free.drop b.len)
          (by rw [List.length_append, Block.length_tagWords, hllop]; omega)
          (by rw [List.length_drop]; omega)
          (show bs.length ≤ fuel by simpa using hfuel)
        have htotal : (moved ++ b.trim.words).length +
            (free.drop b.len).length = moved.length + free.length := by
          rw [List.length_append, List.length_drop, htrim]
          omega
        rw [htotal, List.append_assoc, List.append_assoc] at hrun
        rw [if_pos (.inr hpos'), Moved.copy_eq _ _ _ _ _ (by omega)]
        simp only [bind, Except.bind]
        rw [hnext _ (b.length_tagWords moved.length),
          show moved.length + b.len = (moved ++ b.trim.words).length by
            rw [List.length_append, htrim], hrun, hfirst, tagged, if_pos hlive]
        simp [List.append_assoc, htrim, Nat.add_assoc]
      · have hzero : ¬ b.nref > 0 := fun h => hlive (decide_eq_true h)
        rw [kept_cons_dead hlive] at hroom ⊢
        have hrun := ih (fun c hc => hshort c (by simp [hc]))
          (show 0 < (done ++ b.words).length by rw [List.length_append]; omega)
          moved free
          (by rw [List.length_append, Block.length_words, hllop]; omega)
          hroom (show bs.length ≤ fuel by simpa using hfuel)
        rw [List.append_assoc, List.append_assoc] at hrun
        rw [if_neg (by omega)]
        simp only [bind, Except.bind]
        rw [hnext _ b.length_words, hrun, tagged, if_neg hlive,
          List.append_assoc]

/-! ## Finding the moved blocks -/

/-- The blocks of the new buffer. -/
def compactBlocks : List Block → List Block
  | [] => []
  | e :: bs => e.trim :: kept bs

/-- The number of a block in the new buffer. -/
def newIndex (bs : List Block) : Nat → Nat
  | 0 => 0
  | k + 1 => rank Block.isLive bs.tail k + 1

section NewIndex

variable {bs : List Block} {j k : Nat} {b c : Block}

theorem getElem?_compactBlocks (h : bs[k]? = some b)
    (hlive : k = 0 ∨ b.isLive) :
    (compactBlocks bs)[newIndex bs k]? = some b.trim := by
  cases bs with
  | nil => simp at h
  | cons e bs =>
      cases k with
      | zero =>
          obtain rfl : e = b := by simpa using h
          rfl
      | succ k =>
          have hget := getElem?_rank Block.isLive
            (show bs[k]? = some b by simpa using h) (hlive.resolve_left (Nat.succ_ne_zero k))
          simp only [newIndex, compactBlocks, List.tail_cons,
            List.getElem?_cons_succ, kept, List.getElem?_map, hget]
          rfl

theorem exists_of_getElem?_compactBlocks (h : (compactBlocks bs)[j]? = some c) :
    ∃ k b, bs[k]? = some b ∧ (k = 0 ∨ b.isLive) ∧ c = b.trim ∧
      newIndex bs k = j := by
  cases bs with
  | nil => simp [compactBlocks] at h
  | cons e bs =>
      cases j with
      | zero =>
          obtain rfl : e.trim = c := by simpa [compactBlocks] using h
          exact ⟨0, e, rfl, .inl rfl, rfl, rfl⟩
      | succ j =>
          simp only [compactBlocks, List.getElem?_cons_succ, kept,
            List.getElem?_map, Option.map_eq_some_iff] at h
          obtain ⟨b, hb, rfl⟩ := h
          obtain ⟨k, hk, hlive, hrank⟩ :=
            exists_of_getElem?_filter Block.isLive hb
          exact ⟨k + 1, b, by simpa using hk, .inr hlive, rfl, by
            simp [newIndex, hrank]⟩

theorem newIndex_inj (hj : bs[j]? = some b) (hb : j = 0 ∨ b.isLive)
    (hk : bs[k]? = some c) (hc : k = 0 ∨ c.isLive) :
    newIndex bs j = newIndex bs k ↔ j = k := by
  cases bs with
  | nil => simp at hj
  | cons e bs =>
      cases j with
      | zero => cases k <;> simp [newIndex]
      | succ j =>
          cases k with
          | zero => simp [newIndex]
          | succ k =>
              have hinj := rank_inj Block.isLive
                (show bs[j]? = some b by simpa using hj) (hb.resolve_left (Nat.succ_ne_zero j))
                (by simpa using hk) (hc.resolve_left (Nat.succ_ne_zero k))
              simp [newIndex, hinj]

theorem offset_compactBlocks (hk : k < bs.length) :
    (Tiling.offset Block.words (compactBlocks bs) (newIndex bs k) : Int) =
      Shelf.liveSum (bs.take k) := by
  cases bs with
  | nil => simp at hk
  | cons e bs =>
      cases k with
      | zero => rfl
      | succ k =>
          have htake : (kept bs).take (rank Block.isLive bs k) =
              kept (bs.take k) := by
            rw [kept, ← List.map_take, take_rank, kept]
          have hsum := length_tiles_kept (bs.take k)
          simp only [newIndex, compactBlocks, List.tail_cons, tiles_cons,
            List.length_append, Tiling.offset, htake, List.take_succ_cons,
            Shelf.liveSum, Block.length_words, Block.trim_blen]
          rw [Nat.cast_add, hsum]

end NewIndex

theorem drop_tagged {bs : List Block} {k : Nat} {b : Block}
    (h : bs[k]? = some b) (hlive : b.isLive) (op : Nat) (t : List Int) :
    ∃ rest, (tagged op bs ++ t).drop (Tiling.offset Block.words bs k) =
      b.tagWords (op + (tiles Block.words (kept (bs.take k))).length) ++
        rest := by
  induction bs generalizing op k with
  | nil => simp at h
  | cons c bs ih =>
      cases k with
      | zero =>
          obtain rfl : c = b := by simpa using h
          exact ⟨tagged (op + c.len) bs ++ t, by
            simp [tagged, hlive, List.append_assoc]⟩
      | succ k =>
          rw [offset_cons_succ, tagged, List.take_succ_cons]
          by_cases hc : c.isLive
          · obtain ⟨rest, hrest⟩ := ih (k := k) (by simpa using h) (op + c.len)
            refine ⟨rest, ?_⟩
            rw [if_pos hc, List.append_assoc, ← List.drop_drop,
              List.drop_left' (by simp), hrest, kept_cons_live hc, tiles_cons,
              List.length_append, Block.length_words, Block.trim_blen,
              Nat.add_assoc]
          · obtain ⟨rest, hrest⟩ := ih (k := k) (by simpa using h) op
            refine ⟨rest, ?_⟩
            rw [if_neg hc, List.append_assoc, ← List.drop_drop,
              List.drop_left, hrest, kept_cons_dead hc]

/-- The offset read back from a tag. -/
def tagOffset (ll : List Int) : Int := llNref ll * iShift + llBlen ll

theorem Block.tagOffset_tagWords (b : Block) {op : Nat} (hop : op < 2 ^ 27)
    (rest : List Int) : tagOffset (b.tagWords op ++ rest) = op := by
  have hnonneg : (0 : Int) ≤ op := Int.natCast_nonneg op
  have hmod : (op : Int).tmod iShift = (op : Int) % 4096 :=
    Int.tmod_eq_emod_of_nonneg hnonneg
  have hdiv : (op : Int).tdiv iShift = (op : Int) / 4096 :=
    Int.tdiv_eq_ediv_of_nonneg hnonneg
  rw [tagOffset, Block.tagWords, List.append_assoc, llNref_header,
    llBlen_header _ _ _ _ (by omega) (by omega), hdiv, hmod,
    toShort_of_mem (by omega) (by omega), iShift]
  omega

/-! ## The procedure -/

namespace Shelf

variable {npix : Nat} {s : Shelf npix} {i k : Nat} {b : Block}

theorem owned_live (hk : k ∈ s.own) (hb : s.blocks[k]? = some b) :
    k = 0 ∨ b.isLive := by
  by_cases hzero : k = 0
  · exact .inl hzero
  · obtain ⟨i, hi⟩ := List.mem_iff_getElem?.mp hk
    exact .inr (decide_eq_true (s.nref_pos hi hb hzero))

theorem count_newIndex (hb : s.blocks[k]? = some b) (hlive : k = 0 ∨ b.isLive) :
    (s.own.map (newIndex s.blocks)).count (newIndex s.blocks k) =
      s.own.count k := by
  rw [List.count_eq_countP, List.countP_map, List.count_eq_countP]
  refine List.countP_congr fun x hx => ?_
  obtain ⟨c, hc⟩ := s.exists_block (s.owned x hx)
  simp only [Function.comp_apply, beq_iff_eq]
  exact newIndex_inj hc (s.owned_live hx hc) hb hlive

/-- The blocks that lines refer to, each as short as its list. -/
def compress (s : Shelf npix) : Shelf npix where
  blocks := compactBlocks s.blocks
  own := s.own.map (newIndex s.blocks)
  first := by
    obtain ⟨e, he, hpad, hline⟩ := s.first
    exact ⟨e.trim, getElem?_compactBlocks he (.inl rfl), rfl, hline⟩
  owned := by
    intro j hj
    obtain ⟨k, hk, rfl⟩ := List.mem_map.mp hj
    obtain ⟨b, hb⟩ := s.exists_block (s.owned k hk)
    exact (List.getElem?_eq_some_iff.mp
      (getElem?_compactBlocks hb (s.owned_live hk hb))).1
  counted := by
    intro j c hc hj
    obtain ⟨k, b, hb, hlive, rfl, rfl⟩ := exists_of_getElem?_compactBlocks hc
    rw [count_newIndex hb hlive]
    exact s.counted k b hb fun hk => hj (by rw [hk]; rfl)

theorem compress_rows : s.compress.rows = s.rows := by
  change ((s.own.map (newIndex s.blocks)).map _) = _
  rw [List.map_map, rows]
  refine List.map_congr_left fun k hk => ?_
  obtain ⟨b, hb⟩ := s.exists_block (s.owned k hk)
  have hnew := getElem?_compactBlocks hb (s.owned_live hk hb)
  rw [Function.comp_apply, listAt_eq hb,
    listAt_eq (s := s.compress) (b := b.trim) hnew]
  rfl

theorem liveSum_compactBlocks (bs : List Block) :
    liveSum (compactBlocks bs) = liveSum bs := by
  cases bs with
  | nil => rfl
  | cons e bs =>
      have htrim : ∀ cs : List Block, ((kept cs).map live).sum =
          (cs.map live).sum := by
        intro cs
        induction cs with
        | nil => rfl
        | cons c cs ih =>
            by_cases hc : c.isLive
            · rw [kept_cons_live hc, List.map_cons, List.map_cons,
                List.sum_cons, List.sum_cons, ih]
              rfl
            · rw [kept_cons_dead hc, List.map_cons, List.sum_cons, ih,
                live_of_not_isLive hc, zero_add]
      rw [compactBlocks, liveSum, liveSum, htrim]
      rfl

theorem length_tiles_compactBlocks (bs : List Block) :
    ((tiles Block.words (compactBlocks bs)).length : Int) = liveSum bs := by
  cases bs with
  | nil => rfl
  | cons e bs =>
      rw [compactBlocks, tiles_cons, List.length_append, Block.length_words,
        Block.trim_blen, Nat.cast_add, length_tiles_kept, liveSum]

theorem compress_freed : s.compress.freed = 0 := by
  have hlen := length_tiles_compactBlocks s.blocks
  have hsum := liveSum_compactBlocks s.blocks
  change ((tiles Block.words (compactBlocks s.blocks)).length : Int) -
    liveSum (compactBlocks s.blocks) = 0
  omega

theorem toShort_tail : ∀ b ∈ s.blocks.tail, toShort b.nref = b.nref := by
  intro b hb
  obtain ⟨k, hk⟩ := List.mem_iff_getElem?.mp hb
  rw [List.getElem?_tail] at hk
  exact s.toShort_nref hk (Nat.succ_ne_zero k)

end Shelf

/-- Where a list goes: the words of the lists in use before it. -/
def Mask.newOffset (pl : Mask) (o : Int) : Int :=
  match liveWords { pl with llop := o } o.toNat 0 0 with
  | .ok n => n
  | .error _ => 0

/-- The new offsets of the lists in use fit the tags of `pl_compress`. -/
def Mask.TagsFit (pl : Mask) : Prop := ∀ o ∈ pl.lp, pl.newOffset o < 2 ^ 27

instance : DecidablePred Mask.TagsFit := fun pl => by
  unfold Mask.TagsFit
  infer_instance

theorem Mask.Holds.newOffset {npix : Nat} {s : Shelf npix} {m : Mask}
    (h : m.Holds s) {k : Nat} (hk : k < s.blocks.length) :
    m.newOffset (s.offset k) = s.compress.offset (newIndex s.blocks k) := by
  obtain ⟨t, ht⟩ := h.stores
  have hshort : ∀ b ∈ (s.blocks.take k).tail, toShort b.nref = b.nref := by
    intro b hb
    refine s.toShort_tail b ?_
    rw [← List.drop_one, List.drop_take, List.drop_one] at hb
    exact List.mem_of_mem_take hb
  have hwords := liveWords_eq hshort
    (m := { m with llop := (s.offset k : Int) })
    (by
      refine ⟨tiles Block.words (s.blocks.drop k) ++ t, ?_⟩
      rw [ht, ← List.append_assoc, ← tiles_append, List.take_append_drop])
    rfl
  have hoffset : (s.compress.offset (newIndex s.blocks k) : Int) =
      Shelf.liveSum (s.blocks.take k) := offset_compactBlocks hk
  rw [Mask.newOffset, hwords, hoffset]

theorem moveLists_eq {e : Block} {bs : List Block}
    (hshort : ∀ b ∈ bs, toShort b.nref = b.nref) (t : List Int) {fuel : Nat}
    (hfuel : (e :: bs).length ≤ fuel) :
    moveLists (tiles Block.words (e :: bs)).length (Shelf.liveSum (e :: bs))
        fuel 0
        ⟨tiles Block.words (e :: bs) ++ t,
          malloc (Shelf.liveSum (e :: bs)).toNat, 0⟩ =
      .ok ⟨e.tagWords 0 ++ (tagged e.len bs ++ t),
        tiles Block.words (compactBlocks (e :: bs)),
        Shelf.liveSum (e :: bs)⟩ := by
  obtain ⟨fuel, rfl⟩ : ∃ f, fuel = f + 1 := ⟨fuel - 1, by simp at hfuel; omega⟩
  have htotal := Shelf.length_tiles_compactBlocks (e :: bs)
  rw [← htotal, Int.toNat_natCast]
  have hsplit : (tiles Block.words (compactBlocks (e :: bs))).length =
      e.len + (tiles Block.words (kept bs)).length := by
    rw [compactBlocks, tiles_cons, List.length_append, Block.length_words,
      Block.trim_blen]
  have hpos := e.words_pos
  rw [Block.length_words] at hpos
  let free := malloc (tiles Block.words (compactBlocks (e :: bs))).length
  have hfree : free.length =
      (tiles Block.words (compactBlocks (e :: bs))).length := by
    simp [free, malloc]
  have hcopy := Moved.copy_eq e [] (tiles Block.words bs ++ t) [] free
    (by omega)
  have hrun := @moveLists_blocks bs hshort
    (tiles Block.words (e :: bs)).length (e.tagWords 0) t
    (by rw [Block.length_tagWords]; exact hpos) e.trim.words (free.drop e.len)
    (by rw [tiles_cons, List.length_append, Block.length_words,
      Block.length_tagWords])
    (by rw [List.length_drop]; omega) fuel (by simpa using hfuel)
  have hroom : e.trim.words.length + (free.drop e.len).length =
      (tiles Block.words (compactBlocks (e :: bs))).length := by
    rw [Block.length_words, Block.trim_blen, List.length_drop]
    omega
  rw [hroom, Block.length_tagWords, Block.length_words, Block.trim_blen]
    at hrun
  simp only [List.length_nil, List.nil_append, Nat.zero_add, hfree] at hcopy
  have hread : (tiles Block.words (e :: bs) ++ t).drop (0 : Int).toNat =
      e.words ++ (tiles Block.words bs ++ t) := by
    rw [tiles_cons, List.append_assoc]
    rfl
  rw [moveLists, if_pos (by
    rw [tiles_cons, List.length_append, Block.length_words]
    omega)]
  simp only [hread, e.llBlen_words, plEmptyline, true_or, if_true]
  rw [if_neg (by
    rw [tiles_cons, List.length_append, Block.length_words]
    omega), tiles_cons, List.append_assoc]
  rw [show (0 : Int) = ((0 : Nat) : Int) from rfl, hcopy]
  simp only [bind, Except.bind, Nat.cast_zero, zero_add]
  rw [← tiles_cons, hrun, List.drop_drop, List.drop_of_length_le (by omega),
    List.append_nil, hsplit, compactBlocks, tiles_cons]

theorem tagOffset_moved {npix : Nat} {s : Shelf npix} {e : Block}
    {bs : List Block} (hbs : s.blocks = e :: bs) (t : List Int) {k : Nat}
    (hk : k ∈ s.own) (hfit : s.compress.offset (newIndex s.blocks k) < 2 ^ 27) :
    tagOffset ((e.tagWords 0 ++ (tagged e.len bs ++ t)).drop (s.offset k)) =
      s.compress.offset (newIndex s.blocks k) := by
  obtain ⟨b, hb⟩ := s.exists_block (s.owned k hk)
  have hlive := s.owned_live hk hb
  have hnew : (s.compress.offset (newIndex s.blocks k) : Int) =
      Shelf.liveSum (s.blocks.take k) := offset_compactBlocks (s.owned k hk)
  cases k with
  | zero => exact e.tagOffset_tagWords (by decide) _
  | succ k =>
      rw [hbs, List.getElem?_cons_succ] at hb
      obtain ⟨rest, hrest⟩ := drop_tagged hb
        (hlive.resolve_left (Nat.succ_ne_zero k)) e.len t
      have hoffset : s.offset (k + 1) =
          e.blen + Tiling.offset Block.words bs k := by
        rw [Shelf.offset, hbs, offset_cons_succ, Block.length_words]
      have hsum := length_tiles_kept (bs.take k)
      rw [hbs, List.take_succ_cons, Shelf.liveSum, ← hsum] at hnew
      rw [hoffset, ← List.drop_drop, List.drop_left' (by simp), hrest,
        b.tagOffset_tagWords (by rw [hbs] at hfit; omega), hbs, hnew]
      rfl

/-- The mask after a compression; its line pointers are right when the new
offsets fit the tags. -/
theorem plCompress_eq {npix : Nat} {s : Shelf npix} {m : Mask}
    (h : m.Holds s) (hedits : 0 < m.llnupdates) (bp : Address) :
    ∃ lp, plCompress m bp = .ok ({ m with
        llbp := bp
        llbuf := s.compress.words
        llop := Shelf.liveSum s.blocks
        lllen := Shelf.liveSum s.blocks
        llfree := 0
        llnupdates := 0
        lp := lp }, decide (m.llfree ≠ s.freed)) ∧
      (m.TagsFit → lp =
        s.compress.own.map fun k => (s.compress.offset k : Int)) := by
  obtain ⟨e, he, -⟩ := s.first
  obtain ⟨bs, hbs⟩ : ∃ bs, s.blocks = e :: bs := by
    cases hblocks : s.blocks with
    | nil => simp [hblocks] at he
    | cons c bs =>
        rw [hblocks] at he
        exact ⟨bs, by rw [Option.some.inj he]⟩
  obtain ⟨t, ht⟩ := h.stores
  have hllop := h.llop
  have hllbp := h.llbp
  have hwords := liveWords_eq s.toShort_tail h.stores h.llop
  have hshort : ∀ b ∈ bs, toShort b.nref = b.nref := by
    have htail := s.toShort_tail
    rwa [hbs] at htail
  have hfuel : (e :: bs).length ≤ m.llop.toNat := by
    have hle := length_le_tiles s.blocks
    rw [hllop, Int.toNat_natCast, ← hbs]
    exact hle
  have hmove := moveLists_eq hshort t hfuel
  rw [← hbs, ← ht] at hmove
  have hmove' : moveLists m.llop (Shelf.liveSum s.blocks) m.llop.toNat 0
      ⟨m.llbuf, malloc (Shelf.liveSum s.blocks).toNat, 0⟩ =
      .ok ⟨e.tagWords 0 ++ (tagged e.len bs ++ t), s.compress.words,
        Shelf.liveSum s.blocks⟩ := by
    rw [hllop] at hmove ⊢
    exact hmove
  refine ⟨m.lp.map (fun o => tagOffset ((e.tagWords 0 ++
    (tagged e.len bs ++ t)).drop o.toNat)), ?_, fun hfit => ?_⟩
  · unfold plCompress
    rw [if_neg (by omega), if_neg (by omega), hwords]
    simp only [bind, Except.bind, pure, Except.pure]
    rw [hmove']
    have hwarn : Shelf.liveSum s.blocks ≠ m.llop - m.llfree ↔
        m.llfree ≠ s.freed := by
      refine not_congr ?_
      rw [Shelf.freed, ← hllop]
      omega
    simp only [hwarn, tagOffset]
  · change _ = (s.own.map (newIndex s.blocks)).map _
    rw [h.lp, List.map_map, List.map_map]
    refine List.map_congr_left fun k hk => ?_
    have hnew := h.newOffset (s.owned k hk)
    have hlt := hfit (s.offset k)
      (h.lp ▸ List.mem_map.mpr ⟨k, hk, rfl⟩)
    exact tagOffset_moved hbs t hk (by omega)

theorem Shelf.length_compress_words {npix : Nat} (s : Shelf npix) :
    (s.compress.words.length : Int) = Shelf.liveSum s.blocks :=
  Shelf.length_tiles_compactBlocks s.blocks

theorem plCompress_spec {npix : Nat} {s : Shelf npix} {m : Mask}
    (h : m.Holds s) (hfit : m.TagsFit) (hedits : 0 < m.llnupdates)
    (bp : Address) :
    ∃ m', plCompress m bp = .ok (m', decide (m.llfree ≠ s.freed)) ∧
      m'.Holds s.compress ∧ m'.llfree = 0 ∧ m'.llnupdates = 0 ∧
      m'.lllen = m'.llop ∧ m'.shape = m.shape := by
  obtain ⟨lp, hok, hlp⟩ := plCompress_eq h hedits bp
  have hsum := s.length_compress_words
  refine ⟨_, hok, ⟨⟨[], (List.append_nil _).symm⟩, hsum.symm, hsum.symm,
    hlp hfit, ?_, bp.2, h.llinc⟩, rfl, rfl, rfl, rfl⟩
  rw [h.nlp]
  exact (List.length_map _).symm

theorem plCompress_redundant {m : Mask} (h : m.llnupdates ≤ 0) (bp : Address) :
    plCompress m bp = .ok (m, false) := by
  rw [plCompress, if_pos h]

theorem Shelf.compress_empty {npix : Nat} (s : Shelf npix) :
    s.compress.listAt 0 = s.listAt 0 := by
  obtain ⟨e, he, -⟩ := s.first
  have hnew : s.compress.blocks[0]? = some e.trim :=
    getElem?_compactBlocks he (.inl rfl)
  rw [listAt_eq he, listAt_eq hnew]
  rfl

end Iraf.Plio
