import Iraf.Osb.MiiWords
import Iraf.Plio.Accounting
import Iraf.Plio.LineBuffer

/-!
# Saved masks

`pl_save` encodes a mask in a buffer in a machine independent format, and `pl_load` makes a
mask of the buffer, whatever mask the descriptor had before.  A buffer of shorts is the list
of its bytes, the high order byte of an integer first.
-/

namespace Iraf.Plio

open Iraf.ByteMemory Iraf.Osb Tiling

/-! ## The external format -/

def plMagicval : Int := 2014
def plexternLen : Nat := 20
def szMiiInt : Nat := 2
def szbShort : Nat := 2

inductive SaveErr where
  | pl (e : PlErr)
  /-- `SYS_PLBADSAVEF`. -/
  | plbadsavef
  deriving DecidableEq, Repr

/-- The header structure, for a compressed index of `szIndex` words and a buffer of `nBuflen`. -/
def plExtern (pl : Mask) (szIndex nBuflen : Int) : List Int :=
  [plMagicval, pl.naxes] ++ (List.range plMaxdim).map (fun i => pl.axlenAt (i + 1)) ++
    [pl.llop, pl.lllen, pl.nlp, szIndex, nBuflen, 0, pl.maxline, pl.maxval, 0, 0, 0]

/-- Store bytes from offset `o` of a buffer on. -/
def putBytes (buf : List Byte) (o : Nat) (bs : List Byte) : Except PlErr (List Byte) :=
  if o + bs.length ≤ buf.length then
    .ok (buf.take o ++ bs ++ buf.drop (o + bs.length))
  else .error .fault

/-- The buffer for `n` words: a new one, or the old one, resized if it is too small. -/
def saveBuffer (n : Nat) : Option (List Byte) → List Byte
  | none => List.replicate (szbShort * n) 0
  | some buf =>
      if buf.length < szbShort * n then
        buf ++ List.replicate (szbShort * n - buf.length) 0
      else buf

/-- What `pl_save` leaves: the mask, which it compresses, the buffer and the value of the
function. -/
structure Saved where
  pl : Mask
  buf : List Byte
  len : Int

/-- `pl_save`; the mask is compressed into the address `bp`. -/
def plSave (pl : Mask) (buf : Option (List Byte)) (bp : Address) : Except PlErr Saved := do
  let (pl, _) ← plCompress pl bp
  let (index, szIndex) ←
    (p2lStores (malloc (pl.nlp * 3 + llCurhdrlen)) (word pl.lp) 1 pl.nlp).mapError
      fun _ => .fault
  let nBuflen := plexternLen * szMiiInt + pl.lllen + szIndex
  let buf := saveBuffer nBuflen.toNat buf
  let op := plexternLen * szMiiInt
  let buf ← putBytes buf 0 (miiPack 4 (plExtern pl szIndex nBuflen))
  -- Append the compressed index and the line list buffer.
  let buf ← putBytes buf (szbShort * op) (miiPack 2 (index.take szIndex.toNat))
  let op := op + szIndex.toNat
  let buf ← putBytes buf (szbShort * op) (miiPack 2 (pl.llbuf.take pl.lllen.toNat))
  return ⟨pl, buf, op + pl.lllen⟩

/-- Read `k` integers of `n` bytes from offset `o` on. -/
def getInts (buf : List Byte) (o n k : Nat) : Except SaveErr (List Int) :=
  if o + n * k ≤ buf.length then .ok (miiUnpack n k (buf.drop o)) else .error (.pl .fault)

/-- `pl_load`; the line list buffer goes to `bp` if it is allocated or resized. -/
def plLoad (pl : Mask) (buf : List Byte) (bp : Address) : Except SaveErr Mask := do
  let ex ← getInts buf 0 4 plexternLen
  if ex.getD 0 0 ≠ plMagicval then .error .plbadsavef
  let naxes := (ex.getD 1 0).toNat
  let axlen := (ex.drop 2).take plMaxdim
  let lllen := ex.getD 10 0
  let szIndex := (ex.getD 12 0).toNat
  -- Get the line index.  The new mask may be a different size than the old one.
  let nlp := ((axlen.take naxes).drop 1).prod
  let lp := if nlp ≠ pl.nlp then realloc pl.lp nlp.toNat else pl.lp
  let ip := plexternLen * szMiiInt
  let index ← getInts buf (szbShort * ip) 2 szIndex
  let line := plL2p index 1 nlp
  let lp ← (amovs line lp 0).mapError .pl
  -- Allocate or resize the line list buffer.
  let moved : Bool := pl.llbp = 0 ∨ lllen ≠ pl.lllen
  let llbuf := if moved then realloc pl.llbuf lllen.toNat else pl.llbuf
  let ip := ip + szIndex
  let words ← getInts buf (szbShort * ip) 2 lllen.toNat
  let llbuf ← (amovs words llbuf 0).mapError .pl
  return {
    maxline := ex.getD 15 0
    maxval := ex.getD 16 0
    naxes
    axlen
    plane := List.replicate plMaxdim 1
    llbp := if moved then bp else pl.llbp
    llbuf
    llop := ex.getD 9 0
    lllen
    llfree := 0
    llnupdates := 0
    llinc := plStartinc
    nlp := line.length
    lp }

/-! ## What is encoded -/

/-- The compressed line index. -/
def Mask.index (pl : Mask) : List Int := plP2l (word pl.lp) 1 pl.nlp

def Mask.externals (pl : Mask) : List Int :=
  plExtern pl pl.index.length (plexternLen * szMiiInt + pl.lllen + pl.index.length)

/-- The encoded mask. -/
def Mask.encoded (pl : Mask) : List Byte :=
  miiPack 4 pl.externals ++ miiPack 2 pl.index ++ miiPack 2 pl.llbuf

/-- The numbers of a mask fit the external format: the offsets a line list, the length of
the index its header, and the header structure 32 bits. -/
def Mask.FitsExtern (pl : Mask) : Prop :=
  (∀ o ∈ pl.lp, o ≤ iPvmax) ∧ pl.index.length < 2 ^ 30 ∧
    ∀ v ∈ pl.externals, -2 ^ 31 ≤ v ∧ v < 2 ^ 31

instance : DecidablePred Mask.FitsExtern := fun pl => by
  unfold Mask.FitsExtern
  infer_instance

@[simp] theorem length_plExtern (pl : Mask) (szIndex nBuflen : Int) :
    (plExtern pl szIndex nBuflen).length = plexternLen := by
  simp [plExtern, plexternLen]

theorem putBytes_eq (before after : List Byte) {mid bs : List Byte}
    (h : mid.length = bs.length) :
    putBytes (before ++ (mid ++ after)) before.length bs = .ok (before ++ (bs ++ after)) := by
  have hle : before.length + bs.length ≤ (before ++ (mid ++ after)).length := by
    simp only [List.length_append]
    omega
  rw [putBytes, if_pos hle, List.take_left, ← h, ← List.append_assoc before mid,
    ← List.length_append, List.drop_left, List.append_assoc]

theorem exists_parts (buf : List Byte) (a b c : Nat) (h : a + b + c ≤ buf.length) :
    ∃ x y z w, buf = x ++ (y ++ (z ++ w)) ∧ x.length = a ∧ y.length = b ∧ z.length = c := by
  refine ⟨buf.take a, (buf.drop a).take b, ((buf.drop a).drop b).take c,
    ((buf.drop a).drop b).drop c, by simp, ?_, ?_, ?_⟩
  all_goals
    simp only [List.length_take, List.length_drop]
    omega

theorem length_saveBuffer (n : Nat) (buf : Option (List Byte)) :
    szbShort * n ≤ (saveBuffer n buf).length := by
  cases buf with
  | none => simp [saveBuffer]
  | some buf =>
      rw [saveBuffer]
      split
      · simp only [List.length_append, List.length_replicate]
        omega
      · omega

/-! ## Saving -/

theorem Mask.index_stores (pl : Mask) : ∃ index, p2lStores (malloc (pl.nlp * 3 + llCurhdrlen))
    (word pl.lp) 1 pl.nlp = .ok (index, pl.index.length) ∧
      index.take pl.index.length = pl.index := by
  obtain ⟨index, hrun, -, hprefix⟩ := p2lStores_fits (malloc (pl.nlp * 3 + llCurhdrlen))
    (word pl.lp) 1 pl.nlp (by simp only [malloc, List.length_replicate, llCurhdrlen]; omega)
  exact ⟨index, hrun, (List.prefix_iff_eq_take.mp hprefix).symm⟩

theorem plSave_eq {pl pl' : Mask} {w : Bool} {bp : Address}
    (hcompress : plCompress pl bp = .ok (pl', w)) (hlllen : pl'.lllen = pl'.llbuf.length)
    (buf : Option (List Byte)) :
    ∃ s, plSave pl buf bp = .ok s ∧ s.pl = pl' ∧ pl'.encoded <+: s.buf ∧
      szbShort * s.len = pl'.encoded.length := by
  obtain ⟨index, hindex, htake⟩ := pl'.index_stores
  have hsize : (plexternLen * szMiiInt + pl'.lllen + pl'.index.length).toNat =
      plexternLen * szMiiInt + pl'.llbuf.length + pl'.index.length := by
    rw [hlllen]
    simp only [plexternLen, szMiiInt]
    omega
  have hroom := length_saveBuffer
    (plexternLen * szMiiInt + pl'.llbuf.length + pl'.index.length) buf
  rw [← hsize] at hroom
  obtain ⟨x, y, z, rest, hparts, hx, hy, hz⟩ := exists_parts
    (saveBuffer (plexternLen * szMiiInt + pl'.lllen + pl'.index.length).toNat buf)
    (4 * plexternLen) (2 * pl'.index.length) (2 * pl'.llbuf.length) (by
      refine Nat.le_trans (Nat.le_of_eq ?_) hroom
      rw [hsize]
      simp only [plexternLen, szMiiInt, szbShort]
      omega)
  have hex : (miiPack 4 pl'.externals).length = 4 * plexternLen := by
    rw [length_miiPack, Mask.externals, length_plExtern]
  have hix : (miiPack 2 pl'.index).length = 2 * pl'.index.length := length_miiPack 2 _
  have hfirst := putBytes_eq [] (y ++ (z ++ rest)) (hx.trans hex.symm)
  have hsecond := putBytes_eq (miiPack 4 pl'.externals) (z ++ rest)
    (hy.trans hix.symm)
  have hthird := putBytes_eq (miiPack 4 pl'.externals ++ miiPack 2 pl'.index) rest
    (hz.trans (length_miiPack 2 pl'.llbuf).symm)
  have hop : szbShort * (plexternLen * szMiiInt) = (miiPack 4 pl'.externals).length := by
    rw [hex]
    rfl
  have hop' : szbShort * (plexternLen * szMiiInt + pl'.index.length) =
      (miiPack 4 pl'.externals ++ miiPack 2 pl'.index).length := by
    rw [List.length_append, Nat.mul_add, hop, hix]
    rfl
  refine ⟨⟨pl', miiPack 4 pl'.externals ++ miiPack 2 pl'.index ++ (miiPack 2 pl'.llbuf ++ rest),
    (plexternLen * szMiiInt + pl'.index.length : Nat) + pl'.lllen⟩, ?_, rfl, ?_, ?_⟩
  · have hall : pl'.llbuf.take pl'.lllen.toNat = pl'.llbuf := by
      rw [hlllen, Int.toNat_natCast, List.take_length]
    have hnat : ((pl'.index.length : Nat) : Int).toNat = pl'.index.length := Int.toNat_natCast _
    rw [List.nil_append, List.length_nil, List.nil_append] at hfirst
    rw [List.append_assoc] at hthird
    simp only [plSave, hcompress, hindex, bind, Except.bind, Except.mapError, hparts, hnat, htake,
      hall]
    rw [show plExtern pl' _ _ = pl'.externals from rfl, hfirst]
    simp only [hop, hsecond, hop']
    rw [hthird]
    rfl
  · rw [Mask.encoded, List.append_assoc, List.append_assoc]
    exact ⟨rest, by simp⟩
  · rw [Mask.encoded, List.length_append, List.length_append, hex, hix, length_miiPack, hlllen]
    simp only [plexternLen, szMiiInt, szbShort]
    push_cast
    omega

/-! ## Words that went through a short -/

theorem toShort_toShort (v : Int) : toShort (toShort v) = toShort v := Int.bmod_bmod

theorem map_toShort_header (nref len blen : Int) :
    (header nref len blen).map toShort = header nref len blen := by
  simp only [header, lengthWords, List.map_append, List.map_cons, List.map_nil, toShort_toShort]
  rfl

theorem map_toShort_packed {is : List Instr} (his : ∀ i ∈ is, i.Ok) :
    (packed is).map toShort = packed is := by
  conv_rhs => rw [← List.map_id (packed is)]
  refine List.map_congr_left fun w hw => ?_
  obtain ⟨hlo, hhi⟩ := packed_range his w hw
  exact toShort_of_mem (by omega) hhi

/-- The space after a list is the only part of a block that can change. -/
def Block.shorted (b : Block) : Block where
  nref := b.nref
  is := b.is
  pad := b.pad.map toShort
  ok := b.ok
  short := by
    rw [List.length_map]
    exact b.short

@[simp] theorem Block.blen_shorted (b : Block) : b.shorted.blen = b.blen := by
  simp [Block.blen, Block.len, Block.shorted]

theorem Block.words_shorted (b : Block) : b.shorted.words = b.words.map toShort := by
  rw [Block.words, blen_shorted, Block.words, List.map_append, List.map_append,
    map_toShort_header, map_toShort_packed b.ok]
  rfl

theorem tiles_shorted (bs : List Block) :
    tiles Block.words (bs.map Block.shorted) = (tiles Block.words bs).map toShort := by
  induction bs with
  | nil => rfl
  | cons b bs ih =>
      rw [List.map_cons, tiles_cons, ih, b.words_shorted, tiles_cons, List.map_append]

namespace Shelf

variable {npix : Nat}

def shorted (s : Shelf npix) : Shelf npix where
  blocks := s.blocks.map Block.shorted
  own := s.own
  first := by
    obtain ⟨e, he, hpad, hline⟩ := s.first
    exact ⟨e.shorted, by rw [List.getElem?_map, he]; rfl,
      (congrArg (List.map toShort) hpad).trans List.map_nil, hline⟩
  owned k hk := by
    rw [List.length_map]
    exact s.owned k hk
  counted k b hb hk := by
    rw [List.getElem?_map, Option.map_eq_some_iff] at hb
    obtain ⟨b, hb, rfl⟩ := hb
    exact s.counted k b hb hk

theorem words_shorted (s : Shelf npix) : s.shorted.words = s.words.map toShort :=
  tiles_shorted s.blocks

theorem offset_shorted (s : Shelf npix) (k : Nat) : s.shorted.offset k = s.offset k := by
  rw [Shelf.offset, Tiling.offset, shorted, ← List.map_take, tiles_shorted, List.length_map]
  rfl

theorem listAt_shorted (s : Shelf npix) (k : Nat) : s.shorted.listAt k = s.listAt k := by
  rw [Shelf.listAt, shorted, List.getElem?_map]
  cases h : s.blocks[k]? <;> simp [Shelf.listAt, h, Block.shorted]

theorem rows_shorted (s : Shelf npix) : s.shorted.rows = s.rows := by
  simp only [Shelf.rows, listAt_shorted]
  rfl

theorem freed_shorted (s : Shelf npix) : s.shorted.freed = s.freed := by
  have hlive : liveSum (s.blocks.map Block.shorted) = liveSum s.blocks := by
    cases s.blocks with
    | nil => rfl
    | cons e bs =>
        simp only [List.map_cons, liveSum, List.map_map]
        rfl
  rw [Shelf.freed, words_shorted, List.length_map, Shelf.freed, ← hlive]
  rfl

end Shelf

/-! ## Loading -/

/-- A descriptor whose counters are the sizes of its arrays. -/
structure Mask.Sized (m : Mask) : Prop where
  llbp : 0 ≤ m.llbp
  lllen : m.lllen = m.llbuf.length
  nlp : m.nlp = m.lp.length

theorem Mask.Holds.sized {npix : Nat} {s : Shelf npix} {m : Mask} (h : m.Holds s) : m.Sized where
  llbp := h.llbp.le
  lllen := h.lllen
  nlp := by rw [h.nlp, h.lp, List.length_map]

theorem Mask.map_toShort_index (m : Mask) (hfits : m.FitsExtern) (hnlp : 0 < m.nlp)
    (hlen : m.lp.length = m.nlp) : m.index.map toShort = m.index ∧ plL2p m.index 1 m.nlp =
      m.lp.map (max 0) := by
  have hpx : ∀ i : Int, 1 ≤ i → i ≤ 1 + (m.nlp : Int) - 1 → word m.lp i ≤ iPvmax := by
    intro i hlo hhi
    have hlt : (i - 1).toNat < m.lp.length := by omega
    rw [word, List.getD_eq_getElem _ _ hlt]
    exact hfits.1 _ (List.getElem_mem hlt)
  constructor
  · obtain ⟨is, hll, ⟨-, -, -, -, hok, -⟩, -⟩ :=
      plP2l_packs (word m.lp) 1 (show (0 : Int) < m.nlp by omega) hpx hfits.2.1
    rw [Mask.index, hll, List.map_append, map_toShort_header, map_toShort_packed hok]
  · have hread := (plP2l_round_trip (word m.lp) 1 (show (1 : Int) ≤ m.nlp by omega) hpx
      hfits.2.1).1
    rw [Mask.index, hread, Int.toNat_natCast]
    refine List.ext_getElem (by simp [hlen]) fun i hi hi' => ?_
    have hlt : i < m.lp.length := by simpa using hi'
    have hindex : ((1 : Int) + (i : Nat) - 1).toNat = i := by omega
    simp only [pixels, List.getElem_map, List.getElem_range, word, hindex]
    rw [List.getD_eq_getElem _ _ hlt]

theorem getInts_append {n : Nat} (hn : 0 < n) (buf before rest : List Byte)
    (vs : List Int) (o : Nat) (hbuf : buf = before ++ (miiPack n vs ++ rest)) (ho : o = before.length) :
    getInts buf o n vs.length = .ok (vs.map fun v => Int.bmod v (256 ^ n : Nat)) := by
  subst hbuf ho
  have hle : before.length + n * vs.length ≤ (before ++ (miiPack n vs ++ rest)).length := by
    simp only [List.length_append, length_miiPack]
    omega
  rw [getInts, if_pos hle, List.drop_left, miiUnpack_append hn]

theorem Mask.map_axlenAt {m : Mask} (h : m.axlen.length = plMaxdim) :
    (List.range plMaxdim).map (fun i => m.axlenAt (i + 1)) = m.axlen := by
  refine List.ext_getElem (by simp [h]) fun i hi hi' => ?_
  have hindex : (((i + 1 : Nat) : Int) - 1).toNat = i := by omega
  simp only [List.getElem_map, List.getElem_range, axlenAt, word, hindex]
  rw [List.getD_eq_getElem _ _ hi']

theorem lineCount_pos {axlen : List Int} (hax : Axes axlen) :
    0 < lineCount axlen ∧ ((axlen.drop 1).prod : Int) = lineCount axlen := by
  have hpos : 0 < (axlen.drop 1).prod :=
    List.prod_pos fun a ha => hax.2.2 a (List.mem_of_mem_drop ha)
  rw [lineCount]
  omega

theorem amovs_whole {ws buf : List Int} (h : buf.length = ws.length) :
    amovs ws buf 0 = .ok ws := by
  rw [amovs, if_pos (by omega), List.take_zero, Nat.zero_add, ← h, List.drop_length,
    List.nil_append, List.append_nil]

theorem length_realloc (buf : List Int) (n : Nat) : (realloc buf n).length = n := by
  simp only [realloc, List.length_append, List.length_take, List.length_replicate]
  omega

/-- A mask that was encoded in the buffer is loaded, with its lines, its size and its depth. -/
theorem plLoad_spec {axlen : List Int} {acc : Prop} {rows : List (List Int)} {m pl : Mask}
    {s : Shelf (word axlen 1).toNat} (h : MaskInv axlen acc rows m s) (hax : Axes axlen)
    (hfits : m.FitsExtern) (hsettled : m.llnupdates ≤ 0) (hpl : pl.Sized) {buf : List Byte}
    (hbuf : m.encoded <+: buf) (bp : Address) :
    ∃ m' s', plLoad pl buf bp = .ok m' ∧ MaskInv axlen True rows m' s' ∧
      m'.maxval = m.maxval := by
  obtain ⟨rest, rfl⟩ := hbuf
  have hsized := h.holds.sized
  obtain ⟨hnaxes, haxlen⟩ := h.axes
  have hdim : m.axlen.length = plMaxdim := by
    have := hax.2.1
    rw [haxlen]
    simp only [List.length_append, List.length_replicate, plMaxdim] at this ⊢
    omega
  obtain ⟨hcount, hprod⟩ := lineCount_pos hax
  have hnlp : m.nlp = lineCount axlen := h.holds.nlp.trans h.lines
  have hlp : m.lp.map (max 0) = m.lp := by
    rw [h.holds.lp, List.map_map]
    exact List.map_congr_left fun k _ => max_eq_right (Int.natCast_nonneg _)
  obtain ⟨hindex, hread⟩ := m.map_toShort_index hfits (by omega) hsized.nlp.symm
  rw [hnlp, hlp] at hread
  -- The header structure.
  have hstored : m.externals.map (fun v => Int.bmod v (256 ^ 4 : Nat)) = m.externals := by
    conv_rhs => rw [← List.map_id m.externals]
    refine List.map_congr_left fun v hv => ?_
    obtain ⟨hlo, hhi⟩ := hfits.2.2 v hv
    exact Int.bmod_eq_of_le (by norm_num; omega) (by norm_num; omega)
  have hex : getInts (m.encoded ++ rest) 0 4 plexternLen = .ok m.externals := by
    have hget := getInts_append (show 0 < 4 by decide) (m.encoded ++ rest) []
      (miiPack 2 m.index ++ miiPack 2 m.llbuf ++ rest) m.externals 0 (by simp [Mask.encoded]) rfl
    rwa [hstored, Mask.externals, length_plExtern] at hget
  have hix : getInts (m.encoded ++ rest) (szbShort * (plexternLen * szMiiInt)) 2
      m.index.length = .ok m.index := by
    have hget := getInts_append (show 0 < 2 by decide) (m.encoded ++ rest)
      (miiPack 4 m.externals) (miiPack 2 m.llbuf ++ rest) m.index (szbShort * (plexternLen * szMiiInt))
      (by simp [Mask.encoded]) (by rw [length_miiPack, Mask.externals, length_plExtern]; rfl)
    rw [hget]
    exact congrArg Except.ok hindex
  have hll : getInts (m.encoded ++ rest) (szbShort * (plexternLen * szMiiInt + m.index.length)) 2
      m.llbuf.length = .ok (m.llbuf.map toShort) := by
    exact getInts_append (show 0 < 2 by decide) (m.encoded ++ rest)
      (miiPack 4 m.externals ++ miiPack 2 m.index) rest m.llbuf _ (by simp [Mask.encoded])
      (by
        rw [List.length_append, length_miiPack, length_miiPack, Mask.externals, length_plExtern,
          Nat.mul_add]
        rfl)
  -- The sizes of the arrays.
  have htake : (m.axlen.take axlen.length).drop 1 = axlen.drop 1 := by
    rw [haxlen, List.take_left]
  have hlplen : (if (lineCount axlen : Int) ≠ pl.nlp then
      realloc pl.lp (lineCount axlen) else pl.lp).length = m.lp.length := by
    split
    next => rw [length_realloc, ← hsized.nlp, hnlp]
    next heq =>
      have := hpl.nlp
      have := hsized.nlp
      omega
  have hlllen : ∀ moved : Bool, (moved = false → m.lllen = pl.lllen) →
      (if moved = true then realloc pl.llbuf m.llbuf.length else pl.llbuf).length =
        (m.llbuf.map toShort).length := by
    intro moved hmoved
    have := hpl.lllen
    have := hsized.lllen
    cases moved with
    | false =>
        have := hmoved rfl
        simp only [Bool.false_eq_true, if_false, List.length_map]
        omega
    | true => rw [if_pos rfl, length_realloc, List.length_map]
  let moved : Bool := pl.llbp = 0 ∨ m.lllen ≠ pl.lllen
  have hmoved : moved = false → m.lllen = pl.lllen := by
    intro hfalse
    by_contra hne
    simp [moved, hne] at hfalse
  refine ⟨{
    maxline := m.maxline
    maxval := m.maxval
    naxes := m.naxes
    axlen := m.axlen
    plane := List.replicate plMaxdim 1
    llbp := if moved then bp else pl.llbp
    llbuf := m.llbuf.map toShort
    llop := m.llop
    lllen := m.lllen
    llfree := 0
    llnupdates := 0
    llinc := plStartinc
    nlp := m.lp.length
    lp := m.lp }, s.shorted, ?_, ?_, rfl⟩
  · have hfields : m.externals.getD 0 0 = plMagicval ∧ (m.externals.getD 1 0).toNat = m.naxes ∧
        (m.externals.drop 2).take plMaxdim = m.axlen ∧ m.externals.getD 9 0 = m.llop ∧
        m.externals.getD 10 0 = m.lllen ∧ (m.externals.getD 12 0).toNat = m.index.length ∧
        m.externals.getD 15 0 = m.maxline ∧ m.externals.getD 16 0 = m.maxval :=
      ⟨rfl, rfl, Eq.trans rfl (m.map_axlenAt hdim), rfl, rfl, rfl, rfl, rfl⟩
    obtain ⟨hmagic, hnax, haxl, hop, hlen, hsz, hline, hval⟩ := hfields
    have hlenbuf : m.lllen.toNat = m.llbuf.length := by
      rw [hsized.lllen, Int.toNat_natCast]
    unfold plLoad
    simp only [hex, bind, Except.bind, hmagic, hnax, haxl, hop, hlen, hsz, hline, hval, ne_eq,
      not_true_eq_false, if_false, hix, hnaxes, htake, hprod, hread, Int.toNat_natCast,
      hlenbuf, hll]
    have hlpw := amovs_whole hlplen
    have hllw := amovs_whole (hlllen moved hmoved)
    simp only [ne_eq] at hlpw
    simp only [hlpw, Except.mapError]
    rw [show (decide (pl.llbp = 0 ∨ ¬ m.lllen = pl.lllen)) = moved from rfl, hllw]
    rfl
  · have hstores : ∃ t, m.llbuf.map toShort = tiles Block.words s.shorted.blocks ++ t := by
      obtain ⟨t, ht⟩ := h.holds.stores
      exact ⟨t.map toShort, by rw [ht, List.map_append, ← tiles_shorted]; rfl⟩
    refine ⟨⟨hstores, ?_, ?_, ?_, ?_, ?_, (show (0 : Int) < 512 by decide)⟩, by rw [s.rows_shorted, h.rows], ⟨hnaxes, haxlen⟩,
      h.lines, by rw [s.listAt_shorted]; exact h.roomy, le_refl _, fun _ => ?_, fun _ => ?_⟩
    · rw [s.words_shorted, List.length_map]
      exact h.holds.llop
    · rw [List.length_map]
      exact hsized.lllen
    · simp only [s.offset_shorted]
      exact h.holds.lp
    · rw [h.holds.lp, List.length_map]
      rfl
    · dsimp only
      split
      next => exact bp.2
      next hkeep =>
        have := hpl.llbp
        simp only [moved, decide_eq_true_eq, not_or] at hkeep
        omega
    · rw [s.freed_shorted, h.settled hsettled]
    · rw [s.freed_shorted, h.settled hsettled]

/-! ## Histories of a descriptor and its saved masks -/

/-- A descriptor and the buffers that masks were saved in. -/
structure Checkpoints where
  pl : Mask
  saved : List (List Byte)

/-- `size`, `draw` and `clear` change the mask of the descriptor; `save` encodes it in a new
buffer or in one that is there, `load` decodes a buffer, and `reopen` closes the descriptor and
opens another. -/
inductive SaveOp where
  | reopen
  | size (axlen : List Int) (depth : Int) (bp : Address)
  | edit (op : MaskOp)
  | save (slot : Option Nat) (bp : Address)
  | load (slot : Nat) (bp : Address)

/-- What a mask is for: its size, its depth and its lines. -/
structure Sheet where
  axlen : List Int
  maxval : Int
  rows : List (List Int)

/-- The sheet of the descriptor, if it is active, and the sheets that were saved. -/
structure Sheets where
  sheet : Option Sheet
  saved : List Sheet

/-- Put a value in a slot, or after the slots. -/
def putSlot {α : Type} (xs : List α) (x : α) : Option Nat → List α
  | none => xs ++ [x]
  | some k => xs.set k x

namespace SaveOp

def run (c : Checkpoints) : SaveOp → Except SaveErr Checkpoints
  | reopen => .ok { c with pl := plOpen }
  | size axlen depth bp => do
      let pl ← (plSsize c.pl axlen depth bp).mapError .pl
      return { c with pl }
  | edit op => do
      let pl ← (op.run c.pl).mapError .pl
      return { c with pl }
  | save slot bp => do
      let s ← (plSave c.pl (slot.bind (c.saved[·]?)) bp).mapError .pl
      return ⟨s.pl, putSlot c.saved s.buf slot⟩
  | load slot bp => do
      let pl ← plLoad c.pl (c.saved.getD slot []) bp
      return { c with pl }

/-- What an operation does to the sheets. -/
def draw (d : Sheets) : SaveOp → Sheets
  | reopen => { d with sheet := none }
  | size axlen depth _ => { d with
      sheet := some ⟨axlen, if depth > 0 then mv depth else mv plMaxdepth, picture axlen []⟩ }
  | edit op => { d with
      sheet := d.sheet.map fun s => { s with rows := op.draw s.axlen s.rows } }
  | save slot _ => { d with saved := (d.sheet.map (putSlot d.saved · slot)).getD d.saved }
  | load slot _ => { d with sheet := d.saved[slot]? }

/-- The calls that may be made: only an active mask is edited or saved, and only a buffer in
which a mask was saved is loaded or saved in. -/
def Legal (d : Sheets) : SaveOp → Prop
  | reopen => True
  | size axlen _ _ => Axes axlen
  | edit op => ∃ s ∈ d.sheet, op.Legal s.axlen
  | save slot _ => d.sheet.isSome ∧ ∀ k ∈ slot, k < d.saved.length
  | load slot _ => slot < d.saved.length

/-- The masks that are stored fit their formats. -/
def Fits (m : Mask) : SaveOp → Prop
  | size axlen _ _ => EmptyLineFits (word axlen 1)
  | edit op => op.Fits m
  | save _ bp => (0 < m.llnupdates → m.TagsFit) ∧
      ∀ r ∈ (plCompress m bp).toOption, r.1.FitsExtern
  | _ => True

end SaveOp

/-- A line of pixels for every line of the mask. -/
def Sheet.Filled (d : Sheet) : Prop :=
  d.rows.length = lineCount d.axlen ∧ ∀ line ∈ d.rows, line.length = (word d.axlen 1).toNat

/-- The mask of a sheet. -/
structure Mask.IsSheet (m : Mask) (d : Sheet) : Prop where
  axes : Axes d.axlen
  filled : d.Filled
  maxval : m.maxval = d.maxval
  inv : ∃ acc s, MaskInv d.axlen acc d.rows m s

/-- The descriptor has the sheet, and the buffers the saved sheets. -/
structure Checkpoints.Shows (c : Checkpoints) (d : Sheets) : Prop where
  active : ∀ sheet ∈ d.sheet, c.pl.IsSheet sheet
  inactive : d.sheet = none → c.pl = plOpen
  saved : List.Forall₂ (fun buf sheet => ∃ m : Mask, m.IsSheet sheet ∧ m.FitsExtern ∧
    m.llnupdates ≤ 0 ∧ m.encoded <+: buf) c.saved d.saved

theorem MaskOp.maxval_run {axlen : List Int} {acc : Prop} {rows : List (List Int)} {m m' : Mask}
    {s : Shelf (word axlen 1).toNat} (h : MaskInv axlen acc rows m s) (hax : Axes axlen)
    {op : MaskOp} (hop : op.Legal axlen) (hfit : op.Fits m) (hrun : op.run m = .ok m') :
    m'.maxval = m.maxval := by
  have hof : ∀ {m' : Mask}, m'.shape = m.shape → m'.maxval = m.maxval := fun hshape => by
    simp only [Mask.shape, Prod.mk.injEq] at hshape
    exact hshape.2.1
  cases op with
  | update v px xs bp =>
      rw [MaskOp.Fits, h.axes.axlenAt_one hax] at hfit
      obtain ⟨is, -, hpacks, -⟩ := plP2l_packs px xs (word_one_pos hax) hop.2 hfit
      have hlt := hop.1.lineNumber_lt
      rw [← h.lines] at hlt
      obtain ⟨m₁, s', hm₁, hup, -⟩ :=
        plUpdate_spec h.holds (lineIndex_eq h.axes hax hop.1) hlt hpacks bp
      rw [MaskOp.run, h.axes.axlenAt_one hax, hm₁] at hrun
      exact Except.ok.inj hrun ▸ hof hup.shape
  | compress bp =>
      by_cases hedits : 0 < m.llnupdates
      · obtain ⟨m₁, hm₁, -, -, -, -, hshape⟩ :=
          plCompress_spec h.holds (hfit hedits) hedits bp
        rw [MaskOp.run, hm₁] at hrun
        exact Except.ok.inj hrun ▸ hof hshape
      · rw [MaskOp.run, plCompress_redundant (by omega)] at hrun
        exact Except.ok.inj hrun ▸ rfl
  | clear bp =>
      obtain ⟨m₁, s', hm₁, -, -, -, -, -, -, -, hshape⟩ := plClear_spec h.holds h.roomy bp
      rw [MaskOp.run, hm₁] at hrun
      exact Except.ok.inj hrun ▸ hof hshape

theorem Checkpoints.Shows.sized {c : Checkpoints} {d : Sheets} (h : c.Shows d) :
    c.pl.Counts ∧ c.pl.Sized := by
  cases hd : d.sheet with
  | none =>
      rw [h.inactive hd]
      exact ⟨⟨by decide, by decide⟩, ⟨by decide, by decide, by decide⟩⟩
  | some sheet =>
      obtain ⟨acc, s, hinv⟩ := (h.active sheet hd).inv
      exact ⟨⟨hinv.holds.llinc, hinv.edits⟩, hinv.holds.sized⟩

theorem forall₂_putSlot {α β : Type} {R : α → β → Prop} {xs : List α} {ys : List β}
    (h : List.Forall₂ R xs ys) {x : α} {y : β} (hxy : R x y) :
    ∀ slot, List.Forall₂ R (putSlot xs x slot) (putSlot ys y slot)
  | none => List.rel_append h (.cons hxy .nil)
  | some k => by
      simp only [putSlot]
      induction h generalizing k with
      | nil => exact .nil
      | cons hab hrest ih =>
          cases k with
          | zero => exact .cons hxy hrest
          | succ k => exact .cons hab (ih k)

theorem plCompress_settled {axlen : List Int} {acc : Prop} {rows : List (List Int)} {m : Mask}
    {s : Shelf (word axlen 1).toNat} (h : MaskInv axlen acc rows m s)
    (hfit : 0 < m.llnupdates → m.TagsFit) (bp : Address) :
    ∃ m' w s', plCompress m bp = .ok (m', w) ∧ MaskInv axlen acc rows m' s' ∧
      m'.llnupdates ≤ 0 ∧ m'.maxval = m.maxval := by
  obtain ⟨m', s', w, hm', hinv⟩ := h.compress hfit bp
  refine ⟨m', w, s', hm', hinv, ?_⟩
  by_cases hedits : 0 < m.llnupdates
  · obtain ⟨m₁, hm₁, -, -, hzero, -, hshape⟩ := plCompress_spec h.holds (hfit hedits) hedits bp
    obtain ⟨rfl, -⟩ := Prod.mk.inj (Except.ok.inj (hm'.symm.trans hm₁))
    simp only [Mask.shape, Prod.mk.injEq] at hshape
    exact ⟨hzero.le, hshape.2.1⟩
  · rw [plCompress_redundant (by omega)] at hm'
    obtain ⟨rfl, -⟩ := Prod.mk.inj (Except.ok.inj hm')
    exact ⟨by omega, rfl⟩

theorem Checkpoints.Shows.load {c : Checkpoints} {d : Sheets} (h : c.Shows d) {k : Nat}
    {sheet : Sheet} (hk : d.saved[k]? = some sheet) {pl : Mask} (hpl : pl.Sized) (bp : Address) :
    ∃ m, plLoad pl (c.saved.getD k []) bp = .ok m ∧ m.IsSheet sheet ∧ m.Accounted := by
  obtain ⟨hlen, hget⟩ := List.forall₂_iff_get.mp h.saved
  obtain ⟨hslot', rfl⟩ := List.getElem?_eq_some_iff.mp hk
  have hslot : k < c.saved.length := by rwa [hlen]
  obtain ⟨m, hsheet, hstored, hsettled, hbuf⟩ := hget k hslot hslot'
  obtain ⟨acc, s, hinv⟩ := hsheet.inv
  obtain ⟨m', s', hload, hinv', hmax⟩ :=
    plLoad_spec hinv hsheet.axes hstored hsettled hpl hbuf bp
  refine ⟨m', ?_, ⟨hsheet.axes, hsheet.filled, hmax.trans hsheet.maxval, _, s', hinv'⟩,
    hinv'.holds.accounted (hinv'.balanced trivial)⟩
  rw [List.getD_eq_getElem _ _ hslot]
  exact hload

theorem SaveOp.step {c : Checkpoints} {d : Sheets} (h : c.Shows d) {op : SaveOp}
    (hop : op.Legal d) (hfit : op.Fits c.pl) :
    ∃ c', op.run c = .ok c' ∧ c'.Shows (op.draw d) := by
  obtain ⟨hcounts, hsized⟩ := h.sized
  cases op with
  | reopen => exact ⟨_, rfl, nofun, fun _ => rfl, h.saved⟩
  | size axlen depth bp =>
      obtain ⟨m, s, hm, hinv⟩ := plSsize_inv hcounts hop hfit depth bp
      obtain ⟨m₁, s₁, hm₁, -, -, -, -, -, -, -, -, hmax⟩ :=
        plSsize_spec hop hfit hcounts.1 depth bp
      obtain rfl := Except.ok.inj (hm.symm.trans hm₁)
      refine ⟨{ c with pl := m }, by rw [run, hm]; rfl, ?_, nofun, h.saved⟩
      intro sheet hsheet
      obtain rfl := Option.some.inj hsheet
      exact ⟨hop, length_picture axlen [], hmax, _, s, hinv⟩
  | edit op =>
      obtain ⟨sheet, hsheet, hlegal⟩ := hop
      have hactive := h.active sheet hsheet
      obtain ⟨acc, s, hinv⟩ := hactive.inv
      obtain ⟨m, s', hm, hinv'⟩ := hinv.step hactive.axes hlegal hfit
      have hmax := op.maxval_run hinv hactive.axes hlegal hfit hm
      refine ⟨{ c with pl := m }, by rw [run, hm]; rfl, ?_, ?_, h.saved⟩
      · intro sheet' hsheet'
        rw [draw, Option.mem_def.mp hsheet, Option.map_some, Option.mem_some_iff] at hsheet'
        subst hsheet'
        exact ⟨hactive.axes, length_draw hactive.filled op, hmax.trans hactive.maxval, acc, s',
          hinv'⟩
      · intro hnone
        rw [draw, Option.mem_def.mp hsheet] at hnone
        cases hnone
  | save slot bp =>
      obtain ⟨hsome, hslot⟩ := hop
      obtain ⟨sheet, hsheet⟩ := Option.isSome_iff_exists.mp hsome
      have hactive := h.active sheet hsheet
      obtain ⟨acc, s, hinv⟩ := hactive.inv
      obtain ⟨m, w, s', hm, hinv', hsettled, hmax⟩ := plCompress_settled hinv hfit.1 bp
      have hstored : m.FitsExtern := hfit.2 _ (by rw [hm]; rfl)
      obtain ⟨r, hsave, rfl, hbuf, -⟩ := plSave_eq hm hinv'.holds.lllen
        (slot.bind (c.saved[·]?))
      have hnew : r.pl.IsSheet sheet :=
        ⟨hactive.axes, hactive.filled, hmax.trans hactive.maxval, acc, s', hinv'⟩
      refine ⟨⟨r.pl, putSlot c.saved r.buf slot⟩, by rw [run, hsave]; rfl, ?_, ?_, ?_⟩
      · intro sheet' hsheet'
        obtain rfl := Option.some.inj (hsheet.symm.trans hsheet')
        exact hnew
      · exact fun hnone => by
          rw [draw, hsheet] at hnone
          cases hnone
      · rw [draw, hsheet]
        exact forall₂_putSlot h.saved ⟨_, hnew, hstored, hsettled, hbuf⟩ slot
  | load slot bp =>
      have hslot := List.getElem?_eq_getElem hop
      obtain ⟨m, hload, hsheet, -⟩ := h.load hslot hsized bp
      refine ⟨{ c with pl := m }, by rw [run, hload]; rfl, ?_, ?_, h.saved⟩
      · intro sheet' hsheet'
        rw [draw, hslot] at hsheet'
        obtain rfl := Option.some.inj hsheet'
        exact hsheet
      · intro hnone
        rw [draw, hslot] at hnone
        cases hnone

/-! ## Whole histories -/

def runSaves : Checkpoints → List SaveOp → Except SaveErr Checkpoints
  | c, [] => .ok c
  | c, op :: ops => do
      let c ← op.run c
      runSaves c ops

/-- Every call of a history may be made where it is. -/
def LegalRun : Sheets → List SaveOp → Prop
  | _, [] => True
  | d, op :: ops => op.Legal d ∧ LegalRun (op.draw d) ops

/-- Every call of a history fits the mask it meets. -/
def FitsRun : Checkpoints → List SaveOp → Prop
  | _, [] => True
  | c, op :: ops => op.Fits c.pl ∧
      match op.run c with
      | .ok c' => FitsRun c' ops
      | .error _ => True

instance (m : Mask) : DecidablePred (SaveOp.Fits m) := fun op => by
  cases op <;> unfold SaveOp.Fits <;> infer_instance

instance decidableFitsRun : (c : Checkpoints) → (ops : List SaveOp) → Decidable (FitsRun c ops)
  | _, [] => .isTrue trivial
  | c, op :: ops =>
      match h : op.run c with
      | .ok c' =>
          have := decidableFitsRun c' ops
          decidable_of_iff (op.Fits c.pl ∧ FitsRun c' ops) (by rw [FitsRun, h])
      | .error e => decidable_of_iff (op.Fits c.pl) (by simp [FitsRun, h])

theorem Checkpoints.Shows.run {c : Checkpoints} {d : Sheets} (h : c.Shows d) {ops : List SaveOp}
    (hlegal : LegalRun d ops) (hfits : FitsRun c ops) :
    ∃ c', runSaves c ops = .ok c' ∧ c'.Shows (ops.foldl SaveOp.draw d) := by
  induction ops generalizing c d with
  | nil => exact ⟨c, rfl, h⟩
  | cons op ops ih =>
      obtain ⟨c₁, hc₁, hshows⟩ := SaveOp.step h hlegal.1 hfits.1
      have hrest := hfits.2
      rw [hc₁] at hrest
      obtain ⟨c', hc', hshows'⟩ := ih hshows hlegal.2 hrest
      exact ⟨c', bind_eq_ok.mpr ⟨c₁, hc₁, hc'⟩, hshows'⟩

/-- A mask of two lines is saved, cleared, saved, brought back, edited and saved again in place of
the cleared one, and loaded in a new descriptor. -/
def rollback : List SaveOp :=
  [.size [3, 2] 1 ⟨1, Int.one_pos⟩,
    .edit (.update [1, 1] (fun i => i - 1) 1 ⟨1, Int.one_pos⟩),
    .save none ⟨1, Int.one_pos⟩,
    .edit (.clear ⟨1, Int.one_pos⟩),
    .save none ⟨1, Int.one_pos⟩,
    .load 0 ⟨1, Int.one_pos⟩,
    .edit (.update [1, 2] (fun i => i - 1) 1 ⟨1, Int.one_pos⟩),
    .save (some 1) ⟨1, Int.one_pos⟩,
    .reopen,
    .load 1 ⟨1, Int.one_pos⟩]

end Iraf.Plio
