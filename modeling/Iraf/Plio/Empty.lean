import Iraf.Plio.Codec
import Iraf.Plio.Compress
import Iraf.Plio.LineIndex

/-!
# Empty masks

The shelf of a mask whose lines are all empty, as `pl_ssize` and `pl_clear`
leave it, and the lists that `pl_p2l` writes as lists to be stored.  The empty
line takes a word for each piece of zeros, and the buffer of a new mask has
room for only so many of them.
-/

namespace Iraf.Plio

open RunLength Tiling

/-! ## Lists written by `pl_p2l` -/

/-- The list is the one `pl_p2l` writes for its line. -/
def Canonical (is : List Instr) : Prop :=
  packed is = (encodeScan (iDatamax - 1) (lineRuns (expand 1 is))).ll

theorem Canonical.eq {is js : List Instr} (his : Canonical is)
    (hjs : Canonical js) (hok : ∀ i ∈ is, i.Ok) (hok' : ∀ j ∈ js, j.Ok)
    (h : expand 1 is = expand 1 js) : is = js := by
  refine packed_injective hok hok' ?_
  rw [his, hjs, h]

theorem plP2l_packs (px : Int → Int) (xs : Int) {npix : Int} (hnpix : 0 < npix)
    (hpx : ∀ i, xs ≤ i → i ≤ xs + npix - 1 → px i ≤ iPvmax)
    (hlen : (plP2l px xs npix).length < 2 ^ 30) :
    ∃ is, plP2l px xs npix =
        header 0 (llCurhdrlen + (packed is).length) 0 ++ packed is ∧
      Packs (plP2l px xs npix) is ∧
      expand 1 is = pixels px xs npix.toNat ∧ Canonical is := by
  have hline : ∀ v ∈ pixels px xs npix.toNat, Pixel v :=
    pixels_pixel fun i h1 h2 => hpx i h1 (by omega)
  have heq : plP2l px xs npix =
      packLine (4094 : Nat) (pixels px xs npix.toNat) := plP2l_eq px xs hnpix
  obtain ⟨is, hll, -, hok, hexpand⟩ :=
    encodeScan_spells (show 0 < 4094 by decide) (by decide) hline
  rw [encodedLine_of_lt (by decide) (by decide)] at hexpand
  have hwords : plP2l px xs npix =
      header 0 (llCurhdrlen + (packed is).length) 0 ++ packed is := by
    rw [heq, packLine, hll]
  have hshort : llCurhdrlen + (packed is).length < 2 ^ 30 := by
    rw [hwords, List.length_append, length_header] at hlen
    exact hlen
  refine ⟨is, hwords, ⟨0, 0, [], ?_, hok, hshort⟩, hexpand, ?_⟩
  · rw [hwords, List.append_nil]
  · rw [Canonical, hexpand, ← hll]
    rfl

/-! ## The empty line -/

/-- The list of the empty line fits the buffer of a new mask. -/
def EmptyLineFits (npix : Int) : Prop :=
  npix ≤ (plLlbuflen - llCurhdrlen) * (iDatamax - 1)

instance : DecidablePred EmptyLineFits := fun n => by
  unfold EmptyLineFits
  infer_instance

theorem length_plP2l_zero {npix : Int} (hnpix : 0 < npix) :
    (plP2l (fun _ => 0) 1 npix).length =
      llCurhdrlen + ((npix.toNat - 1) / 4094 + 1) := by
  have heq : plP2l (fun _ => 0) 1 npix =
      packLine (4094 : Nat) (pixels (fun _ => 0) 1 npix.toNat) :=
    plP2l_eq _ _ hnpix
  rw [heq, pixels_zero, length_packLine_zeros (by decide),
    length_pieces _ (by omega)]

theorem emptyLineFits_iff {npix : Int} (hnpix : 0 < npix) :
    EmptyLineFits npix ↔
      (plP2l (fun _ => 0) 1 npix).length ≤ plLlbuflen := by
  rw [length_plP2l_zero hnpix]
  simp only [EmptyLineFits, plLlbuflen, llCurhdrlen, iDatamax]
  omega

/-- The shelf of a mask without any line but the empty one. -/
def Shelf.blank {npix : Nat} (e : Block) (hpad : e.pad = [])
    (hline : e.line = List.replicate npix 0) (n : Nat) : Shelf npix where
  blocks := [e]
  own := List.replicate n 0
  first := ⟨e, rfl, hpad, hline⟩
  owned := by
    intro k hk
    rw [List.eq_of_mem_replicate hk]
    exact Nat.one_pos
  counted := by
    intro k b hb hk
    have hlt := (List.getElem?_eq_some_iff.mp hb).1
    rw [List.length_singleton] at hlt
    omega

section Blank

variable {npix n : Nat} {e : Block} (hpad : e.pad = [])
  (hline : e.line = List.replicate npix 0)

theorem Shelf.blank_rows :
    (Shelf.blank e hpad hline n).rows =
      List.replicate n (List.replicate npix 0) := by
  change (List.replicate n 0).map _ = _
  rw [List.map_replicate]
  congr 1

theorem Shelf.blank_words : (Shelf.blank e hpad hline n).words = e.words :=
  List.append_nil _

theorem Shelf.blank_freed : (Shelf.blank e hpad hline n).freed = 0 := by
  have hwords := Shelf.blank_words hpad hline (n := n)
  rw [freed, hwords, Block.length_words, Block.blen, hpad]
  change ((e.len + 0 : Nat) : Int) - (e.len + 0) = 0
  omega

theorem Mask.holds_blank {m : Mask} {t : List Int}
    (hbuf : m.llbuf = e.words ++ t) (hllop : m.llop = e.len)
    (hlllen : m.lllen = m.llbuf.length)
    (hlp : m.lp = List.replicate n plEmptyline) (hnlp : m.nlp = n)
    (hllbp : 0 < m.llbp) (hllinc : 0 < m.llinc) :
    m.Holds (Shelf.blank e hpad hline n) := by
  refine ⟨⟨t, ?_⟩, ?_, hlllen, ?_, ?_, hllbp, hllinc⟩
  · rw [hbuf]
    exact congrArg (· ++ t) (Shelf.blank_words hpad hline (n := n)).symm
  · rw [Shelf.blank_words, Block.length_words, Block.blen, hpad, hllop]
    rfl
  · rw [hlp]
    change _ = (List.replicate n 0).map _
    rw [List.map_replicate]
    rfl
  · rw [hnlp]
    exact List.length_replicate.symm

end Blank

/-! ## Creating a mask -/

theorem plSsize_spec {pl : Mask} {axlen : List Int} (hax : Axes axlen)
    (hfits : EmptyLineFits (word axlen 1)) (hinc : 0 < pl.llinc) (depth : Int)
    (bp : Address) :
    ∃ m, ∃ s : Shelf (word axlen 1).toNat,
      plSsize pl axlen depth bp = .ok m ∧ m.Holds s ∧
      s.rows = List.replicate (lineCount axlen)
        (List.replicate (word axlen 1).toNat 0) ∧
      s.freed = 0 ∧ (∀ js ∈ s.lists, Canonical js) ∧
      llCurhdrlen + (packed (s.listAt 0)).length ≤ plLlbuflen ∧
      m.HasAxes axlen ∧ m.llfree = pl.llfree ∧
      m.llnupdates = pl.llnupdates ∧
      m.maxval = (if depth > 0 then mv depth else mv plMaxdepth) := by
  have hnpix : 0 < word axlen 1 := by
    obtain ⟨a, as, rfl⟩ := List.exists_cons_of_length_pos hax.1
    exact hax.2.2 a (by simp)
  have hlen := (emptyLineFits_iff hnpix).mp hfits
  obtain ⟨is, hwords, ⟨-, -, -, -, hok, hshort⟩, hexpand, hcanon⟩ :=
    plP2l_packs (fun _ => 0) 1 hnpix (fun _ _ _ => by decide)
      (by simp only [plLlbuflen] at hlen; omega)
  rw [pixels_zero] at hexpand
  let e : Block := ⟨lineCount axlen, is, [], hok, hshort⟩
  have hll : (plP2l (fun _ => 0) 1 (word axlen 1)).length = e.len := by
    rw [hwords, List.length_append, length_header]
    rfl
  let t : List Int := (malloc plLlbuflen).drop e.len
  have hmalloc : ∀ n, (malloc n).length = n := fun n => List.length_replicate
  have hmove : amovs (plP2l (fun _ => 0) 1 (word axlen 1)) (malloc plLlbuflen)
      0 = .ok (header 0 e.len 0 ++ (packed is ++ t)) := by
    have hroom : (plP2l (fun _ => 0) 1 (word axlen 1)).length ≤
        (malloc plLlbuflen).length := by
      rw [hmalloc]
      exact hlen
    have happend := amovs_append [] hroom
    rw [List.nil_append, List.length_nil, hll, hwords] at happend
    rw [hwords, happend, List.nil_append, List.append_assoc]
    rfl
  have hnrefs := setNrefs_append [] (packed is ++ t) 0 e.len 0
    ((axlen.drop 1).prod.toNat : Int)
  have hblen := setBlen_append [] (packed is ++ t)
    ((axlen.drop 1).prod.toNat : Int) e.len 0 (n := e.len)
  simp only [List.nil_append, List.length_nil] at hnrefs hblen
  have hbuf : header ((axlen.drop 1).prod.toNat : Int) e.len e.len ++
      (packed is ++ t) = e.words ++ t := by
    simp [e, Block.words, Block.blen, lineCount]
  refine ⟨_, Shelf.blank e rfl hexpand (lineCount axlen), ?_,
    Mask.holds_blank (e := e) (t := t) (m := { pl with
      plane := List.replicate plMaxdim 1
      naxes := axlen.length
      maxval := if depth > 0 then mv depth else mv plMaxdepth
      axlen := axlen ++ List.replicate (plMaxdim - axlen.length) 1
      maxline := word axlen 1 * 3 + llCurhdrlen
      llbp := bp
      llbuf := e.words ++ t
      llop := e.len
      lllen := plLlbuflen
      nlp := lineCount axlen
      lp := List.replicate (lineCount axlen) plEmptyline })
      rfl hexpand rfl rfl ?_ rfl rfl bp.2 hinc,
    Shelf.blank_rows .., Shelf.blank_freed .., ?_, ?_, ⟨rfl, rfl⟩, rfl, rfl,
    rfl⟩
  · unfold plSsize
    simp only [bind, Except.bind, pure, Except.pure]
    rw [hmove]
    simp only
    rw [hnrefs]
    simp only
    rw [hll, hblen, hbuf]
    rfl
  · change ((plLlbuflen : Nat) : Int) = ((e.words ++ t).length : Int)
    rw [List.length_append, Block.length_words, List.length_drop, hmalloc]
    rw [hll] at hlen
    have hblen' : e.blen = e.len := rfl
    omega
  · intro js hjs
    obtain rfl : js = is := List.mem_singleton.mp hjs
    exact hcanon
  · rw [hll] at hlen
    exact hlen

/-! ## Clearing a mask -/

theorem plClear_spec {npix : Nat} {s : Shelf npix} {m : Mask} (h : m.Holds s)
    (hfits : llCurhdrlen + (packed (s.listAt 0)).length ≤ plLlbuflen)
    (bp : Address) :
    ∃ m', ∃ s' : Shelf npix, plClear m bp = .ok m' ∧ m'.Holds s' ∧
      s'.rows = List.replicate s.own.length (List.replicate npix 0) ∧
      s'.freed = 0 ∧ (∀ js ∈ s'.lists, js ∈ s.lists) ∧
      s'.listAt 0 = s.listAt 0 ∧ m'.llfree = 0 ∧ m'.llnupdates = 0 ∧
      m'.shape = m.shape := by
  obtain ⟨e, he, hpad, hline⟩ := s.first
  have hlist : s.listAt 0 = e.is := Shelf.listAt_eq he
  have hblen : llBlen (m.ll plEmptyline) = e.blen := h.stores.llBlen he
  have hlen : e.blen = e.len := by rw [Block.blen, hpad]; rfl
  have hroom : e.len ≤ plLlbuflen := by rwa [hlist] at hfits
  obtain ⟨buf, hnrefs, -, ⟨t, ht⟩, -⟩ := h.stores.setNrefs he m.nlp
  have hzero : (Tiling.offset Block.words s.blocks 0 : Int).toNat = 0 := rfl
  let e' := e.refs m.nlp
  have hfirst : tiles Block.words (s.blocks.set 0 e') =
      e'.words ++ tiles Block.words (s.blocks.drop 1) := tiles_set _ he e'
  have hlen' : e'.words.length = e.len := by
    rw [Block.length_words, Block.refs_blen, hlen]
  obtain ⟨t', ht'⟩ : ∃ t', realloc buf plLlbuflen = e'.words ++ t' := by
    refine ⟨(tiles Block.words (s.blocks.drop 1) ++ t).take
      (plLlbuflen - e'.words.length) ++
      List.replicate (plLlbuflen - buf.length) 0, ?_⟩
    rw [realloc, ht, hfirst, List.append_assoc, List.take_append,
      List.take_of_length_le (by omega), List.append_assoc]
  have hsize : ∀ l : List Int, (realloc l plLlbuflen).length = plLlbuflen := by
    intro l
    rw [realloc, List.length_append, List.length_take, List.length_replicate]
    omega
  let m' : Mask := { m with
    llop := e.len
    lp := List.replicate m.nlp plEmptyline
    llbuf := realloc buf plLlbuflen
    llbp := bp
    lllen := plLlbuflen
    llfree := 0
    llnupdates := 0 }
  have hholds : m'.Holds (Shelf.blank e' hpad hline s.own.length) := by
    refine Mask.holds_blank (e := e') (m := m') hpad hline ht' rfl ?_ ?_
      h.nlp bp.2 h.llinc
    · change ((plLlbuflen : Nat) : Int) =
        ((realloc buf plLlbuflen).length : Int)
      rw [hsize]
    · change List.replicate m.nlp plEmptyline = _
      rw [h.nlp]
  refine ⟨m', Shelf.blank e' hpad hline s.own.length, ?_, hholds,
    Shelf.blank_rows .., Shelf.blank_freed .., ?_, ?_, rfl, rfl, rfl⟩
  · unfold plClear
    rw [hblen, hlen]
    simp only [bind, Except.bind, pure, Except.pure]
    rw [Tiling.offset_zero] at hnrefs
    rw [hnrefs]
  · intro js hjs
    obtain rfl : js = e.is := List.mem_singleton.mp hjs
    exact List.mem_map.mpr ⟨e, List.mem_of_getElem? he, rfl⟩
  · rw [hlist]
    rfl

end Iraf.Plio
