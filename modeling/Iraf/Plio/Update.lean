import Iraf.Plio.Shelf

/-!
# Storing a line

What `pl_update` does to the shelf of a mask: nothing, let the line share a
list that is stored already, overwrite the list of the line, or put the new list
at the end.
-/

namespace Iraf.Plio

open Tiling

/-! ## Reference counts -/

theorem count_relink {own : List Nat} {i k₀ : Nat} (h : own[i]? = some k₀)
    (k j : Nat) :
    ((own.set i k).count j : Int) =
      own.count j - (if k₀ = j then 1 else 0) + (if k = j then 1 else 0) := by
  obtain ⟨hi, rfl⟩ := List.getElem?_eq_some_iff.mp h
  rw [List.count_set hi]
  by_cases hj : own[i] = j
  · have hpos : 0 < own.count j :=
      List.count_pos_iff.mpr (hj ▸ List.getElem_mem hi)
    simp only [beq_iff_eq, hj, if_true]
    split <;> omega
  · simp only [beq_iff_eq, hj, if_false]
    split <;> omega

theorem eq_of_count_one {own : List Nat} {i j k : Nat} (hi : own[i]? = some k)
    (hcount : own.count k = 1) (hj : own[j]? = some k) : j = i := by
  by_contra hne
  have hzero := count_relink hi (k + 1) k
  have hmem : k ∈ own.set i (k + 1) := by
    refine List.mem_of_getElem? (i := j) ?_
    rw [List.getElem?_set_ne (by omega), hj]
  have hpos := List.count_pos_iff.mpr hmem
  simp only [if_true] at hzero
  rw [if_neg (by omega)] at hzero
  omega

namespace Shelf

variable {npix : Nat} {s : Shelf npix} {i k₀ k : Nat} {b₀ b : Block}

theorem nref_nonneg (hb : s.blocks[k]? = some b) (hk : k ≠ 0) : 0 ≤ b.nref := by
  have := (s.counted k b hb hk).1
  omega

theorem toShort_nref (hb : s.blocks[k]? = some b) (hk : k ≠ 0) :
    toShort b.nref = b.nref := by
  have hnonneg := s.nref_nonneg hb hk
  exact toShort_of_mem (by omega) (s.counted k b hb hk).2

theorem nref_pos (hi : s.own[i]? = some k) (hb : s.blocks[k]? = some b)
    (hk : k ≠ 0) : 0 < b.nref := by
  have hpos := List.count_pos_iff.mpr (List.mem_of_getElem? hi)
  have := (s.counted k b hb hk).1
  omega

/-! ## Sharing a stored list -/

/-- The blocks after one reference moves from block `k₀` to block `k`. -/
def moveRef (bs : List Block) (k₀ : Nat) (b₀ : Block) (k : Nat) (b : Block) :
    List Block :=
  (bs.set k₀ (b₀.refs (toShort b₀.nref - 1))).set k
    (b.refs (toShort b.nref + 1))

theorem getElem?_moveRef {bs : List Block} (hb₀ : bs[k₀]? = some b₀)
    (hb : bs[k]? = some b) (j : Nat) :
    (moveRef bs k₀ b₀ k b)[j]? =
      if k = j then some (b.refs (toShort b.nref + 1))
      else if k₀ = j then some (b₀.refs (toShort b₀.nref - 1))
      else bs[j]? := by
  have hk₀ := (List.getElem?_eq_some_iff.mp hb₀).1
  have hk := (List.getElem?_eq_some_iff.mp hb).1
  rw [moveRef, List.getElem?_set, List.getElem?_set, List.length_set]
  by_cases h1 : k = j
  · rw [if_pos h1, if_pos h1, if_pos (h1 ▸ hk)]
  · by_cases h2 : k₀ = j
    · rw [if_neg h1, if_neg h1, if_pos h2, if_pos h2, if_pos (h2 ▸ hk₀)]
    · rw [if_neg h1, if_neg h1, if_neg h2, if_neg h2]

@[simp] theorem length_moveRef (bs : List Block) (k₀ : Nat) (b₀ : Block)
    (k : Nat) (b : Block) : (moveRef bs k₀ b₀ k b).length = bs.length := by
  simp [moveRef]

/-- Line `i` of block `k₀` refers to block `k` from now on. -/
def relink (s : Shelf npix) (hi : s.own[i]? = some k₀)
    (hb₀ : s.blocks[k₀]? = some b₀) (hb : s.blocks[k]? = some b) (hne : k ≠ k₀)
    (hcap : k ≠ 0 → b.nref < maxShort) : Shelf npix where
  blocks := moveRef s.blocks k₀ b₀ k b
  own := s.own.set i k
  first := by
    obtain ⟨e, he, hpad, hline⟩ := s.first
    rw [getElem?_moveRef hb₀ hb]
    split
    next h =>
      obtain rfl : b = e := Option.some.inj (hb.symm.trans (h ▸ he))
      exact ⟨_, rfl, hpad, hline⟩
    next =>
      split
      next h =>
        obtain rfl : b₀ = e := Option.some.inj (hb₀.symm.trans (h ▸ he))
        exact ⟨_, rfl, hpad, hline⟩
      next => exact ⟨e, he, hpad, hline⟩
  owned := by
    intro j hj
    rw [length_moveRef]
    rcases List.mem_or_eq_of_mem_set hj with hj | rfl
    · exact s.owned j hj
    · exact (List.getElem?_eq_some_iff.mp hb).1
  counted := by
    intro j c hc hj
    rw [getElem?_moveRef hb₀ hb] at hc
    rw [count_relink hi]
    by_cases hjk : k = j
    · subst hjk
      rw [if_pos rfl] at hc
      obtain rfl := Option.some.inj hc
      have hcount := (s.counted k b hb hj).1
      have hlt := hcap hj
      rw [if_pos rfl, if_neg (show ¬ k₀ = k by omega), Block.refs_nref,
        s.toShort_nref hb hj]
      omega
    · rw [if_neg hjk] at hc ⊢
      by_cases hjk₀ : k₀ = j
      · subst hjk₀
        rw [if_pos rfl] at hc ⊢
        obtain rfl := Option.some.inj hc
        have hcount := s.counted k₀ b₀ hb₀ hj
        rw [Block.refs_nref, s.toShort_nref hb₀ hj]
        omega
      · rw [if_neg hjk₀] at hc ⊢
        have hcount := s.counted j c hc hj
        omega

section Relink

variable (hi : s.own[i]? = some k₀) (hb₀ : s.blocks[k₀]? = some b₀)
  (hb : s.blocks[k]? = some b) (hne : k ≠ k₀)
  (hcap : k ≠ 0 → b.nref < maxShort)

theorem relink_is (j : Nat) :
    (s.relink hi hb₀ hb hne hcap).listAt j = s.listAt j := by
  change (((moveRef s.blocks k₀ b₀ k b)[j]?).map Block.is).getD [] = _
  rw [getElem?_moveRef hb₀ hb, listAt]
  split
  next h => simp [← h, hb]
  next =>
    split
    next h => simp [← h, hb₀]
    next => rfl

theorem relink_rows :
    (s.relink hi hb₀ hb hne hcap).rows = s.rows.set i (expand 1 b.is) := by
  have hrow : (fun j => expand 1 ((s.relink hi hb₀ hb hne hcap).listAt j)) =
      fun j => expand 1 (s.listAt j) := by
    funext j
    rw [relink_is]
  rw [rows, rows, hrow]
  change (s.own.set i k).map _ = _
  rw [List.map_set, listAt_eq hb]

theorem relink_offset (j : Nat) :
    (s.relink hi hb₀ hb hne hcap).offset j = s.offset j := by
  have hb' : (s.blocks.set k₀ (b₀.refs (toShort b₀.nref - 1)))[k]? = some b := by
    rw [List.getElem?_set_ne fun h => hne h.symm, hb]
  change Tiling.offset Block.words (moveRef s.blocks k₀ b₀ k b) j = _
  rw [moveRef, offset_set Block.words hb' (by simp),
    offset_set Block.words hb₀ (by simp)]
  rfl

theorem relink_words :
    (s.relink hi hb₀ hb hne hcap).words.length = s.words.length := by
  have hlen := relink_offset hi hb₀ hb hne hcap s.blocks.length
  rw [offset, offset, offset_length] at hlen
  rw [words, words, ← hlen]
  conv_lhs => rw [← offset_length]
  congr 1
  exact (length_moveRef s.blocks k₀ b₀ k b)

theorem liveSum_relink :
    liveSum (s.relink hi hb₀ hb hne hcap).blocks = liveSum s.blocks -
      (if k₀ ≠ 0 ∧ b₀.nref = 1 then (b₀.len : Int) else 0) +
      (if k ≠ 0 ∧ b.nref = 0 then (b.len : Int) else 0) := by
  have hb' : (s.blocks.set k₀ (b₀.refs (toShort b₀.nref - 1)))[k]? = some b := by
    rw [List.getElem?_set_ne fun h => hne h.symm, hb]
  have hold : liveSum (s.blocks.set k₀ (b₀.refs (toShort b₀.nref - 1))) =
      liveSum s.blocks -
        (if k₀ ≠ 0 ∧ b₀.nref = 1 then (b₀.len : Int) else 0) := by
    by_cases hk₀ : k₀ = 0
    · subst hk₀
      simp [liveSum_set_zero hb₀]
    · have hpos := s.nref_pos hi hb₀ hk₀
      have hlive : live b₀ = b₀.len := if_pos hpos
      have hdec : live (b₀.refs (b₀.nref - 1)) =
          if b₀.nref = 1 then 0 else (b₀.len : Int) := by
        rw [live_refs]
        by_cases hone : b₀.nref = 1
        · rw [if_pos hone, if_neg (by omega)]
        · rw [if_neg hone, if_pos (by omega)]
      rw [liveSum_set hb₀ hk₀, s.toShort_nref hb₀ hk₀, hlive, hdec]
      by_cases hone : b₀.nref = 1
      · rw [if_pos hone, if_pos ⟨hk₀, hone⟩]
        omega
      · rw [if_neg hone, if_neg fun h => hone h.2]
        omega
  change liveSum (moveRef s.blocks k₀ b₀ k b) = _
  rw [moveRef, ← hold]
  by_cases hk : k = 0
  · subst hk
    rw [liveSum_set_zero hb']
    simp
  · have hnonneg := s.nref_nonneg hb hk
    have hinc : live (b.refs (b.nref + 1)) = b.len := by
      rw [live_refs, if_pos (by omega)]
    rw [liveSum_set hb' hk, s.toShort_nref hb hk, hinc, live]
    by_cases hzero : b.nref = 0
    · rw [if_neg (by omega), if_pos ⟨hk, hzero⟩]
      omega
    · rw [if_pos (by omega), if_neg fun h => hzero h.2]
      omega

end Relink

end Shelf

/-! ### The counts in the buffer -/

theorem length_tiles_refs {bs : List Block} {k : Nat} {b : Block}
    (hb : bs[k]? = some b) (n : Int) :
    (tiles Block.words (bs.set k (b.refs n))).length =
      (tiles Block.words bs).length := by
  rw [tiles_set _ hb, tiles_split _ hb]
  simp

theorem offset_eq_emptyline_iff {bs : List Block} {k : Nat}
    (hk : k < bs.length) :
    (Tiling.offset Block.words bs k : Int) = plEmptyline ↔ k = 0 := by
  have hinj := offset_inj Block.words Block.words_pos hk
    (show 0 < bs.length by omega)
  rw [Tiling.offset_zero] at hinj
  rw [plEmptyline, Int.natCast_eq_zero, hinj]

theorem Mask.Stores.setNrefs {m : Mask} {bs : List Block} {k : Nat}
    {b : Block} (h : m.Stores bs) (hb : bs[k]? = some b) (n : Int) :
    ∃ buf, setNrefs m.llbuf (Tiling.offset Block.words bs k) n = .ok buf ∧
      buf.length = m.llbuf.length ∧
      (∃ t, buf = tiles Block.words (bs.set k (b.refs n)) ++ t) ∧
      ∀ m' : Mask, m'.llbuf = buf →
        Plio.llNref (m'.ll (Tiling.offset Block.words bs k)) = toShort n ∧
        Plio.llLen (m'.ll (Tiling.offset Block.words bs k)) = b.len ∧
        Plio.llBlen (m'.ll (Tiling.offset Block.words bs k)) = b.blen := by
  obtain ⟨t, ht⟩ := h
  have hbs := (List.getElem?_eq_some_iff.mp hb).1
  refine ⟨_, ht ▸ setNrefs_tiles hb t n, ?_, ⟨t, rfl⟩, fun m' hm' => ?_⟩
  · rw [ht, List.length_append, List.length_append, length_tiles_refs hb]
  · have hb' : (bs.set k (b.refs n))[k]? = some (b.refs n) :=
      List.getElem?_set_self hbs
    have hstores : m'.Stores (bs.set k (b.refs n)) := ⟨t, hm'⟩
    have hoffset := offset_set Block.words hb
      (show (b.refs n).words.length = b.words.length by simp) k
    have hnref := hstores.llNref hb'
    have hlen := hstores.llLen hb'
    have hblen := hstores.llBlen hb'
    rw [hoffset] at hnref hlen hblen
    exact ⟨hnref, hlen, hblen⟩

theorem Mask.Stores.dereference {m : Mask} {bs : List Block} {k : Nat}
    {b : Block} (h : m.Stores bs) (hb : bs[k]? = some b) :
    ∃ buf, m.dereference (Tiling.offset Block.words bs k) = .ok { m with
        llbuf := buf
        llfree := m.llfree +
          if toShort (toShort b.nref - 1) = 0 ∧ k ≠ 0 then b.len else 0 } ∧
      buf.length = m.llbuf.length ∧
      ∃ t, buf =
        tiles Block.words (bs.set k (b.refs (toShort b.nref - 1))) ++ t := by
  obtain ⟨buf, hset, hlength, hstores, hread⟩ :=
    h.setNrefs hb (toShort b.nref - 1)
  obtain ⟨hnref, hlen, -⟩ := hread { m with llbuf := buf } rfl
  refine ⟨buf, ?_, hlength, hstores⟩
  rw [Mask.dereference, h.llNref hb, Int.toNat_natCast, hset]
  simp only [bind, Except.bind, pure, Except.pure, hnref, hlen, ne_eq,
    offset_eq_emptyline_iff (List.getElem?_eq_some_iff.mp hb).1]
  split <;> simp

theorem Mask.Stores.reference {m : Mask} {bs : List Block} {k : Nat}
    {b : Block} (h : m.Stores bs) (hb : bs[k]? = some b) :
    ∃ buf, m.reference (Tiling.offset Block.words bs k) = .ok { m with
        llbuf := buf
        llfree := m.llfree -
          if toShort (toShort b.nref + 1) = 1 ∧ k ≠ 0 then b.blen else 0 } ∧
      buf.length = m.llbuf.length ∧
      ∃ t, buf =
        tiles Block.words (bs.set k (b.refs (toShort b.nref + 1))) ++ t := by
  obtain ⟨buf, hset, hlength, hstores, hread⟩ :=
    h.setNrefs hb (toShort b.nref + 1)
  obtain ⟨hnref, -, hblen⟩ := hread { m with llbuf := buf } rfl
  refine ⟨buf, ?_, hlength, hstores⟩
  rw [Mask.reference, h.llNref hb, Int.toNat_natCast, hset]
  simp only [bind, Except.bind, pure, Except.pure, hnref, hblen, ne_eq,
    offset_eq_emptyline_iff (List.getElem?_eq_some_iff.mp hb).1]
  split <;> simp

theorem Mask.Holds.relink {npix : Nat} {s : Shelf npix} {m : Mask}
    (h : m.Holds s) {i k₀ k : Nat} {b₀ b : Block}
    (hi : s.own[i]? = some k₀) (hb₀ : s.blocks[k₀]? = some b₀)
    (hb : s.blocks[k]? = some b) (hne : k ≠ k₀)
    (hcap : k ≠ 0 → b.nref < maxShort)
    (hnew : k ≠ 0 → b.nref = 0 → b.pad = []) :
    ∃ m', m.relink (i + 1) (s.offset k₀) (s.offset k) = .ok m' ∧
      m'.Holds (s.relink hi hb₀ hb hne hcap) ∧
      m'.llfree - m.llfree = (s.relink hi hb₀ hb hne hcap).freed - s.freed ∧
      ∃ buf free lp, m' = { m with llbuf := buf, llfree := free, lp := lp } := by
  obtain ⟨buf₁, hderef, hlength₁, hstores₁⟩ := h.stores.dereference hb₀
  have hb' : (s.blocks.set k₀ (b₀.refs (toShort b₀.nref - 1)))[k]? = some b := by
    rw [List.getElem?_set_ne fun h => hne h.symm, hb]
  obtain ⟨buf₂, href, hlength₂, hstores₂⟩ := Mask.Stores.reference
    (m := { m with
      llbuf := buf₁
      llfree := m.llfree +
        if toShort (toShort b₀.nref - 1) = 0 ∧ k₀ ≠ 0 then b₀.len else 0 })
    hstores₁ hb'
  rw [offset_set Block.words hb₀ (by simp)] at href
  have hindex : ((i : Int) + 1 - 1).toNat = i := by omega
  refine ⟨{ m with
      llbuf := buf₂
      llfree := m.llfree +
        ((if toShort (toShort b₀.nref - 1) = 0 ∧ k₀ ≠ 0 then b₀.len else 0 :
          Nat) : Int) -
        ((if toShort (toShort b.nref + 1) = 1 ∧ k ≠ 0 then b.blen else 0 :
          Nat) : Int)
      lp := m.lp.set ((i : Int) + 1 - 1).toNat (s.offset k) },
    ?_, ⟨hstores₂, ?_, ?_, ?_, ?_, h.llbp, h.llinc⟩, ?_, _, _, _, rfl⟩
  · rw [Mask.relink, Shelf.offset, hderef]
    simp only [bind, Except.bind, pure, Except.pure]
    rw [Shelf.offset, href]
  · rw [Shelf.relink_words]
    exact h.llop
  · change m.lllen = buf₂.length
    rw [hlength₂, hlength₁]
    exact h.lllen
  · change m.lp.set ((i : Int) + 1 - 1).toNat (s.offset k : Int) =
      (s.own.set i k).map _
    simp only [Shelf.relink_offset]
    rw [hindex, h.lp, List.map_set]
  · rw [h.nlp]
    exact (List.length_set).symm
  · have hlive := Shelf.liveSum_relink hi hb₀ hb hne hcap
    have hwords := Shelf.relink_words hi hb₀ hb hne hcap
    have hold : toShort (toShort b₀.nref - 1) = 0 ∧ k₀ ≠ 0 ↔
        k₀ ≠ 0 ∧ b₀.nref = 1 := by
      by_cases hk₀ : k₀ = 0
      · simp [hk₀]
      · have hpos := s.nref_pos hi hb₀ hk₀
        have hle : b₀.nref ≤ 32767 := (s.counted k₀ b₀ hb₀ hk₀).2
        rw [s.toShort_nref hb₀ hk₀, toShort_of_mem (by omega) (by omega)]
        omega
    have hnew' : (if toShort (toShort b.nref + 1) = 1 ∧ k ≠ 0 then
        b.blen else 0) = if k ≠ 0 ∧ b.nref = 0 then b.len else 0 := by
      by_cases hk : k = 0
      · simp [hk]
      · have hnonneg := s.nref_nonneg hb hk
        have hlt : b.nref < 32767 := hcap hk
        rw [s.toShort_nref hb hk, toShort_of_mem (by omega) (by omega)]
        by_cases hzero : b.nref = 0
        · rw [if_pos ⟨by omega, hk⟩, if_pos ⟨hk, hzero⟩, Block.blen,
            hnew hk hzero]
          rfl
        · rw [if_neg (by omega), if_neg (by omega)]
    rw [hnew', if_congr hold rfl rfl, Shelf.freed, Shelf.freed, hlive, hwords]
    push_cast
    omega

/-! ## Storing a new list -/

theorem Packs.take {l : List Int} {is : List Instr} (h : Packs l is) :
    ∃ nref blen, l.take (Plio.llLen l).toNat =
      header nref (llCurhdrlen + (packed is).length) blen ++ packed is := by
  have hlen := h.llLen
  obtain ⟨nref, blen, rest, hl, -, -⟩ := h
  have hsize : (Plio.llLen l).toNat = (header nref
      (llCurhdrlen + (packed is).length) blen ++ packed is).length := by
    rw [hlen, List.length_append, length_header, llCurhdrlen]
    omega
  refine ⟨nref, blen, ?_⟩
  rw [hsize]
  conv_lhs => rw [hl, ← List.append_assoc]
  rw [List.take_left]

/-- The block with its list overwritten by one that fits. -/
def Block.rewrite (b : Block) (is : List Instr) (hok : ∀ i ∈ is, i.Ok)
    (hfit : llCurhdrlen + (packed is).length ≤ b.blen) : Block where
  nref := 1
  is := is
  pad := b.words.drop (llCurhdrlen + (packed is).length)
  ok := hok
  short := by
    rw [List.length_drop, b.length_words]
    have := b.blen_lt
    omega

theorem Block.rewrite_blen (b : Block) (is : List Instr) (hok : ∀ i ∈ is, i.Ok)
    (hfit : llCurhdrlen + (packed is).length ≤ b.blen) :
    (b.rewrite is hok hfit).blen = b.blen := by
  simp only [Block.blen, Block.len, Block.rewrite, List.length_drop,
    b.length_words] at hfit ⊢
  omega

/-- A list of instructions as a block of its own that no line refers to. -/
def Block.fresh (is : List Instr) (hok : ∀ i ∈ is, i.Ok)
    (hshort : llCurhdrlen + (packed is).length < 2 ^ 30) : Block where
  nref := 0
  is := is
  pad := []
  ok := hok
  short := hshort

theorem Mask.Stores.overwrite {m : Mask} {bs : List Block} {k : Nat}
    {b : Block} (h : m.Stores bs) (hb : bs[k]? = some b) {l : List Int}
    {is : List Instr} (hl : Packs l is) (hok : ∀ i ∈ is, i.Ok)
    (hfit : llCurhdrlen + (packed is).length ≤ b.blen) :
    ∃ buf, m.overwrite (Tiling.offset Block.words bs k) l = .ok { m with
        llbuf := buf
        llfree := m.llfree +
          ((b.len : Int) - (b.rewrite is hok hfit).len) } ∧
      buf.length = m.llbuf.length ∧
      ∃ t, buf = tiles Block.words (bs.set k (b.rewrite is hok hfit)) ++ t := by
  obtain ⟨nref, blen, htake⟩ := hl.take
  have hblen := h.llBlen hb
  have hlen := h.llLen hb
  obtain ⟨t, ht⟩ := h
  let before := tiles Block.words (bs.take k)
  let after := tiles Block.words (bs.drop (k + 1)) ++ t
  let new := b.rewrite is hok hfit
  have hbuf : m.llbuf = before ++ (b.words ++ after) := by
    rw [ht, tiles_split _ hb, List.append_assoc, List.append_assoc]
  have hsize : (header nref (llCurhdrlen + (packed is).length) blen ++
      packed is).length = llCurhdrlen + (packed is).length := by simp
  have hmove : amovs (l.take (Plio.llLen l).toNat) m.llbuf before.length =
      .ok (before ++ (header nref (llCurhdrlen + (packed is).length) blen ++
        (packed is ++ new.pad ++ after))) := by
    rw [htake, hbuf, amovs_append _ (by
      rw [hsize, List.length_append, b.length_words]
      omega), hsize, List.drop_append_of_le_length (by
      rw [b.length_words]
      exact hfit)]
    simp [new, Block.rewrite]
  have hnew : before ++ (header 1 (llCurhdrlen + (packed is).length) b.blen ++
      (packed is ++ new.pad ++ after)) =
      tiles Block.words (bs.set k new) ++ t := by
    have hwords : new.words = header 1 (llCurhdrlen + (packed is).length)
        b.blen ++ (packed is ++ new.pad) := by
      rw [Block.words, b.rewrite_blen is hok hfit]
      rfl
    rw [tiles_set _ hb, hwords]
    simp [before, after]
  have hk := (List.getElem?_eq_some_iff.mp hb).1
  have hread : ∀ m' : Mask, m'.llbuf = tiles Block.words (bs.set k new) ++ t →
      Plio.llLen (m'.ll (Tiling.offset Block.words bs k)) = new.len := by
    intro m' hm'
    have hstores : m'.Stores (bs.set k new) := ⟨t, hm'⟩
    rw [← hstores.llLen (List.getElem?_set_self hk), offset_set _ hb (by
      rw [Block.length_words, Block.length_words, b.rewrite_blen is hok hfit])]
  refine ⟨_, ?_, ?_, t, rfl⟩
  · unfold Mask.overwrite
    rw [hblen, hlen, Int.toNat_natCast,
      show Tiling.offset Block.words bs k = before.length from rfl, hmove]
    simp only [bind, Except.bind, setNrefs_append, setBlen_append, pure,
      Except.pure, hnew]
    rw [show before.length = Tiling.offset Block.words bs k from rfl, hread _ rfl]
  · rw [ht, List.length_append, List.length_append, ← offset_length,
      ← offset_length, List.length_set, offset_set _ hb (by
      rw [Block.length_words, Block.length_words, b.rewrite_blen is hok hfit])]

namespace Shelf

variable {npix : Nat} {s : Shelf npix} {i k : Nat} {b : Block}
  {is : List Instr}

/-- The list of a line that shares it with no other is overwritten. -/
def overwrite (s : Shelf npix) (hb : s.blocks[k]? = some b) (hk : k ≠ 0)
    (hone : b.nref = 1) (hok : ∀ i ∈ is, i.Ok)
    (hfit : llCurhdrlen + (packed is).length ≤ b.blen) : Shelf npix where
  blocks := s.blocks.set k (b.rewrite is hok hfit)
  own := s.own
  first := by
    obtain ⟨e, he, hempty⟩ := s.first
    exact ⟨e, by rw [List.getElem?_set_ne hk, he], hempty⟩
  owned := by
    simpa using s.owned
  counted := by
    intro j c hc hj
    by_cases hjk : k = j
    · subst hjk
      rw [List.getElem?_set_self (List.getElem?_eq_some_iff.mp hb).1] at hc
      obtain rfl := Option.some.inj hc
      have hcount := s.counted k b hb hj
      exact ⟨hone.symm.trans hcount.1, show (1 : Int) ≤ 32767 by decide⟩
    · rw [List.getElem?_set_ne hjk] at hc
      exact s.counted j c hc hj

/-- A new block that no line refers to yet. -/
def push (s : Shelf npix) (hok : ∀ i ∈ is, i.Ok)
    (hshort : llCurhdrlen + (packed is).length < 2 ^ 30) : Shelf npix where
  blocks := s.blocks ++ [Block.fresh is hok hshort]
  own := s.own
  first := by
    obtain ⟨e, he, hempty⟩ := s.first
    exact ⟨e, by rw [List.getElem?_append_left s.blocks_pos, he], hempty⟩
  owned := by
    intro k hk
    have := s.owned k hk
    rw [List.length_append]
    omega
  counted := by
    intro k c hc hk
    by_cases hlt : k < s.blocks.length
    · rw [List.getElem?_append_left hlt] at hc
      exact s.counted k c hc hk
    · have hnone : s.own.count k = 0 := List.count_eq_zero.mpr fun hmem => hlt
        (s.owned k hmem)
      rw [List.getElem?_append_right (by omega)] at hc
      obtain ⟨-, rfl⟩ := List.getElem?_eq_some_iff.mp hc
      simp [Block.fresh, hnone]

theorem overwrite_offset (hb : s.blocks[k]? = some b) (hk : k ≠ 0)
    (hone : b.nref = 1) (hok : ∀ i ∈ is, i.Ok)
    (hfit : llCurhdrlen + (packed is).length ≤ b.blen) (j : Nat) :
    (s.overwrite hb hk hone hok hfit).offset j = s.offset j :=
  offset_set _ hb (by
    rw [Block.length_words, Block.length_words, b.rewrite_blen is hok hfit]) j

theorem overwrite_words (hb : s.blocks[k]? = some b) (hk : k ≠ 0)
    (hone : b.nref = 1) (hok : ∀ i ∈ is, i.Ok)
    (hfit : llCurhdrlen + (packed is).length ≤ b.blen) :
    (s.overwrite hb hk hone hok hfit).words.length = s.words.length := by
  have hlen := overwrite_offset hb hk hone hok hfit s.blocks.length
  rw [offset, offset, offset_length] at hlen
  rw [words, words, ← hlen, ← offset_length]
  congr 1
  exact List.length_set

theorem overwrite_rows (hi : s.own[i]? = some k) (hb : s.blocks[k]? = some b)
    (hk : k ≠ 0) (hone : b.nref = 1) (hok : ∀ i ∈ is, i.Ok)
    (hfit : llCurhdrlen + (packed is).length ≤ b.blen) :
    (s.overwrite hb hk hone hok hfit).rows = s.rows.set i (expand 1 is) := by
  have hcount := (s.counted k b hb hk).1
  refine List.ext_getElem? fun j => ?_
  rw [List.getElem?_set, rows, rows, List.getElem?_map, List.getElem?_map]
  change (s.own[j]?).map _ = _
  by_cases hj : i = j
  · subst hj
    have hlt : i < s.own.length := (List.getElem?_eq_some_iff.mp hi).1
    rw [if_pos rfl, List.length_map, if_pos hlt, hi]
    change some (expand 1 (((s.blocks.set k (b.rewrite is hok hfit))[k]?.map
      Block.is).getD [])) = _
    rw [List.getElem?_set_self (List.getElem?_eq_some_iff.mp hb).1]
    rfl
  · rw [if_neg hj]
    cases hjown : s.own[j]? with
    | none => rfl
    | some k' =>
        have hne : k ≠ k' := by
          rintro rfl
          exact hj (eq_of_count_one hi (by omega) hjown).symm
        change some (expand 1 (((s.blocks.set k (b.rewrite is hok hfit))[k']?.map
          Block.is).getD [])) = _
        rw [List.getElem?_set_ne hne]
        rfl

theorem push_offset (hok : ∀ i ∈ is, i.Ok)
    (hshort : llCurhdrlen + (packed is).length < 2 ^ 30)
    (hk : k ≤ s.blocks.length) :
    (s.push hok hshort).offset k = s.offset k :=
  offset_append_left _ hk _

theorem push_rows (hok : ∀ i ∈ is, i.Ok)
    (hshort : llCurhdrlen + (packed is).length < 2 ^ 30) :
    (s.push hok hshort).rows = s.rows := by
  refine List.map_congr_left fun k hk => ?_
  change expand 1 (((s.blocks ++ [Block.fresh is hok hshort])[k]?.map
    Block.is).getD []) = _
  rw [List.getElem?_append_left (s.owned k hk)]
  rfl

theorem push_words (hok : ∀ i ∈ is, i.Ok)
    (hshort : llCurhdrlen + (packed is).length < 2 ^ 30) :
    (s.push hok hshort).words = s.words ++ (Block.fresh is hok hshort).words := by
  change tiles Block.words (s.blocks ++ [Block.fresh is hok hshort]) = _
  simp [words]

end Shelf

theorem Mask.Holds.overwrite {npix : Nat} {s : Shelf npix} {m : Mask}
    (h : m.Holds s) {k : Nat} {b : Block} (hb : s.blocks[k]? = some b)
    (hk : k ≠ 0) (hone : b.nref = 1) {l : List Int} {is : List Instr}
    (hl : Packs l is) (hok : ∀ i ∈ is, i.Ok)
    (hfit : llCurhdrlen + (packed is).length ≤ b.blen) :
    ∃ m', m.overwrite (s.offset k) l = .ok m' ∧
      m'.Holds (s.overwrite hb hk hone hok hfit) ∧
      m'.llfree - m.llfree =
        (s.overwrite hb hk hone hok hfit).freed - s.freed ∧
      ∃ buf free, m' = { m with llbuf := buf, llfree := free } := by
  obtain ⟨buf, hover, hlength, hstores⟩ := h.stores.overwrite hb hl hok hfit
  have hwords := Shelf.overwrite_words hb hk hone hok hfit
  refine ⟨_, hover, ⟨hstores, ?_, ?_, ?_, h.nlp, h.llbp, h.llinc⟩, ?_, _, _, rfl⟩
  · rw [hwords]
    exact h.llop
  · change m.lllen = buf.length
    rw [hlength]
    exact h.lllen
  · simp only [Shelf.overwrite_offset]
    exact h.lp
  · have hlive := Shelf.liveSum_set hb hk (b.rewrite is hok hfit)
    have hold : Shelf.live b = b.len := if_pos (by omega)
    have hnew : Shelf.live (b.rewrite is hok hfit) =
      (b.rewrite is hok hfit).len := if_pos (show (0 : Int) < 1 by decide)
    rw [Shelf.freed, Shelf.freed, hwords]
    change m.llfree + ((b.len : Int) - (b.rewrite is hok hfit).len) -
      m.llfree = s.words.length -
        Shelf.liveSum (s.blocks.set k (b.rewrite is hok hfit)) - _
    rw [hlive, hold, hnew]
    omega

/-! ### The end of the buffer -/

theorem growLen_spec (op : Int) (n : Nat) {len inc : Int} (hinc : 0 < inc)
    (hn : op - len < n) :
    op < (growLen op n len inc).1 ∧ len ≤ (growLen op n len inc).1 ∧
      0 < (growLen op n len inc).2 := by
  induction n generalizing len inc with
  | zero =>
      simp only [growLen]
      omega
  | succ n ih =>
      simp only [growLen]
      split
      next =>
        have hpos : 0 < min plMaxinc (inc * 2) := by
          simp only [plMaxinc]
          omega
        have hrun := @ih (len + min plMaxinc (inc * 2)) _ hpos (by omega)
        omega
      next => omega

theorem Mask.Holds.alloc {npix : Nat} {s : Shelf npix} {m : Mask}
    (h : m.Holds s) (nwords : Nat) (bp : Address) :
    ∃ t ptr inc, plAlloc m nwords bp = (m.llop, { m with
        llbuf := s.words ++ t
        llbp := ptr
        llop := m.llop + nwords
        lllen := (s.words ++ t).length
        llinc := inc }) ∧
      nwords ≤ t.length ∧ 0 < ptr ∧ 0 < inc := by
  obtain ⟨t, ht⟩ := h.stores
  have hbuf : m.llbuf = s.words ++ t := ht
  have hgrow := @growLen_spec (m.llop + nwords)
    (m.llop + nwords - m.lllen + 1).toNat m.lllen _ h.llinc (by omega)
  have hllop := h.llop
  have hlllen := h.lllen
  rw [hbuf, List.length_append] at hlllen
  obtain ⟨⟨len, inc⟩, hr⟩ : ∃ r, growLen (m.llop + nwords)
    (m.llop + nwords - m.lllen + 1).toNat m.lllen m.llinc = r := ⟨_, rfl⟩
  rw [hr] at hgrow
  simp only [plAlloc, hr]
  simp only at hgrow
  by_cases hlen : len = m.lllen
  · refine ⟨t, m.llbp, inc, ?_, by omega, h.llbp, hgrow.2.2⟩
    rw [if_neg (not_not.mpr hlen), ← hbuf, hlen, h.lllen]
  · let pad := List.replicate (len.toNat - m.llbuf.length) (0 : Int)
    have hsize : m.llbuf.length = s.words.length + t.length := by
      rw [hbuf, List.length_append]
    have hrealloc : realloc m.llbuf len.toNat = s.words ++ (t ++ pad) := by
      rw [realloc, List.take_of_length_le (by omega), ← List.append_assoc,
        ← hbuf]
    have htotal : len = ((s.words ++ (t ++ pad)).length : Nat) := by
      simp only [pad, List.length_append, List.length_replicate]
      omega
    refine ⟨t ++ pad, bp, inc, ?_, ?_, bp.2, hgrow.2.2⟩
    · rw [if_pos hlen, hrealloc, ← htotal]
    · rw [List.length_append] at htotal
      omega

theorem Mask.Holds.append {npix : Nat} {s : Shelf npix} {m : Mask}
    (h : m.Holds s) {l : List Int} {is : List Instr} (hl : Packs l is)
    (hok : ∀ i ∈ is, i.Ok)
    (hshort : llCurhdrlen + (packed is).length < 2 ^ 30) (bp : Address) :
    ∃ m', m.append l bp =
        .ok (((s.push hok hshort).offset s.blocks.length : Int), m') ∧
      m'.Holds (s.push hok hshort) ∧
      m'.llfree - m.llfree = (s.push hok hshort).freed - s.freed ∧
      ∃ buf ptr op len free inc, m' = { m with
        llbuf := buf, llbp := ptr, llop := op, lllen := len, llfree := free,
        llinc := inc } := by
  have hlen : Plio.llLen l = ((llCurhdrlen + (packed is).length : Nat) : Int) := by
    rw [hl.llLen, Nat.cast_add]
    rfl
  obtain ⟨nref, blen, htake⟩ := hl.take
  obtain ⟨t, ptr, inc, halloc, ht, hptr, hinc⟩ :=
    h.alloc (llCurhdrlen + (packed is).length) bp
  let new := Block.fresh is hok hshort
  have hoffset : (s.push hok hshort).offset s.blocks.length = s.words.length := by
    rw [Shelf.push_offset _ _ (Nat.le_refl _)]
    exact offset_length _ _
  have hsize : (header nref (llCurhdrlen + (packed is).length) blen ++
      packed is).length = llCurhdrlen + (packed is).length := by simp
  have hmove : amovs (l.take (Plio.llLen l).toNat) (s.words ++ t)
      s.words.length = .ok (s.words ++
        (header nref (llCurhdrlen + (packed is).length) blen ++
          (packed is ++ t.drop new.len))) := by
    rw [htake, amovs_append _ (by omega), hsize, List.append_assoc]
    rfl
  have hnew : s.words ++ (header 0 (llCurhdrlen + (packed is).length) new.len ++
      (packed is ++ t.drop new.len)) =
      (s.push hok hshort).words ++ t.drop new.len := by
    rw [Shelf.push_words, List.append_assoc]
    congr 1
    simp [new, Block.words, Block.fresh, Block.blen, Block.len]
  have hnewlen : (s.push hok hshort).words.length = s.words.length + new.len := by
    rw [Shelf.push_words, List.length_append, Block.length_words]
    rfl
  refine ⟨{ m with
      llbuf := (s.push hok hshort).words ++ t.drop new.len
      llbp := ptr
      llop := m.llop + new.len
      lllen := (s.words ++ t).length
      llfree := m.llfree + new.len
      llinc := inc }, ?_, ⟨⟨_, rfl⟩, ?_, ?_, ?_, h.nlp, hptr, hinc⟩, ?_,
    _, _, _, _, _, _, rfl⟩
  · unfold Mask.append
    rw [hlen, halloc]
    simp only [hoffset, h.llop]
    rw [← hlen, Int.toNat_natCast, hmove]
    simp only [bind, Except.bind, setNrefs_append, pure, Except.pure]
    rw [hlen, show ((llCurhdrlen + (packed is).length : Nat) : Int) =
      (new.len : Int) from rfl, setBlen_append]
    simp only [hnew]
  · rw [hnewlen, Nat.cast_add, ← h.llop]
  · have hle : new.len ≤ t.length := ht
    change ((s.words ++ t).length : Int) =
      ((s.push hok hshort).words ++ t.drop new.len).length
    rw [List.length_append, List.length_append, List.length_drop, hnewlen]
    omega
  · change m.lp = _
    rw [h.lp]
    refine List.map_congr_left fun k hk => ?_
    rw [Shelf.push_offset _ _ (Nat.le_of_lt (s.owned k hk))]
  · have hne : s.blocks ≠ [] := List.length_pos_iff.mp s.blocks_pos
    have hlive := Shelf.liveSum_append hne new
    have hdead : Shelf.live new = 0 := if_neg (show ¬ (0 : Int) < 0 by decide)
    rw [Shelf.freed, Shelf.freed, hnewlen]
    change m.llfree + new.len - m.llfree =
      (s.words.length + new.len : Nat) - Shelf.liveSum (s.blocks ++ [new]) - _
    rw [hlive, hdead]
    omega

/-! ## The procedure -/

/-- The fields of a mask that give its size. -/
def Mask.shape (m : Mask) : Int × Int × Nat × List Int × List Int × Nat :=
  (m.maxline, m.maxval, m.naxes, m.axlen, m.plane, m.nlp)

/-- What storing the list of `is` for line `i` leaves behind. -/
structure Updated {npix : Nat} (m : Mask) (s : Shelf npix) (i : Nat)
    (is : List Instr) (m' : Mask) (s' : Shelf npix) : Prop where
  holds : m'.Holds s'
  rows : s'.rows = s.rows.set i (expand 1 is)
  own : ∃ k, s'.own = s.own.set i k
  offset : ∀ k, k < s.blocks.length → s'.offset k = s.offset k
  empty : s'.listAt 0 = s.listAt 0
  lists : ∀ js ∈ s'.lists, js ∈ s.lists ∨ js = is
  llfree : m'.llfree - m.llfree = s'.freed - s.freed
  shape : m'.shape = m.shape

theorem Mask.Holds.count_edit {npix : Nat} {s : Shelf npix} {m : Mask}
    (h : m.Holds s) (n : Int) : { m with llnupdates := n }.Holds s :=
  ⟨h.stores, h.llop, h.lllen, h.lp, h.nlp, h.llbp, h.llinc⟩

theorem set_of_getElem? {α : Type*} {l : List α} {i : Nat} {x : α}
    (h : l[i]? = some x) : l.set i x = l := by
  obtain ⟨hi, rfl⟩ := List.getElem?_eq_some_iff.mp h
  exact List.set_getElem_self hi

theorem Shelf.getElem?_rows {npix : Nat} {s : Shelf npix} {i k : Nat}
    {b : Block} (hi : s.own[i]? = some k) (hb : s.blocks[k]? = some b) :
    s.rows[i]? = some (expand 1 b.is) := by
  rw [rows, List.getElem?_map, hi, Option.map_some, listAt_eq hb]

theorem map_is_set {bs : List Block} {k : Nat} {b : Block}
    (h : bs[k]? = some b) (n : Int) :
    (bs.set k (b.refs n)).map Block.is = bs.map Block.is := by
  rw [List.map_set]
  exact set_of_getElem? (by rw [List.getElem?_map, h, Option.map_some,
    Block.refs_is])

theorem Mask.Holds.relink_updated {npix : Nat} {s : Shelf npix} {m : Mask}
    (h : m.Holds s) {i k₀ k : Nat} {b₀ b : Block}
    (hi : s.own[i]? = some k₀) (hb₀ : s.blocks[k₀]? = some b₀)
    (hb : s.blocks[k]? = some b) (hne : k ≠ k₀)
    (hcap : k ≠ 0 → b.nref < maxShort)
    (hnew : k ≠ 0 → b.nref = 0 → b.pad = []) :
    ∃ m' s', m.relink (i + 1) (s.offset k₀) (s.offset k) = .ok m' ∧
      Updated m s i b.is m' s' ∧ m'.llnupdates = m.llnupdates := by
  obtain ⟨m', hm', hholds, hfree, buf, free, lp, rfl⟩ :=
    h.relink hi hb₀ hb hne hcap hnew
  have hb' : (s.blocks.set k₀ (b₀.refs (toShort b₀.nref - 1)))[k]? = some b := by
    rw [List.getElem?_set_ne fun h => hne h.symm, hb]
  have hlists : (s.relink hi hb₀ hb hne hcap).lists = s.lists :=
    (map_is_set hb' _).trans (map_is_set hb₀ _)
  exact ⟨_, _, hm', ⟨hholds, s.relink_rows .., ⟨k, rfl⟩,
    fun j _ => s.relink_offset .., s.relink_is hi hb₀ hb hne hcap 0,
    fun js hjs => .inl (hlists ▸ hjs), hfree, rfl⟩, rfl⟩

theorem Mask.Holds.append_updated {npix : Nat} {s : Shelf npix} {m : Mask}
    (h : m.Holds s) {i k₀ : Nat} {b₀ : Block} (hi : s.own[i]? = some k₀)
    (hb₀ : s.blocks[k₀]? = some b₀) {l : List Int} {is : List Instr}
    (hl : Packs l is) (bp : Address) :
    ∃ nlp m₁ m' s', m.append l bp = .ok (nlp, m₁) ∧
      m₁.relink (i + 1) (s.offset k₀) nlp = .ok m' ∧
      Updated m s i is m' s' ∧ m'.llnupdates = m.llnupdates := by
  have hl' := hl
  obtain ⟨-, -, -, -, hok, hshort⟩ := hl'
  obtain ⟨m₁, happend, hholds, hfree, buf, ptr, op, len, free, inc, rfl⟩ :=
    h.append hl hok hshort bp
  have hk₀ := (List.getElem?_eq_some_iff.mp hb₀).1
  have hb₀' : (s.push hok hshort).blocks[k₀]? = some b₀ :=
    (List.getElem?_append_left hk₀).trans hb₀
  have hb : (s.push hok hshort).blocks[s.blocks.length]? =
      some (Block.fresh is hok hshort) := List.getElem?_concat_length
  obtain ⟨m', s', hm', hup, hedits⟩ := hholds.relink_updated
    (s := s.push hok hshort) (i := i) hi hb₀' hb (by omega)
    (fun _ => show (0 : Int) < 32767 by decide) (fun _ _ => rfl)
  rw [Shelf.push_offset _ _ (Nat.le_of_lt hk₀)] at hm'
  refine ⟨_, _, m', s', happend, hm', ⟨hup.holds, ?_, hup.own, fun k hk => ?_,
    ?_, fun js hjs => ?_, ?_, hup.shape⟩, hedits⟩
  · rw [hup.rows, Shelf.push_rows]
    rfl
  · have hlt : k < (s.push hok hshort).blocks.length :=
      Nat.lt_of_lt_of_le hk (List.length_append ▸ Nat.le_add_right _ _)
    rw [hup.offset k hlt, Shelf.push_offset _ _ (Nat.le_of_lt hk)]
  · rw [hup.empty]
    change (((s.blocks ++ [Block.fresh is hok hshort])[0]?.map
      Block.is).getD []) = _
    rw [List.getElem?_append_left s.blocks_pos]
    rfl
  · rcases hup.lists js hjs with hjs | hjs
    · obtain ⟨c, hc, rfl⟩ := List.mem_map.mp hjs
      rcases List.mem_append.mp hc with hc | hc
      · exact .inl (List.mem_map.mpr ⟨c, hc, rfl⟩)
      · rw [List.mem_singleton.mp hc]
        exact .inr rfl
    · exact .inr hjs
  · have hsum := hup.llfree
    simp only at hsum hfree
    omega

theorem Mask.Holds.overwrite_updated {npix : Nat} {s : Shelf npix} {m : Mask}
    (h : m.Holds s) {i k : Nat} {b : Block} (hi : s.own[i]? = some k)
    (hb : s.blocks[k]? = some b) (hk : k ≠ 0) (hone : b.nref = 1)
    {l : List Int} {is : List Instr} (hl : Packs l is)
    (hfit : llCurhdrlen + (packed is).length ≤ b.blen) :
    ∃ m' s', m.overwrite (s.offset k) l = .ok m' ∧
      Updated m s i is m' s' ∧ m'.llnupdates = m.llnupdates := by
  have hl' := hl
  obtain ⟨-, -, -, -, hok, -⟩ := hl'
  obtain ⟨m', hm', hholds, hfree, buf, free, rfl⟩ :=
    h.overwrite hb hk hone hl hok hfit
  refine ⟨_, _, hm', ⟨hholds, s.overwrite_rows hi .., ⟨k, ?_⟩,
    fun j _ => s.overwrite_offset .., ?_, fun js hjs => ?_, hfree, rfl⟩, rfl⟩
  · exact (set_of_getElem? hi).symm
  · change (((s.blocks.set k (b.rewrite is hok hfit))[0]?.map
      Block.is).getD []) = _
    rw [List.getElem?_set_ne hk]
    rfl
  · obtain ⟨c, hc, rfl⟩ := List.mem_map.mp hjs
    rcases List.mem_or_eq_of_mem_set hc with hc | rfl
    · exact .inl (List.mem_map.mpr ⟨c, hc, rfl⟩)
    · exact .inr rfl

theorem Mask.Holds.store {npix : Nat} {s : Shelf npix} {m : Mask}
    (h : m.Holds s) {i k₀ : Nat} {b₀ : Block} (hi : s.own[i]? = some k₀)
    (hb₀ : s.blocks[k₀]? = some b₀) {l : List Int} {is : List Instr}
    (hl : Packs l is) (hmod : is ≠ b₀.is) (bp : Address) :
    ∃ m' s', m.store (i + 1) (s.offset k₀) l bp = .ok m' ∧
      Updated m s i is m' s' ∧ m'.llnupdates = m.llnupdates := by
  obtain ⟨e, he, -⟩ := s.first
  have hempty : m.storedAt l plEmptyline ↔ is = e.is :=
    h.stores.storedAt_iff he hl
  unfold Mask.store
  by_cases heq : is = e.is
  -- The line shares the empty line.
  · have hne : 0 ≠ k₀ := by
      rintro rfl
      rw [he] at hb₀
      exact hmod (heq.trans (congrArg Block.is (Option.some.inj hb₀)))
    rw [if_pos (hempty.mpr heq), heq]
    exact h.relink_updated hi hb₀ he hne (fun h => absurd rfl h)
      (fun h => absurd rfl h)
  rw [if_neg fun hstored => heq (hempty.mp hstored)]
  by_cases hadj : (i : Int) + 1 > 1 ∧
      Plio.llNref (m.ll (m.lpAt ((i : Int) + 1 - 1))) < maxShort ∧
      m.storedAt l (m.lpAt ((i : Int) + 1 - 1))
  -- The line shares the list of the line before it.
  · rw [if_pos hadj]
    obtain ⟨hgt, hcap, hstored⟩ := hadj
    obtain ⟨j, rfl⟩ : ∃ j, i = j + 1 := ⟨i - 1, by omega⟩
    have hj : j < s.own.length := by
      have := (List.getElem?_eq_some_iff.mp hi).1
      omega
    have hown : s.own[j]? = some s.own[j] := List.getElem?_eq_getElem hj
    obtain ⟨b, hb⟩ := s.exists_owned hown
    have hindex : ((j + 1 : Nat) : Int) + 1 - 1 = (j : Int) + 1 := by omega
    rw [hindex, h.lpAt hown] at hcap hstored
    have his : is = b.is := (h.stores.storedAt_iff hb hl).mp hstored
    have hcap' : toShort b.nref < maxShort := h.stores.llNref hb ▸ hcap
    rw [hindex, h.lpAt hown, his]
    refine h.relink_updated hi hb₀ hb ?_ (fun hk => ?_) (fun hk hzero => ?_)
    · intro hk
      rw [hk, hb₀] at hb
      exact hmod (his.trans (congrArg Block.is (Option.some.inj hb)).symm)
    · rwa [s.toShort_nref hb hk] at hcap'
    · have := s.nref_pos hown hb hk
      omega
  rw [if_neg hadj]
  have hlen : Plio.llLen l = ((llCurhdrlen + (packed is).length : Nat) : Int) := by
    rw [hl.llLen, Nat.cast_add]
    rfl
  have hk₀ := (List.getElem?_eq_some_iff.mp hb₀).1
  have hzero : (s.offset k₀ : Int) = plEmptyline ↔ k₀ = 0 :=
    offset_eq_emptyline_iff hk₀
  have hnref : Plio.llNref (m.ll (s.offset k₀)) = toShort b₀.nref :=
    h.stores.llNref hb₀
  have hblen : Plio.llBlen (m.ll (s.offset k₀)) = b₀.blen :=
    h.stores.llBlen hb₀
  rw [hnref, hblen, hlen]
  split
  next hover =>
    obtain ⟨hone, hfit, hne⟩ := hover
    have hk : k₀ ≠ 0 := mt hzero.mpr hne
    have hpos := s.nref_pos hi hb₀ hk
    rw [s.toShort_nref hb₀ hk] at hone
    exact h.overwrite_updated hi hb₀ hk (by omega) hl (Int.ofNat_le.mp hfit)
  next =>
    obtain ⟨nlp, m₁, m', s', happend, hm', hup⟩ :=
      h.append_updated hi hb₀ hl bp
    refine ⟨m', s', ?_, hup⟩
    rw [happend]
    exact hm'

theorem plUpdate_spec {npix : Nat} {s : Shelf npix} {m : Mask} (h : m.Holds s)
    {v : List Int} {i : Nat} (hv : lineIndex m v = .ok ((i : Int) + 1))
    (hi : i < s.own.length) {l : List Int} {is : List Instr} (hl : Packs l is)
    (bp : Address) :
    ∃ m' s', plUpdate m v l bp = .ok m' ∧ Updated m s i is m' s' ∧
      (m' = m ∧ s' = s ∨ m'.llnupdates = m.llnupdates + 1) := by
  have hown : s.own[i]? = some s.own[i] := List.getElem?_eq_getElem hi
  obtain ⟨b, hb⟩ := s.exists_owned hown
  have hllbp := h.llbp
  have hstored : m.storedAt l (s.offset s.own[i]) ↔ is = b.is :=
    h.stores.storedAt_iff hb hl
  unfold plUpdate
  rw [hv]
  simp only [bind, Except.bind, pure, Except.pure]
  rw [h.lpAt hown, if_neg (by omega)]
  by_cases hsame : is = b.is
  · rw [if_pos (hstored.mpr hsame)]
    refine ⟨m, s, rfl, ⟨h, ?_, ⟨s.own[i], (set_of_getElem? hown).symm⟩,
      fun _ _ => rfl, rfl, fun _ => .inl, by omega, rfl⟩, .inl ⟨rfl, rfl⟩⟩
    rw [hsame]
    exact (set_of_getElem? (s.getElem?_rows hown hb)).symm
  · rw [if_neg (mt hstored.mp hsame)]
    obtain ⟨m', s', hm', hup, hedits⟩ :=
      (h.count_edit (m.llnupdates + 1)).store hown hb hl hsame bp
    exact ⟨m', s', hm', ⟨hup.holds, hup.rows, hup.own, hup.offset, hup.empty,
      hup.lists, hup.llfree, hup.shape⟩, .inr hedits⟩

end Iraf.Plio
