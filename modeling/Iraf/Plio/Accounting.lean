import Mathlib
import Iraf.Plio.MaskRuns

/-!
# The accounts of the line list buffer

The blocks of the buffer, found by walking it, and what the counters of a mask
say about them.

`pl_ssize` makes an empty mask of a descriptor that may have had another one.
It builds the buffers and the shape anew and leaves three counters as they
were, so that the mask is one of `pl_create` but for these.
-/

namespace Iraf.Plio

open Tiling

/-- The offsets met from `i` on by advancing over the blocks. -/
def Mask.walk (m : Mask) : Nat → Int → List Int
  | 0, _ => []
  | n + 1, i =>
      if i < m.llop then i :: m.walk n (i + llBlen (m.ll i)) else []

def Mask.blockOffsets (m : Mask) : List Int := m.walk m.llop.toNat 0

/-- The words of the empty line and of the lists that are referred to. -/
def Mask.liveTotal (m : Mask) : Int :=
  (m.blockOffsets.map fun o =>
    if o = plEmptyline ∨ llNref (m.ll o) > 0 then llLen (m.ll o) else 0).sum

/-- The accounts of a mask are right: the blocks tile the buffer up to
`PL_LLOP`, they are no shorter than their lists, they count the line pointers
that refer to them, and `PL_LLFREE` is what the lists in use leave. -/
structure Mask.Accounted (m : Mask) : Prop where
  tiled : (m.blockOffsets.map fun o => llBlen (m.ll o)).sum = m.llop
  fits : ∀ o ∈ m.blockOffsets,
    0 < llLen (m.ll o) ∧ llLen (m.ll o) ≤ llBlen (m.ll o)
  pointed : ∀ o ∈ m.lp, o ∈ m.blockOffsets
  counted : ∀ o ∈ m.blockOffsets, o ≠ plEmptyline →
    llNref (m.ll o) = m.lp.count o ∧ llNref (m.ll o) ≤ maxShort
  free : m.llfree = m.llop - m.liveTotal

/-- Compressing the mask gives no warning and ends with nothing to free. -/
def Mask.CompressesWell (m : Mask) : Prop :=
  ∀ bp, ∃ m', plCompress m bp = .ok (m', false) ∧
    m'.llop = m.liveTotal ∧ m'.llfree = 0

theorem Mask.walk_blocks {bs : List Block} {m : Mask} {done t : List Int}
    (hbuf : m.llbuf = done ++ (tiles Block.words bs ++ t))
    (hllop : m.llop = (done.length + (tiles Block.words bs).length : Nat))
    {fuel : Nat} (hfuel : bs.length ≤ fuel) :
    m.walk fuel done.length = (List.range bs.length).map fun k : Nat =>
      ((done.length + Tiling.offset Block.words bs k : Nat) : Int) := by
  induction bs generalizing done fuel with
  | nil =>
      have hend : ¬ (done.length : Int) < m.llop := by
        rw [hllop]
        simp
      cases fuel with
      | zero => rfl
      | succ fuel => simp [Mask.walk, hend]
  | cons b bs ih =>
      obtain ⟨fuel, rfl⟩ : ∃ f, fuel = f + 1 :=
        ⟨fuel - 1, by simp at hfuel; omega⟩
      rw [tiles_cons, List.append_assoc] at hbuf
      rw [tiles_cons, List.length_append, Block.length_words] at hllop
      have hpos := b.words_pos
      rw [Block.length_words] at hpos
      have hblen : llBlen (m.ll done.length) = b.blen := by
        rw [Mask.ll_append hbuf, b.llBlen_words]
      have hnext : (done.length : Int) + b.blen = (done ++ b.words).length := by
        rw [List.length_append, Block.length_words, Nat.cast_add]
      have hrun := @ih (done ++ b.words)
        (by rw [List.append_assoc, hbuf])
        (by rw [List.length_append, Block.length_words, hllop]; omega)
        fuel (by simpa using hfuel)
      rw [Mask.walk, if_pos (by omega), hblen, hnext, hrun, List.length_cons,
        List.range_succ_eq_map, List.map_cons, List.map_map,
        Tiling.offset_zero, Nat.add_zero]
      congr 1
      refine List.map_congr_left fun k _ => ?_
      rw [Function.comp_apply, offset_cons_succ, List.length_append,
        Nat.add_assoc]

section Holds

variable {npix : Nat} {s : Shelf npix} {m : Mask}

theorem Mask.Holds.blockOffsets (h : m.Holds s) :
    m.blockOffsets =
      (List.range s.blocks.length).map fun k : Nat => (s.offset k : Int) := by
  obtain ⟨t, ht⟩ := h.stores
  have hlen := length_le_tiles s.blocks
  have hllop : m.llop = ((tiles Block.words s.blocks).length : Nat) := h.llop
  have hwalk := @Mask.walk_blocks _ _ [] _ ht
    (by rw [hllop, List.length_nil, Nat.zero_add]) m.llop.toNat (by omega)
  simpa [Mask.blockOffsets, Shelf.offset] using hwalk

theorem Mask.Holds.map_blockOffsets (h : m.Holds s) {f : Int → Int}
    {g : Block → Int}
    (hfg : ∀ k b, s.blocks[k]? = some b → f (s.offset k) = g b) :
    m.blockOffsets.map f = s.blocks.map g := by
  rw [h.blockOffsets, List.map_map]
  refine List.ext_getElem (by simp) fun k hk _ => ?_
  have hk' : k < s.blocks.length := by simpa using hk
  simpa using hfg k _ (List.getElem?_eq_getElem hk')

theorem Mask.Holds.exists_of_mem (h : m.Holds s) {o : Int}
    (ho : o ∈ m.blockOffsets) :
    ∃ k b, s.blocks[k]? = some b ∧ o = s.offset k := by
  rw [h.blockOffsets] at ho
  obtain ⟨k, hk, rfl⟩ := List.mem_map.mp ho
  exact ⟨k, _, List.getElem?_eq_getElem (List.mem_range.mp hk), rfl⟩

theorem Mask.Holds.count_offset (h : m.Holds s) {k : Nat}
    (hk : k < s.blocks.length) :
    m.lp.count (s.offset k : Int) = s.own.count k := by
  rw [h.lp, List.count_eq_countP, List.countP_map, List.count_eq_countP]
  refine List.countP_congr fun x hx => ?_
  have hinj : s.offset x = s.offset k ↔ x = k :=
    offset_inj Block.words Block.words_pos (s.owned x hx) hk
  simp only [Function.comp_apply, beq_iff_eq, Nat.cast_inj, hinj]

theorem Mask.Holds.liveTotal (h : m.Holds s) :
    m.liveTotal = Shelf.liveSum s.blocks := by
  have hzero : ∀ k b, s.blocks[k]? = some b →
      (if (s.offset k : Int) = plEmptyline ∨ llNref (m.ll (s.offset k)) > 0 then
        llLen (m.ll (s.offset k)) else 0) =
      if k = 0 then (b.len : Int) else Shelf.live b := by
    intro k b hb
    have hempty : (s.offset k : Int) = plEmptyline ↔ k = 0 :=
      offset_eq_emptyline_iff (List.getElem?_eq_some_iff.mp hb).1
    have hnref : llNref (m.ll (s.offset k)) = toShort b.nref :=
      h.stores.llNref hb
    have hlen : llLen (m.ll (s.offset k)) = b.len := h.stores.llLen hb
    rw [hnref, hlen, Shelf.live]
    by_cases hk : k = 0
    · rw [if_pos (.inl (hempty.mpr hk)), if_pos hk]
    · rw [if_neg hk, s.toShort_nref hb hk]
      exact if_congr (or_iff_right (mt hempty.mp hk)) rfl rfl
  have hmap : m.blockOffsets.map (fun o =>
      if o = plEmptyline ∨ llNref (m.ll o) > 0 then llLen (m.ll o) else 0) =
      s.blocks.mapIdx fun k b => if k = 0 then (b.len : Int) else Shelf.live b := by
    rw [h.blockOffsets, List.map_map]
    refine List.ext_getElem (by simp) fun k hk _ => ?_
    have hk' : k < s.blocks.length := by simpa using hk
    simpa using hzero k _ (List.getElem?_eq_getElem hk')
  rw [Mask.liveTotal, hmap]
  cases s.blocks with
  | nil => rfl
  | cons e bs =>
      have hrest : bs.mapIdx (fun k b =>
          if k + 1 = 0 then (b.len : Int) else Shelf.live b) =
          bs.map Shelf.live := List.ext_getElem (by simp) (by simp)
      rw [List.mapIdx_cons, List.sum_cons, Shelf.liveSum, hrest, if_pos rfl]

theorem Mask.Holds.accounted (h : m.Holds s) (hfree : m.llfree = s.freed) :
    m.Accounted := by
  have hllop := h.llop
  constructor
  · rw [h.map_blockOffsets (g := fun b => b.blen)
      fun k b hb => h.stores.llBlen hb, hllop]
    change _ = ((tiles Block.words s.blocks).length : Int)
    generalize s.blocks = bs
    induction bs with
    | nil => rfl
    | cons b bs ih =>
        rw [List.map_cons, List.sum_cons, ih, tiles_cons, List.length_append,
          Block.length_words, Nat.cast_add]
  · intro o ho
    obtain ⟨k, b, hb, rfl⟩ := h.exists_of_mem ho
    have hlen : llLen (m.ll (s.offset k)) = b.len := h.stores.llLen hb
    have hblen : llBlen (m.ll (s.offset k)) = b.blen := h.stores.llBlen hb
    have hpos := b.len_pos
    have hle := b.len_le_blen
    omega
  · intro o ho
    rw [h.lp] at ho
    obtain ⟨k, hk, rfl⟩ := List.mem_map.mp ho
    rw [h.blockOffsets]
    exact List.mem_map.mpr ⟨k, List.mem_range.mpr (s.owned k hk), rfl⟩
  · intro o ho hne
    obtain ⟨k, b, hb, rfl⟩ := h.exists_of_mem ho
    have hlt := (List.getElem?_eq_some_iff.mp hb).1
    have hk : k ≠ 0 := mt (offset_eq_emptyline_iff hlt).mpr hne
    have hnref : llNref (m.ll (s.offset k)) = toShort b.nref :=
      h.stores.llNref hb
    rw [h.count_offset hlt, hnref, s.toShort_nref hb hk]
    exact s.counted k b hb hk
  · rw [h.liveTotal, hfree, hllop, Shelf.freed]

theorem Mask.Holds.compressesWell (h : m.Holds s) (hfree : m.llfree = s.freed)
    (hsettled : m.llnupdates ≤ 0 → s.freed = 0) : m.CompressesWell := by
  intro bp
  have htotal := h.liveTotal
  have hllop := h.llop
  by_cases hedits : 0 < m.llnupdates
  · obtain ⟨lp, hok, -⟩ := plCompress_eq h hedits bp
    rw [decide_eq_false (not_not.mpr hfree)] at hok
    exact ⟨_, hok, htotal.symm, rfl⟩
  · refine ⟨m, plCompress_redundant (by omega) bp, ?_, ?_⟩
    · have hzero := hsettled (by omega)
      rw [Shelf.freed] at hzero
      omega
    · rw [hfree, hsettled (by omega)]

end Holds

/-- After a history the accounts are right, and compressing ends well. -/
def AccountsKept (pl : Mask) (axlen : List Int) (depth : Int) (bp : Address)
    (ops : List MaskOp) : Prop :=
  ∃ m₀ m, plSsize pl axlen depth bp = .ok m₀ ∧ runOps m₀ ops = .ok m ∧
    m.Accounted ∧ m.CompressesWell

/-- In a history whose operations all fit, on a descriptor that had nothing to
free when it was sized, the accounts are right. -/
theorem accounts_kept {pl : Mask} (hpl : Descriptor pl) {axlen : List Int}
    (hax : Axes axlen) (depth : Int) (bp : Address) {ops : List MaskOp}
    (hops : ∀ op ∈ ops, op.Legal axlen)
    (hfit : SizedFits pl axlen depth bp ops) (hfree : pl.llfree = 0) :
    AccountsKept pl axlen depth bp ops := by
  obtain ⟨m₀, m, s, hm₀, hm, hinv⟩ := hfit.run hpl.counts hax hops
  have hbalance := hinv.balanced hfree
  exact ⟨m₀, m, hm₀, hm, hinv.holds.accounted hbalance,
    hinv.holds.compressesWell hbalance hinv.settled⟩

theorem accounts_kept_two :
    AccountsKept plOpen [3, 2] 1 ⟨1, by decide⟩ twoLines :=
  accounts_kept .opened (by decide) 1 ⟨1, by decide⟩ twoLines_legal
    (by decide +kernel) rfl

/-- The first line of a mask is stored and then emptied. -/
def emptied : List MaskOp :=
  [.update [1, 1] (fun i => i - 1) 1 ⟨1, Int.one_pos⟩,
    .update [1, 1] (fun _ => 0) 1 ⟨1, Int.one_pos⟩]

/-- A mask with words to free. -/
def reusedMask : Mask :=
  (plSsize plOpen [3, 2] 1 ⟨1, Int.one_pos⟩ >>= fun m =>
    runOps m emptied).toOption.getD plOpen

theorem descriptor_reusedMask : Descriptor reusedMask := by
  unfold reusedMask
  cases hres : plSsize plOpen [3, 2] 1 ⟨1, by decide⟩ >>= fun m =>
      runOps m emptied with
  | error e => exact .opened
  | ok m =>
      obtain ⟨m₀, hm₀, hm⟩ := bind_eq_ok.mp hres
      refine .used .opened (by decide) (fun op hop => ?_) (by decide +kernel)
        hm₀ hm
      simp only [emptied, List.mem_cons, List.not_mem_nil, or_false] at hop
      rcases hop with rfl | rfl
      · exact twoLines_legal _ (.head _)
      · exact twoLines_legal _ (.tail _ (.tail _ (.head _)))

/-- `pl_ssize` leaves the words that were to be freed in `PL_LLFREE`. -/
theorem not_accountsKept_reused :
    Descriptor reusedMask ∧ Axes [3, 2] ∧
      ¬ AccountsKept reusedMask [3, 2] 1 ⟨1, by decide⟩ [] := by
  refine ⟨descriptor_reusedMask, by decide, ?_⟩
  rintro ⟨m₀, m, hm₀, hm, hacc, -⟩
  obtain rfl : m₀ = m := Except.ok.inj hm
  have hfree : (plSsize reusedMask [3, 2] 1 ⟨1, by decide⟩).toOption.map
      (fun m => decide (m.llfree = m.llop - m.liveTotal)) = some false := by
    decide +kernel
  rw [hm₀] at hfree
  exact absurd hacc.free (of_decide_eq_false (Option.some.inj hfree))

/-! ## Sizing a mask again -/

/-- An update with any line list, or a compression. -/
inductive MaskEdit where
  | update (v ll : List Int) (bp : Address)
  | compress (bp : Address)

/-- The mask after an edit, and whether the warning about the free space is given. -/
def MaskEdit.run (m : Mask) : MaskEdit → Except PlErr (Mask × Bool)
  | update v ll bp => (plUpdate m v ll bp).map fun m => (m, false)
  | compress bp => plCompress m bp

/-- The mask after a sequence of edits, and their warnings. -/
def runEdits : Mask → List MaskEdit → Except PlErr (Mask × List Bool)
  | m, [] => .ok (m, [])
  | m, op :: ops => do
      let (m, warning) ← op.run m
      let (m, warnings) ← runEdits m ops
      return (m, warning :: warnings)

/-- A descriptor that is sized has the accounts and the counters of a new mask, and takes
every sequence of edits as a new mask does. -/
def ResizesFresh (pl : Mask) (axlen : List Int) (depth : Int) (bp : Address) : Prop :=
  ∃ m new, plSsize pl axlen depth bp = .ok m ∧ plCreate axlen depth bp = .ok new ∧
    m.llfree = m.llop - m.liveTotal ∧ m.llnupdates = new.llnupdates ∧ m.llinc = new.llinc ∧
    ∀ ops, runEdits m ops = runEdits new ops

/-- The counters that `pl_ssize` does not set. -/
def Mask.withCounters (m : Mask) (llfree llnupdates llinc : Int) : Mask :=
  { m with llfree := llfree, llnupdates := llnupdates, llinc := llinc }

/-- Sizing a descriptor makes a new mask with the counters of the descriptor. -/
theorem plSsize_eq_plCreate (pl : Mask) (axlen : List Int) (depth : Int) (bp : Address) :
    plSsize pl axlen depth bp = (plCreate axlen depth bp).map fun m =>
      m.withCounters pl.llfree pl.llnupdates pl.llinc := by
  unfold plCreate plSsize
  simp only [bind, Except.bind]
  cases amovs (plP2l (fun _ => 0) 1 (word axlen 1)) (malloc plLlbuflen) 0 with
  | error f => rfl
  | ok llbuf =>
      simp only
      cases setNrefs llbuf 0 ((axlen.drop 1).prod.toNat : Int) with
      | error f => rfl
      | ok llbuf =>
          simp only
          cases setBlen llbuf 0 ((plP2l (fun _ => 0) 1 (word axlen 1)).length : Int) with
          | error f => rfl
          | ok llbuf => rfl

variable {pl : Mask} {axlen : List Int} {depth : Int} {bp : Address}

theorem plCreate_counters {new : Mask} (h : plCreate axlen depth bp = .ok new) :
    new.withCounters 0 0 plStartinc = new := by
  have heq := plSsize_eq_plCreate plOpen axlen depth bp
  rw [show plSsize plOpen axlen depth bp = .ok new from h, h] at heq
  exact (Except.ok.inj heq).symm

theorem ResizesFresh.counters (h : ResizesFresh pl axlen depth bp) :
    pl.llnupdates = 0 ∧ pl.llinc = plStartinc := by
  obtain ⟨m, new, hm, hnew, -, hedits, hinc, -⟩ := h
  have hinit := plCreate_counters hnew
  have heq := plSsize_eq_plCreate pl axlen depth bp
  rw [hm, hnew] at heq
  obtain rfl := Except.ok.inj heq
  have hedits₀ : 0 = new.llnupdates := congrArg Mask.llnupdates hinit
  have hinc₀ : plStartinc = new.llinc := congrArg Mask.llinc hinit
  exact ⟨hedits.trans hedits₀.symm, hinc.trans hinc₀.symm⟩

/-- With a right increment the accounts are right when nothing was to be freed. -/
theorem ResizesFresh.llfree (hax : Axes axlen) (hfits : EmptyLineFits (word axlen 1))
    (h : ResizesFresh pl axlen depth bp) : pl.llfree = 0 := by
  have hinc : 0 < pl.llinc := by
    rw [h.counters.2]
    decide
  obtain ⟨m, new, hm, -, hfree, -⟩ := h
  obtain ⟨m', s, hm', hholds, -, hfreed, -, -, -, hllfree, -⟩ :=
    plSsize_spec hax hfits hinc depth bp
  obtain rfl := Except.ok.inj (hm.symm.trans hm')
  have hllop := hholds.llop
  rw [hholds.liveTotal] at hfree
  rw [Shelf.freed] at hfreed
  omega

/-- Sizing a descriptor makes a mask like a new one when the empty line fits the first
buffer and the counters of the descriptor are those of a new one. -/
theorem resizesFresh_iff (pl : Mask) {axlen : List Int} (hax : Axes axlen) (depth : Int)
    (bp : Address) :
    ResizesFresh pl axlen depth bp ↔
      EmptyLineFits (word axlen 1) ∧ pl.llfree = 0 ∧ pl.llnupdates = 0 ∧
        pl.llinc = plStartinc := by
  constructor
  · intro h
    have hfits : EmptyLineFits (word axlen 1) := by
      by_contra hwide
      obtain ⟨m, new, hm, -⟩ := h
      rw [plSsize_fault (word_one_pos hax) hwide] at hm
      nomatch hm
    exact ⟨hfits, h.llfree hax hfits, h.counters⟩
  · rintro ⟨hfits, hfree, hedits, hinc⟩
    obtain ⟨m, s, hm, hholds, -, hfreed, -, -, -, hllfree, -⟩ :=
      plSsize_spec hax hfits (show 0 < pl.llinc by rw [hinc]; decide) depth bp
    have heq : plCreate axlen depth bp = .ok m := by
      rw [← hm, plSsize_eq_plCreate pl, hfree, hedits, hinc]
      exact plSsize_eq_plCreate plOpen axlen depth bp
    have hllop := hholds.llop
    refine ⟨m, m, hm, heq, ?_, rfl, rfl, fun _ => rfl⟩
    rw [hholds.liveTotal]
    rw [Shelf.freed] at hfreed
    omega

/-- A descriptor that was only opened. -/
theorem resizesFresh_opened : ResizesFresh plOpen [3, 2] 1 ⟨1, by decide⟩ :=
  (resizesFresh_iff plOpen (by decide) 1 ⟨1, by decide⟩).mpr (by decide)

/-- A mask that was updated keeps the number of its updates when it is sized again. -/
theorem not_resizesFresh_reused :
    Descriptor reusedMask ∧ Axes [3, 2] ∧
      ¬ ResizesFresh reusedMask [3, 2] 1 ⟨1, by decide⟩ := by
  refine ⟨descriptor_reusedMask, by decide, fun h => ?_⟩
  have hedits : reusedMask.llnupdates = 2 := by decide +kernel
  rw [h.counters.1] at hedits
  nomatch hedits

end Iraf.Plio
