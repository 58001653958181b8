import Iraf.Lib.StepMachine
import Iraf.Plio.Empty

/-!
# Histories of a mask

Sequences of `pl_update`, `pl_compress` and `pl_clear` on a mask sized by
`pl_ssize`.  While no list outgrows the words that describe it, every line reads
back as it was stored last, and the accounts of the line list buffer are right.
-/

namespace Iraf.Plio

open Tiling

/-! ## Operations -/

/-- An operation on a mask; `bp` is where its buffer goes if it is moved.  The
list of an update is that of the pixels `px` from `xs` on. -/
inductive MaskOp where
  | update (v : List Int) (px : Int → Int) (xs : Int) (bp : Address)
  | compress (bp : Address)
  | clear (bp : Address)

namespace MaskOp

def run (m : Mask) : MaskOp → Except PlErr Mask
  | update v px xs bp => plUpdate m v (plP2l px xs (m.axlenAt 1)) bp
  | compress bp => (plCompress m bp).map Prod.fst
  | clear bp => plClear m bp

/-- The line is in the mask, and its pixels fit the format. -/
def Legal (axlen : List Int) : MaskOp → Prop
  | update v px xs _ => OnLine axlen v ∧
      ∀ i, xs ≤ i → i ≤ xs + word axlen 1 - 1 → px i ≤ iPvmax
  | _ => True

/-- The list stored fits its length words, and the lists moved their tags. -/
def Fits (m : Mask) : MaskOp → Prop
  | update _ px xs _ => (plP2l px xs (m.axlenAt 1)).length < 2 ^ 30
  | compress _ => 0 < m.llnupdates → m.TagsFit
  | clear _ => True

/-- The lines of a mask after an operation, from those before. -/
def draw (axlen : List Int) (rows : List (List Int)) :
    MaskOp → List (List Int)
  | update v px xs _ =>
      rows.set (lineNumber axlen v) (pixels px xs (word axlen 1).toNat)
  | compress _ => rows
  | clear _ =>
      List.replicate (lineCount axlen)
        (List.replicate (word axlen 1).toNat 0)

end MaskOp

def runOps : Mask → List MaskOp → Except PlErr Mask
  | m, [] => .ok m
  | m, op :: ops => do
      let m ← op.run m
      runOps m ops

instance (m : Mask) : DecidablePred (MaskOp.Fits m) := fun op => by
  cases op <;> unfold MaskOp.Fits <;> infer_instance

/-- Every operation of a history fits the mask it meets. -/
def RunFits : Mask → List MaskOp → Prop
  | _, [] => True
  | m, op :: ops => op.Fits m ∧
      match op.run m with
      | .ok m' => RunFits m' ops
      | .error _ => True

instance decidableRunFits : (m : Mask) → (ops : List MaskOp) →
    Decidable (RunFits m ops)
  | _, [] => .isTrue trivial
  | m, op :: ops =>
      match h : op.run m with
      | .ok m' =>
          have := decidableRunFits m' ops
          decidable_of_iff (op.Fits m ∧ RunFits m' ops) (by rw [RunFits, h])
      | .error e => decidable_of_iff (op.Fits m) (by simp [RunFits, h])

/-- A mask can be sized, and the history then fits. -/
def SizedFits (pl : Mask) (axlen : List Int) (depth : Int) (bp : Address)
    (ops : List MaskOp) : Prop :=
  EmptyLineFits (word axlen 1) ∧
    match plSsize pl axlen depth bp with
    | .ok m => RunFits m ops
    | .error _ => True

instance (pl : Mask) (axlen : List Int) (depth : Int) (bp : Address)
    (ops : List MaskOp) : Decidable (SizedFits pl axlen depth bp ops) := by
  unfold SizedFits
  split <;> infer_instance

/-- The lines of a mask of zeros after a history. -/
def picture (axlen : List Int) (ops : List MaskOp) : List (List Int) :=
  ops.foldl (MaskOp.draw axlen)
    (List.replicate (lineCount axlen)
      (List.replicate (word axlen 1).toNat 0))

/-! ## The invariant of a history -/

/-- The mask holds a shelf with the given lines.  Only a mask whose accounts
were right when it was sized (`acc`) keeps them right. -/
structure MaskInv (axlen : List Int) (acc : Prop) (rows : List (List Int))
    (m : Mask) (s : Shelf (word axlen 1).toNat) : Prop where
  holds : m.Holds s
  rows : s.rows = rows
  axes : m.HasAxes axlen
  lines : s.own.length = lineCount axlen
  roomy : llCurhdrlen + (packed (s.listAt 0)).length ≤ plLlbuflen
  edits : 0 ≤ m.llnupdates
  settled : m.llnupdates ≤ 0 → s.freed = 0
  balanced : acc → m.llfree = s.freed

theorem Mask.HasAxes.of_shape {m m' : Mask} {axlen : List Int}
    (h : m.HasAxes axlen) (hshape : m'.shape = m.shape) : m'.HasAxes axlen := by
  simp only [Mask.shape, Prod.mk.injEq] at hshape
  obtain ⟨-, -, hnaxes, haxlen, -⟩ := hshape
  exact ⟨hnaxes.trans h.1, haxlen.trans h.2⟩

theorem Mask.HasAxes.axlenAt_one {m : Mask} {axlen : List Int}
    (h : m.HasAxes axlen) (hax : Axes axlen) : m.axlenAt 1 = word axlen 1 := by
  obtain ⟨a, as, rfl⟩ := List.exists_cons_of_length_pos hax.1
  rw [Mask.axlenAt, h.2]
  rfl

theorem word_one_pos {axlen : List Int} (hax : Axes axlen) :
    0 < word axlen 1 := by
  obtain ⟨a, as, rfl⟩ := List.exists_cons_of_length_pos hax.1
  exact hax.2.2 a (by simp)

namespace MaskInv

variable {axlen : List Int} {acc : Prop} {rows : List (List Int)} {m : Mask}
  {s : Shelf (word axlen 1).toNat}

theorem update (h : MaskInv axlen acc rows m s) (hax : Axes axlen)
    {v : List Int} (hv : OnLine axlen v) {l : List Int} {is : List Instr}
    (hl : Packs l is) (bp : Address) :
    ∃ m' s', plUpdate m v l bp = .ok m' ∧
      MaskInv axlen acc (rows.set (lineNumber axlen v) (expand 1 is)) m' s' := by
  have hlt := hv.lineNumber_lt
  rw [← h.lines] at hlt
  obtain ⟨m', s', hm', hup, hedits⟩ :=
    plUpdate_spec h.holds (lineIndex_eq h.axes hax hv) hlt hl bp
  have hcount := h.edits
  refine ⟨m', s', hm', hup.holds, by rw [hup.rows, h.rows],
    h.axes.of_shape hup.shape, ?_, by rw [hup.empty]; exact h.roomy, ?_, ?_, ?_⟩
  · obtain ⟨k, hk⟩ := hup.own
    rw [hk, List.length_set, h.lines]
  · rcases hedits with ⟨rfl, -⟩ | hedits <;> omega
  · intro hzero
    rcases hedits with ⟨rfl, rfl⟩ | hedits
    · exact h.settled hzero
    · omega
  · intro hacc
    have hfree := hup.llfree
    have hold := h.balanced hacc
    omega

theorem compress (h : MaskInv axlen acc rows m s)
    (hfit : 0 < m.llnupdates → m.TagsFit) (bp : Address) :
    ∃ m' s' warning, plCompress m bp = .ok (m', warning) ∧
      MaskInv axlen acc rows m' s' := by
  by_cases hedits : 0 < m.llnupdates
  · obtain ⟨m', hm', hholds, hfree, hzero, -, hshape⟩ :=
      plCompress_spec h.holds (hfit hedits) hedits bp
    refine ⟨m', s.compress, _, hm', hholds, by rw [Shelf.compress_rows, h.rows],
      h.axes.of_shape hshape, ?_, by rw [Shelf.compress_empty]; exact h.roomy,
      by omega, fun _ => Shelf.compress_freed, fun _ => ?_⟩
    · rw [← h.lines]
      exact List.length_map _
    · rw [hfree, Shelf.compress_freed]
  · exact ⟨m, s, false, plCompress_redundant (by omega) bp, h⟩

theorem clear (h : MaskInv axlen acc rows m s) (bp : Address) :
    ∃ m' s', plClear m bp = .ok m' ∧
      MaskInv axlen acc (List.replicate (lineCount axlen)
        (List.replicate (word axlen 1).toNat 0)) m' s' := by
  obtain ⟨m', s', hm', hholds, hrows, hfreed, -, hempty, hfree, hedits,
    hshape⟩ := plClear_spec h.holds h.roomy bp
  refine ⟨m', s', hm', hholds, by rw [hrows, h.lines],
    h.axes.of_shape hshape, ?_, by rw [hempty]; exact h.roomy, by omega,
    fun _ => hfreed, fun _ => by rw [hfree, hfreed]⟩
  have hlen := congrArg List.length hrows
  rwa [Shelf.rows, List.length_map, List.length_replicate, h.lines] at hlen

theorem step (h : MaskInv axlen acc rows m s) (hax : Axes axlen) {op : MaskOp}
    (hop : op.Legal axlen) (hfit : op.Fits m) :
    ∃ m' s', op.run m = .ok m' ∧
      MaskInv axlen acc (op.draw axlen rows) m' s' := by
  cases op with
  | update v px xs bp =>
      rw [MaskOp.Fits, h.axes.axlenAt_one hax] at hfit
      obtain ⟨is, -, hpacks, hline, -⟩ :=
        plP2l_packs px xs (word_one_pos hax) hop.2 hfit
      obtain ⟨m', s', hm', hinv⟩ := h.update hax hop.1 hpacks bp
      rw [hline] at hinv
      refine ⟨m', s', ?_, hinv⟩
      rw [MaskOp.run, h.axes.axlenAt_one hax, hm']
  | compress bp =>
      obtain ⟨m', s', warning, hm', hinv⟩ := h.compress hfit bp
      refine ⟨m', s', ?_, hinv⟩
      rw [MaskOp.run, hm']
      rfl
  | clear bp => exact h.clear bp

theorem run (h : MaskInv axlen acc rows m s) (hax : Axes axlen)
    {ops : List MaskOp} (hops : ∀ op ∈ ops, op.Legal axlen)
    (hfit : RunFits m ops) :
    ∃ m' s', runOps m ops = .ok m' ∧
      MaskInv axlen acc (ops.foldl (MaskOp.draw axlen) rows) m' s' := by
  induction ops generalizing rows m s with
  | nil => exact ⟨m, s, rfl, h⟩
  | cons op ops ih =>
      obtain ⟨m₁, s₁, hm₁, hinv⟩ := h.step hax (hops op (by simp)) hfit.1
      have hrest := hfit.2
      rw [hm₁] at hrest
      obtain ⟨m', s', hm', hinv'⟩ := ih hinv
        (fun o ho => hops o (by simp [ho])) hrest
      exact ⟨m', s', bind_eq_ok.mpr ⟨m₁, hm₁, hm'⟩, hinv'⟩

end MaskInv

/-! ## Descriptors -/

/-- The counters that no procedure makes negative. -/
def Mask.Counts (m : Mask) : Prop := 0 < m.llinc ∧ 0 ≤ m.llnupdates

theorem plSsize_inv {pl : Mask} (hpl : pl.Counts) {axlen : List Int}
    (hax : Axes axlen) (hempty : EmptyLineFits (word axlen 1)) (depth : Int)
    (bp : Address) :
    ∃ m s, plSsize pl axlen depth bp = .ok m ∧
      MaskInv axlen (pl.llfree = 0) (picture axlen []) m s := by
  obtain ⟨hinc, hedits⟩ := hpl
  obtain ⟨m, s, hm, hholds, hrows, hfreed, -, hroomy, haxes, hfree, hupdates,
    -⟩ := plSsize_spec hax hempty hinc depth bp
  have hlen := congrArg List.length hrows
  rw [Shelf.rows, List.length_map, List.length_replicate] at hlen
  exact ⟨m, s, hm, hholds, hrows, haxes, hlen, hroomy, by omega,
    fun _ => hfreed, fun hzero => by omega⟩

theorem SizedFits.run {pl : Mask} {axlen : List Int} {depth : Int}
    {bp : Address} {ops : List MaskOp} (h : SizedFits pl axlen depth bp ops)
    (hpl : pl.Counts) (hax : Axes axlen)
    (hops : ∀ op ∈ ops, op.Legal axlen) :
    ∃ m₀ m s, plSsize pl axlen depth bp = .ok m₀ ∧ runOps m₀ ops = .ok m ∧
      MaskInv axlen (pl.llfree = 0) (picture axlen ops) m s := by
  obtain ⟨m₀, s₀, hm₀, hinv₀⟩ := plSsize_inv hpl hax h.1 depth bp
  have hfit := h.2
  rw [hm₀] at hfit
  obtain ⟨m, s, hm, hinv⟩ := hinv₀.run hax hops hfit
  exact ⟨m₀, m, s, hm₀, hm, hinv⟩

/-- A descriptor: one that was opened, or used for masks whose histories all
fit. -/
inductive Descriptor : Mask → Prop
  | opened : Descriptor plOpen
  | used {pl m₀ m : Mask} {axlen : List Int} {depth : Int} {bp : Address}
      {ops : List MaskOp} (hpl : Descriptor pl) (hax : Axes axlen)
      (hops : ∀ op ∈ ops, op.Legal axlen)
      (hfit : SizedFits pl axlen depth bp ops)
      (hm₀ : plSsize pl axlen depth bp = .ok m₀) (hm : runOps m₀ ops = .ok m) :
      Descriptor m

theorem Descriptor.inv {m : Mask} (h : Descriptor m) :
    m = plOpen ∨ ∃ axlen acc rows s, Axes axlen ∧ MaskInv axlen acc rows m s := by
  have hcounts : ∀ m, (m = plOpen ∨ ∃ axlen acc rows s,
      Axes axlen ∧ MaskInv axlen acc rows m s) → m.Counts := by
    rintro m (rfl | ⟨axlen, acc, rows, s, -, hinv⟩)
    · exact ⟨by decide, by decide⟩
    · exact ⟨hinv.holds.llinc, hinv.edits⟩
  induction h with
  | opened => exact .inl rfl
  | used _ hax hops hfit hm₀ hm ih =>
      obtain ⟨m₀', m', s, hm₀', hm', hinv⟩ := hfit.run (hcounts _ ih) hax hops
      obtain rfl := Except.ok.inj (hm₀.symm.trans hm₀')
      obtain rfl := Except.ok.inj (hm.symm.trans hm')
      exact .inr ⟨_, _, _, s, hax, hinv⟩

theorem Descriptor.counts {m : Mask} (h : Descriptor m) : m.Counts := by
  rcases h.inv with rfl | ⟨axlen, acc, rows, s, -, hinv⟩
  · exact ⟨by decide, by decide⟩
  · exact ⟨hinv.holds.llinc, hinv.edits⟩

/-! ## The lines of a mask -/

/-- Every line, found through its line pointer, decodes to the given pixels. -/
def Mask.Shows (m : Mask) (npix : Int) (rows : List (List Int)) : Prop :=
  ∀ (i : Nat) (line : List Int), rows[i]? = some line →
    plL2p (m.ll (m.lpAt ((i : Int) + 1))) 1 npix = line

/-- A mask that was sized and edited shows what was stored in its lines. -/
def LinesKept (pl : Mask) (axlen : List Int) (depth : Int) (bp : Address)
    (ops : List MaskOp) : Prop :=
  ∃ m₀ m, plSsize pl axlen depth bp = .ok m₀ ∧ runOps m₀ ops = .ok m ∧
    (picture axlen ops).length = lineCount axlen ∧
    m.Shows (word axlen 1) (picture axlen ops)

theorem Mask.Holds.encodes {npix : Nat} {s : Shelf npix} {m : Mask}
    (h : m.Holds s) {i : Nat} {line : List Int} (hi : s.rows[i]? = some line) :
    Encodes (m.ll (m.lpAt ((i : Int) + 1))) line := by
  rw [Shelf.rows, List.getElem?_map, Option.map_eq_some_iff] at hi
  obtain ⟨k, hk, rfl⟩ := hi
  obtain ⟨b, hb⟩ := s.exists_owned hk
  rw [h.lpAt hk, Shelf.listAt_eq hb]
  exact encodes_iff.mpr ⟨b.is, h.stores.packs hb, rfl⟩

theorem length_draw {axlen : List Int} {rows : List (List Int)}
    (h : rows.length = lineCount axlen ∧
      ∀ line ∈ rows, line.length = (word axlen 1).toNat) (op : MaskOp) :
    (op.draw axlen rows).length = lineCount axlen ∧
      ∀ line ∈ op.draw axlen rows, line.length = (word axlen 1).toNat := by
  cases op with
  | update v px xs bp =>
      refine ⟨by rw [MaskOp.draw, List.length_set, h.1], fun line hline => ?_⟩
      rcases List.mem_or_eq_of_mem_set hline with hline | rfl
      · exact h.2 line hline
      · exact length_pixels _ _ _
  | compress bp => exact h
  | clear bp =>
      refine ⟨List.length_replicate, fun line hline => ?_⟩
      rw [List.eq_of_mem_replicate hline, List.length_replicate]

theorem length_picture (axlen : List Int) (ops : List MaskOp) :
    (picture axlen ops).length = lineCount axlen ∧
      ∀ line ∈ picture axlen ops, line.length = (word axlen 1).toNat := by
  refine List.foldlRecOn ops (MaskOp.draw axlen)
    (motive := fun rows => rows.length = lineCount axlen ∧
      ∀ line ∈ rows, line.length = (word axlen 1).toNat) ⟨?_, ?_⟩
    fun rows h op _ => length_draw h op
  · exact List.length_replicate
  · intro line hline
    rw [List.eq_of_mem_replicate hline, List.length_replicate]

/-- In a history whose operations all fit, every line of a mask reads back as
it was stored last. -/
theorem mask_lines_kept {pl : Mask} (hpl : Descriptor pl) {axlen : List Int}
    (hax : Axes axlen) (depth : Int) (bp : Address) {ops : List MaskOp}
    (hops : ∀ op ∈ ops, op.Legal axlen)
    (hfit : SizedFits pl axlen depth bp ops) :
    LinesKept pl axlen depth bp ops := by
  obtain ⟨m₀, m, s, hm₀, hm, hinv⟩ := hfit.run hpl.counts hax hops
  obtain ⟨hlen, hlines⟩ := length_picture axlen ops
  refine ⟨m₀, m, hm₀, hm, hlen, fun i line hline => ?_⟩
  have hrow : s.rows[i]? = some line := by
    rw [hinv.rows]
    exact hline
  have hsize := hlines line (List.mem_of_getElem? hline)
  have hpos := word_one_pos hax
  have hread := plL2p_eq_line (hinv.holds.encodes hrow)
    (List.length_pos_iff.mp (by omega))
  rwa [hsize, Int.toNat_of_nonneg (Int.le_of_lt hpos)] at hread

/-- A history of a mask of two lines of three pixels: the first line is stored,
shared by the second, taken away again and what is left moved. -/
def twoLines : List MaskOp :=
  [.update [1, 1] (fun i => i - 1) 1 ⟨1, Int.one_pos⟩,
    .update [1, 2] (fun i => i - 1) 1 ⟨1, Int.one_pos⟩,
    .update [1, 1] (fun _ => 0) 1 ⟨1, Int.one_pos⟩,
    .compress ⟨2, by decide⟩]

theorem twoLines_legal : ∀ op ∈ twoLines, op.Legal [3, 2] := by
  have hline : ∀ y : Int, 1 ≤ y ∧ y ≤ 2 → OnLine [3, 2] [1, y] := by
    intro y hy i hlo hhi
    obtain rfl : i = 2 := Nat.le_antisymm hhi hlo
    exact hy
  have hpx : ∀ i : Int, 1 ≤ i → i ≤ 1 + 3 - 1 → i - 1 ≤ iPvmax := by
    intro i _ hi
    simp only [iPvmax]
    omega
  intro op hop
  simp only [twoLines, List.mem_cons, List.not_mem_nil, or_false] at hop
  rcases hop with rfl | rfl | rfl | rfl
  · exact ⟨hline 1 (by decide), hpx⟩
  · exact ⟨hline 2 (by decide), hpx⟩
  · exact ⟨hline 1 (by decide), fun _ _ _ => show (0 : Int) ≤ 134217727 by decide⟩
  · trivial

theorem mask_lines_kept_two :
    LinesKept plOpen [3, 2] 1 ⟨1, by decide⟩ twoLines :=
  mask_lines_kept .opened (by decide) 1 ⟨1, by decide⟩ twoLines_legal
    (by decide +kernel)

/-- The list of an empty line that is too wide is written past the end of the
buffer. -/
theorem plSsize_fault {pl : Mask} {axlen : List Int}
    (hnpix : 0 < word axlen 1) (h : ¬ EmptyLineFits (word axlen 1))
    (depth : Int) (bp : Address) :
    plSsize pl axlen depth bp = .error .fault := by
  have hlong := mt (emptyLineFits_iff hnpix).mpr h
  have hmalloc : (malloc plLlbuflen).length = plLlbuflen :=
    List.length_replicate
  have hmove : amovs (plP2l (fun _ => 0) 1 (word axlen 1)) (malloc plLlbuflen)
      0 = .error .fault := by
    rw [amovs, if_neg (by omega)]
  unfold plSsize
  simp only [bind, Except.bind]
  rw [hmove]

/-- The empty line of a mask of 2067471 pixels to the line takes 513 words. -/
theorem not_linesKept_wide :
    Descriptor plOpen ∧ Axes [2067471, 1] ∧
      ¬ LinesKept plOpen [2067471, 1] 1 ⟨1, by decide⟩ [] := by
  refine ⟨.opened, by decide, ?_⟩
  rintro ⟨m₀, m, hm₀, -⟩
  rw [plSsize_fault (by decide) (by decide)] at hm₀
  cases hm₀

end Iraf.Plio
