import Iraf.Plio.RegionStack

/-!
# The pixels that plr_getpix returns

For a mask of two axes `plr_open` ends with a table of which every bin is set, and
`plr_getpix` returns the pixels of the mask.
-/

namespace Iraf.Plio

open StepMachine

/-! ## Blocking factors -/

/-- The blocks after `k` turns of the loop. -/
def blockSize (msize : Int × Int) (k : Nat) : Int × Int :=
  (min msize.1 (2 ^ k), min msize.2 (2 ^ k))

/-- The blocks are the first ones for which the table is within the limit. -/
def IsBlock (msize : Int × Int) (maxpix : Int) (b : Int × Int) : Prop :=
  ∃ k, b = blockSize msize k ∧ msize.1 / b.1 * (msize.2 / b.2) ≤ maxpix ∧
    ∀ j < k, maxpix < msize.1 / (blockSize msize j).1 * (msize.2 / (blockSize msize j).2)

section Blocks

variable {msize b b' : Int × Int} {maxpix : Int}

theorem IsBlock.unique (h : IsBlock msize maxpix b) (h' : IsBlock msize maxpix b') : b = b' := by
  obtain ⟨k, rfl, hfits, hcoarse⟩ := h
  obtain ⟨k', rfl, hfits', hcoarse'⟩ := h'
  rcases Nat.lt_trichotomy k k' with hlt | rfl | hgt
  · exact absurd hfits (not_le.2 (hcoarse' k hlt))
  · rfl
  · exact absurd hfits' (not_le.2 (hcoarse k' hgt))

theorem blockSize_bounds (h1 : 1 ≤ msize.1) (h2 : 1 ≤ msize.2) (k : Nat) :
    (1 ≤ (blockSize msize k).1 ∧ (blockSize msize k).1 ≤ msize.1) ∧
      1 ≤ (blockSize msize k).2 ∧ (blockSize msize k).2 ≤ msize.2 := by
  have hpos : (1 : Int) ≤ 2 ^ k := one_le_pow₀ (by decide)
  exact ⟨⟨le_min h1 hpos, min_le_left _ _⟩, le_min h2 hpos, min_le_left _ _⟩

theorem blockSize_succ (h1 : 1 ≤ msize.1) (h2 : 1 ≤ msize.2) (k : Nat) :
    blockSize msize (k + 1) =
      (min msize.1 ((blockSize msize k).1 * 2), min msize.2 ((blockSize msize k).2 * 2)) := by
  simp only [blockSize, pow_succ]
  congr 1
  · omega
  · omega

theorem block_ends (h1 : 1 ≤ msize.1) (h2 : 1 ≤ msize.2) (hmax : 1 ≤ maxpix) :
    ∃ b, Ends (blockStep msize maxpix) (1, 1) (.ok b) ∧ IsBlock msize maxpix b := by
  have hfits : ∃ k, msize.1 / (blockSize msize k).1 * (msize.2 / (blockSize msize k).2) ≤
      maxpix := by
    refine ⟨(msize.1 + msize.2).toNat, ?_⟩
    have hlarge : (msize.1 + msize.2).toNat < 2 ^ (msize.1 + msize.2).toNat :=
      Nat.lt_two_pow_self
    have hlarge' : msize.1 + msize.2 < 2 ^ (msize.1 + msize.2).toNat := by
      have hcast : ((msize.1 + msize.2).toNat : Int) < 2 ^ (msize.1 + msize.2).toNat := by
        exact_mod_cast hlarge
      omega
    rw [blockSize, min_eq_left (by omega), min_eq_left (by omega), Int.ediv_self (by omega),
      Int.ediv_self (by omega)]
    exact hmax
  obtain ⟨k, hk, hleast⟩ : ∃ k,
      msize.1 / (blockSize msize k).1 * (msize.2 / (blockSize msize k).2) ≤ maxpix ∧
      ∀ j < k, maxpix < msize.1 / (blockSize msize j).1 * (msize.2 / (blockSize msize j).2) :=
    ⟨Nat.find hfits, Nat.find_spec hfits, fun j hj => not_le.1 (Nat.find_min hfits hj)⟩
  have hrun : ∀ d j, j + d = k →
      Ends (blockStep msize maxpix) (blockSize msize j) (.ok (blockSize msize k)) := by
    intro d
    induction d with
    | zero =>
        rintro j rfl
        exact ends_result (if_neg (not_lt.2 hk))
    | succ d ih =>
        intro j hj
        have hstep : blockStep msize maxpix (blockSize msize j) =
            .ok (.inl (blockSize msize (j + 1))) := by
          rw [blockSize_succ h1 h2]
          exact if_pos (hleast j (by omega))
        exact (ends_next hstep).mpr (ih (j + 1) (by omega))
  have hstart : blockSize msize 0 = (1, 1) := by
    rw [blockSize, pow_zero, min_eq_right h1, min_eq_right h2]
  exact ⟨_, hstart ▸ hrun k 0 (by omega), k, rfl, hk, hleast⟩

end Blocks

/-! ## The mask descriptor -/

/-- On a mask of two axes, the words that `plr_open` stores in the descriptor are those
of axes and planes that are not used. -/
theorem setPlane_draws {m : Mask} {axlen : List Int} {rows : List (List Int)}
    (hm : m.Draws axlen rows) (htwo : axlen.length = 2) (plane : List Int) :
    (setPlane m plane).Draws axlen rows := by
  have hnaxes : m.naxes = 2 := hm.axes.1.trans htwo
  have hplane : setPlane m plane = { m with
      axlen := m.axlen.set 6 1
      plane := (((m.plane.set 0 1).set 1 1).set 2 1).set 3 1 } := by
    simp [setPlane, Mask.setPlrPlane, hnaxes]
  have hsame : m.axlen.set 6 1 = m.axlen := by
    obtain ⟨x, y, rfl⟩ := List.length_eq_two.mp htwo
    rw [hm.axes.2]
    rfl
  rw [hplane, hsame]
  exact ⟨hm.axes, hm.count, hm.full, hm.encodes, hm.empty⟩

/-! ## Bins and pixels -/

/-- The mask coordinates of a bin. -/
def Grid.InBin (g : Grid) (a b x y : Int) : Prop :=
  ((a - 1) * g.block.1 + 1 ≤ x ∧ x ≤ min g.msize.1 (a * g.block.1)) ∧
    (b - 1) * g.block.2 + 1 ≤ y ∧ y ≤ min g.msize.2 (b * g.block.2)

/-- The pixels of a bin have the value `c`; `coords` are their coordinates above the second. -/
def BinIs (g : Grid) (axlen : List Int) (rows : List (List Int)) (coords : List Int)
    (a b c : Int) : Prop :=
  ∀ x y, g.InBin a b x y → maskPixel axlen rows (x :: y :: coords) = c

/-- A value of a bin that is right. -/
def BinRight (g : Grid) (axlen : List Int) (rows : List (List Int)) (coords : List Int)
    (a b c : Int) : Prop :=
  (0 ≤ c ∧ BinIs g axlen rows coords a b c) ∨
    (c = complexBin ∧ ∀ c', ¬ BinIs g axlen rows coords a b c')

/-- The sizes of a grid are those of the first two axes of the mask. -/
structure Grid.Fits (g : Grid) (axlen : List Int) : Prop where
  axes : Axes axlen
  two : 2 ≤ axlen.length
  width : word axlen 1 = g.msize.1
  height : word axlen (2 : Nat) = g.msize.2
  block1 : 1 ≤ g.block.1 ∧ g.block.1 ≤ g.msize.1
  block2 : 1 ≤ g.block.2 ∧ g.block.2 ≤ g.msize.2

/-- The coordinates above the second lie in the mask. -/
def CoordsIn (axlen coords : List Int) : Prop :=
  ∀ i : Nat, 1 ≤ i → i + 2 ≤ axlen.length →
    1 ≤ word coords i ∧ word coords i ≤ word axlen (i + 2 : Nat)

theorem bin_bounds {n b a : Int} (hb : 1 ≤ b) (ha : 1 ≤ a ∧ a ≤ (n + b - 1) / b) :
    0 ≤ (a - 1) * b ∧ (a - 1) * b + 1 ≤ n ∧ a * b = (a - 1) * b + b := by
  have hdiv := Int.ediv_mul_le (n + b - 1) (show b ≠ 0 by omega)
  have hle : a * b ≤ (n + b - 1) / b * b := Int.mul_le_mul_of_nonneg_right ha.2 (by omega)
  have hsum : a * b = (a - 1) * b + b := by ring
  have hpos : 0 ≤ (a - 1) * b := Int.mul_nonneg (by omega) (by omega)
  exact ⟨hpos, by omega, hsum⟩

theorem forall_axis {P : Nat → Prop} {n : Nat} (h1 : P 1) (h2 : P 2)
    (h3 : ∀ i, 1 ≤ i → i + 2 ≤ n → P (i + 2)) : ∀ i : Nat, 1 ≤ i → i ≤ n → P i := by
  intro i hlo hhi
  match i, hlo with
  | 1, _ => exact h1
  | 2, _ => exact h2
  | i + 3, _ => exact h3 (i + 1) (by omega) (by omega)

theorem word_cons_cons (x y : Int) (coords : List Int) {i : Nat} (hi : 1 ≤ i) :
    word (x :: y :: coords) (i + 2 : Nat) = word coords i := by
  have houter := word_cons_succ x (y :: coords) (show 1 ≤ i + 1 by omega)
  rw [houter, word_cons_succ y coords hi]

theorem length_sectLines_plane {naxes : Nat} (hn : 2 ≤ naxes) (x1 y1 x2 y2 : Int)
    (coords : List Int) :
    (sectLines naxes (x1 :: y1 :: coords) (x2 :: y2 :: coords) naxes).length =
      (sectAxis (x1 :: y1 :: coords) (x2 :: y2 :: coords) naxes 2).2.toNat := by
  obtain ⟨n, rfl⟩ : ∃ n, naxes = n + 2 := ⟨naxes - 2, by omega⟩
  generalize hv1 : x1 :: y1 :: coords = v1
  generalize hv2 : x2 :: y2 :: coords = v2
  have hsame : ((List.range n).map fun k => (sectAxis v1 v2 (n + 2) (k + 3)).1 +
      (sectAxis v1 v2 (n + 2) (k + 3)).2 - 1) =
      (List.range n).map fun k => (sectAxis v1 v2 (n + 2) (k + 3)).1 := by
    refine List.map_congr_left fun k hk => ?_
    rw [List.mem_range] at hk
    have hword : word v1 (k + 3 : Nat) = word v2 (k + 3 : Nat) := by
      rw [← hv1, ← hv2]
      exact (word_cons_cons x1 y1 coords (show 1 ≤ k + 1 by omega)).trans
        (word_cons_cons x2 y2 coords (show 1 ≤ k + 1 by omega)).symm
    rw [sectAxis, if_pos (by omega), hword, if_pos (Int.le_refl _)]
    simp only
    omega
  have hrange : List.range (n + 2 - 1) = 0 :: (List.range n).map Nat.succ :=
    List.range_succ_eq_map
  have hcount : (sectAxis v1 v2 (n + 2) 2).1 + (sectAxis v1 v2 (n + 2) 2).2 - 1 + 1 -
      (sectAxis v1 v2 (n + 2) 2).1 = (sectAxis v1 v2 (n + 2) 2).2 := by omega
  rw [sectLines, List.length_map, hrange, List.map_cons, List.map_cons, List.map_map,
    List.map_map]
  change (box (_ :: (List.range n).map fun k => (sectAxis v1 v2 (n + 2) (k + 3)).1)
    (_ :: (List.range n).map fun k => (sectAxis v1 v2 (n + 2) (k + 3)).1 +
      (sectAxis v1 v2 (n + 2) (k + 3)).2 - 1)).length = _
  rw [hsame, box, box_self, List.flatMap_singleton, List.length_map, Int.range, List.length_map,
    List.length_range]
  exact congrArg Int.toNat hcount

theorem maskPixel_nonneg {axlen : List Int} {rows : List (List Int)}
    (hpx : ∀ line ∈ rows, ∀ p ∈ line, 0 ≤ p) (v : List Int) : 0 ≤ maskPixel axlen rows v := by
  have hrow : ∀ p ∈ rows.getD (lineNumber axlen v) [], 0 ≤ p := by
    rcases Nat.lt_or_ge (lineNumber axlen v) rows.length with hlt | hge
    · rw [List.getD_eq_getElem _ _ hlt]
      exact hpx _ (List.getElem_mem hlt)
    · rw [List.getD_eq_default _ _ hge]
      simp
  rw [maskPixel]
  rcases Nat.lt_or_ge (word v 1 - 1).toNat (rows.getD (lineNumber axlen v) []).length with hlt | hge
  · rw [List.getD_eq_getElem _ _ hlt]
    exact hrow _ (List.getElem_mem hlt)
  · rw [List.getD_eq_default _ _ hge]

section Mask

variable {m : Mask} {axlen coords : List Int} {rows : List (List Int)} {g : Grid} {fuel : Nat}
  (hm : m.Draws axlen rows) (hpx : ∀ line ∈ rows, ∀ p ∈ line, 0 ≤ p)
  (hlen : g.msize.1 ≤ arb) (hg : g.Fits axlen) (hcoords : CoordsIn axlen coords)
  (hfuel : g.msize.1 < fuel) (hlines : g.msize.2 ≤ fuel)

theorem Grid.Fits.bin (hg : g.Fits axlen) {a b : Int} (hab : g.InTable a b) :
    (0 ≤ (a - 1) * g.block.1 ∧ (a - 1) * g.block.1 + 1 ≤ g.msize.1 ∧
      a * g.block.1 = (a - 1) * g.block.1 + g.block.1) ∧
    0 ≤ (b - 1) * g.block.2 ∧ (b - 1) * g.block.2 + 1 ≤ g.msize.2 ∧
      b * g.block.2 = (b - 1) * g.block.2 + g.block.2 :=
  ⟨bin_bounds hg.block1.1 hab.1, bin_bounds hg.block2.1 hab.2⟩

theorem Grid.Fits.inBin_first (hg : g.Fits axlen) {a b : Int} (hab : g.InTable a b) :
    g.InBin a b ((a - 1) * g.block.1 + 1) ((b - 1) * g.block.2 + 1) := by
  obtain ⟨⟨hx, hx', hx''⟩, hy, hy', hy''⟩ := hg.bin hab
  have hb1 := hg.block1.1
  have hb2 := hg.block2.1
  exact ⟨⟨Int.le_refl _, by omega⟩, Int.le_refl _, by omega⟩

include hg hcoords

theorem Region.Within.corners {r : Region} (hr : r.Within g) :
    InMask axlen (r.corners g coords).1 axlen.length ∧
      InMask axlen (r.corners g coords).2 axlen.length := by
  obtain ⟨⟨hx1, hx1', hx1''⟩, hy1, hy1', hy1''⟩ := hg.bin hr.first
  obtain ⟨⟨hx2, hx2', hx2''⟩, hy2, hy2', hy2''⟩ := hg.bin hr.last
  have hwidth := hg.width
  have hheight := hg.height
  have hb1 := hg.block1
  have hb2 := hg.block2
  constructor
  · intro i hlo hhi _
    refine forall_axis (P := fun i => 1 ≤ word (r.corners g coords).1 i ∧
      word (r.corners g coords).1 i ≤ word axlen i) ?_ ?_ ?_ i hlo hhi
    · change 1 ≤ (r.x1 - 1) * g.block.1 + 1 ∧ (r.x1 - 1) * g.block.1 + 1 ≤ word axlen 1
      omega
    · change 1 ≤ (r.y1 - 1) * g.block.2 + 1 ∧ (r.y1 - 1) * g.block.2 + 1 ≤ word axlen (2 : Nat)
      omega
    · intro k hk hk'
      rw [Region.corners, word_cons_cons _ _ _ hk]
      exact hcoords k hk hk'
  · intro i hlo hhi _
    refine forall_axis (P := fun i => 1 ≤ word (r.corners g coords).2 i ∧
      word (r.corners g coords).2 i ≤ word axlen i) ?_ ?_ ?_ i hlo hhi
    · change 1 ≤ min g.msize.1 (r.x2 * g.block.1) ∧ min g.msize.1 (r.x2 * g.block.1) ≤ word axlen 1
      omega
    · change 1 ≤ min g.msize.2 (r.y2 * g.block.2) ∧
        min g.msize.2 (r.y2 * g.block.2) ≤ word axlen (2 : Nat)
      omega
    · intro k hk hk'
      rw [Region.corners, word_cons_cons _ _ _ hk]
      exact hcoords k hk hk'

omit hcoords in
theorem Region.Has.inSection {r : Region} {a b x y : Int} (h : r.Has a b)
    (hxy : g.InBin a b x y) :
    InSection axlen (r.corners g coords).1 (r.corners g coords).2 axlen.length
      (x :: y :: coords) := by
  obtain ⟨⟨ha, ha'⟩, hb, hb'⟩ := h
  obtain ⟨⟨hx, hx'⟩, hy, hy'⟩ := hxy
  have hb1 := hg.block1.1
  have hb2 := hg.block2.1
  have hx1 : (r.x1 - 1) * g.block.1 ≤ (a - 1) * g.block.1 :=
    Int.mul_le_mul_of_nonneg_right (by omega) (by omega)
  have hx2 : a * g.block.1 ≤ r.x2 * g.block.1 :=
    Int.mul_le_mul_of_nonneg_right ha' (by omega)
  have hy1 : (r.y1 - 1) * g.block.2 ≤ (b - 1) * g.block.2 :=
    Int.mul_le_mul_of_nonneg_right (by omega) (by omega)
  have hy2 : b * g.block.2 ≤ r.y2 * g.block.2 :=
    Int.mul_le_mul_of_nonneg_right hb' (by omega)
  intro i hlo hhi
  rw [if_pos hhi]
  refine forall_axis (P := fun i => min (word (r.corners g coords).1 i)
    (word (r.corners g coords).2 i) ≤ word (x :: y :: coords) i ∧ word (x :: y :: coords) i ≤
    max (word (r.corners g coords).1 i) (word (r.corners g coords).2 i)) ?_ ?_ ?_ i hlo hhi
  · change min ((r.x1 - 1) * g.block.1 + 1) (min g.msize.1 (r.x2 * g.block.1)) ≤ x ∧
      x ≤ max ((r.x1 - 1) * g.block.1 + 1) (min g.msize.1 (r.x2 * g.block.1))
    omega
  · change min ((r.y1 - 1) * g.block.2 + 1) (min g.msize.2 (r.y2 * g.block.2)) ≤ y ∧
      y ≤ max ((r.y1 - 1) * g.block.2 + 1) (min g.msize.2 (r.y2 * g.block.2))
    omega
  · intro k hk _
    rw [Region.corners, word_cons_cons _ _ _ hk, word_cons_cons _ _ _ hk,
      word_cons_cons _ _ _ hk, min_self, max_self]
    exact ⟨Int.le_refl _, Int.le_refl _⟩

omit hcoords in
theorem Region.inBin_of_inSection (rows : List (List Int)) {r : Region} (hr : r.Within g)
    (hsingle : r.x1 = r.x2 ∧ r.y1 = r.y2) {v : List Int}
    (hv : InSection axlen (r.corners g coords).1 (r.corners g coords).2 axlen.length v) :
    g.InBin r.x1 r.y1 (word v 1) (word v (2 : Nat)) ∧
      maskPixel axlen rows v = maskPixel axlen rows (word v 1 :: word v (2 : Nat) :: coords) := by
  obtain ⟨⟨hx1, hx1', hx1''⟩, hy1, hy1', hy1''⟩ := hg.bin hr.first
  have hb1 := hg.block1.1
  have hb2 := hg.block2.1
  have htwo := hg.two
  have hv1 := hv 1 (Nat.le_refl 1) (by omega)
  have hv2 := hv 2 (by decide) htwo
  rw [if_pos (by omega)] at hv1
  rw [if_pos htwo] at hv2
  change min ((r.x1 - 1) * g.block.1 + 1) (min g.msize.1 (r.x2 * g.block.1)) ≤ word v 1 ∧
    word v 1 ≤ max ((r.x1 - 1) * g.block.1 + 1) (min g.msize.1 (r.x2 * g.block.1)) at hv1
  change min ((r.y1 - 1) * g.block.2 + 1) (min g.msize.2 (r.y2 * g.block.2)) ≤ word v (2 : Nat) ∧
    word v (2 : Nat) ≤ max ((r.y1 - 1) * g.block.2 + 1)
      (min g.msize.2 (r.y2 * g.block.2)) at hv2
  rw [← hsingle.1] at hv1
  rw [← hsingle.2] at hv2
  refine ⟨⟨⟨by omega, by omega⟩, by omega, by omega⟩, ?_⟩
  have hnumber : lineNumber axlen v =
      lineNumber axlen (word v 1 :: word v (2 : Nat) :: coords) := by
    refine lineNumber_congr fun i hlo hhi => ?_
    rcases Nat.eq_or_lt_of_le hlo with rfl | hmore
    · rfl
    · obtain ⟨k, rfl⟩ : ∃ k, i = k + 2 := ⟨i - 2, by omega⟩
      have hk : 1 ≤ k := by omega
      have hvi := hv (k + 2) (by omega) hhi
      rw [if_pos hhi, Region.corners, word_cons_cons _ _ _ hk, word_cons_cons _ _ _ hk,
        min_self, max_self] at hvi
      rw [word_cons_cons _ _ _ hk]
      exact le_antisymm hvi.2 hvi.1
  rw [maskPixel, maskPixel, hnumber]
  rfl

include hm hpx hlen hfuel hlines

theorem examines : Examines m g coords axlen.length fuel (BinRight g axlen rows coords) where
  test r hr := by
    obtain ⟨hv1, hv2⟩ := hr.corners hg hcoords
    have hax := hg.axes
    have htwo := hg.two
    have hfirst := hg.width
    have hbounds1 := sectAxis_bounds hax hv1 hv2 (Nat.le_refl 1) hax.1
    have hbounds2 := sectAxis_bounds hax hv1 hv2 (show 1 ≤ 2 by decide) htwo
    rw [Nat.cast_one, hfirst] at hbounds1
    rw [hg.height] at hbounds2
    have hlength : (sectLines axlen.length (r.corners g coords).1 (r.corners g coords).2
        axlen.length).length =
        (sectAxis (r.corners g coords).1 (r.corners g coords).2 axlen.length 2).2.toNat :=
      length_sectLines_plane htwo _ _ _ _ coords
    have hexact : ConstExact m axlen rows (r.corners g coords).1 (r.corners g coords).2
        axlen.length fuel := by
      refine sectnotconst_exact hax hm hpx (hfirst ▸ hlen) hv1 hv2 ?_ ?_
      · rw [hlength]
        omega
      · omega
    obtain ⟨complex, mval, htest, hiff, hsame⟩ := hexact
    refine ⟨complex, mval, htest, fun hconst a b hab => ?_, fun htrue hsingle => ?_⟩
    · have hbin : BinIs g axlen rows coords a b mval :=
        fun x y hxy => hsame hconst _ (hab.inSection hg hxy)
      obtain ⟨⟨ha, ha'⟩, hb, hb'⟩ := hab
      have htable : g.InTable a b :=
        ⟨⟨hr.first.1.1.trans ha, ha'.trans hr.last.1.2⟩,
          hr.first.2.1.trans hb, hb'.trans hr.last.2.2⟩
      refine .inl ⟨?_, hbin⟩
      rw [← hbin _ _ (hg.inBin_first htable)]
      exact maskPixel_nonneg hpx _
    · refine .inr ⟨rfl, fun c hbin => ?_⟩
      have hconst : complex = false := hiff.mpr ⟨c, fun v hv => by
        obtain ⟨hin, hpixel⟩ := Region.inBin_of_inSection hg rows hr hsingle hv
        rw [hpixel]
        exact hbin _ _ hin⟩
      rw [hconst] at htrue
      cases htrue

end Mask

/-! ## Pixels -/

/-- A descriptor whose table was filled from a mask. -/
structure Plr.Ready (plr : Plr) (g : Grid) (axlen : List Int) (rows : List (List Int))
    (coords : List Int) : Prop where
  draws : plr.pl.Draws axlen rows
  fits : g.Fits axlen
  ncols : plr.ncols = g.tsize.1
  blocks : (plr.xblock, plr.yblock) = g.block
  first : (plr.x1, plr.y1) = (1, 1)
  last : (plr.x2, plr.y2) = g.msize
  plane : plr.plane.length = plMaxdim
  /-- The coordinates above the second have not been set. -/
  third : word plr.plane (3 : Nat) = 0
  table : ∀ a b, g.InTable a b →
    ∃ c, plr.bufp[g.place a b]? = some (some c) ∧ BinRight g axlen rows coords a b c

theorem bin_of_position {n b i : Int} (hb : 1 ≤ b) (hi : 1 ≤ i ∧ i ≤ n) :
    (1 ≤ (i - 1) / b + 1 ∧ (i - 1) / b + 1 ≤ (n + b - 1) / b) ∧
      ((i - 1) / b + 1 - 1) * b + 1 ≤ i ∧ i ≤ min n (((i - 1) / b + 1) * b) := by
  have hlow := Int.ediv_mul_le (i - 1) (show b ≠ 0 by omega)
  have hhigh := Int.lt_ediv_add_one_mul_self (i - 1) (show 0 < b by omega)
  have hpos : 0 ≤ (i - 1) / b := Int.ediv_nonneg (by omega) (by omega)
  have htop : (n + b - 1) / b = (n - 1) / b + 1 := by
    have hsum : n + b - 1 = (n - 1) + 1 * b := by ring
    rw [hsum, Int.add_mul_ediv_right _ _ (by omega)]
  have hmono : (i - 1) / b ≤ (n - 1) / b := Int.ediv_le_ediv (by omega) (by omega)
  have hsame : (i - 1) / b + 1 - 1 = (i - 1) / b := by omega
  rw [htop, hsame]
  exact ⟨⟨by omega, by omega⟩, by omega, by omega⟩

theorem bin_unique {n b i a a' : Int} (hb : 1 ≤ b)
    (h : (a - 1) * b + 1 ≤ i ∧ i ≤ min n (a * b)) (h' : (a' - 1) * b + 1 ≤ i ∧ i ≤ min n (a' * b)) :
    a = a' := by
  have hle : ∀ {c d : Int}, (c - 1) * b + 1 ≤ i → i ≤ d * b → c ≤ d := by
    intro c d hc hd
    by_contra hgt
    have hmul : d * b ≤ (c - 1) * b := Int.mul_le_mul_of_nonneg_right (by omega) (by omega)
    omega
  exact le_antisymm (hle h.1 (by omega)) (hle h'.1 (by omega))

theorem word_set_second (l : List Int) (j : Int) :
    word (l.set 1 j) (3 : Nat) = word l (3 : Nat) := by
  have hindex : (((3 : Nat) : Int) - 1).toNat = 2 := rfl
  rw [word, word, List.getD_eq_getElem?_getD, List.getD_eq_getElem?_getD, hindex,
    List.getElem?_set_ne (by decide)]

theorem Plr.Ready.access {plr : Plr} {g : Grid} {axlen coords : List Int}
    {rows : List (List Int)} (h : plr.Ready g axlen rows coords) (htwo : axlen.length = 2)
    {i j : Int} (hi : 1 ≤ i ∧ i ≤ g.msize.1) (hj : 1 ≤ j ∧ j ≤ g.msize.2) (d : Int) :
    ∃ llSrc, plReference plr.pl (plr.plane.set 1 j) = .ok llSrc ∧
      (plL2p (plr.pl.ll llSrc) i 1).headD d = maskPixel axlen rows (i :: j :: coords) := by
  have hax := h.fits.axes
  have hfirst := h.fits.width
  have hword : word (plr.plane.set 1 j) (2 : Nat) = j := by
    have hindex : (((2 : Nat) : Int) - 1).toNat = 1 := rfl
    have hlt : 1 < (plr.plane.set 1 j).length := by
      rw [List.length_set, h.plane]
      decide
    rw [word, hindex, List.getD_eq_getElem _ _ hlt, List.getElem_set_self]
  have haxis : ∀ {k : Nat}, 2 ≤ k → k ≤ axlen.length → k = 2 := by
    intro k hlo hhi
    omega
  have hline : OnLine axlen (plr.plane.set 1 j) := by
    intro k hlo hhi
    obtain rfl := haxis hlo hhi
    rw [hword, h.fits.height]
    exact hj
  have hnumber : lineNumber axlen (plr.plane.set 1 j) = lineNumber axlen (i :: j :: coords) := by
    apply lineNumber_congr
    intro k hlo hhi
    obtain rfl := haxis hlo hhi
    exact hword
  obtain ⟨row, hrow, href, hencodes, hcount⟩ := h.draws.reference hax hline
  have hget : rows.getD (lineNumber axlen (i :: j :: coords)) [] = row := by
    rw [← hnumber, List.getD_eq_getElem?_getD, hrow]
    rfl
  refine ⟨_, href, ?_⟩
  obtain ⟨k, hk⟩ : ∃ k : Nat, i = (k : Int) + 1 := ⟨(i - 1).toNat, by omega⟩
  have hin : k < row.length := by omega
  have hread := plL2p_eq_window hencodes (show 0 < 1 by decide) (show k + 1 ≤ row.length by omega)
  have hpixel : maskPixel axlen rows (i :: j :: coords) = row.getD k 0 := by
    have hindex : (word (i :: j :: coords) 1 - 1).toNat = k := by
      change (i - 1).toNat = k
      omega
    rw [maskPixel, hget, hindex]
  have hwindow : window k 1 row = [row[k]] := by
    rw [window, List.drop_eq_getElem_cons hin]
    rfl
  rw [Nat.cast_one, ← hk, hwindow] at hread
  rw [hread, hpixel, List.getD_eq_getElem _ _ hin]
  rfl

theorem Plr.Ready.access_off {plr : Plr} {g : Grid} {axlen coords : List Int}
    {rows : List (List Int)} (h : plr.Ready g axlen rows coords) (hmore : 3 ≤ axlen.length)
    (j : Int) : plReference plr.pl (plr.plane.set 1 j) = .error .plrefoob := by
  have hlow : word (plr.plane.set 1 j) (3 : Nat) < 1 := by
    rw [word_set_second, h.third]
    decide
  rw [plReference, lineIndex_off_axis h.draws.axes (show 2 ≤ 3 by decide) hmore (.inl hlow)]
  rfl

theorem Plr.Ready.lookup {plr : Plr} {g : Grid} {axlen coords : List Int}
    {rows : List (List Int)} (h : plr.Ready g axlen rows coords) {i j : Int}
    (hi : 1 ≤ i ∧ i ≤ g.msize.1) (hj : 1 ≤ j ∧ j ≤ g.msize.2) :
    ∃ a b c, g.InTable a b ∧ g.InBin a b i j ∧ BinRight g axlen rows coords a b c ∧
      plrGetpix plr i j =
        if c = complexBin then do
          let llSrc ← liftMask (plReference plr.pl (plr.plane.set 1 j))
          return ({ plr with plane := plr.plane.set 1 j },
            (plL2p (plr.pl.ll llSrc) i 1).headD c)
        else .ok (plr, c) := by
  obtain ⟨hb1, hb2⟩ := And.intro h.fits.block1.1 h.fits.block2.1
  obtain ⟨htab1, hbin1⟩ := bin_of_position hb1 hi
  obtain ⟨htab2, hbin2⟩ := bin_of_position hb2 hj
  obtain ⟨c, hc, hright⟩ := h.table _ _ ⟨htab1, htab2⟩
  have hblocks := h.blocks
  have hfirst := h.first
  have hlast := h.last
  have hplace : ((j - 1) / plr.yblock * plr.ncols + (i - 1) / plr.xblock).toNat =
      g.place ((i - 1) / g.block.1 + 1) ((j - 1) / g.block.2 + 1) := by
    rw [← hblocks, h.ncols, Grid.place]
    congr 1
    simp only [Int.add_sub_cancel]
    omega
  have hx1 : plr.x1 = 1 := congrArg Prod.fst hfirst
  have hy1 : plr.y1 = 1 := congrArg Prod.snd hfirst
  have hx2 : plr.x2 = g.msize.1 := congrArg Prod.fst hlast
  have hy2 : plr.y2 = g.msize.2 := congrArg Prod.snd hlast
  refine ⟨_, _, c, ⟨htab1, htab2⟩, ⟨hbin1, hbin2⟩, hright, ?_⟩
  unfold plrGetpix
  rw [if_neg (by omega), if_neg (by omega)]
  simp only [hplace, hc]

/-- `plr_getpix` returns the pixel, on a mask of two axes or from a bin that is not complex. -/
theorem Plr.Ready.getpix {plr : Plr} {g : Grid} {axlen coords : List Int}
    {rows : List (List Int)} (h : plr.Ready g axlen rows coords)
    (hok : axlen.length = 2 ∨
      ∀ a b, g.InTable a b → ∃ c, BinIs g axlen rows coords a b c) {i j : Int}
    (hi : 1 ≤ i ∧ i ≤ g.msize.1) (hj : 1 ≤ j ∧ j ≤ g.msize.2) :
    ∃ plr', plrGetpix plr i j = .ok (plr', maskPixel axlen rows (i :: j :: coords)) ∧
      plr'.Ready g axlen rows coords := by
  obtain ⟨a, b, c, htable, hbin, hright, hlookup⟩ := h.lookup hi hj
  rw [hlookup]
  rcases hright with ⟨hpos, hsame⟩ | ⟨rfl, hcomplex⟩
  · have hne : c ≠ complexBin := by
      rw [complexBin]
      omega
    rw [if_neg hne]
    refine ⟨plr, ?_, h⟩
    rw [hsame i j hbin]
  · have htwo : axlen.length = 2 := by
      rcases hok with htwo | hconst
      · exact htwo
      · obtain ⟨c, hc⟩ := hconst a b htable
        exact absurd hc (hcomplex c)
    obtain ⟨llSrc, href, hpixel⟩ := h.access htwo hi hj complexBin
    rw [if_pos rfl]
    refine ⟨{ plr with plane := plr.plane.set 1 j }, ?_, ?_⟩
    · simp only [href, liftMask, bind, Except.bind, hpixel]
      rfl
    · exact ⟨h.draws, h.fits, h.ncols, h.blocks, h.first, h.last,
        by rw [List.length_set, h.plane], by rw [word_set_second, h.third], h.table⟩

theorem Plr.Ready.getpix_complex {plr : Plr} {g : Grid} {axlen coords : List Int}
    {rows : List (List Int)} (h : plr.Ready g axlen rows coords) (hmore : 3 ≤ axlen.length)
    {a b : Int} (hab : g.InTable a b) (hcomplex : ∀ c, ¬ BinIs g axlen rows coords a b c) :
    ∃ i j, ((1 ≤ i ∧ i ≤ g.msize.1) ∧ 1 ≤ j ∧ j ≤ g.msize.2) ∧
      plrGetpix plr i j = .error (.mask .plrefoob) := by
  obtain ⟨⟨hx, hx', -⟩, hy, hy', -⟩ := h.fits.bin hab
  have hi : 1 ≤ (a - 1) * g.block.1 + 1 ∧ (a - 1) * g.block.1 + 1 ≤ g.msize.1 := ⟨by omega, hx'⟩
  have hj : 1 ≤ (b - 1) * g.block.2 + 1 ∧ (b - 1) * g.block.2 + 1 ≤ g.msize.2 := ⟨by omega, hy'⟩
  refine ⟨_, _, ⟨hi, hj⟩, ?_⟩
  obtain ⟨a', b', c, hab', hbin, hright, hlookup⟩ := h.lookup hi hj
  have hsame : a' = a ∧ b' = b :=
    ⟨bin_unique h.fits.block1.1 hbin.1 (h.fits.inBin_first hab).1,
      bin_unique h.fits.block2.1 hbin.2 (h.fits.inBin_first hab).2⟩
  obtain ⟨rfl, rfl⟩ := hsame
  rcases hright with ⟨-, hconst⟩ | ⟨rfl, -⟩
  · exact absurd hconst (hcomplex c)
  · rw [hlookup, if_pos rfl, h.access_off hmore]
    rfl

theorem Plr.Ready.getpixs {g : Grid} {axlen coords : List Int} {rows : List (List Int)}
    (hok : axlen.length = 2 ∨ ∀ a b, g.InTable a b → ∃ c, BinIs g axlen rows coords a b c)
    (ps : List (Int × Int)) :
    ∀ {plr : Plr}, plr.Ready g axlen rows coords →
      (∀ p ∈ ps, (1 ≤ p.1 ∧ p.1 ≤ g.msize.1) ∧ 1 ≤ p.2 ∧ p.2 ≤ g.msize.2) →
      plrGetpixs plr ps = .ok (ps.map fun p => maskPixel axlen rows (p.1 :: p.2 :: coords)) := by
  induction ps with
  | nil => exact fun _ _ => rfl
  | cons p ps ih =>
      intro plr h hps
      obtain ⟨hp, hrest⟩ := List.forall_mem_cons.mp hps
      obtain ⟨plr', hget, hready⟩ := h.getpix hok hp.1 hp.2
      simp only [plrGetpixs, hget, bind, Except.bind, ih hready hrest]
      rfl

/-! ## Opening -/

theorem Grid.exists_place {g : Grid} {k : Nat} (hw : 0 < g.tsize.1)
    (hk : k < (g.tsize.1 * g.tsize.2).toNat) : ∃ a b, g.InTable a b ∧ g.place a b = k := by
  have hdiv := Int.mul_ediv_add_emod (k : Int) g.tsize.1
  have hlo := Int.emod_nonneg (k : Int) (show g.tsize.1 ≠ 0 by omega)
  have hhi := Int.emod_lt_of_pos (k : Int) hw
  have hrow : 0 ≤ (k : Int) / g.tsize.1 := Int.ediv_nonneg (by omega) (by omega)
  have hrows : (k : Int) / g.tsize.1 < g.tsize.2 := by
    apply Int.ediv_lt_of_lt_mul hw
    rw [Int.mul_comm]
    omega
  refine ⟨(k : Int) % g.tsize.1 + 1, (k : Int) / g.tsize.1 + 1,
    ⟨⟨by omega, by omega⟩, by omega, by omega⟩, ?_⟩
  have hsame : (k : Int) / g.tsize.1 + 1 - 1 = (k : Int) / g.tsize.1 := by omega
  rw [Grid.place, hsame, Int.mul_comm]
  omega

theorem table_filled {m : Mask} {g : Grid} {coords : List Int} {ndim fuel : Nat}
    {right : Int → Int → Int → Prop} (h : Examines m g coords ndim fuel right)
    (hsize : (1 ≤ g.tsize.1 ∧ g.tsize.1 ≤ 2 ^ 31) ∧ 1 ≤ g.tsize.2 ∧ g.tsize.2 ≤ 2 ^ 31) :
    ∃ bufp, Ends (regionStep m g coords ndim fuel)
        ⟨(List.replicate lenStack (⟨0, 0, 0, 0⟩ : Region)).set 0 ⟨1, 1, g.tsize.1, g.tsize.2⟩, 0,
          List.replicate (g.tsize.1 * g.tsize.2).toNat none⟩ (.ok bufp) ∧
      bufp.length = (g.tsize.1 * g.tsize.2).toNat ∧
      ∀ a b, g.InTable a b → ∃ c, bufp[g.place a b]? = some (some c) ∧ right a b c := by
  obtain ⟨⟨hx, hx'⟩, hy, hy'⟩ := hsize
  have hwithin : Region.Within ⟨1, 1, g.tsize.1, g.tsize.2⟩ g :=
    ⟨⟨hx, hy⟩, ⟨⟨Int.le_refl 1, hx⟩, Int.le_refl 1, hy⟩, ⟨hx, Int.le_refl _⟩, hy, Int.le_refl _⟩
  have hsmall : Region.Small ⟨1, 1, g.tsize.1, g.tsize.2⟩ (2 ^ 31) := by
    constructor
    · simp only
      omega
    · simp only
      omega
  obtain ⟨s', hgoes, hsettled⟩ := region_goes h 31 (k := 0) hwithin hsmall (by decide)
    (s := ⟨(List.replicate lenStack (⟨0, 0, 0, 0⟩ : Region)).set 0 ⟨1, 1, g.tsize.1, g.tsize.2⟩, 0,
      List.replicate (g.tsize.1 * g.tsize.2).toNat none⟩)
    ⟨rfl, rfl, fun j hj => by
      obtain rfl : j = 0 := by simpa using hj
      rfl⟩ List.length_replicate
  have hel := hsettled.el
  rcases hgoes with ⟨hpos, -⟩ | ⟨-, hends⟩
  · omega
  · refine ⟨s'.bufp, hends, ?_, fun a b hab => ?_⟩
    · rw [hsettled.covers.length, List.length_replicate]
    · exact hsettled.covers.set a b hab ⟨⟨hab.1.1, hab.1.2⟩, hab.2.1, hab.2.2⟩

theorem tsize_bounds {n b : Int} (hb : 1 ≤ b) (hn : 1 ≤ n) :
    1 ≤ (n + b - 1) / b ∧ (n + b - 1) / b ≤ n := by
  obtain ⟨⟨hlo, hhi⟩, -⟩ := bin_of_position hb ⟨Int.le_refl 1, hn⟩
  have hlast := bin_bounds hb ⟨Int.le_trans hlo hhi, Int.le_refl ((n + b - 1) / b)⟩
  refine ⟨Int.le_trans hlo hhi, ?_⟩
  nlinarith

theorem BinRight.unique {g : Grid} {axlen coords : List Int} {rows : List (List Int)}
    {a b c c' : Int} (hg : g.Fits axlen) (hab : g.InTable a b)
    (h : BinRight g axlen rows coords a b c) (h' : BinRight g axlen rows coords a b c') :
    c = c' := by
  rcases h with ⟨-, hc⟩ | ⟨rfl, hc⟩
  · rcases h' with ⟨-, hc'⟩ | ⟨-, hc'⟩
    · have hin := hg.inBin_first hab
      exact (hc _ _ hin).symm.trans (hc' _ _ hin)
    · exact absurd hc (hc' c)
  · rcases h' with ⟨-, hc'⟩ | ⟨rfl, -⟩
    · exact absurd hc' (hc c')
    · rfl

theorem table_unique {g : Grid} {right : Int → Int → Int → Prop} {t t' : List (Option Int)}
    (hw : 0 < g.tsize.1)
    (hright : ∀ a b c c', g.InTable a b → right a b c → right a b c' → c = c')
    (hlen : t.length = (g.tsize.1 * g.tsize.2).toNat)
    (hlen' : t'.length = (g.tsize.1 * g.tsize.2).toNat)
    (ht : ∀ a b, g.InTable a b → ∃ c, t[g.place a b]? = some (some c) ∧ right a b c)
    (ht' : ∀ a b, g.InTable a b → ∃ c, t'[g.place a b]? = some (some c) ∧ right a b c) :
    t = t' := by
  apply List.ext_getElem?
  intro k
  rcases Nat.lt_or_ge k (g.tsize.1 * g.tsize.2).toNat with hk | hk
  · obtain ⟨a, b, hab, rfl⟩ := Grid.exists_place hw hk
    obtain ⟨c, hc, hright₁⟩ := ht a b hab
    obtain ⟨c', hc', hright₂⟩ := ht' a b hab
    rw [hc, hc', hright a b c c' hab hright₁ hright₂]
  · rw [List.getElem?_eq_none (by omega), List.getElem?_eq_none (by omega)]

/-- What `plr_open` returns when its bounds are large enough. -/
def PlrOpens (pl : Mask) (plane : List Int) (buflimit : Int) (plr : Plr) : Prop :=
  ∃ fuel₀, ∀ fuel, fuel₀ ≤ fuel → ∃ turns₀, ∀ turns, turns₀ ≤ turns →
    plrOpen pl plane buflimit fuel turns = .ok plr

theorem PlrOpens.unique {pl : Mask} {plane : List Int} {buflimit : Int} {plr plr' : Plr}
    (h : PlrOpens pl plane buflimit plr) (h' : PlrOpens pl plane buflimit plr') : plr = plr' := by
  obtain ⟨fuel, hfuel⟩ := h
  obtain ⟨fuel', hfuel'⟩ := h'
  obtain ⟨turns, hturns⟩ := hfuel (fuel + fuel') (by omega)
  obtain ⟨turns', hturns'⟩ := hfuel' (fuel + fuel') (by omega)
  have hopen := hturns (turns + turns') (by omega)
  rw [hturns' (turns + turns') (by omega)] at hopen
  exact (Except.ok.inj hopen).symm

/-- The maximum table size. -/
def tableLimit (buflimit : Int) : Int := if buflimit ≤ 0 then defBuflimit else buflimit

/-- `plr_open` ends without leaving its stack, and its table is filled from the mask. -/
theorem plr_opens {m : Mask} {axlen : List Int} {rows : List (List Int)} {plane : List Int}
    (hax : Axes axlen) (htwo : 2 ≤ axlen.length) (hm : m.HasAxes axlen)
    (hdraws : (setPlane m plane).Draws axlen rows) (hpx : ∀ line ∈ rows, ∀ p ∈ line, 0 ≤ p)
    (hlen : word axlen 1 ≤ arb) (hint : word axlen (2 : Nat) ≤ 2147483647)
    (hcoords : CoordsIn axlen (planeCoords axlen.length plane)) (buflimit : Int) :
    ∃ plr b, PlrOpens m plane buflimit plr ∧ plr.pl = setPlane m plane ∧
      IsBlock (word axlen 1, word axlen (2 : Nat)) (tableLimit buflimit) b ∧
      plr.Ready ⟨(word axlen 1, word axlen (2 : Nat)), b⟩ axlen rows
        (planeCoords axlen.length plane) ∧
      ∀ bin ∈ plr.bufp, ∃ c, bin = some c := by
  have hx : 1 ≤ word axlen 1 := word_axis_pos hax (Nat.le_refl 1) hax.1
  have hy : 1 ≤ word axlen (2 : Nat) := word_axis_pos hax (by decide) htwo
  have hmax : 1 ≤ tableLimit buflimit := by
    unfold tableLimit
    split
    · decide
    · omega
  obtain ⟨b, hblock, hisblock⟩ :=
    @block_ends (word axlen 1, word axlen (2 : Nat)) (tableLimit buflimit) hx hy hmax
  obtain ⟨hb1, hb2⟩ : (1 ≤ b.1 ∧ b.1 ≤ word axlen 1) ∧ 1 ≤ b.2 ∧ b.2 ≤ word axlen (2 : Nat) := by
    obtain ⟨k, rfl, -⟩ := hisblock
    exact blockSize_bounds hx hy k
  have hfits : Grid.Fits ⟨(word axlen 1, word axlen (2 : Nat)), b⟩ axlen :=
    ⟨hax, htwo, rfl, rfl, hb1, hb2⟩
  have hsize1 := tsize_bounds hb1.1 hx
  have hsize2 := tsize_bounds hb2.1 hy
  have htable := fun fuel (hf : word axlen 1 < ((fuel : Nat) : Int) ∧ word axlen (2 : Nat) ≤ fuel) =>
    table_filled (examines hdraws hpx hlen hfits hcoords hf.1 hf.2)
      ⟨⟨hsize1.1, by
        have := hsize1.2
        simp only [arb] at hlen
        change (word axlen 1 + b.1 - 1) / b.1 ≤ 2 ^ 31
        omega⟩, hsize2.1, by
        have := hsize2.2
        change (word axlen (2 : Nat) + b.2 - 1) / b.2 ≤ 2 ^ 31
        omega⟩
  obtain ⟨fuel₀, hfuel₀⟩ : ∃ fuel : Nat,
      word axlen 1 < fuel ∧ word axlen (2 : Nat) ≤ fuel :=
    ⟨(word axlen 1 + word axlen (2 : Nat)).toNat, by omega, by omega⟩
  obtain ⟨bufp, -, hlength, hbins⟩ := htable fuel₀ hfuel₀
  have hax1 : m.axlenAt 1 = word axlen 1 := hm.axlenAt_one hax
  have hax2 : m.axlenAt 2 = word axlen (2 : Nat) := by
    have hindex : (((2 : Nat) : Int) - 1).toNat < axlen.length := htwo
    rw [Mask.axlenAt, hm.2, word, word]
    exact List.getD_append _ _ _ _ hindex
  obtain ⟨plr, hplr⟩ : ∃ plr : Plr, plr =
      { pl := setPlane m plane
        ncols := (word axlen 1 + b.1 - 1) / b.1
        nlines := (word axlen (2 : Nat) + b.2 - 1) / b.2
        xblock := b.1, yblock := b.2, bufp := bufp, x1 := 1, y1 := 1
        x2 := word axlen 1, y2 := word axlen (2 : Nat)
        plane := List.replicate plMaxdim 0 } := ⟨_, rfl⟩
  refine ⟨plr, b, ⟨fuel₀, fun fuel hfuel => ?_⟩, by rw [hplr], hisblock, ?_, ?_⟩
  · obtain ⟨bufp', ⟨n2, hrun2⟩, hlength', hbins'⟩ := htable fuel ⟨by omega, by omega⟩
    have hsame : bufp' = bufp := @table_unique ⟨(word axlen 1, word axlen (2 : Nat)), b⟩
      (BinRight _ axlen rows (planeCoords axlen.length plane)) _ _ hsize1.1
      (fun _ _ _ _ hab => BinRight.unique hfits hab) hlength' hlength hbins' hbins
    subst hsame
    obtain ⟨n1, hrun1⟩ := hblock
    refine ⟨n1 + n2, fun turns hturns => ?_⟩
    obtain ⟨d, rfl⟩ : ∃ d, turns = n1 + n2 + d := ⟨turns - (n1 + n2), by omega⟩
    have hrun1' := @run_mono _ _ _ _ n1 (n2 + d) _ _ hrun1
    have hrun2' := @run_mono _ _ _ _ n2 (n1 + d) _ _ hrun2
    rw [← Nat.add_assoc] at hrun1'
    rw [← Nat.add_assoc, Nat.add_comm n2 n1] at hrun2'
    unfold plrOpen
    unfold tableLimit at hrun1'
    simp only [hax1, hax2, hm.1, hrun1', atMost, bind, Except.bind, hrun2']
    rw [hplr]
    rfl
  · rw [hplr]
    exact ⟨hdraws, hfits, rfl, rfl, rfl, rfl, rfl, rfl, hbins⟩
  · intro bin hbin
    have hbufp : plr.bufp = bufp := by rw [hplr]
    rw [hbufp] at hbin
    obtain ⟨k, hk⟩ := List.mem_iff_getElem?.mp hbin
    have hlt : k < bufp.length := (List.getElem?_eq_some_iff.mp hk).1
    rw [hlength] at hlt
    obtain ⟨i, j, hij, rfl⟩ := @Grid.exists_place
      ⟨(word axlen 1, word axlen (2 : Nat)), b⟩ k hsize1.1 hlt
    obtain ⟨c, hc, -⟩ := hbins i j hij
    exact ⟨c, Option.some.inj (hk.symm.trans hc)⟩

/-- Random access equals direct access: `plr_open` ends without leaving its stack, every
bin of the table is set, and successive calls of `plr_getpix` return the pixels. -/
def RandomAccess (m : Mask) (axlen : List Int) (rows : List (List Int)) (plane : List Int)
    (buflimit : Int) : Prop :=
  ∃ fuel turns plr, plrOpen m plane buflimit fuel turns = .ok plr ∧
    (∀ bin ∈ plr.bufp, ∃ c, bin = some c) ∧
    ∀ ps : List (Int × Int), (∀ p ∈ ps, InMask axlen [p.1, p.2] 2) →
      plrGetpixs plr ps = .ok (ps.map fun p => maskPixel axlen rows [p.1, p.2])

/-- For a mask of two axes random access equals direct access, and a section is reported
to be constant, with its value, exactly when its pixels are equal. -/
theorem random_access {m : Mask} {axlen : List Int} {rows : List (List Int)}
    (hax : Axes axlen) (htwo : axlen.length = 2) (hm : m.Draws axlen rows)
    (hpx : ∀ line ∈ rows, ∀ p ∈ line, 0 ≤ p) (hlen : word axlen 1 ≤ arb)
    (hint : word axlen 2 ≤ 2147483647) :
    (∀ plane buflimit, RandomAccess m axlen rows plane buflimit) ∧
      ∀ v1 v2 ndim, InMask axlen v1 ndim → InMask axlen v2 ndim →
        ∃ fuel, ConstExact m axlen rows v1 v2 ndim fuel := by
  constructor
  · intro plane buflimit
    have hcoords : CoordsIn axlen (planeCoords axlen.length plane) :=
      fun i hi hi' => by omega
    obtain ⟨plr, b, ⟨fuel, hopens⟩, -, -, hready, hset⟩ := plr_opens hax (Nat.le_of_eq htwo.symm)
      hm.axes (setPlane_draws hm htwo plane) hpx hlen hint hcoords buflimit
    obtain ⟨turns, hopens⟩ := hopens fuel (Nat.le_refl fuel)
    refine ⟨fuel, turns, plr, hopens turns (Nat.le_refl turns), hset, fun ps hps => ?_⟩
    rw [hready.getpixs (.inl htwo) ps fun p hp =>
      ⟨hps p hp 1 (Nat.le_refl 1) hax.1 (by decide), hps p hp 2 (by decide) (by omega) (by decide)⟩]
    congr 1
    refine List.map_congr_left fun p _ => ?_
    have hnumber : lineNumber axlen (p.1 :: p.2 :: planeCoords axlen.length plane) =
        lineNumber axlen [p.1, p.2] := by
      refine lineNumber_congr fun i hlo hhi => ?_
      obtain rfl : i = 2 := by omega
      rfl
    rw [maskPixel, maskPixel, hnumber]
    rfl
  · intro v1 v2 ndim hv1 hv2
    obtain ⟨fuel, hlines, hfuel⟩ : ∃ fuel : Nat,
        (sectLines axlen.length v1 v2 ndim).length ≤ fuel ∧ (sectAxis v1 v2 ndim 1).2 < fuel :=
      ⟨(sectLines axlen.length v1 v2 ndim).length + ((sectAxis v1 v2 ndim 1).2 + 1).toNat,
        by omega, by omega⟩
    exact ⟨fuel, sectnotconst_exact hax hm hpx hlen hv1 hv2 hlines hfuel⟩

theorem random_access_twoLines :
    ∃ m₀ m, plSsize plOpen [3, 2] 1 ⟨1, by decide⟩ = .ok m₀ ∧ runOps m₀ twoLines = .ok m ∧
      RandomAccess m [3, 2] (picture [3, 2] twoLines) [] 4 := by
  have hax : Axes [3, 2] := by decide
  have hfit : SizedFits plOpen [3, 2] 1 ⟨1, by decide⟩ twoLines := by decide +kernel
  obtain ⟨m₀, m, s, hm₀, hm, hinv⟩ :=
    hfit.run Descriptor.opened.counts hax twoLines_legal
  refine ⟨m₀, m, hm₀, hm, ?_⟩
  exact (random_access hax rfl (hinv.draws (length_picture [3, 2] twoLines).2)
    (by decide) (by decide) (by decide)).1 [] 4

end Iraf.Plio
