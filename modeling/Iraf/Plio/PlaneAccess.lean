import Iraf.Plio.RandomAccess

/-!
# The plane that plr_open selects

`plr_open` writes the plane through `PLR_PLANE` into the mask descriptor, over the length of
the seventh axis and the first words of the active plane.
-/

namespace Iraf.Plio

/-- Set the active plane. -/
def plSetplane (pl : Mask) (v : List Int) : Mask :=
  { pl with plane := (List.range plMaxdim).map fun k : Nat => word v (k + 1 : Nat) }

/-! ## The words that are written -/

/-- The words of the mask descriptor under `PLR_PLANE(pl,3)`, …, `PLR_PLANE(pl,7)`. -/
def Mask.planeWords (m : Mask) : List Int := word m.axlen (7 : Nat) :: m.plane.take 4

section Descriptor

variable {m : Mask} {axlen : List Int}

theorem planeCoords_eq (n : Nat) (plane : List Int) :
    planeCoords n plane = [if 3 > n then 1 else word plane (3 : Nat),
      if 4 > n then 1 else word plane (4 : Nat), if 5 > n then 1 else word plane (5 : Nat),
      if 6 > n then 1 else word plane (6 : Nat), if 7 > n then 1 else word plane (7 : Nat)] :=
  rfl

theorem setPlrPlane_eq (m : Mask) (n i : Nat) (plane : List Int) (hi : 2 < i) :
    (if i > n then m.setPlrPlane i 1
      else if i > 2 then m.setPlrPlane i (word plane i) else m) =
      m.setPlrPlane i (if i > n then 1 else word plane i) := by
  by_cases h : i > n
  · rw [if_pos h, if_pos h]
  · rw [if_neg h, if_neg h, if_pos hi]

theorem setPlane_eq (htwo : 2 ≤ m.naxes) (plane : List Int) :
    ∃ c₃ c₄ c₅ c₆ c₇, planeCoords m.naxes plane = [c₃, c₄, c₅, c₆, c₇] ∧
      setPlane m plane = { m with
        axlen := m.axlen.set 6 c₃
        plane := (((m.plane.set 0 c₄).set 1 c₅).set 2 c₆).set 3 c₇ } := by
  refine ⟨_, _, _, _, _, planeCoords_eq m.naxes plane, ?_⟩
  have hskip : ∀ i : Nat, i ≤ 2 → ∀ m' : Mask, (if i > m.naxes then m'.setPlrPlane i 1
      else if i > 2 then m'.setPlrPlane i (word plane i) else m') = m' := by
    intro i hi m'
    rw [if_neg (by omega), if_neg (by omega)]
  rw [setPlane]
  simp only [List.foldl_cons, List.foldl_nil]
  rw [hskip 1 (by decide), hskip 2 (by decide), setPlrPlane_eq _ _ 3 _ (by decide),
    setPlrPlane_eq _ _ 4 _ (by decide), setPlrPlane_eq _ _ 5 _ (by decide),
    setPlrPlane_eq _ _ 6 _ (by decide), setPlrPlane_eq _ _ 7 _ (by decide)]
  rfl

theorem set_eq_self_iff {l : List Int} {k : Nat} (hk : k < l.length) (c : Int) :
    l.set k c = l ↔ l[k] = c := by
  constructor
  · intro h
    have hget := congrArg (fun l => l[k]?) h
    simp only [List.getElem?_set_self hk, List.getElem?_eq_getElem hk] at hget
    exact (Option.some.inj hget).symm
  · rintro rfl
    exact List.set_getElem_self hk

/-- The descriptor is left as it was exactly when its words were those of the plane. -/
theorem setPlane_eq_self_iff (htwo : 2 ≤ axlen.length) (hm : m.HasAxes axlen)
    (hplane : m.plane.length = plMaxdim) (plane : List Int) :
    setPlane m plane = m ↔ m.planeWords = planeCoords axlen.length plane := by
  have hnaxes : m.naxes = axlen.length := hm.1
  obtain ⟨c₃, c₄, c₅, c₆, c₇, hcoords, hset⟩ :=
    setPlane_eq (show 2 ≤ m.naxes by omega) plane
  have hlength : 6 < m.axlen.length := by
    rw [hm.2, List.length_append, List.length_replicate, plMaxdim]
    omega
  have hseventh : word m.axlen (7 : Nat) = m.axlen[6] :=
    List.getD_eq_getElem _ _ hlength
  obtain ⟨p₁, p₂, p₃, p₄, p₅, p₆, p₇, hp⟩ : ∃ p₁ p₂ p₃ p₄ p₅ p₆ p₇,
      m.plane = [p₁, p₂, p₃, p₄, p₅, p₆, p₇] := by
    match m.plane, hplane with
    | [p₁, p₂, p₃, p₄, p₅, p₆, p₇], _ => exact ⟨_, _, _, _, _, _, _, rfl⟩
  rw [← hnaxes, hcoords, hset, Mask.planeWords, hseventh, hp]
  constructor
  · intro h
    have haxlen : m.axlen.set 6 c₃ = m.axlen := congrArg Mask.axlen h
    have hwords := congrArg Mask.plane h
    rw [hp] at hwords
    rw [(set_eq_self_iff hlength c₃).mp haxlen]
    simpa [eq_comm] using hwords
  · intro h
    obtain ⟨h₃, h₄⟩ := List.cons.inj h
    rw [(set_eq_self_iff hlength c₃).mpr h₃]
    obtain ⟨rfl, rfl, rfl, rfl⟩ : p₁ = c₄ ∧ p₂ = c₅ ∧ p₃ = c₆ ∧ p₄ = c₇ := by simpa using h₄
    change { m with plane := [p₁, p₂, p₃, p₄, p₅, p₆, p₇] } = m
    rw [← hp]

end Descriptor

theorem plrOpen_pl {pl : Mask} {plane : List Int} {buflimit : Int} {fuel turns : Nat} {plr : Plr}
    (h : plrOpen pl plane buflimit fuel turns = .ok plr) : plr.pl = setPlane pl plane := by
  obtain ⟨block, -, h⟩ := bind_eq_ok.mp h
  obtain ⟨bufp, -, h⟩ := bind_eq_ok.mp h
  cases h
  rfl

theorem Mask.Draws.setplane {m : Mask} {axlen : List Int} {rows : List (List Int)}
    (h : m.Draws axlen rows) (v : List Int) : (plSetplane m v).Draws axlen rows :=
  ⟨h.axes, h.count, h.full, h.encodes, h.empty⟩

theorem length_plSetplane (m : Mask) (v : List Int) :
    (plSetplane m v).plane.length = plMaxdim := by
  rw [plSetplane, List.length_map, List.length_range]

theorem PlrOpens.pl {pl : Mask} {plane : List Int} {buflimit : Int} {plr : Plr}
    (h : PlrOpens pl plane buflimit plr) : plr.pl = setPlane pl plane := by
  obtain ⟨fuel, hfuel⟩ := h
  obtain ⟨turns, hturns⟩ := hfuel fuel (Nat.le_refl fuel)
  exact plrOpen_pl (hturns turns (Nat.le_refl turns))

/-! ## Selecting a plane -/

/-- Opening the plane leaves the mask as it was, and `plr_getpix` returns the pixels of the
plane. -/
def PlaneAccess (m : Mask) (axlen : List Int) (rows : List (List Int)) (plane : List Int)
    (buflimit : Int) : Prop :=
  ∃ plr, PlrOpens m plane buflimit plr ∧ plr.pl = m ∧
    ∀ ps : List (Int × Int), (∀ p ∈ ps, InMask axlen [p.1, p.2] 2) →
      plrGetpixs plr ps =
        .ok (ps.map fun p => maskPixel axlen rows (p.1 :: p.2 :: planeCoords axlen.length plane))

/-- Every bin of the table has pixels of one value. -/
def PlainBins (axlen : List Int) (rows : List (List Int)) (plane : List Int) (buflimit : Int) :
    Prop :=
  ∀ block, IsBlock (word axlen 1, word axlen (2 : Nat)) (tableLimit buflimit) block →
    ∀ a b, Grid.InTable ⟨(word axlen 1, word axlen (2 : Nat)), block⟩ a b →
      ∃ c, BinIs ⟨(word axlen 1, word axlen (2 : Nat)), block⟩ axlen rows
        (planeCoords axlen.length plane) a b c

section Access

variable {m : Mask} {axlen plane : List Int} {rows : List (List Int)} {buflimit : Int}

theorem PlaneAccess.words (htwo : 2 ≤ axlen.length) (hm : m.HasAxes axlen)
    (hlength : m.plane.length = plMaxdim) (h : PlaneAccess m axlen rows plane buflimit) :
    m.planeWords = planeCoords axlen.length plane := by
  obtain ⟨plr, hopens, hpl, -⟩ := h
  apply (setPlane_eq_self_iff htwo hm hlength plane).mp
  rw [← hopens.pl, hpl]

theorem coordsIn_plane (hplane : ∀ i : Nat, 3 ≤ i → i ≤ axlen.length →
    1 ≤ word plane i ∧ word plane i ≤ word axlen i) (hlen : axlen.length ≤ plMaxdim) :
    CoordsIn axlen (planeCoords axlen.length plane) := by
  intro i hlo hhi
  have hword : word (planeCoords axlen.length plane) i = word plane (i + 2 : Nat) := by
    have hi : i - 1 < 5 := by
      have hmax : axlen.length ≤ 7 := hlen
      omega
    obtain ⟨k, rfl⟩ : ∃ k, i = k + 1 := ⟨i - 1, by omega⟩
    have hin : ¬ (k + 3 > axlen.length) := by omega
    have hk : k < 5 := by omega
    rw [planeCoords_eq]
    match k, hk, hin with
    | 0, _, h | 1, _, h | 2, _, h | 3, _, h | 4, _, h => exact if_neg h
  rw [hword]
  exact hplane (i + 2) (by omega) hhi

variable (hax : Axes axlen) (htwo : 2 ≤ axlen.length) (hm : m.Draws axlen rows)
  (hpx : ∀ line ∈ rows, ∀ p ∈ line, 0 ≤ p) (hlen : word axlen 1 ≤ arb)
  (hint : word axlen (2 : Nat) ≤ 2147483647) (hlength : m.plane.length = plMaxdim)
  (hplane : ∀ i : Nat, 3 ≤ i → i ≤ axlen.length → 1 ≤ word plane i ∧ word plane i ≤ word axlen i)

include hax htwo hm hpx hlen hint hlength hplane

theorem plr_ready (hwords : m.planeWords = planeCoords axlen.length plane) (buflimit : Int) :
    ∃ plr b, PlrOpens m plane buflimit plr ∧ plr.pl = m ∧
      IsBlock (word axlen 1, word axlen (2 : Nat)) (tableLimit buflimit) b ∧
      plr.Ready ⟨(word axlen 1, word axlen (2 : Nat)), b⟩ axlen rows
        (planeCoords axlen.length plane) := by
  have hsame : setPlane m plane = m :=
    (setPlane_eq_self_iff htwo hm.axes hlength plane).mpr hwords
  obtain ⟨plr, b, hopens, hpl, hblock, hready, -⟩ := plr_opens hax htwo hm.axes
    (hsame.symm ▸ hm) hpx hlen hint (coordsIn_plane hplane hax.2.1) buflimit
  exact ⟨plr, b, hopens, hpl.trans hsame, hblock, hready⟩

theorem PlaneAccess.plain (hmore : 3 ≤ axlen.length)
    (h : PlaneAccess m axlen rows plane buflimit) : PlainBins axlen rows plane buflimit := by
  intro block hblock a b hab
  have hwords := h.words htwo hm.axes hlength
  obtain ⟨plr, hopens, -, hpixels⟩ := h
  obtain ⟨plr', block', hopens', -, hblock', hready⟩ :=
    plr_ready hax htwo hm hpx hlen hint hlength hplane hwords buflimit
  obtain rfl := hopens.unique hopens'
  obtain rfl := hblock.unique hblock'
  by_contra hcomplex
  obtain ⟨i, j, hij, herror⟩ := hready.getpix_complex hmore hab (not_exists.mp hcomplex)
  have hget := hpixels [(i, j)] fun p hp => by
    obtain rfl := List.mem_singleton.mp hp
    intro k hlo _ hhi
    obtain rfl | rfl : k = 1 ∨ k = 2 := by omega
    · exact hij.1
    · exact hij.2
  rw [plrGetpixs, herror] at hget
  cases hget

theorem PlaneAccess.intro (hwords : m.planeWords = planeCoords axlen.length plane)
    (hbins : axlen.length = 2 ∨ PlainBins axlen rows plane buflimit) :
    PlaneAccess m axlen rows plane buflimit := by
  obtain ⟨plr, block, hopens, hpl, hblock, hready⟩ :=
    plr_ready hax htwo hm hpx hlen hint hlength hplane hwords buflimit
  refine ⟨plr, hopens, hpl, fun ps hps => hready.getpixs ?_ ps fun p hp => ?_⟩
  · rcases hbins with htwo' | hplain
    · exact .inl htwo'
    · exact .inr (hplain block hblock)
  · exact ⟨hps p hp 1 (Nat.le_refl 1) hax.1 (by decide),
      hps p hp 2 (by decide) htwo (Nat.le_refl 2)⟩

end Access

/-- A plane is opened without touching the mask, and its pixels are returned, exactly when
the five words that are overwritten were those of the plane and, beyond two axes, no bin of
the table is complex. -/
theorem planeAccess_iff {m : Mask} {axlen : List Int} {rows : List (List Int)}
    (hax : Axes axlen) (htwo : 2 ≤ axlen.length) (hm : m.Draws axlen rows)
    (hpx : ∀ line ∈ rows, ∀ p ∈ line, 0 ≤ p) (hlen : word axlen 1 ≤ arb)
    (hint : word axlen (2 : Nat) ≤ 2147483647) {plane : List Int}
    (hplane : ∀ i : Nat, 3 ≤ i → i ≤ axlen.length →
      1 ≤ word plane i ∧ word plane i ≤ word axlen i) (v : List Int) (buflimit : Int) :
    PlaneAccess (plSetplane m v) axlen rows plane buflimit ↔
      (plSetplane m v).planeWords = planeCoords axlen.length plane ∧
        (axlen.length = 2 ∨ PlainBins axlen rows plane buflimit) := by
  have hdraws := hm.setplane v
  have hlength := length_plSetplane m v
  constructor
  · intro h
    refine ⟨h.words htwo hdraws.axes hlength, ?_⟩
    rcases Nat.eq_or_lt_of_le htwo with heq | hmore
    · exact .inl heq.symm
    · exact .inr (h.plain hax htwo hdraws hpx hlen hint hlength hplane hmore)
  · rintro ⟨hwords, hbins⟩
    exact .intro hax htwo hdraws hpx hlen hint hlength hplane hwords hbins

/-- The first line of a mask of two planes of one line is stored. -/
def twoPlanes : List MaskOp := [.update [1, 1, 1] (fun i => i - 1) 1 ⟨1, Int.one_pos⟩]

theorem twoPlanes_draws : ∃ m₀ m, plSsize plOpen [3, 1, 2] 1 ⟨1, by decide⟩ = .ok m₀ ∧
    runOps m₀ twoPlanes = .ok m ∧ m.Draws [3, 1, 2] (picture [3, 1, 2] twoPlanes) := by
  have hfit : SizedFits plOpen [3, 1, 2] 1 ⟨1, by decide⟩ twoPlanes := by decide +kernel
  have hlegal : ∀ op ∈ twoPlanes, op.Legal [3, 1, 2] := by
    intro op hop
    obtain rfl := List.mem_singleton.mp hop
    refine ⟨fun i hlo hhi => ?_, fun i _ hi => ?_⟩
    · obtain rfl | rfl : i = 2 ∨ i = 3 := by
        have hhi' : i ≤ 3 := hhi
        omega
      · decide
      · decide
    · simp only [iPvmax]
      have hi' : i ≤ 1 + 3 - 1 := hi
      omega
  obtain ⟨m₀, m, s, hm₀, hm, hinv⟩ :=
    hfit.run Descriptor.opened.counts (show Axes [3, 1, 2] by decide) hlegal
  exact ⟨m₀, m, hm₀, hm, hinv.draws (length_picture [3, 1, 2] twoPlanes).2⟩

theorem isBlock_twoPlanes {block : Int × Int}
    (h : IsBlock (word [3, 1, 2] 1, word [3, 1, 2] (2 : Nat)) (tableLimit 4) block) :
    block = (1, 1) :=
  h.unique ⟨0, rfl, by decide, fun j hj => absurd hj (Nat.not_lt_zero j)⟩

theorem planeAccess_twoPlanes :
    ∃ m₀ m, plSsize plOpen [3, 1, 2] 1 ⟨1, by decide⟩ = .ok m₀ ∧ runOps m₀ twoPlanes = .ok m ∧
      PlaneAccess (plSetplane m [1, 1, 1, 1, 1, 1, 1]) [3, 1, 2] (picture [3, 1, 2] twoPlanes)
        [1, 1, 1] 4 := by
  obtain ⟨m₀, m, hm₀, hm, hdraws⟩ := twoPlanes_draws
  refine ⟨m₀, m, hm₀, hm, ?_⟩
  have hplane : ∀ i : Nat, 3 ≤ i → i ≤ 3 → 1 ≤ word [1, 1, 1] i ∧
      word [1, 1, 1] i ≤ word [3, 1, 2] i := by
    intro i hlo hhi
    obtain rfl : i = 3 := by omega
    decide
  apply (planeAccess_iff (by decide) (by decide) hdraws (by decide) (by decide) (by decide)
    hplane [1, 1, 1, 1, 1, 1, 1] 4).mpr
  constructor
  · have haxlen : (plSetplane m [1, 1, 1, 1, 1, 1, 1]).axlen = [3, 1, 2] ++ List.replicate 4 1 :=
      hdraws.axes.2
    rw [Mask.planeWords, haxlen]
    rfl
  · refine .inr fun block hblock a b _ => ?_
    obtain rfl := isBlock_twoPlanes hblock
    -- A block is a single pixel.
    refine ⟨maskPixel [3, 1, 2] (picture [3, 1, 2] twoPlanes)
      (a :: b :: planeCoords 3 [1, 1, 1]), fun x y hxy => ?_⟩
    obtain ⟨⟨hx, hx'⟩, hy, hy'⟩ := hxy
    simp only [Int.mul_one] at hx hx' hy hy'
    obtain rfl : x = a := by omega
    obtain rfl : y = b := by omega
    rfl

/-- The second plane cannot be opened without writing its number over the mask, and the
first one cannot be read through a bin of two pixels that differ. -/
theorem not_planeAccess_twoPlanes :
    ∃ m₀ m, plSsize plOpen [3, 1, 2] 1 ⟨1, by decide⟩ = .ok m₀ ∧ runOps m₀ twoPlanes = .ok m ∧
      ¬ PlaneAccess (plSetplane m [1, 1, 1, 1, 1, 1, 1]) [3, 1, 2] (picture [3, 1, 2] twoPlanes)
        [1, 1, 2] 4 ∧
      ¬ PlaneAccess (plSetplane m [1, 1, 1, 1, 1, 1, 1]) [3, 1, 2] (picture [3, 1, 2] twoPlanes)
        [1, 1, 1] 1 := by
  obtain ⟨m₀, m, hm₀, hm, hdraws⟩ := twoPlanes_draws
  have hset := hdraws.setplane [1, 1, 1, 1, 1, 1, 1]
  have hlength := length_plSetplane m [1, 1, 1, 1, 1, 1, 1]
  refine ⟨m₀, m, hm₀, hm, fun h => ?_, fun h => ?_⟩
  · have hwords := h.words (by decide) hset.axes hlength
    have haxlen : (plSetplane m [1, 1, 1, 1, 1, 1, 1]).axlen = [3, 1, 2] ++ List.replicate 4 1 :=
      hset.axes.2
    rw [Mask.planeWords, haxlen, planeCoords_eq] at hwords
    exact absurd (List.cons.inj hwords).1 (by decide)
  · have hplane : ∀ i : Nat, 3 ≤ i → i ≤ 3 → 1 ≤ word [1, 1, 1] i ∧
        word [1, 1, 1] i ≤ word [3, 1, 2] i := by
      intro i hlo hhi
      obtain rfl : i = 3 := by omega
      decide
    have hplain := h.plain (by decide) (by decide) hset (by decide) (by decide) (by decide) hlength
      hplane (by decide)
    have hblock : IsBlock (word [3, 1, 2] 1, word [3, 1, 2] (2 : Nat)) (tableLimit 1) (2, 1) :=
      ⟨1, by decide, by decide, by decide⟩
    obtain ⟨c, hc⟩ := hplain (2, 1) hblock 1 1 ⟨by decide, by decide⟩
    have hfirst := hc 1 1 ⟨by decide, by decide⟩
    have hsecond := hc 2 1 ⟨by decide, by decide⟩
    rw [← hsecond] at hfirst
    exact absurd hfirst (by decide)

end Iraf.Plio
