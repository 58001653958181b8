import Iraf.Lib.SegmentWalk
import Iraf.Plio.RangeList

/-!
# Reading a range list segment by segment

The cursor of `plrseg.h`.  Before a range it delivers the zeros up to it, and
takes the end of the zeros from the element whose index is the pixel position,
not from the element of the range.  `Crosses` says when that comes out right.
-/

namespace Iraf.Plio

open SegmentWalk

/-- The descriptor of `plrseg.h`. -/
structure RlDes where
  nleft : Int
  value : Int
  x : Int
  rn : Int
  deriving DecidableEq, Repr

def plrNextseg (rl : List RlElem) (d : RlDes) : RlDes :=
  if d.rn ≤ rlLen rl then
    if (rlElem rl d.rn).x > d.x then
      -- The index is `rd_x`, as in the source.
      { d with value := 0, nleft := (rlElem rl d.x).x - d.x }
    else
      { d with value := (rlElem rl d.rn).v, nleft := (rlElem rl d.rn).n,
               rn := d.rn + 1 }
  else if d.x ≤ rlAxlen rl then
    { d with value := 0, nleft := rlAxlen rl - d.x + 1 }
  else d

def plrInit (rl : List RlElem) : RlDes := plrNextseg rl ⟨0, 0, 1, rlFirst⟩

/-- Read `npix` pixels of the current segment: the cursor after them and their
value. -/
def plrGetseg (rl : List RlElem) (d : RlDes) (npix : Int) : RlDes × Int :=
  let left := { d with x := d.x + npix, nleft := d.nleft - npix }
  (if left.nleft ≤ 0 then plrNextseg rl left else left, d.value)

def rlReader (rl : List RlElem) : Reader Int RlDes :=
  ⟨RlDes.nleft, plrGetseg rl⟩

/-! ## Gaps that are read right -/

/-- The zeros from `x` on are read up to the range that begins at `r`. -/
inductive Crosses (rl : List RlElem) (r : Int) : Int → Prop where
  | here : Crosses rl r r
  | jump {x : Int} : x < (rlElem rl x).x → (rlElem rl x).x ≤ r →
      Crosses rl r (rlElem rl x).x → Crosses rl r x

theorem Crosses.next {rl : List RlElem} {r x : Int} (h : Crosses rl r x)
    (hlt : x < r) : x < (rlElem rl x).x ∧ (rlElem rl x).x ≤ r ∧
      Crosses rl r (rlElem rl x).x := by
  cases h with
  | here => omega
  | jump h1 h2 h3 => exact ⟨h1, h2, h3⟩

/-- Every gap that begins at or before position `T` is read right. -/
def GapsTo (rl : List RlElem) (T : Int) : Int → List RlElem → Prop
  | _, [] => True
  | pos, r :: rs => (pos ≤ T → Crosses rl r.x pos) ∧ GapsTo rl T (r.x + r.n) rs

/-- The pixels of a range list up to position `T` are read right. -/
def Readable (rl : List RlElem) (T : Int) : Prop :=
  GapsTo rl T 1 ((rl.take (rlLen rl).toNat).drop 1)

namespace RlDes

/-- The ranges `rs` are still to be read. -/
def Position (d : RlDes) (rl rs : List RlElem) : Prop :=
  ∃ before rest, rl = before ++ (rs ++ rest) ∧ d.rn = before.length + 1 ∧
    rlLen rl = before.length + rs.length

/-- The cursor is inside a segment, and what follows is read right up to
position `T`. -/
def Live (rl : List RlElem) (T : Int) (d : RlDes) (line : List Int) : Prop :=
  0 < d.nleft ∧ ∃ rs, d.Position rl rs ∧
    RangesFrom (rlAxlen rl) (d.x + d.nleft) rs ∧
    GapsTo rl T (d.x + d.nleft) rs ∧
    line = (List.replicate d.nleft.toNat d.value ++
      rangeCells (rlAxlen rl) (d.x + d.nleft) rs).take line.length

variable {rl : List RlElem} {T : Int}

theorem Position.elem {d : RlDes} {r : RlElem} {rs : List RlElem}
    (h : d.Position rl (r :: rs)) :
    d.rn ≤ rlLen rl ∧ rlElem rl d.rn = r ∧
      { d with rn := d.rn + 1 }.Position rl rs := by
  obtain ⟨before, rest, hrl, hrn, hlen⟩ := h
  have hindex : (d.rn - 1).toNat = before.length := by omega
  refine ⟨by rw [List.length_cons] at hlen; omega, ?_,
    before ++ [r], rest, by simpa using hrl, by simp [hrn], by
      simp only [List.length_cons] at hlen
      simp only [List.length_append, List.length_singleton]
      omega⟩
  rw [rlElem, hindex, hrl]
  simp

theorem live_nextseg {d : RlDes} {rs : List RlElem} {line : List Int}
    (h : d.Position rl rs) (hfrom : RangesFrom (rlAxlen rl) d.x rs)
    (hgaps : GapsTo rl T d.x rs) (hT : d.x ≤ T) (haxlen : d.x ≤ rlAxlen rl)
    (hline : line = (rangeCells (rlAxlen rl) d.x rs).take line.length) :
    (plrNextseg rl d).Live rl T line := by
  unfold plrNextseg
  cases rs with
  | nil =>
      have hlast : ¬ d.rn ≤ rlLen rl := by
        obtain ⟨before, rest, -, hrn, hlen⟩ := h
        rw [List.length_nil] at hlen
        omega
      rw [if_neg hlast, if_pos haxlen]
      have hend : d.x + (rlAxlen rl - d.x + 1) = rlAxlen rl + 1 := by omega
      have hcount : (rlAxlen rl - d.x + 1).toNat =
          (rlAxlen rl + 1 - d.x).toNat := by omega
      refine ⟨by simp only; omega, [], h, ?_, trivial, ?_⟩
      · simp only [RangesFrom]
        omega
      · simpa [hend, hcount, rangeCells] using hline
  | cons r rs =>
      obtain ⟨hrn, helem, htail⟩ := h.elem
      obtain ⟨hx, hn, hrest⟩ := hfrom
      obtain ⟨hcross, hgaps'⟩ := hgaps
      rw [if_pos hrn, helem]
      by_cases hgap : r.x > d.x
      · rw [if_pos hgap]
        obtain ⟨hlt, hle, hcross'⟩ := (hcross hT).next hgap
        have hend : d.x + ((rlElem rl d.x).x - d.x) = (rlElem rl d.x).x := by
          omega
        refine ⟨by simp only; omega, r :: rs, h, ?_, ?_, ?_⟩
        · simp only [hend]
          exact ⟨hle, hn, hrest⟩
        · simp only [hend]
          exact ⟨fun _ => hcross', hgaps'⟩
        · have hzeros : (r.x - d.x).toNat =
              ((rlElem rl d.x).x - d.x).toNat +
                (r.x - (rlElem rl d.x).x).toNat := by omega
          simp only [hend]
          rw [rangeCells, hzeros, ← List.replicate_append_replicate,
            List.append_assoc] at hline
          exact hline
      · rw [if_neg hgap]
        have hstart : r.x = d.x := by omega
        rw [hstart] at hrest hgaps'
        refine ⟨by simpa using hn, rs, htail, hrest, hgaps', ?_⟩
        rw [rangeCells, hstart] at hline
        simpa using hline

theorem Live.getseg {d : RlDes} {line : List Int} (h : d.Live rl T line)
    (hT : T ≤ rlAxlen rl) (hpos : line.length + d.x = T + 1) {np : Nat}
    (hnp : (np : Int) ≤ d.nleft) :
    line.take np = List.replicate (min np line.length) d.value ∧
      (np < line.length →
        (plrGetseg rl d np).1.Live rl T (line.drop np)) := by
  obtain ⟨hleft, rs, hposition, hfrom, hgaps, hline⟩ := h
  constructor
  · rw [hline, List.take_take, List.take_append_of_le_length (by simp; omega),
      List.take_replicate]
    simp only [List.length_take, List.length_append, List.length_replicate]
    congr 1
    omega
  · intro hlt
    have hdrop : line.drop np =
        (List.replicate (d.nleft - np).toNat d.value ++
          rangeCells (rlAxlen rl) (d.x + d.nleft) rs).take
            (line.drop np).length := by
      have hcount : d.nleft.toNat - np = (d.nleft - np).toNat := by omega
      conv => lhs; rw [hline]
      rw [List.drop_take, List.length_drop,
        List.drop_append_of_le_length (by simp; omega), List.drop_replicate,
        hcount]
    unfold plrGetseg
    by_cases hmore : d.nleft - (np : Int) ≤ 0
    · have hnp' : (np : Int) = d.nleft := by omega
      have hzero : (d.nleft - (np : Int)).toNat = 0 := by omega
      simp only [if_pos hmore]
      rw [hzero] at hdrop
      rw [hnp'] at hmore ⊢
      exact live_nextseg (d := { d with
          x := d.x + d.nleft, nleft := d.nleft - d.nleft })
        hposition hfrom hgaps (by simp only; omega) (by simp only; omega)
        (by simpa using hdrop)
    · have hsum : d.x + (np : Int) + (d.nleft - np) = d.x + d.nleft := by omega
      simp only [if_neg hmore]
      refine ⟨by simp only; omega, rs, hposition, ?_, ?_, ?_⟩
      · simpa [hsum] using hfrom
      · simpa [hsum] using hgaps
      · simpa [hsum] using hdrop

/-- The cursor has still to deliver the line up to position `T`. -/
def AheadTo (rl : List RlElem) (T : Int) (d : RlDes) (line : List Int) : Prop :=
  line.length + d.x = T + 1 ∧ (line ≠ [] → d.Live rl T line)

/-- The cursor has still to deliver the rest of the line. -/
def Ahead (rl : List RlElem) (d : RlDes) (line : List Int) : Prop :=
  d.AheadTo rl (rlAxlen rl) line ∧
    (line = [] → d.nleft = 0 ∧ rlLen rl < d.rn)

end RlDes

end Iraf.Plio
