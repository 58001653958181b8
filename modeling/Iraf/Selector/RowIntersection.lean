import Iraf.Lib.RangeSets
import Iraf.Selector.RowAlgebra

/-!
# Intersection of row sets

`rst_and` keeps an output range of one set and cuts the ranges of the other set with it.
A range that goes on past the end of the output range is kept and the next range of the first
set becomes the output range, also where that one begins too late.
-/

namespace Iraf.Selector

/-! ## Stretches of overlapping ranges -/

/-- Rows `v` and `v + 1` lie in one range. -/
def Linked (rs ts : List (Int × Int)) (v : Int) : Prop :=
  ∃ q, (q ∈ rs ∨ q ∈ ts) ∧ q.1 ≤ v ∧ v < q.2

/-- A stretch of overlapping ranges leads from range `r` of `rs` to the end of range `t` of the
other set, where it ends outside of `rs`. -/
structure Strands (rs ts : List (Int × Int)) (r t : Int × Int) : Prop where
  other : t ∈ ts
  past : r.2 < t.2
  linked : ∀ v, r.1 ≤ v → v < t.2 → Linked rs ts v
  outside : t.2 ∉ cells rs

/-- Which set the output range is from: `second` tells that it is `rs2`. -/
inductive Lead (rs1 rs2 : List (Int × Int)) : Bool → List (Int × Int) → List (Int × Int) → Prop
  | first : Lead rs1 rs2 false rs1 rs2
  | second : Lead rs1 rs2 true rs2 rs1

/-- Range `q` is taken before range `r`; where they begin together `rs1` comes first. -/
def TakenBefore (second : Bool) (q r : Int × Int) : Prop :=
  if second then q.1 ≤ r.1 else q.1 < r.1

/-- A stretch that begins with a range of one set and ends with a range of the other. -/
structure Crossing (second : Bool) (rs ts : List (Int × Int)) (r t : Int × Int) : Prop where
  opens : r ∈ rs
  alone : ∀ q ∈ ts, TakenBefore second q r → q.2 < r.1
  strands : Strands rs ts r t

/-- Two ranges begin after row `b`. -/
def TwoAfter (rs : List (Int × Int)) (b : Int) : Prop :=
  ∃ u ∈ rs, ∃ v ∈ rs, b < u.1 ∧ u.2 < v.1

/-- The first crossing stretch after row `c` is followed by two ranges of the set that it
began with. -/
def Trapped (rs1 rs2 : List (Int × Int)) (c : Int) : Prop :=
  ∃ second rs ts r t, Lead rs1 rs2 second rs ts ∧ Crossing second rs ts r t ∧ c < r.1 ∧
    (∀ second' rs' ts' r' t', Lead rs1 rs2 second' rs' ts' → Crossing second' rs' ts' r' t' →
      c < r'.1 → r.1 ≤ r'.1) ∧
    TwoAfter rs t.2

variable {rs1 rs2 rs ts : List (Int × Int)} {second : Bool} {p x y : Int × Int}
  {dx xs dy ys : List (Int × Int)} {a b c : Int}

theorem trapped_congr
    (h : ∀ second rs ts r t, Lead rs1 rs2 second rs ts → Crossing second rs ts r t →
      (a < r.1 ↔ b < r.1)) : Trapped rs1 rs2 a ↔ Trapped rs1 rs2 b := by
  constructor
  · rintro ⟨second, rs, ts, r, t, hlead, hcross, hafter, hfirst, htwo⟩
    exact ⟨second, rs, ts, r, t, hlead, hcross, (h _ _ _ _ _ hlead hcross).mp hafter,
      fun second' rs' ts' r' t' hlead' hcross' hafter' =>
        hfirst second' rs' ts' r' t' hlead' hcross' ((h _ _ _ _ _ hlead' hcross').mpr hafter'),
      htwo⟩
  · rintro ⟨second, rs, ts, r, t, hlead, hcross, hafter, hfirst, htwo⟩
    exact ⟨second, rs, ts, r, t, hlead, hcross, (h _ _ _ _ _ hlead hcross).mpr hafter,
      fun second' rs' ts' r' t' hlead' hcross' hafter' =>
        hfirst second' rs' ts' r' t' hlead' hcross' ((h _ _ _ _ _ hlead' hcross').mp hafter'),
      htwo⟩

/-! ## The turns of the main loop -/

/-- The main loop with an output range of the set whose ranges `xs` are left. -/
def turn (second : Bool) (p : Int × Int) (xs ys : List (Int × Int)) : List (Int × Int) :=
  if second then andMain p.1 p.2 ys xs else andMain p.1 p.2 xs ys

theorem andMain_opens (hi : Int) :
    andMain 0 hi (x :: xs) (y :: ys) =
      if x.1 ≤ y.1 then turn false x xs (y :: ys) else turn true y ys (x :: xs) := by
  rw [andMain, if_pos rfl]
  rfl

theorem turn_consumes (hp : p.1 ≠ 0) (hx : p.2 < x.1) (hy : y.1 ≤ p.2) (hend : y.2 ≤ p.2) :
    turn second p (x :: xs) (y :: ys) =
      (max p.1 y.1, min p.2 y.2) :: turn second p (x :: xs) ys := by
  cases second with
  | false =>
      rw [turn, if_neg Bool.false_ne_true, andMain, if_neg hp, if_neg (by omega), if_pos hy,
        if_pos hend]
      rfl
  | true =>
      rw [turn, if_pos rfl, andMain, if_neg hp, if_pos (by omega), if_pos hy, if_pos hend]
      rfl

theorem turn_crosses (hp : p.1 ≠ 0) (hx : p.2 < x.1) (hy : y.1 ≤ p.2) (hend : p.2 < y.2) :
    turn second p (x :: xs) (y :: ys) =
      (max p.1 y.1, min p.2 y.2) :: turn second x xs (y :: ys) := by
  cases second with
  | false =>
      rw [turn, if_neg Bool.false_ne_true, andMain, if_neg hp, if_neg (by omega), if_pos hy,
        if_neg (by omega)]
      rfl
  | true =>
      rw [turn, if_pos rfl, andMain, if_neg hp, if_pos (by omega), if_pos hy, if_neg (by omega)]
      rfl

theorem turn_discards (hp : p.1 ≠ 0) (hx : p.2 < x.1) (hy : p.2 < y.1) :
    turn second p (x :: xs) (y :: ys) =
      if second then andMain 0 p.2 (y :: ys) (x :: xs) else andMain 0 p.2 (x :: xs) (y :: ys) := by
  cases second with
  | false =>
      rw [turn, if_neg Bool.false_ne_true, andMain, if_neg hp]
      by_cases hle : x.1 ≤ y.1
      · rw [if_pos hle, if_neg (by omega)]
        rfl
      · rw [if_neg hle, if_neg (by omega)]
        rfl
  | true =>
      rw [turn, if_pos rfl, andMain, if_neg hp]
      by_cases hle : y.1 ≤ x.1
      · rw [if_pos hle, if_neg (by omega)]
        rfl
      · rw [if_neg hle, if_neg (by omega)]
        rfl

/-! ## Where a turn stands in the two sets -/

/-- Ranges with a row missing between any two of them. -/
structure Apart (rs : List (Int × Int)) : Prop where
  rows : ∀ r ∈ rs, 1 ≤ r.1 ∧ r.1 ≤ r.2
  gaps : rs.Pairwise fun r s => r.2 + 1 < s.1

theorem Apart.inOrder (h : Apart rs) : InOrder rs :=
  ⟨h.rows, h.gaps.imp fun hlt => by omega⟩

/-- Range `p` of `rs` is the output range, and the other set has been read up to `ys`. -/
structure Pending (rs ts dx : List (Int × Int)) (p : Int × Int) (xs dy ys : List (Int × Int)) :
    Prop where
  apart : Apart rs
  apart' : Apart ts
  split : rs = dx ++ p :: xs
  split' : ts = dy ++ ys
  done : ∀ q ∈ dy, q.2 ≤ p.2

namespace Pending

variable (h : Pending rs ts dx p xs dy ys)
include h

theorem row : 1 ≤ p.1 ∧ p.1 ≤ p.2 := h.apart.rows p (by simp [h.split])

theorem mem : p ∈ rs := by simp [h.split]

theorem before : ∀ q ∈ dx, q.2 + 1 < p.1 := by
  have hgaps := h.apart.gaps
  rw [h.split] at hgaps
  intro q hq
  exact (List.pairwise_append.mp hgaps).2.2 q hq p List.mem_cons_self

theorem after : ∀ q ∈ xs, p.2 + 1 < q.1 := by
  have hgaps := h.apart.gaps
  rw [h.split] at hgaps
  exact (List.pairwise_cons.mp (List.pairwise_append.mp hgaps).2.1).1

theorem rest : InOrder (p :: xs) := by
  have horder := h.apart.inOrder
  rw [h.split] at horder
  exact (InOrder.append_iff.mp horder).2.1

theorem rest' : InOrder ys := by
  have horder := h.apart'.inOrder
  rw [h.split'] at horder
  exact (InOrder.append_iff.mp horder).2.1

theorem gap' {y : Int × Int} {zs : List (Int × Int)} (hys : ys = y :: zs) :
    ∀ q ∈ zs, y.2 + 1 < q.1 := by
  have hgaps := h.apart'.gaps
  rw [h.split', hys] at hgaps
  exact (List.pairwise_cons.mp (List.pairwise_append.mp hgaps).2.1).1

/-- The ranges of the set of the output range lie before it, after it, or are it. -/
theorem cases {q : Int × Int} (hq : q ∈ rs) : q.2 + 1 < p.1 ∨ q = p ∨ q ∈ xs ∧ p.2 + 1 < q.1 := by
  rw [h.split] at hq
  rcases List.mem_append.mp hq with hq | hq
  · exact .inl (h.before q hq)
  · rcases List.mem_cons.mp hq with rfl | hq
    · exact .inr (.inl rfl)
    · exact .inr (.inr ⟨hq, h.after q hq⟩)

theorem cases' {q : Int × Int} (hq : q ∈ ts) : q.2 ≤ p.2 ∨ q ∈ ys := by
  rw [h.split'] at hq
  exact (List.mem_append.mp hq).imp_left (h.done q)

end Pending

/-! ## Whether a turn can go wrong -/

/-- The stretch of the output range is a crossing one that is followed by two ranges, or it is
none and the next crossing one is so. -/
def Doomed (rs1 rs2 rs ts : List (Int × Int)) (p : Int × Int) : Prop :=
  (∃ t, Strands rs ts p t ∧ TwoAfter rs t.2) ∨
    (¬ ∃ t, Strands rs ts p t) ∧ Trapped rs1 rs2 p.2

theorem Lead.same_or_other {second' : Bool} {rs' ts' : List (Int × Int)}
    (h : Lead rs1 rs2 second rs ts) (h' : Lead rs1 rs2 second' rs' ts') :
    (second' = second ∧ rs' = rs ∧ ts' = ts) ∨ (second' = !second ∧ rs' = ts ∧ ts' = rs) := by
  cases h <;> cases h' <;> simp

theorem takenBefore_of_lt (hlt : x.1 < y.1) : TakenBefore second x y := by
  cases second with
  | false => exact hlt
  | true => exact Int.le_of_lt hlt

namespace Pending

/-- A stretch that goes on past the end of the output range goes on through the range of the
other set that holds it. -/
theorem no_strands (h : Pending rs ts dx p xs dy ys) (hys : ∀ q ∈ ys, p.2 < q.1) :
    ¬ ∃ t, Strands rs ts p t := by
  rintro ⟨t, ht⟩
  obtain ⟨q, hq, hlo, hhi⟩ := ht.linked p.2 h.row.2 ht.past
  rcases hq with hq | hq
  · have hrow := h.row
    rcases h.cases hq with hbefore | rfl | ⟨-, hafter⟩
    · omega
    · omega
    · omega
  · rcases h.cases' hq with hdone | hrest
    · omega
    · have := hys q hrest
      omega

theorem doomed_discards (h : Pending rs ts dx p xs dy ys) (hys : ∀ q ∈ ys, p.2 < q.1) :
    Doomed rs1 rs2 rs ts p ↔ Trapped rs1 rs2 p.2 := by
  have hnone := h.no_strands hys
  constructor
  · rintro (⟨t, ht, -⟩ | ⟨-, htrapped⟩)
    · exact absurd ⟨t, ht⟩ hnone
    · exact htrapped
  · exact fun htrapped => .inr ⟨hnone, htrapped⟩

/-- Without a range left in one of the sets nothing begins or ends after the output range. -/
theorem not_trapped (hlead : Lead rs1 rs2 second rs ts) (h : Pending rs ts dx p xs dy ys)
    (hend : xs = [] ∨ ys = []) : ¬ Trapped rs1 rs2 p.2 := by
  rintro ⟨second', rs', ts', r, t, hlead', hcross, hafter, -, -⟩
  have hboth : ∀ q u : Int × Int, q ∈ rs → u ∈ ts → p.2 < q.2 → p.2 < u.2 → False := by
    intro q u hq hu hlt hlt'
    have hxs : q ∈ xs := by
      rcases h.cases hq with hbefore | rfl | ⟨hxs, -⟩
      · have hrow := h.row
        omega
      · omega
      · exact hxs
    have hys : u ∈ ys := by
      rcases h.cases' hu with hdone | hys
      · omega
      · exact hys
    rcases hend with rfl | rfl
    · exact absurd hxs List.not_mem_nil
    · exact absurd hys List.not_mem_nil
  rcases hlead.same_or_other hlead' with ⟨-, rfl, rfl⟩ | ⟨-, rfl, rfl⟩
  · have hrow := h.apart.rows r hcross.opens
    have hpast := hcross.strands.past
    exact hboth r t hcross.opens hcross.strands.other (by omega) (by omega)
  · have hrow := h.apart'.rows r hcross.opens
    have hpast := hcross.strands.past
    exact hboth t r hcross.strands.other hcross.opens (by omega) (by omega)

theorem not_twoAfter (h : Pending rs ts dx p [] dy ys) {b : Int} (hb : p.2 ≤ b) :
    ¬ TwoAfter rs b := by
  rintro ⟨u, hu, -, -, hlt, -⟩
  have hrow := h.row
  have hrow' := h.apart.rows u hu
  rcases h.cases hu with hbefore | rfl | ⟨hxs, -⟩
  · omega
  · omega
  · exact absurd hxs List.not_mem_nil

theorem not_doomed (hlead : Lead rs1 rs2 second rs ts) (h : Pending rs ts dx p xs dy ys)
    (hend : xs = [] ∨ ys = []) : ¬ Doomed rs1 rs2 rs ts p := by
  rintro (⟨t, ht, htwo⟩ | ⟨-, htrapped⟩)
  · rcases hend with rfl | rfl
    · exact h.not_twoAfter (Int.le_of_lt ht.past) htwo
    · exact h.no_strands (by simp) ⟨t, ht⟩
  · exact h.not_trapped hlead hend htrapped

/-! ### Crossing the end of the output range -/

theorem strands_through (h : Pending rs ts dx p (x :: xs) dy (y :: ys)) (hy : y.1 ≤ p.2)
    (hend : p.2 < y.2) (hx : y.2 < x.1) : Strands rs ts p y where
  other := by simp [h.split']
  past := hend
  linked v hlo hhi := by
    rcases Int.lt_or_le v p.2 with hlt | hge
    · exact ⟨p, .inl h.mem, hlo, hlt⟩
    · exact ⟨y, .inr (by simp [h.split']), by omega, hhi⟩
  outside := by
    rintro ⟨q, hq, hlo, hhi⟩
    have hrow := h.row
    rcases h.cases hq with hbefore | rfl | ⟨hxs, hafter⟩
    · omega
    · omega
    · have hle := h.rest.tail.head_le q.1
        (mem_cells hxs (Int.le_refl _) (h.apart.rows q hq).2)
      omega

theorem doomed_crosses (h : Pending rs ts dx p (x :: xs) dy (y :: ys)) (hy : y.1 ≤ p.2)
    (hend : p.2 < y.2) (hx : y.2 < x.1) : Doomed rs1 rs2 rs ts p ↔ xs ≠ [] := by
  have hstrands := h.strands_through hy hend hx
  constructor
  · rintro (⟨t, ht, u, hu, v, hv, hlt, hlt'⟩ | ⟨hnone, -⟩)
    · rintro rfl
      have hpast := ht.past
      have hlast : ∀ q ∈ rs, p.2 < q.1 → q = x := by
        intro q hq hafter
        have hrow := h.row
        have hrow' := h.apart.rows q hq
        rcases h.cases hq with hbefore | rfl | ⟨hxs, -⟩
        · omega
        · omega
        · exact List.mem_singleton.mp hxs
      have hu' := hlast u hu (by omega)
      have hrow := h.apart.rows u hu
      have hv' := hlast v hv (by omega)
      rw [hv', hu'] at hlt'
      rw [hu'] at hrow
      omega
    · exact absurd ⟨y, hstrands⟩ hnone
  · intro hne
    obtain ⟨z, zs, rfl⟩ := List.exists_cons_of_ne_nil hne
    refine .inl ⟨y, hstrands, x, by simp [h.split], z, by simp [h.split], hx, ?_⟩
    exact (List.pairwise_cons.mp h.rest.tail.sorted).1 z List.mem_cons_self

theorem strands_next (h : Pending rs ts dx p (x :: xs) dy (y :: ys)) (hy : y.1 ≤ p.2)
    (hend : p.2 < y.2) (hx : x.1 ≤ y.2) (t : Int × Int) :
    Strands rs ts p t ↔ Strands rs ts x t := by
  have hxrow := h.apart.rows x (by simp [h.split])
  have hxafter := h.after x List.mem_cons_self
  have hrow := h.row
  constructor
  · rintro ⟨hother, hpast, hlinked, houtside⟩
    have hreach : x.1 ≤ t.2 := by
      rcases h.cases' hother with hdone | hrest
      · omega
      · rcases List.mem_cons.mp hrest with rfl | hrest
        · exact hx
        · have hgap := h.gap' rfl t hrest
          have htrow := h.apart'.rows t hother
          omega
    refine ⟨hother, ?_, fun v hlo hhi => hlinked v (by omega) hhi, houtside⟩
    by_contra hle
    exact houtside (mem_cells (by simp [h.split]) hreach (by omega))
  · rintro ⟨hother, hpast, hlinked, houtside⟩
    refine ⟨hother, by omega, fun v hlo hhi => ?_, houtside⟩
    rcases Int.lt_or_le v p.2 with hlt | hge
    · exact ⟨p, .inl h.mem, hlo, hlt⟩
    · rcases Int.lt_or_le v x.1 with hlt' | hge'
      · exact ⟨y, .inr (by simp [h.split']), by omega, by omega⟩
      · exact hlinked v hge' hhi

theorem trapped_next (hlead : Lead rs1 rs2 second rs ts)
    (h : Pending rs ts dx p (x :: xs) dy (y :: ys)) (hy : y.1 ≤ p.2) (hend : p.2 < y.2)
    (hx : x.1 ≤ y.2) : Trapped rs1 rs2 p.2 ↔ Trapped rs1 rs2 x.2 := by
  have hxrow := h.apart.rows x (by simp [h.split])
  have hxafter := h.after x List.mem_cons_self
  refine trapped_congr fun second' rs' ts' r t hlead' hcross =>
    ⟨fun hafter => ?_, fun hafter => by omega⟩
  rcases hlead.same_or_other hlead' with ⟨-, rfl, rfl⟩ | ⟨-, rfl, rfl⟩
  · have hrow := h.row
    rcases h.cases hcross.opens with hbefore | rfl | ⟨hxs, -⟩
    · have hrrow := h.apart.rows r hcross.opens
      omega
    · omega
    · rcases List.mem_cons.mp hxs with rfl | hxs
      · have hreach := hcross.alone y (by simp [h.split']) (takenBefore_of_lt (by omega))
        omega
      · exact (List.pairwise_cons.mp h.rest.tail.sorted).1 r hxs
  · have hrrow := h.apart'.rows r hcross.opens
    rcases h.cases' hcross.opens with hdone | hrest
    · omega
    · rcases List.mem_cons.mp hrest with rfl | hrest
      · omega
      · have hgap := h.gap' rfl r hrest
        exact hcross.alone x (by simp [h.split]) (takenBefore_of_lt (by omega))

theorem doomed_next (hlead : Lead rs1 rs2 second rs ts)
    (h : Pending rs ts dx p (x :: xs) dy (y :: ys)) (hy : y.1 ≤ p.2) (hend : p.2 < y.2)
    (hx : x.1 ≤ y.2) : Doomed rs1 rs2 rs ts p ↔ Doomed rs1 rs2 rs ts x := by
  simp only [Doomed, h.strands_next hy hend hx, h.trapped_next hlead hy hend hx]

/-! ### Taking an output range -/

/-- A stretch that begins after row `c` begins with the output range or after it. -/
theorem opener (hlead : Lead rs1 rs2 second rs ts) (h : Pending rs ts dx p xs dy ys)
    (hdone : ∀ q ∈ dx, q.2 ≤ c) (hdone' : ∀ q ∈ dy, q.2 ≤ c)
    (hfirst : ∀ q ∈ ys, TakenBefore (!second) p q) {second' : Bool} {rs' ts' : List (Int × Int)}
    {r t : Int × Int} (hlead' : Lead rs1 rs2 second' rs' ts')
    (hcross : Crossing second' rs' ts' r t) (hc : c < r.1) : (r = p ∧ rs' = rs ∧ ts' = ts) ∨ p.2 < r.1 := by
  rcases hlead.same_or_other hlead' with ⟨-, rfl, rfl⟩ | ⟨rfl, rfl, rfl⟩
  · have hrrow := h.apart.rows r hcross.opens
    have hmem := hcross.opens
    rw [h.split] at hmem
    rcases List.mem_append.mp hmem with hdx | hmem
    · have := hdone r hdx
      omega
    · rcases List.mem_cons.mp hmem with rfl | hxs
      · exact .inl ⟨rfl, rfl, rfl⟩
      · have := h.after r hxs
        exact .inr (by omega)
  · have hrrow := h.apart'.rows r hcross.opens
    have hmem := hcross.opens
    rw [h.split'] at hmem
    rcases List.mem_append.mp hmem with hdy | hys
    · have := hdone' r hdy
      omega
    · exact .inr (hcross.alone p h.mem (hfirst r hys))

theorem doomed_opens (hlead : Lead rs1 rs2 second rs ts) (h : Pending rs ts dx p xs dy ys)
    (hdone : ∀ q ∈ dx, q.2 ≤ c) (hdone' : ∀ q ∈ dy, q.2 ≤ c) (hc : c < p.1)
    (hfirst : ∀ q ∈ ys, TakenBefore (!second) p q) :
    Trapped rs1 rs2 c ↔ Doomed rs1 rs2 rs ts p := by
  have hrow := h.row
  by_cases hstrands : ∃ t, Strands rs ts p t
  · have hcrossing : ∀ t, Strands rs ts p t → Crossing second rs ts p t := by
      intro t ht
      refine ⟨h.mem, fun q hq hbefore => ?_, ht⟩
      rw [h.split'] at hq
      rcases List.mem_append.mp hq with hdy | hys
      · exact Int.lt_of_le_of_lt (hdone' q hdy) hc
      · have hlater := hfirst q hys
        cases second with
        | false =>
            have hle : p.1 ≤ q.1 := hlater
            have hlt : q.1 < p.1 := hbefore
            omega
        | true =>
            have hlt : p.1 < q.1 := hlater
            have hle : q.1 ≤ p.1 := hbefore
            omega
    constructor
    · rintro ⟨second', rs', ts', r, t, hlead', hcross, hafter, hmin, htwo⟩
      obtain ⟨t0, ht0⟩ := hstrands
      have hle := hmin second rs ts p t0 hlead (hcrossing t0 ht0) hc
      rcases h.opener hlead hdone hdone' hfirst hlead' hcross hafter with ⟨rfl, rfl, rfl⟩ | hpast
      · exact .inl ⟨t, hcross.strands, htwo⟩
      · omega
    · rintro (⟨t, ht, htwo⟩ | ⟨hnone, -⟩)
      · refine ⟨second, rs, ts, p, t, hlead, hcrossing t ht, hc, ?_, htwo⟩
        intro second' rs' ts' r t' hlead' hcross hafter
        rcases h.opener hlead hdone hdone' hfirst hlead' hcross hafter with ⟨rfl, -, -⟩ | hpast
        · exact Int.le_refl _
        · omega
      · exact absurd hstrands hnone
  · have htrapped : Trapped rs1 rs2 c ↔ Trapped rs1 rs2 p.2 := by
      refine trapped_congr fun second' rs' ts' r t hlead' hcross =>
        ⟨fun hafter => ?_, fun hafter => by omega⟩
      rcases h.opener hlead hdone hdone' hfirst hlead' hcross hafter with ⟨rfl, rfl, rfl⟩ | hpast
      · exact absurd ⟨t, hcross.strands⟩ hstrands
      · exact hpast
    rw [htrapped]
    constructor
    · exact fun ht => .inr ⟨hstrands, ht⟩
    · rintro (⟨t, ht, -⟩ | ⟨-, ht⟩)
      · exact absurd ⟨t, ht⟩ hstrands
      · exact ht

end Pending

/-! ## The rows in both sets -/

open RangeSets in
theorem InOrder.increasing (h : InOrder rs) : Increasing rs := ⟨fun r hr => (h.rows r hr).2, h.sorted⟩

open RangeSets in
theorem cells_inter (hxs : InOrder (x :: xs)) (hys : InOrder (y :: ys)) :
    cells (x :: xs) ∩ cells (y :: ys) =
      if x.2 < y.1 then cells xs ∩ cells (y :: ys)
      else if y.2 < x.1 then cells (x :: xs) ∩ cells ys
      else Set.Icc (max x.1 y.1) (min x.2 y.2) ∪
        if x.2 < y.2 then cells xs ∩ cells (y :: ys) else cells (x :: xs) ∩ cells ys := by
  have hpoints : ∀ {us vs : List (Int × Int)}, InOrder us → InOrder vs →
      points (common us vs) = cells us ∩ cells vs :=
    fun hus hvs => points_common hus.increasing hvs.increasing
  rw [← hpoints hxs hys, ← hpoints hxs.tail hys, ← hpoints hxs hys.tail, common]
  split
  · rfl
  · split
    · rfl
    · rw [points_cons]
      split <;> rfl

/-- The piece of the output range that a range of the other set cuts out, when the rest of the
rows in common lie after it. -/
theorem Lists.piece {added : List (Int × Int)} {s : Set Int} (h : Lists added s)
    (hxs : InOrder (x :: xs)) (hys : InOrder (y :: ys)) (hle : y.1 ≤ x.2) (hle' : x.1 ≤ y.2)
    (hs : ∀ v ∈ s, min x.2 y.2 < v) :
    Lists ((max x.1 y.1, min x.2 y.2) :: added) (Set.Icc (max x.1 y.1) (min x.2 y.2) ∪ s) := by
  have hx := hxs.rows x List.mem_cons_self
  have hy := hys.rows y List.mem_cons_self
  exact h.cons (le_max_of_le_left hx.1) (by omega) hs

theorem InOrder.after_head (h : InOrder (x :: xs)) {v : Int} (hv : v ∈ cells xs) : x.2 < v := by
  obtain ⟨t, ht, hlo, -⟩ := hv
  exact Int.lt_of_lt_of_le ((List.pairwise_cons.mp h.sorted).1 t ht) hlo

theorem andRest_lists (hp : InOrder [p]) (hys : InOrder ys) :
    Lists (andRest p.1 p.2 ys).1 (cells [p] ∩ cells ys) := by
  have hrow := hp.rows p List.mem_cons_self
  induction ys with
  | nil =>
      rw [cells_nil, Set.inter_empty]
      exact Lists.nil
  | cons y ys ih =>
      rw [cells_inter hp hys, andRest]
      by_cases hafter : p.2 < y.1
      · rw [if_pos (.inr hafter), if_pos hafter, cells_nil, Set.empty_inter]
        exact Lists.nil
      · rw [if_neg (by omega), if_neg hafter]
        have hrest := ih hys.tail
        by_cases hreach : p.1 ≤ y.2
        · rw [if_neg (by omega)]
          simp only [if_pos hreach]
          by_cases hshort : p.2 < y.2
          · have hnone : cells [p] ∩ cells ys = ∅ := by
              rw [Set.eq_empty_iff_forall_notMem]
              rintro v ⟨⟨q, hq, -, hhi⟩, hv⟩
              obtain rfl := List.mem_singleton.mp hq
              have := hys.after_head hv
              omega
            rw [if_pos hshort, cells_nil, Set.empty_inter]
            rw [hnone] at hrest
            exact hrest.piece hp hys (by omega) hreach (by simp)
          · rw [if_neg hshort]
            refine hrest.piece hp hys (by omega) hreach fun v hv => ?_
            have := hys.after_head hv.2
            omega
        · rw [if_pos (by omega)]
          simp only [if_neg hreach]
          exact hrest

/-! ## A range that ends before it begins -/

/-- A reversed range, that nothing joins it. -/
def Broken (added : List (Int × Int)) : Prop :=
  ∃ before q r after, added = before ++ q :: r :: after ∧ q.2 + 1 ≠ r.1 ∧ r.2 < r.1 ∧
    ∀ s ∈ after.head?, r.2 + 1 ≠ s.1

theorem Broken.cons {added : List (Int × Int)} (h : Broken added) (u : Int × Int) :
    Broken (u :: added) := by
  obtain ⟨before, q, r, after, rfl, hrest⟩ := h
  exact ⟨u :: before, q, r, after, rfl, hrest⟩

theorem andRest_after (lo hi : Int) (h : ∀ r ∈ rs, b < r.1) :
    ∀ q ∈ (andRest lo hi rs).1, b < q.1 := by
  induction rs with
  | nil => simp [andRest]
  | cons r rs ih =>
      have hrest := ih fun s hs => h s (List.mem_cons_of_mem r hs)
      have hr := h r List.mem_cons_self
      rw [andRest]
      split
      · simp
      · intro q hq
        simp only at hq
        split at hq
        · rcases List.mem_cons.mp hq with rfl | hq
          · exact lt_max_of_lt_right hr
          · exact hrest q hq
        · exact hrest q hq

theorem andMain_after {lo hi : Int} (h1 : ∀ r ∈ rs1, b < r.1) (h2 : ∀ r ∈ rs2, b < r.1) :
    ∀ q ∈ andMain lo hi rs1 rs2, b < q.1 := by
  fun_induction andMain lo hi rs1 rs2 with
  | case1 lo hi rs2 =>
      simp only [andEnd, andRest, List.nil_append]
      exact andRest_after lo hi h2
  | case2 lo hi r1 rs1 =>
      have hrest : ∀ lo' : Int, (andRest lo' hi ([] : List (Int × Int))).1 = [] := fun _ => rfl
      simp only [andEnd, hrest, List.append_nil]
      exact andRest_after lo hi h1
  | case3 hi r1 rs1 r2 rs2 hle ih => exact ih (List.forall_mem_cons.mp h1).2 h2
  | case4 hi r1 rs1 r2 rs2 hle ih => exact ih h1 (List.forall_mem_cons.mp h2).2
  | case5 lo hi r1 rs1 r2 rs2 hset hle hr ihstay ihnext =>
      obtain ⟨hr1, hrs1⟩ := List.forall_mem_cons.mp h1
      refine List.forall_mem_cons.mpr ⟨lt_max_of_lt_right hr1, ?_⟩
      split
      · exact ihstay hrs1 h2
      · exact ihnext h1 (List.forall_mem_cons.mp h2).2
  | case6 lo hi r1 rs1 r2 rs2 hset hle hr ih => exact ih h1 h2
  | case7 lo hi r1 rs1 r2 rs2 hset hle hr ihstay ihnext =>
      obtain ⟨hr2, hrs2⟩ := List.forall_mem_cons.mp h2
      refine List.forall_mem_cons.mpr ⟨lt_max_of_lt_right hr2, ?_⟩
      split
      · exact ihstay h1 hrs2
      · exact ihnext (List.forall_mem_cons.mp h1).2 h2
  | case8 lo hi r1 rs1 r2 rs2 hset hle hr ih => exact ih h1 h2

theorem turn_after (hxs : ∀ r ∈ xs, b < r.1) (hys : ∀ r ∈ ys, b < r.1) :
    ∀ q ∈ turn second p xs ys, b < q.1 := by
  cases second with
  | false => exact andMain_after hxs hys
  | true => exact andMain_after hys hxs

/-! ## Runs -/

/-- The ranges added hold the rows of `s`, unless the run is doomed to add a reversed one. -/
structure Settles (doomed : Prop) (added : List (Int × Int)) (s : Set Int) : Prop where
  sound : ¬ doomed → Lists added s
  broken : doomed → Broken added

namespace Pending

theorem next (h : Pending rs ts dx p (x :: xs) dy ys) : Pending rs ts (dx ++ [p]) x xs dy ys where
  apart := h.apart
  apart' := h.apart'
  split := by simp [h.split]
  split' := h.split'
  done q hq := by
    have hx := h.after x List.mem_cons_self
    have hrow := h.apart.rows x (by simp [h.split])
    have hdone := h.done q hq
    omega

theorem read (h : Pending rs ts dx p xs dy (y :: ys)) (hend : y.2 ≤ p.2) :
    Pending rs ts dx p xs (dy ++ [y]) ys where
  apart := h.apart
  apart' := h.apart'
  split := h.split
  split' := by simp [h.split']
  done q hq := by
    rcases List.mem_append.mp hq with hq | hq
    · exact h.done q hq
    · obtain rfl := List.mem_singleton.mp hq
      exact hend

theorem ends (hlead : Lead rs1 rs2 second rs ts) (h : Pending rs ts dx p xs dy ys)
    (hend : xs = [] ∨ ys = []) :
    Settles (Doomed rs1 rs2 rs ts p) (turn second p xs ys) (cells (p :: xs) ∩ cells ys) := by
  refine ⟨fun _ => ?_, fun hdoomed => absurd hdoomed (h.not_doomed hlead hend)⟩
  have hrow := h.row
  rcases hend with rfl | rfl
  · have hturn : turn second p [] ys = (andRest p.1 p.2 ys).1 := by
      cases second with
      | false =>
          rw [turn, if_neg Bool.false_ne_true, andMain]
          simp [andEnd, andRest]
      | true =>
          rw [turn, if_pos rfl]
          cases ys with
          | nil => simp [andMain, andEnd, andRest]
          | cons y ys =>
              rw [andMain]
              have hnil : ∀ lo : Int, (andRest lo p.2 ([] : List (Int × Int))).1 = [] :=
                fun _ => rfl
              simp only [andEnd, hnil, List.append_nil]
    rw [hturn]
    exact andRest_lists h.rest h.rest'
  · have hturn : turn second p xs [] = [] := by
      cases xs with
      | nil => cases second <;> simp [turn, andMain, andEnd, andRest]
      | cons x xs =>
          have hx := h.after x List.mem_cons_self
          have hgt : x.1 > p.2 := by omega
          cases second <;> simp [turn, andMain, andEnd, andRest, hgt]
    rw [hturn, cells_nil, Set.inter_empty]
    exact Lists.nil

end Pending

/-- No output range is set, and the sets have been read up to row `c`. -/
structure Opening (rs1 rs2 d1 xs1 d2 xs2 : List (Int × Int)) (c : Int) : Prop where
  apart1 : Apart rs1
  apart2 : Apart rs2
  split1 : rs1 = d1 ++ xs1
  split2 : rs2 = d2 ++ xs2
  done1 : ∀ q ∈ d1, q.2 ≤ c
  done2 : ∀ q ∈ d2, q.2 ≤ c
  after1 : ∀ q ∈ xs1, c < q.1
  after2 : ∀ q ∈ xs2, c < q.1

/-- How the loop goes on from an output range, with fewer than `n` ranges left. -/
def GoesOn (rs1 rs2 : List (Int × Int)) (n : Nat) : Prop :=
  ∀ second rs ts dx p xs dy ys, Lead rs1 rs2 second rs ts → Pending rs ts dx p xs dy ys →
    (xs = [] ∨ ∀ y ∈ ys.head?, p.1 ≤ y.2) → xs.length + ys.length < n →
    Settles (Doomed rs1 rs2 rs ts p) (turn second p xs ys) (cells (p :: xs) ∩ cells ys)

theorem GoesOn.mono {m n : Nat} (h : GoesOn rs1 rs2 n) (hmn : m ≤ n) : GoesOn rs1 rs2 m :=
  fun _ _ _ _ _ _ _ _ hlead hp hreach hlt => h _ _ _ _ _ _ _ _ hlead hp hreach (by omega)

variable {d1 d2 xs1 xs2 : List (Int × Int)}

theorem Opening.ends (h : Opening rs1 rs2 d1 xs1 d2 xs2 c) (hend : xs1 = [] ∨ xs2 = [])
    (hi : Int) : Settles (Trapped rs1 rs2 c) (andMain 0 hi xs1 xs2) (cells xs1 ∩ cells xs2) := by
  have hboth : ∀ q u : Int × Int, q ∈ rs1 → u ∈ rs2 → c < q.2 → c < u.2 → False := by
    intro q u hq hu hlt hlt'
    rw [h.split1] at hq
    rw [h.split2] at hu
    rcases List.mem_append.mp hq with hq | hq
    · have := h.done1 q hq
      omega
    · rcases List.mem_append.mp hu with hu | hu
      · have := h.done2 u hu
        omega
      · rcases hend with rfl | rfl
        · exact absurd hq List.not_mem_nil
        · exact absurd hu List.not_mem_nil
  constructor
  · intro _
    have hnone : andMain 0 hi xs1 xs2 = [] := by
      rcases hend with rfl | rfl
      · cases xs2 <;> simp [andMain, andEnd, andRest]
      · cases xs1 <;> simp [andMain, andEnd, andRest]
    have hrows : cells xs1 ∩ cells xs2 = ∅ := by
      rcases hend with rfl | rfl
      · rw [cells_nil, Set.empty_inter]
      · rw [cells_nil, Set.inter_empty]
    rw [hnone, hrows]
    exact Lists.nil
  · rintro ⟨second, rs, ts, r, t, hlead, hcross, hafter, -, -⟩
    have hpast := hcross.strands.past
    cases hlead with
    | first =>
        have hrow := h.apart1.rows r hcross.opens
        exact (hboth r t hcross.opens hcross.strands.other (by omega) (by omega)).elim
    | second =>
        have hrow := h.apart2.rows r hcross.opens
        exact (hboth t r hcross.strands.other hcross.opens (by omega) (by omega)).elim

theorem Opening.settles (h : Opening rs1 rs2 d1 xs1 d2 xs2 c)
    (hrun : GoesOn rs1 rs2 (xs1.length + xs2.length)) (hi : Int) :
    Settles (Trapped rs1 rs2 c) (andMain 0 hi xs1 xs2) (cells xs1 ∩ cells xs2) := by
  rcases xs1 with - | ⟨x, xs1⟩
  · exact h.ends (.inl rfl) hi
  rcases xs2 with - | ⟨y, xs2⟩
  · exact h.ends (.inr rfl) hi
  have hcx := h.after1 x List.mem_cons_self
  have hcy := h.after2 y List.mem_cons_self
  have hxrow := h.apart1.rows x (by simp [h.split1])
  have hyrow := h.apart2.rows y (by simp [h.split2])
  rw [andMain_opens]
  by_cases hle : x.1 ≤ y.1
  · rw [if_pos hle]
    have hp : Pending rs1 rs2 d1 x xs1 d2 (y :: xs2) :=
      ⟨h.apart1, h.apart2, h.split1, h.split2, fun q hq => by
        have := h.done2 q hq
        omega⟩
    have hlater : ∀ q ∈ y :: xs2, TakenBefore true x q := by
      intro q hq
      have := hp.rest'.head_le q.1
        (mem_cells hq (Int.le_refl _) (h.apart2.rows q (by simp [h.split2, hq])).2)
      exact Int.le_trans hle this
    have hdoomed := hp.doomed_opens .first h.done1 h.done2 hcx hlater
    have hsettles := hrun _ _ _ _ _ _ _ _ .first hp
      (.inr fun q hq => by
        obtain rfl := Option.some_injective _ hq
        omega) (by simp only [List.length_cons]; omega)
    exact ⟨fun hnot => hsettles.sound fun hd => hnot (hdoomed.mpr hd),
      fun ht => hsettles.broken (hdoomed.mp ht)⟩
  · rw [if_neg hle, Set.inter_comm]
    have hp : Pending rs2 rs1 d2 y xs2 d1 (x :: xs1) :=
      ⟨h.apart2, h.apart1, h.split2, h.split1, fun q hq => by
        have := h.done1 q hq
        omega⟩
    have hlater : ∀ q ∈ x :: xs1, TakenBefore false y q := by
      intro q hq
      have := hp.rest'.head_le q.1
        (mem_cells hq (Int.le_refl _) (h.apart1.rows q (by simp [h.split1, hq])).2)
      exact Int.lt_of_lt_of_le (Int.not_le.mp hle) this
    have hdoomed := hp.doomed_opens .second h.done2 h.done1 hcy hlater
    have hsettles := hrun _ _ _ _ _ _ _ _ .second hp
      (.inr fun q hq => by
        obtain rfl := Option.some_injective _ hq
        omega) (by simp only [List.length_cons]; omega)
    exact ⟨fun hnot => hsettles.sound fun hd => hnot (hdoomed.mpr hd),
      fun ht => hsettles.broken (hdoomed.mp ht)⟩

namespace Pending

theorem opening (hlead : Lead rs1 rs2 second rs ts) (h : Pending rs ts dx p xs dy ys)
    (hys : ∀ q ∈ ys, p.2 < q.1) :
    if second then Opening rs1 rs2 dy ys (dx ++ [p]) xs p.2
    else Opening rs1 rs2 (dx ++ [p]) xs dy ys p.2 := by
  have hsplit : rs = (dx ++ [p]) ++ xs := by simp [h.split]
  have hdone : ∀ q ∈ dx ++ [p], q.2 ≤ p.2 := by
    intro q hq
    rcases List.mem_append.mp hq with hq | hq
    · have hbefore := h.before q hq
      have hrow := h.row
      omega
    · obtain rfl := List.mem_singleton.mp hq
      exact Int.le_refl _
  have hafter : ∀ q ∈ xs, p.2 < q.1 := fun q hq => by
    have := h.after q hq
    omega
  cases hlead with
  | first => exact ⟨h.apart, h.apart', hsplit, h.split', hdone, h.done, hafter, hys⟩
  | second => exact ⟨h.apart', h.apart, h.split', hsplit, h.done, hdone, hys, hafter⟩

theorem piece_consumes (h : Pending rs ts dx p (x :: xs) dy (y :: ys)) (hy : y.1 ≤ p.2)
    (hreach : p.1 ≤ y.2) (hend : y.2 ≤ p.2) {added : List (Int × Int)}
    (hadded : Lists added (cells (p :: x :: xs) ∩ cells ys)) :
    Lists ((max p.1 y.1, min p.2 y.2) :: added) (cells (p :: x :: xs) ∩ cells (y :: ys)) := by
  rw [cells_inter h.rest h.rest', if_neg (by omega), if_neg (by omega), if_neg (by omega)]
  refine hadded.piece h.rest h.rest' hy hreach fun v hv => ?_
  have := h.rest'.after_head hv.2
  omega

theorem piece_crosses (h : Pending rs ts dx p (x :: xs) dy (y :: ys)) (hy : y.1 ≤ p.2)
    (hend : p.2 < y.2) {added : List (Int × Int)}
    (hadded : Lists added (cells (x :: xs) ∩ cells (y :: ys))) :
    Lists ((max p.1 y.1, min p.2 y.2) :: added) (cells (p :: x :: xs) ∩ cells (y :: ys)) := by
  have hrow := h.row
  rw [cells_inter h.rest h.rest', if_neg (by omega), if_neg (by omega), if_pos hend]
  refine hadded.piece h.rest h.rest' hy (by omega) fun v hv => ?_
  have := h.rest.after_head hv.1
  omega

theorem broken (h : Pending rs ts dx p (x :: xs) dy (y :: ys)) (hy : y.1 ≤ p.2)
    (hend : p.2 < y.2) (hx : y.2 < x.1) (hxs : xs ≠ []) :
    Broken (turn second p (x :: xs) (y :: ys)) := by
  obtain ⟨z, zs, rfl⟩ := List.exists_cons_of_ne_nil hxs
  have hrow := h.row
  have hxrow := h.apart.rows x (by simp [h.split])
  have hxafter := h.after x List.mem_cons_self
  have hzafter := h.next.after z List.mem_cons_self
  have hmax : max x.1 y.1 = x.1 := by omega
  have hmin : min x.2 y.2 = y.2 := by omega
  have hmin' : min p.2 y.2 = p.2 := by omega
  rw [turn_crosses (by omega) (by omega) hy hend,
    turn_consumes (by omega) (by omega) (by omega) (by omega), hmax, hmin, hmin']
  refine ⟨[], _, _, _, rfl, by simp only; omega, hx, fun s hs => ?_⟩
  have hgt : y.2 + 1 < s.1 := by
    refine turn_after (fun r hr => ?_) (h.gap' rfl) s (List.mem_of_mem_head? hs)
    have := h.next.after r hr
    omega
  simp only
  omega

theorem settles_discards (hlead : Lead rs1 rs2 second rs ts)
    (h : Pending rs ts dx p (x :: xs) dy (y :: ys)) (hy : p.2 < y.1)
    (hrun : GoesOn rs1 rs2 ((x :: xs).length + (y :: ys).length)) :
    Settles (Doomed rs1 rs2 rs ts p) (turn second p (x :: xs) (y :: ys))
      (cells (p :: x :: xs) ∩ cells (y :: ys)) := by
  have hp := h.row
  have hx := h.after x List.mem_cons_self
  have hys : ∀ q ∈ y :: ys, p.2 < q.1 := fun q hq =>
    Int.lt_of_lt_of_le hy (h.rest'.head_le q.1
      (mem_cells hq (Int.le_refl _) (h.rest'.rows q hq).2))
  have hopening := h.opening hlead hys
  have hdoomed : Doomed rs1 rs2 rs ts p ↔ Trapped rs1 rs2 p.2 := h.doomed_discards hys
  have hrows : cells (p :: x :: xs) ∩ cells (y :: ys) = cells (x :: xs) ∩ cells (y :: ys) := by
    rw [cells_inter h.rest h.rest', if_pos hy]
  have hsettles : Settles (Trapped rs1 rs2 p.2) (turn second p (x :: xs) (y :: ys))
      (cells (x :: xs) ∩ cells (y :: ys)) := by
    rw [turn_discards (by omega) (by omega) hy]
    cases second with
    | false =>
        have hset : Opening rs1 rs2 (dx ++ [p]) (x :: xs) dy (y :: ys) p.2 := hopening
        exact hset.settles hrun p.2
    | true =>
        have hset : Opening rs1 rs2 dy (y :: ys) (dx ++ [p]) (x :: xs) p.2 := hopening
        rw [Set.inter_comm]
        rw [Nat.add_comm] at hrun
        exact hset.settles hrun p.2
  rw [hrows]
  exact ⟨fun hnot => hsettles.sound fun ht => hnot (hdoomed.mpr ht),
    fun hd => hsettles.broken (hdoomed.mp hd)⟩

theorem settles (n : Nat) : GoesOn rs1 rs2 n := by
  induction n with
  | zero => exact fun _ _ _ _ _ _ _ _ _ _ _ hn => absurd hn (Nat.not_lt_zero _)
  | succ n ih =>
      intro second rs ts dx p xs dy ys hlead h hreach hn
      rcases xs with - | ⟨x, xs⟩
      · exact h.ends hlead (.inl rfl)
      rcases ys with - | ⟨y, ys⟩
      · exact h.ends hlead (.inr rfl)
      have hp := h.row
      have hx := h.after x List.mem_cons_self
      have hrow := h.apart'.rows y (by simp [h.split'])
      have hstart : p.1 ≤ y.2 := by
        rcases hreach with hnil | hhead
        · exact absurd hnil (List.cons_ne_nil x xs)
        · exact hhead y rfl
      simp only [List.length_cons] at hn
      rcases Int.lt_or_le p.2 y.1 with hdisjoint | hy
      · exact h.settles_discards hlead hdisjoint (ih.mono (by simp only [List.length_cons]; omega))
      rcases Int.lt_or_le p.2 y.2 with hend | hend
      · rcases Int.lt_or_le y.2 x.1 with hlate | hjoined
        · rcases eq_or_ne xs [] with rfl | hxs
          · have hnext := h.next.ends hlead (.inl rfl)
            refine ⟨fun _ => ?_, fun hd => absurd rfl ((h.doomed_crosses hy hend hlate).mp hd)⟩
            rw [turn_crosses (by omega) (by omega) hy hend]
            exact h.piece_crosses hy hend (hnext.sound (h.next.not_doomed hlead (.inl rfl)))
          · exact ⟨fun hnot => absurd ((h.doomed_crosses hy hend hlate).mpr hxs) hnot,
              fun _ => h.broken hy hend hlate hxs⟩
        · have hdoomed := h.doomed_next hlead hy hend hjoined
          have hnext := ih _ _ _ _ _ _ _ _ hlead h.next (.inr fun q hq => by
            obtain rfl := Option.some_injective _ hq
            exact hjoined) (by simp only [List.length_cons]; omega)
          rw [turn_crosses (by omega) (by omega) hy hend]
          exact ⟨fun hnot => h.piece_crosses hy hend (hnext.sound fun hd => hnot (hdoomed.mpr hd)),
            fun hd => (hnext.broken (hdoomed.mp hd)).cons _⟩
      · have hnext := ih _ _ _ _ _ _ _ _ hlead (h.read hend) (.inr fun q hq => by
          have hafter := h.gap' rfl q (List.mem_of_mem_head? hq)
          have hqrow := h.apart'.rows q (by simp [h.split', List.mem_of_mem_head? hq])
          omega) (by simp only [List.length_cons]; omega)
        rw [turn_consumes (by omega) (by omega) hy hend]
        exact ⟨fun hnot => h.piece_consumes hy hstart hend (hnext.sound hnot),
          fun hd => (hnext.broken hd).cons _⟩

end Pending

/-! ## The sets -/

theorem addrange_last (set : Rst) (lo hi : Int) :
    ∃ rs r, (rstAddrange set lo hi).ranges = rs ++ [r] ∧ r.hival = hi := by
  obtain ⟨ranges, m, c⟩ := set
  rcases List.eq_nil_or_concat ranges with rfl | ⟨rs, r, rfl⟩
  · exact ⟨[], ⟨lo, hi, 0 + hi - lo + 1⟩, rfl, rfl⟩
  · rw [List.concat_eq_append, Rst.rstAddrange_concat]
    split
    · exact ⟨rs, _, rfl, rfl⟩
    · exact ⟨rs ++ [r], _, rfl, rfl⟩

theorem addRanges_keeps (added : List (Int × Int)) {set : Rst} {rs : List RowRange} {r : RowRange}
    (hset : set.ranges = rs ++ [r]) : ∀ q ∈ rs, q ∈ (addRanges set added).ranges := by
  induction added generalizing set rs r with
  | nil =>
      intro q hq
      simp [addRanges, hset, hq]
  | cons u added ih =>
      intro q hq
      obtain ⟨ranges, m, c⟩ := set
      subst hset
      have hadd := Rst.rstAddrange_concat rs r m c u.1 u.2
      split at hadd
      · exact ih (congrArg Rst.ranges hadd) q hq
      · exact ih (congrArg Rst.ranges hadd) q (List.mem_append_left _ hq)

theorem addrange_apart {set : Rst} {rs : List RowRange} {r : RowRange} {lo : Int} (hi : Int)
    (hset : set.ranges = rs ++ [r]) (hgap : r.hival + 1 ≠ lo) :
    ∃ n, (rstAddrange set lo hi).ranges = rs ++ [r] ++ [⟨lo, hi, n⟩] := by
  obtain ⟨ranges, m, c⟩ := set
  subst hset
  rw [Rst.rstAddrange_concat, if_neg hgap]
  exact ⟨_, rfl⟩

theorem Broken.stays {added : List (Int × Int)} (h : Broken added) (set : Rst) :
    ∃ r ∈ (addRanges set added).ranges, r.hival < r.loval := by
  obtain ⟨before, q, r, after, rfl, hgap, hreversed, hnext⟩ := h
  rw [addRanges, List.foldl_append]
  generalize before.foldl (fun s r => rstAddrange s r.1 r.2) set = start
  obtain ⟨rs, l, hq, hlast⟩ := addrange_last start q.1 q.2
  obtain ⟨n, hr⟩ := addrange_apart r.2 hq (by rw [hlast]; exact hgap)
  cases after with
  | nil => exact ⟨⟨r.1, r.2, n⟩, by simp [hr], hreversed⟩
  | cons s after =>
      obtain ⟨n', hs⟩ := addrange_apart s.2 hr (hnext s rfl)
      exact ⟨⟨r.1, r.2, n⟩, addRanges_keeps after hs _ (by simp), hreversed⟩

/-- `rst_and` gives a set of the rows in both sets. -/
structure IntersectionExact (set1 set2 : Rst) : Prop where
  wellFormed : (rstAnd set1 set2).WellFormed
  rows : (rstAnd set1 set2).rows = set1.rows ∩ set2.rows
  nelem : rstNelem (rstAnd set1 set2) = ((set1.rows ∩ set2.rows).ncard : Int)

theorem Rst.WellFormed.apart_ends {set : Rst} (h : set.WellFormed) : Apart set.ends :=
  ⟨h.inOrder.rows, h.ends_apart⟩

/-- The intersection is exact unless the first crossing stretch is followed by two ranges of
the set that it began with. -/
theorem rstAnd_exact_iff {set1 set2 : Rst} (h1 : set1.WellFormed) (h2 : set2.WellFormed) :
    IntersectionExact set1 set2 ↔ ¬ Trapped set1.ends set2.ends 0 := by
  have hopening : Opening set1.ends set2.ends [] set1.ends [] set2.ends 0 :=
    ⟨h1.apart_ends, h2.apart_ends, rfl, rfl, by simp, by simp,
      fun q hq => (h1.inOrder.rows q hq).1, fun q hq => (h2.inOrder.rows q hq).1⟩
  have hsettles := hopening.settles (Pending.settles _) 0
  constructor
  · intro hexact htrapped
    obtain ⟨r, hr, hlt⟩ := (hsettles.broken htrapped).stays (rstCreate 0 0)
    have hrow := hexact.wellFormed.rows r hr
    omega
  · intro hnot
    obtain ⟨hwf, hrows⟩ := (hsettles.sound hnot).wellFormed
    have hwf' : (rstAnd set1 set2).WellFormed := hwf
    have hrows' : (rstAnd set1 set2).rows = set1.rows ∩ set2.rows := hrows
    exact ⟨hwf', hrows', by rw [← hrows']; exact hwf'.nelem⟩

theorem rstAnd_exact_overlap : IntersectionExact (rstCreate 2 5) (rstCreate 4 8) := by
  refine (rstAnd_exact_iff (Rst.rstCreate_spec (by decide) (by decide)).1
    (Rst.rstCreate_spec (by decide) (by decide)).1).mpr ?_
  rintro ⟨second, rs, ts, r, t, hlead, -, -, -, u, hu, v, hv, hlt, hlt'⟩
  have hends : (rstCreate 2 5).ends = [(2, 5)] ∧ (rstCreate 4 8).ends = [(4, 8)] := by decide
  rw [hends.1, hends.2] at hlead
  cases hlead <;> rw [List.mem_singleton] at hu hv <;> subst hu <;> subst hv <;>
    exact absurd hlt' (by decide)

/-- The rows 1 to 5, 20 to 30 and 40 to 50. -/
def threeRanges : Rst := addRanges (rstCreate 0 0) [(1, 5), (20, 30), (40, 50)]

/-- The rows 3 to 10, 25 and 26. -/
def twoRanges : Rst := addRanges (rstCreate 0 0) [(3, 10), (25, 26)]

theorem threeRanges_wellFormed : threeRanges.WellFormed := by
  have hlists : Lists [(1, 5), (20, 30), (40, 50)] _ := ⟨⟨by decide, by decide⟩, rfl⟩
  exact hlists.wellFormed.1

theorem twoRanges_wellFormed : twoRanges.WellFormed := by
  have hlists : Lists [(3, 10), (25, 26)] _ := ⟨⟨by decide, by decide⟩, rfl⟩
  exact hlists.wellFormed.1

/-- The range 3 to 10 is kept when 20 to 30 becomes the output range: the range 20 to 10 is
added. -/
theorem not_intersectionExact_ranges :
    threeRanges.WellFormed ∧ twoRanges.WellFormed ∧
      ¬ IntersectionExact threeRanges twoRanges := by
  refine ⟨threeRanges_wellFormed, twoRanges_wellFormed, fun hexact => ?_⟩
  have hends : threeRanges.ends = [(1, 5), (20, 30), (40, 50)] ∧
      twoRanges.ends = [(3, 10), (25, 26)] := by decide
  have hadded : andMain 0 0 threeRanges.ends twoRanges.ends =
      [(3, 5), (20, 10), (25, 26)] := by
    rw [hends.1, hends.2]
    simp [andMain, andEnd, andRest]
  have hset : rstAnd threeRanges twoRanges =
      addRanges (rstCreate 0 0) [(3, 5), (20, 10), (25, 26)] := congrArg _ hadded
  have hrow := hexact.wellFormed.rows ⟨20, 10, -6⟩ (by rw [hset]; decide)
  exact absurd hrow.2 (by decide)

end Iraf.Selector
