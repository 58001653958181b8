import Mathlib.Order.WithBot
import Iraf.Lib.RangeSets
import Iraf.Lib.StepMachine

/-!
# Merging range lists

`qp_rlmerge` writes the ranges that two range lists have in common.  The first
range of a list may be open on the left and the last one open on the right; an
open end is a marker among the values.
-/

namespace Iraf.Qpoe

open Iraf.StepMachine Iraf.RangeSets

/-- The values that mark an open end. -/
structure Marks (α : Type*) where
  isLeft : α → Bool
  isRight : α → Bool

def maxInt : Int := 2147483647

/-- The markers of the integer range lists. -/
def intMarks : Marks Int where
  isLeft x := x == -maxInt
  isRight x := x == maxInt

variable {α : Type*}

def qpLessthan [LinearOrder α] (m : Marks α) (x y : α) : Bool :=
  if m.isLeft x then !m.isLeft y
  else if m.isRight x then false
  else if m.isLeft y then false
  else if m.isRight y then true
  else decide (x < y)

def qpMinval [LinearOrder α] (m : Marks α) (x y : α) : α :=
  if qpLessthan m x y then x else y

def qpMaxval [LinearOrder α] (m : Marks α) (x y : α) : α :=
  if qpLessthan m x y then y else x

/-- The input range lists and their lengths. -/
structure MergeCall (α : Type*) where
  xs : List α
  xe : List α
  nx : Int
  ys : List α
  ye : List α
  ny : Int

/-- The output arrays, in which `none` has not been written, and the cursors. -/
structure MergeState (α : Type*) where
  os : List (Option α)
  oe : List (Option α)
  olen : Int
  nxOut : Nat
  xi : Nat
  yi : Nat

inductive MergeFault
  | read
  | store
  deriving DecidableEq

def elem (a : List α) (i : Nat) : Except MergeFault α :=
  match i with
  | 0 => .error .read
  | i + 1 =>
      match a[i]? with
      | some v => .ok v
      | none => .error .read

def store (a : List (Option α)) (i : Nat) (v : α) :
    Except MergeFault (List (Option α)) :=
  if i < a.length then .ok (a.set i (some v)) else .error .store

def defXlen : Int := 256

def realloc (a : List (Option α)) (n : Int) : List (Option α) :=
  a.take n.toNat ++ List.replicate (n.toNat - a.length) none

def MergeState.grow (s : MergeState α) : MergeState α :=
  if (s.nxOut + 1 : Int) > s.olen then
    let olen := max defXlen (s.olen * 2)
    { s with olen := olen, os := realloc s.os olen, oe := realloc s.oe olen }
  else s

def MergeState.put (s : MergeState α) (o1 o2 : α) :
    Except MergeFault (MergeState α) := do
  let os ← store s.os s.nxOut o1
  let oe ← store s.oe s.nxOut o2
  return { s with os := os, oe := oe, nxOut := s.nxOut + 1 }

/-- One turn of the inner loop, and on a pair that intersects the rest of the outer one. -/
def mergeStep [LinearOrder α] (m : Marks α) (c : MergeCall α) (s : MergeState α) :
    Except MergeFault (MergeState α ⊕ MergeState α) := do
  if qpLessthan m (← elem c.xe s.xi) (← elem c.ys s.yi) then
    if (s.xi : Int) ≥ c.nx then return .inr s
    else return .inl { s with xi := s.xi + 1 }
  else if qpLessthan m (← elem c.ye s.yi) (← elem c.xs s.xi) then
    if (s.yi : Int) ≥ c.ny then return .inr s
    else return .inl { s with yi := s.yi + 1 }
  else
    let o1 := qpMaxval m (← elem c.xs s.xi) (← elem c.ys s.yi)
    let o2 := qpMinval m (← elem c.xe s.xi) (← elem c.ye s.yi)
    let t ← s.grow.put o1 o2
    if (s.xi : Int) < c.nx ∧ qpLessthan m (← elem c.xe s.xi) (← elem c.ye s.yi) then
      return .inl { t with xi := t.xi + 1 }
    else if (s.yi : Int) < c.ny then return .inl { t with yi := t.yi + 1 }
    else return .inr t

/-- `qp_rlmerge` on output arrays of length `olen` returns with `r`. -/
def QpRlmerge [LinearOrder α] (m : Marks α) (os oe : List (Option α)) (olen : Int)
    (c : MergeCall α) (r : Except MergeFault (MergeState α)) : Prop :=
  if c.nx ≤ 0 ∨ c.ny ≤ 0 then r = .ok ⟨os, oe, olen, 0, 1, 1⟩
  else Ends (mergeStep m c) ⟨os, oe, olen, 0, 1, 1⟩ r

/-! ### The line with its two ends -/

/-- The value among the points of the line and the two ends the markers stand for. -/
def Marks.ext (m : Marks α) (x : α) : WithBot (WithTop α) :=
  if m.isLeft x then ⊥ else if m.isRight x then ⊤
  else ((x : WithTop α) : WithBot (WithTop α))

def Marks.extRanges (m : Marks α) (l : List (α × α)) :
    List (WithBot (WithTop α) × WithBot (WithTop α)) :=
  l.map fun r => (m.ext r.1, m.ext r.2)

variable {m : Marks α}

@[simp] theorem extRanges_nil : m.extRanges ([] : List (α × α)) = [] := rfl

@[simp] theorem extRanges_cons (x : α × α) (xs : List (α × α)) :
    m.extRanges (x :: xs) = (m.ext x.1, m.ext x.2) :: m.extRanges xs := rfl

@[simp] theorem extRanges_append (xs ys : List (α × α)) :
    m.extRanges (xs ++ ys) = m.extRanges xs ++ m.extRanges ys :=
  List.map_append

section
variable [LinearOrder α]

theorem qpLessthan_iff (x y : α) : qpLessthan m x y = true ↔ m.ext x < m.ext y := by
  have htop : ((x : WithTop α) : WithBot (WithTop α)) < ⊤ :=
    WithBot.coe_lt_coe.mpr (WithTop.coe_lt_top x)
  unfold qpLessthan Marks.ext
  cases m.isLeft x <;> cases m.isRight x <;> cases m.isLeft y <;> cases m.isRight y <;>
    simp [bot_lt_iff_ne_bot, htop]

theorem ext_qpMinval (x y : α) : m.ext (qpMinval m x y) = min (m.ext x) (m.ext y) := by
  unfold qpMinval
  split
  · rename_i h
    rw [min_eq_left ((qpLessthan_iff x y).mp h).le]
  · rename_i h
    rw [qpLessthan_iff, not_lt] at h
    rw [min_eq_right h]

theorem ext_qpMaxval (x y : α) : m.ext (qpMaxval m x y) = max (m.ext x) (m.ext y) := by
  unfold qpMaxval
  split
  · rename_i h
    rw [max_eq_right ((qpLessthan_iff x y).mp h).le]
  · rename_i h
    rw [qpLessthan_iff, not_lt] at h
    rw [max_eq_left h]

end

/-! ### A cursor in a range list -/

/-- The cursor `i` of the list stands at the range `x`, before `rest`. -/
structure CursorAt (X : List (α × α)) (i : Nat) (x : α × α) (rest : List (α × α)) :
    Prop where
  pos : 0 < i
  drop : X.drop (i - 1) = x :: rest

section
variable {X : List (α × α)} {i : Nat} {x : α × α} {rest : List (α × α)}

theorem CursorAt.getElem? (h : CursorAt X i x rest) : X[i - 1]? = some x := by
  have hhead := congrArg List.head? h.drop
  rwa [List.head?_drop, List.head?_cons] at hhead

theorem CursorAt.elem_fst (h : CursorAt X i x rest) :
    elem (X.map Prod.fst) i = .ok x.1 := by
  obtain ⟨i, rfl⟩ : ∃ k, i = k + 1 := ⟨i - 1, by have := h.pos; omega⟩
  have hget : X[i]? = some x := by simpa using h.getElem?
  simp [elem, hget]

theorem CursorAt.elem_snd (h : CursorAt X i x rest) :
    elem (X.map Prod.snd) i = .ok x.2 := by
  obtain ⟨i, rfl⟩ : ∃ k, i = k + 1 := ⟨i - 1, by have := h.pos; omega⟩
  have hget : X[i]? = some x := by simpa using h.getElem?
  simp [elem, hget]

theorem CursorAt.length (h : CursorAt X i x rest) : X.length = i + rest.length := by
  have hlen := congrArg List.length h.drop
  have := h.pos
  simp only [List.length_drop, List.length_cons] at hlen
  omega

theorem CursorAt.next {x' : α × α} (h : CursorAt X i x (x' :: rest)) :
    CursorAt X (i + 1) x' rest := by
  refine ⟨Nat.succ_pos i, ?_⟩
  have htail := congrArg List.tail h.drop
  have hpos := h.pos
  rwa [List.tail_drop, List.tail_cons, show i - 1 + 1 = i + 1 - 1 by omega] at htail

/-- Past the first range of a list the cursor is at its last range or has a next one. -/
theorem CursorAt.last_or_next (h : CursorAt X i x rest) :
    (rest = [] ∧ ¬ (i : Int) < X.length) ∨
      ∃ x' rest', rest = x' :: rest' ∧ (i : Int) < X.length ∧
        CursorAt X (i + 1) x' rest' := by
  cases rest with
  | nil => exact .inl ⟨rfl, by rw [h.length, List.length_nil]; omega⟩
  | cons x' rest' =>
      have hlt : (i : Int) < X.length := by
        rw [h.length, List.length_cons]
        omega
      exact .inr ⟨x', rest', rfl, hlt, h.next⟩

end

/-! ### The output arrays -/

/-- The output arrays have the length in `olen`. -/
structure MergeState.Sized (s : MergeState α) : Prop where
  os : (s.os.length : Int) = s.olen
  oe : (s.oe.length : Int) = s.olen

/-- The output arrays begin with the ranges. -/
structure MergeState.Holds (s : MergeState α) (out : List (α × α)) : Prop where
  count : s.nxOut = out.length
  os : s.os.take s.nxOut = out.map fun r => some r.1
  oe : s.oe.take s.nxOut = out.map fun r => some r.2

theorem length_realloc (a : List (Option α)) (n : Int) :
    (realloc a n).length = n.toNat := by
  simp [realloc]
  omega

theorem take_realloc (a : List (Option α)) {k : Nat} {n : Int} (hk : k ≤ a.length)
    (hn : (k : Int) ≤ n) : (realloc a n).take k = a.take k := by
  unfold realloc
  rw [List.take_append_of_le_length (by simp; omega), List.take_take, min_eq_left (by omega)]

variable {s : MergeState α} {out : List (α × α)}

theorem MergeState.Holds.le (h : s.Holds out) : s.nxOut ≤ s.os.length ∧ s.nxOut ≤ s.oe.length := by
  have hos := congrArg List.length h.os
  have hoe := congrArg List.length h.oe
  have := h.count
  simp only [List.length_take, List.length_map] at hos hoe
  omega

theorem MergeState.Holds.grow (hs : s.Sized) (h : s.Holds out) :
    s.grow.Sized ∧ s.grow.Holds out ∧ (s.grow.nxOut : Int) < s.grow.olen ∧
      s.grow.xi = s.xi ∧ s.grow.yi = s.yi := by
  have hle := h.le
  have hlen := hs.os
  have hlen' := hs.oe
  unfold MergeState.grow
  split
  case isTrue hfull =>
    have hroom : (s.nxOut : Int) < max defXlen (s.olen * 2) := by
      simp only [defXlen]
      omega
    have hcast : ((max defXlen (s.olen * 2)).toNat : Int) = max defXlen (s.olen * 2) :=
      Int.toNat_of_nonneg (by simp [defXlen])
    refine ⟨⟨?_, ?_⟩, ⟨h.count, ?_, ?_⟩, hroom, rfl, rfl⟩
    · simpa only [length_realloc] using hcast
    · simpa only [length_realloc] using hcast
    · exact (take_realloc s.os hle.1 hroom.le).trans h.os
    · exact (take_realloc s.oe hle.2 hroom.le).trans h.oe
  case isFalse hroom => exact ⟨hs, h, by omega, rfl, rfl⟩

theorem store_eq {a : List (Option α)} {i : Nat} (h : i < a.length) (v : α) :
    store a i v = .ok (a.set i (some v)) :=
  if_pos h

theorem take_set_succ {a : List (Option α)} {i : Nat} (h : i < a.length) (v : α) :
    (a.set i (some v)).take (i + 1) = a.take i ++ [some v] := by
  rw [List.take_succ_eq_append_getElem (by simpa using h), List.take_set_of_le le_rfl]
  simp

/-- A range is stored after the arrays have been grown, and no store is outside them. -/
theorem MergeState.Holds.put (hs : s.Sized) (h : s.Holds out) (o1 o2 : α) :
    ∃ t, s.grow.put o1 o2 = .ok t ∧ t.Sized ∧ t.Holds (out ++ [(o1, o2)]) ∧
      t.xi = s.xi ∧ t.yi = s.yi := by
  obtain ⟨hsized, hholds, hroom, hxi, hyi⟩ := MergeState.Holds.grow hs h
  have hos : s.grow.nxOut < s.grow.os.length := by have := hsized.os; omega
  have hoe : s.grow.nxOut < s.grow.oe.length := by have := hsized.oe; omega
  have hput : s.grow.put o1 o2 = .ok { s.grow with
      os := s.grow.os.set s.grow.nxOut (some o1)
      oe := s.grow.oe.set s.grow.nxOut (some o2)
      nxOut := s.grow.nxOut + 1 } := by
    simp only [MergeState.put, store_eq hos, store_eq hoe]
    rfl
  refine ⟨_, hput, ⟨?_, ?_⟩, ⟨?_, ?_, ?_⟩, hxi, hyi⟩
  · simpa using hsized.os
  · simpa using hsized.oe
  · simp [hholds.count]
  · simp [take_set_succ hos, hholds.os]
  · simp [take_set_succ hoe, hholds.oe]

/-! ### The merge -/

/-- The call on two range lists, each array as long as its list. -/
def listCall (X Y : List (α × α)) : MergeCall α where
  xs := X.map Prod.fst
  xe := X.map Prod.snd
  nx := X.length
  ys := Y.map Prod.fst
  ye := Y.map Prod.snd
  ny := Y.length

variable [LinearOrder α] {X Y : List (α × α)}

/-- What is written, and what the ranges from the cursors on have in common, is the result. -/
structure Merging (m : Marks α) (X Y : List (α × α)) (s : MergeState α) (x y : α × α)
    (xs ys out : List (α × α)) : Prop where
  sized : s.Sized
  holds : s.Holds out
  atX : CursorAt X s.xi x xs
  atY : CursorAt Y s.yi y ys
  rest : m.extRanges out ++ common (m.extRanges (x :: xs)) (m.extRanges (y :: ys)) =
    common (m.extRanges X) (m.extRanges Y)

/-- The ranges in common are written, in arrays as long as `olen`. -/
structure Merged (m : Marks α) (X Y : List (α × α)) (s : MergeState α)
    (out : List (α × α)) : Prop where
  sized : s.Sized
  holds : s.Holds out
  eq : m.extRanges out = common (m.extRanges X) (m.extRanges Y)

def cursorsLeft (X Y : List (α × α)) (s : MergeState α) : Nat :=
  X.length - s.xi + (Y.length - s.yi)

/-- A turn of the merge: a cursor moves on, or the merge is over. -/
def Turn (m : Marks α) (X Y : List (α × α)) (s : MergeState α) : Prop :=
  (∃ t, mergeStep m (listCall X Y) s = .ok (.inl t) ∧
    (∃ x y xs ys out, Merging m X Y t x y xs ys out) ∧
    cursorsLeft X Y t < cursorsLeft X Y s) ∨
  ∃ r, mergeStep m (listCall X Y) s = .ok (.inr r) ∧ ∃ out, Merged m X Y r out

section
variable {x y : α × α} {xs ys : List (α × α)}

theorem mergeStep_eq (h : Merging m X Y s x y xs ys out) :
    mergeStep m (listCall X Y) s =
      if qpLessthan m x.2 y.1 then
        if (s.xi : Int) ≥ X.length then .ok (.inr s)
        else .ok (.inl { s with xi := s.xi + 1 })
      else if qpLessthan m y.2 x.1 then
        if (s.yi : Int) ≥ Y.length then .ok (.inr s)
        else .ok (.inl { s with yi := s.yi + 1 })
      else
        s.grow.put (qpMaxval m x.1 y.1) (qpMinval m x.2 y.2) >>= fun t =>
          if (s.xi : Int) < X.length ∧ qpLessthan m x.2 y.2 then
            .ok (.inl { t with xi := t.xi + 1 })
          else if (s.yi : Int) < Y.length then .ok (.inl { t with yi := t.yi + 1 })
          else .ok (.inr t) := by
  simp only [mergeStep, listCall, h.atX.elem_fst, h.atX.elem_snd, h.atY.elem_fst,
    h.atY.elem_snd]
  rfl

theorem turn_before (h : Merging m X Y s x y xs ys out) (hlt : m.ext x.2 < m.ext y.1) :
    Turn m X Y s := by
  have hstep := mergeStep_eq h
  have hrest := h.rest
  rw [if_pos ((qpLessthan_iff _ _).mpr hlt)] at hstep
  rw [extRanges_cons, extRanges_cons, common, if_pos hlt] at hrest
  rcases h.atX.last_or_next with ⟨rfl, hend⟩ | ⟨x', rest', rfl, hmore, hnext⟩
  · rw [if_pos (not_lt.mp hend)] at hstep
    refine .inr ⟨s, hstep, out, h.sized, h.holds, ?_⟩
    rw [← hrest, extRanges_nil, common, List.append_nil]
  · rw [if_neg (not_le.mpr hmore)] at hstep
    refine .inl ⟨_, hstep, ⟨x', y, rest', ys, out, ?_⟩, ?_⟩
    · exact ⟨⟨h.sized.os, h.sized.oe⟩, ⟨h.holds.count, h.holds.os, h.holds.oe⟩, hnext, h.atY,
        hrest⟩
    · simp only [cursorsLeft]
      omega

theorem turn_after (h : Merging m X Y s x y xs ys out) (hbefore : ¬ m.ext x.2 < m.ext y.1)
    (hlt : m.ext y.2 < m.ext x.1) : Turn m X Y s := by
  have hstep := mergeStep_eq h
  have hrest := h.rest
  rw [if_neg (mt (qpLessthan_iff _ _).mp hbefore), if_pos ((qpLessthan_iff _ _).mpr hlt)] at hstep
  rw [extRanges_cons, extRanges_cons, common, if_neg hbefore, if_pos hlt] at hrest
  rcases h.atY.last_or_next with ⟨rfl, hend⟩ | ⟨y', rest', rfl, hmore, hnext⟩
  · rw [if_pos (not_lt.mp hend)] at hstep
    refine .inr ⟨s, hstep, out, h.sized, h.holds, ?_⟩
    rw [← hrest, extRanges_nil, common, List.append_nil]
  · rw [if_neg (not_le.mpr hmore)] at hstep
    refine .inl ⟨_, hstep, ⟨x, y', xs, rest', out, ?_⟩, ?_⟩
    · exact ⟨⟨h.sized.os, h.sized.oe⟩, ⟨h.holds.count, h.holds.os, h.holds.oe⟩, h.atX, hnext,
        hrest⟩
    · simp only [cursorsLeft]
      omega

theorem lt_of_later (hY : Increasing (m.extRanges Y)) (hy : CursorAt Y s.yi y ys) :
    ∀ r ∈ m.extRanges ys, m.ext y.2 < r.1 := by
  have hsuffix : Increasing (m.extRanges (y :: ys)) := by
    rw [← hy.drop]
    exact hY.sublist (by rw [Marks.extRanges, List.map_drop]; exact List.drop_sublist _ _)
  exact (List.pairwise_cons.mp hsuffix.apart).1

theorem turn_meet (hY : Increasing (m.extRanges Y)) (h : Merging m X Y s x y xs ys out)
    (hbefore : ¬ m.ext x.2 < m.ext y.1) (hafter : ¬ m.ext y.2 < m.ext x.1) :
    Turn m X Y s := by
  obtain ⟨t, hput, hsized, hholds, hxi, hyi⟩ :=
    h.holds.put h.sized (qpMaxval m x.1 y.1) (qpMinval m x.2 y.2)
  have hstep := mergeStep_eq h
  have hrest := h.rest
  rw [if_neg (mt (qpLessthan_iff _ _).mp hbefore),
    if_neg (mt (qpLessthan_iff _ _).mp hafter), hput] at hstep
  have hkeep : m.extRanges (out ++ [(qpMaxval m x.1 y.1, qpMinval m x.2 y.2)]) ++
      (if m.ext x.2 < m.ext y.2 then common (m.extRanges xs) (m.extRanges (y :: ys))
        else common (m.extRanges (x :: xs)) (m.extRanges ys)) =
      common (m.extRanges X) (m.extRanges Y) := by
    rw [← hrest, extRanges_cons x xs, extRanges_cons y ys, common, if_neg hbefore,
      if_neg hafter]
    simp [ext_qpMaxval, ext_qpMinval]
  have hcursors : cursorsLeft X Y t = cursorsLeft X Y s := by rw [cursorsLeft, hxi, hyi]; rfl
  -- The first list is the one to advance, unless it is at its last range.
  by_cases hadvance : (s.xi : Int) < X.length ∧ m.ext x.2 < m.ext y.2
  · obtain ⟨hmore, hshort⟩ := hadvance
    rcases h.atX.last_or_next with ⟨-, hend⟩ | ⟨x', xs', rfl, -, hnext⟩
    · exact absurd hmore hend
    rw [if_pos hshort] at hkeep
    refine .inl ⟨{ t with xi := t.xi + 1 }, ?_, ⟨x', y, xs', ys,
      out ++ [(qpMaxval m x.1 y.1, qpMinval m x.2 y.2)], ?_⟩, ?_⟩
    · rw [hstep]
      exact if_pos ⟨hmore, (qpLessthan_iff _ _).mpr hshort⟩
    · exact ⟨⟨hsized.os, hsized.oe⟩, ⟨hholds.count, hholds.os, hholds.oe⟩, hxi ▸ hnext,
        hyi ▸ h.atY, hkeep⟩
    · rw [← hcursors]
      simp only [cursorsLeft]
      omega
  · have hlater : m.extRanges (out ++ [(qpMaxval m x.1 y.1, qpMinval m x.2 y.2)]) ++
        common (m.extRanges (x :: xs)) (m.extRanges ys) =
          common (m.extRanges X) (m.extRanges Y) := by
      rw [← hkeep]
      split
      case isTrue hshort =>
        rcases h.atX.last_or_next with ⟨rfl, -⟩ | ⟨x', xs', rfl, hmore, -⟩
        · have hnone : common [(m.ext x.1, m.ext x.2)] (m.extRanges ys) = [] :=
            common_singleton fun r hr => hshort.trans (lt_of_later hY h.atY r hr)
          rw [extRanges_cons, extRanges_nil, hnone, common]
        · exact absurd ⟨hmore, hshort⟩ hadvance
      case isFalse => rfl
    have hstep' := hstep.trans
      (if_neg (mt (And.imp_right (qpLessthan_iff x.2 y.2).mp) hadvance))
    rcases h.atY.last_or_next with ⟨rfl, hend⟩ | ⟨y', ys', rfl, hmore, hnext⟩
    · refine .inr ⟨t, hstep'.trans (if_neg hend), _, hsized, hholds, ?_⟩
      rwa [extRanges_nil, extRanges_cons, common, List.append_nil] at hlater
    · refine .inl ⟨_, hstep'.trans (if_pos hmore), ⟨x, y', xs, ys',
        out ++ [(qpMaxval m x.1 y.1, qpMinval m x.2 y.2)], ?_⟩, ?_⟩
      · exact ⟨⟨hsized.os, hsized.oe⟩, ⟨hholds.count, hholds.os, hholds.oe⟩, hxi ▸ h.atX,
          hyi ▸ hnext, hlater⟩
      · rw [← hcursors]
        simp only [cursorsLeft]
        omega

theorem Merging.turn (hY : Increasing (m.extRanges Y)) (h : Merging m X Y s x y xs ys out) :
    Turn m X Y s := by
  by_cases hbefore : m.ext x.2 < m.ext y.1
  · exact turn_before h hbefore
  · by_cases hafter : m.ext y.2 < m.ext x.1
    · exact turn_after h hbefore hafter
    · exact turn_meet hY h hbefore hafter

end

theorem qpRlmerge_merged (hY : Increasing (m.extRanges Y)) {os oe : List (Option α)}
    {olen : Int} (hos : (os.length : Int) = olen) (hoe : (oe.length : Int) = olen) :
    ∃ r out, QpRlmerge m os oe olen (listCall X Y) (.ok r) ∧ Merged m X Y r out := by
  have hnew : MergeState.Holds (⟨os, oe, olen, 0, 1, 1⟩ : MergeState α) [] :=
    ⟨rfl, by simp, by simp⟩
  unfold QpRlmerge
  by_cases hempty : (listCall X Y).nx ≤ 0 ∨ (listCall X Y).ny ≤ 0
  · simp only [if_pos hempty]
    refine ⟨_, [], rfl, ⟨hos, hoe⟩, hnew, ?_⟩
    rcases hempty with hX | hX
    · have hnil : X = [] := List.length_eq_zero_iff.mp (by simp only [listCall] at hX; omega)
      rw [hnil, extRanges_nil, common]
    · have hnil : Y = [] := List.length_eq_zero_iff.mp (by simp only [listCall] at hX; omega)
      rw [hnil, extRanges_nil]
      cases m.extRanges X <;> rw [common]
  · simp only [if_neg hempty]
    simp only [listCall, not_or, not_le] at hempty
    obtain ⟨x, xs, rfl⟩ := List.exists_cons_of_length_pos (l := X) (by omega)
    obtain ⟨y, ys, rfl⟩ := List.exists_cons_of_length_pos (l := Y) (by omega)
    have hstart : Merging m (x :: xs) (y :: ys) ⟨os, oe, olen, 0, 1, 1⟩ x y xs ys [] :=
      ⟨⟨hos, hoe⟩, hnew, ⟨Nat.one_pos, rfl⟩, ⟨Nat.one_pos, rfl⟩, rfl⟩
    obtain ⟨r, hends, out, hmerged⟩ := ends_of_rank (cursorsLeft (x :: xs) (y :: ys))
      (P := fun s => ∃ x' y' xs' ys' out, Merging m (x :: xs) (y :: ys) s x' y' xs' ys' out)
      (Q := fun r => ∃ out, Merged m (x :: xs) (y :: ys) r out)
      (by rintro s ⟨x', y', xs', ys', out', h⟩; exact h.turn hY) ⟨x, y, xs, ys, [], hstart⟩
    exact ⟨r, out, hends, hmerged⟩

theorem QpRlmerge.unique {os oe : List (Option α)} {olen : Int} {c : MergeCall α}
    {r r' : Except MergeFault (MergeState α)} (h : QpRlmerge m os oe olen c r)
    (h' : QpRlmerge m os oe olen c r') : r = r' := by
  unfold QpRlmerge at h h'
  split at h
  case isTrue hempty => rw [if_pos hempty] at h'; exact h.trans h'.symm
  case isFalse hempty => rw [if_neg hempty] at h'; exact h.unique h'

/-- The merge ends without a read or a store outside an array.  It returns increasing
disjoint ranges, and their points are those that lie in both lists. -/
theorem qpRlmerge_intersection (m : Marks α) (X Y : List (α × α))
    (hX : Increasing (m.extRanges X)) (hY : Increasing (m.extRanges Y))
    (os oe : List (Option α)) (olen : Int) (hos : (os.length : Int) = olen)
    (hoe : (oe.length : Int) = olen) :
    ∃ r out, (∀ r', QpRlmerge m os oe olen (listCall X Y) r' ↔ r' = .ok r) ∧
      r.Sized ∧ r.Holds out ∧ Increasing (m.extRanges out) ∧
      points (m.extRanges out) = points (m.extRanges X) ∩ points (m.extRanges Y) := by
  obtain ⟨r, out, hends, hmerged⟩ := qpRlmerge_merged (X := X) (Y := Y) (m := m) hY hos hoe
  refine ⟨r, out, fun r' => ⟨fun h => h.unique hends, fun h => h ▸ hends⟩, hmerged.sized,
    hmerged.holds, ?_, ?_⟩
  · rw [hmerged.eq]
    exact hX.common hY
  · rw [hmerged.eq]
    exact points_common hX hY

/-- Two lists with open ends merged into arrays that have not been allocated. -/
theorem qpRlmerge_intersection_open :
    ∃ r out, (∀ r', QpRlmerge intMarks [] [] 0
        (listCall [(-maxInt, 5), (10, maxInt)] [(3, 12), (20, maxInt)]) r' ↔ r' = .ok r) ∧
      r.Sized ∧ r.Holds out ∧ Increasing (intMarks.extRanges out) ∧
      points (intMarks.extRanges out) =
        points (intMarks.extRanges [(-maxInt, 5), (10, maxInt)]) ∩
          points (intMarks.extRanges [(3, 12), (20, maxInt)]) := by
  apply qpRlmerge_intersection
  · constructor <;> decide
  · constructor <;> decide
  · rfl
  · rfl

end Iraf.Qpoe
