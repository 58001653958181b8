import Iraf.Plio.ListSegments
import Iraf.Plio.Section

/-!
# Testing a section for one value

`pl_sectnotconst` finds out whether all pixels of a section are equal, and to what.
-/

namespace Iraf.Plio

open Odometer SegmentWalk

/-- How a loop with a bound on its turns can fail. -/
inductive LoopErr where
  | mask (e : PlErr)
  /-- `SYS_PLSTKOVFL`. -/
  | stackOverflow
  /-- The bound is too small. -/
  | turns
  deriving DecidableEq, Repr

def atMost {α : Type} : Option (Except LoopErr α) → Except LoopErr α
  | none => .error .turns
  | some r => r

def liftMask {α : Type} : Except PlErr α → Except LoopErr α
  | .error e => .error (.mask e)
  | .ok a => .ok a

@[simp] abbrev errValue : Int := -1

/-! ## One line -/

/-- The loop of `pll_const`. -/
structure ConstScan where
  dSrc : LlDes
  nleft : Int
  mval : Int

/-- A turn of the loop: what is returned is whether the pixels are equal and `mval`. -/
def ConstScan.step (llSrc : List Int) (s : ConstScan) :
    Except LoopErr (ConstScan ⊕ (Bool × Int)) :=
  if s.nleft > 0 then
    let np := min s.dSrc.nleft s.nleft
    let seg := pllGetseg llSrc s.dSrc np
    if seg.2 ≠ s.mval then
      if s.mval < 0 then .ok (.inl ⟨seg.1, s.nleft - np, seg.2⟩)
      else .ok (.inr (false, s.mval))
    else .ok (.inl ⟨seg.1, s.nleft - np, s.mval⟩)
  else .ok (.inr (true, s.mval))

/-- `pll_const`, in at most `fuel` turns. -/
def pllConst (llSrc : List Int) (xs npix : Int) (fuel : Nat) :
    Except LoopErr (Bool × Int) :=
  let dSrc := (llReader llSrc).advance xs arb 1 (pllInit llSrc)
  atMost (StepMachine.run (ConstScan.step llSrc) fuel ⟨dSrc, npix, -1⟩)

/-- Determine if a line segment is complex, or is all set to one value. -/
def lineValue (pl : Mask) (llSrc xs npix : Int) (fuel : Nat) : Except LoopErr (Bool × Int) :=
  if llSrc = plEmptyline then .ok (true, 0) else pllConst (pl.ll llSrc) xs npix fuel

/-- A turn of the loop of `pl_sectnotconst`, with the value of the lines so far. -/
def notconstLine (pl : Mask) (xs npix : Int) (fuel : Nat) (mval : Int) (v : List Int) :
    Except LoopErr (Int ⊕ (Bool × Int)) := do
  let llSrc ← liftMask (plReference pl v)
  let line ← lineValue pl llSrc xs npix fuel
  if line.1 = false then return .inr (true, mval)
  if mval = errValue then return .inl line.2
  if mval ≠ line.2 then return .inr (true, mval)
  return .inl mval

/-- `pl_sectnotconst`: whether the section is complex, and `mval`.  Every loop takes at
most `fuel` turns. -/
def plSectnotconst (pl : Mask) (v1 v2 : List Int) (ndim fuel : Nat) :
    Except LoopErr (Bool × Int) :=
  let vs := (sectVectors v1 v2 ndim).1
  let vn := (sectVectors v1 v2 ndim).2
  let ve := (plsslv pl vs vn).2
  atMost (StepMachine.run
    (turn (notconstLine pl (word vs 1) (word vn 1) fuel)
      (fun v => nextAfter (plloop v vs ve pl.naxes)) fun mval => (false, mval))
    fuel (errValue, (plsslv pl vs vn).1))

/-! ## The pixels of one line -/

variable {ll line row : List Int}

theorem ConstScan.run_value (n : Nat) :
    ∀ {d : LlDes} {line : List Int} {c : Int} {fuel : Nat}, d.Ahead ll line → n ≤ line.length →
      0 ≤ c → n < fuel →
      StepMachine.run (ConstScan.step ll) fuel ⟨d, n, c⟩ =
        some (.ok (decide (∀ p ∈ line.take n, p = c), c)) := by
  induction n using Nat.strong_induction_on with
  | _ n ih =>
      intro d line c fuel hahead hn hc hfuel
      obtain ⟨fuel, rfl⟩ := Nat.exists_eq_add_of_lt hfuel
      rw [StepMachine.run]
      rcases Nat.eq_zero_or_pos n with rfl | hpos
      · simp [ConstScan.step]
      · have hne : line ≠ [] := by
          rintro rfl
          rw [List.length_nil] at hn
          omega
        have hleft := hahead.nleft_pos hne
        obtain ⟨np, hnp⟩ : ∃ np : Nat, (np : Int) = min d.nleft n :=
          ⟨(min d.nleft n).toNat, by omega⟩
        obtain ⟨hrest, hvalue, htake⟩ := hahead.getseg (show (np : Int) ≤ d.nleft by omega)
        have hsplit : line.take n = List.replicate np d.value ++ (line.drop np).take (n - np) := by
          have hcount : n = np + (n - np) := by omega
          rw [hcount, List.take_add, htake, Nat.add_sub_cancel_left]
        have hmore : ((n : Nat) : Int) > 0 := by omega
        simp only [ConstScan.step, if_pos hmore, ← hnp, hvalue]
        by_cases hsame : d.value = c
        · have hsub : (n : Int) - np = (n - np : Nat) := by omega
          have hall : (∀ p ∈ line.take n, p = c) ↔ ∀ p ∈ (line.drop np).take (n - np), p = c := by
            rw [hsplit, hsame]
            simp only [List.mem_append, List.mem_replicate]
            constructor
            · exact fun h p hp => h p (.inr hp)
            · rintro h p (⟨-, rfl⟩ | hp)
              · rfl
              · exact h p hp
          have hlen : n - np ≤ (line.drop np).length := by
            rw [List.length_drop]
            omega
          rw [if_neg (not_not_intro hsame), hsub]
          simp only
          rw [ih (n - np) (by omega) hrest hlen hc (by omega)]
          simp only [hall]
        · have hdiffer : ¬ ∀ p ∈ line.take n, p = c := by
            intro h
            apply hsame
            apply h
            rw [hsplit]
            exact List.mem_append_left _ (List.mem_replicate.mpr ⟨by omega, rfl⟩)
          rw [if_pos hsame, if_neg (by omega)]
          simp only [hdiffer, decide_false]

theorem pllConst_eq (h : Encodes ll row) (hpx : ∀ p ∈ row, 0 ≤ p)
    (hlong : row.length ≤ arb) {k n fuel : Nat} (hn : 0 < n) (hlast : k + n ≤ row.length)
    (hfuel : n < fuel) {c : Int} (hc : row[k]? = some c) :
    pllConst ll ((k : Int) + 1) n fuel =
      .ok (decide (∀ p ∈ (row.drop k).take n, p = c), c) := by
  have hcount : ((k : Int) + 1 - 1).toNat = k := by omega
  have hstart := (llReader_delivers ll).advance (.inr (llReader_exact ll)) arb
    (show (pllInit ll).Ahead ll (row.drop (1 - 1)) by simpa using pllInit_ahead h)
    (Int.le_refl 1) (show (1 : Int) ≤ (k : Int) + 1 by omega) (by omega)
  rw [hcount] at hstart
  unfold pllConst
  generalize (llReader ll).advance ((k : Int) + 1) arb 1 (pllInit ll) = d at hstart ⊢
  obtain ⟨fuel, rfl⟩ : ∃ f, fuel = f + 1 := ⟨fuel - 1, by omega⟩
  have hpos : 0 ≤ c := hpx c (List.mem_of_getElem? hc)
  have hne : row.drop k ≠ [] := by
    intro hnil
    have hlen := congrArg List.length hnil
    rw [List.length_drop, List.length_nil] at hlen
    omega
  have hleft := hstart.nleft_pos hne
  obtain ⟨np, hnp⟩ : ∃ np : Nat, (np : Int) = min d.nleft n :=
    ⟨(min d.nleft n).toNat, by omega⟩
  obtain ⟨hrest, hvalue, htake⟩ := hstart.getseg (show (np : Int) ≤ d.nleft by omega)
  -- The first segment gives the value.
  have hfirst : d.value = c := by
    have hhead : ((row.drop k).take np)[0]? = some c := by
      rw [List.getElem?_take, if_pos (by omega), List.getElem?_drop]
      exact hc
    rw [htake, List.getElem?_replicate, if_pos (by omega)] at hhead
    exact Option.some.inj hhead
  have hall : (∀ p ∈ (row.drop k).take n, p = c) ↔
      ∀ p ∈ ((row.drop k).drop np).take (n - np), p = c := by
    have hsum : n = np + (n - np) := by omega
    rw [hsum, List.take_add, htake, Nat.add_sub_cancel_left, hfirst]
    simp only [List.mem_append, List.mem_replicate]
    constructor
    · exact fun h p hp => h p (.inr hp)
    · rintro h p (⟨-, rfl⟩ | hp)
      · rfl
      · exact h p hp
  have hmore : ((n : Nat) : Int) > 0 := by omega
  have hsub : (n : Int) - np = (n - np : Nat) := by omega
  have hlen : n - np ≤ ((row.drop k).drop np).length := by
    rw [List.length_drop, List.length_drop]
    omega
  dsimp only
  rw [StepMachine.run]
  simp only [ConstScan.step, if_pos hmore, ← hnp, hvalue, hfirst]
  rw [if_pos (by omega), if_pos (by decide), hsub]
  simp only
  rw [ConstScan.run_value (n - np) hrest hlen hpos (by omega)]
  simp only [atMost, hall]

theorem forall_take_drop {k n : Nat} (P : Int → Prop) (h : k + n ≤ line.length) :
    (∀ p ∈ (line.drop k).take n, P p) ↔ ∀ j < n, P (line.getD (k + j) 0) := by
  constructor
  · intro hall j hj
    apply hall
    rw [List.mem_iff_getElem?]
    refine ⟨j, ?_⟩
    rw [List.getElem?_take, if_pos hj, List.getElem?_drop,
      List.getD_eq_getElem _ _ (by omega), List.getElem?_eq_getElem]
  · intro hall p hp
    obtain ⟨j, hj⟩ := List.mem_iff_getElem?.mp hp
    rw [List.getElem?_take] at hj
    split at hj
    case isTrue hlt =>
      have hget := hall j hlt
      rw [List.getElem?_drop] at hj
      rwa [List.getD_eq_getElem?_getD, hj, Option.getD_some] at hget
    case isFalse => cases hj

/-! ## The lines of a section -/

/-- The line through `w` has the value `c` in the section. -/
def LineIs (axlen : List Int) (rows : List (List Int)) (v1 v2 : List Int) (ndim : Nat) (c : Int)
    (w : List Int) : Prop :=
  ∀ x, (sectAxis v1 v2 ndim 1).1 ≤ x →
    x ≤ (sectAxis v1 v2 ndim 1).1 + (sectAxis v1 v2 ndim 1).2 - 1 →
    (rows.getD (lineNumber axlen w) []).getD (x - 1).toNat 0 = c

/-- What a turn of a loop does with a line of value `c`, or with one of several values. -/
structure ConstTurn {α ε : Type} (body : Int → α → Except ε (Int ⊕ (Bool × Int)))
    (isValue : Int → α → Prop) (w : α) : Prop where
  const : ∀ c, isValue c w → 0 ≤ c ∧ ∀ mval, body mval w =
    .ok (if mval = errValue then .inl c else if mval ≠ c then .inr (true, mval) else .inl mval)
  differ : (∀ c, ¬ isValue c w) → ∀ mval, body mval w = .ok (.inr (true, mval))

theorem ConstTurn.unique {α ε : Type} {body : Int → α → Except ε (Int ⊕ (Bool × Int))}
    {isValue : Int → α → Prop} {w : α} (h : ConstTurn body isValue w) {c c' : Int}
    (hc : isValue c w) (hc' : isValue c' w) : c = c' := by
  have hboth := ((h.const c hc).2 errValue).symm.trans ((h.const c' hc').2 errValue)
  rw [if_pos rfl, if_pos rfl] at hboth
  cases hboth
  rfl

theorem visit_const {α ε : Type} {body : Int → α → Except ε (Int ⊕ (Bool × Int))}
    {isValue : Int → α → Prop} {ws : List α} (h : ∀ w ∈ ws, ConstTurn body isValue w)
    {c : Int} (hc : 0 ≤ c) :
    ∃ complex, visit body (fun mval => (false, mval)) c ws = .ok (complex, c) ∧
      (complex = false ↔ ∀ w ∈ ws, isValue c w) := by
  induction ws with
  | nil => exact ⟨false, rfl, by simp⟩
  | cons w ws ih =>
      obtain ⟨complex, hvisit, hiff⟩ := ih fun w' hw' => h w' (List.mem_cons_of_mem w hw')
      have hw := h w List.mem_cons_self
      rw [visit]
      by_cases hvalue : ∃ c', isValue c' w
      · obtain ⟨c', hc'⟩ := hvalue
        obtain ⟨hpos, hbody⟩ := hw.const c' hc'
        rw [hbody c, if_neg (by simp only [errValue]; omega)]
        by_cases hsame : c = c'
        · subst hsame
          rw [if_neg (not_not_intro rfl)]
          refine ⟨complex, hvisit, hiff.trans ?_⟩
          rw [List.forall_mem_cons]
          exact (and_iff_right hc').symm
        · rw [if_pos hsame]
          exact ⟨true, rfl, iff_of_false (by decide) fun hall =>
            hsame (hw.unique (hall w List.mem_cons_self) hc')⟩
      · rw [hw.differ (not_exists.mp hvalue) c]
        exact ⟨true, rfl, iff_of_false (by decide) fun hall =>
          hvalue ⟨c, hall w List.mem_cons_self⟩⟩

theorem visit_notconst {α ε : Type} {body : Int → α → Except ε (Int ⊕ (Bool × Int))}
    {isValue : Int → α → Prop} {ws : List α} (h : ∀ w ∈ ws, ConstTurn body isValue w)
    (hne : ws ≠ []) :
    ∃ complex mval, visit body (fun mval => (false, mval)) errValue ws = .ok (complex, mval) ∧
      (complex = false ↔ ∃ c, ∀ w ∈ ws, isValue c w) ∧
      (complex = false → ∀ w ∈ ws, isValue mval w) := by
  obtain ⟨w, ws, rfl⟩ := List.exists_cons_of_ne_nil hne
  have hw := h w List.mem_cons_self
  rw [visit]
  by_cases hvalue : ∃ c, isValue c w
  · obtain ⟨c, hc⟩ := hvalue
    obtain ⟨hpos, hbody⟩ := hw.const c hc
    obtain ⟨complex, hvisit, hiff⟩ :=
      visit_const (fun w' hw' => h w' (List.mem_cons_of_mem w hw')) hpos
    have hall : complex = false → ∀ w' ∈ w :: ws, isValue c w' := fun hfalse =>
      List.forall_mem_cons.mpr ⟨hc, hiff.mp hfalse⟩
    rw [hbody errValue, if_pos rfl]
    refine ⟨complex, c, hvisit, ⟨fun hfalse => ⟨c, hall hfalse⟩, ?_⟩, hall⟩
    rintro ⟨c', hc'⟩
    obtain rfl := hw.unique hc (hc' w List.mem_cons_self)
    exact hiff.mpr fun w' hw' => hc' w' (List.mem_cons_of_mem w hw')
  · rw [hw.differ (not_exists.mp hvalue)]
    refine ⟨true, errValue, rfl, iff_of_false (by decide) ?_, fun hfalse => by cases hfalse⟩
    rintro ⟨c, hc⟩
    exact hvalue ⟨c, hc w List.mem_cons_self⟩

/-- The test ends with the answer whether all pixels of the section are equal, and with
their value when they are. -/
def ConstExact (m : Mask) (axlen : List Int) (rows : List (List Int)) (v1 v2 : List Int)
    (ndim fuel : Nat) : Prop :=
  ∃ complex mval, plSectnotconst m v1 v2 ndim fuel = .ok (complex, mval) ∧
    (complex = false ↔
      ∃ c, ∀ v, InSection axlen v1 v2 ndim v → maskPixel axlen rows v = c) ∧
    (complex = false → ∀ v, InSection axlen v1 v2 ndim v → maskPixel axlen rows v = mval)

section Exact

variable {m : Mask} {axlen v1 v2 w : List Int} {rows : List (List Int)} {ndim fuel : Nat}
  (hax : Axes axlen) (hm : m.Draws axlen rows) (hpx : ∀ line ∈ rows, ∀ p ∈ line, 0 ≤ p)
  (hlen : word axlen 1 ≤ arb) (hv1 : InMask axlen v1 ndim) (hv2 : InMask axlen v2 ndim)

theorem lineIs_section (hax : Axes axlen) (rows : List (List Int)) (v1 v2 : List Int)
    (ndim : Nat) (c : Int) : (∀ v, InSection axlen v1 v2 ndim v → maskPixel axlen rows v = c) ↔
      ∀ w ∈ sectLines axlen.length v1 v2 ndim, LineIs axlen rows v1 v2 ndim c w := by
  have hexists := @exists_inSection_iff axlen v1 v2 ndim hax rows (· ≠ c)
  rw [← not_iff_not]
  simp only [LineIs, not_forall, exists_prop]
  exact hexists

include hax hm hpx hlen hv1 hv2

theorem notconstLine_turn (hw : w ∈ sectLines axlen.length v1 v2 ndim)
    (hfuel : (sectAxis v1 v2 ndim 1).2 < fuel) :
    ConstTurn (notconstLine m (sectAxis v1 v2 ndim 1).1 (sectAxis v1 v2 ndim 1).2 fuel)
      (LineIs axlen rows v1 v2 ndim) w := by
  obtain ⟨hlo, hsize, hhi⟩ := sectAxis_bounds hax hv1 hv2 (Nat.le_refl 1) hax.1
  rw [Nat.cast_one] at hhi
  obtain ⟨row, hrow, href, hencodes, hcount⟩ :=
    hm.reference hax (onLine_sectLines hax hv1 hv2 hw)
  have hget : rows.getD (lineNumber axlen w) [] = row := by
    rw [List.getD_eq_getElem?_getD, hrow]
    rfl
  have hmem := List.mem_of_getElem? hrow
  obtain ⟨k, hk⟩ : ∃ k : Nat, (sectAxis v1 v2 ndim 1).1 = (k : Int) + 1 :=
    ⟨((sectAxis v1 v2 ndim 1).1 - 1).toNat, by omega⟩
  obtain ⟨n, hn⟩ : ∃ n : Nat, (sectAxis v1 v2 ndim 1).2 = n :=
    ⟨(sectAxis v1 v2 ndim 1).2.toNat, by omega⟩
  have hin : k < row.length := by omega
  have hconst := pllConst_eq hencodes (hpx row hmem) (by omega) (show 0 < n by omega)
    (show k + n ≤ row.length by omega) (show n < fuel by omega) (List.getElem?_eq_getElem hin)
  have hvalue : ∀ c, LineIs axlen rows v1 v2 ndim c w ↔
      ∀ p ∈ (row.drop k).take n, p = c := by
    intro c
    rw [forall_take_drop _ (by omega), LineIs, hget, hk, hn]
    constructor
    · intro h j hj
      have hindex : ((k : Int) + 1 + j - 1).toNat = k + j := by omega
      have hget := h (k + 1 + j) (by omega) (by omega)
      rwa [hindex] at hget
    · intro h x hlo hhi
      have hindex : (x - 1).toNat = k + (x - 1 - k).toNat := by omega
      rw [hindex]
      exact h _ (by omega)
  have hfirst : ∀ c, LineIs axlen rows v1 v2 ndim c w → row[k] = c := by
    intro c hc
    have hget := (forall_take_drop (· = c) (by omega)).mp ((hvalue c).mp hc) 0 (by omega)
    rwa [Nat.add_zero, List.getD_eq_getElem _ _ hin] at hget
  have hpos : 0 ≤ row[k] := hpx row hmem _ (List.getElem_mem hin)
  -- The value that the turn finds, if it finds one.
  have hturn : ∃ const, (const = true ↔ LineIs axlen rows v1 v2 ndim row[k] w) ∧
      lineValue m (m.lpAt ((lineNumber axlen w : Int) + 1)) (sectAxis v1 v2 ndim 1).1
        (sectAxis v1 v2 ndim 1).2 fuel = .ok (const, row[k]) := by
    unfold lineValue
    by_cases hempty : m.lpAt ((lineNumber axlen w : Int) + 1) = plEmptyline
    · have hzero := hm.empty _ _ hrow hempty
      rw [if_pos hempty, hzero _ (List.getElem_mem hin)]
      refine ⟨true, iff_of_true rfl ((hvalue 0).mpr fun p hp => ?_), rfl⟩
      exact hzero p (List.mem_of_mem_drop (List.mem_of_mem_take hp))
    · rw [if_neg hempty, hk, hn, hconst]
      exact ⟨_, by rw [decide_eq_true_eq, hvalue], rfl⟩
  obtain ⟨const, hiff, hline⟩ := hturn
  have hbody : ∀ mval, notconstLine m (sectAxis v1 v2 ndim 1).1 (sectAxis v1 v2 ndim 1).2 fuel
      mval w = if const = false then .ok (.inr (true, mval))
        else .ok (if mval = errValue then .inl row[k]
          else if mval ≠ row[k] then .inr (true, mval) else .inl mval) := by
    intro mval
    unfold notconstLine
    rw [href]
    simp only [liftMask, bind, Except.bind, hline]
    cases const with
    | false => rfl
    | true => split_ifs <;> rfl
  constructor
  · intro c hc
    obtain rfl := hfirst c hc
    refine ⟨hpos, fun mval => ?_⟩
    rw [hbody mval, if_neg (by rw [hiff.mpr hc]; decide)]
  · intro hnone mval
    have hfalse : const = false := by
      rw [← Bool.not_eq_true, hiff]
      exact hnone _
    rw [hbody mval, if_pos hfalse]

theorem sectnotconst_exact (hlines : (sectLines axlen.length v1 v2 ndim).length ≤ fuel)
    (hfuel : (sectAxis v1 v2 ndim 1).2 < fuel) :
    ConstExact m axlen rows v1 v2 ndim fuel := by
  have hnaxes := hm.axes.1
  have hstart : word (sectVectors v1 v2 ndim).1 1 = (sectAxis v1 v2 ndim 1).1 := rfl
  have hsize : word (sectVectors v1 v2 ndim).2 1 = (sectAxis v1 v2 ndim 1).2 := rfl
  have hne : sectLines axlen.length v1 v2 ndim ≠ [] := by
    obtain ⟨rest, l, -, -, hl⟩ :=
      @plsslv_sect m v1 v2 ndim (hnaxes ▸ hax.1) (hnaxes ▸ hax.2.1)
    rw [← hnaxes, hl]
    exact List.cons_ne_nil _ _
  obtain ⟨complex, mval, hvisit, hiff, hall⟩ := visit_notconst
    (fun w hw => notconstLine_turn hax hm hpx hlen hv1 hv2 hw hfuel) hne
  refine ⟨complex, mval, ?_, ?_, ?_⟩
  · rw [plSectnotconst, hstart, hsize,
      sect_run (hnaxes ▸ hax.1) (hnaxes ▸ hax.2.1) _ _ (hnaxes ▸ hlines), hnaxes, hvisit]
    rfl
  · rw [hiff]
    exact exists_congr fun c => (lineIs_section hax rows v1 v2 ndim c).symm
  · intro hfalse
    exact (lineIs_section hax rows v1 v2 ndim mval).mpr (hall hfalse)

end Exact

end Iraf.Plio
