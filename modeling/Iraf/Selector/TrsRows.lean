import Iraf.Selector.RowIntersection
import Iraf.Selector.TrsCalc

/-!
# Selecting rows

The row ranges of a tree that stand below ands only are evaluated as row sets; what is left of
the tree is evaluated for the rows of the set.  Together they select the rows for which the whole
tree holds.
-/

namespace Iraf.Selector.Trs

open StepMachine

/-! ## The tree that is compiled -/

/-- No `YNOT` is over a row range. -/
def Filter.Positive : Filter → Prop
  | null => True
  | yrange _ _ => True
  | yand left right => left.Positive ∧ right.Positive
  | ynot arg => arg.Positive ∧ trsOverTree arg = false

/-- What the loop of `trshasrow` has done to a tree. -/
structure Turned (root : Filter) (st : Bool × Bool) (root' : Filter) (st' : Bool × Bool) :
    Prop where
  holds : ∀ tp irow, root'.holds tp irow = root.holds tp irow
  ranged : trsOverTree root' = trsOverTree root
  hasrow : st'.2 = (st.2 || trsOverTree root)
  positive : st'.1 = true → st.1 = true ∧ root'.Positive

theorem Turned.ynot {arg arg' : Filter} {st : Bool × Bool} {result hasrow : Bool}
    (h : Turned arg st arg' (result, hasrow)) :
    Turned (.ynot arg) st (.ynot arg') (result && !trsOverTree arg', hasrow) := by
  refine ⟨fun tp irow => ?_, h.ranged, h.hasrow, fun hresult => ?_⟩
  · rw [Filter.holds, h.holds, ← Filter.holds]
  · simp only [Bool.and_eq_true, Bool.not_eq_true'] at hresult
    obtain ⟨hst, hpos⟩ := h.positive hresult.1
    exact ⟨hst, hpos, hresult.2⟩

@[simp] theorem int_intCast (n : Int) : int (n : ℚ) = n := by
  unfold int
  split
  · exact Int.floor_intCast n
  · exact Int.ceil_intCast n

/-- The rows of the selector and its pseudocode make up the expression. -/
structure Selects (nrow : Int) (root rest : Filter) (pcode : Pcode) : Prop where
  wellFormed : pcode.rows.WellFormed
  code : ∃ code, trsputcode rest = .ok code ∧ pcode.code = rest.putjump 0 code
  rows : ∀ v ∈ pcode.rows.rows, 1 ≤ v ∧ v ≤ nrow
  holds : ∀ tp v, 1 ≤ v → v ≤ nrow →
    (root.holds tp v = true ↔ v ∈ pcode.rows.rows ∧ rest.holds tp v = true)

theorem trscalc_mono {fuel extra : Nat} {tp : Table} {irow : Int} {code : List Instr}
    {result : Except TrsError Bool} (h : trscalc fuel tp irow code = some result) :
    trscalc (fuel + extra) tp irow code = some result := run_mono h

variable {nrow : Int} {root rest : Filter} {pcode : Pcode} {tp : Table}

theorem Selects.trscalc (h : Selects nrow root rest pcode) (hlinked : rest.Linked)
    (hdepth : ∀ v, 1 ≤ v → v ≤ nrow → rest.depth tp v < MAXSTACK) :
    ∃ fuel, ∀ v, 1 ≤ v → v ≤ nrow →
      trscalc fuel tp v pcode.code = some (.ok (rest.holds tp v)) := by
  obtain ⟨code, hcode, hput⟩ := h.code
  have hrun : ∀ v, 1 ≤ v → v ≤ nrow →
      ∃ fuel, Trs.trscalc fuel tp v pcode.code = some (.ok (rest.holds tp v)) := by
    intro v hlo hhi
    have hends := trscalc_ends hlinked hcode tp v
    rw [if_pos (hdepth v hlo hhi), ← hput] at hends
    exact hends
  have hbound : ∀ n : Nat, ∃ fuel, ∀ v, 1 ≤ v → v ≤ nrow → v ≤ n →
      Trs.trscalc fuel tp v pcode.code = some (.ok (rest.holds tp v)) := by
    intro n
    induction n with
    | zero => exact ⟨0, fun v hlo _ hzero => absurd hzero (by omega)⟩
    | succ n ih =>
        obtain ⟨fuel, hfuel⟩ := ih
        by_cases hin : (n : Int) + 1 ≤ nrow
        · obtain ⟨fuel', hfuel'⟩ := hrun (n + 1) (by omega) hin
          refine ⟨fuel + fuel', fun v hlo hhi hv => ?_⟩
          by_cases hlast : v = n + 1
          · rw [hlast, Nat.add_comm]
            exact trscalc_mono hfuel'
          · exact trscalc_mono (hfuel v hlo hhi (by omega))
        · exact ⟨fuel, fun v hlo hhi _ => hfuel v hlo hhi (by omega)⟩
  obtain ⟨fuel, hfuel⟩ := hbound nrow.toNat
  exact ⟨fuel, fun v hlo hhi => hfuel v hlo hhi (by omega)⟩

theorem Selects.hint (h : Selects nrow root rest pcode) (current : Int) :
    Selects nrow root rest { pcode with rows := { pcode.rows with current := current } } :=
  ⟨h.wellFormed.hint current, h.code, h.rows, h.holds⟩

/-- Tests that are added to a filter with commas. -/
def chain (first : Filter) (tests : List (RangeList × Nat)) : Filter :=
  tests.foldl (fun left t => .yand left (.yrange t.1 t.2)) first

variable {codebuf : List Instr} {value : Bool} {depth icode last : Nat} {top : Instr} {irow : Int}

/-- A filter placed at the beginning of the code buffer, ready to get a jump. -/
structure Placed (tp : Table) (irow : Int) (f : Filter) (body : List Instr) (value : Bool)
    (depth : Nat) : Prop where
  nonnull : f ≠ .null
  size : f.size = body.length + 1
  inst : f.inst 0 = (SZ_INSTR * body.length : Nat)
  link : ∀ post, f.putjump 0 (f.putcode ++ post) = body ++ logical .yand :: post
  pos : 1 ≤ depth
  computes : ∀ fjump post,
    Computes tp irow (body ++ (logical .yand).jumps 0 fjump :: post) 0 (SZ_INSTR * body.length)
      ((logical .yand).jumps 0 fjump) value depth

end Iraf.Selector.Trs
