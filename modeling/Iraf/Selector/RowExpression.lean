import Iraf.Selector.RowAlgebra

/-!
# Row expressions

`trsoptimize` evaluates the part of an expression that is about row numbers with a stack of
row sets.  Each kind of leaf clips its end points in its own way before `rst_create`, which
swaps limits that are out of order.
-/

namespace Iraf.Selector

/-! ## The stack machine -/

/-- The instructions of `trsroweval`, with the values of their end points. -/
inductive RowInst where
  | yrange
  | yand
  | yor
  | ynot
  | yeqn (loval : Int)
  | ylen (loval : Int)
  | yinn (loval hival : Int)
  | ygen (loval : Int)
  deriving DecidableEq, Repr

inductive RowError where
  | ovflow
  /-- The source reads below the stack here. -/
  | empty
  deriving DecidableEq, Repr

def MAXDEPTH : Nat := 32

/-- The stack of pending results is a list, its top first. -/
def trsroweval (code : RowInst) (nrow : Int) (eval : List Rst) : Except RowError (List Rst) :=
  if eval.length = MAXDEPTH then .error .ovflow
  else match code, eval with
    | .yrange, eval => .ok eval
    | .yand, s1 :: s2 :: eval => .ok (rstAnd s1 s2 :: eval)
    | .yor, s1 :: s2 :: eval => .ok (rstOr s1 s2 :: eval)
    | .ynot, s1 :: eval => .ok (rstNot nrow s1 :: eval)
    | .yeqn loval, eval => .ok (rstCreate (max 1 loval) (max 1 loval) :: eval)
    | .ylen loval, eval => .ok (rstCreate 1 (max 1 loval) :: eval)
    | .yinn loval hival, eval =>
        .ok (rstCreate (max 1 (min loval hival)) (min nrow (max loval hival)) :: eval)
    | .ygen loval, eval => .ok (rstCreate (min nrow loval) nrow :: eval)
    | _, _ => .error .empty

/-- The nodes below row ranges are evaluated in turn, and the sets that remain are combined
with ands; the first element of the stack is the result. -/
def trsoptimize (nodes : List RowInst) (nrow : Int) : Except RowError Rst := do
  let eval ← nodes.foldlM (fun eval code => trsroweval code nrow eval) []
  let eval ← (List.replicate (eval.length - 1) RowInst.yand).foldlM
    (fun eval code => trsroweval code nrow eval) eval
  match eval.getLast? with
  | some set => .ok set
  | none => .error .empty

/-! ## Expressions -/

/-- What may stand behind `row=`. -/
inductive RowExpr where
  | single (a : Int)
  | upTo (b : Int)
  | between (a b : Int)
  | since (a : Int)
  | either (e f : RowExpr)
  | except (e : RowExpr)
  deriving DecidableEq, Repr

namespace RowExpr

/-- The nodes in postfix order, the order of `trs_first_tree` and `trs_next_tree`. -/
def nodes : RowExpr → List RowInst
  | single a => [.yeqn a]
  | upTo b => [.ylen b]
  | between a b => [.yinn a b]
  | since a => [.ygen a]
  | either e f => e.nodes ++ f.nodes ++ [.yor]
  | except e => e.nodes ++ [.ynot]

/-- The rows for which the expression is true. -/
def rows : RowExpr → Set Int
  | single a => {a}
  | upTo b => Set.Iic b
  | between a b => Set.Icc (min a b) (max a b)
  | since a => Set.Ici a
  | either e f => e.rows ∪ f.rows
  | except e => Set.compl e.rows

def IsLeaf : RowExpr → Prop
  | either _ _ => False
  | except _ => False
  | _ => True

/-- The end points that the leaf leaves inside of the table. -/
def Inside (nrow : Int) : RowExpr → Prop
  | single a => 1 ≤ a ∧ a ≤ nrow
  | upTo b => 1 ≤ b ∧ b ≤ nrow
  | between a b => min a b ≤ nrow ∧ 1 ≤ max a b ∨ max a b = 0
  | since a => 1 ≤ a ∧ a ≤ nrow
  | either e f => e.Inside nrow ∧ f.Inside nrow
  | except e => e.Inside nrow

/-- The elements of the stack that are used; an operation puts its result above its arguments. -/
def slots : RowExpr → Nat
  | either e f => max e.slots (max (1 + f.slots) 3)
  | except e => max e.slots 2
  | _ => 1

end RowExpr

/-- The row set that is left holds the rows of the table for which the expression is true, and
no others. -/
def Evaluates (e : RowExpr) (nrow : Int) : Prop :=
  ∃ set, trsoptimize e.nodes nrow = .ok set ∧ set.rows = Set.Icc 1 nrow ∩ e.rows

/-! ## Running the nodes -/

def runNodes (nrow : Int) (nodes : List RowInst) (eval : List Rst) :
    Except RowError (List Rst) :=
  nodes.foldlM (fun eval code => trsroweval code nrow eval) eval

theorem runNodes_append (nrow : Int) (ns ms : List RowInst) (eval : List Rst) :
    runNodes nrow (ns ++ ms) eval = (runNodes nrow ns eval).bind (runNodes nrow ms) :=
  List.foldlM_append

theorem runNodes_singleton (nrow : Int) (code : RowInst) (eval : List Rst) :
    runNodes nrow [code] eval = trsroweval code nrow eval := by
  cases h : trsroweval code nrow eval <;> simp [runNodes, h, bind, Except.bind, pure, Except.pure]

variable {nrow : Int} {e f : RowExpr} {eval : List Rst}

/-- The set that the nodes of an expression leave on the stack. -/
def RowExpr.value (nrow : Int) : RowExpr → Rst
  | single a => rstCreate (max 1 a) (max 1 a)
  | upTo b => rstCreate 1 (max 1 b)
  | between a b => rstCreate (max 1 (min a b)) (min nrow (max a b))
  | since a => rstCreate (min nrow a) nrow
  | either e f => rstOr (f.value nrow) (e.value nrow)
  | except e => rstNot nrow (e.value nrow)

theorem slots_pos (e : RowExpr) : 1 ≤ e.slots := by
  cases e <;> simp [RowExpr.slots]

theorem runNodes_leaf {code : RowInst} {set : Rst} (hroom : eval.length ≤ MAXDEPTH)
    (hcode : trsroweval code nrow eval =
      if eval.length = MAXDEPTH then .error .ovflow else .ok (set :: eval)) :
    runNodes nrow [code] eval =
      if eval.length + 1 ≤ MAXDEPTH then .ok (set :: eval) else .error .ovflow := by
  rw [runNodes_singleton, hcode]
  by_cases hfull : eval.length = MAXDEPTH
  · rw [if_pos hfull, if_neg (by omega)]
  · rw [if_neg hfull, if_pos (by omega)]

theorem runNodes_nodes (e : RowExpr) (nrow : Int) (hroom : eval.length ≤ MAXDEPTH) :
    runNodes nrow e.nodes eval =
      if eval.length + e.slots ≤ MAXDEPTH then .ok (e.value nrow :: eval)
      else .error .ovflow := by
  induction e generalizing eval with
  | single a => exact runNodes_leaf hroom rfl
  | upTo b => exact runNodes_leaf hroom rfl
  | between a b => exact runNodes_leaf hroom rfl
  | since a => exact runNodes_leaf hroom rfl
  | either e f ihe ihf =>
      have he := slots_pos e
      have hf := slots_pos f
      have hslots : (RowExpr.either e f).slots = max e.slots (max (1 + f.slots) 3) := rfl
      rw [RowExpr.nodes, runNodes_append, runNodes_append, ihe hroom, hslots]
      by_cases hfirst : eval.length + e.slots ≤ MAXDEPTH
      · rw [if_pos hfirst]
        have hroom' : (e.value nrow :: eval).length ≤ MAXDEPTH := by
          rw [List.length_cons]
          omega
        have hsecond := ihf hroom'
        rw [List.length_cons] at hsecond
        change ((runNodes nrow f.nodes (e.value nrow :: eval)).bind _) = _
        rw [hsecond]
        by_cases hfits : eval.length + 1 + f.slots ≤ MAXDEPTH
        · rw [if_pos hfits]
          change runNodes nrow [.yor] (f.value nrow :: e.value nrow :: eval) = _
          rw [runNodes_singleton, trsroweval]
          simp only [List.length_cons]
          by_cases hfull : eval.length + 1 + 1 = MAXDEPTH
          · rw [if_pos hfull, if_neg (by omega)]
          · rw [if_neg hfull, if_pos (by omega)]
            rfl
        · rw [if_neg hfits, if_neg (by omega)]
          rfl
      · rw [if_neg hfirst, if_neg (by omega)]
        rfl
  | except e ih =>
      have he := slots_pos e
      have hslots : (RowExpr.except e).slots = max e.slots 2 := rfl
      rw [RowExpr.nodes, runNodes_append, ih hroom, hslots]
      by_cases hfits : eval.length + e.slots ≤ MAXDEPTH
      · rw [if_pos hfits]
        change runNodes nrow [.ynot] (e.value nrow :: eval) = _
        rw [runNodes_singleton, trsroweval]
        simp only [List.length_cons]
        by_cases hfull : eval.length + 1 = MAXDEPTH
        · rw [if_pos hfull, if_neg (by omega)]
        · rw [if_neg hfull, if_pos (by omega)]
          rfl
      · rw [if_neg hfits, if_neg (by omega)]
        rfl

theorem trsoptimize_nodes (e : RowExpr) (nrow : Int) :
    trsoptimize e.nodes nrow =
      if e.slots ≤ MAXDEPTH then .ok (e.value nrow) else .error .ovflow := by
  have hrun := @runNodes_nodes [] e nrow (Nat.zero_le _)
  rw [List.length_nil, Nat.zero_add] at hrun
  unfold runNodes at hrun
  rw [trsoptimize, hrun]
  split
  · rfl
  · rfl

theorem evaluates_iff_value (e : RowExpr) (nrow : Int) :
    Evaluates e nrow ↔
      e.slots ≤ MAXDEPTH ∧ (e.value nrow).rows = Set.Icc 1 nrow ∩ e.rows := by
  rw [Evaluates, trsoptimize_nodes]
  by_cases hfits : e.slots ≤ MAXDEPTH
  · simp [hfits]
  · simp [hfits]

/-! ## The leaves -/

theorem rstCreate_eq (lo hi : Int) :
    rstCreate lo hi =
      if min lo hi = 0 then ⟨[], 1, 0⟩
      else ⟨[⟨min lo hi, max lo hi, max lo hi - min lo hi + 1⟩], 1, 0⟩ := by
  have hmin : (if lo > hi then hi else lo) = min lo hi := by
    split <;> omega
  have hmax : (if lo > hi then lo else hi) = max lo hi := by
    split <;> omega
  simp only [rstCreate, hmin, hmax]

theorem rows_rstCreate (lo hi : Int) :
    (rstCreate lo hi).rows = if min lo hi = 0 then ∅ else Set.Icc (min lo hi) (max lo hi) := by
  rw [rstCreate_eq]
  split
  · simp [Rst.rows, Rst.ends]
  · simp [Rst.rows, Rst.ends, RowRange.ends]

theorem rows_leaf_iff (hnrow : 1 ≤ nrow) (hleaf : e.IsLeaf) :
    (e.value nrow).rows = Set.Icc 1 nrow ∩ e.rows ↔ e.Inside nrow := by
  cases e with
  | single a =>
      have hrows : ((RowExpr.single a).value nrow).rows = {max 1 a} := by
        rw [RowExpr.value, rows_rstCreate, if_neg (by omega), min_self, max_self, Set.Icc_self]
      rw [hrows, Set.ext_iff]
      simp only [RowExpr.rows, RowExpr.Inside, Set.mem_singleton_iff, Set.mem_inter_iff, Set.mem_Icc]
      constructor
      · intro h
        have := (h (max 1 a)).mp rfl
        omega
      · intro h v
        omega
  | upTo b =>
      have hrows : ((RowExpr.upTo b).value nrow).rows = Set.Icc 1 (max 1 b) := by
        rw [RowExpr.value, rows_rstCreate, if_neg (by omega), min_eq_left (by omega),
          max_eq_right (by omega)]
      rw [hrows, Set.ext_iff]
      simp only [RowExpr.rows, RowExpr.Inside, Set.mem_Iic, Set.mem_inter_iff, Set.mem_Icc]
      constructor
      · intro h
        have := (h (max 1 b)).mp (by omega)
        omega
      · intro h v
        omega
  | between a b =>
      rw [RowExpr.value, rows_rstCreate, Set.ext_iff]
      simp only [RowExpr.rows, RowExpr.Inside, Set.mem_inter_iff, Set.mem_Icc]
      have horder : min a b ≤ max a b := min_le_max
      generalize min a b = m at *
      generalize max a b = M at *
      constructor
      · intro h
        by_contra hnot
        -- the limits are swapped, and the smaller one is taken
        have hmem := h (min (max 1 m) (min nrow M))
        rw [if_neg (by omega), Set.mem_Icc] at hmem
        have := hmem.mp (by omega)
        omega
      · intro h v
        rcases h with h | h
        · rw [if_neg (by omega), Set.mem_Icc]
          omega
        · rw [if_pos (by omega)]
          simp only [Set.mem_empty_iff_false, false_iff]
          omega
  | since a =>
      rw [RowExpr.value, rows_rstCreate, Set.ext_iff]
      simp only [RowExpr.rows, RowExpr.Inside, Set.mem_Ici, Set.mem_inter_iff, Set.mem_Icc]
      constructor
      · intro h
        by_contra hnot
        rcases eq_or_ne a 0 with rfl | hzero
        · have hmem := h nrow
          rw [if_pos (by omega)] at hmem
          exact hmem.mpr (by omega)
        · have hmem := h (min a nrow)
          rw [if_neg (by omega), Set.mem_Icc] at hmem
          have := hmem.mp (by omega)
          omega
      · intro h v
        rw [if_neg (by omega), Set.mem_Icc]
        omega
  | either e f => exact hleaf.elim
  | except e => exact hleaf.elim

theorem wellFormed_rstCreate {lo hi : Int} (hpos : 1 ≤ min lo hi ∨ min lo hi = 0) :
    (rstCreate lo hi).WellFormed := by
  rcases hpos with hpos | hzero
  · have hsorted : rstCreate lo hi = rstCreate (min lo hi) (max lo hi) := by
      rw [rstCreate_eq, rstCreate_eq, min_eq_left min_le_max, max_eq_right min_le_max]
    rw [hsorted]
    exact (Rst.rstCreate_spec hpos min_le_max).1
  · rw [rstCreate_eq, if_pos hzero]
    exact Rst.wellFormed_empty

theorem wellFormed_leaf (hnrow : 1 ≤ nrow) (hleaf : e.IsLeaf) (hinside : e.Inside nrow) :
    (e.value nrow).WellFormed := by
  cases e with
  | single a => exact wellFormed_rstCreate (by omega)
  | upTo b => exact wellFormed_rstCreate (by omega)
  | between a b =>
      simp only [RowExpr.Inside] at hinside
      exact wellFormed_rstCreate (by omega)
  | since a =>
      simp only [RowExpr.Inside] at hinside
      exact wellFormed_rstCreate (by omega)
  | either e f => exact hleaf.elim
  | except e => exact hleaf.elim

/-! ## Expressions with their end points inside -/

theorem value_spec (hnrow : 1 ≤ nrow) (hinside : e.Inside nrow) :
    (e.value nrow).WellFormed ∧ (e.value nrow).rows = Set.Icc 1 nrow ∩ e.rows := by
  have hleaf : ∀ {e : RowExpr}, e.IsLeaf → e.Inside nrow →
      (e.value nrow).WellFormed ∧ (e.value nrow).rows = Set.Icc 1 nrow ∩ e.rows :=
    fun hleaf hinside =>
      ⟨wellFormed_leaf hnrow hleaf hinside, (rows_leaf_iff hnrow hleaf).mpr hinside⟩
  induction e with
  | single a => exact hleaf trivial hinside
  | upTo b => exact hleaf trivial hinside
  | between a b => exact hleaf trivial hinside
  | since a => exact hleaf trivial hinside
  | either e f ihe ihf =>
      obtain ⟨hwfe, hrowse⟩ := ihe hinside.1
      obtain ⟨hwff, hrowsf⟩ := ihf hinside.2
      have hunion := hwff.rstOr hwfe
      refine ⟨hunion.wellFormed, ?_⟩
      rw [RowExpr.value, hunion.rows, hrowse, hrowsf, ← Set.inter_union_distrib_left,
        Set.union_comm]
      rfl
  | except e ih =>
      obtain ⟨hwf, hrows⟩ := ih hinside
      have hnot : ComplementExact nrow (e.value nrow) := hwf.rstNot fun v hv => by
        rw [hrows] at hv
        exact hv.1.2
      refine ⟨hnot.wellFormed, ?_⟩
      rw [RowExpr.value, hnot.rows, hrows, Set.sdiff_self_inter]
      rfl

/-- An expression whose end points are inside is evaluated, if the stack holds it, and none is
that the stack does not hold; a single leaf is evaluated just if its end points are inside. -/
theorem row_expression (nrow : Int) (hnrow : 1 ≤ nrow) :
    (∀ e : RowExpr, e.slots ≤ MAXDEPTH → e.Inside nrow → Evaluates e nrow) ∧
      (∀ e : RowExpr, Evaluates e nrow → e.slots ≤ MAXDEPTH) ∧
      ∀ e : RowExpr, e.IsLeaf → (Evaluates e nrow ↔ e.Inside nrow) := by
  refine ⟨fun e hfits hinside => ?_, fun e heval => ?_, fun e hleaf => ?_⟩
  · rw [evaluates_iff_value]
    exact ⟨hfits, (value_spec hnrow hinside).2⟩
  · rw [evaluates_iff_value] at heval
    exact heval.1
  · have hslots : e.slots ≤ MAXDEPTH := by
      cases e with
      | either e f => exact hleaf.elim
      | except e => exact hleaf.elim
      | _ => exact Nat.le_of_ble_eq_true rfl
    rw [evaluates_iff_value, rows_leaf_iff hnrow hleaf]
    exact and_iff_right hslots

theorem row_expression_ten : Evaluates (.except (.either (.upTo 3) (.between 12 8))) 10 :=
  (row_expression 10 (by decide)).1 _ (by decide)
    ⟨⟨by decide, by decide⟩, .inl ⟨by decide, by decide⟩⟩

/-- In a table of 10 rows the row 12 is selected. -/
theorem not_evaluates_past : ¬ Evaluates (.single 12) 10 := by
  rintro ⟨set, hset, hrows⟩
  obtain rfl : rstCreate 12 12 = set := Except.ok.inj hset
  have hmem : (12 : Int) ∈ (rstCreate 12 12).rows := by
    rw [rows_rstCreate]
    simp
  rw [hrows] at hmem
  exact absurd hmem.1.2 (by decide)

end Iraf.Selector
