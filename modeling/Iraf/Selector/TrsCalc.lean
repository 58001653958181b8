import Iraf.Selector.TrsGencode

/-!
# The meaning of pseudocode

`trscalc` leaves the value of each operand on its stack and jumps from a left
operand that decides a logical to the logical itself, which then keeps its stack.
The code of a tree computes the value of the tree, if no left branch of an
encoded logical was left out of the code.
-/

namespace Iraf.Selector.Trs

open StepMachine

/-! ## The value of a tree -/

/-- Is the value of the column accepted? -/
def Test.holds (tp : Table) (irow : Int) (col : Nat) (t : Test) : Bool :=
  let val := trsgetd tp col irow
  let str := trstrim (trsgett tp col irow)
  match t with
  | eqn a => decide (val = a)
  | eqs s => decide (str = s)
  | len b => decide (val ≤ b)
  | les s => strle str s
  | inn a b => decide (min a b ≤ val ∧ val ≤ max a b)
  | ins s t => if strgt t s then strge str s && strle str t else strge str t && strle str s
  | gen a => decide (a ≤ val)
  | ges s => strge str s
  | msk a => decide (Int.land (int val) (int a) = int a)

def RangeList.holds (tp : Table) (irow : Int) (col : Nat) : RangeList → Bool
  | test t => t.holds tp irow col
  | yor left right => left.holds tp irow col || right.holds tp irow col
  | ynot arg => !arg.holds tp irow col

/-- An operand that is left out holds. -/
def Filter.holds (tp : Table) (irow : Int) : Filter → Bool
  | null => true
  | yrange list cptr => list.holds tp irow cptr
  | yand left right => left.holds tp irow && right.holds tp irow
  | ynot arg => !arg.holds tp irow

/-- The elements of the stack that are used; a right operand that is jumped over needs none. -/
def RangeList.depth (tp : Table) (irow : Int) (col : Nat) : RangeList → Nat
  | test _ => 1
  | yor left right =>
      if left.holds tp irow col then left.depth tp irow col
      else max (left.depth tp irow col) (1 + right.depth tp irow col)
  | ynot arg => arg.depth tp irow col

def Filter.depth (tp : Table) (irow : Int) : Filter → Nat
  | null => 0
  | yrange list cptr => list.depth tp irow cptr
  | yand left right =>
      if left = null then right.depth tp irow
      else if right = null then left.depth tp irow
      else if left.holds tp irow then max (left.depth tp irow) (1 + right.depth tp irow)
      else left.depth tp irow
  | ynot arg => arg.depth tp irow

variable {tp : Table} {irow : Int} {codebuf : List Instr} {icode last lastl lastr : Nat}
  {inst top ltop rtop : Instr} {value vl vr : Bool} {depth dl dr : Nat}

theorem RangeList.depth_pos (tp : Table) (irow : Int) (col : Nat) (list : RangeList) :
    1 ≤ list.depth tp irow col := by
  induction list with
  | test t => exact Nat.le_refl 1
  | yor left right ihl ihr =>
      simp only [depth]
      split
      · exact ihl
      · omega
  | ynot arg ih => exact ih

/-! ## Single steps -/

/-- The instruction at a place of the code buffer. -/
def InstrAt (codebuf : List Instr) (icode : Nat) (inst : Instr) : Prop :=
  codebuf[icode / SZ_INSTR]? = some inst

@[simp] theorem jumpOn_stack (inst : Instr) (icode : Nat) (result : Bool) (stack : List Bool) :
    (inst.jumpOn icode result stack).stack = stack := by
  unfold Instr.jumpOn
  split
  · rfl
  · split <;> rfl

/-- An instruction without jumps is followed by the next one. -/
def Instr.Plain (inst : Instr) : Prop := inst.tjump = 0 ∧ inst.fjump = 0

theorem Instr.Plain.jumpOn (h : inst.Plain) (icode : Nat) (result : Bool) (stack : List Bool) :
    inst.jumpOn icode result stack = ⟨stack, icode + SZ_INSTR, false⟩ := by
  simp [Instr.jumpOn, h.1, h.2]

theorem step_full {st : Calc} (hfull : st.stack.length = MAXSTACK) :
    trscalcStep tp irow codebuf st = .error .ovflow := by
  simp [trscalcStep, hfull]

theorem step_exec {st : Calc} {stack : List Bool} (hroom : st.stack.length < MAXSTACK)
    (hat : InstrAt codebuf st.icode inst) (hcode : inst.code ≠ .ydone)
    (hexec : inst.exec tp irow st.jump st.stack = .ok (value :: stack)) :
    trscalcStep tp irow codebuf st =
      .ok (.inl (inst.jumpOn st.icode value (value :: stack))) := by
  have hnotfull : st.stack.length ≠ MAXSTACK := by omega
  unfold InstrAt at hat
  simp [trscalcStep, hnotfull, hat, hcode, hexec, Instr.next, bind, Except.bind, pure, Except.pure]

theorem exec_test {jump : Bool} (stack : List Bool) (htest : inst.test tp irow = some value) :
    inst.exec tp irow jump stack = .ok (value :: stack) := by
  unfold Instr.exec
  cases hcode : inst.code <;> simp_all [Instr.test]

theorem exec_jump (hcode : inst.code = .yand ∨ inst.code = .yor) (stack : List Bool) :
    inst.exec tp irow true stack = .ok stack := by
  unfold Instr.exec
  rcases hcode with hcode | hcode <;> rw [hcode] <;> rcases stack with _ | ⟨b, _ | ⟨a, stack⟩⟩ <;> rfl

theorem code_ne_ydone_of_test (htest : inst.test tp irow = some value) : inst.code ≠ .ydone := by
  intro hcode
  simp [Instr.test, hcode] at htest

/-! ## Rules for pieces of code -/

/-- The code from `icode` to `last` leaves its value on the stack and goes on as its last
instruction says, or it fills the stack. -/
def Computes (tp : Table) (irow : Int) (codebuf : List Instr) (icode last : Nat) (top : Instr)
    (value : Bool) (depth : Nat) : Prop :=
  ∀ stack : List Bool, stack.length < MAXSTACK →
    (stack.length + depth < MAXSTACK →
      Reaches (trscalcStep tp irow codebuf) ⟨stack, icode, false⟩
        (top.jumpOn last value (value :: stack))) ∧
    (MAXSTACK ≤ stack.length + depth →
      Ends (trscalcStep tp irow codebuf) ⟨stack, icode, false⟩ (.error .ovflow))

theorem computes_test (hat : InstrAt codebuf icode inst)
    (htest : inst.test tp irow = some value) :
    Computes tp irow codebuf icode icode inst value 1 := by
  intro stack hroom
  have hstep : trscalcStep tp irow codebuf ⟨stack, icode, false⟩ =
      .ok (.inl (inst.jumpOn icode value (value :: stack))) :=
    step_exec hroom hat (code_ne_ydone_of_test htest) (exec_test stack htest)
  constructor
  · intro _
    exact Reaches.one hstep
  · intro hfull
    rw [ends_next hstep]
    apply ends_fault
    apply step_full
    simp only [jumpOn_stack, List.length_cons]
    omega

theorem computes_unary (harg : Computes tp irow codebuf icode last ltop vl depth)
    (hplain : ltop.Plain) (hdepth : 1 ≤ depth) (hat : InstrAt codebuf (last + SZ_INSTR) top)
    (hcode : top.code ≠ .ydone)
    (hexec : ∀ stack, top.exec tp irow false (vl :: stack) = .ok (value :: stack)) :
    Computes tp irow codebuf icode (last + SZ_INSTR) top value depth := by
  intro stack hroom
  obtain ⟨hfits, hfull⟩ := harg stack hroom
  refine ⟨fun hdeep => ?_, hfull⟩
  have hoperand := hfits hdeep
  rw [hplain.jumpOn] at hoperand
  have hroom' : (vl :: stack).length < MAXSTACK := by
    simp only [List.length_cons]
    omega
  exact hoperand.trans (Reaches.one (step_exec hroom' hat hcode (hexec stack)))

/-- A left operand with the value `short` decides the logical, and jumps to it. -/
theorem computes_binary {short : Bool}
    (hleft : Computes tp irow codebuf icode lastl ltop vl dl)
    (hright : Computes tp irow codebuf (lastl + SZ_INSTR) lastr rtop vr dr)
    (hjump : ∀ stack, ltop.jumpOn lastl vl stack =
      if vl = short then ⟨stack, lastr + SZ_INSTR, true⟩ else ⟨stack, lastl + SZ_INSTR, false⟩)
    (hplain : rtop.Plain) (hdl : 1 ≤ dl) (hdr : 1 ≤ dr)
    (hat : InstrAt codebuf (lastr + SZ_INSTR) top) (hcode : top.code ≠ .ydone)
    (hkeep : ∀ stack, top.exec tp irow true (vl :: stack) = .ok (vl :: stack))
    (hexec : ∀ stack, top.exec tp irow false (vr :: vl :: stack) = .ok (value :: stack)) :
    Computes tp irow codebuf icode (lastr + SZ_INSTR) top (if vl = short then vl else value)
      (if vl = short then dl else max dl (1 + dr)) := by
  intro stack hroom
  obtain ⟨hfits, hfull⟩ := hleft stack hroom
  simp only [hjump] at hfits
  have hlength : (vl :: stack).length = stack.length + 1 := List.length_cons
  by_cases hshort : vl = short
  · simp only [if_pos hshort] at hfits ⊢
    refine ⟨fun hdeep => ?_, hfull⟩
    have hroom' : (vl :: stack).length < MAXSTACK := by omega
    exact (hfits hdeep).trans (Reaches.one (step_exec hroom' hat hcode (hkeep stack)))
  · simp only [if_neg hshort] at hfits ⊢
    constructor
    · intro hdeep
      have hroom' : (vl :: stack).length < MAXSTACK := by omega
      have hoperand := (hright (vl :: stack) hroom').1 (by omega)
      rw [hplain.jumpOn] at hoperand
      have hroom'' : (vr :: vl :: stack).length < MAXSTACK := by
        simp only [List.length_cons]
        omega
      exact ((hfits (by omega)).trans hoperand).trans
        (Reaches.one (step_exec hroom'' hat hcode (hexec stack)))
    · intro hdeep
      by_cases hdeepl : stack.length + dl < MAXSTACK
      · have hroom' : (vl :: stack).length < MAXSTACK := by omega
        exact ((hfits hdeepl).ends_iff).mpr ((hright (vl :: stack) hroom').2 (by omega))
      · exact hfull (by omega)

/-! ## The jumps -/

def Instr.jumps (inst : Instr) (tjump fjump : Nat) : Instr :=
  { inst with tjump := tjump, fjump := fjump }

@[simp] theorem code_jumps (inst : Instr) (tjump fjump : Nat) :
    (inst.jumps tjump fjump).code = inst.code := rfl

def RangeList.size : RangeList → Nat
  | test _ => 1
  | yor left right => left.size + right.size + 1
  | ynot arg => arg.size + 1

@[simp] theorem RangeList.length_putcode (list : RangeList) (col : Nat) :
    (list.putcode col).length = list.size := by
  induction list with
  | test t => rfl
  | yor left right ihl ihr => simp only [putcode, size, List.length_append, ihl, ihr, List.length_singleton]
  | ynot arg ih => simp [putcode, size, ih]

theorem RangeList.size_pos (list : RangeList) : 1 ≤ list.size := by
  cases list <;> simp [size]

/-- The instruction of the root, without its jumps. -/
def RangeList.root (col : Nat) : RangeList → Instr
  | test t => t.instr col
  | yor _ _ => logical .yor
  | ynot _ => logical .ynot

/-- The code with its jumps, placed at `icode`; the jumps of the root are those of the logical
above it. -/
def RangeList.link (col : Nat) : Nat → Nat → Nat → RangeList → List Instr
  | _, tjump, fjump, test t => [(t.instr col).jumps tjump fjump]
  | icode, tjump, fjump, yor left right =>
      left.link col icode ((yor left right).inst icode) 0 ++
        right.link col (icode + SZ_INSTR * left.size) 0 0 ++ [(logical .yor).jumps tjump fjump]
  | icode, tjump, fjump, ynot arg =>
      arg.link col icode 0 0 ++ [(logical .ynot).jumps tjump fjump]

theorem RangeList.link_root (list : RangeList) (col icode : Nat) :
    ∃ body : List Instr, body.length + 1 = list.size ∧ ∀ tjump fjump,
      list.link col icode tjump fjump = body ++ [(list.root col).jumps tjump fjump] := by
  induction list generalizing icode with
  | test t => exact ⟨[], rfl, fun _ _ => rfl⟩
  | yor left right ihl ihr =>
      obtain ⟨bodyl, hl, hlink⟩ := ihl icode
      obtain ⟨bodyr, hr, hlink'⟩ := ihr (icode + SZ_INSTR * left.size)
      refine ⟨_, ?_, fun tjump fjump => rfl⟩
      simp only [hlink, hlink', List.length_append, List.length_singleton, size]
      omega
  | ynot arg ih =>
      obtain ⟨body, hbody, hlink⟩ := ih icode
      refine ⟨_, ?_, fun tjump fjump => rfl⟩
      simp only [hlink, List.length_append, List.length_singleton, size]
      omega

theorem RangeList.length_link (list : RangeList) (col icode tjump fjump : Nat) :
    (list.link col icode tjump fjump).length = list.size := by
  obtain ⟨body, hbody, hlink⟩ := list.link_root col icode
  rw [hlink, List.length_append, List.length_singleton, hbody]

theorem modify_middle (pre post : List Instr) (f : Instr → Instr) (inst : Instr) :
    (pre ++ inst :: post).modify pre.length f = pre ++ f inst :: post := by
  induction pre with
  | nil => rfl
  | cons i pre ih => simp [List.modify_succ_cons, ih]

theorem poke_middle (pre post : List Instr) (inst : Instr) (cell : Nat) (hcell : cell < SZ_INSTR)
    (jump : Nat) :
    poke (pre ++ inst :: post) ((SZ_INSTR * pre.length : Nat) + (cell : Int)) jump =
      pre ++ inst.put cell jump :: post := by
  simp only [SZ_INSTR] at hcell
  have hplace : (((SZ_INSTR * pre.length : Nat) + (cell : Int)) / (SZ_INSTR : Int)).toNat =
      pre.length := by
    simp only [SZ_INSTR]
    omega
  have hfield : (((SZ_INSTR * pre.length : Nat) + (cell : Int)) % (SZ_INSTR : Int)).toNat =
      cell := by
    simp only [SZ_INSTR]
    omega
  rw [poke, hplace, hfield, modify_middle]

theorem poke_root (body pre post : List Instr) (inst : Instr) {cell jump tjump fjump : Nat}
    (hcell : cell < SZ_INSTR)
    (hput : (inst.jumps 0 0).put cell jump = inst.jumps tjump fjump) :
    poke (pre ++ (body ++ [inst.jumps 0 0]) ++ post)
        ((SZ_INSTR * (pre.length + body.length) : Nat) + (cell : Int)) jump =
      pre ++ (body ++ [inst.jumps tjump fjump]) ++ post := by
  have hpoke := poke_middle (pre ++ body) post (inst.jumps 0 0) cell hcell jump
  rw [List.length_append, hput] at hpoke
  simpa using hpoke

theorem put_tjump (inst : Instr) (jump : Nat) :
    (inst.jumps 0 0).put OTJUMP jump = inst.jumps jump 0 := rfl

theorem put_fjump (inst : Instr) (jump : Nat) :
    (inst.jumps 0 0).put OFJUMP jump = inst.jumps 0 jump := rfl

theorem RangeList.inst_eq {list : RangeList} {body : List Instr} (h : body.length + 1 = list.size)
    (pre : List Instr) :
    list.inst (SZ_INSTR * pre.length) = SZ_INSTR * (pre.length + body.length) := by
  simp only [inst, length_putcode, SZ_INSTR]
  omega

theorem RangeList.putjump_eq (list : RangeList) (col : Nat) (pre post : List Instr) :
    list.putjump (SZ_INSTR * pre.length) (pre ++ list.putcode col ++ post) =
      pre ++ list.link col (SZ_INSTR * pre.length) 0 0 ++ post := by
  induction list generalizing pre post with
  | test t => rfl
  | yor left right ihl ihr =>
      have hl := ihl pre (right.putcode col ++ [logical .yor] ++ post)
      have hr := ihr (pre ++ left.link col (SZ_INSTR * pre.length) 0 0) ([logical .yor] ++ post)
      obtain ⟨body, hbody, hlink⟩ := left.link_root col (SZ_INSTR * pre.length)
      have hnext : SZ_INSTR * (pre ++ left.link col (SZ_INSTR * pre.length) 0 0).length =
          SZ_INSTR * pre.length + SZ_INSTR * left.size := by
        rw [List.length_append, length_link, Nat.mul_add]
      rw [hnext] at hr
      have hassoc : pre ++ (yor left right).putcode col ++ post =
          pre ++ left.putcode col ++ (right.putcode col ++ [logical .yor] ++ post) := by
        simp [putcode]
      have hassoc' : pre ++ left.link col (SZ_INSTR * pre.length) 0 0 ++
            (right.putcode col ++ [logical .yor] ++ post) =
          pre ++ left.link col (SZ_INSTR * pre.length) 0 0 ++ right.putcode col ++
            ([logical .yor] ++ post) := by
        simp
      simp only [putjump, length_putcode]
      rw [hassoc, hl, hassoc', hr, inst_eq hbody, List.append_assoc, hlink, Nat.cast_mul]
      have hpoke := poke_root body pre
        (right.link col (SZ_INSTR * pre.length + SZ_INSTR * left.size) 0 0 ++
          ([logical .yor] ++ post)) (left.root col) (by decide)
        (put_tjump _ ((yor left right).inst (SZ_INSTR * pre.length)))
      rw [Nat.cast_mul] at hpoke
      rw [hpoke, link, hlink]
      simp [Instr.jumps, logical]
  | ynot arg ih =>
      have harg := ih pre ([logical .ynot] ++ post)
      have hassoc : pre ++ (ynot arg).putcode col ++ post =
          pre ++ arg.putcode col ++ ([logical .ynot] ++ post) := by
        simp [putcode]
      rw [putjump, hassoc, harg, link]
      simp [Instr.jumps, logical]

/-! ## Lists of ranges -/

theorem jumpOn_tjump (inst : Instr) {tjump : Nat} (hjump : tjump ≠ 0) (icode : Nat)
    (result : Bool) (stack : List Bool) :
    (inst.jumps tjump 0).jumpOn icode result stack =
      if result = true then ⟨stack, tjump, true⟩ else ⟨stack, icode + SZ_INSTR, false⟩ := by
  simp [Instr.jumpOn, Instr.jumps, hjump]

theorem jumpOn_fjump (inst : Instr) {fjump : Nat} (hjump : fjump ≠ 0) (icode : Nat)
    (result : Bool) (stack : List Bool) :
    (inst.jumps 0 fjump).jumpOn icode result stack =
      if result = false then ⟨stack, fjump, true⟩ else ⟨stack, icode + SZ_INSTR, false⟩ := by
  simp [Instr.jumpOn, Instr.jumps, hjump]

theorem instrAt_middle (pre post : List Instr) (h : codebuf = pre ++ inst :: post)
    (hicode : icode = SZ_INSTR * pre.length) : InstrAt codebuf icode inst := by
  have hplace : icode / SZ_INSTR = pre.length := by
    simp only [SZ_INSTR] at hicode ⊢
    omega
  simp [InstrAt, hplace, h]

theorem plain_jumps (inst : Instr) : (inst.jumps 0 0).Plain := ⟨rfl, rfl⟩

theorem Test.test_instr (t : Test) (tp : Table) (irow : Int) (col tjump fjump : Nat) :
    ((t.instr col).jumps tjump fjump).test tp irow = some (t.holds tp irow col) := by
  cases t with
  | inn a b =>
      by_cases hab : b > a
      · simp [Instr.test, Instr.jumps, instr, oper, holds, trsvalue, Value.d, hab,
          min_eq_left hab.le, max_eq_right hab.le]
      · have hba : b ≤ a := not_lt.mp hab
        simp [Instr.test, Instr.jumps, instr, oper, holds, trsvalue, Value.d, hab,
          min_eq_right hba, max_eq_left hba]
  | ins s t =>
      by_cases hst : strgt t s = true
      · simp [Instr.test, Instr.jumps, instr, oper, holds, trsvalue, Value.c, hst]
      · simp [Instr.test, Instr.jumps, instr, oper, holds, trsvalue, Value.c, hst]
  | _ => rfl

/-- The last instruction of a piece of code. -/
def lastOf (icode size : Nat) : Nat := icode + SZ_INSTR * (size - 1)

theorem RangeList.computes (list : RangeList) (tp : Table) (irow : Int) (col tjump fjump : Nat)
    (pre post : List Instr)
    (hcode : codebuf = pre ++ list.link col (SZ_INSTR * pre.length) tjump fjump ++ post) :
    Computes tp irow codebuf (SZ_INSTR * pre.length) (lastOf (SZ_INSTR * pre.length) list.size)
      ((list.root col).jumps tjump fjump) (list.holds tp irow col) (list.depth tp irow col) := by
  induction list generalizing pre post tjump fjump with
  | test t =>
      have hat : InstrAt codebuf (SZ_INSTR * pre.length) ((t.instr col).jumps tjump fjump) :=
        instrAt_middle pre post (by simpa [link] using hcode) rfl
      exact computes_test hat (t.test_instr tp irow col tjump fjump)
  | yor left right ihl ihr =>
      have hl := left.size_pos
      have hr := right.size_pos
      have hleft := ihl ((yor left right).inst (SZ_INSTR * pre.length)) 0 pre
        (right.link col (SZ_INSTR * pre.length + SZ_INSTR * left.size) 0 0 ++
          [(logical .yor).jumps tjump fjump] ++ post) (by simpa [link] using hcode)
      have hright := ihr 0 0
        (pre ++ left.link col (SZ_INSTR * pre.length)
          ((yor left right).inst (SZ_INSTR * pre.length)) 0)
        ([(logical .yor).jumps tjump fjump] ++ post)
        (by simpa [link, length_link, Nat.mul_add] using hcode)
      have hat : InstrAt codebuf (lastOf (SZ_INSTR * pre.length) (yor left right).size)
          ((logical .yor).jumps tjump fjump) := by
        refine instrAt_middle (pre ++ left.link col (SZ_INSTR * pre.length)
          ((yor left right).inst (SZ_INSTR * pre.length)) 0 ++
          right.link col (SZ_INSTR * pre.length + SZ_INSTR * left.size) 0 0) post
          (by simpa [link] using hcode) ?_
        simp only [List.length_append, length_link, lastOf, size, SZ_INSTR]
        omega
      have hinst : (yor left right).inst (SZ_INSTR * pre.length) =
          lastOf (SZ_INSTR * pre.length) (yor left right).size := by
        simp only [inst, length_putcode, lastOf]
      have hlastl : SZ_INSTR * (pre ++ left.link col (SZ_INSTR * pre.length)
            ((yor left right).inst (SZ_INSTR * pre.length)) 0).length =
          lastOf (SZ_INSTR * pre.length) left.size + SZ_INSTR := by
        simp only [List.length_append, length_link, lastOf, SZ_INSTR]
        omega
      have hlastr : lastOf (SZ_INSTR * pre.length) (yor left right).size =
          lastOf (lastOf (SZ_INSTR * pre.length) left.size + SZ_INSTR) right.size + SZ_INSTR := by
        simp only [lastOf, size, SZ_INSTR]
        omega
      have hnotnull : (yor left right).inst (SZ_INSTR * pre.length) ≠ 0 := by
        rw [hinst, hlastr]
        exact Nat.succ_ne_zero _
      rw [hlastl] at hright
      have hjump := jumpOn_tjump (left.root col) hnotnull
        (lastOf (SZ_INSTR * pre.length) left.size) (left.holds tp irow col)
      rw [hinst, hlastr] at hleft hjump
      rw [hlastr] at hat ⊢
      have hvalue : (yor left right).holds tp irow col =
          if left.holds tp irow col = true then left.holds tp irow col
          else (left.holds tp irow col || right.holds tp irow col) := by
        cases hl : left.holds tp irow col <;> simp [holds, hl]
      rw [hvalue]
      exact computes_binary hleft hright hjump (plain_jumps _) (left.depth_pos tp irow col)
        (right.depth_pos tp irow col) hat (fun h => by cases h) (fun stack => exec_jump (.inr rfl) _) fun _ => rfl
  | ynot arg ih =>
      have harg := ih 0 0 pre ([(logical .ynot).jumps tjump fjump] ++ post)
        (by simpa [link] using hcode)
      have hpos := arg.size_pos
      have hlast : lastOf (SZ_INSTR * pre.length) (ynot arg).size =
          lastOf (SZ_INSTR * pre.length) arg.size + SZ_INSTR := by
        simp only [lastOf, size, SZ_INSTR]
        omega
      have hat : InstrAt codebuf (lastOf (SZ_INSTR * pre.length) arg.size + SZ_INSTR)
          ((logical .ynot).jumps tjump fjump) := by
        refine instrAt_middle (pre ++ arg.link col (SZ_INSTR * pre.length) 0 0)
          post (by simpa [link] using hcode) ?_
        simp only [List.length_append, length_link, lastOf, SZ_INSTR]
        omega
      rw [hlast]
      exact computes_unary harg (plain_jumps _) (arg.depth_pos tp irow col) hat
        (fun h => by cases h) fun _ => rfl

/-! ## Filters -/

def Filter.size : Filter → Nat
  | null => 0
  | yrange list _ => list.size + 1
  | yand left right =>
      if left = null ∨ right = null then left.size + right.size else left.size + right.size + 1
  | ynot arg => arg.size + 1

@[simp] theorem Filter.length_putcode (root : Filter) : root.putcode.length = root.size := by
  induction root with
  | null => rfl
  | yrange list cptr => simp [putcode, size]
  | yand left right ihl ihr =>
      simp only [putcode, size]
      split
      · rw [List.length_append, ihl, ihr]
      · rw [List.length_append, List.length_append, ihl, ihr, List.length_singleton]
  | ynot arg ih => simp [putcode, size, ih]

/-- The node has an instruction of its own. -/
def Filter.Encoded : Filter → Prop
  | null => False
  | yand left right => left ≠ null ∧ right ≠ null
  | _ => True

/-- No logical has lost the instruction of its left branch, and none the code of an operand. -/
def Filter.Linked : Filter → Prop
  | null => True
  | yrange _ _ => True
  | yand left right => left.Linked ∧ right.Linked ∧
      (left = null ∨ right = null ∨ left.Encoded ∧ right.size ≠ 0)
  | ynot arg => arg.Linked ∧ arg.size ≠ 0

instance : DecidablePred Filter.Encoded
  | .null => inferInstanceAs (Decidable False)
  | .yrange _ _ => inferInstanceAs (Decidable True)
  | .yand left right => inferInstanceAs (Decidable (left ≠ .null ∧ right ≠ .null))
  | .ynot _ => inferInstanceAs (Decidable True)

def Filter.decideLinked : (root : Filter) → Decidable root.Linked
  | .null => inferInstanceAs (Decidable True)
  | .yrange _ _ => inferInstanceAs (Decidable True)
  | .yand left right =>
      have := left.decideLinked
      have := right.decideLinked
      inferInstanceAs (Decidable (left.Linked ∧ right.Linked ∧
        (left = .null ∨ right = .null ∨ left.Encoded ∧ right.size ≠ 0)))
  | .ynot arg =>
      have := arg.decideLinked
      inferInstanceAs (Decidable (arg.Linked ∧ arg.size ≠ 0))

instance : DecidablePred Filter.Linked := Filter.decideLinked

/-- The instruction of an encoded root, without its jumps. -/
def Filter.root : Filter → Instr
  | null => logical .ydone
  | yrange _ _ => logical .yrange
  | yand _ _ => logical .yand
  | ynot _ => logical .ynot

/-- A logical that is not encoded hands no jump on to its operand. -/
def Filter.link : Nat → Nat → Nat → Filter → List Instr
  | _, _, _, null => []
  | icode, tjump, fjump, yrange list cptr =>
      list.link cptr icode 0 0 ++ [(logical .yrange).jumps tjump fjump]
  | icode, tjump, fjump, yand left right =>
      if left = null ∨ right = null then
        left.link icode 0 0 ++ right.link (icode + SZ_INSTR * left.size) 0 0
      else left.link icode 0 (lastOf icode (yand left right).size) ++
        right.link (icode + SZ_INSTR * left.size) 0 0 ++ [(logical .yand).jumps tjump fjump]
  | icode, tjump, fjump, ynot arg =>
      arg.link icode 0 0 ++ [(logical .ynot).jumps tjump fjump]

theorem Filter.length_link (root : Filter) (icode tjump fjump : Nat) :
    (root.link icode tjump fjump).length = root.size := by
  induction root generalizing icode tjump fjump with
  | null => rfl
  | yrange list cptr => simp [link, size, RangeList.length_link]
  | yand left right ihl ihr =>
      simp only [link, size]
      split
      · rw [List.length_append, ihl, ihr]
      · rw [List.length_append, List.length_append, ihl, ihr, List.length_singleton]
  | ynot arg ih => simp [link, size, ih]

theorem Filter.link_root {root : Filter} (hroot : root.Encoded) (icode : Nat) :
    ∃ body : List Instr, body.length + 1 = root.size ∧ ∀ tjump fjump,
      root.link icode tjump fjump = body ++ [root.root.jumps tjump fjump] := by
  cases root with
  | null => exact hroot.elim
  | yrange list cptr =>
      exact ⟨list.link cptr icode 0 0, by simp [size, RangeList.length_link], fun _ _ => rfl⟩
  | yand left right =>
      have hboth : ¬ (left = null ∨ right = null) := by
        simpa [Encoded, not_or] using hroot
      refine ⟨left.link icode 0 (lastOf icode (yand left right).size) ++
        right.link (icode + SZ_INSTR * left.size) 0 0, ?_, fun tjump fjump => ?_⟩
      · simp only [size, if_neg hboth, List.length_append, length_link]
      · simp only [link, if_neg hboth, Filter.root]
  | ynot arg =>
      exact ⟨arg.link icode 0 0, by simp [size, length_link], fun _ _ => rfl⟩

theorem Filter.inst_eq {root : Filter} (hroot : root.Encoded) {body : List Instr}
    (h : body.length + 1 = root.size) (pre : List Instr) :
    root.inst (SZ_INSTR * pre.length) = (SZ_INSTR * (pre.length + body.length) : Nat) := by
  have hlength : (root.putcode.length : Int) - 1 = body.length := by
    rw [length_putcode]
    omega
  cases root with
  | null => exact hroot.elim
  | yrange list cptr =>
      change ((SZ_INSTR * pre.length : Nat) : Int) +
        SZ_INSTR * (((yrange list cptr).putcode.length : Int) - 1) = _
      rw [hlength]
      push_cast
      ring
  | yand left right =>
      have hboth : ¬ (left = null ∨ right = null) := by
        simpa [Encoded, not_or] using hroot
      rw [inst, if_neg hboth, hlength]
      push_cast
      ring
  | ynot arg =>
      change ((SZ_INSTR * pre.length : Nat) : Int) +
        SZ_INSTR * (((ynot arg).putcode.length : Int) - 1) = _
      rw [hlength]
      push_cast
      ring

theorem Filter.putjump_eq {root : Filter} (hlinked : root.Linked) (pre post : List Instr) :
    root.putjump (SZ_INSTR * pre.length) (pre ++ root.putcode ++ post) =
      pre ++ root.link (SZ_INSTR * pre.length) 0 0 ++ post := by
  induction root generalizing pre post with
  | null => rfl
  | yrange list cptr =>
      have hlist := list.putjump_eq cptr pre ([logical .yrange] ++ post)
      have hassoc : pre ++ (yrange list cptr).putcode ++ post =
          pre ++ list.putcode cptr ++ ([logical .yrange] ++ post) := by
        simp [putcode]
      rw [putjump, hassoc, hlist, link]
      simp [Instr.jumps, logical]
  | yand left right ihl ihr =>
      obtain ⟨hleft, hright, hbranch⟩ := hlinked
      have hnext : SZ_INSTR * (pre ++ left.link (SZ_INSTR * pre.length) 0 0).length =
          SZ_INSTR * pre.length + SZ_INSTR * left.size := by
        rw [List.length_append, length_link, Nat.mul_add]
      by_cases hskip : left = null ∨ right = null
      · have hl := ihl hleft pre (right.putcode ++ post)
        have hr := ihr hright (pre ++ left.link (SZ_INSTR * pre.length) 0 0) post
        have hassoc : pre ++ (yand left right).putcode ++ post =
            pre ++ left.putcode ++ (right.putcode ++ post) := by
          simp [putcode, hskip]
        rw [hnext] at hr
        simp only [putjump, length_putcode, if_pos hskip]
        rw [hassoc, hl, ← List.append_assoc, hr, link, if_pos hskip]
        simp
      · have hboth := hskip
        rw [not_or] at hboth
        obtain ⟨hencoded, -⟩ := (hbranch.resolve_left hboth.1).resolve_left hboth.2
        have hl := ihl hleft pre (right.putcode ++ [logical .yand] ++ post)
        have hr := ihr hright (pre ++ left.link (SZ_INSTR * pre.length) 0 0)
          ([logical .yand] ++ post)
        obtain ⟨body, hbody, hlink⟩ := link_root hencoded (SZ_INSTR * pre.length)
        have hassoc : pre ++ (yand left right).putcode ++ post =
            pre ++ left.putcode ++ (right.putcode ++ [logical .yand] ++ post) := by
          simp [putcode, hskip]
        have hassoc' : pre ++ left.link (SZ_INSTR * pre.length) 0 0 ++
              (right.putcode ++ [logical .yand] ++ post) =
            pre ++ left.link (SZ_INSTR * pre.length) 0 0 ++ right.putcode ++
              ([logical .yand] ++ post) := by
          simp
        rw [hnext] at hr
        simp only [putjump, length_putcode, if_neg hskip]
        rw [hassoc, hl, hassoc', hr, inst_eq hencoded hbody, List.append_assoc, hlink]
        have hpoke := poke_root body pre
          (right.link (SZ_INSTR * pre.length + SZ_INSTR * left.size) 0 0 ++
            ([logical .yand] ++ post)) left.root (by decide)
          (put_fjump _ (lastOf (SZ_INSTR * pre.length) (yand left right).size))
        rw [lastOf] at hpoke
        rw [hpoke, link, if_neg hskip, hlink, lastOf]
        simp [Instr.jumps, logical]
  | ynot arg ih =>
      have harg := ih hlinked.1 pre ([logical .ynot] ++ post)
      have hassoc : pre ++ (ynot arg).putcode ++ post =
          pre ++ arg.putcode ++ ([logical .ynot] ++ post) := by
        simp [putcode]
      rw [putjump, hassoc, harg, link]
      simp [Instr.jumps, logical]

theorem Filter.Encoded.size_pos {root : Filter} (h : root.Encoded) : root.size ≠ 0 := by
  obtain ⟨body, hbody, -⟩ := link_root h 0
  omega

theorem Filter.depth_pos {root : Filter} (hlinked : root.Linked) (hsize : root.size ≠ 0)
    (tp : Table) (irow : Int) : 1 ≤ root.depth tp irow := by
  induction root with
  | null => exact absurd rfl hsize
  | yrange list cptr => exact list.depth_pos tp irow cptr
  | yand left right ihl ihr =>
      obtain ⟨hleft, hright, hbranch⟩ := hlinked
      simp only [size] at hsize
      simp only [depth]
      by_cases hl : left = null
      · rw [if_pos hl]
        exact ihr hright (by simpa [hl, size] using hsize)
      · rw [if_neg hl]
        by_cases hr : right = null
        · rw [if_pos hr]
          exact ihl hleft (by simpa [hr, size] using hsize)
        · obtain ⟨hencoded, -⟩ := (hbranch.resolve_left hl).resolve_left hr
          have hdepth := ihl hleft hencoded.size_pos
          rw [if_neg hr]
          split <;> omega
  | ynot arg ih => exact ih hlinked.1 hlinked.2

theorem Filter.empty_spec {root : Filter} (hlinked : root.Linked) (hsize : root.size = 0)
    (tp : Table) (irow : Int) : root.holds tp irow = true ∧ root.depth tp irow = 0 := by
  induction root with
  | null => exact ⟨rfl, rfl⟩
  | yrange list cptr => exact absurd hsize (Nat.succ_ne_zero _)
  | yand left right ihl ihr =>
      obtain ⟨hleft, hright, hbranch⟩ := hlinked
      simp only [size] at hsize
      have hskip : left = null ∨ right = null := by
        by_contra hboth
        rw [if_neg hboth] at hsize
        exact absurd hsize (Nat.succ_ne_zero _)
      rw [if_pos hskip] at hsize
      obtain ⟨hl, hdl⟩ := ihl hleft (by omega)
      obtain ⟨hr, hdr⟩ := ihr hright (by omega)
      refine ⟨by simp [holds, hl, hr], ?_⟩
      rcases hskip with rfl | rfl
      · simpa [depth] using hdr
      · by_cases hnull : left = null
        · simp [depth, hnull]
        · simpa [depth, hnull] using hdl
  | ynot arg ih => exact absurd hsize (Nat.succ_ne_zero _)

/-- The last instruction of a tree that has code: an encoded root has the jumps that it was
given, and any other has none. -/
theorem Filter.computes {root : Filter} (hlinked : root.Linked) (hsize : root.size ≠ 0)
    (tp : Table) (irow : Int) (tjump fjump : Nat) (pre post : List Instr)
    (hcode : codebuf = pre ++ root.link (SZ_INSTR * pre.length) tjump fjump ++ post) :
    ∃ top, (root.Encoded → top = root.root.jumps tjump fjump) ∧
      (root.Encoded ∨ top.Plain) ∧
      Computes tp irow codebuf (SZ_INSTR * pre.length) (lastOf (SZ_INSTR * pre.length) root.size)
        top (root.holds tp irow) (root.depth tp irow) := by
  induction root generalizing pre post tjump fjump with
  | null => exact absurd rfl hsize
  | yrange list cptr =>
      have hlist := list.computes tp irow cptr 0 0 pre
        ([(logical .yrange).jumps tjump fjump] ++ post) (by simpa [link] using hcode)
      have hpos := list.size_pos
      have hlast : lastOf (SZ_INSTR * pre.length) (yrange list cptr).size =
          lastOf (SZ_INSTR * pre.length) list.size + SZ_INSTR := by
        simp only [lastOf, size, SZ_INSTR]
        omega
      have hat : InstrAt codebuf (lastOf (SZ_INSTR * pre.length) list.size + SZ_INSTR)
          ((logical .yrange).jumps tjump fjump) := by
        refine instrAt_middle (pre ++ list.link cptr (SZ_INSTR * pre.length) 0 0)
          post (by simpa [link] using hcode) ?_
        simp only [List.length_append, RangeList.length_link, lastOf, SZ_INSTR]
        omega
      refine ⟨_, fun _ => rfl, .inl trivial, ?_⟩
      rw [hlast]
      exact computes_unary hlist (plain_jumps _) (list.depth_pos tp irow cptr) hat
        (fun h => by cases h) fun _ => rfl
  | yand left right ihl ihr =>
      obtain ⟨hleft, hright, hbranch⟩ := hlinked
      by_cases hl : left = null
      · -- The code is that of the right branch.
        have hright0 : right.size ≠ 0 := by simpa [size, hl] using hsize
        obtain ⟨top, htop, hplain, hcomputes⟩ := ihr hright hright0 0 0 pre post
          (by simpa [link, hl, size] using hcode)
        refine ⟨top, fun h => absurd hl h.1, .inr (hplain.elim (fun h => htop h ▸ plain_jumps _) id),
          ?_⟩
        simpa [hl, size, holds, depth] using hcomputes
      · by_cases hr : right = null
        · have hleft0 : left.size ≠ 0 := by simpa [size, hr] using hsize
          obtain ⟨top, htop, hplain, hcomputes⟩ := ihl hleft hleft0 0 0 pre post
            (by simpa [link, hr, size] using hcode)
          refine ⟨top, fun h => absurd hr h.2,
            .inr (hplain.elim (fun h => htop h ▸ plain_jumps _) id), ?_⟩
          simpa [hl, hr, size, holds, depth] using hcomputes
        · obtain ⟨hencoded, hright0⟩ := (hbranch.resolve_left hl).resolve_left hr
          have hskip : ¬ (left = null ∨ right = null) := not_or.mpr ⟨hl, hr⟩
          have hleft0 := hencoded.size_pos
          generalize hjumpto : lastOf (SZ_INSTR * pre.length) (yand left right).size = jumpto
          rw [link, if_neg hskip, hjumpto] at hcode
          obtain ⟨topl, htopl, -, hcl⟩ := ihl hleft hleft0 0 jumpto pre
            (right.link (SZ_INSTR * pre.length + SZ_INSTR * left.size) 0 0 ++
              [(logical .yand).jumps tjump fjump] ++ post) (by simpa using hcode)
          obtain ⟨topr, htopr, hplainr, hcr⟩ := ihr hright hright0 0 0
            (pre ++ left.link (SZ_INSTR * pre.length) 0 jumpto)
            ([(logical .yand).jumps tjump fjump] ++ post)
            (by simpa [length_link, Nat.mul_add] using hcode)
          have hlastl : SZ_INSTR * (pre ++ left.link (SZ_INSTR * pre.length) 0 jumpto).length =
              lastOf (SZ_INSTR * pre.length) left.size + SZ_INSTR := by
            simp only [List.length_append, length_link, lastOf, SZ_INSTR]
            omega
          have hlastr : jumpto =
              lastOf (lastOf (SZ_INSTR * pre.length) left.size + SZ_INSTR) right.size +
                SZ_INSTR := by
            simp only [← hjumpto, lastOf, size, if_neg hskip, SZ_INSTR]
            omega
          have hat : InstrAt codebuf jumpto ((logical .yand).jumps tjump fjump) := by
            refine instrAt_middle (pre ++ left.link (SZ_INSTR * pre.length) 0 jumpto ++
              right.link (SZ_INSTR * pre.length + SZ_INSTR * left.size) 0 0) post
              (by simpa using hcode) ?_
            rw [hlastr]
            simp only [List.length_append, length_link, lastOf, SZ_INSTR]
            omega
          have hnotnull : jumpto ≠ 0 := by
            rw [hlastr]
            exact Nat.succ_ne_zero _
          have hjump := jumpOn_fjump left.root hnotnull
            (lastOf (SZ_INSTR * pre.length) left.size) (left.holds tp irow)
          have hplain : topr.Plain := hplainr.elim (fun h => htopr h ▸ plain_jumps _) id
          rw [htopl hencoded] at hcl
          rw [hlastl] at hcr
          refine ⟨_, fun _ => rfl, .inl ⟨hl, hr⟩, ?_⟩
          have hvalue : (yand left right).holds tp irow =
              if left.holds tp irow = false then left.holds tp irow
              else (left.holds tp irow && right.holds tp irow) := by
            cases hv : left.holds tp irow <;> simp [holds, hv]
          have hdepth : (yand left right).depth tp irow =
              if left.holds tp irow = false then left.depth tp irow
              else max (left.depth tp irow) (1 + right.depth tp irow) := by
            cases hv : left.holds tp irow <;> simp [depth, hv, hl, hr]
          rw [hvalue, hdepth]
          rw [hlastr] at hcl hjump hat ⊢
          exact computes_binary hcl hcr hjump hplain (depth_pos hleft hleft0 tp irow)
            (depth_pos hright hright0 tp irow) hat (fun h => by cases h)
            (fun stack => exec_jump (.inl rfl) _) fun _ => rfl
  | ynot arg ih =>
      obtain ⟨harg, hargsize⟩ := hlinked
      obtain ⟨top, htop, hplain, hcomputes⟩ := ih harg hargsize 0 0 pre
        ([(logical .ynot).jumps tjump fjump] ++ post) (by simpa [link] using hcode)
      have hlast : lastOf (SZ_INSTR * pre.length) (ynot arg).size =
          lastOf (SZ_INSTR * pre.length) arg.size + SZ_INSTR := by
        simp only [lastOf, size, SZ_INSTR]
        omega
      have hat : InstrAt codebuf (lastOf (SZ_INSTR * pre.length) arg.size + SZ_INSTR)
          ((logical .ynot).jumps tjump fjump) := by
        refine instrAt_middle (pre ++ arg.link (SZ_INSTR * pre.length) 0 0)
          post (by simpa [link] using hcode) ?_
        simp only [List.length_append, length_link, lastOf, SZ_INSTR]
        omega
      have hplain' : top.Plain := hplain.elim (fun h => htop h ▸ plain_jumps _) id
      refine ⟨_, fun _ => rfl, .inl trivial, ?_⟩
      rw [hlast]
      exact computes_unary hcomputes hplain' (depth_pos harg hargsize tp irow) hat
        (fun h => by cases h) fun _ => rfl

theorem step_done {st : Calc} (hroom : st.stack.length < MAXSTACK)
    (hat : InstrAt codebuf st.icode (logical .ydone)) :
    trscalcStep tp irow codebuf st = .ok (.inr (st.stack.getLast?.getD true)) := by
  have hnotfull : st.stack.length ≠ MAXSTACK := by omega
  unfold InstrAt at hat
  simp [trscalcStep, hnotfull, hat, logical]

theorem putjump_trsputcode {root : Filter} (hlinked : root.Linked) {code : List Instr}
    (hcode : trsputcode root = .ok code) :
    root.putjump 0 code = root.link 0 0 0 ++ [logical .ydone] := by
  have hput : code = root.putcode ++ [logical .ydone] := by
    simp only [trsputcode] at hcode
    split at hcode
    · exact (Except.ok.inj hcode).symm
    · cases hcode
  have h := Filter.putjump_eq hlinked [] [logical .ydone]
  simpa [hput] using h

/-- The code of a tree returns the value of the tree, unless its operands fill the stack. -/
theorem trscalc_ends {root : Filter} (hlinked : root.Linked) {code : List Instr}
    (hcode : trsputcode root = .ok code) (tp : Table) (irow : Int) :
    Ends (trscalcStep tp irow (root.putjump 0 code)) ⟨[], 0, false⟩
      (if root.depth tp irow < MAXSTACK then .ok (root.holds tp irow) else .error .ovflow) := by
  rw [putjump_trsputcode hlinked hcode]
  by_cases hsize : root.size = 0
  · obtain ⟨hholds, hdepth⟩ := Filter.empty_spec hlinked hsize tp irow
    have hempty : root.link 0 0 0 = [] := by
      rw [← List.length_eq_zero_iff, Filter.length_link, hsize]
    rw [hholds, hdepth, hempty]
    exact ends_result (step_done (by decide) rfl)
  · obtain ⟨top, htop, hplain, hcomputes⟩ := Filter.computes hlinked hsize tp irow 0 0
      [] [logical .ydone] (rfl : root.link 0 0 0 ++ [logical .ydone] = _)
    have hplain' : top.Plain := hplain.elim (fun h => htop h ▸ plain_jumps _) id
    obtain ⟨hfits, hfull⟩ := hcomputes [] (by decide)
    simp only [List.length_nil, Nat.zero_add] at hfits hfull
    by_cases hdeep : root.depth tp irow < MAXSTACK
    · rw [if_pos hdeep]
      have hreaches := hfits hdeep
      rw [hplain'.jumpOn] at hreaches
      refine hreaches.ends_iff.mpr (ends_result (step_done (by simp [MAXSTACK]) ?_))
      refine instrAt_middle (root.link 0 0 0) [] rfl ?_
      simp only [Filter.length_link, lastOf, SZ_INSTR]
      omega
    · rw [if_neg hdeep]
      exact hfull (by omega)

end Iraf.Selector.Trs
