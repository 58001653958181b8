import Iraf.Cl.Stacks
import Iraf.Lib.SafeRuns
import Mathlib.Algebra.Order.Group.Unbundled.Int

/-!
# Compiled code and the stacks stay apart

The operand stack is kept whole by the links of its operands, and every call that
fits stores below the control stack.
-/

namespace Iraf.Cl.Stacks

/-! ## Runs -/

inductive StackOp where
  | compile (opcode : Opcode) (args : Args)
  | pushop (op : Operand) (str : CString)
  | popop
  | pushmem (v : UInt64)
  | popmem
  | pushtask
  | poptask

def report {α : Type} : Except Report α → Report
  | .ok _ => .normal
  | .error e => e

/-- The report, and the state after the call. -/
def perform (s : Stacks) (op : StackOp) : Report × Stacks :=
  let s := { s with written := [] }
  match op with
  | .compile opcode args => Prod.map report id (s.compile opcode args)
  | .pushop op str => Prod.map report id (s.pushop op str)
  | .popop => Prod.map report id s.popop
  | .pushmem v => Prod.map report id (s.pushmem v)
  | .popmem => Prod.map report id s.popmem
  | .pushtask => Prod.map report id s.pushtask
  | .poptask => Prod.map report id s.poptask

def step (s : Stacks) (op : StackOp) : Stacks := (s.perform op).2

/-- The stacks do not meet in a call that returns, and one that does not for want of
room leaves them where they are. -/
structure KeepsApart (s : Stacks) (op : StackOp) : Prop where
  below : (s.perform op).1 = .normal → ∀ i ∈ (s.step op).written, i < (s.step op).topcs
  kept : (s.perform op).1 = .normal → ∀ i, s.topcs ≤ i → (s.step op).stack i = s.stack i
  bounds : (s.perform op).1 = .normal →
    -1 ≤ (s.step op).topos ∧ (s.step op).topos < (s.step op).topcs ∧
      (s.step op).topcs ≤ stacksiz
  overflow : (s.perform op).1 = .overflow → (s.step op).pc = s.pc ∧
    (s.step op).topos = s.topos ∧ (s.step op).topcs = s.topcs

/-- The cells that the arguments of an instruction are stored into. -/
def argsCells (args : Args) : Layout → Int
  | .string => cells (args.str.chars.length + 1)
  | .operand =>
      if args.op.oType &&& otBasic = otString then
        opsiz + cells (args.str.chars.length + 1)
      else opsiz
  | .none | .switch | .case | .bad => 0
  | .int => 1
  | .twoInts => 2

def instructionCells (opcode : Opcode) (args : Args) : Int :=
  2 + argsCells args opcode.layout

/-- The instruction ends below the control stack and starts above the operands, if
there are any; a string does not take more cells than an `int` counts; and the task
frame that is popped is not the last one already popped. -/
def Fits (s : Stacks) : StackOp → Prop
  | .compile opcode args => s.pc ≤ s.topcs - 20 →
      s.pc + instructionCells opcode args ≤ s.topcs ∧ (s.topos ≤ s.basos ∨ s.topos < s.pc)
  | .pushop op str => op.oType = otString → cells (str.chars.length + 1) < 2 ^ 31
  | .poptask => s.topcs ≤ stacksiz - tasksiz → s.topcs < s.lastTaskFrame →
      s.lastTaskFrame ≤ stacksiz - tasksiz
  | _ => True

/-! ## What is stored -/

/-- Only cells from `lo` to `hi` are stored into. -/
structure Writes (lo hi : Int) (s s' : Stacks) : Prop where
  pc : s'.pc = s.pc
  topos : s'.topos = s.topos
  topcs : s'.topcs = s.topcs
  basos : s'.basos = s.basos
  lastTaskFrame : s'.lastTaskFrame = s.lastTaskFrame
  stack : ∀ i, i < lo ∨ hi ≤ i → s'.stack i = s.stack i
  written : ∀ i ∈ s'.written, i ∈ s.written ∨ lo ≤ i ∧ i < hi

variable {s s' s'' : Stacks} {lo hi lo' hi' loc i : Int} {op : StackOp}

theorem Writes.refl (lo hi : Int) (s : Stacks) : Writes lo hi s s :=
  ⟨rfl, rfl, rfl, rfl, rfl, fun _ _ => rfl, fun _ => .inl⟩

theorem Writes.widen (h : Writes lo hi s s') (hlo : lo' ≤ lo) (hhi : hi ≤ hi') :
    Writes lo' hi' s s' := by
  refine { h with stack := fun i hi => h.stack i ?_, written := fun i hi => ?_ }
  · exact hi.imp (fun h => h.trans_le hlo) hhi.trans
  · exact (h.written i hi).imp id fun h => ⟨hlo.trans h.1, h.2.trans_le hhi⟩

theorem Writes.trans (h : Writes lo hi s s') (h' : Writes lo hi s' s'') :
    Writes lo hi s s'' := by
  refine ⟨h'.pc.trans h.pc, h'.topos.trans h.topos, h'.topcs.trans h.topcs,
    h'.basos.trans h.basos, h'.lastTaskFrame.trans h.lastTaskFrame,
    fun i hi => (h'.stack i hi).trans (h.stack i hi), fun i hi => ?_⟩
  rcases h'.written i hi with hi | hi
  · exact h.written i hi
  · exact .inr hi

theorem poke_writes (s : Stacks) (v : UInt64) (hlo : lo ≤ i) (hhi : i < hi) :
    Writes lo hi s (s.poke i v) := by
  refine ⟨rfl, rfl, rfl, rfl, rfl, fun j hj => Function.update_of_ne ?_ _ _, fun j hj => ?_⟩
  · omega
  · rcases List.mem_cons.1 hj with rfl | hj
    · exact .inr ⟨hlo, hhi⟩
    · exact .inl hj

theorem storeBytes_writes (bytes : List UInt8) (s : Stacks) (hlo : lo * 8 ≤ loc)
    (hhi : loc + bytes.length ≤ hi * 8) : Writes lo hi s (storeBytes bytes loc s) := by
  induction bytes generalizing loc s with
  | nil => exact .refl lo hi s
  | cons b bytes ih =>
      rw [List.length_cons, Int.natCast_succ] at hhi
      have hpoke := poke_writes s (withByte (s.stack (loc / 8)) (loc % 8) b)
        (show lo ≤ loc / 8 by omega) (show loc / 8 < hi by omega)
      exact hpoke.trans (ih _ (by omega) (by omega))

theorem putString_writes (s : Stacks) (str : CString) (loc : Int) :
    Writes loc (loc + cells (str.chars.length + 1)) s (s.putString str loc) := by
  refine storeBytes_writes _ s (by omega) ?_
  rw [List.length_append, List.length_singleton, cells]
  omega

theorem putOperand_writes (s : Stacks) (op : Operand) (loc : Int) :
    Writes loc (loc + opsiz) s (s.putOperand op loc) :=
  (poke_writes s _ le_rfl (by unfold opsiz; omega)).trans
    (poke_writes _ _ (by omega) (by unfold opsiz; omega))

theorem compileArgs_writes (s : Stacks) (layout : Layout) (args : Args) (loc : Int) :
    Writes loc (loc + argsCells args layout) s (s.compileArgs layout args loc).2.2 := by
  cases layout with
  | string => exact putString_writes s args.str loc
  | operand =>
      have hcopy := putOperand_writes s args.op loc
      have hstr := putString_writes (s.putOperand args.op loc) args.str (loc + opsiz)
      unfold compileArgs argsCells
      dsimp only
      split
      · have hall := (hcopy.widen le_rfl (by omega)).trans
          (hstr.widen (by unfold opsiz; omega) (Int.add_assoc _ _ _).le)
        split
        · exact hall.trans (poke_writes _ _ (by omega) (by unfold opsiz; omega))
        · exact hall
      · exact hcopy
  | none => exact .refl _ _ s
  | int => exact poke_writes s _ le_rfl (Int.lt_succ loc)
  | switch => exact .refl _ _ s
  | case => exact .refl _ _ s
  | twoInts =>
      show Writes loc (loc + 2) s _
      exact (poke_writes s _ le_rfl (by omega)).trans (poke_writes _ _ (by omega) (by omega))
  | bad => exact .refl _ _ s

theorem argsCells_nonneg (args : Args) (layout : Layout) : 0 ≤ argsCells args layout := by
  cases layout with
  | string => exact Int.natCast_nonneg _
  | operand =>
      unfold argsCells opsiz
      dsimp only
      split <;> omega
  | none | switch | case | bad => exact le_rfl
  | int => exact Int.one_nonneg
  | twoInts => exact Int.natCast_nonneg 2

theorem compile_writes (s : Stacks) (opcode : Opcode) (args : Args) :
    (s.pc > s.topcs - 20 ∧ s.compile opcode args = (.error .overflow, s)) ∨
      s.pc ≤ s.topcs - 20 ∧ ∃ s', Writes s.pc (s.pc + instructionCells opcode args) s s' ∧
        ((∃ e, s.compile opcode args = (.error e, s')) ∨
          ∃ loc pc, s.compile opcode args = (.ok loc, { s' with pc := pc })) := by
  by_cases hroom : s.pc > s.topcs - 20
  · refine .inl ⟨hroom, ?_⟩
    rw [compile, if_pos hroom]
  · refine .inr ⟨Int.not_lt.1 hroom, ?_⟩
    have hcells := argsCells_nonneg args opcode.layout
    have hcells' : instructionCells opcode args = 2 + argsCells args opcode.layout := rfl
    have hcode : Writes s.pc (s.pc + instructionCells opcode args) s
        (s.poke s.pc opcode.code) := poke_writes s _ le_rfl (by omega)
    have hlength : ∀ (e : Stacks) (v : UInt64),
        Writes s.pc (s.pc + instructionCells opcode args) e (e.poke (s.pc + 1) v) :=
      fun e v => poke_writes e v (by omega) (by omega)
    rw [compile, if_neg hroom]
    dsimp only
    split
    · exact ⟨_, hcode.trans (hlength _ _), .inl ⟨_, rfl⟩⟩
    · have hargs := (compileArgs_writes (s.poke s.pc opcode.code) opcode.layout args
        (s.pc + 2)).widen (show s.pc ≤ s.pc + 2 by omega)
        (show _ ≤ s.pc + instructionCells opcode args by omega)
      have hall := fun v => (hcode.trans hargs).trans (hlength _ v)
      split
      · exact ⟨_, hall _, .inr ⟨_, _, rfl⟩⟩
      · exact ⟨_, hall _, .inl ⟨_, rfl⟩⟩

/-! ## The operands -/

/-- The links of the operand stack lead from `topos` to its base. -/
inductive Chain (stack : Int → UInt64) (basos : Int) : Int → Prop
  | base : Chain stack basos basos
  | link {topos : Int} (habove : basos < topos) (hbelow : signed (stack topos) < topos)
      (hrest : Chain stack basos (signed (stack topos))) : Chain stack basos topos

theorem Chain.le {stack : Int → UInt64} {basos topos : Int} (h : Chain stack basos topos) :
    basos ≤ topos := by
  cases h with
  | base => exact le_rfl
  | link habove => exact habove.le

theorem Chain.prev {stack : Int → UInt64} {basos topos : Int} (h : Chain stack basos topos)
    (habove : basos < topos) :
    signed (stack topos) < topos ∧ Chain stack basos (signed (stack topos)) := by
  cases h with
  | base => exact absurd habove (lt_irrefl _)
  | link _ hbelow hrest => exact ⟨hbelow, hrest⟩

theorem Chain.congr {stack stack' : Int → UInt64} {basos topos : Int}
    (h : Chain stack basos topos)
    (heq : ∀ i, basos < i → i ≤ topos → stack' i = stack i) : Chain stack' basos topos := by
  induction h with
  | base => exact .base
  | link habove hbelow hrest ih =>
      have htop := heq _ habove le_rfl
      refine .link habove ?_ ?_
      · rw [htop]
        exact hbelow
      · rw [htop]
        exact ih fun i hlo hhi => heq i hlo (hhi.trans hbelow.le)

/-- The three parts of the array are apart, and the links of the operands are whole. -/
structure Sound (s : Stacks) : Prop where
  base : -1 ≤ s.basos
  chain : Chain s.stack s.basos s.topos
  below : s.topos < s.topcs
  top : s.topcs ≤ stacksiz

theorem initial_sound : Sound initial := ⟨by decide, .base, by decide, by decide⟩

theorem Sound.bounds (h : Sound s) : -1 ≤ s.topos ∧ s.topos < s.topcs ∧ s.topcs ≤ stacksiz :=
  ⟨h.base.trans h.chain.le, h.below, h.top⟩

theorem Sound.writes (h : Sound s) (hw : Writes lo hi s s')
    (hcells : s.topos ≤ s.basos ∨ s.topos < lo) : Sound s' := by
  obtain ⟨hbase, hchain, hbelow, htop⟩ := h
  refine ⟨hw.basos ▸ hbase, ?_, by rw [hw.topos, hw.topcs]; exact hbelow, hw.topcs ▸ htop⟩
  rw [hw.topos, hw.basos]
  refine hchain.congr fun i hlo hhi => hw.stack i (.inl ?_)
  omega

/-- An operand was pushed onto the others, with its link. -/
structure Pushed (s s' : Stacks) : Prop where
  topcs : s'.topcs = s.topcs
  basos : s'.basos = s.basos
  above : s.topos < s'.topos
  below : s'.topos < s.topcs
  link : s'.stack s'.topos = cell (toInt s.topos)
  stack : ∀ i, i ≤ s.topos ∨ s.topcs ≤ i → s'.stack i = s.stack i
  written : ∀ i ∈ s'.written, i ∈ s.written ∨ i < s.topcs

theorem linkOperand_pushed (hw : Writes (s.topos + 1) s.topcs s s') {m : Int}
    (hm : s.topos ≤ m) (hroom : m + (opsiz + 1) < s.topcs) (dest : Int) :
    ∃ op e, linkOperand { s' with topos := m } s.topos dest = (.ok op, e) ∧ Pushed s e := by
  have hopsiz : (0 : Int) < opsiz + 1 := by decide
  refine ⟨_, _, rfl, hw.topcs, hw.basos, ?_, hroom, Function.update_self .., fun i hi => ?_,
    fun i hi => ?_⟩
  · show s.topos < m + (opsiz + 1)
    omega
  · have hne : i ≠ m + (opsiz + 1) := by omega
    refine (Function.update_of_ne hne _ _).trans (hw.stack i ?_)
    exact hi.imp (fun h => Int.lt_add_one_of_le h) id
  · rcases List.mem_cons.1 hi with rfl | hi
    · exact .inr hroom
    · exact (hw.written i hi).imp id And.right

theorem pushop_pushed (op : Operand) (str : CString)
    (hstr : op.oType = otString → cells (str.chars.length + 1) < 2 ^ 31) :
    (∃ e, s.pushop op str = (.error .overflow, e) ∧ Writes (s.topos + 1) s.topcs s e) ∨
      ∃ op' e, s.pushop op str = (.ok op', e) ∧ Pushed s e := by
  rw [pushop]
  split
  next hroom =>
    have hcopy : Writes (s.topos + 1) s.topcs s (s.putOperand op (s.topos + 1)) :=
      (putOperand_writes s op (s.topos + 1)).widen le_rfl (by unfold opsiz at *; omega)
    have htopos : (s.putOperand op (s.topos + 1)).topos = s.topos := rfl
    dsimp only
    split
    next htype =>
      have hlen : btoi (str.chars.length + 1) = cells (str.chars.length + 1) :=
        toInt_eq (by omega) (by exact_mod_cast hstr htype)
      rw [hlen, htopos]
      split
      · exact .inl ⟨_, rfl, hcopy⟩
      next hfull =>
        have hfull : s.topos + (opsiz + 1) + cells (str.chars.length + 1) < s.topcs :=
          Int.not_le.1 hfull
        have hpoke := poke_writes (s.putOperand op (s.topos + 1))
          (address (s.topos + (opsiz + 1))) (show s.topos + 1 ≤ s.topos + 1 + 1 by omega)
          (show s.topos + 1 + 1 < s.topcs by unfold opsiz at hroom; omega)
        have hput := (putString_writes ((s.putOperand op (s.topos + 1)).poke (s.topos + 1 + 1)
          (address (s.topos + (opsiz + 1)))) str (s.topos + (opsiz + 1))).widen
            (show s.topos + 1 ≤ s.topos + (opsiz + 1) by unfold opsiz; omega) hfull.le
        have hall := (hcopy.trans hpoke).trans hput
        obtain ⟨op', e, heq, he⟩ := linkOperand_pushed hall
          (show s.topos ≤ s.topos + cells (str.chars.length + 1) by omega)
          (by omega) (s.topos + 1)
        rw [hall.topos]
        exact .inr ⟨op', e, heq, he⟩
    next =>
      obtain ⟨op', e, heq, he⟩ := linkOperand_pushed hcopy le_rfl hroom (s.topos + 1)
      exact .inr ⟨op', e, heq, he⟩
  next => exact .inl ⟨s, rfl, .refl _ _ s⟩

theorem Pushed.sound (h : Sound s) (hp : Pushed s s') : Sound s' := by
  obtain ⟨hlo, hmid, hhi⟩ := h.bounds
  have hprev : signed (s'.stack s'.topos) = s.topos := by
    have hsmall : s.topos < 2 ^ 31 := by unfold stacksiz at hhi; omega
    rw [hp.link, toInt_eq (by omega) hsmall]
    exact signed_cell (by omega) (by omega)
  refine ⟨hp.basos ▸ h.base, ?_, hp.topcs ▸ hp.below, hp.topcs ▸ hhi⟩
  rw [hp.basos]
  refine .link (h.chain.le.trans_lt hp.above) (hprev ▸ hp.above) ?_
  rw [hprev]
  exact h.chain.congr fun i _ hi => hp.stack i (.inl hi)

/-! ## One call -/

/-- The state that a call starts from. -/
def cleared (s : Stacks) : Stacks := { s with written := [] }

theorem Sound.cleared (h : Sound s) : Sound s.cleared := ⟨h.base, h.chain, h.below, h.top⟩

/-- A call that leaves the parts apart. -/
structure Apart (s : Stacks) (r : Report × Stacks) : Prop where
  sound : Sound r.2
  below : ∀ i ∈ r.2.written, i < r.2.topcs
  kept : ∀ i, s.topcs ≤ i → r.2.stack i = s.stack i
  overflow : r.1 = .overflow → r.2.pc = s.pc ∧ r.2.topos = s.topos ∧ r.2.topcs = s.topcs

theorem Apart.keepsApart (h : Apart s (s.perform op)) : KeepsApart s op :=
  ⟨fun _ => h.below, fun _ => h.kept, fun _ => h.sound.bounds, h.overflow⟩

theorem Sound.unchanged (h : Sound s) (r : Report) : Apart s (r, s.cleared) :=
  ⟨h.cleared, nofun, fun _ _ => rfl, fun _ => ⟨rfl, rfl, rfl⟩⟩

theorem Sound.writes_apart (h : Sound s) (hw : Writes lo hi s.cleared s')
    (hhi : hi ≤ s.topcs) (hcells : s.topos ≤ s.basos ∨ s.topos < lo) (r : Report) :
    Apart s (r, s') := by
  refine ⟨h.cleared.writes hw hcells, fun i hi => ?_, fun i hi => ?_,
    fun _ => ⟨hw.pc, hw.topos, hw.topcs⟩⟩
  · rw [hw.topcs]
    rcases hw.written i hi with hi | hi
    · cases hi
    · exact hi.2.trans_le hhi
  · exact hw.stack i (.inr (hhi.trans hi))

theorem compile_apart (h : Sound s) (opcode : Opcode) (args : Args)
    (hfits : Fits s (.compile opcode args)) : Apart s (s.perform (.compile opcode args)) := by
  rcases compile_writes s.cleared opcode args with ⟨-, heq⟩ | ⟨hroom, e, hw, hres⟩
  · show Apart s (Prod.map report id (s.cleared.compile opcode args))
    rw [heq]
    exact h.unchanged _
  · obtain ⟨hhi, hcells⟩ := hfits hroom
    show Apart s (Prod.map report id (s.cleared.compile opcode args))
    rcases hres with ⟨r, heq⟩ | ⟨loc, pc, heq⟩
    · rw [heq]
      exact h.writes_apart hw hhi hcells _
    · obtain ⟨⟨hbase, hchain, hbelow, htop⟩, hlow, hkept, -⟩ :=
        h.writes_apart hw hhi hcells .normal
      rw [heq]
      exact ⟨⟨hbase, hchain, hbelow, htop⟩, hlow, hkept, nofun⟩

theorem pushop_apart (h : Sound s) (op : Operand) (str : CString)
    (hfits : Fits s (.pushop op str)) : Apart s (s.perform (.pushop op str)) := by
  show Apart s (Prod.map report id (s.cleared.pushop op str))
  rcases pushop_pushed op str hfits with ⟨e, heq, hw⟩ | ⟨op', e, heq, hp⟩
  · rw [heq]
    exact h.writes_apart hw le_rfl (.inr (Int.lt_succ _)) _
  · rw [heq]
    refine ⟨hp.sound h.cleared, fun i hi => ?_, fun i hi => hp.stack i (.inr hi), nofun⟩
    show i < e.topcs
    rw [hp.topcs]
    rcases hp.written i hi with hi | hi
    · cases hi
    · exact hi

theorem popop_apart (h : Sound s) : Apart s (s.perform .popop) := by
  show Apart s (Prod.map report id s.cleared.popop)
  rw [popop]
  split
  next hsome =>
    obtain ⟨hbase, hchain, hbelow, htop⟩ := h
    obtain ⟨hprev, hrest⟩ := hchain.prev hsome
    exact ⟨⟨hbase, hrest, hprev.trans hbelow, htop⟩, nofun, fun _ _ => rfl, nofun⟩
  next => exact h.unchanged _

theorem pushmem_apart (h : Sound s) (v : UInt64) : Apart s (s.perform (.pushmem v)) := by
  show Apart s (Prod.map report id (s.cleared.pushmem v))
  rw [pushmem]
  split
  next hroom =>
    have hroom : s.topos < s.topcs - 1 := hroom
    obtain ⟨hbase, hchain, hbelow, htop⟩ := h
    refine ⟨⟨hbase, ?_, hroom, (Int.sub_le_self _ (by decide)).trans htop⟩, nofun,
      fun i hi => Function.update_of_ne ?_ _ _, nofun⟩
    · refine hchain.congr fun i _ hi => Function.update_of_ne ?_ _ _
      exact (hi.trans_lt hroom).ne
    · exact fun heq => absurd (heq ▸ hi) (by show ¬s.topcs ≤ s.topcs - 1; omega)
  next => exact h.unchanged _

theorem popmem_apart (h : Sound s) : Apart s (s.perform .popmem) := by
  show Apart s (Prod.map report id s.cleared.popmem)
  rw [popmem]
  split
  next hsome =>
    obtain ⟨hbase, hchain, hbelow, htop⟩ := h
    exact ⟨⟨hbase, hchain, Int.lt_add_one_of_le hbelow.le, hsome⟩, nofun, fun _ _ => rfl, nofun⟩
  next => exact h.unchanged _

theorem pushtask_apart (h : Sound s) : Apart s (s.perform .pushtask) := by
  show Apart s (Prod.map report id s.cleared.pushtask)
  rw [pushtask]
  split
  next hroom =>
    obtain ⟨hbase, hchain, hbelow, htop⟩ := h
    have htasksiz : (0 : Int) ≤ tasksiz := by decide
    exact ⟨⟨hbase, hchain, hroom, (Int.sub_le_self _ htasksiz).trans htop⟩, nofun,
      fun _ _ => rfl, nofun⟩
  next => exact h.unchanged _

theorem poptask_apart (h : Sound s) (hfits : Fits s .poptask) :
    Apart s (s.perform .poptask) := by
  show Apart s (Prod.map report id s.cleared.poptask)
  rw [poptask]
  split
  next hsome =>
    obtain ⟨hbase, hchain, hbelow, htop⟩ := h
    have hsome : s.topcs ≤ stacksiz - tasksiz := hsome
    have hframe : s.topcs ≤ (if s.topcs < s.lastTaskFrame then s.lastTaskFrame else s.topcs) ∧
        (if s.topcs < s.lastTaskFrame then s.lastTaskFrame else s.topcs) ≤
          stacksiz - tasksiz := by
      split
      next hlast => exact ⟨hlast.le, hfits hsome hlast⟩
      next => exact ⟨le_rfl, hsome⟩
    have htasksiz : (0 : Int) ≤ tasksiz := by decide
    refine ⟨⟨hbase, hchain, ?_, ?_⟩, nofun, fun _ _ => rfl, nofun⟩
    · exact hbelow.trans_le (hframe.1.trans (Int.le_add_of_nonneg_right htasksiz))
    · exact Int.add_le_of_le_sub_right hframe.2
  next => exact h.unchanged _

theorem perform_apart (h : Sound s) (hfits : Fits s op) : Apart s (s.perform op) := by
  cases op with
  | compile opcode args => exact compile_apart h opcode args hfits
  | pushop op str => exact pushop_apart h op str hfits
  | popop => exact popop_apart h
  | pushmem v => exact pushmem_apart h v
  | popmem => exact popmem_apart h
  | pushtask => exact pushtask_apart h
  | poptask => exact poptask_apart h hfits

theorem Sound.run (h : Sound s) {ops : List StackOp}
    (hfits : SafeRuns.EachStep step Fits s ops) : SafeRuns.EachStep step KeepsApart s ops :=
  hfits.imp (fun _ _ hs hop => (perform_apart hs hop).keepsApart)
    (fun _ _ hs hop => (perform_apart hs hop).sound) h

/-- The parts of the array do not meet in any run of calls that fit. -/
theorem stacks_apart (ops : List StackOp) (hfits : SafeRuns.EachStep step Fits initial ops) :
    SafeRuns.EachStep step KeepsApart initial ops :=
  initial_sound.run hfits

def callCl : Args := ⟨⟨[99, 108], by decide⟩, ⟨0, 0⟩, 0, 0⟩

theorem stacks_apart_call :
    SafeRuns.EachStep step KeepsApart initial
      [.pushtask, .pushmem 7, .compile .CALL callCl, .compile .END callCl, .popmem,
        .poptask, .pushop ⟨otString, 0⟩ ⟨[99, 108], by decide⟩, .popop] := by
  refine stacks_apart _ ⟨trivial, trivial, fun _ => ⟨by decide, .inl (by decide)⟩,
    fun _ => ⟨by decide, .inl (by decide)⟩, trivial, fun _ h => absurd h (by decide),
    fun _ => by decide, trivial, trivial⟩

/-- A string of 200 chars. -/
def longString : Args :=
  ⟨⟨List.replicate 200 120, by decide⟩, ⟨0, 0⟩, 127978, 0⟩

/-- An instruction is stored over the end of the array. -/
theorem not_apart_longString :
    ¬∀ ops : List StackOp, SafeRuns.EachStep step KeepsApart initial ops := by
  intro h
  obtain ⟨-, hstep, -⟩ := h [.compile .CASE longString, .compile .PUSHPARAM longString]
  have hlow := hstep.below (by decide +kernel) 128000 (by decide +kernel)
  revert hlow
  decide +kernel

end Iraf.Cl.Stacks
