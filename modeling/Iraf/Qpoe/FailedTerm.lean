import Mathlib.Data.Int.Interval
import Iraf.Qpoe.Filter

/-!
# A term that fails to compile

The code of a term only adds to the buffers and to the list of tables; the term itself is
linked before it.  When the code fails, `qpex_free` is called to take the term out again.
-/

namespace Iraf.Qpoe

open Iraf.Plio

/-- What compiling the code of a term leaves alone. -/
structure Adds (ex ex' : Ex) : Prop where
  ethead : ex'.ethead = ex.ethead
  ettail : ex'.ettail = ex.ettail
  et : ex'.et = ex.et
  db : ex'.db = ex.db
  dbtop : ex'.dbtop = ex.dbtop
  dbop : ex.dbop ≤ ex'.dbop

/-- A compiler for the expressions of one datatype. -/
structure TermCode where
  run : Stmt → Ex → Except QpexFault (Status × Ex)
  adds : ∀ {s ex status ex'}, run s ex = .ok (status, ex') → Adds ex ex'

/-! ## The compiler for integers -/

section

variable {ex ex' ex'' : Ex} {s : Stmt} {status : Status} {buf buf' : RangeBuf} {xs nranges : Nat}

theorem Adds.refl (ex : Ex) : Adds ex ex := ⟨rfl, rfl, rfl, rfl, rfl, le_rfl⟩

theorem Adds.trans (h : Adds ex ex') (h' : Adds ex' ex'') : Adds ex ex'' where
  ethead := h'.ethead.trans h.ethead
  ettail := h'.ettail.trans h.ettail
  et := h'.et.trans h.et
  db := h'.db.trans h.db
  dbtop := h'.dbtop.trans h.dbtop
  dbop := h.dbop.trans h'.dbop

theorem qpexPbpin_adds {i : Instr} (h : qpexPbpin ex i = .ok ex') : Adds ex ex' := by
  rw [qpexPbpin] at h
  split at h
  · cases h
  · cases h
    exact ⟨rfl, rfl, rfl, rfl, rfl, le_rfl⟩

theorem emitAll_adds {is : List Instr} (h : emitAll is ex = .ok ex') : Adds ex ex' := by
  induction is generalizing ex with
  | nil =>
      cases h
      exact .refl _
  | cons i is ih =>
      obtain ⟨mid, hpin, hrest⟩ := bind_eq_ok.1 h
      exact (qpexPbpin_adds hpin).trans (ih hrest)

theorem setCell_adds (lt i v : Int) : Adds ex (setCell ex lt i v) :=
  ⟨rfl, rfl, rfl, rfl, rfl, le_rfl⟩

theorem align_bounds (op : Int) : op ≤ align op ∧ align op < op + 4 ∧ (align op - 1) % 4 = 0 := by
  have := Int.emod_nonneg (-(op - 1)) (show (4 : Int) ≠ 0 by decide)
  rw [align, szDouble]
  omega

theorem qpexDballoc_adds {nelem p : Int} (hn : 0 ≤ nelem)
    (h : qpexDballoc ex nelem = .ok (p, ex')) : Adds ex ex' := by
  rw [qpexDballoc] at h
  split at h
  · cases h
  · cases h
    have := align_bounds ex.dbop
    refine ⟨rfl, rfl, rfl, rfl, rfl, ?_⟩
    dsimp only [szStruct]
    omega

/-- The code of a list of ranges only adds. -/
def Compiler.Adds (sub : Compiler) : Prop :=
  ∀ {xs nranges buf ex status buf' ex'},
    sub xs nranges buf ex = .ok (status, buf', ex') → Qpoe.Adds ex ex'

variable {sub : Compiler}

theorem compileBins_adds {lt lutx : Int} {scaling : LutScaling} {bins xp : Nat} {i : Int}
    (hsub : sub.Adds)
    (h : compileBins sub lt lutx scaling xs nranges bins i xp buf ex = .ok (status, buf', ex')) :
    Adds ex ex' := by
  induction bins generalizing i xp buf ex with
  | zero =>
      cases h
      exact .refl _
  | succ bins ih =>
      rw [compileBins] at h
      split at h
      · cases h
      · dsimp only at h
        split at h
        · exact (setCell_adds lt i 0).trans (ih h)
        · split at h
          · exact (setCell_adds lt i 1).trans (ih h)
          · obtain ⟨⟨status', buf₁, mid⟩, hrun, h⟩ := bind_eq_ok.1 h
            have hmid := (setCell_adds lt i _).trans (hsub hrun)
            cases status' with
            | err =>
                cases h
                exact hmid
            | ok =>
                obtain ⟨mid', hpin, h⟩ := bind_eq_ok.1 h
                refine (hmid.trans (qpexPbpin_adds hpin)).trans (Adds.trans ?_ (ih h))
                exact ⟨rfl, rfl, rfl, rfl, rfl, le_rfl⟩

theorem compileLut_adds (hsub : sub.Adds) : (compileLut s sub).Adds := by
  intro xs nranges buf ex status buf' ex' h
  obtain ⟨⟨lt, allocated⟩, halloc, h⟩ := bind_eq_ok.1 h
  obtain ⟨started, hpin, h⟩ := bind_eq_ok.1 h
  obtain ⟨⟨status', buf₁, filled⟩, hbins, h⟩ := bind_eq_ok.1 h
  have hfilled : Qpoe.Adds ex filled := by
    refine (qpexDballoc_adds (by decide) halloc).trans ?_
    refine Adds.trans ?_ ((qpexPbpin_adds hpin).trans (compileBins_adds hsub hbins))
    exact ⟨rfl, rfl, rfl, rfl, rfl, le_rfl⟩
  cases status' with
  | err =>
      cases h
      exact hfilled
  | ok =>
      dsimp only at h
      split at h
      · obtain ⟨last, hlast, h⟩ := bind_eq_ok.1 h
        cases h
        exact hfilled.trans (qpexPbpin_adds hlast)
      · cases h
        exact hfilled

theorem compileWith_adds {level0 : Bool} (hsub : sub.Adds) :
    (compileWith s sub level0).Adds := by
  intro xs nranges buf ex status buf' ex' h
  rw [compileWith] at h
  split at h
  · obtain ⟨mid, hpin, h⟩ := bind_eq_ok.1 h
    cases h
    exact qpexPbpin_adds hpin
  · obtain ⟨mid, hpin, h⟩ := bind_eq_ok.1 h
    cases h
    exact emitAll_adds hpin
  · split at h
    · obtain ⟨mid, hpin, h⟩ := bind_eq_ok.1 h
      cases h
      exact emitAll_adds hpin
    · exact compileLut_adds hsub h

theorem compileRanges_adds (left : Nat) (level0 : Bool) : (compileRanges s left level0).Adds := by
  induction left generalizing level0 with
  | zero =>
      apply compileWith_adds
      intro xs nranges buf ex status buf' ex' h
      cases h
      exact .refl ex
  | succ left ih => exact compileWith_adds (ih false)

end

/-- The compiler for integer attributes. -/
def integerCode (junk : RangeBuf) : TermCode where
  run := compileExpr junk
  adds := by
    intro s ex status ex' h
    rw [compileExpr] at h
    split at h
    · split at h
      · cases h
        exact .refl ex
      · split at h
        · cases h
          exact .refl ex
        · obtain ⟨mid, hpin, h⟩ := bind_eq_ok.1 h
          cases h
          exact qpexPbpin_adds hpin
    · split at h
      · cases h
      · obtain ⟨⟨status', buf, mid⟩, hrun, h⟩ := bind_eq_ok.1 h
        cases h
        exact compileRanges_adds _ _ hrun

/-! ## The list of terms -/

/-- The expression term list: reached from the head, it ends at the tail. -/
def TermList (ex : Ex) (l : List Int) : Prop :=
  Visits ex.etNext ex.ethead l ∧ ex.ettail = l.getLast?

/-- Where the next term will be. -/
def Ex.nextTerm (ex : Ex) : Int := coerceStruct (align ex.dbop)

/-- The terms `l` lie one behind another in the data buffer.  A term that failed hangs on the
list behind them, at the place of the next one, and then there is no tail. -/
structure Chained (ex : Ex) (l failed : List Int) : Prop where
  visits : Visits ex.etNext ex.ethead (l ++ failed)
  nodup : l.Nodup
  start : ex.db ≤ ex.dbop
  bounds : ∀ p ∈ l ++ failed, coerceStruct ex.db ≤ p ∧ p < coerceStruct ex.dbtop
  below : ∀ p ∈ l, p < coerceStruct ex.dbop
  tail : failed = [] ∧ ex.ettail = l.getLast? ∨ failed = [ex.nextTerm] ∧ ex.ettail = none

variable {ex ex' linked : Ex} {s : Stmt} {l failed : List Int} {et : Int}

theorem coerceStruct_mono {a b : Int} (h : a ≤ b) : coerceStruct a ≤ coerceStruct b := by
  rw [coerceStruct, coerceStruct, szStruct]
  omega

theorem le_nextTerm (ex : Ex) : coerceStruct ex.dbop ≤ ex.nextTerm :=
  coerceStruct_mono (align_bounds ex.dbop).1

theorem Chained.nodup_all (h : Chained ex l failed) : (l ++ failed).Nodup := by
  rcases h.tail with ⟨rfl, -⟩ | ⟨rfl, -⟩
  · rw [List.append_nil]
    exact h.nodup
  · rw [List.nodup_append]
    refine ⟨h.nodup, List.nodup_singleton _, ?_⟩
    rintro p hp q hq rfl
    have := h.below p hp
    have := le_nextTerm ex
    rw [List.mem_singleton] at hq
    omega

/-- Not more terms than chars, so the loop along the list passes all of them. -/
theorem Chained.eterms_eq (h : Chained ex l failed) : ex.eterms = l ++ failed := by
  apply h.visits.walk_eq
  rw [← List.toFinset_card_of_nodup h.nodup_all]
  have hsub : (l ++ failed).toFinset ⊆
      Finset.Ico (coerceStruct ex.db) (coerceStruct ex.dbtop) := by
    intro p hp
    rw [List.mem_toFinset] at hp
    rw [Finset.mem_Ico]
    exact h.bounds p hp
  have hcard := Finset.card_le_card hsub
  rw [Int.card_Ico, coerceStruct, coerceStruct, szStruct] at hcard
  rw [Ex.dbLen]
  omega

theorem qpexDbpstr_eq {str : List Char} (h : qpexDbpstr ex str = .ok ex') :
    ∃ dbop, ex.dbop ≤ dbop ∧ dbop < ex.dbtop ∧ ex' = { ex with dbop } := by
  rw [qpexDbpstr] at h
  split at h
  case isTrue => cases h
  case isFalse hroom =>
    cases h
    exact ⟨_, by omega, by omega, rfl⟩

theorem linkTerm_eq (h : linkTerm ex s = .ok (et, linked)) :
    et = ex.nextTerm ∧ ∃ dbop, align ex.dbop + 36 ≤ dbop ∧ dbop < ex.dbtop ∧
      linked = { ex with
        dbop
        et := Function.update (match ex.ettail with
            | some prev => Function.update ex.et prev { ex.et prev with next := some et }
            | none => ex.et) et
          { atttype := s.dtype, attoff := s.offset, progptr := ex.pbop
            ninstr := (ex.et et).ninstr, deleted := false, atname := s.atname
            assignop := s.assignop, exprtext := s.expr, next := none }
        ettail := some et
        ethead := some (ex.ethead.getD et) } := by
  obtain ⟨⟨et', ex₁⟩, halloc, h⟩ := bind_eq_ok.1 h
  obtain ⟨ex₂, hname, h⟩ := bind_eq_ok.1 h
  obtain ⟨ex₃, hop, h⟩ := bind_eq_ok.1 h
  obtain ⟨ex₄, hexpr, h⟩ := bind_eq_ok.1 h
  rw [qpexDballoc] at halloc
  split at halloc
  case isTrue => cases halloc
  case isFalse hroom =>
    cases halloc
    obtain ⟨top₂, hle₂, hlt₂, rfl⟩ := qpexDbpstr_eq hname
    obtain ⟨top₃, hle₃, hlt₃, rfl⟩ := qpexDbpstr_eq hop
    obtain ⟨top₄, hle₄, hlt₄, rfl⟩ := qpexDbpstr_eq hexpr
    cases h
    refine ⟨rfl, top₄, ?_, hlt₄, rfl⟩
    dsimp only [lenEtdes, szStruct] at hle₂ hle₃ hle₄
    omega

theorem update_next {cells : Int → ExprTerm} {p : Int} {t : ExprTerm} :
    (fun q => (Function.update cells p t q).next) =
      Function.update (fun q => (cells q).next) p t.next :=
  Function.comp_update ExprTerm.next cells p t

theorem Chained.link (hchain : Chained ex l failed) (h : linkTerm ex s = .ok (et, linked)) :
    Chained linked (l ++ [et]) [] := by
  obtain ⟨rfl, dbop, hdbop, hroom, rfl⟩ := linkTerm_eq h
  obtain ⟨halign, -, hmod⟩ := align_bounds ex.dbop
  have hnext := le_nextTerm ex
  have hnew : ex.nextTerm < coerceStruct dbop ∧ ex.nextTerm < coerceStruct ex.dbtop := by
    rw [Ex.nextTerm, coerceStruct, coerceStruct, coerceStruct, szStruct]
    omega
  have hstart : coerceStruct ex.db ≤ coerceStruct ex.dbop := coerceStruct_mono hchain.start
  have hfresh : ex.nextTerm ∉ l := by
    intro hmem
    have := hchain.below _ hmem
    omega
  have hnodup : (l ++ [ex.nextTerm]).Nodup :=
    List.nodup_append.2 ⟨hchain.nodup, List.nodup_singleton _, by
      rintro p hp q hq rfl
      exact hfresh (List.mem_singleton.1 hq ▸ hp)⟩
  refine ⟨?_, hnodup, ?_, ?_, ?_, .inl ⟨rfl, by simp⟩⟩
  · rw [List.append_nil]
    unfold Ex.etNext
    rw [update_next]
    dsimp only
    rcases hchain.tail with ⟨rfl, htail⟩ | ⟨rfl, htail⟩
    · have hvisits := hchain.visits
      rw [List.append_nil] at hvisits
      rcases List.eq_nil_or_concat l with rfl | ⟨l', y, rfl⟩
      · rw [htail, hvisits.first_eq]
        exact ⟨rfl, Function.update_self ..⟩
      · rw [List.concat_eq_append] at *
        have hhead : some (ex.ethead.getD ex.nextTerm) = ex.ethead := by
          rw [hvisits.first_eq]
          cases l' <;> rfl
        have hne : y ≠ ex.nextTerm := by
          rintro rfl
          exact hfresh (by simp)
        rw [htail, hhead]
        simp only [List.getLast?_append_cons, List.getLast?_singleton]
        rw [update_next, Function.update_comm hne, List.append_assoc]
        exact hvisits.snoc hchain.nodup hfresh
    · have hhead : some (ex.ethead.getD ex.nextTerm) = ex.ethead := by
        rw [hchain.visits.first_eq]
        cases l <;> rfl
      rw [htail, hhead]
      refine hchain.visits.congr fun p hp => ?_
      by_cases hpe : p = ex.nextTerm
      · rw [hpe, Function.update_self]
        have hlast : ex.etNext ex.nextTerm = none := Visits.drop hchain.visits
        exact hlast.symm
      · rw [Function.update_of_ne hpe]
        rfl
  · have := hchain.start
    dsimp only
    omega
  · intro p hp
    rw [List.append_nil, List.mem_append, List.mem_singleton] at hp
    rcases hp with hp | rfl
    · exact hchain.bounds p (List.mem_append_left _ hp)
    · exact ⟨hstart.trans hnext, hnew.2⟩
  · intro p hp
    rw [List.mem_append, List.mem_singleton] at hp
    rcases hp with hp | rfl
    · have hle : coerceStruct ex.dbop ≤ coerceStruct dbop := coerceStruct_mono (by omega)
      exact (hchain.below p hp).trans_le hle
    · exact hnew.1

theorem Chained.adds (hchain : Chained ex l []) (h : Adds ex ex') : Chained ex' l [] where
  visits := by
    unfold Ex.etNext
    rw [h.et, h.ethead]
    exact hchain.visits
  nodup := hchain.nodup
  start := h.db.symm ▸ hchain.start.trans h.dbop
  bounds p hp := by
    rw [h.db, h.dbtop]
    exact hchain.bounds p hp
  below p hp := (hchain.below p hp).trans_le (coerceStruct_mono h.dbop)
  tail := by
    rcases hchain.tail with ⟨-, htail⟩ | ⟨hfailed, -⟩
    · exact .inl ⟨rfl, h.ettail.trans htail⟩
    · cases hfailed

theorem Chained.update (hchain : Chained ex l failed) (p : Int) (t : ExprTerm)
    (ht : t.next = (ex.et p).next) (prog : Int → Instr) :
    Chained { ex with prog, et := Function.update ex.et p t } l failed := by
  have hsame : Ex.etNext { ex with prog, et := Function.update ex.et p t } = ex.etNext := by
    unfold Ex.etNext
    rw [update_next, ht]
    exact Function.update_eq_self p _
  exact { hchain with visits := hsame ▸ hchain.visits }

theorem Chained.free {compiled : Ex} (hchain : Chained ex l failed)
    (hlink : linkTerm ex s = .ok (et, linked)) (hadds : Adds linked compiled) :
    Chained (qpexFree compiled ex.pbop ex.dbop) l [et] ∧
      (qpexFree compiled ex.pbop ex.dbop).ettail = none := by
  have hcompiled := (hchain.link hlink).adds hadds
  obtain ⟨rfl, dbop, hdbop, hroom, rfl⟩ := linkTerm_eq hlink
  have htail : (qpexFree compiled ex.pbop ex.dbop).ettail = none := by
    have hfound : (compiled.eterms.find? fun et =>
        decide (et ≥ coerceStruct ex.dbop)).isSome = true := by
      rw [List.find?_isSome, hcompiled.eterms_eq]
      exact ⟨ex.nextTerm, by simp, by simpa using le_nextTerm ex⟩
    rw [qpexFree]
    exact if_pos hfound
  have hdb : compiled.db = ex.db := hadds.db
  refine ⟨⟨?_, hchain.nodup, ?_, ?_, hchain.below, .inr ⟨rfl, htail⟩⟩, htail⟩
  · have hvisits := hcompiled.visits
    rw [List.append_nil] at hvisits
    exact hvisits
  · exact hdb ▸ hchain.start
  · have hbounds := hcompiled.bounds
    rw [List.append_nil] at hbounds
    exact hbounds

theorem Chained.codegen {c : TermCode} {status : Status} (hchain : Chained ex l failed)
    (h : qpexCodegen c.run ex s = .ok (status, ex')) :
    status = .ok ∧ Chained ex' (l ++ [ex.nextTerm]) [] ∨
      status = .err ∧ Chained ex' l [ex.nextTerm] ∧ ex'.ettail = none := by
  obtain ⟨⟨et, linked⟩, hlink, h⟩ := bind_eq_ok.1 h
  obtain ⟨⟨status', compiled⟩, hrun, h⟩ := bind_eq_ok.1 h
  have het : et = ex.nextTerm := (linkTerm_eq hlink).1
  have hadds := c.adds hrun
  rw [← het]
  cases status' with
  | ok =>
      cases h
      refine .inl ⟨rfl, ((hchain.link hlink).adds hadds).update et _ ?_ _⟩
      rfl
  | err =>
      cases h
      exact .inr ⟨rfl, hchain.free hlink hadds⟩

theorem Chained.deleteTerm (hchain : Chained ex l failed) (p : Int) :
    Chained (deleteTerm ex p) l failed := by
  refine hchain.update p _ ?_ _
  rfl

theorem Chained.deleteLoop (hchain : Chained ex l failed) (etLast offset : Int)
    (dtype : AttrType) (ps : List Int) :
    Chained (deleteLoop etLast offset dtype ps ex) l failed := by
  induction ps generalizing ex with
  | nil => exact hchain
  | cons p ps ih =>
      rw [Qpoe.deleteLoop]
      dsimp only
      split_ifs
      · exact ih hchain
      · exact ih hchain
      · exact hchain.deleteTerm p
      · exact ih (hchain.deleteTerm p)

theorem Chained.delete (hchain : Chained ex l failed) (etLast : Option Int) (offset : Int)
    (dtype : AttrType) : Chained (qpexDelete ex etLast offset dtype) l failed := by
  cases etLast with
  | none => exact hchain
  | some etLast => exact hchain.deleteLoop etLast offset dtype _

/-! ## Histories of a filter -/

/-- What `qpex_modfilter` calls: `qpex_codegen` of a datatype and `qpex_delete`. -/
inductive FilterOp
  | codegen (code : TermCode) (s : Stmt)
  | delete (etLast : Option Int) (offset : Int) (dtype : AttrType)

def FilterOp.run (ex : Ex) : FilterOp → Except QpexFault Ex
  | .codegen code s => do
      let (_, ex) ← qpexCodegen code.run ex s
      return ex
  | .delete etLast offset dtype => .ok (qpexDelete ex etLast offset dtype)

/-- The filters that a history leads to. -/
inductive Reachable : Ex → Prop
  | opened (sizes : LutSizes) (pb pbLen db dbLen : Int) :
      Reachable (qpexOpen sizes pb pbLen db dbLen)
  | next {ex ex' : Ex} (op : FilterOp) : Reachable ex → op.run ex = .ok ex' → Reachable ex'

theorem Reachable.chained (h : Reachable ex) : ∃ l failed, Chained ex l failed := by
  induction h with
  | opened sizes pb pbLen db dbLen =>
      exact ⟨[], [], rfl, List.nodup_nil, le_rfl, by simp, by simp, .inl ⟨rfl, rfl⟩⟩
  | next op _ h ih =>
      obtain ⟨l, failed, hchain⟩ := ih
      cases op with
      | codegen code s =>
          obtain ⟨⟨status, ex'⟩, hcode, h⟩ := bind_eq_ok.1 h
          cases h
          rcases hchain.codegen hcode with ⟨-, hchain'⟩ | ⟨-, hchain', -⟩
          · exact ⟨_, _, hchain'⟩
          · exact ⟨_, _, hchain'⟩
      | delete etLast offset dtype =>
          cases h
          exact ⟨l, failed, hchain.delete etLast offset dtype⟩

/-- The filter is as it was, for all that can be done with it later. -/
structure Unchanged (ex ex' : Ex) : Prop where
  terms : ∃ l, TermList ex l ∧ TermList ex' l
  luts : ex'.luts = ex.luts
  program : ex'.pbop = ex.pbop
  data : ex'.dbop = ex.dbop
  later : ∀ (ops : List FilterOp) (maxch : Nat),
    (ops.foldlM FilterOp.run ex').map (qpexGetfilter · maxch) =
      (ops.foldlM FilterOp.run ex).map (qpexGetfilter · maxch)

/-- In no reachable filter does a term that fails to compile leave the filter as it was:
its descriptor stays on the list, which has no tail then. -/
theorem codegen_err_not_unchanged {c : TermCode} (hreach : Reachable ex)
    (h : qpexCodegen c.run ex s = .ok (.err, ex')) : ¬ Unchanged ex ex' := by
  intro hsame
  obtain ⟨l, failed, hchain⟩ := hreach.chained
  obtain ⟨l', -, hvisits, htail⟩ := hsame.terms
  rcases hchain.codegen h with ⟨hok, -⟩ | ⟨-, hchain', hnone⟩
  · cases hok
  · rw [hnone, eq_comm, List.getLast?_eq_none_iff] at htail
    rw [htail] at hvisits
    have hhead : ex'.ethead ≠ none := by
      rw [hchain'.visits.first_eq]
      cases l <;> simp
    exact hhead hvisits

/-- A new filter with buffers of the default sizes. -/
def newFilter : Ex := qpexOpen ⟨8192, 1024, 5, 15⟩ 1 65536 1 65536

/-- A bitmask term without a number. -/
def badBitmask : Stmt := ⟨['i', '0'], ['='], ['%', 'q'], 0, .int⟩

/-- What `qpex_codegen` returns for the bad bitmask. -/
def failedFilter : Except QpexFault (Status × Ex) :=
  qpexCodegen (integerCode fun _ => (0, 0)).run newFilter badBitmask

theorem failedFilter_err : ∃ ex', failedFilter = .ok (.err, ex') := by
  have hstatus : failedFilter.map Prod.fst = .ok .err := by decide +kernel
  cases h : failedFilter with
  | error fault =>
      rw [h] at hstatus
      cases hstatus
  | ok r =>
      obtain ⟨status, ex'⟩ := r
      rw [h] at hstatus
      cases hstatus
      exact ⟨ex', rfl⟩

theorem codegen_err_not_unchanged_badBitmask :
    ∃ ex', failedFilter = .ok (.err, ex') ∧ ¬ Unchanged newFilter ex' := by
  obtain ⟨ex', h⟩ := failedFilter_err
  exact ⟨ex', h, codegen_err_not_unchanged (.opened _ _ _ _ _) h⟩

/-- The text of the filter is that of the failed term. -/
theorem not_all_unchanged : ¬ ∀ (c : TermCode) (ex : Ex) (s : Stmt) (ex' : Ex), Reachable ex →
    qpexCodegen c.run ex s = .ok (.err, ex') → Unchanged ex ex' := by
  intro hall
  obtain ⟨ex', h⟩ := failedFilter_err
  have hlater := (hall _ _ _ _ (.opened _ _ _ _ _) h).later [] 80
  have htext : failedFilter.map (fun r => qpexGetfilter r.2 80) =
      .ok ['i', '0', ' ', '=', ' ', '%', 'q'] := by decide +kernel
  have hnone : qpexGetfilter newFilter 80 = [] := by decide +kernel
  rw [h] at htext
  have hnew : qpexGetfilter ex' 80 = qpexGetfilter newFilter 80 := Except.ok.inj hlater
  rw [hnone] at hnew
  have htext' : qpexGetfilter ex' 80 = ['i', '0', ' ', '=', ' ', '%', 'q'] := Except.ok.inj htext
  rw [hnew] at htext'
  cases htext'

end Iraf.Qpoe
