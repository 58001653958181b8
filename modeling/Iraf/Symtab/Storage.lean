import Iraf.Symtab.Runs

/-!
# Symbol storage

The blocks and the strings that a table hands out stay inside its buffers exactly if every block
fits when it is allocated.
-/

namespace Iraf.SymbolTable

open Cells Function

variable {st : Symtab} {name : List Int} {lenIndex lenStab szSbuf : Nat}

/-! ## Calls and what they hand out -/

inductive StorageOp
  | enter (key : Key) (values : List Int)
  | alloc (blklen : Nat)
  | pstr (str : List Int) (minchars : Int)
  | squeeze

/-- A table with the blocks of the symbol table and the strings handed out, each an offset and a
length. -/
structure Storage where
  st : Symtab
  blocks : List (Int × Int)
  strings : List (Int × Int)

def Storage.step (t : Storage) : StorageOp → Except Fault Storage
  | .enter key values => do
      let r ← enterFilled t.st key.chars values
      .ok { st := r.1
            blocks := (r.2 - lenSymstruct, lenSymstruct + values.length) :: t.blocks
            strings := (stname r.1 r.2, (key.chars.length : Int) + 1) :: t.strings }
  | .alloc blklen =>
      .ok { t with
        st := (stalloc t.st blklen).1
        blocks := ((stalloc t.st blklen).2, blklen) :: t.blocks }
  | .pstr str minchars => do
      let r ← stpstr t.st str minchars
      .ok { t with st := r.1, strings := (r.2, (str.length : Int) + 1) :: t.strings }
  | .squeeze => .ok { t with st := stsqueeze t.st }

def Storage.run : Storage → List StorageOp → Except Fault Storage
  | t, [] => .ok t
  | t, op :: ops => do
      let t ← t.step op
      t.run ops

def runStorage (name : List Int) (lenIndex lenStab szSbuf : Nat) (ops : List StorageOp) :
    Except Fault Storage := do
  let st ← stopen name lenIndex lenStab szSbuf
  Storage.run { st := st, blocks := [], strings := [] } ops

/-- Two blocks have no location in common. -/
def Apart (b b' : Int × Int) : Prop := b.1 + b.2 ≤ b'.1 ∨ b'.1 + b'.2 ≤ b.1

/-- Blocks and strings lie inside their buffers, and blocks do not overlap. -/
structure Safe (t : Storage) : Prop where
  blocks : ∀ b ∈ t.blocks, 0 ≤ b.1 ∧ b.1 + b.2 ≤ t.st.stablen
  apart : t.blocks.Pairwise Apart
  strings : ∀ b ∈ t.strings, 0 ≤ b.1 ∧ b.1 + b.2 ≤ t.st.sbuflen

/-- No store goes outside of a buffer, and the state that is reached is safe. -/
def Holds : Except Fault Storage → Prop
  | .ok t => Safe t
  | .error fault => fault ≠ .outOfBounds

/-- Every call of a sequence leaves the storage inside its buffers. -/
def StorageSafe (name : List Int) (lenIndex lenStab szSbuf : Nat) (ops : List StorageOp) : Prop :=
  ∀ k, Holds (runStorage name lenIndex lenStab szSbuf (ops.take k))

/-- Without threads a symbol is not stored. -/
def StorageOp.fits (st : Symtab) : StorageOp → Bool
  | .enter _ values => decide (st.indexlen = 0) || st.fits (lenSymstruct + values.length)
  | .alloc blklen => st.fits blklen
  | .pstr _ _ => true
  | .squeeze => true

def Storage.runFits : Storage → List StorageOp → Bool
  | _, [] => true
  | t, op :: ops =>
      op.fits t.st && match t.step op with
        | .ok t' => t'.runFits ops
        | .error _ => true

/-- The table has room for the first character, and every block fits. -/
def storageFits (name : List Int) (lenIndex lenStab szSbuf : Nat) (ops : List StorageOp) : Bool :=
  decide (1 ≤ szSbuf) &&
    match stopen name lenIndex lenStab szSbuf with
    | .ok st => Storage.runFits { st := st, blocks := [], strings := [] } ops
    | .error _ => true

/-! ## The invariant -/

variable {t t' : Storage} {op : StorageOp} {ops : List StorageOp}

/-- What is handed out lies below the tops of the buffers. -/
structure Below (t : Storage) : Prop where
  stabop : 1 ≤ t.st.stabop
  sbufop : 1 ≤ t.st.sbufop
  sbufRoom : t.st.sbufop ≤ t.st.sbuflen
  blocks : ∀ b ∈ t.blocks, 0 ≤ b.1 ∧ b.1 + b.2 ≤ t.st.used
  apart : t.blocks.Pairwise Apart
  strings : ∀ b ∈ t.strings, 0 ≤ b.1 ∧ b.1 + b.2 ≤ t.st.sbufop

theorem Below.safe (h : Below t) : Safe t :=
  ⟨fun b hb => ⟨(h.blocks b hb).1, (h.blocks b hb).2.trans t.st.used_le.2⟩, h.apart,
    fun b hb => ⟨(h.strings b hb).1, (h.strings b hb).2.trans h.sbufRoom⟩⟩

theorem Below.mono (h : Below t) (hstabop : 1 ≤ st.stabop) (hused : t.st.used ≤ st.used)
    (hsbufop : t.st.sbufop ≤ st.sbufop) (hroom : st.sbufop ≤ st.sbuflen) :
    Below { t with st := st } :=
  ⟨hstabop, h.sbufop.trans hsbufop, hroom,
    fun b hb => ⟨(h.blocks b hb).1, (h.blocks b hb).2.trans hused⟩, h.apart,
    fun b hb => ⟨(h.strings b hb).1, (h.strings b hb).2.trans hsbufop⟩⟩

theorem Below.block (h : Below { t with st := st }) {a n : Int} (hlow : t.st.used ≤ a)
    (h0 : 0 ≤ a) (hn : a + n ≤ st.used) (hold : ∀ b ∈ t.blocks, b.1 + b.2 ≤ t.st.used) :
    Below { t with st := st, blocks := (a, n) :: t.blocks } :=
  ⟨h.stabop, h.sbufop, h.sbufRoom, List.forall_mem_cons.mpr ⟨⟨h0, hn⟩, h.blocks⟩,
    List.pairwise_cons.mpr ⟨fun b hb => Or.inr ((hold b hb).trans hlow), h.apart⟩, h.strings⟩

theorem Below.string (h : Below t) {a n : Int} (h0 : 0 ≤ a) (hn : a + n ≤ t.st.sbufop) :
    Below { t with strings := (a, n) :: t.strings } :=
  ⟨h.stabop, h.sbufop, h.sbufRoom, h.blocks, h.apart,
    List.forall_mem_cons.mpr ⟨⟨h0, hn⟩, h.strings⟩⟩

theorem Below.alloc (h : Below t) (blklen : Nat) :
    Below { t with st := (stalloc t.st blklen).1 } := by
  obtain ⟨-, -, -, -, -, -, hop, hroom, -⟩ := stalloc_fields t.st blklen
  refine h.mono (h.stabop.trans (@stalloc_stabop t.st blklen (by omega)).2)
    (stalloc_used (by omega)) hop.ge ?_
  rw [hop, hroom]
  exact h.sbufRoom

theorem stsqueeze_lens (st : Symtab) : (stsqueeze st).stablen = min st.stablen st.stabop ∧
    (stsqueeze st).sbuflen = min st.sbuflen st.sbufop := by
  unfold stsqueeze
  by_cases hstab : st.stablen > st.stabop <;> by_cases hsbuf : st.sbuflen > st.sbufop
  all_goals
    simp only [hstab, hsbuf, if_true, if_false]
    constructor <;> omega

theorem Below.step (h : Below t) (hfits : op.fits t.st = true) :
    (∃ t', t.step op = .ok t' ∧ Below t') ∨ t.step op = .error .divide := by
  have hstabop := h.stabop
  have hsbufop := h.sbufop
  have hnext := nextOffset_bounds t.st
  have hused := used_le_nextOffset t.st
  have hold := fun b hb => (h.blocks b hb).2
  cases op with
  | enter key values =>
      rw [StorageOp.fits, Bool.or_eq_true, decide_eq_true_eq] at hfits
      by_cases hindex : t.st.indexlen = 0
      · refine Or.inr ?_
        rw [Storage.step, enterFilled_divide hindex]
        rfl
      have hfits := hfits.resolve_left hindex
      have hn : (0 : Int) ≤ lenSymstruct + values.length := by simp only [lenSymstruct]; omega
      have hrun := enterFilled_eq h.stabop h.sbufop h.sbufRoom hindex key values
      rw [if_pos hfits] at hrun
      obtain ⟨hstablen, hop, -⟩ := added_fields t.st key values.length
      obtain ⟨hlow, hroom⟩ := entered_sbufop h.sbufRoom key values
      have htop := @stalloc_stabop t.st _ hn
      have hgrown : t.st.used ≤ (t.st.entered key values).used := by
        refine (@stalloc_used t.st _ hn).trans (le_of_eq ?_)
        rw [Symtab.used, Symtab.used, ← hstablen, ← hop]
        rfl
      have hmono := @Below.mono (t.st.entered key values) t h ((h.stabop.trans htop.2).trans hop.ge)
        hgrown (by omega) hroom
      have hblock := hmono.block hused (by omega)
        (le_min (htop.1.trans hop.ge)
          (((@stalloc_room_iff t.st _ hn).mpr hfits).trans hstablen.ge)) hold
      have hstring := hblock.string (a := t.st.sbufop) (n := (key.chars.length : Int) + 1)
        (by omega) (by rw [← Int.add_assoc]; exact hlow)
      refine Or.inl ⟨_, ?_, hstring⟩
      have hname : stname (t.st.entered key values) (t.st.nextOffset + lenSymstruct) =
          t.st.sbufop := by
        rw [stname, Int.add_sub_cancel]
        exact (entered_cells t.st key values).2.2.2.1
      rw [Storage.step, hrun]
      change Except.ok _ = _
      rw [hname, Int.add_sub_cancel]
  | alloc blklen =>
      have hroom := (@stalloc_room_iff t.st blklen (by omega)).mpr hfits
      have htop := @stalloc_stabop t.st blklen (by omega)
      have h0 : 0 ≤ t.st.nextOffset := by omega
      exact Or.inl ⟨_, rfl, (h.alloc blklen).block hused h0 (le_min htop.1 hroom) hold⟩
  | pstr str minchars =>
      obtain ⟨-, -, -, -, -, -, hop, hstablen⟩ := withString_fields t.st str minchars
      obtain ⟨hlow, hroom⟩ := withString_sbufop h.sbufRoom str minchars
      have hsame : (t.st.withString str minchars).used = t.st.used := by
        rw [Symtab.used, hop, hstablen, Symtab.used]
      have hmono := @Below.mono (t.st.withString str minchars) t h (hop.symm ▸ h.stabop) hsame.ge
        (by omega) hroom
      refine Or.inl ⟨_, ?_, hmono.string (a := t.st.sbufop) (n := (str.length : Int) + 1) (by omega)
        (by rw [← Int.add_assoc]; exact hlow)⟩
      rw [Storage.step, stpstr_eq h.sbufop h.sbufRoom]
      rfl
  | squeeze =>
      obtain ⟨-, -, -, -, hop, hsop⟩ := stsqueeze_fields t.st
      obtain ⟨hlen, hslen⟩ := stsqueeze_lens t.st
      have hroom := h.sbufRoom
      refine Or.inl ⟨_, rfl, h.mono (hop.symm ▸ h.stabop) ?_ hsop.ge ?_⟩
      · rw [Symtab.used, Symtab.used, hop, hlen]
        omega
      · rw [hsop, hslen]
        omega

/-- A call that does not fit stores outside of a buffer, or hands out a block outside. -/
theorem Below.step_unfit (h : Below t) (hfits : op.fits t.st = false) : ¬ Holds (t.step op) := by
  cases op with
  | enter key values =>
      rw [StorageOp.fits, Bool.or_eq_false_iff, decide_eq_false_iff_not] at hfits
      rw [Storage.step, enterFilled_eq h.stabop h.sbufop h.sbufRoom hfits.1, hfits.2,
        if_neg Bool.false_ne_true]
      exact fun hfault => hfault rfl
  | alloc blklen =>
      intro hsafe
      have hroom := (hsafe.blocks _ List.mem_cons_self).2
      have hfit := (@stalloc_room_iff t.st blklen (by omega)).mp hroom
      exact Bool.false_ne_true (hfits.symm.trans hfit)
  | pstr str minchars | squeeze => exact absurd hfits.symm Bool.false_ne_true

/-! ## Runs -/

theorem Below.run_iff (h : Below t) :
    (∀ k, Holds (t.run (ops.take k))) ↔ t.runFits ops = true := by
  induction ops generalizing t with
  | nil =>
      refine ⟨fun _ => rfl, fun _ k => ?_⟩
      rw [List.take_nil]
      exact h.safe
  | cons op ops ih =>
      -- the first call is made by all prefixes but the empty one
      have hsucc : ∀ k, t.run ((op :: ops).take (k + 1)) =
          t.step op >>= fun t' => t'.run (ops.take k) := fun k => by
        rw [List.take_succ_cons, Storage.run]
      have hprefixes : (∀ k, Holds (t.run ((op :: ops).take k))) ↔
          ∀ k, Holds (t.step op >>= fun t' => t'.run (ops.take k)) := by
        refine ⟨fun hall k => hsucc k ▸ hall (k + 1), fun hall k => ?_⟩
        cases k with
        | zero => exact h.safe
        | succ k =>
            rw [hsucc]
            exact hall k
      rw [hprefixes, Storage.runFits, Bool.and_eq_true]
      cases hfits : op.fits t.st with
      | true =>
          rw [and_iff_right rfl]
          rcases h.step hfits with ⟨t', hstep, hbelow⟩ | hstep
          · rw [hstep]
            exact ih hbelow
          · rw [hstep]
            exact ⟨fun _ => rfl, fun _ _ hfault => Fault.noConfusion hfault⟩
      | false =>
          refine ⟨fun hall => absurd ?_ (h.step_unfit hfits),
            fun hboth => absurd hboth.1 Bool.false_ne_true⟩
          have hfirst := hall 0
          rw [List.take_zero] at hfirst
          cases hstep : t.step op with
          | ok t' =>
              rw [hstep] at hfirst
              exact hfirst
          | error fault =>
              rw [hstep] at hfirst
              exact hfirst

/-- Symbol storage stays inside its buffers exactly if every block fits. -/
theorem storageSafe_iff (name : List Int) (lenIndex lenStab szSbuf : Nat) (ops : List StorageOp) :
    StorageSafe name lenIndex lenStab szSbuf ops ↔
      storageFits name lenIndex lenStab szSbuf ops = true := by
  rw [storageFits, Bool.and_eq_true, decide_eq_true_eq]
  by_cases hbuf : 1 ≤ szSbuf
  · obtain ⟨st, hopen, hinv⟩ := stopen_inv hbuf name lenIndex lenStab
    have hbelow : Below ⟨st, [], []⟩ :=
      ⟨hinv.stabop, hinv.sbufop, hinv.sbufRoom, nofun, List.Pairwise.nil, nofun⟩
    rw [StorageSafe, hopen, and_iff_right hbuf]
    refine Iff.trans (forall_congr' fun k => ?_) hbelow.run_iff
    rw [runStorage, hopen]
    exact Iff.rfl
  · refine ⟨fun hall => ?_, fun hboth => absurd hboth.1 hbuf⟩
    have hfirst := hall 0
    have hstore : storeSbuf (emptyTable lenIndex lenStab szSbuf) 0 [0] = .error .outOfBounds :=
      if_neg fun hroom => hbuf (Int.ofNat_le.mp hroom.2)
    rw [runStorage, stopen, hstore] at hfirst
    exact absurd rfl hfirst

/-- A table opened with three words: the block of two words lies past its end. -/
theorem not_storageSafe_squeezed : ¬ StorageSafe [] 1 3 8 [.squeeze, .alloc 2] := by
  intro hall
  have hsafe := hall 2
  have hblocks : (runStorage [] 1 3 8 [.squeeze, .alloc 2]).map (fun t => (t.blocks, t.st.stablen)) =
      .ok ([(2, 2)], 3) := rfl
  rw [show List.take 2 [StorageOp.squeeze, .alloc 2] = [.squeeze, .alloc 2] from rfl] at hsafe
  cases hrun : runStorage [] 1 3 8 [.squeeze, .alloc 2] with
  | ok t =>
      rw [hrun] at hsafe hblocks
      obtain ⟨hb, hlen⟩ := Prod.mk.inj (Except.ok.inj hblocks)
      have hroom := (hsafe.blocks (2, 2) (hb ▸ List.mem_cons_self)).2
      rw [hlen] at hroom
      exact absurd hroom (by decide)
  | error fault =>
      rw [hrun] at hblocks
      cases hblocks

end Iraf.SymbolTable
