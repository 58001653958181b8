import Iraf.Memio.Heap
import Iraf.Lib.StepMachine

/-!
# The stack allocator

`salloc` takes storage from the current segment, and `stk_mkseg` asks `kmalloc` for another one
when it is full.  Positions in the stack are pointers to chars.

Segments do not meet, and the stack pointer stays in its segment: so blocks are disjoint, and a mark
leads back to its segment.  A block may reach past the memory of its segment, because the size of
the segment is rounded down.
-/

namespace Iraf.Memio

@[simp] abbrev szStack : Int := 8192
@[simp] abbrev szStkhdr : Int := 16
@[simp] abbrev szStruct : Int := 4

inductive StackFault
  /-- `Out of memory`. -/
  | memoryFull
  /-- `Salloc underflow`. -/
  | underflow
  /-- The caller has no such mark. -/
  | noMark
  deriving DecidableEq, Repr

/-- A segment that is held: its header and how many structs were asked of `kmalloc`. -/
structure Segment where
  seg : Int
  size : Int
  shBase : Int
  shTop : Int
  deriving DecidableEq, Repr

namespace Segment

/-- The first char of the memory of a segment. -/
def first (s : Segment) : Int := coerce s.seg .struct .char

/-- The end of the memory that was asked for. -/
def last (s : Segment) : Int := s.first + s.size * szStruct

end Segment

/-- Where the heap has room for so many structs, given the segments that are held. -/
structure Kmalloc where
  place : List Segment → Int → Option Int
  aligned : ∀ {held n p}, place held n = some p → szMemalign ∣ coerce p .struct .char - 1
  apart : ∀ {held n p}, place held n = some p → ∀ s ∈ held,
    coerce p .struct .char + n * szStruct ≤ s.first ∨ s.last ≤ coerce p .struct .char

/-- The common of the stack allocator.  The segments are linked from the current one on. -/
structure Salcom where
  sp : Int
  segs : List Segment
  deriving DecidableEq, Repr

/-! ## The procedures -/

def stkMkseg (kmalloc : Kmalloc) (segs : List Segment) (segmentSize : Int) :
    Except StackFault Salcom :=
  let nchars := max szStack segmentSize + szStkhdr
  match kmalloc.place segs (nchars.tdiv szStruct) with
  | none => .error .memoryFull
  | some newSeg =>
    let sp := coerce newSeg .struct .char + szStkhdr
    .ok ⟨sp, ⟨newSeg, nchars.tdiv szStruct, sp, sp - szStkhdr + nchars⟩ :: segs⟩

/-- There is always room for an end of string. -/
def stackChars (nelem : Nat) (dtype : Datatype) : Int :=
  if dtype = .char then nelem + 1 else nelem * tySize dtype + 1

def alignSp (sp : Int) : Int :=
  (sp + szMemalign - 1).tdiv szMemalign * szMemalign + 1

/-- The pointer to the storage, and the stack after it. -/
def salloc (kmalloc : Kmalloc) (com : Salcom) (nelem : Nat) (dtype : Datatype) :
    Except StackFault (Int × Salcom) := do
  let sp := alignSp com.sp
  let nchars := stackChars nelem dtype
  let com ← match com.segs with
    | [] => stkMkseg kmalloc [] nchars
    | curSeg :: segs =>
      if sp + nchars ≥ curSeg.shTop then stkMkseg kmalloc (curSeg :: segs) nchars
      else .ok ⟨sp, curSeg :: segs⟩
  let ptr := if dtype = .char then com.sp else (com.sp - 1).tdiv (tySize dtype) + 1
  .ok (ptr, ⟨com.sp + nchars, com.segs⟩)

/-- The first mark of all makes the first segment. -/
def smark (kmalloc : Kmalloc) (firstTime : Bool) (com : Salcom) :
    Except StackFault (Int × Salcom) := do
  let com ← if firstTime then stkMkseg kmalloc [] szStack else .ok com
  .ok (com.sp, com)

/-- Segments are returned until the one with the old stack pointer is reached. -/
def popSegs (oldSp : Int) : List Segment → Except StackFault (List Segment)
  | [] => .error .underflow
  | curSeg :: segs =>
    if oldSp < curSeg.shBase ∨ oldSp > curSeg.shTop then popSegs oldSp segs
    else .ok (curSeg :: segs)

def sfree (com : Salcom) (oldSp : Int) : Except StackFault Salcom :=
  if com.segs = [] then .ok com
  else (popSegs oldSp com.segs).map fun segs => ⟨oldSp, segs⟩

/-! ## The callers -/

/-- Storage that a caller uses, in the segment that was current when it was allocated. -/
structure StackBlock where
  segment : Segment
  ptr : Int
  nelem : Nat
  dtype : Datatype
  deriving DecidableEq, Repr

namespace StackBlock

def first (b : StackBlock) : Int := coerce b.ptr b.dtype .char

def last (b : StackBlock) : Int := b.first + stackChars b.nelem b.dtype

end StackBlock

/-- What `smark` returned, and what the stack was then. -/
structure Mark where
  oldSp : Int
  segs : List Segment
  blocks : List StackBlock

/-- The stack, the blocks that are in use and the marks that were taken. -/
structure Task where
  com : Salcom
  blocks : List StackBlock
  marks : List Mark

inductive Call
  | smark (kmalloc : Kmalloc)
  | salloc (kmalloc : Kmalloc) (nelem : Nat) (dtype : Datatype)
  /-- Calls `sfree` with an outer mark.  The marks taken since are not used any more. -/
  | sfree (depth : Nat)

def Task.mark (t : Task) (kmalloc : Kmalloc) (firstTime : Bool) : Except StackFault Task := do
  let (oldSp, com) ← Memio.smark kmalloc firstTime t.com
  .ok { t with com, marks := ⟨oldSp, com.segs, t.blocks⟩ :: t.marks }

def Task.step (t : Task) : Call → Except StackFault Task
  | .smark kmalloc => t.mark kmalloc false
  | .salloc kmalloc nelem dtype => do
    let (ptr, com) ← Memio.salloc kmalloc t.com nelem dtype
    .ok { t with com, blocks := com.segs.head?.toList.map (⟨·, ptr, nelem, dtype⟩) ++ t.blocks }
  | .sfree depth =>
    match t.marks.drop depth with
    | [] => .error .noMark
    | mark :: marks => do
      let com ← Memio.sfree t.com mark.oldSp
      .ok ⟨com, mark.blocks, mark :: marks⟩

/-- A task is started with a mark. -/
def Task.run (kmalloc : Kmalloc) (calls : List Call) : Except StackFault Task := do
  let t ← Task.mark ⟨⟨0, []⟩, [], []⟩ kmalloc true
  calls.foldlM Task.step t

/-! ## What a stack allocator has to do -/

/-- The storage of a task is disjoint, aligned and in the memory that was asked for, and a mark
leads back to the stack that it was taken of. -/
structure StackSafe (t : Task) : Prop where
  disjoint : t.blocks.Pairwise fun b c => b.last ≤ c.first ∨ c.last ≤ b.first
  aligned : ∀ b ∈ t.blocks, szMemalign ∣ b.first - 1
  inside : ∀ b ∈ t.blocks, b.segment ∈ t.com.segs ∧ b.segment.first + szStkhdr ≤ b.first ∧
    b.last ≤ b.segment.last
  restored : ∀ mark ∈ t.marks, sfree t.com mark.oldSp = .ok ⟨mark.oldSp, mark.segs⟩

/-- A large request is a multiple of the units in which memory is asked for. -/
def Whole (nelem : Nat) (dtype : Datatype) : Prop :=
  szStack < stackChars nelem dtype → szStruct ∣ stackChars nelem dtype

/-! ## The storage of a task -/

variable {kmalloc : Kmalloc} {asked : Nat → Datatype → Prop} {s s' : Segment}
  {segs older : List Segment} {com com' : Salcom} {b c : StackBlock} {blocks : List StackBlock}
  {t u : Task} {nelem depth : Nat} {dtype : Datatype} {sp size ptr oldSp : Int} {call : Call}
  {calls : List Call}

theorem malloc1_struct_aligned {locMem fwa : Int} (m : Cells.Memory Int)
    (h : Exact locMem fwa .struct szMemalign locMem) :
    szMemalign ∣ coerce (malloc1 locMem m fwa .struct szMemalign locMem).2 .struct .char - 1 := by
  have harea := dataArea_eq (by decide) h
  have haligned := bufadr_aligned fwa szMemalign locMem
  rw [← harea] at haligned
  change szMemalign ∣ (coerce (mgdptr locMem fwa .int szMemalign locMem) .int .struct - 1) * 4 + 1 - 1
  change szMemalign ∣ locMem +
    (coerce (mgdptr locMem fwa .int szMemalign locMem) .int .struct - 1) * 4 - locMem at haligned
  rwa [add_sub_cancel_right, ← add_sub_cancel_left locMem (_ * 4)]

/-! ## Segments -/

/-- A segment as `stkMkseg` makes it. -/
structure Segment.Made (s : Segment) : Prop where
  aligned : szMemalign ∣ s.first - 1
  base : s.shBase = s.first + szStkhdr
  room : szStack ≤ s.shTop - s.shBase
  size : s.size = (s.shTop - s.first).tdiv szStruct

theorem Segment.Made.last_le (h : s.Made) :
    s.last = s.shTop - (s.shTop - s.shBase) % szStruct := by
  obtain ⟨-, hbase, hroom, hsize⟩ := h
  rw [Int.tdiv_eq_ediv_of_nonneg (by simp only [szStack, szStkhdr] at *; omega)] at hsize
  simp only [Segment.last, szStack, szStkhdr, szStruct] at *
  omega

/-- The positions in a segment are not positions in another one. -/
def Apart (s s' : Segment) : Prop := s.shTop < s'.shBase ∨ s'.shTop < s.shBase

theorem Segment.Made.apart (h : s.Made) (h' : s'.Made)
    (hmem : s.last ≤ s'.first ∨ s'.last ≤ s.first) : Apart s s' := by
  have hlast := h.last_le
  have hlast' := h'.last_le
  have hbase := h.base
  have hbase' := h'.base
  simp only [szStkhdr, szStruct, Apart] at *
  omega

/-- The segments that are held. -/
structure Chain (segs : List Segment) : Prop where
  made : ∀ s ∈ segs, s.Made
  apart : segs.Pairwise Apart

theorem Chain.suffix (h : Chain segs) (hsuffix : older <:+ segs) : Chain older :=
  ⟨fun s hs => h.made s (hsuffix.mem hs), h.apart.sublist hsuffix.sublist⟩

theorem stkMkseg_spec (h : Chain segs) (hmade : stkMkseg kmalloc segs size = .ok com) :
    ∃ s, com = ⟨s.shBase, s :: segs⟩ ∧ s.shTop - s.shBase = max szStack size ∧
      Chain (s :: segs) := by
  unfold stkMkseg at hmade
  simp only at hmade
  split at hmade
  · cases hmade
  next newSeg hplace =>
    have hnew : Segment.Made ⟨newSeg, (max szStack size + szStkhdr).tdiv szStruct,
        coerce newSeg .struct .char + szStkhdr,
        coerce newSeg .struct .char + szStkhdr - szStkhdr + (max szStack size + szStkhdr)⟩ := by
      refine ⟨kmalloc.aligned hplace, rfl, ?_, ?_⟩
      · simp only [szStack, szStkhdr]
        omega
      · simp only [Segment.first]
        congr 1
        omega
    refine ⟨_, (Except.ok.inj hmade).symm, ?_, List.forall_mem_cons.mpr ⟨hnew, h.made⟩,
      h.apart.cons fun s hs => ?_⟩
    · change coerce newSeg .struct .char + szStkhdr - szStkhdr + (max szStack size + szStkhdr) -
        (coerce newSeg .struct .char + szStkhdr) = _
      omega
    · exact hnew.apart (h.made s hs) (kmalloc.apart hplace s hs)

/-! ## Positions -/

/-- Where a stack pointer may be in its segment: if the segment was made for a large request, this
request fills it. -/
structure Segment.Holds (s : Segment) (sp : Int) : Prop where
  above : s.shBase ≤ sp
  below : sp ≤ s.shTop
  filled : s.shTop - s.shBase = szStack ∨ sp = s.shTop

/-- Where a block lies. -/
structure StackBlock.Placed (b : StackBlock) : Prop where
  aligned : szMemalign ∣ b.first - 1
  above : b.segment.shBase ≤ b.first
  below : b.last ≤ b.segment.shTop
  filled : b.segment.shTop - b.segment.shBase = szStack ∨
    b.first = b.segment.shBase ∧ b.last = b.segment.shTop

/-- What a stack pointer, its segments and the blocks in use are to each other. -/
structure Position (asked : Nat → Datatype → Prop) (sp : Int) (segs : List Segment)
    (blocks : List StackBlock) : Prop where
  chain : Chain segs
  current : ∃ s older, segs = s :: older ∧ s.Holds sp ∧
    ∀ b ∈ blocks, b.segment = s → b.last ≤ sp
  held : ∀ b ∈ blocks, b.segment ∈ segs ∧ b.Placed ∧ asked b.nelem b.dtype
  disjoint : blocks.Pairwise fun b c => b.last ≤ c.first ∨ c.last ≤ b.first

/-- A block is in the memory of its segment exactly if its size was a multiple of the units. -/
theorem StackBlock.Placed.inside_iff (h : b.Placed) (hmade : b.segment.Made) :
    b.last ≤ b.segment.last ↔ Whole b.nelem b.dtype := by
  have hlast := hmade.last_le
  have hroom := hmade.room
  have hbelow := h.below
  have habove := h.above
  have hchars : b.last = b.first + stackChars b.nelem b.dtype := rfl
  unfold Whole
  simp only [szStack, szStruct] at *
  rcases h.filled with hfilled | ⟨hfirst, hend⟩
  · simp only [szStack] at hfilled
    omega
  · omega

/-! ## Allocation -/

theorem alignSp_spec (sp : Int) : sp ≤ alignSp sp ∧ szMemalign ∣ alignSp sp - 1 := by
  have hdiv := Int.mul_tdiv_add_tmod (sp + szMemalign - 1) szMemalign
  have hlt := Int.tmod_lt_of_pos (sp + szMemalign - 1) (show 0 < szMemalign by decide)
  unfold alignSp
  simp only [szMemalign] at *
  omega

theorem stackChars_pos (nelem : Nat) (dtype : Datatype) : 1 ≤ stackChars nelem dtype := by
  have hpos := mul_nonneg (Int.natCast_nonneg nelem) (show 0 ≤ tySize dtype by cases dtype <;> decide)
  unfold stackChars
  split <;> omega

theorem coerce_position (h : szMemalign ∣ sp - 1) (dtype : Datatype) :
    coerce (if dtype = .char then sp else (sp - 1).tdiv (tySize dtype) + 1) dtype .char = sp := by
  have hdvd : tySize dtype ∣ sp - 1 := dvd_trans (by cases dtype <;> decide) h
  by_cases hchar : dtype = .char
  · simp [coerce, hchar, tySize]
  · have hmul := Int.tdiv_mul_cancel hdvd
    simp only [coerce, if_neg hchar, if_true, add_sub_cancel_right]
    omega

/-- Where a block of a size is to be put. -/
structure Room (com : Salcom) (size : Int) (blocks : List StackBlock) (com' : Salcom) : Prop where
  chain : Chain com'.segs
  suffix : com.segs <:+ com'.segs
  aligned : szMemalign ∣ com'.sp - 1
  current : ∃ s older, com'.segs = s :: older ∧ s.shBase ≤ com'.sp ∧ com'.sp + size ≤ s.shTop ∧
    (s.shTop - s.shBase = szStack ∨ com'.sp = s.shBase ∧ com'.sp + size = s.shTop) ∧
    ∀ b ∈ blocks, b.segment = s → b.last ≤ com'.sp

theorem room_stkMkseg (hchain : Chain com.segs) (hheld : ∀ b ∈ blocks, b.segment ∈ com.segs)
    (h : stkMkseg kmalloc com.segs size = .ok com') : Room com size blocks com' := by
  obtain ⟨s, hcom, hsize, hnew⟩ := stkMkseg_spec hchain h
  rw [hcom]
  have hmade := hnew.made s List.mem_cons_self
  have haligned := hmade.aligned
  have hbase := hmade.base
  simp only [szStkhdr, szMemalign, szStack] at hbase haligned hsize
  refine ⟨hnew, List.suffix_cons _ _, ?_, s, com.segs, rfl, le_rfl, ?_, ?_, ?_⟩
  · simp only [szMemalign]
    omega
  · simp only
    omega
  · simp only [szStack, true_and]
    omega
  · intro b hb hbs
    have hapart := (List.pairwise_cons.mp hnew.apart).1 s (hbs ▸ hheld b hb)
    rcases hapart with hlt | hlt <;> omega

/-- The storage in a current segment that has room ends before its top, so the segment was not made
for a large request. -/
theorem room_current (h : Position asked com.sp com.segs blocks) (hsegs : com.segs = s :: older)
    (hsize : 1 ≤ size) (hfits : ¬ alignSp com.sp + size ≥ s.shTop) :
    Room com size blocks ⟨alignSp com.sp, s :: older⟩ := by
  obtain ⟨hle, haligned⟩ := alignSp_spec com.sp
  obtain ⟨s', older', hcurrent, hholds, hbelow⟩ := h.current
  obtain ⟨rfl, -⟩ := List.cons.inj (hsegs.symm.trans hcurrent)
  have habove := hholds.above
  refine ⟨hsegs ▸ h.chain, hsegs ▸ List.suffix_rfl, haligned, s, older, rfl, ?_, ?_, ?_, ?_⟩
  · simp only
    omega
  · simp only
    omega
  · refine Or.inl (hholds.filled.resolve_right ?_)
    omega
  · intro b hb hbs
    exact (hbelow b hb hbs).trans hle

theorem salloc_room (h : Position asked com.sp com.segs blocks)
    (hrun : salloc kmalloc com nelem dtype = .ok (ptr, com')) :
    ∃ room, Room com (stackChars nelem dtype) blocks room ∧
      com' = ⟨room.sp + stackChars nelem dtype, room.segs⟩ ∧
      coerce ptr dtype .char = room.sp := by
  obtain ⟨s, older, hsegs, -⟩ := h.current
  have hheld : ∀ b ∈ blocks, b.segment ∈ com.segs := fun b hb => (h.held b hb).1
  unfold salloc at hrun
  simp only [hsegs] at hrun
  by_cases hfits : alignSp com.sp + stackChars nelem dtype ≥ s.shTop
  · rw [if_pos hfits, ← hsegs] at hrun
    obtain ⟨room, hplace, hresult⟩ := bind_eq_ok.mp hrun
    obtain ⟨hptr, hcom⟩ := Prod.mk.inj (Except.ok.inj hresult)
    have hspec := room_stkMkseg h.chain hheld hplace
    exact ⟨room, hspec, hcom.symm, hptr ▸ coerce_position hspec.aligned dtype⟩
  · rw [if_neg hfits] at hrun
    have hspec := room_current h hsegs (stackChars_pos nelem dtype) hfits
    obtain ⟨hptr, hcom⟩ := Prod.mk.inj (Except.ok.inj hrun)
    exact ⟨_, hspec, hcom.symm, hptr ▸ coerce_position hspec.aligned dtype⟩

theorem StackBlock.Placed.disjoint (hb : b.Placed) (hc : c.Placed)
    (hapart : Apart b.segment c.segment) : b.last ≤ c.first ∨ c.last ≤ b.first := by
  have habove := hb.above
  have hbelow := hb.below
  have habove' := hc.above
  have hbelow' := hc.below
  unfold Apart at hapart
  omega

theorem salloc_spec (h : Position asked com.sp com.segs blocks) (hasked : asked nelem dtype)
    (hrun : salloc kmalloc com nelem dtype = .ok (ptr, com')) :
    ∃ s older, com'.segs = s :: older ∧ com.segs <:+ com'.segs ∧
      Position asked com'.sp com'.segs (⟨s, ptr, nelem, dtype⟩ :: blocks) := by
  obtain ⟨room, hroom, rfl, hptr⟩ := salloc_room h hrun
  obtain ⟨s, older, hsegs, hbase, htop, hfilled, hothers⟩ := hroom.current
  have hpos := stackChars_pos nelem dtype
  -- the new block starts at the position of the room
  have hfirst : StackBlock.first ⟨s, ptr, nelem, dtype⟩ = room.sp := hptr
  have hlast : StackBlock.last ⟨s, ptr, nelem, dtype⟩ = room.sp + stackChars nelem dtype := by
    rw [StackBlock.last, hfirst]
  have hplaced : StackBlock.Placed ⟨s, ptr, nelem, dtype⟩ := by
    refine ⟨hfirst ▸ hroom.aligned, hfirst ▸ hbase, hlast ▸ htop, ?_⟩
    rw [hfirst, hlast]
    exact hfilled
  refine ⟨s, older, hsegs, hroom.suffix, hroom.chain, ⟨s, older, hsegs, ?_, ?_⟩, ?_, ?_⟩
  · refine ⟨?_, htop, hfilled.imp_right And.right⟩
    simp only
    omega
  · refine List.forall_mem_cons.mpr ⟨fun _ => hlast.le, fun b hb hbs => ?_⟩
    have := hothers b hb hbs
    simp only
    omega
  · refine List.forall_mem_cons.mpr ⟨⟨?_, hplaced, hasked⟩, fun b hb => ?_⟩
    · rw [hsegs]
      exact List.mem_cons_self
    · exact ⟨hroom.suffix.mem (h.held b hb).1, (h.held b hb).2⟩
  · refine List.pairwise_cons.mpr ⟨fun b hb => ?_, h.disjoint⟩
    have hmem := hroom.suffix.mem (h.held b hb).1
    rw [hsegs] at hmem
    rcases List.mem_cons.mp hmem with hs | hold
    · have := hothers b hb hs
      rw [hfirst]
      exact Or.inr this
    · have hapart := hroom.chain.apart
      rw [hsegs] at hapart
      exact hplaced.disjoint (h.held b hb).2.1 ((List.pairwise_cons.mp hapart).1 _ hold)

/-! ## Freeing -/

theorem popSegs_suffix (hchain : Chain segs) (hsuffix : s :: older <:+ segs) (hholds : s.Holds oldSp) :
    popSegs oldSp segs = .ok (s :: older) := by
  induction segs with
  | nil => simp at hsuffix
  | cons curSeg segs ih =>
    rcases List.suffix_cons_iff.mp hsuffix with heq | hlater
    · obtain ⟨rfl, rfl⟩ := List.cons.inj heq
      have habove := hholds.above
      have hbelow := hholds.below
      rw [popSegs, if_neg (by omega)]
    · -- a later segment does not hold the position
      have hapart := (List.pairwise_cons.mp hchain.apart).1 s (hlater.mem List.mem_cons_self)
      have habove := hholds.above
      have hbelow := hholds.below
      unfold Apart at hapart
      rw [popSegs, if_pos (by omega)]
      exact ih (hchain.suffix (List.suffix_cons _ _)) hlater

theorem sfree_position {com : Salcom} (hchain : Chain com.segs)
    (h : Position asked oldSp segs blocks) (hsuffix : segs <:+ com.segs) :
    sfree com oldSp = .ok ⟨oldSp, segs⟩ := by
  obtain ⟨s, older, rfl, hholds, -⟩ := h.current
  have hsome : com.segs ≠ [] := List.ne_nil_of_mem (hsuffix.mem List.mem_cons_self)
  rw [sfree, if_neg hsome, popSegs_suffix hchain hsuffix hholds]
  rfl

/-! ## Tasks -/

/-- What the calls keep, with what was asked for. -/
structure Task.Inv (asked : Nat → Datatype → Prop) (t : Task) : Prop where
  position : Position asked t.com.sp t.com.segs t.blocks
  marks : ∀ mark ∈ t.marks, Position asked mark.oldSp mark.segs mark.blocks ∧
    mark.segs <:+ t.com.segs
  nested : t.marks.Pairwise fun mark outer => outer.segs <:+ mark.segs

/-- What a call asks for. -/
def Call.Asks (asked : Nat → Datatype → Prop) : Call → Prop
  | .salloc _ nelem dtype => asked nelem dtype
  | _ => True

theorem Task.Inv.mark (h : t.Inv asked) :
    Task.Inv asked { t with marks := ⟨t.com.sp, t.com.segs, t.blocks⟩ :: t.marks } := by
  refine ⟨h.position, List.forall_mem_cons.mpr ⟨⟨h.position, List.suffix_rfl⟩, h.marks⟩,
    h.nested.cons fun mark hmark => (h.marks mark hmark).2⟩

theorem Task.Inv.sfree {mark : Mark} {marks : List Mark} (h : t.Inv asked)
    (hmarks : t.marks.drop depth = mark :: marks) (hrun : sfree t.com mark.oldSp = .ok com') :
    Task.Inv asked ⟨com', mark.blocks, mark :: marks⟩ := by
  have hsub := hmarks ▸ List.drop_sublist depth t.marks
  have hmark := h.marks mark (hsub.mem List.mem_cons_self)
  have hnested := h.nested.sublist hsub
  rw [sfree_position h.position.chain hmark.1 hmark.2] at hrun
  cases hrun
  refine ⟨hmark.1, fun outer houter => ?_, hnested⟩
  refine ⟨(h.marks outer (hsub.mem houter)).1, ?_⟩
  rcases List.mem_cons.mp houter with rfl | houter
  · exact List.suffix_rfl
  · exact (List.pairwise_cons.mp hnested).1 outer houter

theorem Task.Inv.salloc (h : t.Inv asked)
    (hsuffix : t.com.segs <:+ com'.segs)
    (hposition : Position asked com'.sp com'.segs (b :: t.blocks)) :
    Task.Inv asked { t with com := com', blocks := b :: t.blocks } :=
  ⟨hposition, fun mark hmark => ⟨(h.marks mark hmark).1, (h.marks mark hmark).2.trans hsuffix⟩,
    h.nested⟩

theorem Task.step_salloc (h : t.Inv asked) (hasked : asked nelem dtype)
    (hrun : t.step (.salloc kmalloc nelem dtype) = .ok u) :
    ∃ b, u.blocks = b :: t.blocks ∧ b.nelem = nelem ∧ b.dtype = dtype ∧ u.Inv asked := by
  obtain ⟨⟨ptr, com⟩, hsalloc, hu⟩ := bind_eq_ok.mp hrun
  obtain ⟨s, older, hsegs, hsuffix, hposition⟩ := salloc_spec h.position hasked hsalloc
  simp only [hsegs] at hu
  rw [← Except.ok.inj hu]
  exact ⟨_, rfl, rfl, rfl, h.salloc hsuffix hposition⟩

theorem Task.step_inv (h : t.Inv asked) (hasks : call.Asks asked) (hrun : t.step call = .ok u) :
    u.Inv asked := by
  cases call with
  | smark kmalloc =>
    cases hrun
    exact h.mark
  | salloc kmalloc nelem dtype =>
    obtain ⟨-, -, -, -, hinv⟩ := Task.step_salloc h hasks hrun
    exact hinv
  | sfree depth =>
    rw [Task.step] at hrun
    split at hrun
    · cases hrun
    next mark marks hmarks =>
      obtain ⟨com, hfree, hu⟩ := bind_eq_ok.mp hrun
      rw [← Except.ok.inj hu]
      exact h.sfree hmarks hfree

theorem Task.steps_inv (h : t.Inv asked) (hasks : ∀ call ∈ calls, call.Asks asked)
    (hrun : calls.foldlM Task.step t = .ok u) : u.Inv asked := by
  induction calls generalizing t with
  | nil =>
    cases hrun
    exact h
  | cons call calls ih =>
    rw [List.foldlM_cons] at hrun
    obtain ⟨hcall, hcalls⟩ := List.forall_mem_cons.mp hasks
    obtain ⟨v, hstep, hrest⟩ := bind_eq_ok.mp hrun
    exact ih (Task.step_inv h hcall hstep) hcalls hrest

theorem Task.startup_inv (hrun : Task.mark ⟨⟨0, []⟩, [], []⟩ kmalloc true = .ok t) :
    t.Inv asked := by
  have hempty : Chain [] := ⟨by simp, List.Pairwise.nil⟩
  obtain ⟨⟨oldSp, com⟩, hsmark, ht⟩ := bind_eq_ok.mp hrun
  obtain ⟨com', hmade, hcom⟩ := bind_eq_ok.mp hsmark
  cases hcom
  obtain ⟨s, rfl, hsize, hchain⟩ := stkMkseg_spec hempty hmade
  have hroom := (hchain.made s List.mem_cons_self).room
  have hposition : Position asked s.shBase [s] [] := by
    refine ⟨hchain, ⟨s, [], rfl, ⟨le_rfl, ?_, Or.inl ?_⟩, by simp⟩, by simp, List.Pairwise.nil⟩
    · simp only [szStack] at hroom
      omega
    · simpa using hsize
  rw [← Except.ok.inj ht]
  exact ⟨hposition, List.forall_mem_cons.mpr ⟨⟨hposition, List.suffix_rfl⟩, by simp⟩,
    List.pairwise_singleton _ _⟩

theorem Task.run_inv (hasks : ∀ call ∈ calls, call.Asks asked)
    (hrun : Task.run kmalloc calls = .ok u) : u.Inv asked := by
  obtain ⟨t, hmark, hrest⟩ := bind_eq_ok.mp hrun
  exact Task.steps_inv (Task.startup_inv hmark) hasks hrest

theorem Task.run_append (kmalloc : Kmalloc) (calls later : List Call) :
    Task.run kmalloc (calls ++ later) = Task.run kmalloc calls >>= later.foldlM Task.step := by
  rw [Task.run, Task.run, bind_assoc]
  simp only [List.foldlM_append]

/-- What a task holds is as it has to be exactly if its large blocks are whole. -/
theorem Task.Inv.whole_iff (h : t.Inv asked) :
    StackSafe t ↔ ∀ b ∈ t.blocks, Whole b.nelem b.dtype := by
  have hinside : ∀ b ∈ t.blocks, b.last ≤ b.segment.last ↔ Whole b.nelem b.dtype := by
    intro b hb
    obtain ⟨hmem, hplaced, -⟩ := h.position.held b hb
    exact hplaced.inside_iff (h.position.chain.made _ hmem)
  constructor
  · intro hsafe b hb
    exact (hinside b hb).mp (hsafe.inside b hb).2.2
  · intro hwhole
    refine ⟨h.position.disjoint, fun b hb => (h.position.held b hb).2.1.aligned,
      fun b hb => ⟨(h.position.held b hb).1, ?_, (hinside b hb).mpr (hwhole b hb)⟩,
      fun mark hmark => sfree_position h.position.chain (h.marks mark hmark).1
        (h.marks mark hmark).2⟩
    obtain ⟨hmem, hplaced, -⟩ := h.position.held b hb
    rw [← (h.position.chain.made _ hmem).base]
    exact hplaced.above

/-- In every run the storage is as it has to be, exactly if each large request is a multiple of the
units in which memory is asked for. -/
theorem stackSafe_iff (hrun : Task.run kmalloc calls = .ok u) :
    (∀ done v, done <+: calls → Task.run kmalloc done = .ok v → StackSafe v) ↔
      ∀ call ∈ calls, call.Asks Whole := by
  constructor
  · intro hsafe call hcall
    cases call with
    | smark => trivial
    | sfree => trivial
    | salloc kmalloc' nelem dtype =>
      obtain ⟨done, later, rfl⟩ := List.append_of_mem hcall
      rw [List.append_cons, Task.run_append] at hrun
      -- the state right after the request
      obtain ⟨v, hdone, -⟩ := bind_eq_ok.mp hrun
      have hv := hdone
      rw [Task.run_append] at hv
      obtain ⟨t, hbefore, hlast⟩ := bind_eq_ok.mp hv
      rw [List.foldlM_cons] at hlast
      obtain ⟨v', hstep, hend⟩ := bind_eq_ok.mp hlast
      cases hend
      have hinv := @Task.run_inv _ (fun _ _ => True) _ _
        (fun call _ => by cases call <;> trivial) hbefore
      obtain ⟨b, hblocks, rfl, rfl, hinv'⟩ := Task.step_salloc hinv trivial hstep
      have hprefix := List.prefix_append (done ++ [.salloc kmalloc' b.nelem b.dtype]) later
      rw [← List.append_cons] at hprefix
      exact hinv'.whole_iff.mp (hsafe _ v hprefix hdone) b (hblocks ▸ List.mem_cons_self)
  · intro hasks done v hdone hv
    have hinv := Task.run_inv (fun call hcall => hasks call (hdone.mem hcall)) hv
    exact hinv.whole_iff.mpr fun b hb => (hinv.position.held b hb).2.2

/-- The end of the segments that are held, in structs. -/
def lastStruct (held : List Segment) : Int :=
  held.foldr (fun s top => max (s.seg + s.size) top) 1

theorem lastStruct_pos (held : List Segment) : 1 ≤ lastStruct held := by
  induction held with
  | nil => decide
  | cons s held ih => exact le_max_of_le_right ih

theorem le_lastStruct {held : List Segment} (hs : s ∈ held) : s.seg + s.size ≤ lastStruct held := by
  induction held with
  | nil => simp at hs
  | cons s' held ih =>
    rcases List.mem_cons.mp hs with rfl | hs
    · exact le_max_left _ _
    · exact le_max_of_le_right (ih hs)

/-- A heap that places each segment above those that are held. -/
def upward : Kmalloc where
  place held _ := some (2 * lastStruct held + 1)
  aligned {held n p} h := by
    rw [← Option.some.inj h]
    change (8 : Int) ∣ (2 * lastStruct held + 1 - 1) * 4 + 1 - 1
    omega
  apart {held n p} h s hs := by
    have hle := le_lastStruct hs
    have hpos := lastStruct_pos held
    rw [← Option.some.inj h]
    refine Or.inr ?_
    change (s.seg - 1) * 4 + 1 + s.size * 4 ≤ (2 * lastStruct held + 1 - 1) * 4 + 1
    omega

def threeBlocks : List Call :=
  [.salloc upward 100 .real, .smark upward, .salloc upward 9999 .char, .sfree 0,
    .salloc upward 9 .short]

theorem stackSafe_threeBlocks : ∃ u, Task.run upward threeBlocks = .ok u ∧ StackSafe u :=
  have hwhole : ∀ call ∈ threeBlocks, call.Asks Whole := by
    simp [threeBlocks, Call.Asks, Whole, stackChars, tySize]
  have hrun : ∃ u, Task.run upward threeBlocks = .ok u := ⟨_, rfl⟩
  hrun.imp fun _ hu => ⟨hu, (stackSafe_iff hu).mpr hwhole _ _ List.prefix_rfl hu⟩

/-- The last two chars of the block are not in the memory that was asked for. -/
theorem not_stackSafe_large :
    ∃ u, Task.run upward [.salloc upward 8193 .char] = .ok u ∧ ¬ StackSafe u :=
  ⟨_, rfl, fun h => absurd (h.inside _ List.mem_cons_self).2.2 (by decide)⟩

end Iraf.Memio
