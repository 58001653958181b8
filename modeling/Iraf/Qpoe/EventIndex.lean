import Iraf.Lib.SortedRuns
import Iraf.Plio.Codec
import Iraf.Plio.ListLength
import Iraf.Qpoe.LookupTable

/-!
# The index of an event list

`qpio_mkindex` reads the events of a list bucket by bucket and notes for each image line the
first event and the number of events.  The two vectors are stored as line lists, and
`qpio_open` reads them back through a buffer of its own.
-/

namespace Iraf.Qpoe

open Iraf.Plio

/-- The datatype of the key fields. -/
inductive KeyType
  | short
  | int
  | long
  | real
  | double
  deriving DecidableEq

/-- The image coordinate of a key field. -/
def KeyType.coordinate (dtype : KeyType) (value : ℚ) : Int :=
  match dtype with
  | .short | .int | .long => truncReal value
  | .real | .double => truncReal (value + 1 / 2)

/-- An event, with the values of its key fields. -/
structure Event where
  x : ℚ
  y : ℚ
  deriving DecidableEq

instance : Inhabited Event := ⟨⟨0, 0⟩⟩

/-! ## Buckets -/

/-- An event list in its datafile, and the bucket that is loaded. -/
structure EventList where
  ncols : Int
  nlines : Int
  dtype : KeyType
  events : List Event
  bucketLen : Int
  bkno : Int
  bkFirstEv : Int
  bkLastEv : Int
  bucket : Int → Event
  bucketLen_pos : 1 ≤ bucketLen
  first : bkFirstEv = (bkno - 1) * bucketLen + 1
  last : min (events.length : Int) (bkFirstEv + bucketLen - 1) ≤ bkLastEv
  loaded : ∀ evi, 1 ≤ evi → bkFirstEv ≤ evi → evi ≤ bkLastEv → evi ≤ (events.length : Int) →
    bucket (evi - bkFirstEv) = events.getD (evi - 1).toNat default

namespace EventList

variable (io : EventList)

def nevents : Int := io.events.length

/-- The bucket in which an event is. -/
def eviToBucket (evi : Int) : Int := (evi - 1) / io.bucketLen + 1

/-- The first event of a bucket. -/
def bucketToEvi (bkno : Int) : Int := (bkno - 1) * io.bucketLen + 1

theorem eviToBucket_bounds (evi : Int) :
    io.bucketToEvi (io.eviToBucket evi) ≤ evi ∧
      evi ≤ io.bucketToEvi (io.eviToBucket evi) + io.bucketLen - 1 := by
  have hpos := io.bucketLen_pos
  have hdiv := Int.mul_ediv_add_emod (evi - 1) io.bucketLen
  have hlo := Int.emod_nonneg (evi - 1) (show io.bucketLen ≠ 0 by omega)
  have hhi := Int.emod_lt_of_pos (evi - 1) (show 0 < io.bucketLen by omega)
  rw [mul_comm] at hdiv
  rw [bucketToEvi, eviToBucket, Int.add_sub_cancel]
  omega

end EventList

/-- `qpio_rbucket`: load the bucket of an event; none when there is no such event. -/
def qpioRbucket (io : EventList) (evi : Int) : Option EventList :=
  if evi < 1 ∨ evi > io.nevents then none
  else
    let bkno := io.eviToBucket evi
    if bkno = io.bkno then some io
    else
      let ev1 := io.bucketToEvi bkno
      some { io with
        bkno
        bkFirstEv := ev1
        bkLastEv := min io.nevents (ev1 + io.bucketLen - 1)
        bucket := fun i => io.events.getD (ev1 + i - 1).toNat default
        first := rfl
        last := le_rfl
        loaded := fun evi _ _ _ _ => by rw [add_sub_cancel] }

/-! ## Making the index -/

/-- The two vectors, and the line that is being counted. -/
structure IndexScan where
  ov : Int → Int
  lv : Int → Int
  ox : Int
  line : Int
  firstev : Int
  nevents : Int

inductive IndexFault
  | notSorted
  | turns
  deriving DecidableEq

namespace IndexScan

def start : IndexScan := ⟨fun _ => 0, fun _ => 0, -1, 1, 1, 0⟩

/-- Add an index entry, when the line has events. -/
def entry (s : IndexScan) : IndexScan :=
  if s.nevents > 0 then
    { s with
      ov := Function.update s.ov s.line s.firstev
      lv := Function.update s.lv s.line s.nevents }
  else s

/-- An event at `(x,y)`; none when the list is not sorted. -/
def add (s : IndexScan) (evi x y : Int) : Option IndexScan :=
  if y > s.line then some { s.entry with firstev := evi, nevents := 1, line := y, ox := x }
  else if y = s.line then
    if x < s.ox then none else some { s with nevents := s.nevents + 1, ox := x }
  else none

end IndexScan

/-- The pixel of an event. -/
def EventList.pixel (io : EventList) (ev : Event) : Int × Int :=
  (max 1 (min io.ncols (io.dtype.coordinate ev.x)),
    max 1 (min io.nlines (io.dtype.coordinate ev.y)))

/-- `do i = 1, nev`: the events from `evi` on in the bucket that is loaded. -/
def scanBucket (io : EventList) : Nat → Int → IndexScan → Except IndexFault IndexScan
  | 0, _, s => .ok s
  | nev + 1, evi, s =>
      let (x, y) := io.pixel (io.bucket (evi - io.bkFirstEv))
      match s.add evi x y with
      | none => .error .notSorted
      | some s => scanBucket io nev (evi + 1) s

/-- The loop over the event list. -/
def scanEvents : Nat → EventList → Int → IndexScan → Except IndexFault IndexScan
  | 0, _, _, _ => .error .turns
  | turns + 1, io, evi, s =>
      if evi > io.nevents then .ok s
      else
        match if evi > io.bkLastEv then qpioRbucket io evi else some io with
        | none => .ok s
        | some io =>
            let nev := min io.nevents io.bkLastEv - evi + 1
            match scanBucket io nev.toNat evi s with
            | .error fault => .error fault
            | .ok s => scanEvents turns io (evi + nev) s

/-- The index: the vectors, and the lists in which they are stored. -/
structure Index where
  ov : Int → Int
  lv : Int → Int
  yoffv : List Int
  ylenv : List Int

/-- `qpio_mkindex`; there are not more turns than events. -/
def qpioMkindex (io : EventList) : Except IndexFault Index :=
  let start := (qpioRbucket io 1).getD io
  match scanEvents (io.events.length + 1) start 1 .start with
  | .error fault => .error fault
  | .ok s =>
      -- output final index entry
      let s := s.entry
      .ok ⟨s.ov, s.lv, plP2l s.ov 1 io.nlines, plP2l s.lv 1 io.nlines⟩

/-! ## Loading the index -/

/-- Read words into a buffer; none when they are more than it holds. -/
def readWords (buffer words : List Int) : Option (List Int) :=
  if words.length ≤ buffer.length then some (words ++ buffer.drop words.length) else none

/-- What `qpio_open` does to load the index: both lists go through the buffer `oo`. -/
def loadIndex (oo yoffv ylenv : List Int) (indexLen : Int) : Option (List Int × List Int) :=
  match readWords oo yoffv with
  | none => none
  | some oo =>
      let ov := plL2p oo 1 indexLen
      match readWords oo ylenv with
      | none => none
      | some oo => some (ov, plL2p oo 1 indexLen)

/-- The entries of a vector. -/
def entries (v : Int → Int) (n : Int) : List Int := (List.range n.toNat).map fun i : Nat => v (i + 1)

/-! ## What the index is for -/

/-- The image line of an event. -/
def EventList.line (io : EventList) (evi : Int) : Int :=
  (io.pixel (io.events.getD (evi - 1).toNat default)).2

/-- Line `y` has the `lv y` events from `ov y` on. -/
def Has (ov lv : Int → Int) (y evi : Int) : Prop := ov y ≤ evi ∧ evi < ov y + lv y

structure Owned (io : EventList) (ov lv : Int → Int) : Prop where
  nonneg : ∀ y, 1 ≤ y → y ≤ io.nlines → 0 ≤ lv y
  within : ∀ y evi, 1 ≤ y → y ≤ io.nlines → Has ov lv y evi → 1 ≤ evi ∧ evi ≤ io.nevents
  line : ∀ y evi, 1 ≤ y → y ≤ io.nlines → 1 ≤ evi → evi ≤ io.nevents →
    (Has ov lv y evi ↔ io.line evi = y)
  once : ∀ evi, 1 ≤ evi → evi ≤ io.nevents → ∃! y, 1 ≤ y ∧ y ≤ io.nlines ∧ Has ov lv y evi

/-- The index is made, it is right, and both vectors are read back through the buffer `oo`. -/
def IndexStored (io : EventList) (oo : List Int) : Prop :=
  ∃ index, qpioMkindex io = .ok index ∧ Owned io index.ov index.lv ∧
    loadIndex oo index.yoffv index.ylenv io.nlines =
      some (entries index.ov io.nlines, entries index.lv io.nlines)

/-! ## The index of a sorted list -/

/-- The pixel of an event that comes later is not in an earlier line nor further left. -/
def NotBefore (p q : Int × Int) : Prop := p.2 < q.2 ∨ p.2 = q.2 ∧ p.1 ≤ q.1

instance : DecidableRel NotBefore := fun p q => by unfold NotBefore; infer_instance

def EventList.pixels (io : EventList) : List (Int × Int) := io.events.map io.pixel

/-- The number of events of a line. -/
def lineCount (ps : List (Int × Int)) (y : Int) : Int := ps.countP (·.2 = y)

/-- The first event of a line, zero when it has none. -/
def lineStart (ps : List (Int × Int)) (y : Int) : Int :=
  if lineCount ps y = 0 then 0 else ps.countP (·.2 < y) + 1

end Iraf.Qpoe
