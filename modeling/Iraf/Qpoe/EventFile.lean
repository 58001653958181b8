import Mathlib.Algebra.Order.Field.Rat
import Iraf.Lib.Cells

/-!
# Event lists in a datafile

`qpio_putevents`, `qpio_wbucket` and `qpio_sync` write a new event list bucket by bucket, and
`qpio_rbucket` reads it back.  The buffer of a bucket is addressed by offsets in shorts, the file
by offsets in bytes.  Field values are exact.
-/

namespace Iraf.Qpoe.EventFile

open Cells

/-- The primitive types of a field. -/
inductive FieldType
  | bool
  | char
  | short
  | int
  | long
  | real
  | double
  | complex
  deriving DecidableEq, Repr

/-- The types that `qpio_wbucket` has a case for. -/
def FieldType.compared : FieldType → Bool
  | .short | .int | .long | .real | .double => true
  | .bool | .char | .complex => false

/-- The fields of an event; the second part of a value is the imaginary part of a complex. -/
abbrev Event := Nat → ℚ × ℚ

/-- The page size of the file, the bucket length asked for, and the layout of an event. -/
structure Datafile where
  pageSize : Int
  bucketLen : Int
  szStruct : Int
  structLen : Int
  types : List FieldType
  pageSize_pos : 0 < pageSize
  bucketLen_pos : 0 < bucketLen
  szStruct_pos : 0 < szStruct
  structLen_pos : 0 < structLen

@[simp] abbrev szbChar : Int := 2
@[simp] abbrev lenEhdes : Int := 18

namespace Datafile

variable (q : Datafile)

/-- `DD_STRUCTLEN * SZ_STRUCT / SZ_SHORT`. -/
def eventLen : Int := q.structLen * q.szStruct

/-- The size of the bucket in bytes, forced to an integral number of pages. -/
def szbBucket : Int :=
  ((q.bucketLen + 2) * (q.eventLen * szbChar) - 1).tdiv q.pageSize * q.pageSize

/-- The number of events that fill the bucket, with the two extra slots. -/
def bklen : Int := q.szbBucket.tdiv (q.eventLen * szbChar)

end Datafile

/-- The event list header, the first page of the file. -/
structure Header where
  nevents : Int
  eventLen : Int
  szbBucket : Int
  bucketLen : Int
  fboff : Int
  evMinOff : Int
  evMaxOff : Int
  minEvl : Option Event
  maxEvl : Option Event

structure Io where
  active : Bool
  nevents : Int
  eventLen : Int
  szbBucket : Int
  bucketLen : Int
  fboff : Int
  evMinOff : Int
  evMaxOff : Int
  minEvl : Option Event
  maxEvl : Option Event
  evi : Int
  bkno : Int
  bkFirstEv : Int
  bkLastEv : Int
  buffer : Memory Event
  /-- The buckets in the file, by their offsets. -/
  lfile : Int → Option (Memory Event)
  header : Option Header

inductive Fault
  /-- A division by a bucket length of zero. -/
  | divide
  /-- The events of the header are stored past the end of its page. -/
  | headerOverflow
  deriving DecidableEq, Repr

/-! ## Writing -/

/-- A field of `e` replaces that of `m` where it is better. -/
def updateFields (better : ℚ → ℚ → Bool) (types : List FieldType) (m e : Event) : Event := fun i =>
  if types[i]?.any FieldType.compared && better (e i).1 (m i).1 then e i else m i

def minFields : List FieldType → Event → Event → Event := updateFields fun a b => decide (a < b)

def maxFields : List FieldType → Event → Event → Event := updateFields fun a b => decide (a > b)

/-- The events in the buffer. -/
def Io.bucketEvents (io : Io) : List Event :=
  (List.range (io.evi - io.bkFirstEv).toNat).map fun j => io.buffer ((j : Nat) * io.eventLen)

/-- The part of `qpio_wbucket` for a bucket that is not empty. -/
def flushBucket (q : Datafile) (io : Io) : Io :=
  let events := io.bucketEvents
  let first := io.buffer 0
  let minEvb := events.foldl (minFields q.types) first
  let maxEvb := events.foldl (maxFields q.types) first
  let listMin := if io.bkno = 1 then first else io.minEvl.getD 0
  let listMax := if io.bkno = 1 then first else io.maxEvl.getD 0
  let buffer := fun a =>
    if a = io.evMinOff then minEvb
    else if a = io.evMaxOff then maxEvb
    -- zero out any remaining events
    else if (io.evi - io.bkFirstEv) * io.eventLen ≤ a ∧ a < io.evMinOff then 0
    else io.buffer a
  { io with
    minEvl := some (events.foldl (minFields q.types) listMin)
    maxEvl := some (events.foldl (maxFields q.types) listMax)
    buffer := buffer
    lfile := Function.update io.lfile ((io.bkno - 1) * io.szbBucket + io.fboff) (some buffer)
    nevents := max io.nevents (io.evi - 1) }

/-- The buffer is set up for the bucket of an event. -/
def Io.setBucket (io : Io) (bkno : Int) : Io :=
  { io with
    bkno := bkno
    bkFirstEv := (bkno - 1) * io.bucketLen + 1
    bkLastEv := (bkno - 1) * io.bucketLen + 1 + io.bucketLen - 1 }

def qpioWbucket (q : Datafile) (io : Io) (evi : Int) : Except Fault Io :=
  let io := if io.evi > io.bkFirstEv then flushBucket q io else io
  if io.bucketLen = 0 then .error .divide
  else .ok (io.setBucket ((evi - 1).tdiv io.bucketLen + 1))

/-- The header page has room for the two events behind the header. -/
def headerFits (q : Datafile) (io : Io) : Bool :=
  decide ((lenEhdes + io.eventLen.tdiv q.szStruct) * q.szStruct + io.eventLen ≤
    q.pageSize.tdiv (q.szStruct * szbChar) * q.szStruct)

/-- The header that `qpio_sync` writes. -/
def Io.listHeader (q : Datafile) (io : Io) : Header where
  nevents := io.nevents
  eventLen := io.eventLen
  szbBucket := io.szbBucket
  bucketLen := io.bucketLen
  fboff := q.pageSize + 1
  evMinOff := io.evMinOff
  evMaxOff := io.evMaxOff
  minEvl := io.minEvl
  maxEvl := io.maxEvl

def writeHeader (q : Datafile) (io : Io) : Except Fault Io :=
  if io.minEvl.isSome && !headerFits q io then .error .headerOverflow
  else .ok { io with header := some (io.listHeader q) }

/-- The bucket buffer is flushed. -/
def flushBuffer (q : Datafile) (io : Io) : Except Fault Io :=
  if io.evi > 1 then qpioWbucket q io io.evi else .ok io

def qpioSync (q : Datafile) (io : Io) : Except Fault Io := do
  let io ← flushBuffer q io
  writeHeader q io

/-- The first write to a new event list fixes its parameters. -/
def Io.fixParameters (q : Datafile) (io : Io) : Io :=
  let szsEvent := io.eventLen
  { io with
    fboff := q.pageSize + 1
    eventLen := q.eventLen
    nevents := 0
    bucketLen := q.bklen - 2
    szbBucket := q.szbBucket
    evMinOff := szsEvent * (q.bklen - 2)
    evMaxOff := szsEvent * (q.bklen - 1)
    evi := 1
    bkno := 1
    bkFirstEv := 1
    bkLastEv := q.bklen - 2
    minEvl := some 0
    maxEvl := some 0 }

def startList (q : Datafile) (io : Io) : Except Fault Io := do
  let io ← qpioSync q (io.fixParameters q)
  .ok { io with active := true }

/-- Events are copied to the buffer from an offset on. -/
def storeEvents (szsEvent : Int) : List Event → Int → Memory Event → Memory Event
  | [], _, buffer => buffer
  | e :: events, ev, buffer =>
      storeEvents szsEvent events (ev + szsEvent) (Function.update buffer ev e)

/-- The next `nev` events are copied to the buffer. -/
def Io.store (io : Io) (events : List Event) (nev : Int) : Io :=
  { io with
    buffer := storeEvents io.eventLen (events.take nev.toNat)
      ((io.evi - io.bkFirstEv) * io.eventLen) io.buffer
    evi := io.evi + nev }

/-- The bucket is written out if it is full. -/
def writeFull (q : Datafile) (io : Io) : Except Fault Io :=
  if io.evi > io.bkLastEv then qpioWbucket q io io.evi else .ok io

/-- The loop of `qpio_putevents` over the events that are left. -/
def copyEvents (q : Datafile) : Nat → Io → List Event → Except Fault Io
  | 0, io, _ => .ok io
  | fuel + 1, io, events =>
      if events = [] then .ok io
      else
        let nev := min (events.length : Int) (io.bkLastEv - io.evi + 1)
        if nev ≤ 0 then .ok io
        else do
          let io ← writeFull q (io.store events nev)
          copyEvents q fuel io (events.drop nev.toNat)

def startWriting (q : Datafile) (io : Io) : Except Fault Io :=
  if io.active then .ok io else startList q io

def qpioPutevents (q : Datafile) (io : Io) (events : List Event) : Except Fault Io := do
  let io ← startWriting q io
  let io ← writeFull q io
  copyEvents q events.length io events

/-- A new event list. -/
def qpioOpenNew (q : Datafile) : Io where
  active := false
  nevents := 0
  eventLen := q.eventLen
  szbBucket := 0
  bucketLen := 0
  fboff := 0
  evMinOff := 0
  evMaxOff := 0
  minEvl := none
  maxEvl := none
  evi := 0
  bkno := 0
  bkFirstEv := 0
  bkLastEv := 0
  buffer := fun _ => 0
  lfile := fun _ => none
  header := none

/-- What a writer does with the list. -/
inductive Op
  | putevents (events : List Event)
  | sync

def Op.run (q : Datafile) (io : Io) : Op → Except Fault Io
  | .putevents events => qpioPutevents q io events
  | .sync => qpioSync q io

def runOps (q : Datafile) : Io → List Op → Except Fault Io
  | io, [] => .ok io
  | io, op :: ops => do
      let io ← op.run q io
      runOps q io ops

/-- `qpio_close` syncs the list a last time. -/
def writeList (q : Datafile) (ops : List Op) : Except Fault Io := do
  let io ← runOps q (qpioOpenNew q) ops
  qpioSync q io

/-! ## Reading -/

/-- A stored list that is opened for reading. -/
def qpioOpenOld (q : Datafile) (lfile : Int → Option (Memory Event)) (header : Header) : Io :=
  { qpioOpenNew q with
    nevents := header.nevents
    eventLen := header.eventLen
    szbBucket := header.szbBucket
    bucketLen := header.bucketLen
    fboff := header.fboff
    evMinOff := header.evMinOff
    evMaxOff := header.evMaxOff
    minEvl := header.minEvl
    maxEvl := header.maxEvl
    lfile := lfile
    header := some header }

/-- `none` is EOF. -/
def qpioRbucket (io : Io) (evi : Int) : Except Fault (Option Io) :=
  if evi < 1 ∨ evi > io.nevents then .ok none
  else if io.bucketLen = 0 then .error .divide
  else
    let bkno := (evi - 1).tdiv io.bucketLen + 1
    if bkno = io.bkno then .ok (some io)
    else
      let ev1 := (bkno - 1) * io.bucketLen + 1
      match io.lfile ((bkno - 1) * io.szbBucket + io.fboff) with
      | none => .ok none
      | some buffer =>
          .ok (some { io with
            buffer := buffer
            bkno := bkno
            bkFirstEv := ev1
            bkLastEv := min io.nevents (ev1 + io.bucketLen - 1) })

/-- The events from `evi` on, one by one, up to EOF. -/
def readFrom : Nat → Io → Int → Except Fault (List Event)
  | 0, _, _ => .ok []
  | fuel + 1, io, evi => do
      match ← qpioRbucket io evi with
      | none => .ok []
      | some io => do
          let events ← readFrom fuel io (evi + 1)
          .ok (io.buffer ((evi - io.bkFirstEv) * io.eventLen) :: events)

def readList (io : Io) : Except Fault (List Event) := readFrom (io.nevents.toNat + 1) io 1

/-! ## Stored without loss -/

def Op.events : Op → List Event
  | .putevents events => events
  | .sync => []

def Op.puts : Op → Bool
  | .putevents _ => true
  | .sync => false

/-- The events that are put into the list. -/
def written (ops : List Op) : List Event := ops.flatMap Op.events

/-- The event of a number. -/
def nth (events : List Event) (evi : Int) : Event := events.getD (evi - 1).toNat 0

/-- The two extra slots of a bucket lie behind its events and inside the bucket. -/
structure SlotsInside (io : Io) : Prop where
  behind : io.bucketLen * io.eventLen ≤ io.evMinOff
  nonneg : 0 ≤ io.evMinOff
  next : io.evMinOff + io.eventLen ≤ io.evMaxOff
  inside : (io.evMaxOff + io.eventLen) * szbChar ≤ io.szbBucket

/-- The stored bucket of an event bounds its fields. -/
def BoundedIn (q : Datafile) (io : Io) (evi : Int) (e : Event) : Prop :=
  ∃ bucket, io.lfile ((evi - 1).tdiv io.bucketLen * io.szbBucket + io.fboff) = some bucket ∧
    ∀ i type, q.types[i]? = some type → type ≠ .complex →
      (bucket io.evMinOff i).1 ≤ (e i).1 ∧ (e i).1 ≤ (bucket io.evMaxOff i).1

/-- The list is stored, and is read back as it was put. -/
def StoredExactly (q : Datafile) (ops : List Op) : Prop :=
  ∃ io header, writeList q ops = .ok io ∧ io.header = some header ∧
    header.nevents = (written ops).length ∧
    readList (qpioOpenOld q io.lfile header) = .ok (written ops) ∧
    ∀ evi : Int, 1 ≤ evi → evi ≤ (written ops).length →
      SlotsInside (qpioOpenOld q io.lfile header) ∧
        BoundedIn q (qpioOpenOld q io.lfile header) evi (nth (written ops) evi)

/-- A bucket of whole pages has room for an event and the two extra slots. -/
def BucketFits (q : Datafile) : Prop := 3 ≤ q.bklen

/-- The header page has room for the header and two events. -/
def HeaderFits (q : Datafile) : Prop :=
  (lenEhdes + q.structLen) * q.szStruct + q.eventLen ≤
    q.pageSize / (q.szStruct * szbChar) * q.szStruct

/-- A field that is not compared is the same in all events of a bucket. -/
def ConstantFields (q : Datafile) (events : List Event) : Prop :=
  ∀ i type, q.types[i]? = some type → type = .bool ∨ type = .char →
    ∀ evi evi' : Int, 1 ≤ evi → evi ≤ events.length → 1 ≤ evi' → evi' ≤ events.length →
      (evi - 1) / (q.bklen - 2) = (evi' - 1) / (q.bklen - 2) →
      (nth events evi i).1 = (nth events evi' i).1

/-- What the file has to offer for the list to be stored. -/
def Storable (q : Datafile) (ops : List Op) : Prop :=
  (∃ op ∈ ops, op.puts = true) →
    HeaderFits q ∧ q.bklen ≠ 2 ∧
      (written ops ≠ [] → BucketFits q ∧ ConstantFields q (written ops))

end Iraf.Qpoe.EventFile
