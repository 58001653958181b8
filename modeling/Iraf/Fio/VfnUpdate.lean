import Iraf.Fio.VfnEnter

/-!
# Updating the mapping file

`vvfn_readmapfile` opens, locks and reads the mapping file into a new descriptor.  `vfnclose` writes
it, after it has done the last operation again if little time is left on the lock.
-/

namespace Iraf.Vfn

/-! ## Reading the mapping file -/

/-- The file is read again while the checksum is wrong. -/
def readMap (host : Host) (r : Reading) : Nat → Nat → Mfd → Except VfnError Mfd
  | 0, _, _ => .error .fvfnchksum
  | tries + 1, ntrys, d =>
    match r.contents ntrys with
    | .empty => .ok d
    | .short => .error .fread
    | .image d =>
      if host.checksum d = d.checksum ∨ ntrys + 1 > maxReads then
        if ntrys + 1 > maxReads then .error .fvfnchksum else .ok d
      else readMap host r tries (ntrys + 1) d

def mapfname (host : Host) (vfd : Vfd) : Name :=
  let dir := vfd.osdir.take szMapfname
  let dir := if vfd.acmode = .unmap ∧ vfd.root.length > 0 then host.zfsubd dir vfd.root else dir
  ((dir ++ "zzfnmap.zvf".toList).take szMapfname).map Char.toLower

/-- An error before the file is read frees the descriptor. -/
def cleanup (e : VfnError) (s : State) : Except VfnError Unit × State :=
  (.error e, { s with vMfd := 0 })

/-- The file is read, and closed if it is never going to be updated. -/
def readOpened (host : Host) (vfd : Vfd) (r : Reading) (chan locktime : Int) (s : State) :
    Except VfnError Unit × State :=
  match if r.fileExists then readMap host r (maxReads + 1) 0 s.mfd else .ok s.mfd with
  | .error e => cleanup e s
  | .ok d =>
    if vfd.acmode = .write then
      let d := { d with chan, locktime }
      (.ok (), { s.setMfd d with lastRead := d })
    else
      let s := { s.setMfd d with lastRead := d }
      if r.fileExists then
        let s := s.act (.close chan)
        (if host.closed s.time then .ok () else .error .fclose, s)
      else (.ok (), s)

def vvfnReadmapfile (host : Host) (vfd : Vfd) (s : State) : Except VfnError Unit × State :=
  let r := host.reading s.time
  let s := { s with vMfd := host.calloc s.time }.tick
  let s := s.setMfd { Mfd.zero with mapfname := mapfname host vfd }
  if vfd.acmode = .write then
    if r.fileExists then
      match r.locktime, r.chan with
      | none, _ => cleanup .noWritePerm s
      | some _, none => cleanup .fopen s
      | some locktime, some chan => readOpened host vfd r chan locktime s
    else
      -- a new mapping file is created before it is locked
      match r.chan, r.locktime with
      | none, _ => cleanup .fopen s
      | some _, none => (.error .noWritePerm, s)
      | some chan, some locktime => readOpened host vfd r chan locktime s
  else
    match r.fileExists, r.chan with
    | true, none => cleanup .fopen s
    | _, chan => readOpened host vfd r (chan.getD 0) 0 s

/-! ## The operations on a name -/

/-- The number of the first entry of a name. -/
def findVfn (d : Mfd) (vfn : Name) : Option Nat :=
  (List.range' 1 d.nfiles).find? fun fn => (d.fnmap fn).vfn = vfn

/-- The host name, if it is not empty. -/
def vfnGetosfn (vfd : Vfd) (d : Mfd) : Option Name :=
  ((findVfn d vfd.vfn).map fun fn => vfd.osdir ++ (d.fnmap fn).osfn).filter (· ≠ [])

/-- The packed host name, and whether the name could be mapped. -/
def vfnmap (host : Host) (vfd : Vfd) (maxch : Nat) (s : State) :
    Except VfnError (Name × Bool) × State :=
  if vfd.longroot then
    match vvfnReadmapfile host vfd s with
    | (.error e, s) => (.error e, s)
    | (.ok (), s) =>
      let osfn := vfnGetosfn vfd s.mfd
      let s := s.setMfd { s.mfd with lastop := vMap }
      (.ok (osfnPkfname (osfn.getD (vfd.osdir ++ vfd.root)) maxch, osfn.isSome), s)
  else
    let osfn := vfd.osdir ++ vfd.root ++ if vfd.extn.length > 0 then '.' :: vfd.extn else []
    (.ok (osfnPkfname osfn maxch, true), s)

def vfnadd (host : Host) (vfd : Vfd) (maxch : Nat) (s : State) :
    Except VfnError (Name × Bool) × State :=
  match vfnmap host vfd maxch s with
  | (.error e, s) => (.error e, s)
  | (.ok (_, false), s) =>
    -- a long filename that is not in the database
    match vfnEnter vfd maxch (host.present s.time) s.tick with
    | (.error e, s) => (.error e, s)
    | (.ok osfn, s) => (.ok (osfn, true), s)
  | (.ok (osfn, true), s) =>
    if vfd.longroot then (.ok (osfn, false), s)
    else (.ok (osfn, !host.present s.time osfn), s.tick)

/-- The entry of the name, and whether another one has the same root. -/
def scanEntries (host : Host) (vfd : Vfd) (d : Mfd) : List Nat → Nat → Bool → Nat × Bool
  | [], fnIndex, delzmd => (fnIndex, delzmd)
  | fn :: fns, fnIndex, delzmd =>
    if (d.fnmap fn).vfn.head? = vfd.vfn.head? then
      let fnIndex := if fnIndex = 0 ∧ (d.fnmap fn).vfn = vfd.vfn then fn else fnIndex
      if host.encodeRoot (d.fnmap fn).vfn = vfd.root then
        if fnIndex ≠ 0 then (fnIndex, false) else scanEntries host vfd d fns fnIndex false
      else scanEntries host vfd d fns fnIndex delzmd
    else scanEntries host vfd d fns fnIndex delzmd

/-- The pairs above an entry are shifted back. -/
def shiftPairs (d : Mfd) (fnIndex : Nat) : Nat → FnPair :=
  fun fn => if fnIndex ≤ fn ∧ fn < d.nfiles then d.fnmap (fn + 1) else d.fnmap fn

def vfndel (host : Host) (vfd : Vfd) (maxch : Nat) (s : State) :
    Except VfnError (Name × Bool) × State :=
  match vfnmap host vfd maxch s with
  | (.error e, s) => (.error e, s)
  | (.ok (osfn, false), s) => (.ok (osfn, false), s)
  | (.ok (osfn, true), s) =>
    if vfd.longroot then
      let d := s.mfd
      let (fnIndex, delzmd) := scanEntries host vfd d (List.range' 1 d.nfiles) 0 true
      let fnmap := shiftPairs d fnIndex
      (.ok (osfn, true), s.setMfd
        { d with delzmd, fnmap, nfiles := d.nfiles - 1, lastop := vDel, modified := true })
    else (.ok (osfn, true), s)

/-! ## Closing -/

/-- The last operation is done again. -/
def redo (host : Host) (vfd : Vfd) (lastop : Int) (s : State) : Except VfnError Unit × State :=
  if lastop = vAdd then
    let (result, s) := vfnadd host vfd szPathname s
    (result.map fun _ => (), s)
  else if lastop = vDel then
    let (result, s) := vfndel host vfd szPathname s
    (result.map fun _ => (), s)
  else (.ok (), s)

/-- While too little time is left the transaction is rolled back.  The descriptor is freed, which
clears the pointer. -/
def rollback (host : Host) (vfd : Vfd) (osfn : Name) :
    Nat → Int → State → Option (Except VfnError Int × State)
  | 0, _, _ => none
  | fuel + 1, mfd, s =>
    let d := s.desc mfd
    if host.timeleft s.time osfn d.locktime < minTimeleft then
      match redo host vfd d.lastop (s.tick.act (.unlock osfn d.locktime)) with
      | (.error e, s) => some (.error e, s)
      | (.ok (), s) => rollback host vfd osfn fuel 0 s
    else some (.ok mfd, s.tick)

/-- The file is closed and unlocked, or deleted if there are no files left in it. -/
def release (host : Host) (d : Mfd) (s : State) : Except VfnError Unit × State :=
  let s := s.act (.close d.chan)
  if host.closed s.time then
    let osfn := osfnPkfname d.mapfname szPathname
    let s := if d.nfiles = 0 then (s.act (.delete osfn)).act (.rmlock osfn)
      else s.act (.unlock osfn d.locktime)
    (.ok (), s)
  else (.error .fclose, s)

def update (host : Host) (mfd : Int) (s : State) : Except VfnError Unit × State :=
  let d := s.desc mfd
  let d := { d with checksum := host.checksum d }
  let s := (s.setDesc mfd d).act (.write d.chan d)
  if host.written s.time then release host d s.tick else (.error .fwrite, s)

def vfnclose (host : Host) (vfd : Vfd) (updateEnable : Bool) (fuel : Nat) (s : State) :
    Option (Except VfnError Unit × State) :=
  if s.vMfd = 0 then some (.ok (), s)
  else if ¬ s.mfd.modified ∨ ¬ updateEnable then
    if vfd.acmode = .write then some (release host s.mfd s) else some (.ok (), s)
  else
    match rollback host vfd (osfnPkfname s.mfd.mapfname szPathname) fuel s.vMfd s with
    | none => none
    | some (.error e, s) => some (.error e, s)
    | some (.ok mfd, s) => some (update host mfd s)

/-! ## What an update has to do -/

inductive Pending
  | add | del
  deriving DecidableEq, Repr

/-- The operation is applied to a table. -/
def Pending.Applied (vfd : Vfd) (before after : List FnPair) : Pending → Prop
  | .add => ∃ osfn, after = before ++ [⟨vfd.vfn.take szVfnfn, osfn⟩]
  | .del => ∃ front back osfn, before = front ++ ⟨vfd.vfn, osfn⟩ :: back ∧ after = front ++ back

def Pending.run (op : Pending) (host : Host) (vfd : Vfd) (s : State) :
    Except VfnError (Name × Bool) × State :=
  match op with
  | .add => vfnadd host vfd szPathname s
  | .del => vfndel host vfd szPathname s

/-- The state after `vfnopen`: no mapping file is open.  What is in the memory at NULL and in the
local variables is not known. -/
def afterOpen (null : Mfd) (enterMfd : Int) (time : Nat) : State where
  time := time
  vMfd := 0
  mfd := null
  null := null
  enterMfd := enterMfd
  lastRead := null
  log := []

/-- The table that is written last is the one last read with the operation applied to it, and is
written and unlocked by the channel and the lock of that reading. -/
def WritesLast (vfd : Vfd) (op : Pending) (s : State) : Prop :=
  ∃ d later older, s.log = later ++ .write s.lastRead.chan d :: older ∧
    op.Applied vfd s.lastRead.pairs d.pairs ∧
    (∀ chan image, .write chan image ∉ later) ∧
    ∀ osfn locktime, .unlock osfn locktime ∈ later → locktime = s.lastRead.locktime

end Iraf.Vfn
