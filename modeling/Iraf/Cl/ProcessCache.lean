import Iraf.Fmtio.Text
import Iraf.Lib.Links

/-!
# The process cache of the CL

`pkg/cl/prcache.c`.  A slot of the cache is an index of `pr_cache`, and the slots
are linked from the one used last to the one that is given up first.  What the
host answers depends on when it is asked: the clock counts the times it was.
-/

namespace Iraf.Cl

def maxsubproc : Nat := 10

structure Process where
  prPid : Int
  prTime : Int
  -- the bits of `pr_flags`
  prActive : Bool
  prLocked : Bool
  prPno : Int
  prIn : Int
  prOut : Int
  prName : String
  deriving DecidableEq, Repr

/-- `opened` are the processes that `c_propen` gave and that were not passed to
`c_prclose` yet. -/
structure Cache where
  prCache : Nat → Process
  links : Links Nat
  szPrcache : Nat
  prPno : Int
  clock : Nat
  opened : List Int

/-- What `c_propen` returns when it does not fail. -/
structure Spawned where
  pid : Int
  fdIn : Int
  fdOut : Int
  deriving DecidableEq, Repr

/-- The host calls at a time: the death of a process, the time an executable was
modified, `none` when there is no such file, and a process that is spawned, which
has an id of its own; and the file that `findexe` finds for the name of one. -/
structure ProcessHost where
  dead : Nat → Int → Bool
  finfo : Nat → String → Option Int
  propen : List Int → Nat → String → Option Spawned
  findexe : Nat → String → String
  propen_fresh : ∀ opened t name s, propen opened t name = some s →
    s.pid ≠ 0 ∧ s.pid ∉ opened

/-- What `pr_pconnect` gives: a process with its channels, null, or the error of
a cache with no slot left. -/
inductive Connected where
  | process (pid fdIn fdOut : Int)
  | failed
  | deadlock
  deriving DecidableEq, Repr

namespace Process

def prIdle (pr : Process) : Bool := !pr.prActive

def prBusy (pr : Process) : Bool := pr.prActive || pr.prLocked

end Process

namespace Cache

def blank : Process := ⟨0, 0, false, false, 0, 0, 0, ""⟩

/-- The state when the CL starts. -/
def initial : Cache where
  prCache _ := blank
  links := ⟨fun _ => none, fun _ => none, none, none⟩
  szPrcache := 2
  prPno := 1
  clock := 0
  opened := []

def setSlot (c : Cache) (i : Nat) (pr : Process) : Cache :=
  { c with prCache := Function.update c.prCache i pr }

def tick (c : Cache) : Cache := { c with clock := c.clock + 1 }

/-! ## The list -/

def prTohead (c : Cache) (i : Nat) : Cache := { c with links := c.links.toHead i }

def prTotail (c : Cache) (i : Nat) : Cache := { c with links := c.links.toTail i }

/-- The slots from the head on. -/
def fromHead (c : Cache) : List Nat := walk c.links.dn (maxsubproc + 1) c.links.head

/-- The slots from the tail on. -/
def fromTail (c : Cache) : List Nat := walk c.links.up (maxsubproc + 1) c.links.tail

def prInitcache (c : Cache) : Cache :=
  let c := { c with
    prCache := fun i => { c.prCache i with
      prPid := 0, prActive := false, prLocked := false, prPno := 0, prIn := 0,
      prOut := 0 }
    links := ⟨fun _ => none, fun _ => none, some 0, some 0⟩ }
  let c := (List.range' 1 (c.szPrcache - 1)).foldl prTohead c
  { c with prPno := 1 }

/-! ## Processes -/

/-- The call of `c_prclose`, and the slot without its process. -/
def close (c : Cache) (i : Nat) : Cache :=
  let pr := c.prCache i
  { c.setSlot i { pr with prPid := 0 } with opened := c.opened.erase pr.prPid }

def prPdisconnect (c : Cache) (i : Nat) : Cache :=
  let pr := c.prCache i
  if pr.prPid = 0 ∨ pr.prBusy then c else (c.close i).prTotail i

/-- A slot whose process has died. -/
def checkSlot (host : ProcessHost) (c : Cache) (i : Nat) : Cache :=
  let pr := c.prCache i
  if pr.prPid ≠ 0 ∧ host.dead c.clock pr.prPid then
    (c.setSlot i { pr with prActive := false, prLocked := false }).prPdisconnect i
  else c

def prCheckup (host : ProcessHost) (c : Cache) : Cache :=
  ((List.range c.szPrcache).foldl (checkSlot host) c).tick

def prFindproc (c : Cache) (process : String) : Option Nat :=
  c.fromHead.find? fun i =>
    let pr := c.prCache i
    pr.prPid ≠ 0 && pr.prIdle && process == pr.prName

/-! ## Connections -/

/-- The process found in the cache, unless its executable was modified; and the
time of that, 0 when it was not asked for. -/
def cached (host : ProcessHost) (c : Cache) (process : String) :
    Option Nat × Int × Cache :=
  match c.prFindproc process with
  | none => (none, 0, c)
  | some i =>
      if (c.prCache i).prBusy then (some i, 0, c)
      else
        match host.finfo c.clock process with
        | none => (none, 0, c.tick.prPdisconnect i)
        | some mtime =>
            if mtime > (c.prCache i).prTime then (none, mtime, c.tick.prPdisconnect i)
            else (some i, mtime, c.tick)

/-- A slot that is not busy, at the head of the list. -/
def getSlot (c : Cache) : Option (Nat × Cache) :=
  match c.fromTail.find? fun i => !(c.prCache i).prBusy with
  | none => none
  | some i =>
      let c := if (c.prCache i).prPid ≠ 0 then c.prPdisconnect i else c
      some (i, c.prTohead i)

/-- Mark the process of a slot as the one in use. -/
def handOut (c : Cache) (i : Nat) : Connected × Cache :=
  let pr := { c.prCache i with prActive := true }
  (.process pr.prPid pr.prIn pr.prOut, c.setSlot i pr)

def spawn (host : ProcessHost) (c : Cache) (i : Nat) (process : String) (mtime : Int) :
    Connected × Cache :=
  match host.propen c.opened c.clock process with
  | none => (.failed, c.tick.setSlot i { c.prCache i with prPid := 0 })
  | some s =>
      let c := { c.tick with opened := s.pid :: c.opened }
      let mtime := if mtime = 0 then (host.finfo c.clock process).getD 0 else mtime
      let pr := { c.prCache i with
        prPid := s.pid
        prTime := mtime
        prIn := s.fdIn
        prOut := s.fdOut
        prActive := false
        prLocked := false
        prPno := Fmtio.short c.prPno
        prName := process }
      handOut { c.tick.setSlot i pr with prPno := c.prPno + 1 } i

def prPconnect (host : ProcessHost) (c : Cache) (process : String) :
    Connected × Cache :=
  let c := if c.links.head = none then c.prInitcache else c.prCheckup host
  match c.cached host process with
  | (some i, _, c) => handOut (c.prTohead i) i
  | (none, mtime, c) =>
      match c.getSlot with
      | none => (.deadlock, c)
      | some (i, c) => c.spawn host i process mtime

/-- The slot of a process; a free slot for a process id of 0. -/
def findPid (c : Cache) (pid : Int) : Option Nat :=
  c.fromHead.find? fun i => (c.prCache i).prPid == pid

def prDisconnect (host : ProcessHost) (c : Cache) (pid : Int) : Cache :=
  let c := c.prCheckup host
  match c.findPid pid with
  | none => c
  | some i => c.setSlot i { c.prCache i with prActive := false }

/-! ## Locks -/

def prLock (c : Cache) (pid : Int) : Cache :=
  match if pid = 0 then none else c.findPid pid with
  | none => c
  | some i => c.setSlot i { c.prCache i with prLocked := true }

/-- The flags that are left, or `ERR`. -/
def prUnlock (c : Cache) (pid : Int) : Int × Cache :=
  match if pid = 0 then none else c.findPid pid with
  | none => (-1, c)
  | some i =>
      (if (c.prCache i).prActive then 1 else 0,
        c.setSlot i { c.prCache i with prLocked := false })

/-! ## Flushing -/

def dumpSlot (pid : Int) (breakLocks : Bool) (c : Cache) (i : Nat) : Cache :=
  let pr := c.prCache i
  if pid = 0 ∧ pr.prPid ≠ 0 ∨ pid = pr.prPid then
    let c := if breakLocks && pr.prIdle then c.setSlot i { pr with prLocked := false } else c
    c.prPdisconnect i
  else c

def prDumpcache (host : ProcessHost) (c : Cache) (pid : Int) (breakLocks : Bool) : Cache :=
  let c := c.prCheckup host
  let c := (List.range c.szPrcache).foldl (dumpSlot pid breakLocks) c
  if breakLocks then { c with prPno := 1 } else c

def pruneSlot (pno : Int) (c : Cache) (i : Nat) : Cache :=
  let pr := c.prCache i
  if pr.prPid ≠ 0 ∧ pr.prPno > pno then c.prPdisconnect i else c

def prPrunecache (host : ProcessHost) (c : Cache) (pno : Int) : Cache :=
  let c := c.prCheckup host
  (List.range c.szPrcache).foldl (pruneSlot pno) c

/-! ## Resizing -/

/-- The names of the processes that are locked into the cache. -/
def lockedNames (c : Cache) : List String :=
  (c.fromHead.filter fun i => (c.prCache i).prPid ≠ 0 && (c.prCache i).prLocked).map
    fun i => (c.prCache i).prName

/-- The loop that connects to them again; an error leaves it. -/
def reconnect (host : ProcessHost) : List String → Cache → Cache
  | [], c => c
  | name :: names, c =>
      match c.prPconnect host (host.findexe c.clock name) with
      | (.process pid _ _, c) => reconnect host names ((c.prDisconnect host pid).prLock pid)
      | (.failed, c) => c
      | (.deadlock, c) => c

/-- The new number of slots. -/
def resize (c : Cache) (newSzprcache : Int) : Cache :=
  { c with
    szPrcache :=
      if newSzprcache < 2 then 2
      else if newSzprcache > maxsubproc then maxsubproc
      else newSzprcache.toNat }

def prSetcache (host : ProcessHost) (c : Cache) (newSzprcache : Int) : Cache :=
  let (pname, c) :=
    if c.links.head = none then ([], c.prInitcache)
    else (c.lockedNames, c.prDumpcache host 0 true)
  let c := (c.resize newSzprcache).prInitcache
  let nprocs := if pname.length + 1 > c.szPrcache then c.szPrcache - 1 else pname.length
  reconnect host (pname.take nprocs) c

end Cache

end Iraf.Cl
