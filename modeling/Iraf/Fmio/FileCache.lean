import Iraf.Lib.SafeRuns
import Mathlib.Logic.Function.Basic

/-!
# The file cache

`fmfcache.x`, which keeps lfiles of a datafile open.  Of a file of FIO the model has the
lfile it is open on and whether it may be written, not its position.
-/

namespace Iraf.Fmio

open Function

/-- The access modes of `iraf.h`. -/
inductive Mode where
  | readOnly
  | readWrite
  | writeOnly
  | append
  | newFile
  | tempFile
  deriving DecidableEq, Repr

inductive FmError where
  | fmfsinuse
  | fmlflocked
  | fmfcfull
  | fmlokactlf
  /-- Raised by `close`. -/
  | close
  /-- Raised by `fm_fopen`. -/
  | fopen
  deriving DecidableEq, Repr

structure Fslot where
  nref : Int
  lru : Int
  lfile : Int
  fd : Int
  deriving DecidableEq, Repr

structure Fcache where
  nfiles : Nat
  refcnt : Int
  lfstat : Int → Int
  slots : Nat → Fslot

/-- A file that is open on an lfile; `id` tells it from those opened before. -/
structure OpenFile where
  lfile : Int
  type : Int
  id : Nat
  deriving DecidableEq, Repr

/-- A datafile, with the descriptors of FIO: `fiodes` and the write permissions in
`fflags`, which outlast a file. -/
structure Fm where
  szfcache : Nat
  fcache : Option Fcache
  lockout : Int → Bool
  fiodes : Int → Option OpenFile
  fwrite : Int → Bool
  nopened : Nat

/-- How `close` may end: it raises an error when the buffer cannot be flushed, or when the
file has been closed. -/
inductive Closing where
  | done
  | notFlushed
  | failed
  deriving DecidableEq, Repr

/-- What the host answers to a call: to `close`, and the descriptor of a file that is
opened, or none. -/
structure Answer where
  closing : Closing
  fopen : Option Int
  deriving DecidableEq, Repr

/-! ## FIO -/

def close (fm : Fm) (fd : Int) (closing : Closing) : Fm × Bool :=
  if fm.fiodes fd = none then (fm, true)
  else
    match closing with
    | .notFlushed => (fm, false)
    | .done => ({ fm with fiodes := update fm.fiodes fd none }, true)
    | .failed => ({ fm with fiodes := update fm.fiodes fd none }, false)

/-- A descriptor that is in use is never given to a new file. -/
def fmFopen (fm : Fm) (lfile : Int) (mode : Mode) (type : Int) (answer : Option Int) :
    Option (Fm × Int) := do
  let fd ← answer
  if fm.fiodes fd = none then
    pure ({ fm with
      fiodes := update fm.fiodes fd (some ⟨lfile, type, fm.nopened⟩)
      fwrite := update fm.fwrite fd (mode ≠ .readOnly)
      nopened := fm.nopened + 1 }, fd)
  else none

/-! ## The cache -/

def fmFcinit (cachesize : Nat) : Fcache := ⟨cachesize, 1, fun _ => 0, fun _ => ⟨0, 0, 0, 0⟩⟩

/-- The cache, made when there is none. -/
def Fm.cache (fm : Fm) : Fcache := fm.fcache.getD (fmFcinit fm.szfcache)

def Fm.withCache (fm : Fm) (fc : Fcache) : Fm := { fm with fcache := some fc }

def fmLocked (fm : Fm) (lfile : Int) : Bool := fm.lockout lfile

def fmFindlf (fc : Fcache) (lfile : Int) : Option Nat :=
  (List.range fc.nfiles).find? fun i => (fc.slots i).nref ≠ 0 ∧ (fc.slots i).lfile = lfile

/-- The loop over the slots for the oldest one, with the slots that are left. -/
def oldestSlot (slots : Nat → Fslot) : Nat → Nat → Int → Option Nat → Option Nat
  | 0, _, _, oldest => oldest
  | n + 1, i, lru, oldest =>
      let fs := slots i
      if fs.nref ≤ 1 ∧ (lru = 0 ∨ fs.lru < lru) then
        if fs.nref ≤ 0 then some i else oldestSlot slots n (i + 1) fs.lru (some i)
      else oldestSlot slots n (i + 1) lru oldest

/-- The file in the slot cannot be used in the new mode. -/
def mustReopen (fm : Fm) (fs : Fslot) (mode : Mode) : Bool :=
  mode = .newFile ∨ mode ≠ .readOnly ∧ fm.fwrite fs.fd = false

/-- The last part of `fm_getfd`; the position of a file that is appended to is left out. -/
def reference (fm : Fm) (fc : Fcache) (i : Nat) : Fm × Except FmError Int :=
  let fs := fc.slots i
  let refcnt := fc.refcnt + 1
  (fm.withCache { fc with
    refcnt
    slots := update fc.slots i { fs with lru := refcnt, nref := fs.nref + 1 } }, .ok fs.fd)

/-- The lfile is opened in a slot. -/
def openInSlot (fm : Fm) (fc : Fcache) (i : Nat) (lfile : Int) (mode : Mode) (type : Int)
    (answer : Option Int) : Fm × Except FmError Int :=
  let acmode := if mode = .writeOnly ∨ mode = .append then .readWrite else mode
  match fmFopen fm lfile acmode type answer with
  | none => (fm, .error .fopen)
  | some (fm, fd) =>
      reference fm
        { fc with slots := update fc.slots i { fc.slots i with fd, nref := 1, lfile } } i

/-- The part of `fm_getfd` from its label on. -/
def reopen (fm : Fm) (fc : Fcache) (i : Nat) (lfile : Int) (mode : Mode) (type : Int)
    (answer : Answer) : Fm × Except FmError Int :=
  let fs := fc.slots i
  if fs.nref > 1 then (fm, .error .fmfsinuse)
  else
    let (fm, closed) := if fs.nref = 1 then close fm fs.fd answer.closing else (fm, true)
    if ¬ closed then (fm, .error .close)
    else if fmLocked fm lfile then (fm, .error .fmlflocked)
    else openInSlot fm fc i lfile mode type answer.fopen

/-- An access to the lfile is counted. -/
def Fcache.access (fc : Fcache) (lfile : Int) : Fcache :=
  { fc with lfstat := update fc.lfstat lfile (fc.lfstat lfile + 1) }

def fmGetfd (fm : Fm) (lfile : Int) (mode : Mode) (type : Int) (answer : Answer) :
    Fm × Except FmError Int :=
  let fc := fm.cache.access lfile
  let fm := fm.withCache fc
  match fmFindlf fc lfile with
  | some i =>
      if mustReopen fm (fc.slots i) mode then reopen fm fc i lfile mode type answer
      else reference fm fc i
  | none =>
      match oldestSlot fc.slots fc.nfiles 0 0 none with
      | none => (fm, .error .fmfcfull)
      | some i => reopen fm fc i lfile mode type answer

/-- An error of `close` does not end the procedure. -/
def fmRetfd (fm : Fm) (lfile : Int) (answer : Answer) : Fm :=
  let fc := fm.cache
  let fm := fm.withCache fc
  match fmFindlf fc lfile with
  | none => fm
  | some i =>
      let fs := fc.slots i
      if fs.nref - 1 ≤ 0 then
        let (fm, _) := close fm fs.fd answer.closing
        fm.withCache { fc with slots := update fc.slots i { fs with nref := 0 } }
      else fm.withCache { fc with slots := update fc.slots i { fs with nref := fs.nref - 1 } }

def setLockout (fm : Fm) (lfile : Int) (locked : Bool) : Fm :=
  { fm with lockout := update fm.lockout lfile locked }

def fmLockout (fm : Fm) (lfile : Int) (answer : Answer) : Fm × Except FmError Unit :=
  let fc := fm.cache
  let fm := fm.withCache fc
  match fmFindlf fc lfile with
  | none => (setLockout fm lfile true, .ok ())
  | some i =>
      let fs := fc.slots i
      if fs.nref > 1 then (fm, .error .fmlokactlf)
      else if fs.nref - 1 ≤ 0 then
        let (fm, closed) := close fm fs.fd answer.closing
        let slot (nref : Int) : Fm :=
          fm.withCache { fc with slots := update fc.slots i { fs with nref } }
        if ¬ closed then (slot (fs.nref - 1), .error .close)
        else (setLockout (slot 0) lfile true, .ok ())
      else
        (setLockout (fm.withCache
          { fc with slots := update fc.slots i { fs with nref := fs.nref - 1 } }) lfile true,
          .ok ())

def fmUnlock (fm : Fm) (lfile : Int) : Fm := setLockout fm lfile false

/-- The descriptors that are flushed; an error is only a warning. -/
def fmFcsync (fm : Fm) : List Int :=
  match fm.fcache with
  | none => []
  | some fc =>
      ((List.range fc.nfiles).filter fun i => (fc.slots i).nref ≥ 1).map fun i => (fc.slots i).fd

/-! ## Sessions -/

inductive Call where
  | getfd (lfile : Int) (mode : Mode) (type : Int)
  | retfd (lfile : Int)
  | lockout (lfile : Int)
  | unlock (lfile : Int)
  | fcsync
  deriving DecidableEq, Repr

/-- A datafile with the references of each lfile that have been handed out and not been
returned: the descriptor, and the file it stood for. -/
structure Session where
  fm : Fm
  taken : Int → List (Int × Option OpenFile)

/-- The descriptor that `fm_getfd` returns is handed out. -/
def Session.handOut (taken : Int → List (Int × Option OpenFile)) (lfile : Int) :
    Fm × Except FmError Int → Session
  | (fm, .ok fd) => ⟨fm, update taken lfile ((fd, fm.fiodes fd) :: taken lfile)⟩
  | (fm, .error _) => ⟨fm, taken⟩

def Session.call (s : Session) : Call × Answer → Session
  | (.getfd lfile mode type, answer) =>
      handOut s.taken lfile (fmGetfd s.fm lfile mode type answer)
  | (.retfd lfile, answer) =>
      ⟨fmRetfd s.fm lfile answer, update s.taken lfile (s.taken lfile).tail⟩
  | (.lockout lfile, answer) => ⟨(fmLockout s.fm lfile answer).1, s.taken⟩
  | (.unlock lfile, _) => ⟨fmUnlock s.fm lfile, s.taken⟩
  | (.fcsync, _) => s

/-- Before the first call there is no cache. -/
def Session.start (fm : Fm) : Session := ⟨{ fm with fcache := none }, fun _ => []⟩

/-- The slots in use are those of open files, one for each lfile, and what has been handed
out is still open. -/
structure Session.CacheValid (s : Session) : Prop where
  isOpen : ∀ i < s.fm.cache.nfiles, (s.fm.cache.slots i).nref ≠ 0 →
    ∃ file, s.fm.fiodes (s.fm.cache.slots i).fd = some file ∧
      file.lfile = (s.fm.cache.slots i).lfile
  single : ∀ i < s.fm.cache.nfiles, ∀ j < s.fm.cache.nfiles, (s.fm.cache.slots i).nref ≠ 0 →
    (s.fm.cache.slots j).nref ≠ 0 → (s.fm.cache.slots i).lfile = (s.fm.cache.slots j).lfile →
    i = j
  held : ∀ lfile, ∀ r ∈ s.taken lfile,
    ∃ file, r.2 = some file ∧ s.fm.fiodes r.1 = some file ∧ file.lfile = lfile

/-- The slot whose file `fm_getfd` closes to open another one. -/
def reopened (fm : Fm) (lfile : Int) (mode : Mode) : Option Nat :=
  match fmFindlf fm.cache lfile with
  | some i => if mustReopen fm (fm.cache.slots i) mode then some i else none
  | none => oldestSlot fm.cache.slots fm.cache.nfiles 0 0 none

/-- A call does not close the file of an idle slot and then fail: the file is not closed at
all, or the lfile is not locked out and is opened. -/
def Session.Replaces (s : Session) : Call × Answer → Prop
  | (.getfd lfile mode _, answer) =>
      ∀ i, reopened s.fm lfile mode = some i → (s.fm.cache.slots i).nref = 1 →
        answer.closing = .notFlushed ∨
          answer.closing = .done ∧ fmLocked s.fm lfile = false ∧
            ∃ fd, answer.fopen = some fd ∧
              (fd = (s.fm.cache.slots i).fd ∨ s.fm.fiodes fd = none)
  | _ => True

end Iraf.Fmio
