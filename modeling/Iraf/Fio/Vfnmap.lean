import Mathlib.Logic.Function.Basic
import Iraf.Lib.Cells

/-!
# The filename mapping database

A virtual filename with a long root is looked up in the mapping file of its directory.  `vfnadd` and
`vfndel` change the table in memory, and `vfnclose` writes it if the lock on the file has not
expired.
-/

namespace Iraf.Vfn

open Cells

abbrev Name := List Char

def szVfnfn : Nat := 127
def szOsdir : Nat := 255
def szPathname : Nat := 511
def szMapfname : Nat := 959
def maxRootlen : Nat := 128
def maxLongfnames : Nat := 100
def maxReads : Nat := 5
def maxDegeneracy : Nat := 50
def minTimeleft : Int := 60

def vMap : Int := 1
def vAdd : Int := 2
def vDel : Int := 3

inductive AccessMode
  | read | write | unmap
  deriving DecidableEq, Repr

inductive VfnError
  | fopen | fread | fvfnchksum | fwrite | fclose
  /-- The mapping file cannot be locked. -/
  | noWritePerm
  | fdegen (fname : Name)
  | ftmlongfn (fname : Name)
  /-- A store by a pointer that does not lead to the descriptor. -/
  | wildStore
  deriving DecidableEq, Repr

/-! ## Descriptors -/

/-- The descriptor of a virtual filename.  A long root has been squeezed. -/
structure Vfd where
  acmode : AccessMode
  vfn : Name
  osdir : Name
  root : Name
  extn : Name
  longroot : Bool
  length_osdir : osdir.length ≤ szOsdir
  length_root : longroot = true → root.length = maxRootlen

structure FnPair where
  vfn : Name
  osfn : Name
  deriving DecidableEq, Repr

/-- The descriptor of a mapping file.  The pairs are counted from one. -/
structure Mfd where
  checksum : Int
  chan : Int
  locktime : Int
  nfiles : Nat
  lastop : Int
  modified : Bool
  addzmd : Bool
  delzmd : Bool
  mapfname : Name
  fnmap : Nat → FnPair

/-- The table. -/
def Mfd.pairs (d : Mfd) : List FnPair := (List.range d.nfiles).map fun k => d.fnmap (k + 1)

/-- A descriptor that is cleared. -/
def Mfd.zero : Mfd where
  checksum := 0
  chan := 0
  locktime := 0
  nfiles := 0
  lastop := 0
  modified := false
  addzmd := false
  delzmd := false
  mapfname := []
  fnmap _ := ⟨[], []⟩

/-- What the host is told to do. -/
inductive Action
  | write (chan : Int) (image : Mfd)
  | close (chan : Int)
  | unlock (osfn : Name) (locktime : Int)
  | delete (osfn : Name)
  | rmlock (osfn : Name)

/-- The descriptor to which the virtual filename leads, and the memory at NULL. -/
structure State where
  /-- Counts what is asked of the host. -/
  time : Nat
  vMfd : Int
  mfd : Mfd
  null : Mfd
  /-- What is left in the local variable `mfd` of `vfn_enter`. -/
  enterMfd : Int
  /-- The mapping file as it was last read. -/
  lastRead : Mfd
  log : List Action

namespace State

/-- What a pointer leads to. -/
def desc (s : State) (mfd : Int) : Mfd := if mfd = s.vMfd then s.mfd else s.null

def setMfd (s : State) (d : Mfd) : State := { s with mfd := d }

def setDesc (s : State) (mfd : Int) (d : Mfd) : State :=
  if mfd = s.vMfd then s.setMfd d else { s with null := d }

def act (s : State) (a : Action) : State := { s with log := a :: s.log }

def tick (s : State) : State := { s with time := s.time + 1 }

end State

/-! ## The host -/

inductive Contents
  | empty
  | short
  | image (d : Mfd)

/-- What happens when the mapping file is opened, locked and read. -/
structure Reading where
  fileExists : Bool
  locktime : Option Int
  chan : Option Int
  contents : Nat → Contents

/-- The host at each moment: what other processes do shows in its answers. -/
structure Host where
  present : Nat → Name → Bool
  reading : Nat → Reading
  timeleft : Nat → Name → Int → Int
  written : Nat → Bool
  closed : Nat → Bool
  calloc : Nat → Int
  calloc_ne : ∀ time, calloc time ≠ 0
  zfsubd : Name → Name → Name
  /-- The sum of the chars of a descriptor. -/
  checksum : Mfd → Int
  /-- The root that `vfn_encode` gives. -/
  encodeRoot : Name → Name

/-- The escapes that are left are stripped. -/
def osfnPkfname (osfn : Name) (maxch : Nat) : Name := (osfn.take maxch).filter (· ≠ '\\')

/-! ## Entering a name -/

def itoc (num : Nat) : Name := Nat.toDigits 10 num

/-- The first attempt at the name of a new file. -/
def firstName (vfd : Vfd) : Name :=
  let fname := vfd.osdir.take szPathname
  let fname := fname ++ vfd.root.take (szPathname - fname.length)
  if vfd.extn.length > 0 then
    fname ++ '.' :: vfd.extn.take (szPathname - (fname.length + 1))
  else fname

/-- The number overwrites the root from its second character on. -/
def numbered (vfd : Vfd) (fname : Name) (num : Nat) : Name :=
  overlay fname (vfd.osdir.length + 1) (itoc num)

/-- The inner loop: `n` runs down from nine. -/
def tryDecade (vfd : Vfd) (maxch : Nat) (present : Name → Bool) (m : Nat) :
    Nat → Name × Bool → Name × Bool
  | 0, s => s
  | n + 1, (fname, fileExists) =>
    if fileExists then
      let fname := numbered vfd fname (m * 10 + n)
      tryDecade vfd maxch present m n (fname, present (osfnPkfname fname maxch))
    else (fname, fileExists)

/-- The outer loop, which is left after five passes. -/
def tryDecades (vfd : Vfd) (maxch : Nat) (present : Name → Bool) :
    Nat → Nat → Name × Bool → Nat × Name
  | 0, m, (fname, _) => (m, fname)
  | fuel + 1, m, (fname, fileExists) =>
    if fileExists ∧ m * 10 < maxDegeneracy then
      tryDecades vfd maxch present fuel (m + 1)
        (tryDecade vfd maxch present m 10 (fname, fileExists))
    else (m, fname)

/-- Adds the pair to the database. -/
def addPair (vfd : Vfd) (maxch : Nat) (fname : Name) (s : State) :
    Except VfnError Name × State :=
  let s := { s with enterMfd := s.vMfd }
  let fn := s.mfd.nfiles + 1
  let s := s.setMfd { s.mfd with nfiles := fn }
  if fn > maxLongfnames then (.error (.ftmlongfn fname), s)
  else
    let pair := ⟨vfd.vfn.take szVfnfn, (fname.drop vfd.osdir.length).take szVfnfn⟩
    let s := s.setMfd { s.mfd with fnmap := Function.update s.mfd.fnmap fn pair }
    (.ok (osfnPkfname fname maxch), s.setMfd { s.mfd with lastop := vAdd, modified := true })

def vfnEnter (vfd : Vfd) (maxch : Nat) (present : Name → Bool) (s : State) :
    Except VfnError Name × State :=
  let fname := firstName vfd
  if present (osfnPkfname fname maxch) then
    if s.enterMfd = s.vMfd then
      let s := s.setMfd { s.mfd with addzmd := true }
      let (m, fname) := tryDecades vfd maxch present (maxDegeneracy / 10 + 1) 0 (fname, true)
      if m * 10 ≥ maxDegeneracy then (.error (.fdegen fname), s)
      else addPair vfd maxch fname s
    else (.error .wildStore, s)
  else addPair vfd maxch fname s

end Iraf.Vfn
