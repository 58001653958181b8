import Iraf.Lib.Cells
import Iraf.Fmtio.Text

/-!
# File descriptors

The part of `fio.com` and `fio.h` that belongs to one open file.  Pointers are
addresses: those to chars index `memc`, those to the saved pointers of the
pushback buffer index `memi`.  The addresses that `malloc` gives are part of the
state.

The device drivers of a binary file, and the procedures that make the file
buffer, fill it and write it out: `areadb.x`, `awriteb.x`, `awaitb.x`,
`fwatio.x`, `ffilbf.x`, `fflsbf.x`, `fmkbfs.x`, `ffault.x`, `flsbuf.x`,
`filbuf.x`.  Transfers are counted in chars of `SZB_CHAR` bytes.

`read.x` for any file; `write.x`, `seek.x`, `flush.x`, `note.x` and `ffilsz.x` for
binary files; `fcanpb.x`.
-/

namespace Iraf.Fio

open Cells

inductive FileType where
  | text
  | binary
  | string
  | spool
  deriving DecidableEq, Repr

inductive IoMode where
  | inactive
  | readInProgress
  | writeInProgress
  deriving DecidableEq, Repr

/-- How a procedure can fail. -/
inductive FioErr where
  | fnoreadperm
  | fnowriteperm
  | fseek
  | fardoob
  | fardalign
  | fawroob
  | fawralign
  | fread
  | fwrite
  | fpbovfl
  /-- A division by a buffer size of zero. -/
  | divide
  deriving DecidableEq, Repr

@[simp] abbrev ERR : Int := -1
@[simp] abbrev EOF : Int := -2
@[simp] abbrev BOF : Int := -3
@[simp] abbrev szLine : Nat := 1023
@[simp] abbrev szPbbuf : Int := 1024

/-- `chan` is what is at the other end of the channel: all chars of a random
access file, or the chars that a text or streaming device has not delivered
yet.  `sent` are the chars that a streaming device was given, and `pending` is
what the driver reports of the last transfer. -/
structure Fd where
  iop : Int
  itop : Int
  otop : Int
  bufptr : Int
  buftop : Int
  boffset : Int
  ffRead : Bool
  ffWrite : Bool
  ffPushback : Bool
  ffRaw : Bool
  ftype : FileType
  fblksize : Int
  fbufsize : Int
  fmaxbufsize : Int
  firstbufoff : Int
  filsize : Int
  fnchars : Int
  filstat : Int
  fnbytes : Int
  fbufmode : IoMode
  ffiomode : IoMode
  fpbbuf : Int
  fpbbufsize : Int
  fpbtop : Int
  fpbiop : Int
  fpbsp : Int
  memc : Memory Int
  memi : Memory Int
  chan : List Int
  sent : List Int
  pending : Int
  bufAt : Int
  pbAt : Int

/-- The device drivers and the host.  `give left maxch` is how many of the chars
that are left one read of a text or streaming device delivers. -/
structure Host where
  give : List Int → Int → Nat
  give_le : ∀ left maxch, give left maxch ≤ left.length
  give_le_maxch : ∀ left maxch, (give left maxch : Int) ≤ max 0 maxch
  give_pos : ∀ left maxch, left ≠ [] → 0 < maxch → 0 < give left maxch
  szInt : Int
  szInt_pos : 0 < szInt

namespace Fd

/-- `LNOTE`. -/
def lnote (f : Fd) : Int := f.boffset + f.iop - f.bufptr

/-- `UPDATE_IOP`. -/
def updateIop (f : Fd) : Fd :=
  if f.bufptr ≠ 0 ∧ f.otop = f.buftop then
    let top := min f.buftop (max f.itop f.iop)
    { f with itop := top, otop := top }
  else f

/-- `LSEEK`. -/
def lseek (f : Fd) (offset : Int) : Fd :=
  let f := f.updateIop
  { f with iop := offset - f.boffset + f.bufptr }

/-- `BUF_MODIFIED`. -/
def bufModified (f : Fd) : Bool := decide (f.otop > f.bufptr)

/-- A streaming device. -/
def stream (f : Fd) : Bool := decide (f.fblksize = 0)

/-- The i/o pointer of a reader does not point into the data of the buffer. -/
def atTop (f : Fd) : Bool := decide (f.iop < f.bufptr) || decide (f.iop ≥ f.itop)

end Fd

/-! ## Buffer faults -/

variable (host : Host)

/-! ## Drivers -/

/-- `ZARDBF` and its status. -/
def zardbf (f : Fd) (buffer maxchars offset : Int) : Fd :=
  if f.stream then
    let n := host.give f.chan maxchars
    { f with
      memc := put f.memc buffer (f.chan.take n)
      chan := f.chan.drop n
      pending := n }
  else
    let chars := (f.chan.drop (offset - 1).toNat).take maxchars.toNat
    { f with
      memc := put f.memc buffer chars
      pending := chars.length }

/-- `ZAWRBF` and its status. -/
def zawrbf (f : Fd) (chars : List Int) (offset : Int) : Fd :=
  if f.stream then
    { f with sent := f.sent ++ chars, pending := chars.length }
  else
    { f with
      chan := overlay f.chan (offset - 1).toNat chars
      pending := chars.length }

/-! ## Transfers -/

def awaitb (f : Fd) : Int × Fd :=
  if f.ffiomode = .inactive then (f.fnbytes, f)
  else
    let nchars := f.pending
    (if nchars ≥ 0 then nchars else ERR,
      { f with fnbytes := nchars, filstat := nchars, ffiomode := .inactive })

def await (f : Fd) : Int × Fd :=
  let (nchars, f) := awaitb f
  if nchars ≤ 0 then (nchars, f) else (f.filstat, f)

def aread (f : Fd) (buffer maxchars offset : Int) : Except FioErr Fd :=
  let f := if f.ffiomode ≠ .inactive then (awaitb f).2 else f
  if !f.stream && decide (offset < 1) then .error .fardoob
  else if !f.stream && decide (f.filsize ≥ 0 ∧ offset - f.filsize > 1) then
    .ok { f with fnbytes := 0 }
  else if f.fblksize > 0 ∧ (offset - 1).tmod f.fblksize ≠ 0 then
    .error .fardalign
  else .ok { zardbf host f buffer maxchars offset with ffiomode := .readInProgress }

def awrite (f : Fd) (chars : List Int) (offset : Int) : Except FioErr Fd :=
  if chars.length = 0 then .ok f
  else
    let f := if f.ffiomode ≠ .inactive then (awaitb f).2 else f
    if f.fblksize > 0 ∧ (offset < 1 ∨ offset - f.filsize > 1) then
      .error .fawroob
    else if f.fblksize > 0 ∧ (offset - 1).tmod f.fblksize ≠ 0 then
      .error .fawralign
    else
      let fileOffset := if f.fblksize > 0 then offset else 0
      let f := if f.filsize ≥ 0 then
        { f with filsize := max f.filsize (fileOffset - 1 + chars.length) }
        else f
      .ok { zawrbf f chars offset with ffiomode := .writeInProgress }

/-- Wait for the transfer of the file buffer and set the pointers. -/
def fwatio (f : Fd) : Except FioErr Fd :=
  if f.fbufmode = .inactive then .ok f
  else
    let (nchars, f) := await f
    let bufmode := f.fbufmode
    let f := { f with fbufmode := .inactive }
    if bufmode = .readInProgress then
      if nchars = ERR then .error .fread
      else .ok { f with itop := f.bufptr + nchars, otop := f.bufptr }
    else if nchars = ERR then .error .fwrite
    else .ok { f with otop := f.bufptr }

/-- Fill the file buffer from the file. -/
def ffilbf (f : Fd) (bp bufsize bufferOffset : Int) : Except FioErr Fd := do
  let f ← fwatio f
  let atEof := decide (f.filsize ≥ 0 ∧ bufferOffset > f.filsize)
  if !f.stream && atEof then
    .ok { f with itop := f.bufptr, otop := f.bufptr }
  else
    let f ← aread host f bp bufsize bufferOffset
    .ok { f with fbufmode := .readInProgress }

/-- Write out the first chars of the file buffer. -/
def fflsbf (f : Fd) (bp maxchars bufferOffset : Int) : Except FioErr Fd := do
  let f ← fwatio f
  let f ← awrite f (fetch f.memc bp maxchars.toNat) bufferOffset
  .ok { f with fbufmode := .writeInProgress }

/-! ## The file buffer -/

/-- The size that `fmkbfs` gives the buffer of a file. -/
def promoted (f : Fd) : Int :=
  if f.ftype ≠ .text then
    let size := if f.fblksize > 1 then
      (f.fbufsize + f.fblksize - 1).tdiv f.fblksize * f.fblksize
      else max 1 f.fbufsize
    if f.fmaxbufsize > 0 then min f.fmaxbufsize size else size
  else f.fbufsize

def fmkbfs (f : Fd) : Fd :=
  let f := { f with fbufsize := promoted f }
  let offset := f.lnote
  let bp := f.bufAt
  let f := { f with
    boffset := 0, bufptr := bp, buftop := bp + f.fbufsize, itop := bp, otop := bp }
  if f.ftype = .binary then f.lseek offset else { f with iop := bp }

/-- What a buffer fault is for. -/
inductive RwFlag where
  | read
  | write
  deriving DecidableEq, Repr

/-- The start of the buffer that holds an offset of the file. -/
def bufferOffset (f : Fd) (fileOffset : Int) : Except FioErr Int :=
  if f.stream then .ok fileOffset
  else if fileOffset ≤ 0 then .error .fseek
  else if f.fbufsize = 0 then .error .divide
  else .ok ((fileOffset - f.firstbufoff).tdiv f.fbufsize * f.fbufsize + f.firstbufoff)

/-- Write out the file buffer when it was written into. -/
def flushModified (f : Fd) : Except FioErr Fd :=
  if f.bufModified then do
    let f ← fflsbf f f.bufptr (f.otop - f.bufptr) f.boffset
    fwatio f
  else .ok f

/-- Put the file buffer down on the part of the file at `buffer_offset`. -/
def loadBuffer (f : Fd) (fileOffset bufferOffset nreserve : Int) (rwflag : RwFlag) :
    Except FioErr Fd :=
  let bp := f.bufptr
  let blockWrite := decide (rwflag = .write) &&
    (f.stream || decide (fileOffset = bufferOffset ∧ nreserve ≥ f.fbufsize))
  if blockWrite then .ok { f with itop := bp, otop := bp }
  else if !f.ffRead then
    let atEof := decide (f.filsize ≥ 0 ∧ bufferOffset > f.filsize)
    .ok { f with
      otop := bp
      itop := if atEof then bp else bp + f.fbufsize
      memc := put f.memc bp (List.replicate f.fbufsize.toNat 0) }
  else do
    let f ← ffilbf host f bp f.fbufsize bufferOffset
    fwatio f

/-- The result is the number of chars from the i/o pointer on, or `EOF`. -/
def ffault (f : Fd) (fileOffset nreserve : Int) (rwflag : RwFlag) :
    Except FioErr (Int × Fd) := do
  let offset ← bufferOffset f fileOffset
  let f ← flushModified f.updateIop
  let f ← loadBuffer host f fileOffset offset nreserve rwflag
  let f := { f with boffset := offset }.lseek fileOffset
  let ncharsRead := f.itop - f.iop
  .ok (if ncharsRead ≤ 0 then EOF else ncharsRead, f)

/-- Make room in the buffer of a binary file for chars to be written. -/
def flsbuf (f : Fd) (nreserve : Int) : Except FioErr Fd :=
  if !f.ffWrite then .error .fnowriteperm
  else do
    let iopInRange := decide (f.iop ≥ f.bufptr ∧ f.iop < f.buftop)
    let (ncharsWritten, f) ←
      if f.bufptr = 0 then
        let f := fmkbfs f
        ffault host { f with itop := f.bufptr } f.lnote nreserve .write
      else if iopInRange && decide (f.otop < f.buftop) then .ok (0, f)
      else ffault host f f.lnote nreserve .write
    if ncharsWritten = ERR then .error .fwrite
    else .ok { f with otop := f.buftop }

/-- Take the saved pointers from the pushback stack. -/
def popFrame (f : Fd) : Fd :=
  let pbSp := f.fpbsp
  let f := { f with
    iop := f.memi pbSp
    itop := f.memi (pbSp + 1)
    bufptr := f.memi (pbSp + 2)
    fpbiop := f.memi (pbSp + 3)
    fpbsp := pbSp + 4 }
  if f.fpbsp ≥ (f.fpbtop - 1).tdiv host.szInt + 1 then { f with ffPushback := false }
  else f

/-- How often the stack can be popped. -/
def frameBound (f : Fd) : Nat :=
  ((f.fpbtop - 1).tdiv host.szInt + 1 - f.fpbsp).toNat + 1

/-- The loop of `filbuf` over the saved pointers: the number of chars left in
the first buffer that has some. -/
def popFrames : Nat → Fd → Option Int × Fd
  | 0, f => (none, f)
  | fuel + 1, f =>
      let f := popFrame host f
      if f.itop - f.iop > 0 then (some (f.itop - f.iop), f)
      else if f.ffPushback then popFrames fuel f
      else (none, f)

/-- The part of `filbuf` that reads from the device. -/
def fillFromDevice (f : Fd) : Except FioErr (Int × Fd) :=
  if !f.ffRead then
    if f.ftype = .string ∨ f.ftype = .spool then .ok (EOF, f)
    else .error .fnoreadperm
  else do
    let f := if f.bufptr = 0 then fmkbfs f else f
    let bp := f.bufptr
    let (ncharsRead, f) ←
      if f.ftype = .text then
        let maxch := if f.ffRaw then 1 else f.fbufsize
        let n := host.give f.chan maxch
        .ok ((n : Int), { f with
          memc := put f.memc bp (f.chan.take n)
          chan := f.chan.drop n
          iop := bp
          itop := max bp (bp + n)
          otop := bp })
      else if f.fnchars < 0 then
        .ok (-f.fnchars, { f with iop := bp, itop := bp - f.fnchars, otop := bp })
      else ffault host f f.lnote 0 .read
    if ncharsRead = ERR then .error .fread
    else .ok (if ncharsRead = 0 then EOF else ncharsRead, f)

def filbuf (f : Fd) : Except FioErr (Int × Fd) :=
  if f.ffPushback then
    match popFrames host (frameBound host f) f with
    | (some ncharsRead, f) => .ok (ncharsRead, f)
    | (none, f) => fillFromDevice host f
  else fillFromDevice host f

/-! ## Reading and writing -/

/-- The part of the loop of `read` before the copy: the number of chars to stop
at, or `none` to stop at once. -/
def refill (f : Fd) (maxchars maxch nchars : Int) : Except FioErr (Option Int × Fd) :=
  if f.atTop then do
    let (ncharsRead, f) ← filbuf host f
    if ncharsRead = EOF then .ok (none, f)
    -- a record structured device or the end of the file
    else if f.itop < f.buftop ∨ f.stream then
      .ok (some (min maxchars (nchars + ncharsRead)), f)
    else .ok (some maxch, f)
  else .ok (some maxch, f)

/-- The loop of `read`; `buffer` are the chars read so far. -/
def readLoop (maxchars : Int) :
    Nat → Fd → Int → List Int → Except FioErr (List Int × Fd)
  | 0, f, _, buffer => .ok (buffer, f)
  | fuel + 1, f, maxch, buffer =>
      if (buffer.length : Int) < maxch then do
        match ← refill host f maxchars maxch buffer.length with
        | (none, f) => .ok (buffer, f)
        | (some maxch, f) =>
            let chunkSize := min (maxch - buffer.length) (f.itop - f.iop)
            if chunkSize ≤ 0 then .ok (buffer, f)
            else
              readLoop maxchars fuel { f with iop := f.iop + chunkSize } maxch
                (buffer ++ fetch f.memc f.iop chunkSize.toNat)
      else .ok (buffer, f)

/-- `read`: the value of the function and the chars in the buffer. -/
def read (f : Fd) (maxchars : Int) : Except FioErr (Int × List Int × Fd) := do
  let (buffer, f) ← readLoop host maxchars maxchars.toNat f maxchars []
  let nchars : Int := buffer.length
  let f := { f with filstat := nchars, fnchars := nchars }
  .ok (if nchars = 0 then EOF else nchars, buffer, f)

/-- The part of the loop of `write` before the copy. -/
def makeRoom (f : Fd) (nreserve : Int) : Except FioErr Fd :=
  if f.iop < f.bufptr ∨ f.iop ≥ f.otop then flsbuf host f nreserve else .ok f

/-- The loop of `write` over the chars that are left; those that were not written
are returned. -/
def writeLoop : Nat → Fd → List Int → Except FioErr (List Int × Fd)
  | 0, f, buffer => .ok (buffer, f)
  | fuel + 1, f, buffer =>
      if buffer = [] then .ok (buffer, f)
      else do
        let f ← makeRoom host f buffer.length
        let chunkSize := min (buffer.length : Int) (f.otop - f.iop)
        if chunkSize ≤ 0 then .ok (buffer, f)
        else
          writeLoop fuel
            { f with
              memc := put f.memc f.iop (buffer.take chunkSize.toNat)
              iop := f.iop + chunkSize }
            (buffer.drop chunkSize.toNat)

def write (f : Fd) (buffer : List Int) : Except FioErr Fd := do
  let (left, f) ← writeLoop host buffer.length f buffer
  .ok { f with fnchars := buffer.length - left.length }

/-! ## Positions -/

/-- Cancel the pushed back data. -/
def fcanpb (f : Fd) : Fd :=
  go (frameBound host f) f
where
  go : Nat → Fd → Fd
    | 0, f => f
    | fuel + 1, f => if f.ffPushback then go fuel (popFrame host f) else f

/-- The file size in chars, which is noted in the descriptor. -/
def ffilsz (f : Fd) : Int × Fd :=
  let f := f.updateIop
  let size := if f.filsize < 0 then (f.chan.length : Int) else f.filsize
  let size := if f.bufModified then max size (f.boffset - 1 + (f.itop - f.bufptr))
    else size
  (size, { f with filsize := size })

def seek (f : Fd) (offset : Int) : Fd :=
  let f := (fcanpb host f).updateIop
  let (fileOffset, f) :=
    if offset = BOF then (1, f)
    else if offset = EOF then
      let (size, f) := ffilsz f
      (size + 1, f)
    else (offset, f)
  { f with iop := fileOffset - f.boffset + f.bufptr }

def note (f : Fd) : Int := f.lnote

def flush (f : Fd) : Except FioErr Fd := do
  let f := (fcanpb host f).updateIop
  if f.bufModified then
    if !f.ffWrite then .error .fnowriteperm
    else
      let bp := f.bufptr
      let f ← fflsbf f bp (f.otop - bp) f.boffset
      let f ← fwatio f
      let f := if f.stream then
        { f with boffset := f.lnote, iop := bp, otop := bp, itop := bp } else f
      if f.filstat = ERR then .error .fwrite
      else .ok { f with otop := bp }
  else .ok f

end Iraf.Fio
