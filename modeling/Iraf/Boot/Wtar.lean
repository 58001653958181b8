import Mathlib.Algebra.BigOperators.Group.List.Basic
import Mathlib.Tactic.IntervalCases
import Mathlib.Logic.Function.Basic
import Iraf.Lib.Numeral

/-!
# Headers of a tar file

The header block as `putheader` of `wtar.c` writes it and `getheader` of `rtar.c`
decodes it.  A C string in a field of the block ends at a null byte.

`putheader`, `copyfile`, `putblock` and `endtar` of `wtar.c`.  Blocks are collected
in a buffer, which is written to the tape as one record.
-/

namespace Iraf.Boot

open Numeral

def tblock : Nat := 512
def namsiz : Nat := 100

@[simp] abbrev blank : UInt8 := 32
@[simp] abbrev newline : UInt8 := 10
@[simp] abbrev slash : UInt8 := 47

def lfSymlink : Nat := 2
def lfDir : Nat := 5

@[ext] structure Block where
  bytes : List UInt8
  length_eq : bytes.length = tblock

/-- The value of a char of C, which has a sign. -/
def schar (b : UInt8) : Int := if b.toNat < 128 then b.toNat else b.toNat - 256

def cchksum (bytes : List UInt8) : Int := (bytes.map schar).sum

structure Fheader where
  name : List UInt8
  mode : Int
  uid : Int
  gid : Int
  isdir : Bool
  size : Int
  mtime : Int
  linkflag : Nat
  linkname : List UInt8

/-! ## Octal numbers -/

def octal (n : Nat) : List UInt8 := (numeral 8 n).map fun d => UInt8.ofNat (48 + d)

/-- An integer of `bits` bits as the formats for unsigned numbers take it. -/
def unsigned (bits : Nat) (x : Int) : Nat := (x % 2 ^ bits).toNat

/-- An unsigned number stored into an integer of `bits` bits. -/
def signed (bits n : Nat) : Int :=
  (n % 2 ^ bits : Nat) - if n % 2 ^ bits < 2 ^ (bits - 1) then 0 else 2 ^ bits

/-- The format `%no` of a number. -/
def formatOctal (width n : Nat) : List UInt8 := (octal n).leftpad width blank

/-- The chars of a string that fit a buffer of `n` chars. -/
def snprintf (n : Nat) (text : List UInt8) : List UInt8 := text.take (n - 1)

def isspace (ch : UInt8) : Bool := (9 ≤ ch && ch ≤ 13) || ch == 32

def isOctal (ch : UInt8) : Bool := 48 ≤ ch && ch ≤ 55

/-- The sign that `sscanf` passes over, and what follows it. -/
def scanSign : List UInt8 → Bool × List UInt8
  | ch :: text => if ch = 45 then (true, text) else if ch = 43 then (false, text)
      else (false, ch :: text)
  | [] => (false, [])

/-- The conversion `%o` of `sscanf` for an integer of `bits` bits, which leaves the
old value when there is no number. -/
def sscanfOctal (bits : Nat) (text : List UInt8) (old : Int) : Int :=
  let (neg, text) := scanSign (text.dropWhile isspace)
  let digits := text.takeWhile isOctal
  if digits = [] then old
  else
    let n := value 8 (digits.map fun ch => ch.toNat - 48)
    signed bits (unsigned bits (if neg then -(n : Int) else n))

/-! ## Writing -/

/-- A field of `n` bytes that was cleared before the text was stored. -/
def field (n : Nat) (text : List UInt8) : List UInt8 :=
  text.take n ++ List.replicate (n - text.length) 0

def linkflagByte (linkflag : Nat) : UInt8 :=
  if linkflag = lfSymlink then 50 else if linkflag = lfDir then 53 else 48

/-- The fields before the checksum. -/
def beforeChksum (fh : Fheader) : List UInt8 :=
  field namsiz (fh.name.take (namsiz - 1)) ++
    (field 8 (snprintf 8 (formatOctal 6 (unsigned 32 fh.mode) ++ [blank])) ++
    (field 8 (snprintf 8 (formatOctal 6 (unsigned 32 fh.uid) ++ [blank])) ++
    (field 8 (snprintf 8 (formatOctal 6 (unsigned 32 fh.gid) ++ [blank])) ++
    (field 12 (snprintf 12 (formatOctal 11 (unsigned 64 fh.size) ++ [blank])) ++
    field 12 (snprintf 12 (formatOctal 11 (unsigned 64 fh.mtime) ++ [blank]))))))

/-- The fields after the checksum, and the rest of the block. -/
def afterChksum (fh : Fheader) : List UInt8 :=
  linkflagByte fh.linkflag ::
    (field namsiz (fh.linkname.take (namsiz - 1)) ++ List.replicate 255 0)

def headerWith (fh : Fheader) (chksum : List UInt8) : List UInt8 :=
  beforeChksum fh ++ (chksum ++ afterChksum fh)

/-- The block is summed with blanks for the checksum. -/
def blankChksum : List UInt8 := List.replicate 8 blank

def headerSum (fh : Fheader) : Int := cchksum (headerWith fh blankChksum)

/-- Eight bytes of the buffer that the sum is printed to.  `stale` was in the last of
them. -/
def chksumField (stale : UInt8) (sum : Int) : List UInt8 :=
  (snprintf 8 (formatOctal 6 (unsigned 32 sum)) ++ [0, stale]).take 8

def headerBytes (stale : UInt8) (fh : Fheader) : List UInt8 :=
  headerWith fh (chksumField stale (headerSum fh))

/-! ## Reading -/

def nameAt : Nat := 0
def modeAt : Nat := 100
def uidAt : Nat := 108
def gidAt : Nat := 116
def sizeAt : Nat := 124
def mtimeAt : Nat := 136
def chksumAt : Nat := 148
def linkflagAt : Nat := 156
def linknameAt : Nat := 157

/-- The C string at a place of the block. -/
def cstring (hb : List UInt8) (place : Nat) : List UInt8 :=
  (hb.drop place).takeWhile (· ≠ 0)

def blanked (hb : List UInt8) : List UInt8 :=
  hb.take chksumAt ++ (blankChksum ++ hb.drop linkflagAt)

/-- The link flag of a header, 0 for anything but a digit. -/
def linkflagOf (ch : UInt8) : Nat := if 48 ≤ ch ∧ ch ≤ 57 then ch.toNat - 48 else 0

/-- The fields of the block in the header `fh`, which keeps what is not there. -/
def decodeHeader (hb : List UInt8) (fh : Fheader) : Fheader where
  name := cstring hb nameAt
  isdir := (cstring hb nameAt).getLast? = some slash
  mode := sscanfOctal 32 (hb.drop modeAt) fh.mode
  uid := sscanfOctal 32 (hb.drop uidAt) fh.uid
  gid := sscanfOctal 32 (hb.drop gidAt) fh.gid
  size := sscanfOctal 64 (hb.drop sizeAt) fh.size
  mtime := sscanfOctal 64 (hb.drop mtimeAt) fh.mtime
  linkflag := linkflagOf (hb.getD linkflagAt 0)
  linkname :=
    if linkflagOf (hb.getD linkflagAt 0) = 0 then fh.linkname else cstring hb linknameAt

/-- What a block is taken for. -/
inductive Verdict where
  | header
  | endOfTape
  | badSum
  deriving DecidableEq

/-- The test of the checksum, and the sum that was scanned last. -/
def testHeader (hb : List UInt8) (tapeChecksum : Int) : Verdict × Int :=
  if hb.getD chksumAt 0 = 0 ∧ cchksum hb = 0 then (.endOfTape, tapeChecksum)
  else
    let tapeChecksum := sscanfOctal 32 (hb.drop chksumAt) tapeChecksum
    (if cchksum (blanked hb) = tapeChecksum then .header else .badSum, tapeChecksum)

/-! ## Writing a tar file -/

def nblock : Nat := 20

/-- The first bytes of a buffer, with nulls where it has none. -/
def Block.ofBytes (bytes : List UInt8) : Block where
  bytes := field tblock bytes
  length_eq := by
    simp only [field, List.length_append, List.length_take, List.length_replicate]
    omega

def zeroBlock : Block := Block.ofBytes []

/-- The records on the tape, the tape buffer, and the blocks that are in use in it. -/
structure TapeOut where
  records : List (List Block)
  tapeblock : Nat → Block
  nblocks : Nat

namespace TapeOut

def start : TapeOut := ⟨[], fun _ => zeroBlock, 0⟩

/-- All of the buffer is written, also the blocks that are left over from earlier
records. -/
def tapeWrite (t : TapeOut) : TapeOut :=
  { t with
    records := t.records ++ [(List.range nblock).map t.tapeblock]
    nblocks := 0 }

def putblock (t : TapeOut) : Option Block → TapeOut
  | some buf =>
      let t := { t with
        tapeblock := Function.update t.tapeblock t.nblocks buf
        nblocks := t.nblocks + 1 }
      if t.nblocks = nblock then t.tapeWrite else t
  | none => if t.nblocks > 0 then t.tapeWrite else t

end TapeOut

/-! ## Files -/

/-- A byte of the padding at the end of a file. -/
def padByte (text : Bool) (i : Nat) : UInt8 :=
  if text then
    if i % 64 = 0 ∨ i = tblock - 1 then newline else blank
  else 0

/-- The block with the bytes that are left in the buffer. -/
def padBlock (text : Bool) (buf : List UInt8) : Block :=
  Block.ofBytes (buf ++ (List.range' buf.length (tblock - buf.length)).map (padByte text))

/-- The bytes that were read are collected to blocks, until all blocks are written or
the file ends: the blocks that are missing, and the bytes in the buffer. -/
def copyReads : List (List UInt8) → Nat → List UInt8 → TapeOut → TapeOut × Nat × List UInt8
  | _, 0, buf, t => (t, 0, buf)
  | [], blocks + 1, buf, t => (t, blocks + 1, buf)
  | count :: reads, blocks + 1, buf, t =>
      if (buf ++ count).length < tblock then copyReads reads (blocks + 1) (buf ++ count) t
      else
        copyReads reads blocks ((buf ++ count).drop tblock)
          (t.putblock (some (Block.ofBytes (buf ++ count))))

def padFile (text : Bool) : Nat → List UInt8 → TapeOut → TapeOut
  | 0, _, t => t
  | blocks + 1, buf, t => padFile text blocks [] (t.putblock (some (padBlock text buf)))

/-- What `os_read` returns on the file is the list `reads`, and then the end of the
file. -/
def wtarCopyfile (t : TapeOut) (size : Nat) (text : Bool) (reads : List (List UInt8)) :
    TapeOut :=
  let copied := copyReads reads ((size + tblock - 1) / tblock) [] t
  padFile text copied.2.1 copied.2.2 copied.1

/-! ## Entries -/

/-- A header with what `putheader` needs of it. -/
structure Entry extends Fheader where
  text : Bool
  reads : List (List UInt8)
  /-- What the buffer for the checksum holds behind the sum. -/
  stale : UInt8
  name_ne : name ≠ []
  name_lt : name.length < namsiz
  name_chars : 0 ∉ name
  linkname_lt : linkname.length < namsiz
  linkname_chars : 0 ∉ linkname
  mode_range : 0 ≤ mode ∧ mode < 8 ^ 7
  uid_range : 0 ≤ uid ∧ uid < 8 ^ 7
  gid_range : 0 ≤ gid ∧ gid < 8 ^ 7
  size_lt : size < 8 ^ 11
  isLong : -2 ^ 63 ≤ mtime ∧ mtime < 2 ^ 63
  kind : linkflag = 0 ∨ linkflag = lfSymlink ∨ linkflag = lfDir
  isdir_eq : isdir = decide (linkflag = lfDir)
  dir_name : linkflag = lfDir → name.getLast? = some slash
  file_name : linkflag = 0 → name.getLast? ≠ some slash
  size_eq : size = if linkflag = 0 then (reads.flatten.length : Int) else 0
  reads_ne : ∀ count ∈ reads, count ≠ [] ∧ count.length ≤ tblock

def putheader (t : TapeOut) (e : Entry) : TapeOut :=
  t.putblock (some (Block.ofBytes (headerBytes e.stale e.toFheader)))

def tarfileout (t : TapeOut) (e : Entry) : TapeOut :=
  let t := putheader t e
  if e.size > 0 ∧ ¬ e.isdir ∧ e.linkflag = 0 then
    wtarCopyfile t e.size.toNat e.text e.reads
  else t

def endtar (t : TapeOut) : TapeOut :=
  ((t.putblock (some zeroBlock)).putblock (some zeroBlock)).putblock none

/-- The records of the tape after all entries. -/
def wtar (es : List Entry) : List (List Block) :=
  (endtar (es.foldl tarfileout .start)).records

end Iraf.Boot
