import Iraf.Boot.Wtar

/-!
# Reading a tar file

`getheader`, `filetype`, `copyfile`, `strip_blanks`, `skipfile` and `getblock` of
`rtar.c`, and the loop of its main procedure over the files.
-/

namespace Iraf.Boot

def maxtrys : Nat := 100
def maxlinelen : Nat := 256
def szPadbuf : Nat := 8196

/-- The records that are not read yet, the record in the tape buffer, the next block
of it, and how many are left. -/
structure TapeIn where
  records : List (List Block)
  tapeblock : List Block
  nextblock : Nat
  nblocks : Int
  eof : Bool

namespace TapeIn

def mount (records : List (List Block)) : TapeIn := ⟨records, [], 0, 0, false⟩

def getblock (t : TapeIn) : Option Block × TapeIn :=
  if t.eof then (none, t)
  else if t.nblocks - 1 ≥ 0 then
    (t.tapeblock[t.nextblock]?,
      { t with nextblock := t.nextblock + 1, nblocks := t.nblocks - 1 })
  else
    match t.records with
    | [] => (none, { t with nblocks := t.nblocks - 1, eof := true })
    | [] :: records => (none, { t with records := records, nblocks := t.nblocks - 1, eof := true })
    | (hb :: record) :: records =>
        (some hb, {
          records := records
          tapeblock := hb :: record
          nextblock := 1
          nblocks := record.length
          eof := false })

/-- The last block is returned by the next call again. -/
def unget (t : TapeIn) : TapeIn :=
  { t with nextblock := t.nextblock - 1, nblocks := t.nblocks + 1 }

end TapeIn

/-! ## Headers -/

inductive HeaderRead where
  | header (fh : Fheader)
  | eof
  | fatal

/-- The next header, and the number of blocks that were passed over because of a bad
checksum.  At most `trys` blocks are tried. -/
def getheader (fh : Fheader) : Nat → TapeIn → Int → Nat → HeaderRead × TapeIn × Nat
  | 0, t, _, bad => (.fatal, t, bad)
  | trys + 1, t, tapeChecksum, bad =>
      match t.getblock with
      | (none, t) => (.eof, t, bad)
      | (some hb, t) =>
          match testHeader hb.bytes tapeChecksum with
          | (.endOfTape, _) => (.eof, t, bad)
          | (.header, _) => (.header (decodeHeader hb.bytes fh), t, bad)
          | (.badSum, tapeChecksum) => getheader fh trys t tapeChecksum (bad + 1)

/-! ## Files -/

inductive Ftype where
  | directory
  | binary
  | text
  deriving DecidableEq

def isprint (ch : UInt8) : Bool := 32 ≤ ch && ch ≤ 126

def ctrlcode (ch : UInt8) : Bool := 7 ≤ ch && ch ≤ 15

/-- The test for text of the first bytes of a file. -/
def looksText (chars : List UInt8) : Bool :=
  chars.all (fun ch => ch == newline || isprint ch || isspace ch || ctrlcode ch) &&
    !(decide (chars.length > maxlinelen) && !chars.contains newline)

def filetype (binaryout : Bool) (t : TapeIn) (fh : Fheader) : Ftype × TapeIn :=
  if fh.isdir then (.directory, t)
  else if fh.size = 0 ∨ binaryout then (.binary, t)
  else
    match t.getblock with
    | (none, t) => (.binary, t)
    | (some hb, t) =>
        (if looksText (hb.bytes.take (min fh.size tblock).toNat) then .text else .binary, t.unget)

/-- The blocks are written while more than `maxpad` bytes are left: the bytes that are
left, and what was written. -/
def copyBlocks (maxpad : Nat) (nbytes : Int) (t : TapeIn) (out : List UInt8) :
    Int × TapeIn × List UInt8 :=
  if _h : nbytes > maxpad then
    match t.getblock with
    | (none, t) => (nbytes, t, out)
    | (some hb, t) =>
        copyBlocks maxpad (nbytes - tblock) t
          (out ++ hb.bytes.take (min nbytes tblock).toNat)
  else (nbytes, t, out)
termination_by nbytes.toNat
decreasing_by
  simp only [tblock]
  omega

/-- The rest of the file is read into the pad buffer. -/
def fillPadbuf (nbytes : Int) (t : TapeIn) (padbuf : List UInt8) : TapeIn × List UInt8 :=
  if _h : nbytes > 0 then
    match t.getblock with
    | (none, t) => (t, padbuf)
    | (some hb, t) =>
        fillPadbuf (nbytes - min nbytes tblock) t
          (padbuf ++ hb.bytes.take (min nbytes tblock).toNat)
  else (t, padbuf)
termination_by nbytes.toNat
decreasing_by
  simp only [tblock]
  omega

/-- The scan for the last line that is not blank, from the char at `ip` back: the
newline at the end of it.  The first char of the buffer is not looked at. -/
def lastNewline (padbuf : List UInt8) : Nat → Nat → Nat
  | 0, lastnl => lastnl
  | ip + 1, lastnl =>
      if padbuf.getD (ip + 1) 0 = newline then lastNewline padbuf ip (ip + 1)
      else if padbuf.getD (ip + 1) 0 ≠ blank then lastnl
      else lastNewline padbuf ip lastnl

/-- What is written of the pad buffer. -/
def stripped (padbuf : List UInt8) : List UInt8 :=
  match padbuf with
  | [] => []
  | _ :: rest => padbuf.take (lastNewline padbuf rest.length rest.length + 1)

/-- The bytes that are written to the file. -/
def rtarCopyfile (stripblanks : Bool) (t : TapeIn) (fh : Fheader) (ftype : Ftype) :
    TapeIn × List UInt8 :=
  if fh.linkflag ≠ 0 then (t, [])
  else
    let maxpad := if ftype = .binary ∨ !stripblanks then 0 else szPadbuf
    let copied := copyBlocks maxpad fh.size t []
    if copied.1 > 0 then
      let filled := fillPadbuf copied.1 copied.2.1 []
      (filled.1, copied.2.2 ++ stripped filled.2)
    else copied.2

def skipBlocks (nbytes : Int) (t : TapeIn) : TapeIn :=
  if _h : nbytes > 0 then
    match t.getblock with
    | (none, t) => t
    | (some _, t) => skipBlocks (nbytes - tblock) t
  else t
termination_by nbytes.toNat
decreasing_by
  simp only [tblock]
  omega

def skipfile (t : TapeIn) (fh : Fheader) : TapeIn :=
  if fh.linkflag ≠ 0 then t else skipBlocks fh.size t

/-! ## The loop over the files -/

/-- What is done with a file: it is skipped, or a file is created for it, or that
fails after its type was examined. -/
inductive Choice where
  | skip
  | extract
  | createFails
  deriving DecidableEq

structure Options where
  binaryout : Bool
  omitbinary : Bool
  stripblanks : Bool
  /-- The choice for each header, which may depend on its place on the tape. -/
  choose : Nat → Fheader → Choice
  /-- The value of the checksum variable before the first sum is scanned. -/
  tapeChecksum : Int

/-- A header, and the type and the contents of the file made from it. -/
structure Delivered where
  fh : Fheader
  content : Option (Ftype × List UInt8)

def Options.file (o : Options) (choice : Choice) (t : TapeIn) (fh : Fheader) :
    Option (Ftype × List UInt8) × TapeIn :=
  if choice = .skip then (none, skipfile t fh)
  else if fh.linkflag = lfSymlink ∨ fh.linkflag = 1 then (none, t)
  else
    let typed := filetype o.binaryout t fh
    if fh.size > 0 ∧ typed.1 = .binary ∧ o.omitbinary then (none, skipfile typed.2 fh)
    else if choice = .createFails then (none, skipfile typed.2 fh)
    else if fh.isdir then (none, typed.2)
    else
      let copied := rtarCopyfile o.stripblanks typed.2 fh typed.1
      (some (typed.1, copied.2), copied.1)

/-- The files in order, the number of bad checksums, and whether the tape was read to
its end. -/
structure TapeRead where
  files : List Delivered
  bad : Nat
  ended : Bool

def rtarLoop (o : Options) : Nat → TapeIn → Fheader → TapeRead → TapeRead
  | 0, _, _, r => r
  | n + 1, t, fh, r =>
      match getheader fh (maxtrys + 1) t o.tapeChecksum 0 with
      | (.eof, _, bad) => { r with bad := r.bad + bad, ended := true }
      | (.fatal, _, bad) => { r with bad := r.bad + bad }
      | (.header fh, t, bad) =>
          let file := o.file (o.choose r.files.length fh) t fh
          rtarLoop o n file.2 fh
            { r with files := r.files ++ [⟨fh, file.1⟩], bad := r.bad + bad }

/-- Every header takes a block of the tape, so that the loop ends. -/
def rtar (o : Options) (fh : Fheader) (records : List (List Block)) : TapeRead :=
  rtarLoop o (records.flatten.length + 1) (.mount records) fh ⟨[], 0, false⟩

end Iraf.Boot
