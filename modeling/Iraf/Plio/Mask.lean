import Iraf.Plio.PixelLine

/-!
# Masks

The mask descriptor of `plio.h` and the procedures that create a mask, store a
line in it, compress its line list buffer and clear it.  Storage is a list of
words as long as what was allocated: a store outside of it is a fault, and the
words that `malloc` and `realloc` leave unset are zero.  The address that an
allocation returns is an argument.
-/

namespace Iraf.Plio

/-! ## Storage -/

/-- How a procedure can fail. -/
inductive PlErr where
  /-- A store outside the allocated storage. -/
  | fault
  /-- `SYS_PLREFOOB`. -/
  | plrefoob
  /-- `SYS_PLBADMASK`. -/
  | plbadmask
  /-- The fatal error of `pl_compress`. -/
  | llbufOverflow
  deriving DecidableEq, Repr

/-- The address of an allocation, which is not `NULL`. -/
abbrev Address := { a : Int // 0 < a }

def poke (buf : List Int) (i : Nat) (v : Int) : Except PlErr (List Int) :=
  if i < buf.length then .ok (buf.set i v) else .error .fault

/-- Copy words to offset `o` of a buffer. -/
def amovs (ws buf : List Int) (o : Nat) : Except PlErr (List Int) :=
  if o + ws.length ≤ buf.length then
    .ok (buf.take o ++ ws ++ buf.drop (o + ws.length))
  else .error .fault

def malloc (n : Nat) : List Int := List.replicate n 0

def realloc (buf : List Int) (n : Nat) : List Int :=
  buf.take n ++ List.replicate (n - buf.length) 0

/-- `LP_NREFS(lp) = n`. -/
def setNrefs (buf : List Int) (o : Nat) (n : Int) : Except PlErr (List Int) :=
  poke buf o (toShort n)

/-- `LP_SETBLEN(lp,n)`. -/
def setBlen (buf : List Int) (o : Nat) (n : Int) : Except PlErr (List Int) := do
  let buf ← poke buf (o + 5) (toShort (n.tmod 32768))
  poke buf (o + 6) (toShort (n.tdiv 32768))

/-! ## The descriptor -/

@[simp] abbrev plMaxdim : Nat := 7
@[simp] abbrev plLlbuflen : Nat := 512
@[simp] abbrev plStartinc : Int := 512
@[simp] abbrev plMaxinc : Int := 4096
@[simp] abbrev plMaxdepth : Int := 27
@[simp] abbrev plEmptyline : Int := 0

/-- `llbuf` is the storage at `llbp`, and `lp` the array at `PL_LPP`. -/
structure Mask where
  maxline : Int
  maxval : Int
  naxes : Nat
  axlen : List Int
  plane : List Int
  llbp : Int
  llbuf : List Int
  llop : Int
  lllen : Int
  llfree : Int
  llnupdates : Int
  llinc : Int
  nlp : Nat
  lp : List Int
  deriving DecidableEq, Repr

namespace Mask

/-- `LL(pl,o)`: the words at an offset of the buffer. -/
def ll (pl : Mask) (o : Int) : List Int := pl.llbuf.drop o.toNat

/-- `PL_LP(pl,i)`. -/
def lpAt (pl : Mask) (i : Int) : Int := word pl.lp i

/-- `PL_AXLEN(pl,i)`. -/
def axlenAt (pl : Mask) (i : Nat) : Int := word pl.axlen i

end Mask

/-- An inactive descriptor. -/
def plOpen : Mask :=
  { maxline := 0, maxval := 0, naxes := 0, axlen := List.replicate plMaxdim 0,
    plane := List.replicate plMaxdim 1, llbp := 0, llbuf := [], llop := 0,
    lllen := 0, llfree := 0, llnupdates := 0, llinc := plStartinc, nlp := 0,
    lp := [] }

/-- Set the size of a mask; the axis lengths are given as a list of length
`naxes`. -/
def plSsize (pl : Mask) (axlen : List Int) (depth : Int) (bp : Address) :
    Except PlErr Mask := do
  let npix := word axlen 1
  -- Encode the empty line line-list.
  let ll := plP2l (fun _ => 0) 1 npix
  let llbuf ← amovs ll (malloc plLlbuflen) 0
  -- Set up the initial line list index (all lines empty).
  let nlp := (axlen.drop 1).prod.toNat
  -- Set up the LL header for the empty line.
  let llbuf ← setNrefs llbuf 0 nlp
  let llbuf ← setBlen llbuf 0 ll.length
  return { pl with
    plane := List.replicate plMaxdim 1
    naxes := axlen.length
    maxval := if depth > 0 then mv depth else mv plMaxdepth
    axlen := axlen ++ List.replicate (plMaxdim - axlen.length) 1
    maxline := npix * 3 + llCurhdrlen
    llbp := bp
    llbuf := llbuf
    llop := ll.length
    lllen := plLlbuflen
    nlp := nlp
    lp := List.replicate nlp plEmptyline }

def plCreate (axlen : List Int) (depth : Int) (bp : Address) :
    Except PlErr Mask :=
  plSsize plOpen axlen depth bp

/-! ## Lines -/

/-- The loop over the axes from axis `i` on; the value is the index of the
line. -/
def axisIndex (pl : Mask) (v : List Int) : Nat → Nat → Int → Int →
    Except PlErr Int
  | 0, _, index, _ => .ok index
  | n + 1, i, index, totlen =>
      let axlen := pl.axlenAt i
      if word v i < 1 ∨ word v i > axlen then .error .plrefoob
      else
        axisIndex pl v n (i + 1) (index + totlen * (word v i - 1))
          (totlen * axlen)

/-- The index of a line in the line pointer array. -/
def lineIndex (pl : Mask) (v : List Int) : Except PlErr Int :=
  if pl.naxes = 2 then
    -- Optimized for case naxes=2.
    if word v 2 < 1 ∨ word v 2 > pl.axlenAt 2 then .error .plrefoob
    else .ok (word v 2)
  else axisIndex pl v (pl.naxes - 1) 2 1 1

/-- `pl_reference`: the offset of a line list. -/
def plReference (pl : Mask) (v : List Int) : Except PlErr Int := do
  let index ← lineIndex pl v
  return pl.lpAt index

/-- Compare the instructions of two line lists. -/
def pllEqual (l1 l2 : List Int) : Bool :=
  let len (l : List Int) := if LlOldformat l then ollLen l else llLen l
  let first (l : List Int) := if LlOldformat l then ollFirst else llFirst l
  if len l1 ≠ len l2 then false
  else
    (List.range (len l1 - first l1 + 1).toNat).all fun k : Nat =>
      word l1 (first l1 + k) = word l2 (first l2 + k)

/-- The loop of `pl_alloc` that makes the buffer longer than `op`. -/
def growLen (op : Int) : Nat → Int → Int → Int × Int
  | 0, len, inc => (len, inc)
  | n + 1, len, inc =>
      if op ≥ len then
        let inc := min plMaxinc (inc * 2)
        growLen op n (len + inc) inc
      else (len, inc)

/-- Allocate space at the end of the buffer; the offset of the space and the
mask. -/
def plAlloc (pl : Mask) (nwords : Int) (bp : Address) : Int × Mask :=
  let op := pl.llop + nwords
  let (len, inc) := growLen op (op - pl.lllen + 1).toNat pl.lllen pl.llinc
  let pl :=
    if len ≠ pl.lllen then
      { pl with llbuf := realloc pl.llbuf len.toNat, llbp := bp }
    else pl
  (pl.llop, { pl with lllen := len, llinc := inc, llop := op })

/-- Dereference an old line and free the space if it is no longer used. -/
def Mask.dereference (pl : Mask) (olp : Int) : Except PlErr Mask := do
  let buf ← setNrefs pl.llbuf olp.toNat (llNref (pl.ll olp) - 1)
  let pl := { pl with llbuf := buf }
  return { pl with
    llfree :=
      if llNref (pl.ll olp) = 0 ∧ olp ≠ plEmptyline then
        pl.llfree + llLen (pl.ll olp)
      else pl.llfree }

/-- Add another reference to a new line. -/
def Mask.reference (pl : Mask) (nlp : Int) : Except PlErr Mask := do
  let buf ← setNrefs pl.llbuf nlp.toNat (llNref (pl.ll nlp) + 1)
  let pl := { pl with llbuf := buf }
  return { pl with
    llfree :=
      if llNref (pl.ll nlp) = 1 ∧ nlp ≠ plEmptyline then
        pl.llfree - llBlen (pl.ll nlp)
      else pl.llfree }

/-- The end of `pl_update`: let line `index`, now at offset `olp`, point to
offset `nlp`. -/
def Mask.relink (pl : Mask) (index olp nlp : Int) : Except PlErr Mask := do
  let pl ← pl.dereference olp
  let pl ← pl.reference nlp
  return { pl with lp := pl.lp.set (index - 1).toNat nlp }

/-- Overwrite the list stored at `olp`. -/
def Mask.overwrite (pl : Mask) (olp : Int) (ll : List Int) :
    Except PlErr Mask := do
  let blen := llBlen (pl.ll olp)
  let olen := llLen (pl.ll olp)
  let buf ← amovs (ll.take (llLen ll).toNat) pl.llbuf olp.toNat
  let buf ← setNrefs buf olp.toNat 1
  let buf ← setBlen buf olp.toNat blen
  let pl := { pl with llbuf := buf }
  return { pl with llfree := pl.llfree + (olen - llLen (pl.ll olp)) }

/-- Store a list at the end of the buffer, with no reference to it yet. -/
def Mask.append (pl : Mask) (ll : List Int) (bp : Address) :
    Except PlErr (Int × Mask) := do
  let (nlp, pl) := plAlloc pl (llLen ll) bp
  let buf ← amovs (ll.take (llLen ll).toNat) pl.llbuf nlp.toNat
  let buf ← setNrefs buf nlp.toNat 0
  let buf ← setBlen buf nlp.toNat (llLen ll)
  return (nlp, { pl with llbuf := buf, llfree := pl.llfree + llLen ll })

/-- Is the list the one stored at an offset? -/
def Mask.storedAt (pl : Mask) (ll : List Int) (o : Int) : Bool :=
  llLen ll = llLen (pl.ll o) ∧ pllEqual ll (pl.ll o)

/-- Store a list that is not the one at `olp`, and let line `index` point to it;
`bp` is where the buffer goes if it has to grow. -/
def Mask.store (pl : Mask) (index olp : Int) (ll : List Int) (bp : Address) :
    Except PlErr Mask :=
  -- Is the new line empty?
  if pl.storedAt ll plEmptyline then pl.relink index olp plEmptyline
  -- Is the new line a copy of the adjacent line (Y=Y-1) in the image?
  else if index > 1 ∧ llNref (pl.ll (pl.lpAt (index - 1))) < maxShort ∧
      pl.storedAt ll (pl.lpAt (index - 1)) then
    pl.relink index olp (pl.lpAt (index - 1))
  else if llNref (pl.ll olp) ≤ 1 ∧ llLen ll ≤ llBlen (pl.ll olp) ∧
      olp ≠ plEmptyline then
    pl.overwrite olp ll
  else do
    let (nlp, pl) ← pl.append ll bp
    pl.relink index olp nlp

/-- Store the line list of one line. -/
def plUpdate (pl : Mask) (v ll : List Int) (bp : Address) :
    Except PlErr Mask := do
  let index ← lineIndex pl v
  let olp := pl.lpAt index
  if pl.llbp + olp = 0 then return pl
  -- Has the line been modified?
  if pl.storedAt ll olp then return pl
  -- Keep track of the number of edits.
  let pl := { pl with llnupdates := pl.llnupdates + 1 }
  pl.store index olp ll bp

/-! ## The whole buffer -/

/-- Count the total space in the active line lists, from offset `i` on. -/
def liveWords (pl : Mask) : Nat → Int → Int → Except PlErr Int
  | 0, _, nwords => .ok nwords
  | n + 1, i, nwords =>
      if i < pl.llop then
        let blen := llBlen (pl.ll i)
        if blen ≤ 0 ∨ blen > pl.llop then .error .plbadmask
        else
          liveWords pl n (i + blen)
            (if i = plEmptyline ∨ llNref (pl.ll i) > 0 then
              nwords + llLen (pl.ll i)
            else nwords)
      else .ok nwords

/-- The old buffer, with tags, and the new one, filled up to `op`. -/
structure Moved where
  old : List Int
  new : List Int
  op : Int

/-- Copy one list to the new buffer and leave its new offset in the old one. -/
def Moved.copy (nwords : Int) (m : Moved) (i : Int) : Except PlErr Moved := do
  let rlen := llLen (m.old.drop i.toNat)
  -- The following should not be possible, barring a bug.
  if m.op + rlen > nwords then .error .llbufOverflow
  else do
    let new ← amovs ((m.old.drop i.toNat).take rlen.toNat) m.new m.op.toNat
    let old ← setNrefs m.old i.toNat (m.op.tdiv iShift)
    let old ← setBlen old i.toNat (m.op.tmod iShift)
    let new ← setBlen new m.op.toNat rlen
    return ⟨old, new, m.op + rlen⟩

/-- Copy the active line lists from offset `i` on. -/
def moveLists (llop nwords : Int) : Nat → Int → Moved → Except PlErr Moved
  | 0, _, m => .ok m
  | n + 1, i, m =>
      if i < llop then do
        let blen := llBlen (m.old.drop i.toNat)
        if blen ≤ 0 ∨ blen > llop then .error .plbadmask
        else
          let m ←
            if i = plEmptyline ∨ llNref (m.old.drop i.toNat) > 0 then
              m.copy nwords i
            else .ok m
          moveLists llop nwords n (i + blen) m
      else .ok m

/-- Compress the line list buffer; also whether the warning about the free space
is given. -/
def plCompress (pl : Mask) (bp : Address) : Except PlErr (Mask × Bool) :=
  -- Redundant calls are ignored.
  if pl.llnupdates ≤ 0 then .ok (pl, false)
  else if pl.llbp = 0 then .error .plbadmask
  else do
    let nwords ← liveWords pl pl.llop.toNat 0 0
    let m ← moveLists pl.llop nwords pl.llop.toNat 0
      ⟨pl.llbuf, malloc nwords.toNat, 0⟩
    -- Fix up the line index by accessing the tag word in the old line list.
    let lp := pl.lp.map fun o =>
      llNref (m.old.drop o.toNat) * iShift + llBlen (m.old.drop o.toNat)
    return ({ pl with
      llbp := bp
      llbuf := m.new
      llop := m.op
      lllen := nwords
      llfree := 0
      llnupdates := 0
      lp := lp }, nwords ≠ pl.llop - pl.llfree)

/-- Clear a mask. -/
def plClear (pl : Mask) (bp : Address) : Except PlErr Mask := do
  let llop := llBlen (pl.ll plEmptyline)
  let buf ← setNrefs pl.llbuf 0 pl.nlp
  return { pl with
    llop := llop
    lp := List.replicate pl.nlp plEmptyline
    llbuf := realloc buf plLlbuflen
    llbp := bp
    lllen := plLlbuflen
    llfree := 0
    llnupdates := 0 }

/-- `pl_empty`: all lines are the empty line. -/
def plEmpty (pl : Mask) : Bool :=
  pl.lp.all fun o => o = plEmptyline

end Iraf.Plio
