import Iraf.Pmio.VisitsOnce

/-!
# Image output through a mask

`mio_plseg`, with the procedures of IMIO that give an output buffer and write it to the
image: `impgs`, `imgobf`, `imfls` and `imflsh`.  A buffer is written when the next one is
asked for, or by `imflush`.  The pixels have the data type of the image, there is no image
section and no boundary extension, and `IM_FAST` is NO, as the code sets it everywhere.
-/

namespace Iraf.Pmio

open Plio Odometer StepMachine Cursor

/-- An image that is written: its pixels, the memory, `IM_FLUSH`, and the section of the
output buffer. -/
structure OutImage (Px : Type) where
  len : List Int
  pixel : List Int → Px
  mem : Int → Px
  flush : Bool
  bufptr : Int
  vs : List Int
  ve : List Int
  ndim : Nat

/-- What a buffer that is allocated has in it, and its address. -/
abbrev Allocate (Px : Type) := OutImage Px → List Int → List Int → Nat → (Int → Px) × Int

variable {Px : Type}

/-- The places of an axis, in the order of the section. -/
def axisOrder (s e : Int) : List Int :=
  if s ≤ e then Int.range s (e + 1) else (Int.range e (s + 1)).reverse

/-- The pixels of a section, in the order of the buffer. -/
def sectionOrder : List (Int × Int) → List (List Int)
  | [] => [[]]
  | (s, e) :: axes => (sectionOrder axes).flatMap fun v => (axisOrder s e).map (· :: v)

/-- The pixels are written one after the other. -/
def writePixels (mem : Int → Px) : Int → List (List Int) → (List Int → Px) → List Int → Px
  | _, [], pixel => pixel
  | bp, v :: vectors, pixel =>
      writePixels mem (bp + 1) vectors (Function.update pixel v (mem bp))

namespace OutImage

/-- The corners of the section are in the image. -/
def Inbounds (im : OutImage Px) : Prop :=
  ∀ k ∈ List.range im.ndim,
    (1 ≤ word im.vs (k + 1 : Nat) ∧ word im.vs (k + 1 : Nat) ≤ word im.len (k + 1 : Nat)) ∧
      1 ≤ word im.ve (k + 1 : Nat) ∧ word im.ve (k + 1 : Nat) ≤ word im.len (k + 1 : Nat)

instance (im : OutImage Px) : Decidable im.Inbounds := by unfold Inbounds; infer_instance

/-- The axes of the section; those that are not given are at 1. -/
def axes (im : OutImage Px) : List (Int × Int) :=
  (List.range im.len.length).map fun k =>
    if k < im.ndim then (word im.vs (k + 1 : Nat), word im.ve (k + 1 : Nat)) else (1, 1)

/-- `imfls`, with `imflsh`. -/
def imfls (im : OutImage Px) : Except MioErr (OutImage Px) :=
  if im.flush then
    if im.Inbounds then
      .ok { im with
        pixel := writePixels im.mem im.bufptr (sectionOrder im.axes) im.pixel
        flush := false }
    else .error .imrefoob
  else .ok im

variable (imgobf : Allocate Px)

def impgs (im : OutImage Px) (vs ve : List Int) (ndim : Nat) :
    Except MioErr (OutImage Px × Int) := do
  let im ← im.imfls
  let bp := imgobf im vs ve ndim
  return ({ im with
    mem := bp.1, bufptr := bp.2, vs := vs, ve := ve, ndim := ndim, flush := true }, bp.2)

def impl2 (im : OutImage Px) (linenum : Int) : Except MioErr (OutImage Px × Int) :=
  im.impgs imgobf [1, linenum] [word im.len 1, linenum] 2

def impl3 (im : OutImage Px) (line band : Int) : Except MioErr (OutImage Px × Int) :=
  im.impgs imgobf [1, line, band] [word im.len 1, line, band] 3

/-- What the caller stores at `npix` addresses. -/
def store (im : OutImage Px) (ptr npix : Int) (value : Int → Px) : OutImage Px :=
  { im with mem := fun a => if ptr ≤ a ∧ a < ptr + npix then value (a - ptr) else im.mem a }

end OutImage

namespace Mio

/-- A turn of the loop that gets a new mask line, with the vector `ve`. -/
def maskLineVe (s : Mio (OutImage Px) × List Int) : Except MioErr
    ((Mio (OutImage Px) × List Int) ⊕ ((Mio (OutImage Px) × List Int) × LoopStatus)) :=
  match s.1.maskLine with
  | .error e => .error e
  | .ok (.inl mp) => .ok (.inl (mp, mp.lineEnd))
  | .ok (.inr (mp, status)) => .ok (.inr ((mp, s.2), status))

/-- The buffer for the current line. -/
def writeLine (imgobf : Allocate Px) (mp : Mio (OutImage Px)) (ve : List Int) :
    Except MioErr (OutImage Px × Int) :=
  if mp.lineio ∧ mp.ndim = 2 then mp.im.impl2 imgobf (word mp.v 2)
  else if mp.lineio ∧ mp.ndim = 3 then mp.im.impl3 imgobf (word mp.v 2) (word mp.v 3)
  else mp.im.impgs imgobf (mp.v.take mp.ndim) ve mp.ndim

def outputLine (imgobf : Allocate Px) (mp : Mio (OutImage Px)) (ve : List Int) :
    Except MioErr (Mio (OutImage Px)) :=
  if mp.rli = rlFirst then do
    let bp ← mp.writeLine imgobf ve
    return { mp with im := bp.1, lbp := bp.2 }
  else .ok mp

end Mio

/-- `mio_plseg`, in at most `fuel` turns of its loop; `none` is EOF.  Nothing has been
assigned to `ve` at first. -/
def mioPlseg (imgobf : Allocate Px) (ve : List Int) (mp : Mio (OutImage Px)) (fuel : Nat) :
    Except MioErr (Mio (OutImage Px) × Option Segment) := do
  let mp ← mp.start
  match run Mio.maskLineVe fuel (mp, ve) with
  | none => .error (.mask .turns)
  | some (.error e) => .error e
  | some (.ok ((mp, _), .done)) => return (mp, none)
  | some (.ok ((mp, ve), .again)) =>
      let mp ← mp.outputLine imgobf ve
      let out := mp.nextSegment
      return (out.1, some out.2)

/-- The caller has stored data in the pixels of the segment that begins at `v`. -/
def Mio.stored (mp : Mio (OutImage Px)) (s : Segment) (data : List Int → Px) (v : List Int) :
    Mio (OutImage Px) :=
  { mp with im := mp.im.store s.ptr s.npix fun k => data ((word v 1 + k) :: v.tail) }

/-- A call, and what the caller then stores. -/
def Puts (imgobf : Allocate Px) (ve : Mio (OutImage Px) → List Int) (data : List Int → Px)
    (first : Segment → List Int) (mp : Mio (OutImage Px))
    (out : Mio (OutImage Px) × Option Segment) : Prop :=
  ∃ fuel mp' segment, mioPlseg imgobf (ve mp) mp fuel = .ok (mp', segment) ∧
    out = (segment.elim mp' fun s => mp'.stored s data (first s), segment)

/-- An image of which no pixel is read. -/
def lengthsOnly (σ : Type) (len : List Int) : Image σ Unit where
  len := len
  mem := fun _ _ => ()
  imgl2 := fun s _ => .ok (s, 0)
  imgl3 := fun s _ _ => .ok (s, 0)
  imggs := fun s _ _ _ => .ok (s, 0)

/-- The section of the output buffer is the row of the region in the line through `w`. -/
structure OutImage.OfLine (v1 v2 : List Int) (ndim : Nat) (w : List Int) (im : OutImage Px) :
    Prop where
  dims : im.ndim = ndim
  first : word im.vs 1 = (sectAxis v1 v2 ndim 1).1 ∧
    word im.ve 1 = (sectAxis v1 v2 ndim 1).1 + (sectAxis v1 v2 ndim 1).2 - 1
  rest : ∀ i : Nat, 2 ≤ i → i ≤ ndim → word im.vs i = word w i ∧ word im.ve i = word w i

/-- After the calls up to EOF and a flush, the masked pixels of the region have the data
that was stored, and the others are unchanged; and the buffer of every segment is for the
current line.  This is so whatever is in a new buffer, and in the local `ve` of a call.
The image was `before` when earlier output had been written. -/
def PutsMasked (axlen : List Int) (rows : List (List Int)) (mp : Mio (OutImage Px))
    (before : List Int → Px) (v1 v2 : List Int) (ndim : Nat) (reg : Bool) : Prop :=
  ∀ (imgobf : Allocate Px) (ve : Mio (OutImage Px) → List Int) (data : List Int → Px),
    ∃ out last im, Delivers
      (Puts imgobf ve data fun s => s.first axlen.length v1 v2 ndim reg)
      ((mioSetrange (lengthsOnly _ axlen) mp v1 v2 ndim).setRegcoords reg) out last ∧
      (∀ o ∈ out, o.1.im.OfLine v1 v2 ndim (o.2.first axlen.length v1 v2 ndim reg)) ∧
      last.im.imfls = .ok im ∧
      ∀ p, im.pixel p =
        if p ∈ sectPixels axlen.length v1 v2 ndim ∧ maskPixel axlen rows p ≠ 0 then data p
        else before p

/-- A line of the region that has a masked pixel has masked pixels only. -/
def WholeLines (axlen : List Int) (rows : List (List Int)) (v1 v2 : List Int) (ndim : Nat) :
    Prop :=
  ∀ p ∈ sectPixels axlen.length v1 v2 ndim, ∀ q ∈ sectPixels axlen.length v1 v2 ndim,
    p.tail = q.tail → maskPixel axlen rows p ≠ 0 → maskPixel axlen rows q ≠ 0

/-- The lines are written by number. -/
def LineOutput (axlen v1 v2 : List Int) (ndim : Nat) : Prop :=
  (word v1 1 = 1 ∧ word v2 1 = word axlen 1) ∧ (ndim = 2 ∨ ndim = 3)

/-- The first line of the region has no masked pixels. -/
def FirstEmpty (axlen : List Int) (rows : List (List Int)) (v1 v2 : List Int) (ndim : Nat) :
    Prop :=
  ∀ p ∈ sectPixels axlen.length v1 v2 ndim,
    (∀ i : Nat, 2 ≤ i → i ≤ axlen.length → word p i = (sectAxis v1 v2 ndim i).1) →
      maskPixel axlen rows p = 0

end Iraf.Pmio
