import Iraf.Fio.Fault

/-!
# Random access files

The abstract file is a list of chars and a position in it.  The descriptor
stands for such a file when the buffer, laid over the chars of the device, gives
its content.
-/

namespace Iraf.Fio

open Cells

/-! ## The abstract file -/

/-- A file and the number of chars before the one transferred next. -/
structure RandomFile where
  content : List Int
  pos : Nat
  pos_le : pos ≤ content.length

namespace RandomFile

def readable (r : RandomFile) (maxchars : Int) : List Int :=
  (r.content.drop r.pos).take maxchars.toNat

theorem length_readable (r : RandomFile) (maxchars : Int) :
    (r.readable maxchars).length =
      min maxchars.toNat (r.content.length - r.pos) := by
  rw [readable, List.length_take, List.length_drop]

/-- Move on by the chars that are read. -/
def read (r : RandomFile) (maxchars : Int) : RandomFile where
  content := r.content
  pos := r.pos + (r.readable maxchars).length
  pos_le := by
    have := r.pos_le
    rw [length_readable]
    omega

def write (r : RandomFile) (buffer : List Int) : RandomFile where
  content := overlay r.content r.pos buffer
  pos := r.pos + buffer.length
  pos_le := by
    rw [length_overlay r.pos_le]
    omega

/-- The position that an offset of `seek` stands for. -/
def target (r : RandomFile) (offset : Int) : Nat :=
  if offset = BOF then 0
  else if offset = EOF then r.content.length
  else (offset - 1).toNat

/-- An offset from 1 to the file size plus 1, or `BOF` or `EOF`. -/
def Seekable (r : RandomFile) (offset : Int) : Prop :=
  offset = BOF ∨ offset = EOF ∨ 1 ≤ offset ∧ offset ≤ r.content.length + 1

def seek (r : RandomFile) (offset : Int) : RandomFile where
  content := r.content
  pos := min (r.target offset) r.content.length
  pos_le := Nat.min_le_right _ _

end RandomFile

/-! ## What the descriptor keeps -/

/-- The fields that transfers leave as they are. -/
structure Frame (f g : Fd) : Prop where
  ffRead : g.ffRead = f.ffRead
  ffWrite : g.ffWrite = f.ffWrite
  ffPushback : g.ffPushback = f.ffPushback
  ffRaw : g.ffRaw = f.ffRaw
  ftype : g.ftype = f.ftype
  fblksize : g.fblksize = f.fblksize
  fmaxbufsize : g.fmaxbufsize = f.fmaxbufsize
  firstbufoff : g.firstbufoff = f.firstbufoff
  fpbbuf : g.fpbbuf = f.fpbbuf
  fpbbufsize : g.fpbbufsize = f.fpbbufsize
  fpbtop : g.fpbtop = f.fpbtop
  fpbiop : g.fpbiop = f.fpbiop
  fpbsp : g.fpbsp = f.fpbsp
  memi : g.memi = f.memi
  bufAt : g.bufAt = f.bufAt
  pbAt : g.pbAt = f.pbAt

/-- A binary file on a random access device, no transfer under way. -/
structure Idle (f : Fd) : Prop where
  binary : f.ftype = .binary
  read : f.ffRead = true
  blksize : 0 < f.fblksize
  firstbufoff : f.firstbufoff = 1
  fbufmode : f.fbufmode = .inactive
  ffiomode : f.ffiomode = .inactive
  fnchars : 0 ≤ f.fnchars
  bufAt : f.bufAt ≠ 0

/-- The buffer has a size that blocks of the device can be read into. -/
structure Sized (f : Fd) : Prop where
  bufptr : f.bufptr ≠ 0
  buftop : f.buftop = f.bufptr + f.fbufsize
  pos : 0 < f.fbufsize
  blocks : f.fblksize ∣ f.fbufsize

/-- The buffer holds `t` chars of the file: the states of a clean buffer, of one
with data that were written before the last seek, and of one being written. -/
inductive TopIs (f : Fd) (t : Nat) : Prop
  | clean (hotop : f.otop = f.bufptr) (hitop : f.itop = f.bufptr + t)
  | settled (hotop : f.otop = f.itop) (hitop : f.itop = f.bufptr + t)
  | writing (hotop : f.otop = f.buftop) (hle : f.itop ≤ f.buftop)
      (hitop : min f.buftop (max f.itop f.iop) = f.bufptr + t)

/-- The buffer lies over the chars from `o` on and holds `t` of them. -/
structure Buffered (f : Fd) (content : List Int) (o t : Nat) : Prop where
  sized : Sized f
  boffset : f.boffset = o + 1
  aligned : f.fblksize ∣ (o : Int)
  origin : o ≤ f.chan.length
  top : TopIs f t
  fits : (t : Int) ≤ f.fbufsize
  size : content.length = max f.chan.length (o + t)
  window : ∀ j < t, content[o + j]? = some (f.memc (f.bufptr + (j : Nat)))
  outside : ∀ i, i < o ∨ o + t ≤ i → content[i]? = f.chan[i]?
  sizeNoted : (f.chan.length : Int) ≤ f.filsize ∧ f.filsize ≤ content.length
  clean : f.otop = f.bufptr → content = f.chan

/-- All the chars that the buffer has room for are in it. -/
def Full (f : Fd) (content : List Int) (o t : Nat) : Prop :=
  (t : Int) = min f.fbufsize (content.length - o)

/-- No buffer, or one that lies nowhere in the file yet. -/
structure Unplaced (f : Fd) (content : List Int) : Prop where
  chan : f.chan = content
  filsize : f.filsize = content.length
  itop : f.itop = f.bufptr
  otop : f.otop = f.bufptr
  sized : f.bufptr ≠ 0 → Sized f
  noBuffer : f.bufptr = 0 →
    f.buftop = 0 ∧ 0 < promoted f ∧ f.fblksize ∣ promoted f

/-- The descriptor stands for a file with this content, positioned after its
first `pos` chars. -/
structure Represents (f : Fd) (content : List Int) (pos : Nat) : Prop where
  idle : Idle f
  lnote : f.lnote = pos + 1
  pos_le : pos ≤ content.length
  buffer : Unplaced f content ∨
    ∃ o t, Buffered f content o t ∧ Full f content o t

/-- A buffer, if there is one, lies in the file. -/
def Placed (f : Fd) (content : List Int) : Prop :=
  f.bufptr ≠ 0 → ∃ o t, Buffered f content o t ∧ Full f content o t

namespace Frame

theorem refl (f : Fd) : Frame f f := by
  constructor <;> rfl

theorem trans {f g h : Fd} (hfg : Frame f g) (hgh : Frame g h) : Frame f h where
  ffRead := hgh.ffRead.trans hfg.ffRead
  ffWrite := hgh.ffWrite.trans hfg.ffWrite
  ffPushback := hgh.ffPushback.trans hfg.ffPushback
  ffRaw := hgh.ffRaw.trans hfg.ffRaw
  ftype := hgh.ftype.trans hfg.ftype
  fblksize := hgh.fblksize.trans hfg.fblksize
  fmaxbufsize := hgh.fmaxbufsize.trans hfg.fmaxbufsize
  firstbufoff := hgh.firstbufoff.trans hfg.firstbufoff
  fpbbuf := hgh.fpbbuf.trans hfg.fpbbuf
  fpbbufsize := hgh.fpbbufsize.trans hfg.fpbbufsize
  fpbtop := hgh.fpbtop.trans hfg.fpbtop
  fpbiop := hgh.fpbiop.trans hfg.fpbiop
  fpbsp := hgh.fpbsp.trans hfg.fpbsp
  memi := hgh.memi.trans hfg.memi
  bufAt := hgh.bufAt.trans hfg.bufAt
  pbAt := hgh.pbAt.trans hfg.pbAt

end Frame

theorem Idle.frame {f g : Fd} (h : Idle f) (hfg : Frame f g)
    (hmode : g.fbufmode = .inactive) (hio : g.ffiomode = .inactive)
    (hn : 0 ≤ g.fnchars) : Idle g where
  binary := by rw [hfg.ftype, h.binary]
  read := by rw [hfg.ffRead, h.read]
  blksize := by rw [hfg.fblksize]; exact h.blksize
  firstbufoff := by rw [hfg.firstbufoff, h.firstbufoff]
  fbufmode := hmode
  ffiomode := hio
  fnchars := hn
  bufAt := by rw [hfg.bufAt]; exact h.bufAt

end Iraf.Fio
