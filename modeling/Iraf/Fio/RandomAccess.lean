import Iraf.Fio.RandomWrite

/-!
# Buffered files are random access files

Any sequence of transfers and seeks on a file that was just opened gives what the
abstract file gives, provided the buffer has room and is a whole number of device
blocks.
-/

namespace Iraf.Fio

/-- A call on an open file. -/
inductive FileOp where
  | seek (offset : Int)
  | read (maxchars : Int)
  | write (buffer : List Int)
  | flush
  | note
  deriving DecidableEq, Repr

/-- What the caller gets: a function value with the chars read, or an offset. -/
inductive Reply where
  | done
  | chars (status : Int) (buffer : List Int)
  | offset (offset : Int)
  deriving DecidableEq, Repr

def execute (host : Host) (f : Fd) : FileOp → Except FioErr (Reply × Fd)
  | .seek offset => .ok (.done, seek host f offset)
  | .read maxchars => do
      let (status, buffer, f) ← read host f maxchars
      .ok (.chars status buffer, f)
  | .write buffer => do
      let f ← write host f buffer
      .ok (.done, f)
  | .flush => do
      let f ← flush host f
      .ok (.done, f)
  | .note => .ok (.offset (note f), f)

namespace RandomFile

/-- The abstract file's answer: `EOF` stands for no chars. -/
def answer (r : RandomFile) : FileOp → Reply × RandomFile
  | .seek offset => (.done, r.seek offset)
  | .read maxchars =>
      let chars := r.readable maxchars
      (.chars (if chars.length = 0 then EOF else chars.length) chars, r.read maxchars)
  | .write buffer => (.done, r.write buffer)
  | .flush => (.done, r)
  | .note => (.offset (r.pos + 1), r)

/-- Every seek is to a place of the file. -/
def Admissible : RandomFile → List FileOp → Prop
  | _, [] => True
  | r, op :: ops =>
      (∀ offset, op = .seek offset → r.Seekable offset) ∧
        Admissible (r.answer op).2 ops

end RandomFile

/-- Every call gives what the abstract file gives, and after a flush the device
and the file size are those of the abstract file. -/
def Agrees (host : Host) : Fd → RandomFile → List FileOp → Prop
  | _, _, [] => True
  | f, r, op :: ops =>
      ∃ g, execute host f op = .ok ((r.answer op).1, g) ∧
        (op = .flush → g.chan = r.content ∧ g.filsize = r.content.length) ∧
        Agrees host g (r.answer op).2 ops

/-- A binary file that was just opened to be read and written on a random access
device, and positioned. -/
structure Opened (f : Fd) (r : RandomFile) : Prop where
  binary : f.ftype = .binary
  read : f.ffRead = true
  write : f.ffWrite = true
  noPushback : f.ffPushback = false
  blksize : 0 < f.fblksize
  firstbufoff : f.firstbufoff = 1
  fbufmode : f.fbufmode = .inactive
  ffiomode : f.ffiomode = .inactive
  fnchars : f.fnchars = 0
  bufAt : f.bufAt ≠ 0
  pointers : f.itop = 0 ∧ f.otop = 0 ∧ f.bufptr = 0 ∧ f.buftop = 0
  boffset : f.boffset = 1
  iop : f.iop = r.pos
  chan : f.chan = r.content
  filsize : f.filsize = r.content.length

/-- The size of the buffer before it is cut to what the device can transfer. -/
def wholeBlocks (f : Fd) : Int := promoted { f with fmaxbufsize := 0 }

/-- The buffer has room, and is not cut in the middle of a device block. -/
def BufferFits (f : Fd) : Prop :=
  (1 < f.fblksize → 0 < f.fbufsize) ∧
    (0 < f.fmaxbufsize →
      f.fblksize ∣ f.fmaxbufsize ∨ wholeBlocks f ≤ f.fmaxbufsize)

variable {host : Host} {f : Fd} {r : RandomFile}

theorem wholeBlocks_eq (h : f.ftype = .binary) :
    wholeBlocks f = if f.fblksize > 1 then
      (f.fbufsize + f.fblksize - 1).tdiv f.fblksize * f.fblksize
      else max 1 f.fbufsize := by
  simp [wholeBlocks, promoted, h]

theorem promoted_eq (h : f.ftype = .binary) :
    promoted f = if f.fmaxbufsize > 0 then min f.fmaxbufsize (wholeBlocks f)
      else wholeBlocks f := by
  rw [wholeBlocks_eq h]
  simp [promoted, h]

theorem wholeBlocks_fits (h : f.ftype = .binary) (hblk : 0 < f.fblksize)
    (hsize : 1 < f.fblksize → 0 < f.fbufsize) :
    0 < wholeBlocks f ∧ f.fblksize ∣ wholeBlocks f := by
  rw [wholeBlocks_eq h]
  split
  · have hpos := hsize (by assumption)
    have hnum : 0 ≤ f.fbufsize + f.fblksize - 1 := by omega
    refine ⟨?_, Dvd.intro_left _ rfl⟩
    rw [Int.tdiv_eq_ediv_of_nonneg hnum]
    have hone : 1 ≤ (f.fbufsize + f.fblksize - 1) / f.fblksize :=
      Int.le_ediv_of_mul_le hblk (by omega)
    exact Int.mul_pos (by omega) hblk
  · obtain hone : f.fblksize = 1 := by omega
    rw [hone]
    exact ⟨by omega, one_dvd _⟩

theorem BufferFits.promoted (h : BufferFits f) (hb : f.ftype = .binary)
    (hblk : 0 < f.fblksize) :
    0 < promoted f ∧ f.fblksize ∣ promoted f := by
  obtain ⟨hpos, hdvd⟩ := wholeBlocks_fits hb hblk h.1
  rw [promoted_eq hb]
  split
  next hmax =>
    rcases h.2 hmax with hd | hle
    · rcases le_total f.fmaxbufsize (wholeBlocks f) with hle | hle
      · rw [min_eq_left hle]
        exact ⟨hmax, hd⟩
      · rw [min_eq_right hle]
        exact ⟨hpos, hdvd⟩
    · rw [min_eq_right hle]
      exact ⟨hpos, hdvd⟩
  next => exact ⟨hpos, hdvd⟩

theorem Opened.represents (h : Opened f r) (hfit : BufferFits f) :
    Represents f r.content r.pos ∧ Placed f r.content := by
  obtain ⟨hitop, hotop, hptr, htop⟩ := h.pointers
  have hidle : Idle f :=
    ⟨h.binary, h.read, h.blksize, h.firstbufoff, h.fbufmode, h.ffiomode,
      h.fnchars.ge, h.bufAt⟩
  have hu : Unplaced f r.content :=
    ⟨h.chan, h.filsize, by rw [hitop, hptr], by rw [hotop, hptr],
      fun hne => absurd hptr hne, fun _ => ⟨htop, hfit.promoted h.binary h.blksize⟩⟩
  refine ⟨⟨hidle, ?_, r.pos_le, .inl hu⟩, fun hne => absurd hptr hne⟩
  rw [Fd.lnote, h.boffset, h.iop, hptr]
  omega

/-- What a run keeps. -/
structure Stands (f : Fd) (r : RandomFile) : Prop where
  represents : Represents f r.content r.pos
  placed : Placed f r.content
  write : f.ffWrite = true
  noPushback : f.ffPushback = false

theorem Stands.of_frame {g : Fd} {r' : RandomFile} (h : Stands f r)
    (hrep : Represents g r'.content r'.pos) (hpl : Placed g r'.content)
    (hframe : Frame f g) : Stands g r' :=
  ⟨hrep, hpl, by rw [hframe.ffWrite, h.write],
    by rw [hframe.ffPushback, h.noPushback]⟩

theorem Buffered.fnchars {content : List Int} {o t : Nat}
    (h : Buffered f content o t) (x y : Int) :
    Buffered { f with filstat := y, fnchars := x } content o t := by
  have hs := h.sized
  refine h.congr ⟨hs.bufptr, hs.buftop, hs.pos, hs.blocks⟩ rfl rfl rfl rfl rfl rfl
    rfl ?_ h.clean
  cases h.top with
  | clean hotop hitop => exact .clean hotop hitop
  | settled hotop hitop => exact .settled hotop hitop
  | writing hotop hle hitop => exact .writing hotop hle hitop

theorem Stands.fnchars (h : Stands f r) {x : Int} (hx : 0 ≤ x) (y : Int) :
    Stands { f with filstat := y, fnchars := x } r := by
  have hrep := h.represents
  have hi := hrep.idle
  refine ⟨⟨?_, hrep.lnote, hrep.pos_le, ?_⟩, fun hne => ?_, h.write, h.noPushback⟩
  · exact ⟨hi.binary, hi.read, hi.blksize, hi.firstbufoff, hi.fbufmode, hi.ffiomode,
      hx, hi.bufAt⟩
  · refine hrep.buffer.imp (fun hu => ?_) fun ⟨o, t, hb, hfull⟩ =>
      ⟨o, t, hb.fnchars x y, hfull⟩
    exact ⟨hu.chan, hu.filsize, hu.itop, hu.otop,
      fun hne => ⟨hne, (hu.sized hne).buftop, (hu.sized hne).pos,
        (hu.sized hne).blocks⟩, hu.noBuffer⟩
  · obtain ⟨o, t, hb, hfull⟩ := h.placed hne
    exact ⟨o, t, hb.fnchars x y, hfull⟩

/-! ## The calls -/

theorem Stands.read (h : Stands f r) (maxchars : Int) :
    ∃ g, execute host f (.read maxchars) = .ok ((r.answer (.read maxchars)).1, g) ∧
      Stands g (r.read maxchars) := by
  have hstop : StopsAt maxchars maxchars 0 (r.content.length - r.pos) := .inl rfl
  obtain ⟨g, hok, hrep, hframe, hpl⟩ := readLoop_spec host maxchars maxchars.toNat
    maxchars [] h.represents h.noPushback (by simp) hstop
  have hsub : (maxchars - (([] : List Int).length : Int)).toNat = maxchars.toNat := by
    simp
  rw [hsub] at hok hrep
  rw [List.nil_append] at hok
  have hstands : Stands g (r.read maxchars) :=
    h.of_frame hrep (hpl h.placed) hframe
  refine ⟨_, ?_, hstands.fnchars (Int.natCast_nonneg (r.readable maxchars).length)
    (r.readable maxchars).length⟩
  simp only [execute, Fio.read, hok, bind, Except.bind, RandomFile.answer,
    RandomFile.readable, Int.natCast_eq_zero]
  congr

theorem Stands.write_op (h : Stands f r) (buffer : List Int) :
    ∃ g, execute host f (.write buffer) = .ok (.done, g) ∧
      Stands g (r.write buffer) := by
  obtain ⟨g, hok, hrep, hpl, hframe⟩ := writeLoop_spec host buffer.length buffer
    h.represents h.placed h.write le_rfl
  have hstands : Stands g (r.write buffer) := h.of_frame hrep hpl hframe
  have hlen : (0 : Int) ≤ buffer.length - (([] : List Int).length : Int) := by
    simp
  refine ⟨_, ?_, hstands.fnchars hlen g.filstat⟩
  simp only [execute, Fio.write, hok, bind, Except.bind]

theorem RandomFile.Seekable.target {offset : Int} (h : r.Seekable offset) :
    r.target offset ≤ r.content.length ∧
      (offset = BOF ∧ r.target offset = 0 ∨
        offset = EOF ∧ r.target offset = r.content.length ∨
        offset = r.target offset + 1) := by
  unfold RandomFile.target
  rcases h with rfl | rfl | ⟨h1, h2⟩
  · exact ⟨by simp, .inl (by simp)⟩
  · exact ⟨by simp, .inr (.inl (by simp))⟩
  · have hbof : offset ≠ BOF := by simp only [BOF]; omega
    have heof : offset ≠ EOF := by simp only [EOF]; omega
    rw [if_neg hbof, if_neg heof]
    exact ⟨by omega, .inr (.inr (by omega))⟩

theorem Stands.step (h : Stands f r) (op : FileOp)
    (hseek : ∀ offset, op = .seek offset → r.Seekable offset) :
    ∃ g, execute host f op = .ok ((r.answer op).1, g) ∧
      (op = .flush → g.chan = r.content ∧ g.filsize = r.content.length) ∧
      Stands g (r.answer op).2 := by
  cases op with
  | seek offset =>
      obtain ⟨hle, htarget⟩ := (hseek offset rfl).target
      obtain ⟨hrep, hpl, hframe⟩ := seek_spec host h.represents h.placed
        h.noPushback hle htarget
      have hpos : (r.seek offset).pos = r.target offset := Nat.min_eq_left hle
      refine ⟨seek host f offset, rfl, nofun, h.of_frame ?_ hpl hframe⟩
      rw [RandomFile.answer, hpos]
      exact hrep
  | read maxchars =>
      obtain ⟨g, hok, hstands⟩ := @Stands.read host f r h maxchars
      exact ⟨g, hok, nofun, hstands⟩
  | write buffer =>
      obtain ⟨g, hok, hstands⟩ := @Stands.write_op host f r h buffer
      exact ⟨g, hok, nofun, hstands⟩
  | flush =>
      obtain ⟨g, hok, hrep, hpl, hframe, hchan, hfil⟩ := flush_spec host
        h.represents h.placed h.noPushback h.write
      refine ⟨g, ?_, fun _ => ⟨hchan, hfil⟩, h.of_frame hrep hpl hframe⟩
      simp only [execute, hok, bind, Except.bind, RandomFile.answer]
  | note =>
      refine ⟨f, ?_, nofun, h⟩
      simp only [execute, note, h.represents.lnote, RandomFile.answer]

theorem Stands.agrees (h : Stands f r) (ops : List FileOp)
    (hadm : r.Admissible ops) : Agrees host f r ops := by
  induction ops generalizing f r with
  | nil => exact trivial
  | cons op ops ih =>
      obtain ⟨g, hok, hflush, hstands⟩ := @Stands.step host f r h op hadm.1
      exact ⟨g, hok, hflush, ih hstands hadm.2⟩

/-- In every run from a file that was just opened each call gives what the
abstract file gives, whatever the block size and the sizes of the transfers. -/
theorem random_access_file (host : Host) (f : Fd) (r : RandomFile)
    (h : Opened f r) (hfit : BufferFits f) (ops : List FileOp)
    (hadm : r.Admissible ops) : Agrees host f r ops := by
  obtain ⟨hrep, hpl⟩ := h.represents hfit
  exact Stands.agrees ⟨hrep, hpl, h.write, h.noPushback⟩ ops hadm

/-! ## Concrete files -/

/-- A driver that delivers all that it is asked for, on a host with ints of four
chars. -/
def plainHost : Host where
  give left maxch := min left.length maxch.toNat
  give_le left maxch := Nat.min_le_left _ _
  give_le_maxch left maxch := by omega
  give_pos left maxch hne hpos := by
    have := List.length_pos_iff.2 hne
    omega
  szInt := 4
  szInt_pos := by decide

/-- A file that was just opened. -/
def openFile (fblksize fbufsize : Int) (r : RandomFile) : Fd where
  iop := r.pos
  itop := 0
  otop := 0
  bufptr := 0
  buftop := 0
  boffset := 1
  ffRead := true
  ffWrite := true
  ffPushback := false
  ffRaw := false
  ftype := .binary
  fblksize := fblksize
  fbufsize := fbufsize
  fmaxbufsize := 0
  firstbufoff := 1
  filsize := r.content.length
  fnchars := 0
  filstat := 0
  fnbytes := 0
  fbufmode := .inactive
  ffiomode := .inactive
  fpbbuf := 0
  fpbbufsize := 0
  fpbtop := 0
  fpbiop := 0
  fpbsp := 0
  memc := fun _ => 0
  memi := fun _ => 0
  chan := r.content
  sent := []
  pending := 0
  bufAt := 100
  pbAt := 1000

theorem opened_openFile {fblksize : Int} (h : 0 < fblksize) (fbufsize : Int)
    (r : RandomFile) : Opened (openFile fblksize fbufsize r) r :=
  ⟨rfl, rfl, rfl, rfl, h, rfl, rfl, rfl, rfl, show (100 : Int) ≠ 0 by decide,
    ⟨rfl, rfl, rfl, rfl⟩, rfl, rfl, rfl, rfl⟩

/-- A file of three chars. -/
def threeChars : RandomFile where
  content := [7, 8, 9]
  pos := 0
  pos_le := by decide

/-- Five chars written over the end of a file with blocks of two chars, and the
last chars read again. -/
def writeAndRead : List FileOp :=
  [.seek 3, .write [1, 2, 3, 4, 5], .seek 2, .read 4, .flush, .note]

theorem random_access_file_three :
    Agrees plainHost (openFile 2 3 threeChars) threeChars writeAndRead :=
  random_access_file plainHost _ threeChars (opened_openFile (by decide) 3 threeChars)
    ⟨fun _ => by decide, fun h => absurd h (by decide)⟩ writeAndRead
    ⟨fun offset h => by cases h; exact .inr (.inr (by decide)), nofun,
      fun offset h => by cases h; exact .inr (.inr (by decide)), nofun, nofun, nofun,
      trivial⟩

/-- A buffer of no chars on a device with blocks: the buffer offset is computed
with a division by zero. -/
theorem not_agrees_noRoom :
    Opened (openFile 256 0 threeChars) threeChars ∧
      threeChars.Admissible [.read 1] ∧
      ¬Agrees plainHost (openFile 256 0 threeChars) threeChars [.read 1] := by
  refine ⟨opened_openFile (by decide) 0 threeChars, ⟨nofun, trivial⟩, ?_⟩
  rintro ⟨g, hok, -⟩
  cases hok

end Iraf.Fio
