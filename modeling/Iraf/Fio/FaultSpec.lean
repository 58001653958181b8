import Iraf.Fio.RandomFile

/-!
# What a buffer fault does

A fault on a random access file writes the buffer out when it was written into,
puts it down on the part of the file that holds an offset, and leaves a
descriptor that stands for the same file.
-/

namespace Iraf.Fio

open Cells

variable (host : Host) {f : Fd} {content : List Int} {o t p : Nat}

/-! ## The device -/

theorem Idle.not_stream (h : Idle f) : f.stream = false := by
  have := h.blksize
  simp [Fd.stream]
  omega

/-- After a read of chars into the buffer. -/
def Fd.readIn (f : Fd) (chars : List Int) : Fd :=
  { f with
    memc := put f.memc f.bufptr chars
    pending := chars.length
    fnbytes := chars.length
    filstat := chars.length
    itop := f.bufptr + chars.length
    otop := f.bufptr }

theorem zawrbf_eq {g : Fd} (hs : g.stream = false) (chars : List Int)
    (offset : Int) :
    zawrbf g chars offset =
      { g with
        chan := overlay g.chan (offset - 1).toNat chars
        pending := chars.length } := by
  rw [zawrbf, hs]
  rfl

theorem zardbf_eq {g : Fd} (hs : g.stream = false) (bp maxch offset : Int) :
    zardbf host g bp maxch offset =
      { g with
        memc := put g.memc bp ((g.chan.drop (offset - 1).toNat).take maxch.toNat)
        pending := ((g.chan.drop (offset - 1).toNat).take maxch.toNat).length } := by
  rw [zardbf, hs]
  rfl

theorem awrite_eq (h : Idle f) {chars : List Int} {offset : Int}
    (hne : chars.length ≠ 0) (h1 : 1 ≤ offset) (hsize : 0 ≤ f.filsize)
    (hin : offset - f.filsize ≤ 1) (hal : f.fblksize ∣ offset - 1) :
    awrite f chars offset =
      .ok { f with
        chan := overlay f.chan (offset - 1).toNat chars
        filsize := max f.filsize (offset - 1 + chars.length)
        pending := chars.length
        ffiomode := .writeInProgress } := by
  have hpos := h.blksize
  have hmod := Int.tmod_eq_zero_of_dvd hal
  have hoob : ¬(f.fblksize > 0 ∧ (offset < 1 ∨ offset - f.filsize > 1)) := by
    omega
  have hnal : ¬(f.fblksize > 0 ∧ (offset - 1).tmod f.fblksize ≠ 0) := by
    omega
  simp only [awrite, hne, if_false, h.ffiomode, ne_eq, not_true_eq_false]
  rw [if_neg hoob, if_neg hnal, if_pos hpos, if_pos hsize, zawrbf_eq]
  exact h.not_stream

theorem aread_eq (h : Idle f) (bp maxch : Int) {offset : Int} (h1 : 1 ≤ offset)
    (hin : offset ≤ f.filsize) (hal : f.fblksize ∣ offset - 1) :
    aread host f bp maxch offset =
      .ok { f with
        memc := put f.memc bp ((f.chan.drop (offset - 1).toNat).take maxch.toNat)
        pending := ((f.chan.drop (offset - 1).toNat).take maxch.toNat).length
        ffiomode := .readInProgress } := by
  have hpos := h.blksize
  have hmod := Int.tmod_eq_zero_of_dvd hal
  have hlow : ¬offset < 1 := by omega
  have hhigh : ¬(f.filsize ≥ 0 ∧ offset - f.filsize > 1) := by omega
  have hnal : ¬(f.fblksize > 0 ∧ (offset - 1).tmod f.fblksize ≠ 0) := by
    omega
  simp only [aread, h.ffiomode, ne_eq, not_true_eq_false, if_false,
    h.not_stream, hlow, hhigh, decide_false, Bool.and_false, Bool.false_eq_true]
  rw [if_neg hnal, zardbf_eq host h.not_stream]

theorem fwatio_inactive (h : f.fbufmode = .inactive) : fwatio f = .ok f := by
  rw [fwatio, if_pos h]

theorem await_eq {n : Nat} (hio : f.ffiomode ≠ .inactive)
    (hn : f.pending = n) :
    await f =
      ((n : Int), { f with fnbytes := n, filstat := n, ffiomode := .inactive }) := by
  have hge : (n : Int) ≥ 0 := Int.natCast_nonneg n
  simp only [await, awaitb, if_neg hio, hn, if_pos hge]
  split <;> rfl

theorem fwatio_write {n : Nat} (hmode : f.fbufmode = .writeInProgress)
    (hio : f.ffiomode = .writeInProgress) (hn : f.pending = n) :
    fwatio f =
      .ok { f with
        fnbytes := n
        filstat := n
        ffiomode := .inactive
        fbufmode := .inactive
        otop := f.bufptr } := by
  have hio' : f.ffiomode ≠ .inactive := by simp [hio]
  have hnerr : (n : Int) ≠ ERR := by simp only [ERR]; omega
  simp only [fwatio, await_eq hio' hn, hmode, hnerr, if_false, reduceCtorEq]

theorem fwatio_read {n : Nat} (hmode : f.fbufmode = .readInProgress)
    (hio : f.ffiomode = .readInProgress) (hn : f.pending = n) :
    fwatio f =
      .ok { f with
        fnbytes := n
        filstat := n
        ffiomode := .inactive
        fbufmode := .inactive
        itop := f.bufptr + n
        otop := f.bufptr } := by
  have hio' : f.ffiomode ≠ .inactive := by simp [hio]
  have hnerr : (n : Int) ≠ ERR := by simp only [ERR]; omega
  simp only [fwatio, await_eq hio' hn, hmode, hnerr, if_false, if_true,
    reduceCtorEq]

/-- After a write of the first `n` chars of the buffer. -/
def Fd.wroteOut (f : Fd) (n : Nat) : Fd :=
  { f with
    chan := overlay f.chan (f.boffset - 1).toNat (fetch f.memc f.bufptr n)
    filsize := max f.filsize (f.boffset - 1 + n)
    pending := n
    fnbytes := n
    filstat := n
    otop := f.bufptr }

theorem fflsbf_eq (h : Idle f) {n : Nat} (hn : 0 < n) (h1 : 1 ≤ f.boffset)
    (hsize : 0 ≤ f.filsize) (hin : f.boffset - f.filsize ≤ 1)
    (hal : f.fblksize ∣ f.boffset - 1) :
    (fflsbf f f.bufptr n f.boffset).bind fwatio = .ok (f.wroteOut n) := by
  have hne : (fetch f.memc f.bufptr n).length ≠ 0 := by
    rw [length_fetch]
    omega
  have hwrite := awrite_eq h hne h1 hsize hin hal
  rw [fflsbf, fwatio_inactive h.fbufmode]
  simp only [bind, Except.bind, Int.toNat_natCast, hwrite]
  rw [fwatio_write rfl rfl (by rw [length_fetch])]
  simp only [Fd.wroteOut, length_fetch, h.fbufmode, h.ffiomode]

theorem fill_eq (h : Idle f) {offset : Int} (h1 : 1 ≤ offset)
    (hin : offset ≤ f.filsize) (hal : f.fblksize ∣ offset - 1) :
    (ffilbf host f f.bufptr f.fbufsize offset).bind fwatio =
      .ok (f.readIn ((f.chan.drop (offset - 1).toNat).take f.fbufsize.toNat)) := by
  have hread := aread_eq host h f.bufptr f.fbufsize h1 hin hal
  have heof : ¬(f.filsize ≥ 0 ∧ offset > f.filsize) := by omega
  rw [ffilbf, fwatio_inactive h.fbufmode]
  simp only [bind, Except.bind, h.not_stream, heof, decide_false, Bool.and_false,
    Bool.false_eq_true, if_false, hread]
  rw [fwatio_read rfl rfl rfl]
  simp only [Fd.readIn, h.fbufmode, h.ffiomode]

theorem fill_atEof (h : Idle f) (bp bufsize : Int) {offset : Int} (hsize : 0 ≤ f.filsize)
    (hin : f.filsize < offset) :
    (ffilbf host f bp bufsize offset).bind fwatio =
      .ok { f with itop := f.bufptr, otop := f.bufptr } := by
  have heof : f.filsize ≥ 0 ∧ offset > f.filsize := ⟨hsize, hin⟩
  rw [ffilbf, fwatio_inactive h.fbufmode]
  simp only [bind, Except.bind, h.not_stream, heof, and_self, decide_true,
    Bool.and_true, Bool.not_false, if_true]
  exact fwatio_inactive h.fbufmode

/-! ## Writing the buffer out -/

theorem Buffered.congr {g : Fd} (h : Buffered f content o t)
    (hsized : Sized g) (hblk : g.fblksize = f.fblksize)
    (hsize : g.fbufsize = f.fbufsize) (hptr : g.bufptr = f.bufptr)
    (hoff : g.boffset = f.boffset) (hmem : g.memc = f.memc)
    (hchan : g.chan = f.chan) (hfil : g.filsize = f.filsize) (htop : TopIs g t)
    (hclean : g.otop = g.bufptr → content = f.chan) :
    Buffered g content o t where
  sized := hsized
  boffset := by rw [hoff, h.boffset]
  aligned := by rw [hblk]; exact h.aligned
  origin := by rw [hchan]; exact h.origin
  top := htop
  fits := by rw [hsize]; exact h.fits
  size := by rw [hchan]; exact h.size
  window j hj := by rw [hmem, hptr]; exact h.window j hj
  outside i hi := by rw [hchan]; exact h.outside i hi
  sizeNoted := by rw [hchan, hfil]; exact h.sizeNoted
  clean hg := by rw [hchan]; exact hclean hg

theorem Sized.updateIop (h : Sized f) : Sized f.updateIop := by
  unfold Fd.updateIop
  split
  · exact ⟨h.bufptr, h.buftop, h.pos, h.blocks⟩
  · exact h

theorem Buffered.content_of_empty (h : Buffered f content o 0) :
    content = f.chan := by
  refine List.ext_getElem? fun i => h.outside i ?_
  omega

theorem Buffered.updateIop (h : Buffered f content o t) :
    Buffered f.updateIop content o t ∧
      f.updateIop.itop = f.bufptr + t ∧
      (f.updateIop.otop = f.bufptr ∨ f.updateIop.otop = f.bufptr + t) := by
  have hs := h.sized
  have htop := hs.buftop
  have hpos := hs.pos
  by_cases hw : f.otop = f.buftop
  · have hmin : min f.buftop (max f.itop f.iop) = f.bufptr + t := by
      have hfits := h.fits
      cases h.top with
      | clean hotop hitop => omega
      | settled hotop hitop => omega
      | writing hotop hle hitop => exact hitop
    have hup : f.updateIop =
        { f with itop := f.bufptr + t, otop := f.bufptr + t } := by
      rw [Fd.updateIop, if_pos ⟨hs.bufptr, hw⟩, hmin]
    rw [hup]
    refine ⟨?_, rfl, .inr rfl⟩
    refine h.congr ⟨hs.bufptr, hs.buftop, hs.pos, hs.blocks⟩ rfl rfl rfl rfl rfl
      rfl rfl (.settled rfl rfl) fun hg => ?_
    obtain rfl : t = 0 := by
      have hg' : f.bufptr + (t : Int) = f.bufptr := hg
      omega
    exact h.content_of_empty
  · have hup : f.updateIop = f := by
      rw [Fd.updateIop, if_neg fun hand => hw hand.2]
    rw [hup]
    refine ⟨h, ?_⟩
    cases h.top with
    | clean hotop hitop => exact ⟨hitop, .inl hotop⟩
    | settled hotop hitop => exact ⟨hitop, .inr (hotop.trans hitop)⟩
    | writing hotop hle hitop => exact absurd hotop hw

/-- The content is the chars of the device with those of the buffer over them. -/
theorem Buffered.overlay_chan (h : Buffered f content o t) :
    overlay f.chan o (fetch f.memc f.bufptr t) = content := by
  have hlen : (fetch f.memc f.bufptr t).length = t := length_fetch
  refine List.ext_getElem? fun i => ?_
  by_cases hi : o ≤ i ∧ i < o + t
  · obtain ⟨j, rfl⟩ := Nat.exists_eq_add_of_le hi.1
    have hj : j < t := by omega
    rw [getElem?_overlay_of_mem h.origin hi.1 (by omega), h.window j hj,
      Nat.add_sub_cancel_left, getElem?_fetch, if_pos hj]
  · rw [getElem?_overlay_of_not_mem h.origin (by omega), h.outside i (by omega)]

theorem Frame.updateIop (f : Fd) : Frame f f.updateIop := by
  unfold Fd.updateIop
  split <;> exact ⟨rfl, rfl, rfl, rfl, rfl, rfl, rfl, rfl, rfl, rfl, rfl, rfl,
    rfl, rfl, rfl, rfl⟩

theorem Frame.wroteOut (f : Fd) (n : Nat) : Frame f (f.wroteOut n) :=
  ⟨rfl, rfl, rfl, rfl, rfl, rfl, rfl, rfl, rfl, rfl, rfl, rfl, rfl, rfl, rfl, rfl⟩

theorem Buffered.wroteOut (h : Buffered f content o t) (hitop : f.itop = f.bufptr + t) :
    Buffered (f.wroteOut t) content o t ∧ (f.wroteOut t).chan = content := by
  have hs := h.sized
  have hoff : (f.boffset - 1).toNat = o := by
    rw [h.boffset]
    omega
  have hchan : (f.wroteOut t).chan = content := by
    rw [Fd.wroteOut, hoff, h.overlay_chan]
  refine ⟨?_, hchan⟩
  have hsize := h.size
  have horigin := h.origin
  have hnoted := h.sizeNoted
  refine
    { sized := ⟨hs.bufptr, hs.buftop, hs.pos, hs.blocks⟩
      boffset := h.boffset
      aligned := h.aligned
      origin := by rw [hchan]; omega
      top := .clean rfl hitop
      fits := h.fits
      size := by rw [hchan]; omega
      window := h.window
      outside := fun i _ => by rw [hchan]
      sizeNoted := ?_
      clean := fun _ => hchan.symm }
  have hfil : (f.wroteOut t).filsize = max f.filsize (f.boffset - 1 + t) := rfl
  rw [hchan, hfil, h.boffset]
  omega

/-- The buffer can be put down elsewhere. -/
structure Released (f : Fd) (content : List Int) : Prop where
  idle : Idle f
  sized : Sized f
  chan : f.chan = content
  filsize : f.filsize = content.length
  otop : f.otop = f.bufptr

theorem Fd.updateIop_fbufmode (f : Fd) : f.updateIop.fbufmode = f.fbufmode := by
  unfold Fd.updateIop
  split <;> rfl

theorem Fd.updateIop_ffiomode (f : Fd) : f.updateIop.ffiomode = f.ffiomode := by
  unfold Fd.updateIop
  split <;> rfl

theorem Fd.updateIop_fnchars (f : Fd) : f.updateIop.fnchars = f.fnchars := by
  unfold Fd.updateIop
  split <;> rfl

@[simp] theorem Fd.updateIop_bufptr (f : Fd) : f.updateIop.bufptr = f.bufptr := by
  unfold Fd.updateIop
  split <;> rfl

@[simp] theorem Fd.updateIop_fbufsize (f : Fd) :
    f.updateIop.fbufsize = f.fbufsize := by
  unfold Fd.updateIop
  split <;> rfl

@[simp] theorem Fd.updateIop_iop (f : Fd) : f.updateIop.iop = f.iop := by
  unfold Fd.updateIop
  split <;> rfl

@[simp] theorem Fd.updateIop_boffset (f : Fd) : f.updateIop.boffset = f.boffset := by
  unfold Fd.updateIop
  split <;> rfl

@[simp] theorem Fd.updateIop_memc (f : Fd) : f.updateIop.memc = f.memc := by
  unfold Fd.updateIop
  split <;> rfl

theorem Idle.updateIop (h : Idle f) : Idle f.updateIop :=
  h.frame (.updateIop f) (by rw [f.updateIop_fbufmode, h.fbufmode])
    (by rw [f.updateIop_ffiomode, h.ffiomode])
    (by rw [f.updateIop_fnchars]; exact h.fnchars)

theorem Buffered.filsize_of_clean (h : Buffered f content o t)
    (hchan : f.chan = content) : f.filsize = content.length := by
  have := h.sizeNoted
  rw [hchan] at this
  omega

theorem Buffered.fflsbf_eq (h : Buffered f content o t) (hi : Idle f)
    (ht : 0 < t) :
    (fflsbf f f.bufptr t f.boffset).bind fwatio = .ok (f.wroteOut t) := by
  have hnoted := h.sizeNoted
  have hoff := h.boffset
  have horigin := h.origin
  refine Fio.fflsbf_eq hi ht (by omega) (by omega) (by omega) ?_
  rw [hoff, Int.add_sub_cancel]
  exact h.aligned

theorem flushModified_spec (hi : Idle f) (h : Buffered f content o t) :
    ∃ g, flushModified f.updateIop = .ok g ∧ Released g content ∧ Frame f g ∧
      g.bufptr = f.bufptr ∧ g.fbufsize = f.fbufsize ∧ g.memc = f.memc := by
  obtain ⟨hb, hitop, hotop⟩ := h.updateIop
  have hidle := hi.updateIop
  have hptr := f.updateIop_bufptr
  by_cases hmod : f.updateIop.bufModified
  · have ht : 0 < t := by
      rw [Fd.bufModified, decide_eq_true_iff] at hmod
      omega
    have hlen : f.updateIop.otop - f.updateIop.bufptr = t := by
      rw [Fd.bufModified, decide_eq_true_iff] at hmod
      omega
    obtain ⟨hout, hchan⟩ := hb.wroteOut (by omega)
    refine ⟨f.updateIop.wroteOut t, ?_, ⟨?_, hout.sized, hchan, ?_, rfl⟩,
      (Frame.updateIop f).trans (.wroteOut _ t), hptr, f.updateIop_fbufsize,
      f.updateIop_memc⟩
    · rw [flushModified, if_pos hmod, hlen]
      exact hb.fflsbf_eq hidle ht
    · exact hidle.frame (.wroteOut _ t) hidle.fbufmode hidle.ffiomode
        hidle.fnchars
    · exact hout.filsize_of_clean hchan
  · have hclean : f.updateIop.otop = f.updateIop.bufptr := by
      rw [Fd.bufModified, decide_eq_true_iff] at hmod
      omega
    have hchan := (hb.clean hclean).symm
    exact ⟨f.updateIop, by rw [flushModified, if_neg hmod],
      ⟨hidle, hb.sized, hchan, hb.filsize_of_clean hchan, hclean⟩,
      .updateIop f, hptr, f.updateIop_fbufsize, f.updateIop_memc⟩

theorem flushModified_unplaced (hi : Idle f) (h : Unplaced f content)
    (hs : Sized f) :
    f.updateIop = f ∧ flushModified f.updateIop = .ok f ∧ Released f content := by
  have hotop := h.otop
  have htop := hs.buftop
  have hpos := hs.pos
  have hup : f.updateIop = f := by
    rw [Fd.updateIop, if_neg fun hand => by omega]
  have hmod : ¬f.bufModified := by
    rw [Fd.bufModified, decide_eq_true_iff]
    omega
  exact ⟨hup, by rw [hup, flushModified, if_neg hmod],
    ⟨hi, hs, h.chan, h.filsize, hotop⟩⟩

/-! ## Filling the buffer -/

/-- The place in the file of the buffer that holds the char after the first
`p`. -/
def bufferOrigin (size : Int) (p : Nat) : Nat := p / size.toNat * size.toNat

theorem bufferOrigin_le (size : Int) (p : Nat) : bufferOrigin size p ≤ p :=
  Nat.div_mul_le_self p size.toNat

theorem lt_bufferOrigin_add {size : Int} (h : 0 < size) (p : Nat) :
    (p : Int) < bufferOrigin size p + size := by
  have hpos : 0 < size.toNat := by omega
  have hlt := Nat.lt_div_mul_add hpos (a := p)
  unfold bufferOrigin
  omega

theorem dvd_bufferOrigin {size blksize : Int} (h : 0 < size) (hd : blksize ∣ size)
    (p : Nat) : blksize ∣ (bufferOrigin size p : Int) := by
  have hsize : ((size.toNat : Nat) : Int) = size := Int.toNat_of_nonneg h.le
  unfold bufferOrigin
  rw [Int.natCast_mul, hsize]
  exact Dvd.dvd.mul_left hd _

theorem bufferOffset_eq (hi : Idle f) (hpos : 0 < f.fbufsize) (p : Nat) :
    bufferOffset f (p + 1) = .ok ((bufferOrigin f.fbufsize p : Nat) + 1) := by
  have hle : ¬(p : Int) + 1 ≤ 0 := by omega
  have hne : f.fbufsize ≠ 0 := by omega
  have hsize : ((f.fbufsize.toNat : Nat) : Int) = f.fbufsize :=
    Int.toNat_of_nonneg hpos.le
  have hdiv : ((p : Int) + 1 - 1).tdiv f.fbufsize = ((p / f.fbufsize.toNat : Nat) : Int) := by
    rw [Int.add_sub_cancel, ← hsize]
    rfl
  rw [bufferOffset, hi.not_stream, hi.firstbufoff, if_neg hle, if_neg hne, hdiv]
  simp [bufferOrigin, hsize]

/-- The cells of memory outside of the file buffer are unchanged. -/
def MemcKept (f g : Fd) : Prop :=
  ∀ x, x < f.bufptr ∨ f.bufptr + f.fbufsize ≤ x → g.memc x = f.memc x

/-- A clean buffer that lies over the chars from `o` on. -/
structure Loaded (f g : Fd) (content : List Int) (o t : Nat) : Prop where
  buffered : Buffered g content o t
  otop : g.otop = g.bufptr
  itop : g.itop = g.bufptr + t
  idle : Idle g
  frame : Frame f g
  bufptr : g.bufptr = f.bufptr
  fbufsize : g.fbufsize = f.fbufsize
  memc : MemcKept f g

theorem Released.loaded {g : Fd} (h : Released f content) (hframe : Frame f g)
    (hidle : Idle g) (hptr : g.bufptr = f.bufptr) (hsize : g.fbufsize = f.fbufsize)
    (htop : g.buftop = f.buftop) (hchan : g.chan = f.chan)
    (hfil : g.filsize = f.filsize) (hoff : g.boffset = o + 1)
    (hal : f.fblksize ∣ (o : Int)) (hle : o + t ≤ content.length)
    (hfits : (t : Int) ≤ f.fbufsize) (hitop : g.itop = g.bufptr + t)
    (hotop : g.otop = g.bufptr)
    (hwindow : ∀ j < t, content[o + j]? = some (g.memc (g.bufptr + (j : Nat))))
    (hmem : MemcKept f g) : Loaded f g content o t := by
  have hs := h.sized
  have hlen := h.filsize
  refine ⟨?_, hotop, hitop, hidle, hframe, hptr, hsize, hmem⟩
  exact
    { sized :=
        ⟨by rw [hptr]; exact hs.bufptr, by rw [htop, hptr, hsize]; exact hs.buftop,
          by rw [hsize]; exact hs.pos,
          by rw [hframe.fblksize, hsize]; exact hs.blocks⟩
      boffset := hoff
      aligned := by rw [hframe.fblksize]; exact hal
      origin := by rw [hchan, h.chan]; omega
      top := .clean hotop hitop
      fits := by rw [hsize]; exact hfits
      size := by rw [hchan, h.chan]; omega
      window := hwindow
      outside := fun i _ => by rw [hchan, h.chan]
      sizeNoted := by rw [hchan, hfil, h.chan, hlen]; exact ⟨le_rfl, le_rfl⟩
      clean := fun _ => by rw [hchan, h.chan] }

theorem loadBuffer_fill (h : Released f content) (ho : o ≤ content.length)
    (hal : f.fblksize ∣ (o : Int)) {fileOffset nreserve : Int} {rwflag : RwFlag}
    (hflag : rwflag = .read ∨ ¬(fileOffset = o + 1 ∧ nreserve ≥ f.fbufsize)) :
    ∃ g t, loadBuffer host f fileOffset (o + 1) nreserve rwflag = .ok g ∧
      Loaded f { g with boffset := o + 1 } content o t ∧
      Full { g with boffset := o + 1 } content o t := by
  have hs := h.sized
  have hpos := hs.pos
  have hidle := h.idle
  have hfil := h.filsize
  have hblock : (decide (rwflag = .write) && (f.stream ||
      decide (fileOffset = (o : Int) + 1 ∧ nreserve ≥ f.fbufsize))) = false := by
    rw [hidle.not_stream]
    rcases hflag with rfl | hnot
    · rfl
    · simp only [hnot, decide_false, Bool.or_false, Bool.and_false]
  have hload : loadBuffer host f fileOffset (o + 1) nreserve rwflag =
      (ffilbf host f f.bufptr f.fbufsize (o + 1)).bind fwatio := by
    simp only [loadBuffer, hblock, hidle.read, Bool.not_true, Bool.false_eq_true,
      if_false, bind]
  rcases Nat.lt_or_ge o content.length with hlt | hge
  · have hfill := fill_eq host hidle (show 1 ≤ (o : Int) + 1 by omega)
      (by omega) (by rw [Int.add_sub_cancel]; exact hal)
    have hoff : ((o : Int) + 1 - 1).toNat = o := by omega
    rw [hoff, h.chan] at hfill
    have hlen : ((content.drop o).take f.fbufsize.toNat).length =
        min f.fbufsize.toNat (content.length - o) := by
      rw [List.length_take, List.length_drop]
    refine ⟨_, ((content.drop o).take f.fbufsize.toNat).length,
      hload.trans hfill, ?_, ?_⟩
    · refine h.loaded ⟨rfl, rfl, rfl, rfl, rfl, rfl, rfl, rfl, rfl, rfl, rfl, rfl,
        rfl, rfl, rfl, rfl⟩ ?_ rfl rfl rfl rfl rfl rfl hal (by omega) (by omega)
        rfl rfl ?_ ?_
      · exact ⟨hidle.binary, hidle.read, hidle.blksize, hidle.firstbufoff,
          hidle.fbufmode, hidle.ffiomode, hidle.fnchars, hidle.bufAt⟩
      · intro j hj
        show _ = some (put f.memc f.bufptr _ (f.bufptr + (j : Nat)))
        rw [put_of_mem j hj rfl, List.getElem_take, List.getElem_drop,
          List.getElem?_eq_getElem]
      · intro x hx
        refine put_of_not_mem ?_
        omega
    · show (((content.drop o).take f.fbufsize.toNat).length : Int) = _
      rw [hlen]
      show _ = min f.fbufsize _
      omega
  · have hatEof := fill_atEof host hidle f.bufptr f.fbufsize (by omega)
      (show f.filsize < (o : Int) + 1 by omega)
    refine ⟨_, 0, hload.trans hatEof, ?_, ?_⟩
    · refine h.loaded ⟨rfl, rfl, rfl, rfl, rfl, rfl, rfl, rfl, rfl, rfl, rfl, rfl,
        rfl, rfl, rfl, rfl⟩ ?_ rfl rfl rfl rfl rfl rfl hal (by omega) (by omega)
        (by simp) rfl (by simp) fun x _ => rfl
      exact ⟨hidle.binary, hidle.read, hidle.blksize, hidle.firstbufoff,
        hidle.fbufmode, hidle.ffiomode, hidle.fnchars, hidle.bufAt⟩
    · show ((0 : Nat) : Int) = min f.fbufsize _
      omega

theorem loadBuffer_block (h : Released f content) (ho : o ≤ content.length)
    (hal : f.fblksize ∣ (o : Int)) {nreserve : Int}
    (hn : nreserve ≥ f.fbufsize) :
    ∃ g, loadBuffer host f (o + 1) (o + 1) nreserve .write = .ok g ∧
      Loaded f { g with boffset := o + 1 } content o 0 := by
  have hs := h.sized
  have hpos := hs.pos
  have hidle := h.idle
  refine ⟨{ f with itop := f.bufptr, otop := f.bufptr }, ?_, ?_⟩
  · simp [loadBuffer, hn]
  · refine h.loaded ⟨rfl, rfl, rfl, rfl, rfl, rfl, rfl, rfl, rfl, rfl, rfl, rfl,
      rfl, rfl, rfl, rfl⟩ ?_ rfl rfl rfl rfl rfl rfl hal (by omega) (by omega)
      (by simp) rfl (by simp) fun x _ => rfl
    exact ⟨hidle.binary, hidle.read, hidle.blksize, hidle.firstbufoff,
      hidle.fbufmode, hidle.ffiomode, hidle.fnchars, hidle.bufAt⟩

theorem Fd.lseek_eq {g : Fd} (h : ¬(g.bufptr ≠ 0 ∧ g.otop = g.buftop)) (x : Int) :
    g.lseek x = { g with iop := x - g.boffset + g.bufptr } := by
  rw [Fd.lseek, Fd.updateIop, if_neg h]

theorem Loaded.lseek {g : Fd} (h : Loaded f g content o t) (offset : Int) :
    Loaded f (g.lseek offset) content o t ∧
      (g.lseek offset).iop = offset - g.boffset + g.bufptr ∧
      (Full g content o t → Full (g.lseek offset) content o t) := by
  have hs := h.buffered.sized
  have hne : ¬(g.bufptr ≠ 0 ∧ g.otop = g.buftop) := by
    have := hs.buftop
    have := hs.pos
    have := h.otop
    omega
  rw [Fd.lseek_eq hne]
  refine ⟨⟨?_, h.otop, h.itop, ?_, ?_, h.bufptr, h.fbufsize, h.memc⟩, rfl, id⟩
  · exact h.buffered.congr ⟨hs.bufptr, hs.buftop, hs.pos, hs.blocks⟩ rfl rfl rfl
      rfl rfl rfl rfl (.clean h.otop h.itop) h.buffered.clean
  · have hi := h.idle
    exact ⟨hi.binary, hi.read, hi.blksize, hi.firstbufoff, hi.fbufmode,
      hi.ffiomode, hi.fnchars, hi.bufAt⟩
  · have hf := h.frame
    exact ⟨hf.ffRead, hf.ffWrite, hf.ffPushback, hf.ffRaw, hf.ftype, hf.fblksize,
      hf.fmaxbufsize, hf.firstbufoff, hf.fpbbuf, hf.fpbbufsize, hf.fpbtop,
      hf.fpbiop, hf.fpbsp, hf.memi, hf.bufAt, hf.pbAt⟩

theorem Loaded.trans {e g : Fd} (h : Loaded f g content o t) (hframe : Frame e f)
    (hptr : f.bufptr = e.bufptr) (hsize : f.fbufsize = e.fbufsize)
    (hmem : f.memc = e.memc) : Loaded e g content o t where
  buffered := h.buffered
  otop := h.otop
  itop := h.itop
  idle := h.idle
  frame := hframe.trans h.frame
  bufptr := h.bufptr.trans hptr
  fbufsize := h.fbufsize.trans hsize
  memc x hx := by
    rw [h.memc x (by rw [hptr, hsize]; exact hx), hmem]

/-- There is a buffer, in the file or not. -/
def Placeable (f : Fd) (content : List Int) : Prop :=
  Unplaced f content ∧ Sized f ∨ ∃ o t, Buffered f content o t

theorem Placeable.sized (h : Placeable f content) : Sized f := by
  rcases h with ⟨-, hs⟩ | ⟨o, t, hb⟩
  · exact hs
  · exact hb.sized

theorem Placeable.released (h : Placeable f content) (hi : Idle f) :
    ∃ g, flushModified f.updateIop = .ok g ∧ Released g content ∧ Frame f g ∧
      g.bufptr = f.bufptr ∧ g.fbufsize = f.fbufsize ∧ g.memc = f.memc := by
  rcases h with ⟨hu, hs⟩ | ⟨o, t, hb⟩
  · obtain ⟨-, hok, hrel⟩ := flushModified_unplaced hi hu hs
    exact ⟨f, hok, hrel, .refl f, rfl, rfl, rfl⟩
  · exact flushModified_spec hi hb

/-- What a fault leaves: a clean buffer that holds the char at the offset, or is
about to be written over as a whole. -/
theorem ffault_spec (hi : Idle f) (h : Placeable f content)
    (hp : p ≤ content.length) (nreserve : Int) (rwflag : RwFlag) :
    ∃ g t, ffault host f (p + 1) nreserve rwflag =
        .ok (if g.itop - g.iop ≤ 0 then EOF else g.itop - g.iop, g) ∧
      Loaded f g content (bufferOrigin f.fbufsize p) t ∧
      g.iop = g.bufptr + (p - bufferOrigin f.fbufsize p) ∧
      (Full g content (bufferOrigin f.fbufsize p) t ∨
        rwflag = .write ∧ p = bufferOrigin f.fbufsize p ∧ t = 0 ∧
          nreserve ≥ f.fbufsize) := by
  have hs := h.sized
  have hoffset := bufferOffset_eq hi hs.pos p
  have hle := bufferOrigin_le f.fbufsize p
  generalize ho : bufferOrigin f.fbufsize p = o at *
  obtain ⟨e, hflush, hrel, hframe, hptr, hsize, hmem⟩ := h.released hi
  have hal : e.fblksize ∣ (o : Int) := by
    rw [hframe.fblksize, ← ho]
    exact dvd_bufferOrigin hs.pos hs.blocks p
  have hrun : ∀ g, loadBuffer host e (p + 1) (o + 1) nreserve rwflag = .ok g →
      ffault host f (p + 1) nreserve rwflag =
        .ok (let g := { g with boffset := (o : Int) + 1 }.lseek (p + 1)
          (if g.itop - g.iop ≤ 0 then EOF else g.itop - g.iop, g)) := by
    intro g hg
    simp only [ffault, hoffset, hflush, hg, bind, Except.bind]
  have hiop : ∀ g : Fd, g.boffset = (o : Int) + 1 →
      (p : Int) + 1 - g.boffset + g.bufptr = g.bufptr + (p - o) := by
    intro g hg
    omega
  by_cases hblock : rwflag = .write ∧ p = o ∧ nreserve ≥ f.fbufsize
  · obtain ⟨rfl, rfl, hn⟩ := hblock
    obtain ⟨g, hg, hloaded⟩ := loadBuffer_block host hrel hp hal
      (show nreserve ≥ e.fbufsize by rw [hsize]; exact hn)
    obtain ⟨hseek, hiop', -⟩ := hloaded.lseek ((p : Int) + 1)
    refine ⟨_, 0, hrun g hg, hseek.trans hframe hptr hsize hmem, ?_,
      .inr ⟨rfl, rfl, rfl, hn⟩⟩
    rw [hiop', hiop _ rfl, hseek.bufptr, ← hloaded.bufptr]
  · have hflag : rwflag = .read ∨
        ¬((p : Int) + 1 = o + 1 ∧ nreserve ≥ e.fbufsize) := by
      cases rwflag with
      | read => exact .inl rfl
      | write =>
          rw [hsize]
          exact .inr fun hand => hblock ⟨rfl, by omega, hand.2⟩
    obtain ⟨g, t, hg, hloaded, hfull⟩ := loadBuffer_fill host hrel
      (hle.trans hp) hal hflag
    obtain ⟨hseek, hiop', hfull'⟩ := hloaded.lseek ((p : Int) + 1)
    refine ⟨_, t, hrun g hg, hseek.trans hframe hptr hsize hmem, ?_,
      .inl (hfull' hfull)⟩
    rw [hiop', hiop _ rfl, hseek.bufptr, ← hloaded.bufptr]

end Iraf.Fio
