import Iraf.Fio.RandomOps

/-!
# Input streams

What is left to be read of a file: a random access file at its position, a text
file or a streaming device with what the buffer holds in front, or the chars in
memory of a string or spool file.
-/

namespace Iraf.Fio

open Cells

/-! ## Streams -/

/-- A text file or a streaming device that is being read. -/
structure Sequential (f : Fd) (rest : List Int) : Prop where
  kind : f.ftype = .text ∨ f.ftype = .binary ∧ f.fblksize = 0
  read : f.ffRead = true
  fbufmode : f.fbufmode = .inactive
  ffiomode : f.ffiomode = .inactive
  fnchars : 0 ≤ f.fnchars
  bufAt : f.bufAt ≠ 0
  low : f.bufptr ≤ f.iop
  textLine : f.ftype = .text → f.iop ≤ f.itop
  noBuffer : f.bufptr = 0 → f.itop = 0 ∧ 0 ≤ f.boffset ∧ 0 < promoted f
  buffer : f.bufptr ≠ 0 → f.buftop = f.bufptr + f.fbufsize ∧ f.otop = f.bufptr ∧
    f.itop ≤ f.buftop ∧ 0 < f.fbufsize
  rest_eq : rest = fetch f.memc f.iop (f.itop - f.iop).toNat ++ f.chan

/-- A string or spool file: all there is to read is in memory. -/
structure InMemory (f : Fd) (rest : List Int) : Prop where
  kind : f.ftype = .string ∨ f.ftype = .spool
  read : f.ffRead = false
  fnchars : 0 ≤ f.fnchars
  bufAt : f.bufAt ≠ 0
  low : f.bufptr ≤ f.iop
  noBuffer : f.bufptr = 0 → f.itop ≤ f.iop
  rest_eq : rest = fetch f.memc f.iop (f.itop - f.iop).toNat

/-- The chars that are left, when nothing is pushed back. -/
inductive Stream (f : Fd) (rest : List Int) : Prop
  | random (content : List Int) (p : Nat) (h : Represents f content p)
      (hrest : rest = content.drop p)
  | sequential (h : Sequential f rest)
  | inMemory (h : InMemory f rest)

/-! ## Memory of the stream -/

/-- The cells of the file buffer, made already or not. -/
def bufLow (f : Fd) : Int := if f.bufptr = 0 then f.bufAt else f.bufptr

def bufHigh (f : Fd) : Int :=
  if f.bufptr = 0 then f.bufAt + max 0 (promoted f)
  else max (f.bufptr + f.fbufsize) f.itop

/-- The file buffer has the same place. -/
def SameExtent (f g : Fd) : Prop := bufLow g = bufLow f ∧ bufHigh g = bufHigh f

theorem SameExtent.refl (f : Fd) : SameExtent f f := ⟨rfl, rfl⟩

theorem SameExtent.trans {f g e : Fd} (h : SameExtent f g) (h' : SameExtent g e) :
    SameExtent f e := ⟨h'.1.trans h.1, h'.2.trans h.2⟩

/-- What the stream is made of is the same. -/
structure SameStream (f g : Fd) : Prop where
  iop : g.iop = f.iop
  itop : g.itop = f.itop
  otop : g.otop = f.otop
  bufptr : g.bufptr = f.bufptr
  buftop : g.buftop = f.buftop
  boffset : g.boffset = f.boffset
  ffRead : g.ffRead = f.ffRead
  ftype : g.ftype = f.ftype
  fblksize : g.fblksize = f.fblksize
  fbufsize : g.fbufsize = f.fbufsize
  fmaxbufsize : g.fmaxbufsize = f.fmaxbufsize
  firstbufoff : g.firstbufoff = f.firstbufoff
  filsize : g.filsize = f.filsize
  fnchars : 0 ≤ g.fnchars
  fbufmode : g.fbufmode = f.fbufmode
  ffiomode : g.ffiomode = f.ffiomode
  bufAt : g.bufAt = f.bufAt
  chan : g.chan = f.chan
  memc : ∀ x, bufLow f ≤ x → x < bufHigh f → g.memc x = f.memc x

variable {f g : Fd} {content rest : List Int} {o t p : Nat}

theorem SameStream.promoted (h : SameStream f g) : promoted g = promoted f := by
  unfold Fio.promoted
  rw [h.ftype, h.fblksize, h.fbufsize, h.fmaxbufsize]

theorem SameStream.extent (h : SameStream f g) : SameExtent f g := by
  unfold SameExtent bufLow bufHigh
  rw [h.bufptr, h.bufAt, h.promoted, h.fbufsize, h.itop]
  exact ⟨rfl, rfl⟩

theorem SameStream.sized (h : SameStream f g) (hs : Sized f) : Sized g where
  bufptr := by rw [h.bufptr]; exact hs.bufptr
  buftop := by rw [h.buftop, h.bufptr, h.fbufsize]; exact hs.buftop
  pos := by rw [h.fbufsize]; exact hs.pos
  blocks := by rw [h.fblksize, h.fbufsize]; exact hs.blocks

theorem SameStream.fetch_eq (h : SameStream f g) (hptr : f.bufptr ≠ 0) {a : Int}
    {n : Nat} (hlow : f.bufptr ≤ a)
    (hhigh : n ≠ 0 → a + n ≤ max (f.bufptr + f.fbufsize) f.itop) :
    fetch g.memc a n = fetch f.memc a n := by
  refine fetch_congr fun j hj => h.memc _ ?_ ?_
  · rw [bufLow, if_neg hptr]
    omega
  · rw [bufHigh, if_neg hptr]
    have := hhigh (by omega)
    omega

theorem SameStream.buffered (h : SameStream f g) (hb : Buffered f content o t) :
    Buffered g content o t where
  sized := h.sized hb.sized
  boffset := by rw [h.boffset]; exact hb.boffset
  aligned := by rw [h.fblksize]; exact hb.aligned
  origin := by rw [h.chan]; exact hb.origin
  top := by
    cases hb.top with
    | clean hotop hitop =>
        exact .clean (by rw [h.otop, h.bufptr, hotop]) (by rw [h.itop, h.bufptr, hitop])
    | settled hotop hitop =>
        exact .settled (by rw [h.otop, h.itop, hotop]) (by rw [h.itop, h.bufptr, hitop])
    | writing hotop hle hitop =>
        exact .writing (by rw [h.otop, h.buftop, hotop]) (by rw [h.itop, h.buftop]; exact hle)
          (by rw [h.buftop, h.itop, h.iop, h.bufptr]; exact hitop)
  fits := by rw [h.fbufsize]; exact hb.fits
  size := by rw [h.chan]; exact hb.size
  window j hj := by
    have hfits := hb.fits
    have hptr := hb.sized.bufptr
    rw [hb.window j hj, h.bufptr, h.memc]
    · rw [bufLow, if_neg hptr]
      omega
    · rw [bufHigh, if_neg hptr]
      omega
  outside i hi := by rw [h.chan]; exact hb.outside i hi
  sizeNoted := by rw [h.chan, h.filsize]; exact hb.sizeNoted
  clean hg := by
    rw [h.otop, h.bufptr] at hg
    rw [h.chan]
    exact hb.clean hg

theorem SameStream.represents (h : SameStream f g) (hr : Represents f content p) :
    Represents g content p where
  idle :=
    have hi := hr.idle
    { binary := by rw [h.ftype, hi.binary]
      read := by rw [h.ffRead, hi.read]
      blksize := by rw [h.fblksize]; exact hi.blksize
      firstbufoff := by rw [h.firstbufoff, hi.firstbufoff]
      fbufmode := by rw [h.fbufmode, hi.fbufmode]
      ffiomode := by rw [h.ffiomode, hi.ffiomode]
      fnchars := h.fnchars
      bufAt := by rw [h.bufAt]; exact hi.bufAt }
  lnote := by
    unfold Fd.lnote
    rw [h.boffset, h.iop, h.bufptr]
    exact hr.lnote
  pos_le := hr.pos_le
  buffer := by
    refine hr.buffer.imp (fun hu => ?_) fun ⟨o, t, hb, hfull⟩ =>
      ⟨o, t, h.buffered hb, ?_⟩
    · exact
        { chan := by rw [h.chan, hu.chan]
          filsize := by rw [h.filsize, hu.filsize]
          itop := by rw [h.itop, h.bufptr, hu.itop]
          otop := by rw [h.otop, h.bufptr, hu.otop]
          sized := fun hne => h.sized (hu.sized (by rw [← h.bufptr]; exact hne))
          noBuffer := fun hno => by
            rw [h.buftop, h.promoted, h.fblksize]
            exact hu.noBuffer (by rw [← h.bufptr]; exact hno) }
    · unfold Full at hfull ⊢
      rw [h.fbufsize]
      exact hfull

theorem SameStream.sequential (h : SameStream f g) (hs : Sequential f rest) :
    Sequential g rest where
  kind := by rw [h.ftype, h.fblksize]; exact hs.kind
  read := by rw [h.ffRead, hs.read]
  fbufmode := by rw [h.fbufmode, hs.fbufmode]
  ffiomode := by rw [h.ffiomode, hs.ffiomode]
  fnchars := h.fnchars
  bufAt := by rw [h.bufAt]; exact hs.bufAt
  low := by rw [h.bufptr, h.iop]; exact hs.low
  textLine htext := by
    rw [h.iop, h.itop]
    exact hs.textLine (by rw [← h.ftype]; exact htext)
  noBuffer hno := by
    rw [h.itop, h.boffset, h.promoted]
    exact hs.noBuffer (by rw [← h.bufptr]; exact hno)
  buffer hne := by
    rw [h.buftop, h.bufptr, h.fbufsize, h.otop, h.itop]
    exact hs.buffer (by rw [← h.bufptr]; exact hne)
  rest_eq := by
    rw [h.iop, h.itop, h.chan, hs.rest_eq]
    congr 1
    by_cases hno : f.bufptr = 0
    · have hzero : (f.itop - f.iop).toNat = 0 := by
        have := hs.low
        have := (hs.noBuffer hno).1
        omega
      rw [hzero, fetch_zero, fetch_zero]
    · exact (h.fetch_eq hno hs.low fun _ => by omega).symm

theorem SameStream.inMemory (h : SameStream f g) (hm : InMemory f rest) :
    InMemory g rest where
  kind := by rw [h.ftype]; exact hm.kind
  read := by rw [h.ffRead, hm.read]
  fnchars := h.fnchars
  bufAt := by rw [h.bufAt]; exact hm.bufAt
  low := by rw [h.bufptr, h.iop]; exact hm.low
  noBuffer hno := by
    rw [h.itop, h.iop]
    exact hm.noBuffer (by rw [← h.bufptr]; exact hno)
  rest_eq := by
    rw [h.iop, h.itop, hm.rest_eq]
    by_cases hno : f.bufptr = 0
    · have hzero : (f.itop - f.iop).toNat = 0 := by
        have := hm.noBuffer hno
        omega
      rw [hzero, fetch_zero, fetch_zero]
    · exact (h.fetch_eq hno hm.low fun _ => by omega).symm

theorem Stream.same (h : Stream f rest) (hs : SameStream f g) : Stream g rest := by
  cases h with
  | random content p h hrest => exact .random content p (hs.represents h) hrest
  | sequential h => exact .sequential (hs.sequential h)
  | inMemory h => exact .inMemory (hs.inMemory h)

/-! ## The file buffer is made -/

theorem Frame.lseek (f : Fd) (x : Int) : Frame f (f.lseek x) :=
  (Frame.updateIop f).trans (.iop f.updateIop _)

theorem Frame.fmkbfs (f : Fd) : Frame f (fmkbfs f) := by
  unfold Fio.fmkbfs
  dsimp only
  split
  · refine Frame.trans ?_ (Frame.lseek _ _)
    exact ⟨rfl, rfl, rfl, rfl, rfl, rfl, rfl, rfl, rfl, rfl, rfl, rfl, rfl, rfl, rfl,
      rfl⟩
  · exact ⟨rfl, rfl, rfl, rfl, rfl, rfl, rfl, rfl, rfl, rfl, rfl, rfl, rfl, rfl, rfl,
      rfl⟩

theorem fmkbfs_fields (f : Fd) (hpos : 0 < promoted f ∨ f.ftype ≠ .binary) :
    let g := fmkbfs f
    g.bufptr = f.bufAt ∧ g.buftop = f.bufAt + promoted f ∧ g.itop = f.bufAt ∧
      g.otop = f.bufAt ∧ g.boffset = 0 ∧ g.fbufsize = promoted f ∧
      g.fbufmode = f.fbufmode ∧ g.ffiomode = f.ffiomode ∧ g.fnchars = f.fnchars ∧
      g.chan = f.chan ∧ g.memc = f.memc ∧
      g.iop = if f.ftype = .binary then f.lnote + f.bufAt else f.bufAt := by
  intro g
  by_cases hb : f.ftype = .binary
  · have hne : ¬(f.bufAt ≠ 0 ∧ f.bufAt = f.bufAt + promoted f) := by
      rcases hpos with hpos | hnot
      · omega
      · exact absurd hb hnot
    have heq : g = { f with
        fbufsize := promoted f
        boffset := 0
        bufptr := f.bufAt
        buftop := f.bufAt + promoted f
        itop := f.bufAt
        otop := f.bufAt
        iop := f.lnote - 0 + f.bufAt } := by
      simp only [g, fmkbfs, hb, if_true, Fd.lseek, Fd.updateIop, hne, if_false,
        Fd.lnote]
    rw [heq, if_pos hb]
    exact ⟨rfl, rfl, rfl, rfl, rfl, rfl, rfl, rfl, rfl, rfl, rfl, by
      show f.lnote - 0 + f.bufAt = _
      omega⟩
  · have heq : g = { f with
        fbufsize := promoted f
        boffset := 0
        bufptr := f.bufAt
        buftop := f.bufAt + promoted f
        itop := f.bufAt
        otop := f.bufAt
        iop := f.bufAt } := by
      simp only [g, fmkbfs, hb, if_false]
    rw [heq, if_neg hb]
    exact ⟨rfl, rfl, rfl, rfl, rfl, rfl, rfl, rfl, rfl, rfl, rfl, rfl⟩

theorem Sequential.fmkbfs (h : Sequential f rest) (hno : f.bufptr = 0) :
    Sequential (fmkbfs f) rest := by
  obtain ⟨hitop, hoff, hpos⟩ := h.noBuffer hno
  obtain ⟨hptr, htop, hitop', hotop, hoff', hsize, hmode, hio, hn, hchan, -, hiop⟩ :=
    fmkbfs_fields f (.inl hpos)
  have hframe := Frame.fmkbfs f
  have hlow := h.low
  have hlnote : 0 ≤ f.lnote := by
    unfold Fd.lnote
    omega
  have hiop' : (Fio.fmkbfs f).bufptr ≤ (Fio.fmkbfs f).iop := by
    rw [hptr, hiop]
    split <;> omega
  have hzero : ((Fio.fmkbfs f).itop - (Fio.fmkbfs f).iop).toNat = 0 := by
    rw [hptr] at hiop'
    omega
  exact
    { kind := by rw [hframe.ftype, hframe.fblksize]; exact h.kind
      read := by rw [hframe.ffRead, h.read]
      fbufmode := by rw [hmode, h.fbufmode]
      ffiomode := by rw [hio, h.ffiomode]
      fnchars := by rw [hn]; exact h.fnchars
      bufAt := by rw [hframe.bufAt]; exact h.bufAt
      low := hiop'
      textLine := fun htext => by
        rw [hframe.ftype] at htext
        rw [hiop, hitop', if_neg (by rw [htext]; decide)]
      noBuffer := fun hzero => by
        rw [hptr] at hzero
        exact absurd hzero h.bufAt
      buffer := fun _ => by
        rw [htop, hptr, hsize, hotop, hitop']
        exact ⟨rfl, rfl, by omega, hpos⟩
      rest_eq := by
        have hzero' : (f.itop - f.iop).toNat = 0 := by omega
        rw [hzero, hchan, h.rest_eq, hzero', fetch_zero, fetch_zero] }

theorem InMemory.fmkbfs (h : InMemory f rest) (hno : f.bufptr = 0) :
    InMemory (fmkbfs f) rest := by
  have hb : f.ftype ≠ .binary := by
    rcases h.kind with hk | hk <;> rw [hk] <;> decide
  obtain ⟨hptr, htop, hitop', hotop, hoff', hsize, hmode, hio, hn, hchan, -, hiop⟩ :=
    fmkbfs_fields f (.inr hb)
  rw [if_neg hb] at hiop
  have hframe := Frame.fmkbfs f
  have hnone := h.noBuffer hno
  exact
    { kind := by rw [hframe.ftype]; exact h.kind
      read := by rw [hframe.ffRead, h.read]
      fnchars := by rw [hn]; exact h.fnchars
      bufAt := by rw [hframe.bufAt]; exact h.bufAt
      low := by rw [hptr, hiop]
      noBuffer := fun _ => by rw [hitop', hiop]
      rest_eq := by
        have hzero : ((Fio.fmkbfs f).itop - (Fio.fmkbfs f).iop).toNat = 0 := by omega
        have hzero' : (f.itop - f.iop).toNat = 0 := by omega
        rw [hzero, h.rest_eq, hzero', fetch_zero, fetch_zero] }

theorem Stream.bufAt (h : Stream f rest) : f.bufAt ≠ 0 := by
  cases h with
  | random content p h hrest => exact h.idle.bufAt
  | sequential h => exact h.bufAt
  | inMemory h => exact h.bufAt

/-- Making the buffer changes neither the stream nor the place of the buffer. -/
theorem Stream.fmkbfs (h : Stream f rest) (hno : f.bufptr = 0) :
    Stream (fmkbfs f) rest ∧ SameExtent f (fmkbfs f) ∧
      (fmkbfs f).bufptr ≤ (fmkbfs f).iop ∧ (fmkbfs f).bufptr ≠ 0 ∧
      (fmkbfs f).memc = f.memc := by
  have hpos : 0 < promoted f ∨ f.ftype ≠ .binary := by
    cases h with
    | random content p h hrest => exact .inl ((h.unplaced hno).noBuffer hno).2.1
    | sequential h => exact .inl (h.noBuffer hno).2.2
    | inMemory h =>
        refine .inr ?_
        rcases h.kind with hk | hk <;> rw [hk] <;> decide
  have hbuf := h.bufAt
  obtain ⟨hptr, htop, hitop', hotop, hoff', hsize, hmode, hio, hn, hchan, hmem, hiop⟩ :=
    fmkbfs_fields f hpos
  refine ⟨?_, ⟨?_, ?_⟩, ?_, by rw [hptr]; exact hbuf, hmem⟩
  · cases h with
    | random content p h hrest =>
        obtain ⟨hi, hu, hs, -, hnote, -, -⟩ :=
          fmkbfs_spec h.idle (h.unplaced hno) hno
        exact .random content p ⟨hi, hnote.trans h.lnote, h.pos_le, .inl hu⟩ hrest
    | sequential h => exact .sequential (h.fmkbfs hno)
    | inMemory h => exact .inMemory (h.fmkbfs hno)
  · rw [bufLow, bufLow, hptr, if_neg hbuf, if_pos hno]
  · rw [bufHigh, bufHigh, hptr, if_neg hbuf, if_pos hno, hsize, hitop']
    omega
  · have hlnote : f.ftype = .binary → 0 ≤ f.lnote := by
      intro hb
      cases h with
      | random content p h hrest =>
          rw [h.lnote]
          omega
      | sequential h =>
          have := (h.noBuffer hno).2.1
          have := h.low
          unfold Fd.lnote
          omega
      | inMemory h => rcases h.kind with hk | hk <;> rw [hk] at hb <;> cases hb
    rw [hptr, hiop]
    split
    next hb =>
      have := hlnote hb
      omega
    next => exact le_rfl

/-! ## The buffer is filled -/

/-- The state after the buffer was filled, with what is left of the stream. -/
structure Filled (f g : Fd) (rest : List Int) : Prop where
  stream : Stream g rest
  frame : Frame f g
  extent : SameExtent f g
  low : g.bufptr ≤ g.iop
  atEnd : g.itop - g.iop ≤ 0 → rest = []

theorem Sequential.rest_of_top (h : Sequential f rest) (htop : f.itop ≤ f.iop) :
    rest = f.chan := by
  have hzero : (f.itop - f.iop).toNat = 0 := by omega
  rw [h.rest_eq, hzero, fetch_zero, List.nil_append]

theorem Sequential.filled {e : Fd} {n : Nat} (h : Sequential f rest)
    (hptr : f.bufptr ≠ 0) (htop : f.itop ≤ f.iop) (hn : (n : Int) ≤ f.fbufsize)
    (hlen : n ≤ f.chan.length) (hzero : n = 0 → f.chan = [])
    (hframe : Frame f e) (hiop : e.iop = f.bufptr) (hitop : e.itop = f.bufptr + n)
    (hotop : e.otop = f.bufptr) (hbufptr : e.bufptr = f.bufptr)
    (hbuftop : e.buftop = f.buftop) (hsize : e.fbufsize = f.fbufsize)
    (hmode : e.fbufmode = .inactive) (hio : e.ffiomode = .inactive)
    (hnc : 0 ≤ e.fnchars) (hchan : e.chan = f.chan.drop n)
    (hmem : e.memc = put f.memc f.bufptr (f.chan.take n)) : Filled f e rest := by
  obtain ⟨hbt, -, -, hpos⟩ := h.buffer hptr
  have htake : (f.chan.take n).length = n := by
    rw [List.length_take]
    omega
  have hrest := h.rest_of_top htop
  refine ⟨.sequential ?_, hframe, ⟨?_, ?_⟩, by omega, fun hle => ?_⟩
  · exact
      { kind := by rw [hframe.ftype, hframe.fblksize]; exact h.kind
        read := by rw [hframe.ffRead, h.read]
        fbufmode := hmode
        ffiomode := hio
        fnchars := hnc
        bufAt := by rw [hframe.bufAt]; exact h.bufAt
        low := by omega
        textLine := fun _ => by omega
        noBuffer := fun hno => absurd (hbufptr.symm.trans hno) hptr
        buffer := fun _ => ⟨by omega, by omega, by omega, by omega⟩
        rest_eq := by
          have hcount : (e.itop - e.iop).toNat = n := by omega
          have hfetch : fetch e.memc e.iop n = f.chan.take n := by
            rw [hmem, hiop, fetch_put_of_le htake.ge, List.take_take, Nat.min_self]
          rw [hcount, hfetch, hchan, List.take_append_drop, hrest] }
  · rw [bufLow, bufLow, hbufptr, if_neg hptr, if_neg hptr]
  · have hle := (h.buffer hptr).2.2.1
    rw [bufHigh, bufHigh, hbufptr, if_neg hptr, if_neg hptr, hsize]
    omega
  · rw [hrest]
    exact hzero (by omega)

variable (host : Host)

theorem fillFromDevice_text (h : Sequential f rest) (htext : f.ftype = .text)
    (hptr : f.bufptr ≠ 0) (htop : f.itop ≤ f.iop) :
    ∃ g, fillFromDevice host f =
        .ok (if g.itop - g.iop ≤ 0 then EOF else g.itop - g.iop, g) ∧
      Filled f g rest := by
  obtain ⟨-, -, -, hpos⟩ := h.buffer hptr
  generalize hmax : (if f.ffRaw then (1 : Int) else f.fbufsize) = maxch
  have hmaxpos : 0 < maxch ∧ maxch ≤ f.fbufsize := by
    rw [← hmax]
    split <;> omega
  have hle := host.give_le f.chan maxch
  have hlemax := host.give_le_maxch f.chan maxch
  have hgive := host.give_pos f.chan maxch
  generalize hn : host.give f.chan maxch = n at *
  refine ⟨{ f with
    memc := put f.memc f.bufptr (f.chan.take n)
    chan := f.chan.drop n
    iop := f.bufptr
    itop := max f.bufptr (f.bufptr + n)
    otop := f.bufptr }, ?_, ?_⟩
  · have herr : (n : Int) ≠ ERR := by simp only [ERR]; omega
    simp only [fillFromDevice, h.read, Bool.not_true, Bool.false_eq_true, if_false,
      hptr, htext, if_true, hmax, hn, bind, Except.bind, herr]
    have hval : (if (n : Int) = 0 then EOF else (n : Int)) =
        if max f.bufptr (f.bufptr + n) - f.bufptr ≤ 0 then EOF
        else max f.bufptr (f.bufptr + n) - f.bufptr := by
      split <;> split <;> omega
    rw [hval]
  · refine h.filled hptr htop (by omega) hle (fun hzero => ?_) ⟨rfl, rfl, rfl, rfl,
      rfl, rfl, rfl, rfl, rfl, rfl, rfl, rfl, rfl, rfl, rfl, rfl⟩ rfl ?_ rfl rfl rfl
      rfl h.fbufmode h.ffiomode h.fnchars rfl rfl
    · by_contra hne
      exact absurd (hgive hne hmaxpos.1) (by omega)
    · show max f.bufptr (f.bufptr + n) = f.bufptr + n
      omega

/-- After a streaming device delivered `n` chars. -/
def Fd.streamed (f : Fd) (n : Nat) : Fd :=
  { f with
    memc := put f.memc f.bufptr (f.chan.take n)
    chan := f.chan.drop n
    pending := n
    fnbytes := n
    filstat := n
    ffiomode := .inactive
    fbufmode := .inactive
    boffset := f.lnote
    iop := f.bufptr
    itop := f.bufptr + n
    otop := f.bufptr }

theorem ffault_stream (h : Sequential f rest) (hblk : f.fblksize = 0)
    (hptr : f.bufptr ≠ 0) {n : Nat} (hn : host.give f.chan f.fbufsize = n) :
    ffault host f f.lnote 0 .read =
      .ok (if (n : Int) ≤ 0 then EOF else n, f.streamed n) := by
  obtain ⟨hbt, hotop, -, hpos⟩ := h.buffer hptr
  have hstream : f.stream = true := by simp [Fd.stream, hblk]
  have hne : ¬(f.bufptr ≠ 0 ∧ f.otop = f.buftop) := by omega
  have hne' : ¬(f.bufptr ≠ 0 ∧ f.bufptr = f.buftop) := by omega
  have hblk' : ¬f.fblksize > 0 := by omega
  have hup : f.updateIop = f := by rw [Fd.updateIop, if_neg hne]
  have hoff : bufferOffset f f.lnote = .ok f.lnote := by
    rw [bufferOffset, hstream]
    rfl
  have hflush : flushModified f = .ok f := by
    have hmod : f.bufModified = false := by
      rw [Fd.bufModified, decide_eq_false_iff_not]
      omega
    rw [flushModified, hmod]
    rfl
  have hread : aread host f f.bufptr f.fbufsize f.lnote = .ok { f with
      memc := put f.memc f.bufptr (f.chan.take n)
      chan := f.chan.drop n
      pending := n
      ffiomode := .readInProgress } := by
    simp only [aread, h.ffiomode, ne_eq, not_true_eq_false, if_false, hstream,
      Bool.not_true, Bool.false_and, Bool.false_eq_true, hblk', false_and, zardbf,
      if_true, hn]
  have hload : loadBuffer host f f.lnote f.lnote 0 .read =
      .ok { f.streamed n with boffset := f.boffset, iop := f.iop } := by
    have hflag : decide (RwFlag.read = .write) = false := rfl
    simp only [loadBuffer, hflag, Bool.false_and, Bool.false_eq_true, if_false,
      h.read, Bool.not_true, ffilbf, fwatio_inactive h.fbufmode, bind, Except.bind,
      hstream, hread]
    rw [fwatio_read rfl rfl rfl]
    simp only [Fd.streamed, h.read]
  have hseek : Fd.lseek { f.streamed n with boffset := f.lnote, iop := f.iop }
      f.lnote = f.streamed n := by
    have hzero : f.lnote - f.lnote + f.bufptr = f.bufptr := by omega
    refine (Fd.lseek_eq hne' _).trans ?_
    show { f.streamed n with iop := f.lnote - f.lnote + f.bufptr } = _
    rw [hzero]
    rfl
  have hdiff : (f.streamed n).itop - (f.streamed n).iop = n := by
    show f.bufptr + (n : Int) - f.bufptr = n
    omega
  simp only [ffault, hoff, hup, hflush, hload, bind, Except.bind]
  rw [hseek, hdiff]

theorem fillFromDevice_stream (h : Sequential f rest) (hb : f.ftype = .binary)
    (hblk : f.fblksize = 0) (hptr : f.bufptr ≠ 0) (htop : f.itop ≤ f.iop) :
    ∃ g, fillFromDevice host f =
        .ok (if g.itop - g.iop ≤ 0 then EOF else g.itop - g.iop, g) ∧
      Filled f g rest := by
  obtain ⟨-, -, -, hpos⟩ := h.buffer hptr
  have hle := host.give_le f.chan f.fbufsize
  have hlemax := host.give_le_maxch f.chan f.fbufsize
  have hgive := host.give_pos f.chan f.fbufsize
  generalize hn : host.give f.chan f.fbufsize = n at *
  have hfault := ffault_stream host h hblk hptr hn
  have hdiff : (f.streamed n).itop - (f.streamed n).iop = n := by
    show f.bufptr + (n : Int) - f.bufptr = n
    omega
  refine ⟨f.streamed n, ?_, ?_⟩
  · have hchars : ¬f.fnchars < 0 := by
      have := h.fnchars
      omega
    simp only [fillFromDevice, h.read, Bool.not_true, Bool.false_eq_true, if_false,
      hptr, hb, reduceCtorEq, hchars, hfault, bind, Except.bind, hdiff]
    by_cases hzero : n = 0
    · simp [hzero]
    · have hnz : ¬(n : Int) ≤ 0 := by omega
      have hnz' : (n : Int) ≠ 0 := by omega
      have herr : (n : Int) ≠ ERR := by simp only [ERR]; omega
      simp only [hnz, if_false, herr, hnz']
  · refine h.filled hptr htop (by omega) hle (fun hzero => ?_) ⟨rfl, rfl, rfl, rfl,
      rfl, rfl, rfl, rfl, rfl, rfl, rfl, rfl, rfl, rfl, rfl, rfl⟩ rfl rfl rfl rfl
      rfl rfl rfl rfl h.fnchars rfl rfl
    by_contra hne
    exact absurd (hgive hne hpos) (by omega)

theorem Represents.itop_le (h : Represents f content p) (hptr : f.bufptr ≠ 0) :
    f.itop ≤ f.bufptr + f.fbufsize := by
  rcases h.buffer with hu | ⟨o, t, hb, -⟩
  · have hpos := (hu.sized hptr).pos
    have := hu.itop
    omega
  · have hfits := hb.fits
    have htop := hb.sized.buftop
    cases hb.top with
    | clean hotop hitop => omega
    | settled hotop hitop => omega
    | writing hotop hle hitop => omega

theorem Stream.fill_buffer (h : Stream f rest) (hread : f.ffRead = true)
    (hptr : f.bufptr ≠ 0) (htop : f.atTop) :
    ∃ g, fillFromDevice host f =
        .ok (if g.itop - g.iop ≤ 0 then EOF else g.itop - g.iop, g) ∧
      Filled f g rest := by
  rw [atTop_iff] at htop
  cases h with
  | random content p h hrest =>
      obtain ⟨g, hok, hr⟩ := fillFromDevice_spec host h
      obtain ⟨hptr', hsize, -⟩ := hr.kept hptr
      have hle := h.itop_le hptr
      have hle' := hr.represents.itop_le (by rw [hptr']; exact hptr)
      refine ⟨g, hok, .random content p hr.represents hrest, hr.frame, ⟨?_, ?_⟩,
        hr.inBuffer, fun hend => ?_⟩
      · rw [bufLow, bufLow, hptr', if_neg hptr, if_neg hptr]
      · rw [bufHigh, bufHigh, hptr', if_neg hptr, if_neg hptr, hsize]
        omega
      · rw [hrest, hr.atEnd hend, List.drop_length]
  | sequential h =>
      have hle : f.itop ≤ f.iop := by
        have := h.low
        omega
      rcases h.kind with htext | ⟨hb, hblk⟩
      · exact fillFromDevice_text host h htext hptr hle
      · exact fillFromDevice_stream host h hb hblk hptr hle
  | inMemory h =>
      rw [h.read] at hread
      cases hread

theorem Stream.fill (h : Stream f rest) (htop : f.atTop) :
    ∃ g, fillFromDevice host f =
        .ok (if g.itop - g.iop ≤ 0 then EOF else g.itop - g.iop, g) ∧
      Filled f g rest := by
  by_cases hread : f.ffRead = true
  · by_cases hno : f.bufptr = 0
    · obtain ⟨hstream, hext, hlow, hne, -⟩ := h.fmkbfs hno
      have hframe := Frame.fmkbfs f
      have hread' : (Fio.fmkbfs f).ffRead = true := by rw [hframe.ffRead, hread]
      have htop' : (Fio.fmkbfs f).atTop := by
        rw [atTop_iff]
        right
        have hpos : 0 < promoted f ∨ f.ftype ≠ .binary := by
          cases h with
          | random content p h hrest =>
              exact .inl ((h.unplaced hno).noBuffer hno).2.1
          | sequential h => exact .inl (h.noBuffer hno).2.2
          | inMemory h =>
              rw [h.read] at hread
              cases hread
        obtain ⟨hptr, -, hitop, -⟩ := fmkbfs_fields f hpos
        omega
      obtain ⟨g, hok, hfill⟩ := hstream.fill_buffer host hread' hne htop'
      refine ⟨g, ?_, hfill.stream, hframe.trans hfill.frame,
        hext.trans hfill.extent, hfill.low, hfill.atEnd⟩
      rw [fillFromDevice_noBuffer host hread hno hread' hne, hok]
    · exact h.fill_buffer host hread hno htop
  · cases h with
    | random content p h hrest => exact absurd h.idle.read hread
    | sequential h => exact absurd h.read hread
    | inMemory h =>
        rw [atTop_iff] at htop
        have hdiff : f.itop - f.iop ≤ 0 := by
          have := h.low
          omega
        refine ⟨f, ?_, .inMemory h, .refl f, .refl f, h.low, fun _ => ?_⟩
        · simp only [fillFromDevice, h.read, Bool.not_false, if_true, h.kind, hdiff]
        · have hzero : (f.itop - f.iop).toNat = 0 := by omega
          rw [h.rest_eq, hzero, fetch_zero]

/-! ## Chars are taken -/

theorem SameExtent.iop (f : Fd) (x : Int) : SameExtent f { f with iop := x } :=
  ⟨rfl, rfl⟩

theorem Stream.consume (h : Stream f rest) {k : Nat} (hk : 0 < k)
    (hin : f.bufptr ≤ f.iop) (hle : (k : Int) ≤ f.itop - f.iop) :
    fetch f.memc f.iop k = rest.take k ∧ k ≤ rest.length ∧
      Stream { f with iop := f.iop + k } (rest.drop k) := by
  have hcount : k ≤ (f.itop - f.iop).toNat := by omega
  have hleft : ((f.itop - (f.iop + k)).toNat) = (f.itop - f.iop).toNat - k := by omega
  cases h with
  | random content p h hrest =>
      obtain ⟨hfetch, hlen, hnext, -⟩ := h.consume hk hin hle
      refine ⟨by rw [hrest, hfetch], ?_, .random content (p + k) hnext ?_⟩
      · rw [hrest, List.length_drop]
        omega
      · rw [hrest, List.drop_drop]
  | sequential h =>
      have hlen : k ≤ (fetch f.memc f.iop (f.itop - f.iop).toNat).length := by
        rw [length_fetch]
        exact hcount
      refine ⟨?_, ?_, .sequential ?_⟩
      · rw [h.rest_eq, List.take_append_of_le_length hlen, take_fetch hcount]
      · rw [h.rest_eq, List.length_append]
        omega
      · exact
          { kind := h.kind
            read := h.read
            fbufmode := h.fbufmode
            ffiomode := h.ffiomode
            fnchars := h.fnchars
            bufAt := h.bufAt
            low := by
              show f.bufptr ≤ f.iop + k
              omega
            textLine := fun _ => by
              show f.iop + k ≤ f.itop
              omega
            noBuffer := h.noBuffer
            buffer := h.buffer
            rest_eq := by
              rw [h.rest_eq, List.drop_append_of_le_length hlen, drop_fetch hcount,
                hleft] }
  | inMemory h =>
      refine ⟨?_, ?_, .inMemory ?_⟩
      · rw [h.rest_eq, take_fetch hcount]
      · rw [h.rest_eq, length_fetch]
        exact hcount
      · exact
          { kind := h.kind
            read := h.read
            fnchars := h.fnchars
            bufAt := h.bufAt
            low := by
              show f.bufptr ≤ f.iop + k
              omega
            noBuffer := fun hno => by
              have := h.noBuffer hno
              show f.itop ≤ f.iop + k
              omega
            rest_eq := by rw [h.rest_eq, drop_fetch hcount, hleft] }

end Iraf.Fio
