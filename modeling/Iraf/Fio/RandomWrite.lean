import Iraf.Fio.RandomOps

/-!
# Writing

What a write puts into the buffer, the loop of `write`, and the procedures that
move or write out the buffer.
-/

namespace Iraf.Fio

open Cells

variable (host : Host) {f : Fd} {content : List Int} {o t p : Nat}

/-- There is room for chars at the position: the buffer holds all of the file
that it can, or all of it is about to be written over. -/
structure Writable (f : Fd) (content : List Int) (p o t : Nat) (nreserve : Int) :
    Prop where
  buffered : Buffered f content o t
  idle : Idle f
  lnote : f.lnote = p + 1
  pos_le : p ≤ content.length
  low : o ≤ p
  high : p ≤ o + t
  room : f.iop < f.otop
  full : Full f content o t ∨
    p = o ∧ t = 0 ∧ f.otop = f.buftop ∧ nreserve ≥ f.fbufsize

theorem Frame.otop (f : Fd) (x : Int) : Frame f { f with otop := x } :=
  ⟨rfl, rfl, rfl, rfl, rfl, rfl, rfl, rfl, rfl, rfl, rfl, rfl, rfl, rfl, rfl, rfl⟩

theorem Buffered.writable (h : Buffered f content o t) (hi : Idle f)
    (hn : f.lnote = p + 1) (hp : p ≤ content.length) (hlow : o ≤ p)
    (hhigh : p ≤ o + t) (hlt : (p : Int) < o + f.fbufsize)
    (hitop : f.itop = f.bufptr + t) {nreserve : Int}
    (hfull : Full f content o t ∨ p = o ∧ t = 0 ∧ nreserve ≥ f.fbufsize) :
    Writable { f with otop := f.buftop } content p o t nreserve := by
  have hs := h.sized
  have htop := hs.buftop
  have hiop := h.iop_eq hn
  have hfits := h.fits
  have hb : Buffered { f with otop := f.buftop } content o t := by
    refine h.congr ⟨hs.bufptr, hs.buftop, hs.pos, hs.blocks⟩ rfl rfl rfl rfl rfl rfl
      rfl ?_ fun hbad => ?_
    · refine .writing rfl ?_ ?_
      · show f.itop ≤ f.buftop
        omega
      · show min f.buftop (max f.itop f.iop) = f.bufptr + t
        omega
    · have hpos := hs.pos
      have hbad' : f.buftop = f.bufptr := hbad
      omega
  exact
    { buffered := hb
      idle := hi.frame (.otop f _) hi.fbufmode hi.ffiomode hi.fnchars
      lnote := hn
      pos_le := hp
      low := hlow
      high := hhigh
      room := by
        show f.iop < f.buftop
        omega
      full := hfull.imp id fun ⟨h1, h2, h3⟩ => ⟨h1, h2, rfl, h3⟩ }

theorem ffault_writable (hi : Idle f) (h : Placeable f content)
    (hn : f.lnote = p + 1) (hp : p ≤ content.length) (nreserve : Int) :
    ∃ g o t status, ffault host f f.lnote nreserve .write = .ok (status, g) ∧
      status ≠ ERR ∧ Frame f g ∧
      Writable { g with otop := g.buftop } content p o t nreserve := by
  obtain ⟨g, t, hok, hloaded, hiop, hfull⟩ :=
    ffault_spec host hi h hp nreserve .write
  have hs := h.sized
  have hlow := bufferOrigin_le f.fbufsize p
  have hlt := lt_bufferOrigin_add hs.pos p
  have hsize := hloaded.fbufsize
  have hb := hloaded.buffered
  have hgs := hb.size
  refine ⟨g, bufferOrigin f.fbufsize p, t, _, by rw [hn]; exact hok, ?_,
    hloaded.frame, ?_⟩
  · simp only [ERR, EOF]
    split <;> omega
  · refine hb.writable hloaded.idle ?_ hp hlow ?_ (by omega) hloaded.itop ?_
    · have := hb.boffset
      unfold Fd.lnote
      omega
    · rcases hfull with hfull | ⟨-, heq, ht, -⟩
      · unfold Full at hfull
        omega
      · omega
    · rcases hfull with hfull | ⟨-, heq, ht, hres⟩
      · exact .inl hfull
      · exact .inr ⟨heq, ht, by omega⟩

theorem flsbuf_spec (h : Represents f content p) (hpl : Placed f content)
    (hw : f.ffWrite = true) (nreserve : Int) :
    ∃ g o t, flsbuf host f nreserve = .ok g ∧ Frame f g ∧
      Writable g content p o t nreserve := by
  have hi := h.idle
  by_cases hno : f.bufptr = 0
  · obtain ⟨hi', hu, hs, hframe, hnote, -, -⟩ :=
      fmkbfs_spec hi (h.unplaced hno) hno
    have hitop : { fmkbfs f with itop := (fmkbfs f).bufptr } = fmkbfs f := by
      rw [← hu.itop]
    obtain ⟨g, o, t, status, hok, herr, hframe', hwr⟩ := ffault_writable
      host hi' (.inl ⟨hu, hs⟩) (hnote.trans h.lnote) h.pos_le nreserve
    refine ⟨_, o, t, ?_, hframe.trans (hframe'.trans (.otop g _)), hwr⟩
    simp only [flsbuf, hw, hno, Bool.not_true, Bool.false_eq_true, if_false, if_true,
      hitop, hok, herr, bind, Except.bind]
  · obtain ⟨o, t, hb, hfull⟩ := hpl hno
    have hs := hb.sized
    have htop := hs.buftop
    have hiop := hb.iop_eq h.lnote
    have hfits := hb.fits
    have hsize := hb.size
    have hp := h.pos_le
    by_cases hin : f.iop ≥ f.bufptr ∧ f.iop < f.buftop ∧ f.otop < f.buftop
    · have hitop : f.itop = f.bufptr + t := by
        cases hb.top with
        | clean hotop hitop => exact hitop
        | settled hotop hitop => exact hitop
        | writing hotop hle hitop => omega
      unfold Full at hfull
      refine ⟨_, o, t, ?_, .otop f _, hb.writable hi h.lnote hp (by omega) (by omega)
        (by omega) hitop (.inl hfull)⟩
      have herr : (0 : Int) ≠ ERR := by decide
      simp only [flsbuf, hw, hno, Bool.not_true, Bool.false_eq_true, if_false, hin,
        and_self, decide_true, Bool.and_true, if_true, bind, Except.bind, herr]
    · obtain ⟨g, o', t', status, hok, herr, hframe', hwr⟩ := ffault_writable
        host hi (.inr ⟨o, t, hb⟩) h.lnote hp nreserve
      refine ⟨_, o', t', ?_, hframe'.trans (.otop g _), hwr⟩
      have hnot : (decide (f.iop ≥ f.bufptr ∧ f.iop < f.buftop) &&
          decide (f.otop < f.buftop)) = false := by
        rw [Bool.and_eq_false_iff, decide_eq_false_iff_not, decide_eq_false_iff_not]
        omega
      simp only [flsbuf, hw, hno, Bool.not_true, Bool.false_eq_true, if_false, hnot,
        hok, herr, bind, Except.bind]

theorem Writable.store {nreserve : Int} (h : Writable f content p o t nreserve)
    {xs : List Int} (hne : 0 < xs.length)
    (hroom : (xs.length : Int) ≤ f.otop - f.iop)
    (hall : f.otop = f.buftop → (xs.length : Int) = min nreserve (f.otop - f.iop)) :
    let g := { f with memc := put f.memc f.iop xs, iop := f.iop + xs.length }
    Represents g (overlay content p xs) (p + xs.length) ∧
      Placed g (overlay content p xs) ∧ Frame f g := by
  intro g
  have hb := h.buffered
  have hs := hb.sized
  have htop := hs.buftop
  have hpos := hs.pos
  have hiop := hb.iop_eq h.lnote
  have hlow := h.low
  have hhigh := h.high
  have hfits := hb.fits
  have hsize := hb.size
  have hp := h.pos_le
  have hlen : (overlay content p xs).length = _ := length_overlay hp
  have hnoted := hb.sizeNoted
  have hotop : f.otop = f.buftop ∨ f.otop = f.itop ∧ f.itop = f.bufptr + t := by
    cases hb.top with
    | clean hotop hitop => omega
    | settled hotop hitop => exact .inr ⟨hotop, hitop⟩
    | writing hotop hle hitop => exact .inl hotop
  have hbuf : Buffered g (overlay content p xs) o (max t (p - o + xs.length)) := by
    refine
      { sized := ⟨hs.bufptr, hs.buftop, hs.pos, hs.blocks⟩
        boffset := hb.boffset
        aligned := hb.aligned
        origin := hb.origin
        top := ?_
        fits := ?_
        size := ?_
        window := ?_
        outside := ?_
        sizeNoted := ?_
        clean := ?_ }
    · cases hb.top with
      | clean hotop' hitop => omega
      | settled hotop' hitop =>
          refine .settled hotop' ?_
          show f.itop = f.bufptr + _
          omega
      | writing hotop' hle hitop =>
          refine .writing hotop' hle ?_
          show min f.buftop (max f.itop (f.iop + xs.length)) = f.bufptr + _
          omega
    · show _ ≤ f.fbufsize
      omega
    · rw [hlen]
      show _ = max f.chan.length _
      omega
    · intro j hj
      show _ = some (put f.memc f.iop xs (f.bufptr + (j : Nat)))
      by_cases hx : p ≤ o + j ∧ o + j < p + xs.length
      · have hk : o + j - p < xs.length := by omega
        rw [getElem?_overlay_of_mem hp hx.1 hx.2,
          put_of_mem (o + j - p) hk (by omega), List.getElem?_eq_getElem hk]
      · rw [getElem?_overlay_of_not_mem hp (by omega), hb.window j (by omega),
          put_of_not_mem (by omega)]
    · intro i hi
      rw [getElem?_overlay_of_not_mem hp (by omega)]
      exact hb.outside i (by omega)
    · rw [hlen]
      show (f.chan.length : Int) ≤ f.filsize ∧ f.filsize ≤ _
      omega
    · intro hbad
      have hbad' : f.otop = f.bufptr := hbad
      omega
  have hfull : Full g (overlay content p xs) o (max t (p - o + xs.length)) := by
    have hgoal : Full g (overlay content p xs) o (max t (p - o + xs.length)) ↔
        ((max t (p - o + xs.length) : Nat) : Int) =
          min f.fbufsize ((max content.length (p + xs.length) : Nat) - o) := by
      rw [← hlen]
      rfl
    rw [hgoal]
    rcases h.full with hfull | ⟨heq, ht, hotop', hres⟩
    · unfold Full at hfull
      omega
    · have hx := hall hotop'
      omega
  refine ⟨⟨?_, ?_, by omega, .inr ⟨o, _, hbuf, hfull⟩⟩, fun _ => ⟨o, _, hbuf, hfull⟩,
    ⟨rfl, rfl, rfl, rfl, rfl, rfl, rfl, rfl, rfl, rfl, rfl, rfl, rfl, rfl, rfl,
      rfl⟩⟩
  · have hi := h.idle
    exact ⟨hi.binary, hi.read, hi.blksize, hi.firstbufoff, hi.fbufmode, hi.ffiomode,
      hi.fnchars, hi.bufAt⟩
  · have hn := h.lnote
    unfold Fd.lnote at hn ⊢
    show f.boffset + (f.iop + xs.length) - f.bufptr = ((p + xs.length : Nat) : Int) + 1
    omega

theorem Represents.writable (h : Represents f content p) (nreserve : Int)
    (hin : ¬(f.iop < f.bufptr ∨ f.otop ≤ f.iop)) :
    ∃ o t, Writable f content p o t nreserve := by
  rcases h.buffer with hu | ⟨o, t, hb, hfull⟩
  · have := hu.otop
    omega
  · have hs := hb.sized
    have htop := hs.buftop
    have hiop := hb.iop_eq h.lnote
    have hp := h.pos_le
    have hsize := hb.size
    have hfits := hb.fits
    have hhigh : p ≤ o + t := by
      cases hb.top with
      | clean hotop hitop => omega
      | settled hotop hitop => omega
      | writing hotop hle hitop => omega
    exact ⟨o, t, hb, h.idle, h.lnote, hp, by omega, hhigh, by omega, .inl hfull⟩

theorem makeRoom_spec (h : Represents f content p) (hpl : Placed f content)
    (hw : f.ffWrite = true) (nreserve : Int) :
    ∃ g o t, makeRoom host f nreserve = .ok g ∧ Frame f g ∧
      Writable g content p o t nreserve := by
  by_cases hout : f.iop < f.bufptr ∨ f.iop ≥ f.otop
  · rw [makeRoom, if_pos hout]
    exact flsbuf_spec host h hpl hw _
  · rw [makeRoom, if_neg hout]
    obtain ⟨o, t, hwr⟩ := h.writable nreserve hout
    exact ⟨f, o, t, rfl, .refl f, hwr⟩

theorem writeLoop_spec (fuel : Nat) (buffer : List Int)
    (h : Represents f content p) (hpl : Placed f content) (hw : f.ffWrite = true)
    (hfuel : buffer.length ≤ fuel) :
    ∃ g, writeLoop host fuel f buffer = .ok ([], g) ∧
      Represents g (overlay content p buffer) (p + buffer.length) ∧
      Placed g (overlay content p buffer) ∧ Frame f g := by
  induction fuel generalizing f content p buffer with
  | zero =>
      obtain rfl : buffer = [] := List.length_eq_zero_iff.1 (by omega)
      rw [overlay_nil]
      exact ⟨f, rfl, h, hpl, .refl f⟩
  | succ fuel ih =>
      by_cases hnil : buffer = []
      · subst hnil
        rw [overlay_nil]
        exact ⟨f, by simp [writeLoop], h, hpl, .refl f⟩
      · have hlen : 0 < buffer.length := List.length_pos_iff.2 hnil
        obtain ⟨g, o, t, hok, hframe, hwr⟩ :=
          makeRoom_spec host h hpl hw buffer.length
        have hroom := hwr.room
        generalize hk : min (buffer.length : Int) (g.otop - g.iop) = k
        obtain ⟨n, rfl⟩ : ∃ n : Nat, k = n := ⟨k.toNat, by omega⟩
        have hn : (buffer.take n).length = n := by
          rw [List.length_take]
          omega
        have hnpos : ¬(n : Int) ≤ 0 := by omega
        have hle : ((buffer.take n).length : Int) ≤ g.otop - g.iop := by
          omega
        obtain ⟨hrep, hplaced, hframe'⟩ := hwr.store (by omega) hle
          fun _ => by omega
        rw [hn] at hrep hplaced hframe'
        obtain ⟨e, hrun, he, hpe, hframe''⟩ := ih (buffer.drop n) hrep hplaced
          (by rw [← hw, ← hframe.ffWrite])
          (by rw [List.length_drop]; omega)
        have happ : overlay (overlay content p (buffer.take n))
            (p + (buffer.take n).length) (buffer.drop n) = _ :=
          overlay_append hwr.pos_le
        rw [hn, List.take_append_drop] at happ
        rw [happ] at he hpe
        refine ⟨e, ?_, ?_, hpe, hframe.trans (hframe'.trans hframe'')⟩
        · rw [← hrun]
          simp only [writeLoop, hnil, if_false, hok, bind, Except.bind, hk, hnpos,
            Int.toNat_natCast]
        · have hadd : p + n + (buffer.drop n).length = p + buffer.length := by
            rw [List.length_drop]
            omega
          rw [← hadd]
          exact he

/-! ## Moving and flushing -/

theorem fcanpb_of_not_pushback (h : f.ffPushback = false) : fcanpb host f = f := by
  unfold fcanpb
  cases frameBound host f with
  | zero => rfl
  | succ n => simp [fcanpb.go, h]

theorem Buffered.moved (h : Buffered f content o t) (hitop : f.itop = f.bufptr + t)
    (hotop : f.otop = f.bufptr ∨ f.otop = f.bufptr + t) (x : Int) :
    Buffered { f with iop := x } content o t := by
  have hs := h.sized
  refine h.congr ⟨hs.bufptr, hs.buftop, hs.pos, hs.blocks⟩ rfl rfl rfl rfl rfl rfl
    rfl ?_ h.clean
  rcases hotop with hotop | hotop
  · exact .clean hotop hitop
  · exact .settled (hotop.trans hitop.symm) hitop

/-- The pointers are up to date. -/
structure Quiet (f : Fd) (content : List Int) : Prop where
  idle : Idle f
  buffer : f.bufptr = 0 ∧ Unplaced f content ∨
    ∃ o t, Buffered f content o t ∧ Full f content o t ∧ f.itop = f.bufptr + t ∧
      (f.otop = f.bufptr ∨ f.otop = f.bufptr + t)

theorem updateIop_of_noBuffer (h : f.bufptr = 0) : f.updateIop = f := by
  rw [Fd.updateIop, if_neg fun hand => hand.1 h]

theorem quiet_updateIop (hi : Idle f) (h : f.bufptr = 0 ∧ Unplaced f content ∨
    ∃ o t, Buffered f content o t ∧ Full f content o t) :
    Quiet f.updateIop content := by
  refine ⟨hi.updateIop, ?_⟩
  rcases h with ⟨hno, hu⟩ | ⟨o, t, hb, hfull⟩
  · rw [updateIop_of_noBuffer hno]
    exact .inl ⟨hno, hu⟩
  · obtain ⟨hup, hitop, hotop⟩ := hb.updateIop
    unfold Full at hfull
    refine .inr ⟨o, t, hup, ?_, ?_, ?_⟩
    · rw [Full, f.updateIop_fbufsize]
      exact hfull
    · rw [hitop, f.updateIop_bufptr]
    · rw [f.updateIop_bufptr]
      exact hotop

theorem Represents.quiet (h : Represents f content p) (hpl : Placed f content) :
    Quiet f.updateIop content := by
  refine quiet_updateIop h.idle ?_
  by_cases hno : f.bufptr = 0
  · exact .inl ⟨hno, h.unplaced hno⟩
  · exact .inr (hpl hno)

theorem Quiet.updateIop (h : Quiet f content) : Quiet f.updateIop content := by
  refine quiet_updateIop h.idle ?_
  rcases h.buffer with hno | ⟨o, t, hb, hfull, -⟩
  · exact .inl hno
  · exact .inr ⟨o, t, hb, hfull⟩

theorem Quiet.moved (h : Quiet f content) {q : Nat} (hq : q ≤ content.length)
    {x : Int} (hx : x = (q : Int) + 1 - f.boffset + f.bufptr) :
    Represents { f with iop := x } content q ∧ Placed { f with iop := x } content := by
  have hi := h.idle.frame (.iop f x) h.idle.fbufmode h.idle.ffiomode h.idle.fnchars
  have hn : Fd.lnote { f with iop := x } = q + 1 := by
    unfold Fd.lnote
    show f.boffset + x - f.bufptr = q + 1
    omega
  rcases h.buffer with ⟨hno, hu⟩ | ⟨o, t, hb, hfull, hitop, hotop⟩
  · have hu' : Unplaced { f with iop := x } content :=
      ⟨hu.chan, hu.filsize, hu.itop, hu.otop, fun hne => absurd hno hne,
        hu.noBuffer⟩
    exact ⟨⟨hi, hn, hq, .inl hu'⟩, fun hne => absurd hno hne⟩
  · have hmoved := hb.moved hitop hotop x
    exact ⟨⟨hi, hn, hq, .inr ⟨o, t, hmoved, hfull⟩⟩, fun _ => ⟨o, t, hmoved, hfull⟩⟩

theorem Frame.filsize (f : Fd) (x : Int) : Frame f { f with filsize := x } :=
  ⟨rfl, rfl, rfl, rfl, rfl, rfl, rfl, rfl, rfl, rfl, rfl, rfl, rfl, rfl, rfl, rfl⟩

theorem Quiet.ffilsz (h : Quiet f content) :
    (ffilsz f).1 = content.length ∧ Quiet (ffilsz f).2 content ∧
      Frame f (ffilsz f).2 := by
  have hq := h.updateIop
  have hframe : Frame f (Fio.ffilsz f).2 :=
    (Frame.updateIop f).trans (.filsize f.updateIop _)
  have hval : (Fio.ffilsz f).1 = content.length := by
    have hstep : (Fio.ffilsz f).1 = if f.updateIop.bufModified then
        max (if f.updateIop.filsize < 0 then (f.updateIop.chan.length : Int)
          else f.updateIop.filsize)
          (f.updateIop.boffset - 1 + (f.updateIop.itop - f.updateIop.bufptr))
        else if f.updateIop.filsize < 0 then (f.updateIop.chan.length : Int)
          else f.updateIop.filsize := rfl
    rw [hstep, Fd.bufModified]
    generalize f.updateIop = g at *
    rcases hq.buffer with ⟨hno, hu⟩ | ⟨o, t, hb, hfull, hitop, hotop⟩
    · have hfil := hu.filsize
      have hnot : ¬g.otop > g.bufptr := by
        rw [hu.otop]
        omega
      rw [if_neg (by simpa using hnot), if_neg (by omega), hfil]
    · have hnoted := hb.sizeNoted
      have hsize := hb.size
      have hoff := hb.boffset
      rw [if_neg (show ¬g.filsize < 0 by omega)]
      by_cases hmod : g.otop > g.bufptr
      · rw [if_pos (by simpa using hmod)]
        omega
      · have hclean := hb.clean (by omega)
        rw [if_neg (by simpa using hmod)]
        rw [← hclean] at hnoted
        omega
  refine ⟨hval, ⟨hq.idle.frame (.filsize _ _) hq.idle.fbufmode hq.idle.ffiomode
    hq.idle.fnchars, ?_⟩, hframe⟩
  have hrec : (Fio.ffilsz f).2 = { f.updateIop with filsize := content.length } := by
    rw [← hval]
    rfl
  rw [hrec]
  generalize f.updateIop = g at *
  rcases hq.buffer with ⟨hno, hu⟩ | ⟨o, t, hb, hfull, hitop, hotop⟩
  · exact .inl ⟨hno, hu.chan, rfl, hu.itop, hu.otop, fun hne => absurd hno hne,
      hu.noBuffer⟩
  · have hs := hb.sized
    have hsize := hb.size
    refine .inr ⟨o, t, ?_, hfull, hitop, hotop⟩
    exact
      { sized := ⟨hs.bufptr, hs.buftop, hs.pos, hs.blocks⟩
        boffset := hb.boffset
        aligned := hb.aligned
        origin := hb.origin
        top := by
          rcases hotop with hotop | hotop
          · exact .clean hotop hitop
          · exact .settled (hotop.trans hitop.symm) hitop
        fits := hb.fits
        size := hb.size
        window := hb.window
        outside := hb.outside
        sizeNoted := ⟨by
          show (g.chan.length : Int) ≤ content.length
          omega, le_rfl⟩
        clean := hb.clean }

theorem seek_spec (h : Represents f content p) (hpl : Placed f content)
    (hpb : f.ffPushback = false) {offset : Int} {q : Nat} (hq : q ≤ content.length)
    (htarget : offset = BOF ∧ q = 0 ∨ offset = EOF ∧ q = content.length ∨
      offset = q + 1) :
    Represents (seek host f offset) content q ∧ Placed (seek host f offset) content ∧
      Frame f (seek host f offset) := by
  have hquiet := h.quiet hpl
  have hframe := Frame.updateIop f
  unfold seek
  rw [fcanpb_of_not_pushback host hpb]
  generalize f.updateIop = g at *
  rcases htarget with ⟨rfl, rfl⟩ | ⟨rfl, rfl⟩ | rfl
  · obtain ⟨hrep, hplaced⟩ := hquiet.moved hq
      (x := (1 : Int) - g.boffset + g.bufptr) (by omega)
    exact ⟨hrep, hplaced, hframe.trans (.iop g _)⟩
  · obtain ⟨hval, hquiet', hframe'⟩ := hquiet.ffilsz
    obtain ⟨hrep, hplaced⟩ := hquiet'.moved hq rfl
    rw [← hval] at hrep hplaced
    exact ⟨hrep, hplaced, hframe.trans (hframe'.trans (.iop _ _))⟩
  · have hbof : (q : Int) + 1 ≠ BOF := by simp only [BOF]; omega
    have heof : (q : Int) + 1 ≠ EOF := by simp only [EOF]; omega
    obtain ⟨hrep, hplaced⟩ := hquiet.moved hq rfl
    simp only [hbof, heof, if_false]
    exact ⟨hrep, hplaced, hframe.trans (.iop g _)⟩

theorem flush_spec (h : Represents f content p) (hpl : Placed f content)
    (hpb : f.ffPushback = false) (hw : f.ffWrite = true) :
    ∃ g, flush host f = .ok g ∧ Represents g content p ∧ Placed g content ∧
      Frame f g ∧ g.chan = content ∧ g.filsize = content.length := by
  have hquiet := h.quiet hpl
  have hframe := Frame.updateIop f
  have hw' : f.updateIop.ffWrite = true := by rw [hframe.ffWrite, hw]
  have hn : f.updateIop.lnote = p + 1 := by
    rw [Fd.lnote, f.updateIop_boffset, f.updateIop_iop, f.updateIop_bufptr]
    exact h.lnote
  have hp := h.pos_le
  unfold flush
  rw [fcanpb_of_not_pushback host hpb]
  generalize f.updateIop = g at *
  have hi := hquiet.idle
  rcases hquiet.buffer with ⟨hno, hu⟩ | ⟨o, t, hb, hfull, hitop, hotop⟩
  · have hmod : g.bufModified = false := by
      rw [Fd.bufModified, decide_eq_false_iff_not, hu.otop]
      omega
    refine ⟨g, ?_, ⟨hi, hn, hp, .inl hu⟩, fun hne => absurd hno hne, hframe,
      hu.chan, hu.filsize⟩
    simp only [hmod, Bool.false_eq_true, if_false]
  · by_cases hmod : g.bufModified
    · have ht : 0 < t := by
        rw [Fd.bufModified, decide_eq_true_iff] at hmod
        omega
      have hlen : g.otop - g.bufptr = t := by
        rw [Fd.bufModified, decide_eq_true_iff] at hmod
        omega
      obtain ⟨hout, hchan⟩ := hb.wroteOut hitop
      have hwrite := hb.fflsbf_eq hi ht
      have hframe' := Frame.wroteOut g t
      have hstat : (g.wroteOut t).filstat ≠ ERR := by
        show (t : Int) ≠ ERR
        simp only [ERR]
        omega
      have hi' : Idle (g.wroteOut t) :=
        hi.frame hframe' hi.fbufmode hi.ffiomode hi.fnchars
      have hstream : (g.wroteOut t).stream = false := hi'.not_stream
      refine ⟨g.wroteOut t, ?_, ⟨hi', hn, hp, .inr ⟨o, t, hout, hfull⟩⟩,
        fun _ => ⟨o, t, hout, hfull⟩, hframe.trans hframe', hchan,
        hout.filsize_of_clean hchan⟩
      simp only [hmod, if_true, hw', Bool.not_true, Bool.false_eq_true, if_false,
        hlen]
      simp only [bind, Except.bind] at hwrite ⊢
      cases hfls : fflsbf g g.bufptr t g.boffset with
      | error e =>
          rw [hfls] at hwrite
          cases hwrite
      | ok e =>
          rw [hfls] at hwrite
          have hwrite' : fwatio e = .ok (g.wroteOut t) := hwrite
          simp only [hwrite', hstream, Bool.false_eq_true, if_false, hstat]
          rfl
    · have hclean := hb.clean (by
        rw [Fd.bufModified, decide_eq_true_iff] at hmod
        omega)
      refine ⟨g, ?_, ⟨hi, hn, hp, .inr ⟨o, t, hb, hfull⟩⟩,
        fun _ => ⟨o, t, hb, hfull⟩, hframe, hclean.symm,
        hb.filsize_of_clean hclean.symm⟩
      simp only [hmod, if_false, Bool.false_eq_true]

end Iraf.Fio
