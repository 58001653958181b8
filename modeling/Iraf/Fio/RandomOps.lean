import Iraf.Fio.FaultSpec

/-!
# Reading, writing and seeking

Each procedure takes a descriptor that stands for a file to one that stands for
the file after the operation.
-/

namespace Iraf.Fio

open Cells

variable (host : Host) {f : Fd} {content : List Int} {o t p : Nat}

/-! ## The buffer is made and filled -/

theorem fmkbfs_spec (hi : Idle f) (h : Unplaced f content) (hno : f.bufptr = 0) :
    Idle (fmkbfs f) ∧ Unplaced (fmkbfs f) content ∧ Sized (fmkbfs f) ∧
      Frame f (fmkbfs f) ∧ (fmkbfs f).lnote = f.lnote ∧
      (fmkbfs f).bufptr = f.bufAt ∧ (fmkbfs f).memc = f.memc := by
  obtain ⟨htop, hpos, hdvd⟩ := h.noBuffer hno
  have hne : ¬(f.bufAt ≠ 0 ∧ f.bufAt = f.bufAt + promoted f) := by omega
  have heq : fmkbfs f = { f with
      fbufsize := promoted f
      boffset := 0
      bufptr := f.bufAt
      buftop := f.bufAt + promoted f
      itop := f.bufAt
      otop := f.bufAt
      iop := f.lnote - 0 + f.bufAt } := by
    simp only [fmkbfs, hi.binary, if_true, Fd.lseek, Fd.updateIop, hne, if_false,
      Fd.lnote]
  have hs : Sized (fmkbfs f) := by
    rw [heq]
    exact ⟨hi.bufAt, rfl, hpos, hdvd⟩
  refine ⟨?_, ?_, hs, ?_, ?_, by rw [heq], by rw [heq]⟩
  · rw [heq]
    exact ⟨hi.binary, hi.read, hi.blksize, hi.firstbufoff, hi.fbufmode,
      hi.ffiomode, hi.fnchars, hi.bufAt⟩
  · rw [heq] at hs ⊢
    exact ⟨h.chan, h.filsize, rfl, rfl, fun _ => hs,
      fun hzero => absurd hzero hi.bufAt⟩
  · rw [heq]
    exact ⟨rfl, rfl, rfl, rfl, rfl, rfl, rfl, rfl, rfl, rfl, rfl, rfl, rfl, rfl,
      rfl, rfl⟩
  · rw [heq]
    simp only [Fd.lnote]
    omega

theorem Represents.placeable (h : Represents f content p) (hptr : f.bufptr ≠ 0) :
    Placeable f content := by
  rcases h.buffer with hu | ⟨o, t, hb, -⟩
  · exact .inl ⟨hu, hu.sized hptr⟩
  · exact .inr ⟨o, t, hb⟩

theorem Represents.unplaced (h : Represents f content p) (hno : f.bufptr = 0) :
    Unplaced f content := by
  rcases h.buffer with hu | ⟨o, t, hb, -⟩
  · exact hu
  · exact absurd hno hb.sized.bufptr

theorem Buffered.iop_eq (h : Buffered f content o t) (hn : f.lnote = p + 1) :
    f.iop = f.bufptr + (p - o) := by
  have hoff := h.boffset
  unfold Fd.lnote at hn
  omega

theorem Loaded.represents {g : Fd} (h : Loaded f g content o t)
    (hp : p ≤ content.length) (hiop : g.iop = g.bufptr + (p - o))
    (hfull : Full g content o t) : Represents g content p where
  idle := h.idle
  lnote := by
    have hoff := h.buffered.boffset
    unfold Fd.lnote
    omega
  pos_le := hp
  buffer := .inr ⟨o, t, h.buffered, hfull⟩

theorem fillFromDevice_placeable (hi : Idle f) (h : Placeable f content)
    (hn : f.lnote = p + 1) (hp : p ≤ content.length) :
    ∃ g t, fillFromDevice host f =
        .ok (if g.itop - g.iop ≤ 0 then EOF else g.itop - g.iop, g) ∧
      Loaded f g content (bufferOrigin f.fbufsize p) t ∧
      g.iop = g.bufptr + (p - bufferOrigin f.fbufsize p) ∧
      Full g content (bufferOrigin f.fbufsize p) t := by
  obtain ⟨g, t, hok, hloaded, hiop, hfull⟩ :=
    ffault_spec host hi h hp 0 .read
  have hfull' : Full g content (bufferOrigin f.fbufsize p) t := by
    rcases hfull with hfull | ⟨hflag, -⟩
    · exact hfull
    · cases hflag
  refine ⟨g, t, ?_, hloaded, hiop, hfull'⟩
  have hchars : ¬f.fnchars < 0 := by
    have := hi.fnchars
    omega
  have hptr := h.sized.bufptr
  simp only [fillFromDevice, hi.read, Bool.not_true, Bool.false_eq_true, if_false,
    hptr, hi.binary, hchars, hn, hok, bind, Except.bind, reduceCtorEq]
  split
  · simp
  · have hpos : 0 < g.itop - g.iop := by omega
    have herr : g.itop - g.iop ≠ ERR := by simp only [ERR]; omega
    have hzero : g.itop - g.iop ≠ 0 := by omega
    rw [if_neg herr, if_neg hzero]

theorem fillFromDevice_noBuffer (hread : f.ffRead = true) (hno : f.bufptr = 0)
    (hread' : (fmkbfs f).ffRead = true) (hptr : (fmkbfs f).bufptr ≠ 0) :
    fillFromDevice host f = fillFromDevice host (fmkbfs f) := by
  simp only [fillFromDevice, hread, hread', hno, hptr, if_true, if_false,
    Bool.not_true, Bool.false_eq_true]

/-- The state after a buffer was filled for reading. -/
structure Refilled (f g : Fd) (content : List Int) (p : Nat) : Prop where
  represents : Represents g content p
  placed : Placed g content
  frame : Frame f g
  inBuffer : g.bufptr ≤ g.iop
  atEnd : g.itop - g.iop ≤ 0 → p = content.length
  short : 0 < g.itop - g.iop → g.itop < g.buftop →
    g.itop - g.iop = content.length - p
  kept : f.bufptr ≠ 0 →
    g.bufptr = f.bufptr ∧ g.fbufsize = f.fbufsize ∧ MemcKept f g

theorem Loaded.refilled {g : Fd} (h : Loaded f g content o t)
    (hp : p ≤ content.length) (hiop : g.iop = g.bufptr + (p - o)) (hle : o ≤ p)
    (hlt : (p : Int) < o + g.fbufsize) (hfull : Full g content o t) :
    Refilled f g content p := by
  have hs := h.buffered.sized
  have htop := hs.buftop
  have hitop := h.itop
  unfold Full at hfull
  exact
    { represents := h.represents hp hiop hfull
      placed := fun _ => ⟨o, t, h.buffered, hfull⟩
      frame := h.frame
      inBuffer := by omega
      atEnd := fun _ => by omega
      short := fun _ _ => by omega
      kept := fun _ => ⟨h.bufptr, h.fbufsize, h.memc⟩ }

theorem fillFromDevice_spec (h : Represents f content p) :
    ∃ g, fillFromDevice host f =
        .ok (if g.itop - g.iop ≤ 0 then EOF else g.itop - g.iop, g) ∧
      Refilled f g content p := by
  by_cases hno : f.bufptr = 0
  · obtain ⟨hi, hu, hs, hframe, hnote, -, -⟩ :=
      fmkbfs_spec h.idle (h.unplaced hno) hno
    obtain ⟨g, t, hok, hloaded, hiop, hfull⟩ := fillFromDevice_placeable
      host hi (.inl ⟨hu, hs⟩) (hnote.trans h.lnote) h.pos_le
    refine ⟨g, ?_, ?_⟩
    · rw [fillFromDevice_noBuffer host h.idle.read hno hi.read hs.bufptr, hok]
    · have hr := hloaded.refilled h.pos_le hiop (bufferOrigin_le _ p)
        (by rw [hloaded.fbufsize]; exact lt_bufferOrigin_add hs.pos p) hfull
      exact { hr with
        frame := hframe.trans hr.frame
        kept := fun hne => absurd hno hne }
  · have hpl := h.placeable hno
    obtain ⟨g, t, hok, hloaded, hiop, hfull⟩ := fillFromDevice_placeable
      host h.idle hpl h.lnote h.pos_le
    exact ⟨g, hok, hloaded.refilled h.pos_le hiop (bufferOrigin_le _ p)
      (by rw [hloaded.fbufsize]; exact lt_bufferOrigin_add hpl.sized.pos p) hfull⟩

/-! ## Reading -/

theorem Represents.consume (h : Represents f content p) {k : Nat} (hk : 0 < k)
    (hin : f.bufptr ≤ f.iop) (hle : (k : Int) ≤ f.itop - f.iop) :
    fetch f.memc f.iop k = (content.drop p).take k ∧
      p + k ≤ content.length ∧
      Represents { f with iop := f.iop + k } content (p + k) ∧
      (Placed f content → Placed { f with iop := f.iop + k } content) := by
  rcases h.buffer with hu | ⟨o, t, hb, hfull⟩
  · have := hu.itop
    omega
  · have hiop := hb.iop_eq h.lnote
    have hs := hb.sized
    have hsize := hb.size
    have hfits := hb.fits
    have htop := hs.buftop
    have hitop : f.itop ≤ f.bufptr + t := by
      cases hb.top with
      | clean hotop hitop => omega
      | settled hotop hitop => omega
      | writing hotop hle hitop => omega
    have hlen : p + k ≤ content.length := by omega
    have hnext : Buffered { f with iop := f.iop + k } content o t := by
      refine hb.congr ⟨hs.bufptr, hs.buftop, hs.pos, hs.blocks⟩ rfl rfl rfl rfl rfl
        rfl rfl ?_ hb.clean
      cases hb.top with
      | clean hotop hitop => exact .clean hotop hitop
      | settled hotop hitop => exact .settled hotop hitop
      | writing hotop htop' hitop =>
          refine .writing hotop htop' ?_
          show min f.buftop (max f.itop (f.iop + k)) = f.bufptr + t
          omega
    refine ⟨?_, hlen, ?_, fun _ _ => ⟨o, t, hnext, hfull⟩⟩
    · refine fetch_eq_of_getElem? ?_ fun j hj => ?_
      · rw [List.length_take, List.length_drop]
        omega
      · have hw := hb.window (p - o + j) (by omega)
        have hplace : o + (p - o + j) = p + j := by omega
        have haddr : f.bufptr + ((p - o + j : Nat) : Int) = f.iop + (j : Nat) := by
          omega
        rw [hplace, haddr] at hw
        rw [List.getElem?_take_of_lt hj, List.getElem?_drop, hw]
    · have hi := h.idle
      have hn := h.lnote
      exact
        { idle := ⟨hi.binary, hi.read, hi.blksize, hi.firstbufoff, hi.fbufmode,
            hi.ffiomode, hi.fnchars, hi.bufAt⟩
          lnote := by
            unfold Fd.lnote at hn ⊢
            show f.boffset + (f.iop + k) - f.bufptr = ((p + k : Nat) : Int) + 1
            omega
          pos_le := hlen
          buffer := .inr ⟨o, t, hnext, hfull⟩ }

/-- Reading stops at the number of chars asked for, or at the end of the file. -/
def StopsAt (maxchars maxch : Int) (nchars : Nat) (left : Nat) : Prop :=
  maxch = maxchars ∨ maxch = min maxchars (nchars + left)

theorem atTop_iff : f.atTop ↔ f.iop < f.bufptr ∨ f.itop ≤ f.iop := by
  simp [Fd.atTop]

theorem filbuf_of_not_pushback (h : f.ffPushback = false) :
    filbuf host f = fillFromDevice host f := by
  rw [filbuf, h]
  rfl

theorem refill_spec (h : Represents f content p) (hpb : f.ffPushback = false)
    {maxchars maxch : Int} {nchars : Nat}
    (hstop : StopsAt maxchars maxch nchars (content.length - p)) :
    ∃ r g, refill host f maxchars maxch nchars = .ok (r, g) ∧
      Represents g content p ∧ Frame f g ∧ (Placed f content → Placed g content) ∧
      (r = none → p = content.length) ∧
      ∀ maxch', r = some maxch' →
        StopsAt maxchars maxch' nchars (content.length - p) ∧
          g.bufptr ≤ g.iop ∧ g.iop < g.itop := by
  by_cases htop : f.atTop
  · obtain ⟨g, hok, hr⟩ := fillFromDevice_spec host h
    by_cases hend : g.itop - g.iop ≤ 0
    · rw [if_pos hend] at hok
      refine ⟨none, g, ?_, hr.represents, hr.frame, fun _ => hr.placed,
        fun _ => hr.atEnd hend, fun _ hnone => by cases hnone⟩
      simp only [refill, htop, if_true, filbuf_of_not_pushback host hpb, hok, bind,
        Except.bind]
    · rw [if_neg hend] at hok
      have hpos : 0 < g.itop - g.iop := by omega
      have heof : g.itop - g.iop ≠ EOF := by simp only [EOF]; omega
      have hstream : g.stream = false := hr.represents.idle.not_stream
      have hrun : refill host f maxchars maxch nchars =
          .ok (some (if g.itop < g.buftop then
            min maxchars (nchars + (g.itop - g.iop)) else maxch), g) := by
        simp only [refill, htop, if_true, filbuf_of_not_pushback host hpb, hok, bind,
          Except.bind, heof, if_false, hstream, Bool.false_eq_true, or_false]
        split <;> rfl
      refine ⟨_, g, hrun, hr.represents, hr.frame, fun _ => hr.placed,
        nofun, fun maxch' hmax => ?_⟩
      obtain rfl := Option.some.inj hmax
      have hp := h.pos_le
      by_cases hshort : g.itop < g.buftop
      · have hleft := hr.short hpos hshort
        rw [if_pos hshort]
        have hval : min maxchars (nchars + (g.itop - g.iop)) =
            min maxchars (nchars + (content.length - p : Nat)) := by
          omega
        exact ⟨.inr hval, hr.inBuffer, by omega⟩
      · rw [if_neg hshort]
        exact ⟨hstop, hr.inBuffer, by omega⟩
  · refine ⟨some maxch, f, by simp only [refill, htop]; rfl, h, .refl f, id,
      nofun, fun maxch' hmax => ?_⟩
    obtain rfl := Option.some.inj hmax
    rw [atTop_iff] at htop
    exact ⟨hstop, by omega, by omega⟩

theorem Frame.iop (f : Fd) (x : Int) : Frame f { f with iop := x } :=
  ⟨rfl, rfl, rfl, rfl, rfl, rfl, rfl, rfl, rfl, rfl, rfl, rfl, rfl, rfl, rfl, rfl⟩

theorem readLoop_spec (maxchars : Int) (fuel : Nat) (maxch : Int)
    (buffer : List Int) (h : Represents f content p) (hpb : f.ffPushback = false)
    (hfuel : maxchars - buffer.length ≤ fuel)
    (hstop : StopsAt maxchars maxch buffer.length (content.length - p)) :
    ∃ g, let chars := (content.drop p).take (maxchars - buffer.length).toNat
      readLoop host maxchars fuel f maxch buffer = .ok (buffer ++ chars, g) ∧
      Represents g content (p + chars.length) ∧ Frame f g ∧
      (Placed f content → Placed g content) := by
  induction fuel generalizing f p maxch buffer with
  | zero =>
      have hzero : (maxchars - buffer.length).toNat = 0 := by omega
      rw [hzero]
      refine ⟨f, ?_, by simpa using h, .refl f, id⟩
      simp [readLoop]
  | succ fuel ih =>
      have hp := h.pos_le
      unfold StopsAt at hstop
      by_cases hlt : (buffer.length : Int) < maxch
      · obtain ⟨r, g, hok, hg, hframe, hplaced, hnone, hsome⟩ :=
          refill_spec host h hpb hstop
        cases r with
        | none =>
            have hdrop : content.drop p = [] :=
              List.drop_eq_nil_of_le (hnone rfl).ge
            rw [hdrop, List.take_nil]
            refine ⟨g, ?_, by simpa using hg, hframe, hplaced⟩
            simp only [readLoop, hlt, if_true, hok, bind, Except.bind,
              List.append_nil]
        | some maxch' =>
            obtain ⟨hstop', hin, hlt'⟩ := hsome maxch' rfl
            unfold StopsAt at hstop'
            obtain ⟨-, hone, -⟩ := hg.consume one_pos hin (by omega)
            generalize hk : min (maxch' - buffer.length) (g.itop - g.iop) = k at *
            have hkpos : ¬k ≤ 0 := by omega
            obtain ⟨n, rfl⟩ : ∃ n : Nat, k = n := ⟨k.toNat, by omega⟩
            obtain ⟨hfetch, hpn, hnext, hplaced'⟩ :=
              hg.consume (show 0 < n by omega) hin (by omega)
            have hlen : (fetch g.memc g.iop n).length = n := length_fetch
            have hmax : (n : Int) ≤ maxchars - buffer.length := by omega
            obtain ⟨e, hrun, he, hframe', hkept⟩ := ih maxch'
              (buffer ++ fetch g.memc g.iop n) hnext
              (by rw [← hpb]; exact hframe.ffPushback)
              (by rw [List.length_append, hlen]; omega)
              (by
                unfold StopsAt
                rw [List.length_append, hlen]
                omega)
            have hsplit : (content.drop p).take (maxchars - buffer.length).toNat =
                fetch g.memc g.iop n ++ (content.drop (p + n)).take
                  (maxchars - (buffer ++ fetch g.memc g.iop n).length).toNat := by
              have hadd : (maxchars - buffer.length).toNat = n +
                  (maxchars - (buffer ++ fetch g.memc g.iop n).length).toNat := by
                rw [List.length_append, hlen]
                omega
              rw [hadd, List.take_add, hfetch, List.drop_drop]
            refine ⟨e, ?_, ?_, hframe.trans ((Frame.iop g _).trans hframe'),
              fun hpl => hkept (hplaced' (hplaced hpl))⟩
            · rw [hsplit, ← List.append_assoc, ← hrun]
              simp only [readLoop, hlt, if_true, hok, bind, Except.bind, hk, hkpos,
                if_false, Int.toNat_natCast]
            · rw [hsplit, List.length_append, hlen, ← Nat.add_assoc]
              exact he
      · have hnil : (content.drop p).take (maxchars - buffer.length).toNat = [] := by
          rw [← List.length_eq_zero_iff, List.length_take, List.length_drop]
          omega
        rw [hnil]
        refine ⟨f, ?_, by simpa using h, .refl f, id⟩
        simp only [readLoop, hlt, if_false, List.append_nil]

end Iraf.Fio
