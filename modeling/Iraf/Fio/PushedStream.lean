import Iraf.Fio.InputStream
import Iraf.Fio.Pushback

/-!
# The pushback stack

The saved pointers form a stack of levels, the last of which is the interrupted
stream.  The chars pushed back and not read yet are those of the levels above it,
the current one first.
-/

namespace Iraf.Fio

open Cells

variable (host : Host)

/-! ## Levels -/

/-- The pointers that a pushback saves. -/
structure Level where
  iop : Int
  itop : Int
  bufptr : Int
  pbiop : Int

def Fd.level (f : Fd) : Level := ⟨f.iop, f.itop, f.bufptr, f.fpbiop⟩

/-- The descriptor once all above a level is gone. -/
def Fd.atLevel (f : Fd) (l : Level) : Fd :=
  { f with
    iop := l.iop
    itop := l.itop
    bufptr := l.bufptr
    fpbiop := l.pbiop
    ffPushback := false }

/-- The levels are saved from `sp` on. -/
def Saved (m : Memory Int) : Int → List Level → Prop
  | _, [] => True
  | sp, l :: ls =>
      (m sp = l.iop ∧ m (sp + 1) = l.itop ∧ m (sp + 2) = l.bufptr ∧
        m (sp + 3) = l.pbiop) ∧ Saved m (sp + 4) ls

/-- Each level but the last holds text that starts where that of the level below
ends. -/
inductive Pile (m : Memory Int) : Level → List Level → List Int → Level → Prop
  | base (l : Level) : Pile m l [] [] l
  | push {l next base : Level} {ls : List Level} {text : List Int}
      (hlow : l.bufptr ≤ l.iop) (hle : l.iop ≤ l.itop) (htop : l.itop = l.pbiop)
      (hnext : l.bufptr = next.pbiop) (hpile : Pile m next ls text base) :
      Pile m l (next :: ls) (fetch m l.iop (l.itop - l.iop).toNat ++ text) base

/-- The pointer to the saved pointers when there are none. -/
def stackTop (f : Fd) : Int := (f.fpbtop - 1).tdiv host.szInt + 1

/-- The size of the pushback buffer, made already or not. -/
def pbSize (f : Fd) : Int := if f.fpbbufsize ≤ 0 then szPbbuf else f.fpbbufsize

/-- What `malloc` promises of the two buffers. -/
structure Allocated (f : Fd) : Prop where
  pbAt : f.pbAt ≠ 0
  apart : f.pbAt + pbSize f ≤ bufLow f ∨ bufHigh f ≤ f.pbAt
  buffer : f.fpbbuf ≠ 0 → f.fpbbuf = f.pbAt ∧ f.fpbtop = f.pbAt + pbSize f

/-- The chars pushed back, and those left of the interrupted stream. -/
structure PushedAt (f : Fd) (levels : List Level) (base : Level)
    (pushed rest : List Int) : Prop where
  saved : Saved f.memi f.fpbsp levels
  pile : Pile f.memc f.level levels pushed base
  flag : f.ffPushback = true ↔ levels ≠ []
  stream : Stream (f.atLevel base) rest
  positioned : levels ≠ [] → base.bufptr ≤ base.iop
  allocated : Allocated (f.atLevel base)
  noBuffer : f.fpbbuf = 0 → levels = []
  bottom : f.fpbbuf ≠ 0 →
    base.pbiop = f.fpbbuf ∧ f.fpbsp + 4 * levels.length = stackTop host f
  below : levels ≠ [] → f.fpbiop ≤ (f.fpbsp - 1) * host.szInt + 1

variable {host : Host} {f g : Fd} {l base : Level} {levels ls : List Level}
  {pushed rest text : List Int} {m : Memory Int}

theorem Fd.atLevel_level (h : f.ffPushback = false) : f.atLevel f.level = f := by
  unfold Fd.atLevel Fd.level
  rw [← h]

theorem Pile.base_le (h : Pile m l ls text base) : base.pbiop ≤ l.pbiop := by
  induction h with
  | base l => exact le_rfl
  | push hlow hle htop hnext hpile ih => omega

theorem Pile.put (h : Pile m l ls text base) {a : Int} (ha : l.pbiop ≤ a)
    (xs : List Int) : Pile (put m a xs) l ls text base := by
  induction h with
  | base l => exact .base l
  | @push l next base ls text hlow hle htop hnext hpile ih =>
      have hsame : fetch (Cells.put m a xs) l.iop (l.itop - l.iop).toNat =
          fetch m l.iop (l.itop - l.iop).toNat :=
        fetch_put_of_apart (.inl (by omega))
      rw [← hsame]
      exact .push hlow hle htop hnext (ih (by omega))

theorem Saved.put {sp a : Int} (h : Saved m sp ls) (xs : List Int)
    (ha : a + xs.length ≤ sp) : Saved (put m a xs) sp ls := by
  induction ls generalizing sp with
  | nil => exact trivial
  | cons l ls ih =>
      obtain ⟨⟨h0, h1, h2, h3⟩, hrest⟩ := h
      refine ⟨⟨?_, ?_, ?_, ?_⟩, ih hrest (by omega)⟩
      · rw [put_of_not_mem (.inr ha), h0]
      · rw [put_of_not_mem (.inr (by omega)), h1]
      · rw [put_of_not_mem (.inr (by omega)), h2]
      · rw [put_of_not_mem (.inr (by omega)), h3]

theorem iopLimit_le (host : Host) (f : Fd) (h : f.fpbsp ≤ stackTop host f) :
    iopLimit host f ≤ f.fpbtop := by
  have hpos := host.szInt_pos
  have hmod := Int.tmod_add_tdiv_mul (f.fpbtop - 1) host.szInt
  have hlt := Int.tmod_lt_of_pos (f.fpbtop - 1) hpos
  have hgt : -host.szInt < (f.fpbtop - 1).tmod host.szInt := by
    have := Int.lt_tmod_of_pos (f.fpbtop - 1) hpos
    omega
  unfold iopLimit
  unfold stackTop at h
  have hmul : (f.fpbsp - 4 - 1) * host.szInt ≤
      ((f.fpbtop - 1).tdiv host.szInt - 4) * host.szInt :=
    Int.mul_le_mul_of_nonneg_right (by omega) hpos.le
  have hexp : ((f.fpbtop - 1).tdiv host.szInt - 4) * host.szInt =
      (f.fpbtop - 1).tdiv host.szInt * host.szInt - 4 * host.szInt := Int.sub_mul _ _ _
  omega

/-! ## The pushback buffer is made -/

theorem Allocated.frame (h : Allocated f) (hframe : Frame f g)
    (hext : SameExtent f g) : Allocated g where
  pbAt := by rw [hframe.pbAt]; exact h.pbAt
  apart := by
    rw [hext.1, hext.2, hframe.pbAt, pbSize, hframe.fpbbufsize]
    exact h.apart
  buffer hne := by
    rw [hframe.fpbbuf, hframe.fpbtop, hframe.pbAt, pbSize, hframe.fpbbufsize]
    exact h.buffer (by rw [← hframe.fpbbuf]; exact hne)

theorem PushedAt.of_levels (h : PushedAt host f [] base pushed rest) :
    f.ffPushback = false ∧ base = f.level ∧ pushed = [] ∧ Stream f rest ∧
      Allocated f := by
  have hflag : f.ffPushback = false := by
    cases hf : f.ffPushback with
    | false => rfl
    | true => exact absurd rfl (h.flag.1 hf)
  cases h.pile
  refine ⟨hflag, rfl, rfl, ?_, ?_⟩
  · have := h.stream
    rwa [Fd.atLevel_level hflag] at this
  · have := h.allocated
    rwa [Fd.atLevel_level hflag] at this

theorem PushedAt.base_changed {rest' : List Int}
    (h : PushedAt host f [] base pushed rest) (hs : Stream g rest')
    (hframe : Frame f g) (hext : SameExtent f g) :
    PushedAt host g [] g.level [] rest' := by
  obtain ⟨hflag, hbase, -, -, halloc⟩ := h.of_levels
  have hflag' : g.ffPushback = false := by rw [hframe.ffPushback, hflag]
  refine ⟨trivial, .base _, by simp [hflag'], ?_, nofun, ?_, fun _ => rfl, fun hne => ?_,
    nofun⟩
  · rw [Fd.atLevel_level hflag']
    exact hs
  · rw [Fd.atLevel_level hflag']
    exact halloc.frame hframe hext
  · obtain ⟨hb, hsp⟩ := h.bottom (by rw [← hframe.fpbbuf]; exact hne)
    rw [hbase] at hb
    refine ⟨?_, ?_⟩
    · rw [hframe.fpbbuf, ← hb]
      exact hframe.fpbiop
    · rw [stackTop, hframe.fpbtop, hframe.fpbsp]
      exact hsp

theorem PushedAt.withPbbuf (h : PushedAt host f levels base pushed rest) :
    ∃ base', PushedAt host (withPbbuf host f) levels base' pushed rest ∧
      (withPbbuf host f).fpbbuf ≠ 0 ∧
      (f.bufptr ≤ f.iop → (withPbbuf host f).bufptr ≤ (withPbbuf host f).iop) := by
  by_cases hno : f.fpbbuf = 0
  · obtain rfl := h.noBuffer hno
    obtain ⟨hflag, rfl, rfl, hs, halloc⟩ := h.of_levels
    obtain ⟨e, he, hes, hframe, hext, hlow⟩ : ∃ e,
        (if f.bufptr = NULL then fmkbfs f else f) = e ∧ Stream e rest ∧ Frame f e ∧
        SameExtent f e ∧ (f.bufptr ≤ f.iop → e.bufptr ≤ e.iop) := by
      by_cases hptr : f.bufptr = 0
      · obtain ⟨hs', hext, hlow, -, -⟩ := hs.fmkbfs hptr
        exact ⟨fmkbfs f, if_pos hptr, hs', .fmkbfs f, hext, fun _ => hlow⟩
      · exact ⟨f, if_neg hptr, hs, .refl f, .refl f, id⟩
    have hg : Fio.withPbbuf host f = { e with
        fpbbufsize := pbSize f
        fpbbuf := f.pbAt
        fpbtop := f.pbAt + pbSize f
        fpbiop := f.pbAt
        fpbsp := (f.pbAt + pbSize f - 1).tdiv host.szInt + 1 } := by
      simp only [Fio.withPbbuf, hno, if_true, fmkpbbuf, he, pbSize,
        hframe.fpbbufsize, hframe.pbAt]
    have hflag' : (Fio.withPbbuf host f).ffPushback = false := by
      rw [hg]
      exact hframe.ffPushback.trans hflag
    have hsame : SameStream e (Fio.withPbbuf host f) := by
      rw [hg]
      have hnc : 0 ≤ e.fnchars := by
        cases hes with
        | random content p h hrest => exact h.idle.fnchars
        | sequential h => exact h.fnchars
        | inMemory h => exact h.fnchars
      exact ⟨rfl, rfl, rfl, rfl, rfl, rfl, rfl, rfl, rfl, rfl, rfl, rfl, rfl, hnc, rfl,
        rfl, rfl, rfl, fun _ _ _ => rfl⟩
    have hsize : pbSize (Fio.withPbbuf host f) = pbSize f := by
      rw [hg]
      unfold pbSize
      split <;> simp_all
    have hpb : (Fio.withPbbuf host f).pbAt = f.pbAt := by
      rw [hg]
      exact hframe.pbAt
    refine ⟨(Fio.withPbbuf host f).level, ⟨trivial, .base _, by simp [hflag'], ?_, nofun,
      ?_, fun _ => rfl, fun _ => ?_, nofun⟩, ?_, fun hle => ?_⟩
    · rw [Fd.atLevel_level hflag']
      exact hes.same hsame
    · rw [Fd.atLevel_level hflag']
      have hext' := hext.trans hsame.extent
      refine ⟨by rw [hpb]; exact halloc.pbAt, ?_, fun _ => ?_⟩
      · rw [hext'.1, hext'.2, hpb, hsize]
        exact halloc.apart
      · rw [hpb, hsize, hg]
        exact ⟨rfl, rfl⟩
    · rw [hg]
      exact ⟨rfl, by simp [stackTop]⟩
    · rw [hg]
      exact halloc.pbAt
    · rw [hsame.bufptr, hsame.iop]
      exact hlow hle
  · have hg : Fio.withPbbuf host f = f := if_neg hno
    rw [hg]
    exact ⟨base, h, hno, id⟩

/-! ## Chars are pushed back -/

theorem sameStream_atLevel {b : Level} (hotop : g.otop = f.otop)
    (hbuftop : g.buftop = f.buftop) (hoff : g.boffset = f.boffset)
    (hread : g.ffRead = f.ffRead) (htype : g.ftype = f.ftype)
    (hblk : g.fblksize = f.fblksize) (hsize : g.fbufsize = f.fbufsize)
    (hmax : g.fmaxbufsize = f.fmaxbufsize) (hfirst : g.firstbufoff = f.firstbufoff)
    (hfil : g.filsize = f.filsize) (hnc : 0 ≤ g.fnchars)
    (hmode : g.fbufmode = f.fbufmode) (hio : g.ffiomode = f.ffiomode)
    (hbuf : g.bufAt = f.bufAt) (hchan : g.chan = f.chan)
    (hmem : ∀ x, bufLow (f.atLevel b) ≤ x → x < bufHigh (f.atLevel b) →
      g.memc x = f.memc x) : SameStream (f.atLevel b) (g.atLevel b) :=
  ⟨rfl, rfl, hotop, rfl, hbuftop, hoff, hread, htype, hblk, hsize, hmax, hfirst, hfil,
    hnc, hmode, hio, hbuf, hchan, hmem⟩

theorem Stream.fnchars (h : Stream f rest) : 0 ≤ f.fnchars := by
  cases h with
  | random content p h hrest => exact h.idle.fnchars
  | sequential h => exact h.fnchars
  | inMemory h => exact h.fnchars

theorem Allocated.same (h : Allocated f) (hext : SameExtent f g)
    (hpb : g.pbAt = f.pbAt) (hbuf : g.fpbbuf = f.fpbbuf)
    (hsize : g.fpbbufsize = f.fpbbufsize) (htop : g.fpbtop = f.fpbtop) :
    Allocated g where
  pbAt := by rw [hpb]; exact h.pbAt
  apart := by
    rw [hext.1, hext.2, hpb, pbSize, hsize]
    exact h.apart
  buffer hne := by
    rw [hbuf, htop, hpb, pbSize, hsize]
    exact h.buffer (by rw [← hbuf]; exact hne)

theorem PushedAt.pushChars (h : PushedAt host f levels base pushed rest)
    (hbuf : f.fpbbuf ≠ 0) (hpos : levels = [] → f.bufptr ≤ f.iop) {chars : List Int}
    (hroom : f.fpbiop + chars.length ≤ iopLimit host f) :
    PushedAt host (pushChars f chars) (f.level :: levels) base (chars ++ pushed)
      rest := by
  obtain ⟨hbase, hsp⟩ := h.bottom hbuf
  obtain ⟨hpb, htop⟩ := h.allocated.buffer hbuf
  have hle := h.pile.base_le
  have hlimit := iopLimit_le host f (by omega)
  have hsame : SameStream (f.atLevel base) ((Fio.pushChars f chars).atLevel base) := by
    refine sameStream_atLevel rfl rfl rfl rfl rfl rfl rfl rfl rfl rfl
      h.stream.fnchars rfl rfl rfl rfl fun x hlow hhigh => put_of_not_mem ?_
    have hpb' : f.fpbbuf = f.pbAt := hpb
    have htop' : f.fpbtop = f.pbAt + pbSize f := htop
    have hle' : base.pbiop ≤ f.fpbiop := hle
    have hapart : f.pbAt + pbSize f ≤ bufLow (f.atLevel base) ∨
        bufHigh (f.atLevel base) ≤ f.pbAt := h.allocated.apart
    omega
  refine ⟨⟨⟨?_, ?_, ?_, ?_⟩, ?_⟩, ?_, by simp [Fio.pushChars], h.stream.same hsame,
    fun _ => ?_, h.allocated.same hsame.extent rfl rfl rfl rfl,
    fun hno => absurd hno hbuf, fun _ => ⟨hbase, ?_⟩, fun _ => ?_⟩
  · exact put_of_mem 0 (by simp) (by simp [Fio.pushChars])
  · exact put_of_mem 1 (by simp) (by simp [Fio.pushChars])
  · exact put_of_mem 2 (by simp) (by simp [Fio.pushChars])
  · exact put_of_mem 3 (by simp) (by simp [Fio.pushChars])
  · have hsaved : Saved (Fio.pushChars f chars).memi f.fpbsp levels :=
      h.saved.put _ (by simp)
    have hadd : (Fio.pushChars f chars).fpbsp + 4 = f.fpbsp := by
      show f.fpbsp - 4 + 4 = f.fpbsp
      omega
    rw [hadd]
    exact hsaved
  · have hcount : (f.fpbiop + (chars.length : Int) - f.fpbiop).toNat =
        chars.length := by omega
    have hfetch : fetch (Fio.pushChars f chars).memc (Fio.pushChars f chars).level.iop
        ((Fio.pushChars f chars).level.itop -
          (Fio.pushChars f chars).level.iop).toNat = chars := by
      show fetch (put f.memc f.fpbiop chars) f.fpbiop
        (f.fpbiop + (chars.length : Int) - f.fpbiop).toNat = chars
      rw [hcount, fetch_put_same]
    have hpile := Pile.push (m := (Fio.pushChars f chars).memc)
      (l := (Fio.pushChars f chars).level) le_rfl
      (show f.fpbiop ≤ f.fpbiop + chars.length by omega) rfl rfl
      (h.pile.put le_rfl chars)
    rw [hfetch] at hpile
    exact hpile
  · cases hl : levels with
    | nil =>
        have hpile := h.pile
        rw [hl] at hpile
        cases hpile
        exact hpos hl
    | cons l ls => exact h.positioned (by rw [hl]; exact nofun)
  · show f.fpbsp - 4 + 4 * ((levels.length + 1 : Nat) : Int) = stackTop host f
    omega
  · exact hroom

/-! ## A level is popped -/

theorem popFrame_eq (f : Fd) :
    popFrame host f = { f with
      iop := f.memi f.fpbsp
      itop := f.memi (f.fpbsp + 1)
      bufptr := f.memi (f.fpbsp + 2)
      fpbiop := f.memi (f.fpbsp + 3)
      fpbsp := f.fpbsp + 4
      ffPushback := if f.fpbsp + 4 ≥ stackTop host f then false else f.ffPushback } := by
  unfold popFrame stackTop
  dsimp only
  split <;> rfl

theorem PushedAt.popFrame (h : PushedAt host f (l :: ls) base pushed rest) :
    ∃ pushed', pushed = fetch f.memc f.iop (f.itop - f.iop).toNat ++ pushed' ∧
      PushedAt host (popFrame host f) ls base pushed' rest ∧
      f.bufptr ≤ f.iop ∧ f.iop ≤ f.itop := by
  obtain ⟨⟨h0, h1, h2, h3⟩, hsaved⟩ := h.saved
  have hbuf : f.fpbbuf ≠ 0 := fun hno => nomatch h.noBuffer hno
  obtain ⟨hbase, hsp⟩ := h.bottom hbuf
  have hflag : f.ffPushback = true := h.flag.2 nofun
  have hbelow := h.below nofun
  have hpop := @popFrame_eq host f
  rw [h0, h1, h2, h3] at hpop
  have hlevel : (Fio.popFrame host f).level = l := by rw [hpop]; rfl
  have hsame : SameStream (f.atLevel base) ((Fio.popFrame host f).atLevel base) := by
    rw [hpop]
    exact sameStream_atLevel rfl rfl rfl rfl rfl rfl rfl rfl rfl rfl
      h.stream.fnchars rfl rfl rfl rfl fun _ _ _ => rfl
  have hlen : f.fpbsp + 4 * ((ls.length : Int) + 1) = stackTop host f := by
    rw [← hsp, List.length_cons]
    omega
  generalize hlv : f.level = cur at *
  have hpile := h.pile
  rw [hlv] at hpile
  cases hpile with
  | @push _ _ _ _ text hlow hle htop hnext hpile =>
      subst hlv
      refine ⟨text, rfl, ?_, hlow, hle⟩
      have hmem : (Fio.popFrame host f).memc = f.memc := by rw [hpop]
      have hmemi : (Fio.popFrame host f).memi = f.memi := by rw [hpop]
      have hnsp : (Fio.popFrame host f).fpbsp = f.fpbsp + 4 := by rw [hpop]
      have hpos := host.szInt_pos
      refine ⟨?_, ?_, ?_, h.stream.same hsame, fun _ => h.positioned nofun,
        h.allocated.same hsame.extent (by rw [hpop]; rfl) (by rw [hpop]; rfl)
          (by rw [hpop]; rfl) (by rw [hpop]; rfl), fun hno => ?_, fun _ => ?_,
        fun _ => ?_⟩
      · rw [hmemi, hnsp]
        exact hsaved
      · rw [hmem, hlevel]
        exact hpile
      · rw [hpop]
        show (if f.fpbsp + 4 ≥ stackTop host f then false else f.ffPushback) = true ↔ _
        cases ls with
        | nil =>
            simp only [List.length_nil] at hlen
            rw [if_pos (by omega)]
            simp
        | cons l' ls' =>
            simp only [List.length_cons] at hlen
            have hneg : ¬f.fpbsp + 4 ≥ stackTop host f := by omega
            rw [if_neg hneg, hflag]
            simp
      · rw [hpop] at hno
        exact absurd hno hbuf
      · refine ⟨hbase.trans (by rw [hpop]), ?_⟩
        rw [hnsp, hpop]
        show f.fpbsp + 4 + 4 * (ls.length : Int) = stackTop host f
        omega
      · have hmul : (f.fpbsp - 1) * host.szInt ≤ (f.fpbsp + 4 - 1) * host.szInt :=
          Int.mul_le_mul_of_nonneg_right (by omega) hpos.le
        have hiop : (Fio.popFrame host f).fpbiop = l.pbiop := by rw [hpop]
        have h1 : f.level.bufptr ≤ f.level.iop := hlow
        have h2 : f.level.itop = f.fpbiop := htop
        rw [hnsp, hiop]
        omega

theorem popFrames_spec (fuel : Nat) (h : PushedAt host f levels base pushed rest)
    (hne : levels ≠ []) (hfuel : levels.length ≤ fuel) (htop : f.itop ≤ f.iop) :
    ∃ r g levels', popFrames host fuel f = (r, g) ∧
      PushedAt host g levels' base pushed rest ∧
      (r = some (g.itop - g.iop) ∧ 0 < g.itop - g.iop ∧ g.bufptr ≤ g.iop ∨
        r = none ∧ levels' = [] ∧ g.bufptr ≤ g.iop ∧ g.itop ≤ g.iop) := by
  induction fuel generalizing f levels with
  | zero =>
      cases levels with
      | nil => exact absurd rfl hne
      | cons l ls => simp at hfuel
  | succ fuel ih =>
      cases levels with
      | nil => exact absurd rfl hne
      | cons l ls =>
          obtain ⟨pushed', hsplit, hpop, hlow, hle⟩ := h.popFrame
          have hzero : (f.itop - f.iop).toNat = 0 := by omega
          rw [hzero, fetch_zero, List.nil_append] at hsplit
          subst hsplit
          have hlow' : (popFrame host f).bufptr ≤ (popFrame host f).iop := by
            cases hls : ls with
            | nil =>
                subst hls
                obtain ⟨-, hbase, -⟩ := hpop.of_levels
                have hpos := h.positioned nofun
                rw [hbase] at hpos
                exact hpos
            | cons l' ls' =>
                subst hls
                obtain ⟨_, -, -, hlow', -⟩ := hpop.popFrame
                exact hlow'
          by_cases hmore : (popFrame host f).itop - (popFrame host f).iop > 0
          · refine ⟨some ((popFrame host f).itop - (popFrame host f).iop),
              popFrame host f, ls, ?_, hpop, .inl ⟨rfl, hmore, hlow'⟩⟩
            simp only [popFrames, hmore, if_true]
          · by_cases hflag : (popFrame host f).ffPushback = true
            · obtain ⟨r, g, levels', hrun, hg, hres⟩ := ih hpop (hpop.flag.1 hflag)
                (by simpa using hfuel) (by omega)
              refine ⟨r, g, levels', ?_, hg, hres⟩
              simp only [popFrames, hmore, if_false, hflag, if_true]
              exact hrun
            · have hls : ls = [] := by
                by_contra hne'
                exact hflag (hpop.flag.2 hne')
              refine ⟨none, popFrame host f, ls, ?_, hpop,
                .inr ⟨rfl, hls, hlow', by omega⟩⟩
              simp only [popFrames, hmore, if_false, hflag, Bool.false_eq_true]

theorem PushedAt.filbuf (h : PushedAt host f levels base pushed rest)
    (htop : f.atTop) :
    ∃ n g levels' base', filbuf host f = .ok (n, g) ∧
      PushedAt host g levels' base' pushed rest ∧
      (n = EOF ∧ pushed = [] ∧ rest = [] ∨
        0 < n ∧ n = g.itop - g.iop ∧ g.bufptr ≤ g.iop) := by
  have hdevice : ∀ {e : Fd} {b : Level} {text : List Int},
      PushedAt host e [] b text rest → e.atTop →
      ∃ n g b', fillFromDevice host e = .ok (n, g) ∧
        PushedAt host g [] b' text rest ∧
        (n = EOF ∧ text = [] ∧ rest = [] ∨
          0 < n ∧ n = g.itop - g.iop ∧ g.bufptr ≤ g.iop) := by
    intro e b text he hetop
    obtain ⟨-, -, htext, hs, -⟩ := he.of_levels
    obtain ⟨g, hok, hfill⟩ := hs.fill host hetop
    have hg := he.base_changed hfill.stream hfill.frame hfill.extent
    rw [htext]
    refine ⟨_, g, g.level, hok, hg, ?_⟩
    by_cases hend : g.itop - g.iop ≤ 0
    · rw [if_pos hend]
      exact .inl ⟨rfl, rfl, hfill.atEnd hend⟩
    · rw [if_neg hend]
      exact .inr ⟨by omega, rfl, hfill.low⟩
  by_cases hflag : f.ffPushback = true
  · have hne := h.flag.1 hflag
    cases levels with
    | nil => exact absurd rfl hne
    | cons l ls =>
        obtain ⟨-, -, -, hlow, -⟩ := h.popFrame
        rw [atTop_iff] at htop
        have hbuf : f.fpbbuf ≠ 0 := fun hno => nomatch h.noBuffer hno
        obtain ⟨-, hsp⟩ := h.bottom hbuf
        have hfuel : (l :: ls).length ≤ frameBound host f := by
          unfold frameBound
          unfold stackTop at hsp
          omega
        obtain ⟨r, g, levels', hrun, hg, hres⟩ :=
          popFrames_spec (frameBound host f) h hne hfuel (by omega)
        rcases hres with ⟨rfl, hpos, hlow'⟩ | ⟨rfl, rfl, hlow', hle⟩
        · refine ⟨g.itop - g.iop, g, levels', base, ?_, hg, .inr ⟨hpos, rfl, hlow'⟩⟩
          rw [Fio.filbuf, if_pos hflag, hrun]
        · obtain ⟨n, e, b', hok, he, hres⟩ := hdevice hg (by
            rw [atTop_iff]
            exact .inr hle)
          refine ⟨n, e, [], b', ?_, he, hres⟩
          rw [Fio.filbuf, if_pos hflag, hrun]
          exact hok
  · have hnil : levels = [] := by
      by_contra hne
      exact hflag (h.flag.2 hne)
    subst hnil
    obtain ⟨n, e, b', hok, he, hres⟩ := hdevice h htop
    exact ⟨n, e, [], b', by rw [Fio.filbuf, if_neg hflag, hok], he, hres⟩

theorem PushedAt.fcanpb (h : PushedAt host f levels base pushed rest) :
    PushedAt host (fcanpb host f) [] base [] rest := by
  have hgo : ∀ (fuel : Nat) {e : Fd} {ls : List Level} {text : List Int},
      PushedAt host e ls base text rest → ls.length ≤ fuel →
      PushedAt host (fcanpb.go host fuel e) [] base [] rest := by
    intro fuel
    induction fuel with
    | zero =>
        intro e ls text he hlen
        obtain rfl : ls = [] := List.length_eq_zero_iff.1 (by omega)
        obtain ⟨-, -, rfl, -⟩ := he.of_levels
        exact he
    | succ fuel ih =>
        intro e ls text he hlen
        cases ls with
        | nil =>
            obtain ⟨hflag, -, rfl, -⟩ := he.of_levels
            simp only [fcanpb.go, hflag, Bool.false_eq_true, if_false]
            exact he
        | cons l ls =>
            have hflag : e.ffPushback = true := he.flag.2 nofun
            obtain ⟨text', -, hpop, -⟩ := he.popFrame
            simp only [fcanpb.go, hflag, if_true]
            exact ih hpop (by simpa using hlen)
  refine hgo _ h ?_
  cases levels with
  | nil => simp
  | cons l ls =>
      have hbuf : f.fpbbuf ≠ 0 := fun hno => nomatch h.noBuffer hno
      obtain ⟨-, hsp⟩ := h.bottom hbuf
      unfold frameBound
      unfold stackTop at hsp
      omega

theorem PushedAt.consume (h : PushedAt host f levels base pushed rest) {k : Nat}
    (hk : 0 < k) (hin : f.bufptr ≤ f.iop) (hle : (k : Int) ≤ f.itop - f.iop) :
    fetch f.memc f.iop k = (pushed ++ rest).take k ∧ k ≤ (pushed ++ rest).length ∧
      ∃ base', PushedAt host { f with iop := f.iop + k } levels base'
        (pushed.drop k) (rest.drop (k - pushed.length)) := by
  cases levels with
  | nil =>
      obtain ⟨-, -, rfl, hs, -⟩ := h.of_levels
      obtain ⟨hfetch, hlen, hnext⟩ := hs.consume hk hin hle
      refine ⟨hfetch, hlen, Fd.level { f with iop := f.iop + k }, ?_⟩
      rw [List.drop_nil, List.length_nil, Nat.sub_zero]
      exact h.base_changed hnext (.iop f _) (.iop f _)
  | cons l ls =>
      have hpile := h.pile
      generalize hlv : f.level = cur at hpile
      cases hpile with
      | @push _ _ _ _ text hlow hcur htop hnext hpile =>
          subst hlv
          have hcount : k ≤ (f.itop - f.iop).toNat := by omega
          have hlenf : k ≤ (fetch f.memc f.level.iop
              (f.level.itop - f.level.iop).toNat).length := by
            rw [length_fetch]
            exact hcount
          have hleft : (f.itop - (f.iop + k)).toNat = (f.itop - f.iop).toNat - k := by
            omega
          have hover : k - (fetch f.memc f.level.iop
              (f.level.itop - f.level.iop).toNat ++ text).length = 0 := by
            rw [List.length_append]
            omega
          have hstream := h.stream
          refine ⟨?_, ?_, base, h.saved, ?_, h.flag, ?_, h.positioned, h.allocated,
            h.noBuffer, h.bottom, h.below⟩
          · rw [List.append_assoc, List.take_append_of_le_length hlenf]
            exact (take_fetch hcount).symm
          · rw [List.length_append, List.length_append]
            omega
          · rw [List.drop_append_of_le_length hlenf]
            have hdrop : (fetch f.memc f.level.iop
                (f.level.itop - f.level.iop).toNat).drop k =
                fetch f.memc (f.iop + k) (f.itop - (f.iop + k)).toNat := by
              rw [hleft]
              exact drop_fetch hcount
            rw [hdrop]
            have hlow' : f.bufptr ≤ f.iop := hlow
            exact .push (l := ⟨f.iop + k, f.itop, f.bufptr, f.fpbiop⟩)
              (show f.bufptr ≤ f.iop + k by omega)
              (show f.iop + k ≤ f.itop by omega) htop hnext hpile
          · rw [hover, List.drop_zero]
            exact hstream

end Iraf.Fio
