import Iraf.Fio.PushedStream
import Iraf.Fio.RandomAccess

/-!
# Pushed back input is last in first out

The abstract input is the text pushed back followed by what is left of the
interrupted stream.  Every call of a run, reading or pushing back, does to the
descriptor what it does to the abstract input.
-/

namespace Iraf.Fio

open Cells

/-! ## The abstract input -/

structure PushedInput where
  pushed : List Int
  rest : List Int

namespace PushedInput

/-- All that is left to be read. -/
def all (s : PushedInput) : List Int := s.pushed ++ s.rest

def push (s : PushedInput) (chars : List Int) : PushedInput :=
  ⟨chars ++ s.pushed, s.rest⟩

/-- The next `k` chars were read. -/
def advance (s : PushedInput) (k : Nat) : PushedInput :=
  ⟨s.pushed.drop k, s.rest.drop (k - s.pushed.length)⟩

def cancel (s : PushedInput) : PushedInput := ⟨[], s.rest⟩

theorem all_advance (s : PushedInput) (k : Nat) :
    (s.advance k).all = s.all.drop k := List.drop_append.symm

theorem advance_zero (s : PushedInput) : s.advance 0 = s := by
  simp [advance]

theorem advance_advance (s : PushedInput) (k n : Nat) :
    (s.advance k).advance n = s.advance (k + n) := by
  simp only [advance, List.drop_drop, List.length_drop, mk.injEq, true_and]
  congr 1
  omega

end PushedInput

/-- A call that reads or pushes back. -/
inductive InputOp where
  | ungetci (ch : Int)
  | ungetc (ch : Int)
  | ungetline (str : List Int)
  | unread (buf : List Int)
  | getline
  | getci
  | read (maxchars : Int)
  | fcanpb
  deriving DecidableEq, Repr

/-- The chars delivered and the descriptor. -/
def perform (host : Host) (f : Fd) : InputOp → Except FioErr (List Int × Fd)
  | .ungetci ch => do
      let f ← ungetci host f ch
      .ok ([], f)
  | .ungetc ch => do
      let f ← ungetc host f ch
      .ok ([], f)
  | .ungetline str => do
      let f ← ungetline host f str
      .ok ([], f)
  | .unread buf => do
      let f ← unread host f buf
      .ok ([], f)
  | .getline => do
      let (_, line, f) ← getline host f
      .ok (line, f)
  | .getci => do
      let (ch, f) ← getci host f
      .ok (ch.toList, f)
  | .read maxchars => do
      let (_, buffer, f) ← read host f maxchars
      .ok (buffer, f)
  | .fcanpb => .ok ([], fcanpb host f)

/-- The chars delivered are the next ones; none are only at the end of the
input. -/
def Delivers (s : PushedInput) (out : List Int) (limit : Int) (s' : PushedInput) :
    Prop :=
  out = s.all.take out.length ∧ s' = s.advance out.length ∧
    (out.length : Int) ≤ max 0 limit ∧ (0 < limit → out = [] → s.all = [])

/-- What a call may do to the abstract input. -/
def PushedInput.Step (s : PushedInput) : InputOp → List Int → PushedInput → Prop
  | .ungetci ch, out, s' => out = [] ∧ s' = s.push [Fmtio.short ch]
  | .ungetc ch, out, s' => out = [] ∧ s' = s.push [ch]
  | .ungetline str, out, s' => out = [] ∧ s' = s.push (beforeEos str)
  | .unread buf, out, s' => out = [] ∧ s' = s.push buf
  | .getline, out, s' => Delivers s out szLine s'
  | .getci, out, s' => Delivers s out 1 s'
  | .read maxchars, out, s' => Delivers s out maxchars s'
  | .fcanpb, out, s' => out = [] ∧ s' = s.cancel

/-- The descriptor stands for the abstract input. -/
def Holds (host : Host) (f : Fd) (s : PushedInput) : Prop :=
  ∃ levels base, PushedAt host f levels base s.pushed s.rest

variable (host : Host) {f g : Fd} {s : PushedInput}

/-! ## Pushing back -/

/-- A stream is not positioned before its buffer when it is interrupted. -/
def InPlace (f : Fd) : Prop := f.ffPushback = false → f.bufptr ≤ f.iop

variable {host}

theorem Holds.push (h : Holds host f s) (hpos : InPlace f) {chars : List Int}
    (hroom : (withPbbuf host f).fpbiop + chars.length ≤
      iopLimit host (withPbbuf host f)) :
    Holds host (pushChars (withPbbuf host f) chars) (s.push chars) := by
  obtain ⟨levels, base, hp⟩ := h
  obtain ⟨base', hw, hbuf, hlow⟩ := hp.withPbbuf
  refine ⟨_, base', hw.pushChars hbuf (fun hnil => ?_) hroom⟩
  refine hlow (hpos ?_)
  subst hnil
  exact hp.of_levels.1

theorem Holds.pushChar (h : Holds host f s) (hpos : InPlace f) (ch : Int) :
    pushChar host f ch = .error .fpbovfl ∨
      ∃ g, pushChar host f ch = .ok g ∧ Holds host g (s.push [ch]) := by
  unfold Fio.pushChar
  by_cases hover : (withPbbuf host f).fpbiop + 1 ≥ iopLimit host (withPbbuf host f)
  · exact .inl (if_pos hover)
  · refine .inr ⟨_, if_neg hover, h.push hpos ?_⟩
    show (withPbbuf host f).fpbiop + 1 ≤ iopLimit host (withPbbuf host f)
    omega

theorem Holds.unread (h : Holds host f s) (hpos : InPlace f) (buf : List Int) :
    unread host f buf = .error .fpbovfl ∨
      ∃ g, unread host f buf = .ok g ∧ Holds host g (s.push buf) := by
  unfold Fio.unread
  by_cases hover : iopLimit host (withPbbuf host f) - (withPbbuf host f).fpbiop <
      buf.length
  · exact .inl (if_pos hover)
  · exact .inr ⟨_, if_neg hover, h.push hpos (by omega)⟩

theorem copyLine_eq (limit : Int) (str : List Int) (pbIop : Int) (m : Memory Int) :
    copyLine limit str pbIop m = .error .fpbovfl ∨
      pbIop + str.length ≤ max pbIop limit ∧
        copyLine limit str pbIop m = .ok (pbIop + str.length, put m pbIop str) := by
  induction str generalizing pbIop m with
  | nil =>
      refine .inr ⟨by simp, ?_⟩
      rw [put_nil]
      simp [copyLine]
  | cons ch rest ih =>
      by_cases hover : pbIop ≥ limit
      · exact .inl (by simp only [copyLine, hover, if_true])
      · have hstep : copyLine limit (ch :: rest) pbIop m =
            copyLine limit rest (pbIop + 1) (put m pbIop [ch]) := by
          simp only [copyLine, hover, if_false]
        rw [hstep]
        refine (ih (pbIop + 1) (put m pbIop [ch])).imp id fun ⟨hle, hok⟩ => ⟨?_, ?_⟩
        · simp only [List.length_cons]
          omega
        · have hput : put (put m pbIop [ch]) (pbIop + 1) rest =
              put m pbIop ([ch] ++ rest) := put_append
          rw [hok, hput, List.singleton_append, List.length_cons]
          congr 2
          omega

theorem Holds.ungetline (h : Holds host f s) (str : List Int)
    (hpos : beforeEos str ≠ [] → InPlace f) :
    ungetline host f str = .error .fpbovfl ∨
      ∃ g, ungetline host f str = .ok g ∧ Holds host g (s.push (beforeEos str)) := by
  by_cases hnil : beforeEos str = []
  · refine .inr ⟨f, if_pos hnil, ?_⟩
    rw [hnil]
    exact h
  · have hlen : 0 < (beforeEos str).length := List.length_pos_iff.2 hnil
    rcases copyLine_eq (iopLimit host (withPbbuf host f)) (beforeEos str)
      (withPbbuf host f).fpbiop (withPbbuf host f).memc with herr | ⟨hle, hok⟩
    · left
      simp only [Fio.ungetline, hnil, if_false, herr, bind, Except.bind]
    · refine .inr ⟨_, ?_, h.push (hpos hnil) (by omega)⟩
      simp only [Fio.ungetline, hnil, if_false, hok, bind, Except.bind]
      rfl

/-! ## Reading -/

theorem Holds.fcanpb (h : Holds host f s) : Holds host (fcanpb host f) s.cancel := by
  obtain ⟨levels, base, hp⟩ := h
  exact ⟨[], base, hp.fcanpb⟩

theorem Holds.filbuf (h : Holds host f s) (htop : f.atTop) :
    ∃ n g, filbuf host f = .ok (n, g) ∧ Holds host g s ∧
      (n = EOF ∧ s.all = [] ∨ 0 < n ∧ n = g.itop - g.iop ∧ g.bufptr ≤ g.iop) := by
  obtain ⟨levels, base, hp⟩ := h
  obtain ⟨n, g, levels', base', hok, hg, hres⟩ := hp.filbuf htop
  refine ⟨n, g, hok, ⟨levels', base', hg⟩, hres.imp ?_ id⟩
  rintro ⟨hn, hpushed, hrest⟩
  exact ⟨hn, by rw [PushedInput.all, hpushed, hrest]; rfl⟩

theorem Holds.consume (h : Holds host f s) {k : Nat} (hk : 0 < k)
    (hin : f.bufptr ≤ f.iop) (hle : (k : Int) ≤ f.itop - f.iop) :
    fetch f.memc f.iop k = s.all.take k ∧ k ≤ s.all.length ∧
      Holds host { f with iop := f.iop + k } (s.advance k) := by
  obtain ⟨levels, base, hp⟩ := h
  obtain ⟨hfetch, hlen, base', hnext⟩ := hp.consume hk hin hle
  exact ⟨hfetch, hlen, levels, base', hnext⟩

theorem Holds.fnchars (h : Holds host f s) {x : Int} (hx : 0 ≤ x) (y : Int) :
    Holds host { f with filstat := y, fnchars := x } s := by
  obtain ⟨levels, base, hp⟩ := h
  have hsame : SameStream (f.atLevel base)
      (Fd.atLevel { f with filstat := y, fnchars := x } base) :=
    sameStream_atLevel rfl rfl rfl rfl rfl rfl rfl rfl rfl rfl hx rfl rfl rfl rfl
      fun _ _ _ => rfl
  exact ⟨levels, base, hp.saved, hp.pile, hp.flag, hp.stream.same hsame,
    hp.positioned, hp.allocated.same hsame.extent rfl rfl rfl rfl, hp.noBuffer,
    hp.bottom, hp.below⟩

theorem Holds.getci (h : Holds host f s) :
    ∃ ch g s', getci host f = .ok (ch, g) ∧ Holds host g s' ∧
      Delivers s ch.toList 1 s' := by
  have htake : ∀ {e : Fd}, Holds host e s → e.bufptr ≤ e.iop → e.iop < e.itop →
      Holds host { e with iop := e.iop + 1 } (s.advance 1) ∧
        Delivers s [e.memc e.iop] 1 (s.advance 1) := by
    intro e he hlow hlt
    obtain ⟨hfetch, hlen, hnext⟩ := he.consume one_pos hlow
      (show ((1 : Nat) : Int) ≤ e.itop - e.iop by omega)
    refine ⟨hnext, ?_, rfl, by simp, nofun⟩
    rw [List.length_singleton, ← hfetch, fetch_one]
  by_cases htop : f.atTop
  · obtain ⟨n, g, hok, hg, hres⟩ := h.filbuf htop
    rcases hres with ⟨rfl, hall⟩ | ⟨hpos, hn, hlow⟩
    · refine ⟨none, g, s, ?_, hg, by simp, (s.advance_zero).symm, by simp,
        fun _ _ => hall⟩
      simp only [Fio.getci, htop, if_true, hok, bind, Except.bind]
    · have heof : n ≠ EOF := by simp only [EOF]; omega
      obtain ⟨hnext, hdel⟩ := htake hg hlow (by omega)
      refine ⟨some (g.memc g.iop), _, _, ?_, hnext, hdel⟩
      simp only [Fio.getci, htop, if_true, hok, bind, Except.bind, heof, if_false]
  · have hin := htop
    rw [atTop_iff] at hin
    obtain ⟨hnext, hdel⟩ := htake h (by omega) (by omega)
    refine ⟨some (f.memc f.iop), _, _, ?_, hnext, hdel⟩
    have hzero : (0 : Int) ≠ EOF := by decide
    simp only [Fio.getci, htop, Bool.false_eq_true, if_false, bind, Except.bind,
      hzero]

theorem Holds.refill (h : Holds host f s) {maxchars maxch nchars : Int}
    (hlt : nchars < maxch) (hmax : maxch ≤ maxchars) :
    ∃ r g, refill host f maxchars maxch nchars = .ok (r, g) ∧ Holds host g s ∧
      (r = none ∧ s.all = [] ∨ ∃ maxch', r = some maxch' ∧ nchars < maxch' ∧
        maxch' ≤ maxchars ∧ g.bufptr ≤ g.iop ∧ g.iop < g.itop) := by
  by_cases htop : f.atTop
  · obtain ⟨n, g, hok, hg, hres⟩ := h.filbuf htop
    rcases hres with ⟨rfl, hall⟩ | ⟨hpos, hn, hlow⟩
    · refine ⟨none, g, ?_, hg, .inl ⟨rfl, hall⟩⟩
      simp only [Fio.refill, htop, if_true, hok, bind, Except.bind]
    · have heof : n ≠ EOF := by simp only [EOF]; omega
      by_cases hshort : g.itop < g.buftop ∨ g.stream = true
      · refine ⟨some (min maxchars (nchars + n)), g, ?_, hg,
          .inr ⟨_, rfl, by omega, by omega, hlow, by omega⟩⟩
        simp only [Fio.refill, htop, if_true, hok, bind, Except.bind, heof, if_false,
          hshort]
      · refine ⟨some maxch, g, ?_, hg, .inr ⟨_, rfl, hlt, hmax, hlow, by omega⟩⟩
        simp only [Fio.refill, htop, if_true, hok, bind, Except.bind, heof, if_false,
          hshort]
  · have hin := htop
    rw [atTop_iff] at hin
    refine ⟨some maxch, f, ?_, h, .inr ⟨_, rfl, hlt, hmax, by omega, by omega⟩⟩
    simp only [Fio.refill, htop, Bool.false_eq_true, if_false]

theorem Holds.readLoop (maxchars : Int) (fuel : Nat) (maxch : Int)
    (buffer : List Int) (h : Holds host f s) (hmax : maxch ≤ maxchars) :
    ∃ out g, readLoop host maxchars fuel f maxch buffer = .ok (buffer ++ out, g) ∧
      Holds host g (s.advance out.length) ∧ out = s.all.take out.length ∧
      (out ≠ [] → (buffer.length + out.length : Int) ≤ maxchars) ∧
      (0 < fuel → (buffer.length : Int) < maxch → out = [] → s.all = []) := by
  induction fuel generalizing f s maxch buffer with
  | zero =>
      refine ⟨[], f, by simp [Fio.readLoop], ?_, rfl, by simp, by omega⟩
      rw [List.length_nil, s.advance_zero]
      exact h
  | succ fuel ih =>
      by_cases hlt : (buffer.length : Int) < maxch
      · obtain ⟨r, g, hok, hg, hres⟩ := h.refill hlt hmax
        rcases hres with ⟨rfl, hall⟩ | ⟨maxch', rfl, hlt', hmax', hlow, hin⟩
        · refine ⟨[], g, ?_, ?_, rfl, by simp, fun _ _ _ => hall⟩
          · simp only [Fio.readLoop, hlt, if_true, hok, bind, Except.bind,
              List.append_nil]
          · rw [List.length_nil, s.advance_zero]
            exact hg
        · generalize hk : min (maxch' - buffer.length) (g.itop - g.iop) = k
          have hkpos : ¬k ≤ 0 := by omega
          obtain ⟨n, rfl⟩ : ∃ n : Nat, k = n := ⟨k.toNat, by omega⟩
          obtain ⟨hfetch, hlen, hnext⟩ := hg.consume (k := n) (by omega) hlow
            (by omega)
          have hnlen : (fetch g.memc g.iop n).length = n := length_fetch
          obtain ⟨out, e, hrun, he, hout, hbound, -⟩ := ih maxch'
            (buffer ++ fetch g.memc g.iop n) hnext hmax'
          refine ⟨fetch g.memc g.iop n ++ out, e, ?_, ?_, ?_, fun _ => ?_,
            fun _ _ hnil => ?_⟩
          · rw [← List.append_assoc, ← hrun]
            simp only [Fio.readLoop, hlt, if_true, hok, bind, Except.bind, hk, hkpos,
              if_false, Int.toNat_natCast]
          · rw [List.length_append, hnlen, ← s.advance_advance]
            exact he
          · rw [s.all_advance] at hout
            rw [List.length_append, hnlen, List.take_add, ← hfetch, ← hout]
          · rw [List.length_append, hnlen]
            rw [List.length_append, hnlen] at hbound
            by_cases hnil : out = []
            · rw [hnil, List.length_nil]
              omega
            · have := hbound hnil
              omega
          · have hzero := congrArg List.length hnil
            rw [List.length_append, hnlen, List.length_nil] at hzero
            omega
      · refine ⟨[], f, by simp [Fio.readLoop, hlt], ?_, rfl, by simp,
          fun _ hlt' => absurd hlt' hlt⟩
        rw [List.length_nil, s.advance_zero]
        exact h

theorem Holds.read (h : Holds host f s) (maxchars : Int) :
    ∃ status out g s', read host f maxchars = .ok (status, out, g) ∧
      Holds host g s' ∧ Delivers s out maxchars s' := by
  obtain ⟨out, g, hrun, hg, hout, hbound, hend⟩ :=
    h.readLoop maxchars maxchars.toNat maxchars [] le_rfl
  rw [List.nil_append] at hrun
  have hpos : 0 < maxchars → 0 < maxchars.toNat ∧ ((0 : Nat) : Int) < maxchars :=
    fun hpos => by omega
  refine ⟨if (out.length : Int) = 0 then EOF else out.length, out, _,
    s.advance out.length, ?_,
    hg.fnchars (Int.natCast_nonneg out.length) out.length, hout, rfl, ?_, fun h =>
      hend (hpos h).1 (hpos h).2⟩
  · simp only [Fio.read, hrun, bind, Except.bind]
  · by_cases hnil : out = []
    · rw [hnil]
      simp
    · have := hbound hnil
      simp only [List.length_nil] at this
      omega

theorem Holds.fillLine {ip ipTop : Int} {fault : Bool}
    (h : Holds host { f with iop := ip } s) (htop : ipTop = f.itop)
    (hfault : fault = true → ip < f.bufptr) (hin : fault = false → f.bufptr ≤ ip) :
    ∃ status g ip', fillLine host f ip ipTop fault = .ok (status, g, ip', g.itop) ∧
      Holds host { g with iop := ip' } s ∧
      (status.any (· ≤ 0) = true ∧ s.all = [] ∨
        status.any (· ≤ 0) = false ∧ g.bufptr ≤ ip' ∧ ip' < g.itop) := by
  subst htop
  by_cases hcond : (fault || decide (ip ≥ f.itop)) = true
  · have htop : Fd.atTop { f with iop := ip } := by
      rw [atTop_iff]
      cases fault with
      | true => exact .inl (hfault rfl)
      | false => exact .inr (by simpa using hcond)
    obtain ⟨n, g, hok, hg, hres⟩ := h.filbuf htop
    refine ⟨some n, g, g.iop, ?_, hg, hres.imp ?_ ?_⟩
    · simp only [Fio.fillLine, hcond, if_true, hok, bind, Except.bind]
    · rintro ⟨rfl, hall⟩
      exact ⟨by decide, hall⟩
    · rintro ⟨hpos, hn, hlow⟩
      exact ⟨by simpa using hpos, hlow, by omega⟩
  · refine ⟨none, f, ip, ?_, h, .inr ⟨rfl, hin ?_, ?_⟩⟩
    · simp only [Fio.fillLine, hcond, Bool.false_eq_true, if_false]
    · cases fault with
      | true => exact absurd rfl hcond
      | false => rfl
    · cases fault with
      | true => exact absurd rfl hcond
      | false => simpa using hcond

theorem Holds.getlineLoop (fuel : Nat) {ip ipTop : Int} {fault : Bool}
    (line : List Int) (h : Holds host { f with iop := ip } s) (htop : ipTop = f.itop)
    (hfault : fault = true → ip < f.bufptr) (hin : fault = false → f.bufptr ≤ ip) :
    ∃ out g, getlineLoop host fuel f ip ipTop fault line = .ok (line ++ out, g) ∧
      Holds host g (s.advance out.length) ∧ out = s.all.take out.length ∧
      out.length ≤ fuel ∧ (0 < fuel → out = [] → s.all = []) := by
  induction fuel generalizing f s ip ipTop fault line with
  | zero =>
      refine ⟨[], { f with iop := ip }, by simp [Fio.getlineLoop], ?_, rfl, by simp,
        by omega⟩
      rw [List.length_nil, s.advance_zero]
      exact h
  | succ fuel ih =>
      obtain ⟨status, g, ip', hok, hg, hres⟩ := h.fillLine htop hfault hin
      rcases hres with ⟨hstop, hall⟩ | ⟨hgo, hlow, hlt⟩
      · refine ⟨[], { g with iop := ip' }, ?_, ?_, rfl, by simp, fun _ _ => hall⟩
        · simp only [Fio.getlineLoop, hok, hstop, if_true, bind, Except.bind,
            List.append_nil]
        · rw [List.length_nil, s.advance_zero]
          exact hg
      · obtain ⟨hfetch, -, hnext⟩ := hg.consume one_pos hlow
          (show ((1 : Nat) : Int) ≤ g.itop - ip' by omega)
        have hch : [g.memc ip'] = s.all.take 1 := by
          rw [← hfetch, fetch_one]
        by_cases hnl : g.memc ip' = NEWLINE
        · refine ⟨[g.memc ip'], { g with iop := ip' + 1 }, ?_, hnext, hch, by simp,
            nofun⟩
          simp only [Fio.getlineLoop, hok, hgo, hnl, if_true, bind, Except.bind,
            Bool.false_eq_true, if_false]
        · have hnext' : Holds host { g with iop := ip' + 1 } (s.advance 1) := hnext
          obtain ⟨out, e, hrun, he, hout, hlen, -⟩ := ih (line ++ [g.memc ip']) hnext'
            (show g.itop = g.itop from rfl) (show false = true → _ from nofun)
            fun _ => show g.bufptr ≤ ip' + 1 by omega
          refine ⟨g.memc ip' :: out, e, ?_, ?_, ?_, by simpa using hlen, nofun⟩
          · rw [List.append_cons, ← hrun]
            simp only [Fio.getlineLoop, hok, hgo, hnl, bind, Except.bind,
              Bool.false_eq_true, if_false]
          · rw [s.advance_advance, Nat.add_comm] at he
            exact he
          · rw [s.all_advance] at hout
            rw [List.length_cons, Nat.add_comm, List.take_add, ← hch, ← hout]
            rfl

theorem Holds.getDevice (h : Holds host f s) (htext : f.ftype = .text)
    (htop : f.iop = f.itop) (hflag : f.ffPushback = false) {maxch : Int}
    (hpos : 0 < maxch) {n : Nat} (hn : host.give f.chan maxch = n) :
    Holds host { f with chan := f.chan.drop n } (s.advance n) ∧
      f.chan.take n = s.all.take n ∧ n ≤ f.chan.length ∧ (n : Int) ≤ maxch ∧
      (n = 0 → s.all = []) := by
  obtain ⟨levels, base, hp⟩ := h
  obtain rfl : levels = [] := by
    by_contra hne
    rw [hp.flag.2 hne] at hflag
    cases hflag
  obtain ⟨-, -, hpushed, hs, -⟩ := hp.of_levels
  have hle := host.give_le f.chan maxch
  have hlemax := host.give_le_maxch f.chan maxch
  have hgive := host.give_pos f.chan maxch
  rw [hn] at hle hlemax hgive
  have hseq : Sequential f s.rest := by
    cases hs with
    | random content p h hrest =>
        rw [h.idle.binary] at htext
        cases htext
    | sequential h => exact h
    | inMemory h => rcases h.kind with hk | hk <;> rw [hk] at htext <;> cases htext
  have hrest := hseq.rest_of_top htop.ge
  have hall : s.all = f.chan := by rw [PushedInput.all, hpushed, List.nil_append, hrest]
  have hadv : s.advance n = ⟨[], f.chan.drop n⟩ := by
    rw [PushedInput.advance, hpushed, hrest, List.drop_nil, List.length_nil, Nat.sub_zero]
  refine ⟨?_, by rw [hall], hle, by omega, fun hzero => ?_⟩
  · rw [hadv]
    refine ⟨[], _, hp.base_changed (.sequential ?_) ⟨rfl, rfl, rfl, rfl, rfl, rfl, rfl,
      rfl, rfl, rfl, rfl, rfl, rfl, rfl, rfl, rfl⟩ ⟨rfl, rfl⟩⟩
    have hzero : (f.itop - f.iop).toNat = 0 := by omega
    exact
      { hseq with
        rest_eq := by
          rw [hzero, fetch_zero, List.nil_append] }
  · rw [hall]
    by_contra hne
    exact absurd (hgive hne hpos) (by omega)

theorem Holds.getline (h : Holds host f s) :
    ∃ status out g s', getline host f = .ok (status, out, g) ∧ Holds host g s' ∧
      Delivers s out szLine s' := by
  by_cases hdirect : f.ftype = .text ∧ f.iop = f.itop ∧ f.ffPushback = false
  · generalize hn : host.give f.chan (if f.ffRaw then 1 else (szLine : Int)) = n
    have hmax : 0 < (if f.ffRaw then 1 else (szLine : Int)) ∧
        (if f.ffRaw then 1 else (szLine : Int)) ≤ szLine := by
      split <;> decide
    obtain ⟨hg, htake, hlen, hle, hend⟩ := h.getDevice hdirect.1 hdirect.2.1
      hdirect.2.2 hmax.1 hn
    have hlength : (f.chan.take n).length = n := by
      rw [List.length_take]
      omega
    refine ⟨if (n : Int) = 0 then EOF else n, f.chan.take n, _, s.advance n, ?_,
      hg.fnchars (Int.natCast_nonneg n) f.filstat, ?_, ?_, ?_, fun _ hnil => hend ?_⟩
    · simp only [Fio.getline, hdirect, and_self, if_true, hn, bind, Except.bind,
        hlength]
    · rw [hlength, htake]
    · rw [hlength]
    · omega
    · rw [hnil] at hlength
      exact hlength.symm
  · have hloop : Holds host { f with iop := f.iop } s := h
    obtain ⟨out, g, hrun, hg, hout, hlen, hend⟩ := hloop.getlineLoop szLine
      (show List Int from []) rfl (show decide (f.iop < f.bufptr) = true → _ by simp)
      (by simp)
    rw [List.nil_append] at hrun
    refine ⟨if (out.length : Int) = 0 then EOF else out.length, out, _,
      s.advance out.length, ?_, hg.fnchars (Int.natCast_nonneg out.length) g.filstat,
      hout, rfl, by omega, fun _ => hend (by decide)⟩
    simp only [Fio.getline, hdirect, if_false, hrun, bind, Except.bind]

/-! ## Runs -/

namespace InputOp

/-- The call pushes back; `ungetline` does nothing with no text. -/
def pushes : InputOp → Bool
  | .ungetci _ | .ungetc _ | .unread _ => true
  | .ungetline str => decide (beforeEos str ≠ [])
  | .getline | .getci | .read _ | .fcanpb => false

end InputOp

/-- No call of the run interrupts a stream that is positioned before its buffer. -/
def InPlaceRun (host : Host) (f : Fd) : List InputOp → Prop
  | [] => True
  | op :: ops =>
      (op.pushes = true → InPlace f) ∧
        match perform host f op with
        | .ok (_, g) => InPlaceRun host g ops
        | .error _ => True

/-- Each call of the run does what it does to the abstract input, until the
pushback buffer overflows. -/
def Follows (host : Host) (f : Fd) (s : PushedInput) : List InputOp → Prop
  | [] => True
  | op :: ops =>
      match perform host f op with
      | .ok (out, g) => ∃ s', s.Step op out s' ∧ Follows host g s' ops
      | .error e => op.pushes = true ∧ e = .fpbovfl

/-- A stream with nothing pushed back onto it. -/
structure Unpushed (host : Host) (f : Fd) (rest : List Int) : Prop where
  stream : Stream f rest
  ffPushback : f.ffPushback = false
  allocated : Allocated f
  idle : f.fpbbuf ≠ 0 → f.fpbiop = f.fpbbuf ∧ f.fpbsp = stackTop host f

theorem Unpushed.holds (h : Unpushed host f s.rest) (hnil : s.pushed = []) :
    Holds host f s := by
  have hlevel := Fd.atLevel_level h.ffPushback
  rw [Holds, hnil]
  exact
    ⟨[], f.level,
      { saved := trivial
        pile := .base _
        flag := by simp [h.ffPushback]
        stream := by rw [hlevel]; exact h.stream
        positioned := nofun
        allocated := by rw [hlevel]; exact h.allocated
        noBuffer := fun _ => rfl
        bottom := fun hne => ⟨(h.idle hne).1, by simp [(h.idle hne).2]⟩
        below := nofun }⟩

theorem Holds.step (h : Holds host f s) (op : InputOp)
    (hpos : op.pushes = true → InPlace f) :
    op.pushes = true ∧ perform host f op = .error .fpbovfl ∨
      ∃ out g s', perform host f op = .ok (out, g) ∧ s.Step op out s' ∧
        Holds host g s' := by
  cases op with
  | ungetci ch =>
      refine (h.pushChar (hpos rfl) (Fmtio.short ch)).imp (fun herr => ⟨rfl, ?_⟩)
        fun ⟨g, hok, hg⟩ => ⟨[], g, _, ?_, ⟨rfl, rfl⟩, hg⟩
      · simp only [perform, Fio.ungetci, herr, bind, Except.bind]
      · simp only [perform, Fio.ungetci, hok, bind, Except.bind]
  | ungetc ch =>
      refine (h.pushChar (hpos rfl) ch).imp (fun herr => ⟨rfl, ?_⟩)
        fun ⟨g, hok, hg⟩ => ⟨[], g, _, ?_, ⟨rfl, rfl⟩, hg⟩
      · simp only [perform, Fio.ungetc, herr, bind, Except.bind]
      · simp only [perform, Fio.ungetc, hok, bind, Except.bind]
  | ungetline str =>
      have hpush : ∀ hne : beforeEos str ≠ [], (InputOp.ungetline str).pushes = true :=
        fun hne => decide_eq_true hne
      by_cases hnil : beforeEos str = []
      · refine .inr ⟨[], f, s.push (beforeEos str), ?_, ⟨rfl, rfl⟩, ?_⟩
        · simp only [perform, Fio.ungetline, hnil, if_true, bind, Except.bind]
        · rw [hnil]
          exact h
      · refine (h.ungetline str fun hne => hpos (hpush hne)).imp
          (fun herr => ⟨hpush hnil, ?_⟩)
          fun ⟨g, hok, hg⟩ => ⟨[], g, _, ?_, ⟨rfl, rfl⟩, hg⟩
        · simp only [perform, herr, bind, Except.bind]
        · simp only [perform, hok, bind, Except.bind]
  | unread buf =>
      refine (h.unread (hpos rfl) buf).imp (fun herr => ⟨rfl, ?_⟩)
        fun ⟨g, hok, hg⟩ => ⟨[], g, _, ?_, ⟨rfl, rfl⟩, hg⟩
      · simp only [perform, herr, bind, Except.bind]
      · simp only [perform, hok, bind, Except.bind]
  | getline =>
      obtain ⟨status, out, g, s', hok, hg, hdel⟩ := h.getline
      refine .inr ⟨out, g, s', ?_, hdel, hg⟩
      simp only [perform, hok, bind, Except.bind]
  | getci =>
      obtain ⟨ch, g, s', hok, hg, hdel⟩ := h.getci
      refine .inr ⟨ch.toList, g, s', ?_, hdel, hg⟩
      simp only [perform, hok, bind, Except.bind]
  | read maxchars =>
      obtain ⟨status, out, g, s', hok, hg, hdel⟩ := h.read maxchars
      refine .inr ⟨out, g, s', ?_, hdel, hg⟩
      simp only [perform, hok, bind, Except.bind]
  | fcanpb => exact .inr ⟨[], _, _, rfl, ⟨rfl, rfl⟩, h.fcanpb⟩

theorem Holds.follows (h : Holds host f s) (ops : List InputOp)
    (hplace : InPlaceRun host f ops) : Follows host f s ops := by
  induction ops generalizing f s with
  | nil => exact trivial
  | cons op ops ih =>
      obtain ⟨hpos, hnext⟩ := hplace
      rcases h.step op hpos with ⟨hpush, herr⟩ | ⟨out, g, s', hok, hstep, hg⟩
      · rw [Follows, herr]
        exact ⟨hpush, rfl⟩
      · rw [hok] at hnext
        rw [Follows, hok]
        exact ⟨s', hstep, ih hg hnext⟩

/-- In every run each call does to the descriptor what it does to the abstract
input, provided that no pushback interrupts the stream while it is positioned
before the chars of its buffer. -/
theorem pushed_back_input (host : Host) (f : Fd) (rest : List Int)
    (h : Unpushed host f rest) (ops : List InputOp)
    (hplace : InPlaceRun host f ops) : Follows host f ⟨[], rest⟩ ops :=
  Holds.follows (h.holds rfl) ops hplace

/-- The first char is read, pushed back with two more, and all is read again. -/
def pushAndRead : List InputOp :=
  [.getci, .ungetci 7, .unread [5, 6], .read 2, .getline]

theorem pushed_back_input_three :
    Follows plainHost (openFile 2 2 threeChars) ⟨[], threeChars.content⟩ pushAndRead := by
  have hopen := opened_openFile (show (0 : Int) < 2 by decide) 2 threeChars
  obtain ⟨hrep, -⟩ := hopen.represents ⟨fun _ => by decide, fun h => absurd h (by decide)⟩
  exact pushed_back_input plainHost _ _
    ⟨.random _ 0 hrep rfl, rfl, ⟨by decide, by decide, nofun⟩, nofun⟩ pushAndRead
    ⟨nofun, fun _ => by unfold InPlace; decide, fun _ => by unfold InPlace; decide,
      nofun, nofun, trivial⟩

/-- The last block of a file is in the buffer and the position is that of the
first char. -/
def soughtBack : Fd :=
  match read plainHost (openFile 2 2 threeChars) 3 with
  | .ok (_, _, f) => seek plainHost f BOF
  | .error _ => openFile 2 2 threeChars

theorem soughtBack_stands : Stands soughtBack ((threeChars.read 3).seek BOF) := by
  have hopen := opened_openFile (show (0 : Int) < 2 by decide) 2 threeChars
  obtain ⟨hrep, hpl⟩ :=
    hopen.represents ⟨fun _ => by decide, fun h => absurd h (by decide)⟩
  have hstands : Stands (openFile 2 2 threeChars) threeChars := ⟨hrep, hpl, rfl, rfl⟩
  obtain ⟨f, hread, -, hf⟩ := @Stands.step plainHost _ _ hstands (.read 3) nofun
  obtain ⟨g, hseek, -, hg⟩ := @Stands.step plainHost _ _ hf (.seek BOF)
    fun offset h => by cases h; exact .inl rfl
  have hsought : soughtBack = g := by
    unfold soughtBack
    simp only [execute, bind, Except.bind] at hread hseek
    split at hread <;> simp_all
  rw [hsought]
  exact hg

/-- The char pushed back is read, and the char read after it is the cell before
the buffer. -/
theorem not_follows_soughtBack :
    Unpushed plainHost soughtBack threeChars.content ∧
      ¬Follows plainHost soughtBack ⟨[], threeChars.content⟩
        [.ungetci 5, .getci, .getci] := by
  have hs := soughtBack_stands
  refine ⟨⟨.random _ _ hs.represents rfl, hs.noPushback,
    ⟨by decide, by decide, nofun⟩, nofun⟩, ?_⟩
  rintro ⟨_, ⟨_, rfl⟩, _, ⟨-, rfl, -⟩, _, ⟨hout, -⟩, -⟩
  exact absurd hout (by decide)

end Iraf.Fio
