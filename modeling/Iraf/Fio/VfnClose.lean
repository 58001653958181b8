import Iraf.Fio.VfnUpdate

/-!
# Rolling an update back

If the lock has not expired, what is written is the table that was read with the operation applied
to it.  After a rollback the local pointer to the descriptor is NULL, and what is written is the
memory there.
-/

namespace Iraf.Vfn

variable {host : Host} {vfd : Vfd} {maxch fuel time : Nat} {s s' : State} {op : Pending}
  {osfn : Name} {status : Bool} {r : Reading} {chan locktime mfd : Int} {e : VfnError}

/-! ## What the operations leave -/

/-- The operations do not change the mapping file, nor the memory at NULL. -/
structure Quiet (s s' : State) : Prop where
  log : s'.log = s.log
  null : s'.null = s.null

theorem Quiet.rfl (s : State) : Quiet s s := ⟨Eq.refl _, Eq.refl _⟩

theorem Quiet.trans {s s' s'' : State} (h : Quiet s s') (h' : Quiet s' s'') : Quiet s s'' :=
  ⟨h'.log.trans h.log, h'.null.trans h.null⟩

theorem readOpened_quiet (hwrite : vfd.acmode = .write) :
    Quiet s (readOpened host vfd r chan locktime s).2 := by
  unfold readOpened
  split
  · exact ⟨rfl, rfl⟩
  · rw [if_pos hwrite]
    exact ⟨rfl, rfl⟩

theorem vvfnReadmapfile_quiet (hwrite : vfd.acmode = .write) :
    Quiet s (vvfnReadmapfile host vfd s).2 := by
  simp only [vvfnReadmapfile, hwrite, if_true]
  split
  · split
    · exact ⟨rfl, rfl⟩
    · exact ⟨rfl, rfl⟩
    · refine Quiet.trans ?_ (readOpened_quiet hwrite)
      exact ⟨rfl, rfl⟩
  · split
    · exact ⟨rfl, rfl⟩
    · exact ⟨rfl, rfl⟩
    · refine Quiet.trans ?_ (readOpened_quiet hwrite)
      exact ⟨rfl, rfl⟩

theorem addPair_quiet (fname : Name) : Quiet s (addPair vfd maxch fname s).2 := by
  unfold addPair
  simp only
  split <;> exact ⟨rfl, rfl⟩

theorem vfnEnter_quiet (present : Name → Bool) : Quiet s (vfnEnter vfd maxch present s).2 := by
  unfold vfnEnter
  simp only
  split
  · split
    · split
      · exact ⟨rfl, rfl⟩
      · refine Quiet.trans ?_ (addPair_quiet _)
        exact ⟨rfl, rfl⟩
    · exact ⟨rfl, rfl⟩
  · exact addPair_quiet _

theorem vfnmap_quiet (hwrite : vfd.acmode = .write) : Quiet s (vfnmap host vfd maxch s).2 := by
  have hread := @vvfnReadmapfile_quiet host vfd s hwrite
  unfold vfnmap
  split
  · rcases hresult : vvfnReadmapfile host vfd s with ⟨_ | _, s'⟩
    · rwa [hresult] at hread
    · rw [hresult] at hread
      exact ⟨hread.log, hread.null⟩
  · exact Quiet.rfl s

theorem vfnadd_quiet (hwrite : vfd.acmode = .write) : Quiet s (vfnadd host vfd maxch s).2 := by
  have hmap := @vfnmap_quiet host vfd maxch s hwrite
  unfold vfnadd
  rcases hresult : vfnmap host vfd maxch s with ⟨_ | ⟨osfn, _ | _⟩, s'⟩
  · rwa [hresult] at hmap
  · rw [hresult] at hmap
    have henter := @vfnEnter_quiet vfd maxch s'.tick (host.present s'.time)
    simp only
    rcases hentered : vfnEnter vfd maxch (host.present s'.time) s'.tick with ⟨_ | _, s''⟩
    · rw [hentered] at henter
      exact hmap.trans ⟨henter.log, henter.null⟩
    · rw [hentered] at henter
      exact hmap.trans ⟨henter.log, henter.null⟩
  · rw [hresult] at hmap
    simp only
    split
    · exact hmap
    · exact ⟨hmap.log, hmap.null⟩

theorem vfndel_quiet (hwrite : vfd.acmode = .write) : Quiet s (vfndel host vfd maxch s).2 := by
  have hmap := @vfnmap_quiet host vfd maxch s hwrite
  unfold vfndel
  rcases hresult : vfnmap host vfd maxch s with ⟨_ | ⟨osfn, _ | _⟩, s'⟩
  · rwa [hresult] at hmap
  · rwa [hresult] at hmap
  · rw [hresult] at hmap
    simp only
    split
    · exact ⟨hmap.log, hmap.null⟩
    · exact hmap

/-! ## What is read -/

/-- The mapping file has been read by a channel that was opened at a moment. -/
structure ReadAt (host : Host) (time : Nat) (s : State) : Prop where
  chan : (host.reading time).chan = some s.lastRead.chan
  opened : s.vMfd ≠ 0

/-- The descriptor still has the channel and the lock of the last reading. -/
structure Locked (s : State) : Prop where
  chan : s.mfd.chan = s.lastRead.chan
  locktime : s.mfd.locktime = s.lastRead.locktime

theorem readOpened_ok (hwrite : vfd.acmode = .write)
    (h : readOpened host vfd r chan locktime s = (.ok (), s')) :
    s'.mfd = s'.lastRead ∧ s'.lastRead.chan = chan ∧ s'.vMfd = s.vMfd := by
  unfold readOpened at h
  split at h
  · cases h
  · rw [if_pos hwrite] at h
    cases h
    exact ⟨rfl, rfl, rfl⟩

theorem vvfnReadmapfile_ok (hwrite : vfd.acmode = .write)
    (h : vvfnReadmapfile host vfd s = (.ok (), s')) :
    s'.mfd = s'.lastRead ∧ ReadAt host s.time s' := by
  simp only [vvfnReadmapfile, hwrite, if_true] at h
  have hread : ∀ {chan locktime t}, (host.reading s.time).chan = some chan →
      t.vMfd = host.calloc s.time →
      readOpened host vfd (host.reading s.time) chan locktime t = (.ok (), s') →
      s'.mfd = s'.lastRead ∧ ReadAt host s.time s' := by
    intro chan locktime t hchan hmfd hrun
    obtain ⟨hsame, rfl, hvMfd⟩ := readOpened_ok hwrite hrun
    exact ⟨hsame, hchan, hvMfd.trans hmfd ▸ host.calloc_ne _⟩
  split at h
  · split at h
    · cases h
    · cases h
    next hchan => exact hread hchan rfl h
  · split at h
    · cases h
    · cases h
    next hchan _ => exact hread hchan rfl h

theorem vfnmap_ok (hwrite : vfd.acmode = .write) (hlong : vfd.longroot = true)
    (h : vfnmap host vfd maxch s = (.ok (osfn, status), s')) :
    Locked s' ∧ ReadAt host s.time s' ∧ s'.mfd.pairs = s'.lastRead.pairs ∧
      (status = true → ∃ fn, findVfn s'.mfd vfd.vfn = some fn) := by
  rw [vfnmap, if_pos hlong] at h
  rcases hresult : vvfnReadmapfile host vfd s with ⟨_ | _, t⟩
  · rw [hresult] at h
    cases h
  · rw [hresult] at h
    obtain ⟨hsame, hread⟩ := vvfnReadmapfile_ok hwrite hresult
    have hchan : t.mfd.chan = t.lastRead.chan := congrArg Mfd.chan hsame
    have hlock : t.mfd.locktime = t.lastRead.locktime := congrArg Mfd.locktime hsame
    have hpairs : t.mfd.pairs = t.lastRead.pairs := congrArg Mfd.pairs hsame
    cases h
    refine ⟨⟨hchan, hlock⟩, ⟨hread.chan, hread.opened⟩, hpairs, fun hfound => ?_⟩
    cases hfind : findVfn t.mfd vfd.vfn with
    | none => simp [vfnGetosfn, hfind] at hfound
    | some fn => exact ⟨fn, hfind⟩

/-! ## The pending operation -/

/-- What is pending when the operation has succeeded. -/
structure Pends (op : Pending) (vfd : Vfd) (s : State) : Prop where
  locked : Locked s
  opened : s.vMfd ≠ 0
  modified : s.mfd.modified = true
  lastop : s.mfd.lastop = match op with
    | .add => vAdd
    | .del => vDel
  applied : op.Applied vfd s.lastRead.pairs s.mfd.pairs

theorem Pends.elsewhere (h : Pends op vfd s) (null : Mfd) (time : Nat) :
    Pends op vfd { s with null, time } :=
  ⟨⟨h.locked.chan, h.locked.locktime⟩, h.opened, h.modified, h.lastop, h.applied⟩

theorem addPair_kept (vfd : Vfd) (maxch : Nat) (fname : Name) (s : State) :
    (addPair vfd maxch fname s).2.lastRead = s.lastRead ∧
      (addPair vfd maxch fname s).2.vMfd = s.vMfd ∧
      (addPair vfd maxch fname s).2.mfd.chan = s.mfd.chan ∧
      (addPair vfd maxch fname s).2.mfd.locktime = s.mfd.locktime := by
  unfold addPair
  simp only
  split <;> exact ⟨rfl, rfl, rfl, rfl⟩

theorem vfnEnter_kept (vfd : Vfd) (maxch : Nat) (present : Name → Bool) (s : State) :
    (vfnEnter vfd maxch present s).2.lastRead = s.lastRead ∧
      (vfnEnter vfd maxch present s).2.vMfd = s.vMfd := by
  unfold vfnEnter
  simp only
  split
  · split
    · split
      · exact ⟨rfl, rfl⟩
      · obtain ⟨hlast, hvMfd, -⟩ := addPair_kept vfd maxch _ _
        exact ⟨hlast, hvMfd⟩
    · exact ⟨rfl, rfl⟩
  · obtain ⟨hlast, hvMfd, -⟩ := addPair_kept vfd maxch (firstName vfd) s
    exact ⟨hlast, hvMfd⟩

theorem addPair_modified {fname : Name} (hroom : s.mfd.nfiles < maxLongfnames) :
    (addPair vfd maxch fname s).2.mfd.modified = true ∧
      (addPair vfd maxch fname s).2.mfd.lastop = vAdd := by
  have hroom' : ¬ s.mfd.nfiles + 1 > maxLongfnames := by omega
  have hrun : addPair vfd maxch fname s = (.ok (osfnPkfname fname maxch), _) := if_neg hroom'
  rw [hrun]
  exact ⟨rfl, rfl⟩

theorem addPair_pends {fname : Name} (hlocked : Locked s) (hopened : s.vMfd ≠ 0)
    (hpairs : s.mfd.pairs = s.lastRead.pairs)
    (h : addPair vfd maxch fname s = (.ok osfn, s')) : Pends .add vfd s' := by
  by_cases hroom : s.mfd.nfiles < maxLongfnames
  · have hadded := (@addPair_room vfd maxch fname s hroom).2
    obtain ⟨hlast, hvMfd, hchan, hlock⟩ := addPair_kept vfd maxch fname s
    obtain ⟨hmodified, hlastop⟩ := @addPair_modified vfd maxch s fname hroom
    rw [h] at hadded hlast hvMfd hchan hlock hmodified hlastop
    simp only at hadded hlast hvMfd hchan hlock hmodified hlastop
    rw [hpairs, ← hlast] at hadded
    refine ⟨⟨?_, ?_⟩, ?_, hmodified, hlastop, recorded vfd fname, hadded⟩
    · rw [hchan, hlast, hlocked.chan]
    · rw [hlock, hlast, hlocked.locktime]
    · rwa [hvMfd]
  · have hfull := (@addPair_full vfd maxch fname s hroom).1
    rw [h] at hfull
    cases hfull

theorem vfnEnter_pends {present : Name → Bool} (hlocked : Locked s) (hopened : s.vMfd ≠ 0)
    (hpairs : s.mfd.pairs = s.lastRead.pairs)
    (h : vfnEnter vfd maxch present s = (.ok osfn, s')) : Pends .add vfd s' := by
  unfold vfnEnter at h
  simp only at h
  split at h
  · split at h
    · split at h
      · cases h
      · refine addPair_pends ?_ ?_ ?_ h
        · exact ⟨hlocked.chan, hlocked.locktime⟩
        · exact hopened
        · exact hpairs
    · cases h
  · exact addPair_pends hlocked hopened hpairs h

theorem vfnadd_pends (hwrite : vfd.acmode = .write) (hlong : vfd.longroot = true)
    (h : vfnadd host vfd maxch s = (.ok (osfn, true), s')) : Pends .add vfd s' := by
  unfold vfnadd at h
  rcases hresult : vfnmap host vfd maxch s with ⟨_ | ⟨osfn', _ | _⟩, t⟩
  · rw [hresult] at h
    cases h
  · rw [hresult] at h
    obtain ⟨hlocked, hread, hpairs, -⟩ := vfnmap_ok hwrite hlong hresult
    simp only at h
    rcases hentered : vfnEnter vfd maxch (host.present t.time) t.tick with ⟨_ | name, t'⟩
    · rw [hentered] at h
      cases h
    · rw [hentered] at h
      cases h
      refine vfnEnter_pends ?_ ?_ ?_ hentered
      · exact ⟨hlocked.chan, hlocked.locktime⟩
      · exact hread.opened
      · exact hpairs
  · rw [hresult] at h
    simp only [hlong, if_true] at h
    cases h

/-! ### Deletion -/

theorem scanEntries_found (d : Mfd) (fns : List Nat) (fnIndex : Nat) (delzmd : Bool)
    (h : fnIndex ≠ 0) : (scanEntries host vfd d fns fnIndex delzmd).1 = fnIndex := by
  induction fns generalizing delzmd with
  | nil => rfl
  | cons fn fns ih =>
    simp only [scanEntries, h, false_and, if_false, ne_eq, not_false_eq_true, if_true]
    split
    · split
      · rfl
      · exact ih delzmd
    · exact ih delzmd

theorem scanEntries_eq (d : Mfd) (fns : List Nat) (delzmd : Bool) {k : Nat} (hk : k ≠ 0)
    (h : fns.find? (fun fn => (d.fnmap fn).vfn = vfd.vfn) = some k) :
    (scanEntries host vfd d fns 0 delzmd).1 = k := by
  induction fns generalizing delzmd with
  | nil => simp at h
  | cons fn fns ih =>
    rw [List.find?_cons] at h
    by_cases hfn : (d.fnmap fn).vfn = vfd.vfn
    · simp only [hfn, decide_true, Option.some.injEq] at h
      subst h
      simp only [scanEntries, hfn, hk, and_self, if_true, ne_eq, not_false_eq_true]
      split
      · rfl
      · exact scanEntries_found d fns fn delzmd hk
    · simp only [hfn, decide_false] at h
      have hstill : ∀ z, (scanEntries host vfd d fns 0 z).1 = k := fun z => ih z h
      simp only [scanEntries, hfn, and_false, if_false]
      split
      · split
        · simpa using hstill false
        · exact hstill delzmd
      · exact hstill delzmd

theorem pairs_shift (d d' : Mfd) (front back : Nat) (hfiles : d.nfiles = front + 1 + back)
    (hfiles' : d'.nfiles = front + back) (hmap : d'.fnmap = shiftPairs d (front + 1)) :
    ∃ xs ys, d.pairs = xs ++ d.fnmap (front + 1) :: ys ∧ d'.pairs = xs ++ ys := by
  refine ⟨(List.range front).map fun k => d.fnmap (k + 1),
    (List.range back).map fun k => d.fnmap (front + 1 + k + 1), ?_, ?_⟩
  · rw [Mfd.pairs, hfiles, List.range_add, List.range_succ, List.map_append, List.map_append,
      List.append_assoc, List.map_map]
    rfl
  · rw [Mfd.pairs, hfiles', List.range_add, List.map_append, List.map_map, hmap]
    congr 1
    · refine List.map_congr_left fun k hk => ?_
      have := List.mem_range.mp hk
      exact if_neg (by omega)
    · refine List.map_congr_left fun k hk => ?_
      have := List.mem_range.mp hk
      change (if front + 1 ≤ front + k + 1 ∧ front + k + 1 < d.nfiles then
        d.fnmap (front + k + 1 + 1) else d.fnmap (front + k + 1)) = d.fnmap (front + 1 + k + 1)
      rw [if_pos (by omega)]
      congr 1
      omega

theorem vfndel_pends (hwrite : vfd.acmode = .write) (hlong : vfd.longroot = true)
    (h : vfndel host vfd maxch s = (.ok (osfn, true), s')) : Pends .del vfd s' := by
  unfold vfndel at h
  rcases hresult : vfnmap host vfd maxch s with ⟨_ | ⟨osfn', _ | _⟩, t⟩
  · rw [hresult] at h
    cases h
  · rw [hresult] at h
    cases h
  · rw [hresult] at h
    obtain ⟨hlocked, hread, hpairs, hfound⟩ := vfnmap_ok hwrite hlong hresult
    obtain ⟨fn, hfind⟩ := hfound rfl
    have hmem : 1 ≤ fn ∧ fn < 1 + t.mfd.nfiles := by
      simpa using List.mem_of_find?_eq_some hfind
    have hvfn : (t.mfd.fnmap fn).vfn = vfd.vfn := by simpa using List.find?_some hfind
    have hscan := @scanEntries_eq host vfd t.mfd _ true fn (by omega) hfind
    obtain ⟨front, rfl⟩ : ∃ front, fn = front + 1 := ⟨fn - 1, by omega⟩
    simp only [hlong, if_true] at h
    rw [hscan] at h
    cases h
    obtain ⟨xs, ys, hbefore, hafter⟩ := pairs_shift t.mfd
      { t.mfd with
        delzmd := (scanEntries host vfd t.mfd (List.range' 1 t.mfd.nfiles) 0 true).2
        fnmap := shiftPairs t.mfd (front + 1)
        nfiles := t.mfd.nfiles - 1
        lastop := vDel
        modified := true }
      front (t.mfd.nfiles - 1 - front) (by omega) (by simp only; omega) rfl
    have hentry : t.mfd.fnmap (front + 1) = ⟨vfd.vfn, (t.mfd.fnmap (front + 1)).osfn⟩ := by
      rw [← hvfn]
    rw [hpairs, hentry] at hbefore
    exact ⟨⟨hlocked.chan, hlocked.locktime⟩, hread.opened, rfl, rfl, xs, ys, _, hbefore, hafter⟩

theorem Pending.run_pends (hwrite : vfd.acmode = .write) (hlong : vfd.longroot = true)
    (h : op.run host vfd s = (.ok (osfn, true), s')) : Pends op vfd s' := by
  cases op with
  | add => exact vfnadd_pends hwrite hlong h
  | del => exact vfndel_pends hwrite hlong h

theorem Pending.run_quiet (op : Pending) (hwrite : vfd.acmode = .write) :
    Quiet s (op.run host vfd s).2 := by
  cases op with
  | add => exact vfnadd_quiet hwrite
  | del => exact vfndel_quiet hwrite

/-! ## The table that is written -/

/-- Nothing has been written. -/
def Unwritten (log : List Action) : Prop := ∀ chan image, .write chan image ∉ log

theorem release_log (d : Mfd) (s : State) :
    ∃ later, (release host d s).2.log = later ++ s.log ∧ Unwritten later ∧
      (∀ osfn locktime, .unlock osfn locktime ∈ later → locktime = d.locktime) ∧
      (release host d s).2.lastRead = s.lastRead := by
  unfold release
  simp only
  split
  · split
    · exact ⟨[.rmlock _, .delete _, .close _], rfl, by simp [Unwritten], by simp, rfl⟩
    · exact ⟨[.unlock _ _, .close _], rfl, by simp [Unwritten], by simp, rfl⟩
  · exact ⟨[.close _], rfl, by simp [Unwritten], by simp, rfl⟩

theorem update_log (host : Host) (mfd : Int) (s : State) :
    ∃ later, (update host mfd s).2.log = later ++ .write (s.desc mfd).chan
        { s.desc mfd with checksum := host.checksum (s.desc mfd) } :: s.log ∧
      Unwritten later ∧
      (∀ osfn locktime, .unlock osfn locktime ∈ later → locktime = (s.desc mfd).locktime) ∧
      (update host mfd s).2.lastRead = s.lastRead := by
  generalize hd : { s.desc mfd with checksum := host.checksum (s.desc mfd) } = d
  have hchan : d.chan = (s.desc mfd).chan := by rw [← hd]
  have hlock : d.locktime = (s.desc mfd).locktime := by rw [← hd]
  have hrun : update host mfd s =
      if host.written ((s.setDesc mfd d).act (.write d.chan d)).time then
        release host d ((s.setDesc mfd d).act (.write d.chan d)).tick
      else (.error .fwrite, (s.setDesc mfd d).act (.write d.chan d)) := by
    rw [← hd]
    rfl
  have hlog : ((s.setDesc mfd d).act (.write d.chan d)).log = .write (s.desc mfd).chan d :: s.log := by
    rw [State.act, hchan, State.setDesc]
    split <;> rfl
  have hlast : ((s.setDesc mfd d).act (.write d.chan d)).lastRead = s.lastRead := by
    rw [State.act, State.setDesc]
    split <;> rfl
  rw [hrun, ← hlock]
  split
  · obtain ⟨later, hlater, hunwritten, hunlock, hread⟩ :=
      @release_log host d ((s.setDesc mfd d).act (.write d.chan d)).tick
    refine ⟨later, hlater.trans ?_, hunwritten, hunlock, hread.trans hlast⟩
    rw [← hlog]
    rfl
  · exact ⟨[], hlog, by simp [Unwritten], by simp, hlast⟩

theorem Pends.writesLast (h : Pends op vfd s) : WritesLast vfd op (update host s.vMfd s).2 := by
  obtain ⟨later, hlog, hunwritten, hunlock, hlast⟩ := update_log host s.vMfd s
  have hdesc : s.desc s.vMfd = s.mfd := if_pos rfl
  rw [hdesc] at hlog hunlock
  refine ⟨{ s.mfd with checksum := host.checksum s.mfd }, later, s.log, ?_, ?_, hunwritten,
    fun osfn locktime hmem => ?_⟩
  · rw [hlog, hlast, h.locked.chan]
  · rw [hlast]
    exact h.applied
  · rw [hlast, ← h.locked.locktime]
    exact hunlock osfn locktime hmem

theorem rollback_null (hopened : s.vMfd ≠ 0) (hlastop : s.null.lastop = 0)
    (hlog : Unwritten s.log) {result : Except VfnError Int}
    (h : rollback host vfd osfn fuel 0 s = some (result, s')) :
    result = .ok 0 ∧ s'.vMfd ≠ 0 ∧ s'.null = s.null ∧ s'.lastRead = s.lastRead ∧
      Unwritten s'.log := by
  induction fuel generalizing s with
  | zero => cases h
  | succ fuel ih =>
    have hdesc : s.desc 0 = s.null := if_neg hopened.symm
    rw [rollback] at h
    simp only [hdesc] at h
    split at h
    · have hredo : ∀ t, redo host vfd s.null.lastop t = (.ok (), t) := by
        intro t
        rw [hlastop]
        rfl
      rw [hredo] at h
      have hnext : Unwritten (State.act s.tick (.unlock osfn s.null.locktime)).log := by
        intro chan image hmem
        rcases List.mem_cons.mp hmem with heq | hmem
        · cases heq
        · exact hlog chan image hmem
      exact @ih (State.act s.tick (.unlock osfn s.null.locktime)) hopened hlastop hnext h
    · cases h
      exact ⟨rfl, hopened, rfl, rfl, hlog⟩

/-- All writes are by a channel. -/
def WrittenBy (chan : Int) (log : List Action) : Prop :=
  ∀ chan' image, .write chan' image ∈ log → chan' = chan

theorem Unwritten.writtenBy {log : List Action} (h : Unwritten log) (chan : Int) :
    WrittenBy chan log :=
  fun chan' image hmem => absurd hmem (h chan' image)

theorem update_writtenBy (hlog : Unwritten s.log) (mfd : Int) :
    WrittenBy (s.desc mfd).chan (update host mfd s).2.log := by
  obtain ⟨later, hlater, hunwritten, -, -⟩ := update_log host mfd s
  intro chan image hmem
  rw [hlater] at hmem
  rcases List.mem_append.mp hmem with hmem | hmem
  · exact absurd hmem (hunwritten chan image)
  · rcases List.mem_cons.mp hmem with heq | hmem
    · cases heq
      rfl
    · exact absurd hmem (hlog chan image)

theorem WritesLast.not_writtenBy (h : WritesLast vfd op s) (hlast : s.lastRead.chan ≠ chan) :
    ¬ WrittenBy chan s.log := by
  obtain ⟨d, later, older, hlog, -⟩ := h
  intro hwritten
  refine hlast (hwritten s.lastRead.chan d ?_)
  rw [hlog]
  exact List.mem_append_right _ List.mem_cons_self

/-! ## Rolling back -/

theorem redo_quiet (hwrite : vfd.acmode = .write) (lastop : Int) :
    Quiet s (redo host vfd lastop s).2 := by
  unfold redo
  split
  · exact vfnadd_quiet hwrite
  · split
    · exact vfndel_quiet hwrite
    · exact Quiet.rfl s

theorem vfnadd_read (hwrite : vfd.acmode = .write) (hlong : vfd.longroot = true)
    {result : Name × Bool} (h : vfnadd host vfd maxch s = (.ok result, s')) :
    ReadAt host s.time s' := by
  unfold vfnadd at h
  rcases hresult : vfnmap host vfd maxch s with ⟨_ | ⟨osfn', _ | _⟩, t⟩
  · rw [hresult] at h
    cases h
  · rw [hresult] at h
    obtain ⟨-, hread, -⟩ := vfnmap_ok hwrite hlong hresult
    simp only at h
    rcases hentered : vfnEnter vfd maxch (host.present t.time) t.tick with ⟨_ | name, t'⟩
    · rw [hentered] at h
      cases h
    · rw [hentered] at h
      cases h
      have hkept := vfnEnter_kept vfd maxch (host.present t.time) t.tick
      rw [hentered] at hkept
      exact ⟨hkept.1 ▸ hread.chan, hkept.2 ▸ hread.opened⟩
  · rw [hresult] at h
    obtain ⟨-, hread, -⟩ := vfnmap_ok hwrite hlong hresult
    simp only [hlong, if_true] at h
    cases h
    exact hread

theorem vfndel_read (hwrite : vfd.acmode = .write) (hlong : vfd.longroot = true)
    {result : Name × Bool} (h : vfndel host vfd maxch s = (.ok result, s')) :
    ReadAt host s.time s' := by
  unfold vfndel at h
  rcases hresult : vfnmap host vfd maxch s with ⟨_ | ⟨osfn', _ | _⟩, t⟩
  · rw [hresult] at h
    cases h
  · rw [hresult] at h
    obtain ⟨-, hread, -⟩ := vfnmap_ok hwrite hlong hresult
    cases h
    exact hread
  · rw [hresult] at h
    obtain ⟨-, hread, -⟩ := vfnmap_ok hwrite hlong hresult
    simp only [hlong, if_true] at h
    cases h
    exact ⟨hread.chan, hread.opened⟩

theorem redo_read (hwrite : vfd.acmode = .write) (hlong : vfd.longroot = true)
    (hpends : Pends op vfd s) {t t' : State} (h : redo host vfd s.mfd.lastop t = (.ok (), t')) :
    ReadAt host t.time t' := by
  have hlastop := hpends.lastop
  unfold redo at h
  cases op with
  | add =>
    rw [if_pos hlastop] at h
    rcases hresult : vfnadd host vfd szPathname t with ⟨_ | _, t''⟩
    · rw [hresult] at h
      cases h
    · rw [hresult] at h
      cases h
      exact vfnadd_read hwrite hlong hresult
  | del =>
    simp only at hlastop
    rw [if_neg (by rw [hlastop]; decide), if_pos hlastop] at h
    rcases hresult : vfndel host vfd szPathname t with ⟨_ | _, t''⟩
    · rw [hresult] at h
      cases h
    · rw [hresult] at h
      cases h
      exact vfndel_read hwrite hlong hresult

theorem vfnclose_rolledBack (hwrite : vfd.acmode = .write) (hlong : vfd.longroot = true)
    (hpends : Pends op vfd s) (hlog : Unwritten s.log)
    (hexpired : host.timeleft s.time (osfnPkfname s.mfd.mapfname szPathname) s.mfd.locktime <
      minTimeleft)
    (hlastop : s.null.lastop = 0)
    (hchan : ∀ chan, (host.reading (s.time + 1)).chan = some chan → chan ≠ s.null.chan)
    {result : Except VfnError Unit} (h : vfnclose host vfd true fuel s = some (result, s')) :
    ¬ WritesLast vfd op s' := by
  have hdesc : s.desc s.vMfd = s.mfd := if_pos rfl
  rw [vfnclose, if_neg hpends.opened, if_neg (by simp [hpends.modified])] at h
  cases fuel with
  | zero => cases h
  | succ fuel =>
    generalize hosfn : osfnPkfname s.mfd.mapfname szPathname = osfn at h hexpired
    rw [rollback] at h
    simp only [hdesc, if_pos hexpired] at h
    have hquiet := @redo_quiet host vfd (s.tick.act (.unlock osfn s.mfd.locktime)) hwrite
      s.mfd.lastop
    have hbefore : Unwritten (s.tick.act (.unlock osfn s.mfd.locktime)).log := by
      intro chan image hmem
      rcases List.mem_cons.mp hmem with heq | hmem
      · cases heq
      · exact hlog chan image hmem
    rcases hredo : redo host vfd s.mfd.lastop (s.tick.act (.unlock osfn s.mfd.locktime)) with
      ⟨_ | _, t⟩
    · rw [hredo] at h hquiet
      cases h
      intro hlast
      have hunwritten : Unwritten s'.log := hquiet.log ▸ hbefore
      exact hlast.not_writtenBy (by omega) (hunwritten.writtenBy (s'.lastRead.chan + 1))
    · rw [hredo] at h hquiet
      have hread := redo_read hwrite hlong hpends hredo
      have hnull : t.null = s.null := hquiet.null
      simp only at h
      rcases hrest : rollback host vfd osfn fuel 0 t with _ | ⟨_ | mfd, t'⟩
      · rw [hrest] at h
        cases h
      · obtain ⟨herror, -⟩ := rollback_null hread.opened (hnull ▸ hlastop) (hquiet.log ▸ hbefore)
          hrest
        cases herror
      · obtain ⟨hmfd, hopened, hnull', hlast, hunwritten⟩ :=
          rollback_null hread.opened (hnull ▸ hlastop) (hquiet.log ▸ hbefore) hrest
        cases hmfd
        rw [hrest] at h
        have hs' : (update host 0 t').2 = s' := congrArg Prod.snd (Option.some.inj h)
        have hdesc' : t'.desc 0 = s.null := (if_neg hopened.symm).trans (hnull'.trans hnull)
        have hwritten := @update_writtenBy host t' hunwritten 0
        obtain ⟨-, -, -, -, hkept⟩ := update_log host 0 t'
        rw [hdesc'] at hwritten
        rw [hs'] at hwritten hkept
        intro hwrites
        refine hwrites.not_writtenBy ?_ hwritten
        rw [hkept, hlast]
        exact hchan _ hread.chan

/-- The update is as it should be exactly if there is enough time left on the lock. -/
theorem vfnclose_iff {null : Mfd} {enterMfd : Int} (hwrite : vfd.acmode = .write)
    (hlong : vfd.longroot = true)
    (hop : op.run host vfd (afterOpen null enterMfd time) = (.ok (osfn, true), s)) :
    (∀ null', ∃ fuel result s',
        vfnclose host vfd true fuel { s with null := null' } = some (result, s') ∧
          WritesLast vfd op s') ↔
      minTimeleft ≤ host.timeleft s.time (osfnPkfname s.mfd.mapfname szPathname) s.mfd.locktime := by
  have hpends := Pending.run_pends hwrite hlong hop
  have hquiet := @Pending.run_quiet host vfd (afterOpen null enterMfd time) op hwrite
  rw [hop] at hquiet
  have hlog : Unwritten s.log := by
    rw [hquiet.log]
    simp [Unwritten, afterOpen]
  constructor
  · intro hall
    by_contra hexpired
    obtain ⟨other, hchan, hlastop⟩ : ∃ other : Mfd,
        (∀ chan, (host.reading (s.time + 1)).chan = some chan → chan ≠ other.chan) ∧
          other.lastop = 0 := by
      refine ⟨{ Mfd.zero with chan := (host.reading (s.time + 1)).chan.getD 0 + 1 }, ?_, rfl⟩
      intro chan hchan
      simp only [hchan, Option.getD_some]
      omega
    obtain ⟨fuel, result, s', hrun, hwrites⟩ := hall other
    exact @vfnclose_rolledBack host vfd fuel { s with null := other } s' op hwrite hlong
      (hpends.elsewhere other s.time) hlog (lt_of_not_ge hexpired) hlastop hchan result hrun hwrites
  · intro htime null'
    refine ⟨1, (update host s.vMfd (State.tick { s with null := null' })).1,
      (update host s.vMfd (State.tick { s with null := null' })).2, ?_, ?_⟩
    · rw [vfnclose, if_neg hpends.opened, if_neg (by simp [hpends.modified]), rollback]
      have hdesc : State.desc { s with null := null' } s.vMfd = s.mfd := if_pos rfl
      simp only [hdesc]
      rw [if_neg (not_lt.mpr htime)]
    · exact Pends.writesLast (hpends.elsewhere null' (s.time + 1))

/-- A host on which the file is opened and locked at once, and so many seconds are left on the lock
each time. -/
def lockingHost (timeleft : Nat → Int) : Host where
  present _ _ := false
  reading time := ⟨false, some 100, some (time + 3), fun _ => .empty⟩
  timeleft time _ _ := timeleft time
  written _ := true
  closed _ := true
  calloc _ := 8
  calloc_ne _ := by decide
  zfsubd dir _ := dir
  checksum _ := 0
  encodeRoot name := name

def added (host : Host) : State :=
  (vfnadd host longName szPathname (afterOpen Mfd.zero 0 0)).2

theorem vfnclose_inTime : ∃ fuel result s',
    vfnclose (lockingHost fun _ => 120) longName true fuel
      { added (lockingHost fun _ => 120) with null := { Mfd.zero with chan := 77 } } =
        some (result, s') ∧ WritesLast longName .add s' :=
  (@vfnclose_iff (lockingHost fun _ => 120) longName 0 _ .add _ Mfd.zero 0 rfl rfl rfl).mpr
    (by decide) _

/-- After one rollback the channel of the memory at NULL is used. -/
theorem not_vfnclose_expired :
    ¬ ∃ fuel result s',
      vfnclose (lockingHost fun time => if time < 3 then 0 else 120) longName true fuel
        { added (lockingHost fun time => if time < 3 then 0 else 120) with
          null := { Mfd.zero with chan := 77 } } = some (result, s') ∧
        WritesLast longName .add s' := by
  rintro ⟨fuel, result, s', hrun, hwrites⟩
  have hpends := @Pending.run_pends (lockingHost fun time => if time < 3 then 0 else 120) longName
    (afterOpen Mfd.zero 0 0) _ .add _ rfl rfl rfl
  refine vfnclose_rolledBack rfl rfl (hpends.elsewhere _ _) ?_ ?_ rfl ?_ hrun hwrites
  · exact fun _ _ => List.not_mem_nil
  · decide
  · intro chan hchan
    cases hchan
    decide

end Iraf.Vfn
