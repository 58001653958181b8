import Iraf.Cl.ProcessRuns

/-!
# Processes by their names

`pr_pnametopid` takes the first slot of a name, and a slot keeps the name of the
process it had last.  The procedures of the cache keep the slots with a process
before those of the same name without one, as long as a process that cannot be
spawned does not leave such a slot at the head.
-/

namespace Iraf.Cl

/-- A logical task.  `ltFile` is what `findexe` gives for its package and its
`lt_pname`, which depends on the time. -/
structure Ltask where
  ltScript : Bool
  ltBuiltin : Bool
  ltFile : Nat → String

namespace Cache

def prPnametopid (host : ProcessHost) (c : Cache) (pname : String) : Int × Cache :=
  let c := c.prCheckup host
  match c.fromHead.find? fun i => (c.prCache i).prName == pname with
  | none => (0, c)
  | some i => ((c.prCache i).prPid, c)

/-- The process id, or `ERR`; none when an error of `pr_connect` leaves it. -/
def prCachetask (host : ProcessHost) (c : Cache) (ltp : Ltask) : Option Int × Cache :=
  if ltp.ltScript || ltp.ltBuiltin then (some (-1), c)
  else
    match c.prPnametopid host (ltp.ltFile c.clock) with
    | (pid, c) =>
        if pid ≠ 0 then (some pid, c)
        else
          match c.prPconnect host (ltp.ltFile c.clock) with
          | (.process pid _ _, c) => (some pid, c.prDisconnect host pid)
          | (.failed, c) => (none, c)
          | (.deadlock, c) => (none, c)

variable {host : ProcessHost} {T : Table} {c c' : Cache} {i j : Nat} {pname : String}
  {pid : Int}

/-- A slot has a process of a name. -/
def IsConnected (c : Cache) (pname : String) (pid : Int) : Prop :=
  pid ≠ 0 ∧ ∃ i < c.szPrcache, (c.prCache i).prPid = pid ∧ (c.prCache i).prName = pname

/-- A process is found by its name, and none is found where there is none. -/
structure FindsByName (host : ProcessHost) (c : Cache) (pname : String) : Prop where
  checked : (c.prPnametopid host pname).2 = c.prCheckup host
  found : (∃ pid, (c.prCheckup host).IsConnected pname pid) →
    (c.prCheckup host).IsConnected pname (c.prPnametopid host pname).1
  missing : (¬∃ pid, (c.prCheckup host).IsConnected pname pid) →
    (c.prPnametopid host pname).1 = 0

/-- A task is not cached a second time. -/
def CachesOnce (host : ProcessHost) (c : Cache) (ltp : Ltask) : Prop :=
  ltp.ltScript = false → ltp.ltBuiltin = false →
    (∃ pid, (c.prCheckup host).IsConnected (ltp.ltFile c.clock) pid) →
    ∃ pid, (c.prCheckup host).IsConnected (ltp.ltFile c.clock) pid ∧
      c.prCachetask host ltp = (some pid, c.prCheckup host)

theorem FindsByName.cachesOnce {ltp : Ltask}
    (h : FindsByName host c (ltp.ltFile c.clock)) : CachesOnce host c ltp := by
  intro hscript hbuiltin hconnected
  have hfound := h.found hconnected
  refine ⟨_, hfound, ?_⟩
  rw [prCachetask, hscript, hbuiltin, if_neg (by decide)]
  dsimp only
  rw [if_pos hfound.1, h.checked]

/-! ## The order of the slots -/

/-- A slot that is met first is not without a process when the other one of its
name has one. -/
def Precedes (c : Cache) (i j : Nat) : Prop :=
  (c.prCache i).prName = (c.prCache j).prName → (c.prCache j).prPid ≠ 0 →
    (c.prCache i).prPid ≠ 0

def Ordered (c : Cache) : Prop := c.fromHead.Pairwise c.Precedes

theorem Precedes.of_pid (hne : (c.prCache i).prPid ≠ 0) : c.Precedes i j :=
  fun _ _ => hne

theorem Precedes.of_free (hfree : (c.prCache j).prPid = 0) : c.Precedes i j :=
  fun _ hne => absurd hfree hne

theorem Ordered.pname_spec (h : Ordered c)
    (hf : c.fromHead.find? (fun i => (c.prCache i).prName == pname) = some i) :
    (c.prCache i).prName = pname ∧ ∀ j ∈ c.fromHead, (c.prCache j).prName = pname →
      (c.prCache j).prPid ≠ 0 → (c.prCache i).prPid ≠ 0 := by
  obtain ⟨hname, before, after, hlist, hbefore⟩ := List.find?_eq_some_iff_append.1 hf
  rw [beq_iff_eq] at hname
  refine ⟨hname, fun j hj hjname hjpid => ?_⟩
  rw [hlist, List.mem_append, List.mem_cons] at hj
  rw [Ordered, hlist, List.pairwise_append, List.pairwise_cons] at h
  rcases hj with hj | rfl | hj
  · have hne := hbefore j hj
    rw [hjname, beq_self_eq_true, Bool.not_true] at hne
    cases hne
  · exact hjpid
  · exact h.2.1.1 j hj (hname.trans hjname.symm) hjpid

/-- A cache in which the processes are found. -/
structure Settled (c : Cache) : Prop where
  holds : ∃ T, Holds c T
  ordered : Ordered c

theorem Holds.mem_fromHead (h : Holds c T) : i ∈ c.fromHead ↔ i < c.szPrcache :=
  h.fromHead.mem_iff.trans List.mem_range

theorem Settled.findsByName (h : Settled (c.prCheckup host)) (pname : String) :
    FindsByName host c pname := by
  obtain ⟨T, hT⟩ := h.holds
  cases hf : (c.prCheckup host).fromHead.find? fun i =>
      ((c.prCheckup host).prCache i).prName == pname with
  | none =>
      have hr : c.prPnametopid host pname = (0, c.prCheckup host) := by
        rw [prPnametopid, hf]
      refine ⟨by rw [hr], fun ⟨pid, _, i, hi, _, hname⟩ => ?_, fun _ => by rw [hr]⟩
      have := List.find?_eq_none.1 hf i (hT.mem_fromHead.2 hi)
      rw [hname, beq_self_eq_true] at this
      exact absurd rfl this
  | some i =>
      have hr : c.prPnametopid host pname =
          (((c.prCheckup host).prCache i).prPid, c.prCheckup host) := by
        rw [prPnametopid, hf]
      obtain ⟨hname, hfirst⟩ := h.ordered.pname_spec hf
      have hi := hT.mem_fromHead.1 (List.mem_of_find?_eq_some hf)
      refine ⟨by rw [hr], fun ⟨pid, hpid, j, hj, hjpid, hjname⟩ => ?_, fun hnone => ?_⟩
      · rw [hr]
        exact ⟨hfirst j (hT.mem_fromHead.2 hj) hjname (hjpid ▸ hpid), i, hi, rfl, hname⟩
      · rw [hr]
        by_contra hne
        exact hnone ⟨_, hne, i, hi, rfl, hname⟩

/-! ## Changes of one slot -/

theorem Holds.linked_fromHead (h : Holds c T) : Linked c.links c.fromHead := by
  obtain ⟨l, hperm, hl⟩ := h.linked
  have hlen : l.length < maxsubproc + 1 := by
    rw [hperm.length_eq, List.length_range]
    exact Nat.lt_succ_of_le h.size.2
  rw [Cache.fromHead, hl.down.walk_eq hlen]
  exact hl

theorem Holds.fromHead_eq (h : Holds c T) {l : List Nat} (hl : Linked c.links l)
    (hperm : l.Perm (List.range c.szPrcache)) : c.fromHead = l := by
  have hlen : l.length < maxsubproc + 1 := by
    rw [hperm.length_eq, List.length_range]
    exact Nat.lt_succ_of_le h.size.2
  rw [Cache.fromHead, hl.down.walk_eq hlen]

theorem Holds.fromHead_tohead (h : Holds c T) (hi : i < c.szPrcache) :
    (c.prTohead i).fromHead = i :: c.fromHead.erase i := by
  have hmem := h.mem_fromHead.2 hi
  refine (h.tohead hi).fromHead_eq ?_ ?_
  · exact h.linked_fromHead.toHead (List.ne_nil_of_mem hmem) (.inl hmem)
  · exact (List.perm_cons_erase hmem).symm.trans h.fromHead

theorem Holds.fromHead_totail (h : Holds c T) (hi : i < c.szPrcache) :
    (c.prTotail i).fromHead = c.fromHead.erase i ++ [i] := by
  have hmem := h.mem_fromHead.2 hi
  refine (h.totail hi).fromHead_eq (h.linked_fromHead.toTail hmem) ?_
  exact (List.perm_append_singleton i _).trans
    ((List.perm_cons_erase hmem).symm.trans h.fromHead)

theorem Holds.not_mem_erase (h : Holds c T) : i ∉ c.fromHead.erase i := by
  rw [h.linked_fromHead.nodup.mem_erase_iff]
  exact fun hmem => hmem.1 rfl

/-- The slots of a list are not looked at again when they keep their names and
the processes that they have. -/
theorem pairwise_of_eq {l : List Nat} (h : l.Pairwise c.Precedes)
    (hname : ∀ i ∈ l, (c'.prCache i).prName = (c.prCache i).prName)
    (hpid : ∀ i ∈ l, (c'.prCache i).prPid = (c.prCache i).prPid) :
    l.Pairwise c'.Precedes := by
  refine h.imp_of_mem fun {i j} hi hj hp => ?_
  rw [Precedes, hname i hi, hname j hj, hpid i hi, hpid j hj]
  exact hp

theorem Ordered.of_eq (h : Ordered c) (hlinks : c'.links = c.links)
    (hname : ∀ i, (c'.prCache i).prName = (c.prCache i).prName)
    (hpid : ∀ i, (c'.prCache i).prPid = (c.prCache i).prPid) : Ordered c' := by
  have hlist : c'.fromHead = c.fromHead := by rw [Cache.fromHead, hlinks, Cache.fromHead]
  rw [Ordered, hlist]
  exact pairwise_of_eq h (fun i _ => hname i) fun i _ => hpid i

theorem Ordered.mark (h : Ordered c) {pr : Process} (hname : pr.prName = (c.prCache i).prName)
    (hpid : pr.prPid = (c.prCache i).prPid) : Ordered (c.setSlot i pr) := by
  have hslot : ∀ j, ((c.setSlot i pr).prCache j).prName = (c.prCache j).prName ∧
      ((c.setSlot i pr).prCache j).prPid = (c.prCache j).prPid := by
    intro j
    by_cases hj : j = i
    · rw [hj, setSlot_self]
      exact ⟨hname, hpid⟩
    · rw [setSlot_of_ne c hj]
      exact ⟨rfl, rfl⟩
  exact h.of_eq rfl (fun j => (hslot j).1) fun j => (hslot j).2

theorem Ordered.disconnect (h : Ordered c) (hT : Holds c T) (hi : i < c.szPrcache) :
    Ordered (c.prPdisconnect i) := by
  by_cases hskip : (c.prCache i).prPid = 0 ∨ (c.prCache i).prBusy
  · rw [prPdisconnect, if_pos hskip]
    exact h
  · have hclosed := hT.close hi (not_or.1 hskip).1
    have hfree : ((c.close i).prCache i).prPid = 0 := by simp [Cache.close, setSlot]
    have hlist : ((c.close i).prTotail i).fromHead = c.fromHead.erase i ++ [i] :=
      hclosed.fromHead_totail hi
    rw [prPdisconnect, if_neg hskip, Ordered, hlist, List.pairwise_append]
    have hsame : ∀ j ∈ c.fromHead.erase i, (c.close i).prCache j = c.prCache j := by
      intro j hj
      refine setSlot_of_ne c ?_ _
      rintro rfl
      exact hT.not_mem_erase hj
    refine ⟨?_, List.pairwise_singleton _ _, fun j _ k hk => ?_⟩
    · exact pairwise_of_eq (h.sublist List.erase_sublist)
        (fun j hj => congrArg Process.prName (hsame j hj))
        fun j hj => congrArg Process.prPid (hsame j hj)
    · rw [List.mem_singleton.1 hk]
      exact .of_free hfree

/-- A slot at the head is no obstacle when it has a process, or none of its name
has one. -/
theorem Ordered.tohead (h : Ordered c) (hT : Holds c T) (hi : i < c.szPrcache)
    (hfirst : (c.prCache i).prPid ≠ 0 ∨ ∀ j < c.szPrcache, (c.prCache j).prPid ≠ 0 →
      (c.prCache j).prName ≠ (c.prCache i).prName) : Ordered (c.prTohead i) := by
  rw [Ordered, hT.fromHead_tohead hi, List.pairwise_cons]
  refine ⟨fun j hj hname hpid => hfirst.resolve_right fun hnone => ?_,
    h.sublist List.erase_sublist⟩
  have hj := hT.mem_fromHead.1 (List.mem_of_mem_erase hj)
  exact hnone j hj hpid hname.symm

/-! ## Procedures -/

theorem Settled.disconnect (h : Settled c) (hi : i < c.szPrcache) :
    Settled (c.prPdisconnect i) := by
  obtain ⟨T, hT⟩ := h.holds
  refine ⟨?_, h.ordered.disconnect hT hi⟩
  by_cases hskip : (c.prCache i).prPid = 0 ∨ (c.prCache i).prBusy
  · rw [prPdisconnect, if_pos hskip]
    exact ⟨T, hT⟩
  · obtain ⟨hne, hfree⟩ := not_or.1 hskip
    exact ⟨_, hT.disconnect hi hne (Bool.not_eq_true _ ▸ hfree)⟩

theorem Settled.foldl {f : Cache → Nat → Cache} (h : Settled c)
    (hf : ∀ c i, i < c.szPrcache → Settled c →
      Settled (f c i) ∧ (f c i).szPrcache = c.szPrcache)
    (l : List Nat) (hl : ∀ i ∈ l, i < c.szPrcache) : Settled (l.foldl f c) := by
  induction l generalizing c with
  | nil => exact h
  | cons i l ih =>
      obtain ⟨hstep, hsize⟩ := hf c i (hl i List.mem_cons_self) h
      refine ih hstep fun j hj => ?_
      rw [hsize]
      exact hl j (List.mem_cons_of_mem i hj)

theorem Settled.of_eq (h : Settled c) (hsz : c'.szPrcache = c.szPrcache)
    (hlinks : c'.links = c.links) (hcache : c'.prCache = c.prCache)
    (hopened : c'.opened = c.opened) : Settled c' := by
  obtain ⟨T, hT⟩ := h.holds
  exact ⟨⟨T, hT.of_eq hsz hlinks hcache hopened⟩,
    h.ordered.of_eq hlinks (fun i => by rw [hcache]) fun i => by rw [hcache]⟩

theorem Settled.mark (h : Settled c) (hi : i < c.szPrcache) {pr : Process}
    (hname : pr.prName = (c.prCache i).prName) (hpid : pr.prPid = (c.prCache i).prPid) :
    Settled (c.setSlot i pr) := by
  obtain ⟨T, hT⟩ := h.holds
  refine ⟨?_, h.ordered.mark hname hpid⟩
  by_cases hfree : (c.prCache i).prPid = 0
  · exact ⟨T, hT.free hfree (hpid.trans hfree)⟩
  · exact ⟨_, hT.mark hi hpid (hpid ▸ hfree)⟩

theorem Settled.checkSlot (h : Settled c) (hi : i < c.szPrcache) :
    Settled (checkSlot host c i) ∧ (checkSlot host c i).szPrcache = c.szPrcache := by
  have hmark : Settled (c.setSlot i { c.prCache i with
      prActive := false, prLocked := false }) := h.mark hi rfl rfl
  unfold Cache.checkSlot
  dsimp only
  split
  · exact ⟨hmark.disconnect hi, (prPdisconnect_size _ i).1⟩
  · exact ⟨h, rfl⟩

theorem Settled.prCheckup (h : Settled c) : Settled (c.prCheckup host) := by
  have hloop : Settled ((List.range c.szPrcache).foldl (Cache.checkSlot host) c) :=
    h.foldl (fun c i hi h => h.checkSlot hi) _ fun i hi => List.mem_range.1 hi
  exact hloop.of_eq rfl rfl rfl rfl

theorem Settled.findPid (h : Settled c) (hf : c.findPid pid = some i) : i < c.szPrcache := by
  obtain ⟨T, hT⟩ := h.holds
  exact (findPid_spec hT hf).1

theorem Settled.prDisconnect (h : Settled c) : Settled (c.prDisconnect host pid) := by
  have hcheck : Settled (c.prCheckup host) := h.prCheckup
  unfold Cache.prDisconnect
  dsimp only
  split
  · exact hcheck
  · next i hf => exact hcheck.mark (hcheck.findPid hf) rfl rfl

theorem Settled.prLock (h : Settled c) : Settled (c.prLock pid) := by
  unfold Cache.prLock
  split
  · exact h
  · next i hf =>
    split at hf
    · cases hf
    · exact h.mark (h.findPid hf) rfl rfl

theorem Settled.prUnlock (h : Settled c) : Settled (c.prUnlock pid).2 := by
  unfold Cache.prUnlock
  split
  · exact h
  · next i hf =>
    split at hf
    · cases hf
    · exact h.mark (h.findPid hf) rfl rfl

theorem Settled.dumpSlot (h : Settled c) (breakLocks : Bool) (hi : i < c.szPrcache) :
    Settled (dumpSlot pid breakLocks c i) ∧
      (dumpSlot pid breakLocks c i).szPrcache = c.szPrcache := by
  have hmark : Settled (c.setSlot i { c.prCache i with prLocked := false }) :=
    h.mark hi rfl rfl
  unfold Cache.dumpSlot
  dsimp only
  split
  · split
    · exact ⟨hmark.disconnect hi, (prPdisconnect_size _ i).1⟩
    · exact ⟨h.disconnect hi, (prPdisconnect_size c i).1⟩
  · exact ⟨h, rfl⟩

theorem Settled.prDumpcache (h : Settled c) (breakLocks : Bool) :
    Settled (c.prDumpcache host pid breakLocks) := by
  have hloop : Settled ((List.range (c.prCheckup host).szPrcache).foldl
      (Cache.dumpSlot pid breakLocks) (c.prCheckup host)) :=
    h.prCheckup.foldl (fun c i hi h => h.dumpSlot breakLocks hi) _ fun i hi =>
      List.mem_range.1 hi
  unfold Cache.prDumpcache
  dsimp only
  split
  · exact hloop.of_eq rfl rfl rfl rfl
  · exact hloop

theorem Settled.prPrunecache (h : Settled c) (pno : Int) :
    Settled (c.prPrunecache host pno) := by
  refine h.prCheckup.foldl (fun c i hi h => ?_) _ fun i hi => List.mem_range.1 hi
  unfold pruneSlot
  dsimp only
  split
  · exact ⟨h.disconnect hi, (prPdisconnect_size c i).1⟩
  · exact ⟨h, rfl⟩

/-! ## Connections -/

theorem Settled.handOut (h : Settled c) (hi : i < c.szPrcache) :
    Settled (c.handOut i).2 := h.mark hi rfl rfl

theorem Settled.cached (host : ProcessHost) (h : Settled c) (process : String) :
    Settled (c.cached host process).2.2 ∧
      ∀ i, (c.cached host process).1 = some i →
        i < (c.cached host process).2.2.szPrcache ∧
          ((c.cached host process).2.2.prCache i).prPid ≠ 0 := by
  obtain ⟨T, hT⟩ := h.holds
  obtain ⟨r, mtime, e, heq, -, hleads, hreusable, -⟩ := cached_spec host hT process
  have hdisconnect : ∀ i < c.szPrcache, Settled (c.tick.prPdisconnect i) := fun i hi =>
    (h.of_eq rfl rfl rfl rfl : Settled c.tick).disconnect hi
  refine ⟨?_, fun i hi => ?_⟩
  · unfold Cache.cached
    split
    · exact h
    · next i hf =>
        have hi := (findproc_spec hT hf).1
        split
        · exact h
        · split
          · exact hdisconnect i hi
          · split
            · exact hdisconnect i hi
            · exact h.of_eq rfl rfl rfl rfl
  · rw [heq] at hi ⊢
    have hr := hreusable i hi
    exact ⟨hr.lt, hr.pid⟩

theorem Settled.getSlot (h : Settled c) {e : Cache} (hg : c.getSlot = some (i, e)) :
    ∃ d, Settled d ∧ i < d.szPrcache ∧ (d.prCache i).prPid = 0 ∧ e = d.prTohead i := by
  obtain ⟨T, hT⟩ := h.holds
  unfold Cache.getSlot at hg
  cases hf : c.fromTail.find? fun i => !(c.prCache i).prBusy with
  | none => rw [hf] at hg; cases hg
  | some j =>
      obtain ⟨hj, hfree⟩ := hT.find_tail hf
      rw [Bool.not_eq_true'] at hfree
      rw [hf] at hg
      dsimp only at hg
      simp only [Option.some.injEq, Prod.mk.injEq] at hg
      obtain ⟨rfl, rfl⟩ := hg
      refine ⟨_, ?_, ?_, ?_, rfl⟩
      · split
        · exact h.disconnect hj
        · exact h
      · split
        · rw [(prPdisconnect_size c j).1]
          exact hj
        · exact hj
      · split
        · exact prPdisconnect_pid c j hfree
        · next hzero => exact not_not.1 hzero

theorem Settled.open (h : Settled c) (hi : i < c.szPrcache) (hold : (c.prCache i).prPid = 0)
    {pr : Process} (hne : pr.prPid ≠ 0) (hnew : pr.prPid ∉ c.opened) :
    Settled { (c.prTohead i).setSlot i pr with opened := pr.prPid :: c.opened } := by
  obtain ⟨T, hT⟩ := h.holds
  refine ⟨⟨_, (hT.tohead hi).open hi hold hne hnew⟩, ?_⟩
  have hlist : Cache.fromHead { (c.prTohead i).setSlot i pr with
      opened := pr.prPid :: c.opened } = i :: c.fromHead.erase i := hT.fromHead_tohead hi
  have hsame : ∀ j ∈ c.fromHead.erase i, (c.setSlot i pr).prCache j = c.prCache j := by
    intro j hj
    refine setSlot_of_ne c ?_ pr
    rintro rfl
    exact hT.not_mem_erase hj
  rw [Ordered, hlist, List.pairwise_cons]
  refine ⟨fun j _ => .of_pid ?_, ?_⟩
  · show ((c.setSlot i pr).prCache i).prPid ≠ 0
    rw [setSlot_self]
    exact hne
  · exact pairwise_of_eq (h.ordered.sublist List.erase_sublist)
      (fun j hj => congrArg Process.prName (hsame j hj))
      fun j hj => congrArg Process.prPid (hsame j hj)

theorem Settled.spawn (h : Settled c) (hi : i < c.szPrcache) (hold : (c.prCache i).prPid = 0)
    (process : String) (mtime : Int)
    (hname : host.propen c.opened c.clock process = none → ∀ j < c.szPrcache,
      (c.prCache j).prPid ≠ 0 → (c.prCache j).prName ≠ (c.prCache i).prName) :
    Settled ((c.prTohead i).spawn host i process mtime).2 := by
  have hprop : host.propen (c.prTohead i).opened (c.prTohead i).clock process =
      host.propen c.opened c.clock process := rfl
  cases hp : host.propen c.opened c.clock process with
  | none =>
      obtain ⟨T, hT⟩ := h.holds
      have hhead : Settled (c.prTohead i) :=
        ⟨⟨T, hT.tohead hi⟩, h.ordered.tohead hT hi (.inr (hname hp))⟩
      have hmark : Settled ((c.prTohead i).setSlot i
          { (c.prTohead i).prCache i with prPid := 0 }) := hhead.mark hi rfl hold.symm
      rw [Cache.spawn, hprop, hp]
      exact hmark.of_eq rfl rfl rfl rfl
  | some s =>
      obtain ⟨hne, hnew⟩ := host.propen_fresh _ _ _ _ hp
      rw [Cache.spawn, hprop, hp]
      have hopen : ∀ {pr : Process}, pr.prPid = s.pid → Settled
          { (c.prTohead i).setSlot i pr with opened := pr.prPid :: c.opened } := by
        intro pr hpid
        exact h.open hi hold (hpid ▸ hne) (hpid ▸ hnew)
      dsimp only
      refine Settled.handOut ?_ hi
      exact (hopen rfl).of_eq rfl rfl rfl rfl

/-- The slot that a process is spawned in, and the cache at that time. -/
def slotToSpawn (host : ProcessHost) (c : Cache) (process : String) :
    Option (Nat × Cache) :=
  let c := if c.links.head = none then c.prInitcache else c.prCheckup host
  match c.cached host process with
  | (some _, _, _) => none
  | (none, _, c) => c.getSlot

/-- No process has the name that its slot has, when it cannot be spawned. -/
def LeavesNoName (host : ProcessHost) (c : Cache) (process : String) : Prop :=
  ∀ i e, c.slotToSpawn host process = some (i, e) →
    host.propen e.opened e.clock process = none → ∀ j < e.szPrcache,
      (e.prCache j).prPid ≠ 0 → (e.prCache j).prName ≠ (e.prCache i).prName

instance (host : ProcessHost) (c : Cache) (process : String) :
    Decidable (LeavesNoName host c process) :=
  decidable_of_iff ((c.slotToSpawn host process).all fun s =>
      decide (host.propen s.2.opened s.2.clock process = none → ∀ j < s.2.szPrcache,
        (s.2.prCache j).prPid ≠ 0 → (s.2.prCache j).prName ≠ (s.2.prCache s.1).prName)) <| by
    unfold LeavesNoName
    cases c.slotToSpawn host process with
    | none => exact ⟨fun _ => nofun, fun _ => rfl⟩
    | some s =>
        rw [Option.all_some, decide_eq_true_iff]
        exact ⟨fun h i e heq => by cases heq; exact h, fun h => h s.1 s.2 rfl⟩

theorem settled_prInitcache (hsize : 2 ≤ c.szPrcache ∧ c.szPrcache ≤ maxsubproc)
    (hopened : c.opened = []) : Settled c.prInitcache := by
  refine ⟨⟨.empty, prInitcache_holds hsize hopened⟩, ?_⟩
  refine List.pairwise_of_forall fun i j => .of_free ?_
  simp only [prInitcache, foldl_prTohead]

/-- What is done when the dead processes were taken out of the cache. -/
def connectChecked (host : ProcessHost) (c : Cache) (process : String) : Connected × Cache :=
  match c.cached host process with
  | (some i, _, c) => handOut (c.prTohead i) i
  | (none, mtime, c) =>
      match c.getSlot with
      | none => (.deadlock, c)
      | some (i, c) => c.spawn host i process mtime

theorem Settled.connectChecked (h : Settled c) (process : String)
    (hname : ∀ mtime d i e, c.cached host process = (none, mtime, d) →
      d.getSlot = some (i, e) → host.propen e.opened e.clock process = none →
        ∀ j < e.szPrcache, (e.prCache j).prPid ≠ 0 →
          (e.prCache j).prName ≠ (e.prCache i).prName) :
    Settled (c.connectChecked host process).2 := by
  obtain ⟨hsettled, hfound⟩ := h.cached host process
  rcases hcached : c.cached host process with ⟨found, mtime, d⟩
  rw [hcached] at hsettled hfound
  rw [Cache.connectChecked, hcached]
  cases found with
  | some i =>
      obtain ⟨hi, hne⟩ := hfound i rfl
      obtain ⟨T, hT⟩ := hsettled.holds
      have hhead : Settled (d.prTohead i) :=
        ⟨⟨T, hT.tohead hi⟩, hsettled.ordered.tohead hT hi (.inl hne)⟩
      exact hhead.handOut hi
  | none =>
      cases hslot : d.getSlot with
      | none =>
          dsimp only
          rw [hslot]
          exact hsettled
      | some taken =>
          obtain ⟨i, e⟩ := taken
          obtain ⟨e', he', hi, hold, rfl⟩ := hsettled.getSlot hslot
          dsimp only
          rw [hslot]
          exact he'.spawn hi hold process mtime (hname mtime d i (e'.prTohead i) hcached hslot)

/-! ## Runs -/

/-- No cache, or one in which the processes are found. -/
def Named (c : Cache) : Prop := Fresh c ∨ Settled c

theorem Named.prPconnect (h : Named c) {process : String}
    (hname : LeavesNoName host c process) : Settled (c.prPconnect host process).2 := by
  have hchecked : Settled (if c.links.head = none then c.prInitcache else
      c.prCheckup host) := by
    rcases h with h | h
    · rw [if_pos h.head]
      exact settled_prInitcache h.size h.opened
    · obtain ⟨T, hT⟩ := h.holds
      rw [if_neg hT.head_ne]
      exact h.prCheckup
  refine hchecked.connectChecked process fun mtime d i e hcached hslot => hname i e ?_
  rw [slotToSpawn, hcached]
  exact hslot

theorem Named.findsByName (h : Named c) (pname : String) : FindsByName host c pname := by
  rcases h with h | h
  · have hfresh : Fresh (c.prCheckup host) := h.prCheckup
    have hr : c.prPnametopid host pname = (0, c.prCheckup host) := by
      rw [prPnametopid, fromHead, hfresh.head]
      rfl
    refine ⟨by rw [hr], ?_, fun _ => by rw [hr]⟩
    rintro ⟨pid, hpid, i, -, hipid, -⟩
    exact absurd (hipid ▸ hfresh.free i) hpid
  · exact h.prCheckup.findsByName pname

/-- A call that does not resize the cache. -/
def CacheOp.KeepsSize (op : CacheOp) : Prop := ∀ n, op ≠ .setcache n

theorem Named.perform (h : Named c) {op : CacheOp} (hop : op.KeepsSize)
    (hname : ∀ process, op = .pconnect process → LeavesNoName host c process) :
    Named (perform host c op).2 := by
  cases op with
  | pconnect process => exact .inr (h.prPconnect (hname process rfl))
  | disconnect pid => exact h.imp Fresh.prDisconnect Settled.prDisconnect
  | lock pid => exact h.imp Fresh.prLock Settled.prLock
  | unlock pid => exact h.imp Fresh.prUnlock Settled.prUnlock
  | dumpcache pid breakLocks =>
      exact h.imp (fun h => h.prDumpcache breakLocks) fun h => h.prDumpcache breakLocks
  | prunecache pno => exact h.imp (fun h => h.prPrunecache pno) fun h => h.prPrunecache pno
  | setcache n => exact absurd rfl (hop n)
  | checkup => exact h.imp Fresh.prCheckup Settled.prCheckup

/-- The cache after the calls of a run. -/
def reached (host : ProcessHost) (c : Cache) (ops : List CacheOp) : Cache :=
  ops.foldl (fun c op => (perform host c op).2) c

/-- No connection of the run leaves the name of a connected process in a slot that
it got no process for. -/
def LeavesNoNames (host : ProcessHost) (c : Cache) : List CacheOp → Prop
  | [] => True
  | op :: ops =>
      (∀ process, op = .pconnect process → LeavesNoName host c process) ∧
        LeavesNoNames host (perform host c op).2 ops

theorem Named.reached (h : Named c) {ops : List CacheOp} (hops : ∀ op ∈ ops, op.KeepsSize)
    (hnames : LeavesNoNames host c ops) : Named (reached host c ops) := by
  induction ops generalizing c with
  | nil => exact h
  | cons op ops ih =>
      refine ih (h.perform (hops op List.mem_cons_self) hnames.1) ?_ hnames.2
      exact fun op' hop' => hops op' (List.mem_cons_of_mem op hop')

theorem initial_named : Named initial :=
  .inl ⟨rfl, by decide, rfl, fun _ => rfl⟩

/-- After every run in which no slot that got no process has the name of one that
is connected, a process is found by its name and a task is not cached twice. -/
theorem processes_found (host : ProcessHost) (ops : List CacheOp)
    (hops : ∀ op ∈ ops, op.KeepsSize) (hnames : LeavesNoNames host initial ops) :
    (∀ pname, FindsByName host (reached host initial ops) pname) ∧
      ∀ ltp, CachesOnce host (reached host initial ops) ltp := by
  have hnamed := initial_named.reached hops hnames
  exact ⟨hnamed.findsByName, fun ltp => (hnamed.findsByName _).cachesOnce⟩

/-! ## A process that is hidden -/

/-- A host on which there is no process `y.e`. -/
def namedHost : ProcessHost where
  dead _ _ := false
  finfo _ _ := some 1
  propen opened _ name :=
    if name = "y.e" then none else some ⟨(opened.map Int.natAbs).sum + 1, 3, 4⟩
  findexe _ name := name
  propen_fresh opened t name s h := by
    split at h
    · cases h
    · cases h
      have hpos : ((opened.map Int.natAbs).sum : Int) + 1 ≠ 0 := by omega
      refine ⟨hpos, fun hmem => ?_⟩
      have hin := List.mem_map_of_mem (f := Int.natAbs) hmem
      have hle := List.le_sum_of_mem hin
      dsimp only at hle
      omega

theorem processes_found_twice :
    (∀ pname, FindsByName namedHost (reached namedHost initial
        [.pconnect "y.e", .pconnect "x.e", .pconnect "x.e", .disconnect 1]) pname) ∧
      ∀ ltp, CachesOnce namedHost (reached namedHost initial
        [.pconnect "y.e", .pconnect "x.e", .pconnect "x.e", .disconnect 1]) ltp := by
  refine processes_found namedHost _ (by simp [CacheOp.KeepsSize])
    ⟨fun _ h => ?_, fun _ h => ?_, fun _ h => ?_, nofun, trivial⟩ <;>
    cases h <;> decide

/-- The first process was given up for one that could not be spawned, and the
second one of its name is not found. -/
theorem not_found_hidden :
    ¬∀ (host : ProcessHost) (ops : List CacheOp), (∀ op ∈ ops, op.KeepsSize) →
      ∀ pname, FindsByName host (reached host initial ops) pname := by
  intro h
  have hfound := (h namedHost [.pconnect "x.e", .pconnect "x.e", .disconnect 1,
    .pconnect "y.e"] (by simp [CacheOp.KeepsSize]) "x.e").found
      ⟨2, by decide, 1, by decide, by decide, by decide⟩
  exact hfound.1 (by decide)

end Cache

end Iraf.Cl
