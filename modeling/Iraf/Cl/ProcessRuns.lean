import Mathlib
import Iraf.Cl.ProcessTable

/-!
# Runs of the process cache

Disconnecting, locking, flushing and resizing, and all calls of a run from the
start of the CL.
-/

namespace Iraf.Cl

namespace Cache

variable {host : ProcessHost} {lo hi lo' hi' : Nat} {T T' T'' : Table} {a : Move}
  {l l' : List Move} {c c' c'' : Cache} {i : Nat} {ok ok' : Move → Prop}

/-! ## A cache that was not set up yet -/

structure Fresh (c : Cache) : Prop where
  head : c.links.head = none
  size : 2 ≤ c.szPrcache ∧ c.szPrcache ≤ maxsubproc
  opened : c.opened = []
  free : ∀ i, (c.prCache i).prPid = 0

/-- The cache holds the table, or no procedure has set it up yet. -/
inductive Represents (c : Cache) (T : Table) : Prop
  | fresh (h : Fresh c) (table : T = .empty)
  | holds (h : Holds c T)

theorem initial_represents : Represents initial .empty :=
  .fresh ⟨rfl, by decide, rfl, fun _ => rfl⟩ rfl

theorem Fresh.prPdisconnect (h : Fresh c) (i : Nat) : c.prPdisconnect i = c := by
  rw [Cache.prPdisconnect, if_pos (.inl (h.free i))]

theorem Fresh.foldl {f : Cache → Nat → Cache} (h : Fresh c)
    (hf : ∀ c i, Fresh c → Fresh (f c i)) (l : List Nat) : Fresh (l.foldl f c) := by
  induction l generalizing c with
  | nil => exact h
  | cons i l ih => exact ih (hf c i h)

theorem Fresh.of_eq (h : Fresh c) (hsz : c'.szPrcache = c.szPrcache)
    (hlinks : c'.links = c.links) (hcache : c'.prCache = c.prCache)
    (hopened : c'.opened = c.opened) : Fresh c' :=
  ⟨hlinks ▸ h.head, hsz ▸ h.size, hopened ▸ h.opened, hcache ▸ h.free⟩

theorem Fresh.prCheckup (h : Fresh c) : Fresh (c.prCheckup host) := by
  have hcheck : Fresh ((List.range c.szPrcache).foldl (checkSlot host) c) := by
    refine h.foldl (fun e i he => ?_) _
    rw [checkSlot, if_neg (by simp [he.free i])]
    exact he
  exact hcheck.of_eq rfl rfl rfl rfl

theorem Fresh.dumpSlot (h : Fresh c) (pid : Int) (breakLocks : Bool) (i : Nat) :
    Fresh (dumpSlot pid breakLocks c i) := by
  have hmark : Fresh (c.setSlot i { c.prCache i with prLocked := false }) := by
    refine ⟨h.head, h.size, h.opened, fun j => ?_⟩
    by_cases hji : j = i
    · rw [hji, setSlot_self]
      exact h.free i
    · rw [setSlot_of_ne c hji]
      exact h.free j
  unfold Cache.dumpSlot
  dsimp only
  split
  · split
    · rw [hmark.prPdisconnect]
      exact hmark
    · rw [h.prPdisconnect]
      exact h
  · exact h

theorem Fresh.findPid (h : Fresh c) (pid : Int) : c.findPid pid = none := by
  rw [Cache.findPid, fromHead, h.head]
  rfl

theorem Fresh.prDisconnect {pid : Int} (h : Fresh c) : Fresh (c.prDisconnect host pid) := by
  unfold Cache.prDisconnect
  dsimp only
  rw [h.prCheckup.findPid]
  exact h.prCheckup

theorem Fresh.prLock {pid : Int} (h : Fresh c) : Fresh (c.prLock pid) := by
  unfold Cache.prLock
  rw [h.findPid, ite_self]
  exact h

theorem Fresh.prUnlock {pid : Int} (h : Fresh c) : Fresh (c.prUnlock pid).2 := by
  unfold Cache.prUnlock
  rw [h.findPid, ite_self]
  exact h

theorem Fresh.prDumpcache {pid : Int} (h : Fresh c) (breakLocks : Bool) :
    Fresh (c.prDumpcache host pid breakLocks) := by
  have hchecked : Fresh (c.prCheckup host) := h.prCheckup
  have hloop := hchecked.foldl (fun e i he => he.dumpSlot pid breakLocks i)
    (List.range (c.prCheckup host).szPrcache)
  unfold Cache.prDumpcache
  dsimp only
  split
  · exact hloop.of_eq rfl rfl rfl rfl
  · exact hloop

theorem Fresh.prPrunecache (h : Fresh c) (pno : Int) : Fresh (c.prPrunecache host pno) := by
  refine h.prCheckup.foldl (fun e i he => ?_) _
  rw [pruneSlot, if_neg (by simp [he.free i])]
  exact he

theorem prPconnect_connects (host : ProcessHost) (h : Represents c T) (process : String) :
    Connects host c T (c.prPconnect host process).1 (c.prPconnect host process).2 := by
  cases h with
  | fresh h table =>
      rw [prPconnect, if_pos h.head, table]
      obtain ⟨hle, hsz, hrest⟩ := connect_checked host
        (prInitcache_holds h.size h.opened) process
      have hclock := prInitcache_size c
      exact ⟨hclock.1 ▸ hle, hsz.trans hclock.2, hclock.1 ▸ hrest⟩
  | holds h =>
      rw [prPconnect, if_neg h.head_ne]
      obtain ⟨hleads, hclock⟩ := prCheckup_leads host c
      exact Connects.of_leads (hclock ▸ hleads) (hclock ▸ Nat.le_succ _) (fun _ => .inl)
        (fun T hT => connect_checked host hT process) h

/-! ## Marks -/

theorem findPid_spec (h : Holds c T) {pid : Int} (hf : c.findPid pid = some i) :
    i < c.szPrcache ∧ (c.prCache i).prPid = pid := by
  obtain ⟨hi, hp⟩ := h.find_head hf
  exact ⟨hi, by simpa using hp⟩

theorem mark_leads {pid : Int} (f : Entry → Entry) (g : Process → Process) (a : Move)
    (hpid : ∀ pr, (g pr).prPid = pr.prPid) (hfg : ∀ pr, entry (g pr) = f (entry pr))
    (hmove : ∀ T e, T pid = some e →
      Permitted host lo hi T a (Function.update T pid (some (f e))))
    (hf : c.findPid pid = some i) :
    Leads host lo hi (· = a) c (c.setSlot i (g (c.prCache i))) := by
  refine ⟨rfl, fun T h => ?_⟩
  obtain ⟨hi, hslot⟩ := findPid_spec h hf
  by_cases hne : (c.prCache i).prPid = 0
  · exact ⟨T, [], .nil T, nofun, h.free hne (by rw [hpid, hne])⟩
  · have hmark := h.mark hi (hpid (c.prCache i)) (by rw [hpid]; exact hne)
    rw [hpid, hfg, hslot] at hmark
    have he := h.slot i hi hne
    rw [hslot] at he
    exact ⟨_, [a], (hmove T _ he).moves, fun b hb => List.mem_singleton.1 hb, hmark⟩

theorem prDisconnect_leads (host : ProcessHost) (c : Cache) (pid : Int) :
    Leads host c.clock (c.prDisconnect host pid).clock
        (fun a => Died a ∨ a = .released pid) c (c.prDisconnect host pid) ∧
      (c.prDisconnect host pid).clock = c.clock + 1 := by
  obtain ⟨hcheck, hclock⟩ := prCheckup_leads host c
  unfold prDisconnect
  dsimp only
  cases hf : (c.prCheckup host).findPid pid with
  | none =>
      dsimp only
      exact ⟨hclock ▸ hcheck.widen le_rfl le_rfl fun _ => .inl, hclock⟩
  | some i =>
      have hmark : Leads host c.clock (c.clock + 1) (· = .released pid) (c.prCheckup host)
          ((c.prCheckup host).setSlot i
            { (c.prCheckup host).prCache i with prActive := false }) :=
        mark_leads (fun e => { e with active := false })
          (fun pr => { pr with prActive := false }) _ (fun _ => rfl) (fun _ => rfl)
          (fun _ _ he => .released he) hf
      have hlast : ((c.prCheckup host).setSlot i
          { (c.prCheckup host).prCache i with prActive := false }).clock =
            c.clock + 1 := hclock
      refine ⟨?_, hlast⟩
      rw [hlast]
      exact (hcheck.widen le_rfl le_rfl fun _ => .inl).trans
        (hmark.widen le_rfl le_rfl fun _ => .inr)

theorem prLock_leads (host : ProcessHost) (c : Cache) (pid : Int) :
    Leads host lo hi (· = .locked pid) c (c.prLock pid) := by
  unfold prLock
  split
  · exact .refl c
  · next i hf =>
    have hfind : c.findPid pid = some i := by
      split at hf
      · cases hf
      · exact hf
    exact mark_leads (fun e => { e with locked := true })
      (fun pr => { pr with prLocked := true }) _ (fun _ => rfl) (fun _ => rfl)
      (fun _ _ he => .locked he) hfind

theorem prLock_clock (c : Cache) (pid : Int) : (c.prLock pid).clock = c.clock := by
  unfold prLock
  split <;> rfl

theorem prUnlock_leads (host : ProcessHost) (c : Cache) (pid : Int) :
    Leads host lo hi (· = .unlocked pid) c (c.prUnlock pid).2 := by
  unfold prUnlock
  split
  · exact .refl c
  · next i hf =>
    have hfind : c.findPid pid = some i := by
      split at hf
      · cases hf
      · exact hf
    exact mark_leads (fun e => { e with locked := false })
      (fun pr => { pr with prLocked := false }) _ (fun _ => rfl) (fun _ => rfl)
      (fun _ _ he => .unlocked he) hfind

/-! ## Flushes -/

theorem dumpSlot_leads (pid : Int) (breakLocks : Bool) (hi : i < c.szPrcache) :
    Leads host lo hi' (fun a => Closed a ∨ LockBroken a ∧ breakLocks = true) c
        (dumpSlot pid breakLocks c i) ∧
      (dumpSlot pid breakLocks c i).clock = c.clock := by
  by_cases hskip : pid = 0 ∧ (c.prCache i).prPid ≠ 0 ∨ pid = (c.prCache i).prPid
  · by_cases hbreak : (breakLocks && (c.prCache i).prIdle) = true
    · have heq : dumpSlot pid breakLocks c i = (c.setSlot i { c.prCache i with
          prLocked := false }).prPdisconnect i := by
        simp only [dumpSlot, hskip, hbreak, if_true]
      obtain ⟨hsize, hclock⟩ := prPdisconnect_size (c.setSlot i { c.prCache i with
        prLocked := false }) i
      have hbroken : Leads host lo hi' (fun a => LockBroken a ∧ breakLocks = true) c
          (c.setSlot i { c.prCache i with prLocked := false }) := by
        refine ⟨rfl, fun T h => ?_⟩
        by_cases hne : (c.prCache i).prPid = 0
        · exact ⟨T, [], .nil T, nofun, h.free hne hne⟩
        · have hmark : Holds (c.setSlot i { c.prCache i with prLocked := false }) _ :=
            h.mark hi rfl hne
          rw [Bool.and_eq_true, Process.prIdle, Bool.not_eq_true'] at hbreak
          have hmove : Permitted host lo hi' T (.lockBroken (c.prCache i).prPid) _ :=
            .lockBroken (h.slot i hi hne) hbreak.2
          refine ⟨_, [.lockBroken _], hmove.moves, fun a ha => ?_, hmark⟩
          rw [List.mem_singleton.1 ha]
          exact ⟨⟨_, rfl⟩, hbreak.1⟩
      rw [heq]
      refine ⟨(hbroken.widen le_rfl le_rfl fun _ => .inr).trans ?_, hclock⟩
      have hclosed : Leads host lo hi' Closed (c.setSlot i { c.prCache i with
        prLocked := false }) _ := prPdisconnect_leads hi
      exact hclosed.widen le_rfl le_rfl fun _ => .inl
    · have heq : dumpSlot pid breakLocks c i = c.prPdisconnect i := by
        simp only [dumpSlot, hskip, hbreak, if_true, if_false, Bool.false_eq_true]
      rw [heq]
      exact ⟨(prPdisconnect_leads hi).widen le_rfl le_rfl fun _ => .inl,
        (prPdisconnect_size c i).2⟩
  · rw [dumpSlot, if_neg hskip]
    exact ⟨.refl c, rfl⟩

theorem prDumpcache_leads (host : ProcessHost) (c : Cache) (pid : Int)
    (breakLocks : Bool) :
    Leads host c.clock (c.clock + 1)
        (fun a => Died a ∨ Closed a ∨ LockBroken a ∧ breakLocks = true) c
        (c.prDumpcache host pid breakLocks) ∧
      (c.prDumpcache host pid breakLocks).clock = c.clock + 1 := by
  obtain ⟨hcheck, hclock⟩ := prCheckup_leads host c
  have hstep : ∀ (e : Cache) (i : Nat), i < e.szPrcache → e.clock = c.clock + 1 →
      Leads host c.clock (c.clock + 1)
          (fun a => Closed a ∨ LockBroken a ∧ breakLocks = true) e
          (dumpSlot pid breakLocks e i) ∧
        (dumpSlot pid breakLocks e i).clock = c.clock + 1 := by
    intro e i hi ht
    rw [← ht]
    exact dumpSlot_leads pid breakLocks hi
  obtain ⟨hloop, hclock'⟩ := Leads.foldl hstep (List.range (c.prCheckup host).szPrcache)
    (fun i hi => List.mem_range.1 hi) hclock
  have hfirst : Leads host c.clock (c.clock + 1)
      (fun a => Died a ∨ Closed a ∨ LockBroken a ∧ breakLocks = true) c
      (c.prCheckup host) := hcheck.widen le_rfl le_rfl fun _ => .inl
  have hall := hfirst.trans (hloop.widen le_rfl le_rfl fun _ => .inr)
  unfold prDumpcache
  dsimp only
  split
  · exact ⟨hall.trans (.of_eq rfl rfl rfl rfl), hclock'⟩
  · exact ⟨hall, hclock'⟩

theorem pruneSlot_leads (pno : Int) (hi : i < c.szPrcache) :
    Leads host lo hi' Closed c (pruneSlot pno c i) ∧
      (pruneSlot pno c i).clock = c.clock := by
  unfold pruneSlot
  dsimp only
  split
  · exact ⟨prPdisconnect_leads hi, (prPdisconnect_size c i).2⟩
  · exact ⟨.refl c, rfl⟩

theorem prPrunecache_leads (host : ProcessHost) (c : Cache) (pno : Int) :
    Leads host c.clock (c.clock + 1) (fun a => Died a ∨ Closed a) c
        (c.prPrunecache host pno) ∧
      (c.prPrunecache host pno).clock = c.clock + 1 := by
  obtain ⟨hcheck, hclock⟩ := prCheckup_leads host c
  have hstep : ∀ (e : Cache) (i : Nat), i < e.szPrcache → e.clock = c.clock + 1 →
      Leads host c.clock (c.clock + 1) Closed e (pruneSlot pno e i) ∧
        (pruneSlot pno e i).clock = c.clock + 1 := by
    intro e i hi ht
    rw [← ht]
    exact pruneSlot_leads pno hi
  obtain ⟨hloop, hclock'⟩ := Leads.foldl hstep (List.range (c.prCheckup host).szPrcache)
    (fun i hi => List.mem_range.1 hi) hclock
  exact ⟨(hcheck.widen le_rfl le_rfl fun _ => .inl).trans
    (hloop.widen le_rfl le_rfl fun _ => .inr), hclock'⟩

/-! ## Resizes -/

theorem foldl_slots {f : Cache → Nat → Cache} {t : Nat} {P : Process → Process → Prop}
    (honly : ∀ c i j, j ≠ i → (f c i).prCache j = c.prCache j)
    (hclock : ∀ c i, (f c i).clock = c.clock)
    (hP : ∀ c i, c.clock = t → P (c.prCache i) ((f c i).prCache i)) (ht : c.clock = t)
    (n : Nat) :
    ((List.range n).foldl f c).clock = t ∧
      (∀ j, n ≤ j → ((List.range n).foldl f c).prCache j = c.prCache j) ∧
      ∀ j < n, P (c.prCache j) (((List.range n).foldl f c).prCache j) := by
  induction n with
  | zero => exact ⟨ht, fun _ _ => rfl, nofun⟩
  | succ n ih =>
      obtain ⟨hc, hsame, hdone⟩ := ih
      rw [List.range_succ, List.foldl_concat]
      refine ⟨(hclock _ n).trans hc, fun j hj => ?_, fun j hj => ?_⟩
      · rw [honly _ n j (by omega)]
        exact hsame j (by omega)
      · rcases Nat.lt_succ_iff_lt_or_eq.1 hj with hlt | rfl
        · rw [honly _ n j (by omega)]
          exact hdone j hlt
        · have := hP _ j hc
          rwa [hsame j le_rfl] at this

theorem prPdisconnect_only (c : Cache) {i j : Nat} (hne : j ≠ i) :
    (c.prPdisconnect i).prCache j = c.prCache j := by
  unfold prPdisconnect
  dsimp only
  split
  · rfl
  · exact setSlot_of_ne c hne _

theorem prPdisconnect_pid (c : Cache) (i : Nat) (hfree : (c.prCache i).prBusy = false) :
    ((c.prPdisconnect i).prCache i).prPid = 0 := by
  by_cases hzero : (c.prCache i).prPid = 0
  · rw [prPdisconnect, if_pos (.inl hzero), hzero]
  · rw [prPdisconnect, if_neg (by simp [hzero, hfree])]
    simp [prTotail, Cache.close, setSlot]

/-- No task is running in a process that is alive. -/
def Quiet (host : ProcessHost) (c : Cache) : Prop :=
  ∀ i < c.szPrcache, (c.prCache i).prPid ≠ 0 → (c.prCache i).prActive = true →
    host.dead c.clock (c.prCache i).prPid = true

theorem Quiet.checkup (hq : Quiet host c) :
    ∀ i < c.szPrcache, ((c.prCheckup host).prCache i).prPid = 0 ∨
      ((c.prCheckup host).prCache i).prActive = false := by
  obtain ⟨-, -, hdone⟩ := foldl_slots (f := checkSlot host) (c := c) (t := c.clock)
    (P := fun b a => (b.prPid ≠ 0 → b.prActive = true → host.dead c.clock b.prPid = true) →
      a.prPid = 0 ∨ a.prActive = false)
    (fun e i j hne => by
      unfold checkSlot
      dsimp only
      split
      · rw [prPdisconnect_only _ hne, setSlot_of_ne e hne]
      · rfl)
    (fun e i => by
      unfold checkSlot
      dsimp only
      split
      · exact (prPdisconnect_size _ i).2
      · rfl)
    (fun e i ht hquiet => by
      unfold checkSlot
      dsimp only
      split
      next => exact .inl (prPdisconnect_pid _ i (by rw [setSlot_self]; rfl))
      next hdead =>
        rw [ht] at hdead
        by_cases hzero : (e.prCache i).prPid = 0
        · exact .inl hzero
        · right
          by_contra hactive
          rw [Bool.not_eq_false] at hactive
          exact hdead ⟨hzero, hquiet hzero hactive⟩)
    rfl c.szPrcache
  exact fun i hi => hdone i hi (hq i hi)

theorem Quiet.dumpcache (hq : Quiet host c) :
    ∀ i < c.szPrcache, ((c.prDumpcache host 0 true).prCache i).prPid = 0 := by
  have hsz : (c.prCheckup host).szPrcache = c.szPrcache := (prCheckup_leads host c).1.size
  obtain ⟨-, -, hdone⟩ := foldl_slots (f := dumpSlot 0 true) (c := c.prCheckup host)
    (t := c.clock + 1) (P := fun b a => (b.prPid = 0 ∨ b.prActive = false) → a.prPid = 0)
    (fun e i j hne => by
      unfold dumpSlot
      dsimp only
      split
      · rw [prPdisconnect_only _ hne]
        split
        · exact setSlot_of_ne e hne _
        · rfl
      · rfl)
    (fun e i => by
      unfold dumpSlot
      dsimp only
      split
      · rw [(prPdisconnect_size _ i).2]
        split <;> rfl
      · rfl)
    (fun e i _ hidle => by
      unfold dumpSlot
      dsimp only
      split
      next =>
        by_cases hactive : (e.prCache i).prActive = false
        · refine prPdisconnect_pid _ i ?_
          simp [Process.prIdle, hactive, setSlot, Process.prBusy]
        · have hzero := hidle.resolve_right hactive
          have hskip : ∀ c' : Cache, (c'.prCache i).prPid = 0 →
              ((c'.prPdisconnect i).prCache i).prPid = 0 := by
            intro c' hc'
            rw [prPdisconnect, if_pos (.inl hc'), hc']
          refine hskip _ ?_
          split
          · rw [setSlot_self]
            exact hzero
          · exact hzero
      next hnone =>
        by_contra hne
        exact hnone (.inl ⟨rfl, fun hzero => hne hzero⟩))
    (prCheckup_leads host c).2 c.szPrcache
  intro i hi
  have := hdone i hi (hq.checkup i hi)
  rw [← hsz] at this
  exact this

/-- A move of a resize: anything but an unlock. -/
def Resizes (a : Move) : Prop := ∀ pid, a ≠ .unlocked pid

theorem reconnect_moves (host : ProcessHost) (names : List String) (h : Holds c T) :
    c.clock ≤ (reconnect host names c).clock ∧
      ∃ T' l, Moves host c.clock (reconnect host names c).clock T l T' ∧
        (∀ a ∈ l, Resizes a) ∧ Holds (reconnect host names c) T' := by
  induction names generalizing c T with
  | nil => exact ⟨le_rfl, T, [], .nil T, nofun, h⟩
  | cons name names ih =>
      obtain ⟨hle, -, T₁, l₁, hl₁, hkind₁, -, hT₁⟩ := prPconnect_connects host
        (.holds h) (host.findexe c.clock name)
      have hresize : ∀ a ∈ l₁, Resizes a := by
        intro a ha pid
        rcases hkind₁ a ha with ⟨q, rfl⟩ | ⟨q, rfl⟩ | ⟨q, rfl | rfl⟩ <;> exact nofun
      generalize hr : c.prPconnect host (host.findexe c.clock name) = r at *
      obtain ⟨result, c₁⟩ := r
      cases result with
      | process pid fdIn fdOut =>
          have hstep : reconnect host (name :: names) c =
              reconnect host names ((c₁.prDisconnect host pid).prLock pid) := by
            simp only [reconnect, hr]
          obtain ⟨hdis, hclock⟩ := prDisconnect_leads host c₁ pid
          have hlock : Leads host c₁.clock (c₁.prDisconnect host pid).clock
              (· = .locked pid) _ _ := prLock_leads host (c₁.prDisconnect host pid) pid
          have hclock' := prLock_clock (c₁.prDisconnect host pid) pid
          have hdis' : Leads host c₁.clock (c₁.prDisconnect host pid).clock Resizes c₁
              (c₁.prDisconnect host pid) := hdis.widen le_rfl le_rfl fun a ha q => by
            rcases ha with ⟨_, rfl⟩ | rfl <;> exact nofun
          have hboth := hdis'.trans (hlock.widen le_rfl le_rfl fun a ha q => by
            rw [ha]
            exact nofun)
          obtain ⟨T₂, l₂, hl₂, hkind₂, hT₂⟩ := hboth.moves T₁ hT₁
          obtain ⟨hle₃, T₃, l₃, hl₃, hkind₃, hT₃⟩ := ih hT₂
          rw [hstep]
          rw [hclock'] at hle₃ hl₃
          have hle₂ : c₁.clock ≤ (c₁.prDisconnect host pid).clock := by
            rw [hclock]
            exact Nat.le_succ _
          refine ⟨hle.trans (hle₂.trans hle₃), T₃, l₁ ++ l₂ ++ l₃, ?_, fun a ha => ?_, hT₃⟩
          · exact ((hl₁.widen le_rfl (hle₂.trans hle₃)).append
              (hl₂.widen hle hle₃)).append (hl₃.widen (hle.trans hle₂) le_rfl)
          · rcases List.mem_append.1 ha with hin | hin
            · exact (List.mem_append.1 hin).elim (hresize a) (hkind₂ a)
            · exact hkind₃ a hin
      | failed =>
          have hstep : reconnect host (name :: names) c = c₁ := by
            simp only [reconnect, hr]
          rw [hstep]
          exact ⟨hle, T₁, l₁, hl₁, hresize, hT₁⟩
      | deadlock =>
          have hstep : reconnect host (name :: names) c = c₁ := by
            simp only [reconnect, hr]
          rw [hstep]
          exact ⟨hle, T₁, l₁, hl₁, hresize, hT₁⟩

theorem Holds.eq_empty (h : Holds c T) (hfree : ∀ i < c.szPrcache, (c.prCache i).prPid = 0) :
    T = .empty ∧ c.opened = [] := by
  have hT : T = .empty := by
    funext pid
    cases he : T pid with
    | none => rfl
    | some e =>
        obtain ⟨i, hi, hip⟩ := h.holder pid e he
        rw [hfree i hi] at hip
        rw [← hip, h.zero] at he
        cases he
  refine ⟨hT, List.eq_nil_iff_forall_not_mem.2 fun pid hmem => ?_⟩
  have := (h.opened pid).1 hmem
  rw [hT] at this
  exact this rfl

theorem resize_holds (n : Int) (hopened : c.opened = []) :
    Holds (c.resize n).prInitcache .empty := by
  refine prInitcache_holds ?_ hopened
  have hmax : (2 : Nat) ≤ maxsubproc := by decide
  unfold resize
  dsimp only
  split
  · exact ⟨le_rfl, hmax⟩
  · split
    · exact ⟨hmax, le_rfl⟩
    · omega

theorem resize_clock (c : Cache) (n : Int) : (c.resize n).prInitcache.clock = c.clock :=
  (prInitcache_size _).1

theorem prSetcache_moves (hq : Quiet host c) (h : Represents c T) (n : Int) :
    ∃ T' l, Moves host c.clock (c.prSetcache host n).clock T l T' ∧
      (∀ a ∈ l, Resizes a) ∧ Holds (c.prSetcache host n) T' := by
  cases h with
  | fresh h table =>
      have hopened : c.prInitcache.opened = [] := by
        simp only [prInitcache, foldl_prTohead, h.opened]
      have hset : c.prSetcache host n = (c.prInitcache.resize n).prInitcache := by
        simp [prSetcache, h.head, reconnect]
      rw [hset, resize_clock, (prInitcache_size c).1]
      exact ⟨T, [], .nil T, fun a ha => absurd ha List.not_mem_nil,
        table ▸ resize_holds n hopened⟩
  | holds h =>
      obtain ⟨hdump, hclock⟩ := prDumpcache_leads host c 0 true
      obtain ⟨T₁, l₁, hl₁, hkind₁, hT₁⟩ := hdump.moves T h
      obtain ⟨hT₁', hopened⟩ := hT₁.eq_empty fun i hi =>
        hq.dumpcache i (hdump.size ▸ hi)
      have hset : ∃ names, c.prSetcache host n =
          reconnect host names ((c.prDumpcache host 0 true).resize n).prInitcache := by
        simp only [prSetcache, h.head_ne, if_false]
        exact ⟨_, rfl⟩
      obtain ⟨names, hset⟩ := hset
      obtain ⟨hle, T₂, l₂, hl₂, hkind₂, hT₂⟩ :=
        reconnect_moves host names (resize_holds n hopened)
      rw [resize_clock, hclock] at hle hl₂
      rw [hT₁'] at hl₁
      rw [hset]
      refine ⟨T₂, l₁ ++ l₂, (hl₁.widen le_rfl hle).append
        (hl₂.widen (Nat.le_succ _) le_rfl), fun a ha pid => ?_, hT₂⟩
      rcases List.mem_append.1 ha with hin | hin
      · rcases hkind₁ a hin with ⟨q, rfl⟩ | ⟨q, rfl⟩ | ⟨⟨q, rfl⟩, -⟩ <;>
          (intro hspawned; cases hspawned)
      · exact hkind₂ a hin pid

/-! ## Runs -/

/-- A call of a run. -/
inductive CacheOp where
  | pconnect (process : String)
  | disconnect (pid : Int)
  | lock (pid : Int)
  | unlock (pid : Int)
  | dumpcache (pid : Int) (breakLocks : Bool)
  | prunecache (pno : Int)
  | setcache (newSzprcache : Int)
  | checkup
  deriving DecidableEq, Repr

/-- What a connection gives, and the cache. -/
def perform (host : ProcessHost) (c : Cache) : CacheOp → Connected × Cache
  | .pconnect process => c.prPconnect host process
  | .disconnect pid => (.failed, c.prDisconnect host pid)
  | .lock pid => (.failed, c.prLock pid)
  | .unlock pid => (.failed, (c.prUnlock pid).2)
  | .dumpcache pid breakLocks => (.failed, c.prDumpcache host pid breakLocks)
  | .prunecache pno => (.failed, c.prPrunecache host pno)
  | .setcache newSzprcache => (.failed, c.prSetcache host newSzprcache)
  | .checkup => (.failed, c.prCheckup host)

/-- The moves that a call may make: no lock is broken but by a flush that is
asked to and a resize. -/
def CacheOp.Makes : CacheOp → Move → Prop
  | .pconnect _, a => Died a ∨ Closed a ∨ ∃ pid, a = .spawned pid ∨ a = .reused pid
  | .disconnect pid, a => Died a ∨ a = .released pid
  | .lock pid, a => a = .locked pid
  | .unlock pid, a => a = .unlocked pid
  | .dumpcache _ breakLocks, a => Died a ∨ Closed a ∨ LockBroken a ∧ breakLocks = true
  | .prunecache _, a => Died a ∨ Closed a
  | .setcache _, a => Resizes a
  | .checkup, a => Died a

/-- Every call of the run takes the table through moves of its own, after which
the cache stands for the table. -/
inductive Faithful (host : ProcessHost) : Cache → Table → List CacheOp → Prop
  | nil (c : Cache) (T : Table) : Faithful host c T []
  | cons {c c' : Cache} {T T' : Table} {op : CacheOp} {ops : List CacheOp}
      {r : Connected} {l : List Move} (hrun : perform host c op = (r, c'))
      (hmoves : Moves host c.clock c'.clock T l T') (hkind : ∀ a ∈ l, op.Makes a)
      (hout : HandsOut r l) (hrep : Represents c' T') (hrest : Faithful host c' T' ops) :
      Faithful host c T (op :: ops)

theorem Faithful.of_cons {op : CacheOp} {ops : List CacheOp}
    (h : Faithful host c T (op :: ops)) :
    ∃ T', Represents (perform host c op).2 T' ∧ Faithful host (perform host c op).2 T' ops := by
  cases h with
  | cons hrun hmoves hkind hout hrep hrest =>
      rw [hrun]
      exact ⟨_, hrep, hrest⟩

/-- The cache is not resized while a task is running. -/
def QuietRun (host : ProcessHost) (c : Cache) : List CacheOp → Prop
  | [] => True
  | op :: ops =>
      (∀ n, op = .setcache n → Quiet host c) ∧ QuietRun host (perform host c op).2 ops

theorem Represents.step (h : Represents c T) (op : CacheOp)
    (hq : ∀ n, op = .setcache n → Quiet host c) :
    ∃ T' l, Moves host c.clock (perform host c op).2.clock T l T' ∧
      (∀ a ∈ l, op.Makes a) ∧ HandsOut (perform host c op).1 l ∧
      Represents (perform host c op).2 T' := by
  have hacts : ∀ {ok : Move → Prop} {e : Cache}, Leads host c.clock e.clock ok c e →
      (Fresh c → Fresh e) → ∃ T' l, Moves host c.clock e.clock T l T' ∧
        (∀ a ∈ l, ok a) ∧ HandsOut .failed l ∧ Represents e T' := by
    intro ok e hleads hfresh
    cases h with
    | fresh h table => exact ⟨T, [], .nil T, nofun, nofun, .fresh (hfresh h) table⟩
    | holds h =>
        obtain ⟨T', l, hl, hkind, hT'⟩ := hleads.moves T h
        exact ⟨T', l, hl, hkind, nofun, .holds hT'⟩
  cases op with
  | pconnect process =>
      obtain ⟨-, -, T', l, hl, hkind, hout, hT'⟩ :=
        prPconnect_connects host h process
      exact ⟨T', l, hl, hkind, hout, .holds hT'⟩
  | disconnect pid =>
      exact hacts (prDisconnect_leads host c pid).1 Fresh.prDisconnect
  | lock pid =>
      exact hacts (prLock_leads host c pid) Fresh.prLock
  | unlock pid =>
      exact hacts (prUnlock_leads host c pid) Fresh.prUnlock
  | dumpcache pid breakLocks =>
      obtain ⟨hdump, hclock⟩ := prDumpcache_leads host c pid breakLocks
      rw [← hclock] at hdump
      exact hacts hdump fun hf => hf.prDumpcache breakLocks
  | prunecache pno =>
      obtain ⟨hprune, hclock⟩ := prPrunecache_leads host c pno
      rw [← hclock] at hprune
      exact hacts hprune fun hf => hf.prPrunecache pno
  | setcache n =>
      obtain ⟨T', l, hl, hkind, hT'⟩ := prSetcache_moves (hq n rfl) h n
      exact ⟨T', l, hl, hkind, nofun, .holds hT'⟩
  | checkup =>
      obtain ⟨hcheck, hclock⟩ := prCheckup_leads host c
      rw [← hclock] at hcheck
      exact hacts hcheck Fresh.prCheckup

theorem Represents.faithful (h : Represents c T) (ops : List CacheOp)
    (hq : QuietRun host c ops) : Faithful host c T ops := by
  induction ops generalizing c T with
  | nil => exact .nil c T
  | cons op ops ih =>
      obtain ⟨T', l, hl, hkind, hout, hT'⟩ := h.step op hq.1
      exact .cons rfl hl hkind hout hT' (ih hT' hq.2)

/-- In every run that does not resize the cache while a task is running, no
process is lost, closed while it is in use or handed out twice. -/
theorem process_cache (host : ProcessHost) (ops : List CacheOp)
    (hq : QuietRun host initial ops) : Faithful host initial .empty ops :=
  Represents.faithful initial_represents ops hq

/-! ## A resize while a task is running -/

/-- A host that runs one process at a time. -/
def singleHost : ProcessHost where
  dead _ _ := false
  finfo _ _ := some 1
  propen opened _ _ := if opened = [] then some ⟨7, 3, 4⟩ else none
  findexe _ name := name
  propen_fresh opened t name s h := by
    split at h
    next hnil =>
      cases h
      exact ⟨by decide, by rw [hnil]; exact List.not_mem_nil⟩
    next => cases h

theorem process_cache_idle :
    Faithful singleHost initial .empty
      [.pconnect "x.e", .disconnect 7, .setcache 4, .pconnect "x.e"] := by
  refine process_cache singleHost _ ⟨nofun, nofun, fun _ _ => ?_, nofun, trivial⟩
  unfold Quiet
  decide

/-- The cache after a resize while a task is running. -/
def resizedActive : Cache :=
  (perform singleHost (perform singleHost initial (.pconnect "x.e")).2 (.setcache 4)).2

/-- The process that was handed out is in no slot after the resize. -/
theorem not_faithful_active :
    ¬Faithful singleHost initial .empty [.pconnect "x.e", .setcache 4] := by
  intro h
  obtain ⟨_, -, hrest⟩ := h.of_cons
  obtain ⟨T, hfresh | hT, -⟩ := hrest.of_cons
  · have hhead : resizedActive.links.head ≠ none := by decide
    exact absurd hfresh.head hhead
  · obtain ⟨e, he⟩ : ∃ e, T 7 = some e :=
      Option.ne_none_iff_exists'.1 ((hT.opened 7).1 (by decide))
    obtain ⟨i, hi, hpid⟩ := hT.holder 7 e he
    have hnone : ∀ j < resizedActive.szPrcache, (resizedActive.prCache j).prPid ≠ 7 := by
      decide
    exact hnone i hi hpid

end Cache

end Iraf.Cl
