import Iraf.Cl.ProcessCache
import Mathlib.Data.List.Perm.Basic

/-!
# The process cache keeps the processes it opened

The abstract table has the processes that are open, each with what it was opened
for and whether it is in use or locked.  Every procedure of the cache takes the
table through moves that the host bears out, and the slots hold the processes of
the table, each in one slot.
-/

namespace Iraf.Cl

/-! ## The abstract table -/

structure Entry where
  name : String
  time : Int
  active : Bool
  locked : Bool
  deriving DecidableEq, Repr

abbrev Table := Int → Option Entry

def Table.empty : Table := fun _ => none

/-- What may happen to a process. -/
inductive Move where
  /-- It is closed because it died. -/
  | died (pid : Int)
  /-- It is closed. -/
  | closed (pid : Int)
  /-- It is opened and handed out. -/
  | spawned (pid : Int)
  /-- It is handed out again. -/
  | reused (pid : Int)
  | released (pid : Int)
  | locked (pid : Int)
  | unlocked (pid : Int)
  | lockBroken (pid : Int)
  deriving DecidableEq, Repr

/-- The moves that are permitted, with what the host answers from a time on to
another one. -/
inductive Permitted (host : ProcessHost) (lo hi : Nat) : Table → Move → Table → Prop
  | died {T : Table} {pid : Int} {e : Entry} (t : Nat) (hlo : lo ≤ t) (hhi : t < hi)
      (he : T pid = some e) (hdead : host.dead t pid = true) :
      Permitted host lo hi T (.died pid) (Function.update T pid none)
  | closed {T : Table} {pid : Int} {e : Entry} (he : T pid = some e)
      (hidle : e.active = false) (hfree : e.locked = false) :
      Permitted host lo hi T (.closed pid) (Function.update T pid none)
  | spawned {T : Table} {pid time : Int} {name : String} (hpid : pid ≠ 0)
      (hnew : T pid = none)
      (htime : time = 0 ∨ ∃ t, lo ≤ t ∧ t < hi ∧ host.finfo t name = some time) :
      Permitted host lo hi T (.spawned pid)
        (Function.update T pid (some ⟨name, time, true, false⟩))
  | reused {T : Table} {pid : Int} {e : Entry} (he : T pid = some e)
      (hidle : e.active = false)
      (hnew : e.locked = true ∨ ∃ t mtime, lo ≤ t ∧ t < hi ∧
        host.finfo t e.name = some mtime ∧ mtime ≤ e.time) :
      Permitted host lo hi T (.reused pid)
        (Function.update T pid (some { e with active := true }))
  | released {T : Table} {pid : Int} {e : Entry} (he : T pid = some e) :
      Permitted host lo hi T (.released pid)
        (Function.update T pid (some { e with active := false }))
  | locked {T : Table} {pid : Int} {e : Entry} (he : T pid = some e) :
      Permitted host lo hi T (.locked pid)
        (Function.update T pid (some { e with locked := true }))
  | unlocked {T : Table} {pid : Int} {e : Entry} (he : T pid = some e) :
      Permitted host lo hi T (.unlocked pid)
        (Function.update T pid (some { e with locked := false }))
  | lockBroken {T : Table} {pid : Int} {e : Entry} (he : T pid = some e)
      (hidle : e.active = false) :
      Permitted host lo hi T (.lockBroken pid)
        (Function.update T pid (some { e with locked := false }))

/-- Moves one after the other. -/
inductive Moves (host : ProcessHost) (lo hi : Nat) : Table → List Move → Table → Prop
  | nil (T : Table) : Moves host lo hi T [] T
  | cons {T T' T'' : Table} {a : Move} {l : List Move} (h : Permitted host lo hi T a T')
      (hrest : Moves host lo hi T' l T'') : Moves host lo hi T (a :: l) T''

variable {host : ProcessHost} {lo hi lo' hi' : Nat} {T T' T'' : Table} {a : Move}
  {l l' : List Move}

theorem Permitted.widen (h : Permitted host lo hi T a T') (hlo : lo' ≤ lo)
    (hhi : hi ≤ hi') : Permitted host lo' hi' T a T' := by
  cases h with
  | died t hl hh he hdead => exact .died t (hlo.trans hl) (hh.trans_le hhi) he hdead
  | closed he hidle hfree => exact .closed he hidle hfree
  | spawned hpid hnew htime =>
      exact .spawned hpid hnew (htime.imp id fun ⟨t, hl, hh, ht⟩ =>
        ⟨t, hlo.trans hl, hh.trans_le hhi, ht⟩)
  | reused he hidle hnew =>
      exact .reused he hidle (hnew.imp id fun ⟨t, m, hl, hh, ht⟩ =>
        ⟨t, m, hlo.trans hl, hh.trans_le hhi, ht⟩)
  | released he => exact .released he
  | locked he => exact .locked he
  | unlocked he => exact .unlocked he
  | lockBroken he hidle => exact .lockBroken he hidle

theorem Moves.widen (h : Moves host lo hi T l T') (hlo : lo' ≤ lo) (hhi : hi ≤ hi') :
    Moves host lo' hi' T l T' := by
  induction h with
  | nil T => exact .nil T
  | cons h hrest ih => exact .cons (h.widen hlo hhi) ih

theorem Moves.append (h : Moves host lo hi T l T') (h' : Moves host lo hi T' l' T'') :
    Moves host lo hi T (l ++ l') T'' := by
  induction h with
  | nil T => exact h'
  | cons h hrest ih => exact .cons h (ih h')

theorem Permitted.moves (h : Permitted host lo hi T a T') : Moves host lo hi T [a] T' :=
  .cons h (.nil T')

/-! ## The slots -/

namespace Cache

def entry (pr : Process) : Entry := ⟨pr.prName, pr.prTime, pr.prActive, pr.prLocked⟩

/-- The slots hold the processes of the table, each in one slot, and the list has
every slot once. -/
structure Holds (c : Cache) (T : Table) : Prop where
  size : 2 ≤ c.szPrcache ∧ c.szPrcache ≤ maxsubproc
  linked : ∃ l, l.Perm (List.range c.szPrcache) ∧ Linked c.links l
  slot : ∀ i < c.szPrcache, (c.prCache i).prPid ≠ 0 →
    T (c.prCache i).prPid = some (entry (c.prCache i))
  holder : ∀ pid e, T pid = some e → ∃ i < c.szPrcache, (c.prCache i).prPid = pid
  once : ∀ i < c.szPrcache, ∀ j < c.szPrcache, (c.prCache i).prPid ≠ 0 →
    (c.prCache i).prPid = (c.prCache j).prPid → i = j
  zero : T 0 = none
  opened : ∀ pid, pid ∈ c.opened ↔ T pid ≠ none
  nodup : c.opened.Nodup

variable {c c' : Cache} {i : Nat}

/-! ## Changes of one slot -/

theorem Holds.tohead (h : Holds c T) (hi : i < c.szPrcache) :
    Holds (c.prTohead i) T := by
  obtain ⟨l, hperm, hl⟩ := h.linked
  have hmem : i ∈ l := hperm.mem_iff.2 (List.mem_range.2 hi)
  refine { h with linked := ⟨i :: l.erase i, ?_, hl.toHead (List.ne_nil_of_mem hmem)
    (.inl hmem)⟩ }
  exact (List.perm_cons_erase hmem).symm.trans hperm

theorem Holds.totail (h : Holds c T) (hi : i < c.szPrcache) :
    Holds (c.prTotail i) T := by
  obtain ⟨l, hperm, hl⟩ := h.linked
  have hmem : i ∈ l := hperm.mem_iff.2 (List.mem_range.2 hi)
  refine { h with linked := ⟨l.erase i ++ [i], ?_, hl.toTail hmem⟩ }
  exact (List.perm_append_singleton i _).trans
    ((List.perm_cons_erase hmem).symm.trans hperm)

theorem setSlot_self (c : Cache) (i : Nat) (pr : Process) :
    (c.setSlot i pr).prCache i = pr := Function.update_self ..

theorem setSlot_of_ne (c : Cache) {i j : Nat} (hne : j ≠ i) (pr : Process) :
    (c.setSlot i pr).prCache j = c.prCache j := Function.update_of_ne hne ..

theorem Holds.mark (h : Holds c T) (hi : i < c.szPrcache) {pr : Process}
    (hpid : pr.prPid = (c.prCache i).prPid) (hne : pr.prPid ≠ 0) :
    Holds (c.setSlot i pr) (Function.update T pr.prPid (some (entry pr))) := by
  have hpids : ∀ j, ((c.setSlot i pr).prCache j).prPid = (c.prCache j).prPid := by
    intro j
    by_cases hj : j = i
    · rw [hj, setSlot_self, hpid]
    · rw [setSlot_of_ne c hj]
  have hT : T pr.prPid ≠ none := by
    rw [hpid, h.slot i hi (hpid ▸ hne)]
    exact nofun
  refine ⟨h.size, h.linked, fun j hj hnz => ?_, fun pid e he => ?_,
    fun j hj j' hj' hnz heq => ?_, ?_, fun pid => ?_, h.nodup⟩
  · by_cases hji : j = i
    · rw [hji, setSlot_self, Function.update_self]
    · have hdiff : (c.prCache j).prPid ≠ pr.prPid := by
        rw [hpid]
        intro heq
        rw [hpids] at hnz
        exact hji (h.once j hj i hi hnz heq)
      rw [setSlot_of_ne c hji, Function.update_of_ne hdiff]
      exact h.slot j hj (by rwa [hpids] at hnz)
  · by_cases hp : pid = pr.prPid
    · exact ⟨i, hi, by rw [setSlot_self, hp]⟩
    · rw [Function.update_of_ne hp] at he
      obtain ⟨j, hj, hjp⟩ := h.holder pid e he
      exact ⟨j, hj, by rw [hpids, hjp]⟩
  · rw [hpids, hpids] at heq
    rw [hpids] at hnz
    exact h.once j hj j' hj' hnz heq
  · rw [Function.update_of_ne hne.symm, h.zero]
  · by_cases hp : pid = pr.prPid
    · rw [hp, Function.update_self]
      exact ⟨fun _ => nofun, fun _ => (h.opened _).2 hT⟩
    · rw [Function.update_of_ne hp]
      exact h.opened pid

theorem Holds.free (h : Holds c T) {pr : Process} (hold : (c.prCache i).prPid = 0)
    (hpid : pr.prPid = 0) : Holds (c.setSlot i pr) T := by
  have hpids : ∀ j, ((c.setSlot i pr).prCache j).prPid = (c.prCache j).prPid := by
    intro j
    by_cases hj : j = i
    · rw [hj, setSlot_self, hpid, hold]
    · rw [setSlot_of_ne c hj]
  refine ⟨h.size, h.linked, fun j hj hnz => ?_, fun pid e he => ?_,
    fun j hj j' hj' hnz heq => ?_, h.zero, h.opened, h.nodup⟩
  · have hji : j ≠ i := by
      rintro rfl
      rw [hpids] at hnz
      exact hnz hold
    rw [hpids] at hnz
    rw [setSlot_of_ne c hji]
    exact h.slot j hj hnz
  · obtain ⟨j, hj, hjp⟩ := h.holder pid e he
    exact ⟨j, hj, by rw [hpids, hjp]⟩
  · rw [hpids, hpids] at heq
    rw [hpids] at hnz
    exact h.once j hj j' hj' hnz heq

theorem Holds.close (h : Holds c T) (hi : i < c.szPrcache)
    (hne : (c.prCache i).prPid ≠ 0) :
    Holds (c.close i) (Function.update T (c.prCache i).prPid none) := by
  have hself : ((c.close i).prCache i).prPid = 0 := by
    simp [Cache.close, setSlot]
  have hother : ∀ {j}, j ≠ i → (c.close i).prCache j = c.prCache j :=
    fun hj => setSlot_of_ne c hj _
  refine ⟨h.size, h.linked, fun j hj hnz => ?_, fun pid e he => ?_,
    fun j hj j' hj' hnz heq => ?_, ?_, fun pid => ?_, h.nodup.erase _⟩
  · have hji : j ≠ i := by
      rintro rfl
      exact hnz hself
    rw [hother hji] at hnz ⊢
    rw [Function.update_of_ne fun heq => hji (h.once j hj i hi hnz heq)]
    exact h.slot j hj hnz
  · have hp : pid ≠ (c.prCache i).prPid := by
      rintro rfl
      rw [Function.update_self] at he
      cases he
    rw [Function.update_of_ne hp] at he
    obtain ⟨j, hj, hjp⟩ := h.holder pid e he
    have hji : j ≠ i := by
      rintro rfl
      exact hp hjp.symm
    exact ⟨j, hj, by rw [hother hji, hjp]⟩
  · have hji : j ≠ i := by
      rintro rfl
      exact hnz hself
    have hji' : j' ≠ i := by
      rintro rfl
      rw [hself] at heq
      exact hnz heq
    rw [hother hji] at hnz heq
    rw [hother hji'] at heq
    exact h.once j hj j' hj' hnz heq
  · rw [Function.update_of_ne hne.symm, h.zero]
  · show pid ∈ c.opened.erase _ ↔ _
    rw [h.nodup.mem_erase_iff, h.opened]
    by_cases hp : pid = (c.prCache i).prPid
    · simp [hp]
    · rw [Function.update_of_ne hp]
      simp [hp]

/-! ## The list of the slots -/

theorem Holds.fromHead (h : Holds c T) : c.fromHead.Perm (List.range c.szPrcache) := by
  obtain ⟨l, hperm, hl⟩ := h.linked
  have hlen : l.length < maxsubproc + 1 := by
    rw [hperm.length_eq, List.length_range]
    have := h.size.2
    omega
  rw [Cache.fromHead, hl.down.walk_eq hlen]
  exact hperm

theorem Holds.fromTail (h : Holds c T) : c.fromTail.Perm (List.range c.szPrcache) := by
  obtain ⟨l, hperm, hl⟩ := h.linked
  have hlen : l.reverse.length < maxsubproc + 1 := by
    rw [List.length_reverse, hperm.length_eq, List.length_range]
    have := h.size.2
    omega
  rw [Cache.fromTail, hl.upward.walk_eq hlen]
  exact l.reverse_perm.trans hperm

theorem Holds.head_ne (h : Holds c T) : c.links.head ≠ none := by
  obtain ⟨l, hperm, hl⟩ := h.linked
  intro hnone
  rw [hl.head_eq, List.head?_eq_none_iff] at hnone
  rw [hnone, List.nil_perm, List.range_eq_nil] at hperm
  have := h.size.1
  omega

theorem Holds.find_head (h : Holds c T) {p : Nat → Bool} (hf : c.fromHead.find? p = some i) :
    i < c.szPrcache ∧ p i = true :=
  ⟨List.mem_range.1 (h.fromHead.mem_iff.1 (List.mem_of_find?_eq_some hf)),
    List.find?_some hf⟩

theorem Holds.find_tail (h : Holds c T) {p : Nat → Bool} (hf : c.fromTail.find? p = some i) :
    i < c.szPrcache ∧ p i = true :=
  ⟨List.mem_range.1 (h.fromTail.mem_iff.1 (List.mem_of_find?_eq_some hf)),
    List.find?_some hf⟩

theorem init_linked (n : Nat) :
    ∃ l, l.Perm (List.range (n + 1)) ∧
      Linked ((List.range' 1 n).foldl (fun k x => Links.toHead k x)
        ⟨fun _ => none, fun _ => none, some 0, some 0⟩) l ∧
      ∀ x, n < x → Loose ((List.range' 1 n).foldl (fun k x => Links.toHead k x)
        ⟨fun _ => none, fun _ => none, some 0, some 0⟩) x := by
  induction n with
  | zero =>
      refine ⟨[0], .refl _, ⟨by simp, ⟨rfl, rfl⟩, ⟨rfl, rfl⟩⟩, fun x _ => ⟨rfl, rfl⟩⟩
  | succ n ih =>
      obtain ⟨l, hperm, hl, hloose⟩ := ih
      have hnew := hloose (n + 1) (by omega)
      have hmem : ∀ x, n < x → x ∉ l := by
        intro x hx hin
        have := List.mem_range.1 (hperm.mem_iff.1 hin)
        omega
      have hne : l ≠ [] := by
        rintro rfl
        rw [List.nil_perm, List.range_eq_nil] at hperm
        omega
      rw [List.range'_1_concat, List.foldl_concat, Nat.add_comm 1 n]
      refine ⟨(n + 1) :: l, ?_, ?_, fun x hx => ?_⟩
      · rw [List.range_succ]
        exact (List.Perm.cons _ hperm).trans (List.perm_append_singleton _ _).symm
      · have hhead := hl.toHead hne (.inr hnew)
        rwa [List.erase_of_not_mem (hmem _ (by omega))] at hhead
      · refine (hloose x (by omega)).toHead hnew (by omega) ?_
        rw [hl.head_eq]
        intro hhead
        exact hmem x (by omega) (List.mem_of_head? hhead)

theorem foldl_prTohead (l : List Nat) (c : Cache) :
    l.foldl prTohead c =
      { c with links := l.foldl (fun k x => Links.toHead k x) c.links } := by
  induction l generalizing c with
  | nil => rfl
  | cons x l ih => rw [List.foldl_cons, List.foldl_cons, ih]; rfl

theorem prInitcache_size (c : Cache) :
    c.prInitcache.clock = c.clock ∧ c.prInitcache.szPrcache = c.szPrcache := by
  simp [prInitcache, foldl_prTohead]

theorem prInitcache_holds (hsize : 2 ≤ c.szPrcache ∧ c.szPrcache ≤ maxsubproc)
    (hopened : c.opened = []) : Holds c.prInitcache .empty := by
  obtain ⟨l, hperm, hl, -⟩ := init_linked (c.szPrcache - 1)
  have hsz : c.szPrcache - 1 + 1 = c.szPrcache := by omega
  rw [hsz] at hperm
  unfold prInitcache
  simp only [foldl_prTohead]
  exact ⟨hsize, ⟨l, hperm, hl⟩, fun i _ hne => absurd rfl hne, nofun,
    fun i _ j _ hne => absurd rfl hne, rfl, by simp [hopened, Table.empty], by simp [hopened]⟩

/-! ## Procedures -/

/-- A procedure takes the table through moves of a kind. -/
structure Leads (host : ProcessHost) (lo hi : Nat) (ok : Move → Prop) (c c' : Cache) :
    Prop where
  size : c'.szPrcache = c.szPrcache
  moves : ∀ T, Holds c T → ∃ T' l, Moves host lo hi T l T' ∧ (∀ a ∈ l, ok a) ∧ Holds c' T'

variable {ok ok' : Move → Prop} {c'' : Cache}

theorem Leads.refl (c : Cache) : Leads host lo hi ok c c :=
  ⟨rfl, fun T h => ⟨T, [], .nil T, nofun, h⟩⟩

theorem Leads.trans (h : Leads host lo hi ok c c') (h' : Leads host lo hi ok c' c'') :
    Leads host lo hi ok c c'' := by
  refine ⟨h'.size.trans h.size, fun T hT => ?_⟩
  obtain ⟨T', l, hl, hok, hT'⟩ := h.moves T hT
  obtain ⟨T'', l', hl', hok', hT''⟩ := h'.moves T' hT'
  exact ⟨T'', l ++ l', hl.append hl', fun a ha =>
    (List.mem_append.1 ha).elim (hok a) (hok' a), hT''⟩

theorem Leads.widen (h : Leads host lo hi ok c c') (hlo : lo' ≤ lo) (hhi : hi ≤ hi')
    (hok : ∀ a, ok a → ok' a) : Leads host lo' hi' ok' c c' := by
  refine ⟨h.size, fun T hT => ?_⟩
  obtain ⟨T', l, hl, hl', hT'⟩ := h.moves T hT
  exact ⟨T', l, hl.widen hlo hhi, fun a ha => hok a (hl' a ha), hT'⟩

theorem Leads.foldl {f : Cache → Nat → Cache} {t : Nat}
    (hf : ∀ c i, i < c.szPrcache → c.clock = t →
      Leads host lo hi ok c (f c i) ∧ (f c i).clock = t)
    (l : List Nat) (hl : ∀ i ∈ l, i < c.szPrcache) (ht : c.clock = t) :
    Leads host lo hi ok c (l.foldl f c) ∧ (l.foldl f c).clock = t := by
  induction l generalizing c with
  | nil => exact ⟨.refl c, ht⟩
  | cons i l ih =>
      obtain ⟨hstep, ht'⟩ := hf c i (hl i List.mem_cons_self) ht
      obtain ⟨hrest, ht''⟩ := ih (c := f c i)
        (fun j hj => by rw [hstep.size]; exact hl j (List.mem_cons_of_mem i hj)) ht'
      exact ⟨hstep.trans hrest, ht''⟩

theorem Holds.of_eq (h : Holds c T) (hsz : c'.szPrcache = c.szPrcache)
    (hlinks : c'.links = c.links) (hcache : c'.prCache = c.prCache)
    (hopened : c'.opened = c.opened) : Holds c' T := by
  obtain ⟨size, linked, slot, holder, once, zero, opened, nodup⟩ := h
  exact ⟨by rw [hsz]; exact size, by rw [hsz, hlinks]; exact linked,
    by rw [hsz, hcache]; exact slot, by rw [hsz, hcache]; exact holder,
    by rw [hsz, hcache]; exact once, zero, by rw [hopened]; exact opened,
    by rw [hopened]; exact nodup⟩

theorem Leads.of_eq (hsz : c'.szPrcache = c.szPrcache) (hlinks : c'.links = c.links)
    (hcache : c'.prCache = c.prCache) (hopened : c'.opened = c.opened) :
    Leads host lo hi ok c c' :=
  ⟨hsz, fun T h => ⟨T, [], .nil T, nofun, h.of_eq hsz hlinks hcache hopened⟩⟩

/-- The moves of the kinds that procedures make. -/
def Died (a : Move) : Prop := ∃ pid, a = .died pid
def Closed (a : Move) : Prop := ∃ pid, a = .closed pid
def LockBroken (a : Move) : Prop := ∃ pid, a = .lockBroken pid

theorem prPdisconnect_size (c : Cache) (i : Nat) :
    (c.prPdisconnect i).szPrcache = c.szPrcache ∧
      (c.prPdisconnect i).clock = c.clock := by
  unfold prPdisconnect
  dsimp only
  split <;> exact ⟨rfl, rfl⟩

theorem Holds.disconnect (h : Holds c T) (hi : i < c.szPrcache)
    (hne : (c.prCache i).prPid ≠ 0) (hfree : (c.prCache i).prBusy = false) :
    Holds (c.prPdisconnect i) (Function.update T (c.prCache i).prPid none) := by
  have heq : c.prPdisconnect i = (c.close i).prTotail i := by
    rw [prPdisconnect, if_neg (by simp [hne, hfree])]
  rw [heq]
  exact (h.close hi hne).totail hi

theorem prPdisconnect_leads (hi : i < c.szPrcache) :
    Leads host lo hi' Closed c (c.prPdisconnect i) := by
  refine ⟨(prPdisconnect_size c i).1, fun T h => ?_⟩
  by_cases hskip : (c.prCache i).prPid = 0 ∨ (c.prCache i).prBusy
  · rw [prPdisconnect, if_pos hskip]
    exact ⟨T, [], .nil T, nofun, h⟩
  · obtain ⟨hne, hbusy⟩ := not_or.1 hskip
    rw [Bool.not_eq_true] at hbusy
    have hflags := hbusy
    rw [Process.prBusy, Bool.or_eq_false_iff] at hflags
    have hmove : Permitted host lo hi' T (.closed (c.prCache i).prPid) _ :=
      .closed (h.slot i hi hne) hflags.1 hflags.2
    refine ⟨_, [.closed _], hmove.moves, fun a ha => ?_, h.disconnect hi hne hbusy⟩
    rw [List.mem_singleton.1 ha]
    exact ⟨_, rfl⟩

theorem checkSlot_leads (hi : i < c.szPrcache) :
    Leads host c.clock (c.clock + 1) Died c (checkSlot host c i) ∧
      (checkSlot host c i).clock = c.clock := by
  by_cases hdead : (c.prCache i).prPid ≠ 0 ∧ host.dead c.clock (c.prCache i).prPid
  · have heq : checkSlot host c i = (c.setSlot i { c.prCache i with
        prActive := false, prLocked := false }).prPdisconnect i := by
      rw [checkSlot, if_pos hdead]
    rw [heq]
    refine ⟨⟨(prPdisconnect_size _ i).1, fun T h => ?_⟩, (prPdisconnect_size _ i).2⟩
    have hmark : Holds (c.setSlot i { c.prCache i with
        prActive := false, prLocked := false }) _ := h.mark hi rfl hdead.1
    have hclose := hmark.disconnect hi (by rw [setSlot_self]; exact hdead.1)
      (by rw [setSlot_self]; rfl)
    rw [setSlot_self, Function.update_idem] at hclose
    have hmove : Permitted host c.clock (c.clock + 1) T (.died (c.prCache i).prPid) _ :=
      .died c.clock le_rfl (Nat.lt_succ_self _) (h.slot i hi hdead.1) hdead.2
    refine ⟨_, [.died _], hmove.moves, fun a ha => ?_, hclose⟩
    rw [List.mem_singleton.1 ha]
    exact ⟨_, rfl⟩
  · rw [checkSlot, if_neg hdead]
    exact ⟨.refl c, rfl⟩

theorem prCheckup_leads (host : ProcessHost) (c : Cache) :
    Leads host c.clock (c.clock + 1) Died c (c.prCheckup host) ∧
      (c.prCheckup host).clock = c.clock + 1 := by
  have hstep : ∀ (e : Cache) (i : Nat), i < e.szPrcache → e.clock = c.clock →
      Leads host c.clock (c.clock + 1) Died e (checkSlot host e i) ∧
        (checkSlot host e i).clock = c.clock := by
    intro e i hi ht
    rw [← ht]
    exact checkSlot_leads hi
  obtain ⟨hleads, hclock⟩ := Leads.foldl hstep (List.range c.szPrcache)
    (fun i hi => List.mem_range.1 hi) rfl
  refine ⟨hleads.trans (.of_eq rfl rfl rfl rfl), ?_⟩
  rw [prCheckup, tick, hclock]

/-! ## Connecting -/

/-- A process that may be handed out again. -/
structure Reusable (host : ProcessHost) (lo hi : Nat) (c : Cache) (i : Nat) : Prop where
  lt : i < c.szPrcache
  pid : (c.prCache i).prPid ≠ 0
  idle : (c.prCache i).prActive = false
  fresh : (c.prCache i).prLocked = true ∨ ∃ t mtime, lo ≤ t ∧ t < hi ∧
    host.finfo t (c.prCache i).prName = some mtime ∧ mtime ≤ (c.prCache i).prTime

/-- A time that the executable may have. -/
def Modified (host : ProcessHost) (lo hi : Nat) (process : String) (mtime : Int) : Prop :=
  mtime = 0 ∨ ∃ t, lo ≤ t ∧ t < hi ∧ host.finfo t process = some mtime

theorem findproc_spec (h : Holds c T) {process : String}
    (hf : c.prFindproc process = some i) :
    i < c.szPrcache ∧ (c.prCache i).prPid ≠ 0 ∧ (c.prCache i).prActive = false ∧
      (c.prCache i).prName = process := by
  obtain ⟨hi, hp⟩ := h.find_head hf
  simp only [ne_eq, decide_not, Process.prIdle, Bool.and_eq_true, Bool.not_eq_eq_eq_not,
    Bool.not_true, decide_eq_false_iff_not, beq_iff_eq] at hp
  exact ⟨hi, hp.1.1, hp.1.2, hp.2.symm⟩

theorem cached_spec (host : ProcessHost) (h : Holds c T) (process : String) :
    ∃ r mtime c', c.cached host process = (r, mtime, c') ∧ c.clock ≤ c'.clock ∧
      Leads host c.clock c'.clock Closed c c' ∧
      (∀ i, r = some i → Reusable host c.clock c'.clock c' i) ∧
      (r = none → Modified host c.clock c'.clock process mtime) := by
  cases hf : c.prFindproc process with
  | none =>
      exact ⟨none, 0, c, by rw [cached, hf], le_rfl, .refl c, nofun, fun _ => .inl rfl⟩
  | some i =>
      obtain ⟨hi, hpid, hidle, hname⟩ := findproc_spec h hf
      by_cases hbusy : (c.prCache i).prBusy = true
      · refine ⟨some i, 0, c, ?_, le_rfl, .refl c, ?_, nofun⟩
        · simp only [cached, hf, hbusy, if_true]
        · rintro _ ⟨⟩
          refine ⟨hi, hpid, hidle, .inl ?_⟩
          rwa [Process.prBusy, hidle, Bool.false_or] at hbusy
      · have hclock := (prPdisconnect_size c.tick i).2
        have hlead : Leads host c.clock (c.tick.prPdisconnect i).clock Closed c
            (c.tick.prPdisconnect i) := by
          have htick : Leads host c.clock (c.tick.prPdisconnect i).clock Closed c
            c.tick := .of_eq rfl rfl rfl rfl
          exact htick.trans (prPdisconnect_leads hi)
        have hle : c.clock ≤ (c.tick.prPdisconnect i).clock := by
          rw [hclock]
          exact Nat.le_succ _
        cases hfi : host.finfo c.clock process with
        | none =>
            refine ⟨none, 0, c.tick.prPdisconnect i, ?_, hle, hlead, nofun,
              fun _ => .inl rfl⟩
            simp only [cached, hf, hbusy, hfi, if_false, Bool.false_eq_true]
        | some mtime =>
            by_cases hnewer : mtime > (c.prCache i).prTime
            · refine ⟨none, mtime, c.tick.prPdisconnect i, ?_, hle, hlead, nofun,
                fun _ => .inr ⟨c.clock, le_rfl, ?_, hfi⟩⟩
              · simp only [cached, hf, hbusy, hfi, hnewer, if_true, if_false,
                  Bool.false_eq_true]
              · rw [hclock]
                exact Nat.lt_succ_self _
            · refine ⟨some i, mtime, c.tick, ?_, Nat.le_succ _, .of_eq rfl rfl rfl rfl,
                ?_, nofun⟩
              · simp only [cached, hf, hbusy, hfi, hnewer, if_false, Bool.false_eq_true]
              · rintro _ ⟨⟩
                refine ⟨hi, hpid, hidle, .inr ⟨c.clock, mtime, le_rfl,
                  Nat.lt_succ_self _, ?_, Int.not_lt.1 hnewer⟩⟩
                rw [← hname] at hfi
                exact hfi

theorem getSlot_spec (host : ProcessHost) (h : Holds c T) {c' : Cache} (hg : c.getSlot = some (i, c')) :
    i < c'.szPrcache ∧ (c'.prCache i).prPid = 0 ∧ c'.clock = c.clock ∧
      Leads host c.clock c.clock Closed c c' := by
  unfold getSlot at hg
  cases hf : c.fromTail.find? fun i => !(c.prCache i).prBusy with
  | none => rw [hf] at hg; cases hg
  | some j =>
      obtain ⟨hj, hfree⟩ := h.find_tail hf
      rw [Bool.not_eq_true', Process.prBusy] at hfree
      rw [hf] at hg
      dsimp only at hg
      simp only [Option.some.injEq, Prod.mk.injEq] at hg
      obtain ⟨rfl, rfl⟩ := hg
      have htohead : ∀ {e : Cache}, j < e.szPrcache →
          Leads host c.clock c.clock Closed e (e.prTohead j) := fun he =>
        ⟨rfl, fun T hT => ⟨T, [], .nil T, nofun, hT.tohead he⟩⟩
      by_cases hne : (c.prCache j).prPid ≠ 0
      · obtain ⟨hsz, hclock⟩ := prPdisconnect_size c j
        rw [if_pos hne]
        refine ⟨hsz ▸ hj, ?_, hclock, (prPdisconnect_leads hj).trans (htohead (hsz ▸ hj))⟩
        show ((c.prPdisconnect j).prCache j).prPid = 0
        rw [prPdisconnect, if_neg (by simp [hne, Process.prBusy, hfree])]
        simp [prTotail, Cache.close, setSlot]
      · rw [if_neg hne]
        exact ⟨hj, not_not.1 hne, rfl, htohead hj⟩

/-- The last move hands out the process that is returned. -/
def HandsOut (r : Connected) (l : List Move) : Prop :=
  ∀ pid fdIn fdOut, r = .process pid fdIn fdOut →
    ∃ l', l = l' ++ [.spawned pid] ∨ l = l' ++ [.reused pid]

/-- What connecting does to the table. -/
def Connects (host : ProcessHost) (c : Cache) (T : Table) (r : Connected) (c' : Cache) :
    Prop :=
  c.clock ≤ c'.clock ∧ c'.szPrcache = c.szPrcache ∧
    ∃ T' l, Moves host c.clock c'.clock T l T' ∧
      (∀ a ∈ l, Died a ∨ Closed a ∨ ∃ pid, a = .spawned pid ∨ a = .reused pid) ∧
      HandsOut r l ∧ Holds c' T'

theorem Connects.of_leads {r : Connected} (h : Leads host c.clock c'.clock ok c c')
    (hle : c.clock ≤ c'.clock) (hok : ∀ a, ok a → Died a ∨ Closed a)
    (hrest : ∀ T, Holds c' T → Connects host c' T r c'') (hT : Holds c T) :
    Connects host c T r c'' := by
  obtain ⟨T', l, hl, hkind, hT'⟩ := h.moves T hT
  obtain ⟨hle', hsz, T'', l', hl', hkind', hout, hT''⟩ := hrest T' hT'
  refine ⟨hle.trans hle', hsz.trans h.size, T'', l ++ l',
    (hl.widen le_rfl hle').append (hl'.widen hle le_rfl), fun a ha => ?_,
    fun pid fdIn fdOut hr => ?_, hT''⟩
  · rcases List.mem_append.1 ha with hin | hin
    · exact (hok a (hkind a hin)).imp id .inl
    · exact hkind' a hin
  · obtain ⟨l₁, hl₁⟩ := hout pid fdIn fdOut hr
    refine ⟨l ++ l₁, hl₁.imp ?_ ?_⟩ <;> rintro rfl <;> rw [List.append_assoc]

theorem Holds.open (h : Holds c T) (hi : i < c.szPrcache) (hold : (c.prCache i).prPid = 0)
    {pr : Process} (hne : pr.prPid ≠ 0) (hnew : pr.prPid ∉ c.opened) :
    Holds { c.setSlot i pr with opened := pr.prPid :: c.opened }
      (Function.update T pr.prPid (some (entry pr))) := by
  have hT : T pr.prPid = none := by
    by_contra hsome
    exact hnew ((h.opened _).2 hsome)
  have hused : ∀ j < c.szPrcache, (c.prCache j).prPid ≠ pr.prPid := by
    intro j hj heq
    have := h.slot j hj (heq ▸ hne)
    rw [heq, hT] at this
    cases this
  refine ⟨h.size, h.linked, fun j hj hnz => ?_, fun pid e he => ?_,
    fun j hj j' hj' hnz heq => ?_, ?_, fun pid => ?_, List.nodup_cons.2 ⟨hnew, h.nodup⟩⟩
  · show Function.update T pr.prPid _ ((c.setSlot i pr).prCache j).prPid =
      some (entry ((c.setSlot i pr).prCache j))
    have hnz' : ((c.setSlot i pr).prCache j).prPid ≠ 0 := hnz
    by_cases hji : j = i
    · rw [hji, setSlot_self, Function.update_self]
    · rw [setSlot_of_ne c hji] at hnz' ⊢
      rw [Function.update_of_ne (hused j hj)]
      exact h.slot j hj hnz'
  · show ∃ j < c.szPrcache, ((c.setSlot i pr).prCache j).prPid = pid
    by_cases hp : pid = pr.prPid
    · exact ⟨i, hi, by rw [setSlot_self, hp]⟩
    · rw [Function.update_of_ne hp] at he
      obtain ⟨j, hj, hjp⟩ := h.holder pid e he
      have hji : j ≠ i := by
        rintro rfl
        rw [hold] at hjp
        rw [← hjp, h.zero] at he
        cases he
      exact ⟨j, hj, by rw [setSlot_of_ne c hji, hjp]⟩
  · have heq' : ((c.setSlot i pr).prCache j).prPid =
        ((c.setSlot i pr).prCache j').prPid := heq
    have hnz' : ((c.setSlot i pr).prCache j).prPid ≠ 0 := hnz
    by_cases hji : j = i <;> by_cases hji' : j' = i
    · rw [hji, hji']
    · rw [hji, setSlot_self, setSlot_of_ne c hji'] at heq'
      exact absurd heq'.symm (hused j' hj')
    · rw [hji', setSlot_self, setSlot_of_ne c hji] at heq'
      exact absurd heq' (hused j hj)
    · rw [setSlot_of_ne c hji, setSlot_of_ne c hji'] at heq'
      rw [setSlot_of_ne c hji] at hnz'
      exact h.once j hj j' hj' hnz' heq'
  · rw [Function.update_of_ne hne.symm, h.zero]
  · rw [List.mem_cons]
    by_cases hp : pid = pr.prPid
    · simp [hp]
    · rw [Function.update_of_ne hp, ← h.opened]
      simp [hp]

theorem spawn_connects (h : Holds c T) (hi : i < c.szPrcache)
    (hold : (c.prCache i).prPid = 0) {process : String} {mtime : Int}
    (hlo : lo ≤ c.clock) (hm : Modified host lo c.clock process mtime) :
    let r := c.spawn host i process mtime
    c.clock ≤ r.2.clock ∧ r.2.szPrcache = c.szPrcache ∧
      ∃ T' l, Moves host lo r.2.clock T l T' ∧ (∀ a ∈ l, ∃ pid, a = .spawned pid) ∧
        HandsOut r.1 l ∧ Holds r.2 T' := by
  intro r
  cases hp : host.propen c.opened c.clock process with
  | none =>
      have hr : r = (.failed, c.tick.setSlot i { c.prCache i with prPid := 0 }) := by
        simp only [r, spawn, hp]
      rw [hr]
      refine ⟨Nat.le_succ _, rfl, T, [], .nil T, nofun, nofun, ?_⟩
      have hfree : Holds (c.setSlot i { c.prCache i with prPid := 0 }) T := h.free hold rfl
      exact hfree.of_eq rfl rfl rfl rfl
  | some s =>
      obtain ⟨hne, hnew⟩ := host.propen_fresh _ _ _ _ hp
      obtain ⟨time, htime, hmod⟩ : ∃ time,
          (if mtime = 0 then (host.finfo (c.clock + 1) process).getD 0 else mtime) =
            time ∧ Modified host lo (c.clock + 2) process time := by
        refine ⟨_, rfl, ?_⟩
        split
        · cases hf : host.finfo (c.clock + 1) process with
          | none => exact .inl rfl
          | some t => exact .inr ⟨c.clock + 1, by omega, by omega, hf⟩
        · exact hm.imp id fun ⟨t, h1, h2, h3⟩ => ⟨t, h1, by omega, h3⟩
      let pr : Process := { c.prCache i with
        prPid := s.pid
        prTime := time
        prIn := s.fdIn
        prOut := s.fdOut
        prActive := false
        prLocked := false
        prPno := Fmtio.short c.prPno
        prName := process }
      have hr : r = (.process s.pid s.fdIn s.fdOut, { (c.setSlot i pr).setSlot i
          { pr with prActive := true } with
            opened := s.pid :: c.opened
            clock := c.clock + 2
            prPno := c.prPno + 1 }) := by
        simp only [r, spawn, hp, handOut, tick, setSlot_self, htime, pr]
        simp only [setSlot]
      have hopen : Holds { c.setSlot i pr with opened := s.pid :: c.opened } _ :=
        h.open hi hold hne hnew
      have hmark : Holds ({ c.setSlot i pr with opened := s.pid :: c.opened }.setSlot i
          { pr with prActive := true }) _ :=
        hopen.mark hi (show s.pid = ((c.setSlot i pr).prCache i).prPid by
          rw [setSlot_self]) hne
      have hmove : Permitted host lo (c.clock + 2) T (.spawned s.pid)
          (Function.update T s.pid (some ⟨process, time, true, false⟩)) :=
        .spawned hne (by
          by_contra hsome
          exact hnew ((h.opened _).2 hsome)) hmod
      rw [hr]
      refine ⟨by simp, rfl, _, [.spawned s.pid], hmove.moves, fun a ha => ?_,
        fun pid fdIn fdOut heq => ?_, ?_⟩
      · exact ⟨_, List.mem_singleton.1 ha⟩
      · cases heq
        exact ⟨[], .inl rfl⟩
      · rw [Function.update_idem] at hmark
        exact hmark.of_eq rfl rfl rfl rfl

theorem connect_checked (host : ProcessHost) (h : Holds c T) (process : String) :
    let r := match c.cached host process with
      | (some i, _, c) => handOut (c.prTohead i) i
      | (none, mtime, c) =>
          match c.getSlot with
          | none => (.deadlock, c)
          | some (i, c) => c.spawn host i process mtime
    Connects host c T r.1 r.2 := by
  obtain ⟨found, mtime, c₁, hcached, hle, hleads, hsome, hnone⟩ :=
    cached_spec host h process
  rw [hcached]
  obtain ⟨T₁, l₁, hl₁, hkind₁, hT₁⟩ := hleads.moves T h
  cases found with
  | some i =>
      have hr := hsome i rfl
      have hmark : Holds ((c₁.prTohead i).setSlot i
          { c₁.prCache i with prActive := true }) _ :=
        (hT₁.tohead hr.lt).mark hr.lt rfl hr.pid
      have hmove : Permitted host c.clock c₁.clock T₁ (.reused (c₁.prCache i).prPid) _ :=
        .reused (hT₁.slot i hr.lt hr.pid) hr.idle hr.fresh
      refine ⟨hle, hleads.size, _, l₁ ++ [.reused _], hl₁.append hmove.moves,
        fun a ha => ?_, fun pid fdIn fdOut heq => ?_, hmark⟩
      · rcases List.mem_append.1 ha with hin | hin
        · exact .inr (.inl (hkind₁ a hin))
        · exact .inr (.inr ⟨_, .inr (List.mem_singleton.1 hin)⟩)
      · cases heq
        exact ⟨l₁, .inr rfl⟩
  | none =>
      have hmod := hnone rfl
      cases hslot : c₁.getSlot with
      | none =>
          dsimp only
          rw [hslot]
          exact ⟨hle, hleads.size, T₁, l₁, hl₁, fun a ha => .inr (.inl (hkind₁ a ha)),
            nofun, hT₁⟩
      | some found =>
          obtain ⟨i, c₂⟩ := found
          dsimp only
          rw [hslot]
          obtain ⟨hi, hold, hclock, hleads₂⟩ := getSlot_spec host hT₁ hslot
          obtain ⟨T₂, l₂, hl₂, hkind₂, hT₂⟩ := hleads₂.moves T₁ hT₁
          obtain ⟨hle₃, hsz₃, T₃, l₃, hl₃, hkind₃, hout, hT₃⟩ :=
            spawn_connects hT₂ hi hold (hclock ▸ hle) (hclock ▸ hmod)
          have hle' : c₁.clock ≤ (c₂.spawn host i process mtime).2.clock := hclock ▸ hle₃
          refine ⟨hle.trans hle', ?_, T₃, l₁ ++ l₂ ++ l₃, ?_, fun a ha => ?_,
            fun pid fdIn fdOut heq => ?_, hT₃⟩
          · exact hsz₃.trans (hleads₂.size.trans hleads.size)
          · exact ((hl₁.widen le_rfl hle').append (hl₂.widen hle hle')).append hl₃
          · rcases List.mem_append.1 ha with hin | hin
            · exact .inr (.inl ((List.mem_append.1 hin).elim (hkind₁ a) (hkind₂ a)))
            · exact .inr (.inr ((hkind₃ a hin).imp fun _ => .inl))
          · obtain ⟨l', hl'⟩ := hout pid fdIn fdOut heq
            refine ⟨l₁ ++ l₂ ++ l', hl'.imp ?_ ?_⟩ <;> rintro rfl <;>
              simp only [List.append_assoc]

end Cache

end Iraf.Cl
