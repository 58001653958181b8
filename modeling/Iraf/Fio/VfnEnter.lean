import Mathlib.Tactic.Common
import Iraf.Fio.Vfnmap

/-!
# The host name of a new file

The candidates are the first attempt and fifty numbered names.  The numbers that are tried last are
not told from a failure.
-/

namespace Iraf.Vfn

open Cells

variable {vfd : Vfd} {maxch : Nat} {present : Name → Bool} {s : State} {fname : Name}
  {d j k m num : Nat}

/-! ## Candidates -/

/-- The numbers of a decade, in the order in which they are tried. -/
def decade (m : Nat) : Nat → List Nat
  | 0 => []
  | n + 1 => (m * 10 + n) :: decade m n

/-- The numbers of the last decades. -/
def lastDecades : Nat → List Nat
  | 0 => []
  | j + 1 => decade (4 - j) 10 ++ lastDecades j

def numbers : List Nat := lastDecades 5

def candidates (vfd : Vfd) : List Name :=
  firstName vfd :: numbers.map (numbered vfd (firstName vfd))

/-- The first numbered name that is free. -/
def freeNumber (vfd : Vfd) (maxch : Nat) (present : Name → Bool) (nums : List Nat) : Option Nat :=
  nums.find? fun num => !present (osfnPkfname (numbered vfd (firstName vfd) num) maxch)

/-- The host name of an entry of the table. -/
def hostName (vfd : Vfd) (maxch : Nat) (osfn : Name) : Name :=
  osfnPkfname (vfd.osdir ++ osfn) maxch

/-- What is recorded of a name. -/
def recorded (vfd : Vfd) (fname : Name) : Name := (fname.drop vfd.osdir.length).take szVfnfn

/-- A free name is recorded, or no candidate is free, and on an error the table is as it was. -/
def Outcome (vfd : Vfd) (maxch : Nat) (present : Name → Bool) (s : State) :
    Except VfnError Name × State → Prop
  | (.ok _, s') => ∃ osfn, s'.mfd.pairs = s.mfd.pairs ++ [⟨vfd.vfn.take szVfnfn, osfn⟩] ∧
      present (hostName vfd maxch osfn) = false
  | (.error (.fdegen _), s') => (∀ c ∈ candidates vfd, present (osfnPkfname c maxch) = true) ∧
      s'.mfd.pairs = s.mfd.pairs
  | (.error (.ftmlongfn _), s') => maxLongfnames ≤ s.mfd.nfiles ∧ s'.mfd.pairs = s.mfd.pairs
  | (.error _, _) => False

def EnterSafe (vfd : Vfd) (maxch : Nat) (present : Name → Bool) (s : State) : Prop :=
  Outcome vfd maxch present s (vfnEnter vfd maxch present s)

/-- There is room for the entry, and what is recorded of the name is free as well. -/
def Enters (vfd : Vfd) (maxch : Nat) (present : Name → Bool) (s : State) (fname : Name) : Prop :=
  s.mfd.nfiles < maxLongfnames ∧ present (hostName vfd maxch (recorded vfd fname)) = false

/-- When a name is entered as it should be. -/
structure EnterFits (vfd : Vfd) (maxch : Nat) (present : Name → Bool) (s : State) : Prop where
  first : present (osfnPkfname (firstName vfd) maxch) = false →
    Enters vfd maxch present s (firstName vfd)
  pointer : present (osfnPkfname (firstName vfd) maxch) = true → s.enterMfd = s.vMfd
  number : present (osfnPkfname (firstName vfd) maxch) = true →
    ∀ num, freeNumber vfd maxch present numbers = some num →
      num < 40 ∧ Enters vfd maxch present s (numbered vfd (firstName vfd) num)

/-! ## Numbered names -/

theorem length_firstName (h : vfd.longroot = true) :
    vfd.osdir.length + 3 ≤ (firstName vfd).length := by
  have hosdir := vfd.length_osdir
  have hroot := vfd.length_root h
  simp only [szOsdir, maxRootlen] at hosdir hroot
  unfold firstName
  simp only [szPathname]
  split <;> simp only [List.length_append, List.length_take] <;> omega

/-- A name that differs from the first one in so many characters only. -/
structure Agrees (vfd : Vfd) (d : Nat) (fname : Name) : Prop where
  long : vfd.osdir.length + 1 ≤ fname.length
  same : ∀ digits : Name, d ≤ digits.length →
    overlay fname (vfd.osdir.length + 1) digits =
      overlay (firstName vfd) (vfd.osdir.length + 1) digits

theorem agrees_firstName (h : vfd.longroot = true) : Agrees vfd 0 (firstName vfd) :=
  ⟨by have := length_firstName h; omega, fun _ _ => rfl⟩

theorem Agrees.mono (h : Agrees vfd d fname) (hle : d ≤ k) : Agrees vfd k fname :=
  ⟨h.long, fun digits hdigits => h.same digits (Nat.le_trans hle hdigits)⟩

theorem Agrees.numbered (h : Agrees vfd d fname) (hdigits : d ≤ (itoc num).length) :
    numbered vfd fname num = numbered vfd (firstName vfd) num ∧
      Agrees vfd (itoc num).length (numbered vfd fname num) := by
  refine ⟨h.same _ hdigits, ?_, fun digits hlonger => ?_⟩
  · rw [Vfn.numbered, length_overlay h.long]
    have := h.long
    omega
  · rw [Vfn.numbered, overlay_overlay h.long hlonger]
    exact h.same digits (Nat.le_trans hdigits hlonger)

theorem tryDecade_found (vfd : Vfd) (maxch : Nat) (present : Name → Bool) (m k : Nat)
    (fname : Name) :
    tryDecade vfd maxch present m k (fname, false) = (fname, false) := by
  cases k <;> simp [tryDecade]

theorem tryDecade_spec (h : Agrees vfd d fname) (hlonger : d ≤ k)
    (hdigits : ∀ n < j, (itoc (m * 10 + n)).length = k) :
    match freeNumber vfd maxch present (decade m j) with
    | some num => tryDecade vfd maxch present m j (fname, true) =
        (numbered vfd (firstName vfd) num, false)
    | none => ∃ last, tryDecade vfd maxch present m j (fname, true) = (last, true) ∧
        Agrees vfd k last := by
  induction j generalizing fname d with
  | zero => exact ⟨fname, rfl, h.mono hlonger⟩
  | succ j ih =>
    have hlen := hdigits j (Nat.lt_succ_self j)
    obtain ⟨hname, hagrees⟩ := @Agrees.numbered _ _ _ (m * 10 + j) h (hlen ▸ hlonger)
    rw [freeNumber, decade, List.find?_cons]
    simp only [tryDecade, if_true]
    rw [hname] at hagrees ⊢
    by_cases hfree : present (osfnPkfname (numbered vfd (firstName vfd) (m * 10 + j)) maxch) = true
    · simp only [hfree, Bool.not_true]
      exact ih hagrees (Nat.le_of_eq hlen) fun n hn => hdigits n (Nat.lt_succ_of_lt hn)
    · rw [Bool.not_eq_true] at hfree
      simp only [hfree, Bool.not_false]
      exact tryDecade_found vfd maxch present m j _

theorem mem_decade : num ∈ decade m k ↔ m * 10 ≤ num ∧ num < m * 10 + k := by
  induction k with
  | zero => simp [decade]
  | succ k ih =>
    rw [decade, List.mem_cons, ih]
    omega

/-- How many digits the numbers of a decade have. -/
def width (m : Nat) : Nat := if m = 0 then 1 else 2

theorem length_itoc : ∀ m < 5, ∀ n < 10, (itoc (m * 10 + n)).length = width m := by
  decide

theorem tryDecades_found (vfd : Vfd) (maxch : Nat) (present : Name → Bool) (m k : Nat)
    (fname : Name) :
    tryDecades vfd maxch present k m (fname, false) = (m, fname) := by
  cases k <;> simp [tryDecades]

/-- The outer loop ends at the first number that is free.  If it is one of the last ten, the
counter is what it is when there is none. -/
theorem tryDecades_spec (hj : j ≤ 5) (h : Agrees vfd d fname) (hd : d ≤ width (5 - j)) :
    match freeNumber vfd maxch present (lastDecades j) with
    | some num =>
      (tryDecades vfd maxch present (j + 1) (5 - j) (fname, true)).2 =
        numbered vfd (firstName vfd) num ∧
      (maxDegeneracy ≤ (tryDecades vfd maxch present (j + 1) (5 - j) (fname, true)).1 * 10 ↔
        40 ≤ num)
    | none =>
      maxDegeneracy ≤ (tryDecades vfd maxch present (j + 1) (5 - j) (fname, true)).1 * 10 := by
  induction j generalizing fname d with
  | zero =>
    simp [lastDecades, freeNumber, tryDecades, maxDegeneracy]
  | succ j ih =>
    have hm : 5 - (j + 1) = 4 - j := by omega
    have hnext : 4 - j + 1 = 5 - j := by omega
    rw [hm] at hd
    have hdecade := @tryDecade_spec vfd maxch present fname d 10 (width (4 - j)) (4 - j) h hd
      (length_itoc (4 - j) (by omega))
    have hloop : tryDecades vfd maxch present (j + 1 + 1) (4 - j) (fname, true) =
        tryDecades vfd maxch present (j + 1) (5 - j)
          (tryDecade vfd maxch present (4 - j) 10 (fname, true)) := by
      rw [tryDecades, if_pos ⟨rfl, by simp only [maxDegeneracy]; omega⟩, hnext]
    rw [hm, hloop, lastDecades, freeNumber, List.find?_append]
    cases hfree : freeNumber vfd maxch present (decade (4 - j) 10) with
    | some num =>
      rw [hfree] at hdecade
      have hmem := mem_decade.mp (List.mem_of_find?_eq_some hfree)
      rw [freeNumber] at hfree
      simp only [hfree, Option.some_or]
      rw [hdecade, tryDecades_found]
      refine ⟨rfl, ?_⟩
      simp only [maxDegeneracy]
      omega
    | none =>
      rw [hfree] at hdecade
      obtain ⟨last, hrun, hagrees⟩ := hdecade
      rw [freeNumber] at hfree
      simp only [hfree, Option.none_or]
      rw [hrun]
      refine ih (by omega) hagrees ?_
      unfold width
      split <;> split <;> omega

/-! ## Entries -/

@[simp] theorem State.mfd_setMfd (s : State) (d : Mfd) : (s.setMfd d).mfd = d := rfl

theorem Mfd.length_pairs (d : Mfd) : d.pairs.length = d.nfiles := by
  simp [Mfd.pairs]

theorem Mfd.pairs_update (d d' : Mfd) (pair : FnPair) (hfiles : d'.nfiles = d.nfiles + 1)
    (hmap : d'.fnmap = Function.update d.fnmap (d.nfiles + 1) pair) :
    d'.pairs = d.pairs ++ [pair] := by
  rw [Mfd.pairs, hfiles, List.range_succ, List.map_append, hmap]
  congr 1
  · refine List.map_congr_left fun k hk => ?_
    have := List.mem_range.mp hk
    exact Function.update_of_ne (by omega) ..
  · simp

theorem addPair_full {s : State} (h : ¬ s.mfd.nfiles < maxLongfnames) :
    (addPair vfd maxch fname s).1 = .error (.ftmlongfn fname) ∧
      (addPair vfd maxch fname s).2.mfd.nfiles = s.mfd.nfiles + 1 := by
  have hfull : s.mfd.nfiles + 1 > maxLongfnames := by omega
  have hrun : addPair vfd maxch fname s = (.error (.ftmlongfn fname),
    State.setMfd { s with enterMfd := s.vMfd } { s.mfd with nfiles := s.mfd.nfiles + 1 }) :=
    if_pos hfull
  rw [hrun, State.mfd_setMfd]
  exact ⟨rfl, rfl⟩

theorem addPair_room {s : State} (h : s.mfd.nfiles < maxLongfnames) :
    (addPair vfd maxch fname s).1 = .ok (osfnPkfname fname maxch) ∧
      (addPair vfd maxch fname s).2.mfd.pairs =
        s.mfd.pairs ++ [⟨vfd.vfn.take szVfnfn, recorded vfd fname⟩] := by
  have hroom : ¬ s.mfd.nfiles + 1 > maxLongfnames := by omega
  have hrun : addPair vfd maxch fname s = (.ok (osfnPkfname fname maxch), _) := if_neg hroom
  rw [hrun, State.mfd_setMfd, State.mfd_setMfd, State.mfd_setMfd]
  exact ⟨rfl, Mfd.pairs_update _ _ _ rfl rfl⟩

theorem addPair_outcome {s' : State} (h : s'.mfd.pairs = s.mfd.pairs) :
    Outcome vfd maxch present s (addPair vfd maxch fname s') ↔
      Enters vfd maxch present s fname := by
  have hfiles : s'.mfd.nfiles = s.mfd.nfiles := by
    rw [← Mfd.length_pairs, h, Mfd.length_pairs]
  rcases hresult : addPair vfd maxch fname s' with ⟨result, after⟩
  by_cases hroom : s.mfd.nfiles < maxLongfnames
  · obtain ⟨hok, hpairs⟩ := @addPair_room vfd maxch fname s' (hfiles ▸ hroom)
    rw [hresult] at hok hpairs
    simp only at hok hpairs
    rw [hok, Outcome, Enters, hpairs, h]
    constructor
    · rintro ⟨osfn, hlast, hfree⟩
      have hosfn := congrArg FnPair.osfn (List.singleton_inj.mp (List.append_cancel_left hlast))
      exact ⟨hroom, by rwa [show recorded vfd fname = osfn from hosfn]⟩
    · rintro ⟨-, hfree⟩
      exact ⟨recorded vfd fname, rfl, hfree⟩
  · obtain ⟨herror, hmore⟩ := @addPair_full vfd maxch fname s' (hfiles ▸ hroom)
    rw [hresult] at herror hmore
    simp only at herror hmore
    rw [herror, Outcome, Enters]
    refine iff_of_false ?_ fun h => hroom h.1
    rintro ⟨-, hpairs⟩
    have hlen := congrArg List.length hpairs
    rw [Mfd.length_pairs, Mfd.length_pairs] at hlen
    omega

/-! ## Entering a name -/

theorem freeNumber_none :
    freeNumber vfd maxch present numbers = none ↔
      ∀ num ∈ numbers, present (osfnPkfname (numbered vfd (firstName vfd) num) maxch) = true := by
  simp [freeNumber]

theorem enter_first (h : present (osfnPkfname (firstName vfd) maxch) = false) :
    vfnEnter vfd maxch present s = addPair vfd maxch (firstName vfd) s := by
  simp [vfnEnter, h]

theorem enter_taken (h : present (osfnPkfname (firstName vfd) maxch) = true)
    (hpointer : s.enterMfd = s.vMfd) :
    vfnEnter vfd maxch present s =
      let search := tryDecades vfd maxch present 6 0 (firstName vfd, true)
      if maxDegeneracy ≤ search.1 * 10 then
        (.error (.fdegen search.2), s.setMfd { s.mfd with addzmd := true })
      else addPair vfd maxch search.2 (s.setMfd { s.mfd with addzmd := true }) := by
  simp only [vfnEnter, h, if_true, hpointer]
  rfl

/-- A name is entered as it should be exactly if it fits. -/
theorem enterSafe_iff (h : vfd.longroot = true) :
    EnterSafe vfd maxch present s ↔ EnterFits vfd maxch present s := by
  unfold EnterSafe
  cases hfirst : present (osfnPkfname (firstName vfd) maxch) with
  | false =>
    rw [enter_first hfirst, addPair_outcome rfl]
    refine ⟨fun hsafe => ⟨fun _ => hsafe, ?_, ?_⟩, fun hfits => hfits.first hfirst⟩
    · simp [hfirst]
    · simp [hfirst]
  | true =>
    by_cases hpointer : s.enterMfd = s.vMfd
    · rw [enter_taken hfirst hpointer]
      have hsearch := @tryDecades_spec vfd maxch present (firstName vfd) 0 5 (Nat.le_refl 5)
        (agrees_firstName h) (Nat.zero_le _)
      have hpairs : (s.setMfd { s.mfd with addzmd := true }).mfd.pairs = s.mfd.pairs := by
        rw [State.mfd_setMfd]
        rfl
      have hiff : EnterFits vfd maxch present s ↔
          ∀ num, freeNumber vfd maxch present numbers = some num →
            num < 40 ∧ Enters vfd maxch present s (numbered vfd (firstName vfd) num) := by
        refine ⟨fun hfits => hfits.number hfirst, fun hnumber => ⟨?_, fun _ => hpointer,
          fun _ => hnumber⟩⟩
        simp [hfirst]
      rw [hiff]
      cases hfree : freeNumber vfd maxch present numbers with
      | none =>
        rw [numbers] at hfree
        rw [hfree] at hsearch
        simp only at hsearch ⊢
        rw [if_pos hsearch]
        refine iff_of_true ⟨?_, hpairs⟩ (by simp)
        refine List.forall_mem_cons.mpr ⟨hfirst, ?_⟩
        simpa using freeNumber_none.mp hfree
      | some num =>
        rw [numbers] at hfree
        rw [hfree] at hsearch
        obtain ⟨hname, hcount⟩ := hsearch
        simp only [Option.some.injEq, forall_eq']
        by_cases hlast : 40 ≤ num
        · rw [if_pos (hcount.mpr hlast)]
          refine iff_of_false ?_ (by omega)
          rintro ⟨htaken, -⟩
          have hnum := List.mem_of_find?_eq_some hfree
          have htaken' := htaken _ (List.mem_cons_of_mem _ (List.mem_map_of_mem hnum))
          have hfree' := List.find?_some hfree
          simp [htaken'] at hfree'
        · rw [if_neg fun hle => hlast (hcount.mp hle), hname, addPair_outcome hpairs]
          exact ⟨fun henters => ⟨by omega, henters⟩, And.right⟩
    · refine iff_of_false ?_ fun hfits => hpointer (hfits.pointer hfirst)
      simp [vfnEnter, hfirst, hpointer, Outcome]

/-- A long name in the current directory. -/
def longName : Vfd where
  acmode := .write
  vfn := List.replicate 140 'a'
  osdir := ['.', '/']
  root := List.replicate 128 'a'
  extn := ['x']
  longroot := true
  length_osdir := by decide
  length_root _ := List.length_replicate

/-- The mapping file has been opened, and the table has so many entries. -/
def opened (nfiles : Nat) : State where
  time := 0
  vMfd := 8
  mfd := { Mfd.zero with nfiles }
  null := Mfd.zero
  enterMfd := 8
  lastRead := { Mfd.zero with nfiles }
  log := []

theorem enterSafe_secondName :
    EnterSafe longName 511 (·[3]? == some 'a') (opened 99) :=
  (enterSafe_iff rfl).mpr
    ⟨fun hfirst => absurd hfirst (by decide), fun _ => rfl, fun _ num hnum => by
      have hfree : freeNumber longName 511 (·[3]? == some 'a') numbers = some 9 := by decide
      rw [hfree] at hnum
      rw [← Option.some.inj hnum]
      exact ⟨by decide, by decide, by decide⟩⟩

/-- A table of a hundred entries counts one more after the error. -/
theorem not_enterSafe_full : ¬ EnterSafe longName 511 (fun _ => false) (opened 100) := by
  unfold EnterSafe
  rw [enter_first rfl, addPair_outcome rfl]
  exact fun h => absurd h.1 (by decide)

end Iraf.Vfn
