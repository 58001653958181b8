import Mathlib.Data.List.Perm.Basic
import Iraf.Lib.Links
import Iraf.Lib.SafeRuns

/-!
# The cache of system file names

`fncache.c`.  A name is the list of its chars; `os_sysfile` is a function of the name.

A slot has what `os_sysfile` left for its name, and the list has every slot once.
-/

namespace Iraf.Boot

def maxFiles : Nat := 20
def szLname : Nat := 32
def szFname : Nat := 32

abbrev eos : Char := '\x00'

/-- What `os_sysfile` finds, and what it leaves in the buffer. -/
structure Sysname where
  found : Bool
  fname : List Char
  deriving DecidableEq, Repr

/-- The length of the file name, or ERR. -/
def Sysname.value (r : Sysname) : Int := if r.found then r.fname.length else -1

section OsSysfile

variable (irafpath : List Char → List Char) (access : List Char → Bool)

def isSeparator (c : Char) : Bool := c.isWhitespace || c == ','

/-- The search of the package libraries, with the name that was tried last; `n` bounds the
number of libraries. -/
def searchPkglibs (sysfile : List Char) : Nat → List Char → List Char → Sysname
  | 0, _, fname => ⟨false, fname⟩
  | _ + 1, [], fname => ⟨false, fname⟩
  | n + 1, c :: files, _ =>
      let ip := (c :: files).dropWhile isSeparator
      let fname := ip.takeWhile (fun c => !isSeparator c) ++ sysfile
      if access fname then ⟨true, fname⟩
      else searchPkglibs sysfile n (ip.dropWhile fun c => !isSeparator c) fname

def osSysfile (pkglibs : Option (List Char)) (sysfile : List Char) (maxch : Nat) : Sysname :=
  let fname := (irafpath sysfile).take (maxch - 1)
  if fname ≠ sysfile then ⟨true, fname⟩
  else
    match pkglibs with
    | none => ⟨false, fname⟩
    | some files => searchPkglibs access sysfile (files.length + 1) files fname

end OsSysfile

structure Sysfile where
  nrefs : Nat
  chksum : Int
  lname : List Char
  fname : List Char

structure Fncache where
  fncache : Nat → Sysfile
  links : Links Nat
  fnHits : Nat
  fnMisses : Nat

def fnChksum (s : List Char) : Int := s.foldl (fun sum c => sum + c.toNat) 0

/-- The cells that are written, the EOS of a string that fits last. -/
def fnStrncpyCells : Nat → List Char → List Char
  | 0, _ => []
  | _ + 1, [] => [eos]
  | n + 1, c :: ip => c :: fnStrncpyCells n ip

def fnStrncpy (ip : List Char) (maxch : Nat) : Int × List Char :=
  ((fnStrncpyCells maxch ip).length - 1, fnStrncpyCells maxch ip)

open Function in
def fnUnlink (k : Links Nat) (fn : Nat) : Links Nat :=
  let head := if k.head = some fn then k.dn fn else k.head
  let tail := if k.tail = some fn then k.up fn else k.tail
  let dn := match k.up fn with
    | some y => update k.dn y (k.dn fn)
    | none => k.dn
  let up := match dn fn with
    | some z => update k.up z (k.up fn)
    | none => k.up
  ⟨up, dn, head, tail⟩

def fnTohead (k : Links Nat) (fn : Nat) : Links Nat :=
  if k.head = some fn then k else k.pushHead fn

namespace Fncache

/-- The slots in the order of the list. -/
def fromHead (c : Fncache) : List Nat := walk c.links.dn (maxFiles + 1) c.links.head

/-- The slot of a name. -/
def find (c : Fncache) (lname : List Char) : Option Nat :=
  c.fromHead.find? fun fn =>
    (c.fncache fn).chksum = fnChksum lname && lname = (c.fncache fn).lname

def toHead (c : Fncache) (fn : Nat) : Fncache :=
  { c with links := fnTohead (fnUnlink c.links fn) fn }

def setSlot (c : Fncache) (fn : Nat) (s : Sysfile) : Fncache :=
  { c with fncache := Function.update c.fncache fn s }

/-- The value and the cells that are written to the buffer, with the cache; none when a
string does not fit in its slot. -/
def mSysfile (os : List Char → Sysname) (c : Fncache) (lname : List Char) (maxch : Nat) :
    Option ((Int × List Char) × Fncache) :=
  match c.find lname with
  | some fn =>
      let s := c.fncache fn
      some (fnStrncpy s.fname maxch, { (c.toHead fn).setSlot fn { s with nrefs := s.nrefs + 1 } with
        fnHits := c.fnHits + 1 })
  | none =>
      let c := { c with fnMisses := c.fnMisses + 1 }
      let r := os lname
      let answer := (r.value, r.fname ++ [eos])
      if r.value > szFname ∨ lname.length > szLname then some (answer, c)
      else if r.fname.length > szFname then none
      else
        -- reuse the slot at the tail of the list
        match c.links.tail with
        | none => none
        | some fn => some (answer, (c.toHead fn).setSlot fn ⟨1, fnChksum lname, lname, r.fname⟩)

/-- The cache when it is initialised, whatever it was before; the counts are printed and
cleared for debugging only. -/
def mFninit (c : Fncache) (debug : Bool) : Fncache :=
  let blank := fun s : Sysfile => { s with nrefs := 0, chksum := -1, lname := [] }
  let links : Links Nat :=
    ⟨Function.update c.links.up 0 none, Function.update c.links.dn 0 none, some 0, some 0⟩
  { fncache := fun fn => if fn < maxFiles then blank (c.fncache fn) else c.fncache fn
    links := (List.range' 1 (maxFiles - 1)).foldl fnTohead links
    fnHits := if debug then 0 else c.fnHits
    fnMisses := if debug then 0 else c.fnMisses }

end Fncache

/-! ## Runs -/

/-- A call with a buffer that the result fits in. -/
structure Call (os : List Char → Sysname) where
  lname : List Char
  maxch : Nat
  fits : (os lname).fname.length < maxch

/-- The cache with the calls that were made and their answers. -/
structure Session (os : List Char → Sysname) where
  cache : Fncache
  log : List (Call os × Int × List Char)

variable {os : List Char → Sysname}

/-- The call that `os_sysfile` would answer so. -/
def Call.Answers (call : Call os) (answer : Int × List Char) : Prop :=
  answer = ((os call.lname).value, (os call.lname).fname ++ [eos])

/-- A call of `m_sysfile`; after a string has gone outside of its slot nothing is known. -/
def perform (s : Option (Session os)) (call : Call os) : Option (Session os) :=
  match s with
  | none => none
  | some s =>
      match s.cache.mSysfile os call.lname call.maxch with
      | none => none
      | some (answer, c) => some ⟨c, (call, answer) :: s.log⟩

/-- The list has every slot once. -/
def Fncache.Listed (c : Fncache) : Prop :=
  ∃ l, l.Perm (List.range maxFiles) ∧ Linked c.links l

/-- Every call was answered as `os_sysfile` would, and the list is whole. -/
def Transparent (s : Option (Session os)) : Prop :=
  ∃ session, s = some session ∧ (∀ e ∈ session.log, e.1.Answers e.2) ∧ session.cache.Listed

/-- There is a slot with the name. -/
def Fncache.Caches (c : Fncache) (lname : List Char) : Prop :=
  ∃ fn < maxFiles, (c.fncache fn).chksum = fnChksum lname ∧ (c.fncache fn).lname = lname

/-- A name that is not found has no slot, and what was tried for it fits in one. -/
def Plain (s : Option (Session os)) (call : Call os) : Prop :=
  ∀ session, s = some session → (os call.lname).found = false →
    ¬session.cache.Caches call.lname ∧
      (call.lname.length ≤ szLname → (os call.lname).fname.length ≤ szFname)

/-- The session after `m_fninit`. -/
def started (os : List Char → Sysname) (c : Fncache) (debug : Bool) : Option (Session os) :=
  some ⟨c.mFninit debug, []⟩

/-! ## The cache is transparent -/

open SafeRuns

variable {os : List Char → Sysname} {c : Fncache} {k : Links Nat} {l l₁ l₂ : List Nat}
  {fn : Nat} {lname : List Char}

/-! ## The list -/

theorem fnUnlink_eq (h : Linked k (l₁ ++ fn :: l₂)) (hne : l₁ ++ l₂ ≠ []) :
    fnUnlink k fn = k.unlink fn := by
  obtain ⟨hdn, htail⟩ := k.unlink_down fn
  obtain ⟨hup, hhead⟩ := k.unlink_upward fn
  have hfn := (List.nodup_cons.1 (List.nodup_middle.1 h.nodup)).1
  have hdnfn : (fnUnlink k fn).dn fn = k.dn fn := by
    rw [fnUnlink]
    dsimp only
    cases hy : k.up fn with
    | none => rfl
    | some y =>
        by_cases hyfn : fn = y
        · subst hyfn
          exact Function.update_self fn (k.dn fn) k.dn
        · exact Function.update_of_ne hyfn _ _
  apply Links.ext
  · rw [fnUnlink] at hdnfn ⊢
    dsimp only at hdnfn ⊢
    rw [hup, hdnfn]
    cases k.dn fn <;> rfl
  · rw [hdn, fnUnlink]
    cases k.up fn <;> rfl
  · rw [hhead, fnUnlink]
    dsimp only
    cases hz : k.dn fn with
    | some z => rfl
    | none =>
        refine if_neg fun heq => hne ?_
        rw [h.dn_eq, List.head?_eq_none_iff] at hz
        subst hz
        rw [h.head_eq] at heq
        cases l₁ with
        | nil => rfl
        | cons a l₁ =>
            obtain rfl := Option.some.inj heq
            exact absurd (List.mem_append_left _ List.mem_cons_self) hfn
  · rw [htail, fnUnlink]
    dsimp only
    cases hy : k.up fn with
    | some y => rfl
    | none =>
        refine if_neg fun heq => hne ?_
        rw [h.up_eq, List.getLast?_eq_none_iff] at hy
        subst hy
        rw [h.tail_eq, List.nil_append] at heq
        rcases l₂.eq_nil_or_concat with rfl | ⟨l₂, b, rfl⟩
        · rfl
        · rw [List.concat_eq_append, ← List.cons_append, List.getLast?_concat] at heq
          obtain rfl := Option.some.inj heq
          refine absurd ?_ hfn
          rw [List.nil_append, List.concat_eq_append]
          exact List.mem_append_right _ (List.mem_singleton_self b)

theorem linked_moved (h : Linked k l) (hmem : fn ∈ l) (hmany : 2 ≤ l.length) :
    Linked (fnTohead (fnUnlink k fn) fn) (fn :: l.erase fn) := by
  obtain ⟨l₁, l₂, rfl⟩ := List.append_of_mem hmem
  have hfn := (List.nodup_cons.1 (List.nodup_middle.1 h.nodup)).1
  have hfn₁ : fn ∉ l₁ := fun hin => hfn (List.mem_append_left _ hin)
  have hne : l₁ ++ l₂ ≠ [] := by
    intro hnil
    have hlen := congrArg List.length hnil
    rw [List.length_append, List.length_nil] at hlen
    rw [List.length_append, List.length_cons] at hmany
    omega
  have hrest := h.unlink hne
  rw [fnUnlink_eq h hne, List.erase_append_right _ hfn₁, List.erase_cons_head, fnTohead, if_neg]
  · exact hrest.pushHead hne hfn
  · intro hhead
    rw [hrest.head_eq] at hhead
    exact hfn (List.mem_of_mem_head? hhead)

theorem Fncache.Listed.toHead (h : c.Listed) (hfn : fn < maxFiles) : (c.toHead fn).Listed := by
  obtain ⟨l, hperm, hl⟩ := h
  have hmem : fn ∈ l := hperm.mem_iff.2 (List.mem_range.2 hfn)
  have hmany : 2 ≤ l.length := by
    rw [hperm.length_eq, List.length_range]
    decide
  exact ⟨fn :: l.erase fn, (List.perm_cons_erase hmem).symm.trans hperm,
    linked_moved hl hmem hmany⟩

theorem linked_foldl {slots : List Nat} (h : Linked k l) (hl : l ≠ [])
    (hnodup : (slots ++ l).Nodup) : Linked (slots.foldl fnTohead k) (slots.reverse ++ l) := by
  induction slots generalizing k l with
  | nil => exact h
  | cons fn slots ih =>
      rw [List.cons_append, List.nodup_cons, List.mem_append, not_or] at hnodup
      have hpush : Linked (fnTohead k fn) (fn :: l) := by
        rw [fnTohead, if_neg]
        · exact h.pushHead hl hnodup.1.2
        · intro hhead
          rw [h.head_eq] at hhead
          exact hnodup.1.2 (List.mem_of_mem_head? hhead)
      rw [List.foldl_cons, List.reverse_cons, List.append_assoc, List.singleton_append]
      refine ih hpush (List.cons_ne_nil fn l) ?_
      rw [List.nodup_middle, List.nodup_cons, List.mem_append, not_or]
      exact ⟨hnodup.1, hnodup.2⟩

theorem mFninit_listed (c : Fncache) (debug : Bool) : (c.mFninit debug).Listed := by
  have hone : Linked ⟨Function.update c.links.up 0 none, Function.update c.links.dn 0 none,
      some 0, some 0⟩ [0] :=
    ⟨List.nodup_singleton 0, ⟨rfl, rfl⟩, ⟨rfl, rfl⟩⟩
  refine ⟨_, ?_, linked_foldl hone (List.cons_ne_nil 0 []) (by decide)⟩
  decide

/-! ## The slots -/

/-- A slot is blank, or has what was left for its name. -/
def Filled (os : List Char → Sysname) (s : Sysfile) : Prop :=
  (s.chksum = -1 ∧ s.lname = []) ∨ (s.chksum = fnChksum s.lname ∧ s.fname = (os s.lname).fname)

theorem Filled.fname_eq {s : Sysfile} (h : Filled os s) (hchksum : s.chksum = fnChksum s.lname) :
    s.fname = (os s.lname).fname := by
  rcases h with ⟨hblank, hempty⟩ | ⟨-, hfname⟩
  · rw [hblank, hempty] at hchksum
    exact absurd hchksum (by decide)
  · exact hfname

theorem Fncache.Listed.find (h : c.Listed) :
    (∀ fn, c.find lname = some fn → fn < maxFiles ∧ (c.fncache fn).chksum = fnChksum lname ∧
      (c.fncache fn).lname = lname) ∧ (c.find lname = none ↔ ¬c.Caches lname) := by
  obtain ⟨l, hperm, hl⟩ := h
  have hwalk : c.fromHead = l := by
    refine hl.down.walk_eq ?_
    rw [hperm.length_eq, List.length_range]
    exact Nat.lt_succ_self _
  have hslot : ∀ fn, fn ∈ c.fromHead ↔ fn < maxFiles := by
    intro fn
    rw [hwalk, hperm.mem_iff, List.mem_range]
  rw [Fncache.find]
  refine ⟨fun fn hfind => ?_, ?_⟩
  · have hfn := List.find?_some hfind
    rw [Bool.and_eq_true, decide_eq_true_eq, decide_eq_true_eq] at hfn
    exact ⟨(hslot fn).1 (List.mem_of_find?_eq_some hfind), hfn.1, hfn.2.symm⟩
  · rw [List.find?_eq_none]
    constructor
    · rintro hnone ⟨fn, hfn, hchksum, hlname⟩
      refine hnone fn ((hslot fn).2 hfn) ?_
      rw [Bool.and_eq_true, decide_eq_true_eq, decide_eq_true_eq]
      exact ⟨hchksum, hlname.symm⟩
    · intro hno fn hfn hmatch
      rw [Bool.and_eq_true, decide_eq_true_eq, decide_eq_true_eq] at hmatch
      exact hno ⟨fn, (hslot fn).1 hfn, hmatch.1, hmatch.2.symm⟩

theorem fnStrncpyCells_fits {ip : List Char} {maxch : Nat} (h : ip.length < maxch) :
    fnStrncpyCells maxch ip = ip ++ [eos] := by
  induction ip generalizing maxch with
  | nil =>
      obtain ⟨n, rfl⟩ : ∃ n, maxch = n + 1 := ⟨maxch - 1, by rw [List.length_nil] at h; omega⟩
      rfl
  | cons c ip ih =>
      rw [List.length_cons] at h
      obtain ⟨n, rfl⟩ : ∃ n, maxch = n + 1 := ⟨maxch - 1, by omega⟩
      rw [fnStrncpyCells, ih (by omega), List.cons_append]

theorem fnStrncpy_fits {ip : List Char} {maxch : Nat} (h : ip.length < maxch) :
    fnStrncpy ip maxch = ((ip.length : Int), ip ++ [eos]) := by
  rw [fnStrncpy, fnStrncpyCells_fits h, List.length_append, List.length_singleton]
  push_cast
  rw [Int.add_sub_cancel]

/-! ## Calls -/

/-- What holds after every call that meets the condition. -/
def Inv (s : Option (Session os)) : Prop :=
  ∃ session, s = some session ∧ (∀ e ∈ session.log, e.1.Answers e.2) ∧ session.cache.Listed ∧
    ∀ fn < maxFiles, Filled os (session.cache.fncache fn)

theorem Inv.transparent {s : Option (Session os)} (h : Inv s) : Transparent s := by
  obtain ⟨session, rfl, hlog, hlisted, -⟩ := h
  exact ⟨session, rfl, hlog, hlisted⟩

theorem filled_setSlot {s : Sysfile} (hfilled : ∀ i < maxFiles, Filled os (c.fncache i))
    (hs : Filled os s) (fn : Nat) : ∀ i < maxFiles, Filled os ((c.setSlot fn s).fncache i) := by
  intro i hi
  by_cases heq : i = fn
  · rw [heq]
    exact (congrArg (Filled os) (Function.update_self _ _ _)).mpr hs
  · exact (congrArg (Filled os) (Function.update_of_ne heq _ _)).mpr (hfilled i hi)

variable {session : Session os} {call : Call os}

theorem forall_log {answer : Int × List Char} (hlog : ∀ e ∈ session.log, e.1.Answers e.2)
    (h : call.Answers answer) : ∀ e ∈ (call, answer) :: session.log, e.1.Answers e.2 :=
  List.forall_mem_cons.2 ⟨h, hlog⟩

/-- A name that is in the cache is answered with the length of its file name. -/
theorem perform_hit (hlisted : session.cache.Listed)
    (hfilled : ∀ i < maxFiles, Filled os (session.cache.fncache i))
    (hcached : session.cache.Caches call.lname) :
    ∃ cache, perform (some session) call = some ⟨cache, (call, ((os call.lname).fname.length,
      (os call.lname).fname ++ [eos])) :: session.log⟩ ∧ cache.Listed ∧
      ∀ i < maxFiles, Filled os (cache.fncache i) := by
  obtain ⟨hsome, hnone⟩ := @Fncache.Listed.find _ call.lname hlisted
  cases hfind : session.cache.find call.lname with
  | none => exact absurd hcached (hnone.1 hfind)
  | some fn =>
      obtain ⟨hfn, hchksum, hlname⟩ := hsome fn hfind
      have hfname := (hfilled fn hfn).fname_eq (hchksum.trans (congrArg fnChksum hlname.symm))
      rw [hlname] at hfname
      have hanswer := fnStrncpy_fits call.fits
      rw [← hfname] at hanswer
      rw [perform, Fncache.mSysfile, hfind]
      dsimp only
      rw [hanswer, hfname]
      refine ⟨_, rfl, hlisted.toHead hfn, filled_setSlot (c := session.cache.toHead fn) hfilled ?_ fn⟩
      rw [← hfname]
      exact hfilled fn hfn

theorem perform_miss (hlisted : session.cache.Listed)
    (hfilled : ∀ i < maxFiles, Filled os (session.cache.fncache i))
    (hmiss : ¬session.cache.Caches call.lname) :
    (call.lname.length ≤ szLname ∧ (os call.lname).found = false ∧
      szFname < (os call.lname).fname.length → perform (some session) call = none) ∧
    (¬(call.lname.length ≤ szLname ∧ (os call.lname).found = false ∧
      szFname < (os call.lname).fname.length) →
      ∃ cache, perform (some session) call = some ⟨cache, (call, ((os call.lname).value,
        (os call.lname).fname ++ [eos])) :: session.log⟩ ∧ cache.Listed ∧
        ∀ i < maxFiles, Filled os (cache.fncache i)) := by
  have hnone := (@Fncache.Listed.find _ call.lname hlisted).2.2 hmiss
  rw [perform, Fncache.mSysfile, hnone]
  dsimp only
  constructor
  · rintro ⟨hshort, hfound, hlong⟩
    have hvalue : (os call.lname).value = -1 := by
      rw [Sysname.value, hfound]
      rfl
    rw [if_neg, if_pos hlong]
    rw [hvalue, not_or]
    exact ⟨by decide, not_lt.2 hshort⟩
  · intro hfits
    by_cases hshort : (os call.lname).value > szFname ∨ call.lname.length > szLname
    · rw [if_pos hshort]
      exact ⟨_, rfl, hlisted, hfilled⟩
    · rw [if_neg hshort]
      rw [not_or, Int.not_lt, Nat.not_lt] at hshort
      have hroom : ¬(os call.lname).fname.length > szFname := by
        intro hlong
        cases hfound : (os call.lname).found with
        | false => exact hfits ⟨hshort.2, hfound, hlong⟩
        | true =>
            have hvalue := hshort.1
            rw [Sysname.value, hfound, if_pos rfl] at hvalue
            exact absurd (Int.ofNat_le.1 hvalue) (not_le.2 hlong)
      rw [if_neg hroom]
      obtain ⟨l, hperm, hl⟩ := hlisted
      cases htail : session.cache.links.tail with
      | none =>
          rw [hl.tail_eq, List.getLast?_eq_none_iff] at htail
          have hlen := hperm.length_eq
          rw [htail, List.length_range] at hlen
          exact absurd hlen (by decide)
      | some fn =>
          rw [hl.tail_eq] at htail
          have hfn := List.mem_range.1 (hperm.mem_iff.1 (List.mem_of_getLast? htail))
          have hlisted : session.cache.Listed := ⟨l, hperm, hl⟩
          exact ⟨_, rfl, hlisted.toHead hfn,
            filled_setSlot (c := session.cache.toHead fn) hfilled (.inr ⟨rfl, rfl⟩) fn⟩

theorem Inv.perform {s : Option (Session os)} (h : Inv s) (hplain : Plain s call) :
    Inv (perform s call) := by
  obtain ⟨session, rfl, hlog, hlisted, hfilled⟩ := h
  have hcall := hplain session rfl
  by_cases hcached : session.cache.Caches call.lname
  · have hfound : (os call.lname).found = true := by
      by_contra hno
      exact (hcall (Bool.not_eq_true _ ▸ hno)).1 hcached
    obtain ⟨cache, hperform, hrest⟩ := perform_hit hlisted hfilled hcached
    refine ⟨_, hperform, forall_log hlog ?_, hrest⟩
    rw [Call.Answers, Sysname.value, hfound, if_pos rfl]
  · obtain ⟨cache, hperform, hrest⟩ := (perform_miss hlisted hfilled hcached).2 fun hover =>
      absurd ((hcall hover.2.1).2 hover.1) (not_le.2 hover.2.2)
    exact ⟨_, hperform, forall_log hlog rfl, hrest⟩

/-- A call that does not meet it is answered wrong, or goes outside of a slot. -/
theorem Inv.not_transparent {s : Option (Session os)} (h : Inv s) (hplain : ¬Plain s call) :
    ¬Transparent (Boot.perform s call) := by
  obtain ⟨session, rfl, hlog, hlisted, hfilled⟩ := h
  rintro ⟨session', hsession', hlog', -⟩
  refine hplain fun session₁ heq hfound => ?_
  obtain rfl := Option.some.inj heq
  by_cases hcached : session.cache.Caches call.lname
  · obtain ⟨cache, hperform, -⟩ := perform_hit hlisted hfilled hcached
    rw [hperform] at hsession'
    obtain rfl := Option.some.inj hsession'
    have hanswer := hlog' _ List.mem_cons_self
    rw [Call.Answers, Sysname.value, hfound, if_neg Bool.false_ne_true, Prod.mk.injEq] at hanswer
    exact absurd hanswer.1 (by omega)
  · refine ⟨hcached, fun hshort => not_lt.1 fun hlong => ?_⟩
    rw [(perform_miss hlisted hfilled hcached).1 ⟨hshort, hfound, hlong⟩] at hsession'
    cases hsession'

theorem started_inv (os : List Char → Sysname) (c : Fncache) (debug : Bool) :
    Inv (started os c debug) := by
  refine ⟨_, rfl, nofun, mFninit_listed c debug, fun fn hfn => .inl ?_⟩
  dsimp only [Fncache.mFninit]
  rw [if_pos hfn]
  exact ⟨rfl, rfl⟩

/-- The cache is transparent in every state of a run if and only if no name that is not
found is looked up while it has a slot, and what was tried for such a name fits in one. -/
theorem mSysfile_transparent (os : List Char → Sysname) (c : Fncache) (debug : Bool)
    (calls : List (Call os)) :
    Always perform Transparent (started os c debug) calls ↔
      EachStep perform Plain (started os c debug) calls :=
  always_iff (fun _ (h : Inv _) => h.transparent) (fun _ _ h hplain => h.perform hplain)
    (fun _ _ h hplain => h.not_transparent hplain) (started_inv os c debug)

/-- No file is found, and the name is left in the buffer. -/
def noFiles : List Char → Sysname := fun lname => ⟨false, lname⟩

def askedForX : Call noFiles := ⟨['x'], 33, by decide⟩

/-- The cache before it is initialised. -/
def noCache : Fncache := ⟨fun _ => ⟨0, 0, [], []⟩, ⟨fun _ => none, fun _ => none, none, none⟩, 0, 0⟩

/-- The second lookup of a name that is not found gives the length of the name. -/
theorem not_transparent_twice :
    ¬Always perform Transparent (started noFiles noCache false) [askedForX, askedForX] := by
  intro h
  obtain ⟨session, hsession, hlog, -⟩ := h _ List.prefix_rfl
  have hanswers : (([askedForX, askedForX].foldl perform (started noFiles noCache false)).map
      fun s => s.log.map Prod.snd) = some [(1, ['x', eos]), (-1, ['x', eos])] := by
    decide +kernel
  rw [hsession] at hanswers
  have hmem : (1, ['x', eos]) ∈ session.log.map Prod.snd := by
    have hlogged : session.log.map Prod.snd = _ := Option.some.inj hanswers
    rw [hlogged]
    exact List.mem_cons_self
  obtain ⟨e, he, hanswer⟩ := List.mem_map.1 hmem
  have hwrong := hlog e he
  rw [Call.Answers, hanswer] at hwrong
  exact absurd (Prod.mk.inj hwrong).1 (show (1 : Int) ≠ -1 by decide)

end Iraf.Boot
