import Mathlib.Data.Set.Card
import Mathlib.Data.Int.Interval
import Iraf.Lib.InterchangeSort

/-!
# The index of a termcap entry

`ttyindex.x`.  A pointer into the caplist is the offset of a char, from 0 on; there
is the EOS after the last char.

The index that `tty_index_caps` builds lists the first field for each pair of chars
that begins a field, and `tty_binsearch` finds a cap code in a list that is not empty.
-/

namespace Iraf.Tty

open Cells

def maxCaps : Nat := 100

abbrev eos : Char := '\x00'

inductive TtyError where
  | ttyovfl
  | ttybinsrch
  deriving DecidableEq, Repr

/-- The text of a termcap entry. -/
structure Entry where
  text : List Char
  ascii : ∀ c ∈ text, 0 < c.toNat ∧ c.toNat < 128

/-- The two chars of a capability name. -/
structure Cap where
  c1 : Char
  c2 : Char
  ascii : c1.toNat < 128 ∧ c2.toNat < 128
  notColon : c1 ≠ ':' ∧ c2 ≠ ':'
  notEos : c1 ≠ eos ∧ c2 ≠ eos

/-- The index: the cap codes and the offsets, from 1 on, of the capabilities. -/
structure Index where
  tCapcode : Memory Int
  tCapindex : Memory Int
  ncaps : Nat

def encode (c1 c2 : Char) : Int := c1.toNat * 128 + c2.toNat

/-- The cap code of the capability that is before some text. -/
def ttyEncodeCapability (ip : List Char) : Int := encode (ip.getD 0 eos) (ip.getD 1 eos)

namespace Index

/-- The capcode is already in the list. -/
def Listed (t : Index) (capcode : Int) : Prop :=
  ∃ i ∈ List.range t.ncaps, t.tCapcode (i + 1 : Nat) = capcode

instance (t : Index) (capcode : Int) : Decidable (t.Listed capcode) :=
  inferInstanceAs (Decidable (∃ i ∈ List.range t.ncaps, _))

/-- A capcode that is not in the list is added to it, with the offset of its capability. -/
def enter (t : Index) (capcode : Int) (ip : Nat) : Index :=
  if t.Listed capcode then t
  else
    { tCapcode := Function.update t.tCapcode (t.ncaps + 1) capcode
      tCapindex := Function.update t.tCapindex (t.ncaps + 1) (ip + 1)
      ncaps := t.ncaps + 1 }

/-- The scan of the caplist from the offset `off` on. -/
def scan (t : Index) : Nat → List Char → Index
  | _, [] => t
  | off, c :: ip =>
      -- the test of the loop; only a new capability can change it
      if t.ncaps > maxCaps then t
      else if c = ':' then
        -- the normal exit
        if ip = [] then t else (t.enter (ttyEncodeCapability ip) (off + 1)).scan (off + 1) ip
      else t.scan (off + 1) ip

/-- Neighbours are exchanged in both arrays. -/
def interchange (t : Index) (i : Int) : Index :=
  { t with
    tCapcode := swap t.tCapcode i (i + 1)
    tCapindex := swap t.tCapindex i (i + 1) }

/-- A pass over a number of neighbours from `i` on, and whether any were exchanged. -/
def sortPass : Nat → Int → Index → Index × Bool
  | 0, _, t => (t, false)
  | n + 1, i, t =>
      if t.tCapcode i > t.tCapcode (i + 1) then
        ((sortPass n (i + 1) (t.interchange i)).1, true)
      else sortPass n (i + 1) t

/-- The passes until one exchanges nothing, a number of them at most. -/
def sortCaps : Nat → Index → Option Index
  | 0, _ => none
  | passes + 1, t =>
      if (sortPass (t.ncaps - 1) 1 t).2 then sortCaps passes (sortPass (t.ncaps - 1) 1 t).1
      else some (sortPass (t.ncaps - 1) 1 t).1

end Index

/-- The index of a caplist, made in arrays with any contents. -/
def ttyIndexCaps (caplist : List Char) (tCapcode tCapindex : Memory Int) :
    Except TtyError (Option Index) :=
  let t := Index.scan ⟨tCapcode, tCapindex, 0⟩ 0 caplist
  if t.ncaps > maxCaps then .error .ttyovfl
  else if t.ncaps > 1 then .ok (t.sortCaps t.ncaps) else .ok (some t)

/-- The trips of the binary search, a number of them at most. -/
def ttyBinsearchTrips (capcode : Int) (tCapcode : Memory Int) :
    Nat → Int → Int → Except TtyError Int
  | 0, _, _ => .error .ttybinsrch
  | ntrips + 1, low, high =>
      let pos := (high - low).tdiv 2 + low
      if tCapcode low = capcode then .ok low
      else if tCapcode high = capcode then .ok high
      else if pos = low then .ok 0
      else if tCapcode pos < capcode then ttyBinsearchTrips capcode tCapcode ntrips pos high
      else ttyBinsearchTrips capcode tCapcode ntrips low pos

def ttyBinsearch (capcode : Int) (t : Index) : Except TtyError Int :=
  ttyBinsearchTrips capcode t.tCapcode t.ncaps 1 t.ncaps

/-- The pointer to the value of a capability, when there is one. -/
def ttyFindCapability (caplist : List Char) (t : Index) (cap : Cap) :
    Except TtyError (Option Nat) :=
  match ttyBinsearch (encode cap.c1 cap.c2) t with
  | .error e => .error e
  | .ok capnum =>
      if capnum > 0 then
        let ip := (t.tCapindex capnum - 1 + 2).toNat
        if caplist.getD ip eos ≠ '@' then .ok (some ip) else .ok none
      else .ok none

/-! ## The fields of an entry -/

/-- There is a field at the offset `p`. -/
def FieldAt (caplist : List Char) (p : Nat) : Prop :=
  1 ≤ p ∧ p < caplist.length ∧ caplist[p - 1]? = some ':'

/-- The field at `p` has the name. -/
def HasName (caplist : List Char) (cap : Cap) (p : Nat) : Prop :=
  FieldAt caplist p ∧ caplist[p]? = some cap.c1 ∧ caplist[p + 1]? = some cap.c2

/-- What the first field with the name says. -/
def FirstMatch (caplist : List Char) (cap : Cap) : Option Nat → Prop
  | none => ∀ p, IsLeast {p | HasName caplist cap p} p → caplist[p + 2]? = some '@'
  | some ip => ∃ p, IsLeast {p | HasName caplist cap p} p ∧ ip = p + 2 ∧
      caplist[p + 2]? ≠ some '@'

/-- The names of the capabilities of an entry. -/
def names (caplist : List Char) : Set (Char × Char) :=
  {q | ∃ cap : Cap, q = (cap.c1, cap.c2) ∧ ∃ p, HasName caplist cap p}

/-- The pairs of chars that are at the beginning of fields; the second may be the end
of a field of one char, and both may be after an empty field. -/
def starts (caplist : List Char) : Set (Char × Char) :=
  {q | ∃ p, FieldAt caplist p ∧ q = (caplist.getD p eos, caplist.getD (p + 1) eos)}

/-- The index answers as a scan for the first field does, and an entry with too many
names is rejected. -/
def Answers (e : Entry) (tCapcode tCapindex : Memory Int) : Prop :=
  if (names e.text).ncard ≤ maxCaps then
    ∃ t, ttyIndexCaps e.text tCapcode tCapindex = .ok (some t) ∧
      ∀ cap, ∃ r, ttyFindCapability e.text t cap = .ok r ∧ FirstMatch e.text cap r
  else ttyIndexCaps e.text tCapcode tCapindex = .error .ttyovfl

/-! ## Looking up capabilities -/

variable {caplist : List Char} {t : Index} {cap : Cap} {p q : Nat}

/-! ## Cap codes -/

/-- The cap code of the field at an offset. -/
def codeAt (caplist : List Char) (p : Nat) : Int :=
  encode (caplist.getD p eos) (caplist.getD (p + 1) eos)

theorem encode_injective {c1 c2 d1 d2 : Char} (hc : c2.toNat < 128) (hd : d2.toNat < 128)
    (h : encode c1 c2 = encode d1 d2) : c1 = d1 ∧ c2 = d2 := by
  rw [encode, encode] at h
  exact ⟨Char.toNat_inj.1 (by omega), Char.toNat_inj.1 (by omega)⟩

theorem Entry.getD_ascii (e : Entry) (p : Nat) : (e.text.getD p eos).toNat < 128 := by
  rw [List.getD_eq_getElem?_getD]
  cases hc : e.text[p]? with
  | none => decide
  | some c => exact (e.ascii c (List.mem_of_getElem? hc)).2

theorem ttyEncodeCapability_drop (p : Nat) :
    ttyEncodeCapability (caplist.drop p) = codeAt caplist p := by
  rw [ttyEncodeCapability, codeAt]
  simp only [List.getD_eq_getElem?_getD, List.getElem?_drop, Nat.add_zero]

theorem HasName.codeAt (h : HasName caplist cap p) :
    codeAt caplist p = encode cap.c1 cap.c2 := by
  rw [Tty.codeAt, List.getD_eq_getElem?_getD, List.getD_eq_getElem?_getD, h.2.1, h.2.2]
  rfl

theorem getElem?_of_getD {c : Char} (h : caplist.getD p eos = c) (hne : c ≠ eos) :
    caplist[p]? = some c := by
  rw [List.getD_eq_getElem?_getD] at h
  cases hp : caplist[p]? with
  | none =>
      rw [hp] at h
      exact absurd h.symm hne
  | some d =>
      rw [hp] at h
      exact congrArg some h

theorem Entry.hasName (e : Entry) (hfield : FieldAt e.text p)
    (h : codeAt e.text p = encode cap.c1 cap.c2) : HasName e.text cap p := by
  obtain ⟨h1, h2⟩ := encode_injective (e.getD_ascii (p + 1)) cap.ascii.2 h
  exact ⟨hfield, getElem?_of_getD h1 cap.notEos.1, getElem?_of_getD h2 cap.notEos.2⟩

/-! ## The scan -/

/-- The table lists the cap codes of the fields up to the offset `q`, with their first
fields. -/
structure Lists (caplist : List Char) (t : Index) (q : Nat) : Prop where
  entry : ∀ i : Int, 1 ≤ i → i ≤ t.ncaps → ∃ p ≤ q, FieldAt caplist p ∧
    t.tCapindex i = p + 1 ∧ t.tCapcode i = codeAt caplist p
  first : ∀ p, FieldAt caplist p → p ≤ q →
    ∃ i : Int, (1 ≤ i ∧ i ≤ t.ncaps) ∧ t.tCapcode i = codeAt caplist p ∧ t.tCapindex i ≤ p + 1
  distinct : ∀ i j : Int, 1 ≤ i → i ≤ t.ncaps → 1 ≤ j → j ≤ t.ncaps →
    t.tCapcode i = t.tCapcode j → i = j

theorem listed_iff {capcode : Int} :
    t.Listed capcode ↔ ∃ i : Int, (1 ≤ i ∧ i ≤ t.ncaps) ∧ t.tCapcode i = capcode := by
  constructor
  · rintro ⟨i, hi, hcode⟩
    have hlt := List.mem_range.1 hi
    exact ⟨(i + 1 : Nat), ⟨by omega, by omega⟩, hcode⟩
  · rintro ⟨i, ⟨hi, hi'⟩, hcode⟩
    refine ⟨(i - 1).toNat, List.mem_range.2 (by omega), ?_⟩
    rwa [show (((i - 1).toNat + 1 : Nat) : Int) = i by omega]

theorem Lists.enter (h : Lists caplist t q) (hfield : FieldAt caplist (q + 1)) :
    Lists caplist (t.enter (codeAt caplist (q + 1)) (q + 1)) (q + 1) := by
  rw [Index.enter]
  split
  next hlisted =>
    obtain ⟨i, hi, hcode⟩ := listed_iff.1 hlisted
    refine ⟨fun j hj hj' => ?_, fun p hp hpq => ?_, h.distinct⟩
    · obtain ⟨p, hp, hrest⟩ := h.entry j hj hj'
      exact ⟨p, hp.trans (Nat.le_succ q), hrest⟩
    · rcases hpq.eq_or_lt with rfl | hlt
      · obtain ⟨p, hp, -, hindex, -⟩ := h.entry i hi.1 hi.2
        exact ⟨i, hi, hcode, by omega⟩
      · exact h.first p hp (Nat.lt_succ_iff.1 hlt)
  next hnew =>
    rw [listed_iff] at hnew
    have hold : ∀ i : Int, i ≤ t.ncaps → i ≠ t.ncaps + 1 := fun i hi => by omega
    have hcases : ∀ i : Int, i ≤ (t.ncaps + 1 : Nat) → i = t.ncaps + 1 ∨ i ≤ t.ncaps :=
      fun i hi => by omega
    refine ⟨fun i hi hi' => ?_, fun p hp hpq => ?_, fun i j hi hi' hj hj' heq => ?_⟩
    · rcases hcases i hi' with rfl | hle
      · exact ⟨q + 1, le_rfl, hfield, Function.update_self _ _ _, Function.update_self _ _ _⟩
      · obtain ⟨p, hp, hat, hindex, hcode⟩ := h.entry i hi hle
        dsimp only
        rw [Function.update_of_ne (hold i hle), Function.update_of_ne (hold i hle)]
        exact ⟨p, hp.trans (Nat.le_succ q), hat, hindex, hcode⟩
    · rcases hpq.eq_or_lt with rfl | hlt
      · refine ⟨t.ncaps + 1, ⟨by omega, by push_cast; omega⟩, Function.update_self _ _ _, ?_⟩
        exact (Function.update_self _ _ _).le
      · obtain ⟨i, hi, hcode, hindex⟩ := h.first p hp (Nat.lt_succ_iff.1 hlt)
        refine ⟨i, ⟨hi.1, by push_cast; omega⟩, ?_, ?_⟩
        · exact (Function.update_of_ne (hold i hi.2) _ _).trans hcode
        · dsimp only
          rw [Function.update_of_ne (hold i hi.2)]
          exact hindex
    · dsimp only at heq
      rcases hcases i hi' with rfl | hle <;> rcases hcases j hj' with rfl | hle'
      · rfl
      · rw [Function.update_self, Function.update_of_ne (hold j hle')] at heq
        exact absurd ⟨j, ⟨hj, hle'⟩, heq.symm⟩ hnew
      · rw [Function.update_self, Function.update_of_ne (hold i hle)] at heq
        exact absurd ⟨i, ⟨hi, hle⟩, heq⟩ hnew
      · rw [Function.update_of_ne (hold i hle), Function.update_of_ne (hold j hle')] at heq
        exact h.distinct i j hi hle hj hle' heq

theorem Lists.pass (h : Lists caplist t q) (hno : ¬FieldAt caplist (q + 1)) :
    Lists caplist t (q + 1) := by
  refine ⟨fun i hi hi' => ?_, fun p hp hpq => ?_, h.distinct⟩
  · obtain ⟨p, hp, hrest⟩ := h.entry i hi hi'
    exact ⟨p, hp.trans (Nat.le_succ q), hrest⟩
  · rcases hpq.eq_or_lt with rfl | hlt
    · exact absurd hp hno
    · exact h.first p hp (Nat.lt_succ_iff.1 hlt)

theorem enter_ncaps_le (t : Index) (capcode : Int) (ip : Nat) :
    (t.enter capcode ip).ncaps ≤ t.ncaps + 1 := by
  rw [Index.enter]
  split
  · exact Nat.le_succ _
  · exact le_rfl

/-- The scan lists the fields up to the end, or up to where the table overflows. -/
theorem scan_lists {ip : List Char} {off : Nat} (hip : ip = caplist.drop off)
    (hcaps : t.ncaps ≤ maxCaps + 1) (h : Lists caplist t off) :
    ∃ q, Lists caplist (t.scan off ip) q ∧
      ((t.scan off ip).ncaps ≤ maxCaps → ∀ p, FieldAt caplist p → p ≤ q) := by
  induction ip generalizing off t with
  | nil =>
      refine ⟨off, h, fun _ p hp => ?_⟩
      have hlen := List.drop_eq_nil_iff.1 hip.symm
      exact hp.2.1.le.trans hlen
  | cons c ip ih =>
      have hc : caplist[off]? = some c := by
        rw [← List.head?_drop, ← hip, List.head?_cons]
      have htail : ip = caplist.drop (off + 1) := by
        rw [← List.tail_drop, ← hip, List.tail_cons]
      rw [Index.scan]
      split
      next hfull => exact ⟨off, h, fun hle => absurd hfull (not_lt.2 hle)⟩
      next hroom =>
        split
        next hcolon =>
          split
          next hnil =>
            -- the last colon
            refine ⟨off, h, fun _ p hp => ?_⟩
            have hlen := List.drop_eq_nil_iff.1 (htail.symm.trans hnil)
            have := hp.2.1
            omega
          next hne =>
            have hfield : FieldAt caplist (off + 1) := by
              refine ⟨Nat.succ_pos off, ?_, ?_⟩
              · by_contra hlen
                exact hne (htail.trans (List.drop_eq_nil_of_le (not_lt.1 hlen)))
              · rw [Nat.add_sub_cancel, hc, hcolon]
            have henter := h.enter hfield
            rw [← ttyEncodeCapability_drop, ← htail] at henter
            refine ih htail ?_ henter
            have := enter_ncaps_le t (ttyEncodeCapability ip) (off + 1)
            omega
        next hother =>
          refine ih htail hcaps (h.pass fun hfield => hother ?_)
          have hcolon := hfield.2.2
          rw [Nat.add_sub_cancel, hc] at hcolon
          exact Option.some.inj hcolon

theorem lists_empty (tCapcode tCapindex : Memory Int) :
    Lists caplist ⟨tCapcode, tCapindex, 0⟩ 0 := by
  refine ⟨fun i hi hi' => ?_, fun p hp hle => ?_, fun i j hi hi' => ?_⟩
  · exact absurd (show (1 : Int) ≤ 0 from hi.trans hi') (by decide)
  · exact absurd (hp.1.trans hle) (by decide)
  · exact absurd (show (1 : Int) ≤ 0 from hi.trans hi') (by decide)

/-! ## How many fields there are -/

theorem starts_finite (caplist : List Char) : (starts caplist).Finite := by
  refine Set.Finite.subset ((Set.finite_lt_nat caplist.length).image
    fun p => (caplist.getD p eos, caplist.getD (p + 1) eos)) ?_
  rintro q ⟨p, hp, rfl⟩
  exact ⟨p, hp.2.1, rfl⟩

theorem names_subset (caplist : List Char) : names caplist ⊆ starts caplist := by
  rintro q ⟨cap, rfl, p, hp⟩
  refine ⟨p, hp.1, ?_⟩
  rw [List.getD_eq_getElem?_getD, List.getD_eq_getElem?_getD, hp.2.1, hp.2.2]
  rfl

theorem Lists.ncard (h : Lists caplist t q) :
    (t.tCapcode '' {i : Int | 1 ≤ i ∧ i ≤ t.ncaps}).ncard = t.ncaps := by
  have hinj : Set.InjOn t.tCapcode {i : Int | 1 ≤ i ∧ i ≤ t.ncaps} := by
    rintro i ⟨hi, hi'⟩ j ⟨hj, hj'⟩ heq
    exact h.distinct i j hi hi' hj hj' heq
  have hinterval : {i : Int | 1 ≤ i ∧ i ≤ t.ncaps} = Set.Icc 1 (t.ncaps : Int) := rfl
  rw [hinterval] at hinj ⊢
  rw [hinj.ncard_image, Set.ncard_eq_toFinset_card', Set.toFinset_Icc, Int.card_Icc]
  omega

theorem Entry.ncard_codes (e : Entry) :
    ((fun s : Char × Char => encode s.1 s.2) '' starts e.text).ncard = (starts e.text).ncard := by
  refine Set.InjOn.ncard_image ?_
  rintro - ⟨p, -, rfl⟩ - ⟨p', -, rfl⟩ heq
  obtain ⟨h1, h2⟩ := encode_injective (e.getD_ascii (p + 1)) (e.getD_ascii (p' + 1)) heq
  exact Prod.ext h1 h2

theorem Lists.codes_subset (h : Lists caplist t q) :
    t.tCapcode '' {i : Int | 1 ≤ i ∧ i ≤ t.ncaps} ⊆
      (fun s : Char × Char => encode s.1 s.2) '' starts caplist := by
  rintro - ⟨i, hi, rfl⟩
  obtain ⟨p, -, hfield, -, hcode⟩ := h.entry i hi.1 hi.2
  exact ⟨_, ⟨p, hfield, rfl⟩, hcode.symm⟩

/-- The table is as long as there are pairs of chars, and overflows when they are too
many. -/
theorem Entry.ncaps_eq (e : Entry) {t : Index} (h : Lists e.text t q)
    (hall : t.ncaps ≤ maxCaps → ∀ p, FieldAt e.text p → p ≤ q) :
    t.ncaps ≤ (starts e.text).ncard ∧
      (t.ncaps ≤ maxCaps → t.ncaps = (starts e.text).ncard) := by
  have hfinite := (starts_finite e.text).image fun s : Char × Char => encode s.1 s.2
  refine ⟨?_, fun hle => ?_⟩
  · rw [← h.ncard, ← e.ncard_codes]
    exact Set.ncard_le_ncard h.codes_subset hfinite
  · rw [← h.ncard, ← e.ncard_codes]
    refine congrArg Set.ncard (h.codes_subset.antisymm ?_)
    rintro - ⟨-, ⟨p, hfield, rfl⟩, rfl⟩
    obtain ⟨i, hi, hcode, -⟩ := h.first p hfield (hall hle p hfield)
    exact ⟨i, hi, hcode⟩

/-! ## The order of the table -/

/-- The cap codes with their offsets. -/
def pairs (t : Index) : Memory (Int × Int) := fun i => (t.tCapcode i, t.tCapindex i)

theorem pairs_sortPass {n : Nat} {i : Int} :
    pairs (Index.sortPass n i t).1 = (pass Prod.fst n i (pairs t)).1 ∧
      (Index.sortPass n i t).2 = (pass Prod.fst n i (pairs t)).2 ∧
      (Index.sortPass n i t).1.ncaps = t.ncaps := by
  induction n generalizing i t with
  | zero => exact ⟨rfl, rfl, rfl⟩
  | succ n ih =>
      rw [Index.sortPass, Cells.pass]
      by_cases hgt : t.tCapcode i > t.tCapcode (i + 1)
      · have hgt' : (pairs t i).1 > (pairs t (i + 1)).1 := hgt
        rw [if_pos hgt, if_pos hgt']
        obtain ⟨hpairs, -, hncaps⟩ := @ih (t.interchange i) (i + 1)
        exact ⟨hpairs, rfl, hncaps⟩
      · have hle : ¬(pairs t i).1 > (pairs t (i + 1)).1 := hgt
        rw [if_neg hgt, if_neg hle]
        exact ih

theorem pairs_sortCaps {passes : Nat} {m' : Memory (Int × Int)}
    (h : interchangeSort Prod.fst t.ncaps passes (pairs t) = some m') :
    ∃ t', t.sortCaps passes = some t' ∧ pairs t' = m' ∧ t'.ncaps = t.ncaps := by
  induction passes generalizing t with
  | zero => cases h
  | succ passes ih =>
      obtain ⟨hpairs, hswap, hncaps⟩ := pairs_sortPass (t := t) (n := t.ncaps - 1) (i := 1)
      rw [interchangeSort, ← hswap, ← hpairs] at h
      rw [Index.sortCaps]
      split at h
      next hagain =>
        rw [if_pos hagain]
        have hagain' : interchangeSort Prod.fst (Index.sortPass (t.ncaps - 1) 1 t).1.ncaps passes
            (pairs (Index.sortPass (t.ncaps - 1) 1 t).1) = some m' := by
          rw [hncaps]
          exact h
        obtain ⟨t', hsort, hm, hncaps'⟩ := ih hagain'
        exact ⟨t', hsort, hm, hncaps'.trans hncaps⟩
      next hdone =>
        rw [if_neg hdone]
        exact ⟨_, rfl, Option.some.inj h, hncaps⟩

theorem Lists.rearranged {t' : Index} (h : Lists caplist t q) (hncaps : t'.ncaps = t.ncaps)
    (hperm : Rearranged 1 t.ncaps (pairs t) (pairs t')) : Lists caplist t' q := by
  obtain ⟨σ, hσ, hpairs⟩ := hperm
  have hcode : ∀ i, t'.tCapcode i = t.tCapcode (σ i) := fun i => congrArg Prod.fst (hpairs i)
  have hindex : ∀ i, t'.tCapindex i = t.tCapindex (σ i) := fun i => congrArg Prod.snd (hpairs i)
  have hσ' : ∀ a, a < 1 ∨ (t.ncaps : Int) < a → σ.symm a = a := fun a ha => by
    rw [Equiv.symm_apply_eq, hσ a ha]
  have hin : ∀ i, 1 ≤ i → i ≤ (t'.ncaps : Int) → 1 ≤ σ i ∧ σ i ≤ t.ncaps := fun i hi hi' =>
    mem_of_fixes hσ ⟨hi, hncaps ▸ hi'⟩
  refine ⟨fun i hi hi' => ?_, fun p hp hpq => ?_, fun i j hi hi' hj hj' heq => ?_⟩
  · rw [hcode, hindex]
    exact h.entry (σ i) (hin i hi hi').1 (hin i hi hi').2
  · obtain ⟨i, hi, hi', hle⟩ := h.first p hp hpq
    refine ⟨σ.symm i, hncaps ▸ mem_of_fixes hσ' hi, ?_, ?_⟩
    · rw [hcode, Equiv.apply_symm_apply, hi']
    · rw [hindex, Equiv.apply_symm_apply]
      exact hle
  · rw [hcode, hcode] at heq
    exact σ.injective (h.distinct _ _ (hin i hi hi').1 (hin i hi hi').2 (hin j hj hj').1
      (hin j hj hj').2 heq)

/-- The cap codes are in order. -/
def Ordered (t : Index) : Prop :=
  ∀ i j : Int, 1 ≤ i → i ≤ j → j ≤ t.ncaps → t.tCapcode i ≤ t.tCapcode j

theorem ttyIndexCaps_spec (e : Entry) (tCapcode tCapindex : Memory Int) :
    (maxCaps < (starts e.text).ncard →
      ttyIndexCaps e.text tCapcode tCapindex = .error .ttyovfl) ∧
    ((starts e.text).ncard ≤ maxCaps →
      ∃ t q, ttyIndexCaps e.text tCapcode tCapindex = .ok (some t) ∧ Lists e.text t q ∧
        (∀ p, FieldAt e.text p → p ≤ q) ∧ Ordered t ∧ t.ncaps = (starts e.text).ncard) := by
  obtain ⟨q, hlists, hall⟩ := scan_lists (List.drop_zero (l := e.text)).symm (Nat.zero_le _)
    (lists_empty tCapcode tCapindex)
  rw [ttyIndexCaps]
  generalize Index.scan ⟨tCapcode, tCapindex, 0⟩ 0 e.text = t at hlists hall
  obtain ⟨hle, heq⟩ := e.ncaps_eq hlists hall
  refine ⟨fun hmany => if_pos ?_, fun hfew => ?_⟩
  · by_contra hsmall
    have := heq (not_lt.1 hsmall)
    omega
  · have hsmall : t.ncaps ≤ maxCaps := hle.trans hfew
    rw [if_neg (not_lt.2 hsmall)]
    split
    next hmany =>
      have hstart : Settled Prod.fst t.ncaps 0 (pairs t) := fun a b ha hab hb hbn => by
        push_cast at hb
        omega
      obtain ⟨m', hsort, hperm, hordered⟩ :=
        interchangeSort_spec hmany.le (Nat.zero_add t.ncaps).ge hstart
      obtain ⟨t', hsort', rfl, hncaps⟩ := pairs_sortCaps hsort
      rw [hsort']
      refine ⟨t', q, rfl, hlists.rearranged hncaps hperm, hall hsmall, fun i j hi hij hj => ?_,
        hncaps.trans (heq hsmall)⟩
      exact hordered i j hi hij (hncaps ▸ hj)
    next hone =>
      refine ⟨t, q, rfl, hlists, hall hsmall, fun i j hi hij hj => ?_, heq hsmall⟩
      obtain rfl : i = j := by omega
      exact le_rfl

/-! ## The search -/

theorem ttyBinsearchTrips_spec {capcode : Int} {codes : Memory Int} {ntrips : Nat}
    {low high : Int} (hle : low ≤ high) (htrips : high - low < ntrips)
    (hordered : ∀ i j, low ≤ i → i ≤ j → j ≤ high → codes i ≤ codes j) :
    ∃ r, ttyBinsearchTrips capcode codes ntrips low high = .ok r ∧
      ((r = 0 ∧ ∀ i, low ≤ i → i ≤ high → codes i ≠ capcode) ∨
        (low ≤ r ∧ r ≤ high) ∧ codes r = capcode) := by
  induction ntrips generalizing low high with
  | zero => exact absurd htrips (by push_cast; omega)
  | succ ntrips ih =>
      have hdiv : (high - low).tdiv 2 = (high - low) / 2 :=
        Int.tdiv_eq_ediv_of_nonneg (by omega)
      rw [ttyBinsearchTrips, hdiv]
      split
      next hlow => exact ⟨low, rfl, .inr ⟨⟨le_rfl, hle⟩, hlow⟩⟩
      next hlow =>
      split
      next hhigh => exact ⟨high, rfl, .inr ⟨⟨hle, le_rfl⟩, hhigh⟩⟩
      next hhigh =>
      generalize hpos : (high - low) / 2 + low = pos
      split
      next hsmall =>
        refine ⟨0, rfl, .inl ⟨rfl, fun i hi hi' => ?_⟩⟩
        obtain rfl | rfl : i = low ∨ i = high := by omega
        · exact hlow
        · exact hhigh
      next hlarge =>
        have hbetween : low < pos ∧ pos < high := by omega
        split
        next hbelow =>
          obtain ⟨r, hr, hfound⟩ := @ih pos high (by omega) (by push_cast at htrips; omega)
            fun i j hi hij hj => hordered i j (by omega) hij hj
          refine ⟨r, hr, hfound.imp (fun hnone => ⟨hnone.1, fun i hi hi' => ?_⟩)
            fun hsome => ⟨⟨by omega, hsome.1.2⟩, hsome.2⟩⟩
          rcases le_total pos i with hup | hdown
          · exact hnone.2 i hup hi'
          · exact ((hordered i pos hi hdown hbetween.2.le).trans_lt hbelow).ne
        next habove =>
          obtain ⟨r, hr, hfound⟩ := @ih low pos (by omega) (by push_cast at htrips; omega)
            fun i j hi hij hj => hordered i j hi hij (by omega)
          refine ⟨r, hr, hfound.imp (fun hnone => ⟨hnone.1, fun i hi hi' => ?_⟩)
            fun hsome => ⟨⟨hsome.1.1, by omega⟩, hsome.2⟩⟩
          rcases le_total i pos with hdown | hup
          · exact hnone.2 i hi hdown
          · have hat := hnone.2 pos hbetween.1.le le_rfl
            have hle' := hordered pos i hbetween.1.le hup hi'
            omega

theorem ttyFindCapability_spec (e : Entry) {t : Index} (hlists : Lists e.text t q)
    (hall : ∀ p, FieldAt e.text p → p ≤ q) (hordered : Ordered t) (hpos : 1 ≤ t.ncaps)
    (cap : Cap) : ∃ r, ttyFindCapability e.text t cap = .ok r ∧ FirstMatch e.text cap r := by
  obtain ⟨capnum, hsearch, hfound⟩ := @ttyBinsearchTrips_spec (encode cap.c1 cap.c2)
    t.tCapcode t.ncaps 1 t.ncaps (by omega) (by omega) hordered
  rw [ttyFindCapability, ttyBinsearch, hsearch]
  dsimp only
  rcases hfound with ⟨rfl, hnone⟩ | ⟨hin, hcode⟩
  · refine ⟨none, rfl, fun p hp => ?_⟩
    obtain ⟨i, hi, hcode, -⟩ := hlists.first p hp.1.1 (hall p hp.1.1)
    exact absurd (hcode.trans hp.1.codeAt) (hnone i hi.1 hi.2)
  · obtain ⟨p, -, hfield, hindex, hcodeAt⟩ := hlists.entry capnum hin.1 hin.2
    have hname : HasName e.text cap p := e.hasName hfield (hcodeAt.symm.trans hcode)
    have hleast : IsLeast {p | HasName e.text cap p} p := by
      refine ⟨hname, fun p' hp' => ?_⟩
      obtain ⟨i, hi, hcode', hle⟩ := hlists.first p' hp'.1 (hall p' hp'.1)
      obtain rfl := hlists.distinct i capnum hi.1 hi.2 hin.1 hin.2
        (hcode'.trans (hp'.codeAt.trans hcode.symm))
      omega
    have hip : (t.tCapindex capnum - 1 + 2).toNat = p + 2 := by omega
    rw [if_pos (by omega), hip]
    split
    next hvalue =>
      refine ⟨_, rfl, p, hleast, rfl, fun hat => hvalue ?_⟩
      rw [List.getD_eq_getElem?_getD, hat]
      rfl
    next hvalue =>
      refine ⟨none, rfl, fun p' hp' => ?_⟩
      rw [hp'.unique hleast]
      exact getElem?_of_getD (not_not.1 hvalue) (by decide)

theorem ttyFindCapability_empty (hempty : t.ncaps = 0) (cap : Cap) :
    ttyFindCapability caplist t cap = .error .ttybinsrch := by
  rw [ttyFindCapability, ttyBinsearch, hempty]
  rfl

def letterCap : Cap := ⟨'c', 'm', by decide, by decide, by decide⟩

/-- The index answers as the scan for the first field does if and only if the entry has a
field, and not too many pairs of chars begin its fields. -/
theorem ttyFindCapability_answers_iff (e : Entry) (tCapcode tCapindex : Memory Int) :
    Answers e tCapcode tCapindex ↔ ((names e.text).ncard ≤ maxCaps →
      (starts e.text).Nonempty ∧ (starts e.text).ncard ≤ maxCaps) := by
  obtain ⟨hmany, hfew⟩ := ttyIndexCaps_spec e tCapcode tCapindex
  have hsub := Set.ncard_le_ncard (names_subset e.text) (starts_finite e.text)
  rw [Answers]
  split
  next hnames =>
    constructor
    · rintro ⟨t, hindex, hfind⟩ -
      have hle : (starts e.text).ncard ≤ maxCaps := by
        by_contra hgt
        rw [hmany (not_le.1 hgt)] at hindex
        cases hindex
      refine ⟨?_, hle⟩
      obtain ⟨t', q, hindex', -, -, -, hncaps⟩ := hfew hle
      rw [hindex] at hindex'
      cases hindex'
      by_contra hempty
      rw [Set.not_nonempty_iff_eq_empty.1 hempty, Set.ncard_empty] at hncaps
      obtain ⟨r, hr, -⟩ := hfind letterCap
      rw [ttyFindCapability_empty hncaps] at hr
      cases hr
    · intro hcond
      obtain ⟨hne, hle⟩ := hcond hnames
      obtain ⟨t, q, hindex, hlists, hall, hordered, hncaps⟩ := hfew hle
      have hpos : 1 ≤ t.ncaps := hncaps ▸ (Set.ncard_pos (starts_finite e.text)).2 hne
      exact ⟨t, hindex, ttyFindCapability_spec e hlists hall hordered hpos⟩
  next hnames =>
    refine iff_of_true (hmany ?_) fun h => absurd h hnames
    omega

def noFields : Entry where
  text := ['d', 'u', 'm', 'b', ':']
  ascii c hc := by
    have hall : (['d', 'u', 'm', 'b', ':'].all fun c => decide (0 < c.toNat ∧ c.toNat < 128)) =
        true := rfl
    exact of_decide_eq_true (List.all_eq_true.1 hall c hc)

theorem starts_noFields : starts noFields.text = ∅ := by
  rw [Set.eq_empty_iff_forall_notMem]
  rintro s ⟨p, ⟨h1, hlen, hcolon⟩, -⟩
  have hp : p < 5 := hlen
  have hcases : p = 1 ∨ p = 2 ∨ p = 3 ∨ p = 4 := by omega
  rcases hcases with rfl | rfl | rfl | rfl <;> exact absurd hcolon (by decide)

/-- The entry of a terminal without capabilities. -/
theorem not_answers_noFields : ¬Answers noFields (fun _ => 0) fun _ => 0 := by
  have hnames : (names noFields.text).ncard = 0 := by
    have hsub := names_subset noFields.text
    rw [starts_noFields, Set.subset_empty_iff] at hsub
    rw [hsub, Set.ncard_empty]
  rw [Answers, if_pos (by rw [hnames]; exact Nat.zero_le _)]
  rintro ⟨t, hindex, hfind⟩
  have hempty : ttyIndexCaps noFields.text (fun _ => 0) (fun _ => 0) =
      .ok (some ⟨fun _ => 0, fun _ => 0, 0⟩) := rfl
  rw [hempty] at hindex
  cases hindex
  obtain ⟨r, hr, -⟩ := hfind letterCap
  rw [ttyFindCapability_empty rfl] at hr
  cases hr

end Iraf.Tty
