import Iraf.Fmtio.Ctol
import Iraf.Lib.Cells
import Mathlib.Data.List.Count

/-!
# Dictionary lookup

`strdic.x`.  An array is the list of its cells from index 1 on; a string in it ends at
the first EOS, and there may be more cells after that.
-/

namespace Iraf.Fmtio.Strdic

open LongText (isWhite)
open Cells (overlay)

abbrev eos : Char := '\x00'

/-- The cell `k` places on. -/
def cell (cs : List Char) (k : Nat) : Char := cs.getD k eos

def strlen (cs : List Char) : Nat := (cs.takeWhile (· ≠ eos)).length

def strncmp : List Char → List Char → Nat → Int
  | _, _, 0 => 0
  | s1, s2, n + 1 =>
      if cell s1 0 ≠ cell s2 0 then (cell s1 0).toNat - (cell s2 0).toNat
      else if cell s1 0 = eos then 0
      else strncmp s1.tail s2.tail n

/-- The arrays of a call; there is only one where `out_str` is `in_str`. -/
structure Arrays where
  inStr : List Char
  outStr : Option (List Char)
  deriving DecidableEq

def Arrays.out (a : Arrays) : List Char := a.outStr.getD a.inStr

/-- Cells are stored in `out_str` from index 1 on. -/
def Arrays.write (a : Arrays) (cs : List Char) : Arrays :=
  match a.outStr with
  | none => { a with inStr := overlay a.inStr 0 cs }
  | some out => { a with outStr := some (overlay out 0 cs) }

/-- The chars of an entry that the copy loop stores. -/
def copied (delim : Char) : Nat → List Char → List Char
  | 0, _ => []
  | maxchars + 1, ip =>
      if cell ip 0 = delim ∨ cell ip 0 = eos then []
      else cell ip 0 :: copied delim maxchars ip.tail

/-- The loop that moves on to the next entry. -/
def nextEntry (delim : Char) : List Char → List Char
  | [] => []
  | ch :: ip => if ch = delim ∨ cell ip 0 = eos then ip else nextEntry delim ip

/-- What does not change while the dictionary is searched. -/
structure Query where
  delim : Char
  fch : Char
  start : Nat
  len : Nat
  maxchars : Nat

/-- The entry at `ip` begins with the `len` chars that `text` holds. -/
def Query.Passes (q : Query) (text ip : List Char) : Prop :=
  cell ip 0 = q.fch ∧ strncmp ip text q.len = 0

/-- The entry at `ip` has `len` chars. -/
def Query.Ends (q : Query) (ip : List Char) : Prop :=
  cell ip q.len = q.delim ∨ cell ip q.len = eos

instance (q : Query) (text ip : List Char) : Decidable (q.Passes text ip) :=
  inferInstanceAs (Decidable (_ ∧ _))

instance (q : Query) (ip : List Char) : Decidable (q.Ends ip) :=
  inferInstanceAs (Decidable (_ ∨ _))

/-- The search, with the number of the entry at `ip` and that of the abbreviation found;
each pass moves on in the dictionary. -/
def search (q : Query) : Nat → List Char → Nat → Nat → Arrays → Nat × Arrays
  | 0, _, _, found, a => (found, a)
  | fuel + 1, ip, entry, found, a =>
      if cell ip 0 = eos then (found, a)
      else if q.Passes (a.inStr.drop q.start) ip then
        let a := a.write (copied q.delim q.maxchars ip ++ [eos])
        if q.Ends ip then (entry, a)
        -- the abbreviation is ambiguous
        else if found ≠ 0 then (0, a)
        else search q fuel (nextEntry q.delim ip) (entry + 1) entry a
      else search q fuel (nextEntry q.delim ip) (entry + 1) found a

def query (a : Arrays) (maxchars : Nat) (dict : List Char) : Query :=
  let start := (a.inStr.takeWhile isWhite).length
  { delim := cell dict 0, fch := cell (a.inStr.drop start) 0, start,
    len := strlen (a.inStr.drop start), maxchars }

/-- The word index of the entry, and the arrays after the call. -/
def strdic (a : Arrays) (maxchars : Nat) (dict : List Char) : Nat × Arrays :=
  if cell dict 0 = eos then (0, a)
  else search (query a maxchars dict) dict.length dict.tail 1 0 a

/-! ## Dictionaries -/

/-- The entries of a dictionary string; there may be a delimiter after the last one. -/
structure Dictionary where
  delim : Char
  entries : List (List Char)
  closed : Bool
  delim_ne : delim ≠ eos
  nonempty : ∀ e ∈ entries, e ≠ []
  plain : ∀ e ∈ entries, delim ∉ e ∧ eos ∉ e

namespace Dictionary

def rest (d : Dictionary) : List (List Char) → List Char
  | [] => []
  | e :: es => e ++ (if es = [] ∧ d.closed = false then [] else [d.delim]) ++ d.rest es

/-- The dictionary string. -/
def text (d : Dictionary) : List Char :=
  if d.entries = [] ∧ d.closed = false then [] else d.delim :: d.rest d.entries

/-- The entry with a word index, which counts from 1. -/
def entry (d : Dictionary) (index : Nat) : Option (List Char) :=
  if index = 0 then none else d.entries[index - 1]?

end Dictionary

/-- `in_str` holds `s`, which is no part of the dictionary's punctuation, after blanks. -/
structure Holds (cells white s : List Char) (delim : Char) : Prop where
  cells : ∃ more, cells = white ++ s ++ eos :: more
  white : ∀ c ∈ white, isWhite c = true
  nonempty : s ≠ []
  start : ∀ c ∈ s.head?, isWhite c = false
  noEos : eos ∉ s
  noDelim : delim ∉ s

/-- The entry that equals `s` is found, otherwise the only one that begins with it, and
nothing otherwise; `out_str` then holds the entry. -/
def Resolves (d : Dictionary) (s : List Char) (r : Nat × Arrays) : Prop :=
  (s ∈ d.entries → d.entry r.1 = some s) ∧
    (s ∉ d.entries →
      if d.entries.countP (s.isPrefixOf ·) = 1 then ∃ e, d.entry r.1 = some e ∧ s <+: e
      else r.1 = 0) ∧
    (r.1 ≠ 0 → ∃ e, d.entry r.1 = some e ∧ e ++ [eos] <+: r.2.out)

/-- The first entry that begins with `s`, and those after it. -/
def firstAbbreviated (s : List Char) : List (List Char) → Option (List Char × List (List Char))
  | [] => none
  | e :: es => if s <+: e then some (e, es) else firstAbbreviated s es

/-- The first of the entries that passes the test of the code, and those after it; after
the last one are EOS and `more`. -/
def firstPassing (d : Dictionary) (q : Query) (more text : List Char) :
    List (List Char) → Option (List Char × List (List Char))
  | [] => none
  | e :: es =>
      if q.Passes text (d.rest (e :: es) ++ eos :: more) then some (e, es)
      else firstPassing d q more text es

/-- No entry begins with `s`, or the first that does is `s`; or among those after it the
first that passes the test with what `in_str` holds once that entry is in `out_str` is
`s`, or is longer than `s` where `s` is ambiguous; if none passes, none begins with `s`. -/
def Settled (d : Dictionary) (more : List Char) (a : Arrays) (maxchars : Nat)
    (s : List Char) : Prop :=
  let q := query a maxchars (d.text ++ eos :: more)
  match firstAbbreviated s d.entries with
  | none => True
  | some (e, later) =>
      e = s ∨
        match firstPassing d q more ((a.write (e ++ [eos])).inStr.drop q.start) later with
        | none => ∀ x ∈ later, ¬ s <+: x
        | some (x, post) =>
            if q.Ends (d.rest (x :: post) ++ eos :: more) then x = s
            else s ∉ later ∧ ∃ y ∈ later, s <+: y

variable {d : Dictionary} {s more e : List Char} {es : List (List Char)} {a : Arrays}
  {maxchars : Nat}

/-! ## Strings and their ends -/

theorem cell_append_of_lt {xs ys : List Char} {k : Nat} (h : k < xs.length) :
    cell (xs ++ ys) k = xs[k] := by
  rw [cell, List.getD_eq_getElem?_getD, List.getElem?_append_left h,
    List.getElem?_eq_getElem h, Option.getD_some]

theorem cell_append_self {xs ys : List Char} {c : Char} :
    cell (xs ++ c :: ys) xs.length = c := by
  rw [cell, List.getD_eq_getElem?_getD, List.getElem?_append_right le_rfl, Nat.sub_self]
  rfl

theorem strlen_append (hs : eos ∉ s) : strlen (s ++ eos :: more) = s.length := by
  rw [strlen, List.takeWhile_append_of_pos]
  · simp
  · intro c hc
    have hne : c ≠ eos := fun heq => hs (heq ▸ hc)
    simpa using hne

theorem strncmp_eq_zero_iff (hs : eos ∉ s) {ip : List Char} :
    strncmp ip (s ++ more) s.length = 0 ↔ s <+: ip := by
  induction s generalizing ip with
  | nil => simp [strncmp]
  | cons c s ih =>
      have hc : eos ≠ c := fun h => hs (by simp [h])
      have htail : eos ∉ s := fun h => hs (List.mem_cons_of_mem c h)
      rw [List.length_cons, strncmp]
      cases ip with
      | nil =>
          have hne : cell [] 0 ≠ cell (c :: s ++ more) 0 := hc
          have hpos : c.toNat ≠ 0 := by
            intro h0
            refine hc ?_
            rw [← Char.ofNat_toNat c, h0]
          rw [if_pos hne]
          refine iff_of_false ?_ (by simp)
          change ((0 : Nat) : Int) - (c.toNat : Int) ≠ 0
          omega
      | cons b ip =>
          have hcell : cell (b :: ip) 0 = b ∧ cell (c :: s ++ more) 0 = c := ⟨rfl, rfl⟩
          rw [hcell.1, hcell.2, List.cons_prefix_cons]
          by_cases hbc : b = c
          · subst hbc
            rw [if_neg (by simp), if_neg fun h => hc h.symm, List.tail_cons, List.cons_append,
              List.tail_cons, ih htail]
            simp
          · have hne : b.toNat ≠ c.toNat := by
              intro h
              refine hbc ?_
              rw [← Char.ofNat_toNat b, h, Char.ofNat_toNat]
            rw [if_pos hbc]
            refine iff_of_false (by omega) ?_
            rintro ⟨rfl, -⟩
            exact hbc rfl

/-! ## Entries in the dictionary -/

theorem Dictionary.rest_cons (d : Dictionary) (e : List Char) (es : List (List Char))
    (more : List Char) :
    ∃ c after, d.rest (e :: es) ++ eos :: more = e ++ c :: after ∧
      (c = d.delim ∧ after = d.rest es ++ eos :: more ∨
        c = eos ∧ c :: after = d.rest es ++ eos :: more) := by
  rw [Dictionary.rest]
  by_cases hlast : es = [] ∧ d.closed = false
  · refine ⟨eos, more, ?_, .inr ⟨rfl, ?_⟩⟩
    · simp [hlast, rest]
    · simp [hlast, rest]
  · exact ⟨d.delim, d.rest es ++ eos :: more, by simp [hlast], .inl ⟨rfl, rfl⟩⟩

theorem prefix_append_iff {x after : List Char} {c : Char} (hc : c ∉ s) :
    s <+: x ++ c :: after ↔ s <+: x := by
  constructor
  · intro h
    rcases List.prefix_or_prefix_of_prefix h (List.prefix_append x _) with hsx | ⟨t, rfl⟩
    · exact hsx
    · cases t with
      | nil => simp
      | cons b t =>
          rw [List.prefix_append_right_inj, List.cons_prefix_cons] at h
          exact absurd (by simp [h.1]) hc
  · exact fun h => h.trans (List.prefix_append _ _)

variable {c delim : Char} {after : List Char}

theorem nextEntry_append (hdelim : delim ≠ eos) (hne : e ≠ []) (he : delim ∉ e)
    (heos : eos ∉ e) :
    nextEntry delim (e ++ delim :: after) = after ∧
      nextEntry delim (e ++ eos :: after) = eos :: after := by
  induction e with
  | nil => exact absurd rfl hne
  | cons b e ih =>
      have hb : b ≠ delim := fun h => he (by simp [h])
      cases e with
      | nil =>
          constructor
          · simp [nextEntry, hb, cell, hdelim]
          · simp [nextEntry, cell]
      | cons b' e =>
          have hb' : b' ≠ eos := fun h => heos (by simp [h])
          obtain ⟨hnext, hend⟩ := ih (by simp) (fun h => he (List.mem_cons_of_mem b h))
            (fun h => heos (List.mem_cons_of_mem b h))
          constructor
          · rw [List.cons_append, nextEntry, if_neg (by simp [hb, cell, hb']), hnext]
          · rw [List.cons_append, nextEntry, if_neg (by simp [hb, cell, hb']), hend]

theorem copied_append (he : delim ∉ e) (heos : eos ∉ e) (hc : c = delim ∨ c = eos)
    (hlen : e.length ≤ maxchars) : copied delim maxchars (e ++ c :: after) = e := by
  induction e generalizing maxchars with
  | nil =>
      cases maxchars with
      | zero => rfl
      | succ maxchars => exact if_pos hc
  | cons b e ih =>
      have hb : b ≠ delim := fun h => he (by simp [h])
      have hb' : b ≠ eos := fun h => heos (by simp [h])
      cases maxchars with
      | zero => simp at hlen
      | succ maxchars =>
          have hcopied := ih (fun h => he (List.mem_cons_of_mem b h))
            (fun h => heos (List.mem_cons_of_mem b h)) (by simpa using hlen)
          rw [List.cons_append, copied, if_neg (by simp [cell, hb, hb']), List.tail_cons, hcopied]
          rfl

/-- What the chars of an entry are followed by does not matter. -/
structure IsEntry (d : Dictionary) (maxchars : Nat) (e : List Char) : Prop where
  nonempty : e ≠ []
  noDelim : d.delim ∉ e
  noEos : eos ∉ e
  fits : e.length ≤ maxchars

/-- The query that is made for `s`. -/
structure IsQuery (d : Dictionary) (s : List Char) (maxchars : Nat) (q : Query) : Prop where
  delim : q.delim = d.delim
  fch : ∀ more, cell (s ++ more) 0 = q.fch
  len : q.len = s.length
  maxchars : q.maxchars = maxchars

variable {q : Query}

namespace IsEntry

theorem nextEntry_rest (he : IsEntry d maxchars e) (es : List (List Char)) (more : List Char) :
    nextEntry d.delim (d.rest (e :: es) ++ eos :: more) = d.rest es ++ eos :: more := by
  obtain ⟨c, after, hrest, ⟨rfl, rfl⟩ | ⟨rfl, hafter⟩⟩ := d.rest_cons e es more
  · rw [hrest, (nextEntry_append d.delim_ne he.nonempty he.noDelim he.noEos).1]
  · rw [hrest, (nextEntry_append d.delim_ne he.nonempty he.noDelim he.noEos).2, hafter]

theorem copied_rest (he : IsEntry d maxchars e) (es : List (List Char)) (more : List Char) :
    copied d.delim maxchars (d.rest (e :: es) ++ eos :: more) = e := by
  obtain ⟨c, after, hrest, hc⟩ := d.rest_cons e es more
  rw [hrest, copied_append he.noDelim he.noEos (hc.imp And.left And.left) he.fits]

theorem cell_rest (he : IsEntry d maxchars e) (es : List (List Char)) (more : List Char) :
    cell (d.rest (e :: es) ++ eos :: more) 0 ≠ eos := by
  obtain ⟨c, after, hrest, -⟩ := d.rest_cons e es more
  rw [hrest]
  cases e with
  | nil => exact absurd rfl he.nonempty
  | cons b e => exact fun h => he.noEos (by rw [← h]; exact List.mem_cons_self)

theorem passes_iff (he : IsEntry d maxchars e) (hq : IsQuery d s maxchars q) (hs : eos ∉ s)
    (hdelim : d.delim ∉ s) {after : List Char} (es : List (List Char))
    (more : List Char) :
    q.Passes (s ++ after) (d.rest (e :: es) ++ eos :: more) ↔ s <+: e := by
  obtain ⟨c, after', hrest, hc⟩ := d.rest_cons e es more
  have hcs : c ∉ s := by
    rcases hc with ⟨rfl, -⟩ | ⟨rfl, -⟩
    · exact hdelim
    · exact hs
  rw [Query.Passes, hrest, hq.len, strncmp_eq_zero_iff hs, prefix_append_iff hcs]
  refine ⟨And.right, fun h => ⟨?_, h⟩⟩
  obtain ⟨t, rfl⟩ := h
  rw [List.append_assoc, ← hq.fch]

theorem ends_iff (he : IsEntry d maxchars e) (hq : IsQuery d s maxchars q) (hse : s <+: e)
    (es : List (List Char)) (more : List Char) :
    q.Ends (d.rest (e :: es) ++ eos :: more) ↔ e = s := by
  obtain ⟨c, after, hrest, hc⟩ := d.rest_cons e es more
  rw [Query.Ends, hrest, hq.len, hq.delim]
  rcases Nat.lt_or_ge s.length e.length with hlt | hge
  · have hmem := List.getElem_mem hlt
    rw [cell_append_of_lt hlt]
    refine iff_of_false ?_ fun h => by simp [h] at hlt
    rintro (h | h)
    · exact he.noDelim (h ▸ hmem)
    · exact he.noEos (h ▸ hmem)
  · have heq : e = s := (hse.eq_of_length_le hge).symm
    subst heq
    refine iff_of_true ?_ rfl
    rw [cell_append_self]
    exact hc.imp And.left And.left

end IsEntry

/-! ## The search -/

variable {later post : List (List Char)} {x : List Char} {fuel entry found : Nat}

theorem search_entry (he : IsEntry d maxchars e) (hq : IsQuery d s maxchars q) :
    search q (fuel + 1) (d.rest (e :: es) ++ eos :: more) entry found a =
      if q.Passes (a.inStr.drop q.start) (d.rest (e :: es) ++ eos :: more) then
        if q.Ends (d.rest (e :: es) ++ eos :: more) then (entry, a.write (e ++ [eos]))
        else if found ≠ 0 then (0, a.write (e ++ [eos]))
        else search q fuel (d.rest es ++ eos :: more) (entry + 1) entry (a.write (e ++ [eos]))
      else search q fuel (d.rest es ++ eos :: more) (entry + 1) found a := by
  rw [search, if_neg (he.cell_rest es more), hq.delim, hq.maxchars, he.copied_rest,
    he.nextEntry_rest]

theorem search_end : search q fuel (d.rest [] ++ eos :: more) entry found a = (found, a) := by
  cases fuel with
  | zero => rfl
  | succ fuel => exact if_pos rfl

theorem search_found (hentries : ∀ e ∈ later, IsEntry d maxchars e)
    (hq : IsQuery d s maxchars q) (hfound : found ≠ 0) (hfuel : later.length ≤ fuel) :
    match firstPassing d q more (a.inStr.drop q.start) later with
    | none =>
        search q fuel (d.rest later ++ eos :: more) entry found a = (found, a)
    | some (x, post) =>
        ∃ before, later = before ++ x :: post ∧
          search q fuel (d.rest later ++ eos :: more) entry found a =
            (if q.Ends (d.rest (x :: post) ++ eos :: more) then entry + before.length else 0,
              a.write (x ++ [eos])) := by
  induction later generalizing fuel entry with
  | nil => exact search_end
  | cons e later ih =>
      have he := hentries e List.mem_cons_self
      obtain ⟨fuel, rfl⟩ : ∃ k, fuel = k + 1 := ⟨fuel - 1, by simp at hfuel; omega⟩
      rw [search_entry he hq, firstPassing]
      by_cases hpass : q.Passes (a.inStr.drop q.start) (d.rest (e :: later) ++ eos :: more)
      · simp only [if_pos hpass, if_pos hfound]
        refine ⟨[], rfl, ?_⟩
        split <;> rfl
      · simp only [if_neg hpass]
        have hnext := @ih fuel (entry + 1) (fun x hx => hentries x (List.mem_cons_of_mem e hx))
          (by simpa using hfuel)
        cases hfirst : firstPassing d q more (a.inStr.drop q.start) later with
        | none =>
            rw [hfirst] at hnext
            exact hnext
        | some found =>
            obtain ⟨x, post⟩ := found
            rw [hfirst] at hnext
            obtain ⟨before, hlater, hsearch⟩ := hnext
            refine ⟨e :: before, by rw [hlater, List.cons_append], ?_⟩
            rw [hsearch, List.length_cons, Nat.add_assoc, Nat.add_comm 1]

theorem search_first (hentries : ∀ e ∈ es, IsEntry d maxchars e) (hq : IsQuery d s maxchars q)
    (hs : eos ∉ s) (hdelim : d.delim ∉ s) {after : List Char}
    (htext : a.inStr.drop q.start = s ++ after) (hfuel : es.length ≤ fuel)
    (hentry : entry ≠ 0) :
    match firstAbbreviated s es with
    | none => search q fuel (d.rest es ++ eos :: more) entry 0 a = (0, a) ∧
        ∀ e ∈ es, ¬ s <+: e
    | some (e, later) =>
        s <+: e ∧ ∃ before fuel', es = before ++ e :: later ∧ (∀ x ∈ before, ¬ s <+: x) ∧
          later.length ≤ fuel' ∧
          search q fuel (d.rest es ++ eos :: more) entry 0 a =
            if e = s then (entry + before.length, a.write (e ++ [eos]))
            else search q fuel' (d.rest later ++ eos :: more) (entry + before.length + 1)
              (entry + before.length) (a.write (e ++ [eos])) := by
  induction es generalizing fuel entry with
  | nil => exact ⟨search_end, by simp⟩
  | cons e es ih =>
      have he := hentries e List.mem_cons_self
      obtain ⟨fuel, rfl⟩ : ∃ k, fuel = k + 1 := ⟨fuel - 1, by simp at hfuel; omega⟩
      rw [search_entry he hq, firstAbbreviated, htext]
      have hpass := @IsEntry.passes_iff d s e maxchars q he hq hs hdelim after es more
      by_cases hse : s <+: e
      · simp only [if_pos hse, if_pos (hpass.2 hse), he.ends_iff hq hse]
        refine ⟨hse, [], fuel, rfl, by simp, by simpa using hfuel, ?_⟩
        split <;> simp
      · simp only [if_neg hse, if_neg fun h => hse (hpass.1 h)]
        have hnext := @ih fuel (entry + 1) (fun x hx => hentries x (List.mem_cons_of_mem e hx))
          (by simpa using hfuel) (by omega)
        cases hfirst : firstAbbreviated s es with
        | none =>
            rw [hfirst] at hnext
            refine ⟨hnext.1, ?_⟩
            intro x hx
            rcases List.mem_cons.1 hx with rfl | hx
            · exact hse
            · exact hnext.2 x hx
        | some first =>
            obtain ⟨x, later⟩ := first
            rw [hfirst] at hnext
            obtain ⟨hsx, before, fuel', hes, hbefore, hfuel', hsearch⟩ := hnext
            refine ⟨hsx, e :: before, fuel', by rw [hes, List.cons_append], ?_, hfuel', ?_⟩
            · intro y hy
              rcases List.mem_cons.1 hy with rfl | hy
              · exact hse
              · exact hbefore y hy
            · have hindex : entry + (e :: before).length = entry + 1 + before.length := by
                rw [List.length_cons]
                omega
              rw [hsearch, hindex]

/-! ## Which entry is returned -/

theorem prefix_out (a : Arrays) (cs : List Char) : cs <+: (a.write cs).out := by
  obtain ⟨inStr, _ | out⟩ := a
  · exact ⟨inStr.drop (0 + cs.length), by simp [Arrays.write, Arrays.out, overlay]⟩
  · exact ⟨out.drop (0 + cs.length), by simp [Arrays.write, Arrays.out, overlay]⟩

variable {before : List (List Char)}

theorem entry_append (hd : d.entries = before ++ x :: post) :
    d.entry (before.length + 1) = some x := by
  rw [Dictionary.entry, if_neg (by omega), hd, Nat.add_sub_cancel,
    List.getElem?_append_right le_rfl, Nat.sub_self]
  rfl

theorem resolves_iff_of_entry {r : Nat × Arrays} (hx : d.entry r.1 = some x)
    (hout : x ++ [eos] <+: r.2.out) (hr : r.1 ≠ 0) :
    Resolves d s r ↔
      x = s ∨ s ∉ d.entries ∧ d.entries.countP (s.isPrefixOf ·) = 1 ∧ s <+: x := by
  have hmem : x ∈ d.entries := by
    rw [Dictionary.entry, if_neg hr] at hx
    exact List.mem_of_getElem? hx
  unfold Resolves
  rw [hx]
  constructor
  · rintro ⟨hexact, habbrev, -⟩
    by_cases hs : s ∈ d.entries
    · exact .inl (Option.some_inj.1 (hexact hs))
    · have habbrev := habbrev hs
      split at habbrev
      · rename_i hcount
        obtain ⟨e, he, hse⟩ := habbrev
        exact .inr ⟨hs, hcount, (Option.some_inj.1 he) ▸ hse⟩
      · exact absurd habbrev hr
  · rintro (rfl | ⟨hs, hcount, hsx⟩)
    · exact ⟨fun _ => rfl, fun hs => absurd hmem hs, fun _ => ⟨x, rfl, hout⟩⟩
    · refine ⟨fun h => absurd h hs, fun _ => ?_, fun _ => ⟨x, rfl, hout⟩⟩
      rw [if_pos hcount]
      exact ⟨x, rfl, hsx⟩

theorem resolves_zero_iff {a' : Arrays} :
    Resolves d s (0, a') ↔
      s ∉ d.entries ∧ d.entries.countP (s.isPrefixOf ·) ≠ 1 := by
  have hentry : d.entry 0 = none := rfl
  unfold Resolves
  simp only [hentry]
  constructor
  · rintro ⟨hexact, habbrev, -⟩
    have hs : s ∉ d.entries := fun h => by cases hexact h
    refine ⟨hs, fun hcount => ?_⟩
    have habbrev := habbrev hs
    rw [if_pos hcount] at habbrev
    obtain ⟨e, he, -⟩ := habbrev
    cases he
  · rintro ⟨hs, hcount⟩
    refine ⟨fun h => absurd h hs, fun _ => ?_, fun h => absurd rfl h⟩
    rw [if_neg hcount]
    trivial

theorem countP_split (hbefore : ∀ x ∈ before, ¬ s <+: x) (hse : s <+: e) :
    (before ++ e :: later).countP (s.isPrefixOf ·) = later.countP (s.isPrefixOf ·) + 1 := by
  have hzero : before.countP (s.isPrefixOf ·) = 0 := by
    rw [List.countP_eq_zero]
    intro x hx
    simpa using hbefore x hx
  rw [List.countP_append, hzero, Nat.zero_add, List.countP_cons_of_pos (by simpa using hse)]

theorem countP_eq_zero_iff :
    later.countP (s.isPrefixOf ·) = 0 ↔ ∀ x ∈ later, ¬ s <+: x := by
  simp [List.countP_eq_zero]

theorem isQuery {white : List Char} (h : Holds a.inStr white s d.delim)
    (hentries : d.entries ≠ []) (more : List Char) :
    IsQuery d s maxchars (query a maxchars (d.text ++ eos :: more)) ∧
      (query a maxchars (d.text ++ eos :: more)).start = white.length ∧ ∃ after, a.inStr.drop (query a maxchars (d.text ++ eos :: more)).start =
        s ++ after := by
  obtain ⟨after, hcells⟩ := h.cells
  obtain ⟨b, s', rfl⟩ := List.exists_cons_of_ne_nil h.nonempty
  have hwhite : a.inStr.takeWhile isWhite = white := by
    rw [hcells, List.append_assoc, List.takeWhile_append_of_pos h.white]
    simp [h.start b rfl]
  have hdrop : a.inStr.drop white.length = b :: s' ++ eos :: after := by
    rw [hcells, List.append_assoc, List.drop_left]
  rw [Strdic.query, hwhite]
  refine ⟨⟨?_, ?_, ?_, rfl⟩, rfl, eos :: after, hdrop⟩
  · rw [Dictionary.text, if_neg fun h => hentries h.1]
    rfl
  · intro more
    dsimp only
    rw [hdrop]
    rfl
  · dsimp only
    rw [hdrop, strlen_append h.noEos]

theorem Dictionary.length_rest (d : Dictionary) (hes : ∀ e ∈ es, e ≠ []) :
    es.length ≤ (d.rest es).length := by
  induction es with
  | nil => exact le_rfl
  | cons e es ih =>
      have hpos := List.length_pos_iff.2 (hes e List.mem_cons_self)
      have hle := ih fun x hx => hes x (List.mem_cons_of_mem e hx)
      rw [Dictionary.rest, List.length_append, List.length_append, List.length_cons]
      omega

theorem strdic_search (hentries : d.entries ≠ []) :
    strdic a maxchars (d.text ++ eos :: more) =
      search (query a maxchars (d.text ++ eos :: more)) (d.text ++ eos :: more).length
        (d.rest d.entries ++ eos :: more) 1 0 a := by
  have hdict : d.text ++ eos :: more = d.delim :: (d.rest d.entries ++ eos :: more) := by
    rw [Dictionary.text, if_neg fun h => hentries h.1, List.cons_append]
  rw [strdic, hdict]
  exact if_neg d.delim_ne

theorem strdic_noEntries (hentries : d.entries = []) :
    strdic a maxchars (d.text ++ eos :: more) = (0, a) := by
  rw [strdic, Dictionary.text, hentries]
  by_cases hclosed : d.closed = false
  · simp [hclosed, cell]
  · simp only [hclosed]
    rw [ite_eq_left_iff]
    exact fun _ => search_end

theorem not_mem_entries_iff (hd : d.entries = before ++ e :: later)
    (hbefore : ∀ x ∈ before, ¬ s <+: x) (hne : e ≠ s) : s ∉ d.entries ↔ s ∉ later := by
  have hs : s ∉ before := fun h => hbefore s h List.prefix_rfl
  simp [hd, hs, Ne.symm hne]

/-- The entry is found exactly if it is settled by the first of those that `s` abbreviates
and what follows that. -/
theorem strdic_iff {white : List Char} (hmax : ∀ e ∈ d.entries, e.length ≤ maxchars)
    (h : Holds a.inStr white s d.delim) :
    Resolves d s (strdic a maxchars (d.text ++ eos :: more)) ↔ Settled d more a maxchars s := by
  by_cases hnone : d.entries = []
  · rw [strdic_noEntries hnone, resolves_zero_iff, Settled, hnone]
    simp [firstAbbreviated]
  obtain ⟨hq, -, after, htext⟩ := @isQuery d s a maxchars white h hnone more
  have hentries : ∀ e ∈ d.entries, IsEntry d maxchars e := fun e he =>
    ⟨d.nonempty e he, (d.plain e he).1, (d.plain e he).2, hmax e he⟩
  have hfuel : d.entries.length ≤ (d.text ++ eos :: more).length := by
    have hle := d.length_rest d.nonempty
    rw [Dictionary.text, if_neg fun h => hnone h.1, List.length_append, List.length_cons]
    omega
  have hfirst := @search_first d s more d.entries a maxchars _ _ 1 hentries hq h.noEos h.noDelim
    after htext hfuel (by decide)
  rw [strdic_search hnone, Settled]
  generalize query a maxchars (d.text ++ eos :: more) = q at *
  cases hsplit : firstAbbreviated s d.entries with
  | none =>
      rw [hsplit] at hfirst
      obtain ⟨hsearch, hprefix⟩ := hfirst
      rw [hsearch, resolves_zero_iff, countP_eq_zero_iff.2 hprefix]
      exact iff_of_true ⟨fun hs => hprefix s hs List.prefix_rfl, by decide⟩ trivial
  | some first =>
      obtain ⟨e, later⟩ := first
      rw [hsplit] at hfirst
      obtain ⟨hse, before, fuel, hd, hbefore, hfuel, hsearch⟩ := hfirst
      have hcount : (before ++ e :: later).countP (s.isPrefixOf ·) =
          later.countP (s.isPrefixOf ·) + 1 := countP_split hbefore hse
      rw [← hd] at hcount
      have hentry := entry_append hd
      rw [hsearch, Nat.add_comm 1]
      dsimp only
      have hlater : ∀ x ∈ later, IsEntry d maxchars x := fun x hx =>
        hentries x (hd ▸ List.mem_append_right _ (List.mem_cons_of_mem e hx))
      by_cases heq : e = s
      · rw [if_pos heq]
        refine iff_of_true ?_ (.inl heq)
        rw [resolves_iff_of_entry hentry (prefix_out a _) (Nat.succ_ne_zero _)]
        exact .inl heq
      rw [if_neg heq, or_iff_right heq]
      have hmem := not_mem_entries_iff hd hbefore heq
      have hfound := @search_found d s more (a.write (e ++ [eos])) maxchars q later fuel
        (before.length + 1 + 1) (before.length + 1)
        hlater hq (Nat.succ_ne_zero _) hfuel
      cases hpassing : firstPassing d q more ((a.write (e ++ [eos])).inStr.drop q.start) later with
      | none =>
          rw [hpassing] at hfound
          rw [hfound, resolves_iff_of_entry hentry (prefix_out a _) (Nat.succ_ne_zero _),
            or_iff_right heq, hcount, Nat.add_eq_right, countP_eq_zero_iff]
          refine ⟨fun hr => hr.2.1, fun hprefix => ⟨?_, hprefix, hse⟩⟩
          exact hmem.2 fun hs => hprefix s hs List.prefix_rfl
      | some passing =>
          obtain ⟨x, post⟩ := passing
          rw [hpassing] at hfound
          obtain ⟨between, hlater, hfound⟩ := hfound
          rw [hfound]
          dsimp only
          by_cases hends : q.Ends (d.rest (x :: post) ++ eos :: more)
          · have hx : d.entry (before.length + 1 + 1 + between.length) = some x := by
              have hlen : before.length + 1 + 1 + between.length =
                  (before ++ e :: between).length + 1 := by
                rw [List.length_append, List.length_cons]
                omega
              have hx : d.entries = (before ++ e :: between) ++ x :: post := by
                rw [hd, hlater, List.append_assoc, List.cons_append]
              rw [hlen, entry_append hx]
            rw [if_pos hends, if_pos hends,
              resolves_iff_of_entry hx (prefix_out _ _) (by omega), or_iff_left_iff_imp]
            -- two entries begin with `s`
            rintro ⟨-, hone, hsx⟩
            rw [hcount, Nat.add_eq_right, countP_eq_zero_iff] at hone
            exact absurd hsx (hone x (by simp [hlater]))
          · rw [if_neg hends, if_neg hends, resolves_zero_iff, hmem, hcount]
            refine and_congr_right fun _ => ?_
            rw [Ne, Nat.add_eq_right, countP_eq_zero_iff]
            simp only [not_forall, not_not, exists_prop]

/-- Three entries, the last of which begins the other two. -/
def threeEntries : Dictionary where
  delim := '|'
  entries := ["ab".toList, "ac".toList, "a".toList]
  closed := true
  delim_ne := by decide
  nonempty := by decide
  plain := by decide

theorem resolves_ac : Resolves threeEntries "ac".toList
    (strdic ⟨" ac\x00".toList, none⟩ 2 (threeEntries.text ++ [eos])) := by
  have hwhite : ∀ c ∈ [' '], isWhite c = true := List.forall_mem_singleton.2 rfl
  have hstart : ∀ c ∈ "ac".toList.head?, isWhite c = false := by
    rintro c ⟨⟩
    rfl
  exact (@strdic_iff threeEntries "ac".toList [] ⟨" ac\x00".toList, none⟩ 2 [' '] (by decide)
    ⟨⟨[], rfl⟩, hwhite, by decide, hstart, by decide, by decide⟩).2 (.inl rfl)

/-- The search ends at the second abbreviation, before the entry itself. -/
theorem not_resolves_a : ¬ Resolves threeEntries "a".toList
    (strdic ⟨"a\x00".toList, some []⟩ 2 (threeEntries.text ++ [eos])) := by
  rintro ⟨hexact, -⟩
  exact absurd (hexact (by decide)) (by decide)

/-! ## Input that is kept -/

theorem takeWhile_split (hbefore : ∀ x ∈ before, ¬ s <+: x) :
    (before ++ e :: later).takeWhile (· ≠ s) =
      before ++ if e = s then [] else e :: later.takeWhile (· ≠ s) := by
  rw [List.takeWhile_append_of_pos]
  · by_cases heq : e = s <;> simp [heq]
  · intro x hx
    have hne : x ≠ s := fun h => hbefore x hx (h ▸ List.prefix_rfl)
    simpa using hne

theorem firstAbbreviated_spec (s : List Char) (es : List (List Char)) :
    match firstAbbreviated s es with
    | none => ∀ e ∈ es, ¬ s <+: e
    | some (e, later) =>
        s <+: e ∧ ∃ before, es = before ++ e :: later ∧ ∀ x ∈ before, ¬ s <+: x := by
  induction es with
  | nil => simp [firstAbbreviated]
  | cons e es ih =>
      rw [firstAbbreviated]
      by_cases hse : s <+: e
      · simp only [if_pos hse]
        exact ⟨hse, [], rfl, by simp⟩
      · simp only [if_neg hse]
        cases hfirst : firstAbbreviated s es with
        | none =>
            rw [hfirst] at ih
            simpa [hse] using ih
        | some first =>
            obtain ⟨x, later⟩ := first
            rw [hfirst] at ih
            obtain ⟨hsx, before, hes, hbefore⟩ := ih
            exact ⟨hsx, e :: before, by rw [hes, List.cons_append], by simpa [hse] using hbefore⟩

theorem firstPassing_eq (hentries : ∀ e ∈ es, IsEntry d maxchars e)
    (hq : IsQuery d s maxchars q) (hs : eos ∉ s) (hdelim : d.delim ∉ s) {after : List Char} :
    firstPassing d q more (s ++ after) es = firstAbbreviated s es := by
  induction es with
  | nil => rfl
  | cons e es ih =>
      have hpass := @IsEntry.passes_iff d s e maxchars q (hentries e List.mem_cons_self) hq hs
        hdelim after es more
      rw [firstPassing, firstAbbreviated, ih fun x hx => hentries x (List.mem_cons_of_mem e hx)]
      simp only [hpass]

theorem kept {white : List Char} (h : Holds a.inStr white s d.delim)
    (hentries : d.entries ≠ []) (hkept : a.outStr ≠ none ∨ white = []) (hse : s <+: e) :
    ∃ after, (a.write (e ++ [eos])).inStr.drop
      (query a maxchars (d.text ++ eos :: more)).start = s ++ after := by
  obtain ⟨-, hstart, after, htext⟩ := @isQuery d s a maxchars white h hentries more
  rw [hstart] at htext ⊢
  obtain ⟨inStr, _ | out⟩ := a
  · obtain ⟨t, rfl⟩ := hse
    rw [hkept.resolve_left fun hne => hne rfl]
    refine ⟨t ++ [eos] ++ inStr.drop (0 + (s ++ t ++ [eos]).length), ?_⟩
    simp [Arrays.write, overlay]
  · exact ⟨after, htext⟩

/-- Where the arrays are different or nothing is before the input, the test passes for what
begins with `s`, and the entry is settled unless two longer ones come before it. -/
theorem settled_iff {white : List Char} (hmax : ∀ e ∈ d.entries, e.length ≤ maxchars)
    (h : Holds a.inStr white s d.delim) (hkept : a.outStr ≠ none ∨ white = []) :
    Settled d more a maxchars s ↔ (s ∈ d.entries →
      (d.entries.takeWhile (· ≠ s)).countP (s.isPrefixOf ·) ≤ 1) := by
  have hfirst := firstAbbreviated_spec s d.entries
  rw [Settled]
  cases hsplit : firstAbbreviated s d.entries with
  | none =>
      rw [hsplit] at hfirst
      exact iff_of_true trivial fun hs => absurd List.prefix_rfl (hfirst s hs)
  | some first =>
      obtain ⟨e, later⟩ := first
      rw [hsplit] at hfirst
      obtain ⟨hse, before, hd, hbefore⟩ := hfirst
      have hnone : d.entries ≠ [] := by simp [hd]
      obtain ⟨hq, -, -⟩ := @isQuery d s a maxchars white h hnone more
      obtain ⟨after, htext⟩ := @kept d s more e a maxchars white h hnone hkept hse
      have hentries : ∀ x ∈ later, IsEntry d maxchars x := fun x hx => by
        have hmem : x ∈ d.entries := hd ▸ List.mem_append_right _ (List.mem_cons_of_mem e hx)
        exact ⟨d.nonempty x hmem, (d.plain x hmem).1, (d.plain x hmem).2, hmax x hmem⟩
      generalize query a maxchars (d.text ++ eos :: more) = q at *
      dsimp only
      rw [htext, firstPassing_eq hentries hq h.noEos h.noDelim, hd, takeWhile_split hbefore]
      by_cases heq : e = s
      · refine iff_of_true (.inl heq) fun _ => ?_
        rw [if_pos heq, List.append_nil, countP_eq_zero_iff.2 hbefore]
        exact Nat.zero_le 1
      rw [if_neg heq, countP_split hbefore hse, or_iff_right heq]
      have hmem : s ∈ before ++ e :: later ↔ s ∈ later := by
        have hs : s ∉ before := fun hs => hbefore s hs List.prefix_rfl
        simp [hs, Ne.symm heq]
      have hlast := firstAbbreviated_spec s later
      cases hsplit' : firstAbbreviated s later with
      | none =>
          rw [hsplit'] at hlast
          exact iff_of_true hlast fun hs => absurd List.prefix_rfl (hlast s (hmem.1 hs))
      | some second =>
          obtain ⟨x, post⟩ := second
          rw [hsplit'] at hlast
          obtain ⟨hsx, between, rfl, hbetween⟩ := hlast
          have hends := (hentries x (by simp)).ends_iff hq hsx post more
          dsimp only
          rw [hmem, takeWhile_split hbetween]
          by_cases hxs : x = s
          · rw [if_pos (hends.2 hxs), if_pos hxs, List.append_nil, countP_eq_zero_iff.2 hbetween]
            exact iff_of_true hxs fun _ => le_rfl
          · rw [if_neg fun hx => hxs (hends.1 hx), if_neg hxs, countP_split hbetween hsx]
            refine ⟨fun hs hmem => absurd hmem hs.1, fun hs => ⟨fun hmem => ?_, x, by simp, hsx⟩⟩
            have := hs hmem
            omega

end Iraf.Fmtio.Strdic
