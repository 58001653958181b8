import Mathlib.Data.List.Infix

/-!
# The string buffer of a MWCS

`mwrefstr.x` and `mwallocs.x`.  Strings are stored one after the other, each with its EOS,
and what is allocated beyond them is cleared.  A string is referred to by its offset, the
first cell being 1.
-/

namespace Iraf.Mwcs

abbrev eos : Char := '\x00'

def incSzsbuf : Nat := 512

/-- The attributes are offsets of the string buffer. -/
structure Wattr where
  axis : Int
  name : Nat
  value : Nat
  deriving DecidableEq, Repr

/-- The string buffer, the number of chars used, and the attributes of the current WCS. -/
structure Mw where
  sbuf : List Char
  sbufused : Nat
  wcs : Option (List Wattr)
  deriving DecidableEq, Repr

namespace Mw

/-- The string at an offset. -/
def string (mw : Mw) (off : Nat) : List Char :=
  (mw.sbuf.drop (off - 1)).takeWhile (· ≠ eos)

/-- The length of the buffer when it is made larger, by a number of increments at most. -/
def growSbuf (needed : Nat) : Nat → Nat → Nat
  | 0, sbuflen => sbuflen
  | n + 1, sbuflen =>
      if needed > sbuflen then growSbuf needed n (sbuflen + incSzsbuf) else sbuflen

def mwAllocs (mw : Mw) (nchars : Nat) : Mw × Nat :=
  let nelem := nchars + 1
  let sbuf :=
    if mw.sbufused + nelem > mw.sbuf.length then
      let sbuflen := growSbuf (mw.sbufused + nelem) nelem (mw.sbuf.length + incSzsbuf)
      mw.sbuf.take mw.sbufused ++ List.replicate (sbuflen - mw.sbufused) eos
    else mw.sbuf
  ({ mw with sbuf := sbuf, sbufused := mw.sbufused + nelem }, mw.sbufused + 1)

/-- A string of the buffer is compared with `str`: whether they match, and the text after
the EOS if there is one. -/
def compareString : List Char → List Char → Bool → Bool × Option (List Char)
  | _, [], isMatch => (isMatch, none)
  | str, ch :: text, isMatch =>
      let isMatch := isMatch && str.head?.all (ch = ·)
      if ch = eos then (isMatch, some text) else compareString str.tail text isMatch

/-- The search of the buffer from `ip` on, for a number of trips at most. -/
def search (str : List Char) : Nat → Nat → List Char → Option Nat
  | 0, _, _ => none
  | _ + 1, _, [] => none
  | n + 1, ip, text =>
      match compareString str text true with
      | (true, _) => some ip
      | (false, some rest) => search str n (ip + (text.length - rest.length)) rest
      | (false, none) => none

def storeString (mw : Mw) (str : List Char) (off : Nat) : Mw :=
  { mw with
    sbuf := mw.sbuf.take (off - 1) ++ str ++ eos :: mw.sbuf.drop (off + str.length) }

def mwRefstr (mw : Mw) (str : List Char) : Mw × Nat :=
  match search str mw.sbuf.length 0 mw.sbuf with
  | some ip => (mw, ip + 1)
  | none =>
      let (mw, off) := mw.mwAllocs str.length
      (mw.storeString str off, off)

end Mw

/-! ## Stored strings -/

/-- Strings with the EOS after each. -/
def packed (strings : List (List Char)) : List Char := strings.flatMap (· ++ [eos])

/-- The first string that begins with `str`. -/
def firstMatch (strings : List (List Char)) (str : List Char) : Option (List Char) :=
  strings.find? (str.isPrefixOf ·)

/-- The strings after `str` has been referred to. -/
def refer (strings : List (List Char)) (str : List Char) : List (List Char) :=
  match firstMatch strings str with
  | some _ => strings
  | none => strings ++ [str]

/-- The string that is referred to instead of `str`. -/
def referred (strings : List (List Char)) (str : List Char) : List Char :=
  (firstMatch strings str).getD str

/-- The strings that are stored in a buffer. -/
def splitStrings : List Char → List (List Char)
  | [] => []
  | c :: text =>
      if c = eos then [] :: splitStrings text
      else (c :: (splitStrings text).headD []) :: (splitStrings text).tail

def Mw.strings (mw : Mw) : List (List Char) := splitStrings (mw.sbuf.take mw.sbufused)

/-- The buffer has the strings, and zeros beyond them. -/
structure Mw.Holds (mw : Mw) (strings : List (List Char)) (unused : Nat) : Prop where
  sbuf : mw.sbuf = packed strings ++ List.replicate unused eos
  used : mw.sbufused = (packed strings).length
  noEos : ∀ t ∈ strings, eos ∉ t
  empty : strings = [] → unused = 0

variable {mw : Mw} {strings before after : List (List Char)} {str t : List Char}
  {unused : Nat}

theorem packed_append : packed (before ++ after) = packed before ++ packed after :=
  List.flatMap_append

theorem packed_cons : packed (t :: strings) = t ++ eos :: packed strings := by
  rw [packed, List.flatMap_cons, List.append_assoc]
  rfl

/-! ## The search -/

theorem compareString_spec {rest : List Char} {isMatch : Bool} (ht : eos ∉ t) (hstr : eos ∉ str) :
    Mw.compareString str (t ++ eos :: rest) isMatch =
      (isMatch && str.isPrefixOf t, some rest) := by
  induction t generalizing str isMatch with
  | nil =>
      cases str with
      | nil => rfl
      | cons c str =>
          have hc : ¬eos = c := fun heq => hstr (heq ▸ List.mem_cons_self)
          rw [List.nil_append, Mw.compareString, if_pos rfl]
          simp [hc]
  | cons ch t ih =>
      have hch : ch ≠ eos := fun heq => ht (heq ▸ List.mem_cons_self)
      have ht' : eos ∉ t := fun hmem => ht (List.mem_cons_of_mem ch hmem)
      rw [List.cons_append, Mw.compareString, if_neg hch]
      cases str with
      | nil =>
          rw [List.tail_nil, ih ht' hstr]
          simp
      | cons c str =>
          rw [List.tail_cons, ih ht' fun hmem => hstr (List.mem_cons_of_mem c hmem)]
          simp only [List.head?_cons, Option.all_some, List.isPrefixOf, Bool.and_assoc]
          rw [Bool.beq_eq_decide_eq, decide_eq_decide.2 (eq_comm (a := ch) (b := c))]

theorem search_string {n ip : Nat} {rest : List Char} (ht : eos ∉ t) (hstr : eos ∉ str) :
    Mw.search str (n + 1) ip (t ++ eos :: rest) =
      if str.isPrefixOf t then some ip else Mw.search str n (ip + (t.length + 1)) rest := by
  have hcompare := @compareString_spec str t rest true ht hstr
  have htext : ∃ c text, t ++ eos :: rest = c :: text := by
    cases t with
    | nil => exact ⟨eos, rest, rfl⟩
    | cons c t => exact ⟨c, t ++ eos :: rest, rfl⟩
  obtain ⟨c, text, htext⟩ := htext
  have hlen : (c :: text).length - rest.length = t.length + 1 := by
    rw [← htext, List.length_append, List.length_cons]
    omega
  rw [htext] at hcompare ⊢
  rw [Mw.search, hcompare, Bool.true_and, ← hlen]
  · cases str.isPrefixOf t <;> rfl
  · exact nofun

theorem search_zeros {n ip : Nat} (hne : str ≠ []) (hstr : eos ∉ str) :
    Mw.search str n ip (List.replicate unused eos) = none := by
  induction n generalizing ip unused with
  | zero => rfl
  | succ n ih =>
      cases unused with
      | zero => rfl
      | succ unused =>
          have hstring := @search_string str [] n ip (List.replicate unused eos)
            List.not_mem_nil hstr
          obtain ⟨c, rest, rfl⟩ := List.exists_cons_of_ne_nil hne
          rw [List.nil_append, if_neg (by exact Bool.false_ne_true)] at hstring
          rw [List.replicate_succ, hstring]
          exact ih

theorem search_spec {n ip : Nat} (hne : strings = [] → unused = 0 ∨ str ≠ [])
    (hstrings : ∀ t ∈ strings, eos ∉ t) (hstr : eos ∉ str)
    (hn : (packed strings ++ List.replicate unused eos).length ≤ n) :
    (firstMatch strings str = none ∧
      Mw.search str n ip (packed strings ++ List.replicate unused eos) = none) ∨
    ∃ before t after, strings = before ++ t :: after ∧ firstMatch strings str = some t ∧
      Mw.search str n ip (packed strings ++ List.replicate unused eos) =
        some (ip + (packed before).length) := by
  induction strings generalizing n ip with
  | nil =>
      refine .inl ⟨rfl, ?_⟩
      rcases hne rfl with rfl | hstr'
      · cases n <;> rfl
      · exact search_zeros hstr' hstr
  | cons t strings ih =>
      have ht : eos ∉ t := hstrings t List.mem_cons_self
      rw [packed_cons, List.append_assoc, List.cons_append] at hn ⊢
      have hlen := hn
      rw [List.length_append, List.length_cons] at hlen
      obtain ⟨n, rfl⟩ : ∃ m, n = m + 1 := ⟨n - 1, by omega⟩
      rw [search_string ht hstr]
      cases hprefix : str.isPrefixOf t with
      | true => exact .inr ⟨[], t, strings, rfl, List.find?_cons_of_pos hprefix, rfl⟩
      | false =>
          have hfirst : firstMatch (t :: strings) str = firstMatch strings str :=
            List.find?_cons_of_neg (Bool.eq_false_iff.1 hprefix)
          have hne' : str ≠ [] := by
            rintro rfl
            exact Bool.noConfusion hprefix
          rw [hfirst, if_neg Bool.false_ne_true]
          rcases @ih n (ip + (t.length + 1)) (fun _ => .inr hne')
            (fun u hu => hstrings u (List.mem_cons_of_mem t hu)) (by omega) with
            hnone | ⟨before, u, after, rfl, hfound, hsearch⟩
          · exact .inl hnone
          · refine .inr ⟨t :: before, u, after, rfl, hfound, ?_⟩
            rw [hsearch, packed_cons, List.length_append, List.length_cons]
            congr 1
            omega

/-! ## References -/

/-- A string of the buffer and its offset. -/
def Stored (strings : List (List Char)) (off : Nat) (t : List Char) : Prop :=
  ∃ before after, strings = before ++ t :: after ∧ off = (packed before).length + 1

theorem Stored.refer {off : Nat} (h : Stored strings off t) (str : List Char) :
    Stored (refer strings str) off t := by
  obtain ⟨before, after, rfl, hoff⟩ := h
  rw [Mwcs.refer]
  cases firstMatch (before ++ t :: after) str with
  | some u => exact ⟨before, after, rfl, hoff⟩
  | none => exact ⟨before, after ++ [str], List.append_assoc before (t :: after) [str], hoff⟩

theorem Mw.Holds.string {off : Nat} (h : mw.Holds strings unused) (ht : Stored strings off t) :
    mw.string off = t := by
  obtain ⟨before, after, rfl, rfl⟩ := ht
  have hnoEos := h.noEos t (List.mem_append_right before List.mem_cons_self)
  rw [Mw.string, h.sbuf, packed_append, packed_cons, Nat.add_sub_cancel, List.append_assoc,
    List.drop_left, List.append_assoc, List.cons_append, List.takeWhile_append_of_pos]
  · rw [List.takeWhile_cons_of_neg (by simp), List.append_nil]
  · intro c hc
    exact decide_eq_true fun heq : c = eos => hnoEos (heq ▸ hc)

theorem growSbuf_le {needed n sbuflen : Nat} (h : needed ≤ sbuflen + n) :
    needed ≤ Mw.growSbuf needed n sbuflen := by
  induction n generalizing sbuflen with
  | zero => exact h
  | succ n ih =>
      rw [Mw.growSbuf]
      split
      · exact ih (by rw [incSzsbuf]; omega)
      · omega

theorem mwAllocs_spec (h : mw.Holds strings unused) (nchars : Nat) :
    ∃ n, nchars + 1 ≤ n ∧ mw.mwAllocs nchars =
      ({ mw with
        sbuf := packed strings ++ List.replicate n eos
        sbufused := (packed strings).length + (nchars + 1) }, (packed strings).length + 1) := by
  rw [Mw.mwAllocs, h.used]
  split
  next hfull =>
    have hlen : (packed strings).length ≤ mw.sbuf.length := by
      rw [h.sbuf, List.length_append]
      omega
    have hgrown : (packed strings).length + (nchars + 1) ≤ Mw.growSbuf
        ((packed strings).length + (nchars + 1)) (nchars + 1) (mw.sbuf.length + incSzsbuf) :=
      growSbuf_le (by omega)
    refine ⟨_, Nat.le_sub_of_add_le' hgrown, ?_⟩
    rw [h.sbuf, List.take_left]
  next hroom =>
    rw [h.sbuf, List.length_append, List.length_replicate] at hroom
    exact ⟨unused, by omega, by rw [h.sbuf]⟩

/-- A string is stored, or the first one that begins with it is used instead. -/
theorem mwRefstr_spec (h : mw.Holds strings unused) (hstr : eos ∉ str) :
    ∃ unused', (mw.mwRefstr str).1.Holds (refer strings str) unused' ∧
      (mw.mwRefstr str).1.wcs = mw.wcs ∧
      Stored (refer strings str) (mw.mwRefstr str).2 (referred strings str) := by
  have hsearch := @search_spec strings str unused mw.sbuf.length 0
    (fun hempty => .inl (h.empty hempty)) h.noEos hstr (h.sbuf ▸ Nat.le_refl _)
  rw [← h.sbuf] at hsearch
  rw [Mw.mwRefstr, refer, referred]
  rcases hsearch with ⟨hfirst, hsearch⟩ | ⟨before, t, after, rfl, hfirst, hsearch⟩
  · rw [hfirst, hsearch]
    obtain ⟨n, hn, halloc⟩ := mwAllocs_spec h str.length
    dsimp only
    rw [halloc]
    have hsbuf : packed (strings ++ [str]) = packed strings ++ str ++ [eos] := by
      rw [packed_append, packed_cons, List.append_assoc]
      rfl
    refine ⟨n - (str.length + 1), ⟨?_, ?_, ?_, ?_⟩, rfl, strings, [], rfl, rfl⟩
    · rw [Mw.storeString, hsbuf]
      dsimp only
      rw [Nat.add_sub_cancel, List.take_left, Nat.add_assoc, Nat.add_comm 1, ← List.drop_drop,
        List.drop_left, List.drop_replicate]
      simp only [List.append_assoc, List.singleton_append]
    · rw [hsbuf, List.length_append, List.length_append]
      rfl
    · intro t ht
      rcases List.mem_append.1 ht with hmem | hmem
      · exact h.noEos t hmem
      · exact (List.mem_singleton.1 hmem).symm ▸ hstr
    · exact fun hnil => absurd hnil (List.append_ne_nil_of_right_ne_nil _ (List.cons_ne_nil _ _))
  · rw [hfirst, hsearch]
    exact ⟨unused, h, rfl, before, after, rfl, by rw [Nat.zero_add]⟩

theorem splitStrings_append {rest : List Char} (ht : eos ∉ t) :
    splitStrings (t ++ eos :: rest) = t :: splitStrings rest := by
  induction t with
  | nil => rfl
  | cons c t ih =>
      rw [List.cons_append, splitStrings, if_neg fun heq : c = eos => ht (heq ▸ List.mem_cons_self),
        ih fun hmem => ht (List.mem_cons_of_mem c hmem)]
      rfl

theorem splitStrings_packed (h : ∀ t ∈ strings, eos ∉ t) :
    splitStrings (packed strings) = strings := by
  induction strings with
  | nil => rfl
  | cons t strings ih =>
      rw [packed_cons, splitStrings_append (h t List.mem_cons_self),
        ih fun u hu => h u (List.mem_cons_of_mem t hu)]

theorem Mw.Holds.strings_eq (h : mw.Holds strings unused) : mw.strings = strings := by
  rw [Mw.strings, h.sbuf, h.used, List.take_left, splitStrings_packed h.noEos]

end Iraf.Mwcs
