import Mathlib.Data.List.Infix
import Mathlib.Logic.Function.Basic
import Iraf.Lib.StepMachine

/-!
# The escape scan of a file template

The loop of `fntopnb` that examines a sublist of a template field, in place, with the index
`ip` of the char that is read and the index `op` of the place that is written.  Memory is
given from `patp[i]` on, and `none` is EOS.

The scan is right for a sublist when its escaped metacharacters are inside.
-/

namespace Iraf.Fnt

open StepMachine

abbrev Memc := Nat → Option Char

def chEdit : Char := '%'

def metachars : List Char := ['@', '*', '?', '[', chEdit]

/-- The state of the loop; `read` is the last place that has been read. -/
structure Scan where
  mem : Memc
  ip : Nat
  op : Nat
  isUrl : Bool
  isTemplate : Bool
  isEdit : Bool
  read : Nat

namespace Scan

/-- `strncmp (Memc[ip+1], "//", 2) == 0`. -/
def slashes (s : Scan) : Bool := s.mem (s.ip + 1) = some '/' ∧ s.mem (s.ip + 2) = some '/'

/-- The last place that is read to see what begins at `ip`. -/
def ahead (s : Scan) (ch : Char) : Nat :=
  if ch = ':' then if s.mem (s.ip + 1) = some '/' then s.ip + 2 else s.ip + 1 else s.ip

/-- The end of a turn. -/
def deposit (s : Scan) (ch : Option Char) : Scan :=
  { s with mem := Function.update s.mem s.op ch, op := s.op + 1, ip := s.ip + 1 }

end Scan

/-- A turn of the loop; what is returned at EOS is the state after it. -/
def scanStep (s : Scan) : Except Empty (Scan ⊕ Scan) :=
  match s.mem s.ip with
  | none =>
      .ok (.inr { s with mem := Function.update s.mem s.op none, read := max s.read s.ip })
  | some ch =>
      let t : Scan := { s with read := max s.read (s.ahead ch) }
      if ch = ':' ∧ s.slashes then
        .ok (.inl ({ t with isTemplate := false, isEdit := false, isUrl := true }.deposit ch))
      else if ¬s.isUrl ∧ ch ∈ metachars then
        if 0 < s.ip ∧ s.mem (s.ip - 1) = some '\\' then
          let t : Scan := { t with mem := Function.update s.mem (s.op - 1) (some ch),
                                   ip := s.ip + 1, read := max t.read (s.ip + 1) }
          .ok (.inl (t.deposit (t.mem t.ip)))
        else if ch = chEdit then .ok (.inl ({ t with isEdit := true }.deposit ch))
        else .ok (.inl ({ t with isTemplate := true }.deposit ch))
      else .ok (.inl (t.deposit ch))

/-- A sublist in memory; what stands after its EOS belongs to others. -/
def sublistMem (raw : List Char) (after : Memc) : Memc := fun k =>
  if k ≤ raw.length then raw[k]? else after k

def scanStart (raw : List Char) (after : Memc) : Scan :=
  { mem := sublistMem raw after, ip := 0, op := 0, isUrl := false, isTemplate := false,
    isEdit := false, read := 0 }

/-! ## What the scan is for -/

/-- The text begins with `://`. -/
abbrev UrlStart (text : List Char) : Prop := [':', '/', '/'] <+: text

/-- The text begins with a backslash and a metacharacter. -/
def EscapeStart : List Char → Prop
  | ch :: m :: _ => ch = '\\' ∧ m ∈ metachars
  | _ => False

instance (text : List Char) : Decidable (EscapeStart text) := by
  unfold EscapeStart
  split <;> infer_instance

/-- A sublist without the backslashes that precede a metacharacter.  From `://` on the
sublist is a URL, which has no metacharacters. -/
def unescape : List Char → List Char
  | [] => []
  | ch :: text =>
      if UrlStart (ch :: text) then ch :: text
      else if EscapeStart (ch :: text) then unescape text
      else ch :: unescape text

/-- The scan reads nothing after the EOS of the sublist, whatever is there, and writes
nothing there; it leaves the sublist without the backslashes that precede a
metacharacter. -/
def ScanInside (raw : List Char) : Prop :=
  ∀ after, ∃ s, Ends scanStep (scanStart raw after) (.ok s) ∧ s.read ≤ raw.length ∧
    (∀ k, raw.length < k → s.mem k = after k) ∧
    (unescape raw).length ≤ raw.length ∧
    ∀ k, k ≤ (unescape raw).length → s.mem k = (unescape raw)[k]?

/-- A URL begins before place `k`, and not at once after an escaped metacharacter. -/
def UrlSeen (raw : List Char) (k : Nat) : Prop :=
  ∃ j < k, UrlStart (raw.drop j) ∧ ∀ i, i + 2 = j → ¬EscapeStart (raw.drop i)

/-- An escaped metacharacter comes after the start of a URL that is seen, or it is not the
last char of the sublist and not in a URL. -/
def EscapesInside (raw : List Char) : Prop :=
  ∀ k, EscapeStart (raw.drop k) →
    UrlSeen raw k ∨ (k + 2 < raw.length ∧ ∀ j < k, ¬UrlStart (raw.drop j))

/-! ## The scan of a list of chars -/

/-- What the next turn depends on: the char before was a backslash, or the next char is
copied with the metacharacter before it. -/
inductive Mode where
  | plain
  | slashed
  | escaped
  deriving DecidableEq

/-- What is not yet settled. -/
def Mode.pending : Mode → List Char
  | slashed => ['\\']
  | _ => []

structure Flags where
  isUrl : Bool
  isTemplate : Bool
  isEdit : Bool
  deriving DecidableEq

def Flags.none : Flags := ⟨false, false, false⟩

def Flags.url : Flags := ⟨true, false, false⟩

/-- A metacharacter that is not escaped. -/
def Flags.mark (f : Flags) (ch : Char) : Flags :=
  if ch = chEdit then { f with isEdit := true } else { f with isTemplate := true }

/-- The scan as a function of the text; nothing when it goes past the EOS. -/
def scanChars : Mode → Flags → List Char → Option (List Char × Flags)
  | .escaped, _, [] => none
  | mode, f, [] => some (mode.pending, f)
  | mode, f, ch :: text =>
      if mode ≠ .escaped ∧ UrlStart (ch :: text) then some (mode.pending ++ ch :: text, .url)
      else if mode ≠ .escaped ∧ ch ∈ metachars then
        if mode = .slashed then (scanChars .escaped f text).map (Prod.map (ch :: ·) id)
        else (scanChars .plain (f.mark ch) text).map (Prod.map (ch :: ·) id)
      else if ch = '\\' then (scanChars .slashed f text).map (Prod.map (mode.pending ++ ·) id)
      else (scanChars .plain f text).map (Prod.map (mode.pending ++ ch :: ·) id)

/-! ## Escapes and URLs at the places of a text -/

theorem escapeStart_cons {ch : Char} {text : List Char} :
    EscapeStart (ch :: text) ↔ ch = '\\' ∧ ∃ m t, text = m :: t ∧ m ∈ metachars := by
  cases text with
  | nil => simp [EscapeStart]
  | cons m t => simp [EscapeStart]

theorem urlStart_cons {ch : Char} {text : List Char} :
    UrlStart (ch :: text) ↔ ch = ':' ∧ ∃ t, text = '/' :: '/' :: t := by
  constructor
  · rintro ⟨t, ht⟩
    obtain ⟨rfl, rfl⟩ := List.cons.inj ht
    exact ⟨rfl, t, rfl⟩
  · rintro ⟨rfl, t, rfl⟩
    exact ⟨t, rfl⟩

theorem not_urlStart_nil : ¬UrlStart [] := by decide

theorem not_escapeStart_of_ne {ch : Char} (h : ch ≠ '\\') (text : List Char) :
    ¬EscapeStart (ch :: text) := fun hesc => h (escapeStart_cons.1 hesc).1

theorem not_urlStart_of_ne {ch : Char} (h : ch ≠ ':') (text : List Char) :
    ¬UrlStart (ch :: text) := fun hurl => h (urlStart_cons.1 hurl).1

theorem metachar_ne {m : Char} (h : m ∈ metachars) : m ≠ '\\' ∧ m ≠ ':' := by
  constructor
  · rintro rfl
    exact absurd h (by decide)
  · rintro rfl
    exact absurd h (by decide)

/-- Every escaped metacharacter comes after the start of a URL that is seen. -/
def EscapesHidden (raw : List Char) : Prop := ∀ k, EscapeStart (raw.drop k) → UrlSeen raw k

section Places

variable {ch m : Char} {text : List Char}

theorem urlSeen_cons (hurl : ¬UrlStart (ch :: text)) (hesc : ¬EscapeStart (ch :: text)) (k : Nat) :
    UrlSeen (ch :: text) (k + 1) ↔ UrlSeen text k := by
  constructor
  · rintro ⟨j, hj, hstart, hplain⟩
    cases j with
    | zero => exact absurd hstart hurl
    | succ j => exact ⟨j, by omega, hstart, fun i hi => hplain (i + 1) (by omega)⟩
  · rintro ⟨j, hj, hstart, hplain⟩
    refine ⟨j + 1, by omega, hstart, fun i hi => ?_⟩
    cases i with
    | zero => exact hesc
    | succ i => exact hplain i (by omega)

theorem escapesHidden_cons (hurl : ¬UrlStart (ch :: text)) (hesc : ¬EscapeStart (ch :: text)) :
    EscapesHidden (ch :: text) ↔ EscapesHidden text := by
  constructor
  · exact fun h k hk => (urlSeen_cons hurl hesc k).1 (h (k + 1) hk)
  · intro h k hk
    cases k with
    | zero => exact absurd hk hesc
    | succ k => exact (urlSeen_cons hurl hesc k).2 (h k hk)

theorem escapesInside_cons (hurl : ¬UrlStart (ch :: text)) (hesc : ¬EscapeStart (ch :: text)) :
    EscapesInside (ch :: text) ↔ EscapesInside text := by
  have hnone : ∀ k, (∀ j < k + 1, ¬UrlStart ((ch :: text).drop j)) ↔
      ∀ j < k, ¬UrlStart (text.drop j) := by
    intro k
    constructor
    · exact fun h j hj => h (j + 1) (by omega)
    · intro h j hj
      cases j with
      | zero => exact hurl
      | succ j => exact h j (by omega)
  have hplace : ∀ k, (UrlSeen (ch :: text) (k + 1) ∨ (k + 1 + 2 < (ch :: text).length ∧
      ∀ j < k + 1, ¬UrlStart ((ch :: text).drop j))) ↔
        (UrlSeen text k ∨ (k + 2 < text.length ∧ ∀ j < k, ¬UrlStart (text.drop j))) := by
    intro k
    rw [urlSeen_cons hurl hesc, hnone, List.length_cons]
    exact or_congr_right (and_congr_left fun _ => by omega)
  constructor
  · exact fun h k hk => (hplace k).1 (h (k + 1) hk)
  · intro h k hk
    cases k with
    | zero => exact absurd hk hesc
    | succ k => exact (hplace k).2 (h k hk)

theorem escapesHidden_of_url (h : UrlStart text) : EscapesHidden text := by
  intro k hk
  cases k with
  | zero =>
      exfalso
      obtain ⟨t, rfl⟩ := h
      exact not_escapeStart_of_ne (by decide) _ hk
  | succ k =>
      refine ⟨0, by omega, h, fun i hi => ?_⟩
      omega

theorem EscapesHidden.inside (h : EscapesHidden text) : EscapesInside text :=
  fun k hk => .inl (h k hk)

theorem not_escapesHidden (h : EscapeStart text) : ¬EscapesHidden text := by
  intro hhidden
  obtain ⟨j, hj, -⟩ := hhidden 0 h
  omega

theorem escapesInside_escape (hm : m ∈ metachars) (hurl : ¬UrlStart text) :
    EscapesInside ('\\' :: m :: text) ↔ text ≠ [] ∧ EscapesInside text := by
  have hfirst : EscapeStart ('\\' :: m :: text) := ⟨rfl, hm⟩
  have hm' := metachar_ne hm
  have hsecond := not_escapeStart_of_ne hm'.1 text
  have hseen : ∀ k, UrlSeen ('\\' :: m :: text) (k + 2) ↔ UrlSeen text k := by
    intro k
    constructor
    · rintro ⟨j, hj, hstart, hplain⟩
      match j with
      | 0 => exact absurd hstart (not_urlStart_of_ne (by decide) _)
      | 1 => exact absurd hstart (not_urlStart_of_ne hm'.2 _)
      | j + 2 => exact ⟨j, by omega, hstart, fun i hi => hplain (i + 2) (by omega)⟩
    · rintro ⟨j, hj, hstart, hplain⟩
      refine ⟨j + 2, by omega, hstart, fun i hi => ?_⟩
      match i with
      | 0 =>
          obtain rfl : j = 0 := by omega
          exact absurd hstart hurl
      | 1 => exact hsecond
      | i + 2 => exact hplain i (by omega)
  have hnone : ∀ k, (∀ j < k + 2, ¬UrlStart (('\\' :: m :: text).drop j)) ↔
      ∀ j < k, ¬UrlStart (text.drop j) := by
    intro k
    constructor
    · exact fun h j hj => h (j + 2) (by omega)
    · intro h j hj
      match j with
      | 0 => exact not_urlStart_of_ne (by decide) _
      | 1 => exact not_urlStart_of_ne hm'.2 _
      | j + 2 => exact h j (by omega)
  have hplace : ∀ k, (UrlSeen ('\\' :: m :: text) (k + 2) ∨
      (k + 2 + 2 < ('\\' :: m :: text).length ∧
        ∀ j < k + 2, ¬UrlStart (('\\' :: m :: text).drop j))) ↔
      (UrlSeen text k ∨ (k + 2 < text.length ∧ ∀ j < k, ¬UrlStart (text.drop j))) := by
    intro k
    rw [hseen, hnone, List.length_cons, List.length_cons]
    exact or_congr_right (and_congr_left fun _ => by omega)
  constructor
  · intro h
    refine ⟨?_, fun k hk => (hplace k).1 (h (k + 2) hk)⟩
    rintro rfl
    rcases h 0 hfirst with ⟨j, hj, -⟩ | ⟨hlen, -⟩
    · omega
    · exact absurd hlen (by simp)
  · rintro ⟨hne, h⟩ k hk
    have hpos := List.length_pos_of_ne_nil hne
    match k with
    | 0 =>
        refine .inr ⟨?_, fun j hj => absurd hj (by omega)⟩
        rw [List.length_cons, List.length_cons]
        omega
    | 1 => exact absurd hk hsecond
    | k + 2 => exact (hplace k).2 (h k hk)

theorem escapesInside_escape_url (hm : m ∈ metachars) (hurl : UrlStart (ch :: text)) :
    EscapesInside ('\\' :: m :: ch :: text) ↔ EscapesHidden text := by
  have hfirst : EscapeStart ('\\' :: m :: ch :: text) := ⟨rfl, hm⟩
  have hm' := metachar_ne hm
  have hsecond := not_escapeStart_of_ne hm'.1 (ch :: text)
  obtain ⟨rfl, t, rfl⟩ := urlStart_cons.1 hurl
  have hthird : ¬EscapeStart (':' :: '/' :: '/' :: t) := not_escapeStart_of_ne (by decide) _
  have hseen : ∀ k, UrlSeen ('\\' :: m :: ':' :: '/' :: '/' :: t) (k + 3) ↔
      UrlSeen ('/' :: '/' :: t) k := by
    intro k
    constructor
    · rintro ⟨j, hj, hstart, hplain⟩
      match j with
      | 0 => exact absurd hstart (not_urlStart_of_ne (by decide) _)
      | 1 => exact absurd hstart (not_urlStart_of_ne hm'.2 _)
      | 2 => exact absurd hfirst (hplain 0 rfl)
      | j + 3 => exact ⟨j, by omega, hstart, fun i hi => hplain (i + 3) (by omega)⟩
    · rintro ⟨j, hj, hstart, hplain⟩
      refine ⟨j + 3, by omega, hstart, fun i hi => ?_⟩
      match j with
      | 0 => exact absurd hstart (not_urlStart_of_ne (by decide) _)
      | 1 => exact absurd hstart (not_urlStart_of_ne (by decide) _)
      | j + 2 =>
          obtain rfl : i = j + 3 := by omega
          exact hplain j rfl
  constructor
  · intro h k hk
    rcases h (k + 3) hk with hseen' | ⟨-, hnone⟩
    · exact (hseen k).1 hseen'
    · exact absurd hurl (hnone 2 (by omega))
  · intro h k hk
    match k with
    | 0 =>
        refine .inr ⟨?_, fun j hj => absurd hj (by omega)⟩
        simp
    | 1 => exact absurd hk hsecond
    | 2 => exact absurd hk hthird
    | k + 3 => exact .inl ((hseen k).2 (h k hk))

end Places

/-! ## The text that the scan leaves -/

section Text

variable {mode : Mode} {f : Flags} {text u : List Char}

theorem map_fst_map {α β γ : Type} (o : Option (α × γ)) (g : α → β) :
    (o.map (Prod.map g id)).map Prod.fst = (o.map Prod.fst).map g := by
  cases o with
  | none => rfl
  | some a => rfl

theorem map_append_eq {o : Option (List Char)} (before : List Char) :
    o.map (before ++ ·) = some (before ++ u) ↔ o = some u := by
  cases o with
  | none => simp
  | some t => simp

theorem map_cons_eq {o : Option (List Char)} (ch : Char) :
    o.map (ch :: ·) = some (ch :: u) ↔ o = some u :=
  map_append_eq [ch]

theorem unescape_cons {ch : Char} (hurl : ¬UrlStart (ch :: text))
    (hesc : ¬EscapeStart (ch :: text)) : unescape (ch :: text) = ch :: unescape text := by
  rw [unescape, if_neg hurl, if_neg hesc]

theorem length_unescape (text : List Char) : (unescape text).length ≤ text.length := by
  induction text with
  | nil => exact le_rfl
  | cons ch text ih =>
      rw [unescape]
      split
      · exact le_rfl
      · split
        · exact ih.trans (Nat.le_succ _)
        · exact Nat.succ_le_succ ih

/-! The cases of the scan. -/

theorem scanChars_url {ch : Char} (hmode : mode ≠ .escaped) (hurl : UrlStart (ch :: text)) :
    scanChars mode f (ch :: text) = some (mode.pending ++ ch :: text, .url) := by
  rw [scanChars, if_pos ⟨hmode, hurl⟩]

theorem scanChars_escape {m : Char} (hm : m ∈ metachars) :
    scanChars .slashed f (m :: text) =
      (scanChars .escaped f text).map (Prod.map ([m] ++ ·) id) := by
  rw [scanChars, if_neg (fun h => not_urlStart_of_ne (metachar_ne hm).2 text h.2),
    if_pos ⟨by decide, hm⟩, if_pos rfl]
  rfl

theorem scanChars_mark {m : Char} (hm : m ∈ metachars) :
    scanChars .plain f (m :: text) =
      (scanChars .plain (f.mark m) text).map (Prod.map ([m] ++ ·) id) := by
  rw [scanChars, if_neg (fun h => not_urlStart_of_ne (metachar_ne hm).2 text h.2),
    if_pos ⟨by decide, hm⟩, if_neg (by decide)]
  rfl

theorem scanChars_slash (mode : Mode) (f : Flags) (text : List Char) :
    scanChars mode f ('\\' :: text) =
      (scanChars .slashed f text).map (Prod.map (mode.pending ++ ·) id) := by
  rw [scanChars, if_neg (fun h => not_urlStart_of_ne (by decide) text h.2),
    if_neg (fun h => absurd h.2 (by decide)), if_pos rfl]

theorem scanChars_other {ch : Char} (hch : ch ≠ '\\')
    (h : mode = .escaped ∨ (¬UrlStart (ch :: text) ∧ ch ∉ metachars)) :
    scanChars mode f (ch :: text) =
      (scanChars .plain f text).map (Prod.map ((mode.pending ++ [ch]) ++ ·) id) := by
  rw [scanChars, if_neg, if_neg, if_neg hch]
  · simp only [List.append_assoc, List.singleton_append]
  · rintro ⟨hmode, hm⟩
    exact (h.resolve_left hmode).2 hm
  · rintro ⟨hmode, hurl⟩
    exact (h.resolve_left hmode).1 hurl

theorem length_scanChars {r : List Char × Flags} (h : scanChars mode f text = some r) :
    r.1.length ≤ mode.pending.length + text.length := by
  induction text generalizing mode f r with
  | nil =>
      cases mode with
      | escaped => cases h
      | plain => exact (Option.some.inj h) ▸ le_rfl
      | slashed => exact (Option.some.inj h) ▸ le_rfl
  | cons ch text ih =>
      have hmap : ∀ {mode' : Mode} {f' : Flags} (before : List Char),
          (scanChars mode' f' text).map (Prod.map (before ++ ·) id) = some r →
          r.1.length ≤ before.length + (mode'.pending.length + text.length) := by
        intro mode' f' before hr
        obtain ⟨r', hr', rfl⟩ := Option.map_eq_some_iff.1 hr
        rw [Prod.map_fst, List.length_append]
        exact Nat.add_le_add_left (ih hr') _
      rw [List.length_cons]
      by_cases hslash : ch = '\\'
      · subst hslash
        rw [scanChars_slash] at h
        have hlen := hmap _ h
        rwa [Mode.pending.eq_1, List.length_singleton, Nat.add_comm 1] at hlen
      · by_cases hother : mode = .escaped ∨ (¬UrlStart (ch :: text) ∧ ch ∉ metachars)
        · rw [scanChars_other hslash hother] at h
          have hlen := hmap _ h
          rw [List.length_append, List.length_singleton] at hlen
          have hpending : Mode.plain.pending.length = 0 := rfl
          omega
        · obtain ⟨hmode, hspecial⟩ := not_or.1 hother
          by_cases hurl : UrlStart (ch :: text)
          · rw [scanChars_url hmode hurl] at h
            rw [← Option.some.inj h, List.length_append, List.length_cons]
          · have hm : ch ∈ metachars := by
              by_contra hm
              exact hspecial ⟨hurl, hm⟩
            cases mode with
            | escaped => exact absurd rfl hmode
            | plain =>
                rw [scanChars_mark hm] at h
                have hlen := hmap _ h
                rw [List.length_singleton] at hlen
                omega
            | slashed =>
                rw [scanChars_escape hm] at h
                have hlen := hmap _ h
                have hpending : Mode.escaped.pending.length = 0 := rfl
                rw [List.length_singleton] at hlen
                omega

theorem scanChars_same (hmode : mode ≠ .escaped) :
    (scanChars mode f text).map Prod.fst = some (mode.pending ++ text) ↔
      EscapesHidden (mode.pending ++ text) := by
  induction text generalizing mode f with
  | nil =>
      have hhidden : EscapesHidden (mode.pending ++ []) := by
        intro k hk
        exfalso
        cases mode with
        | escaped => exact hmode rfl
        | plain => simp [Mode.pending, EscapeStart] at hk
        | slashed =>
            cases k with
            | zero => exact hk
            | succ k => simp [Mode.pending, EscapeStart] at hk
      refine iff_of_true ?_ hhidden
      cases mode with
      | escaped => exact absurd rfl hmode
      | plain => rfl
      | slashed => rfl
  | cons ch text ih =>
      have hpending : ∀ (hesc : ch ∉ metachars ∨ mode = .plain),
          EscapesHidden (mode.pending ++ ch :: text) ↔ EscapesHidden (ch :: text) := by
        intro hesc
        cases mode with
        | escaped => exact absurd rfl hmode
        | plain => exact Iff.rfl
        | slashed =>
            refine escapesHidden_cons (not_urlStart_of_ne (by decide) _) fun hstart => ?_
            exact hesc.resolve_right (by decide) hstart.2
      by_cases hslash : ch = '\\'
      · subst hslash
        rw [scanChars_slash, map_fst_map, map_append_eq, hpending (.inl (by decide))]
        exact ih (by decide)
      · by_cases hurl : UrlStart (ch :: text)
        · rw [scanChars_url hmode hurl, hpending (.inl fun hm => (metachar_ne hm).2
            (urlStart_cons.1 hurl).1)]
          exact iff_of_true rfl (escapesHidden_of_url hurl)
        · have hstart := not_escapeStart_of_ne hslash text
          by_cases hm : ch ∈ metachars
          · cases mode with
            | escaped => exact absurd rfl hmode
            | plain =>
                rw [scanChars_mark hm, map_fst_map]
                have hplain := @ih .plain (f.mark ch) (by decide)
                exact (map_cons_eq ch).trans (hplain.trans (escapesHidden_cons hurl hstart).symm)
            | slashed =>
                refine iff_of_false (fun h => ?_) (not_escapesHidden ⟨rfl, hm⟩)
                obtain ⟨r, hr, htext⟩ := Option.map_eq_some_iff.1 h
                rw [scanChars_escape hm] at hr
                obtain ⟨r', hr', rfl⟩ := Option.map_eq_some_iff.1 hr
                have hlen := length_scanChars hr'
                have hsame := congrArg List.length htext
                simp only [Prod.map_fst, List.length_append, List.length_cons,
                  List.length_nil] at hsame
                have hescaped : Mode.escaped.pending.length = 0 := rfl
                have hslashed : Mode.slashed.pending.length = 1 := rfl
                omega
          · rw [scanChars_other hslash (.inr ⟨hurl, hm⟩), map_fst_map,
              hpending (.inl hm), escapesHidden_cons hurl hstart,
              List.append_cons mode.pending ch text, map_append_eq]
            exact ih (by decide)

/-- What the scan needs of the text after an escaped metacharacter, and of other texts. -/
def Mode.Inside : Mode → List Char → Prop
  | escaped, text => text ≠ [] ∧ (UrlStart text → EscapesHidden text.tail) ∧
      (¬UrlStart text → EscapesInside text)
  | mode, text => EscapesInside (mode.pending ++ text)

theorem escapesInside_escaped {m : Char} (hm : m ∈ metachars) :
    EscapesInside ('\\' :: m :: text) ↔ Mode.escaped.Inside text := by
  by_cases hurl : UrlStart text
  · obtain ⟨ch, text, rfl⟩ := List.exists_cons_of_ne_nil fun hnil =>
      not_urlStart_nil (hnil ▸ hurl)
    rw [escapesInside_escape_url hm hurl]
    exact ⟨fun h => ⟨List.cons_ne_nil _ _, fun _ => h, fun h' => absurd hurl h'⟩,
      fun h => h.2.1 hurl⟩
  · rw [escapesInside_escape hm hurl]
    exact ⟨fun h => ⟨h.1, fun h' => absurd h' hurl, fun _ => h.2⟩, fun h => ⟨h.1, h.2.2 hurl⟩⟩

/-- The scan removes the backslashes that precede a metacharacter when the escapes of the
text are inside. -/
theorem scanChars_unescape :
    (scanChars mode f text).map Prod.fst = some (unescape (mode.pending ++ text)) ↔
      mode.Inside text := by
  induction text generalizing mode f with
  | nil =>
      cases mode with
      | escaped => exact iff_of_false (fun h => nomatch h) fun h => h.1 rfl
      | plain => exact iff_of_true rfl fun k hk => by simp [Mode.pending, EscapeStart] at hk
      | slashed =>
          refine iff_of_true rfl fun k hk => ?_
          cases k with
          | zero => exact hk.elim
          | succ k => simp [Mode.pending, EscapeStart] at hk
  | cons ch text ih =>
      by_cases hslash : ch = '\\'
      · subst hslash
        have hurl := @not_urlStart_of_ne '\\' (by decide) text
        rw [scanChars_slash, map_fst_map]
        have hrest := @ih .slashed f
        cases mode with
        | escaped =>
            have hnil := (map_append_eq (o := (scanChars .slashed f text).map Prod.fst)
              (u := unescape ('\\' :: text)) []).trans hrest
            refine hnil.trans ⟨fun h => ⟨List.cons_ne_nil _ _, ?_, fun _ => h⟩, fun h => h.2.2 hurl⟩
            exact fun h' => absurd h' hurl
        | plain => exact (map_append_eq []).trans hrest
        | slashed =>
            have hesc : ¬EscapeStart ('\\' :: '\\' :: text) := fun h => absurd h.2 (by decide)
            have hurl' := @not_urlStart_of_ne '\\' (by decide) ('\\' :: text)
            have hcons : unescape (Mode.slashed.pending ++ '\\' :: text) =
                ['\\'] ++ unescape ('\\' :: text) := unescape_cons hurl' hesc
            rw [hcons]
            exact (map_append_eq ['\\']).trans (hrest.trans (escapesInside_cons hurl' hesc).symm)
      · have hesc := not_escapeStart_of_ne hslash text
        -- the char is copied, and the scan goes on with the rest
        have hcopy : ∀ f', ((scanChars .plain f' text).map Prod.fst).map ([ch] ++ ·) =
            some (ch :: unescape text) ↔ EscapesInside text :=
          fun f' => (map_append_eq [ch]).trans (@ih .plain f')
        by_cases hurl : UrlStart (ch :: text)
        · have hm : ch ∉ metachars := fun hm => (metachar_ne hm).2 (urlStart_cons.1 hurl).1
          have hself : unescape (ch :: text) = ch :: text := if_pos hurl
          cases mode with
          | escaped =>
              have hsame := @scanChars_same .plain f text (by decide)
              rw [scanChars_other hslash (.inl rfl), map_fst_map]
              change _ = some (unescape (ch :: text)) ↔ _
              rw [hself]
              refine ((map_append_eq [ch]).trans hsame).trans ?_
              exact ⟨fun h => ⟨List.cons_ne_nil _ _, fun _ => h, fun h' => absurd hurl h'⟩,
                fun h => h.2.1 hurl⟩
          | plain =>
              rw [scanChars_url (by decide) hurl]
              exact iff_of_true (congrArg some hself.symm) (escapesHidden_of_url hurl).inside
          | slashed =>
              have hesc' : ¬EscapeStart ('\\' :: ch :: text) := fun h => hm h.2
              have hurl' := @not_urlStart_of_ne '\\' (by decide) (ch :: text)
              rw [scanChars_url (by decide) hurl]
              refine iff_of_true ?_ ((escapesInside_cons hurl' hesc').2
                (escapesHidden_of_url hurl).inside)
              change some ('\\' :: ch :: text) = some (unescape ('\\' :: ch :: text))
              rw [unescape_cons hurl' hesc', hself]
        · have hcons := unescape_cons hurl hesc
          have hinside := escapesInside_cons hurl hesc
          have hescaped : Mode.escaped.Inside (ch :: text) ↔ EscapesInside text :=
            ⟨fun h => hinside.1 (h.2.2 hurl), fun h => ⟨List.cons_ne_nil _ _,
              fun h' => absurd h' hurl, fun _ => hinside.2 h⟩⟩
          by_cases hm : ch ∈ metachars
          · cases mode with
            | escaped =>
                rw [scanChars_other hslash (.inl rfl), map_fst_map, hescaped, ← hcopy f, ← hcons]
                rfl
            | plain =>
                rw [scanChars_mark hm, map_fst_map]
                change _ = some (unescape (ch :: text)) ↔ EscapesInside (ch :: text)
                rw [hcons, hinside]
                exact hcopy _
            | slashed =>
                have hdrop : unescape ('\\' :: ch :: text) = ch :: unescape text := by
                  rw [unescape, if_neg (not_urlStart_of_ne (by decide) _), if_pos ⟨rfl, hm⟩, hcons]
                rw [scanChars_escape hm, map_fst_map]
                change _ = some (unescape ('\\' :: ch :: text)) ↔
                  EscapesInside ('\\' :: ch :: text)
                rw [hdrop, escapesInside_escaped hm]
                exact (map_append_eq [ch]).trans (@ih .escaped f)
          · rw [scanChars_other hslash (.inr ⟨hurl, hm⟩), map_fst_map]
            cases mode with
            | escaped =>
                rw [hescaped, ← hcopy f, ← hcons]
                rfl
            | plain =>
                change _ = some (unescape (ch :: text)) ↔ EscapesInside (ch :: text)
                rw [hcons, hinside]
                exact hcopy f
            | slashed =>
                have hesc' : ¬EscapeStart ('\\' :: ch :: text) := fun h => hm h.2
                have hurl' := @not_urlStart_of_ne '\\' (by decide) (ch :: text)
                change _ = some (unescape ('\\' :: ch :: text)) ↔
                  EscapesInside ('\\' :: ch :: text)
                rw [unescape_cons hurl' hesc', hcons, escapesInside_cons hurl' hesc', hinside]
                exact (map_append_eq ['\\', ch]).trans (@ih .plain f)

end Text

/-! ## The loop in memory -/

section Loop

variable {raw done text : List Char} {after : Memc} {f g : Flags} {mode : Mode} {ch m : Char}
  {s t r : Scan}

/-- The loop has written `done`, and `text` is left. -/
structure Scanning (raw : List Char) (after : Memc) (f : Flags) (done text : List Char)
    (s : Scan) : Prop where
  flags : s.isUrl = f.isUrl ∧ s.isTemplate = f.isTemplate ∧ s.isEdit = f.isEdit
  ip : s.ip + text.length = raw.length
  op : s.op = done.length
  le : s.op ≤ s.ip
  written : ∀ k < done.length, s.mem k = done[k]?
  left : ∀ k, k ≤ text.length → s.mem (s.ip + k) = text[k]?
  others : ∀ k, raw.length < k → s.mem k = after k
  read : s.read ≤ raw.length

/-- The char before is a backslash. -/
abbrev Scan.Behind (s : Scan) : Prop := 0 < s.ip ∧ s.mem (s.ip - 1) = some '\\'

/-- What the loop leaves. -/
structure Scanned (raw : List Char) (after : Memc) (text : List Char) (f : Flags) (s : Scan) :
    Prop where
  flags : s.isUrl = f.isUrl ∧ s.isTemplate = f.isTemplate ∧ s.isEdit = f.isEdit
  read : s.read ≤ raw.length
  others : ∀ k, raw.length < k → s.mem k = after k
  text : ∀ k, k ≤ text.length → s.mem k = text[k]?

theorem scanning_start (raw : List Char) (after : Memc) :
    Scanning raw after .none [] raw (scanStart raw after) where
  flags := ⟨rfl, rfl, rfl⟩
  ip := Nat.zero_add _
  op := rfl
  le := le_rfl
  written _ hk := absurd hk (Nat.not_lt_zero _)
  left k hk := by
    change sublistMem raw after (0 + k) = _
    rw [Nat.zero_add]
    exact if_pos hk
  others k hk := if_neg (by omega)
  read := Nat.zero_le _

theorem Scanning.here (h : Scanning raw after f done (ch :: text) s) : s.mem s.ip = some ch :=
  h.left 0 (Nat.zero_le _)

theorem Scanning.eos (h : Scanning raw after f done [] s) : s.mem s.ip = none :=
  h.left 0 le_rfl

theorem Scanning.deposit (h : Scanning raw after f done (ch :: text) s)
    (hs : t.mem = s.mem ∧ t.ip = s.ip ∧ t.op = s.op)
    (hflags : t.isUrl = g.isUrl ∧ t.isTemplate = g.isTemplate ∧ t.isEdit = g.isEdit)
    (hread : t.read ≤ raw.length) :
    Scanning raw after g (done ++ [ch]) text (t.deposit ch) ∧
      ((t.deposit ch).Behind ↔ ch = '\\') := by
  obtain ⟨hmem, hip, hop⟩ := hs
  have hlen := h.ip
  have hle := h.le
  have hopl := h.op
  rw [List.length_cons] at hlen
  refine ⟨⟨hflags, ?_, ?_, ?_, fun k hk => ?_, fun k hk => ?_, fun k hk => ?_, hread⟩, ?_⟩
  · change t.ip + 1 + text.length = raw.length
    omega
  · change t.op + 1 = (done ++ [ch]).length
    rw [List.length_append, List.length_singleton, hop, h.op]
  · change t.op + 1 ≤ t.ip + 1
    omega
  · rw [List.length_append, List.length_singleton] at hk
    change Function.update t.mem t.op (some ch) k = _
    rw [hmem, hop, hopl]
    by_cases hlast : k = done.length
    · subst hlast
      rw [Function.update_self, List.getElem?_concat_length]
    · rw [Function.update_of_ne hlast, h.written k (by omega),
        List.getElem?_append_left (by omega)]
  · change Function.update t.mem t.op (some ch) (t.ip + 1 + k) = _
    rw [hmem, hop, hip, Function.update_of_ne (by omega), Nat.add_assoc, Nat.add_comm 1 k,
      h.left (k + 1) (by rw [List.length_cons]; omega), List.getElem?_cons_succ]
  · change Function.update t.mem t.op (some ch) k = _
    rw [hmem, hop, Function.update_of_ne (by omega), h.others k hk]
  · change 0 < t.ip + 1 ∧ Function.update t.mem t.op (some ch) (t.ip + 1 - 1) = _ ↔ _
    rw [Nat.add_sub_cancel, hmem, hop, hip]
    have hhere : Function.update s.mem s.op (some ch) s.ip = some ch := by
      by_cases hsame : s.ip = s.op
      · rw [hsame, Function.update_self]
      · rw [Function.update_of_ne hsame, h.here]
    rw [hhere, Option.some_inj]
    exact and_iff_right (Nat.succ_pos _)

theorem Scanning.ahead_le (h : Scanning raw after f done (ch :: text) s) :
    max s.read (s.ahead ch) ≤ raw.length := by
  have hlen := h.ip
  have hread := h.read
  rw [List.length_cons] at hlen
  have hahead : s.ahead ch ≤ raw.length := by
    unfold Scan.ahead
    split
    · split
      next hslash =>
        rw [h.left 1 (by rw [List.length_cons]; omega), List.getElem?_cons_succ] at hslash
        obtain ⟨hpos, -⟩ := List.getElem?_eq_some_iff.1 hslash
        omega
      · omega
    · omega
  exact Nat.max_le.2 ⟨hread, hahead⟩

theorem Scanning.slashes_iff (h : Scanning raw after f done (ch :: text) s) :
    (ch = ':' ∧ s.slashes) ↔ UrlStart (ch :: text) := by
  rw [urlStart_cons]
  refine and_congr_right fun _ => ?_
  unfold Scan.slashes
  rw [decide_eq_true_iff, h.left 1 (by rw [List.length_cons]; omega), List.getElem?_cons_succ]
  constructor
  · rintro ⟨hfirst, hsecond⟩
    cases text with
    | nil => cases hfirst
    | cons x text =>
        obtain rfl := Option.some.inj hfirst
        rw [h.left 2 (by simp)] at hsecond
        cases text with
        | nil => cases hsecond
        | cons y text =>
            obtain rfl := Option.some.inj hsecond
            exact ⟨text, rfl⟩
  · rintro ⟨t, rfl⟩
    refine ⟨rfl, ?_⟩
    rw [h.left 2 (by simp)]
    rfl

theorem Scanning.overwrite (h : Scanning raw after f (done ++ ['\\']) (m :: text) s)
    (hs : t.mem = Function.update s.mem (s.op - 1) (some m) ∧ t.ip = s.ip + 1 ∧ t.op = s.op)
    (hflags : t.isUrl = f.isUrl ∧ t.isTemplate = f.isTemplate ∧ t.isEdit = f.isEdit)
    (hread : t.read ≤ raw.length) :
    Scanning raw after f (done ++ [m]) text t := by
  obtain ⟨hmem, hip, hop⟩ := hs
  have hlen := h.ip
  have hle := h.le
  have hopl := h.op
  rw [List.length_cons] at hlen
  rw [List.length_append, List.length_singleton] at hopl
  refine ⟨hflags, ?_, ?_, ?_, fun k hk => ?_, fun k hk => ?_, fun k hk => ?_, hread⟩
  · omega
  · rw [List.length_append, List.length_singleton]
    omega
  · omega
  · rw [List.length_append, List.length_singleton] at hk
    rw [hmem, hopl, Nat.add_sub_cancel]
    by_cases hlast : k = done.length
    · subst hlast
      rw [Function.update_self, List.getElem?_concat_length]
    · rw [Function.update_of_ne hlast, h.written k (by rw [List.length_append]; simp; omega),
        List.getElem?_append_left (by omega), List.getElem?_append_left (by omega)]
  · rw [hmem, hip, Function.update_of_ne (by omega), Nat.add_assoc, Nat.add_comm 1 k,
      h.left (k + 1) (by rw [List.length_cons]; omega), List.getElem?_cons_succ]
  · rw [hmem, Function.update_of_ne (by omega), h.others k hk]

theorem scanStep_eos (h : s.mem s.ip = none) : scanStep s = .ok (.inr
    { s with mem := Function.update s.mem s.op none, read := max s.read s.ip }) := by
  rw [scanStep, h]

theorem Scanning.stop (h : Scanning raw after f done [] s) :
    ∃ r, Ends scanStep s (.ok r) ∧ Scanned raw after done f r := by
  have hlen := h.ip
  have hle := h.le
  have hop := h.op
  have hread := h.read
  rw [List.length_nil] at hlen
  refine ⟨_, ends_result (scanStep_eos h.eos), h.flags, ?_, fun k hk => ?_, fun k hk => ?_⟩
  · exact Nat.max_le.2 ⟨hread, by omega⟩
  · exact (Function.update_of_ne (by omega) _ _).trans (h.others k hk)
  · change Function.update s.mem s.op none k = _
    by_cases hlast : k = done.length
    · rw [hop, hlast, Function.update_self, List.getElem?_eq_none le_rfl]
    · rw [Function.update_of_ne (by omega), h.written k (by omega)]

theorem Scanning.url (h : Scanning raw after .url done text s) :
    ∃ r, Ends scanStep s (.ok r) ∧ Scanned raw after (done ++ text) .url r := by
  induction text generalizing done s with
  | nil =>
      rw [List.append_nil]
      exact h.stop
  | cons ch text ih =>
      have hstep : ∃ t : Scan, scanStep s = .ok (.inl (t.deposit ch)) ∧
          (t.mem = s.mem ∧ t.ip = s.ip ∧ t.op = s.op) ∧
          (t.isUrl = true ∧ t.isTemplate = false ∧ t.isEdit = false) ∧
          t.read = max s.read (s.ahead ch) := by
        rw [scanStep, h.here]
        dsimp only
        split
        · exact ⟨_, rfl, ⟨rfl, rfl, rfl⟩, ⟨rfl, rfl, rfl⟩, rfl⟩
        · rw [if_neg fun hmeta => hmeta.1 h.flags.1]
          exact ⟨_, rfl, ⟨rfl, rfl, rfl⟩, h.flags, rfl⟩
      obtain ⟨t, hstep, hs, hflags, hread⟩ := hstep
      obtain ⟨hnext, -⟩ := h.deposit (g := .url) hs hflags (hread ▸ h.ahead_le)
      obtain ⟨r, hends, hr⟩ := ih hnext
      rw [List.append_assoc] at hr
      exact ⟨r, (ends_next hstep).2 hends, hr⟩

theorem scanStep_char (h : s.mem s.ip = some ch) :
    ∃ t, scanStep s = .ok (.inl t) ∧ s.ip < t.ip ∧ max s.read s.ip ≤ t.read := by
  have hahead : s.ip ≤ s.ahead ch := by
    unfold Scan.ahead
    split_ifs <;> omega
  have hread : max s.read s.ip ≤ max s.read (s.ahead ch) := by omega
  rw [scanStep, h]
  dsimp only
  split
  · exact ⟨_, rfl, Nat.lt_succ_self _, hread⟩
  · split
    · split
      · refine ⟨_, rfl, ?_, hread.trans (Nat.le_max_left _ _)⟩
        change s.ip < s.ip + 1 + 1
        omega
      · split
        · exact ⟨_, rfl, Nat.lt_succ_self _, hread⟩
        · exact ⟨_, rfl, Nat.lt_succ_self _, hread⟩
    · exact ⟨_, rfl, Nat.lt_succ_self _, hread⟩

theorem read_le {fuel : Nat} (h : run scanStep fuel s = some (.ok r)) :
    max s.read s.ip ≤ r.read := by
  induction fuel generalizing s with
  | zero => cases h
  | succ fuel ih =>
      rw [run] at h
      cases hch : s.mem s.ip with
      | none =>
          rw [scanStep_eos hch] at h
          rw [← Except.ok.inj (Option.some.inj h)]
      | some ch =>
          obtain ⟨t, hstep, hip, hread⟩ := scanStep_char hch
          rw [hstep] at h
          exact hread.trans ((Nat.le_max_left _ _).trans (ih h))

/-- The loop ends as the scan of the chars says. -/
def Scan.Gives (raw : List Char) (after : Memc) (done : List Char)
    (o : Option (List Char × Flags)) (s : Scan) : Prop :=
  (∀ u g, o = some (u, g) →
      ∃ r, Ends scanStep s (.ok r) ∧ Scanned raw after (done ++ u) g r) ∧
    (o = none → ∀ r, Ends scanStep s (.ok r) → raw.length < r.read)

theorem Scan.Gives.back {o : Option (List Char × Flags)} (hstep : scanStep s = .ok (.inl t))
    (h : t.Gives raw after done o) : s.Gives raw after done o := by
  constructor
  · intro u g hu
    obtain ⟨r, hends, hr⟩ := h.1 u g hu
    exact ⟨r, (ends_next hstep).2 hends, hr⟩
  · exact fun hnone r hends => h.2 hnone r ((ends_next hstep).1 hends)

theorem Scan.Gives.map_append {before : List Char} {o : Option (List Char × Flags)}
    (h : s.Gives raw after (done ++ before) o) :
    s.Gives raw after done (o.map (Prod.map (before ++ ·) id)) := by
  constructor
  · intro u g hu
    obtain ⟨⟨u', g'⟩, ho, heq⟩ := Option.map_eq_some_iff.1 hu
    obtain ⟨rfl, rfl⟩ := Prod.mk.inj heq
    obtain ⟨r, hends, hr⟩ := h.1 u' g' ho
    rw [List.append_assoc] at hr
    exact ⟨r, hends, hr⟩
  · exact fun hnone => h.2 (Option.map_eq_none_iff.1 hnone)

theorem Scanning.copy (h : Scanning raw after f done (ch :: text) s)
    (hurl : ¬UrlStart (ch :: text)) (hm : ch ∉ metachars) :
    ∃ t, scanStep s = .ok (.inl t) ∧ Scanning raw after f (done ++ [ch]) text t ∧
      (t.Behind ↔ ch = '\\') := by
  have hstep : scanStep s = .ok (.inl ({ s with read := max s.read (s.ahead ch) }.deposit ch)) := by
    rw [scanStep, h.here]
    dsimp only
    rw [if_neg fun hsee => hurl (h.slashes_iff.1 hsee), if_neg fun hmeta => hm hmeta.2]
  exact ⟨_, hstep, h.deposit ⟨rfl, rfl, rfl⟩ h.flags h.ahead_le⟩

theorem Scanning.mark (h : Scanning raw after f done (m :: text) s) (hurl : f.isUrl = false)
    (hm : m ∈ metachars) (hbehind : ¬s.Behind) :
    ∃ t, scanStep s = .ok (.inl t) ∧ Scanning raw after (f.mark m) (done ++ [m]) text t ∧
      (t.Behind ↔ m = '\\') := by
  obtain ⟨hflag, htemplate, hedit⟩ := h.flags
  have hstep : ∃ t : Scan, scanStep s = .ok (.inl (t.deposit m)) ∧
      (t.mem = s.mem ∧ t.ip = s.ip ∧ t.op = s.op) ∧
      (t.isUrl = (f.mark m).isUrl ∧ t.isTemplate = (f.mark m).isTemplate ∧
        t.isEdit = (f.mark m).isEdit) ∧ t.read = max s.read (s.ahead m) := by
    rw [scanStep, h.here]
    dsimp only
    rw [if_neg fun hsee => (metachar_ne hm).2 hsee.1, if_pos ⟨by rw [hflag, hurl]; decide, hm⟩,
      if_neg hbehind, Flags.mark]
    split
    · exact ⟨_, rfl, ⟨rfl, rfl, rfl⟩, ⟨hflag, htemplate, rfl⟩, rfl⟩
    · exact ⟨_, rfl, ⟨rfl, rfl, rfl⟩, ⟨hflag, rfl, hedit⟩, rfl⟩
  obtain ⟨t, hstep, hs, hflags, hread⟩ := hstep
  exact ⟨_, hstep, h.deposit hs hflags (hread ▸ h.ahead_le)⟩

theorem Scanning.escape (h : Scanning raw after f (done ++ ['\\']) (m :: text) s)
    (hurl : f.isUrl = false) (hm : m ∈ metachars) (hbehind : s.Behind) :
    ∃ t, scanStep s = .ok (.inl (t.deposit (t.mem t.ip))) ∧
      Scanning raw after f (done ++ [m]) text t := by
  have hlen := h.ip
  rw [List.length_cons] at hlen
  obtain ⟨t, hs'⟩ : ∃ t : Scan, t = { s with
      mem := Function.update s.mem (s.op - 1) (some m), ip := s.ip + 1,
      read := max (max s.read (s.ahead m)) (s.ip + 1) } := ⟨_, rfl⟩
  have hstep : scanStep s = .ok (.inl (t.deposit (t.mem t.ip))) := by
    rw [scanStep, h.here, hs']
    dsimp only
    rw [if_neg fun hsee => (metachar_ne hm).2 hsee.1,
      if_pos ⟨by rw [h.flags.1, hurl]; decide, hm⟩, if_pos hbehind]
  refine ⟨t, hstep, ?_⟩
  rw [hs']
  exact h.overwrite ⟨rfl, rfl, rfl⟩ h.flags (Nat.max_le.2 ⟨h.ahead_le, by omega⟩)

theorem Scanning.gives (hmode : mode ≠ .escaped) (hurl : f.isUrl = false)
    (h : Scanning raw after f (done ++ mode.pending) text s)
    (hbehind : s.Behind ↔ mode = .slashed) :
    s.Gives raw after done (scanChars mode f text) := by
  induction hn : text.length using Nat.strongRecOn generalizing mode f done text s with
  | ind n ih =>
      cases text with
      | nil =>
          have hstop : scanChars mode f [] = some (mode.pending, f) := by
            cases mode with
            | escaped => exact absurd rfl hmode
            | plain => rfl
            | slashed => rfl
          rw [hstop]
          refine ⟨fun u g hu => ?_, fun hnone => nomatch hnone⟩
          obtain ⟨rfl, rfl⟩ := Prod.mk.inj (Option.some.inj hu)
          exact h.stop
      | cons ch text =>
          rw [List.length_cons] at hn
          by_cases hstart : UrlStart (ch :: text)
          · have hstep : scanStep s = .ok (.inl ({ s with
                isTemplate := false, isEdit := false, isUrl := true,
                read := max s.read (s.ahead ch) }.deposit ch)) := by
              rw [scanStep, h.here]
              dsimp only
              rw [if_pos (h.slashes_iff.2 hstart)]
            have hnext := (h.deposit (g := .url)
              (t := { s with isTemplate := false, isEdit := false, isUrl := true,
                              read := max s.read (s.ahead ch) })
              ⟨rfl, rfl, rfl⟩ ⟨rfl, rfl, rfl⟩ h.ahead_le).1
            rw [scanChars_url hmode hstart]
            refine ⟨fun u g hu => ?_, fun hnone => nomatch hnone⟩
            obtain ⟨rfl, rfl⟩ := Prod.mk.inj (Option.some.inj hu)
            obtain ⟨r, hends, hr⟩ := hnext.url
            rw [List.append_assoc, List.append_assoc, List.singleton_append] at hr
            exact ⟨r, (ends_next hstep).2 hends, hr⟩
          · by_cases hm : ch ∈ metachars
            · have hm' := (metachar_ne hm).1
              cases mode with
              | escaped => exact absurd rfl hmode
              | plain =>
                  obtain ⟨t, hstep, hnext, hbehind'⟩ := h.mark hurl hm fun hb => by
                    cases hbehind.1 hb
                  have hurl' : (f.mark ch).isUrl = false := by
                    unfold Flags.mark
                    split <;> exact hurl
                  rw [scanChars_mark hm]
                  refine Scan.Gives.back hstep (Scan.Gives.map_append
                    (ih _ (by omega) (by decide) hurl' ?_ ?_ rfl))
                  · simpa [Mode.pending] using hnext
                  · rw [hbehind']
                    exact iff_of_false hm' (by decide)
              | slashed =>
                  obtain ⟨t, hstep, hnext⟩ := h.escape hurl hm (hbehind.2 rfl)
                  rw [scanChars_escape hm]
                  cases text with
                  | nil =>
                      refine ⟨fun u g hu => (nomatch hu), fun _ r hends => ?_⟩
                      obtain ⟨fuel, hrun⟩ := (ends_next hstep).1 hends
                      have hip := hnext.ip
                      rw [List.length_nil] at hip
                      have hread := read_le hrun
                      have hplace : (t.deposit (t.mem t.ip)).ip = t.ip + 1 := rfl
                      omega
                  | cons d text =>
                      rw [hnext.here] at hstep
                      obtain ⟨hcopied, hbehind'⟩ :=
                        hnext.deposit ⟨rfl, rfl, rfl⟩ hnext.flags hnext.read
                      rw [List.length_cons] at hn
                      refine Scan.Gives.back hstep (Scan.Gives.map_append ?_)
                      by_cases hslash : d = '\\'
                      · subst hslash
                        rw [scanChars_slash]
                        have hrest := ih _ (by omega) (by decide) hurl hcopied
                          (iff_of_true (hbehind'.2 rfl) (rfl : Mode.slashed = .slashed)) rfl
                        refine Scan.Gives.map_append ?_
                        have hpending : Mode.escaped.pending = [] := rfl
                        rw [hpending, List.append_nil]
                        exact hrest
                      · rw [scanChars_other hslash (.inl rfl)]
                        have hdone : done ++ [ch] ++ [d] ++ Mode.plain.pending =
                            done ++ [ch] ++ [d] := List.append_nil _
                        have hrest := ih _ (by omega) (by decide) hurl (hdone ▸ hcopied)
                          (iff_of_false (mt hbehind'.1 hslash) (by decide)) rfl
                        exact hrest.map_append
            · obtain ⟨t, hstep, hnext, hbehind'⟩ := h.copy hstart hm
              by_cases hslash : ch = '\\'
              · subst hslash
                rw [scanChars_slash]
                refine Scan.Gives.back hstep (Scan.Gives.map_append
                  (ih _ (by omega) (by decide) hurl hnext ?_ rfl))
                exact iff_of_true (hbehind'.2 rfl) rfl
              · rw [scanChars_other hslash (.inr ⟨hstart, hm⟩)]
                refine Scan.Gives.back hstep (Scan.Gives.map_append
                  (ih _ (by omega) (by decide) hurl ?_ ?_ rfl))
                · simpa [Mode.pending] using hnext
                · rw [hbehind']
                  exact iff_of_false hslash (by decide)

theorem text_unique {u v : List Char} {mem : Memc} (hu : ∀ k, k ≤ u.length → mem k = u[k]?)
    (hv : ∀ k, k ≤ v.length → mem k = v[k]?) : u = v := by
  have hle : ∀ {u v : List Char}, (∀ k, k ≤ u.length → mem k = u[k]?) →
      (∀ k, k ≤ v.length → mem k = v[k]?) → v.length ≤ u.length := by
    intro u v hu hv
    by_contra hlt
    have hnone := (hu u.length le_rfl).symm.trans (hv u.length (by omega))
    rw [List.getElem?_eq_none le_rfl, List.getElem?_eq_getElem (by omega)] at hnone
    cases hnone
  have hlen := Nat.le_antisymm (hle hv hu) (hle hu hv)
  apply List.ext_getElem?
  intro k
  rcases Nat.lt_or_ge u.length k with hout | hin
  · rw [List.getElem?_eq_none (by omega), List.getElem?_eq_none (by omega)]
  · exact (hu k hin).symm.trans (hv k (by omega))

theorem scanStart_gives (raw : List Char) (after : Memc) :
    (scanStart raw after).Gives raw after [] (scanChars .plain .none raw) := by
  refine (scanning_start raw after).gives (by decide) rfl (iff_of_false ?_ (by decide))
  rintro ⟨hpos, -⟩
  exact Nat.lt_irrefl 0 hpos

theorem scanInside_iff (raw : List Char) : ScanInside raw ↔ EscapesInside raw := by
  have htext := @scanChars_unescape .plain .none raw
  change _ = some (unescape raw) ↔ EscapesInside raw at htext
  rw [← htext]
  constructor
  · intro h
    obtain ⟨r, hends, hread, -, -, hmem⟩ := h fun _ => none
    obtain ⟨hsome, hnone⟩ := scanStart_gives raw fun _ => none
    cases hscan : scanChars .plain .none raw with
    | none =>
        have hpast := hnone hscan r hends
        omega
    | some result =>
        obtain ⟨r', hends', hr⟩ := hsome result.1 result.2 hscan
        obtain rfl := Except.ok.inj (hends.unique hends')
        exact congrArg some (text_unique hr.text hmem)
  · intro h after
    obtain ⟨⟨u, g⟩, hscan, htext'⟩ := Option.map_eq_some_iff.1 h
    obtain ⟨r, hends, hr⟩ := (scanStart_gives raw after).1 u g hscan
    subst htext'
    exact ⟨r, hends, hr.read, hr.others, length_unescape raw, hr.text⟩

end Loop

end Iraf.Fnt
