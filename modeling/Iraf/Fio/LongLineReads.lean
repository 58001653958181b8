import Mathlib.Data.List.Basic
import Iraf.Fio.LongLine

/-!
# Texts that `getlongline` reads as they are meant

The pieces of a line are followed first for `getline`, then for the two loops that skip lines,
and last for the loop that joins what is left.
-/

namespace Iraf.Fio.LongLine

open Cells

variable {c rest key p : List Int} {ls : List Line} {s : Reader} {op : Int} {P : Line → Prop}

/-! ## Lines and pieces -/

/-- A line, or what is left of one, in front of the rest of the text. -/
structure Fits (c : Line) (rest : List Int) : Prop where
  ne : c ≠ []
  body : NEWLINE ∉ c.dropLast
  ends : c.getLast? = some NEWLINE ∨ rest = []

theorem Fits.drop (h : Fits c rest) {n : Nat} (hn : n < c.length) : Fits (c.drop n) rest where
  ne := by
    intro hnil
    have := List.drop_eq_nil_iff.mp hnil
    omega
  body hmem := by
    have hne : c.drop n ≠ [] := fun hnil => by
      have := List.drop_eq_nil_iff.mp hnil
      omega
    refine h.body ?_
    rw [← List.take_append_drop n c, List.dropLast_append_of_ne_nil hne]
    exact List.mem_append_right _ hmem
  ends := by
    refine h.ends.imp_left fun hlast => ?_
    rw [List.getLast?_drop, if_neg (by omega)]
    exact hlast

theorem Fits.lineChars (h : Fits c rest) (n : Nat) : lineChars n (c ++ rest) = c.take n := by
  induction n generalizing c with
  | zero => rfl
  | succ n ih =>
      cases c with
      | nil => exact absurd rfl h.ne
      | cons ch c =>
          rw [List.cons_append, List.take_succ_cons, LongLine.lineChars]
          rcases eq_or_ne c [] with rfl | hne
          · rcases h.ends with hlast | hrest
            · rw [if_pos (by simpa using hlast), List.take_nil]
            · rw [hrest]
              split
              · rw [List.take_nil]
              · cases n <;> rfl
          · have hch : ch ≠ NEWLINE := by
              rintro rfl
              refine h.body ?_
              rw [List.dropLast_cons_of_ne_nil hne]
              exact List.mem_cons_self
            have hfits : Fits c rest := by
              have := h.drop (n := 1) (by
                have := List.length_pos_iff.mpr hne
                rw [List.length_cons]
                omega)
              exact this
            rw [if_neg hch, ih hfits]

theorem lineChars_eq_take (n : Nat) (text : List Int) :
    lineChars n text = text.take (lineChars n text).length := by
  induction n generalizing text with
  | zero => rfl
  | succ n ih =>
      cases text with
      | nil => rfl
      | cons ch rest =>
          rw [LongLine.lineChars]
          split
          · rfl
          · rw [List.length_cons, List.take_succ_cons, ← ih rest]

/-- The piece is what `getline` reads of a text file, when the driver delivers it line by line. -/
theorem getline_textFile {host : Host} {f : Fd} (hfile : f.ftype = .text) (htop : f.iop = f.itop)
    (hpush : f.ffPushback = false) (hraw : f.ffRaw = false)
    (hgive : host.give f.chan szLine = (lineChars szLine f.chan).length) (m : Memory Int)
    (linenum op : Int) :
    ∃ g, Fio.getline host f =
        .ok ((getline ⟨f.chan, m, linenum⟩ op).1, lineChars szLine f.chan, g) ∧
      g.chan = (getline ⟨f.chan, m, linenum⟩ op).2.text := by
  have htake := (lineChars_eq_take szLine f.chan).symm
  have hstatus : (getline ⟨f.chan, m, linenum⟩ op).1 =
      if ((lineChars szLine f.chan).length : Int) = 0 then EOF
      else ((lineChars szLine f.chan).length : Int) := by
    rw [getline]
    rcases eq_or_ne (lineChars szLine f.chan) [] with hnil | hne
    · simp [hnil]
    · have hpos := List.length_pos_iff.mpr hne
      rw [if_neg hne, if_neg (by omega)]
  have htext : (getline ⟨f.chan, m, linenum⟩ op).2.text =
      f.chan.drop (lineChars szLine f.chan).length := by
    rw [getline]
    split
    · next hnil => rw [hnil, List.length_nil, List.drop_zero]
    · rfl
  refine ⟨{ f with
    chan := f.chan.drop (lineChars szLine f.chan).length
    fnchars := (lineChars szLine f.chan).length }, ?_, htext.symm⟩
  simp only [Fio.getline, hfile, htop, hpush, hraw, and_self, if_true, Bool.false_eq_true,
    if_false, hgive, htake, bind, Except.bind, hstatus]

/-- Every line fits in front of those that follow. -/
def WellBroken : List Line → Prop
  | [] => True
  | l :: ls => Fits l ls.flatten ∧ WellBroken ls

theorem flatten_physicalLines (text : List Int) : (physicalLines text).flatten = text := by
  induction text with
  | nil => rfl
  | cons ch rest ih =>
      rw [physicalLines]
      split
      · rw [List.flatten_cons, ih]
        rfl
      · split
        · next hnil =>
            rw [hnil] at ih
            rw [← ih]
            rfl
        · next l ls hcons =>
            rw [hcons] at ih
            rw [← ih]
            rfl

theorem wellBroken_physicalLines (text : List Int) : WellBroken (physicalLines text) := by
  induction text with
  | nil => trivial
  | cons ch rest ih =>
      have hflat := flatten_physicalLines rest
      rw [physicalLines]
      split
      · next hch =>
          subst hch
          exact ⟨⟨by simp, by simp, .inl rfl⟩, ih⟩
      · next hch =>
          split
          · exact ⟨⟨by simp, by simp, .inr rfl⟩, trivial⟩
          · next l ls hcons =>
              rw [hcons] at ih
              obtain ⟨hl, hls⟩ := ih
              refine ⟨⟨by simp, ?_, hl.ends.imp_left fun hlast => ?_⟩, hls⟩
              · rw [List.dropLast_cons_of_ne_nil hl.ne, List.mem_cons, not_or]
                exact ⟨fun heq => hch heq.symm, hl.body⟩
              · rw [List.getLast?_cons_of_ne_nil hl.ne]
                exact hlast

/-- What is left of a line whose pieces all have a property. -/
def Tail (P : Line → Prop) (t : Line) (rest : List Int) : Prop :=
  t = [] ∨ Fits t rest ∧ P t ∧ AtBreaks P t

theorem AtBreaks.drop (h : AtBreaks P c) (hlen : szLine < c.length) :
    P (c.drop szLine) ∧ AtBreaks P (c.drop szLine) := by
  have hfirst := h 1 one_pos (by rwa [Nat.one_mul])
  rw [Nat.one_mul] at hfirst
  refine ⟨hfirst, fun k hk hlt => ?_⟩
  rw [List.length_drop] at hlt
  have hlt' : (k + 1) * szLine < c.length := by
    rw [Nat.add_one_mul]
    exact Nat.add_lt_of_lt_sub hlt
  have hnext := h (k + 1) (Nat.succ_pos k) hlt'
  rwa [Nat.add_one_mul, Nat.add_comm, ← List.drop_drop] at hnext

theorem AtBreaks.tail (h : AtBreaks P c) (hfits : Fits c rest) :
    Tail P (c.drop szLine) rest := by
  by_cases hlen : szLine < c.length
  · obtain ⟨hP, hbreaks⟩ := h.drop hlen
    exact .inr ⟨hfits.drop hlen, hP, hbreaks⟩
  · exact .inl (List.drop_eq_nil_of_le (by omega))

/-! ## One call of `getline` -/

theorem fetch_key {m : Memory Int} {a : Int} (hkey : Fmtio.EOS ∉ key) :
    fetch (put m a (p ++ [Fmtio.EOS])) a key.length = key ↔ key <+: p := by
  have hlen : (p ++ [Fmtio.EOS]).length = p.length + 1 := List.length_append
  constructor
  · intro heq
    have hle : key.length ≤ p.length := by
      by_contra hlt
      have hcell := congrArg (·[p.length]?) heq
      simp only [getElem?_fetch, if_pos (not_le.mp hlt)] at hcell
      rw [put_of_mem p.length (by omega) rfl, List.getElem_concat_length rfl] at hcell
      exact hkey (List.mem_of_getElem? hcell.symm)
    rw [fetch_put_of_le (by omega), List.take_append_of_le_length hle] at heq
    rw [← heq]
    exact List.take_prefix _ _
  · rintro ⟨q, rfl⟩
    rw [fetch_put_of_le (by rw [hlen, List.length_append]; omega), List.append_assoc,
      List.take_left' rfl]

/-- The cells below `op` are the same, and there is no EOS at `op` where there was none. -/
structure Below (op : Int) (s s' : Reader) : Prop where
  obuf : ∀ a, a < op → s'.obuf a = s.obuf a
  text : Fmtio.EOS ∉ s.text → Fmtio.EOS ∉ s'.text
  cell : Fmtio.EOS ∉ s.text → s.obuf op ≠ Fmtio.EOS → s'.obuf op ≠ Fmtio.EOS

theorem Below.refl (op : Int) (s : Reader) : Below op s s := ⟨fun _ _ => rfl, id, fun _ => id⟩

theorem Below.trans {s' s'' : Reader} (h : Below op s s') (h' : Below op s' s'') :
    Below op s s'' where
  obuf a ha := (h'.obuf a ha).trans (h.obuf a ha)
  text hno := h'.text (h.text hno)
  cell hno hcell := h'.cell (h.text hno) (h.cell hno hcell)

/-- A piece of a line has been stored as a string. -/
structure Took (s : Reader) (op : Int) (c rest : List Int) (s' : Reader) : Prop where
  text : s'.text = c.drop szLine ++ rest
  obuf : s'.obuf = put s.obuf op (c.take szLine ++ [Fmtio.EOS])

theorem Took.countLine {s' : Reader} (h : Took s op c rest s') : Took s op c rest s'.countLine :=
  ⟨h.text, h.obuf⟩

theorem Took.length_lt {s' : Reader} (h : Took s op c rest s') (hfits : Fits c rest)
    (htext : s.text = c ++ rest) : s'.text.length < s.text.length := by
  have hpos := List.length_pos_iff.mpr hfits.ne
  have hline : 0 < szLine := by decide
  rw [h.text, htext, List.length_append, List.length_append, List.length_drop]
  omega

theorem getline_fits (op : Int) (hfits : Fits c rest) (htext : s.text = c ++ rest) :
    ∃ s', getline s op = (((c.take szLine).length : Int), s') ∧ Took s op c rest s' := by
  have hne : c.take szLine ≠ [] := by
    rw [ne_eq, List.take_eq_nil_iff, not_or]
    exact ⟨by decide, hfits.ne⟩
  refine ⟨{ s with
    obuf := put s.obuf op (c.take szLine ++ [Fmtio.EOS])
    text := (c ++ rest).drop (c.take szLine).length }, ?_, ?_, rfl⟩
  · rw [getline, htext, hfits.lineChars, if_neg hne]
  · have hle : (c.take szLine).length ≤ c.length := List.length_take_le' _ _
    show (c ++ rest).drop (c.take szLine).length = c.drop szLine ++ rest
    rw [List.drop_append_of_le_length hle]
    congr 1
    rw [List.length_take]
    rcases le_total szLine c.length with hlong | hshort
    · rw [min_eq_left hlong]
    · rw [min_eq_right hshort, List.drop_length, List.drop_eq_nil_of_le hshort]

theorem getline_nil (htext : s.text = []) : getline s op = (EOF, s) := by
  rw [getline, htext]
  exact if_pos rfl

theorem Took.head {s' : Reader} (h : Took s op c rest s') (hfits : Fits c rest) :
    c.head? = some (s'.obuf op) := by
  cases c with
  | nil => exact absurd rfl hfits.ne
  | cons ch c =>
      rw [h.obuf, put_of_mem 0 (by simp) (by simp)]
      rfl

theorem Took.below {s' : Reader} (h : Took s op c rest s') (hfits : Fits c rest)
    (htext : s.text = c ++ rest) : Below op s s' where
  obuf a ha := by
    rw [h.obuf]
    exact put_of_not_mem (.inl ha)
  text hno hmem := by
    rw [h.text, List.mem_append] at hmem
    rw [htext, List.mem_append, not_or] at hno
    exact hmem.elim (fun hc => hno.1 (List.mem_of_mem_drop hc)) hno.2
  cell hno _ heos := by
    rw [htext, List.mem_append, not_or] at hno
    have hhead := h.head hfits
    rw [heos] at hhead
    exact hno.1 (List.mem_of_mem_head? hhead)

theorem Took.isComment_iff {s' : Reader} (h : Took s op c rest s') (hfits : Fits c rest) :
    s'.obuf op = HASH ↔ isComment c := by
  rw [isComment, h.head hfits, Option.some_inj]

theorem Took.key_iff {s' : Reader} (h : Took s op c rest s') (hkey : Fmtio.EOS ∉ key)
    (hlen : key.length ≤ szLine) : fetch s'.obuf op key.length = key ↔ key <+: c := by
  rw [h.obuf, fetch_key hkey, List.prefix_take_iff]
  exact and_iff_left hlen

theorem Took.stored {s' : Reader} (h : Took s op c rest s') :
    fetch s'.obuf op ((c.take szLine).length + 1) = c.take szLine ++ [Fmtio.EOS] := by
  rw [h.obuf]
  have := @fetch_put_same _ s.obuf op (c.take szLine ++ [Fmtio.EOS])
  rwa [List.length_append] at this

/-! ## Help sections -/

theorem skipHelp_fits (op : Int) (hfits : Fits c rest) (htext : s.text = c ++ rest) (fuel : Nat) :
    ∃ s', Took s op c rest s' ∧
      skipHelp (fuel + 1) s op = if endhelpKey <+: c then s' else skipHelp fuel s' op := by
  obtain ⟨s', hget, htook⟩ := getline_fits op hfits htext
  refine ⟨s'.countLine, htook.countLine, ?_⟩
  have hkey : fetch s'.obuf op endhelpKey.length = endhelpKey ↔ endhelpKey <+: c :=
    htook.key_iff (by decide) (by decide)
  change fetch s'.obuf op 8 = endhelpKey ↔ _ at hkey
  have heof : ((c.take szLine).length : Int) ≠ EOF := by
    simp only [EOF]
    omega
  rw [skipHelp, hget]
  simp only [if_neg heof, hkey]

theorem skipHelp_nil (htext : s.text = []) (fuel : Nat) :
    skipHelp (fuel + 1) s op = s.countLine := by
  rw [skipHelp, getline_nil htext]
  simp only [if_true]

theorem skipHelp_length (fuel : Nat) (s : Reader) :
    (skipHelp fuel s op).text.length ≤ s.text.length := by
  induction fuel generalizing s with
  | zero => exact le_rfl
  | succ fuel ih =>
      have hget : (getline s op).2.text.length ≤ s.text.length := by
        rw [getline]
        split
        · exact le_rfl
        · exact List.length_drop.trans_le (Nat.sub_le _ _)
      rcases hpair : getline s op with ⟨status, s'⟩
      rw [hpair] at hget
      rw [skipHelp, hpair]
      dsimp only
      split
      · exact hget
      · split
        · exact hget
        · exact (ih _).trans hget

theorem skipHelp_tail (op : Int) {t : Line} (htail : Tail (fun r => ¬ endhelpKey <+: r) t rest)
    (htext : s.text = t ++ rest) {fuel : Nat} (hfuel : s.text.length < fuel) :
    ∃ s' fuel', s'.text = rest ∧ rest.length < fuel' ∧ Below op s s' ∧
      skipHelp fuel s op = skipHelp fuel' s' op := by
  induction fuel generalizing s t with
  | zero => exact absurd hfuel (Nat.not_lt_zero _)
  | succ fuel ih =>
      rcases htail with rfl | ⟨hfits, hin, hbreaks⟩
      · rw [List.nil_append] at htext
        exact ⟨s, fuel + 1, htext, by rwa [htext] at hfuel, .refl op s, rfl⟩
      · obtain ⟨s₁, htook, hstep⟩ := skipHelp_fits op hfits htext fuel
        have hlt := htook.length_lt hfits htext
        obtain ⟨s', fuel', htext', hfuel', hbelow, heq⟩ :=
          ih (hbreaks.tail hfits) htook.text (by omega)
        refine ⟨s', fuel', htext', hfuel', (htook.below hfits htext).trans hbelow, ?_⟩
        rw [hstep, if_neg hin, heq]

theorem skipHelp_lines (op : Int) (hbroken : WellBroken ls) (hkept : PiecesKept true ls) {t : Line}
    (htail : Tail (fun r => ¬ endhelpKey <+: r) t ls.flatten)
    (htext : s.text = t ++ ls.flatten) {fuel : Nat} (hfuel : s.text.length < fuel) :
    ∃ t' ls', WellBroken ls' ∧ PiecesKept false ls' ∧ Tail isComment t' ls'.flatten ∧
      visibleLines true ls = visibleLines false ls' ∧ ls'.length ≤ ls.length ∧
      (skipHelp fuel s op).text = t' ++ ls'.flatten ∧ Below op s (skipHelp fuel s op) := by
  induction ls generalizing s t fuel with
  | nil =>
      obtain ⟨s', fuel', htext', hfuel', hbelow, heq⟩ :=
        skipHelp_tail op htail htext hfuel
      obtain ⟨n, rfl⟩ := Nat.exists_eq_succ_of_ne_zero (Nat.ne_zero_of_lt hfuel')
      rw [heq, skipHelp_nil htext']
      exact ⟨[], [], trivial, trivial, .inl rfl, rfl, le_rfl, htext',
        hbelow.obuf, hbelow.text, hbelow.cell⟩
  | cons l ls ih =>
      obtain ⟨hfits, hbroken⟩ := hbroken
      obtain ⟨hbreaks, hkept⟩ := hkept
      obtain ⟨s₁, fuel₁, htext₁, hfuel₁, hbelow₁, heq⟩ :=
        skipHelp_tail op htail htext hfuel
      obtain ⟨n, rfl⟩ := Nat.exists_eq_succ_of_ne_zero (Nat.ne_zero_of_lt hfuel₁)
      obtain ⟨s₂, htook, hstep⟩ := skipHelp_fits op hfits htext₁ n
      have hlt := htook.length_lt hfits htext₁
      rw [heq, hstep]
      by_cases hend : endhelpKey <+: l
      · rw [if_pos hend]
        rw [if_pos hend] at hbreaks
        rw [decide_eq_false (not_not.mpr hend)] at hkept
        refine ⟨_, ls, hbroken, hkept, hbreaks.tail hfits, ?_, Nat.le_succ _, htook.text,
          hbelow₁.trans (htook.below hfits htext₁)⟩
        rw [visibleLines, decide_eq_false (not_not.mpr hend)]
      · rw [if_neg hend]
        rw [if_neg hend] at hbreaks
        rw [decide_eq_true hend] at hkept
        obtain ⟨t', ls', hbroken', hkept', htail', hvisible, hle, htext', hbelow⟩ :=
          ih hbroken hkept (hbreaks.tail hfits) htook.text
            (show s₂.text.length < n by rw [htext₁] at hlt; omega)
        refine ⟨t', ls', hbroken', hkept', htail', ?_, Nat.le_succ_of_le hle, htext',
          (hbelow₁.trans (htook.below hfits htext₁)).trans hbelow⟩
        rw [visibleLines, decide_eq_true hend, hvisible]

/-! ## The next line -/

/-- The line is neither a comment nor the start of a help section. -/
def Visible (l : Line) : Prop := ¬ isComment l ∧ ¬ helpKey <+: l

theorem nextLine_fits (op : Int) (hfits : Fits c rest) (htext : s.text = c ++ rest) (fuel : Nat) :
    ∃ s', Took s op c rest s' ∧
      nextLine (fuel + 1) s op =
        if isComment c then nextLine fuel s' op
        else if helpKey <+: c then
          nextLine fuel (skipHelp (s'.text.length + 1) s' op) op
        else (((c.take szLine).length : Int), s') := by
  obtain ⟨s₁, hget, htook₁⟩ := getline_fits op hfits htext
  obtain ⟨s', hs', htook⟩ : ∃ s', (if ((c.take szLine).length : Int) > 0 ∧
      s₁.obuf (op + (c.take szLine).length - 1) = NEWLINE then s₁.countLine else s₁) = s' ∧
      Took s op c rest s' := by
    split
    · exact ⟨_, rfl, htook₁.countLine⟩
    · exact ⟨_, rfl, htook₁⟩
  refine ⟨s', htook, ?_⟩
  have heof : ((c.take szLine).length : Int) ≠ EOF := by
    simp only [EOF]
    omega
  have hkey : fetch s'.obuf op helpKey.length = helpKey ↔ helpKey <+: c :=
    htook.key_iff (by decide) (by decide)
  change fetch s'.obuf op 5 = helpKey ↔ _ at hkey
  have hcomment := htook.isComment_iff hfits
  rw [nextLine, hget]
  simp only [hs', if_neg heof, hcomment, hkey]
  by_cases hdot : s'.obuf op = DOT
  · rw [if_pos hdot]
  · have hhelp : ¬ helpKey <+: c := by
      rintro ⟨q, rfl⟩
      exact hdot (Option.some.inj (htook.head hfits)).symm
    rw [if_neg hdot, if_neg hhelp]

theorem nextLine_nil (htext : s.text = []) (fuel : Nat) :
    nextLine (fuel + 1) s op = (EOF, s) := by
  rw [nextLine, getline_nil htext]
  simp only [if_true]
  rw [if_neg fun h => absurd h.1 (by decide)]

theorem nextLine_tail (op : Int) {t : Line} (htail : Tail isComment t rest) (htext : s.text = t ++ rest)
    {fuel : Nat} (hfuel : s.text.length < fuel) :
    ∃ s' fuel', s'.text = rest ∧ rest.length < fuel' ∧ Below op s s' ∧
      nextLine fuel s op = nextLine fuel' s' op := by
  induction fuel generalizing s t with
  | zero => exact absurd hfuel (Nat.not_lt_zero _)
  | succ fuel ih =>
      rcases htail with rfl | ⟨hfits, hcomment, hbreaks⟩
      · rw [List.nil_append] at htext
        exact ⟨s, fuel + 1, htext, by rwa [htext] at hfuel, .refl op s, rfl⟩
      · obtain ⟨s₁, htook, hstep⟩ := nextLine_fits op hfits htext fuel
        have hlt := htook.length_lt hfits htext
        obtain ⟨s', fuel', htext', hfuel', hbelow, heq⟩ :=
          ih (hbreaks.tail hfits) htook.text (by omega)
        refine ⟨s', fuel', htext', hfuel', (htook.below hfits htext).trans hbelow, ?_⟩
        rw [hstep, if_pos hcomment, heq]

/-- What the loop over hidden lines comes to. -/
inductive Found (s : Reader) (op : Int) (ls : List Line) : Int × Reader → Prop
  | eof {s' : Reader} (hbelow : Below op s s') (hnone : visibleLines false ls = [])
      (htext : s'.text = []) : Found s op ls (EOF, s')
  | line {s₁ s' : Reader} {l : Line} {ls' : List Line} (hbelow : Below op s s₁)
      (hvisible : visibleLines false ls = l :: visibleLines false ls')
      (hbroken : WellBroken (l :: ls')) (hkept : PiecesKept false ls')
      (hbreaks : AtBreaks Visible l) (htext : s₁.text = l ++ ls'.flatten)
      (htook : Took s₁ op l ls'.flatten s') :
      Found s op ls (((l.take szLine).length : Int), s')

theorem Found.of_below {s₁ : Reader} {ls' : List Line} {r : Int × Reader}
    (h : Found s₁ op ls' r) (hbelow : Below op s s₁)
    (hvisible : visibleLines false ls = visibleLines false ls') : Found s op ls r := by
  cases h with
  | eof hbelow' hnone htext => exact .eof (hbelow.trans hbelow') (hvisible.trans hnone) htext
  | line hbelow' hvisible' hbroken hkept hbreaks htext htook =>
      exact .line (hbelow.trans hbelow') (hvisible.trans hvisible') hbroken hkept hbreaks htext
        htook

theorem nextLine_found (n : Nat) (hn : ls.length ≤ n) (hbroken : WellBroken ls)
    (hkept : PiecesKept false ls) {t : Line} (htail : Tail isComment t ls.flatten)
    (htext : s.text = t ++ ls.flatten) {fuel : Nat} (hfuel : s.text.length < fuel) :
    Found s op ls (nextLine fuel s op) := by
  induction n generalizing s t fuel ls with
  | zero =>
      obtain rfl := List.length_eq_zero_iff.mp (Nat.le_zero.mp hn)
      obtain ⟨s₁, fuel₁, htext₁, hfuel₁, hbelow₁, heq⟩ :=
        nextLine_tail op htail htext hfuel
      obtain ⟨k, rfl⟩ := Nat.exists_eq_succ_of_ne_zero (Nat.ne_zero_of_lt hfuel₁)
      rw [heq, nextLine_nil htext₁]
      exact .eof hbelow₁ rfl htext₁
  | succ n ih =>
      obtain ⟨s₁, fuel₁, htext₁, hfuel₁, hbelow₁, heq⟩ :=
        nextLine_tail op htail htext hfuel
      obtain ⟨k, rfl⟩ := Nat.exists_eq_succ_of_ne_zero (Nat.ne_zero_of_lt hfuel₁)
      rw [heq]
      cases ls with
      | nil =>
          rw [nextLine_nil htext₁]
          exact .eof hbelow₁ rfl htext₁
      | cons l ls =>
          obtain ⟨hfits, hbroken⟩ := hbroken
          have hn' : ls.length ≤ n := Nat.le_of_succ_le_succ hn
          obtain ⟨s₂, htook, hstep⟩ := nextLine_fits op hfits htext₁ k
          have hlt := htook.length_lt hfits htext₁
          rw [htext₁] at hlt
          have hfuel₂ : s₂.text.length < k := by
            rw [List.flatten_cons] at hfuel₁ hlt
            omega
          rw [hstep]
          rw [PiecesKept] at hkept
          by_cases hcomment : isComment l
          · rw [if_pos hcomment]
            rw [if_pos hcomment] at hkept
            refine (ih hn' hbroken hkept.2 (hkept.1.tail hfits) htook.text hfuel₂).of_below
              (hbelow₁.trans (htook.below hfits htext₁)) ?_
            rw [visibleLines, if_pos hcomment]
          · rw [if_neg hcomment]
            rw [if_neg hcomment] at hkept
            by_cases hhelp : helpKey <+: l
            · rw [if_pos hhelp]
              rw [if_pos hhelp] at hkept
              obtain ⟨t', ls', hbroken', hkept', htail', hvisible, hle, htext', hbelow'⟩ :=
                skipHelp_lines op hbroken hkept.2 (hkept.1.tail hfits) htook.text
                  (Nat.lt_succ_self _)
              refine (ih (hle.trans hn') hbroken' hkept' htail' htext' ?_).of_below
                ((hbelow₁.trans (htook.below hfits htext₁)).trans hbelow') ?_
              · exact (skipHelp_length _ _).trans_lt hfuel₂
              · rw [visibleLines, if_neg hcomment, if_pos hhelp, hvisible]
            · rw [if_neg hhelp]
              rw [if_neg hhelp] at hkept
              refine .line hbelow₁ ?_ ⟨hfits, hbroken⟩ hkept.2 hkept.1 htext₁ htook
              rw [visibleLines, if_neg hcomment, if_neg hhelp]

/-! ## A line in the output buffer -/

/-- The output buffer holds a string. -/
def Spelled (s : Reader) (L : Line) : Prop :=
  fetch s.obuf 1 (L.length + 1) = L ++ [Fmtio.EOS]

theorem Spelled.cell {L : Line} (h : Spelled s L) {i : Nat} {ch : Int} (hi : L[i]? = some ch) :
    s.obuf (i + 1) = ch := by
  have hlt : i < L.length := (List.getElem?_eq_some_iff.mp hi).1
  have hcell := congrArg (·[i]?) h
  simp only [getElem?_fetch, if_pos (show i < L.length + 1 by omega),
    List.getElem?_append_left hlt, hi] at hcell
  rw [Int.add_comm]
  exact Option.some.inj hcell

theorem Spelled.start {L u : Line} (h : Spelled s (L ++ u)) :
    fetch s.obuf 1 L.length = L := by
  have htake := congrArg (List.take L.length) h
  rwa [take_fetch (by rw [List.length_append]; omega), List.append_assoc,
    List.take_left' rfl] at htake

theorem Took.spelled {s' : Reader} {acc : Line} (h : Took s (acc.length + 1) c rest s')
    (hacc : fetch s.obuf 1 acc.length = acc) : Spelled s' (acc ++ c.take szLine) := by
  have hbelow : fetch s'.obuf 1 acc.length = acc := by
    rw [h.obuf, fetch_put_of_apart (.inl (by omega)), hacc]
  rw [Spelled, List.length_append, Nat.add_assoc, fetch_add, hbelow, Int.add_comm, h.stored,
    List.append_assoc]

/-- What the loop does once a piece is in the buffer. -/
def finish (fuel : Nat) (s : Reader) (maxch op : Int) : Except LongLineErr (Int × Reader) :=
  if s.obuf (op - 1) = NEWLINE then
    if op - 2 < 1 then .error .beforeBuffer
    else if s.obuf (op - 2) = BACKSLASH then joinLines fuel s maxch (op - 2)
    else .ok (op - 1, s)
  else joinLines fuel s maxch op

theorem joinLines_piece {fuel : Nat} {maxch status : Int} {s' : Reader}
    (hroom : op + szLine ≤ maxch + 1) (hnext : nextLine (s.text.length + 1) s op = (status, s'))
    (hstatus : status ≠ EOF) :
    joinLines (fuel + 1) s maxch op = finish fuel s' maxch (op + status) := by
  rw [joinLines, if_pos (by omega), hnext]
  simp only [if_neg hstatus]
  rfl

theorem joinLines_eof {fuel : Nat} {maxch : Int} {s' : Reader} (hroom : op + szLine ≤ maxch + 1)
    (hnext : nextLine (s.text.length + 1) s op = (EOF, s')) :
    joinLines (fuel + 1) s maxch op = .ok (if op = 1 then EOF else op - 1, s') := by
  rw [joinLines, if_pos (by omega), hnext]
  simp only [if_true]

variable {fuel : Nat} {maxch : Int} {u acc l : Line}

theorem Spelled.finish_escaped (h : Spelled s (u ++ [BACKSLASH, NEWLINE])) :
    finish fuel s maxch (u.length + 3) = joinLines fuel s maxch (u.length + 1) := by
  have hback : s.obuf (u.length + 1) = BACKSLASH := h.cell (by simp)
  have hnl : s.obuf ((u.length + 1 : Nat) + 1) = NEWLINE := h.cell (by simp)
  have hop : (u.length : Int) + 3 - 1 = (u.length + 1 : Nat) + 1 := by omega
  have hop' : (u.length : Int) + 3 - 2 = u.length + 1 := by omega
  rw [finish, hop, hop', hnl, hback, if_pos rfl, if_neg (by omega), if_pos rfl]

theorem Spelled.finish_newline {x : Int} (h : Spelled s (u ++ [x, NEWLINE]))
    (hx : x ≠ BACKSLASH) : finish fuel s maxch (u.length + 3) = .ok ((u.length : Int) + 2, s) := by
  have hback : s.obuf (u.length + 1) = x := h.cell (by simp)
  have hnl : s.obuf ((u.length + 1 : Nat) + 1) = NEWLINE := h.cell (by simp)
  have hop : (u.length : Int) + 3 - 1 = (u.length + 1 : Nat) + 1 := by omega
  have hop' : (u.length : Int) + 3 - 2 = u.length + 1 := by omega
  rw [finish, hop, hop', hnl, hback, if_pos rfl, if_neg (by omega), if_neg hx]
  rfl

theorem Spelled.finish_open {x : Int} (h : Spelled s (u ++ [x])) (hx : x ≠ NEWLINE) :
    finish fuel s maxch (u.length + 2) = joinLines fuel s maxch (u.length + 2) := by
  have hcell : s.obuf (u.length + 1) = x := h.cell (by simp)
  have hop : (u.length : Int) + 2 - 1 = u.length + 1 := by omega
  rw [finish, hop, hcell, if_neg hx]

theorem getline_length (h : (getline s op).1 ≠ EOF) :
    (getline s op).2.text.length < s.text.length := by
  rw [getline] at h ⊢
  split at h
  · exact absurd rfl h
  · next hline =>
      have hpos := List.length_pos_iff.mpr hline
      have htext : 0 < s.text.length := by
        rw [List.length_pos_iff]
        intro hnil
        rw [hnil] at hline
        exact hline rfl
      rw [if_neg hline, List.length_drop]
      omega

theorem getline_length_le (s : Reader) : (getline s op).2.text.length ≤ s.text.length := by
  by_cases h : (getline s op).1 = EOF
  · rw [getline] at h ⊢
    split at h
    · next hline => rw [if_pos hline]
    · simp only [EOF] at h
      omega
  · exact (getline_length h).le

theorem getline_obuf (s : Reader) {a : Int} (ha : a < op) :
    (getline s op).2.obuf a = s.obuf a := by
  rw [getline]
  split
  · rfl
  · exact put_of_not_mem (.inl ha)

theorem skipHelp_obuf (fuel : Nat) (s : Reader) {a : Int} (ha : a < op) :
    (skipHelp fuel s op).obuf a = s.obuf a := by
  induction fuel generalizing s with
  | zero => rfl
  | succ fuel ih =>
      have hget := getline_obuf s ha
      rcases hpair : getline s op with ⟨status, s'⟩
      rw [hpair] at hget
      rw [skipHelp, hpair]
      dsimp only
      split
      · exact hget
      · split
        · exact hget
        · exact (ih _).trans hget

/-- What the loop returns is the piece that it has read last. -/
inductive LastPiece (s : Reader) (op : Int) : Int × Reader → Prop
  | none {s' : Reader} (hobuf : ∀ a, a < op → s'.obuf a = s.obuf a) : LastPiece s op (EOF, s')
  | piece {s₀ s₁ : Reader} (hlength : s₀.text.length ≤ s.text.length)
      (hobuf : ∀ a, a < op → s₀.obuf a = s.obuf a)
      (htext : s₁.text = (getline s₀ op).2.text) (hsame : s₁.obuf = (getline s₀ op).2.obuf) :
      LastPiece s op ((getline s₀ op).1, s₁)

theorem LastPiece.of_skipped {s' : Reader} {r : Int × Reader} (h : LastPiece s' op r)
    (hlength : s'.text.length ≤ s.text.length)
    (hobuf : ∀ a, a < op → s'.obuf a = s.obuf a) : LastPiece s op r := by
  cases h with
  | none hobuf' => exact .none fun a ha => (hobuf' a ha).trans (hobuf a ha)
  | piece hlength' hobuf' htext hsame =>
      exact .piece (hlength'.trans hlength) (fun a ha => (hobuf' a ha).trans (hobuf a ha)) htext
        hsame

theorem nextLine_last (fuel : Nat) (s : Reader) : LastPiece s op (nextLine fuel s op) := by
  induction fuel generalizing s with
  | zero => exact .none fun _ _ => rfl
  | succ fuel ih =>
      have hlength := @getline_length_le op s
      have hobuf : ∀ a, a < op → (getline s op).2.obuf a = s.obuf a := fun a => getline_obuf s
      have hlast : ∀ s₁ : Reader, s₁.text = (getline s op).2.text →
          s₁.obuf = (getline s op).2.obuf → LastPiece s op ((getline s op).1, s₁) :=
        fun s₁ => .piece le_rfl fun _ _ => rfl
      rcases hpair : getline s op with ⟨status, s'⟩
      rw [hpair] at hlength hobuf hlast
      rw [nextLine, hpair]
      dsimp only at hlength hobuf hlast ⊢
      obtain ⟨s'', hs'', htext, hsame⟩ : ∃ s'', (if status > 0 ∧
          s'.obuf (op + status - 1) = NEWLINE then s'.countLine else s') = s'' ∧
          s''.text = s'.text ∧ s''.obuf = s'.obuf := by
        split
        · exact ⟨_, rfl, rfl, rfl⟩
        · exact ⟨_, rfl, rfl, rfl⟩
      rw [← htext] at hlength
      rw [← hsame] at hobuf
      rw [hs'']
      split
      · exact hlast s'' htext hsame
      · split
        · exact (ih s'').of_skipped hlength hobuf
        · split
          · split
            · exact (ih _).of_skipped ((skipHelp_length _ _).trans hlength)
                fun a ha => (skipHelp_obuf _ _ ha).trans (hobuf a ha)
            · exact hlast s'' htext hsame
          · exact hlast s'' htext hsame

theorem nextLine_length (fuel : Nat) (s : Reader) (h : (nextLine fuel s op).1 ≠ EOF) :
    (nextLine fuel s op).2.text.length < s.text.length := by
  have hlast := @nextLine_last op fuel s
  generalize nextLine fuel s op = r at hlast h ⊢
  cases hlast with
  | none => exact absurd rfl h
  | piece hlength hobuf htext hsame =>
      show List.length _ < _
      rw [htext]
      exact (getline_length h).trans_le hlength

theorem Fits.piece (h : Fits c rest) (hlen : szLine < c.length) :
    ∃ q x, c.take szLine = q ++ [x] ∧ x ≠ NEWLINE := by
  have hne : c.take szLine ≠ [] := by
    rw [ne_eq, List.take_eq_nil_iff, not_or]
    exact ⟨by decide, h.ne⟩
  have hdrop : c.drop szLine ≠ [] := (h.drop hlen).ne
  refine ⟨_, _, (List.dropLast_concat_getLast hne).symm, fun hnl => h.body ?_⟩
  rw [← List.take_append_drop szLine c, List.dropLast_append_of_ne_nil hdrop, ← hnl]
  exact List.mem_append_left _ (List.getLast_mem hne)

theorem Took.read_line {s' : Reader} (htook : Took s (acc.length + 1) c rest s')
    (hfits : Fits c rest) (hbreaks : AtBreaks Visible c)
    (hacc : fetch s.obuf 1 acc.length = acc)
    (hroom : ∀ k, 0 < k → k * szLine < c.length →
      ((acc.length + k * szLine + szLine : Nat) : Int) ≤ maxch)
    (hfuel : s'.text.length < fuel) :
    ∃ s'' fuel', s''.text = rest ∧ rest.length < fuel' ∧ Spelled s'' (acc ++ c) ∧
      finish fuel s' maxch ((acc.length : Int) + 1 + (c.take szLine).length) =
        finish fuel' s'' maxch ((acc.length : Int) + 1 + c.length) := by
  have hspelled := htook.spelled hacc
  induction fuel generalizing s s' c acc with
  | zero => exact absurd hfuel (Nat.not_lt_zero _)
  | succ fuel ih =>
      by_cases hlen : szLine < c.length
      · obtain ⟨q, x, hpiece, hx⟩ := hfits.piece hlen
        obtain ⟨⟨hcomment, hhelp⟩, hbreaks'⟩ := hbreaks.drop hlen
        have hfits' := hfits.drop hlen
        have hlength : q.length + 1 = szLine := by
          have := congrArg List.length hpiece
          rw [List.length_take, min_eq_left hlen.le, List.length_append] at this
          exact this.symm
        have hacc' : (acc ++ c.take szLine).length = acc.length + szLine := by
          rw [List.length_append, List.length_take, min_eq_left hlen.le]
        have hstart : fetch s'.obuf 1 (acc ++ c.take szLine).length = acc ++ c.take szLine :=
          @Spelled.start s' _ [] (by rwa [List.append_nil])
        have hroom' : ∀ k, 0 < k → k * szLine < (c.drop szLine).length →
            (((acc ++ c.take szLine).length + k * szLine + szLine : Nat) : Int) ≤ maxch := by
          intro k hk hlt
          rw [List.length_drop] at hlt
          have hlt' : (k + 1) * szLine < c.length := by
            rw [Nat.add_one_mul]
            exact Nat.add_lt_of_lt_sub hlt
          have := hroom (k + 1) k.succ_pos hlt'
          rw [hacc', Nat.add_assoc acc.length, Nat.add_comm szLine, ← Nat.add_one_mul]
          exact this
        obtain ⟨s₂, htook₂, hnext⟩ := nextLine_fits
          ((acc ++ c.take szLine).length + 1) hfits' htook.text s'.text.length
        rw [if_neg hcomment, if_neg hhelp] at hnext
        have hlt := htook₂.length_lt hfits' htook.text
        have hopen : finish (fuel + 1) s' maxch ((acc.length : Int) + 1 + (c.take szLine).length) =
            joinLines (fuel + 1) s' maxch ((acc ++ c.take szLine).length + 1) := by
          rw [hpiece, ← List.append_assoc] at hspelled ⊢
          have hop : ((acc.length : Int) + 1 + (q ++ [x]).length) = (acc ++ q).length + 2 := by
            rw [List.length_append, List.length_append, List.length_singleton]
            omega
          have hop' : (((acc ++ q ++ [x]).length : Int) + 1) = (acc ++ q).length + 2 := by
            rw [List.length_append, List.length_singleton]
            omega
          rw [hop, hop', hspelled.finish_open hx]
        obtain ⟨s'', fuel', htext, hfuel', hread, heq⟩ :=
          ih htook₂ hfits' hbreaks' hstart hroom' (by omega) (htook₂.spelled hstart)
        refine ⟨s'', fuel', htext, hfuel', ?_, ?_⟩
        · rwa [List.append_assoc, List.take_append_drop] at hread
        · have hend : (((acc ++ c.take szLine).length : Int) + 1 + (c.drop szLine).length) =
              acc.length + 1 + c.length := by
            rw [hacc', List.length_drop]
            omega
          have hfirst := hroom 1 one_pos (by rwa [Nat.one_mul])
          rw [hopen, joinLines_piece (by rw [hacc']; omega) hnext (by simp only [EOF]; omega),
            heq, hend]
      · have hshort : c.length ≤ szLine := not_lt.mp hlen
        rw [List.take_of_length_le hshort] at hspelled ⊢
        have htext := htook.text
        rw [List.drop_eq_nil_of_le hshort, List.nil_append] at htext
        exact ⟨s', fuel + 1, htext, by rwa [htext] at hfuel, hspelled, rfl⟩

/-! ## The room for a line -/

theorem joined_leads {acc : Line} (lines : List Line) (hacc : acc ≠ []) :
    ∃ L Ls, joined acc lines = L :: Ls ∧ acc.length ≤ L.length := by
  induction lines generalizing acc with
  | nil => exact ⟨acc, [], by rw [joined, if_neg hacc], le_rfl⟩
  | cons l lines ih =>
      have hmore : ∀ l' : Line, ∃ L Ls, joined (acc ++ l') lines = L :: Ls ∧
          acc.length ≤ L.length := by
        intro l'
        obtain ⟨L, Ls, heq, hle⟩ := @ih (acc ++ l') (by simp [hacc])
        rw [List.length_append] at hle
        exact ⟨L, Ls, heq, by omega⟩
      rw [joined]
      split
      · exact hmore _
      · split
        · exact ⟨_, _, rfl, by rw [List.length_append]; omega⟩
        · exact hmore _

/-- The text does not end here, so something is joined to the part that is there. -/
theorem joined_longer {acc : Line} {lines : List Line} (hne : ∀ l ∈ lines, l ≠ [])
    (hkept : EndKept acc lines) (hacc : acc ≠ []) :
    ∃ L Ls, joined acc lines = L :: Ls ∧ acc.length < L.length := by
  induction lines generalizing acc with
  | nil => exact absurd hkept hacc
  | cons l lines ih =>
      obtain ⟨hl, hlines⟩ := List.forall_mem_cons.mp hne
      have hpos := List.length_pos_iff.mpr hl
      rw [EndKept] at hkept
      rw [joined]
      split
      · next hescaped =>
          rw [if_pos hescaped] at hkept
          obtain ⟨L, Ls, heq, hlt⟩ := ih hlines hkept (by simp [hacc])
          rw [List.length_append] at hlt
          exact ⟨L, Ls, heq, by omega⟩
      · split
        · exact ⟨_, _, rfl, by rw [List.length_append]; omega⟩
        · obtain ⟨L, Ls, heq, hle⟩ := @joined_leads (acc ++ l) lines (by simp [hacc])
          rw [List.length_append] at hle
          exact ⟨L, Ls, heq, by omega⟩

theorem isEscaped.eq_append (h : isEscaped l) : l = unescaped l ++ [BACKSLASH, NEWLINE] := by
  obtain ⟨t, rfl⟩ := h
  rw [unescaped, List.length_append]
  exact congrArg (· ++ _) (List.take_left' rfl).symm

theorem piece_room {lines : List Line} (hsize : (szLine : Int) ≤ maxch)
    (hroom : ∀ L ∈ joined acc (l :: lines), ((L.length + szLine : Nat) : Int) ≤ maxch)
    (hkept : EndKept acc (l :: lines) ∨ l.length ≤ szLine) (hne : ∀ l ∈ lines, l ≠ []) {k : Nat}
    (hk : k * szLine < l.length) :
    ((acc.length + k * szLine + szLine : Nat) : Int) ≤ maxch := by
  by_cases hfirst : k = 0
  · subst hfirst
    rw [Nat.zero_mul, Nat.add_zero]
    rcases eq_or_ne acc [] with rfl | hacc
    · rwa [List.length_nil, Nat.zero_add]
    · obtain ⟨L, Ls, heq, hle⟩ := joined_leads (l :: lines) hacc
      have := hroom L (by rw [heq]; exact List.mem_cons_self)
      omega
  · have hlong : szLine ≤ k * szLine := Nat.le_mul_of_pos_left _ (Nat.pos_of_ne_zero hfirst)
    replace hkept := hkept.resolve_right (by omega)
    rw [EndKept] at hkept
    rw [joined] at hroom
    by_cases hescaped : isEscaped l
    · rw [if_pos hescaped] at hroom hkept
      have hlen := congrArg List.length hescaped.eq_append
      rw [List.length_append] at hlen
      have hacc : acc ++ unescaped l ≠ [] := by
        rw [← List.length_pos_iff, List.length_append]
        have hsz : 2 < szLine := by decide
        simp only [List.length_cons, List.length_nil] at hlen
        omega
      obtain ⟨L, Ls, heq, hlt⟩ := joined_longer hne hkept hacc
      have := hroom L (by rw [heq]; exact List.mem_cons_self)
      rw [List.length_append] at hlt
      simp only [List.length_cons, List.length_nil] at hlen
      omega
    · rw [if_neg hescaped] at hroom
      split at hroom
      · have := hroom _ List.mem_cons_self
        rw [List.length_append] at this
        omega
      · have hacc : acc ++ l ≠ [] := by
          rw [← List.length_pos_iff, List.length_append]
          omega
        obtain ⟨L, Ls, heq, hle⟩ := joined_leads lines hacc
        have := hroom L (by rw [heq]; exact List.mem_cons_self)
        rw [List.length_append] at hle
        omega

/-! ## Successive calls -/

theorem visibleLines_ne (hbroken : WellBroken ls) (inside : Bool) :
    ∀ l ∈ visibleLines inside ls, l ≠ [] := by
  induction ls generalizing inside with
  | nil => cases inside <;> exact nofun
  | cons c ls ih =>
      obtain ⟨hfits, hbroken⟩ := hbroken
      cases inside with
      | true => exact ih hbroken _
      | false =>
          rw [visibleLines]
          split
          · exact ih hbroken _
          · split
            · exact ih hbroken _
            · exact List.forall_mem_cons.mpr ⟨hfits.ne, ih hbroken _⟩

/-- A reader at the start of a line, all of which are read as they are meant. -/
structure AtLine (s : Reader) (acc : Line) (ls : List Line) : Prop where
  text : s.text = ls.flatten
  broken : WellBroken ls
  pieces : PiecesKept false ls
  blanks : BlanksKept acc (visibleLines false ls)

/-- What a call comes to: at the end of a text that ends after an escaped newline there is no EOS
after the line. -/
inductive Called (s : Reader) (acc : Line) (ls : List Line) :
    Except LongLineErr (Int × Reader) → Prop
  | eof {s' : Reader} (hnone : joined acc (visibleLines false ls) = [])
      (hend : EndKept acc (visibleLines false ls)) : Called s acc ls (.ok (EOF, s'))
  | line {s' : Reader} {L : Line} {ls' : List Line}
      (hline : joined acc (visibleLines false ls) = L :: joined [] (visibleLines false ls'))
      (hspelled : Spelled s' L) (hnext : AtLine s' [] ls')
      (hshort : (∀ l ∈ visibleLines false ls, l.length ≤ szLine) →
        ∀ l ∈ visibleLines false ls', l.length ≤ szLine)
      (htext : Fmtio.EOS ∉ s.text → Fmtio.EOS ∉ s'.text)
      (hend : EndKept [] (visibleLines false ls') ↔ EndKept acc (visibleLines false ls)) :
      Called s acc ls (.ok ((L.length : Int), s'))
  | torn {s' : Reader} {L : Line} (hline : joined acc (visibleLines false ls) = [L])
      (hend : ¬ EndKept acc (visibleLines false ls))
      (hcell : Fmtio.EOS ∉ s.text → s'.obuf (L.length + 1) ≠ Fmtio.EOS) :
      Called s acc ls (.ok ((L.length : Int), s'))

theorem WellBroken.eq_nil (h : WellBroken ls) (hflat : ls.flatten = []) : ls = [] := by
  cases ls with
  | nil => rfl
  | cons l ls => exact absurd (List.append_eq_nil_iff.mp hflat).1 h.1.ne

/-- The last line of a text without a newline is returned at the end of the text. -/
theorem joinLines_end (hu : u ≠ []) (htext : s.text = [])
    (hroom : ((u.length + szLine : Nat) : Int) ≤ maxch) (hfuel : 0 < fuel) :
    joinLines fuel s maxch (u.length + 1) = .ok ((u.length : Int), s) := by
  obtain ⟨n, rfl⟩ := Nat.exists_eq_succ_of_ne_zero hfuel.ne'
  have hpos := List.length_pos_iff.mpr hu
  rw [joinLines_eof (by omega) (nextLine_nil htext _), if_neg (by omega)]
  congr 2
  omega

theorem Called.of_joined {s₁ : Reader} {acc₁ : Line} {ls₁ : List Line}
    {r : Except LongLineErr (Int × Reader)} (h : Called s₁ acc₁ ls₁ r)
    (heq : joined acc (visibleLines false ls) = joined acc₁ (visibleLines false ls₁))
    (hshort : (∀ l ∈ visibleLines false ls, l.length ≤ szLine) →
      ∀ l ∈ visibleLines false ls₁, l.length ≤ szLine)
    (htext : Fmtio.EOS ∉ s.text → Fmtio.EOS ∉ s₁.text)
    (hend : EndKept acc₁ (visibleLines false ls₁) ↔ EndKept acc (visibleLines false ls)) :
    Called s acc ls r := by
  cases h with
  | eof hnone hend₁ => exact .eof (heq.trans hnone) (hend.mp hend₁)
  | line hline hspelled hnext hshort₁ htext₁ hend₁ =>
      exact .line (heq.trans hline) hspelled hnext (fun h => hshort₁ (hshort h))
        (fun h => htext₁ (htext h)) (hend₁.trans hend)
  | torn hline hend₁ hcell =>
      exact .torn (heq.trans hline) (fun h => hend₁ (hend.mpr h)) fun h => hcell (htext h)

theorem BlanksKept.before_newline {lines : List Line} (h : BlanksKept acc (l :: lines))
    (hescaped : ¬ isEscaped l) (hnl : l.getLast? = some NEWLINE) :
    ∃ u x, acc ++ l = u ++ [x, NEWLINE] ∧ x ≠ BACKSLASH := by
  obtain ⟨t, rfl⟩ := List.getLast?_eq_some_iff.mp hnl
  rcases t.eq_nil_or_concat' with rfl | ⟨t, x, rfl⟩
  · obtain ⟨hacc, hlast⟩ := h.1 rfl
    obtain ⟨a, x, rfl⟩ := (acc.eq_nil_or_concat').resolve_left hacc
    exact ⟨a, x, by simp, fun hx => hlast (by simp [hx])⟩
  · refine ⟨acc ++ t, x, by simp, ?_⟩
    rintro rfl
    exact hescaped ⟨t, by simp⟩

theorem called_finish {s₁ : Reader} {ls₁ : List Line}
    (hvisible : visibleLines false ls = l :: visibleLines false ls₁)
    (hfits : Fits l ls₁.flatten) (hbroken : WellBroken ls₁) (hkept : PiecesKept false ls₁)
    (hblanks : BlanksKept acc (l :: visibleLines false ls₁))
    (hroom : ∀ L ∈ joined acc (l :: visibleLines false ls₁),
      ((L.length + szLine : Nat) : Int) ≤ maxch)
    (htext : s₁.text = ls₁.flatten) (hspelled : Spelled s₁ (acc ++ l))
    (heos : Fmtio.EOS ∉ s.text → Fmtio.EOS ∉ s₁.text) (hfuel : s₁.text.length < fuel)
    (hagain : isEscaped l → AtLine s₁ (acc ++ unescaped l) ls₁ →
      s₁.obuf ((acc ++ unescaped l).length + 1) = BACKSLASH →
      Called s₁ (acc ++ unescaped l) ls₁
        (joinLines fuel s₁ maxch ((acc ++ unescaped l).length + 1))) :
    Called s acc ls (finish fuel s₁ maxch ((acc.length : Int) + 1 + l.length)) := by
  have hshort : (∀ l ∈ visibleLines false ls, l.length ≤ szLine) →
      ∀ l ∈ visibleLines false ls₁, l.length ≤ szLine := by
    intro h l hl
    exact h l (by rw [hvisible]; exact List.mem_cons_of_mem _ hl)
  by_cases hescaped : isEscaped l
  · have hl := hescaped.eq_append
    have hafter : AtLine s₁ (acc ++ unescaped l) ls₁ := by
      refine ⟨htext, hbroken, hkept, ?_⟩
      have := hblanks.2
      rwa [if_pos hescaped] at this
    have hop : ((acc.length : Int) + 1 + l.length) = (acc ++ unescaped l).length + 3 := by
      rw [hl, List.length_append, List.length_append, ← hl]
      simp only [List.length_cons, List.length_nil]
      omega
    rw [hl, ← List.append_assoc] at hspelled
    rw [hop, hspelled.finish_escaped]
    refine (hagain hescaped hafter (hspelled.cell (by simp))).of_joined ?_ hshort heos ?_
    · rw [hvisible, joined, if_pos hescaped]
    · rw [hvisible, EndKept, if_pos hescaped]
  · by_cases hnl : l.getLast? = some NEWLINE
    · obtain ⟨u, x, heq, hx⟩ := hblanks.before_newline hescaped hnl
      have hlen := congrArg List.length heq
      rw [List.length_append, List.length_append] at hlen
      simp only [List.length_cons, List.length_nil] at hlen
      have hop : ((acc.length : Int) + 1 + l.length) = u.length + 3 := by omega
      have hstatus : ((u.length : Int) + 2) = (acc ++ l).length := by
        rw [List.length_append]
        omega
      have hbefore : Spelled s₁ (u ++ [x, NEWLINE]) := by rwa [← heq]
      have hnext : AtLine s₁ [] ls₁ := by
        refine ⟨htext, hbroken, hkept, ?_⟩
        have := hblanks.2
        rw [if_neg hescaped] at this
        exact this hnl
      rw [hop, hbefore.finish_newline hx, hstatus]
      refine .line ?_ hspelled hnext hshort heos ?_
      · rw [hvisible, joined, if_neg hescaped, if_pos hnl]
      · rw [hvisible, EndKept, if_neg hescaped]
        exact ⟨fun h _ => h, fun h => h hnl⟩
    · obtain ⟨t, x, rfl⟩ := (l.eq_nil_or_concat').resolve_left hfits.ne
      have hx : x ≠ NEWLINE := fun hx => hnl (by simp [hx])
      have hend : ls₁.flatten = [] := hfits.ends.resolve_left hnl
      obtain rfl := hbroken.eq_nil hend
      have hjoined : joined acc (visibleLines false ls) = [acc ++ (t ++ [x])] := by
        rw [hvisible, joined, if_neg hescaped, if_neg hnl]
        simp [visibleLines, joined]
      rw [← hvisible, hjoined] at hroom
      have hop : ((acc.length : Int) + 1 + (t ++ [x]).length) = (acc ++ t).length + 2 := by
        rw [List.length_append, List.length_append, List.length_singleton]
        omega
      have hop' : (((acc ++ t).length : Int) + 2) = (acc ++ (t ++ [x])).length + 1 := by
        rw [List.length_append, List.length_append, List.length_append, List.length_singleton]
        omega
      have hassoc : Spelled s₁ (acc ++ t ++ [x]) := by rwa [List.append_assoc]
      have hopen : finish fuel s₁ maxch ((acc ++ t).length + 2) =
          joinLines fuel s₁ maxch ((acc ++ t).length + 2) := hassoc.finish_open hx
      rw [hop, hopen, hop', joinLines_end (by simp) htext
        (hroom _ List.mem_cons_self) (by omega)]
      refine @Called.line s acc ls s₁ _ [] hjoined hspelled ⟨htext, trivial, trivial, trivial⟩
        hshort heos ?_
      rw [hvisible, EndKept, if_neg hescaped]
      exact ⟨fun _ h => absurd h hnl, fun _ => rfl⟩

theorem AtLine.called (h : AtLine s acc ls) (hacc : fetch s.obuf 1 acc.length = acc)
    (hcell : acc ≠ [] → s.obuf (acc.length + 1) ≠ Fmtio.EOS) (hsize : (szLine : Int) ≤ maxch)
    (hroom : ∀ L ∈ joined acc (visibleLines false ls), ((L.length + szLine : Nat) : Int) ≤ maxch)
    (hend : EndKept acc (visibleLines false ls) ∨ ∀ l ∈ visibleLines false ls, l.length ≤ szLine)
    (hfuel : s.text.length < fuel) :
    Called s acc ls (joinLines fuel s maxch (acc.length + 1)) := by
  induction hlen : s.text.length using Nat.strong_induction_on
    generalizing s acc ls fuel with
  | _ length ih =>
      subst hlen
      obtain ⟨n, rfl⟩ := Nat.exists_eq_succ_of_ne_zero (Nat.ne_zero_of_lt hfuel)
      have hlength := @nextLine_length ((acc.length : Int) + 1) (s.text.length + 1) s
      have hfound : Found s ((acc.length : Int) + 1) ls _ :=
        nextLine_found ls.length le_rfl h.broken h.pieces (.inl rfl) h.text
          (Nat.lt_succ_self s.text.length)
      generalize hnext : nextLine (s.text.length + 1) s ((acc.length : Int) + 1) = r
        at hfound hlength
      cases hfound with
      | eof hbelow hnone htext =>
          rcases eq_or_ne acc [] with rfl | hne
          · rw [joinLines_eof (by simp only [List.length_nil]; omega) hnext, if_pos (by simp)]
            exact .eof (by rw [hnone]; rfl) (by rw [hnone]; rfl)
          · have hjoined : joined acc (visibleLines false ls) = [acc] := by
              rw [hnone, joined, if_neg hne]
            have hpos := List.length_pos_iff.mpr hne
            rw [hjoined] at hroom
            have hacch := hroom acc List.mem_cons_self
            rw [joinLines_eof (by omega) hnext, if_neg (by omega), Int.add_sub_cancel]
            refine .torn hjoined ?_ fun hno => hbelow.cell hno (hcell hne)
            rw [hnone]
            exact hne
      | @line s₁ s' l ls' hbelow hvisible hbroken hkept hbreaks htext₁ htook =>
          obtain ⟨hfits, hbroken'⟩ := hbroken
          have hblanks := h.blanks
          rw [hvisible] at hblanks hroom hend
          have hroom' : ∀ k, k * szLine < l.length →
              ((acc.length + k * szLine + szLine : Nat) : Int) ≤ maxch :=
            fun k hk => piece_room hsize hroom
              (hend.imp_right fun hshort => hshort l List.mem_cons_self)
              (visibleLines_ne hbroken' false) hk
          have hfirst := hroom' 0 (by
            rw [Nat.zero_mul]
            exact List.length_pos_iff.mpr hfits.ne)
          have hacc₁ : fetch s₁.obuf 1 acc.length = acc := by
            refine (fetch_congr fun j hj => ?_).trans hacc
            exact hbelow.obuf _ (by omega)
          have heof : ((l.take szLine).length : Int) ≠ EOF := by
            simp only [EOF]
            omega
          have hshorter : s'.text.length < s.text.length := hlength heof
          have heos : Fmtio.EOS ∉ s.text → Fmtio.EOS ∉ s'.text :=
            fun hno => (hbelow.trans (htook.below hfits htext₁)).text hno
          obtain ⟨s'', fuel', htext, hfuel', hspelled, heq⟩ :=
            htook.read_line hfits hbreaks hacc₁ (fun k _ => hroom' k)
              (hshorter.trans_le (Nat.le_of_lt_succ hfuel))
          have htext' := htook.text
          rw [joinLines_piece (by omega) hnext heof, heq]
          refine called_finish hvisible hfits hbroken' hkept hblanks hroom htext hspelled
            (fun hno => ?_) (by rwa [htext]) fun hescaped hafter hback => ?_
          · rw [htext]
            have := heos hno
            rw [htext', List.mem_append, not_or] at this
            exact this.2
          · have hl := hescaped.eq_append
            refine ih s''.text.length ?_ hafter ?_ (fun _ => ?_) ?_ ?_ (by rwa [htext]) rfl
            · rw [htext]
              rw [htext', List.length_append] at hshorter
              omega
            · rw [hl, ← List.append_assoc] at hspelled
              exact hspelled.start
            · rw [hback]
              decide
            · rw [joined, if_pos hescaped] at hroom
              exact hroom
            · rw [EndKept, if_pos hescaped] at hend
              exact hend.imp_right fun hshort l hl => hshort l (List.mem_cons_of_mem _ hl)

theorem AtLine.returns (h : AtLine s [] ls) (hsize : (szLine : Int) ≤ maxch)
    (hroom : ∀ L ∈ joined [] (visibleLines false ls), ((L.length + szLine : Nat) : Int) ≤ maxch)
    (hend : EndKept [] (visibleLines false ls)) :
    Returns maxch s (joined [] (visibleLines false ls)) := by
  generalize hlines : joined [] (visibleLines false ls) = lines at hroom ⊢
  induction lines generalizing s ls with
  | nil =>
      have hcalled := h.called rfl (absurd rfl) hsize (by rw [hlines]; exact hroom) (.inl hend)
        (Nat.lt_succ_self _)
      generalize hres : joinLines s.text.length.succ s maxch _ = res at hcalled
      cases hcalled with
      | eof hnone => exact ⟨_, hres⟩
      | line hline => exact absurd (hlines.symm.trans hline) nofun
      | torn _ htorn => exact absurd hend htorn
  | cons L lines ih =>
      have hcalled := h.called rfl (absurd rfl) hsize (by rw [hlines]; exact hroom) (.inl hend)
        (Nat.lt_succ_self _)
      generalize hres : joinLines s.text.length.succ s maxch _ = res at hcalled
      cases hcalled with
      | eof hnone => exact absurd (hlines.symm.trans hnone) nofun
      | line hline hspelled hnext _ _ hend' =>
          obtain ⟨rfl, rfl⟩ := List.cons.inj (hlines.symm.trans hline)
          exact ⟨_, hres, hspelled,
            ih hnext (hend'.mpr hend) rfl fun L hL => hroom L (List.mem_cons_of_mem _ hL)⟩
      | torn _ htorn => exact absurd hend htorn

end Iraf.Fio.LongLine
