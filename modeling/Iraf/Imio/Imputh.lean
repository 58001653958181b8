import Iraf.Fmtio.Printf
import Iraf.Imio.MaskHeader
import Iraf.Lib.Words

/-!
# History records of an image header

`imputh.x` and `idbfstr.x`: a text is filtered, broken into fields of at most 70
chars, and appended to the user area as cards.
-/

namespace Iraf.Imio

open Fmtio Fmtio.LongText TextLines Words

def lenHiststr : Nat := 70
def idbSzfitskey : Nat := 8
def idbLenstringrecord : Nat := 80
def szFname : Nat := 511
def szLine : Nat := 1023

def kwHistory : List Char := ['H', 'I', 'S', 'T', 'O', 'R', 'Y']
def kwComment : List Char := ['C', 'O', 'M', 'M', 'E', 'N', 'T']
def kwBlank : List Char := List.replicate idbSzfitskey ' '

/-! ## Filtering -/

/-- `idb_filstr`. -/
def idbFilstr : List Char → Nat → List Char
  | [], _ => []
  | ch :: s1, maxch =>
      let ch := if ch = '\t' ∨ ch = newline then ' ' else ch
      if !isPrint ch then idbFilstr s1 maxch
      else if maxch ≤ 1 then [ch]
      else ch :: idbFilstr s1 (maxch - 1)

/-- Tabs and newlines as blanks, and no other char that is not printed. -/
def filtered (text : List Char) : List Char :=
  (text.map fun ch => if ch = '\t' ∨ ch = newline then ' ' else ch).filter isPrint

theorem idbFilstr_eq {text : List Char} {maxch : Nat} (h : text.length ≤ maxch) :
    idbFilstr text maxch = filtered text := by
  induction text generalizing maxch with
  | nil => rfl
  | cons ch text ih =>
      rw [List.length_cons] at h
      simp only [idbFilstr, filtered, List.map_cons, List.filter_cons]
      generalize (if ch = '\t' ∨ ch = newline then ' ' else ch) = d
      by_cases hd : isPrint d = true
      · rw [hd, if_pos rfl, if_neg (by decide)]
        by_cases hmax : maxch ≤ 1
        · obtain rfl : text = [] := List.length_eq_zero_iff.1 (by omega)
          rw [if_pos hmax]
          rfl
        · rw [if_neg hmax, ih (by omega)]
          rfl
      · rw [if_pos (by simpa using hd), if_neg hd]
        exact ih (by omega)

theorem isPrint_of_mem_filtered {text : List Char} {ch : Char} (h : ch ∈ filtered text) :
    isPrint ch = true :=
  (List.mem_filter.1 h).2

/-! ## Breaking a text -/

/-- The chars copied to `outstr`, the text from `ip` on, the number of chars up to
the last blank and the text after it. -/
structure Copied where
  outstr : List Char
  ip : List Char
  outLastBlank : Nat
  inLastBlank : List Char

/-- One turn of the loop over `op`. -/
def Copied.turn (s : Copied) (ch : Char) (ip : List Char) : Copied :=
  let outstr := s.outstr ++ [ch]
  if isWhite ch then ⟨outstr, ip, outstr.length, ip⟩
  else { s with outstr := outstr, ip := ip }

def copyField : Nat → Copied → Copied
  | 0, s => s
  | n + 1, s =>
      match s.ip with
      | [] => s
      | ch :: ip => copyField n (s.turn ch ip)

/-- A field, and the text of the next one. -/
def breakField (instr : List Char) : List Char × List Char :=
  let s := copyField lenHiststr ⟨[], instr, lenHiststr, instr.drop lenHiststr⟩
  match s.ip with
  | [] => (s.outstr, [])
  | ch :: _ =>
      if isWhite ch then (s.outstr, s.ip.dropWhile isWhite)
      else (s.outstr.take s.outLastBlank, s.inLastBlank.dropWhile isWhite)

/-- The loop over `ip`; `none` if it has not come to the EOS. -/
def breakLoop : Nat → List Char → Option (List (List Char))
  | _, [] => some []
  | 0, _ :: _ => none
  | fuel + 1, ch :: instr =>
      (breakLoop fuel (breakField (ch :: instr)).2).map ((breakField (ch :: instr)).1 :: ·)

/-- The text in one field, or in as many as are needed. -/
def historyFields (instr : List Char) : Option (List (List Char)) :=
  if instr.length ≤ lenHiststr then some [instr] else breakLoop (instr.length + 1) instr

/-- What is known of the last blank in the loop over `op`. -/
structure Copied.Marks (instr : List Char) (s : Copied) : Prop where
  text : s.outstr ++ s.ip = instr
  mark : ((∀ c ∈ s.outstr, isWhite c = false) ∧ s.outLastBlank = lenHiststr ∧
      s.inLastBlank = instr.drop lenHiststr) ∨
    ∃ before c after, s.outstr = before ++ c :: after ∧ isWhite c = true ∧
      s.outLastBlank = before.length + 1 ∧ s.inLastBlank = after ++ s.ip

theorem Copied.Marks.turn {instr ip : List Char} {s : Copied} {ch : Char}
    (h : s.Marks instr) (hip : s.ip = ch :: ip) : (s.turn ch ip).Marks instr := by
  have htext : (s.outstr ++ [ch]) ++ ip = instr := by
    rw [List.append_assoc, ← h.text, hip]
    rfl
  unfold Copied.turn
  by_cases hch : isWhite ch = true
  · rw [if_pos hch]
    exact ⟨htext, .inr ⟨s.outstr, ch, [], rfl, hch, List.length_append, rfl⟩⟩
  · rw [if_neg hch]
    refine ⟨htext, ?_⟩
    rcases h.mark with ⟨hno, hlast⟩ | ⟨before, c, after, hs, hc, hlast, hin⟩
    · refine .inl ⟨fun c hmem => ?_, hlast⟩
      rcases List.mem_append.1 hmem with hmem | hmem
      · exact hno c hmem
      · rw [List.mem_singleton.1 hmem]
        simpa using hch
    · refine .inr ⟨before, c, after ++ [ch], ?_, hc, hlast, ?_⟩
      · dsimp only
        rw [hs, List.append_assoc, List.cons_append]
      · dsimp only
        rw [hin, hip, List.append_assoc, List.singleton_append]

theorem Copied.turn_outstr (s : Copied) (ch : Char) (ip : List Char) :
    (s.turn ch ip).outstr = s.outstr ++ [ch] ∧ (s.turn ch ip).ip = ip := by
  unfold Copied.turn
  split <;> exact ⟨rfl, rfl⟩

theorem copyField_marks {instr : List Char} {s : Copied} (h : s.Marks instr) (n : Nat) :
    (copyField n s).Marks instr ∧ (copyField n s).outstr = s.outstr ++ s.ip.take n ∧
      (copyField n s).ip = s.ip.drop n := by
  induction n generalizing s with
  | zero => exact ⟨h, by simp [copyField], rfl⟩
  | succ n ih =>
      rw [copyField]
      cases hip : s.ip with
      | nil => exact ⟨h, by simp, hip⟩
      | cons ch ip =>
          obtain ⟨hmarks, hout, hrest⟩ := ih (h.turn hip)
          obtain ⟨hturn, hturn'⟩ := s.turn_outstr ch ip
          refine ⟨hmarks, ?_, ?_⟩
          · rw [hout, hturn, hturn', List.append_assoc]
            rfl
          · rw [hrest, hturn']
            rfl

/-- One turn of the loop over `ip`: a field, and a shorter text with the other
words. -/
theorem breakField_cut {instr : List Char} (hne : instr ≠ []) :
    (breakField instr).1 <+: instr ∧ (breakField instr).1.length ≤ lenHiststr ∧
      (breakField instr).2.length < instr.length ∧ (breakField instr).2 <:+ instr ∧
      ∀ vs, Cut lenHiststr (words isWhite (breakField instr).2) vs →
        Cut lenHiststr (words isWhite instr)
          (words isWhite (breakField instr).1 ++ vs) := by
  have hpos := List.length_pos_iff.2 hne
  have hstart : Copied.Marks instr ⟨[], instr, lenHiststr, instr.drop lenHiststr⟩ :=
    ⟨rfl, .inl ⟨by simp, rfl, rfl⟩⟩
  obtain ⟨⟨htext, hmark⟩, hout, hip⟩ := copyField_marks hstart lenHiststr
  rw [breakField]
  generalize copyField lenHiststr _ = s at htext hmark hout hip ⊢
  obtain ⟨field, rest, outLast, inLast⟩ := s
  dsimp only at htext hmark hout hip ⊢
  have hlen : field.length = min lenHiststr instr.length := by
    rw [hout, List.nil_append, List.length_take]
  have hfield : field.length ≤ lenHiststr := hlen.trans_le (min_le_left _ _)
  have hfill : 0 < field.length := by
    rw [hlen]
    exact lt_min (by decide) hpos
  cases rest with
  | nil =>
      obtain rfl : field = instr := by simpa using htext
      refine ⟨List.prefix_rfl, hfield, hpos, List.nil_suffix, fun vs hvs => ?_⟩
      simpa using hvs.append_left (words isWhite field)
  | cons ch rest =>
      subst htext
      have hskip := (List.dropWhile_suffix (l := ch :: rest) isWhite)
      by_cases hch : isWhite ch = true
      · simp only [if_pos hch]
        refine ⟨List.prefix_append _ _, hfield, ?_, hskip.trans (List.suffix_append _ _),
          fun vs hvs => ?_⟩
        · rw [List.length_append]
          exact (hskip.length_le).trans_lt (by omega)
        · rw [words_append_cons hch, ← words_cons_blank hch rest,
            ← words_dropWhile (ch :: rest)]
          exact hvs.append_left _
      · simp only [if_neg hch]
        rcases hmark with ⟨hno, hlast, hin⟩ | ⟨before, c, after, hs, hc, hlast, hin⟩
        · have hfull : field.length = lenHiststr := by
            have := congrArg List.length hip
            rw [List.length_drop, List.length_cons] at this
            omega
          have hrest : inLast.dropWhile isWhite = ch :: rest := by
            rw [hin, ← hip, List.dropWhile_cons_of_neg hch]
          obtain ⟨w, ws, hw, hright, hleft⟩ :=
            words_append_word hno (by simpa using hch) rest
          rw [hlast, hrest, List.take_of_length_le hfield]
          refine ⟨List.prefix_append _ _, hfield, ?_, List.suffix_append _ _, fun vs hvs => ?_⟩
          · rw [List.length_append]
            omega
          · rw [hleft, words_eq_singleton hno (List.length_pos_iff.1 hfill)]
            refine .piece (List.length_pos_iff.1 hfill) hw ?_ (hright ▸ hvs)
            rw [List.length_append, hfull]
            exact Nat.lt_add_of_pos_right (List.length_pos_iff.2 hw)
        · have htake : field.take outLast = before ++ [c] := by
            rw [hs, hlast, List.append_cons]
            exact List.take_left' List.length_append
          have hwords : words isWhite (field ++ ch :: rest) =
              words isWhite (before ++ [c]) ++ words isWhite inLast := by
            rw [hs, List.append_assoc, List.cons_append, words_append_cons hc,
              words_append_cons hc, words_nil, List.append_nil, hin]
          have hafter := List.dropWhile_suffix (l := inLast) isWhite
          have hsuffix : inLast <:+ field ++ ch :: rest := by
            rw [hs, List.append_assoc, List.cons_append, hin]
            exact (List.suffix_cons c _).trans (List.suffix_append before _)
          refine ⟨?_, ?_, ?_, hafter.trans hsuffix, fun vs hvs => ?_⟩
          · exact (List.take_prefix _ _).trans (List.prefix_append _ _)
          · exact (List.length_take_le' _ _).trans hfield
          · refine hafter.length_le.trans_lt ?_
            rw [hin, hs]
            simp only [List.length_append, List.length_cons]
            omega
          · rw [htake, hwords, ← words_dropWhile inLast]
            exact hvs.append_left _

theorem breakLoop_cut {fuel : Nat} {instr : List Char} (h : instr.length < fuel) :
    ∃ fields, breakLoop fuel instr = some fields ∧
      (∀ f ∈ fields, f.length ≤ lenHiststr ∧ ∀ ch ∈ f, ch ∈ instr) ∧
      Cut lenHiststr (words isWhite instr) (fields.flatMap (words isWhite)) := by
  induction fuel generalizing instr with
  | zero => exact absurd h (Nat.not_lt_zero _)
  | succ fuel ih =>
      rcases eq_or_ne instr [] with rfl | hne
      · exact ⟨[], rfl, by simp, .nil⟩
      · obtain ⟨hfield, hlen, hshort, hrest, hcut⟩ := breakField_cut hne
        obtain ⟨fields, hloop, hfields, hwords⟩ := ih (hshort.trans_le (Nat.le_of_lt_succ h))
        refine ⟨(breakField instr).1 :: fields, ?_, ?_, hcut _ hwords⟩
        · cases instr with
          | nil => exact absurd rfl hne
          | cons ch instr =>
              rw [breakLoop, hloop]
              rfl
        · rw [List.forall_mem_cons]
          exact ⟨⟨hlen, fun ch hmem => hfield.subset hmem⟩, fun f hmem =>
            ⟨(hfields f hmem).1, fun ch hch => hrest.subset ((hfields f hmem).2 ch hch)⟩⟩

theorem historyFields_cut (instr : List Char) :
    ∃ fields, historyFields instr = some fields ∧
      (∀ f ∈ fields, f.length ≤ lenHiststr ∧ ∀ ch ∈ f, ch ∈ instr) ∧
      Cut lenHiststr (words isWhite instr) (fields.flatMap (words isWhite)) := by
  unfold historyFields
  by_cases hlen : instr.length ≤ lenHiststr
  · refine ⟨[instr], if_pos hlen, by simp [hlen], ?_⟩
    simpa using Cut.refl (words isWhite instr)
  · rw [if_neg hlen]
    exact breakLoop_cut (Nat.lt_succ_self _)

/-! ## Writing the cards -/

/-- The format `%-8s`, a char and a blank, and `%s%*t\n`. -/
def cardRecord (keyname : List Char) (mark : Char) (str : List Char) : List Char :=
  let f := Printf.start.fmtstr keyname true szObuf idbSzfitskey
  let f := ((f.putc mark).putc ' ').fmtstr str false szObuf 0
  ((f.tocolumn (idbLenstringrecord + 1)).putc newline).out

/-- The format `%-8s  %s%*t\n`. -/
def historyRecord (keyname str : List Char) : List Char := cardRecord keyname ' ' str

theorem cardRecord_eq {keyname str : List Char} {mark : Char}
    (hkey : keyname.length ≤ idbSzfitskey) (hstr : str.length ≤ lenHiststr)
    (hkeyp : ∀ ch ∈ keyname, isPrint ch = true) (hmark : isPrint mark = true)
    (hstrp : ∀ ch ∈ str, isPrint ch = true) :
    cardRecord keyname mark str =
      keyname ++ List.replicate (idbSzfitskey - keyname.length) ' ' ++ [mark, ' '] ++ str ++
        List.replicate (lenHiststr - str.length) ' ' ++ [newline] := by
  have hsz : lenHiststr ≤ szObuf ∧ idbSzfitskey ≤ szObuf := by decide
  have hfill : ((idbLenstringrecord : Int) + 1 - (1 + keyname.length +
      (idbSzfitskey - keyname.length : Nat) + 1 + 1 + str.length)).toNat =
      lenHiststr - str.length := by
    unfold idbLenstringrecord idbSzfitskey lenHiststr at *
    omega
  unfold cardRecord
  dsimp only
  rw [Printf.fmtstr_left hkeyp (hkey.trans hsz.2) (by decide), Printf.fmtstr_free hstrp
    (hstr.trans hsz.1)]
  rw [Printf.putc_out, Printf.putc_print (by decide), Printf.putc_print hmark]
  simp only [Printf.blanks, Printf.tocolumn, Printf.start, hfill, List.nil_append,
    List.append_assoc, List.cons_append]

/-- The keyword in upper case. -/
def historyKey (key : List Char) : List Char := (key.take szFname).map Char.toUpper

inductive Outcome where
  | done
  /-- `Invalid history keyword`. -/
  | ignored (key : List Char)
  /-- `SYS_IDBOVFL`. -/
  | overflow (key : List Char)
  deriving DecidableEq

variable {ρ : Type}

def maxLenuserarea (im : ImDes ρ) : Int := userareaSize im.imLenhdrmem - 1

/-- Back to the last newline of a full user area. -/
def discardTruncated (maxLen : Nat) (ua : List Char) : List Char :=
  let whole := (ua.take maxLen).rdropWhile (· ≠ newline)
  if whole.length ≤ 1 then ua else whole

/-- The user area with a newline at the end of its last card. -/
def closedArea (ua : List Char) : List Char :=
  if ua = [] ∨ ua.getLast? = some newline then ua else ua ++ [newline]

/-- `imputh`; `none` if the loop has not come to its end. -/
def imputh (im : ImDes ρ) (key text : List Char) : Option (Outcome × ImDes ρ) :=
  let keyname := historyKey key
  if keyname ≠ kwHistory ∧ keyname ≠ kwComment ∧ keyname ≠ kwBlank then
    some (.ignored key, im)
  else if closedArea im.imUserarea ≠ im.imUserarea ∧
      (im.imUserarea.length : Int) ≥ maxLenuserarea im then
    some (.overflow key, im)
  else do
    let ua := closedArea im.imUserarea
    let room := maxLenuserarea im - ua.length
    let instr := idbFilstr text szLine
    let fields ← historyFields instr
    let out := fields.flatMap (historyRecord keyname)
    if (out.length : Int) ≤ room then
      return (.done, { im with imUserarea := ua ++ out })
    else
      return (.overflow key, { im with
        imUserarea := discardTruncated (maxLenuserarea im).toNat (ua ++ out.take room.toNat) })

/-! ## The cards appended -/

def IsHistoryKey (key : List Char) : Prop :=
  historyKey key = kwHistory ∨ historyKey key = kwComment ∨ historyKey key = kwBlank

instance (key : List Char) : Decidable (IsHistoryKey key) :=
  inferInstanceAs (Decidable (_ ∨ _))

/-- The key in columns 1 to 8, and two blanks. -/
def keyColumns (key : List Char) : List Char :=
  historyKey key ++ List.replicate (idbSzfitskey - (historyKey key).length) ' ' ++ [' ', ' ']

theorem IsHistoryKey.plain {key : List Char} (h : IsHistoryKey key) :
    (historyKey key).length ≤ idbSzfitskey ∧ ∀ ch ∈ historyKey key, isPrint ch = true := by
  rcases h with h | h | h <;> rw [h] <;> exact ⟨by decide, List.all_eq_true.1 rfl⟩

theorem isPrint_plain {ch : Char} (h : isPrint ch = true) : ch ≠ newline ∧ ch ≠ eos := by
  constructor <;> rintro rfl <;> exact absurd h (by decide)

theorem exists_historyCard {key str : List Char} (hkey : IsHistoryKey key)
    (hstr : str.length ≤ lenHiststr) (hstrp : ∀ ch ∈ str, isPrint ch = true) :
    ∃ card : Card, historyRecord (historyKey key) str = card.chars ++ [newline] ∧
      card.chars.take 10 = keyColumns key ∧
      words isWhite (card.chars.drop 10) = words isWhite str := by
  obtain ⟨hlen, hkeyp⟩ := hkey.plain
  have hcols : (keyColumns key).length = 10 := by
    simp only [keyColumns, List.length_append, List.length_replicate, List.length_cons,
      List.length_nil]
    unfold idbSzfitskey at *
    omega
  have hcolsp : ∀ ch ∈ keyColumns key, isPrint ch = true := by
    intro ch hmem
    simp only [keyColumns, List.mem_append, List.mem_replicate, List.mem_cons,
      List.not_mem_nil, or_false, or_self] at hmem
    rcases hmem with (hmem | ⟨-, rfl⟩) | rfl
    · exact hkeyp ch hmem
    · decide
    · decide
  have hblank : isWhite ' ' = true := by decide
  refine ⟨⟨keyColumns key ++ (str ++ List.replicate (lenHiststr - str.length) ' '), ?_, ?_⟩,
    ?_, ?_, ?_⟩
  · simp only [List.length_append, hcols, List.length_replicate]
    unfold idbReclen lenHiststr at *
    omega
  · intro ch hmem
    refine isPrint_plain ?_
    rcases List.mem_append.1 hmem with hmem | hmem
    · exact hcolsp ch hmem
    · rcases List.mem_append.1 hmem with hmem | hmem
      · exact hstrp ch hmem
      · rw [(List.mem_replicate.1 hmem).2]
        decide
  · rw [historyRecord, cardRecord_eq hlen hstr hkeyp (by decide) hstrp]
    simp only [keyColumns, List.append_assoc]
  · exact List.take_left' hcols
  · dsimp only
    rw [List.drop_left' hcols, words_append_replicate hblank]

theorem exists_historyCards {key : List Char} (hkey : IsHistoryKey key)
    (fields : List (List Char))
    (h : ∀ f ∈ fields, f.length ≤ lenHiststr ∧ ∀ ch ∈ f, isPrint ch = true) :
    ∃ cards : List Card,
      fields.flatMap (historyRecord (historyKey key)) = joinLines newline (cards.map Card.chars) ∧
      (∀ card ∈ cards, card.chars.take 10 = keyColumns key) ∧
      cards.flatMap (fun card => words isWhite (card.chars.drop 10)) =
        fields.flatMap (words isWhite) := by
  induction fields with
  | nil => exact ⟨[], rfl, by simp, rfl⟩
  | cons f fields ih =>
      obtain ⟨⟨hlen, hprint⟩, hrest⟩ := List.forall_mem_cons.1 h
      obtain ⟨cards, hout, hcols, hwords⟩ := ih hrest
      obtain ⟨card, hcard, hcol, hword⟩ := exists_historyCard hkey hlen hprint
      refine ⟨card :: cards, ?_, List.forall_mem_cons.2 ⟨hcol, hcols⟩, ?_⟩
      · rw [List.flatMap_cons, hcard, hout, List.map_cons, joinLines_cons, List.append_assoc]
        rfl
      · rw [List.flatMap_cons, List.flatMap_cons, hword, hwords]

/-- The history text is in the cards appended, word by word. -/
theorem imputh_wraps {key text : List Char} (hkey : IsHistoryKey key)
    (htext : text.length ≤ szLine) :
    ∃ cards : List Card,
      (∀ card ∈ cards, card.chars.take 10 = keyColumns key) ∧
      Cut lenHiststr (words isWhite (filtered text))
        (cards.flatMap fun card => words isWhite (card.chars.drop 10)) ∧
      ∀ im : ImDes ρ,
        let ua := closedArea im.imUserarea ++ joinLines newline (cards.map Card.chars)
        (ua.length : Int) ≤ maxLenuserarea im →
          imputh im key text = some (.done, { im with imUserarea := ua }) := by
  have hinstr := idbFilstr_eq htext
  obtain ⟨fields, hloop, hfields, hcut⟩ := historyFields_cut (filtered text)
  obtain ⟨cards, hout, hcols, hwords⟩ := exists_historyCards hkey fields fun f hmem =>
    ⟨(hfields f hmem).1, fun ch hch => isPrint_of_mem_filtered ((hfields f hmem).2 ch hch)⟩
  refine ⟨cards, hcols, hwords ▸ hcut, ?_⟩
  intro im ua hroom
  have hlen : (ua.length : Int) = (closedArea im.imUserarea).length +
      (joinLines newline (cards.map Card.chars)).length := by
    rw [List.length_append, Nat.cast_add]
  have hkept : ¬(historyKey key ≠ kwHistory ∧ historyKey key ≠ kwComment ∧
      historyKey key ≠ kwBlank) := by
    rintro ⟨h1, h2, h3⟩
    rcases hkey with h | h | h
    exacts [h1 h, h2 h, h3 h]
  have hclosed : ¬(closedArea im.imUserarea ≠ im.imUserarea ∧
      (im.imUserarea.length : Int) ≥ maxLenuserarea im) := by
    rintro ⟨hne, hfull⟩
    have hadd : (closedArea im.imUserarea).length = im.imUserarea.length + 1 := by
      unfold closedArea at hne ⊢
      split
      · rename_i h
        exact absurd (if_pos h) hne
      · exact List.length_append
    omega
  unfold imputh
  dsimp only
  rw [if_neg hkept, if_neg hclosed, hinstr, hloop]
  rw [Option.bind_eq_bind, Option.bind_some, hout]
  exact if_pos (by omega)

theorem imputh_wraps_comment :
    ∃ cards : List Card,
      (∀ card ∈ cards, card.chars.take 10 = keyColumns ['c', 'o', 'm', 'm', 'e', 'n', 't']) ∧
      Cut lenHiststr (words isWhite (filtered ['a', '\t', 'b', newline]))
        (cards.flatMap fun card => words isWhite (card.chars.drop 10)) ∧
      ∀ im : ImDes Int,
        let ua := closedArea im.imUserarea ++ joinLines newline (cards.map Card.chars)
        (ua.length : Int) ≤ maxLenuserarea im →
          imputh im ['c', 'o', 'm', 'm', 'e', 'n', 't'] ['a', '\t', 'b', newline] =
            some (.done, { im with imUserarea := ua }) :=
  imputh_wraps (by decide) (by decide)

end Iraf.Imio
