import Iraf.Cl.History

/-!
# The history is a bounded log

The abstract log is the list of the commands stored, the most recent first.  The
circular buffer holds the end of the tape of all chars ever stored, and the
record that a search stops at is a record of the log, provided that the search
did not start from a place kept from before the buffer was written into.
-/

namespace Iraf.Cl

open RingTape

/-! ## The abstract log -/

/-- All chars that were stored for the commands of a log. -/
def tape : List (List UInt8) → List UInt8
  | [] => []
  | command :: older => tape older ++ (command ++ [EOS])

/-- The chars that the most recent records take together. -/
def span (log : List (List UInt8)) (r : Nat) : Nat := (tape (log.take r)).length

/-- The place of the tape where a record starts. -/
def start (log : List (List UInt8)) (r : Nat) : Nat := (tape (log.drop r)).length

variable {log : List (List UInt8)} {k n : Nat}

theorem length_tape_cons (command : List UInt8) (older : List (List UInt8)) :
    (tape (command :: older)).length = (tape older).length + (command.length + 1) := by
  rw [tape, List.length_append, List.length_append, List.length_singleton]

theorem tape_append (newer older : List (List UInt8)) :
    tape (newer ++ older) = tape older ++ tape newer := by
  induction newer with
  | nil => simp [tape]
  | cons command newer ih => simp [tape, ih]

theorem start_add_span (log : List (List UInt8)) (r : Nat) :
    start log r + span log r = (tape log).length := by
  rw [start, span, ← List.length_append, ← tape_append, List.take_append_drop]

theorem start_zero (log : List (List UInt8)) : start log 0 = (tape log).length := rfl

theorem tape_split (h : k < log.length) :
    tape log = tape (log.drop (k + 1)) ++ (log[k] ++ [EOS]) ++ tape (log.take k) := by
  conv_lhs => rw [← List.take_append_drop k log, tape_append, List.drop_eq_getElem_cons h]
  rfl

theorem start_succ (h : k < log.length) :
    start log k = start log (k + 1) + log[k].length + 1 := by
  rw [start, List.drop_eq_getElem_cons h, tape, start]
  simp [Nat.add_assoc]

theorem tape_eos (log : List (List UInt8)) :
    (tape log).length = 0 ∨ ∃ before, tape log = before ++ [EOS] := by
  cases log with
  | nil => exact .inl rfl
  | cons command older =>
      exact .inr ⟨tape older ++ command, by simp [tape]⟩

/-- The buffer still holds the records up to one of them. -/
def Reach (log : List (List UInt8)) (r : Nat) : Prop :=
  span log r + 1 < szHistbuf ∨ (tape log).length < szHistbuf

theorem Reach.of_succ (hk : k < log.length) (h : Reach log (k + 1)) : Reach log k := by
  have h1 := start_add_span log k
  have h2 := start_add_span log (k + 1)
  have h3 := start_succ hk
  unfold Reach at h ⊢
  omega

theorem Reach.of_le {r : Nat} (h : Reach log r) (hr : r ≤ log.length) (hk : k ≤ r) :
    Reach log k := by
  induction hk using Nat.decreasingInduction with
  | self => exact h
  | of_succ k hk ih => exact (ih).of_succ (by omega)

namespace History

/-! ## The buffer -/

/-- The circular buffer holds the end of a tape. -/
structure Keeps (h : History) (tape : List UInt8) : Prop where
  window : Window szHistbuf h.histbuf tape
  opHist : h.opHist = tape.length % szHistbuf
  full : h.histbufFull = 0 ↔ tape.length < szHistbuf

theorem szHistbuf_pos : 0 < szHistbuf := by decide

variable {h g : History} {chars : List UInt8} {a d : Nat}

theorem initial_keeps : Keeps initial [] where
  window := .nil
  opHist := rfl
  full := by simp [initial, szHistbuf_pos]

/-- What storing leaves as it is. -/
structure SameSearch (h g : History) : Prop where
  histnum : g.histnum = h.histnum
  historyNumber : g.historyNumber = h.historyNumber
  currentRecord : g.currentRecord = h.currentRecord
  recptr : g.recptr = h.recptr
  oldOphist : g.oldOphist = h.oldOphist

theorem putChar_keeps (hk : Keeps h chars) (ch : UInt8) :
    Keeps (h.putChar ch) (chars ++ [ch]) ∧ SameSearch h (h.putChar ch) := by
  have hsucc := mod_succ (k := chars.length) szHistbuf_pos
  have hwindow := hk.window.push ch
  have hlt := Nat.mod_lt chars.length szHistbuf_pos
  have hfull := hk.full
  have hop := hk.opHist
  have hlen : (chars ++ [ch]).length = chars.length + 1 := by simp
  rw [← hop] at hsucc hwindow hlt
  by_cases hend : h.opHist + 1 ≥ szHistbuf
  · rw [if_pos hend] at hsucc
    have hle : szHistbuf ≤ chars.length + 1 := by
      by_contra hlt'
      rw [Nat.mod_eq_of_lt (by omega)] at hsucc
      omega
    rw [putChar, if_pos hend]
    refine ⟨⟨hwindow, ?_, ?_⟩, ⟨rfl, rfl, rfl, rfl, rfl⟩⟩
    · rw [hlen, hsucc]
    · rw [hlen]
      show h.histbufFull + 1 = 0 ↔ _
      omega
  · rw [if_neg hend] at hsucc
    rw [putChar, if_neg hend]
    refine ⟨⟨hwindow, ?_, ?_⟩, ⟨rfl, rfl, rfl, rfl, rfl⟩⟩
    · rw [hlen, hsucc]
    · have hne : chars.length + 1 ≠ szHistbuf := by
        intro heq
        rw [heq, Nat.mod_self] at hsucc
        omega
      rw [hlen, hfull]
      omega

theorem putChars_keeps (hk : Keeps h chars) (more : List UInt8) :
    Keeps (more.foldl putChar h) (chars ++ more) ∧
      SameSearch h (more.foldl putChar h) := by
  induction more generalizing h chars with
  | nil => exact ⟨by simpa using hk, ⟨rfl, rfl, rfl, rfl, rfl⟩⟩
  | cons ch more ih =>
      obtain ⟨hstep, hs⟩ := putChar_keeps hk ch
      obtain ⟨hrest, hs'⟩ := ih hstep
      refine ⟨by simpa using hrest, ⟨?_, ?_, ?_, ?_, ?_⟩⟩
      · exact hs'.histnum.trans hs.histnum
      · exact hs'.historyNumber.trans hs.historyNumber
      · exact hs'.currentRecord.trans hs.currentRecord
      · exact hs'.recptr.trans hs.recptr
      · exact hs'.oldOphist.trans hs.oldOphist

theorem putHistory_keeps (hk : Keeps h (tape log)) (command : CString) :
    Keeps (h.putHistory command) (tape (terminated command :: log)) := by
  obtain ⟨⟨hwindow, hop, hfull⟩, -⟩ := putChars_keeps hk (terminated command ++ [EOS])
  exact ⟨hwindow, hop, hfull⟩

theorem putHistory_search (hk : Keeps h chars) (command : CString) :
    let g := h.putHistory command
    g.histnum = h.histnum + 1 ∧ g.currentRecord = h.currentRecord ∧
      g.recptr = h.recptr ∧ g.oldOphist = h.oldOphist := by
  obtain ⟨-, hs⟩ := putChars_keeps hk (terminated command ++ [EOS])
  exact ⟨congrArg (· + 1) hs.histnum, hs.currentRecord, hs.recptr, hs.oldOphist⟩

/-! ## One record back -/

theorem backup_succ (hk : Keeps h chars) (hle : a + 1 ≤ chars.length) :
    h.backup ((a + 1) % szHistbuf) = some (a % szHistbuf) := by
  have hpred := mod_pred (k := a) szHistbuf_pos
  rw [backup, hpred]
  by_cases hzero : (a + 1) % szHistbuf = 0
  · have hfull : h.histbufFull ≠ 0 := by
      rw [Ne, hk.full]
      intro hlt
      rw [Nat.mod_eq_of_lt (by omega)] at hzero
      omega
    rw [if_pos hzero, if_pos hzero, if_neg hfull]
  · rw [if_neg hzero, if_neg hzero]

theorem backup_zero (hk : Keeps h chars) (hlt : chars.length < szHistbuf) :
    h.backup 0 = none := by
  rw [backup, if_pos rfl, if_pos (hk.full.2 hlt)]

theorem eq_opHist_iff (hk : Keeps h chars) (hlt : a < chars.length)
    (hin : chars.length ≤ a + szHistbuf) :
    a % szHistbuf = h.opHist ↔ chars.length = a + szHistbuf := by
  have hiff := mod_eq_iff hin (show a + szHistbuf < chars.length + szHistbuf by omega)
  rw [hk.opHist, ← hiff, Nat.add_mod_right, eq_comm]

theorem scanBack_record (hk : Keeps h chars) {fuel : Nat} (hle : a + d ≤ chars.length)
    (hin : chars.length + 1 ≤ a + d + szHistbuf)
    (hchars : ∀ j, a ≤ j → j < a + d → chars[j]? ≠ some EOS)
    (hfirst : a = 0 ∨ chars[a - 1]? = some EOS) (hfuel : d < fuel) :
    h.scanBack fuel ((a + d) % szHistbuf) =
      if chars.length + 1 < a + szHistbuf ∨ chars.length < szHistbuf ∧ a = 0 then
        .record (a % szHistbuf)
      else .null := by
  induction d generalizing fuel with
  | zero =>
      obtain ⟨fuel, rfl⟩ : ∃ n, fuel = n + 1 := ⟨fuel - 1, by omega⟩
      cases a with
      | zero =>
          have hlt : chars.length < szHistbuf := by omega
          rw [if_pos (.inr ⟨hlt, rfl⟩)]
          simp only [scanBack, Nat.add_zero, backup_zero hk hlt, Nat.zero_mod]
      | succ a =>
          have hback := backup_succ hk hle
          have hop := eq_opHist_iff hk (a := a) (by omega) (by omega)
          have hchar : h.histbuf (a % szHistbuf) = EOS := by
            have heos := hfirst.resolve_left (Nat.succ_ne_zero a)
            rw [Nat.add_sub_cancel, List.getElem?_eq_getElem (by omega)] at heos
            rw [hk.window a (by omega) (by omega)]
            exact Option.some.inj heos
          by_cases hend : chars.length = a + szHistbuf
          · rw [if_neg (by omega)]
            simp only [scanBack, Nat.add_zero, hback, hop.2 hend, if_true]
          · have hscan : h.scanBack (fuel + 1) ((a + 1) % szHistbuf) = .record
                (if a % szHistbuf + 1 ≥ szHistbuf then 0 else a % szHistbuf + 1) := by
              simp only [scanBack, hback, hop, hend, if_false, hchar, if_true]
            rw [if_pos (.inl (by omega)), Nat.add_zero, hscan, mod_succ szHistbuf_pos]
  | succ d ih =>
      obtain ⟨fuel, rfl⟩ : ∃ n, fuel = n + 1 := ⟨fuel - 1, by omega⟩
      have hback := backup_succ hk (a := a + d) (by omega)
      have hop := eq_opHist_iff hk (a := a + d) (by omega) (by omega)
      have hchar : h.histbuf ((a + d) % szHistbuf) ≠ EOS := by
        rw [hk.window (a + d) (by omega) (by omega)]
        have := hchars (a + d) (by omega) (by omega)
        rw [List.getElem?_eq_getElem (by omega)] at this
        simpa using this
      by_cases hend : chars.length = a + d + szHistbuf
      · rw [if_neg (by omega)]
        simp only [scanBack, ← Nat.add_assoc, hback, hop.2 hend, if_true]
      · rw [← ih (by omega) (by omega) (fun j h1 h2 => hchars j h1 (by omega))
          (show d < fuel by omega)]
        simp only [scanBack, ← Nat.add_assoc, hback, hop, hend, if_false, hchar]

/-! ## The search -/

/-- The search stands at a record. -/
structure Located (h : History) (log : List (List UInt8)) (k : Nat) : Prop where
  currentRecord : h.currentRecord = k
  le : k ≤ log.length
  recptr : h.recptr = start log k % szHistbuf
  reach : k = 0 ∨ Reach log k

/-- What a search leaves as it is. -/
structure SameBuffer (h g : History) : Prop where
  histbuf : g.histbuf = h.histbuf
  opHist : g.opHist = h.opHist
  histbufFull : g.histbufFull = h.histbufFull
  histnum : g.histnum = h.histnum

theorem SameBuffer.refl (h : History) : SameBuffer h h := ⟨rfl, rfl, rfl, rfl⟩

theorem SameBuffer.trans {e : History} (h1 : SameBuffer h g) (h2 : SameBuffer g e) :
    SameBuffer h e :=
  ⟨h2.histbuf.trans h1.histbuf, h2.opHist.trans h1.opHist,
    h2.histbufFull.trans h1.histbufFull, h2.histnum.trans h1.histnum⟩

theorem SameBuffer.keeps (hs : SameBuffer h g) (hk : Keeps h chars) : Keeps g chars := by
  obtain ⟨hbuf, hop, hfull, -⟩ := hs
  exact ⟨hbuf ▸ hk.window, hop.trans hk.opHist, hfull ▸ hk.full⟩

/-- Stored commands are strings, and short enough to be fetched. -/
def Commands (log : List (List UInt8)) : Prop :=
  ∀ command ∈ log, EOS ∉ command ∧ command.length + 1 ≤ szCmdblk

theorem szCmdblk_le : szCmdblk ≤ szHistbuf := by decide

theorem record_chars (hc : Commands log) (hlt : k < log.length) :
    (∀ j, start log (k + 1) ≤ j → j < start log (k + 1) + log[k].length →
      (tape log)[j]? ≠ some EOS) ∧
    (start log (k + 1) = 0 ∨ (tape log)[start log (k + 1) - 1]? = some EOS) := by
  have hsplit := tape_split hlt
  refine ⟨fun j hge hj hget => ?_, (tape_eos (log.drop (k + 1))).imp id ?_⟩
  · have hlen : j < (tape (log.drop (k + 1)) ++ (log[k] ++ [EOS])).length := by
      rw [start] at hj
      simp
      omega
    rw [hsplit, List.getElem?_append_left hlen,
      List.getElem?_append_right (by rw [start] at hge; omega),
      List.getElem?_append_left (by rw [start] at hge hj; omega)] at hget
    exact (hc _ (List.getElem_mem hlt)).1 (List.mem_of_getElem? hget)
  · rintro ⟨before, hbefore⟩
    rw [hsplit, start, hbefore]
    simp

theorem Located.scan (hl : Located h log k) (hk : Keeps h (tape log))
    (hc : Commands log) (hlt : k < log.length) :
    ∃ ip, h.backup h.recptr = some ip ∧ h.scanBack szHistbuf ip =
      if (tape log).length + 1 < start log (k + 1) + szHistbuf ∨
          (tape log).length < szHistbuf ∧ start log (k + 1) = 0 then
        .record (start log (k + 1) % szHistbuf)
      else .null := by
  have hspan := start_add_span log k
  have hstart := start_succ hlt
  have hcmd := (hc _ (List.getElem_mem hlt)).2
  have hsz := szCmdblk_le
  obtain ⟨hchars, hfirst⟩ := record_chars hc hlt
  have hin : (tape log).length + 1 ≤
      start log (k + 1) + log[k].length + szHistbuf := by
    rcases hl.reach with rfl | hreach
    · have htwo : 2 ≤ szHistbuf := by decide
      rw [start_zero] at hstart
      omega
    · unfold Reach at hreach
      omega
  refine ⟨(start log (k + 1) + log[k].length) % szHistbuf, ?_, ?_⟩
  · rw [hl.recptr, hstart]
    exact backup_succ hk (by omega)
  · exact scanBack_record hk (by omega) hin hchars hfirst (by omega)

theorem reach_iff (hlt : k < log.length) :
    Reach log (k + 1) ↔ (tape log).length + 1 < start log (k + 1) + szHistbuf ∨
      (tape log).length < szHistbuf ∧ start log (k + 1) = 0 := by
  have h1 := start_add_span log k
  have h2 := start_add_span log (k + 1)
  have h3 := start_succ hlt
  unfold Reach
  omega

theorem Located.backup_oldest (hl : Located h log log.length)
    (hk : Keeps h (tape log)) : h.backup h.recptr = none := by
  have hzero : start log log.length = 0 := by simp [start, tape]
  have hspan := start_add_span log log.length
  have hlt : (tape log).length < szHistbuf := by
    rcases hl.reach with hnil | hreach
    · rw [List.length_eq_zero_iff.1 hnil]
      exact szHistbuf_pos
    · unfold Reach at hreach
      omega
  rw [hl.recptr, hzero, Nat.zero_mod, backup_zero hk hlt]

/-- The outer loop comes to the record that is a number of records back, or the
buffer does not hold that record. -/
theorem findLoop_spec (n : Nat) (hl : Located h log k) (hk : Keeps h (tape log))
    (hc : Commands log) :
    ∃ r g k', findLoop n h = some (r, g) ∧ SameBuffer h g ∧
      g.oldOphist = h.oldOphist ∧ Located g log k' ∧
      (r = some (start log (k + n) % szHistbuf) ∧ k' = k + n ∨
        r = none ∧ ¬(k + n ≤ log.length ∧ Reach log (k + n))) := by
  induction n generalizing h k with
  | zero =>
      refine ⟨some h.recptr, { h with historyNumber := h.currentRecord }, k, rfl,
        ⟨rfl, rfl, rfl, rfl⟩, rfl, ⟨hl.currentRecord, hl.le, hl.recptr, hl.reach⟩,
        .inl ⟨?_, rfl⟩⟩
      rw [hl.recptr, Nat.add_zero]
  | succ n ih =>
      rcases Nat.lt_or_eq_of_le hl.le with hlt | heq
      · obtain ⟨ip, hback, hscan⟩ := hl.scan hk hc hlt
        by_cases hreach : Reach log (k + 1)
        · rw [if_pos ((reach_iff hlt).1 hreach)] at hscan
          have hnext : Located { h with
              recptr := start log (k + 1) % szHistbuf
              currentRecord := h.currentRecord + 1 } log (k + 1) :=
            ⟨by rw [← hl.currentRecord], hlt, rfl, .inr hreach⟩
          obtain ⟨r, g, k', hok, hsame, hold, hg, hres⟩ := ih hnext
            ⟨hk.window, hk.opHist, hk.full⟩
          rw [Nat.add_right_comm, Nat.add_assoc] at hres
          refine ⟨r, g, k', ?_, ⟨hsame.histbuf, hsame.opHist, hsame.histbufFull,
            hsame.histnum⟩, hold, hg, hres⟩
          simp only [findLoop, hback, hscan, hok]
        · rw [if_neg fun h => hreach ((reach_iff hlt).2 h)] at hscan
          refine ⟨none, h, k, ?_, .refl h, rfl, hl, .inr ⟨rfl, fun ⟨hle, hr⟩ => ?_⟩⟩
          · simp only [findLoop, hback, hscan]
          · exact hreach (hr.of_le hle (by omega))
      · have hback : h.backup h.recptr = none := by
          subst heq
          exact hl.backup_oldest hk
        refine ⟨none, h, k, ?_, .refl h, rfl, hl, .inr ⟨rfl, fun ⟨hle, _⟩ => by omega⟩⟩
        simp only [findLoop, hback]

/-! ## The fetch -/

theorem fetchLoop_record (command : List UInt8) {older newer : List UInt8} {n : Nat}
    (hk : Keeps h (older ++ (command ++ [EOS]) ++ newer)) (hc : EOS ∉ command)
    (hin : (command ++ [EOS] ++ newer).length ≤ szHistbuf) (hn : command.length ≤ n) :
    h.fetchLoop n (older.length % szHistbuf) = command := by
  induction command generalizing older n with
  | nil =>
      cases n with
      | zero => rfl
      | succ n =>
          have hchar : h.histbuf (older.length % szHistbuf) = EOS := by
            rw [hk.window older.length (by simp) (by simp at hin ⊢; omega)]
            simp
          simp only [fetchLoop, hchar, if_true]
  | cons ch command ih =>
      obtain ⟨n, rfl⟩ : ∃ m, n = m + 1 := ⟨n - 1, by simp at hn; omega⟩
      have hchar : h.histbuf (older.length % szHistbuf) = ch := by
        rw [hk.window older.length (by simp) (by simp at hin ⊢; omega)]
        simp
      have hne : ch ≠ EOS := fun heq => hc (heq ▸ List.mem_cons_self)
      have hk' : Keeps h ((older ++ [ch]) ++ (command ++ [EOS]) ++ newer) := by
        simpa using hk
      have hnext := ih (n := n) hk' (fun hmem => hc (List.mem_cons_of_mem _ hmem)) (by simp at hin ⊢; omega)
        (by simpa using hn)
      rw [List.length_append, List.length_singleton, mod_succ szHistbuf_pos] at hnext
      simp only [fetchLoop, hchar, hne, if_false, hnext]

theorem fetchHistory_eq (h : History) (ip : Nat) :
    h.fetchHistory ip szCmdblk = h.fetchLoop (szCmdblk - 1) ip := by
  have hmax : ((if (szCmdblk : Int) < szHistbuf then (szCmdblk : Int) else szHistbuf) -
      1).toNat = szCmdblk - 1 := by decide
  rw [fetchHistory, hmax]

theorem fetchHistory_record (hk : Keeps h (tape log)) (hc : Commands log)
    (hlt : k < log.length) (hreach : Reach log (k + 1)) :
    h.fetchHistory (start log (k + 1) % szHistbuf) szCmdblk = log[k] := by
  have hsplit := tape_split hlt
  have hspan := start_add_span log (k + 1)
  have hlen := congrArg List.length hsplit
  obtain ⟨hnoEos, hsz⟩ := hc _ (List.getElem_mem hlt)
  rw [hsplit] at hk
  rw [fetchHistory_eq]
  refine fetchLoop_record log[k] hk hnoEos ?_ (by omega)
  simp only [List.length_append, List.length_singleton] at hlen ⊢
  unfold Reach at hreach
  unfold start at hspan
  omega

/-! ## Calls -/

/-- A call of a run; the buffer of `get_history` has the size that all its
callers give it. -/
inductive Op where
  | put (command : CString)
  | get (record : Int)

/-- A stored command ends in one newline. -/
def EndsInNewline (text : List UInt8) : Prop :=
  ∃ line, text = line ++ [newline] ∧ ∀ ch ∈ line.getLast?, isspace ch = false

/-- The text is that of the record, or there is an error, which there is not
when the buffer has room for all the records up to it. -/
structure Answers (log : List (List UInt8)) (record : Int) (status : Status)
    (text : List UInt8) : Prop where
  ok : status = .ok → 0 < record ∧ log[(record - 1).toNat]? = some text
  newline : status = .ok → EndsInNewline text
  err : status = .err → text = []
  found : 0 < record → record ≤ log.length → span log record.toNat + 1 < szHistbuf →
    status = .ok

theorem terminated_newline (command : CString) : EndsInNewline (terminated command) := by
  refine ⟨_, rfl, fun ch hch => ?_⟩
  have hne : command.chars.rdropWhile isspace ≠ [] := by
    intro hnil
    rw [hnil] at hch
    cases hch
  rw [List.getLast?_eq_some_getLast hne] at hch
  cases hch
  simpa using List.rdropWhile_last_not isspace command.chars hne

theorem terminated_noEos (command : CString) : EOS ∉ terminated command := by
  have hbegins := List.rdropWhile_prefix isspace command.chars
  simp only [terminated, List.mem_append, List.mem_singleton, not_or]
  exact ⟨fun hmem => command.noEos (hbegins.subset hmem), by decide⟩

/-- What the calls keep; `stored` tells that the buffer was written into after
the last search. -/
structure Stands (h : History) (log : List (List UInt8)) (stored : Bool) : Prop where
  keeps : Keeps h (tape log)
  histnum : h.histnum = log.length
  commands : Commands log
  newline : ∀ command ∈ log, EndsInNewline command
  located : ∀ o, h.oldOphist = some o → stored = false →
    o = h.opHist ∧ Located h log h.currentRecord

theorem initial_stands : Stands initial [] false :=
  ⟨initial_keeps, rfl, nofun, nofun, nofun⟩

theorem Stands.put {stored : Bool} (hs : Stands h log stored) (command : CString)
    (hfits : (terminated command).length + 1 ≤ szCmdblk) :
    Stands (h.putHistory command) (terminated command :: log) true where
  keeps := putHistory_keeps hs.keeps command
  histnum := by
    rw [(putHistory_search hs.keeps command).1, hs.histnum, List.length_cons]
  commands := List.forall_mem_cons.2 ⟨⟨terminated_noEos command, hfits⟩, hs.commands⟩
  newline := List.forall_mem_cons.2 ⟨terminated_newline command, hs.newline⟩
  located _ _ hfalse := absurd hfalse (by decide)

/-- The search sees that the buffer was written into, or starts over anyway. -/
def Noticed (h : History) (stored : Bool) (record : Int) : Prop :=
  stored = true → 0 < record → h.oldOphist = some h.opHist → record < h.currentRecord

theorem Stands.startSearch {stored : Bool} (hs : Stands h log stored) {record : Nat}
    (hpos : 0 < record) (hn : Noticed h stored record) :
    ∃ k, Located (h.startSearch record) log k ∧ k ≤ record ∧
      (h.startSearch record).oldOphist = some h.opHist ∧
      SameBuffer h (h.startSearch record) := by
  by_cases hreset : h.oldOphist ≠ some h.opHist ∨ record < h.currentRecord
  · rw [History.startSearch, if_pos hreset]
    refine ⟨0, ⟨rfl, Nat.zero_le _, ?_, .inl rfl⟩, Nat.zero_le _, rfl,
      ⟨rfl, rfl, rfl, rfl⟩⟩
    rw [start_zero]
    exact hs.keeps.opHist
  · rw [History.startSearch, if_neg hreset]
    obtain ⟨hold, hle⟩ := not_or.1 hreset
    rw [not_not] at hold
    have hfalse : stored = false := by
      cases stored with
      | false => rfl
      | true =>
          have := hn rfl (by omega) hold
          omega
    exact ⟨_, (hs.located _ hold hfalse).2, by omega, hold, .refl h⟩

theorem Stands.get {stored : Bool} (hs : Stands h log stored) {record : Int}
    (hn : Noticed h stored record) :
    ∃ status text g, h.getHistory record szCmdblk = some (status, text, g) ∧
      Answers log record status text ∧
      Stands g log (stored && decide (h.histnum = 0 ∨ record ≤ 0)) := by
  by_cases hnone : h.histnum = 0 ∨ record ≤ 0
  · refine ⟨.err, [], h, ?_, ⟨nofun, nofun, fun _ => rfl, fun hpos hle _ => ?_⟩, ?_⟩
    · simp only [getHistory, findHistory, hnone, if_true]
    · rcases hnone with hzero | hle'
      · have := hs.histnum
        omega
      · omega
    · simpa only [hnone, decide_true, Bool.and_true] using hs
  · have hpos : 0 < record := by omega
    obtain ⟨record, rfl⟩ : ∃ n : Nat, record = n := ⟨record.toNat, by omega⟩
    obtain ⟨k, hl, hle, hold, hsame⟩ := hs.startSearch (by omega) hn
    have hk := hsame.keeps hs.keeps
    obtain ⟨r, g, k', hok, hsame', hold', hg, hres⟩ :=
      findLoop_spec (record - k) hl hk hs.commands
    have hadd : k + (record - k) = record := by omega
    have hstands : Stands g log
        (stored && decide (h.histnum = 0 ∨ ((record : Nat) : Int) ≤ 0)) := by
      refine ⟨hsame'.keeps hk, ?_, hs.commands, hs.newline, fun o ho _ => ⟨?_, ?_⟩⟩
      · rw [hsame'.histnum, hsame.histnum, hs.histnum]
      · rw [hold', hold] at ho
        rw [hsame'.opHist, hsame.opHist]
        exact (Option.some.inj ho).symm
      · rw [hg.currentRecord]
        exact hg
    rw [hadd] at hres
    have hfind : h.findHistory record = some (r, g) := by
      rw [findHistory, if_neg hnone, Int.toNat_natCast]
      dsimp only
      rw [hl.currentRecord, hok]
    rcases hres with ⟨rfl, hk'⟩ | ⟨rfl, hnot⟩
    · rw [hk'] at hg
      obtain ⟨j, rfl⟩ : ∃ j, record = j + 1 := ⟨record - 1, by omega⟩
      have hlt : j < log.length := hg.le
      have htext : g.fetchHistory (start log (j + 1) % szHistbuf) szCmdblk = log[j] :=
        fetchHistory_record (hsame'.keeps hk) hs.commands hlt
          (hg.reach.resolve_left (by omega))
      refine ⟨.ok, log[j], g, ?_, ⟨fun _ => ⟨hpos, ?_⟩, fun _ => ?_, nofun,
        fun _ _ _ => rfl⟩, hstands⟩
      · simp only [getHistory, hfind, htext]
      · have hj : ((((j + 1 : Nat) : Int) - 1).toNat) = j := by omega
        rw [hj, List.getElem?_eq_getElem hlt]
      · exact hs.newline _ (List.getElem_mem hlt)
    · refine ⟨.err, [], g, ?_, ⟨nofun, nofun, fun _ => rfl, fun _ hle' hspan => ?_⟩,
        hstands⟩
      · simp only [getHistory, hfind]
      · exact absurd ⟨by omega, .inl hspan⟩ hnot

/-! ## The search comes to an end -/

/-- The pointers point into the buffer. -/
structure InRange (h : History) : Prop where
  opHist : h.opHist < szHistbuf
  recptr : h.recptr < szHistbuf

/-- The cells that are left before the search comes to where the buffer is
written next. -/
def distance (h : History) (ip : Nat) : Nat :=
  if h.opHist < ip then ip - h.opHist else ip + szHistbuf - h.opHist

theorem scanBack_ends (hr : InRange h) (fuel : Nat) {ip : Nat} (hip : ip < szHistbuf)
    (hfuel : distance h ip ≤ fuel) :
    h.scanBack fuel ip = .null ∨
      ∃ p, h.scanBack fuel ip = .record p ∧ p < szHistbuf := by
  have hop := hr.opHist
  induction fuel generalizing ip with
  | zero =>
      unfold distance at hfuel
      split at hfuel <;> omega
  | succ fuel ih =>
      cases hback : h.backup ip with
      | none => exact .inr ⟨0, by simp only [scanBack, hback], szHistbuf_pos⟩
      | some ip' =>
          have hip' : ip' = if ip = 0 then szHistbuf - 1 else ip - 1 := by
            unfold backup at hback
            split at hback <;> simp_all
          by_cases hend : ip' = h.opHist
          · exact .inl (by simp only [scanBack, hback, hend, if_true])
          · by_cases hchar : h.histbuf ip' = EOS
            · refine .inr ⟨if ip' + 1 ≥ szHistbuf then 0 else ip' + 1, ?_, ?_⟩
              · simp only [scanBack, hback, hend, if_false, hchar, if_true]
              · split <;> omega
            · simp only [scanBack, hback, hend, if_false, hchar]
              refine ih (by split at hip' <;> omega) ?_
              unfold distance at hfuel ⊢
              split at hip' <;> split at hfuel <;> split <;> omega

theorem findLoop_ends (n : Nat) (hr : InRange h) :
    ∃ r g, findLoop n h = some (r, g) ∧ InRange g := by
  induction n generalizing h with
  | zero => exact ⟨_, _, rfl, hr.opHist, hr.recptr⟩
  | succ n ih =>
      cases hback : h.backup h.recptr with
      | none => exact ⟨none, h, by simp only [findLoop, hback], hr⟩
      | some ip =>
          have hop := hr.opHist
          have hptr := hr.recptr
          have hip : ip < szHistbuf := by
            unfold backup at hback
            split at hback <;> simp_all <;> omega
          have hdist : distance h ip ≤ szHistbuf := by
            unfold distance
            split <;> omega
          rcases scanBack_ends hr szHistbuf hip hdist with hnull | ⟨p, hrec, hp⟩
          · exact ⟨none, h, by simp only [findLoop, hback, hnull], hr⟩
          · obtain ⟨r, g, hok, hg⟩ := ih (h := { h with
              recptr := p
              currentRecord := h.currentRecord + 1 }) ⟨hop, hp⟩
            exact ⟨r, g, by simp only [findLoop, hback, hrec, hok], hg⟩

theorem getHistory_ends (hr : InRange h) (record maxch : Int) :
    ∃ status text g, h.getHistory record maxch = some (status, text, g) ∧ InRange g := by
  by_cases hnone : h.histnum = 0 ∨ record ≤ 0
  · exact ⟨.err, [], h, by simp only [getHistory, findHistory, hnone, if_true], hr⟩
  · have hstart : InRange (h.startSearch record.toNat) := by
      unfold History.startSearch
      split
      · exact ⟨hr.opHist, hr.opHist⟩
      · exact hr
    obtain ⟨r, g, hok, hg⟩ := findLoop_ends
      (record.toNat - (h.startSearch record.toNat).currentRecord) hstart
    have hfind : h.findHistory record = some (r, g) := by
      rw [findHistory, if_neg hnone]
      exact hok
    cases r with
    | none => exact ⟨.err, [], g, by simp only [getHistory, hfind], hg⟩
    | some p =>
        exact ⟨.ok, g.fetchHistory p maxch, g, by simp only [getHistory, hfind], hg⟩

theorem putHistory_inRange (hr : InRange h) (command : CString) :
    InRange (h.putHistory command) := by
  suffices hchars : ∀ (chars : List UInt8) {e : History}, InRange e →
      InRange (chars.foldl putChar e) by
    obtain ⟨hop, hptr⟩ := hchars (terminated command ++ [EOS]) hr
    exact ⟨hop, hptr⟩
  intro chars
  induction chars with
  | nil => exact fun he => he
  | cons ch chars ih =>
      intro e he
      refine ih ?_
      unfold putChar
      split
      next => exact ⟨szHistbuf_pos, he.recptr⟩
      next hin => exact ⟨Nat.lt_of_not_ge hin, he.recptr⟩

/-! ## Runs -/

/-- Every call of the run comes to an end. -/
def Ends (h : History) : List Op → Prop
  | [] => True
  | .put command :: ops => Ends (h.putHistory command) ops
  | .get record :: ops =>
      match h.getHistory record szCmdblk with
      | none => False
      | some (_, _, g) => Ends g ops

/-- Every lookup of the run gives what the commands stored before it ask for. -/
inductive Follows : History → List (List UInt8) → List Op → Prop
  | nil (h : History) (log : List (List UInt8)) : Follows h log []
  | put {h : History} {log : List (List UInt8)} {command : CString} {ops : List Op}
      (hf : Follows (h.putHistory command) (terminated command :: log) ops) :
      Follows h log (.put command :: ops)
  | get {h g : History} {log : List (List UInt8)} {record : Int} {ops : List Op}
      {status : Status} {text : List UInt8}
      (hok : h.getHistory record szCmdblk = some (status, text, g))
      (hans : Answers log record status text) (hf : Follows g log ops) :
      Follows h log (.get record :: ops)

/-- Every lookup of the run sees whether the buffer was written into. -/
def AllNoticed (h : History) (stored : Bool) : List Op → Prop
  | [] => True
  | .put command :: ops => AllNoticed (h.putHistory command) true ops
  | .get record :: ops =>
      Noticed h stored record ∧
        match h.getHistory record szCmdblk with
        | none => True
        | some (_, _, g) =>
            AllNoticed g (stored && decide (h.histnum = 0 ∨ record ≤ 0)) ops

/-- Every command of the run fits into the buffers that records are fetched to. -/
def Fit (ops : List Op) : Prop :=
  ∀ command, .put command ∈ ops → (terminated command).length + 1 ≤ szCmdblk

theorem InRange.ends (hr : InRange h) (ops : List Op) : Ends h ops := by
  induction ops generalizing h with
  | nil => exact trivial
  | cons op ops ih =>
      cases op with
      | put command => exact ih (putHistory_inRange hr command)
      | get record =>
          obtain ⟨status, text, g, hok, hg⟩ := getHistory_ends hr record szCmdblk
          rw [Ends, hok]
          exact ih hg

theorem Stands.follows {stored : Bool} (hs : Stands h log stored) (ops : List Op)
    (hfit : Fit ops) (hn : AllNoticed h stored ops) : Follows h log ops := by
  induction ops generalizing h log stored with
  | nil => exact .nil h log
  | cons op ops ih =>
      have hrest : Fit ops := fun command hmem => hfit command (List.mem_cons_of_mem _ hmem)
      cases op with
      | put command =>
          exact .put (ih (hs.put command (hfit command List.mem_cons_self)) hrest hn)
      | get record =>
          obtain ⟨hseen, hnext⟩ := hn
          obtain ⟨status, text, g, hok, hans, hg⟩ := hs.get hseen
          rw [hok] at hnext
          exact .get hok hans (ih hg hrest hnext)

theorem Follows.of_put {command : CString} {ops : List Op}
    (hf : Follows h log (.put command :: ops)) :
    Follows (h.putHistory command) (terminated command :: log) ops := by
  cases hf with
  | put hf => exact hf

theorem Follows.of_get {record : Int} {ops : List Op} {status : Status}
    {text : List UInt8} (hf : Follows h log (.get record :: ops))
    (hok : h.getHistory record szCmdblk = some (status, text, g)) :
    Answers log record status text ∧ Follows g log ops := by
  cases hf with
  | get hok' hans hf =>
      rw [hok, Option.some.injEq, Prod.mk.injEq, Prod.mk.injEq] at hok'
      obtain ⟨rfl, rfl, rfl⟩ := hok'
      exact ⟨hans, hf⟩

/-- Every call of a run ends, and each lookup gives the record of the log that it
asks for or an error, provided that no search starts from a place kept from
before the buffer was written into. -/
theorem history_log (ops : List Op) (hfit : Fit ops) :
    Ends initial ops ∧ (AllNoticed initial false ops → Follows initial [] ops) :=
  ⟨InRange.ends ⟨szHistbuf_pos, szHistbuf_pos⟩ ops, initial_stands.follows ops hfit⟩

/-! ## A search that starts from a stale place -/

def shortCommand : CString := ⟨[97], by decide⟩

/-- A command that takes a quarter of the buffer. -/
def longCommand : CString where
  chars := List.replicate 2046 120
  noEos h := absurd (List.eq_of_mem_replicate h) (by decide)

theorem history_log_short :
    Ends initial [.put shortCommand, .get 1] ∧
      Follows initial [] [.put shortCommand, .get 1] := by
  have hfit : Fit [.put shortCommand, .get 1] := by
    intro command hmem
    simp only [List.mem_cons, Op.put.injEq, reduceCtorEq, List.not_mem_nil, or_false]
      at hmem
    subst hmem
    decide
  exact (history_log _ hfit).imp id fun h => h ⟨fun _ _ hold => (nomatch hold), trivial⟩

theorem terminated_longCommand :
    terminated longCommand = List.replicate 2046 120 ++ [newline] := by
  have hspace : isspace 120 = false := by decide
  have hdrop : (List.replicate 2046 (120 : UInt8)).rdropWhile isspace =
      List.replicate 2046 120 := by
    rw [List.replicate_succ', List.rdropWhile_concat_neg _ _ _ (by simp [hspace])]
  rw [terminated, longCommand, hdrop]

/-- The buffer is filled once around after the first lookup. -/
def staleRun : List Op :=
  [.put shortCommand, .get 1, .put longCommand, .put longCommand, .put longCommand,
    .put longCommand, .get 1]

theorem first_lookup : ∃ g, (initial.putHistory shortCommand).getHistory 1 szCmdblk =
      some (.ok, [97, 10], g) ∧ g.oldOphist = some 3 ∧ g.currentRecord = 1 ∧
    g.recptr = 0 ∧ SameBuffer (initial.putHistory shortCommand) g :=
  ⟨_, rfl, rfl, rfl, rfl, rfl, rfl, rfl, rfl⟩

theorem length_terminated_longCommand : (terminated longCommand).length = 2047 := by
  rw [terminated_longCommand, List.length_append, List.length_replicate,
    List.length_singleton]

theorem stale_lookup (hk : Keeps h (tape (terminated longCommand :: log)))
    (hlog : (tape log).length = 6147) (hnum : h.histnum ≠ 0) (hc : h.currentRecord = 1)
    (hp : h.recptr = 0) (ho : h.oldOphist = some 3) :
    ∃ g, h.getHistory 1 szCmdblk = some (.ok, [120, newline], g) := by
  have htape : tape (terminated longCommand :: log) =
      (tape log ++ List.replicate 2045 120) ++ ([120, newline] ++ [EOS]) ++ [] := by
    rw [tape, terminated_longCommand, List.replicate_succ']
    simp only [List.append_assoc, List.append_nil, List.cons_append, List.nil_append]
  have holder : (tape log ++ List.replicate 2045 120).length = 8192 := by
    rw [List.length_append, List.length_replicate, hlog]
  rw [htape] at hk
  generalize tape log ++ List.replicate 2045 120 = older at hk holder
  have hzero : older.length % szHistbuf = 0 := by
    rw [holder]
    exact Nat.mod_self szHistbuf
  have hop : h.opHist = 3 := by
    rw [hk.opHist, List.append_nil, List.length_append, Nat.add_mod, hzero]
    decide
  have hsearch : h.startSearch 1 = h := by
    rw [startSearch, if_neg (by simp [ho, hop, hc])]
  have hfind : h.findHistory 1 =
      some (some 0, { h with historyNumber := h.currentRecord }) := by
    have hone : ¬(h.histnum = 0 ∨ (1 : Int) ≤ 0) := by omega
    have hrec : (1 : Int).toNat = 1 := rfl
    simp only [findHistory, hone, if_false, hrec, hsearch, hc, Nat.sub_self, findLoop, hp]
  refine ⟨{ h with historyNumber := h.currentRecord }, ?_⟩
  have hkeeps : Keeps { h with historyNumber := h.currentRecord } _ :=
    ⟨hk.window, hk.opHist, hk.full⟩
  have hloop := fetchLoop_record [120, newline] hkeeps (by decide) (by decide)
    (show _ ≤ szCmdblk - 1 by decide)
  rw [hzero] at hloop
  simp only [getHistory, hfind, fetchHistory_eq, hloop]

/-- The second lookup starts at the place of the first command and gives the end
of the last one. -/
theorem not_follows_staleRun : Fit staleRun ∧ ¬Follows initial [] staleRun := by
  have hlen := length_terminated_longCommand
  refine ⟨fun command hmem => ?_, fun hfollows => ?_⟩
  · simp only [staleRun, List.mem_cons, Op.put.injEq, reduceCtorEq, List.not_mem_nil,
      or_false, false_or, or_self] at hmem
    rcases hmem with rfl | rfl
    · decide
    · rw [hlen]
      decide
  · obtain ⟨g, hget, hold, hcur, hptr, hsame⟩ := first_lookup
    have hkeeps : Keeps g (tape [[97, 10]]) :=
      hsame.keeps (putHistory_keeps initial_keeps shortCommand)
    have hnum : g.histnum ≠ 0 := by
      rw [hsame.histnum]
      decide
    have hstep : ∀ {e : History} {l : List (List UInt8)}, Keeps e (tape l) ∧
        (e.histnum ≠ 0 ∧ e.currentRecord = 1 ∧ e.recptr = 0 ∧ e.oldOphist = some 3) →
        Keeps (e.putHistory longCommand) (tape (terminated longCommand :: l)) ∧
          ((e.putHistory longCommand).histnum ≠ 0 ∧
            (e.putHistory longCommand).currentRecord = 1 ∧
            (e.putHistory longCommand).recptr = 0 ∧
            (e.putHistory longCommand).oldOphist = some 3) := by
      intro e l ⟨he, hnum, hc, hp, ho⟩
      obtain ⟨hnum', hc', hp', ho'⟩ := putHistory_search he longCommand
      exact ⟨putHistory_keeps he longCommand, by omega, hc'.trans hc, hp'.trans hp,
        ho'.trans ho⟩
    obtain ⟨hlast, hnum', hc, hp, ho⟩ :=
      hstep (hstep (hstep (hstep ⟨hkeeps, hnum, hcur, hptr, hold⟩)))
    have hlong : (tape [terminated longCommand, terminated longCommand,
        terminated longCommand, [97, 10]]).length = 6147 := by
      rw [length_tape_cons, length_tape_cons, length_tape_cons, hlen]
      decide
    obtain ⟨g', hstale⟩ := stale_lookup hlast hlong hnum' hc hp ho
    unfold staleRun at hfollows
    obtain ⟨-, hrest⟩ := Follows.of_get (Follows.of_put hfollows) hget
    obtain ⟨hans, -⟩ := Follows.of_get (Follows.of_put (Follows.of_put (Follows.of_put
      (Follows.of_put hrest)))) hstale
    have hfirst := (hans.ok rfl).2
    have hzero : ((1 : Int) - 1).toNat = 0 := rfl
    rw [hzero, List.getElem?_cons_zero, Option.some.injEq] at hfirst
    rw [hfirst] at hlen
    exact absurd hlen (by decide)

end History

end Iraf.Cl
