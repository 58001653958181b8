import Iraf.Fmtio.Pattern

/-!
# The search of the matcher

`firstMatch` is the backtracking search over a list of items without a stack.
Over a pattern in which the items are laid out, the matcher makes exactly this
search: it gets to the end of the items with the first match or, when there is
none, falls back into the closures before them.
-/

namespace Iraf.Fmtio

open Iraf.StepMachine

/-! ## The search on items -/

/-- Where an element that is matched at `ip` ends. -/
def Elem.at (str : Text) (e : Elem) (ip : Int) : Option Int :=
  match e with
  | index => some ip
  | eol =>
      if str.char ip = EOS ∨ str.char ip = NEWLINE then some ip else none
  | bol => if str.char ip ≠ EOS ∧ ip = 1 then some ip else none
  | whitespace =>
      if str.char ip ≠ EOS then some (str.skip IS_WHITE ip) else none
  | e => if str.char ip ≠ EOS ∧ e.accepts (str.char ip) then some (ip + 1)
      else none

/-- The chars that the loop of a closure goes over. -/
def Elem.runs (e : Elem) (c : Int) : Bool := decide (c ≠ EOS) && e.accepts c

/-- The end of the longest run of chars that an element takes. -/
def Elem.runEnd (str : Text) (e : Elem) (ip : Int) : Int := str.skip e.runs ip

/-- Give back the chars of a closure one by one. -/
def retry (rest : Int → Option Int) (start : Int) : Nat → Option Int
  | 0 => none
  | count + 1 => (rest (start + count)).or (retry rest start count)

/-- Where the first match of the items at `offset` ends.  A closure keeps its
start and its count in chars of the pattern. -/
def firstMatch (str : Text) : List Item → Int → Option Int
  | [], offset => some offset
  | .one e :: items, offset => (e.at str offset).bind (firstMatch str items)
  | .many e :: items, offset =>
      let ip := e.runEnd str offset
      (firstMatch str items ip).or
        (retry (firstMatch str items) (short offset)
          (short (ip - offset)).toNat)

/-! ## Loops over the text -/

theorem Text.skip_induction (str : Text) {p : Int → Bool} (hp : p EOS = false)
    {motive : Int → Prop}
    (stop : ∀ ip, p (str.char ip) = false → motive ip)
    (next : ∀ ip, p (str.char ip) = true → motive (ip + 1) → motive ip)
    (ip : Int) : motive ip := by
  have hgo : ∀ fuel : Nat, ∀ ip : Int, (str.extent : Int) + 1 - ip ≤ fuel →
      motive ip := by
    intro fuel
    induction fuel with
    | zero =>
        intro ip h
        exact stop ip (by rw [str.ends ip (by omega)]; exact hp)
    | succ fuel ih =>
        intro ip h
        cases hc : p (str.char ip) with
        | false => exact stop ip hc
        | true => exact next ip hc (ih (ip + 1) (by omega))
  exact hgo (str.extent + 1 - ip).toNat ip (by omega)

theorem Text.skip_eq (str : Text) {p : Int → Bool} (hp : p EOS = false)
    (ip : Int) :
    str.skip p ip =
      if p (str.char ip) then str.skip p (ip + 1) else ip := by
  unfold Text.skip
  cases hc : p (str.char ip) with
  | false =>
      cases (str.extent + 1 - ip).toNat with
      | zero => rfl
      | succ fuel => simp [Text.skip.go, hc]
  | true =>
      have hlt : ip ≤ str.extent := by
        by_contra hlt
        rw [str.ends ip (by omega)] at hc
        rw [EOS] at hp
        rw [hp] at hc
        exact Bool.false_ne_true hc
      rw [show (str.extent + 1 - ip).toNat =
        (str.extent + 1 - (ip + 1)).toNat + 1 by omega]
      simp [Text.skip.go, hc]

theorem Text.le_skip (str : Text) {p : Int → Bool} (hp : p EOS = false)
    (ip : Int) : ip ≤ str.skip p ip := by
  induction ip using str.skip_induction hp with
  | stop ip h =>
      rw [str.skip_eq hp]
      simp [h]
  | next ip h ih =>
      rw [str.skip_eq hp, if_pos h]
      omega

theorem isWhite_EOS : IS_WHITE EOS = false := rfl

theorem Elem.runs_EOS (e : Elem) : e.runs EOS = false := by simp [runs]

/-! ## Elements in a pattern -/

theorem Elem.code_eq_INDEX (e : Elem) : e.code = INDEX ↔ e = .index := by
  cases e <;> simp [code, CHAR, UCHAR, LCHAR, BOL, EOL, ANY, WHITESPACE, CCL,
    NCCL, INDEX]

theorem Elem.code_ne_EOP (e : Elem) : e.code ≠ EOP := by
  cases e <;> simp [code, CHAR, UCHAR, LCHAR, BOL, EOL, ANY, WHITESPACE, CCL,
    NCCL, INDEX, EOP]

theorem Elem.code_ne_CLOSURE (e : Elem) : e.code ≠ CLOSURE := by
  cases e <;> simp [code, CHAR, UCHAR, LCHAR, BOL, EOL, ANY, WHITESPACE, CCL,
    NCCL, INDEX, CLOSURE]

structure ElemAt (pat : Pat) (p : Int) (e : Elem) : Prop where
  code : pat.word p = e.code
  operands : ∀ k < e.operands.length,
    pat.word (p + 1 + k) = e.operands.getD k 0
  first : 1 ≤ p
  last : p + e.size ≤ pat.size + 1

variable {str : Text} {pat : Pat} {p ip : Int} {e : Elem}

theorem Pat.get_of_inside {i : Int} (h : 1 ≤ i) (h' : i ≤ pat.size) :
    pat.get i = .ok (pat.word i) :=
  if_pos ⟨h, h'⟩

theorem Pat.set_of_inside {i v : Int} (h : 1 ≤ i) (h' : i ≤ pat.size) :
    pat.set i v = .ok (pat.put i v) :=
  if_pos ⟨h, h'⟩

@[simp] theorem Pat.put_size (i v : Int) : (pat.put i v).size = pat.size := rfl

theorem Pat.put_word_self (i v : Int) : (pat.put i v).word i = short v :=
  if_pos rfl

theorem Pat.put_word_of_ne {i j : Int} (v : Int) (h : j ≠ i) :
    (pat.put i v).word j = pat.word j :=
  if_neg h

theorem ElemAt.get_code (h : ElemAt pat p e) : pat.get p = .ok e.code := by
  have := e.size_pos
  have := h.last
  rw [Pat.get_of_inside h.first (by omega), h.code]

theorem ElemAt.get_operand (h : ElemAt pat p e) {k : Nat}
    (hk : k < e.operands.length) :
    pat.get (p + 1 + k) = .ok (e.operands.getD k 0) := by
  have := e.operands_length_le
  have := h.last
  have := h.first
  rw [Pat.get_of_inside (by omega) (by omega), h.operands k hk]

theorem ElemAt.congr {pat' : Pat} (h : ElemAt pat p e)
    (hsize : pat'.size = pat.size)
    (hword : ∀ i, p ≤ i → i < p + e.size → pat'.word i = pat.word i) :
    ElemAt pat' p e where
  code := by
    have := e.size_pos
    rw [hword p (by omega) (by omega), h.code]
  operands k hk := by
    have := e.operands_length_le
    rw [hword _ (by omega) (by omega), h.operands k hk]
  first := h.first
  last := by rw [hsize]; exact h.last

theorem ElemAt.put (h : ElemAt pat p e) (he : e = .index) (v : Int) :
    ElemAt (pat.put (p + 1) v) p e where
  code := by rw [Pat.put_word_of_ne _ (by omega), h.code]
  operands k hk := by simp [he, Elem.operands] at hk
  first := h.first
  last := h.last

theorem patLocateFrom_eq (ch : Int) {chars : List Int} {i : Int}
    (h : ∀ k < chars.length, pat.get (i + k) = .ok (chars.getD k 0)) :
    patLocateFrom ch pat chars.length i = .ok (decide (ch ∈ chars)) := by
  induction chars generalizing i with
  | nil => rfl
  | cons c chars ih =>
      have h0 := h 0 (by simp)
      have htail := ih fun k hk => by
        have := h (k + 1) (by simpa using hk)
        rw [show i + 1 + (k : Int) = i + ((k + 1 : Nat) : Int) by
          push_cast; omega]
        simpa using this
      simp only [Nat.cast_zero, add_zero, List.getD_cons_zero] at h0
      by_cases hc : ch = c
      · simp [patLocateFrom, h0, hc, bind, Except.bind, pure, Except.pure]
      · simp [patLocateFrom, h0, hc, htail, bind, Except.bind]

theorem pat_locate_eq (ch : Int) {chars : List Int}
    (h : ElemAt pat p e) (he : e.operands = (chars.length : Int) :: chars) :
    pat_locate ch pat (p + 1) = .ok (decide (ch ∈ chars)) := by
  have h0 := h.get_operand (show 0 < e.operands.length by simp [he])
  have hchars : ∀ k < chars.length,
      pat.get (p + 1 + 1 + k) = .ok (chars.getD k 0) := by
    intro k hk
    have := h.get_operand (show k + 1 < e.operands.length by simpa [he])
    rw [show p + 1 + 1 + (k : Int) = p + 1 + ((k + 1 : Nat) : Int) by
      push_cast; omega, this, he]
    rfl
  simp only [he, Nat.cast_zero, add_zero, List.getD_cons_zero] at h0
  simp [pat_locate, h0, bind, Except.bind, patLocateFrom_eq ch hchars]

theorem pat_gsize_eq (h : ElemAt pat p e) : pat_gsize pat p = .ok e.size := by
  have hcode := h.get_code
  cases e with
  | ccl chars | nccl chars =>
      have h0 := h.get_operand (k := 0) (by simp [Elem.operands])
      simp only [Elem.operands, Nat.cast_zero, add_zero,
        List.getD_cons_zero] at h0
      simp [pat_gsize, hcode, h0, Elem.code, Elem.size, bind, Except.bind,
        pure, Except.pure, CCL, NCCL, CHAR, UCHAR, LCHAR, INDEX, BOL, EOL,
        ANY, WHITESPACE]
  | _ =>
      simp [pat_gsize, hcode, Elem.code, Elem.size, bind, Except.bind,
        pure, Except.pure, CHAR, UCHAR, LCHAR, INDEX, BOL, EOL, ANY,
        WHITESPACE]

/-! ## One element matched -/

theorem patBump_eq (h : ElemAt pat p e) (hc : str.char ip ≠ EOS)
    (he : e ≠ .index) :
    patBump str ip pat p e.code = .ok ((e.at str ip).map (· - ip)) := by
  cases e with
  | char a | uchar a | lchar a =>
      have h0 := h.get_operand (k := 0) (by simp [Elem.operands])
      simp only [Elem.operands, Nat.cast_zero, add_zero,
        List.getD_cons_zero] at h0
      simp [patBump, h0, Elem.code, Elem.at, Elem.accepts, hc, bind,
        Except.bind, pure, Except.pure, CHAR, UCHAR, LCHAR]
  | bol =>
      simp [patBump, Elem.code, Elem.at, hc, pure, Except.pure, CHAR, UCHAR,
        LCHAR, BOL]
  | eol =>
      simp [patBump, Elem.code, Elem.at, hc, pure, Except.pure, CHAR, UCHAR,
        LCHAR, BOL, EOL]
  | any =>
      simp [patBump, Elem.code, Elem.at, Elem.accepts, hc, pure, Except.pure,
        CHAR, UCHAR, LCHAR, BOL, EOL, ANY]
      split <;> simp
  | whitespace =>
      simp [patBump, Elem.code, Elem.at, hc, pure, Except.pure, CHAR, UCHAR,
        LCHAR, BOL, EOL, ANY, WHITESPACE]
  | ccl chars =>
      have hl := pat_locate_eq (str.char ip) h
        (show (Elem.ccl chars).operands = (chars.length : Int) :: chars
          from rfl)
      simp [patBump, hl, Elem.code, Elem.at, Elem.accepts, hc, bind,
        Except.bind, pure, Except.pure, CHAR, UCHAR, LCHAR, BOL, EOL, ANY,
        WHITESPACE, CCL]
  | nccl chars =>
      have hl := pat_locate_eq (str.char ip) h
        (show (Elem.nccl chars).operands = (chars.length : Int) :: chars
          from rfl)
      simp [patBump, hl, Elem.code, Elem.at, Elem.accepts, hc, bind,
        Except.bind, pure, Except.pure, CHAR, UCHAR, LCHAR, BOL, EOL, ANY,
        WHITESPACE, CCL, NCCL]
      split <;> simp_all
  | index => exact absurd rfl he

/-- The pattern after the element at `p` was matched at `ip`. -/
def Elem.leave (e : Elem) (pat : Pat) (p ip : Int) : Pat :=
  if e = .index then pat.put (p + 1) ip else pat

theorem pat_omatch_eq (h : ElemAt pat p e) :
    pat_omatch str ip pat p = .ok (e.at str ip, e.leave pat p ip) := by
  have hcode := h.get_code
  by_cases he : e = .index
  · subst he
    have hp := h.first
    have hlast := h.last
    have hset := pat.set_of_inside (i := p + 1) (v := ip) (by omega) (by
      simp [Elem.size] at hlast; omega)
    simp [pat_omatch, hcode, Elem.code, hset, Elem.at, Elem.leave, bind,
      Except.bind, pure, Except.pure]
  · have hne : e.code ≠ INDEX := fun h => he (e.code_eq_INDEX.mp h)
    by_cases hc : str.char ip = EOS
    · have hat : e.at str ip = if e.code = EOL then some ip else none := by
        cases e <;> simp_all [Elem.at, Elem.code, CHAR, UCHAR, LCHAR, BOL,
          EOL, ANY, WHITESPACE, CCL, NCCL]
      simp [pat_omatch, hcode, hne, hc, hat, Elem.leave, he, bind,
        Except.bind, pure, Except.pure]
    · have hbump := patBump_eq h hc he
      have hmap : ((e.at str ip).map (· - ip)).map (ip + ·) = e.at str ip := by
        cases e.at str ip <;> simp
      simp [pat_omatch, hcode, hne, hc, hbump, hmap, Elem.leave, he, bind,
        Except.bind, pure, Except.pure]

theorem ElemAt.leave (h : ElemAt pat p e) (ip : Int) :
    ElemAt (e.leave pat p ip) p e := by
  unfold Elem.leave
  split
  · exact h.put ‹_› ip
  · exact h

theorem Elem.leave_size (ip : Int) : (e.leave pat p ip).size = pat.size := by
  unfold Elem.leave
  split <;> rfl

theorem Elem.leave_word {i : Int} (ip : Int) (h : i < p ∨ p + e.size ≤ i) :
    (e.leave pat p ip).word i = pat.word i := by
  unfold Elem.leave
  split
  · rename_i he
    have hsize : e.size = 2 := by rw [he]; rfl
    exact Pat.put_word_of_ne ip (by omega)
  · rfl

/-! ## Items in a pattern -/

theorem closure_words : CLOSIZE = 4 ∧ COUNT = 1 ∧ PREVCL = 2 ∧ START = 3 :=
  ⟨rfl, rfl, rfl, rfl⟩

/-- The closure structure before an element. -/
structure ClosureAt (pat : Pat) (p prev : Int) : Prop where
  code : pat.word p = CLOSURE
  prevcl : pat.word (p + PREVCL) = prev
  first : 1 ≤ p

/-- The items stand in the words from `p` up to `q`; the last closure before
them is at `prev`, and after them at `last`. -/
def Layout (pat : Pat) : List Item → Int → Int → Int → Int → Prop
  | [], p, prev, q, last => p = q ∧ prev = last
  | .one e :: items, p, prev, q, last =>
      ElemAt pat p e ∧ Layout pat items (p + e.size) prev q last
  | .many e :: items, p, prev, q, last =>
      ClosureAt pat p prev ∧ e.consumes ∧ ElemAt pat (p + CLOSIZE) e ∧
        Layout pat items (p + CLOSIZE + e.size) p q last

/-- The patterns differ in the words from `p` up to `q` only. -/
structure Kept (p q : Int) (pat pat' : Pat) : Prop where
  size : pat'.size = pat.size
  word : ∀ i, i < p ∨ q ≤ i → pat'.word i = pat.word i

variable {items : List Item} {prev q last offset first : Int} {pat' : Pat}

theorem Kept.refl (p q : Int) (pat : Pat) : Kept p q pat pat :=
  ⟨rfl, fun _ _ => rfl⟩

theorem Kept.trans {pat'' : Pat} (h : Kept p q pat pat')
    (h' : Kept p q pat' pat'') : Kept p q pat pat'' :=
  ⟨h'.size.trans h.size, fun i hi => (h'.word i hi).trans (h.word i hi)⟩

theorem Kept.widen {p' q' : Int} (h : Kept p q pat pat') (hp : p' ≤ p)
    (hq : q ≤ q') : Kept p' q' pat pat' :=
  ⟨h.size, fun i hi => h.word i (by omega)⟩

theorem Kept.put {i v : Int} (h : p ≤ i) (h' : i < q) :
    Kept p q pat (pat.put i v) :=
  ⟨rfl, fun j hj => Pat.put_word_of_ne v (by omega)⟩

theorem Kept.leave (h : p + e.size ≤ q) (ip : Int) :
    Kept p q pat (e.leave pat p ip) :=
  ⟨Elem.leave_size ip, fun i hi => Elem.leave_word ip (by omega)⟩

theorem Layout.le (h : Layout pat items p prev q last) : p ≤ q := by
  induction items generalizing p prev with
  | nil => exact h.1.le
  | cons item items ih =>
      cases item with
      | one e =>
          have := ih h.2
          have := e.size_pos
          omega
      | many e =>
          have := ih h.2.2.2
          have := e.size_pos
          have := closure_words
          omega

theorem Layout.congr (h : Layout pat items p prev q last)
    (hsize : pat'.size = pat.size)
    (hword : ∀ i, p ≤ i → i < q → pat'.word i = pat.word i) :
    Layout pat' items p prev q last := by
  induction items generalizing p prev with
  | nil => exact h
  | cons item items ih =>
      cases item with
      | one e =>
          obtain ⟨helem, htail⟩ := h
          have hle := htail.le
          have := e.size_pos
          exact ⟨helem.congr hsize fun i hi hi' => hword i hi (by omega),
            ih htail fun i hi hi' => hword i (by omega) hi'⟩
      | many e =>
          obtain ⟨hclosure, hconsumes, helem, htail⟩ := h
          have hle := htail.le
          have := e.size_pos
          have := closure_words
          refine ⟨⟨?_, ?_, hclosure.first⟩, hconsumes,
            helem.congr hsize fun i hi hi' => hword i ?_ ?_,
            ih htail fun i hi hi' => hword i ?_ hi'⟩
          · rw [hword p (by omega) (by omega), hclosure.code]
          · rw [hword _ (by omega) (by omega), hclosure.prevcl]
          all_goals omega

theorem Layout.kept {p' : Int} (h : Layout pat items p prev q last)
    (hkept : Kept p' p pat pat') : Layout pat' items p prev q last :=
  h.congr hkept.size fun i hi _ => hkept.word i (Or.inr hi)

/-! ## Steps of the matcher -/

theorem step_one_match (h : ElemAt pat p e) {offset' : Int}
    (hat : e.at str offset = some offset') :
    amatchStep str first ⟨.head p offset prev, pat⟩ =
      .ok (.inl ⟨.next p offset' prev, e.leave pat p offset⟩) := by
  simp [amatchStep, h.get_code, pat_omatch_eq h, hat, bind, Except.bind, pure,
    Except.pure, e.code_ne_EOP, e.code_ne_CLOSURE]

theorem step_one_fail (h : ElemAt pat p e) (hat : e.at str offset = none) :
    amatchStep str first ⟨.head p offset prev, pat⟩ =
      .ok (.inl ⟨.failed prev, e.leave pat p offset⟩) := by
  simp [amatchStep, h.get_code, pat_omatch_eq h, hat, bind, Except.bind, pure,
    Except.pure, e.code_ne_EOP, e.code_ne_CLOSURE]

theorem step_closure_head (h : ClosureAt pat p prev) (hsize : p ≤ pat.size) :
    amatchStep str first ⟨.head p offset prev, pat⟩ =
      .ok (.inl ⟨.closure (p + CLOSIZE) offset offset p, pat⟩) := by
  have hget := pat.get_of_inside h.first hsize
  rw [h.code] at hget
  simp [amatchStep, hget, bind, Except.bind, pure, Except.pure, CLOSURE, EOP]

theorem step_next (h : ElemAt pat p e) :
    amatchStep str first ⟨.next p offset prev, pat⟩ =
      .ok (.inl ⟨.head (p + e.size) offset prev, pat⟩) := by
  simp [amatchStep, pat_gsize_eq h, bind, Except.bind, pure, Except.pure]

theorem step_end (hp : 1 ≤ p) (hsize : p ≤ pat.size)
    (h : pat.word p = EOP) :
    amatchStep str first ⟨.head p offset prev, pat⟩ =
      .ok (.inr (offset - first, pat)) := by
  have hget := pat.get_of_inside hp hsize
  rw [h] at hget
  simp [amatchStep, hget, bind, Except.bind, pure, Except.pure]

theorem step_empty :
    amatchStep str first ⟨.failed 0, pat⟩ = .ok (.inr (0, pat)) := by
  simp [amatchStep, pure, Except.pure]

theorem step_failed_pop (h : ClosureAt pat p prev)
    (hsize : p + PREVCL ≤ pat.size) (hcount : pat.word (p + COUNT) ≤ 0) :
    amatchStep str first ⟨.failed p, pat⟩ = .ok (.inl ⟨.failed prev, pat⟩) := by
  have hfirst := h.first
  have hwords := closure_words
  have hget := pat.get_of_inside (i := p + COUNT) (by omega) (by omega)
  have hprev := pat.get_of_inside (i := p + PREVCL) (by omega) hsize
  rw [h.prevcl] at hprev
  simp [amatchStep, hget, hprev, bind, Except.bind, pure, Except.pure,
    show ¬ p ≤ 0 by omega, show ¬ 0 < pat.word (p + COUNT) by omega]

theorem step_failed_retry (hp : 1 ≤ p) (hsize : p + START ≤ pat.size)
    {count : Nat} (hcount : pat.word (p + COUNT) = count + 1)
    (hshort : IsShort count) :
    amatchStep str first ⟨.failed p, pat⟩ =
      .ok (.inl ⟨.next (p + CLOSIZE) (pat.word (p + START) + count) p,
        pat.put (p + COUNT) count⟩) := by
  have hwords := closure_words
  have hget := pat.get_of_inside (i := p + COUNT) (by omega) (by omega)
  rw [hcount] at hget
  have hset := pat.set_of_inside (i := p + COUNT) (v := count) (by omega)
    (by omega)
  have hstart := (pat.put (p + COUNT) count).get_of_inside (i := p + START)
    (by omega) hsize
  have hleft := (pat.put (p + COUNT) count).get_of_inside (i := p + COUNT)
    (by omega) (by simp only [Pat.put_size]; omega)
  rw [Pat.put_word_of_ne _ (by omega)] at hstart
  rw [Pat.put_word_self, short_of_isShort hshort] at hleft
  simp [amatchStep, hget, hset, hstart, hleft, bind, Except.bind, pure,
    Except.pure, show ¬ p ≤ 0 by omega, show (0 : Int) < count + 1 by omega]

/-! ## Loops of the matcher -/

theorem Elem.at_of_consumes (he : e.consumes) :
    e.at str ip = if e.runs (str.char ip) then some (ip + 1) else none := by
  cases e <;> simp_all [Elem.at, Elem.consumes, Elem.runs]

theorem Elem.leave_of_consumes (he : e.consumes) : e.leave pat p ip = pat := by
  cases e <;> simp_all [Elem.leave, Elem.consumes]

/-- The pattern with what a closure at `p` saves. -/
def saved (pat : Pat) (p count start : Int) : Pat :=
  (pat.put (p + COUNT) count).put (p + START) start

theorem reaches_run_end (he : e.consumes) (h : ElemAt pat (p + CLOSIZE) e)
    (hp : 1 ≤ p) (ip : Int) :
    Reaches (amatchStep str first)
      ⟨.closure (p + CLOSIZE) offset ip p, pat⟩
      ⟨.next (p + CLOSIZE) (e.runEnd str ip) p,
        saved pat p (e.runEnd str ip - offset) offset⟩ := by
  have hmatch (ip : Int) : pat_omatch str ip pat (p + CLOSIZE) = _ :=
    pat_omatch_eq h
  have hwords := closure_words
  have hsize := e.size_pos
  have hlast := h.last
  unfold Elem.runEnd
  induction ip using str.skip_induction e.runs_EOS with
  | stop ip hstop =>
      rw [str.skip_eq e.runs_EOS, if_neg (by simp [hstop])]
      have hcount := pat.set_of_inside (i := p + COUNT) (v := ip - offset)
        (by omega) (by omega)
      have hstart := (pat.put (p + COUNT) (ip - offset)).set_of_inside
        (i := p + START) (v := offset) (by omega)
        (by simp only [Pat.put_size]; omega)
      apply Reaches.one
      by_cases hc : str.char ip = EOS
      · simp [amatchStep, hc, hcount, hstart, saved, bind, Except.bind, pure,
          Except.pure]
      · simp [amatchStep, hc, hmatch, Elem.at_of_consumes he, hstop, hcount,
          hstart, saved, Elem.leave_of_consumes he, bind, Except.bind, pure,
          Except.pure]
  | next ip hnext ih =>
      rw [str.skip_eq e.runs_EOS, if_pos hnext]
      refine .next ?_ ih
      have hc : str.char ip ≠ EOS := by simp_all [Elem.runs]
      simp [amatchStep, hc, hmatch, Elem.at_of_consumes he, hnext,
        Elem.leave_of_consumes he, bind, Except.bind, pure, Except.pure]

/-! ## The matcher makes the search -/

/-- Where a search over the words up to `q` leaves the matcher. -/
def settled (q prev last : Int) : Option Int → Place
  | some offset => .head q offset last
  | none => .failed prev

@[simp] theorem settled_some (q prev last offset : Int) :
    settled q prev last (some offset) = .head q offset last := rfl

@[simp] theorem settled_none (q prev last : Int) :
    settled q prev last none = .failed prev := rfl

/-- The matcher goes from one place to another, changes only the words that
the items have from `p` up to `q`, and leaves the items there. -/
def Searches (str : Text) (first : Int) (items : List Item)
    (p prev q last : Int) (pat : Pat) (place place' : Place) : Prop :=
  ∃ pat', Kept p q pat pat' ∧ Layout pat' items p prev q last ∧
    Reaches (amatchStep str first) ⟨place, pat⟩ ⟨place', pat'⟩

theorem Layout.many_congr (h : Layout pat (.many e :: items) p prev q last)
    (hsize : pat'.size = pat.size)
    (hword : ∀ i, p ≤ i → i < p + CLOSIZE + e.size → i ≠ p + COUNT →
      i ≠ p + START → pat'.word i = pat.word i)
    (htail : Layout pat' items (p + CLOSIZE + e.size) p q last) :
    Layout pat' (.many e :: items) p prev q last := by
  obtain ⟨hclosure, he, helem, -⟩ := h
  have hwords := closure_words
  have hpos := e.size_pos
  refine ⟨⟨?_, ?_, hclosure.first⟩, he, helem.congr hsize ?_, htail⟩
  · rw [hword p (by omega) (by omega) (by omega) (by omega), hclosure.code]
  · rw [hword _ (by omega) (by omega) (by omega) (by omega), hclosure.prevcl]
  · exact fun i hi hi' => hword i (by omega) hi' (by omega) (by omega)

theorem Layout.many_put {i v : Int}
    (h : Layout pat (.many e :: items) p prev q last)
    (hi : i = p + COUNT ∨ i = p + START) :
    Layout (pat.put i v) (.many e :: items) p prev q last := by
  have hwords := closure_words
  have hpos := e.size_pos
  refine h.many_congr rfl
    (fun j _ _ hc hs => Pat.put_word_of_ne v (by omega))
    (h.2.2.2.congr rfl fun j hj _ => Pat.put_word_of_ne v (by omega))

theorem Layout.many_kept (h : Layout pat (.many e :: items) p prev q last)
    (hkept : Kept (p + CLOSIZE + e.size) q pat pat')
    (htail : Layout pat' items (p + CLOSIZE + e.size) p q last) :
    Layout pat' (.many e :: items) p prev q last :=
  h.many_congr hkept.size (fun i _ hi _ _ => hkept.word i (Or.inl hi)) htail

/-- What is known of the search for the items that follow at `p`. -/
def SearchesFrom (str : Text) (first : Int) (items : List Item)
    (p prev q last : Int) : Prop :=
  ∀ offset pat, Layout pat items p prev q last →
    Searches str first items p prev q last pat (.head p offset prev)
      (settled q prev last (firstMatch str items offset))

theorem searches_retry {start : Int}
    (behind : SearchesFrom str first items (p + CLOSIZE + e.size) p q last)
    (count : Nat) (hshort : (count : Int) ≤ 32767) (pat : Pat)
    (hlayout : Layout pat (.many e :: items) p prev q last)
    (hcount : (pat.word (p + COUNT)).toNat = count)
    (hstart : pat.word (p + START) = start) :
    Searches str first (.many e :: items) p prev q last pat (.failed p)
      (settled q prev last (retry (firstMatch str items) start count)) := by
  have hwords := closure_words
  have hsize := e.size_pos
  induction count generalizing pat with
  | zero =>
      have hlast := hlayout.2.2.1.last
      refine ⟨pat, .refl p q pat, hlayout, .one ?_⟩
      exact step_failed_pop hlayout.1 (by omega) (by omega)
  | succ count ih =>
      have hfirst := hlayout.1.first
      have hlast := hlayout.2.2.1.last
      have hend := hlayout.2.2.2.le
      -- Give one char back, and search behind the closure again.
      have hstep : amatchStep str first ⟨.failed p, pat⟩ = _ :=
        step_failed_retry hfirst (by omega)
          (show pat.word (p + COUNT) = count + 1 by omega)
          (by constructor <;> omega)
      rw [hstart] at hstep
      have hlayout1 := hlayout.many_put (v := count) (Or.inl rfl)
      obtain ⟨pat2, hkept, htail, hreach⟩ :=
        behind (start + count) _ hlayout1.2.2.2
      have hlayout2 := hlayout1.many_kept hkept htail
      have hkept2 : Kept p q pat pat2 :=
        (Kept.put (by omega) (by omega)).trans (hkept.widen (by omega) le_rfl)
      have hreach2 :=
        (Reaches.next hstep (.one (step_next hlayout1.2.2.1))).trans hreach
      cases hfound : firstMatch str items (start + count) with
      | some offset =>
          rw [hfound] at hreach2
          exact ⟨pat2, hkept2, hlayout2, by simpa [retry, hfound] using hreach2⟩
      | none =>
          rw [hfound, settled_none] at hreach2
          have hcount2 : (pat2.word (p + COUNT)).toNat = count := by
            rw [hkept.word _ (Or.inl (by omega)), Pat.put_word_self,
              short_of_isShort (by constructor <;> omega)]
            omega
          have hstart2 : pat2.word (p + START) = start := by
            rw [hkept.word _ (Or.inl (by omega)),
              Pat.put_word_of_ne _ (by omega), hstart]
          obtain ⟨pat3, hkept3, hlayout3, hreach3⟩ :=
            ih (by omega) pat2 hlayout2 hcount2 hstart2
          refine ⟨pat3, hkept2.trans hkept3, hlayout3, hreach2.trans ?_⟩
          simpa [retry, hfound] using hreach3

theorem searches_one
    (behind : SearchesFrom str first items (p + e.size) prev q last) :
    SearchesFrom str first (.one e :: items) p prev q last := by
  rintro offset pat ⟨helem, htail⟩
  have hsize := e.size_pos
  have hle := htail.le
  have helem1 := helem.leave offset
  have hkept1 : Kept p q pat (e.leave pat p offset) := .leave hle offset
  have htail1 := htail.kept (Kept.leave (le_refl (p + e.size)) offset)
  cases hat : e.at str offset with
  | none =>
      refine ⟨_, hkept1, ⟨helem1, htail1⟩, .one ?_⟩
      simpa [firstMatch, hat] using step_one_fail helem hat
  | some offset' =>
      obtain ⟨pat2, hkept2, htail2, hreach⟩ := behind offset' _ htail1
      refine ⟨pat2, hkept1.trans (hkept2.widen (by omega) le_rfl),
        ⟨helem1.congr hkept2.size fun i _ hi =>
          hkept2.word i (Or.inl hi), htail2⟩, ?_⟩
      simpa [firstMatch, hat] using
        (Reaches.next (step_one_match helem hat)
          (.one (step_next helem1))).trans hreach

theorem searches_many
    (behind : SearchesFrom str first items (p + CLOSIZE + e.size) p q last) :
    SearchesFrom str first (.many e :: items) p prev q last := by
  intro offset pat hlayout
  have hwords := closure_words
  have hsize := e.size_pos
  have hend := hlayout.2.2.2.le
  have hfirst := hlayout.1.first
  have hlast := hlayout.2.2.1.last
  -- Match as many characters as possible, and search behind them.
  let ip := e.runEnd str offset
  let pat1 := saved pat p (ip - offset) offset
  have hlayout1 : Layout pat1 (.many e :: items) p prev q last :=
    (hlayout.many_put (Or.inl rfl)).many_put (Or.inr rfl)
  have hkept1 : Kept p q pat pat1 :=
    (Kept.put (by omega) (by omega)).trans (.put (by omega) (by omega))
  have hrun : Reaches (amatchStep str first) ⟨.head p offset prev, pat⟩
      ⟨.head (p + CLOSIZE + e.size) ip p, pat1⟩ :=
    ((Reaches.one (step_closure_head hlayout.1 (by omega))).trans
      (reaches_run_end hlayout.2.1 hlayout.2.2.1 hfirst offset)).trans
      (.one (step_next hlayout1.2.2.1))
  obtain ⟨pat2, hkept2, htail2, hreach2⟩ := behind ip pat1 hlayout1.2.2.2
  have hlayout2 := hlayout1.many_kept hkept2 htail2
  have hkept12 := hkept1.trans (hkept2.widen (by omega) le_rfl)
  cases hfound : firstMatch str items ip with
  | some offset' =>
      refine ⟨pat2, hkept12, hlayout2, ?_⟩
      rw [hfound] at hreach2
      simpa [firstMatch, ip, hfound] using hrun.trans hreach2
  | none =>
      have hcount2 : pat2.word (p + COUNT) = short (ip - offset) := by
        rw [hkept2.word _ (Or.inl (by omega))]
        simp only [pat1, saved]
        rw [Pat.put_word_of_ne _ (by omega), Pat.put_word_self]
      have hstart2 : pat2.word (p + START) = short offset := by
        rw [hkept2.word _ (Or.inl (by omega))]
        exact Pat.put_word_self _ _
      have hshort := isShort_short (ip - offset)
      obtain ⟨pat3, hkept3, hlayout3, hreach3⟩ :=
        searches_retry behind (short (ip - offset)).toNat
          (by unfold IsShort at hshort; omega) pat2 hlayout2
          (by rw [hcount2]) hstart2
      refine ⟨pat3, hkept12.trans hkept3, hlayout3, ?_⟩
      rw [hfound, settled_none] at hreach2
      simpa [firstMatch, ip, hfound] using
        (hrun.trans hreach2).trans hreach3

theorem searches_items (items : List Item) (p prev : Int) :
    SearchesFrom str first items p prev q last := by
  induction items generalizing p prev with
  | nil =>
      rintro offset pat ⟨rfl, rfl⟩
      exact ⟨pat, .refl p p pat, ⟨rfl, rfl⟩, .refl _⟩
  | cons item items ih =>
      cases item with
      | one e => exact searches_one (ih _ _)
      | many e => exact searches_many (ih _ _)

end Iraf.Fmtio
