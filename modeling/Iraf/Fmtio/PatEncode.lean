import Iraf.Fmtio.PatSearch

/-!
# What is encoded

`gpatmake` and the reading of a pattern go through the string side by side.
Each round deposits the words of an element, inserts a closure before the last
element, or only changes the case mode; so the items of the pattern end up laid
out in the buffer, up to the first star that does not apply to a char.
-/

namespace Iraf.Fmtio

variable {patstr : Text} {sz : Int} {out out' out'' : Out} {ws ws' : List Int}

/-! ## Deposits -/

/-- The words `ws` were added to the buffer. -/
structure Wrote (ws : List Int) (out out' : Out) : Prop where
  op : out'.op = out.op + ws.length
  words : ∀ k < ws.length, out'.buf (out.op + k) = ws.getD k 0
  below : ∀ i < out.op, out'.buf i = out.buf i
  above : ∀ i, out'.op ≤ i → out'.buf i = out.buf i

theorem Wrote.nil (out : Out) : Wrote [] out out :=
  ⟨by simp, by simp, fun _ _ => rfl, fun _ _ => rfl⟩

theorem Wrote.append (h : Wrote ws out out') (h' : Wrote ws' out' out'') :
    Wrote (ws ++ ws') out out'' where
  op := by
    rw [h'.op, h.op, List.length_append]
    push_cast
    omega
  words k hk := by
    have hop := h.op
    by_cases hk' : k < ws.length
    · rw [h'.below _ (by omega), h.words k hk',
        List.getD_append _ _ _ _ hk']
    · rw [List.length_append] at hk
      have := h'.words (k - ws.length) (by omega)
      rw [List.getD_append_right _ _ _ _ (by omega), ← this]
      congr 1
      omega
  below i hi := by
    have hop := h.op
    rw [h'.below i (by omega), h.below i hi]
  above i hi := by
    have hop := h'.op
    rw [h'.above i hi, h.above i (by omega)]

theorem Wrote.patch {x y : Int} (h : Wrote (ws ++ x :: ws') out out')
    (hy : IsShort y) :
    Wrote (ws ++ y :: ws') out
      { out' with buf := store out'.buf (out.op + ws.length) y } where
  op := by simpa using h.op
  words k hk := by
    simp only [List.length_append, List.length_cons] at hk
    have hword := h.words k (by simpa using hk)
    rcases lt_trichotomy k ws.length with hlt | rfl | hgt
    · rw [List.getD_append _ _ _ _ hlt] at hword ⊢
      simpa [store, show k ≠ ws.length by omega] using hword
    · simp [store, short_of_isShort hy]
    · rw [List.getD_append_right _ _ _ _ (by omega)] at hword ⊢
      obtain ⟨j, hj⟩ := Nat.exists_eq_add_of_lt hgt
      rw [show k - ws.length = j + 1 by omega] at hword ⊢
      simpa [store, show k ≠ ws.length by omega] using hword
  below i hi := by
    simpa [store, show i ≠ out.op + ws.length by omega] using h.below i hi
  above i hi := by
    have hop := h.op
    simp only [List.length_append, List.length_cons] at hop
    simpa [store, show i ≠ out.op + ws.length by simp only at hi; omega]
      using h.above i hi

theorem wrote_chdeposit {c : Int} (hop : (chdeposit c sz out).op < sz) :
    Wrote [short c] out (chdeposit c sz out) := by
  have hlt : out.op < sz := by
    by_contra hlt
    simp only [chdeposit, if_neg hlt] at hop
    exact hlt hop
  refine ⟨by simp [chdeposit, hlt], fun k hk => ?_, fun i hi => ?_,
    fun i hi => ?_⟩
  · obtain rfl : k = 0 := by simpa using hk
    simp [chdeposit, store]
  · simp [chdeposit, store, show i ≠ out.op by omega]
  · simp only [chdeposit, if_pos hlt] at hi
    simp [chdeposit, store, show i ≠ out.op by omega]

theorem le_chdeposit (c : Int) : out.op ≤ (chdeposit c sz out).op := by
  unfold chdeposit
  dsimp only
  split <;> omega

theorem le_deposits (cs : List Int) : out.op ≤ (deposits cs sz out).op := by
  induction cs generalizing out with
  | nil => exact le_rfl
  | cons c cs ih => exact (le_chdeposit c).trans ih

theorem deposits_op_le (cs : List Int) :
    (deposits cs sz out).op ≤ out.op + cs.length := by
  induction cs generalizing out with
  | nil => simp [deposits]
  | cons c cs ih =>
      have hrest : (deposits (c :: cs) sz out).op ≤
          (chdeposit c sz out).op + cs.length := ih
      have hone : (chdeposit c sz out).op ≤ out.op + 1 := by
        simp only [chdeposit]
        split <;> omega
      simp only [List.length_cons, Nat.cast_add, Nat.cast_one]
      omega

theorem wrote_deposits {cs : List Int} (hop : (deposits cs sz out).op < sz) :
    Wrote (cs.map short) out (deposits cs sz out) := by
  induction cs generalizing out with
  | nil => exact .nil out
  | cons c cs ih =>
      have hle : (chdeposit c sz out).op ≤ (deposits (c :: cs) sz out).op :=
        le_deposits cs
      exact (wrote_chdeposit (lt_of_le_of_lt hle hop)).append (ih hop)

/-! ## Escapes -/

theorem isShort_getD {cs : List Int} (h : ∀ c ∈ cs, IsShort c) (k : Nat) :
    IsShort (cs.getD k 0) := by
  by_cases hk : k < cs.length
  · rw [List.getD_eq_getElem _ _ hk]
    exact h _ (List.getElem_mem hk)
  · rw [List.getD_eq_default _ _ (by omega)]
    decide

theorem isShort_cctocChar (ip : Int) {cval : Int} (eat_tick : Bool)
    (h : IsShort cval) : IsShort (cctocChar patstr ip cval eat_tick).2 := by
  have hmapped : ∀ k, IsShort (mapped_chars.getD k 0) :=
    isShort_getD (by decide)
  have hticks : IsShort ESCAPE ∧ IsShort SQUOTE := by decide
  unfold cctocChar
  dsimp only
  split_ifs
  · exact hmapped _
  · exact isShort_short _
  · exact patstr.isShort _
  · exact hticks.1
  · exact patstr.isShort _
  · exact hticks.2
  · exact h

theorem isShort_patEscape (ip : Int) : IsShort (patEscape patstr ip).1 := by
  unfold patEscape
  dsimp only
  split
  · exact patstr.isShort _
  · exact isShort_cctocChar _ _ (by decide)

theorem le_gctolDigits (base : Int) (fuel : Nat) (ip lval ch : Int) :
    ip ≤ (gctolDigits patstr base fuel ip lval ch).1 := by
  induction fuel generalizing ip lval ch with
  | zero => exact le_rfl
  | succ fuel ih =>
      have hnext : ∀ lval ch,
          ip ≤ (gctolDigits patstr base fuel (ip + 1) lval ch).1 :=
        fun lval ch => (Int.le_add_one le_rfl).trans (ih (ip + 1) lval ch)
      unfold gctolDigits
      dsimp only
      split_ifs <;> first | exact le_rfl | exact hnext _ _

theorem le_gctolFrom (ip_save first_char radix : Int)
    (h : ip_save ≤ first_char) :
    ip_save ≤ (gctolFrom patstr ip_save first_char radix).1 := by
  unfold gctolFrom
  dsimp only
  generalize (if radix < 0 then -radix else radix) = base
  have hdigits := @le_gctolDigits patstr base
    (patstr.extent + 1 - first_char).toNat first_char 0 0
  split_ifs <;> dsimp only <;> omega

theorem le_gctol (ip radix : Int) : ip ≤ (gctol patstr ip radix).1 := by
  have hskip := patstr.le_skip isWhite_EOS ip
  unfold gctol
  dsimp only
  split_ifs
  · exact hskip.trans (le_gctolFrom _ _ _ (by omega))
  · exact hskip.trans (le_gctolFrom _ _ _ (by omega))
  · exact hskip.trans (le_gctolFrom _ _ _ le_rfl)

theorem le_patEscape {ip : Int} (hc : patstr.char ip = ESCAPE) :
    ip ≤ (patEscape patstr ip).2 := by
  have hskip : patstr.skip IS_WHITE ip = ip := by
    rw [patstr.skip_eq isWhite_EOS, hc, if_neg (by decide)]
  have hdigits : ip + 1 ≤ (gctol patstr (ip + 1) (-8)).1 := le_gctol _ _
  have hne : ESCAPE ≠ SQUOTE ∧ ESCAPE ≠ EOS := by decide
  unfold patEscape cctoc cctocChar
  simp only [hskip, hc, hne.1, hne.2, decide_false, Bool.false_eq_true,
    if_false, false_and, true_and, ne_eq, not_false_eq_true, if_true]
  split_ifs <;> dsimp only at * <;> omega

/-! ## Character classes -/

theorem map_short {cs : List Int} (h : ∀ c ∈ cs, IsShort c) :
    cs.map short = cs :=
  (List.map_congr_left fun c hc => short_of_isShort (h c hc)).trans
    (List.map_id cs)

theorem isShort_of_range {ch1 ch2 c : Int} (h1 : IsShort ch1) (h2 : IsShort ch2)
    (hc : c ∈ rangeChars ch1 ch2) : IsShort c := by
  unfold IsShort at *
  unfold rangeChars at hc
  split at hc
  all_goals
    simp only [List.mem_map, List.mem_range] at hc
    obtain ⟨k, hk, rfl⟩ := hc
    omega

theorem Wrote.last {acc cs : List Int} (h : Wrote cs out out')
    (hlast : out.buf (out.op - 1) = acc.getLastD 0) :
    out'.buf (out'.op - 1) = (acc ++ cs).getLastD 0 := by
  rcases cs.eq_nil_or_concat with rfl | ⟨init, c, rfl⟩
  · have hop := h.op
    simp only [List.length_nil, Nat.cast_zero, add_zero] at hop
    rw [hop, h.below _ (by omega), hlast, List.append_nil]
  · have hop := h.op
    have hword := h.words init.length (by simp)
    simp only [List.concat_eq_append, List.length_append,
      List.length_singleton, Nat.cast_add, Nat.cast_one] at hop
    rw [show out'.op - 1 = out.op + init.length by omega, hword]
    simp [List.getLastD_eq_getLast?]

theorem le_patFilset (delim : Int) (fuel : Nat) (ip : Int) (out : Out) :
    out.op ≤ (patFilset delim patstr sz fuel ip out).2.op := by
  induction fuel generalizing ip out with
  | zero => exact le_rfl
  | succ fuel ih =>
      unfold patFilset
      dsimp only
      split_ifs
      · exact le_rfl
      all_goals
        refine le_trans ?_ (ih _ _)
        first | exact le_chdeposit _ | exact le_deposits _

theorem wrote_patFilset (fuel : Nat) (ip : Int) (acc : List Int)
    (hfirst : 1 < out.op) (hlast : out.buf (out.op - 1) = acc.getLastD 0)
    (hop : (patFilset CH_CCLEND patstr sz fuel ip out).2.op < sz) :
    ∃ chars, classChars patstr fuel ip acc =
        ((patFilset CH_CCLEND patstr sz fuel ip out).1, acc ++ chars) ∧
      Wrote chars out (patFilset CH_CCLEND patstr sz fuel ip out).2 := by
  induction fuel generalizing ip out acc with
  | zero => exact ⟨[], by simp [classChars, patFilset], .nil out⟩
  | succ fuel ih =>
      -- A round that lists the chars `cs` and goes on at `ip'`.
      have hround : ∀ (cs : List Int) (ip' : Int), (∀ c ∈ cs, IsShort c) →
          (patFilset CH_CCLEND patstr sz fuel ip' (deposits cs sz out)).2.op
            < sz →
          ∃ chars, classChars patstr fuel ip' (acc ++ cs) =
              ((patFilset CH_CCLEND patstr sz fuel ip'
                (deposits cs sz out)).1, acc ++ chars) ∧
            Wrote chars out (patFilset CH_CCLEND patstr sz fuel ip'
              (deposits cs sz out)).2 := by
        intro cs ip' hcs hop'
        have hdeposits := lt_of_le_of_lt (le_patFilset _ _ _ _) hop'
        have hwrote := wrote_deposits hdeposits
        rw [map_short hcs] at hwrote
        obtain ⟨chars, hchars, hrest⟩ := ih ip' (acc ++ cs)
          (lt_of_lt_of_le hfirst (le_deposits cs)) (hwrote.last hlast) hop'
        exact ⟨cs ++ chars, by rw [hchars, List.append_assoc],
          hwrote.append hrest⟩
      have hone : ∀ (c : Int) (ip' : Int), IsShort c →
          (patFilset CH_CCLEND patstr sz fuel ip' (chdeposit c sz out)).2.op
            < sz → _ :=
        fun c ip' hc hop' => hround [c] ip' (by simpa using hc) hop'
      unfold patFilset at hop ⊢
      unfold classChars
      simp only at hop ⊢
      by_cases hend : patstr.char ip = CH_CCLEND ∨ patstr.char ip = EOS
      · simp only [if_pos hend]
        exact ⟨[], by simp, .nil out⟩
      simp only [if_neg hend] at hop ⊢
      by_cases hesc : patstr.char ip = ESCAPE
      · simp only [if_pos hesc] at hop ⊢
        exact hone _ _ (isShort_patEscape ip) hop
      simp only [if_neg hesc] at hop ⊢
      by_cases hrange : patstr.char ip = CH_RANGE
      · by_cases hnext : patstr.char (ip + 1) = EOS
        · simp only [hrange, hnext, ne_eq, not_true, if_false, or_true,
            if_true] at hop ⊢
          exact hone _ _ (by decide) hop
        · simp only [hrange, hnext, ne_eq, not_true, if_false, or_false,
            show ¬ out.op ≤ 1 by omega] at hop ⊢
          rw [hlast] at hop ⊢
          split_ifs at hop ⊢ with hlimits
          · refine hround _ _ (fun c hc => ?_) hop
            refine isShort_of_range ?_ (patstr.isShort _) hc
            simp only [IS_DIGIT, IS_LOWER, IS_UPPER, Bool.and_eq_true,
              decide_eq_true_eq] at hlimits
            unfold IsShort
            omega
          · exact hone _ _ (by decide) hop
      · simp only [hrange, ne_eq, not_false_eq_true, if_true, true_or]
          at hop ⊢
        exact hone _ _ (patstr.isShort ip) hop

/-! ## Elements -/

/-- The words that encode an element. -/
def Elem.words (e : Elem) : List Int :=
  e.code :: (e.operands ++ if e = .index then [0] else [])

theorem Elem.words_length (e : Elem) : (e.words.length : Int) = e.size := by
  cases e <;> simp [words, operands, size] <;> omega

theorem Wrote.elemAt {e : Elem} {size : Int} (h : Wrote e.words out out')
    (hfirst : 1 ≤ out.op) (hlast : out'.op ≤ size + 1) :
    ElemAt ⟨out'.buf, size⟩ out.op e where
  code := by
    have := h.words 0 (by simp [Elem.words])
    simpa [Elem.words] using this
  operands k hk := by
    have := h.words (k + 1) (by simp [Elem.words]; omega)
    simp only [Elem.words, List.getD_cons_succ, Nat.cast_add, Nat.cast_one]
      at this
    rw [List.getD_append _ _ _ _ hk] at this
    rw [← this, show out.op + 1 + (k : Int) = out.op + (k + 1) by omega]
  first := hfirst
  last := by
    have hop := h.op
    rw [e.words_length] at hop
    simp only
    omega

theorem Wrote.op_size {e : Elem} (h : Wrote e.words out out') :
    out'.op = out.op + e.size := by
  rw [h.op, e.words_length]

/-- The class element that begins at `ip`, with the chars read from it. -/
def classElem (patstr : Text) (ip : Int) (chars : List Int) : Elem :=
  if patstr.char (ip + 1) = CH_NOT then .nccl chars else .ccl chars

def classStart (patstr : Text) (ip : Int) : Int :=
  if patstr.char (ip + 1) = CH_NOT then ip + 2 else ip + 1

theorem pat_getccl_eq (ip : Int) (out : Out) :
    pat_getccl patstr sz ip out =
      (let start := classStart patstr ip
       let code := (classElem patstr ip []).code
       let head := deposits [code, 0] sz out
       let (ip', out') := patFilset CH_CCLEND patstr sz (rounds patstr start)
         start head
       let op_start := (deposits [code] sz out).op
       (decide (patstr.char ip' = CH_CCLEND), ip',
         { out' with buf := store out'.buf op_start (out'.op - op_start - 1) })) := by
  unfold pat_getccl classStart classElem
  by_cases hneg : patstr.char (ip + 1) = CH_NOT
  · simp only [hneg, if_true]
    rw [Int.add_assoc]
    rfl
  · simp only [hneg, if_false]
    rfl

theorem le_getccl (ip : Int) (out : Out) :
    out.op ≤ (pat_getccl patstr sz ip out).2.2.op := by
  rw [pat_getccl_eq]
  exact (le_deposits _).trans (le_patFilset _ _ _ _)

theorem wrote_getccl (ip : Int) (hfirst : 1 ≤ out.op)
    (hop : (pat_getccl patstr sz ip out).2.2.op < sz)
    (hlim : (pat_getccl patstr sz ip out).2.2.op ≤ 32768) :
    ∃ chars, classChars patstr (rounds patstr (classStart patstr ip))
        (classStart patstr ip) [] =
        ((pat_getccl patstr sz ip out).2.1, chars) ∧
      Wrote (classElem patstr ip chars).words out
        (pat_getccl patstr sz ip out).2.2 := by
  rw [pat_getccl_eq] at hop hlim ⊢
  simp only at hop hlim ⊢
  set code := (classElem patstr ip []).code with hcode
  set start := classStart patstr ip
  have hclass : ∀ chars, (classElem patstr ip chars).words =
      [code] ++ ([(chars.length : Int)] ++ chars) := by
    intro chars
    rw [hcode]
    unfold classElem
    split <;> simp [Elem.words, Elem.operands, Elem.code]
  have hshort : short code = code := by
    rw [hcode]
    unfold classElem
    split <;> rfl
  have hhead : Wrote [code, 0] out (deposits [code, 0] sz out) := by
    have := wrote_deposits (lt_of_le_of_lt (le_patFilset _ _ _ _) hop)
    simpa [hshort, show short 0 = 0 from rfl] using this
  have hop_start : (deposits [code] sz out).op = out.op + 1 := by
    have hle : (deposits [code] sz out).op ≤ (deposits [code, 0] sz out).op :=
      le_chdeposit 0
    exact (wrote_deposits (lt_of_le_of_lt
      (hle.trans (le_patFilset _ _ _ _)) hop)).op
  have hheadop := hhead.op
  simp only [List.length_cons, List.length_nil] at hheadop
  obtain ⟨chars, hchars, hwrote⟩ := @wrote_patFilset patstr sz _
    (rounds patstr start) start [] (show 1 < (deposits [code, 0] sz out).op by
      omega) (by
      have := hhead.words 1 (by simp)
      rw [hheadop]
      simpa [show out.op + 2 - 1 = out.op + 1 by omega] using this) hop
  refine ⟨chars, by simpa using hchars, ?_⟩
  have hall : Wrote ([code] ++ 0 :: chars) out _ := hhead.append hwrote
  have hcount := hall.op
  simp only [List.length_append, List.length_cons, List.length_nil,
    Nat.cast_add, Nat.cast_one, Nat.cast_zero] at hcount
  rw [hop_start, hclass, show
    (patFilset CH_CCLEND patstr sz (rounds patstr start) start
      (deposits [code, 0] sz out)).2.op - (out.op + 1) - 1 = chars.length by
    omega]
  exact hall.patch (by unfold IsShort; omega)

/-! ## Closures -/

theorem patHole_eq {lo : Int} (count : Nat) (jp : Int) (buf : Int → Int)
    (hcount : jp + 1 - lo ≤ count) (hjp : jp + CLOSIZE ≤ sz) (i : Int) :
    patHole sz lo count jp buf i =
      if lo + CLOSIZE ≤ i ∧ i ≤ jp + CLOSIZE then buf (i - CLOSIZE)
      else buf i := by
  have hwords := closure_words
  induction count generalizing jp buf with
  | zero =>
      rw [patHole, if_neg (by omega)]
  | succ count ih =>
      unfold patHole
      by_cases hlt : jp < lo
      · rw [if_pos hlt, if_neg (by omega)]
      · rw [if_neg hlt, show min sz (jp + CLOSIZE) = jp + CLOSIZE by omega,
          ih (jp - 1) _ (by omega) (by omega)]
        by_cases hi : i = jp + CLOSIZE
        · rw [if_neg (by omega), if_pos (by omega), if_pos (by omega), hi,
            show jp + CLOSIZE - CLOSIZE = jp by omega]
        · by_cases hin : lo + CLOSIZE ≤ i ∧ i ≤ jp + CLOSIZE
          · rw [if_pos (by omega), if_neg (by omega), if_pos hin]
          · rw [if_neg (by omega), if_neg (by omega), if_neg hin]

/-- A closure entry was inserted before the words from `lo` on. -/
structure Inserted (lo last_closure : Int) (out out' : Out) : Prop where
  op : out'.op = out.op + CLOSIZE
  moved : ∀ i, lo ≤ i → i < out.op → out'.buf (i + CLOSIZE) = out.buf i
  code : out'.buf lo = CLOSURE
  prevcl : out'.buf (lo + PREVCL) = short last_closure
  below : ∀ i < lo, out'.buf i = out.buf i

theorem inserted_stclos {lo last_closure : Int} (hlo : lo ≤ out.op)
    (hop : (pat_stclos sz lo last_closure out).op < sz) :
    Inserted lo last_closure out (pat_stclos sz lo last_closure out) := by
  have hwords := closure_words
  simp only [pat_stclos] at hop
  set buf := patHole sz lo (out.op - lo).toNat (out.op - 1) out.buf with hbuf
  have hhole : ∀ i, buf i = _ :=
    patHole_eq (out.op - lo).toNat (out.op - 1) out.buf (by omega) (by omega)
  have hle : (deposits [CLOSURE, 0, last_closure, 0] sz ⟨buf, lo⟩).op ≤ lo + 4 :=
    deposits_op_le _
  have hentry := wrote_deposits (lt_of_le_of_lt hle (by omega))
  have hend := hentry.op
  simp only [List.length_map, List.length_cons, List.length_nil] at hend
  refine ⟨rfl, fun i hi hi' => ?_, ?_, ?_, fun i hi => ?_⟩
  · simp only [pat_stclos]
    rw [hentry.above _ (by omega)]
    simp only
    rw [hhole, if_pos (by omega), show i + CLOSIZE - CLOSIZE = i by omega]
  · simpa [pat_stclos, ← hbuf, show short CLOSURE = CLOSURE from rfl] using
      hentry.words 0 (by simp)
  · simpa [pat_stclos, ← hbuf, show PREVCL = 2 from rfl] using
      hentry.words 2 (by simp)
  · simp only [pat_stclos]
    rw [hentry.below i hi]
    simp only
    rw [hhole, if_neg (by omega)]

end Iraf.Fmtio
