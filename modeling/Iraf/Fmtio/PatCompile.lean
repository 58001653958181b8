import Mathlib
import Iraf.Fmtio.PatEncode

/-!
# The encoded pattern

The loop of `gpatmake` next to the loop that reads the pieces: after each round
the buffer holds the items of the pieces read so far, or the items before the
first piece whose stars make no sense and the words that such a piece begins
with.
-/

namespace Iraf.Fmtio

variable {patstr : Text} {sz size : Int} {m m' : Make} {r r' : Read}

/-! ## One round -/

/-- The buffer after the ANY that a star may need before it. -/
def starOut (sz first : Int) (m : Make) : Out :=
  if m.ip = first ∨ m.out.buf m.last_op = BOL ∨ m.out.buf m.last_op = EOL ∨
      m.out.buf m.last_op = CLOSURE then chdeposit ANY sz m.out
  else m.out

/-- What a round of the two loops does. -/
inductive Round (patstr : Text) (sz : Int) (m m' : Make) (r r' : Read) : Prop
  | element (e : Elem)
      (bol : e = .bol → r.ip = 1)
      (eol : e = .eol → patstr.char (r'.ip + 1) = EOS)
      (pieces : r'.pieces = ⟨e, 0⟩ :: r.pieces)
      (attached : r'.detached = false)
      (wrote : Wrote e.words m.out m'.out)
      (last_op : m'.last_op = m.out.op)
      (closure : m'.last_closure = m.last_closure)
  | fold
      (pieces : r'.pieces = r.pieces)
      (detached : r'.detached = true)
      (out : m'.out = m.out)
      (closure : m'.last_closure = m.last_closure)
  | star
      (reads : r.star = some r')
      (out : m'.out =
        pat_stclos sz m.last_op m.last_closure (starOut sz 1 m))
      (last_op : m'.last_op = m.last_op)
      (closure : m'.last_closure = m.last_op)

/-- The two loops stand at the same place. -/
structure Beside (m : Make) (r : Read) : Prop where
  ip : m.ip = r.ip
  ignore_case : m.ignore_case = r.ignore_case

theorem Read.star_eq_some (h : r.star = some r') :
    r'.ip = r.ip ∧ r'.ignore_case = r.ignore_case ∧
      r'.detached = r.detached := by
  unfold Read.star at h
  split_ifs at h
  · cases h
    exact ⟨rfl, rfl, rfl⟩
  · split at h
    · cases h
    · cases h
      exact ⟨rfl, rfl, rfl⟩

theorem le_classChars (fuel : Nat) (ip : Int) (acc : List Int) :
    ip ≤ (classChars patstr fuel ip acc).1 := by
  induction fuel generalizing ip acc with
  | zero => exact le_rfl
  | succ fuel ih =>
      unfold classChars
      dsimp only
      split_ifs with hend hesc
      · exact le_rfl
      · have := le_patEscape hesc
        exact le_trans (by omega) (ih _ _)
      all_goals exact le_trans (by omega) (ih _ _)

theorem round_element {e : Elem} {ws : List Int} {ip : Int}
    (hwords : ws.map short = e.words)
    (hop : (deposits ws sz m.out).op < sz)
    (hm : m' = { m with
      ip := ip, out := deposits ws sz m.out, last_op := m.out.op })
    (hr : r' = r.push e ip) (hbeside : Beside m r)
    (hbol : e = .bol → r.ip = 1)
    (heol : e = .eol → patstr.char (ip + 1) = EOS) :
    Beside m' r' ∧ Round patstr sz m m' r r' := by
  subst hm hr
  refine ⟨⟨rfl, hbeside.ignore_case⟩,
    .element e hbol heol rfl rfl ?_ rfl rfl⟩
  rw [← hwords]
  exact wrote_deposits hop

theorem le_starOut : m.out.op ≤ (starOut sz 1 m).op := by
  unfold starOut
  split
  · exact le_chdeposit _
  · exact le_rfl

theorem gpatmakeBody_star (hc : patstr.char m.ip = CH_CLOSURE) :
    gpatmakeBody patstr 1 EOS sz m = some { m with
      out := pat_stclos sz m.last_op m.last_closure (starOut sz 1 m)
      last_closure := m.last_op } := by
  unfold gpatmakeBody
  simp only [hc]
  rfl

theorem gpatmakeBody_class (hc : patstr.char m.ip = CH_CCL) :
    gpatmakeBody patstr 1 EOS sz m =
      (let (closed, ip, out) := pat_getccl patstr sz m.ip m.out
       if closed then some { m with ip := ip, out := out, last_op := m.out.op }
       else none) := by
  unfold gpatmakeBody
  simp only [hc]
  rcases pat_getccl patstr sz m.ip m.out with ⟨_ | _, ip, out⟩ <;> rfl

theorem le_depositNonzero (c : Int) (out : Out) :
    out.op ≤ (depositNonzero c sz out).op := by
  unfold depositNonzero
  split
  · exact le_chdeposit c
  · exact le_rfl

theorem le_gpatmakeBody (hm : gpatmakeBody patstr 1 EOS sz m = some m') :
    m.out.op ≤ m'.out.op := by
  by_cases hstar : patstr.char m.ip = CH_CLOSURE
  · rw [gpatmakeBody_star hstar, Option.some.injEq] at hm
    subst hm
    have hle : m.out.op ≤ (starOut sz 1 m).op := le_starOut
    simp only [pat_stclos, CLOSIZE]
    omega
  by_cases hclass : patstr.char m.ip = CH_CCL
  · rw [gpatmakeBody_class hclass] at hm
    simp only [Option.ite_none_right_eq_some, Option.some.injEq] at hm
    rw [← hm.2]
    exact le_getccl m.ip m.out
  unfold gpatmakeBody at hm
  simp only [if_neg hstar, if_neg hclass] at hm
  split_ifs at hm
  all_goals
    rw [Option.some.injEq] at hm
    subst hm
    first
      | exact le_deposits _
      | exact le_rfl
      | exact (le_chdeposit _).trans (le_depositNonzero _ _)

theorem round_char {c ip code : Int} {e : Elem} (hc : IsShort c) (hne : c ≠ 0)
    (hcode : short code = e.code) (he : e.operands = [c])
    (hindex : e ≠ .index)
    (hop : (depositNonzero c sz (chdeposit code sz m.out)).op < sz)
    (hm : m' = { m with
      ip := ip, out := depositNonzero c sz (chdeposit code sz m.out)
      last_op := m.out.op })
    (hr : r' = r.push e ip) (hbeside : Beside m r) :
    Beside m' r' ∧ Round patstr sz m m' r r' := by
  rw [depositNonzero, if_pos hne] at hop hm
  have hwords : [code, c].map short = e.words := by
    simp [Elem.words, hcode, he, hindex, short_of_isShort hc]
  exact round_element hwords hop hm hr hbeside
    (fun h => by simp [h, Elem.operands] at he)
    (fun h => by simp [h, Elem.operands] at he)

theorem round_class (hc : patstr.char m.ip = CH_CCL) (hbeside : Beside m r)
    (hfirst : 1 ≤ m.out.op)
    (hm : gpatmakeBody patstr 1 EOS sz m = some m')
    (hr : readBody patstr r = some r') (hop : m'.out.op < sz)
    (hlim : m'.out.op ≤ 32768) :
    m.ip ≤ m'.ip ∧ Beside m' r' ∧ Round patstr sz m m' r r' := by
  have hipeq := hbeside.ip
  rw [gpatmakeBody_class hc] at hm
  simp only [Option.ite_none_right_eq_some, Option.some.injEq] at hm
  obtain ⟨hclosed, rfl⟩ := hm
  obtain ⟨chars, hchars, hwrote⟩ := wrote_getccl m.ip hfirst hop hlim
  have hread : readBody patstr r =
      (let read := classChars patstr
        (rounds patstr (classStart patstr m.ip)) (classStart patstr m.ip) []
       if patstr.char read.1 = CH_CCLEND then
         some (r.push (classElem patstr m.ip read.2) read.1)
       else none) := by
    unfold readBody
    simp only [← hipeq, hc]
    rfl
  rw [hread, hchars] at hr
  simp only [Option.ite_none_right_eq_some, Option.some.injEq] at hr
  obtain ⟨-, rfl⟩ := hr
  have hle : _ ≤ (classChars patstr _ _ _).1 :=
    le_classChars (rounds patstr (classStart patstr m.ip))
      (classStart patstr m.ip) []
  rw [hchars] at hle
  refine ⟨?_, ⟨rfl, hbeside.ignore_case⟩,
    .element _ (fun h => ?_) (fun h => ?_) rfl rfl hwrote rfl rfl⟩
  · have : m.ip ≤ classStart patstr m.ip := by
      unfold classStart
      split <;> omega
    exact this.trans hle
  all_goals
    unfold classElem at h
    split at h <;> cases h

theorem round_cases (hbeside : Beside m r) (hfirst : 1 ≤ m.out.op)
    (hm : gpatmakeBody patstr 1 EOS sz m = some m')
    (hr : readBody patstr r = some r') (hop : m'.out.op < sz)
    (hlim : m'.out.op ≤ 32768) :
    m.ip ≤ m'.ip ∧ Beside m' r' ∧ Round patstr sz m m' r r' := by
  have hipeq := hbeside.ip
  have hcase := hbeside.ignore_case
  by_cases hstar : patstr.char m.ip = CH_CLOSURE
  · have hreads : readBody patstr r = r.star := by
      unfold readBody
      simp only [← hipeq, hstar]
      rfl
    rw [gpatmakeBody_star hstar, Option.some.injEq] at hm
    rw [hreads] at hr
    subst hm
    obtain ⟨hip, hcase', -⟩ := Read.star_eq_some hr
    exact ⟨le_rfl, ⟨hipeq.trans hip.symm, hcase.trans hcase'.symm⟩,
      .star hr rfl rfl rfl⟩
  by_cases hclass : patstr.char m.ip = CH_CCL
  · exact round_class hclass hbeside hfirst hm hr hop hlim
  unfold gpatmakeBody at hm
  unfold readBody at hr
  rw [← hipeq] at hr
  simp only [if_neg hstar, if_neg hclass] at hm hr
  by_cases hany : patstr.char m.ip = CH_ANY
  · simp only [if_pos hany, Option.some.injEq] at hm hr
    subst hm hr
    exact ⟨le_rfl, round_element (e := .any) rfl hop rfl rfl hbeside
      (by simp) (by simp)⟩
  simp only [if_neg hany] at hm hr
  by_cases hwhite : patstr.char m.ip = CH_WHITESPACE
  · simp only [if_pos hwhite, Option.some.injEq] at hm hr
    subst hm hr
    exact ⟨le_rfl, round_element (e := .whitespace) rfl hop rfl rfl hbeside
      (by simp) (by simp)⟩
  simp only [if_neg hwhite] at hm hr
  by_cases hbol : patstr.char m.ip = CH_BOL
  · simp only [if_pos hbol, Option.some.injEq] at hm hr
    subst hm hr
    by_cases hone : m.ip = 1
    · simp only [if_pos hone] at hop ⊢
      exact ⟨le_rfl, round_element (e := .bol) rfl hop rfl rfl hbeside
        (fun _ => hipeq ▸ hone) (by simp)⟩
    · simp only [if_neg hone] at hop ⊢
      exact ⟨le_rfl, round_element (e := .char CH_BOL) rfl hop rfl rfl hbeside
        (by simp) (by simp)⟩
  simp only [if_neg hbol] at hm hr
  by_cases heol : patstr.char m.ip = CH_EOL
  · simp only [if_pos heol, Option.some.injEq] at hm hr
    subst hm hr
    by_cases hend : patstr.char (m.ip + 1) = EOS
    · simp only [if_pos hend] at hop ⊢
      exact ⟨le_rfl, round_element (e := .eol) rfl hop rfl rfl hbeside
        (by simp) (fun _ => hend)⟩
    · simp only [if_neg hend] at hop ⊢
      exact ⟨le_rfl, round_element (e := .char CH_EOL) rfl hop rfl rfl hbeside
        (by simp) (by simp)⟩
  simp only [if_neg heol] at hm hr
  by_cases hfold : patstr.char m.ip = CH_IGNORECASE
  · simp only [if_pos hfold, Option.some.injEq] at hm hr
    subst hm hr
    exact ⟨le_rfl, ⟨rfl, rfl⟩, .fold rfl rfl rfl rfl⟩
  simp only [if_neg hfold] at hm hr
  by_cases hexact : patstr.char m.ip = CH_MATCHCASE
  · simp only [if_pos hexact, Option.some.injEq] at hm hr
    subst hm hr
    exact ⟨le_rfl, ⟨rfl, rfl⟩, .fold rfl rfl rfl rfl⟩
  simp only [if_neg hexact] at hm hr
  by_cases hindex : patstr.char m.ip = CH_INDEX
  · simp only [if_pos hindex, Option.some.injEq] at hm hr
    subst hm hr
    exact ⟨le_rfl, round_element (e := .index) rfl hop rfl rfl hbeside
      (by simp) (by simp)⟩
  simp only [if_neg hindex] at hm hr
  -- An ordinary character, or an escape.
  set lit := if patstr.char m.ip = CH_ESCAPE then patEscape patstr m.ip
    else (patstr.char m.ip, m.ip) with hlit
  have hshort : IsShort lit.1 := by
    rw [hlit]
    split
    · exact isShort_patEscape m.ip
    · exact patstr.isShort m.ip
  have hle : m.ip ≤ lit.2 := by
    rw [hlit]
    split
    · exact le_patEscape ‹_›
    · exact le_rfl
  rw [Option.some.injEq] at hm
  subst hm
  by_cases hzero : lit.1 = 0
  · simp [hzero] at hr
  rw [if_neg hzero, ← hcase] at hr
  refine ⟨hle, ?_⟩
  cases hmode : m.ignore_case with
  | false =>
      simp only [hmode, Bool.false_eq_true, if_false, Option.some.injEq]
        at hr hop ⊢
      exact round_char (e := .char lit.1) hshort hzero rfl rfl (by simp) hop
        (by rw [hmode]) hr.symm hbeside
  | true =>
      simp only [hmode, if_true, Option.some.injEq] at hr hop ⊢
      by_cases hupper : IS_UPPER (patstr.char m.ip)
      · simp only [if_pos hupper] at hr hop ⊢
        exact round_char (e := .uchar lit.1) hshort hzero rfl rfl (by simp) hop
          (by rw [hmode]) hr.symm hbeside
      · simp only [if_neg hupper] at hr hop ⊢
        exact round_char (e := .lchar lit.1) hshort hzero rfl rfl (by simp) hop
          (by rw [hmode]) hr.symm hbeside

/-! ## Items in the buffer -/

theorem layout_append {pat : Pat} {items items' : List Item}
    {p prev q last : Int} :
    Layout pat (items ++ items') p prev q last ↔
      ∃ mid prev', Layout pat items p prev mid prev' ∧
        Layout pat items' mid prev' q last := by
  induction items generalizing p prev with
  | nil =>
      constructor
      · exact fun h => ⟨p, prev, ⟨rfl, rfl⟩, h⟩
      · rintro ⟨_, _, ⟨rfl, rfl⟩, h⟩
        exact h
  | cons item items ih =>
      cases item with
      | one e =>
          simp only [List.cons_append, Layout, ih]
          constructor
          · rintro ⟨helem, mid, prev', h, h'⟩
            exact ⟨mid, prev', ⟨helem, h⟩, h'⟩
          · rintro ⟨mid, prev', ⟨helem, h⟩, h'⟩
            exact ⟨helem, mid, prev', h, h'⟩
      | many e =>
          simp only [List.cons_append, Layout, ih]
          constructor
          · rintro ⟨hc, he, helem, mid, prev', h, h'⟩
            exact ⟨mid, prev', ⟨hc, he, helem, h⟩, h'⟩
          · rintro ⟨mid, prev', ⟨hc, he, helem, h⟩, h'⟩
            exact ⟨hc, he, helem, mid, prev', h, h'⟩

/-- The pieces, last first, are all sound and stand in the buffer up to `op`;
their last closure is at `last`. -/
def Laid (buf : Int → Int) (size : Int) : List Piece → Int → Int → Prop
  | [], op, last => op = 1 ∧ last = 0
  | piece :: pieces, op, last =>
      ∃ p prev item, piece.item? = some item ∧ Laid buf size pieces p prev ∧
        Layout ⟨buf, size⟩ [item] p prev op last

variable {buf buf' : Int → Int} {pieces : List Piece} {op last p prev : Int}

theorem Layout.last_bounds {pat : Pat} {items : List Item} {q : Int}
    (h : Layout pat items p prev q last) (hprev : 0 ≤ prev) (hlt : prev < p) :
    0 ≤ last ∧ last < q := by
  induction items generalizing p prev with
  | nil =>
      obtain ⟨rfl, rfl⟩ := h
      exact ⟨hprev, hlt⟩
  | cons item items ih =>
      cases item with
      | one e =>
          have := e.size_pos
          exact ih h.2 hprev (by omega)
      | many e =>
          have := e.size_pos
          have := h.1.first
          have := closure_words
          exact ih h.2.2.2 (by omega) (by omega)

theorem Laid.bounds (h : Laid buf size pieces op last) :
    1 ≤ op ∧ 0 ≤ last ∧ last < op := by
  induction pieces generalizing op last with
  | nil =>
      obtain ⟨rfl, rfl⟩ := h
      omega
  | cons piece pieces ih =>
      obtain ⟨p, prev, item, -, hlaid, hlayout⟩ := h
      have hrest := ih hlaid
      have hle := hlayout.le
      have := hlayout.last_bounds hrest.2.1 hrest.2.2
      omega

theorem Laid.congr (h : Laid buf size pieces op last)
    (hbuf : ∀ i < op, buf' i = buf i) : Laid buf' size pieces op last := by
  induction pieces generalizing op last with
  | nil => exact h
  | cons piece pieces ih =>
      obtain ⟨p, prev, item, hitem, hlaid, hlayout⟩ := h
      have hle := hlayout.le
      exact ⟨p, prev, item, hitem, ih hlaid fun i hi => hbuf i (by omega),
        hlayout.congr rfl fun i _ hi => hbuf i hi⟩

theorem Laid.layout (h : Laid buf size pieces op last) (after : List Piece) :
    ∃ items, leading (pieces.reverse ++ after) = items ++ leading after ∧
      Layout ⟨buf, size⟩ items 1 0 op last := by
  induction pieces generalizing op last after with
  | nil =>
      obtain ⟨rfl, rfl⟩ := h
      exact ⟨[], rfl, rfl, rfl⟩
  | cons piece pieces ih =>
      obtain ⟨p, prev, item, hitem, hlaid, hlayout⟩ := h
      obtain ⟨items, hleading, hitems⟩ := ih hlaid (piece :: after)
      refine ⟨items ++ [item], ?_, layout_append.mpr
        ⟨p, prev, hitems, hlayout⟩⟩
      rw [List.reverse_cons, List.append_assoc, List.singleton_append,
        hleading, leading, hitem]
      simp

/-- The code that the first star of a piece applies to. -/
def Piece.starred : Piece → Int
  | ⟨e, 1⟩ => e.code
  | _ => CLOSURE

/-- What a piece whose stars make no sense begins with. -/
structure Spoiled (buf : Int → Int) (bad : Piece) (p op : Int) : Prop where
  closure : buf p = CLOSURE
  element : buf (p + CLOSIZE) = bad.starred
  inside : p + CLOSIZE < op

theorem Spoiled.congr {bad : Piece} {op' : Int} (h : Spoiled buf bad p op)
    (hop : op ≤ op') (hbuf : ∀ i ≤ p + CLOSIZE, buf' i = buf i) :
    Spoiled buf' bad p op' where
  closure := by
    have := closure_words
    rw [hbuf p (by omega), h.closure]
  element := by
    rw [hbuf _ le_rfl]
    exact h.element
  inside := lt_of_lt_of_le h.inside hop

/-- What the buffer holds of the pieces that were read. -/
inductive Built (size : Int) (m : Make) (r : Read) : Prop
  | clean
      (laid : Laid m.out.buf size r.pieces m.out.op m.last_closure)
      (last_piece : r.detached = false → ∀ piece pieces,
        r.pieces = piece :: pieces → ∃ prev item, piece.item? = some item ∧
          Laid m.out.buf size pieces m.last_op prev ∧
          Layout ⟨m.out.buf, size⟩ [item] m.last_op prev m.out.op
            m.last_closure)
  | spoiled (after : List Piece) (bad : Piece) (before : List Piece)
      (p prev : Int)
      (pieces : r.pieces = after ++ bad :: before)
      (unsound : bad.item? = none)
      (laid : Laid m.out.buf size before p prev)
      (words : Spoiled m.out.buf bad p m.out.op)
      (last_piece : r.detached = false →
        (after = [] ∧ m.last_op = p) ∨
          (after ≠ [] ∧ p + CLOSIZE < m.last_op ∧ m.last_op ≤ m.out.op))

theorem Built.op_pos (h : Built size m r) : 1 ≤ m.out.op := by
  cases h with
  | clean laid _ => exact laid.bounds.1
  | spoiled after bad before p prev _ _ laid words _ =>
      have := laid.bounds.1
      have := words.inside
      have := closure_words
      omega

theorem built_element {e : Elem} (h : Built size m r)
    (hpieces : r'.pieces = ⟨e, 0⟩ :: r.pieces)
    (hwrote : Wrote e.words m.out m'.out) (hlast : m'.last_op = m.out.op)
    (hclosure : m'.last_closure = m.last_closure)
    (hsize : m'.out.op ≤ size + 1) : Built size m' r' := by
  have hpos := h.op_pos
  have hopsize := hwrote.op_size
  have helem := hwrote.elemAt hpos hsize
  cases h with
  | clean laid last_piece =>
      have hlaid := laid.congr hwrote.below
      have hlayout : Layout ⟨m'.out.buf, size⟩ [.one e] m.out.op
          m.last_closure m'.out.op m.last_closure :=
        ⟨helem, hopsize.symm, rfl⟩
      rw [← hclosure] at hlayout
      refine .clean ?_ fun _ piece pieces heq => ?_
      · rw [hpieces]
        exact ⟨m.out.op, _, .one e, rfl, hclosure ▸ hlaid, hlayout⟩
      · rw [hpieces, List.cons.injEq] at heq
        obtain ⟨rfl, rfl⟩ := heq
        rw [hlast]
        exact ⟨_, .one e, rfl, hclosure ▸ hlaid, hlayout⟩
  | spoiled after bad before p prev pieces unsound laid words last_piece =>
      have hinside := words.inside
      have hwords := closure_words
      have hle := e.size_pos
      refine .spoiled (⟨e, 0⟩ :: after) bad before p prev
        (by rw [hpieces, pieces]; rfl) unsound
        (laid.congr fun i hi => hwrote.below i (by omega))
        (words.congr (by omega) fun i hi => hwrote.below i (by omega))
        fun _ => Or.inr ⟨by simp, by omega⟩

theorem built_fold (h : Built size m r) (hpieces : r'.pieces = r.pieces)
    (hdetached : r'.detached = true) (hout : m'.out = m.out)
    (hclosure : m'.last_closure = m.last_closure) : Built size m' r' := by
  cases h with
  | clean laid last_piece =>
      refine .clean (by rw [hpieces, hout, hclosure]; exact laid) fun hd => ?_
      rw [hdetached] at hd
      cases hd
  | spoiled after bad before p prev pieces unsound laid words last_piece =>
      refine .spoiled after bad before p prev (hpieces.trans pieces) unsound
        (by rw [hout]; exact laid) (by rw [hout]; exact words) fun hd => ?_
      rw [hdetached] at hd
      cases hd

/-! ## A star -/

theorem starOut_below (hop : (starOut sz 1 m).op < sz) :
    ∀ i < m.out.op, (starOut sz 1 m).buf i = m.out.buf i := by
  unfold starOut at hop ⊢
  split_ifs at hop ⊢
  · exact (wrote_chdeposit hop).below
  · exact fun _ _ => rfl

theorem layout_inserted {e : Elem} {out out' : Out}
    (helem : ElemAt ⟨out.buf, size⟩ p e) (he : e.consumes)
    (hop : out.op = p + e.size) (hins : Inserted p prev out out')
    (hprev : IsShort prev) (hsize : out'.op ≤ size + 1) :
    Layout ⟨out'.buf, size⟩ [.many e] p prev out'.op p := by
  have hwords := closure_words
  have hop' := hins.op
  have hpos := e.size_pos
  have hfirst := helem.first
  refine ⟨⟨hins.code, hins.prevcl.trans (short_of_isShort hprev), hfirst⟩, he,
    ⟨?_, fun k hk => ?_, by omega, by simp only; omega⟩, by omega, rfl⟩
  · simp only
    rw [hins.moved p le_rfl (by omega)]
    exact helem.code
  · have hle := e.operands_length_le
    have hword := helem.operands k hk
    simp only at hword ⊢
    rw [show p + CLOSIZE + 1 + (k : Int) = p + 1 + k + CLOSIZE by omega,
      hins.moved _ (by omega) (by omega), hword]

theorem spoiled_inserted {bad : Piece} {out out' : Out}
    (hins : Inserted p prev out out') (hop : p < out.op)
    (hword : out.buf p = bad.starred) : Spoiled out'.buf bad p out'.op where
  closure := hins.code
  element := by
    rw [hins.moved p le_rfl hop]
    exact hword
  inside := by
    rw [hins.op]
    have := closure_words
    omega

theorem item?_succ {e : Elem} {stars : Nat} (h : Piece.item? ⟨e, stars⟩ = none) :
    Piece.item? ⟨e, stars + 1⟩ = none := by
  cases stars with
  | zero => simp [Piece.item?] at h
  | succ stars => rfl

theorem starred_succ {e : Elem} {stars : Nat}
    (h : Piece.item? ⟨e, stars⟩ = none) :
    Piece.starred ⟨e, stars + 1⟩ = CLOSURE := by
  cases stars with
  | zero => simp [Piece.item?] at h
  | succ stars => rfl

theorem Elem.code_of_consumes {e : Elem} (he : e.consumes) :
    e.code ≠ BOL ∧ e.code ≠ EOL ∧ e.code ≠ CLOSURE := by
  cases e <;> simp_all [consumes, code, CHAR, UCHAR, LCHAR, ANY, CCL, NCCL, BOL,
    EOL, CLOSURE]

theorem built_star_first (h : Built size m r)
    (hstart : r.pieces = [] ∧ m.last_op = 1) (hip : m.ip = 1)
    (hpieces : r'.pieces = [⟨.any, 1⟩])
    (hout : m'.out = pat_stclos sz m.last_op m.last_closure (starOut sz 1 m))
    (hlast : m'.last_op = m.last_op) (hclosure : m'.last_closure = m.last_op)
    (hop : m'.out.op < sz) (hsize : m'.out.op ≤ size + 1) :
    Built size m' r' := by
  cases h with
  | spoiled after bad before p prev pieces _ _ _ _ =>
      rw [hstart.1] at pieces
      exact absurd pieces.symm (by simp)
  | clean laid last_piece =>
      rw [hstart.1] at laid
      obtain ⟨hop1, hlast0⟩ := laid
      have hany : starOut sz 1 m = chdeposit ANY sz m.out :=
        if_pos (Or.inl hip)
      rw [hany, hstart.2, hlast0] at hout
      have hlt : (chdeposit ANY sz m.out).op < sz := by
        rw [hout] at hop
        simp only [pat_stclos, CLOSIZE] at hop
        omega
      have hwrote : Wrote (Elem.words .any) m.out _ := wrote_chdeposit hlt
      have hins : Inserted 1 0 _ _ := inserted_stclos
        (by rw [hwrote.op_size, hop1]; decide) (hout ▸ hop)
      rw [← hout] at hins
      have hinsop := hins.op
      have hwords := closure_words
      have helem := hwrote.elemAt (show 1 ≤ m.out.op by omega)
        (show _ ≤ size + 1 by omega)
      rw [hop1] at helem
      have hlayout := layout_inserted helem rfl
        (by rw [hwrote.op_size, hop1]) hins (by decide) hsize
      have hlaid : Laid m'.out.buf size [] 1 0 := ⟨rfl, rfl⟩
      rw [← hstart.2, ← hclosure] at hlayout
      refine .clean ?_ fun _ piece pieces heq => ?_
      · rw [hpieces]
        exact ⟨_, _, _, rfl, hlaid, by simpa [hclosure, hstart.2] using hlayout⟩
      · rw [hpieces, List.cons.injEq] at heq
        obtain ⟨rfl, rfl⟩ := heq
        rw [hlast]
        refine ⟨0, .many .any, rfl, hstart.2 ▸ hlaid, ?_⟩
        simpa [hclosure, hstart.2] using hlayout

theorem built_star_next {e : Elem} {stars : Nat} (h : Built size m r)
    (hattached : r.detached = false) (hip : m.ip ≠ 1)
    (hread : r.pieces = ⟨e, stars⟩ :: pieces)
    (hpieces : r'.pieces = ⟨e, stars + 1⟩ :: pieces)
    (hout : m'.out = pat_stclos sz m.last_op m.last_closure (starOut sz 1 m))
    (hlast : m'.last_op = m.last_op) (hclosure : m'.last_closure = m.last_op)
    (hop : m'.out.op < sz) (hsize : m'.out.op ≤ size + 1)
    (hlim : size ≤ 32767) : Built size m' r' := by
  have hwords := closure_words
  have hlt : (starOut sz 1 m).op < sz := by
    rw [hout] at hop
    simp only [pat_stclos] at hop
    omega
  have hbelow := starOut_below hlt
  have hle : m.out.op ≤ (starOut sz 1 m).op := le_starOut
  have hinsert : m.last_op ≤ m.out.op →
      Inserted m.last_op m.last_closure (starOut sz 1 m) m'.out := by
    intro hlo
    rw [hout] at hop ⊢
    exact inserted_stclos (hlo.trans hle) hop
  cases h with
  | clean laid last_piece =>
      obtain ⟨prev, item, hitem, hlaid, hlayout⟩ :=
        last_piece hattached _ _ hread
      have hbounds := hlaid.bounds
      have hend := hlayout.le
      have hins := hinsert hend
      have hlaid' : Laid m'.out.buf size pieces m.last_op prev :=
        hlaid.congr fun i hi => by
          rw [hins.below i hi, hbelow i (by omega)]
      cases stars with
      | zero =>
          obtain rfl := Option.some.inj hitem
          obtain ⟨helem, hopeq, hprev⟩ := hlayout
          have hcode := helem.code
          simp only at hcode
          have hpos := e.size_pos
          by_cases he : e.consumes
          · -- The element takes a char: it becomes the item of a closure.
            have hsame : starOut sz 1 m = m.out := by
              have hne := Elem.code_of_consumes he
              exact if_neg (by rw [hcode]; simp [hip, hne])
            rw [hsame] at hins
            have hlayout' := layout_inserted helem he hopeq.symm hins
              (by rw [← hprev]; unfold IsShort; have := hins.op; omega) hsize
            rw [← hprev] at hlayout'
            have hsound : Piece.item? ⟨e, 0 + 1⟩ = some (.many e) := if_pos he
            refine .clean ?_ fun _ piece pieces' heq => ?_
            · rw [hpieces, hclosure]
              exact ⟨_, _, _, hsound, hlaid', hlayout'⟩
            · rw [hpieces, List.cons.injEq] at heq
              obtain ⟨rfl, rfl⟩ := heq
              rw [hlast, hclosure]
              exact ⟨_, _, hsound, hlaid', hlayout'⟩
          · refine .spoiled [] ⟨e, 0 + 1⟩ pieces m.last_op prev hpieces
              (if_neg he) hlaid' (spoiled_inserted hins (by omega) ?_)
              fun _ => Or.inl ⟨rfl, hlast⟩
            rw [hbelow _ (by omega), hcode]
            rfl
      | succ stars =>
          have hclosed : m.out.buf m.last_op = CLOSURE := by
            cases stars with
            | zero =>
                simp only [Piece.item?, Option.ite_none_right_eq_some,
                  Option.some.injEq] at hitem
                obtain ⟨-, rfl⟩ := hitem
                exact hlayout.1.code
            | succ stars => simp [Piece.item?] at hitem
          have hlt' : m.last_op < m.out.op := by
            cases item with
            | one e' =>
                have := hlayout.2.1
                have := e'.size_pos
                omega
            | many e' =>
                have := hlayout.2.2.2.1
                have := e'.size_pos
                omega
          refine .spoiled [] ⟨e, stars + 1 + 1⟩ pieces m.last_op prev hpieces
            rfl hlaid' (spoiled_inserted hins (by omega) ?_)
            fun _ => Or.inl ⟨rfl, hlast⟩
          rw [hbelow _ (by omega), hclosed]
          rfl
  | spoiled after bad before p prev hpieces0 unsound laid words last_piece =>
      have hinside := words.inside
      rcases last_piece hattached with ⟨rfl, hlo⟩ | ⟨hne, hlo, hlo'⟩
      · -- Another star after the one that made no sense.
        rw [List.nil_append, hread, List.cons.injEq] at hpieces0
        obtain ⟨rfl, rfl⟩ := hpieces0
        rw [hlo] at hinsert
        have hins := hinsert (by omega)
        refine .spoiled [] ⟨e, stars + 1⟩ pieces p prev hpieces
          (item?_succ unsound) (laid.congr fun i hi => ?_)
          (spoiled_inserted hins (by omega) ?_)
          fun _ => Or.inl ⟨rfl, hlast.trans hlo⟩
        · rw [hins.below i hi, hbelow i (by omega)]
        · rw [hbelow _ (by omega), words.closure]
          exact (starred_succ unsound).symm
      · have hins := hinsert hlo'
        have hsame : ∀ i ≤ p + CLOSIZE, m'.out.buf i = m.out.buf i :=
          fun i hi => by rw [hins.below i (by omega), hbelow i (by omega)]
        have hop' := hins.op
        have hlaid' := laid.congr fun i hi => hsame i (by omega)
        have hspoiled := words.congr (show m.out.op ≤ m'.out.op by omega) hsame
        cases after with
        | nil => exact absurd rfl hne
        | cons piece after =>
            rw [List.cons_append, hread, List.cons.injEq] at hpieces0
            obtain ⟨rfl, rfl⟩ := hpieces0
            exact .spoiled (⟨e, stars + 1⟩ :: after) bad before p prev hpieces
              unsound hlaid' hspoiled fun _ => Or.inr ⟨by simp, by omega⟩

/-! ## Anchors -/

/-- Of the pieces, last first, only the first of the pattern is `^`, and only
the last one can be `$`, without a star and with nothing behind it. -/
def Anchored (atEnd : Prop) : List Piece → Prop
  | [] => True
  | piece :: pieces =>
      (piece.elem = .bol → pieces = []) ∧
        (piece.elem = .eol → piece.stars = 0 ∧ atEnd) ∧ Anchored False pieces

theorem Anchored.mono {atEnd atEnd' : Prop} (h : Anchored atEnd pieces)
    (himp : atEnd → atEnd') : Anchored atEnd' pieces := by
  cases pieces with
  | nil => trivial
  | cons piece pieces => exact ⟨h.1, fun he => (h.2.1 he).imp_right himp, h.2.2⟩

theorem Anchored.split {atEnd : Prop} {after before : List Piece} {bad : Piece}
    (h : Anchored atEnd (after ++ bad :: before)) :
    (bad.elem = .bol → before = []) ∧ (bad.elem = .eol → bad.stars = 0) ∧
      Anchored False before := by
  induction after generalizing atEnd with
  | nil => exact ⟨h.1, fun he => (h.2.1 he).1, h.2.2⟩
  | cons piece after ih => exact ih h.2.2

/-! ## All rounds -/

/-- What holds before each round. -/
structure Reading (patstr : Text) (size : Int) (m : Make) (r : Read) : Prop where
  beside : Beside m r
  built : Built size m r
  anchored : Anchored (patstr.char r.ip = EOS) r.pieces
  ip_pos : 1 ≤ m.ip
  start : m.ip = 1 → r.pieces = [] ∧ m.last_op = 1

theorem Reading.round_anchored (h : Reading patstr size m r)
    (hc : patstr.char r.ip ≠ EOS) (hround : Round patstr sz m m' r r') :
    Anchored (patstr.char (r'.ip + 1) = EOS) r'.pieces := by
  have hinner : Anchored False r.pieces := h.anchored.mono fun hend => hc hend
  cases hround with
  | element e bol eol pieces =>
      rw [pieces]
      exact ⟨fun he => (h.start (h.beside.ip.trans (bol he))).1,
        fun he => ⟨rfl, eol he⟩, hinner⟩
  | fold pieces =>
      rw [pieces]
      exact hinner.mono False.elim
  | star reads =>
      unfold Read.star at reads
      split_ifs at reads
      · rw [← Option.some.inj reads]
        exact ⟨fun _ => rfl, fun he => (by cases he), trivial⟩
      · split at reads
        · cases reads
        · rename_i e stars pieces hread
          rw [← Option.some.inj reads]
          rw [hread] at hinner
          exact ⟨hinner.1, fun he => (hinner.2.1 he).2.elim, hinner.2.2⟩

theorem Reading.round (h : Reading patstr size m r)
    (hc : patstr.char r.ip ≠ EOS)
    (hm : gpatmakeBody patstr 1 EOS sz m = some m')
    (hr : readBody patstr r = some r') (hop : m'.out.op < sz)
    (hsize : m'.out.op ≤ size + 1) (hlim : size ≤ 32767) :
    Reading patstr size { m' with ip := m'.ip + 1 }
      { r' with ip := r'.ip + 1 } := by
  obtain ⟨hle, hbeside, hround⟩ := round_cases h.beside h.built.op_pos hm hr hop
    (by omega)
  have hpos := h.ip_pos
  have hbuilt : Built size m' r' := by
    cases hround with
    | element e _ _ pieces attached wrote last_op closure =>
        exact built_element h.built pieces wrote last_op closure hsize
    | fold pieces detached out closure =>
        exact built_fold h.built pieces detached out closure
    | star reads out last_op closure =>
        have hip := h.beside.ip
        unfold Read.star at reads
        by_cases hone : r.ip = 1
        · rw [if_pos hone, Option.some.injEq] at reads
          exact built_star_first h.built (h.start (hip.trans hone))
            (hip.trans hone) (by rw [← reads]) out last_op closure hop hsize
        · rw [if_neg hone] at reads
          by_cases hdetached : r.detached
          · simp [hdetached] at reads
          · rw [if_neg hdetached] at reads
            split at reads
            · cases reads
            · rename_i e stars pieces hread
              rw [Option.some.injEq] at reads
              exact built_star_next h.built (by simpa using hdetached)
                (by omega) hread (by rw [← reads]) out last_op closure hop
                hsize hlim
  refine ⟨⟨by simp only [hbeside.ip], hbeside.ignore_case⟩, ?_,
    h.round_anchored hc hround, by simp only; omega, fun hone => absurd hone (by simp only; omega)⟩
  cases hbuilt with
  | clean laid last_piece => exact .clean laid last_piece
  | spoiled after bad before p prev pieces unsound laid words last_piece =>
      exact .spoiled after bad before p prev pieces unsound laid words
        last_piece

theorem le_gpatmakeLoop (fuel : Nat)
    (h : gpatmakeLoop patstr 1 EOS sz fuel m = some m') :
    m.out.op ≤ m'.out.op := by
  induction fuel generalizing m with
  | zero =>
      obtain rfl := Option.some.inj h
      exact le_rfl
  | succ fuel ih =>
      unfold gpatmakeLoop at h
      split_ifs at h
      · obtain rfl := Option.some.inj h
        exact le_rfl
      · split at h
        · cases h
        · rename_i m1 hbody
          have hrest := ih h
          exact (le_gpatmakeBody hbody).trans hrest

theorem Reading.loop (h : Reading patstr size m r) (fuel : Nat)
    (hm : gpatmakeLoop patstr 1 EOS sz fuel m = some m')
    (hr : readLoop patstr fuel r = some r') (hop : m'.out.op < sz)
    (hsize : m'.out.op ≤ size + 1) (hlim : size ≤ 32767) :
    Reading patstr size m' r' := by
  induction fuel generalizing m r with
  | zero =>
      obtain rfl := Option.some.inj hm
      obtain rfl := Option.some.inj hr
      exact h
  | succ fuel ih =>
      unfold gpatmakeLoop at hm
      unfold readLoop at hr
      rw [← h.beside.ip] at hr
      by_cases hend : patstr.char m.ip = EOS
      · simp only [hend, or_self, if_true, Option.some.injEq] at hm hr
        rw [← hm, ← hr]
        exact h
      · simp only [hend, or_self, if_false] at hm hr
        split at hm
        · cases hm
        · rename_i m1 hbody
          split at hr
          · cases hr
          · rename_i r1 hread
            have hle := le_gpatmakeLoop fuel hm
            simp only at hle
            exact ih (h.round (h.beside.ip ▸ hend) hbody hread (by omega)
              (by omega) hlim) hm hr

/-! ## The whole pattern -/

/-- The items of the pattern up to its end, or up to the first piece whose
stars make no sense. -/
inductive Encoded (pat : Pat) (pieces : List Piece) : Prop
  | whole (last : Int)
      (apply : StarsApply pieces)
      (laid : Layout pat (leading pieces) 1 0 pat.size last)
      (ends : pat.word pat.size = EOP)
      (size : 1 ≤ pat.size)
  | upTo (before : List Piece) (bad : Piece) (after : List Piece)
      (p prev : Int)
      (split : pieces = before ++ bad :: after)
      (apply : StarsApply before)
      (anchored : Anchored False before.reverse)
      (bol : bad.elem = .bol → before = [])
      (eol : bad.elem = .eol → bad.stars = 0)
      (unsound : bad.item? = none)
      (laid : Layout pat (leading pieces) 1 0 p prev)
      (words : Spoiled pat.word bad p pat.size)

end Iraf.Fmtio
