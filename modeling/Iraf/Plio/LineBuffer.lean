import Iraf.Plio.Empty

/-!
# Encoding into a line buffer

The list procedures store the words of a line list one at a time in a buffer of
`PL_MAXLINE` words.  Here each store is checked against the length of the
buffer, and a word that is rewritten is stored twice.
-/

namespace Iraf.Plio

open RunLength

/-- The buffer `ll_dst` or `ll_out`, the next index `op` and the current high value. -/
structure LineBuf where
  words : List Int
  op : Int
  hi : Int
  deriving DecidableEq

/-- A store at an index that the buffer does not have. -/
inductive LineFault
  | outside (i : Int)
  deriving DecidableEq

namespace LineBuf

def store (b : LineBuf) (i w : Int) : Except LineFault LineBuf :=
  if 1 ≤ i ∧ i ≤ b.words.length then
    .ok { b with words := b.words.set (i - 1).toNat w }
  else .error (.outside i)

/-- `ll[op] = w; op = op + 1`. -/
def put (b : LineBuf) (w : Int) : Except LineFault LineBuf := do
  let b ← b.store b.op w
  return { b with op := b.op + 1 }

/-- Store again at `op - 1`. -/
def rewrite (b : LineBuf) (f : Int → Int) : Except LineFault LineBuf :=
  b.store (b.op - 1) (f (word b.words (b.op - 1)))

/-- `for (; n > 0; n = n - lim) output mask + min (lim, n)`. -/
def putRun (mask lim : Int) : Nat → Int → LineBuf → Except LineFault LineBuf
  | 0, _, b => .ok b
  | fuel + 1, n, b =>
      if n > 0 then do
        let b ← b.put (mask + min lim n)
        putRun mask lim fuel (n - lim) b
      else .ok b

/-- Output the zeros up to the current range and then the range. -/
def putRange (zlim : Int) (pnOk : Bool) (b : LineBuf) (pv nz np : Int) :
    Except LineFault LineBuf :=
  if nz > 0 then do
    let b ← putRun mZn zlim nz.toNat nz b
    if np = 1 ∧ pv > 0 ∧ pnOk then b.rewrite fun w => w + mPn + 1
    else putRun mHn iDatamax np.toNat np b
  else putRun mHn iDatamax np.toNat np b

/-- The block of code that `encodeRange` stands for, with its stores. -/
def encodeRange (zlim : Int) (pnOk : Bool) (b : LineBuf) (pv nz np : Int) :
    Except LineFault LineBuf :=
  let dv := pv - b.hi
  if pv > 0 ∧ dv ≠ 0 then
    if (dv.natAbs : Int) > iDatamax then do
      let b ← put { b with hi := pv } (mSh + Int.land pv iDatamax)
      let b ← b.put (toShort (pv.tdiv iShift))
      b.putRange zlim pnOk pv nz np
    else do
      let b ← put { b with hi := pv } (if dv < 0 then mDh + -dv else mIh + dv)
      if np = 1 ∧ nz = 0 then b.rewrite fun w => Int.lor w mMove
      else b.putRange zlim pnOk pv nz np
  else b.putRange zlim pnOk pv nz np

end LineBuf

/-! ## The number of words of a range -/

@[simp] theorem length_rewriteLast (f : Int → Int) (ll : List Int) :
    (rewriteLast f ll).length = ll.length := by
  rcases List.eq_nil_or_concat ll with rfl | ⟨ll, w, rfl⟩
  · rfl
  · simp

theorem length_runWords_le (mask : Int) {lim : Int} (hlim : 1 ≤ lim) (fuel : Nat) :
    ∀ n : Int, ((runWords mask lim fuel n).length : Int) ≤ max 0 n := by
  induction fuel with
  | zero => simp [runWords]
  | succ fuel ih =>
      intro n
      rw [runWords]
      split
      · have := ih (n - lim)
        simp only [List.length_cons]
        omega
      · simp

theorem length_le_putRange (zlim : Int) (pnOk : Bool) (e : Encoder) (pv nz np : Int) :
    e.ll.length ≤ (putRange zlim pnOk e pv nz np).ll.length := by
  unfold putRange
  split
  · dsimp only
    split <;> simp
  · simp

theorem length_le_encodeRange (zlim : Int) (pnOk : Bool) (e : Encoder) (pv nz np : Int) :
    e.ll.length ≤ (encodeRange zlim pnOk e pv nz np).ll.length := by
  unfold encodeRange
  dsimp only
  split
  · split
    · refine le_trans ?_ (length_le_putRange zlim pnOk _ pv nz np)
      simp
    · split
      · simp
      · refine le_trans ?_ (length_le_putRange zlim pnOk _ pv nz np)
        simp
  · exact length_le_putRange zlim pnOk e pv nz np

theorem length_putRange_le {zlim : Int} (hzlim : 1 ≤ zlim) (pnOk : Bool) (e : Encoder)
    (pv : Int) {nz np : Int} (hnz : 0 ≤ nz) (hnp : 0 ≤ np) :
    ((putRange zlim pnOk e pv nz np).ll.length : Int) ≤ e.ll.length + nz + np := by
  have hz := length_runWords_le mZn hzlim nz.toNat nz
  have hp := length_runWords_le mHn (show 1 ≤ iDatamax by decide) np.toNat np
  unfold putRange
  split
  · dsimp only
    split
    · simp only [length_rewriteLast, List.length_append]
      omega
    · simp only [List.length_append]
      omega
  · simp only [List.length_append]
    omega

/-- The words of a range are three for each of its pixels at most, zeros included: two
that set the high value, and one for each pixel. -/
theorem length_encodeRange_le {zlim : Int} (hzlim : 1 ≤ zlim) (pnOk : Bool) (e : Encoder)
    {pv nz np : Int} (hnz : 0 ≤ nz) (hnp : 0 ≤ np) (hpv : 0 < np ∨ pv ≤ 0) :
    ((encodeRange zlim pnOk e pv nz np).ll.length : Int) ≤ e.ll.length + 3 * (nz + np) := by
  unfold encodeRange
  by_cases hchange : pv > 0 ∧ pv - e.hi ≠ 0
  · simp only [if_pos hchange]
    split
    · have hput := length_putRange_le hzlim pnOk
        ⟨pv, e.ll ++ [mSh + Int.land pv iDatamax, toShort (pv.tdiv iShift)]⟩ pv hnz hnp
      simp only [List.length_append, List.length_cons, List.length_nil] at hput
      omega
    · split
      · simp only [List.length_append, List.length_singleton]
        omega
      · have hput := length_putRange_le hzlim pnOk
          ⟨pv, e.ll ++ [if pv - e.hi < 0 then mDh + -(pv - e.hi) else mIh + (pv - e.hi)]⟩
          pv hnz hnp
        simp only [List.length_append, List.length_singleton] at hput
        omega
  · simp only [if_neg hchange]
    have hput := length_putRange_le hzlim pnOk e pv hnz hnp
    omega

namespace LineBuf

/-! ## The words in the buffer -/

/-- A buffer of `cap` words that begins with a header and the words of an encoder. -/
structure Spells (b : LineBuf) (cap : Nat) (hdr : List Int) (e : Encoder) : Prop where
  header : hdr.length = llCurhdrlen
  length : b.words.length = cap
  op : b.op = llCurhdrlen + 1 + e.ll.length
  hi : b.hi = e.hi
  words : ∃ rest, b.words = hdr ++ (e.ll ++ rest)

variable {b : LineBuf} {cap : Nat} {hdr : List Int} {e : Encoder}

theorem Spells.store_next (h : b.Spells cap hdr e) (hroom : llCurhdrlen + e.ll.length < cap)
    (w : Int) :
    ∃ words, b.store b.op w = .ok { b with words := words } ∧ words.length = cap ∧
      ∃ rest, words = hdr ++ (e.ll ++ [w] ++ rest) := by
  obtain ⟨rest, hwords⟩ := h.words
  have hhdr := h.header
  have hop := h.op
  have hcap := h.length
  have hlen := congrArg List.length hwords
  simp only [List.length_append] at hlen
  refine ⟨b.words.set (b.op - 1).toNat w, if_pos (by omega), by simp [hcap], rest.tail, ?_⟩
  cases rest with
  | nil => simp at hlen; omega
  | cons r rest =>
      have hindex : (b.op - 1).toNat = hdr.length + (e.ll.length + 0) := by omega
      rw [hwords, hindex, List.set_append_right _ _ (by omega), Nat.add_sub_cancel_left,
        List.set_append_right _ _ (by omega)]
      simp

theorem Spells.put (h : b.Spells cap hdr e) (hroom : llCurhdrlen + e.ll.length < cap)
    (w : Int) : ∃ b', b.put w = .ok b' ∧ b'.Spells cap hdr ⟨e.hi, e.ll ++ [w]⟩ := by
  obtain ⟨words, hstore, hlen, hrest⟩ := h.store_next hroom w
  refine ⟨{ b with words := words, op := b.op + 1 }, ?_, h.header, hlen, ?_, h.hi, hrest⟩
  · rw [LineBuf.put, hstore]
    rfl
  · simp only [h.op, List.length_append, List.length_singleton]
    omega

theorem Spells.rewrite {ll : List Int} {w hi : Int} (h : b.Spells cap hdr ⟨hi, ll ++ [w]⟩)
    (f : Int → Int) :
    ∃ b', b.rewrite f = .ok b' ∧ b'.Spells cap hdr ⟨hi, ll ++ [f w]⟩ := by
  obtain ⟨rest, hwords⟩ := h.words
  have hhdr := h.header
  have hop := h.op
  have hcap := h.length
  simp only [List.length_append, List.length_singleton] at hop
  have hlen := congrArg List.length hwords
  simp only [List.length_append, List.length_singleton] at hlen
  have hread : word b.words (b.op - 1) = w := by
    have hindex : b.op - 1 = (hdr ++ ll).length + (0 : Nat) + 1 := by simp; omega
    rw [hindex, hwords, show hdr ++ (ll ++ [w] ++ rest) = (hdr ++ ll) ++ (w :: rest) by simp,
      word_append_right]
    rfl
  refine ⟨{ b with words := b.words.set (b.op - 1 - 1).toNat (f w) }, ?_, hhdr, ?_, ?_, h.hi,
    rest, ?_⟩
  · rw [LineBuf.rewrite, hread]
    exact if_pos (by omega)
  · simpa using hcap
  · simpa using h.op
  · have hindex : (b.op - 1 - 1).toNat = hdr.length + (ll.length + 0) := by omega
    simp only
    rw [hwords, hindex, List.set_append_right _ _ (by omega), Nat.add_sub_cancel_left,
      List.append_assoc, List.set_append_right _ _ (by omega)]
    simp

theorem Spells.putRun (mask lim : Int) (fuel : Nat) :
    ∀ {b : LineBuf} {e : Encoder} (n : Int), b.Spells cap hdr e →
      llCurhdrlen + (e.ll ++ runWords mask lim fuel n).length ≤ cap →
      ∃ b', putRun mask lim fuel n b = .ok b' ∧
        b'.Spells cap hdr ⟨e.hi, e.ll ++ runWords mask lim fuel n⟩ := by
  induction fuel with
  | zero => exact fun {b e} n h _ => ⟨b, rfl, by simpa [runWords] using h⟩
  | succ fuel ih =>
      intro b e n h hroom
      rw [runWords] at hroom ⊢
      rw [LineBuf.putRun]
      split
      case isTrue hpos =>
        rw [if_pos hpos] at hroom
        simp only [List.length_append, List.length_cons] at hroom
        obtain ⟨b₁, hput, hb₁⟩ := h.put (by omega) (mask + min lim n)
        obtain ⟨b₂, hrun, hb₂⟩ := ih (n - lim) hb₁ (by simp; omega)
        refine ⟨b₂, ?_, by simpa using hb₂⟩
        rw [hput]
        exact hrun
      case isFalse => exact ⟨b, rfl, by simpa using h⟩

theorem Spells.putRange (zlim : Int) (pnOk : Bool) (pv nz np : Int) (h : b.Spells cap hdr e)
    (hroom : llCurhdrlen + (Plio.putRange zlim pnOk e pv nz np).ll.length ≤ cap) :
    ∃ b', b.putRange zlim pnOk pv nz np = .ok b' ∧
      b'.Spells cap hdr (Plio.putRange zlim pnOk e pv nz np) := by
  unfold Plio.putRange at hroom ⊢
  unfold LineBuf.putRange
  split at hroom
  case isFalse hnone =>
    simp only [if_neg hnone]
    exact h.putRun mHn iDatamax np.toNat np hroom
  case isTrue hzeros =>
    simp only [if_pos hzeros]
    by_cases hsingle : np = 1 ∧ pv > 0 ∧ pnOk
    · simp only [if_pos hsingle] at hroom ⊢
      rw [length_rewriteLast] at hroom
      obtain ⟨b₁, hrun, hb₁⟩ := h.putRun mZn zlim nz.toNat nz hroom
      obtain ⟨ll, w, hll⟩ : ∃ ll w, e.ll ++ runWords mZn zlim nz.toNat nz = ll ++ [w] := by
        obtain ⟨k, hk⟩ : ∃ k, nz.toNat = k + 1 := ⟨nz.toNat - 1, by omega⟩
        have hne : e.ll ++ runWords mZn zlim nz.toNat nz ≠ [] := by
          rw [hk, runWords, if_pos hzeros]
          simp
        exact ⟨_, _, (List.dropLast_append_getLast hne).symm⟩
      rw [hll] at hb₁ ⊢
      obtain ⟨b₂, hrewrite, hb₂⟩ := hb₁.rewrite fun w => w + mPn + 1
      refine ⟨b₂, ?_, by simpa using hb₂⟩
      rw [hrun]
      exact hrewrite
    · simp only [if_neg hsingle] at hroom ⊢
      obtain ⟨b₁, hrun, hb₁⟩ := h.putRun mZn zlim nz.toNat nz
        (by simp only [List.length_append] at hroom ⊢; omega)
      obtain ⟨b₂, hrun₂, hb₂⟩ := hb₁.putRun mHn iDatamax np.toNat np hroom
      refine ⟨b₂, ?_, hb₂⟩
      rw [hrun]
      exact hrun₂

/-- The block writes the words of `encodeRange`; every store is in a buffer that has
room for the result. -/
theorem Spells.encodeRange (zlim : Int) (pnOk : Bool) (pv nz np : Int)
    (h : b.Spells cap hdr e)
    (hroom : llCurhdrlen + (Plio.encodeRange zlim pnOk e pv nz np).ll.length ≤ cap) :
    ∃ b', b.encodeRange zlim pnOk pv nz np = .ok b' ∧
      b'.Spells cap hdr (Plio.encodeRange zlim pnOk e pv nz np) := by
  have hhi : LineBuf.Spells { b with hi := pv } cap hdr ⟨pv, e.ll⟩ :=
    ⟨h.header, h.length, h.op, rfl, h.words⟩
  unfold Plio.encodeRange at hroom ⊢
  unfold LineBuf.encodeRange
  rw [h.hi]
  by_cases hchange : pv > 0 ∧ pv - e.hi ≠ 0
  · simp only [if_pos hchange] at hroom ⊢
    by_cases hfar : ((pv - e.hi).natAbs : Int) > iDatamax
    · simp only [if_pos hfar] at hroom ⊢
      have hlong := length_le_putRange zlim pnOk
        ⟨pv, e.ll ++ [mSh + Int.land pv iDatamax, toShort (pv.tdiv iShift)]⟩ pv nz np
      simp only [List.length_append, List.length_cons, List.length_nil] at hlong
      obtain ⟨b₁, hput₁, hb₁⟩ := hhi.put (by simp only; omega) (mSh + Int.land pv iDatamax)
      obtain ⟨b₂, hput₂, hb₂⟩ := hb₁.put
        (by simp only [List.length_append, List.length_singleton]; omega)
        (toShort (pv.tdiv iShift))
      simp only [List.append_assoc, List.singleton_append] at hb₂
      obtain ⟨b₃, hrange, hb₃⟩ := hb₂.putRange zlim pnOk pv nz np hroom
      refine ⟨b₃, ?_, hb₃⟩
      rw [hput₁]
      simp only [bind, Except.bind, hput₂]
      exact hrange
    · simp only [if_neg hfar] at hroom ⊢
      obtain ⟨b₁, hput, hb₁⟩ := hhi.put (by
        split at hroom
        · simp at hroom ⊢
          omega
        · have hlong := length_le_putRange zlim pnOk
            ⟨pv, e.ll ++ [if pv - e.hi < 0 then mDh + -(pv - e.hi) else mIh + (pv - e.hi)]⟩
            pv nz np
          simp only [List.length_append, List.length_cons, List.length_nil] at hlong
          simp only
          omega) (if pv - e.hi < 0 then mDh + -(pv - e.hi) else mIh + (pv - e.hi))
      rw [hput]
      by_cases hsingle : np = 1 ∧ nz = 0
      · simp only [if_pos hsingle] at hroom ⊢
        exact hb₁.rewrite fun w => Int.lor w mMove
      · simp only [if_neg hsingle] at hroom ⊢
        exact hb₁.putRange zlim pnOk pv nz np hroom
  · simp only [if_neg hchange] at hroom ⊢
    exact h.putRange zlim pnOk pv nz np hroom

/-! ## The header -/

/-- A sequence of stores in the header. -/
def storeAll : List (Int × Int) → LineBuf → Except LineFault LineBuf
  | [], b => .ok b
  | (i, w) :: ws, b => do
      let b ← b.store i w
      storeAll ws b

/-- `LL_SETLEN`. -/
def lenStores (len : Int) : List (Int × Int) :=
  [(4, toShort (len.tmod 32768)), (5, toShort (len.tdiv 32768))]

/-- `LL_SETBLEN`. -/
def blenStores (len : Int) : List (Int × Int) :=
  [(6, toShort (len.tmod 32768)), (7, toShort (len.tdiv 32768))]

/-- The header after stores in it. -/
def headerAfter (ws : List (Int × Int)) (hdr : List Int) : List Int :=
  ws.foldl (fun hdr p => hdr.set (p.1 - 1).toNat p.2) hdr

theorem header_cases (h : hdr.length = llCurhdrlen) :
    ∃ a b c d e f g, hdr = [a, b, c, d, e, f, g] := by
  match hdr, h with
  | [a, b, c, d, e, f, g], _ => exact ⟨a, b, c, d, e, f, g, rfl⟩

theorem Spells.store_header {i : Int} (h : b.Spells cap hdr e) (hlo : 1 ≤ i)
    (hhi : i ≤ llCurhdrlen) (w : Int) :
    ∃ b', b.store i w = .ok b' ∧ b'.op = b.op ∧
      b'.Spells cap (hdr.set (i - 1).toNat w) e := by
  obtain ⟨rest, hwords⟩ := h.words
  have hhdr := h.header
  have hlen := congrArg List.length hwords
  simp only [List.length_append] at hlen
  refine ⟨{ b with words := b.words.set (i - 1).toNat w }, if_pos (by omega), rfl, ?_, ?_, h.op,
    h.hi, rest, ?_⟩
  · simpa using hhdr
  · simpa using h.length
  · simp only
    rw [hwords, List.set_append_left _ _ (by omega)]

theorem Spells.storeAll (ws : List (Int × Int)) :
    ∀ {b : LineBuf} {hdr : List Int}, b.Spells cap hdr e →
      (∀ p ∈ ws, 1 ≤ p.1 ∧ p.1 ≤ llCurhdrlen) →
      ∃ b', storeAll ws b = .ok b' ∧ b'.op = b.op ∧ b'.Spells cap (headerAfter ws hdr) e := by
  induction ws with
  | nil => exact fun {b hdr} h _ => ⟨b, rfl, rfl, h⟩
  | cons p ws ih =>
      intro b hdr h hws
      obtain ⟨hlo, hhi⟩ := hws p List.mem_cons_self
      obtain ⟨b₁, hstore, hop₁, hb₁⟩ := h.store_header hlo hhi p.2
      obtain ⟨b₂, hall, hop₂, hb₂⟩ := ih hb₁ fun q hq => hws q (List.mem_cons_of_mem p hq)
      refine ⟨b₂, ?_, hop₂.trans hop₁, hb₂⟩
      rw [LineBuf.storeAll, hstore]
      exact hall

theorem spells_start (ll : List Int) (hlen : llCurhdrlen ≤ ll.length) :
    (⟨ll, llCurhdrlen + 1, 1⟩ : LineBuf).Spells ll.length (ll.take llCurhdrlen) ⟨1, []⟩ :=
  ⟨List.length_take_of_le hlen, rfl, rfl, rfl, ll.drop llCurhdrlen, by simp⟩

end LineBuf

/-! ## `pl_p2l` -/

def storeLineRange : PutRange (Except LineFault LineBuf) := fun o _ pv nz np => do
  let b ← o
  b.encodeRange (iDatamax - 1) true pv nz np

/-- `pl_p2l` on the output buffer `ll`; the result is the buffer and the value of the
function. -/
def p2lStores (ll : List Int) (px : Int → Int) (xs npix : Int) :
    Except LineFault (List Int × Int) :=
  if npix ≤ 0 then .ok (ll, 0)
  else do
    let b ← LineBuf.storeAll ([(3, llCurversion), (2, llCurhdrlen), (1, 0)] ++ LineBuf.blenStores 0)
      ⟨ll, llCurhdrlen + 1, 1⟩
    let b ← scanPixels storeLineRange (.ok b) px xs npix
    let b ← b.storeAll (LineBuf.lenStores (b.op - 1))
    return (b.words, b.op - 1)

open LineBuf

theorem putRuns_stores {cap : Nat} {hdr : List Int} (rs : List (Run Int)) :
    ∀ (pos : Int) {b : LineBuf} {e : Encoder}, b.Spells cap hdr e →
      (∀ r ∈ rs, 0 < r.count ∨ r.value ≤ 0) →
      llCurhdrlen + e.ll.length + 3 * (rs.flatMap Run.cells).length ≤ cap →
      ∃ b', putRuns storeLineRange pos (.ok b) rs = .ok b' ∧
        b'.Spells cap hdr (putRuns putLineRange pos e rs) := by
  induction rs with
  | nil => exact fun pos {b e} h _ _ => ⟨b, rfl, h⟩
  | cons r rs ih =>
      intro pos b e h hrs hroom
      have hlen := length_encodeRange_le (show 1 ≤ iDatamax - 1 by decide) true e
        (Int.natCast_nonneg r.zeros) (Int.natCast_nonneg r.count)
        (by simpa using hrs r List.mem_cons_self)
      simp only [List.flatMap_cons, List.length_append, Run.cells, List.length_replicate] at hroom
      obtain ⟨b₁, hstore, hb₁⟩ := h.encodeRange (iDatamax - 1) true r.value r.zeros r.count
        (by omega)
      obtain ⟨b₂, hput, hb₂⟩ := ih (pos + r.zeros + r.count) hb₁
        (fun q hq => hrs q (List.mem_cons_of_mem r hq)) (by omega)
      refine ⟨b₂, ?_, hb₂⟩
      rw [putRuns, ← hput]
      exact congrArg (putRuns storeLineRange _ · rs) hstore

theorem headerAfter_p2l {hdr : List Int} (h : hdr.length = llCurhdrlen) (len : Int) :
    headerAfter (lenStores len) (headerAfter
      ([(3, llCurversion), (2, llCurhdrlen), (1, 0)] ++ blenStores 0) hdr) =
      header 0 len 0 := by
  obtain ⟨a, b, c, d, e, f, g, rfl⟩ := header_cases h
  rfl

/-- Every store of `pl_p2l` is in a buffer of three words for each pixel and the header,
and the buffer then begins with the list. -/
theorem p2lStores_fits (ll : List Int) (px : Int → Int) (xs npix : Int)
    (hroom : llCurhdrlen + 3 * npix ≤ ll.length) :
    ∃ ll', p2lStores ll px xs npix = .ok (ll', (plP2l px xs npix).length) ∧
      ll'.length = ll.length ∧ plP2l px xs npix <+: ll' := by
  by_cases hnpix : npix ≤ 0
  · refine ⟨ll, ?_, rfl, ?_⟩
    · rw [p2lStores, if_pos hnpix, plP2l, if_pos hnpix]
      rfl
    · rw [plP2l, if_pos hnpix]
      exact List.nil_prefix
  obtain ⟨b₁, hstore₁, -, hb₁⟩ := (spells_start ll (by omega)).storeAll
    ([(3, llCurversion), (2, llCurhdrlen), (1, 0)] ++ blenStores 0) (by simp [blenStores])
  have hproper := proper_lineRuns (pixels px xs npix.toNat)
  obtain ⟨b₂, hput, hb₂⟩ := putRuns_stores
    ((lineRuns (pixels px xs npix.toNat)).runs ++ [(lineRuns (pixels px xs npix.toNat)).pending])
    xs hb₁ (fun r hr => by
      rcases List.mem_append.mp hr with hr | hr
      · exact .inl (hproper.1 r hr).2
      · rw [List.mem_singleton.mp hr]
        rcases Nat.eq_zero_or_pos (lineRuns (pixels px xs npix.toNat)).pending.count with h | h
        · exact .inr (hproper.2.mp h).le
        · exact .inl h) (by
      have hcells := congrArg List.length (cells_lineRuns (pixels px xs npix.toNat))
      simp only [Scan.cells, List.length_append, length_pixels] at hcells
      simp only [List.flatMap_append, List.length_append, List.flatMap_singleton,
        List.length_nil]
      omega)
  rw [← scanPixels_eq _ _ _ (by omega)] at hput
  rw [← scanPixels_eq _ _ _ (by omega)] at hb₂
  obtain ⟨b₃, hstore₃, hop₃, hb₃⟩ := hb₂.storeAll (lenStores (b₂.op - 1)) (by simp [lenStores])
  have hop₂ := hb₂.op
  obtain ⟨rest, hwords⟩ := hb₃.words
  refine ⟨b₃.words, ?_, hb₃.length, rest, ?_⟩
  · rw [p2lStores, if_neg hnpix, hstore₁]
    have hvalue : b₃.op - 1 = ((plP2l px xs npix).length : Int) := by
      simp only [plP2l, if_neg hnpix, List.length_append, length_header]
      omega
    simp only [bind, Except.bind, hput, hstore₃]
    exact congrArg (fun n => Except.ok (b₃.words, n)) hvalue
  · have hlast : b₂.op - 1 =
        llCurhdrlen + (scanPixels putLineRange ⟨1, []⟩ px xs npix).ll.length := by omega
    rw [hwords, plP2l, if_neg hnpix, hlast, headerAfter_p2l (List.length_take_of_le (by omega))]
    simp

end Iraf.Plio
