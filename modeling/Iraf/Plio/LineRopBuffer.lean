import Iraf.Plio.LineBuffer
import Iraf.Plio.LineRopCodec

/-!
# Rasterops into a line buffer

`pl_linerop` with its stores.  A range that continues the previous one is
stored again from the index where that one began, so the index goes up and
down; it never passes three words for each pixel put out so far.
-/

namespace Iraf.Plio

open RunLength SegmentWalk

/-- The locals of `pl_linerop` that describe the previous range hold anything
before the first range. -/
structure Unset where
  oNp : Int
  oIz : Int
  oHi : Int
  oOp : Int

/-- The variables of the output of `pl_linerop`; `op` and `hi` are in `buf`. -/
structure LineStore where
  buf : LineBuf
  x1 : Int
  iz : Int
  oPv : Int
  oNp : Int
  oIz : Int
  oHi : Int
  oOp : Int

namespace LineStore

def start (ll : List Int) (u : Unset) : LineStore :=
  { buf := ⟨ll, llCurhdrlen + 1, 1⟩, x1 := 1, iz := 1, oPv := -1, oNp := u.oNp,
    oIz := u.oIz, oHi := u.oHi, oOp := u.oOp }

/-- Encode the instructions of a range and move past it. -/
def flush (o : LineStore) (pv np : Int) : Except LineFault LineStore := do
  let nz := o.x1 - o.iz
  let count := if nz > 0 ∧ pv = 0 then 0 else np
  let buf ← o.buf.encodeRange iDatamax true pv nz count
  return { o with buf := buf, x1 := o.x1 + np, iz := o.x1 + np }

def put (o : LineStore) (nleft pv np : Int) : Except LineFault LineStore :=
  if pv = 0 then
    if nleft ≤ 0 then
      -- Output zeros at end of list.
      flush { o with x1 := o.x1 + np } pv np
    else
      -- Keep going until we get a nonzero range.
      .ok { o with oPv := 0, x1 := o.x1 + np }
  else if pv = o.oPv then
    -- Combine with previous range.
    flush
      { o with
        iz := o.oIz
        buf := { o.buf with op := o.oOp, hi := o.oHi }
        x1 := o.x1 - o.oNp
        oNp := np + o.oNp } pv (np + o.oNp)
  else
    flush
      { o with
        oOp := o.buf.op
        oNp := np
        oIz := o.iz
        oHi := o.buf.hi
        oPv := pv } pv np

end LineStore

/-- The main loop of `pl_linerop`. -/
def storeWalk (a : RopArgs (List Int)) : Walk Int LlDes (Except LineFault LineStore) :=
  { src := llReader a.src, dst := llReader a.dst, needSrc := RNeedSrc a.rop,
    zero := 0, combine := ropPixel a.rop a.srcMaxval a.dstMaxval,
    put := fun o nleft pv np => o >>= fun o => o.put nleft pv np,
    ds := a.ds, npix := a.npix, far := arb }

/-- `amovs (ll_dst, ll_out, LL_CURHDRLEN)`. -/
def headerStores (ll : List Int) : List (Int × Int) :=
  [(1, word ll 1), (2, word ll 2), (3, word ll 3), (4, word ll 4), (5, word ll 5),
    (6, word ll 6), (7, word ll 7)]

/-- The output of the main loop on the output buffer `ll`. -/
def storeLoop (a : RopArgs (List Int)) (ll : List Int) (u : Unset) :
    Except LineFault LineStore :=
  let dSrc :=
    if RNeedSrc a.rop then
      (llReader a.src).advance a.xs arb 1 (pllInit a.src)
    else ⟨0, 0, 0, 0, 0, 0⟩
  ((storeWalk a).loop arb
    ⟨dSrc, pllInit a.dst, a.ds - 1, false, .ok (LineStore.start ll u)⟩).out

/-- `pl_linerop` on the output buffer `ll`. -/
def lineropStores (a : RopArgs (List Int)) (ll : List Int) (u : Unset) :
    Except LineFault (List Int) := do
  let o ← storeLoop a ll u
  let b ← o.buf.storeAll (headerStores a.dst ++ LineBuf.lenStores (o.buf.op - 1))
  return b.words

/-! ## The buffer and the words of the list -/

variable {cap : Nat} {hdr : List Int}

/-- The saved variables give the state before the previous range. -/
structure LineStore.Saved (o : LineStore) (o' : LineOut) : Prop where
  oNp : o.oNp = o'.oNp
  oIz : o.oIz = o'.oIz
  oHi : o.oHi = o'.oHi
  oOp : o.oOp = llCurhdrlen + 1 + o'.oOp
  kept : o'.oOp ≤ o'.enc.ll.length
  pos : 0 ≤ o.oNp
  first : 1 ≤ o.oIz
  le : o.oIz + o.oNp ≤ o.x1
  bound : (o'.oOp : Int) ≤ 3 * (o.oIz - 1)

/-- After `k` pixels the buffer holds the words of the list, three for each pixel before
`iz` at most. -/
structure LineStore.Tracks (cap : Nat) (hdr : List Int) (k : Nat) (o : LineStore)
    (o' : LineOut) : Prop where
  buf : o.buf.Spells cap hdr o'.enc
  x1 : o.x1 = o'.x1
  iz : o.iz = o'.iz
  oPv : o.oPv = o'.oPv
  place : o.x1 = k + 1
  first : 1 ≤ o.iz
  le : o.iz ≤ o.x1
  bound : (o'.enc.ll.length : Int) ≤ 3 * (o.iz - 1)
  fresh : k = 0 → o.oPv = -1
  saved : k ≠ 0 → o.oPv ≠ 0 → o.Saved o'

namespace LineStore

variable {o : LineStore} {o' : LineOut} {k : Nat}

/-- Two outputs that are about to encode a range of `np` pixels of value `pv` have saved
the state before it. -/
structure Ready (cap : Nat) (hdr : List Int) (o : LineStore) (o' : LineOut) (pv np : Int) :
    Prop where
  buf : o.buf.Spells cap hdr o'.enc
  x1 : o.x1 = o'.x1
  iz : o.iz = o'.iz
  first : 1 ≤ o.iz
  le : o.iz ≤ o.x1
  bound : (o'.enc.ll.length : Int) ≤ 3 * (o.iz - 1)
  oPv : o.oPv = pv ∧ o'.oPv = pv
  oNp : o.oNp = np ∧ o'.oNp = np
  oIz : o.oIz = o.iz ∧ o'.oIz = o'.iz
  oHi : o.oHi = o'.oHi
  oOp : o.oOp = o.buf.op ∧ o'.oOp = o'.enc.ll.length

theorem flush_stores {pv np : Int} (hbuf : o.buf.Spells cap hdr o'.enc) (hx1 : o.x1 = o'.x1)
    (hiz : o.iz = o'.iz) (hle : o.iz ≤ o.x1)
    (hbound : (o'.enc.ll.length : Int) ≤ 3 * (o.iz - 1))
    (hnp : 0 < np) (hroom : llCurhdrlen +
      3 * (o.x1 - 1 + if o.x1 - o.iz > 0 ∧ pv = 0 then 0 else np) ≤ cap) :
    ∃ buf, o.flush pv np = .ok { o with buf := buf, x1 := o.x1 + np, iz := o.x1 + np } ∧
      buf.Spells cap hdr (o'.flush pv np).enc ∧
      ((o'.flush pv np).enc.ll.length : Int) ≤
        3 * (o.x1 - 1 + if o.x1 - o.iz > 0 ∧ pv = 0 then 0 else np) := by
  have hlen := length_encodeRange_le (show 1 ≤ iDatamax by decide) true o'.enc
    (show 0 ≤ o.x1 - o.iz by omega)
    (show 0 ≤ if o.x1 - o.iz > 0 ∧ pv = 0 then 0 else np by split <;> omega)
    (show (0 < if o.x1 - o.iz > 0 ∧ pv = 0 then 0 else np) ∨ pv ≤ 0 by
      split
      case isTrue h => exact .inr h.2.le
      case isFalse => exact .inl hnp)
  have henc : (o'.flush pv np).enc = encodeRange iDatamax true o'.enc pv (o.x1 - o.iz)
      (if o.x1 - o.iz > 0 ∧ pv = 0 then 0 else np) := by
    rw [LineOut.flush, hx1, hiz]
  rw [← henc] at hlen
  obtain ⟨buf, hstore, hspells⟩ := hbuf.encodeRange iDatamax true pv (o.x1 - o.iz)
    (if o.x1 - o.iz > 0 ∧ pv = 0 then 0 else np) (by rw [← henc]; omega)
  rw [← henc] at hspells
  refine ⟨buf, ?_, hspells, by omega⟩
  rw [flush]
  simp only [hstore]
  rfl

theorem Ready.flush {pv np : Int} (h : Ready cap hdr o o' pv np) (hpv : pv ≠ 0) (hnp : 0 < np)
    (hplace : o.x1 + np = k + 1) (hroom : llCurhdrlen + 3 * k ≤ cap) :
    ∃ o₁, o.flush pv np = .ok o₁ ∧ Tracks cap hdr k o₁ (o'.flush pv np) := by
  have hcount : (if o.x1 - o.iz > 0 ∧ pv = 0 then 0 else np) = np :=
    if_neg fun hzero => hpv hzero.2
  have hle := h.le
  have hone := h.first
  obtain ⟨buf, hflush, hspells, hbound⟩ := flush_stores h.buf h.x1 h.iz hle h.bound hnp
    (by rw [hcount]; omega)
  rw [hcount] at hbound
  have hkept : o'.enc.ll.length ≤ (o'.flush pv np).enc.ll.length :=
    length_le_encodeRange iDatamax true o'.enc pv _ _
  refine ⟨_, hflush, ?_⟩
  constructor
  · exact hspells
  · exact congrArg (· + np) h.x1
  · exact congrArg (· + np) h.x1
  · exact h.oPv.1.trans h.oPv.2.symm
  · simp only
    omega
  · simp only
    omega
  · simp only
    omega
  · simp only
    omega
  · exact fun hzero => absurd hzero (by omega)
  · intro _ _
    constructor
    · exact h.oNp.1.trans h.oNp.2.symm
    · exact h.oIz.1.trans (h.iz.trans h.oIz.2.symm)
    · exact h.oHi
    · exact h.oOp.1.trans (h.buf.op.trans (by rw [← h.oOp.2]; rfl))
    · simp only [LineOut.flush] at hkept ⊢
      rw [h.oOp.2]
      exact hkept
    · rw [h.oNp.1]
      exact hnp.le
    · simp only [h.oIz.1]
      exact hone
    · simp only [h.oIz.1, h.oNp.1]
      omega
    · simp only [LineOut.flush, h.oIz.1, h.oOp.2]
      exact h.bound

theorem Tracks.put_zeros (h : Tracks cap hdr k o o') {nleft : Int} (hnleft : 0 < nleft)
    {np : Nat} (hnp : 0 < np) :
    ∃ o₁, o.put nleft 0 np = .ok o₁ ∧ Tracks cap hdr (k + np) o₁ (o'.put nleft 0 np) := by
  have hput' : o'.put nleft 0 np = { o' with oPv := 0, x1 := o'.x1 + np } := by
    rw [LineOut.put, if_pos rfl, if_neg (by omega)]
  have hplace := h.place
  have hx1 := h.x1
  have hle := h.le
  refine ⟨{ o with oPv := 0, x1 := o.x1 + np }, ?_, ?_⟩
  · rw [put, if_pos rfl, if_neg (by omega)]
  · rw [hput']
    constructor
    · exact h.buf
    · simp only [hx1]
    · exact h.iz
    · rfl
    · push_cast
      omega
    · exact h.first
    · simp only
      omega
    · exact h.bound
    · exact fun hzero => absurd hzero (by omega)
    · exact fun _ hzero => absurd rfl hzero

theorem Tracks.last_zeros (h : Tracks cap hdr k o o') {nleft : Int} (hnleft : nleft ≤ 0)
    {np : Nat} (hnp : 0 < np) (hroom : llCurhdrlen + 3 * (k + np) ≤ cap) :
    ∃ o₁, o.put nleft 0 np = .ok o₁ ∧ o₁.buf.Spells cap hdr (o'.put nleft 0 np).enc := by
  have hplace := h.place
  have hle := h.le
  obtain ⟨buf, hflush, hspells, -⟩ := @flush_stores cap hdr { o with x1 := o.x1 + np }
    { o' with x1 := o'.x1 + np } 0 np h.buf
    (by simp only [h.x1]) h.iz (by simp only; omega) h.bound (by omega)
    (by rw [if_pos ⟨by simp only; omega, rfl⟩]; simp only; omega)
  have hput : o.put nleft 0 np = flush { o with x1 := o.x1 + np } 0 np := by
    rw [put, if_pos rfl, if_pos hnleft]
  refine ⟨_, hput.trans hflush, ?_⟩
  rw [LineOut.put, if_pos rfl, if_pos hnleft]
  exact hspells

/-- A range of pixels is stored, from the index of the previous range when it has the
same value. -/
theorem Tracks.put_pixels (h : Tracks cap hdr k o o') {pv : Int} (hpv : pv ≠ 0)
    (hfirst : k = 0 → pv ≠ -1) (nleft : Int) {np : Nat} (hnp : 0 < np)
    (hroom : llCurhdrlen + 3 * (k + np) ≤ cap) :
    ∃ o₁, o.put nleft pv np = .ok o₁ ∧
      Tracks cap hdr (k + np) o₁ (o'.put nleft pv np) := by
  have hplace := h.place
  by_cases hsame : pv = o.oPv
  · -- The previous range is stored again, with this one.
    have hk : k ≠ 0 := fun hzero => hfirst hzero (hsame.trans (h.fresh hzero))
    have hsaved := h.saved hk (hsame ▸ hpv)
    have hoNp := hsaved.oNp
    have hle := hsaved.le
    have hpos := hsaved.pos
    obtain ⟨rest, hwords⟩ := h.buf.words
    have htake : (o'.enc.ll.take o'.oOp).length = o'.oOp :=
      List.length_take_of_le hsaved.kept
    have hready : Ready cap hdr
        { o with
          iz := o.oIz
          buf := { o.buf with op := o.oOp, hi := o.oHi }
          x1 := o.x1 - o.oNp
          oNp := np + o.oNp }
        { o' with
          iz := o'.oIz
          enc := ⟨o'.oHi, o'.enc.ll.take o'.oOp⟩
          x1 := o'.x1 - o'.oNp
          oNp := np + o'.oNp } pv (np + o.oNp) := by
      constructor
      · refine ⟨h.buf.header, h.buf.length, ?_, hsaved.oHi, o'.enc.ll.drop o'.oOp ++ rest, ?_⟩
        · simp only [htake, hsaved.oOp]
        · change o.buf.words = hdr ++ (o'.enc.ll.take o'.oOp ++ (o'.enc.ll.drop o'.oOp ++ rest))
          rw [← List.append_assoc (o'.enc.ll.take o'.oOp), List.take_append_drop]
          exact hwords
      · simp only [h.x1, hoNp]
      · exact hsaved.oIz
      · exact hsaved.first
      · simp only
        omega
      · simp only [htake]
        exact hsaved.bound
      · exact ⟨hsame.symm, h.oPv ▸ hsame.symm⟩
      · simp only [hoNp, and_self]
      · exact ⟨rfl, rfl⟩
      · exact hsaved.oHi
      · exact ⟨rfl, htake.symm⟩
    obtain ⟨o₁, hflush, htracks⟩ := hready.flush (k := k + np) hpv (by omega)
      (by push_cast; omega) hroom
    refine ⟨o₁, ?_, ?_⟩
    · rw [put, if_neg hpv, if_pos hsame]
      exact hflush
    · rw [LineOut.put, if_neg hpv, if_pos (hsame.trans h.oPv), ← hoNp]
      rw [← hoNp] at htracks
      exact htracks
  · have hready : Ready cap hdr
        { o with oOp := o.buf.op, oNp := np, oIz := o.iz, oHi := o.buf.hi, oPv := pv }
        { o' with
          oOp := o'.enc.ll.length, oNp := np, oIz := o'.iz, oHi := o'.enc.hi, oPv := pv }
        pv np :=
      ⟨h.buf, h.x1, h.iz, h.first, h.le, h.bound, ⟨rfl, rfl⟩, ⟨rfl, rfl⟩, ⟨rfl, rfl⟩, h.buf.hi,
        rfl, rfl⟩
    obtain ⟨o₁, hflush, htracks⟩ := hready.flush (k := k + np) hpv (by omega)
      (by push_cast; omega) hroom
    refine ⟨o₁, ?_, ?_⟩
    · rw [put, if_neg hpv, if_neg hsame]
      exact hflush
    · rw [LineOut.put, if_neg hpv, if_neg (h.oPv ▸ hsame)]
      exact htracks

end LineStore

/-! ## The loop -/

/-- Unless its first pixel is -1, a line of at most `n` pixels is stored without a fault. -/
def Stored (n cap : Nat) (hdr : List Int) (o : Except LineFault LineStore) (line : List Int) :
    Prop :=
  line.length ≤ n → line.head? ≠ some (-1) →
    ∃ s o', o = .ok s ∧ LineStore.Tracks cap hdr line.length s o' ∧
      ((∀ v ∈ line, Pixel v) → o'.Writes (lineRuns line))

/-- The same of the whole line, whose last zeros have been stored. -/
def StoredLine (n cap : Nat) (hdr : List Int) (o : Except LineFault LineStore)
    (line : List Int) : Prop :=
  line.length ≤ n → line.head? ≠ some (-1) →
    ∃ s enc, o = .ok s ∧ s.buf.Spells cap hdr enc ∧
      ((∀ v ∈ line, Pixel v) → enc = encodeScan iDatamax (lineRuns line))

variable {a : RopArgs (List Int)} {n : Nat}

theorem head?_append_replicate {line : List Int} {v : Int} {np : Nat} (hnp : 0 < np)
    (h : (line ++ List.replicate np v).head? ≠ some (-1)) :
    line.head? ≠ some (-1) ∧ (line.length = 0 → v ≠ -1) := by
  obtain ⟨m, rfl⟩ : ∃ m, np = m + 1 := ⟨np - 1, by omega⟩
  cases line with
  | nil => exact ⟨by simp, fun _ hv => h (by simp [List.replicate_succ, hv])⟩
  | cons u line => exact ⟨by simpa using h, fun hzero => by simp at hzero⟩

theorem storeSink (a : RopArgs (List Int)) (hroom : llCurhdrlen + 3 * n ≤ cap) :
    Sink (storeWalk a) (fun _ => True) (Stored n cap hdr) (StoredLine n cap hdr) := by
  have hsink := lineSink a
  have hpixels : ∀ {line : List Int} {v : Int} {np : Nat}, 0 < np →
      (∀ u ∈ line ++ List.replicate np v, Pixel u) → (∀ u ∈ line, Pixel u) ∧ Pixel v := by
    intro line v np hnp hall
    exact ⟨fun u hu => hall u (List.mem_append_left _ hu),
      hall v (List.mem_append_right _ (List.mem_replicate.mpr ⟨by omega, rfl⟩))⟩
  constructor
  · intro o line v nl np h _ hnp hnl hlen hhead
    obtain ⟨hhead, hfirst⟩ := head?_append_replicate hnp hhead
    simp only [List.length_append, List.length_replicate] at hlen
    obtain ⟨s, o', rfl, htracks, hwrites⟩ := h (by omega) hhead
    have hput : ∃ s₁, s.put nl v np = .ok s₁ ∧
        LineStore.Tracks cap hdr (line.length + np) s₁ (o'.put nl v np) := by
      by_cases hv : v = 0
      · subst hv
        exact htracks.put_zeros hnl hnp
      · exact htracks.put_pixels hv hfirst nl hnp (by omega)
    obtain ⟨s₁, hput, htracks₁⟩ := hput
    refine ⟨s₁, o'.put nl v np, hput, by simpa using htracks₁, fun hall => ?_⟩
    obtain ⟨hline, hv⟩ := hpixels hnp hall
    exact hsink.more (hwrites hline) hv hnp hnl
  · intro o line v nl np h _ hnp hnl hlen hhead
    obtain ⟨hhead, hfirst⟩ := head?_append_replicate hnp hhead
    simp only [List.length_append, List.length_replicate] at hlen
    obtain ⟨s, o', rfl, htracks, hwrites⟩ := h (by omega) hhead
    have hput : ∃ s₁, s.put nl v np = .ok s₁ ∧
        s₁.buf.Spells cap hdr (o'.put nl v np).enc := by
      by_cases hv : v = 0
      · subst hv
        exact htracks.last_zeros hnl hnp (by omega)
      · obtain ⟨s₁, hput, htracks₁⟩ := htracks.put_pixels hv hfirst nl hnp (by omega)
        exact ⟨s₁, hput, htracks₁.buf⟩
    obtain ⟨s₁, hput, hspells⟩ := hput
    refine ⟨s₁, (o'.put nl v np).enc, hput, hspells, fun hall => ?_⟩
    obtain ⟨hline, hv⟩ := hpixels hnp hall
    exact hsink.last (hwrites hline) hv hnp hnl

/-- A first pixel of -1 is taken for a range that continues the previous one, and is
stored where the locals say that one began. -/
structure Misplaced (o₀ : LineStore) (o : Except LineFault LineStore) (line : List Int) :
    Prop where
  fresh : line = [] → o = .ok o₀
  fault : line.head? = some (-1) → ∃ f, o = .error f

theorem misplacedSink (a : RopArgs (List Int)) (ll : List Int) :
    Sink (storeWalk a) (fun _ => True)
      (Misplaced (LineStore.start ll ⟨0, 1, 0, ll.length + 1⟩))
      (Misplaced (LineStore.start ll ⟨0, 1, 0, ll.length + 1⟩)) := by
  have hput : ∀ {o : Except LineFault LineStore} {line : List Int} {v nl : Int} {np : Nat},
      Misplaced (LineStore.start ll ⟨0, 1, 0, ll.length + 1⟩) o line → 0 < np →
      Misplaced (LineStore.start ll ⟨0, 1, 0, ll.length + 1⟩)
        ((storeWalk a).put o nl v np) (line ++ List.replicate np v) := by
    intro o line v nl np h hnp
    obtain ⟨m, rfl⟩ : ∃ m, np = m + 1 := ⟨np - 1, by omega⟩
    refine ⟨fun hnil => by simp at hnil, fun hhead => ?_⟩
    cases line with
    | nil =>
        obtain rfl : v = -1 := by simpa [List.replicate_succ] using hhead
        rw [h.fresh rfl]
        refine ⟨.outside (ll.length + 1), ?_⟩
        simp [storeWalk, LineStore.put, LineStore.start, LineStore.flush, bind, Except.bind,
          LineBuf.encodeRange, LineBuf.putRange, LineBuf.putRun, LineBuf.put, LineBuf.store]
    | cons u line =>
        obtain ⟨f, rfl⟩ := h.fault (by simpa using hhead)
        exact ⟨f, rfl⟩
  exact ⟨fun h _ hnp _ => hput h hnp, fun h _ hnp _ => hput h hnp⟩

theorem headerAfter_linerop {hdr : List Int} (h : hdr.length = llCurhdrlen) {ll : List Int}
    (hll : llCurhdrlen ≤ ll.length) (len : Int) :
    LineBuf.headerAfter (headerStores ll ++ LineBuf.lenStores len) hdr =
      ll.take 3 ++ lengthWords len ++ (ll.drop 5).take 2 := by
  obtain ⟨a, b, c, d, e, f, g, rfl⟩ := LineBuf.header_cases h
  match ll, hll with
  | a' :: b' :: c' :: d' :: e' :: f' :: g' :: ll, _ => rfl

section Result

variable {src dst : List Int} (hxs : 1 ≤ a.xs) (hds : 1 ≤ a.ds)
  (hsrc : RNeedSrc a.rop → Encodes a.src src ∧ src.length ≤ arb)
  (hdst : Encodes a.dst dst) (hlen : dst.length < arb)

include hxs hds hsrc hdst hlen

theorem storeLoop_done {writes done : Except LineFault LineStore → List Int → Prop}
    (hsink : Sink (storeWalk a) (fun _ => True) writes done) {ll : List Int} {u : Unset}
    (hwrites : writes (.ok (LineStore.start ll u)) [])
    (hdone : done (.ok (LineStore.start ll u)) []) :
    done (storeLoop a ll u) (roppedLine a src dst) := by
  refine SegmentWalk.run (llReader_delivers a.src)
    (.inr (llReader_exact a.src)) (llReader_delivers a.dst)
    (llReader_exact a.dst) hsink
    (fun hneed _ _ _ => ropPixel_noSrc ?_ _ _ _ _ _) hxs
    (Int.ofNat_lt.mpr hlen) (fun _ _ => trivial) hds hlen (fun hneed _ => ?_)
    (pllInit_ahead hdst) hwrites hdone
  · simpa [storeWalk] using hneed
  · have hneed' : RNeedSrc a.rop := by simpa [storeWalk] using hneed
    obtain ⟨hencodes, hshort⟩ := hsrc hneed'
    rw [if_pos hneed']
    exact (llReader_delivers a.src).advance
      (.inr (llReader_exact a.src)) arb (by simpa using pllInit_ahead hencodes)
      (by decide) hxs (by omega)

/-- Every store of `pl_linerop` is in a buffer of three words for each pixel of the
destination line and the header, and the buffer then begins with the list, unless the
first pixel of the result is -1. -/
theorem lineropStores_fits (hfirst : (roppedLine a src dst).head? ≠ some (-1)) (ll : List Int)
    (hroom : llCurhdrlen + 3 * dst.length ≤ ll.length) (u : Unset) :
    ∃ ll', lineropStores a ll u = .ok ll' ∧ ll'.length = ll.length ∧
      ((∀ v ∈ roppedLine a src dst, Pixel v) → plLinerop a <+: ll') := by
  have hspells := LineBuf.spells_start ll (by omega)
  have hstored : StoredLine dst.length ll.length (ll.take llCurhdrlen) (storeLoop a ll u)
      (roppedLine a src dst) := by
    apply storeLoop_done hxs hds hsrc hdst hlen (storeSink a hroom)
    · intro _ _
      refine ⟨_, LineOut.start, rfl, ?_, fun _ => ⟨proper_lineRuns [],
        fun _ => ⟨rfl, rfl, by decide⟩, fun h => absurd rfl h⟩⟩
      exact ⟨hspells, rfl, rfl, rfl, rfl, le_rfl, le_rfl, le_rfl, fun _ => rfl,
        fun h => absurd rfl h⟩
    · intro _ _
      exact ⟨_, ⟨1, []⟩, rfl, hspells, fun _ => rfl⟩
  obtain ⟨s, enc, hloop, hbuf, hpixels⟩ := hstored (by rw [length_roppedLine]) hfirst
  obtain ⟨b, hstore, -, hb⟩ := hbuf.storeAll
    (headerStores a.dst ++ LineBuf.lenStores (s.buf.op - 1))
    (by simp [headerStores, LineBuf.lenStores])
  refine ⟨b.words, ?_, hb.length, fun hres => ?_⟩
  · simp only [lineropStores, hloop, bind, Except.bind, hstore]
    rfl
  · obtain ⟨rest, hwords⟩ := hb.words
    have henc := lineOut_enc hxs hds hsrc hdst hlen hres
    rw [← hpixels hres] at henc
    have hlast : s.buf.op - 1 = llCurhdrlen + enc.ll.length := by
      have := hbuf.op
      omega
    refine ⟨rest, ?_⟩
    rw [hwords, hlast, plLinerop, henc, headerAfter_linerop (List.length_take_of_le (by omega))
      (by
        obtain ⟨nref, blen, is, after, hll, -⟩ := hdst
        rw [hll]
        simp)]
    simp

/-- If the first pixel of the result is -1 some values of the locals make `pl_linerop`
store beyond the buffer. -/
theorem lineropStores_outside (hfirst : (roppedLine a src dst).head? = some (-1))
    (ll : List Int) : ∃ u f, lineropStores a ll u = .error f := by
  have hloop : Misplaced (LineStore.start ll ⟨0, 1, 0, ll.length + 1⟩)
      (storeLoop a ll ⟨0, 1, 0, ll.length + 1⟩) (roppedLine a src dst) := by
    apply storeLoop_done hxs hds hsrc hdst hlen (misplacedSink a ll) <;>
      exact ⟨fun _ => rfl, fun h => by simp at h⟩
  obtain ⟨f, hfault⟩ := hloop.fault hfirst
  exact ⟨⟨0, 1, 0, ll.length + 1⟩, f, by rw [lineropStores, hfault]; rfl⟩

omit hxs hsrc hdst hlen in
/-- The first pixel of the result is the rasterop of two pixels if the window begins at
the first pixel of the destination line. -/
theorem roppedLine_head? :
    (roppedLine a src dst).head? = dst.head?.map fun v =>
      if a.ds = 1 ∧ 1 ≤ a.npix then
        ropPixel a.rop a.srcMaxval a.dstMaxval (src.getD (a.xs - 1).toNat 0) v
      else v := by
  cases dst with
  | nil => rfl
  | cons v dst =>
      simp only [roppedLine, List.mapIdx_cons, List.head?_cons, Option.map_some]
      by_cases hwindow : a.ds = 1 ∧ 1 ≤ a.npix
      · have hindex : a.xs - 1 + (((0 : Nat) : Int) + 1 - a.ds) = a.xs - 1 := by omega
        rw [if_pos hwindow, if_pos ⟨by omega, by omega⟩, hindex]
      · rw [if_neg hwindow, if_neg (by omega)]

end Result

/-- The stores of the two encoders are in buffers of three words for each pixel and the
header, whatever the buffer and the locals hold. -/
def EncodersFit (px : Int → Int) (xs npix : Int) (a : RopArgs (List Int)) (axlen : Nat) :
    Prop :=
  (∀ ll : List Int, (ll.length : Int) = 3 * npix + llCurhdrlen →
    ∃ r, p2lStores ll px xs npix = .ok r) ∧
  ∀ (ll : List Int) (u : Unset), ll.length = 3 * axlen + llCurhdrlen →
    ∃ r, lineropStores a ll u = .ok r

/-- The encoders fit their buffers unless the first pixel of the line comes out as -1. -/
theorem encodersFit_iff (px : Int → Int) (xs npix : Int) {a : RopArgs (List Int)}
    {src dst : List Int} (hxs : 1 ≤ a.xs) (hds : 1 ≤ a.ds)
    (hsrc : RNeedSrc a.rop → Encodes a.src src ∧ src.length ≤ arb)
    (hdst : Encodes a.dst dst) (hlen : dst.length < arb) :
    EncodersFit px xs npix a dst.length ↔
      ∀ v ∈ dst.head?, (if a.ds = 1 ∧ 1 ≤ a.npix then
          ropPixel a.rop a.srcMaxval a.dstMaxval (src.getD (a.xs - 1).toNat 0) v
        else v) ≠ -1 := by
  have hhead : (∀ v ∈ dst.head?, (if a.ds = 1 ∧ 1 ≤ a.npix then
        ropPixel a.rop a.srcMaxval a.dstMaxval (src.getD (a.xs - 1).toNat 0) v
      else v) ≠ -1) ↔ (roppedLine a src dst).head? ≠ some (-1) := by
    rw [roppedLine_head? hds]
    cases dst.head? <;> simp
  rw [hhead]
  constructor
  · rintro ⟨-, hfit⟩ hfirst
    obtain ⟨u, f, hfault⟩ := lineropStores_outside hxs hds hsrc hdst hlen hfirst
      (List.replicate (3 * dst.length + llCurhdrlen) 0)
    obtain ⟨r, hr⟩ := hfit _ u List.length_replicate
    rw [hfault] at hr
    nomatch hr
  · intro hfirst
    constructor
    · intro ll hll
      obtain ⟨ll', hstores, -⟩ := p2lStores_fits ll px xs npix (by omega)
      exact ⟨_, hstores⟩
    · intro ll u hll
      obtain ⟨ll', hstores, -⟩ := lineropStores_fits hxs hds hsrc hdst hlen hfirst ll (by omega) u
      exact ⟨ll', hstores⟩

/-- The complement of a line of one zero, which is its own source. -/
def notArgs (dstMaxval : Int) : RopArgs (List Int) :=
  { src := plP2l (fun _ => 0) 1 1, xs := 1, srcMaxval := 1, dst := plP2l (fun _ => 0) 1 1,
    ds := 1, dstMaxval := dstMaxval, npix := 1, rop := pixNotdst }

theorem encodes_zero : Encodes (plP2l (fun _ => 0) 1 1) [0] := by
  have hencodes := @plP2l_encodes (fun _ => 0) 1 1 (by decide) (fun _ _ _ => by decide)
    (by decide) []
  rwa [List.append_nil] at hencodes

theorem encodersFit_not :
    EncodersFit (fun i => i) 1 3 (notArgs 1) 1 := by
  refine (@encodersFit_iff (fun i => i) 1 3 (notArgs 1) [] [0] (by decide) (by decide)
    (fun h => absurd h (by decide)) encodes_zero (by decide)).mpr fun v hv => ?_
  obtain rfl : v = 0 := by simpa using hv.symm
  have hrange := ropPixel_range (show 1 ≤ (notArgs 1).dstMaxval by decide) (notArgs 1).rop
    (notArgs 1).srcMaxval (([] : List Int).getD ((notArgs 1).xs - 1).toNat 0) 0
  rw [if_pos (by decide)]
  omega

/-- At depth 0 the complement of a zero is -1, which `o_pv` holds when there is no previous
range. -/
theorem not_encodersFit_depthZero : ¬ EncodersFit (fun i => i) 1 3 (notArgs (mv 0)) 1 := by
  rintro ⟨-, hfit⟩
  obtain ⟨u, f, hfault⟩ := @lineropStores_outside (notArgs (mv 0)) [] [0] (by decide) (by decide)
    (fun h => absurd h (by decide)) encodes_zero (by decide) (by decide)
    (List.replicate 10 0)
  obtain ⟨r, hr⟩ := hfit (List.replicate 10 0) u List.length_replicate
  rw [hfault] at hr
  nomatch hr

end Iraf.Plio
