import Iraf.Lib.Cursor
import Iraf.Pmio.LineRanges
import Iraf.Pmio.Mio

/-!
# A call of mio_glseg

A descriptor that reads a region has ranges of the current line left, and lines after it.
A call takes the next range away, or finds nothing left.
-/

namespace Iraf.Pmio

open Plio Odometer StepMachine

variable {σ Px : Type}

/-! ## Images -/

/-- A procedure returns the address of the pixels from `x1` to `x2` of a line. -/
def Image.HasLine (im : Image σ Px) (pixel : List Int → Px) (x1 x2 : Int) (tail : List Int)
    (r : Except MioErr (σ × Int)) : Prop :=
  ∃ s bp, r = .ok (s, bp) ∧
    ∀ x, x1 ≤ x → x ≤ x2 → im.mem s (bp + x - x1) = pixel (x :: tail)

/-- IMIO reads lines of the image: `imgl2` and `imgl3` whole lines, `imggs` a section,
here of one line.  Axes that are not given are at 1. -/
structure Image.Reads (im : Image σ Px) (axlen : List Int) (pixel : List Int → Px) :
    Prop where
  len : im.len = axlen
  imgl2 : ∀ s y, 2 ≤ axlen.length → 1 ≤ y → y ≤ word axlen 2 →
    im.HasLine pixel 1 (word axlen 1) (y :: List.replicate (axlen.length - 2) 1) (im.imgl2 s y)
  imgl3 : ∀ s y z, 3 ≤ axlen.length → 1 ≤ y → y ≤ word axlen 2 → 1 ≤ z → z ≤ word axlen 3 →
    im.HasLine pixel 1 (word axlen 1) (y :: z :: List.replicate (axlen.length - 3) 1)
      (im.imgl3 s y z)
  imggs : ∀ s vs ve ndim, 1 ≤ ndim → ndim ≤ axlen.length → vs.length = ndim →
    InMask axlen vs ndim → InMask axlen ve ndim → word vs 1 ≤ word ve 1 → ve.tail = vs.tail →
    im.HasLine pixel (word vs 1) (word ve 1)
      (vs.tail ++ List.replicate (axlen.length - ndim) 1) (im.imggs s vs ve ndim)

/-! ## The states of a descriptor that reads a region -/

/-- The elements of the range list that are left. -/
structure Mio.Queue (mp : Mio σ) (q : List RlElem) : Prop where
  parts : ∃ before after, mp.rl = before ++ (q ++ after) ∧ mp.rli = before.length + 1 ∧
    rlLen mp.rl = before.length + q.length

/-- What stays the same while a region is read. -/
structure Mio.OnRegion (m : Mask) (axlen v1 v2 : List Int) (ndim : Nat) (reg : Bool)
    (mp : Mio σ) : Prop where
  pm : mp.pm = m
  dims : mp.ndim = ndim
  loop : LoopVectors v1 v2 ndim mp.vs mp.ve
  vn : word mp.vn 1 = (sectAxis v1 v2 ndim 1).2
  lineio : mp.lineio = true → (sectAxis v1 v2 ndim 1).1 = 1 ∧
    (sectAxis v1 v2 ndim 1).2 = word axlen 1
  regcoords : mp.regcoords = reg
  active : mp.active = true

/-- The pixels of the line through `w` are in memory. -/
def Mio.Loaded (im : Image σ Px) (pixel : List Int → Px) (v1 v2 : List Int) (ndim : Nat)
    (mp : Mio σ) (w : List Int) : Prop :=
  ∀ x, (sectAxis v1 v2 ndim 1).1 ≤ x →
    x ≤ (sectAxis v1 v2 ndim 1).1 + (sectAxis v1 v2 ndim 1).2 - 1 →
    im.mem mp.im (mp.lbp + x - (sectAxis v1 v2 ndim 1).1) = pixel (x :: w.tail)

/-- The descriptor stands at the line through `w` with the ranges `q` left of it, and the
lines `later` after it. -/
structure Mio.At (im : Image σ Px) (pixel : List Int → Px) (m : Mask)
    (axlen v1 v2 : List Int) (ndim : Nat) (reg : Bool) (mp : Mio σ) (w : List Int)
    (q : List RlElem) (later : List (List Int)) : Prop where
  region : mp.OnRegion m axlen v1 v2 ndim reg
  queue : mp.Queue q
  vector : ∃ rest, mp.v = w ++ rest ∧
    Orbit (fun v => nextAfter (plloop v mp.vs mp.ve ndim)) ((w :: later).map (· ++ rest))
  rows : ∀ u ∈ w :: later, Row axlen.length v1 v2 ndim u
  onLine : ∀ u ∈ later, OnLine axlen u
  current : q ≠ [] → OnLine axlen w ∧ ∀ r ∈ q, r ∈ lineRanges m axlen v1 v2 ndim w
  loaded : mp.rli ≠ rlFirst → q ≠ [] → mp.Loaded im pixel v1 v2 ndim w

/-- What is left to return: the ranges of the current line, and those of the lines after
it. -/
def pending (m : Mask) (axlen v1 v2 : List Int) (ndim : Nat) (w : List Int) (q : List RlElem)
    (later : List (List Int)) : List (List Int × RlElem) :=
  q.map (w, ·) ++ later.flatMap fun u => (lineRanges m axlen v1 v2 ndim u).map (u, ·)

theorem Mio.Queue.more {mp : Mio σ} {q : List RlElem} (h : mp.Queue q) :
    mp.rli > rlLen mp.rl ↔ q = [] := by
  obtain ⟨before, after, -, hrli, hlen⟩ := h.parts
  rw [hrli, hlen, ← List.length_eq_zero_iff]
  omega

theorem Mio.Queue.head {mp : Mio σ} {r : RlElem} {q : List RlElem} (h : mp.Queue (r :: q)) :
    rlElem mp.rl mp.rli = r := by
  obtain ⟨before, after, hrl, hrli, -⟩ := h.parts
  have hindex : ((before.length : Int) + 1 - 1).toNat = before.length := by omega
  rw [rlElem, hrli, hindex, hrl, List.getD_append_right _ _ _ _ (Nat.le_refl _), Nat.sub_self]
  rfl

theorem Mio.Queue.fetched {mp : Mio σ} {q after : List RlElem} {n : Int}
    (hrl : mp.rl = ⟨q.length + 1, n, 0⟩ :: (q ++ after)) (hrli : mp.rli = rlFirst) :
    mp.Queue q := by
  refine ⟨[⟨q.length + 1, n, 0⟩], after, hrl, hrli, ?_⟩
  rw [hrl]
  change (q.length : Int) + 1 = 1 + q.length
  omega

/-! ## Getting a mask line -/

theorem again_of_nextAfter {v w : List Int} {vs ve : List Int} {n : Nat}
    (h : nextAfter (plloop v vs ve n) = some w) : plloop v vs ve n = (w, .again) := by
  generalize plloop v vs ve n = next at *
  obtain ⟨u, status⟩ := next
  cases status with
  | again => exact congrArg (·, LoopStatus.again) (Option.some.inj h)
  | done => cases h

theorem done_of_nextAfter {v : List Int} {vs ve : List Int} {n : Nat}
    (h : nextAfter (plloop v vs ve n) = none) : ∃ u, plloop v vs ve n = (u, .done) := by
  generalize plloop v vs ve n = next at *
  obtain ⟨u, status⟩ := next
  cases status with
  | again => cases h
  | done => exact ⟨u, rfl⟩

theorem Mio.maskLine_turn {mp : Mio σ} {v : List Int} (hmore : mp.rli > rlLen mp.rl)
    (hnext : plloop mp.v mp.vs mp.ve mp.ndim = (v, .again)) {r : Except PlErr Bool}
    (htest : plSectnotempty mp.pm v (Mio.lineEnd { mp with v := v }) mp.ndim 1 = some r) :
    mp.maskLine =
      match r with
      | .error e => .error (.mask (.mask e))
      | .ok true => (Mio.glri { mp with v := v }).map .inl
      | .ok false => .ok (.inl { mp with v := v }) := by
  rw [Mio.maskLine, if_pos hmore, hnext]
  simp only [htest, Option.map_some, bind, Except.bind]
  cases r with
  | error e => rfl
  | ok b =>
      cases b with
      | true =>
          simp only [liftMask, atMost, onMask, if_pos]
          cases Mio.glri { mp with v := v } with
          | error e => rfl
          | ok mp' => rfl
      | false => rfl

section Call

variable {im : Image σ Px} {pixel : List Int → Px} {m : Mask} {axlen v1 v2 w : List Int}
  {rows : List (List Int)} {ndim : Nat} {reg : Bool} {mp : Mio σ} {q : List RlElem}
  {later : List (List Int)}
  (hax : Axes axlen) (hm : m.Draws axlen rows) (hpx : ∀ line ∈ rows, ∀ p ∈ line, 0 ≤ p)
  (hlen : word axlen 1 ≤ arb) (hv1 : InMask axlen v1 ndim) (hv2 : InMask axlen v2 ndim)
  (hlo : 1 ≤ ndim) (hhi : ndim ≤ axlen.length)

theorem Mio.OnRegion.reads (h : mp.OnRegion m axlen v1 v2 ndim reg) (s : σ) (lbp : Int)
    (rl : List RlElem) (rli : Int) (v : List Int) :
    Mio.OnRegion m axlen v1 v2 ndim reg
      { mp with im := s, lbp := lbp, rl := rl, rli := rli, v := v } :=
  ⟨h.pm, h.dims, h.loop, h.vn, h.lineio, h.regcoords, h.active⟩

theorem Mio.OnRegion.word_ve (h : mp.OnRegion m axlen v1 v2 ndim reg) :
    word mp.ve 1 = (sectAxis v1 v2 ndim 1).1 + (sectAxis v1 v2 ndim 1).2 - 1 := by
  obtain ⟨z, hz⟩ := h.loop.ends
  rw [hz]
  rfl

theorem Mio.OnRegion.lineEnd (h : mp.OnRegion m axlen v1 v2 ndim reg) :
    mp.lineEnd = Plio.lineEnd v1 v2 ndim mp.v := by
  rw [Mio.lineEnd, h.dims, h.word_ve]
  rfl

include hax hm hpx hv1 hv2

theorem Mio.glri_line (hpm : mp.pm = m) (hvn : word mp.vn 1 = (sectAxis v1 v2 ndim 1).2)
    {rest : List Int} (hv : mp.v = w ++ rest) (hrow : Row axlen.length v1 v2 ndim w)
    (hon : OnLine axlen w) :
    ∃ rl, mp.glri = .ok { mp with rl := rl, rli := rlFirst } ∧
      Mio.Queue { mp with rl := rl, rli := rlFirst } (lineRanges m axlen v1 v2 ndim w) := by
  have hglr := plGlr_line hax hm hv1 hv2 hpx hrow.length hrow.first hon rest mp.rl mp.depth
  refine ⟨⟨(lineRanges m axlen v1 v2 ndim w).length + 1, (sectAxis v1 v2 ndim 1).2, 0⟩ ::
    (lineRanges m axlen v1 v2 ndim w ++
      mp.rl.drop ((lineRanges m axlen v1 v2 ndim w).length + 1)), ?_, Mio.Queue.fetched rfl rfl⟩
  simp only [Mio.glri, hpm, hvn, hv, hglr, liftMask, onMask, bind, Except.bind]
  rfl

include hlen hlo hhi

theorem Mio.At.maskLine (h : mp.At im pixel m axlen v1 v2 ndim reg w q later) :
    (∃ mp' w' r q' later', Ends Mio.maskLine mp (.ok (mp', .again)) ∧
      mp'.At im pixel m axlen v1 v2 ndim reg w' (r :: q') later' ∧
      pending m axlen v1 v2 ndim w q later = pending m axlen v1 v2 ndim w' (r :: q') later' ∧
      ((mp' = mp ∧ w' = w ∧ q = r :: q' ∧ later' = later) ∨
        (q = [] ∧ mp'.rli = rlFirst ∧ mp'.im = mp.im ∧
          ∃ skipped, later = skipped ++ w' :: later'))) ∨
    (pending m axlen v1 v2 ndim w q later = [] ∧
      ∃ mp', Ends Mio.maskLine mp (.ok (mp', .done)) ∧
        mp'.OnRegion m axlen v1 v2 ndim reg ∧ mp'.Queue [] ∧ mp'.im = mp.im ∧
        ∃ u ∈ w :: later, ∃ rest, plloop (u ++ rest) mp'.vs mp'.ve ndim = (mp'.v, .done)) := by
  induction later generalizing mp w q with
  | nil =>
      cases q with
      | cons r q =>
          left
          refine ⟨mp, w, r, q, [], ends_result ?_, h, rfl, .inl ⟨rfl, rfl, rfl, rfl⟩⟩
          rw [Mio.maskLine, if_neg (by rw [h.queue.more]; simp)]
      | nil =>
          right
          obtain ⟨rest, hv, horbit⟩ := h.vector
          obtain ⟨u, hu⟩ := done_of_nextAfter (orbit_singleton.mp horbit)
          refine ⟨rfl, { mp with v := u }, ends_result ?_, h.region.reads _ _ _ _ _,
            ⟨h.queue.parts⟩, rfl, w, List.mem_singleton.mpr rfl, rest, hu⟩
          rw [Mio.maskLine, if_pos (h.queue.more.mpr rfl), h.region.dims, hv, hu]
  | cons u later ih =>
      cases q with
      | cons r q =>
          left
          refine ⟨mp, w, r, q, u :: later, ends_result ?_, h, rfl, .inl ⟨rfl, rfl, rfl, rfl⟩⟩
          rw [Mio.maskLine, if_neg (by rw [h.queue.more]; simp)]
      | nil =>
          obtain ⟨rest, hv, horbit⟩ := h.vector
          rw [List.map_cons, List.map_cons, orbit_cons] at horbit
          have hnext := again_of_nextAfter horbit.1
          have hrow := h.rows u (by simp)
          have hon := h.onLine u List.mem_cons_self
          have hregion : Mio.OnRegion m axlen v1 v2 ndim reg { mp with v := u ++ rest } :=
            h.region.reads _ _ _ _ _
          obtain ⟨b, htest, hblank⟩ :=
            sectnotempty_line rest hlo hhi hrow hax hm hv1 hv2 hlen hon
          have hturn := Mio.maskLine_turn (h.queue.more.mpr rfl)
            (show plloop mp.v mp.vs mp.ve mp.ndim = (u ++ rest, .again) by
              rw [hv, h.region.dims, hnext])
            (show plSectnotempty mp.pm (u ++ rest) (Mio.lineEnd { mp with v := u ++ rest })
                mp.ndim 1 = some (.ok b) by
              rw [hregion.lineEnd, h.region.pm, h.region.dims, htest])
          -- the next line becomes the current one, with its ranges or with none
          have hstep : ∃ mp₁ q₁, mp.maskLine = .ok (.inl mp₁) ∧
              mp₁.At im pixel m axlen v1 v2 ndim reg u q₁ later ∧
              pending m axlen v1 v2 ndim w [] (u :: later) =
                pending m axlen v1 v2 ndim u q₁ later ∧
              mp₁.im = mp.im ∧ (q₁ ≠ [] → mp₁.rli = rlFirst) := by
            cases b with
            | true =>
                obtain ⟨rl, hglri, hqueue⟩ := Mio.glri_line hax hm hpx hv1 hv2
                  (show ({ mp with v := u ++ rest } : Mio σ).pm = m from hregion.pm) hregion.vn
                  rfl hrow hon
                rw [hglri] at hturn
                refine ⟨{ mp with v := u ++ rest, rl := rl, rli := rlFirst },
                  lineRanges m axlen v1 v2 ndim u, hturn, ?_, rfl, rfl, fun _ => rfl⟩
                constructor
                · exact h.region.reads _ _ _ _ _
                · exact hqueue
                · exact ⟨rest, rfl, horbit.2⟩
                · exact fun t ht => h.rows t (List.mem_cons_of_mem w ht)
                · exact fun t ht => h.onLine t (List.mem_cons_of_mem u ht)
                · exact fun _ => ⟨hon, fun _ hr => hr⟩
                · exact fun hne => absurd rfl hne
            | false =>
                have hnone : lineRanges m axlen v1 v2 ndim u = [] := by
                  obtain ⟨-, hranges, hvalues, hpixels⟩ :=
                    lineRanges_spec hax hm hv1 hv2 hpx hrow.length hon
                  apply List.eq_nil_iff_forall_not_mem.mpr
                  intro r hr
                  obtain ⟨hrlo, hrn, hrhi⟩ := hranges.bounds r hr
                  have hvalue := hranges.value_of_mem hr (i := r.x) ⟨Int.le_refl _, by omega⟩
                  rw [hpixels r.x hrlo (by omega), hblank rfl r.x hrlo (by omega)] at hvalue
                  exact absurd (hvalues r hr) (by omega)
                refine ⟨{ mp with v := u ++ rest }, [], hturn, ?_, ?_, rfl, fun hne =>
                  absurd rfl hne⟩
                · constructor
                  · exact hregion
                  · exact ⟨h.queue.parts⟩
                  · exact ⟨rest, rfl, horbit.2⟩
                  · exact fun t ht => h.rows t (List.mem_cons_of_mem w ht)
                  · exact fun t ht => h.onLine t (List.mem_cons_of_mem u ht)
                  · exact fun hne => absurd rfl hne
                  · exact fun _ hne => absurd rfl hne
                · simp [pending, hnone]
          obtain ⟨mp₁, q₁, hstep, hat, hpend, him, hfirst⟩ := hstep
          rw [hpend]
          rcases ih hat with ⟨mp', w', r, q', later', hends, hat', hsame, hmoved⟩ |
            ⟨hnone, mp', hends, hreg, hqueue', him', t, ht, hdone⟩
          · refine .inl ⟨mp', w', r, q', later', (ends_next hstep).mpr hends, hat', hsame, .inr ?_⟩
            rcases hmoved with ⟨rfl, rfl, hq, rfl⟩ | ⟨-, hrli, him', skipped, rfl⟩
            · exact ⟨rfl, hfirst (hq ▸ List.cons_ne_nil r q'), him, [], rfl⟩
            · exact ⟨rfl, hrli, him'.trans him, u :: skipped, rfl⟩
          · exact .inr ⟨hnone, mp', (ends_next hstep).mpr hends, hreg, hqueue', him'.trans him, t,
              List.mem_cons_of_mem w ht, hdone⟩

end Call

/-! ## Getting an image line -/

section Image

variable {im : Image σ Px} {pixel : List Int → Px} {m : Mask} {axlen v1 v2 w : List Int}
  {ndim : Nat} {reg : Bool} {mp : Mio σ} {r : RlElem} {q : List RlElem}
  {later : List (List Int)}
  (hax : Axes axlen) (hv1 : InMask axlen v1 ndim) (hv2 : InMask axlen v2 ndim)
  (hlo : 1 ≤ ndim) (hhi : ndim ≤ axlen.length)

theorem Mio.OnRegion.word_vs (h : mp.OnRegion m axlen v1 v2 ndim reg) {i : Nat} (hi : 1 ≤ i)
    (hi' : i ≤ ndim) : word mp.vs i = (sectAxis v1 v2 ndim i).1 := by
  obtain ⟨y, hy⟩ := h.loop.starts
  rw [hy]
  rcases Nat.lt_or_ge i 2 with hone | htwo
  · obtain rfl : i = 1 := by omega
    rfl
  · obtain ⟨j, rfl⟩ : ∃ j, i = j + 1 := ⟨i - 1, by omega⟩
    have hindex : j - 1 + 2 = j + 1 := by omega
    rw [word_cons_succ _ _ (by omega), word_append (by omega) (by simp; omega), innerStart,
      word_map_range _ (by omega) (by omega), hindex]

include hax hv1 hv2 hlo hhi

/-- The line of the image is read when the first range of a mask line is returned. -/
theorem Mio.At.imageLine (him : im.Reads axlen pixel)
    (h : mp.At im pixel m axlen v1 v2 ndim reg w (r :: q) later) :
    ∃ mp', mp.imageLine im = .ok mp' ∧
      mp'.At im pixel m axlen v1 v2 ndim reg w (r :: q) later ∧
      mp'.Loaded im pixel v1 v2 ndim w ∧ mp'.rl = mp.rl ∧ mp'.rli = mp.rli := by
  have hrow := h.rows w List.mem_cons_self
  obtain ⟨hon, hq⟩ := h.current (List.cons_ne_nil r q)
  obtain ⟨rest, hv, horbit⟩ := h.vector
  have hlen := hrow.length
  obtain ⟨hslo, hsize, hshi⟩ := sectAxis_bounds hax hv1 hv2 (Nat.le_refl 1) hax.1
  rw [Nat.cast_one] at hshi
  have htail := hrow.tail_eq hlo hhi
  by_cases hfirst : mp.rli = rlFirst
  · have hcoord : ∀ i : Nat, 1 ≤ i → i ≤ axlen.length → word mp.v i = word w i := by
      intro i hi hi'
      rw [hv, word_append hi (by omega)]
    -- Whichever procedure is called, it returns the line from the start of the region on.
    have hread : ∃ s bp, mp.readLine im = .ok (s, bp) ∧
        ∀ x, (sectAxis v1 v2 ndim 1).1 ≤ x →
          x ≤ (sectAxis v1 v2 ndim 1).1 + (sectAxis v1 v2 ndim 1).2 - 1 →
          im.mem s (bp + x - (sectAxis v1 v2 ndim 1).1) = pixel (x :: w.tail) := by
      rw [Mio.readLine, h.region.dims, htail]
      by_cases htwo : mp.lineio = true ∧ ndim = 2
      · obtain ⟨hline, rfl⟩ := htwo
        obtain ⟨hstart, hwhole⟩ := h.region.lineio hline
        have hy := hon 2 (Nat.le_refl 2) hhi
        have hcoord2 := hcoord 2 (by omega) hhi
        rw [Nat.cast_ofNat] at hy hcoord2
        rw [if_pos ⟨hline, rfl⟩, hcoord2, hstart, hwhole]
        obtain ⟨s, bp, hok, hmem⟩ := him.imgl2 mp.im (word w 2) hhi hy.1 hy.2
        exact ⟨s, bp, hok, fun x hxlo hxhi => hmem x hxlo (by omega)⟩
      · rw [if_neg htwo]
        by_cases hthree : mp.lineio = true ∧ ndim = 3
        · obtain ⟨hline, rfl⟩ := hthree
          obtain ⟨hstart, hwhole⟩ := h.region.lineio hline
          have hy := hon 2 (Nat.le_refl 2) (by omega)
          have hz := hon 3 (by omega) hhi
          have hcoord2 := hcoord 2 (by omega) (by omega)
          have hcoord3 := hcoord 3 (by omega) hhi
          rw [Nat.cast_ofNat] at hy hz hcoord2 hcoord3
          rw [if_pos ⟨hline, rfl⟩, hcoord2, hcoord3, hstart, hwhole]
          obtain ⟨s, bp, hok, hmem⟩ :=
            him.imgl3 mp.im (word w 2) (word w 3) hhi hy.1 hy.2 hz.1 hz.2
          exact ⟨s, bp, hok, fun x hxlo hxhi => hmem x hxlo (by omega)⟩
        · rw [if_neg hthree, h.region.lineEnd, hv]
          have hends := word_lineEnd_one rest hlo hhi hrow
          have htaken : ∀ i : Nat, 1 ≤ i → i ≤ ndim →
              word ((w ++ rest).take ndim) i = word w i := by
            intro i hi hi'
            rw [word_take hi hi', word_append hi (by omega)]
          have hstart := htaken 1 (Nat.le_refl 1) hlo
          rw [Nat.cast_one, hrow.first] at hstart
          have hsame : ((w ++ rest).take ndim).tail =
              (List.range (ndim - 1)).map fun k => word w (k + 2 : Nat) := by
            have htake : (w ++ rest).take ndim = w.take ndim :=
              List.take_append_of_le_length (by omega)
            have hnonempty : w.take ndim ≠ [] := by
              intro hnil
              have := congrArg List.length hnil
              rw [List.length_take, List.length_nil] at this
              omega
            have hdecomp : w.tail = (w.take ndim).tail ++ w.drop ndim := by
              conv_lhs => rw [← List.take_append_drop ndim w]
              rw [List.tail_append_of_ne_nil hnonempty]
            rw [hrow.ones, htail] at hdecomp
            rw [htake]
            exact (List.append_cancel_right hdecomp).symm
          have hendtail : (Plio.lineEnd v1 v2 ndim (w ++ rest)).tail =
              ((w ++ rest).take ndim).tail := by
            rw [Plio.lineEnd]
            cases (w ++ rest).take ndim with
            | nil => rfl
            | cons y t => rfl
          have hin1 : InMask axlen ((w ++ rest).take ndim) ndim := by
            intro i hi hi' hdim
            rw [htaken i hi hdim]
            rcases Nat.lt_or_ge i 2 with hone | hmore
            · obtain rfl : i = 1 := by omega
              rw [Nat.cast_one, hrow.first]
              omega
            · exact hon i hmore hi'
          have hin2 : InMask axlen (Plio.lineEnd v1 v2 ndim (w ++ rest)) ndim := by
            intro i hi hi' hdim
            rcases Nat.lt_or_ge i 2 with hone | hmore
            · obtain rfl : i = 1 := by omega
              rw [Nat.cast_one, hends]
              omega
            · rw [word_lineEnd rest hlo hhi hrow hmore hdim]
              exact hon i hmore hi'
          obtain ⟨s, bp, hok, hmem⟩ := him.imggs mp.im ((w ++ rest).take ndim)
            (Plio.lineEnd v1 v2 ndim (w ++ rest)) ndim hlo hhi
            (by rw [List.length_take, List.length_append]; omega) hin1 hin2
            (by rw [hstart, hends]; omega) hendtail
          rw [hstart, hends, hsame] at hmem
          exact ⟨s, bp, hok, hmem⟩
    obtain ⟨s, bp, hok, hmem⟩ := hread
    have hloaded : Mio.Loaded im pixel v1 v2 ndim { mp with im := s, lbp := bp } w := hmem
    refine ⟨{ mp with im := s, lbp := bp }, ?_, ?_, hloaded, rfl, rfl⟩
    · rw [Mio.imageLine, if_pos hfirst, hok]
      rfl
    · exact ⟨h.region.reads _ _ _ _ _, ⟨h.queue.parts⟩, ⟨rest, hv, horbit⟩, h.rows, h.onLine,
        h.current, fun _ _ => hloaded⟩
  · refine ⟨mp, ?_, h, h.loaded hfirst (List.cons_ne_nil r q), rfl, rfl⟩
    rw [Mio.imageLine, if_neg hfirst]

end Image

end Iraf.Pmio
