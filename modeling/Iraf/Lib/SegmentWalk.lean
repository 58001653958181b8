import Mathlib.Data.List.GetD
import Mathlib.Algebra.Group.Defs

/-!
# Walking two segmented lines

Two lines are read through cursors that deliver segments of constant value.
The loop copies the destination line to an output and applies a function of
both lines in a region of it.  Neither the way the lines are stored nor the
way the output is written matters here: cursors are known by what they have
still to deliver, and the output by what it has been given.
-/

namespace Iraf.SegmentWalk

variable {α C O : Type}

/-- How a list is read: the pixels left in the current segment, and the cursor
and the value after reading some of them. -/
structure Reader (α C : Type) where
  nleft : C → Int
  getseg : C → Int → C × α

/-- Two lists, an output, and a region of `npix` pixels from `ds` on in which
the lists are combined.  `far` is longer than any line. -/
structure Walk (α C O : Type) where
  src : Reader α C
  dst : Reader α C
  needSrc : Bool
  zero : α
  combine : α → α → α
  put : O → Int → α → Int → O
  ds : Int
  npix : Int
  far : Int

structure State (C O : Type) where
  dSrc : C
  dDst : C
  segsize : Int
  ropEnable : Bool
  out : O

/-- Advance to position `xs` of a list; `x1` is the position reached. -/
def Reader.advance (r : Reader α C) (xs : Int) : Nat → Int → C → C
  | 0, _, c => c
  | n + 1, x1, c =>
      let np := min (r.nleft c) (xs - x1)
      let c' := (r.getseg c np).1
      if x1 + np ≥ xs ∨ np = 0 then c' else r.advance xs n (x1 + np) c'

namespace Walk

variable (w : Walk α C O)

/-- Set up for the next region when the current one is exhausted. -/
def region (s : State C O) : State C O :=
  if s.segsize ≤ 0 then
    if s.ropEnable then { s with segsize := w.far, ropEnable := false }
    else { s with segsize := w.npix, ropEnable := true }
  else s

/-- The length of the largest segment on which both lists are constant. -/
def segment (s : State C O) : Int :=
  let np := min s.segsize (w.dst.nleft s.dDst)
  if w.needSrc ∧ s.ropEnable ∧ w.src.nleft s.dSrc > 0 then
    min np (w.src.nleft s.dSrc)
  else np

/-- Output `np` pixels. -/
def putSegment (s : State C O) (v : α) (np : Int) : State C O :=
  { s with out := w.put s.out (w.dst.nleft s.dDst) v np
           segsize := s.segsize - np }

/-- Read `np` pixels of the lists and output the pixels of the result. -/
def copy (s : State C O) (np : Int) : State C O :=
  let dst := w.dst.getseg s.dDst np
  if s.ropEnable then
    let src :=
      if w.needSrc ∧ w.src.nleft s.dSrc > 0 then w.src.getseg s.dSrc np
      else (s.dSrc, w.zero)
    w.putSegment { s with dSrc := src.1, dDst := dst.1 }
      (w.combine src.2 dst.2) np
  else w.putSegment { s with dDst := dst.1 } dst.2 np

/-- One turn of the loop; `none` when it breaks. -/
def step (s : State C O) : Option (State C O) :=
  let s := w.region s
  -- Only an empty central region leaves nothing to do here.
  if s.segsize ≤ 0 then some s
  else
    let np := w.segment s
    if np ≤ 0 then none else some (w.copy s np)

def loop : Nat → State C O → State C O
  | 0, s => s
  | n + 1, s =>
      match w.step s with
      | none => s
      | some s' => loop n s'

/-- The line that the loop outputs; a source line that ends early counts as
zero from there. -/
def result (xs : Int) (src dst : List α) : List α :=
  dst.mapIdx fun k v =>
    if w.ds ≤ k + 1 ∧ (k : Int) + 1 < w.ds + w.npix then
      w.combine (src.getD (xs - 1 + (k + 1 - w.ds)).toNat w.zero) v
    else v

@[simp] theorem length_result (xs : Int) (src dst : List α) :
    (w.result xs src dst).length = dst.length := by
  simp [result]

end Walk

/-! ## Cursors -/

/-- `ahead c line` says that the cursor `c` has still to deliver `line`, and
perhaps more. -/
structure Reader.Delivers (r : Reader α C) (ahead : C → List α → Prop) :
    Prop where
  done : ∀ {c line}, ahead c line → r.nleft c ≤ 0 → line = []
  getseg : ∀ {c line} {np : Nat}, ahead c line → (np : Int) ≤ r.nleft c →
    np ≤ line.length → ahead (r.getseg c np).1 (line.drop np) ∧
      line.take np = List.replicate np (r.getseg c np).2

/-- The cursor stops at the end of the line. -/
structure Reader.Exact (r : Reader α C) (ahead : C → List α → Prop) :
    Prop where
  nonneg : ∀ {c line}, ahead c line → 0 ≤ r.nleft c
  le : ∀ {c line}, ahead c line → r.nleft c ≤ line.length

namespace Reader.Delivers

variable {r : Reader α C} {ahead : C → List α → Prop} (h : r.Delivers ahead)
include h

theorem pos {c : C} {line : List α} (hc : ahead c line) (hne : line ≠ []) :
    0 < r.nleft c := by
  have hmore : ¬ r.nleft c ≤ 0 := fun hzero => hne (h.done hc hzero)
  omega

theorem advance {line : List α} {xs : Int}
    (hfit : xs ≤ line.length ∨ r.Exact ahead) (n : Nat) :
    ∀ {x1 : Int} {c : C}, ahead c (line.drop (x1 - 1).toNat) → 1 ≤ x1 →
      x1 ≤ xs → line.length < n + x1 →
      ahead (r.advance xs n x1 c) (line.drop (xs - 1).toNat) := by
  have hover : ∀ {x1 : Int}, x1 ≤ xs → line.drop (x1 - 1).toNat = [] →
      line.drop (xs - 1).toNat = line.drop (x1 - 1).toNat := by
    intro x1 hle hnil
    have := List.drop_eq_nil_iff.mp hnil
    rw [hnil, List.drop_eq_nil_iff]
    omega
  induction n with
  | zero =>
      intro x1 c hc hpos hle hn
      rw [Reader.advance, hover hle (List.drop_eq_nil_iff.mpr (by omega))]
      exact hc
  | succ n ih =>
      intro x1 c hc hpos hle hn
      have hread : 0 ≤ min (r.nleft c) (xs - x1) ∧
          min (r.nleft c) (xs - x1) ≤ (line.drop (x1 - 1).toNat).length := by
        rcases hfit with hlong | hexact
        · have hleft := h.pos hc (by rw [ne_eq, List.drop_eq_nil_iff]; omega)
          rw [List.length_drop]
          omega
        · have hnonneg := hexact.nonneg hc
          have hbound := hexact.le hc
          omega
      obtain ⟨np, hnp⟩ := Int.eq_ofNat_of_zero_le hread.1
      obtain ⟨hrest, -⟩ := h.getseg hc (show (np : Int) ≤ _ by omega) (by omega)
      have hindex : (x1 - 1).toNat + np = (x1 + np - 1).toNat := by omega
      rw [List.drop_drop, hindex] at hrest
      simp only [Reader.advance, hnp]
      by_cases hstop : x1 + (np : Int) ≥ xs ∨ (np : Int) = 0
      · rw [if_pos hstop]
        rcases Int.lt_or_le (x1 + np) xs with hlt | hge
        · obtain rfl : np = 0 := by omega
          rw [hover hle (h.done hc (by omega))]
          simpa using hrest
        · obtain rfl : x1 + np = xs := by omega
          exact hrest
      · rw [if_neg hstop]
        exact ih hrest (by omega) (by omega) (by push_cast at hn; omega)

end Reader.Delivers

/-! ## Lines that are constant on a segment -/

theorem take_mapIdx_segment {f : Nat → α → α} {line : List α} {k np : Nat}
    {v pv : α} (hline : (line.drop k).take np = List.replicate np v)
    (hf : ∀ i, k ≤ i → i < k + np → f i v = pv) :
    (line.mapIdx f).take (k + np) =
      (line.mapIdx f).take k ++ List.replicate np pv := by
  rw [List.take_add]
  congr 1
  have hlen := congrArg List.length hline
  simp only [List.length_take, List.length_drop, List.length_replicate] at hlen
  apply List.ext_getElem
  · simp only [List.length_take, List.length_drop, List.length_mapIdx,
      List.length_replicate]
    exact hlen
  · intro i hi hi'
    have hi'' : i < np := by simpa using hi'
    have hcell : (line)[k + i]? = some v := by
      have hget := congrArg (·[i]?) hline
      simpa [List.getElem?_take, hi'', List.getElem?_drop,
        List.getElem?_replicate] using hget
    obtain ⟨hlt, hv⟩ := List.getElem?_eq_some_iff.mp hcell
    simp only [List.getElem_take, List.getElem_drop, List.getElem_mapIdx,
      List.getElem_replicate, hv]
    exact hf _ (by omega) (by omega)

theorem getD_segment {line : List α} {i n : Nat} {v d : α}
    (h : (line.drop i).take n = List.replicate n v) {j : Nat} (hj : j < n) :
    line.getD (i + j) d = v := by
  have hget := congrArg (·.getD j d) h
  simpa [hj] using hget

/-! ## The invariant -/

/-- What the output has to do with the pixels it has been given: `writes` while
pixels are to come, `done` after the last.  It has to work for the values that
are `ok`. -/
structure Sink (w : Walk α C O) (ok : α → Prop)
    (writes done : O → List α → Prop) : Prop where
  more : ∀ {o line v nl} {np : Nat}, writes o line → ok v → 0 < np →
    0 < nl → writes (w.put o nl v np) (line ++ List.replicate np v)
  last : ∀ {o line v nl} {np : Nat}, writes o line → ok v → 0 < np →
    nl ≤ 0 → done (w.put o nl v np) (line ++ List.replicate np v)

/-- The three regions of the destination line. -/
inductive Phase where
  | before
  | central
  | final

/-- The turns of the loop that only change the region. -/
def Phase.turns : Phase → Nat
  | .before => 1
  | .central | .final => 0

section Run

variable (w : Walk α C O) (aheadSrc aheadDst : C → List α → Prop)
  (writes done : O → List α → Prop) (xs : Int) (src dst : List α)

/-- After `k` pixels: how far the region extends and what is left of the
source. -/
def InPhase (k : Nat) (s : State C O) : Phase → Prop
  | .before => s.ropEnable = false ∧ 0 ≤ s.segsize ∧
      s.segsize + k = w.ds - 1 ∧
      (w.needSrc → 0 < w.npix → aheadSrc s.dSrc (src.drop (xs - 1).toNat))
  | .central => s.ropEnable = true ∧ w.ds - 1 ≤ k ∧
      s.segsize + k = w.ds - 1 + w.npix ∧
      (w.needSrc → 0 < w.npix →
        aheadSrc s.dSrc (src.drop (xs - 1 + (k + 1 - w.ds)).toNat))
  | .final => s.ropEnable = false ∧ w.ds - 1 + w.npix ≤ k ∧
      dst.length < s.segsize + k

/-- After `k` pixels the loop has still to read the rest of the lists, and has
written the result up to there. -/
structure Walks (p : Phase) (k : Nat) (s : State C O) : Prop where
  le : k ≤ dst.length
  ahead : aheadDst s.dDst (dst.drop k)
  phase : InPhase w aheadSrc xs src dst k s p
  writes : k < dst.length → writes s.out ((w.result xs src dst).take k)
  done : k = dst.length → done s.out (w.result xs src dst)

end Run

variable {w : Walk α C O} {aheadSrc aheadDst : C → List α → Prop}
  {ok : α → Prop} {writes done : O → List α → Prop} {xs : Int}
  {src dst : List α} {p : Phase} {k : Nat} {s : State C O}

theorem Walks.region
    (h : Walks w aheadSrc aheadDst writes done xs src dst p k s)
    (hfar : (dst.length : Int) < w.far) :
    ∃ p', Walks w aheadSrc aheadDst writes done xs src dst p' k (w.region s) ∧
      p'.turns ≤ p.turns ∧ ((w.region s).segsize ≤ 0 → p'.turns < p.turns) := by
  obtain ⟨hle, hahead, hphase, hwrites, hdone⟩ := h
  by_cases hseg : s.segsize ≤ 0
  · cases p with
    | before =>
        obtain ⟨hen, hpos, hsum, hsrc⟩ := hphase
        have hregion : w.region s =
            { s with segsize := w.npix, ropEnable := true } := by
          simp [Walk.region, hseg, hen]
        have hk : xs - 1 + (k + 1 - w.ds) = xs - 1 := by omega
        rw [hregion]
        refine ⟨.central, ⟨hle, hahead, ⟨rfl, by omega, by simp only; omega,
          ?_⟩, hwrites, hdone⟩, by decide, fun _ => by decide⟩
        rw [hk]
        exact hsrc
    | central =>
        obtain ⟨hen, hds, hsum, -⟩ := hphase
        have hregion : w.region s =
            { s with segsize := w.far, ropEnable := false } := by
          simp [Walk.region, hseg, hen]
        rw [hregion]
        exact ⟨.final, ⟨hle, hahead, ⟨rfl, by omega, by simp only; omega⟩,
          hwrites, hdone⟩, by decide, fun hno => by simp only at hno; omega⟩
    | final =>
        obtain ⟨-, -, hsum⟩ := hphase
        omega
  · have hregion : w.region s = s := by simp [Walk.region, hseg]
    rw [hregion]
    exact ⟨p, ⟨hle, hahead, hphase, hwrites, hdone⟩, Nat.le_refl _,
      fun hno => absurd hno hseg⟩

theorem source_segment (hd : w.src.Delivers aheadSrc) (hds : w.ds - 1 ≤ k)
    (hxs : 1 ≤ xs)
    (hsrc : aheadSrc s.dSrc (src.drop (xs - 1 + (k + 1 - w.ds)).toNat))
    {np : Nat} (hnp : w.src.nleft s.dSrc > 0 → (np : Int) ≤ w.src.nleft s.dSrc)
    (hfit : k + np + xs ≤ w.ds + src.length ∨ w.src.Exact aheadSrc) :
    let read := if w.src.nleft s.dSrc > 0 then w.src.getseg s.dSrc np
      else (s.dSrc, w.zero)
    aheadSrc read.1
        (src.drop (xs - 1 + ((k + np : Nat) + 1 - w.ds)).toNat) ∧
      ∀ i, k ≤ i → i < k + np →
        src.getD (xs - 1 + (i + 1 - w.ds)).toNat w.zero = read.2 := by
  have hindex : ∀ i, k ≤ i → (xs - 1 + ((i : Int) + 1 - w.ds)).toNat =
      (xs - 1 + (k + 1 - w.ds)).toNat + (i - k) := fun i hi => by omega
  have hlong : w.src.nleft s.dSrc > 0 →
      np ≤ (src.drop (xs - 1 + (k + 1 - w.ds)).toNat).length := fun hleft => by
    rcases hfit with hfit | hexact
    · rw [List.length_drop]
      omega
    · have hbound := hexact.le hsrc
      have := hnp hleft
      omega
  generalize (xs - 1 + ((k : Int) + 1 - w.ds)).toNat = j
    at hsrc hindex hlong
  rw [hindex (k + np) (by omega), Nat.add_sub_cancel_left, ← List.drop_drop]
  by_cases hleft : w.src.nleft s.dSrc > 0
  · obtain ⟨hrest, hsegment⟩ := hd.getseg hsrc (hnp hleft) (hlong hleft)
    simp only [if_pos hleft]
    refine ⟨hrest, fun i hlo hhi => ?_⟩
    rw [hindex i hlo]
    exact getD_segment hsegment (by omega)
  · have hnone : src.drop j = [] := hd.done hsrc (by omega)
    simp only [if_neg hleft]
    refine ⟨by simpa [hnone] using hsrc, fun i hlo hhi => ?_⟩
    have hover := List.drop_eq_nil_iff.mp hnone
    rw [hindex i hlo, List.getD_eq_default _ _ (by omega)]

section Loop

variable (hread : w.src.Delivers aheadSrc)
  (hfit : xs - 1 + w.npix ≤ src.length ∨ w.src.Exact aheadSrc)
  (hdeliver : w.dst.Delivers aheadDst) (hexact : w.dst.Exact aheadDst)
  (hsink : Sink w ok writes done)
  (hsilent : ¬ w.needSrc → ∀ v v' u, w.combine v u = w.combine v' u)
  (hxs : 1 ≤ xs) (hfar : (dst.length : Int) < w.far)
  (hres : ∀ v ∈ w.result xs src dst, ok v)

include hread hfit hdeliver hexact hsink hsilent hxs hres

theorem Walks.copy
    (h : Walks w aheadSrc aheadDst writes done xs src dst p k s) {np : Nat}
    (hnp : 0 < np) (hseg : (np : Int) ≤ s.segsize)
    (hdst : (np : Int) ≤ w.dst.nleft s.dDst)
    (hsrc : w.needSrc → s.ropEnable = true → w.src.nleft s.dSrc > 0 →
      (np : Int) ≤ w.src.nleft s.dSrc) :
    Walks w aheadSrc aheadDst writes done xs src dst p (k + np)
      (w.copy s np) := by
  obtain ⟨hle, hahead, hphase, hwrites, -⟩ := h
  have hleft := hexact.le hahead
  obtain ⟨hrest, hsegment⟩ := hdeliver.getseg hahead hdst (by omega)
  rw [List.drop_drop] at hrest
  rw [List.length_drop] at hleft
  -- The line ends when nothing is left to read.
  have hmore : k + np < dst.length →
      0 < w.dst.nleft (w.dst.getseg s.dDst np).1 := fun hlt =>
    hdeliver.pos hrest (by simpa [List.drop_eq_nil_iff] using hlt)
  have hlast : k + np = dst.length →
      w.dst.nleft (w.dst.getseg s.dDst np).1 ≤ 0 := fun heq => by
    have hbound := hexact.le hrest
    rw [List.length_drop] at hbound
    omega
  -- What is left to show is that the result is constant on the segment.
  have hput : ∀ (dSrc : C) (pv : α),
      (w.result xs src dst).take (k + np) =
        (w.result xs src dst).take k ++ List.replicate np pv →
      InPhase w aheadSrc xs src dst (k + np) (w.putSegment
        { s with dSrc := dSrc, dDst := (w.dst.getseg s.dDst np).1 } pv np) p →
      Walks w aheadSrc aheadDst writes done xs src dst p (k + np)
        (w.putSegment
          { s with dSrc := dSrc, dDst := (w.dst.getseg s.dDst np).1 } pv np) := by
    intro dSrc pv hconst hphase'
    have hpv : ok pv := by
      apply hres
      apply List.mem_of_mem_take (i := k + np)
      rw [hconst]
      exact List.mem_append_right _ (List.mem_replicate.mpr ⟨by omega, rfl⟩)
    have hw := hwrites (by omega)
    refine ⟨by omega, hrest, hphase', fun hlt => ?_, fun heq => ?_⟩
    · rw [hconst]
      exact hsink.more hw hpv hnp (hmore hlt)
    · have hfull : (w.result xs src dst).take (k + np) =
          w.result xs src dst :=
        List.take_of_length_le (by rw [Walk.length_result]; omega)
      rw [← hfull, hconst]
      exact hsink.last hw hpv hnp (hlast heq)
  unfold Walk.copy
  cases p with
  | before =>
      obtain ⟨hen, -, hsum, hsource⟩ := hphase
      have hoff : ¬ s.ropEnable = true := by simp [hen]
      simp only [if_neg hoff]
      refine hput s.dSrc _
        (take_mapIdx_segment hsegment fun i _ _ => if_neg (by omega)) ?_
      exact ⟨hen, by simp only [Walk.putSegment]; omega,
        by simp only [Walk.putSegment]; omega, hsource⟩
  | central =>
      obtain ⟨hen, hds, hsum, hsource⟩ := hphase
      simp only [if_pos hen]
      by_cases hneed : w.needSrc
      · obtain ⟨hahead', hpixels⟩ := source_segment hread hds hxs
          (hsource hneed (by omega)) (hsrc hneed hen)
          (hfit.imp_left fun hlong => by omega)
        simp only [true_and, hneed]
        refine hput _ _ (take_mapIdx_segment hsegment fun i hlo hhi => ?_) ?_
        · rw [if_pos ⟨by omega, by omega⟩, hpixels i hlo hhi]
        · exact ⟨hen, by push_cast; omega,
            by simp only [Walk.putSegment]; omega, fun _ _ => hahead'⟩
      · simp only [if_neg (fun h : w.needSrc = true ∧ _ => hneed h.1)]
        refine hput _ _ (take_mapIdx_segment hsegment fun i hlo hhi => ?_) ?_
        · rw [if_pos ⟨by omega, by omega⟩]
          exact hsilent hneed _ _ _
        · exact ⟨hen, by push_cast; omega,
            by simp only [Walk.putSegment]; omega, fun h => absurd h hneed⟩
  | final =>
      obtain ⟨hen, hdone, hlong⟩ := hphase
      have hoff : ¬ s.ropEnable = true := by simp [hen]
      simp only [if_neg hoff]
      refine hput s.dSrc _
        (take_mapIdx_segment hsegment fun i _ _ => if_neg (by omega)) ?_
      exact ⟨hen, by push_cast; omega,
        by simp only [Walk.putSegment]; omega⟩

include hfar

/-- While pixels are left, a step reads some of them or enters an empty central
region. -/
theorem Walks.step
    (h : Walks w aheadSrc aheadDst writes done xs src dst p k s)
    (hlt : k < dst.length) :
    ∃ s' p' k', w.step s = some s' ∧
      Walks w aheadSrc aheadDst writes done xs src dst p' k' s' ∧
      (k < k' ∧ p'.turns ≤ p.turns ∨ k' = k ∧ p'.turns < p.turns) := by
  obtain ⟨p', hregion, hturns, hempty⟩ := h.region hfar
  unfold Walk.step
  generalize w.region s = s₁ at hregion hturns hempty ⊢
  by_cases hseg : s₁.segsize ≤ 0
  · simp only [if_pos hseg]
    exact ⟨s₁, p', k, rfl, hregion, .inr ⟨rfl, hempty hseg⟩⟩
  · have hleft := hdeliver.pos hregion.ahead
      (by simpa [List.drop_eq_nil_iff] using hlt)
    have hsegment : 0 < w.segment s₁ ∧ w.segment s₁ ≤ s₁.segsize ∧
        w.segment s₁ ≤ w.dst.nleft s₁.dDst ∧
        (w.needSrc → s₁.ropEnable = true → w.src.nleft s₁.dSrc > 0 →
          w.segment s₁ ≤ w.src.nleft s₁.dSrc) := by
      simp only [Walk.segment]
      split
      next hsrc => exact ⟨by omega, by omega, by omega, fun _ _ _ => by omega⟩
      next hsrc =>
        exact ⟨by omega, by omega, by omega, fun h1 h2 h3 =>
          absurd ⟨h1, h2, h3⟩ hsrc⟩
    obtain ⟨hpos, hseg', hdst, hsrc⟩ := hsegment
    obtain ⟨np, hnp⟩ := Int.eq_ofNat_of_zero_le (Int.le_of_lt hpos)
    simp only [if_neg hseg, if_neg (Int.not_le.mpr hpos)]
    rw [hnp] at hseg' hdst hsrc hpos ⊢
    exact ⟨_, p', k + np, rfl,
      Walks.copy hread hfit hdeliver hexact hsink hsilent hxs hres hregion
        (by omega) hseg' hdst hsrc, .inl ⟨by omega, hturns⟩⟩

omit hread hfit hdeliver hexact hsink hsilent hxs hfar hres in
theorem loop_done (n : Nat) : ∀ {s : State C O}, w.dst.nleft s.dDst ≤ 0 →
    (w.loop n s).out = s.out := by
  induction n with
  | zero => intros; rfl
  | succ n ih =>
      intro s hleft
      have hregion : (w.region s).out = s.out ∧
          (w.region s).dDst = s.dDst := by
        unfold Walk.region
        split
        · split <;> exact ⟨rfl, rfl⟩
        · exact ⟨rfl, rfl⟩
      have hsegment : w.segment (w.region s) ≤ 0 := by
        simp only [Walk.segment, hregion.2]
        split <;> omega
      rw [Walk.loop, Walk.step]
      by_cases hseg : (w.region s).segsize ≤ 0
      · simp only [if_pos hseg]
        rw [ih (by rw [hregion.2]; exact hleft), hregion.1]
      · simp only [if_neg hseg, if_pos hsegment]

theorem Walks.loop (n : Nat) :
    ∀ {p : Phase} {k : Nat} {s : State C O},
      Walks w aheadSrc aheadDst writes done xs src dst p k s →
      dst.length + p.turns ≤ n + k →
      done (w.loop n s).out (w.result xs src dst) := by
  induction n with
  | zero =>
      intro p k s h hn
      exact h.done (by have := h.le; omega)
  | succ n ih =>
      intro p k s h hn
      rcases Nat.lt_or_ge k dst.length with hlt | hge
      · obtain ⟨s', p', k', hstep, h', hmove⟩ := Walks.step hread hfit
          hdeliver hexact hsink hsilent hxs hfar hres h hlt
        rw [Walk.loop, hstep]
        exact ih h' (by omega)
      · have hk : k = dst.length := by have := h.le; omega
        have hahead := h.ahead
        rw [hk, List.drop_length] at hahead
        have hleft := hexact.le hahead
        rw [List.length_nil] at hleft
        rw [loop_done _ (by omega)]
        exact h.done hk

theorem run (hds : 1 ≤ w.ds) {n : Nat} (hn : dst.length < n) {dSrc dDst : C}
    {o : O}
    (hsrc : w.needSrc → 0 < w.npix →
      aheadSrc dSrc (src.drop (xs - 1).toNat))
    (hdst : aheadDst dDst dst) (hwrites : writes o []) (hdone : done o []) :
    done (w.loop n ⟨dSrc, dDst, w.ds - 1, false, o⟩).out
      (w.result xs src dst) := by
  refine Walks.loop (p := .before) (k := 0) hread hfit hdeliver hexact hsink
    hsilent hxs hfar hres n ⟨Nat.zero_le _, hdst,
      ⟨rfl, by simp only; omega, by simp, hsrc⟩, fun _ => hwrites,
      fun hnil => ?_⟩ (by simp only [Phase.turns]; omega)
  have hempty : w.result xs src dst = [] := by
    rw [List.eq_nil_iff_length_eq_zero, Walk.length_result]
    exact hnil.symm
  rw [hempty]
  exact hdone

end Loop

end Iraf.SegmentWalk
