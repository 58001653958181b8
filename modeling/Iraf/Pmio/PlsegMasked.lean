import Mathlib.Data.List.Nodup
import Iraf.Pmio.Plseg

/-!
# What is put through a mask

The buffer of a line has what was allocated until the caller stores its segments, and all
of it is written.
-/

namespace Iraf.Pmio

open Plio Odometer StepMachine Cursor

variable {Px : Type}

/-! ## Output buffers -/

/-- The pixel is in the row of a region that the line through `w` has. -/
def InRow (v1 v2 : List Int) (ndim : Nat) (w p : List Int) : Prop :=
  (p ≠ [] ∧ p.tail = w.tail) ∧ (sectAxis v1 v2 ndim 1).1 ≤ word p 1 ∧
    word p 1 < (sectAxis v1 v2 ndim 1).1 + (sectAxis v1 v2 ndim 1).2

instance (v1 v2 : List Int) (ndim : Nat) (w p : List Int) : Decidable (InRow v1 v2 ndim w p) := by
  unfold InRow
  infer_instance

theorem inRow_cons {v1 v2 w : List Int} {ndim : Nat} {x : Int} :
    InRow v1 v2 ndim w (x :: w.tail) ↔ (sectAxis v1 v2 ndim 1).1 ≤ x ∧
      x < (sectAxis v1 v2 ndim 1).1 + (sectAxis v1 v2 ndim 1).2 :=
  and_iff_right ⟨List.cons_ne_nil _ _, rfl⟩

theorem InRow.eq_cons {v1 v2 w p : List Int} {ndim : Nat} (h : InRow v1 v2 ndim w p) :
    p = word p 1 :: w.tail := by
  obtain ⟨⟨hne, htail⟩, -⟩ := h
  obtain ⟨x, t, rfl⟩ := List.exists_cons_of_ne_nil hne
  rw [← htail]
  rfl

theorem writePixels_line (mem : Int → Px) (tail p : List Int) (n : Nat) (bp x1 : Int)
    (pixel : List Int → Px) :
    writePixels mem bp ((Int.range x1 (x1 + n)).map (· :: tail)) pixel p =
      if (p ≠ [] ∧ p.tail = tail) ∧ x1 ≤ word p 1 ∧ word p 1 < x1 + n then
        mem (bp + (word p 1 - x1))
      else pixel p := by
  induction n generalizing bp x1 pixel with
  | zero =>
      have hempty : Int.range x1 (x1 + (0 : Nat)) = [] := by simp [Int.range]
      rw [hempty, if_neg (by omega)]
      rfl
  | succ n ih =>
      have hcons : Int.range x1 (x1 + (n + 1 : Nat)) = x1 :: Int.range (x1 + 1) (x1 + 1 + n) := by
        have hend : x1 + ((n + 1 : Nat) : Int) = x1 + n + 1 := by push_cast; ring
        rw [hend, range_cons (by omega), add_right_comm]
      rw [hcons, List.map_cons, writePixels, ih]
      by_cases hp : p = x1 :: tail
      · subst hp
        have hword : word (x1 :: tail) 1 = x1 := rfl
        rw [hword, if_neg (by omega), Function.update_self,
          if_pos ⟨⟨List.cons_ne_nil _ _, rfl⟩, by omega, by omega⟩, sub_self, add_zero]
      · rw [Function.update_of_ne hp]
        have hplace : bp + 1 + (word p 1 - (x1 + 1)) = bp + (word p 1 - x1) := by ring
        rw [hplace]
        congr 1
        rw [eq_iff_iff]
        constructor
        · rintro ⟨hline, hlo, hhi⟩
          refine ⟨hline, by omega, ?_⟩
          push_cast
          omega
        · rintro ⟨hline, hlo, hhi⟩
          have hne : word p 1 ≠ x1 := by
            intro heq
            obtain ⟨y, t, rfl⟩ := List.exists_cons_of_ne_nil hline.1
            exact hp (congrArg₂ List.cons heq hline.2)
          push_cast at hhi
          exact ⟨hline, by omega, by omega⟩

theorem sectionOrder_single (tail : List Int) :
    sectionOrder (tail.map fun x => (x, x)) = [tail] := by
  induction tail with
  | nil => rfl
  | cons x tail ih =>
      have hone : axisOrder x x = [x] := by
        rw [axisOrder, if_pos le_rfl, range_cons le_rfl]
        simp [Int.range]
      rw [List.map_cons, sectionOrder, ih, hone]
      rfl

/-- The output buffer is for the row of the line through `w`. -/
structure OutImage.Holds (axlen v1 v2 : List Int) (ndim : Nat) (w : List Int)
    (im : OutImage Px) : Prop extends im.OfLine v1 v2 ndim w where
  flush : im.flush = true
  len : im.len = axlen

section Buffer

variable {axlen v1 v2 w : List Int} {ndim : Nat} {im im₁ : OutImage Px}

theorem OutImage.Holds.axes_eq (h : im.Holds axlen v1 v2 ndim w) (hlo : 1 ≤ ndim)
    (hhi : ndim ≤ axlen.length) (hrow : Row axlen.length v1 v2 ndim w) :
    im.axes = ((sectAxis v1 v2 ndim 1).1,
      (sectAxis v1 v2 ndim 1).1 + (sectAxis v1 v2 ndim 1).2 - 1) ::
        w.tail.map fun x => (x, x) := by
  have hlen := hrow.length
  obtain ⟨n, hn⟩ : ∃ n, axlen.length = n + 1 := ⟨axlen.length - 1, by omega⟩
  rw [OutImage.axes, h.len, h.dims, hn, List.range_succ_eq_map, List.map_cons, List.map_map,
    if_pos (by omega)]
  congr 1
  · exact Prod.ext h.first.1 h.first.2
  · apply List.ext_getElem
    · rw [List.length_map, List.length_range, List.length_map, List.length_tail, hlen, hn,
        Nat.add_sub_cancel]
    · intro k hk hk'
      rw [List.length_map, List.length_range] at hk
      rw [List.getElem_map, List.getElem_range, List.getElem_map, List.getElem_tail]
      have hword : word w (k + 2 : Nat) = w[k + 1] := word_eq_getElem (by omega) (by omega)
      rw [← hword]
      dsimp only [Function.comp_apply]
      split
      next hin =>
        obtain ⟨hs, he⟩ := h.rest (k + 2) (by omega) (by omega)
        exact Prod.ext hs he
      next hout =>
        rw [hrow.rest (k + 2) (by omega) (by omega)]

theorem OutImage.Holds.imfls (h : im.Holds axlen v1 v2 ndim w) (hax : Axes axlen)
    (hv1 : InMask axlen v1 ndim) (hv2 : InMask axlen v2 ndim) (hlo : 1 ≤ ndim)
    (hhi : ndim ≤ axlen.length) (hrow : Row axlen.length v1 v2 ndim w) (hon : OnLine axlen w) :
    im.imfls = .ok { im with
      pixel := fun p =>
        if InRow v1 v2 ndim w p then im.mem (im.bufptr + (word p 1 - (sectAxis v1 v2 ndim 1).1))
        else im.pixel p
      flush := false } := by
  obtain ⟨hslo, hsize, hshi⟩ := sectAxis_bounds hax hv1 hv2 (Nat.le_refl 1) hax.1
  rw [Nat.cast_one] at hshi
  have hin : im.Inbounds := by
    intro k hk
    rw [h.dims, List.mem_range] at hk
    rw [h.len]
    rcases Nat.eq_zero_or_pos k with rfl | hpos
    · rw [Nat.zero_add, Nat.cast_one, h.first.1, h.first.2]
      omega
    · obtain ⟨hs, he⟩ := h.rest (k + 1) (by omega) (by omega)
      rw [hs, he]
      have hplace := hon (k + 1) (by omega) (by omega)
      exact ⟨hplace, hplace⟩
  obtain ⟨n, hn⟩ : ∃ n : Nat, (sectAxis v1 v2 ndim 1).2 = n :=
    ⟨(sectAxis v1 v2 ndim 1).2.toNat, by omega⟩
  have hend : (sectAxis v1 v2 ndim 1).1 + (n : Int) - 1 + 1 = (sectAxis v1 v2 ndim 1).1 + n := by
    ring
  rw [OutImage.imfls, if_pos h.flush, if_pos hin, h.axes_eq hlo hhi hrow, sectionOrder,
    sectionOrder_single, List.flatMap_singleton, hn, axisOrder, if_pos (by omega), hend]
  congr 2
  funext p
  rw [writePixels_line]
  refine if_congr ?_ rfl rfl
  rw [InRow, hn]

theorem OutImage.imfls_len (h : im.imfls = .ok im₁) : im₁.len = im.len := by
  rw [OutImage.imfls] at h
  split at h
  · split at h
    · rw [← Except.ok.inj h]
    · cases h
  · rw [← Except.ok.inj h]

theorem OutImage.impgs_eq (imgobf : Allocate Px) (h : im.imfls = .ok im₁) (vs ve : List Int)
    (ndim : Nat) :
    im.impgs imgobf vs ve ndim = .ok ({ im₁ with
      mem := (imgobf im₁ vs ve ndim).1, bufptr := (imgobf im₁ vs ve ndim).2, vs := vs, ve := ve,
      ndim := ndim, flush := true }, (imgobf im₁ vs ve ndim).2) := by
  rw [OutImage.impgs, h]
  rfl

/-! ## What the image has once it is flushed -/

/-- The pixels `R` have the data, those of `O` that do not have what is in new buffers, and
the others are as before. -/
def Output (axlen : List Int) (K : Px → Prop) (data base : List Int → Px)
    (R O : List Int → Prop) (im : OutImage Px) : Prop :=
  im.len = axlen ∧ ∃ im₁, im.imfls = .ok im₁ ∧ ∀ p,
    (R p → im₁.pixel p = data p) ∧ (¬R p → O p → K (im₁.pixel p)) ∧
      (¬R p → ¬O p → im₁.pixel p = base p)

variable {K : Px → Prop} {data base : List Int → Px} {R O : List Int → Prop}
  (hax : Axes axlen) (hv1 : InMask axlen v1 ndim) (hv2 : InMask axlen v2 ndim)
  (hlo : 1 ≤ ndim) (hhi : ndim ≤ axlen.length)
include hax hv1 hv2 hlo hhi

theorem Output.opened (h : im₁.Holds axlen v1 v2 ndim w) (hrow : Row axlen.length v1 v2 ndim w)
    (hon : OnLine axlen w) (hK : ∀ a, K (im₁.mem a)) (hfresh : ∀ p, InRow v1 v2 ndim w p → ¬R p)
    (hpixel : ∀ p, (R p → im₁.pixel p = data p) ∧ (¬R p → O p → K (im₁.pixel p)) ∧
      (¬R p → ¬O p → im₁.pixel p = base p)) :
    Output axlen K data base R (fun p => O p ∨ InRow v1 v2 ndim w p) im₁ := by
  refine ⟨h.len, _, h.imfls hax hv1 hv2 hlo hhi hrow hon, fun p => ?_⟩
  dsimp only
  split
  next hp => exact ⟨fun hR => absurd hR (hfresh p hp), fun _ _ => hK _,
    fun _ hO => absurd (Or.inr hp) hO⟩
  next hp =>
    obtain ⟨hdata, hjunk, hbase⟩ := hpixel p
    refine ⟨hdata, fun hR hO => hjunk hR (hO.resolve_right hp), fun hR hO => hbase hR ?_⟩
    exact fun hold => hO (Or.inl hold)

theorem Output.stored (h : Output axlen K data base R O im) (hheld : im.Holds axlen v1 v2 ndim w)
    (hrow : Row axlen.length v1 v2 ndim w) (hon : OnLine axlen w) {x n : Int}
    (hx : (sectAxis v1 v2 ndim 1).1 ≤ x)
    (hn : x + n ≤ (sectAxis v1 v2 ndim 1).1 + (sectAxis v1 v2 ndim 1).2) :
    Output axlen K data base
      (fun p => R p ∨ p ∈ (Int.range x (x + n)).map (· :: w.tail)) O
      (im.store (im.bufptr + x - (sectAxis v1 v2 ndim 1).1) n
        fun k => data ((x + k) :: w.tail)) := by
  obtain ⟨hlen, im₁, hfls, hpixel⟩ := h
  rw [hheld.imfls hax hv1 hv2 hlo hhi hrow hon] at hfls
  have hstored : (im.store (im.bufptr + x - (sectAxis v1 v2 ndim 1).1) n
      fun k => data ((x + k) :: w.tail)).Holds axlen v1 v2 ndim w :=
    ⟨⟨hheld.dims, hheld.first, hheld.rest⟩, hheld.flush, hheld.len⟩
  refine ⟨hlen, _, hstored.imfls hax hv1 hv2 hlo hhi hrow hon, fun p => ?_⟩
  obtain ⟨hdata, hjunk, hbase⟩ := hpixel p
  rw [← Except.ok.inj hfls] at hdata hjunk hbase
  dsimp only [OutImage.store] at hdata hjunk hbase ⊢
  by_cases hp : p ∈ (Int.range x (x + n)).map (· :: w.tail)
  · obtain ⟨y, hy, rfl⟩ := List.mem_map.1 hp
    obtain ⟨hylo, hyhi⟩ := Int.mem_range_iff.1 hy
    have hword : word (y :: w.tail) 1 = y := rfl
    refine ⟨fun _ => ?_, fun hR => absurd (Or.inr hp) hR, fun hR => absurd (Or.inr hp) hR⟩
    rw [hword, if_pos (inRow_cons.2 ⟨by omega, by omega⟩), if_pos ⟨by omega, by omega⟩]
    congr 2
    ring
  · have hsame : (if InRow v1 v2 ndim w p then
          if im.bufptr + x - (sectAxis v1 v2 ndim 1).1 ≤
              im.bufptr + (word p 1 - (sectAxis v1 v2 ndim 1).1) ∧
            im.bufptr + (word p 1 - (sectAxis v1 v2 ndim 1).1) <
              im.bufptr + x - (sectAxis v1 v2 ndim 1).1 + n then
            data ((x + (im.bufptr + (word p 1 - (sectAxis v1 v2 ndim 1).1) -
              (im.bufptr + x - (sectAxis v1 v2 ndim 1).1))) :: w.tail)
          else im.mem (im.bufptr + (word p 1 - (sectAxis v1 v2 ndim 1).1))
        else im.pixel p) =
        if InRow v1 v2 ndim w p then
          im.mem (im.bufptr + (word p 1 - (sectAxis v1 v2 ndim 1).1))
        else im.pixel p := by
      split
      next hin =>
        refine if_neg fun hbetween => hp ?_
        rw [hin.eq_cons]
        exact List.mem_map_of_mem (Int.mem_range_iff.2 ⟨by omega, by omega⟩)
      · rfl
    rw [hsame]
    exact ⟨fun hR => hdata (hR.resolve_right hp), fun hR => hjunk fun hold => hR (Or.inl hold),
      fun hR => hbase fun hold => hR (Or.inl hold)⟩

end Buffer

/-! ## Calls -/

/-- What a call does after its loop. -/
def Mio.finishPut (imgobf : Allocate Px) (r : (Mio (OutImage Px) × List Int) × LoopStatus) :
    Except MioErr (Mio (OutImage Px) × Option Segment) :=
  match r with
  | ((mp, _), .done) => .ok (mp, none)
  | ((mp, ve), .again) =>
      (mp.outputLine imgobf ve).map fun mp => (mp.nextSegment.1, some mp.nextSegment.2)

variable {imgobf : Allocate Px} {ve : List Int} {mp mp' : Mio (OutImage Px)}

theorem mioPlseg_iff (hstart : mp.start = .ok mp') {out : Mio (OutImage Px) × Option Segment} :
    (∃ fuel, mioPlseg imgobf ve mp fuel = .ok out) ↔
      ∃ r, Ends Mio.maskLineVe (mp', ve) (.ok r) ∧ Mio.finishPut imgobf r = .ok out := by
  have hcall : ∀ fuel, mioPlseg imgobf ve mp fuel = .ok out ↔
      ∃ r, run Mio.maskLineVe fuel (mp', ve) = some (.ok r) ∧
        Mio.finishPut imgobf r = .ok out := by
    intro fuel
    unfold mioPlseg
    simp only [hstart, bind, Except.bind]
    cases run Mio.maskLineVe fuel (mp', ve) with
    | none => simp
    | some result =>
        cases result with
        | error e => simp
        | ok r =>
            obtain ⟨⟨mp'', ve'⟩, status⟩ := r
            simp only [Option.some.injEq, Except.ok.injEq, exists_eq_left']
            cases status with
            | done => exact Iff.rfl
            | again =>
                unfold Mio.finishPut
                cases mp''.outputLine imgobf ve' with
                | error e => exact Iff.rfl
                | ok mp₃ => exact Iff.rfl
  constructor
  · rintro ⟨fuel, hok⟩
    obtain ⟨r, hrun, hfinish⟩ := (hcall fuel).mp hok
    exact ⟨r, ⟨fuel, hrun⟩, hfinish⟩
  · rintro ⟨r, ⟨fuel, hrun⟩, hfinish⟩
    exact ⟨fuel, (hcall fuel).mpr ⟨r, hrun, hfinish⟩⟩

theorem mioPlseg_unique {a b : Mio (OutImage Px) × Option Segment}
    (ha : ∃ fuel, mioPlseg imgobf ve mp fuel = .ok a)
    (hb : ∃ fuel, mioPlseg imgobf ve mp fuel = .ok b) : a = b := by
  cases hstart : mp.start with
  | error e =>
      obtain ⟨fuel, hok⟩ := ha
      unfold mioPlseg at hok
      simp only [hstart, bind, Except.bind] at hok
      cases hok
  | ok mp' =>
      obtain ⟨r, hr, hfinish⟩ := (mioPlseg_iff hstart).mp ha
      obtain ⟨r', hr', hfinish'⟩ := (mioPlseg_iff hstart).mp hb
      obtain rfl := Except.ok.inj (hr.unique hr')
      exact Except.ok.inj (hfinish.symm.trans hfinish')

theorem Puts.unique {uninit : Mio (OutImage Px) → List Int} {data : List Int → Px}
    {first : Segment → List Int} {a b : Mio (OutImage Px) × Option Segment}
    (ha : Puts imgobf uninit data first mp a) (hb : Puts imgobf uninit data first mp b) :
    a = b := by
  obtain ⟨fuel, t, seg, hcall, rfl⟩ := ha
  obtain ⟨fuel', t', seg', hcall', rfl⟩ := hb
  obtain ⟨rfl, rfl⟩ := Prod.mk.inj (mioPlseg_unique ⟨fuel, hcall⟩ ⟨fuel', hcall'⟩)
  rfl

theorem maskLine_again (h : mp.maskLine = .ok (.inr (mp', .again))) :
    mp' = mp ∧ ¬mp.rli > rlLen mp.rl := by
  by_cases hmore : mp.rli > rlLen mp.rl
  · exfalso
    rw [Mio.maskLine, if_pos hmore] at h
    generalize plloop mp.v mp.vs mp.ve mp.ndim = next at h
    obtain ⟨v, status⟩ := next
    cases status with
    | done => cases h
    | again =>
        obtain ⟨b, -, hb⟩ := bind_eq_ok.1 h
        cases b with
        | false => cases hb
        | true =>
            obtain ⟨mp₁, -, hmp₁⟩ := bind_eq_ok.1 hb
            cases hmp₁
  · rw [Mio.maskLine, if_neg hmore] at h
    cases h
    exact ⟨rfl, hmore⟩

/-- The loop with the vector `ve`, which is the end of the line that the loop has come to. -/
theorem ends_maskLineVe {status : LoopStatus} (h : Ends Mio.maskLine mp (.ok (mp', status)))
    (ve : List Int) : ∃ ve', Ends Mio.maskLineVe (mp, ve) (.ok ((mp', ve'), status)) ∧
      ((status = .again → ve' = mp'.lineEnd) ∨
        (mp.maskLine = .ok (.inr (mp', status)) ∧ ve' = ve)) := by
  obtain ⟨fuel, hrun⟩ := h
  induction fuel generalizing mp ve with
  | zero => cases hrun
  | succ fuel ih =>
      rw [run] at hrun
      cases hstep : mp.maskLine with
      | error e =>
          rw [hstep] at hrun
          cases hrun
      | ok next =>
          rw [hstep] at hrun
          cases next with
          | inr result =>
              obtain rfl := Except.ok.inj (Option.some.inj hrun)
              refine ⟨ve, ends_result ?_, .inr ⟨rfl, rfl⟩⟩
              rw [Mio.maskLineVe, hstep]
          | inl mp₁ =>
              have hstepVe : Mio.maskLineVe (mp, ve) = .ok (.inl (mp₁, mp₁.lineEnd)) := by
                rw [Mio.maskLineVe, hstep]
              obtain ⟨ve', hends, hve⟩ := ih mp₁.lineEnd hrun
              refine ⟨ve', (ends_next hstepVe).mpr hends, .inl fun hagain => ?_⟩
              rcases hve with hve | ⟨hlast, rfl⟩
              · exact hve hagain
              · subst hagain
                rw [(maskLine_again hlast).1]

theorem start_fields (h : mp.start = .ok mp') (hactive : mp.active = false) :
    mp'.im = mp.im ∧ mp'.lineio = mp.lineio ∧ mp'.rli = rlFirst := by
  rw [Mio.start, if_neg (by rw [hactive]; exact Bool.false_ne_true)] at h
  obtain ⟨mp₁, hglri, hmp₁⟩ := bind_eq_ok.1 h
  obtain ⟨rl, -, hrl⟩ := bind_eq_ok.1 hglri
  rw [← Except.ok.inj hmp₁, ← Except.ok.inj hrl]
  exact ⟨rfl, rfl, rfl⟩

/-! ## The lines of a region -/

theorem nodup_range (a b : Int) : (Int.range a b).Nodup :=
  (List.nodup_range).map fun i j hij => by omega

theorem nodup_box (vs ve : List Int) : (box vs ve).Nodup := by
  induction vs generalizing ve with
  | nil => exact List.nodup_singleton []
  | cons s vs ih =>
      cases ve with
      | nil => exact List.nodup_singleton []
      | cons e ve =>
          rw [box, List.nodup_flatMap]
          constructor
          · exact fun v _ => (nodup_range s (e + 1)).map fun x y hxy => (List.cons.inj hxy).1
          · refine (ih ve).imp fun {u v} hne => ?_
            rintro p hu hv
            obtain ⟨x, -, rfl⟩ := List.mem_map.1 hu
            obtain ⟨y, -, hy⟩ := List.mem_map.1 hv
            exact hne (List.cons.inj hy).2.symm

theorem nodup_sectLines (naxes : Nat) (v1 v2 : List Int) (ndim : Nat) :
    (sectLines naxes v1 v2 ndim).Nodup :=
  (nodup_box _ _).map fun _ _ huv => (List.cons.inj huv).2

/-! ## Segments that are put -/

/-- The pixels of ranges. -/
def Returned (l : List (List Int × RlElem)) (p : List Int) : Prop :=
  p ∈ l.flatMap fun a => a.2.positions.map (· :: a.1.tail)

/-- The rows of the lines of ranges. -/
def Opened (v1 v2 : List Int) (ndim : Nat) (l : List (List Int × RlElem)) (p : List Int) : Prop :=
  ∃ a ∈ l, InRow v1 v2 ndim a.1 p

section Region

variable {m : Mask} {axlen v1 v2 : List Int} {rows : List (List Int)} {ndim : Nat} {reg : Bool}
  {K : Px → Prop} {data base : List Int → Px} {all returned : List (List Int × RlElem)}
  {w u : List Int} {q : List RlElem} {r : RlElem} {later : List (List Int)}
  {R R' O O' : List Int → Prop} {im : OutImage Px}

theorem returned_concat (p : List Int) :
    Returned (returned ++ [(w, r)]) p ↔
      Returned returned p ∨ p ∈ (Int.range r.x (r.x + r.n)).map (· :: w.tail) := by
  rw [Returned, List.flatMap_append, List.mem_append, List.flatMap_singleton]
  rfl

theorem opened_concat (p : List Int) :
    Opened v1 v2 ndim (returned ++ [(w, r)]) p ↔
      Opened v1 v2 ndim returned p ∨ InRow v1 v2 ndim w p := by
  constructor
  · rintro ⟨a, ha, hp⟩
    rcases List.mem_append.1 ha with hmem | hmem
    · exact .inl ⟨a, hmem, hp⟩
    · obtain rfl := List.mem_singleton.1 hmem
      exact .inr hp
  · rintro (⟨a, ha, hp⟩ | hp)
    · exact ⟨a, List.mem_append_left _ ha, hp⟩
    · exact ⟨(w, r), List.mem_append_right _ (List.mem_singleton_self _), hp⟩

theorem Output.congr (h : Output axlen K data base R O im) (hR : ∀ p, R' p ↔ R p)
    (hO : ∀ p, O' p ↔ O p) : Output axlen K data base R' O' im := by
  obtain ⟨hlen, im₁, hfls, hpixel⟩ := h
  refine ⟨hlen, im₁, hfls, fun p => ?_⟩
  rw [hR, hO]
  exact hpixel p

theorem Row.eq_of_tail (hax : Axes axlen) (hw : Row axlen.length v1 v2 ndim w)
    (hu : Row axlen.length v1 v2 ndim u) (htail : u.tail = w.tail) : u = w := by
  have hlen := hax.1
  obtain ⟨x, t, rfl⟩ := List.exists_cons_of_length_pos (hw.length ▸ hlen)
  obtain ⟨y, t', rfl⟩ := List.exists_cons_of_length_pos (hu.length ▸ hlen)
  exact congrArg₂ List.cons (hu.first.trans hw.first.symm) htail

/-- The descriptor puts a region: some ranges have been returned, and the others are left.
At the first range of a line there is no buffer for it yet. -/
structure Mio.Putting (m : Mask) (axlen v1 v2 : List Int) (ndim : Nat) (reg : Bool)
    (K : Px → Prop) (data base : List Int → Px) (all returned : List (List Int × RlElem))
    (mp : Mio (OutImage Px)) (w : List Int) (q : List RlElem) (later : List (List Int)) :
    Prop where
  stands : mp.At (lengthsOnly _ axlen) (fun _ => ()) m axlen v1 v2 ndim reg w q later
  split : all = returned ++ pending m axlen v1 v2 ndim w q later
  output : Output axlen K data base (Returned returned) (Opened v1 v2 ndim returned) mp.im
  apart : (w :: later).Nodup
  before : ∀ a ∈ returned, a.1 ∉ later ∧ Row axlen.length v1 v2 ndim a.1
  place : (mp.rli = rlFirst ∧ (q ≠ [] → ∀ a ∈ returned, a.1 ≠ w)) ∨
    (rlFirst < mp.rli ∧ (q ≠ [] → mp.im.Holds axlen v1 v2 ndim w ∧ mp.lbp = mp.im.bufptr ∧
      ∃ a ∈ returned, a.1 = w))

theorem Mio.At.withIm (h : mp.At (lengthsOnly _ axlen) (fun _ => ()) m axlen v1 v2 ndim reg w q
    later) (im : OutImage Px) (lbp : Int) :
    Mio.At (lengthsOnly _ axlen) (fun _ => ()) m axlen v1 v2 ndim reg
      { mp with im := im, lbp := lbp } w q later :=
  ⟨h.region.reads _ _ _ _ _, ⟨h.queue.parts⟩, h.vector, h.rows, h.onLine, h.current,
    fun _ _ _ _ _ => rfl⟩

variable (hax : Axes axlen) (hlo : 1 ≤ ndim) (hhi : ndim ≤ axlen.length)
include hlo hhi

/-- Whichever procedure is called, it gives a buffer for the row of the current line. -/
theorem Mio.At.writeLine (h : mp.At (lengthsOnly _ axlen) (fun _ => ()) m axlen v1 v2 ndim reg w q
    later) (hlen : mp.im.len = axlen)
    (hve : (mp.lineio = true ∧ (ndim = 2 ∨ ndim = 3)) ∨ ve = mp.lineEnd) :
    ∃ vs ve', mp.writeLine imgobf ve = mp.im.impgs imgobf vs ve' ndim ∧
      (word vs 1 = (sectAxis v1 v2 ndim 1).1 ∧
        word ve' 1 = (sectAxis v1 v2 ndim 1).1 + (sectAxis v1 v2 ndim 1).2 - 1) ∧
      ∀ i : Nat, 2 ≤ i → i ≤ ndim → word vs i = word w i ∧ word ve' i = word w i := by
  have hrow := h.rows w List.mem_cons_self
  have hlength := hrow.length
  obtain ⟨rest, hv, -⟩ := h.vector
  have hcoord : ∀ i : Nat, 1 ≤ i → i ≤ axlen.length → word mp.v i = word w i := by
    intro i hi hi'
    rw [hv, word_append hi (by omega)]
  rw [Mio.writeLine, h.region.dims]
  by_cases htwo : mp.lineio = true ∧ ndim = 2
  · obtain ⟨hline, rfl⟩ := htwo
    obtain ⟨hstart, hwhole⟩ := h.region.lineio hline
    refine ⟨[1, word mp.v 2], [word mp.im.len 1, word mp.v 2], if_pos ⟨hline, rfl⟩,
      ⟨hstart.symm, ?_⟩, fun i hi hi' => ?_⟩
    · rw [hstart, hwhole, hlen]
      exact (add_sub_cancel_left 1 (word axlen 1)).symm
    · obtain rfl : i = 2 := by omega
      exact ⟨hcoord 2 (by omega) hhi, hcoord 2 (by omega) hhi⟩
  · rw [if_neg htwo]
    by_cases hthree : mp.lineio = true ∧ ndim = 3
    · obtain ⟨hline, rfl⟩ := hthree
      obtain ⟨hstart, hwhole⟩ := h.region.lineio hline
      refine ⟨[1, word mp.v 2, word mp.v 3], [word mp.im.len 1, word mp.v 2, word mp.v 3],
        if_pos ⟨hline, rfl⟩, ⟨hstart.symm, ?_⟩, fun i hi hi' => ?_⟩
      · rw [hstart, hwhole, hlen]
        exact (add_sub_cancel_left 1 (word axlen 1)).symm
      · obtain rfl | rfl : i = 2 ∨ i = 3 := by omega
        · exact ⟨hcoord 2 (by omega) (by omega), hcoord 2 (by omega) (by omega)⟩
        · exact ⟨hcoord 3 (by omega) hhi, hcoord 3 (by omega) hhi⟩
    · have hend : ve = mp.lineEnd := by
        refine hve.resolve_left ?_
        rintro ⟨hline, hdims | hdims⟩
        · exact htwo ⟨hline, hdims⟩
        · exact hthree ⟨hline, hdims⟩
      rw [if_neg hthree, hend, h.region.lineEnd, hv]
      refine ⟨_, _, rfl, ⟨?_, word_lineEnd_one rest hlo hhi hrow⟩, fun i hi hi' => ⟨?_, ?_⟩⟩
      · have htake := @word_take (w ++ rest) 1 ndim (Nat.le_refl 1) hlo
        have happend := @word_append w rest 1 (Nat.le_refl 1) (by omega)
        rw [Nat.cast_one] at htake happend
        rw [htake, happend, hrow.first]
      · rw [word_take (by omega) hi', word_append (by omega) (by omega)]
      · rw [word_lineEnd rest hlo hhi hrow hi hi']

include hax

variable (hm : m.Draws axlen rows) (hpx : ∀ line ∈ rows, ∀ p ∈ line, 0 ≤ p)
  (hlen : word axlen 1 ≤ arb) (hv1 : InMask axlen v1 ndim) (hv2 : InMask axlen v2 ndim)
include hv1 hv2

theorem Mio.At.outputLine (h : mp.At (lengthsOnly _ axlen) (fun _ => ()) m axlen v1 v2 ndim reg w
    (r :: q) later) (hfirst : mp.rli = rlFirst) (hout : Output axlen K data base R O mp.im)
    (hve : (mp.lineio = true ∧ (ndim = 2 ∨ ndim = 3)) ∨ ve = mp.lineEnd)
    (hK : ∀ im vs ve n a, K ((imgobf im vs ve n).1 a))
    (hfresh : ∀ p, InRow v1 v2 ndim w p → ¬R p) :
    ∃ im₂, mp.outputLine imgobf ve = .ok { mp with im := im₂, lbp := im₂.bufptr } ∧
      im₂.Holds axlen v1 v2 ndim w ∧
      Output axlen K data base R (fun p => O p ∨ InRow v1 v2 ndim w p) im₂ := by
  have hrow := h.rows w List.mem_cons_self
  obtain ⟨hon, -⟩ := h.current (List.cons_ne_nil r q)
  obtain ⟨himlen, im₁, hfls, hpixel⟩ := hout
  obtain ⟨vs, ve', hwrite, hends, hrest⟩ := h.writeLine hlo hhi himlen hve
  rw [OutImage.impgs_eq imgobf hfls] at hwrite
  have hheld : OutImage.Holds axlen v1 v2 ndim w { im₁ with
      mem := (imgobf im₁ vs ve' ndim).1, bufptr := (imgobf im₁ vs ve' ndim).2,
      vs := vs, ve := ve', ndim := ndim, flush := true } :=
    ⟨⟨rfl, hends, hrest⟩, rfl, (OutImage.imfls_len hfls).trans himlen⟩
  refine ⟨_, ?_, hheld, ?_⟩
  · rw [Mio.outputLine, if_pos hfirst, hwrite]
    rfl
  · exact Output.opened hax hv1 hv2 hlo hhi hheld hrow hon
      (fun a => hK im₁ vs ve' ndim a) hfresh hpixel

omit hhi hlo hax hv1 hv2 in
theorem Mio.Putting.lines_sub (h : mp.Putting m axlen v1 v2 ndim reg K data base all returned w q
    later) {skipped later' : List (List Int)} (hsplit : w :: later = skipped ++ u :: later') :
    (u :: later').Nodup ∧ ∀ a ∈ returned, a.1 ∉ later' ∧ Row axlen.length v1 v2 ndim a.1 := by
  have hapart := h.apart
  rw [hsplit] at hapart
  have hsuffix := (List.nodup_append.1 hapart).2.1
  refine ⟨hsuffix, fun a ha => ⟨fun hmem => ?_, (h.before a ha).2⟩⟩
  cases skipped with
  | nil =>
      obtain ⟨-, rfl⟩ := List.cons.inj hsplit
      exact (h.before a ha).1 hmem
  | cons x skipped =>
      obtain ⟨-, rfl⟩ := List.cons.inj hsplit
      exact (h.before a ha).1 (List.mem_append_right _ (List.mem_cons_of_mem _ hmem))

include hm hpx hlen

theorem Mio.Putting.advance (h : mp.Putting m axlen v1 v2 ndim reg K data base all returned w q
    later) (hready : mp.rli = rlFirst → q ≠ [] → mp.lineio = true ∧ (ndim = 2 ∨ ndim = 3))
    {a : List Int × RlElem} {rest : List (List Int × RlElem)}
    (hpend : pending m axlen v1 v2 ndim w q later = a :: rest) (ve : List Int) :
    ∃ mp' ve' q' later', Ends Mio.maskLineVe (mp, ve) (.ok ((mp', ve'), .again)) ∧
      mp'.Putting m axlen v1 v2 ndim reg K data base all returned a.1 (a.2 :: q') later' ∧
      pending m axlen v1 v2 ndim a.1 q' later' = rest ∧
      (mp'.rli = rlFirst → (mp'.lineio = true ∧ (ndim = 2 ∨ ndim = 3)) ∨ ve' = mp'.lineEnd) := by
  rcases h.stands.maskLine hax hm hpx hlen hv1 hv2 hlo hhi with
    ⟨mp', w', r, q', later', hends, hat, hsame, hmoved⟩ | ⟨hnone, -⟩
  · obtain ⟨ve', hendsVe, hve⟩ := ends_maskLineVe hends ve
    have hsplit := h.split
    rw [hsame] at hpend hsplit
    obtain ⟨rfl, hrest⟩ := List.cons.inj hpend
    refine ⟨mp', ve', q', later', hendsVe, ?_, hrest, ?_⟩
    · rcases hmoved with ⟨rfl, rfl, rfl, rfl⟩ | ⟨rfl, hrli, him, skipped, rfl⟩
      · exact h
      · have hlines : w :: (skipped ++ w' :: later') = (w :: skipped) ++ w' :: later' := rfl
        obtain ⟨hapart, hbefore⟩ := h.lines_sub hlines
        refine ⟨hat, hsplit, him ▸ h.output, hapart, hbefore, .inl ⟨hrli, fun _ b hb hb' => ?_⟩⟩
        exact (h.before b hb).1 (hb' ▸ List.mem_append_right _ List.mem_cons_self)
    · intro hrli
      rcases hve with hve | ⟨hlast, rfl⟩
      · exact .inr (hve rfl)
      · obtain ⟨rfl, hmore⟩ := maskLine_again hlast
        rcases hmoved with ⟨-, rfl, rfl, rfl⟩ | ⟨hnil, -⟩
        · exact .inl (hready hrli (List.cons_ne_nil _ _))
        · exact absurd (h.stands.queue.more.2 hnil) hmore
  · rw [hnone] at hpend
    cases hpend

omit hm hpx hlen in
theorem Mio.Putting.outputLine (h : mp.Putting m axlen v1 v2 ndim reg K data base all returned w
    (r :: q) later)
    (hve : mp.rli = rlFirst → (mp.lineio = true ∧ (ndim = 2 ∨ ndim = 3)) ∨ ve = mp.lineEnd)
    (hK : ∀ im vs ve n a, K ((imgobf im vs ve n).1 a)) :
    ∃ im₂, mp.outputLine imgobf ve = .ok { mp with im := im₂, lbp := im₂.bufptr } ∧
      im₂.Holds axlen v1 v2 ndim w ∧
      Output axlen K data base (Returned returned)
        (fun p => Opened v1 v2 ndim returned p ∨ InRow v1 v2 ndim w p) im₂ := by
  have hrow := h.stands.rows w List.mem_cons_self
  rcases h.place with ⟨hfirst, hfresh⟩ | ⟨hgoing, hheld⟩
  · refine h.stands.outputLine hax hlo hhi hv1 hv2 hfirst h.output (hve hfirst) hK ?_
    intro p hp hreturned
    obtain ⟨a, ha, hmem⟩ := List.mem_flatMap.1 hreturned
    obtain ⟨x, -, rfl⟩ := List.mem_map.1 hmem
    have htail : a.1.tail = w.tail := hp.1.2
    exact hfresh (List.cons_ne_nil _ _) a ha
      (Row.eq_of_tail hax hrow (h.before a ha).2 htail)
  · obtain ⟨hheld, hbuffer, a, ha, rfl⟩ := hheld (List.cons_ne_nil _ _)
    refine ⟨mp.im, ?_, hheld, h.output.congr (fun _ => Iff.rfl) fun p => ?_⟩
    · rw [Mio.outputLine, if_neg hgoing.ne', ← hbuffer]
    · exact or_iff_left_of_imp fun hp => ⟨a, ha, hp⟩

theorem Mio.Putting.next (h : mp.Putting m axlen v1 v2 ndim reg K data base all returned w q
    later) (hready : mp.rli = rlFirst → q ≠ [] → mp.lineio = true ∧ (ndim = 2 ∨ ndim = 3))
    (hK : ∀ im vs ve n a, K ((imgobf im vs ve n).1 a))
    {a : List Int × RlElem} {rest : List (List Int × RlElem)}
    (hpend : pending m axlen v1 v2 ndim w q later = a :: rest) (ve : List Int) :
    ∃ r mp' s, Ends Mio.maskLineVe (mp, ve) (.ok r) ∧
      Mio.finishPut imgobf r = .ok (mp', some s) ∧
      mp'.im.OfLine v1 v2 ndim (s.first axlen.length v1 v2 ndim reg) ∧ rlFirst < mp'.rli ∧
      ∃ q' later', pending m axlen v1 v2 ndim a.1 q' later' = rest ∧
        (mp'.stored s data (s.first axlen.length v1 v2 ndim reg)).Putting m axlen v1 v2 ndim reg K
          data base all (returned ++ [a]) a.1 q' later' := by
  obtain ⟨mp₁, ve', q', later', hends, hput, hrest, hve⟩ :=
    h.advance hax hlo hhi hm hpx hlen hv1 hv2 hready hpend ve
  obtain ⟨im₂, hout, hheld, houtput⟩ := hput.outputLine hax hlo hhi hv1 hv2 hve hK
  obtain ⟨mp₂, hmp₂⟩ : ∃ mp₂ : Mio (OutImage Px),
      mp₂ = { mp₁ with im := im₂, lbp := im₂.bufptr } := ⟨_, rfl⟩
  have hat : mp₂.At (lengthsOnly _ axlen) (fun _ => ()) m axlen v1 v2 ndim reg a.1 (a.2 :: q')
      later' := hmp₂ ▸ hput.stands.withIm im₂ im₂.bufptr
  have him : mp₂.im = im₂ := hmp₂ ▸ rfl
  have hlbp : mp₂.lbp = im₂.bufptr := hmp₂ ▸ rfl
  have hrow := hat.rows a.1 List.mem_cons_self
  obtain ⟨hon, hmem⟩ := hat.current (List.cons_ne_nil _ _)
  obtain ⟨-, hranges, -, -⟩ := lineRanges_spec hax hm hv1 hv2 hpx hrow.length hon
  obtain ⟨hrlo, -, hrhi⟩ := hranges.bounds a.2 (hmem a.2 List.mem_cons_self)
  have hvs := hat.region.word_vs (Nat.le_refl 1) hlo
  rw [Nat.cast_one] at hvs
  have hhead := hat.queue.head
  obtain ⟨restv, hv, -⟩ := hat.vector
  have hfirst := first_nextSegment hlo hhi hat.region hv hrow
  rw [hhead] at hfirst
  have hbeyond : rlFirst < mp₂.rli + 1 := by
    have hrli : mp₂.rli = mp₁.rli := hmp₂ ▸ rfl
    rcases hput.place with ⟨hplace, -⟩ | ⟨hplace, -⟩ <;> omega
  have hstored : (mp₂.nextSegment.1.stored mp₂.nextSegment.2 data
      (mp₂.nextSegment.2.first axlen.length v1 v2 ndim reg)).im =
        im₂.store (im₂.bufptr + a.2.x - (sectAxis v1 v2 ndim 1).1) a.2.n
          fun k => data ((a.2.x + k) :: a.1.tail) := by
    rw [hfirst]
    unfold Mio.stored Mio.nextSegment
    dsimp only
    rw [him, hlbp, hhead, hvs]
    rfl
  refine ⟨_, mp₂.nextSegment.1, mp₂.nextSegment.2, hends, ?_, ?_, hbeyond, q', later', hrest, ?_⟩
  · rw [Mio.finishPut, hout, hmp₂]
    rfl
  · rw [hfirst]
    refine ⟨him ▸ hheld.dims, him ▸ hheld.first, fun i hi hi' => ?_⟩
    obtain ⟨j, rfl⟩ : ∃ j, i = j + 1 := ⟨i - 1, by omega⟩
    have hlength := hrow.length
    obtain ⟨x, t, hcons⟩ := List.exists_cons_of_length_pos (show 0 < a.1.length by omega)
    have hcoord : word (a.2.x :: a.1.tail) (j + 1 : Nat) = word a.1 (j + 1 : Nat) := by
      rw [hcons, word_cons_succ _ _ (by omega), word_cons_succ _ _ (by omega)]
      rfl
    rw [hcoord]
    exact him ▸ hheld.rest (j + 1) hi hi'
  · constructor
    · exact (hat.nextSegment fun _ _ _ => rfl).withIm _ _
    · rw [List.append_assoc]
      exact hput.split
    · rw [hstored]
      exact (houtput.stored hax hv1 hv2 hlo hhi hheld hrow hon hrlo (by omega)).congr
        (fun p => returned_concat p) fun p => opened_concat p
    · exact hput.apart
    · intro b hb
      rcases List.mem_append.1 hb with hold | hnew
      · exact hput.before b hold
      · obtain rfl := List.mem_singleton.1 hnew
        exact ⟨(List.nodup_cons.1 hput.apart).1, hrow⟩
    · refine .inr ⟨hbeyond, fun _ => ?_⟩
      rw [hstored]
      refine ⟨⟨⟨hheld.dims, hheld.first, hheld.rest⟩, hheld.flush, hheld.len⟩, hlbp, a, ?_, rfl⟩
      exact List.mem_append_right _ List.mem_cons_self

theorem Mio.Putting.stop (h : mp.Putting m axlen v1 v2 ndim reg K data base all returned w q
    later) (hpend : pending m axlen v1 v2 ndim w q later = []) (imgobf : Allocate Px)
    (ve : List Int) :
    ∃ r mp', Ends Mio.maskLineVe (mp, ve) (.ok r) ∧ Mio.finishPut imgobf r = .ok (mp', none) ∧
      Output axlen K data base (Returned all) (Opened v1 v2 ndim all) mp'.im := by
  have hsplit := h.split
  rw [hpend, List.append_nil] at hsplit
  rcases h.stands.maskLine hax hm hpx hlen hv1 hv2 hlo hhi with
    ⟨mp₁, w', r, q', later', -, -, hsame, -⟩ | ⟨-, mp', hends, -, -, him, -⟩
  · rw [hpend] at hsame
    cases hsame
  · obtain ⟨ve', hendsVe, -⟩ := ends_maskLineVe hends ve
    refine ⟨_, mp', hendsVe, rfl, ?_⟩
    rw [him, hsplit]
    exact h.output

/-! ## The calls up to EOF -/

omit hax hlo hhi hv1 hv2 hm hpx hlen in
theorem lengthsOnly_reads (axlen : List Int) :
    (lengthsOnly (OutImage Px) axlen).Reads axlen fun _ => () where
  len := rfl
  imgl2 s _ _ _ _ := ⟨s, 0, rfl, fun _ _ _ => rfl⟩
  imgl3 s _ _ _ _ _ _ _ := ⟨s, 0, rfl, fun _ _ _ => rfl⟩
  imggs s _ _ _ _ _ _ _ _ _ _ := ⟨s, 0, rfl, fun _ _ _ => rfl⟩

variable (m ndim) in
/-- The ranges of the lines of a region. -/
abbrev regionRanges (axlen v1 v2 : List Int) : List (List Int × RlElem) :=
  (sectLines axlen.length v1 v2 ndim).flatMap fun u => (lineRanges m axlen v1 v2 ndim u).map (u, ·)

omit hlen hlo hhi in
theorem lineRanges_masked (hw : w ∈ sectLines axlen.length v1 v2 ndim)
    (hr : r ∈ lineRanges m axlen v1 v2 ndim w) :
    r.x :: w.tail ∈ sectPixels axlen.length v1 v2 ndim ∧
      maskPixel axlen rows (r.x :: w.tail) ≠ 0 := by
  have hpixels := lineRanges_pixels hax hm hpx hv1 hv2 (Row.of_sectLines hax.1 hw).length
    (onLine_sectLines hax hv1 hv2 hw)
  obtain ⟨-, hranges, -, -⟩ := lineRanges_spec hax hm hv1 hv2 hpx
    (Row.of_sectLines hax.1 hw).length (onLine_sectLines hax hv1 hv2 hw)
  obtain ⟨-, hn, -⟩ := hranges.bounds r hr
  have hmem : r.x :: w.tail ∈ (lineRanges m axlen v1 v2 ndim w).flatMap
      fun r => r.positions.map (· :: w.tail) :=
    List.mem_flatMap.2 ⟨r, hr, List.mem_map_of_mem (Int.mem_range_iff.2 ⟨le_rfl, by omega⟩)⟩
  rw [hpixels, List.mem_filter] at hmem
  refine ⟨?_, of_decide_eq_true hmem.2⟩
  rw [sectPixels_lines hax.1]
  exact List.mem_flatMap.2 ⟨w, hw, hmem.1⟩

omit hlen hlo hhi hax hm hpx hv1 hv2 in
theorem sectLines_first (hlines : sectLines axlen.length v1 v2 ndim = w :: later) {i : Nat}
    (hi : 2 ≤ i) (hi' : i ≤ axlen.length) : word w i = (sectAxis v1 v2 ndim i).1 := by
  obtain ⟨l, hl⟩ := box_cons (@sect_forall₂ v1 v2 ndim (axlen.length - 1))
  rw [sectLines, hl, List.map_cons] at hlines
  obtain ⟨j, rfl⟩ : ∃ j, i = j + 1 := ⟨i - 1, by omega⟩
  rw [← (List.cons.inj hlines).1, word_cons_succ _ _ (by omega),
    word_map_range _ (by omega) (by omega)]
  congr 2
  omega

omit hlen hlo hhi in
theorem firstEmpty_iff (hlines : sectLines axlen.length v1 v2 ndim = w :: later) :
    FirstEmpty axlen rows v1 v2 ndim ↔ lineRanges m axlen v1 v2 ndim w = [] := by
  have hw : w ∈ sectLines axlen.length v1 v2 ndim := hlines ▸ List.mem_cons_self
  have hrow := Row.of_sectLines hax.1 hw
  have hlength := hrow.length
  obtain ⟨y, t, rfl⟩ := List.exists_cons_of_length_pos (hlength ▸ hax.1)
  constructor
  · intro hempty
    apply List.eq_nil_iff_forall_not_mem.2
    intro r hr
    obtain ⟨hin, hmasked⟩ := lineRanges_masked hax hm hpx hv1 hv2 hw hr
    refine hmasked (hempty _ hin fun i hi hi' => ?_)
    rw [← sectLines_first hlines hi hi']
    obtain ⟨j, rfl⟩ : ∃ j, i = j + 1 := ⟨i - 1, by omega⟩
    rw [word_cons_succ _ _ (by omega), word_cons_succ _ _ (by omega)]
    rfl
  · intro hnone p hp hplace
    by_contra hmasked
    obtain ⟨hplength, hin⟩ := mem_sectPixels.1 hp
    obtain ⟨x, t', rfl⟩ := List.exists_cons_of_length_pos (hplength ▸ hax.1)
    have htail : t' = t := by
      apply List.ext_getElem
      · rw [List.length_cons] at hplength hlength
        omega
      · intro k hk hk'
        rw [List.length_cons] at hplength
        have hsame := (hplace (k + 2) (by omega) (by omega)).trans
          (sectLines_first hlines (by omega) (by omega)).symm
        rw [word_cons_succ _ _ (by omega), word_cons_succ _ _ (by omega),
          word_eq_getElem (by omega) (by omega), word_eq_getElem (by omega) (by omega)] at hsame
        exact hsame
    have hpixels := lineRanges_pixels hax hm hpx hv1 hv2 hlength (onLine_sectLines hax hv1 hv2 hw)
    rw [hnone, List.flatMap_nil] at hpixels
    have hcolumn := (inSection_iff.1 hin) 1 le_rfl hax.1
    rw [Nat.cast_one] at hcolumn
    have hmem : x :: t' ∈ ((Int.range (sectAxis v1 v2 ndim 1).1 ((sectAxis v1 v2 ndim 1).1 +
        (sectAxis v1 v2 ndim 1).2)).map (· :: (y :: t).tail)).filter
          fun p => maskPixel axlen rows p ≠ 0 := by
      refine List.mem_filter.2 ⟨?_, decide_eq_true hmasked⟩
      rw [htail]
      have hword : word (x :: t') 1 = x := rfl
      rw [hword] at hcolumn
      exact List.mem_map_of_mem (Int.mem_range_iff.2 ⟨hcolumn.1, by omega⟩)
    rw [← hpixels] at hmem
    exact List.not_mem_nil hmem

variable (reg) in
omit hlen in
theorem mioSetrange_putting (hpm : mp.pm = m) (himlen : mp.im.len = axlen)
    (hbefore : mp.im.imfls = .ok im) (K : Px → Prop) (data : List Int → Px)
    (hfirst : LineOutput axlen v1 v2 ndim ∨ FirstEmpty axlen rows v1 v2 ndim) :
    ∃ mp' w q later,
      ((mioSetrange (lengthsOnly _ axlen) mp v1 v2 ndim).setRegcoords reg).start = .ok mp' ∧
      mp'.Putting m axlen v1 v2 ndim reg K data im.pixel (regionRanges m ndim axlen v1 v2) []
        w q later ∧
      (mp'.rli = rlFirst → q ≠ [] → mp'.lineio = true ∧ (ndim = 2 ∨ ndim = 3)) := by
  obtain ⟨mp', w, later, hstart, hat, hlines⟩ :=
    mioSetrange_start reg hax hm hpx hv1 hv2 hlo hhi (lengthsOnly_reads axlen) hpm
  obtain ⟨him, hlineio, hrli⟩ := start_fields hstart rfl
  have him' : mp'.im = mp.im := him
  refine ⟨mp', w, _, later, hstart, ⟨hat, ?_, ?_, ?_, ?_, ?_⟩, ?_⟩
  · rw [regionRanges, hlines]
    rfl
  · rw [him']
    refine ⟨himlen, im, hbefore, fun p => ⟨fun hp => absurd hp List.not_mem_nil, ?_, ?_⟩⟩
    · rintro - ⟨a, ha, -⟩
      exact absurd ha List.not_mem_nil
    · exact fun _ _ => rfl
  · exact hlines ▸ nodup_sectLines _ _ _ _
  · exact fun a ha => absurd ha List.not_mem_nil
  · exact .inl ⟨hrli, fun _ a ha => absurd ha List.not_mem_nil⟩
  · intro _ hne
    rcases hfirst with hline | hempty
    · exact ⟨hlineio.trans (decide_eq_true hline.1), hline.2⟩
    · exact absurd ((firstEmpty_iff hax hm hpx hv1 hv2 hlines).1 hempty) hne

variable (imgobf reg) in
theorem mioPlseg_segments (hpm : mp.pm = m) (himlen : mp.im.len = axlen)
    (hbefore : mp.im.imfls = .ok im)
    (hfirst : LineOutput axlen v1 v2 ndim ∨ FirstEmpty axlen rows v1 v2 ndim)
    (ve : Mio (OutImage Px) → List Int) (data : List Int → Px)
    (hK : ∀ im vs ve n a, K ((imgobf im vs ve n).1 a)) :
    ∃ out last, Delivers
        (Puts imgobf ve data fun s => s.first axlen.length v1 v2 ndim reg)
        ((mioSetrange (lengthsOnly _ axlen) mp v1 v2 ndim).setRegcoords reg) out last ∧
      (∀ o ∈ out, o.1.im.OfLine v1 v2 ndim (o.2.first axlen.length v1 v2 ndim reg)) ∧
      Output axlen K data im.pixel (Returned (regionRanges m ndim axlen v1 v2))
        (Opened v1 v2 ndim (regionRanges m ndim axlen v1 v2)) last.im := by
  obtain ⟨mp₀, w₀, q₀, later₀, hstart₀, hput₀, hready₀⟩ :=
    mioSetrange_putting reg hax hlo hhi hm hpx hv1 hv2 hpm himlen hbefore K data hfirst
  have hrun := Delivers.of_pending
    (Puts imgobf ve data fun s => s.first axlen.length v1 v2 ndim reg)
    (I := fun s l => ∃ s' returned w q later, s.start = .ok s' ∧
      s'.Putting m axlen v1 v2 ndim reg K data im.pixel (regionRanges m ndim axlen v1 v2)
        returned w q later ∧
      (s'.rli = rlFirst → q ≠ [] → s'.lineio = true ∧ (ndim = 2 ∨ ndim = 3)) ∧
      pending m axlen v1 v2 ndim w q later = l)
    (J := fun s => Output axlen K data im.pixel (Returned (regionRanges m ndim axlen v1 v2))
        (Opened v1 v2 ndim (regionRanges m ndim axlen v1 v2)) s.im)
    (R := fun o _ => o.1.im.OfLine v1 v2 ndim (o.2.first axlen.length v1 v2 ndim reg) ∧ True)
    ?_ ?_ ⟨mp₀, [], w₀, q₀, later₀, hstart₀, hput₀, hready₀, rfl⟩
  · obtain ⟨out, last, hdelivers, hright, hlast⟩ := hrun
    exact ⟨out, last, hdelivers, ((List.forall₂_and_left out _).1 hright).1, hlast⟩
  · rintro s a l ⟨s', returned, w, q, later, hstart, hput, hready, hpend⟩
    obtain ⟨r, mp', seg, hends, hfinish, hline, hbeyond, q', later', hrest, hput'⟩ :=
      hput.next hax hlo hhi hm hpx hlen hv1 hv2 hready hK hpend (ve s)
    obtain ⟨fuel, hcall⟩ := (mioPlseg_iff hstart).2 ⟨r, hends, hfinish⟩
    refine ⟨_, seg, ⟨fuel, mp', some seg, hcall, rfl⟩, ⟨?_, trivial⟩, _, _, _, _, _, ?_, hput', ?_,
      hrest⟩
    · exact ⟨hline.dims, hline.first, hline.rest⟩
    · exact if_pos hput'.stands.region.active
    · intro hrli
      exact absurd hrli hbeyond.ne'
  · rintro s ⟨s', returned, w, q, later, hstart, hput, -, hpend⟩
    obtain ⟨r, mp', hends, hfinish, hout⟩ :=
      hput.stop hax hlo hhi hm hpx hlen hv1 hv2 hpend imgobf (ve s)
    obtain ⟨fuel, hcall⟩ := (mioPlseg_iff hstart).2 ⟨r, hends, hfinish⟩
    exact ⟨mp', ⟨fuel, mp', none, hcall, rfl⟩, hout⟩

omit hlen hlo hhi in
theorem returned_regionRanges (p : List Int) :
    Returned (regionRanges m ndim axlen v1 v2) p ↔
      p ∈ sectPixels axlen.length v1 v2 ndim ∧ maskPixel axlen rows p ≠ 0 := by
  rw [Returned, regionRanges, region_pixels hax hm hpx hv1 hv2, List.mem_filter, decide_eq_true_iff]

omit hlen hlo hhi in
theorem opened_regionRanges (p : List Int) :
    Opened v1 v2 ndim (regionRanges m ndim axlen v1 v2) p ↔
      p ∈ sectPixels axlen.length v1 v2 ndim ∧ ∃ q ∈ sectPixels axlen.length v1 v2 ndim,
        q.tail = p.tail ∧ maskPixel axlen rows q ≠ 0 := by
  constructor
  · rintro ⟨⟨w, r⟩, ha, hp⟩
    obtain ⟨u, hu, hmem⟩ := List.mem_flatMap.1 ha
    obtain ⟨r', hr, heq⟩ := List.mem_map.1 hmem
    obtain ⟨rfl, rfl⟩ := Prod.mk.inj heq
    obtain ⟨hin, hmasked⟩ := lineRanges_masked hax hm hpx hv1 hv2 hu hr
    refine ⟨?_, _, hin, ?_, hmasked⟩
    · rw [hp.eq_cons, sectPixels_lines hax.1]
      exact List.mem_flatMap.2 ⟨u, hu, List.mem_map_of_mem (Int.mem_range_iff.2 hp.2)⟩
    · exact hp.1.2.symm
  · rintro ⟨hp, q, hq, htail, hmasked⟩
    have hreturned := (returned_regionRanges hax hm hpx hv1 hv2 q).2 ⟨hq, hmasked⟩
    obtain ⟨a, ha, hmem⟩ := List.mem_flatMap.1 hreturned
    obtain ⟨x, -, rfl⟩ := List.mem_map.1 hmem
    rw [sectPixels_lines hax.1] at hp
    obtain ⟨u, -, hp⟩ := List.mem_flatMap.1 hp
    obtain ⟨y, hy, rfl⟩ := List.mem_map.1 hp
    have hline : a.1.tail = u.tail := htail
    refine ⟨a, ha, ⟨List.cons_ne_nil _ _, hline.symm⟩, Int.mem_range_iff.1 hy⟩

/-! ## The condition -/

theorem putsMasked_of_whole (hpm : mp.pm = m) (himlen : mp.im.len = axlen)
    (hbefore : mp.im.imfls = .ok im)
    (hfirst : LineOutput axlen v1 v2 ndim ∨ FirstEmpty axlen rows v1 v2 ndim)
    (hwhole : WholeLines axlen rows v1 v2 ndim) :
    PutsMasked axlen rows mp im.pixel v1 v2 ndim reg := by
  intro imgobf ve data
  obtain ⟨out, last, hdelivers, hline, -, im', hfls, hpixel⟩ :=
    mioPlseg_segments (K := fun _ => True) imgobf reg hax hlo hhi hm hpx hlen hv1 hv2 hpm himlen hbefore
      hfirst ve data fun _ _ _ _ _ => trivial
  refine ⟨out, last, im', hdelivers, hline, hfls, fun p => ?_⟩
  obtain ⟨hdata, -, hbase⟩ := hpixel p
  have hreturned := @returned_regionRanges m axlen v1 v2 rows ndim hax hm hpx hv1 hv2 p
  by_cases hp : p ∈ sectPixels axlen.length v1 v2 ndim ∧ maskPixel axlen rows p ≠ 0
  · rw [if_pos hp]
    exact hdata (hreturned.2 hp)
  · rw [if_neg hp]
    refine hbase (fun h => hp (hreturned.1 h)) fun hopened => hp ?_
    obtain ⟨hin, q, hq, htail, hmasked⟩ :=
      (opened_regionRanges hax hm hpx hv1 hv2 p).1 hopened
    exact ⟨hin, hwhole q hq p hin htail hmasked⟩

/-- A pixel that is not masked, in a line with one that is, gets what is in the buffer. -/
theorem PutsMasked.wholeLines [Nontrivial Px] (hpm : mp.pm = m) (himlen : mp.im.len = axlen)
    (hbefore : mp.im.imfls = .ok im)
    (hfirst : LineOutput axlen v1 v2 ndim ∨ FirstEmpty axlen rows v1 v2 ndim)
    (h : PutsMasked axlen rows mp im.pixel v1 v2 ndim reg) : WholeLines axlen rows v1 v2 ndim := by
  intro p hp q hq htail hmasked
  by_contra hblank
  obtain ⟨c, hc⟩ := exists_ne (im.pixel q)
  obtain ⟨out', last', im', hdelivers', -, hfls', hpixel'⟩ :=
    h (fun _ _ _ _ => (fun _ => c, 0)) (fun _ => []) im.pixel
  obtain ⟨out, last, hdelivers, -, -, im₁, hfls, hpixel⟩ :=
    mioPlseg_segments (K := (· = c)) (fun _ _ _ _ => (fun _ => c, 0)) reg hax hlo hhi hm hpx hlen
      hv1 hv2 hpm himlen hbefore hfirst (fun _ => []) im.pixel fun _ _ _ _ _ => rfl
  obtain ⟨-, rfl⟩ := hdelivers.unique (fun _ _ _ ha hb => ha.unique hb) hdelivers'
  obtain rfl := Except.ok.inj (hfls.symm.trans hfls')
  obtain ⟨-, hjunk, -⟩ := hpixel q
  have hsame := hpixel' q
  rw [if_neg fun hq' => hq'.2 hblank] at hsame
  refine hc ((hjunk (fun hret => ?_) ?_).symm.trans hsame)
  · exact ((returned_regionRanges hax hm hpx hv1 hv2 q).1 hret).2 hblank
  · exact (opened_regionRanges hax hm hpx hv1 hv2 q).2 ⟨hq, p, hp, htail, hmasked⟩

omit hlen in
/-- When the first line is not written by number, and is not empty, its section is what the
local vector has in it. -/
theorem PutsMasked.firstLine [Nonempty Px] (hpm : mp.pm = m)
    (h : PutsMasked axlen rows mp base v1 v2 ndim reg) :
    LineOutput axlen v1 v2 ndim ∨ FirstEmpty axlen rows v1 v2 ndim := by
  by_contra hneither
  obtain ⟨hline, hempty⟩ := not_or.1 hneither
  obtain ⟨mp', w, later, hstart, hat, hlines⟩ :=
    mioSetrange_start reg hax hm hpx hv1 hv2 hlo hhi (lengthsOnly_reads axlen) hpm
  obtain ⟨-, hlineio, hrli⟩ := start_fields hstart rfl
  have hne : lineRanges m axlen v1 v2 ndim w ≠ [] := fun hnil =>
    hempty ((firstEmpty_iff hax hm hpx hv1 hv2 hlines).2 hnil)
  have hstays : Ends Mio.maskLineVe (mp', []) (.ok ((mp', []), .again)) := by
    refine ends_result ?_
    rw [Mio.maskLineVe, Mio.maskLine, if_neg (mt hat.queue.more.1 hne)]
  have hwrite : ∀ imgobf, mp'.writeLine imgobf [] =
      mp'.im.impgs imgobf (mp'.v.take mp'.ndim) [] mp'.ndim := by
    intro imgobf
    have hnumber : ∀ n : Nat, n = 2 ∨ n = 3 → ¬(mp'.lineio ∧ mp'.ndim = n) := by
      rintro n hn ⟨hio, hdims⟩
      rw [hat.region.dims] at hdims
      refine hline ⟨of_decide_eq_true (hlineio.symm.trans hio), hdims ▸ hn⟩
    rw [Mio.writeLine, if_neg (hnumber 2 (.inl rfl)), if_neg (hnumber 3 (.inr rfl))]
  obtain ⟨c⟩ := ‹Nonempty Px›
  obtain ⟨out, last, im, hdelivers, hlines, -⟩ :=
    h (fun _ _ _ _ => (fun _ => c, 0)) (fun _ => []) fun _ => c
  have hcall : ∀ {o : Mio (OutImage Px) × Option Segment},
      (∃ fuel, mioPlseg (fun _ _ _ _ => (fun _ => c, 0)) []
        ((mioSetrange (lengthsOnly _ axlen) mp v1 v2 ndim).setRegcoords reg) fuel = .ok o) →
      o.2.isSome ∧ o.1.im.ve = [] := by
    intro o hok
    obtain ⟨r, hends, hfinish⟩ := (mioPlseg_iff hstart).1 hok
    obtain rfl := Except.ok.inj (hstays.unique hends)
    rw [Mio.finishPut, Mio.outputLine, if_pos hrli, hwrite, OutImage.impgs] at hfinish
    cases hfls : mp'.im.imfls with
    | error e =>
        rw [hfls] at hfinish
        cases hfinish
    | ok im₁ =>
        rw [hfls] at hfinish
        obtain rfl := Except.ok.inj hfinish
        exact ⟨rfl, rfl⟩
  cases hdelivers with
  | stop hstop =>
      obtain ⟨fuel, t, seg, hok, heq⟩ := hstop
      obtain ⟨-, rfl⟩ := Prod.mk.inj heq
      exact Bool.false_ne_true (hcall ⟨fuel, hok⟩).1
  | next hnext _ =>
      obtain ⟨fuel, t, seg, hok, heq⟩ := hnext
      obtain ⟨rfl, rfl⟩ := Prod.mk.inj heq
      have hend : word t.im.ve 1 =
          (sectAxis v1 v2 ndim 1).1 + (sectAxis v1 v2 ndim 1).2 - 1 :=
        (hlines _ List.mem_cons_self).first.2
      rw [(hcall ⟨fuel, hok⟩).2] at hend
      obtain ⟨hslo, hsize, -⟩ := sectAxis_bounds hax hv1 hv2 (Nat.le_refl 1) hax.1
      have hzero : word [] 1 = 0 := rfl
      omega

end Region

/-- The output touches the masked pixels only when the lines of the region are masked as a
whole or not at all, and the first line is written by number or is empty. -/
theorem putsMasked_iff [Nontrivial Px] {im : OutImage Px} {m : Mask} {axlen v1 v2 : List Int}
    {rows : List (List Int)} {ndim : Nat} {mp : Mio (OutImage Px)} (hax : Axes axlen)
    (hm : m.Draws axlen rows) (hpx : ∀ line ∈ rows, ∀ p ∈ line, 0 ≤ p)
    (hlen : word axlen 1 ≤ arb) (hv1 : InMask axlen v1 ndim) (hv2 : InMask axlen v2 ndim)
    (hlo : 1 ≤ ndim) (hhi : ndim ≤ axlen.length) (hpm : mp.pm = m) (himlen : mp.im.len = axlen)
    (hbefore : mp.im.imfls = .ok im) (reg : Bool) :
    PutsMasked axlen rows mp im.pixel v1 v2 ndim reg ↔
      WholeLines axlen rows v1 v2 ndim ∧
        (LineOutput axlen v1 v2 ndim ∨ FirstEmpty axlen rows v1 v2 ndim) := by
  constructor
  · intro h
    have hfirst := h.firstLine hax hlo hhi hm hpx hv1 hv2 hpm
    exact ⟨h.wholeLines hax hlo hhi hm hpx hlen hv1 hv2 hpm himlen hbefore hfirst, hfirst⟩
  · rintro ⟨hwhole, hfirst⟩
    exact putsMasked_of_whole hax hlo hhi hm hpx hlen hv1 hv2 hpm himlen hbefore hfirst hwhole

/-! ## A line with one masked pixel -/

/-- The descriptor of `mio_openo` for output, with nothing in its arrays; all pixels are 0. -/
def freshOut (m : Mask) (axlen : List Int) : Mio (OutImage Int) :=
  { im := { len := axlen, pixel := fun _ => 0, mem := fun _ => 0, flush := false, bufptr := 0,
            vs := [], ve := [], ndim := 0 }
    pm := m, depth := 0, active := false, lbp := 0, rl := [], rli := 0, ndim := 0,
    lineio := false, regcoords := false, v := List.replicate plMaxdim 0,
    vs := List.replicate plMaxdim 0, ve := List.replicate plMaxdim 0,
    vn := List.replicate plMaxdim 0 }

/-- The first of the two pixels of a line. -/
def onePixel : List MaskOp :=
  [.update [1, 1] (fun i => if i = 1 then 1 else 0) 1 ⟨1, Int.one_pos⟩]

theorem onePixel_draws : ∃ m₀ m, plSsize plOpen [2, 1] 1 ⟨1, Int.one_pos⟩ = .ok m₀ ∧
    runOps m₀ onePixel = .ok m ∧ m.Draws [2, 1] (picture [2, 1] onePixel) := by
  have hline : OnLine [2, 1] [1, 1] := by
    intro i hlo hhi
    obtain rfl : i = 2 := le_antisymm hhi hlo
    decide
  have hlegal : ∀ op ∈ onePixel, op.Legal [2, 1] := by
    intro op hop
    obtain rfl := List.mem_singleton.mp hop
    refine ⟨hline, fun j _ _ => ?_⟩
    dsimp only
    split <;> decide
  have hfit : SizedFits plOpen [2, 1] 1 ⟨1, Int.one_pos⟩ onePixel := by decide +kernel
  obtain ⟨m₀, m, s, hm₀, hm, hinv⟩ := hfit.run Descriptor.opened.counts (by decide) hlegal
  exact ⟨m₀, m, hm₀, hm, hinv.draws (length_picture [2, 1] onePixel).2⟩

theorem inMask_line {x : Int} (hx : 1 ≤ x ∧ x ≤ 2) : InMask [2, 1] [x, 1] 2 := by
  intro i hlo hhi _
  have hi : i ≤ 2 := hhi
  interval_cases i
  · exact hx
  · exact ⟨le_refl (1 : Int), le_refl (1 : Int)⟩

/-- The second pixel of the line gets what the buffer has. -/
theorem not_putsMasked_onePixel :
    ∃ m₀ m, plSsize plOpen [2, 1] 1 ⟨1, Int.one_pos⟩ = .ok m₀ ∧
      runOps m₀ onePixel = .ok m ∧
      ¬ PutsMasked [2, 1] (picture [2, 1] onePixel) (freshOut m [2, 1]) (fun _ => 0)
        [1, 1] [2, 1] 2 true := by
  obtain ⟨m₀, m, hm₀, hm, hdraws⟩ := onePixel_draws
  refine ⟨m₀, m, hm₀, hm, fun h => ?_⟩
  have hbefore : (freshOut m [2, 1]).im.imfls = .ok (freshOut m [2, 1]).im := rfl
  have hwhole := PutsMasked.wholeLines (by decide) (by decide) (by decide)
    hdraws (by decide) (by decide) (inMask_line (by decide)) (inMask_line (by decide)) rfl rfl
    hbefore (.inl (by unfold LineOutput; decide)) h
  exact absurd (hwhole [1, 1] (by decide) [2, 1] (by decide) rfl (by decide)) (by decide)

theorem putsMasked_upperLine :
    ∃ m₀ m, plSsize plOpen [2, 2, 2] 1 ⟨1, Int.one_pos⟩ = .ok m₀ ∧
      runOps m₀ upperLine = .ok m ∧
      PutsMasked [2, 2, 2] (picture [2, 2, 2] upperLine) (freshOut m [2, 2, 2]) (fun _ => 0)
        [1, 1, 1] [2, 2, 2] 3 true := by
  obtain ⟨m₀, m, hm₀, hm, hdraws⟩ := upperLine_draws
  have hbefore : (freshOut m [2, 2, 2]).im.imfls = .ok (freshOut m [2, 2, 2]).im := rfl
  have hmasked : PutsMasked [2, 2, 2] (picture [2, 2, 2] upperLine) (freshOut m [2, 2, 2])
      (freshOut m [2, 2, 2]).im.pixel [1, 1, 1] [2, 2, 2] 3 true := by
    refine (putsMasked_iff (by decide) hdraws (by decide) (by decide)
      (inMask_cube (by decide) (by decide) (by decide))
      (inMask_cube (by decide) (by decide) (by decide)) (by decide) (by decide) rfl rfl hbefore
      true).2 ⟨?_, .inl ?_⟩
    · unfold WholeLines
      decide
    · unfold LineOutput
      decide
  exact ⟨m₀, m, hm₀, hm, hmasked⟩

end Iraf.Pmio
