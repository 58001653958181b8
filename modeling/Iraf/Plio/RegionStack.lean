import Mathlib.Tactic.Linarith
import Iraf.Plio.Plrio

/-!
# Filling the table of a random access descriptor

A region on top of the stack is dealt with when the stack pointer is below it: every bin
of the region is set, and the regions below it and the other bins are as they were.  The
sides of a region halve with every three places of the stack.
-/

namespace Iraf.Plio

open StepMachine

/-! ## Bins -/

/-- The place of a bin in the table. -/
def Grid.place (g : Grid) (a b : Int) : Nat := ((b - 1) * g.tsize.1 + a - 1).toNat

/-- The bin is in the table. -/
def Grid.InTable (g : Grid) (a b : Int) : Prop :=
  (1 ≤ a ∧ a ≤ g.tsize.1) ∧ 1 ≤ b ∧ b ≤ g.tsize.2

/-- The bin is in the region. -/
def Region.Has (r : Region) (a b : Int) : Prop := (r.x1 ≤ a ∧ a ≤ r.x2) ∧ r.y1 ≤ b ∧ b ≤ r.y2

/-- The region lies in the table. -/
structure Region.Within (r : Region) (g : Grid) : Prop where
  valid : r.Valid
  first : g.InTable r.x1 r.y1
  last : g.InTable r.x2 r.y2

/-- From one table to another the bins of `p` are set to values that are right for them,
and the others are kept. -/
structure Covers (g : Grid) (right : Int → Int → Int → Prop) (p : Int → Int → Prop)
    (t t' : List (Option Int)) : Prop where
  length : t'.length = t.length
  set : ∀ a b, g.InTable a b → p a b → ∃ c, t'[g.place a b]? = some (some c) ∧ right a b c
  kept : ∀ a b, g.InTable a b → ¬ p a b → t'[g.place a b]? = t[g.place a b]?

variable {q' : Region} {g : Grid} {right : Int → Int → Int → Prop} {p q : Int → Int → Prop}
  {t t' t'' : List (Option Int)} {a b a' b' mval : Int} {r : Region}

theorem Covers.trans (h : Covers g right p t t') (h' : Covers g right q t' t'') :
    Covers g right (fun a b => p a b ∨ q a b) t t'' where
  length := h'.length.trans h.length
  set a b hab hpq := by
    by_cases hq : q a b
    · exact h'.set a b hab hq
    · rw [h'.kept a b hab hq]
      exact h.set a b hab (hpq.resolve_right hq)
  kept a b hab hpq := by
    rw [not_or] at hpq
    rw [h'.kept a b hab hpq.2, h.kept a b hab hpq.1]

theorem Covers.congr (h : Covers g right p t t')
    (hpq : ∀ a b, g.InTable a b → (p a b ↔ q a b)) : Covers g right q t t' where
  length := h.length
  set a b hab hq := h.set a b hab ((hpq a b hab).mpr hq)
  kept a b hab hq := h.kept a b hab (mt (hpq a b hab).mp hq)

theorem Grid.place_row (hab : g.InTable a b) {x : Int} (hx : 1 ≤ x) (hx' : x ≤ g.tsize.1)
    (hb' : 1 ≤ b') {n : Nat} (hn : x + n - 1 ≤ g.tsize.1) :
    (g.place x b' ≤ g.place a b ∧ g.place a b < g.place x b' + n) ↔
      b = b' ∧ x ≤ a ∧ a ≤ x + n - 1 := by
  obtain ⟨⟨ha, ha'⟩, hb, -⟩ := hab
  unfold Grid.place
  generalize g.tsize.1 = w at *
  have hrow : 0 ≤ (b - 1) * w := Int.mul_nonneg (by omega) (by omega)
  have hrow' : 0 ≤ (b' - 1) * w := Int.mul_nonneg (by omega) (by omega)
  constructor
  · intro h
    have hsame : b = b' := by
      rcases lt_trichotomy b b' with hlt | heq | hgt
      · have hstep : (b - 1) * w + w ≤ (b' - 1) * w := by nlinarith
        omega
      · exact heq
      · have hstep : (b' - 1) * w + w ≤ (b - 1) * w := by nlinarith
        omega
    subst hsame
    omega
  · rintro ⟨rfl, hlo, hhi⟩
    omega

theorem Grid.place_lt (hab : g.InTable a b) :
    g.place a b < (g.tsize.1 * g.tsize.2).toNat := by
  obtain ⟨⟨ha, ha'⟩, hb, hb'⟩ := hab
  unfold Grid.place
  generalize g.tsize.1 = w at *
  generalize g.tsize.2 = h at *
  have hrow : (b - 1) * w + w ≤ w * h := by nlinarith
  have hpos : 0 ≤ (b - 1) * w := Int.mul_nonneg (by omega) (by omega)
  omega

theorem fillRow_covers (hlen : t.length = (g.tsize.1 * g.tsize.2).toNat) {x y : Int} {n : Nat}
    (hfirst : g.InTable x y) (hlast : g.InTable (x + n - 1) y)
    (hright : ∀ a, x ≤ a → a ≤ x + n - 1 → right a y mval) :
    ∃ t', fillRow t ((y - 1) * g.tsize.1 + x - 1) n mval = .ok t' ∧
      Covers g right (fun a b => b = y ∧ x ≤ a ∧ a ≤ x + n - 1) t t' := by
  obtain ⟨⟨hx, hx'⟩, hy, hy'⟩ := hfirst
  have hpos : 0 ≤ (y - 1) * g.tsize.1 := Int.mul_nonneg (by omega) (by omega)
  have hend := Grid.place_lt hlast
  have hplace : ((y - 1) * g.tsize.1 + x - 1).toNat = g.place x y := rfl
  have hspan : g.place (x + n - 1) y = ((y - 1) * g.tsize.1 + (x + n - 1) - 1).toNat := rfl
  obtain ⟨⟨hlo, hhi⟩, -⟩ := hlast
  have hfits : g.place x y + n ≤ t.length := by omega
  refine ⟨_, if_pos ⟨by omega, by omega⟩, ?_⟩
  rw [hplace, Int.toNat_natCast]
  have hrow := fun a b (hab : g.InTable a b) => Grid.place_row hab hx hx' hy hhi
  constructor
  · rw [Cells.length_overlay (by omega), List.length_replicate]
    omega
  · rintro a b hab ⟨rfl, ha, ha'⟩
    obtain ⟨hlow, hhigh⟩ := (hrow a b hab).mpr ⟨rfl, ha, ha'⟩
    refine ⟨mval, ?_, hright a ha ha'⟩
    rw [Cells.getElem?_overlay_of_mem (by omega) hlow (by rwa [List.length_replicate]),
      List.getElem?_replicate, if_pos (by omega)]
  · intro a b hab hout
    have hmiss := mt (hrow a b hab).mp hout
    rw [Cells.getElem?_overlay_of_not_mem (by omega)]
    rw [List.length_replicate]
    omega

theorem fillRows_covers {x : Int} {n : Nat} {x2 y1 y2 : Int} (hx : x + n - 1 = x2)
    (hx1 : 1 ≤ x ∧ x ≤ x2) (hx2 : x2 ≤ g.tsize.1) (hy1 : 1 ≤ y1) (hy2 : y2 ≤ g.tsize.2)
    (hright : ∀ a b, x ≤ a → a ≤ x2 → y1 ≤ b → b ≤ y2 → right a b mval) (k : Nat) :
    ∀ {y : Int} {t : List (Option Int)}, y1 ≤ y → y + k = y2 + 1 →
      t.length = (g.tsize.1 * g.tsize.2).toNat →
      ∃ t', (Int.range y (y2 + 1)).foldlM
          (fun t j => fillRow t ((j - 1) * g.tsize.1 + x - 1) n mval) t = Except.ok t' ∧
        Covers g right (fun a b => (x ≤ a ∧ a ≤ x2) ∧ y ≤ b ∧ b ≤ y2) t t' := by
  induction k with
  | zero =>
      intro y t hy hk hlen
      have hnone : Int.range y (y2 + 1) = [] := by
        have hcount : (y2 + 1 - y).toNat = 0 := by omega
        rw [Int.range, hcount]
        rfl
      rw [hnone]
      exact ⟨t, rfl, rfl, fun a b _ hp => absurd hp (by omega), fun _ _ _ _ => rfl⟩
  | succ k ih =>
      intro y t hy hk hlen
      obtain ⟨t₁, hfill, hcovers⟩ := @fillRow_covers g right t mval hlen x y n
        ⟨⟨hx1.1, by omega⟩, by omega, by omega⟩ ⟨⟨by omega, by omega⟩, by omega, by omega⟩
        (fun a ha ha' => hright a y ha (by omega) hy (by omega))
      obtain ⟨t', hrest, hcovers'⟩ := @ih (y + 1) t₁ (by omega) (by omega)
        (hcovers.length.trans hlen)
      rw [range_cons (by omega), List.foldlM_cons, hfill]
      refine ⟨t', hrest, (hcovers.trans hcovers').congr fun a b _ => ?_⟩
      omega

theorem fillRegion_covers (hlen : t.length = (g.tsize.1 * g.tsize.2).toNat)
    (hr : r.Within g) (hright : ∀ a b, r.Has a b → right a b mval) :
    ∃ t', fillRegion g.tsize.1 r mval t = .ok t' ∧ Covers g right r.Has t t' := by
  obtain ⟨⟨hvx, hvy⟩, ⟨⟨hx1, -⟩, hy1, -⟩, ⟨-, hx2⟩, -, hy2⟩ := hr
  obtain ⟨n, hn⟩ : ∃ n : Nat, (n : Int) = r.x2 - r.x1 + 1 := ⟨(r.x2 - r.x1 + 1).toNat, by omega⟩
  obtain ⟨k, hk⟩ : ∃ k : Nat, (k : Int) = r.y2 - r.y1 + 1 := ⟨(r.y2 - r.y1 + 1).toNat, by omega⟩
  rw [fillRegion, ← hn]
  exact fillRows_covers (by omega) ⟨hx1, hvx⟩ hx2 hy1 hy2
    (fun a b ha ha' hb hb' => hright a b ⟨⟨ha, ha'⟩, hb, hb'⟩) k (Int.le_refl _) (by omega) hlen

/-! ## The stack -/

/-- The regions stacked from place `k` on, up to the one on top. -/
structure PlrLoop.Holds (s : PlrLoop) (k : Nat) (rs : List Region) : Prop where
  size : s.stack.length = lenStack
  el : s.el = (k : Int) + rs.length - 1
  regions : ∀ j, j < rs.length → s.stack[k + j]? = rs[j]?

theorem PlrLoop.Holds.top {s : PlrLoop} {k : Nat} (h : s.Holds k [r]) :
    s.stack[s.el.toNat]? = some r := by
  have hel := h.el
  have hplace : s.el.toNat = k + 0 := by
    rw [List.length_singleton] at hel
    omega
  rw [hplace, h.regions 0 (by simp)]
  rfl

/-- The regions below place `k` are the same. -/
def SameBelow (k : Nat) (s s' : PlrLoop) : Prop := ∀ j < k, s'.stack[j]? = s.stack[j]?

theorem push_quadrants (rs : List Region) :
    ∀ {s : PlrLoop} {k : Nat}, s.stack.length = lenStack → s.el = k →
      k + rs.length ≤ lenStack →
      ∃ s', rs.foldlM PlrLoop.push s = .ok s' ∧ s'.bufp = s.bufp ∧
        s'.stack.length = lenStack ∧
        s'.el = k + (rs.filter fun r => r.Valid).length ∧ SameBelow k s s' ∧
        ∀ j, j < (rs.filter fun r => r.Valid).length →
          s'.stack[k + j]? = (rs.filter fun r => r.Valid)[j]? := by
  induction rs with
  | nil =>
      intro s k hsize hel hfit
      exact ⟨s, rfl, rfl, hsize, by simpa using hel, fun _ _ => rfl, fun j hj => by simp at hj⟩
  | cons r rs ih =>
      intro s k hsize hel hfit
      rw [List.length_cons] at hfit
      have hpush : s.push r = .ok { s with stack := s.stack.set k r, el := if r.Valid then s.el + 1 else s.el } := by
        rw [PlrLoop.push, if_pos ⟨by omega, by omega⟩, hel]
        rfl
      have hsize' : (s.stack.set k r).length = lenStack := by
        rw [List.length_set, hsize]
      rw [List.foldlM_cons, hpush]
      by_cases hvalid : r.Valid
      · have hel' : s.el + 1 = ((k + 1 : Nat) : Int) := by omega
        rw [if_pos hvalid, List.filter_cons_of_pos (by simpa using hvalid), hel']
        obtain ⟨s', hfold, hbuf, hlen, hend, hbelow, hregions⟩ :=
          @ih ⟨s.stack.set k r, (k + 1 : Nat), s.bufp⟩ (k + 1) hsize' rfl (by omega)
        refine ⟨s', hfold, hbuf, hlen, ?_, ?_, ?_⟩
        · rw [hend, List.length_cons]
          omega
        · intro j hj
          rw [hbelow j (by omega)]
          exact List.getElem?_set_ne (by omega)
        · intro j hj
          cases j with
          | zero =>
              rw [Nat.add_zero, hbelow k (by omega)]
              exact List.getElem?_set_self (by omega)
          | succ j =>
              have hplace : k + (j + 1) = k + 1 + j := by omega
              rw [hplace, List.getElem?_cons_succ]
              exact hregions j (by simpa using hj)
      · rw [if_neg hvalid, List.filter_cons_of_neg (by simpa using hvalid), hel]
        obtain ⟨s', hfold, hbuf, hlen, hend, hbelow, hregions⟩ :=
          @ih ⟨s.stack.set k r, k, s.bufp⟩ k hsize' rfl (by omega)
        refine ⟨s', hfold, hbuf, hlen, hend, fun j hj => ?_, hregions⟩
        rw [hbelow j hj]
        exact List.getElem?_set_ne (by omega)

/-! ## Quadrants -/

/-- No side of the region is longer than `n`. -/
def Region.Small (r : Region) (n : Int) : Prop := r.x2 - r.x1 + 1 ≤ n ∧ r.y2 - r.y1 + 1 ≤ n

theorem mem_quadrants : q' ∈ r.quadrants.filter (fun r => r.Valid) ↔ q'.Valid ∧
    ∃ vm1 vm2, vm1 = (r.x1 + r.x2 + 1) / 2 ∧ vm2 = (r.y1 + r.y2 + 1) / 2 ∧
      (q' = ⟨r.x1, vm2, vm1 - 1, r.y2⟩ ∨ q' = ⟨vm1, vm2, r.x2, r.y2⟩ ∨
        q' = ⟨r.x1, r.y1, vm1 - 1, vm2 - 1⟩ ∨ q' = ⟨vm1, r.y1, r.x2, vm2 - 1⟩) := by
  simp [List.mem_filter, Region.quadrants, and_comm]

theorem quadrant_within {q : Region} (hr : r.Within g) {n : Int} (hn : r.Small (n * 2))
    (hq : q ∈ r.quadrants.filter fun r => r.Valid) : q.Within g ∧ q.Small n := by
  obtain ⟨hvalid, vm1, vm2, hvm1, hvm2, hcases⟩ := mem_quadrants.mp hq
  obtain ⟨⟨hvx, hvy⟩, ⟨⟨hx1, hx1'⟩, hy1, hy1'⟩, ⟨hx2, hx2'⟩, hy2, hy2'⟩ := hr
  obtain ⟨hnx, hny⟩ := hn
  rcases hcases with rfl | rfl | rfl | rfl
  all_goals
    obtain ⟨hqx, hqy⟩ := hvalid
    simp only at hqx hqy
    refine ⟨⟨⟨hqx, hqy⟩, ⟨⟨?_, ?_⟩, ?_, ?_⟩, ⟨?_, ?_⟩, ?_, ?_⟩, ?_, ?_⟩ <;> simp only <;> omega

theorem exists_quadrant (hr : r.Valid) (a b : Int) :
    (∃ q ∈ r.quadrants.filter fun r => r.Valid, q.Has a b) ↔ r.Has a b := by
  obtain ⟨hvx, hvy⟩ := hr
  constructor
  · rintro ⟨q, hq, ⟨ha, ha'⟩, hb, hb'⟩
    obtain ⟨hvalid, vm1, vm2, hvm1, hvm2, hcases⟩ := mem_quadrants.mp hq
    rcases hcases with rfl | rfl | rfl | rfl
    all_goals
      simp only at ha ha' hb hb'
      exact ⟨⟨by omega, by omega⟩, by omega, by omega⟩
  · rintro ⟨⟨ha, ha'⟩, hb, hb'⟩
    have hfound : ∀ q : Region, q ∈ r.quadrants → q.Has a b →
        ∃ q ∈ r.quadrants.filter fun r => r.Valid, q.Has a b := by
      intro q hq hhas
      refine ⟨q, List.mem_filter.mpr ⟨hq, ?_⟩, hhas⟩
      rw [decide_eq_true_eq]
      exact ⟨Int.le_trans hhas.1.1 hhas.1.2, Int.le_trans hhas.2.1 hhas.2.2⟩
    obtain ⟨vm1, hvm1⟩ : ∃ vm1, vm1 = (r.x1 + r.x2 + 1) / 2 := ⟨_, rfl⟩
    obtain ⟨vm2, hvm2⟩ : ∃ vm2, vm2 = (r.y1 + r.y2 + 1) / 2 := ⟨_, rfl⟩
    have hquadrants : r.quadrants = [⟨r.x1, vm2, vm1 - 1, r.y2⟩, ⟨vm1, vm2, r.x2, r.y2⟩,
        ⟨r.x1, r.y1, vm1 - 1, vm2 - 1⟩, ⟨vm1, r.y1, r.x2, vm2 - 1⟩] := by
      rw [hvm1, hvm2]
      rfl
    rw [hquadrants] at hfound ⊢
    rcases Int.lt_or_le a vm1 with hleft | hright
    · rcases Int.lt_or_le b vm2 with hlow | hhigh
      · exact hfound ⟨r.x1, r.y1, vm1 - 1, vm2 - 1⟩ (by simp)
          ⟨⟨ha, Int.le_sub_one_of_lt hleft⟩, hb, Int.le_sub_one_of_lt hlow⟩
      · exact hfound ⟨r.x1, vm2, vm1 - 1, r.y2⟩ (by simp)
          ⟨⟨ha, Int.le_sub_one_of_lt hleft⟩, hhigh, hb'⟩
    · rcases Int.lt_or_le b vm2 with hlow | hhigh
      · exact hfound ⟨vm1, r.y1, r.x2, vm2 - 1⟩ (by simp)
          ⟨⟨hright, ha'⟩, hb, Int.le_sub_one_of_lt hlow⟩
      · exact hfound ⟨vm1, vm2, r.x2, r.y2⟩ (by simp) ⟨⟨hright, ha'⟩, hhigh, hb'⟩

/-! ## The loop -/

section Loop

variable {pl : Mask} {coords : List Int} {ndim fuel : Nat} {s s' u : PlrLoop}

/-- The loop gets from one state to another, with which it ends when the stack pointer
is below the stack. -/
def Goes (step : PlrLoop → Except LoopErr (PlrLoop ⊕ List (Option Int))) (s s' : PlrLoop) :
    Prop :=
  (0 ≤ s'.el ∧ Reaches step s s') ∨ (s'.el < 0 ∧ Ends step s (.ok s'.bufp))

theorem Goes.trans {step : PlrLoop → Except LoopErr (PlrLoop ⊕ List (Option Int))}
    (h : Goes step s s') (hel : 0 ≤ s'.el) (h' : Goes step s' u) : Goes step s u := by
  rcases h with ⟨-, hreaches⟩ | ⟨hneg, -⟩
  · rcases h' with ⟨hpos, hrest⟩ | ⟨hneg, hends⟩
    · exact .inl ⟨hpos, hreaches.trans hrest⟩
    · exact .inr ⟨hneg, hreaches.ends_iff.mpr hends⟩
  · omega

theorem regionStep_goes (hr : s.stack[s.el.toNat]? = some r) {complex : Bool} {mval : Int}
    (htest : plSectnotconst pl (r.corners g coords).1 (r.corners g coords).2 ndim fuel =
      .ok (complex, mval))
    (hbody : regionBody g s r complex mval = .ok s') :
    Goes (regionStep pl g coords ndim fuel) s { s' with el := s'.el - 1 } := by
  have hstep : regionStep pl g coords ndim fuel s =
      if s'.el - 1 < 0 then .ok (.inr s'.bufp) else .ok (.inl { s' with el := s'.el - 1 }) := by
    unfold regionStep
    simp only [hr, bind, Except.bind, htest, hbody]
    rfl
  by_cases hend : s'.el - 1 < 0
  · rw [if_pos hend] at hstep
    exact .inr ⟨hend, ends_result hstep⟩
  · rw [if_neg hend] at hstep
    exact .inl ⟨by simp only; omega, .one hstep⟩

/-- What the loop has done when the regions from place `k` on are off the stack. -/
structure Settled (g : Grid) (right : Int → Int → Int → Prop) (k : Nat)
    (p : Int → Int → Prop) (s s' : PlrLoop) : Prop where
  size : s'.stack.length = lenStack
  el : s'.el = (k : Int) - 1
  below : SameBelow k s s'
  covers : Covers g right p s.bufp s'.bufp

/-- A list of regions on top of the stack, when each of them can be dealt with. -/
theorem regions_goes {step : PlrLoop → Except LoopErr (PlrLoop ⊕ List (Option Int))}
    {rs : List Region} (hne : rs ≠ []) :
    ∀ {k : Nat} {s : PlrLoop}, s.Holds k rs →
      (∀ r ∈ rs, ∀ (j : Nat) (s : PlrLoop), j < rs.length → s.Holds (k + j) [r] →
        s.bufp.length = (g.tsize.1 * g.tsize.2).toNat →
        ∃ s', Goes step s s' ∧ Settled g right (k + j) r.Has s s') →
      s.bufp.length = (g.tsize.1 * g.tsize.2).toNat →
      ∃ s', Goes step s s' ∧ Settled g right k (fun a b => ∃ r ∈ rs, r.Has a b) s s' := by
  induction rs using List.reverseRecOn with
  | nil => exact absurd rfl hne
  | append_singleton rs r ih =>
      intro k s hs hall hlen
      have htop : s.Holds (k + rs.length) [r] := by
        refine ⟨hs.size, ?_, fun j hj => ?_⟩
        · rw [hs.el, List.length_append]
          push_cast
          omega
        · obtain rfl : j = 0 := by simpa using hj
          have hget := hs.regions rs.length (by simp)
          rw [List.getElem?_append_right (Nat.le_refl _), Nat.sub_self] at hget
          rw [Nat.add_zero]
          exact hget
      obtain ⟨s₁, hgoes, hsettled⟩ := hall r (by simp) rs.length s (by simp) htop hlen
      by_cases hnil : rs = []
      · subst hnil
        refine ⟨s₁, hgoes, hsettled.size, hsettled.el, hsettled.below, ?_⟩
        exact hsettled.covers.congr fun a b _ => by simp
      · have hpos := List.length_pos_iff.mpr hnil
        have hs₁ : s₁.Holds k rs := by
          refine ⟨hsettled.size, ?_, fun j hj => ?_⟩
          · rw [hsettled.el]
            push_cast
            omega
          · rw [hsettled.below (k + j) (by omega), hs.regions j (by simp; omega),
              List.getElem?_append_left hj]
        obtain ⟨s', hgoes', hsettled'⟩ := ih hnil hs₁
          (fun q hq j t hj ht hbuf => hall q (List.mem_append_left _ hq) j t
            (by rw [List.length_append]; omega) ht hbuf)
          (hsettled.covers.length.trans hlen)
        refine ⟨s', hgoes.trans ?_ hgoes', hsettled'.size, hsettled'.el, fun j hj => ?_, ?_⟩
        · rw [hsettled.el]
          push_cast
          omega
        · rw [hsettled'.below j hj, hsettled.below j (by omega)]
        · refine (hsettled.covers.trans hsettled'.covers).congr fun a b _ => ?_
          simp only [List.mem_append, List.mem_singleton]
          constructor
          · rintro (h | ⟨q, hq, h⟩)
            · exact ⟨r, .inr rfl, h⟩
            · exact ⟨q, .inl hq, h⟩
          · rintro ⟨q, hq | rfl, h⟩
            · exact .inr ⟨q, hq, h⟩
            · exact .inl h

/-- How the loop examines the regions of a table. -/
structure Examines (pl : Mask) (g : Grid) (coords : List Int) (ndim fuel : Nat)
    (right : Int → Int → Int → Prop) : Prop where
  test : ∀ r : Region, r.Within g → ∃ complex mval,
    plSectnotconst pl (r.corners g coords).1 (r.corners g coords).2 ndim fuel =
      .ok (complex, mval) ∧ (complex = false → ∀ a b, r.Has a b → right a b mval) ∧
      (complex = true → r.x1 = r.x2 ∧ r.y1 = r.y2 → right r.x1 r.y1 complexBin)

theorem leaf_goes {k : Nat} (hr : r.Within g) (hs : s.Holds k [r]) (hlen : s.bufp.length = (g.tsize.1 * g.tsize.2).toNat)
    {complex : Bool} {mval : Int}
    (htest : plSectnotconst pl (r.corners g coords).1 (r.corners g coords).2 ndim fuel =
      .ok (complex, mval))
    (hconst : complex = false → ∀ a b, r.Has a b → right a b mval)
    (hcomplex : complex = true → r.x1 = r.x2 ∧ r.y1 = r.y2 → right r.x1 r.y1 complexBin)
    (hleaf : complex = false ∨ (r.x1 = r.x2 ∧ r.y1 = r.y2)) :
    ∃ s', Goes (regionStep pl g coords ndim fuel) s s' ∧ Settled g right k r.Has s s' := by
  have hbody : ∃ t', regionBody g s r complex mval = .ok { s with bufp := t' } ∧
      Covers g right r.Has s.bufp t' := by
    cases complex with
    | false =>
        obtain ⟨t', hfill, hcovers⟩ := fillRegion_covers hlen hr (hconst rfl)
        refine ⟨t', ?_, hcovers⟩
        rw [regionBody, if_neg Bool.false_ne_true, hfill]
        rfl
    | true =>
        have hsingle : r.x1 = r.x2 ∧ r.y1 = r.y2 := by
          rcases hleaf with hfalse | hsingle
          · cases hfalse
          · exact hsingle
        have hlast : g.InTable (r.x1 + (1 : Nat) - 1) r.y1 := by
          have hsame : r.x1 + (1 : Nat) - 1 = r.x1 := by omega
          rw [hsame]
          exact hr.first
        obtain ⟨t', hfill, hcovers⟩ :=
          fillRow_covers hlen hr.first hlast (fun a hlo hhi => by
            obtain rfl : a = r.x1 := by omega
            exact hcomplex rfl hsingle)
        refine ⟨t', ?_, hcovers.congr fun a b _ => ?_⟩
        · rw [regionBody, if_pos rfl, if_pos hsingle]
          rw [Nat.cast_one] at hfill
          rw [hfill]
          rfl
        · unfold Region.Has
          omega
  obtain ⟨t', hbody, hcovers⟩ := hbody
  refine ⟨_, regionStep_goes hs.top htest hbody, hs.size, ?_, fun j _ => rfl, hcovers⟩
  have hel := hs.el
  simp only [List.length_singleton] at hel ⊢
  omega

/-- The region on top of the stack is dealt with.  At place `k` its sides are at most
`2 ^ m` with `k + 3 * m` not over 93, so that there is room for its quadrants. -/
theorem region_goes (h : Examines pl g coords ndim fuel right) (m : Nat) :
    ∀ {r : Region} {k : Nat} {s : PlrLoop}, r.Within g → r.Small (2 ^ m) → k + 3 * m ≤ 93 →
      s.Holds k [r] → s.bufp.length = (g.tsize.1 * g.tsize.2).toNat →
      ∃ s', Goes (regionStep pl g coords ndim fuel) s s' ∧ Settled g right k r.Has s s' := by
  induction m with
  | zero =>
      intro r k s hr hsmall hk hs hlen
      obtain ⟨complex, mval, htest, hconst, hcomplex⟩ := h.test r hr
      obtain ⟨hvx, hvy⟩ := hr.valid
      obtain ⟨hnx, hny⟩ := hsmall
      rw [pow_zero] at hnx hny
      exact leaf_goes hr hs hlen htest hconst hcomplex (.inr ⟨by omega, by omega⟩)
  | succ m ih =>
      intro r k s hr hsmall hk hs hlen
      obtain ⟨complex, mval, htest, hconst, hcomplex⟩ := h.test r hr
      by_cases hleaf : complex = false ∨ (r.x1 = r.x2 ∧ r.y1 = r.y2)
      · exact leaf_goes hr hs hlen htest hconst hcomplex hleaf
      · rw [not_or, Bool.not_eq_false] at hleaf
        obtain ⟨rfl, hmany⟩ := hleaf
        have hel : s.el = k := by
          have := hs.el
          rw [List.length_singleton] at this
          omega
        -- The quadrants replace the region.
        obtain ⟨s₁, hpush, hbuf, hsize, hend, hbelow, hregions⟩ :=
          push_quadrants r.quadrants hs.size hel (by
            simp only [Region.quadrants, List.length_cons, List.length_nil, lenStack]
            omega)
        have hbody : regionBody g s r true mval = .ok s₁ := by
          rw [regionBody, if_pos rfl, if_neg hmany,
            if_neg (by simp only [lenStack]; push_cast; omega)]
          exact hpush
        have hgoes := regionStep_goes hs.top htest hbody
        have hne : (r.quadrants.filter fun r => r.Valid) ≠ [] := by
          obtain ⟨q, hq, -⟩ := (exists_quadrant hr.valid r.x1 r.y1).mpr
            ⟨⟨Int.le_refl _, hr.valid.1⟩, Int.le_refl _, hr.valid.2⟩
          exact List.ne_nil_of_mem hq
        have hfew : (r.quadrants.filter fun r => r.Valid).length ≤ 4 :=
          List.length_filter_le _ _
        have hpos := List.length_pos_iff.mpr hne
        have hholds : PlrLoop.Holds { s₁ with el := s₁.el - 1 } k
            (r.quadrants.filter fun r => r.Valid) :=
          ⟨hsize, by simp only [hend], hregions⟩
        have hsmall' : r.Small (2 ^ m * 2) := by
          rwa [pow_succ] at hsmall
        obtain ⟨s', hgoes', hsettled⟩ := regions_goes hne hholds
          (fun q hq j t hj ht hbuf' => by
            obtain ⟨hwithin, hhalf⟩ := quadrant_within hr hsmall' hq
            exact ih hwithin hhalf (by omega) ht hbuf')
          (by rw [← hlen]; exact congrArg List.length hbuf)
        refine ⟨s', hgoes.trans ?_ hgoes', hsettled.size, hsettled.el, fun j hj => ?_, ?_⟩
        · simp only [hend]
          omega
        · rw [hsettled.below j hj]
          exact hbelow j hj
        · have hcovers := hsettled.covers
          simp only [hbuf] at hcovers
          exact hcovers.congr fun a b _ => exists_quadrant hr.valid a b

end Loop

end Iraf.Plio
