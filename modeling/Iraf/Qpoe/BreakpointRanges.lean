import Iraf.Lib.StepFunction
import Iraf.Qpoe.ParseExpr
import Mathlib.Data.List.TakeDrop
import Mathlib.Data.List.TakeWhile

/-!
# The ranges of a breakpoint list

The second half of `qpex_parsei`.  The breakpoints in any order stand for a step function;
the ranges are the places where it is positive, and no two of them touch.
-/

namespace Iraf.Qpoe

open Iraf.StepFunction

variable {bs : List Breakpoint} {b m : Breakpoint} {x p : Int}

/-- A breakpoint as a step of the function. -/
def Breakpoint.jump (b : Breakpoint) : Int × Int := (b.xv, b.sv)

def levelOf (bs : List Breakpoint) (x : Int) : Int := level (bs.map Breakpoint.jump) x

/-! ### The sort -/

theorem Breakpoint.xv_le_of_before (h : b.before m = true) : b.xv ≤ m.xv := by
  simp only [before, Bool.or_eq_true, Bool.and_eq_true, decide_eq_true_eq, beq_iff_eq] at h
  omega

theorem Breakpoint.xv_le_of_not_before (h : ¬ b.before m = true) : m.xv ≤ b.xv := by
  simp only [before, Bool.or_eq_true, Bool.and_eq_true, decide_eq_true_eq, beq_iff_eq] at h
  omega

theorem leastBefore_none {i : Nat} (h : leastBefore m i bs = none) :
    ∀ b ∈ bs, m.xv ≤ b.xv := by
  induction bs generalizing m i with
  | nil => simp
  | cons c bs ih =>
      rw [leastBefore] at h
      split at h
      · cases hrest : leastBefore c (i + 1) bs <;> simp [hrest] at h
      · rename_i hbefore
        intro b hb
        rcases List.mem_cons.1 hb with rfl | hb
        · exact Breakpoint.xv_le_of_not_before hbefore
        · exact ih h b hb

theorem leastBefore_some {i j : Nat} {c : Breakpoint}
    (h : leastBefore m i bs = some (j, c)) :
    i ≤ j ∧ bs[j - i]? = some c ∧ c.xv ≤ m.xv ∧ ∀ b ∈ bs, c.xv ≤ b.xv := by
  induction bs generalizing m i with
  | nil => simp [leastBefore] at h
  | cons d bs ih =>
      -- the element found in the tail is found in the whole list
      have hlater : ∀ {n : Breakpoint}, leastBefore n (i + 1) bs = some (j, c) →
          n.xv ≤ m.xv → n.xv ≤ d.xv →
          i ≤ j ∧ (d :: bs)[j - i]? = some c ∧ c.xv ≤ m.xv ∧ ∀ b ∈ d :: bs, c.xv ≤ b.xv := by
        intro n hn hm hd
        obtain ⟨hij, hget, hle, hall⟩ := ih hn
        refine ⟨by omega, ?_, by omega, ?_⟩
        · rw [show j - i = j - (i + 1) + 1 by omega, List.getElem?_cons_succ]
          exact hget
        · intro b hb
          rcases List.mem_cons.1 hb with rfl | hb
          · omega
          · exact hall b hb
      rw [leastBefore] at h
      split at h
      · rename_i hbefore
        have hdm := Breakpoint.xv_le_of_before hbefore
        cases hrest : leastBefore d (i + 1) bs with
        | some found =>
            rw [hrest, Option.some_or, Option.some.injEq] at h
            subst h
            exact hlater hrest hdm le_rfl
        | none =>
            rw [hrest, Option.none_or, Option.some.injEq, Prod.mk.injEq] at h
            obtain ⟨rfl, rfl⟩ := h
            refine ⟨le_rfl, by simp, hdm, ?_⟩
            intro b hb
            rcases List.mem_cons.1 hb with rfl | hb
            · exact le_rfl
            · exact leastBefore_none hrest b hb
      · rename_i hbefore
        exact hlater h le_rfl (Breakpoint.xv_le_of_not_before hbefore)

theorem perm_exchange {i : Nat} {c : Breakpoint} (h : bs[i]? = some c) :
    (b :: bs).Perm (c :: bs.set i b) := by
  obtain ⟨hi, rfl⟩ := List.getElem?_eq_some_iff.1 h
  have hbs : bs = bs.take i ++ bs[i] :: bs.drop (i + 1) := by
    rw [← List.drop_eq_getElem_cons, List.take_append_drop]
  rw [List.set_eq_take_append_cons_drop, if_pos hi]
  refine (List.Perm.cons b (List.Perm.of_eq hbs)).trans ?_
  refine (List.Perm.cons b List.perm_middle).trans ?_
  exact (List.Perm.swap _ _ _).trans (List.Perm.cons _ List.perm_middle.symm)

theorem sortBreakpoints_perm (fuel : Nat) : (sortBreakpoints fuel bs).Perm bs := by
  induction fuel generalizing bs with
  | zero => rfl
  | succ fuel ih =>
      cases bs with
      | nil => rfl
      | cons b bs =>
          rw [sortBreakpoints]
          split
          · rename_i i c hleast
            obtain ⟨-, hget, -⟩ := leastBefore_some hleast
            exact (List.Perm.cons c ih).trans (perm_exchange (by simpa using hget)).symm
          · exact List.Perm.cons b ih

theorem sortBreakpoints_sorted (fuel : Nat) (hfuel : bs.length ≤ fuel) :
    (sortBreakpoints fuel bs).Pairwise fun b c => b.xv ≤ c.xv := by
  induction fuel generalizing bs with
  | zero =>
      rw [List.length_eq_zero_iff.1 (Nat.le_zero.1 hfuel)]
      exact List.Pairwise.nil
  | succ fuel ih =>
      cases bs with
      | nil => exact List.Pairwise.nil
      | cons b bs =>
          have hlen : bs.length ≤ fuel := Nat.le_of_succ_le_succ hfuel
          rw [sortBreakpoints]
          split
          · rename_i i c hleast
            obtain ⟨-, hget, hcb, hall⟩ := leastBefore_some hleast
            refine List.pairwise_cons.2 ⟨?_, ih (by rwa [List.length_set])⟩
            intro d hd
            have hd := (sortBreakpoints_perm fuel).subset hd
            rcases List.mem_or_eq_of_mem_set hd with hd | rfl
            · exact hall d hd
            · exact hcb
          · rename_i hleast
            refine List.pairwise_cons.2 ⟨?_, ih hlen⟩
            intro d hd
            exact leastBefore_none hleast d ((sortBreakpoints_perm fuel).subset hd)

/-! ### The running sum -/

/-- The breakpoints at the position of `b` that follow it. -/
def sameAs (b : Breakpoint) (bs : List Breakpoint) : List Breakpoint :=
  bs.takeWhile fun c => c.xv == b.xv

theorem level_same (hx : b.xv ≤ x) :
    levelOf (sameAs b bs) x = ((sameAs b bs).map Breakpoint.sv).sum := by
  have hall : ∀ j ∈ (sameAs b bs).map Breakpoint.jump, j.1 ≤ x := by
    intro j hj
    obtain ⟨c, hc, rfl⟩ := List.mem_map.1 hj
    have hcx : c.xv = b.xv := by simpa using List.mem_takeWhile_imp hc
    rw [Breakpoint.jump, hcx]
    exact hx
  rw [levelOf, level_of_le hall, List.map_map]
  rfl

theorem sameAs_append_drop (b : Breakpoint) (bs : List Breakpoint) :
    sameAs b bs ++ bs.drop (sameAs b bs).length = bs := by
  conv_rhs => rw [← List.take_append_drop (sameAs b bs).length bs]
  congr 1
  exact List.prefix_iff_eq_take.1 (List.takeWhile_prefix _)

theorem lt_of_mem_drop (hsorted : (b :: bs).Pairwise fun b c => b.xv ≤ c.xv) :
    ∀ c ∈ bs.drop (sameAs b bs).length, b.xv < c.xv := by
  obtain ⟨hb, hbs⟩ := List.pairwise_cons.1 hsorted
  have hdrop : bs.drop (sameAs b bs).length = bs.dropWhile fun c => c.xv == b.xv := by
    conv_lhs =>
      enter [2]
      rw [← List.takeWhile_append_dropWhile (p := fun c => c.xv == b.xv) (l := bs)]
    exact List.drop_left
  rw [hdrop]
  cases hrest : bs.dropWhile fun c => c.xv == b.xv with
  | nil => simp
  | cons d ds =>
      have hne : ¬ (d.xv == b.xv) = true := by
        have := List.head?_dropWhile_not (fun c : Breakpoint => c.xv == b.xv) bs
        rw [hrest] at this
        simpa using this
      have hsub : (d :: ds).Sublist bs := hrest ▸ (List.dropWhile_suffix _).sublist
      have hbd := hb d (hsub.subset List.mem_cons_self)
      have hd : b.xv < d.xv := lt_of_le_of_ne hbd fun h => hne (by simp [h])
      intro c hc
      rcases List.mem_cons.1 hc with rfl | hc
      · exact hd
      · exact hd.trans_le ((List.pairwise_cons.1 (hbs.sublist hsub)).1 c hc)

/-- The step that the breakpoints at the position of `b` make together. -/
def jumpAt (b : Breakpoint) (bs : List Breakpoint) : Int :=
  b.sv + ((sameAs b bs).map Breakpoint.sv).sum

theorem levelOf_cons (b : Breakpoint) (bs : List Breakpoint) :
    levelOf (b :: bs) x =
      (if b.xv ≤ x then jumpAt b bs else 0) + levelOf (bs.drop (sameAs b bs).length) x := by
  have hsplit : levelOf (b :: bs) x = (if b.xv ≤ x then b.sv else 0) +
      (levelOf (sameAs b bs) x + levelOf (bs.drop (sameAs b bs).length) x) := by
    conv_lhs => rw [← sameAs_append_drop b bs]
    rw [levelOf, List.map_cons, level_cons, List.map_append, level_append]
    rfl
  rw [hsplit]
  by_cases hx : b.xv ≤ x
  · rw [if_pos hx, if_pos hx, level_same hx, jumpAt]
    ring
  · rw [if_neg hx, if_neg hx]
    have hzero : levelOf (sameAs b bs) x = 0 := by
      apply level_of_lt
      intro j hj
      obtain ⟨c, hc, rfl⟩ := List.mem_map.1 hj
      have hcx : c.xv = b.xv := by simpa using List.mem_takeWhile_imp hc
      rw [Breakpoint.jump, hcx]
      exact not_le.1 hx
    rw [hzero, zero_add, zero_add]

theorem levelOf_of_lt (h : ∀ b ∈ bs, x < b.xv) : levelOf bs x = 0 := by
  apply level_of_lt
  intro j hj
  obtain ⟨b, hb, rfl⟩ := List.mem_map.1 hj
  exact h b hb

/-! ### The ranges -/

/-- Increasing ranges of which no two touch. -/
structure Separated (rl : List (Int × Int)) : Prop where
  proper : ∀ r ∈ rl, r.1 ≤ r.2
  apart : rl.Pairwise fun r s => r.2 + 1 < s.1

def InRanges (rl : List (Int × Int)) (x : Int) : Prop := ∃ r ∈ rl, r.1 ≤ x ∧ x ≤ r.2

/-- The sweep has come to the position `p`. -/
structure Sweep.Open (s : Sweep) (p : Int) : Prop where
  some : ∀ start, s.nxs = some start → start ≤ p ∧ 0 < s.y
  none : s.nxs = none → s.y ≤ 0

/-- The ranges that the rest of the sweep gives. -/
structure Sweep.Covers (s : Sweep) (p : Int) (bs : List Breakpoint) (rl : List (Int × Int)) :
    Prop where
  separated : Separated rl
  after : ∀ r ∈ rl, (∃ start, s.nxs = some start ∧ start ≤ r.1) ∨ p < r.1
  mem : ∀ x, x < maxInt → (InRanges rl x ↔
    (∃ start, s.nxs = some start ∧ start ≤ x ∧ x ≤ p) ∨ p < x ∧ 0 < s.y + levelOf bs x)

theorem inRanges_cons {r : Int × Int} {rl : List (Int × Int)} :
    InRanges (r :: rl) x ↔ r.1 ≤ x ∧ x ≤ r.2 ∨ InRanges rl x := by
  simp [InRanges]

theorem Sweep.at_cases (s : Sweep) (x dy : Int) :
    (s.nxs = .none ∧ 0 < s.y + dy ∧ s.at x dy = (⟨s.y + dy, .some x⟩, .none)) ∨
      (s.nxs = .none ∧ s.y + dy ≤ 0 ∧ s.at x dy = (⟨s.y + dy, .none⟩, .none)) ∨
      (∃ start, s.nxs = .some start ∧ s.y + dy ≤ 0 ∧
        s.at x dy = (⟨s.y + dy, .none⟩, .some (start, if x = maxInt then x else x - 1))) ∨
      (∃ start, s.nxs = .some start ∧ 0 < s.y + dy ∧
        s.at x dy = (⟨s.y + dy, .some start⟩, .none)) := by
  obtain ⟨y, nxs⟩ := s
  by_cases hy : 0 < y + dy
  · have hv : max 0 (min 1 (y + dy)) = 1 := by omega
    cases nxs with
    | none => exact .inl ⟨rfl, hy, by simp only [Sweep.at, hv, if_true]⟩
    | some start =>
        refine .inr (.inr (.inr ⟨start, rfl, hy, ?_⟩))
        simp only [Sweep.at, hv, one_ne_zero, if_false]
  · have hy := not_lt.1 hy
    have hv : max 0 (min 1 (y + dy)) = 0 := by omega
    cases nxs with
    | none =>
        refine .inr (.inl ⟨rfl, hy, ?_⟩)
        simp only [Sweep.at, hv, zero_ne_one, if_false]
    | some start => exact .inr (.inr (.inl ⟨start, rfl, hy, by simp only [Sweep.at, hv, if_true]⟩))

theorem Sweep.covers_nil {s : Sweep} (hopen : s.Open p) (hend : s.y = 0) :
    s.Covers p [] [] := by
  have hnone : s.nxs = .none := by
    cases hnxs : s.nxs with
    | none => rfl
    | some start =>
        have := (hopen.some start hnxs).2
        omega
  refine ⟨⟨by simp, List.Pairwise.nil⟩, by simp, ?_⟩
  intro x _
  simp [InRanges, hnone, levelOf, hend]

theorem Sweep.at_open {s : Sweep} (hopen : s.Open p) (hx : p < x) (dy : Int) :
    (s.at x dy).1.Open x ∧ (s.at x dy).1.y = s.y + dy := by
  obtain ⟨-, hy, hat⟩ | ⟨-, hy, hat⟩ | ⟨start, -, hy, hat⟩ | ⟨start, hnxs, hy, hat⟩ :=
    s.at_cases x dy
  · rw [hat]
    refine ⟨⟨?_, by simp⟩, rfl⟩
    rintro start h
    cases h
    exact ⟨le_rfl, hy⟩
  · rw [hat]
    exact ⟨⟨by simp, fun _ => hy⟩, rfl⟩
  · rw [hat]
    exact ⟨⟨by simp, fun _ => hy⟩, rfl⟩
  · rw [hat]
    refine ⟨⟨?_, by simp⟩, rfl⟩
    rintro start' h
    cases h
    have := (hopen.some start hnxs).1
    exact ⟨by omega, hy⟩

theorem Sweep.Covers.step {s : Sweep} {rl : List (Int × Int)} (hopen : s.Open p)
    (hp : p < b.xv) (hmax : b.xv ≤ maxInt)
    (hsorted : (b :: bs).Pairwise fun b c => b.xv ≤ c.xv)
    (hlast : b.xv = maxInt → rl = [])
    (h : (s.at b.xv (jumpAt b bs)).1.Covers b.xv (bs.drop (sameAs b bs).length) rl) :
    s.Covers p (b :: bs) ((s.at b.xv (jumpAt b bs)).2.toList ++ rl) := by
  have hdrop := lt_of_mem_drop hsorted
  -- the level before the position of `b`, there and after it
  have hbefore : ∀ x, x < b.xv → levelOf (b :: bs) x = 0 := by
    intro x hx
    refine levelOf_of_lt fun c hc => ?_
    rcases List.mem_cons.1 hc with rfl | hc
    · exact hx
    · exact hx.trans_le ((List.pairwise_cons.1 hsorted).1 c hc)
  have hthere : levelOf (b :: bs) b.xv = jumpAt b bs := by
    rw [levelOf_cons, if_pos le_rfl, levelOf_of_lt hdrop, add_zero]
  have hafter : ∀ x, b.xv < x → levelOf (b :: bs) x =
      jumpAt b bs + levelOf (bs.drop (sameAs b bs).length) x := by
    intro x hx
    rw [levelOf_cons, if_pos hx.le]
  obtain ⟨hnxs, hy, hat⟩ | ⟨hnxs, hy, hat⟩ | ⟨start, hnxs, hy, hat⟩ | ⟨start, hnxs, hy, hat⟩ :=
    s.at_cases b.xv (jumpAt b bs)
  · -- a range begins here
    have hys := hopen.none hnxs
    rw [hat] at h ⊢
    refine ⟨h.separated, fun r hr => .inr ?_, fun x hx => (h.mem x hx).trans ?_⟩
    · rcases h.after r hr with ⟨start, hstart, hle⟩ | hlt
      · cases hstart
        omega
      · omega
    · simp only [hnxs, Option.some.injEq, exists_eq_left', reduceCtorEq, false_and,
        exists_false, false_or]
      rcases lt_trichotomy x b.xv with hxb | rfl | hxb
      · rw [hbefore x hxb]
        omega
      · rw [hthere]
        omega
      · rw [hafter x hxb]
        omega
  · -- nothing is under way and nothing begins
    have hys := hopen.none hnxs
    rw [hat] at h ⊢
    refine ⟨h.separated, fun r hr => .inr ?_, fun x hx => (h.mem x hx).trans ?_⟩
    · rcases h.after r hr with ⟨start, hstart, -⟩ | hlt
      · cases hstart
      · omega
    · simp only [hnxs, reduceCtorEq, false_and, exists_false, false_or]
      rcases lt_trichotomy x b.xv with hxb | rfl | hxb
      · rw [hbefore x hxb]
        omega
      · rw [hthere]
        omega
      · rw [hafter x hxb]
        omega
  · -- the range under way ends here
    obtain ⟨hstart, hys⟩ := hopen.some start hnxs
    rw [hat] at h ⊢
    have hlater : ∀ r ∈ rl, b.xv < r.1 := by
      intro r hr
      rcases h.after r hr with ⟨start', hstart', -⟩ | hlt
      · cases hstart'
      · exact hlt
    refine ⟨⟨?_, ?_⟩, ?_, ?_⟩
    · intro r hr
      rcases List.mem_cons.1 hr with rfl | hr
      · dsimp only
        split <;> omega
      · exact h.separated.proper r hr
    · refine List.pairwise_cons.2 ⟨fun r hr => ?_, h.separated.apart⟩
      have hr' := hlater r hr
      have hne : b.xv ≠ maxInt := fun hmax => by
        rw [hlast hmax] at hr
        exact absurd hr List.not_mem_nil
      rw [if_neg hne]
      omega
    · intro r hr
      rcases List.mem_cons.1 hr with rfl | hr
      · exact .inl ⟨start, hnxs, le_rfl⟩
      · have := hlater r hr
        exact .inr (by omega)
    · intro x hx
      change InRanges (_ :: rl) x ↔ _
      rw [inRanges_cons, h.mem x hx]
      simp only [hnxs, Option.some.injEq, exists_eq_left', reduceCtorEq, false_and,
        exists_false, false_or]
      have hend : x ≤ (if b.xv = maxInt then b.xv else b.xv - 1) ↔ x < b.xv := by
        split <;> omega
      rw [hend]
      rcases lt_trichotomy x b.xv with hxb | rfl | hxb
      · rw [hbefore x hxb]
        omega
      · rw [hthere]
        omega
      · rw [hafter x hxb]
        omega
  · -- the range under way goes on
    obtain ⟨hstart, hys⟩ := hopen.some start hnxs
    rw [hat] at h ⊢
    refine ⟨h.separated, fun r hr => .inl ⟨start, hnxs, ?_⟩, fun x hx => (h.mem x hx).trans ?_⟩
    · rcases h.after r hr with ⟨start', hstart', hle⟩ | hlt
      · cases hstart'
        exact hle
      · omega
    · simp only [hnxs, Option.some.injEq, exists_eq_left']
      rcases lt_trichotomy x b.xv with hxb | rfl | hxb
      · rw [hbefore x hxb]
        omega
      · rw [hthere]
        omega
      · rw [hafter x hxb]
        omega

theorem collapse_covers (fuel : Nat) (hfuel : bs.length ≤ fuel) {s : Sweep}
    (hsorted : bs.Pairwise fun b c => b.xv ≤ c.xv) (hp : ∀ b ∈ bs, p < b.xv)
    (hmax : ∀ b ∈ bs, b.xv ≤ maxInt) (hopen : s.Open p)
    (hend : s.y + (bs.map Breakpoint.sv).sum = 0) :
    s.Covers p bs (collapse fuel s bs) := by
  induction fuel generalizing bs s p with
  | zero =>
      obtain rfl := List.length_eq_zero_iff.1 (Nat.le_zero.1 hfuel)
      exact Sweep.covers_nil hopen (by simpa using hend)
  | succ fuel ih =>
      cases bs with
      | nil => exact Sweep.covers_nil hopen (by simpa using hend)
      | cons b bs =>
          have hbp := hp b List.mem_cons_self
          have hdrop := lt_of_mem_drop hsorted
          have hsub : (bs.drop (sameAs b bs).length).Sublist (b :: bs) :=
            (List.drop_sublist _ _).trans (List.sublist_cons_self b bs)
          obtain ⟨hopen', hy⟩ := Sweep.at_open hopen hbp (jumpAt b bs)
          have hsum : (bs.map Breakpoint.sv).sum = ((sameAs b bs).map Breakpoint.sv).sum +
              ((bs.drop (sameAs b bs).length).map Breakpoint.sv).sum := by
            rw [← List.sum_append, ← List.map_append, sameAs_append_drop]
          have hlen : (bs.drop (sameAs b bs).length).length ≤ fuel := by
            rw [List.length_cons] at hfuel
            rw [List.length_drop]
            omega
          have hcovers := ih hlen (hsorted.sublist hsub) hdrop
            (fun c hc => hmax c (hsub.subset hc)) hopen' (by
              rw [List.map_cons, List.sum_cons, hsum] at hend
              rw [hy, jumpAt]
              omega)
          refine hcovers.step hopen hbp (hmax b List.mem_cons_self) hsorted ?_
          -- nothing follows the largest position
          intro hbmax
          cases hrest : bs.drop (sameAs b bs).length with
          | nil =>
              change collapse fuel _ (bs.drop (sameAs b bs).length) = []
              rw [hrest]
              cases fuel <;> rfl
          | cons c cs =>
              have hc := hdrop c (hrest ▸ List.mem_cons_self)
              have := hmax c (hsub.subset (hrest ▸ List.mem_cons_self))
              omega

theorem collapse_sorted {list : List Breakpoint} (hmin : ∀ b ∈ list, -maxInt ≤ b.xv)
    (hmax : ∀ b ∈ list, b.xv ≤ maxInt) (hsum : (list.map Breakpoint.sv).sum = 0) :
    let sorted := sortBreakpoints list.length list
    Separated (collapse sorted.length ⟨0, none⟩ sorted) ∧
      ∀ x, -maxInt ≤ x → x < maxInt →
        (InRanges (collapse sorted.length ⟨0, none⟩ sorted) x ↔ 0 < levelOf list x) := by
  intro sorted
  have hperm : sorted.Perm list := sortBreakpoints_perm list.length
  have hcovers := collapse_covers sorted.length le_rfl
    (sortBreakpoints_sorted list.length le_rfl) (p := -maxInt - 1)
    (fun b hb => by have := hmin b (hperm.subset hb); omega)
    (fun b hb => hmax b (hperm.subset hb))
    (s := ⟨0, none⟩) ⟨by simp, fun _ => le_rfl⟩
    (by rw [(hperm.map Breakpoint.sv).sum_eq, hsum]; rfl)
  refine ⟨hcovers.separated, fun x hx hxmax => (hcovers.mem x hxmax).trans ?_⟩
  rw [levelOf, level_perm (hperm.map Breakpoint.jump), ← levelOf]
  simp only [reduceCtorEq, false_and, exists_false, false_or, zero_add]
  constructor
  · exact fun h => h.2
  · exact fun h => ⟨by omega, h⟩

end Iraf.Qpoe
