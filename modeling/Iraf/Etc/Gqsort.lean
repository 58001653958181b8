import Mathlib.Tactic.Linarith
import Iraf.Lib.Rearrangement

/-!
# General quicksort

`gqsort` and `qsort` on an array of integers, with their stack of subfiles.

The array is in order except inside of the subfiles on the stack, and a subfile has at most half the
elements of the bound for the one below it.
-/

namespace Iraf.Sort

open Cells

abbrev logptr : Nat := 32

inductive Fault
  /-- An element outside of the array. -/
  | outOfBounds
  /-- More subfiles than the stack has entries. -/
  | stackOverflow
  /-- A loop that does not end. -/
  | endless
  deriving DecidableEq, Repr

def elem (x : Memory Int) (nelem i : Int) : Except Fault Int :=
  if 1 ≤ i ∧ i ≤ nelem then .ok (x i) else .error .outOfBounds

def swapElems (x : Memory Int) (nelem i j : Int) : Except Fault (Memory Int) :=
  if (1 ≤ i ∧ i ≤ nelem) ∧ 1 ≤ j ∧ j ≤ nelem then .ok (swap x i j) else .error .outOfBounds

/-- `for (i=i+1; compare (arg, x[i], pivot) < 0; i=i+1)`, from the second `i` on. -/
def scanUp (compare : Int → Int → Int) (x : Memory Int) (nelem pivot : Int) :
    Nat → Int → Except Fault Int
  | 0, _ => .error .endless
  | fuel + 1, i => do
      let xi ← elem x nelem i
      if compare xi pivot < 0 then scanUp compare x nelem pivot fuel (i + 1) else .ok i

/-- `for (j=j-1; j > i; j=j-1)`, from the second `j` on. -/
def scanDown (compare : Int → Int → Int) (x : Memory Int) (nelem pivot i : Int) :
    Nat → Int → Except Fault Int
  | 0, _ => .error .endless
  | fuel + 1, j =>
      if j > i then do
        let xj ← elem x nelem j
        if compare xj pivot ≤ 0 then .ok j else scanDown compare x nelem pivot i fuel (j - 1)
      else .ok j

/-- The array is partitioned between `i` and `j`; the place of the pivot is returned. -/
def partitionLoop (compare : Int → Int → Int) (nelem pivot : Int) :
    Nat → Memory Int → Int → Int → Except Fault (Memory Int × Int)
  | 0, _, _, _ => .error .endless
  | fuel + 1, x, i, j =>
      if i < j then do
        let i ← scanUp compare x nelem pivot (nelem.toNat + 1) (i + 1)
        let j ← scanDown compare x nelem pivot i (nelem.toNat + 1) (j - 1)
        if i < j then do
          let x ← swapElems x nelem i j
          partitionLoop compare nelem pivot fuel x i j
        else partitionLoop compare nelem pivot fuel x i j
      else .ok (x, i)

/-- A subfile is partitioned about the element at its center. -/
def partitionSubfile (compare : Int → Int → Int) (nelem : Int) (x : Memory Int) (lv uv : Int) :
    Except Fault (Memory Int × Int) := do
  let x ← swapElems x nelem uv ((lv + uv).tdiv 2)
  let pivot ← elem x nelem uv
  let r ← partitionLoop compare nelem pivot (nelem.toNat + 2) x (lv - 1) uv
  let x ← swapElems r.1 nelem r.2 uv
  .ok (x, r.2)

/-- The subfiles to either side of the pivot, so that the shorter one is done first. -/
def stackSubfiles (lv uv i : Int) (rest : List (Int × Int)) : List (Int × Int) :=
  if i - lv < uv - i then (lv, i - 1) :: (i + 1, uv) :: rest
  else (i + 1, uv) :: (lv, i - 1) :: rest

/-- The last subfile of the stack comes first. -/
def sortLoop (compare : Int → Int → Int) (nelem : Int) :
    Nat → Memory Int → List (Int × Int) → Except Fault (Memory Int)
  | 0, _, _ => .error .endless
  | _ + 1, x, [] => .ok x
  | fuel + 1, x, (lv, uv) :: rest =>
      if lv ≥ uv then sortLoop compare nelem fuel x rest
      else do
        let r ← partitionSubfile compare nelem x lv uv
        if rest.length + 2 > logptr then .error .stackOverflow
        else sortLoop compare nelem fuel r.1 (stackSubfiles lv uv r.2 rest)

def gqsort {Arg : Type} (x : Memory Int) (nelem : Int) (compare : Arg → Int → Int → Int)
    (arg : Arg) : Except Fault (Memory Int) :=
  sortLoop (compare arg) nelem (2 * nelem.toNat + 2) x [(1, nelem)]

def qsort (x : Memory Int) (nelem : Int) (compare : Int → Int → Int) : Except Fault (Memory Int) :=
  sortLoop compare nelem (2 * nelem.toNat + 2) x [(1, nelem)]

/-- A comparison that puts all objects in order; equal ones may be different. -/
structure TotalPreorder (compare : Int → Int → Int) : Prop where
  swap : ∀ a b, compare a b < 0 ↔ 0 < compare b a
  trans : ∀ a b c, compare a b ≤ 0 → compare b c ≤ 0 → compare a c ≤ 0

/-- The first elements of an array are put in order, and nothing else is touched. -/
structure Sorts (compare : Int → Int → Int) (nelem : Int) (x x' : Memory Int) : Prop where
  perm : (fetch x' 1 nelem.toNat).Perm (fetch x 1 nelem.toNat)
  sorted : ∀ a b, 1 ≤ a → a ≤ b → b ≤ nelem → compare (x' a) (x' b) ≤ 0
  outside : ∀ a, a < 1 ∨ nelem < a → x' a = x a

/-! ## What quicksort leaves -/

variable {compare : Int → Int → Int} {x x₀ x' : Memory Int} {nelem pivot i j lo hi lv uv : Int}
  {fuel : Nat} {stack rest : List (Int × Int)}

/-! ## Comparisons -/

theorem TotalPreorder.le_of_not_lt (h : TotalPreorder compare) {a b : Int}
    (hab : ¬ compare a b < 0) : compare b a ≤ 0 := not_lt.mp (mt (h.swap a b).mpr hab)

theorem TotalPreorder.not_lt_of_le (h : TotalPreorder compare) {a b : Int}
    (hab : compare a b ≤ 0) : ¬ compare b a < 0 := mt (h.swap b a).mp (not_lt.mpr hab)

theorem TotalPreorder.le_of_not_le (h : TotalPreorder compare) {a b : Int}
    (hab : ¬ compare a b ≤ 0) : compare b a ≤ 0 :=
  le_of_lt ((h.swap b a).mpr (not_le.mp hab))

theorem TotalPreorder.refl (h : TotalPreorder compare) (a : Int) : compare a a ≤ 0 := by
  by_contra hpos
  exact hpos (h.le_of_not_le hpos)

/-! ## The scans -/

theorem scanUp_spec (hi : 1 ≤ i) (hij : i ≤ j) (hj : j ≤ nelem)
    (hstop : ¬ compare (x j) pivot < 0) (hfuel : (j - i).toNat < fuel) :
    ∃ i', scanUp compare x nelem pivot fuel i = .ok i' ∧ i ≤ i' ∧ i' ≤ j ∧
      (∀ a, i ≤ a → a < i' → compare (x a) pivot < 0) ∧ ¬ compare (x i') pivot < 0 := by
  induction fuel generalizing i with
  | zero => omega
  | succ fuel ih =>
      have helem : elem x nelem i = .ok (x i) := if_pos ⟨hi, hij.trans hj⟩
      rw [scanUp, helem]
      by_cases hlt : compare (x i) pivot < 0
      · have hne : i ≠ j := fun heq => hstop (heq ▸ hlt)
        obtain ⟨i', hscan, hle, hle', hbelow, hat⟩ := @ih (i + 1) (by omega) (by omega) (by omega)
        refine ⟨i', (if_pos hlt).trans hscan, by omega, hle', fun a ha hai => ?_, hat⟩
        rcases ha.eq_or_lt with rfl | hlt'
        · exact hlt
        · exact hbelow a hlt' hai
      · exact ⟨i, if_neg hlt, le_rfl, hij, fun a ha hai => by omega, hlt⟩

/-- The second scan passes elements above the pivot, down to where the first scan stopped. -/
theorem scanDown_spec (hi : 1 ≤ i) (hj : j ≤ nelem) (hfuel : (j - i).toNat < fuel) :
    ∃ j', scanDown compare x nelem pivot i fuel j = .ok j' ∧ j' ≤ j ∧
      (i < j' → compare (x j') pivot ≤ 0) ∧
      ∀ a, i < a → j' < a → a ≤ j → ¬ compare (x a) pivot ≤ 0 := by
  induction fuel generalizing j with
  | zero => omega
  | succ fuel ih =>
      rw [scanDown]
      by_cases hij : j > i
      · have helem : elem x nelem j = .ok (x j) := if_pos ⟨by omega, hj⟩
        rw [if_pos hij, helem]
        by_cases hle : compare (x j) pivot ≤ 0
        · exact ⟨j, if_pos hle, le_rfl, fun _ => hle, fun a _ hja haj => by omega⟩
        · obtain ⟨j', hscan, hle', hat, habove⟩ := @ih (j - 1) (by omega) (by omega)
          refine ⟨j', (if_neg hle).trans hscan, by omega, hat, fun a hia hja haj => ?_⟩
          rcases haj.eq_or_lt with rfl | hlt
          · exact hle
          · exact habove a hia hja (by omega)
      · rw [if_neg hij]
        exact ⟨j, rfl, le_rfl, fun h => absurd h hij, fun a hia hja haj => by omega⟩

/-! ## Partitioning -/

/-- Up to `i` nothing is above the pivot, and from `j` on nothing is below it. -/
structure Split (compare : Int → Int → Int) (x : Memory Int) (pivot lo hi i j : Int) : Prop where
  pivot_at : x hi = pivot
  low : ∀ a, lo ≤ a → a ≤ i → compare (x a) pivot ≤ 0
  high : ∀ a, j ≤ a → a ≤ hi → compare pivot (x a) ≤ 0

theorem Split.exchange (hcmp : TotalPreorder compare) {i' j' : Int}
    (h : Split compare x pivot lo hi i j) (hj : j ≤ hi) (hii : i < i') (hij : i' < j')
    (hjj : j' < j) (hbelow : ∀ a, i + 1 ≤ a → a < i' → compare (x a) pivot < 0)
    (hi' : ¬ compare (x i') pivot < 0) (hj' : compare (x j') pivot ≤ 0)
    (habove : ∀ a, i' < a → j' < a → a ≤ j - 1 → ¬ compare (x a) pivot ≤ 0) :
    Split compare (swap x i' j') pivot lo hi i' j' := by
  constructor
  · rw [swap_of_ne (by omega) (by omega)]
    exact h.pivot_at
  · intro a hlo ha
    rcases ha.eq_or_lt with rfl | hlt
    · rw [swap_left]
      exact hj'
    · rw [swap_of_ne (by omega) (by omega)]
      by_cases hai : a ≤ i
      · exact h.low a hlo hai
      · exact le_of_lt (hbelow a (by omega) hlt)
  · intro a ha hhi
    rcases ha.eq_or_lt with rfl | hlt
    · rw [swap_right]
      exact hcmp.le_of_not_lt hi'
    · rw [swap_of_ne (by omega) (by omega)]
      by_cases haj : j ≤ a
      · exact h.high a haj hhi
      · exact hcmp.le_of_not_le (habove a (by omega) hlt (by omega))

/-- The scans meet, and the place where the first one stopped is the place of the pivot. -/
theorem partitionLoop_spec (hcmp : TotalPreorder compare) (hlo : 1 ≤ lo) (hhi : hi ≤ nelem)
    (hi' : lo - 1 ≤ i) (hij : i < j) (hj : j ≤ hi) (h : Split compare x pivot lo hi i j)
    (hfuel : (j - i).toNat + 1 ≤ fuel) :
    ∃ x' k, partitionLoop compare nelem pivot fuel x i j = .ok (x', k) ∧ Rearranged lo hi x x' ∧
      lo ≤ k ∧ k ≤ hi ∧ Split compare x' pivot lo hi (k - 1) k := by
  induction fuel generalizing x i j with
  | zero => omega
  | succ fuel ih =>
      have hstop := hcmp.not_lt_of_le (h.high j le_rfl hj)
      obtain ⟨i', hup, hii, hij', hbelow, hat⟩ :=
        @scanUp_spec compare x nelem pivot (i + 1) j (nelem.toNat + 1) (by omega) (by omega)
          (by omega) hstop (by omega)
      obtain ⟨j', hdown, hjj, hle, habove⟩ :=
        @scanDown_spec compare x nelem pivot i' (j - 1) (nelem.toNat + 1) (by omega) (by omega)
          (by omega)
      rw [partitionLoop, if_pos hij, hup]
      change ∃ x' k, (scanDown compare x nelem pivot i' (nelem.toNat + 1) (j - 1) >>= fun j =>
        if i' < j then swapElems x nelem i' j >>= fun x =>
          partitionLoop compare nelem pivot fuel x i' j
        else partitionLoop compare nelem pivot fuel x i' j) = _ ∧ _
      rw [hdown]
      by_cases hlt : i' < j'
      · have hswap : swapElems x nelem i' j' = .ok (swap x i' j') :=
          if_pos ⟨⟨by omega, by omega⟩, by omega, by omega⟩
        have hsplit := h.exchange hcmp hj (by omega) hlt (by omega) hbelow hat (hle hlt) habove
        obtain ⟨x', k, hloop, hrearranged, hk⟩ := ih (by omega) hlt (by omega) hsplit (by omega)
        refine ⟨x', k, ?_, (rearranged_swap x (by omega) (by omega)).trans hrearranged, hk⟩
        refine (if_pos hlt).trans ?_
        rw [hswap]
        exact hloop
      · obtain ⟨fuel, rfl⟩ : ∃ n, fuel = n + 1 := ⟨fuel - 1, by omega⟩
        refine ⟨x, i', (if_neg hlt).trans ?_, Rearranged.refl _ _ _, by omega, by omega,
          h.pivot_at, fun a hla ha => ?_, fun a ha hah => ?_⟩
        · rw [partitionLoop, if_neg hlt]
        · by_cases hai : a ≤ i
          · exact h.low a hla hai
          · exact le_of_lt (hbelow a (by omega) (by omega))
        · rcases ha.eq_or_lt with rfl | hlt'
          · exact hcmp.le_of_not_lt hat
          · by_cases haj : j ≤ a
            · exact h.high a haj hah
            · exact hcmp.le_of_not_le (habove a hlt' (by omega) (by omega))

/-- A subfile is permuted so that its elements are in order with the one at the pivot's place. -/
theorem partitionSubfile_spec (hcmp : TotalPreorder compare) (hlv : 1 ≤ lv) (hlt : lv < uv)
    (huv : uv ≤ nelem) :
    ∃ x' k, partitionSubfile compare nelem x lv uv = .ok (x', k) ∧ Rearranged lv uv x x' ∧
      lv ≤ k ∧ k ≤ uv ∧ (∀ a, lv ≤ a → a < k → compare (x' a) (x' k) ≤ 0) ∧
      ∀ a, k < a → a ≤ uv → compare (x' k) (x' a) ≤ 0 := by
  have hcenter : (lv + uv).tdiv 2 = (lv + uv) / 2 := Int.tdiv_eq_ediv_of_nonneg (by omega)
  have hfirst : swapElems x nelem uv ((lv + uv).tdiv 2) = .ok (swap x uv ((lv + uv) / 2)) := by
    rw [hcenter]
    exact if_pos ⟨⟨by omega, huv⟩, by omega, by omega⟩
  have hpivot : elem (swap x uv ((lv + uv) / 2)) nelem uv = .ok (swap x uv ((lv + uv) / 2) uv) :=
    if_pos ⟨by omega, huv⟩
  generalize hx₁ : swap x uv ((lv + uv) / 2) = x₁ at hfirst hpivot
  have hrearranged : Rearranged lv uv x x₁ :=
    hx₁ ▸ rearranged_swap x (by omega) (by omega)
  have hsplit : Split compare x₁ (x₁ uv) lv uv (lv - 1) uv := by
    refine ⟨rfl, fun a ha hai => by omega, fun a ha hau => ?_⟩
    rw [show a = uv by omega]
    exact hcmp.refl _
  obtain ⟨x₂, k, hloop, hrearranged', hk, hk', hsplit'⟩ := partitionLoop_spec hcmp hlv huv
    le_rfl (by omega) le_rfl hsplit (show (uv - (lv - 1)).toNat + 1 ≤ nelem.toNat + 2 by omega)
  have hlast : swapElems x₂ nelem k uv = .ok (swap x₂ k uv) :=
    if_pos ⟨⟨by omega, by omega⟩, by omega, huv⟩
  refine ⟨swap x₂ k uv, k, ?_, (hrearranged.trans hrearranged').trans
    (rearranged_swap x₂ (by omega) (by omega)), hk, hk', fun a hla hak => ?_, fun a hka hau => ?_⟩
  · rw [partitionSubfile, hfirst]
    change (elem x₁ nelem uv >>= fun pivot =>
      partitionLoop compare nelem pivot (nelem.toNat + 2) x₁ (lv - 1) uv >>= fun r =>
        swapElems r.1 nelem r.2 uv >>= fun x => Except.ok (x, r.2)) = _
    rw [hpivot]
    change (partitionLoop compare nelem (x₁ uv) (nelem.toNat + 2) x₁ (lv - 1) uv >>= fun r =>
        swapElems r.1 nelem r.2 uv >>= fun x => Except.ok (x, r.2)) = _
    rw [hloop]
    exact congrArg (· >>= fun x => Except.ok (x, k)) hlast
  · rw [swap_left, hsplit'.pivot_at, swap_of_ne (by omega) (by omega)]
    exact hsplit'.low a hla (by omega)
  · rw [swap_left, hsplit'.pivot_at]
    by_cases hend : a = uv
    · rw [hend, swap_right]
      exact hsplit'.high k le_rfl hk'
    · rw [swap_of_ne (by omega) hend]
      exact hsplit'.high a hka.le hau

/-! ## The stack of subfiles -/

/-- Elements are in order, except for pairs inside of a subfile of the stack. -/
def SortedBut (compare : Int → Int → Int) (nelem : Int) (x : Memory Int)
    (stack : List (Int × Int)) : Prop :=
  ∀ a b, 1 ≤ a → a < b → b ≤ nelem → (∀ f ∈ stack, ¬ (f.1 ≤ a ∧ b ≤ f.2)) →
    compare (x a) (x b) ≤ 0

/-- A subfile has at most half the elements that the one below it may have. -/
def Halved (nelem : Int) : List (Int × Int) → Prop
  | [] => True
  | f :: rest => (f.2 - f.1 + 1) * 2 ^ rest.length ≤ nelem ∧ Halved nelem rest

def Apart (f g : Int × Int) : Prop := f.2 < g.1 ∨ g.2 < f.1

structure Pending (compare : Int → Int → Int) (nelem : Int) (x₀ x : Memory Int)
    (stack : List (Int × Int)) : Prop where
  rearranged : Rearranged 1 nelem x₀ x
  inside : ∀ f ∈ stack, 1 ≤ f.1 ∧ f.2 ≤ nelem
  apart : stack.Pairwise Apart
  sorted : SortedBut compare nelem x stack
  halved : Halved nelem stack

/-- A bound for what is left to do. -/
def weight (stack : List (Int × Int)) : Nat :=
  (stack.map fun f => 2 * (f.2 - f.1 + 1).toNat + 1).sum

theorem Pending.pop (h : Pending compare nelem x₀ x ((lv, uv) :: rest)) (hshort : uv ≤ lv) :
    Pending compare nelem x₀ x rest := by
  refine ⟨h.rearranged, fun f hf => h.inside f (List.mem_cons_of_mem _ hf),
    (List.pairwise_cons.mp h.apart).2, fun a b ha hab hb hout => ?_, h.halved.2⟩
  refine h.sorted a b ha hab hb (List.forall_mem_cons.mpr ⟨fun hin => ?_, hout⟩)
  simp only at hin
  omega

/-- After the partition two elements are in order unless they are on the same side of the pivot. -/
theorem Pending.sorted_partition (hcmp : TotalPreorder compare)
    (h : Pending compare nelem x₀ x ((lv, uv) :: rest)) {k : Int}
    (hrearranged : Rearranged lv uv x x')
    (hlow : ∀ a, lv ≤ a → a < k → compare (x' a) (x' k) ≤ 0)
    (hhigh : ∀ a, k < a → a ≤ uv → compare (x' k) (x' a) ≤ 0) {a b : Int} (ha : 1 ≤ a)
    (hab : a < b) (hb : b ≤ nelem) (hleft : ¬ (lv ≤ a ∧ b ≤ k - 1)) (hright : ¬ (k + 1 ≤ a ∧ b ≤ uv))
    (hrest : ∀ f ∈ rest, ¬ (f.1 ≤ a ∧ b ≤ f.2)) : compare (x' a) (x' b) ≤ 0 := by
  have hapart := (List.pairwise_cons.mp h.apart).1
  have hbounds := h.inside _ List.mem_cons_self
  simp only at hbounds
  by_cases hain : lv ≤ a ∧ a ≤ uv
  · by_cases hbin : b ≤ uv
    · -- both elements are in the subfile, with the pivot between them
      rcases lt_trichotomy a k with hak | rfl | hak
      · rcases lt_trichotomy b k with hbk | rfl | hbk
        · omega
        · exact hlow a hain.1 hak
        · exact hcmp.trans _ _ _ (hlow a hain.1 hak) (hhigh b hbk hbin)
      · exact hhigh b hab hbin
      · omega
    · obtain ⟨a', ha', heq⟩ := hrearranged.inside hain
      rw [heq, hrearranged.outside (Or.inr (not_le.mp hbin))]
      refine h.sorted a' b (by omega) (by omega) hb (List.forall_mem_cons.mpr
        ⟨fun hin => hbin hin.2, fun f hf hin => ?_⟩)
      have := hapart f hf
      simp only [Apart] at this
      omega
  · rw [hrearranged.outside (by omega : a < lv ∨ uv < a)]
    by_cases hbin : lv ≤ b ∧ b ≤ uv
    · obtain ⟨b', hb', heq⟩ := hrearranged.inside hbin
      rw [heq]
      refine h.sorted a b' ha (by omega) (by omega) (List.forall_mem_cons.mpr
        ⟨fun hin => ?_, fun f hf hin => ?_⟩)
      · simp only at hin
        omega
      · have := hapart f hf
        simp only [Apart] at this
        omega
    · rw [hrearranged.outside (by omega : b < lv ∨ uv < b)]
      refine h.sorted a b ha hab hb (List.forall_mem_cons.mpr ⟨fun hin => ?_, hrest⟩)
      simp only at hin
      omega

theorem Pending.push (h : Pending compare nelem x₀ x ((lv, uv) :: rest)) {f g : Int × Int}
    (hrearranged : Rearranged lv uv x x') (hf : lv ≤ f.1 ∧ f.2 ≤ uv) (hg : lv ≤ g.1 ∧ g.2 ≤ uv)
    (hfg : Apart f g) (hlen : 2 * (f.2 - f.1 + 1) ≤ uv - lv + 1)
    (hsorted : SortedBut compare nelem x' (f :: g :: rest)) :
    Pending compare nelem x₀ x' (f :: g :: rest) := by
  obtain ⟨hapart, hrest⟩ := List.pairwise_cons.mp h.apart
  have hbounds := h.inside _ List.mem_cons_self
  simp only at hbounds
  have hpow : (0 : Int) < 2 ^ rest.length := by positivity
  have hhalved := h.halved.1
  simp only at hhalved
  refine ⟨h.rearranged.trans (hrearranged.mono hbounds.1 hbounds.2), ?_, ?_, hsorted, ?_, ?_,
    h.halved.2⟩
  · refine List.forall_mem_cons.mpr ⟨by omega, List.forall_mem_cons.mpr ⟨by omega, fun f hf => ?_⟩⟩
    exact h.inside f (List.mem_cons_of_mem _ hf)
  · refine List.pairwise_cons.mpr ⟨List.forall_mem_cons.mpr ⟨hfg, fun f' hf' => ?_⟩,
      List.pairwise_cons.mpr ⟨fun f' hf' => ?_, hrest⟩⟩
    · have := hapart f' hf'
      simp only [Apart] at this ⊢
      omega
    · have := hapart f' hf'
      simp only [Apart] at this ⊢
      omega
  · rw [List.length_cons, pow_succ]
    nlinarith
  · nlinarith

theorem Pending.step (hcmp : TotalPreorder compare)
    (h : Pending compare nelem x₀ x ((lv, uv) :: rest)) (hlt : lv < uv) :
    ∃ x' k, partitionSubfile compare nelem x lv uv = .ok (x', k) ∧
      Pending compare nelem x₀ x' (stackSubfiles lv uv k rest) ∧
      weight (stackSubfiles lv uv k rest) < weight ((lv, uv) :: rest) := by
  have hbounds := h.inside _ List.mem_cons_self
  simp only at hbounds
  obtain ⟨x', k, hpart, hrearranged, hk, hk', hlow, hhigh⟩ :=
    partitionSubfile_spec (x := x) hcmp hbounds.1 hlt hbounds.2
  have hsorted := fun a b ha hab hb => h.sorted_partition (a := a) (b := b) hcmp hrearranged hlow
    hhigh ha hab hb
  refine ⟨x', k, hpart, ?_, ?_⟩
  · unfold stackSubfiles
    split
    · refine h.push hrearranged ⟨le_rfl, by omega⟩ ⟨by omega, le_rfl⟩ (Or.inl (by simp only; omega))
        (by simp only; omega) fun a b ha hab hb hout => ?_
      obtain ⟨hleft, hout⟩ := List.forall_mem_cons.mp hout
      obtain ⟨hright, hrest⟩ := List.forall_mem_cons.mp hout
      exact hsorted a b ha hab hb hleft hright hrest
    · refine h.push hrearranged ⟨by omega, le_rfl⟩ ⟨le_rfl, by omega⟩ (Or.inr (by simp only; omega))
        (by simp only; omega) fun a b ha hab hb hout => ?_
      obtain ⟨hright, hout⟩ := List.forall_mem_cons.mp hout
      obtain ⟨hleft, hrest⟩ := List.forall_mem_cons.mp hout
      exact hsorted a b ha hab hb hleft hright hrest
  · unfold stackSubfiles weight
    split <;> simp only [List.map_cons, List.sum_cons] <;> omega

theorem Halved.depth (h : Halved nelem ((lv, uv) :: rest)) (hlt : lv < uv) (hn : nelem < 2 ^ 31) :
    rest.length + 2 ≤ logptr := by
  have hsize := h.1
  simp only at hsize
  have hpow : (0 : Int) < 2 ^ rest.length := by positivity
  have hdouble : (2 : Int) ^ (rest.length + 1) < 2 ^ 31 := by
    rw [pow_succ]
    nlinarith
  have hlt : rest.length + 1 < 31 := by
    by_contra hge
    have := pow_le_pow_right₀ (by decide : (1 : Int) ≤ 2) (not_lt.mp hge)
    omega
  simp only [logptr]
  omega

theorem sortLoop_spec (hcmp : TotalPreorder compare) (hn : nelem < 2 ^ 31)
    (h : Pending compare nelem x₀ x stack) (hfuel : weight stack < fuel) :
    ∃ x', sortLoop compare nelem fuel x stack = .ok x' ∧ Pending compare nelem x₀ x' [] := by
  induction fuel generalizing x stack with
  | zero => omega
  | succ fuel ih =>
      cases stack with
      | nil => exact ⟨x, rfl, h⟩
      | cons f rest =>
          obtain ⟨lv, uv⟩ := f
          by_cases hlt : lv < uv
          · obtain ⟨x', k, hpart, hpending, hweight⟩ := h.step hcmp hlt
            obtain ⟨x'', hloop, hdone⟩ := ih hpending (by omega)
            refine ⟨x'', ?_, hdone⟩
            have hroom := h.halved.depth hlt hn
            rw [sortLoop, if_neg (not_le.mpr hlt), hpart]
            exact (if_neg (not_lt.mpr hroom)).trans hloop
          · have hweight : weight rest < weight ((lv, uv) :: rest) := by
              unfold weight
              rw [List.map_cons, List.sum_cons]
              omega
            obtain ⟨x', hloop, hdone⟩ := ih (h.pop (not_lt.mp hlt)) (by omega)
            refine ⟨x', ?_, hdone⟩
            rw [sortLoop, if_pos (not_lt.mp hlt)]
            exact hloop

/-! ## Sorting -/

theorem Pending.sorts (hcmp : TotalPreorder compare) (h : Pending compare nelem x₀ x []) :
    Sorts compare nelem x₀ x := by
  refine ⟨?_, fun a b ha hab hb => ?_, fun a ha => h.rearranged.outside ha⟩
  · by_cases hn : 0 ≤ nelem
    · have heq : nelem = 1 + (nelem.toNat : Int) - 1 := by omega
      have hrearranged := h.rearranged
      rw [heq] at hrearranged
      exact hrearranged.perm_fetch
    · rw [Int.toNat_of_nonpos (by omega)]
      exact List.Perm.refl _
  · rcases hab.eq_or_lt with rfl | hlt
    · exact hcmp.refl _
    · exact h.sorted a b ha hlt hb nofun

theorem sortLoop_sorts (hcmp : TotalPreorder compare) (hn : nelem < 2 ^ 31) (x : Memory Int) :
    ∃ x', sortLoop compare nelem (2 * nelem.toNat + 2) x [(1, nelem)] = .ok x' ∧
      Sorts compare nelem x x' := by
  have hpending : Pending compare nelem x x [(1, nelem)] := by
    refine ⟨Rearranged.refl _ _ _, ?_, List.pairwise_singleton _ _, fun a b ha hab hb hout => ?_,
      ?_, trivial⟩
    · exact List.forall_mem_singleton.mpr ⟨le_rfl, le_rfl⟩
    · exact absurd ⟨ha, hb⟩ (hout _ List.mem_cons_self)
    · simp
  have hweight : weight [(1, nelem)] < 2 * nelem.toNat + 2 := by
    unfold weight
    simp
  obtain ⟨x', hloop, hdone⟩ := sortLoop_spec hcmp hn hpending hweight
  exact ⟨x', hloop, hdone.sorts hcmp⟩

/-- Both quicksorts put an array in order, inside of its bounds and those of their stack. -/
theorem gqsort_sorts {Arg : Type} {compare : Arg → Int → Int → Int} {arg : Arg}
    (hcmp : TotalPreorder (compare arg)) (hn : nelem < 2 ^ 31) (x : Memory Int) :
    (∃ x', gqsort x nelem compare arg = .ok x' ∧ Sorts (compare arg) nelem x x') ∧
      ∃ x', qsort x nelem (compare arg) = .ok x' ∧ Sorts (compare arg) nelem x x' :=
  ⟨sortLoop_sorts hcmp hn x, sortLoop_sorts hcmp hn x⟩

theorem totalPreorder_sub : TotalPreorder fun a b => a - b :=
  ⟨fun a b => by omega, fun a b c => by omega⟩

theorem gqsort_sorts_three : (∃ x', gqsort (put (fun _ => 0) 1 [3, 1, 2]) 3
    (fun _ : Unit => fun a b => a - b) () = .ok x' ∧
      Sorts (fun a b => a - b) 3 (put (fun _ => 0) 1 [3, 1, 2]) x') ∧
    ∃ x', qsort (put (fun _ => 0) 1 [3, 1, 2]) 3 (fun a b => a - b) = .ok x' ∧
      Sorts (fun a b => a - b) 3 (put (fun _ => 0) 1 [3, 1, 2]) x' :=
  @gqsort_sorts 3 Unit (fun _ a b => a - b) () totalPreorder_sub (by decide) _

example : (qsort (put (fun _ => 0) 1 [3, 1, 2]) 3 fun a b => a - b).map (fetch · 1 3) =
    .ok [1, 2, 3] := by decide

end Iraf.Sort
