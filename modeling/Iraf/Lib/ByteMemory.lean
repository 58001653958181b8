import Mathlib.Data.Int.Order.Basic
import Mathlib.Tactic.Common

/-!
# Bytes in memory

A memory holds a byte at every address.  What a loop over bytes leaves behind is
described by `splice`: a block of bytes is replaced, and the rest is unchanged.
-/

namespace Iraf.ByteMemory

abbrev Byte := Fin 256

instance byteModulusNeZero : @NeZero Nat Zero.ofOfNat0 256 := ⟨Nat.succ_ne_zero 255⟩

abbrev Memory := Int → Byte

def store (m : Memory) (a : Int) (b : Byte) : Memory :=
  fun x => if x = a then b else m x

/-- The `n` bytes from `dst` on are replaced. -/
def splice (m : Memory) (dst : Int) (n : Nat) (f : Nat → Byte) : Memory :=
  fun x => if dst ≤ x ∧ x < dst + n then f (x - dst).toNat else m x

/-- Two blocks of `p` and `q` bytes have no byte in common. -/
def Apart (a : Int) (p : Nat) (b : Int) (q : Nat) : Prop :=
  a + p ≤ b ∨ b + q ≤ a

/-! ## Loops over bytes -/

/-- `*op++ = *ip++`, `n` times. -/
def moveUp : Nat → Memory → Int → Int → Memory
  | 0, m, _, _ => m
  | n + 1, m, src, dst => moveUp n (store m dst (m src)) (src + 1) (dst + 1)

/-- The same bytes, the last one first. -/
def moveDown : Nat → Memory → Int → Int → Memory
  | 0, m, _, _ => m
  | n + 1, m, src, dst => moveDown n (store m (dst + n) (m (src + n))) src dst

/-- Groups of `k` bytes are read, and written in the opposite order. -/
def swapGroups (k : Nat) : Nat → Memory → Int → Int → Memory
  | 0, m, _, _ => m
  | n + 1, m, src, dst =>
      swapGroups k n (splice m dst k fun j => m (src + (k - 1 - j : Nat)))
        (src + k) (dst + k)

/-- The place of byte `j` after its group of `k` bytes is turned around. -/
def reflect (k j : Nat) : Nat := j / k * k + (k - 1 - j % k)

/-! ## Blocks -/

variable {m : Memory} {a src dst : Int} {n k : Nat} {f g : Nat → Byte}

theorem splice_of_mem {x : Int} (h1 : dst ≤ x) (h2 : x < dst + n) :
    splice m dst n f x = f (x - dst).toNat := if_pos ⟨h1, h2⟩

theorem splice_of_not_mem {x : Int} (h : x < dst ∨ dst + n ≤ x) :
    splice m dst n f x = m x := if_neg (by omega)

theorem splice_add {j : Nat} (hj : j < n) :
    splice m dst n f (dst + j) = f j := by
  rw [splice_of_mem (by omega) (by omega)]
  congr 1
  omega

@[simp] theorem splice_zero : splice m dst 0 f = m := by
  funext x
  exact splice_of_not_mem (by omega)

theorem splice_congr (h : ∀ j < n, f j = g j) :
    splice m dst n f = splice m dst n g := by
  funext x
  by_cases hx : dst ≤ x ∧ x < dst + n
  · rw [splice_of_mem hx.1 hx.2, splice_of_mem hx.1 hx.2]
    exact h _ (by omega)
  · rw [splice_of_not_mem (by omega), splice_of_not_mem (by omega)]

theorem splice_self (h : ∀ j < n, f j = m (dst + j)) :
    splice m dst n f = m := by
  funext x
  by_cases hx : dst ≤ x ∧ x < dst + n
  · rw [splice_of_mem hx.1 hx.2, h _ (by omega)]
    congr 1
    omega
  · exact splice_of_not_mem (by omega)

theorem splice_append {p : Nat} :
    splice (splice m dst p f) (dst + p) n g =
      splice m dst (p + n) fun j => if j < p then f j else g (j - p) := by
  funext x
  rcases Int.lt_or_le x (dst + p) with hlt | hge
  · rw [splice_of_not_mem (.inl hlt)]
    by_cases hx : dst ≤ x
    · rw [splice_of_mem hx hlt, splice_of_mem hx (by omega), if_pos (by omega)]
    · rw [splice_of_not_mem (by omega), splice_of_not_mem (by omega)]
  · by_cases hx : x < dst + p + n
    · rw [splice_of_mem hge hx, splice_of_mem (by omega) (by omega),
        if_neg (by omega)]
      congr 1
      omega
    · rw [splice_of_not_mem (by omega), splice_of_not_mem (by omega),
        splice_of_not_mem (by omega)]

theorem splice_splice {p : Nat} (h : p ≤ n) :
    splice (splice m dst n f) dst p g =
      splice m dst n fun j => if j < p then g j else f j := by
  funext x
  by_cases hx : dst ≤ x ∧ x < dst + n
  · rw [splice_of_mem hx.1 hx.2]
    by_cases hp : x < dst + p
    · rw [splice_of_mem hx.1 hp, if_pos (by omega)]
    · rw [splice_of_not_mem (by omega), splice_of_mem hx.1 hx.2,
        if_neg (by omega)]
  · rw [splice_of_not_mem (by omega), splice_of_not_mem (by omega),
      splice_of_not_mem (by omega)]

theorem splice_splice_of_le {p : Nat} (h : p ≤ n) :
    splice (splice m dst p g) dst n f = splice m dst n f := by
  funext x
  by_cases hx : dst ≤ x ∧ x < dst + n
  · rw [splice_of_mem hx.1 hx.2, splice_of_mem hx.1 hx.2]
  · rw [splice_of_not_mem (by omega), splice_of_not_mem (by omega),
      splice_of_not_mem (by omega)]

theorem store_eq (a : Int) (b : Byte) :
    store m a b = splice m a 1 fun _ => b := by
  funext x
  by_cases hx : x = a
  · rw [store, if_pos hx, splice_of_mem (by omega) (by omega)]
  · rw [store, if_neg hx, splice_of_not_mem (by omega)]

theorem splice_cons {p : Nat} {h : Nat → Byte} (hf : ∀ j < p, f j = h j)
    (hg : ∀ j < n, g j = h (p + j)) :
    splice (splice m dst p f) (dst + p) n g = splice m dst (p + n) h := by
  rw [splice_append]
  refine splice_congr fun j hj => ?_
  split
  next hlt => exact hf j hlt
  next hge =>
    rw [hg (j - p) (by omega)]
    congr 1
    omega

theorem splice_snoc {p : Nat} {h : Nat → Byte} (hf : ∀ j < p, f j = h j)
    (hg : ∀ j < n, g j = h (p + j)) :
    splice (splice m (dst + p) n g) dst p f = splice m dst (p + n) h := by
  rw [← splice_cons hf hg]
  funext x
  rcases Int.lt_or_le x (dst + p) with hlt | hge
  · have hafter : splice (splice m dst p f) (dst + p) n g x =
        splice m dst p f x := splice_of_not_mem (.inl hlt)
    rw [hafter]
    by_cases hx : dst ≤ x
    · rw [splice_of_mem hx hlt, splice_of_mem hx hlt]
    · rw [splice_of_not_mem (by omega), splice_of_not_mem (by omega),
        splice_of_not_mem (by omega)]
  · rw [splice_of_not_mem (.inr hge)]
    by_cases hx : x < dst + p + n
    · rw [splice_of_mem hge hx, splice_of_mem hge hx]
    · rw [splice_of_not_mem (by omega), splice_of_not_mem (by omega),
        splice_of_not_mem (by omega)]

/-! ## What the loops do -/

theorem moveUp_eq (h : dst ≤ src ∨ src + n ≤ dst) :
    moveUp n m src dst = splice m dst n fun j => m (src + j) := by
  induction n generalizing m src dst with
  | zero => simp [moveUp]
  | succ n ih =>
      have hone : dst + 1 = dst + (1 : Nat) := rfl
      rw [moveUp, ih (by omega), store_eq, hone, Nat.add_comm n 1]
      refine splice_cons (fun j hj => ?_) fun j hj => ?_
      · congr 1
        omega
      · rw [splice_of_not_mem (by omega)]
        congr 1
        omega

theorem moveDown_eq (h : src ≤ dst ∨ dst + n ≤ src) :
    moveDown n m src dst = splice m dst n fun j => m (src + j) := by
  induction n generalizing m with
  | zero => simp [moveDown]
  | succ n ih =>
      rw [moveDown, ih (by omega), store_eq]
      funext x
      by_cases hx : dst ≤ x ∧ x < dst + n
      · rw [splice_of_mem hx.1 hx.2, splice_of_mem hx.1 (by omega),
          splice_of_not_mem (by omega)]
      · rw [splice_of_not_mem (by omega)]
        by_cases hlast : x = dst + n
        · rw [splice_of_mem (by omega) (by omega),
            splice_of_mem (by omega) (by omega)]
          congr 1
          omega
        · rw [splice_of_not_mem (by omega), splice_of_not_mem (by omega)]

theorem reflect_lt {j : Nat} (hk : 0 < k) (hj : j < k * n) :
    reflect k j < k * n := by
  have hdiv : j / k < n := Nat.div_lt_of_lt_mul hj
  have hmul : (j / k + 1) * k ≤ n * k := Nat.mul_le_mul_right k hdiv
  rw [Nat.add_mul, Nat.one_mul, Nat.mul_comm n k] at hmul
  unfold reflect
  omega

theorem reflect_of_lt {j : Nat} (hj : j < k) : reflect k j = k - 1 - j := by
  rw [reflect, Nat.div_eq_of_lt hj, Nat.mod_eq_of_lt hj]
  omega

theorem reflect_add (hk : 0 < k) (j : Nat) :
    reflect k (k + j) = k + reflect k j := by
  unfold reflect
  rw [Nat.add_div_left j hk, Nat.add_mod_left, Nat.succ_mul]
  omega

theorem reflect_reflect (hk : 0 < k) (j : Nat) :
    reflect k (reflect k j) = j := by
  have hmod := Nat.mod_lt j hk
  have hdiv := Nat.div_add_mod j k
  have hrest : k - 1 - j % k < k := by omega
  have hq : (k * (j / k) + (k - 1 - j % k)) / k = j / k := by
    rw [Nat.mul_add_div hk, Nat.div_eq_of_lt hrest, Nat.add_zero]
  have hr : (k * (j / k) + (k - 1 - j % k)) % k = k - 1 - j % k := by
    rw [Nat.mul_add_mod, Nat.mod_eq_of_lt hrest]
  unfold reflect
  rw [Nat.mul_comm (j / k) k, hq, hr, Nat.mul_comm (j / k) k]
  omega

theorem swapGroups_eq (hk : 0 < k)
    (h : src = dst ∨ Apart src (k * n) dst (k * n)) :
    swapGroups k n m src dst =
      splice m dst (k * n) fun j => m (src + reflect k j) := by
  unfold Apart at h
  induction n generalizing m src dst with
  | zero => simp [swapGroups]
  | succ n ih =>
      rw [Nat.mul_succ] at h
      rw [swapGroups, ih (by omega), Nat.mul_succ, Nat.add_comm (k * n) k]
      refine splice_cons (fun j hj => ?_) fun j hj => ?_
      · rw [reflect_of_lt hj]
      · have hlt := reflect_lt hk hj
        rw [reflect_add hk, splice_of_not_mem (by omega)]
        congr 1
        omega

/-! ## Blocks moved one by one -/

/-- Blocks of `p` bytes are on their way from `src` to `dst`: some are there, the others can
still be read, and no byte is written anywhere else. -/
structure Relocated (p : Nat) (src dst : Nat → Int) (n : Nat) (m₀ m : Memory)
    (done : Nat → Prop) : Prop where
  moved : ∀ e < n, done e → ∀ j < p, m (dst e + j) = m₀ (src e + j)
  unread : ∀ e < n, ¬ done e → ∀ j < p, m (src e + j) = m₀ (src e + j)
  frame : ∀ x, (∀ e < n, x < dst e ∨ dst e + p ≤ x) → m x = m₀ x

namespace Relocated

variable {p e : Nat} {src dst : Nat → Int} {m₀ : Memory} {done done' : Nat → Prop}

theorem congr (h : Relocated p src dst n m₀ m done) (hiff : ∀ e < n, done e ↔ done' e) :
    Relocated p src dst n m₀ m done' where
  moved e he hdone := h.moved e he ((hiff e he).2 hdone)
  unread e he hnot := h.unread e he fun hdone => hnot ((hiff e he).1 hdone)
  frame := h.frame

/-- A block may be moved if it does not fall on a block that has not been read, or on the
place of another one. -/
theorem move (h : Relocated p src dst n m₀ m done) (he : e < n) (hnew : ¬ done e)
    (hdst : ∀ k < n, k ≠ e → dst k + p ≤ dst e ∨ dst e + p ≤ dst k)
    (hsrc : ∀ k < n, k ≠ e → ¬ done k → src k + p ≤ dst e ∨ dst e + p ≤ src k) :
    Relocated p src dst n m₀ (splice m (dst e) p fun j => m (src e + j))
      fun k => done k ∨ k = e where
  moved k hk hdone j hj := by
    by_cases heq : k = e
    · subst heq
      rw [splice_add hj]
      exact h.unread k hk hnew j hj
    · have hplace := hdst k hk heq
      rw [splice_of_not_mem (by omega)]
      exact h.moved k hk (hdone.resolve_right heq) j hj
  unread k hk hnot j hj := by
    obtain ⟨hdone, heq⟩ := not_or.1 hnot
    have hplace := hsrc k hk heq hdone
    rw [splice_of_not_mem (by omega)]
    exact h.unread k hk hdone j hj
  frame x hx := by
    rw [splice_of_not_mem (hx e he)]
    exact h.frame x hx

end Relocated

end Iraf.ByteMemory
