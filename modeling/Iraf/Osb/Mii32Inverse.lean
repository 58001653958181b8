import Mathlib.Tactic.NormNum
import Iraf.Osb.Mii32

/-!
# Packing and unpacking

What `miipak32` and `miiupk32` leave in memory, and when the integers that are
unpacked are those that were packed.
-/

namespace Iraf.Osb

open Iraf.ByteMemory

variable {host : Host} {m : Memory} {a b : Int} {n p q : Nat}

/-! ## Words -/

theorem group_pos (host : Host) (p : Nat) : 0 < host.group p := by
  unfold Host.group
  split_ifs <;> decide

theorem group_dvd (host : Host) (hp : p = 2 ∨ p = 4 ∨ p = 8) :
    host.group p ∣ p := by
  unfold Host.group
  rcases hp with rfl | rfl | rfl <;> split_ifs <;> omega

@[simp] theorem length_word : (word host m a p).length = p := by simp [word]

theorem getD_word {j : Nat} (hj : j < p) :
    (word host m a p).getD j 0 = m (a + reflect (host.group p) j) := by
  simp [word, hj]

@[simp] theorem length_convert (bs : List Byte) :
    (convert n bs).length = n := by
  unfold convert
  split
  · rw [List.length_append, List.length_replicate]
    omega
  · rw [List.length_drop]
    omega

theorem convert_length (bs : List Byte) : convert bs.length bs = bs := by
  simp [convert]

theorem reflect_lt_of_dvd {k j : Nat} (hk : 0 < k) (hdvd : k ∣ p) (hj : j < p) :
    reflect k j < p := by
  obtain ⟨r, rfl⟩ := hdvd
  exact reflect_lt hk hj

theorem assign_self (hp : p = 2 ∨ p = 4 ∨ p = 8) (i : Nat) :
    assign host p p m a b i =
      splice m (b + p * i) p fun j => m (a + p * i + j) := by
  have hpos := group_pos host p
  have hsame : convert p (word host m (a + p * i) p) =
      word host m (a + p * i) p := by
    have hconvert := convert_length (word host m (a + p * i) p)
    rwa [length_word] at hconvert
  rw [assign, hsame, putWord, length_word]
  refine splice_congr fun j hj => ?_
  rw [getD_word (reflect_lt_of_dvd hpos (group_dvd host hp) hj),
    reflect_reflect hpos]

theorem assignUp_self (hp : p = 2 ∨ p = 4 ∨ p = 8)
    (h : a = b ∨ Apart a (p * n) b (p * n)) :
    assignUp host p p m a b n = splice m b (p * n) fun j => m (a + j) := by
  unfold Apart at h
  induction n with
  | zero => simp [assignUp]
  | succ n ih =>
      rw [Nat.mul_succ] at h
      have hrun := ih (by omega)
      have hend : b + p * (n : Int) = b + (p * n : Nat) := by push_cast; rfl
      have hstart : a + p * (n : Int) = a + (p * n : Nat) := by push_cast; rfl
      rw [assignUp] at hrun ⊢
      rw [List.range_succ, List.foldl_append, hrun, List.foldl_cons,
        List.foldl_nil, assign_self hp, hend, hstart, Nat.mul_succ]
      refine splice_cons (fun j hj => rfl) fun j hj => ?_
      rw [splice_of_not_mem (by omega), Int.add_assoc, ← Nat.cast_add]

theorem assignDown_self (hp : p = 2 ∨ p = 4 ∨ p = 8)
    (h : a = b ∨ Apart a (p * n) b (p * n)) :
    assignDown host p p m a b n = splice m b (p * n) fun j => m (a + j) := by
  unfold Apart at h
  induction n generalizing m with
  | zero => simp [assignDown]
  | succ n ih =>
      rw [Nat.mul_succ] at h
      have hend : b + p * (n : Int) = b + (p * n : Nat) := by push_cast; rfl
      have hstart : a + p * (n : Int) = a + (p * n : Nat) := by push_cast; rfl
      rw [assignDown, ih (by omega), assign_self hp, hend, hstart, Nat.mul_succ]
      refine splice_snoc (fun j hj => ?_) fun j hj => ?_
      · exact splice_of_not_mem (by omega)
      · rw [Int.add_assoc, ← Nat.cast_add]

theorem acht_self (hp : p = 2 ∨ p = 4 ∨ p = 8)
    (h : a = b ∨ Apart a (p * n) b (p * n)) :
    acht host p p m a b n = splice m b (p * n) fun j => m (a + j) := by
  rw [acht, if_pos (Nat.le_refl p)]
  exact assignUp_self hp h

theorem amov_self (hp : p = 2 ∨ p = 4 ∨ p = 8)
    (h : a = b ∨ Apart a (p * n) b (p * n)) :
    amov host p m a b n = splice m b (p * n) fun j => m (a + j) := by
  unfold amov
  split
  next heq =>
    subst heq
    exact (splice_self fun j _ => rfl).symm
  next =>
    split
    next => exact assignDown_self hp h
    next => exact assignUp_self hp h

theorem assign_outside {i : Nat} {x : Int}
    (hx : x < b + q * i ∨ b + q * i + q ≤ x) :
    assign host p q m a b i x = m x := by
  rw [assign, putWord, length_convert]
  exact splice_of_not_mem hx

theorem assignDown_outside {x : Int} (hx : x < b ∨ b + (q * n : Nat) ≤ x) :
    assignDown host p q m a b n x = m x := by
  induction n generalizing m with
  | zero => rfl
  | succ n ih =>
      rw [Nat.mul_succ] at hx
      have hend : (q : Int) * (n : Int) = (q * n : Nat) := by push_cast; rfl
      rw [assignDown, ih (by omega), assign_outside (by rw [hend]; omega)]

/-! ## Swapping an array of words -/

/-- The bytes that are reached when `n` words of `p` bytes are swapped. -/
def turned (host : Host) (p n : Nat) : Nat :=
  let k := host.group p
  if 4 ≤ k then k * (cInt (n * p / k : Nat)).toNat else n * p

theorem turned_le (host : Host) (p n : Nat) :
    turned host p n ≤ n * p := by
  have hmul : host.group p * (n * p / host.group p) ≤ n * p :=
    Nat.mul_div_le ..
  unfold turned
  simp only
  split
  next =>
    refine Nat.le_trans (Nat.mul_le_mul_left _ ?_) hmul
    generalize n * p / host.group p = c
    have hle := cInt_le (Int.natCast_nonneg c)
    omega
  next => exact Nat.le_refl _

/-- `BYTE_SWAP8`, `BYTE_SWAP4` and `BYTE_SWAP2` tried in turn on words in place. -/
theorem swap_wide (n : Nat) :
    (if host.swap8 then bswap8 m a 1 a 1 (n * 8 : Nat)
      else if host.swap4 then bswap4 m a 1 a 1 (n * 8 : Nat)
      else if host.swap2 then bswap2 m a 1 a 1 (n * 8 : Nat)
      else m) =
      splice m a (turned host 8 n) fun j =>
        m (a + reflect (host.group 8) j) := by
  by_cases h8 : host.swap8
  · have hgroup : host.group 8 = 8 := by simp [Host.group, h8]
    have hturned : turned host 8 n = 8 * (cInt n).toNat := by
      simp [turned, hgroup]
    rw [if_pos h8, hturned, hgroup, Nat.mul_comm n 8]
    exact bswap8_eq (by omega) (.inl rfl)
  · by_cases h4 : host.swap4
    · have hgroup : host.group 8 = 4 := by simp [Host.group, h8, h4]
      have hcount : n * 8 = 4 * (2 * n) := by omega
      have hdiv : n * 8 / 4 = 2 * n := by omega
      have hturned : turned host 8 n = 4 * (cInt (2 * n : Nat)).toNat := by
        simp only [turned, hgroup, hdiv, Nat.le_refl, if_true]
      rw [if_neg h8, if_pos h4, hturned, hgroup, hcount]
      exact bswap4_eq (by omega) (.inl rfl)
    · by_cases h2 : host.swap2
      · have hgroup : host.group 8 = 2 := by simp [Host.group, h8, h4, h2]
        have hcount : n * 8 = 2 * (4 * n) := by omega
        have hturned : turned host 8 n = 2 * (4 * n) := by
          simp [turned, hgroup]
          omega
        rw [if_neg h8, if_neg h4, if_pos h2, hturned, hgroup, hcount]
        exact bswap2_eq (.inl rfl)
      · have hgroup : host.group 8 = 1 := by simp [Host.group, h8, h4, h2]
        rw [if_neg h8, if_neg h4, if_neg h2, hgroup]
        exact (splice_self fun j _ => by simp [reflect, Nat.mod_one]).symm

theorem swap_narrow (hswap : host.swap4 ∨ host.swap2)
    (h : a = b ∨ Apart a (4 * n) b (4 * n)) :
    (if host.swap4 then bswap4 m a 1 b 1 (n * 4 : Nat)
      else bswap2 m a 1 b 1 (n * 4 : Nat)) =
      splice m b (turned host 4 n) fun j =>
        m (a + reflect (host.group 4) j) := by
  have hle := turned_le host 4 n
  unfold Apart at h
  by_cases h4 : host.swap4
  · have hgroup : host.group 4 = 4 := by simp [Host.group, h4]
    have hturned : turned host 4 n = 4 * (cInt n).toNat := by
      simp [turned, hgroup]
    rw [hturned] at hle
    rw [if_pos h4, hturned, hgroup, Nat.mul_comm n 4]
    exact bswap4_eq (by omega) (by unfold Apart; omega)
  · have h2 := hswap.resolve_left h4
    have hgroup : host.group 4 = 2 := by simp [Host.group, h4, h2]
    have hcount : n * 4 = 2 * (2 * n) := by omega
    have hturned : turned host 4 n = 2 * (2 * n) := by
      simp [turned, hgroup]
      omega
    rw [if_neg h4, hturned, hgroup, hcount]
    exact bswap2_eq (by unfold Apart; omega)

/-! ## The two procedures -/

variable {ty : SppType} {spp mii out tmpp : Int}

theorem bytes_wide (hwide : host.wide) (hty : ty ≠ .short) :
    ty.bytes host = 8 := by
  cases ty <;> simp_all [SppType.bytes, sizeof, szbChar]

theorem bytes_narrow (hwide : ¬ host.wide) (hty : ty ≠ .short) :
    ty.bytes host = 4 := by
  cases ty <;> simp_all [SppType.bytes, sizeof, szbChar]

theorem toLong_eq (hty : ty ≠ .short)
    (h : Apart tmpp (ty.bytes host * n) spp (ty.bytes host * n)) :
    toLong host ty m spp tmpp n =
      splice m tmpp (ty.bytes host * n) fun j => m (spp + j) := by
  have hapart : spp = tmpp ∨
      Apart spp (ty.bytes host * n) tmpp (ty.bytes host * n) := .inr h.symm
  cases ty with
  | short => exact absurd rfl hty
  | int =>
      have hsize : SppType.int.bytes host = 4 ∨ SppType.int.bytes host = 8 := by
        cases hw : host.wide <;> simp [SppType.bytes, sizeof, szbChar, hw]
      exact acht_self (.inr hsize) hapart
  | long =>
      have hsize : SppType.long.bytes host = 4 ∨ SppType.long.bytes host = 8 := by
        cases hw : host.wide <;> simp [SppType.bytes, sizeof, szbChar, hw]
      exact amov_self (.inr hsize) hapart

theorem achtl_eq (hty : ty ≠ .short)
    (h : a = b ∨ Apart a (ty.bytes host * n) b (ty.bytes host * n)) :
    achtl host m a b n ty =
      splice m b (ty.bytes host * n) fun j => m (a + j) := by
  cases ty with
  | short => exact absurd rfl hty
  | int =>
      have hsize : SppType.int.bytes host = 4 ∨ SppType.int.bytes host = 8 := by
        cases hw : host.wide <;> simp [SppType.bytes, sizeof, szbChar, hw]
      exact acht_self (.inr hsize) h
  | long =>
      have hsize : SppType.long.bytes host = 4 ∨ SppType.long.bytes host = 8 := by
        cases hw : host.wide <;> simp [SppType.bytes, sizeof, szbChar, hw]
      exact amov_self (.inr hsize) h

theorem achtl_place (hty : ty ≠ .short) : achtl host m a a n ty = m := by
  rw [achtl_eq hty (.inl rfl)]
  exact splice_self fun j _ => rfl

/-- Where byte `j` of the swapped words comes from. -/
def origin (host : Host) (p n j : Nat) : Nat :=
  if j < turned host p n then reflect (host.group p) j else j

theorem miipak32_wide (hwide : host.wide) (hty : ty ≠ .short)
    (hspp : Apart tmpp (8 * n) spp (8 * n)) :
    miipak32 host m spp mii n ty tmpp =
      splice (splice m tmpp (8 * n) fun j => m (spp + origin host 8 n j)) mii
        (4 * n) (narrowed fun j => m (spp + origin host 8 n j)) := by
  have hsize : sizeof host ty * szbChar = 8 := bytes_wide hwide hty
  have hle := turned_le host 8 n
  have hlong : toLong host ty m spp tmpp n =
      splice m tmpp (8 * n) fun j => m (spp + j) := by
    have heq : ty.bytes host = 8 := hsize
    rw [← heq]
    exact toLong_eq hty (by rw [heq]; exact hspp)
  unfold miipak32
  simp only [hsize, hlong, nbitsByte]
  rw [if_neg (by decide), if_pos (by decide), swap_wide,
    splice_splice (by omega), i64to32_eq]
  have htmp : (splice m tmpp (8 * n) fun j =>
      if j < turned host 8 n then splice m tmpp (8 * n) (fun j => m (spp + j))
        (tmpp + reflect (host.group 8) j)
      else m (spp + j)) =
      splice m tmpp (8 * n) fun j => m (spp + origin host 8 n j) := by
    refine splice_congr fun j hj => ?_
    rw [origin]
    split
    next hlt =>
      exact splice_add (reflect_lt_of_dvd (group_pos host 8)
        (Dvd.dvd.mul_right (group_dvd host (by omega)) n) hj)
    next => rfl
  rw [htmp]
  refine splice_congr fun j hj => ?_
  simp only [narrowed]
  exact splice_add (by omega)

theorem miipak32_narrow (hwide : ¬ host.wide) (hty : ty ≠ .short)
    (hswap : host.swap4 ∨ host.swap2)
    (hspp : Apart tmpp (4 * n) spp (4 * n))
    (hmii : Apart tmpp (4 * n) mii (4 * n)) :
    miipak32 host m spp mii n ty tmpp =
      splice (splice m tmpp (4 * n) fun j => m (spp + j)) mii
        (turned host 4 n) fun j => m (spp + reflect (host.group 4) j) := by
  have hsize : sizeof host ty * szbChar = 4 := bytes_narrow hwide hty
  have hle := turned_le host 4 n
  have hlong : toLong host ty m spp tmpp n =
      splice m tmpp (4 * n) fun j => m (spp + j) := by
    have heq : ty.bytes host = 4 := hsize
    rw [← heq]
    exact toLong_eq hty (by rw [heq]; exact hspp)
  unfold miipak32
  simp only [hsize, hlong, nbitsByte]
  have hmove := swap_narrow (m := splice m tmpp (4 * n) fun j => m (spp + j))
    hswap (.inr hmii)
  rw [if_pos (by decide)]
  have hchain : (if host.swap4 = true then
        bswap4 (splice m tmpp (4 * n) fun j => m (spp + j)) tmpp 1 mii 1
          (n * (32 / 8) : Nat)
      else if host.swap2 = true then
        bswap2 (splice m tmpp (4 * n) fun j => m (spp + j)) tmpp 1 mii 1
          (n * (32 / 8) : Nat)
      else splice m tmpp (4 * n) fun j => m (spp + j)) =
      splice (splice m tmpp (4 * n) fun j => m (spp + j)) mii
        (turned host 4 n) fun j =>
          splice m tmpp (4 * n) (fun j => m (spp + j))
            (tmpp + reflect (host.group 4) j) := by
    rw [← hmove]
    by_cases h4 : host.swap4
    · rw [if_pos h4, if_pos h4]
    · rw [if_neg h4, if_neg h4, if_pos (hswap.resolve_left h4)]
  rw [hchain]
  refine splice_congr fun j hj => ?_
  exact splice_add (reflect_lt_of_dvd (group_pos host 4)
    (Dvd.dvd.mul_right (group_dvd host (by omega)) n) (by omega))

theorem miipak32_unswapped (hwide : ¬ host.wide) (hty : ty ≠ .short)
    (hswap : ¬ (host.swap4 ∨ host.swap2))
    (hspp : Apart tmpp (4 * n) spp (4 * n)) :
    miipak32 host m spp mii n ty tmpp =
      splice m tmpp (4 * n) fun j => m (spp + j) := by
  have hsize : sizeof host ty * szbChar = 4 := bytes_narrow hwide hty
  have hlong : toLong host ty m spp tmpp n =
      splice m tmpp (4 * n) fun j => m (spp + j) := by
    have heq : ty.bytes host = 4 := hsize
    rw [← heq]
    exact toLong_eq hty (by rw [heq]; exact hspp)
  unfold miipak32
  simp only [hsize, hlong, nbitsByte]
  rw [if_pos (by decide), if_neg fun h => hswap (.inl h),
    if_neg fun h => hswap (.inr h)]

theorem miipak32_short :
    miipak32 host m spp mii n .short tmpp =
      toLong host .short m spp tmpp n := rfl

theorem miiupk32_short : miiupk32 host m mii out n .short = m := rfl

theorem miiupk32_wide (hwide : host.wide) (hty : ty ≠ .short) :
    miiupk32 host m mii out n ty =
      splice m out (8 * n) fun j =>
        widened (fun i => m (mii + i)) (origin host 8 n j) := by
  have hsize : sizeof host ty * szbChar = 8 := bytes_wide hwide hty
  have hle := turned_le host 8 n
  unfold miiupk32
  simp only [hsize, nbitsByte, achtl_place hty]
  rw [if_neg (by decide), if_pos (by decide), swap_wide, i32to64_eq,
    splice_splice (by omega)]
  refine splice_congr fun j hj => ?_
  rw [origin]
  split
  next hlt =>
    exact splice_add (reflect_lt_of_dvd (group_pos host 8)
      (Dvd.dvd.mul_right (group_dvd host (by omega)) n) hj)
  next => rfl

theorem miiupk32_narrow (hwide : ¬ host.wide) (hty : ty ≠ .short)
    (hswap : host.swap4 ∨ host.swap2)
    (h : mii = out ∨ Apart mii (4 * n) out (4 * n)) :
    miiupk32 host m mii out n ty =
      splice m out (turned host 4 n) fun j =>
        m (mii + reflect (host.group 4) j) := by
  have hsize : sizeof host ty * szbChar = 4 := bytes_narrow hwide hty
  rw [← swap_narrow hswap h]
  unfold miiupk32
  simp only [hsize, nbitsByte, achtl_place hty]
  rw [if_pos (by decide)]
  by_cases h4 : host.swap4
  · rw [if_pos h4, if_pos h4]
  · rw [if_neg h4, if_neg h4, if_pos (hswap.resolve_left h4)]

theorem miiupk32_unswapped (hwide : ¬ host.wide) (hty : ty ≠ .short)
    (hswap : ¬ (host.swap4 ∨ host.swap2))
    (h : mii = out ∨ Apart mii (4 * n) out (4 * n)) :
    miiupk32 host m mii out n ty =
      splice m out (4 * n) fun j => m (mii + j) := by
  have hsize : sizeof host ty * szbChar = 4 := bytes_narrow hwide hty
  have heq : ty.bytes host = 4 := hsize
  unfold miiupk32
  simp only [hsize, nbitsByte]
  rw [if_pos (by decide), if_neg fun h => hswap (.inl h),
    if_neg fun h => hswap (.inr h), achtl_eq hty (by rw [heq]; exact h), heq]

/-! ## Values -/

theorem word_eq {f : Nat → Byte} (hf : ∀ j < p,
    m (a + reflect (host.group p) j) = f j) :
    word host m a p = (List.range p).map f :=
  List.map_congr_left fun j hj => hf j (List.mem_range.mp hj)

theorem signed_widened (f : Nat → Byte)
    (hfits : -2 ^ 31 ≤ signed ((List.range 8).map f) ∧
      signed ((List.range 8).map f) < 2 ^ 31) :
    signed ((List.range 8).map fun j =>
      if j < 4 then if (f 4).val ≥ 128 then (255 : Byte) else 0 else f j) =
      signed ((List.range 8).map f) := by
  have h0 := (f 0).isLt
  have h1 := (f 1).isLt
  have h2 := (f 2).isLt
  have h3 := (f 3).isLt
  have h4 := (f 4).isLt
  have h5 := (f 5).isLt
  have h6 := (f 6).isLt
  have h7 := (f 7).isLt
  have hrange : List.range 8 = [0, 1, 2, 3, 4, 5, 6, 7] := by decide
  simp only [hrange, List.map_cons, List.map_nil, signed, negative, unsigned,
    List.headD_cons, List.foldl_cons, List.foldl_nil, List.length_cons,
    List.length_nil, decide_eq_true_eq] at hfits ⊢
  by_cases hneg : (f 4).val ≥ 128
  · simp only [hneg]
    norm_num at hfits ⊢
    split_ifs at hfits with hsign <;> omega
  · simp only [hneg]
    norm_num at hfits ⊢
    split_ifs at hfits with hsign <;> omega

theorem reflect_mul_add {k i j : Nat} (hk : 0 < k) (hdvd : k ∣ p) :
    reflect k (p * i + j) = p * i + reflect k j := by
  obtain ⟨r, rfl⟩ := hdvd
  have hdiv : (k * r * i + j) / k = r * i + j / k := by
    rw [Nat.mul_assoc, Nat.mul_add_div hk]
  have hmod : (k * r * i + j) % k = j % k := by
    rw [Nat.mul_assoc, Nat.mul_add_mod]
  rw [reflect, reflect, hdiv, hmod, Nat.add_mul, Nat.add_assoc]
  congr 1
  rw [Nat.mul_comm (r * i) k, Nat.mul_assoc]

theorem mul_add_lt {i j : Nat} (hi : i < n) (hj : j < p) :
    p * i + j < p * n := by
  have hmul : p * (i + 1) ≤ p * n := Nat.mul_le_mul_left p hi
  rw [Nat.mul_succ] at hmul
  omega

theorem values_wide (hwide : host.wide) (hty : ty ≠ .short)
    (hturned : turned host 8 n = 8 * n)
    (hspp : Apart tmpp (8 * n) spp (8 * n)) {i : Nat} (hi : i < n)
    (hfits : -2 ^ 31 ≤ element host ty m spp i ∧
      element host ty m spp i < 2 ^ 31) :
    element host ty (miiupk32 host (miipak32 host m spp mii n ty tmpp) mii out n
      ty) out i = element host ty m spp i := by
  have hbytes := bytes_wide hwide hty
  have hpos := group_pos host 8
  have hdvd : host.group 8 ∣ 8 := group_dvd host (by omega)
  have horigin : ∀ j < 8, origin host 8 n (8 * i + reflect (host.group 8) j) =
      8 * i + j := by
    intro j hj
    have hlt := mul_add_lt hi (reflect_lt_of_dvd hpos hdvd hj)
    rw [origin, hturned, if_pos hlt, reflect_mul_add hpos hdvd,
      reflect_reflect hpos]
  have hback : ∀ j < 8, origin host 8 n (8 * i + j) =
      8 * i + reflect (host.group 8) j := by
    intro j hj
    rw [origin, hturned, if_pos (mul_add_lt hi hj), reflect_mul_add hpos hdvd]
  let f (j : Nat) : Byte := m (spp + 8 * i + reflect (host.group 8) j)
  have hword : word host m (spp + 8 * i) 8 = (List.range 8).map f := rfl
  -- The four bytes of the packed integer.
  have hpacked : ∀ j < 4, miipak32 host m spp mii n ty tmpp
      (mii + (4 * i + j : Nat)) = f (4 + j) := by
    intro j hj
    rw [miipak32_wide hwide hty hspp, splice_add (mul_add_lt hi hj),
      narrowed_of_lt _ hj, Nat.add_assoc, hback (4 + j) (by omega)]
    simp only [f]
    congr 1
    push_cast
    omega
  have hout' : word host (miiupk32 host (miipak32 host m spp mii n ty tmpp) mii
      out n ty) (out + 8 * i) 8 = (List.range 8).map fun j =>
        if j < 4 then if (f 4).val ≥ 128 then (255 : Byte) else 0 else f j := by
    refine word_eq fun j hj => ?_
    have hlt := mul_add_lt hi (reflect_lt_of_dvd hpos hdvd hj)
    have hcast : out + 8 * (i : Int) + reflect (host.group 8) j =
        out + (8 * i + reflect (host.group 8) j : Nat) := by
      push_cast
      omega
    have hmod : (8 * i + j) % 8 = j := by omega
    have hdiv : (8 * i + j) / 8 = i := by omega
    have hsign := hpacked 0 (by omega)
    rw [Nat.add_zero, Nat.add_zero] at hsign
    rw [miiupk32_wide hwide hty, hcast, splice_add hlt, horigin j hj,
      widened, hmod, hdiv, hsign]
    split
    next => rfl
    next hge =>
      have hindex : 4 * i + j - 4 = 4 * i + (j - 4) := by omega
      rw [hindex, hpacked (j - 4) (by omega)]
      congr 1
      omega
  simp only [element, hbytes] at hfits ⊢
  have hcast : spp + ((8 : Nat) : Int) * i = spp + 8 * i := rfl
  have hcast' : out + ((8 : Nat) : Int) * i = out + 8 * i := rfl
  rw [hcast, hword] at hfits ⊢
  rw [hcast', hout']
  exact signed_widened f hfits

theorem values_narrow (hwide : ¬ host.wide) (hty : ty ≠ .short)
    (hswap : host.swap4 ∨ host.swap2) (hturned : turned host 4 n = 4 * n)
    (hspp : Apart tmpp (4 * n) spp (4 * n))
    (hmii : Apart tmpp (4 * n) mii (4 * n))
    (hout : mii = out ∨ Apart mii (4 * n) out (4 * n)) {i : Nat} (hi : i < n) :
    element host ty (miiupk32 host (miipak32 host m spp mii n ty tmpp) mii out n
      ty) out i = element host ty m spp i := by
  have hbytes := bytes_narrow hwide hty
  have hpos := group_pos host 4
  have hdvd : host.group 4 ∣ 4 := group_dvd host (by omega)
  simp only [element, hbytes]
  congr 1
  refine word_eq fun j hj => ?_
  have hlt := mul_add_lt hi (reflect_lt_of_dvd hpos hdvd hj)
  have hcast : out + ((4 : Nat) : Int) * i + reflect (host.group 4) j =
      out + (4 * i + reflect (host.group 4) j : Nat) := by
    push_cast
    omega
  rw [miiupk32_narrow hwide hty hswap hout, hcast, hturned, splice_add hlt,
    reflect_mul_add hpos hdvd, reflect_reflect hpos,
    miipak32_narrow hwide hty hswap hspp hmii, hturned,
    splice_add (mul_add_lt hi hj), reflect_mul_add hpos hdvd]
  congr 1
  push_cast
  omega

theorem values_unswapped (hwide : ¬ host.wide) (hty : ty ≠ .short)
    (hswap : ¬ (host.swap4 ∨ host.swap2))
    (hspp : Apart tmpp (4 * n) spp (4 * n))
    (hout : spp = out ∨ Apart spp (4 * n) out (4 * n)) {i : Nat} (hi : i < n) :
    element host ty (miiupk32 host (miipak32 host m spp spp n ty tmpp) spp out n
      ty) out i = element host ty m spp i := by
  have hbytes := bytes_narrow hwide hty
  have hpos := group_pos host 4
  have hdvd : host.group 4 ∣ 4 := group_dvd host (by omega)
  simp only [element, hbytes]
  congr 1
  refine word_eq fun j hj => ?_
  have hlt := mul_add_lt hi (reflect_lt_of_dvd hpos hdvd hj)
  have hcast : out + ((4 : Nat) : Int) * i + reflect (host.group 4) j =
      out + (4 * i + reflect (host.group 4) j : Nat) := by
    push_cast
    omega
  unfold Apart at hspp
  rw [miiupk32_unswapped hwide hty hswap hout, hcast, splice_add hlt,
    miipak32_unswapped hwide hty hswap hspp, splice_of_not_mem (by omega)]
  congr 1
  push_cast
  omega

/-! ## What is read and written -/

/-- Apart from hidden bytes, a call writes bytes of the `q` bytes from `dst` on,
computed from the `p` bytes from `src` on. -/
def Moves (call : Memory → Memory) (src : Int) (p : Nat) (dst : Int) (q : Nat)
    (hidden : Int → Prop) : Prop :=
  ∃ c ≤ q, ∃ g : (Nat → Byte) → Nat → Byte,
    (∀ f f', (∀ i < p, f i = f' i) → ∀ j < c, g f j = g f' j) ∧
    ∀ m x, ¬ hidden x → call m x = splice m dst c (g fun i => m (src + i)) x

def Block (a : Int) (p : Nat) (x : Int) : Prop := a ≤ x ∧ x < a + p

theorem Moves.writes {call : Memory → Memory} {src dst : Int}
    {hidden : Int → Prop} (h : Moves call src p dst q hidden) {x : Int}
    (hx : ¬ Block dst q x) (hhidden : ¬ hidden x) : call m x = m x := by
  obtain ⟨c, hc, g, -, heq⟩ := h
  unfold Block at hx
  rw [heq m x hhidden, splice_of_not_mem (by omega)]

theorem Moves.reads {call : Memory → Memory} {src dst : Int}
    {hidden : Int → Prop} (h : Moves call src p dst q hidden) {m' : Memory}
    (hsrc : ∀ x, Block src p x → m' x = m x) {x : Int} (hx : m' x = m x)
    (hhidden : ¬ hidden x) : call m' x = call m x := by
  obtain ⟨c, hc, g, hg, heq⟩ := h
  rw [heq m x hhidden, heq m' x hhidden]
  by_cases hin : dst ≤ x ∧ x < dst + c
  · rw [splice_of_mem hin.1 hin.2, splice_of_mem hin.1 hin.2]
    exact hg _ _ (fun i hi => hsrc _ ⟨by omega, by omega⟩) _ (by omega)
  · rw [splice_of_not_mem (by omega), splice_of_not_mem (by omega)]
    exact hx

theorem origin_lt (hp : p = 2 ∨ p = 4 ∨ p = 8) {j : Nat} (hj : j < p * n) :
    origin host p n j < p * n := by
  rw [origin]
  split
  next =>
    exact reflect_lt_of_dvd (group_pos host p)
      (Dvd.dvd.mul_right (group_dvd host hp) n) hj
  next => exact hj

theorem miipak32_moves (hspp : Apart tmpp (SppType.long.bytes host * n) spp
      (ty.bytes host * n))
    (hmii : Apart tmpp (SppType.long.bytes host * n) mii (4 * n)) :
    Moves (fun m => miipak32 host m spp mii n ty tmpp) spp (ty.bytes host * n)
      mii (4 * n) (Block tmpp (SppType.long.bytes host * n)) := by
  by_cases hshort : ty = .short
  · subst hshort
    refine ⟨0, Nat.zero_le _, fun f => f, fun f f' _ j hj => by omega,
      fun m x hx => ?_⟩
    rw [splice_zero]
    have hsize : ¬ SppType.long.bytes host ≤ SppType.short.bytes host := by
      cases hw : host.wide <;> simp [SppType.bytes, sizeof, szbChar, hw]
    simp only [miipak32_short, toLong, acht, if_neg hsize]
    unfold Block at hx
    exact assignDown_outside (by omega)
  · have hlong : SppType.long.bytes host = ty.bytes host := by
      cases ty with
      | short => exact absurd rfl hshort
      | int => rfl
      | long => rfl
    rw [hlong] at hspp hmii ⊢
    by_cases hwide : host.wide
    · rw [bytes_wide hwide hshort] at hspp hmii ⊢
      refine ⟨4 * n, Nat.le_refl _,
        fun f => narrowed fun j => f (origin host 8 n j),
        fun f f' hf j hj => ?_, fun m x hx => ?_⟩
      · exact hf _ (origin_lt (by omega) (by omega))
      · unfold Block at hx
        simp only [miipak32_wide hwide hshort hspp]
        by_cases hin : mii ≤ x ∧ x < mii + (4 * n : Nat)
        · rw [splice_of_mem hin.1 hin.2, splice_of_mem hin.1 hin.2]
        · rw [splice_of_not_mem (by omega), splice_of_not_mem (by omega),
            splice_of_not_mem (by omega)]
    · rw [bytes_narrow hwide hshort] at hspp hmii ⊢
      by_cases hswap : host.swap4 ∨ host.swap2
      · have hle := turned_le host 4 n
        refine ⟨turned host 4 n, by omega,
          fun f j => f (reflect (host.group 4) j),
          fun f f' hf j hj => ?_, fun m x hx => ?_⟩
        · exact hf _ (reflect_lt_of_dvd (group_pos host 4)
            (Dvd.dvd.mul_right (group_dvd host (by omega)) n) (by omega))
        · unfold Block at hx
          simp only [miipak32_narrow hwide hshort hswap hspp hmii]
          by_cases hin : mii ≤ x ∧ x < mii + turned host 4 n
          · rw [splice_of_mem hin.1 hin.2, splice_of_mem hin.1 hin.2]
          · rw [splice_of_not_mem (by omega), splice_of_not_mem (by omega),
              splice_of_not_mem (by omega)]
      · refine ⟨0, Nat.zero_le _, fun f => f, fun f f' _ j hj => by omega,
          fun m x hx => ?_⟩
        unfold Block at hx
        simp only [miipak32_unswapped hwide hshort hswap hspp, splice_zero]
        exact splice_of_not_mem (by omega)

theorem miiupk32_moves (hout : mii = out ∨
      Apart mii (4 * n) out (ty.bytes host * n)) :
    Moves (fun m => miiupk32 host m mii out n ty) mii (4 * n) out
      (ty.bytes host * n) (fun _ => False) := by
  by_cases hshort : ty = .short
  · subst hshort
    exact ⟨0, Nat.zero_le _, fun f => f, fun f f' _ j hj => by omega,
      fun m x _ => by simp [miiupk32_short]⟩
  · by_cases hwide : host.wide
    · rw [bytes_wide hwide hshort] at hout ⊢
      refine ⟨8 * n, Nat.le_refl _, fun f j => widened f (origin host 8 n j),
        fun f f' hf j hj => ?_, fun m x _ => ?_⟩
      · have hlt : origin host 8 n j < 8 * n := origin_lt (by omega) hj
        simp only [widened]
        rw [hf (4 * (origin host 8 n j / 8)) (by omega)]
        split
        next => rfl
        next => exact hf _ (by omega)
      · simp only [miiupk32_wide hwide hshort]
    · rw [bytes_narrow hwide hshort] at hout ⊢
      by_cases hswap : host.swap4 ∨ host.swap2
      · have hle := turned_le host 4 n
        refine ⟨turned host 4 n, by omega,
          fun f j => f (reflect (host.group 4) j),
          fun f f' hf j hj => ?_, fun m x _ => ?_⟩
        · exact hf _ (reflect_lt_of_dvd (group_pos host 4)
            (Dvd.dvd.mul_right (group_dvd host (by omega)) n) (by omega))
        · simp only [miiupk32_narrow hwide hshort hswap hout]
      · refine ⟨4 * n, Nat.le_refl _, fun f => f, fun f f' hf j hj => hf j hj,
          fun m x _ => ?_⟩
        simp only [miiupk32_unswapped hwide hshort hswap hout]

/-! ## The condition -/

/-- What is promised of packing `nelems` integers at `spp` and unpacking them at
`out`. -/
structure RoundTrip (host : Host) (ty : SppType) (nelems : Nat)
    (spp mii out tmpp : Int) (m : Memory) : Prop where
  values : ∀ i < nelems, element host ty
    (miiupk32 host (miipak32 host m spp mii nelems ty tmpp) mii out nelems ty)
    out i = element host ty m spp i
  packWrites : ∀ x, ¬ Block mii (4 * nelems) x →
    ¬ Block tmpp (SppType.long.bytes host * nelems) x →
    miipak32 host m spp mii nelems ty tmpp x = m x
  packReads : ∀ m' : Memory,
    (∀ x, Block spp (ty.bytes host * nelems) x → m' x = m x) →
    ∀ x, ¬ Block tmpp (SppType.long.bytes host * nelems) x → m' x = m x →
      miipak32 host m' spp mii nelems ty tmpp x =
        miipak32 host m spp mii nelems ty tmpp x
  unpackWrites : ∀ x, ¬ Block out (ty.bytes host * nelems) x →
    miiupk32 host m mii out nelems ty x = m x
  unpackReads : ∀ m' : Memory,
    (∀ x, Block mii (4 * nelems) x → m' x = m x) → ∀ x, m' x = m x →
      miiupk32 host m' mii out nelems ty x = miiupk32 host m mii out nelems ty x

/-- The promise for all contents of memory and all places of the other arrays.
The output of either call is the input array or apart from it. -/
def Invertible (host : Host) (ty : SppType) (nelems : Nat) (spp mii : Int) :
    Prop :=
  ∀ (m : Memory) (tmpp out : Int),
    Apart tmpp (SppType.long.bytes host * nelems) spp
      (ty.bytes host * nelems) →
    Apart tmpp (SppType.long.bytes host * nelems) mii (4 * nelems) →
    (mii = out ∨ Apart mii (4 * nelems) out (ty.bytes host * nelems)) →
    (∀ i < nelems, -2 ^ 31 ≤ element host ty m spp i ∧
      element host ty m spp i < 2 ^ 31) →
    RoundTrip host ty nelems spp mii out tmpp m

/-- When the bytes of the integers are all stored in `mii`. -/
def Stored (host : Host) (ty : SppType) (nelems : Nat) (spp mii : Int) : Prop :=
  nelems = 0 ∨ ty ≠ .short ∧
    if host.wide then
      if host.swap8 then nelems < 2 ^ 31
      else if host.swap4 then nelems < 2 ^ 30
      else True
    else if host.swap4 then nelems < 2 ^ 31
    else host.swap2 ∨ spp = mii

theorem roundTrip_of_values {m : Memory}
    (hspp : Apart tmpp (SppType.long.bytes host * n) spp (ty.bytes host * n))
    (hmii : Apart tmpp (SppType.long.bytes host * n) mii (4 * n))
    (hout : mii = out ∨ Apart mii (4 * n) out (ty.bytes host * n))
    (hvalues : ∀ i < n, element host ty
      (miiupk32 host (miipak32 host m spp mii n ty tmpp) mii out n ty) out i =
        element host ty m spp i) : RoundTrip host ty n spp mii out tmpp m where
  values := hvalues
  packWrites _ hx hhidden := (miipak32_moves hspp hmii).writes hx hhidden
  packReads _ hsrc _ hhidden hx :=
    (miipak32_moves hspp hmii).reads hsrc hx hhidden
  unpackWrites _ hx := (miiupk32_moves hout).writes hx id
  unpackReads _ hsrc _ hx := (miiupk32_moves hout).reads hsrc hx id

theorem turned_wide (hswap : if host.swap8 then n < 2 ^ 31
    else if host.swap4 then n < 2 ^ 30 else True) :
    turned host 8 n = 8 * n := by
  unfold turned
  by_cases h8 : host.swap8
  · rw [if_pos h8] at hswap
    have hgroup : host.group 8 = 8 := by simp [Host.group, h8]
    have heq := (cInt_eq_iff (Int.natCast_nonneg n)).mpr (by omega)
    simp [hgroup, heq]
  · by_cases h4 : host.swap4
    · rw [if_neg h8, if_pos h4] at hswap
      have hgroup : host.group 8 = 4 := by simp [Host.group, h8, h4]
      have hdiv : n * 8 / 4 = 2 * n := by omega
      have heq := (cInt_eq_iff (Int.natCast_nonneg (2 * n))).mpr (by omega)
      simp only [hgroup, hdiv, heq, Nat.le_refl, if_true]
      omega
    · have hlt : ¬ 4 ≤ host.group 8 := by
        unfold Host.group
        simp only [h8, h4]
        split_ifs <;> simp_all
      rw [if_neg hlt, Nat.mul_comm]

theorem turned_narrow (hswap : host.swap4 → n < 2 ^ 31) :
    turned host 4 n = 4 * n := by
  unfold turned
  by_cases h4 : host.swap4
  · have hgroup : host.group 4 = 4 := by simp [Host.group, h4]
    have heq := (cInt_eq_iff (Int.natCast_nonneg n)).mpr (by
      have := hswap h4
      omega)
    simp [hgroup, heq]
  · have hlt : ¬ 4 ≤ host.group 4 := by
      unfold Host.group
      simp only [h4]
      split_ifs <;> simp_all
    rw [if_neg hlt, Nat.mul_comm]

theorem Stored.invertible (h : Stored host ty n spp mii) :
    Invertible host ty n spp mii := by
  intro m tmpp out hspp hmii hout hfits
  refine roundTrip_of_values hspp hmii hout fun i hi => ?_
  rcases h with rfl | ⟨hty, hstored⟩
  · omega
  have hlong : SppType.long.bytes host = ty.bytes host := by
    cases ty with
    | short => exact absurd rfl hty
    | int => rfl
    | long => rfl
  rw [hlong] at hspp hmii
  by_cases hwide : host.wide
  · rw [if_pos hwide] at hstored
    rw [bytes_wide hwide hty] at hspp hmii hout
    exact values_wide hwide hty (turned_wide hstored) hspp hi (hfits i hi)
  · rw [if_neg hwide] at hstored
    rw [bytes_narrow hwide hty] at hspp hmii hout
    by_cases hswap : host.swap4 ∨ host.swap2
    · refine values_narrow hwide hty hswap (turned_narrow fun h4 => ?_) hspp hmii
        hout hi
      rwa [if_pos h4] at hstored
    · rw [if_neg fun h4 => hswap (.inl h4)] at hstored
      obtain rfl := hstored.resolve_left fun h2 => hswap (.inr h2)
      exact values_unswapped hwide hty hswap hspp hout hi

/-! ## Integers that are lost -/

/-- A memory with a single byte that is not zero. -/
def byteAt (a : Int) (v : Byte) : Memory := fun x => if x = a then v else 0

theorem bytes_cases (host : Host) (ty : SppType) :
    ty.bytes host = 2 ∨ ty.bytes host = 4 ∨ ty.bytes host = 8 := by
  cases ty <;> cases hw : host.wide <;>
    simp [SppType.bytes, sizeof, szbChar, hw]

theorem signed_zeros (hp : p = 2 ∨ p = 4 ∨ p = 8) :
    signed ((List.range p).map fun _ => (0 : Byte)) = 0 := by
  rcases hp with rfl | rfl | rfl <;> rfl

theorem signed_low (hp : p = 2 ∨ p = 4 ∨ p = 8) (v : Byte) :
    signed ((List.range p).map fun j => if j = p - 1 then v else 0) = v.val := by
  rcases hp with rfl | rfl | rfl <;>
    simp [signed, negative, unsigned, List.range_succ]

theorem element_zero {i : Nat} (h : ∀ j < ty.bytes host,
    m (a + ty.bytes host * i + j) = 0) : element host ty m a i = 0 := by
  have hp := bytes_cases host ty
  rw [element, word_eq fun j hj =>
    h _ (reflect_lt_of_dvd (group_pos host _) (group_dvd host hp) hj)]
  exact signed_zeros hp

theorem element_byteAt (v : Byte) (i k : Nat) :
    element host ty (byteAt (a + ty.bytes host * i +
      reflect (host.group (ty.bytes host)) (ty.bytes host - 1)) v) a k =
      if k = i then (v.val : Int) else 0 := by
  have hp := bytes_cases host ty
  have hpos := group_pos host (ty.bytes host)
  have hdvd := group_dvd host hp
  have hlast := reflect_lt_of_dvd hpos hdvd
    (show ty.bytes host - 1 < ty.bytes host by omega)
  by_cases hk : k = i
  · subst hk
    rw [if_pos rfl, element]
    rw [word_eq (f := fun j => if j = ty.bytes host - 1 then v else 0)
      fun j hj => ?_]
    · exact signed_low hp v
    · unfold byteAt
      by_cases hj' : j = ty.bytes host - 1
      · subst hj'
        simp
      · rw [if_neg hj', if_neg]
        intro heq
        have hsame : reflect (host.group (ty.bytes host)) j =
            reflect (host.group (ty.bytes host)) (ty.bytes host - 1) := by omega
        have hback := congrArg (reflect (host.group (ty.bytes host))) hsame
        rw [reflect_reflect hpos, reflect_reflect hpos] at hback
        exact hj' hback
  · rw [if_neg hk]
    refine element_zero fun j hj => if_neg fun heq => hk ?_
    rcases Nat.lt_trichotomy k i with hlt | heq' | hgt
    · have hmul : ty.bytes host * (k + 1) ≤ ty.bytes host * i :=
        Nat.mul_le_mul_left _ hlt
      rw [Nat.mul_succ] at hmul
      have hcast : ((ty.bytes host * k : Nat) : Int) + ty.bytes host ≤
          (ty.bytes host * i : Nat) := by exact_mod_cast hmul
      push_cast at hcast
      omega
    · exact heq'
    · have hmul : ty.bytes host * (i + 1) ≤ ty.bytes host * k :=
        Nat.mul_le_mul_left _ hgt
      rw [Nat.mul_succ] at hmul
      have hcast : ((ty.bytes host * i : Nat) : Int) + ty.bytes host ≤
          (ty.bytes host * k : Nat) := by exact_mod_cast hmul
      push_cast at hcast
      omega

/-- To refute the promise it is enough to lose one integer, with the scratch
array and the output far away. -/
theorem not_invertible {i : Nat} (hi : i < n) (v : Byte)
    (hlost : ∀ tmpp out : Int, max spp mii + 8 * n ≤ tmpp →
      tmpp + 8 * n ≤ out →
      element host ty (miiupk32 host (miipak32 host
        (byteAt (spp + ty.bytes host * i +
          reflect (host.group (ty.bytes host)) (ty.bytes host - 1)) v)
        spp mii n ty tmpp) mii out n ty) out i ≠ v.val) :
    ¬ Invertible host ty n spp mii := by
  intro h
  have hp := bytes_cases host ty
  have hle : ty.bytes host * n ≤ 8 * n := Nat.mul_le_mul_right n (by omega)
  have hp' := bytes_cases host .long
  have hle' : SppType.long.bytes host * n ≤ 8 * n :=
    Nat.mul_le_mul_right n (by omega)
  have htrip := h (byteAt (spp + ty.bytes host * i +
    reflect (host.group (ty.bytes host)) (ty.bytes host - 1)) v)
    (max spp mii + 8 * n) (max spp mii + 8 * n + 8 * n)
    (.inr (by omega)) (.inr (by omega)) (.inr (.inl (by omega)))
    (fun k _ => by
      rw [element_byteAt]
      have hv := v.isLt
      split <;> omega)
  refine hlost _ _ (Int.le_refl _) (Int.le_refl _) ?_
  rw [htrip.values i hi, element_byteAt, if_pos rfl]

theorem not_invertible_short (hn : n ≠ 0) :
    ¬ Invertible host .short n spp mii := by
  refine not_invertible (show 0 < n by omega) 1 fun tmpp out htmp hout => ?_
  have hbytes : SppType.short.bytes host = 2 := rfl
  have hp := bytes_cases host .long
  have hle : SppType.long.bytes host * n ≤ 8 * n :=
    Nat.mul_le_mul_right n (by omega)
  rw [miiupk32_short, element_zero]
  · decide
  · intro j hj
    rw [hbytes] at hj
    rw [(miipak32_moves (.inr (by rw [hbytes]; omega)) (.inr (by omega))).writes
      (by unfold Block; omega) (by unfold Block; omega)]
    refine if_neg ?_
    have hlast := reflect_lt_of_dvd (group_pos host 2)
      (group_dvd host (.inl rfl)) (show 2 - 1 < 2 by decide)
    rw [hbytes]
    omega

theorem not_invertible_unswapped (hn : n ≠ 0) (hwide : ¬ host.wide)
    (hty : ty ≠ .short) (hswap : ¬ (host.swap4 ∨ host.swap2))
    (hapart : Apart spp (4 * n) mii (4 * n)) :
    ¬ Invertible host ty n spp mii := by
  refine not_invertible (show 0 < n by omega) 1 fun tmpp out htmp hout => ?_
  have hbytes := bytes_narrow hwide hty
  have hpos := group_pos host 4
  have hlast := reflect_lt_of_dvd hpos
    (group_dvd host (.inr (.inl rfl))) (show 4 - 1 < 4 by decide)
  unfold Apart at hapart
  rw [element_zero]
  · decide
  · intro j hj
    rw [hbytes] at hj ⊢
    have hcast : out + ((4 : Nat) : Int) * (0 : Nat) + j = out + j := by omega
    rw [miiupk32_unswapped hwide hty hswap (.inr (.inl (by omega))),
      miipak32_unswapped hwide hty hswap (.inr (by omega)), hcast,
      splice_add (by omega), splice_of_not_mem (by omega)]
    refine if_neg ?_
    omega

theorem not_invertible_narrow (hwide : ¬ host.wide) (hty : ty ≠ .short)
    (h4 : host.swap4) (hn : ¬ n < 2 ^ 31) : ¬ Invertible host ty n spp mii := by
  refine not_invertible (show n - 1 < n by omega) 1
    fun tmpp out htmp hout => ?_
  have hbytes := bytes_narrow hwide hty
  have hgroup : host.group 4 = 4 := by simp [Host.group, h4]
  have hturned : turned host 4 n ≤ 4 * (n - 1) := by
    have hne := (cInt_eq_iff (Int.natCast_nonneg n)).not.mpr (by omega)
    have hle := cInt_le (Int.natCast_nonneg n)
    simp only [turned, hgroup, Nat.mul_div_cancel n (show 0 < 4 by decide),
      Nat.le_refl, if_true]
    omega
  rw [element_zero]
  · decide
  · intro j hj
    rw [hbytes] at hj ⊢
    rw [miiupk32_narrow hwide hty (.inl h4) (.inr (.inl (by omega))),
      splice_of_not_mem (by omega),
      miipak32_narrow hwide hty (.inl h4) (.inr (by omega)) (.inr (by omega)),
      splice_of_not_mem (by omega), splice_of_not_mem (by omega)]
    refine if_neg ?_
    rw [hgroup]
    simp only [reflect]
    omega

/-- The bytes of the last integer stay as they were, and the high order half is
packed. -/
theorem not_invertible_wide8 (hwide : host.wide) (hty : ty ≠ .short)
    (h8 : host.swap8) (hn : ¬ n < 2 ^ 31) : ¬ Invertible host ty n spp mii := by
  refine not_invertible (show n - 1 < n by omega) 1
    fun tmpp out htmp hout => ?_
  have hbytes := bytes_wide hwide hty
  have hgroup : host.group 8 = 8 := by simp [Host.group, h8]
  have hturned : turned host 8 n ≤ 8 * (n - 1) := by
    have hne := (cInt_eq_iff (Int.natCast_nonneg n)).not.mpr (by omega)
    have hle := cInt_le (Int.natCast_nonneg n)
    simp only [turned, hgroup, Nat.mul_div_cancel n (show 0 < 8 by decide),
      show 4 ≤ 8 by decide, if_true]
    omega
  have hpacked : ∀ r < 4, miipak32 host (byteAt (spp + (8 : Nat) * (n - 1 : Nat) +
      reflect (host.group 8) (8 - 1)) 1) spp mii n ty tmpp
        (mii + (4 * (n - 1) + r : Nat)) = 0 := by
    intro r hr
    rw [miipak32_wide hwide hty (.inr (by omega)),
      splice_add (by omega), narrowed_of_lt _ hr, origin,
      if_neg (by omega)]
    refine if_neg ?_
    rw [hgroup]
    simp only [reflect]
    omega
  rw [element_zero]
  · decide
  · intro j hj
    rw [hbytes] at hj ⊢
    have hcast : out + ((8 : Nat) : Int) * (n - 1 : Nat) + j =
        out + (8 * (n - 1) + j : Nat) := by
      push_cast
      omega
    have hmod : (8 * (n - 1) + j) % 8 = j := by omega
    have hdiv : (8 * (n - 1) + j) / 8 = n - 1 := by omega
    have hsign := hpacked 0 (by omega)
    rw [Nat.add_zero] at hsign
    rw [miiupk32_wide hwide hty, hcast,
      splice_add (by omega), origin, if_neg (by omega), widened, hmod, hdiv,
      hsign]
    split
    next => rfl
    next =>
      have hindex : 4 * (n - 1) + j - 4 = 4 * (n - 1) + (j - 4) := by omega
      rw [hindex]
      exact hpacked (j - 4) (by omega)

/-- The low order half of the last integer stays as it was, and its first byte
is taken for the sign. -/
theorem not_invertible_wide4 (hwide : host.wide) (hty : ty ≠ .short)
    (h8 : ¬ host.swap8) (h4 : host.swap4) (hn : ¬ n < 2 ^ 30) :
    ¬ Invertible host ty n spp mii := by
  refine not_invertible (show n - 1 < n by omega) 128
    fun tmpp out htmp hout => ?_
  have hbytes := bytes_wide hwide hty
  have hgroup : host.group 8 = 4 := by simp [Host.group, h8, h4]
  have hlow : reflect 4 (8 - 1) = 4 := rfl
  have hturned : turned host 8 n ≤ 8 * (n - 1) + 4 := by
    have hdiv : n * 8 / 4 = 2 * n := by omega
    have hne := (cInt_eq_iff (Int.natCast_nonneg (2 * n))).not.mpr (by omega)
    have hle := cInt_le (Int.natCast_nonneg (2 * n))
    simp only [turned, hgroup, hdiv, Nat.le_refl, if_true]
    omega
  have hpacked : ∀ r < 4, miipak32 host (byteAt (spp + (8 : Nat) * (n - 1 : Nat) +
      reflect (host.group 8) (8 - 1)) 128) spp mii n ty tmpp
        (mii + (4 * (n - 1) + r : Nat)) = if r = 0 then 128 else 0 := by
    intro r hr
    rw [miipak32_wide hwide hty (.inr (by omega)),
      splice_add (by omega), narrowed_of_lt _ hr, origin,
      if_neg (by omega), byteAt, hgroup, hlow]
    by_cases hr0 : r = 0
    · rw [if_pos hr0, if_pos (by omega)]
    · rw [if_neg hr0, if_neg (by omega)]
  have hsign := hpacked 0 (by omega)
  rw [Nat.add_zero, if_pos rfl] at hsign
  -- The bytes that are unpacked: four of the sign, 128 and three zeros.
  have hword : word host (miiupk32 host (miipak32 host
      (byteAt (spp + (8 : Nat) * (n - 1 : Nat) +
        reflect (host.group 8) (8 - 1)) 128) spp mii n ty tmpp) mii out n ty)
      (out + (8 : Nat) * (n - 1 : Nat)) 8 =
      (List.range 8).map fun j => if j < 4 then 255 else if j = 7 then 128 else 0 := by
    refine word_eq fun j hj => ?_
    have hr := reflect_lt_of_dvd (group_pos host 8)
      (group_dvd host (.inr (.inr rfl))) hj
    have hcast : out + ((8 : Nat) : Int) * (n - 1 : Nat) +
        reflect (host.group 8) j =
        out + (8 * (n - 1) + reflect (host.group 8) j : Nat) := by
      push_cast
      omega
    rw [miiupk32_wide hwide hty, hcast,
      splice_add (by omega)]
    rw [hgroup] at hr hpacked hsign ⊢
    -- The high order half is only moved within itself.
    obtain ⟨u, hu, hfrom, hhigh, hlow'⟩ : ∃ u < 8,
        origin host 8 n (8 * (n - 1) + reflect 4 j) = 8 * (n - 1) + u ∧
          (j < 4 → u < 4) ∧ (4 ≤ j → u = 11 - j) := by
      have hdvd : 4 ∣ 8 := by decide
      rw [origin, hgroup, reflect_mul_add (by decide) hdvd,
        reflect_reflect (by decide)]
      split
      next hlt =>
        refine ⟨j, hj, rfl, id, fun hge => ?_⟩
        simp only [reflect] at hlt
        omega
      next =>
        refine ⟨reflect 4 j, hr, rfl, fun hlt => ?_, fun hge => ?_⟩
        · simp only [reflect]
          omega
        · simp only [reflect]
          omega
    have hmod : (8 * (n - 1) + u) % 8 = u := by omega
    have hdiv : (8 * (n - 1) + u) / 8 = n - 1 := by omega
    rw [hfrom, widened, hmod, hdiv, hsign]
    by_cases hj4 : j < 4
    · rw [if_pos (hhigh hj4), if_pos hj4]
      rfl
    · have hindex : 4 * (n - 1) + u - 4 = 4 * (n - 1) + (u - 4) := by omega
      have hu4 := hlow' (by omega)
      rw [if_neg (by omega), if_neg hj4, hindex, hpacked (u - 4) (by omega)]
      by_cases h7 : j = 7
      · rw [if_pos (by omega), if_pos h7]
      · rw [if_neg (by omega), if_neg h7]
  simp only [element, hbytes]
  rw [hword]
  decide

/-- Packing and unpacking are inverse exactly when all bytes are stored. -/
theorem miipak32_invertible_iff
    (hplace : spp = mii ∨ Apart spp (ty.bytes host * n) mii (4 * n)) :
    Invertible host ty n spp mii ↔ Stored host ty n spp mii := by
  refine ⟨fun h => ?_, Stored.invertible⟩
  by_contra hstored
  unfold Stored at hstored
  obtain ⟨hn, hrest⟩ := not_or.mp hstored
  by_cases hty : ty = .short
  · subst hty
    exact not_invertible_short hn h
  have hrest := fun hsize => hrest ⟨hty, hsize⟩
  by_cases hwide : host.wide
  · rw [if_pos hwide] at hrest
    by_cases h8 : host.swap8
    · rw [if_pos h8] at hrest
      exact not_invertible_wide8 hwide hty h8 hrest h
    · rw [if_neg h8] at hrest
      by_cases h4 : host.swap4
      · rw [if_pos h4] at hrest
        exact not_invertible_wide4 hwide hty h8 h4 hrest h
      · rw [if_neg h4] at hrest
        exact hrest trivial
  · rw [if_neg hwide] at hrest
    by_cases h4 : host.swap4
    · rw [if_pos h4] at hrest
      exact not_invertible_narrow hwide hty h4 hrest h
    · rw [if_neg h4] at hrest
      obtain ⟨h2, hne⟩ := not_or.mp hrest
      rw [bytes_narrow hwide hty] at hplace
      exact not_invertible_unswapped hn hwide hty
        (fun hswap => hswap.elim h4 h2) (hplace.resolve_left hne) h

/-- The 64 bit build for a little endian host. -/
def littleEndian64 : Host := ⟨true, true, true, true⟩

theorem miipak32_invertible_place :
    Invertible littleEndian64 .int 100 0 0 ↔
      Stored littleEndian64 .int 100 0 0 :=
  miipak32_invertible_iff (.inl rfl)

/-- One short integer is not packed. -/
theorem not_invertible_one_short :
    ¬ Invertible littleEndian64 .short 1 0 8 :=
  not_invertible_short (by decide)

end Iraf.Osb
