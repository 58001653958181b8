import Mathlib.Data.List.Basic

/-!
# Blocks laid end to end

A buffer that holds blocks one after the other, each spelled by some words.  A
block is known by its number; `offset` is where its words begin.  Replacing a
block by one of the same length moves nothing, and when only some blocks are
kept, `rank` is the new number of a block that is.
-/

namespace Iraf.Tiling

variable {α β : Type*} (w : α → List β)

/-! ## Offsets -/

/-- The words of the blocks. -/
def tiles (bs : List α) : List β := bs.flatMap w

/-- Where block `k` begins. -/
def offset (bs : List α) (k : Nat) : Nat := (tiles w (bs.take k)).length

@[simp] theorem tiles_nil : tiles w [] = [] := rfl

@[simp] theorem tiles_cons (b : α) (bs : List α) :
    tiles w (b :: bs) = w b ++ tiles w bs := rfl

@[simp] theorem tiles_append (bs cs : List α) :
    tiles w (bs ++ cs) = tiles w bs ++ tiles w cs := List.flatMap_append

@[simp] theorem offset_zero (bs : List α) : offset w bs 0 = 0 := rfl

@[simp] theorem offset_cons_succ (b : α) (bs : List α) (k : Nat) :
    offset w (b :: bs) (k + 1) = (w b).length + offset w bs k := by
  simp [offset]

theorem take_succ_of_getElem? {bs : List α} {k : Nat} {b : α}
    (h : bs[k]? = some b) : bs.take (k + 1) = bs.take k ++ [b] := by
  rw [List.take_add_one, h]
  rfl

theorem eq_take_append {bs : List α} {k : Nat} {b : α} (h : bs[k]? = some b) :
    bs = bs.take k ++ b :: bs.drop (k + 1) := by
  obtain ⟨hk, rfl⟩ := List.getElem?_eq_some_iff.mp h
  rw [List.getElem_cons_drop, List.take_append_drop]

theorem offset_succ {bs : List α} {k : Nat} {b : α} (h : bs[k]? = some b) :
    offset w bs (k + 1) = offset w bs k + (w b).length := by
  rw [offset, take_succ_of_getElem? h]
  simp [offset]

theorem offset_length (bs : List α) :
    offset w bs bs.length = (tiles w bs).length := by
  rw [offset, List.take_length]

theorem tiles_split {bs : List α} {k : Nat} {b : α} (h : bs[k]? = some b) :
    tiles w bs =
      tiles w (bs.take k) ++ (w b ++ tiles w (bs.drop (k + 1))) := by
  conv_lhs => rw [eq_take_append h]
  simp

theorem drop_offset {bs : List α} {k : Nat} {b : α} (h : bs[k]? = some b)
    (rest : List β) :
    (tiles w bs ++ rest).drop (offset w bs k) =
      w b ++ (tiles w (bs.drop (k + 1)) ++ rest) := by
  rw [tiles_split w h, List.append_assoc, offset, List.drop_left,
    List.append_assoc]

theorem offset_append_left {bs : List α} {k : Nat} (hk : k ≤ bs.length)
    (cs : List α) : offset w (bs ++ cs) k = offset w bs k := by
  rw [offset, List.take_append_of_le_length hk, offset]

theorem offset_lt_offset (hpos : ∀ b, 0 < (w b).length) {bs : List α}
    {j k : Nat} (hjk : j < k) (hk : k ≤ bs.length) :
    offset w bs j < offset w bs k := by
  induction k with
  | zero => omega
  | succ k ih =>
      have hget := List.getElem?_eq_getElem (show k < bs.length by omega)
      have hsucc := offset_succ w hget
      have hword := hpos bs[k]
      rcases Nat.lt_succ_iff_lt_or_eq.mp hjk with hlt | rfl
      · have hle := ih hlt (by omega)
        omega
      · omega

theorem offset_inj (hpos : ∀ b, 0 < (w b).length) {bs : List α} {j k : Nat}
    (hj : j < bs.length) (hk : k < bs.length) :
    offset w bs j = offset w bs k ↔ j = k := by
  refine ⟨fun h => ?_, fun h => by rw [h]⟩
  rcases Nat.lt_trichotomy j k with hlt | heq | hgt
  · have hoff := offset_lt_offset w hpos hlt (Nat.le_of_lt hk)
    omega
  · exact heq
  · have hoff := offset_lt_offset w hpos hgt (Nat.le_of_lt hj)
    omega

/-! ## Replacing a block -/

theorem tiles_set {bs : List α} {k : Nat} {b : α} (h : bs[k]? = some b)
    (b' : α) :
    tiles w (bs.set k b') =
      tiles w (bs.take k) ++ (w b' ++ tiles w (bs.drop (k + 1))) := by
  have hk : k < bs.length := (List.getElem?_eq_some_iff.mp h).1
  rw [List.set_eq_take_append_cons_drop, if_pos hk]
  simp

theorem offset_set {bs : List α} {k : Nat} {b b' : α} (h : bs[k]? = some b)
    (hlen : (w b').length = (w b).length) (j : Nat) :
    offset w (bs.set k b') j = offset w bs j := by
  induction bs generalizing j k with
  | nil => rfl
  | cons c bs ih =>
      cases j with
      | zero => rfl
      | succ j =>
          cases k with
          | zero =>
              obtain rfl : c = b := by simpa using h
              simp [hlen]
          | succ k =>
              rw [List.set_cons_succ, offset_cons_succ, offset_cons_succ,
                ih (by simpa using h)]

/-! ## Keeping some of the blocks -/

variable (p : α → Bool)

/-- How many of the blocks before block `k` are kept. -/
def rank (bs : List α) (k : Nat) : Nat := ((bs.take k).filter p).length

theorem take_rank (bs : List α) (k : Nat) :
    (bs.filter p).take (rank p bs k) = (bs.take k).filter p := by
  conv_lhs => rw [← List.take_append_drop k bs]
  rw [List.filter_append, rank, List.take_append_drop, List.take_left]

theorem getElem?_rank {bs : List α} {k : Nat} {b : α} (h : bs[k]? = some b)
    (hp : p b) : (bs.filter p)[rank p bs k]? = some b := by
  have hsplit : bs.filter p =
      (bs.take k).filter p ++ b :: (bs.drop (k + 1)).filter p := by
    conv_lhs => rw [eq_take_append h]
    simp [hp]
  rw [hsplit, rank, List.getElem?_append_right (Nat.le_refl _)]
  simp

theorem exists_of_getElem?_filter {bs : List α} {j : Nat} {b : α}
    (h : (bs.filter p)[j]? = some b) :
    ∃ k, bs[k]? = some b ∧ p b ∧ rank p bs k = j := by
  induction bs generalizing j with
  | nil => simp at h
  | cons c bs ih =>
      by_cases hc : p c
      · rw [List.filter_cons_of_pos hc] at h
        cases j with
        | zero =>
            obtain rfl : c = b := by simpa using h
            exact ⟨0, rfl, hc, rfl⟩
        | succ j =>
            obtain ⟨k, hk, hp, hrank⟩ := ih (by simpa using h)
            refine ⟨k + 1, by simpa using hk, hp, ?_⟩
            rw [← hrank]
            simp [rank, hc]
      · rw [List.filter_cons_of_neg hc] at h
        obtain ⟨k, hk, hp, hrank⟩ := ih h
        refine ⟨k + 1, by simpa using hk, hp, ?_⟩
        rw [← hrank]
        simp [rank, hc]

theorem rank_lt_rank {bs : List α} {j k : Nat} {b : α} (h : bs[j]? = some b)
    (hp : p b) (hjk : j < k) : rank p bs j < rank p bs k := by
  have hsplit : bs.take k =
      bs.take j ++ b :: (bs.take k).drop (j + 1) := by
    have hget : (bs.take k)[j]? = some b := by
      rw [List.getElem?_take, if_pos hjk, h]
    have := eq_take_append hget
    rwa [List.take_take, Nat.min_eq_left (by omega)] at this
  rw [rank, rank, hsplit, List.filter_append, List.filter_cons_of_pos hp]
  simp

theorem rank_inj {bs : List α} {j k : Nat} {b c : α} (hj : bs[j]? = some b)
    (hb : p b) (hk : bs[k]? = some c) (hc : p c) :
    rank p bs j = rank p bs k ↔ j = k := by
  refine ⟨fun h => ?_, fun h => by rw [h]⟩
  rcases Nat.lt_trichotomy j k with hlt | heq | hgt
  · have := rank_lt_rank p hj hb hlt
    omega
  · exact heq
  · have := rank_lt_rank p hk hc hgt
    omega

end Iraf.Tiling
