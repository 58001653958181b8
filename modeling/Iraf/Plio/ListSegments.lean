import Iraf.Lib.SegmentQueue
import Iraf.Plio.LineRop
import Iraf.Plio.Readers
import Iraf.Plio.Shelf

/-!
# The segments of a line list

The cursor of `pllseg.h` goes through the segments of the instructions of a list: a run
is one segment however it was made, and a PN is two.
-/

namespace Iraf.Plio

open SegmentWalk

/-- The segments an instruction regenerates, given the high value after it. -/
def Instr.segments (hi : Int) : Instr → List (Nat × Int)
  | zn n => [(n, 0)]
  | hn n => [(n, hi)]
  | pn n => [(n - 1, 0), (1, hi)]
  | is _ | ds _ => [(1, hi)]
  | sh _ | ih _ | dh _ => []

/-- The segments of a list of instructions. -/
def listSegments (hi : Int) : List Instr → List (Nat × Int)
  | [] => []
  | i :: is => i.segments (i.high hi) ++ listSegments (i.high hi) is

theorem segPixels_listSegments (hi : Int) (is : List Instr) :
    segPixels (listSegments hi is) = expand hi is := by
  induction is generalizing hi with
  | nil => rfl
  | cons i is ih =>
      rw [listSegments, segPixels_append, ih, expand_cons]
      congr 1
      cases i with
      | zn n | hn n => exact List.append_nil _
      | pn n | is n | ds n | sh v | ih n | dh n => rfl

theorem listSegments_le {is : List Instr} (hok : ∀ i ∈ is, i.Ok) (hi : Int) :
    ∀ s ∈ listSegments hi is, s.1 ≤ 4095 := by
  induction is generalizing hi with
  | nil => exact fun s hs => absurd hs List.not_mem_nil
  | cons i is ih =>
      obtain ⟨hfirst, hrest⟩ := List.forall_mem_cons.mp hok
      intro s hs
      rcases List.mem_append.mp hs with hs | hs
      · cases i with
        | zn n | hn n =>
            obtain rfl := List.mem_singleton.mp hs
            exact hfirst.2
        | pn n =>
            have hn := hfirst.2
            rcases List.mem_pair.mp hs with rfl | rfl
            · simp only
              omega
            · simp only
              omega
        | is n | ds n =>
            obtain rfl := List.mem_singleton.mp hs
            simp only
            omega
        | sh v | ih n | dh n => exact absurd hs List.not_mem_nil
      · exact ih hrest _ s hs

/-- The cursor has still to deliver the segments. -/
def LlDes.Queue (ll : List Int) (ld : LlDes) (segs : List (Nat × Int)) : Prop :=
  ∃ (n m : Nat) (is : List Instr), ld.nleft = n ∧ ld.nextNleft = m ∧ ld.Position ll is ∧
    (n = 0 → segs = []) ∧
    segs = (if n = 0 then [] else [(n, ld.value)]) ++
      ((if m = 0 then [] else [(m, ld.nextValue)]) ++ listSegments ld.hi is)

variable {ll line : List Int} {ld : LlDes}

theorem LlDes.load_queue {i : Instr} {is : List Instr} (h : ld.Position ll (i :: is))
    (hloud : ¬ i.Silent) (hnext : ld.nextNleft = 0) :
    (ld.load i).Queue ll (listSegments ld.hi (i :: is)) := by
  have hi := h.ok i List.mem_cons_self
  have htail : (ld.load i).Position ll is := h.tail (LlDes.load_fields ld i).1
  cases i with
  | zn d | hn d =>
      have hd : d ≠ 0 := by
        have := hi.1
        omega
      refine ⟨d, 0, is, rfl, hnext, htail, fun hzero => absurd hzero hd, ?_⟩
      rw [if_neg hd]
      rfl
  | pn d =>
      have hd : 2 ≤ d := hi.1
      have hleft : d - 1 ≠ 0 := by omega
      refine ⟨d - 1, 1, is, ?_, rfl, htail, fun hzero => absurd hzero hleft, ?_⟩
      · change (d : Int) - 1 = (d - 1 : Nat)
        omega
      · rw [if_neg hleft]
        rfl
  | is d | ds d => exact ⟨1, 0, is, rfl, hnext, htail, fun hzero => absurd hzero (by decide), rfl⟩
  | sh v | ih d | dh d => exact absurd trivial hloud

theorem LlDes.scanNext_queue (is : List Instr) :
    ∀ {n : Nat} {ld : LlDes}, ld.Position ll is → (packed is).length ≤ n →
      ld.nleft = 0 → ld.nextNleft = 0 →
      (ld.scanNext ll n).Queue ll (listSegments ld.hi is) := by
  induction is with
  | nil =>
      intro n ld h hn hleft hnext
      have hend : ¬ ld.ip ≤ llLen ll := by
        obtain ⟨before, after, -, hip, hlen⟩ := h.words
        rw [packed_nil, List.length_nil] at hlen
        omega
      have hscan : ld.scanNext ll n = { ld with value := 0 } := by
        cases n with
        | zero => rfl
        | succ n => rw [LlDes.scanNext, if_neg hend]
      rw [hscan]
      exact ⟨0, 0, [], hleft, hnext, ⟨h.ok, h.words⟩, fun _ => rfl, rfl⟩
  | cons i is ih =>
      intro n ld h hn hleft hnext
      obtain ⟨before, after, hll, hip, hlen⟩ := h.words
      have hlegal := (h.ok i List.mem_cons_self).legal
      have hwords : 0 < i.words.length := by
        rw [Instr.words_eq]
        exact Nat.succ_pos _
      rw [packed_cons, List.length_append] at hn hlen
      rw [packed_cons, List.append_assoc] at hll
      obtain ⟨n, rfl⟩ : ∃ k, n = k + 1 := ⟨n - 1, by omega⟩
      rw [LlDes.scanNext_words hlegal hll hip (by omega)]
      by_cases hsilent : i.Silent
      · obtain ⟨hloadip, hloadhi, hkeep⟩ := LlDes.load_fields ld i
        have hrest := @ih n (ld.load i) (h.tail hloadip) (by omega)
          ((hkeep hsilent).1.trans hleft) ((hkeep hsilent).2.trans hnext)
        rw [hloadhi] at hrest
        rw [if_pos hsilent, listSegments]
        cases i with
        | sh v | ih d | dh d => exact hrest
        | zn d | hn d | pn d | is d | ds d => exact absurd hsilent id
      · rw [if_neg hsilent]
        exact LlDes.load_queue h hsilent hnext

theorem pllNextseg_queue {is : List Instr} (h : ld.Position ll is) (hleft : ld.nleft = 0)
    (hnext : ld.nextNleft = 0) : (pllNextseg ll ld).Queue ll (listSegments ld.hi is) := by
  obtain ⟨before, after, -, hip, hlen⟩ := h.words
  exact LlDes.scanNext_queue is h (by omega) hleft hnext

theorem pllInit_queue {is : List Instr} (h : Packs ll is) :
    (pllInit ll).Queue ll (listSegments 1 is) := by
  obtain ⟨nref, blen, rest, rfl, hok, hlen⟩ := h
  have hll := llLen_header nref (llCurhdrlen + (packed is).length) blen (packed is ++ rest)
    (by omega) (by exact_mod_cast hlen)
  have hfirst := llFirst_header nref (llCurhdrlen + (packed is).length) blen (packed is ++ rest)
  unfold pllInit
  rw [if_neg (not_oldformat_header nref _ blen _), hfirst]
  refine pllNextseg_queue ⟨hok, _, rest, rfl, ?_, ?_⟩ rfl rfl
  · rw [length_header]
    rfl
  · rw [hll, length_header]

theorem llReader_queues (ll : List Int) : (llReader ll).Queues (LlDes.Queue ll) where
  head := by
    rintro ld k v segs ⟨n, m, is, hn, -, -, hend, hsegs⟩
    have hpos : n ≠ 0 := fun hzero => by cases hend hzero
    rw [if_neg hpos, List.singleton_append, List.cons.injEq, Prod.mk.injEq] at hsegs
    obtain ⟨⟨rfl, -⟩, -⟩ := hsegs
    exact ⟨Nat.pos_of_ne_zero hpos, hn⟩
  value := by
    rintro ld k v segs ⟨n, m, is, hn, -, -, hend, hsegs⟩ np
    have hpos : n ≠ 0 := fun hzero => by cases hend hzero
    rw [if_neg hpos, List.singleton_append, List.cons.injEq, Prod.mk.injEq] at hsegs
    exact hsegs.1.2.symm
  part := by
    rintro ld k v segs ⟨n, m, is, hn, hm, hposition, hend, hsegs⟩ np hnp
    have hpos : n ≠ 0 := fun hzero => by cases hend hzero
    rw [if_neg hpos, List.singleton_append, List.cons.injEq, Prod.mk.injEq] at hsegs
    obtain ⟨⟨rfl, rfl⟩, rfl⟩ := hsegs
    have hleft : k - np ≠ 0 := by omega
    have hget : (pllGetseg ll ld np).1 = { ld with nleft := ld.nleft - np } :=
      congrArg Prod.fst (pllGetseg_within (by omega))
    simp only [llReader, hget]
    refine ⟨k - np, m, is, ?_, hm, ⟨hposition.ok, hposition.words⟩,
      fun hzero => absurd hzero hleft, ?_⟩
    · simp only
      omega
    · rw [if_neg hleft]
      rfl
  next := by
    rintro ld k v segs ⟨n, m, is, hn, hm, hposition, hend, hsegs⟩
    have hpos : n ≠ 0 := fun hzero => by cases hend hzero
    rw [if_neg hpos, List.singleton_append, List.cons.injEq, Prod.mk.injEq] at hsegs
    obtain ⟨⟨rfl, rfl⟩, rfl⟩ := hsegs
    simp only [llReader, ← hn]
    by_cases hqueued : ld.nextNleft > 0
    · have hm0 : m ≠ 0 := by omega
      rw [pllGetseg_queued hqueued, if_neg hm0]
      exact ⟨m, 0, is, hm, rfl, ⟨hposition.ok, hposition.words⟩, fun hzero => absurd hzero hm0,
        by rw [if_neg hm0]; rfl⟩
    · have hnone : ld.nextNleft = 0 := by omega
      obtain rfl : m = 0 := by omega
      rw [pllGetseg_next hnone]
      exact pllNextseg_queue ⟨hposition.ok, hposition.words⟩ rfl hnone

end Iraf.Plio
