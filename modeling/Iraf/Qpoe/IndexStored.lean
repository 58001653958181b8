import Mathlib.Data.List.Nodup
import Iraf.Qpoe.EventIndex

/-!
# When the index survives being stored

The scan of `qpio_mkindex` counts the events of each line, whatever the buckets are.  The
lists of the two vectors then have to fit the buffer of `qpio_open`.
-/

namespace Iraf.Qpoe

open Iraf.Plio

/-! ## Counting the events of a line -/

variable {ps qs : List (Int × Int)} {p : Int × Int} {y : Int}

theorem lineCount_nonneg (ps : List (Int × Int)) (y : Int) : 0 ≤ lineCount ps y :=
  Int.natCast_nonneg _

theorem lineCount_snoc (ps : List (Int × Int)) (p : Int × Int) (y : Int) :
    lineCount (ps ++ [p]) y = lineCount ps y + if p.2 = y then 1 else 0 := by
  by_cases h : p.2 = y <;> simp [lineCount, List.countP_append, h]

theorem lineCount_eq_zero (h : ∀ p ∈ ps, p.2 ≠ y) : lineCount ps y = 0 := by
  rw [lineCount, Int.natCast_eq_zero, List.countP_eq_zero]
  exact fun p hp => by simpa using h p hp

theorem lineStart_eq_zero (h : ∀ p ∈ ps, p.2 ≠ y) : lineStart ps y = 0 :=
  if_pos (lineCount_eq_zero h)

theorem countP_add_le (ps : List (Int × Int)) (y : Int) :
    ps.countP (·.2 < y) + ps.countP (·.2 = y) ≤ ps.length := by
  induction ps with
  | nil => exact le_rfl
  | cons p ps ih =>
      rw [List.countP_cons, List.countP_cons, List.length_cons]
      simp only [decide_eq_true_eq]
      split_ifs <;> omega

theorem lineStart_snoc_of_lt (h : y < p.2) : lineStart (ps ++ [p]) y = lineStart ps y := by
  have hlt : ¬ p.2 < y := by omega
  have hne : p.2 ≠ y := by omega
  rw [lineStart, lineStart, lineCount_snoc, if_neg hne, add_zero, List.countP_append]
  simp [hlt]

/-! ## The scan -/

/-- The state after the pixels `ps`; the line under way has no entry yet. -/
structure Scanned (ps : List (Int × Int)) (s : IndexScan) : Prop where
  ordered : ps.Pairwise NotBefore
  before : ∀ p ∈ ps, NotBefore p (s.ox, s.line)
  last : ps = [] ∧ s.line = 1 ∧ s.ox = -1 ∨ (s.ox, s.line) ∈ ps
  count : s.nevents = lineCount ps s.line
  first : s.firstev = ps.countP (·.2 < s.line) + 1
  ov : ∀ y, s.ov y = if y < s.line then lineStart ps y else 0
  lv : ∀ y, s.lv y = if y < s.line then lineCount ps y else 0

variable {s s' : IndexScan}

theorem Scanned.start : Scanned [] .start where
  ordered := .nil
  before := by simp
  last := .inl ⟨rfl, rfl, rfl⟩
  count := rfl
  first := rfl
  ov y := by split <;> rfl
  lv y := by split <;> rfl

theorem Scanned.none_above (h : Scanned ps s) (hy : s.line < y) : ∀ p ∈ ps, p.2 ≠ y := by
  intro p hp
  have := h.before p hp
  rw [NotBefore] at this
  omega

theorem Scanned.entry (h : Scanned ps s) :
    s.entry.ov = lineStart ps ∧ s.entry.lv = lineCount ps := by
  have hcount := lineCount_nonneg ps s.line
  rw [← h.count] at hcount
  rw [IndexScan.entry]
  constructor
  · funext y
    rcases lt_trichotomy y s.line with hy | rfl | hy
    · have hold : s.ov y = lineStart ps y := by rw [h.ov, if_pos hy]
      split
      · exact (Function.update_of_ne hy.ne _ _).trans hold
      · exact hold
    · split
      case isTrue hpos =>
        refine (Function.update_self _ _ _).trans ?_
        rw [lineStart, ← h.count, if_neg (by omega), h.first]
      case isFalse hnone =>
        rw [h.ov, if_neg (lt_irrefl _), lineStart, ← h.count, if_pos (by omega)]
    · have hold : s.ov y = lineStart ps y := by
        rw [h.ov, if_neg (not_lt.2 hy.le), lineStart_eq_zero (h.none_above hy)]
      split
      · exact (Function.update_of_ne hy.ne' _ _).trans hold
      · exact hold
  · funext y
    rcases lt_trichotomy y s.line with hy | rfl | hy
    · have hold : s.lv y = lineCount ps y := by rw [h.lv, if_pos hy]
      split
      · exact (Function.update_of_ne hy.ne _ _).trans hold
      · exact hold
    · split
      case isTrue hpos => exact (Function.update_self _ _ _).trans h.count
      case isFalse hnone =>
        rw [h.lv, if_neg (lt_irrefl _), ← h.count]
        omega
    · have hold : s.lv y = lineCount ps y := by
        rw [h.lv, if_neg (not_lt.2 hy.le), lineCount_eq_zero (h.none_above hy)]
      split
      · exact (Function.update_of_ne hy.ne' _ _).trans hold
      · exact hold

theorem NotBefore.trans {p q r : Int × Int} (h : NotBefore p q) (h' : NotBefore q r) :
    NotBefore p r := by
  rw [NotBefore] at *
  omega

theorem Scanned.add (h : Scanned ps s) {x : Int} (hadd : s.add (ps.length + 1) x y = some s') :
    Scanned (ps ++ [(x, y)]) s' := by
  rw [IndexScan.add] at hadd
  have hordered : NotBefore (s.ox, s.line) (x, y) → (ps ++ [(x, y)]).Pairwise NotBefore := by
    intro hlast
    refine List.pairwise_append.2 ⟨h.ordered, List.pairwise_singleton _ _, ?_⟩
    intro p hp q hq
    rw [List.mem_singleton.1 hq]
    exact (h.before p hp).trans hlast
  have hbefore : NotBefore (s.ox, s.line) (x, y) →
      ∀ p ∈ ps ++ [(x, y)], NotBefore p (x, y) := by
    intro hlast p hp
    rcases List.mem_append.1 hp with hp | hp
    · exact (h.before p hp).trans hlast
    · rw [List.mem_singleton.1 hp]
      exact .inr ⟨rfl, le_rfl⟩
  have hmem : (x, y) ∈ ps ++ [(x, y)] := by simp
  split at hadd
  case isTrue hy =>
    cases hadd
    have hlast : NotBefore (s.ox, s.line) (x, y) := .inl hy
    obtain ⟨hov, hlv⟩ := h.entry
    refine ⟨hordered hlast, hbefore hlast, .inr hmem, ?_, ?_, ?_, ?_⟩
    · show (1 : Int) = _
      rw [lineCount_snoc, if_pos rfl, lineCount_eq_zero (h.none_above hy)]
      rfl
    · have hall : ps.countP (·.2 < y) = ps.length := by
        rw [List.countP_eq_length]
        intro p hp
        have := h.before p hp
        rw [NotBefore] at this
        simp only [decide_eq_true_eq]
        omega
      rw [List.countP_append, hall]
      simp
    · intro y'
      show s.entry.ov y' = _
      rw [hov]
      split
      case isTrue hy' => exact (lineStart_snoc_of_lt hy').symm
      case isFalse hy' => exact lineStart_eq_zero (h.none_above (by dsimp only at hy'; omega))
    · intro y'
      show s.entry.lv y' = _
      rw [hlv]
      split
      case isTrue hy' =>
        rw [lineCount_snoc, if_neg (by dsimp only at hy' ⊢; omega), add_zero]
      case isFalse hy' => exact lineCount_eq_zero (h.none_above (by dsimp only at hy'; omega))
  case isFalse hy =>
    split at hadd
    case isFalse => cases hadd
    case isTrue heq =>
      subst heq
      split at hadd
      case isTrue => cases hadd
      case isFalse hx =>
        cases hadd
        have hlast : NotBefore (s.ox, s.line) (x, s.line) := .inr ⟨rfl, by simpa using hx⟩
        refine ⟨hordered hlast, hbefore hlast, .inr hmem, ?_, ?_, ?_, ?_⟩
        · show s.nevents + 1 = _
          rw [lineCount_snoc, if_pos rfl, h.count]
        · rw [List.countP_append]
          simp [h.first]
        · intro y'
          show s.ov y' = _
          rw [h.ov]
          split
          case isTrue hy' => rw [lineStart_snoc_of_lt hy']
          case isFalse => rfl
        · intro y'
          show s.lv y' = _
          rw [h.lv]
          split
          case isTrue hy' =>
            rw [lineCount_snoc, if_neg (by dsimp only; omega), add_zero]
          case isFalse => rfl

theorem Scanned.not_add (h : Scanned ps s) {x evi : Int} (hx : 1 ≤ x) (hy : 1 ≤ y)
    (hadd : s.add evi x y = none) : ¬ (ps ++ [(x, y)]).Pairwise NotBefore := by
  intro hordered
  have hcross := (List.pairwise_append.1 hordered).2.2
  rw [IndexScan.add] at hadd
  split at hadd
  case isTrue => cases hadd
  case isFalse hline =>
    rcases h.last with ⟨-, hone, hox⟩ | hmem
    · split at hadd
      case isTrue =>
        split at hadd
        case isTrue => omega
        case isFalse => cases hadd
      case isFalse => omega
    · have hlast := hcross _ hmem (x, y) (by simp)
      rw [NotBefore] at hlast
      dsimp only at hlast
      split at hadd
      case isTrue =>
        split at hadd
        case isTrue => omega
        case isFalse => cases hadd
      case isFalse => omega

/-! ## The buckets -/

/-- The events of the pixels `ps`, from number `evi` on. -/
def addAll : Int → IndexScan → List (Int × Int) → Option IndexScan
  | _, s, [] => some s
  | evi, s, p :: ps => (s.add evi p.1 p.2).bind fun s => addAll (evi + 1) s ps

def outcome : Option IndexScan → Except IndexFault IndexScan
  | none => .error .notSorted
  | some s => .ok s

theorem addAll_append (evi : Int) (s : IndexScan) (ps qs : List (Int × Int)) :
    addAll evi s (ps ++ qs) =
      (addAll evi s ps).bind fun s => addAll (evi + ps.length) s qs := by
  induction ps generalizing evi s with
  | nil => simp [addAll]
  | cons p ps ih =>
      rw [List.cons_append, addAll, addAll]
      cases s.add evi p.1 p.2 with
      | none => rfl
      | some s' =>
          have heq : evi + 1 + (ps.length : Int) = evi + (p :: ps).length := by
            rw [List.length_cons]
            omega
          rw [Option.bind_some, Option.bind_some, ih, heq]

variable {io io' : EventList}

theorem length_pixels_events (io : EventList) : io.pixels.length = io.events.length :=
  List.length_map _

theorem scanBucket_eq (n k : Nat) (s : IndexScan) (hfirst : io.bkFirstEv ≤ k + 1)
    (hlast : (k + n : Int) ≤ io.bkLastEv) (hn : k + n ≤ io.events.length) :
    scanBucket io n (k + 1) s = outcome (addAll (k + 1) s ((io.pixels.drop k).take n)) := by
  induction n generalizing k s with
  | zero => rfl
  | succ n ih =>
      have hk : k < io.events.length := by omega
      have hbucket : io.bucket (k + 1 - io.bkFirstEv) = io.events[k] := by
        rw [io.loaded _ (by omega) hfirst (by omega) (by omega)]
        rw [show ((k : Int) + 1 - 1).toNat = k by omega, List.getD_eq_getElem _ _ hk]
      have hdrop : (io.pixels.drop k).take (n + 1) =
          io.pixel io.events[k] :: (io.pixels.drop (k + 1)).take n := by
        rw [List.drop_eq_getElem_cons (by rwa [length_pixels_events]), List.take_succ_cons]
        simp [EventList.pixels]
      rw [scanBucket, hbucket, hdrop, addAll]
      dsimp only
      cases s.add (k + 1) (io.pixel io.events[k]).1 (io.pixel io.events[k]).2 with
      | none => rfl
      | some s' =>
          have hnext := ih (k + 1) s' (by omega) (by omega) (by omega)
          rw [Nat.cast_add, Nat.cast_one] at hnext
          exact hnext

theorem qpioRbucket_eq {evi : Int} (hlo : 1 ≤ evi) (hhi : evi ≤ io.nevents) :
    ∃ io', qpioRbucket io evi = some io' ∧ io'.pixels = io.pixels ∧
      io'.events = io.events ∧ io'.bkFirstEv ≤ evi ∧ evi ≤ io'.bkLastEv := by
  have hbounds := io.eviToBucket_bounds evi
  have hlast := io.last
  have hfirst := io.first
  rw [EventList.nevents] at hhi
  rw [qpioRbucket, if_neg (by rw [EventList.nevents]; omega)]
  dsimp only
  split
  case isTrue heq =>
    rw [heq, EventList.bucketToEvi, ← hfirst] at hbounds
    exact ⟨io, rfl, rfl, rfl, hbounds.1, by omega⟩
  case isFalse =>
    refine ⟨_, rfl, rfl, rfl, hbounds.1, ?_⟩
    exact le_min hhi hbounds.2

theorem scanEvents_eq (turns k : Nat) (s : IndexScan) (hk : k ≤ io.events.length)
    (hfirst : io.bkFirstEv ≤ k + 1) (hturns : io.events.length - k < turns) :
    scanEvents turns io (k + 1) s = outcome (addAll (k + 1) s (io.pixels.drop k)) := by
  induction turns generalizing io k s with
  | zero => omega
  | succ turns ih =>
      rw [scanEvents, EventList.nevents]
      split
      case isTrue hend =>
        rw [List.drop_of_length_le (by rw [length_pixels_events]; omega)]
        rfl
      case isFalse hmore =>
        obtain ⟨io', hio', hpixels, hevents, hlo, hhi⟩ :
            ∃ io', (if (k : Int) + 1 > io.bkLastEv then qpioRbucket io (k + 1) else some io) =
              some io' ∧ io'.pixels = io.pixels ∧ io'.events = io.events ∧
              io'.bkFirstEv ≤ k + 1 ∧ (k : Int) + 1 ≤ io'.bkLastEv := by
          split
          · exact qpioRbucket_eq (by omega) (by rw [EventList.nevents]; omega)
          · exact ⟨io, rfl, rfl, rfl, hfirst, by omega⟩
        rw [hio']
        dsimp only
        rw [EventList.nevents, hevents]
        obtain ⟨m, hm⟩ : ∃ m : Nat,
            min (io.events.length : Int) io'.bkLastEv - (k + 1) + 1 = m :=
          ⟨_, (Int.toNat_of_nonneg (by omega)).symm⟩
        rw [hm, Int.toNat_natCast, scanBucket_eq m k s hlo (by omega) (by rw [hevents]; omega),
          hpixels]
        have hsplit : io.pixels.drop k = (io.pixels.drop k).take m ++ io.pixels.drop (k + m) := by
          rw [← List.drop_drop, List.take_append_drop]
        have hlength : ((io.pixels.drop k).take m).length = m := by
          rw [List.length_take, List.length_drop, length_pixels_events]
          omega
        conv_rhs => rw [hsplit, addAll_append, hlength]
        cases addAll (k + 1) s ((io.pixels.drop k).take m) with
        | none => rfl
        | some s' =>
            have hnext := @ih io' (k + m) s' (by rw [hevents]; omega) (by omega)
              (by rw [hevents]; omega)
            rw [hpixels] at hnext
            have hcast : ((k + m : Nat) : Int) + 1 = (k : Int) + 1 + m := by omega
            rw [hcast] at hnext
            exact hnext

/-! ## The whole scan -/

theorem pixel_pos (io : EventList) (ev : Event) : 1 ≤ (io.pixel ev).1 ∧ 1 ≤ (io.pixel ev).2 :=
  ⟨le_max_left _ _, le_max_left _ _⟩

theorem Scanned.addAll (h : Scanned ps s) (hqs : ∀ q ∈ qs, 1 ≤ q.1 ∧ 1 ≤ q.2) :
    (∃ s', Qpoe.addAll (ps.length + 1) s qs = some s' ∧ Scanned (ps ++ qs) s') ∨
      Qpoe.addAll (ps.length + 1) s qs = none ∧ ¬ (ps ++ qs).Pairwise NotBefore := by
  induction qs generalizing ps s with
  | nil =>
      rw [List.append_nil]
      exact .inl ⟨s, rfl, h⟩
  | cons q qs ih =>
      obtain ⟨hx, hy⟩ := hqs q (by simp)
      have hsplit : ps ++ q :: qs = (ps ++ [q]) ++ qs := by simp
      rw [hsplit, Qpoe.addAll]
      cases hadd : s.add (ps.length + 1) q.1 q.2 with
      | none =>
          refine .inr ⟨rfl, fun hordered => ?_⟩
          exact h.not_add hx hy hadd (List.pairwise_append.1 hordered).1
      | some s' =>
          have hnext := ih (h.add hadd) (fun q' hq' => hqs q' (by simp [hq']))
          rw [List.length_append, List.length_singleton, Nat.cast_add, Nat.cast_one] at hnext
          exact hnext

theorem qpioMkindex_eq (io : EventList) :
    qpioMkindex io =
      if io.pixels.Pairwise NotBefore then
        .ok ⟨lineStart io.pixels, lineCount io.pixels, plP2l (lineStart io.pixels) 1 io.nlines,
          plP2l (lineCount io.pixels) 1 io.nlines⟩
      else .error .notSorted := by
  obtain ⟨io', hio', hpixels, hevents, hfirst⟩ :
      ∃ io', (qpioRbucket io 1).getD io = io' ∧ io'.pixels = io.pixels ∧
        io'.events = io.events ∧ (io.events = [] ∨ io'.bkFirstEv ≤ 1) := by
    cases hnil : io.events with
    | nil =>
        have hnone : qpioRbucket io 1 = none := by
          have hend : (1 : Int) > io.nevents := by
            rw [EventList.nevents, hnil]
            exact Int.one_pos
          exact if_pos (.inr hend)
        rw [hnone]
        exact ⟨io, rfl, rfl, hnil, .inl rfl⟩
    | cons ev evs =>
        obtain ⟨io', h, hpixels, hevents, hlo, -⟩ := @qpioRbucket_eq io 1 le_rfl (by
          rw [EventList.nevents, hnil, List.length_cons]
          omega)
        rw [h]
        exact ⟨io', rfl, hpixels, by rw [hevents, hnil], .inr hlo⟩
  have hscan : scanEvents (io.events.length + 1) io' 1 .start =
      outcome (addAll 1 .start io.pixels) := by
    rcases hfirst with hnil | hlo
    · have hnone : io.pixels = [] := by rw [EventList.pixels, hnil, List.map_nil]
      have hend : (1 : Int) > io'.nevents := by
        rw [EventList.nevents, hevents, hnil]
        exact Int.one_pos
      rw [hnone, scanEvents, if_pos hend]
      rfl
    · have hall := @scanEvents_eq io' (io.events.length + 1) 0 .start (Nat.zero_le _) hlo
        (by rw [hevents]; omega)
      rw [hpixels] at hall
      exact hall
  rw [qpioMkindex, hio', hscan]
  have hpos : ∀ q ∈ io.pixels, 1 ≤ q.1 ∧ 1 ≤ q.2 := by
    intro q hq
    obtain ⟨ev, -, rfl⟩ := List.mem_map.1 hq
    exact pixel_pos io ev
  rcases Scanned.start.addAll hpos with ⟨s', hadd, hscanned⟩ | ⟨hadd, hnot⟩
  · have hadd' : addAll 1 .start io.pixels = some s' := hadd
    rw [List.nil_append] at hscanned
    obtain ⟨hov, hlv⟩ := hscanned.entry
    rw [hadd', if_pos hscanned.ordered]
    show Except.ok _ = _
    rw [hov, hlv]
  · have hadd' : addAll 1 .start io.pixels = none := hadd
    rw [List.nil_append] at hnot
    rw [hadd', if_neg hnot]
    rfl

theorem owned_of_ordered (h : io.pixels.Pairwise NotBefore) (hlines : 1 ≤ io.nlines) :
    Owned io (lineStart io.pixels) (lineCount io.pixels) := by
  have hsorted : (io.pixels.map (·.2)).Pairwise (· ≤ ·) := by
    rw [List.pairwise_map]
    refine h.imp fun {p q} hpq => ?_
    rw [NotBefore] at hpq
    omega
  have hlength : (io.pixels.map (·.2)).length = io.events.length := by
    rw [List.length_map, length_pixels_events]
  -- the events of a line lie behind those of the lines before it
  have hline : ∀ y evi, 1 ≤ evi → evi ≤ io.nevents →
      (Has (lineStart io.pixels) (lineCount io.pixels) y evi ↔ io.line evi = y) := by
    intro y evi hlo hhi
    rw [EventList.nevents] at hhi
    obtain ⟨k, rfl⟩ : ∃ k : Nat, evi = k + 1 := ⟨(evi - 1).toNat, by omega⟩
    have hk : k < io.events.length := by omega
    have hk' : k < (io.pixels.map (·.2)).length := by rwa [hlength]
    have hget : io.line (k + 1) = (io.pixels.map (·.2))[k] := by
      rw [EventList.line, show ((k : Int) + 1 - 1).toNat = k by omega, List.getD_eq_getElem _ _ hk]
      simp [EventList.pixels]
    rw [hget, sorted_eq_iff hsorted, Has, lineStart, lineCount, List.countP_map, List.countP_map]
    simp only [Function.comp_def]
    split <;> omega
  have hbounds : ∀ evi, 1 ≤ io.line evi ∧ io.line evi ≤ io.nlines := by
    intro evi
    exact ⟨le_max_left _ _, max_le hlines (min_le_left _ _)⟩
  refine ⟨fun y _ _ => lineCount_nonneg _ y, ?_, fun y evi _ _ => hline y evi, ?_⟩
  · rintro y evi - - ⟨hlo, hhi⟩
    have hall := countP_add_le io.pixels y
    rw [length_pixels_events] at hall
    rw [EventList.nevents]
    rw [lineStart, lineCount] at *
    split at hhi <;> split at hlo <;> omega
  · intro evi hlo hhi
    refine ⟨io.line evi, ⟨(hbounds evi).1, (hbounds evi).2, (hline _ evi hlo hhi).2 rfl⟩, ?_⟩
    rintro y ⟨-, -, hy⟩
    exact ((hline y evi hlo hhi).1 hy).symm

/-! ## Storing the vectors -/

theorem entries_eq_pixels {v : Int → Int} (hv : ∀ y, 0 ≤ v y) (n : Int) :
    entries v n = pixels v 1 n.toNat := by
  rw [entries, Plio.pixels]
  refine List.map_congr_left fun i _ => ?_
  rw [max_eq_right (hv _), add_comm]

theorem countP_entries_le {v : Int → Int} (hv : ∀ y, v y ≠ 0 → ∃ p ∈ ps, p.2 = y) (n : Int) :
    (entries v n).countP (· ≠ 0) ≤ ps.length := by
  have hsub : ((List.range n.toNat).filter fun i : Nat => v (i + 1) ≠ 0).map (fun i : Nat => (i : Int) + 1)
      ⊆ ps.map (·.2) := by
    intro y hy
    obtain ⟨i, hi, rfl⟩ := List.mem_map.1 hy
    have hne : v (i + 1) ≠ 0 := by simpa using (List.mem_filter.1 hi).2
    obtain ⟨p, hp, hpy⟩ := hv _ hne
    exact List.mem_map.2 ⟨p, hp, hpy⟩
  have hnodup : (((List.range n.toNat).filter fun i : Nat => v (i + 1) ≠ 0).map
      fun i : Nat => (i : Int) + 1).Nodup := by
    refine List.Nodup.map ?_ (List.nodup_range.filter _)
    intro i j hij
    dsimp only at hij
    omega
  have hle := (List.subperm_of_subset hnodup hsub).length_le
  rw [List.length_map, List.length_map, ← List.countP_eq_length_filter] at hle
  rw [entries, List.countP_map]
  exact hle

/-- The list of a vector has the length that is counted, and it is read back whatever lies
behind it. -/
theorem stored_vector {v : Int → Int} {n : Int} (hn : 1 ≤ n) (hmax : n ≤ maxInt)
    (hps : ps.length < 2 ^ 27) (hrange : ∀ y, 0 ≤ v y ∧ v y ≤ ps.length)
    (hv : ∀ y, v y ≠ 0 → ∃ p ∈ ps, p.2 = y) :
    (plP2l v 1 n).length = lineWords (entries v n) ∧
      ∀ rest, plL2p (plP2l v 1 n ++ rest) 1 n = entries v n := by
  have hline : ∀ w ∈ entries v n, Pixel w := by
    intro w hw
    obtain ⟨i, -, rfl⟩ := List.mem_map.1 hw
    have := hrange (i + 1)
    rw [Pixel, iPvmax]
    omega
  have hlist : plP2l v 1 n = packLine (4094 : Nat) (entries v n) := by
    rw [entries_eq_pixels (fun y => (hrange y).1)]
    exact plP2l_eq v 1 (by omega)
  have hwords : (packLine (4094 : Nat) (entries v n)).length = lineWords (entries v n) :=
    length_packLine hline
  have hlength : (entries v n).length = n.toNat := by simp [entries]
  have hshort : lineWords (entries v n) < 2 ^ 30 := by
    have hle := lineWords_le (entries v n)
    have hcount := countP_entries_le hv n
    rw [hlength] at hle
    rw [maxInt] at hmax
    omega
  refine ⟨by rw [hlist, hwords], fun rest => ?_⟩
  have hencodes := packLine_encodes (show 0 < 4094 by decide) (by decide) hline
    (by rw [hwords]; exact hshort) rest
  rw [encodedLine_of_lt (by decide) (by decide)] at hencodes
  have hread := plL2p_eq_line hencodes (by rw [← List.length_pos_iff, hlength]; omega)
  rw [hlength, Int.toNat_of_nonneg (by omega)] at hread
  rw [hlist]
  exact hread

theorem lineCount_le (ps : List (Int × Int)) (y : Int) : lineCount ps y ≤ ps.length := by
  rw [lineCount]
  exact_mod_cast List.countP_le_length

theorem exists_of_lineCount_ne_zero (h : lineCount ps y ≠ 0) : ∃ p ∈ ps, p.2 = y := by
  by_contra hnone
  refine h (lineCount_eq_zero fun p hp hpy => hnone ⟨p, hp, hpy⟩)

theorem exists_of_lineStart_ne_zero (h : lineStart ps y ≠ 0) : ∃ p ∈ ps, p.2 = y := by
  by_contra hnone
  refine h (lineStart_eq_zero fun p hp hpy => hnone ⟨p, hp, hpy⟩)

theorem lineStart_bounds (ps : List (Int × Int)) (y : Int) :
    0 ≤ lineStart ps y ∧ lineStart ps y ≤ ps.length := by
  rw [lineStart]
  split
  case isTrue => omega
  case isFalse hne =>
    have hall := countP_add_le ps y
    rw [lineCount] at hne
    omega

/-- The index survives when the events are in the order of their pixels and the list of
neither vector has more than two words for each image line. -/
theorem indexStored_iff (io : EventList) (oo : List Int) (hlines : 1 ≤ io.nlines)
    (hmax : io.nlines ≤ maxInt) (hevents : io.events.length < 2 ^ 27)
    (hoo : (oo.length : Int) = 2 * io.nlines) :
    IndexStored io oo ↔
      io.pixels.Pairwise NotBefore ∧
        (lineWords (entries (lineStart io.pixels) io.nlines) : Int) ≤ 2 * io.nlines ∧
        (lineWords (entries (lineCount io.pixels) io.nlines) : Int) ≤ 2 * io.nlines := by
  have hps : io.pixels.length < 2 ^ 27 := by rwa [length_pixels_events]
  obtain ⟨hovlen, hovread⟩ := stored_vector hlines hmax hps (lineStart_bounds io.pixels)
    fun y => exists_of_lineStart_ne_zero
  obtain ⟨hlvlen, hlvread⟩ := stored_vector hlines hmax hps
    (fun y => ⟨lineCount_nonneg io.pixels y, lineCount_le io.pixels y⟩)
    fun y => exists_of_lineCount_ne_zero
  rw [← hovlen, ← hlvlen]
  constructor
  · rintro ⟨index, hindex, -, hload⟩
    rw [qpioMkindex_eq] at hindex
    split at hindex
    case isFalse => cases hindex
    case isTrue hordered =>
      cases hindex
      rw [loadIndex, readWords] at hload
      split at hload
      case h_1 => cases hload
      case h_2 oo' hread =>
        split at hread
        case isFalse => cases hread
        case isTrue hov =>
          cases hread
          dsimp only at hload hov
          rw [readWords] at hload
          split at hload
          case h_1 => cases hload
          case h_2 oo' hread' =>
            split at hread'
            case isFalse => cases hread'
            case isTrue hlv =>
              rw [List.length_append, List.length_drop] at hlv
              exact ⟨hordered, by omega, by omega⟩
  · rintro ⟨hordered, hov, hlv⟩
    refine ⟨_, by rw [qpioMkindex_eq, if_pos hordered], owned_of_ordered hordered hlines, ?_⟩
    have hfirst : readWords oo (plP2l (lineStart io.pixels) 1 io.nlines) =
        some (plP2l (lineStart io.pixels) 1 io.nlines ++
          oo.drop (plP2l (lineStart io.pixels) 1 io.nlines).length) := if_pos (by omega)
    rw [loadIndex, hfirst]
    dsimp only
    rw [readWords, if_pos (by rw [List.length_append, List.length_drop]; omega)]
    dsimp only
    rw [hovread, hlvread]

/-- A list of a single event, in an image of so many lines. -/
def singleEvent (nlines : Int) : EventList where
  ncols := 512
  nlines := nlines
  dtype := .short
  events := [⟨7, 1⟩]
  bucketLen := 1024
  bkno := 1
  bkFirstEv := 1
  bkLastEv := 1
  bucket := fun _ => ⟨7, 1⟩
  bucketLen_pos := by decide
  first := rfl
  last := by decide
  loaded := by
    intro evi hlo _ hhi _
    obtain rfl : evi = 1 := le_antisymm hhi hlo
    rfl

theorem indexStored_singleEvent : IndexStored (singleEvent 8) (List.replicate 16 0) :=
  (indexStored_iff (singleEvent 8) (List.replicate 16 0) (by decide) (by decide) (by decide)
    (by decide)).2 (by decide +kernel)

/-- The list for a single line has nine words, and the buffer has room for two. -/
theorem not_indexStored_singleLine : ¬ IndexStored (singleEvent 1) (List.replicate 2 0) := by
  rintro ⟨index, hindex, -, hload⟩
  have hnone : (qpioMkindex (singleEvent 1)).map
      (fun i => loadIndex (List.replicate 2 0) i.yoffv i.ylenv 1) = .ok none := by decide +kernel
  rw [hindex] at hnone
  have hnone' : loadIndex (List.replicate 2 0) index.yoffv index.ylenv 1 = none :=
    Except.ok.inj hnone
  have hload' : loadIndex (List.replicate 2 0) index.yoffv index.ylenv 1 = some _ := hload
  rw [hnone'] at hload'
  cases hload'

end Iraf.Qpoe
