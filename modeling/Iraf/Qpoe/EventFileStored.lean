import Mathlib.Tactic.Ring
import Mathlib.Tactic.Linarith
import Iraf.Qpoe.EventFile

/-!
# Event lists are stored without loss

The invariant of a list that is being written: the buffer holds the events of the current bucket
and every bucket before it is in the file, with its bounds.
-/

namespace Iraf.Qpoe.EventFile

open Cells

variable {q : Datafile} {io io' : Io} {events : List Event} {b evi : Int}

/-! ## The geometry of buckets -/

theorem Datafile.eventLen_pos (q : Datafile) : 0 < q.eventLen :=
  Int.mul_pos (by have := q.structLen_pos; omega) (by have := q.szStruct_pos; omega)

theorem Datafile.szbBucket_nonneg (q : Datafile) : 0 ≤ q.szbBucket := by
  have hlen := q.eventLen_pos
  have hbucket := q.bucketLen_pos
  have hpage := q.pageSize_pos
  have hsize : 0 < (q.bucketLen + 2) * (q.eventLen * szbChar) :=
    Int.mul_pos (by omega) (by simp only [szbChar]; omega)
  exact Int.mul_nonneg (Int.tdiv_nonneg (by omega) (by omega)) (by omega)

theorem Datafile.bklen_mul_le (q : Datafile) : q.bklen * (q.eventLen * szbChar) ≤ q.szbBucket := by
  have hlen := q.eventLen_pos
  have hne : q.eventLen * szbChar ≠ 0 := by
    simp only [szbChar]
    omega
  rw [Datafile.bklen, Int.tdiv_eq_ediv_of_nonneg q.szbBucket_nonneg]
  exact Int.ediv_mul_le _ hne

theorem BucketFits.szbBucket_pos (h : BucketFits q) : 0 < q.szbBucket := by
  have hle := q.bklen_mul_le
  have hlen := q.eventLen_pos
  have hpos : 0 < q.bklen * (q.eventLen * szbChar) :=
    Int.mul_pos (by unfold BucketFits at h; omega) (by simp only [szbChar]; omega)
  omega

/-- The number of events in a bucket. -/
def Datafile.perBucket (q : Datafile) : Int := q.bklen - 2

theorem BucketFits.perBucket_pos (h : BucketFits q) : 1 ≤ q.perBucket := by
  unfold BucketFits at h
  unfold Datafile.perBucket
  omega

/-- The place of a bucket in the file. -/
def Datafile.offset (q : Datafile) (b : Int) : Int := (b - 1) * q.szbBucket + (q.pageSize + 1)

theorem BucketFits.offset_injective (h : BucketFits q) {b b' : Int}
    (heq : q.offset b = q.offset b') : b = b' := by
  have hpos := h.szbBucket_pos
  have hmul : (b - 1) * q.szbBucket = (b' - 1) * q.szbBucket := by
    unfold Datafile.offset at heq
    omega
  have := Int.eq_of_mul_eq_mul_right hpos.ne' hmul
  omega

theorem bucket_eq {B : Int} (hB : 1 ≤ B) {evi b : Int} (hlow : (b - 1) * B < evi)
    (hhigh : evi ≤ b * B) : (evi - 1) / B + 1 = b := by
  have hquot : (evi - 1) / B = b - 1 := by
    refine Int.ediv_eq_iff_of_pos (by omega) |>.mpr ⟨by omega, ?_⟩
    rw [Int.sub_mul, Int.one_mul]
    omega
  omega

theorem bucket_bounds {B : Int} (hB : 1 ≤ B) (evi : Int) :
    ((evi - 1) / B + 1 - 1) * B < evi ∧ evi ≤ ((evi - 1) / B + 1) * B := by
  have hdiv := Int.ediv_mul_le (evi - 1) (by omega : B ≠ 0)
  have hlt := Int.lt_ediv_add_one_mul_self (evi - 1) (by omega : 0 < B)
  rw [Int.add_sub_cancel]
  omega

/-! ## Minimum and maximum -/

theorem updateFields_compared {better : ℚ → ℚ → Bool} {types : List FieldType} {m e : Event}
    {i : Nat} (hi : types[i]?.any FieldType.compared = true) :
    (updateFields better types m e i).1 = if better (e i).1 (m i).1 then (e i).1 else (m i).1 := by
  unfold updateFields
  rw [hi, Bool.true_and]
  split <;> rfl

theorem foldl_updateFields_other {better : ℚ → ℚ → Bool} {types : List FieldType} {i : Nat}
    (hi : types[i]?.any FieldType.compared = false) (events : List Event) (m : Event) :
    events.foldl (updateFields better types) m i = m i := by
  induction events generalizing m with
  | nil => rfl
  | cons e events ih =>
      rw [List.foldl_cons, ih, updateFields, hi, Bool.false_and, if_neg Bool.false_ne_true]

/-- The field of a minimum is not above that of any event, for an order of the values. -/
theorem foldl_updateFields_le {better : ℚ → ℚ → Bool} {r : ℚ → ℚ → Prop} (hrefl : ∀ a, r a a)
    (htrans : ∀ a b c, r a b → r b c → r a c) (hbetter : ∀ a b, better a b = true → r a b)
    (hworse : ∀ a b, better a b = false → r b a) {types : List FieldType} {i : Nat}
    (hi : types[i]?.any FieldType.compared = true) (events : List Event) (m : Event) :
    r (events.foldl (updateFields better types) m i).1 (m i).1 ∧
      ∀ e ∈ events, r (events.foldl (updateFields better types) m i).1 (e i).1 := by
  induction events generalizing m with
  | nil => exact ⟨hrefl _, nofun⟩
  | cons e events ih =>
      obtain ⟨hm, hevents⟩ := ih (updateFields better types m e)
      rw [updateFields_compared hi] at hm
      rw [List.foldl_cons]
      refine ⟨htrans _ _ _ hm ?_, List.forall_mem_cons.mpr ⟨htrans _ _ _ hm ?_, hevents⟩⟩
      · split
        · next h => exact hbetter _ _ h
        · exact hrefl _
      · split
        · exact hrefl _
        · next h => exact hworse _ _ (Bool.eq_false_of_not_eq_true h)

theorem foldl_minFields_le {types : List FieldType} {i : Nat}
    (hi : types[i]?.any FieldType.compared = true) (events : List Event) (m : Event) :
    ∀ e ∈ events, (events.foldl (minFields types) m i).1 ≤ (e i).1 :=
  (foldl_updateFields_le (r := (· ≤ ·)) le_refl (fun _ _ _ => le_trans)
    (fun _ _ h => (of_decide_eq_true h).le) (fun _ _ h => not_lt.mp (of_decide_eq_false h)) hi
    events m).2

theorem le_foldl_maxFields {types : List FieldType} {i : Nat}
    (hi : types[i]?.any FieldType.compared = true) (events : List Event) (m : Event) :
    ∀ e ∈ events, (e i).1 ≤ (events.foldl (maxFields types) m i).1 :=
  (foldl_updateFields_le (r := (· ≥ ·)) le_refl (fun _ _ _ h h' => le_trans h' h)
    (fun _ _ h => (of_decide_eq_true h).le) (fun _ _ h => not_lt.mp (of_decide_eq_false h)) hi
    events m).2

/-! ## The invariant of a list that is being written -/

/-- The parameters of the list as the first write fixes them. -/
structure Params (q : Datafile) (io : Io) : Prop where
  eventLen : io.eventLen = q.eventLen
  szbBucket : io.szbBucket = q.szbBucket
  bucketLen : io.bucketLen = q.perBucket
  fboff : io.fboff = q.pageSize + 1
  evMinOff : io.evMinOff = q.perBucket * q.eventLen
  evMaxOff : io.evMaxOff = q.perBucket * q.eventLen + q.eventLen

/-- A bucket holds its events behind one another, and bounds of them in the extra slots. -/
structure Bucket (q : Datafile) (events : List Event) (b : Int) (bucket : Memory Event) : Prop where
  holds : ∀ evi, (b - 1) * q.perBucket < evi → evi ≤ b * q.perBucket → evi ≤ events.length →
    bucket ((evi - ((b - 1) * q.perBucket + 1)) * q.eventLen) = nth events evi
  bounded : ∀ evi, (b - 1) * q.perBucket < evi → evi ≤ b * q.perBucket → evi ≤ events.length →
    ∀ i, q.types[i]?.any FieldType.compared = true →
      (bucket (q.perBucket * q.eventLen) i).1 ≤ (nth events evi i).1 ∧
        (nth events evi i).1 ≤ (bucket (q.perBucket * q.eventLen + q.eventLen) i).1
  other : ∀ i, q.types[i]?.any FieldType.compared = false →
    bucket (q.perBucket * q.eventLen) i = nth events ((b - 1) * q.perBucket + 1) i ∧
      bucket (q.perBucket * q.eventLen + q.eventLen) i = nth events ((b - 1) * q.perBucket + 1) i

/-- A bucket of the list is in the file. -/
def InFile (q : Datafile) (lfile : Int → Option (Memory Event)) (events : List Event) (b : Int) :
    Prop :=
  ∃ bucket, lfile (q.offset b) = some bucket ∧ Bucket q events b bucket

/-- The buffer holds the last events, and the buckets before it are in the file. -/
structure Filling (q : Datafile) (io : Io) (events : List Event) : Prop where
  params : Params q io
  evi : io.evi = events.length + 1
  bkno : 1 ≤ io.bkno
  first : io.bkFirstEv = (io.bkno - 1) * q.perBucket + 1
  last : io.bkLastEv = io.bkno * q.perBucket
  low : io.bkFirstEv ≤ io.evi
  room : io.evi ≤ io.bkLastEv + 1
  buffer : ∀ evi, io.bkFirstEv ≤ evi → evi ≤ events.length →
    io.buffer ((evi - io.bkFirstEv) * q.eventLen) = nth events evi
  counted : io.bkFirstEv - 1 ≤ io.nevents ∧ io.nevents ≤ events.length
  before : ∀ b, 1 ≤ b → b < io.bkno → InFile q io.lfile events b

/-- The list is in the file. -/
structure Stored (q : Datafile) (io : Io) (events : List Event) : Prop where
  params : Params q io
  nevents : io.nevents = events.length
  inFile : ∀ b, 1 ≤ b → (b - 1) * q.perBucket < events.length → InFile q io.lfile events b

theorem nth_append {more : List Event} (h : evi ≤ events.length) (h1 : 1 ≤ evi) :
    nth (events ++ more) evi = nth events evi := by
  unfold nth
  rw [List.getD_eq_getElem?_getD, List.getD_eq_getElem?_getD, List.getElem?_append_left (by omega)]

theorem Bucket.append {bucket : Memory Event} (h : Bucket q events b bucket) (hB : 1 ≤ q.perBucket)
    (hb : 1 ≤ b) (hfull : b * q.perBucket ≤ events.length) (more : List Event) :
    Bucket q (events ++ more) b bucket := by
  have hlow : 0 ≤ (b - 1) * q.perBucket := Int.mul_nonneg (by omega) (by omega)
  have hstep : (b - 1) * q.perBucket + q.perBucket = b * q.perBucket := by ring
  constructor
  · intro evi h1 h2 _
    rw [nth_append (by omega) (by omega)]
    exact h.holds evi h1 h2 (by omega)
  · intro evi h1 h2 _
    rw [nth_append (by omega) (by omega)]
    exact h.bounded evi h1 h2 (by omega)
  · intro i hi
    rw [nth_append (by omega) (by omega)]
    exact h.other i hi

theorem InFile.append {lfile : Int → Option (Memory Event)} (h : InFile q lfile events b)
    (hB : 1 ≤ q.perBucket) (hb : 1 ≤ b) (hfull : b * q.perBucket ≤ events.length)
    (more : List Event) : InFile q lfile (events ++ more) b := by
  obtain ⟨bucket, hat, hbucket⟩ := h
  exact ⟨bucket, hat, hbucket.append hB hb hfull more⟩

/-! ## Writing a bucket -/

theorem slot_lt {L j k : Int} (hL : 0 < L) (h : j < k) : j * L + L ≤ k * L := by
  have hle : (j + 1) * L ≤ k * L := Int.mul_le_mul_of_nonneg_right (by omega) (by omega)
  rwa [Int.add_mul, Int.one_mul] at hle

namespace Filling

variable (h : Filling q io events)

include h

theorem nth_mem_bucketEvents (hlow : io.bkFirstEv ≤ evi) (hhigh : evi ≤ events.length) :
    nth events evi ∈ io.bucketEvents := by
  have hevi := h.evi
  refine List.mem_map.mpr ⟨(evi - io.bkFirstEv).toNat, List.mem_range.mpr (by omega), ?_⟩
  rw [Int.toNat_of_nonneg (by omega), h.params.eventLen]
  exact h.buffer evi hlow hhigh

theorem flush_event (hlow : io.bkFirstEv ≤ evi) (hhigh : evi ≤ events.length) :
    (flushBucket q io).buffer ((evi - io.bkFirstEv) * q.eventLen) = nth events evi := by
  have hL := q.eventLen_pos
  have hevi := h.evi
  have hroom := h.room
  have hlast := h.last
  have hfirst := h.first
  have hstep : (io.bkno - 1) * q.perBucket + q.perBucket = io.bkno * q.perBucket := by ring
  have hmin : (evi - io.bkFirstEv) * q.eventLen + q.eventLen ≤ q.perBucket * q.eventLen :=
    slot_lt hL (by omega)
  have hrest : (evi - io.bkFirstEv) * q.eventLen + q.eventLen ≤
      (io.evi - io.bkFirstEv) * q.eventLen := slot_lt hL (by omega)
  rw [← h.buffer evi hlow hhigh]
  simp only [flushBucket, h.params.evMinOff, h.params.evMaxOff, h.params.eventLen]
  rw [if_neg (by omega), if_neg (by omega), if_neg (by omega)]

theorem flush_min : (flushBucket q io).buffer (q.perBucket * q.eventLen) =
    io.bucketEvents.foldl (minFields q.types) (io.buffer 0) := by
  simp only [flushBucket, h.params.evMinOff]
  rw [if_pos trivial]

theorem flush_max : (flushBucket q io).buffer (q.perBucket * q.eventLen + q.eventLen) =
    io.bucketEvents.foldl (maxFields q.types) (io.buffer 0) := by
  have hL := q.eventLen_pos
  simp only [flushBucket, h.params.evMinOff, h.params.evMaxOff]
  rw [if_neg (by omega), if_pos trivial]

theorem flush_bucket (hsome : io.bkFirstEv < io.evi) :
    Bucket q events io.bkno (flushBucket q io).buffer := by
  have hfirst := h.first
  have hevi := h.evi
  have hzero : io.buffer 0 = nth events io.bkFirstEv := by
    rw [← h.buffer io.bkFirstEv (by omega) (by omega), Int.sub_self, Int.zero_mul]
  constructor
  · intro evi h1 h2 h3
    rw [← hfirst]
    exact h.flush_event (by omega) h3
  · intro evi h1 h2 h3 i hi
    have hmem := h.nth_mem_bucketEvents (by omega) h3
    rw [h.flush_min, h.flush_max]
    exact ⟨foldl_minFields_le hi _ _ _ hmem, le_foldl_maxFields hi _ _ _ hmem⟩
  · intro i hi
    rw [h.flush_min, h.flush_max, ← hfirst, ← hzero]
    exact ⟨foldl_updateFields_other hi _ _, foldl_updateFields_other hi _ _⟩

theorem flush_inFile (hfits : BucketFits q) (hsome : io.bkFirstEv < io.evi) (hb : 1 ≤ b)
    (hle : b ≤ io.bkno) : InFile q (flushBucket q io).lfile events b := by
  have hplace : (io.bkno - 1) * io.szbBucket + io.fboff = q.offset io.bkno := by
    rw [h.params.szbBucket, h.params.fboff, Datafile.offset]
  by_cases hlast : b = io.bkno
  · refine ⟨(flushBucket q io).buffer, ?_, hlast ▸ h.flush_bucket hsome⟩
    rw [hlast, ← hplace]
    exact Function.update_self ..
  · obtain ⟨bucket, hat, hbucket⟩ := h.before b hb (by omega)
    refine ⟨bucket, ?_, hbucket⟩
    rw [← hat]
    refine Function.update_of_ne ?_ ..
    rw [hplace]
    exact fun heq => hlast (hfits.offset_injective heq)

end Filling

/-- What a list is after its bucket is written: the buffer has room, and the list is stored. -/
structure Flushed (q : Datafile) (io : Io) (events : List Event) : Prop where
  filling : Filling q io events
  free : io.evi ≤ io.bkLastEv
  stored : Stored q io events

theorem Flushed.of_setBucket (hfits : BucketFits q) (hparams : Params q io)
    (hevi : io.evi = events.length + 1) (hnevents : io.nevents = events.length)
    (hfile : ∀ b, 1 ≤ b → (b - 1) * q.perBucket < events.length → InFile q io.lfile events b)
    (hbuffer : ∀ evi, (io.evi - 1) / q.perBucket * q.perBucket < evi → evi ≤ events.length →
      io.buffer ((evi - ((io.evi - 1) / q.perBucket * q.perBucket + 1)) * q.eventLen) =
        nth events evi) :
    Flushed q (io.setBucket ((io.evi - 1).tdiv io.bucketLen + 1)) events := by
  have hB := hfits.perBucket_pos
  have hbounds := bucket_bounds hB io.evi
  have hquot : 0 ≤ (io.evi - 1) / q.perBucket := Int.ediv_nonneg (by omega) (by omega)
  have hadd : ((io.evi - 1) / q.perBucket + 1) * q.perBucket =
      (io.evi - 1) / q.perBucket * q.perBucket + q.perBucket := by ring
  rw [Int.add_sub_cancel, hadd] at hbounds
  have hparams' : Params q (io.setBucket ((io.evi - 1).tdiv io.bucketLen + 1)) :=
    ⟨hparams.eventLen, hparams.szbBucket, hparams.bucketLen, hparams.fboff, hparams.evMinOff,
      hparams.evMaxOff⟩
  rw [hparams.bucketLen, Int.tdiv_eq_ediv_of_nonneg (by omega)] at hparams' ⊢
  have hfirst : (io.setBucket ((io.evi - 1) / q.perBucket + 1)).bkFirstEv =
      (io.evi - 1) / q.perBucket * q.perBucket + 1 := by
    simp only [Io.setBucket, hparams.bucketLen, Int.add_sub_cancel]
  have hlast : (io.setBucket ((io.evi - 1) / q.perBucket + 1)).bkLastEv =
      (io.evi - 1) / q.perBucket * q.perBucket + q.perBucket := by
    simp only [Io.setBucket, hparams.bucketLen]
    rw [Int.add_sub_cancel]
    omega
  refine ⟨?_, ?_, hparams', hnevents, hfile⟩
  · constructor
    · exact hparams'
    · exact hevi
    · exact Int.le_add_of_nonneg_left hquot
    · rw [hfirst]
      simp only [Io.setBucket, Int.add_sub_cancel]
    · rw [hlast]
      simp only [Io.setBucket, hadd]
    · rw [hfirst]
      simp only [Io.setBucket]
      omega
    · rw [hlast]
      simp only [Io.setBucket]
      omega
    · rw [hfirst]
      intro evi hlow hhigh
      exact hbuffer evi (by omega) hhigh
    · rw [hfirst]
      simp only [Io.setBucket]
      omega
    · intro b hb hlt
      refine hfile b hb ?_
      have hle : (b - 1) * q.perBucket + q.perBucket ≤ (io.evi - 1) / q.perBucket * q.perBucket :=
        slot_lt (by omega) (by
          simp only [Io.setBucket] at hlt
          omega)
      omega
  · rw [hlast]
    simp only [Io.setBucket]
    omega

namespace Filling

variable (h : Filling q io events) (hfits : BucketFits q)

include h hfits

theorem lt_bkno (hb : (b - 1) * q.perBucket < events.length) (hnone : io.bkFirstEv = io.evi) :
    b < io.bkno := by
  have hB := hfits.perBucket_pos
  have hfirst := h.first
  have hevi := h.evi
  by_contra hle
  have := Int.mul_le_mul_of_nonneg_right (show io.bkno - 1 ≤ b - 1 by omega)
    (show 0 ≤ q.perBucket by omega)
  omega

theorem le_bkno (hb : (b - 1) * q.perBucket < events.length) : b ≤ io.bkno := by
  have hB := hfits.perBucket_pos
  have hlast := h.last
  have hroom := h.room
  have hevi := h.evi
  by_contra hlt
  have := Int.mul_le_mul_of_nonneg_right (show io.bkno ≤ b - 1 by omega)
    (show 0 ≤ q.perBucket by omega)
  omega

/-- The next event belongs to the bucket in the buffer, or to the one behind it. -/
theorem next_bucket : (io.evi - 1) / q.perBucket = io.bkno - 1 ∧ io.evi ≤ io.bkLastEv ∨
    io.evi = io.bkLastEv + 1 ∧ (io.evi - 1) / q.perBucket = io.bkno := by
  have hB := hfits.perBucket_pos
  have hfirst := h.first
  have hlast := h.last
  have hlow := h.low
  by_cases hfull : io.evi = io.bkLastEv + 1
  · right
    refine ⟨hfull, ?_⟩
    rw [hfull, hlast, Int.add_sub_cancel, Int.mul_ediv_cancel _ (by omega)]
  · have hroom := h.room
    have hbucket := bucket_eq hB (by omega : (io.bkno - 1) * q.perBucket < io.evi) (by omega)
    left
    omega

theorem wbucket : ∃ io', qpioWbucket q io io.evi = .ok io' ∧ Flushed q io' events ∧
    io'.active = io.active := by
  have hB := hfits.perBucket_pos
  have hevi := h.evi
  have hfirst := h.first
  have hcounted := h.counted
  have hlow := h.low
  have hzero : io.bucketLen ≠ 0 := by
    rw [h.params.bucketLen]
    omega
  have hnext := h.next_bucket hfits
  have hmul : ∀ n : Int, n = io.bkno → n * q.perBucket = io.bkLastEv :=
    fun n hn => hn ▸ h.last.symm
  unfold qpioWbucket
  by_cases hsome : io.evi > io.bkFirstEv
  · rw [if_pos hsome, if_neg (by exact hzero)]
    refine ⟨_, rfl, ?_, rfl⟩
    refine @Flushed.of_setBucket q (flushBucket q io) events hfits
      ⟨h.params.1, h.params.2, h.params.3, h.params.4, h.params.5, h.params.6⟩ hevi ?_ ?_ ?_
    · change max io.nevents (io.evi - 1) = events.length
      omega
    · exact fun b hb hlt => h.flush_inFile hfits hsome hb (h.le_bkno hfits hlt)
    · intro evi h1 h2
      change (io.evi - 1) / q.perBucket * q.perBucket < evi at h1
      change (flushBucket q io).buffer
        ((evi - ((io.evi - 1) / q.perBucket * q.perBucket + 1)) * q.eventLen) = nth events evi
      rcases hnext with ⟨hsame, hle⟩ | ⟨hfull, hbucket⟩
      · rw [hsame] at h1 ⊢
        rw [← hfirst]
        exact h.flush_event (by omega) h2
      · rw [hmul _ hbucket] at h1
        omega
  · rw [if_neg hsome, if_neg hzero]
    refine ⟨_, rfl, ?_, rfl⟩
    refine Flushed.of_setBucket hfits h.params hevi (by omega) ?_ ?_
    · exact fun b hb hlt => h.before b hb (h.lt_bkno hfits hlt (by omega))
    · intro evi h1 h2
      rcases hnext with ⟨hsame, hle⟩ | ⟨hfull, hbucket⟩
      · rw [hsame] at h1
        omega
      · rw [hmul _ hbucket] at h1
        omega

theorem writeFull : ∃ io', writeFull q io = .ok io' ∧ Filling q io' events ∧
    io'.evi ≤ io'.bkLastEv ∧ io'.active = io.active := by
  unfold EventFile.writeFull
  by_cases hfull : io.evi > io.bkLastEv
  · rw [if_pos hfull]
    obtain ⟨io', hrun, hflushed, hactive⟩ := h.wbucket hfits
    exact ⟨io', hrun, hflushed.filling, hflushed.free, hactive⟩
  · rw [if_neg hfull]
    exact ⟨io, rfl, h, by omega, rfl⟩

end Filling

end Iraf.Qpoe.EventFile
