import Iraf.Qpoe.EventFileRuns

/-!
# Reading an event list back

What is in the file is read event by event, and the lists that are stored without loss.
-/

namespace Iraf.Qpoe.EventFile

open Cells

variable {q : Datafile} {io : Io} {events : List Event} {ops : List Op} {b evi : Int}

/-! ## Reading -/

/-- The buffer of a reader is empty or holds a bucket of the list. -/
structure Reading (q : Datafile) (io : Io) (events : List Event) : Prop where
  stored : Stored q io events
  loaded : io.bkno ≠ 0 →
    io.bkFirstEv = (io.bkno - 1) * q.perBucket + 1 ∧ Bucket q events io.bkno io.buffer

theorem Reading.rbucket (h : Reading q io events) (hfits : BucketFits q) (hlow : 1 ≤ evi)
    (hhigh : evi ≤ events.length) : ∃ io', qpioRbucket io evi = .ok (some io') ∧
      Reading q io' events ∧
      io'.buffer ((evi - io'.bkFirstEv) * io'.eventLen) = nth events evi := by
  have hB := hfits.perBucket_pos
  have hparams := h.stored.params
  have hnevents := h.stored.nevents
  obtain ⟨h1, h2⟩ := bucket_bounds hB evi
  have hquot : 0 ≤ (evi - 1) / q.perBucket := Int.ediv_nonneg (by omega) (by omega)
  unfold qpioRbucket
  rw [if_neg (by omega), hparams.bucketLen, if_neg (by omega)]
  simp only [Int.tdiv_eq_ediv_of_nonneg (show 0 ≤ evi - 1 by omega)]
  generalize hbkno : (evi - 1) / q.perBucket + 1 = bkno at h1 h2
  by_cases hsame : bkno = io.bkno
  · obtain ⟨hfirst, hbucket⟩ := h.loaded (by omega)
    rw [if_pos hsame]
    refine ⟨io, rfl, h, ?_⟩
    rw [hfirst, hparams.eventLen]
    exact hbucket.holds evi (hsame ▸ h1) (hsame ▸ h2) hhigh
  · obtain ⟨bucket, hat, hbucket⟩ := h.stored.inFile bkno (by omega) (by omega)
    rw [Datafile.offset, ← hparams.szbBucket, ← hparams.fboff] at hat
    rw [if_neg hsame, hat]
    refine ⟨_, rfl, ⟨⟨?_, hnevents, h.stored.inFile⟩, fun _ => ⟨rfl, hbucket⟩⟩, ?_⟩
    · exact ⟨hparams.1, hparams.2, rfl, hparams.4, hparams.5, hparams.6⟩
    · simp only [hparams.eventLen]
      exact hbucket.holds evi h1 h2 hhigh

theorem Reading.readFrom (h : Reading q io events) (hfits : BucketFits q) {fuel k : Nat}
    (hk : k ≤ events.length) (hfuel : events.length < fuel + k) :
    readFrom fuel io (k + 1) = .ok (events.drop k) := by
  induction fuel generalizing io k with
  | zero => omega
  | succ fuel ih =>
      rw [EventFile.readFrom]
      by_cases hend : k = events.length
      · have heof : qpioRbucket io (k + 1) = .ok none := by
          rw [qpioRbucket, if_pos (by have := h.stored.nevents; omega)]
        rw [heof, hend, List.drop_length]
        rfl
      · obtain ⟨io', hrun, hreading, hvalue⟩ :=
          h.rbucket hfits (show (1 : Int) ≤ k + 1 by omega) (by omega)
        have hrest := ih hreading (k := k + 1) (by omega) (by omega)
        have hnth : nth events (k + 1) = events[k] := by
          rw [nth, Int.add_sub_cancel, Int.toNat_natCast, List.getD_eq_getElem?_getD,
            List.getElem?_eq_getElem (by omega), Option.getD_some]
        push_cast at hrest
        rw [hrun]
        change (EventFile.readFrom fuel io' (k + 1 + 1) >>= fun events => Except.ok
          (io'.buffer ((k + 1 - io'.bkFirstEv) * io'.eventLen) :: events)) = _
        rw [hrest, hvalue, hnth, List.drop_eq_getElem_cons (show k < events.length by omega)]
        rfl

theorem Stored.readList (h : Stored q io events) (hfits : BucketFits q) (hbkno : io.bkno = 0) :
    readList io = .ok events := by
  rw [EventFile.readList, h.nevents, Int.toNat_natCast]
  exact @Reading.readFrom q io events ⟨h, fun hne => absurd hbkno hne⟩ hfits
    (events.length + 1) 0 (Nat.zero_le _) (by omega)

theorem Stored.slotsInside (h : Stored q io events) (hfits : BucketFits q) : SlotsInside io := by
  have hB := hfits.perBucket_pos
  have hL := q.eventLen_pos
  have hle := q.bklen_mul_le
  have hprod : 0 ≤ q.perBucket * q.eventLen := Int.mul_nonneg (by omega) (by omega)
  have hbklen : q.bklen * q.eventLen = q.perBucket * q.eventLen + 2 * q.eventLen := by
    rw [Datafile.perBucket]
    ring
  rw [← Int.mul_assoc, hbklen] at hle
  obtain ⟨h1, h2, h3, h4, h5, h6⟩ := h.params
  constructor
  · rw [h1, h3, h5]
  · rwa [h5]
  · rw [h1, h5, h6]
  · rw [h1, h2, h6]
    refine le_trans (le_of_eq ?_) hle
    ring

theorem Stored.bucket (h : Stored q io events) (hfits : BucketFits q) (hlow : 1 ≤ evi)
    (hhigh : evi ≤ events.length) : ∃ bucket,
      io.lfile ((evi - 1).tdiv io.bucketLen * io.szbBucket + io.fboff) = some bucket ∧
        Bucket q events ((evi - 1) / q.perBucket + 1) bucket := by
  have hB := hfits.perBucket_pos
  have hquot : 0 ≤ (evi - 1) / q.perBucket := Int.ediv_nonneg (by omega) (by omega)
  obtain ⟨h1, h2⟩ := bucket_bounds hB evi
  obtain ⟨bucket, hat, hbucket⟩ :=
    h.inFile ((evi - 1) / q.perBucket + 1) (by omega) (by omega)
  refine ⟨bucket, ?_, hbucket⟩
  rw [← hat, h.params.bucketLen, h.params.szbBucket, h.params.fboff, Datafile.offset,
    Int.tdiv_eq_ediv_of_nonneg (by omega), Int.add_sub_cancel]

/-! ## The fields that are bounded -/

/-- The bounds of a stored bucket are those of its events where the fields that are not compared
are the same. -/
theorem Stored.boundedIn_iff (h : Stored q io events) (hfits : BucketFits q) (hlow : 1 ≤ evi)
    (hhigh : evi ≤ events.length) : BoundedIn q io evi (nth events evi) ↔
      ∀ i type, q.types[i]? = some type → type = .bool ∨ type = .char →
        (nth events evi i).1 = (nth events ((evi - 1) / q.perBucket * q.perBucket + 1) i).1 := by
  have hB := hfits.perBucket_pos
  obtain ⟨h1, h2⟩ := bucket_bounds hB evi
  obtain ⟨bucket, hat, hbucket⟩ := h.bucket hfits hlow hhigh
  have hother := hbucket.other
  rw [Int.add_sub_cancel] at hother
  constructor
  · rintro ⟨bucket', hat', hbound⟩ i type htype hcase
    rw [hat, Option.some_inj] at hat'
    subst hat'
    have hcompared : q.types[i]?.any FieldType.compared = false := by
      rw [htype]
      rcases hcase with rfl | rfl <;> rfl
    have hne : type ≠ .complex := by rcases hcase with rfl | rfl <;> decide
    obtain ⟨hmin, hmax⟩ := hother i hcompared
    have hle := hbound i type htype hne
    rw [h.params.evMinOff, h.params.evMaxOff, hmin, hmax] at hle
    exact le_antisymm hle.2 hle.1
  · intro hconst
    refine ⟨bucket, hat, ?_⟩
    intro i type htype hne
    rw [h.params.evMinOff, h.params.evMaxOff]
    by_cases hcompared : q.types[i]?.any FieldType.compared = true
    · exact hbucket.bounded evi h1 h2 hhigh i hcompared
    · have hcase : type = .bool ∨ type = .char := by
        rw [htype] at hcompared
        cases type with
        | bool => exact Or.inl rfl
        | char => exact Or.inr rfl
        | complex => exact absurd rfl hne
        | short | int | long | real | double => exact absurd rfl hcompared
      obtain ⟨hmin, hmax⟩ := hother i (Bool.eq_false_of_not_eq_true hcompared)
      rw [hmin, hmax, hconst i type htype hcase]
      exact ⟨le_refl _, le_refl _⟩

/-- Events agree in a field with the first of their bucket, or with one another. -/
theorem constantFields_iff (hfits : BucketFits q) : ConstantFields q events ↔
    ∀ evi : Int, 1 ≤ evi → evi ≤ events.length →
      ∀ i type, q.types[i]? = some type → type = .bool ∨ type = .char →
        (nth events evi i).1 = (nth events ((evi - 1) / q.perBucket * q.perBucket + 1) i).1 := by
  have hB := hfits.perBucket_pos
  constructor
  · intro h evi hlow hhigh i type htype hcase
    obtain ⟨h1, h2⟩ := bucket_bounds hB evi
    rw [Int.add_sub_cancel] at h1
    have hnonneg : 0 ≤ (evi - 1) / q.perBucket * q.perBucket :=
      Int.mul_nonneg (Int.ediv_nonneg (by omega) (by omega)) (by omega)
    refine h i type htype hcase evi _ hlow hhigh (by omega) (by omega) ?_
    change (evi - 1) / q.perBucket = _ / q.perBucket
    rw [Int.add_sub_cancel, Int.mul_ediv_cancel _ (by omega)]
  · intro h i type htype hcase evi evi' hlow hhigh hlow' hhigh' hsame
    change (evi - 1) / q.perBucket = (evi' - 1) / q.perBucket at hsame
    rw [h evi hlow hhigh i type htype hcase, h evi' hlow' hhigh' i type htype hcase, hsame]

/-! ## Buckets without room for an event -/

/-- The state of a writer whose bucket length is negative: nothing is stored. -/
structure Dropping (q : Datafile) (io : Io) : Prop where
  active : io.active = true
  eventLen : io.eventLen = q.eventLen
  bucketLen : io.bucketLen = q.perBucket
  nevents : io.nevents = 0
  evi : io.evi = 1
  first : io.bkFirstEv = 1
  last : io.bkLastEv = q.perBucket

namespace Dropping

variable (h : Dropping q io) (hneg : q.perBucket < 0)

include h

theorem sync (hheader : HeaderFits q) : ∃ io', qpioSync q io = .ok io' ∧ Dropping q io' ∧
    io'.header = some (io.listHeader q) := by
  refine ⟨{ io with header := some (io.listHeader q) }, ?_, ?_, rfl⟩
  · rw [qpioSync, flushBuffer, if_neg (by have := h.evi; omega)]
    exact writeHeader_ok hheader h.eventLen
  · exact ⟨h.1, h.2, h.3, h.4, h.5, h.6, h.7⟩

include hneg

theorem writeFull : ∃ io', writeFull q io = .ok io' ∧ Dropping q io' := by
  have hevi := h.evi
  refine ⟨io.setBucket 1, ?_, ?_⟩
  · rw [EventFile.writeFull, if_pos (by have := h.last; omega), qpioWbucket, hevi, h.first,
      if_neg (Int.lt_irrefl 1), if_neg (by rw [h.bucketLen]; omega), Int.sub_self, Int.zero_tdiv]
    rfl
  · constructor
    · exact h.active
    · exact h.eventLen
    · exact h.bucketLen
    · exact h.nevents
    · exact hevi
    · simp only [Io.setBucket]
      ring
    · simp only [Io.setBucket, h.bucketLen]
      ring

theorem copyEvents (fuel : Nat) (more : List Event) :
    copyEvents q fuel io more = .ok io := by
  cases fuel with
  | zero => rfl
  | succ fuel =>
      rw [EventFile.copyEvents]
      by_cases hnil : more = []
      · rw [if_pos hnil]
      · have hnone : min (more.length : Int) (io.bkLastEv - io.evi + 1) ≤ 0 := by
          have hlast := h.last
          have hevi := h.evi
          omega
        rw [if_neg hnil, if_pos hnone]

end Dropping

/-- The state of a writer whose bucket length is negative, after some calls. -/
def Dropped (q : Datafile) (io : Io) : Bool → Prop
  | false => Fresh q io
  | true => Dropping q io

namespace Dropped

variable {started : Bool} (h : Dropped q io started) (hheader : HeaderFits q)
  (hneg : q.perBucket < 0)

include h hheader hneg

theorem putevents (more : List Event) : ∃ io', qpioPutevents q io more = .ok io' ∧
    Dropping q io' := by
  obtain ⟨io₁, hstart, hdropping⟩ : ∃ io₁, startWriting q io = .ok io₁ ∧ Dropping q io₁ := by
    unfold startWriting
    cases started with
    | false =>
        rw [if_neg (by rw [Fresh.active h]; exact Bool.false_ne_true)]
        exact ⟨_, startList_ok hheader io, rfl, rfl, rfl, rfl, rfl, rfl, rfl⟩
    | true =>
        rw [if_pos (Dropping.active h)]
        exact ⟨io, rfl, h⟩
  obtain ⟨io₂, hfull, hdropping₂⟩ := hdropping.writeFull hneg
  refine ⟨io₂, ?_, hdropping₂⟩
  rw [qpioPutevents, hstart]
  change (writeFull q io₁ >>= fun io => copyEvents q more.length io more) = _
  rw [hfull]
  exact hdropping₂.copyEvents hneg _ _

theorem op (o : Op) : ∃ io', o.run q io = .ok io' ∧ Dropped q io' (started || o.puts) := by
  cases o with
  | putevents more =>
      rw [Op.puts, Bool.or_true]
      exact h.putevents hheader hneg more
  | sync =>
      rw [Op.puts, Bool.or_false]
      cases started with
      | false =>
          refine ⟨_, Fresh.sync h, ?_⟩
          exact ⟨h.active, h.eventLen, h.evi, h.nevents, h.minEvl⟩
      | true =>
          obtain ⟨io', hrun, hdropping, -⟩ := Dropping.sync h hheader
          exact ⟨io', hrun, hdropping⟩

theorem runOps (ops : List Op) : ∃ io', runOps q io ops = .ok io' ∧
    Dropped q io' (started || ops.any Op.puts) := by
  induction ops generalizing io started with
  | nil =>
      rw [List.any_nil, Bool.or_false]
      exact ⟨io, rfl, h⟩
  | cons o ops ih =>
      obtain ⟨io₁, hrun, hdropped⟩ := h.op hheader hneg o
      obtain ⟨io₂, hrun₂, hdropped₂⟩ := ih hdropped
      refine ⟨io₂, ?_, ?_⟩
      · rw [EventFile.runOps, hrun]
        exact hrun₂
      · rw [List.any_cons, ← Bool.or_assoc]
        exact hdropped₂

end Dropped

/-! ## Lists that nothing is put into, and writers that stop -/

namespace Fresh

variable (h : Fresh q io)

include h

theorem op {o : Op} (hnone : o.puts = false) : ∃ io', o.run q io = .ok io' ∧ Fresh q io' := by
  cases o with
  | putevents more => cases hnone
  | sync =>
      refine ⟨_, h.sync, ?_⟩
      exact ⟨h.active, h.eventLen, h.evi, h.nevents, h.minEvl⟩

theorem runOps (hnone : ops.any Op.puts = false) : ∃ io', runOps q io ops = .ok io' ∧
    Fresh q io' := by
  induction ops generalizing io with
  | nil => exact ⟨io, rfl, h⟩
  | cons o ops ih =>
      rw [List.any_cons, Bool.or_eq_false_iff] at hnone
      obtain ⟨io₁, hrun, hfresh⟩ := h.op hnone.1
      obtain ⟨io₂, hrun₂, hfresh₂⟩ := ih hfresh hnone.2
      refine ⟨io₂, ?_, hfresh₂⟩
      rw [EventFile.runOps, hrun]
      exact hrun₂

theorem runOps_error {fault : Fault}
    (hput : ∀ io more, Fresh q io → qpioPutevents q io more = .error fault)
    (hputs : ops.any Op.puts = true) : EventFile.runOps q io ops = .error fault := by
  induction ops generalizing io with
  | nil => exact absurd hputs Bool.false_ne_true
  | cons o ops ih =>
      rw [EventFile.runOps]
      cases hnone : o.puts with
      | true =>
          cases o with
          | putevents more =>
              rw [Op.run, hput io more h]
              rfl
          | sync => exact absurd hnone Bool.false_ne_true
      | false =>
          rw [List.any_cons, hnone, Bool.false_or] at hputs
          obtain ⟨io₁, hrun, hfresh⟩ := h.op hnone
          rw [hrun]
          exact ih hfresh hputs

theorem putevents_headerOverflow (hheader : ¬ HeaderFits q) (more : List Event) :
    qpioPutevents q io more = .error .headerOverflow := by
  rw [qpioPutevents, startWriting, if_neg (by rw [h.active]; exact Bool.false_ne_true),
    startList_error hheader]
  rfl

theorem putevents_divide (hheader : HeaderFits q) (htwo : q.bklen = 2) (more : List Event) :
    qpioPutevents q io more = .error .divide := by
  have hlast : (io.started q).bkLastEv = 0 := by
    simp only [Io.started, Io.fixParameters, htwo]
    rfl
  have hlen : (io.started q).bucketLen = 0 := by
    simp only [Io.started, Io.fixParameters, htwo]
    rfl
  have hfull : writeFull q (io.started q) = .error .divide := by
    have hnone : (if (io.started q).evi > (io.started q).bkFirstEv
        then flushBucket q (io.started q) else io.started q) = io.started q :=
      if_neg (by exact Int.lt_irrefl 1)
    rw [writeFull, hlast, if_pos (by exact Int.one_pos), qpioWbucket, hnone, if_pos hlen]
  rw [qpioPutevents, startWriting, if_neg (by rw [h.active]; exact Bool.false_ne_true),
    startList_ok hheader]
  change (writeFull q (io.started q) >>= fun io => copyEvents q more.length io more) = _
  rw [hfull]
  rfl

end Fresh

theorem not_storedExactly_of_error {fault : Fault}
    (hrun : runOps q (qpioOpenNew q) ops = .error fault) : ¬ StoredExactly q ops := by
  rintro ⟨io, header, hwrite, -⟩
  rw [writeList, hrun] at hwrite
  cases hwrite

theorem readList_nil (hnevents : io.nevents = 0) : readList io = .ok [] := by
  rw [readList, hnevents, Int.toNat_zero, readFrom, qpioRbucket,
    if_pos (Or.inr (by omega))]
  rfl

theorem storedExactly_iff_nil {header : Header} (hwrite : writeList q ops = .ok io)
    (hheader : io.header = some header) (hnone : header.nevents = 0) :
    StoredExactly q ops ↔ written ops = [] := by
  constructor
  · rintro ⟨io', header', hwrite', hheader', hnevents, -⟩
    rw [hwrite, Except.ok.injEq] at hwrite'
    subst hwrite'
    rw [hheader, Option.some_inj] at hheader'
    subst hheader'
    exact List.length_eq_zero_iff.mp (by omega)
  · intro hnil
    refine ⟨io, header, hwrite, hheader, ?_, ?_, ?_⟩
    · rw [hnil, hnone]
      rfl
    · rw [hnil]
      exact readList_nil hnone
    · rw [hnil]
      intro evi hlow hhigh
      rw [List.length_nil] at hhigh
      omega

theorem written_of_none (hnone : ops.any Op.puts = false) : written ops = [] := by
  refine List.flatMap_eq_nil_iff.mpr fun o ho => ?_
  have hputs := List.any_eq_false.mp hnone o ho
  cases o with
  | putevents more => exact absurd rfl hputs
  | sync => rfl

theorem storedExactly_of_none (hnone : ops.any Op.puts = false) : StoredExactly q ops := by
  obtain ⟨io, hrun, hfresh⟩ := Fresh.runOps fresh_qpioOpenNew hnone
  have hwrite : writeList q ops = .ok { io with header := some (io.listHeader q) } := by
    rw [writeList, hrun]
    exact hfresh.sync
  exact (storedExactly_iff_nil hwrite rfl hfresh.nevents).mpr (written_of_none hnone)

theorem storedExactly_iff_of_neg (hheader : HeaderFits q) (hneg : q.perBucket < 0)
    (hputs : ops.any Op.puts = true) : StoredExactly q ops ↔ written ops = [] := by
  obtain ⟨io, hrun, hdropped⟩ :=
    @Dropped.runOps q (qpioOpenNew q) false fresh_qpioOpenNew hheader hneg ops
  rw [hputs, Bool.or_true] at hdropped
  obtain ⟨io', hsync, -, hat⟩ := Dropping.sync hdropped hheader
  have hwrite : writeList q ops = .ok io' := by
    rw [writeList, hrun]
    exact hsync
  exact storedExactly_iff_nil hwrite hat hdropped.nevents

theorem storedExactly_iff_of_fits (hheader : HeaderFits q) (hfits : BucketFits q)
    (hputs : ops.any Op.puts = true) :
    StoredExactly q ops ↔ ConstantFields q (written ops) := by
  obtain ⟨io, header, hwrite, hat, hstored⟩ := writeList_stored hfits hheader hputs
  rw [constantFields_iff hfits]
  constructor
  · rintro ⟨io', header', hwrite', hat', -, -, hbounded⟩ evi hlow hhigh
    rw [hwrite, Except.ok.injEq] at hwrite'
    subst hwrite'
    rw [hat, Option.some_inj] at hat'
    subst hat'
    exact (hstored.boundedIn_iff hfits hlow hhigh).mp (hbounded evi hlow hhigh).2
  · intro hconst
    refine ⟨io, header, hwrite, hat, hstored.nevents, hstored.readList hfits rfl, ?_⟩
    intro evi hlow hhigh
    refine ⟨hstored.slotsInside hfits, ?_⟩
    exact (hstored.boundedIn_iff hfits hlow hhigh).mpr (hconst evi hlow hhigh)

theorem constantFields_nil : ConstantFields q [] := by
  intro i type htype hcase evi evi' hlow hhigh
  rw [List.length_nil] at hhigh
  omega

theorem any_puts_iff : (∃ op ∈ ops, op.puts = true) ↔ ops.any Op.puts = true :=
  List.any_eq_true.symm

/-- A list is stored without loss exactly if its file can hold it. -/
theorem storedExactly_iff (q : Datafile) (ops : List Op) :
    StoredExactly q ops ↔ Storable q ops := by
  rw [Storable, any_puts_iff]
  cases hputs : ops.any Op.puts with
  | false => exact ⟨fun _ => nofun, fun _ => storedExactly_of_none hputs⟩
  | true =>
      by_cases hheader : HeaderFits q
      · have hcases : q.bklen = 2 ∨ q.bklen ≤ 1 ∨ 3 ≤ q.bklen := by omega
        rcases hcases with htwo | hneg | hfits
        · have herror := fresh_qpioOpenNew.runOps_error
            (fun io more h => h.putevents_divide hheader htwo more) hputs
          exact ⟨fun h => absurd h (not_storedExactly_of_error herror),
            fun h => absurd htwo (h rfl).2.1⟩
        · have hlow : q.perBucket < 0 := by
            unfold Datafile.perBucket
            omega
          rw [storedExactly_iff_of_neg hheader hlow hputs]
          constructor
          · exact fun hnil _ => ⟨hheader, by omega, fun hne => absurd hnil hne⟩
          · intro h
            by_contra hne
            have := ((h rfl).2.2 hne).1
            unfold BucketFits at this
            omega
        · rw [storedExactly_iff_of_fits hheader hfits hputs]
          constructor
          · exact fun hconst _ => ⟨hheader, by omega, fun _ => ⟨hfits, hconst⟩⟩
          · intro h
            by_cases hnil : written ops = []
            · rw [hnil]
              exact constantFields_nil
            · exact ((h rfl).2.2 hnil).2
      · have herror := fresh_qpioOpenNew.runOps_error
          (fun io more h => h.putevents_headerOverflow hheader more) hputs
        exact ⟨fun h => absurd h (not_storedExactly_of_error herror),
          fun h => absurd (h rfl).1 hheader⟩

theorem smallPage_pos : (0 : Int) < 512 := by decide

theorem smallStruct_pos : (0 : Int) < 2 := by decide

/-- One event of four bytes; the bucket of one event and two slots is smaller than a page. -/
def smallBucket : Datafile where
  pageSize := 512
  bucketLen := 1
  szStruct := 2
  structLen := 1
  types := [.short, .short]
  pageSize_pos := smallPage_pos
  bucketLen_pos := Int.one_pos
  szStruct_pos := smallStruct_pos
  structLen_pos := Int.one_pos

/-- The event of a bucket below the page size is lost. -/
theorem not_storedExactly_smallBucket : ¬ StoredExactly smallBucket [.putevents [0]] := by
  intro h
  have hnevents : ∃ io header, writeList smallBucket [.putevents [0]] = .ok io ∧
      io.header = some header ∧ header.nevents = 0 := ⟨_, _, rfl, rfl, rfl⟩
  obtain ⟨io, header, hwrite, hheader, hzero⟩ := hnevents
  have hnil := (storedExactly_iff_nil hwrite hheader hzero).mp h
  exact absurd hnil (List.cons_ne_nil _ _)

end Iraf.Qpoe.EventFile
