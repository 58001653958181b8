import Iraf.Qpoe.EventFileStored

/-!
# Runs of a writer

What one call keeps, and from it what is in the file after any sequence of calls.
-/

namespace Iraf.Qpoe.EventFile

open Cells

variable {q : Datafile} {io : Io} {events more : List Event} {b evi : Int}

/-! ## Copying events to the buffer -/

theorem storeEvents_of_lt {L : Int} (hL : 0 < L) (es : List Event) {a x : Int} (hx : x < a)
    (buffer : Memory Event) : storeEvents L es a buffer x = buffer x := by
  induction es generalizing a buffer with
  | nil => rfl
  | cons e es ih =>
      rw [storeEvents, ih (by omega)]
      exact Function.update_of_ne (by omega) ..

theorem storeEvents_at {L : Int} (hL : 0 < L) (es : List Event) (a : Int) (buffer : Memory Event)
    (j : Nat) (hj : j < es.length) : storeEvents L es a buffer (a + (j : Nat) * L) = es[j] := by
  induction es generalizing a buffer j with
  | nil => exact absurd hj (Nat.not_lt_zero j)
  | cons e es ih =>
      cases j with
      | zero =>
          have hat : a + ((0 : Nat) : Int) * L = a := by simp
          rw [storeEvents, hat, storeEvents_of_lt hL es (by omega)]
          exact Function.update_self ..
      | succ j =>
          have hat : a + ((j + 1 : Nat) : Int) * L = a + L + (j : Nat) * L := by
            push_cast
            ring
          rw [storeEvents, hat]
          exact ih (a + L) _ j (Nat.lt_of_succ_lt_succ hj)

theorem nth_append_right {j : Nat} (hj : j < more.length) :
    nth (events ++ more) (events.length + 1 + j) = more[j] := by
  have hplace : (((events.length : Int) + 1 + j) - 1).toNat = events.length + j := by omega
  unfold nth
  rw [hplace, List.getD_eq_getElem?_getD, List.getElem?_append_right (by omega),
    Nat.add_sub_cancel_left, List.getElem?_eq_getElem hj, Option.getD_some]

/-! ## The header page -/

/-- The two events of the header fit in its page as the parameters of the file say. -/
theorem headerFits_iff (hlen : io.eventLen = q.eventLen) :
    headerFits q io = true ↔ HeaderFits q := by
  have hstruct := q.szStruct_pos
  have hcell : 0 ≤ q.szStruct * szbChar := Int.mul_nonneg (by omega) (by decide)
  rw [headerFits, decide_eq_true_eq, hlen, HeaderFits,
    Int.tdiv_eq_ediv_of_nonneg q.eventLen_pos.le,
    Int.tdiv_eq_ediv_of_nonneg (by have := q.pageSize_pos; omega), Datafile.eventLen,
    Int.mul_ediv_cancel _ (by omega)]

theorem writeHeader_ok (hheader : HeaderFits q) (hlen : io.eventLen = q.eventLen) :
    writeHeader q io = .ok { io with header := some (io.listHeader q) } := by
  rw [writeHeader, (headerFits_iff hlen).mpr hheader, Bool.not_true, Bool.and_false,
    if_neg Bool.false_ne_true]

/-! ## One call -/

namespace Filling

variable (h : Filling q io events) (hfits : BucketFits q)

include h hfits

theorem store {nev : Int} (hpos : 0 ≤ nev) (hlen : nev ≤ more.length)
    (hroom : nev ≤ io.bkLastEv - io.evi + 1) :
    Filling q (io.store more nev) (events ++ more.take nev.toNat) := by
  have hB := hfits.perBucket_pos
  have hL := q.eventLen_pos
  have hevi := h.evi
  have hlow := h.low
  have htake : ((more.take nev.toNat).length : Int) = nev := by
    rw [List.length_take]
    omega
  have hlength : ((events ++ more.take nev.toNat).length : Int) = events.length + nev := by
    rw [List.length_append]
    omega
  constructor
  · exact ⟨h.params.1, h.params.2, h.params.3, h.params.4, h.params.5, h.params.6⟩
  · rw [hlength]
    simp only [Io.store]
    omega
  · exact h.bkno
  · exact h.first
  · exact h.last
  · simp only [Io.store]
    omega
  · simp only [Io.store]
    omega
  · intro evi h1 h2
    simp only [Io.store, h.params.eventLen] at h1 ⊢
    by_cases hold : evi ≤ events.length
    · have hslot := slot_lt hL (show evi - io.bkFirstEv < io.evi - io.bkFirstEv by omega)
      have hfirst := h.first
      have hnonneg : 0 ≤ (io.bkno - 1) * q.perBucket :=
        Int.mul_nonneg (by have := h.bkno; omega) (by omega)
      rw [storeEvents_of_lt hL _ (by omega), h.buffer evi h1 hold, nth_append hold (by omega)]
    · obtain ⟨j, hj⟩ : ∃ j : Nat, evi = events.length + 1 + j :=
        ⟨(evi - (events.length + 1)).toNat, by omega⟩
      have hat : (evi - io.bkFirstEv) * q.eventLen =
          (io.evi - io.bkFirstEv) * q.eventLen + (j : Nat) * q.eventLen := by
        rw [← Int.add_mul, hj, hevi]
        congr 1
        omega
      have hin : j < (more.take nev.toNat).length := by omega
      rw [hat, storeEvents_at hL _ _ _ j hin, hj, nth_append_right hin]
  · have hcounted := h.counted
    rw [hlength]
    simp only [Io.store]
    omega
  · intro b hb hlt
    refine (h.before b hb hlt).append hB hb ?_ _
    have hfirst := h.first
    have hle := Int.mul_le_mul_of_nonneg_right (show b ≤ io.bkno - 1 by
      simp only [Io.store] at hlt
      omega) (show 0 ≤ q.perBucket by omega)
    omega

theorem copyEvents (hfree : io.evi ≤ io.bkLastEv) {fuel : Nat} (hfuel : more.length ≤ fuel) :
    ∃ io', copyEvents q fuel io more = .ok io' ∧ Filling q io' (events ++ more) ∧
      io'.evi ≤ io'.bkLastEv ∧ io'.active = io.active := by
  induction fuel generalizing io events more with
  | zero =>
      rw [List.length_eq_zero_iff.mp (Nat.le_zero.mp hfuel), List.append_nil]
      exact ⟨io, rfl, h, hfree, rfl⟩
  | succ fuel ih =>
      rw [EventFile.copyEvents]
      by_cases hnil : more = []
      · rw [if_pos hnil, hnil, List.append_nil]
        exact ⟨io, rfl, h, hfree, rfl⟩
      · have hsome := List.length_pos_iff.mpr hnil
        generalize hnev : min (more.length : Int) (io.bkLastEv - io.evi + 1) = nev
        obtain ⟨io₁, hfull, hfilling, hfree₁, hactive₁⟩ :=
          (@Filling.store q io events more h hfits nev (by omega) (by omega) (by omega)).writeFull
            hfits
        obtain ⟨io₂, hrun, hfilling₂, hfree₂, hactive₂⟩ :=
          ih hfilling hfree₁ (show (more.drop nev.toNat).length ≤ fuel by
            rw [List.length_drop]
            omega)
        rw [List.append_assoc, List.take_append_drop] at hfilling₂
        refine ⟨io₂, ?_, hfilling₂, hfree₂, hactive₂.trans hactive₁⟩
        rw [if_neg hnil]
        simp only
        rw [if_neg (by omega), hfull]
        exact hrun

theorem flushBuffer (hfree : io.evi ≤ io.bkLastEv) : ∃ io', flushBuffer q io = .ok io' ∧
    Flushed q io' events ∧ io'.active = io.active := by
  unfold EventFile.flushBuffer
  by_cases hsome : io.evi > 1
  · rw [if_pos hsome]
    exact h.wbucket hfits
  · rw [if_neg hsome]
    have hevi := h.evi
    have hfirst := h.first
    have hcounted := h.counted
    have hlow := h.low
    have hB := hfits.perBucket_pos
    have hbkno := h.bkno
    have hnonneg : 0 ≤ (io.bkno - 1) * q.perBucket := Int.mul_nonneg (by omega) (by omega)
    refine ⟨io, rfl, ⟨h, hfree, h.params, by omega, ?_⟩, rfl⟩
    intro b hb hlt
    have := Int.mul_nonneg (show 0 ≤ b - 1 by omega) (show 0 ≤ q.perBucket by omega)
    omega

theorem sync (hheader : HeaderFits q) (hfree : io.evi ≤ io.bkLastEv) :
    ∃ io' header, qpioSync q io = .ok io' ∧ Filling q io' events ∧ io'.evi ≤ io'.bkLastEv ∧
      io'.active = io.active ∧ io'.header = some header ∧
      Stored q (qpioOpenOld q io'.lfile header) events := by
  obtain ⟨io₁, hrun, hflushed, hactive⟩ := h.flushBuffer hfits hfree
  have hfilling := hflushed.filling
  have hstored := hflushed.stored
  refine ⟨{ io₁ with header := some (io₁.listHeader q) }, io₁.listHeader q, ?_, ?_, hflushed.free,
    hactive, rfl, ?_⟩
  · rw [qpioSync, hrun]
    exact writeHeader_ok hheader hfilling.params.eventLen
  · exact ⟨⟨hfilling.1.1, hfilling.1.2, hfilling.1.3, hfilling.1.4, hfilling.1.5, hfilling.1.6⟩,
      hfilling.2, hfilling.3, hfilling.4, hfilling.5, hfilling.6, hfilling.7, hfilling.8,
      hfilling.9, hfilling.10⟩
  · exact ⟨⟨hfilling.1.1, hfilling.1.2, hfilling.1.3, rfl, hfilling.1.5, hfilling.1.6⟩,
      hstored.nevents, hstored.inFile⟩

end Filling

/-! ## The first write -/

/-- A new list that nothing was put into. -/
structure Fresh (q : Datafile) (io : Io) : Prop where
  active : io.active = false
  eventLen : io.eventLen = q.eventLen
  evi : io.evi = 0
  nevents : io.nevents = 0
  minEvl : io.minEvl = none

theorem fresh_qpioOpenNew : Fresh q (qpioOpenNew q) := ⟨rfl, rfl, rfl, rfl, rfl⟩

theorem Fresh.sync (h : Fresh q io) : qpioSync q io =
    .ok { io with header := some (io.listHeader q) } := by
  rw [qpioSync, flushBuffer, if_neg (by have := h.evi; omega)]
  change writeHeader q io = _
  rw [writeHeader, h.minEvl, Option.isSome_none, Bool.false_and, if_neg Bool.false_ne_true]

/-- The state after the parameters are fixed and the header is written. -/
def Io.started (q : Datafile) (io : Io) : Io :=
  { io.fixParameters q with
    header := some ((io.fixParameters q).listHeader q)
    active := true }

theorem startList_ok (hheader : HeaderFits q) (io : Io) : startList q io = .ok (io.started q) := by
  rw [startList, qpioSync, flushBuffer, if_neg (by exact Int.lt_irrefl 1)]
  change (writeHeader q (io.fixParameters q) >>= fun io => Except.ok { io with active := true }) = _
  rw [writeHeader_ok hheader (by rfl)]
  rfl

theorem startList_error (hheader : ¬ HeaderFits q) (io : Io) :
    startList q io = .error .headerOverflow := by
  have hfits : headerFits q (io.fixParameters q) = false :=
    Bool.eq_false_of_not_eq_true (mt (headerFits_iff (by rfl)).mp hheader)
  rw [startList, qpioSync, flushBuffer, if_neg (by exact Int.lt_irrefl 1)]
  change (writeHeader q (io.fixParameters q) >>= fun io => Except.ok { io with active := true }) = _
  rw [writeHeader, hfits, if_pos (by rfl)]
  rfl

theorem Fresh.started (h : Fresh q io) (hfits : BucketFits q) : Filling q (io.started q) [] := by
  have hB := hfits.perBucket_pos
  have hlen := h.eventLen
  unfold Datafile.perBucket at hB
  constructor
  · constructor
    · rfl
    · rfl
    · rfl
    · rfl
    · simp only [Io.started, Io.fixParameters, hlen, Datafile.perBucket]
      ring
    · simp only [Io.started, Io.fixParameters, hlen, Datafile.perBucket]
      ring
  · rfl
  · exact Int.le_refl 1
  · simp only [Io.started, Io.fixParameters]
    ring
  · simp only [Io.started, Io.fixParameters, Datafile.perBucket]
    ring
  · exact Int.le_refl 1
  · simp only [Io.started, Io.fixParameters]
    omega
  · intro evi h1 h2
    simp only [Io.started, Io.fixParameters, List.length_nil] at h1 h2
    omega
  · exact ⟨Int.le_refl 0, Int.le_refl 0⟩
  · intro b hb hlt
    simp only [Io.started, Io.fixParameters] at hlt
    omega

/-! ## Any sequence of calls -/

/-- The state of a writer after some calls, of which one was a put or none was. -/
def Reached (q : Datafile) (io : Io) (events : List Event) : Bool → Prop
  | false => Fresh q io ∧ events = []
  | true => io.active = true ∧ Filling q io events ∧ io.evi ≤ io.bkLastEv

namespace Reached

variable {started : Bool} (h : Reached q io events started) (hfits : BucketFits q)
  (hheader : HeaderFits q)

include h hfits hheader

theorem putevents (more : List Event) : ∃ io', qpioPutevents q io more = .ok io' ∧
    Reached q io' (events ++ more) true := by
  obtain ⟨io₁, hstart, hactive, hfilling⟩ : ∃ io₁, startWriting q io = .ok io₁ ∧
      io₁.active = true ∧ Filling q io₁ events := by
    unfold startWriting
    cases started with
    | false =>
        obtain ⟨hfresh, rfl⟩ := h
        rw [if_neg (by rw [hfresh.active]; exact Bool.false_ne_true)]
        exact ⟨_, startList_ok hheader io, rfl, hfresh.started hfits⟩
    | true =>
        rw [if_pos h.1]
        exact ⟨io, rfl, h.1, h.2.1⟩
  obtain ⟨io₂, hfull, hfilling₂, hfree₂, hactive₂⟩ := hfilling.writeFull hfits
  obtain ⟨io₃, hcopy, hfilling₃, hfree₃, hactive₃⟩ :=
    hfilling₂.copyEvents hfits hfree₂ (Nat.le_refl more.length)
  refine ⟨io₃, ?_, hactive₃.trans (hactive₂.trans hactive), hfilling₃, hfree₃⟩
  rw [qpioPutevents, hstart]
  change (writeFull q io₁ >>= fun io => copyEvents q more.length io more) = _
  rw [hfull]
  exact hcopy

theorem sync : ∃ io' header, qpioSync q io = .ok io' ∧ Reached q io' events started ∧
    io'.header = some header ∧
    (started = true → Stored q (qpioOpenOld q io'.lfile header) events) := by
  cases started with
  | false =>
      obtain ⟨hfresh, rfl⟩ := h
      refine ⟨_, _, hfresh.sync, ⟨?_, rfl⟩, rfl, nofun⟩
      exact ⟨hfresh.active, hfresh.eventLen, hfresh.evi, hfresh.nevents, hfresh.minEvl⟩
  | true =>
      obtain ⟨hactive, hfilling, hfree⟩ := h
      obtain ⟨io', header, hrun, hfilling', hfree', hactive', hat, hstored⟩ :=
        hfilling.sync hfits hheader hfree
      exact ⟨io', header, hrun, ⟨hactive'.trans hactive, hfilling', hfree'⟩, hat, fun _ => hstored⟩

theorem op (o : Op) : ∃ io', o.run q io = .ok io' ∧
    Reached q io' (events ++ o.events) (started || o.puts) := by
  cases o with
  | putevents more =>
      rw [Op.puts, Bool.or_true]
      exact h.putevents hfits hheader more
  | sync =>
      obtain ⟨io', header, hrun, hreached, -⟩ := h.sync hfits hheader
      rw [Op.puts, Bool.or_false, Op.events, List.append_nil]
      exact ⟨io', hrun, hreached⟩

theorem runOps (ops : List Op) : ∃ io', runOps q io ops = .ok io' ∧
    Reached q io' (events ++ written ops) (started || ops.any Op.puts) := by
  induction ops generalizing io events started with
  | nil =>
      rw [List.any_nil, Bool.or_false, written, List.flatMap_nil, List.append_nil]
      exact ⟨io, rfl, h⟩
  | cons o ops ih =>
      obtain ⟨io₁, hrun, hreached⟩ := h.op hfits hheader o
      obtain ⟨io₂, hrun₂, hreached₂⟩ := ih hreached
      refine ⟨io₂, ?_, ?_⟩
      · rw [EventFile.runOps, hrun]
        exact hrun₂
      · rw [List.any_cons, ← Bool.or_assoc, written, List.flatMap_cons, ← List.append_assoc]
        exact hreached₂

end Reached

theorem writeList_stored (hfits : BucketFits q) (hheader : HeaderFits q) {ops : List Op}
    (hputs : ops.any Op.puts = true) : ∃ io header, writeList q ops = .ok io ∧
      io.header = some header ∧ Stored q (qpioOpenOld q io.lfile header) (written ops) := by
  obtain ⟨io₁, hrun, hreached⟩ :=
    @Reached.runOps q (qpioOpenNew q) [] false ⟨fresh_qpioOpenNew, rfl⟩ hfits hheader ops
  rw [hputs, Bool.or_true, List.nil_append] at hreached
  obtain ⟨io₂, header, hsync, -, hat, hstored⟩ := hreached.sync hfits hheader
  refine ⟨io₂, header, ?_, hat, hstored rfl⟩
  rw [writeList, hrun]
  exact hsync

end Iraf.Qpoe.EventFile
