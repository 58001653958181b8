import Iraf.Plio.Decode

/-!
# Reading a line list segment by segment

The cursor of `pllseg.h` delivers the segments of constant value of a line
list.  `Ahead` says which pixels a cursor has still to deliver.
-/

namespace Iraf.Plio

/-- The descriptor of `pllseg.h`. -/
structure LlDes where
  nleft : Int
  value : Int
  ip : Int
  hi : Int
  nextNleft : Int
  nextValue : Int
  deriving DecidableEq, Repr

/-- The loop of `pll_nextseg`, which reads at most `n` more instructions. -/
def LlDes.scanNext (ll : List Int) : Nat → LlDes → LlDes
  | 0, ld => { ld with value := 0 }
  | n + 1, ld =>
      if ld.ip ≤ llLen ll then
        let opcode := iOpcode (word ll ld.ip)
        let data := iData (word ll ld.ip)
        let next := { ld with ip := ld.ip + 1 }
        if opcode = iZn then { next with nleft := data, value := 0 }
        else if opcode = iHn then { next with nleft := data, value := ld.hi }
        else if opcode = iPn then
          { next with nleft := data - 1, value := 0, nextNleft := 1,
                      nextValue := ld.hi }
        else if opcode = iSh then
          LlDes.scanNext ll n
            { ld with ip := ld.ip + 2,
                      hi := word ll (ld.ip + 1) * iShift + data }
        else if opcode = iIh then
          LlDes.scanNext ll n { next with hi := ld.hi + data }
        else if opcode = iDh then
          LlDes.scanNext ll n { next with hi := ld.hi - data }
        else if opcode = iIs then
          { next with hi := ld.hi + data, nleft := 1, value := ld.hi + data }
        else if opcode = iDs then
          { next with hi := ld.hi - data, nleft := 1, value := ld.hi - data }
        else LlDes.scanNext ll n next
      else { ld with value := 0 }

def pllNextseg (ll : List Int) (ld : LlDes) : LlDes :=
  ld.scanNext ll (llLen ll - ld.ip + 1).toNat

def pllInit (ll : List Int) : LlDes :=
  let ip := if LlOldformat ll then ollFirst else llFirst ll
  pllNextseg ll ⟨0, 0, ip, 1, 0, 0⟩

/-- Read `npix` pixels of the current segment: the cursor after them and their
value. -/
def pllGetseg (ll : List Int) (ld : LlDes) (npix : Int) : LlDes × Int :=
  let left := { ld with nleft := ld.nleft - npix }
  let next :=
    if left.nleft ≤ 0 then
      if ld.nextNleft > 0 then
        { left with nleft := ld.nextNleft, value := ld.nextValue,
                    nextNleft := 0 }
      else pllNextseg ll left
    else left
  (next, ld.value)

/-- The instructions `is` are still to be read. -/
structure LlDes.Position (ld : LlDes) (ll : List Int) (is : List Instr) :
    Prop where
  ok : ∀ i ∈ is, i.Ok
  words : ∃ before after, ll = before ++ (packed is ++ after) ∧
    ld.ip = before.length + 1 ∧
    llLen ll = before.length + (packed is).length

/-- The cursor has still to deliver `line`. -/
def LlDes.Ahead (ld : LlDes) (ll : List Int) (line : List Int) : Prop :=
  0 ≤ ld.nleft ∧ 0 ≤ ld.nextNleft ∧ (ld.nleft = 0 → line = []) ∧
    ∃ is, ld.Position ll is ∧
      line = List.replicate ld.nleft.toNat ld.value ++
        (List.replicate ld.nextNleft.toNat ld.nextValue ++ expand ld.hi is)

variable {ll : List Int}

theorem LlDes.Position.tail {ld : LlDes} {i : Instr} {is : List Instr}
    (h : ld.Position ll (i :: is)) {ld' : LlDes}
    (hip : ld'.ip = ld.ip + i.words.length) : ld'.Position ll is := by
  obtain ⟨hok, before, after, hll, hbefore, hlen⟩ := h
  refine ⟨fun j hj => hok j (by simp [hj]), before ++ i.words, after,
    by simpa using hll, ?_, ?_⟩
  · rw [List.length_append]
    omega
  · simp only [packed_cons, List.length_append] at hlen ⊢
    omega

theorem LlDes.scanNext_ahead (is : List Instr) :
    ∀ {n : Nat} {ld : LlDes}, ld.Position ll is → (packed is).length ≤ n →
      ld.nleft = 0 → ld.nextNleft = 0 →
      (ld.scanNext ll n).Ahead ll (expand ld.hi is) := by
  induction is with
  | nil =>
      intro n ld h hn hleft hnext
      have hend : ¬ ld.ip ≤ llLen ll := by
        obtain ⟨before, after, hll, hip, hlen⟩ := h.words
        simp only [packed_nil, List.length_nil] at hlen
        omega
      have hscan : ld.scanNext ll n = { ld with value := 0 } := by
        cases n with
        | zero => rfl
        | succ n => rw [LlDes.scanNext, if_neg hend]
      rw [hscan]
      exact ⟨by simp [hleft], by simp [hnext], fun _ => rfl, [],
        ⟨by simp, h.words⟩, by simp [hleft, hnext]⟩
  | cons i is ih =>
      intro n ld h hn hleft hnext
      have hi := h.ok i (by simp)
      obtain ⟨before, after, hll, hip, hlen⟩ := h.words
      have hword : word ll ld.ip = i.opcode * 4096 + i.data := by
        rw [hip]
        exact word_of_words
          (show ll = before ++ (i.words ++ (packed is ++ after)) by
            simpa using hll)
      have hwords : (packed (i :: is)).length =
          1 + i.extra.length + (packed is).length := by
        simp [Instr.words_eq]
        omega
      obtain ⟨m, rfl⟩ : ∃ m, n = m + 1 := ⟨n - 1, by omega⟩
      have hin : ld.ip ≤ llLen ll := by omega
      have hlen1 : i.words.length = 1 + i.extra.length := by
        simp [Instr.words_eq]
        omega
      rw [LlDes.scanNext, if_pos hin, hword, hi.iOpcode_word, hi.iData_word,
        expand_cons]
      cases i with
      | zn d =>
          exact ⟨by simp [Instr.opcode, Instr.data], by simp [Instr.opcode, hnext],
            fun hzero => by
              have := hi.1
              simp [Instr.opcode, Instr.data] at hzero
              omega,
            is, h.tail rfl, by
              simp [Instr.opcode, Instr.data, Instr.output, Instr.high, hnext]⟩
      | hn d =>
          exact ⟨by simp [Instr.opcode, Instr.data], by simp [Instr.opcode, hnext],
            fun hzero => by
              have := hi.1
              simp [Instr.opcode, Instr.data] at hzero
              omega,
            is, h.tail rfl, by
              simp [Instr.opcode, Instr.data, Instr.output, Instr.high, hnext]⟩
      | pn d =>
          have hd := hi.1
          exact ⟨by simp [Instr.opcode, Instr.data]; omega,
            by simp [Instr.opcode],
            fun hzero => by
              simp [Instr.opcode, Instr.data] at hzero
              omega,
            is, h.tail rfl, by
              have hcount : ((d : Int) - 1).toNat = d - 1 := by omega
              simp [Instr.opcode, Instr.data, Instr.output, Instr.high, hcount]⟩
      | sh v =>
          have hvalue : v / 4096 * 4096 + v % 4096 = v := by omega
          have hw : word ll (ld.ip + 1) = v / 4096 := by
            rw [hip]
            exact word_of_extra
              (show ll = before ++ ((Instr.sh v).words ++
                (packed is ++ after)) by simpa using hll)
          have hrest := @ih m
            { ld with ip := ld.ip + 2, hi := v } (h.tail rfl)
            (by simp only [Instr.extra, List.length_singleton] at hwords; omega)
            hleft hnext
          simpa [Instr.opcode, Instr.data, hw, hvalue, Instr.output,
            Instr.high] using hrest
      | ih d =>
          have hrest := @ih m
            { ld with ip := ld.ip + 1, hi := ld.hi + d } (h.tail rfl)
            (by simp only [Instr.extra, List.length_nil] at hwords; omega)
            hleft hnext
          simpa [Instr.opcode, Instr.data, Instr.output, Instr.high] using hrest
      | dh d =>
          have hrest := @ih m
            { ld with ip := ld.ip + 1, hi := ld.hi - d } (h.tail rfl)
            (by simp only [Instr.extra, List.length_nil] at hwords; omega)
            hleft hnext
          simpa [Instr.opcode, Instr.data, Instr.output, Instr.high] using hrest
      | is d =>
          exact ⟨by simp [Instr.opcode], by simp [Instr.opcode, hnext],
            by simp [Instr.opcode], is, h.tail rfl, by
              simp [Instr.opcode, Instr.data, Instr.output, Instr.high, hnext]⟩
      | ds d =>
          exact ⟨by simp [Instr.opcode], by simp [Instr.opcode, hnext],
            by simp [Instr.opcode], is, h.tail rfl, by
              simp [Instr.opcode, Instr.data, Instr.output, Instr.high, hnext]⟩

theorem pllNextseg_ahead {ld : LlDes} {is : List Instr}
    (h : ld.Position ll is) (hleft : ld.nleft = 0)
    (hnext : ld.nextNleft = 0) :
    (pllNextseg ll ld).Ahead ll (expand ld.hi is) := by
  obtain ⟨before, after, -, hip, hlen⟩ := h.words
  exact LlDes.scanNext_ahead is h (by omega) hleft hnext

theorem pllInit_ahead {line : List Int} (h : Encodes ll line) :
    (pllInit ll).Ahead ll line := by
  obtain ⟨nref, blen, is, rest, rfl, hok, rfl, hlen⟩ := h
  have hll := llLen_header nref (llCurhdrlen + (packed is).length) blen
    (packed is ++ rest) (by omega) (by exact_mod_cast hlen)
  have hfirst := llFirst_header nref (llCurhdrlen + (packed is).length) blen
    (packed is ++ rest)
  unfold pllInit
  rw [if_neg (not_oldformat_header nref _ blen _), hfirst]
  refine pllNextseg_ahead ⟨hok, _, rest, rfl, ?_, ?_⟩ rfl rfl
  · rw [length_header]
    rfl
  · rw [hll, length_header]

/-- Reading within the current segment delivers its value and leaves the rest
of the line. -/
theorem LlDes.Ahead.getseg {ld : LlDes} {line : List Int}
    (h : ld.Ahead ll line) {np : Nat} (hnp : (np : Int) ≤ ld.nleft) :
    (pllGetseg ll ld np).1.Ahead ll (line.drop np) ∧
      (pllGetseg ll ld np).2 = ld.value ∧
      line.take np = List.replicate np ld.value := by
  obtain ⟨hleft, hnext, hend, is, hposition, hline⟩ := h
  have htake : line.take np = List.replicate np ld.value := by
    rw [hline, List.take_append_of_le_length (by simp; omega),
      List.take_replicate, Nat.min_eq_left (by omega)]
  have hdrop : line.drop np =
      List.replicate (ld.nleft - np).toNat ld.value ++
        (List.replicate ld.nextNleft.toNat ld.nextValue ++
          expand ld.hi is) := by
    have hcount : ld.nleft.toNat - np = (ld.nleft - np).toNat := by omega
    rw [hline, List.drop_append_of_le_length (by simp; omega),
      List.drop_replicate, hcount]
  refine ⟨?_, rfl, htake⟩
  unfold pllGetseg
  by_cases hmore : ld.nleft - (np : Int) ≤ 0
  · have hzero : ld.nleft - (np : Int) = 0 := by omega
    simp only [if_pos hmore]
    rw [hdrop, hzero]
    by_cases hqueued : ld.nextNleft > 0
    · rw [if_pos hqueued]
      exact ⟨by simp only; omega, by simp, fun h => by simp only at h; omega,
        is, ⟨hposition.ok, hposition.words⟩, by simp⟩
    · have hnone : ld.nextNleft = 0 := by omega
      rw [if_neg hqueued, hnone]
      have hahead := @pllNextseg_ahead ll { ld with nleft := 0 } is
        ⟨hposition.ok, hposition.words⟩ rfl hnone
      simpa [hnone] using hahead
  · simp only [if_neg hmore]
    exact ⟨by simp only; omega, hnext,
      fun h => by simp only at h; omega, is,
      ⟨hposition.ok, hposition.words⟩, hdrop⟩

theorem LlDes.Ahead.nleft_pos {ld : LlDes} {line : List Int}
    (h : ld.Ahead ll line) (hline : line ≠ []) : 0 < ld.nleft := by
  have hzero := h.2.2.1
  have hnonneg := h.1
  by_contra hle
  exact hline (hzero (by omega))

theorem LlDes.Ahead.nleft_le {ld : LlDes} {line : List Int}
    (h : ld.Ahead ll line) : ld.nleft ≤ line.length := by
  obtain ⟨hleft, -, -, is, -, rfl⟩ := h
  simp only [List.length_append, List.length_replicate]
  omega

end Iraf.Plio
