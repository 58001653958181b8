import Iraf.Plio.Defs

/-!
# Line list instructions

The eight instructions of a line list, the words they are packed in and the
pixels they regenerate.  Executing a list keeps a current high value, set to 1
at the beginning of a line.
-/

namespace Iraf.Plio

inductive Instr where
  | zn (data : Nat)
  | hn (data : Nat)
  | pn (data : Nat)
  | sh (value : Int)
  | ih (data : Nat)
  | dh (data : Nat)
  | is (data : Nat)
  | ds (data : Nat)
  deriving DecidableEq, Repr

namespace Instr

/-- The packed form; `sh` takes the high bits from a second word. -/
def words : Instr → List Int
  | zn n => [mZn + n]
  | hn n => [mHn + n]
  | pn n => [mPn + n]
  | sh v => [mSh + v % iShift, v / iShift]
  | ih n => [mIh + n]
  | dh n => [mDh + n]
  | is n => [mIs + n]
  | ds n => [mDs + n]

/-- The fields fit their bits, and a run instruction outputs something before
its high pixel. -/
def Ok : Instr → Prop
  | zn n | hn n => 1 ≤ n ∧ n ≤ 4095
  | pn n => 2 ≤ n ∧ n ≤ 4095
  | sh v => 0 ≤ v ∧ v ≤ iPvmax
  | ih n | dh n | is n | ds n => n ≤ 4095

instance : DecidablePred Ok := fun i => by
  cases i <;> unfold Ok <;> infer_instance

/-- The high value after the instruction. -/
def high (hi : Int) : Instr → Int
  | sh v => v
  | ih n | is n => hi + n
  | dh n | ds n => hi - n
  | zn _ | hn _ | pn _ => hi

/-- The pixels output, given the high value after the instruction. -/
def output (hi : Int) : Instr → List Int
  | zn n => List.replicate n 0
  | hn n => List.replicate n hi
  | pn n => List.replicate (n - 1) 0 ++ [hi]
  | is _ | ds _ => [hi]
  | sh _ | ih _ | dh _ => []

end Instr

/-- The packed form of an instruction list. -/
def packed (is : List Instr) : List Int := is.flatMap Instr.words

/-- The high value after a list of instructions. -/
def finalHigh (hi : Int) (is : List Instr) : Int := is.foldl Instr.high hi

/-- The pixels a list of instructions regenerates. -/
def expand (hi : Int) : List Instr → List Int
  | [] => []
  | i :: is => i.output (i.high hi) ++ expand (i.high hi) is

@[simp] theorem packed_nil : packed [] = [] := rfl

@[simp] theorem packed_cons (i : Instr) (is : List Instr) :
    packed (i :: is) = i.words ++ packed is := rfl

@[simp] theorem packed_append (is js : List Instr) :
    packed (is ++ js) = packed is ++ packed js :=
  List.flatMap_append

@[simp] theorem finalHigh_nil (hi : Int) : finalHigh hi [] = hi := rfl

@[simp] theorem finalHigh_cons (hi : Int) (i : Instr) (is : List Instr) :
    finalHigh hi (i :: is) = finalHigh (i.high hi) is := rfl

@[simp] theorem finalHigh_append (hi : Int) (is js : List Instr) :
    finalHigh hi (is ++ js) = finalHigh (finalHigh hi is) js :=
  List.foldl_append

@[simp] theorem expand_nil (hi : Int) : expand hi [] = [] := rfl

@[simp] theorem expand_cons (hi : Int) (i : Instr) (is : List Instr) :
    expand hi (i :: is) =
      i.output (i.high hi) ++ expand (i.high hi) is := rfl

@[simp] theorem expand_append (hi : Int) (is js : List Instr) :
    expand hi (is ++ js) = expand hi is ++ expand (finalHigh hi is) js := by
  induction is generalizing hi with
  | nil => rfl
  | cons i is ih => simp [ih, List.append_assoc]

@[simp] theorem finalHigh_zn (hi : Int) (ns : List Nat) :
    finalHigh hi (ns.map .zn) = hi := by
  induction ns with
  | nil => rfl
  | cons n ns ih => simpa [Instr.high] using ih

@[simp] theorem finalHigh_hn (hi : Int) (ns : List Nat) :
    finalHigh hi (ns.map .hn) = hi := by
  induction ns with
  | nil => rfl
  | cons n ns ih => simpa [Instr.high] using ih

@[simp] theorem expand_zn (hi : Int) (ns : List Nat) :
    expand hi (ns.map .zn) = List.replicate ns.sum 0 := by
  induction ns with
  | nil => rfl
  | cons n ns ih => simp [Instr.high, Instr.output, ih]

@[simp] theorem expand_hn (hi : Int) (ns : List Nat) :
    expand hi (ns.map .hn) = List.replicate ns.sum hi := by
  induction ns with
  | nil => rfl
  | cons n ns ih => simp [Instr.high, Instr.output, ih]

/-! ## Reading packed words -/

/-- The instruction of one word, by its opcode. -/
def oneWord (op : Int) (n : Nat) : Option Instr :=
  if op = iZn then some (.zn n)
  else if op = iIh then some (.ih n)
  else if op = iDh then some (.dh n)
  else if op = iHn then some (.hn n)
  else if op = iPn then some (.pn n)
  else if op = iIs then some (.is n)
  else if op = iDs then some (.ds n)
  else none

/-- Decode a sequence of words.  A word with the sign bit set, or an `sh` cut
off at the end, stands for no instruction. -/
def instructions : List Int → Option (List Instr)
  | [] => some []
  | w :: ws =>
      if iOpcode w = iSh then
        match ws with
        | [] => none
        | high :: ws =>
            (instructions ws).map (.sh (high * iShift + iData w) :: ·)
      else do
        let i ← oneWord (iOpcode w) (iData w).toNat
        let is ← instructions ws
        some (i :: is)

namespace Instr

def opcode : Instr → Int
  | zn _ => iZn
  | hn _ => iHn
  | pn _ => iPn
  | sh _ => iSh
  | ih _ => iIh
  | dh _ => iDh
  | is _ => iIs
  | ds _ => iDs

def data : Instr → Int
  | zn n | hn n | pn n | ih n | dh n | is n | ds n => n
  | sh v => v % iShift

/-- The words after the first one. -/
def extra : Instr → List Int
  | sh v => [v / iShift]
  | _ => []

theorem words_eq (i : Instr) :
    i.words = (i.opcode * 4096 + i.data) :: i.extra := by
  cases i <;> rfl

theorem opcode_range (i : Instr) : 0 ≤ i.opcode ∧ i.opcode ≤ 7 := by
  cases i <;> simp [opcode]

/-- The data field fits its bits, and a run instruction outputs something. -/
def Legal : Instr → Prop
  | zn n | hn n | pn n => 1 ≤ n ∧ n ≤ 4095
  | sh _ => True
  | ih n | dh n | is n | ds n => n ≤ 4095

instance : DecidablePred Legal := fun i => by
  cases i <;> unfold Legal <;> infer_instance

theorem Ok.legal {i : Instr} (hi : i.Ok) : i.Legal := by
  cases i with
  | zn n | hn n | ih n | dh n | is n | ds n => exact hi
  | pn n => exact ⟨by have := hi.1; omega, hi.2⟩
  | sh v => trivial

theorem Legal.data_range {i : Instr} (hi : i.Legal) : 0 ≤ i.data ∧ i.data ≤ 4095 := by
  cases i <;> simp only [Legal, data, iShift] at hi ⊢ <;> omega

theorem Legal.iOpcode_word {i : Instr} (hi : i.Legal) :
    iOpcode (i.opcode * 4096 + i.data) = i.opcode := by
  have hop := i.opcode_range
  have hdata := hi.data_range
  unfold iOpcode
  rw [Int.tdiv_eq_ediv_of_nonneg (by omega)]
  omega

theorem Legal.iData_word {i : Instr} (hi : i.Legal) :
    iData (i.opcode * 4096 + i.data) = i.data := by
  have hdata := hi.data_range
  unfold iData
  omega

theorem Ok.data_range {i : Instr} (hi : i.Ok) : 0 ≤ i.data ∧ i.data ≤ 4095 :=
  hi.legal.data_range

theorem Ok.iOpcode_word {i : Instr} (hi : i.Ok) :
    iOpcode (i.opcode * 4096 + i.data) = i.opcode :=
  hi.legal.iOpcode_word

theorem Ok.iData_word {i : Instr} (hi : i.Ok) :
    iData (i.opcode * 4096 + i.data) = i.data :=
  hi.legal.iData_word

theorem Ok.words_range {i : Instr} (hi : i.Ok) :
    ∀ w ∈ i.words, 0 ≤ w ∧ w ≤ maxShort := by
  have hop := i.opcode_range
  have hdata := hi.data_range
  intro w hw
  rw [words_eq, List.mem_cons] at hw
  rcases hw with rfl | hw
  · simp only [maxShort]
    omega
  · cases i with
    | sh v =>
        simp only [extra, iShift, List.mem_singleton] at hw
        simp only [Ok, iPvmax] at hi
        simp only [maxShort]
        omega
    | _ => simp [extra] at hw

end Instr

theorem packed_range {is : List Instr} (his : ∀ i ∈ is, i.Ok) :
    ∀ w ∈ packed is, 0 ≤ w ∧ w ≤ maxShort := by
  intro w hw
  obtain ⟨i, hi, hw⟩ := List.mem_flatMap.mp hw
  exact (his i hi).words_range w hw

theorem instructions_words {i : Instr} (hi : i.Ok) (ws : List Int) :
    instructions (i.words ++ ws) = (instructions ws).map (i :: ·) := by
  rw [Instr.words_eq, List.cons_append, instructions.eq_def]
  simp only [hi.iOpcode_word, hi.iData_word]
  cases i with
  | sh v =>
      have hvalue : v / 4096 * 4096 + v % 4096 = v := by omega
      simp [Instr.opcode, Instr.data, Instr.extra, hvalue]
  | _ =>
      simp [Instr.opcode, Instr.data, Instr.extra, oneWord,
        Option.map_eq_bind]

theorem instructions_packed {is : List Instr} (his : ∀ i ∈ is, i.Ok) :
    instructions (packed is) = some is := by
  induction is with
  | nil => rfl
  | cons i is ih =>
      rw [packed_cons, instructions_words (his i (by simp)),
        ih fun j hj => his j (by simp [hj])]
      rfl

end Iraf.Plio
