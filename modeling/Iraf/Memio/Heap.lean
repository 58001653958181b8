import Mathlib.Algebra.Order.Ring.Int
import Mathlib.Tactic.Linarith
import Iraf.Lib.Cells

/-!
# Heap buffers

`malloc1` and `krealloc` place a buffer in the memory that the host returns.  Addresses are counted
in chars, and a pointer is an index into the `Mem` common, which starts at some address.

A buffer that is not below `Mem` is placed as it should be.  Below `Mem` the remainder of the
division is negative, and so is the pointer, which is rounded towards zero.
-/

namespace Iraf.Memio

open Cells

inductive Datatype
  | bool | char | short | int | long | real | double | complex | pointer | struct | ushort
  deriving DecidableEq, Repr

/-- The sizes of the datatypes in chars. -/
def tySize : Datatype → Int
  | .bool => 4
  | .char => 1
  | .short => 1
  | .int => 4
  | .long => 4
  | .real => 2
  | .double => 4
  | .complex => 4
  | .pointer => 4
  | .struct => 4
  | .ushort => 1

@[simp] abbrev szInt : Int := 4
@[simp] abbrev szMemalign : Int := 8
@[simp] abbrev szVmemalign : Int := 256

inductive Fault
  /-- `Memory has been corrupted`. -/
  | corrupted
  /-- The host is given an address that it did not return. -/
  | badBlock
  deriving DecidableEq, Repr

/-! ## Pointers -/

/-- The address of an element. -/
def locva (locMem ptr : Int) (dtype : Datatype) : Int := locMem + (ptr - 1) * tySize dtype

def coerce (ptr : Int) (type1 type2 : Datatype) : Int :=
  if type1 = .char then (ptr - 1).tdiv (tySize type2) + 1
  else if type2 = .char then (ptr - 1) * tySize type1 + 1
  else ((ptr - 1) * tySize type1 + tySize type2 - 1).tdiv (tySize type2) + 1

/-- The address in a block that is aligned as asked for. -/
def bufadr (fwa szAlign fwaAlign : Int) : Int :=
  let modulus := (fwa + szInt - fwaAlign).tmod szAlign
  if modulus ≠ 0 then fwa + szInt + (szAlign - modulus) else fwa + szInt

def mgdptr (locMem fwa : Int) (dtype : Datatype) (szAlign fwaAlign : Int) : Int :=
  (bufadr fwa szAlign fwaAlign - locMem).tdiv (tySize dtype) + 1

/-! ## Integer cells -/

/-- An integer takes four chars, the low one first. -/
def intChars (x : Int) : List Int :=
  [x % 65536, x / 65536 % 65536, x / 65536 / 65536 % 65536, x / 65536 / 65536 / 65536]

def putInt (m : Memory Int) (a x : Int) : Memory Int := put m a (intChars x)

def fetchInt (m : Memory Int) (a : Int) : Int :=
  m a + 65536 * (m (a + 1) + 65536 * (m (a + 2) + 65536 * m (a + 3)))

/-! ## Allocation -/

/-- A buffer of characters has room for the end of a string. -/
def dataLen (nelems : Nat) (dtype : Datatype) : Int :=
  if dtype = .char then nelems + 1 else nelems * tySize dtype

/-- What is asked of the host. -/
def nchars (nelems : Nat) (dtype : Datatype) (szAlign : Int) : Int :=
  dataLen nelems dtype + szInt + szAlign

/-- The address of the block is saved before the data area. -/
def msvfwa (locMem : Int) (m : Memory Int) (fwa : Int) (dtype : Datatype)
    (szAlign fwaAlign : Int) : Memory Int × Int :=
  (putInt m (locva locMem (mgdptr locMem fwa .int szAlign fwaAlign - 1) .int) fwa,
    coerce (mgdptr locMem fwa .int szAlign fwaAlign) .int dtype)

/-- The block that the host returns starts at `fwa`. -/
def malloc1 (locMem : Int) (m : Memory Int) (fwa : Int) (dtype : Datatype)
    (szAlign fwaAlign : Int) : Memory Int × Int :=
  msvfwa locMem m fwa dtype szAlign fwaAlign

/-! ## Reallocation -/

def mgtfwa (locMem : Int) (m : Memory Int) (ptr : Int) (dtype : Datatype) : Except Fault Int :=
  let bufptr := coerce ptr dtype .int
  let fwa := fetchInt m (locva locMem (bufptr - 1) .int)
  if (locva locMem (bufptr - 1) .int - fwa).natAbs > szVmemalign then .error .corrupted
  else .ok fwa

/-- A block of the host: its address and its length. -/
structure Block where
  fwa : Int
  len : Int

/-- The block is given another length at an address that the host chooses; what it held is kept as
far as it fits, and the other memory may hold anything. -/
def zraloc (block : Block) (newFwa : Int) (fresh m : Memory Int) (fwa n : Int) :
    Except Fault (Memory Int) :=
  if fwa = block.fwa then
    .ok fun a =>
      if newFwa ≤ a ∧ a < newFwa + min block.len n then m (a - newFwa + fwa) else fresh a
  else .error .badBlock

def krealloc (locMem : Int) (block : Block) (newFwa : Int) (fresh m : Memory Int) (ptr : Int)
    (nelems : Nat) (dtype : Datatype) : Except Fault (Memory Int × Int) := do
  let oldFwa ← mgtfwa locMem m ptr dtype
  let m ← zraloc block newFwa fresh m oldFwa (nchars nelems dtype szMemalign)
  let oldCharOffset := locva locMem (coerce ptr dtype .char) .char - oldFwa
  let dataptr := mgdptr locMem newFwa .char szMemalign locMem
  let newCharOffset := locva locMem dataptr .char - newFwa
  let charShift := newCharOffset - oldCharOffset
  let m :=
    if charShift ≠ 0 then
      put m (locva locMem dataptr .char)
        (fetch m (locva locMem (dataptr - charShift) .char) (nelems * tySize dtype).toNat)
    else m
  .ok (msvfwa locMem m newFwa dtype szMemalign locMem)

/-! ## What a buffer has to be -/

/-- The data area is aligned and follows the cell in which the address of the block is saved, and
both lie in the block. -/
structure InBlock (locMem : Int) (m : Memory Int) (ptr : Int) (nelems : Nat) (dtype : Datatype)
    (szAlign fwaAlign : Int) (block : Block) : Prop where
  aligned : szAlign ∣ locva locMem ptr dtype - fwaAlign
  follows : locva locMem ptr dtype =
    locva locMem (mgdptr locMem block.fwa .int szAlign fwaAlign) .int
  saved : fetchInt m (locva locMem ptr dtype - szInt) = block.fwa
  first : block.fwa ≤ locva locMem ptr dtype - szInt
  last : locva locMem ptr dtype + dataLen nelems dtype ≤ block.fwa + block.len

/-- `malloc1` places a buffer in the block that it asks for. -/
def MallocPlaces (locMem fwa : Int) (nelems : Nat) (dtype : Datatype) (szAlign fwaAlign : Int) :
    Prop :=
  ∀ m, InBlock locMem (malloc1 locMem m fwa dtype szAlign fwaAlign).1
    (malloc1 locMem m fwa dtype szAlign fwaAlign).2 nelems dtype szAlign fwaAlign
    ⟨fwa, nchars nelems dtype szAlign⟩

/-- The buffer that `malloc1` returned is given another size: it is placed in the new block, and
the first elements are kept.  Only its header is known of what `malloc1` left in memory. -/
def KreallocKeeps (locMem fwa newFwa : Int) (nelems newNelems : Nat) (dtype : Datatype)
    (szAlign fwaAlign : Int) : Prop :=
  ∀ m fresh, fetchInt m (locva locMem (mgdptr locMem fwa .int szAlign fwaAlign - 1) .int) = fwa →
    ∃ m' ptr', krealloc locMem ⟨fwa, nchars nelems dtype szAlign⟩ newFwa fresh m
        (malloc1 locMem m fwa dtype szAlign fwaAlign).2 newNelems dtype = .ok (m', ptr') ∧
      InBlock locMem m' ptr' newNelems dtype szMemalign locMem
        ⟨newFwa, nchars newNelems dtype szMemalign⟩ ∧
      fetch m' (locva locMem ptr' dtype) (min nelems newNelems * tySize dtype).toNat =
        fetch m (locva locMem (malloc1 locMem m fwa dtype szAlign fwaAlign).2 dtype)
          (min nelems newNelems * tySize dtype).toNat

/-! ## Where heap buffers lie -/

variable {locMem fwa newFwa szAlign fwaAlign a b x q : Int} {m m' : Memory Int} {dtype : Datatype}
  {nelems newNelems : Nat}

/-! ## Integer cells -/

theorem horner_intChars (x : Int) : x % 65536 + 65536 * (x / 65536 % 65536 +
    65536 * (x / 65536 / 65536 % 65536 + 65536 * (x / 65536 / 65536 / 65536))) = x := by
  omega

@[simp] theorem fetchInt_putInt (m : Memory Int) (a x : Int) : fetchInt (putInt m a x) a = x := by
  have h0 : putInt m a x a = x % 65536 :=
    @put_of_mem _ m a a (intChars x) 0 (show 0 < 4 by decide) (by omega)
  have h1 : putInt m a x (a + 1) = x / 65536 % 65536 :=
    @put_of_mem _ m a (a + 1) (intChars x) 1 (show 1 < 4 by decide) (by omega)
  have h2 : putInt m a x (a + 2) = x / 65536 / 65536 % 65536 :=
    @put_of_mem _ m a (a + 2) (intChars x) 2 (show 2 < 4 by decide) (by omega)
  have h3 : putInt m a x (a + 3) = x / 65536 / 65536 / 65536 :=
    @put_of_mem _ m a (a + 3) (intChars x) 3 (show 3 < 4 by decide) (by omega)
  rw [fetchInt, h0, h1, h2, h3]
  exact horner_intChars x

theorem putInt_outside {c : Int} (h : c < a ∨ a + 4 ≤ c) : putInt m a x c = m c :=
  put_of_not_mem h

theorem fetchInt_congr (h : ∀ c, a ≤ c → c < a + 4 → m' c = m c) : fetchInt m' a = fetchInt m a := by
  rw [fetchInt, fetchInt, h a (by omega) (by omega), h (a + 1) (by omega) (by omega),
    h (a + 2) (by omega) (by omega), h (a + 3) (by omega) (by omega)]

/-! ## Alignment -/

theorem bufadr_aligned (fwa szAlign fwaAlign : Int) :
    szAlign ∣ bufadr fwa szAlign fwaAlign - fwaAlign := by
  have hdiv := Int.mul_tdiv_add_tmod (fwa + szInt - fwaAlign) szAlign
  unfold bufadr
  simp only [szInt] at hdiv ⊢
  split
  · refine ⟨(fwa + 4 - fwaAlign).tdiv szAlign + 1, ?_⟩
    rw [mul_add]
    omega
  · refine ⟨(fwa + 4 - fwaAlign).tdiv szAlign, ?_⟩
    omega

theorem bufadr_bounds (hpos : 0 < szAlign) (fwa fwaAlign : Int) :
    fwa + 4 ≤ bufadr fwa szAlign fwaAlign ∧
      (bufadr fwa szAlign fwaAlign ≤ fwa + 4 + szAlign ↔
        fwaAlign ≤ fwa + 4 ∨ szAlign ∣ fwa + 4 - fwaAlign) := by
  have hlt := Int.tmod_lt_of_pos (fwa + 4 - fwaAlign) hpos
  unfold bufadr
  simp only [szInt]
  by_cases hzero : (fwa + 4 - fwaAlign).tmod szAlign = 0
  · rw [if_neg (not_not_intro hzero)]
    refine ⟨le_rfl, iff_of_true (by omega) (Or.inr (Int.dvd_of_tmod_eq_zero hzero))⟩
  · have hdvd : ¬ szAlign ∣ fwa + 4 - fwaAlign := fun h => hzero (Int.tmod_eq_zero_of_dvd h)
    rw [if_pos hzero, or_iff_left hdvd]
    refine ⟨by omega, ?_⟩
    constructor
    · intro hle
      by_contra hbelow
      have hneg := Int.tmod_nonneg szAlign (show 0 ≤ -(fwa + 4 - fwaAlign) by omega)
      rw [Int.neg_tmod] at hneg
      omega
    · intro habove
      have hnonneg := Int.tmod_nonneg szAlign (show 0 ≤ fwa + 4 - fwaAlign by omega)
      omega

/-! ## Pointers -/

theorem tdiv_of_nonpos (ha : a ≤ 0) : a.tdiv b = -(-a / b) := by
  rw [← Int.tdiv_eq_ediv_of_nonneg (by omega), Int.neg_tdiv, neg_neg]

/-- The pointer to a data area of another datatype: a negative one is rounded up. -/
theorem locva_coerce (q : Int) (dtype : Datatype) :
    locva locMem (coerce (q + 1) .int dtype) dtype =
      locMem + 4 * q + if 0 ≤ q ∨ tySize dtype = 1 then 0 else tySize dtype := by
  by_cases hq : 0 ≤ q
  · have h4 := @Int.tdiv_eq_ediv_of_nonneg (q * 4 + 4 - 1) 4 (by omega)
    have h2 := @Int.tdiv_eq_ediv_of_nonneg (q * 4 + 2 - 1) 2 (by omega)
    cases dtype <;> simp [locva, coerce, tySize, hq] <;> omega
  · have h4 := @tdiv_of_nonpos (q * 4 + 4 - 1) 4 (by omega)
    have h2 := @tdiv_of_nonpos (q * 4 + 2 - 1) 2 (by omega)
    cases dtype <;> simp [locva, coerce, tySize, hq] <;> omega

/-- How far the pointer is from the data area, in units of `SZ_INT`. -/
def intOffset (locMem fwa szAlign fwaAlign : Int) : Int :=
  (bufadr fwa szAlign fwaAlign - locMem).tdiv 4

theorem mgdptr_int (locMem fwa szAlign fwaAlign : Int) :
    mgdptr locMem fwa .int szAlign fwaAlign = intOffset locMem fwa szAlign fwaAlign + 1 := rfl

theorem locva_header (locMem fwa szAlign fwaAlign : Int) :
    locva locMem (mgdptr locMem fwa .int szAlign fwaAlign - 1) .int =
      locMem + 4 * intOffset locMem fwa szAlign fwaAlign - 4 := by
  rw [mgdptr_int, locva, tySize]
  omega

theorem intOffset_eq (h : 4 ∣ bufadr fwa szAlign fwaAlign - locMem) :
    locMem + 4 * intOffset locMem fwa szAlign fwaAlign = bufadr fwa szAlign fwaAlign := by
  have hmul := Int.tdiv_mul_cancel h
  unfold intOffset
  omega

/-- What `malloc1` returns lies where it should. -/
structure Exact (locMem fwa : Int) (dtype : Datatype) (szAlign fwaAlign : Int) : Prop where
  unit : 4 ∣ fwaAlign - locMem
  slack : fwaAlign ≤ fwa + 4 ∨ szAlign ∣ fwa + 4 - fwaAlign
  above : locMem ≤ bufadr fwa szAlign fwaAlign ∨ tySize dtype = 1

/-- The data area is what the pointer leads to. -/
def dataArea (locMem : Int) (dtype : Datatype) (fwa szAlign fwaAlign : Int) : Int :=
  locva locMem (coerce (mgdptr locMem fwa .int szAlign fwaAlign) .int dtype) dtype

theorem four_dvd_bufadr (h4 : 4 ∣ szAlign) :
    4 ∣ bufadr fwa szAlign fwaAlign - locMem ↔ 4 ∣ fwaAlign - locMem := by
  have := h4.trans (bufadr_aligned fwa szAlign fwaAlign)
  omega

theorem dataArea_eq (h4 : 4 ∣ szAlign) (h : Exact locMem fwa dtype szAlign fwaAlign) :
    dataArea locMem dtype fwa szAlign fwaAlign = bufadr fwa szAlign fwaAlign := by
  have heq := @intOffset_eq locMem fwa szAlign fwaAlign ((four_dvd_bufadr h4).mpr h.unit)
  rw [dataArea, mgdptr_int, locva_coerce, heq, if_pos, add_zero]
  refine h.above.imp_left fun habove => ?_
  omega

theorem Exact.inBlock (hpos : 0 < szAlign) (h4 : 4 ∣ szAlign)
    (h : Exact locMem fwa dtype szAlign fwaAlign) (m : Memory Int) (nelems : Nat) :
    InBlock locMem (msvfwa locMem m fwa dtype szAlign fwaAlign).1
      (msvfwa locMem m fwa dtype szAlign fwaAlign).2 nelems dtype szAlign fwaAlign
      ⟨fwa, nchars nelems dtype szAlign⟩ := by
  have harea := dataArea_eq h4 h
  have hbounds := bufadr_bounds hpos fwa fwaAlign
  have hle := hbounds.2.mpr h.slack
  have hoffset := @intOffset_eq locMem fwa szAlign fwaAlign ((four_dvd_bufadr h4).mpr h.unit)
  have hheader := locva_header locMem fwa szAlign fwaAlign
  rw [hoffset] at hheader
  unfold dataArea at harea
  constructor
  · rw [msvfwa, harea]
    exact bufadr_aligned fwa szAlign fwaAlign
  · rw [msvfwa, harea, ← hoffset]
    change _ = locMem + (intOffset locMem fwa szAlign fwaAlign + 1 - 1) * 4
    omega
  · rw [msvfwa, harea, hheader]
    exact fetchInt_putInt _ _ _
  · rw [msvfwa, harea]
    simp only [szInt]
    omega
  · rw [msvfwa, harea]
    simp only [nchars, szInt]
    omega

theorem InBlock.exact (hpos : 0 < szAlign) (h4 : 4 ∣ szAlign)
    (h : InBlock locMem m (coerce (mgdptr locMem fwa .int szAlign fwaAlign) .int dtype) nelems dtype
      szAlign fwaAlign ⟨fwa, nchars nelems dtype szAlign⟩) :
    Exact locMem fwa dtype szAlign fwaAlign := by
  obtain ⟨haligned, hfollows, -, -, hlast⟩ := h
  rw [hfollows, mgdptr_int, locva, tySize] at haligned
  have hunit : 4 ∣ fwaAlign - locMem := by
    have := h4.trans haligned
    omega
  have hoffset := @intOffset_eq locMem fwa szAlign fwaAlign ((four_dvd_bufadr h4).mpr hunit)
  rw [hfollows, mgdptr_int, locva, tySize] at hlast
  simp only [nchars, szInt] at hlast
  refine ⟨hunit, (bufadr_bounds hpos fwa fwaAlign).2.mp (by omega), ?_⟩
  rw [mgdptr_int, locva_coerce, locva, tySize] at hfollows
  by_contra hnot
  rw [if_neg (by omega)] at hfollows
  cases dtype <;> simp only [tySize] at hfollows <;> omega

theorem mallocPlaces_iff (hpos : 0 < szAlign) (h4 : 4 ∣ szAlign) :
    MallocPlaces locMem fwa nelems dtype szAlign fwaAlign ↔
      Exact locMem fwa dtype szAlign fwaAlign :=
  ⟨fun h => (h fun _ => 0).exact hpos h4, fun h m => h.inBlock hpos h4 m nelems⟩

/-! ## Reallocation -/

/-- The slack before the data area. -/
def pad (fwa szAlign fwaAlign : Int) : Int := bufadr fwa szAlign fwaAlign - (fwa + szInt)

theorem coerce_back (h : 0 ≤ q ∨ dtype = .char) :
    coerce (coerce (q + 1) .int dtype) dtype .int = q + 1 := by
  rcases h with hq | rfl
  · have h4 := @Int.tdiv_eq_ediv_of_nonneg (q * 4 + 4 - 1) 4 (by omega)
    have h2 := @Int.tdiv_eq_ediv_of_nonneg (q * 4 + 2 - 1) 2 (by omega)
    have h2' : (q * 4 + 2 - 1) / 2 = q * 2 := by omega
    have h4' : (q * 4 + 4 - 1) / 4 = q := by omega
    have h4'' : (q * 2 * 2 + 4 - 1).tdiv 4 = q := by
      rw [Int.tdiv_eq_ediv_of_nonneg (by omega)]
      omega
    cases dtype <;> simp [coerce, tySize, h4, h2, h2', h4', h4'']
  · simp [coerce, tySize]

theorem coerce_back_below (hq : q < 0) (hone : tySize dtype = 1) (hchar : dtype ≠ .char) :
    coerce (coerce (q + 1) .int dtype) dtype .int = q + 2 := by
  have h4 := @tdiv_of_nonpos (q * 4 + 4 - 1) 4 (by omega)
  have h4' : -(q * 4 + 4 - 1) / 4 = -(q + 1) := by omega
  cases dtype <;> simp [tySize] at hone hchar <;> simp [coerce, tySize, h4] <;> omega

/-- When the buffer is reallocated its contents are as they are asked for. -/
structure HeapFits (locMem fwa newFwa : Int) (nelems newNelems : Nat) (dtype : Datatype)
    (szAlign fwaAlign : Int) : Prop where
  old : Exact locMem fwa dtype szAlign fwaAlign
  signed : locMem ≤ bufadr fwa szAlign fwaAlign ∨ dtype = .char
  near : pad fwa szAlign fwaAlign ≤ szVmemalign
  kept : min nelems newNelems = 0 ∨ pad fwa szAlign fwaAlign +
    (min nelems newNelems : Nat) * tySize dtype ≤ dataLen newNelems dtype + szMemalign
  new : Exact locMem newFwa dtype szMemalign locMem

theorem mgtfwa_eq (h4 : 4 ∣ szAlign) (hpos : 0 < szAlign)
    (h : Exact locMem fwa dtype szAlign fwaAlign)
    (hsigned : locMem ≤ bufadr fwa szAlign fwaAlign ∨ dtype = .char)
    (hheader : fetchInt m (locva locMem (mgdptr locMem fwa .int szAlign fwaAlign - 1) .int) = fwa) :
    mgtfwa locMem m (coerce (mgdptr locMem fwa .int szAlign fwaAlign) .int dtype) dtype =
      if pad fwa szAlign fwaAlign > szVmemalign then .error .corrupted else .ok fwa := by
  have hoffset := @intOffset_eq locMem fwa szAlign fwaAlign ((four_dvd_bufadr h4).mpr h.unit)
  have hback := @coerce_back (intOffset locMem fwa szAlign fwaAlign) dtype
    (hsigned.imp_left fun habove => by omega)
  have hbounds := (bufadr_bounds hpos fwa fwaAlign).1
  have hlocva := locva_header locMem fwa szAlign fwaAlign
  rw [← mgdptr_int] at hback
  rw [hoffset] at hlocva
  rw [hlocva] at hheader
  simp only [mgtfwa, hback, hheader, hlocva, pad, szInt]
  congr 1
  refine propext ?_
  omega

theorem put_fetch_self (m : Memory Int) (a : Int) (n : Nat) : put m a (fetch m a n) = m := by
  funext c
  by_cases hc : c < a ∨ a + n ≤ c
  · exact put_of_not_mem (by rwa [length_fetch])
  · have hj : (c - a).toNat < (fetch m a n).length := by
      rw [length_fetch]
      omega
    have hget := List.getElem?_eq_getElem hj
    rw [getElem?_fetch, if_pos (by rwa [length_fetch] at hj)] at hget
    rw [put_of_mem (c - a).toNat hj (by omega), ← Option.some.inj hget]
    congr 1
    omega

/-- The memory after the host has moved a block. -/
def moved (block : Block) (newFwa : Int) (fresh m : Memory Int) (n : Int) : Memory Int := fun a =>
  if newFwa ≤ a ∧ a < newFwa + min block.len n then m (a - newFwa + block.fwa) else fresh a

/-- The data area is moved with the block, then shifted to where it has to be. -/
theorem krealloc_eq (h4 : 4 ∣ szAlign) (hpos : 0 < szAlign)
    (h : Exact locMem fwa dtype szAlign fwaAlign)
    (hsigned : locMem ≤ bufadr fwa szAlign fwaAlign ∨ dtype = .char)
    (hnear : pad fwa szAlign fwaAlign ≤ szVmemalign)
    (hheader : fetchInt m (locva locMem (mgdptr locMem fwa .int szAlign fwaAlign - 1) .int) = fwa)
    (fresh : Memory Int) (len : Int) :
    krealloc locMem ⟨fwa, len⟩ newFwa fresh m
        (malloc1 locMem m fwa dtype szAlign fwaAlign).2 newNelems dtype =
      .ok (msvfwa locMem
        (put (moved ⟨fwa, len⟩ newFwa fresh m (nchars newNelems dtype szMemalign))
          (bufadr newFwa szMemalign locMem)
          (fetch (moved ⟨fwa, len⟩ newFwa fresh m (nchars newNelems dtype szMemalign))
            (newFwa + szInt + pad fwa szAlign fwaAlign) (newNelems * tySize dtype).toNat))
        newFwa dtype szMemalign locMem) := by
  have hget := mgtfwa_eq h4 hpos h hsigned hheader
  rw [if_neg (not_lt.mpr hnear)] at hget
  have harea := dataArea_eq h4 h
  unfold dataArea at harea
  change krealloc locMem ⟨fwa, len⟩ newFwa fresh m
    (coerce (mgdptr locMem fwa .int szAlign fwaAlign) .int dtype) newNelems dtype = _
  generalize coerce (mgdptr locMem fwa .int szAlign fwaAlign) .int dtype = ptr at hget harea ⊢
  have hold : locva locMem (coerce ptr dtype .char) .char = bufadr fwa szAlign fwaAlign := by
    rw [← harea]
    cases dtype <;> simp [coerce, locva, tySize]
  have hnew : locva locMem (mgdptr locMem newFwa .char szMemalign locMem) .char =
      bufadr newFwa szMemalign locMem := by
    simp only [locva, mgdptr, tySize, Int.tdiv_one]
    omega
  have hshift : ∀ shift, locva locMem (mgdptr locMem newFwa .char szMemalign locMem - shift) .char =
      bufadr newFwa szMemalign locMem - shift := by
    intro shift
    rw [← hnew, locva, locva, tySize]
    omega
  have hraloc : ∀ n, zraloc ⟨fwa, len⟩ newFwa fresh m fwa n =
      .ok (moved ⟨fwa, len⟩ newFwa fresh m n) := fun n => if_pos rfl
  simp only [krealloc, hget, hraloc, bind, Except.bind, hold, hnew, hshift]
  have hplace : bufadr newFwa szMemalign locMem - (bufadr newFwa szMemalign locMem - newFwa -
      (bufadr fwa szAlign fwaAlign - fwa)) = newFwa + szInt + pad fwa szAlign fwaAlign := by
    rw [pad]
    omega
  rw [hplace]
  split
  · rfl
  · have hsame : bufadr newFwa szMemalign locMem = newFwa + szInt + pad fwa szAlign fwaAlign := by
      omega
    rw [hsame, put_fetch_self]

theorem tySize_pos (dtype : Datatype) : 1 ≤ tySize dtype := by
  cases dtype <;> decide

theorem dataLen_le (nelems : Nat) (dtype : Datatype) :
    nelems * tySize dtype ≤ dataLen nelems dtype := by
  unfold dataLen
  split
  next h => simp [h, tySize]
  next h => exact le_rfl

/-- A char of the new data area comes from the old one, if it was in the part that is moved. -/
theorem reallocated_cell {block : Block} {fresh : Memory Int} {n p : Int} {k : Nat}
    (h4 : 4 ∣ szMemalign) (hnew : Exact locMem newFwa dtype szMemalign locMem)
    (hk : (k : Int) < newNelems * tySize dtype) (hp : 0 ≤ p) :
    (msvfwa locMem (put (moved block newFwa fresh m n) (bufadr newFwa szMemalign locMem)
        (fetch (moved block newFwa fresh m n) (newFwa + p) (newNelems * tySize dtype).toNat))
      newFwa dtype szMemalign locMem).1 (bufadr newFwa szMemalign locMem + k) =
      if p + k < min block.len n then m (block.fwa + p + k) else fresh (newFwa + p + k) := by
  have hoffset := @intOffset_eq locMem newFwa szMemalign locMem
    ((four_dvd_bufadr h4).mpr hnew.unit)
  have hheader := locva_header locMem newFwa szMemalign locMem
  rw [hoffset] at hheader
  simp only [msvfwa, hheader]
  rw [putInt_outside (Or.inr (by omega))]
  have hj : k < (fetch (moved block newFwa fresh m n) (newFwa + p)
      (newNelems * tySize dtype).toNat).length := by
    rw [length_fetch]
    omega
  have hget := List.getElem?_eq_getElem hj
  rw [getElem?_fetch, if_pos (by rwa [length_fetch] at hj)] at hget
  rw [put_of_mem k hj rfl, ← Option.some.inj hget, moved]
  by_cases hlt : p + k < min block.len n
  · rw [if_pos ⟨by omega, by omega⟩, if_pos hlt]
    congr 1
    omega
  · rw [if_neg fun h => hlt (by omega), if_neg hlt]

theorem kept_bounds (nelems newNelems : Nat) (dtype : Datatype) :
    (min nelems newNelems : Nat) * tySize dtype ≤ nelems * tySize dtype ∧
      (min nelems newNelems : Nat) * tySize dtype ≤ newNelems * tySize dtype := by
  have hpos := tySize_pos dtype
  exact ⟨mul_le_mul_of_nonneg_right (by omega) (by omega),
    mul_le_mul_of_nonneg_right (by omega) (by omega)⟩

theorem HeapFits.kreallocKeeps (h4 : 4 ∣ szAlign) (hpos : 0 < szAlign)
    (h : HeapFits locMem fwa newFwa nelems newNelems dtype szAlign fwaAlign) :
    KreallocKeeps locMem fwa newFwa nelems newNelems dtype szAlign fwaAlign := by
  intro m fresh hheader
  have hkept := kept_bounds nelems newNelems dtype
  have hlen := dataLen_le nelems dtype
  have hbounds := bufadr_bounds hpos fwa fwaAlign
  have hle := hbounds.2.mpr h.old.slack
  have harea := dataArea_eq h4 h.old
  have harea' := dataArea_eq (by decide) h.new
  unfold dataArea at harea harea'
  refine ⟨_, _, krealloc_eq h4 hpos h.old h.signed h.near hheader fresh _,
    h.new.inBlock (by decide) (by decide) _ newNelems, ?_⟩
  change fetch _ (locva locMem (coerce (mgdptr locMem newFwa .int szMemalign locMem) .int dtype)
    dtype) _ = fetch _ (locva locMem (coerce (mgdptr locMem fwa .int szAlign fwaAlign) .int dtype)
    dtype) _
  rw [harea, harea']
  refine fetch_congr fun k hk => ?_
  have hpad : 0 ≤ szInt + pad fwa szAlign fwaAlign := by
    simp only [pad, szInt]
    omega
  have hcell := @reallocated_cell locMem newFwa m dtype newNelems
    ⟨fwa, nchars nelems dtype szAlign⟩ fresh (nchars newNelems dtype szMemalign)
    (szInt + pad fwa szAlign fwaAlign) k (by decide) h.new (by omega) hpad
  rw [← add_assoc] at hcell
  have hroom := h.kept.resolve_left fun hzero => by
    rw [hzero] at hk
    simp at hk
  refine hcell.trans ?_
  rw [if_pos ?_]
  · simp only [pad, szInt]
    congr 1
    omega
  · simp only [nchars, pad, szInt] at hroom ⊢
    omega

theorem krealloc_corrupted {fresh : Memory Int} {block : Block}
    (h : mgtfwa locMem m (coerce (mgdptr locMem fwa .int szAlign fwaAlign) .int dtype) dtype =
      .error .corrupted) :
    krealloc locMem block newFwa fresh m (malloc1 locMem m fwa dtype szAlign fwaAlign).2 newNelems
      dtype = .error .corrupted := by
  change krealloc locMem _ newFwa fresh m
    (coerce (mgdptr locMem fwa .int szAlign fwaAlign) .int dtype) newNelems dtype = _
  simp only [krealloc, h, bind, Except.bind]

theorem KreallocKeeps.signed (h4 : 4 ∣ szAlign) (hold : Exact locMem fwa dtype szAlign fwaAlign)
    (h : KreallocKeeps locMem fwa newFwa nelems newNelems dtype szAlign fwaAlign) :
    locMem ≤ bufadr fwa szAlign fwaAlign ∨ dtype = .char := by
  by_contra hnot
  obtain ⟨hbelow, hchar⟩ := not_or.mp hnot
  have hoffset := @intOffset_eq locMem fwa szAlign fwaAlign ((four_dvd_bufadr h4).mpr hold.unit)
  have hlocva := locva_header locMem fwa szAlign fwaAlign
  have hback := coerce_back_below (show intOffset locMem fwa szAlign fwaAlign < 0 by omega)
    (hold.above.resolve_left hbelow) hchar
  rw [← mgdptr_int] at hback
  rw [hoffset] at hlocva
  have hdata : locva locMem (intOffset locMem fwa szAlign fwaAlign + 2 - 1) .int =
      bufadr fwa szAlign fwaAlign := by
    rw [locva, tySize]
    omega
  -- the data holds an address that is far away
  generalize hm : putInt (putInt (fun _ => 0) (bufadr fwa szAlign fwaAlign - 4) fwa)
    (bufadr fwa szAlign fwaAlign) (bufadr fwa szAlign fwaAlign + 1000) = m
  have hheader : fetchInt m (bufadr fwa szAlign fwaAlign - 4) = fwa := by
    rw [← hm, fetchInt_congr fun c hc hc' => putInt_outside (Or.inl (by omega)), fetchInt_putInt]
  have hlost : mgtfwa locMem m (coerce (mgdptr locMem fwa .int szAlign fwaAlign) .int dtype) dtype =
      .error .corrupted := by
    simp only [mgtfwa, hback, hdata, ← hm, fetchInt_putInt, szVmemalign]
    rw [if_pos (by omega)]
  obtain ⟨m', ptr', hrun, -⟩ := h m (fun _ => 0) (hlocva.symm ▸ hheader)
  rw [krealloc_corrupted hlost] at hrun
  cases hrun

theorem KreallocKeeps.kept (h4 : 4 ∣ szAlign) (hpos : 0 < szAlign)
    (hold : Exact locMem fwa dtype szAlign fwaAlign)
    (hsigned : locMem ≤ bufadr fwa szAlign fwaAlign ∨ dtype = .char)
    (hnear : pad fwa szAlign fwaAlign ≤ szVmemalign)
    (hnew : Exact locMem newFwa dtype szMemalign locMem)
    (h : KreallocKeeps locMem fwa newFwa nelems newNelems dtype szAlign fwaAlign) :
    min nelems newNelems = 0 ∨ pad fwa szAlign fwaAlign +
      (min nelems newNelems : Nat) * tySize dtype ≤ dataLen newNelems dtype + szMemalign := by
  by_contra hnot
  obtain ⟨hsome, hlost⟩ := not_or.mp hnot
  have hkept := kept_bounds nelems newNelems dtype
  have hone := mul_le_mul_of_nonneg_left (tySize_pos dtype)
    (Int.natCast_nonneg (min nelems newNelems))
  have hbounds := (bufadr_bounds hpos fwa fwaAlign).1
  have hoffset := @intOffset_eq locMem fwa szAlign fwaAlign ((four_dvd_bufadr h4).mpr hold.unit)
  have hlocva := locva_header locMem fwa szAlign fwaAlign
  have harea := dataArea_eq h4 hold
  have harea' := dataArea_eq (by decide) hnew
  unfold dataArea at harea harea'
  rw [hoffset] at hlocva
  -- the old block holds zeros, and the memory that the host adds holds ones
  have hheader := fetchInt_putInt (fun _ => 0)
    (locva locMem (mgdptr locMem fwa .int szAlign fwaAlign - 1) .int) fwa
  obtain ⟨m', ptr', hrun, -, hsame⟩ := h _ (fun _ => 1) hheader
  rw [krealloc_eq h4 hpos hold hsigned hnear hheader] at hrun
  have hm' := congrArg Prod.fst (Except.ok.inj hrun)
  have hptr := congrArg Prod.snd (Except.ok.inj hrun)
  simp only at hm' hptr
  have hptr' : locva locMem ptr' dtype = bufadr newFwa szMemalign locMem := by
    rw [← hptr]
    exact harea'
  have hbuf : locva locMem (malloc1 locMem (putInt (fun _ => 0)
      (locva locMem (mgdptr locMem fwa .int szAlign fwaAlign - 1) .int) fwa) fwa dtype szAlign
      fwaAlign).2 dtype = bufadr fwa szAlign fwaAlign := harea
  rw [hptr', hbuf] at hsame
  obtain ⟨k, hk⟩ : ∃ k : Nat, (k : Int) + 1 = (min nelems newNelems : Nat) * tySize dtype :=
    ⟨((min nelems newNelems : Nat) * tySize dtype - 1).toNat, by omega⟩
  have hcell := congrArg (·[k]?) hsame
  simp only [getElem?_fetch] at hcell
  rw [if_pos (by omega), if_pos (by omega)] at hcell
  have hnewCell := @reallocated_cell locMem newFwa
    (putInt (fun _ => 0) (locva locMem (mgdptr locMem fwa .int szAlign fwaAlign - 1) .int) fwa)
    dtype newNelems ⟨fwa, nchars nelems dtype szAlign⟩ (fun _ => 1)
    (nchars newNelems dtype szMemalign) (szInt + pad fwa szAlign fwaAlign) k (by decide) hnew
    (by omega) (by simp only [pad, szInt]; omega)
  rw [← add_assoc, if_neg (by simp only [nchars, szInt] at hlost ⊢; omega)] at hnewCell
  rw [← hm', hnewCell, hlocva, putInt_outside (Or.inr (by omega))] at hcell
  cases hcell

/-- A buffer is placed and keeps its elements exactly if it fits. -/
theorem heap_iff (hpos : 0 < szAlign) (h4 : 4 ∣ szAlign) :
    MallocPlaces locMem fwa nelems dtype szAlign fwaAlign ∧
        KreallocKeeps locMem fwa newFwa nelems newNelems dtype szAlign fwaAlign ↔
      HeapFits locMem fwa newFwa nelems newNelems dtype szAlign fwaAlign := by
  rw [mallocPlaces_iff hpos h4]
  refine ⟨fun h => ?_, fun h => ⟨h.old, h.kreallocKeeps h4 hpos⟩⟩
  obtain ⟨hold, hkeeps⟩ := h
  have hsigned := hkeeps.signed h4 hold
  have hheader := fetchInt_putInt (fun _ => 0)
    (locva locMem (mgdptr locMem fwa .int szAlign fwaAlign - 1) .int) fwa
  obtain ⟨m', ptr', hrun, hinBlock, -⟩ := hkeeps _ (fun _ => 0) hheader
  have hnear : pad fwa szAlign fwaAlign ≤ szVmemalign := by
    by_contra hfar
    have hlost := mgtfwa_eq h4 hpos hold hsigned hheader
    rw [if_pos (not_le.mp hfar)] at hlost
    rw [krealloc_corrupted hlost] at hrun
    cases hrun
  rw [krealloc_eq h4 hpos hold hsigned hnear hheader] at hrun
  obtain ⟨-, hptr⟩ := Prod.mk.inj (Except.ok.inj hrun)
  rw [← hptr] at hinBlock
  have hnew := hinBlock.exact (by decide) (by decide)
  exact ⟨hold, hsigned, hnear, hkeeps.kept h4 hpos hold hsigned hnear hnew, hnew⟩

theorem heap_aboveMem :
    (0 < (8 : Int) ∧ 4 ∣ (8 : Int)) ∧
      (MallocPlaces 0 101 3 .short 8 0 ∧ KreallocKeeps 0 101 206 3 5 .short 8 0) :=
  ⟨by decide, (heap_iff (by decide) (by decide)).mpr
    ⟨⟨by decide, by decide, by decide⟩, by decide, by decide, by decide,
      ⟨by decide, by decide, by decide⟩⟩⟩

/-- The data area of ten integers ends eleven chars after the block. -/
theorem not_heap_belowMem :
    ¬ (MallocPlaces 1000 101 10 .int 8 1000 ∧ KreallocKeeps 1000 101 101 10 10 .int 8 1000) :=
  fun h => absurd ((mallocPlaces_iff (by decide) (by decide)).mp h.1).slack (by decide)

end Iraf.Memio
