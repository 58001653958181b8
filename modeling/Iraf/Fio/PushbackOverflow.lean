import Mathlib.Tactic.Ring
import Iraf.Fio.PushbackOrder

/-!
# Overflow of the pushback buffer

The descriptor as the three procedures that push back leave it when they end in the overflow
error.  The chars pushed back and the saved pointers lie in one buffer, so what is stored past
the room that is left falls on what was there.
-/

namespace Iraf.Fio

open Cells

/-- How an integer is stored as chars. -/
structure Layout (host : Host) where
  charsOf : Int → List Int
  intOf : List Int → Int
  length_charsOf : ∀ n, ((charsOf n).length : Int) = host.szInt

/-- The address of the first char of an integer. -/
def Host.charAt (host : Host) (k : Int) : Int := (k - 1) * host.szInt + 1

variable {host : Host} (layout : Layout host)

/-- The integers from `Memi[k]` on are stored, and with them the chars that they consist of. -/
def storeInts (f : Fd) (k : Int) (words : List Int) : Fd :=
  { f with
    memi := put f.memi k words
    memc := put f.memc (host.charAt k) (words.flatMap layout.charsOf) }

/-- The chars from `Memc[a]` on are stored, and with them the integers that they are part of. -/
def storeChars (f : Fd) (a : Int) (chars : List Int) : Fd :=
  { f with
    memc := put f.memc a chars
    memi := fun k =>
      if max a (host.charAt k) < min (a + chars.length) (host.charAt (k + 1)) then
        layout.intOf
          (fetch (put (put f.memc (host.charAt k) (layout.charsOf (f.memi k))) a chars)
            (host.charAt k) host.szInt.toNat)
      else f.memi k }

/-- The pointers of the interrupted stream, in the order of their addresses. -/
def Fd.pointers (f : Fd) : List Int := [f.iop, f.itop, f.bufptr, f.fpbiop]

/-- The pointers are saved, but `FPBSP` is not set yet. -/
def savePointers (f : Fd) : Fd := storeInts layout f (f.fpbsp - 4) f.pointers

/-- `ungetci` finds the overflow when the stream has been switched to the char. -/
def ungetciFailed (f : Fd) (ch : Int) : Fd :=
  let f := withPbbuf host f
  let g := storeChars layout (savePointers layout f) f.fpbiop [Fmtio.short ch]
  { g with bufptr := f.fpbiop, iop := f.fpbiop, itop := f.fpbiop + 1 }

/-- `ungetline` sets `iop` before it copies the string, and `itop` after it. -/
def ungetlineFailed (f : Fd) (str : List Int) : Fd :=
  let f := withPbbuf host f
  let copied := (beforeEos str).take (iopLimit host f - f.fpbiop).toNat
  let g := storeChars layout (savePointers layout f) f.fpbiop copied
  { g with bufptr := f.fpbiop, iop := f.fpbiop }

/-- `unread` tests the room before it touches the stream. -/
def unreadFailed (f : Fd) : Fd := savePointers layout (withPbbuf host f)

inductive PushOp where
  | ungetci (ch : Int)
  | ungetline (str : List Int)
  | unread (buf : List Int)
  deriving DecidableEq, Repr

namespace PushOp

def perform (host : Host) (f : Fd) : PushOp → Except FioErr Fd
  | .ungetci ch => Fio.ungetci host f ch
  | .ungetline str => Fio.ungetline host f str
  | .unread buf => Fio.unread host f buf

/-- The descriptor when the overflow error is raised. -/
def failed (f : Fd) : PushOp → Fd
  | .ungetci ch => ungetciFailed layout f ch
  | .ungetline str => ungetlineFailed layout f str
  | .unread _ => unreadFailed layout f

/-- A call with the descriptor that it leaves, also when it fails. -/
def run (f : Fd) (op : PushOp) : Except (FioErr × Fd) Fd :=
  match op.perform host f with
  | .ok g => .ok g
  | .error e => .error (e, op.failed layout f)

end PushOp

variable {layout} {f g : Fd} {s : PushedInput} {levels : List Level} {base : Level}
  {pushed rest : List Int}

theorem Host.charAt_mono {k k' : Int} (h : k ≤ k') : host.charAt k ≤ host.charAt k' := by
  have hmul := Int.mul_le_mul_of_nonneg_right (by omega : k - 1 ≤ k' - 1) host.szInt_pos.le
  unfold Host.charAt
  omega

theorem Saved.congr {m m' : Memory Int} {sp : Int} (h : Saved m sp levels)
    (hsame : ∀ k, sp ≤ k → m' k = m k) : Saved m' sp levels := by
  induction levels generalizing sp with
  | nil => exact trivial
  | cons l ls ih =>
      obtain ⟨hl, hls⟩ := h
      refine ⟨?_, ih hls fun k hk => hsame k (by omega)⟩
      rw [hsame _ le_rfl, hsame _ (by omega), hsame _ (by omega), hsame _ (by omega)]
      exact hl

theorem Pile.congr {m m' : Memory Int} {l : Level} {text : List Int}
    (h : Pile m l levels text base) (hsame : ∀ a, a < l.pbiop → m' a = m a) :
    Pile m' l levels text base := by
  induction h with
  | base l => exact .base l
  | @push l next base ls text hlow hle htop hnext hpile ih =>
      have htext : fetch m' l.iop (l.itop - l.iop).toNat =
          fetch m l.iop (l.itop - l.iop).toNat :=
        fetch_congr fun j hj => hsame _ (by omega)
      rw [← htext]
      exact .push hlow hle htop hnext (ih fun a ha => hsame a (by omega))

theorem PushedAt.congr (h : PushedAt host f levels base pushed rest) (hbuf : f.fpbbuf ≠ 0)
    {m mi : Memory Int} (hsaved : ∀ k, f.fpbsp ≤ k → mi k = f.memi k)
    (htext : ∀ a, a < f.fpbiop ∨ f.fpbtop ≤ a → m a = f.memc a) :
    PushedAt host { f with memc := m, memi := mi } levels base pushed rest := by
  obtain ⟨hbase, hsp⟩ := h.bottom hbuf
  obtain ⟨hpb, htop⟩ := h.allocated.buffer hbuf
  have hle := h.pile.base_le
  have hsame : SameStream (f.atLevel base)
      (Fd.atLevel { f with memc := m, memi := mi } base) := by
    refine sameStream_atLevel rfl rfl rfl rfl rfl rfl rfl rfl rfl rfl
      h.stream.fnchars rfl rfl rfl rfl fun x hlow hhigh => htext x ?_
    have hpb' : f.fpbbuf = f.pbAt := hpb
    have htop' : f.fpbtop = f.pbAt + pbSize f := htop
    have hle' : base.pbiop ≤ f.fpbiop := hle
    have hapart : f.pbAt + pbSize f ≤ bufLow (f.atLevel base) ∨
        bufHigh (f.atLevel base) ≤ f.pbAt := h.allocated.apart
    omega
  exact
    { saved := h.saved.congr hsaved
      pile := h.pile.congr fun a ha => htext a (.inl ha)
      flag := h.flag
      stream := h.stream.same hsame
      positioned := h.positioned
      allocated := h.allocated.same hsame.extent rfl rfl rfl rfl
      noBuffer := h.noBuffer
      bottom := h.bottom
      below := h.below }

theorem charAt_fpbsp_le (h : f.fpbsp ≤ stackTop host f) (htop : 0 < f.fpbtop) :
    host.charAt f.fpbsp ≤ f.fpbtop := by
  have hmono : host.charAt f.fpbsp ≤ host.charAt (stackTop host f) := Host.charAt_mono h
  have hmul : (f.fpbtop - 1).tdiv host.szInt * host.szInt ≤ f.fpbtop - 1 := by
    rw [Int.tdiv_eq_ediv_of_nonneg (by omega)]
    exact Int.ediv_mul_le _ host.szInt_pos.ne'
  unfold Host.charAt stackTop at *
  rw [Int.add_sub_cancel] at hmono
  omega

theorem withPbbuf_pbAt (f : Fd) : (withPbbuf host f).pbAt = f.pbAt := by
  unfold withPbbuf fmkpbbuf
  split
  · split
    · exact (Frame.fmkbfs f).pbAt
    · rfl
  · rfl

/-- The input is the same when only free room in the pushback buffer has changed. -/
theorem Holds.congr (h : Holds host f s) (hpb : 0 < f.pbAt) {m mi : Memory Int}
    (hsaved : ∀ k, (withPbbuf host f).fpbsp ≤ k → mi k = (withPbbuf host f).memi k)
    (htext : ∀ a, a < (withPbbuf host f).fpbiop → m a = (withPbbuf host f).memc a)
    (hstack : ∀ a, (withPbbuf host f).fpbiop ≤ a → host.charAt (withPbbuf host f).fpbsp ≤ a →
      m a = (withPbbuf host f).memc a) :
    Holds host { withPbbuf host f with memc := m, memi := mi } s := by
  obtain ⟨levels, base, hp⟩ := h
  obtain ⟨base', hw, hbuf, -⟩ := hp.withPbbuf
  refine ⟨levels, base', hw.congr hbuf hsaved fun a ha => ?_⟩
  rcases ha with hlow | hhigh
  · exact htext a hlow
  · obtain ⟨-, hsp⟩ := hw.bottom hbuf
    have hsize : 0 < pbSize (withPbbuf host f) := by
      unfold pbSize szPbbuf
      split <;> omega
    have htop : (withPbbuf host f).fpbtop =
        (withPbbuf host f).pbAt + pbSize (withPbbuf host f) := (hw.allocated.buffer hbuf).2
    have hpbAt : (withPbbuf host f).pbAt = f.pbAt := withPbbuf_pbAt f
    have hle : host.charAt (withPbbuf host f).fpbsp ≤ (withPbbuf host f).fpbtop :=
      charAt_fpbsp_le (by omega) (by omega)
    by_cases hlow : a < (withPbbuf host f).fpbiop
    · exact htext a hlow
    · exact hstack a (by omega) (by omega)

/-! ## The three procedures -/

end Iraf.Fio
