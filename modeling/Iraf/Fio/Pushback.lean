import Iraf.Fio.Fault

/-!
# Pushed back input

`ungetci.x`, `ungetc.x`, `ungetline.x`, `unread.x`, `fmkpbbuf.x`, and the readers
`getci.x` and `getline.x`.  The pushed chars grow up from the start of the pushback
buffer and the saved pointers grow down from its end.
-/

namespace Iraf.Fio

open Cells

variable (host : Host)

@[simp] abbrev NULL : Int := 0
@[simp] abbrev NEWLINE : Int := 10

/-! ## The pushback buffer -/

def fmkpbbuf (f : Fd) : Fd :=
  let f := if f.bufptr = NULL then fmkbfs f else f
  let buflen := if f.fpbbufsize ≤ 0 then szPbbuf else f.fpbbufsize
  let bp := f.pbAt
  { f with
    fpbbufsize := buflen
    fpbbuf := bp
    fpbtop := bp + buflen
    fpbiop := bp
    fpbsp := (bp + buflen - 1).tdiv host.szInt + 1 }

/-- A pushback buffer, made by the first procedure that needs it. -/
def withPbbuf (f : Fd) : Fd := if f.fpbbuf = NULL then fmkpbbuf host f else f

/-- The address of the lowest of the pointers once those of the interrupted
stream are saved, as that of a char. -/
def iopLimit (f : Fd) : Int := (f.fpbsp - 4 - 1) * host.szInt + 1

/-- The pointers of the interrupted stream are saved, and the chars of a pushback
are what is read next. -/
def pushChars (f : Fd) (chars : List Int) : Fd :=
  { f with
    memi := put f.memi (f.fpbsp - 4) [f.iop, f.itop, f.bufptr, f.fpbiop]
    memc := put f.memc f.fpbiop chars
    bufptr := f.fpbiop
    iop := f.fpbiop
    itop := f.fpbiop + chars.length
    fpbsp := f.fpbsp - 4
    fpbiop := f.fpbiop + chars.length
    ffPushback := true }

/-- A single char; the overflow is found after the char is stored. -/
def pushChar (f : Fd) (ch : Int) : Except FioErr Fd :=
  let f := withPbbuf host f
  if f.fpbiop + 1 ≥ iopLimit host f then .error .fpbovfl
  else .ok (pushChars f [ch])

def ungetci (f : Fd) (ch : Int) : Except FioErr Fd :=
  pushChar host f (Fmtio.short ch)

def ungetc (f : Fd) (ch : Int) : Except FioErr Fd := pushChar host f ch

def unread (f : Fd) (buf : List Int) : Except FioErr Fd :=
  let f := withPbbuf host f
  if iopLimit host f - f.fpbiop < buf.length then .error .fpbovfl
  else .ok (pushChars f buf)

/-- The loop of `ungetline` over the chars of the string. -/
def copyLine (limit : Int) :
    List Int → Int → Memory Int → Except FioErr (Int × Memory Int)
  | [], pbIop, m => .ok (pbIop, m)
  | ch :: rest, pbIop, m =>
      if pbIop ≥ limit then .error .fpbovfl
      else copyLine limit rest (pbIop + 1) (put m pbIop [ch])

/-- The chars of an array up to its EOS. -/
def beforeEos (str : List Int) : List Int := str.takeWhile (· ≠ Fmtio.EOS)

def ungetline (f : Fd) (str : List Int) : Except FioErr Fd :=
  if beforeEos str = [] then .ok f
  else do
    let f := withPbbuf host f
    let (pbIop, memc) ← copyLine (iopLimit host f) (beforeEos str) f.fpbiop f.memc
    .ok { pushChars f [] with memc := memc, itop := pbIop, fpbiop := pbIop }

/-! ## Readers -/

/-- `none` is `EOF`. -/
def getci (f : Fd) : Except FioErr (Option Int × Fd) := do
  let (status, f) ← if f.atTop then filbuf host f else .ok (0, f)
  if status = EOF then .ok (none, f)
  else .ok (some (f.memc f.iop), { f with iop := f.iop + 1 })

/-- The part of the loop of `getline` before a char is taken: the status of
`filbuf`, or `none` when there is a char in the buffer. -/
def fillLine (f : Fd) (ip ipTop : Int) (fault : Bool) :
    Except FioErr (Option Int × Fd × Int × Int) :=
  if fault || decide (ip ≥ ipTop) then do
    let (status, f) ← filbuf host { f with iop := ip }
    .ok (some status, f, f.iop, f.itop)
  else .ok (none, f, ip, ipTop)

/-- The loop of `getline`, which keeps the pointers in variables; `fault` is the
jump into the middle of its body. -/
def getlineLoop : Nat → Fd → Int → Int → Bool → List Int →
    Except FioErr (List Int × Fd)
  | 0, f, ip, _, _, line => .ok (line, { f with iop := ip })
  | fuel + 1, f, ip, ipTop, fault, line => do
      let (status, f, ip, ipTop) ← fillLine host f ip ipTop fault
      if status.any (· ≤ 0) then .ok (line, { f with iop := ip })
      else
        let ch := f.memc ip
        if ch = NEWLINE then .ok (line ++ [ch], { f with iop := ip + 1 })
        else getlineLoop fuel f (ip + 1) ipTop false (line ++ [ch])

/-- The value of the function and the chars of the line. -/
def getline (f : Fd) : Except FioErr (Int × List Int × Fd) := do
  let (line, f) ←
    if f.ftype = .text ∧ f.iop = f.itop ∧ f.ffPushback = false then
      let maxch := if f.ffRaw then 1 else (szLine : Int)
      let n := host.give f.chan maxch
      .ok (f.chan.take n, { f with chan := f.chan.drop n })
    else getlineLoop host szLine f f.iop f.itop (decide (f.iop < f.bufptr)) []
  let nchars : Int := line.length
  .ok (if nchars = 0 then EOF else nchars, line, { f with fnchars := nchars })

end Iraf.Fio
