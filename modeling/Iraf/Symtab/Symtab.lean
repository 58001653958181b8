import Iraf.Lib.Cells

/-!
# Symbol tables

`stenter`, `stfind`, `stfindall`, `stalloc`, `stpstr`, `stmark`, `stfree` and `stsqueeze` on the
index, the string buffer and the symbol table buffer.  Pointers into a buffer are offsets from its
start.
-/

namespace Iraf.SymbolTable

open Cells

@[simp] abbrev lenSymstruct : Int := 4
@[simp] abbrev lenMarker : Int := 2
abbrev maxHashchars : Nat := 18
abbrev maxSzkey : Nat := 256
abbrev maxIncrement : Int := 32768
abbrev incGrow : Int := 2

structure Symtab where
  /-- The last element entered. -/
  lastsymbol : Int
  nsymbols : Int
  /-- The heads of the threads. -/
  index : Memory Int
  indexlen : Int
  sbuf : Memory Int
  sbuflen : Int
  sbufop : Int
  sbufinc : Int
  stab : Memory Int
  stablen : Int
  stabop : Int
  stabinc : Int
  /-- The first characters of keys. -/
  ascii : Memory Int

inductive Fault
  /-- A store outside of a buffer. -/
  | outOfBounds
  /-- `stenter: null key string`. -/
  | nullKey
  | divide
  /-- A list that does not end. -/
  | endless
  deriving DecidableEq, Repr

/-! ## Storage -/

def storeStab (st : Symtab) (a : Int) (values : List Int) : Except Fault Symtab :=
  if values = [] ∨ 0 ≤ a ∧ a + values.length ≤ st.stablen then
    .ok { st with stab := put st.stab a values }
  else .error .outOfBounds

def storeSbuf (st : Symtab) (a : Int) (chars : List Int) : Except Fault Symtab :=
  if 0 ≤ a ∧ a + chars.length ≤ st.sbuflen then .ok { st with sbuf := put st.sbuf a chars }
  else .error .outOfBounds

/-- The next location in the symbol table that is even. -/
def Symtab.nextOffset (st : Symtab) : Int := (st.stabop + 1) / 2 * 2

/-- The symbol table with room for a block, if it overflows. -/
def Symtab.growStab (st : Symtab) (blklen : Int) : Symtab :=
  if st.nextOffset + blklen > st.stablen then
    { st with
      stablen := st.stablen + max blklen st.stabinc
      stabinc := min maxIncrement (st.stabinc * incGrow) }
  else st

def stalloc (st : Symtab) (blklen : Int) : Symtab × Int :=
  ({ st.growStab blklen with stabop := st.nextOffset + (blklen + 1) / 2 * 2 }, st.nextOffset)

def Symtab.growSbuf (st : Symtab) (blklen : Int) : Symtab :=
  if st.sbufop + blklen > st.sbuflen then
    { st with
      sbuflen := st.sbuflen + max blklen st.sbufinc
      sbufinc := min maxIncrement (st.sbufinc * incGrow) }
  else st

def stpstr (st : Symtab) (str : List Int) (minchars : Int) : Except Fault (Symtab × Int) := do
  let blklen := max (str.length : Int) minchars + 1
  let st' ← storeSbuf { st.growSbuf blklen with sbufop := st.sbufop + blklen } st.sbufop (str ++ [0])
  .ok (st', st.sbufop)

/-- An empty table whose buffers have the sizes asked for. -/
def emptyTable (lenIndex lenStab szSbuf : Nat) : Symtab where
  lastsymbol := 0
  nsymbols := 0
  index := fun _ => 0
  indexlen := lenIndex
  sbuf := fun _ => 0
  sbuflen := szSbuf
  sbufop := 1
  sbufinc := max 1 (((szSbuf : Int) + 1) / 2)
  stab := fun _ => 0
  stablen := lenStab
  stabop := 1
  stabinc := max 1 (((lenStab : Int) + 1) / 2)
  ascii := fun _ => 0

def stopen (name : List Int) (lenIndex lenStab szSbuf : Nat) : Except Fault Symtab := do
  let st ← storeSbuf (emptyTable lenIndex lenStab szSbuf) 0 [0]
  let r ← stpstr st name 0
  .ok r.1

/-! ## Symbols -/

/-- The sum over the first characters of a key. -/
def hashSum (key : List Int) : Int := (key.take maxHashchars).foldl (fun sum c => sum + (sum + c)) 0

def Symtab.thread (st : Symtab) (key : List Int) : Int := (hashSum key).tmod st.indexlen

/-- The heads of the thread and of the global list point to the new symbol. -/
def Symtab.link (st : Symtab) (key : List Int) (newSymbol : Int) : Symtab :=
  { st with
    index := Function.update st.index (st.thread key) newSymbol
    lastsymbol := newSymbol
    nsymbols := st.nsymbols + 1
    ascii := Function.update st.ascii (key.headD 0) 1 }

/-- The key of a new symbol is stored, and the symbol is linked; the offset of its user fields is
returned. -/
def storeKey (st : Symtab) (key : List Int) (newSymbol : Int) : Except Fault (Symtab × Int) := do
  let r ← stpstr st key 0
  let st ← storeStab r.1 (newSymbol + 3) [r.2]
  .ok (st.link key newSymbol, newSymbol + lenSymstruct)

def stenter (st : Symtab) (key : List Int) (uSymlen : Int) : Except Fault (Symtab × Int) :=
  if key = [] then .error .nullKey
  else if st.indexlen = 0 then .error .divide
  else do
    let st' ← storeStab (stalloc st (lenSymstruct + uSymlen)).1 st.nextOffset
      [st.index (st.thread key), st.lastsymbol, st.thread key]
    storeKey st' key st.nextOffset

/-- The caller fills in the user fields of the new symbol. -/
def enterFilled (st : Symtab) (key values : List Int) : Except Fault (Symtab × Int) := do
  let r ← stenter st key values.length
  let st ← storeStab r.1 r.2 values
  .ok (st, r.2)

/-- The comparison of a key with the string at an offset, for a number of characters at most. -/
def sameKey (sbuf : Memory Int) : Nat → List Int → Int → Bool
  | 0, _, _ => false
  | n + 1, key, cp =>
      if key.headD 0 ≠ sbuf cp then false
      else if key.headD 0 = 0 then true
      else sameKey sbuf n key.tail (cp + 1)

def Symtab.hasKey (st : Symtab) (key : List Int) (el : Int) : Bool :=
  decide (st.sbuf (st.stab (el + 3)) = key.headD 0) &&
    sameKey st.sbuf maxSzkey key (st.stab (el + 3))

def stfindLoop (st : Symtab) (key : List Int) : Nat → Int → Except Fault Int
  | 0, _ => .error .endless
  | fuel + 1, el =>
      if el ≤ 0 then .ok 0
      else if st.hasKey key el then .ok (el + lenSymstruct)
      else stfindLoop st key fuel (st.stab el)

/-- 0 stands for `NULL`. -/
def stfind (st : Symtab) (key : List Int) : Except Fault Int :=
  if st.ascii (key.headD 0) = 0 then .ok 0
  else if st.indexlen = 0 then .error .divide
  else stfindLoop st key (st.stabop.toNat + 1) (st.index (st.thread key))

def stfindallLoop (st : Symtab) (key : List Int) (maxSymbols : Int) :
    Nat → Int → List Int → Except Fault (List Int)
  | 0, _, _ => .error .endless
  | fuel + 1, el, symbols =>
      if el ≤ 0 then .ok symbols
      else if st.hasKey key el then
        if (symbols ++ [el + lenSymstruct]).length ≥ maxSymbols then
          .ok (symbols ++ [el + lenSymstruct])
        else stfindallLoop st key maxSymbols fuel (st.stab el) (symbols ++ [el + lenSymstruct])
      else stfindallLoop st key maxSymbols fuel (st.stab el) symbols

def stfindall (st : Symtab) (key : List Int) (maxSymbols : Int) : Except Fault (List Int) :=
  if st.ascii (key.headD 0) = 0 then .ok []
  else if st.indexlen = 0 then .error .divide
  else if maxSymbols > 0 then
    stfindallLoop st key maxSymbols (st.stabop.toNat + 1) (st.index (st.thread key)) []
  else .ok []

def sthead (st : Symtab) : Int :=
  if st.lastsymbol = 0 then 0 else st.lastsymbol + lenSymstruct

def stnext (st : Symtab) (sym : Int) : Int :=
  if sym = 0 then 0
  else if st.stab (sym - lenSymstruct + 1) = 0 then 0
  else st.stab (sym - lenSymstruct + 1) + lenSymstruct

/-- The symbols that `stnext` visits. -/
def symbolsFrom (st : Symtab) : Nat → Int → Except Fault (List Int)
  | 0, _ => .error .endless
  | fuel + 1, sym =>
      if sym = 0 then .ok []
      else do
        let rest ← symbolsFrom st fuel (stnext st sym)
        .ok (sym :: rest)

def symbols (st : Symtab) : Except Fault (List Int) :=
  symbolsFrom st (st.stabop.toNat + 1) (sthead st)

/-- The offset of the name of a symbol. -/
def stname (st : Symtab) (sym : Int) : Int := st.stab (sym - lenSymstruct + 3)

/-! ## Marks -/

def stmark (st : Symtab) : Except Fault (Symtab × Int) := do
  let marker := st.nextOffset
  let st' ← storeStab (stalloc st lenMarker).1 marker [st.sbufop, st.nsymbols]
  .ok (st', marker)

/-- The symbols above the marker are unlinked; the last of them leads to the new last symbol. -/
def unlinkAbove (st : Symtab) (marker : Int) : Nat → Memory Int → Int → Except Fault (Memory Int × Int)
  | 0, _, _ => .error .endless
  | fuel + 1, index, el =>
      if el > marker then
        unlinkAbove st marker fuel (Function.update index (st.stab (el + 2)) (st.stab el))
          (st.stab (el + 1))
      else .ok (index, el)

def stfree (st : Symtab) (marker : Int) : Except Fault Symtab :=
  if marker ≤ 0 ∨ marker ≥ st.stabop then .ok st
  else do
    let r ← unlinkAbove st marker (st.stabop.toNat + 1) st.index st.lastsymbol
    .ok { st with
      index := r.1
      lastsymbol := r.2
      nsymbols := st.stab (marker + 1)
      sbufop := st.stab marker
      stabop := marker }

/-- Both buffers are cut down to what is used of them. -/
def stsqueeze (st : Symtab) : Symtab :=
  let st :=
    if st.stablen > st.stabop then
      { st with stablen := st.stabop, stabinc := min maxIncrement st.stabop }
    else st
  if st.sbuflen > st.sbufop then
    { st with sbuflen := st.sbufop, sbufinc := min maxIncrement st.sbufop }
  else st

/-! ## A stack of definitions -/

/-- A name, of characters below `SZ_ASCII`. -/
structure Key where
  chars : List Int
  ne_nil : chars ≠ []
  ascii : ∀ c ∈ chars, 1 ≤ c ∧ c < 128
  deriving DecidableEq

/-- A symbol as it was entered: where its user fields are, its key, and what they hold. -/
structure Definition where
  sym : Int
  key : Key
  values : List Int

/-- A table, the symbols not freed, the most recent first, and the marks not freed, each with the
symbols below it. -/
structure Session where
  st : Symtab
  live : List Definition
  marks : List (Int × List Definition)

inductive Op
  /-- A symbol is entered and its user fields are filled in. -/
  | enter (key : Key) (values : List Int)
  | alloc (blklen : Nat)
  | pstr (str : List Int) (minchars : Int)
  | squeeze
  | mark
  /-- A mark is freed, with the marks above it. -/
  | free (above : Nat)

def Session.step (s : Session) : Op → Except Fault Session
  | .enter key values => do
      let r ← enterFilled s.st key.chars values
      .ok { s with st := r.1, live := ⟨r.2, key, values⟩ :: s.live }
  | .alloc blklen => .ok { s with st := (stalloc s.st blklen).1 }
  | .pstr str minchars => do
      let r ← stpstr s.st str minchars
      .ok { s with st := r.1 }
  | .squeeze => .ok { s with st := stsqueeze s.st }
  | .mark => do
      let r ← stmark s.st
      .ok { s with st := r.1, marks := (r.2, s.live) :: s.marks }
  | .free above =>
      match s.marks.drop above with
      | [] => .ok s
      | (marker, live) :: marks => do
          let st ← stfree s.st marker
          .ok { st := st, live := live, marks := marks }

def Session.run : Session → List Op → Except Fault Session
  | s, [] => .ok s
  | s, op :: ops => do
      let s ← s.step op
      s.run ops

def runTable (name : List Int) (lenIndex lenStab szSbuf : Nat) (ops : List Op) :
    Except Fault Session := do
  let st ← stopen name lenIndex lenStab szSbuf
  Session.run { st := st, live := [], marks := [] } ops

/-- The lookups answer from the symbols that are not freed, the most recent first, for keys of some
kind. -/
structure Answers (s : Session) (kind : Key → Prop) : Prop where
  find : ∀ key, kind key → stfind s.st key.chars =
    .ok (((s.live.find? fun d => d.key = key).map Definition.sym).getD 0)
  findall : ∀ key, kind key → ∀ maxSymbols, stfindall s.st key.chars maxSymbols =
    .ok (((s.live.filter fun d => d.key = key).map Definition.sym).take maxSymbols.toNat)
  all : symbols s.st = .ok (s.live.map Definition.sym)
  unchanged : ∀ d ∈ s.live, fetch s.st.stab d.sym d.values.length = d.values

/-- The block lies in the buffer after it has grown once. -/
def Symtab.fits (st : Symtab) (blklen : Int) : Bool :=
  decide (st.nextOffset + blklen ≤ st.stablen + max blklen st.stabinc)

/-- A symbol needs a thread, and room like a mark. -/
def Op.fits (st : Symtab) : Op → Bool
  | .enter _ values => decide (st.indexlen ≠ 0) && st.fits (lenSymstruct + values.length)
  | .mark => st.fits lenMarker
  | .alloc _ => true
  | .pstr _ _ => true
  | .squeeze => true
  | .free _ => true

/-- Every symbol and every mark of a run fits. -/
def Session.runFits : Session → List Op → Bool
  | _, [] => true
  | s, op :: ops =>
      op.fits s.st && match s.step op with
        | .ok s' => s'.runFits ops
        | .error _ => true

/-- The table has room for the first character, and everything fits. -/
def tableFits (name : List Int) (lenIndex lenStab szSbuf : Nat) (ops : List Op) : Bool :=
  decide (1 ≤ szSbuf) &&
    match stopen name lenIndex lenStab szSbuf with
    | .ok st => Session.runFits { st := st, live := [], marks := [] } ops
    | .error _ => true

end Iraf.SymbolTable
