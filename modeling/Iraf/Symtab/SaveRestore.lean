import Iraf.Symtab.Runs

/-!
# Saving and restoring a symbol table

`stsave` writes the descriptor and the buffers, and `strestore` reads them back.  A table that is
restored has the same lists, and everything that is done to it goes as on the table that was saved;
but a buffer without words is not read back.
-/

namespace Iraf.SymbolTable

open Cells Function

abbrev lenSymtab : Nat := 256
abbrev magic : Int := 0o123124
abbrev szBlock : Int := 2048
abbrev eof : Int := -2

/-! ## The file -/

/-- The words of the descriptor. -/
def Symtab.word (st : Symtab) : Nat → Int
  | 0 => magic
  | 2 => st.lastsymbol
  | 3 => st.nsymbols
  | 6 => st.indexlen
  | 11 => st.sbuflen
  | 12 => st.sbufop
  | 13 => st.sbufinc
  | 21 => st.stablen
  | 22 => st.stabop
  | 23 => st.stabinc
  | k => if 30 ≤ k then st.ascii ((k - 30 : Nat) : Int) else 0

def descriptor (st : Symtab) : List Int := (List.range lenSymtab).map st.word

/-- A buffer is written in chunks. -/
def writeBlocks (m : Memory Int) (itop : Int) : Nat → Int → List Int
  | 0, _ => []
  | fuel + 1, ip =>
      if ip < itop then
        fetch m ip (min szBlock (itop - ip)).toNat ++
          writeBlocks m itop fuel (ip + min szBlock (itop - ip))
      else []

/-- The words of the file. -/
def stsave (st : Symtab) : List Int :=
  descriptor st ++ (fetch st.index 0 st.indexlen.toNat ++
    (writeBlocks st.stab st.stablen st.stablen.toNat 0 ++
      writeBlocks st.sbuf st.sbuflen st.sbuflen.toNat 0))

inductive RestoreError
  /-- `strestore: bad magic in save file`. -/
  | badMagic
  /-- `strestore: unexpected EOF`. -/
  | unexpectedEOF
  deriving DecidableEq, Repr

/-- What a read returns: how many words it got, or `EOF` if it got none. -/
def readCount (words : List Int) : Int := if words = [] then eof else words.length

/-- The next words of a file, and what follows them. -/
def readWords (file : List Int) (nelem : Int) : Except RestoreError (List Int × List Int) :=
  if readCount (file.take nelem.toNat) < nelem then .error .unexpectedEOF
  else .ok (file.take nelem.toNat, file.drop nelem.toNat)

/-- The buffers are allocated anew, and hold anything where nothing is read. -/
def strestore (freshStab freshSbuf : Memory Int) (file : List Int) :
    Except RestoreError Symtab := do
  let words ← readWords file lenSymtab
  if words.1.getD 0 0 ≠ magic then .error .badMagic
  else do
    let index ← readWords words.2 (words.1.getD 6 0)
    let stab ← readWords index.2 (words.1.getD 21 0)
    let sbuf ← readWords stab.2 (words.1.getD 11 0)
    .ok {
      lastsymbol := words.1.getD 2 0
      nsymbols := words.1.getD 3 0
      index := put (fun _ => 0) 0 index.1
      indexlen := words.1.getD 6 0
      sbuf := put freshSbuf 0 sbuf.1
      sbuflen := words.1.getD 11 0
      sbufop := words.1.getD 12 0
      sbufinc := words.1.getD 13 0
      stab := put freshStab 0 stab.1
      stablen := words.1.getD 21 0
      stabop := words.1.getD 22 0
      stabinc := words.1.getD 23 0
      ascii := fun c => if 0 ≤ c then words.1.getD (30 + c.toNat) 0 else 0 }

/-! ## The same table -/

/-- Lookups give the same results, and the symbols have the same names and contents. -/
structure SameLookups (s s' : Session) : Prop where
  find : ∀ key : Key, stfind s'.st key.chars = stfind s.st key.chars
  findall : ∀ (key : Key) maxSymbols,
    stfindall s'.st key.chars maxSymbols = stfindall s.st key.chars maxSymbols
  all : symbols s'.st = symbols s.st
  names : ∀ d ∈ s.live, stname s'.st d.sym = stname s.st d.sym ∧
    fetch s'.st.sbuf (stname s.st d.sym) (d.key.chars.length + 1) =
      fetch s.st.sbuf (stname s.st d.sym) (d.key.chars.length + 1)
  contents : ∀ d ∈ s.live,
    fetch s'.st.stab d.sym d.values.length = fetch s.st.stab d.sym d.values.length

/-- Two runs fail alike, or reach tables with the same symbols. -/
def SameRun : Except Fault Session → Except Fault Session → Prop
  | .ok s, .ok s' => s'.live = s.live ∧ s'.marks = s.marks ∧ SameLookups s s'
  | .error fault, .error fault' => fault' = fault
  | _, _ => False

/-- Whatever is done to the table that is restored goes as on the table that was saved. -/
def Restores (s : Session) : Prop :=
  ∀ freshStab freshSbuf, ∃ st', strestore freshStab freshSbuf (stsave s.st) = .ok st' ∧
    ∀ ops, SameRun (s.run ops) (Session.run { s with st := st' } ops)

variable {st st' : Symtab} {s s' : Session} {name : List Int} {lenIndex lenStab szSbuf : Nat}
  {ops : List Op} {freshStab freshSbuf : Memory Int}

/-! ## Reading back what was written -/

theorem writeBlocks_eq (m : Memory Int) {itop ip : Int} {fuel : Nat}
    (hfuel : (itop - ip).toNat ≤ fuel) :
    writeBlocks m itop fuel ip = fetch m ip (itop - ip).toNat := by
  induction fuel generalizing ip with
  | zero =>
      rw [Nat.le_zero.mp hfuel]
      rfl
  | succ fuel ih =>
      rw [writeBlocks]
      simp only [szBlock]
      split
      · have hsum : (itop - ip).toNat = (min 2048 (itop - ip)).toNat +
            (itop - (ip + min 2048 (itop - ip))).toNat := by omega
        have hend : ip + ((min 2048 (itop - ip)).toNat : Int) =
            ip + min 2048 (itop - ip) := by omega
        rw [ih (by omega), hsum, fetch_add, hend]
      · rw [show (itop - ip).toNat = 0 by omega, fetch_zero]

theorem readWords_append {words rest : List Int} {nelem : Int} (hlen : (words.length : Int) = nelem)
    (hpos : 0 < nelem) : readWords (words ++ rest) nelem = .ok (words, rest) := by
  have hn : nelem.toNat = words.length := by omega
  have hne : words ≠ [] := by
    rintro rfl
    rw [List.length_nil] at hlen
    omega
  rw [readWords, hn, List.take_left, List.drop_left, readCount, if_neg hne, if_neg (by omega)]

theorem readWords_zero (file : List Int) : readWords file 0 = .error .unexpectedEOF := rfl

theorem descriptor_getD {k : Nat} (hk : k < lenSymtab) :
    (descriptor st).getD k 0 = st.word k := by
  rw [descriptor, List.getD_eq_getElem?_getD, List.getElem?_map, List.getElem?_range hk]
  rfl

theorem readWords_descriptor (st : Symtab) (rest : List Int) :
    readWords (descriptor st ++ rest) lenSymtab = .ok (descriptor st, rest) := by
  refine readWords_append ?_ (by decide)
  rw [descriptor, List.length_map, List.length_range]

theorem length_fetch_toNat (m : Memory Int) (n : Int) (hn : 0 ≤ n) :
    ((fetch m 0 n.toNat).length : Int) = n := by
  rw [length_fetch]
  omega

theorem stsave_eq (st : Symtab) : stsave st = descriptor st ++ (fetch st.index 0 st.indexlen.toNat ++
    (fetch st.stab 0 st.stablen.toNat ++ fetch st.sbuf 0 st.sbuflen.toNat)) := by
  rw [stsave, writeBlocks_eq _ (by omega), writeBlocks_eq _ (by omega), Int.sub_zero, Int.sub_zero]

/-- The table as it is read back. -/
def Symtab.restored (st : Symtab) (freshStab freshSbuf : Memory Int) : Symtab :=
  { st with
    index := put (fun _ => 0) 0 (fetch st.index 0 st.indexlen.toNat)
    stab := put freshStab 0 (fetch st.stab 0 st.stablen.toNat)
    sbuf := put freshSbuf 0 (fetch st.sbuf 0 st.sbuflen.toNat)
    ascii := fun c => if 0 ≤ c then (descriptor st).getD (30 + c.toNat) 0 else 0 }

theorem strestore_stsave (hindex : 0 < st.indexlen) (hstab : 0 < st.stablen)
    (hsbuf : 0 < st.sbuflen) :
    strestore freshStab freshSbuf (stsave st) = .ok (st.restored freshStab freshSbuf) := by
  have h0 : (descriptor st).getD 0 0 = magic := descriptor_getD (by decide)
  have h6 : (descriptor st).getD 6 0 = st.indexlen := descriptor_getD (by decide)
  have h21 : (descriptor st).getD 21 0 = st.stablen := descriptor_getD (by decide)
  have h11 : (descriptor st).getD 11 0 = st.sbuflen := descriptor_getD (by decide)
  have hindexWords := @readWords_append (fetch st.index 0 st.indexlen.toNat)
    (fetch st.stab 0 st.stablen.toNat ++ fetch st.sbuf 0 st.sbuflen.toNat) _
    (length_fetch_toNat _ _ hindex.le) hindex
  have hstabWords := @readWords_append (fetch st.stab 0 st.stablen.toNat)
    (fetch st.sbuf 0 st.sbuflen.toNat) _ (length_fetch_toNat _ _ hstab.le) hstab
  have hsbufWords := @readWords_append (fetch st.sbuf 0 st.sbuflen.toNat) [] _
    (length_fetch_toNat _ _ hsbuf.le) hsbuf
  rw [List.append_nil] at hsbufWords
  rw [strestore, stsave_eq, readWords_descriptor]
  simp only [bind, Except.bind, h0, h6, h11, h21, ne_eq, not_true_eq_false, if_false,
    hindexWords, hstabWords, hsbufWords]
  rfl

theorem strestore_empty (hindex : 0 ≤ st.indexlen) (hempty : st.indexlen = 0 ∨ st.stablen = 0) :
    strestore freshStab freshSbuf (stsave st) = .error .unexpectedEOF := by
  have h0 : (descriptor st).getD 0 0 = magic := descriptor_getD (by decide)
  have h6 : (descriptor st).getD 6 0 = st.indexlen := descriptor_getD (by decide)
  have h21 : (descriptor st).getD 21 0 = st.stablen := descriptor_getD (by decide)
  rw [strestore, stsave_eq, readWords_descriptor]
  simp only [bind, Except.bind, h0, h6, h21, ne_eq, not_true_eq_false, if_false]
  rcases hindex.lt_or_eq with hpos | hzero
  · have hindexWords := @readWords_append (fetch st.index 0 st.indexlen.toNat)
      (fetch st.stab 0 st.stablen.toNat ++ fetch st.sbuf 0 st.sbuflen.toNat) _
      (length_fetch_toNat _ _ hindex) hpos
    have hstab : st.stablen = 0 := hempty.resolve_left hpos.ne'
    rw [hindexWords]
    simp only [hstab, readWords_zero]
  · simp only [← hzero, readWords_zero]

/-! ## Tables that are alike -/

/-- The sizes and the tops of the buffers. -/
def Symtab.sizes (st : Symtab) : Int × Int × Int × Int × Int × Int × Int :=
  (st.indexlen, st.stablen, st.stabop, st.stabinc, st.sbuflen, st.sbufop, st.sbufinc)

/-- Two tables with the same symbols and the same marks. -/
structure Alike (s s' : Session) : Prop where
  inv : Inv s
  inv' : Inv s'
  live : s'.live = s.live
  marks : s'.marks = s.marks
  sizes : s'.st.sizes = s.st.sizes
  markers : ∀ m ∈ s.marks, s'.st.stab m.1 = s.st.stab m.1
  names : ∀ d ∈ s.live, s'.st.stab (d.offset + 3) = s.st.stab (d.offset + 3)

theorem fetch_stringAt {sbuf : Memory Int} {cp : Int} {chars : List Int}
    (h : StringAt sbuf cp chars) : fetch sbuf cp (chars.length + 1) = chars ++ [0] := by
  induction chars generalizing cp with
  | nil => exact (fetch_one).trans (congrArg (fun c => [c]) h)
  | cons c chars ih =>
      have hone : fetch sbuf cp (1 + (chars.length + 1)) =
          fetch sbuf cp 1 ++ fetch sbuf (cp + 1) (chars.length + 1) := fetch_add
      rw [List.length_cons, Nat.add_comm, hone, fetch_one, ih h.2, h.1]
      rfl

theorem Alike.lookups (h : Alike s s') : SameLookups s s' := by
  constructor
  · intro key
    rw [h.inv'.stfind_eq, h.inv.stfind_eq, h.live]
  · intro key maxSymbols
    rw [h.inv'.stfindall_eq, h.inv.stfindall_eq, h.live]
  · rw [h.inv'.symbols_eq, h.inv.symbols_eq, h.live]
  · intro d hd
    have hname := h.names d hd
    have hkey := (h.inv.placed d hd).key
    have hkey' := (h.inv'.placed d (h.live ▸ hd)).key
    rw [hname] at hkey'
    exact ⟨hname, (fetch_stringAt hkey').trans (fetch_stringAt hkey).symm⟩
  · intro d hd
    rw [(h.inv.placed d hd).values, (h.inv'.placed d (h.live ▸ hd)).values]

theorem MarksHold.marker_bounds {top stop : Int} {live : List Definition}
    {marks : List (Int × List Definition)} (h : MarksHold st top stop live marks)
    {m : Int × List Definition} (hm : m ∈ marks) : 0 < m.1 ∧ m.1 + lenMarker ≤ top := by
  induction marks generalizing top stop live with
  | nil => cases hm
  | cons mark marks ih =>
      obtain ⟨marker, rest⟩ := mark
      obtain ⟨-, hpos, htop, -, -, -, -, hrest⟩ := h
      rcases List.mem_cons.mp hm with rfl | hm
      · exact ⟨hpos, htop⟩
      · have hbounds := ih hrest hm
        simp only [lenMarker] at htop hbounds ⊢
        omega

theorem Alike.kept (h : Alike s s') (hkept : Kept s.st st s.st.used s.st.sbufop)
    (hkept' : Kept s'.st st' s'.st.used s'.st.sbufop) :
    (∀ m ∈ s.marks, st'.stab m.1 = st.stab m.1) ∧
      ∀ d ∈ s.live, st'.stab (d.offset + 3) = st.stab (d.offset + 3) := by
  constructor
  · intro m hm
    have hbounds := h.inv.marks.marker_bounds hm
    have hbounds' := h.inv'.marks.marker_bounds (h.marks ▸ hm)
    simp only [lenMarker] at hbounds hbounds'
    rw [hkept.stab _ (by omega) (by omega), hkept'.stab _ (by omega) (by omega), h.markers m hm]
  · intro d hd
    have hbounds := h.inv.offset_bounds (List.mem_map_of_mem hd)
    have hbounds' := h.inv'.offset_bounds (List.mem_map_of_mem (h.live ▸ hd))
    rw [hkept.stab _ (by omega) (by omega), hkept'.stab _ (by omega) (by omega), h.names d hd]

theorem Alike.drop (h : Alike s s') (k : Nat) :
    Alike ⟨s.st, s.live, s.marks.drop k⟩ ⟨s'.st, s'.live, s'.marks.drop k⟩ :=
  ⟨h.inv.drop k, h.inv'.drop k, h.live, congrArg (List.drop k) h.marks, h.sizes,
    fun m hm => h.markers m (List.mem_of_mem_drop hm), h.names⟩

/-! ## Sizes -/

theorem sizes_eq (h : st'.sizes = st.sizes) : st'.indexlen = st.indexlen ∧
    st'.stablen = st.stablen ∧ st'.stabop = st.stabop ∧ st'.stabinc = st.stabinc ∧
    st'.sbuflen = st.sbuflen ∧ st'.sbufop = st.sbufop ∧ st'.sbufinc = st.sbufinc := by
  simpa only [Symtab.sizes, Prod.mk.injEq] using h

theorem nextOffset_of_sizes (h : st'.sizes = st.sizes) : st'.nextOffset = st.nextOffset := by
  rw [Symtab.nextOffset, Symtab.nextOffset, (sizes_eq h).2.2.1]

theorem fits_of_sizes (h : st'.sizes = st.sizes) (n : Int) : st'.fits n = st.fits n := by
  obtain ⟨-, hlen, -, hinc, -⟩ := sizes_eq h
  rw [Symtab.fits, Symtab.fits, nextOffset_of_sizes h, hlen, hinc]

theorem sizes_stalloc (h : st'.sizes = st.sizes) (n : Int) :
    (stalloc st' n).1.sizes = (stalloc st n).1.sizes := by
  have hnext := nextOffset_of_sizes h
  obtain ⟨hindex, hlen, hop, hinc, hslen, hsop, hsinc⟩ := sizes_eq h
  simp only [stalloc, Symtab.growStab, hnext, hlen]
  split <;> simp only [Symtab.sizes, hindex, hlen, hinc, hslen, hsop, hsinc]

theorem sizes_withString (h : st'.sizes = st.sizes) (str : List Int) (minchars : Int) :
    (st'.withString str minchars).sizes = (st.withString str minchars).sizes := by
  obtain ⟨hindex, hlen, hop, hinc, hslen, hsop, hsinc⟩ := sizes_eq h
  simp only [Symtab.withString, Symtab.growSbuf, hslen, hsop]
  split <;> simp only [Symtab.sizes, hindex, hlen, hop, hinc, hslen, hsinc]

theorem sizes_stsqueeze (h : st'.sizes = st.sizes) : (stsqueeze st').sizes = (stsqueeze st).sizes := by
  obtain ⟨hindex, hlen, hop, hinc, hslen, hsop, hsinc⟩ := sizes_eq h
  simp only [stsqueeze, hlen, hop]
  split <;> simp only [hslen, hsop] <;> split <;>
    simp only [Symtab.sizes, hindex, hlen, hop, hinc, hslen, hsop, hsinc]

theorem sizes_entered (h : st'.sizes = st.sizes) (key : Key) (values : List Int) :
    (st'.entered key values).sizes = (st.entered key values).sizes :=
  sizes_withString (sizes_stalloc h _) key.chars 0

/-! ## Runs -/

/-- Two calls fail alike, or lead to tables that are alike. -/
def SameStep : Except Fault Session → Except Fault Session → Prop
  | .ok s, .ok s' => Alike s s'
  | .error fault, .error fault' => fault' = fault
  | _, _ => False

theorem Alike.store (h : Alike s s') (hkept : Kept s.st st s.st.used s.st.sbufop)
    (hkept' : Kept s'.st st' s'.st.used s'.st.sbufop) (hsizes : st'.sizes = st.sizes)
    (hinv : Inv { s with st := st }) (hinv' : Inv { s' with st := st' }) :
    Alike { s with st := st } { s' with st := st' } := by
  obtain ⟨hmarkers, hnames⟩ := h.kept hkept hkept'
  exact ⟨hinv, hinv', h.live, h.marks, hsizes, hmarkers, hnames⟩

theorem Alike.enter (h : Alike s s') (key : Key) (values : List Int) :
    SameStep (s.step (.enter key values)) (s'.step (.enter key values)) := by
  have hindex := (sizes_eq h.sizes).1
  by_cases hzero : s.st.indexlen = 0
  · rw [Session.step, Session.step, enterFilled_divide hzero, enterFilled_divide (hindex ▸ hzero)]
    rfl
  have hfits := fits_of_sizes h.sizes (lenSymstruct + values.length)
  have hoffset := nextOffset_of_sizes h.sizes
  rw [step_enter h.inv hzero, step_enter h.inv' (hindex ▸ hzero), hfits]
  cases hroom : s.st.fits (lenSymstruct + values.length) with
  | true =>
      rw [hroom] at hfits
      obtain ⟨hmarkers, hnames⟩ := h.kept (kept_entered s.st key values)
        (kept_entered s'.st key values)
      rw [if_pos rfl, if_pos rfl]
      refine ⟨h.inv.enter hzero key hroom, h.inv'.enter (hindex ▸ hzero) key hfits, ?_, h.marks,
        sizes_entered h.sizes key values, hmarkers, List.forall_mem_cons.mpr ⟨?_, hnames⟩⟩
      · rw [hoffset, h.live]
      · have hcell := (entered_cells s.st key values).2.2.2.1
        have hcell' := (entered_cells s'.st key values).2.2.2.1
        rw [hoffset] at hcell'
        simp only [Definition.offset, Int.add_sub_cancel]
        rw [hcell, hcell', (sizes_eq h.sizes).2.2.2.2.2.1]
  | false =>
      rw [if_neg Bool.false_ne_true, if_neg Bool.false_ne_true]
      rfl

theorem Alike.mark (h : Alike s s') : SameStep (s.step .mark) (s'.step .mark) := by
  have hfits := fits_of_sizes h.sizes lenMarker
  have hoffset := nextOffset_of_sizes h.sizes
  simp only [Session.step]
  rw [stmark_eq h.inv.stabop, stmark_eq h.inv'.stabop, hfits]
  cases hroom : s.st.fits lenMarker with
  | true =>
      rw [hroom] at hfits
      obtain ⟨hmarkers, hnames⟩ := h.kept (kept_marked s.st) (kept_marked s'.st)
      rw [if_pos rfl, if_pos rfl]
      refine ⟨h.inv.mark hroom, h.inv'.mark hfits, h.live, ?_, sizes_stalloc h.sizes lenMarker,
        List.forall_mem_cons.mpr ⟨?_, hmarkers⟩, hnames⟩
      · change (s'.st.nextOffset, s'.live) :: s'.marks = (s.st.nextOffset, s.live) :: s.marks
        rw [hoffset, h.live, h.marks]
      · have hcell' := (marked_stab s'.st).1
        rw [hoffset] at hcell'
        exact (hcell'.trans (sizes_eq h.sizes).2.2.2.2.2.1).trans (marked_stab s.st).1.symm
  | false =>
      rw [if_neg Bool.false_ne_true, if_neg Bool.false_ne_true]
      rfl

theorem Alike.free (h : Alike s s') (above : Nat) :
    SameStep (s.step (.free above)) (s'.step (.free above)) := by
  have hdrop := h.drop above
  simp only [Session.step]
  rw [h.marks]
  cases hmarks : s.marks.drop above with
  | nil => exact h
  | cons mark marks =>
      obtain ⟨marker, rest⟩ := mark
      obtain ⟨index, last, hfree, hinv⟩ := hdrop.inv.free hmarks
      obtain ⟨index', last', hfree', hinv'⟩ := hdrop.inv'.free (h.marks ▸ hmarks)
      have hmarker : s'.st.stab marker = s.st.stab marker := by
        refine hdrop.markers (marker, rest) ?_
        rw [hmarks]
        exact List.mem_cons_self
      have hrest : ∀ d ∈ rest, d ∈ s.live := by
        have hhold := hdrop.inv.marks
        rw [hmarks] at hhold
        obtain ⟨⟨newer, hlive, -⟩, -⟩ := hhold
        exact fun d hd => hlive ▸ List.mem_append_right _ hd
      obtain ⟨hindex, hlen, -, hinc, hslen, -, hsinc⟩ := sizes_eq h.sizes
      simp only [hfree, hfree']
      refine ⟨hinv, hinv', rfl, rfl, ?_, fun m hm => ?_, fun d hd => h.names d (hrest d hd)⟩
      · simp only [Symtab.sizes, Symtab.freed, hindex, hlen, hinc, hslen, hsinc, hmarker]
      · refine hdrop.markers m ?_
        rw [hmarks]
        exact List.mem_cons_of_mem _ hm

theorem Alike.step (h : Alike s s') (op : Op) : SameStep (s.step op) (s'.step op) := by
  cases op with
  | enter key values => exact h.enter key values
  | alloc blklen =>
      exact h.store (kept_stalloc _ _ _ _) (kept_stalloc _ _ _ _) (sizes_stalloc h.sizes blklen)
        (h.inv.alloc blklen) (h.inv'.alloc blklen)
  | pstr str minchars =>
      rw [Session.step, Session.step, stpstr_eq h.inv.sbufop h.inv.sbufRoom,
        stpstr_eq h.inv'.sbufop h.inv'.sbufRoom]
      exact h.store (kept_withString _ _ _ _) (kept_withString _ _ _ _)
        (sizes_withString h.sizes str minchars) (h.inv.pstr str minchars)
        (h.inv'.pstr str minchars)
  | squeeze =>
      exact h.store (kept_stsqueeze _ _ _) (kept_stsqueeze _ _ _) (sizes_stsqueeze h.sizes)
        h.inv.squeeze h.inv'.squeeze
  | mark => exact h.mark
  | free above => exact h.free above

theorem Alike.run (h : Alike s s') : SameRun (s.run ops) (s'.run ops) := by
  induction ops generalizing s s' with
  | nil => exact ⟨h.live, h.marks, h.lookups⟩
  | cons op ops ih =>
      have hsame := h.step op
      rw [Session.run_cons, Session.run_cons]
      cases hstep : s.step op with
      | ok t =>
          cases hstep' : s'.step op with
          | ok t' =>
              rw [hstep, hstep'] at hsame
              exact ih hsame
          | error fault' =>
              rw [hstep, hstep'] at hsame
              exact hsame.elim
      | error fault =>
          cases hstep' : s'.step op with
          | ok t' =>
              rw [hstep, hstep'] at hsame
              exact hsame.elim
          | error fault' =>
              rw [hstep, hstep'] at hsame
              exact hsame

/-! ## The table that is restored -/

theorem put_fetch (m m' : Memory Int) {n a : Int} (h0 : 0 ≤ a) (h : a < n) :
    put m' 0 (fetch m 0 n.toNat) a = m a := by
  have hj : a.toNat < (fetch m 0 n.toNat).length := by
    rw [length_fetch]
    omega
  have hget : (fetch m 0 n.toNat)[a.toNat]? = some (m (0 + a.toNat)) := by
    rw [getElem?_fetch, if_pos (by rw [length_fetch] at hj; exact hj)]
  rw [put_of_mem a.toNat hj (by omega)]
  rw [List.getElem?_eq_getElem hj] at hget
  rw [Option.some.inj hget]
  congr 1
  omega

theorem foldl_hash_nonneg {chars : List Int} {sum : Int} (hsum : 0 ≤ sum)
    (hchars : ∀ c ∈ chars, 1 ≤ c ∧ c < 128) :
    0 ≤ chars.foldl (fun sum c => sum + (sum + c)) sum := by
  induction chars generalizing sum with
  | nil => exact hsum
  | cons c chars ih =>
      have hc := hchars c List.mem_cons_self
      have hnext : 0 ≤ sum + (sum + c) := by omega
      exact ih hnext fun c' hc' => hchars c' (List.mem_cons_of_mem c hc')

theorem thread_bounds (hindex : 0 < st.indexlen) (key : Key) :
    0 ≤ st.thread key.chars ∧ st.thread key.chars < st.indexlen := by
  have hsum : 0 ≤ hashSum key.chars :=
    foldl_hash_nonneg le_rfl fun c hc => key.ascii c (List.mem_of_mem_take hc)
  exact ⟨Int.tmod_nonneg _ hsum, Int.tmod_lt_of_pos _ hindex⟩

theorem Inv.index_outside (h : Inv s) (hindex : 0 < s.st.indexlen) {t : Int}
    (ht : ¬ (0 ≤ t ∧ t < s.st.indexlen)) : s.st.index t = 0 := by
  have hnone : ((offsets s.live).filter fun el => s.st.stab (el + 2) = t) = [] := by
    refine List.filter_eq_nil_iff.mpr fun a ha => ?_
    obtain ⟨d, hd, rfl⟩ := List.mem_map.mp ha
    rw [(h.placed d hd).thread, decide_eq_true_eq]
    exact fun heq => ht (heq ▸ thread_bounds hindex d.key)
  have hvisits := h.threads t
  rw [hnone] at hvisits
  exact link_eq_none hvisits

theorem word_ascii (st : Symtab) (n : Nat) : st.word (30 + n) = st.ascii n := by
  unfold Symtab.word
  split
  case h_11 => rw [if_pos (Nat.le_add_right 30 n), Nat.add_sub_cancel_left]
  all_goals omega

theorem restored_ascii (st : Symtab) (c : Int) : (st.restored freshStab freshSbuf).ascii c =
    if 0 ≤ c ∧ c < 226 then st.ascii c else 0 := by
  simp only [Symtab.restored]
  by_cases h0 : 0 ≤ c
  · rw [if_pos h0]
    by_cases hc : c < 226
    · rw [if_pos ⟨h0, hc⟩, descriptor_getD (by simp only [lenSymtab]; omega), word_ascii,
        Int.toNat_of_nonneg h0]
    · have hlen : (descriptor st).length = 256 := by
        rw [descriptor, List.length_map, List.length_range]
      rw [if_neg fun hboth => hc hboth.2, List.getD_eq_getElem?_getD,
        List.getElem?_eq_none (by omega)]
      rfl
  · rw [if_neg h0, if_neg fun hboth => h0 hboth.1]

theorem Inv.restored (h : Inv s) (hindex : 0 < s.st.indexlen) (freshStab freshSbuf : Memory Int) :
    Alike s { s with st := s.st.restored freshStab freshSbuf } := by
  have hused := s.st.used_le
  have hroom := h.sbufRoom
  have hkept : Kept s.st (s.st.restored freshStab freshSbuf) s.st.used s.st.sbufop := by
    refine ⟨fun a h0 ha => put_fetch _ _ h0 (by omega), fun a h0 ha => put_fetch _ _ h0 (by omega),
      rfl, fun c h0 hc hflag => ?_⟩
    rw [restored_ascii, if_pos (by omega)]
    exact hflag
  have hheads : (s.st.restored freshStab freshSbuf).index = s.st.index := by
    have hput : (s.st.restored freshStab freshSbuf).index =
        put (fun _ => 0) 0 (fetch s.st.index 0 s.st.indexlen.toNat) := rfl
    funext t
    rw [hput]
    by_cases ht : 0 ≤ t ∧ t < s.st.indexlen
    · exact put_fetch _ _ ht.1 ht.2
    · rw [h.index_outside hindex ht]
      refine put_of_not_mem ?_
      rw [length_fetch]
      omega
  have hinv : Inv { s with st := s.st.restored freshStab freshSbuf } := by
    refine h.kept hkept hheads rfl rfl (fun c hc => ?_) h.stabop le_rfl le_rfl h.sbufRoom
    rw [restored_ascii, hc, ite_self]
  refine ⟨h, hinv, rfl, rfl, rfl, fun m hm => ?_, fun d hd => ?_⟩
  · have hbounds := h.marks.marker_bounds hm
    simp only [lenMarker] at hbounds
    exact hkept.stab _ (by omega) (by omega)
  · have hbounds := h.offset_bounds (List.mem_map_of_mem hd)
    exact hkept.stab _ (by omega) (by omega)

/-- Saving and restoring keeps a table exactly if it has threads and words for symbols. -/
theorem restores_iff (hrun : runTable name lenIndex lenStab szSbuf ops = .ok s) :
    Restores s ↔ s.st.indexlen ≠ 0 ∧ s.st.stablen ≠ 0 := by
  have hinv := runTable_inv hrun
  have hindex := hinv.threadsPos
  have hstab := hinv.stabRoom
  constructor
  · intro hrestores
    rw [← not_or]
    intro hempty
    obtain ⟨st', hok, -⟩ := hrestores (fun _ => 0) (fun _ => 0)
    rw [strestore_empty hindex hempty] at hok
    cases hok
  · intro hnonempty freshStab freshSbuf
    have hsbuf : 0 < s.st.sbuflen := Int.lt_of_lt_of_le hinv.sbufop hinv.sbufRoom
    refine ⟨_, strestore_stsave (by omega) (by omega) hsbuf, fun ops => ?_⟩
    exact (hinv.restored (by omega) freshStab freshSbuf).run

/-- A redefinition and a mark are saved and restored. -/
theorem restores_redefined : ∃ s, runTable [] 2 32 16
    [.enter keyA [1], .mark, .enter keyB [2], .enter keyA [3], .pstr [99] 4] = .ok s ∧
      (Restores s ↔ s.st.indexlen ≠ 0 ∧ s.st.stablen ≠ 0) := by
  obtain ⟨s, hrun⟩ := @runTable_ok [] 2 32 16
    [.enter keyA [1], .mark, .enter keyB [2], .enter keyA [3], .pstr [99] 4] (by decide)
  exact ⟨s, hrun, restores_iff hrun⟩

/-- A table opened without room for symbols is saved, and is not restored. -/
theorem not_restores_empty : ¬ ∀ s, runTable [] 1 0 1 [] = .ok s → Restores s := by
  intro h
  cases hrun : runTable [] 1 0 1 [] with
  | ok s =>
      have hempty : (runTable [] 1 0 1 []).map (fun s => (s.st.indexlen, s.st.stablen)) =
          .ok (1, 0) := rfl
      rw [hrun] at hempty
      obtain ⟨hindex, hstab⟩ := Prod.mk.inj (Except.ok.inj hempty)
      obtain ⟨st', hok, -⟩ := h s hrun (fun _ => 0) (fun _ => 0)
      rw [strestore_empty (by omega) (Or.inr hstab)] at hok
      cases hok
  | error fault =>
      have hok : (runTable [] 1 0 1 []).toBool = true := rfl
      rw [hrun] at hok
      cases hok

end Iraf.SymbolTable
