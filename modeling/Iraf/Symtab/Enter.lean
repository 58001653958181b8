import Iraf.Symtab.Layout

/-!
# The calls on a symbol table

Each call keeps the invariant.  A call that stores in the symbol table succeeds exactly if the
block that it allocates fits.

A new symbol goes in front of its thread and of the global list; freeing back to a mark unlinks the
symbols above it one by one.
-/

namespace Iraf.SymbolTable

open Cells Function

section Calls

variable {st st' : Symtab} {sess s' : Session} {live : List Definition}
  {marks : List (Int × List Definition)} {a el n : Int} {l : List Int} {key : Key} {d : Definition}

/-! ## Allocation -/

theorem nextOffset_bounds (st : Symtab) :
    st.stabop ≤ st.nextOffset ∧ st.nextOffset ≤ st.stabop + 1 := by
  unfold Symtab.nextOffset
  omega

theorem used_le_nextOffset (st : Symtab) : st.used ≤ st.nextOffset :=
  st.used_le.1.trans (nextOffset_bounds st).1

theorem stalloc_fields (st : Symtab) (n : Int) :
    (stalloc st n).1.index = st.index ∧ (stalloc st n).1.lastsymbol = st.lastsymbol ∧
      (stalloc st n).1.nsymbols = st.nsymbols ∧ (stalloc st n).1.indexlen = st.indexlen ∧
      (stalloc st n).1.ascii = st.ascii ∧ (stalloc st n).1.sbuf = st.sbuf ∧
      (stalloc st n).1.sbufop = st.sbufop ∧ (stalloc st n).1.sbuflen = st.sbuflen ∧
      (stalloc st n).1.stab = st.stab := by
  unfold stalloc Symtab.growStab
  split <;> exact ⟨rfl, rfl, rfl, rfl, rfl, rfl, rfl, rfl, rfl⟩

theorem stalloc_room_iff (hn : 0 ≤ n) :
    st.nextOffset + n ≤ (stalloc st n).1.stablen ↔ st.fits n = true := by
  rw [Symtab.fits, decide_eq_true_eq]
  simp only [stalloc, Symtab.growStab]
  split
  · exact Iff.rfl
  · omega

theorem stalloc_stablen (hn : 0 ≤ n) : st.stablen ≤ (stalloc st n).1.stablen := by
  simp only [stalloc, Symtab.growStab]
  split
  · simp only
    omega
  · exact le_rfl

theorem stalloc_stabop (hn : 0 ≤ n) :
    st.nextOffset + n ≤ (stalloc st n).1.stabop ∧ st.stabop ≤ (stalloc st n).1.stabop := by
  have hnext := nextOffset_bounds st
  simp only [stalloc]
  omega

theorem stalloc_used (hn : 0 ≤ n) : st.used ≤ (stalloc st n).1.used := by
  have hlen := @stalloc_stablen st n hn
  have hop := @stalloc_stabop st n hn
  simp only [Symtab.used]
  omega

theorem kept_stalloc (st : Symtab) (n top stop : Int) : Kept st (stalloc st n).1 top stop := by
  obtain ⟨-, -, -, hlen, hascii, hsbuf, -, -, hstab⟩ := stalloc_fields st n
  exact ⟨fun a _ _ => congrFun hstab a, fun a _ _ => congrFun hsbuf a, hlen,
    fun c _ _ hc => by rwa [hascii]⟩

theorem Inv.alloc (h : Inv sess) (blklen : Nat) :
    Inv { sess with st := (stalloc sess.st blklen).1 } := by
  obtain ⟨hindex, hlast, hcount, -, hascii, -, hop, hroom, -⟩ := stalloc_fields sess.st blklen
  have hstabop := (@stalloc_stabop sess.st blklen (by omega)).2
  refine h.kept (kept_stalloc _ _ _ _) hindex hlast hcount (fun c hc => by rwa [hascii]) (h.stabop.trans hstabop)
    (stalloc_used (by omega)) hop.ge ?_
  rw [hop, hroom]
  exact h.sbufRoom

theorem stsqueeze_fields (st : Symtab) : (stsqueeze st).index = st.index ∧
    (stsqueeze st).lastsymbol = st.lastsymbol ∧ (stsqueeze st).nsymbols = st.nsymbols ∧
    (stsqueeze st).ascii = st.ascii ∧ (stsqueeze st).stabop = st.stabop ∧
    (stsqueeze st).sbufop = st.sbufop := by
  unfold stsqueeze
  split <;> simp only <;> split <;> exact ⟨rfl, rfl, rfl, rfl, rfl, rfl⟩

theorem kept_stsqueeze (st : Symtab) (top stop : Int) : Kept st (stsqueeze st) top stop := by
  unfold stsqueeze
  split <;> simp only <;> split <;>
    exact ⟨fun _ _ _ => rfl, fun _ _ _ => rfl, rfl, fun _ _ _ hc => hc⟩

theorem Inv.squeeze (h : Inv sess) : Inv { sess with st := stsqueeze sess.st } := by
  have hlens : sess.st.used ≤ (stsqueeze sess.st).used ∧
      sess.st.sbufop ≤ (stsqueeze sess.st).sbuflen := by
    have hroom := h.sbufRoom
    unfold stsqueeze Symtab.used
    split <;> simp only <;> split <;> (try simp only) <;> omega
  obtain ⟨hindex, hlast, hcount, hascii, hstabop, hsbufop⟩ := stsqueeze_fields sess.st
  exact h.kept (kept_stsqueeze _ _ _) hindex hlast hcount (fun c hc => by rwa [hascii]) (hstabop.symm ▸ h.stabop) hlens.1 hsbufop.ge
    (hsbufop.symm ▸ hlens.2)

/-! ## Strings -/

theorem growSbuf_fields (st : Symtab) (n : Int) : (st.growSbuf n).sbuf = st.sbuf ∧
    (st.growSbuf n).stab = st.stab := by
  unfold Symtab.growSbuf
  split <;> exact ⟨rfl, rfl⟩

theorem growSbuf_room (h : st.sbufop ≤ st.sbuflen) :
    st.sbufop + n ≤ (st.growSbuf n).sbuflen := by
  unfold Symtab.growSbuf
  split
  · simp only
    omega
  · omega

theorem storeSbuf_ok {chars : List Int} (h0 : 0 ≤ a) (h : a + chars.length ≤ st.sbuflen) :
    storeSbuf st a chars = .ok { st with sbuf := put st.sbuf a chars } := if_pos ⟨h0, h⟩

/-- The table with a string on top of the string buffer. -/
def Symtab.withString (st : Symtab) (str : List Int) (minchars : Int) : Symtab :=
  { st.growSbuf (max (str.length : Int) minchars + 1) with
    sbuf := put st.sbuf st.sbufop (str ++ [0])
    sbufop := st.sbufop + (max (str.length : Int) minchars + 1) }

theorem withString_fields (st : Symtab) (str : List Int) (minchars : Int) :
    (st.withString str minchars).stab = st.stab ∧ (st.withString str minchars).index = st.index ∧
      (st.withString str minchars).lastsymbol = st.lastsymbol ∧
      (st.withString str minchars).nsymbols = st.nsymbols ∧
      (st.withString str minchars).indexlen = st.indexlen ∧
      (st.withString str minchars).ascii = st.ascii ∧
      (st.withString str minchars).stabop = st.stabop ∧
      (st.withString str minchars).stablen = st.stablen := by
  unfold Symtab.withString Symtab.growSbuf
  split <;> exact ⟨rfl, rfl, rfl, rfl, rfl, rfl, rfl, rfl⟩

theorem withString_sbufop (h : st.sbufop ≤ st.sbuflen) (str : List Int) (minchars : Int) :
    st.sbufop + str.length + 1 ≤ (st.withString str minchars).sbufop ∧
      (st.withString str minchars).sbufop ≤ (st.withString str minchars).sbuflen := by
  refine ⟨?_, growSbuf_room h⟩
  simp only [Symtab.withString]
  omega

theorem stpstr_eq (h1 : 1 ≤ st.sbufop) (h : st.sbufop ≤ st.sbuflen) (str : List Int)
    (minchars : Int) : stpstr st str minchars = .ok (st.withString str minchars, st.sbufop) := by
  have hroom := @growSbuf_room st (max (str.length : Int) minchars + 1) h
  have hlen : ((str ++ [0]).length : Int) = str.length + 1 := by
    rw [List.length_append, List.length_singleton]
    push_cast
    rfl
  have hend : st.sbufop + (str ++ [0]).length ≤
      (st.growSbuf (max (str.length : Int) minchars + 1)).sbuflen := by
    rw [hlen]
    omega
  have hstore := @storeSbuf_ok
    { st.growSbuf (max (str.length : Int) minchars + 1) with
      sbufop := st.sbufop + (max (str.length : Int) minchars + 1) } st.sbufop (str ++ [0])
    (by omega) hend
  refine (congrArg (· >>= fun st' => Except.ok (st', st.sbufop)) hstore).trans ?_
  simp only [Symtab.withString, (growSbuf_fields st _).1]
  rfl

theorem kept_withString (st : Symtab) (str : List Int) (minchars top : Int) :
    Kept st (st.withString str minchars) top st.sbufop := by
  obtain ⟨hstab, -, -, -, hlen, hascii, -⟩ := withString_fields st str minchars
  exact ⟨fun a _ _ => congrFun hstab a, fun a _ ha => put_of_not_mem (.inl ha), hlen,
    fun c _ _ hc => by rwa [hascii]⟩

theorem Inv.pstr (h : Inv sess) (str : List Int) (minchars : Int) :
    Inv { sess with st := sess.st.withString str minchars } := by
  obtain ⟨-, hindex, hlast, hcount, -, hascii, hop, hstablen⟩ :=
    withString_fields sess.st str minchars
  obtain ⟨hlow, hroom⟩ := withString_sbufop h.sbufRoom str minchars
  have hused : (sess.st.withString str minchars).used = sess.st.used := by
    rw [Symtab.used, hop, hstablen, Symtab.used]
  exact h.kept (kept_withString _ _ _ _) hindex hlast hcount (fun c hc => by rwa [hascii])
    (hop.symm ▸ h.stabop) hused.ge (by omega) hroom

/-! ## Stores in the symbol table -/

theorem storeStab_ok {values : List Int} (h0 : 0 ≤ a) (h : a + values.length ≤ st.stablen) :
    storeStab st a values = .ok { st with stab := put st.stab a values } :=
  if_pos (Or.inr ⟨h0, h⟩)

theorem storeStab_error {values : List Int} (hne : values ≠ [])
    (h : st.stablen < a + values.length) : storeStab st a values = .error .outOfBounds := by
  refine if_neg (not_or.mpr ⟨hne, ?_⟩)
  omega

theorem storeStab_append {first second : List Int} (hstab : st'.stab = put st.stab a first)
    (h0 : 0 ≤ a) (hroom : a + first.length + second.length ≤ st'.stablen) :
    storeStab st' (a + first.length) second =
      .ok { st' with stab := put st.stab a (first ++ second) } := by
  rw [storeStab_ok (by omega) hroom, hstab, put_append]

/-! ## Marks -/

/-- The table with a mark on top. -/
def Symtab.marked (st : Symtab) : Symtab :=
  { (stalloc st lenMarker).1 with stab := put st.stab st.nextOffset [st.sbufop, st.nsymbols] }

theorem stmark_eq (h1 : 1 ≤ st.stabop) : stmark st =
    if st.fits lenMarker then .ok (st.marked, st.nextOffset) else .error .outOfBounds := by
  have hnext := nextOffset_bounds st
  have hroom := @stalloc_room_iff st lenMarker (by decide)
  have hstab := (stalloc_fields st lenMarker).2.2.2.2.2.2.2.2
  have hlen : (([st.sbufop, st.nsymbols] : List Int).length : Int) = 2 := rfl
  simp only [lenMarker] at hroom hstab
  unfold stmark
  by_cases hfits : st.fits lenMarker = true
  · have hstore := @storeStab_ok (stalloc st lenMarker).1 st.nextOffset [st.sbufop, st.nsymbols]
      (by omega) (by rw [hlen]; exact hroom.mpr hfits)
    rw [if_pos hfits, Symtab.marked, ← hstab]
    exact congrArg (· >>= fun st' => Except.ok (st', st.nextOffset)) hstore
  · have hstore := @storeStab_error (stalloc st lenMarker).1 st.nextOffset
      [st.sbufop, st.nsymbols] (by exact List.cons_ne_nil _ _)
      (by rw [hlen]; exact not_le.mp (mt hroom.mp hfits))
    rw [if_neg hfits]
    exact congrArg (· >>= fun st' => Except.ok (st', st.nextOffset)) hstore

theorem marked_stab (st : Symtab) : st.marked.stab st.nextOffset = st.sbufop ∧
    st.marked.stab (st.nextOffset + 1) = st.nsymbols :=
  ⟨put_of_mem 0 (by exact Nat.zero_lt_two) (by omega),
    put_of_mem 1 (by exact Nat.one_lt_two) (by omega)⟩

theorem kept_marked (st : Symtab) : Kept st st.marked st.used st.sbufop := by
  have hkept := kept_stalloc st lenMarker st.used st.sbufop
  have hnext := used_le_nextOffset st
  exact ⟨fun a _ ha => put_of_not_mem (.inl (by omega)), hkept.sbuf, hkept.indexlen, hkept.ascii⟩

theorem Inv.mark (h : Inv sess) (hfits : sess.st.fits lenMarker = true) :
    Inv { sess with
      st := sess.st.marked
      marks := (sess.st.nextOffset, sess.live) :: sess.marks } := by
  have hnext := nextOffset_bounds sess.st
  have hused := used_le_nextOffset sess.st
  have hstabop := h.stabop
  have hroom := (@stalloc_room_iff sess.st lenMarker (by decide)).mpr hfits
  have htop := (@stalloc_stabop sess.st lenMarker (by decide))
  obtain ⟨hindex, hlast, hcount, -, hascii, -, hop, hsbuflen, -⟩ := stalloc_fields sess.st lenMarker
  obtain ⟨hmarker, hmarkerCount⟩ := marked_stab sess.st
  have hkept := kept_marked sess.st
  have hinv : Inv { sess with st := sess.st.marked } := by
    refine h.kept hkept hindex hlast hcount (fun c hc => by rwa [← hascii] at hc) (h.stabop.trans htop.2)
      (stalloc_used (by decide)) hop.ge ?_
    change (stalloc sess.st lenMarker).1.sbufop ≤ (stalloc sess.st lenMarker).1.sbuflen
    rw [hop, hsbuflen]
    exact h.sbufRoom
  refine ⟨hinv.1, hinv.2, hinv.3, hinv.4, hinv.5, hinv.6, hinv.7, hinv.8, hinv.9, hinv.10, hinv.11, ?_⟩
  refine ⟨⟨[], rfl, nofun⟩, by omega, ?_, ?_, ?_, ?_, ?_, ?_⟩
  · exact le_min htop.1 hroom
  · rw [hmarker]
    exact h.sbufop
  · rw [hmarker]
    exact hop.ge
  · rw [hmarkerCount]
    exact h.nsymbols
  · rw [hmarker]
    exact fun d hd => ((h.placed d hd).kept hkept).mono hused le_rfl
  · rw [hmarker]
    exact (h.marks.kept hkept).mono hused le_rfl

end Calls

/-! ## Entering symbols and freeing them -/

variable {st st' : Symtab} {sess s' : Session} {live newer rest : List Definition}
  {marks : List (Int × List Definition)} {a el marker : Int} {l : List Int} {key : Key}
  {values : List Int} {d : Definition}

/-! ## Entering -/

/-- The fields of a new symbol. -/
def Symtab.fields (st : Symtab) (key : Key) : List Int :=
  [st.index (st.thread key.chars), st.lastsymbol, st.thread key.chars, st.sbufop]

/-- The table with a symbol on top, before its user fields are filled in. -/
def Symtab.added (st : Symtab) (key : Key) (uSymlen : Int) : Symtab :=
  { ((stalloc st (lenSymstruct + uSymlen)).1.withString key.chars 0).link key.chars
      st.nextOffset with
    stab := put st.stab st.nextOffset (st.fields key) }

theorem added_fields (st : Symtab) (key : Key) (n : Int) :
    (st.added key n).stablen = (stalloc st (lenSymstruct + n)).1.stablen ∧
      (st.added key n).stabop = (stalloc st (lenSymstruct + n)).1.stabop ∧
      (st.added key n).indexlen = st.indexlen := by
  obtain ⟨-, -, -, -, hlen, -, hop, hstablen⟩ :=
    withString_fields (stalloc st (lenSymstruct + n)).1 key.chars 0
  exact ⟨hstablen, hop, hlen.trans (stalloc_fields st (lenSymstruct + n)).2.2.2.1⟩

theorem withString_stab (m : Memory Int) (str : List Int) (minchars : Int) :
    { st with stab := m }.withString str minchars =
      { st.withString str minchars with stab := m } := by
  unfold Symtab.withString Symtab.growSbuf
  split <;> rfl

/-- The key is stored exactly if there is room for the last field of the symbol. -/
theorem storeKey_eq (h1 : 1 ≤ st.sbufop) (hroom : st.sbufop ≤ st.sbuflen) (h0 : 0 ≤ a)
    (m : Memory Int) (first : List Int) (hlen : first.length = 3) (key : Key) :
    storeKey { st with stab := put m a first } key.chars a =
      if a + lenSymstruct ≤ st.stablen then
        .ok ({ (st.withString key.chars 0).link key.chars a with
          stab := put m a (first ++ [st.sbufop]) }, a + lenSymstruct)
      else .error .outOfBounds := by
  have hstr := @stpstr_eq { st with stab := put m a first } h1 hroom key.chars 0
  rw [withString_stab] at hstr
  have hstablen := (withString_fields st key.chars 0).2.2.2.2.2.2.2
  refine (congrArg (· >>= fun r => storeStab r.1 (a + 3) [r.2] >>= fun st =>
    Except.ok (st.link key.chars a, a + lenSymstruct)) hstr).trans ?_
  change (storeStab { st.withString key.chars 0 with stab := put m a first } (a + 3)
    [st.sbufop] >>= fun st => Except.ok (st.link key.chars a, a + lenSymstruct)) = _
  simp only [lenSymstruct]
  have hplace : a + 3 = a + (first.length : Nat) := by
    rw [hlen]
    rfl
  by_cases hfour : a + 4 ≤ st.stablen
  · have hkey := @storeStab_append { st with stab := m }
      { st.withString key.chars 0 with stab := put m a first } a first [st.sbufop] rfl h0
      (by simp only [hstablen, hlen, List.length_singleton]; omega)
    rw [if_pos hfour, hplace, hkey]
    rfl
  · have hkey := @storeStab_error { st.withString key.chars 0 with stab := put m a first } (a + 3)
      [st.sbufop] (List.cons_ne_nil _ _)
      (by simp only [hstablen, List.length_singleton]; omega)
    rw [if_neg hfour, hkey]
    rfl

/-- `stenter` succeeds exactly if there is room for the fields of the symbol. -/
theorem stenter_eq (h1 : 1 ≤ st.stabop) (hsbuf : 1 ≤ st.sbufop) (hroom : st.sbufop ≤ st.sbuflen)
    (hindex : st.indexlen ≠ 0) (key : Key) (n : Int) : stenter st key.chars n =
      if st.nextOffset + lenSymstruct ≤ (stalloc st (lenSymstruct + n)).1.stablen then
        .ok (st.added key n, st.nextOffset + lenSymstruct)
      else .error .outOfBounds := by
  have hnext := nextOffset_bounds st
  obtain ⟨-, -, -, -, -, -, hop, hsbuflen, hstab⟩ := stalloc_fields st (lenSymstruct + n)
  have hkey := @storeKey_eq (stalloc st (lenSymstruct + n)).1 st.nextOffset (hop.symm ▸ hsbuf)
    (by rw [hop, hsbuflen]; exact hroom) (by omega) st.stab
    [st.index (st.thread key.chars), st.lastsymbol, st.thread key.chars] rfl key
  rw [stenter, if_neg key.ne_nil, if_neg hindex]
  by_cases hthree : st.nextOffset + 3 ≤ (stalloc st (lenSymstruct + n)).1.stablen
  · rw [storeStab_ok (by omega) hthree, hstab]
    refine Eq.trans hkey ?_
    rw [hop]
    rfl
  · rw [storeStab_error (List.cons_ne_nil _ _) (not_le.mp hthree), if_neg (by
      simp only [lenSymstruct] at hthree ⊢
      omega)]
    rfl

/-- The table with a symbol on top. -/
def Symtab.entered (st : Symtab) (key : Key) (values : List Int) : Symtab :=
  { st.added key values.length with stab := put st.stab st.nextOffset (st.fields key ++ values) }

theorem enterFilled_divide (hindex : st.indexlen = 0) (key : Key) (values : List Int) :
    enterFilled st key.chars values = .error .divide := by
  rw [enterFilled, stenter, if_neg key.ne_nil, if_pos hindex]
  rfl

theorem enterFilled_eq (h1 : 1 ≤ st.stabop) (hsbuf : 1 ≤ st.sbufop)
    (hroom : st.sbufop ≤ st.sbuflen) (hindex : st.indexlen ≠ 0) (key : Key) (values : List Int) :
    enterFilled st key.chars values =
      if st.fits (lenSymstruct + values.length) then
        .ok (st.entered key values, st.nextOffset + lenSymstruct)
      else .error .outOfBounds := by
  have hnext := nextOffset_bounds st
  have hblock := @stalloc_room_iff st (lenSymstruct + values.length) (by
    simp only [lenSymstruct]; omega)
  have hlen := (added_fields st key values.length).1
  have henter := stenter_eq h1 hsbuf hroom hindex key values.length
  unfold enterFilled
  by_cases hfour : st.nextOffset + lenSymstruct ≤
      (stalloc st (lenSymstruct + values.length)).1.stablen
  · rw [if_pos hfour] at henter
    rw [henter]
    change (storeStab (st.added key values.length) (st.nextOffset + 4) values >>=
      fun st' => Except.ok (st', st.nextOffset + lenSymstruct)) = _
    by_cases hfits : st.fits (lenSymstruct + values.length) = true
    · have hend := hblock.mpr hfits
      have hstore := @storeStab_append st (st.added key values.length)
        st.nextOffset (st.fields key) values rfl (by omega) (by
          rw [hlen]
          exact (Int.add_assoc _ _ _).le.trans hend)
      rw [if_pos hfits]
      exact congrArg (· >>= fun st' => Except.ok (st', st.nextOffset + lenSymstruct)) hstore
    · have hend := not_le.mp (mt hblock.mp hfits)
      have hne : values ≠ [] := by
        rintro rfl
        simp only [lenSymstruct, List.length_nil] at hend hfour
        omega
      rw [if_neg hfits, storeStab_error hne (by
        rw [hlen]
        simp only [lenSymstruct] at hend ⊢
        omega)]
      rfl
  · have hfits : ¬ st.fits (lenSymstruct + values.length) = true := by
      refine mt hblock.mpr ?_
      simp only [lenSymstruct] at hfour ⊢
      omega
    rw [if_neg hfour] at henter
    rw [henter, if_neg hfits]
    rfl

theorem step_enter (h : Inv sess) (hindex : sess.st.indexlen ≠ 0) (key : Key)
    (values : List Int) : sess.step (.enter key values) =
      if sess.st.fits (lenSymstruct + values.length) then .ok { sess with
        st := sess.st.entered key values
        live := ⟨sess.st.nextOffset + lenSymstruct, key, values⟩ :: sess.live }
      else .error .outOfBounds := by
  rw [Session.step, enterFilled_eq h.stabop h.sbufop h.sbufRoom hindex]
  split <;> rfl

theorem entered_cells (st : Symtab) (key : Key) (values : List Int) :
    (st.entered key values).stab st.nextOffset = st.index (st.thread key.chars) ∧
      (st.entered key values).stab (st.nextOffset + 1) = st.lastsymbol ∧
      (st.entered key values).stab (st.nextOffset + 2) = st.thread key.chars ∧
      (st.entered key values).stab (st.nextOffset + 3) = st.sbufop ∧
      fetch (st.entered key values).stab (st.nextOffset + lenSymstruct) values.length = values := by
  have hlen : (st.fields key ++ values).length = 4 + values.length := by
    rw [List.length_append]
    rfl
  refine ⟨?_, ?_, ?_, ?_, ?_⟩
  · exact put_of_mem 0 (by omega) (by omega)
  · exact put_of_mem 1 (by omega) (by omega)
  · exact put_of_mem 2 (by omega) (by omega)
  · exact put_of_mem 3 (by omega) (by omega)
  · refine fetch_eq_of_getElem? rfl fun j hj => ?_
    have hmem : 4 + j < (st.fields key ++ values).length := by omega
    have hcell : put st.stab st.nextOffset (st.fields key ++ values)
        (st.nextOffset + lenSymstruct + (j : Nat)) = (st.fields key ++ values)[4 + j] :=
      put_of_mem (4 + j) hmem (by push_cast; simp only [lenSymstruct]; omega)
    have hget : (st.fields key ++ values)[4 + j]? = values[j]? := by
      rw [List.getElem?_append_right (by exact Nat.le_add_right 4 j)]
      congr 1
      exact Nat.add_sub_cancel_left 4 j
    rw [← hget, List.getElem?_eq_getElem hmem]
    exact congrArg some hcell.symm

theorem entered_fields (st : Symtab) (key : Key) (values : List Int) :
    (st.entered key values).index =
        update st.index (st.thread key.chars) st.nextOffset ∧
      (st.entered key values).lastsymbol = st.nextOffset ∧
      (st.entered key values).nsymbols = st.nsymbols + 1 ∧
      (st.entered key values).ascii = update st.ascii (key.chars.headD 0) 1 ∧
      (st.entered key values).sbuf = put st.sbuf st.sbufop (key.chars ++ [0]) := by
  obtain ⟨hindex, -, hcount, hlen, hascii, hsbuf, hop, -, -⟩ :=
    stalloc_fields st (lenSymstruct + values.length)
  obtain ⟨-, hindex', -, hcount', hlen', hascii', -, -⟩ :=
    withString_fields (stalloc st (lenSymstruct + values.length)).1 key.chars 0
  have hthread : ((stalloc st (lenSymstruct + values.length)).1.withString key.chars 0).thread
      key.chars = st.thread key.chars := by rw [Symtab.thread, hlen', hlen, Symtab.thread]
  refine ⟨?_, rfl, ?_, ?_, ?_⟩
  · rw [← hthread, ← hindex, ← hindex']
    rfl
  · rw [← hcount, ← hcount']
    rfl
  · rw [← hascii, ← hascii']
    rfl
  · rw [← hsbuf, ← hop]
    rfl

theorem kept_entered (st : Symtab) (key : Key) (values : List Int) :
    Kept st (st.entered key values) st.used st.sbufop := by
  obtain ⟨-, -, -, hascii, hsbuf⟩ := entered_fields st key values
  have hused := used_le_nextOffset st
  refine ⟨fun a _ ha => put_of_not_mem (.inl (by omega)), fun a _ ha => ?_,
    (added_fields st key values.length).2.2, fun c _ _ hc => ?_⟩
  · rw [hsbuf]
    exact put_of_not_mem (.inl ha)
  · rw [hascii]
    by_cases heq : c = key.chars.headD 0
    · rw [heq, update_self]
      exact one_ne_zero
    · rwa [update_of_ne heq]

theorem entered_sbufop (h : st.sbufop ≤ st.sbuflen) (key : Key) (values : List Int) :
    st.sbufop + key.chars.length + 1 ≤ (st.entered key values).sbufop ∧
      (st.entered key values).sbufop ≤ (st.entered key values).sbuflen := by
  obtain ⟨-, -, -, -, -, -, hop, hsbuflen, -⟩ :=
    stalloc_fields st (lenSymstruct + values.length)
  have hsbufop := @withString_sbufop (stalloc st (lenSymstruct + values.length)).1
    (by rw [hop, hsbuflen]; exact h) key.chars 0
  rw [hop] at hsbufop
  exact hsbufop

theorem Inv.enter (h : Inv sess) (hthreads : sess.st.indexlen ≠ 0) (key : Key)
    {values : List Int} (hfits : sess.st.fits (lenSymstruct + values.length) = true) :
    Inv { sess with
      st := sess.st.entered key values
      live := ⟨sess.st.nextOffset + lenSymstruct, key, values⟩ :: sess.live } := by
  have hstabop := h.stabop
  have hnext := nextOffset_bounds sess.st
  have hused := used_le_nextOffset sess.st
  have hn : (0 : Int) ≤ lenSymstruct + values.length := by simp only [lenSymstruct]; omega
  obtain ⟨hcell, hglobal, hthread, hkey, hvalues⟩ := entered_cells sess.st key values
  obtain ⟨hindex, hlast, hcount, hascii, hsbuf⟩ := entered_fields sess.st key values
  obtain ⟨hlow, hroom⟩ := entered_sbufop h.sbufRoom key values
  have hkept := kept_entered sess.st key values
  obtain ⟨hstablen, hop, -⟩ := added_fields sess.st key values.length
  have hend := (@stalloc_room_iff sess.st _ hn).mpr hfits
  have htop := @stalloc_stabop sess.st _ hn
  have hgrown : sess.st.used ≤ (sess.st.entered key values).used := by
    refine (@stalloc_used sess.st _ hn).trans (le_of_eq ?_)
    rw [Symtab.used, Symtab.used, ← hstablen, ← hop]
    rfl
  have hfull : sess.st.nextOffset + (lenSymstruct + values.length) ≤
      (sess.st.entered key values).used := by
    refine le_min ?_ ?_
    · exact htop.1.trans hop.ge
    · exact hend.trans hstablen.ge
  generalize hd : (⟨sess.st.nextOffset + lenSymstruct, key, values⟩ : Definition) = d
  have hoff : d.offset = sess.st.nextOffset := by
    rw [← hd]
    exact Int.add_sub_cancel _ _
  have hplaced : Placed (sess.st.entered key values) (sess.st.entered key values).used
      (sess.st.entered key values).sbufop d := by
    constructor
    · omega
    · rw [← hd]
      exact (Int.add_assoc _ _ _).le.trans hfull
    · rw [hoff, hthread, ← hd, Symtab.thread, Symtab.thread, hkept.indexlen]
    · rw [hoff, hkey, hsbuf, ← hd]
      exact stringAt_put _ _ _
    · rw [hoff, hkey]
      exact Int.le_of_lt h.sbufop
    · rw [hoff, hkey, ← hd]
      exact hlow
    · rw [← hd]
      exact hvalues
    · rw [hascii, ← hd, update_self]
      exact one_ne_zero
  have hstop : sess.st.sbufop ≤ (sess.st.entered key values).sbufop := by omega
  have hfresh : ∀ a ∈ offsets sess.live, a < d.offset := fun a ha => by
    have := h.offset_bounds ha
    omega
  constructor
  · exact Or.inl (hkept.indexlen.symm ▸ hthreads)
  · exact hkept.indexlen.symm ▸ h.threadsPos
  · refine (le_min ?_ h.stabRoom).trans (hgrown.trans (Symtab.used_le _).2)
    exact Int.le_of_lt h.stabop
  · exact (h.stabop.trans htop.2).trans hop.ge
  · have := h.sbufop
    change 1 ≤ (sess.st.entered key values).sbufop
    omega
  · exact hroom
  · refine ⟨?_, ?_⟩
    · rw [hlast, link_of_pos (by omega), hoff]
    · change Visits _ (link ((sess.st.entered key values).stab (d.offset + 1))) (offsets sess.live)
      rw [hoff, hglobal]
      refine h.global.congr fun a ha => ?_
      have := h.offset_bounds ha
      rw [hkept.stab _ (by omega) (by omega)]
  · have hthreads : Threaded (fun el => (sess.st.entered key values).stab (el + 2))
        (fun t => link (sess.st.index t))
        (fun el => link ((sess.st.entered key values).stab el)) (offsets sess.live) := h.threads.congr
      (fun a ha => by
        have := h.offset_bounds ha
        exact hkept.stab _ (by omega) (by omega))
      (fun a ha => by
        have := h.offset_bounds ha
        exact congrArg link (hkept.stab _ (by omega) (by omega)))
    have hpush := hthreads.push (a := sess.st.nextOffset) fun hmem => by
      have := hfresh _ hmem
      omega
    simp only [hthread] at hpush
    have hheads : (fun t => link ((sess.st.entered key values).index t)) =
        update (fun t => link (sess.st.index t)) (sess.st.thread key.chars)
          (some sess.st.nextOffset) := by
      funext t
      rw [hindex]
      by_cases ht : t = sess.st.thread key.chars
      · rw [ht, update_self, update_self]
        exact link_of_pos (by omega)
      · rw [update_of_ne ht, update_of_ne ht]
    have hlinks : update (fun el => link ((sess.st.entered key values).stab el))
        sess.st.nextOffset (link (sess.st.index (sess.st.thread key.chars))) =
        fun el => link ((sess.st.entered key values).stab el) := by
      rw [← hcell]
      exact update_eq_self _ _
    rw [hlinks, ← hheads] at hpush
    change Threaded _ _ _ (d.offset :: offsets sess.live)
    rw [hoff]
    exact hpush
  · exact List.pairwise_cons.mpr ⟨hfresh, h.sorted⟩
  · refine List.forall_mem_cons.mpr ⟨hplaced, fun d' hd' => ?_⟩
    exact ((h.placed d' hd').kept hkept).mono hgrown hstop
  · change (sess.st.entered key values).nsymbols = ((d :: sess.live).length : Nat)
    rw [hcount, h.nsymbols, List.length_cons]
    push_cast
    rfl
  · exact ((h.marks.kept hkept).push (hoff ▸ hused)).mono hgrown hstop

/-! ## Freeing -/

theorem unlinkAbove_spec {index : Memory Int}
    (hglobal : Visits (fun el => link (st.stab (el + 1))) (link el) (offsets (newer ++ rest)))
    (hthreads : Threaded (fun el => st.stab (el + 2)) (fun t => link (index t))
      (fun el => link (st.stab el)) (offsets (newer ++ rest)))
    (hnewer : ∀ d ∈ newer, marker < d.offset) (hrest : ∀ d ∈ rest, d.offset ≤ marker)
    (hmarker : 0 ≤ marker) {fuel : Nat} (hfuel : newer.length < fuel) :
    ∃ index' el', unlinkAbove st marker fuel index el = .ok (index', el') ∧
      Visits (fun el => link (st.stab (el + 1))) (link el') (offsets rest) ∧
      Threaded (fun el => st.stab (el + 2)) (fun t => link (index' t))
        (fun el => link (st.stab el)) (offsets rest) := by
  induction newer generalizing index el fuel with
  | nil =>
      obtain ⟨fuel, rfl⟩ : ∃ n, fuel = n + 1 := ⟨fuel - 1, by omega⟩
      have hel : el ≤ marker := by
        have hfirst := hglobal.first_eq
        rw [List.nil_append] at hfirst
        cases rest with
        | nil =>
            rw [link_eq_none hfirst]
            exact hmarker
        | cons d rest =>
            rw [link_eq_some hfirst]
            exact hrest d List.mem_cons_self
      refine ⟨index, el, ?_, hglobal, hthreads⟩
      rw [unlinkAbove, if_neg (by omega)]
  | cons d newer ih =>
      obtain ⟨fuel, rfl⟩ : ∃ n, fuel = n + 1 := ⟨fuel - 1, by omega⟩
      have hel : el = d.offset := link_eq_some hglobal.1
      subst hel
      have hpop := hthreads.pop
      have hheads : (fun t => link (update index (st.stab (d.offset + 2)) (st.stab d.offset) t)) =
          update (fun t => link (index t)) (st.stab (d.offset + 2)) (link (st.stab d.offset)) := by
        funext t
        by_cases ht : t = st.stab (d.offset + 2)
        · rw [ht, update_self, update_self]
        · rw [update_of_ne ht, update_of_ne ht]
      rw [unlinkAbove, if_pos (hnewer d List.mem_cons_self)]
      refine ih hglobal.2 ?_ (fun d' hd' => hnewer d' (List.mem_cons_of_mem _ hd'))
        (Nat.lt_of_succ_lt_succ hfuel)
      rw [hheads]
      exact hpop

theorem length_lt_of_falls {bound : Int} (hsorted : l.Pairwise (· > ·)) (hbound : 0 < bound)
    (hl : ∀ a ∈ l, 0 < a ∧ a < bound) : (l.length : Int) < bound := by
  induction l generalizing bound with
  | nil => exact hbound
  | cons a l ih =>
      obtain ⟨hfalls, hsorted⟩ := List.pairwise_cons.mp hsorted
      obtain ⟨hpos, hlt⟩ := hl a List.mem_cons_self
      have := ih hsorted hpos fun b hb => ⟨(hl b (List.mem_cons_of_mem _ hb)).1, hfalls b hb⟩
      rw [List.length_cons]
      push_cast
      omega

theorem Inv.length_lt (h : Inv sess) : sess.live.length < sess.st.stabop.toNat + 1 := by
  have hstabop := h.stabop
  have hused := sess.st.used_le.1
  have hlt := length_lt_of_falls h.sorted (by omega : 0 < sess.st.stabop) fun a ha => by
    have := h.offset_bounds ha
    omega
  rw [offsets, List.length_map] at hlt
  omega

/-- The table with the tops that a mark remembers. -/
def Symtab.freed (st : Symtab) (marker : Int) (index : Memory Int) (last : Int) : Symtab :=
  { st with
    index := index
    lastsymbol := last
    nsymbols := st.stab (marker + 1)
    sbufop := st.stab marker
    stabop := marker }

theorem Inv.free (h : Inv sess) (hmarks : sess.marks = (marker, rest) :: marks) :
    ∃ index last, stfree sess.st marker = .ok (sess.st.freed marker index last) ∧
      Inv ⟨sess.st.freed marker index last, rest, marks⟩ := by
  have hhold := h.marks
  rw [hmarks] at hhold
  obtain ⟨⟨newer, hlive, hnewer⟩, hpos, htop, hone, hstop, hcount, hplaced, hrest⟩ := hhold
  simp only [lenMarker] at htop
  have hused := sess.st.used_le
  have hglobal := h.global
  have hthreads := h.threads
  have hlength := h.length_lt
  have hsorted := h.sorted
  rw [hlive] at hglobal hthreads hlength hsorted
  rw [List.length_append] at hlength
  obtain ⟨index', el', hunlink, hglobal', hthreads'⟩ := unlinkAbove_spec hglobal hthreads hnewer
    (fun d hd => ((hplaced d hd).offset_lt).le) hpos.le
    (show newer.length < sess.st.stabop.toNat + 1 by omega)
  refine ⟨index', el', ?_, ?_⟩
  · rw [stfree, if_neg (by omega), hunlink]
    rfl
  · have hused' : min marker sess.st.stablen = marker := by omega
    have hkept : Kept sess.st (sess.st.freed marker index' el') marker (sess.st.stab marker) :=
      ⟨fun _ _ _ => rfl, fun _ _ _ => rfl, rfl, fun _ _ _ hc => hc⟩
    constructor
    · refine h.indexlen.imp id fun hnone => ⟨?_, hnone.2⟩
      exact (List.append_eq_nil_iff.mp (hlive ▸ hnone.1)).2
    · exact h.threadsPos
    · exact h.stabRoom
    · exact hpos
    · exact hone
    · exact hstop.trans h.sbufRoom
    · exact hglobal'
    · exact hthreads'
    · rw [offsets, List.map_append] at hsorted
      exact (List.pairwise_append.mp hsorted).2.1
    · intro d hd
      rw [Symtab.used, Symtab.freed, hused']
      exact (hplaced d hd).kept hkept
    · exact hcount
    · rw [Symtab.used, Symtab.freed, hused']
      exact hrest.kept hkept

end Iraf.SymbolTable
