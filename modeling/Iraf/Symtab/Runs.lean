import Iraf.Symtab.Enter

/-!
# Looking symbols up

A search of the thread of a key finds what a search of all symbols finds.

A table that is reached by any sequence of calls is a stack of definitions.  What can go wrong is
that a block does not fit in the buffer, and that a key is too long to be compared to its end.
-/

namespace Iraf.SymbolTable

open Cells Function

section Searches

variable {st : Symtab} {sess : Session} {live : List Definition} {el : Int} {l : List Int}
  {key : Key} {d : Definition}

/-! ## The loops -/

theorem stfindLoop_eq {chars : List Int} (h : Visits (fun el => link (st.stab el)) (link el) l)
    (hpos : ∀ a ∈ l, 0 < a) {fuel : Nat} (hfuel : l.length < fuel) :
    stfindLoop st chars fuel el =
      .ok (((l.find? (st.hasKey chars)).map (· + lenSymstruct)).getD 0) := by
  induction l generalizing el fuel with
  | nil =>
      obtain ⟨fuel, rfl⟩ : ∃ n, fuel = n + 1 := ⟨fuel - 1, by omega⟩
      rw [stfindLoop, if_pos (link_eq_none h).le]
      rfl
  | cons a l ih =>
      obtain ⟨fuel, rfl⟩ : ∃ n, fuel = n + 1 := ⟨fuel - 1, by omega⟩
      obtain rfl : el = a := link_eq_some h.1
      have hel := hpos el List.mem_cons_self
      rw [stfindLoop, if_neg (by omega), List.find?_cons]
      cases hkey : st.hasKey chars el with
      | true => rfl
      | false =>
          rw [if_neg Bool.false_ne_true]
          exact ih h.2 (fun a ha => hpos a (List.mem_cons_of_mem _ ha))
            (Nat.lt_of_succ_lt_succ hfuel)

theorem stfindallLoop_eq {chars : List Int} {maxSymbols : Int}
    (h : Visits (fun el => link (st.stab el)) (link el) l) (hpos : ∀ a ∈ l, 0 < a) {fuel : Nat}
    (hfuel : l.length < fuel) {found : List Int} (hfound : found.length < maxSymbols) :
    stfindallLoop st chars maxSymbols fuel el found =
      .ok ((found ++ (l.filter (st.hasKey chars)).map (· + lenSymstruct)).take
        maxSymbols.toNat) := by
  induction l generalizing el fuel found with
  | nil =>
      obtain ⟨fuel, rfl⟩ : ∃ n, fuel = n + 1 := ⟨fuel - 1, by omega⟩
      rw [stfindallLoop, if_pos (link_eq_none h).le, List.filter_nil, List.map_nil,
        List.append_nil, List.take_of_length_le (by omega)]
  | cons a l ih =>
      obtain ⟨fuel, rfl⟩ : ∃ n, fuel = n + 1 := ⟨fuel - 1, by omega⟩
      obtain rfl : el = a := link_eq_some h.1
      have hel := hpos el List.mem_cons_self
      have ih := fun found hfound => @ih (st.stab el) h.2
        (fun a ha => hpos a (List.mem_cons_of_mem _ ha)) fuel (Nat.lt_of_succ_lt_succ hfuel)
        found hfound
      rw [stfindallLoop, if_neg (by omega)]
      cases hkey : st.hasKey chars el with
      | true =>
          have hlen : (found ++ [el + lenSymstruct]).length = found.length + 1 := by
            rw [List.length_append]
            rfl
          rw [if_pos rfl, List.filter_cons_of_pos hkey, List.map_cons,
            List.append_cons found (el + lenSymstruct) (List.map _ _)]
          by_cases hfull : ((found ++ [el + lenSymstruct]).length : Int) ≥ maxSymbols
          · rw [if_pos hfull, List.take_append_of_le_length (by omega),
              List.take_of_length_le (by omega)]
          · rw [if_neg hfull]
            exact ih _ (by omega)
      | false =>
          rw [if_neg Bool.false_ne_true, List.filter_cons_of_neg (by rw [hkey]; exact Bool.false_ne_true)]
          exact ih found hfound

theorem symbolsFrom_eq (h : Visits (fun el => link (st.stab (el + 1))) (link el) l)
    (hpos : ∀ a ∈ l, 0 < a) {fuel : Nat} (hfuel : l.length < fuel) :
    symbolsFrom st fuel (if el = 0 then 0 else el + lenSymstruct) =
      .ok (l.map (· + lenSymstruct)) := by
  induction l generalizing el fuel with
  | nil =>
      obtain ⟨fuel, rfl⟩ : ∃ n, fuel = n + 1 := ⟨fuel - 1, by omega⟩
      rw [if_pos (link_eq_none h), symbolsFrom, if_pos rfl]
      rfl
  | cons a l ih =>
      obtain ⟨fuel, rfl⟩ : ∃ n, fuel = n + 1 := ⟨fuel - 1, by omega⟩
      obtain rfl : el = a := link_eq_some h.1
      have hel := hpos el List.mem_cons_self
      have hnext : stnext st (el + lenSymstruct) =
          if st.stab (el + 1) = 0 then 0 else st.stab (el + 1) + lenSymstruct := by
        rw [stnext, if_neg (by simp only [lenSymstruct]; omega), Int.add_sub_cancel]
      have ih := ih h.2 (fun a ha => hpos a (List.mem_cons_of_mem _ ha))
        (Nat.lt_of_succ_lt_succ hfuel)
      rw [if_neg hel.ne', symbolsFrom, if_neg (by simp only [lenSymstruct]; omega), hnext, ih]
      rfl

/-! ## Answers -/

/-- A live symbol has the key, and the key is short enough to be compared to its end. -/
def Definition.hasShort (key : Key) (d : Definition) : Bool :=
  decide (d.key = key) && decide (key.chars.length < maxSzkey)

theorem Key.ext_iff {k k' : Key} : k.chars = k'.chars ↔ k = k' := by
  constructor
  · intro h
    cases k
    cases k'
    cases h
    rfl
  · exact congrArg Key.chars

theorem Placed.hasKey_eq {top stop : Int} (h : Placed st top stop d) (key : Key) :
    st.hasKey key.chars d.offset = d.hasShort key := by
  have hsame := @sameKey_iff _ d.key.chars key.chars _ maxSzkey h.key d.key.noEos key.noEos
  rw [Bool.eq_iff_iff, Symtab.hasKey, Definition.hasShort, Bool.and_eq_true, Bool.and_eq_true,
    decide_eq_true_eq, decide_eq_true_eq, decide_eq_true_eq, hsame, ← Key.ext_iff]
  constructor
  · exact fun h => ⟨h.2.1.symm, h.2.2⟩
  · rintro ⟨heq, hlt⟩
    refine ⟨?_, heq.symm, hlt⟩
    have hkey := h.key
    rw [heq] at hkey
    cases hchars : key.chars with
    | nil => exact absurd hchars key.ne_nil
    | cons c rest =>
        rw [hchars] at hkey
        exact hkey.1

namespace Inv

variable (h : Inv sess)

include h

theorem offsets_pos : ∀ a ∈ offsets sess.live, 0 < a := fun _ ha => (h.offset_bounds ha).1

theorem none_of_ascii (hascii : sess.st.ascii (key.chars.headD 0) = 0) :
    ∀ d ∈ sess.live, d.hasShort key = false := by
  intro d hd
  refine Bool.eq_false_iff.mpr fun hkey => ?_
  have heq := of_decide_eq_true (Bool.and_eq_true_iff.mp hkey).1
  exact (h.placed d hd).flag (heq ▸ hascii)

theorem thread_visits (key : Key) : Visits (fun el => link (sess.st.stab el))
    (link (sess.st.index (sess.st.thread key.chars)))
    ((offsets sess.live).filter fun el => sess.st.stab (el + 2) = sess.st.thread key.chars) :=
  h.threads (sess.st.thread key.chars)

theorem thread_of_hasKey : ∀ a ∈ offsets sess.live, sess.st.hasKey key.chars a = true →
    sess.st.stab (a + 2) = sess.st.thread key.chars := by
  intro a ha hkey
  obtain ⟨d, hd, rfl⟩ := List.mem_map.mp ha
  have hplaced := h.placed d hd
  rw [hplaced.hasKey_eq] at hkey
  rw [hplaced.thread, of_decide_eq_true (Bool.and_eq_true_iff.mp hkey).1]

theorem filter_length_lt (p : Int → Bool) :
    ((offsets sess.live).filter p).length < sess.st.stabop.toNat + 1 := by
  refine (List.length_filter_le _ _).trans_lt ?_
  rw [offsets, List.length_map]
  exact h.length_lt

theorem indexlen_ne (hascii : sess.st.ascii (key.chars.headD 0) ≠ 0) : sess.st.indexlen ≠ 0 :=
  h.indexlen.resolve_right fun hnone => hascii (hnone.2 _)

theorem stfind_eq (key : Key) : stfind sess.st key.chars =
    .ok (((sess.live.find? (Definition.hasShort key)).map Definition.sym).getD 0) := by
  unfold stfind
  by_cases hascii : sess.st.ascii (key.chars.headD 0) = 0
  · rw [if_pos hascii, List.find?_eq_none.mpr fun d hd => by
      rw [h.none_of_ascii hascii d hd]
      exact Bool.false_ne_true]
    rfl
  · rw [if_neg hascii, if_neg (h.indexlen_ne hascii),
      stfindLoop_eq (h.thread_visits key)
        (fun a ha => h.offsets_pos a (List.mem_of_mem_filter ha)) (h.filter_length_lt _),
      find?_filter_thread h.thread_of_hasKey, offsets, List.find?_map]
    have hcongr : sess.live.find? (sess.st.hasKey key.chars ∘ Definition.offset) =
        sess.live.find? (Definition.hasShort key) := by
      rw [← List.head?_filter, ← List.head?_filter]
      exact congrArg List.head? (List.filter_congr fun d hd => (h.placed d hd).hasKey_eq key)
    rw [hcongr, Option.map_map]
    cases hfound : sess.live.find? (Definition.hasShort key) with
    | none => rfl
    | some d =>
        simp only [Option.map_some, Function.comp_apply, Definition.offset, Int.sub_add_cancel]

theorem stfindall_eq (key : Key) (maxSymbols : Int) : stfindall sess.st key.chars maxSymbols =
    .ok (((sess.live.filter (Definition.hasShort key)).map Definition.sym).take
      maxSymbols.toNat) := by
  unfold stfindall
  by_cases hascii : sess.st.ascii (key.chars.headD 0) = 0
  · rw [if_pos hascii, List.filter_eq_nil_iff.mpr fun d hd => by
      rw [h.none_of_ascii hascii d hd]
      exact Bool.false_ne_true]
    simp
  · rw [if_neg hascii, if_neg (h.indexlen_ne hascii)]
    by_cases hmax : maxSymbols > 0
    · rw [if_pos hmax, stfindallLoop_eq (h.thread_visits key)
          (fun a ha => h.offsets_pos a (List.mem_of_mem_filter ha)) (h.filter_length_lt _)
          (by simpa using hmax),
        filter_filter_thread h.thread_of_hasKey, offsets, List.filter_map, List.nil_append]
      have hcongr : sess.live.filter (sess.st.hasKey key.chars ∘ Definition.offset) =
          sess.live.filter (Definition.hasShort key) :=
        List.filter_congr fun d hd => (h.placed d hd).hasKey_eq key
      rw [hcongr, List.map_map]
      congr 2
      refine List.map_congr_left fun d _ => ?_
      simp only [Function.comp_apply, Definition.offset, Int.sub_add_cancel]
    · rw [if_neg hmax, Int.toNat_of_nonpos (by omega), List.take_zero]

theorem symbols_eq : symbols sess.st = .ok (sess.live.map Definition.sym) := by
  have hfrom := symbolsFrom_eq h.global h.offsets_pos (by
    rw [offsets, List.length_map]
    exact h.length_lt)
  rw [symbols, sthead, hfrom, offsets, List.map_map]
  congr 1
  refine List.map_congr_left fun d _ => ?_
  simp only [Function.comp_apply, Definition.offset, Int.sub_add_cancel]

theorem answers : Answers sess fun key => key.chars.length < maxSzkey := by
  have hshort : ∀ key : Key, key.chars.length < maxSzkey →
      Definition.hasShort key = fun d => decide (d.key = key) := by
    intro key hlt
    funext d
    rw [Definition.hasShort, decide_eq_true hlt, Bool.and_true]
  refine ⟨fun key hkey => ?_, fun key hkey maxSymbols => ?_, h.symbols_eq, ?_⟩
  · rw [h.stfind_eq, hshort key hkey]
  · rw [h.stfindall_eq, hshort key hkey]
  · exact fun d hd => (h.placed d hd).values

end Inv

end Searches

/-! ## Runs on a symbol table -/

variable {st : Symtab} {sess s' : Session} {name : List Int} {lenIndex lenStab szSbuf : Nat}
  {ops : List Op} {key : Key}

/-! ## Opening a table -/

theorem inv_emptyTable (hbuf : 1 ≤ szSbuf) (sbuf : Memory Int) :
    Inv ⟨{ emptyTable lenIndex lenStab szSbuf with sbuf := sbuf }, [], []⟩ := by
  constructor
  · exact Or.inr ⟨rfl, fun _ => rfl⟩
  · exact Int.natCast_nonneg lenIndex
  · exact Int.natCast_nonneg lenStab
  · exact Int.le_refl 1
  · exact Int.le_refl 1
  · exact Int.ofNat_le.mpr hbuf
  · rfl
  · exact fun _ => rfl
  · exact List.Pairwise.nil
  · exact nofun
  · rfl
  · trivial

theorem stopen_inv (hbuf : 1 ≤ szSbuf) (name : List Int) (lenIndex lenStab : Nat) :
    ∃ st, stopen name lenIndex lenStab szSbuf = .ok st ∧ Inv ⟨st, [], []⟩ := by
  have hstore := @storeSbuf_ok (emptyTable lenIndex lenStab szSbuf) 0 [0] le_rfl
    (Int.ofNat_le.mpr hbuf)
  have hinv := @inv_emptyTable lenIndex lenStab szSbuf hbuf
    (put (emptyTable lenIndex lenStab szSbuf).sbuf 0 [0])
  refine ⟨_, ?_, hinv.pstr name 0⟩
  rw [stopen, hstore]
  exact congrArg (· >>= fun r => Except.ok r.1) (stpstr_eq hinv.sbufop hinv.sbufRoom name 0)

theorem stopen_ok (h : stopen name lenIndex lenStab szSbuf = .ok st) : Inv ⟨st, [], []⟩ := by
  by_cases hbuf : 1 ≤ szSbuf
  · obtain ⟨st', hopen, hinv⟩ := stopen_inv hbuf name lenIndex lenStab
    rw [h] at hopen
    exact Except.ok.inj hopen ▸ hinv
  · have hstore : storeSbuf (emptyTable lenIndex lenStab szSbuf) 0 [0] = .error .outOfBounds :=
      if_neg fun hroom => hbuf (Int.ofNat_le.mp hroom.2)
    rw [stopen, hstore] at h
    cases h

/-! ## One call -/

theorem Inv.step (h : Inv sess) {op : Op} (hfits : op.fits sess.st = true) :
    ∃ s', sess.step op = .ok s' ∧ Inv s' := by
  cases op with
  | enter key values =>
      rw [Op.fits, Bool.and_eq_true, decide_eq_true_eq] at hfits
      refine ⟨_, ?_, h.enter hfits.1 key hfits.2⟩
      rw [step_enter h hfits.1, if_pos hfits.2]
  | alloc blklen => exact ⟨_, rfl, h.alloc blklen⟩
  | pstr str minchars =>
      refine ⟨_, ?_, h.pstr str minchars⟩
      rw [Session.step, stpstr_eq h.sbufop h.sbufRoom]
      rfl
  | squeeze => exact ⟨_, rfl, h.squeeze⟩
  | mark =>
      refine ⟨_, ?_, h.mark hfits⟩
      simp only [Session.step]
      rw [stmark_eq h.stabop, if_pos (show sess.st.fits lenMarker = true from hfits)]
      rfl
  | free above =>
      cases hmarks : sess.marks.drop above with
      | nil =>
          refine ⟨sess, ?_, h⟩
          simp only [Session.step, hmarks]
      | cons mark marks =>
          obtain ⟨index, last, hfree, hinv⟩ := (h.drop above).free hmarks
          refine ⟨_, ?_, hinv⟩
          simp only [Session.step, hmarks, hfree]
          rfl

theorem Inv.step_error (h : Inv sess) {op : Op} (hfits : op.fits sess.st = false) :
    ∃ fault, sess.step op = .error fault := by
  cases op with
  | enter key values =>
      by_cases hindex : sess.st.indexlen = 0
      · refine ⟨.divide, ?_⟩
        rw [Session.step, enterFilled_divide hindex]
        rfl
      · rw [Op.fits, decide_eq_true hindex, Bool.true_and] at hfits
        refine ⟨.outOfBounds, ?_⟩
        rw [step_enter h hindex, hfits, if_neg Bool.false_ne_true]
  | mark =>
      refine ⟨.outOfBounds, ?_⟩
      simp only [Session.step]
      rw [stmark_eq h.stabop, show sess.st.fits lenMarker = false from hfits,
        if_neg Bool.false_ne_true]
      rfl
  | alloc blklen | pstr str minchars | squeeze | free above =>
      exact absurd hfits.symm Bool.false_ne_true

theorem Inv.step_ok (h : Inv sess) {op : Op} (hstep : sess.step op = .ok s') :
    op.fits sess.st = true ∧ Inv s' := by
  cases hfits : op.fits sess.st with
  | true =>
      obtain ⟨s'', hstep', hinv⟩ := h.step hfits
      rw [hstep] at hstep'
      exact ⟨rfl, Except.ok.inj hstep' ▸ hinv⟩
  | false =>
      obtain ⟨fault, herror⟩ := h.step_error hfits
      rw [hstep] at herror
      cases herror

/-! ## Runs -/

theorem Session.run_cons (s : Session) (op : Op) (ops : List Op) :
    s.run (op :: ops) = s.step op >>= fun s => s.run ops := rfl

theorem Inv.run_ok (h : Inv sess) (hrun : sess.run ops = .ok s') : Inv s' := by
  induction ops generalizing sess with
  | nil => exact Except.ok.inj hrun ▸ h
  | cons op ops ih =>
      rw [Session.run_cons] at hrun
      cases hstep : sess.step op with
      | ok s =>
          rw [hstep] at hrun
          exact ih (h.step_ok hstep).2 hrun
      | error fault =>
          rw [hstep] at hrun
          cases hrun

theorem Inv.run (h : Inv sess) (hfits : sess.runFits ops = true) :
    ∃ s', sess.run ops = .ok s' ∧ Inv s' := by
  induction ops generalizing sess with
  | nil => exact ⟨sess, rfl, h⟩
  | cons op ops ih =>
      rw [Session.runFits, Bool.and_eq_true] at hfits
      obtain ⟨s, hstep, hinv⟩ := h.step hfits.1
      rw [hstep] at hfits
      obtain ⟨s', hrun, hinv'⟩ := ih hinv hfits.2
      refine ⟨s', ?_, hinv'⟩
      rw [Session.run_cons, hstep]
      exact hrun

theorem runTable_inv (hrun : runTable name lenIndex lenStab szSbuf ops = .ok sess) :
    Inv sess := by
  unfold runTable at hrun
  cases hopen : stopen name lenIndex lenStab szSbuf with
  | ok st =>
      rw [hopen] at hrun
      exact (stopen_ok hopen).run_ok hrun
  | error fault =>
      rw [hopen] at hrun
      cases hrun

theorem runTable_ok (hfits : tableFits name lenIndex lenStab szSbuf ops = true) :
    ∃ s, runTable name lenIndex lenStab szSbuf ops = .ok s := by
  rw [tableFits, Bool.and_eq_true, decide_eq_true_eq] at hfits
  obtain ⟨st, hopen, hinv⟩ := stopen_inv hfits.1 name lenIndex lenStab
  rw [hopen] at hfits
  obtain ⟨s, hrun, -⟩ := hinv.run hfits.2
  refine ⟨s, ?_⟩
  rw [runTable, hopen]
  exact hrun

def keyA : Key := ⟨[97], List.cons_ne_nil _ _, by decide⟩

def keyB : Key := ⟨[98], List.cons_ne_nil _ _, by decide⟩

theorem hasShort_eq {d : Definition} (hd : d.key.chars.length ≤ 255) (key : Key) :
    d.hasShort key = decide (d.key = key) := by
  rw [Definition.hasShort]
  by_cases heq : d.key = key
  · rw [decide_eq_true heq, decide_eq_true (heq ▸ Nat.lt_succ_of_le hd), Bool.true_and]
  · rw [decide_eq_false heq, Bool.false_and]

theorem Inv.stfind_long (h : Inv sess) (hlong : maxSzkey ≤ key.chars.length) :
    stfind sess.st key.chars = .ok 0 := by
  have hnone : sess.live.find? (Definition.hasShort key) = none := by
    refine List.find?_eq_none.mpr fun d _ => ?_
    rw [Definition.hasShort, decide_eq_false (not_lt.mpr hlong), Bool.and_false]
    exact Bool.false_ne_true
  rw [h.stfind_eq, hnone]
  rfl

theorem Inv.found_ne_zero (h : Inv sess) {d : Definition} (hd : d ∈ sess.live) :
    ((sess.live.find? fun d' => d'.key = d.key).map Definition.sym).getD 0 ≠ 0 := by
  cases hfound : sess.live.find? fun d' => d'.key = d.key with
  | none =>
      have := List.find?_eq_none.mp hfound d hd
      exact absurd (decide_eq_true rfl) this
  | some d' =>
      have hpos := (h.placed d' (List.mem_of_find?_eq_some hfound)).pos
      simp only [Definition.offset, lenSymstruct] at hpos
      exact (by omega : d'.sym ≠ 0)

theorem Inv.answers_iff (h : Inv sess) :
    Answers sess (fun _ => True) ↔ ∀ d ∈ sess.live, d.key.chars.length ≤ 255 := by
  constructor
  · intro hanswers d hd
    by_contra hlong
    have hfind := hanswers.find d.key trivial
    rw [h.stfind_long (Nat.lt_of_not_le hlong)] at hfind
    exact h.found_ne_zero hd (Except.ok.inj hfind).symm
  · intro hshort
    have hcongr : ∀ key : Key, ∀ d ∈ sess.live, d.hasShort key = decide (d.key = key) :=
      fun key d hd => hasShort_eq (hshort d hd) key
    refine ⟨fun key _ => ?_, fun key _ maxSymbols => ?_, h.symbols_eq, h.answers.unchanged⟩
    · rw [h.stfind_eq, ← List.head?_filter, ← List.head?_filter, List.filter_congr (hcongr key)]
    · rw [h.stfindall_eq, List.filter_congr (hcongr key)]

/-- All characters of a symbol name are significant exactly if no name has more than 255. -/
theorem all_characters_significant
    (hrun : runTable name lenIndex lenStab szSbuf ops = .ok sess) :
    Answers sess (fun _ => True) ↔ ∀ d ∈ sess.live, d.key.chars.length ≤ 255 :=
  (runTable_inv hrun).answers_iff

theorem all_characters_significant_two : ∃ s, runTable [] 2 32 16 [.enter keyA [], .enter keyB []] =
    .ok s ∧ (Answers s (fun _ => True) ↔ ∀ d ∈ s.live, d.key.chars.length ≤ 255) := by
  obtain ⟨s, hrun⟩ := @runTable_ok [] 2 32 16 [.enter keyA [], .enter keyB []] (by decide)
  exact ⟨s, hrun, all_characters_significant hrun⟩

def longKey : Key :=
  ⟨List.replicate 256 97, List.cons_ne_nil _ _, fun _ hc => by
    rw [List.eq_of_mem_replicate hc]
    decide⟩

/-- A name of 256 characters is entered and is not found. -/
theorem not_significant_longKey : ¬ ∀ s, runTable [] 2 32 16 [.enter longKey []] = .ok s →
    Answers s (fun _ => True) := by
  intro h
  obtain ⟨st, hopen, hinv⟩ := @stopen_inv 16 (by decide) [] 2 32
  have hfields : (stopen [] 2 32 16).map (fun st => (st.indexlen, st.fits lenSymstruct)) =
      .ok (2, true) := rfl
  rw [hopen] at hfields
  obtain ⟨hindex, hfits⟩ := Prod.mk.inj (Except.ok.inj hfields)
  have hstep := step_enter hinv (by rw [hindex]; decide) longKey []
  rw [if_pos (by exact hfits)] at hstep
  have hrun : runTable [] 2 32 16 [.enter longKey []] = .ok
      ⟨st.entered longKey [], [⟨st.nextOffset + lenSymstruct, longKey, []⟩], []⟩ := by
    rw [runTable, hopen]
    exact congrArg (· >>= fun s => s.run []) hstep
  have hshort := (runTable_inv hrun).answers_iff.mp (h _ hrun) _ List.mem_cons_self
  rw [longKey, List.length_replicate] at hshort
  exact absurd hshort (by decide)

end Iraf.SymbolTable
