import Mathlib.Data.List.Pairwise
import Mathlib.Tactic.Linarith
import Iraf.Lib.ThreadedStack
import Iraf.Symtab.Symtab

/-!
# The layout of a symbol table

What the buffers hold for the symbols and the marks that are not freed, and that a store above them
keeps it.
-/

namespace Iraf.SymbolTable

open Cells Function

variable {st st' : Symtab} {live : List Definition} {marks : List (Int × List Definition)}
  {top top' stop stop' a cp : Int} {s key : List Int} {d : Definition}

/-! ## Strings -/

/-- A string lies at an offset. -/
def StringAt (sbuf : Memory Int) : Int → List Int → Prop
  | cp, [] => sbuf cp = 0
  | cp, c :: s => sbuf cp = c ∧ StringAt sbuf (cp + 1) s

theorem StringAt.congr {sbuf sbuf' : Memory Int} (h : StringAt sbuf cp s)
    (heq : ∀ x, cp ≤ x → x < cp + s.length + 1 → sbuf' x = sbuf x) : StringAt sbuf' cp s := by
  induction s generalizing cp with
  | nil => exact (heq cp (by omega) (by simp)).trans h
  | cons c s ih =>
      rw [List.length_cons] at heq
      refine ⟨(heq cp (by omega) (by omega)).trans h.1, ih h.2 fun x h1 h2 => ?_⟩
      exact heq x (by omega) (by omega)

theorem stringAt_put (m : Memory Int) (cp : Int) (s : List Int) :
    StringAt (put m cp (s ++ [0])) cp s := by
  induction s generalizing m cp with
  | nil => exact put_of_mem 0 (by decide) (by omega)
  | cons c s ih =>
      refine ⟨put_of_mem 0 (by simp) (by omega), ?_⟩
      have hsplit : put m cp ((c :: s) ++ [0]) = put (put m cp [c]) (cp + 1) (s ++ [0]) :=
        (@put_append _ m cp [c] (s ++ [0])).symm
      rw [hsplit]
      exact ih _ _

/-- Characters of a string are not the end of a string. -/
def NoEos (s : List Int) : Prop := ∀ c ∈ s, c ≠ 0

theorem Key.noEos (key : Key) : NoEos key.chars := fun c hc => by
  have := key.ascii c hc
  omega

theorem Key.first (key : Key) : 1 ≤ key.chars.headD 0 ∧ key.chars.headD 0 < 128 := by
  obtain ⟨chars, hne, hascii⟩ := key
  cases chars with
  | nil => exact absurd rfl hne
  | cons c chars => exact hascii c List.mem_cons_self

/-- Keys are told apart by all of their characters; one that is not shorter than the bound of the
comparison is the same as none. -/
theorem sameKey_iff {sbuf : Memory Int} {n : Nat} (hat : StringAt sbuf cp s) (hs : NoEos s)
    (hkey : NoEos key) : sameKey sbuf n key cp = true ↔ key = s ∧ key.length < n := by
  induction n generalizing key s cp with
  | zero => simp [sameKey]
  | succ n ih =>
      rw [sameKey]
      cases s with
      | nil =>
          rw [show sbuf cp = 0 from hat]
          cases key with
          | nil => simp
          | cons c key =>
              have hc := hkey c List.mem_cons_self
              simp [hc]
      | cons c' s =>
          obtain ⟨hc', hrest⟩ := hat
          have hne := hs c' List.mem_cons_self
          rw [hc']
          cases key with
          | nil => simp [hne.symm]
          | cons c key =>
              have hc := hkey c List.mem_cons_self
              have ih := ih hrest (fun x hx => hs x (List.mem_cons_of_mem _ hx))
                (fun x hx => hkey x (List.mem_cons_of_mem _ hx))
              rw [List.headD_cons, List.tail_cons, if_neg hc, List.cons.injEq, List.length_cons,
                Nat.add_lt_add_iff_right]
              by_cases heq : c = c'
              · rw [if_neg (not_not_intro heq), ih]
                exact ⟨fun h => ⟨⟨heq, h.1⟩, h.2⟩, fun h => ⟨h.1.2, h.2⟩⟩
              · rw [if_pos heq]
                exact ⟨fun h => absurd h Bool.false_ne_true, fun h => absurd h.1.1 heq⟩

/-! ## What the buffers hold -/

/-- Where the symbol starts. -/
def Definition.offset (d : Definition) : Int := d.sym - lenSymstruct

/-- A symbol lies below a location of the symbol table, and its key below one of the strings. -/
structure Placed (st : Symtab) (top stop : Int) (d : Definition) : Prop where
  pos : 0 < d.offset
  below : d.sym + d.values.length ≤ top
  thread : st.stab (d.offset + 2) = st.thread d.key.chars
  key : StringAt st.sbuf (st.stab (d.offset + 3)) d.key.chars
  keyPos : 0 ≤ st.stab (d.offset + 3)
  keyBelow : st.stab (d.offset + 3) + d.key.chars.length + 1 ≤ stop
  values : fetch st.stab d.sym d.values.length = d.values
  flag : st.ascii (d.key.chars.headD 0) ≠ 0

/-- The symbols below a mark, and the marks below it. -/
def MarksHold (st : Symtab) : Int → Int → List Definition → List (Int × List Definition) → Prop
  | _, _, _, [] => True
  | top, stop, live, (marker, rest) :: marks =>
      (∃ newer, live = newer ++ rest ∧ ∀ d ∈ newer, marker < d.offset) ∧
      0 < marker ∧ marker + lenMarker ≤ top ∧
      1 ≤ st.stab marker ∧ st.stab marker ≤ stop ∧ st.stab (marker + 1) = rest.length ∧
      (∀ d ∈ rest, Placed st marker (st.stab marker) d) ∧
      MarksHold st marker (st.stab marker) rest marks

/-- An offset into the table, where 0 marks the end of a list. -/
def link (offset : Int) : Option Int := if offset = 0 then none else some offset

theorem link_of_pos (h : 0 < a) : link a = some a := if_neg (by omega)

theorem link_eq_none (h : link a = none) : a = 0 := by
  unfold link at h
  split at h
  · assumption
  · cases h

theorem link_eq_some {b : Int} (h : link a = some b) : a = b := by
  unfold link at h
  split at h
  · cases h
  · exact Option.some.inj h

/-- The offsets of the symbols. -/
def offsets (live : List Definition) : List Int := live.map Definition.offset

/-- The part of the symbol table that is allocated and lies in the buffer. -/
def Symtab.used (st : Symtab) : Int := min st.stabop st.stablen

/-- The lists of the table lead through the symbols that are not freed. -/
structure Inv (s : Session) : Prop where
  -- without threads nothing was ever entered
  indexlen : s.st.indexlen ≠ 0 ∨ s.live = [] ∧ ∀ c, s.st.ascii c = 0
  threadsPos : 0 ≤ s.st.indexlen
  stabRoom : 0 ≤ s.st.stablen
  stabop : 1 ≤ s.st.stabop
  sbufop : 1 ≤ s.st.sbufop
  sbufRoom : s.st.sbufop ≤ s.st.sbuflen
  global : Visits (fun el => link (s.st.stab (el + 1))) (link s.st.lastsymbol) (offsets s.live)
  threads : Threaded (fun el => s.st.stab (el + 2)) (fun t => link (s.st.index t))
    (fun el => link (s.st.stab el)) (offsets s.live)
  sorted : (offsets s.live).Pairwise (· > ·)
  placed : ∀ d ∈ s.live, Placed s.st s.st.used s.st.sbufop d
  nsymbols : s.st.nsymbols = s.live.length
  marks : MarksHold s.st s.st.used s.st.sbufop s.live s.marks

/-! ## Stores above a level -/

/-- What lies below a location of either buffer is kept. -/
structure Kept (st st' : Symtab) (top stop : Int) : Prop where
  stab : ∀ a, 0 ≤ a → a < top → st'.stab a = st.stab a
  sbuf : ∀ a, 0 ≤ a → a < stop → st'.sbuf a = st.sbuf a
  indexlen : st'.indexlen = st.indexlen
  ascii : ∀ c, 0 ≤ c → c < 128 → st.ascii c ≠ 0 → st'.ascii c ≠ 0

theorem Kept.below (h : Kept st st' top stop) (htop : top' ≤ top) (hstop : stop' ≤ stop) :
    Kept st st' top' stop' :=
  ⟨fun a h0 ha => h.stab a h0 (by omega), fun a h0 ha => h.sbuf a h0 (by omega), h.indexlen,
    h.ascii⟩

theorem Placed.mono (h : Placed st top stop d) (htop : top ≤ top') (hstop : stop ≤ stop') :
    Placed st top' stop' d :=
  ⟨h.pos, h.below.trans htop, h.thread, h.key, h.keyPos,
    h.keyBelow.trans hstop, h.values, h.flag⟩

theorem Placed.offset_lt (h : Placed st top stop d) : d.offset < top := by
  have := h.below
  simp only [Definition.offset, lenSymstruct]
  omega

theorem Placed.kept (h : Placed st top stop d) (hkept : Kept st st' top stop) :
    Placed st' top stop d := by
  have hpos := h.pos
  have hbelow := h.below
  have hoff : d.offset + 4 = d.sym := by
    simp only [Definition.offset, lenSymstruct]
    omega
  have hkey : st'.stab (d.offset + 3) = st.stab (d.offset + 3) :=
    hkept.stab _ (by omega) (by omega)
  constructor
  · exact h.pos
  · exact h.below
  · rw [hkept.stab _ (by omega) (by omega), h.thread, Symtab.thread, Symtab.thread, hkept.indexlen]
  · rw [hkey]
    have hkeyPos := h.keyPos
    have hkeyBelow := h.keyBelow
    exact h.key.congr fun x _ hx => hkept.sbuf x (by omega) (by omega)
  · rw [hkey]
    exact h.keyPos
  · rw [hkey]
    exact h.keyBelow
  · refine Eq.trans (fetch_congr fun j hj => ?_) h.values
    exact hkept.stab _ (by omega) (by omega)
  · have hfirst := d.key.first
    exact hkept.ascii _ (by omega) hfirst.2 h.flag

theorem MarksHold.kept (h : MarksHold st top stop live marks) (hkept : Kept st st' top stop) :
    MarksHold st' top stop live marks := by
  induction marks generalizing top stop live with
  | nil => trivial
  | cons mark marks ih =>
      obtain ⟨marker, rest⟩ := mark
      obtain ⟨hnewer, hpos, htop, hone, hstop, hcount, hplaced, hmarks⟩ := h
      have hmarker : st'.stab marker = st.stab marker := by
        refine hkept.stab _ hpos.le ?_
        simp only [lenMarker] at htop
        omega
      have hcount' : st'.stab (marker + 1) = st.stab (marker + 1) := by
        refine hkept.stab _ (by omega) ?_
        simp only [lenMarker] at htop
        omega
      have hbelow := hkept.below (show marker ≤ top by simp only [lenMarker] at htop; omega) hstop
      refine ⟨hnewer, hpos, htop, ?_, ?_, ?_, ?_, ?_⟩
      · rwa [hmarker]
      · rwa [hmarker]
      · rwa [hcount']
      · rw [hmarker]
        exact fun d hd => (hplaced d hd).kept hbelow
      · rw [hmarker]
        exact ih hmarks hbelow

theorem MarksHold.mono (h : MarksHold st top stop live marks) (htop : top ≤ top')
    (hstop : stop ≤ stop') : MarksHold st top' stop' live marks := by
  cases marks with
  | nil => trivial
  | cons mark marks =>
      obtain ⟨hnewer, hpos, hbelow, hone, hle, hrest⟩ := h
      exact ⟨hnewer, hpos, hbelow.trans htop, hone, hle.trans hstop, hrest⟩

theorem MarksHold.tail {mark : Int × List Definition} (h : MarksHold st top stop live (mark :: marks)) :
    MarksHold st top stop live marks := by
  cases marks with
  | nil => trivial
  | cons mark' marks =>
      obtain ⟨⟨newer, rfl, habove⟩, -, htop, -, hstop, -, -, ⟨newer', hlive, habove'⟩, hpos, htop',
        hone, hstop', hrest⟩ := h
      simp only [lenMarker] at htop htop'
      refine ⟨⟨newer ++ newer', ?_, ?_⟩, hpos, ?_, hone, hstop'.trans hstop, hrest⟩
      · rw [hlive, List.append_assoc]
      · refine List.forall_mem_append.mpr ⟨fun d hd => ?_, habove'⟩
        have := habove d hd
        omega
      · simp only [lenMarker]
        omega

theorem MarksHold.push (h : MarksHold st top stop live marks) (hnew : top ≤ d.offset) :
    MarksHold st top stop (d :: live) marks := by
  cases marks with
  | nil => trivial
  | cons mark marks =>
      obtain ⟨⟨newer, rfl, habove⟩, hpos, hbelow, hrest⟩ := h
      refine ⟨⟨d :: newer, rfl, ?_⟩, hpos, hbelow, hrest⟩
      refine List.forall_mem_cons.mpr ⟨?_, habove⟩
      simp only [lenMarker] at hbelow
      omega

/-! ## The invariant under a store above all symbols -/

variable {sess : Session}

theorem Symtab.used_le (st : Symtab) : st.used ≤ st.stabop ∧ st.used ≤ st.stablen :=
  ⟨min_le_left _ _, min_le_right _ _⟩

theorem Inv.offset_bounds (h : Inv sess) (ha : a ∈ offsets sess.live) :
    0 < a ∧ a + 4 ≤ sess.st.used := by
  obtain ⟨d, hd, rfl⟩ := List.mem_map.mp ha
  have hplaced := h.placed d hd
  have hbelow := hplaced.below
  refine ⟨hplaced.pos, ?_⟩
  simp only [Definition.offset, lenSymstruct]
  omega

theorem Inv.drop (h : Inv sess) (k : Nat) : Inv ⟨sess.st, sess.live, sess.marks.drop k⟩ := by
  induction k generalizing sess with
  | zero => exact h
  | succ k ih =>
      obtain ⟨st, live, marks⟩ := sess
      cases marks with
      | nil => exact h
      | cons mark marks =>
          exact @ih ⟨st, live, marks⟩ ⟨h.1, h.2, h.3, h.4, h.5, h.6, h.7, h.8, h.9, h.10,
            h.11, h.marks.tail⟩

/-- A call that leaves the lists alone and stores above everything that is live. -/
theorem Inv.kept (h : Inv sess) (hkept : Kept sess.st st' sess.st.used sess.st.sbufop)
    (hindex : st'.index = sess.st.index) (hlast : st'.lastsymbol = sess.st.lastsymbol)
    (hcount : st'.nsymbols = sess.st.nsymbols) (hascii : ∀ c, sess.st.ascii c = 0 → st'.ascii c = 0)
    (hstabop : 1 ≤ st'.stabop)
    (hused : sess.st.used ≤ st'.used) (hsbufop : sess.st.sbufop ≤ st'.sbufop)
    (hroom : st'.sbufop ≤ st'.sbuflen) : Inv { sess with st := st' } := by
  have hbounds := fun a (ha : a ∈ offsets sess.live) => h.offset_bounds ha
  constructor
  · rw [hkept.indexlen]
    exact h.indexlen.imp_right fun hnone => ⟨hnone.1, fun c => hascii c (hnone.2 c)⟩
  · rw [hkept.indexlen]
    exact h.threadsPos
  · refine (le_min ?_ h.stabRoom).trans (hused.trans st'.used_le.2)
    exact Int.le_of_lt h.stabop
  · exact hstabop
  · exact h.sbufop.trans hsbufop
  · exact hroom
  · simp only [hlast]
    refine h.global.congr fun a ha => ?_
    have := hbounds a ha
    rw [hkept.stab _ (by omega) (by omega)]
  · simp only [hindex]
    refine h.threads.congr (fun a ha => ?_) fun a ha => ?_
    · have := hbounds a ha
      exact hkept.stab _ (by omega) (by omega)
    · have := hbounds a ha
      rw [hkept.stab _ (by omega) (by omega)]
  · exact h.sorted
  · exact fun d hd => ((h.placed d hd).kept hkept).mono hused hsbufop
  · exact hcount.trans h.nsymbols
  · exact (h.marks.kept hkept).mono hused hsbufop

end Iraf.SymbolTable
