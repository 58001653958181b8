import Iraf.Tty.Ttysubi

/-!
# Arguments and their corrections

The arguments from `argnum` on are the ones that are pending, in the order of the
coordinates or in the other one.
-/

namespace Iraf.Tty

variable {nargs maxch : Nat} {sprintf : Sprintf} {plain : Prop} {s : Subst} {p : Pending}
  {odd late : Bool} {a : Array1} {codes : List Code}

/-! ## Reversal -/

theorem exchange_apply {left right : Nat} (hne : left ≠ right) (k : Nat) :
    exchange a left right k =
      if k = left then a right else if k = right then a left else a k := by
  rw [exchange]
  by_cases hright : k = right
  · rw [hright, Function.update_self, if_neg hne.symm, if_pos rfl]
  · rw [Function.update_of_ne hright, if_neg hright]
    by_cases hleft : k = left
    · rw [hleft, Function.update_self, if_pos rfl]
    · rw [Function.update_of_ne hleft, if_neg hleft]

/-- The first trips of the loop exchange the first elements with the last ones. -/
theorem exchanges_apply {m : Nat} (hm : m ≤ nargs / 2) (k : Nat) :
    (List.range' 1 m).foldl (fun a left => exchange a left (nargs - (left - 1))) a k =
      if (1 ≤ k ∧ k ≤ m) ∨ (nargs + 1 - m ≤ k ∧ k ≤ nargs) then a (nargs + 1 - k) else a k := by
  induction m generalizing k with
  | zero => 
      rw [if_neg (by omega)]
      rfl
  | succ m ih =>
      rw [List.range'_concat, List.foldl_append, List.foldl_cons, List.foldl_nil,
        exchange_apply (by omega)]
      split
      next hleft =>
        rw [ih (by omega), if_neg (by omega), if_pos (by omega)]
        congr 1
        omega
      next hleft =>
        split
        next hright =>
          rw [ih (by omega), if_neg (by omega), if_pos (by omega)]
          congr 1
          omega
        next hright =>
          rw [ih (by omega)]
          congr 1
          rw [eq_iff_iff]
          omega

theorem reverseFrom_first {k : Nat} (hk : 1 ≤ k) (hk' : k ≤ nargs) :
    reverseFrom nargs 1 a k = a (nargs + 1 - k) := by
  have htrips : (nargs - 1 + 1) / 2 + 1 - 1 = nargs / 2 := by omega
  rw [reverseFrom, htrips, exchanges_apply le_rfl]
  split
  · rfl
  · congr 1
    omega

theorem reverseFrom_last (hpos : 1 ≤ nargs) : reverseFrom nargs nargs a = a := by
  have htrips : (nargs - nargs + 1) / 2 + 1 - nargs = 0 := by omega
  rw [reverseFrom, htrips]
  rfl

/-! ## Pending arguments -/

/-- The coordinate of an argument. -/
def coordinate (nargs : Nat) (odd : Bool) (j : Nat) : Nat := if odd then nargs + 1 - j else j

theorem coordinate_not {j : Nat} (hj : 1 ≤ j) (hj' : j ≤ nargs) :
    coordinate nargs (!odd) j = coordinate nargs odd (nargs + 1 - j) := by
  cases odd with
  | false => rfl
  | true => exact (show j = nargs + 1 - (nargs + 1 - j) by omega)

/-- The local variables hold the pending arguments.  The number of reversals that have
been made is odd or not, and some may have come late. -/
structure Matched (nargs : Nat) (plain : Prop) (s : Subst) (p : Pending) (odd late : Bool) :
    Prop where
  pos : 1 ≤ s.argnum
  le : s.argnum ≤ nargs
  args : p.args = (List.range' s.argnum (nargs + 1 - s.argnum)).map
    fun j => (coordinate nargs odd j, s.args j)
  delta : ∀ j, 1 ≤ j → j ≤ nargs → p.delta (coordinate nargs odd j) = s.coords j
  out : s.outstr = p.outstr
  early : late = false → s.reverse = odd ∧ (odd = true → s.revstart = 1)
  final : late = true → (s.argnum = nargs ∧ 1 < nargs) ∧ s.revstart = nargs ∧
    (odd = false ∨ plain)

/-- The arguments after the next one. -/
def behind (nargs : Nat) (odd : Bool) (s : Subst) : List (Nat × Int) :=
  (List.range' (s.argnum + 1) (nargs - s.argnum)).map
    fun j => (coordinate nargs odd j, s.args j)

theorem Matched.args_eq (h : Matched nargs plain s p odd late) :
    p.args = (coordinate nargs odd s.argnum, s.args s.argnum) :: behind nargs odd s := by
  have hle := h.le
  rw [h.args, show nargs + 1 - s.argnum = nargs - s.argnum + 1 by omega, List.range'_succ,
    List.map_cons, behind]

theorem behind_update (v : Int) :
    (List.range' (s.argnum + 1) (nargs - s.argnum)).map
      (fun j => (coordinate nargs odd j, Function.update s.args s.argnum v j)) =
    behind nargs odd s := by
  refine List.map_congr_left fun j hj => ?_
  have hgt := (List.mem_range'_1.1 hj).1
  rw [Function.update_of_ne (by omega)]

theorem Matched.edit (h : Matched nargs plain s p odd late) (f : Int → Int) :
    Matched nargs plain (s.edit f) (p.edit f) odd late := by
  have hp : p.edit f = ⟨(coordinate nargs odd s.argnum, f (s.args s.argnum)) ::
      behind nargs odd s, p.delta, p.outstr⟩ := by
    rw [Pending.edit, h.args_eq]
  have hle := h.le
  rw [hp]
  refine ⟨h.pos, h.le, ?_, h.delta, h.out, h.early, h.final⟩
  show _ = (List.range' s.argnum (nargs + 1 - s.argnum)).map _
  rw [show nargs + 1 - s.argnum = nargs - s.argnum + 1 by omega, List.range'_succ,
    List.map_cons, ← behind_update (f (s.args s.argnum))]
  exact congrArg (fun v => (coordinate nargs odd s.argnum, v) :: _)
    (Function.update_self s.argnum (f (s.args s.argnum)) s.args).symm

theorem Matched.editAll (h : Matched nargs plain s p odd late) (f : Int → Int) :
    Matched nargs plain (s.editAll nargs f) (p.editAll f) odd late := by
  refine ⟨h.pos, h.le, ?_, h.delta, h.out, h.early, h.final⟩
  show p.args.map _ = (List.range' s.argnum (nargs + 1 - s.argnum)).map _
  rw [h.args, List.map_map]
  refine List.map_congr_left fun j hj => ?_
  have hj' := List.mem_range'_1.1 hj
  show (_, _) = (_, _)
  rw [Subst.editAll]
  dsimp only
  rw [if_pos (by omega)]

theorem Matched.put (h : Matched nargs plain s p odd late) (text : List Int) :
    Matched nargs plain { s with outstr := s.outstr ++ text }
      { p with outstr := p.outstr ++ text } odd late :=
  ⟨h.pos, h.le, h.args, h.delta, congrArg (· ++ text) h.out, h.early, h.final⟩

theorem Matched.advance (h : Matched nargs plain s p odd late) :
    Matched nargs plain { s with argnum := min nargs (s.argnum + 1) } p.advance odd late := by
  have hle := h.le
  have hp : p.advance.delta = p.delta ∧ p.advance.outstr = p.outstr := by
    rw [Pending.advance]
    split <;> exact ⟨rfl, rfl⟩
  refine ⟨?_, min_le_left _ _, ?_, fun j hj hj' => ?_, h.out.trans hp.2.symm, h.early,
    fun hlate => ?_⟩
  · exact le_min (h.pos.trans hle) (Nat.succ_pos _)
  · dsimp only
    rcases hle.eq_or_lt with hlast | hlt
    · have hnone : behind nargs odd s = [] := by
        rw [behind, hlast, Nat.sub_self]
        rfl
      have hone := h.args_eq
      rw [hnone] at hone
      have hsame : p.advance = p := by
        rw [Pending.advance, hone]
      rw [hsame, min_eq_left (by omega), h.args, hlast]
    · rw [min_eq_right (by omega), show nargs + 1 - (s.argnum + 1) = nargs - s.argnum by omega]
      have hmore : behind nargs odd s = (coordinate nargs odd (s.argnum + 1),
          s.args (s.argnum + 1)) :: (List.range' (s.argnum + 2) (nargs - s.argnum - 1)).map
            fun j => (coordinate nargs odd j, s.args j) := by
        rw [behind, show nargs - s.argnum = nargs - s.argnum - 1 + 1 by omega, List.range'_succ,
          List.map_cons, Nat.add_sub_cancel]
      have hadvance : p.advance = { p with args := behind nargs odd s } := by
        rw [Pending.advance, h.args_eq, hmore]
      rw [hadvance]
      rfl
  · rw [hp.1]
    exact h.delta j hj hj'
  · obtain ⟨⟨hlast, hmany⟩, hrest⟩ := h.final hlate
    refine ⟨⟨?_, hmany⟩, hrest⟩
    dsimp only
    omega

theorem acceptable_delta (n : Nat) (arg delta : Int) :
    acceptable n arg delta = ((acceptable n arg 0).1, delta + (acceptable n arg 0).2) := by
  induction n generalizing arg delta with
  | zero => rw [acceptable, acceptable, add_zero]
  | succ n ih =>
      rw [acceptable, acceptable]
      split
      · rw [ih, ih (arg + 1) (0 + 1)]
        dsimp only
        rw [add_assoc, zero_add]
      · rw [add_zero]

theorem coordinate_injective {j j' : Nat} (hj : j ≤ nargs) (hj' : j' ≤ nargs)
    (h : coordinate nargs odd j = coordinate nargs odd j') : j = j' := by
  cases odd with
  | false => exact h
  | true =>
      have heq : nargs + 1 - j = nargs + 1 - j' := h
      omega

theorem binary_eq (nargs : Nat) (s : Subst) : s.binary nargs = { s with
    args := Function.update s.args s.argnum (acceptable 3 (s.args s.argnum) 0).1
    coords := Function.update s.coords s.argnum
      (s.coords s.argnum + (acceptable 3 (s.args s.argnum) 0).2)
    outstr := s.outstr ++ [toChar (acceptable 3 (s.args s.argnum) 0).1]
    argnum := min nargs (s.argnum + 1) } := by
  rw [Subst.binary, acceptable_delta]

theorem Matched.binary (h : Matched nargs plain s p odd late) :
    Matched nargs plain (s.binary nargs) p.binary odd late := by
  have hle := h.le
  have hs := binary_eq nargs s
  generalize hacc : acceptable 3 (s.args s.argnum) 0 = r at hs
  obtain ⟨value, correction⟩ := r
  have hp : p.binary = Pending.advance
      { args := (coordinate nargs odd s.argnum, value) :: behind nargs odd s
        delta := Function.update p.delta (coordinate nargs odd s.argnum)
          (p.delta (coordinate nargs odd s.argnum) + correction)
        outstr := p.outstr ++ [toChar value] } := by
    rw [Pending.binary, h.args_eq]
    dsimp only
    rw [hacc]
  rw [hs, hp]
  -- the state before the argument is passed
  refine Matched.advance (s := { s with
    args := Function.update s.args s.argnum value
    coords := Function.update s.coords s.argnum (s.coords s.argnum + correction)
    outstr := s.outstr ++ [toChar value] }) ?_
  refine ⟨h.pos, h.le, ?_, fun j hj hj' => ?_, congrArg (· ++ [toChar value]) h.out, h.early,
    h.final⟩
  · dsimp only
    rw [show nargs + 1 - s.argnum = nargs - s.argnum + 1 by omega, List.range'_succ,
      List.map_cons, Function.update_self, behind_update]
  · dsimp only
    by_cases heq : j = s.argnum
    · rw [heq, Function.update_self, Function.update_self, h.delta _ h.pos h.le]
    · rw [Function.update_of_ne heq, Function.update_of_ne, h.delta j hj hj']
      exact fun hcoord => heq (coordinate_injective hj' h.le hcoord)

theorem Matched.number (h : Matched nargs plain s p odd late) (ch : Char) :
    Matched nargs plain (s.number sprintf maxch nargs ch) (p.number sprintf maxch ch) odd
      late := by
  have hp : p.number sprintf maxch ch = Pending.advance { p with
      outstr := p.outstr ++ (sprintf (numberFormat ch).1 (numberFormat ch).2
        (s.args s.argnum)).take (maxch - p.outstr.length) } := by
    rw [Pending.number, h.args_eq]
  rw [hp, ← h.out]
  have hput := h.put ((sprintf (numberFormat ch).1 (numberFormat ch).2
    (s.args s.argnum)).take (maxch - s.outstr.length))
  rw [← h.out] at hput
  exact hput.advance

theorem Matched.reverse_first (h : Matched nargs plain s p odd false) (hfirst : s.argnum = 1)
    (hzero : ∀ j, 1 ≤ j → j ≤ nargs → s.coords (nargs + 1 - j) = s.coords j) :
    Matched nargs plain (s.swapArgs nargs) { p with args := p.args.reverse } (!odd) false := by
  have hpos : 1 ≤ nargs := h.pos.trans h.le
  refine ⟨h.pos, h.le, ?_, fun j hj hj' => ?_, h.out, fun _ => ⟨?_, fun _ => hfirst⟩, nofun⟩
  · show p.args.reverse = (List.range' s.argnum (nargs + 1 - s.argnum)).map
      fun j => (coordinate nargs (!odd) j, reverseFrom nargs s.argnum s.args j)
    rw [h.args, hfirst, Nat.add_sub_cancel]
    refine List.ext_getElem ?_ fun i hi hi' => ?_
    · rw [List.length_reverse, List.length_map, List.length_map]
    · have hlt : i < nargs := by
        rw [List.length_map, List.length_range'] at hi'
        exact hi'
      rw [List.getElem_reverse, List.getElem_map, List.getElem_map, List.getElem_range',
        List.getElem_range', List.length_map, List.length_range',
        coordinate_not (by omega) (by omega), reverseFrom_first (by omega) (by omega),
        show nargs + 1 - (1 + 1 * i) = 1 + 1 * (nargs - 1 - i) by omega]
  · show p.delta (coordinate nargs (!odd) j) = s.coords j
    rw [coordinate_not hj hj', h.delta _ (by omega) (by omega), hzero j hj hj']
  · show (!s.reverse) = !odd
    rw [(h.early rfl).1]

theorem Matched.reverse_last (h : Matched nargs plain s p odd late) (hlast : s.argnum = nargs)
    (hmany : 1 < nargs) (hfit : odd = false ∨ plain) :
    Matched nargs plain (s.swapArgs nargs) { p with args := p.args.reverse } odd true := by
  have hone : p.args = [(coordinate nargs odd nargs, s.args nargs)] := by
    rw [h.args_eq, behind, hlast, Nat.sub_self]
    rfl
  have hargs : (s.swapArgs nargs).args = s.args := by
    show reverseFrom nargs s.argnum s.args = s.args
    rw [hlast, reverseFrom_last hmany.le]
  refine ⟨h.pos, h.le, ?_, h.delta, h.out, nofun, fun _ => ⟨⟨hlast, hmany⟩, hlast, hfit⟩⟩
  show p.args.reverse = _
  rw [hargs, ← show p.args = (List.range' (s.swapArgs nargs).argnum
    (nargs + 1 - (s.swapArgs nargs).argnum)).map fun j => (coordinate nargs odd j, s.args j)
    from h.args, hone]
  rfl

/-! ## The loop -/

/-- What a code does to the local variables. -/
def Subst.perform (sprintf : Sprintf) (maxch nargs : Nat) (s : Subst) : Code → Subst
  | .text ch _ => s.put ch
  | .percent => s.put '%'
  | .number ch _ => s.number sprintf maxch nargs ch
  | .binary => s.binary nargs
  | .add x => (s.edit fun arg => arg + x.toNat).binary nargs
  | .exceed x y => s.edit fun arg => Tty.exceed arg x y
  | .reverse => s.swapArgs nargs
  | .increment => s.editAll nargs fun arg => arg + 1
  | .exclusiveOr => s.editAll nargs Tty.exclusiveOr
  | .bcd => s.edit bcdEncode
  | .reverseCode => s.edit Tty.reverseCode

/-- The codes are performed until the output string is full. -/
def Subst.run (sprintf : Sprintf) (maxch nargs : Nat) : Subst → List Code → Subst
  | s, [] => s
  | s, code :: codes =>
      if s.outstr.length ≥ maxch then s
      else run sprintf maxch nargs (s.perform sprintf maxch nargs code) codes

/-- What holds in every turn of the loop. -/
structure Kept (nargs : Nat) (plain : Prop) (s : Subst) (p : Pending) (odd late : Bool) :
    Prop where
  matched : Matched nargs plain s p odd late
  fresh : s.argnum = 1 → 1 < nargs → ∀ j, 1 ≤ j → j ≤ nargs → s.coords j = 0
  zero : plain → ∀ j, 1 ≤ j → j ≤ nargs → s.coords j = 0

theorem Kept.of_same {s' : Subst} {p' : Pending} (h : Kept nargs plain s p odd late)
    (hargnum : s'.argnum = s.argnum) (hcoords : s'.coords = s.coords)
    (hmatched : Matched nargs plain s' p' odd late) : Kept nargs plain s' p' odd late :=
  ⟨hmatched, fun hfirst => hcoords ▸ h.fresh (hargnum ▸ hfirst), fun hplain =>
    hcoords ▸ h.zero hplain⟩

theorem Kept.of_output {s' : Subst} {p' : Pending} (h : Kept nargs plain s p odd late)
    (hargnum : s'.argnum = min nargs (s.argnum + 1)) (hcoords : plain → s'.coords = s.coords)
    (hmatched : Matched nargs plain s' p' odd late) : Kept nargs plain s' p' odd late := by
  refine ⟨hmatched, fun hfirst hmany => ?_, fun hplain => hcoords hplain ▸ h.zero hplain⟩
  have hpos := h.matched.pos
  omega

theorem Kept.reverse (h : Kept nargs plain s p odd late)
    (hfit : TurnsFit nargs plain s.argnum odd (.reverse :: codes)) :
    ∃ odd' late', Kept nargs plain (s.swapArgs nargs) { p with args := p.args.reverse } odd'
      late' ∧ TurnsFit nargs plain s.argnum odd' codes := by
  rw [TurnsFit, if_pos (show Code.reverse.isReverse = true from rfl)] at hfit
  split at hfit
  next hfirst =>
    have hearly : late = false := by
      rw [← Bool.not_eq_true]
      intro hlate
      have := (h.matched.final hlate).1
      omega
    subst hearly
    refine ⟨!odd, false, ⟨h.matched.reverse_first hfirst fun j hj hj' => ?_, h.fresh, h.zero⟩,
      hfirst ▸ hfit⟩
    rcases Nat.lt_or_ge 1 nargs with hmany | hone
    · rw [h.fresh hfirst hmany _ (by omega) (by omega), h.fresh hfirst hmany j hj hj']
    · rw [show nargs + 1 - j = j by omega]
  next hlater =>
    obtain ⟨hlast, hturned, hrest⟩ := hfit
    have hmany : 1 < nargs := by
      have := h.matched.pos
      omega
    exact ⟨odd, true, ⟨h.matched.reverse_last hlast hmany hturned, h.fresh, h.zero⟩, hrest⟩

theorem turnsFit_output {argnum : Nat} {code : Code} (hreverse : code.isReverse = false)
    (houtput : code.isOutput = true) (h : TurnsFit nargs plain argnum odd (code :: codes)) :
    TurnsFit nargs plain (min nargs (argnum + 1)) odd codes := by
  rwa [TurnsFit, if_neg (Bool.eq_false_iff.1 hreverse), if_pos houtput] at h

theorem turnsFit_other {argnum : Nat} {code : Code} (hreverse : code.isReverse = false)
    (houtput : code.isOutput = false) (h : TurnsFit nargs plain argnum odd (code :: codes)) :
    TurnsFit nargs plain argnum odd codes := by
  rwa [TurnsFit, if_neg (Bool.eq_false_iff.1 hreverse), if_neg (Bool.eq_false_iff.1 houtput)]
    at h

theorem Kept.step (sprintf : Sprintf) (maxch : Nat) {code : Code}
    (h : Kept nargs plain s p odd late)
    (hplain : plain → code.isBinary = false)
    (hfit : TurnsFit nargs plain s.argnum odd (code :: codes)) :
    ∃ odd' late', Kept nargs plain (s.perform sprintf maxch nargs code)
      (p.perform sprintf maxch code) odd' late' ∧
      TurnsFit nargs plain (s.perform sprintf maxch nargs code).argnum odd' codes := by
  cases code with
  | text ch hch =>
      exact ⟨odd, late, h.of_same rfl rfl (h.matched.put _), turnsFit_other rfl rfl hfit⟩
  | percent => exact ⟨odd, late, h.of_same rfl rfl (h.matched.put _), turnsFit_other rfl rfl hfit⟩
  | number ch hch =>
      exact ⟨odd, late, h.of_output rfl (fun _ => rfl) (h.matched.number ch),
        turnsFit_output rfl rfl hfit⟩
  | binary =>
      refine ⟨odd, late, h.of_output ?_ (fun hyes => absurd (hplain hyes) (by decide))
        h.matched.binary, ?_⟩
      · exact congrArg Subst.argnum (binary_eq nargs s)
      · rw [Subst.perform, binary_eq]
        exact turnsFit_output rfl rfl hfit
  | add x =>
      refine ⟨odd, late, h.of_output ?_ (fun hyes => Bool.noConfusion (hplain hyes))
        (h.matched.edit _).binary, ?_⟩
      · exact congrArg Subst.argnum (binary_eq nargs _)
      · rw [Subst.perform, binary_eq]
        exact turnsFit_output rfl rfl hfit
  | exceed x y =>
      exact ⟨odd, late, h.of_same rfl rfl (h.matched.edit fun arg => exceed arg x y),
        turnsFit_other rfl rfl hfit⟩
  | reverse => exact h.reverse hfit
  | increment =>
      exact ⟨odd, late, h.of_same rfl rfl (h.matched.editAll fun arg => arg + 1),
        turnsFit_other rfl rfl hfit⟩
  | exclusiveOr =>
      exact ⟨odd, late, h.of_same rfl rfl (h.matched.editAll _), turnsFit_other rfl rfl hfit⟩
  | bcd => exact ⟨odd, late, h.of_same rfl rfl (h.matched.edit _), turnsFit_other rfl rfl hfit⟩
  | reverseCode =>
      exact ⟨odd, late, h.of_same rfl rfl (h.matched.edit _), turnsFit_other rfl rfl hfit⟩

theorem Kept.run (sprintf : Sprintf) (maxch : Nat) (h : Kept nargs plain s p odd late)
    (hplain : plain → ∀ code ∈ codes, code.isBinary = false)
    (hfit : TurnsFit nargs plain s.argnum odd codes) :
    ∃ odd' late', Kept nargs plain (s.run sprintf maxch nargs codes)
      (p.run sprintf maxch codes) odd' late' := by
  induction codes generalizing s p odd late with
  | nil => exact ⟨odd, late, h⟩
  | cons code codes ih =>
      rw [Subst.run, Pending.run, ← h.matched.out]
      split
      · exact ⟨odd, late, h⟩
      · obtain ⟨odd', late', hstep, hrest⟩ :=
          h.step sprintf maxch (fun hyes => hplain hyes code List.mem_cons_self) hfit
        exact ih hstep (fun hyes c hc => hplain hyes c (List.mem_cons_of_mem code hc)) hrest

/-! ## The result -/

end Iraf.Tty
