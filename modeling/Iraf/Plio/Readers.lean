import Iraf.Plio.Segment

/-!
# The readers of a line list

A line list of either format is read by `plL2p` and by the cursor of `pllseg.h`.
`ReadersAgree` says that both see the pixels its instructions regenerate; the cursor
does so for the lists of the current format that have no PN of one pixel.
-/

namespace Iraf.Plio

/-- The header of a list with `n` words of instructions, in the current or in the
old format. -/
inductive ListHeader (n : Nat) : List Int → Prop where
  | current (nref blen : Int) (h : llCurhdrlen + n < 2 ^ 30) :
      ListHeader n (header nref (llCurhdrlen + n) blen)
  | old (nref blen : Int) (h : 3 + n ≤ 32767) : ListHeader n [nref, blen, 3 + n]

theorem ListHeader.stored {n : Nat} {hdr : List Int} (h : ListHeader n hdr)
    (body : List Int) :
    storedFirst (hdr ++ body) = hdr.length + 1 ∧ storedLen (hdr ++ body) = hdr.length + n := by
  cases h with
  | current nref blen hlen =>
      have hnew := not_oldformat_header nref (llCurhdrlen + n) blen body
      have hll := llLen_header nref (llCurhdrlen + n) blen body (by omega)
        (by exact_mod_cast hlen)
      constructor
      · rw [storedFirst, if_neg hnew, llFirst_header, length_header]
        rfl
      · rw [storedLen, if_neg hnew, hll, length_header]
  | old nref blen hlen =>
      have hold : LlOldformat ([nref, blen, 3 + (n : Int)] ++ body) := by
        change (3 : Int) + n > 0
        omega
      constructor
      · rw [storedFirst, if_pos hold]
        rfl
      · rw [storedLen, if_pos hold]
        rfl

/-! ## Reading segments -/

/-- The cursor goes from `ld` to `ld'` and delivers `px`, in calls of `pll_getseg` for
some of the pixels left in the current segment. -/
inductive Reads (ll : List Int) : LlDes → List Int → LlDes → Prop where
  | nil (ld : LlDes) : Reads ll ld [] ld
  | getseg {ld ld' : LlDes} {px : List Int} (np : Nat) (hpos : 0 < np)
      (hnp : (np : Int) ≤ ld.nleft) (h : Reads ll (pllGetseg ll ld np).1 px ld') :
      Reads ll ld (List.replicate np (pllGetseg ll ld np).2 ++ px) ld'

/-- However it is read, the cursor delivers `line`: nothing else, and all of it before
no pixels are left.  It stays within the words before `last`. -/
def LlDes.DeliversTo (ll : List Int) (last : Int) (ld : LlDes) (line : List Int) : Prop :=
  ∀ px ld', Reads ll ld px ld' →
    px <+: line ∧ (ld'.nleft ≤ 0 → px = line) ∧ ld'.ip ≤ last

variable {ll line : List Int} {last : Int} {ld : LlDes}

theorem pllGetseg_within {np : Int} (h : np < ld.nleft) :
    pllGetseg ll ld np = ({ ld with nleft := ld.nleft - np }, ld.value) := by
  have hmore : ¬ ld.nleft - np ≤ 0 := by omega
  simp only [pllGetseg, if_neg hmore]

theorem pllGetseg_queued (h : ld.nextNleft > 0) :
    pllGetseg ll ld ld.nleft =
      ({ ld with nleft := ld.nextNleft, value := ld.nextValue, nextNleft := 0 },
        ld.value) := by
  have hdone : ld.nleft - ld.nleft ≤ 0 := by omega
  simp only [pllGetseg, if_pos hdone, if_pos h]

theorem pllGetseg_next (h : ld.nextNleft = 0) :
    pllGetseg ll ld ld.nleft = (pllNextseg ll { ld with nleft := 0 }, ld.value) := by
  have hdone : ld.nleft - ld.nleft ≤ 0 := by omega
  have hzero : ld.nleft - ld.nleft = 0 := by omega
  have hnone : ¬ ld.nextNleft > 0 := by omega
  simp only [pllGetseg, if_pos hdone, if_neg hnone]
  rw [hzero]

theorem LlDes.deliversTo_end (hleft : ld.nleft ≤ 0) (hip : ld.ip ≤ last) :
    ld.DeliversTo ll last line ↔ line = [] := by
  constructor
  · intro h
    exact ((h [] ld (.nil ld)).2.1 hleft).symm
  · rintro rfl px ld' hreads
    cases hreads with
    | nil => exact ⟨List.prefix_refl [], fun _ => rfl, hip⟩
    | getseg np hpos hnp _ => omega

theorem LlDes.deliversTo_segment (n : Nat) :
    ∀ {ld : LlDes}, ld.nleft = n → 0 < n →
      (ld.DeliversTo ll last (List.replicate n ld.value ++ line) ↔
        ld.ip ≤ last ∧ (pllGetseg ll ld n).1.DeliversTo ll last line) := by
  induction n using Nat.strong_induction_on with
  | _ n ih =>
      intro ld hleft hpos
      constructor
      · intro h
        constructor
        · exact (h [] ld (.nil ld)).2.2
        · intro px ld' hreads
          obtain ⟨hpre, hend, hip⟩ := h _ ld' (.getseg n hpos (by omega) hreads)
          refine ⟨?_, fun hdone => ?_, hip⟩
          · exact (List.prefix_append_right_inj _).mp hpre
          · exact List.append_cancel_left (hend hdone)
      · rintro ⟨hip, h⟩ px ld' hreads
        cases hreads with
        | nil =>
            refine ⟨List.nil_prefix, fun hdone => ?_, hip⟩
            omega
        | @getseg _ _ px np hnp hle hrest =>
            by_cases hall : np = n
            · subst hall
              obtain ⟨hpre, hend, hlast⟩ := h px ld' hrest
              refine ⟨?_, fun hdone => ?_, hlast⟩
              · exact (List.prefix_append_right_inj _).mpr hpre
              · rw [hend hdone]
                rfl
            · -- Some pixels of the segment are left.
              have hcursor : (pllGetseg ll ld np).1 = { ld with nleft := ld.nleft - np } :=
                congrArg Prod.fst (pllGetseg_within (by omega))
              have hsame : pllGetseg ll { ld with nleft := ld.nleft - np } (n - np : Nat) =
                  pllGetseg ll ld n := by
                have hsub : ld.nleft - np - (n - np : Nat) = ld.nleft - n := by omega
                unfold pllGetseg
                simp only [hsub]
              have hmore := (@ih (n - np) (by omega)
                { ld with nleft := ld.nleft - np } (by simp only; omega)
                (by omega)).mpr ⟨hip, hsame ▸ h⟩
              rw [hcursor] at hrest
              obtain ⟨hpre, hend, hlast⟩ := hmore px ld' hrest
              have hsplit : List.replicate n ld.value ++ line =
                  List.replicate np ld.value ++ (List.replicate (n - np) ld.value ++ line) := by
                rw [← List.append_assoc, List.replicate_append_replicate]
                congr 3
                omega
              rw [hsplit]
              refine ⟨?_, fun hdone => ?_, hlast⟩
              · exact (List.prefix_append_right_inj _).mpr hpre
              · rw [hend hdone]
                rfl

/-! ## The next segment -/

/-- An instruction that only changes the high value. -/
def Instr.Silent : Instr → Prop
  | .sh _ | .ih _ | .dh _ => True
  | _ => False

instance : DecidablePred Instr.Silent
  | .sh _ | .ih _ | .dh _ => .isTrue trivial
  | .zn _ | .hn _ | .pn _ | .is _ | .ds _ => .isFalse id

theorem Instr.Legal.output_eq_nil {i : Instr} (hi : i.Legal) (hi' : Int) :
    i.output hi' = [] ↔ i.Silent := by
  cases i with
  | zn n | hn n =>
      have hn : n ≠ 0 := by
        have := hi.1
        omega
      simp [Instr.output, Instr.Silent, hn]
  | pn n => simp [Instr.output, Instr.Silent]
  | sh v | ih n | dh n | is n | ds n => simp [Instr.output, Instr.Silent]

/-- The state in which `pll_nextseg` leaves its loop after the instruction. -/
def LlDes.load (ld : LlDes) (i : Instr) : LlDes :=
  let next := { ld with ip := ld.ip + i.words.length, hi := i.high ld.hi }
  match i with
  | .zn n => { next with nleft := n, value := 0 }
  | .hn n => { next with nleft := n, value := ld.hi }
  | .pn n => { next with nleft := (n : Int) - 1, value := 0, nextNleft := 1, nextValue := ld.hi }
  | .is n => { next with nleft := 1, value := ld.hi + n }
  | .ds n => { next with nleft := 1, value := ld.hi - n }
  | _ => next

/-- One instruction of the loop: a silent one is passed over, any other ends it. -/
theorem LlDes.scanNext_words {before after : List Int} {i : Instr} (hi : i.Legal)
    (hll : ll = before ++ (i.words ++ after)) (hip : ld.ip = before.length + 1)
    (hin : ld.ip ≤ llLen ll) (n : Nat) :
    ld.scanNext ll (n + 1) = if i.Silent then (ld.load i).scanNext ll n else ld.load i := by
  have hword : word ll ld.ip = i.opcode * 4096 + i.data := by
    rw [hip]
    exact word_of_words hll
  rw [LlDes.scanNext, if_pos hin, hword, hi.iOpcode_word, hi.iData_word]
  cases i with
  | sh v =>
      have hw : word ll (ld.ip + 1) = v / 4096 := by
        rw [hip]
        exact word_of_extra hll
      have hvalue : v / 4096 * 4096 + v % 4096 = v := by omega
      simp [Instr.opcode, Instr.data, Instr.Silent, LlDes.load, Instr.words, Instr.high, hw,
        hvalue]
  | zn d | hn d | pn d | ih d | dh d | is d | ds d => rfl

/-- The words up to the last instruction that puts out pixels. -/
def pixelWords : List Instr → Nat
  | [] => 0
  | i :: is =>
      if i.Silent ∧ pixelWords is = 0 then 0 else i.words.length + pixelWords is

theorem pixelWords_eq_zero (is : List Instr) :
    pixelWords is = 0 ↔ ∀ i ∈ is, i.Silent := by
  induction is with
  | nil => simp [pixelWords]
  | cons i is ih =>
      have hwords : 0 < i.words.length := by
        rw [Instr.words_eq]
        exact Nat.succ_pos _
      rw [pixelWords, List.forall_mem_cons, ← ih]
      split
      case isTrue h => exact iff_of_true rfl h
      case isFalse h => exact iff_of_false (by omega) h

theorem expand_eq_nil {is : List Instr} (hok : ∀ i ∈ is, i.Legal) (hi : Int) :
    expand hi is = [] ↔ pixelWords is = 0 := by
  rw [pixelWords_eq_zero]
  induction is generalizing hi with
  | nil => simp
  | cons i is ih =>
      obtain ⟨hlegal, hrest⟩ := List.forall_mem_cons.mp hok
      rw [expand_cons, List.append_eq_nil_iff, hlegal.output_eq_nil, ih hrest,
        List.forall_mem_cons]

/-- `LL_LEN` of the list, which bounds the cursor, leaves out no word of the pixels
and takes in no word after the `n` words of instructions. -/
def LenCovers (ll : List Int) (start n : Nat) (is : List Instr) : Prop :=
  (pixelWords is = 0 ∨ start + pixelWords is ≤ llLen ll) ∧ llLen ll ≤ start + n

/-- The state in which `pll_nextseg` is called after the current segments. -/
def LlDes.spent (ld : LlDes) : LlDes :=
  if ld.nextNleft > 0 then { ld with nleft := 0, value := ld.nextValue, nextNleft := 0 }
  else { ld with nleft := 0 }

theorem LlDes.spent_fields (h : 0 ≤ ld.nextNleft) :
    ld.spent.ip = ld.ip ∧ ld.spent.hi = ld.hi ∧ ld.spent.nleft = 0 ∧
      ld.spent.nextNleft = 0 := by
  unfold LlDes.spent
  split
  · exact ⟨rfl, rfl, rfl, rfl⟩
  · exact ⟨rfl, rfl, rfl, by simp only; omega⟩

theorem LlDes.deliversTo_segments {n m : Nat} (hn : ld.nleft = n) (hpos : 0 < n)
    (hm : ld.nextNleft = m) :
    ld.DeliversTo ll last
        (List.replicate n ld.value ++ (List.replicate m ld.nextValue ++ line)) ↔
      ld.ip ≤ last ∧ (pllNextseg ll ld.spent).DeliversTo ll last line := by
  rw [LlDes.deliversTo_segment n hn hpos, ← hn]
  rcases Nat.eq_zero_or_pos m with rfl | hqueued
  · have hspent : ld.spent = { ld with nleft := 0 } := if_neg (by omega)
    rw [pllGetseg_next (by omega), hspent]
    simp
  · have hgt : ld.nextNleft > 0 := by omega
    have hspent : ld.spent = { ld with nleft := 0, value := ld.nextValue, nextNleft := 0 } :=
      if_pos hgt
    rw [pllGetseg_queued hgt, hspent]
    have hnext := @LlDes.deliversTo_segment ll line last m
      { ld with nleft := ld.nextNleft, value := ld.nextValue, nextNleft := 0 } hm hqueued
    have hget := @pllGetseg_next ll
      { ld with nleft := ld.nextNleft, value := ld.nextValue, nextNleft := 0 } rfl
    simp only [hm] at hnext hget ⊢
    rw [hnext, hget]
    simp only [and_self_left]

theorem LlDes.load_output {i : Instr} (hi : i.Legal) (hloud : ¬ i.Silent)
    (hnext : ld.nextNleft = 0) :
    ∃ n m : Nat, (ld.load i).nleft = n ∧ (ld.load i).nextNleft = m ∧
      (n = 0 ↔ i = .pn 1) ∧
      i.output (i.high ld.hi) =
        List.replicate n (ld.load i).value ++ List.replicate m (ld.load i).nextValue := by
  cases i with
  | zn d | hn d =>
      refine ⟨d, 0, rfl, hnext, ?_, by simp [Instr.output, LlDes.load, Instr.high]⟩
      exact iff_of_false (by have := hi.1; omega) (by simp)
  | pn d =>
      have hd : 1 ≤ d := hi.1
      refine ⟨d - 1, 1, ?_, rfl, ?_, rfl⟩
      · change (d : Int) - 1 = (d - 1 : Nat)
        omega
      · rw [Instr.pn.injEq]
        omega
  | is d | ds d =>
      refine ⟨1, 0, rfl, hnext, ?_, by simp [Instr.output, LlDes.load, Instr.high]⟩
      exact iff_of_false (by decide) (by simp)
  | sh v | ih d | dh d => exact absurd trivial hloud

theorem LlDes.load_fields (ld : LlDes) (i : Instr) :
    (ld.load i).ip = ld.ip + i.words.length ∧ (ld.load i).hi = i.high ld.hi ∧
      (i.Silent → (ld.load i).nleft = ld.nleft ∧ (ld.load i).nextNleft = ld.nextNleft) := by
  cases i with
  | sh v | ih d | dh d => exact ⟨rfl, rfl, fun _ => ⟨rfl, rfl⟩⟩
  | zn d | hn d | pn d | is d | ds d => exact ⟨rfl, rfl, fun h => absurd h (by simp [Instr.Silent])⟩

theorem LlDes.scanNext_ip (n : Nat) :
    ∀ ld : LlDes, ld.ip ≤ (ld.scanNext ll n).ip ∧
      (ld.ip ≤ llLen ll → 0 < n → ld.ip < (ld.scanNext ll n).ip) := by
  induction n with
  | zero => exact fun ld => ⟨Int.le_refl _, fun _ h => absurd h (by decide)⟩
  | succ n ih =>
      intro ld
      rw [LlDes.scanNext]
      split
      case isFalse hout => exact ⟨Int.le_refl _, fun hin => absurd hin hout⟩
      dsimp only
      have hsh := ih { ld with ip := ld.ip + 2, hi := word ll (ld.ip + 1) * iShift + iData (word ll ld.ip) }
      have hih := ih { ld with ip := ld.ip + 1, hi := ld.hi + iData (word ll ld.ip) }
      have hdh := ih { ld with ip := ld.ip + 1, hi := ld.hi - iData (word ll ld.ip) }
      have hnone := ih { ld with ip := ld.ip + 1 }
      dsimp only at hsh hih hdh hnone
      split_ifs <;> first | omega | (dsimp only; omega)

/-- The cursor delivers the pixels of the instructions exactly when none of them is a
PN of one pixel and its bound covers them. -/
theorem LlDes.deliversTo_scanNext (is : List Instr) :
    ∀ {before after : List Int} {ld : LlDes} {n : Nat},
      ll = before ++ (packed is ++ after) → (∀ i ∈ is, i.Legal) →
      ld.ip = before.length + 1 → ld.nleft = 0 → ld.nextNleft = 0 →
      (llLen ll - ld.ip + 1).toNat ≤ n →
      last = before.length + (packed is).length + 1 →
      ((ld.scanNext ll n).DeliversTo ll last (expand ld.hi is) ↔
        (∀ i ∈ is, i ≠ .pn 1) ∧ LenCovers ll before.length (packed is).length is) := by
  induction is with
  | nil =>
      intro before after ld n hll _ hip hleft hnext hn hlast
      unfold LenCovers
      simp only [pixelWords, packed_nil, List.length_nil] at hlast ⊢
      by_cases hin : ld.ip ≤ llLen ll
      · -- The word after the list is read.
        have hread := (LlDes.scanNext_ip n ld).2 hin (by omega)
        apply iff_of_false
        · intro h
          have hbound := (h [] _ (.nil _)).2.2
          omega
        · rintro ⟨-, -, hle⟩
          omega
      · have hscan : ld.scanNext ll n = { ld with value := 0 } := by
          cases n with
          | zero => rfl
          | succ n => rw [LlDes.scanNext, if_neg hin]
        rw [hscan]
        apply iff_of_true
        · exact (LlDes.deliversTo_end (by simp only; omega) (by simp only; omega)).mpr rfl
        · exact ⟨by simp, .inl trivial, by omega⟩
  | cons i is ih =>
      intro before after ld n hll hok hip hleft hnext hn hlast
      obtain ⟨hi, hrest⟩ := List.forall_mem_cons.mp hok
      have hll' : ll = before ++ (i.words ++ (packed is ++ after)) := by
        simpa using hll
      have hll'' : ll = (before ++ i.words) ++ (packed is ++ after) := by
        rw [hll', List.append_assoc]
      have hlen : (packed (i :: is)).length = i.words.length + (packed is).length := by
        rw [packed_cons, List.length_append]
      have hwords : 0 < i.words.length := by
        rw [Instr.words_eq]
        exact Nat.succ_pos _
      by_cases hin : ld.ip ≤ llLen ll
      case neg =>
        have hscan : ld.scanNext ll n = { ld with value := 0 } := by
          cases n with
          | zero => rfl
          | succ n => rw [LlDes.scanNext, if_neg hin]
        rw [hscan, LlDes.deliversTo_end (by simp only; omega) (by simp only; omega),
          expand_eq_nil hok]
        unfold LenCovers
        constructor
        · intro hnone
          have hsilent := (pixelWords_eq_zero _).mp hnone
          refine ⟨?_, .inl hnone, by omega⟩
          rintro j hj rfl
          exact hsilent _ hj
        · rintro ⟨-, hnone | hle, -⟩
          · exact hnone
          · omega
      obtain ⟨m, rfl⟩ : ∃ m, n = m + 1 := ⟨n - 1, by omega⟩
      obtain ⟨hip', hhi', hkept⟩ := ld.load_fields i
      rw [LlDes.scanNext_words hi hll' hip hin, expand_cons, List.forall_mem_cons]
      have hstart : ((before ++ i.words).length : Int) = before.length + i.words.length := by
        simp
      by_cases hsilent : i.Silent
      · obtain ⟨hleft', hnext'⟩ := hkept hsilent
        have hout := (hi.output_eq_nil (i.high ld.hi)).mpr hsilent
        have hscan := @ih (before ++ i.words) after (ld.load i) m hll'' hrest (by omega)
          (by omega) (by omega) (by omega) (by omega)
        rw [hhi'] at hscan
        rw [if_pos hsilent, hout, List.nil_append, hscan]
        have hone : i ≠ .pn 1 := by
          rintro rfl
          exact hsilent
        rw [and_iff_right hone]
        apply and_congr_right
        intro _
        unfold LenCovers
        rw [pixelWords]
        split
        case isTrue h =>
          have hnone := h.2
          omega
        case isFalse h =>
          have hsome : pixelWords is ≠ 0 := fun hnone => h ⟨hsilent, hnone⟩
          omega
      · rw [if_neg hsilent]
        obtain ⟨k, q, hk, hq, hzero, hout⟩ := LlDes.load_output hi hsilent hnext
        by_cases hone : i = .pn 1
        · -- A PN of one pixel begins with no zeros, which looks like the end.
          apply iff_of_false
          · intro h
            have hend := (h [] _ (.nil _)).2.1 (by have := hzero.mpr hone; omega)
            have hnil := (List.append_eq_nil_iff.mp hend.symm).1
            exact hsilent ((hi.output_eq_nil _).mp hnil)
          · rintro ⟨⟨hne, -⟩, -⟩
            exact hne hone
        · obtain ⟨hspip, hsphi, hspleft, hspnext⟩ :=
            @LlDes.spent_fields (ld.load i) (by omega)
          have hscan := @ih (before ++ i.words) after (ld.load i).spent
            (llLen ll - (ld.load i).spent.ip + 1).toNat hll'' hrest (by omega) hspleft
            hspnext (Nat.le_refl _) (by omega)
          rw [hsphi, hhi'] at hscan
          rw [hout, List.append_assoc,
            LlDes.deliversTo_segments hk (by have := mt hzero.mp hone; omega) hq]
          have hnextseg : pllNextseg ll (ld.load i).spent =
              (ld.load i).spent.scanNext ll (llLen ll - (ld.load i).spent.ip + 1).toNat := rfl
          rw [hnextseg, hscan, and_iff_right (by omega), and_iff_right hone]
          apply and_congr_right
          intro _
          have hword : i.words.length = 1 := by
            cases i <;> first | rfl | exact absurd trivial hsilent
          unfold LenCovers
          rw [pixelWords, if_neg fun h => hsilent h.1]
          omega

/-! ## The readers agree -/

/-- Whatever memory follows the list, the cursor and `pl_l2p` see the pixels that its
instructions regenerate, and the cursor stays inside the stored length. -/
def ReadersAgree (hdr : List Int) (is : List Instr) : Prop :=
  ∀ rest ll, ll = hdr ++ (packed is ++ rest) →
    (pllInit ll).DeliversTo ll (storedLen ll + 1) (expand 1 is) ∧
      ∀ a npix : Nat, 0 < npix → plL2p ll (a + 1) npix = window a npix (expand 1 is) ++
        List.replicate (npix - (window a npix (expand 1 is)).length) 0

theorem readersAgree_iff {hdr : List Int} {is : List Instr}
    (hhdr : ListHeader (packed is).length hdr) (hok : ∀ i ∈ is, i.Legal) :
    ReadersAgree hdr is ↔ (∀ i ∈ is, i ≠ .pn 1) ∧
      ∀ rest, LenCovers (hdr ++ (packed is ++ rest)) hdr.length (packed is).length is := by
  have hlong : 0 < hdr.length := by
    cases hhdr with
    | current nref blen h => exact Nat.succ_pos _
    | old nref blen h => exact Nat.succ_pos _
  have hdelivers : ∀ rest ll, ll = hdr ++ (packed is ++ rest) →
      ((pllInit ll).DeliversTo ll (storedLen ll + 1) (expand 1 is) ↔
        (∀ i ∈ is, i ≠ .pn 1) ∧ LenCovers ll hdr.length (packed is).length is) := by
    intro rest ll hll
    obtain ⟨hfirst, hlen⟩ := hhdr.stored (packed is ++ rest)
    rw [← hll] at hfirst hlen
    exact @LlDes.deliversTo_scanNext ll _ is _ _ ⟨0, 0, storedFirst ll, 1, 0, 0⟩ _ hll hok
      hfirst rfl rfl (Nat.le_refl _) (by omega)
  constructor
  · intro h
    have hcovers : ∀ rest, (∀ i ∈ is, i ≠ .pn 1) ∧
        LenCovers (hdr ++ (packed is ++ rest)) hdr.length (packed is).length is :=
      fun rest => (hdelivers rest _ rfl).mp (h rest _ rfl).1
    exact ⟨(hcovers []).1, fun rest => (hcovers rest).2⟩
  · rintro ⟨hone, hcovers⟩ rest ll hll
    constructor
    · exact (hdelivers rest ll hll).mpr ⟨hone, hll ▸ hcovers rest⟩
    · obtain ⟨hfirst, hlen⟩ := hhdr.stored (packed is ++ rest)
      rw [← hll] at hfirst hlen
      exact fun a npix hnpix => plL2p_of_packed hll hok hfirst hlen hlong a hnpix

theorem pixelWords_le (is : List Instr) : pixelWords is ≤ (packed is).length := by
  induction is with
  | nil => exact Nat.le_refl _
  | cons i is ih =>
      rw [pixelWords, packed_cons, List.length_append]
      split <;> omega

theorem lenCovers_current {is : List Instr} (nref blen : Int)
    (h : llCurhdrlen + (packed is).length < 2 ^ 30) (rest : List Int) :
    LenCovers (header nref (llCurhdrlen + (packed is).length) blen ++ (packed is ++ rest))
      llCurhdrlen (packed is).length is := by
  have hll := llLen_header nref (llCurhdrlen + (packed is).length) blen (packed is ++ rest)
    (by omega) (by exact_mod_cast h)
  have hle := pixelWords_le is
  unfold LenCovers
  rw [hll]
  omega

/-- The example of the documentation begins with a PN of one pixel, and the length
read from the words of an old list of a HN and a ZN is another one. -/
theorem not_readersAgree_example :
    ¬ ReadersAgree (header 1 14 14) [.pn 1, .pn 3, .zn 3, .hn 4, .pn 4, .zn 7, .hn 17] ∧
      ¬ ReadersAgree [1, 5, 5] [.hn 3, .zn 2] := by
  constructor
  · intro h
    have hend := ((h [] _ rfl).1 [] _ (.nil _)).2.1 (by decide)
    exact absurd hend (by decide)
  · intro h
    -- The word after the list is taken for one more HN.
    have hreads : Reads ([1, 5, 5, 16387, 2] ++ [16385])
        (pllInit ([1, 5, 5, 16387, 2] ++ [16385])) [1, 1, 1, 0, 0]
        ⟨1, 1, 7, 1, 0, 0⟩ := by
      exact .getseg 3 (by decide) (by decide) (.getseg 2 (by decide) (by decide) (.nil _))
    have hlast := ((h [16385] _ rfl).1 _ _ hreads).2.2
    exact absurd hlast (by decide)

theorem readersAgree_zeros :
    ReadersAgree (header 1 (llCurhdrlen + (packed [.zn 5]).length) 8) [.zn 5] :=
  (readersAgree_iff (.current 1 8 (by decide)) (by decide)).mpr
    ⟨by decide, lenCovers_current 1 8 (by decide)⟩

end Iraf.Plio
