import Iraf.Boot.Wtar

/-!
# What is found in a header block

The fields that `putheader` wrote are decoded by `getheader`, one lemma for each kind
of field.
-/

namespace Iraf.Boot

open Numeral

variable {n width size bits k : Nat} {ds rest text : List UInt8} {c : UInt8} {old x : Int}

/-! ## Octal numbers -/

theorem octalDigit (h : k < 8) :
    isOctal (UInt8.ofNat (48 + k)) = true ∧ (UInt8.ofNat (48 + k)).toNat - 48 = k := by
  interval_cases k <;> decide

theorem isOctal_of_mem (h : c ∈ octal n) : isOctal c = true := by
  obtain ⟨d, hd, rfl⟩ := List.mem_map.1 h
  exact (octalDigit (lt_of_mem_numeral (by omega) hd)).1

theorem octal_ne_nil : octal n ≠ [] := by
  simpa [octal] using numeral_ne_nil

theorem value_octal : value 8 ((octal n).map fun ch => ch.toNat - 48) = n := by
  have hmap : (octal n).map (fun ch => ch.toNat - 48) = numeral 8 n := by
    rw [octal, List.map_map]
    conv_rhs => rw [← List.map_id (numeral 8 n)]
    exact List.map_congr_left fun d hd => (octalDigit (lt_of_mem_numeral (by omega) hd)).2
  rw [hmap, value_numeral]

theorem length_octal_le_iff (hk : 0 < k) : (octal n).length ≤ k ↔ n < 8 ^ k := by
  rw [octal, List.length_map, length_numeral_le_iff (by omega) hk]

theorem isOctal_range (h : isOctal c = true) :
    isspace c = false ∧ c ≠ 45 ∧ c ≠ 43 ∧ c ≠ 0 ∧ c.toNat - 48 < 8 := by
  have hrange : 48 ≤ c.toNat ∧ c.toNat ≤ 55 := by
    simpa [isOctal, UInt8.le_iff_toNat_le] using h
  refine ⟨?_, ?_, ?_, ?_, by omega⟩
  · rw [← Bool.not_eq_true]
    intro hspace
    simp [isspace, UInt8.le_iff_toNat_le, ← UInt8.toNat_inj] at hspace
    omega
  all_goals
    rintro rfl
    revert hrange
    decide

theorem sscanfOctal_digits (hne : ds ≠ []) (hds : ∀ d ∈ ds, isOctal d = true)
    (hc : isOctal c = false) :
    sscanfOctal bits (List.replicate k blank ++ (ds ++ c :: rest)) old =
      signed bits (unsigned bits (value 8 (ds.map fun ch => ch.toNat - 48) : Nat)) := by
  have htake : (ds ++ c :: rest).takeWhile isOctal = ds := by
    rw [List.takeWhile_append_of_pos hds, List.takeWhile_cons_of_neg (by simp [hc]),
      List.append_nil]
  have hspace : (List.replicate k blank ++ (ds ++ c :: rest)).dropWhile isspace =
      ds ++ c :: rest := by
    rw [List.dropWhile_append_of_pos (by
      intro b hb
      rw [List.eq_of_mem_replicate hb]
      rfl)]
    cases ds with
    | nil => exact absurd rfl hne
    | cons d ds =>
        have hd := isOctal_range (hds d List.mem_cons_self)
        rw [List.cons_append, List.dropWhile_cons_of_neg (by simp [hd.1])]
  have hsign : scanSign (ds ++ c :: rest) = (false, ds ++ c :: rest) := by
    cases ds with
    | nil => exact absurd rfl hne
    | cons d ds =>
        have hd := isOctal_range (hds d List.mem_cons_self)
        rw [List.cons_append, scanSign, if_neg hd.2.1, if_neg hd.2.2.1]
  simp only [sscanfOctal, hspace, hsign, htake, if_neg hne]
  rfl

theorem unsigned_of_range (h : 0 ≤ x ∧ x < 2 ^ bits) : unsigned bits x = x.toNat := by
  rw [unsigned, Int.emod_eq_of_lt h.1 h.2]

theorem signed_unsigned (hbits : 0 < bits) (h : 0 ≤ x ∧ x < 2 ^ (bits - 1)) :
    signed bits (unsigned bits x) = x := by
  have hpow : (2 : Int) ^ bits = 2 * 2 ^ (bits - 1) := by
    rw [← pow_succ', Nat.sub_add_cancel hbits]
  have hlt : x.toNat < 2 ^ (bits - 1) := by
    zify
    rw [Int.toNat_of_nonneg h.1]
    exact h.2
  have hle : (2 : Nat) ^ (bits - 1) ≤ 2 ^ bits := Nat.pow_le_pow_right (by omega) (by omega)
  rw [unsigned_of_range ⟨h.1, by omega⟩, signed, Nat.mod_eq_of_lt (by omega), if_pos hlt,
    sub_zero, Int.toNat_of_nonneg h.1]

/-! ## Fields -/

@[simp] theorem length_field : (field n text).length = n := by
  simp only [field, List.length_append, List.length_take, List.length_replicate]
  omega

theorem field_of_le (h : text.length ≤ n) :
    field n text = text ++ List.replicate (n - text.length) 0 := by
  rw [field, List.take_of_length_le h]

theorem field_of_ge (h : n ≤ text.length) : field n text = text.take n := by
  rw [field, Nat.sub_eq_zero_of_le h, List.replicate_zero, List.append_nil]

theorem formatOctal_eq :
    formatOctal width n = List.replicate (width - (octal n).length) blank ++ octal n := rfl

theorem numberField_eq (hlen : (octal n).length < size) (hwidth : width < size) :
    ∃ k c rest, field size (snprintf size (formatOctal width n ++ [blank])) =
        List.replicate k blank ++ (octal n ++ c :: rest) ∧ isOctal c = false := by
  have hformat : (formatOctal width n).length < size := by
    rw [formatOctal_eq, List.length_append, List.length_replicate]
    omega
  by_cases hroom : (formatOctal width n ++ [blank]).length ≤ size - 1
  · rw [snprintf, List.take_of_length_le hroom, field_of_le (by omega), formatOctal_eq,
      List.append_assoc, List.append_assoc, List.append_assoc]
    exact ⟨_, blank, _, rfl, rfl⟩
  · have htake : snprintf size (formatOctal width n ++ [blank]) = formatOctal width n := by
      rw [List.length_append, List.length_singleton] at hroom
      exact List.take_left' (by omega)
    have hzeros : List.replicate (size - (formatOctal width n).length) (0 : UInt8) =
        0 :: List.replicate (size - (formatOctal width n).length - 1) 0 := by
      rw [← List.replicate_succ, Nat.sub_add_cancel (by omega)]
    rw [htake, field_of_le hformat.le, hzeros, formatOctal_eq, List.append_assoc]
    exact ⟨_, 0, _, rfl, rfl⟩

theorem numberField_cut (hlen : size ≤ (octal n).length) (hwidth : width < size) :
    field size (snprintf size (formatOctal width n ++ [blank])) =
      (octal n).take (size - 1) ++ [0] := by
  have hcut : snprintf size (formatOctal width n ++ [blank]) = (octal n).take (size - 1) := by
    have hpad : width - (octal n).length = 0 := by omega
    rw [snprintf, formatOctal_eq, hpad, List.replicate_zero, List.nil_append,
      List.take_append_of_le_length (by omega)]
  have hlength : ((octal n).take (size - 1)).length = size - 1 := by
    rw [List.length_take]
    omega
  rw [hcut, field_of_le (by omega), hlength, Nat.sub_sub_self (by omega)]
  rfl

theorem cstring_field (hlen : text.length < n) (hchars : 0 ∉ text) :
    (field n text ++ rest).takeWhile (· ≠ 0) = text := by
  have hzeros : List.replicate (n - text.length) (0 : UInt8) =
      0 :: List.replicate (n - text.length - 1) 0 := by
    rw [← List.replicate_succ, Nat.sub_add_cancel (by omega)]
  rw [field_of_le hlen.le, hzeros, List.append_assoc, List.takeWhile_append_of_pos,
    List.cons_append, List.takeWhile_cons_of_neg (by simp), List.append_nil]
  intro c hc
  have hne : c ≠ 0 := fun heq => hchars (heq ▸ hc)
  simpa using hne

/-! ## Numbers -/

theorem sscanfOctal_number (hbits : 8 ^ (size - 1) ≤ 2 ^ (bits - 1)) (hpos : 0 < bits)
    (hwidth : width < size) (hsize : 1 < size) (hx : 0 ≤ x ∧ x < 8 ^ (size - 1)) :
    sscanfOctal bits
      (field size (snprintf size (formatOctal width (unsigned bits x) ++ [blank])) ++ rest)
      old = x := by
  have hlt : x < 2 ^ (bits - 1) := by
    have hcast : ((8 ^ (size - 1) : Nat) : Int) ≤ ((2 ^ (bits - 1) : Nat) : Int) := by
      exact_mod_cast hbits
    push_cast at hcast
    omega
  have hrange : x < 2 ^ bits := by
    have hle : (2 : Int) ^ (bits - 1) ≤ 2 ^ bits := by
      exact_mod_cast Nat.pow_le_pow_right (by omega) (by omega)
    omega
  have hoctal : (octal (unsigned bits x)).length ≤ size - 1 := by
    rw [length_octal_le_iff (by omega), unsigned_of_range ⟨hx.1, hrange⟩]
    zify
    rw [Int.toNat_of_nonneg hx.1]
    exact hx.2
  have hfits : (octal (unsigned bits x)).length < size := by omega
  obtain ⟨k, c, more, hfield, hc⟩ := numberField_eq hfits hwidth
  rw [hfield, List.append_assoc, List.append_assoc, List.cons_append,
    sscanfOctal_digits octal_ne_nil (fun d hd => isOctal_of_mem hd) hc, value_octal,
    unsigned_of_range ⟨hx.1, hrange⟩, Int.toNat_of_nonneg hx.1]
  exact signed_unsigned hpos ⟨hx.1, hlt⟩

theorem sscanfOctal_take (hk : 0 < k) (hbits : 8 ^ k ≤ 2 ^ (bits - 1)) (hpos : 0 < bits) :
    0 ≤ sscanfOctal bits ((octal n).take k ++ 0 :: rest) old ∧
      sscanfOctal bits ((octal n).take k ++ 0 :: rest) old < 8 ^ k := by
  have hne : (octal n).take k ≠ [] := by
    rw [Ne, List.take_eq_nil_iff, not_or]
    exact ⟨by omega, octal_ne_nil⟩
  have hds : ∀ d ∈ (octal n).take k, isOctal d = true := fun d hd =>
    isOctal_of_mem (List.mem_of_mem_take hd)
  have hvalue : value 8 (((octal n).take k).map fun ch => ch.toNat - 48) < 8 ^ k := by
    refine (value_lt (by omega) fun d hd => ?_).trans_le
      (Nat.pow_le_pow_right (by omega) ?_)
    · obtain ⟨ch, hch, rfl⟩ := List.mem_map.1 hd
      exact (isOctal_range (hds ch hch)).2.2.2.2
    · rw [List.length_map, List.length_take]
      omega
  have hscan : sscanfOctal bits (List.replicate 0 blank ++ ((octal n).take k ++ 0 :: rest)) old =
      _ := sscanfOctal_digits hne hds rfl
  rw [List.replicate_zero, List.nil_append] at hscan
  rw [hscan, signed_unsigned hpos ⟨by omega, by
    have hlt := hvalue.trans_le hbits
    exact_mod_cast hlt⟩]
  exact ⟨by omega, by exact_mod_cast hvalue⟩

theorem sscanfOctal_mtime (hlong : -2 ^ 63 ≤ x ∧ x < 2 ^ 63) (hbig : x < 0 ∨ 8 ^ 11 ≤ x) :
    sscanfOctal 64
      (field 12 (snprintf 12 (formatOctal 11 (unsigned 64 x) ++ [blank])) ++ rest) old ≠ x := by
  have hge : 8 ^ 11 ≤ unsigned 64 x := by
    unfold unsigned
    omega
  have hlen : 12 ≤ (octal (unsigned 64 x)).length := by
    have hnot : ¬ (octal (unsigned 64 x)).length ≤ 11 := by
      rw [length_octal_le_iff (by omega)]
      omega
    omega
  obtain ⟨hnonneg, hlt⟩ : 0 ≤ sscanfOctal 64 ((octal (unsigned 64 x)).take 11 ++ 0 :: rest) old ∧
      sscanfOctal 64 ((octal (unsigned 64 x)).take 11 ++ 0 :: rest) old < 8 ^ 11 :=
    sscanfOctal_take (by omega) (by norm_num) (by omega)
  rw [numberField_cut hlen (by omega), List.append_assoc, List.singleton_append]
  change sscanfOctal 64 ((octal (unsigned 64 x)).take 11 ++ 0 :: rest) old ≠ x
  omega

/-! ## Places -/

section Places

variable (fh : Fheader) (chk : List UInt8)

theorem length_beforeChksum : (beforeChksum fh).length = chksumAt := by
  simp [beforeChksum, namsiz, chksumAt]

theorem length_afterChksum : (afterChksum fh).length = tblock - linkflagAt := by
  rw [afterChksum, List.length_cons, List.length_append, length_field, List.length_replicate]
  rfl

theorem length_chksumField {stale : UInt8} {sum : Int} :
    (chksumField stale sum).length = 8 := by
  have hsum : 6 ≤ (snprintf 8 (formatOctal 6 (unsigned 32 sum))).length := by
    rw [snprintf, List.length_take, formatOctal_eq, List.length_append, List.length_replicate]
    omega
  rw [chksumField, List.length_take, List.length_append]
  simp only [List.length_cons, List.length_nil]
  omega

theorem length_headerWith (h : chk.length = 8) : (headerWith fh chk).length = tblock := by
  rw [headerWith, List.length_append, List.length_append, length_beforeChksum,
    length_afterChksum, h]
  rfl

theorem headerWith_places :
    (∃ rest, headerWith fh chk = field namsiz (fh.name.take (namsiz - 1)) ++ rest) ∧
    (∃ rest, (headerWith fh chk).drop modeAt =
      field 8 (snprintf 8 (formatOctal 6 (unsigned 32 fh.mode) ++ [blank])) ++ rest) ∧
    (∃ rest, (headerWith fh chk).drop uidAt =
      field 8 (snprintf 8 (formatOctal 6 (unsigned 32 fh.uid) ++ [blank])) ++ rest) ∧
    (∃ rest, (headerWith fh chk).drop gidAt =
      field 8 (snprintf 8 (formatOctal 6 (unsigned 32 fh.gid) ++ [blank])) ++ rest) ∧
    (∃ rest, (headerWith fh chk).drop sizeAt =
      field 12 (snprintf 12 (formatOctal 11 (unsigned 64 fh.size) ++ [blank])) ++ rest) ∧
    (∃ rest, (headerWith fh chk).drop mtimeAt =
      field 12 (snprintf 12 (formatOctal 11 (unsigned 64 fh.mtime) ++ [blank])) ++ rest) := by
  have hdrop {n k : Nat} {text more : List UInt8} :
      (field n text ++ more).drop (n + k) = more.drop k := by
    have hlen : (field n text).length = n := length_field
    rw [← List.drop_drop, List.drop_left' hlen]
  simp only [headerWith, beforeChksum, List.append_assoc]
  refine ⟨⟨_, rfl⟩, ⟨_, hdrop (k := 0)⟩, ?_, ?_, ?_, ?_⟩
  · exact ⟨_, hdrop (k := 8).trans (hdrop (k := 0))⟩
  · exact ⟨_, hdrop (k := 16).trans (hdrop (k := 8).trans (hdrop (k := 0)))⟩
  · exact ⟨_, hdrop (k := 24).trans (hdrop (k := 16).trans (hdrop (k := 8).trans
      (hdrop (k := 0))))⟩
  · exact ⟨_, hdrop (k := 36).trans (hdrop (k := 28).trans (hdrop (k := 20).trans
      (hdrop (k := 12).trans (hdrop (k := 0)))))⟩

variable {fh chk}

theorem drop_chksumAt : (headerWith fh chk).drop chksumAt = chk ++ afterChksum fh :=
  List.drop_left' (length_beforeChksum fh)

theorem drop_linkflagAt (h : chk.length = 8) :
    (headerWith fh chk).drop linkflagAt = afterChksum fh := by
  rw [show linkflagAt = chksumAt + 8 from rfl, ← List.drop_drop, drop_chksumAt,
    List.drop_left' h]

theorem getD_eq_head {place : Nat} {bytes more : List UInt8} (h : bytes.drop place = c :: more) :
    bytes.getD place 0 = c := by
  have hget : (bytes.drop place)[0]? = some c := by rw [h, List.getElem?_cons_zero]
  rw [List.getElem?_drop, Nat.add_zero] at hget
  rw [List.getD_eq_getElem?_getD, hget, Option.getD_some]

theorem getD_linkflagAt (h : chk.length = 8) :
    (headerWith fh chk).getD linkflagAt 0 = linkflagByte fh.linkflag :=
  getD_eq_head (drop_linkflagAt h)

theorem drop_linknameAt (h : chk.length = 8) : (headerWith fh chk).drop linknameAt =
    field namsiz (fh.linkname.take (namsiz - 1)) ++ List.replicate 255 0 := by
  rw [show linknameAt = linkflagAt + 1 from rfl, ← List.drop_drop, drop_linkflagAt h]
  rfl

theorem blanked_headerWith (h : chk.length = 8) :
    blanked (headerWith fh chk) = headerWith fh blankChksum := by
  rw [blanked, drop_linkflagAt h, headerWith, List.take_left' (length_beforeChksum fh)]
  rfl

end Places

/-! ## The checksum -/

theorem cchksum_range (bytes : List UInt8) :
    -128 * (bytes.length : Int) ≤ cchksum bytes ∧ cchksum bytes ≤ 127 * bytes.length := by
  induction bytes with
  | nil => exact ⟨le_rfl, le_rfl⟩
  | cons b bytes ih =>
      have hb : -128 ≤ schar b ∧ schar b ≤ 127 := by
        have hlt := b.toNat_lt
        unfold schar
        split <;> omega
      have hsum : cchksum (b :: bytes) = schar b + cchksum bytes := List.sum_cons
      rw [hsum, List.length_cons]
      push_cast
      omega

theorem headerSum_range (fh : Fheader) : -65536 ≤ headerSum fh ∧ headerSum fh < 8 ^ 6 := by
  obtain ⟨hlow, hhigh⟩ := cchksum_range (headerWith fh blankChksum)
  have hlen : (headerWith fh blankChksum).length = 512 := length_headerWith fh _ rfl
  rw [hlen] at hlow hhigh
  unfold headerSum
  omega

theorem digits_ne_zero {place : Nat} {bytes : List UInt8} (hne : ds ≠ [])
    (hds : ∀ d ∈ ds, isOctal d = true)
    (h : bytes.drop place = List.replicate k blank ++ (ds ++ rest)) :
    bytes.getD place 0 ≠ 0 := by
  cases k with
  | zero =>
      cases ds with
      | nil => exact absurd rfl hne
      | cons d ds =>
          rw [getD_eq_head (h.trans rfl)]
          exact (isOctal_range (hds d List.mem_cons_self)).2.2.2.1
  | succ k =>
      rw [getD_eq_head (h.trans (by rw [List.replicate_succ, List.cons_append]))]
      decide

theorem chksumField_eq {stale : UInt8} (h : 0 ≤ x ∧ x < 8 ^ 6) :
    ∃ k, chksumField stale x = List.replicate k blank ++ (octal x.toNat ++ [0, stale]) := by
  have hunsigned : unsigned 32 x = x.toNat := unsigned_of_range ⟨h.1, by omega⟩
  have hlen : (octal x.toNat).length ≤ 6 := by
    rw [length_octal_le_iff (by omega)]
    omega
  have hformat : (formatOctal 6 x.toNat).length = 6 := by
    rw [formatOctal_eq, List.length_append, List.length_replicate]
    omega
  refine ⟨6 - (octal x.toNat).length, ?_⟩
  have hprint : snprintf 8 (formatOctal 6 x.toNat) = formatOctal 6 x.toNat :=
    List.take_of_length_le (by omega)
  rw [chksumField, hunsigned, hprint, List.take_of_length_le (by simp [hformat]),
    formatOctal_eq, List.append_assoc]

theorem chksumField_cut {stale : UInt8} (h : -65536 ≤ x ∧ x < 0) :
    chksumField stale x = (octal (unsigned 32 x)).take 7 ++ [0] := by
  have hbig : 8 ^ 10 ≤ unsigned 32 x := by
    unfold unsigned
    omega
  have hlen : 10 < (octal (unsigned 32 x)).length := by
    by_contra hle
    rw [not_lt, length_octal_le_iff (by omega)] at hle
    omega
  have hpad : 6 - (octal (unsigned 32 x)).length = 0 := by omega
  have htake : ((octal (unsigned 32 x)).take 7).length = 7 := by
    rw [List.length_take]
    omega
  rw [chksumField, snprintf, formatOctal_eq, hpad, List.replicate_zero, List.nil_append]
  change ((octal (unsigned 32 x)).take 7 ++ [0, stale]).take 8 = _
  rw [List.take_append, htake, List.take_of_length_le (by omega)]
  rfl

/-- The block that `putheader` wrote is taken for a header exactly when the sum of its
bytes is not negative. -/
theorem testHeader_headerBytes (stale : UInt8) (fh : Fheader) (tapeChecksum : Int) :
    (testHeader (headerBytes stale fh) tapeChecksum).1 =
      if 0 ≤ headerSum fh then .header else .badSum := by
  have hlen : (chksumField stale (headerSum fh)).length = 8 := length_chksumField
  have hblanked : cchksum (blanked (headerBytes stale fh)) = headerSum fh :=
    congrArg cchksum (blanked_headerWith hlen)
  have hrange := headerSum_range fh
  have hdrop : (headerBytes stale fh).drop chksumAt =
      chksumField stale (headerSum fh) ++ afterChksum fh := drop_chksumAt
  by_cases hsum : 0 ≤ headerSum fh
  · obtain ⟨k, hfield⟩ : ∃ k, chksumField stale (headerSum fh) =
        List.replicate k blank ++ (octal (headerSum fh).toNat ++ [0, stale]) :=
      chksumField_eq ⟨hsum, hrange.2⟩
    rw [hfield, List.append_assoc, List.append_assoc] at hdrop
    have hne := digits_ne_zero octal_ne_nil (fun d hd => isOctal_of_mem hd) hdrop
    have hscan : sscanfOctal 32 ((headerBytes stale fh).drop chksumAt) tapeChecksum =
        headerSum fh := by
      rw [hdrop, List.cons_append, sscanfOctal_digits octal_ne_nil (fun d hd => isOctal_of_mem hd)
        rfl, value_octal, Int.toNat_of_nonneg hsum]
      exact signed_unsigned (by omega) ⟨hsum, by omega⟩
    rw [testHeader, if_neg fun h => hne h.1, hscan, hblanked, if_pos hsum]
    exact if_pos rfl
  · have hneg : -65536 ≤ headerSum fh ∧ headerSum fh < 0 := ⟨hrange.1, by omega⟩
    rw [chksumField_cut hneg, List.append_assoc, List.singleton_append] at hdrop
    have hne : (headerBytes stale fh).getD chksumAt 0 ≠ 0 := by
      refine digits_ne_zero (k := 0) ?_ (fun d hd => ?_) hdrop
      · rw [Ne, List.take_eq_nil_iff, not_or]
        exact ⟨by omega, octal_ne_nil⟩
      · exact isOctal_of_mem (List.mem_of_mem_take hd)
    have hscan : 0 ≤ sscanfOctal 32 ((headerBytes stale fh).drop chksumAt) tapeChecksum := by
      rw [hdrop]
      exact (sscanfOctal_take (by omega) (by norm_num) (by omega)).1
    rw [testHeader, if_neg fun h => hne h.1, hblanked, if_neg hsum]
    exact if_neg (by omega)

/-! ## The header of an entry -/

namespace Entry

variable (e : Entry) (old : Fheader)

/-- The sum of the header is not negative, and its field can hold the time. -/
def Readable : Prop :=
  0 ≤ headerSum e.toFheader ∧ 0 ≤ e.mtime ∧ e.mtime < 8 ^ 11

/-- What is decoded from the block that was written for the entry. -/
def decoded : Fheader := decodeHeader (headerBytes e.stale e.toFheader) old

theorem size_nonneg : 0 ≤ e.size := by
  rw [e.size_eq]
  split <;> omega

theorem decoded_name : (e.decoded old).name = e.name := by
  obtain ⟨⟨rest, hname⟩, -⟩ := headerWith_places e.toFheader
    (chksumField e.stale (headerSum e.toFheader))
  have hlt := e.name_lt
  change ((headerWith _ _).drop 0).takeWhile (· ≠ 0) = e.name
  rw [List.drop_zero, hname, List.take_of_length_le (by omega)]
  exact cstring_field hlt e.name_chars

theorem decoded_isdir_eq (h : e.linkflag ≠ lfSymlink) : (e.decoded old).isdir = e.isdir := by
  have hslash : (e.decoded old).isdir = decide ((e.decoded old).name.getLast? = some slash) := rfl
  rw [hslash, e.decoded_name, e.isdir_eq, decide_eq_decide]
  constructor
  · intro hname
    obtain hfile | hsymlink | hisdir := e.kind
    · exact absurd hname (e.file_name hfile)
    · exact absurd hsymlink h
    · exact hisdir
  · exact e.dir_name

theorem decoded_mode : (e.decoded old).mode = e.mode := by
  obtain ⟨-, ⟨rest, hmode⟩, -⟩ := headerWith_places e.toFheader
    (chksumField e.stale (headerSum e.toFheader))
  change sscanfOctal 32 ((headerWith _ _).drop modeAt) old.mode = e.mode
  rw [hmode]
  exact sscanfOctal_number (by norm_num) (by omega) (by omega) (by omega) e.mode_range

theorem decoded_size : (e.decoded old).size = e.size := by
  obtain ⟨-, -, -, -, ⟨rest, hsize⟩, -⟩ := headerWith_places e.toFheader
    (chksumField e.stale (headerSum e.toFheader))
  change sscanfOctal 64 ((headerWith _ _).drop sizeAt) old.size = e.size
  rw [hsize]
  exact sscanfOctal_number (by norm_num) (by omega) (by omega) (by omega)
    ⟨e.size_nonneg, e.size_lt⟩

theorem decoded_mtime :
    (e.decoded old).mtime = e.mtime ↔ 0 ≤ e.mtime ∧ e.mtime < 8 ^ 11 := by
  obtain ⟨-, -, -, -, -, rest, hmtime⟩ := headerWith_places e.toFheader
    (chksumField e.stale (headerSum e.toFheader))
  change sscanfOctal 64 ((headerWith _ _).drop mtimeAt) old.mtime = e.mtime ↔ _
  rw [hmtime]
  constructor
  · intro heq
    by_contra hbig
    exact sscanfOctal_mtime e.isLong (by omega) heq
  · intro hrange
    exact sscanfOctal_number (by norm_num) (by omega) (by omega) (by omega) hrange

theorem decoded_linkflag : (e.decoded old).linkflag = e.linkflag := by
  change linkflagOf ((headerWith _ _).getD linkflagAt 0) = e.linkflag
  rw [getD_linkflagAt length_chksumField]
  obtain h | h | h := e.kind <;> rw [h] <;> rfl

theorem decoded_linkname (h : e.linkflag ≠ 0) : (e.decoded old).linkname = e.linkname := by
  have hlt := e.linkname_lt
  have hflag := e.decoded_linkflag old
  change (if linkflagOf ((headerWith _ _).getD linkflagAt 0) = 0 then old.linkname
    else ((headerWith _ _).drop linknameAt).takeWhile (· ≠ 0)) = e.linkname
  rw [if_neg (by rw [← hflag] at h; exact h), drop_linknameAt length_chksumField,
    List.take_of_length_le (by omega)]
  exact cstring_field hlt e.linkname_chars

end Entry

end Iraf.Boot
