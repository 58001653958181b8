import Iraf.Plio.LineList

/-!
# Line list to pixel array

`plL2p` executes the instructions of a list and keeps the pixels of a window.
-/

namespace Iraf.Plio

/-- The variables of `pl_l2p`: the next pixel is number `x1` of the line, the
high value is `pv`, and `out` has been stored in `px_dst[1..op-1]`. -/
structure L2p where
  x1 : Int
  pv : Int
  out : List Int
  deriving DecidableEq, Repr

/-- The inbounds part of a segment that a ZN, HN or PN regenerates. -/
def L2p.segment (xs xe opcode data : Int) (s : L2p) : L2p :=
  let x2 := s.x1 + data - 1
  let i1 := max s.x1 xs
  let i2 := min x2 xe
  let np := i2 - i1 + 1
  let seg :=
    if opcode = iHn then List.replicate np.toNat s.pv
    else if opcode = iPn ∧ i2 = x2 then
      List.replicate (np - 1).toNat 0 ++ [s.pv]
    else List.replicate np.toNat 0
  { s with out := if np > 0 then s.out ++ seg else s.out, x1 := x2 + 1 }

/-- The single pixel of an IS or DS. -/
def L2p.putpix (xs xe : Int) (s : L2p) : L2p :=
  { s with
    out := if xs ≤ s.x1 ∧ s.x1 ≤ xe then s.out ++ [s.pv] else s.out
    x1 := s.x1 + 1 }

/-- Execute the instruction at `ip`; the flag tells to skip the next word. -/
def L2p.step (ll : List Int) (xs xe ip : Int) (s : L2p) : L2p × Bool :=
  let opcode := iOpcode (word ll ip)
  let data := iData (word ll ip)
  if opcode = iZn ∨ opcode = iHn ∨ opcode = iPn then
    (s.segment xs xe opcode data, false)
  else if opcode = iSh then
    ({ s with pv := word ll (ip + 1) * iShift + data }, true)
  else if opcode = iIh then ({ s with pv := s.pv + data }, false)
  else if opcode = iDh then ({ s with pv := s.pv - data }, false)
  else if opcode = iIs then
    ({ s with pv := s.pv + data }.putpix xs xe, false)
  else if opcode = iDs then
    ({ s with pv := s.pv - data }.putpix xs xe, false)
  else (s, false)

/-- `do ip = ll_first, ll_len`, with `n` words left and the `skipword` flag. -/
def L2p.loop (ll : List Int) (xs xe : Int) : Nat → Int → Bool → L2p → L2p
  | 0, _, _, s => s
  | n + 1, ip, true, s => L2p.loop ll xs xe n (ip + 1) false s
  | n + 1, ip, false, s =>
      let (s, skipword) := s.step ll xs xe ip
      if s.x1 > xe then s else L2p.loop ll xs xe n (ip + 1) skipword s

/-- The pixels stored in `px_dst`; their number is the value of the function,
and nothing is stored when it is zero. -/
def plL2p (ll : List Int) (xs npix : Int) : List Int :=
  let len := if LlOldformat ll then ollLen ll else llLen ll
  let first := if LlOldformat ll then ollFirst else llFirst ll
  if npix ≤ 0 ∨ len ≤ 0 then []
  else
    let xe := xs + npix - 1
    let s := L2p.loop ll xs xe (len - first + 1).toNat first false ⟨1, 1, []⟩
    s.out ++ List.replicate (npix.toNat - s.out.length) 0

/-! ## The window of a line -/

/-- The pixels `a + 1` to `a + n` of a line, as far as it goes. -/
def window (a n : Nat) (line : List Int) : List Int := (line.drop a).take n

theorem window_append (a n : Nat) (line seg : List Int) :
    window a n (line ++ seg) = window a n line ++
      (seg.drop (a - line.length)).take (n - (line.length - a)) := by
  simp [window, List.drop_append, List.take_append]

theorem window_append_of_le {a n : Nat} {line : List Int}
    (h : a + n ≤ line.length) (seg : List Int) :
    window a n (line ++ seg) = window a n line := by
  have hnone : n - (line.length - a) = 0 := by omega
  simp [window_append, hnone]

/-- The variables are those reached after `line` has been regenerated. -/
structure L2p.At (a n : Nat) (s : L2p) (line : List Int) : Prop where
  x1 : s.x1 = line.length + 1
  out : s.out = window a n line

variable {a n : Nat} {s : L2p} {line : List Int}

theorem L2p.At.segment (h : s.At a n line) {opcode : Int} {data : Nat}
    {seg : List Int} (hlen : seg.length = data)
    (hseg : ∀ i j : Nat, i < j → j ≤ data →
      (seg.drop i).take (j - i) =
        if opcode = iHn then List.replicate (j - i) s.pv
        else if opcode = iPn ∧ j = data then
          List.replicate (j - i - 1) 0 ++ [s.pv]
        else List.replicate (j - i) 0) :
    (s.segment (a + 1) (a + n) opcode data).At a n (line ++ seg) := by
  obtain ⟨hx1, hout⟩ := h
  refine ⟨by simp only [L2p.segment, List.length_append]; omega, ?_⟩
  rw [window_append, ← hout]
  simp only [L2p.segment, hx1]
  by_cases hin : a - line.length < min data (a + n - line.length)
  · have hpart := hseg (a - line.length) (min data (a + n - line.length)) hin
      (Nat.min_le_left _ _)
    have hnp : min ((line.length : Int) + 1 + data - 1) (a + n) -
        max ((line.length : Int) + 1) (a + 1) + 1 =
          (min data (a + n - line.length) - (a - line.length) : Nat) := by omega
    have hcut : (seg.drop (a - line.length)).take
        (n - (line.length - a)) =
          (seg.drop (a - line.length)).take
            (min data (a + n - line.length) - (a - line.length)) := by
      rw [List.take_eq_take_iff, List.length_drop]
      omega
    have hlast : (min ((line.length : Int) + 1 + data - 1) (a + n) =
        (line.length : Int) + 1 + data - 1) ↔
          min data (a + n - line.length) = data := by omega
    have hone : ((min data (a + n - line.length) - (a - line.length) : Nat) -
        1 : Int).toNat =
          min data (a + n - line.length) - (a - line.length) - 1 := by omega
    rw [hcut, hpart, hnp, if_pos (by omega)]
    simp only [hlast, hone, Int.toNat_natCast]
  · have hnp : ¬ min ((line.length : Int) + 1 + data - 1) (a + n) -
        max ((line.length : Int) + 1) (a + 1) + 1 > 0 := by omega
    have hcut : (seg.drop (a - line.length)).take (n - (line.length - a)) =
        [] := by
      rw [List.take_eq_nil_iff, List.drop_eq_nil_iff]
      omega
    rw [if_neg hnp, hcut, List.append_nil]

theorem L2p.At.putpix (h : s.At a n line) :
    (s.putpix (a + 1) (a + n)).At a n (line ++ [s.pv]) := by
  obtain ⟨hx1, hout⟩ := h
  refine ⟨by simp only [L2p.putpix, List.length_append]; simp; omega, ?_⟩
  rw [window_append, ← hout]
  simp only [L2p.putpix, hx1]
  by_cases hin : a ≤ line.length ∧ line.length < a + n
  · have hstart : a - line.length = 0 := by omega
    obtain ⟨m, hm⟩ : ∃ m, n - (line.length - a) = m + 1 :=
      ⟨n - (line.length - a) - 1, by omega⟩
    rw [if_pos (by omega), hstart, hm]
    simp
  · have hcut : ([s.pv].drop (a - line.length)).take (n - (line.length - a)) =
        [] := by
      rw [List.take_eq_nil_iff, List.drop_eq_nil_iff]
      simp only [List.length_singleton]
      omega
    rw [if_neg (by omega), hcut, List.append_nil]

/-! ## Executing the instructions of a list -/

theorem word_of_words {ll before after : List Int} {i : Instr}
    (hll : ll = before ++ (i.words ++ after)) :
    word ll (before.length + 1) = i.opcode * 4096 + i.data := by
  have h := word_append_right before (i.words ++ after) 0
  rw [← hll] at h
  simpa [Instr.words_eq] using h

theorem word_of_extra {ll before after : List Int} {v : Int}
    (hll : ll = before ++ ((Instr.sh v).words ++ after)) :
    word ll (before.length + 1 + 1) = v / 4096 := by
  have h := word_append_right before ((Instr.sh v).words ++ after) 1
  rw [← hll] at h
  simpa [Instr.words] using h

theorem L2p.At.silent (h : s.At a n line) {s' : L2p} (hx1 : s'.x1 = s.x1)
    (hout : s'.out = s.out) : s'.At a n (line ++ []) := by
  rw [List.append_nil]
  exact ⟨hx1.trans h.x1, hout.trans h.out⟩

private theorem pn_part (v : Int) {d i j : Nat} (hij : i < j) (hj : j ≤ d) :
    ((List.replicate (d - 1) 0 ++ [v]).drop i).take (j - i) =
      if j = d then List.replicate (j - i - 1) 0 ++ [v]
      else List.replicate (j - i) 0 := by
  have hzero : i - (d - 1) = 0 := by omega
  rw [List.drop_append, List.length_replicate, hzero, List.drop_zero,
    List.drop_replicate]
  split
  next hlast =>
    subst hlast
    rw [List.take_of_length_le (by simp; omega), Nat.sub_right_comm]
  next hlast =>
    have hfit : j - i ≤ d - 1 - i := by omega
    rw [List.take_append_of_le_length (by simpa using hfit),
      List.take_replicate, Nat.min_eq_left hfit]

theorem L2p.At.step (h : s.At a n line) {ll before after : List Int}
    {i : Instr} (hi : i.Legal) (hll : ll = before ++ (i.words ++ after)) :
    (s.step ll (a + 1) (a + n) (before.length + 1)).1.At a n
        (line ++ i.output (i.high s.pv)) ∧
      (s.step ll (a + 1) (a + n) (before.length + 1)).1.pv = i.high s.pv ∧
      (s.step ll (a + 1) (a + n) (before.length + 1)).2 =
        decide (i.extra ≠ []) := by
  unfold L2p.step
  rw [word_of_words hll, hi.iOpcode_word, hi.iData_word]
  cases i with
  | zn d =>
      refine ⟨h.segment List.length_replicate fun i j hij hj => ?_, rfl, rfl⟩
      rw [Instr.output, List.drop_replicate, List.take_replicate,
        Nat.min_eq_left (by omega)]
      rfl
  | hn d =>
      refine ⟨h.segment List.length_replicate fun i j hij hj => ?_, rfl, rfl⟩
      rw [Instr.output, List.drop_replicate, List.take_replicate,
        Nat.min_eq_left (by omega)]
      rfl
  | pn d =>
      have hd : 1 ≤ d := hi.1
      have hlen : (List.replicate (d - 1) 0 ++ [s.pv]).length = d := by
        simp
        omega
      refine ⟨h.segment hlen fun i j hij hj => ?_, rfl, rfl⟩
      rw [Instr.output, Instr.high, pn_part s.pv hij hj]
      simp [Instr.opcode]
  | sh v =>
      have hhigh := word_of_extra hll
      have hvalue : v / 4096 * 4096 + v % 4096 = v := by omega
      refine ⟨h.silent rfl rfl, ?_, rfl⟩
      simp [Instr.opcode, Instr.data, Instr.high, hhigh, hvalue]
  | ih d => exact ⟨h.silent rfl rfl, rfl, rfl⟩
  | dh d => exact ⟨h.silent rfl rfl, rfl, rfl⟩
  | is d =>
      have hpv : L2p.At a n { s with pv := s.pv + d } line := ⟨h.x1, h.out⟩
      exact ⟨hpv.putpix, rfl, rfl⟩
  | ds d =>
      have hpv : L2p.At a n { s with pv := s.pv - d } line := ⟨h.x1, h.out⟩
      exact ⟨hpv.putpix, rfl, rfl⟩

theorem L2p.At.full (h : s.At a n line) (hfull : s.x1 > a + n)
    (seg : List Int) : s.out = window a n (line ++ seg) := by
  have hx1 := h.x1
  rw [window_append_of_le (by omega), h.out]

theorem L2p.At.loop {ll : List Int} (is : List Instr) :
    ∀ {before after : List Int} {s : L2p} {line : List Int}, s.At a n line →
      (∀ i ∈ is, i.Legal) → ll = before ++ (packed is ++ after) →
      (L2p.loop ll (a + 1) (a + n) (packed is).length (before.length + 1)
        false s).out = window a n (line ++ expand s.pv is) := by
  induction is with
  | nil =>
      intro before after s line h _ _
      simpa [L2p.loop] using h.out
  | cons i is ih =>
      intro before after s line h hok hll
      have hll' : ll = before ++ (i.words ++ (packed is ++ after)) := by
        simpa using hll
      obtain ⟨hat, hpv, hskip⟩ := h.step (hok i (by simp)) hll'
      have hrest := @ih (before ++ i.words) after _ _ hat
        (fun j hj => hok j (by simp [hj])) (by simpa using hll')
      rw [hpv, List.append_assoc] at hrest
      rw [expand_cons]
      have hlen : (packed (i :: is)).length =
          (packed is).length + i.extra.length + 1 := by
        simp [Instr.words_eq]
        omega
      rw [hlen, L2p.loop]
      generalize s.step ll (a + 1) (a + n) (before.length + 1) = r
        at hat hpv hskip hrest ⊢
      obtain ⟨s', skip⟩ := r
      by_cases hdone : s'.x1 > a + n
      · simp only [if_pos hdone]
        rw [hat.full hdone (expand (i.high s.pv) is), List.append_assoc]
      · simp only [if_neg hdone]
        cases hextra : i.extra with
        | nil =>
            have hip : ((before ++ i.words).length : Int) =
                before.length + 1 := by
              simp [Instr.words_eq, hextra]
            simp only [hextra] at hskip
            rw [← hrest, hip, hskip]
            rfl
        | cons w ws =>
            have hone : ws = [] := by
              cases i <;> simp [Instr.extra] at hextra
              exact hextra.2
            have hip : ((before ++ i.words).length : Int) =
                before.length + 1 + 1 := by
              simp [Instr.words_eq, hextra, hone]
              omega
            simp only [hextra] at hskip
            rw [← hrest, hip, hskip, hone]
            rfl

/-- The length and the first word of a list of either format. -/
def storedLen (ll : List Int) : Int := if LlOldformat ll then ollLen ll else llLen ll
def storedFirst (ll : List Int) : Int :=
  if LlOldformat ll then ollFirst else llFirst ll

/-- Decoding a window of stored instructions gives the pixels they regenerate, and
zeros past their end. -/
theorem plL2p_of_packed {ll hdr rest : List Int} {is : List Instr}
    (hll : ll = hdr ++ (packed is ++ rest)) (hok : ∀ i ∈ is, i.Legal)
    (hfirst : storedFirst ll = hdr.length + 1)
    (hlen : storedLen ll = hdr.length + (packed is).length) (hhdr : 0 < hdr.length)
    (a : Nat) {npix : Nat} (hnpix : 0 < npix) :
    plL2p ll (a + 1) npix = window a npix (expand 1 is) ++
      List.replicate (npix - (window a npix (expand 1 is)).length) 0 := by
  have hstart : L2p.At a npix ⟨1, 1, []⟩ [] := ⟨rfl, by simp [window]⟩
  have hloop := @L2p.At.loop _ _ _ is hdr rest _ _ hstart hok hll
  have hcount : (storedLen ll - storedFirst ll + 1).toNat = (packed is).length := by omega
  have hxe : (a : Int) + 1 + npix - 1 = a + npix := by omega
  unfold plL2p
  change (if (npix : Int) ≤ 0 ∨ storedLen ll ≤ 0 then [] else
    let s := L2p.loop ll (a + 1) (a + 1 + npix - 1)
      (storedLen ll - storedFirst ll + 1).toNat (storedFirst ll) false ⟨1, 1, []⟩
    s.out ++ List.replicate ((npix : Int).toNat - s.out.length) 0) = _
  rw [if_neg (by omega), hcount, hxe, hfirst]
  rw [List.nil_append] at hloop
  simp only [hloop, Int.toNat_natCast]

/-- Decoding a window of a stored line gives its pixels, and zeros past its
end. -/
theorem plL2p_of_encodes {ll line : List Int} (h : Encodes ll line) (a : Nat)
    {npix : Nat} (hnpix : 0 < npix) :
    plL2p ll (a + 1) npix = window a npix line ++
      List.replicate (npix - (window a npix line).length) 0 := by
  obtain ⟨nref, blen, is, rest, rfl, hok, rfl, hlen⟩ := h
  have hnew := not_oldformat_header nref (llCurhdrlen + (packed is).length) blen
    (packed is ++ rest)
  have hll := llLen_header nref (llCurhdrlen + (packed is).length) blen
    (packed is ++ rest) (by omega) (by exact_mod_cast hlen)
  apply plL2p_of_packed rfl (fun i hi => (hok i hi).legal) _ _ _ a hnpix
  · rw [storedFirst, if_neg hnew, llFirst_header, length_header]
    rfl
  · rw [storedLen, if_neg hnew, hll, length_header]
  · rw [length_header]
    decide

theorem plL2p_eq_window {ll line : List Int} (h : Encodes ll line) {a n : Nat}
    (hn : 0 < n) (hle : a + n ≤ line.length) :
    plL2p ll (a + 1) n = window a n line := by
  have hlen : (window a n line).length = n := by
    simp only [window, List.length_take, List.length_drop]
    omega
  rw [plL2p_of_encodes h a hn, hlen, Nat.sub_self]
  simp

theorem plL2p_eq_line {ll line : List Int} (h : Encodes ll line)
    (hline : line ≠ []) : plL2p ll 1 line.length = line := by
  have hpos := List.length_pos_iff.mpr hline
  have hread := plL2p_eq_window h (a := 0) hpos (by omega)
  simpa [window] using hread

end Iraf.Plio
