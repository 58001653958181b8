import Iraf.Plio.LineRopCodec
import Iraf.Plio.RangeRop
import Iraf.Plio.RangeWindow

/-!
# Line list to range list

`plL2r` executes the instructions of a list and keeps the ranges of a window.  Its
ranges stand where they do in the line, not in the window.
-/

namespace Iraf.Plio

open RunLength

/-- The variables of `pl_l2r`: the next pixel is number `x1` of the line, and the
last segment had its `np` pixels of value `pv` from `i1` on in the window. -/
structure L2r where
  x1 : Int
  hi : Int
  i1 : Int
  np : Int
  pv : Int
  rl : List RlElem
  deriving DecidableEq, Repr

/-- Determine inbounds region of segment. -/
def L2r.range (xs xe data pv : Int) (s : L2r) : L2r :=
  let x2 := s.x1 + data - 1
  let i1 := max s.x1 xs
  { s with pv := pv, i1 := i1, np := min x2 xe - i1 + 1, x1 := x2 + 1 }

/-- The last pixel of a segment. -/
def L2r.lastpix (xs xe data : Int) (s : L2r) : L2r :=
  let x2 := s.x1 + data - 1
  if x2 < xs ∨ x2 > xe then { s with pv := s.hi, np := 0, x1 := x2 + 1 }
  else { s with pv := s.hi, i1 := x2, np := 1, x1 := x2 + 1 }

def L2r.segment (xs xe opcode data : Int) (s : L2r) : L2r :=
  if opcode = iZn then s.range xs xe data 0
  else if opcode = iHn then s.range xs xe data s.hi
  else if opcode = iPn then s.lastpix xs xe data
  else if opcode = iIs then { s with hi := s.hi + data }.range xs xe 1 (s.hi + data)
  else if opcode = iDs then { s with hi := s.hi - data }.range xs xe 1 (s.hi - data)
  else s

/-- Output a range entry? -/
def L2r.putrange (s : L2r) : L2r :=
  if s.np > 0 ∧ s.pv > 0 then { s with rl := s.rl ++ [⟨s.i1, s.np, s.pv⟩] } else s

/-- `do ip = ll_first, ll_len`, with `n` words left and the `skipword` flag. -/
def L2r.loop (ll : List Int) (xs xe : Int) : Nat → Int → Bool → L2r → L2r
  | 0, _, _, s => s
  | n + 1, ip, true, s => L2r.loop ll xs xe n (ip + 1) false s
  | n + 1, ip, false, s =>
      let opcode := iOpcode (word ll ip)
      let data := iData (word ll ip)
      if opcode = iSh then
        L2r.loop ll xs xe n (ip + 1) true
          { s with hi := word ll (ip + 1) * iShift + data }
      else if opcode = iIh then
        L2r.loop ll xs xe n (ip + 1) false { s with hi := s.hi + data }
      else if opcode = iDh then
        L2r.loop ll xs xe n (ip + 1) false { s with hi := s.hi - data }
      else
        let s := (s.segment xs xe opcode data).putrange
        if s.x1 > xe then s else L2r.loop ll xs xe n (ip + 1) false s

/-- The range list that is stored; nothing is stored when the function returns 0. -/
def plL2r (ll : List Int) (xs npix : Int) : List RlElem :=
  let len := if LlOldformat ll then ollLen ll else llLen ll
  let first := if LlOldformat ll then ollFirst else llFirst ll
  if npix ≤ 0 ∨ len ≤ 0 then []
  else
    let s := L2r.loop ll xs (xs + npix - 1) (len - first + 1).toNat first false
      ⟨1, 1, 0, 0, 0, []⟩
    ⟨s.rl.length + 1, npix, 0⟩ :: s.rl

/-! ## The ranges of a window -/

variable {a n : Nat} {rl : List RlElem} {line : List Int}

theorem length_window (a n : Nat) (line : List Int) :
    (window a n line).length = min n (line.length - a) := by
  simp [window]

/-- The ranges stand for the window of the line. -/
structure InWindow (a n : Nat) (rl : List RlElem) (line : List Int) : Prop where
  ranges : RangesFrom (a + (window a n line).length) (a + 1) rl
  cells : rangeCells (a + (window a n line).length) (a + 1) rl = window a n line

theorem inWindow_nil (a n : Nat) : InWindow a n [] [] := by
  have hnil : window a n [] = [] := by simp [window]
  constructor
  · rw [hnil]
    simp [RangesFrom]
  · rw [hnil]
    simp [rangeCells]

theorem window_append_replicate (a n : Nat) (line : List Int) (d : Nat) (v : Int) :
    window a n (line ++ List.replicate d v) = window a n line ++
      List.replicate (min (d - (a - line.length)) (n - (line.length - a))) v := by
  rw [window_append, List.drop_replicate, List.take_replicate, min_comm]

theorem InWindow.zeros (h : InWindow a n rl line) (d : Nat) :
    InWindow a n rl (line ++ List.replicate d 0) := by
  have happend := window_append_replicate a n line d 0
  obtain ⟨hranges, hcells⟩ := h.ranges.extend
    (min (d - (a - line.length)) (n - (line.length - a)))
  rw [h.cells, ← happend] at hcells
  have hlen : (a : Int) + (window a n (line ++ List.replicate d 0)).length =
      a + (window a n line).length +
        (min (d - (a - line.length)) (n - (line.length - a)) : Nat) := by
    rw [happend, List.length_append, List.length_replicate]
    omega
  rw [← hlen] at hranges hcells
  exact ⟨hranges, hcells⟩

theorem InWindow.run (h : InWindow a n rl line) {d k : Nat} (v : Int)
    (hk : k = min (d - (a - line.length)) (n - (line.length - a))) (hpos : 0 < k) :
    InWindow a n (rl ++ [⟨max line.length a + 1, k, v⟩])
      (line ++ List.replicate d v) := by
  have happend := window_append_replicate a n line d v
  have hend : (a : Int) + (window a n line).length = max line.length a := by
    rw [length_window]
    omega
  obtain ⟨hranges, hcells⟩ := RangesFrom.concat
    (r := ⟨max line.length a + 1, k, v⟩) (by simp only; omega) (by simp only; omega) h.ranges
  rw [h.cells, Int.toNat_natCast, hk, ← happend] at hcells
  have hlen : (a : Int) + (window a n (line ++ List.replicate d v)).length =
      a + (window a n line).length + k := by
    rw [happend, List.length_append, List.length_replicate]
    omega
  rw [← hk] at hcells
  rw [← hlen] at hranges hcells
  exact ⟨hranges, hcells⟩

theorem InWindow.outside (h : InWindow a n rl line) {d : Nat} (v : Int)
    (hk : min (d - (a - line.length)) (n - (line.length - a)) = 0) :
    InWindow a n rl (line ++ List.replicate d v) := by
  have happend := window_append_replicate a n line d v
  rw [hk, List.replicate_zero, List.append_nil] at happend
  exact ⟨happend.symm ▸ h.ranges, happend.symm ▸ h.cells⟩

/-! ## Executing the instructions of a list -/

/-- The variables are those reached after `line` has been regenerated. -/
structure L2r.At (a n : Nat) (s : L2r) (line : List Int) : Prop where
  x1 : s.x1 = line.length + 1
  inWindow : InWindow a n s.rl line

namespace L2r.At

variable {s : L2r}

theorem range (h : s.At a n line) {d : Nat} {pv : Int} (hpv : 0 ≤ pv ∨ d = 0) :
    ((s.range (a + 1) (a + n) d pv).putrange).At a n (line ++ List.replicate d pv) := by
  obtain ⟨hx1, hwin⟩ := h
  obtain ⟨k, hk⟩ : ∃ k, k = min (d - (a - line.length)) (n - (line.length - a)) := ⟨_, rfl⟩
  have hx1' : s.x1 + d - 1 + 1 = ((line ++ List.replicate d pv).length : Int) + 1 := by
    rw [List.length_append, List.length_replicate]
    omega
  have hnp : 0 < k → min (s.x1 + d - 1) (a + n) - max s.x1 (a + 1) + 1 = k := by omega
  have hsome : min (s.x1 + d - 1) (a + n) - max s.x1 ((a : Int) + 1) + 1 > 0 ↔ 0 < k := by omega
  unfold L2r.range L2r.putrange
  simp only [hsome]
  by_cases hpos : 0 < k
  · by_cases hvalue : pv > 0
    · rw [if_pos ⟨hpos, hvalue⟩]
      have hi1 : max s.x1 ((a : Int) + 1) = max line.length a + 1 := by omega
      refine ⟨hx1', ?_⟩
      simp only [hnp hpos]
      rw [hi1]
      exact hwin.run pv hk hpos
    · rw [if_neg fun hput => hvalue hput.2]
      obtain rfl : pv = 0 := by omega
      exact ⟨hx1', hwin.zeros d⟩
  · rw [if_neg fun hput => hpos hput.1]
    exact ⟨hx1', hwin.outside pv (by omega)⟩

theorem lastpix (h : s.At a n line) {d : Nat} (hd : 1 ≤ d) (hhi : 0 ≤ s.hi) :
    ((s.lastpix (a + 1) (a + n) d).putrange).At a n
      (line ++ (List.replicate (d - 1) 0 ++ [s.hi])) := by
  obtain ⟨hx1, hwin⟩ := h
  have hzeros := hwin.zeros (d - 1)
  have hlen : (line ++ List.replicate (d - 1) 0).length = line.length + (d - 1) := by
    rw [List.length_append, List.length_replicate]
  have hx1' : s.x1 + d - 1 + 1 =
      ((line ++ (List.replicate (d - 1) 0 ++ [s.hi])).length : Int) + 1 := by
    rw [← List.append_assoc, List.length_append, hlen, List.length_singleton]
    omega
  rw [← List.append_assoc] at hx1' ⊢
  have hone : [s.hi] = List.replicate 1 s.hi := rfl
  unfold L2r.lastpix L2r.putrange
  dsimp only
  by_cases hout : s.x1 + d - 1 < (a : Int) + 1 ∨ s.x1 + d - 1 > (a : Int) + n
  · rw [if_pos hout, if_neg (by simp)]
    refine ⟨hx1', ?_⟩
    rw [hone]
    exact hzeros.outside s.hi (by omega)
  · rw [if_neg hout]
    by_cases hvalue : s.hi > 0
    · rw [if_pos ⟨by simp only; omega, hvalue⟩]
      refine ⟨hx1', ?_⟩
      have hi1 : s.x1 + d - 1 = max (line ++ List.replicate (d - 1) (0 : Int)).length a + 1 := by
        omega
      rw [hone, hi1]
      exact hzeros.run (k := 1) s.hi (by omega) Nat.one_pos
    · rw [if_neg fun hput => hvalue hput.2]
      have hzero : s.hi = 0 := by omega
      refine ⟨hx1', ?_⟩
      rw [hone, hzero]
      exact hzeros.zeros 1

theorem silent (h : s.At a n line) {s' : L2r} (hx1 : s'.x1 = s.x1) (hrl : s'.rl = s.rl) :
    s'.At a n line :=
  ⟨hx1.trans h.x1, hrl ▸ h.inWindow⟩

theorem full (h : s.At a n line) (hfull : s.x1 > a + n) (seg : List Int) :
    InWindow a n s.rl (line ++ seg) := by
  have hx1 := h.x1
  have hsame := @window_append_of_le a n line (by omega) seg
  obtain ⟨hranges, hcells⟩ := h.inWindow
  rw [← hsame] at hranges hcells
  exact ⟨hranges, hcells⟩

theorem segment (h : s.At a n line) {i : Instr} (hi : i.Ok)
    (hputs : i.output (i.high s.hi) ≠ []) (hpos : ∀ v ∈ i.output (i.high s.hi), 0 ≤ v) :
    ((s.segment (a + 1) (a + n) i.opcode i.data).putrange).At a n
        (line ++ i.output (i.high s.hi)) ∧
      ((s.segment (a + 1) (a + n) i.opcode i.data).putrange).hi = i.high s.hi := by
  have hkept : ∀ s' : L2r, s'.putrange.hi = s'.hi := by
    intro s'
    unfold L2r.putrange
    split <;> rfl
  rw [hkept]
  cases i with
  | zn d => exact ⟨h.range (.inl (Int.le_refl 0)), rfl⟩
  | hn d =>
      refine ⟨h.range ?_, rfl⟩
      have hd : 1 ≤ d := hi.1
      exact .inl (hpos s.hi (List.mem_replicate.mpr ⟨by omega, rfl⟩))
  | pn d =>
      have hd : 2 ≤ d := hi.1
      refine ⟨h.lastpix (by omega) (hpos s.hi (by simp [Instr.output, Instr.high])), ?_⟩
      change (s.lastpix (a + 1) (a + n) d).hi = s.hi
      unfold L2r.lastpix
      dsimp only
      split <;> rfl
  | sh v | ih d | dh d => exact absurd rfl hputs
  | is d =>
      have hup : L2r.At a n { s with hi := s.hi + d } line := h.silent rfl rfl
      exact ⟨hup.range (d := 1) (.inl (hpos (s.hi + d) (List.mem_singleton.mpr rfl))), rfl⟩
  | ds d =>
      have hdown : L2r.At a n { s with hi := s.hi - d } line := h.silent rfl rfl
      exact ⟨hdown.range (d := 1) (.inl (hpos (s.hi - d) (List.mem_singleton.mpr rfl))), rfl⟩

end L2r.At

/-- The loop on an instruction: a silent one changes the high value, any other puts
out its pixels. -/
theorem L2r.loop_words {ll before after : List Int} {i : Instr} (hi : i.Ok)
    (hll : ll = before ++ (i.words ++ after)) (xs xe : Int) (m : Nat) (s : L2r) :
    L2r.loop ll xs xe (i.words.length + m) (before.length + 1) false s =
      if i.output (i.high s.hi) = [] then
        L2r.loop ll xs xe m ((before ++ i.words).length + 1) false { s with hi := i.high s.hi }
      else
        let s' := (s.segment xs xe i.opcode i.data).putrange
        if s'.x1 > xe then s'
        else L2r.loop ll xs xe m ((before ++ i.words).length + 1) false s' := by
  have hopcode := hi.iOpcode_word
  have hdata := hi.iData_word
  rw [← word_of_words hll] at hopcode hdata
  have hnext (k : Nat) (hk : i.words.length = k) :
      ((before ++ i.words).length : Int) + 1 = before.length + 1 + k := by
    rw [List.length_append, hk]
    omega
  cases i with
  | sh v =>
      have hhigh := word_of_extra hll
      have hvalue : v / 4096 * 4096 + v % 4096 = v := by omega
      have hsilent : (Instr.sh v).output ((Instr.sh v).high s.hi) = [] := rfl
      rw [if_pos hsilent, hnext 2 rfl]
      change L2r.loop ll xs xe (2 + m) (before.length + 1) false s = _
      rw [Nat.add_comm, L2r.loop, hopcode, hdata]
      simp only [Instr.opcode, Instr.data, Instr.high, hhigh, iShift, hvalue, if_pos]
      rw [L2r.loop]
      congr 1
  | ih d =>
      have hsilent : (Instr.ih d).output ((Instr.ih d).high s.hi) = [] := rfl
      rw [if_pos hsilent, hnext 1 rfl]
      change L2r.loop ll xs xe (1 + m) (before.length + 1) false s = _
      rw [Nat.add_comm, L2r.loop, hopcode, hdata]
      rfl
  | dh d =>
      have hsilent : (Instr.dh d).output ((Instr.dh d).high s.hi) = [] := rfl
      rw [if_pos hsilent, hnext 1 rfl]
      change L2r.loop ll xs xe (1 + m) (before.length + 1) false s = _
      rw [Nat.add_comm, L2r.loop, hopcode, hdata]
      rfl
  | zn d | hn d | pn d | is d | ds d =>
      rw [if_neg (by simp_all [Instr.output, Instr.Ok]; try omega), hnext 1 rfl]
      change L2r.loop ll xs xe (1 + m) (before.length + 1) false s = _
      rw [Nat.add_comm, L2r.loop, hopcode, hdata]
      rfl

theorem L2r.At.loop {ll : List Int} (is : List Instr) :
    ∀ {before after : List Int} {s : L2r} {line : List Int}, s.At a n line →
      (∀ i ∈ is, i.Ok) → ll = before ++ (packed is ++ after) →
      (∀ v ∈ expand s.hi is, 0 ≤ v) →
      InWindow a n (L2r.loop ll (a + 1) (a + n) (packed is).length (before.length + 1)
        false s).rl (line ++ expand s.hi is) := by
  induction is with
  | nil =>
      intro before after s line h _ _ _
      simpa [L2r.loop] using h.inWindow
  | cons i is ih =>
      intro before after s line h hok hll hpos
      rw [packed_cons, List.append_assoc] at hll
      have hll' : ll = (before ++ i.words) ++ (packed is ++ after) := by
        rw [hll, List.append_assoc]
      have hi := hok i List.mem_cons_self
      have hrest : ∀ j ∈ is, j.Ok := fun j hj => hok j (List.mem_cons_of_mem _ hj)
      rw [expand_cons] at hpos ⊢
      have hfirst : ∀ v ∈ i.output (i.high s.hi), 0 ≤ v := fun v hv =>
        hpos v (List.mem_append_left _ hv)
      have hlater : ∀ v ∈ expand (i.high s.hi) is, 0 ≤ v := fun v hv =>
        hpos v (List.mem_append_right _ hv)
      rw [packed_cons, List.length_append, L2r.loop_words hi hll]
      split
      case isTrue hsilent =>
        have hat : L2r.At a n { s with hi := i.high s.hi } line := h.silent rfl rfl
        rw [hsilent, List.nil_append]
        exact ih hat hrest hll' hlater
      case isFalse hputs =>
        obtain ⟨hat, hhi⟩ := h.segment hi hputs hfirst
        rw [← List.append_assoc]
        dsimp only
        split
        case isTrue hdone => exact hat.full hdone _
        case isFalse hmore =>
          have hpixels := ih hat hrest hll' (hhi.symm ▸ hlater)
          rwa [hhi] at hpixels

theorem plL2r_of_encodes {ll line : List Int} (h : Encodes ll line)
    (hline : ∀ v ∈ line, 0 ≤ v) (a : Nat) {npix : Nat} (hnpix : 0 < npix) :
    ∃ rl, plL2r ll (a + 1) npix = ⟨rl.length + 1, npix, 0⟩ :: rl ∧
      InWindow a npix rl line := by
  obtain ⟨nref, blen, is, rest, rfl, hok, rfl, hlen⟩ := h
  have hll := llLen_header nref (llCurhdrlen + (packed is).length) blen
    (packed is ++ rest) (by omega) (by exact_mod_cast hlen)
  have hfirst := llFirst_header nref (llCurhdrlen + (packed is).length) blen
    (packed is ++ rest)
  have hstart : L2r.At a npix ⟨1, 1, 0, 0, 0, []⟩ [] := ⟨rfl, inWindow_nil a npix⟩
  have hloop := @L2r.At.loop _ _ _ is
    (header nref (llCurhdrlen + (packed is).length) blen) rest _ _ hstart hok rfl hline
  have hcount : ((llCurhdrlen : Int) + (packed is).length - 8 + 1).toNat =
      (packed is).length := by simp only [llCurhdrlen]; omega
  have hxe : (a : Int) + 1 + npix - 1 = a + npix := by omega
  rw [List.nil_append, length_header] at hloop
  refine ⟨_, ?_, hloop⟩
  unfold plL2r
  simp only [if_neg (not_oldformat_header nref _ blen _), hll, hfirst, hcount, hxe]
  rw [if_neg (by simp only [llCurhdrlen]; omega)]
  rfl

/-! ## Positive values -/

theorem L2r.segment_rl (xs xe opcode data : Int) (s : L2r) :
    (s.segment xs xe opcode data).rl = s.rl := by
  unfold L2r.segment L2r.range L2r.lastpix
  dsimp only
  split_ifs <;> rfl

theorem L2r.putrange_positive {s : L2r} (h : ∀ r ∈ s.rl, 0 < r.v) :
    ∀ r ∈ s.putrange.rl, 0 < r.v := by
  unfold L2r.putrange
  split
  case isTrue hput =>
    intro r hr
    rcases List.mem_append.mp hr with hr | hr
    · exact h r hr
    · rw [List.mem_singleton.mp hr]
      exact hput.2
  case isFalse => exact h

theorem L2r.loop_positive (ll : List Int) (xs xe : Int) (n : Nat) :
    ∀ (ip : Int) (skipword : Bool) (s : L2r), (∀ r ∈ s.rl, 0 < r.v) →
      ∀ r ∈ (L2r.loop ll xs xe n ip skipword s).rl, 0 < r.v := by
  induction n with
  | zero => exact fun _ _ _ h => h
  | succ n ih =>
      intro ip skipword s h
      cases skipword with
      | true => exact ih (ip + 1) false s h
      | false =>
          have hput := (s.segment xs xe (iOpcode (word ll ip))
            (iData (word ll ip))).putrange_positive (by rwa [L2r.segment_rl])
          rw [L2r.loop]
          split
          · exact ih _ _ _ h
          split
          · exact ih _ _ _ h
          split
          · exact ih _ _ _ h
          dsimp only
          split
          · exact hput
          · exact ih _ _ _ hput

theorem plL2r_positive (ll : List Int) (xs npix : Int) :
    ∀ r ∈ (plL2r ll xs npix).tail, 0 < r.v := by
  unfold plL2r
  generalize (if LlOldformat ll then ollLen ll else llLen ll) = len
  generalize (if LlOldformat ll then ollFirst else llFirst ll) = first
  dsimp only
  by_cases hnone : npix ≤ 0 ∨ len ≤ 0
  · rw [if_pos hnone]
    simp
  · rw [if_neg hnone]
    exact L2r.loop_positive ll xs _ _ _ _ _ (by simp)

/-! ## The conversions are exact -/

/-- The range list of a window has the length its header tells, and its ranges are
ordered, positive and inside the window and define the pixels of the window. -/
structure RangesExact (ll : List Int) (xs npix : Int) : Prop where
  length : rlLen (plL2r ll xs npix) = (plL2r ll xs npix).length
  inside : RangesFrom (xs + npix - 1) xs (plL2r ll xs npix).tail
  positive : ∀ r ∈ (plL2r ll xs npix).tail, 0 < r.v
  pixels : rangePixels (plL2r ll xs npix).tail xs npix.toNat = plL2p ll xs npix

theorem rangesExact_of_encodes {ll line : List Int} (h : Encodes ll line)
    (hline : ∀ v ∈ line, 0 ≤ v) {xs npix : Int} (hxs : 1 ≤ xs) (hnpix : 1 ≤ npix) :
    RangesExact ll xs npix := by
  obtain ⟨a, rfl⟩ : ∃ a : Nat, xs = a + 1 := ⟨(xs - 1).toNat, by omega⟩
  obtain ⟨n, rfl⟩ : ∃ n : Nat, npix = n := ⟨npix.toNat, by omega⟩
  obtain ⟨rl, hrl, hranges, hcells⟩ := plL2r_of_encodes h hline a (show 0 < n by omega)
  have hpositive := plL2r_positive ll (a + 1) n
  obtain ⟨hwide, hpad⟩ := hranges.extend (n - (window a n line).length)
  have hle := length_window a n line
  have hend : (a : Int) + (window a n line).length +
      ((n - (window a n line).length : Nat) : Int) = a + 1 + n - 1 := by omega
  have hcount : ((a : Int) + 1 + n - 1 + 1 - (a + 1)).toNat = n := by omega
  rw [hend] at hwide hpad
  have hpixels := hwide.rangePixels
  rw [hcount, hpad, hcells, ← plL2p_of_encodes h a (show 0 < n by omega)] at hpixels
  rw [hrl] at hpositive
  constructor
  · rw [hrl]
    simp [rlLen, rlElem]
  · rw [hrl]
    exact hwide
  · rw [hrl]
    exact hpositive
  · rw [hrl, Int.toNat_natCast]
    exact hpixels

/-- `pl_p2r` and `pl_l2r` of `pl_p2l` define the same pixels. -/
def SameRanges (px : Int → Int) (xs npix : Int) : Prop :=
  rangePixels (plP2r px xs npix).tail xs npix.toNat =
    rangePixels (plL2r (plP2l px xs npix) 1 npix).tail 1 npix.toNat

instance (px : Int → Int) (xs npix : Int) : Decidable (SameRanges px xs npix) := by
  unfold SameRanges
  infer_instance

theorem plL2r_exact (px : Int → Int) (xs : Int) {npix : Int} (hnpix : 1 ≤ npix)
    (hpx : ∀ i, xs ≤ i → i ≤ xs + npix - 1 → px i ≤ iPvmax)
    (hlen : (plP2l px xs npix).length < 2 ^ 30) :
    (∀ x n, 1 ≤ x → 1 ≤ n → RangesExact (plP2l px xs npix) x n) ∧
      SameRanges px xs npix := by
  have hline : ∀ v ∈ pixels px xs npix.toNat, 0 ≤ v := by
    intro v hv
    obtain ⟨i, -, rfl⟩ := List.mem_map.mp hv
    omega
  have hencodes := plP2l_encodes hnpix hpx hlen []
  rw [List.append_nil] at hencodes
  have hexact : ∀ x n, 1 ≤ x → 1 ≤ n → RangesExact (plP2l px xs npix) x n :=
    fun x n hx hn => rangesExact_of_encodes hencodes hline hx hn
  refine ⟨hexact, ?_⟩
  obtain ⟨rs, hrs, hfrom, hcells⟩ := plP2r_ranges px xs hnpix
  have hcount : (xs + npix - 1 + 1 - xs).toNat = npix.toNat := by omega
  have hpixels := hfrom.rangePixels
  have hlength : ((pixels px xs npix.toNat).length : Int) = npix := by
    rw [length_pixels]
    omega
  have hread := plL2p_eq_line hencodes (by rw [← List.length_pos_iff, length_pixels]; omega)
  rw [hlength] at hread
  unfold SameRanges
  rw [(hexact 1 npix (by decide) hnpix).pixels, hread, ← hcells, ← hpixels, hcount, hrs]
  rfl

theorem not_sameRanges_alternating {n : Nat} (hlo : 1073741824 ≤ 3 * n + 7)
    (hhi : 3 * n + 7 < 2147483648) : ¬ SameRanges alternating 1 n := by
  intro hsame
  have hlen := length_plP2l_alternating (n := n) (by omega)
  obtain ⟨rs, hrs, hfrom, hcells⟩ := plP2r_ranges alternating 1 (show (1 : Int) ≤ n by omega)
  have hcount : ((1 : Int) + n - 1 + 1 - 1).toNat = n := by omega
  have hpixels := hfrom.rangePixels
  rw [hcells, hcount] at hpixels
  rw [plP2l_eq alternating 1 (by omega), packLine, List.length_append, length_header] at hlen
  have hempty : plL2r (plP2l alternating 1 n) 1 n = [] := by
    rw [plP2l_eq alternating 1 (by omega), packLine]
    generalize (encodeScan (iDatamax - 1)
      (lineRuns (pixels alternating 1 (n : Int).toNat))).ll = ll at hlen ⊢
    have hneg := llLen_header_neg 0 (llCurhdrlen + ll.length) 0 ll
      (by simp only [llCurhdrlen] at hlen ⊢; omega)
      (by simp only [llCurhdrlen] at hlen ⊢; omega)
    unfold plL2r
    simp only [if_neg (not_oldformat_header 0 _ 0 ll)]
    rw [if_pos (.inr (by omega))]
  unfold SameRanges at hsame
  rw [hempty, hrs, List.tail_cons, List.tail_nil, rangePixels_nil, Int.toNat_natCast,
    hpixels] at hsame
  obtain ⟨m, rfl⟩ : ∃ m, n = m + 1 := ⟨n - 1, by omega⟩
  have hfirst : (5001 : Int) = 0 := by
    have hheads := congrArg List.head? hsame
    rw [Int.toNat_natCast, pixels_succ, List.replicate_succ] at hheads
    exact Option.some.inj hheads
  exact absurd hfirst (by decide)

/-- A pixel past `I_PVMAX` and a list past the length words are lost by `pl_p2l`. -/
theorem not_sameRanges_limits :
    ¬ SameRanges (fun _ => iPvmax + 1) 1 1 ∧
      (∀ i : Int, 1 ≤ i → i ≤ 1 + 536870912 - 1 → alternating i ≤ iPvmax) ∧
        ¬ SameRanges alternating 1 536870912 := by
  refine ⟨by decide, ?_, ?_⟩
  · intro i _ _
    unfold alternating
    split <;> decide
  · have hlong := not_sameRanges_alternating (n := 536870912) (by omega) (by omega)
    exact_mod_cast hlong

theorem plL2r_exact_three :
    (∀ x n, 1 ≤ x → 1 ≤ n → RangesExact (plP2l (fun i => i - 2) 1 3) x n) ∧
      SameRanges (fun i => i - 2) 1 3 :=
  plL2r_exact (fun i => i - 2) 1 (by decide)
    (fun i _ _ => by simp only [iPvmax]; omega) (by decide)

end Iraf.Plio
