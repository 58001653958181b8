import Mathlib.Data.List.GetD
import Iraf.Boot.HeaderBlock
import Iraf.Boot.Rtar

/-!
# Blocks on a tape

What is written is a row of blocks, whatever the records are, and what is read is the
same row.

A file takes whole blocks, the last one padded.  Every way to read it leaves the tape
behind these blocks.
-/

namespace Iraf.Boot

section Tape

variable {b : Block} {bs : List Block}

/-! ## Writing -/

namespace TapeOut

/-- The blocks on the tape and in the buffer. -/
def written (t : TapeOut) : List Block :=
  t.records.flatten ++ (List.range t.nblocks).map t.tapeblock

/-- The buffer is not full, and records are whole. -/
structure Blocked (t : TapeOut) : Prop where
  room : t.nblocks < nblock
  whole : ∀ record ∈ t.records, record.length = nblock

theorem blocked_start : start.Blocked :=
  ⟨by decide, by simp [start]⟩

theorem written_start : start.written = [] := rfl

theorem blocked_tapeWrite {t : TapeOut} (h : ∀ record ∈ t.records, record.length = nblock) :
    t.tapeWrite.Blocked := by
  refine ⟨Nat.zero_lt_succ 19, fun record hmem => ?_⟩
  obtain hold | hnew := List.mem_append.1 hmem
  · exact h record hold
  · rw [List.mem_singleton.1 hnew, List.length_map, List.length_range]

theorem map_update (f : Nat → Block) (n : Nat) (b : Block) :
    (List.range (n + 1)).map (Function.update f n b) = (List.range n).map f ++ [b] := by
  rw [List.range_succ, List.map_append, List.map_singleton, Function.update_self]
  congr 1
  apply List.map_congr_left
  intro i hi
  rw [List.mem_range] at hi
  exact Function.update_of_ne (by omega) _ _

theorem putblock_spec {t : TapeOut} (h : t.Blocked) (b : Block) :
    (t.putblock (some b)).Blocked ∧ (t.putblock (some b)).written = t.written ++ [b] := by
  have hroom := h.room
  simp only [putblock]
  split
  case isTrue hfull =>
    refine ⟨blocked_tapeWrite h.whole, ?_⟩
    rw [written, tapeWrite, ← hfull]
    simp only [List.range_zero, List.map_nil, List.append_nil, List.flatten_append,
      List.flatten_singleton]
    rw [map_update, ← List.append_assoc, written]
  case isFalse hfull =>
    have hnext : t.nblocks + 1 < nblock := lt_of_le_of_ne hroom hfull
    refine ⟨⟨hnext, h.whole⟩, ?_⟩
    rw [written, map_update, ← List.append_assoc, written]

theorem flush_spec {t : TapeOut} (h : t.Blocked) :
    ∃ stale, (t.putblock none).records.flatten = t.written ++ stale ∧
      ∀ record ∈ (t.putblock none).records, record.length = nblock := by
  have hroom := h.room
  simp only [putblock]
  split
  case isTrue hsome =>
    refine ⟨((List.range nblock).map t.tapeblock).drop t.nblocks, ?_,
      (blocked_tapeWrite h.whole).whole⟩
    have htake : ((List.range nblock).map t.tapeblock).take t.nblocks =
        (List.range t.nblocks).map t.tapeblock := by
      rw [← List.map_take, List.take_range, min_eq_left (by omega)]
    rw [tapeWrite, written, List.append_assoc, ← htake, List.take_append_drop,
      List.flatten_append, List.flatten_singleton]
  case isFalse hnone =>
    have hzero : t.nblocks = 0 := by omega
    refine ⟨[], ?_, h.whole⟩
    rw [written, hzero, List.range_zero, List.map_nil, List.append_nil, List.append_nil]

end TapeOut

/-! ## Reading -/

namespace TapeIn

/-- The blocks that are still to be read. -/
structure Holds (t : TapeIn) (bs : List Block) : Prop where
  eof : t.eof = false
  nextblock_le : t.nextblock ≤ t.tapeblock.length
  nblocks : t.nblocks = ((t.tapeblock.length - t.nextblock : Nat) : Int)
  records_ne : ∀ record ∈ t.records, record ≠ []
  rest : t.tapeblock.drop t.nextblock ++ t.records.flatten = bs

theorem holds_mount {records : List (List Block)} (h : ∀ record ∈ records, record ≠ []) :
    (mount records).Holds records.flatten :=
  ⟨rfl, le_rfl, rfl, h, rfl⟩

theorem getblock_cons {t : TapeIn} (h : t.Holds (b :: bs)) :
    t.getblock.1 = some b ∧ t.getblock.2.Holds bs ∧ t.getblock.2.unget.Holds (b :: bs) := by
  obtain ⟨heof, hle, hnblocks, hne, hrest⟩ := h
  rw [getblock, heof, if_neg Bool.false_ne_true]
  by_cases hlast : t.nextblock = t.tapeblock.length
  · have hnone : ¬ t.nblocks - 1 ≥ 0 := by omega
    rw [hlast, List.drop_length, List.nil_append] at hrest
    rw [if_neg hnone]
    cases hrecords : t.records with
    | nil =>
        rw [hrecords] at hrest
        cases hrest
    | cons record records =>
        rw [hrecords] at hrest hne
        cases record with
        | nil => exact absurd rfl (hne [] List.mem_cons_self)
        | cons hb record =>
            rw [List.flatten_cons, List.cons_append, List.cons.injEq] at hrest
            obtain ⟨rfl, rfl⟩ := hrest
            have hmore : ∀ record ∈ records, record ≠ [] := fun record hmem =>
              hne record (List.mem_cons_of_mem _ hmem)
            refine ⟨rfl, ⟨rfl, ?_, ?_, hmore, rfl⟩, ⟨rfl, ?_, ?_, hmore, rfl⟩⟩ <;>
              simp [unget]
  · have hlt : t.nextblock < t.tapeblock.length := by omega
    have hsome : t.nblocks - 1 ≥ 0 := by omega
    rw [List.drop_eq_getElem_cons hlt, List.cons_append, List.cons.injEq] at hrest
    rw [if_pos hsome]
    refine ⟨?_, ⟨rfl, hlt, ?_, hne, hrest.2⟩, ⟨rfl, hle, ?_, hne, ?_⟩⟩
    · rw [List.getElem?_eq_getElem hlt, hrest.1]
    · dsimp only
      omega
    · dsimp only [unget]
      omega
    · change t.tapeblock.drop (t.nextblock + 1 - 1) ++ t.records.flatten = b :: bs
      rw [Nat.add_sub_cancel, List.drop_eq_getElem_cons hlt, List.cons_append, hrest.1, hrest.2]

end TapeIn

end Tape

/-! ## Files on a tape -/

variable {text : Bool} {m : Nat} {bs : List Block} {t : TapeIn}

/-! ## The blocks of a file -/

/-- The bytes in `m` blocks. -/
def fileBlocks (text : Bool) : Nat → List UInt8 → List Block
  | 0, _ => []
  | m + 1, bytes => padBlock text bytes :: fileBlocks text m (bytes.drop tblock)

/-- The number of blocks that hold `n` bytes. -/
def Covers (m n : Nat) : Prop := n ≤ tblock * m ∧ tblock * m < n + tblock

theorem covers_ceil (n : Nat) : Covers ((n + tblock - 1) / tblock) n := by
  unfold Covers tblock
  omega

theorem Covers.drop {bytes : List UInt8} (h : Covers (m + 1) bytes.length) :
    Covers m (bytes.drop tblock).length := by
  unfold Covers tblock at *
  rw [List.length_drop]
  omega

theorem ofBytes_append {buf rest : List UInt8} (h : tblock ≤ buf.length) :
    Block.ofBytes (buf ++ rest) = Block.ofBytes buf := by
  apply Block.ext
  change field tblock (buf ++ rest) = field tblock buf
  rw [field_of_ge h, field_of_ge (by rw [List.length_append]; omega),
    List.take_append_of_le_length h]

theorem padBlock_of_ge {buf : List UInt8} (h : tblock ≤ buf.length) :
    padBlock text buf = Block.ofBytes buf := by
  rw [padBlock, Nat.sub_eq_zero_of_le h, List.range'_zero, List.map_nil, List.append_nil]

theorem padBlock_append {buf rest : List UInt8} (h : tblock ≤ buf.length) :
    padBlock text (buf ++ rest) = Block.ofBytes buf := by
  have hlen : tblock ≤ (buf ++ rest).length := by
    rw [List.length_append]
    omega
  rw [padBlock_of_ge hlen, ofBytes_append h]

theorem take_padBlock (bytes : List UInt8) :
    (padBlock text bytes).bytes.take (min bytes.length tblock) = bytes.take tblock := by
  obtain hlen | hlen := le_total tblock bytes.length
  · rw [padBlock_of_ge hlen, min_eq_right hlen]
    change (field tblock bytes).take tblock = bytes.take tblock
    rw [field_of_ge hlen, List.take_take, min_self]
  · rw [min_eq_left hlen, List.take_of_length_le hlen]
    have hblock : bytes.length +
        ((List.range' bytes.length (tblock - bytes.length)).map (padByte text)).length ≤
          tblock := by
      rw [List.length_map, List.length_range']
      omega
    change (field tblock (bytes ++ _)).take bytes.length = bytes
    rw [field_of_le (by rw [List.length_append]; exact hblock), List.append_assoc,
      List.take_left]

/-! ## Writing -/

theorem padFile_spec (text : Bool) :
    ∀ (m : Nat) (buf : List UInt8) (t : TapeOut), buf.length ≤ tblock → t.Blocked →
      (padFile text m buf t).Blocked ∧
        (padFile text m buf t).written = t.written ++ fileBlocks text m buf := by
  intro m
  induction m with
  | zero => exact fun buf t hbuf ht => ⟨ht, (List.append_nil _).symm⟩
  | succ m ih =>
      intro buf t hbuf ht
      obtain ⟨hput, hwritten⟩ := TapeOut.putblock_spec ht (padBlock text buf)
      obtain ⟨hblocked, hpad⟩ := ih [] _ (Nat.zero_le _) hput
      refine ⟨hblocked, ?_⟩
      rw [padFile, hpad, hwritten, List.append_assoc, fileBlocks, List.drop_of_length_le hbuf,
        List.singleton_append]

theorem copyReads_spec (text : Bool) :
    ∀ (reads : List (List UInt8)) (m : Nat) (buf : List UInt8) (t : TapeOut),
      buf.length < tblock → (∀ count ∈ reads, count.length ≤ tblock) → t.Blocked →
      let copied := copyReads reads m buf t
      (padFile text copied.2.1 copied.2.2 copied.1).Blocked ∧
        (padFile text copied.2.1 copied.2.2 copied.1).written =
          t.written ++ fileBlocks text m (buf ++ reads.flatten) := by
  intro reads m buf t
  fun_induction copyReads reads m buf t with
  | case1 reads buf t =>
      intro hbuf _ ht
      exact ⟨ht, (List.append_nil _).symm⟩
  | case2 blocks buf t =>
      intro hbuf _ ht
      rw [List.flatten_nil, List.append_nil]
      exact padFile_spec text _ buf t hbuf.le ht
  | case3 count reads blocks buf t hshort ih =>
      intro hbuf hreads ht
      rw [List.flatten_cons, ← List.append_assoc]
      exact ih hshort (fun c hc => hreads c (List.mem_cons_of_mem _ hc)) ht
  | case4 count reads blocks buf t hlong ih =>
      intro hbuf hreads ht
      have hcount := hreads count List.mem_cons_self
      have hfull : tblock ≤ (buf ++ count).length := by omega
      obtain ⟨hput, hwritten⟩ := TapeOut.putblock_spec ht (Block.ofBytes (buf ++ count))
      have hleft : ((buf ++ count).drop tblock).length < tblock := by
        rw [List.length_drop, List.length_append]
        omega
      obtain ⟨hblocked, hcopied⟩ :=
        ih hleft (fun c hc => hreads c (List.mem_cons_of_mem _ hc)) hput
      refine ⟨hblocked, ?_⟩
      rw [hcopied, hwritten, List.append_assoc, List.flatten_cons, ← List.append_assoc buf,
        fileBlocks, padBlock_append hfull, List.drop_append_of_le_length hfull,
        List.singleton_append]

theorem wtarCopyfile_spec {t : TapeOut} (ht : t.Blocked) (size : Nat) (text : Bool)
    {reads : List (List UInt8)} (hreads : ∀ count ∈ reads, count.length ≤ tblock) :
    (wtarCopyfile t size text reads).Blocked ∧
      (wtarCopyfile t size text reads).written =
        t.written ++ fileBlocks text ((size + tblock - 1) / tblock) reads.flatten :=
  copyReads_spec text reads _ [] t (by decide) hreads ht

/-! ## Reading -/

/-- The number of bytes that are left to be read: the last block may take it below
zero. -/
def Left (nbytes : Int) (bytes : List UInt8) : Prop :=
  nbytes = bytes.length ∨ nbytes ≤ 0 ∧ bytes = []

theorem Left.pos_iff {nbytes : Int} {bytes : List UInt8} (h : Left nbytes bytes) :
    nbytes > 0 ↔ nbytes = bytes.length ∧ bytes ≠ [] := by
  obtain rfl | ⟨hle, rfl⟩ := h
  · rw [gt_iff_lt, Int.natCast_pos, List.length_pos_iff, and_iff_right rfl]
  · simp
    omega

theorem left_drop (bytes : List UInt8) :
    Left ((bytes.length : Int) - tblock) (bytes.drop tblock) := by
  by_cases hlen : tblock ≤ bytes.length
  · left
    rw [List.length_drop]
    omega
  · right
    rw [List.drop_eq_nil_iff]
    omega

variable {bytes : List UInt8} {nbytes : Int}

theorem Covers.eq_zero (h : Covers m 0) : m = 0 := by
  unfold Covers tblock at h
  omega

theorem next_block (hm : Covers m bytes.length) (hn : Left nbytes bytes) (hpos : nbytes > 0)
    (ht : t.Holds (fileBlocks text m bytes ++ bs)) :
    ∃ k t', t.getblock = (some (padBlock text bytes), t') ∧ nbytes = bytes.length ∧
      Covers k (bytes.drop tblock).length ∧
      t'.Holds (fileBlocks text k (bytes.drop tblock) ++ bs) ∧
      t'.unget.Holds (fileBlocks text m bytes ++ bs) := by
  obtain ⟨rfl, hne⟩ := hn.pos_iff.1 hpos
  cases m with
  | zero =>
      exact absurd (List.eq_nil_of_length_eq_zero (Nat.le_zero.1 hm.1)) hne
  | succ m =>
      obtain ⟨hget, hrest, hback⟩ := TapeIn.getblock_cons ht
      exact ⟨m, t.getblock.2, Prod.ext hget rfl, rfl, hm.drop, hrest, hback⟩

theorem holds_behind (hm : Covers m bytes.length) (hn : Left nbytes bytes) (hle : ¬ nbytes > 0)
    (ht : t.Holds (fileBlocks text m bytes ++ bs)) : bytes = [] ∧ t.Holds bs := by
  have hempty : bytes = [] := by
    by_contra hne
    have heq : nbytes = bytes.length := hn.resolve_right fun h => hne h.2
    exact hle (hn.pos_iff.2 ⟨heq, hne⟩)
  rw [hempty] at hm
  rw [hm.eq_zero] at ht
  exact ⟨hempty, ht⟩

theorem skipBlocks_spec (hm : Covers m bytes.length) (hn : Left nbytes bytes)
    (ht : t.Holds (fileBlocks text m bytes ++ bs)) : (skipBlocks nbytes t).Holds bs := by
  fun_induction skipBlocks nbytes t generalizing m bytes with
  | case1 nbytes t hpos t' hnone =>
      obtain ⟨k, u, hget, -⟩ := next_block hm hn hpos ht
      rw [hget] at hnone
      cases hnone
  | case2 nbytes t hpos hb t' hsome ih =>
      obtain ⟨k, u, hget, rfl, hk, hrest, -⟩ := next_block hm hn hpos ht
      rw [hget] at hsome
      cases hsome
      exact ih hk (left_drop bytes) hrest
  | case3 nbytes t hle =>
      exact (holds_behind hm hn hle ht).2

theorem take_read (bytes : List UInt8) :
    (padBlock text bytes).bytes.take (min (bytes.length : Int) tblock).toNat =
      bytes.take tblock := by
  rw [← Nat.cast_min, Int.toNat_natCast, take_padBlock]

theorem copyBlocks_spec (maxpad : Nat) (out : List UInt8) (hm : Covers m bytes.length)
    (hn : Left nbytes bytes) (ht : t.Holds (fileBlocks text m bytes ++ bs)) :
    ∃ k pre post, bytes = pre ++ post ∧ post.length ≤ maxpad ∧
      Covers k post.length ∧ Left (copyBlocks maxpad nbytes t out).1 post ∧
      (copyBlocks maxpad nbytes t out).2.1.Holds (fileBlocks text k post ++ bs) ∧
      (copyBlocks maxpad nbytes t out).2.2 = out ++ pre := by
  fun_induction copyBlocks maxpad nbytes t out generalizing m bytes with
  | case1 nbytes t out hpos t' hnone =>
      obtain ⟨k, u, hget, -⟩ := next_block hm hn (by omega) ht
      rw [hget] at hnone
      cases hnone
  | case2 nbytes t out hpos hb t' hsome ih =>
      obtain ⟨k, u, hget, rfl, hk, hrest, -⟩ := next_block hm hn (by omega) ht
      rw [hget] at hsome
      cases hsome
      obtain ⟨j, pre, post, hsplit, hpost, hj, hleft, hbehind, hout⟩ :=
        ih hk (left_drop bytes) hrest
      refine ⟨j, bytes.take tblock ++ pre, post, ?_, hpost, hj, hleft, hbehind, ?_⟩
      · rw [List.append_assoc, ← hsplit, List.take_append_drop]
      · rw [hout, take_read, List.append_assoc]
  | case3 nbytes t out hle =>
      refine ⟨m, [], bytes, rfl, ?_, hm, hn, ht, (List.append_nil out).symm⟩
      obtain heq | ⟨-, hnil⟩ := hn
      · omega
      · rw [hnil]
        exact Nat.zero_le maxpad

theorem fillPadbuf_spec (padbuf : List UInt8) (hm : Covers m bytes.length)
    (hn : Left nbytes bytes) (ht : t.Holds (fileBlocks text m bytes ++ bs)) :
    (fillPadbuf nbytes t padbuf).1.Holds bs ∧
      (fillPadbuf nbytes t padbuf).2 = padbuf ++ bytes := by
  fun_induction fillPadbuf nbytes t padbuf generalizing m bytes with
  | case1 nbytes t padbuf hpos t' hnone =>
      obtain ⟨k, u, hget, -⟩ := next_block hm hn hpos ht
      rw [hget] at hnone
      cases hnone
  | case2 nbytes t padbuf hpos hb t' hsome ih =>
      obtain ⟨k, u, hget, rfl, hk, hrest, -⟩ := next_block hm hn hpos ht
      rw [hget] at hsome
      cases hsome
      have hleft : Left ((bytes.length : Int) - min (bytes.length : Int) tblock)
          (bytes.drop tblock) := by
        left
        rw [List.length_drop]
        omega
      obtain ⟨hbehind, hfilled⟩ := ih hk hleft hrest
      refine ⟨hbehind, ?_⟩
      rw [hfilled, take_read, List.append_assoc, List.take_append_drop]
  | case3 nbytes t padbuf hle =>
      obtain ⟨hempty, hbehind⟩ := holds_behind hm hn hle ht
      refine ⟨hbehind, ?_⟩
      rw [hempty, List.append_nil]

/-! ## Blanks at the end of a text -/

/-- What is missing of the data are blank lines at its end. -/
def BlankEnd (out bytes : List UInt8) : Prop :=
  ∃ lines, bytes = out ++ lines ∧ (∀ ch ∈ lines, ch = blank ∨ ch = newline) ∧
    (lines ≠ [] → out.getLast? = some newline)

theorem BlankEnd.refl (bytes : List UInt8) : BlankEnd bytes bytes :=
  ⟨[], (List.append_nil bytes).symm, by simp, by simp⟩

theorem BlankEnd.append {out bytes : List UInt8} (h : BlankEnd out bytes)
    (pre : List UInt8) : BlankEnd (pre ++ out) (pre ++ bytes) := by
  obtain ⟨lines, hsplit, hblank, hlast⟩ := h
  refine ⟨lines, by rw [hsplit, List.append_assoc], hblank, fun hlines => ?_⟩
  have hout : out ≠ [] := by
    rintro rfl
    exact absurd (hlast hlines) (by simp)
  rw [List.getLast?_append_of_ne_nil _ hout, hlast hlines]

theorem lastNewline_spec {padbuf : List UInt8} {ip lastnl : Nat} (hlt : lastnl < padbuf.length)
    (hip : ip ≤ lastnl) (hblank : ∀ i, ip < i → i < padbuf.length →
      padbuf.getD i 0 = blank ∨ padbuf.getD i 0 = newline)
    (hlast : lastnl + 1 = padbuf.length ∨ padbuf.getD lastnl 0 = newline) :
    let nl := lastNewline padbuf ip lastnl
    nl < padbuf.length ∧
      (∀ i, nl < i → i < padbuf.length → padbuf.getD i 0 = blank ∨ padbuf.getD i 0 = newline) ∧
      (nl + 1 = padbuf.length ∨ padbuf.getD nl 0 = newline) := by
  fun_induction lastNewline padbuf ip lastnl with
  | case1 lastnl => exact ⟨hlt, fun i hi => hblank i (by omega), hlast⟩
  | case2 lastnl ip hnewline ih =>
      refine ih (by omega) (by omega) (fun i hi hlen => ?_) (Or.inr hnewline)
      obtain rfl | hlater := eq_or_lt_of_le (Nat.succ_le_of_lt hi)
      · exact Or.inr hnewline
      · exact hblank i hlater hlen
  | case3 lastnl ip hnewline hother =>
      exact ⟨hlt, fun i hi => hblank i (by omega), hlast⟩
  | case4 lastnl ip hnewline hother ih =>
      refine ih hlt (by omega) (fun i hi hlen => ?_) hlast
      obtain rfl | hlater := eq_or_lt_of_le (Nat.succ_le_of_lt hi)
      · exact Or.inl (not_not.1 hother)
      · exact hblank i hlater hlen

theorem blankEnd_take {padbuf : List UInt8} {nl : Nat} (hlt : nl < padbuf.length)
    (hblank : ∀ i, nl < i → i < padbuf.length →
      padbuf.getD i 0 = blank ∨ padbuf.getD i 0 = newline)
    (hlast : nl + 1 = padbuf.length ∨ padbuf.getD nl 0 = newline) :
    BlankEnd (padbuf.take (nl + 1)) padbuf := by
  refine ⟨padbuf.drop (nl + 1), (List.take_append_drop _ _).symm, fun ch hch => ?_,
    fun hne => ?_⟩
  · obtain ⟨i, hi, rfl⟩ := List.getElem_of_mem hch
    rw [List.length_drop] at hi
    rw [List.getElem_drop, ← List.getD_eq_getElem _ 0]
    exact hblank _ (by omega) (by omega)
  · have hmore : nl + 1 ≠ padbuf.length := by
      intro heq
      rw [heq, List.drop_length] at hne
      exact hne rfl
    have hnewline := hlast.resolve_left hmore
    rw [List.getD_eq_getElem _ 0 hlt] at hnewline
    rw [List.getLast?_take, if_neg (Nat.succ_ne_zero _), Nat.add_sub_cancel,
      List.getElem?_eq_getElem hlt, hnewline]
    rfl

theorem stripped_spec (padbuf : List UInt8) : BlankEnd (stripped padbuf) padbuf := by
  cases padbuf with
  | nil => exact BlankEnd.refl []
  | cons c rest =>
      have hlt : rest.length < (c :: rest).length := Nat.lt_succ_self _
      obtain ⟨hnl, hblank, hlast⟩ := lastNewline_spec hlt le_rfl
        (fun i hi hlen => by
          rw [List.length_cons] at hlen
          omega) (Or.inl rfl)
      exact blankEnd_take hnl hblank hlast

/-! ## Extraction -/

theorem rtarCopyfile_spec (stripblanks : Bool) {fh : Fheader} (ftype : Ftype)
    (hlink : fh.linkflag = 0) (hsize : fh.size = bytes.length) (hm : Covers m bytes.length)
    (ht : t.Holds (fileBlocks text m bytes ++ bs)) :
    let copied := rtarCopyfile stripblanks t fh ftype
    copied.1.Holds bs ∧ BlankEnd copied.2 bytes ∧
      (ftype = .binary ∨ stripblanks = false → copied.2 = bytes) := by
  rw [rtarCopyfile, if_neg (not_not.2 hlink), hsize]
  generalize hmaxpad : (if ftype = .binary ∨ !stripblanks then 0 else szPadbuf) = maxpad
  obtain ⟨k, pre, post, hsplit, hpost, hk, hleft, hbehind, hout⟩ :=
    copyBlocks_spec maxpad [] hm (Or.inl rfl) ht
  rw [List.nil_append] at hout
  by_cases hmore : (copyBlocks maxpad bytes.length t []).1 > 0
  · obtain ⟨hfilled, hpadbuf⟩ := fillPadbuf_spec [] hk hleft hbehind
    rw [List.nil_append] at hpadbuf
    dsimp only
    rw [if_pos hmore, hout, hpadbuf]
    refine ⟨hfilled, hsplit ▸ (stripped_spec post).append pre, fun hexact => ?_⟩
    have hzero : maxpad = 0 := by
      rw [← hmaxpad, if_pos (by simpa using hexact)]
    rw [hzero] at hpost
    exact absurd (List.eq_nil_of_length_eq_zero (Nat.le_zero.1 hpost))
      (hleft.pos_iff.1 hmore).2
  · obtain ⟨rfl, hend⟩ := holds_behind hk hleft hmore hbehind
    rw [List.append_nil] at hsplit
    dsimp only
    rw [if_neg hmore, hout, ← hsplit]
    exact ⟨hend, BlankEnd.refl bytes, fun _ => rfl⟩

theorem filetype_spec (binaryout : Bool) {fh : Fheader} (hdir : fh.isdir = false)
    (hsize : fh.size = bytes.length) (hm : Covers m bytes.length)
    (ht : t.Holds (fileBlocks text m bytes ++ bs)) :
    (filetype binaryout t fh).1 =
        (if bytes = [] ∨ binaryout then .binary
        else if looksText (bytes.take tblock) then .text else .binary) ∧
      (filetype binaryout t fh).2.Holds (fileBlocks text m bytes ++ bs) := by
  have hempty : fh.size = 0 ↔ bytes = [] := by
    rw [hsize, Int.natCast_eq_zero, List.length_eq_zero_iff]
  rw [filetype, hdir, if_neg Bool.false_ne_true]
  simp only [hempty]
  by_cases hbinary : bytes = [] ∨ binaryout = true
  · rw [if_pos hbinary, if_pos hbinary]
    exact ⟨rfl, ht⟩
  · have hne : bytes ≠ [] := fun h => hbinary (Or.inl h)
    have hn : Left fh.size bytes := Or.inl hsize
    obtain ⟨k, t', hget, -, -, -, hback⟩ := next_block hm hn (hn.pos_iff.2 ⟨hsize, hne⟩) ht
    rw [if_neg hbinary, if_neg hbinary, hget, hsize]
    dsimp only
    rw [take_read]
    exact ⟨rfl, hback⟩

theorem skipfile_spec {fh : Fheader} (hlink : fh.linkflag ≠ 0 → bytes = [])
    (hsize : fh.size = bytes.length) (hm : Covers m bytes.length)
    (ht : t.Holds (fileBlocks text m bytes ++ bs)) : (skipfile t fh).Holds bs := by
  have hn : Left fh.size bytes := Or.inl hsize
  rw [skipfile]
  split
  case isTrue hflag =>
    have hle : ¬ fh.size > 0 := fun hpos => (hn.pos_iff.1 hpos).2 (hlink hflag)
    exact (holds_behind hm hn hle ht).2
  case isFalse hflag =>
    exact skipBlocks_spec hm hn ht

end Iraf.Boot
