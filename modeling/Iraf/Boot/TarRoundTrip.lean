import Iraf.Boot.TarFiles

/-!
# Reading what was written

The tape that `wtar` makes of a row of entries is read by `rtar`.  Each entry is found
behind the blocks of the entries before it, whatever was done with these.
-/

namespace Iraf.Boot

open List (Forall₂)

/-! ## The tape of a row of entries -/

namespace Entry

variable (e : Entry)

def data : List UInt8 := if e.linkflag = 0 then e.reads.flatten else []

def headerBlock : Block := Block.ofBytes (headerBytes e.stale e.toFheader)

def dataBlocks : List Block :=
  fileBlocks e.text ((e.data.length + tblock - 1) / tblock) e.data

def blocks : List Block := e.headerBlock :: e.dataBlocks

theorem size_eq_length : e.size = e.data.length := by
  rw [e.size_eq, data]
  split <;> rfl

theorem data_eq_nil (h : e.linkflag ≠ 0) : e.data = [] := if_neg h

theorem bytes_headerBlock : e.headerBlock.bytes = headerBytes e.stale e.toFheader := by
  have hlen : (headerBytes e.stale e.toFheader).length = tblock :=
    length_headerWith _ _ length_chksumField
  change field tblock (headerBytes e.stale e.toFheader) = _
  rw [field_of_ge hlen.ge, List.take_of_length_le hlen.le]

end Entry

theorem tarfileout_spec {t : TapeOut} (ht : t.Blocked) (e : Entry) :
    (tarfileout t e).Blocked ∧ (tarfileout t e).written = t.written ++ e.blocks := by
  obtain ⟨hput, hwritten⟩ := TapeOut.putblock_spec ht e.headerBlock
  have hreads : ∀ count ∈ e.reads, count.length ≤ tblock := fun count hmem =>
    (e.reads_ne count hmem).2
  rw [tarfileout]
  split
  case isTrue hfile =>
    obtain ⟨hblocked, hcopied⟩ := wtarCopyfile_spec hput e.size.toNat e.text hreads
    have hdata : e.data = e.reads.flatten := if_pos hfile.2.2
    refine ⟨hblocked, hcopied.trans ?_⟩
    rw [hwritten, e.size_eq_length, Int.toNat_natCast, ← hdata, List.append_assoc]
    rfl
  case isFalse hnone =>
    have hempty : e.data = [] := by
      by_contra hne
      have hflag : e.linkflag = 0 := by
        by_contra hlink
        exact hne (e.data_eq_nil hlink)
      have hpos := List.length_pos_iff.2 hne
      refine hnone ⟨by rw [e.size_eq_length]; omega, ?_, hflag⟩
      rw [e.isdir_eq, hflag]
      decide
    refine ⟨hput, hwritten.trans ?_⟩
    rw [Entry.blocks, Entry.dataBlocks, hempty]
    rfl

theorem length_le_flatMap (es : List Entry) : es.length ≤ (es.flatMap Entry.blocks).length := by
  induction es with
  | nil => exact Nat.zero_le _
  | cons e es ih =>
      rw [List.flatMap_cons, List.length_append, List.length_cons, Entry.blocks, List.length_cons]
      omega

theorem foldl_tarfileout {t : TapeOut} (ht : t.Blocked) (es : List Entry) :
    (es.foldl tarfileout t).Blocked ∧
      (es.foldl tarfileout t).written = t.written ++ es.flatMap Entry.blocks := by
  induction es generalizing t with
  | nil => exact ⟨ht, (List.append_nil _).symm⟩
  | cons e es ih =>
      obtain ⟨hout, hwritten⟩ := tarfileout_spec ht e
      obtain ⟨hblocked, hall⟩ := ih hout
      refine ⟨hblocked, ?_⟩
      rw [List.foldl_cons, hall, hwritten, List.flatMap_cons, List.append_assoc]

theorem wtar_spec (es : List Entry) :
    ∃ rest, (wtar es).flatten = es.flatMap Entry.blocks ++ zeroBlock :: rest ∧
      ∀ record ∈ wtar es, record.length = nblock := by
  obtain ⟨hblocked, hwritten⟩ := foldl_tarfileout TapeOut.blocked_start es
  obtain ⟨hone, hwone⟩ := TapeOut.putblock_spec hblocked zeroBlock
  obtain ⟨htwo, hwtwo⟩ := TapeOut.putblock_spec hone zeroBlock
  obtain ⟨stale, hflush, hwhole⟩ := TapeOut.flush_spec htwo
  refine ⟨zeroBlock :: stale, ?_, hwhole⟩
  rw [wtar, endtar, hflush, hwtwo, hwone, hwritten, TapeOut.written_start]
  simp

/-! ## Headers -/

theorem testHeader_zeroBlock (tapeChecksum : Int) :
    testHeader zeroBlock.bytes tapeChecksum = (.endOfTape, tapeChecksum) := by
  have hbytes : zeroBlock.bytes = List.replicate tblock 0 := by
    change field tblock [] = _
    rw [field_of_le (Nat.zero_le _), List.nil_append, List.length_nil, Nat.sub_zero]
  have hsum : cchksum (List.replicate tblock 0) = 0 := by
    simp [cchksum, schar]
  rw [testHeader, hbytes, if_pos ⟨List.getD_replicate 0 (by decide), hsum⟩]

section Headers

variable {bs : List Block} {t : TapeIn} (fh : Fheader) (trys : Nat) (tapeChecksum : Int)
  (bad : Nat)

theorem getheader_bad : bad ≤ (getheader fh trys t tapeChecksum bad).2.2 := by
  fun_induction getheader fh trys t tapeChecksum bad with
  | case1 | case2 | case3 | case4 => exact le_rfl
  | case5 => omega

theorem getheader_end (ht : t.Holds (zeroBlock :: bs)) :
    ∃ t', getheader fh (trys + 1) t tapeChecksum bad = (.eof, t', bad) := by
  obtain ⟨hget, -⟩ := TapeIn.getblock_cons ht
  refine ⟨t.getblock.2, ?_⟩
  rw [getheader, show t.getblock = (some zeroBlock, t.getblock.2) from Prod.ext hget rfl]
  simp only [testHeader_zeroBlock]

variable (e : Entry)

theorem getheader_entry (hsum : 0 ≤ headerSum e.toFheader) (ht : t.Holds (e.headerBlock :: bs)) :
    ∃ t', getheader fh (trys + 1) t tapeChecksum bad = (.header (e.decoded fh), t', bad) ∧
      t'.Holds bs := by
  obtain ⟨hget, hrest, -⟩ := TapeIn.getblock_cons ht
  have htest := testHeader_headerBytes e.stale e.toFheader tapeChecksum
  rw [if_pos hsum, ← e.bytes_headerBlock] at htest
  refine ⟨t.getblock.2, ?_, hrest⟩
  rw [getheader, show t.getblock = (some e.headerBlock, t.getblock.2) from Prod.ext hget rfl]
  simp only
  split
  case h_2 => rw [e.bytes_headerBlock]; rfl
  all_goals simp_all

theorem getheader_lost (hsum : ¬ 0 ≤ headerSum e.toFheader)
    (ht : t.Holds (e.headerBlock :: bs)) :
    ∃ t' sum, getheader fh (trys + 1) t tapeChecksum bad = getheader fh trys t' sum (bad + 1) ∧
      t'.Holds bs := by
  obtain ⟨hget, hrest, -⟩ := TapeIn.getblock_cons ht
  have htest := testHeader_headerBytes e.stale e.toFheader tapeChecksum
  rw [if_neg hsum, ← e.bytes_headerBlock] at htest
  refine ⟨t.getblock.2, (testHeader e.headerBlock.bytes tapeChecksum).2, ?_, hrest⟩
  rw [getheader, show t.getblock = (some e.headerBlock, t.getblock.2) from Prod.ext hget rfl]
  simp only
  split
  case h_3 heq => rw [heq]
  all_goals simp_all

end Headers

/-! ## Files -/

/-- The type that is found for the file of an entry. -/
def Options.ftype (o : Options) (e : Entry) : Ftype :=
  if e.data = [] ∨ o.binaryout then .binary
  else if looksText (e.data.take tblock) then .text else .binary

/-- What may be made of an entry: nothing, where it is not extracted, has no file or is
a binary file to be omitted, or a file with the data of it. -/
def Options.Made (o : Options) (e : Entry) (choice : Choice) :
    Option (Ftype × List UInt8) → Prop
  | none => choice ≠ .extract ∨ e.linkflag ≠ 0 ∨
      o.ftype e = .binary ∧ e.data ≠ [] ∧ o.omitbinary
  | some (ftype, bytes) =>
      choice = .extract ∧ e.linkflag = 0 ∧ ftype = o.ftype e ∧ BlankEnd bytes e.data ∧
        (ftype = .binary ∨ o.stripblanks = false → bytes = e.data)

theorem Entry.holds_behind (e : Entry) {t : TapeIn} {bs : List Block} (h : e.data = [])
    (ht : t.Holds (e.dataBlocks ++ bs)) : t.Holds bs := by
  rw [Entry.dataBlocks, h] at ht
  exact ht

theorem Options.file_spec (o : Options) (e : Entry) {fh : Fheader} {t : TapeIn}
    {bs : List Block} (choice : Choice) (hflag : fh.linkflag = e.linkflag)
    (hsize : fh.size = e.size) (hdir : e.linkflag ≠ lfSymlink → fh.isdir = e.isdir)
    (ht : t.Holds (e.dataBlocks ++ bs)) :
    o.Made e choice (o.file choice t fh).1 ∧ (o.file choice t fh).2.Holds bs := by
  rw [e.size_eq_length] at hsize
  have hm : Covers ((e.data.length + tblock - 1) / tblock) e.data.length := covers_ceil _
  have hlink : fh.linkflag ≠ 0 → e.data = [] := fun h => e.data_eq_nil (hflag ▸ h)
  have hskip {t : TapeIn} (ht : t.Holds (e.dataBlocks ++ bs)) : (skipfile t fh).Holds bs :=
    skipfile_spec hlink hsize hm ht
  rw [Options.file]
  by_cases hchoice : choice = .skip
  · rw [if_pos hchoice]
    exact ⟨Or.inl (by rw [hchoice]; decide), hskip ht⟩
  rw [if_neg hchoice]
  obtain hfile | hsymlink | hisdir := e.kind
  · have hnotdir : fh.isdir = false := by
      rw [hdir (by rw [hfile]; decide), e.isdir_eq, hfile]
      decide
    have hnolink : ¬ (fh.linkflag = lfSymlink ∨ fh.linkflag = 1) := by
      rw [hflag, hfile]
      decide
    obtain ⟨htype, hback⟩ := filetype_spec o.binaryout hnotdir hsize hm ht
    change (filetype o.binaryout t fh).1 = o.ftype e at htype
    rw [if_neg hnolink]
    dsimp only
    rw [htype, hsize, hnotdir]
    split
    case isTrue homit =>
      have hne : e.data ≠ [] := List.length_pos_iff.1 (by exact_mod_cast homit.1)
      exact ⟨Or.inr (Or.inr ⟨homit.2.1, hne, homit.2.2⟩), hskip hback⟩
    case isFalse hkept =>
      split
      case isTrue hfails => exact ⟨Or.inl (by rw [hfails]; decide), hskip hback⟩
      case isFalse hmade =>
        obtain ⟨hbehind, hblank, hexact⟩ :=
          rtarCopyfile_spec o.stripblanks (o.ftype e) (hflag.trans hfile) hsize hm hback
        have hextract : choice = .extract := by
          cases choice with
          | skip => exact absurd rfl hchoice
          | extract => rfl
          | createFails => exact absurd rfl hmade
        rw [if_neg Bool.false_ne_true]
        exact ⟨⟨hextract, hfile, rfl, hblank, hexact⟩, hbehind⟩
  · have hne : e.linkflag ≠ 0 := by
      rw [hsymlink]
      decide
    rw [if_pos (Or.inl (hflag.trans hsymlink))]
    exact ⟨Or.inr (Or.inl hne), e.holds_behind (e.data_eq_nil hne) ht⟩
  · have hne : e.linkflag ≠ 0 := by
      rw [hisdir]
      decide
    have hnolink : ¬ (fh.linkflag = lfSymlink ∨ fh.linkflag = 1) := by
      rw [hflag, hisdir]
      decide
    have hdirectory : fh.isdir = true := by
      rw [hdir (by rw [hisdir]; decide), e.isdir_eq, hisdir]
      decide
    have hnosize : ¬ fh.size > 0 := by
      rw [hsize, e.data_eq_nil hne]
      decide
    rw [if_neg hnolink, filetype, hdirectory, if_pos rfl, if_neg fun h => hnosize h.1]
    by_cases hfails : choice = .createFails
    · rw [if_pos hfails]
      exact ⟨Or.inr (Or.inl hne), hskip ht⟩
    · rw [if_neg hfails, if_pos rfl]
      exact ⟨Or.inr (Or.inl hne), e.holds_behind (e.data_eq_nil hne) ht⟩

/-! ## The loop over the files -/

/-- What `rtar` finds for the entry at a place of the tape. -/
structure Recovered (o : Options) (entry : Entry × Nat) (d : Delivered) : Prop where
  name : d.fh.name = entry.1.name
  isdir : entry.1.linkflag ≠ lfSymlink → d.fh.isdir = entry.1.isdir
  mode : d.fh.mode = entry.1.mode
  size : d.fh.size = entry.1.size
  mtime : d.fh.mtime = entry.1.mtime
  linkflag : d.fh.linkflag = entry.1.linkflag
  linkname : entry.1.linkflag ≠ 0 → d.fh.linkname = entry.1.linkname
  content : o.Made entry.1 (o.choose entry.2 d.fh) d.content

theorem recovered_iff (o : Options) (e : Entry) (i : Nat) (old : Fheader)
    {content : Option (Ftype × List UInt8)}
    (hcontent : o.Made e (o.choose i (e.decoded old)) content) :
    Recovered o (e, i) ⟨e.decoded old, content⟩ ↔ 0 ≤ e.mtime ∧ e.mtime < 8 ^ 11 := by
  constructor
  · intro h
    exact (e.decoded_mtime old).1 h.mtime
  · intro h
    exact {
      name := e.decoded_name old
      isdir := e.decoded_isdir_eq old
      mode := e.decoded_mode old
      size := e.decoded_size old
      mtime := (e.decoded_mtime old).2 h
      linkflag := e.decoded_linkflag old
      linkname := e.decoded_linkname old
      content := hcontent }

section Loop

variable (o : Options)

theorem rtarLoop_bad (n : Nat) (t : TapeIn) (fh : Fheader) (r : TapeRead) :
    r.bad ≤ (rtarLoop o n t fh r).bad := by
  fun_induction rtarLoop o n t fh r with
  | case1 => exact le_rfl
  | case2 | case3 => exact Nat.le_add_right _ _
  | case4 n t fh r fh' t' bad heq file ih => exact (Nat.le_add_right _ _).trans ih

theorem rtarLoop_bad_getheader (n : Nat) (t : TapeIn) (fh : Fheader) (r : TapeRead) :
    r.bad + (getheader fh (maxtrys + 1) t o.tapeChecksum 0).2.2 ≤
      (rtarLoop o (n + 1) t fh r).bad := by
  rw [rtarLoop]
  split
  case h_1 heq | h_2 heq => rw [heq]
  case h_3 heq =>
    rw [heq]
    refine le_trans (le_of_eq ?_) (rtarLoop_bad o n _ _ _)
    rfl

theorem rtarLoop_files (n : Nat) (t : TapeIn) (fh : Fheader) (r : TapeRead) :
    r.files <+: (rtarLoop o n t fh r).files := by
  fun_induction rtarLoop o n t fh r with
  | case1 | case2 | case3 => exact List.prefix_rfl
  | case4 n t fh r fh' t' bad heq file ih => exact (List.prefix_append _ _).trans ih

/-- The entries from a place on are found, and then the end of the tape. -/
def FoundFrom (es : List Entry) (r r' : TapeRead) : Prop :=
  r'.ended = true ∧ r'.bad = r.bad ∧ ∃ ds, r'.files = r.files ++ ds ∧
    Forall₂ (Recovered o) (es.zipIdx r.files.length) ds

variable {o}

theorem foundFrom_cons {e : Entry} {es : List Entry} {r r' : TapeRead} {d : Delivered}
    (hd : r.files ++ [d] <+: r'.files) :
    FoundFrom o (e :: es) r r' ↔ Recovered o (e, r.files.length) d ∧
      FoundFrom o es { r with files := r.files ++ [d] } r' := by
  constructor
  · rintro ⟨hended, hbad, ds, hfiles, hall⟩
    rw [List.zipIdx_cons] at hall
    obtain ⟨d', ds', hfirst, hrest, rfl⟩ := List.forall₂_cons_left_iff.1 hall
    rw [hfiles, List.prefix_append_right_inj] at hd
    obtain rfl : d = d' := (List.cons_prefix_cons.1 hd).1
    refine ⟨hfirst, hended, hbad, ds', ?_, ?_⟩
    · rw [hfiles, List.append_assoc, List.singleton_append]
    · rwa [List.length_append, List.length_singleton]
  · rintro ⟨hfirst, hended, hbad, ds, hfiles, hall⟩
    refine ⟨hended, hbad, d :: ds, ?_, ?_⟩
    · rw [hfiles, List.append_assoc, List.singleton_append]
    · rw [List.length_append, List.length_singleton] at hall
      rw [List.zipIdx_cons]
      exact .cons hfirst hall

variable (o)

theorem rtarLoop_spec {bs : List Block} (es : List Entry) :
    ∀ (n : Nat) (t : TapeIn) (fh : Fheader) (r : TapeRead), es.length < n →
      t.Holds (es.flatMap Entry.blocks ++ zeroBlock :: bs) →
      (FoundFrom o es r (rtarLoop o n t fh r) ↔ ∀ e ∈ es, e.Readable) := by
  induction es with
  | nil =>
      intro n t fh r hn ht
      obtain ⟨n, rfl⟩ := Nat.exists_eq_succ_of_ne_zero (Nat.ne_zero_of_lt hn)
      obtain ⟨t', hend⟩ := getheader_end fh maxtrys o.tapeChecksum 0 ht
      rw [rtarLoop, hend]
      refine iff_of_true ⟨rfl, rfl, [], (List.append_nil _).symm, .nil⟩ ?_
      simp
  | cons e es ih =>
      intro n t fh r hn ht
      obtain ⟨n, rfl⟩ : ∃ k, n = k + 1 := Nat.exists_eq_succ_of_ne_zero (Nat.ne_zero_of_lt hn)
      rw [List.flatMap_cons, Entry.blocks, List.cons_append, List.cons_append,
        List.append_assoc] at ht
      rw [List.forall_mem_cons]
      by_cases hsum : 0 ≤ headerSum e.toFheader
      · obtain ⟨t', hheader, hdata⟩ :=
          getheader_entry fh maxtrys o.tapeChecksum 0 e hsum ht
        obtain ⟨hmade, hbehind⟩ := o.file_spec e (o.choose r.files.length (e.decoded fh))
          (e.decoded_linkflag fh) (e.decoded_size fh) (e.decoded_isdir_eq fh) hdata
        rw [rtarLoop, hheader]
        dsimp only
        generalize o.file (o.choose r.files.length (e.decoded fh)) t' (e.decoded fh) = file
          at hmade hbehind
        rw [Nat.add_zero]
        have hfiles := rtarLoop_files o n file.2 (e.decoded fh)
          { r with files := r.files ++ [⟨e.decoded fh, file.1⟩] }
        rw [foundFrom_cons hfiles, recovered_iff o e _ fh hmade,
          ih n _ (e.decoded fh) _ (Nat.lt_of_succ_lt_succ hn) hbehind]
        exact and_congr_left fun _ => (and_iff_right hsum).symm
      · obtain ⟨t', sum, hlost, -⟩ := getheader_lost fh maxtrys o.tapeChecksum 0 e hsum ht
        refine iff_of_false (fun hfound => ?_) fun hreadable => hsum hreadable.1.1
        have hbad : 0 < (getheader fh (maxtrys + 1) t o.tapeChecksum 0).2.2 := by
          rw [hlost]
          exact getheader_bad fh maxtrys sum 1
        have hloop := rtarLoop_bad_getheader o n t fh r
        have heq := hfound.2.1
        omega

end Loop

/-! ## The round trip -/

/-- The tape of the entries is read to its end without an error, and each entry is
found. -/
def RoundTrip (o : Options) (fh : Fheader) (es : List Entry) : Prop :=
  (rtar o fh (wtar es)).ended = true ∧ (rtar o fh (wtar es)).bad = 0 ∧
    Forall₂ (Recovered o) es.zipIdx (rtar o fh (wtar es)).files

variable (o : Options) (fh : Fheader) (es : List Entry)

theorem holds_mount_wtar : ∃ rest,
    (TapeIn.mount (wtar es)).Holds (es.flatMap Entry.blocks ++ zeroBlock :: rest) ∧
      es.length < (wtar es).flatten.length + 1 := by
  obtain ⟨rest, hflatten, hwhole⟩ := wtar_spec es
  have hne : ∀ record ∈ wtar es, record ≠ [] := by
    intro record hmem hnil
    have hlen := hwhole record hmem
    rw [hnil] at hlen
    cases hlen
  refine ⟨rest, hflatten ▸ TapeIn.holds_mount hne, ?_⟩
  have hblocks := length_le_flatMap es
  rw [hflatten, List.length_append]
  omega

theorem roundTrip_iff_foundFrom :
    RoundTrip o fh es ↔ FoundFrom o es ⟨[], 0, false⟩ (rtar o fh (wtar es)) := by
  constructor
  · rintro ⟨hended, hbad, hfiles⟩
    exact ⟨hended, hbad, _, rfl, hfiles⟩
  · rintro ⟨hended, hbad, ds, hds, hfiles⟩
    obtain rfl : (rtar o fh (wtar es)).files = ds := hds
    exact ⟨hended, hbad, hfiles⟩

/-- All entries are found exactly when each header is taken for one and holds the time
of its entry. -/
theorem rtar_wtar_iff : RoundTrip o fh es ↔ ∀ e ∈ es, e.Readable := by
  obtain ⟨rest, hholds, hlen⟩ := holds_mount_wtar es
  rw [roundTrip_iff_foundFrom]
  exact rtarLoop_spec o es _ _ fh ⟨[], 0, false⟩ hlen hholds

/-! ## A name of chars with the high bit -/

theorem cchksum_append (bytes more : List UInt8) :
    cchksum (bytes ++ more) = cchksum bytes + cchksum more := by
  rw [cchksum, List.map_append, List.sum_append]
  rfl

theorem cchksum_zeros (n : Nat) : cchksum (List.replicate n 0) = 0 := by
  simp [cchksum, schar]

theorem cchksum_field (n : Nat) (text : List UInt8) :
    cchksum (field n text) = cchksum (text.take n) := by
  rw [field, cchksum_append, cchksum_zeros, add_zero]

/-- An empty file whose name is ten times a char of three bytes. -/
def wideName : Entry where
  name := (List.replicate 10 [0xE6, 0x97, 0xA5]).flatten
  mode := 0
  uid := 0
  gid := 0
  isdir := false
  size := 0
  mtime := 0
  linkflag := 0
  linkname := []
  text := true
  reads := []
  stale := 0
  name_ne := by decide
  name_lt := by decide
  name_chars := by decide
  linkname_lt := by decide
  linkname_chars := by decide
  mode_range := by decide
  uid_range := by decide
  gid_range := by decide
  size_lt := by decide
  isLong := by decide
  kind := Or.inl rfl
  isdir_eq := rfl
  dir_name := by decide
  file_name := by decide
  size_eq := rfl
  reads_ne := by simp

theorem headerSum_wideName : headerSum wideName.toFheader = -460 := by
  have hzero : octal 0 = [48] := rfl
  have hname : cchksum ((wideName.name.take (namsiz - 1)).take namsiz) = -2220 := by decide
  have hint : cchksum ((snprintf 8 (formatOctal 6 (unsigned 32 0) ++ [blank])).take 8) = 240 := by
    rw [show unsigned 32 0 = 0 from rfl, formatOctal, hzero]
    decide
  have hlong :
      cchksum ((snprintf 12 (formatOctal 11 (unsigned 64 0) ++ [blank])).take 12) = 368 := by
    rw [show unsigned 64 0 = 0 from rfl, formatOctal, hzero]
    decide
  have hafter : cchksum (afterChksum wideName.toFheader) = 48 := by
    rw [afterChksum, ← List.singleton_append, cchksum_append, cchksum_append, cchksum_field,
      cchksum_zeros]
    decide
  have hblank : cchksum blankChksum = 256 := by decide
  rw [headerSum, headerWith, beforeChksum]
  simp only [cchksum_append, cchksum_field]
  change cchksum ((wideName.name.take (namsiz - 1)).take namsiz) +
    (cchksum ((snprintf 8 (formatOctal 6 (unsigned 32 0) ++ [blank])).take 8) +
    (cchksum ((snprintf 8 (formatOctal 6 (unsigned 32 0) ++ [blank])).take 8) +
    (cchksum ((snprintf 8 (formatOctal 6 (unsigned 32 0) ++ [blank])).take 8) +
    (cchksum ((snprintf 12 (formatOctal 11 (unsigned 64 0) ++ [blank])).take 12) +
    cchksum ((snprintf 12 (formatOctal 11 (unsigned 64 0) ++ [blank])).take 12))))) +
    (cchksum blankChksum + cchksum (afterChksum wideName.toFheader)) = -460
  rw [hname, hint, hlong, hafter, hblank]
  rfl

def plainOptions : Options where
  binaryout := false
  omitbinary := false
  stripblanks := true
  choose := fun _ _ => .extract
  tapeChecksum := 0

def noHeader : Fheader := ⟨[], 0, 0, 0, false, 0, 0, 0, []⟩

/-- The file is not on the tape for `rtar`: its header is passed over. -/
theorem wideName_lost :
    (rtar plainOptions noHeader (wtar [wideName])).files = [] ∧
      ¬ RoundTrip plainOptions noHeader [wideName] := by
  have hsum : ¬ 0 ≤ headerSum wideName.toFheader := by
    rw [headerSum_wideName]
    decide
  have hfiles : (rtar plainOptions noHeader (wtar [wideName])).files = [] := by
    obtain ⟨rest, hholds, hlen⟩ := holds_mount_wtar [wideName]
    obtain ⟨t, sum, hlost, hrest⟩ :=
      getheader_lost noHeader maxtrys plainOptions.tapeChecksum 0 wideName hsum hholds
    obtain ⟨t', hend⟩ := getheader_end noHeader 99 sum 1 hrest
    have heof : getheader noHeader (maxtrys + 1) (.mount (wtar [wideName]))
        plainOptions.tapeChecksum 0 = (.eof, t', 1) := hlost.trans hend
    rw [rtar, rtarLoop, heof]
  refine ⟨hfiles, fun h => ?_⟩
  have hall := h.2.2
  rw [hfiles] at hall
  cases hall

end Iraf.Boot
