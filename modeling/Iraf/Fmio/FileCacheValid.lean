import Iraf.Fmio.FileCache

/-!
# The file cache stays valid

What every call keeps is said of the slots, the open files and the references alone.  A call
of `fm_getfd` drops what an idle slot holds, puts a new file in it and hands out a reference.
-/

namespace Iraf.Fmio

open Function SafeRuns

/-- The slots in use hold open files of different lfiles, and each has one reference more
than have been handed out. -/
structure Held (n : Nat) (slots : Nat → Fslot) (files : Int → Option OpenFile)
    (taken : Int → List (Int × Option OpenFile)) : Prop where
  nonneg : ∀ i < n, 0 ≤ (slots i).nref
  isOpen : ∀ i < n, (slots i).nref ≠ 0 →
    ∃ file, files (slots i).fd = some file ∧ file.lfile = (slots i).lfile
  single : ∀ i < n, ∀ j < n, (slots i).nref ≠ 0 → (slots j).nref ≠ 0 →
    (slots i).lfile = (slots j).lfile → i = j
  counted : ∀ i < n, (slots i).nref ≠ 0 →
    (slots i).nref = (taken (slots i).lfile).length + 1
  same : ∀ i < n, (slots i).nref ≠ 0 → ∀ r ∈ taken (slots i).lfile,
    r = ((slots i).fd, files (slots i).fd)
  absent : ∀ lfile, (∀ i < n, (slots i).nref ≠ 0 → (slots i).lfile ≠ lfile) →
    taken lfile = []

variable {n i j : Nat} {slots : Nat → Fslot} {files files' : Int → Option OpenFile}
  {taken : Int → List (Int × Option OpenFile)} {fs : Fslot} {lfile fd : Int} {file : OpenFile}
  {fm : Fm} {fc : Fcache} {mode : Mode} {type : Int} {answer : Answer} {s : Session}

namespace Held

theorem fd_ne (h : Held n slots files taken) (hi : i < n) (hj : j < n)
    (hni : (slots i).nref ≠ 0) (hnj : (slots j).nref ≠ 0) (hne : j ≠ i) :
    (slots j).fd ≠ (slots i).fd := by
  intro heq
  obtain ⟨file, hfile, hlfile⟩ := h.isOpen i hi hni
  obtain ⟨file', hfile', hlfile'⟩ := h.isOpen j hj hnj
  rw [heq, hfile] at hfile'
  obtain rfl := Option.some.inj hfile'
  exact hne (h.single j hj i hi hnj hni (hlfile'.symm.trans hlfile))

theorem taken_idle (h : Held n slots files taken) (hi : i < n) (hone : (slots i).nref = 1) :
    taken (slots i).lfile = [] := by
  have hlength := h.counted i hi (by omega)
  exact List.eq_nil_of_length_eq_zero (by omega)

theorem drop (h : Held n slots files taken) (hi : i < n) (hone : (slots i).nref = 1)
    (hfs : fs.nref = 0) (hfiles : ∀ fd, fd ≠ (slots i).fd → files' fd = files fd) :
    Held n (update slots i fs) files' taken := by
  have hslot : ∀ {j}, j < n → (update slots i fs j).nref ≠ 0 →
      j ≠ i ∧ update slots i fs j = slots j := by
    intro j _ hnj
    by_cases hj : j = i
    · subst hj
      rw [update_self] at hnj
      exact absurd hfs hnj
    · exact ⟨hj, update_of_ne hj _ _⟩
  have hkept : ∀ {j}, j < n → j ≠ i → (slots j).nref ≠ 0 →
      files' (slots j).fd = files (slots j).fd := fun hj hne hnj =>
    hfiles _ (h.fd_ne hi hj (by omega) hnj hne)
  refine ⟨fun j hj => ?_, fun j hj hnj => ?_, fun j hj k hk hnj hnk hlfile => ?_,
    fun j hj hnj => ?_, fun j hj hnj r hr => ?_, fun lfile hnone => ?_⟩
  · by_cases hji : j = i
    · have hnref : (update slots i fs j).nref = 0 := by rw [hji, update_self, hfs]
      exact Int.le_of_eq hnref.symm
    · rw [update_of_ne hji]
      exact h.nonneg j hj
  · obtain ⟨hne, heq⟩ := hslot hj hnj
    rw [heq] at hnj ⊢
    rw [hkept hj hne hnj]
    exact h.isOpen j hj hnj
  · have hj' := (hslot hj hnj).2
    have hk' := (hslot hk hnk).2
    rw [hj'] at hnj hlfile
    rw [hk'] at hnk hlfile
    exact h.single j hj k hk hnj hnk hlfile
  · have hj' := (hslot hj hnj).2
    rw [hj'] at hnj ⊢
    exact h.counted j hj hnj
  · obtain ⟨hne, heq⟩ := hslot hj hnj
    rw [heq] at hnj hr ⊢
    rw [hkept hj hne hnj]
    exact h.same j hj hnj r hr
  · by_cases hold : (slots i).lfile = lfile
    · rw [← hold]
      exact h.taken_idle hi hone
    · refine h.absent lfile fun j hj hnj => ?_
      by_cases hji : j = i
      · rwa [hji]
      · have hnew := hnone j hj
        rw [update_of_ne hji] at hnew
        exact hnew hnj

theorem put (h : Held n slots files taken) (hi : i < n) (hfree : (slots i).nref = 0)
    (hnew : files fd = none) (hnone : ∀ j < n, (slots j).nref ≠ 0 → (slots j).lfile ≠ lfile)
    (hfile : file.lfile = lfile) (hnref : fs.nref = 1) (hlfile : fs.lfile = lfile)
    (hfd : fs.fd = fd) :
    Held n (update slots i fs) (update files fd (some file)) taken := by
  have hempty := h.absent lfile hnone
  have hother : ∀ {j}, j < n → j ≠ i → (slots j).nref ≠ 0 →
      update files fd (some file) (slots j).fd = files (slots j).fd := by
    intro j hj _ hnj
    refine update_of_ne (fun heq => ?_) _ _
    obtain ⟨file', hfile', -⟩ := h.isOpen j hj hnj
    rw [heq, hnew] at hfile'
    cases hfile'
  refine ⟨fun j hj => ?_, fun j hj hnj => ?_, fun j hj k hk hnj hnk heq => ?_,
    fun j hj hnj => ?_, fun j hj hnj r hr => ?_, fun lfile' hnone' => ?_⟩
  · by_cases hji : j = i
    · rw [hji, update_self, hnref]
      decide
    · rw [update_of_ne hji]
      exact h.nonneg j hj
  · by_cases hji : j = i
    · rw [hji, update_self, hfd, update_self]
      exact ⟨file, rfl, hfile.trans hlfile.symm⟩
    · rw [update_of_ne hji] at hnj ⊢
      rw [hother hj hji hnj]
      exact h.isOpen j hj hnj
  · by_cases hji : j = i
    · by_cases hki : k = i
      · rw [hji, hki]
      · rw [hji, update_self, update_of_ne hki, hlfile] at heq
        rw [update_of_ne hki] at hnk
        exact absurd heq.symm (hnone k hk hnk)
    · rw [update_of_ne hji] at hnj heq
      by_cases hki : k = i
      · rw [hki, update_self, hlfile] at heq
        exact absurd heq (hnone j hj hnj)
      · rw [update_of_ne hki] at hnk heq
        exact h.single j hj k hk hnj hnk heq
  · by_cases hji : j = i
    · rw [hji, update_self, hlfile, hempty, hnref]
      rfl
    · rw [update_of_ne hji] at hnj ⊢
      exact h.counted j hj hnj
  · by_cases hji : j = i
    · rw [hji, update_self, hlfile, hempty] at hr
      cases hr
    · rw [update_of_ne hji] at hnj hr ⊢
      rw [hother hj hji hnj]
      exact h.same j hj hnj r hr
  · refine h.absent lfile' fun j hj hnj => ?_
    have hji : j ≠ i := by
      rintro rfl
      exact hnj hfree
    have hslot := hnone' j hj
    rw [update_of_ne hji] at hslot
    exact hslot hnj

/-- The count of a slot in use is changed together with the references of its lfile. -/
theorem recount (h : Held n slots files taken) (hi : i < n) (hni : (slots i).nref ≠ 0)
    {rs : List (Int × Option OpenFile)} (hnref : fs.nref = rs.length + 1)
    (hlfile : fs.lfile = (slots i).lfile) (hfd : fs.fd = (slots i).fd)
    (hrs : ∀ r ∈ rs, r = ((slots i).fd, files (slots i).fd)) :
    Held n (update slots i fs) files (update taken (slots i).lfile rs) := by
  have hactive : ∀ {j}, j < n → (update slots i fs j).nref ≠ 0 → (slots j).nref ≠ 0 := by
    intro j _ hnj
    by_cases hji : j = i
    · rwa [hji]
    · rwa [update_of_ne hji] at hnj
  have hfields : ∀ j, (update slots i fs j).lfile = (slots j).lfile ∧
      (update slots i fs j).fd = (slots j).fd := by
    intro j
    by_cases hji : j = i
    · rw [hji, update_self]
      exact ⟨hlfile, hfd⟩
    · rw [update_of_ne hji]
      exact ⟨rfl, rfl⟩
  have hdiffers : ∀ {j}, j < n → (slots j).nref ≠ 0 → j ≠ i →
      (slots j).lfile ≠ (slots i).lfile := fun hj hnj hne heq =>
    hne (h.single _ hj i hi hnj hni heq)
  refine ⟨fun j hj => ?_, fun j hj hnj => ?_, fun j hj k hk hnj hnk heq => ?_,
    fun j hj hnj => ?_, fun j hj hnj r hr => ?_, fun lfile hnone => ?_⟩
  · by_cases hji : j = i
    · rw [hji, update_self, hnref]
      omega
    · rw [update_of_ne hji]
      exact h.nonneg j hj
  · rw [(hfields j).1, (hfields j).2]
    exact h.isOpen j hj (hactive hj hnj)
  · rw [(hfields j).1, (hfields k).1] at heq
    exact h.single j hj k hk (hactive hj hnj) (hactive hk hnk) heq
  · by_cases hji : j = i
    · rw [hji, update_self, hlfile, update_self, hnref]
    · rw [update_of_ne hji] at hnj ⊢
      rw [update_of_ne (hdiffers hj hnj hji)]
      exact h.counted j hj hnj
  · rw [(hfields j).2]
    rw [(hfields j).1] at hr
    by_cases hji : j = i
    · rw [hji] at hr ⊢
      rw [update_self] at hr
      exact hrs r hr
    · have hnj' := hactive hj hnj
      rw [update_of_ne (hdiffers hj hnj' hji)] at hr
      exact h.same j hj hnj' r hr
  · have hne : lfile ≠ (slots i).lfile := by
      rintro rfl
      refine hnone i hi ?_ (hfields i).1
      rw [update_self, hnref]
      omega
    rw [update_of_ne hne]
    refine h.absent lfile fun j hj hnj heq => ?_
    refine hnone j hj ?_ ((hfields j).1.trans heq)
    by_cases hji : j = i
    · rw [hji, update_self, hnref]
      omega
    · rwa [update_of_ne hji]

end Held

/-! ## Searching the cache -/

theorem fmFindlf_some (h : fmFindlf fc lfile = some i) :
    i < fc.nfiles ∧ (fc.slots i).nref ≠ 0 ∧ (fc.slots i).lfile = lfile := by
  have hmem := List.mem_of_find?_eq_some h
  have hprop := List.find?_some h
  exact ⟨List.mem_range.1 hmem, of_decide_eq_true hprop⟩

theorem fmFindlf_none (h : fmFindlf fc lfile = none) :
    ∀ i < fc.nfiles, (fc.slots i).nref ≠ 0 → (fc.slots i).lfile ≠ lfile := by
  intro i hi hni hlfile
  have hnot := List.find?_eq_none.1 h i (List.mem_range.2 hi)
  exact hnot (decide_eq_true ⟨hni, hlfile⟩)

theorem oldestSlot_some {m k : Nat} {lru : Int} {oldest : Option Nat}
    (h : oldestSlot slots m k lru oldest = some i) :
    oldest = some i ∨ k ≤ i ∧ i < k + m ∧ (slots i).nref ≤ 1 := by
  induction m generalizing k lru oldest with
  | zero => exact .inl h
  | succ m ih =>
      rw [oldestSlot] at h
      split at h
      next hchosen =>
        split at h
        · obtain rfl := Option.some.inj h
          exact .inr ⟨le_rfl, by omega, hchosen.1⟩
        · rcases ih h with heq | hlater
          · obtain rfl := Option.some.inj heq
            exact .inr ⟨le_rfl, by omega, hchosen.1⟩
          · exact .inr (by omega)
      next =>
        rcases ih h with heq | hlater
        · exact .inl heq
        · exact .inr (by omega)

/-! ## Opening a file in a slot -/

/-- What every call keeps. -/
def Session.Inv (s : Session) : Prop :=
  Held s.fm.cache.nfiles s.fm.cache.slots s.fm.fiodes s.taken

theorem Session.Inv.cacheValid (h : s.Inv) : s.CacheValid where
  isOpen := h.isOpen
  single := h.single
  held lfile r hr := by
    -- a lfile of which something has been handed out has a slot
    have hslot : ∃ i < s.fm.cache.nfiles, (s.fm.cache.slots i).nref ≠ 0 ∧
        (s.fm.cache.slots i).lfile = lfile := by
      by_contra hnone
      rw [h.absent lfile fun i hi hni heq => hnone ⟨i, hi, hni, heq⟩] at hr
      cases hr
    obtain ⟨i, hi, hni, rfl⟩ := hslot
    obtain ⟨file, hfile, hlfile⟩ := h.isOpen i hi hni
    obtain rfl := h.same i hi hni r hr
    exact ⟨file, hfile, hfile, hlfile⟩

theorem reference_inv (fm : Fm) (fc : Fcache) (h : Held fc.nfiles fc.slots fm.fiodes taken) (hi : i < fc.nfiles)
    (hni : (fc.slots i).nref ≠ 0) :
    (Session.handOut taken (fc.slots i).lfile (reference fm fc i)).Inv := by
  have hcounted := h.counted i hi hni
  refine h.recount hi hni ?_ rfl rfl ?_
  · rw [List.length_cons]
    push_cast
    omega
  · intro r hr
    rcases List.mem_cons.1 hr with rfl | hold
    · rfl
    · exact h.same i hi hni r hold

theorem openInSlot_inv (hi : i < fc.nfiles)
    (h : Held fc.nfiles (update fc.slots i { fc.slots i with nref := 0 }) fm.fiodes taken)
    (hnew : fm.fiodes fd = none)
    (hnone : ∀ j < fc.nfiles, j ≠ i → (fc.slots j).nref ≠ 0 → (fc.slots j).lfile ≠ lfile) :
    (Session.handOut taken lfile (openInSlot fm fc i lfile mode type (some fd))).Inv := by
  have hfree : ∀ j < fc.nfiles,
      (update fc.slots i { fc.slots i with nref := 0 } j).nref ≠ 0 →
      (update fc.slots i { fc.slots i with nref := 0 } j).lfile ≠ lfile := by
    intro j hj hnj
    by_cases hji : j = i
    · rw [hji, update_self] at hnj
      exact absurd rfl hnj
    · rw [update_of_ne hji] at hnj ⊢
      exact hnone j hj hji hnj
  have hput : Held fc.nfiles
      (update (update fc.slots i { fc.slots i with nref := 0 }) i
        { fc.slots i with fd, nref := 1, lfile })
      (update fm.fiodes fd (some ⟨lfile, type, fm.nopened⟩)) taken :=
    h.put hi (by rw [update_self]) hnew hfree rfl rfl rfl rfl
  rw [update_idem] at hput
  have hslot : (update fc.slots i { fc.slots i with fd, nref := 1, lfile } i).lfile = lfile := by
    rw [update_self]
  have hreference := reference_inv
    { fm with
      fiodes := update fm.fiodes fd (some ⟨lfile, type, fm.nopened⟩)
      fwrite := update fm.fwrite fd
        ((if mode = .writeOnly ∨ mode = .append then .readWrite else mode) ≠ Mode.readOnly)
      nopened := fm.nopened + 1 }
    { fc with slots := update fc.slots i { fc.slots i with fd, nref := 1, lfile } }
    hput hi (by simp)
  rw [hslot] at hreference
  rw [openInSlot, fmFopen]
  simp only [Option.bind_eq_bind, Option.bind_some, if_pos hnew, Option.pure_def]
  exact hreference

theorem openInSlot_none (h : ∀ fd, answer.fopen = some fd → fm.fiodes fd ≠ none) :
    openInSlot fm fc i lfile mode type answer.fopen = (fm, .error .fopen) := by
  have hfopen : ∀ acmode, fmFopen fm lfile acmode type answer.fopen = none := by
    intro acmode
    cases hanswer : answer.fopen with
    | none => rfl
    | some fd => exact if_neg (h fd hanswer)
  rw [openInSlot]
  simp only [hfopen]

theorem close_open (hopen : fm.fiodes fd ≠ none) (closing : Closing) :
    close fm fd closing =
      if closing = .notFlushed then (fm, false)
      else ({ fm with fiodes := update fm.fiodes fd none }, closing = .done) := by
  unfold close
  rw [if_neg hopen]
  cases closing <;> rfl

theorem reopen_inv (fm : Fm) (hfc : fm.cache = fc) (h : Held fc.nfiles fc.slots fm.fiodes taken)
    (hi : i < fc.nfiles)
    (hnone : ∀ j < fc.nfiles, j ≠ i → (fc.slots j).nref ≠ 0 → (fc.slots j).lfile ≠ lfile)
    (hreplace : (fc.slots i).nref = 1 → answer.closing = .notFlushed ∨
      answer.closing = .done ∧ fmLocked fm lfile = false ∧
        ∃ fd, answer.fopen = some fd ∧ (fd = (fc.slots i).fd ∨ fm.fiodes fd = none)) :
    (Session.handOut taken lfile (reopen fm fc i lfile mode type answer)).Inv := by
  have hkept : ∀ e, (Session.handOut taken lfile (fm, .error e)).Inv := by
    intro e
    rw [← hfc] at h
    exact h
  have hnonneg := h.nonneg i hi
  rw [reopen]
  by_cases hbusy : (fc.slots i).nref > 1
  · rw [if_pos hbusy]
    exact hkept _
  rw [if_neg hbusy]
  by_cases hone : (fc.slots i).nref = 1
  · obtain ⟨file, hfile, -⟩ := h.isOpen i hi (by omega)
    simp only [if_pos hone, close_open (by rw [hfile]; exact Option.some_ne_none file)]
    rcases hreplace hone with hclosing | ⟨hclosing, hlocked, fd, hfd, hfresh⟩
    · rw [hclosing]
      exact hkept _
    · have hdrop : Held fc.nfiles (update fc.slots i { fc.slots i with nref := 0 })
          (update fm.fiodes (fc.slots i).fd none) taken :=
        h.drop hi hone rfl fun fd hne => update_of_ne hne _ _
      have hnew : update fm.fiodes (fc.slots i).fd none fd = none := by
        by_cases heq : fd = (fc.slots i).fd
        · rw [heq, update_self]
        · rw [update_of_ne heq]
          exact hfresh.resolve_left heq
      rw [hclosing, hfd]
      simp only [reduceCtorEq, if_false, decide_true, not_true]
      rw [if_neg (by
        intro h
        exact absurd (hlocked.symm.trans h) Bool.false_ne_true)]
      exact openInSlot_inv hi hdrop hnew hnone
  · have hfree : (fc.slots i).nref = 0 := by omega
    simp only [if_neg hone, not_true, if_false]
    by_cases hlocked : fmLocked fm lfile = true
    · rw [if_pos hlocked]
      exact hkept _
    rw [if_neg hlocked]
    by_cases hopens : ∃ fd, answer.fopen = some fd ∧ fm.fiodes fd = none
    · obtain ⟨fd, hfd, hnew⟩ := hopens
      rw [hfd]
      refine openInSlot_inv hi ?_ hnew hnone
      rwa [← hfree, update_eq_self]
    · rw [openInSlot_none fun fd hfd hnew => hopens ⟨fd, hfd, hnew⟩]
      exact hkept _

/-- The file of an idle slot is closed, and no other one is put in its place. -/
theorem reopen_breaks (fm : Fm) (fc : Fcache) (mode : Mode) (type : Int) (hone : (fc.slots i).nref = 1)
    (hopen : fm.fiodes (fc.slots i).fd ≠ none)
    (hfails : ¬ (answer.closing = .notFlushed ∨
      answer.closing = .done ∧ fmLocked fm lfile = false ∧
        ∃ fd, answer.fopen = some fd ∧ (fd = (fc.slots i).fd ∨ fm.fiodes fd = none))) :
    ∃ e, reopen fm fc i lfile mode type answer =
      ({ fm with fiodes := update fm.fiodes (fc.slots i).fd none }, .error e) := by
  obtain ⟨hflushed, hreplaced⟩ := not_or.1 hfails
  rw [reopen, if_neg (by omega)]
  simp only [if_pos hone, close_open hopen, if_neg hflushed]
  by_cases hdone : answer.closing = .done
  · simp only [hdone, decide_true, not_true, if_false]
    by_cases hlocked : fmLocked fm lfile = true
    · exact ⟨_, if_pos hlocked⟩
    · refine ⟨_, (if_neg hlocked).trans (openInSlot_none fun fd hfd hnew => hreplaced ?_)⟩
      refine ⟨hdone, Bool.eq_false_iff.2 hlocked, fd, hfd, ?_⟩
      by_cases heq : fd = (fc.slots i).fd
      · exact .inl heq
      · exact .inr ((update_of_ne heq _ _).symm.trans hnew)
  · simp only [hdone, decide_false, Bool.false_eq_true, not_false_iff, if_true]
    exact ⟨_, rfl⟩

/-! ## The calls -/

theorem fmGetfd_cases (fm : Fm) (lfile : Int) (mode : Mode) (type : Int) (answer : Answer) :
    (∃ i, fmFindlf fm.cache lfile = some i ∧ reopened fm lfile mode = none ∧
      fmGetfd fm lfile mode type answer =
        reference (fm.withCache (fm.cache.access lfile)) (fm.cache.access lfile) i) ∨
    (∃ i, reopened fm lfile mode = some i ∧
      fmGetfd fm lfile mode type answer =
        reopen (fm.withCache (fm.cache.access lfile)) (fm.cache.access lfile) i lfile mode type
          answer) ∨
    reopened fm lfile mode = none ∧
      fmGetfd fm lfile mode type answer =
        (fm.withCache (fm.cache.access lfile), .error .fmfcfull) := by
  have hfind' : fmFindlf (fm.cache.access lfile) lfile = fmFindlf fm.cache lfile := rfl
  rw [fmGetfd, reopened]
  simp only [hfind']
  cases hfind : fmFindlf fm.cache lfile with
  | none =>
      have hsearch : oldestSlot (fm.cache.access lfile).slots (fm.cache.access lfile).nfiles 0 0
          none = oldestSlot fm.cache.slots fm.cache.nfiles 0 0 none := rfl
      simp only [hsearch]
      cases oldestSlot fm.cache.slots fm.cache.nfiles 0 0 none with
      | none => exact .inr (.inr ⟨rfl, rfl⟩)
      | some i => exact .inr (.inl ⟨i, rfl, rfl⟩)
  | some i =>
      have hmust : mustReopen (fm.withCache (fm.cache.access lfile))
          ((fm.cache.access lfile).slots i) mode = mustReopen fm (fm.cache.slots i) mode := rfl
      simp only [hmust]
      split
      · exact .inr (.inl ⟨i, rfl, rfl⟩)
      · exact .inl ⟨i, rfl, rfl, rfl⟩

theorem reopened_some (h : Held fm.cache.nfiles fm.cache.slots fm.fiodes taken)
    (hi : reopened fm lfile mode = some i) :
    i < fm.cache.nfiles ∧ ∀ j < fm.cache.nfiles, j ≠ i → (fm.cache.slots j).nref ≠ 0 →
      (fm.cache.slots j).lfile ≠ lfile := by
  rw [reopened] at hi
  split at hi
  next k hfind =>
    split at hi
    · obtain rfl := Option.some.inj hi
      obtain ⟨hlt, hni, hlfile⟩ := fmFindlf_some hfind
      refine ⟨hlt, fun j hj hne hnj heq => hne ?_⟩
      exact h.single j hj k hlt hnj hni (heq.trans hlfile.symm)
    · cases hi
  next hfind =>
    rcases oldestSlot_some hi with hnone | ⟨-, hlt, -⟩
    · cases hnone
    · exact ⟨by omega, fun j hj _ => fmFindlf_none hfind j hj⟩

theorem getfd_inv (h : s.Inv) (hmeets : s.Replaces (.getfd lfile mode type, answer)) :
    (s.call (.getfd lfile mode type, answer)).Inv := by
  have hinv : Held s.fm.cache.nfiles s.fm.cache.slots s.fm.fiodes s.taken := h
  rw [Session.call]
  rcases fmGetfd_cases s.fm lfile mode type answer with
    ⟨i, hfind, -, hcall⟩ | ⟨i, hreopened, hcall⟩ | ⟨-, hcall⟩
  · rw [hcall]
    obtain ⟨hi, hni, rfl⟩ := fmFindlf_some hfind
    exact reference_inv (s.fm.withCache (s.fm.cache.access _)) (s.fm.cache.access _) hinv hi hni
  · rw [hcall]
    obtain ⟨hi, hnone⟩ := reopened_some hinv hreopened
    exact reopen_inv (s.fm.withCache (s.fm.cache.access _)) rfl hinv hi hnone
      (hmeets i hreopened)
  · rw [hcall]
    exact hinv

theorem getfd_breaks (h : s.Inv) (hfails : ¬ s.Replaces (.getfd lfile mode type, answer)) :
    ¬ (s.call (.getfd lfile mode type, answer)).CacheValid := by
  intro hvalid
  obtain ⟨i, hi⟩ := not_forall.1 hfails
  simp only [Classical.not_imp] at hi
  obtain ⟨hreopened, hone, hnot⟩ := hi
  obtain ⟨hlt, -⟩ := reopened_some h hreopened
  have hopen : s.fm.fiodes (s.fm.cache.slots i).fd ≠ none := by
    obtain ⟨file, hfile, -⟩ := Held.isOpen h i hlt (by omega)
    rw [hfile]
    exact Option.some_ne_none file
  rcases fmGetfd_cases s.fm lfile mode type answer with
    ⟨k, -, hnone, -⟩ | ⟨k, hsome, hcall⟩ | ⟨hnone, -⟩
  · rw [hnone] at hreopened
    cases hreopened
  · obtain rfl := Option.some.inj (hsome.symm.trans hreopened)
    obtain ⟨e, hreopen⟩ := reopen_breaks (s.fm.withCache (s.fm.cache.access lfile))
      (s.fm.cache.access lfile) mode type hone hopen hnot
    rw [hreopen] at hcall
    rw [Session.call, hcall] at hvalid
    obtain ⟨file', hfile', -⟩ := hvalid.isOpen k hlt (by
      intro hzero
      have hzero' : (s.fm.cache.slots k).nref = 0 := hzero
      omega)
    have hclosed : update s.fm.fiodes (s.fm.cache.slots k).fd none (s.fm.cache.slots k).fd =
      some file' := hfile'
    rw [update_self] at hclosed
    cases hclosed
  · rw [hnone] at hreopened
    cases hreopened

theorem close_fiodes (fm : Fm) (closing : Closing) :
    ∀ fd', fd' ≠ fd → (close fm fd closing).1.fiodes fd' = fm.fiodes fd' := by
  intro fd' hne
  unfold close
  split
  · rfl
  · cases closing
    · exact update_of_ne hne _ _
    · rfl
    · exact update_of_ne hne _ _

theorem retfd_inv (h : s.Inv) : (s.call (.retfd lfile, answer)).Inv := by
  have hinv : Held s.fm.cache.nfiles s.fm.cache.slots s.fm.fiodes s.taken := h
  have hnothing : s.taken lfile = [] → update s.taken lfile (s.taken lfile).tail = s.taken := by
    intro hempty
    rw [hempty, List.tail_nil, ← hempty, update_eq_self]
  rw [Session.call, fmRetfd]
  cases hfind : fmFindlf s.fm.cache lfile with
  | none =>
      rw [hnothing (hinv.absent lfile (fmFindlf_none hfind))]
      exact hinv
  | some i =>
      obtain ⟨hi, hni, rfl⟩ := fmFindlf_some hfind
      have hnonneg := hinv.nonneg i hi
      simp only
      split
      next hidle =>
        have hone : (s.fm.cache.slots i).nref = 1 := by omega
        rw [hnothing (hinv.taken_idle hi hone)]
        exact hinv.drop hi hone rfl (close_fiodes (s.fm.withCache s.fm.cache) _)
      next hbusy =>
        have hcounted := hinv.counted i hi hni
        refine hinv.recount hi hni ?_ rfl rfl fun r hr => ?_
        · rw [List.length_tail]
          simp only
          omega
        · exact hinv.same i hi hni r (List.mem_of_mem_tail hr)

theorem lockout_inv (h : s.Inv) : (s.call (.lockout lfile, answer)).Inv := by
  have hinv : Held s.fm.cache.nfiles s.fm.cache.slots s.fm.fiodes s.taken := h
  rw [Session.call, fmLockout]
  cases hfind : fmFindlf s.fm.cache lfile with
  | none => exact hinv
  | some i =>
      obtain ⟨hi, hni, rfl⟩ := fmFindlf_some hfind
      have hnonneg := hinv.nonneg i hi
      simp only
      split
      · exact hinv
      next hidle =>
        have hone : (s.fm.cache.slots i).nref = 1 := by omega
        rw [if_pos (by omega)]
        split
        · refine hinv.drop hi hone ?_ (close_fiodes (s.fm.withCache s.fm.cache) _)
          simp only
          omega
        · exact hinv.drop hi hone rfl (close_fiodes (s.fm.withCache s.fm.cache) _)

/-! ## Runs -/

theorem call_inv (h : s.Inv) {c : Call × Answer} (hmeets : s.Replaces c) :
    (s.call c).Inv := by
  obtain ⟨call, answer⟩ := c
  cases call with
  | getfd lfile mode type => exact getfd_inv h hmeets
  | retfd lfile => exact retfd_inv h
  | lockout lfile => exact lockout_inv h
  | unlock lfile => exact h
  | fcsync => exact h

theorem call_breaks (h : s.Inv) {c : Call × Answer} (hfails : ¬ s.Replaces c) :
    ¬ (s.call c).CacheValid := by
  obtain ⟨call, answer⟩ := c
  cases call with
  | getfd lfile mode type => exact getfd_breaks h hfails
  | retfd lfile => exact absurd trivial hfails
  | lockout lfile => exact absurd trivial hfails
  | unlock lfile => exact absurd trivial hfails
  | fcsync => exact absurd trivial hfails

theorem start_inv (fm : Fm) : (Session.start fm).Inv where
  nonneg _ _ := Int.le_refl 0
  isOpen _ _ hni := absurd rfl hni
  single _ _ _ _ hni := absurd rfl hni
  counted _ _ hni := absurd rfl hni
  same _ _ hni := absurd rfl hni
  absent _ _ := rfl

theorem fcsync_open (h : s.CacheValid) : ∀ fd ∈ fmFcsync s.fm, s.fm.fiodes fd ≠ none := by
  intro fd hfd
  rw [fmFcsync] at hfd
  cases hcache : s.fm.fcache with
  | none =>
      rw [hcache] at hfd
      cases hfd
  | some fc =>
      have hfc : s.fm.cache = fc := by rw [Fm.cache, hcache, Option.getD_some]
      rw [hcache] at hfd
      simp only [List.mem_map, List.mem_filter, List.mem_range, decide_eq_true_eq] at hfd
      obtain ⟨i, ⟨hi, hni⟩, rfl⟩ := hfd
      rw [← hfc] at hi hni ⊢
      obtain ⟨file, hfile, -⟩ := h.isOpen i hi (by omega)
      rw [hfile]
      exact Option.some_ne_none file

/-- The cache is valid throughout a run if and only if no call closes the file of an idle
slot and then fails. -/
theorem cacheValid_iff (fm : Fm) (calls : List (Call × Answer)) :
    Always Session.call Session.CacheValid (Session.start fm) calls ↔
      EachStep Session.call Session.Replaces (Session.start fm) calls :=
  always_iff (fun _ => Session.Inv.cacheValid) (fun _ _ h => call_inv h)
    (fun _ _ h => call_breaks h) (start_inv fm)

/-- A cache of one slot, with a host that opens every file as descriptor 7. -/
def oneSlot : Fm := ⟨1, none, fun _ => false, fun _ => none, fun _ => false, 0⟩

/-- Lfile 2 is locked out, and asked for when lfile 1 is idle. -/
theorem not_cacheValid_lockedOut :
    ¬ Always Session.call Session.CacheValid (Session.start oneSlot)
      [(.lockout 2, ⟨.done, none⟩), (.getfd 1 .readOnly 0, ⟨.done, some 7⟩),
        (.retfd 1, ⟨.done, none⟩), (.getfd 2 .readOnly 0, ⟨.done, some 7⟩)] := by
  intro h
  obtain ⟨file, hfile, -⟩ := (h _ List.prefix_rfl).isOpen 0 (by decide) (by decide)
  have hclosed : none = some file := hfile
  cases hclosed

end Iraf.Fmio
