import Mathlib.Data.List.Forall2
import Iraf.Fnt.SublistEscapes

/-!
# The names of a field

The loop of `fntopnb` that concatenates the next element of each sublist of a field to a
file name, and puts it in the string buffer.  The lists themselves are what `fnt_mkpat`,
`fntopn`, `fntgfn` and the pattern matching give for the text of a sublist.
-/

namespace Iraf.Fnt

open StepMachine

def szFname : Nat := 511
def szDefstrbuf : Nat := 2048

/-- A name that `fntgfn` returns: `U_LDIR` when it was read from a directory or a list, and
`patindex` of the encoded pattern. -/
structure Entry where
  ldir : Option (List Char)
  rname : List Char
  index : Nat → Nat

/-- The substitution strings and the names of a sublist; `constant` is what is at `patp[i]`
when the sublist is a string with substitutions. -/
structure Expansion where
  edits : List (List Char)
  entries : List Entry
  constant : List Char
  index : Nat → Nat

structure Sublist where
  text : List Char
  flags : Flags
  list : Expansion

/-- The loop of `fnt_edit`: the strings with the indices of what they replace. -/
def editFrom (inp : List Char) : Nat → List (List Char × Nat × Nat) → List Char
  | ip, [] => inp.drop (ip - 1)
  | ip, (edit, ip1, ip2) :: edits =>
      if ip1 = 0 ∨ ip2 = 0 ∨ ip1 > ip2 then inp.drop (ip - 1)
      else (inp.drop (ip - 1)).take (ip1 - ip) ++ edit ++ editFrom inp ip2 edits

def fntEdit (inp : List Char) (edits : List (List Char)) (index : Nat → Nat) : List Char :=
  editFrom inp 1 (edits.zipIdx.map fun e => (e.1, index (e.2 * 2 + 1), index (e.2 * 2 + 2)))

namespace Sublist

/-- What is at `patp[i]`. -/
def patp (sub : Sublist) : List Char :=
  if sub.flags.isEdit ∧ ¬sub.flags.isTemplate then sub.list.constant else sub.text

/-- The next element, nothing at EOF, and the sublist after it. -/
def element (isUrl : Bool) (sub : Sublist) : Option (List Char) × Sublist :=
  if ¬isUrl ∧ (sub.flags.isTemplate ∨ sub.flags.isEdit) then
    if sub.flags.isTemplate then
      match sub.list.entries with
      | [] => (none, sub)
      | e :: entries =>
          let ldir := e.ldir.getD []
          (some (ldir ++ fntEdit (e.rname.drop ldir.length) sub.list.edits e.index),
            { sub with list := { sub.list with entries := entries } })
    else (some (fntEdit (sub.patp.take szFname) sub.list.edits sub.list.index), sub)
  else (some sub.patp, sub)

end Sublist

/-- The file name up to `op`, the extension that is set apart, and the last place of the
file name buffer that has been written. -/
structure Assembly where
  root : List Char
  extn : List Char
  written : Nat

/-- The last period, but not one at the first place. -/
def lastPeriod (root : List Char) : Nat → Option Nat
  | 0 => none
  | ip + 1 => if root[ip + 1]? = some '.' then some (ip + 1) else lastPeriod root ip

namespace Assembly

def start (written : Nat) : Assembly := ⟨[], [], written⟩

/-- Save the first extension field encountered. -/
def setApart (a : Assembly) : Assembly :=
  if a.extn = [] then
    match lastPeriod a.root (a.root.length - 1) with
    | some ip => { a with root := a.root.take ip, extn := (a.root.drop ip).take szFname }
    | none => a
  else a

def put (a : Assembly) (piece : List Char) : Assembly :=
  { a with root := a.root ++ piece
           written := max a.written (a.root ++ piece).length }

/-- Concatenate the next file element. -/
def concat (a : Assembly) (piece : List Char) : Assembly := a.setApart.put piece

end Assembly

/-- Concatenate the next element from each sublist; the name is empty at EOF. -/
def assemble (isUrl : Bool) : Assembly → List Sublist → Assembly × List Sublist
  | a, [] => (a, [])
  | a, sub :: subs =>
      match sub.element isUrl with
      | (none, sub) => ({ a.setApart with root := [] }, sub :: subs)
      | (some piece, sub) =>
          let r := assemble isUrl (a.concat piece) subs
          (r.1, sub :: r.2)

/-- The state between names: what is left of the sublists, the index of the next char of
the string buffer and its size, the last place of the file name buffer that has been
written, and whether all that was stored is in the string buffer. -/
structure Build where
  subs : List Sublist
  nextch : Nat
  szSbuf : Nat
  nameEnd : Nat
  stored : Bool

/-- A name is moved to the string buffer. -/
def Build.store (b : Build) (name : List Char) : Build :=
  let szSbuf := if b.nextch + name.length ≥ b.szSbuf then b.szSbuf + szDefstrbuf else b.szSbuf
  { b with szSbuf := szSbuf
           nextch := b.nextch + name.length + 1
           stored := b.stored && (b.nextch - 1 + name.length < szSbuf) }

/-- A turn of the loop that builds names. -/
def buildName (isUrl : Bool) (b : Build) : Except Empty (Build ⊕ Build) :=
  let r := assemble isUrl (.start b.nameEnd) b.subs
  let nlists := b.subs.countP fun sub => sub.flags.isTemplate
  if r.1.root = [] then .ok (.inr { b with subs := r.2, nameEnd := r.1.written })
  else
    let name := r.1.root ++ r.1.extn
    let b := { b with subs := r.2, nameEnd := max r.1.written name.length }.store name
    if nlists = 0 then .ok (.inr b) else .ok (.inl b)

/-! ## What fits -/

/-- What has been written is inside the buffers. -/
def Build.Inside (b : Build) : Prop :=
  b.nameEnd ≤ szFname ∧ b.stored = true ∧ b.nextch ≤ b.szSbuf

/-- All that the loop writes is inside the buffers. -/
def NamesInside (isUrl : Bool) (b : Build) : Prop :=
  ∀ c, (Reaches (buildName isUrl) b c ∨ Ends (buildName isUrl) b (.ok c)) → c.Inside

/-- The pieces of the next name, up to a list at its end, and whether there is none. -/
def pieces (isUrl : Bool) : List Sublist → List (List Char) × Bool
  | [] => ([], true)
  | sub :: subs =>
      match (sub.element isUrl).1 with
      | none => ([], false)
      | some piece => (piece :: (pieces isUrl subs).1, (pieces isUrl subs).2)

/-- The length of the name without the extension that is set apart, after some pieces. -/
def rootLength (ps : List (List Char)) : Nat :=
  (ps.foldl Assembly.concat (.start 0)).setApart.root.length

/-- The pieces of a name are not longer than a file name; when a list is at its end before
the name has all its pieces, each fits in what is left after the name so far. -/
def Fits (ps : List (List Char)) (complete : Bool) : Prop :=
  if complete then ps.flatten.length ≤ szFname
  else ∀ i (h : i < ps.length), rootLength (ps.take i) + ps[i].length ≤ szFname

/-- The sublists at the beginning of a turn. -/
inductive Turn (isUrl : Bool) (subs : List Sublist) : List Sublist → Prop
  | first : Turn isUrl subs subs
  | next {later : List Sublist} : Turn isUrl subs later → (pieces isUrl later).2 = true →
      (pieces isUrl later).1.flatten ≠ [] → (∃ sub ∈ later, sub.flags.isTemplate = true) →
      Turn isUrl subs (later.map fun sub => (sub.element isUrl).2)

/-- `is_url` after the last sublist. -/
def lastUrl (subs : List Sublist) : Bool := (subs.getLast?.map fun sub => sub.flags.isUrl).getD false

section Field

variable (lists : List Char → Flags → Expansion)

/-- The scan of a sublist leaves the text and the flags. -/
def Opens (raw : List Char) (sub : Sublist) : Prop :=
  ∃ after s, Ends scanStep (scanStart raw after) (.ok s) ∧
    (∀ k, k ≤ sub.text.length → s.mem k = sub.text[k]?) ∧
    (s.isUrl = sub.flags.isUrl ∧ s.isTemplate = sub.flags.isTemplate ∧
      s.isEdit = sub.flags.isEdit) ∧
    sub.list = lists sub.text sub.flags

/-- A field of a template: the scan stays inside each sublist, and the names that are then
built are inside the file name buffer and the string buffer, whatever the string buffer has
in it already. -/
def FieldInside (raws : List (List Char)) : Prop :=
  (∀ raw ∈ raws, ScanInside raw) ∧
    ∀ subs nextch szSbuf, nextch ≤ szSbuf → List.Forall₂ (Opens lists) raws subs →
      NamesInside (lastUrl subs)
        { subs := subs, nextch := nextch, szSbuf := szSbuf, nameEnd := 0, stored := true }

/-- A sublist without escapes, with the flags of its metacharacters. -/
def openSublist (raw : List Char) : Sublist :=
  let flags := ((scanChars .plain .none raw).map Prod.snd).getD .none
  ⟨unescape raw, flags, lists (unescape raw) flags⟩

def openField (raws : List (List Char)) : List Sublist := raws.map (openSublist lists)

end Field

/-! ## Assembling a name -/

section Assembled

variable {a b : Assembly} {piece : List Char} {ps : List (List Char)}

theorem lastPeriod_lt {root : List Char} {n ip : Nat} (h : lastPeriod root n = some ip) :
    1 ≤ ip ∧ ip < root.length := by
  induction n with
  | zero => cases h
  | succ n ih =>
      rw [lastPeriod] at h
      split at h
      next hperiod =>
        obtain rfl := Option.some.inj h
        obtain ⟨hlt, -⟩ := List.getElem?_eq_some_iff.1 hperiod
        exact ⟨Nat.succ_pos n, hlt⟩
      · exact ih h

namespace Assembly

theorem setApart_cases (a : Assembly) : a.setApart = a ∨
    (a.extn = [] ∧ ∃ ip, 1 ≤ ip ∧ ip < a.root.length ∧ a.setApart =
      { a with root := a.root.take ip, extn := (a.root.drop ip).take szFname }) := by
  unfold setApart
  split
  next hextn =>
    split
    next ip hip =>
      obtain ⟨hlo, hhi⟩ := lastPeriod_lt hip
      exact .inr ⟨hextn, ip, hlo, hhi, rfl⟩
    · exact .inl rfl
  · exact .inl rfl

/-- The length of what has been concatenated is at most `n`, and `n` when no extension has
been set apart or all is in the buffer. -/
structure Sums (n : Nat) (a : Assembly) : Prop where
  le : a.root.length + a.extn.length ≤ n
  plain : a.extn = [] → a.root.length = n
  root : a.extn ≠ [] → a.root ≠ []
  exact : a.written ≤ szFname → a.root.length + a.extn.length = n
  written : a.root.length ≤ a.written

theorem Sums.setApart {n : Nat} (h : a.Sums n) :
    a.setApart.root.length + a.setApart.extn.length ≤ n ∧
      (a.setApart.extn = [] → a.setApart.root.length = n) ∧
      (a.setApart.extn ≠ [] → a.setApart.root ≠ []) ∧
      (a.written ≤ szFname → a.setApart.root.length + a.setApart.extn.length = n) := by
  rcases a.setApart_cases with hsame | ⟨hextn, ip, hlo, hhi, happart⟩
  · rw [hsame]
    exact ⟨h.le, h.plain, h.root, h.exact⟩
  · have hplain := h.plain hextn
    have hwritten := h.written
    have hszFname : szFname = 511 := rfl
    have htake : (a.root.take ip).length = ip := List.length_take_of_le (by omega)
    have hdrop : ((a.root.drop ip).take szFname).length = min szFname (n - ip) := by
      rw [List.length_take, List.length_drop, hplain]
    rw [happart]
    dsimp only
    refine ⟨?_, fun hnil => ?_, fun _ hnil => ?_, fun hle => ?_⟩
    · omega
    · rw [hnil, List.length_nil] at hdrop
      omega
    · rw [hnil, List.length_nil] at htake
      omega
    · omega

theorem written_setApart (a : Assembly) : a.setApart.written = a.written := by
  rcases a.setApart_cases with hsame | ⟨-, ip, -, -, happart⟩
  · rw [hsame]
  · rw [happart]

theorem Sums.concat {n : Nat} (h : a.Sums n) (piece : List Char) :
    (a.concat piece).Sums (n + piece.length) := by
  obtain ⟨hle, hplain, hroot, hexact⟩ := h.setApart
  have hlen : (a.concat piece).root.length = a.setApart.root.length + piece.length :=
    List.length_append
  have hextn : (a.concat piece).extn = a.setApart.extn := rfl
  have hwritten : (a.concat piece).written = max a.written (a.concat piece).root.length := by
    rw [← a.written_setApart]
    rfl
  refine ⟨?_, fun hnil => ?_, fun hne hnil => ?_, fun hw => ?_, ?_⟩
  · rw [hlen, hextn]
    omega
  · rw [hlen, hplain hnil]
  · exact hroot hne (List.append_eq_nil_iff.1 hnil).1
  · have hsum := hexact (by omega)
    rw [hlen, hextn]
    omega
  · omega

theorem sums_start (written : Nat) : (start written).Sums 0 :=
  ⟨le_rfl, fun _ => rfl, fun hne => absurd rfl hne, fun _ => rfl, Nat.zero_le _⟩

theorem sums_foldl (written : Nat) (ps : List (List Char)) :
    (ps.foldl concat (start written)).Sums ps.flatten.length := by
  induction ps using List.reverseRecOn with
  | nil => exact sums_start written
  | append_singleton ps p ih =>
      rw [List.foldl_append, List.flatten_append, List.length_append, List.flatten_singleton]
      exact ih.concat p

theorem concat_congr (hroot : a.root = b.root) (hextn : a.extn = b.extn) (piece : List Char) :
    (a.concat piece).root = (b.concat piece).root ∧
      (a.concat piece).extn = (b.concat piece).extn := by
  have hsame : a.setApart.root = b.setApart.root ∧ a.setApart.extn = b.setApart.extn := by
    unfold setApart
    rw [hroot, hextn]
    split
    · split
      · exact ⟨rfl, rfl⟩
      · exact ⟨hroot, hextn⟩
    · exact ⟨hroot, hextn⟩
  exact ⟨congrArg (· ++ piece) hsame.1, hsame.2⟩

theorem foldl_congr (w w' : Nat) (ps : List (List Char)) :
    (ps.foldl concat (start w)).root = (ps.foldl concat (start w')).root ∧
      (ps.foldl concat (start w)).extn = (ps.foldl concat (start w')).extn := by
  induction ps using List.reverseRecOn with
  | nil => exact ⟨rfl, rfl⟩
  | append_singleton ps p ih =>
      rw [List.foldl_append, List.foldl_append]
      exact concat_congr ih.1 ih.2 p

theorem rootLength_eq (written : Nat) (ps : List (List Char)) :
    (ps.foldl concat (start written)).setApart.root.length = rootLength ps := by
  obtain ⟨hroot, hextn⟩ := foldl_congr written 0 ps
  have hsame := (concat_congr hroot hextn []).1
  rw [rootLength]
  exact congrArg List.length (List.append_cancel_right hsame)

theorem written_le_iff {written : Nat} (hw : written ≤ szFname) (ps : List (List Char)) :
    (ps.foldl concat (start written)).written ≤ szFname ↔
      ∀ i (h : i < ps.length), rootLength (ps.take i) + ps[i].length ≤ szFname := by
  induction ps using List.reverseRecOn with
  | nil => exact iff_of_true hw fun i h => absurd h (Nat.not_lt_zero i)
  | append_singleton ps p ih =>
      have hlast : ((ps ++ [p]).foldl concat (start written)).written =
          max (ps.foldl concat (start written)).written (rootLength ps + p.length) := by
        rw [List.foldl_append, ← rootLength_eq written ps, ← List.length_append]
        change max (ps.foldl concat (start written)).setApart.written _ = _
        rw [written_setApart]
      rw [hlast, Nat.max_le, ih]
      constructor
      · rintro ⟨hbefore, hp⟩ i hi
        rw [List.length_append, List.length_singleton] at hi
        rcases Nat.lt_or_ge i ps.length with hlt | hge
        · rw [List.take_append_of_le_length (by omega), List.getElem_append_left hlt]
          exact hbefore i hlt
        · obtain rfl : i = ps.length := by omega
          rw [List.take_left' rfl, List.getElem_concat_length rfl]
          exact hp
      · intro h
        constructor
        · intro i hi
          have hfits := h i (by rw [List.length_append]; omega)
          rwa [List.take_append_of_le_length (by omega), List.getElem_append_left hi] at hfits
        · have hfits := h ps.length (by simp)
          rwa [List.take_left' rfl, List.getElem_concat_length rfl] at hfits

/-- A name that is complete is inside when its pieces are not longer than a file name. -/
theorem name_le_iff {written : Nat} (hw : written ≤ szFname) (ps : List (List Char)) :
    (max (ps.foldl concat (start written)).written
      ((ps.foldl concat (start written)).root ++ (ps.foldl concat (start written)).extn).length ≤
        szFname) ↔ ps.flatten.length ≤ szFname := by
  have hsum := sums_foldl written ps
  have hle := hsum.le
  rw [List.length_append, Nat.max_le]
  constructor
  · rintro ⟨hin, hname⟩
    rwa [hsum.exact hin] at hname
  · intro hflat
    refine ⟨(written_le_iff hw ps).2 fun i hi => ?_, by omega⟩
    have hbefore := (sums_foldl 0 (ps.take i)).setApart.1
    have hpart : ps = ps.take i ++ ps[i] :: ps.drop (i + 1) := by
      rw [List.getElem_cons_drop, List.take_append_drop]
    have hlen : ps.flatten.length =
        (ps.take i).flatten.length + (ps[i].length + (ps.drop (i + 1)).flatten.length) := by
      conv_lhs => rw [hpart]
      rw [List.flatten_append, List.flatten_cons, List.length_append, List.length_append]
    rw [rootLength]
    omega

theorem root_eq_nil_iff (written : Nat) (ps : List (List Char)) :
    (ps.foldl concat (start written)).root = [] ↔ ps.flatten = [] := by
  have hsum := sums_foldl written ps
  rw [← List.length_eq_zero_iff, ← List.length_eq_zero_iff (l := ps.flatten)]
  have hle := hsum.le
  constructor
  · intro hzero
    have hextn : (ps.foldl concat (start written)).extn = [] := by
      by_contra hne
      exact hsum.root hne (List.length_eq_zero_iff.1 hzero)
    rw [← hsum.plain hextn, hzero]
  · omega

end Assembly

/-! ## A turn of the loop -/

theorem assemble_spec (isUrl : Bool) (a : Assembly) (subs : List Sublist) :
    ((pieces isUrl subs).2 = true → assemble isUrl a subs =
      ((pieces isUrl subs).1.foldl Assembly.concat a,
        subs.map fun sub => (sub.element isUrl).2)) ∧
    ((pieces isUrl subs).2 = false → (assemble isUrl a subs).1.root = [] ∧
      (assemble isUrl a subs).1.written =
        ((pieces isUrl subs).1.foldl Assembly.concat a).written) := by
  induction subs generalizing a with
  | nil => exact ⟨fun _ => rfl, fun h => nomatch h⟩
  | cons sub subs ih =>
      rw [pieces, assemble]
      cases helement : sub.element isUrl with
      | mk piece later =>
          cases piece with
          | none => exact ⟨fun h => (nomatch h), fun _ => ⟨rfl, a.written_setApart⟩⟩
          | some piece =>
              obtain ⟨hcomplete, hcut⟩ := ih (a.concat piece)
              constructor
              · intro h
                dsimp only at h ⊢
                rw [hcomplete h, List.map_cons, helement]
                rfl
              · intro h
                exact hcut h

theorem Build.store_inside {c : Build} {name : List Char} (hname : name.length ≤ szFname)
    (hstored : c.stored = true) (hroom : c.nextch ≤ c.szSbuf) :
    (c.store name).stored = true ∧ (c.store name).nextch ≤ (c.store name).szSbuf := by
  have hszFname : szFname = 511 := rfl
  have hszDefstrbuf : szDefstrbuf = 2048 := rfl
  unfold Build.store
  dsimp only
  rw [hstored, Bool.true_and, decide_eq_true_iff]
  split <;> omega

section Turns

variable {isUrl : Bool} {c : Build}

theorem buildName_cut (hend : (pieces isUrl c.subs).2 = false) :
    ∃ d, buildName isUrl c = .ok (.inr d) ∧
      (c.Inside → (d.Inside ↔ Fits (pieces isUrl c.subs).1 false)) := by
  obtain ⟨hroot, hwritten⟩ := (assemble_spec isUrl (.start c.nameEnd) c.subs).2 hend
  refine ⟨{ c with subs := (assemble isUrl (.start c.nameEnd) c.subs).2
                   nameEnd := (assemble isUrl (.start c.nameEnd) c.subs).1.written }, ?_, ?_⟩
  · rw [buildName]
    dsimp only
    rw [if_pos hroot]
  · rintro ⟨hname, hstored, hroom⟩
    have hiff := Assembly.written_le_iff hname (pieces isUrl c.subs).1
    rw [← hwritten] at hiff
    rw [Fits, if_neg Bool.false_ne_true, ← hiff]
    exact ⟨fun h => h.1, fun h => ⟨h, hstored, hroom⟩⟩

theorem buildName_empty (hall : (pieces isUrl c.subs).2 = true)
    (hnil : (pieces isUrl c.subs).1.flatten = []) :
    ∃ d, buildName isUrl c = .ok (.inr d) ∧ (c.Inside → d.Inside) := by
  have hassemble := (assemble_spec isUrl (.start c.nameEnd) c.subs).1 hall
  refine ⟨{ c with subs := (assemble isUrl (.start c.nameEnd) c.subs).2
                   nameEnd := (assemble isUrl (.start c.nameEnd) c.subs).1.written }, ?_, ?_⟩
  · rw [buildName]
    dsimp only
    rw [if_pos]
    rw [hassemble]
    exact (Assembly.root_eq_nil_iff _ _).2 hnil
  · rintro ⟨hname, hstored, hroom⟩
    have hle := (Assembly.name_le_iff hname (pieces isUrl c.subs).1).2
      (by rw [hnil]; exact Nat.zero_le _)
    refine ⟨?_, hstored, hroom⟩
    rw [hassemble]
    exact (Nat.le_max_left _ _).trans hle

theorem buildName_name (hall : (pieces isUrl c.subs).2 = true)
    (hne : (pieces isUrl c.subs).1.flatten ≠ []) :
    ∃ d, d.subs = c.subs.map (fun sub => (sub.element isUrl).2) ∧
      ((∃ sub ∈ c.subs, sub.flags.isTemplate = true) → buildName isUrl c = .ok (.inl d)) ∧
      (¬(∃ sub ∈ c.subs, sub.flags.isTemplate = true) → buildName isUrl c = .ok (.inr d)) ∧
      (c.Inside → (d.Inside ↔ Fits (pieces isUrl c.subs).1 true)) := by
  have hassemble := (assemble_spec isUrl (.start c.nameEnd) c.subs).1 hall
  have hroot : (assemble isUrl (.start c.nameEnd) c.subs).1.root ≠ [] := by
    rw [hassemble]
    exact mt (Assembly.root_eq_nil_iff _ _).1 hne
  have hlists : c.subs.countP (fun sub => sub.flags.isTemplate) = 0 ↔
      ¬∃ sub ∈ c.subs, sub.flags.isTemplate = true := by
    rw [List.countP_eq_zero]
    constructor
    · rintro h ⟨sub, hsub, htemplate⟩
      exact h sub hsub htemplate
    · exact fun h sub hsub htemplate => h ⟨sub, hsub, htemplate⟩
  obtain ⟨a, ha⟩ : ∃ a, a = (assemble isUrl (.start c.nameEnd) c.subs).1 := ⟨_, rfl⟩
  rw [← ha] at hroot
  refine ⟨{ c with subs := c.subs.map fun sub : Sublist => (sub.element isUrl).2
                   nameEnd := max a.written (a.root ++ a.extn).length }.store (a.root ++ a.extn),
    rfl, fun htemplate => ?_, fun hnone => ?_, ?_⟩
  · rw [buildName]
    dsimp only
    rw [← ha, if_neg hroot, if_neg fun hzero => hlists.1 hzero htemplate, hassemble]
  · rw [buildName]
    dsimp only
    rw [← ha, if_neg hroot, if_pos (hlists.2 hnone), hassemble]
  · rintro ⟨hname, hstored, hroom⟩
    have hiff := Assembly.name_le_iff hname (pieces isUrl c.subs).1
    have hfold : a = (pieces isUrl c.subs).1.foldl Assembly.concat (.start c.nameEnd) := by
      rw [ha, hassemble]
    rw [← hfold] at hiff
    rw [Fits, if_pos rfl, ← hiff]
    constructor
    · exact fun h => h.1
    · intro h
      exact ⟨h, Build.store_inside ((Nat.le_max_right _ _).trans h) hstored hroom⟩

end Turns

/-! ## All the names -/

theorem Turn.reached {isUrl : Bool} {c : Build} {later : List Sublist}
    (h : Turn isUrl c.subs later) : ∃ d, Reaches (buildName isUrl) c d ∧ d.subs = later := by
  induction h with
  | first => exact ⟨c, .refl c, rfl⟩
  | next _ hall hne htemplate ih =>
      obtain ⟨d, hreach, rfl⟩ := ih
      obtain ⟨e, hsubs, hnext, -, -⟩ := buildName_name hall hne
      exact ⟨e, hreach.trans (.one (hnext htemplate)), hsubs⟩

theorem namesInside_iff (isUrl : Bool) {c : Build} (hc : c.Inside) :
    NamesInside isUrl c ↔ ∀ later, Turn isUrl c.subs later →
      Fits (pieces isUrl later).1 (pieces isUrl later).2 := by
  constructor
  · intro h later hlater
    obtain ⟨d, hreach, rfl⟩ := hlater.reached
    have hd := h d (.inl hreach)
    have hended : ∀ e, buildName isUrl d = .ok (.inr e) → e.Inside := fun e he =>
      h e (.inr (hreach.ends_iff.2 (ends_result he)))
    cases hall : (pieces isUrl d.subs).2 with
    | false =>
        obtain ⟨e, he, hiff⟩ := buildName_cut hall
        exact (hiff hd).1 (hended e he)
    | true =>
        by_cases hnil : (pieces isUrl d.subs).1.flatten = []
        · rw [Fits, if_pos rfl, hnil]
          exact Nat.zero_le _
        · obtain ⟨e, -, hnext, hlast, hiff⟩ := buildName_name hall hnil
          refine (hiff hd).1 ?_
          by_cases htemplate : ∃ sub ∈ d.subs, sub.flags.isTemplate = true
          · exact h e (.inl (hreach.trans (.one (hnext htemplate))))
          · exact hended e (hlast htemplate)
  · intro h
    -- a turn keeps the buffers, and comes to another turn
    have hturn : ∀ d, d.Inside ∧ Turn isUrl c.subs d.subs →
        (∀ e, buildName isUrl d = .ok (.inl e) → e.Inside ∧ Turn isUrl c.subs e.subs) ∧
          ∀ e, buildName isUrl d = .ok (.inr e) → e.Inside := by
      rintro d ⟨hd, hreached⟩
      have hfits := h d.subs hreached
      cases hall : (pieces isUrl d.subs).2 with
      | false =>
          obtain ⟨e, he, hiff⟩ := buildName_cut hall
          rw [he]
          refine ⟨fun e' he' => (nomatch he'), fun e' he' => ?_⟩
          obtain rfl := Sum.inr.inj (Except.ok.inj he')
          exact (hiff hd).2 (hall ▸ hfits)
      | true =>
          by_cases hnil : (pieces isUrl d.subs).1.flatten = []
          · obtain ⟨e, he, hinside⟩ := buildName_empty hall hnil
            rw [he]
            refine ⟨fun e' he' => (nomatch he'), fun e' he' => ?_⟩
            obtain rfl := Sum.inr.inj (Except.ok.inj he')
            exact hinside hd
          · obtain ⟨e, hsubs, hnext, hlast, hiff⟩ := buildName_name hall hnil
            have he := (hiff hd).2 (hall ▸ hfits)
            by_cases htemplate : ∃ sub ∈ d.subs, sub.flags.isTemplate = true
            · rw [hnext htemplate]
              refine ⟨fun e' he' => ?_, fun e' he' => (nomatch he')⟩
              obtain rfl := Sum.inl.inj (Except.ok.inj he')
              exact ⟨he, hsubs ▸ hreached.next hall hnil htemplate⟩
            · rw [hlast htemplate]
              refine ⟨fun e' he' => (nomatch he'), fun e' he' => ?_⟩
              obtain rfl := Sum.inr.inj (Except.ok.inj he')
              exact he
    have hreached : ∀ {d e}, Reaches (buildName isUrl) d e → d.Inside ∧ Turn isUrl c.subs d.subs →
        e.Inside ∧ Turn isUrl c.subs e.subs := by
      intro d e hreach
      induction hreach with
      | refl s => exact id
      | next hstep _ ih => exact fun hd => ih ((hturn _ hd).1 _ hstep)
    have hended : ∀ fuel d e, d.Inside ∧ Turn isUrl c.subs d.subs →
        run (buildName isUrl) fuel d = some (.ok e) → e.Inside := by
      intro fuel
      induction fuel with
      | zero => exact fun d e _ hrun => nomatch hrun
      | succ fuel ih =>
          intro d e hd hrun
          obtain ⟨hnext, hlast⟩ := hturn d hd
          rw [run] at hrun
          cases hstep : buildName isUrl d with
          | error fault => exact fault.elim
          | ok next =>
              rw [hstep] at hrun
              cases next with
              | inl d' => exact ih d' e (hnext d' hstep) hrun
              | inr d' =>
                  obtain rfl := Except.ok.inj (Option.some.inj hrun)
                  exact hlast d' hstep
    rintro d (hreach | ⟨fuel, hrun⟩)
    · exact (hreached hreach ⟨hc, .first⟩).1
    · exact hended fuel c d ⟨hc, .first⟩ hrun

end Assembled

theorem opens_iff (lists : List Char → Flags → Expansion) {raw : List Char}
    (h : EscapesInside raw) (sub : Sublist) : Opens lists raw sub ↔ sub = openSublist lists raw := by
  have htext := (@scanChars_unescape .plain .none raw).2 h
  obtain ⟨⟨u, g⟩, hscan, hu⟩ := Option.map_eq_some_iff.1 htext
  change u = unescape raw at hu
  subst hu
  have hopen : openSublist lists raw = ⟨unescape raw, g, lists (unescape raw) g⟩ := by
    rw [openSublist, hscan]
    rfl
  rw [hopen]
  constructor
  · rintro ⟨after, s, hends, hmem, hflags, hlist⟩
    obtain ⟨r, hends', hr⟩ := (scanStart_gives raw after).1 _ g hscan
    obtain rfl := Except.ok.inj (hends.unique hends')
    obtain ⟨text, flags, list⟩ := sub
    obtain rfl : text = unescape raw := text_unique hmem hr.text
    obtain rfl : flags = g := by
      obtain ⟨hurl, htemplate, hedit⟩ := hflags
      obtain ⟨hurl', htemplate', hedit'⟩ := hr.flags
      cases flags
      cases g
      rw [Flags.mk.injEq]
      exact ⟨hurl.symm.trans hurl', htemplate.symm.trans htemplate', hedit.symm.trans hedit'⟩
    rw [Sublist.mk.injEq]
    exact ⟨rfl, rfl, hlist⟩
  · rintro rfl
    obtain ⟨r, hends, hr⟩ := (scanStart_gives raw fun _ => none).1 _ g hscan
    exact ⟨_, r, hends, hr.text, hr.flags, rfl⟩

theorem forall₂_opens_iff (lists : List Char → Flags → Expansion) {raws : List (List Char)}
    (h : ∀ raw ∈ raws, EscapesInside raw) (subs : List Sublist) :
    List.Forall₂ (Opens lists) raws subs ↔ subs = openField lists raws := by
  induction raws generalizing subs with
  | nil => rw [List.forall₂_nil_left_iff, openField, List.map_nil]
  | cons raw raws ih =>
      obtain ⟨hraw, hraws⟩ := List.forall_mem_cons.1 h
      rw [List.forall₂_cons_left_iff, openField, List.map_cons, ← openField]
      constructor
      · rintro ⟨sub, subs, hsub, hsubs, rfl⟩
        rw [(opens_iff lists hraw sub).1 hsub, (ih hraws subs).1 hsubs]
      · rintro rfl
        exact ⟨_, _, (opens_iff lists hraw _).2 rfl, (ih hraws _).2 rfl, rfl⟩

/-- A field is inside when the escapes of its sublists are, and the pieces of its names
fit. -/
theorem fieldInside_iff (lists : List Char → Flags → Expansion) (raws : List (List Char)) :
    FieldInside lists raws ↔ (∀ raw ∈ raws, EscapesInside raw) ∧
      ∀ later, Turn (lastUrl (openField lists raws)) (openField lists raws) later →
        Fits (pieces (lastUrl (openField lists raws)) later).1
          (pieces (lastUrl (openField lists raws)) later).2 := by
  rw [FieldInside, forall₂_congr fun raw _ => scanInside_iff raw]
  refine and_congr_right fun hescapes => ?_
  constructor
  · intro h later hlater
    have hnames := h _ 0 0 le_rfl ((forall₂_opens_iff lists hescapes _).2 rfl)
    exact (namesInside_iff _ ⟨Nat.zero_le _, rfl, le_rfl⟩).1 hnames later hlater
  · intro h subs nextch szSbuf hroom hsubs
    obtain rfl := (forall₂_opens_iff lists hescapes subs).1 hsubs
    exact (namesInside_iff _ ⟨Nat.zero_le _, rfl, hroom⟩).2 h

/-- The scan goes past the EOS of a sublist that ends with an escaped metacharacter. -/
theorem not_fieldInside_escaped :
    ¬FieldInside (fun _ _ => ⟨[], [], [], fun _ => 0⟩) [['a', '\\', '*']] := by
  rintro ⟨hscan, -⟩
  have hescapes := (scanInside_iff _).1 (hscan _ List.mem_cons_self)
  rcases hescapes 1 (by decide) with ⟨j, hj, hurl, -⟩ | ⟨hlast, -⟩
  · obtain rfl : j = 0 := by omega
    exact absurd hurl (by decide)
  · exact absurd hlast (by decide)

end Iraf.Fnt
