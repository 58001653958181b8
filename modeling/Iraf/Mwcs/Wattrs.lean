import Mathlib.Data.List.Forall2
import Mathlib.Logic.Function.Basic
import Iraf.Lib.SafeRuns
import Iraf.Mwcs.Mwrefstr
import Iraf.Xtools.RangeList

/-!
# The attributes of a WCS

`mwswattrs.x` and `mwgwattrs.x`.  An attribute belongs to an axis, or with axis 0 to the
WCS; the attributes of an axis can also be listed by number.
-/

namespace Iraf.Mwcs

def maxWattr : Nat := 512
def szAtname : Nat := 20

inductive MwError where
  | noWcs
  | atOvfl (atname : List Char)
  | wattrNf (atname : List Char)
  deriving DecidableEq, Repr

/-- The number that an attribute name begins with, or 0. -/
def attributeNumber (atname : List Char) : Int :=
  let (nchars, atno, _) := Xtools.ctoi atname
  if nchars = 0 then 0 else atno

namespace Mw

def mwSwattrs (mw : Mw) (axis : Int) (atname valstr : List Char) : Except MwError Mw :=
  match mw.wcs with
  | none => .error .noWcs
  | some wattr =>
      match wattr.findIdx? (fun ap => ap.axis = axis && mw.string ap.name = atname) with
      | some atno =>
          let (mw, value) := mw.mwRefstr valstr
          .ok { mw with wcs := some (wattr.modify atno fun ap => { ap with value := value }) }
      | none =>
          if wattr.length + 1 > maxWattr then .error (.atOvfl atname)
          else
            let (mw, name) := mw.mwRefstr atname
            let (mw, value) := mw.mwRefstr valstr
            .ok { mw with wcs := some (wattr ++ [⟨axis, name, value⟩]) }

/-- The loop over the attributes, with the number of those of the axis so far.  The
atname name is output too. -/
def getWattr (mw : Mw) (axis : Int) (atname : List Char) (maxch : Nat) (atno : Int) :
    Int → List Wattr → Except MwError (List Char × List Char)
  | _, [] => .error (.wattrNf atname)
  | item, ap :: wattr =>
      if ap.axis = axis then
        if atno > 0 then
          if atno = item + 1 then
            .ok ((mw.string ap.name).take szAtname, (mw.string ap.value).take maxch)
          else getWattr mw axis atname maxch atno (item + 1) wattr
        else if mw.string ap.name = atname then
          .ok (atname, (mw.string ap.value).take maxch)
        else getWattr mw axis atname maxch atno (item + 1) wattr
      else getWattr mw axis atname maxch atno item wattr

def mwGwattrs (mw : Mw) (axis : Int) (atname : List Char) (maxch : Nat) :
    Except MwError (List Char × List Char) :=
  match mw.wcs with
  | none => .error .noWcs
  | some wattr => mw.getWattr axis atname maxch (attributeNumber atname) 0 wattr

end Mw

/-! ## The map -/

abbrev Key := Int × List Char

structure Attributes where
  value : Key → Option (List Char)
  count : Nat

/-- The value of an attribute is set, unless it would be one too many. -/
def Attributes.set (a : Attributes) (key : Key) (value : List Char) : Attributes :=
  if a.value key = none then
    if a.count < maxWattr then ⟨Function.update a.value key (some value), a.count + 1⟩ else a
  else ⟨Function.update a.value key (some value), a.count⟩

structure AttributeName where
  chars : List Char
  noEos : eos ∉ chars
  length_le : chars.length ≤ szAtname
  notNumber : attributeNumber chars ≤ 0

structure Call where
  axis : Int
  atname : AttributeName
  valstr : List Char
  noEos : eos ∉ valstr

def Call.key (call : Call) : Key := (call.axis, call.atname.chars)

structure Session where
  mw : Mw
  attributes : Attributes

/-- A call of `mw_swattrs`; an error leaves the descriptor as it is. -/
def perform (s : Session) (call : Call) : Session :=
  { mw :=
      match s.mw.mwSwattrs call.axis call.atname.chars call.valstr with
      | .ok mw => mw
      | .error _ => s.mw
    attributes := s.attributes.set call.key call.valstr }

def answer (atname : List Char) (maxch : Nat) :
    Option (List Char) → Except MwError (List Char × List Char)
  | some value => .ok (atname, value.take maxch)
  | none => .error (.wattrNf atname)

/-- Every attribute has the value that was last set, and there are no others. -/
def IsMap (s : Session) : Prop :=
  ∀ (axis : Int) (atname : AttributeName) (maxch : Nat),
    s.mw.mwGwattrs axis atname.chars maxch =
      answer atname.chars maxch (s.attributes.value (axis, atname.chars))

/-- The first stored string that begins with `str`, if there is one, is `str`. -/
def Referable (strings : List (List Char)) (str : List Char) : Prop := referred strings str = str

instance (strings : List (List Char)) (str : List Char) : Decidable (Referable strings str) :=
  inferInstanceAs (Decidable (_ = _))

/-- The strings that a call stores are referable. -/
def StoresExact (s : Session) (call : Call) : Prop :=
  if s.attributes.value call.key = none then
    s.attributes.count < maxWattr →
      Referable s.mw.strings call.atname.chars ∧
        Referable (refer s.mw.strings call.atname.chars) call.valstr
  else Referable s.mw.strings call.valstr

/-- A WCS without attributes, and a buffer with any strings. -/
def started (strings : List {t : List Char // eos ∉ t}) (unused : Nat) : Session where
  mw :=
    { sbuf := packed (strings.map Subtype.val) ++
        List.replicate (if strings = [] then 0 else unused) eos
      sbufused := (packed (strings.map Subtype.val)).length
      wcs := some [] }
  attributes := ⟨fun _ => none, 0⟩

/-! ## Attribute lists -/

abbrev Entry := Key × List Char

/-- An attribute and the strings it refers to. -/
structure Refers (strings : List (List Char)) (ap : Wattr) (e : Entry) : Prop where
  axis : ap.axis = e.1.1
  name : Stored strings ap.name e.1.2
  value : Stored strings ap.value e.2

def lookup (entries : List Entry) (key : Key) : Option (List Char) :=
  (entries.find? (·.1 = key)).map Prod.snd

variable {entries : List Entry} {wattr : List Wattr} {strings : List (List Char)} {mw : Mw}
  {unused : Nat} {key : Key} {s : Session} {call : Call}

theorem lookup_eq_none : lookup entries key = none ↔ entries.findIdx? (·.1 = key) = none := by
  rw [lookup, Option.map_eq_none_iff, List.find?_eq_none, List.findIdx?_eq_none_iff]
  simp

theorem lookup_cons_self {e : Entry} (h : e.1 = key) : lookup (e :: entries) key = some e.2 := by
  rw [lookup, List.find?_cons, decide_eq_true h]
  rfl

theorem lookup_cons_of_ne {e : Entry} (h : e.1 ≠ key) :
    lookup (e :: entries) key = lookup entries key := by
  rw [lookup, List.find?_cons, decide_eq_false h]
  rfl

theorem lookup_append {value : List Char} (h : lookup entries key = none) (k : Key) :
    lookup (entries ++ [(key, value)]) k = Function.update (lookup entries) key (some value) k := by
  induction entries with
  | nil =>
      by_cases hk : k = key
      · rw [hk, Function.update_self, List.nil_append, lookup_cons_self rfl]
      · rw [Function.update_of_ne hk, List.nil_append, lookup_cons_of_ne (Ne.symm hk)]
  | cons e entries ih =>
      have he : e.1 ≠ key := by
        intro heq
        rw [lookup_cons_self heq] at h
        cases h
      rw [lookup_cons_of_ne he] at h
      rw [List.cons_append]
      by_cases hk : e.1 = k
      · rw [lookup_cons_self hk, Function.update_of_ne (hk ▸ he), lookup_cons_self hk]
      · rw [lookup_cons_of_ne hk, ih h]
        by_cases hkey : k = key
        · rw [hkey, Function.update_self, Function.update_self]
        · rw [Function.update_of_ne hkey, Function.update_of_ne hkey, lookup_cons_of_ne hk]

theorem lookup_modify {atno : Nat} {value : List Char}
    (h : entries.findIdx? (·.1 = key) = some atno) (k : Key) :
    lookup (entries.modify atno fun e => (e.1, value)) k =
      Function.update (lookup entries) key (some value) k := by
  induction entries generalizing atno with
  | nil => cases h
  | cons e entries ih =>
      rw [List.findIdx?_cons] at h
      by_cases he : e.1 = key
      · rw [if_pos (decide_eq_true he)] at h
        obtain rfl := Option.some.inj h
        rw [List.modify_zero_cons]
        by_cases hk : e.1 = k
        · rw [@lookup_cons_self entries k (e.1, value) hk, ← hk, he, Function.update_self]
        · rw [@lookup_cons_of_ne entries k (e.1, value) hk, Function.update_of_ne (fun heq => hk (he.trans heq.symm)),
            lookup_cons_of_ne hk]
      · rw [if_neg (by simpa using he)] at h
        obtain ⟨i, hi, rfl⟩ := Option.map_eq_some_iff.1 h
        rw [List.modify_succ_cons]
        by_cases hk : e.1 = k
        · rw [lookup_cons_self hk, Function.update_of_ne (hk ▸ he), lookup_cons_self hk]
        · rw [lookup_cons_of_ne hk, ih hi]
          by_cases hkey : k = key
          · rw [hkey, Function.update_self, Function.update_self]
          · rw [Function.update_of_ne hkey, Function.update_of_ne hkey, lookup_cons_of_ne hk]

theorem forall₂_modify {as : List Wattr} {R : Wattr → Entry → Prop} {f : Wattr → Wattr}
    {g : Entry → Entry} (h : List.Forall₂ R as entries) (hfg : ∀ a e, R a e → R (f a) (g e))
    (i : Nat) : List.Forall₂ R (as.modify i f) (entries.modify i g) := by
  induction h generalizing i with
  | nil =>
      rw [List.modify_nil, List.modify_nil]
      exact .nil
  | cons hae hrest ih =>
      cases i with
      | zero => exact .cons (hfg _ _ hae) hrest
      | succ i => exact .cons hae (ih i)

theorem Refers.refer {ap : Wattr} {e : Entry} (h : Refers strings ap e) (str : List Char) :
    Refers (refer strings str) ap e :=
  ⟨h.axis, h.name.refer str, h.value.refer str⟩

theorem findIdx?_wattr (h : mw.Holds strings unused)
    (hwattr : List.Forall₂ (Refers strings) wattr entries) (axis : Int) (atname : List Char) :
    wattr.findIdx? (fun ap => ap.axis = axis && mw.string ap.name = atname) =
      entries.findIdx? (·.1 = (axis, atname)) := by
  induction hwattr with
  | nil => rfl
  | cons hae hrest ih =>
      rw [List.findIdx?_cons, List.findIdx?_cons, ih, hae.axis, h.string hae.name]
      simp only [Prod.ext_iff, Bool.decide_and]

theorem getWattr_spec (h : mw.Holds strings unused)
    (hwattr : List.Forall₂ (Refers strings) wattr entries) {axis atno item : Int}
    {atname : List Char} (hatno : atno ≤ 0) (maxch : Nat) :
    mw.getWattr axis atname maxch atno item wattr =
      answer atname maxch (lookup entries (axis, atname)) := by
  induction hwattr generalizing item with
  | nil => rfl
  | @cons ap e wattr entries hae hrest ih =>
      rw [Mw.getWattr, if_neg (not_lt.2 hatno), hae.axis, h.string hae.name,
        h.string hae.value]
      by_cases he : e.1 = (axis, atname)
      · rw [if_pos (congrArg Prod.fst he), if_pos (congrArg Prod.snd he), lookup_cons_self he]
        rfl
      · rw [lookup_cons_of_ne he]
        split
        next haxis =>
          rw [if_neg fun hname => he (Prod.ext haxis hname)]
          exact ih
        · exact ih

/-! ## Runs -/

/-- The attributes are those of the map. -/
structure Inv (s : Session) (strings : List (List Char)) (wattr : List Wattr)
    (entries : List Entry) : Prop where
  holds : ∃ unused, s.mw.Holds strings unused
  wcs : s.mw.wcs = some wattr
  refers : List.Forall₂ (Refers strings) wattr entries
  value : s.attributes.value = lookup entries
  count : s.attributes.count = entries.length

theorem mwGwattrs_spec (h : mw.Holds strings unused) (hwcs : mw.wcs = some wattr)
    (hwattr : List.Forall₂ (Refers strings) wattr entries) (axis : Int)
    (atname : AttributeName) (maxch : Nat) :
    mw.mwGwattrs axis atname.chars maxch =
      answer atname.chars maxch (lookup entries (axis, atname.chars)) := by
  rw [Mw.mwGwattrs, hwcs]
  exact getWattr_spec h hwattr atname.notNumber maxch

theorem Inv.isMap (h : Inv s strings wattr entries) : IsMap s := by
  obtain ⟨unused, hholds⟩ := h.holds
  intro axis atname maxch
  rw [mwGwattrs_spec hholds h.wcs h.refers, h.value]

/-- The attributes after a call, with the strings that are really referred to. -/
def assigned (strings : List (List Char)) (entries : List Entry) (call : Call) : List Entry :=
  match entries.findIdx? (·.1 = call.key) with
  | some atno => entries.modify atno fun e => (e.1, referred strings call.valstr)
  | none =>
      entries ++ [((call.axis, referred strings call.atname.chars),
        referred (refer strings call.atname.chars) call.valstr)]

theorem Inv.perform_stored (h : Inv s strings wattr entries)
    (hroom : lookup entries call.key = none → entries.length < maxWattr) :
    ∃ strings' unused wattr', (perform s call).mw.Holds strings' unused ∧
      (perform s call).mw.wcs = some wattr' ∧
      List.Forall₂ (Refers strings') wattr' (assigned strings entries call) := by
  obtain ⟨unused, hholds⟩ := h.holds
  rw [perform, Mw.mwSwattrs, h.wcs]
  dsimp only
  rw [findIdx?_wattr hholds h.refers, assigned, Call.key]
  cases hfind : entries.findIdx? (·.1 = (call.axis, call.atname.chars)) with
  | some atno =>
      obtain ⟨unused', hholds', -, hvalue⟩ := mwRefstr_spec hholds call.noEos
      refine ⟨_, unused', _, ⟨hholds'.sbuf, hholds'.used, hholds'.noEos, hholds'.empty⟩, rfl, ?_⟩
      refine forall₂_modify (h.refers.imp fun _ _ hae => hae.refer call.valstr) ?_ atno
      exact fun a e hae => ⟨hae.axis, hae.name, hvalue⟩
  | none =>
      have hlen := h.refers.length_eq
      have hfew := hroom (lookup_eq_none.2 hfind)
      rw [if_neg (by omega)]
      obtain ⟨unused₁, hholds₁, -, hname⟩ := mwRefstr_spec hholds call.atname.noEos
      obtain ⟨unused₂, hholds₂, -, hvalue⟩ := mwRefstr_spec hholds₁ call.noEos
      refine ⟨_, unused₂, _, ⟨hholds₂.sbuf, hholds₂.used, hholds₂.noEos, hholds₂.empty⟩, rfl, ?_⟩
      refine List.rel_append (h.refers.imp fun _ _ hae => (hae.refer _).refer _) ?_
      exact .cons ⟨rfl, hname.refer _, hvalue⟩ .nil

theorem Inv.perform_full (h : Inv s strings wattr entries) (hnew : lookup entries call.key = none)
    (hfull : ¬entries.length < maxWattr) : perform s call = s := by
  obtain ⟨unused, hholds⟩ := h.holds
  have hlen := h.refers.length_eq
  have hfind := lookup_eq_none.1 hnew
  have hset : s.attributes.set call.key call.valstr = s.attributes := by
    rw [Attributes.set, h.value, if_pos hnew, h.count, if_neg hfull]
  rw [perform, hset, Mw.mwSwattrs, h.wcs]
  dsimp only
  rw [findIdx?_wattr hholds h.refers]
  rw [Call.key] at hfind
  rw [hfind]
  dsimp only
  rw [if_pos (by omega)]

theorem assigned_value (hcount : s.attributes.count = entries.length)
    (hvalue : s.attributes.value = lookup entries)
    (hroom : lookup entries call.key = none → entries.length < maxWattr)
    (hname : lookup entries call.key = none → Referable strings call.atname.chars)
    (hvalstr : Referable (if lookup entries call.key = none then
      refer strings call.atname.chars else strings) call.valstr) :
    (s.attributes.set call.key call.valstr).value = lookup (assigned strings entries call) ∧
      (s.attributes.set call.key call.valstr).count = (assigned strings entries call).length := by
  rw [Attributes.set, hvalue, hcount, assigned]
  cases hfind : entries.findIdx? (·.1 = call.key) with
  | some atno =>
      have hold : ¬lookup entries call.key = none := by
        rw [lookup_eq_none, hfind]
        exact nofun
      rw [if_neg hold] at hvalstr ⊢
      dsimp only
      rw [hvalstr]
      exact ⟨funext fun k => (lookup_modify hfind k).symm, (List.length_modify _ _ _).symm⟩
  | none =>
      have hnew := lookup_eq_none.2 hfind
      rw [if_pos hnew] at hvalstr ⊢
      rw [if_pos (hroom hnew)]
      dsimp only
      rw [hvalstr, hname hnew]
      refine ⟨funext fun k => (lookup_append hnew k).symm, ?_⟩
      rw [List.length_append, List.length_singleton]

theorem Inv.storesExact_iff (h : Inv s strings wattr entries) :
    StoresExact s call ↔ if lookup entries call.key = none then entries.length < maxWattr →
      Referable strings call.atname.chars ∧
        Referable (refer strings call.atname.chars) call.valstr
      else Referable strings call.valstr := by
  obtain ⟨unused, hholds⟩ := h.holds
  rw [StoresExact, h.value, h.count, hholds.strings_eq]

/-- The attributes are those of the map in some way. -/
def Sound (s : Session) : Prop := ∃ strings wattr entries, Inv s strings wattr entries

theorem Inv.perform (h : Inv s strings wattr entries) (hexact : StoresExact s call) :
    Sound (perform s call) := by
  rw [h.storesExact_iff] at hexact
  by_cases hfull : lookup entries call.key = none ∧ ¬entries.length < maxWattr
  · rw [h.perform_full hfull.1 hfull.2]
    exact ⟨strings, wattr, entries, h⟩
  · have hroom : lookup entries call.key = none → entries.length < maxWattr := fun hnew =>
      not_not.1 fun hlong => hfull ⟨hnew, hlong⟩
    obtain ⟨strings', unused, wattr', hholds, hwcs, hrefers⟩ := h.perform_stored hroom
    have hattributes : _ ∧ _ := assigned_value h.count h.value hroom
      (fun hnew => ((if_pos hnew ▸ hexact) (hroom hnew)).1) ?_
    · exact ⟨strings', wattr', _, ⟨unused, hholds⟩, hwcs, hrefers, hattributes.1, hattributes.2⟩
    · by_cases hnew : lookup entries call.key = none
      · rw [if_pos hnew] at hexact ⊢
        exact (hexact (hroom hnew)).2
      · rw [if_neg hnew] at hexact ⊢
        exact hexact

theorem eq_of_answer {atname : List Char} {v w : Option (List Char)}
    (h : ∀ maxch, answer atname maxch v = answer atname maxch w) : v = w := by
  cases v with
  | none =>
      cases w with
      | none => rfl
      | some w => cases h 0
  | some v =>
      cases w with
      | none => cases h 0
      | some w =>
          have hmax := Prod.mk.inj (Except.ok.inj (h (max v.length w.length)))
          rw [List.take_of_length_le (le_max_left _ _), List.take_of_length_le (le_max_right _ _)]
            at hmax
          exact congrArg some hmax.2

/-- The value of the attribute is wrong after a call that stores another string. -/
theorem Inv.not_isMap (h : Inv s strings wattr entries) (hexact : ¬StoresExact s call) :
    ¬IsMap (Iraf.Mwcs.perform s call) := by
  intro hmap
  refine hexact (h.storesExact_iff.2 ?_)
  have hset : ∀ a : Attributes, (a.value call.key = none → a.count < maxWattr) →
      (a.set call.key call.valstr).value call.key = some call.valstr := by
    intro a hroom
    rw [Attributes.set]
    split
    next hnew =>
      rw [if_pos (hroom hnew)]
      exact Function.update_self _ _ _
    · exact Function.update_self _ _ _
  have hstored : (lookup entries call.key = none → entries.length < maxWattr) →
      lookup (assigned strings entries call) call.key = some call.valstr := by
    intro hroom
    obtain ⟨strings', unused, wattr', hholds, hwcs, hrefers⟩ := h.perform_stored hroom
    rw [← h.value, ← h.count] at hroom
    rw [← hset s.attributes hroom]
    refine @eq_of_answer call.atname.chars _ _ fun maxch => ?_
    have hanswer := hmap call.axis call.atname maxch
    rw [mwGwattrs_spec hholds hwcs hrefers] at hanswer
    exact hanswer
  by_cases hnew : lookup entries call.key = none
  · rw [if_pos hnew]
    intro hroom
    have hfound := hstored fun _ => hroom
    rw [assigned, lookup_eq_none.1 hnew] at hfound
    dsimp only at hfound
    by_cases hname : Referable strings call.atname.chars
    · refine ⟨hname, ?_⟩
      rw [hname] at hfound
      rw [← Call.key, lookup_append hnew, Function.update_self] at hfound
      exact Option.some.inj hfound
    · rw [lookup, List.find?_append, Option.map_eq_none_iff.1 hnew, Option.none_or,
        List.find?_cons_of_neg] at hfound
      · cases hfound
      · rw [decide_eq_true_eq]
        exact fun heq => hname (congrArg Prod.snd heq)
  · rw [if_neg hnew]
    have hfound := hstored fun hno => absurd hno hnew
    rw [assigned] at hfound
    cases hfind : entries.findIdx? (·.1 = call.key) with
    | none => exact absurd (lookup_eq_none.2 hfind) hnew
    | some atno =>
        rw [hfind] at hfound
        dsimp only at hfound
        rw [lookup_modify hfind, Function.update_self] at hfound
        exact Option.some.inj hfound

theorem started_sound (strings : List {t : List Char // eos ∉ t}) (unused : Nat) :
    Sound (started strings unused) := by
  refine ⟨strings.map Subtype.val, [], [], ⟨_, ⟨rfl, rfl, fun t ht => ?_, fun hempty => ?_⟩⟩, rfl,
    .nil, rfl, rfl⟩
  · obtain ⟨u, -, rfl⟩ := List.mem_map.1 ht
    exact u.property
  · exact if_pos (List.map_eq_nil_iff.1 hempty)

open SafeRuns

/-- The attributes are a map in every state of a run if and only if no call is to store a
string when another stored string begins with it and comes first. -/
theorem mwSwattrs_map (strings : List {t : List Char // eos ∉ t}) (unused : Nat)
    (calls : List Call) :
    Always perform IsMap (started strings unused) calls ↔
      EachStep perform StoresExact (started strings unused) calls := by
  refine always_iff ?_ ?_ ?_ (started_sound strings unused)
  · rintro s ⟨strings, wattr, entries, hs⟩
    exact hs.isMap
  · rintro s call ⟨strings, wattr, entries, hs⟩ hexact
    exact hs.perform hexact
  · rintro s call ⟨strings, wattr, entries, hs⟩ hexact
    exact hs.not_isMap hexact

def units : AttributeName := ⟨['u', 'n', 'i', 't', 's'], by decide, by decide, by decide⟩

/-- The empty string is taken for the first string of the buffer. -/
theorem not_isMap_empty :
    ¬Always perform IsMap (started [] 0) [⟨1, units, [], List.not_mem_nil⟩] := by
  intro h
  have hanswer := congrArg Except.toOption (h _ List.prefix_rfl 1 units 80)
  have hvalue : ([⟨1, units, [], List.not_mem_nil⟩].foldl perform (started [] 0)).attributes.value
      (1, units.chars) = some [] := by
    decide +kernel
  have hfound : (([⟨1, units, [], List.not_mem_nil⟩].foldl perform
      (started [] 0)).mw.mwGwattrs 1 units.chars 80).toOption = some (units.chars, units.chars) := by
    decide +kernel
  rw [hvalue, hfound] at hanswer
  cases hanswer

end Iraf.Mwcs
