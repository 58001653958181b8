import Mathlib.Data.List.Nodup
import Mathlib.Logic.Function.Basic
import Mathlib.Tactic.Common

/-!
# Doubly linked lists

Nodes are linked by two partial functions.  A list is linked when following
`dn` from the head visits its nodes in order and following `up` from the tail
visits them in reverse.  A node is moved to either end with a constant number of
assignments.
-/

namespace Iraf

variable {α : Type*}

open Function

/-! ## Chains -/

/-- Following `next` from a node visits exactly those of a list, in order. -/
def Visits (next : α → Option α) : Option α → List α → Prop
  | at_, [] => at_ = none
  | at_, a :: l => at_ = some a ∧ Visits next (next a) l

/-- The nodes that are visited, a number of them at most. -/
def walk (next : α → Option α) : Nat → Option α → List α
  | 0, _ => []
  | _ + 1, none => []
  | fuel + 1, some a => a :: walk next fuel (next a)

variable {next next' : α → Option α} {first : Option α} {a x y : α} {l l₁ l₂ : List α}

theorem Visits.walk_eq (h : Visits next first l) {fuel : Nat} (hf : l.length < fuel) :
    walk next fuel first = l := by
  induction l generalizing first fuel with
  | nil =>
      obtain ⟨fuel, rfl⟩ : ∃ n, fuel = n + 1 := ⟨fuel - 1, by omega⟩
      obtain rfl : first = none := h
      rfl
  | cons a l ih =>
      obtain ⟨fuel, rfl⟩ : ∃ n, fuel = n + 1 := ⟨fuel - 1, by omega⟩
      obtain ⟨rfl, hrest⟩ := h
      rw [walk, ih hrest (by simpa using hf)]

theorem Visits.congr (h : Visits next first l) (heq : ∀ a ∈ l, next' a = next a) :
    Visits next' first l := by
  induction l generalizing first with
  | nil => exact h
  | cons a l ih =>
      refine ⟨h.1, ?_⟩
      rw [heq a List.mem_cons_self]
      exact ih h.2 fun b hb => heq b (List.mem_cons_of_mem a hb)

theorem Visits.first_eq (h : Visits next first l) : first = l.head? := by
  cases l with
  | nil => exact h
  | cons a l => exact h.1

theorem Visits.drop (h : Visits next first (l₁ ++ x :: l₂)) :
    Visits next (next x) l₂ := by
  induction l₁ generalizing first with
  | nil => exact h.2
  | cons a l₁ ih => exact ih h.2

/-! ## Links -/

@[ext]
structure Links (α : Type*) where
  up : α → Option α
  dn : α → Option α
  head : Option α
  tail : Option α

/-- The nodes of a list are linked in its order. -/
structure Linked (k : Links α) (l : List α) : Prop where
  nodup : l.Nodup
  down : Visits k.dn k.head l
  upward : Visits k.up k.tail l.reverse

variable {k : Links α}

theorem Linked.head_eq (h : Linked k l) : k.head = l.head? := h.down.first_eq

theorem Linked.tail_eq (h : Linked k l) : k.tail = l.getLast? := by
  rw [h.upward.first_eq, List.head?_reverse]

theorem Linked.dn_eq (h : Linked k (l₁ ++ x :: l₂)) : k.dn x = l₂.head? :=
  h.down.drop.first_eq

theorem Linked.up_eq (h : Linked k (l₁ ++ x :: l₂)) : k.up x = l₁.getLast? := by
  have hrev : Visits k.up k.tail (l₂.reverse ++ x :: l₁.reverse) := by
    have := h.upward
    rwa [List.reverse_append, List.reverse_cons, List.append_assoc,
      List.singleton_append] at this
  rw [hrev.drop.first_eq, List.head?_reverse]

/-- The same list the other way round. -/
def Links.flip (k : Links α) : Links α := ⟨k.dn, k.up, k.tail, k.head⟩

theorem Linked.flip (h : Linked k l) : Linked k.flip l.reverse :=
  ⟨List.nodup_reverse.2 h.nodup, h.upward, by
    rw [List.reverse_reverse]
    exact h.down⟩

/-! ## Moves -/

section

variable [DecidableEq α]

theorem Visits.cons (h : Visits next first l) (hx : x ∉ l) :
    Visits (update next x first) (some x) (x :: l) := by
  refine ⟨rfl, ?_⟩
  rw [update_self]
  refine h.congr fun a ha => update_of_ne ?_ _ _
  rintro rfl
  exact hx ha

theorem Visits.snoc (h : Visits next first (l ++ [y])) (hnodup : (l ++ [y]).Nodup)
    (hx : x ∉ l ++ [y]) :
    Visits (update (update next x none) y (some x)) first (l ++ [y, x]) := by
  have hne : x ≠ y := fun heq => hx (by simp [heq])
  induction l generalizing first with
  | nil =>
      refine ⟨h.1, ?_, ?_⟩
      · rw [update_self]
      · rw [update_of_ne hne, update_self]
        rfl
  | cons a l ih =>
      have hay : a ≠ y := by
        rintro rfl
        simp at hnodup
      have hax : a ≠ x := fun heq => hx (by simp [heq])
      refine ⟨h.1, ?_⟩
      rw [update_of_ne hay, update_of_ne hax]
      exact ih h.2 (List.nodup_cons.1 hnodup).2 fun hmem =>
        hx (List.mem_cons_of_mem a hmem)

theorem Visits.remove (h : Visits next first (l₁ ++ x :: l₂))
    (hnodup : (l₁ ++ x :: l₂).Nodup) :
    Visits (match l₁.getLast? with
        | some y => update next y (next x)
        | none => next)
      (if l₁ = [] then next x else first) (l₁ ++ l₂) := by
  induction l₁ generalizing first with
  | nil => exact h.2
  | cons a l₁ ih =>
      obtain ⟨hfirst, hrest⟩ := h
      obtain ⟨ha, hnodup⟩ := List.nodup_cons.1 hnodup
      rw [if_neg (List.cons_ne_nil a l₁)]
      refine ⟨hfirst, ?_⟩
      cases l₁ with
      | nil =>
          show Visits (update next a (next x)) (update next a (next x) a) l₂
          rw [update_self]
          refine hrest.2.congr fun b hb => update_of_ne ?_ _ _
          rintro rfl
          exact ha (by simp [hb])
      | cons b l₁ =>
          have hlast : (a :: b :: l₁).getLast? = (b :: l₁).getLast? := rfl
          have ih' := ih hrest hnodup
          rw [if_neg (List.cons_ne_nil b l₁)] at ih'
          rw [hlast]
          cases hy : (b :: l₁).getLast? with
          | none => simp at hy
          | some y =>
              have hne : a ≠ y := by
                rintro rfl
                exact ha (List.mem_append_left _ (List.mem_of_getLast? hy))
              rw [hy] at ih'
              show Visits (update next y (next x)) (update next y (next x) a) _
              rw [update_of_ne hne]
              exact ih'

namespace Links

/-- Each neighbour is linked to the other one. -/
def unlink (k : Links α) (x : α) : Links α :=
  let k := match k.up x with
    | some y =>
        { k with
          dn := update k.dn y (k.dn x)
          tail := if k.tail = some x then some y else k.tail }
    | none => k
  match k.dn x with
  | some z =>
      { k with
        up := update k.up z (k.up x)
        head := if k.head = some x then some z else k.head }
  | none => k

/-- A node that is not linked is put before the head. -/
def pushHead (k : Links α) (x : α) : Links α :=
  { k with
    dn := update k.dn x k.head
    up := match k.head with
      | some h => update (update k.up x none) h (some x)
      | none => update k.up x none
    head := some x }

/-- A node that is not linked is put after the tail. -/
def pushTail (k : Links α) (x : α) : Links α :=
  { k with
    up := update k.up x k.tail
    dn := match k.tail with
      | some t => update (update k.dn x none) t (some x)
      | none => update k.dn x none
    tail := some x }

def toHead (k : Links α) (x : α) : Links α :=
  if k.head = some x then k else (k.unlink x).pushHead x

def toTail (k : Links α) (x : α) : Links α :=
  if k.tail = some x then k else (k.unlink x).pushTail x

end Links

theorem Links.unlink_down (k : Links α) (x : α) :
    (k.unlink x).dn = (match k.up x with
      | some y => update k.dn y (k.dn x)
      | none => k.dn) ∧
    (k.unlink x).tail = match k.up x with
      | some y => if k.tail = some x then some y else k.tail
      | none => k.tail := by
  unfold Links.unlink
  cases k.up x <;> dsimp only <;> split <;> exact ⟨rfl, rfl⟩

theorem Links.unlink_upward (k : Links α) (x : α) :
    (k.unlink x).up = (match k.dn x with
      | some z => update k.up z (k.up x)
      | none => k.up) ∧
    (k.unlink x).head = match k.dn x with
      | some z => if k.head = some x then some z else k.head
      | none => k.head := by
  unfold Links.unlink
  cases hup : k.up x with
  | none =>
      cases hdn : k.dn x <;> simp only [hup, hdn, and_self]
  | some y =>
      have hsame : update k.dn y (k.dn x) x = k.dn x := by
        by_cases hxy : x = y
        · rw [hxy, update_self]
        · rw [update_of_ne hxy]
      dsimp only
      rw [hsame]
      cases hdn : k.dn x <;> simp only [hup, and_self]

theorem Linked.unlink (h : Linked k (l₁ ++ x :: l₂)) (hne : l₁ ++ l₂ ≠ []) :
    Linked (k.unlink x) (l₁ ++ l₂) := by
  have hnodup := h.nodup
  have hx := List.nodup_cons.1 (List.nodup_middle.1 hnodup)
  have hup := h.up_eq
  have hdn := h.dn_eq
  have hrev : (l₁ ++ x :: l₂).reverse = l₂.reverse ++ x :: l₁.reverse := by simp
  have hupward := h.upward
  have hnodup' := List.nodup_reverse.2 hnodup
  rw [hrev] at hupward hnodup'
  have hdown' := h.down.remove hnodup
  have hupward' := hupward.remove hnodup'
  obtain ⟨hdn', htail'⟩ := k.unlink_down x
  obtain ⟨hup', hhead'⟩ := k.unlink_upward x
  refine ⟨hx.2, ?_, ?_⟩
  · have hfirst : (k.unlink x).head = if l₁ = [] then k.dn x else k.head := by
      rw [hhead', h.head_eq, hdn]
      cases l₁ with
      | nil =>
          cases l₂ with
          | nil => exact absurd rfl hne
          | cons b l₂ => simp
      | cons a l₁ =>
          have hax : a ≠ x := by
            rintro rfl
            exact hx.1 (by simp)
          cases l₂ <;> simp [hax]
    rw [hfirst, hdn', hup]
    exact hdown'
  · have hfirst : (k.unlink x).tail = if l₂.reverse = [] then k.up x else k.tail := by
      rw [htail', h.tail_eq, hup]
      rcases l₂.eq_nil_or_concat with rfl | ⟨l₂, b, rfl⟩
      · cases hl : l₁.getLast? with
        | none =>
            rw [List.getLast?_eq_none_iff] at hl
            subst hl
            exact absurd rfl hne
        | some y => simp
      · have hbx : b ≠ x := by
          rintro rfl
          exact hx.1 (by simp)
        have hlast : (l₁ ++ x :: (l₂ ++ [b])).getLast? = some b := by
          rw [← List.cons_append, ← List.append_assoc, List.getLast?_concat]
        rw [List.concat_eq_append, hlast]
        cases l₁.getLast? <;> simp [hbx]
    rw [hfirst, hup', hdn, List.reverse_append]
    rw [List.getLast?_reverse] at hupward'
    exact hupward'

theorem Linked.pushHead (h : Linked k l) (hl : l ≠ []) (hx : x ∉ l) :
    Linked (k.pushHead x) (x :: l) := by
  obtain ⟨a, l, rfl⟩ := List.exists_cons_of_ne_nil hl
  have hhead : k.head = some a := h.down.1
  have hnodup := List.nodup_reverse.2 h.nodup
  have hup := h.upward
  rw [List.reverse_cons] at hup hnodup
  refine ⟨List.nodup_cons.2 ⟨hx, h.nodup⟩, h.down.cons hx, ?_⟩
  have hx' : x ∉ l.reverse ++ [a] := by
    rw [← List.reverse_cons, List.mem_reverse]
    exact hx
  have hsnoc := hup.snoc hnodup hx'
  simp only [Links.pushHead, hhead, List.reverse_cons, List.append_assoc,
    List.singleton_append]
  exact hsnoc

/-- A node with no links. -/
def Loose (k : Links α) (x : α) : Prop := k.up x = none ∧ k.dn x = none

theorem Loose.unlink (h : Loose k x) : k.unlink x = k := by
  obtain ⟨hup, hdn⟩ := h
  unfold Links.unlink
  rw [hup]
  dsimp only
  rw [hdn]

theorem Loose.toHead (h : Loose k y) (hx : Loose k x) (hyx : y ≠ x)
    (hhead : k.head ≠ some y) : Loose (k.toHead x) y := by
  unfold Links.toHead
  split
  · exact h
  · rw [hx.unlink]
    unfold Links.pushHead
    cases hk : k.head with
    | none => exact ⟨(update_of_ne hyx _ _).trans h.1, (update_of_ne hyx _ _).trans h.2⟩
    | some z =>
        have hyz : y ≠ z := by
          rintro rfl
          exact hhead hk
        exact ⟨(update_of_ne hyz _ _).trans ((update_of_ne hyx _ _).trans h.1),
          (update_of_ne hyx _ _).trans h.2⟩

theorem Linked.toHead (h : Linked k l) (hl : l ≠ [])
    (hx : x ∈ l ∨ Loose k x) : Linked (k.toHead x) (x :: l.erase x) := by
  obtain ⟨a, t, hcons⟩ := List.exists_cons_of_ne_nil hl
  have hhead : k.head = some a := by rw [h.head_eq, hcons]; rfl
  by_cases hax : a = x
  · rw [Links.toHead, if_pos (by rw [hhead, hax]), hcons, hax, List.erase_cons_head,
      ← hax, ← hcons]
    exact h
  · rw [Links.toHead, if_neg (by rw [hhead]; simpa using hax)]
    by_cases hmem : x ∈ l
    · obtain ⟨l₁, l₂, rfl⟩ := List.append_of_mem hmem
      have hx₁ : x ∉ l₁ := fun hin =>
        (List.nodup_cons.1 (List.nodup_middle.1 h.nodup)).1 (List.mem_append_left _ hin)
      have hne : l₁ ++ l₂ ≠ [] := by
        intro hnil
        obtain ⟨rfl, rfl⟩ := List.append_eq_nil_iff.1 hnil
        cases hcons
        exact hax rfl
      have herase : (l₁ ++ x :: l₂).erase x = l₁ ++ l₂ := by
        rw [List.erase_append_right _ hx₁, List.erase_cons_head]
      rw [herase]
      exact (h.unlink hne).pushHead hne (List.nodup_cons.1 (List.nodup_middle.1 h.nodup)).1
    · rw [(hx.resolve_left hmem).unlink, List.erase_of_not_mem hmem]
      exact h.pushHead hl hmem

/-! ## The other way round -/

theorem Links.flip_unlink (k : Links α) (x : α) :
    k.flip.unlink x = (k.unlink x).flip := by
  obtain ⟨hdn, htail⟩ := k.unlink_down x
  obtain ⟨hup, hhead⟩ := k.unlink_upward x
  obtain ⟨hdn', htail'⟩ := k.flip.unlink_down x
  obtain ⟨hup', hhead'⟩ := k.flip.unlink_upward x
  ext1
  · rw [hup']
    exact hdn.symm
  · rw [hdn']
    exact hup.symm
  · rw [hhead']
    exact htail.symm
  · rw [htail']
    exact hhead.symm

theorem Links.flip_toHead (k : Links α) (x : α) :
    k.flip.toHead x = (k.toTail x).flip := by
  unfold Links.toHead Links.toTail
  rw [Links.flip_unlink]
  show (if k.tail = some x then _ else _) = _
  split <;> rfl

theorem Linked.toTail (h : Linked k l) (hx : x ∈ l) :
    Linked (k.toTail x) (l.erase x ++ [x]) := by
  have hne : l.reverse ≠ [] := by
    rintro hnil
    rw [List.reverse_eq_nil_iff.1 hnil] at hx
    cases hx
  have hflip := (h.flip.toHead hne (.inl (List.mem_reverse.2 hx))).flip
  rw [Links.flip_toHead] at hflip
  have herase : (l.reverse.erase x).reverse = l.erase x := by
    rw [(List.nodup_reverse.2 h.nodup).erase_eq_filter, h.nodup.erase_eq_filter,
      ← List.filter_reverse, List.reverse_reverse]
  rw [List.reverse_cons, herase] at hflip
  exact hflip

end

end Iraf
