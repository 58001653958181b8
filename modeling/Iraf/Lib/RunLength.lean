import Mathlib.Algebra.Group.Defs
import Mathlib.Data.List.Basic
import Mathlib.Data.List.Chain

/-!
# Maximal runs of a line

A line over an alphabet with a zero is cut into maximal runs: some zero cells
followed by equal nonzero cells.  The scanner reads a line segment by segment,
and its result does not depend on how the line was cut into segments, so
encoders that walk over different segments of one line see the same runs.
-/

namespace Iraf.RunLength

/-- `zeros` zero cells followed by `count` cells equal to `value`. -/
structure Run (α : Type) where
  zeros : Nat
  value : α
  count : Nat
  deriving DecidableEq, Repr

/-- The completed runs of a scanned line and the run still being read. -/
structure Scan (α : Type) where
  runs : List (Run α)
  pending : Run α
  deriving DecidableEq, Repr

variable {α : Type} [Zero α]

def Run.cells (r : Run α) : List α :=
  List.replicate r.zeros 0 ++ List.replicate r.count r.value

def Scan.cells (s : Scan α) : List α :=
  s.runs.flatMap Run.cells ++ s.pending.cells

/-- Nothing has been read yet. -/
def Scan.start : Scan α := ⟨[], ⟨0, 0, 0⟩⟩

@[simp] theorem Scan.cells_start : (Scan.start : Scan α).cells = [] := rfl

variable [DecidableEq α]

/-- Read a segment of `n` equal cells. -/
def Scan.push (s : Scan α) (n : Nat) (v : α) : Scan α :=
  if v = 0 then
    if s.pending.count = 0 then
      ⟨s.runs, { s.pending with zeros := s.pending.zeros + n }⟩
    else ⟨s.runs ++ [s.pending], ⟨n, 0, 0⟩⟩
  else if s.pending.count = 0 then
    ⟨s.runs, ⟨s.pending.zeros, v, n⟩⟩
  else if v = s.pending.value then
    ⟨s.runs, { s.pending with count := s.pending.count + n }⟩
  else ⟨s.runs ++ [s.pending], ⟨0, v, n⟩⟩

/-- Read a line one cell at a time. -/
def scan (s : Scan α) (line : List α) : Scan α :=
  line.foldl (fun s v => s.push 1 v) s

/-- The maximal runs of a line; the zeros that end it are left pending. -/
def lineRuns (line : List α) : Scan α := scan Scan.start line

@[simp] theorem scan_nil (s : Scan α) : scan s [] = s := rfl

@[simp] theorem scan_cons (s : Scan α) (v : α) (line : List α) :
    scan s (v :: line) = scan (s.push 1 v) line := rfl

theorem scan_append (s : Scan α) (line line' : List α) :
    scan s (line ++ line') = scan (scan s line) line' :=
  List.foldl_append

theorem Scan.cells_push (s : Scan α) (n : Nat) (v : α) :
    (s.push n v).cells = s.cells ++ List.replicate n v := by
  unfold Scan.push
  split
  next hv =>
    split
    next hcount =>
      simp [Scan.cells, Run.cells, hcount, hv]
    next => simp [Scan.cells, Run.cells, hv]
  next hv =>
    split
    next hcount => simp [Scan.cells, Run.cells, hcount]
    next hcount =>
      split
      next hsame =>
        simp [Scan.cells, Run.cells, hsame]
      next => simp [Scan.cells, Run.cells]

theorem cells_scan (s : Scan α) (line : List α) :
    (scan s line).cells = s.cells ++ line := by
  induction line generalizing s with
  | nil => simp
  | cons v line ih =>
      rw [scan_cons, ih, Scan.cells_push]
      simp

theorem cells_lineRuns (line : List α) : (lineRuns line).cells = line := by
  simp [lineRuns, cells_scan]

theorem Scan.push_push (s : Scan α) {n : Nat} (hn : 0 < n) (m : Nat) (v : α) :
    (s.push n v).push m v = s.push (n + m) v := by
  have hn0 : n ≠ 0 := by omega
  by_cases hv : v = 0
  · by_cases hcount : s.pending.count = 0 <;>
      simp [Scan.push, hv, hcount, Nat.add_assoc]
  · by_cases hcount : s.pending.count = 0
    · simp [Scan.push, hv, hcount, hn0]
    · by_cases hsame : v = s.pending.value
      · subst hsame
        simp [Scan.push, hv, hcount, Nat.add_assoc]
      · simp [Scan.push, hv, hcount, hsame, hn0]

theorem scan_replicate (s : Scan α) (n : Nat) (v : α) :
    scan s (List.replicate (n + 1) v) = s.push (n + 1) v := by
  induction n generalizing s with
  | zero => rfl
  | succ n ih =>
      rw [List.replicate_succ, scan_cons, ih, Scan.push_push _ Nat.one_pos,
        Nat.add_comm 1]

/-- Completed runs have cells of a nonzero value; the pending one may still
have zeros only. -/
def Scan.Proper (s : Scan α) : Prop :=
  (∀ r ∈ s.runs, r.value ≠ 0 ∧ 0 < r.count) ∧
    (s.pending.count = 0 ↔ s.pending.value = 0)

omit [DecidableEq α] in
theorem Scan.proper_start : (Scan.start : Scan α).Proper := by
  simp [Scan.Proper, Scan.start]

theorem Scan.Proper.push {s : Scan α} (hs : s.Proper) {n : Nat} (hn : 0 < n)
    (v : α) : (s.push n v).Proper := by
  obtain ⟨hruns, hpending⟩ := hs
  have hdone : s.pending.count ≠ 0 →
      ∀ r ∈ s.runs ++ [s.pending], r.value ≠ 0 ∧ 0 < r.count := by
    intro hcount r hr
    rcases List.mem_append.mp hr with hr | hr
    · exact hruns r hr
    · rw [List.mem_singleton.mp hr]
      exact ⟨fun h => hcount (hpending.mpr h), by omega⟩
  have hpos : ∀ m : Nat, m + n ≠ 0 := fun m => by omega
  have hn0 : n ≠ 0 := by omega
  unfold Scan.push
  split
  next =>
    split
    next => exact ⟨hruns, hpending⟩
    next hcount => exact ⟨hdone hcount, by simp⟩
  next hv =>
    split
    next => exact ⟨hruns, by simp [hv, hn0]⟩
    next hcount =>
      split
      next hsame => exact ⟨hruns, by simp [← hsame, hv, hn0]⟩
      next => exact ⟨hdone hcount, by simp [hv, hn0]⟩

theorem Scan.Proper.scan {s : Scan α} (hs : s.Proper) (line : List α) :
    (scan s line).Proper := by
  induction line generalizing s with
  | nil => exact hs
  | cons v line ih => exact ih (hs.push Nat.one_pos v)

theorem proper_lineRuns (line : List α) : (lineRuns line).Proper :=
  Scan.proper_start.scan line

/-! ## Maximality -/

/-- A run follows another one after some zeros or with another value. -/
def Run.Apart (r r' : Run α) : Prop :=
  0 < r'.zeros ∨ (r'.count ≠ 0 ∧ r'.value ≠ r.value)

/-- No two of the runs could be read as one. -/
def Scan.Maximal (s : Scan α) : Prop :=
  (s.runs ++ [s.pending]).IsChain Run.Apart

omit [Zero α] [DecidableEq α] in
theorem Scan.maximal_iff (s : Scan α) :
    s.Maximal ↔ s.runs.IsChain Run.Apart ∧ ∀ r ∈ s.runs.getLast?, r.Apart s.pending := by
  unfold Scan.Maximal
  rw [List.isChain_append]
  simp

theorem Scan.Maximal.push {s : Scan α} (hs : s.Maximal) {n : Nat} (hn : 0 < n) (v : α) :
    (s.push n v).Maximal := by
  obtain ⟨hruns, hlast⟩ := s.maximal_iff.mp hs
  have hdone : ∀ r : Run α, s.pending.Apart r →
      Scan.Maximal ⟨s.runs ++ [s.pending], r⟩ := by
    intro r hr
    apply (Scan.maximal_iff _).mpr
    exact ⟨hs, by simpa using hr⟩
  unfold Scan.push
  split
  next hv =>
    split
    next hcount =>
      apply (Scan.maximal_iff _).mpr
      exact ⟨hruns, fun r _ => .inl (by simp only; omega)⟩
    next hcount => exact hdone _ (.inl hn)
  next hv =>
    split
    next hcount =>
      apply (Scan.maximal_iff _).mpr
      refine ⟨hruns, fun r hr => ?_⟩
      rcases hlast r hr with hzeros | ⟨hcount', -⟩
      · exact .inl hzeros
      · exact absurd hcount hcount'
    next hcount =>
      split
      next hsame =>
        apply (Scan.maximal_iff _).mpr
        refine ⟨hruns, fun r hr => ?_⟩
        rcases hlast r hr with hzeros | ⟨-, hvalue⟩
        · exact .inl hzeros
        · exact .inr ⟨by simp only; omega, hvalue⟩
      next hother => exact hdone _ (.inr ⟨by simp only; omega, hother⟩)

theorem Scan.Maximal.scan {s : Scan α} (hs : s.Maximal) (line : List α) :
    (scan s line).Maximal := by
  induction line generalizing s with
  | nil => exact hs
  | cons v line ih => exact ih (hs.push Nat.one_pos v)

theorem maximal_lineRuns (line : List α) : (lineRuns line).Maximal :=
  Scan.Maximal.scan (s := Scan.start) (List.isChain_singleton _) line

end Iraf.RunLength
