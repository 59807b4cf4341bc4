/-!
# Sets of lines

Breakpoints are a set of line numbers, kept in increasing order.
-/

namespace Teal

/-- A set of line numbers. -/
structure LineSet where
  lines : List Nat := []
  sorted : lines.Pairwise (· < ·) := by simp
deriving DecidableEq

namespace LineSet

/-- The set without lines. -/
def empty : LineSet := {}

/-- Whether a line is in the set. -/
def contains (s : LineSet) (line : Nat) : Bool :=
  s.lines.contains line

/-- A line put in its place in an increasing list. -/
def place (line : Nat) : List Nat → List Nat
  | [] => [line]
  | l :: ls =>
    if line < l then line :: l :: ls
    else if line = l then l :: ls
    else l :: place line ls

theorem mem_place {line x : Nat} {ls : List Nat} : x ∈ place line ls ↔ x = line ∨ x ∈ ls := by
  induction ls with
  | nil => simp [place]
  | cons l ls ih =>
    unfold place
    split
    · simp
    · split
      · rename_i h; simp [h]
      · simp [ih, or_left_comm]

theorem sorted_place {line : Nat} {ls : List Nat} (h : ls.Pairwise (· < ·)) :
    (place line ls).Pairwise (· < ·) := by
  induction ls with
  | nil => simp [place]
  | cons l ls ih =>
    have ⟨hl, hls⟩ := List.pairwise_cons.1 h
    unfold place
    split
    · rename_i hlt
      refine List.pairwise_cons.2 ⟨fun x hx => ?_, h⟩
      rcases List.mem_cons.1 hx with rfl | hx
      · exact hlt
      · exact Nat.lt_trans hlt (hl x hx)
    · split
      · exact h
      · refine List.pairwise_cons.2 ⟨fun x hx => ?_, ih hls⟩
        rcases mem_place.1 hx with rfl | hx
        · omega
        · exact hl x hx

/-- The set with a line added. -/
def insert (s : LineSet) (line : Nat) : LineSet :=
  { lines := place line s.lines, sorted := sorted_place s.sorted }

/-- The set with a line removed. -/
def erase (s : LineSet) (line : Nat) : LineSet :=
  { lines := s.lines.filter (· != line), sorted := s.sorted.filter _ }

/-- The set of the lines in a list. -/
def ofList (lines : List Nat) : LineSet :=
  lines.foldl insert empty

@[simp]
theorem contains_insert (s : LineSet) (line x : Nat) :
    (s.insert line).contains x = (x == line || s.contains x) := by
  rw [Bool.eq_iff_iff]
  simp [contains, insert, mem_place]

@[simp]
theorem contains_erase (s : LineSet) (line x : Nat) :
    (s.erase line).contains x = (s.contains x && x != line) := by
  rw [Bool.eq_iff_iff]
  simp [contains, erase]

end LineSet

end Teal
