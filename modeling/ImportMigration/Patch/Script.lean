/-! # Edit scripts

A script tells how one list of lines becomes another, as a sequence of runs.

* `Edit`: a run of lines that is kept, deleted or inserted.
* `Edit.before`, `Edit.after` and their lifts to scripts: the lines a script starts from and those
  it ends with.
* `commonStart`, `commonEnd`: how far two lists agree at their ends. -/

namespace ImportMigration.Patch

variable {α : Type}

/-- A run of lines in an edit script. -/
inductive Edit (α : Type) where
  /-- Lines that both sides have. -/
  | keep (lines : List α)
  /-- Lines that only the old side has. -/
  | delete (lines : List α)
  /-- Lines that only the new side has. -/
  | insert (lines : List α)

namespace Edit

/-- The lines of a run. -/
def lines : Edit α → List α
  | keep ls => ls
  | delete ls => ls
  | insert ls => ls

/-- The lines of a run on the old side. -/
def before : Edit α → List α
  | keep ls => ls
  | delete ls => ls
  | insert _ => []

/-- The lines of a run on the new side. -/
def after : Edit α → List α
  | keep ls => ls
  | delete _ => []
  | insert ls => ls

end Edit

/-- The lines a script starts from. -/
def before (script : List (Edit α)) : List α := script.flatMap (·.before)

/-- The lines a script ends with. -/
def after (script : List (Edit α)) : List α := script.flatMap (·.after)

/-- The length of the longest common start of two lists. -/
def commonStart [DecidableEq α] : List α → List α → Nat
  | x :: xs, y :: ys => if x = y then commonStart xs ys + 1 else 0
  | _, _ => 0

/-- The length of the longest common end of two lists. -/
def commonEnd [DecidableEq α] (xs ys : List α) : Nat := commonStart xs.reverse ys.reverse

/-- A common start is no longer than the second list. -/
theorem commonStart_le_right [DecidableEq α] (xs ys : List α) : commonStart xs ys ≤ ys.length := by
  fun_induction commonStart xs ys <;> simp_all

/-- A common end is no longer than the second list. -/
theorem commonEnd_le_right [DecidableEq α] (xs ys : List α) : commonEnd xs ys ≤ ys.length := by
  simpa [commonEnd] using commonStart_le_right xs.reverse ys.reverse

end ImportMigration.Patch
