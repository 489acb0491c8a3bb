import ImportMigration.Patch.Compact
import ImportMigration.Patch.Search

/-! # Hunks

The changes of a script with the lines around them, grouped as a unified diff shows them.

* `Change`: a deletion and an insertion at one place, with no kept line between.
* `changes`: the changes of a script, with their places on both sides.
* `Hunk`, `hunks`: changes whose surroundings touch share a hunk.
* `diff`: the hunks between two lists of lines. -/

namespace ImportMigration.Patch

variable {α : Type}

/-- Lines deleted and inserted at one place. -/
structure Change (α : Type) where
  /-- The number of old lines before the place. -/
  oldStart : Nat
  /-- The number of new lines before the place. -/
  newStart : Nat
  /-- The deleted lines. -/
  deleted : List α
  /-- The inserted lines. -/
  inserted : List α

namespace Change

/-- The number of old lines up to the end of the change. -/
def oldEnd (c : Change α) : Nat := c.oldStart + c.deleted.length

/-- The number of new lines up to the end of the change. -/
def newEnd (c : Change α) : Nat := c.newStart + c.inserted.length

end Change

/-- The changes of a script that starts after so many old and new lines; `open?` is the change that
the lines just before belong to. -/
def changesFrom (oldAt newAt : Nat) (open? : Option (Change α)) :
    List (Edit α) → List (Change α)
  | [] => open?.toList
  | .keep ls :: rest =>
    open?.toList ++ changesFrom (oldAt + ls.length) (newAt + ls.length) none rest
  | .delete ls :: rest =>
    let c := open?.getD ⟨oldAt, newAt, [], []⟩
    changesFrom (oldAt + ls.length) newAt (some { c with deleted := c.deleted ++ ls }) rest
  | .insert ls :: rest =>
    let c := open?.getD ⟨oldAt, newAt, [], []⟩
    changesFrom oldAt (newAt + ls.length) (some { c with inserted := c.inserted ++ ls }) rest

/-- The changes of a script in order. -/
def changes (script : List (Edit α)) : List (Change α) := changesFrom 0 0 none script

/-- The number of kept lines shown around a change. -/
def contextSize : Nat := 3

/-- The lines of a list from one position up to another. -/
def slice (lines : List α) (start stop : Nat) : List α := (lines.drop start).take (stop - start)

/-- A line of a hunk. -/
inductive HunkLine (α : Type) where
  /-- A line that both sides have. -/
  | context (line : α)
  /-- A line that only the old side has. -/
  | removed (line : α)
  /-- A line that only the new side has. -/
  | added (line : α)

/-- A stretch of the diff: where it lies on both sides, and its lines. -/
structure Hunk (α : Type) where
  /-- The number of old lines before the hunk. -/
  oldStart : Nat
  /-- The number of old lines in it. -/
  oldLength : Nat
  /-- The number of new lines before the hunk. -/
  newStart : Nat
  /-- The number of new lines in it. -/
  newLength : Nat
  /-- Its lines in order. -/
  lines : List (HunkLine α)

/-- The number of context lines after a change: three, or as many as both sides still have. -/
def trailing (old new : List α) (c : Change α) : Nat :=
  min contextSize (min (old.length - c.oldEnd) (new.length - c.newEnd))

/-- Whether the context before a change reaches into the context after the one before it. -/
def touches (old new : List α) (c next : Change α) : Bool :=
  min next.oldStart (old.length - 1) - contextSize < c.oldEnd + trailing old new c

/-- Groups changes whose contexts touch, each group with its first change apart. -/
def groupChanges (old new : List α) : List (Change α) → List (Change α × List (Change α))
  | [] => []
  | c :: rest =>
    match groupChanges old new rest with
    | [] => [(c, [])]
    | (next, others) :: groups =>
      if touches old new c next then (c, next :: others) :: groups
      else (c, []) :: (next, others) :: groups

/-- The lines of a change. -/
def Change.hunkLines (c : Change α) : List (HunkLine α) :=
  c.deleted.map .removed ++ c.inserted.map .added

/-- The lines of a group of changes, from the first deleted or inserted line to the last. -/
def groupLines (new : List α) (c : Change α) : List (Change α) → List (HunkLine α)
  | [] => c.hunkLines
  | next :: rest =>
    c.hunkLines ++ (slice new c.newEnd next.newStart).map .context ++ groupLines new next rest

/-- The hunk of a group of changes. -/
def hunkOf (old new : List α) (group : Change α × List (Change α)) : Hunk α :=
  let first := group.1
  let last := group.2.getLastD first
  -- Each side starts three lines before the first change, or at its first line.
  let oldStart := first.oldStart - contextSize
  let newStart := first.newStart - contextSize
  let newStop := last.newEnd + trailing old new last
  { oldStart, newStart,
    oldLength := last.oldEnd + trailing old new last - oldStart,
    newLength := newStop - newStart,
    lines := (slice new newStart first.newStart).map .context ++ groupLines new first group.2 ++
      (slice new last.newEnd newStop).map .context }

/-- The hunks of a script between two lists of lines. -/
def hunks (old new : List α) (script : List (Edit α)) : List (Hunk α) :=
  (groupChanges old new (changes script)).map (hunkOf old new)

/-- The hunks of the diff between two lists of lines. -/
def diff [DecidableEq α] (old new : List α) : List (Hunk α) :=
  hunks old new (compact (search old new))

end ImportMigration.Patch
