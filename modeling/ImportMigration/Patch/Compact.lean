import ImportMigration.Patch.Script

/-! # Compacting edit scripts

Where the lines around a deleted or inserted run repeat, the run can slide along them without
changing what the script does. Each run is slid up as far as it goes, taking in runs of its own kind
and passing runs of the other, and then down as far as it goes.

* `Focus`: a script seen from one changed run.
* `Focus.slideUp`, `Focus.slideDown`: the two directions.
* `compact`: the script with first its deletions and then its insertions slid. -/

namespace ImportMigration.Patch

variable {α : Type} [DecidableEq α]

/-- The two kinds of changed run. -/
inductive ChangeKind where
  /-- Lines only on the old side. -/
  | deletion
  /-- Lines only on the new side. -/
  | insertion
deriving DecidableEq

/-- The changed run of a kind with these lines. -/
def ChangeKind.run : ChangeKind → List α → Edit α
  | .deletion, ls => .delete ls
  | .insertion, ls => .insert ls

/-- The kind of a changed run. -/
def Edit.kind? : Edit α → Option ChangeKind
  | .keep _ => none
  | .delete _ => some .deletion
  | .insert _ => some .insertion

/-- A script with one changed run of a given kind in focus. -/
structure Focus (α : Type) where
  /-- The runs in front of it, the nearest first. -/
  above : List (Edit α)
  /-- The lines of the run in focus. -/
  lines : List α
  /-- The runs behind it. -/
  below : List (Edit α)

/-- The size of a list of runs, an empty run counting as one. -/
def weight : List (Edit α) → Nat
  | [] => 0
  | e :: rest => e.lines.length + 1 + weight rest

/-- Kept lines in front of what follows, as part of a kept run if one starts there. -/
def keepAbove (lines : List α) : List (Edit α) → List (Edit α)
  | .keep ls :: rest => .keep (lines ++ ls) :: rest
  | rest => .keep lines :: rest

/-- Kept lines behind what precedes (nearest first), as part of a kept run if one ends there. -/
def keepBelow (lines : List α) : List (Edit α) → List (Edit α)
  | .keep ls :: rest => .keep (ls ++ lines) :: rest
  | rest => .keep lines :: rest

namespace Focus

/-- Slides a run up: over kept lines that end as it does, past runs of the other kind, and together
with runs of its own kind. -/
def slideUp (kind : ChangeKind) (above : List (Edit α)) (lines : List α)
    (below : List (Edit α)) : Focus α :=
  match above with
  | [] => ⟨[], lines, below⟩
  | .keep kept :: rest =>
    let n := commonEnd lines kept
    if n = 0 then
      if kept.isEmpty then slideUp kind rest lines below else ⟨above, lines, below⟩
    else
      -- The run moves up by `n` lines: the shared ones now start it, and its last ones are kept.
      let shared := kept.drop (kept.length - n)
      let stay := kept.take (kept.length - n)
      let lines' := shared ++ lines.take (lines.length - n)
      if stay.isEmpty then slideUp kind rest lines' (keepAbove shared below)
      else slideUp kind (.keep stay :: rest) lines' (keepAbove shared below)
  | other :: rest =>
    if other.kind? = some kind then slideUp kind rest (other.lines ++ lines) below
    else slideUp kind rest lines (other :: below)
termination_by weight above
decreasing_by
  all_goals
    try have := commonEnd_le_right lines kept
    simp only [weight, Edit.lines, List.length_take]
    omega

/-- Slides a run down: over kept lines that start as it does, past runs of the other kind, and
together with runs of its own kind. -/
def slideDown (kind : ChangeKind) (above : List (Edit α)) (lines : List α)
    (below : List (Edit α)) : Focus α :=
  match below with
  | [] => ⟨above, lines, []⟩
  | .keep kept :: rest =>
    let n := commonStart lines kept
    if n = 0 then
      if kept.isEmpty then slideDown kind above lines rest else ⟨above, lines, below⟩
    else
      -- The run moves down by `n` lines: the shared ones now end it, and its first ones are kept.
      let shared := kept.take n
      let stay := kept.drop n
      let lines' := lines.drop n ++ shared
      if stay.isEmpty then slideDown kind (keepBelow shared above) lines' rest
      else slideDown kind (keepBelow shared above) lines' (.keep stay :: rest)
  | other :: rest =>
    if other.kind? = some kind then slideDown kind above (lines ++ other.lines) rest
    else slideDown kind (other :: above) lines rest
termination_by weight below
decreasing_by
  all_goals
    try have := commonStart_le_right lines kept
    simp only [weight, Edit.lines, List.length_drop]
    omega

end Focus

/-- Slides every run of a kind, from the first on. `above` holds the runs done so far, the nearest
first; the fuel bounds the number of runs looked at. -/
def slideAll (kind : ChangeKind) : (fuel : Nat) → (above below : List (Edit α)) → List (Edit α)
  | 0, above, below => above.reverse ++ below
  | _ + 1, above, [] => above.reverse
  | fuel + 1, above, e :: rest =>
    if e.kind? = some kind then
      let up := Focus.slideUp kind above e.lines rest
      let down := Focus.slideDown kind up.above up.lines up.below
      slideAll kind fuel (kind.run down.lines :: down.above) down.below
    else slideAll kind fuel (e :: above) rest

/-- A bound on the number of runs that sliding looks at: a run is looked at again only after two
runs became one. -/
def slideFuel (script : List (Edit α)) : Nat := (weight script + 1) * (weight script + 1)

/-- The script with its deletions and then its insertions slid up and down. -/
def compact (script : List (Edit α)) : List (Edit α) :=
  let slid := slideAll .deletion (slideFuel script) [] script
  slideAll .insertion (slideFuel slid) [] slid

end ImportMigration.Patch
