import ImportMigration.Patch.Hunk
import ImportMigration.Proofs.EditScripts

/-! # Applying hunks

Hunks are applied to a list by copying the lines between them and putting their new lines in the
place of their old ones. This is strict: a hunk must lie on both sides where it says, be as long as
it says and find its old lines. The hunks of a diff pass all of these tests and give the new list.

* `applyHunks`: the application.
* `Tiles`: hunks that lie between two lists, which are those whose application to the first gives
  the second (`applyFrom_eq_some_iff`).
* `Parts`: the places of changes between two lists. The changes of a script are parted by kept
  lines.
* `tiles_diff`: the hunks of a diff lie between its lists. -/

namespace ImportMigration.Patch

variable {α : Type}

/-! ## The two sides of a hunk -/

/-- The line on the old side, where it has one. -/
def HunkLine.old? : HunkLine α → Option α
  | .context line => some line
  | .removed line => some line
  | .added _ => none

/-- The line on the new side, where it has one. -/
def HunkLine.new? : HunkLine α → Option α
  | .context line => some line
  | .removed _ => none
  | .added line => some line

/-- The old lines of a stretch of a hunk. -/
def oldSide (ls : List (HunkLine α)) : List α := ls.filterMap HunkLine.old?

/-- The new lines of a stretch of a hunk. -/
def newSide (ls : List (HunkLine α)) : List α := ls.filterMap HunkLine.new?

@[simp] theorem oldSide_append (ls ms : List (HunkLine α)) :
    oldSide (ls ++ ms) = oldSide ls ++ oldSide ms := List.filterMap_append

@[simp] theorem newSide_append (ls ms : List (HunkLine α)) :
    newSide (ls ++ ms) = newSide ls ++ newSide ms := List.filterMap_append

@[simp] theorem oldSide_context (ls : List α) : oldSide (ls.map .context) = ls := by
  simp [oldSide, List.filterMap_map, Function.comp_def, HunkLine.old?]

@[simp] theorem newSide_context (ls : List α) : newSide (ls.map .context) = ls := by
  simp [newSide, List.filterMap_map, Function.comp_def, HunkLine.new?]

@[simp] theorem oldSide_hunkLines (c : Change α) : oldSide c.hunkLines = c.deleted := by
  simp [Change.hunkLines, oldSide, List.filterMap_map, Function.comp_def, HunkLine.old?]

@[simp] theorem newSide_hunkLines (c : Change α) : newSide c.hunkLines = c.inserted := by
  simp [Change.hunkLines, newSide, List.filterMap_map, Function.comp_def, HunkLine.new?]

/-- The line of a hunk, on whichever side it is. -/
def HunkLine.line : HunkLine α → α
  | .context line => line
  | .removed line => line
  | .added line => line

/-- Every line of a hunk is on one of its sides. -/
theorem mem_side_of_mem {ls : List (HunkLine α)} {l : HunkLine α} (h : l ∈ ls) :
    l.line ∈ oldSide ls ∨ l.line ∈ newSide ls := by
  cases l with
  | context line => exact Or.inl (List.mem_filterMap.mpr ⟨_, h, rfl⟩)
  | removed line => exact Or.inl (List.mem_filterMap.mpr ⟨_, h, rfl⟩)
  | added line => exact Or.inr (List.mem_filterMap.mpr ⟨_, h, rfl⟩)

/-- The lines on the new side of a hunk are lines of the hunk. -/
theorem mem_map_line_of_mem_newSide {ls : List (HunkLine α)} {x : α} (h : x ∈ newSide ls) :
    x ∈ ls.map HunkLine.line := by
  obtain ⟨l, hl, hx⟩ := List.mem_filterMap.mp h
  refine List.mem_map.mpr ⟨l, hl, ?_⟩
  cases l with
  | context line => exact Option.some.inj hx
  | removed line => cases hx
  | added line => exact Option.some.inj hx

/-- A line of a hunk with another one put in its place. -/
def HunkLine.map {β : Type} (f : α → β) : HunkLine α → HunkLine β
  | .context line => .context (f line)
  | .removed line => .removed (f line)
  | .added line => .added (f line)

/-- A hunk with other lines put in the place of its lines. -/
def Hunk.map {β : Type} (f : α → β) (h : Hunk α) : Hunk β :=
  { h with lines := h.lines.map (HunkLine.map f) }

/-- A hunk stays as it is when each of its lines does. -/
theorem Hunk.map_eq_self {f : α → α} {h : Hunk α} (hf : ∀ l ∈ h.lines, f l.line = l.line) :
    h.map f = h := by
  have hlines : h.lines.map (HunkLine.map f) = h.lines.map id := by
    refine List.map_congr_left fun l hl => ?_
    have hline := hf l hl
    cases l with
    | context line => exact congrArg HunkLine.context hline
    | removed line => exact congrArg HunkLine.removed hline
    | added line => exact congrArg HunkLine.added hline
  rw [Hunk.map, hlines, List.map_id]

@[simp] theorem oldSide_map {β : Type} (f : α → β) (ls : List (HunkLine α)) :
    oldSide (ls.map (HunkLine.map f)) = (oldSide ls).map f := by
  rw [oldSide, oldSide, List.filterMap_map, List.map_filterMap]
  congr 1
  funext l
  cases l <;> rfl

@[simp] theorem newSide_map {β : Type} (f : α → β) (ls : List (HunkLine α)) :
    newSide (ls.map (HunkLine.map f)) = (newSide ls).map f := by
  rw [newSide, newSide, List.filterMap_map, List.map_filterMap]
  congr 1
  funext l
  cases l <;> rfl

/-! ## Application -/

/-- Applies hunks to the lines that are left, when so many old and new lines lie before them. -/
def applyFrom [DecidableEq α] (oldAt newAt : Nat) : List (Hunk α) → List α → Option (List α)
  | [], rest => some rest
  | h :: hs, rest =>
    let gap := h.oldStart - oldAt
    if oldAt ≤ h.oldStart ∧ gap ≤ rest.length ∧ h.newStart = newAt + gap ∧
        h.oldLength = (oldSide h.lines).length ∧ h.newLength = (newSide h.lines).length ∧
        oldSide h.lines <+: rest.drop gap then
      (applyFrom (h.oldStart + h.oldLength) (h.newStart + h.newLength) hs
        (rest.drop (gap + h.oldLength))).map (rest.take gap ++ newSide h.lines ++ ·)
    else none

/-- Applies hunks to a list. -/
def applyHunks [DecidableEq α] (hs : List (Hunk α)) (old : List α) : Option (List α) :=
  applyFrom 0 0 hs old

/-- Hunks between two lists that so many old and new lines precede. -/
inductive Tiles : (oldAt newAt : Nat) → List (Hunk α) → (old new : List α) → Prop where
  /-- Behind the last hunk both lists go on alike. -/
  | done (oldAt newAt : Nat) (kept : List α) : Tiles oldAt newAt [] kept kept
  /-- A hunk behind lines that both lists have. -/
  | hunk {oldAt newAt : Nat} {h : Hunk α} {hs : List (Hunk α)} {old new : List α} (kept : List α)
      (oldStart : h.oldStart = oldAt + kept.length) (newStart : h.newStart = newAt + kept.length)
      (oldLength : h.oldLength = (oldSide h.lines).length)
      (newLength : h.newLength = (newSide h.lines).length)
      (rest : Tiles (h.oldStart + h.oldLength) (h.newStart + h.newLength) hs old new) :
      Tiles oldAt newAt (h :: hs) (kept ++ (oldSide h.lines ++ old)) (kept ++ (newSide h.lines ++ new))

/-- A hunk between two lists is as long as it says. -/
theorem Tiles.lengths {oldAt newAt : Nat} {hs : List (Hunk α)} {old new : List α}
    (h : Tiles oldAt newAt hs old new) {hunk : Hunk α} (hhunk : hunk ∈ hs) :
    hunk.oldLength = (oldSide hunk.lines).length ∧ hunk.newLength = (newSide hunk.lines).length := by
  induction h with
  | done => cases hhunk
  | hunk kept oldStart newStart oldLength newLength rest ih =>
    rcases List.mem_cons.mp hhunk with rfl | hhunk
    · exact ⟨oldLength, newLength⟩
    · exact ih hhunk

/-- A hunk between two lists shows lines of these. -/
theorem Tiles.mem_of_mem_lines {oldAt newAt : Nat} {hs : List (Hunk α)} {old new : List α}
    (h : Tiles oldAt newAt hs old new) {hunk : Hunk α} (hhunk : hunk ∈ hs) {l : HunkLine α}
    (hl : l ∈ hunk.lines) : l.line ∈ old ∨ l.line ∈ new := by
  induction h with
  | done => cases hhunk
  | hunk kept oldStart newStart oldLength newLength rest ih =>
    rcases List.mem_cons.mp hhunk with rfl | hhunk
    · rcases mem_side_of_mem hl with hmem | hmem
      · exact Or.inl (List.mem_append_right _ (List.mem_append_left _ hmem))
      · exact Or.inr (List.mem_append_right _ (List.mem_append_left _ hmem))
    · rcases ih hhunk with hmem | hmem
      · exact Or.inl (List.mem_append_right _ (List.mem_append_right _ hmem))
      · exact Or.inr (List.mem_append_right _ (List.mem_append_right _ hmem))

/-- A line that only the new one of two lists has is shown in a hunk between them. -/
theorem Tiles.shown_of_not_mem {oldAt newAt : Nat} {hs : List (Hunk α)} {old new : List α}
    (h : Tiles oldAt newAt hs old new) {x : α} (hnew : x ∈ new) (hold : x ∉ old) :
    x ∈ hs.flatMap fun hunk => hunk.lines.map HunkLine.line := by
  induction h with
  | done => exact absurd hnew hold
  | hunk kept oldStart newStart oldLength newLength rest ih =>
    simp only [List.mem_append, not_or] at hnew hold
    rw [List.flatMap_cons, List.mem_append]
    rcases hnew with hkept | hside | hrest
    · exact absurd hkept hold.1
    · exact Or.inl (mem_map_line_of_mem_newSide hside)
    · exact Or.inr (ih hrest hold.2.2)

/-- **Application.** Hunks turn a list into another when they lie between the two. -/
theorem applyFrom_eq_some_iff [DecidableEq α] {oldAt newAt : Nat} {hs : List (Hunk α)}
    {old new : List α} :
    applyFrom oldAt newAt hs old = some new ↔ Tiles oldAt newAt hs old new := by
  constructor
  · intro h
    induction hs generalizing oldAt newAt old new with
    | nil =>
      obtain rfl := Option.some.inj h
      exact Tiles.done oldAt newAt old
    | cons hunk hs ih =>
      simp only [applyFrom] at h
      split_ifs at h with hfits
      obtain ⟨hat, hgap, hnewStart, holdLength, hnewLength, tail, htail⟩ := hfits
      obtain ⟨result, hresult, rfl⟩ := Option.map_eq_some_iff.mp h
      have hrest : old.drop (hunk.oldStart - oldAt + hunk.oldLength) = tail := by
        rw [← List.drop_drop, ← htail, holdLength, List.drop_left]
      have hold : old = old.take (hunk.oldStart - oldAt) ++ (oldSide hunk.lines ++ tail) := by
        rw [htail, List.take_append_drop]
      have hkept : (old.take (hunk.oldStart - oldAt)).length = hunk.oldStart - oldAt := by
        rw [List.length_take]
        omega
      rw [hrest] at hresult
      have htiles : Tiles oldAt newAt (hunk :: hs)
          (old.take (hunk.oldStart - oldAt) ++ (oldSide hunk.lines ++ tail))
          (old.take (hunk.oldStart - oldAt) ++ (newSide hunk.lines ++ result)) :=
        .hunk _ (by omega) (by omega) holdLength hnewLength (ih hresult)
      rwa [← hold, ← List.append_assoc] at htiles
  · intro h
    induction h with
    | done oldAt newAt kept => rfl
    | @hunk oldAt newAt h hs old new kept oldStart newStart oldLength newLength rest ih =>
      have hgap : h.oldStart - oldAt = kept.length := by omega
      have hfits : oldAt ≤ h.oldStart ∧
          kept.length ≤ (kept ++ (oldSide h.lines ++ old)).length ∧
          h.newStart = newAt + kept.length ∧ h.oldLength = (oldSide h.lines).length ∧
          h.newLength = (newSide h.lines).length ∧
          oldSide h.lines <+: (kept ++ (oldSide h.lines ++ old)).drop kept.length := by
        refine ⟨by omega, by simp, newStart, oldLength, newLength, ?_⟩
        rw [List.drop_left]
        exact List.prefix_append _ _
      rw [applyFrom]
      simp only [hgap]
      rw [if_pos hfits, ← List.drop_drop, List.drop_left, oldLength, List.drop_left, ← oldLength, ih,
        List.take_left]
      simp

/-! ## Changes of a script -/

/-- Changes between two lists that so many old and new lines precede. Lines that both lists have
part a change from the one before it. -/
inductive Parts : (oldAt newAt : Nat) → List (Change α) → (old new : List α) → Prop where
  /-- Behind the last change both lists go on alike. -/
  | done (oldAt newAt : Nat) (kept : List α) : Parts oldAt newAt [] kept kept
  /-- A change behind lines that both lists have. -/
  | change {oldAt newAt : Nat} {c : Change α} {cs : List (Change α)} {old new : List α}
      (kept : List α) (apart : kept ≠ [] ∨ oldAt = 0 ∧ newAt = 0)
      (oldStart : c.oldStart = oldAt + kept.length) (newStart : c.newStart = newAt + kept.length)
      (rest : Parts c.oldEnd c.newEnd cs old new) :
      Parts oldAt newAt (c :: cs) (kept ++ (c.deleted ++ old)) (kept ++ (c.inserted ++ new))

/-- The changes of the rest of a script, first where no change is open and `kept` lines were passed
since the last one, then where the change `c` is open. -/
theorem parts_changesFrom {script : List (Edit α)} (h : NoIdleKeep script) (oldAt newAt : Nat)
    (kept : List α) (apart : kept ≠ [] ∨ oldAt = 0 ∧ newAt = 0) :
    Parts oldAt newAt (changesFrom (oldAt + kept.length) (newAt + kept.length) none script)
        (kept ++ before script) (kept ++ after script) ∧
      ∀ c : Change α, c.oldStart = oldAt + kept.length → c.newStart = newAt + kept.length →
        Parts oldAt newAt (changesFrom c.oldEnd c.newEnd (some c) script)
          (kept ++ (c.deleted ++ before script)) (kept ++ (c.inserted ++ after script)) := by
  -- A kept run closes the open change, a changed one widens it or opens one where none is open.
  induction script generalizing oldAt newAt kept with
  | nil =>
    refine ⟨?_, fun c hold hnew => ?_⟩
    · simpa [changesFrom, before, after] using Parts.done oldAt newAt kept
    · exact Parts.change kept apart hold hnew (Parts.done _ _ _)
  | cons e script ih =>
    obtain ⟨hidle, hscript⟩ := (noIdleKeep_cons e script).mp h
    cases e with
    | keep ls =>
      have hls : ls ≠ [] := by
        rintro rfl
        exact hidle rfl
      refine ⟨?_, fun c hold hnew => ?_⟩
      · have hnext := (ih hscript oldAt newAt (kept ++ ls) (by simp [hls])).1
        simpa [changesFrom, before, after, Edit.before, Edit.after, Nat.add_assoc] using hnext
      · have hnext := (ih hscript c.oldEnd c.newEnd ls (Or.inl hls)).1
        exact Parts.change kept apart hold hnew hnext
    | delete ls =>
      have hopen := fun c => (ih hscript oldAt newAt kept apart).2 c
      refine ⟨?_, fun c hold hnew => ?_⟩
      · have hnext := hopen ⟨oldAt + kept.length, newAt + kept.length, ls, []⟩ rfl rfl
        simpa [changesFrom, before, after, Edit.before, Edit.after, Change.oldEnd,
          Change.newEnd] using hnext
      · have hnext := hopen { c with deleted := c.deleted ++ ls } hold hnew
        simpa [changesFrom, before, after, Edit.before, Edit.after, Change.oldEnd,
          Change.newEnd, Nat.add_assoc] using hnext
    | insert ls =>
      have hopen := fun c => (ih hscript oldAt newAt kept apart).2 c
      refine ⟨?_, fun c hold hnew => ?_⟩
      · have hnext := hopen ⟨oldAt + kept.length, newAt + kept.length, [], ls⟩ rfl rfl
        simpa [changesFrom, before, after, Edit.before, Edit.after, Change.oldEnd,
          Change.newEnd] using hnext
      · have hnext := hopen { c with inserted := c.inserted ++ ls } hold hnew
        simpa [changesFrom, before, after, Edit.before, Edit.after, Change.oldEnd,
          Change.newEnd, Nat.add_assoc] using hnext

/-- The changes of a script between two lists lie between these. -/
theorem Transforms.parts_changes {old new : List α} {script : List (Edit α)}
    (h : Transforms old new script) : Parts 0 0 (changes script) old new := by
  have hparts := (parts_changesFrom h.noIdleKeep 0 0 [] (Or.inr ⟨rfl, rfl⟩)).1
  rw [h.before_eq, h.after_eq] at hparts
  exact hparts

/-! ## Hunks of a diff -/

section Groups

variable {old new : List α}

/-- A stretch of a list from a place on. -/
theorem slice_add (lines : List α) (start length : Nat) :
    slice lines start (start + length) = (lines.drop start).take length := by
  rw [slice, Nat.add_sub_cancel_left]

/-- The lines shown before a place: the last of the lines `kept` before it. -/
theorem slice_before {lines kept rest : List α} {start : Nat} (hkept : lines.drop start = kept ++ rest)
    (hreach : contextSize ≤ kept.length ∨ start = 0) :
    slice lines (start + kept.length - contextSize) (start + kept.length) =
      kept.drop (kept.length - contextSize) := by
  have hstart : start + kept.length - contextSize = start + (kept.length - contextSize) := by omega
  rw [slice, hstart, ← List.drop_drop, hkept, List.drop_append_of_le_length (by omega),
    List.take_append_of_le_length (by rw [List.length_drop]; omega), List.take_of_length_le]
  rw [List.length_drop]
  omega

/-- The first group of changes from its first change `c` on: its other changes, the lines its hunk
shows behind `c`, and the hunks of the groups behind it, in what the two lists still have behind
`c`. -/
inductive Continues (old new : List α) (c : Change α) (cs : List (Change α)) :
    List α → List α → Prop where
  /-- The lines end as far behind the last change as its context reaches. -/
  | intro {oldRest newRest : List α} (others : List (Change α))
      (groups : List (Change α × List (Change α))) (ls : List (HunkLine α))
      (grouped : groupChanges old new (c :: cs) = (c, others) :: groups)
      (lines : groupLines new c others ++
          (slice new (others.getLastD c).newEnd ((others.getLastD c).newEnd +
            trailing old new (others.getLastD c))).map .context = c.hunkLines ++ ls)
      (oldStop : (others.getLastD c).oldEnd + trailing old new (others.getLastD c) =
        c.oldEnd + (oldSide ls).length)
      (newStop : (others.getLastD c).newEnd + trailing old new (others.getLastD c) =
        c.newEnd + (newSide ls).length)
      (rest : Tiles (c.oldEnd + (oldSide ls).length) (c.newEnd + (newSide ls).length)
        (groups.map (hunkOf old new)) oldRest newRest) :
      Continues old new c cs (oldSide ls ++ oldRest) (newSide ls ++ newRest)

/-- A hunk that shows the last lines before a change, the change, and the lines `ls` behind it. Some
of the lines `kept` before the change are left out, as shown already, but none of those in the hunk.
-/
theorem Tiles.hunk_around {oldAt newAt shown : Nat} {hunk : Hunk α} {hs : List (Hunk α)} {c : Change α}
    {ls : List (HunkLine α)} {kept oldRest newRest : List α}
    (hold : c.oldStart = oldAt + kept.length) (hnew : c.newStart = newAt + kept.length)
    (hshown : shown ≤ kept.length - contextSize)
    (holdStart : hunk.oldStart = oldAt + (kept.length - contextSize))
    (hnewStart : hunk.newStart = newAt + (kept.length - contextSize))
    (holdStop : hunk.oldStart + hunk.oldLength = c.oldEnd + (oldSide ls).length)
    (hnewStop : hunk.newStart + hunk.newLength = c.newEnd + (newSide ls).length)
    (hlines : hunk.lines =
      (kept.drop (kept.length - contextSize)).map .context ++ (c.hunkLines ++ ls))
    (rest : Tiles (c.oldEnd + (oldSide ls).length) (c.newEnd + (newSide ls).length) hs
      oldRest newRest) :
    Tiles (oldAt + shown) (newAt + shown) (hunk :: hs)
      (kept.drop shown ++ (c.deleted ++ (oldSide ls ++ oldRest)))
      (kept.drop shown ++ (c.inserted ++ (newSide ls ++ newRest))) := by
  -- What is left of the kept lines is a gap that no hunk shows and the lead of this one.
  obtain ⟨gap, lead, hgap, hlead, hkept⟩ : ∃ gap lead : List α,
      shown + gap.length = kept.length - contextSize ∧
      kept.drop (kept.length - contextSize) = lead ∧ kept.drop shown = gap ++ lead := by
    refine ⟨(kept.take (kept.length - contextSize)).drop shown, _, ?_, rfl, ?_⟩
    · rw [List.length_drop, List.length_take]
      omega
    · rw [← List.drop_append_of_le_length (by rw [List.length_take]; omega), List.take_append_drop]
  have hlength : kept.length = shown + gap.length + lead.length := by
    rw [← hlead, List.length_drop]
    omega
  rw [← hgap] at holdStart hnewStart
  rw [hlead] at hlines
  have holdSide : oldSide hunk.lines = lead ++ (c.deleted ++ oldSide ls) := by simp [hlines]
  have hnewSide : newSide hunk.lines = lead ++ (c.inserted ++ newSide ls) := by simp [hlines]
  rw [← holdStop, ← hnewStop] at rest
  rw [Change.oldEnd] at holdStop
  rw [Change.newEnd] at hnewStop
  have htiles : Tiles (oldAt + shown) (newAt + shown) (hunk :: hs) _ _ :=
    .hunk gap (by omega) (by omega)
      (by rw [holdSide, List.length_append, List.length_append]; omega)
      (by rw [hnewSide, List.length_append, List.length_append]; omega) rest
  simpa [holdSide, hnewSide, hkept] using htiles

/-- The hunks of changes lie between the lists if they do from the first change on. -/
theorem Continues.tiles {c : Change α} {cs : List (Change α)} {oldRest newRest : List α}
    (h : Continues old new c cs oldRest newRest) {oldAt newAt : Nat} {kept : List α}
    (hold : c.oldStart = oldAt + kept.length) (hnew : c.newStart = newAt + kept.length)
    (hkept : new.drop newAt = kept ++ (c.inserted ++ newRest)) {shown : Nat}
    (hshown : shown ≤ kept.length - contextSize)
    (hreach : contextSize ≤ kept.length ∨ oldAt = 0 ∧ newAt = 0) :
    Tiles (oldAt + shown) (newAt + shown) ((groupChanges old new (c :: cs)).map (hunkOf old new))
      (kept.drop shown ++ (c.deleted ++ oldRest)) (kept.drop shown ++ (c.inserted ++ newRest)) := by
  obtain ⟨others, groups, ls, grouped, lines, oldStop, newStop, rest⟩ := h
  rw [grouped, List.map_cons]
  have holdStart : c.oldStart - contextSize = oldAt + (kept.length - contextSize) := by omega
  have hnewStart : c.newStart - contextSize = newAt + (kept.length - contextSize) := by omega
  have holdEnd : c.oldStart - contextSize ≤ c.oldEnd + (oldSide ls).length := by
    unfold Change.oldEnd
    omega
  have hnewEnd : c.newStart - contextSize ≤ c.newEnd + (newSide ls).length := by
    unfold Change.newEnd
    omega
  have hlines : (hunkOf old new (c, others)).lines =
      (slice new (c.newStart - contextSize) c.newStart).map .context ++ (c.hunkLines ++ ls) := by
    rw [← lines, ← List.append_assoc]
    rfl
  rw [hnew, slice_before hkept (hreach.imp_right And.right)] at hlines
  refine Tiles.hunk_around hold hnew hshown holdStart hnewStart ?_ ?_ hlines rest
  · rw [← oldStop] at holdEnd ⊢
    exact Nat.add_sub_of_le holdEnd
  · rw [← newStop] at hnewEnd ⊢
    exact Nat.add_sub_of_le hnewEnd

/-- As many lines are shown behind a change as both lists still have, up to three. -/
theorem trailing_eq {c : Change α} {oldRest newRest : List α} (hold : old.drop c.oldEnd = oldRest)
    (hnew : new.drop c.newEnd = newRest) :
    trailing old new c = min contextSize (min oldRest.length newRest.length) := by
  rw [trailing, ← List.length_drop, ← List.length_drop, hold, hnew]

/-- Where two changes share no hunk, the lines shown behind the one end before those shown before
the other. -/
theorem shown_of_not_touches {c next : Change α} {kept oldRest newRest : List α}
    (htouch : ¬ touches old new c next) (apart : kept ≠ [] ∨ c.oldEnd = 0 ∧ c.newEnd = 0)
    (hold : old.drop c.oldEnd = kept ++ oldRest) (hnew : new.drop c.newEnd = kept ++ newRest)
    (oldStart : next.oldStart = c.oldEnd + kept.length) :
    trailing old new c ≤ kept.length - contextSize ∧
      (contextSize ≤ kept.length ∨ c.oldEnd = 0 ∧ c.newEnd = 0) := by
  have hgap : c.oldEnd + trailing old new c ≤ min next.oldStart (old.length - 1) - contextSize := by
    simpa [touches] using htouch
  have htrailing := trailing_eq hold hnew
  have hlength := congrArg List.length hold
  rw [List.length_append, List.length_drop] at hlength
  rw [List.length_append, List.length_append] at htrailing
  rw [← List.length_pos_iff] at apart
  -- A gap of fewer than six lines is filled by the lines shown from both of its ends.
  unfold contextSize at *
  omega

/-- A change whose hunk ends behind it, with the lines that follow in both lists. -/
theorem Continues.of_alone {c : Change α} {cs : List (Change α)} {kept oldRest newRest : List α}
    {groups : List (Change α × List (Change α))}
    (grouped : groupChanges old new (c :: cs) = (c, []) :: groups)
    (hnew : new.drop c.newEnd = kept ++ newRest) (hshown : trailing old new c ≤ kept.length)
    (rest : Tiles (c.oldEnd + trailing old new c) (c.newEnd + trailing old new c)
      (groups.map (hunkOf old new)) (kept.drop (trailing old new c) ++ oldRest)
      (kept.drop (trailing old new c) ++ newRest)) :
    Continues old new c cs (kept ++ oldRest) (kept ++ newRest) := by
  have hlength : (kept.take (trailing old new c)).length = trailing old new c :=
    List.length_take_of_le hshown
  have hcontinues : Continues old new c cs _ _ := .intro [] groups
    ((kept.take (trailing old new c)).map .context) grouped
    (by rw [groupLines, List.getLastD_nil, slice_add, hnew, List.take_append_of_le_length hshown])
    (by rw [oldSide_context, hlength, List.getLastD_nil])
    (by rw [newSide_context, hlength, List.getLastD_nil])
    (by rwa [oldSide_context, newSide_context, hlength])
  rwa [oldSide_context, newSide_context, ← List.append_assoc, ← List.append_assoc,
    List.take_append_drop] at hcontinues

/-- A change that shares its hunk with the next one, with all lines between the two. -/
theorem Continues.of_shared {c next : Change α} {cs : List (Change α)} {kept oldRest newRest : List α}
    (htouch : touches old new c next) (hold : next.oldStart = c.oldEnd + kept.length)
    (hnew : next.newStart = c.newEnd + kept.length)
    (hkept : new.drop c.newEnd = kept ++ (next.inserted ++ newRest))
    (h : Continues old new next cs oldRest newRest) :
    Continues old new c (next :: cs) (kept ++ (next.deleted ++ oldRest))
      (kept ++ (next.inserted ++ newRest)) := by
  obtain @⟨old', new', others, groups, ls, grouped, lines, oldStop, newStop, rest⟩ := h
  have holdEnd : c.oldEnd + (kept ++ (next.deleted ++ oldSide ls)).length =
      next.oldEnd + (oldSide ls).length := by
    have hend : next.oldEnd = next.oldStart + next.deleted.length := rfl
    rw [List.length_append, List.length_append]
    omega
  have hnewEnd : c.newEnd + (kept ++ (next.inserted ++ newSide ls)).length =
      next.newEnd + (newSide ls).length := by
    have hend : next.newEnd = next.newStart + next.inserted.length := rfl
    rw [List.length_append, List.length_append]
    omega
  have hsides : oldSide (kept.map .context ++ (next.hunkLines ++ ls)) =
        kept ++ (next.deleted ++ oldSide ls) ∧
      newSide (kept.map .context ++ (next.hunkLines ++ ls)) =
        kept ++ (next.inserted ++ newSide ls) := by simp
  have hcontinues : Continues old new c (next :: cs) _ _ :=
    .intro (next :: others) groups (kept.map .context ++ (next.hunkLines ++ ls))
      (by rw [groupChanges, grouped]; exact if_pos htouch)
      (by
        rw [groupLines, List.getLastD_cons, List.append_assoc, lines, hnew, slice_add, hkept,
          List.take_left, List.append_assoc])
      (by rw [List.getLastD_cons, oldStop, hsides.1, holdEnd])
      (by rw [List.getLastD_cons, newStop, hsides.2, hnewEnd])
      (by rwa [hsides.1, hsides.2, holdEnd, hnewEnd])
  simpa [hsides] using hcontinues

/-- **The changes behind a change** give the rest of its hunk and the hunks behind it. -/
theorem Parts.continues {c : Change α} {cs : List (Change α)} {oldRest newRest : List α}
    (h : Parts c.oldEnd c.newEnd cs oldRest newRest) (hold : old.drop c.oldEnd = oldRest)
    (hnew : new.drop c.newEnd = newRest) : Continues old new c cs oldRest newRest := by
  induction cs generalizing c oldRest newRest with
  | nil =>
    cases h
    have hshown : trailing old new c ≤ oldRest.length := by
      rw [trailing_eq hold hnew]
      omega
    rw [← List.append_nil oldRest] at hnew ⊢
    exact Continues.of_alone rfl hnew hshown (Tiles.done _ _ _)
  | cons next cs ih =>
    cases h with
    | @change _ _ _ _ oldRest newRest kept apart oldStart newStart rest =>
      have hold' : old.drop next.oldEnd = oldRest := by
        rw [Change.oldEnd, oldStart, Nat.add_assoc, ← List.drop_drop, hold, ← List.drop_drop,
          List.drop_left, List.drop_left]
      have hnew' : new.drop next.newEnd = newRest := by
        rw [Change.newEnd, newStart, Nat.add_assoc, ← List.drop_drop, hnew, ← List.drop_drop,
          List.drop_left, List.drop_left]
      have hnext := ih rest hold' hnew'
      -- Either one hunk shows both changes and all lines between them, or the next one starts a hunk of
      -- its own behind the lines that this one shows.
      by_cases htouch : touches old new c next
      · exact hnext.of_shared htouch oldStart newStart hnew
      · obtain ⟨hshown, hreach⟩ := shown_of_not_touches htouch apart hold hnew oldStart
        have htiles := hnext.tiles oldStart newStart hnew hshown hreach
        have hgrouped : groupChanges old new (c :: next :: cs) =
            (c, []) :: groupChanges old new (next :: cs) := by
          obtain ⟨others, groups, ls, grouped⟩ := hnext
          rw [groupChanges, grouped]
          exact if_neg htouch
        exact Continues.of_alone hgrouped hnew (by omega) htiles

end Groups

/-- **The hunks of a diff** lie between its two lists. -/
theorem tiles_diff [DecidableEq α] (old new : List α) : Tiles 0 0 (diff old new) old new := by
  have hparts := (transforms_search old new).compact.parts_changes
  rw [diff, hunks]
  generalize changes (compact (search old new)) = cs at hparts
  cases hparts with
  | done => exact Tiles.done 0 0 _
  | @change _ _ c cs oldRest newRest kept apart oldStart newStart rest =>
    have hcontinues : Continues _ _ c cs oldRest newRest := rest.continues
      (by rw [Change.oldEnd, oldStart, Nat.zero_add, ← List.drop_drop, List.drop_left, List.drop_left])
      (by rw [Change.newEnd, newStart, Nat.zero_add, ← List.drop_drop, List.drop_left, List.drop_left])
    exact hcontinues.tiles oldStart newStart rfl (Nat.zero_le _) (Or.inr ⟨rfl, rfl⟩)

/-- **Applying a diff.** The hunks of a diff turn the old list into the new one. -/
theorem applyHunks_diff [DecidableEq α] (old new : List α) :
    applyHunks (diff old new) old = some new :=
  applyFrom_eq_some_iff.mpr (tiles_diff old new)

end ImportMigration.Patch
