import ImportMigration.Plan
import ImportMigration.Proofs.PatchReading

/-! # Previews

The preview of a plan has a section for each change. A section is written line by line, each line
with a line feed alone, so a carriage return at the end of a line it shows is lost. Where it shows
no such line it describes its change exactly, and nowhere else.

* `Describes`: a section whose hunks, as they are read, make the new text of a file out of the old
  one.
* `shownLines`, `EndsInReturn`: the lines a section shows, and those that lose their ends.
* `Tiles.eq_self_of_map`: hunks that are shortened line by line do not give the same result.
* `describes_filePatch_iff`, `Plan.patch_describes_iff`: which sections describe their changes. -/

namespace ImportMigration

namespace Patch

/-- A section describes the change of a file: it names the file on both sides, and its hunks turn
the text before into the text after. -/
def Describes (text path before after : String) : Prop :=
  ∃ d, FileDiff.ofText? text = some d ∧ d.oldName = "a/".toList ++ path.toList ∧
    d.newName = "b/".toList ++ path.toList ∧ d.applyTo? before = some after

/-- The lines that the diff of two texts shows, with their line feeds. -/
def shownLines (before after : String) : List (List Char) :=
  (diff (terminatedLines before.toList) (terminatedLines after.toList)).flatMap fun h =>
    h.lines.map (·.line)

/-- A line ends in a carriage return, before its line feed if it has one. -/
def EndsInReturn (l : List Char) : Prop := ['\r'] <:+ l ∨ ['\r', '\n'] <:+ l

/-! ## Lost carriage returns -/

/-- A text keeps its end unless it is a carriage return. -/
theorem withoutReturn_eq_self_iff {l : List Char} : withoutReturn l = l ↔ ¬ ['\r'] <:+ l := by
  rw [List.singleton_suffix_iff_getLast?_eq_some, withoutReturn]
  split_ifs with hreturn
  · obtain ⟨front, rfl⟩ := List.getLast?_eq_some_iff.mp hreturn
    simp
  · simp [hreturn]

/-- A line keeps its end unless a carriage return stands there. -/
theorem dropReturn_eq_self_iff {l : List Char} : dropReturn l = l ↔ ¬ EndsInReturn l := by
  rw [dropReturn, EndsInReturn, not_or]
  split_ifs with hends
  · obtain ⟨front, rfl⟩ := List.getLast?_eq_some_iff.mp (beq_iff_eq.mp hends)
    have hlast : ¬ ['\r'] <:+ front ++ ['\n'] := by
      simp [List.singleton_suffix_iff_getLast?_eq_some]
    have hpair : ['\r'] ++ ['\n'] <:+ front ++ ['\n'] ↔ ['\r'] <:+ front :=
      List.suffix_append_self_iff
    rw [List.dropLast_concat, List.append_left_inj, withoutReturn_eq_self_iff, and_iff_right hlast,
      ← hpair, List.singleton_append]
  · have hlast : ¬ ['\r', '\n'] <:+ l := by
      rintro ⟨front, rfl⟩
      simp [Text.endsWithFeed] at hends
    rw [withoutReturn_eq_self_iff, and_iff_left hlast]

/-- A text without a carriage return at its end is a part of the text. -/
theorem withoutReturn_sublist (l : List Char) : (withoutReturn l).Sublist l := by
  rw [withoutReturn]
  split_ifs
  · exact List.dropLast_sublist l
  · exact List.Sublist.refl l

/-- A line without a carriage return at its end is a part of the line. -/
theorem dropReturn_sublist (l : List Char) : (dropReturn l).Sublist l := by
  rw [dropReturn]
  split_ifs with hends
  · obtain ⟨front, rfl⟩ := List.getLast?_eq_some_iff.mp (beq_iff_eq.mp hends)
    rw [List.dropLast_concat]
    exact (withoutReturn_sublist front).append (List.Sublist.refl _)
  · exact withoutReturn_sublist l

/-- Two lists that are parts of two others make the same list only if they are these. -/
theorem eq_of_sublist_of_append_eq {α : Type} {front front' back back' : List α}
    (hfront : front'.Sublist front) (hback : back'.Sublist back)
    (h : front' ++ back' = front ++ back) : front' = front ∧ back' = back := by
  have hlength := congrArg List.length h
  rw [List.length_append, List.length_append] at hlength
  have hfront' := hfront.length_le
  have hback' := hback.length_le
  exact List.append_inj h (by omega)

section Shortened

variable {f : List Char → List Char} (hf : ∀ l, (f l).Sublist l)
include hf

/-- Lines that are shortened make a part of what they made. -/
theorem flatten_map_sublist (ls : List (List Char)) : (ls.map f).flatten.Sublist ls.flatten := by
  induction ls with
  | nil => exact List.Sublist.refl _
  | cons l ls ih => simpa using (hf l).append ih

/-- Lines that are shortened and make the same text are not shortened. -/
theorem eq_self_of_flatten_map_eq {ls : List (List Char)} (h : (ls.map f).flatten = ls.flatten) :
    ∀ l ∈ ls, f l = l := by
  induction ls with
  | nil => simp
  | cons l ls ih =>
    rw [List.map_cons, List.flatten_cons, List.flatten_cons] at h
    obtain ⟨hl, hls⟩ := eq_of_sublist_of_append_eq (hf l) (flatten_map_sublist hf ls) h
    exact List.forall_mem_cons.mpr ⟨hl, ih hls⟩

/-- Hunks with shortened lines can be applied only if their old lines are not shortened, and give
the same text only if their new lines are not either. -/
theorem Tiles.eq_self_of_map {oldAt newAt : Nat} {hs : List (Hunk (List Char))}
    {old new new' : List (List Char)} (h : Tiles oldAt newAt hs old new)
    (h' : Tiles oldAt newAt (hs.map (Hunk.map f)) old new') :
    new'.flatten.Sublist new.flatten ∧
      (new'.flatten = new.flatten → ∀ hunk ∈ hs, ∀ l ∈ hunk.lines, f l.line = l.line) := by
  induction h generalizing new' with
  | done oldAt newAt kept =>
    cases h'
    exact ⟨List.Sublist.refl _, fun _ hunk hhunk => by cases hhunk⟩
  | @hunk oldAt newAt hunk hs old new kept oldStart newStart oldLength newLength rest ih =>
    rw [List.map_cons] at h'
    generalize hall : kept ++ (oldSide hunk.lines ++ old) = all at h'
    cases h' with
    | @hunk _ _ _ _ old' new' kept' oldStart' newStart' oldLength' newLength' rest' =>
      -- Both hunks stand at one place and are as long, so they cut the old list alike.
      have hlines : (hunk.map f).lines = hunk.lines.map (HunkLine.map f) := rfl
      have hstart : (hunk.map f).oldStart = hunk.oldStart := rfl
      rw [hlines, oldSide_map] at hall
      rw [hlines, newSide_map]
      obtain ⟨rfl, hbehind⟩ := List.append_inj hall (by omega)
      obtain ⟨hold, rfl⟩ := List.append_inj hbehind (by rw [List.length_map])
      obtain ⟨hsublist, hrest⟩ := ih rest'
      have hnewSublist := flatten_map_sublist hf (newSide hunk.lines)
      simp only [List.flatten_append]
      refine ⟨(List.Sublist.refl _).append (hnewSublist.append hsublist), fun heq => ?_⟩
      -- Nothing that one part lost can come back in the other.
      obtain ⟨hnew, hnew'⟩ := eq_of_sublist_of_append_eq hnewSublist hsublist
        (List.append_cancel_left heq)
      intro g hg l hl
      rcases List.mem_cons.mp hg with rfl | hg
      · rcases mem_side_of_mem hl with hside | hside
        · exact eq_self_of_flatten_map_eq hf (congrArg List.flatten hold.symm) _ hside
        · exact eq_self_of_flatten_map_eq hf hnew _ hside
      · exact hrest hnew' g hg l hl

end Shortened

/-! ## Sections -/

/-- **Which sections describe their changes:** those of files whose paths hold no line feed that
show no line ending in a carriage return. -/
theorem describes_filePatch_iff (path before after : String) :
    Describes (filePatch path before after) path before after ↔
      '\n' ∉ path.toList ∧ ∀ l ∈ shownLines before after, ¬ EndsInReturn l := by
  have htiles := tiles_diff (terminatedLines before.toList) (terminatedLines after.toList)
  constructor
  · rintro ⟨d, hread, holdName, -, happly⟩
    have hpath : '\n' ∉ path.toList := by
      have hname := FileDiff.no_feed_oldName hread
      rw [holdName] at hname
      exact fun hmem => hname (List.mem_append_right _ hmem)
    refine ⟨hpath, fun l hl => ?_⟩
    rw [FileDiff.ofText?_filePatch hpath] at hread
    obtain rfl := Option.some.inj hread
    obtain ⟨lines, hlines, hafter⟩ := Option.map_eq_some_iff.mp happly
    -- What is read are the hunks of the diff with shortened lines. They lie in the same old lines, and
    -- the texts they give are equal, so no line was shortened.
    have hmapped := applyFrom_eq_some_iff.mp hlines
    have hflatten : lines.flatten = (terminatedLines after.toList).flatten := by
      rw [flatten_terminatedLines, ← hafter, String.toList_ofList]
    have hkept := (Tiles.eq_self_of_map dropReturn_sublist htiles hmapped).2 hflatten
    obtain ⟨hunk, hhunk, hl⟩ := List.mem_flatMap.mp hl
    obtain ⟨shown, hshown, rfl⟩ := List.mem_map.mp hl
    exact dropReturn_eq_self_iff.mp (hkept hunk hhunk shown hshown)
  · rintro ⟨hpath, hshown⟩
    refine ⟨_, FileDiff.ofText?_filePatch hpath before after, rfl, rfl, ?_⟩
    have hkept : (diff (terminatedLines before.toList) (terminatedLines after.toList)).map
        (Hunk.map dropReturn) =
        (diff (terminatedLines before.toList) (terminatedLines after.toList)).map id := by
      refine List.map_congr_left fun hunk hhunk => Hunk.map_eq_self fun l hl => ?_
      have hmem : l.line ∈ shownLines before after :=
        List.mem_flatMap.mpr ⟨hunk, hhunk, List.mem_map_of_mem hl⟩
      exact dropReturn_eq_self_iff.mpr (hshown _ hmem)
    rw [FileDiff.applyTo?, hkept, List.map_id, applyHunks_diff, Option.map_some,
      flatten_terminatedLines, String.ofList_toList]

end Patch

namespace Plan

/-- **The preview of a plan** is the sections of its changes one after the other. The section of a
change describes it if and only if the path holds no line feed and no line that the section shows
ends in a carriage return. -/
theorem patch_describes_iff (plan : Plan) :
    let sectionOf (c : PlannedFile) : String := Patch.filePatch c.path.text c.before c.after
    plan.patch = String.join (plan.changes.map sectionOf) ∧
      ∀ c ∈ plan.changes,
        (Patch.Describes (sectionOf c) c.path.text c.before c.after ↔
          '\n' ∉ c.path.text.toList ∧
            ∀ l ∈ Patch.shownLines c.before c.after, ¬ Patch.EndsInReturn l) :=
  ⟨rfl, fun c _ => Patch.describes_filePatch_iff c.path.text c.before c.after⟩

/-- A change of a file with carriage returns before its line feeds is not described. -/
theorem patch_loses_return :
    ¬ Patch.Describes
      (Plan.patch ⟨1, [⟨⟨"src/A.kt"⟩, "import com.old.Test\r\n", "import com.new.Test\r\n", 1, 1⟩]⟩)
      "src/A.kt" "import com.old.Test\r\n" "import com.new.Test\r\n" := by
  intro h
  have hsection : Plan.patch
      ⟨1, [⟨⟨"src/A.kt"⟩, "import com.old.Test\r\n", "import com.new.Test\r\n", 1, 1⟩]⟩ =
      Patch.filePatch "src/A.kt" "import com.old.Test\r\n" "import com.new.Test\r\n" := by
    simp [Plan.patch, String.join]
  rw [hsection, Patch.describes_filePatch_iff] at h
  -- The new line is not among the old ones, so the section shows it.
  refine h.2 "import com.new.Test\r\n".toList ?_ (Or.inr ?_)
  · refine Patch.Tiles.shown_of_not_mem (Patch.tiles_diff _ _) ?_ ?_
    · decide +kernel
    · decide +kernel
  · exact ⟨"import com.new.Test".toList, by decide +kernel⟩

end Plan

end ImportMigration
