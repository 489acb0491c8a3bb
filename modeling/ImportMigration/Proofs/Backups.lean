import ImportMigration.Proofs.Runs
import ImportMigration.Proofs.WrittenPaths

/-! # Backups

A run that keeps backups copies every file before it writes it. A copy is the original to the end of
the run unless a later write goes to its place, and such a write may come from the same run: the
name of a copy may be that of another source file.

* `Path.resolve_append`: the path of a copy, seen from the root.
* `Tree.OriginalsApart`: no file and no different original goes to the place of a copy.
* `Tree.backup_holds_original_iff`: when the copy that a run reports holds the original.
* `Tree.backup_overwritten`: a run that reports a copy and overwrites it. -/

namespace ImportMigration

/-- What is appended to a path other than the empty one is appended to it below a root. -/
theorem Path.resolve_append (root : Path) {p : Path} (hp : p.text ≠ "") (suffix : String) :
    (root.resolve p).append suffix = root.resolve ⟨p.text ++ suffix⟩ := by
  have habs : (⟨p.text ++ suffix⟩ : Path).isAbsolute = p.isAbsolute := by
    have hchars : p.text.toList ≠ [] := by simpa using hp
    rw [isAbsolute, isAbsolute, String.toList_append, List.head?_append_of_ne_nil _ hchars]
  simp only [resolve, join, habs]
  split_ifs <;> simp only [append, String.append_assoc]

/-- The writes for a changed file with a copy. -/
theorem PlannedFile.mem_writes_iff {root : Path} {suffix : String} {c : PlannedFile}
    {w : FileWrite} :
    w ∈ c.writes root (some suffix) ↔
      w = ⟨(root.resolve c.path).append suffix, c.before⟩ ∨ w = ⟨root.resolve c.path, c.after⟩ := by
  simp [mem_writes, backup?]

namespace Tree

/-- The empty path denotes no file below a root: it ends where the root does, in a directory. -/
theorem readText?_resolve_empty (t : Tree) (root : Path) :
    t.readText? (root.resolve ⟨""⟩) = none := by
  rw [Option.eq_none_iff_forall_ne_some]
  intro value hread
  obtain ⟨l, hl, hnode⟩ := readText?_eq_some_iff.mp hread
  obtain ⟨-, -, hdir⟩ := locate?_eq_some_iff.mp hl
  have hlast : (root.resolve ⟨""⟩).pieces.getLast? = some "" :=
    Path.getLast?_pieces_join root rfl
  have hisDir := hdir (by simp [hlast, Path.isIdle])
  simp [isDirAt, hnode] at hisDir

section Plan

variable {t : Tree} {root : Path} {table : DirectiveTable} {files : List Path} {plan : Plan}
  {suffix : String}

/-- Whether no file of a plan goes to the place of a copy, and none but equal originals go to one
place. -/
structure OriginalsApart (t : Tree) (root : Path) (suffix : String) (plan : Plan) : Prop where
  /-- No file goes to the place of a copy. -/
  files : ∀ c ∈ plan.changes, ∀ d ∈ plan.changes,
    t.locate? ((root.resolve c.path).append suffix) ≠ t.locate? (root.resolve d.path)
  /-- Originals that go to one place are equal. -/
  copies : ∀ c ∈ plan.changes, ∀ d ∈ plan.changes,
    t.locate? ((root.resolve c.path).append suffix) =
      t.locate? ((root.resolve d.path).append suffix) → c.before = d.before

/-- Something goes to the place of a copy, if only the copy itself. -/
theorem exists_leftBy_copy {c : PlannedFile} (hc : c ∈ plan.changes) {l : Location}
    (hl : t.target? ((root.resolve c.path).append suffix) = some l) :
    ∃ text, t.leftBy (plan.writes root (some suffix)) l = some text := by
  have hcopy : ⟨(root.resolve c.path).append suffix, c.before⟩ ∈ plan.writes root (some suffix) :=
    List.mem_flatMap.mpr ⟨c, hc, PlannedFile.mem_writes_iff.mpr (Or.inl rfl)⟩
  exact exists_leftBy_of_mem hcopy hl

/-- Where originals lie apart, the last text at the place of a copy is the original. -/
theorem OriginalsApart.leftBy (h : t.OriginalsApart root suffix plan) {c : PlannedFile}
    (hc : c ∈ plan.changes) {l : Location}
    (hl : t.target? ((root.resolve c.path).append suffix) = some l) :
    t.leftBy (plan.writes root (some suffix)) l = some c.before := by
  have hlocate := (target?_eq_some_iff.mp hl).1
  obtain ⟨text, hleft⟩ := exists_leftBy_copy hc hl
  obtain ⟨w, hw, htarget, rfl⟩ := exists_of_leftBy_eq_some hleft
  obtain ⟨d, hd, hmem⟩ := List.mem_flatMap.mp hw
  have hplace := (target?_eq_some_iff.mp htarget).1
  -- The last write there is a copy, of the same text, or a file.
  rcases PlannedFile.mem_writes_iff.mp hmem with rfl | rfl
  · rw [hleft, h.copies d hd c hc (hplace.trans hlocate.symm)]
  · exact absurd (hlocate.trans hplace.symm) (h.files c hc d hd)

/-- **What stands at a copy after the writes of a plan**: the last text that goes to its place. -/
theorem readText?_copy (hall : ∀ w ∈ plan.writes root (some suffix), t.accepts w = true)
    {c : PlannedFile} (hc : c ∈ plan.changes) {l : Location}
    (hl : t.target? ((root.resolve c.path).append suffix) = some l) :
    (t.perform (plan.writes root (some suffix))).1.readText? ((root.resolve c.path).append suffix) =
      t.leftBy (plan.writes root (some suffix)) l := by
  obtain ⟨text, hleft⟩ := exists_leftBy_copy hc hl
  rw [readText?_perform (target?_eq_some_iff.mp hl).1, List.takeWhile_eq_self_iff.mpr hall, hleft,
    Option.some_or]

end Plan

/-- **When the copies that a run reports hold the originals.** Every file that a run with backups
reports was written and had a text before, and its copy goes to where the reported path leads from
the root. At the end the copy is the original exactly if the last text that the run wrote to that
place is the original; where originals lie apart, it always is. -/
theorem backup_holds_original_iff {t t' : Tree} {settings : Settings} {inputs : RunInputs}
    {tool : ToolInfo} {run : RunInfo} {outcome : MigrationOutcome} (hdry : settings.dryRun = false)
    (hbackup : settings.backupEnabled = true)
    (h : t.migrateFrom settings inputs tool run = (t', .ok outcome)) :
    let root := settings.repoRoot
    let suffix := settings.backupSuffix
    ∀ r ∈ outcome.report.files, ∃ b original place,
      r.status = .written ∧ r.backupPath = some b ∧
        t.readText? (root.resolve ⟨r.path⟩) = some original ∧
        t.locate? (root.resolve ⟨b⟩) = some place ∧
        (t'.readText? (root.resolve ⟨b⟩) = some original ↔
          t.leftBy (outcome.plan.writes root (some suffix)) place = some original) ∧
        (t.OriginalsApart root suffix outcome.plan →
          t'.readText? (root.resolve ⟨b⟩) = some original) := by
  intro root suffix r hr
  obtain ⟨merged, plan, results, hrun, happly, rfl⟩ := migrateFrom_eq_ok_iff.mp h
  obtain ⟨-, files, -, hplan⟩ := planRun_eq_ok_iff.mp hrun
  have hbackups : settings.backups = some suffix := if_pos hbackup
  rw [hdry, hbackups] at happly
  have htree : t' = (t.perform (plan.writes root (some suffix))).1 := by
    rw [← applyPlan_fst, happly]
  obtain ⟨hall, hresults⟩ := applyPlan_eq_ok_iff.mp (congrArg Prod.snd happly)
  -- The files that are reported are the changes of the plan.
  have hmem : r ∈ results := hr
  rw [hresults] at hmem
  obtain ⟨c, hc, rfl⟩ := List.mem_map.mp hmem
  have hwrites : ∀ w ∈ c.writes root (some suffix), t.accepts w = true := fun w hw =>
    hall w (List.mem_flatMap.mpr ⟨c, hc, hw⟩)
  have hread := readText?_of_mem_changes hplan hc
    (hwrites _ (PlannedFile.mem_writes_iff.mpr (Or.inr rfl)))
  -- A file has a name, so the suffix is appended to the path below the root and not to the root.
  have hpath : c.path.text ≠ "" := by
    intro hempty
    have hnone := t.readText?_resolve_empty root
    rw [← hempty] at hnone
    exact Option.some_ne_none _ (hread.symm.trans hnone)
  obtain ⟨place, hplace⟩ := Option.isSome_iff_exists.mp
    (hwrites _ (PlannedFile.mem_writes_iff.mpr (Or.inl rfl)))
  refine ⟨c.path.text ++ suffix, c.before, place, rfl, rfl, hread, ?_⟩
  rw [← Path.resolve_append root hpath, htree, readText?_copy hall hc hplace]
  exact ⟨(target?_eq_some_iff.mp hplace).1, Iff.rfl, fun hapart => hapart.leftBy hc hplace⟩

/-- Two source files, the second named like a copy of the first. -/
def twinSources : Tree where
  nodes := [(["src"], .directory), (["src", "A.kt"], .file (.text "import com.old.Test\n")),
    (["src", "A.kt.orig.kt"], .file (.text "import com.old.Test as T\n"))]
  workingDirectory := []

/-- Settings of a run that writes and keeps backups. -/
def keepingBackups (suffix : String) : Settings :=
  { dryRun := false, backupEnabled := true, backupSuffix := suffix }

/-- A run on the two files where a class moves. -/
def twinRun (suffix : String) : Tree × Except MigrationError MigrationOutcome :=
  twinSources.migrateFrom (keepingBackups suffix)
    { blocks := .ok [⟨"a", "MOVE com.old.Test -> com.new.Test"⟩]
      files := .ok [⟨"src/A.kt"⟩, ⟨"src/A.kt.orig.kt"⟩] }
    ⟨"pkgmove", none⟩ ⟨⟨2024, 1, 1, 0, 0, 0, 0⟩, none⟩

/-- The plan of such a run. -/
def twinPlan : Plan where
  filesScanned := 2
  changes :=
    [⟨⟨"src/A.kt"⟩, "import com.old.Test\n", "import com.new.Test\n", 1, 1⟩,
      ⟨⟨"src/A.kt.orig.kt"⟩, "import com.old.Test as T\n", "import com.new.Test as T\n", 1, 1⟩]

/-- With a suffix of their own the copies keep both originals. -/
theorem backup_holds_original_iff_own_suffix :
    ∃ outcome : MigrationOutcome, (twinRun ".bak").2 = .ok outcome ∧
      outcome.report.files = twinPlan.changes.map (·.writtenResult (some ".bak")) ∧
      twinSources.OriginalsApart ⟨"."⟩ ".bak" outcome.plan ∧
      ∀ r ∈ outcome.report.files, ∃ b original, r.backupPath = some b ∧
        twinSources.readText? (Path.resolve ⟨"."⟩ ⟨r.path⟩) = some original ∧
        (twinRun ".bak").1.readText? (Path.resolve ⟨"."⟩ ⟨b⟩) = some original := by
  have hrun : (twinRun ".bak").2.toOption.map (fun o => (o.report.files, o.plan)) =
      some (twinPlan.changes.map (·.writtenResult (some ".bak")), twinPlan) := by
    decide +kernel
  cases hresult : (twinRun ".bak").2 with
  | error fault => simp [hresult, Except.toOption] at hrun
  | ok outcome =>
    rw [hresult] at hrun
    obtain ⟨hfiles, hplan⟩ := Prod.mk.inj (Option.some.inj hrun)
    have hapart : twinSources.OriginalsApart ⟨"."⟩ ".bak" outcome.plan := by
      rw [hplan]
      exact ⟨by decide +kernel, by decide +kernel⟩
    have hdry : (keepingBackups ".bak").dryRun = false := rfl
    have hmigrate : twinRun ".bak" = ((twinRun ".bak").1, .ok outcome) := by rw [← hresult]
    refine ⟨outcome, rfl, hfiles, hapart, fun r hr => ?_⟩
    obtain ⟨b, original, -, -, hb, horiginal, -, -, hkept⟩ :=
      backup_holds_original_iff hdry rfl hmigrate r hr
    exact ⟨b, original, hb, horiginal, hkept hapart⟩

/-- **A run that loses an original.** The copy of the first file is the second file, which the run
then writes itself. It succeeds and reports the copy, which does not hold the original. -/
theorem backup_overwritten :
    (twinRun ".orig.kt").2.toOption.map (·.report.files) =
        some [⟨"src/A.kt", .written, 1, 1, some "src/A.kt.orig.kt"⟩,
          ⟨"src/A.kt.orig.kt", .written, 1, 1, some "src/A.kt.orig.kt.orig.kt"⟩] ∧
      twinSources.readText? (Path.resolve ⟨"."⟩ ⟨"src/A.kt"⟩) = some "import com.old.Test\n" ∧
      (twinRun ".orig.kt").1.readText? (Path.resolve ⟨"."⟩ ⟨"src/A.kt.orig.kt"⟩) =
        some "import com.new.Test as T\n" := by
  decide +kernel

end Tree

end ImportMigration
