import ImportMigration.Proofs.DirectiveTable
import ImportMigration.Proofs.TreeWrites

/-! # Plans file by file

A plan is what the files of its list give one by one, and carrying it out writes to the files that
were read.

* `Tree.planFile_eq_ok_iff`: when a file is planned, and as what.
* `Tree.planFiles_eq_ok_iff`: a list is planned when each of its files is.
* `Tree.writes_of_planFiles`: the writes of a plan, file by file.
* `Tree.locate?_of_target?_planned`: a change is written where its file was read.
* `Tree.exists_of_node?_writes_ne`: what carrying a plan out changes.
* `Tree.target?_resolve_withoutRoot`: the path that a file is shown by leads to the file. -/

namespace ImportMigration

/-- The change that a revision makes to a file with this text. -/
def PlannedFile.ofRevision (repoRoot file : Path) (before : String) (revised : Revision String) :
    PlannedFile :=
  { path := repoRoot.withoutRoot (repoRoot.resolve file), before, after := revised.content,
    importsBefore := revised.importsBefore, importsAfter := revised.importsAfter }

/-- The path of the copy of a changed file, if backups are made. -/
def PlannedFile.backup? (repoRoot : Path) (backupSuffix : Option String) (c : PlannedFile) :
    Option Path :=
  backupSuffix.map (repoRoot.resolve c.path).append

/-- The writes for a changed file, its copy first. -/
theorem PlannedFile.writes_eq (repoRoot : Path) (backupSuffix : Option String) (c : PlannedFile) :
    c.writes repoRoot backupSuffix =
      (c.backup? repoRoot backupSuffix).toList.map (⟨·, c.before⟩) ++
        [⟨repoRoot.resolve c.path, c.after⟩] := by
  cases backupSuffix <;> rfl

/-- A write for a changed file is that of its copy or that of the file. -/
theorem PlannedFile.mem_writes {repoRoot : Path} {backupSuffix : Option String} {c : PlannedFile}
    {w : FileWrite} :
    w ∈ c.writes repoRoot backupSuffix ↔
      (∃ b ∈ c.backup? repoRoot backupSuffix, w = ⟨b, c.before⟩) ∨
        w = ⟨repoRoot.resolve c.path, c.after⟩ := by
  rw [writes_eq, List.mem_append, List.mem_singleton, List.mem_map]
  simp only [Option.mem_toList, Option.mem_def, @eq_comm _ w]

namespace Tree

section Files

variable {t : Tree} {root : Path} {table : DirectiveTable}

/-- **When a file is planned:** it is read and its imports are, and it changes as it is revised. -/
theorem planFile_eq_ok_iff {file : Path} {change : Option PlannedFile} :
    t.planFile root table file = .ok change ↔
      ∃ before revised, t.readText? (root.resolve file) = some before ∧
        table.reviseText before = .ok revised ∧
        change = revised.map (.ofRevision root file before) := by
  rw [planFile, planAt]
  generalize t.readText? (root.resolve file) = read
  cases read with
  | none => simp
  | some before =>
    cases hrevise : table.reviseText before with
    | error fault => simp [hrevise]
    | ok revised => cases revised <;> simp [hrevise, PlannedFile.ofRevision, eq_comm]

/-- A change starts from the text of its file and shows the file without the root. -/
theorem of_planFile_eq_some {file : Path} {c : PlannedFile}
    (h : t.planFile root table file = .ok (some c)) :
    t.readText? (root.resolve file) = some c.before ∧
      c.path = root.withoutRoot (root.resolve file) := by
  obtain ⟨before, revised, hread, -, hchange⟩ := planFile_eq_ok_iff.mp h
  obtain ⟨out, -, rfl⟩ := Option.map_eq_some_iff.mp hchange.symm
  exact ⟨hread, rfl⟩

/-- The change of a file that is planned and changes. -/
def change? (t : Tree) (root : Path) (table : DirectiveTable) (file : Path) : Option PlannedFile :=
  (t.planFile root table file).toOption.join

/-- The change of a file that is planned. -/
theorem change?_of_planFile {file : Path} {change : Option PlannedFile}
    (h : t.planFile root table file = .ok change) : t.change? root table file = change := by
  rw [change?, h]
  rfl

end Files

end Tree

/-- A list of files is planned when each of them is, and its changes are theirs in order. -/
theorem Plan.ofFiles_eq_ok_iff {planFile : Path → Except MigrationError (Option PlannedFile)}
    {files : List Path} {plan : Plan} :
    Plan.ofFiles planFile files = .ok plan ↔
      (∀ f ∈ files, ∃ change, planFile f = .ok change) ∧
        plan = ⟨files.length, files.filterMap fun f => (planFile f).toOption.join⟩ := by
  induction files generalizing plan with
  | nil => simp [ofFiles, eq_comm]
  | cons file rest ih =>
    rw [ofFiles]
    cases hfile : planFile file with
    | error fault => simp [hfile]
    | ok change =>
      cases hrest : ofFiles planFile rest with
      | error fault =>
        -- The rest would be planned if all its files were.
        constructor
        · intro h
          cases h
        · rintro ⟨hall, -⟩
          have hok := ih.mpr ⟨fun f hf => hall f (List.mem_cons_of_mem file hf), rfl⟩
          rw [hrest] at hok
          cases hok
      | ok planned =>
        obtain ⟨hall, rfl⟩ := ih.mp hrest
        have hchanges : (file :: rest).filterMap (fun f => (planFile f).toOption.join) =
            change.toList ++ rest.filterMap fun f => (planFile f).toOption.join := by
          rw [List.filterMap_cons, hfile]
          cases change <;> rfl
        simp only [Except.ok.injEq, hchanges, List.length_cons, List.mem_cons, forall_eq_or_imp,
          hfile, exists_eq', true_and]
        constructor
        · rintro rfl
          exact ⟨hall, rfl⟩
        · rintro ⟨-, rfl⟩
          rfl

namespace Tree

section Files

variable {t : Tree} {root : Path} {table : DirectiveTable} {backups : Option String} {plan : Plan}

/-- **A list of files is planned when each of them is**, and its changes are theirs in order. -/
theorem planFiles_eq_ok_iff {files : List Path} :
    t.planFiles root table files = .ok plan ↔
      (∀ f ∈ files, ∃ change, t.planFile root table f = .ok change) ∧
        plan = ⟨files.length, files.filterMap (t.change? root table)⟩ :=
  Plan.ofFiles_eq_ok_iff

/-- A change of a plan is that of one of its files. -/
theorem exists_of_mem_changes {files : List Path}
    (h : t.planFiles root table files = .ok plan) {c : PlannedFile} (hc : c ∈ plan.changes) :
    ∃ f ∈ files, t.planFile root table f = .ok (some c) := by
  obtain ⟨hall, rfl⟩ := planFiles_eq_ok_iff.mp h
  obtain ⟨f, hf, hchange⟩ := List.mem_filterMap.mp hc
  obtain ⟨change, hfile⟩ := hall f hf
  rw [change?_of_planFile hfile] at hchange
  exact ⟨f, hf, hchange ▸ hfile⟩

/-- A file of a list that is planned can be read. -/
theorem exists_readText?_of_planFiles {files : List Path}
    (h : t.planFiles root table files = .ok plan) {f : Path} (hf : f ∈ files) :
    ∃ old l, t.readText? (root.resolve f) = some old ∧ t.locate? (root.resolve f) = some l := by
  obtain ⟨change, hplanned⟩ := (planFiles_eq_ok_iff.mp h).1 f hf
  obtain ⟨old, -, hold, -, -⟩ := planFile_eq_ok_iff.mp hplanned
  obtain ⟨l, hl, -⟩ := readText?_eq_some_iff.mp hold
  exact ⟨old, l, hold, hl⟩

/-- A change of a plan is the revision of the text it starts from. -/
theorem exists_revision_of_mem_changes {files : List Path}
    (h : t.planFiles root table files = .ok plan) {c : PlannedFile} (hc : c ∈ plan.changes) :
    ∃ revised, table.reviseText c.before = .ok (some revised) ∧ c.after = revised.content := by
  obtain ⟨f, -, hplanned⟩ := exists_of_mem_changes h hc
  obtain ⟨before, revision, -, hrevise, hchange⟩ := planFile_eq_ok_iff.mp hplanned
  obtain ⟨revised, rfl, rfl⟩ := Option.map_eq_some_iff.mp hchange.symm
  exact ⟨revised, hrevise, rfl⟩

/-- The writes for a file of a plan. -/
def writesFor (t : Tree) (root : Path) (table : DirectiveTable) (backups : Option String)
    (file : Path) : List FileWrite :=
  (t.change? root table file).toList.flatMap (·.writes root backups)

/-- **The writes of a plan** are those for its files, in order. -/
theorem writes_of_planFiles {files : List Path}
    (h : t.planFiles root table files = .ok plan) (backups : Option String) :
    plan.writes root backups = files.flatMap (t.writesFor root table backups) := by
  obtain ⟨-, rfl⟩ := planFiles_eq_ok_iff.mp h
  rw [Plan.writes]
  clear h
  induction files with
  | nil => rfl
  | cons file rest ih =>
    rw [List.flatMap_cons, ← ih, List.filterMap_cons, writesFor]
    cases t.change? root table file <;> simp

/-- **A change is written where its file was read.** The path that a plan shows leads from the root
to the place of the file. -/
theorem locate?_of_target?_planned {f : Path} {c : PlannedFile} {l : Location}
    (hc : t.planFile root table f = .ok (some c))
    (hl : t.target? (root.resolve c.path) = some l) : t.locate? (root.resolve f) = some l := by
  obtain ⟨before, revised, hread, -, hchange⟩ := planFile_eq_ok_iff.mp hc
  obtain ⟨out, -, rfl⟩ := Option.map_eq_some_iff.mp hchange.symm
  obtain ⟨place, hplace, -⟩ := readText?_eq_some_iff.mp hread
  obtain ⟨habs, hsteps⟩ := Path.resolve_withoutRoot root f
  rw [locate?_unique habs hsteps (target?_eq_some_iff.mp hl).1 hplace]
  exact hplace

/-! ## Carrying a plan out -/

/-- Carrying a plan out leaves the tree that its writes leave. -/
theorem applyPlan_fst (t : Tree) (root : Path) (backups : Option String) (plan : Plan) :
    (t.applyPlan root false backups plan).1 = (t.perform (plan.writes root backups)).1 := by
  rw [applyPlan, if_neg Bool.false_ne_true]
  split <;> rename_i hperform <;> rw [hperform]

/-- A plan is carried out to its end when each of its writes can be carried out. -/
theorem applyPlan_eq_ok_iff {results : List FileResult} :
    (t.applyPlan root false backups plan).2 = .ok results ↔
      (∀ w ∈ plan.writes root backups, t.accepts w = true) ∧
        results = plan.changes.map (·.writtenResult backups) := by
  rw [← perform_eq_none_iff, applyPlan, if_neg Bool.false_ne_true]
  split <;> rename_i hperform <;> simp [hperform, eq_comm]

/-- **What carrying a plan out changes** is the place of a planned file or of its copy. -/
theorem exists_of_node?_writes_ne {l : Location}
    (h : (t.perform (plan.writes root backups)).1.node? l ≠ t.node? l) :
    ∃ c ∈ plan.changes, t.target? (root.resolve c.path) = some l ∨
      ∃ b ∈ c.backup? root backups, t.target? b = some l := by
  obtain ⟨w, hw, htarget⟩ := exists_target?_of_node?_perform_ne h
  obtain ⟨c, hc, hmem⟩ := List.mem_flatMap.mp hw
  refine ⟨c, hc, ?_⟩
  rcases PlannedFile.mem_writes.mp hmem with ⟨b, hb, rfl⟩ | rfl
  · exact Or.inr ⟨b, hb, htarget⟩
  · exact Or.inl htarget

/-! ## The path of a change -/

/-- A path to a file that is shown without the root leads from the root to the file, unless it is
the root itself. -/
theorem target?_resolve_withoutRoot {f : Path} {text : String}
    (hread : t.readText? (root.resolve f) = some text)
    (hne : root.same (root.resolve f) = false)
    (huse : (root.resolve (root.withoutRoot (root.resolve f))).isUsable = true) :
    t.target? (root.resolve (root.withoutRoot (root.resolve f))) =
      t.locate? (root.resolve f) := by
  obtain ⟨l, hl, hnode⟩ := readText?_eq_some_iff.mp hread
  have hdir : t.isDirAt l = false := by simp [isDirAt, hnode]
  rw [hl, target?_eq_some_iff]
  refine ⟨?_, hdir⟩
  cases hrel : (root.resolve f).relativeTo? root with
  | none =>
    have habs := Path.isAbsolute_of_relativeTo?_eq_none hrel
    rw [Path.withoutRoot, hrel, Option.getD_none, Path.resolve, if_pos habs]
    exact hl
  | some r =>
    obtain ⟨habs, hsteps⟩ := Path.resolve_withoutRoot root f
    obtain ⟨-, hfollow, -⟩ := locate?_eq_some_iff.mp hl
    refine locate?_eq_some_iff.mpr ⟨huse, ?_, fun hlast => ?_⟩
    · rw [startOf, habs, hsteps]
      exact hfollow
    · -- What is left below the root ends with a step, which asks for no directory.
      have hleft := Path.getLast?_pieces_of_relativeTo? hrel
        (Path.steps_ne_nil_of_relativeTo? hrel (steps_ne_nil_of_locate? hl hdir) hne)
      have hend : (root.resolve r).pieces.getLast? = r.pieces.getLast? := by
        rw [Path.resolve]
        split_ifs with hr
        · rfl
        · exact Path.getLast?_pieces_join root (by simpa using hr)
      rw [Path.withoutRoot, hrel, Option.getD_some, hend, hleft] at hlast
      cases hlast

end Files

end Tree

end ImportMigration
