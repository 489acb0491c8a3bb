import ImportMigration.Proofs.Backups
import ImportMigration.Proofs.DirectiveLayers
import ImportMigration.Proofs.Recovery
import ImportMigration.Proofs.TableEdits
import Mathlib.Algebra.GroupWithZero.Nat

/-! # Runs and their reports

A run that succeeds does to the tree what its plan says and reports it. Whether it is a dry run
decides on the writes and on how they are reported, and on nothing else.

A planned file is a copy if the path of the copy leads where its own does (`Tree.BackupsApart`),
however the two are spelled. Between paths that never go up it is enough to compare the paths
themselves (`Plan.PathsApart`).

* `Report.Accounts`: what a report says of a plan and of the directives it rests on.
* `of_mergeBlocks`: the merged blocks are counted as they are read, and the table has no more keys
  than they have directives.
* `Tree.Applied`, `Tree.applied_of_applyPlan`: what carrying a plan out does to a tree.
* `Tree.migrateFrom_follows_plan`: writes and report of every run that succeeds. -/

namespace ImportMigration

/-! ## What a report says -/

/-- Whether a summary is that of a block. -/
def BlockSummary.Counts (s : BlockSummary) (b : DirectiveBlock) : Prop :=
  s.origin = b.origin ∧ ∃ directives, b.parse = .ok directives ∧ s.directives = directives.length

/-- Whether a report accounts for a plan over some files, with the table of some blocks. -/
structure Report.Accounts (r : Report) (plan : Plan) (scanned : List Path)
    (blocks : List DirectiveBlock) (table : DirectiveTable) : Prop where
  /-- The files are those of the plan, in its order and with their numbers of imports. -/
  changes : r.files.map (fun f => (f.path, f.importsBefore, f.importsAfter)) =
    plan.changes.map fun c => (c.path.text, c.importsBefore, c.importsAfter)
  /-- The files that change are counted. -/
  filesChanged : r.summary.filesChanged = plan.changes.length
  /-- The files that were read are counted. -/
  filesScanned : r.summary.filesScanned = scanned.length
  /-- Only files that were read change. -/
  changed_le : r.summary.filesChanged ≤ r.summary.filesScanned
  /-- The blocks are listed in merge order with the numbers of their directives. -/
  sources : List.Forall₂ BlockSummary.Counts r.sources blocks
  /-- The keys of the table are counted. -/
  directives : r.summary.directives = table.size
  /-- Every key comes from a directive of a block. -/
  directives_le : r.summary.directives ≤ (r.sources.map (·.directives)).sum

/-- The number of directives of blocks. -/
theorem length_labelled (directives : DirectiveBlock → List Directive)
    (blocks : List DirectiveBlock) :
    (labelled directives blocks).length = (blocks.map fun b => (directives b).length).sum := by
  simp [labelled, List.length_flatMap]

/-- **What merging gives:** the table of the blocks, and a summary of each, the table having at most
as many keys as the summaries count directives. -/
theorem of_mergeBlocks {blocks : List DirectiveBlock} {merged : MergedDirectives}
    (h : mergeBlocks .empty blocks = .ok merged) :
    DirectiveTable.ofBlocks blocks = .ok merged.table ∧
      List.Forall₂ BlockSummary.Counts merged.sources blocks ∧
      merged.table.size ≤ (merged.sources.map (·.directives)).sum := by
  have hparse : ∀ b ∈ blocks, b.parse = .ok (textDirectives b.text) := fun b hb =>
    (parse_of_mergeBlocks h b hb).parse
  rw [mergeBlocks_eq hparse] at h
  obtain rfl := Except.ok.inj h
  refine ⟨DirectiveTable.mergeAll_eq hparse .empty, ?_, ?_⟩
  · rw [List.forall₂_map_left_iff, List.forall₂_same]
    intro b hb
    exact ⟨rfl, _, hparse b hb, rfl⟩
  · have hsize := DirectiveTable.size_insertEntries_le .empty
      (labelled (fun b => textDirectives b.text) blocks)
    rw [length_labelled] at hsize
    simpa [DirectiveTable.empty, DirectiveTable.size, Function.comp_def] using hsize

namespace Tree

section Applied

variable {t t' : Tree} {root : Path} {table : DirectiveTable} {files : List Path} {plan : Plan}
  {backups : Option String}

/-! ## Carrying a plan out -/

/-- What a run that writes does to a tree. -/
structure Applied (t t' : Tree) (root : Path) (backups : Option String) (plan : Plan) : Prop where
  /-- The directories stay, so every path leads where it led. -/
  dirs : t.SameDirs t'
  /-- What changes is the place of a planned file or of its copy. -/
  changed : ∀ l, t'.node? l ≠ t.node? l → ∃ c ∈ plan.changes,
    t.locate? (root.resolve c.path) = some l ∨
      ∃ b ∈ c.backup? root backups, t.locate? b = some l
  /-- If no planned file is a copy, each of them ends with its new text. -/
  planned : t.BackupsApart root backups plan (plan.changes.map (·.path)) ∨
      plan.PathsApart backups →
    ∀ c ∈ plan.changes, t'.readText? (root.resolve c.path) = some c.after

/-- **What carrying a plan out does to a tree.** -/
theorem applied_of_applyPlan (hplan : t.planFiles root table files = .ok plan)
    {results : List FileResult}
    (happly : t.applyPlan root false backups plan = (t', .ok results)) :
    t.Applied t' root backups plan := by
  obtain ⟨hall, -⟩ := applyPlan_eq_ok_iff.mp (congrArg Prod.snd happly)
  have htree : t' = (t.perform (plan.writes root backups)).1 := by
    rw [← applyPlan_fst, happly]
  subst htree
  refine ⟨sameDirs_perform t _, fun l hl => ?_, ?_⟩
  · obtain ⟨c, hc, hplace⟩ := exists_of_node?_writes_ne hl
    refine ⟨c, hc, hplace.imp (fun hfile => (target?_eq_some_iff.mp hfile).1) ?_⟩
    rintro ⟨b, hb, hcopy⟩
    exact ⟨b, hb, (target?_eq_some_iff.mp hcopy).1⟩
  · intro hapart c hc
    have hplaces := hapart.elim id (backupsApart_of_pathsApart hall)
    refine readText?_planned hplan hall hc fun d hd b hb p hp => ?_
    obtain rfl := List.mem_singleton.mp hp
    exact hplaces d hd b hb c.path (List.mem_map_of_mem hc)

end Applied

/-! ## Whole runs -/

section Runs

variable {t t' : Tree} {settings : Settings} {inputs : RunInputs} {tool : ToolInfo} {run : RunInfo}

/-- The results of a plan that was carried out, or is only shown, in its order. -/
theorem map_of_applyPlan {root : Path} {dryRun : Bool} {backups : Option String} {plan : Plan}
    {results : List FileResult} (h : t.applyPlan root dryRun backups plan = (t', .ok results)) :
    results.map (fun f => (f.path, f.importsBefore, f.importsAfter)) =
      plan.changes.map fun c => (c.path.text, c.importsBefore, c.importsAfter) := by
  cases dryRun with
  | true =>
    obtain rfl := Except.ok.inj (congrArg Prod.snd h)
    rw [List.map_map]
    rfl
  | false =>
    obtain ⟨-, rfl⟩ := applyPlan_eq_ok_iff.mp (congrArg Prod.snd h)
    rw [List.map_map]
    rfl

/-- A dry run on inputs that have a plan leaves the tree and shows that plan. -/
theorem migrateFrom_dryRun {merged : MergedDirectives} {plan : Plan}
    (h : t.planRun settings inputs = .ok (merged, plan)) (tool : ToolInfo) (run : RunInfo) :
    ∃ preview, t.migrateFrom { settings with dryRun := true } inputs tool run = (t, .ok preview) ∧
      preview.plan = plan ∧ preview.patch = plan.patch :=
  ⟨_, migrateFrom_eq_ok_iff.mpr ⟨merged, plan, _, h, rfl, rfl⟩, rfl, rfl⟩

/-- **Writes and report agree with the plan.** A run that succeeds has merged its blocks, the
settings' own text last unless it is blank, into a table by which its files are planned; its patch
is that of the plan and its report accounts for all of these. A dry run leaves the tree as it is and
reports every file as pending and without a copy. A run that writes changes nothing but the planned
files and their copies and reports every file as written, and each planned file ends with its new
text unless some planned file is a copy. The dry run on the same inputs has the same plan and the
same patch. -/
theorem migrateFrom_follows_plan {outcome : MigrationOutcome}
    (h : t.migrateFrom settings inputs tool run = (t', .ok outcome)) :
    (settings.additionalBlock =
      if settings.additional.toList.all Text.isBlank then []
      else [⟨"<additional>", settings.additional⟩]) ∧
    (∃ files loaded table, inputs.files = .ok files ∧ inputs.blocks = .ok loaded ∧
      DirectiveTable.ofBlocks (loaded ++ settings.additionalBlock) = .ok table ∧
      t.planFiles settings.repoRoot table files = .ok outcome.plan ∧
      outcome.patch = outcome.plan.patch ∧
      outcome.report.Accounts outcome.plan files (loaded ++ settings.additionalBlock) table) ∧
    (settings.dryRun = true → t' = t ∧ outcome.report.summary.filesWritten = 0 ∧
      ∀ r ∈ outcome.report.files, r.status = .pending ∧ r.backupPath = none) ∧
    (settings.dryRun = false →
      t.Applied t' settings.repoRoot settings.backups outcome.plan ∧
      outcome.report.summary.filesWritten = outcome.plan.changes.length ∧
      ∀ r ∈ outcome.report.files, r.status = .written) ∧
    ∀ tool' run', ∃ preview,
      t.migrateFrom { settings with dryRun := true } inputs tool' run' = (t, .ok preview) ∧
        preview.plan = outcome.plan ∧ preview.patch = outcome.patch := by
  obtain ⟨merged, plan, results, hrun, happly, rfl⟩ := migrateFrom_eq_ok_iff.mp h
  obtain ⟨hmerge, files, hfiles, hplan⟩ := planRun_eq_ok_iff.mp hrun
  obtain ⟨loaded, hloaded, hblocks⟩ := Settings.mergeWithAdditional_eq_ok.mp hmerge
  obtain ⟨htable, hsources, hsize⟩ := of_mergeBlocks hblocks
  refine ⟨settings.additionalBlock_eq,
    ⟨files, loaded, merged.table, hfiles, hloaded, htable, hplan, rfl, ?_⟩, fun hdry => ?_,
    fun hdry => ?_, migrateFrom_dryRun hrun⟩
  · obtain ⟨-, hchanges⟩ := planFiles_eq_ok_iff.mp hplan
    have hscanned : plan.filesScanned = files.length := congrArg Plan.filesScanned hchanges
    have hchanged : plan.changes.length ≤ files.length := by
      rw [hchanges]
      exact List.length_filterMap_le _ _
    exact ⟨map_of_applyPlan happly, rfl, hscanned, hchanged.trans_eq hscanned.symm, hsources, rfl,
      hsize⟩
  · rw [hdry] at happly
    obtain ⟨rfl, hresults⟩ := Prod.mk.inj happly
    obtain rfl := Except.ok.inj hresults
    refine ⟨rfl, if_pos hdry, fun r hr => ?_⟩
    obtain ⟨c, -, rfl⟩ := List.mem_map.mp hr
    exact ⟨rfl, rfl⟩
  · rw [hdry] at happly
    obtain ⟨-, rfl⟩ := applyPlan_eq_ok_iff.mp (congrArg Prod.snd happly)
    refine ⟨applied_of_applyPlan hplan happly, ?_, fun r hr => ?_⟩
    · simp [reportOf, hdry]
    · obtain ⟨c, -, rfl⟩ := List.mem_map.mp hr
      rfl

/-- A run that moves a class in two files and keeps a copy of each, next to them. -/
theorem migrateFrom_follows_plan_twins :
    ∃ outcome : MigrationOutcome, (twinRun ".bak").2 = .ok outcome ∧ outcome.plan = twinPlan ∧
      outcome.report.sources = [⟨"a", 1⟩] ∧ outcome.report.summary = ⟨1, 2, 2, 2⟩ ∧
      twinPlan.PathsApart (some ".bak") ∧
      twinSources.Applied (twinRun ".bak").1 ⟨"."⟩ (some ".bak") twinPlan ∧
      ∀ c ∈ twinPlan.changes,
        (twinRun ".bak").1.readText? (Path.resolve ⟨"."⟩ c.path) = some c.after := by
  have hrun : (twinRun ".bak").2.toOption.map (fun o => (o.plan, o.report.sources,
      o.report.summary)) = some (twinPlan, [⟨"a", 1⟩], ⟨1, 2, 2, 2⟩) := by
    decide +kernel
  cases hresult : (twinRun ".bak").2 with
  | error fault => simp [hresult, Except.toOption] at hrun
  | ok outcome =>
    rw [hresult] at hrun
    simp only [Except.toOption, Option.map_some, Option.some.injEq, Prod.mk.injEq] at hrun
    obtain ⟨hplan, hsources, hsummary⟩ := hrun
    have hmigrate : twinRun ".bak" = ((twinRun ".bak").1, .ok outcome) := by rw [← hresult]
    have hpaths : twinPlan.PathsApart (some ".bak") :=
      ⟨by decide +kernel, by decide +kernel, by decide +kernel⟩
    obtain ⟨-, -, -, hwritten, -⟩ := migrateFrom_follows_plan hmigrate
    obtain ⟨happlied, -, -⟩ := hwritten rfl
    rw [hplan] at happlied
    exact ⟨outcome, rfl, hplan, hsources, hsummary, hpaths, happlied,
      happlied.planned (Or.inr hpaths)⟩

end Runs

end Tree

end ImportMigration
