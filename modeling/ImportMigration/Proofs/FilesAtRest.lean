import ImportMigration.Proofs.Plans
import ImportMigration.Proofs.RevisedImports
import ImportMigration.Proofs.Runs

/-! # Files that need no repair

Where every import of a file is its own repair, revising the file can only drop repeated imports:
the repaired list is the list of first occurrences. So the file is left alone exactly when no import
is repeated. Under the table without directives every import is its own repair, and a run over files
without repeated imports plans no change and writes nothing.

* `DirectiveTable.Lawful.repairAll_of_fixed`: the repair of a list of imports at rest.
* `ImportsOnce`: texts that repeat no import.
* `Tree.migrateFrom_of_empty_table`: runs without directives.
* `DirectiveTable.reviseText_at_rest`: files and runs together.
* `DirectiveTable.reviseText_repeated_import`: a file at rest that does not stay as it is. -/

namespace ImportMigration

/-- A list is the list of its first occurrences when it has no repetitions. -/
theorem eraseDups_eq_self_iff {α : Type} [DecidableEq α] {l : List α} :
    l.eraseDups = l ↔ l.Nodup := by
  constructor
  · intro h
    rw [← h]
    exact nodup_eraseDups l
  · exact eraseDups_of_nodup

/-! ## Imports at rest -/

namespace DirectiveTable

/-- **Imports that are their own repairs** are repaired to their first occurrences. -/
theorem Lawful.repairAll_of_fixed {t : DirectiveTable} (h : t.Lawful) {specs : List ImportSpec}
    (hspecs : ∀ s ∈ specs, s.Canonical) (hfixed : ∀ s ∈ specs, t.repair s = [s]) :
    t.repairAll specs = specs.eraseDups := by
  rw [h.repairAll_eq hspecs, List.flatMap_congr hfixed, List.flatMap_singleton']

/-- A text whose imports are at rest is left alone exactly when none of them is repeated. -/
theorem Lawful.reviseText_eq_none_iff {t : DirectiveTable} (h : t.Lawful) {text : String}
    {specs : List ImportSpec} (hreads : ReadsImports (sourceLines text) specs)
    (hfixed : ∀ s ∈ specs, t.repair s = [s]) : t.reviseText text = .ok none ↔ specs.Nodup := by
  rw [reviseText_eq hreads, h.repairAll_of_fixed hreads.canonical hfixed, ← eraseDups_eq_self_iff]
  split_ifs with hsame <;> simp [hsame]

/-- A text whose imports are at rest loses its repeated imports. -/
theorem Lawful.exists_reviseText_of_repeated {t : DirectiveTable} (h : t.Lawful) {text : String}
    {specs : List ImportSpec} (hreads : ReadsImports (sourceLines text) specs)
    (hfixed : ∀ s ∈ specs, t.repair s = [s]) (hrepeated : ¬ specs.Nodup) :
    ∃ out, t.reviseText text = .ok (some out) ∧
      ReadsImports (sourceLines out.content) specs.eraseDups := by
  have hall := h.repairAll_of_fixed hreads.canonical hfixed
  have hchanged : t.repairAll specs ≠ specs := by
    rw [hall, ne_eq, eraseDups_eq_self_iff]
    exact hrepeated
  have hrevised := h.readsImports_revisedText hreads (ne_nil_of_repairAll_ne hchanged)
  rw [hall] at hrevised
  refine ⟨⟨t.revisedText text specs, specs.length, (t.repairAll specs).length⟩, ?_, hrevised⟩
  rw [reviseText_eq hreads, if_neg hchanged]

/-- Without directives every import is its own repair. -/
theorem repair_empty (s : ImportSpec) : empty.repair s = [s] := by
  cases hscope : s.isScopeOnly with
  | true => simp [repair, hscope, withinScope, empty, sortedSpecs, insertSpec]
  | false => exact repair_of_find?_eq_none hscope rfl

end DirectiveTable

/-- Whether a text repeats no import: its import lines, if all are read, are read as different
specs. -/
def ImportsOnce (text : String) : Prop :=
  ∀ specs, ReadsImports (sourceLines text) specs → specs.Nodup

/-- Without directives a text that repeats no import is left alone. -/
theorem ImportsOnce.reviseText_empty {text : String} (h : ImportsOnce text)
    {revised : Option (Revision String)}
    (hrevise : DirectiveTable.empty.reviseText text = .ok revised) :
    revised = none := by
  obtain ⟨specs, hreads⟩ := DirectiveTable.exists_readsImports_of_reviseText hrevise
  have hnone := (DirectiveTable.lawful_empty.reviseText_eq_none_iff hreads
    fun s _ => DirectiveTable.repair_empty s).mpr (h specs hreads)
  rw [hnone] at hrevise
  exact (Except.ok.inj hrevise).symm

/-! ## Runs without directives -/

namespace Tree

section EmptyTable

variable {t : Tree} {root : Path} {files : List Path}
  (honce : ∀ f ∈ files, ∀ text, t.readText? (root.resolve f) = some text → ImportsOnce text)

include honce

/-- Without directives no file changes, if none repeats an import. -/
theorem change?_of_empty_table {f : Path} (hf : f ∈ files) :
    t.change? root .empty f = none := by
  cases hplan : t.planFile root .empty f with
  | error fault => rw [change?, hplan]; rfl
  | ok change =>
    obtain ⟨before, revised, hread, hrevise, rfl⟩ := planFile_eq_ok_iff.mp hplan
    rw [change?_of_planFile hplan, (honce f hf before hread).reviseText_empty hrevise]
    rfl

/-- Without directives a plan has no changes, if no file repeats an import. -/
theorem planFiles_of_empty_table {plan : Plan} (h : t.planFiles root .empty files = .ok plan) :
    plan = ⟨files.length, []⟩ := by
  obtain ⟨-, rfl⟩ := planFiles_eq_ok_iff.mp h
  rw [List.filterMap_eq_nil_iff.mpr fun f hf => change?_of_empty_table honce hf]

/-- Without directives the files are planned as soon as they are read and their imports are. -/
theorem planFiles_eq_ok_of_empty_table
    (hread : ∀ f ∈ files, ∃ text specs, t.readText? (root.resolve f) = some text ∧
      ReadsImports (sourceLines text) specs) :
    t.planFiles root .empty files = .ok ⟨files.length, []⟩ := by
  rw [planFiles_eq_ok_iff,
    List.filterMap_eq_nil_iff.mpr fun f hf => change?_of_empty_table honce hf]
  refine ⟨fun f hf => ?_, rfl⟩
  obtain ⟨text, specs, htext, hspecs⟩ := hread f hf
  exact ⟨_, planFile_eq_ok_iff.mpr
    ⟨text, _, htext, DirectiveTable.reviseText_eq hspecs, rfl⟩⟩

end EmptyTable

/-- Carrying out a plan without changes does nothing. -/
theorem applyPlan_of_no_changes (t : Tree) (root : Path) (dryRun : Bool) (backups : Option String)
    (scanned : Nat) : t.applyPlan root dryRun backups ⟨scanned, []⟩ = (t, .ok []) := by
  cases dryRun <;> rfl

section Run

variable {t : Tree} {settings : Settings} {inputs : RunInputs} {tool : ToolInfo} {run : RunInfo}
  {merged : MergedDirectives} {files : List Path}
  (hmerge : settings.mergeWithAdditional inputs.blocks = .ok merged)
  (hempty : merged.table = .empty) (hfiles : inputs.files = .ok files)
  (honce : ∀ f ∈ files, ∀ text, t.readText? (settings.repoRoot.resolve f) = some text →
    ImportsOnce text)

include hmerge hempty hfiles honce

/-- A run without directives plans no change, if no file repeats an import. -/
theorem planRun_of_empty_table {found : MergedDirectives} {plan : Plan}
    (h : t.planRun settings inputs = .ok (found, plan)) : plan = ⟨files.length, []⟩ := by
  obtain ⟨hfound, listed, hlisted, hplan⟩ := planRun_eq_ok_iff.mp h
  obtain rfl := Except.ok.inj (hmerge.symm.trans hfound)
  obtain rfl := Except.ok.inj (hfiles.symm.trans hlisted)
  rw [hempty] at hplan
  exact planFiles_of_empty_table honce hplan

/-- **A run without directives** leaves the tree as it is and plans no change, if no file repeats
an import. -/
theorem migrateFrom_of_empty_table :
    (t.migrateFrom settings inputs tool run).1 = t ∧
      ∀ outcome, (t.migrateFrom settings inputs tool run).2 = .ok outcome →
        outcome.plan.changes = [] := by
  constructor
  · by_contra hne
    obtain ⟨found, plan, hplan, -, htree⟩ := exists_plan_of_migrateFrom_ne hne
    rw [planRun_of_empty_table hmerge hempty hfiles honce hplan,
      applyPlan_of_no_changes] at htree
    exact hne htree
  · intro outcome houtcome
    obtain ⟨found, plan, results, hplan, -, rfl⟩ := migrateFrom_eq_ok_iff.mp (Prod.ext rfl houtcome)
    rw [planRun_of_empty_table hmerge hempty hfiles honce hplan]

/-- A run without directives succeeds as soon as its files are read and their imports are. -/
theorem exists_migrateFrom_of_empty_table
    (hread : ∀ f ∈ files, ∃ text specs, t.readText? (settings.repoRoot.resolve f) = some text ∧
      ReadsImports (sourceLines text) specs) :
    ∃ outcome, (t.migrateFrom settings inputs tool run).2 = .ok outcome := by
  have hplan : t.planRun settings inputs = .ok (merged, ⟨files.length, []⟩) := by
    refine planRun_eq_ok_iff.mpr ⟨hmerge, files, hfiles, ?_⟩
    rw [hempty]
    exact planFiles_eq_ok_of_empty_table honce hread
  have happly := applyPlan_of_no_changes t settings.repoRoot settings.dryRun settings.backups
    files.length
  exact ⟨_, congrArg Prod.snd
    (migrateFrom_eq_ok_iff.mpr ⟨merged, _, [], hplan, happly, rfl⟩)⟩

end Run

end Tree

/-! ## Files and runs -/

namespace DirectiveTable

/-- **A file that needs no repair** is left alone exactly when it repeats no import, and
otherwise only loses the repetitions. A run whose merged directives are none leaves the tree as
it is and plans no change if no file repeats an import; it succeeds when every file is read and
so are its imports. -/
theorem reviseText_at_rest :
    (∀ (blocks : List DirectiveBlock) (t : DirectiveTable) (text : String)
      (specs : List ImportSpec), ofBlocks blocks = .ok t → ReadsImports (sourceLines text) specs →
      (∀ s ∈ specs, t.repair s = [s]) →
        (t.reviseText text = .ok none ↔ specs.Nodup) ∧
        (¬ specs.Nodup → ∃ out, t.reviseText text = .ok (some out) ∧
          ReadsImports (sourceLines out.content) specs.eraseDups)) ∧
    ∀ (tree : Tree) (settings : Settings) (inputs : RunInputs) (tool : ToolInfo) (run : RunInfo)
      (merged : MergedDirectives) (files : List Path),
      settings.mergeWithAdditional inputs.blocks = .ok merged → merged.table = .empty →
      inputs.files = .ok files →
      (∀ f ∈ files, ∀ text, tree.readText? (settings.repoRoot.resolve f) = some text →
        ImportsOnce text) →
        (tree.migrateFrom settings inputs tool run).1 = tree ∧
        (∀ outcome, (tree.migrateFrom settings inputs tool run).2 = .ok outcome →
          outcome.plan.changes = []) ∧
        ((∀ f ∈ files, ∃ text specs, tree.readText? (settings.repoRoot.resolve f) = some text ∧
            ReadsImports (sourceLines text) specs) →
          ∃ outcome, (tree.migrateFrom settings inputs tool run).2 = .ok outcome) := by
  constructor
  · intro blocks t text specs ht hreads hfixed
    have hlawful := lawful_ofBlocks ht
    exact ⟨hlawful.reviseText_eq_none_iff hreads hfixed,
      hlawful.exists_reviseText_of_repeated hreads hfixed⟩
  · intro tree settings inputs tool run merged files hmerge hempty hfiles honce
    obtain ⟨htree, hchanges⟩ := Tree.migrateFrom_of_empty_table hmerge hempty hfiles honce
    exact ⟨htree, hchanges, Tree.exists_migrateFrom_of_empty_table hmerge hempty hfiles honce⟩

/-- A tree with one source file, which imports one class. -/
def oneImport : Tree where
  nodes := [(["A.kt"], .file (.text "import a.b.C\n"))]
  workingDirectory := []

/-- A file with an alias of a class that is imported too, and a run that is given no directives. -/
theorem reviseText_at_rest_one_import :
    movedTest.reviseText "import com.new.Test\nimport com.new.Test as T\n" = .ok none ∧
      ∃ outcome, oneImport.migrateFrom { dryRun := false } ⟨.ok [], .ok [⟨"A.kt"⟩]⟩
          ⟨"pkgmove", none⟩ ⟨⟨2024, 1, 1, 0, 0, 0, 0⟩, none⟩ = (oneImport, .ok outcome) ∧
        outcome.plan.changes = [] := by
  have hreads : ReadsImports (sourceLines "import com.new.Test\nimport com.new.Test as T\n")
      [⟨"com.new", [], some "Test", none⟩, ⟨"com.new", [], some "Test", some "T"⟩] := by
    unfold ReadsImports
    decide +kernel
  have hfile : ReadsImports (sourceLines "import a.b.C\n") [⟨"a.b", [], some "C", none⟩] := by
    unfold ReadsImports
    decide +kernel
  have hread : oneImport.readText? (Path.resolve ⟨"."⟩ ⟨"A.kt"⟩) = some "import a.b.C\n" := by
    decide +kernel
  have honce : ImportsOnce "import a.b.C\n" := by
    intro specs hspecs
    have hlength : specs.length = 1 := by
      rw [← hspecs.countP_eq, hfile.countP_eq]
      rfl
    obtain ⟨s, rfl⟩ := List.length_eq_one_iff.mp hlength
    exact List.nodup_singleton s
  refine ⟨((reviseText_at_rest.1 _ _ _ _ ofBlocks_movedTest hreads (by decide +kernel)).1).mpr
    (by decide), ?_⟩
  obtain ⟨htree, hchanges, hok⟩ := reviseText_at_rest.2 oneImport { dryRun := false }
    ⟨.ok [], .ok [⟨"A.kt"⟩]⟩ ⟨"pkgmove", none⟩ ⟨⟨2024, 1, 1, 0, 0, 0, 0⟩, none⟩ ⟨.empty, []⟩
    [⟨"A.kt"⟩] rfl rfl rfl (by simpa [hread] using honce)
  obtain ⟨outcome, houtcome⟩ := hok (by simpa [hread] using ⟨_, hfile⟩)
  exact ⟨outcome, Prod.ext htree houtcome, hchanges outcome houtcome⟩

/-- A file at rest need not stay as it is: without any directive, an import that is written twice is
written once. -/
theorem reviseText_repeated_import :
    ¬ ∀ (blocks : List DirectiveBlock) (t : DirectiveTable) (text : String)
      (specs : List ImportSpec), ofBlocks blocks = .ok t → ReadsImports (sourceLines text) specs →
      (∀ s ∈ specs, t.repair s = [s]) → t.reviseText text = .ok none := by
  intro h
  have hreads : ReadsImports (sourceLines "import a.b.C\nimport a.b.C\n")
      [⟨"a.b", [], some "C", none⟩, ⟨"a.b", [], some "C", none⟩] := by
    unfold ReadsImports
    decide +kernel
  have hnone := h [] empty _ _ rfl hreads fun s _ => repair_empty s
  exact absurd hnone (by decide +kernel)

end DirectiveTable

end ImportMigration
