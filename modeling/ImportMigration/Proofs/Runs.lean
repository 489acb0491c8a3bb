import ImportMigration.Migration
import ImportMigration.Proofs.Trimming

/-! # Runs phase by phase

A run merges, lists, plans and applies, and stops at the first phase that fails.

* `Settings.additionalBlock_eq`: the block that the settings' own text is.
* `Settings.mergeWithAdditional_eq_ok`: what the merge of a run gives.
* `Tree.planRun_eq_ok_iff`, `Tree.planRun_eq_error_iff`: what the phases before the writes give.
* `Tree.migrateFrom_eq_ok_iff`, `Tree.migrateFrom_eq_error_iff`: what the whole run gives. -/

namespace ImportMigration

/-- **The settings' own text is one block** of additional text unless it is blank, and then none. -/
theorem Settings.additionalBlock_eq (s : Settings) :
    s.additionalBlock =
      if s.additional.toList.all Text.isBlank then [] else [⟨"<additional>", s.additional⟩] := by
  rw [additionalBlock]
  simp only [List.isEmpty_iff, Text.trim_eq_nil_iff, List.all_eq_true]
  rfl

/-- The blocks of a run are merged when they are loaded and can be, the settings' own text last. -/
theorem Settings.mergeWithAdditional_eq_ok {s : Settings}
    {blocks : Except Failure (List DirectiveBlock)} {merged : MergedDirectives} :
    s.mergeWithAdditional blocks = .ok merged ↔
      ∃ loaded, blocks = .ok loaded ∧
        mergeBlocks .empty (loaded ++ s.additionalBlock) = .ok merged := by
  cases blocks with
  | error failure => simp [mergeWithAdditional]
  | ok loaded =>
    simp only [mergeWithAdditional]
    cases hmerge : mergeBlocks .empty (loaded ++ s.additionalBlock) <;> simp [hmerge]

namespace Tree

section Runs

variable {t t' : Tree} {settings : Settings} {inputs : RunInputs} {tool : ToolInfo} {run : RunInfo}

/-- A run has a plan when its blocks merge, its files are listed and these are planned. -/
theorem planRun_eq_ok_iff {merged : MergedDirectives} {plan : Plan} :
    t.planRun settings inputs = .ok (merged, plan) ↔
      settings.mergeWithAdditional inputs.blocks = .ok merged ∧
        ∃ files, inputs.files = .ok files ∧
          t.planFiles settings.repoRoot merged.table files = .ok plan := by
  constructor
  · intro h
    rw [planRun] at h
    split at h
    · cases h
    · rename_i found hmerge
      split at h
      · cases h
      · rename_i files hfiles
        split at h
        · cases h
        · rename_i planned hplan
          cases h
          exact ⟨hmerge, files, hfiles, hplan⟩
  · rintro ⟨hmerge, files, hfiles, hplan⟩
    simp only [planRun, hmerge, hfiles, hplan]

/-- A run has no plan because of the first of its phases that fails. -/
theorem planRun_eq_error_iff {e : MigrationError} :
    t.planRun settings inputs = .error e ↔
      settings.mergeWithAdditional inputs.blocks = .error e ∨
        ∃ merged, settings.mergeWithAdditional inputs.blocks = .ok merged ∧
          ((∃ failure, inputs.files = .error failure ∧ e = .failed failure) ∨
            ∃ files, inputs.files = .ok files ∧
              t.planFiles settings.repoRoot merged.table files = .error e) := by
  rw [planRun]
  cases settings.mergeWithAdditional inputs.blocks with
  | error fault => simp
  | ok merged =>
    cases inputs.files with
    | error failure => simp [eq_comm]
    | ok files => cases hplan : t.planFiles settings.repoRoot merged.table files <;> simp [hplan]

/-- A run succeeds when it has a plan that is carried out to its end. -/
theorem migrateFrom_eq_ok_iff {outcome : MigrationOutcome} :
    t.migrateFrom settings inputs tool run = (t', .ok outcome) ↔
      ∃ merged plan results, t.planRun settings inputs = .ok (merged, plan) ∧
        t.applyPlan settings.repoRoot settings.dryRun settings.backups plan = (t', .ok results) ∧
        outcome = { plan, patch := plan.patch,
                    report := reportOf settings tool run merged plan results } := by
  constructor
  · intro h
    rw [migrateFrom] at h
    split at h
    · cases h
    · rename_i merged plan hplan
      split at h
      · cases h
      · rename_i u results happly
        cases h
        exact ⟨merged, plan, results, hplan, happly, rfl⟩
  · rintro ⟨merged, plan, results, hplan, happly, rfl⟩
    simp only [migrateFrom, hplan, happly]

/-- A run fails without a plan, which leaves the tree as it was, or when it carries its plan out. -/
theorem migrateFrom_eq_error_iff {e : MigrationError} :
    t.migrateFrom settings inputs tool run = (t', .error e) ↔
      (t.planRun settings inputs = .error e ∧ t' = t) ∨
        (e = .failed .applyPlan ∧ ∃ merged plan failure,
          t.planRun settings inputs = .ok (merged, plan) ∧
          t.applyPlan settings.repoRoot settings.dryRun settings.backups plan =
            (t', .error failure)) := by
  constructor
  · intro h
    rw [migrateFrom] at h
    split at h
    · rename_i fault hplan
      cases h
      exact Or.inl ⟨hplan, rfl⟩
    · rename_i merged plan hplan
      split at h
      · rename_i u failure happly
        cases h
        exact Or.inr ⟨rfl, merged, plan, failure, hplan, happly⟩
      · cases h
  · rintro (⟨hplan, rfl⟩ | ⟨rfl, merged, plan, failure, hplan, happly⟩)
    · simp only [migrateFrom, hplan]
    · simp only [migrateFrom, hplan, happly]

/-- A run that changes the tree carries out a plan. -/
theorem exists_plan_of_migrateFrom_ne (h : (t.migrateFrom settings inputs tool run).1 ≠ t) :
    ∃ merged plan, t.planRun settings inputs = .ok (merged, plan) ∧ settings.dryRun = false ∧
      (t.migrateFrom settings inputs tool run).1 =
        (t.applyPlan settings.repoRoot false settings.backups plan).1 := by
  obtain ⟨merged, plan, hplan, hfst⟩ : ∃ merged plan,
      t.planRun settings inputs = .ok (merged, plan) ∧ (t.migrateFrom settings inputs tool run).1 =
        (t.applyPlan settings.repoRoot settings.dryRun settings.backups plan).1 := by
    cases hresult : (t.migrateFrom settings inputs tool run).2 with
    | error e =>
      rcases migrateFrom_eq_error_iff.mp (Prod.ext rfl hresult) with
        ⟨-, htree⟩ | ⟨-, merged, plan, failure, hplan, happly⟩
      · exact absurd htree h
      · exact ⟨merged, plan, hplan, (congrArg Prod.fst happly).symm⟩
    | ok outcome =>
      obtain ⟨merged, plan, results, hplan, happly, -⟩ :=
        migrateFrom_eq_ok_iff.mp (Prod.ext rfl hresult)
      exact ⟨merged, plan, hplan, (congrArg Prod.fst happly).symm⟩
  cases hdry : settings.dryRun with
  | true =>
    rw [hfst, hdry, applyPlan, if_pos rfl] at h
    exact absurd rfl h
  | false => exact ⟨merged, plan, hplan, rfl, hdry ▸ hfst⟩

end Runs

end Tree

end ImportMigration
