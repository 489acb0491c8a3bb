import ImportMigration.Proofs.RevisedImports
import ImportMigration.Proofs.Runs

/-! # First faults

Everything a run reads is read in order up to the first fault: the lines of a directive block, the
blocks, the lines of a source file and the files. The error of a run names that fault, and a run
that fails before it writes leaves the tree as it was.

* `FirstFault`: the first item of a list that has a fault.
* `DirectiveBlock.BadLine`, `mergeBlocks_eq_error_iff`: the first bad line of a block, and of the
  first block that has one.
* `BadImport`, `DirectiveTable.reviseText_eq_error_iff`: the first bad import line of a text.
* `Tree.FileFault`, `Tree.planFiles_eq_error_iff`: what keeps a file, and the first file, from being
  planned.
* `Tree.migrateFrom_first_fault`: the error of a run. -/

namespace ImportMigration

/-! ## The first item with a fault -/

/-- The item at an index has a fault and those before it have none. -/
structure FirstFault {α ε : Type*} (HasFault : α → ε → Prop) (xs : List α) (index : Nat) (x : α)
    (e : ε) : Prop where
  /-- The item stands at the index. -/
  getElem?_eq : xs[index]? = some x
  /-- It has the fault. -/
  fault : HasFault x e
  /-- No item before it has a fault. -/
  earlier : ∀ y ∈ xs.take index, ∀ e, ¬HasFault y e

section FirstFault

variable {α ε : Type*} {HasFault : α → ε → Prop} {a x : α} {xs : List α} {index : Nat} {e : ε}

/-- An empty list has no first fault. -/
theorem not_firstFault_nil : ¬FirstFault HasFault [] index x e := fun h => by
  simpa using h.getElem?_eq

/-- The first item is the first with a fault if it has one. -/
theorem firstFault_cons_zero_iff :
    FirstFault HasFault (a :: xs) 0 x e ↔ x = a ∧ HasFault a e := by
  constructor
  · intro h
    obtain rfl : a = x := by simpa using h.getElem?_eq
    exact ⟨rfl, h.fault⟩
  · rintro ⟨rfl, hfault⟩
    exact ⟨by simp, hfault, by simp⟩

/-- A later item is the first with a fault if the first item has none. -/
theorem firstFault_cons_succ_iff :
    FirstFault HasFault (a :: xs) (index + 1) x e ↔
      (∀ e, ¬HasFault a e) ∧ FirstFault HasFault xs index x e := by
  constructor
  · intro h
    refine ⟨h.earlier a (by simp), by simpa using h.getElem?_eq, h.fault, fun y hy => ?_⟩
    exact h.earlier y (by simp [hy])
  · rintro ⟨hfirst, h⟩
    refine ⟨by simpa using h.getElem?_eq, h.fault, fun y hy => ?_⟩
    rw [List.take_succ_cons] at hy
    rcases List.mem_cons.mp hy with rfl | hy
    · exact hfirst
    · exact h.earlier y hy

/-- **One step of a search for the first fault**, for what is said of it by its index. -/
theorem exists_firstFault_cons_iff (HasFault : α → ε → Prop) (a : α) (xs : List α)
    (P : Nat → α → ε → Prop) :
    (∃ index x e, FirstFault HasFault (a :: xs) index x e ∧ P index x e) ↔
      (∃ e, HasFault a e ∧ P 0 a e) ∨
        (∀ e, ¬HasFault a e) ∧
          ∃ index x e, FirstFault HasFault xs index x e ∧ P (index + 1) x e := by
  constructor
  · rintro ⟨index, x, e, h, hP⟩
    cases index with
    | zero =>
      obtain ⟨rfl, hfault⟩ := firstFault_cons_zero_iff.mp h
      exact Or.inl ⟨e, hfault, hP⟩
    | succ index =>
      obtain ⟨hfirst, hrest⟩ := firstFault_cons_succ_iff.mp h
      exact Or.inr ⟨hfirst, index, x, e, hrest, hP⟩
  · rintro (⟨e, hfault, hP⟩ | ⟨hfirst, index, x, e, hrest, hP⟩)
    · exact ⟨0, a, e, firstFault_cons_zero_iff.mpr ⟨rfl, hfault⟩, hP⟩
    · exact ⟨index + 1, x, e, firstFault_cons_succ_iff.mpr ⟨hfirst, hrest⟩, hP⟩

/-- An item without a fault only shifts the first fault. -/
theorem exists_firstFault_cons_of_fine (h : ∀ e, ¬HasFault a e) (P : Nat → α → ε → Prop) :
    (∃ index x e, FirstFault HasFault (a :: xs) index x e ∧ P index x e) ↔
      ∃ index x e, FirstFault HasFault xs index x e ∧ P (index + 1) x e := by
  rw [exists_firstFault_cons_iff]
  simp [h]

/-- An item with one fault is the first with a fault. -/
theorem exists_firstFault_cons_of_fault (h : ∀ e', HasFault a e' ↔ e' = e)
    (P : Nat → α → ε → Prop) :
    (∃ index x e, FirstFault HasFault (a :: xs) index x e ∧ P index x e) ↔ P 0 a e := by
  rw [exists_firstFault_cons_iff]
  simp [h]

/-- There is a first fault as soon as an item has one. -/
theorem exists_firstFault_iff :
    (∃ index x e, FirstFault HasFault xs index x e) ↔ ∃ x ∈ xs, ∃ e, HasFault x e := by
  induction xs with
  | nil => simp [not_firstFault_nil]
  | cons a rest ih =>
    have hstep := exists_firstFault_cons_iff HasFault a rest fun _ _ _ => True
    simp only [and_true] at hstep
    rw [hstep, ih, List.exists_mem_cons_iff]
    by_cases hfirst : ∃ e, HasFault a e
    · simp [hfirst]
    · simp [not_exists.mp hfirst]

/-- The first fault of a list, given by the fault alone. -/
theorem exists_firstFault_eq_iff :
    (∃ index x e', FirstFault HasFault xs index x e' ∧ e = e') ↔
      ∃ index x, FirstFault HasFault xs index x e := by
  simp

/-- Items without a fault in front of a list only shift its first fault. -/
theorem exists_firstFault_append_iff {front : List α} (h : ∀ y ∈ front, ∀ e, ¬HasFault y e)
    (P : Nat → α → ε → Prop) :
    (∃ index x e, FirstFault HasFault (front ++ xs) index x e ∧ P index x e) ↔
      ∃ index x e, FirstFault HasFault xs index x e ∧ P (front.length + index) x e := by
  induction front generalizing P with
  | nil => simp
  | cons a rest ih =>
    rw [List.cons_append, exists_firstFault_cons_of_fine (h a List.mem_cons_self),
      ih fun y hy => h y (List.mem_cons_of_mem a hy)]
    simp only [List.length_cons, Nat.add_right_comm]

end FirstFault

/-! ## Directive blocks -/

namespace DirectiveBlock

/-- Whether a line of a block is no directive where it should be one: without the blanks at its ends
it is neither blank nor a comment, and cannot be read. -/
def BadDirective (raw : List Char) (cause : SpecError) : Prop :=
  isSkipped (Text.trim raw) = false ∧ Directive.parse (String.ofList (Text.trim raw)) = .error cause

/-- The first bad line of a block, with its number among all lines. -/
def BadLine (block : DirectiveBlock) (fault : BlockError) : Prop :=
  ∃ index raw cause, FirstFault BadDirective (Text.lines block.text.toList) index raw cause ∧
    fault = { origin := block.origin, lineNumber := index + 1,
              line := String.ofList (Text.trim raw), cause }

/-- Reading lines fails at the first bad one. -/
theorem readLines_zipIdx_eq_error_iff {origin : String} {lines : List (List Char)} {start : Nat}
    {fault : BlockError} :
    readLines origin (lines.zipIdx start) = .error fault ↔
      ∃ index raw cause, FirstFault BadDirective lines index raw cause ∧
        fault = { origin, lineNumber := start + index + 1, line := String.ofList (Text.trim raw),
                  cause } := by
  induction lines generalizing start with
  | nil => simp [readLines, not_firstFault_nil]
  | cons raw rest ih =>
    rw [List.zipIdx_cons, readLines]
    -- The number of a later line is counted from the next one.
    have hrest := @ih (start + 1)
    simp only [Nat.add_assoc start 1, Nat.add_comm 1] at hrest
    by_cases hskip : isSkipped (Text.trim raw) = true
    · have hfine : ∀ cause, ¬BadDirective raw cause := by simp [BadDirective, hskip]
      rw [if_pos hskip, exists_firstFault_cons_of_fine hfine, hrest]
    · rw [if_neg hskip]
      cases hparse : Directive.parse (String.ofList (Text.trim raw)) with
      | error cause =>
        have hbad : ∀ c, BadDirective raw c ↔ c = cause := by
          simp [BadDirective, hskip, hparse, eq_comm]
        rw [exists_firstFault_cons_of_fault hbad]
        simp [eq_comm]
      | ok directive =>
        have hfine : ∀ cause, ¬BadDirective raw cause := by simp [BadDirective, hparse]
        rw [exists_firstFault_cons_of_fine hfine, ← hrest]
        cases readLines origin (rest.zipIdx (start + 1)) <;> simp

/-- **A block is read up to its first bad line.** -/
theorem parse_eq_error_iff {block : DirectiveBlock} {fault : BlockError} :
    block.parse = .error fault ↔ block.BadLine fault := by
  rw [parse, readLines_zipIdx_eq_error_iff]
  simp only [Nat.zero_add]
  rfl

/-- Comments and blank lines count. -/
example : (⟨"a", "// moved\n\nx\n"⟩ : DirectiveBlock).parse =
    .error ⟨"a", 3, "x", .missingTarget "x"⟩ := by
  decide +kernel

end DirectiveBlock

/-- **Blocks are merged up to the first with a bad line.** -/
theorem mergeBlocks_eq_error_iff {table : DirectiveTable} {blocks : List DirectiveBlock}
    {fault : BlockError} :
    mergeBlocks table blocks = .error fault ↔
      ∃ index block, FirstFault DirectiveBlock.BadLine blocks index block fault := by
  rw [← exists_firstFault_eq_iff]
  -- The table grows along the blocks, but whether a block is read does not depend on it.
  induction blocks generalizing table with
  | nil => simp [mergeBlocks, not_firstFault_nil]
  | cons block rest ih =>
    rw [mergeBlocks, DirectiveTable.merge]
    cases hparse : block.parse with
    | error e =>
      have hbad : ∀ e', block.BadLine e' ↔ e' = e := by
        simp [← DirectiveBlock.parse_eq_error_iff, hparse, eq_comm]
      rw [exists_firstFault_cons_of_fault hbad]
      simp [eq_comm]
    | ok directives =>
      have hfine : ∀ e, ¬block.BadLine e := by simp [← DirectiveBlock.parse_eq_error_iff, hparse]
      rw [exists_firstFault_cons_of_fine hfine, ← @ih (table.insertAll directives block.origin)]
      simp only
      cases mergeBlocks (table.insertAll directives block.origin) rest <;> simp

/-- Blocks are merged when none of them has a bad line. -/
theorem exists_mergeBlocks_eq_ok_iff {table : DirectiveTable} {blocks : List DirectiveBlock} :
    (∃ merged, mergeBlocks table blocks = .ok merged) ↔ ∀ b ∈ blocks, ∀ e, ¬b.BadLine e := by
  have hfault : (∃ fault, mergeBlocks table blocks = .error fault) ↔
      ∃ b ∈ blocks, ∃ e, b.BadLine e := by
    simp only [mergeBlocks_eq_error_iff, ← exists_firstFault_iff]
    constructor
    · rintro ⟨e, index, b, h⟩
      exact ⟨index, b, e, h⟩
    · rintro ⟨index, b, e, h⟩
      exact ⟨e, index, b, h⟩
  cases hmerge : mergeBlocks table blocks with
  | error fault =>
    obtain ⟨b, hb, e, hbad⟩ := hfault.mp ⟨fault, hmerge⟩
    simp only [reduceCtorEq, exists_false, false_iff]
    exact fun hfine => hfine b hb e hbad
  | ok merged =>
    simp only [Except.ok.injEq, exists_eq', true_iff]
    intro b hb e hbad
    obtain ⟨fault, herror⟩ := hfault.mpr ⟨b, hb, e, hbad⟩
    rw [hmerge] at herror
    cases herror

/-! ## Import lines -/

/-- Whether a line is an import line that cannot be read. -/
def BadImportLine (line : String) (cause : SpecError) : Prop :=
  ∃ text, importText? line = some text ∧ ImportSpec.parse text = .error cause

/-- The first bad import line of a text, with its number among all lines. -/
def BadImport (text : String) (fault : ImportError) : Prop :=
  ∃ index line cause, FirstFault BadImportLine (sourceLines text) index line cause ∧
    fault = { lineNumber := index + 1, line, cause }

/-- Imports are collected up to the first bad import line. -/
theorem collectImports_zipIdx_eq_error_iff {lines : List String} {start : Nat}
    {fault : ImportError} :
    collectImports (lines.zipIdx start) = .error fault ↔
      ∃ index line cause, FirstFault BadImportLine lines index line cause ∧
        fault = { lineNumber := start + index + 1, line, cause } := by
  induction lines generalizing start with
  | nil => simp [collectImports, not_firstFault_nil]
  | cons line rest ih =>
    rw [List.zipIdx_cons, collectImports]
    have hrest := @ih (start + 1)
    simp only [Nat.add_assoc start 1, Nat.add_comm 1] at hrest
    cases htext : importText? line with
    | none =>
      have hfine : ∀ cause, ¬BadImportLine line cause := by simp [BadImportLine, htext]
      rw [exists_firstFault_cons_of_fine hfine, ← hrest]
      cases collectImports (rest.zipIdx (start + 1)) <;> simp
    | some text =>
      cases hparse : ImportSpec.parse text with
      | error cause =>
        have hbad : ∀ c, BadImportLine line c ↔ c = cause := by
          simp [BadImportLine, htext, hparse, eq_comm]
        rw [exists_firstFault_cons_of_fault hbad]
        simp [hparse, eq_comm]
      | ok spec =>
        have hfine : ∀ cause, ¬BadImportLine line cause := by simp [BadImportLine, htext, hparse]
        rw [exists_firstFault_cons_of_fine hfine, ← hrest]
        cases collectImports (rest.zipIdx (start + 1)) <;> simp [hparse]

namespace DirectiveTable

/-- The imports of a file are collected up to the first bad import line of the file. -/
theorem reviseLines_eq_error_iff {t : DirectiveTable} {lines : List String} {fault : ImportError} :
    t.reviseLines lines = .error fault ↔
      ∃ index line cause, FirstFault BadImportLine lines index line cause ∧
        fault = { lineNumber := index + 1, line, cause } := by
  have hsplit := List.takeWhile_append_dropWhile (p := fun l => !isImportLine l) (l := lines)
  have hfront : ∀ line ∈ lines.takeWhile (!isImportLine ·), ∀ cause, ¬BadImportLine line cause := by
    rintro line hline cause ⟨text, htext, -⟩
    have hno : isImportLine line = false := by simpa using List.mem_takeWhile_imp hline
    simp [isImportLine, htext] at hno
  -- The lines before the first import line are numbered too, but not collected.
  have hnumbered : lines.zipIdx.drop (lines.takeWhile (!isImportLine ·)).length =
      (lines.dropWhile (!isImportLine ·)).zipIdx (lines.takeWhile (!isImportLine ·)).length := by
    conv_lhs => rw [← hsplit]
    rw [List.zipIdx_append, List.drop_left' (by simp), Nat.zero_add]
  conv_rhs => rw [← hsplit]
  rw [exists_firstFault_append_iff hfront, ← collectImports_zipIdx_eq_error_iff]
  simp only [reviseLines, hnumbered]
  cases collectImports ((lines.dropWhile (!isImportLine ·)).zipIdx
      (lines.takeWhile (!isImportLine ·)).length) with
  | error found => simp
  | ok collected =>
    simp only [reduceCtorEq, iff_false]
    split_ifs <;> simp

/-- **A text is revised up to its first bad import line.** -/
theorem reviseText_eq_error_iff {t : DirectiveTable} {text : String} {fault : ImportError} :
    t.reviseText text = .error fault ↔ BadImport text fault := by
  rw [BadImport, ← reviseLines_eq_error_iff (t := t), reviseText, sourceLines]
  split <;> simp_all

end DirectiveTable

/-! ## Files -/

namespace Tree

/-- What keeps a file from being planned: it cannot be read as text where its path leads, or it has
a bad import line, the first of which is shown with the path below the root. -/
inductive FileFault (t : Tree) (root file : Path) : MigrationError → Prop
  /-- The file cannot be read. -/
  | unreadable (h : t.readText? (root.resolve file) = none) :
      FileFault t root file (.failed (.read (root.resolve file)))
  /-- The file has a bad import line. -/
  | badImport {text : String} {fault : ImportError}
      (h : t.readText? (root.resolve file) = some text) (hbad : BadImport text fault) :
      FileFault t root file (.malformedImport (root.withoutRoot (root.resolve file)) fault)

/-- A file is planned unless it has a fault. -/
theorem planFile_eq_error_iff {t : Tree} {root : Path} {table : DirectiveTable} {file : Path}
    {e : MigrationError} : t.planFile root table file = .error e ↔ t.FileFault root file e := by
  constructor
  · intro h
    rw [planFile, planAt] at h
    generalize hread : t.readText? (root.resolve file) = read at h
    cases read with
    | none =>
      cases h
      exact .unreadable hread
    | some text =>
      simp only at h
      split at h
      · rename_i fault hrevise
        cases h
        exact .badImport hread (DirectiveTable.reviseText_eq_error_iff.mp hrevise)
      · cases h
      · cases h
  · rintro (hread | ⟨hread, hbad⟩)
    · simp only [planFile, planAt, hread]
    · have hrevise := (DirectiveTable.reviseText_eq_error_iff (t := table)).mpr hbad
      simp only [planFile, planAt, hread, hrevise]

end Tree

/-- A list of files is planned up to the first that is not. -/
theorem Plan.ofFiles_eq_error_iff {planFile : Path → Except MigrationError (Option PlannedFile)}
    {files : List Path} {e : MigrationError} :
    Plan.ofFiles planFile files = .error e ↔
      ∃ index file, FirstFault (fun f e => planFile f = .error e) files index file e := by
  rw [← exists_firstFault_eq_iff]
  induction files with
  | nil => simp [ofFiles, not_firstFault_nil]
  | cons file rest ih =>
    rw [ofFiles]
    cases hfile : planFile file with
    | error fault =>
      have hbad : ∀ e', planFile file = .error e' ↔ e' = fault := by simp [hfile, eq_comm]
      rw [exists_firstFault_cons_of_fault hbad]
      simp [eq_comm]
    | ok change =>
      have hfine : ∀ e', ¬planFile file = .error e' := by simp [hfile]
      rw [exists_firstFault_cons_of_fine hfine, ← ih]
      cases ofFiles planFile rest <;> simp

namespace Tree

/-- **Files are planned up to the first with a fault.** -/
theorem planFiles_eq_error_iff {t : Tree} {root : Path} {table : DirectiveTable} {files : List Path}
    {e : MigrationError} :
    t.planFiles root table files = .error e ↔
      ∃ index file, FirstFault (t.FileFault root) files index file e := by
  have hfault : (fun f e => t.planFile root table f = .error e) = t.FileFault root := by
    funext f e
    exact propext planFile_eq_error_iff
  rw [planFiles, Plan.ofFiles_eq_error_iff, hfault]

end Tree

/-! ## Runs -/

/-- The blocks of a run are not merged if they cannot be loaded or if one of them has a bad line,
the settings' own text counting as the last block. -/
theorem Settings.mergeWithAdditional_eq_error_iff {s : Settings}
    {blocks : Except Failure (List DirectiveBlock)} {e : MigrationError} :
    s.mergeWithAdditional blocks = .error e ↔
      (∃ failure, blocks = .error failure ∧ e = .failed failure) ∨
        ∃ loaded fault, blocks = .ok loaded ∧ e = .malformedDirective fault ∧
          ∃ index block,
            FirstFault DirectiveBlock.BadLine (loaded ++ s.additionalBlock) index block fault := by
  simp only [← @mergeBlocks_eq_error_iff .empty]
  cases blocks with
  | error failure => simp [mergeWithAdditional, eq_comm]
  | ok loaded =>
    rw [mergeWithAdditional]
    cases hmerge : mergeBlocks .empty (loaded ++ s.additionalBlock) <;> simp [hmerge, eq_comm]

/-- The blocks of a run are merged if they are loaded and none of them has a bad line. -/
theorem Settings.exists_mergeWithAdditional_eq_ok_iff {s : Settings}
    {blocks : Except Failure (List DirectiveBlock)} :
    (∃ merged, s.mergeWithAdditional blocks = .ok merged) ↔
      ∃ loaded, blocks = .ok loaded ∧ ∀ b ∈ loaded ++ s.additionalBlock, ∀ e, ¬b.BadLine e := by
  simp only [← @exists_mergeBlocks_eq_ok_iff .empty, mergeWithAdditional_eq_ok]
  rw [exists_comm]
  simp only [exists_and_left]

namespace Tree

section Runs

variable {t : Tree} {settings : Settings} {inputs : RunInputs} {tool : ToolInfo} {run : RunInfo}

/-- Malformed input fails a run before it writes. -/
theorem migrateFrom_snd_eq_error_iff {e : MigrationError} (he : e ≠ .failed .applyPlan) :
    (t.migrateFrom settings inputs tool run).2 = .error e ↔
      t.planRun settings inputs = .error e := by
  constructor
  · intro h
    have hrun : t.migrateFrom settings inputs tool run =
        ((t.migrateFrom settings inputs tool run).1, .error e) := Prod.ext rfl h
    rcases migrateFrom_eq_error_iff.mp hrun with ⟨hplan, -⟩ | ⟨happly, -⟩
    · exact hplan
    · exact absurd happly he
  · intro h
    rw [migrateFrom_eq_error_iff.mpr (Or.inl ⟨h, rfl⟩)]

/-- A run has no plan because of a bad directive if its blocks are loaded and one has a bad line. -/
theorem planRun_eq_malformedDirective_iff {fault : BlockError} :
    t.planRun settings inputs = .error (.malformedDirective fault) ↔
      ∃ blocks, inputs.blocks = .ok blocks ∧
        ∃ index block, FirstFault DirectiveBlock.BadLine (blocks ++ settings.additionalBlock)
          index block fault := by
  rw [planRun_eq_error_iff, Settings.mergeWithAdditional_eq_error_iff]
  -- No later phase gives such an error.
  have hfiles : ∀ merged : MergedDirectives, ∀ files,
      t.planFiles settings.repoRoot merged.table files ≠ .error (.malformedDirective fault) := by
    intro merged files hplan
    obtain ⟨index, file, hfirst⟩ := planFiles_eq_error_iff.mp hplan
    cases hfirst.fault
  simp [hfiles]

/-- A run has no plan because of a bad import if its blocks are merged, its files listed and the
first file with a fault has a bad import. -/
theorem planRun_eq_malformedImport_iff {shown : Path} {fault : ImportError} :
    t.planRun settings inputs = .error (.malformedImport shown fault) ↔
      ∃ blocks files, inputs.blocks = .ok blocks ∧
        (∀ b ∈ blocks ++ settings.additionalBlock, ∀ e, ¬b.BadLine e) ∧ inputs.files = .ok files ∧
        ∃ index file, FirstFault (t.FileFault settings.repoRoot) files index file
          (.malformedImport shown fault) := by
  rw [planRun_eq_error_iff, Settings.mergeWithAdditional_eq_error_iff]
  simp only [planFiles_eq_error_iff]
  constructor
  · rintro ((⟨failure, -, h⟩ | ⟨loaded, found, -, h, -⟩) |
      ⟨merged, hmerge, ⟨failure, -, h⟩ | hfirst⟩)
    · cases h
    · cases h
    · cases h
    · obtain ⟨blocks, hblocks, hfine⟩ :=
        Settings.exists_mergeWithAdditional_eq_ok_iff.mp ⟨merged, hmerge⟩
      obtain ⟨files, hfiles, hfirst⟩ := hfirst
      exact ⟨blocks, files, hblocks, hfine, hfiles, hfirst⟩
  · rintro ⟨blocks, files, hblocks, hfine, hfiles, hfirst⟩
    obtain ⟨merged, hmerge⟩ :=
      Settings.exists_mergeWithAdditional_eq_ok_iff.mpr ⟨blocks, hblocks, hfine⟩
    exact Or.inr ⟨merged, hmerge, Or.inr ⟨files, hfiles, hfirst⟩⟩

end Runs

/-- **The error of a run is determined by the first fault of what it reads.** A run that fails
either has no plan and leaves the tree as it was, or fails to carry its plan out. It names a bad
directive exactly if its blocks are loaded and one of them has a bad line: the first bad line of the
first such block. It names a bad import exactly if the blocks are loaded and have no bad line, the
files are listed and the first of them that cannot be read or has a bad import can be read: the
first bad import of that file. These two kinds of errors have the exit code two, and every other
failure has one. The settings' own text counts as the last block, unless it is blank. -/
theorem migrateFrom_first_fault (t : Tree) (settings : Settings) (inputs : RunInputs)
    (tool : ToolInfo) (run : RunInfo) :
    let outcome := t.migrateFrom settings inputs tool run
    (settings.additionalBlock =
      if settings.additional.toList.all Text.isBlank then []
      else [⟨"<additional>", settings.additional⟩]) ∧
    (∀ e, outcome.2 = .error e →
      (outcome.1 = t ∧ t.planRun settings inputs = .error e) ∨
        (e = .failed .applyPlan ∧ ∃ planned, t.planRun settings inputs = .ok planned)) ∧
    (∀ fault, outcome.2 = .error (.malformedDirective fault) ↔
      ∃ blocks, inputs.blocks = .ok blocks ∧ ∃ index block,
        FirstFault DirectiveBlock.BadLine (blocks ++ settings.additionalBlock) index block fault) ∧
    (∀ shown fault, outcome.2 = .error (.malformedImport shown fault) ↔
      ∃ blocks files, inputs.blocks = .ok blocks ∧
        (∀ b ∈ blocks ++ settings.additionalBlock, ∀ e, ¬b.BadLine e) ∧ inputs.files = .ok files ∧
        ∃ index file, FirstFault (t.FileFault settings.repoRoot) files index file
          (.malformedImport shown fault)) ∧
    ∀ e, outcome.2 = .error e →
      (e.exitCode = 2 ∧ ((∃ fault, e = .malformedDirective fault) ∨
        ∃ shown fault, e = .malformedImport shown fault)) ∨
      (e.exitCode = 1 ∧ ∃ failure, e = .failed failure) := by
  intro outcome
  refine ⟨settings.additionalBlock_eq, fun e h => ?_, fun fault => ?_, fun shown fault => ?_,
    fun e h => ?_⟩
  · have hrun : t.migrateFrom settings inputs tool run = (outcome.1, .error e) := Prod.ext rfl h
    rcases migrateFrom_eq_error_iff.mp hrun with ⟨hplan, htree⟩ | ⟨rfl, merged, plan, -, hplan, -⟩
    · exact Or.inl ⟨htree, hplan⟩
    · exact Or.inr ⟨rfl, (merged, plan), hplan⟩
  · rw [migrateFrom_snd_eq_error_iff (by simp), planRun_eq_malformedDirective_iff]
  · rw [migrateFrom_snd_eq_error_iff (by simp), planRun_eq_malformedImport_iff]
  · cases e with
    | malformedDirective fault => exact Or.inl ⟨rfl, Or.inl ⟨fault, rfl⟩⟩
    | malformedImport shown fault => exact Or.inl ⟨rfl, Or.inr ⟨shown, fault, rfl⟩⟩
    | failed failure => exact Or.inr ⟨rfl, failure, rfl⟩

end Tree

end ImportMigration
