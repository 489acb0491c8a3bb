import ImportMigration.Proofs.Plans

/-! # Where a plan is written

A planned file is written at the path that its file was read at, and its copy beside it. Two paths
are the same file when they lead to one place, so a path that goes up is read as what it leads to in
the tree. Between paths that never go up it is enough to compare the paths themselves.

* `Path.IsPlain`: paths that only go down, which lead to different places if their steps differ.
* `Tree.BackupsApart`: no copy that a plan makes goes to a listed file.
* `Plan.PathsApart`, `Plan.ListedApart`: the same by the paths alone, for the files of a plan and
  for the files of a list.
* `Tree.readText?_planned`: what is read at a planned file after the writes of the plan.
* `Tree.change_written_where_read`: the path that a change is written to is the one its file was
  read at, component by component. -/

namespace ImportMigration

/-! ## Paths of files and of copies -/

/-- Whether a path only goes down, seen from wherever it is. -/
structure Path.IsPlain (p : Path) : Prop where
  /-- The path is seen from a place. -/
  relative : p.isAbsolute = false
  /-- No step goes up. -/
  down : ".." ∉ p.steps

instance (p : Path) : Decidable p.IsPlain :=
  decidable_of_iff (p.isAbsolute = false ∧ ".." ∉ p.steps)
    ⟨fun h => ⟨h.1, h.2⟩, fun h => ⟨h.relative, h.down⟩⟩

/-- What is appended to a relative path is appended to it below a root. -/
theorem Path.IsPlain.resolve_append {p : Path} {suffix : String} (hp : p.IsPlain)
    (hcopy : (p.append suffix).IsPlain) (root : Path) :
    (root.resolve p).append suffix = root.resolve (p.append suffix) := by
  simp only [resolve, join, hp.relative, hcopy.relative, Bool.false_eq_true, if_false]
  split_ifs <;> simp only [append, String.append_assoc]

namespace Tree

/-- Whether a place lies below where the root leads, by the steps of a path. -/
def LiesBelow (t : Tree) (root p : Path) (l : Location) : Prop :=
  ∃ base, t.follow? (t.startOf root) root.steps = some base ∧ l = base ++ p.steps

/-- A place lies below the root by the steps of one path at most. -/
theorem LiesBelow.steps_eq {t : Tree} {root p q : Path} {l : Location} (hp : t.LiesBelow root p l)
    (hq : t.LiesBelow root q l) : p.steps = q.steps := by
  obtain ⟨base, hbase, rfl⟩ := hp
  obtain ⟨other, hother, heq⟩ := hq
  obtain rfl := Option.some.inj (hbase.symm.trans hother)
  exact List.append_cancel_left heq

/-- A path that starts as a plain one seen from the root, and has its steps, leads to the place of
these steps there. -/
theorem liesBelow_of_locate? {t : Tree} {root p q : Path} {l : Location} (hp : p.IsPlain)
    (habs : (root.resolve p).isAbsolute = q.isAbsolute) (hsteps : (root.resolve p).steps = q.steps)
    (h : t.locate? q = some l) : t.LiesBelow root p l := by
  have hjoin : root.resolve p = root.join p := by
    rw [Path.resolve, if_neg (by simp [hp.relative])]
  rw [hjoin] at habs hsteps
  obtain ⟨-, hfollow, -⟩ := locate?_eq_some_iff.mp h
  rw [startOf, ← habs, ← hsteps, Path.isAbsolute_join hp.relative, ← startOf,
    Path.steps_join hp.relative, follow?_append] at hfollow
  obtain ⟨base, hbase, hnames⟩ := Option.bind_eq_some_iff.mp hfollow
  -- None of the steps is idle or goes up, so each of them enters what it names.
  have hstep : ∀ x ∈ p.steps, Path.isIdle x = false := fun x hx => by
    simpa using (List.mem_filter.mp hx).2
  exact ⟨base, hbase, follow?_names hstep hp.down hnames⟩

/-- Whether no copy that a plan makes goes to one of the listed files. -/
def BackupsApart (t : Tree) (root : Path) (backups : Option String) (plan : Plan)
    (files : List Path) : Prop :=
  ∀ c ∈ plan.changes, ∀ b ∈ c.backup? root backups, ∀ f ∈ files,
    t.locate? b ≠ t.locate? (root.resolve f)

instance (t : Tree) (root : Path) (backups : Option String) (plan : Plan) (files : List Path) :
    Decidable (t.BackupsApart root backups plan files) :=
  inferInstanceAs (Decidable (∀ c ∈ plan.changes, _))

end Tree

/-- Whether the paths of a plan are plain, those of its copies too, and no file has the path of a
copy. -/
structure Plan.PathsApart (backups : Option String) (plan : Plan) : Prop where
  /-- The paths of the files are plain. -/
  files : ∀ c ∈ plan.changes, c.path.IsPlain
  /-- The paths of the copies are plain. -/
  copies : ∀ c ∈ plan.changes, ∀ suffix ∈ backups, (c.path.append suffix).IsPlain
  /-- No file has the path of a copy. -/
  apart : ∀ c ∈ plan.changes, ∀ suffix ∈ backups, ∀ d ∈ plan.changes,
    (c.path.append suffix).steps ≠ d.path.steps

/-- Whether the paths of listed files, as a plan shows them, and of the copies that the plan makes
are plain and lie apart. -/
structure Plan.ListedApart (root : Path) (backups : Option String) (plan : Plan)
    (files : List Path) : Prop where
  /-- The paths of the files are plain. -/
  plain : ∀ f ∈ files, (root.withoutRoot (root.resolve f)).IsPlain
  /-- No two files have the same path. -/
  distinct : (files.map fun f => (root.withoutRoot (root.resolve f)).steps).Nodup
  /-- The paths of the copies are plain. -/
  copies : ∀ c ∈ plan.changes, ∀ suffix ∈ backups, (c.path.append suffix).IsPlain
  /-- No file has the path of a copy. -/
  apart : ∀ c ∈ plan.changes, ∀ suffix ∈ backups, ∀ f ∈ files,
    (c.path.append suffix).steps ≠ (root.withoutRoot (root.resolve f)).steps

namespace Tree

section Plan

variable {t : Tree} {root : Path} {table : DirectiveTable} {files : List Path} {plan : Plan}
  {backups : Option String}

/-! ## Carrying a plan out -/

/-- A planned file is written with its new text. -/
theorem mem_writes_of_mem_changes {c : PlannedFile} (hc : c ∈ plan.changes) :
    ⟨root.resolve c.path, c.after⟩ ∈ plan.writes root backups :=
  List.mem_flatMap.mpr ⟨c, hc, PlannedFile.mem_writes.mpr (Or.inr rfl)⟩

/-- A change that can be written is one of a file whose text can be read where the change goes. -/
theorem readText?_of_mem_changes (hplan : t.planFiles root table files = .ok plan) {c : PlannedFile}
    (hc : c ∈ plan.changes) (haccepts : t.accepts ⟨root.resolve c.path, c.after⟩ = true) :
    t.readText? (root.resolve c.path) = some c.before := by
  obtain ⟨f, -, hplanned⟩ := exists_of_mem_changes hplan hc
  obtain ⟨l, hl⟩ := Option.isSome_iff_exists.mp haccepts
  have hplace := locate?_of_target?_planned hplanned hl
  rw [readText?_congr ((target?_eq_some_iff.mp hl).1.trans hplace.symm)]
  exact (of_planFile_eq_some hplanned).1

/-! ## Paths that lie apart -/

/-- The copy of a file with a plain path lies below the root by its own path. -/
theorem liesBelow_copy {c : PlannedFile} {suffix : String} {l : Location} (hfile : c.path.IsPlain)
    (hcopy : (c.path.append suffix).IsPlain)
    (hl : t.locate? ((root.resolve c.path).append suffix) = some l) :
    t.LiesBelow root (c.path.append suffix) l := by
  rw [hfile.resolve_append hcopy] at hl
  exact liesBelow_of_locate? hcopy rfl rfl hl

/-- A listed file lies below the root by the path that a plan shows it by. -/
theorem liesBelow_listed {f : Path} {l : Location}
    (hf : (root.withoutRoot (root.resolve f)).IsPlain) (hl : t.locate? (root.resolve f) = some l) :
    t.LiesBelow root (root.withoutRoot (root.resolve f)) l :=
  have ⟨habs, hsteps⟩ := Path.resolve_withoutRoot root f
  liesBelow_of_locate? hf habs hsteps hl

/-- Where the paths of a plan that can be carried out lie apart, so do the places. -/
theorem backupsApart_of_pathsApart (hall : ∀ w ∈ plan.writes root backups, t.accepts w = true)
    (h : plan.PathsApart backups) :
    t.BackupsApart root backups plan (plan.changes.map (·.path)) := by
  intro c hc b hb f hf hsame
  obtain ⟨d, hd, rfl⟩ := List.mem_map.mp hf
  obtain ⟨suffix, hsuffix, rfl⟩ := Option.map_eq_some_iff.mp hb
  obtain ⟨l, hl⟩ := Option.isSome_iff_exists.mp (hall _ (mem_writes_of_mem_changes hd))
  have hfile : t.locate? (root.resolve d.path) = some l := (target?_eq_some_iff.mp hl).1
  have hcopy := liesBelow_copy (h.files c hc) (h.copies c hc suffix hsuffix) (hsame.trans hfile)
  exact h.apart c hc suffix hsuffix d hd
    (hcopy.steps_eq (liesBelow_of_locate? (h.files d hd) rfl rfl hfile))

/-- Where the paths of listed files lie apart, so do the places. -/
theorem backupsApart_of_listedApart (hplan : t.planFiles root table files = .ok plan)
    (h : plan.ListedApart root backups files) : t.BackupsApart root backups plan files := by
  intro c hc b hb f hf hsame
  obtain ⟨suffix, hsuffix, rfl⟩ := Option.map_eq_some_iff.mp hb
  obtain ⟨-, l, -, hl⟩ := exists_readText?_of_planFiles hplan hf
  obtain ⟨g, hg, hplanned⟩ := exists_of_mem_changes hplan hc
  have hpath := (of_planFile_eq_some hplanned).2
  -- One place would lie below the root by the steps of both paths.
  have hcopy := liesBelow_copy (hpath ▸ h.plain g hg) (h.copies c hc suffix hsuffix)
    (hsame.trans hl)
  exact h.apart c hc suffix hsuffix f hf (hcopy.steps_eq (liesBelow_listed (h.plain f hf) hl))

/-- Listed files whose paths lie apart lie at different places. -/
theorem nodup_locate?_of_listedApart (hplan : t.planFiles root table files = .ok plan)
    (h : plan.ListedApart root backups files) :
    (files.map fun f => t.locate? (root.resolve f)).Nodup := by
  refine List.pairwise_map.mpr ((List.pairwise_map.mp h.distinct).imp_of_mem ?_)
  intro f g hf hg hne hsame
  obtain ⟨-, l, -, hl⟩ := exists_readText?_of_planFiles hplan hg
  exact hne ((liesBelow_listed (h.plain f hf) (hsame.trans hl)).steps_eq
    (liesBelow_listed (h.plain g hg) hl))

/-! ## Files after the writes of a plan -/

/-- **A planned file ends with its new text** if no copy goes to it. -/
theorem readText?_planned (hplan : t.planFiles root table files = .ok plan)
    (hall : ∀ w ∈ plan.writes root backups, t.accepts w = true) {c : PlannedFile}
    (hc : c ∈ plan.changes) (hapart : t.BackupsApart root backups plan [c.path]) :
    (t.perform (plan.writes root backups)).1.readText? (root.resolve c.path) = some c.after := by
  have hwrite : ⟨root.resolve c.path, c.after⟩ ∈ plan.writes root backups :=
    mem_writes_of_mem_changes hc
  obtain ⟨l, hl⟩ := Option.isSome_iff_exists.mp (hall _ hwrite)
  have hplace : t.locate? (root.resolve c.path) = some l := (target?_eq_some_iff.mp hl).1
  obtain ⟨text, hleft⟩ := exists_leftBy_of_mem hwrite hl
  rw [readText?_perform hplace, List.takeWhile_eq_self_iff.mpr hall, hleft, Option.some_or,
    Option.some.injEq]
  -- The last write there is that of a planned file, which had the same text before.
  obtain ⟨w, hw, htarget, rfl⟩ := exists_of_leftBy_eq_some hleft
  obtain ⟨d, hd, hmem⟩ := List.mem_flatMap.mp hw
  have hother := (target?_eq_some_iff.mp htarget).1
  rcases PlannedFile.mem_writes.mp hmem with ⟨b, hb, rfl⟩ | rfl
  · exact absurd (hother.trans hplace.symm) (hapart d hd b hb c.path List.mem_cons_self)
  · have hbefore : d.before = c.before := by
      have hread := readText?_of_mem_changes hplan hc (hall _ hwrite)
      rw [← readText?_congr (hother.trans hplace.symm),
        readText?_of_mem_changes hplan hd (hall _ hw)] at hread
      exact Option.some.inj hread
    obtain ⟨revised, hrevised, hafter⟩ := exists_revision_of_mem_changes hplan hd
    obtain ⟨revised', hrevised', hafter'⟩ := exists_revision_of_mem_changes hplan hc
    rw [hbefore, hrevised'] at hrevised
    obtain rfl := Option.some.inj (Except.ok.inj hrevised)
    exact hafter.trans hafter'.symm

/-- **A file that was read ends with its new text** when the plan is carried out to its end and no
copy goes to it. -/
theorem readText?_of_applyPlan (hplan : t.planFiles root table files = .ok plan) {f : Path}
    {c : PlannedFile} (hplanned : t.planFile root table f = .ok (some c)) (hc : c ∈ plan.changes)
    {t' : Tree} {results : List FileResult}
    (happly : t.applyPlan root false backups plan = (t', .ok results))
    (hapart : t.BackupsApart root backups plan [f]) :
    t'.readText? (root.resolve f) = some c.after := by
  obtain ⟨hall, -⟩ := applyPlan_eq_ok_iff.mp (congrArg Prod.snd happly)
  obtain ⟨l, hl⟩ := Option.isSome_iff_exists.mp (hall _ (mem_writes_of_mem_changes hc))
  have hsame : t.locate? (root.resolve c.path) = t.locate? (root.resolve f) :=
    (target?_eq_some_iff.mp hl).1.trans (locate?_of_target?_planned hplanned hl).symm
  obtain rfl : (t.perform (plan.writes root backups)).1 = t' := by
    rw [← applyPlan_fst, happly]
  -- The writes leave every path where it leads, so the two paths still lead to one place.
  have hdirs := sameDirs_perform t (plan.writes root backups)
  rw [readText?_congr ((hdirs.locate? _).trans (hsame.symm.trans (hdirs.locate? _).symm))]
  refine readText?_planned hplan hall hc fun d hd b hb p hp => ?_
  obtain rfl := List.mem_singleton.mp hp
  rw [hsame]
  exact hapart d hd b hb f List.mem_cons_self

end Plan

/-- **A change is written to the path its file was read at.** Shown without the root and seen from
the root again, a resolved path has the components it had. So for each change of a plan there is a
listed file whose text the change starts from, and the path that the change is written to has the
components of the path at which that file was read. It leads to that file if it can be used and the
path is not the root itself. When the plan is carried out to its end and no copy goes to that file,
the new text is what is read at the path where the old one was. -/
theorem change_written_where_read (root : Path) :
    (∀ f, (root.resolve (root.withoutRoot (root.resolve f))).components =
      (root.resolve f).components) ∧
    ∀ (t : Tree) (table : DirectiveTable) (files : List Path) (plan : Plan),
      t.planFiles root table files = .ok plan → ∀ c ∈ plan.changes,
        (∀ backups, ⟨root.resolve c.path, c.after⟩ ∈ plan.writes root backups) ∧
        ∃ f ∈ files, t.readText? (root.resolve f) = some c.before ∧
          c.path = root.withoutRoot (root.resolve f) ∧
          (root.resolve c.path).components = (root.resolve f).components ∧
          (root.same (root.resolve f) = false → (root.resolve c.path).isUsable = true →
            t.target? (root.resolve c.path) = t.locate? (root.resolve f)) ∧
          ∀ backups t' results, t.applyPlan root false backups plan = (t', .ok results) →
            t.BackupsApart root backups plan [f] →
              t'.readText? (root.resolve f) = some c.after := by
  refine ⟨Path.components_resolve_withoutRoot root, fun t table files plan hplan c hc => ⟨?_, ?_⟩⟩
  · intro backups
    exact mem_writes_of_mem_changes hc
  · obtain ⟨f, hf, hplanned⟩ := exists_of_mem_changes hplan hc
    obtain ⟨hread, hpath⟩ := of_planFile_eq_some hplanned
    refine ⟨f, hf, hread, hpath, ?_, ?_, ?_⟩
    · rw [hpath]
      exact Path.components_resolve_withoutRoot root f
    · rw [hpath]
      exact target?_resolve_withoutRoot hread
    · intro backups t' results happly hapart
      exact readText?_of_applyPlan hplan hplanned hc happly hapart

/-- A repository with one source file, seen from the directory above it. -/
def nestedSource : Tree where
  nodes := [(["r"], .directory), (["r", "src"], .directory),
    (["r", "src", "A.kt"], .file (.text "import com.old.Test\n"))]
  workingDirectory := []

/-- The plan for that file where a class moves. -/
def nestedSourcePlan : Plan where
  filesScanned := 1
  changes := [⟨⟨"src/A.kt"⟩, "import com.old.Test\n", "import com.new.Test\n", 1, 1⟩]

/-- A file that is listed with idle pieces in its path is shown without those at its start, the
change is written to the file, and its new text is read where it is listed. -/
theorem change_written_where_read_idle_pieces :
    nestedSource.planFiles ⟨"./r/"⟩ .movedTest [⟨".//src/A.kt"⟩] = .ok nestedSourcePlan ∧
      (Path.resolve ⟨"./r/"⟩ ⟨".//src/A.kt"⟩).text = "./r/.//src/A.kt" ∧
      (Path.resolve ⟨"./r/"⟩ ⟨"src/A.kt"⟩).components =
        (Path.resolve ⟨"./r/"⟩ ⟨".//src/A.kt"⟩).components ∧
      nestedSource.target? (Path.resolve ⟨"./r/"⟩ ⟨"src/A.kt"⟩) = some ["r", "src", "A.kt"] ∧
      ∃ t' results,
        nestedSource.applyPlan ⟨"./r/"⟩ false (some ".bak") nestedSourcePlan = (t', .ok results) ∧
        t'.readText? (Path.resolve ⟨"./r/"⟩ ⟨".//src/A.kt"⟩) = some "import com.new.Test\n" := by
  have hplan : nestedSource.planFiles ⟨"./r/"⟩ .movedTest [⟨".//src/A.kt"⟩] =
      .ok nestedSourcePlan := by decide +kernel
  obtain ⟨-, f, hf, -, -, hsame, hwritten, happlied⟩ := (change_written_where_read ⟨"./r/"⟩).2
    nestedSource .movedTest [⟨".//src/A.kt"⟩] nestedSourcePlan hplan _ List.mem_cons_self
  obtain rfl := List.mem_singleton.mp hf
  have hresults : (nestedSource.applyPlan ⟨"./r/"⟩ false (some ".bak") nestedSourcePlan).2 =
      .ok (nestedSourcePlan.changes.map (·.writtenResult (some ".bak"))) :=
    applyPlan_eq_ok_iff.mpr ⟨by decide +kernel, rfl⟩
  have happly := Prod.ext (rfl : _ = (nestedSource.applyPlan _ false _ nestedSourcePlan).1) hresults
  refine ⟨hplan, by decide, hsame, (hwritten (by decide +kernel) (by decide +kernel)).trans ?_,
    _, _, happly, happlied _ _ _ happly (by decide +kernel)⟩
  decide +kernel

end Tree

end ImportMigration
