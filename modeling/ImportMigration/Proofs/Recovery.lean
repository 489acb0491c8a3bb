import ImportMigration.Proofs.SecondRun
import ImportMigration.Proofs.WrittenPaths

/-! # Recovery from an interrupted run

Carrying a plan out may stop after any of its writes. Every listed file then holds its old or its
new text, and planning the same files again gives what is left to do.

* `Tree.exists_revision_of_leftBy`: the writes of a plan leave no text at a listed file but its new
  one.
* `Tree.planFile_stopped`: after a stop, a file that was reached is planned without a change and any
  other as before.
* `Tree.accepts_of_reached`: a file that was reached was written in full, its copy included.
* `Tree.planFiles_stopped`: an interrupted run is completed by running again. -/

namespace ImportMigration

/-! ## Runs over lists of writes -/

section Runs

variable {α β : Type*} {accepted : β → Bool} {ws : α → List β} {xs : List α}

/-- What a run over several lists takes, it takes from one of them. -/
theorem exists_mem_takeWhile_of_flatMap {w : β} (h : w ∈ (xs.flatMap ws).takeWhile accepted) :
    ∃ x ∈ xs, w ∈ (ws x).takeWhile accepted := by
  induction xs with
  | nil => simp at h
  | cons x rest ih =>
    rw [List.flatMap_cons, List.takeWhile_append] at h
    split_ifs at h with hwhole
    · rcases List.mem_append.mp h with hfirst | hrest
      · have hstart : (ws x).takeWhile accepted <+: ws x := List.takeWhile_prefix accepted
        refine ⟨x, List.mem_cons_self, ?_⟩
        rwa [hstart.eq_of_length hwhole]
      · obtain ⟨y, hy, hmem⟩ := ih hrest
        exact ⟨y, List.mem_cons_of_mem x hy, hmem⟩
    · exact ⟨x, List.mem_cons_self, h⟩

/-- A run takes an item of some kind also without lists that it takes whole and that have none. -/
theorem exists_mem_takeWhile_flatMap_skip {skip : α → Bool} {P : β → Prop}
    (h : ∀ x ∈ xs, skip x = true → ∀ w ∈ ws x, accepted w = true ∧ ¬P w) :
    (∃ w ∈ (xs.flatMap fun x => if skip x then [] else ws x).takeWhile accepted, P w) ↔
      ∃ w ∈ (xs.flatMap ws).takeWhile accepted, P w := by
  induction xs with
  | nil => rfl
  | cons x rest ih =>
    have hrest := ih fun y hy => h y (List.mem_cons_of_mem x hy)
    rw [List.flatMap_cons, List.flatMap_cons]
    cases hskip : skip x with
    | true =>
      have hx := h x List.mem_cons_self hskip
      -- The run takes the skipped list whole, so it comes to the others either way.
      rw [if_pos rfl, List.nil_append, hrest,
        List.takeWhile_append_of_pos fun w hw => (hx w hw).1]
      simp only [List.mem_append, or_and_right, exists_or]
      constructor
      · exact Or.inr
      · rintro (⟨w, hw, hP⟩ | hlater)
        · exact absurd hP (hx w hw).2
        · exact hlater
    | false =>
      rw [if_neg Bool.false_ne_true, List.takeWhile_append, List.takeWhile_append]
      split_ifs
      · simp only [List.mem_append, or_and_right, exists_or, hrest]
      · rfl

/-- What a run takes from the start of a list, it takes from the list. -/
theorem takeWhile_subset_of_prefix {l m : List β} (h : l <+: m) :
    l.takeWhile accepted ⊆ m.takeWhile accepted := by
  obtain ⟨rest, rfl⟩ := h
  rw [List.takeWhile_append]
  split_ifs
  · exact fun w hw => List.mem_append_left _ (List.takeWhile_subset _ hw)
  · exact List.Subset.refl _

end Runs

namespace Tree

/-- Whether writes have reached the file of a list that a path denotes. -/
def reached (t : Tree) (root : Path) (ws : List FileWrite) (file : Path) : Bool :=
  ((t.locate? (root.resolve file)).bind (t.leftBy (ws.takeWhile t.accepts))).isSome

section Plan

variable {t : Tree} {root : Path} {table : DirectiveTable} {files : List Path} {plan : Plan}
  {backups : Option String} (hplan : t.planFiles root table files = .ok plan)

/-! ## What the writes of a plan put at listed files -/

variable (hbackups : t.BackupsApart root backups plan files)

include hplan hbackups

/-- A write for a file that goes to a listed file is that of the file itself, with its new text. -/
theorem of_mem_writesFor {f g : Path} (hf : f ∈ files) (hg : g ∈ files) {l : Location}
    (hl : t.locate? (root.resolve f) = some l) {w : FileWrite}
    (hw : w ∈ t.writesFor root table backups g) (htarget : t.target? w.path = some l) :
    ∃ c, t.planFile root table g = .ok (some c) ∧ w = ⟨root.resolve c.path, c.after⟩ ∧
      t.locate? (root.resolve g) = some l := by
  obtain ⟨hall, hchanges⟩ := planFiles_eq_ok_iff.mp hplan
  obtain ⟨change, hplanned⟩ := hall g hg
  have hchange := change?_of_planFile hplanned
  obtain ⟨c, hc, hmem⟩ := List.mem_flatMap.mp hw
  rw [hchange, Option.mem_toList] at hc
  subst hc
  rcases PlannedFile.mem_writes.mp hmem with ⟨b, hb, rfl⟩ | rfl
  · -- A copy goes to no listed file.
    have hcmem : c ∈ plan.changes := by
      rw [hchanges]
      exact List.mem_filterMap.mpr ⟨g, hg, hchange⟩
    have happart := hbackups c hcmem b hb f hf
    exact absurd ((target?_eq_some_iff.mp htarget).1.trans hl.symm) happart
  · exact ⟨c, hplanned, rfl, locate?_of_target?_planned hplanned htarget⟩

/-- **The writes of a plan leave no text at a listed file but its new one.** -/
theorem exists_revision_of_leftBy {f : Path} (hf : f ∈ files) {l : Location}
    (hl : t.locate? (root.resolve f) = some l) {old : String}
    (hold : t.readText? (root.resolve f) = some old) {ws : List FileWrite}
    (hws : ws ⊆ plan.writes root backups) {text : String} (htext : t.leftBy ws l = some text) :
    ∃ out, table.reviseText old = .ok (some out) ∧ text = out.content := by
  obtain ⟨w, hw, htarget, rfl⟩ := exists_of_leftBy_eq_some htext
  have hmem := hws hw
  rw [writes_of_planFiles hplan] at hmem
  obtain ⟨g, hg, hwg⟩ := List.mem_flatMap.mp hmem
  obtain ⟨c, hplanned, rfl, hlocate⟩ := of_mem_writesFor hplan hbackups hf hg hl hwg htarget
  obtain ⟨before, revised, hread, hrevise, hchange⟩ := planFile_eq_ok_iff.mp hplanned
  obtain ⟨out, rfl, rfl⟩ := Option.map_eq_some_iff.mp hchange.symm
  -- Both paths lead to one place, so the texts read there are the same.
  have hsame : before = old := by
    rw [readText?_congr (hlocate.trans hl.symm), hold] at hread
    exact (Option.some.inj hread).symm
  exact ⟨out, hsame ▸ hrevise, rfl⟩

/-- Writes of a plan that both reach a listed file, or both do not, leave the same there. -/
theorem leftBy_congr {f : Path} (hf : f ∈ files) {l : Location}
    (hl : t.locate? (root.resolve f) = some l) {ws vs : List FileWrite}
    (hws : ws ⊆ plan.writes root backups) (hvs : vs ⊆ plan.writes root backups)
    (hreach : (∃ w ∈ ws, t.target? w.path = some l) ↔ ∃ w ∈ vs, t.target? w.path = some l) :
    t.leftBy ws l = t.leftBy vs l := by
  obtain ⟨old, -, hold, -⟩ := exists_readText?_of_planFiles hplan hf
  have hnone : t.leftBy ws l = none ↔ t.leftBy vs l = none := by
    rw [leftBy_eq_none_iff, leftBy_eq_none_iff]
    simpa using not_congr hreach
  cases hw : t.leftBy ws l with
  | none => exact (hnone.mp hw).symm
  | some text =>
    cases hv : t.leftBy vs l with
    | none => exact absurd (hnone.mpr hv) (by simp [hw])
    | some other =>
      -- Both are the new text of the file.
      obtain ⟨out, hout, rfl⟩ := exists_revision_of_leftBy hplan hbackups hf hl hold hws hw
      obtain ⟨out', hout', rfl⟩ := exists_revision_of_leftBy hplan hbackups hf hl hold hvs hv
      rw [hout] at hout'
      cases hout'
      rfl

/-! ## Files after a stop -/

variable {ws : List FileWrite}

omit hplan hbackups in
/-- A file was reached when one of the writes up to the first that fails goes to its place. -/
theorem reached_iff {f : Path} {l : Location} (hl : t.locate? (root.resolve f) = some l) :
    t.reached root ws f = true ↔ ∃ w ∈ ws.takeWhile t.accepts, t.target? w.path = some l := by
  rw [reached, hl, Option.bind_some, Option.isSome_iff_ne_none, Ne, leftBy_eq_none_iff]
  push Not
  rfl

omit hplan hbackups in
/-- A file that was not reached is read as before. -/
theorem readText?_of_not_reached {f : Path} {l : Location}
    (hl : t.locate? (root.resolve f) = some l) (h : t.reached root ws f = false) :
    (t.perform ws).1.readText? (root.resolve f) = t.readText? (root.resolve f) := by
  have hleft : t.leftBy (ws.takeWhile t.accepts) l = none := by simpa [reached, hl] using h
  rw [readText?_perform hl, hleft, Option.none_or]

/-- A file that was reached holds its new text. -/
theorem readText?_of_reached (hws : ws ⊆ plan.writes root backups) {f : Path} (hf : f ∈ files)
    {old : String} (hold : t.readText? (root.resolve f) = some old)
    (h : t.reached root ws f = true) :
    ∃ out, table.reviseText old = .ok (some out) ∧
      (t.perform ws).1.readText? (root.resolve f) = some out.content := by
  obtain ⟨l, hl, -⟩ := readText?_eq_some_iff.mp hold
  obtain ⟨text, htext⟩ : ∃ text, t.leftBy (ws.takeWhile t.accepts) l = some text := by
    simpa [reached, hl, Option.isSome_iff_exists] using h
  obtain ⟨out, hrevise, rfl⟩ := exists_revision_of_leftBy hplan hbackups hf hl hold
    (fun w hw => hws (List.takeWhile_subset _ hw)) htext
  refine ⟨out, hrevise, ?_⟩
  rw [readText?_perform hl, htext, Option.some_or]

/-- **A file that was reached was written in full**: its copy and the file itself could be written,
provided that no other file of the list lies at its place. -/
theorem accepts_of_reached (hdistinct : (files.map fun f => t.locate? (root.resolve f)).Nodup)
    (hws : ws <+: plan.writes root backups) {f : Path} (hf : f ∈ files)
    (h : t.reached root ws f = true) :
    ∀ w ∈ t.writesFor root table backups f, t.accepts w = true := by
  obtain ⟨-, l, -, hl⟩ := exists_readText?_of_planFiles hplan hf
  obtain ⟨w, hw, htarget⟩ := (reached_iff hl).mp h
  have hrun := takeWhile_subset_of_prefix hws hw
  rw [writes_of_planFiles hplan] at hrun
  obtain ⟨g, hg, hwg⟩ := exists_mem_takeWhile_of_flatMap hrun
  obtain ⟨c, hplanned, rfl, hgl⟩ :=
    of_mem_writesFor hplan hbackups hf hg hl (List.takeWhile_subset _ hwg) htarget
  obtain rfl : g = f := List.inj_on_of_nodup_map hdistinct hg hf (hgl.trans hl.symm)
  -- The write is the last one for the file, so the run took the copy before it too.
  have hwrites : t.writesFor root table backups g = c.writes root backups := by
    rw [writesFor, change?_of_planFile hplanned, Option.toList_some, List.flatMap_singleton]
  have hfile := List.mem_takeWhile_imp hwg
  rw [hwrites, PlannedFile.writes_eq] at hwg ⊢
  cases backups with
  | none => simpa [PlannedFile.backup?] using hfile
  | some suffix =>
    by_cases hcopy : t.accepts ⟨(root.resolve c.path).append suffix, c.before⟩ = true
    · simp [PlannedFile.backup?, hcopy, hfile]
    · simp [PlannedFile.backup?, hcopy] at hwg

/-! ## Planning after a stop -/

omit hplan hbackups in
/-- A file that is read alike in two trees is planned alike. -/
theorem planFile_congr {u : Tree} {f : Path}
    (h : t.readText? (root.resolve f) = u.readText? (root.resolve f)) :
    t.planFile root table f = u.planFile root table f := by
  rw [planFile, planFile, planAt, planAt, h]

variable {blocks : List DirectiveBlock} (htable : DirectiveTable.ofBlocks blocks = .ok table)
  (hchain : table.Unchained)

include htable hchain

/-- **A file after a stop** is planned without a change if it was reached, and as before if not. -/
theorem planFile_stopped (hws : ws ⊆ plan.writes root backups) {f : Path} (hf : f ∈ files) :
    (t.perform ws).1.planFile root table f =
      .ok (if t.reached root ws f then none else t.change? root table f) := by
  obtain ⟨change, hplanned⟩ := (planFiles_eq_ok_iff.mp hplan).1 f hf
  obtain ⟨old, l, hold, hl⟩ := exists_readText?_of_planFiles hplan hf
  cases hreached : t.reached root ws f with
  | false =>
    rw [planFile_congr (readText?_of_not_reached hl hreached), hplanned,
      change?_of_planFile hplanned]
    rfl
  | true =>
    obtain ⟨out, hrevise, hread⟩ := readText?_of_reached hplan hbackups hws hf hold hreached
    -- The imports of the new text are a repaired list, which is at rest.
    have hlawful := DirectiveTable.lawful_ofBlocks htable
    obtain ⟨specs, hreads, hchanged, rfl⟩ := DirectiveTable.of_reviseText_eq_some hrevise
    have hrevised := hlawful.readsImports_revisedText hreads
      (DirectiveTable.ne_nil_of_repairAll_ne hchanged)
    have hrest := hlawful.reviseText_of_readsImports_repairAll hchain hreads.canonical hrevised
    exact planFile_eq_ok_iff.mpr ⟨_, none, hread, hrest, rfl⟩

/-- **What a second plan writes**: what the first has for the files that were not reached. -/
theorem writes_of_planFiles_stopped (hws : ws ⊆ plan.writes root backups) {rest : Plan}
    (hrest : (t.perform ws).1.planFiles root table files = .ok rest) :
    rest.writes root backups = files.flatMap fun f =>
      if t.reached root ws f then [] else t.writesFor root table backups f := by
  rw [writes_of_planFiles hrest]
  refine List.flatMap_congr fun f hf => ?_
  have hplanned := planFile_stopped hplan hbackups htable hchain hws hf
  rw [writesFor, change?_of_planFile hplanned, writesFor]
  cases t.reached root ws f <;> rfl

/-- A second plan has no writes that the first has not. -/
theorem writes_subset_of_planFiles_stopped (hws : ws ⊆ plan.writes root backups) {rest : Plan}
    (hrest : (t.perform ws).1.planFiles root table files = .ok rest) :
    rest.writes root backups ⊆ plan.writes root backups := by
  rw [writes_of_planFiles_stopped hplan hbackups htable hchain hws hrest, writes_of_planFiles hplan]
  intro w hw
  obtain ⟨f, hf, hmem⟩ := List.mem_flatMap.mp hw
  split_ifs at hmem with hreached
  · simp at hmem
  · exact List.mem_flatMap.mpr ⟨f, hf, hmem⟩

variable (hws : ws <+: plan.writes root backups)
  (hfull : ∀ f ∈ files, t.reached root ws f = true →
    ∀ w ∈ t.writesFor root table backups f, t.accepts w = true)

include hws hfull

/-- **A stopped run and a second one reach what the whole plan reaches**, if the files that were
reached were written in full. -/
theorem reaches_stopped_iff {rest : Plan}
    (hrest : (t.perform ws).1.planFiles root table files = .ok rest) {f : Path} (hf : f ∈ files)
    {l : Location} (hl : t.locate? (root.resolve f) = some l) :
    (∃ w ∈ ws.takeWhile t.accepts ++ (rest.writes root backups).takeWhile t.accepts,
        t.target? w.path = some l) ↔
      ∃ w ∈ (plan.writes root backups).takeWhile t.accepts, t.target? w.path = some l := by
  simp only [List.mem_append, or_and_right, exists_or]
  rw [← reached_iff hl]
  cases hreached : t.reached root ws f with
  | true =>
    obtain ⟨w, hw, htarget⟩ := (reached_iff hl).mp hreached
    exact iff_of_true (Or.inl rfl) ⟨w, takeWhile_subset_of_prefix hws hw, htarget⟩
  | false =>
    rw [writes_of_planFiles_stopped hplan hbackups htable hchain hws.subset hrest,
      writes_of_planFiles hplan, exists_mem_takeWhile_flatMap_skip]
    · simp
    · -- A file that was reached lies elsewhere, so none of its writes goes to this one.
      intro g hg hskip w hw
      refine ⟨hfull g hg hskip w hw, fun htarget => ?_⟩
      obtain ⟨-, -, -, hgl⟩ := of_mem_writesFor hplan hbackups hf hg hl hw htarget
      rw [reached, hgl, ← hl] at hskip
      exact Bool.false_ne_true (hreached.symm.trans hskip)

/-- A second run leaves at every listed file what the whole plan leaves there. -/
theorem readText?_rerun {rest : Plan}
    (hrest : (t.perform ws).1.planFiles root table files = .ok rest) {f : Path} (hf : f ∈ files) :
    ((t.perform ws).1.perform (rest.writes root backups)).1.readText? (root.resolve f) =
      (t.perform (plan.writes root backups)).1.readText? (root.resolve f) := by
  obtain ⟨-, l, -, hl⟩ := exists_readText?_of_planFiles hplan hf
  have hdirs := sameDirs_perform t ws
  have hsubset := writes_subset_of_planFiles_stopped hplan hbackups htable hchain hws.subset hrest
  have hreach := reaches_stopped_iff hplan hbackups htable hchain hws hfull hrest hf hl
  have hleft := leftBy_congr hplan hbackups hf hl
    (List.append_subset.mpr ⟨fun _ hw => hws.subset (List.takeWhile_subset _ hw),
      fun _ hw => hsubset (List.takeWhile_subset _ hw)⟩) (List.takeWhile_subset _) hreach
  -- The two runs leave what the writes of both in a row leave.
  rw [readText?_perform ((hdirs.locate? _).trans hl), hdirs.accepts, hdirs.leftBy,
    readText?_perform hl, ← Option.or_assoc, ← leftBy_append, hleft, ← readText?_perform hl]

end Plan

/-- **An interrupted run is completed by running again.** Let the directives of a table be at rest
and the copies of a plan lie apart from the listed files. If carrying the plan out stops after any
number of writes, every listed file holds its old or its new text, and the files can be planned
again. Carrying that out leaves at every listed file what the plan would have left without the stop,
provided that the files lie at different places or that the plan can be carried out to its end; in
the second case so can the new one.

Whether two paths are one file is told by where they lead in the tree, so a path that goes up is
read as what it leads to: `a/../A.kt` is `A.kt` wherever `a` is a directory. If none of the paths
goes up, it is enough that the paths differ by their steps. -/
theorem planFiles_stopped {t : Tree} {root : Path} {blocks : List DirectiveBlock}
    {table : DirectiveTable} {files : List Path} {plan : Plan} {backups : Option String}
    (htable : DirectiveTable.ofBlocks blocks = .ok table) (hchain : table.Unchained)
    (hplan : t.planFiles root table files = .ok plan)
    (hapart : t.BackupsApart root backups plan files ∨ plan.ListedApart root backups files)
    (stop : Nat) :
    let stopped := (t.perform ((plan.writes root backups).take stop)).1
    let completes := ∃ results, (t.applyPlan root false backups plan).2 = .ok results
    (∀ f ∈ files, ∃ old, t.readText? (root.resolve f) = some old ∧
      (stopped.readText? (root.resolve f) = some old ∨
        ∃ out, table.reviseText old = .ok (some out) ∧
          stopped.readText? (root.resolve f) = some out.content)) ∧
    ∃ rest, stopped.planFiles root table files = .ok rest ∧
      ((files.map fun f => t.locate? (root.resolve f)).Nodup ∨
          plan.ListedApart root backups files ∨ completes → ∀ f ∈ files,
        (stopped.applyPlan root false backups rest).1.readText? (root.resolve f) =
          (t.applyPlan root false backups plan).1.readText? (root.resolve f)) ∧
      (completes → ∃ results, (stopped.applyPlan root false backups rest).2 = .ok results) := by
  intro stopped completes
  have hbackups : t.BackupsApart root backups plan files :=
    hapart.elim id (backupsApart_of_listedApart hplan)
  have hws : (plan.writes root backups).take stop <+: plan.writes root backups :=
    List.take_prefix _ _
  have hagain : ∀ f ∈ files, ∃ change, stopped.planFile root table f = .ok change := fun f hf =>
    ⟨_, planFile_stopped hplan hbackups htable hchain hws.subset hf⟩
  have hrest := planFiles_eq_ok_iff.mpr ⟨hagain, rfl⟩
  refine ⟨fun f hf => ?_, _, hrest, fun hcase f hf => ?_, ?_⟩
  · obtain ⟨old, l, hold, hl⟩ := exists_readText?_of_planFiles hplan hf
    refine ⟨old, hold, ?_⟩
    cases hreached : t.reached root ((plan.writes root backups).take stop) f with
    | false => exact Or.inl ((readText?_of_not_reached hl hreached).trans hold)
    | true => exact Or.inr (readText?_of_reached hplan hbackups hws.subset hf hold hreached)
  · rw [applyPlan_fst, applyPlan_fst]
    refine readText?_rerun hplan hbackups htable hchain hws (fun g hg hreached => ?_) hrest hf
    -- What was reached was written in full in either case.
    rcases hcase with hdistinct | hlisted | ⟨results, hresults⟩
    · exact accepts_of_reached hplan hbackups hdistinct hws hg hreached
    · have hdistinct := nodup_locate?_of_listedApart hplan hlisted
      exact accepts_of_reached hplan hbackups hdistinct hws hg hreached
    · intro w hw
      refine (applyPlan_eq_ok_iff.mp hresults).1 w ?_
      rw [writes_of_planFiles hplan]
      exact List.mem_flatMap.mpr ⟨g, hg, hw⟩
  · rintro ⟨results, hresults⟩
    refine ⟨_, applyPlan_eq_ok_iff.mpr ⟨fun w hw => ?_, rfl⟩⟩
    have hsubset := writes_subset_of_planFiles_stopped hplan hbackups htable hchain hws.subset hrest
    rw [(sameDirs_perform t _).accepts]
    exact (applyPlan_eq_ok_iff.mp hresults).1 w (hsubset hw)

/-- A tree with two source files. -/
def twoSources : Tree where
  nodes := [(["A.kt"], .file (.text "import com.old.Test\n")),
    (["B.kt"], .file (.text "import com.old.*\n"))]
  workingDirectory := []

/-- The plan for them where a class moves. -/
def twoSourcesPlan : Plan where
  filesScanned := 2
  changes :=
    [⟨⟨"A.kt"⟩, "import com.old.Test\n", "import com.new.Test\n", 1, 1⟩,
      ⟨⟨"B.kt"⟩, "import com.old.*\n", "import com.new.*\nimport com.old.*\n", 1, 2⟩]

/-- A run over two files that stops right after the copy of the second was made, and the run that
completes it. -/
theorem planFiles_stopped_second_copy :
    ∃ rest : Plan,
      let root : Path := ⟨"."⟩
      let files : List Path := [⟨"A.kt"⟩, ⟨"B.kt"⟩]
      let stopped := (twoSources.perform ((twoSourcesPlan.writes root (some ".bak")).take 3)).1
      DirectiveTable.ofBlocks [⟨"a", "MOVE com.old.Test -> com.new.Test"⟩] =
          .ok DirectiveTable.movedTest ∧
        DirectiveTable.movedTest.Unchained ∧
        twoSources.planFiles root .movedTest files = .ok twoSourcesPlan ∧
        twoSources.BackupsApart root (some ".bak") twoSourcesPlan files ∧
        (files.map fun f => twoSources.locate? (root.resolve f)).Nodup ∧
        twoSourcesPlan.ListedApart root (some ".bak") files ∧
        stopped.readText? ⟨"A.kt"⟩ = some "import com.new.Test\n" ∧
        stopped.readText? ⟨"B.kt"⟩ = some "import com.old.*\n" ∧
        stopped.planFiles root .movedTest files = .ok rest ∧
        ∀ f ∈ files,
          (stopped.applyPlan root false (some ".bak") rest).1.readText? (root.resolve f) =
            (twoSources.applyPlan root false (some ".bak") twoSourcesPlan).1.readText?
              (root.resolve f) := by
  have hchain : DirectiveTable.movedTest.Unchained := by decide +kernel
  have hplan : twoSources.planFiles ⟨"."⟩ .movedTest [⟨"A.kt"⟩, ⟨"B.kt"⟩] = .ok twoSourcesPlan := by
    decide +kernel
  have hbackups : twoSources.BackupsApart ⟨"."⟩ (some ".bak") twoSourcesPlan
      [⟨"A.kt"⟩, ⟨"B.kt"⟩] := by
    decide +kernel
  have hdistinct : ([⟨"A.kt"⟩, ⟨"B.kt"⟩].map fun f : Path =>
      twoSources.locate? (Path.resolve ⟨"."⟩ f)).Nodup := by
    decide +kernel
  have hlisted : twoSourcesPlan.ListedApart ⟨"."⟩ (some ".bak") [⟨"A.kt"⟩, ⟨"B.kt"⟩] :=
    ⟨by decide +kernel, by decide +kernel, by decide +kernel, by decide +kernel⟩
  obtain ⟨-, rest, hrest, hsame, -⟩ :=
    planFiles_stopped DirectiveTable.ofBlocks_movedTest hchain hplan (Or.inl hbackups) 3
  exact ⟨rest, DirectiveTable.ofBlocks_movedTest, hchain, hplan, hbackups, hdistinct, hlisted,
    by decide +kernel, by decide +kernel, hrest, hsame (Or.inl hdistinct)⟩

end Tree

end ImportMigration
