import ImportMigration.Proofs.LineSplitting
import ImportMigration.Proofs.Repairs
import ImportMigration.Revision

/-! # The imports of a revised file

Revising a file repairs the list of its imports: the import lines of the new text are read, in
order, as the repaired list. The lines that are written are read back, and joining all lines by the
line end of the file keeps them apart.

* `ReadsImports`: lines whose import lines are read as a list of specs.
* `DirectiveTable.reviseLines_eq`, `DirectiveTable.reviseText_eq`: what revising answers.
* `DirectiveTable.Lawful.readsImports_revisedText`: the new text is read as the repaired list.
* `DirectiveTable.reviseText_refines_repairAll`: revising texts and repairing lists. -/

namespace ImportMigration

/-- The lines of a text. -/
def sourceLines (text : String) : List String := (Text.lines text.toList).map String.ofList

/-- The texts behind `import ` of the import lines among some lines, in order. -/
def importTexts (lines : List String) : List String := lines.filterMap importText?

/-- Whether the import lines among some lines are all read, and as which specs. -/
def ReadsImports (lines : List String) (specs : List ImportSpec) : Prop :=
  (importTexts lines).map ImportSpec.parse = specs.map .ok

/-- Specs that import lines are read as are canonical. -/
theorem ReadsImports.canonical {lines : List String} {specs : List ImportSpec}
    (h : ReadsImports lines specs) : ∀ s ∈ specs, s.Canonical := by
  intro s hs
  have hmem : Except.ok s ∈ (importTexts lines).map ImportSpec.parse := by
    rw [h]
    exact List.mem_map_of_mem hs
  obtain ⟨text, -, hparse⟩ := List.mem_map.mp hmem
  exact ImportSpec.canonical_of_parse hparse

/-- There are as many import lines as specs they are read as. -/
theorem ReadsImports.countP_eq {lines : List String} {specs : List ImportSpec}
    (h : ReadsImports lines specs) : lines.countP isImportLine = specs.length := by
  have hlength : (importTexts lines).length = specs.length := by
    simpa using congrArg List.length h
  rw [← hlength]
  exact List.length_filterMap_eq_countP.symm

/-- The spec texts of lines in a row. -/
theorem importTexts_append (lines others : List String) :
    importTexts (lines ++ others) = importTexts lines ++ importTexts others :=
  List.filterMap_append

/-- Lines other than import lines have no spec texts. -/
theorem importTexts_of_no_import {lines : List String} (h : ∀ l ∈ lines, isImportLine l = false) :
    importTexts lines = [] := by
  refine List.filterMap_eq_nil_iff.mpr fun l hl => ?_
  simpa [isImportLine] using h l hl

/-- The lines before the first import line have no spec texts. -/
theorem importTexts_takeWhile (lines : List String) :
    importTexts (lines.takeWhile (!isImportLine ·)) = [] := by
  refine importTexts_of_no_import fun l hl => ?_
  simpa using List.mem_takeWhile_imp hl

/-- The lines from the first import line on have all the spec texts. -/
theorem importTexts_dropWhile (lines : List String) :
    importTexts (lines.dropWhile (!isImportLine ·)) = importTexts lines := by
  calc importTexts (lines.dropWhile (!isImportLine ·))
      = importTexts (lines.takeWhile (!isImportLine ·)) ++
          importTexts (lines.dropWhile (!isImportLine ·)) := by
        rw [importTexts_takeWhile, List.nil_append]
    _ = importTexts lines := by rw [← importTexts_append, List.takeWhile_append_dropWhile]

/-! ## Collecting -/

/-- A line that is no import line does not count. -/
theorem readsImports_cons_of_none {line : String} (hline : importText? line = none)
    {lines : List String} {specs : List ImportSpec} :
    ReadsImports (line :: lines) specs ↔ ReadsImports lines specs := by
  simp [ReadsImports, importTexts, hline]

/-- An import line gives the first spec. -/
theorem readsImports_cons_of_some {line text : String} (hline : importText? line = some text)
    {lines : List String} {specs : List ImportSpec} :
    ReadsImports (line :: lines) specs ↔
      ∃ s rest, specs = s :: rest ∧ ImportSpec.parse text = .ok s ∧ ReadsImports lines rest := by
  cases specs with
  | nil => simp [ReadsImports, importTexts, hline]
  | cons s rest => simp [ReadsImports, importTexts, hline, and_assoc]

/-- Collecting succeeds exactly on lines whose import lines are read; the other lines come along in
order. -/
theorem collectImports_eq_ok_iff {numbered : List (String × Nat)} {specs : List ImportSpec}
    {others : List String} :
    collectImports numbered = .ok (specs, others) ↔
      ReadsImports (numbered.map Prod.fst) specs ∧
        others = (numbered.map Prod.fst).filter (!isImportLine ·) := by
  induction numbered generalizing specs others with
  | nil => simp [collectImports, ReadsImports, importTexts, eq_comm]
  | cons head rest ih =>
    obtain ⟨line, index⟩ := head
    rw [List.map_cons, List.filter_cons]
    cases hline : importText? line with
    | none =>
      rw [readsImports_cons_of_none hline, if_pos (by simp [isImportLine, hline])]
      simp only [collectImports, hline]
      constructor
      · intro h
        split at h
        · cases h
        · rename_i specs' others' hrest
          obtain ⟨rfl, rfl⟩ := Prod.mk.inj (Except.ok.inj h)
          obtain ⟨hreads, rfl⟩ := ih.mp hrest
          exact ⟨hreads, rfl⟩
      · rintro ⟨hreads, rfl⟩
        rw [ih.mpr ⟨hreads, rfl⟩]
    | some text =>
      rw [readsImports_cons_of_some hline, if_neg (by simp [isImportLine, hline])]
      simp only [collectImports, hline]
      constructor
      · intro h
        split at h
        · cases h
        · rename_i spec hparse
          split at h
          · cases h
          · rename_i specs' others' hrest
            obtain ⟨rfl, rfl⟩ := Prod.mk.inj (Except.ok.inj h)
            obtain ⟨hreads, rfl⟩ := ih.mp hrest
            exact ⟨⟨spec, specs', rfl, hparse, hreads⟩, rfl⟩
      · rintro ⟨⟨spec, specs', rfl, hparse, hreads⟩, rfl⟩
        rw [hparse, ih.mpr ⟨hreads, rfl⟩]

namespace DirectiveTable

/-- The lines of a file from its first import line on, as they are collected. -/
theorem map_fst_drop_zipIdx (lines : List String) :
    (lines.zipIdx.drop (lines.takeWhile (!isImportLine ·)).length).map Prod.fst =
      lines.dropWhile (!isImportLine ·) := by
  rw [List.map_drop, List.zipIdx_map_fst]
  calc lines.drop (lines.takeWhile (!isImportLine ·)).length
      = (lines.takeWhile (!isImportLine ·) ++ lines.dropWhile (!isImportLine ·)).drop
          (lines.takeWhile (!isImportLine ·)).length := by rw [List.takeWhile_append_dropWhile]
    _ = lines.dropWhile (!isImportLine ·) := List.drop_left

/-- The lines of a revised file: those before the first import, the repaired imports, and the other
lines. -/
def revisedLines (t : DirectiveTable) (lines : List String) (specs : List ImportSpec) :
    List String :=
  lines.takeWhile (!isImportLine ·) ++ (t.repairAll specs).map importLine ++
    (lines.dropWhile (!isImportLine ·)).filter (!isImportLine ·)

/-- **What revising lines answers** when the import lines are read. -/
theorem reviseLines_eq {t : DirectiveTable} {lines : List String} {specs : List ImportSpec}
    (h : ReadsImports lines specs) :
    t.reviseLines lines = .ok (if t.repairAll specs = specs then none else
      some ⟨t.revisedLines lines specs, specs.length, (t.repairAll specs).length⟩) := by
  have hcollect : collectImports
      (lines.zipIdx.drop (lines.takeWhile (!isImportLine ·)).length) =
        .ok (specs, (lines.dropWhile (!isImportLine ·)).filter (!isImportLine ·)) := by
    rw [collectImports_eq_ok_iff, map_fst_drop_zipIdx, ReadsImports, importTexts_dropWhile]
    exact ⟨h, rfl⟩
  simp only [reviseLines, hcollect]
  split_ifs <;> rfl

/-- Revising lines succeeds only when the import lines are read. -/
theorem exists_readsImports_of_reviseLines {t : DirectiveTable} {lines : List String}
    {r : Option (Revision (List String))} (h : t.reviseLines lines = .ok r) :
    ∃ specs, ReadsImports lines specs := by
  simp only [reviseLines] at h
  split at h
  · cases h
  · rename_i specs others hcollect
    have hreads := (collectImports_eq_ok_iff.mp hcollect).1
    rw [map_fst_drop_zipIdx] at hreads
    exact ⟨specs, by rwa [ReadsImports, importTexts_dropWhile] at hreads⟩

end DirectiveTable

/-! ## Written import lines -/

/-- The line of a canonical spec is an import line with the text of the spec. -/
theorem importText?_importLine {s : ImportSpec} (h : s.Canonical) :
    importText? (importLine s) = some s.text := by
  have htrim : Text.trim (importLine s).toList = importKeyword ++ s.text.toList := by
    rw [importLine, String.toList_append, String.toList_ofList]
    have hkeyword : ∀ c, importKeyword.head? = some c → Text.isBlank c = false := by
      rintro c ⟨⟩
      decide
    refine Text.trim_eq_self (fun c hc => hkeyword c ?_) fun c hc => h.text_ends.2 c ?_
    · rwa [List.head?_append_of_ne_nil _ (by decide)] at hc
    · rwa [List.getLast?_append_of_ne_nil _ s.text_ne_nil] at hc
  rw [importText?, htrim, Text.dropStart?_append, Option.map_some, String.ofList_toList]

/-- The lines of canonical specs are read as these specs. -/
theorem readsImports_importLines {specs : List ImportSpec} (h : ∀ s ∈ specs, s.Canonical) :
    ReadsImports (specs.map importLine) specs := by
  induction specs with
  | nil => rfl
  | cons s rest ih =>
    have hs := h s List.mem_cons_self
    rw [List.map_cons, readsImports_cons_of_some (importText?_importLine hs)]
    exact ⟨s, rest, rfl, ImportSpec.parse_text hs, ih fun x hx => h x (List.mem_cons_of_mem s hx)⟩

/-- The line of a canonical spec holds no line feed and no carriage return. -/
theorem no_line_end_of_mem_importLine {s : ImportSpec} (h : s.Canonical) {c : Char}
    (hc : c ∈ (importLine s).toList) : c ≠ '\n' ∧ c ≠ '\r' := by
  have hblank : c = ' ' ∨ Text.isBlank c = false := by
    rw [importLine, String.toList_append, String.toList_ofList, List.mem_append] at hc
    rcases hc with hc | hc
    · have hkeyword : importKeyword.all (fun c => c == ' ' || !Text.isBlank c) = true := by decide
      simpa using List.all_eq_true.mp hkeyword c hc
    · exact h.blank_of_mem_text hc
  refine ⟨?_, ?_⟩ <;>
  · rintro rfl
    exact absurd hblank (by decide)

/-! ## Joining the lines of a file -/

/-- The lines of a revised file can be joined by the line end of the file. -/
theorem joinable_revisedLines {t : DirectiveTable} {lines : List String} {specs : List ImportSpec}
    {newline : Text.Newline} {closed : Bool}
    (hjoin : Text.Joinable newline closed (lines.map String.toList))
    (hreads : ReadsImports lines specs) (hne : specs ≠ [])
    (himports : ∀ s ∈ t.repairAll specs, s.Canonical) :
    Text.Joinable newline closed ((t.revisedLines lines specs).map String.toList) := by
  have hrest : lines.dropWhile (!isImportLine ·) ≠ [] := by
    intro hnil
    rw [ReadsImports, ← importTexts_dropWhile, hnil] at hreads
    exact hne (List.map_eq_nil_iff.mp hreads.symm)
  have hwritten : ∀ l ∈ ((t.repairAll specs).map importLine).map String.toList,
      ∀ c ∈ l, c ≠ '\n' ∧ c ≠ '\r' := by
    intro l hl c hc
    obtain ⟨line, hline, rfl⟩ := List.mem_map.mp hl
    obtain ⟨s, hs, rfl⟩ := List.mem_map.mp hline
    exact no_line_end_of_mem_importLine (himports s hs) hc
  rw [← List.takeWhile_append_dropWhile (p := (!isImportLine ·)) (l := lines),
    List.map_append] at hjoin
  rw [DirectiveTable.revisedLines, List.map_append, List.map_append]
  refine hjoin.splice (by simpa using hrest) (List.filter_sublist.map _) ?_ ?_
  · exact fun l hl hfeed => (hwritten l hl _ hfeed).1 rfl
  · exact fun l hl hlast => (hwritten l hl _ (List.mem_of_getLast? hlast)).2 rfl

/-- Joining lines and splitting them again keeps the import lines. -/
theorem importTexts_unlines {newline : Text.Newline} {closed : Bool} {content : List String}
    (hjoin : Text.Joinable newline closed (content.map String.toList)) :
    importTexts (sourceLines
      (String.ofList (Text.unlines newline closed (content.map String.toList)))) =
        importTexts content := by
  have hcontent : (content.map String.toList).map String.ofList = content := by simp
  have hempty : importTexts [""] = [] := by decide
  rw [sourceLines, String.toList_ofList]
  cases closed with
  | true =>
    by_cases hne : content = []
    · -- No lines at all are joined to a single line end, which makes one empty line.
      subst hne
      cases newline <;> decide
    · rw [Text.lines_unlines_closed (by simpa using hne) hjoin, hcontent]
  | false =>
    rw [Text.lines_unlines_open hjoin]
    split_ifs with hlast
    · -- The line that is lost is empty and so no import line.
      rcases List.eq_nil_or_concat' content with rfl | ⟨front, last, rfl⟩
      · rfl
      · obtain rfl : last = "" := by simpa using hlast
        simp [importTexts_append, hempty]
    · rw [hcontent]

namespace DirectiveTable

/-- The import lines of a revised file are read as the repaired imports. -/
theorem readsImports_revisedLines {t : DirectiveTable} (lines : List String)
    {specs : List ImportSpec} (himports : ∀ s ∈ t.repairAll specs, s.Canonical) :
    ReadsImports (t.revisedLines lines specs) (t.repairAll specs) := by
  have hepilogue :
      importTexts ((lines.dropWhile (!isImportLine ·)).filter (!isImportLine ·)) = [] := by
    refine importTexts_of_no_import fun l hl => ?_
    simpa using (List.mem_filter.mp hl).2
  rw [ReadsImports, revisedLines, importTexts_append, importTexts_append, importTexts_takeWhile,
    hepilogue, List.nil_append, List.append_nil]
  exact readsImports_importLines himports

/-- The text of a revised file: its lines joined by the line end of the file. -/
def revisedText (t : DirectiveTable) (text : String) (specs : List ImportSpec) : String :=
  String.ofList (Text.unlines (Text.newlineOf text.toList) (Text.endsWithFeed text.toList)
    ((t.revisedLines (sourceLines text) specs).map String.toList))

/-- **What revising a text answers** when the import lines are read. -/
theorem reviseText_eq {t : DirectiveTable} {text : String} {specs : List ImportSpec}
    (h : ReadsImports (sourceLines text) specs) :
    t.reviseText text = .ok (if t.repairAll specs = specs then none else
      some ⟨t.revisedText text specs, specs.length, (t.repairAll specs).length⟩) := by
  have hlines := reviseLines_eq (t := t) h
  rw [sourceLines] at hlines
  simp only [reviseText, hlines]
  split_ifs <;> rfl

/-- Revising a text succeeds only when the import lines are read. -/
theorem exists_readsImports_of_reviseText {t : DirectiveTable} {text : String}
    {r : Option (Revision String)} (h : t.reviseText text = .ok r) :
    ∃ specs, ReadsImports (sourceLines text) specs := by
  simp only [reviseText] at h
  split at h
  · cases h
  · rename_i hlines
    exact exists_readsImports_of_reviseLines hlines
  · rename_i revised hlines
    exact exists_readsImports_of_reviseLines hlines

/-- What a text is revised to, and the imports it is revised for. -/
theorem of_reviseText_eq_some {t : DirectiveTable} {text : String} {out : Revision String}
    (h : t.reviseText text = .ok (some out)) :
    ∃ specs, ReadsImports (sourceLines text) specs ∧ t.repairAll specs ≠ specs ∧
      out = ⟨t.revisedText text specs, specs.length, (t.repairAll specs).length⟩ := by
  obtain ⟨specs, hreads⟩ := exists_readsImports_of_reviseText h
  rw [reviseText_eq hreads, Except.ok.injEq] at h
  split_ifs at h with hsame
  exact ⟨specs, hreads, hsame, (Option.some.inj h).symm⟩

/-- The import lines of a revised text are read as the repaired imports. -/
theorem Lawful.readsImports_revisedText {t : DirectiveTable} (h : t.Lawful) {text : String}
    {specs : List ImportSpec} (hreads : ReadsImports (sourceLines text) specs) (hne : specs ≠ []) :
    ReadsImports (sourceLines (t.revisedText text specs)) (t.repairAll specs) := by
  have himports := h.canonical_of_mem_repairAll hreads.canonical
  have hsource : (sourceLines text).map String.toList = Text.lines text.toList := by
    simp [sourceLines]
  have hjoin := joinable_revisedLines (hsource ▸ Text.joinable_lines text.toList) hreads hne himports
  rw [ReadsImports, revisedText, importTexts_unlines hjoin]
  exact readsImports_revisedLines (sourceLines text) himports

/-- The imports of a text that is revised are not empty. -/
theorem ne_nil_of_repairAll_ne {t : DirectiveTable} {specs : List ImportSpec}
    (h : t.repairAll specs ≠ specs) : specs ≠ [] := by
  rintro rfl
  exact h rfl

/-- **Revising a text repairs the list of its imports.** All import lines of the new text are read,
as the repair of the specs that the import lines of the old text are read as, in this order and
without repetitions; the numbers of imports are those of import lines, and the new text can be
revised again. -/
theorem reviseText_refines_repairAll {blocks : List DirectiveBlock} {t : DirectiveTable}
    (ht : ofBlocks blocks = .ok t) {text : String} {out : Revision String}
    (h : t.reviseText text = .ok (some out)) :
    (∃ specs, ReadsImports (sourceLines text) specs ∧
        ReadsImports (sourceLines out.content) (t.repairAll specs) ∧ (t.repairAll specs).Nodup) ∧
      out.importsBefore = (sourceLines text).countP isImportLine ∧
      out.importsAfter = (sourceLines out.content).countP isImportLine ∧
      ∃ again, t.reviseText out.content = .ok again := by
  have hlawful := lawful_ofBlocks ht
  obtain ⟨specs, hreads, hchanged, rfl⟩ := of_reviseText_eq_some h
  have hrevised := hlawful.readsImports_revisedText hreads (ne_nil_of_repairAll_ne hchanged)
  refine ⟨⟨specs, hreads, hrevised, hlawful.nodup_repairAll hreads.canonical⟩, ?_, ?_, ?_⟩
  · exact hreads.countP_eq.symm
  · exact hrevised.countP_eq.symm
  · exact ⟨_, reviseText_eq hrevised⟩

/-- A file with carriage returns whose wildcard and renamed import are repaired. -/
theorem reviseText_refines_repairAll_renamed :
    ∃ out : Revision String,
      ofBlocks [⟨"a", "MOVE com.old.Test -> com.new.Test"⟩] = .ok movedTest ∧
        movedTest.reviseText "import com.old.*\r\nval x = 1\r\nimport com.old.Test as T" =
          .ok (some out) ∧
        out.content =
          "import com.new.*\r\nimport com.old.*\r\nimport com.new.Test as T\r\nval x = 1" ∧
        (∃ specs, ReadsImports (sourceLines out.content) (movedTest.repairAll specs) ∧
          (movedTest.repairAll specs).Nodup) ∧
        (sourceLines out.content).countP isImportLine = 3 := by
  have hout : movedTest.reviseText "import com.old.*\r\nval x = 1\r\nimport com.old.Test as T" =
      .ok (some
        ⟨"import com.new.*\r\nimport com.old.*\r\nimport com.new.Test as T\r\nval x = 1", 2, 3⟩) := by
    decide +kernel
  obtain ⟨⟨specs, -, hrevised, hnodup⟩, -, hafter, -⟩ :=
    reviseText_refines_repairAll ofBlocks_movedTest hout
  exact ⟨_, ofBlocks_movedTest, hout, rfl, ⟨specs, hrevised, hnodup⟩, hafter.symm⟩

end DirectiveTable

end ImportMigration
