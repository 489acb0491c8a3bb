import ImportMigration.Proofs.RevisedImports

/-! # The lines of a revised file

Revising a file touches its import lines only. The new import lines stand in one block where the
first of the old ones stood, and all other lines stay as they are and in order, whatever directives
there are. As a text, the new file has the line end and the final line end of the old one. Its lines
are those that were joined, with one exception: an empty line that comes last in a file without a
final line end cannot be told from such an end.

* `isImportLine_importLine`: the line written for a spec is an import line, whatever the spec.
* `DirectiveTable.reviseLines_keeps_others`: what revising does to lines.
* `Text.lines_unlines_iff`: what joined lines are read back as.
* `DirectiveTable.reviseText_lines_iff`: when the lines of a new text are the revised lines.
* `DirectiveTable.reviseText_drops_blank_line`: a file where they are not. -/

namespace ImportMigration

namespace Text

/-- Every line but the last has a line end behind it. -/
theorem unlines_open_concat (newline : Newline) (front : List (List Char)) (last : List Char) :
    unlines newline false (front ++ [last]) = front.flatMap (· ++ newline.chars) ++ last := by
  induction front with
  | nil => simp [unlines]
  | cons l rest ih =>
    obtain ⟨m, others, hrest⟩ := List.exists_cons_of_ne_nil (l := rest ++ [last]) (by simp)
    rw [List.cons_append, hrest, unlines_cons_cons, ← hrest, ih, List.flatMap_cons,
      List.append_assoc, List.append_assoc]

/-- A line end ends with a line feed. -/
theorem getLast?_newline (newline : Newline) : newline.chars.getLast? = some '\n' := by
  cases newline <;> rfl

/-- A line end at the close is the end of the text. -/
theorem endsWithFeed_unlines_closed (newline : Newline) (ls : List (List Char)) :
    endsWithFeed (unlines newline true ls) = true := by
  have hne : newline.chars ≠ [] := by cases newline <;> simp [Newline.chars]
  rw [endsWithFeed, unlines, if_pos rfl, List.getLast?_append_of_ne_nil _ hne, getLast?_newline]
  rfl

/-- An empty line that comes last behind others leaves the line end of the line before it. -/
theorem endsWithFeed_unlines_open (newline : Newline) {front : List (List Char)}
    (hfront : front ≠ []) : endsWithFeed (unlines newline false (front ++ [[]])) = true := by
  have hne : newline.chars ≠ [] := by cases newline <;> simp [Newline.chars]
  obtain ⟨others, l, rfl⟩ := List.eq_nil_or_concat' front |>.resolve_left hfront
  rw [endsWithFeed, unlines_open_concat, List.append_nil, List.flatMap_append,
    List.flatMap_singleton, ← List.append_assoc, List.getLast?_append_of_ne_nil _ hne,
    getLast?_newline]
  rfl

/-- **What joined lines are read back as.** They are read as the same lines, and the text ends with
a line feed only if it is closed, unless it is open and an empty line comes last behind others. That
line is lost and its line end becomes the end of the text. -/
theorem lines_unlines_iff {newline : Newline} {closed : Bool} {ls : List (List Char)}
    (h : Joinable newline closed ls) (hne : ls ≠ []) (hmore : ls ≠ [[]]) :
    let told := closed = true ∨ ls.getLast? ≠ some []
    (lines (unlines newline closed ls) = ls ↔ told) ∧
      (endsWithFeed (unlines newline closed ls) = closed ↔ told) ∧
      (¬told → ls = lines (unlines newline closed ls) ++ [[]]) := by
  intro told
  cases closed with
  | true =>
    have htold : told := Or.inl rfl
    simp only [lines_unlines_closed hne h, endsWithFeed_unlines_closed, htold, not_true_eq_false,
      false_imp_iff, and_self]
  | false =>
    obtain ⟨front, last, rfl⟩ := List.eq_nil_or_concat' ls |>.resolve_left hne
    have hfeed : '\n' ∉ last := h.no_feed last (by simp)
    by_cases hlast : last = []
    · subst hlast
      have hfront : front ≠ [] := by
        rintro rfl
        exact hmore rfl
      have hend := endsWithFeed_unlines_open newline hfront
      have htold : ¬told := by simp [told]
      simp [lines_unlines_open h, hend, htold]
    · have hend : endsWithFeed (unlines newline false (front ++ [last])) = false := by
        rw [endsWithFeed, unlines_open_concat, List.getLast?_append_of_ne_nil _ hlast,
          beq_eq_false_iff_ne]
        exact fun hfeedLast => hfeed (List.mem_of_getLast? hfeedLast)
      have htold : told := Or.inr (by simpa using hlast)
      simp [lines_unlines_open h, hend, hlast, htold]

end Text

/-! ## Import lines and others -/

/-- The qualified name of a spec has a dot, so its text is not blank. -/
theorem ImportSpec.dot_mem_text (s : ImportSpec) : '.' ∈ s.text.toList := by
  have hname : '.' ∈ s.qualifiedName.toList := by
    obtain ⟨first, rest, hrest⟩ := List.exists_cons_of_ne_nil
      (l := s.owners ++ [s.element.getD "*"]) (by simp)
    rw [qualifiedName, segments, List.cons_append, hrest, String.intercalate_cons_cons]
    simp
  rw [text]
  split
  · exact hname
  · simp [hname]

/-- **The line written for a spec is an import line**, whatever the spec. -/
theorem isImportLine_importLine (s : ImportSpec) : isImportLine (importLine s) = true := by
  have htrim : Text.trim (importLine s).toList = importKeyword ++ Text.trimEnd s.text.toList := by
    rw [importLine, String.toList_append, String.toList_ofList, Text.trim,
      ← Text.trimEnd_append ⟨'.', s.dot_mem_text, by decide⟩]
    rfl
  rw [isImportLine, importText?, htrim, Text.dropStart?_append]
  rfl

namespace DirectiveTable

/-- **Revising lines keeps all lines but the imports.** The new lines start with those before the
first import line, go on with the new import lines, and hold no other import line; the lines that
are no import lines are the same ones in the same order. -/
theorem reviseLines_keeps_others {t : DirectiveTable} {lines : List String}
    {r : Revision (List String)} (h : t.reviseLines lines = .ok (some r)) :
    (∃ imports others, r.content = lines.takeWhile (!isImportLine ·) ++ imports ++ others ∧
      imports.length = r.importsAfter ∧ (∀ l ∈ imports, isImportLine l = true) ∧
      ∀ l ∈ others, isImportLine l = false) ∧
    r.content.filter (!isImportLine ·) = lines.filter (!isImportLine ·) := by
  obtain ⟨specs, hreads⟩ := exists_readsImports_of_reviseLines h
  rw [reviseLines_eq hreads, Except.ok.injEq] at h
  split_ifs at h with hsame
  obtain rfl := Option.some.inj h
  have himports : ∀ l ∈ (t.repairAll specs).map importLine, isImportLine l = true := by
    intro l hl
    obtain ⟨s, -, rfl⟩ := List.mem_map.mp hl
    exact isImportLine_importLine s
  refine ⟨⟨_, _, rfl, List.length_map _, himports, fun l hl => ?_⟩, ?_⟩
  · simpa using (List.mem_filter.mp hl).2
  · have hnone : ((t.repairAll specs).map importLine).filter (!isImportLine ·) = [] :=
      List.filter_eq_nil_iff.mpr fun l hl => by simp [himports l hl]
    calc (t.revisedLines lines specs).filter (!isImportLine ·)
        = (lines.takeWhile (!isImportLine ·)).filter (!isImportLine ·) ++
            (lines.dropWhile (!isImportLine ·)).filter (!isImportLine ·) := by
          rw [revisedLines, List.filter_append, List.filter_append, hnone, List.append_nil,
            List.filter_filter]
          simp only [Bool.and_self]
      _ = lines.filter (!isImportLine ·) := by
          rw [← List.filter_append, List.takeWhile_append_dropWhile]

/-- Imports that are scattered, indented and repeated are put in one block, which a new import
joins. -/
theorem reviseLines_keeps_others_scattered :
    movedTest.reviseLines ["package p", " import com.old.*", "// a", "import a.B", "val x = 1",
        "\timport a.B"] =
      .ok (some ⟨["package p", "import com.new.*", "import com.old.*", "import a.B", "// a",
        "val x = 1"], 3, 3⟩) ∧
    ["package p", "import com.new.*", "import com.old.*", "import a.B", "// a", "val x = 1"].filter
        (!isImportLine ·) =
      ["package p", " import com.old.*", "// a", "import a.B", "val x = 1", "\timport a.B"].filter
        (!isImportLine ·) := by
  have hrevised : movedTest.reviseLines ["package p", " import com.old.*", "// a", "import a.B",
        "val x = 1", "\timport a.B"] =
      .ok (some ⟨["package p", "import com.new.*", "import com.old.*", "import a.B", "// a",
        "val x = 1"], 3, 3⟩) := by decide +kernel
  exact ⟨hrevised, (reviseLines_keeps_others hrevised).2⟩

/-! ## The lines of a revised text -/

/-- The repair of some imports is some imports. -/
theorem Lawful.repairAll_ne_nil {t : DirectiveTable} (h : t.Lawful) {specs : List ImportSpec}
    (hspecs : ∀ s ∈ specs, s.Canonical) (hne : specs ≠ []) : t.repairAll specs ≠ [] := by
  obtain ⟨s, rest, rfl⟩ := List.exists_cons_of_ne_nil hne
  have hs := hspecs s List.mem_cons_self
  obtain ⟨x, hx⟩ : ∃ x, x ∈ t.repair s := by
    cases hscope : s.isScopeOnly with
    | true => exact ⟨s, (h.mem_repair_scope hs hscope).mpr (Or.inl rfl)⟩
    | false =>
      cases hfind : t.find? s with
      | none => exact ⟨s, by simp [repair_of_find?_eq_none hscope hfind]⟩
      | some d => exact ⟨_, by simp [repair_of_find?_eq_some hscope hfind]; rfl⟩
  exact List.ne_nil_of_mem ((h.mem_repairAll hspecs).mpr ⟨s, List.mem_cons_self, hx⟩)

/-- A revised file does not consist of an empty line. -/
theorem revisedLines_ne_singleton {t : DirectiveTable} {specs : List ImportSpec}
    (hne : t.repairAll specs ≠ []) (lines : List String) : t.revisedLines lines specs ≠ [""] := by
  intro hsingle
  obtain ⟨s, hs⟩ := List.exists_mem_of_ne_nil _ hne
  have hmem : importLine s ∈ t.revisedLines lines specs := by
    rw [revisedLines]
    exact List.mem_append_left _ (List.mem_append_right _ (List.mem_map_of_mem hs))
  rw [hsingle, List.mem_singleton] at hmem
  have himport := isImportLine_importLine s
  rw [hmem] at himport
  exact absurd himport (by decide)

/-- Whether revised lines can be told from the text that they make: the file has a final line end,
or the last of the lines is not empty. -/
def TellsLastLine (text : String) (lines : List String) : Prop :=
  Text.endsWithFeed text.toList = true ∨ lines.getLast? ≠ some ""

/-- **When the lines of a new text are the revised lines.** They are, and the text ends with a line
feed like the old one, exactly if the last line can be told. Otherwise the last of the revised
lines, which is empty, is no line of the new text but its final line end, and the old text had
none. -/
theorem reviseText_lines_iff {blocks : List DirectiveBlock} {t : DirectiveTable}
    (ht : ofBlocks blocks = .ok t) {text : String} {out : Revision String}
    (h : t.reviseText text = .ok (some out)) :
    ∃ revised, t.reviseLines (sourceLines text) = .ok (some revised) ∧
      (sourceLines out.content = revised.content ↔ TellsLastLine text revised.content) ∧
      (Text.endsWithFeed out.content.toList = Text.endsWithFeed text.toList ↔
        TellsLastLine text revised.content) ∧
      (¬TellsLastLine text revised.content → revised.content = sourceLines out.content ++ [""]) := by
  have hlawful := lawful_ofBlocks ht
  obtain ⟨specs, hreads, hchanged, rfl⟩ := of_reviseText_eq_some h
  have hspecs := ne_nil_of_repairAll_ne hchanged
  have hsome := hlawful.repairAll_ne_nil hreads.canonical hspecs
  refine ⟨⟨t.revisedLines (sourceLines text) specs, specs.length, (t.repairAll specs).length⟩,
    ?_, ?_⟩
  · rw [reviseLines_eq hreads, if_neg hchanged]
  have hsource : (sourceLines text).map String.toList = Text.lines text.toList := by
    simp [sourceLines]
  have hjoin := joinable_revisedLines (hsource ▸ Text.joinable_lines text.toList) hreads hspecs
    (hlawful.canonical_of_mem_repairAll hreads.canonical)
  have hmore := revisedLines_ne_singleton hsome (sourceLines text)
  have hne : t.revisedLines (sourceLines text) specs ≠ [] := by
    simp [revisedLines, hsome]
  rw [revisedText]
  generalize t.revisedLines (sourceLines text) specs = content at hjoin hmore hne ⊢
  obtain ⟨chars, rfl⟩ : ∃ chars : List (List Char), content = chars.map String.ofList :=
    ⟨content.map String.toList, by simp⟩
  have hback : (chars.map String.ofList).map String.toList = chars := by simp
  rw [hback] at hjoin ⊢
  have hlast : (chars.map String.ofList).getLast? = some "" ↔ chars.getLast? = some [] := by
    simp
  have hinj : ∀ ls : List (List Char),
      ls.map String.ofList = chars.map String.ofList ↔ ls = chars := fun ls =>
    (List.map_injective_iff.mpr fun _ _ => String.ofList_inj.mp).eq_iff
  obtain ⟨hlines, hfeed, hlost⟩ := Text.lines_unlines_iff hjoin (by simpa using hne)
    (fun hnil => hmore (by simp [hnil]))
  simp only [sourceLines, TellsLastLine, String.toList_ofList, hinj, ne_eq, hlast]
  refine ⟨hlines, hfeed, fun hnot => ?_⟩
  conv_lhs => rw [hlost hnot]
  simp

/-- A file with carriage returns whose empty line stays before its last line. -/
theorem reviseText_lines_iff_return_feeds :
    ofBlocks [⟨"a", "MOVE com.old.Test -> com.new.Test"⟩] = .ok movedTest ∧
      movedTest.reviseText "import com.old.Test\r\n\r\nval x = 1" =
        .ok (some ⟨"import com.new.Test\r\n\r\nval x = 1", 1, 1⟩) ∧
      ∃ revised, movedTest.reviseLines (sourceLines "import com.old.Test\r\n\r\nval x = 1") =
          .ok (some revised) ∧
        (sourceLines "import com.new.Test\r\n\r\nval x = 1" = revised.content ↔
          TellsLastLine "import com.old.Test\r\n\r\nval x = 1" revised.content) := by
  have hout : movedTest.reviseText "import com.old.Test\r\n\r\nval x = 1" =
      .ok (some ⟨"import com.new.Test\r\n\r\nval x = 1", 1, 1⟩) := by decide +kernel
  obtain ⟨revised, hrevised, hlines, -, -⟩ := reviseText_lines_iff ofBlocks_movedTest hout
  exact ⟨ofBlocks_movedTest, hout, revised, hrevised, hlines⟩

/-- **A revised text loses an empty line.** The file has no final line end, and the import behind
its empty line is a repeated one. Once that is gone the empty line comes last: the new text has one
line instead of two, and a line feed at its end. -/
theorem reviseText_drops_blank_line :
    ofBlocks [] = .ok empty ∧
      empty.reviseText "import a.b.C\n\nimport a.b.C" = .ok (some ⟨"import a.b.C\n", 2, 1⟩) ∧
      empty.reviseLines (sourceLines "import a.b.C\n\nimport a.b.C") =
        .ok (some ⟨["import a.b.C", ""], 2, 1⟩) ∧
      sourceLines "import a.b.C\n" = ["import a.b.C"] ∧
      Text.endsWithFeed "import a.b.C\n\nimport a.b.C".toList = false ∧
      Text.endsWithFeed "import a.b.C\n".toList = true := by
  decide +kernel

end DirectiveTable

end ImportMigration
