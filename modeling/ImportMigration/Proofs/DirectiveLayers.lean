import ImportMigration.Config
import ImportMigration.Proofs.FirstFaults
import ImportMigration.Proofs.Merging

/-! # Directive text in layers

Directive text comes in layers: the discovered blocks, the text of the configuration and the texts
of the command line. The last two are put together as one text before it is cut into lines. No layer
runs into its neighbour: as far as directives are concerned, the lines of the whole are the lines of
the layers in order, however a layer ends. So the run merges what it would merge if every layer were
a block of its own.

* `Text.filter_trim_lines`: trimmed lines that are not blank are what stands between line feeds.
* `directiveLines`: the lines of a directive text that count, with `directiveLines_appendText` for
  two layers and `directiveLines_foldl_appendText` for all of them.
* `DirectiveBlock.parse_eq_ok_iff`: a block is read when its directive lines are.
* `mergeBlocks_eq`: what a run merges, as one run of insertions.
* `Tree.mergedDirectives_of_layers`: layers put together and layers as blocks. -/

namespace ImportMigration

/-! ## Trimmed lines -/

namespace Text

/-- A blank at the end is trimmed. -/
theorem trim_concat_blank {c : Char} (hc : isBlank c = true) (s : List Char) :
    trim (s ++ [c]) = trim s := by
  have hend : ∀ t : List Char, trimEnd (t ++ [c]) = trimEnd t := by
    intro t
    rw [trimEnd, trimEnd, List.reverse_concat, List.dropWhile_cons_of_pos hc]
  rw [trim, trim, trimStart, trimStart, List.dropWhile_append]
  split_ifs with hblank
  · rw [List.isEmpty_iff.mp hblank, List.dropWhile_cons_of_pos hc]
    rfl
  · exact hend _

/-- A line feed ends a line; whether a carriage return before it is taken along does not matter once
the line is trimmed. -/
theorem map_trim_lines_append_feed {l : List Char} (hfeed : '\n' ∉ l) (rest : List Char) :
    (lines (l ++ '\n' :: rest)).map trim = trim l :: (lines rest).map trim := by
  by_cases hreturn : l.getLast? = some '\r'
  · obtain ⟨front, rfl⟩ := List.getLast?_eq_some_iff.mp hreturn
    have hfront : '\n' ∉ front := fun h => hfeed (List.mem_append_left _ h)
    have hlines : lines (front ++ ['\r'] ++ '\n' :: rest) = front :: lines rest := by
      rw [List.append_assoc]
      exact lines_append_returnFeed hfront rest
    rw [hlines, List.map_cons, trim_concat_blank (by decide)]
  · rw [lines_append_feed hfeed hreturn, List.map_cons]

/-- **The trimmed lines that are not blank** are what stands between line feeds, trimmed. -/
theorem filter_trim_lines {p : List Char → Bool} (hp : p [] = false) (s : List Char) :
    ((lines s).map trim).filter p = ((s.splitOn '\n').map trim).filter p := by
  -- The text is taken apart at its first line feed, so the induction is on length.
  induction hn : s.length using Nat.strong_induction_on generalizing s with
  | _ n ih =>
    by_cases hfeed : '\n' ∈ s
    · obtain ⟨l, rest, rfl, hl⟩ := List.eq_append_cons_of_mem hfeed
      have hshort : rest.length < n := by
        rw [← hn, List.length_append, List.length_cons]
        omega
      rw [map_trim_lines_append_feed hl, List.splitOn_append_cons_self,
        List.splitOn_eq_singleton hl, List.singleton_append, List.map_cons, List.filter_cons,
        List.filter_cons, ih _ hshort rest rfl]
    · rw [lines_of_no_feed hfeed, List.splitOn_eq_singleton hfeed]
      split_ifs with hnil
      · subst hnil
        have htrim : trim [] = [] := rfl
        simp [htrim, hp]
      · rfl

end Text

/-! ## Directive lines -/

/-- The lines of a directive text that count, without the blanks at their ends: those that are
neither blank nor comments. -/
def directiveLines (text : String) : List (List Char) :=
  ((Text.lines text.toList).map Text.trim).filter (!DirectiveBlock.isSkipped ·)

/-- The lines that count, found between line feeds. -/
theorem directiveLines_eq_splitOn (text : String) :
    directiveLines text =
      ((text.toList.splitOn '\n').map Text.trim).filter (!DirectiveBlock.isSkipped ·) :=
  Text.filter_trim_lines (by decide) text.toList

/-- A line feed between two texts keeps their lines apart. -/
theorem directiveLines_append_feed (first second : String) :
    directiveLines (first ++ "\n" ++ second) = directiveLines first ++ directiveLines second := by
  have hchars : (first ++ "\n" ++ second).toList = first.toList ++ '\n' :: second.toList := by simp
  rw [directiveLines_eq_splitOn, directiveLines_eq_splitOn, directiveLines_eq_splitOn, hchars,
    List.splitOn_append_cons_self, List.map_append, List.filter_append]

/-- A text of blanks has no lines that count. -/
theorem directiveLines_eq_nil {text : String} (h : Text.trim text.toList = []) :
    directiveLines text = [] := by
  rw [directiveLines_eq_splitOn, List.filter_eq_nil_iff]
  intro line hline
  obtain ⟨piece, hpiece, rfl⟩ := List.mem_map.mp hline
  have hblank : Text.trim piece = [] := by
    refine Text.trim_eq_nil_iff.mpr fun c hc => ?_
    exact Text.trim_eq_nil_iff.mp h c (Text.of_mem_splitOnP hpiece c hc).1
  rw [hblank]
  decide

/-- **Two layers keep their lines**, however the first ends. -/
theorem directiveLines_appendText (first second : String) :
    directiveLines (Config.appendText first second) =
      directiveLines first ++ directiveLines second := by
  have hempty : directiveLines "" = [] := rfl
  rw [Config.appendText]
  split_ifs with hend
  · rw [Bool.or_eq_true, beq_iff_eq] at hend
    rcases hend with rfl | hfeed
    · rw [hempty, List.nil_append, String.empty_append]
    · -- The first text already ends its last line.
      obtain ⟨front, hfront⟩ : ∃ front : List Char, first.toList = front ++ ['\n'] :=
        List.getLast?_eq_some_iff.mp (beq_iff_eq.mp hfeed)
      obtain rfl : first = String.ofList front ++ "\n" := by
        rw [← String.toList_inj]
        simp [hfront]
      have halone := directiveLines_append_feed (String.ofList front) ""
      rw [String.append_empty, hempty, List.append_nil] at halone
      rw [directiveLines_append_feed, halone]
  · exact directiveLines_append_feed first second

/-- **All layers keep their lines**, in order. -/
theorem directiveLines_foldl_appendText (first : String) (texts : List String) :
    directiveLines (texts.foldl Config.appendText first) =
      (first :: texts).flatMap directiveLines := by
  induction texts generalizing first with
  | nil => simp
  | cons text rest ih =>
    rw [List.foldl_cons, ih]
    simp only [List.flatMap_cons, directiveLines_appendText, List.append_assoc]

/-! ## Reading a text -/

/-- The directive of a line, if it can be read. -/
def Directive.ofLine? (line : List Char) : Option Directive :=
  (Directive.parse (String.ofList line)).toOption

/-- The directives of the lines that can be read. -/
def textDirectives (text : String) : List Directive :=
  (directiveLines text).filterMap Directive.ofLine?

/-- Whether all lines that count can be read. -/
def DirectivesReadable (text : String) : Prop :=
  ∀ line ∈ directiveLines text, (Directive.ofLine? line).isSome = true

/-- Layers can be read together when each can. -/
theorem directivesReadable_foldl_appendText {first : String} {texts : List String} :
    DirectivesReadable (texts.foldl Config.appendText first) ↔
      ∀ text ∈ first :: texts, DirectivesReadable text := by
  simp only [DirectivesReadable, directiveLines_foldl_appendText, List.mem_flatMap]
  constructor
  · intro h text htext line hline
    exact h line ⟨text, htext, hline⟩
  · rintro h line ⟨text, htext, hline⟩
    exact h text htext line hline

/-- The directives of layers that are put together are theirs in order. -/
theorem textDirectives_foldl_appendText (first : String) (texts : List String) :
    textDirectives (texts.foldl Config.appendText first) =
      (first :: texts).flatMap textDirectives := by
  rw [textDirectives, directiveLines_foldl_appendText, List.filterMap_flatMap]
  rfl

namespace DirectiveBlock

/-- Numbered lines are read when all that count are, and as their directives. -/
theorem readLines_eq_ok_iff {origin : String} {numbered : List (List Char × Nat)}
    {directives : List Directive} :
    readLines origin numbered = .ok directives ↔
      (∀ line ∈ ((numbered.map Prod.fst).map Text.trim).filter (!isSkipped ·),
        (Directive.ofLine? line).isSome = true) ∧
      directives = (((numbered.map Prod.fst).map Text.trim).filter (!isSkipped ·)).filterMap
        Directive.ofLine? := by
  induction numbered generalizing directives with
  | nil =>
    constructor
    · intro h
      obtain rfl := Except.ok.inj h
      simp
    · rintro ⟨-, rfl⟩
      rfl
  | cons head rest ih =>
    obtain ⟨raw, index⟩ := head
    simp only [readLines, List.map_cons]
    by_cases hskip : isSkipped (Text.trim raw) = true
    · rw [if_pos hskip, List.filter_cons_of_neg (by simp [hskip]), ih]
    · rw [if_neg hskip, List.filter_cons_of_pos (by simp [hskip])]
      cases hparse : Directive.parse (String.ofList (Text.trim raw)) with
      | error cause => simp [Directive.ofLine?, hparse, Except.toOption]
      | ok d =>
        have hline : Directive.ofLine? (Text.trim raw) = some d := by
          rw [Directive.ofLine?, hparse]
          rfl
        rw [List.forall_mem_cons, List.filterMap_cons_some hline]
        cases hrest : readLines origin rest with
        | error fault =>
          -- The rest would be read if all its lines were.
          have hbad : ∀ ds, ¬ readLines origin rest = .ok ds := by simp [hrest]
          simp only [reduceCtorEq, false_iff]
          rintro ⟨⟨-, hall⟩, -⟩
          exact hbad _ (ih.mpr ⟨hall, rfl⟩)
        | ok others =>
          obtain ⟨hall, rfl⟩ := ih.mp hrest
          simp only [Except.ok.injEq, hline, Option.isSome_some, true_and]
          constructor
          · rintro rfl
            exact ⟨hall, rfl⟩
          · rintro ⟨-, rfl⟩
            rfl

/-- **A block is read when all its lines that count are**, and as their directives. -/
theorem parse_eq_ok_iff {block : DirectiveBlock} {directives : List Directive} :
    block.parse = .ok directives ↔
      DirectivesReadable block.text ∧ directives = textDirectives block.text := by
  rw [parse, readLines_eq_ok_iff, List.zipIdx_map_fst]
  rfl

/-- A block is read when all its lines that count are. -/
theorem exists_parse_eq_ok_iff {block : DirectiveBlock} :
    (∃ directives, block.parse = .ok directives) ↔ DirectivesReadable block.text := by
  simp [parse_eq_ok_iff]

end DirectiveBlock

/-! ## What a run merges -/

/-- Blocks in a row are labelled one after the other. -/
theorem labelled_append (directives : DirectiveBlock → List Directive)
    (blocks others : List DirectiveBlock) :
    labelled directives (blocks ++ others) =
      labelled directives blocks ++ labelled directives others :=
  List.flatMap_append

/-- Blocks that can be read are merged by inserting their directives in order. -/
theorem mergeBlocks_eq {directives : DirectiveBlock → List Directive} {blocks : List DirectiveBlock}
    (h : ∀ b ∈ blocks, b.parse = .ok (directives b)) (t : DirectiveTable) :
    mergeBlocks t blocks = .ok
      { table := t.insertEntries (labelled directives blocks)
        sources := blocks.map fun b => ⟨b.origin, (directives b).length⟩ } := by
  induction blocks generalizing t with
  | nil => rfl
  | cons b rest ih =>
    have hrest : ∀ b' ∈ rest, b'.parse = .ok (directives b') :=
      fun b' hb' => h b' (List.mem_cons_of_mem b hb')
    rw [mergeBlocks, DirectiveTable.merge, h b List.mem_cons_self]
    simp only [ih hrest, DirectiveTable.insertAll_eq_insertEntries,
      ← DirectiveTable.insertEntries_append]
    rfl

/-- Blocks are merged only when they can be read. -/
theorem parse_of_mergeBlocks {t : DirectiveTable} {blocks : List DirectiveBlock}
    {merged : MergedDirectives} (h : mergeBlocks t blocks = .ok merged) :
    ∀ b ∈ blocks, DirectivesReadable b.text := by
  intro b hb
  have hfine := exists_mergeBlocks_eq_ok_iff.mp ⟨merged, h⟩ b hb
  rw [← DirectiveBlock.exists_parse_eq_ok_iff]
  cases hparse : b.parse with
  | error fault => exact absurd (DirectiveBlock.parse_eq_error_iff.mp hparse) (hfine fault)
  | ok directives => exact ⟨directives, rfl⟩

/-- The directives of a block as the table is given them. -/
theorem DirectivesReadable.parse {block : DirectiveBlock} (h : DirectivesReadable block.text) :
    block.parse = .ok (textDirectives block.text) :=
  DirectiveBlock.parse_eq_ok_iff.mpr ⟨h, rfl⟩

namespace Settings

/-- The block of the settings' own text can be read when the text can; blank text is no block, and
has no lines that count. -/
theorem readable_additionalBlock {s : Settings} :
    (∀ b ∈ s.additionalBlock, DirectivesReadable b.text) ↔ DirectivesReadable s.additional := by
  rw [additionalBlock]
  split_ifs with hblank
  · simp [DirectivesReadable, directiveLines_eq_nil (List.isEmpty_iff.mp hblank)]
  · simp

/-- What the settings' own text adds to a table. -/
theorem labelled_additionalBlock (s : Settings) :
    labelled (fun b => textDirectives b.text) s.additionalBlock =
      (textDirectives s.additional).map (⟨·, DirectiveBlock.additionalOrigin⟩) := by
  rw [additionalBlock]
  split_ifs with hblank
  · simp [labelled, textDirectives, directiveLines_eq_nil (List.isEmpty_iff.mp hblank)]
  · simp [labelled]

/-- **What a run merges.** Given blocks, the merge succeeds when they and the settings' own text can
be read, and inserts their directives in order. -/
theorem mergeWithAdditional_eq_ok_iff {s : Settings} {blocks : List DirectiveBlock}
    {table : DirectiveTable} :
    (∃ merged, s.mergeWithAdditional (.ok blocks) = .ok merged ∧ merged.table = table) ↔
      ((∀ b ∈ blocks, DirectivesReadable b.text) ∧ DirectivesReadable s.additional) ∧
      table = DirectiveTable.empty.insertEntries
        (labelled (fun b => textDirectives b.text) blocks ++
          (textDirectives s.additional).map (⟨·, DirectiveBlock.additionalOrigin⟩)) := by
  have hentries : labelled (fun b => textDirectives b.text) (blocks ++ s.additionalBlock) =
      labelled (fun b => textDirectives b.text) blocks ++
        (textDirectives s.additional).map (⟨·, DirectiveBlock.additionalOrigin⟩) := by
    rw [labelled_append, labelled_additionalBlock]
  have hreadable : (∀ b ∈ blocks ++ s.additionalBlock, DirectivesReadable b.text) ↔
      (∀ b ∈ blocks, DirectivesReadable b.text) ∧ DirectivesReadable s.additional := by
    rw [List.forall_mem_append, readable_additionalBlock]
  rw [← hreadable, ← hentries]
  constructor
  · rintro ⟨merged, hmerged, rfl⟩
    obtain ⟨loaded, hloaded, hfound⟩ := mergeWithAdditional_eq_ok.mp hmerged
    obtain rfl := Except.ok.inj hloaded
    have hall := parse_of_mergeBlocks hfound
    rw [mergeBlocks_eq fun b hb => (hall b hb).parse] at hfound
    obtain rfl := Except.ok.inj hfound
    exact ⟨hall, rfl⟩
  · rintro ⟨hall, rfl⟩
    have hmerge := mergeBlocks_eq (fun b hb => (hall b hb).parse) .empty
    refine ⟨⟨_, (blocks ++ s.additionalBlock).map fun b =>
      ⟨b.origin, (textDirectives b.text).length⟩⟩, ?_, rfl⟩
    rw [mergeWithAdditional, hmerge]
    rfl

end Settings

/-! ## Layers as blocks -/

/-- A lookup after a run of insertions depends on the directives alone, not on their origins. -/
theorem DirectiveTable.find?_insertEntries_congr {entries others : List TableEntry}
    (h : entries.map (·.directive) = others.map (·.directive)) (s : ImportSpec) :
    (empty.insertEntries entries).find? s = (empty.insertEntries others).find? s := by
  have hlast : ∀ l : List TableEntry, (empty.insertEntries l).find? s =
      ((l.map (·.directive)).filter
        (fun d => s.withoutLocalName.sameKey d.source.withoutLocalName)).getLast? := by
    intro l
    rw [find?, entry?_insertEntries, List.filter_map, List.getLast?_map]
    simp [empty, entry?, Function.comp_def, TableEntry.key]
  rw [hlast, hlast, h]

/-- The layer of a text as a block of additional text. -/
def DirectiveBlock.additional (text : String) : DirectiveBlock := ⟨additionalOrigin, text⟩

/-- The labels of additional text. -/
theorem labelled_additional (texts : List String) :
    labelled (fun b => textDirectives b.text) (texts.map .additional) =
      (texts.flatMap textDirectives).map (⟨·, DirectiveBlock.additionalOrigin⟩) := by
  simp [labelled, List.flatMap_map, List.map_flatMap, DirectiveBlock.additional]

/-- **Layers put together and layers as blocks.** Let a run be supplied with blocks, and its
settings be those of a configuration that the command line extends. It merges its directives exactly
when the supplied blocks can be read and so can the configured text and every text of the command
line, each as a block of its own. Its table is then that of all these blocks in order, the layers of
text having the origin of additional text; and whatever origins the layers have, the same directive
is found under every key. -/
theorem Tree.mergedDirectives_of_layers (t : Tree) (config : Config) (overrides : Overrides)
    (repoRoot : Path) (dryRun : Bool) (supply : DirectiveSupply)
    {discovered layers : List DirectiveBlock}
    (hsupply : t.suppliedBlocks ((config.merge overrides).settings repoRoot dryRun) supply =
      .ok discovered)
    (hlayers : layers.map (·.text) = config.additional :: overrides.additional) :
    ((∃ merged, t.mergedDirectives ((config.merge overrides).settings repoRoot dryRun) supply =
        .ok merged) ↔ ∀ b ∈ discovered ++ layers, ∃ directives, b.parse = .ok directives) ∧
    ∀ merged, t.mergedDirectives ((config.merge overrides).settings repoRoot dryRun) supply =
        .ok merged →
      DirectiveTable.ofBlocks (discovered ++ (layers.map (·.text)).map .additional) =
        .ok merged.table ∧
      ∃ table, DirectiveTable.ofBlocks (discovered ++ layers) = .ok table ∧
        ∀ s, merged.table.find? s = table.find? s := by
  have hadditional : ((config.merge overrides).settings repoRoot dryRun).additional =
      overrides.additional.foldl Config.appendText config.additional := rfl
  have hreadable : DirectivesReadable
      (overrides.additional.foldl Config.appendText config.additional) ↔
        ∀ b ∈ layers, DirectivesReadable b.text := by
    rw [directivesReadable_foldl_appendText, ← hlayers, List.forall_mem_map]
  have hdirectives : textDirectives
      (overrides.additional.foldl Config.appendText config.additional) =
        (layers.map (·.text)).flatMap textDirectives := by
    rw [textDirectives_foldl_appendText, ← hlayers]
  have hmerge : ∀ table, (∃ merged, t.mergedDirectives
      ((config.merge overrides).settings repoRoot dryRun) supply = .ok merged ∧
        merged.table = table) ↔ (∀ b ∈ discovered ++ layers, DirectivesReadable b.text) ∧
      table = DirectiveTable.empty.insertEntries (labelled (fun b => textDirectives b.text)
        (discovered ++ (layers.map (·.text)).map .additional)) := by
    intro table
    rw [mergedDirectives, hsupply, Settings.mergeWithAdditional_eq_ok_iff, hadditional, hreadable,
      hdirectives, labelled_append, labelled_additional, List.forall_mem_append]
  simp only [DirectiveBlock.exists_parse_eq_ok_iff]
  refine ⟨⟨?_, fun hall => ?_⟩, fun merged hmerged => ?_⟩
  · rintro ⟨merged, hmerged⟩
    exact ((hmerge merged.table).mp ⟨merged, hmerged, rfl⟩).1
  · obtain ⟨merged, hmerged, -⟩ := (hmerge _).mpr ⟨hall, rfl⟩
    exact ⟨merged, hmerged⟩
  · obtain ⟨hall, htable⟩ := (hmerge merged.table).mp ⟨merged, hmerged, rfl⟩
    have hblocks : ∀ b ∈ discovered ++ (layers.map (·.text)).map .additional,
        DirectivesReadable b.text := by
      simpa [DirectiveBlock.additional, or_imp, forall_and] using hall
    refine ⟨?_, _, DirectiveTable.mergeAll_eq (fun b hb => (hall b hb).parse) .empty, fun s => ?_⟩
    · rw [htable]
      exact DirectiveTable.mergeAll_eq (fun b hb => (hblocks b hb).parse) .empty
    · rw [htable]
      refine DirectiveTable.find?_insertEntries_congr ?_ s
      simp [map_directive_labelled, List.flatMap_map, DirectiveBlock.additional]

/-- A configured text that ends in a lone carriage return, then a text of the command line that
overrides it after a comment, then another. -/
theorem Tree.mergedDirectives_of_layers_overridden :
    let config : Config := { additional := "com.old.A -> com.x.A\r" }
    let overrides : Overrides :=
      { additional := ["// later\ncom.old.A -> com.y.A", "com.old.B -> com.z.B"] }
    let supply : DirectiveSupply := .given [⟨"m", "com.old.A -> com.w.A"⟩]
    ∃ merged table,
      (⟨[], []⟩ : Tree).mergedDirectives ((config.merge overrides).settings ⟨"."⟩ true) supply =
        .ok merged ∧
      DirectiveTable.ofBlocks [⟨"m", "com.old.A -> com.w.A"⟩, ⟨"config", "com.old.A -> com.x.A\r"⟩,
        ⟨"file", "// later\ncom.old.A -> com.y.A"⟩, ⟨"option", "com.old.B -> com.z.B"⟩] =
          .ok table ∧
      merged.table.find? ⟨"com.old", [], some "A", none⟩ =
        some ⟨⟨"com.old", [], some "A", none⟩, ⟨"com.y", [], some "A", none⟩, .replace⟩ := by
  intro config overrides supply
  let discovered : List DirectiveBlock := [⟨"m", "com.old.A -> com.w.A"⟩]
  let layers : List DirectiveBlock := [⟨"config", "com.old.A -> com.x.A\r"⟩,
    ⟨"file", "// later\ncom.old.A -> com.y.A"⟩, ⟨"option", "com.old.B -> com.z.B"⟩]
  have hsupply : (⟨[], []⟩ : Tree).suppliedBlocks
      ((config.merge overrides).settings ⟨"."⟩ true) supply = .ok discovered := rfl
  have hlayers : layers.map (·.text) = config.additional :: overrides.additional := rfl
  obtain ⟨hsuccess, hfound⟩ := Tree.mergedDirectives_of_layers _ config overrides ⟨"."⟩ true supply
    hsupply hlayers
  have hall : ∀ b ∈ discovered ++ layers, b.parse = .ok (b.parse.toOption.getD []) := by
    decide +kernel
  obtain ⟨merged, hmerged⟩ := hsuccess.mpr fun b hb => ⟨_, hall b hb⟩
  obtain ⟨-, table, htable, hsame⟩ := hfound merged hmerged
  refine ⟨merged, table, hmerged, htable, ?_⟩
  rw [hsame]
  have hfind : (DirectiveTable.ofBlocks (discovered ++ layers)).toOption.bind
      (·.find? ⟨"com.old", [], some "A", none⟩) =
        some ⟨⟨"com.old", [], some "A", none⟩, ⟨"com.y", [], some "A", none⟩, .replace⟩ := by
    decide +kernel
  rw [htable] at hfind
  exact hfind

end ImportMigration
