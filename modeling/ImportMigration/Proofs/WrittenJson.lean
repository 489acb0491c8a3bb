import ImportMigration.CommandLine.Run
import ImportMigration.Proofs.DirectiveTable
import ImportMigration.Proofs.JsonForms
import ImportMigration.Proofs.JsonText
import ImportMigration.Proofs.TreeWrites

/-! # What the program writes as JSON

The program writes two texts of JSON, the file of a report and the list of the merged directives.
Both are read back as what they were written from.

* `Tree.readText?_writeWithParents`: a file that was written holds its text.
* `Tree.report_read_back`: the report in a file.
* `TableEntry.agrees`, `DirectiveTable.listing_read_back`: the directives of a list, with the
  origins they came from. -/

namespace ImportMigration

open JsonValue

/-! ## The file of a report -/

namespace Tree

/-- What was written to a path is read there. -/
theorem readText?_writeText? {t t' : Tree} {path : Path} {text : String}
    (h : t.writeText? path text = some t') : t'.readText? path = some text := by
  rw [writeText?_eq] at h
  obtain ⟨l, hl, rfl⟩ := Option.map_eq_some_iff.mp h
  have hlocate := (sameDirs_put hl (.text text)).locate? path
  refine readText?_eq_some_iff.mpr ⟨l, hlocate.trans (target?_eq_some_iff.mp hl).1, ?_⟩
  rw [node?_put_target hl, if_pos rfl]

/-- A file that was written with its directories holds its text. -/
theorem readText?_writeWithParents {t t' : Tree} {path : Path} {text : String}
    (h : t.writeWithParents path text = (t', .ok ())) : t'.readText? path = some text := by
  rw [writeWithParents] at h
  split at h
  rename_i u made _
  split_ifs at h
  · split at h
    · cases h
    · rename_i v hwrite
      obtain rfl := congrArg Prod.fst h
      exact readText?_writeText? hwrite
  · cases h

/-- **A report that was written is read back from its file.** -/
theorem report_read_back {t t' : Tree} {report : Report} {path : Path} (hreport : report.WellFormed)
    (h : t.writeReport report path = (t', .ok ())) :
    ((t'.readText? path).bind JsonValue.read?).bind Report.ofJson? = some report := by
  rw [readText?_writeWithParents h, Option.bind_some, read?_pretty, Option.bind_some,
    Report.agrees.ofJson?_toJson report hreport]

end Tree

/-! ## The list of directives -/

/-- Reads a directive with its origin. -/
def TableEntry.ofJson? (v : JsonValue) : Option TableEntry := do
  let directive ← Directive.ofJson? v
  let field ← v.record? ["from", "to", "kind", "origin"]
  let origin ← (field "origin").bind str?
  return { directive, origin }

/-- **Directives with their origins agree with their JSON form.** -/
theorem TableEntry.agrees :
    Agrees (fun e : TableEntry => e.directive.source.Canonical ∧ e.directive.target.Canonical)
      toJson ofJson? fun v => (ofJson? v).map toJson where
  ofJson?_toJson e he := by
    simp [toJson, Directive.members, ofJson?, Directive.ofJson?, record?, List.lookup_cons,
      ImportSpec.agrees.ofJson?_toJson _ he.1, ImportSpec.agrees.ofJson?_toJson _ he.2,
      DirectiveKind.agrees.ofJson?_toJson _ trivial, agrees_str.ofJson?_toJson _ trivial]
  valid_of_ofJson? v e hread := by
    simp only [ofJson?, Option.bind_eq_bind, Option.bind_eq_some_iff] at hread
    obtain ⟨directive, hdirective, _, -, origin, -, hpure⟩ := hread
    obtain rfl := Option.some.inj hpure
    exact Directive.agrees.valid_of_ofJson? _ _ hdirective
  map_toJson _ := rfl

/-- **The list of merged directives is read back**, in its order and with all origins. -/
theorem DirectiveTable.listing_read_back {blocks : List DirectiveBlock} {table : DirectiveTable}
    (h : ofBlocks blocks = .ok table) :
    ((JsonValue.read? (table.listing .json)).bind arr?).bind (·.mapM TableEntry.ofJson?) =
      some table.entries := by
  have hlawful := lawful_ofBlocks h
  have hcanonical : ∀ e ∈ table.entries, e.directive.source.Canonical ∧
      e.directive.target.Canonical := by
    intro e he
    obtain ⟨slot, hslot, rfl⟩ := List.mem_map.mp he
    exact ⟨(hlawful.canonical slot hslot).source, (hlawful.canonical slot hslot).target⟩
  -- The list ends with a line feed, which the value itself does not have.
  have hend : IsSpaces "\n".toList := isSpaces_feed
  rw [listing, read?_pretty_append _ hend, Option.bind_some, arr?, Option.bind_some]
  exact TableEntry.agrees.mapM_map_toJson hcanonical

end ImportMigration
