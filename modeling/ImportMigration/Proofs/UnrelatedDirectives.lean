import ImportMigration.Proofs.FirstFaults
import ImportMigration.Proofs.Merging

/-! # Directives that do not concern a file

A directive concerns an import in two ways: it is the directive for the import, or its source lies
directly in the scope of a wildcard. One that concerns no import of a file can be added to a table,
or take the place of another, and the file is revised as before. The new key may well lie in the
interval that the query for a wildcard walks, among nested packages and owners; what is found there
is left out by its source, before and after.

* `Imports`: the specs that a file imports.
* `Directive.Unrelated`: a directive and an import that it does not concern.
* `DirectiveTable.filter_insertSlot`: an insertion is not seen by what leaves out its key.
* `DirectiveTable.Lawful.repair_insert`, `DirectiveTable.reviseText_congr`: from one import to a
  file.
* `DirectiveTable.reviseText_insert_of_unrelated`: the file. -/

namespace ImportMigration

/-! ## The imports of a file -/

/-- Whether an import line of a text is read as this spec. -/
def Imports (text : String) (s : ImportSpec) : Prop :=
  ∃ written ∈ importTexts (sourceLines text), ImportSpec.parse written = .ok s

/-- An import is canonical. -/
theorem Imports.canonical {text : String} {s : ImportSpec} (h : Imports text s) : s.Canonical := by
  obtain ⟨written, -, hparse⟩ := h
  exact ImportSpec.canonical_of_parse hparse

/-- The imports of a text whose import lines are all read. -/
theorem ReadsImports.imports_iff {text : String} {specs : List ImportSpec}
    (h : ReadsImports (sourceLines text) specs) {s : ImportSpec} : Imports text s ↔ s ∈ specs := by
  have hmem : Except.ok s ∈ (importTexts (sourceLines text)).map ImportSpec.parse ↔
      (Except.ok s : Except SpecError ImportSpec) ∈ specs.map .ok := by rw [h]
  simpa [Imports] using hmem

/-- What a directive and an import have to do with each other: nothing. -/
structure Directive.Unrelated (d : Directive) (s : ImportSpec) : Prop where
  /-- The directive is not the one for the import. -/
  source_ne : d.source ≠ s.withoutLocalName
  /-- Its source is not declared directly in the scope of a wildcard import, nor is it the wildcard
  over an owner that is. -/
  not_within : s.element = none → ¬ (d.source.package = s.package ∧
    (d.source.owners = s.owners ∨
      d.source.element = none ∧ ∃ o, d.source.owners = s.owners ++ [o]))

/-- An unrelated source does not lie directly in the scope of a wildcard import. -/
theorem Directive.Unrelated.directlyWithin_eq_false {d : Directive} {s : ImportSpec}
    (h : d.Unrelated s) (hscope : s.isScopeOnly = true) :
    directlyWithin s.widened d.source = false := by
  rw [Bool.eq_false_iff, ne_eq, directlyWithin_iff]
  exact h.not_within (Option.isNone_iff_eq_none.mp hscope)

/-! ## One import -/

namespace DirectiveTable

/-- A selection of slots that takes neither the new slot nor one with an equal key does not see an
insertion. -/
theorem filter_insertSlot {p : ImportSpec × TableEntry → Bool} {key : ImportSpec}
    {entry : TableEntry} {slots : List (ImportSpec × TableEntry)}
    (hnew : ∀ k, key.order k = .eq → p (k, entry) = false)
    (hold : ∀ slot ∈ slots, key.order slot.1 = .eq → p slot = false) :
    (insertSlot key entry slots).filter p = slots.filter p := by
  have hself : p (key, entry) = false := hnew key (ImportSpec.order_self key)
  induction slots with
  | nil => simp [insertSlot, hself]
  | cons head rest ih =>
    obtain ⟨k, e⟩ := head
    rw [insertSlot]
    cases hcmp : key.order k with
    | lt => simp [hself]
    | eq =>
      have hhead : p (k, e) = false := hold (k, e) List.mem_cons_self hcmp
      simp [hnew k hcmp, hhead]
    | gt =>
      simp only [List.filter_cons]
      rw [ih fun slot hslot => hold slot (List.mem_cons_of_mem _ hslot)]

/-- The scope query as one selection of slots. -/
theorem withinScope_eq_map_filter (t : DirectiveTable) (s : ImportSpec) :
    t.withinScope s = (t.slots.filter fun slot =>
      directlyWithin s.widened slot.2.directive.source && inScopeInterval s.widened slot.1).map
        (·.2.directive) := by
  simp only [withinScope, List.filter_map, List.filter_filter, Function.comp_def]

/-- A lookup does not see the insertion of a directive for another import. -/
theorem find?_insert_of_ne (t : DirectiveTable) {d : Directive} (hd : d.Canonical)
    (origin : String) {s : ImportSpec} (hs : s.Canonical) (hne : d.source ≠ s.withoutLocalName) :
    (t.insert d origin).find? s = t.find? s := by
  have hother : ¬ s.withoutLocalName.sameKey d.source.withoutLocalName = true := by
    rw [ImportSpec.withoutLocalName_eq_self hd.sourceLocalName,
      hs.withoutLocalName.sameKey_iff hd.source]
    exact fun hsame => hne hsame.symm
  rw [find?, find?, entry?_insert, if_neg hother]

section Unrelated

variable {t : DirectiveTable} (h : t.Lawful) {d : Directive} (hd : d.Canonical) (origin : String)

include h hd

/-- A query does not see the insertion of a directive whose source does not lie directly in its
scope. -/
theorem Lawful.withinScope_insert {s : ImportSpec}
    (hout : directlyWithin s.widened d.source = false) :
    (t.insert d origin).withinScope s = t.withinScope s := by
  rw [withinScope_eq_map_filter, withinScope_eq_map_filter, DirectiveTable.insert]
  congr 1
  refine filter_insertSlot (fun k _ => by simp [hout]) ?_
  intro slot hslot heq
  -- The entry that is replaced has the same source, so the query leaves it out as well.
  have hsource : d.source = slot.2.directive.source := by
    rw [ImportSpec.withoutLocalName_eq_self hd.sourceLocalName, h.keyed slot hslot] at heq
    exact (hd.source.order_eq_iff (h.canonical slot hslot).source).mp heq
  simp [← hsource, hout]

/-- **An import is repaired as before** once a directive that does not concern it is inserted. -/
theorem Lawful.repair_insert {s : ImportSpec} (hs : s.Canonical) (hfree : d.Unrelated s) :
    (t.insert d origin).repair s = t.repair s := by
  cases hscope : s.isScopeOnly with
  | true =>
    rw [repair, repair, if_pos hscope, if_pos hscope,
      h.withinScope_insert hd origin (hfree.directlyWithin_eq_false hscope)]
  | false =>
    rw [repair, repair, find?_insert_of_ne t hd origin hs hfree.source_ne]
    simp [hscope]

end Unrelated

/-! ## A file -/

/-- Leaving out repetitions adds no import. -/
theorem distinct_subset (specs : List ImportSpec) : distinct specs ⊆ specs := by
  induction specs with
  | nil => simp [distinct]
  | cons s rest ih =>
    rw [distinct]
    exact List.cons_subset_cons s fun x hx => ih (List.mem_of_mem_filter hx)

/-- Tables that repair every import of a list alike repair the list alike. -/
theorem repairAll_congr {t u : DirectiveTable} {specs : List ImportSpec}
    (h : ∀ s ∈ specs, t.repair s = u.repair s) : t.repairAll specs = u.repairAll specs := by
  rw [repairAll, repairAll, List.flatMap_congr fun s hs => h s (distinct_subset specs hs)]

/-- **A file is revised by the repairs of its imports alone.** Tables that repair them alike give
the same text, or the same fault. -/
theorem reviseText_congr {t u : DirectiveTable} {text : String}
    (h : ∀ s, Imports text s → t.repair s = u.repair s) :
    t.reviseText text = u.reviseText text := by
  cases hrevise : t.reviseText text with
  | error fault =>
    -- Which line is at fault does not depend on the table.
    rw [reviseText_eq_error_iff] at hrevise
    exact (reviseText_eq_error_iff.mpr hrevise).symm
  | ok revised =>
    obtain ⟨specs, hreads⟩ := exists_readsImports_of_reviseText hrevise
    have hall : t.repairAll specs = u.repairAll specs :=
      repairAll_congr fun s hs => h s (hreads.imports_iff.mpr hs)
    rw [← hrevise, reviseText_eq hreads, reviseText_eq hreads]
    simp only [revisedText, revisedLines, hall]

/-- **Unrelated directives do not interfere.** If a directive concerns no import of a text,
inserting it into the table of some blocks, under a new key or in the place of another directive,
changes neither the repair of an import nor what revising the text answers. -/
theorem reviseText_insert_of_unrelated {blocks : List DirectiveBlock} {t : DirectiveTable}
    (ht : ofBlocks blocks = .ok t) {line : String} {d : Directive}
    (hd : Directive.parse line = .ok d) (origin : String) {text : String}
    (hfree : ∀ s, Imports text s → d.Unrelated s) :
    (∀ s, Imports text s → (t.insert d origin).repair s = t.repair s) ∧
      (t.insert d origin).reviseText text = t.reviseText text := by
  have hrepair : ∀ s, Imports text s → (t.insert d origin).repair s = t.repair s := by
    intro s hs
    exact (lawful_ofBlocks ht).repair_insert (Directive.canonical_of_parse hd) origin hs.canonical
      (hfree s hs)
  exact ⟨hrepair, reviseText_congr hrepair⟩

/-- A class of a nested package sorts among the members of a package, but the wildcard over the
package gains nothing from its directive. -/
theorem reviseText_insert_of_unrelated_nested :
    ∃ d, ofBlocks [⟨"a", "MOVE com.old.Test -> com.new.Test"⟩] = .ok movedTest ∧
      Directive.parse "MOVE com.old.sub.Thing -> com.new.Thing" = .ok d ∧
      (∀ s, Imports "import com.old.*\nimport com.old.Test as T\n" s → d.Unrelated s) ∧
      inScopeInterval ⟨"com.old", [], none, none⟩ d.source = true ∧
      (movedTest.insert d "b").reviseText "import com.old.*\nimport com.old.Test as T\n" =
        .ok (some ⟨"import com.new.*\nimport com.old.*\nimport com.new.Test as T\n", 2, 3⟩) := by
  have hd : Directive.parse "MOVE com.old.sub.Thing -> com.new.Thing" = .ok
      ⟨⟨"com.old.sub", [], some "Thing", none⟩, ⟨"com.new", [], some "Thing", none⟩, .move⟩ := by
    decide +kernel
  have hreads : ReadsImports (sourceLines "import com.old.*\nimport com.old.Test as T\n")
      [⟨"com.old", [], none, none⟩, ⟨"com.old", [], some "Test", some "T"⟩] := by
    unfold ReadsImports
    decide +kernel
  have hfree : ∀ s, Imports "import com.old.*\nimport com.old.Test as T\n" s →
      (⟨⟨"com.old.sub", [], some "Thing", none⟩, ⟨"com.new", [], some "Thing", none⟩, .move⟩ :
        Directive).Unrelated s := by
    intro s hs
    have hcases := hreads.imports_iff.mp hs
    simp only [List.mem_cons, List.not_mem_nil, or_false] at hcases
    rcases hcases with rfl | rfl
    · exact ⟨by decide, by simp⟩
    · exact ⟨by decide, by simp⟩
  refine ⟨_, ofBlocks_movedTest, hd, hfree, by decide +kernel, ?_⟩
  rw [(reviseText_insert_of_unrelated ofBlocks_movedTest hd "b" hfree).2]
  decide +kernel

end DirectiveTable

end ImportMigration
