import ImportMigration.Proofs.RevisedImports

/-! # A second run

Where the targets of directives are themselves at rest, repairing a repaired list changes nothing,
order included, and so a text that was revised once is not revised again.

* `DirectiveTable.Unchained`: no directive applies to what a directive brings in.
* `DirectiveTable.Lawful.repairAll_repairAll`: repairing twice is repairing once.
* `DirectiveTable.reviseText_revised`: a revised text stays as it is. -/

namespace ImportMigration

namespace DirectiveTable

/-- Whether no directive applies to the target of a directive, nor to what it contributes to a
wildcard: each of them is its own repair. -/
def Unchained (t : DirectiveTable) : Prop :=
  ∀ d ∈ t.directives, t.repair d.target = [d.target] ∧
    t.repair d.wildcardContribution = [d.wildcardContribution]

instance (t : DirectiveTable) : Decidable t.Unchained :=
  inferInstanceAs (Decidable (∀ d ∈ t.directives, _))

/-- A target at rest stays at rest with a local name that it takes over. -/
theorem repair_carryLocalName {t : DirectiveTable} {target : ImportSpec}
    (h : t.repair target = [target]) (s : ImportSpec) :
    t.repair (carryLocalName s target) = [carryLocalName s target] := by
  rw [carryLocalName]
  split
  · rename_i name hname
    split_ifs with hcarry
    · obtain ⟨hlocal, hmember⟩ : target.localName = none ∧ target.isScopeOnly = false := by
        simpa using hcarry
      -- The lookup disregards local names, so it finds for the new spec what it finds for the target.
      cases hfind : t.find? target with
      | none => exact repair_of_find?_eq_none hmember hfind
      | some d =>
        have hsame : d.target = target := by
          rw [repair_of_find?_eq_some hmember hfind] at h
          simpa [carryLocalName, hlocal] using h
        have hrepair := repair_of_find?_eq_some (s := { target with localName := some name })
          hmember hfind
        rw [hrepair, hsame]
        simp [carryLocalName, hcarry]
    · exact h
  · exact h

section SecondRun

variable {t : DirectiveTable} (h : t.Lawful) (hchain : t.Unchained)

include h hchain

/-- What the repair of a spec brings in is at rest; only the spec itself may still be in it. -/
theorem Lawful.repair_of_mem_repair {s : ImportSpec} (hs : s.Canonical) :
    ∀ x ∈ t.repair s, t.repair x = [x] ∨ x = s := by
  intro x hx
  cases hscope : s.isScopeOnly with
  | true =>
    rcases (h.mem_repair_scope hs hscope).mp hx with rfl | ⟨d, hd, rfl⟩
    · exact Or.inr rfl
    · exact Or.inl (hchain d ((h.mem_withinScope hs).mp hd).1).2
  | false =>
    cases hfind : t.find? s with
    | none =>
      rw [repair_of_find?_eq_none hscope hfind] at hx
      exact Or.inr (List.mem_singleton.mp hx)
    | some d =>
      rw [repair_of_find?_eq_some hscope hfind] at hx
      obtain rfl := List.mem_singleton.mp hx
      have hd := ((h.find?_eq_some_iff hs).mp hfind).1
      exact Or.inl (repair_carryLocalName (hchain d hd).1 s)

/-- **Repairing twice is repairing once**, in the same order. -/
theorem Lawful.repairAll_repairAll {specs : List ImportSpec} (hspecs : ∀ s ∈ specs, s.Canonical) :
    t.repairAll (t.repairAll specs) = t.repairAll specs := by
  have hitem : ∀ s ∈ specs, ((t.repair s).flatMap t.repair).eraseDups = (t.repair s).eraseDups := by
    intro s hs
    have hnodup := h.nodup_repair (hspecs s hs)
    rw [eraseDups_of_nodup hnodup]
    exact eraseDups_flatMap_of_fixed hnodup rfl (h.repair_of_mem_repair hchain (hspecs s hs))
  calc t.repairAll (t.repairAll specs)
      = ((t.repairAll specs).flatMap t.repair).eraseDups :=
        h.repairAll_eq (h.canonical_of_mem_repairAll hspecs)
    _ = ((specs.flatMap t.repair).flatMap t.repair).eraseDups := by
        rw [h.repairAll_eq hspecs, eraseDups_flatMap_eraseDups]
    _ = (specs.flatMap fun s => (t.repair s).flatMap t.repair).eraseDups := by
        rw [List.flatMap_assoc]
    _ = (specs.flatMap t.repair).eraseDups := eraseDups_flatMap_congr hitem
    _ = t.repairAll specs := (h.repairAll_eq hspecs).symm

/-- A text whose imports are a repaired list is left alone. -/
theorem Lawful.reviseText_of_readsImports_repairAll {specs : List ImportSpec}
    (hspecs : ∀ s ∈ specs, s.Canonical) {text : String}
    (hreads : ReadsImports (sourceLines text) (t.repairAll specs)) : t.reviseText text = .ok none := by
  rw [reviseText_eq hreads, if_pos (h.repairAll_repairAll hchain hspecs)]

end SecondRun

/-- **A second run changes nothing.** If no directive of the table of some blocks applies to what a
directive brings in, a text that was revised is not revised again. -/
theorem reviseText_revised {blocks : List DirectiveBlock} {t : DirectiveTable}
    (ht : ofBlocks blocks = .ok t) (hchain : t.Unchained) {text : String} {out : Revision String}
    (h : t.reviseText text = .ok (some out)) : t.reviseText out.content = .ok none := by
  have hlawful := lawful_ofBlocks ht
  obtain ⟨specs, hreads, hchanged, rfl⟩ := of_reviseText_eq_some h
  have hrevised := hlawful.readsImports_revisedText hreads (ne_nil_of_repairAll_ne hchanged)
  rw [reviseText_eq hrevised, if_pos (hlawful.repairAll_repairAll hchain hreads.canonical)]

/-- The wildcard over a package whose class moved gains a wildcard, and is not expanded again. -/
theorem reviseText_revised_wildcard :
    ∃ out : Revision String,
      ofBlocks [⟨"a", "MOVE com.old.Test -> com.new.Test"⟩] = .ok movedTest ∧ movedTest.Unchained ∧
        movedTest.reviseText "import com.old.Test as T\nimport com.old.*\n" = .ok (some out) ∧
        out.content = "import com.new.Test as T\nimport com.new.*\nimport com.old.*\n" ∧
        movedTest.reviseText out.content = .ok none := by
  have hchain : movedTest.Unchained := by decide +kernel
  have hout : movedTest.reviseText "import com.old.Test as T\nimport com.old.*\n" = .ok (some
      ⟨"import com.new.Test as T\nimport com.new.*\nimport com.old.*\n", 2, 3⟩) := by
    decide +kernel
  exact ⟨_, ofBlocks_movedTest, hchain, hout, rfl, reviseText_revised ofBlocks_movedTest hchain hout⟩

end DirectiveTable

end ImportMigration
