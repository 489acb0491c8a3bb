import ImportMigration.Proofs.ScopeQuery
import ImportMigration.Proofs.SpecLists

/-! # What repairs consist of

Under a lawful table the repair of a canonical spec is a list of distinct canonical specs, and the
repair of a list is the list of first occurrences in the repairs of its items.

* `DirectiveTable.Lawful.mem_repair_scope`: a wildcard with the contributions of its scope.
* `DirectiveTable.Lawful.canonical_of_mem_repair`, `DirectiveTable.Lawful.pairwise_repair`.
* `DirectiveTable.Lawful.repairAll_eq`, `DirectiveTable.Lawful.mem_repairAll`: lists of imports. -/

namespace ImportMigration

/-- A carried local name keeps a canonical target canonical. -/
theorem canonical_carryLocalName {spec target : ImportSpec} (hspec : spec.Canonical)
    (htarget : target.Canonical) : (carryLocalName spec target).Canonical := by
  cases hlocal : spec.localName with
  | none => simpa [carryLocalName, hlocal] using htarget
  | some name =>
    rw [carryLocalName, hlocal]
    dsimp only
    split_ifs with hcarry
    · refine { htarget with localName := ?_ }
      rintro a ⟨⟩
      exact hspec.localName name hlocal
    · exact htarget

/-- Carrying a local name changes nothing else. -/
theorem withoutLocalName_carryLocalName (spec target : ImportSpec) :
    (carryLocalName spec target).withoutLocalName = target.withoutLocalName := by
  simp only [carryLocalName]
  split
  · split_ifs <;> rfl
  · rfl

/-- What a directive contributes to a wildcard is canonical. -/
theorem Directive.Canonical.wildcardContribution {d : Directive} (h : d.Canonical) :
    d.wildcardContribution.Canonical := by
  rw [Directive.wildcardContribution]
  split
  · exact h.target.widened
  · exact h.target

namespace DirectiveTable

/-- The directives of a lawful table are canonical. -/
theorem Lawful.canonical_of_mem {t : DirectiveTable} (h : t.Lawful) {d : Directive}
    (hd : d ∈ t.directives) : d.Canonical := by
  obtain ⟨slot, hslot, rfl⟩ := mem_directives.mp hd
  exact h.canonical slot hslot

/-- The repair of a member import is the target of its directive. -/
theorem repair_of_find?_eq_some {t : DirectiveTable} {s : ImportSpec} {d : Directive}
    (hmember : s.isScopeOnly = false) (hd : t.find? s = some d) :
    t.repair s = [carryLocalName s d.target] := by
  rw [repair, if_neg (by simp [hmember]), hd]

/-- A member import without a directive stays. -/
theorem repair_of_find?_eq_none {t : DirectiveTable} {s : ImportSpec}
    (hmember : s.isScopeOnly = false) (hd : t.find? s = none) : t.repair s = [s] := by
  rw [repair, if_neg (by simp [hmember]), hd]

section Repair

variable {t : DirectiveTable} (h : t.Lawful) {s : ImportSpec} (hs : s.Canonical)

include h hs

/-- A wildcard and the contributions to it are canonical. -/
theorem Lawful.canonical_scope :
    ∀ x ∈ s :: (t.withinScope s).map (·.wildcardContribution), x.Canonical := by
  intro x hx
  rcases List.mem_cons.mp hx with rfl | hx
  · exact hs
  · obtain ⟨d, hd, rfl⟩ := List.mem_map.mp hx
    exact (h.canonical_of_mem ((h.mem_withinScope hs).mp hd).1).wildcardContribution

/-- The repair of a wildcard holds the wildcard and the contributions of its scope. -/
theorem Lawful.mem_repair_scope (hscope : s.isScopeOnly = true) {x : ImportSpec} :
    x ∈ t.repair s ↔ x = s ∨ ∃ d ∈ t.withinScope s, d.wildcardContribution = x := by
  rw [repair, if_pos hscope, mem_sortedSpecs (h.canonical_scope hs)]
  simp

/-- The repair of a canonical spec consists of canonical specs. -/
theorem Lawful.canonical_of_mem_repair : ∀ x ∈ t.repair s, x.Canonical := by
  intro x hx
  cases hscope : s.isScopeOnly with
  | true =>
    rw [repair, if_pos hscope, mem_sortedSpecs (h.canonical_scope hs)] at hx
    exact h.canonical_scope hs x hx
  | false =>
    cases hfind : t.find? s with
    | none =>
      rw [repair_of_find?_eq_none hscope hfind, List.mem_singleton] at hx
      rw [hx]
      exact hs
    | some d =>
      rw [repair_of_find?_eq_some hscope hfind, List.mem_singleton] at hx
      have hd := h.canonical_of_mem ((h.find?_eq_some_iff hs).mp hfind).1
      rw [hx]
      exact canonical_carryLocalName hs hd.target

/-- The repair of a canonical spec increases. -/
theorem Lawful.pairwise_repair : (t.repair s).Pairwise fun a b => a.order b = .lt := by
  cases hscope : s.isScopeOnly with
  | true =>
    rw [repair, if_pos hscope]
    exact pairwise_sortedSpecs (h.canonical_scope hs)
  | false =>
    cases hfind : t.find? s with
    | none => simp [repair_of_find?_eq_none hscope hfind]
    | some d => simp [repair_of_find?_eq_some hscope hfind]

/-- The repair of a canonical spec has no repetitions. -/
theorem Lawful.nodup_repair : (t.repair s).Nodup :=
  nodup_of_pairwise_order (h.pairwise_repair hs)

end Repair

section RepairAll

variable {t : DirectiveTable} (h : t.Lawful) {specs : List ImportSpec}
  (hspecs : ∀ s ∈ specs, s.Canonical)

include h hspecs

/-- **The repair of a list** is the list of first occurrences in the repairs of its items; that
repeated items are repaired once makes no difference. -/
theorem Lawful.repairAll_eq : t.repairAll specs = (specs.flatMap t.repair).eraseDups := by
  rw [repairAll, distinct_eq_eraseDups hspecs, distinct_eq_eraseDups, eraseDups_flatMap_eraseDups]
  intro x hx
  obtain ⟨s, hs, hx⟩ := List.mem_flatMap.mp hx
  exact h.canonical_of_mem_repair (hspecs s (List.mem_eraseDups.mp hs)) x hx

/-- The repair of a list holds the repairs of its items. -/
theorem Lawful.mem_repairAll {x : ImportSpec} :
    x ∈ t.repairAll specs ↔ ∃ s ∈ specs, x ∈ t.repair s := by
  rw [h.repairAll_eq hspecs, List.mem_eraseDups, List.mem_flatMap]

/-- The repair of a list consists of canonical specs. -/
theorem Lawful.canonical_of_mem_repairAll : ∀ x ∈ t.repairAll specs, x.Canonical := by
  intro x hx
  obtain ⟨s, hs, hx⟩ := (h.mem_repairAll hspecs).mp hx
  exact h.canonical_of_mem_repair (hspecs s hs) x hx

/-- The repair of a list has no repetitions. -/
theorem Lawful.nodup_repairAll : (t.repairAll specs).Nodup := by
  rw [h.repairAll_eq hspecs]
  exact nodup_eraseDups _

end RepairAll

end DirectiveTable

end ImportMigration
