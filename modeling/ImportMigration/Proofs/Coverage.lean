import ImportMigration.Proofs.Repairs

/-! # No import is lost

An import list covers a symbol when it names the symbol or opens its scope by a wildcard. Repairing
a list keeps every symbol that the list covers: at its new place where a directive moves it, else
where it was.

* `Covers`: the symbols that a list of imports makes available.
* `DirectiveTable.covers_repairAll`: coverage along a migration. -/

namespace ImportMigration

/-- Whether a list of imports makes the symbol that `q` names available: by `q` itself, whatever its
local name, or by the wildcard over the scope of `q`. -/
def Covers (specs : List ImportSpec) (q : ImportSpec) : Prop :=
  (∃ s ∈ specs, s.withoutLocalName = q.withoutLocalName) ∨
    ∃ s ∈ specs, s.isScopeOnly = true ∧ s.package = q.package ∧ s.owners = q.owners

/-- A wildcard is covered by itself only, whatever the local names. -/
theorem Covers.of_isScopeOnly {specs : List ImportSpec} {q : ImportSpec} (h : Covers specs q)
    (hq : q.isScopeOnly = true) : ∃ s ∈ specs, s.withoutLocalName = q.withoutLocalName := by
  rcases h with h | ⟨s, hs, hscope, hpackage, howners⟩
  · exact h
  · refine ⟨s, hs, ?_⟩
    simp only [ImportSpec.isScopeOnly, Option.isNone_iff_eq_none] at hq hscope
    simp only [ImportSpec.withoutLocalName, hpackage, howners, hq, hscope]

/-- What a wildcard gains from a directive covers the target of the directive. -/
theorem covers_wildcardContribution {specs : List ImportSpec} {d : Directive}
    (h : d.wildcardContribution ∈ specs) : Covers specs d.target := by
  cases hkind : d.kind with
  | move => exact Or.inr ⟨_, h, by simp [Directive.wildcardContribution, hkind, ImportSpec.widened,
      ImportSpec.isScopeOnly]⟩
  | replace => exact Or.inl ⟨_, h, by simp [Directive.wildcardContribution, hkind]⟩

/-- A symbol lies directly in the wildcard over its own scope. -/
theorem directlyWithin_of_scope_eq {s q : ImportSpec} (hpackage : s.package = q.package)
    (howners : s.owners = q.owners) : directlyWithin s.widened q = true :=
  directlyWithin_iff.mpr ⟨hpackage.symm, Or.inl howners.symm⟩

namespace DirectiveTable

section Coverage

variable {t : DirectiveTable} (h : t.Lawful) {specs : List ImportSpec}
  (hspecs : ∀ s ∈ specs, s.Canonical) {q : ImportSpec}

include h hspecs

/-- A symbol that is imported by name is covered at its new place. -/
theorem Lawful.covers_target_of_member {s : ImportSpec} (hs : s ∈ specs)
    (hmember : s.isScopeOnly = false) {d : Directive} (hd : d ∈ t.directives)
    (hsource : d.source = s.withoutLocalName) : Covers (t.repairAll specs) d.target := by
  have hfind := (h.find?_eq_some_iff (hspecs s hs)).mpr ⟨hd, hsource⟩
  refine Or.inl ⟨carryLocalName s d.target, ?_, withoutLocalName_carryLocalName s d.target⟩
  refine (h.mem_repairAll hspecs).mpr ⟨s, hs, ?_⟩
  simp [repair_of_find?_eq_some hmember hfind]

/-- A symbol that is imported by a wildcard is covered at its new place, if the interval of the
scope reaches it. -/
theorem Lawful.covers_target_of_scope {s : ImportSpec} (hs : s ∈ specs)
    (hscope : s.isScopeOnly = true) {d : Directive} (hd : d ∈ t.directives)
    (hwithin : directlyWithin s.widened d.source = true)
    (hreach : scopeReaches s.widened d.source = true) : Covers (t.repairAll specs) d.target := by
  have hquery := (h.mem_withinScope (hspecs s hs)).mpr ⟨hd, hwithin, hreach⟩
  refine covers_wildcardContribution ((h.mem_repairAll hspecs).mpr ⟨s, hs, ?_⟩)
  exact (h.mem_repair_scope (hspecs s hs) hscope).mpr (Or.inr ⟨d, hquery, rfl⟩)

/-- A symbol without a directive stays covered. -/
theorem Lawful.covers_of_no_directive (hq : Covers specs q) (hmember : q.isScopeOnly = false)
    (hnone : ∀ d ∈ t.directives, d.source ≠ q.withoutLocalName) :
    Covers (t.repairAll specs) q := by
  rcases hq with ⟨s, hs, hsame⟩ | ⟨s, hs, hscope, hplace⟩
  · have hsmember : s.isScopeOnly = false := by
      have := congrArg ImportSpec.isScopeOnly hsame
      exact this.trans hmember
    have hfind := (h.find?_eq_none_iff (hspecs s hs)).mpr (hsame ▸ hnone)
    refine Or.inl ⟨s, (h.mem_repairAll hspecs).mpr ⟨s, hs, ?_⟩, hsame⟩
    simp [repair_of_find?_eq_none hsmember hfind]
  · refine Or.inr ⟨s, (h.mem_repairAll hspecs).mpr ⟨s, hs, ?_⟩, hscope, hplace⟩
    exact (h.mem_repair_scope (hspecs s hs) hscope).mpr (Or.inl rfl)

end Coverage

/-- **A migration loses no import.** Let a list of imports that are read cover a symbol whose name
starts inside the bounds of the scope query. If the table of some blocks has a directive for the
symbol, the repaired list covers the directive's target, and holds it, up to its local name, when it
is a wildcard; without a directive the repaired list covers the symbol itself. -/
theorem covers_repairAll {blocks : List DirectiveBlock} {t : DirectiveTable}
    (ht : ofBlocks blocks = .ok t) {specs : List ImportSpec}
    (hspecs : ∀ s ∈ specs, ∃ text, ImportSpec.parse text = .ok s) {q : ImportSpec} {name : String}
    (hcovered : Covers specs q) (hname : q.element = some name)
    (hstart : startsBetween name = true) :
    (∀ d ∈ t.directives, d.source.withoutLocalName = q.withoutLocalName →
        Covers (t.repairAll specs) d.target ∧
          (d.target.isScopeOnly = true →
            ∃ s ∈ t.repairAll specs, s.withoutLocalName = d.target.withoutLocalName)) ∧
      ((∀ d ∈ t.directives, d.source.withoutLocalName ≠ q.withoutLocalName) →
        Covers (t.repairAll specs) q) := by
  have h := lawful_ofBlocks ht
  have hcanonical : ∀ s ∈ specs, s.Canonical := by
    intro s hs
    obtain ⟨text, htext⟩ := hspecs s hs
    exact ImportSpec.canonical_of_parse htext
  have hsource : ∀ d ∈ t.directives, d.source.withoutLocalName = d.source :=
    fun d hd => ImportSpec.withoutLocalName_eq_self (h.canonical_of_mem hd).sourceLocalName
  have hmember : q.isScopeOnly = false := by simp [ImportSpec.isScopeOnly, hname]
  refine ⟨fun d hd hq => ?_, fun hnone => ?_⟩
  · rw [hsource d hd] at hq
    have hcover : Covers (t.repairAll specs) d.target := by
      rcases hcovered with ⟨s, hs, hsame⟩ | ⟨s, hs, hscope, hpackage, howners⟩
      · have hsmember : s.isScopeOnly = false := (congrArg ImportSpec.isScopeOnly hsame).trans hmember
        exact h.covers_target_of_member hcanonical hs hsmember hd (hq.trans hsame.symm)
      · have hreach : scopeReaches s.widened d.source = true := by
          refine scopeReaches_of_startsBetween ?_
          have hmemberName : memberName s.widened d.source = name := by
            simp [memberName, hq, ImportSpec.widened, ImportSpec.withoutLocalName, howners, hname]
          rwa [hmemberName]
        refine h.covers_target_of_scope hcanonical hs hscope hd ?_ hreach
        exact directlyWithin_of_scope_eq (by rw [hq]; exact hpackage) (by rw [hq]; exact howners)
    exact ⟨hcover, hcover.of_isScopeOnly⟩
  · refine h.covers_of_no_directive hcanonical hcovered hmember fun d hd => ?_
    rw [← hsource d hd]
    exact hnone d hd

/-- A wildcard over the old package of a moved class covers the class at its new place. -/
theorem covers_repairAll_moved_class :
    ofBlocks [⟨"a", "MOVE com.old.Test -> com.new.Test"⟩] = .ok movedTest ∧
      ImportSpec.parse "com.old.*" = .ok ⟨"com.old", [], none, none⟩ ∧
      Covers [⟨"com.old", [], none, none⟩] ⟨"com.old", [], some "Test", none⟩ ∧
      startsBetween "Test" = true ∧
      Covers (movedTest.repairAll [⟨"com.old", [], none, none⟩])
        ⟨"com.new", [], some "Test", none⟩ := by
  have hspec : ImportSpec.parse "com.old.*" = .ok ⟨"com.old", [], none, none⟩ := by decide +kernel
  have hcovered : Covers [⟨"com.old", [], none, none⟩] ⟨"com.old", [], some "Test", none⟩ :=
    Or.inr ⟨_, List.mem_singleton_self _, rfl, rfl, rfl⟩
  have hstart : startsBetween "Test" = true := by decide
  have hresult := covers_repairAll ofBlocks_movedTest (by simpa using ⟨_, hspec⟩) hcovered rfl hstart
  exact ⟨ofBlocks_movedTest, hspec, hcovered, hstart,
    (hresult.1 _ (List.mem_singleton_self _) rfl).1⟩

end DirectiveTable

end ImportMigration
