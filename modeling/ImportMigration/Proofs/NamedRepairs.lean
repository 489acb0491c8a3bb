import ImportMigration.Proofs.Merging
import ImportMigration.Proofs.Repairs

/-! # Repairs by qualified names

What becomes of an import can be read off qualified names alone. A member import looks for the last
directive whose source has its name. A wildcard gains what the directives contribute whose source
has the name of the wildcard itself, the path of the scope with one segment behind it, or such a
name with `.*` behind it; a segment in lowercase behind a package is part of a package, so the last
of these does not count there.

* `NamedWithin`: the names of what is declared directly in a scope.
* `directlyWithin_iff_namedWithin`: they are those of the sources that lie directly in the scope.
* `lastOfEachSource`, `DirectiveTable.mem_directives_iff`: the directives that merging keeps.
* `DirectiveTable.repair_by_names`: repairs in terms of names. -/

namespace ImportMigration

/-! ## Names directly in a scope -/

/-- The names of what is declared directly in a scope, `path` being the name of the scope with the
dot behind it. -/
inductive NamedWithin (path : String) (hasOwners : Bool) : String → Prop where
  /-- The wildcard over the scope. -/
  | scope : NamedWithin path hasOwners (path ++ "*")
  /-- A member of the scope. -/
  | member {x : String} (hx : IsName x) : NamedWithin path hasOwners (path ++ x)
  /-- The wildcard over an owner. Right behind a package an owner does not start in lowercase. -/
  | owner {x : String} (hx : IsName x) (hlower : startsLowercase x = true → hasOwners = true) :
    NamedWithin path hasOwners (path ++ x ++ ".*")

/-- A qualified name is the path of its scope and the element or the wildcard. -/
theorem qualifiedName_eq_scopePath {scope source : ImportSpec}
    (hpackage : source.package = scope.package) (howners : source.owners = scope.owners) :
    source.qualifiedName = String.ofList (scopePath scope) ++ source.element.getD "*" := by
  have hpath : scopePath source = scopePath scope := by rw [scopePath, hpackage, howners, scopePath]
  rw [← String.toList_inj, qualifiedName_toList, hpath, String.toList_append, String.toList_ofList]

/-- The name of the wildcard over an owner in a scope. -/
theorem qualifiedName_of_owner {scope source : ImportSpec} {o : String}
    (hpackage : source.package = scope.package) (howners : source.owners = scope.owners ++ [o])
    (helement : source.element = none) :
    source.qualifiedName = String.ofList (scopePath scope) ++ o ++ ".*" := by
  rw [← String.toList_inj, qualifiedName_toList, scopePath_concat hpackage howners, helement]
  simp

section NamedWithin

variable {scope source : ImportSpec} (hscope : scope.Canonical) (hsource : source.Canonical)
  (hwild : scope.element = none) (hscopeLocal : scope.localName = none)
  (hsourceLocal : source.localName = none)

include hsource

/-- A source that lies directly in a scope has such a name. -/
theorem namedWithin_of_directlyWithin (h : directlyWithin scope source = true) :
    NamedWithin (String.ofList (scopePath scope)) (!scope.owners.isEmpty) source.qualifiedName := by
  obtain ⟨hpackage, howners | ⟨helement, o, howners⟩⟩ := directlyWithin_iff.mp h
  · rw [qualifiedName_eq_scopePath hpackage howners]
    cases helement : source.element with
    | none => exact .scope
    | some e => exact .member (hsource.element e helement)
  · rw [qualifiedName_of_owner hpackage howners helement]
    refine .owner (hsource.owners o (by simp [howners])) fun hlower => ?_
    -- Without owners above it, the owner is the first one.
    by_contra hempty
    have hnone : scope.owners = [] := by simpa using hempty
    have hfirst := hsource.firstOwner o (by simp [howners, hnone])
    rw [hlower] at hfirst
    cases hfirst

include hscope hwild hscopeLocal hsourceLocal

/-- **What lies directly in a scope is told by its name.** -/
theorem directlyWithin_iff_namedWithin :
    directlyWithin scope source = true ↔
      NamedWithin (String.ofList (scopePath scope)) (!scope.owners.isEmpty)
        source.qualifiedName := by
  refine ⟨namedWithin_of_directlyWithin hsource, fun h => ?_⟩
  -- The spec in the scope that has the name is canonical, so the source is that spec.
  have hunique : ∀ s : ImportSpec, s.Canonical → s.localName = none →
      source.qualifiedName = s.qualifiedName → source = s := fun s hs hlocal hname =>
    hsource.eq_of_qualifiedName hs hname (hsourceLocal.trans hlocal.symm)
  generalize hname : source.qualifiedName = name at h
  cases h with
  | scope =>
    have hwildcard : scope.qualifiedName = String.ofList (scopePath scope) ++ "*" := by
      rw [qualifiedName_eq_scopePath rfl rfl, hwild, Option.getD_none]
    rw [hunique scope hscope hscopeLocal (hname.trans hwildcard.symm)]
    exact directlyWithin_iff.mpr ⟨rfl, Or.inl rfl⟩
  | @member x hx =>
    have hcanonical : ({ scope with element := some x } : ImportSpec).Canonical := by
      refine { hscope with element := ?_ }
      rintro e ⟨⟩
      exact hx
    have hmember : ({ scope with element := some x } : ImportSpec).qualifiedName =
        String.ofList (scopePath scope) ++ x := qualifiedName_eq_scopePath rfl rfl
    rw [hunique _ hcanonical hscopeLocal (hname.trans hmember.symm)]
    exact directlyWithin_iff.mpr ⟨rfl, Or.inl rfl⟩
  | @owner x hx hlower =>
    have hcanonical : ({ scope with owners := scope.owners ++ [x] } : ImportSpec).Canonical := by
      refine { hscope with owners := ?_, firstOwner := ?_ }
      · intro o ho
        rcases List.mem_append.mp ho with ho | ho
        · exact hscope.owners o ho
        · obtain rfl := List.mem_singleton.mp ho
          exact hx
      · intro o ho
        cases howners : scope.owners with
        | nil =>
          rw [howners] at ho hlower
          obtain rfl : x = o := by simpa using ho
          simpa using hlower
        | cons first others =>
          refine hscope.firstOwner o ?_
          rw [howners] at ho ⊢
          simpa using ho
    have howner : ({ scope with owners := scope.owners ++ [x] } : ImportSpec).qualifiedName =
        String.ofList (scopePath scope) ++ x ++ ".*" := qualifiedName_of_owner rfl rfl hwild
    rw [hunique _ hcanonical hscopeLocal (hname.trans howner.symm)]
    exact directlyWithin_iff.mpr ⟨rfl, Or.inr ⟨hwild, x, rfl⟩⟩

end NamedWithin

/-! ## The directives that merging keeps -/

/-- The directives of a list that no later one with the same source follows. -/
def lastOfEachSource : List Directive → List Directive
  | [] => []
  | d :: rest =>
    if rest.any (·.source = d.source) then lastOfEachSource rest else d :: lastOfEachSource rest

/-- A directive is kept when it is the last one with its source. -/
theorem mem_lastOfEachSource_iff {directives : List Directive} {d : Directive} :
    d ∈ lastOfEachSource directives ↔
      (directives.filter (·.source = d.source)).getLast? = some d := by
  induction directives with
  | nil => simp [lastOfEachSource]
  | cons e rest ih =>
    rw [lastOfEachSource]
    by_cases hsource : e.source = d.source
    · rw [List.filter_cons_of_pos (by simpa using hsource), List.getLast?_cons, hsource]
      by_cases hlater : rest.any (·.source = d.source) = true
      · rw [if_pos hlater, ih]
        obtain ⟨x, hx, hxsource⟩ := List.any_eq_true.mp hlater
        have hne : rest.filter (·.source = d.source) ≠ [] :=
          List.ne_nil_of_mem (List.mem_filter.mpr ⟨hx, hxsource⟩)
        rw [List.getLast?_eq_some_getLast hne, Option.getD_some]
      · have hnone : rest.filter (·.source = d.source) = [] := by
          refine List.filter_eq_nil_iff.mpr fun x hx hxsource => hlater ?_
          exact List.any_eq_true.mpr ⟨x, hx, hxsource⟩
        rw [if_neg hlater, List.mem_cons, ih, hnone]
        simp [eq_comm]
    · rw [List.filter_cons_of_neg (by simpa using hsource), ← ih]
      have hne : d ≠ e := fun heq => hsource (heq ▸ rfl)
      split_ifs with hlater
      · rfl
      · simp [hne]

namespace DirectiveTable

/-- **The directives of a table of blocks** are those that no later one with the same source
follows. -/
theorem mem_directives_iff {directives : DirectiveBlock → List Directive}
    {blocks : List DirectiveBlock} (h : ∀ b ∈ blocks, b.parse = .ok (directives b))
    {d : Directive} :
    d ∈ (empty.insertEntries (labelled directives blocks)).directives ↔
      d ∈ lastOfEachSource (blocks.flatMap directives) := by
  have hcanonical : ∀ e ∈ labelled directives blocks, e.directive.Canonical :=
    fun e he => canonical_of_mem_labelled h he
  have hlawful := lawful_empty.insertEntries hcanonical
  -- The last entry under a key, stripped of its origin, is the last directive with that source.
  have hlast : (lastWith? (labelled directives blocks) d.source).map (·.directive) =
      ((blocks.flatMap directives).filter (·.source = d.source)).getLast? := by
    rw [lastWith?, ← List.getLast?_map, ← map_directive_labelled, List.filter_map]
    congr 2
    refine List.filter_congr fun e he => ?_
    rw [TableEntry.key, ImportSpec.withoutLocalName_eq_self (hcanonical e he).sourceLocalName]
    rfl
  rw [mem_lastOfEachSource_iff, ← hlast, Option.map_eq_some_iff, mem_directives]
  constructor
  · rintro ⟨⟨key, entry⟩, hslot, rfl⟩
    have hkey : key = entry.directive.source := hlawful.keyed _ hslot
    exact ⟨entry, (mem_slots_insertEntries hcanonical).mp (hkey ▸ hslot), rfl⟩
  · rintro ⟨entry, hentry, rfl⟩
    exact ⟨_, (mem_slots_insertEntries hcanonical).mpr hentry, rfl⟩

/-! ## Repairs -/

/-- The import that a directive without local names gives for a member import. -/
theorem carryLocalName_eq {spec target : ImportSpec} (h : target.localName = none) :
    carryLocalName spec target =
      if target.isScopeOnly then target else { target with localName := spec.localName } := by
  obtain ⟨package, owners, element, localName⟩ := target
  subst h
  cases hlocal : spec.localName with
  | none => simp [carryLocalName, hlocal]
  | some name => cases element <;> simp [carryLocalName, hlocal, ImportSpec.isScopeOnly]

/-- A source directly in a scope is reached by the scope query if its owners and its element start
inside the bounds of the query. -/
theorem scopeReaches_of_starts {scope source : ImportSpec}
    (h : ∀ x ∈ source.owners ++ source.element.toList, startsBetween x = true) :
    scopeReaches scope source = true := by
  cases howner : source.owners[scope.owners.length]? with
  | some o =>
    refine scopeReaches_of_startsBetween ?_
    rw [memberName, howner]
    exact h o (List.mem_append_left _ (List.mem_of_getElem? howner))
  | none =>
    cases helement : source.element with
    | some e =>
      refine scopeReaches_of_startsBetween ?_
      rw [memberName, howner, helement]
      exact h e (by simp [helement])
    | none =>
      -- The wildcard starts the interval.
      have hname : (memberName scope source).toList = ['*'] := by
        rw [memberName, howner, helement]
        rfl
      have hless : '*' < Char.ofNat 0x10FFFF := by decide
      simp [scopeReaches, hname, hless]

section Names

variable {t : DirectiveTable} (h : t.Lawful) {s : ImportSpec} (hs : s.Canonical)

include h hs

/-- A member import is looked up by its qualified name. -/
theorem Lawful.find?_eq_some_iff_name {d : Directive} :
    t.find? s = some d ↔ d ∈ t.directives ∧ d.source.qualifiedName = s.qualifiedName := by
  rw [h.find?_eq_some_iff hs]
  refine and_congr_right fun hd => ⟨fun heq => ?_, fun hname => ?_⟩
  · rw [heq]
    rfl
  · have hd := h.canonical_of_mem hd
    exact hd.source.eq_of_qualifiedName hs.withoutLocalName hname hd.sourceLocalName

/-- **A wildcard gains what the directives named directly in its scope contribute.** -/
theorem Lawful.mem_repair_scope_iff_name
    (hstarts : ∀ d ∈ t.directives, ∀ x ∈ d.source.owners ++ d.source.element.toList,
      startsBetween x = true) (hscope : s.isScopeOnly = true) {x : ImportSpec} :
    x ∈ t.repair s ↔ x = s ∨ ∃ d ∈ t.directives,
      NamedWithin (String.ofList (scopePath s)) (!s.owners.isEmpty) d.source.qualifiedName ∧
        d.wildcardContribution = x := by
  rw [h.mem_repair_scope hs hscope]
  refine or_congr_right (exists_congr fun d => ?_)
  rw [h.mem_withinScope hs, and_assoc, and_assoc]
  refine and_congr_right fun hd => ?_
  have hsource := h.canonical_of_mem hd
  have hreach : scopeReaches s.widened d.source = true := scopeReaches_of_starts (hstarts d hd)
  have hnamed := directlyWithin_iff_namedWithin hs.widened hsource.source rfl rfl
    hsource.sourceLocalName
  rw [hnamed, and_iff_right hreach]
  rfl

end Names

/-- **Repairs by names.** Let the owners and elements of the directives that merging keeps start
inside the bounds of the scope query. An import of an element stays when none of them has a source
of its name; otherwise the target of the one that has takes its place, with the import's local name
unless the target is a wildcard. A wildcard stays and gains the contributions of exactly those whose
sources are named directly within it, in increasing order. -/
theorem repair_by_names {directives : DirectiveBlock → List Directive}
    {blocks : List DirectiveBlock} (hblocks : ∀ b ∈ blocks, b.parse = .ok (directives b))
    (hstarts : ∀ d ∈ lastOfEachSource (blocks.flatMap directives),
      ∀ x ∈ d.source.owners ++ d.source.element.toList, startsBetween x = true)
    {text : String} {s : ImportSpec} (hs : ImportSpec.parse text = .ok s) :
    ∃ t, ofBlocks blocks = .ok t ∧
      (s.isScopeOnly = false →
        ((∀ d ∈ lastOfEachSource (blocks.flatMap directives),
            d.source.qualifiedName ≠ s.qualifiedName) → t.repair s = [s]) ∧
        ∀ d ∈ lastOfEachSource (blocks.flatMap directives),
          d.source.qualifiedName = s.qualifiedName →
            t.repair s = [if d.target.isScopeOnly then d.target
              else { d.target with localName := s.localName }]) ∧
      (s.isScopeOnly = true →
        ∃ path, s.qualifiedName = path ++ "*" ∧
          (t.repair s).Pairwise (fun x y => x.order y = .lt) ∧
          ∀ x, x ∈ t.repair s ↔ x = s ∨ ∃ d ∈ lastOfEachSource (blocks.flatMap directives),
            NamedWithin path (!s.owners.isEmpty) d.source.qualifiedName ∧
              d.wildcardContribution = x) := by
  have hs := ImportSpec.canonical_of_parse hs
  have ht := mergeAll_eq hblocks empty
  have h := lawful_ofBlocks ht
  simp only [← mem_directives_iff hblocks] at hstarts ⊢
  refine ⟨_, ht, fun hmember => ⟨fun hnone => ?_, fun d hd hname => ?_⟩, fun hscope => ?_⟩
  · refine repair_of_find?_eq_none hmember (Option.eq_none_iff_forall_ne_some.mpr fun d hfind => ?_)
    obtain ⟨hd, hname⟩ := (h.find?_eq_some_iff_name hs).mp hfind
    exact hnone d hd hname
  · have hfind := (h.find?_eq_some_iff_name hs).mpr ⟨hd, hname⟩
    rw [repair_of_find?_eq_some hmember hfind,
      carryLocalName_eq (h.canonical_of_mem hd).targetLocalName]
  · have helement : s.element = none := by simpa [ImportSpec.isScopeOnly] using hscope
    refine ⟨String.ofList (scopePath s), ?_, h.pairwise_repair hs,
      fun x => h.mem_repair_scope_iff_name hs hstarts hscope⟩
    rw [qualifiedName_eq_scopePath rfl rfl, helement, Option.getD_none]

/-- A wildcard over a package with a member whose directive was overridden and an owner that moved,
and the member imported under a local name. -/
theorem repair_by_names_overridden :
    let blocks : List DirectiveBlock :=
      [⟨"a", "com.old.test -> com.x.test\nMOVE com.old.Obj.* -> com.new.Obj.*"⟩,
        ⟨"b", "com.old.test -> com.new.test"⟩]
    ImportSpec.parse "com.old.*" = .ok ⟨"com.old", [], none, none⟩ ∧
      ImportSpec.parse "com.old.test as T" = .ok ⟨"com.old", [], some "test", some "T"⟩ ∧
      ∃ t, ofBlocks blocks = .ok t ∧
        ⟨"com.new", [], some "test", none⟩ ∈ t.repair ⟨"com.old", [], none, none⟩ ∧
        ⟨"com.new", ["Obj"], none, none⟩ ∈ t.repair ⟨"com.old", [], none, none⟩ ∧
        t.repair ⟨"com.old", [], some "test", some "T"⟩ =
          [⟨"com.new", [], some "test", some "T"⟩] := by
  intro blocks
  let directives (b : DirectiveBlock) : List Directive := b.parse.toOption.getD []
  let member : Directive :=
    ⟨⟨"com.old", [], some "test", none⟩, ⟨"com.new", [], some "test", none⟩, .replace⟩
  let owner : Directive :=
    ⟨⟨"com.old", ["Obj"], none, none⟩, ⟨"com.new", ["Obj"], none, none⟩, .move⟩
  have hblocks : ∀ b ∈ blocks, b.parse = .ok (directives b) := by decide +kernel
  have hkept : lastOfEachSource (blocks.flatMap directives) = [owner, member] := by decide +kernel
  have hstarts : ∀ d ∈ lastOfEachSource (blocks.flatMap directives),
      ∀ x ∈ d.source.owners ++ d.source.element.toList, startsBetween x = true := by
    rw [hkept]
    decide
  have hold : ImportSpec.parse "com.old.*" = .ok ⟨"com.old", [], none, none⟩ := by decide +kernel
  have htest : ImportSpec.parse "com.old.test as T" =
      .ok ⟨"com.old", [], some "test", some "T"⟩ := by
    decide +kernel
  obtain ⟨t, ht, -, hscope⟩ := repair_by_names hblocks hstarts hold
  obtain ⟨u, hu, hmember, -⟩ := repair_by_names hblocks hstarts htest
  obtain rfl := Except.ok.inj (ht.symm.trans hu)
  obtain ⟨path, hpath, -, hmem⟩ := hscope rfl
  obtain rfl : "com.old." = path := by
    refine String.append_left_inj "*" |>.mp (Eq.trans ?_ hpath)
    decide
  rw [hkept] at hmem hmember
  have hname : IsName "test" := ⟨⟨by decide, by decide, by decide⟩, by decide⟩
  have hobj : IsName "Obj" := ⟨⟨by decide, by decide, by decide⟩, by decide⟩
  refine ⟨hold, htest, t, ht, (hmem _).mpr (Or.inr ⟨member, by simp, .member hname, rfl⟩),
    (hmem _).mpr (Or.inr ⟨owner, by simp, .owner hobj (by decide), rfl⟩), ?_⟩
  exact (hmember rfl).2 member (by simp) rfl

end DirectiveTable

end ImportMigration
