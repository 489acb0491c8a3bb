import ImportMigration.Proofs.DirectiveTable

/-! # The scope query and the plain scan

The query for a scope walks one interval of the order, from the wildcard of the scope to its
greatest name, and keeps the sources that lie directly in the scope. A plain scan of the table keeps
the same sources but also those that the interval does not hold: a name that starts with a character
below `*` sorts before the interval, and one that starts with the greatest character sorts behind
it.

* `memberName`: the segment of a source right below a scope.
* `scopeReaches`: whether the interval of a scope holds a source that lies directly in the scope.
* `DirectiveTable.Lawful.withinScope_eq_filter`: the query is the scan restricted to what the
  interval reaches. -/

namespace ImportMigration

/-- The segment of `source` right below `scope`: an owner where `source` has more of them, else the
element or the wildcard. -/
def memberName (scope source : ImportSpec) : String :=
  source.owners[scope.owners.length]?.getD (source.element.getD "*")

/-- Whether the interval of a scope holds a source directly in the scope. Its name starts with `*`
or a later character; the greatest character is the end of the interval, so only the element that is
this character alone may start with it. -/
def scopeReaches (scope source : ImportSpec) : Bool :=
  match (memberName scope source).toList with
  | [] => false
  | c :: _ => '*' ≤ c && (c < Char.ofNat 0x10FFFF ||
      source == { scope with element := some DirectiveTable.scopeEnd })

/-- Whether a name starts with a character strictly between `*` and the greatest one. -/
def startsBetween (name : String) : Bool :=
  match name.toList with
  | [] => false
  | c :: _ => '*' < c && c < Char.ofNat 0x10FFFF

/-- The interval of a scope reaches every member whose name starts inside its bounds. -/
theorem scopeReaches_of_startsBetween {scope source : ImportSpec}
    (h : startsBetween (memberName scope source) = true) : scopeReaches scope source = true := by
  simp only [startsBetween] at h
  simp only [scopeReaches]
  split at h
  · cases h
  · rename_i c rest hname
    rw [Bool.and_eq_true, decide_eq_true_eq, decide_eq_true_eq] at h
    have hle : '*' ≤ c := Nat.le_of_lt (show '*'.toNat < c.toNat from h.1)
    simp [hle, h.2]

/-! ## Comparing names below a scope -/

/-- A text sorts before `*` exactly when its first character does. -/
theorem compare_wildcard_ne_gt (c : Char) (rest : List Char) :
    compare ['*'] (c :: rest) ≠ .gt ↔ '*' ≤ c := by
  have hle : '*' ≤ c ↔ '*'.toNat ≤ c.toNat := Iff.rfl
  have hrest : compare [] rest ≠ .gt := by cases rest <;> simp
  rw [List.compare_cons_cons, compare_toNat, hle]
  cases hcmp : compare '*'.toNat c.toNat with
  | lt =>
    rw [Nat.compare_eq_lt] at hcmp
    simpa using hcmp.le
  | eq =>
    rw [Nat.compare_eq_eq] at hcmp
    simpa [hcmp] using hrest
  | gt =>
    rw [Nat.compare_eq_gt] at hcmp
    simpa using hcmp

/-- A text sorts behind the greatest character exactly when it starts with it and goes on. -/
theorem compare_scopeEnd_ne_gt (c : Char) (rest : List Char) :
    compare (c :: rest) [Char.ofNat 0x10FFFF] ≠ .gt ↔
      c < Char.ofNat 0x10FFFF ∨ c :: rest = [Char.ofNat 0x10FFFF] := by
  have hgreatest : (Char.ofNat 0x10FFFF).toNat = 0x10FFFF := by decide
  have hlt : c < Char.ofNat 0x10FFFF ↔ c.toNat < (Char.ofNat 0x10FFFF).toNat := Iff.rfl
  have heq : c = Char.ofNat 0x10FFFF ↔ c.toNat = (Char.ofNat 0x10FFFF).toNat := Char.toNat_inj.symm
  have hmax := toNat_le_greatest c
  rw [List.compare_cons_cons, compare_toNat, hlt, List.cons.injEq, heq, hgreatest]
  cases hcmp : compare c.toNat 0x10FFFF with
  | lt =>
    rw [Nat.compare_eq_lt] at hcmp
    simp [hcmp]
  | eq =>
    rw [Nat.compare_eq_eq] at hcmp
    cases rest <;> simp [hcmp]
  | gt =>
    rw [Nat.compare_eq_gt] at hcmp
    omega

/-! ## Names below a scope -/

/-- The name of a scope with the dot behind it, as characters. -/
def scopePath (scope : ImportSpec) : List Char :=
  (".".intercalate (scope.package :: scope.owners)).toList ++ ['.']

/-- A qualified name is the path of its scope and the element. -/
theorem qualifiedName_toList (s : ImportSpec) :
    s.qualifiedName.toList = scopePath s ++ (s.element.getD "*").toList := by
  rw [ImportSpec.qualifiedName, ImportSpec.segments,
    String.intercalate_append_of_ne_nil (by simp) (by simp)]
  simp [scopePath]

/-- The path of an owner in a scope is the path of the scope, the owner and a dot. -/
theorem scopePath_concat {scope source : ImportSpec} {o : String}
    (hpackage : source.package = scope.package) (howners : source.owners = scope.owners ++ [o]) :
    scopePath source = scopePath scope ++ (o.toList ++ ['.']) := by
  rw [scopePath, hpackage, howners, ← List.cons_append,
    String.intercalate_append_of_ne_nil (by simp) (by simp)]
  simp [scopePath]

/-- What lies directly in a scope has the owners of the scope, or is the wildcard over one more. -/
theorem directlyWithin_iff {scope source : ImportSpec} :
    directlyWithin scope source = true ↔ source.package = scope.package ∧
      (source.owners = scope.owners ∨
        source.element = none ∧ ∃ o, source.owners = scope.owners ++ [o]) := by
  simp only [directlyWithin, ImportSpec.isScopeOnly, Bool.and_eq_true, Bool.or_eq_true, beq_iff_eq,
    List.isPrefixOf_iff_prefix, Option.isNone_iff_eq_none, and_assoc]
  refine and_congr_right fun _ => or_congr_right (and_congr_right fun _ => ?_)
  constructor
  · rintro ⟨hlength, tail, htail⟩
    have hone : tail.length = 1 := by
      rw [← htail, List.length_append] at hlength
      omega
    obtain ⟨o, rfl⟩ := List.length_eq_one_iff.mp hone
    exact ⟨o, htail.symm⟩
  · rintro ⟨o, ho⟩
    exact ⟨by simp [ho], [o], ho.symm⟩

/-- The name of a source directly in a scope is the path of the scope, the member's name and, for
the wildcard over an owner, the wildcard. -/
theorem qualifiedName_of_directlyWithin {scope source : ImportSpec}
    (h : directlyWithin scope source = true) :
    ∃ rest, source.qualifiedName.toList =
      scopePath scope ++ ((memberName scope source).toList ++ rest) := by
  obtain ⟨hpackage, howners | ⟨helement, o, howners⟩⟩ := directlyWithin_iff.mp h
  · refine ⟨[], ?_⟩
    have hpath : scopePath source = scopePath scope := by
      simp only [scopePath, hpackage, howners]
    simp [qualifiedName_toList, hpath, memberName, howners]
  · refine ⟨".*".toList, ?_⟩
    simp [qualifiedName_toList, scopePath_concat hpackage howners, memberName, howners, helement]

/-- The member of a canonical source below a scope is a segment. -/
theorem isSegment_memberName {source : ImportSpec} (h : source.Canonical) (scope : ImportSpec) :
    IsSegment (memberName scope source) := by
  rw [memberName]
  cases howner : source.owners[scope.owners.length]? with
  | some o => exact (h.owners o (List.mem_of_getElem? howner)).toIsSegment
  | none =>
    cases helement : source.element with
    | some e => exact (h.element e helement).toIsSegment
    | none => exact isSegment_wildcard

/-- The end of a canonical scope's interval is canonical. -/
theorem canonical_scopeEnd {scope : ImportSpec} (h : scope.Canonical) :
    ({ scope with element := some DirectiveTable.scopeEnd } : ImportSpec).Canonical := by
  refine { h with element := ?_ }
  rintro e ⟨⟩
  exact ⟨⟨by decide, by decide, by decide⟩, by decide⟩

/-! ## The interval of a scope -/

section Interval

variable {scope source : ImportSpec} (hscope : scope.Canonical) (hsource : source.Canonical)
  (hscopeLocal : scope.localName = none) (hsourceLocal : source.localName = none)
  (hwithin : directlyWithin scope source = true)

include hscope hsource hscopeLocal hsourceLocal hwithin

/-- A source directly in a scope is not below the interval exactly when its name does not start
below `*`. -/
theorem order_scope_ne_gt (hwild : scope.element = none) {c : Char} {name : List Char}
    (hname : (memberName scope source).toList = c :: name) :
    scope.order source ≠ .gt ↔ '*' ≤ c := by
  obtain ⟨rest, hrest⟩ := qualifiedName_of_directlyWithin hwithin
  rw [hscope.order_eq_compare hsource hscopeLocal hsourceLocal, hrest, qualifiedName_toList scope,
    compare_append_left, hwild, hname]
  exact compare_wildcard_ne_gt c (name ++ rest)

/-- A source directly in a scope is not behind the interval exactly when its name does not start
with the greatest character, or is the end of the interval. -/
theorem order_scopeEnd_ne_gt {c : Char} {name : List Char}
    (hname : (memberName scope source).toList = c :: name) :
    source.order { scope with element := some DirectiveTable.scopeEnd } ≠ .gt ↔
      c < Char.ofNat 0x10FFFF ∨ source = { scope with element := some DirectiveTable.scopeEnd } := by
  obtain ⟨rest, hrest⟩ := qualifiedName_of_directlyWithin hwithin
  have hend := canonical_scopeEnd hscope
  have hendName : ({ scope with element := some DirectiveTable.scopeEnd } :
      ImportSpec).qualifiedName.toList = scopePath scope ++ [Char.ofNat 0x10FFFF] := by
    rw [qualifiedName_toList, Option.getD_some, DirectiveTable.scopeEnd, String.toList_singleton]
    rfl
  have hsame : c :: (name ++ rest) = [Char.ofNat 0x10FFFF] ↔
      source = { scope with element := some DirectiveTable.scopeEnd } := by
    rw [← hsource.order_eq_iff hend, hsource.order_eq_compare hend hsourceLocal hscopeLocal, hrest,
      hendName, compare_append_left, hname, Std.compare_eq_iff_eq, List.cons_append]
  rw [← hsame, hsource.order_eq_compare hend hsourceLocal hscopeLocal, hrest, hendName,
    compare_append_left, hname]
  exact compare_scopeEnd_ne_gt c (name ++ rest)

/-- The interval of a scope holds exactly the sources directly in the scope that it reaches. -/
theorem inScopeInterval_eq_scopeReaches (hwild : scope.element = none) :
    DirectiveTable.inScopeInterval scope source = scopeReaches scope source := by
  have hne : (memberName scope source).toList ≠ [] := by
    simpa using (isSegment_memberName hsource scope).ne_empty
  obtain ⟨c, name, hname⟩ := List.exists_cons_of_ne_nil hne
  have hlower := order_scope_ne_gt hscope hsource hscopeLocal hsourceLocal hwithin hwild hname
  have hupper := order_scopeEnd_ne_gt hscope hsource hscopeLocal hsourceLocal hwithin hname
  rw [Bool.eq_iff_iff]
  simp only [DirectiveTable.inScopeInterval, scopeReaches, hname, Bool.and_eq_true, Bool.or_eq_true,
    bne_iff_ne, decide_eq_true_eq, beq_iff_eq, hlower, hupper]

end Interval

namespace DirectiveTable

/-- The scan of a table for the sources directly in a scope, without the interval. -/
def scanScope (t : DirectiveTable) (spec : ImportSpec) : List Directive :=
  t.directives.filter fun d => directlyWithin spec.widened d.source

/-- **The scope query is the scan restricted to what the interval reaches.** -/
theorem Lawful.withinScope_eq_filter {t : DirectiveTable} (h : t.Lawful) {spec : ImportSpec}
    (hspec : spec.Canonical) :
    t.withinScope spec =
      (t.scanScope spec).filter fun d => scopeReaches spec.widened d.source := by
  have hslot : ∀ slot ∈ t.slots,
      (directlyWithin spec.widened slot.2.directive.source &&
        inScopeInterval spec.widened slot.1) =
      (directlyWithin spec.widened slot.2.directive.source &&
        scopeReaches spec.widened slot.2.directive.source) := by
    intro slot hmem
    have hd := h.canonical slot hmem
    cases hwithin : directlyWithin spec.widened slot.2.directive.source with
    | false => rfl
    | true =>
      rw [h.keyed slot hmem, inScopeInterval_eq_scopeReaches hspec.widened hd.source rfl
        hd.sourceLocalName hwithin rfl]
  simp only [withinScope, scanScope, directives, entries, List.map_map, List.filter_map,
    List.filter_filter]
  congr 1
  refine List.filter_congr fun slot hmem => ?_
  simpa [Bool.and_comm, Function.comp] using hslot slot hmem

/-- What the scope query yields. -/
theorem Lawful.mem_withinScope {t : DirectiveTable} (h : t.Lawful) {spec : ImportSpec}
    (hspec : spec.Canonical) {d : Directive} :
    d ∈ t.withinScope spec ↔ d ∈ t.directives ∧ directlyWithin spec.widened d.source = true ∧
      scopeReaches spec.widened d.source = true := by
  rw [h.withinScope_eq_filter hspec, scanScope, List.filter_filter, List.mem_filter,
    Bool.and_eq_true, and_comm (a := scopeReaches spec.widened d.source = true)]

/-- **When the scope query is the plain scan.** For every table of blocks and every spec that is
read, the query yields, in table order, the directives of the scan that the interval reaches; so it
is the scan exactly when the interval reaches them all. -/
theorem withinScope_eq_scanScope_iff {blocks : List DirectiveBlock} {t : DirectiveTable}
    (ht : ofBlocks blocks = .ok t) {text : String} {spec : ImportSpec}
    (hspec : ImportSpec.parse text = .ok spec) :
    t.withinScope spec = (t.scanScope spec).filter (scopeReaches spec.widened ·.source) ∧
      (t.withinScope spec = t.scanScope spec ↔
        ∀ d ∈ t.scanScope spec, scopeReaches spec.widened d.source = true) := by
  have hquery := (lawful_ofBlocks ht).withinScope_eq_filter (ImportSpec.canonical_of_parse hspec)
  refine ⟨hquery, ?_⟩
  rw [hquery, List.filter_eq_self]

/-- The two sides of the query at a scope with the members `$x`, which it misses, and `X`. -/
theorem withinScope_eq_scanScope_iff_dollar :
    ∃ (t : DirectiveTable) (spec : ImportSpec),
      ofBlocks [⟨"a", "com.old.$x -> com.new.y\ncom.old.X -> com.new.Y"⟩] = .ok t ∧
      ImportSpec.parse "com.old.*" = .ok spec ∧
      t.withinScope spec = (t.scanScope spec).filter (scopeReaches spec.widened ·.source) ∧
      (t.withinScope spec = t.scanScope spec ↔
        ∀ d ∈ t.scanScope spec, scopeReaches spec.widened d.source = true) := by
  have ht : ofBlocks [⟨"a", "com.old.$x -> com.new.y\ncom.old.X -> com.new.Y"⟩] = .ok
      ⟨[(⟨"com.old", [], some "$x", none⟩,
          ⟨⟨⟨"com.old", [], some "$x", none⟩, ⟨"com.new", [], some "y", none⟩, .replace⟩, "a"⟩),
        (⟨"com.old", [], some "X", none⟩,
          ⟨⟨⟨"com.old", [], some "X", none⟩, ⟨"com.new", [], some "Y", none⟩, .replace⟩, "a"⟩)]⟩ := by
    decide +kernel
  have hspec : ImportSpec.parse "com.old.*" = .ok ⟨"com.old", [], none, none⟩ := by decide +kernel
  exact ⟨_, _, ht, hspec, withinScope_eq_scanScope_iff ht hspec⟩

/-- The query is not always the scan: `$` sorts before `*`, so the query over `com.old.*` misses the
directive for `com.old.$x`. -/
theorem withinScope_ne_scanScope :
    ¬ ∀ (blocks : List DirectiveBlock) (t : DirectiveTable) (text : String) (spec : ImportSpec),
      ofBlocks blocks = .ok t → ImportSpec.parse text = .ok spec →
        t.withinScope spec = t.scanScope spec := by
  intro h
  have hquery := h [⟨"a", "com.old.$x -> com.new.y"⟩]
    ⟨[(⟨"com.old", [], some "$x", none⟩,
      ⟨⟨⟨"com.old", [], some "$x", none⟩, ⟨"com.new", [], some "y", none⟩, .replace⟩, "a"⟩)]⟩
    "com.old.*" ⟨"com.old", [], none, none⟩ (by decide +kernel) (by decide +kernel)
  exact absurd hquery (by decide +kernel)

end DirectiveTable

end ImportMigration
