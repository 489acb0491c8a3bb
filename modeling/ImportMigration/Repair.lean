import ImportMigration.Directive.Table

/-! # Repairing imports

What becomes of imports under a directive table.

* `sortedSpecs`: the results for one import, distinct and in the order of import specs.
* `DirectiveTable.repair`: one import. A member import is replaced by the target of its directive
  and keeps its local name unless the target brings one or is a wildcard; a wildcard import stays
  and gains the contribution of each directive declared directly in its scope.
* `distinct`: the first of each group of equal specs.
* `DirectiveTable.repairAll`: a list of imports, results in input order without repetitions. -/

namespace ImportMigration

/-- Puts a spec into an increasing list unless an equal one is there. -/
def insertSpec (spec : ImportSpec) : List ImportSpec → List ImportSpec
  | [] => [spec]
  | s :: rest =>
    match spec.order s with
    | .lt => spec :: s :: rest
    | .eq => s :: rest
    | .gt => s :: insertSpec spec rest

/-- The specs of a list in increasing order, of equal ones the first. -/
def sortedSpecs (specs : List ImportSpec) : List ImportSpec :=
  specs.foldl (fun sorted s => insertSpec s sorted) []

/-- The specs of a list in their order, of equal ones the first. -/
def distinct : List ImportSpec → List ImportSpec
  | [] => []
  | s :: rest => s :: (distinct rest).filter (!s.sameKey ·)

/-- The target of a directive as it replaces an import: with the import's local name, if the target
has none and names an element. -/
def carryLocalName (spec target : ImportSpec) : ImportSpec :=
  match spec.localName with
  | some name =>
    if target.localName.isNone && !target.isScopeOnly then { target with localName := some name }
    else target
  | none => target

namespace DirectiveTable

/-- The imports that take the place of one import, in increasing order. -/
def repair (t : DirectiveTable) (spec : ImportSpec) : List ImportSpec :=
  if spec.isScopeOnly then
    -- A wildcard is never taken away, only joined by others.
    sortedSpecs (spec :: (t.withinScope spec).map (·.wildcardContribution))
  else
    match t.find? spec with
    | some d => [carryLocalName spec d.target]
    | none => [spec]

/-- The imports that take the place of a list of imports. -/
def repairAll (t : DirectiveTable) (specs : List ImportSpec) : List ImportSpec :=
  distinct ((distinct specs).flatMap t.repair)

end DirectiveTable

end ImportMigration
