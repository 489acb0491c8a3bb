import ImportMigration.Directive.Basic
import ImportMigration.Json.Value

/-! # The JSON form of specs and directives

A spec is written as its text and read by the grammar of import specs; a directive is a record of
its source, its target and its kind, all of which must be there.

* `ImportSpec.toJson`, `ImportSpec.ofJson?`
* `DirectiveKind.toJson`, `DirectiveKind.ofJson?`
* `Directive.members`, `Directive.toJson`, `Directive.ofJson?` -/

namespace ImportMigration

/-- The JSON form of a spec. -/
def ImportSpec.toJson (s : ImportSpec) : JsonValue := .str s.text

/-- Reads a spec. -/
def ImportSpec.ofJson? (v : JsonValue) : Option ImportSpec :=
  v.str?.bind fun text => (ImportSpec.parse text).toOption

/-- The name of a kind. -/
def DirectiveKind.name : DirectiveKind → String
  | .move => "move"
  | .replace => "replace"

/-- The kind of a name. -/
def DirectiveKind.ofName? : String → Option DirectiveKind
  | "move" => some .move
  | "replace" => some .replace
  | _ => none

/-- The JSON form of a kind. -/
def DirectiveKind.toJson (k : DirectiveKind) : JsonValue := .str k.name

/-- Reads a kind. -/
def DirectiveKind.ofJson? (v : JsonValue) : Option DirectiveKind :=
  v.variant?.bind DirectiveKind.ofName?

/-- The members of a directive's JSON form. -/
def Directive.members (d : Directive) : List (String × JsonValue) :=
  [("from", d.source.toJson), ("to", d.target.toJson), ("kind", d.kind.toJson)]

/-- The JSON form of a directive. -/
def Directive.toJson (d : Directive) : JsonValue := .obj d.members

/-- Reads a directive. -/
def Directive.ofJson? (v : JsonValue) : Option Directive := do
  let field ← v.record? ["from", "to", "kind"]
  let source ← (field "from").bind ImportSpec.ofJson?
  let target ← (field "to").bind ImportSpec.ofJson?
  let kind ← (field "kind").bind DirectiveKind.ofJson?
  return { source, target, kind }

end ImportMigration
