/-! # Import specs

One qualified import reference: the package, the chain of enclosing types, the imported element and
the local name it gets. A spec without an element imports everything in its scope.

* `ImportSpec`: the four parts. Its values are free; those that a text can denote are singled out
  by the grammar.
* `ImportSpec.qualifiedName`, `ImportSpec.text`: the written forms without and with the local name.
* `ImportSpec.widened`, `ImportSpec.withoutLocalName`: the enclosing wildcard and the lookup form.
* `SpecError`: what a text can do wrong, with the wording of each fault. -/

namespace ImportMigration

/-- A qualified import reference such as `com.example.Owner.member as local`. -/
structure ImportSpec where
  /-- The package, its segments joined by dots. -/
  package : String
  /-- The enclosing types or objects, outermost first. -/
  owners : List String
  /-- The imported member or class; without one the spec is a wildcard over its scope. -/
  element : Option String
  /-- The name given with `as`. -/
  localName : Option String
deriving DecidableEq

namespace ImportSpec

/-- Whether the spec names no element: a wildcard over its package or innermost owner. -/
def isScopeOnly (s : ImportSpec) : Bool := s.element.isNone

/-- The segments of the qualified name as they are written: package, owners, element or `*`. -/
def segments (s : ImportSpec) : List String :=
  s.package :: s.owners ++ [s.element.getD "*"]

/-- The qualified name, ending in `.*` for a wildcard and without the local name. -/
def qualifiedName (s : ImportSpec) : String := ".".intercalate s.segments

/-- The written form: the qualified name and, where there is one, ` as ` with the local name. -/
def text (s : ImportSpec) : String :=
  match s.localName with
  | none => s.qualifiedName
  | some name => s.qualifiedName ++ " as " ++ name

/-- The same reference without its local name. Lookups are by this form. -/
def withoutLocalName (s : ImportSpec) : ImportSpec := { s with localName := none }

/-- The scope that holds the reference, as a wildcard. -/
def widened (s : ImportSpec) : ImportSpec := { s with element := none, localName := none }

end ImportSpec

/-- A fault in an import spec or in a directive line. Each but the first carries the text it was
found in. -/
inductive SpecError where
  /-- Nothing but blanks. -/
  | empty
  /-- Two dots in a row, or a dot at an end. -/
  | emptySegment (text : String)
  /-- A `*` that is not the last segment. -/
  | misplacedWildcard (text : String)
  /-- No segment is left over for the package. -/
  | missingPackage (text : String)
  /-- What follows `as` is not one word. -/
  | invalidLocalName (text : String)
  /-- Something other than `as` and a name follows the qualified name. -/
  | unexpectedText (text : String)
  /-- A directive line with fewer than two words after its keyword. -/
  | missingTarget (line : String)
deriving DecidableEq

/-- The wording of a fault. -/
def SpecError.message : SpecError → String
  | .empty => "empty import spec"
  | .emptySegment text => s!"empty segment in import spec `{text}`"
  | .misplacedWildcard text => s!"wildcard must be the last segment in `{text}`"
  | .missingPackage text => s!"import spec `{text}` has no package"
  | .invalidLocalName text => s!"invalid alias in import spec `{text}`"
  | .unexpectedText text => s!"unexpected text after qualified name in `{text}`"
  | .missingTarget line => s!"directive `{line}` needs both a source and a target"

end ImportMigration
