import ImportMigration.ImportSpec.Parse

/-! # Directives

A directive says where an imported symbol is found now.

* `DirectiveKind`: what a wildcard over the old scope gains, the whole new scope or the one symbol.
* `Directive.parse`: reads `[MOVE|REPLACE] source … target`. The keyword is followed by a space and
  read without regard to ASCII case; only the first and the last word after it count.
* `Directive.wildcardContribution`: what an enclosing wildcard import gains.
* `Directive.text`: the written form. -/

namespace ImportMigration

/-- How a directive acts on a wildcard import over the scope of its source. -/
inductive DirectiveKind where
  /-- The scope itself moved: the wildcard gains the target's scope. -/
  | move
  /-- One symbol is replaced: the wildcard gains exactly the target. -/
  | replace
deriving DecidableEq

/-- The keyword a directive of this kind is written with. -/
def DirectiveKind.keyword : DirectiveKind → String
  | .move => "MOVE"
  | .replace => "REPLACE"

/-- One migration rule: what `source` names is now found at `target`. -/
structure Directive where
  /-- The spec that is looked up. -/
  source : ImportSpec
  /-- The spec that takes its place. -/
  target : ImportSpec
  /-- How the directive acts on a wildcard. -/
  kind : DirectiveKind
deriving DecidableEq

namespace Directive

/-- What follows an upper-case keyword in a line that starts with it in any ASCII case. -/
def dropKeyword? : List Char → List Char → Option (List Char)
  | [], line => some line
  | k :: keyword, c :: line => if c.toUpper = k then dropKeyword? keyword line else none
  | _ :: _, [] => none

/-- The kind of a trimmed line and the text after its keyword; no keyword means replace. -/
def readKeyword (line : List Char) : DirectiveKind × List Char :=
  match dropKeyword? "MOVE ".toList line with
  | some rest => (.move, rest)
  | none =>
    match dropKeyword? "REPLACE ".toList line with
    | some rest => (.replace, rest)
    | none => (.replace, line)

/-- Reads one directive line. -/
def parse (source : String) : Except SpecError Directive :=
  let line := Text.trim source.toList
  let (kind, rest) := readKeyword line
  match Text.words rest with
  | first :: second :: others =>
    match ImportSpec.parse (String.ofList first) with
    | .error fault => .error fault
    | .ok origin =>
      match ImportSpec.parse (String.ofList ((second :: others).getLast (by simp))) with
      | .error fault => .error fault
      | .ok target => .ok { source := origin, target, kind }
  | _ => .error (.missingTarget (String.ofList line))

/-- What a wildcard import over the source's scope gains. -/
def wildcardContribution (d : Directive) : ImportSpec :=
  match d.kind with
  | .move => d.target.widened
  | .replace => d.target

/-- The written form. The arrow is one of the words between source and target that reading skips. -/
def text (d : Directive) : String :=
  d.kind.keyword ++ " " ++ d.source.text ++ " -> " ++ d.target.text

end Directive

end ImportMigration
