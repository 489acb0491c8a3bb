import ImportMigration.Directive.Block
import ImportMigration.ImportSpec.Order

/-! # The directive table

The directives of a run, keyed by their sources without local names and kept in the order of import
specs. Blocks are merged in order of precedence: a later directive takes the place of an earlier one
with the same key.

* `DirectiveTable.insert`, `DirectiveTable.merge`, `DirectiveTable.ofBlocks`: building a table;
  `DirectiveTable.exchange` also answers what an insertion replaces.
* `DirectiveTable.find?`: the entry of a key.
* `DirectiveTable.withinScope`: the directives declared directly in a scope. Its candidates are one
  interval of the order, from the scope to a name that sorts after every other in it; the interval
  also holds nested packages and owners, which `directlyWithin` sorts out. -/

namespace ImportMigration

/-- A directive and the origin of the block it came from. -/
structure TableEntry where
  /-- The directive. -/
  directive : Directive
  /-- Where it came from. -/
  origin : String
deriving DecidableEq

/-- Directives by key, the keys in increasing order. -/
structure DirectiveTable where
  /-- The keys with their entries. -/
  slots : List (ImportSpec × TableEntry)
deriving DecidableEq

/-- Whether `source` is the wildcard `scope` itself, is declared directly in it, or is the wildcard
over an owner declared directly in it. -/
def directlyWithin (scope source : ImportSpec) : Bool :=
  source.package == scope.package &&
    (source.owners == scope.owners ||
      (source.isScopeOnly && source.owners.length == scope.owners.length + 1 &&
        scope.owners.isPrefixOf source.owners))

namespace DirectiveTable

/-- The table without directives. -/
def empty : DirectiveTable := ⟨[]⟩

/-- The number of keys. -/
def size (t : DirectiveTable) : Nat := t.slots.length

/-- The entries in the order of their keys. -/
def entries (t : DirectiveTable) : List TableEntry := t.slots.map (·.2)

/-- Puts an entry where its key belongs; an equal key stays and its entry is replaced. -/
def insertSlot (key : ImportSpec) (entry : TableEntry) :
    List (ImportSpec × TableEntry) → List (ImportSpec × TableEntry)
  | [] => [(key, entry)]
  | (k, e) :: rest =>
    match key.order k with
    | .lt => (key, entry) :: (k, e) :: rest
    -- The key stays as it was first spelled.
    | .eq => (k, entry) :: rest
    | .gt => (k, e) :: insertSlot key entry rest

/-- The entry whose place an insertion under this key takes. -/
def replacedSlot? (key : ImportSpec) : List (ImportSpec × TableEntry) → Option TableEntry
  | [] => none
  | (k, e) :: rest =>
    match key.order k with
    | .lt => none
    | .eq => some e
    | .gt => replacedSlot? key rest

/-- The entry whose key compares equal to the spec without its local name. -/
def entry? (t : DirectiveTable) (spec : ImportSpec) : Option TableEntry :=
  (t.slots.find? fun slot => spec.withoutLocalName.sameKey slot.1).map (·.2)

/-- The directive for a spec, whatever local name the spec has. -/
def find? (t : DirectiveTable) (spec : ImportSpec) : Option Directive :=
  (t.entry? spec).map (·.directive)

/-- The table with one more directive, which replaces the entry of an equal key. -/
def insert (t : DirectiveTable) (directive : Directive) (origin : String) : DirectiveTable :=
  ⟨insertSlot directive.source.withoutLocalName { directive, origin } t.slots⟩

/-- Inserts a directive: the entry that it replaces, and the table afterwards. -/
def exchange (t : DirectiveTable) (directive : Directive) (origin : String) :
    Option TableEntry × DirectiveTable :=
  (replacedSlot? directive.source.withoutLocalName t.slots, t.insert directive origin)

/-- The table with a list of directives from one origin, in order. -/
def insertAll (t : DirectiveTable) (directives : List Directive) (origin : String) :
    DirectiveTable :=
  directives.foldl (fun table d => table.insert d origin) t

/-- The table with the directives of a block, and their number. A block with a bad line changes
nothing. -/
def merge (t : DirectiveTable) (block : DirectiveBlock) :
    Except BlockError (DirectiveTable × Nat) :=
  match block.parse with
  | .error fault => .error fault
  | .ok directives => .ok (t.insertAll directives block.origin, directives.length)

/-- The table with the directives of several blocks, merged in order. -/
def mergeAll (t : DirectiveTable) : List DirectiveBlock → Except BlockError DirectiveTable
  | [] => .ok t
  | block :: rest =>
    match t.merge block with
    | .error fault => .error fault
    | .ok (table, _) => mergeAll table rest

/-- The table of several blocks, merged in order. -/
def ofBlocks (blocks : List DirectiveBlock) : Except BlockError DirectiveTable :=
  empty.mergeAll blocks

/-- The greatest character, which as an element name sorts after the other names of a scope. -/
def scopeEnd : String := String.singleton (Char.ofNat 0x10FFFF)

/-- Whether a key lies between a scope and the end of the scope, both included. -/
def inScopeInterval (scope key : ImportSpec) : Bool :=
  scope.order key != .gt && key.order { scope with element := some scopeEnd } != .gt

/-- The directives whose sources lie directly in the scope of `spec`, in table order. -/
def withinScope (t : DirectiveTable) (spec : ImportSpec) : List Directive :=
  let scope := spec.widened
  (t.slots.filter fun slot => inScopeInterval scope slot.1).map (·.2.directive)
    |>.filter fun d => directlyWithin scope d.source

end DirectiveTable

end ImportMigration
