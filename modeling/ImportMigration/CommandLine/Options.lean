import ImportMigration.Path
import ImportMigration.Text.Lines

/-! # Command line options

The program has two commands, each with options of its own. An option is written `--name value` or
`--name=value`; a value that stands apart does not start with a dash unless it is the dash alone,
and a switch takes no value. An option is given at most once unless it may be repeated. There are
no abbreviations and no other arguments.

* `OptionRule`, `readOptions`: reading options against the rules of a command.
* `Command`, `Request`, `readRequest`: what the arguments ask for. -/

namespace ImportMigration

/-- An option of a command. -/
structure OptionRule where
  /-- Its name, without the dashes. -/
  name : String
  /-- Whether it takes a value. -/
  takesValue : Bool := true
  /-- Whether it may be given more than once. -/
  repeatable : Bool := false
  /-- The values it may have; without a list it may have any. -/
  choices : Option (List String) := none

/-- Whether an option may have a value. -/
def OptionRule.admits (rule : OptionRule) (value : String) : Bool :=
  match rule.choices with
  | none => true
  | some values => values.contains value

/-- Options as they were given, a switch with the empty value. -/
abbrev GivenOptions := List (String × String)

namespace GivenOptions

/-- The values of an option, in order. -/
def values (given : GivenOptions) (name : String) : List String :=
  (given.filter (·.1 == name)).map (·.2)

/-- The value of an option that is given at most once. -/
def value? (given : GivenOptions) (name : String) : Option String := given.lookup name

/-- Whether a switch is given. -/
def isSet (given : GivenOptions) (name : String) : Bool := (given.lookup name).isSome

end GivenOptions

/-- Arguments that are not followed. -/
inductive Refusal where
  /-- They are not understood. -/
  | usage
  /-- They ask for help. -/
  | help
deriving DecidableEq

/-- Whether an argument can be the value of the option before it. -/
def isSeparateValue (argument : String) : Bool :=
  argument == "-" || argument.toList.head? != some '-'

/-- The name of a long option and the value attached to it with `=`. -/
def splitOption (argument : List Char) : String × Option String :=
  let name := String.ofList (argument.takeWhile (· ≠ '='))
  match argument.dropWhile (· ≠ '=') with
  | [] => (name, none)
  | _ :: value => (name, some (String.ofList value))

/-- The rule for an option that may be given after those of the list. -/
def ruleFor? (rules : List OptionRule) (given : GivenOptions) (name : String) :
    Option OptionRule :=
  match rules.find? (·.name == name) with
  | none => none
  | some rule => if !rule.repeatable && given.isSet name then none else some rule

/-- Reads arguments in order, `given` being the options read so far. -/
def readOptions (rules : List OptionRule) (given : GivenOptions) :
    List String → Except Refusal GivenOptions
  | [] => .ok given
  | argument :: rest =>
    match argument.toList with
    | ['-', '-'] => if rest.isEmpty then .ok given else .error .usage
    | ['-', '-', 'h', 'e', 'l', 'p'] => .error .help
    | '-' :: '-' :: option =>
      let (name, attached) := splitOption option
      match ruleFor? rules given name with
      | none => .error .usage
      | some rule =>
        if rule.takesValue then
          match attached, rest with
          | some value, rest =>
            if rule.admits value then readOptions rules (given ++ [(name, value)]) rest
            else .error .usage
          | none, value :: rest =>
            if isSeparateValue value && rule.admits value then
              readOptions rules (given ++ [(name, value)]) rest
            else .error .usage
          | none, [] => .error .usage
        else if attached.isSome then .error .usage
        else readOptions rules (given ++ [(name, "")]) rest
    | '-' :: 'h' :: _ => .error .help
    | _ => .error .usage

/-- The options of a command that builds the directive table. -/
structure DirectiveOptions where
  /-- The root of the repository. -/
  repoRoot : Path
  /-- Directories searched for directive resources. -/
  directiveRoots : List Path
  /-- Directive text. -/
  additional : Option String
  /-- A file with directive text, merged before the text itself. -/
  additionalFile : Option Path

/-- The options of a migration. -/
structure MigrateOptions where
  /-- The options for directives. -/
  directives : DirectiveOptions
  /-- More source directories. -/
  sourceDirs : List String
  /-- More extensions. -/
  extensions : List String
  /-- Whether changes are written. -/
  apply : Bool
  /-- Whether files are copied before they are written. -/
  backup : Bool
  /-- Where the report is written. -/
  report : Option Path

/-- The forms of the list of directives. -/
inductive ListFormat where
  /-- One directive a line. -/
  | text
  /-- A JSON list. -/
  | json
deriving DecidableEq

/-- A command of the program. -/
inductive Command where
  /-- Repairs the imports of a repository. -/
  | migrate (options : MigrateOptions)
  /-- Lists the merged directives. -/
  | directives (options : DirectiveOptions) (format : ListFormat)

/-- What the arguments ask for. -/
inductive Request where
  /-- The version of the program. -/
  | version
  /-- Help. -/
  | help
  /-- A command. -/
  | run (command : Command)

/-- The options of every command that builds the directive table. -/
def directiveRules : List OptionRule :=
  [{ name := "repo-root" }, { name := "directive-root", repeatable := true },
    { name := "additional" }, { name := "additional-file" }]

/-- The options of a migration. -/
def migrateRules : List OptionRule :=
  directiveRules ++ [{ name := "source-dir", repeatable := true },
    { name := "ext", repeatable := true }, { name := "apply", takesValue := false },
    { name := "backup", takesValue := false }, { name := "report" }]

/-- The options of the list of directives. -/
def listRules : List OptionRule :=
  directiveRules ++ [{ name := "format", choices := some ["text", "json"] }]

/-- The options for directives among those given. -/
def GivenOptions.directiveOptions (given : GivenOptions) : DirectiveOptions :=
  { repoRoot := ⟨(given.value? "repo-root").getD "."⟩
    directiveRoots := (given.values "directive-root").map Path.mk
    additional := given.value? "additional"
    additionalFile := (given.value? "additional-file").map Path.mk }

/-- The options of a migration among those given. -/
def GivenOptions.migrateOptions (given : GivenOptions) : MigrateOptions :=
  { directives := given.directiveOptions
    sourceDirs := given.values "source-dir"
    extensions := given.values "ext"
    apply := given.isSet "apply"
    backup := given.isSet "backup"
    report := (given.value? "report").map Path.mk }

/-- The format among the given options, text by default. -/
def GivenOptions.format (given : GivenOptions) : ListFormat :=
  if given.value? "format" = some "json" then .json else .text

/-- What help can be asked for by name. -/
def helpTopics : List String := ["migrate", "directives", "help"]

/-- Reads the arguments of the program. -/
def readRequest : List String → Except Refusal Request
  | [] => .error .usage
  | first :: rest =>
    match first with
    | "--version" => .ok .version
    | "--help" => .ok .help
    | "help" =>
      match rest with
      | [] => .ok .help
      | [topic] => if helpTopics.contains topic then .ok .help else .error .usage
      | _ => .error .usage
    | "migrate" =>
      match readOptions migrateRules [] rest with
      | .error refusal => .error refusal
      | .ok given => .ok (.run (.migrate given.migrateOptions))
    | "directives" =>
      match readOptions listRules [] rest with
      | .error refusal => .error refusal
      | .ok given => .ok (.run (.directives given.directiveOptions given.format))
    | _ =>
      match first.toList with
      | '-' :: 'V' :: _ => .ok .version
      | '-' :: 'h' :: _ => .ok .help
      | _ => .error .usage

end ImportMigration
