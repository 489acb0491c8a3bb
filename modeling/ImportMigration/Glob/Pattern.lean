/-! # File name patterns

The patterns that file names are matched against: `?` stands for one character, `*` for any run of
them, `[abc]`, `[a-z]` and `[!abc]` for a character in or outside a set, and everything else for
itself. Case matters, and a leading dot is a character like any other.

* `Glob.Token`, `Glob.parse?`: reading a pattern. A bracket that does not close and a run of two or
  more stars are faults, the run `**` apart when it is the whole pattern.
* `Glob.matchName`: whether a name matches, token by token.
* `Glob.matchesWhole`: the same by a table, so that patterns with many stars are not slow;
  `matchesWhole_eq_matchName` says that the two agree.
* `Glob.Piece`: a component of a path pattern; `**` stands for any number of directories. -/

namespace ImportMigration.Glob

/-- A range of characters, both ends included. -/
structure CharRange where
  /-- The first character. -/
  first : Char
  /-- The last character. -/
  last : Char

/-- Whether a character lies in one of the ranges. -/
def inRanges (ranges : List CharRange) (c : Char) : Bool :=
  ranges.any fun r => r.first ≤ c && c ≤ r.last

/-- A part of a pattern. -/
inductive Token where
  /-- The character itself. -/
  | exactly (c : Char)
  /-- One character. -/
  | any
  /-- Any run of characters. -/
  | run
  /-- One character of a set. -/
  | oneOf (set : List CharRange)
  /-- One character outside a set. -/
  | noneOf (set : List CharRange)

/-- The ranges between brackets: `a-z` is a range, every other character stands for itself. -/
def readRanges : List Char → List CharRange
  | a :: '-' :: b :: rest => ⟨a, b⟩ :: readRanges rest
  | a :: rest => ⟨a, a⟩ :: readRanges rest
  | [] => []

/-- Splits what follows an opening bracket at the closing one. The first character never closes. -/
def readBracket? : List Char → Option (List Char × List Char)
  | [] => none
  | first :: rest =>
    match rest.dropWhile (· ≠ ']') with
    | [] => none
    | _ :: after => some (first :: rest.takeWhile (· ≠ ']'), after)

/-- Reads a pattern piece by piece; the fuel bounds the number of tokens. -/
def readTokens? : (fuel : Nat) → List Char → Option (List Token)
  | _, [] => some []
  | 0, _ :: _ => none
  | fuel + 1, c :: rest =>
    match c with
    | '?' => (readTokens? fuel rest).map (.any :: ·)
    | '*' => if rest.head? == some '*' then none else (readTokens? fuel rest).map (.run :: ·)
    | '[' =>
      match rest with
      | '!' :: rest =>
        match readBracket? rest with
        | none => none
        | some (set, rest) => (readTokens? fuel rest).map (.noneOf (readRanges set) :: ·)
      | _ =>
        match readBracket? rest with
        | none => none
        | some (set, rest) => (readTokens? fuel rest).map (.oneOf (readRanges set) :: ·)
    | _ => (readTokens? fuel rest).map (.exactly c :: ·)

/-- The tokens of a pattern, if it is well formed. -/
def parse? (pattern : List Char) : Option (List Token) := readTokens? pattern.length pattern

/-! ## Matching a name -/

/-- Whether a token that stands for one character stands for this one. -/
def Token.accepts : Token → Char → Bool
  | .exactly a, c => a == c
  | .any, _ => true
  | .run, _ => true
  | .oneOf set, c => inRanges set c
  | .noneOf set, c => !inRanges set c

/-- The ends of a list, from the whole to the empty one. -/
def ends : List Char → List (List Char)
  | [] => [[]]
  | c :: rest => (c :: rest) :: ends rest

/-- Whether tokens match the whole of a name. -/
def matchName : List Token → List Char → Bool
  | [], name => name.isEmpty
  | .run :: tokens, name => (ends name).any (matchName tokens)
  | token :: tokens, c :: name => token.accepts c && matchName tokens name
  | _ :: _, [] => false

/-- For every place of a list, whether a truth value at it or after it holds. -/
def holdsFrom : List Bool → List Bool
  | [] => []
  | v :: rest =>
    let below := holdsFrom rest
    (v || below.headD false) :: below

/-- For every end of a name, the longest first, whether tokens match it. Each token is compared with
each character once, however many runs there are. -/
def endsMatching (name : List Char) : List Token → List Bool
  | [] => (ends name).map List.isEmpty
  | .run :: tokens => holdsFrom (endsMatching name tokens)
  | token :: tokens =>
    List.zipWith (fun c v => token.accepts c && v) name (endsMatching name tokens).tail ++ [false]

/-- Whether tokens match the whole of a name, in time that grows with the product of both. -/
def matchesWhole (tokens : List Token) (name : List Char) : Bool :=
  (endsMatching name tokens).headD false

/-- The first of the ends is the whole. -/
theorem head_ends (f : List Char → Bool) (name : List Char) :
    ((ends name).map f).headD false = f name := by
  cases name <;> rfl

/-- A value holds from an end on if it holds of one of the ends of it. -/
theorem holdsFrom_map_ends (f : List Char → Bool) (name : List Char) :
    holdsFrom ((ends name).map f) = (ends name).map fun e => (ends e).any f := by
  induction name with
  | nil => simp [ends, holdsFrom]
  | cons c rest ih =>
    simp only [ends, List.map_cons, holdsFrom, ih, List.any_cons]
    rw [head_ends]

/-- A token that stands for one character takes the first of an end and leaves the next end. -/
theorem zipWith_tail_ends (token : Token) (f g : List Char → Bool) (name : List Char)
    (hnil : g [] = false) (hcons : ∀ c rest, g (c :: rest) = (token.accepts c && f rest)) :
    List.zipWith (fun c v => token.accepts c && v) name ((ends name).map f).tail ++ [false] =
      (ends name).map g := by
  induction name with
  | nil => simp [ends, hnil]
  | cons c rest ih =>
    have hsplit : (ends rest).map f = f rest :: ((ends rest).map f).tail := by
      cases rest <;> rfl
    simp only [ends, List.map_cons, List.tail_cons, hcons]
    rw [hsplit, List.zipWith_cons_cons, List.cons_append, ih]

/-- The table of verdicts holds what matching one end at a time gives. -/
theorem endsMatching_eq_map (name : List Char) (tokens : List Token) :
    endsMatching name tokens = (ends name).map (matchName tokens) := by
  induction tokens with
  | nil =>
    rw [endsMatching]
    exact List.map_congr_left fun e _ => by rw [matchName]
  | cons token tokens ih =>
    cases token with
    | run =>
      rw [endsMatching, ih, holdsFrom_map_ends]
      exact List.map_congr_left fun e _ => by rw [matchName]
    | _ =>
      simp only [endsMatching, ih]
      exact zipWith_tail_ends _ _ _ _ rfl fun _ _ => rfl

/-- Both ways of matching agree. -/
theorem matchesWhole_eq_matchName (tokens : List Token) (name : List Char) :
    matchesWhole tokens name = matchName tokens name := by
  rw [matchesWhole, endsMatching_eq_map, head_ends]

/-! ## Path patterns -/

/-- A component of a path pattern. -/
inductive Piece where
  /-- Any number of directories. -/
  | anyDepth
  /-- This name, which may also be `.`, `..` or empty. -/
  | exactly (name : String)
  /-- A name that matches. -/
  | matching (tokens : List Token)

/-- The text of tokens that all stand for themselves. -/
def literal? : List Token → Option (List Char)
  | [] => some []
  | .exactly c :: rest => (literal? rest).map (c :: ·)
  | _ :: _ => none

/-- Reads a component of a path pattern. -/
def readPiece? (component : List Char) : Option Piece :=
  if component = ['*', '*'] then some .anyDepth
  else
    match parse? component with
    | none => none
    | some tokens =>
      match literal? tokens with
      | some name => some (.exactly (String.ofList name))
      | none => some (.matching tokens)

/-- Whether a name is one that a component stands for. -/
def Piece.matchesName : Piece → String → Bool
  | .anyDepth, _ => true
  | .exactly name, other => name == other
  | .matching tokens, other => matchesWhole tokens other.toList

/-- Drops every `**` that another follows directly. -/
def collapse : List Piece → List Piece
  | [] => []
  | piece :: rest =>
    match piece, collapse rest with
    | .anyDepth, .anyDepth :: others => .anyDepth :: others
    | piece, others => piece :: others

/-- The components of a text between its slashes; a slash at the end adds none. -/
def splitComponents (pattern : List Char) : List (List Char) :=
  let parts := pattern.splitOn '/'
  if parts.getLast? == some [] then parts.dropLast else parts

/-- Whether a path pattern ends in a slash, which only directories match. -/
def wantsDirectory (pattern : List Char) : Bool := pattern.getLast? == some '/'

/-- Reads the components of a relative path pattern. -/
def readPath? (pattern : List Char) : Option (List Piece) :=
  ((splitComponents pattern).mapM readPiece?).map collapse

end ImportMigration.Glob
