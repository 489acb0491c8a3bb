import ImportMigration.Json.Printer
import ImportMigration.Proofs.PatchReading
import ImportMigration.Toml.Quoted
import Mathlib.Data.List.DropRight
import Mathlib.Data.List.Forall2

/-! # The text of JSON values

A value is read back from its text, whatever it holds and however deep it is nested. The reader
takes JSON with any spaces between its parts; of numbers it takes the form that is written, an
integer with a negative exponent behind it or without one, and of escaped characters those that need
no second escape.

* `JsonValue.read?`: the reader. Lists and objects share `readEnclosed?`, which is handed the reader
  of one item.
* `JsonValue.Takes`: whether a reader takes a text for an item, with spaces in front and something
  else behind it.
* `JsonValue.takes_quote`, `JsonValue.readNumber?_numberText`: strings and numbers.
* `JsonValue.readEnclosed?_enclose`: lists and objects, from what is read of their lines.
* `JsonValue.read?_pretty`: a value is read from its text, so different values have different texts
  (`JsonValue.pretty_injective`). -/

namespace ImportMigration.JsonValue

/-! ## The reader -/

/-- Whether a character may stand between the parts of a text. -/
def isSpace (c : Char) : Bool := c == ' ' || c == '\n' || c == '\r' || c == '\t'

/-- A text without the spaces at its start. -/
def skipSpace (s : List Char) : List Char := s.dropWhile isSpace

/-- The character of a one-letter escape. -/
def escaped? : Char → Option Char
  | '"' => some '"'
  | '\\' => some '\\'
  | '/' => some '/'
  | 'b' => some (Char.ofNat 8)
  | 'f' => some (Char.ofNat 12)
  | 'n' => some '\n'
  | 'r' => some '\r'
  | 't' => some '\t'
  | _ => none

/-- Reads a string behind its opening quote: its content, and what follows the closing quote. -/
def readContent? : List Char → Option (List Char × List Char)
  | [] => none
  | '"' :: rest => some ([], rest)
  | '\\' :: 'u' :: a :: b :: c :: d :: rest =>
    Toml.prependChar? (Toml.charOfHex? [a, b, c, d]) (readContent? rest)
  | '\\' :: c :: rest => Toml.prependChar? (escaped? c) (readContent? rest)
  | c :: rest => if c.toNat < 32 then none else Toml.prepend [c] (readContent? rest)

/-- Reads an integer. -/
def readInteger? : List Char → Option (Int × List Char)
  | '-' :: s => (Patch.readNumber? s).map fun (n, rest) => (-(n : Int), rest)
  | s => (Patch.readNumber? s).map fun (n, rest) => ((n : Int), rest)

/-- Reads a number: an integer, and behind it a negative exponent where it has decimal places. -/
def readNumber? (s : List Char) : Option (JsonValue × List Char) :=
  match readInteger? s with
  | none => none
  | some (mantissa, 'e' :: '-' :: rest) =>
    (Patch.readNumber? rest).map fun (places, rest) => (.num mantissa places, rest)
  | some (mantissa, rest) => some (.num mantissa 0, rest)

section Items

variable {α : Type} (read : List Char → Option (α × List Char)) (closing : Char)

/-- Reads items with commas between them up to the closing bracket, at most so many. -/
def readItems? : Nat → List Char → Option (List α × List Char)
  | 0, _ => none
  | limit + 1, s =>
    match read s with
    | none => none
    | some (item, rest) =>
      match skipSpace rest with
      | [] => none
      | c :: rest =>
        if c = ',' then (readItems? limit rest).map fun (items, rest) => (item :: items, rest)
        else if c = closing then some ([item], rest)
        else none

/-- Reads what stands behind an opening bracket: nothing, or items. -/
def readEnclosed? (s : List Char) : Option (List α × List Char) :=
  if (skipSpace s).head? = some closing then some ([], (skipSpace s).tail)
  -- Behind every item stands a comma or the bracket, so there are no more items than characters.
  else readItems? read closing s.length s

/-- Reads a member of an object. -/
def readMember? (s : List Char) : Option ((String × α) × List Char) :=
  match skipSpace s with
  | '"' :: rest =>
    match readContent? rest with
    | none => none
    | some (name, rest) =>
      match skipSpace rest with
      | ':' :: rest => (read rest).map fun (value, rest) => ((String.ofList name, value), rest)
      | _ => none
  | _ => none

end Items

/-- Reads a value that is nested less deep than this. -/
def readValue? : Nat → List Char → Option (JsonValue × List Char)
  | 0, _ => none
  | depth + 1, s =>
    match skipSpace s with
    | 'n' :: 'u' :: 'l' :: 'l' :: rest => some (.null, rest)
    | 't' :: 'r' :: 'u' :: 'e' :: rest => some (.bool true, rest)
    | 'f' :: 'a' :: 'l' :: 's' :: 'e' :: rest => some (.bool false, rest)
    | '"' :: rest =>
      (readContent? rest).map fun (content, rest) => (.str (String.ofList content), rest)
    | '[' :: rest =>
      (readEnclosed? (readValue? depth) ']' rest).map fun (items, rest) => (.arr items, rest)
    | '{' :: rest =>
      (readEnclosed? (readMember? (readValue? depth)) '}' rest).map fun (members, rest) =>
        (.obj members, rest)
    | s => readNumber? s

/-- Reads a text with one value and spaces around it. -/
def read? (text : String) : Option JsonValue :=
  -- Each level has brackets of its own, so no value is nested deeper than its text is long.
  match readValue? (text.length + 1) text.toList with
  | none => none
  | some (value, rest) => if (skipSpace rest).isEmpty then some value else none

/-! ## Spaces -/

/-- Whether a text has nothing but spaces. -/
def IsSpaces (s : List Char) : Prop := ∀ c ∈ s, isSpace c = true

/-- Spaces in front do not count. -/
theorem skipSpace_append {spaces : List Char} (h : IsSpaces spaces) (s : List Char) :
    skipSpace (spaces ++ s) = skipSpace s :=
  List.dropWhile_append_of_pos h

/-- A text that starts with no space loses nothing. -/
theorem skipSpace_cons {c : Char} (h : isSpace c = false) (s : List Char) :
    skipSpace (c :: s) = c :: s :=
  List.dropWhile_cons_of_neg (by simp [h])

/-- What is left starts with no space. -/
theorem skipSpace_skipSpace (s : List Char) : skipSpace (skipSpace s) = skipSpace s :=
  List.dropWhile_idempotent isSpace s

/-- A line feed is a space. -/
theorem isSpaces_feed : IsSpaces ['\n'] := by simp [IsSpaces, isSpace]

/-- The start of a line has nothing but spaces. -/
theorem isSpaces_indent (level : Nat) : IsSpaces (indent level).toList := by
  intro c hc
  rw [indent, String.toList_ofList] at hc
  rw [List.eq_of_mem_replicate hc]
  rfl

/-! ## Strings -/

/-- The escape of a control character is read as the character. -/
theorem charOfHex?_hexDigit : ∀ n < 32,
    Toml.charOfHex? ['0', '0', hexDigit (n / 16), hexDigit (n % 16)] = some (Char.ofNat n) := by
  decide

/-- **A character is read as it is written**, escaped or not. -/
theorem readContent?_escapeChar (c : Char) (rest : List Char) :
    readContent? (escapeChar c ++ rest) = Toml.prepend [c] (readContent? rest) := by
  rw [escapeChar.eq_def]
  split
  · rfl
  · rfl
  · rfl
  · rfl
  · rfl
  · rename_i hquote hslash _ _ _
    dsimp only
    split_ifs with hback hform hcontrol
    · rw [← Char.ofNat_toNat c, hback]
      rfl
    · rw [← Char.ofNat_toNat c, hform]
      rfl
    · have hchar := charOfHex?_hexDigit c.toNat hcontrol
      simp [readContent?, hchar, Toml.prependChar?]
    · rw [List.singleton_append, readContent?, if_neg hcontrol]
      · exact hquote
      · exact fun _ _ _ _ _ hc _ => hslash hc
      · exact fun _ _ hc _ => hslash hc

/-- **A string is read as it is written.** -/
theorem readContent?_flatMap_escapeChar (content rest : List Char) :
    readContent? (content.flatMap escapeChar ++ '"' :: rest) = some (content, rest) := by
  induction content with
  | nil => rfl
  | cons c content ih =>
    rw [List.flatMap_cons, List.append_assoc, readContent?_escapeChar, ih]
    rfl

/-! ## Numbers -/

/-- Whether a number ends where something follows it. -/
def EndsNumber (rest : List Char) : Prop := ∀ c ∈ rest.head?, c.isDigit = false ∧ c ≠ 'e'

/-- An integer is written as its digits, with a sign in front if it is negative. -/
theorem toList_toString_int (i : Int) :
    (toString i).toList = (if i < 0 then ['-'] else []) ++ Nat.toDigits 10 i.natAbs := by
  cases i with
  | ofNat n =>
    have hsign : ¬Int.ofNat n < 0 := by simp
    rw [if_neg hsign]
    exact Nat.toList_repr
  | negSucc n =>
    rw [if_pos (Int.negSucc_lt_zero n)]
    have htext : toString (Int.negSucc n) = "-" ++ Nat.repr (n + 1) := rfl
    rw [htext, String.toList_append, Nat.toList_repr]
    rfl

/-- The digits of a number start with a digit. -/
theorem exists_toDigits_eq_cons (n : Nat) :
    ∃ c digits, Nat.toDigits 10 n = c :: digits ∧ c.isDigit = true := by
  obtain ⟨c, digits, h⟩ := List.exists_cons_of_ne_nil (Nat.toDigits_ne_nil (b := 10) (n := n))
  have hmem : c ∈ Nat.toDigits 10 n := h ▸ List.mem_cons_self
  exact ⟨c, digits, h, Nat.isDigit_of_mem_toDigits (by decide) (by decide) hmem⟩

/-- A number starts with a digit or a sign. -/
theorem exists_numberText_eq_cons (mantissa : Int) (places : Nat) :
    ∃ c s, (numberText mantissa places).toList = c :: s ∧ (c = '-' ∨ c.isDigit = true) := by
  obtain ⟨more, hmore⟩ : ∃ more, (numberText mantissa places).toList =
      (toString mantissa).toList ++ more := by
    rw [numberText]
    split_ifs
    · exact ⟨[], by simp⟩
    · exact ⟨"e-".toList ++ (toString places).toList, by simp⟩
  rw [hmore, toList_toString_int]
  split_ifs
  · exact ⟨'-', _, rfl, Or.inl rfl⟩
  · obtain ⟨c, digits, hdigits, hdigit⟩ := exists_toDigits_eq_cons mantissa.natAbs
    exact ⟨c, digits ++ more, by rw [List.nil_append, hdigits, List.cons_append], Or.inr hdigit⟩

/-- An integer is read as it is written. -/
theorem readInteger?_toString (i : Int) {rest : List Char}
    (hrest : ∀ c ∈ rest.head?, c.isDigit = false) :
    readInteger? ((toString i).toList ++ rest) = some (i, rest) := by
  have hread := Patch.readNumber?_toDigits i.natAbs hrest
  rw [toList_toString_int]
  split_ifs with hsign
  · rw [List.singleton_append, List.cons_append, readInteger?, hread, Option.map_some]
    simp only [Option.some.injEq, Prod.mk.injEq, and_true]
    omega
  · rw [List.nil_append, readInteger?, hread, Option.map_some]
    · simp only [Option.some.injEq, Prod.mk.injEq, and_true]
      omega
    · -- The first digit is no sign.
      intro s hs
      obtain ⟨c, digits, hdigits, hdigit⟩ := exists_toDigits_eq_cons i.natAbs
      rw [hdigits, List.cons_append] at hs
      rw [(List.cons.inj hs).1] at hdigit
      exact absurd hdigit (by decide)

/-- **A number is read as it is written.** -/
theorem readNumber?_numberText (mantissa : Int) (places : Nat) {rest : List Char}
    (hrest : EndsNumber rest) :
    readNumber? ((numberText mantissa places).toList ++ rest) =
      some (.num mantissa places, rest) := by
  have hdigit : ∀ c ∈ rest.head?, c.isDigit = false := fun c hc => (hrest c hc).1
  rw [numberText]
  split_ifs with hplaces
  · rw [readNumber?, readInteger?_toString mantissa hdigit, hplaces]
    split
    · rename_i heq
      cases heq
    · rename_i heq
      cases heq
      exact absurd rfl (hrest 'e' rfl).2
    · rename_i heq
      cases heq
      rfl
  · have hexponent : ∀ c ∈ ("e-".toList ++ (Nat.toDigits 10 places ++ rest)).head?,
        c.isDigit = false := by
      rintro c ⟨⟩
      decide
    have htext : (toString mantissa ++ "e-" ++ toString places).toList ++ rest =
        (toString mantissa).toList ++ ("e-".toList ++ (Nat.toDigits 10 places ++ rest)) := by
      simp
    rw [htext, readNumber?, readInteger?_toString mantissa hexponent]
    simp [Patch.readNumber?_toDigits places hdigit]

/-! ## Lists and objects -/

section Items

variable {α : Type} {read : List Char → Option (α × List Char)}

/-- Whether a reader takes a text for an item, with spaces in front and something that ends a number
behind it. -/
def Takes (read : List Char → Option (α × List Char)) (text : String) (item : α) : Prop :=
  ∀ spaces rest, IsSpaces spaces → EndsNumber rest →
    read (spaces ++ (text.toList ++ rest)) = some (item, rest)

/-- The start of a line counts among the spaces in front. -/
theorem Takes.indent {text : String} {item : α} (h : Takes read text item) (level : Nat) :
    Takes read (indent level ++ text) item := by
  intro spaces rest hspaces hrest
  have hfront : IsSpaces (spaces ++ (JsonValue.indent level).toList) :=
    List.forall_mem_append.mpr ⟨hspaces, isSpaces_indent level⟩
  have hread := h _ rest hfront hrest
  rwa [List.append_assoc, ← List.append_assoc _ text.toList, ← String.toList_append] at hread

/-- There are no more lines than characters of their text and one. -/
theorem length_le_length_intercalate (lines : List String) :
    lines.length ≤ (",\n".intercalate lines).length + 1 := by
  induction lines with
  | nil => simp
  | cons line lines ih =>
    cases lines with
    | nil => simp
    | cons next others =>
      rw [String.intercalate_cons_cons, String.length_append, String.length_append]
      have hseparator : ",\n".length = 2 := rfl
      rw [List.length_cons]
      omega

variable {closing : Char} (hspace : isSpace closing = false) (hcomma : closing ≠ ',')

include hspace hcomma

/-- Lines with commas between them are read item by item. -/
theorem readItems?_intercalate {lines : List String} {items : List α}
    (h : List.Forall₂ (Takes read) lines items) (hne : lines ≠ []) {limit : Nat}
    (hlimit : lines.length ≤ limit) {spaces after : List Char} (hspaces : IsSpaces spaces)
    (hafter : IsSpaces after) (rest : List Char) :
    readItems? read closing limit
      (spaces ++ ((",\n".intercalate lines).toList ++ '\n' :: (after ++ closing :: rest))) =
        some (items, rest) := by
  induction h generalizing limit spaces with
  | nil => exact absurd rfl hne
  | @cons line item lines items hline hlines ih =>
    cases limit with
    | zero => simp at hlimit
    | succ limit =>
      -- The closing bracket follows the last line, and a comma any other.
      cases lines with
      | nil =>
        obtain rfl := List.forall₂_nil_left_iff.mp hlines
        have hread := hline spaces ('\n' :: (after ++ closing :: rest)) hspaces
          (by rintro c ⟨⟩; decide)
        have hskip : skipSpace ('\n' :: (after ++ closing :: rest)) = closing :: rest := by
          rw [← List.singleton_append, skipSpace_append isSpaces_feed, skipSpace_append hafter,
            skipSpace_cons hspace]
        rw [String.intercalate_singleton, readItems?, hread]
        simp only [hskip, hcomma, if_false, if_true]
      | cons next others =>
        have hread := hline spaces (',' :: ['\n'] ++ ((",\n".intercalate (next :: others)).toList ++
          '\n' :: (after ++ closing :: rest))) hspaces (by rintro c ⟨⟩; decide)
        have hmore := ih (by simp) (Nat.le_of_succ_le_succ hlimit) isSpaces_feed
        have htext : (",\n".intercalate (line :: next :: others)).toList ++
            '\n' :: (after ++ closing :: rest) = line.toList ++ (',' :: ['\n'] ++
              ((",\n".intercalate (next :: others)).toList ++
                '\n' :: (after ++ closing :: rest))) := by
          simp [String.intercalate_cons_cons]
        rw [htext, readItems?, hread]
        simp only [List.cons_append, skipSpace_cons (c := ',') (by decide), if_true]
        rw [← List.cons_append, hmore]
        rfl

/-- **Lists and objects are read from what is read of their lines**, if the reader of an item skips
spaces and takes no closing bracket. -/
theorem readEnclosed?_enclose {lines : List String} {items : List α}
    (h : List.Forall₂ (Takes read) lines items) (hskip : ∀ s, read (skipSpace s) = read s)
    (hrefuse : ∀ s, read (closing :: s) = none) (opening : Char) (level : Nat)
    (rest : List Char) :
    ∃ s, (enclose (String.singleton opening) (String.singleton closing) level lines).toList ++
        rest = opening :: s ∧ readEnclosed? read closing s = some (items, rest) := by
  cases hlines : lines with
  | nil =>
    rw [hlines, List.forall₂_nil_left_iff] at h
    refine ⟨closing :: rest, by simp [enclose], ?_⟩
    simp [readEnclosed?, skipSpace_cons hspace, h]
  | cons line others =>
    rw [← hlines]
    have hne : lines ≠ [] := by simp [hlines]
    refine ⟨['\n'] ++ ((",\n".intercalate lines).toList ++
      '\n' :: ((indent level).toList ++ closing :: rest)), by simp [enclose, hne], ?_⟩
    generalize htext : ['\n'] ++ ((",\n".intercalate lines).toList ++
      '\n' :: ((indent level).toList ++ closing :: rest)) = s
    have hlength : lines.length ≤ s.length := by
      have hjoined := length_le_length_intercalate lines
      rw [← htext]
      simp only [List.length_append, List.length_cons, String.length_toList]
      omega
    have hitems := readItems?_intercalate hspace hcomma h hne hlength isSpaces_feed
      (isSpaces_indent level) rest
    rw [htext] at hitems
    rw [readEnclosed?, if_neg, hitems]
    -- With a closing bracket in front no item could be read.
    intro hhead
    obtain ⟨more, hmore⟩ := List.head?_eq_some_iff.mp hhead
    have hnone : read s = none := by rw [← hskip, hmore, hrefuse]
    cases hlimit : s.length with
    | zero => simp [← htext] at hlimit
    | succ limit =>
      rw [hlimit, readItems?, hnone] at hitems
      cases hitems

end Items

/-- A line is no longer than the text of all lines. -/
theorem length_le_of_mem_lines {lines : List String} {line : String} (h : line ∈ lines) :
    line.length ≤ (",\n".intercalate lines).length := by
  induction lines with
  | nil => cases h
  | cons first lines ih =>
    cases lines with
    | nil =>
      obtain rfl := List.mem_singleton.mp h
      rw [String.intercalate_singleton]
    | cons next others =>
      rw [String.intercalate_cons_cons, String.length_append, String.length_append]
      rcases List.mem_cons.mp h with rfl | hmore
      · omega
      · exact (ih hmore).trans (by omega)

/-- A line is shorter than the brackets with all lines between them. -/
theorem length_lt_length_enclose {lines : List String} {line : String} (h : line ∈ lines)
    (opening closing : Char) (level : Nat) :
    line.length <
      (enclose (String.singleton opening) (String.singleton closing) level lines).length := by
  have hline := length_le_of_mem_lines h
  have hne : lines.isEmpty = false := by simpa using List.ne_nil_of_mem h
  rw [enclose, if_neg (by simp [hne])]
  simp only [String.length_append, String.length_singleton]
  omega

/-! ## Values -/

/-- The reader of values skips spaces. -/
theorem readValue?_skipSpace (depth : Nat) (s : List Char) :
    readValue? depth (skipSpace s) = readValue? depth s := by
  cases depth with
  | zero => rfl
  | succ depth => simp only [readValue?, skipSpace_skipSpace]

/-- Spaces in front of a value do not count. -/
theorem readValue?_append_spaces {spaces : List Char} (h : IsSpaces spaces) (depth : Nat)
    (s : List Char) : readValue? depth (spaces ++ s) = readValue? depth s := by
  rw [← readValue?_skipSpace, skipSpace_append h, readValue?_skipSpace]

/-- No value starts with a closing bracket. -/
theorem readValue?_closing (depth : Nat) (s : List Char) : readValue? depth (']' :: s) = none := by
  cases depth <;> rfl

/-- A string literal is read as a value. -/
theorem takes_quote (depth : Nat) (value : String) :
    Takes (readValue? (depth + 1)) (quote value) (.str value) := by
  intro spaces rest hspaces _
  have htext : (quote value).toList ++ rest =
      '"' :: (value.toList.flatMap escapeChar ++ '"' :: rest) := by
    simp [quote]
  rw [readValue?_append_spaces hspaces, htext, readValue?, skipSpace_cons (by decide)]
  simp [readContent?_flatMap_escapeChar]

/-- A number is read as a value. -/
theorem takes_numberText (depth : Nat) (mantissa : Int) (places : Nat) :
    Takes (readValue? (depth + 1)) (numberText mantissa places) (.num mantissa places) := by
  intro spaces rest hspaces hrest
  have hread := readNumber?_numberText mantissa places hrest
  obtain ⟨c, s, htext, hc⟩ := exists_numberText_eq_cons mantissa places
  rw [readValue?_append_spaces hspaces]
  rw [htext, List.cons_append] at hread ⊢
  have hspace : isSpace c = false := by
    rcases hc with rfl | hdigit
    · rfl
    · simp only [isSpace, Bool.or_eq_false_iff, beq_eq_false_iff_ne]
      refine ⟨⟨⟨?_, ?_⟩, ?_⟩, ?_⟩ <;> rintro rfl <;> exact absurd hdigit (by decide)
  rw [readValue?, skipSpace_cons hspace]
  -- The first character tells a number from every other value.
  split <;> rename_i heq
  iterate 6
    · rw [(List.cons.inj heq).1] at hc
      exact absurd hc (by decide)
  exact hread

/-- A word that stands for a value is read as the value. -/
theorem takes_word {depth : Nat} {word : String} {value : JsonValue}
    (h : ∀ rest, readValue? (depth + 1) (word.toList ++ rest) = some (value, rest)) :
    Takes (readValue? (depth + 1)) word value := by
  intro spaces rest hspaces _
  rw [readValue?_append_spaces hspaces, h]

/-- A list is read from what is read of its lines. -/
theorem takes_enclose_arr {depth : Nat} {lines : List String} {items : List JsonValue}
    (h : List.Forall₂ (Takes (readValue? depth)) lines items) (level : Nat) :
    Takes (readValue? (depth + 1)) (enclose "[" "]" level lines) (.arr items) := by
  intro spaces rest hspaces _
  obtain ⟨s, htext, hread⟩ := readEnclosed?_enclose (by decide) (by decide) h
    (readValue?_skipSpace depth) (readValue?_closing depth) '[' level rest
  rw [readValue?_append_spaces hspaces]
  refine (congrArg (readValue? (depth + 1)) htext).trans ?_
  rw [readValue?, skipSpace_cons (by decide)]
  simp [hread]

/-- The reader of members skips spaces. -/
theorem readMember?_skipSpace (depth : Nat) (s : List Char) :
    readMember? (readValue? depth) (skipSpace s) = readMember? (readValue? depth) s := by
  simp only [readMember?, skipSpace_skipSpace]

/-- No member starts with a closing brace. -/
theorem readMember?_closing (depth : Nat) (s : List Char) :
    readMember? (readValue? depth) ('}' :: s) = none := rfl

/-- A member is read from what is read of its value. -/
theorem takes_member {depth : Nat} {text : String} {value : JsonValue}
    (h : Takes (readValue? depth) text value) (name : String) :
    Takes (readMember? (readValue? depth)) (quote name ++ ": " ++ text) (name, value) := by
  intro spaces rest hspaces hrest
  have htext : (quote name ++ ": " ++ text).toList ++ rest =
      '"' :: (name.toList.flatMap escapeChar ++
        '"' :: ':' :: ([' '] ++ (text.toList ++ rest))) := by
    simp [quote]
  have hvalue := h [' '] rest (by simp [IsSpaces, isSpace]) hrest
  rw [readMember?, skipSpace_append hspaces, htext, skipSpace_cons (by decide)]
  simp only [readContent?_flatMap_escapeChar, skipSpace_cons (c := ':') (by decide), hvalue,
    Option.map_some, String.ofList_toList]

/-- An object is read from what is read of its lines. -/
theorem takes_enclose_obj {depth : Nat} {lines : List String} {members : List (String × JsonValue)}
    (h : List.Forall₂ (Takes (readMember? (readValue? depth))) lines members) (level : Nat) :
    Takes (readValue? (depth + 1)) (enclose "\x7b" "\x7d" level lines) (.obj members) := by
  intro spaces rest hspaces _
  obtain ⟨s, htext, hread⟩ := readEnclosed?_enclose (by decide) (by decide) h
    (readMember?_skipSpace depth) (readMember?_closing depth) '{' level rest
  rw [readValue?_append_spaces hspaces]
  refine (congrArg (readValue? (depth + 1)) htext).trans ?_
  rw [readValue?, skipSpace_cons (by decide)]
  simp [hread]

mutual

/-- **A value is read as it is written** by a reader that goes deeper than the text is long. -/
theorem takes_prettyAt (level depth : Nat) (value : JsonValue)
    (h : (prettyAt level value).length ≤ depth) :
    Takes (readValue? (depth + 1)) (prettyAt level value) value := by
  cases value with
  | null =>
    rw [prettyAt]
    exact takes_word fun rest => rfl
  | bool value =>
    rw [prettyAt]
    cases value <;> exact takes_word fun rest => rfl
  | num mantissa places =>
    rw [prettyAt]
    exact takes_numberText depth mantissa places
  | str value =>
    rw [prettyAt]
    exact takes_quote depth value
  | arr items =>
    rw [prettyAt] at h ⊢
    refine takes_enclose_arr (takes_itemLines (level + 1) depth items ?_) level
    intro line hline
    exact (length_lt_length_enclose hline '[' ']' level).trans_le h
  | obj members =>
    rw [prettyAt] at h ⊢
    refine takes_enclose_obj (takes_memberLines (level + 1) depth members ?_) level
    intro line hline
    exact (length_lt_length_enclose hline '{' '}' level).trans_le h

/-- The items of a list are read from their lines. -/
theorem takes_itemLines (level depth : Nat) (items : List JsonValue)
    (h : ∀ line ∈ itemLines level items, line.length < depth) :
    List.Forall₂ (Takes (readValue? depth)) (itemLines level items) items := by
  cases items with
  | nil =>
    rw [itemLines]
    exact .nil
  | cons item rest =>
    rw [itemLines] at h ⊢
    obtain ⟨hfirst, hrest⟩ := List.forall_mem_cons.mp h
    rw [String.length_append] at hfirst
    obtain ⟨depth, rfl⟩ := Nat.exists_eq_succ_of_ne_zero (Nat.ne_zero_of_lt hfirst)
    exact .cons ((takes_prettyAt level depth item (by omega)).indent level)
      (takes_itemLines level (depth + 1) rest hrest)

/-- The members of an object are read from their lines. -/
theorem takes_memberLines (level depth : Nat) (members : List (String × JsonValue))
    (h : ∀ line ∈ memberLines level members, line.length < depth) :
    List.Forall₂ (Takes (readMember? (readValue? depth))) (memberLines level members) members := by
  cases members with
  | nil =>
    rw [memberLines]
    exact .nil
  | cons member rest =>
    obtain ⟨name, value⟩ := member
    rw [memberLines] at h ⊢
    obtain ⟨hfirst, hrest⟩ := List.forall_mem_cons.mp h
    rw [String.length_append] at hfirst
    obtain ⟨depth, rfl⟩ := Nat.exists_eq_succ_of_ne_zero (Nat.ne_zero_of_lt hfirst)
    have hmember := takes_member (takes_prettyAt level depth value (by omega)) name
    refine .cons ?_ (takes_memberLines level (depth + 1) rest hrest)
    have hline := hmember.indent level
    rwa [← String.append_assoc, ← String.append_assoc] at hline

end

/-- **A value is read from its text**, with any spaces behind it. -/
theorem read?_pretty_append (value : JsonValue) {spaces : String} (h : IsSpaces spaces.toList) :
    read? (value.pretty ++ spaces) = some value := by
  have hends : EndsNumber spaces.toList := by
    intro c hc
    have hspace := h c (List.mem_of_mem_head? hc)
    simp only [isSpace, Bool.or_eq_true, beq_iff_eq] at hspace
    rcases hspace with ((rfl | rfl) | rfl) | rfl <;> decide
  have hread := takes_prettyAt 0 (value.pretty ++ spaces).length value
    (by rw [String.length_append, pretty]; omega) [] spaces.toList (by simp [IsSpaces]) hends
  rw [List.nil_append, ← pretty, ← String.toList_append] at hread
  have hempty : (skipSpace spaces.toList).isEmpty = true := by
    rw [List.isEmpty_iff]
    exact List.dropWhile_eq_nil_iff.mpr h
  simp only [read?, hread, hempty, if_true]

/-- **A value is read from its text.** -/
theorem read?_pretty (value : JsonValue) : read? value.pretty = some value := by
  have hnone : IsSpaces "".toList := by simp [IsSpaces]
  have hread := read?_pretty_append value hnone
  rwa [String.append_empty] at hread

/-- Different values have different texts. -/
theorem pretty_injective : Function.Injective pretty := by
  intro v w h
  have hv := read?_pretty v
  rw [h, read?_pretty] at hv
  exact (Option.some.inj hv).symm

end ImportMigration.JsonValue
