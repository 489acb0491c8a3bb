import ImportMigration.Patch.Text
import ImportMigration.Proofs.HunkTilings
import ImportMigration.Proofs.LineSplitting

/-! # Reading patches

A section of a patch is read back line by line: the names of its two sides, then its hunks, each as
long as its header says. Nothing of a line is lost in reading, a carriage return at its end
included.

* `FileDiff`, `FileDiff.ofText?`: a section as it is read.
* `FileDiff.applyTo?`: the text that a section makes of another.
* `dropReturn`: a line without a carriage return at its end.
* `FileDiff.ofText?_filePatch`: a written section is read as its diff, with the carriage returns at
  the ends of the lines lost. -/

namespace ImportMigration.Patch

/-! ## Lines with their line feeds -/

/-- A text holds a line feed at its end at most. -/
def IsLine (l : List Char) : Prop := '\n' ∉ l.dropLast

/-- A text with a line feed behind it is a line of its own, if it holds none. -/
theorem terminatedLines_append_feed {l : List Char} (hfeed : '\n' ∉ l) (rest : List Char) :
    terminatedLines (l ++ '\n' :: rest) = (l ++ ['\n']) :: terminatedLines rest := by
  induction l with
  | nil => rw [List.nil_append, terminatedLines, List.nil_append]
  | cons c l ih =>
    rw [List.mem_cons, not_or] at hfeed
    rw [List.cons_append, terminatedLines, ih hfeed.2]
    · rfl
    · exact fun hc => hfeed.1 hc.symm

/-- Texts without a line feed are the lines of what they make with one behind each. -/
theorem terminatedLines_flatMap_feed {ls : List (List Char)} (hfeed : ∀ l ∈ ls, '\n' ∉ l) :
    terminatedLines (ls.flatMap (· ++ ['\n'])) = ls.map (· ++ ['\n']) := by
  induction ls with
  | nil => rfl
  | cons l ls ih =>
    rw [List.flatMap_cons, List.append_assoc, List.singleton_append,
      terminatedLines_append_feed (hfeed l List.mem_cons_self),
      ih fun m hm => hfeed m (List.mem_cons_of_mem l hm), List.map_cons]

/-- The lines of a text make the text. -/
@[simp] theorem flatten_terminatedLines (s : List Char) : (terminatedLines s).flatten = s := by
  fun_induction terminatedLines s <;> simp_all

/-- The lines of a text hold line feeds at their ends only. -/
theorem isLine_of_mem_terminatedLines {s l : List Char} (h : l ∈ terminatedLines s) : IsLine l := by
  fun_induction terminatedLines s generalizing l with
  | case1 => cases h
  | case2 rest ih =>
    rcases List.mem_cons.mp h with rfl | h
    · simp [IsLine]
    · exact ih h
  | case3 c rest hfeed hlines ih =>
    obtain rfl := List.mem_singleton.mp h
    simp [IsLine]
  | case4 c rest hfeed first others hlines ih =>
    rw [hlines] at ih
    rcases List.mem_cons.mp h with rfl | h
    · have hfirst := ih List.mem_cons_self
      cases first with
      | nil => simp [IsLine]
      | cons d first =>
        rw [IsLine, List.dropLast_cons_cons, List.mem_cons, not_or]
        exact ⟨fun hc => hfeed hc.symm, hfirst⟩
    · exact ih (List.mem_cons_of_mem first h)

/-- A line ends in its only line feed or has none. -/
theorem IsLine.cases {l : List Char} (h : IsLine l) :
    (∃ front, '\n' ∉ front ∧ l = front ++ ['\n']) ∨ '\n' ∉ l := by
  rcases List.eq_nil_or_concat l with rfl | ⟨front, c, rfl⟩
  · exact Or.inr (by simp)
  · rw [IsLine, List.concat_eq_append, List.dropLast_concat] at h
    by_cases hc : c = '\n'
    · exact Or.inl ⟨front, h, by simp [hc]⟩
    · exact Or.inr (by simpa [eq_comm] using ⟨h, hc⟩)

/-! ## The reader -/

/-- A section of a patch: the names of the file on both sides and the hunks between its two texts.
-/
structure FileDiff where
  /-- The name on the old side. -/
  oldName : List Char
  /-- The name on the new side. -/
  newName : List Char
  /-- The hunks in order. -/
  hunks : List (Hunk (List Char))

/-- A number at the start of a text, and what follows it. -/
def readNumber? (s : List Char) : Option (Nat × List Char) :=
  let digits := s.takeWhile Char.isDigit
  if digits.isEmpty then none else some (Nat.ofDigitChars 10 digits 0, s.dropWhile Char.isDigit)

/-- A range at the start of a text, as the number of lines before it and in it, and what follows. -/
def readRange? (s : List Char) : Option (Nat × Nat × List Char) := do
  let (first, rest) ← readNumber? s
  match Text.dropStart? [','] rest with
  | none => some (first - 1, 1, rest)
  | some rest =>
    let (length, rest) ← readNumber? rest
    some (if length = 0 then first else first - 1, length, rest)

/-- The place of a hunk by its header line. -/
def readHeader? (line : List Char) : Option (Hunk (List Char)) := do
  let rest ← Text.dropStart? "@@ -".toList line
  let (oldStart, oldLength, rest) ← readRange? rest
  let rest ← Text.dropStart? " +".toList rest
  let (newStart, newLength, rest) ← readRange? rest
  let _ ← Text.dropStart? " @@".toList rest
  some { oldStart, oldLength, newStart, newLength, lines := [] }

/-- A line of a hunk by its sign. An empty context line may lack it. -/
def readLine? : List Char → Option (HunkLine (List Char))
  | ['\n'] => some (.context ['\n'])
  | ' ' :: line => some (.context line)
  | '-' :: line => some (.removed line)
  | '+' :: line => some (.added line)
  | _ => none

/-- Whether a line of a patch is a remark on the line before it. -/
def isRemark (line : List Char) : Bool := line.head? == some '\\'

/-- The lines of a patch without its remarks, each of which takes the line feed of the line before
it away. -/
def settleEnds : List (List Char) → List (List Char)
  | [] => []
  | line :: rest =>
    if isRemark line then settleEnds rest
    else (if rest.head?.any isRemark then line.dropLast else line) :: settleEnds rest

/-- The lines of a hunk that still has so many old and new lines, and the hunks behind it. -/
def readHunks? : (oldLeft newLeft : Nat) → List (List Char) →
    Option (List (HunkLine (List Char)) × List (Hunk (List Char)))
  | oldLeft, newLeft, [] => if oldLeft = 0 ∧ newLeft = 0 then some ([], []) else none
  | oldLeft, newLeft, line :: rest =>
    -- With no line left in a hunk the next line is a header, whatever a text line looks like.
    if oldLeft = 0 ∧ newLeft = 0 then do
      let place ← readHeader? line
      let (lines, hunks) ← readHunks? place.oldLength place.newLength rest
      some ([], { place with lines } :: hunks)
    else do
      let shown ← readLine? line
      let oldCount := (oldSide [shown]).length
      let newCount := (newSide [shown]).length
      if oldCount ≤ oldLeft ∧ newCount ≤ newLeft then
        let (lines, hunks) ← readHunks? (oldLeft - oldCount) (newLeft - newCount) rest
        some (shown :: lines, hunks)
      else none

/-- The name that a line gives behind a keyword. -/
def readName? (keyword : String) (line : List Char) : Option (List Char) := do
  let name ← Text.dropStart? keyword.toList line
  if Text.endsWithFeed name then some name.dropLast else none

/-- Reads a section of a patch. -/
def FileDiff.ofText? (text : String) : Option FileDiff :=
  match terminatedLines text.toList with
  | title :: oldLine :: newLine :: body => do
    let _ ← readName? "diff --git " title
    let oldName ← readName? "--- " oldLine
    let newName ← readName? "+++ " newLine
    let (_, hunks) ← readHunks? 0 0 (settleEnds body)
    some { oldName, newName, hunks }
  | _ => none

/-- The text that the hunks of a section make of another. -/
def FileDiff.applyTo? (d : FileDiff) (text : String) : Option String :=
  (applyHunks d.hunks (terminatedLines text.toList)).map fun ls => String.ofList ls.flatten

/-- Carriage returns are read like other characters. -/
example : (FileDiff.ofText? ("diff --git a/A b/A\n--- a/A\n+++ b/A\n@@ -1 +1 @@\n-x\r\n+y\r\n" ++
    "\\ No newline at end of file\n")).bind (·.applyTo? "x\r\n") = some "y\r" := by
  decide +kernel

/-! ## Headers -/

/-- The digits of a number are read as the number. -/
theorem readNumber?_toDigits (n : Nat) {rest : List Char}
    (hrest : ∀ c ∈ rest.head?, c.isDigit = false) :
    readNumber? (Nat.toDigits 10 n ++ rest) = some (n, rest) := by
  have hdigits : ∀ c ∈ Nat.toDigits 10 n, c.isDigit = true := fun c hc =>
    Nat.isDigit_of_mem_toDigits (by decide) (by decide) hc
  have hstop : rest.takeWhile Char.isDigit = [] ∧ rest.dropWhile Char.isDigit = rest := by
    cases rest with
    | nil => simp
    | cons c rest => simp [hrest c rfl]
  rw [readNumber?, List.takeWhile_append_of_pos hdigits, List.dropWhile_append_of_pos hdigits,
    hstop.1, hstop.2, List.append_nil]
  simp [Nat.toDigits_ne_nil, Nat.ofDigitChars_ten_toDigits]

/-- A range is read as it is written. -/
theorem readRange?_rangeText (start length : Nat) {rest : List Char}
    (hrest : ∀ c ∈ rest.head?, c.isDigit = false ∧ c ≠ ',') :
    readRange? ((rangeText start length).toList ++ rest) = some (start, length, rest) := by
  have hdigit := fun c hc => (hrest c hc).1
  -- A range of one line has no length, so a comma behind it would be read as the start of one.
  by_cases hone : length = 1
  · have hcomma : Text.dropStart? [','] rest = none := by
      cases rest with
      | nil => rfl
      | cons c rest => simp [Text.dropStart?, (hrest c rfl).2.symm]
    simp [rangeText, readRange?, hone, readNumber?_toDigits _ hdigit, hcomma]
  · have hcomma : ∀ c ∈ (',' :: (Nat.toDigits 10 length ++ rest)).head?, c.isDigit = false := by
      rintro c ⟨⟩
      decide
    have htext : (rangeText start length).toList ++ rest =
        Nat.toDigits 10 (if length = 0 then start else start + 1) ++
          ',' :: (Nat.toDigits 10 length ++ rest) := by
      simp [rangeText, hone]
    rw [htext, readRange?, readNumber?_toDigits _ hcomma]
    simp only [Option.bind_eq_bind, Option.bind_some, Text.dropStart?, if_true,
      readNumber?_toDigits _ hdigit]
    split_ifs <;> simp

/-- The header line of a hunk, without its line feed. -/
def Hunk.header (h : Hunk (List Char)) : List Char :=
  ("@@ -" ++ rangeText h.oldStart h.oldLength ++ " +" ++ rangeText h.newStart h.newLength ++
    " @@").toList

/-- A hunk is written as its header line and its lines. -/
theorem Hunk.text_eq (h : Hunk (List Char)) :
    h.text = h.header ++ '\n' :: h.lines.flatMap (·.text) := by
  simp [Hunk.text, Hunk.header]

/-- A range holds no line feed. -/
theorem no_feed_rangeText (start length : Nat) : '\n' ∉ (rangeText start length).toList := by
  have hdigits : ∀ n, '\n' ∉ Nat.toDigits 10 n := by
    intro n hmem
    have := Nat.isDigit_of_mem_toDigits (by decide) (by decide) hmem
    revert this
    decide
  simp only [rangeText]
  split_ifs <;> simp [hdigits]

/-- A header is read as the place of its hunk. -/
theorem readHeader?_header (h : Hunk (List Char)) :
    readHeader? (h.header ++ ['\n']) = some { h with lines := [] } := by
  have hline : h.header ++ ['\n'] = "@@ -".toList ++ ((rangeText h.oldStart h.oldLength).toList ++
      (" +".toList ++ ((rangeText h.newStart h.newLength).toList ++ (" @@".toList ++ ['\n'])))) := by
    simp [Hunk.header]
  have hplus : ∀ rest, ∀ c ∈ (" +".toList ++ rest).head?, c.isDigit = false ∧ c ≠ ',' := by simp
  have hclose : ∀ rest, ∀ c ∈ (" @@".toList ++ rest).head?, c.isDigit = false ∧ c ≠ ',' := by simp
  rw [hline, readHeader?]
  simp only [Option.bind_eq_bind, Option.bind_some, Text.dropStart?_append,
    readRange?_rangeText _ _ (hplus _), readRange?_rangeText _ _ (hclose _)]

/-! ## Written lines -/

/-- A text without a carriage return at its end. -/
def withoutReturn (l : List Char) : List Char := if l.getLast? = some '\r' then l.dropLast else l

/-- A line without a carriage return at its end, before its line feed if it has one. -/
def dropReturn (l : List Char) : List Char :=
  if Text.endsWithFeed l then withoutReturn l.dropLast ++ ['\n'] else withoutReturn l

/-- A carriage return at the end of a text is not its first character if that is another one. -/
theorem withoutReturn_cons {c : Char} (hc : c ≠ '\r') (l : List Char) :
    withoutReturn (c :: l) = c :: withoutReturn l := by
  cases l with
  | nil => simp [withoutReturn, hc]
  | cons d l =>
    rw [withoutReturn, withoutReturn, List.getLast?_cons_cons, List.dropLast_cons_cons]
    split_ifs <;> rfl

/-- A line feed ends a line and takes a carriage return before it along. -/
theorem lines_append_feed {l : List Char} (hfeed : '\n' ∉ l) (rest : List Char) :
    Text.lines (l ++ '\n' :: rest) = withoutReturn l :: Text.lines rest := by
  rw [withoutReturn]
  split_ifs with hreturn
  · obtain ⟨front, rfl⟩ := List.getLast?_eq_some_iff.mp hreturn
    have hfront : '\n' ∉ front := fun h => hfeed (List.mem_append_left _ h)
    rw [List.append_assoc, List.dropLast_concat]
    exact Text.lines_append_returnFeed hfront rest
  · exact Text.lines_append_feed hfeed hreturn rest

/-- The lines that the reader finds in the written body of a patch. -/
def settledLines (body : List Char) : List (List Char) :=
  settleEnds ((Text.lines body).map (· ++ ['\n']))

/-- A text that does not start with a backslash has no remark for its first line. -/
theorem no_remark_of_head {body : List Char} (h : body.head? ≠ some '\\') :
    ((Text.lines body).map (· ++ ['\n'])).head?.any isRemark = false := by
  fun_cases Text.lines body <;> simp_all [isRemark]

/-- A line that does not start with a backslash is no remark, with or without a carriage return. -/
theorem isRemark_withoutReturn_append {l : List Char} (h : l.head? ≠ some '\\') :
    isRemark (withoutReturn l ++ ['\n']) = false := by
  rw [withoutReturn]
  split_ifs
  · rcases l with _ | ⟨c, _ | ⟨d, l⟩⟩ <;> simp_all [isRemark]
  · cases l <;> simp_all [isRemark]

/-- A line that a line feed ends. -/
theorem settledLines_append_feed {l rest : List Char} (hfeed : '\n' ∉ l)
    (hstart : l.head? ≠ some '\\') (hrest : rest.head? ≠ some '\\') :
    settledLines (l ++ '\n' :: rest) = (withoutReturn l ++ ['\n']) :: settledLines rest := by
  rw [settledLines, lines_append_feed hfeed, List.map_cons, settleEnds, no_remark_of_head hrest,
    isRemark_withoutReturn_append hstart, settledLines]
  rfl

/-- The remark ends a line and is a line of its own. -/
theorem missingFeedRemark_eq :
    ∃ remark, missingFeedRemark = '\n' :: (('\\' :: remark) ++ ['\n']) ∧ '\n' ∉ remark :=
  ⟨" No newline at end of file".toList, by decide +kernel, by decide +kernel⟩

/-- A line with the remark that no line feed ends it. -/
theorem settledLines_append_remark {l : List Char} (hfeed : '\n' ∉ l)
    (hstart : l.head? ≠ some '\\') (rest : List Char) :
    settledLines (l ++ (missingFeedRemark ++ rest)) = withoutReturn l :: settledLines rest := by
  obtain ⟨remark, htext, hremarkFeed⟩ := missingFeedRemark_eq
  have hremark : isRemark (withoutReturn ('\\' :: remark) ++ ['\n']) = true := by
    rw [withoutReturn_cons (by decide)]
    rfl
  rw [htext, settledLines, List.cons_append, List.append_assoc, lines_append_feed hfeed,
    List.singleton_append, lines_append_feed (by simpa using hremarkFeed)]
  simp [settleEnds, isRemark_withoutReturn_append hstart, hremark, settledLines]

/-- A line behind its sign is found as it is, but for a carriage return at its end. -/
theorem settledLines_signedLine_append {sign : Char} {line rest : List Char}
    (hsign : sign ∉ ['\n', '\r', '\\']) (hline : IsLine line) (hrest : rest.head? ≠ some '\\') :
    settledLines (signedLine sign line ++ rest) = (sign :: dropReturn line) :: settledLines rest := by
  simp only [List.mem_cons, List.not_mem_nil, or_false, not_or] at hsign
  obtain ⟨hnotFeed, hnotReturn, hnotSlash⟩ := hsign
  have hsigned : ∀ l, '\n' ∉ l → '\n' ∉ sign :: l := by
    intro l hl
    simpa [eq_comm] using ⟨hnotFeed, hl⟩
  have hstart : ∀ l, (sign :: l).head? ≠ some '\\' := by
    intro l
    simpa using hnotSlash
  rcases hline.cases with ⟨front, hfeed, rfl⟩ | hfeed
  · have htext : signedLine sign (front ++ ['\n']) ++ rest = (sign :: front) ++ '\n' :: rest := by
      simp [signedLine, Text.endsWithFeed]
    rw [htext, settledLines_append_feed (hsigned front hfeed) (hstart front) hrest,
      withoutReturn_cons hnotReturn]
    simp [dropReturn, Text.endsWithFeed]
  · have hends : Text.endsWithFeed line = false := by
      rw [Text.endsWithFeed, beq_eq_false_iff_ne]
      exact fun hlast => hfeed (List.mem_of_getLast? hlast)
    have htext : signedLine sign line ++ rest = (sign :: line) ++ (missingFeedRemark ++ rest) := by
      simp [signedLine, hends]
    rw [htext, settledLines_append_remark (hsigned line hfeed) (hstart line) rest,
      withoutReturn_cons hnotReturn]
    simp [dropReturn, hends]

/-- **A written line** is found and read as it is, but for a carriage return at its end. -/
theorem settledLines_text_append {l : HunkLine (List Char)} (hline : IsLine l.line) {rest : List Char}
    (hrest : rest.head? ≠ some '\\') :
    ∃ line, settledLines (l.text ++ rest) = line :: settledLines rest ∧
      readLine? line = some (l.map dropReturn) := by
  cases l with
  | context line =>
    rw [HunkLine.text]
    split_ifs with hempty
    · subst hempty
      exact ⟨['\n'], settledLines_append_feed List.not_mem_nil (by simp) hrest, rfl⟩
    · exact ⟨_, settledLines_signedLine_append (by decide) hline hrest, rfl⟩
  | removed line => exact ⟨_, settledLines_signedLine_append (by decide) hline hrest, rfl⟩
  | added line => exact ⟨_, settledLines_signedLine_append (by decide) hline hrest, rfl⟩

/-! ## Written hunks -/

/-- A written line does not start with a backslash. -/
theorem HunkLine.head_text_append (l : HunkLine (List Char)) (rest : List Char) :
    (l.text ++ rest).head? ≠ some '\\' := by
  cases l with
  | context line =>
    rw [HunkLine.text]
    split_ifs with hempty
    · simp [hempty]
    · simp [signedLine]
  | removed line => simp [HunkLine.text, signedLine]
  | added line => simp [HunkLine.text, signedLine]

/-- Written lines do not start with a backslash. -/
theorem head_flatMap_text_append (ls : List (HunkLine (List Char))) {rest : List Char}
    (hrest : rest.head? ≠ some '\\') : (ls.flatMap (·.text) ++ rest).head? ≠ some '\\' := by
  cases ls with
  | nil => exact hrest
  | cons l ls =>
    rw [List.flatMap_cons, List.append_assoc]
    exact l.head_text_append _

/-- Written hunks do not start with a backslash. -/
theorem head_flatMap_hunkText (hs : List (Hunk (List Char))) :
    (hs.flatMap (·.text)).head? ≠ some '\\' := by
  cases hs with
  | nil => simp
  | cons h hs => simp [Hunk.text]

/-- The lines of a hunk are read as they are, but for carriage returns at their ends, and then the
hunks behind it. -/
theorem readHunks?_lines {ls : List (HunkLine (List Char))} (hls : ∀ l ∈ ls, IsLine l.line)
    {rest : List Char} (hrest : rest.head? ≠ some '\\') :
    readHunks? (oldSide ls).length (newSide ls).length
        (settledLines (ls.flatMap (·.text) ++ rest)) =
      (readHunks? 0 0 (settledLines rest)).map fun r =>
        (ls.map (HunkLine.map dropReturn) ++ r.1, r.2) := by
  induction ls with
  | nil => simp [oldSide, newSide]
  | cons l ls ih =>
    -- What follows is no remark on this line, so the line is found apart from it.
    have htail := head_flatMap_text_append ls hrest
    obtain ⟨line, hsettled, hread⟩ := settledLines_text_append (hls l List.mem_cons_self) htail
    have hmore : ¬ ((oldSide (l :: ls)).length = 0 ∧ (newSide (l :: ls)).length = 0) := by
      cases l <;> simp [oldSide, newSide, HunkLine.old?, HunkLine.new?]
    have hold : (oldSide (l :: ls)).length = (oldSide [l]).length + (oldSide ls).length := by
      rw [← List.length_append, ← oldSide_append, List.singleton_append]
    have hnew : (newSide (l :: ls)).length = (newSide [l]).length + (newSide ls).length := by
      rw [← List.length_append, ← newSide_append, List.singleton_append]
    have holdCount : (oldSide [l.map dropReturn]).length = (oldSide [l]).length := by
      simpa using congrArg List.length (oldSide_map dropReturn [l])
    have hnewCount : (newSide [l.map dropReturn]).length = (newSide [l]).length := by
      simpa using congrArg List.length (newSide_map dropReturn [l])
    rw [List.flatMap_cons, List.append_assoc, hsettled, readHunks?, if_neg hmore, hread]
    simp only [Option.bind_eq_bind, Option.bind_some, holdCount, hnewCount, hold, hnew,
      Nat.le_add_right, and_self, if_true, Nat.add_sub_cancel_left,
      ih fun m hm => hls m (List.mem_cons_of_mem l hm)]
    cases readHunks? 0 0 (settledLines rest) <;> rfl

/-- A hunk that is as long as it says and shows lines. -/
structure Hunk.Sound (h : Hunk (List Char)) : Prop where
  /-- It has as many old lines as it says. -/
  oldLength : h.oldLength = (oldSide h.lines).length
  /-- It has as many new lines as it says. -/
  newLength : h.newLength = (newSide h.lines).length
  /-- Its lines hold line feeds at their ends only. -/
  isLine : ∀ l ∈ h.lines, IsLine l.line

/-- A header is one line, and no remark. -/
theorem Hunk.settledLines_header_append (h : Hunk (List Char)) {rest : List Char}
    (hrest : rest.head? ≠ some '\\') :
    settledLines (h.header ++ '\n' :: rest) = (h.header ++ ['\n']) :: settledLines rest := by
  have hfeed : '\n' ∉ h.header := by
    simp [Hunk.header, no_feed_rangeText]
  have hlast : h.header.getLast? = some '@' := by
    rw [Hunk.header, String.toList_append, List.getLast?_append_of_ne_nil _ (by simp)]
    rfl
  have hreturn : withoutReturn h.header = h.header := by
    rw [withoutReturn, hlast, if_neg (by decide)]
  rw [settledLines_append_feed hfeed (by simp [Hunk.header]) hrest, hreturn]

/-- **Written hunks** are read as they are, but for carriage returns at the ends of their lines. -/
theorem readHunks?_hunks {hs : List (Hunk (List Char))} (hhs : ∀ h ∈ hs, h.Sound) :
    readHunks? 0 0 (settledLines (hs.flatMap (·.text))) = some ([], hs.map (Hunk.map dropReturn)) := by
  induction hs with
  | nil => rfl
  | cons h hs ih =>
    have hsound := hhs h List.mem_cons_self
    have htail := head_flatMap_hunkText hs
    rw [List.flatMap_cons, h.text_eq, List.append_assoc, List.cons_append,
      h.settledLines_header_append (head_flatMap_text_append h.lines htail), readHunks?,
      if_pos ⟨rfl, rfl⟩, readHeader?_header]
    simp only [Option.bind_eq_bind, Option.bind_some]
    rw [hsound.oldLength, hsound.newLength, readHunks?_lines hsound.isLine htail,
      ih fun g hg => hhs g (List.mem_cons_of_mem h hg)]
    simp [Hunk.map, hsound.oldLength, hsound.newLength]

/-! ## Written sections -/

/-- The hunks of the diff between two texts are sound. -/
theorem sound_of_mem_diff {before after : List Char} {h : Hunk (List Char)}
    (hh : h ∈ diff (terminatedLines before) (terminatedLines after)) : h.Sound := by
  have htiles := tiles_diff (terminatedLines before) (terminatedLines after)
  obtain ⟨holdLength, hnewLength⟩ := htiles.lengths hh
  refine ⟨holdLength, hnewLength, fun l hl => ?_⟩
  rcases htiles.mem_of_mem_lines hh hl with hmem | hmem
  · exact isLine_of_mem_terminatedLines hmem
  · exact isLine_of_mem_terminatedLines hmem

/-- A name is read from a line of its own. -/
theorem readName?_append_feed (keyword : String) (name : List Char) :
    readName? keyword (keyword.toList ++ (name ++ ['\n'])) = some name := by
  rw [readName?, Text.dropStart?_append]
  simp [Text.endsWithFeed]

/-- A name that is read from a line holds no line feed. -/
theorem no_feed_of_readName? {keyword : String} {line name : List Char} (hline : IsLine line)
    (h : readName? keyword line = some name) : '\n' ∉ name := by
  obtain ⟨raw, hraw, hname⟩ := Option.bind_eq_some_iff.mp h
  obtain rfl := Text.dropStart?_eq_some_iff.mp hraw
  split_ifs at hname with hends
  obtain rfl := Option.some.inj hname
  have hne : raw ≠ [] := by
    rintro rfl
    simp [Text.endsWithFeed] at hends
  rw [IsLine, List.dropLast_append_of_ne_nil hne] at hline
  exact fun hmem => hline (List.mem_append_right _ hmem)

/-- The old name of a section holds no line feed. -/
theorem FileDiff.no_feed_oldName {text : String} {d : FileDiff}
    (h : FileDiff.ofText? text = some d) : '\n' ∉ d.oldName := by
  rw [FileDiff.ofText?] at h
  split at h
  · rename_i title oldLine newLine body hlines
    have hline : IsLine oldLine :=
      isLine_of_mem_terminatedLines (hlines ▸ List.mem_cons_of_mem _ List.mem_cons_self)
    simp only [Option.bind_eq_bind, Option.bind_eq_some_iff, Option.some.injEq] at h
    obtain ⟨_, -, oldName, hname, _, -, _, -, rfl⟩ := h
    exact no_feed_of_readName? hline hname
  · cases h

/-- **A written section** of a file whose path holds no line feed is read as the diff of its two
texts, but for carriage returns at the ends of the lines. -/
theorem FileDiff.ofText?_filePatch {path : String} (hpath : '\n' ∉ path.toList)
    (before after : String) :
    FileDiff.ofText? (filePatch path before after) =
      some ⟨"a/".toList ++ path.toList, "b/".toList ++ path.toList,
        (diff (terminatedLines before.toList) (terminatedLines after.toList)).map
          (Hunk.map dropReturn)⟩ := by
  -- The section is three lines with the names and then the lines of the body.
  have htext : (filePatch path before after).toList =
      ("diff --git ".toList ++ ("a/".toList ++ path.toList ++ " b/".toList ++ path.toList)) ++ '\n' ::
        (("--- ".toList ++ ("a/".toList ++ path.toList)) ++ '\n' ::
        (("+++ ".toList ++ ("b/".toList ++ path.toList)) ++ '\n' ::
        (Text.lines ((diff (terminatedLines before.toList)
          (terminatedLines after.toList)).flatMap (·.text))).flatMap (· ++ ['\n']))) := by
    unfold filePatch
    simp
  rw [FileDiff.ofText?, htext, terminatedLines_append_feed (by simp [hpath]),
    terminatedLines_append_feed (by simp [hpath]), terminatedLines_append_feed (by simp [hpath]),
    terminatedLines_flatMap_feed fun l hl => Text.no_feed_of_mem_lines hl]
  simp only [List.append_assoc "diff --git ".toList, List.append_assoc "--- ".toList,
    List.append_assoc "+++ ".toList, readName?_append_feed, Option.bind_eq_bind, Option.bind_some]
  rw [← settledLines, readHunks?_hunks fun h hh => sound_of_mem_diff hh]
  rfl

end ImportMigration.Patch
