import ImportMigration.Proofs.DirectiveTable
import ImportMigration.Proofs.SpecWords

/-! # The words of a directive line

A directive line is trimmed, its keyword is cut off as a run of characters with a space behind it,
and only then are words read. What it states can be told from the words of the whole line, and from
the character behind the first of them: a keyword that no plain space follows is neither a keyword
to the reader nor a source that it could take, since no import spec is a single word without a dot.

* `Directive.IsKeyword`, `Directive.SpaceFollows`: the first word and what stands behind it.
* `Directive.States`: what the words of a line state.
* `Directive.parse_eq_ok_iff_states`: exactly that is read.
* `Directive.Canonical.states_text`: a written directive states itself.
* `Directive.parse_by_words`: both together. -/

namespace ImportMigration.Directive

/-- Whether a word is the keyword of a kind in any ASCII case. -/
def IsKeyword (kind : DirectiveKind) (word : List Char) : Prop :=
  word.map Char.toUpper = kind.keyword.toList

instance (kind : DirectiveKind) (word : List Char) : Decidable (IsKeyword kind word) :=
  inferInstanceAs (Decidable (_ = _))

/-- Whether a plain space stands right behind the first word of a line. -/
def SpaceFollows (line word : List Char) : Prop :=
  ∃ rest, Text.trimStart line = word ++ ' ' :: rest

/-- What the words of a line state. -/
inductive States (line : List Char) : Directive → Prop
  /-- A keyword with a space behind it is followed by the source, any words, and the target. -/
  | keyword {kind : DirectiveKind} {word first last : List Char} {between : List (List Char)}
      {source target : ImportSpec} (words : Text.words line = word :: first :: (between ++ [last]))
      (isKeyword : IsKeyword kind word) (space : SpaceFollows line word)
      (readSource : ImportSpec.parse (String.ofList first) = .ok source)
      (readTarget : ImportSpec.parse (String.ofList last) = .ok target) :
      States line { source, target, kind }
  /-- Without a keyword the line has the source, any words, and the target. -/
  | plain {first last : List Char} {between : List (List Char)} {source target : ImportSpec}
      (words : Text.words line = first :: (between ++ [last]))
      (noKeyword : ∀ kind, ¬IsKeyword kind first)
      (readSource : ImportSpec.parse (String.ofList first) = .ok source)
      (readTarget : ImportSpec.parse (String.ofList last) = .ok target) :
      States line { source, target, kind := .replace }

/-! ## Keywords -/

/-- The small letters stand together. -/
theorem isLower_iff {c : Char} : c.isLower = true ↔ 97 ≤ c.toNat ∧ c.toNat ≤ 122 :=
  Bool.and_eq_true_iff.trans (and_congr decide_eq_true_iff decide_eq_true_iff)

/-- The capitals stand together. -/
theorem isUpper_iff {c : Char} : c.isUpper = true ↔ 65 ≤ c.toNat ∧ c.toNat ≤ 90 :=
  decide_eq_true_iff

/-- A letter is a capital or a small one. -/
theorem isAlpha_iff {c : Char} : c.isAlpha = true ↔ c.isUpper = true ∨ c.isLower = true :=
  Bool.or_eq_true_iff

/-- No letter is blank. -/
theorem isBlank_of_isAlpha {c : Char} (h : c.isAlpha = true) : Text.isBlank c = false := by
  rw [isAlpha_iff, isUpper_iff, isLower_iff] at h
  simp [Text.isBlank]
  omega

/-- Only small letters change in upper case. -/
theorem toUpper_eq_self {c : Char} (h : c.isLower = false) : c.toUpper = c :=
  dif_neg fun hlower => Bool.false_ne_true (h.symm.trans (isLower_iff.mpr hlower))

/-- A small letter changes to one that does not come before the first capital. -/
theorem le_toNat_toUpper {c : Char} (h : c.isLower = true) : 65 ≤ c.toUpper.toNat := by
  have hrange := isLower_iff.mp h
  -- Going back by 32 places is an addition that overflows.
  have hval : c.toUpper.toNat = (c.toNat + 4294967264) % 4294967296 :=
    (congrArg Char.toNat (dif_pos hrange)).trans (UInt32.toNat_add _ _)
  omega

/-- Only a space is a space in upper case. -/
theorem toUpper_eq_space_iff {c : Char} : c.toUpper = ' ' ↔ c = ' ' := by
  refine ⟨fun h => ?_, by rintro rfl; rfl⟩
  cases hlower : c.isLower with
  | true =>
    have hcapital := le_toNat_toUpper hlower
    rw [h] at hcapital
    exact absurd hcapital (by decide)
  | false => rwa [toUpper_eq_self hlower] at h

/-- What is a letter in upper case is one. -/
theorem isAlpha_of_isAlpha_toUpper {c : Char} (h : c.toUpper.isAlpha = true) :
    c.isAlpha = true := by
  cases hlower : c.isLower with
  | true => exact isAlpha_iff.mpr (.inr hlower)
  | false => rwa [toUpper_eq_self hlower] at h

section Keyword

variable {kind : DirectiveKind} {word : List Char} (h : IsKeyword kind word)

include h

/-- A keyword consists of letters. -/
theorem IsKeyword.isAlpha : ∀ c ∈ word, c.isAlpha = true := by
  intro c hc
  have hmem : c.toUpper ∈ kind.keyword.toList := h ▸ List.mem_map_of_mem hc
  have hletters : kind.keyword.toList.all Char.isAlpha = true := by cases kind <;> decide
  exact isAlpha_of_isAlpha_toUpper (List.all_eq_true.mp hletters _ hmem)

/-- A keyword has no blanks. -/
theorem IsKeyword.solid : Text.Solid word := fun c hc => isBlank_of_isAlpha (h.isAlpha c hc)

/-- A keyword is not empty. -/
theorem IsKeyword.ne_nil : word ≠ [] := by
  rintro rfl
  cases kind <;> cases h

/-- A word is the keyword of one kind at most. -/
theorem IsKeyword.unique {kind' : DirectiveKind} (h' : IsKeyword kind' word) : kind' = kind := by
  have hsame : kind'.keyword.toList = kind.keyword.toList := h'.symm.trans h
  cases kind <;> cases kind' <;> first | rfl | exact absurd hsame (by decide)

/-- **A keyword is no import spec.** It has no dot, and a single segment is no qualified name. -/
theorem IsKeyword.parse_ne_ok (s : ImportSpec) :
    ImportSpec.parse (String.ofList word) ≠ .ok s := by
  intro hparse
  obtain ⟨name, localName, hwords, hname, -⟩ := ImportSpec.parse_eq_ok_iff_words.mp hparse
  rw [String.toList_ofList, h.solid.words_eq h.ne_nil] at hwords
  obtain rfl := (List.cons.inj hwords).1
  have hdot : '.' ∉ word := fun hmem => absurd (h.isAlpha '.' hmem) (by decide)
  have hsplit : word.splitOn '.' = [word] := by
    refine List.splitOnP_eq_singleton fun c hc => beq_eq_false_iff_ne.mpr ?_
    rintro rfl
    exact hdot hc
  rw [hsplit, List.map_singleton] at hname
  obtain ⟨x, hx, hlower⟩ := hname.lowercase_first
  obtain rfl : String.ofList word = x := by simpa using hx
  exact absurd (hname.two_le (by simpa using hlower)) (by simp)

end Keyword

/-- What a keyword is dropped from starts with it in some case. -/
theorem dropKeyword?_eq_some_iff {keyword line rest : List Char} :
    dropKeyword? keyword line = some rest ↔
      ∃ start, line = start ++ rest ∧ start.map Char.toUpper = keyword := by
  induction keyword generalizing line with
  | nil => simp [dropKeyword?]
  | cons k keyword ih =>
    constructor
    · intro h
      cases line with
      | nil => cases h
      | cons c line =>
        rw [dropKeyword?] at h
        split_ifs at h with hc
        obtain ⟨start, rfl, hstart⟩ := ih.mp h
        exact ⟨c :: start, rfl, by rw [List.map_cons, hc, hstart]⟩
    · rintro ⟨start, rfl, hstart⟩
      cases start with
      | nil => cases hstart
      | cons c start =>
        obtain ⟨hc, hstart⟩ := List.cons.inj hstart
        rw [List.cons_append, dropKeyword?, if_pos hc]
        exact ih.mpr ⟨start, rfl, hstart⟩

/-- A keyword with a space behind it is dropped with the space. -/
theorem dropKeyword?_space_iff {kind : DirectiveKind} {line rest : List Char} :
    dropKeyword? (kind.keyword.toList ++ [' ']) line = some rest ↔
      ∃ word, line = word ++ ' ' :: rest ∧ IsKeyword kind word := by
  rw [dropKeyword?_eq_some_iff]
  constructor
  · rintro ⟨start, rfl, hstart⟩
    obtain ⟨word, space, rfl, hword, hspace⟩ := List.map_eq_append_iff.mp hstart
    obtain ⟨c, rfl, hc⟩ := List.map_eq_singleton_iff.mp hspace
    obtain rfl := toUpper_eq_space_iff.mp hc
    exact ⟨word, by simp, hword⟩
  · rintro ⟨word, rfl, hword⟩
    exact ⟨word ++ [' '], by simp, by rw [List.map_append, hword]; rfl⟩

/-- The first word of a line ends where a space follows it. -/
theorem takeWhile_append_space {word : List Char} (h : Text.Solid word) (rest : List Char) :
    (word ++ ' ' :: rest).takeWhile (!Text.isBlank ·) = word := by
  rw [h.takeWhile_append, List.takeWhile_cons_of_neg (by decide), List.append_nil]

/-- A line that starts with a keyword and a space is read behind it. -/
theorem readKeyword_of_isKeyword {kind : DirectiveKind} {word : List Char} (h : IsKeyword kind word)
    (rest : List Char) : readKeyword (word ++ ' ' :: rest) = (kind, rest) := by
  have hdrop : dropKeyword? (kind.keyword.toList ++ [' ']) (word ++ ' ' :: rest) = some rest :=
    dropKeyword?_space_iff.mpr ⟨word, rfl, h⟩
  rw [readKeyword]
  split
  · rename_i rest' hmove
    -- A line has one first word, so it cannot start with two keywords.
    have hmove' : dropKeyword? (DirectiveKind.move.keyword.toList ++ [' ']) (word ++ ' ' :: rest) =
      some rest' := hmove
    obtain ⟨word', hline, hword'⟩ := dropKeyword?_space_iff.mp hmove'
    obtain rfl : word = word' := by
      rw [← takeWhile_append_space h.solid rest, hline, takeWhile_append_space hword'.solid]
    obtain rfl := h.unique hword'
    rw [(List.cons.inj (List.append_cancel_left hline)).2]
  · rename_i hmove
    cases kind with
    | move => exact absurd (hmove.symm.trans hdrop) (by simp)
    | replace =>
      rw [show "REPLACE ".toList = DirectiveKind.replace.keyword.toList ++ [' '] from rfl, hdrop]

/-- Any other line is read as a whole. -/
theorem readKeyword_of_no_keyword {line : List Char}
    (h : ∀ kind word rest, line = word ++ ' ' :: rest → ¬IsKeyword kind word) :
    readKeyword line = (.replace, line) := by
  have hnone : ∀ kind : DirectiveKind,
      dropKeyword? (kind.keyword.toList ++ [' ']) line = none := by
    intro kind
    rw [Option.eq_none_iff_forall_ne_some]
    intro rest hdrop
    obtain ⟨word, hline, hword⟩ := dropKeyword?_space_iff.mp hdrop
    exact h kind word rest hline hword
  have hmove : dropKeyword? "MOVE ".toList line = none := hnone .move
  have hreplace : dropKeyword? "REPLACE ".toList line = none := hnone .replace
  simp only [readKeyword, hmove, hreplace]

/-! ## Reading a line -/

/-- Reading a line reads the first and the last of at least two words behind the keyword. -/
theorem parse_eq_ok_iff {line : String} {d : Directive} {kind : DirectiveKind} {rest : List Char}
    (h : readKeyword (Text.trim line.toList) = (kind, rest)) :
    parse line = .ok d ↔ ∃ first between last,
      Text.words rest = first :: (between ++ [last]) ∧
        ImportSpec.parse (String.ofList first) = .ok d.source ∧
        ImportSpec.parse (String.ofList last) = .ok d.target ∧ d.kind = kind := by
  simp only [parse, h]
  constructor
  · intro hparse
    split at hparse
    · rename_i first second others hwords
      split at hparse
      · cases hparse
      rename_i source hsource
      split at hparse
      · cases hparse
      rename_i target htarget
      obtain rfl := Except.ok.inj hparse
      refine ⟨first, (second :: others).dropLast, (second :: others).getLast (by simp), ?_,
        hsource, htarget, rfl⟩
      rw [hwords, List.dropLast_append_getLast]
    · cases hparse
  · rintro ⟨first, between, last, hwords, hsource, htarget, rfl⟩
    obtain ⟨second, others, hrest⟩ := List.exists_cons_of_ne_nil (l := between ++ [last]) (by simp)
    rw [hrest] at hwords
    have hlast : (second :: others).getLast (by simp) = last := by
      simp only [← hrest, List.getLast_append_singleton]
    rw [hwords]
    simp only [hsource, hlast, htarget]

/-- A trimmed line has a space behind its first word exactly if the line has one there and more
words follow. -/
theorem exists_trim_eq_iff {line word : List Char} (hsolid : Text.Solid word) (hne : word ≠ []) :
    (∃ rest, Text.trim line = word ++ ' ' :: rest) ↔
      SpaceFollows line word ∧ Text.words line ≠ [word] := by
  have hblank : Text.isBlank ' ' = true := by decide
  constructor
  · rintro ⟨rest, htrim⟩
    constructor
    · have hstart : Text.trim line <+: Text.trimStart line :=
        List.rdropWhile_prefix Text.isBlank (Text.trimStart line)
      obtain ⟨blanks, hstart⟩ := hstart
      exact ⟨rest ++ blanks, by rw [← hstart, htrim]; simp⟩
    · -- The trimmed line does not end in the space, so a word stands behind it.
      have hmore : Text.words (' ' :: rest) ≠ [] :=
        Text.words_ne_nil_of_suffix_trim ⟨word, htrim.symm⟩ (by simp)
      rw [Text.words_cons_blank hblank] at hmore
      rw [← Text.words_trim, htrim, Text.words_append_blank hblank, hsolid.words_eq hne]
      simpa using hmore
  · rintro ⟨⟨rest, hstart⟩, hwords⟩
    rw [← Text.words_trimStart, hstart, Text.words_append_blank hblank,
      hsolid.words_eq hne] at hwords
    have hmore : ∃ c ∈ rest, Text.isBlank c = false := by
      have hrest : Text.words rest ≠ [] := by simpa using hwords
      simpa [Text.words_eq_nil_iff] using hrest
    refine ⟨Text.trimEnd rest, ?_⟩
    rw [Text.trim, hstart, List.append_cons, Text.trimEnd_append hmore, List.append_assoc]
    rfl

/-- **What a line states is read**, and nothing else. -/
theorem parse_eq_ok_iff_states {line : String} {d : Directive} :
    parse line = .ok d ↔ States line.toList d := by
  by_cases hkeyword : ∃ kind word rest,
      Text.trim line.toList = word ++ ' ' :: rest ∧ IsKeyword kind word
  · obtain ⟨kind, word, rest, htrim, hword⟩ := hkeyword
    have hwords : Text.words line.toList = word :: Text.words rest := by
      rw [← Text.words_trim, htrim, Text.words_append_blank (by decide),
        hword.solid.words_eq hword.ne_nil]
      rfl
    have hspace := ((exists_trim_eq_iff hword.solid hword.ne_nil).mp ⟨rest, htrim⟩).1
    rw [parse_eq_ok_iff (htrim ▸ readKeyword_of_isKeyword hword rest)]
    constructor
    · rintro ⟨first, between, last, hrest, hsource, htarget, rfl⟩
      exact .keyword (hrest ▸ hwords) hword hspace hsource htarget
    · intro h
      cases h with
      | keyword words isKeyword space readSource readTarget =>
        obtain ⟨rfl, hrest⟩ := List.cons.inj (hwords.symm.trans words)
        exact ⟨_, _, _, hrest, readSource, readTarget, hword.unique isKeyword⟩
      | plain words noKeyword readSource readTarget =>
        obtain ⟨rfl, -⟩ := List.cons.inj (hwords.symm.trans words)
        exact absurd hword (noKeyword kind)
  · have hread : readKeyword (Text.trim line.toList) = (.replace, Text.trim line.toList) :=
      readKeyword_of_no_keyword fun kind word rest htrim hword =>
        hkeyword ⟨kind, word, rest, htrim, hword⟩
    rw [parse_eq_ok_iff hread, Text.words_trim]
    obtain ⟨source, target, kind⟩ := d
    constructor
    · rintro ⟨first, between, last, hwords, hsource, htarget, rfl⟩
      exact .plain hwords (fun kind hword => hword.parse_ne_ok source hsource) hsource htarget
    · intro h
      cases h with
      | keyword words isKeyword space readSource readTarget =>
        -- A keyword with a space behind it and more words is what the line starts with.
        obtain ⟨rest, htrim⟩ := (exists_trim_eq_iff isKeyword.solid isKeyword.ne_nil).mpr
          ⟨space, by rw [words]; simp⟩
        exact absurd ⟨_, _, rest, htrim, isKeyword⟩ hkeyword
      | plain words noKeyword readSource readTarget =>
        exact ⟨_, _, _, words, readSource, readTarget, rfl⟩

/-! ## Written directives -/

/-- The text of a canonical spec without a local name is one word. -/
theorem words_text {s : ImportSpec} (h : s.Canonical) (hlocal : s.localName = none) :
    Text.words s.text.toList = [s.text.toList] := by
  refine Text.Solid.words_eq ?_ s.text_ne_nil
  rw [s.text_of_localName_eq_none hlocal]
  exact h.solid_qualifiedName

/-- The written form of a directive states the directive. -/
theorem Canonical.states_text {d : Directive} (h : d.Canonical) : States d.text.toList d := by
  have hkeyword : IsKeyword d.kind d.kind.keyword.toList := by cases d.kind <;> decide
  have hblank : Text.isBlank ' ' = true := by decide
  have hchars : d.text.toList = d.kind.keyword.toList ++
      ' ' :: (d.source.text.toList ++ ' ' :: ("->".toList ++ ' ' :: d.target.text.toList)) := by
    simp [text]
  have hwords : Text.words d.text.toList = d.kind.keyword.toList :: d.source.text.toList ::
      (["->".toList] ++ [d.target.text.toList]) := by
    have harrow : Text.words "->".toList = ["->".toList] := by decide
    rw [hchars, Text.words_append_blank hblank, Text.words_append_blank hblank,
      Text.words_append_blank hblank, hkeyword.solid.words_eq hkeyword.ne_nil,
      words_text h.source h.sourceLocalName, words_text h.target h.targetLocalName, harrow]
    rfl
  have hspace : SpaceFollows d.text.toList d.kind.keyword.toList := by
    refine ⟨d.source.text.toList ++ ' ' :: ("->".toList ++ ' ' :: d.target.text.toList), ?_⟩
    rw [hchars]
    cases d.kind <;> rfl
  refine .keyword hwords hkeyword hspace ?_ ?_
  · rw [String.ofList_toList]
    exact ImportSpec.parse_text h.source
  · rw [String.ofList_toList]
    exact ImportSpec.parse_text h.target

/-- **Directive lines have a meaning by words, and it is written back.** A line is read as what its
words state, whatever stands between source and target, and the written form of what is read is read
as the same directive. -/
theorem parse_by_words (line : String) (d : Directive) :
    (parse line = .ok d ↔ States line.toList d) ∧ (parse line = .ok d → parse d.text = .ok d) :=
  ⟨parse_eq_ok_iff_states, fun h => parse_eq_ok_iff_states.mpr (canonical_of_parse h).states_text⟩

/-- A line between typographic blanks, with a keyword in mixed case and an arrow in words. -/
theorem parse_by_words_mixed_case :
    parse "\u2003mOvE com.old.A\tmoved\u00a0to com.new.B " =
        .ok ⟨⟨"com.old", [], some "A", none⟩, ⟨"com.new", [], some "B", none⟩, .move⟩ ∧
      States "\u2003mOvE com.old.A\tmoved\u00a0to com.new.B ".toList
        ⟨⟨"com.old", [], some "A", none⟩, ⟨"com.new", [], some "B", none⟩, .move⟩ ∧
      parse "MOVE com.old.A -> com.new.B" =
        .ok ⟨⟨"com.old", [], some "A", none⟩, ⟨"com.new", [], some "B", none⟩, .move⟩ := by
  have hparse : parse "\u2003mOvE com.old.A\tmoved\u00a0to com.new.B " =
      .ok ⟨⟨"com.old", [], some "A", none⟩, ⟨"com.new", [], some "B", none⟩, .move⟩ := by
    decide +kernel
  obtain ⟨hstates, hback⟩ := parse_by_words "\u2003mOvE com.old.A\tmoved\u00a0to com.new.B "
    ⟨⟨"com.old", [], some "A", none⟩, ⟨"com.new", [], some "B", none⟩, .move⟩
  exact ⟨hparse, hstates.mp hparse, hback hparse⟩

/-- A tab behind a keyword leaves the line without a meaning. -/
example : parse "MOVE\tcom.old.A -> com.new.B" = .error (.missingPackage "MOVE") := by
  decide +kernel

end ImportMigration.Directive
