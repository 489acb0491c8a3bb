import ImportMigration.Proofs.SpecGrammar

/-! # The words of an import spec

Reading never cuts a text into words: it trims, cuts at the first blank and takes `as` off what
follows. Still only the words count. A text is a spec when it is one word, or three of which the
second is `as`, and the first word is a qualified name.

* `ImportSpec.IsQualified`: the segment lists of qualified names.
* `ImportSpec.ofQualified`: the spec of a qualified name, each part by its own rule.
* `ImportSpec.parse_eq_ok_iff_words`: what is read, in terms of the words of the text. -/

namespace ImportMigration.ImportSpec

/-! ## Qualified names -/

/-- The segments of a qualified name. -/
structure IsQualified (segments : List String) : Prop where
  /-- No segment is empty. -/
  ne_empty : "" ∉ segments
  /-- No wildcard stands before the last segment. -/
  wildcard_last : "*" ∉ segments.dropLast
  /-- The first segment starts in lowercase. -/
  lowercase_first : ∃ x ∈ segments.head?, startsLowercase x = true
  /-- A name that starts in lowercase throughout has a segment besides its element. -/
  two_le : (∀ x ∈ segments, startsLowercase x = true) → 2 ≤ segments.length

/-- The package segments of a name: the longest run of segments from the first on that start in
lowercase, without the last of them when the run is the whole name. -/
def packageSegments (segments : List String) : List String :=
  let run := segments.takeWhile startsLowercase
  if run = segments then run.dropLast else run

/-- The spec of a qualified name: the package is followed by the owners, and the last segment is the
element unless it is the wildcard. -/
def ofQualified (segments : List String) (localName : Option String) : ImportSpec where
  package := ".".intercalate (packageSegments segments)
  owners := (segments.drop (packageSegments segments).length).dropLast
  element := if segments.getLast? = some "*" then none else segments.getLast?
  localName := localName

/-- A name is at fault when a segment is empty or a wildcard stands before the last one. -/
theorem segmentFault?_eq_none_iff {text : String} {segments : List String} :
    segmentFault? text segments = none ↔ "" ∉ segments ∧ "*" ∉ segments.dropLast := by
  simp only [segmentFault?]
  grind

/-- A name of a run of segments that start in lowercase and of what follows it is split, unless
nothing is left for the package. -/
theorem ofSegments?_append {lower upper : List String}
    (hlower : ∀ x ∈ lower, startsLowercase x = true)
    (hupper : ∀ x ∈ upper.head?, startsLowercase x = false) :
    ofSegments? (lower ++ upper) =
      if packageSegments (lower ++ upper) = [] then none
      else some (ofQualified (lower ++ upper) none) := by
  obtain ⟨hrun, hrest⟩ := takeWhile_dropWhile_append upper hlower hupper
  have hpackage : packageSegments (lower ++ upper) =
      if upper = [] then lower.dropLast else lower := by
    simp only [packageSegments, hrun, List.self_eq_append_right]
  rw [ofQualified, hpackage]
  rcases List.eq_nil_or_concat' upper with rfl | ⟨front, last, rfl⟩
  · rcases List.eq_nil_or_concat' lower with rfl | ⟨package, element, rfl⟩
    · simp [ofSegments?]
    · -- The whole name starts in lowercase, so its last segment is no wildcard.
      have hwild : element ≠ "*" := by
        rintro rfl
        exact absurd (hlower "*" (by simp)) (by decide)
      rw [List.append_nil] at hrun hrest
      simp [ofSegments?, hrun, hrest, hwild]
  · have hlast : (lower ++ (front ++ [last])).getLast? = some last := by
      rw [← List.append_assoc, List.getLast?_concat]
    have hinit : (lower ++ (front ++ [last])).dropLast = lower ++ front := by
      rw [← List.append_assoc, List.dropLast_concat]
    by_cases hwild : last = "*"
    · -- Without the wildcard the run still ends where the owners begin.
      subst hwild
      have hfront : ∀ x ∈ front.head?, startsLowercase x = false := by
        intro x hx
        exact hupper x (by simp_all [List.head?_append])
      obtain ⟨hrun', hrest'⟩ := takeWhile_dropWhile_append front hlower hfront
      simp [ofSegments?, hlast, hinit, hrun', hrest']
    · simp [ofSegments?, hlast, hrun, hrest, hwild]

/-- A segment list is split when a segment is left for the package, and then by the rule of each
part. -/
theorem ofSegments?_eq_some_iff {segments : List String} {s : ImportSpec} :
    ofSegments? segments = some s ↔
      packageSegments segments ≠ [] ∧ s = ofQualified segments none := by
  have hlower : ∀ x ∈ segments.takeWhile startsLowercase, startsLowercase x = true :=
    fun x hx => List.mem_takeWhile_imp hx
  have hupper : ∀ x ∈ (segments.dropWhile startsLowercase).head?, startsLowercase x = false := by
    have := List.head?_dropWhile_not startsLowercase segments
    grind
  have hsplit := ofSegments?_append hlower hupper
  rw [List.takeWhile_append_dropWhile] at hsplit
  rw [hsplit]
  split_ifs with hpackage <;> simp [hpackage, eq_comm]

/-- A segment is left for the package when the first starts in lowercase and, if all do, there are
two. -/
theorem packageSegments_ne_nil_iff {segments : List String} :
    packageSegments segments ≠ [] ↔
      (∃ x ∈ segments.head?, startsLowercase x = true) ∧
        ((∀ x ∈ segments, startsLowercase x = true) → 2 ≤ segments.length) := by
  have hall : segments.takeWhile startsLowercase = segments ↔
      ∀ x ∈ segments, startsLowercase x = true := List.takeWhile_eq_self_iff
  rw [← hall, packageSegments]
  cases segments with
  | nil => simp
  | cons x rest =>
    by_cases hx : startsLowercase x = true
    · split_ifs with hrun
      · rw [hrun]
        cases rest <;> simp [hx]
      · simp only [hrun, false_imp_iff]
        simp [hx]
    · simp [hx]

/-- A word is read as a qualified name when its segments are those of one. -/
theorem readName_eq_ok_iff {text : String} {name : List Char} {s : ImportSpec} :
    readName text name = .ok s ↔
      IsQualified ((name.splitOn '.').map String.ofList) ∧
        s = ofQualified ((name.splitOn '.').map String.ofList) none := by
  simp only [readName]
  generalize (name.splitOn '.').map String.ofList = segments
  have hqualified : IsQualified segments ↔
      segmentFault? text segments = none ∧ packageSegments segments ≠ [] := by
    rw [segmentFault?_eq_none_iff, packageSegments_ne_nil_iff]
    constructor
    · rintro ⟨hempty, hwild, hfirst, htwo⟩
      exact ⟨⟨hempty, hwild⟩, hfirst, htwo⟩
    · rintro ⟨⟨hempty, hwild⟩, hfirst, htwo⟩
      exact ⟨hempty, hwild, hfirst, htwo⟩
  rw [hqualified]
  cases hfault : segmentFault? text segments with
  | some fault => simp
  | none =>
    cases hsplit : ofSegments? segments with
    | none =>
      have hpackage : packageSegments segments = [] := by
        by_contra hne
        have := ofSegments?_eq_some_iff.mpr ⟨hne, rfl⟩
        rw [hsplit] at this
        cases this
      simp [hpackage]
    | some spec =>
      obtain ⟨hpackage, rfl⟩ := ofSegments?_eq_some_iff.mp hsplit
      simp [hpackage, eq_comm]

/-! ## What follows the name -/

/-- The words behind a qualified name. -/
def localNameWords : Option String → List (List Char)
  | none => []
  | some name => ["as".toList, name.toList]

/-- A local name is read where two words follow, of which the first is `as`. -/
theorem readLocalName_eq_ok_iff {rest : List Char} {name : String} :
    readLocalName rest = .ok name ↔ Text.words rest = localNameWords (some name) := by
  rw [← Text.words_trim rest, readLocalName, localNameWords]
  have hfirst := (Text.isBlank_ends_trim rest).1
  generalize Text.trim rest = trimmed at hfirst
  split
  · rename_i c tail
    by_cases hblank : Text.isBlank c = true
    · have hwords : Text.words ('a' :: 's' :: c :: tail) =
          "as".toList :: Text.words (c :: tail) := by
        rw [Text.words_cons_blank hblank]
        exact Text.words_append_blank hblank "as".toList tail
      rw [if_pos hblank, hwords, List.cons.injEq, Text.words_eq_singleton_iff]
      generalize Text.trim (c :: tail) = word
      by_cases hword : word ≠ [] ∧ Text.Solid word
      · have hany : word.any Text.isBlank = false := by simpa [Text.Solid] using hword.2
        simp only [List.isEmpty_iff, hword.1, hany, Bool.or_false, if_false]
        constructor
        · intro h
          obtain rfl := Except.ok.inj h
          simpa using hword
        · rintro ⟨-, rfl, -⟩
          simp
      · have hany : (word.isEmpty || word.any Text.isBlank) = true := by
          by_contra hnone
          simp only [Bool.or_eq_true, List.isEmpty_iff, List.any_eq_true, not_or, not_exists,
            not_and, Bool.not_eq_true] at hnone
          exact hword hnone
        simp only [hany, if_true, reduceCtorEq, true_and, false_iff]
        rintro ⟨rfl, hname⟩
        exact hword hname
    · -- The first word goes on behind `as`.
      have hfirstWord : ('a' :: 's' :: c :: tail).takeWhile (!Text.isBlank ·) ≠ "as".toList := by
        simp [hblank, show Text.isBlank 'a' = false by decide,
          show Text.isBlank 's' = false by decide]
      rw [if_neg hblank, Text.words_eq_cons (by simp) hfirst]
      simp only [List.cons.injEq, hfirstWord, false_and, reduceCtorEq]
  · rename_i hshape
    constructor
    · intro h
      cases h
    · intro h
      exfalso
      have hne : trimmed ≠ [] := by
        rintro rfl
        simp at h
      rw [Text.words_eq_cons hne hfirst, List.cons.injEq] at h
      cases hrest : trimmed.dropWhile (!Text.isBlank ·) with
      | nil => simp [hrest] at h
      | cons c tail =>
        refine hshape c tail ?_
        rw [← List.takeWhile_append_dropWhile (p := (!Text.isBlank ·)) (l := trimmed), h.1, hrest]
        rfl

/-- **What is read.** A text is a spec when its words are a qualified name, alone or with `as` and a
local name, and the spec is made of these words. -/
theorem parse_eq_ok_iff_words {source : String} {s : ImportSpec} :
    parse source = .ok s ↔ ∃ (name : List Char) (localName : Option String),
      Text.words source.toList = name :: localNameWords localName ∧
        IsQualified ((name.splitOn '.').map String.ofList) ∧
        s = ofQualified ((name.splitOn '.').map String.ofList) localName := by
  rw [← Text.words_trim, parse]
  by_cases hempty : Text.trim source.toList = []
  · simp [hempty]
  have hsuffix : ∀ t, t <:+ Text.trim source.toList → t ≠ [] → Text.words t ≠ [] :=
    fun t => Text.words_ne_nil_of_suffix_trim
  have hfirst := (Text.isBlank_ends_trim source.toList).1
  generalize Text.trim source.toList = trimmed at hempty hsuffix hfirst
  rw [if_neg (by simpa using hempty), Text.words_eq_cons hempty hfirst]
  cases hrest : trimmed.dropWhile (!Text.isBlank ·) with
  | nil =>
    simp only [readName_eq_ok_iff]
    constructor
    · rintro ⟨hname, rfl⟩
      exact ⟨_, none, rfl, hname, rfl⟩
    · rintro ⟨name, _ | a, hwords, hname, rfl⟩
      · obtain rfl := (List.cons.inj hwords).1
        exact ⟨hname, rfl⟩
      · simp [localNameWords] at hwords
  | cons c rest =>
    -- A trimmed text does not end in a blank, so at least one word follows the name.
    have hmore : Text.words (c :: rest) ≠ [] := by
      rw [← hrest]
      exact hsuffix _ (List.dropWhile_suffix _) (by simp [hrest])
    have hblank : Text.isBlank c = true := by
      have := List.head?_dropWhile_not (!Text.isBlank ·) trimmed
      simpa [hrest] using this
    have hlocal : ∀ a, readLocalName rest = .ok a ↔ Text.words rest = localNameWords (some a) :=
      fun a => readLocalName_eq_ok_iff
    rw [Text.words_cons_blank hblank] at hmore ⊢
    constructor
    · intro h
      simp only at h
      split at h
      · cases h
      · cases h
      · rename_i a ha
        split at h
        · cases h
        · rename_i spec hspec
          obtain ⟨hname, rfl⟩ := readName_eq_ok_iff.mp hspec
          obtain rfl := Except.ok.inj h
          exact ⟨_, some a, by rw [(hlocal a).mp ha], hname, rfl⟩
    · rintro ⟨name, _ | a, hwords, hname, rfl⟩
      · exact absurd (List.cons.inj hwords).2 hmore
      · obtain ⟨rfl, htail⟩ := List.cons.inj hwords
        simp only [(hlocal a).mpr htail, readName_eq_ok_iff.mpr ⟨hname, rfl⟩]
        rfl

end ImportMigration.ImportSpec
