import ImportMigration.ImportSpec.Parse
import ImportMigration.Proofs.Trimming
import Mathlib.Data.List.Basic

/-! # The grammar of import specs

The specs that a text can denote are the *canonical* ones: a package of segments that start in
lowercase, owners of which the first does not, and names without blanks and dots. Reading and
writing are inverse to each other on them.

* `ImportSpec.Canonical`: the four conditions.
* `ImportSpec.canonical_of_parse`: what is read is canonical.
* `ImportSpec.parse_text`: the text of a canonical spec is read as that spec.
* `ImportSpec.parse_text_eq_ok_iff_canonical`: no other spec is read from its own text.
* `ImportSpec.Canonical.eq_of_qualifiedName`: a canonical spec is determined by its qualified name
  and its local name. -/

namespace ImportMigration

/-- A part of a qualified name: not empty, without blanks and dots. -/
structure IsSegment (x : String) : Prop where
  /-- There is at least one character. -/
  ne_empty : x ≠ ""
  /-- No character is blank. -/
  solid : Text.Solid x.toList
  /-- No character is a dot. -/
  no_dot : '.' ∉ x.toList

/-- A segment that names something: any but the wildcard. -/
structure IsName (x : String) : Prop extends IsSegment x where
  /-- The segment is not the wildcard. -/
  ne_wildcard : x ≠ "*"

/-- A segment that starts in lowercase is a name. -/
theorem IsSegment.isName_of_startsLowercase {x : String} (h : IsSegment x)
    (hlower : startsLowercase x = true) : IsName x := by
  refine ⟨h, ?_⟩
  rintro rfl
  exact absurd hlower (by decide)

/-- The wildcard is a segment. -/
theorem isSegment_wildcard : IsSegment "*" := ⟨by decide, by decide, by decide⟩

namespace ImportSpec

/-- A spec that the grammar can produce. -/
structure Canonical (s : ImportSpec) : Prop where
  /-- The package is a chain of segments that start in lowercase. -/
  package : ∃ segments : List String, segments ≠ [] ∧
    (∀ x ∈ segments, IsSegment x ∧ startsLowercase x = true) ∧
    s.package = ".".intercalate segments
  /-- The owners are names. -/
  owners : ∀ o ∈ s.owners, IsName o
  /-- The first owner, which ends the package, does not start in lowercase. -/
  firstOwner : ∀ o ∈ s.owners.head?, startsLowercase o = false
  /-- The element is a name. -/
  element : ∀ e ∈ s.element, IsName e
  /-- The local name is one word. -/
  localName : ∀ a ∈ s.localName, a ≠ "" ∧ Text.Solid a.toList

/-! ## What is read is canonical -/

/-- The segments before a final wildcard, or all of them, are names when no wildcard stands before
the last. -/
theorem isName_of_mem_names {segments : List String} (hseg : ∀ x ∈ segments, IsSegment x)
    (hwild : "*" ∉ segments.dropLast) {x : String}
    (hx : x ∈ if segments.getLast? == some "*" then segments.dropLast else segments) :
    IsName x := by
  by_cases hlast : segments.getLast? = some "*"
  · rw [if_pos (by simp [hlast])] at hx
    refine ⟨hseg x (List.dropLast_subset segments hx), ?_⟩
    rintro rfl
    exact hwild hx
  · rw [if_neg (by simp [hlast])] at hx
    refine ⟨hseg x hx, ?_⟩
    rintro rfl
    rcases List.eq_nil_or_concat' segments with rfl | ⟨front, last, rfl⟩
    · simp at hx
    · simp_all

/-- The local name is the only part of a spec that its segments do not give. -/
theorem localName_of_ofSegments? {segments : List String} {s : ImportSpec}
    (h : ofSegments? segments = some s) : s.localName = none := by
  simp only [ofSegments?] at h
  split_ifs at h <;> simp_all [← Option.some.inj h]

/-- A chain of segments is split into the parts of a canonical spec. -/
theorem canonical_of_ofSegments? {segments : List String} {s : ImportSpec}
    (hseg : ∀ x ∈ segments, IsSegment x) (hwild : "*" ∉ segments.dropLast)
    (h : ofSegments? segments = some s) : s.Canonical := by
  simp only [ofSegments?] at h
  have hnames := fun x hx => isName_of_mem_names hseg hwild (x := x) hx
  revert h hnames
  generalize (if segments.getLast? == some "*" then segments.dropLast else segments) = names
  intro h hnames
  have hlower : ∀ x ∈ names.takeWhile startsLowercase, IsSegment x ∧ startsLowercase x = true :=
    fun x hx => ⟨(hnames x (List.takeWhile_subset _ hx)).toIsSegment, List.mem_takeWhile_imp hx⟩
  have hupper : ∀ x ∈ names.dropWhile startsLowercase, IsName x :=
    fun x hx => hnames x (List.dropWhile_subset _ hx)
  have hfirst : ∀ x ∈ (names.dropWhile startsLowercase).head?, startsLowercase x = false := by
    have := List.head?_dropWhile_not startsLowercase names
    grind
  generalize names.takeWhile startsLowercase = lower at *
  generalize names.dropWhile startsLowercase = upper at *
  split_ifs at h with hempty hwildcard hmember htoplevel
  · -- A wildcard: all that follows the package are owners.
    obtain rfl := Option.some.inj h
    exact ⟨⟨lower, by simpa using hempty, hlower, rfl⟩, hupper, hfirst, by simp, by simp⟩
  · -- The last segment after the package is the element.
    obtain rfl := Option.some.inj h
    refine ⟨⟨lower, by simpa using hempty, hlower, rfl⟩, ?_, ?_, ?_, by simp⟩
    · exact fun o ho => hupper o (List.dropLast_subset upper ho)
    · intro o ho
      rw [List.head?_dropLast] at ho
      split at ho
      · exact hfirst o ho
      · simp at ho
    · exact fun e he => hupper e (List.mem_of_getLast? he)
  · -- All segments start in lowercase: the last one is the element and the others the package.
    obtain rfl := Option.some.inj h
    refine ⟨⟨lower.dropLast, by simpa using htoplevel, ?_, rfl⟩, by simp, by simp, ?_, by simp⟩
    · exact fun x hx => hlower x (List.dropLast_subset lower hx)
    · intro e he
      have hmem := hlower e (List.mem_of_getLast? he)
      exact hmem.1.isName_of_startsLowercase hmem.2

/-- The segments of a solid text cut at its dots are solid and have no dot. -/
theorem isSegment_of_mem_split {name : List Char} (hsolid : Text.Solid name) {x : String}
    (hx : x ∈ (name.splitOn '.').map String.ofList) (hne : x ≠ "") : IsSegment x := by
  obtain ⟨piece, hpiece, rfl⟩ := List.mem_map.mp hx
  have hchars := Text.of_mem_splitOnP hpiece
  refine ⟨hne, ?_, ?_⟩
  · intro c hc
    exact hsolid c (hchars c (by simpa using hc)).1
  · intro hdot
    have := (hchars '.' (by simpa using hdot)).2
    simp at this

/-- A qualified name that is read gives a canonical spec without a local name. -/
theorem canonical_of_readName {text : String} {name : List Char} {s : ImportSpec}
    (hsolid : Text.Solid name) (h : readName text name = .ok s) :
    s.Canonical ∧ s.localName = none := by
  simp only [readName] at h
  generalize hsegs : (name.splitOn '.').map String.ofList = segments at h
  split at h
  · cases h
  rename_i hfault
  split at h
  · cases h
  rename_i spec hspec
  obtain rfl := Except.ok.inj h
  have hne : "" ∉ segments ∧ "*" ∉ segments.dropLast := by
    simp only [segmentFault?] at hfault
    grind
  refine ⟨canonical_of_ofSegments? ?_ hne.2 hspec, localName_of_ofSegments? hspec⟩
  intro x hx
  refine isSegment_of_mem_split hsolid (hsegs ▸ hx) ?_
  rintro rfl
  exact hne.1 hx

/-- The local name that is read is one word. -/
theorem solid_of_readLocalName {rest : List Char} {name : String}
    (h : readLocalName rest = .ok name) : name ≠ "" ∧ Text.Solid name.toList := by
  simp only [readLocalName] at h
  split at h
  · split_ifs at h with hblank hword
    obtain rfl := Except.ok.inj h
    simp only [Bool.or_eq_true, not_or, List.isEmpty_iff, Bool.not_eq_true, List.any_eq_false] at hword
    refine ⟨by simpa using hword.1, ?_⟩
    intro c hc
    simpa using hword.2 c (by simpa using hc)
  · cases h

/-- **What is read is canonical.** -/
theorem canonical_of_parse {source : String} {s : ImportSpec} (h : parse source = .ok s) :
    s.Canonical := by
  simp only [parse] at h
  generalize Text.trim source.toList = trimmed at h
  have hsolid := Text.solid_takeWhile trimmed
  split_ifs at h with hempty
  split at h
  · exact (canonical_of_readName hsolid h).1
  · split at h
    · cases h
    · cases h
    · rename_i hlocal
      split at h
      · cases h
      · rename_i spec hname
        obtain rfl := Except.ok.inj h
        have hspec := (canonical_of_readName hsolid hname).1
        have hword := solid_of_readLocalName hlocal
        exact { hspec with localName := by simpa using hword }

/-- A text without blanks has no room for a local name. -/
theorem localName_of_parse_solid {word : List Char} {s : ImportSpec} (hsolid : Text.Solid word)
    (h : parse (String.ofList word) = .ok s) : s.localName = none := by
  simp only [parse, String.toList_ofList, hsolid.trim_eq, hsolid.takeWhile_eq,
    hsolid.dropWhile_eq] at h
  split_ifs at h with hempty
  exact (canonical_of_readName hsolid h).2

/-! ## What is written is read back -/

/-- The qualified name cut at all its dots, the package included. -/
theorem qualifiedName_eq_intercalate {s : ImportSpec} {segments : List String}
    (hne : segments ≠ []) (hpackage : s.package = ".".intercalate segments) :
    s.qualifiedName = ".".intercalate (segments ++ (s.owners ++ [s.element.getD "*"])) := by
  rw [String.intercalate_append_of_ne_nil hne (by simp), ← hpackage, qualifiedName,
    ImportSpec.segments, List.cons_append, String.intercalate_cons_of_ne_nil (by simp)]

/-- Every segment of a canonical spec's qualified name is one of the grammar. -/
theorem Canonical.isSegment_of_mem {s : ImportSpec} (h : s.Canonical) {segments : List String}
    (hseg : ∀ x ∈ segments, IsSegment x ∧ startsLowercase x = true) :
    ∀ x ∈ segments ++ (s.owners ++ [s.element.getD "*"]), IsSegment x := by
  intro x hx
  simp only [List.mem_append, List.mem_singleton] at hx
  rcases hx with hx | hx | rfl
  · exact (hseg x hx).1
  · exact (h.owners x hx).toIsSegment
  · cases helement : s.element with
    | none => exact isSegment_wildcard
    | some e => exact (h.element e (by simp [helement])).toIsSegment

/-- Cutting dotted segments at the dots gives the segments. -/
theorem split_intercalate {segments : List String} (hne : segments ≠ [])
    (hseg : ∀ x ∈ segments, IsSegment x) :
    ((".".intercalate segments).toList.splitOn '.').map String.ofList = segments := by
  rw [String.toList_intercalate, show ".".toList = ['.'] from rfl, List.splitOn_intercalate]
  · simp
  · intro l hl
    obtain ⟨x, hx, rfl⟩ := List.mem_map.mp hl
    exact (hseg x hx).no_dot
  · simpa using hne

/-- The package of a chain of segments ends where the lowercase starts end. -/
theorem takeWhile_dropWhile_append {segments : List String} (rest : List String)
    (hseg : ∀ x ∈ segments, startsLowercase x = true)
    (hrest : ∀ x ∈ rest.head?, startsLowercase x = false) :
    (segments ++ rest).takeWhile startsLowercase = segments ∧
      (segments ++ rest).dropWhile startsLowercase = rest := by
  rw [List.takeWhile_append_of_pos hseg, List.dropWhile_append_of_pos hseg]
  cases rest with
  | nil => simp
  | cons x rest => simp [hrest x (by simp)]

/-- The segments of a canonical spec are split into its parts again. -/
theorem Canonical.ofSegments?_eq {s : ImportSpec} (h : s.Canonical) {segments : List String}
    (hne : segments ≠ []) (hseg : ∀ x ∈ segments, IsSegment x ∧ startsLowercase x = true)
    (hpackage : s.package = ".".intercalate segments) :
    ofSegments? (segments ++ (s.owners ++ [s.element.getD "*"])) = some s.withoutLocalName := by
  obtain ⟨package, owners, element, localName⟩ := s
  subst hpackage
  simp only [withoutLocalName, ofSegments?]
  have hstarts : ∀ x ∈ segments, startsLowercase x = true := fun x hx => (hseg x hx).2
  cases element with
  | none =>
    obtain ⟨hlower, hupper⟩ := takeWhile_dropWhile_append owners hstarts h.firstOwner
    rw [← List.append_assoc]
    simp [hlower, hupper, hne]
  | some e =>
    have hlast : ((segments ++ (owners ++ [e])).getLast? == some "*") = false := by
      rw [← List.append_assoc]
      simpa using (h.element e rfl).ne_wildcard
    simp only [Option.getD_some, hlast, Bool.false_eq_true, if_false]
    cases owners with
    | cons o owners =>
      obtain ⟨hlower, hupper⟩ := takeWhile_dropWhile_append (o :: owners ++ [e]) hstarts
        (by simpa using h.firstOwner)
      rw [hlower, hupper, List.dropLast_concat, List.getLast?_concat]
      simp [hne]
    | nil =>
      -- Without owners the element may start in lowercase and then looks like package.
      by_cases hlower : startsLowercase e = true
      · have hall : ∀ x ∈ segments ++ [e], startsLowercase x = true := by
          intro x hx
          rcases List.mem_append.mp hx with hx | hx
          · exact hstarts x hx
          · obtain rfl := List.mem_singleton.mp hx
            exact hlower
        obtain ⟨hall, hnone⟩ := takeWhile_dropWhile_append [] hall (by simp)
        rw [List.append_nil] at hall hnone
        simp [hall, hnone, hne]
      · obtain ⟨hlower, hupper⟩ := takeWhile_dropWhile_append [e] hstarts
          (by simpa using hlower)
        simp [hlower, hupper, hne]

/-- The qualified name of a canonical spec is read as the spec without its local name. -/
theorem Canonical.readName_qualifiedName {s : ImportSpec} (h : s.Canonical) (text : String) :
    readName text s.qualifiedName.toList = .ok s.withoutLocalName := by
  obtain ⟨segments, hne, hseg, hpackage⟩ := h.package
  have hall := h.isSegment_of_mem hseg
  have hsplit := split_intercalate (by simp) hall
  have hfault : segmentFault? text (segments ++ (s.owners ++ [s.element.getD "*"])) = none := by
    have hempty : "" ∉ segments ++ (s.owners ++ [s.element.getD "*"]) :=
      fun hmem => (hall "" hmem).ne_empty rfl
    have hwild : "*" ∉ segments ++ s.owners := by
      intro hmem
      rcases List.mem_append.mp hmem with hmem | hmem
      · exact ((hseg _ hmem).1.isName_of_startsLowercase (hseg _ hmem).2).ne_wildcard rfl
      · exact (h.owners _ hmem).ne_wildcard rfl
    rw [segmentFault?, if_neg (by simpa using hempty), ← List.append_assoc,
      List.dropLast_concat, if_neg (by simpa using hwild)]
  rw [readName, qualifiedName_eq_intercalate hne hpackage]
  simp only [hsplit, hfault, h.ofSegments?_eq hne hseg hpackage]

/-- Dotted segments have no blanks. -/
theorem solid_intercalate {segments : List String} (hseg : ∀ x ∈ segments, IsSegment x) :
    Text.Solid (".".intercalate segments).toList := by
  induction segments with
  | nil => simp
  | cons x rest ih =>
    have hx : Text.Solid x.toList := (hseg x List.mem_cons_self).solid
    have hdot : Text.Solid ".".toList := by decide
    cases rest with
    | nil => simpa using hx
    | cons y rest =>
      rw [String.intercalate_cons_cons, String.toList_append, String.toList_append,
        Text.solid_append, Text.solid_append]
      exact ⟨⟨hx, hdot⟩, ih fun z hz => hseg z (List.mem_cons_of_mem x hz)⟩

/-- The qualified name of a canonical spec has no blanks. -/
theorem Canonical.solid_qualifiedName {s : ImportSpec} (h : s.Canonical) :
    Text.Solid s.qualifiedName.toList := by
  obtain ⟨segments, hne, hseg, hpackage⟩ := h.package
  rw [qualifiedName_eq_intercalate hne hpackage]
  exact solid_intercalate (h.isSegment_of_mem hseg)

/-- A qualified name is not empty: it has at least one dot. -/
theorem qualifiedName_ne_nil (s : ImportSpec) : s.qualifiedName.toList ≠ [] := by
  rw [qualifiedName, ImportSpec.segments, List.cons_append,
    String.intercalate_cons_of_ne_nil (by simp)]
  simp

/-- A local name written after `as` is read back. -/
theorem readLocalName_as {name : String} (hne : name ≠ "") (hsolid : Text.Solid name.toList) :
    readLocalName ("as ".toList ++ name.toList) = .ok name := by
  have hne' : name.toList ≠ [] := by simpa using hne
  have hlast : ("as ".toList ++ name.toList).getLast? = name.toList.getLast? :=
    List.getLast?_append_of_ne_nil _ hne'
  have htrim : Text.trim ("as ".toList ++ name.toList) = 'a' :: 's' :: ' ' :: name.toList := by
    refine Text.trim_eq_self ?_ ?_
    · simp [show Text.isBlank 'a' = false by decide]
    · intro c hc
      rw [hlast] at hc
      exact hsolid c (List.mem_of_mem_getLast? hc)
  have hname : Text.trim (' ' :: name.toList) = name.toList := by
    have hstart : Text.trimStart (' ' :: name.toList) = Text.trimStart name.toList :=
      List.dropWhile_cons_of_pos (by decide)
    rw [Text.trim, hstart, ← Text.trim, hsolid.trim_eq]
  have hword : name.toList.any Text.isBlank = false := by
    simpa [Text.Solid] using hsolid
  rw [readLocalName, htrim]
  simp [show Text.isBlank ' ' = true by decide, hname, hne', hword]

/-- The text of a spec without a local name is its qualified name. -/
theorem text_of_localName_eq_none {s : ImportSpec} (h : s.localName = none) :
    s.text = s.qualifiedName := by
  simp [text, h]

/-- A spec without a local name is its own lookup form. -/
theorem withoutLocalName_eq_self {s : ImportSpec} (h : s.localName = none) :
    s.withoutLocalName = s := by
  rw [withoutLocalName, ← h]

/-- The text of a spec with a local name, as characters. -/
theorem text_toList_of_localName {s : ImportSpec} {name : String} (h : s.localName = some name) :
    s.text.toList = s.qualifiedName.toList ++ ' ' :: ("as ".toList ++ name.toList) := by
  simp [text, h]

/-- The text of a spec is not empty. -/
theorem text_ne_nil (s : ImportSpec) : s.text.toList ≠ [] := by
  have hne := s.qualifiedName_ne_nil
  cases hlocal : s.localName with
  | none => rwa [text_of_localName_eq_none hlocal]
  | some name => simp [text_toList_of_localName hlocal]

/-- The only blanks in the text of a canonical spec are the spaces around `as`. -/
theorem Canonical.blank_of_mem_text {s : ImportSpec} (h : s.Canonical) {c : Char}
    (hc : c ∈ s.text.toList) : c = ' ' ∨ Text.isBlank c = false := by
  have hsolid := h.solid_qualifiedName
  cases hlocal : s.localName with
  | none =>
    rw [text_of_localName_eq_none hlocal] at hc
    exact Or.inr (hsolid c hc)
  | some name =>
    rw [text_toList_of_localName hlocal] at hc
    simp only [List.mem_append, List.mem_cons] at hc
    rcases hc with hc | rfl | hc | hc
    · exact Or.inr (hsolid c hc)
    · exact Or.inl rfl
    · have has : "as ".toList.all (fun c => c == ' ' || !Text.isBlank c) = true := by decide
      simpa using List.all_eq_true.mp has c hc
    · exact Or.inr ((h.localName name hlocal).2 c hc)

/-- The text of a canonical spec starts and ends with characters that are not blank. -/
theorem Canonical.text_ends {s : ImportSpec} (h : s.Canonical) :
    (∀ c ∈ s.text.toList.head?, Text.isBlank c = false) ∧
      ∀ c ∈ s.text.toList.getLast?, Text.isBlank c = false := by
  have hsolid := h.solid_qualifiedName
  have hne := s.qualifiedName_ne_nil
  cases hlocal : s.localName with
  | none =>
    rw [text_of_localName_eq_none hlocal]
    exact ⟨fun c hc => hsolid c (List.mem_of_mem_head? hc),
      fun c hc => hsolid c (List.mem_of_mem_getLast? hc)⟩
  | some name =>
    obtain ⟨hname, hword⟩ := h.localName name hlocal
    rw [text_toList_of_localName hlocal]
    refine ⟨fun c hc => ?_, fun c hc => ?_⟩
    · rw [List.head?_append_of_ne_nil _ hne] at hc
      exact hsolid c (List.mem_of_mem_head? hc)
    · rw [← List.cons_append, ← List.append_assoc,
        List.getLast?_append_of_ne_nil _ (by simpa using hname)] at hc
      exact hword c (List.mem_of_mem_getLast? hc)

/-- **What is written is read back.** -/
theorem parse_text {s : ImportSpec} (h : s.Canonical) : parse s.text = .ok s := by
  have htrim : Text.trim s.text.toList = s.text.toList :=
    Text.trim_eq_self h.text_ends.1 h.text_ends.2
  have hsolid := h.solid_qualifiedName
  have hne := s.qualifiedName_ne_nil
  cases hlocal : s.localName with
  | none =>
    rw [parse, htrim, text_of_localName_eq_none hlocal]
    simp only [List.isEmpty_iff, hne, if_false, hsolid.takeWhile_eq, hsolid.dropWhile_eq,
      h.readName_qualifiedName, withoutLocalName_eq_self hlocal]
  | some name =>
    obtain ⟨hlocalNe, hword⟩ := h.localName name hlocal
    have hblank : Text.isBlank ' ' = true := by decide
    have hname : s.text.toList.takeWhile (!Text.isBlank ·) = s.qualifiedName.toList := by
      rw [text_toList_of_localName hlocal, hsolid.takeWhile_append]
      simp [hblank]
    have hrest : s.text.toList.dropWhile (!Text.isBlank ·) =
        ' ' :: ("as ".toList ++ name.toList) := by
      rw [text_toList_of_localName hlocal, hsolid.dropWhile_append]
      simp [hblank]
    have htextNe := s.text_ne_nil
    have hself : { s.withoutLocalName with localName := some name } = s := by
      simp only [withoutLocalName, ← hlocal]
    rw [parse, htrim]
    simp only [List.isEmpty_iff, htextNe, if_false, hname, hrest, readLocalName_as hlocalNe hword,
      h.readName_qualifiedName, hself]

/-- **Reading and writing are inverse exactly on the canonical specs**, and nothing else is read. -/
theorem parse_text_eq_ok_iff_canonical (s : ImportSpec) :
    (∀ source, parse source = .ok s → s.Canonical) ∧ (parse s.text = .ok s ↔ s.Canonical) := by
  refine ⟨fun source h => canonical_of_parse h, fun h => ?_, fun h => ?_⟩
  · exact canonical_of_parse h
  · exact parse_text h

/-- The two directions at a member of a nested type, read from a text with blanks of several kinds.
-/
theorem parse_text_eq_ok_iff_canonical_member :
    parse "\tcom.test.Outer.Inner.value \u00a0 as  v " =
        .ok ⟨"com.test", ["Outer", "Inner"], some "value", some "v"⟩ ∧
      Canonical ⟨"com.test", ["Outer", "Inner"], some "value", some "v"⟩ ∧
      parse (text ⟨"com.test", ["Outer", "Inner"], some "value", some "v"⟩) =
        .ok ⟨"com.test", ["Outer", "Inner"], some "value", some "v"⟩ := by
  have hread : parse "\tcom.test.Outer.Inner.value \u00a0 as  v " =
      .ok ⟨"com.test", ["Outer", "Inner"], some "value", some "v"⟩ := by
    decide +kernel
  have hcanonical := (parse_text_eq_ok_iff_canonical _).1 _ hread
  exact ⟨hread, hcanonical, (parse_text_eq_ok_iff_canonical _).2.mpr hcanonical⟩

/-- Canonical specs with one text are the same. -/
theorem Canonical.eq_of_text {s t : ImportSpec} (hs : s.Canonical) (ht : t.Canonical)
    (h : s.text = t.text) : s = t := by
  have hread := parse_text hs
  rw [h, parse_text ht] at hread
  exact (Except.ok.inj hread).symm

/-- A canonical spec is determined by its qualified name and its local name. -/
theorem Canonical.eq_of_qualifiedName {s t : ImportSpec} (hs : s.Canonical) (ht : t.Canonical)
    (hname : s.qualifiedName = t.qualifiedName) (hlocal : s.localName = t.localName) : s = t :=
  hs.eq_of_text ht (by simp only [text, hname, hlocal])

/-! ## Operations that stay in the grammar -/

/-- The enclosing wildcard of a canonical spec is canonical. -/
theorem Canonical.widened {s : ImportSpec} (h : s.Canonical) : s.widened.Canonical :=
  ⟨h.package, h.owners, h.firstOwner, by simp [ImportSpec.widened], by simp [ImportSpec.widened]⟩

/-- The lookup form of a canonical spec is canonical. -/
theorem Canonical.withoutLocalName {s : ImportSpec} (h : s.Canonical) :
    s.withoutLocalName.Canonical :=
  ⟨h.package, h.owners, h.firstOwner, h.element, by simp [ImportSpec.withoutLocalName]⟩

end ImportSpec

end ImportMigration
