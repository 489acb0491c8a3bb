import ImportMigration.Directive.Json
import ImportMigration.Proofs.SpecGrammar
import ImportMigration.Proofs.TimestampText
import ImportMigration.Report

/-! # JSON forms

What is written as JSON is read back as it was, and what is read is written again in a settled form:
the fields of each record in their order and nothing else, optional fields only where they hold
something, and lists also where they were missing.

* `JsonValue.FieldForm`, `JsonValue.recordForm?`, `JsonValue.listForm?`: how values are written
  again.
* `JsonValue.Agrees`: that writing and reading agree with each other and with such a form.
* `JsonValue.Agrees.form?_form?`: a value that was written again stays as it is.
* `Report.WellFormed`: reports of moments and counts.
* `json_forms_agree`: specs, directives and reports. -/

namespace ImportMigration

namespace JsonValue

/-! ## Written again -/

/-- How a field of a record may be missing. -/
inductive Presence where
  /-- The field must be there. -/
  | required
  /-- The field may be missing or null, and is left out then. -/
  | optional
  /-- The field may be missing, and is an empty list then. -/
  | listed

/-- A field of a record. -/
structure FieldForm where
  /-- The name of the field. -/
  name : String
  /-- How it may be missing. -/
  presence : Presence
  /-- How its value is written again. -/
  form? : JsonValue → Option JsonValue

/-- The members that a field is written as. -/
def FieldForm.members? (f : FieldForm) (value : Option JsonValue) :
    Option (List (String × JsonValue)) :=
  match f.presence, value with
  | .required, none => none
  | .optional, none => some []
  | .optional, some .null => some []
  | .listed, none => some [(f.name, .arr [])]
  | _, some value => (f.form? value).map fun value => [(f.name, value)]

/-- A record written again: its fields in order, and no others. -/
def recordForm? (fields : List FieldForm) (v : JsonValue) : Option JsonValue :=
  (v.record? (fields.map (·.name))).bind fun field =>
    (fields.mapM fun f : FieldForm => f.members? (field f.name)).map fun members =>
      .obj members.flatten

/-- A list written again, item by item. -/
def listForm? (form? : JsonValue → Option JsonValue) (v : JsonValue) : Option JsonValue :=
  v.arr?.bind fun items => (items.mapM form?).map .arr

/-- Whether the values of a type that are valid are written and read as the same, all that is read
is valid, and what is read is written again as a form says. -/
structure Agrees {α : Type} (valid : α → Prop) (toJson : α → JsonValue)
    (ofJson? : JsonValue → Option α) (form? : JsonValue → Option JsonValue) : Prop where
  /-- What is written is read as it was. -/
  ofJson?_toJson : ∀ x, valid x → ofJson? (toJson x) = some x
  /-- What is read is valid. -/
  valid_of_ofJson? : ∀ v x, ofJson? v = some x → valid x
  /-- What is read is written in the form. -/
  map_toJson : ∀ v, (ofJson? v).map toJson = form? v

namespace Agrees

variable {α : Type} {valid : α → Prop} {toJson : α → JsonValue} {ofJson? : JsonValue → Option α}
  {form? : JsonValue → Option JsonValue} (h : Agrees valid toJson ofJson? form?)

include h

/-- What was read is read again from what it is written as. -/
theorem read_again {v : JsonValue} {x : α} (hread : ofJson? v = some x) :
    ofJson? (toJson x) = some x :=
  h.ofJson?_toJson x (h.valid_of_ofJson? v x hread)

/-- **What was written again stays as it is.** -/
theorem form?_form? {v w : JsonValue} (hform : form? v = some w) : form? w = some w := by
  rw [← h.map_toJson] at hform
  obtain ⟨x, hx, rfl⟩ := Option.map_eq_some_iff.mp hform
  rw [← h.map_toJson, h.read_again hx, Option.map_some]

/-! ### Lists -/

/-- Valid items are read from what they are written as. -/
theorem mapM_map_toJson {xs : List α} (hxs : ∀ x ∈ xs, valid x) :
    (xs.map toJson).mapM ofJson? = some xs := by
  induction xs with
  | nil => rfl
  | cons x rest ih =>
    obtain ⟨hx, hrest⟩ := List.forall_mem_cons.mp hxs
    rw [List.map_cons, List.mapM_cons, h.ofJson?_toJson x hx, ih hrest]
    rfl

/-- Items that are read are valid. -/
theorem valid_of_mapM {items : List JsonValue} {xs : List α}
    (hread : items.mapM ofJson? = some xs) : ∀ x ∈ xs, valid x := by
  induction items generalizing xs with
  | nil =>
    obtain rfl := Option.some.inj hread
    simp
  | cons item rest ih =>
    simp only [List.mapM_cons, Option.bind_eq_bind, Option.bind_eq_some_iff] at hread
    obtain ⟨x, hx, others, hothers, hpure⟩ := hread
    obtain rfl := Option.some.inj hpure
    exact List.forall_mem_cons.mpr ⟨h.valid_of_ofJson? item x hx, ih hothers⟩

/-- Items that are read are written again one by one. -/
theorem map_mapM (items : List JsonValue) :
    (items.mapM ofJson?).map (List.map toJson) = items.mapM form? := by
  induction items with
  | nil => rfl
  | cons item rest ih =>
    rw [List.mapM_cons, List.mapM_cons, ← ih, ← h.map_toJson]
    cases ofJson? item <;> cases rest.mapM ofJson? <;> rfl

/-! ### Fields -/

/-- A field that must be there. -/
theorem members?_required (name : String) (value : Option JsonValue) :
    FieldForm.members? ⟨name, .required, form?⟩ value =
      (value.bind ofJson?).map fun x => [(name, toJson x)] := by
  cases value with
  | none => rfl
  | some v =>
    simp only [FieldForm.members?, ← h.map_toJson, Option.map_map]
    rfl

/-- A field that may be missing or null. -/
theorem members?_optional (name : String) (value : Option JsonValue) :
    FieldForm.members? ⟨name, .optional, form?⟩ value =
      (optional? ofJson? value).map fun x => member? name (x.map toJson) := by
  cases value with
  | none => rfl
  | some v =>
    cases v with
    | null => rfl
    | _ =>
      simp only [FieldForm.members?, optional?, ← h.map_toJson, Option.map_map]
      rfl

/-- A list that may be missing. -/
theorem members?_listed (name : String) (value : Option JsonValue) :
    FieldForm.members? ⟨name, .listed, listForm? form?⟩ value =
      (listOrEmpty? ofJson? value).map fun xs => [(name, .arr (xs.map toJson))] := by
  cases value with
  | none => rfl
  | some v =>
    simp only [FieldForm.members?, listOrEmpty?, listForm?]
    cases v.arr? with
    | none => rfl
    | some items =>
      simp only [Option.bind_some, ← h.map_mapM, Option.map_map]
      rfl

/-- A valid value that is written as an optional field is read from there. -/
theorem optional?_map_toJson {x : Option α} (hx : ∀ y ∈ x, valid y)
    (hnull : ∀ y, toJson y ≠ .null) : optional? ofJson? (x.map toJson) = some x := by
  cases x with
  | none => rfl
  | some y =>
    have hread := h.ofJson?_toJson y (hx y rfl)
    rw [Option.map_some, optional?, hread]
    · rfl
    · exact hnull y

/-- What is read from an optional field is valid. -/
theorem valid_of_optional? {value : Option JsonValue} {x : Option α}
    (hread : optional? ofJson? value = some x) : ∀ y ∈ x, valid y := by
  unfold optional? at hread
  split at hread
  · obtain rfl := Option.some.inj hread
    simp
  · obtain rfl := Option.some.inj hread
    simp
  · obtain ⟨y, hy, rfl⟩ := Option.map_eq_some_iff.mp hread
    simpa using h.valid_of_ofJson? _ y hy

/-- What is read from a list that may be missing is valid. -/
theorem valid_of_listOrEmpty? {value : Option JsonValue} {xs : List α}
    (hread : listOrEmpty? ofJson? value = some xs) : ∀ x ∈ xs, valid x := by
  unfold listOrEmpty? at hread
  split at hread
  · obtain rfl := Option.some.inj hread
    simp
  · obtain ⟨items, -, hitems⟩ := Option.bind_eq_some_iff.mp hread
    exact h.valid_of_mapM hitems

end Agrees

/-! ## Texts and numbers -/

/-- The form of a text. -/
def textForm? (v : JsonValue) : Option JsonValue := v.str?.map .str

/-- The form of a truth value. -/
def boolForm? (v : JsonValue) : Option JsonValue := v.bool?.map .bool

/-- The form of a count. -/
def countForm? (v : JsonValue) : Option JsonValue := v.count?.map count

/-- Texts agree with their JSON form. -/
theorem agrees_str : Agrees (fun _ => True) .str str? textForm? where
  ofJson?_toJson _ _ := rfl
  valid_of_ofJson? _ _ _ := trivial
  map_toJson _ := rfl

/-- Truth values agree with their JSON form. -/
theorem agrees_bool : Agrees (fun _ => True) .bool bool? boolForm? where
  ofJson?_toJson _ _ := rfl
  valid_of_ofJson? _ _ _ := trivial
  map_toJson _ := rfl

/-- Counts agree with their JSON form. -/
theorem agrees_count : Agrees (· < countBound) count count? countForm? where
  ofJson?_toJson n hn := by
    rw [count]
    show (if n < countBound then some n else none) = some n
    rw [if_pos hn]
  valid_of_ofJson? v n hread := by
    unfold count? at hread
    split at hread
    · split_ifs at hread with hn
      exact Option.some.inj hread ▸ hn
    · cases hread
  map_toJson _ := rfl

/-- An optional member is looked up as what it holds. -/
@[simp] theorem lookup_member? (name : String) (value : Option JsonValue) :
    (member? name value).lookup name = value := by
  cases value <;> simp [member?]

end JsonValue

/-! ## Specs and directives -/

/-- **Specs agree with their JSON form.** -/
theorem ImportSpec.agrees :
    JsonValue.Agrees Canonical toJson ofJson? fun v => (ofJson? v).map toJson where
  ofJson?_toJson s hs := by
    rw [toJson, ofJson?, JsonValue.str?, Option.bind_some, parse_text hs]
    rfl
  valid_of_ofJson? v s hread := by
    obtain ⟨text, -, hparse⟩ := Option.bind_eq_some_iff.mp hread
    cases hspec : parse text with
    | ok s' =>
      rw [hspec] at hparse
      obtain rfl := Option.some.inj hparse
      exact canonical_of_parse hspec
    | error e =>
      rw [hspec] at hparse
      cases hparse
  map_toJson _ := rfl

/-- Kinds agree with their JSON form. -/
theorem DirectiveKind.agrees :
    JsonValue.Agrees (fun _ => True) toJson ofJson? fun v => (ofJson? v).map toJson where
  ofJson?_toJson k _ := by cases k <;> rfl
  valid_of_ofJson? _ _ _ := trivial
  map_toJson _ := rfl

open JsonValue

/-- The form of a directive. -/
def Directive.form? : JsonValue → Option JsonValue :=
  recordForm? [⟨"from", .required, fun v => (ImportSpec.ofJson? v).map ImportSpec.toJson⟩,
    ⟨"to", .required, fun v => (ImportSpec.ofJson? v).map ImportSpec.toJson⟩,
    ⟨"kind", .required, fun v => (DirectiveKind.ofJson? v).map DirectiveKind.toJson⟩]

/-- **Directives agree with their JSON form**, those with local names included. -/
theorem Directive.agrees :
    Agrees (fun d : Directive => d.source.Canonical ∧ d.target.Canonical) toJson ofJson?
      form? where
  ofJson?_toJson d hd := by
    simp [toJson, members, ofJson?, record?, List.lookup_cons,
      ImportSpec.agrees.ofJson?_toJson _ hd.1, ImportSpec.agrees.ofJson?_toJson _ hd.2,
      DirectiveKind.agrees.ofJson?_toJson _ trivial]
  valid_of_ofJson? v d hread := by
    simp only [ofJson?, Option.bind_eq_bind, Option.bind_eq_some_iff] at hread
    obtain ⟨field, -, source, ⟨_, -, hsource⟩, target, ⟨_, -, htarget⟩, kind, -, hpure⟩ := hread
    obtain rfl := Option.some.inj hpure
    exact ⟨ImportSpec.agrees.valid_of_ofJson? _ _ hsource,
      ImportSpec.agrees.valid_of_ofJson? _ _ htarget⟩
  map_toJson v := by
    simp only [form?, recordForm?, ofJson?, List.map_cons, List.map_nil, List.mapM_cons,
      List.mapM_nil, ImportSpec.agrees.members?_required, DirectiveKind.agrees.members?_required,
      Option.bind_eq_bind]
    cases v.record? ["from", "to", "kind"] with
    | none => rfl
    | some field =>
      simp only [Option.bind_some]
      generalize (field "from").bind ImportSpec.ofJson? = source
      generalize (field "to").bind ImportSpec.ofJson? = target
      generalize (field "kind").bind DirectiveKind.ofJson? = kind
      cases source <;> cases target <;> cases kind <;> rfl

/-! ## The parts of a report -/

/-- The form of a tool. -/
def ToolInfo.form? : JsonValue → Option JsonValue :=
  recordForm? [⟨"name", .required, textForm?⟩, ⟨"version", .optional, textForm?⟩]

/-- Tools agree with their JSON form. -/
theorem ToolInfo.agrees : Agrees (fun _ => True) toJson ofJson? form? where
  ofJson?_toJson t _ := by
    have hversion := agrees_str.optional?_map_toJson (x := t.version) (by simp) (by simp)
    simp [toJson, ofJson?, record?, List.lookup_cons, hversion, agrees_str.ofJson?_toJson _ trivial]
  valid_of_ofJson? _ _ _ := trivial
  map_toJson v := by
    simp only [form?, recordForm?, ofJson?, List.map_cons, List.map_nil, List.mapM_cons,
      List.mapM_nil, agrees_str.members?_required, agrees_str.members?_optional,
      Option.bind_eq_bind]
    cases v.record? ["name", "version"] with
    | none => rfl
    | some field =>
      simp only [Option.bind_some]
      generalize (field "name").bind str? = name
      generalize optional? str? (field "version") = version
      cases name <;> cases version <;> simp [toJson]

/-- Timestamps that are moments agree with their JSON form. -/
theorem Timestamp.agrees :
    Agrees IsMoment toJson ofJson? fun v => (ofJson? v).map toJson where
  ofJson?_toJson t ht := by
    rw [toJson, ofJson?, str?, Option.bind_some, parse?_text ht]
  valid_of_ofJson? v t hread := by
    obtain ⟨text, -, hparse⟩ := Option.bind_eq_some_iff.mp hread
    exact isMoment_of_parse? hparse
  map_toJson _ := rfl

/-- The form of the times of a run. -/
def RunInfo.form? : JsonValue → Option JsonValue :=
  recordForm? [⟨"started_at", .required, fun v => (Timestamp.ofJson? v).map Timestamp.toJson⟩,
    ⟨"ended_at", .optional, fun v => (Timestamp.ofJson? v).map Timestamp.toJson⟩]

/-- Whether the times of a run are moments. -/
structure RunInfo.WellFormed (r : RunInfo) : Prop where
  /-- The start is a moment. -/
  startedAt : r.startedAt.IsMoment
  /-- The end is a moment if there is one. -/
  endedAt : ∀ t ∈ r.endedAt, t.IsMoment

/-- The times of a run agree with their JSON form. -/
theorem RunInfo.agrees : Agrees WellFormed toJson ofJson? form? where
  ofJson?_toJson r hr := by
    have hended := Timestamp.agrees.optional?_map_toJson hr.endedAt (by simp [Timestamp.toJson])
    simp [toJson, ofJson?, record?, List.lookup_cons, hended,
      Timestamp.agrees.ofJson?_toJson _ hr.startedAt]
  valid_of_ofJson? v r hread := by
    simp only [ofJson?, Option.bind_eq_bind, Option.bind_eq_some_iff] at hread
    obtain ⟨field, -, startedAt, ⟨_, -, hstarted⟩, endedAt, hended, hpure⟩ := hread
    obtain rfl := Option.some.inj hpure
    exact ⟨Timestamp.agrees.valid_of_ofJson? _ _ hstarted,
      Timestamp.agrees.valid_of_optional? hended⟩
  map_toJson v := by
    simp only [form?, recordForm?, ofJson?, List.map_cons, List.map_nil, List.mapM_cons,
      List.mapM_nil, Timestamp.agrees.members?_required, Timestamp.agrees.members?_optional,
      Option.bind_eq_bind]
    cases v.record? ["started_at", "ended_at"] with
    | none => rfl
    | some field =>
      simp only [Option.bind_some]
      generalize (field "started_at").bind Timestamp.ofJson? = startedAt
      generalize optional? Timestamp.ofJson? (field "ended_at") = endedAt
      cases startedAt <;> cases endedAt <;> simp [toJson]

/-- The form of a merged block. -/
def BlockSummary.form? : JsonValue → Option JsonValue :=
  recordForm? [⟨"origin", .required, textForm?⟩, ⟨"directives", .required, countForm?⟩]

/-- Merged blocks agree with their JSON form. -/
theorem BlockSummary.agrees :
    Agrees (fun b : BlockSummary => b.directives < countBound) toJson ofJson? form? where
  ofJson?_toJson b hb := by
    simp [toJson, ofJson?, record?, List.lookup_cons, agrees_str.ofJson?_toJson _ trivial,
      agrees_count.ofJson?_toJson _ hb]
  valid_of_ofJson? v b hread := by
    simp only [ofJson?, Option.bind_eq_bind, Option.bind_eq_some_iff] at hread
    obtain ⟨field, -, origin, -, directives, ⟨_, -, hcount⟩, hpure⟩ := hread
    obtain rfl := Option.some.inj hpure
    exact agrees_count.valid_of_ofJson? _ _ hcount
  map_toJson v := by
    simp only [form?, recordForm?, ofJson?, List.map_cons, List.map_nil, List.mapM_cons,
      List.mapM_nil, agrees_str.members?_required, agrees_count.members?_required,
      Option.bind_eq_bind]
    cases v.record? ["origin", "directives"] with
    | none => rfl
    | some field =>
      simp only [Option.bind_some]
      generalize (field "origin").bind str? = origin
      generalize (field "directives").bind count? = directives
      cases origin <;> cases directives <;> rfl

/-- Whether the counts of a run are counts. -/
structure RunSummary.WellFormed (s : RunSummary) : Prop where
  /-- The number of directives is one. -/
  directives : s.directives < countBound
  /-- The number of files that were read is one. -/
  filesScanned : s.filesScanned < countBound
  /-- The number of files whose imports change is one. -/
  filesChanged : s.filesChanged < countBound
  /-- The number of files that were written is one. -/
  filesWritten : s.filesWritten < countBound

/-- The form of the counts of a run. -/
def RunSummary.form? : JsonValue → Option JsonValue :=
  recordForm? [⟨"directives", .required, countForm?⟩, ⟨"files_scanned", .required, countForm?⟩,
    ⟨"files_changed", .required, countForm?⟩, ⟨"files_written", .required, countForm?⟩]

/-- The counts of a run agree with their JSON form. -/
theorem RunSummary.agrees : Agrees WellFormed toJson ofJson? form? where
  ofJson?_toJson s hs := by
    simp [toJson, ofJson?, record?, List.lookup_cons, agrees_count.ofJson?_toJson _ hs.directives,
      agrees_count.ofJson?_toJson _ hs.filesScanned, agrees_count.ofJson?_toJson _ hs.filesChanged,
      agrees_count.ofJson?_toJson _ hs.filesWritten]
  valid_of_ofJson? v s hread := by
    simp only [ofJson?, Option.bind_eq_bind, Option.bind_eq_some_iff] at hread
    obtain ⟨field, -, directives, ⟨_, -, hdirectives⟩, scanned, ⟨_, -, hscanned⟩,
      changed, ⟨_, -, hchanged⟩, written, ⟨_, -, hwritten⟩, hpure⟩ := hread
    obtain rfl := Option.some.inj hpure
    exact ⟨agrees_count.valid_of_ofJson? _ _ hdirectives,
      agrees_count.valid_of_ofJson? _ _ hscanned, agrees_count.valid_of_ofJson? _ _ hchanged,
      agrees_count.valid_of_ofJson? _ _ hwritten⟩
  map_toJson v := by
    simp only [form?, recordForm?, ofJson?, List.map_cons, List.map_nil, List.mapM_cons,
      List.mapM_nil, agrees_count.members?_required, Option.bind_eq_bind]
    cases v.record? ["directives", "files_scanned", "files_changed", "files_written"] with
    | none => rfl
    | some field =>
      simp only [Option.bind_some]
      generalize (field "directives").bind count? = directives
      generalize (field "files_scanned").bind count? = scanned
      generalize (field "files_changed").bind count? = changed
      generalize (field "files_written").bind count? = written
      cases directives <;> cases scanned <;> cases changed <;> cases written <;> rfl

/-- The form of a status. -/
def FileStatus.form? (v : JsonValue) : Option JsonValue :=
  (v.variant?.bind ofName?).map (.str ·.name)

/-- Statuses agree with their JSON form. -/
theorem FileStatus.agrees :
    Agrees (fun _ => True) (.str ·.name) (fun v => v.variant?.bind ofName?) form? where
  ofJson?_toJson s _ := by cases s <;> rfl
  valid_of_ofJson? _ _ _ := trivial
  map_toJson _ := rfl

/-- Whether the counts of a file's outcome are counts. -/
structure FileResult.WellFormed (f : FileResult) : Prop where
  /-- The number of imports before is one. -/
  importsBefore : f.importsBefore < countBound
  /-- The number of imports after is one. -/
  importsAfter : f.importsAfter < countBound

/-- The form of a file's outcome. -/
def FileResult.form? : JsonValue → Option JsonValue :=
  recordForm? [⟨"path", .required, textForm?⟩, ⟨"status", .required, FileStatus.form?⟩,
    ⟨"imports_before", .required, countForm?⟩, ⟨"imports_after", .required, countForm?⟩,
    ⟨"backup_path", .optional, textForm?⟩]

/-- The outcomes of files agree with their JSON form. -/
theorem FileResult.agrees : Agrees WellFormed toJson ofJson? form? where
  ofJson?_toJson f hf := by
    have hbackup := agrees_str.optional?_map_toJson (x := f.backupPath) (by simp) (by simp)
    have hstatus : FileStatus.ofName? f.status.name = some f.status :=
      FileStatus.agrees.ofJson?_toJson f.status trivial
    simp [toJson, ofJson?, record?, List.lookup_cons, variant?, hstatus, hbackup,
      agrees_str.ofJson?_toJson _ trivial, agrees_count.ofJson?_toJson _ hf.importsBefore,
      agrees_count.ofJson?_toJson _ hf.importsAfter]
  valid_of_ofJson? v f hread := by
    simp only [ofJson?, Option.bind_eq_bind, Option.bind_eq_some_iff] at hread
    obtain ⟨field, -, path, -, status, -, before, ⟨_, -, hbefore⟩, after, ⟨_, -, hafter⟩, backup, -,
      hpure⟩ := hread
    obtain rfl := Option.some.inj hpure
    exact ⟨agrees_count.valid_of_ofJson? _ _ hbefore, agrees_count.valid_of_ofJson? _ _ hafter⟩
  map_toJson v := by
    simp only [form?, recordForm?, ofJson?, List.map_cons, List.map_nil, List.mapM_cons,
      List.mapM_nil, agrees_str.members?_required, FileStatus.agrees.members?_required,
      agrees_count.members?_required, agrees_str.members?_optional, Option.bind_eq_bind,
      Option.bind_assoc (f := variant?)]
    cases v.record? ["path", "status", "imports_before", "imports_after", "backup_path"] with
    | none => rfl
    | some field =>
      simp only [Option.bind_some]
      generalize (field "path").bind str? = path
      generalize ((field "status").bind fun v => v.variant?.bind FileStatus.ofName?) = status
      generalize (field "imports_before").bind count? = before
      generalize (field "imports_after").bind count? = after
      generalize optional? str? (field "backup_path") = backup
      cases path <;> cases status <;> cases before <;> cases after <;> cases backup <;>
        simp [toJson]

/-! ## Reports -/

/-- Whether the times of a report are moments and its counts are counts. -/
structure Report.WellFormed (r : Report) : Prop where
  /-- The times of the run are moments. -/
  run : r.run.WellFormed
  /-- The numbers of directives of the blocks are counts. -/
  sources : ∀ b ∈ r.sources, b.directives < countBound
  /-- The counts of the run are counts. -/
  summary : r.summary.WellFormed
  /-- The counts of each file are counts. -/
  files : ∀ f ∈ r.files, f.WellFormed

/-- The form of a report. -/
def Report.form? : JsonValue → Option JsonValue :=
  recordForm? [⟨"schema", .required, textForm?⟩, ⟨"tool", .required, ToolInfo.form?⟩,
    ⟨"run", .required, RunInfo.form?⟩, ⟨"dry_run", .required, boolForm?⟩,
    ⟨"sources", .listed, listForm? BlockSummary.form?⟩, ⟨"summary", .required, RunSummary.form?⟩,
    ⟨"files", .listed, listForm? FileResult.form?⟩]

/-- **Reports agree with their JSON form.** -/
theorem Report.agrees : Agrees WellFormed toJson ofJson? form? where
  ofJson?_toJson r hr := by
    simp [toJson, ofJson?, record?, List.lookup_cons, listOrEmpty?, arr?,
      agrees_str.ofJson?_toJson _ trivial, agrees_bool.ofJson?_toJson _ trivial,
      ToolInfo.agrees.ofJson?_toJson _ trivial, RunInfo.agrees.ofJson?_toJson _ hr.run,
      RunSummary.agrees.ofJson?_toJson _ hr.summary, BlockSummary.agrees.mapM_map_toJson hr.sources,
      FileResult.agrees.mapM_map_toJson hr.files]
  valid_of_ofJson? v r hread := by
    simp only [ofJson?, Option.bind_eq_bind, Option.bind_eq_some_iff] at hread
    obtain ⟨field, -, schema, -, tool, -, run, ⟨_, -, hrun⟩, dryRun, -, sources, hsources,
      summary, ⟨_, -, hsummary⟩, files, hfiles, hpure⟩ := hread
    obtain rfl := Option.some.inj hpure
    exact ⟨RunInfo.agrees.valid_of_ofJson? _ _ hrun,
      BlockSummary.agrees.valid_of_listOrEmpty? hsources,
      RunSummary.agrees.valid_of_ofJson? _ _ hsummary,
      FileResult.agrees.valid_of_listOrEmpty? hfiles⟩
  map_toJson v := by
    simp only [form?, recordForm?, ofJson?, List.map_cons, List.map_nil, List.mapM_cons,
      List.mapM_nil, agrees_str.members?_required, ToolInfo.agrees.members?_required,
      RunInfo.agrees.members?_required, agrees_bool.members?_required,
      BlockSummary.agrees.members?_listed, RunSummary.agrees.members?_required,
      FileResult.agrees.members?_listed, Option.bind_eq_bind]
    cases v.record? ["schema", "tool", "run", "dry_run", "sources", "summary", "files"] with
    | none => rfl
    | some field =>
      simp only [Option.bind_some]
      generalize (field "schema").bind str? = schema
      generalize (field "tool").bind ToolInfo.ofJson? = tool
      generalize (field "run").bind RunInfo.ofJson? = run
      generalize (field "dry_run").bind bool? = dryRun
      generalize listOrEmpty? BlockSummary.ofJson? (field "sources") = sources
      generalize (field "summary").bind RunSummary.ofJson? = summary
      generalize listOrEmpty? FileResult.ofJson? (field "files") = files
      -- With the first field that cannot be read both sides end.
      rcases schema with _ | schema
      · rfl
      rcases tool with _ | tool
      · rfl
      rcases run with _ | run
      · rfl
      rcases dryRun with _ | dryRun
      · rfl
      rcases sources with _ | sources
      · rfl
      rcases summary with _ | summary
      · rfl
      cases files <;> rfl

/-- **Writing and reading agree.** Canonical specs, directives between such specs, local names
included, and reports of moments and counts are read as what they were written from. Whatever else
is read as one of these is written again in its form, without unknown fields, without optional
fields that were missing or null, and with an empty list for each one that was missing; and what was
written again is read as the same and stays as it is. -/
theorem json_forms_agree :
    (∀ s : ImportSpec, s.Canonical → ImportSpec.ofJson? s.toJson = some s) ∧
    (∀ d : Directive, d.source.Canonical → d.target.Canonical →
      Directive.ofJson? d.toJson = some d) ∧
    (∀ r : Report, r.WellFormed → Report.ofJson? r.toJson = some r) ∧
    ∀ v : JsonValue,
      (∀ s, ImportSpec.ofJson? v = some s → ImportSpec.ofJson? s.toJson = some s) ∧
      (∀ d, Directive.ofJson? v = some d → Directive.ofJson? d.toJson = some d) ∧
      (∀ r, Report.ofJson? v = some r → Report.ofJson? r.toJson = some r) ∧
      (Directive.ofJson? v).map Directive.toJson = Directive.form? v ∧
      (Report.ofJson? v).map Report.toJson = Report.form? v ∧
      (∀ w, Directive.form? v = some w → Directive.form? w = some w) ∧
      ∀ w, Report.form? v = some w → Report.form? w = some w := by
  refine ⟨ImportSpec.agrees.ofJson?_toJson, fun d hsource htarget => ?_,
    Report.agrees.ofJson?_toJson, fun v => ?_⟩
  · exact Directive.agrees.ofJson?_toJson d ⟨hsource, htarget⟩
  · exact ⟨fun _ => ImportSpec.agrees.read_again, fun _ => Directive.agrees.read_again,
      fun _ => Report.agrees.read_again, Directive.agrees.map_toJson v, Report.agrees.map_toJson v,
      fun _ => Directive.agrees.form?_form?, fun _ => Report.agrees.form?_form?⟩

/-- A report with an unknown field, with null for a version and with no lists, in which the times of
the run are listed by position. -/
def sparseReport : JsonValue :=
  .obj [("schema", .str "pkgmove.report.v1"),
    ("tool", .obj [("home", .null), ("name", .str "pkgmove"), ("version", .null)]),
    ("run", .arr [.str "-0004-2-29 23:59:60.1200+00:00"]), ("dry_run", .bool true),
    ("summary", .obj [("directives", .count 1), ("files_scanned", .count 4),
      ("files_changed", .count 0), ("files_written", .count 0)])]

/-- What is read from it. -/
def sparseReading : Report where
  schema := "pkgmove.report.v1"
  tool := ⟨"pkgmove", none⟩
  run := ⟨⟨-4, 2, 29, 23, 59, 60, 120000000⟩, none⟩
  dryRun := true
  sources := []
  summary := ⟨1, 4, 0, 0⟩
  files := []

/-- The same report, written again. -/
def settledReport : JsonValue :=
  .obj [("schema", .str "pkgmove.report.v1"), ("tool", .obj [("name", .str "pkgmove")]),
    ("run", .obj [("started_at", .str "-0004-02-29T23:59:60.120Z")]), ("dry_run", .bool true),
    ("sources", .arr []),
    ("summary", .obj [("directives", .count 1), ("files_scanned", .count 4),
      ("files_changed", .count 0), ("files_written", .count 0)]),
    ("files", .arr [])]

/-- The sparse report settles in one step, and a directive with a local name is read again. -/
theorem json_forms_agree_sparse :
    Report.form? sparseReport = some settledReport ∧
      Report.form? settledReport = some settledReport ∧ sparseReading.WellFormed ∧
      Report.ofJson? settledReport = some sparseReading ∧
      ∃ d : Directive, d.source.Canonical ∧ d.target.Canonical ∧ d.source.localName = some "T" ∧
        Directive.ofJson? d.toJson = some d := by
  obtain ⟨-, hdirective, -, hagain⟩ := json_forms_agree
  obtain ⟨-, -, hreport, -, hform, -, hsettles⟩ := hagain sparseReport
  have hread : Report.ofJson? sparseReport = some sparseReading := by decide +kernel
  have htext : Timestamp.text ⟨-4, 2, 29, 23, 59, 60, 120000000⟩ = "-0004-02-29T23:59:60.120Z" := by
    decide +kernel
  have hsettled : sparseReading.toJson = settledReport := by
    simp [sparseReading, Report.toJson, ToolInfo.toJson, RunInfo.toJson, RunSummary.toJson,
      Timestamp.toJson, member?, settledReport, htext]
  have hspec : ImportSpec.parse "com.old.Test as T" =
      .ok ⟨"com.old", [], some "Test", some "T"⟩ := by
    decide +kernel
  have hcanonical := ImportSpec.canonical_of_parse hspec
  rw [hread, Option.map_some, hsettled] at hform
  refine ⟨hform.symm, hsettles _ hform.symm, Report.agrees.valid_of_ofJson? _ _ hread, ?_, ?_⟩
  · rw [← hsettled, hreport sparseReading hread]
  · exact ⟨⟨_, _, .move⟩, hcanonical, hcanonical, rfl, hdirective _ hcanonical hcanonical⟩

end ImportMigration
