import ImportMigration.Proofs.Merging

/-! # Tables along any run of edits

A table is changed by inserting single directives and by merging whole blocks, and nothing is
assumed of the specs: different ones may compare equal, and then the key that was there first stays
while its entry changes. Still the keys increase, every key compares equal to the source of its
entry, and a lookup finds what was inserted last.

* `DirectiveTable.Ordered`: the invariant, kept by one insertion (`Ordered.insert`) and by a run of
  them.
* `DirectiveTable.Ordered.exchange_fst`, `DirectiveTable.size_exchange`: what an insertion replaces,
  and when the table grows.
* `DirectiveTable.mergeLinewise`: merging a block line by line with the table at hand, which is
  merging the block and leaves the table alone at a bad line.
* `TableEdit`: one edit with its answer. A run of edits is a run of insertions
  (`DirectiveTable.editAll_eq`).
* `DirectiveTable.editAll_most_recent`: tables after any run. -/

namespace ImportMigration

namespace DirectiveTable

/-! ## The invariant -/

/-- The keys increase, and each compares equal to the source of its entry without local name. -/
structure Ordered (t : DirectiveTable) : Prop where
  /-- The keys increase. -/
  increasing : t.slots.Pairwise fun a b => a.1.order b.1 = .lt
  /-- Every key compares equal to the key of its entry. -/
  keyed : ∀ slot ∈ t.slots, slot.1.order slot.2.key = .eq

/-- The table without directives is ordered. -/
theorem ordered_empty : empty.Ordered := ⟨by simp [empty], by simp [empty]⟩

/-- **Inserting keeps a table ordered**, whatever its specs are. -/
theorem Ordered.insert {t : DirectiveTable} (h : t.Ordered) (d : Directive) (origin : String) :
    (t.insert d origin).Ordered := by
  refine ⟨pairwise_insertSlot h.increasing, ?_⟩
  intro slot hslot
  rcases of_mem_insertSlot hslot with hold | rfl | ⟨heq, hentry, -⟩
  · exact h.keyed slot hold
  · exact ImportSpec.order_self _
  · -- The old key stays and only compares equal to the new one.
    rw [hentry]
    exact Std.OrientedCmp.eq_symm heq

/-- A run of insertions keeps a table ordered. -/
theorem Ordered.insertEntries {t : DirectiveTable} (h : t.Ordered) (entries : List TableEntry) :
    (t.insertEntries entries).Ordered := by
  induction entries generalizing t with
  | nil => exact h
  | cons e rest ih => exact ih (h.insert e.directive e.origin)

/-! ## What an insertion replaces -/

/-- Keys are the same when they compare equal. -/
theorem sameKey_eq_decide (key other : ImportSpec) :
    key.sameKey other = decide (key.order other = .eq) := by
  rw [Bool.eq_iff_iff, ImportSpec.sameKey_eq_true_iff, decide_eq_true_eq]

/-- The walk to the place of a key finds the entry of an equal key, if the keys increase. -/
theorem replacedSlot?_eq_find? {slots : List (ImportSpec × TableEntry)}
    (h : slots.Pairwise fun a b => a.1.order b.1 = .lt) (key : ImportSpec) :
    replacedSlot? key slots = (slots.find? fun slot => key.sameKey slot.1).map (·.2) := by
  induction slots with
  | nil => rfl
  | cons head rest ih =>
    obtain ⟨k, e⟩ := head
    obtain ⟨hhead, hrest⟩ := List.pairwise_cons.mp h
    rw [replacedSlot?]
    cases hcmp : key.order k with
    | lt =>
      -- All later keys are greater still.
      have hnone : ((k, e) :: rest).find? (fun slot => key.sameKey slot.1) = none := by
        refine List.find?_eq_none.mpr fun slot hslot => ?_
        have hless : key.order slot.1 = .lt := by
          rcases List.mem_cons.mp hslot with rfl | hslot
          · exact hcmp
          · exact Std.TransCmp.lt_trans hcmp (hhead slot hslot)
        simp [sameKey_eq_decide, hless]
      rw [hnone]
      rfl
    | eq => simp [sameKey_eq_decide, hcmp]
    | gt =>
      rw [List.find?_cons_of_neg (by simp [sameKey_eq_decide, hcmp])]
      exact ih hrest

/-- **An insertion replaces what a lookup of its source found before.** -/
theorem Ordered.exchange_fst {t : DirectiveTable} (h : t.Ordered) (d : Directive)
    (origin : String) : (t.exchange d origin).1 = t.entry? d.source :=
  replacedSlot?_eq_find? h.increasing d.source.withoutLocalName

/-- There is one slot more unless an entry is replaced. -/
theorem length_insertSlot (key : ImportSpec) (entry : TableEntry)
    (slots : List (ImportSpec × TableEntry)) :
    (insertSlot key entry slots).length =
      slots.length + if replacedSlot? key slots = none then 1 else 0 := by
  induction slots with
  | nil => rfl
  | cons head rest ih =>
    obtain ⟨k, e⟩ := head
    rw [insertSlot, replacedSlot?]
    cases key.order k with
    | lt => simp
    | eq => simp
    | gt =>
      simp only [List.length_cons, ih]
      omega

/-- **A table grows by one exactly when nothing is replaced.** -/
theorem size_exchange (t : DirectiveTable) (d : Directive) (origin : String) :
    (t.exchange d origin).2.size =
      t.size + if (t.exchange d origin).1 = none then 1 else 0 :=
  length_insertSlot d.source.withoutLocalName ⟨d, origin⟩ t.slots

/-- A table grows by at most one key with every insertion of a run. -/
theorem size_insertEntries_le (t : DirectiveTable) (entries : List TableEntry) :
    (t.insertEntries entries).size ≤ t.size + entries.length := by
  induction entries generalizing t with
  | nil => exact Nat.le_refl _
  | cons e rest ih =>
    have hfirst : (t.insert e.directive e.origin).size ≤ t.size + 1 := by
      show (t.exchange e.directive e.origin).2.size ≤ t.size + 1
      rw [size_exchange]
      split_ifs <;> omega
    have hrest := ih (t.insert e.directive e.origin)
    rw [List.length_cons]
    exact hrest.trans (by omega)

/-! ## Merging line by line -/

/-- Merges numbered lines with the table at hand. What they state waits for the last of them to be
read, and the first bad line leaves the table as it is there. -/
def mergeLines (t : DirectiveTable) (origin : String) (waiting : List Directive) :
    List (List Char × Nat) → DirectiveTable × Except BlockError Nat
  | [] => (t.insertAll waiting origin, .ok waiting.length)
  | (raw, index) :: rest =>
    let line := Text.trim raw
    if DirectiveBlock.isSkipped line then t.mergeLines origin waiting rest
    else
      match Directive.parse (String.ofList line) with
      | .error cause =>
        (t, .error { origin, lineNumber := index + 1, line := String.ofList line, cause })
      | .ok directive => t.mergeLines origin (waiting ++ [directive]) rest

/-- Merges a block line by line. -/
def mergeLinewise (t : DirectiveTable) (block : DirectiveBlock) :
    DirectiveTable × Except BlockError Nat :=
  t.mergeLines block.origin [] (Text.lines block.text.toList).zipIdx

/-- Lines are merged as they are read: what waits goes in first, and a fault changes nothing. -/
theorem mergeLines_eq (t : DirectiveTable) (origin : String) (waiting : List Directive)
    (numbered : List (List Char × Nat)) :
    t.mergeLines origin waiting numbered =
      match DirectiveBlock.readLines origin numbered with
      | .error fault => (t, .error fault)
      | .ok directives =>
        (t.insertAll (waiting ++ directives) origin, .ok (waiting ++ directives).length) := by
  induction numbered generalizing waiting with
  | nil => simp [mergeLines, DirectiveBlock.readLines]
  | cons head rest ih =>
    obtain ⟨raw, index⟩ := head
    rw [mergeLines, DirectiveBlock.readLines]
    -- A skipped line adds nothing, a bad one ends both sides, a directive waits with the others.
    by_cases hskip : DirectiveBlock.isSkipped (Text.trim raw) = true
    · simp only [hskip, if_true, ih]
    · cases hparse : Directive.parse (String.ofList (Text.trim raw)) with
      | error cause => simp [hskip]
      | ok directive =>
        simp only [hskip, ih]
        cases DirectiveBlock.readLines origin rest <;> simp

/-- **A bad line leaves the table as it was**, whatever the lines before it state. -/
theorem mergeLinewise_eq_error_iff {t t' : DirectiveTable} {block : DirectiveBlock}
    {fault : BlockError} :
    t.mergeLinewise block = (t', .error fault) ↔ block.parse = .error fault ∧ t' = t := by
  rw [mergeLinewise, mergeLines_eq, ← DirectiveBlock.parse]
  cases block.parse <;> simp [eq_comm, and_comm]

/-- **Merging line by line is merging.** -/
theorem mergeLinewise_eq_ok_iff {t t' : DirectiveTable} {block : DirectiveBlock} {count : Nat} :
    t.mergeLinewise block = (t', .ok count) ↔ t.merge block = .ok (t', count) := by
  rw [mergeLinewise, mergeLines_eq, ← DirectiveBlock.parse, merge]
  cases block.parse <;> simp

end DirectiveTable

/-! ## Edits -/

/-- A change of a table. -/
inductive TableEdit where
  /-- Inserts a directive. -/
  | insert (directive : Directive) (origin : String)
  /-- Merges the directives of a block. -/
  | merge (block : DirectiveBlock)

/-- What an edit answers. -/
inductive EditAnswer where
  /-- An insertion and the entry that it replaced. -/
  | inserted (replaced : Option TableEntry)
  /-- A merged block and the number of its directives. -/
  | merged (count : Nat)
  /-- A block with a bad line. -/
  | refused (fault : BlockError)
deriving DecidableEq

namespace TableEdit

/-- The table after an edit, and its answer. -/
def apply (t : DirectiveTable) : TableEdit → DirectiveTable × EditAnswer
  | insert directive origin =>
    let (replaced, t) := t.exchange directive origin
    (t, .inserted replaced)
  | merge block =>
    match t.merge block with
    | .error fault => (t, .refused fault)
    | .ok (t, count) => (t, .merged count)

/-- The entries that an edit inserts, in order: none for a block with a bad line. -/
def entries : TableEdit → List TableEntry
  | insert directive origin => [⟨directive, origin⟩]
  | merge block =>
    match block.parse with
    | .error _ => []
    | .ok directives => directives.map (⟨·, block.origin⟩)

/-- An edit inserts its entries. -/
theorem apply_fst (t : DirectiveTable) (edit : TableEdit) :
    (edit.apply t).1 = t.insertEntries edit.entries := by
  cases edit with
  | insert directive origin => rfl
  | merge block =>
    simp only [apply, entries, DirectiveTable.merge]
    cases block.parse with
    | error fault => rfl
    | ok directives => exact t.insertAll_eq_insertEntries directives block.origin

/-- A block is refused for its first bad line, and the table stays as it was. -/
theorem apply_merge_eq_refused_iff {t t' : DirectiveTable} {block : DirectiveBlock}
    {fault : BlockError} :
    (merge block).apply t = (t', .refused fault) ↔ block.parse = .error fault ∧ t' = t := by
  simp only [apply, DirectiveTable.merge]
  cases block.parse with
  | error found => simp [eq_comm, and_comm]
  | ok directives => simp

end TableEdit

namespace DirectiveTable

/-- The table after a run of edits. -/
def editAll (t : DirectiveTable) (edits : List TableEdit) : DirectiveTable :=
  edits.foldl (fun table edit => (edit.apply table).1) t

/-- A run of edits inserts the entries of its edits. -/
theorem editAll_eq (t : DirectiveTable) (edits : List TableEdit) :
    t.editAll edits = t.insertEntries (edits.flatMap TableEdit.entries) := by
  induction edits generalizing t with
  | nil => rfl
  | cons edit rest ih =>
    rw [List.flatMap_cons, insertEntries_append, ← ih, ← TableEdit.apply_fst]
    rfl

/-- The most recent of some entries whose key compares equal to a spec without its local name. -/
def mostRecent? (entries : List TableEntry) (s : ImportSpec) : Option TableEntry :=
  (entries.filter (s.withoutLocalName.order ·.key = .eq)).getLast?

/-- A lookup after a run of edits finds the most recent entry. -/
theorem entry?_editAll (edits : List TableEdit) (s : ImportSpec) :
    entry? (empty.editAll edits) s = mostRecent? (edits.flatMap TableEdit.entries) s := by
  rw [editAll_eq, entry?_insertEntries, mostRecent?]
  simp [empty, entry?, sameKey_eq_decide]

/-- **Tables after any run of edits.** The keys increase and compare equal to the sources of their
entries; a lookup finds what was inserted last under a source that compares equal; the next
insertion replaces what the lookup of its source finds, and the table grows by one when that is
nothing; a block with a bad line is refused and leaves the table as it is, also when its lines are
merged one by one with the table at hand, which otherwise merges the block. -/
theorem editAll_most_recent {edits : List TableEdit} {t : DirectiveTable}
    (ht : empty.editAll edits = t) :
    t.slots.Pairwise (fun a b => a.1.order b.1 = .lt) ∧
      (∀ slot ∈ t.slots, slot.1.order slot.2.directive.source.withoutLocalName = .eq) ∧
      (∀ s, t.entry? s = mostRecent? (edits.flatMap TableEdit.entries) s ∧
        t.find? s = (mostRecent? (edits.flatMap TableEdit.entries) s).map (·.directive)) ∧
      (∀ d origin, ((TableEdit.insert d origin).apply t).2 = .inserted (t.entry? d.source) ∧
        ((TableEdit.insert d origin).apply t).1.size =
          t.size + if t.entry? d.source = none then 1 else 0) ∧
      ∀ block t',
        (∀ fault, (TableEdit.merge block).apply t = (t', .refused fault) ↔
          block.parse = .error fault ∧ t' = t) ∧
        (∀ fault, t.mergeLinewise block = (t', .error fault) ↔
          block.parse = .error fault ∧ t' = t) ∧
        ∀ count, t.mergeLinewise block = (t', .ok count) ↔ t.merge block = .ok (t', count) := by
  have hordered : t.Ordered := by
    rw [← ht, editAll_eq]
    exact ordered_empty.insertEntries _
  refine ⟨hordered.increasing, hordered.keyed, ?_, ?_, ?_⟩
  · intro s
    have hentry : t.entry? s = mostRecent? (edits.flatMap TableEdit.entries) s := by
      rw [← ht]
      exact entry?_editAll edits s
    exact ⟨hentry, by rw [find?, hentry]⟩
  · intro d origin
    have hreplaced := hordered.exchange_fst d origin
    refine ⟨congrArg EditAnswer.inserted hreplaced, ?_⟩
    rw [← hreplaced]
    exact size_exchange t d origin
  · intro block t'
    exact ⟨fun _ => TableEdit.apply_merge_eq_refused_iff, fun _ => mergeLinewise_eq_error_iff,
      fun _ => mergeLinewise_eq_ok_iff⟩

/-- The move of a member below some owners. -/
def movedMember (owners : List String) : Directive :=
  ⟨⟨"a", owners, some "x", none⟩, ⟨"b", owners, some "x", none⟩, .move⟩

/-- Two owners and one owner whose name holds a dot compare equal: the second insertion replaces the
entry of the first, though a block was refused between them. Of a block whose second line is bad the
first line leaves nothing behind. -/
theorem editAll_most_recent_respelled :
    ∃ t, empty.editAll [.insert (movedMember ["A", "B"]) "one", .merge ⟨"two", "MOVE a.Y"⟩,
        .insert (movedMember ["A.B"]) "three"] = t ∧
      t.find? ⟨"a", ["A", "B"], some "x", some "y"⟩ = some (movedMember ["A.B"]) ∧
      ((TableEdit.insert (movedMember ["A", "B"]) "four").apply t).2 =
        .inserted (some ⟨movedMember ["A.B"], "three"⟩) ∧
      ((TableEdit.insert (movedMember ["A", "B"]) "four").apply t).1.size = 1 ∧
      (TableEdit.merge ⟨"two", "MOVE a.Y"⟩).apply t =
        (t, .refused ⟨"two", 1, "MOVE a.Y", .missingTarget "MOVE a.Y"⟩) ∧
      t.mergeLinewise ⟨"five", "a.X -> b.X\nMOVE a.Y"⟩ =
        (t, .error ⟨"five", 2, "MOVE a.Y", .missingTarget "MOVE a.Y"⟩) := by
  have ht : empty.editAll [.insert (movedMember ["A", "B"]) "one", .merge ⟨"two", "MOVE a.Y"⟩,
      .insert (movedMember ["A.B"]) "three"] =
        ⟨[(⟨"a", ["A", "B"], some "x", none⟩, ⟨movedMember ["A.B"], "three"⟩)]⟩ := by
    decide +kernel
  obtain ⟨-, -, hfind, hinsert, hmerge⟩ := editAll_most_recent ht
  refine ⟨_, ht, (hfind _).2.trans ?_, (hinsert _ _).1.trans ?_, (hinsert _ _).2.trans ?_, ?_, ?_⟩
  · decide +kernel
  · decide +kernel
  · decide +kernel
  · exact ((hmerge _ _).1 _).mpr ⟨by decide +kernel, rfl⟩
  · exact ((hmerge _ _).2.1 _).mpr ⟨by decide +kernel, rfl⟩

end DirectiveTable

end ImportMigration
