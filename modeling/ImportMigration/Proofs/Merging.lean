import ImportMigration.Proofs.DirectiveTable

/-! # Merging is last writer wins

Merging blocks is inserting their directives one after the other. For every key the table ends up
with the last directive that was inserted under it, whatever lies between; so the order of blocks
that have no key in common does not matter.

* `DirectiveTable.insertEntries`: a run of insertions, which is what merging is (`mergeAll_eq`).
* `DirectiveTable.entry?_insert`, `DirectiveTable.entry?_insertEntries`: a lookup after one
  insertion and after a run of them, on all tables and specs.
* `DirectiveTable.ofBlocks_last_writer`: the table of a list of blocks. -/

namespace ImportMigration

/-- The key an entry is stored under. -/
def TableEntry.key (e : TableEntry) : ImportSpec := e.directive.source.withoutLocalName

/-- The directives of blocks one after the other, each with the origin of its block, where
`directives` gives those of one block. -/
def labelled (directives : DirectiveBlock → List Directive) (blocks : List DirectiveBlock) :
    List TableEntry :=
  blocks.flatMap fun b => (directives b).map fun d => ⟨d, b.origin⟩

/-- The directives of labelled blocks. -/
theorem map_directive_labelled (directives : DirectiveBlock → List Directive)
    (blocks : List DirectiveBlock) :
    (labelled directives blocks).map (·.directive) = blocks.flatMap directives := by
  simp [labelled, List.map_flatMap, Function.comp_def]

/-- The last entry of a list that has this key. -/
def lastWith? (entries : List TableEntry) (key : ImportSpec) : Option TableEntry :=
  (entries.filter (·.key = key)).getLast?

namespace DirectiveTable

/-! ## Runs of insertions -/

/-- The table with entries inserted in order. -/
def insertEntries (t : DirectiveTable) (entries : List TableEntry) : DirectiveTable :=
  entries.foldl (fun table e => table.insert e.directive e.origin) t

/-- A run of insertions in two parts. -/
theorem insertEntries_append (t : DirectiveTable) (front back : List TableEntry) :
    t.insertEntries (front ++ back) = (t.insertEntries front).insertEntries back :=
  List.foldl_append

/-- A list of directives from one origin is inserted as entries. -/
theorem insertAll_eq_insertEntries (t : DirectiveTable) (directives : List Directive)
    (origin : String) :
    t.insertAll directives origin = t.insertEntries (directives.map fun d => ⟨d, origin⟩) := by
  rw [insertAll, insertEntries, List.foldl_map]

/-- Blocks that can all be read are merged by inserting their directives in order. -/
theorem mergeAll_eq {directives : DirectiveBlock → List Directive} {blocks : List DirectiveBlock}
    (h : ∀ b ∈ blocks, b.parse = .ok (directives b)) (t : DirectiveTable) :
    t.mergeAll blocks = .ok (t.insertEntries (labelled directives blocks)) := by
  induction blocks generalizing t with
  | nil => rfl
  | cons b rest ih =>
    have hrest : ∀ b ∈ rest, b.parse = .ok (directives b) :=
      fun b' hb' => h b' (List.mem_cons_of_mem b hb')
    rw [mergeAll, merge, h b List.mem_cons_self]
    simp only [insertAll_eq_insertEntries, ih hrest, ← insertEntries_append]
    rfl

/-- **A lookup after an insertion** finds the new entry under the keys that compare equal to its
own, and what it found before under all others. -/
theorem entry?_insert (t : DirectiveTable) (d : Directive) (origin : String) (s : ImportSpec) :
    entry? (t.insert d origin) s =
      if s.withoutLocalName.sameKey d.source.withoutLocalName then some ⟨d, origin⟩
      else t.entry? s := by
  simp only [insert, entry?]
  generalize s.withoutLocalName = key
  generalize d.source.withoutLocalName = own
  obtain ⟨slots⟩ := t
  simp only
  induction slots with
  | nil => by_cases hown : key.sameKey own = true <;> simp [insertSlot, hown]
  | cons slot rest ih =>
    obtain ⟨k, e⟩ := slot
    rw [insertSlot]
    cases hcmp : own.order k with
    | lt => by_cases hown : key.sameKey own = true <;> simp [hown]
    | eq =>
      have hsame : key.sameKey k = key.sameKey own := by
        rw [Bool.eq_iff_iff, ImportSpec.sameKey_eq_true_iff, ImportSpec.sameKey_eq_true_iff,
          Std.TransCmp.congr_right hcmp]
      by_cases hown : key.sameKey own = true <;> simp [hown, hsame]
    | gt =>
      simp only [List.find?_cons]
      by_cases hk : key.sameKey k = true
      · have hown : key.sameKey own = false := by
          by_contra hsame
          rw [Bool.not_eq_false, ImportSpec.sameKey_eq_true_iff] at hsame
          rw [ImportSpec.sameKey_eq_true_iff, Std.TransCmp.congr_left hsame, hcmp] at hk
          cases hk
        simp [hk, hown]
      · simp only [hk]
        exact ih

/-- **A lookup after a run of insertions** finds the last entry whose key compares equal, and
without one what it found before. -/
theorem entry?_insertEntries (t : DirectiveTable) (entries : List TableEntry) (s : ImportSpec) :
    entry? (t.insertEntries entries) s =
      ((entries.filter (s.withoutLocalName.sameKey ·.key)).getLast?).or (t.entry? s) := by
  induction entries generalizing t with
  | nil => rfl
  | cons e rest ih =>
    rw [insertEntries, List.foldl_cons, ← insertEntries, ih, entry?_insert]
    rw [List.filter_cons, ← TableEntry.key]
    by_cases hkey : s.withoutLocalName.sameKey e.key = true
    · rw [if_pos hkey, if_pos hkey, List.getLast?_cons]
      cases (rest.filter (s.withoutLocalName.sameKey ·.key)).getLast? <;> rfl
    · rw [if_neg hkey, if_neg hkey]

/-! ## Tables of blocks -/

/-- Entries whose directives lines can give leave a lawful table lawful. -/
theorem Lawful.insertEntries {t : DirectiveTable} (h : t.Lawful) {entries : List TableEntry}
    (hentries : ∀ e ∈ entries, e.directive.Canonical) : (t.insertEntries entries).Lawful := by
  induction entries generalizing t with
  | nil => exact h
  | cons e rest ih =>
    exact ih (h.insert (hentries e List.mem_cons_self) e.origin)
      fun e' he' => hentries e' (List.mem_cons_of_mem e he')

/-- The slots of a table of entries whose directives lines can give: under each key the last entry
with this key. -/
theorem mem_slots_insertEntries {entries : List TableEntry}
    (hentries : ∀ e ∈ entries, e.directive.Canonical) {key : ImportSpec} {entry : TableEntry} :
    (key, entry) ∈ (empty.insertEntries entries).slots ↔ lastWith? entries key = some entry := by
  have hlawful := lawful_empty.insertEntries hentries
  -- Between canonical specs, agreeing in the keys of the order is being the same.
  have hlookup : ∀ s : ImportSpec, s.Canonical → s.localName = none →
      ((s, entry) ∈ (empty.insertEntries entries).slots ↔ lastWith? entries s = some entry) := by
    intro s hs hlocal
    have hself := ImportSpec.withoutLocalName_eq_self hlocal
    have hfilter : entries.filter (s.sameKey ·.key) = entries.filter (·.key = s) := by
      refine List.filter_congr fun e he => ?_
      have hkey : e.key.Canonical := (hentries e he).source.withoutLocalName
      rw [Bool.eq_iff_iff, hs.sameKey_iff hkey, decide_eq_true_eq, eq_comm]
    have hfound : entry? (empty.insertEntries entries) s = some entry ↔
        (s.withoutLocalName, entry) ∈ (empty.insertEntries entries).slots :=
      hlawful.entry?_eq_some_iff hs
    rw [entry?_insertEntries, hself, hfilter] at hfound
    rw [← hfound, lastWith?]
    simp [empty, entry?]
  constructor
  · intro hslot
    obtain rfl : key = entry.directive.source := hlawful.keyed _ hslot
    have hcanonical := hlawful.canonical _ hslot
    exact (hlookup _ hcanonical.source hcanonical.sourceLocalName).mp hslot
  · intro hlast
    have hmem := List.mem_filter.mp (List.mem_of_getLast? hlast)
    obtain rfl : entry.key = key := by simpa using hmem.2
    exact (hlookup entry.key (hentries entry hmem.1).source.withoutLocalName rfl).mpr hlast

/-- The entries of blocks that can be read have directives that lines can give. -/
theorem canonical_of_mem_labelled {directives : DirectiveBlock → List Directive}
    {blocks : List DirectiveBlock} (h : ∀ b ∈ blocks, b.parse = .ok (directives b)) {e : TableEntry}
    (he : e ∈ labelled directives blocks) : e.directive.Canonical := by
  obtain ⟨b, hb, he⟩ := List.mem_flatMap.mp he
  obtain ⟨d, hd, rfl⟩ := List.mem_map.mp he
  exact DirectiveBlock.canonical_of_readLines (h b hb) d hd

/-- Lawful tables with the same slots in any order are the same. -/
theorem Lawful.ext {t u : DirectiveTable} (ht : t.Lawful) (hu : u.Lawful)
    (h : ∀ slot, slot ∈ t.slots ↔ slot ∈ u.slots) : t = u := by
  have hirrefl : ∀ a : ImportSpec × TableEntry, ¬ a.1.order a.1 = .lt := by simp
  have hnodup : ∀ v : DirectiveTable, v.Lawful → v.slots.Nodup := by
    intro v hv
    refine hv.increasing.imp ?_
    rintro a b hlt rfl
    exact hirrefl a hlt
  have hperm : t.slots.Perm u.slots :=
    (List.perm_ext_iff_of_nodup (hnodup t ht) (hnodup u hu)).mpr h
  have hslots : t.slots = u.slots := by
    refine hperm.eq_of_pairwise ?_ ht.increasing hu.increasing
    intro a b _ _ hab hba
    exact absurd (Std.TransCmp.lt_trans hab hba) (hirrefl a)
  cases t
  cases u
  rw [mk.injEq]
  exact hslots

/-! ## The order of blocks -/

/-- Whether two lists of directives have no source in common. -/
def SourcesApart (ds es : List Directive) : Prop :=
  ∀ d ∈ ds, ∀ e ∈ es, d.source.withoutLocalName ≠ e.source.withoutLocalName

/-- Parts of which at most one is not empty are put together to the same list in any order. -/
theorem flatMap_eq_of_perm {α β : Type} {f : α → List β} {l m : List α} (hperm : l.Perm m)
    (h : l.Pairwise fun a b => f a = [] ∨ f b = []) : l.flatMap f = m.flatMap f := by
  induction hperm with
  | nil => rfl
  | cons a _ ih => 
    rw [List.flatMap_cons, List.flatMap_cons, ih (List.pairwise_cons.mp h).2]
  | swap a b l =>
    have hab := (List.pairwise_cons.mp h).1 a List.mem_cons_self
    simp only [List.flatMap_cons]
    rcases hab with hnil | hnil <;> simp [hnil]
  | trans hperm _ ih₁ ih₂ =>
    have hnext := (hperm.pairwise_iff fun {a b} hab => hab.symm).mp h
    rw [ih₁ h, ih₂ hnext]

/-- The last entry with a key does not depend on the order of blocks without common sources. -/
theorem lastWith?_labelled_perm {directives : DirectiveBlock → List Directive}
    {blocks other : List DirectiveBlock} (hperm : other.Perm blocks)
    (hapart : blocks.Pairwise fun a b => SourcesApart (directives a) (directives b))
    (key : ImportSpec) :
    lastWith? (labelled directives other) key = lastWith? (labelled directives blocks) key := by
  simp only [lastWith?, labelled, List.filter_flatMap]
  congr 1
  refine (flatMap_eq_of_perm hperm.symm (hapart.imp ?_)).symm
  intro a b hab
  by_contra hboth
  rw [not_or] at hboth
  obtain ⟨x, hx⟩ := List.exists_mem_of_ne_nil _ hboth.1
  obtain ⟨y, hy⟩ := List.exists_mem_of_ne_nil _ hboth.2
  obtain ⟨hxmem, hxkey⟩ := List.mem_filter.mp hx
  obtain ⟨hymem, hykey⟩ := List.mem_filter.mp hy
  obtain ⟨d, hd, rfl⟩ := List.mem_map.mp hxmem
  obtain ⟨e, he, rfl⟩ := List.mem_map.mp hymem
  exact hab d hd e he ((of_decide_eq_true hxkey).trans (of_decide_eq_true hykey).symm)

/-- **Merging is last writer wins.** -/
theorem ofBlocks_last_writer {directives : DirectiveBlock → List Directive}
    {blocks : List DirectiveBlock} (h : ∀ b ∈ blocks, b.parse = .ok (directives b)) :
    ∃ t, ofBlocks blocks = .ok t ∧
      t.slots.Pairwise (fun a b => a.1.order b.1 = .lt) ∧
      (∀ key entry, (key, entry) ∈ t.slots ↔
        lastWith? (labelled directives blocks) key = some entry) ∧
      (blocks.Pairwise (fun a b => SourcesApart (directives a) (directives b)) →
        ∀ other, other.Perm blocks → ofBlocks other = .ok t) := by
  have hcanonical : ∀ e ∈ labelled directives blocks, e.directive.Canonical :=
    fun e he => canonical_of_mem_labelled h he
  have hlawful := lawful_empty.insertEntries hcanonical
  refine ⟨_, mergeAll_eq h empty, hlawful.increasing,
    fun key entry => mem_slots_insertEntries hcanonical, ?_⟩
  intro hapart other hperm
  have hother : ∀ b ∈ other, b.parse = .ok (directives b) := fun b hb => h b (hperm.subset hb)
  have hcanonical' : ∀ e ∈ labelled directives other, e.directive.Canonical :=
    fun e he => canonical_of_mem_labelled hother he
  rw [ofBlocks, mergeAll_eq hother]
  congr 1
  refine (lawful_empty.insertEntries hcanonical').ext hlawful ?_
  rintro ⟨key, entry⟩
  rw [mem_slots_insertEntries hcanonical', mem_slots_insertEntries hcanonical,
    lastWith?_labelled_perm hperm hapart]

/-- A block that overrides its own directive, and another without a common source, in both orders.
-/
theorem ofBlocks_last_writer_overridden :
    ∃ t, ofBlocks [⟨"a", "com.old.A -> com.x.A\ncom.old.A -> com.y.A"⟩,
        ⟨"b", "MOVE com.old.B -> com.z.B"⟩] = .ok t ∧
      ofBlocks [⟨"b", "MOVE com.old.B -> com.z.B"⟩,
        ⟨"a", "com.old.A -> com.x.A\ncom.old.A -> com.y.A"⟩] = .ok t ∧
      (⟨"com.old", [], some "A", none⟩,
        ⟨⟨⟨"com.old", [], some "A", none⟩, ⟨"com.y", [], some "A", none⟩, .replace⟩, "a"⟩) ∈
        t.slots := by
  let directives (b : DirectiveBlock) : List Directive := b.parse.toOption.getD []
  have h : ∀ b ∈ [⟨"a", "com.old.A -> com.x.A\ncom.old.A -> com.y.A"⟩,
      (⟨"b", "MOVE com.old.B -> com.z.B"⟩ : DirectiveBlock)], b.parse = .ok (directives b) := by
    decide +kernel
  have hapart : [⟨"a", "com.old.A -> com.x.A\ncom.old.A -> com.y.A"⟩,
      (⟨"b", "MOVE com.old.B -> com.z.B"⟩ : DirectiveBlock)].Pairwise
        fun a b => SourcesApart (directives a) (directives b) := by
    unfold SourcesApart
    decide +kernel
  obtain ⟨t, ht, -, hslots, hperm⟩ := ofBlocks_last_writer h
  refine ⟨t, ht, hperm hapart _ (List.Perm.swap _ _ _), (hslots _ _).mpr ?_⟩
  decide +kernel

end DirectiveTable

end ImportMigration
