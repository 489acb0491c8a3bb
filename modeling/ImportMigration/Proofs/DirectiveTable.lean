import ImportMigration.Directive.Table
import ImportMigration.Proofs.SpecOrder
import Mathlib.Data.List.Nodup

/-! # Tables that blocks give

A table that is merged from blocks holds directives over canonical specs without local names, each
under its own source, and its keys increase strictly. Looking a spec up is then finding the one
directive whose source it is.

* `Directive.Canonical`: a directive as a line gives it.
* `DirectiveTable.Lawful`: the invariant of tables. Inserting keeps it (`Lawful.insert`), and so
  does every run of merges (`lawful_ofBlocks`).
* `DirectiveTable.Lawful.entry?_eq_some_iff`, `DirectiveTable.Lawful.find?_eq_some_iff`: what a
  lookup finds. -/

namespace ImportMigration

/-! ## Directives as they are read -/

/-- A directive between canonical specs that have no local names. -/
structure Directive.Canonical (d : Directive) : Prop where
  /-- The source is canonical. -/
  source : d.source.Canonical
  /-- The target is canonical. -/
  target : d.target.Canonical
  /-- The source has no local name. -/
  sourceLocalName : d.source.localName = none
  /-- The target has no local name. -/
  targetLocalName : d.target.localName = none

/-- A directive line names its source and its target by one word each. -/
theorem Directive.canonical_of_parse {line : String} {d : Directive}
    (h : Directive.parse line = .ok d) : d.Canonical := by
  simp only [Directive.parse] at h
  split at h
  · rename_i first second others hwords
    have hsolid : ∀ word ∈ first :: second :: others, Text.Solid word := by
      intro word hword
      rw [← hwords] at hword
      exact Text.solid_of_mem_words hword
    split at h
    · cases h
    rename_i origin horigin
    split at h
    · cases h
    rename_i target htarget
    obtain rfl := Except.ok.inj h
    exact ⟨ImportSpec.canonical_of_parse horigin, ImportSpec.canonical_of_parse htarget,
      ImportSpec.localName_of_parse_solid (hsolid first List.mem_cons_self) horigin,
      ImportSpec.localName_of_parse_solid
        (hsolid _ (List.mem_cons_of_mem first (List.getLast_mem _))) htarget⟩
  · cases h

/-- The directives of a block's lines are canonical. -/
theorem DirectiveBlock.canonical_of_readLines {origin : String} {lines : List (List Char × Nat)}
    {directives : List Directive} (h : readLines origin lines = .ok directives) :
    ∀ d ∈ directives, d.Canonical := by
  induction lines generalizing directives with
  | nil =>
    obtain rfl := Except.ok.inj h
    simp
  | cons line rest ih =>
    obtain ⟨raw, index⟩ := line
    simp only [readLines] at h
    split_ifs at h with hskip
    · exact ih h
    · split at h
      · cases h
      rename_i directive hdirective
      split at h
      · cases h
      rename_i others hothers
      obtain rfl := Except.ok.inj h
      intro d hd
      rcases List.mem_cons.mp hd with rfl | hd
      · exact Directive.canonical_of_parse hdirective
      · exact ih hothers d hd

namespace DirectiveTable

/-- The directives of a table in the order of their keys. -/
def directives (t : DirectiveTable) : List Directive := t.entries.map (·.directive)

/-- A directive of a table has a slot. -/
theorem mem_directives {t : DirectiveTable} {d : Directive} :
    d ∈ t.directives ↔ ∃ slot ∈ t.slots, slot.2.directive = d := by
  simp [directives, entries]

/-! ## The invariant -/

/-- The invariant of a table that is merged from blocks. -/
structure Lawful (t : DirectiveTable) : Prop where
  /-- Every directive is one that a line can give. -/
  canonical : ∀ slot ∈ t.slots, slot.2.directive.Canonical
  /-- Every key is the source of its directive. -/
  keyed : ∀ slot ∈ t.slots, slot.1 = slot.2.directive.source
  /-- The keys increase. -/
  increasing : t.slots.Pairwise fun a b => a.1.order b.1 = .lt

/-- The empty table is lawful. -/
theorem lawful_empty : empty.Lawful := ⟨by simp [empty], by simp [empty], by simp [empty]⟩

/-- A slot after an insertion is an old one, the new one, or an old key with the new entry. -/
theorem of_mem_insertSlot {key : ImportSpec} {entry : TableEntry}
    {slots : List (ImportSpec × TableEntry)} {slot : ImportSpec × TableEntry}
    (h : slot ∈ insertSlot key entry slots) :
    slot ∈ slots ∨ slot = (key, entry) ∨
      key.order slot.1 = .eq ∧ slot.2 = entry ∧ ∃ old, (slot.1, old) ∈ slots := by
  induction slots with
  | nil => simp_all [insertSlot]
  | cons head rest ih =>
    obtain ⟨k, e⟩ := head
    simp only [insertSlot] at h
    split at h
    · rcases List.mem_cons.mp h with rfl | h
      · exact Or.inr (Or.inl rfl)
      · exact Or.inl h
    · rename_i heq
      rcases List.mem_cons.mp h with rfl | h
      · exact Or.inr (Or.inr ⟨heq, rfl, e, List.mem_cons_self⟩)
      · exact Or.inl (List.mem_cons_of_mem _ h)
    · rcases List.mem_cons.mp h with rfl | h
      · exact Or.inl List.mem_cons_self
      · rcases ih h with hold | hnew | ⟨heq, hentry, old, hold⟩
        · exact Or.inl (List.mem_cons_of_mem _ hold)
        · exact Or.inr (Or.inl hnew)
        · exact Or.inr (Or.inr ⟨heq, hentry, old, List.mem_cons_of_mem _ hold⟩)

/-- Inserting keeps the keys increasing. -/
theorem pairwise_insertSlot {key : ImportSpec} {entry : TableEntry}
    {slots : List (ImportSpec × TableEntry)}
    (h : slots.Pairwise fun a b => a.1.order b.1 = .lt) :
    (insertSlot key entry slots).Pairwise fun a b => a.1.order b.1 = .lt := by
  induction slots with
  | nil => simp [insertSlot]
  | cons head rest ih =>
    obtain ⟨k, e⟩ := head
    obtain ⟨hhead, hrest⟩ := List.pairwise_cons.mp h
    simp only [insertSlot]
    split
    · rename_i hlt
      refine List.pairwise_cons.mpr ⟨fun slot hslot => ?_, h⟩
      rcases List.mem_cons.mp hslot with rfl | hslot
      · exact hlt
      · exact Std.TransCmp.lt_trans hlt (hhead slot hslot)
    · exact List.pairwise_cons.mpr ⟨hhead, hrest⟩
    · rename_i hgt
      have hlt : k.order key = .lt := Std.OrientedCmp.lt_of_gt hgt
      refine List.pairwise_cons.mpr ⟨fun slot hslot => ?_, ih hrest⟩
      rcases of_mem_insertSlot hslot with hold | rfl | ⟨heq, -, -⟩
      · exact hhead slot hold
      · exact hlt
      · exact Std.TransCmp.lt_of_lt_of_eq hlt heq

/-- Inserting a directive that a line gives keeps a table lawful. -/
theorem Lawful.insert {t : DirectiveTable} (h : t.Lawful) {d : Directive} (hd : d.Canonical)
    (origin : String) : (t.insert d origin).Lawful := by
  have hkey := ImportSpec.withoutLocalName_eq_self hd.sourceLocalName
  refine ⟨?_, ?_, pairwise_insertSlot h.increasing⟩
  · intro slot hslot
    rcases of_mem_insertSlot hslot with hold | rfl | ⟨-, hentry, -⟩
    · exact h.canonical slot hold
    · exact hd
    · rw [hentry]
      exact hd
  · intro slot hslot
    rcases of_mem_insertSlot hslot with hold | rfl | ⟨heq, hentry, old, hold⟩
    · exact h.keyed slot hold
    · exact hkey
    · -- The old key stays; between canonical specs it is the new one.
      have hold_source := h.keyed _ hold
      rw [hentry]
      rw [hkey, hold_source, hd.source.order_eq_iff (h.canonical _ hold).source] at heq
      rw [hold_source, heq]

/-- Inserting the directives of a block keeps a table lawful. -/
theorem Lawful.insertAll {t : DirectiveTable} (h : t.Lawful) {directives : List Directive}
    (hd : ∀ d ∈ directives, d.Canonical) (origin : String) :
    (t.insertAll directives origin).Lawful := by
  induction directives generalizing t with
  | nil => exact h
  | cons d rest ih =>
    exact ih (h.insert (hd d List.mem_cons_self) origin)
      fun d' hd' => hd d' (List.mem_cons_of_mem d hd')

/-- Merging blocks keeps a table lawful. -/
theorem Lawful.mergeAll {t table : DirectiveTable} (h : t.Lawful) {blocks : List DirectiveBlock}
    (hmerge : t.mergeAll blocks = .ok table) : table.Lawful := by
  induction blocks generalizing t with
  | nil =>
    obtain rfl := Except.ok.inj hmerge
    exact h
  | cons block rest ih =>
    simp only [DirectiveTable.mergeAll, merge] at hmerge
    cases hparse : block.parse with
    | error fault => simp [hparse] at hmerge
    | ok directives =>
      simp only [hparse] at hmerge
      exact ih (h.insertAll (DirectiveBlock.canonical_of_readLines hparse) block.origin) hmerge

/-- **A table that is merged from blocks is lawful.** -/
theorem lawful_ofBlocks {blocks : List DirectiveBlock} {t : DirectiveTable}
    (h : ofBlocks blocks = .ok t) : t.Lawful :=
  lawful_empty.mergeAll h

/-- The table of a single move, of the class `Test` from one package to another. -/
def movedTest : DirectiveTable :=
  ⟨[(⟨"com.old", [], some "Test", none⟩,
    ⟨⟨⟨"com.old", [], some "Test", none⟩, ⟨"com.new", [], some "Test", none⟩, .move⟩, "a"⟩)]⟩

/-- The block that gives the table of a single move. -/
theorem ofBlocks_movedTest :
    ofBlocks [⟨"a", "MOVE com.old.Test -> com.new.Test"⟩] = .ok movedTest := by
  decide +kernel

/-! ## Lookup -/

/-- A lawful table has one slot for each key. -/
theorem Lawful.slot_ext {t : DirectiveTable} (h : t.Lawful) {a b : ImportSpec × TableEntry}
    (ha : a ∈ t.slots) (hb : b ∈ t.slots) (hkey : a.1 = b.1) : a = b := by
  have hnodup : (t.slots.map Prod.fst).Nodup := by
    refine List.pairwise_map.mpr (h.increasing.imp ?_)
    intro x y hlt heq
    rw [heq, ImportSpec.order_self] at hlt
    cases hlt
  exact List.inj_on_of_nodup_map hnodup ha hb hkey

/-- The entry found for a spec is the one in the slot of its lookup form. -/
theorem Lawful.entry?_eq_some_iff {t : DirectiveTable} (h : t.Lawful) {s : ImportSpec}
    (hs : s.Canonical) {entry : TableEntry} :
    t.entry? s = some entry ↔ (s.withoutLocalName, entry) ∈ t.slots := by
  have hsame : ∀ slot ∈ t.slots,
      (s.withoutLocalName.sameKey slot.1 = true ↔ s.withoutLocalName = slot.1) := by
    intro slot hslot
    rw [h.keyed slot hslot, hs.withoutLocalName.sameKey_iff (h.canonical slot hslot).source]
  simp only [Option.map_eq_some_iff, entry?]
  constructor
  · rintro ⟨slot, hfind, rfl⟩
    have hslot := List.mem_of_find?_eq_some hfind
    have hkey := List.find?_some hfind
    rw [(hsame slot hslot).mp hkey]
    exact hslot
  · intro hslot
    cases hfound : t.slots.find? fun slot => s.withoutLocalName.sameKey slot.1 with
    | none =>
      exact absurd ((hsame _ hslot).mpr rfl) (List.find?_eq_none.mp hfound _ hslot)
    | some found =>
      have hmem := List.mem_of_find?_eq_some hfound
      have hfoundKey := List.find?_some hfound
      obtain rfl := h.slot_ext hmem hslot ((hsame found hmem).mp hfoundKey).symm
      exact ⟨_, rfl, rfl⟩

/-- **Lookup.** The directive found for a spec is the one whose source the spec is. -/
theorem Lawful.find?_eq_some_iff {t : DirectiveTable} (h : t.Lawful) {s : ImportSpec}
    (hs : s.Canonical) {d : Directive} :
    t.find? s = some d ↔ d ∈ t.directives ∧ d.source = s.withoutLocalName := by
  rw [mem_directives]
  simp only [find?, Option.map_eq_some_iff, h.entry?_eq_some_iff hs]
  constructor
  · rintro ⟨entry, hslot, rfl⟩
    exact ⟨⟨_, hslot, rfl⟩, (h.keyed _ hslot).symm⟩
  · rintro ⟨⟨slot, hslot, rfl⟩, hsource⟩
    refine ⟨slot.2, ?_, rfl⟩
    rw [← hsource, ← h.keyed slot hslot]
    exact hslot

/-- No directive is found for a spec that is no directive's source. -/
theorem Lawful.find?_eq_none_iff {t : DirectiveTable} (h : t.Lawful) {s : ImportSpec}
    (hs : s.Canonical) :
    t.find? s = none ↔ ∀ d ∈ t.directives, d.source ≠ s.withoutLocalName := by
  simp only [Option.eq_none_iff_forall_ne_some, ne_eq, h.find?_eq_some_iff hs, not_and]

end DirectiveTable

end ImportMigration
