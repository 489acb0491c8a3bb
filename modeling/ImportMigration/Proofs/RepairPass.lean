import ImportMigration.Proofs.Repairs

/-! # Repairing a list in one pass

A list of imports is repaired in one pass that keeps two records: the imports it has come to, so
that none is repaired twice, and the results so far, so that none is listed twice. Both are looked
up by comparison and not by equality. After every part of the list the records are the first
occurrences in what was read and in the repairs of all of it, the repeated imports included.

* `distinct_append`, `any_sameKey_distinct`: first occurrences in two lists in a row, and what they
  compare equal to.
* `RepairPass`, `DirectiveTable.repairStep`: the records and one step of the pass.
* `DirectiveTable.foldl_repairStep`: the records after any part of a list, for all tables and specs.
* `DirectiveTable.repairAll_first_occurrences`: the repair of a list. -/

namespace ImportMigration

/-! ## Recording a spec once -/

/-- Of two lists in a row the second adds what compares equal to nothing in the first. -/
theorem distinct_append (l m : List ImportSpec) :
    distinct (l ++ m) = distinct l ++ (distinct m).filter fun x => !l.any (·.sameKey x) := by
  induction l with
  | nil => simp [distinct]
  | cons s rest ih =>
    rw [List.cons_append, distinct, ih, List.filter_append, List.filter_filter, distinct,
      List.cons_append]
    simp only [List.any_cons, Bool.not_or]

/-- What compares equal to an item of a list compares equal to a first occurrence in it. -/
theorem any_sameKey_distinct (l : List ImportSpec) (x : ImportSpec) :
    (distinct l).any (·.sameKey x) = l.any (·.sameKey x) := by
  induction l with
  | nil => rfl
  | cons s rest ih =>
    rw [distinct, List.any_cons, List.any_cons, ← ih, List.any_filter]
    by_cases hs : s.sameKey x = true
    · rw [hs, Bool.true_or, Bool.true_or]
    · rw [Bool.eq_false_iff.mpr hs, Bool.false_or, Bool.false_or]
      -- What is left out compares equal to the first item, and so not to the spec.
      refine List.any_congr rfl fun y => ?_
      cases hy : y.sameKey x with
      | false => rw [Bool.and_false]
      | true =>
        have hsy : s.sameKey y = false := by
          rw [Bool.eq_false_iff]
          intro hsy
          rw [ImportSpec.sameKey_eq_true_iff] at hs hsy hy
          exact hs (Std.TransCmp.eq_trans hsy hy)
        rw [hsy]
        rfl

/-- A list with a spec at its end, unless one that compares equal is there. -/
def addDistinct (specs : List ImportSpec) (s : ImportSpec) : List ImportSpec :=
  if specs.any (·.sameKey s) then specs else specs ++ [s]

/-- Recording one more spec in a record of first occurrences. -/
theorem addDistinct_distinct (l : List ImportSpec) (s : ImportSpec) :
    addDistinct (distinct l) s = distinct (l ++ [s]) := by
  have hone : distinct [s] = [s] := rfl
  rw [addDistinct, any_sameKey_distinct, distinct_append, hone]
  by_cases hseen : l.any (·.sameKey s) = true
  · rw [if_pos hseen, List.filter_cons_of_neg (by simp [hseen]), List.filter_nil, List.append_nil]
  · rw [if_neg hseen, List.filter_cons_of_pos (by simp [hseen]), List.filter_nil]

/-- Recording a list of specs in a record of first occurrences. -/
theorem foldl_addDistinct (l m : List ImportSpec) :
    m.foldl addDistinct (distinct l) = distinct (l ++ m) := by
  induction m generalizing l with
  | nil => simp
  | cons s rest ih => rw [List.foldl_cons, addDistinct_distinct, ih, List.append_assoc]; rfl

/-! ## The pass -/

/-- What a pass over a list of imports has recorded. -/
structure RepairPass where
  /-- The imports it has come to. -/
  seen : List ImportSpec
  /-- The results so far, in order. -/
  results : List ImportSpec

namespace DirectiveTable

/-- One step of the pass: an import that was not seen is repaired and its new results are added. -/
def repairStep (t : DirectiveTable) (pass : RepairPass) (s : ImportSpec) : RepairPass :=
  if pass.seen.any (·.sameKey s) then pass
  else { seen := pass.seen ++ [s], results := (t.repair s).foldl addDistinct pass.results }

/-- The pass over a list of imports. -/
def repairPass (t : DirectiveTable) (specs : List ImportSpec) : RepairPass :=
  specs.foldl t.repairStep ⟨[], []⟩

/-- **What a step keeps**: the records are the first occurrences in what was read and its repair. -/
theorem repairStep_eq (t : DirectiveTable) (front : List ImportSpec) (s : ImportSpec) :
    t.repairStep ⟨distinct front, t.repairAll front⟩ s =
      ⟨distinct (front ++ [s]), t.repairAll (front ++ [s])⟩ := by
  have hadd := addDistinct_distinct front s
  rw [addDistinct] at hadd
  simp only [repairStep, repairAll]
  by_cases hseen : (distinct front).any (·.sameKey s) = true
  · rw [if_pos hseen] at hadd
    rw [if_pos hseen, ← hadd]
  · rw [if_neg hseen] at hadd
    rw [if_neg hseen, ← hadd, foldl_addDistinct, List.flatMap_append, List.flatMap_singleton]

/-- **The records after any part of a list**, for all tables and specs. -/
theorem foldl_repairStep (t : DirectiveTable) (front rest : List ImportSpec) :
    rest.foldl t.repairStep ⟨distinct front, t.repairAll front⟩ =
      ⟨distinct (front ++ rest), t.repairAll (front ++ rest)⟩ := by
  induction rest generalizing front with
  | nil => simp
  | cons s rest ih => rw [List.foldl_cons, repairStep_eq, ih, List.append_assoc]; rfl

/-- **The pass repairs the list.** -/
theorem repairPass_eq (t : DirectiveTable) (specs : List ImportSpec) :
    t.repairPass specs = ⟨distinct specs, t.repairAll specs⟩ :=
  t.foldl_repairStep [] specs

/-- **The repair of a list is the list of first occurrences in the repairs of its items**, each in
increasing order and the repeated items included. A pass over the list that skips repeated imports
and repeated results has after every part of it recorded just these. So leaving out repeated imports
changes nothing, no result is repeated, the results are those of the items, and the order of the
list matters only to their order. -/
theorem repairAll_first_occurrences {blocks : List DirectiveBlock} {t : DirectiveTable}
    (ht : ofBlocks blocks = .ok t) {specs : List ImportSpec}
    (hspecs : ∀ s ∈ specs, ∃ text, ImportSpec.parse text = .ok s) :
    t.repairAll specs = (specs.flatMap t.repair).eraseDups ∧
      (∀ s ∈ specs, (t.repair s).Pairwise fun x y => x.order y = .lt) ∧
      (∀ front, front <+: specs →
        t.repairPass front = ⟨front.eraseDups, (front.flatMap t.repair).eraseDups⟩) ∧
      t.repairAll specs.eraseDups = t.repairAll specs ∧
      (t.repairAll specs).Nodup ∧
      (∀ x, x ∈ t.repairAll specs ↔ ∃ s ∈ specs, x ∈ t.repair s) ∧
      ∀ other, other.Perm specs → (t.repairAll other).Perm (t.repairAll specs) := by
  have h := lawful_ofBlocks ht
  have hcanonical : ∀ s ∈ specs, s.Canonical := by
    intro s hs
    obtain ⟨text, htext⟩ := hspecs s hs
    exact ImportSpec.canonical_of_parse htext
  refine ⟨h.repairAll_eq hcanonical, fun s hs => h.pairwise_repair (hcanonical s hs), ?_, ?_,
    h.nodup_repairAll hcanonical, fun x => h.mem_repairAll hcanonical, ?_⟩
  · intro front hfront
    have hpart : ∀ s ∈ front, s.Canonical := fun s hs => hcanonical s (hfront.subset hs)
    rw [repairPass_eq, distinct_eq_eraseDups hpart, h.repairAll_eq hpart]
  · have honce : ∀ s ∈ specs.eraseDups, s.Canonical :=
      fun s hs => hcanonical s (List.mem_eraseDups.mp hs)
    rw [h.repairAll_eq honce, h.repairAll_eq hcanonical, eraseDups_flatMap_eraseDups]
  · intro other hperm
    have hother : ∀ s ∈ other, s.Canonical := fun s hs => hcanonical s (hperm.subset hs)
    refine (List.perm_ext_iff_of_nodup (h.nodup_repairAll hother)
      (h.nodup_repairAll hcanonical)).mpr fun x => ?_
    rw [h.mem_repairAll hother, h.mem_repairAll hcanonical]
    simp only [hperm.mem_iff]

/-- The old scope of a moved class, its new scope, the class itself and the old scope again: the
pass over them comes to three imports and lists three results, and the first two items backwards
give the same results. -/
theorem repairAll_first_occurrences_scopes :
    let old : ImportSpec := ⟨"com.old", [], none, none⟩
    let new : ImportSpec := ⟨"com.new", [], none, none⟩
    let moved (package : String) : ImportSpec := ⟨package, [], some "Test", none⟩
    ofBlocks [⟨"a", "MOVE com.old.Test -> com.new.Test"⟩] = .ok movedTest ∧
      (∀ s ∈ [old, new, moved "com.old", old], ∃ text, ImportSpec.parse text = .ok s) ∧
      movedTest.repairAll [old, new, moved "com.old", old] = [new, old, moved "com.new"] ∧
      (movedTest.repairPass [old, new, moved "com.old", old]).seen = [old, new, moved "com.old"] ∧
      (movedTest.repairAll [new, old, moved "com.old", old]).Perm [new, old, moved "com.new"] := by
  intro old new moved
  have hspecs : ∀ s ∈ [old, new, moved "com.old", old], ImportSpec.parse s.text = .ok s := by
    decide +kernel
  obtain ⟨hall, -, hpass, -, -, -, hperm⟩ := repairAll_first_occurrences ofBlocks_movedTest
    fun s hs => ⟨s.text, hspecs s hs⟩
  have hresult : movedTest.repairAll [old, new, moved "com.old", old] =
      [new, old, moved "com.new"] := by
    rw [hall]
    decide +kernel
  refine ⟨ofBlocks_movedTest, fun s hs => ⟨s.text, hspecs s hs⟩, hresult, ?_, ?_⟩
  · rw [hpass _ (List.prefix_refl _)]
    decide +kernel
  · rw [← hresult]
    exact hperm _ (List.Perm.swap _ _ _)

end DirectiveTable

end ImportMigration
