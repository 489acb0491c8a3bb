import ImportMigration.Proofs.SpecOrder
import ImportMigration.Repair

/-! # Sorted and distinct lists of specs

Repairs are collected in two ways: the results for one import in increasing order, and those for a
list of imports in order of first occurrence. On canonical specs both forget exactly the
repetitions.

* `mem_sortedSpecs`, `pairwise_sortedSpecs`: the increasing list has the same members and increases.
* `distinct_eq_eraseDups`: the list of first occurrences.
* `eraseDups_flatMap_eraseDups`, `eraseDups_flatMap_congr`: repetitions before and inside a
  flattening do not matter to its first occurrences.
* `eraseDups_flatMap_of_fixed`: nor do those of a list inside itself. -/

namespace ImportMigration

/-! ## Increasing lists -/

/-- Inserting adds the spec and keeps the others. -/
theorem mem_insertSpec {s : ImportSpec} {specs : List ImportSpec} (hs : s.Canonical)
    (h : ∀ x ∈ specs, x.Canonical) {x : ImportSpec} :
    x ∈ insertSpec s specs ↔ x = s ∨ x ∈ specs := by
  induction specs with
  | nil => simp [insertSpec]
  | cons y rest ih =>
    simp only [insertSpec]
    split
    · simp
    · rename_i heq
      obtain rfl := (hs.order_eq_iff (h y List.mem_cons_self)).mp heq
      simp
    · rw [List.mem_cons, ih fun z hz => h z (List.mem_cons_of_mem y hz), List.mem_cons]
      exact or_left_comm

/-- Inserting keeps a list increasing. -/
theorem pairwise_insertSpec {s : ImportSpec} {specs : List ImportSpec} (hs : s.Canonical)
    (h : ∀ x ∈ specs, x.Canonical) (hsorted : specs.Pairwise fun a b => a.order b = .lt) :
    (insertSpec s specs).Pairwise fun a b => a.order b = .lt := by
  induction specs with
  | nil => simp [insertSpec]
  | cons y rest ih =>
    obtain ⟨hhead, hrest⟩ := List.pairwise_cons.mp hsorted
    have htail : ∀ x ∈ rest, x.Canonical := fun x hx => h x (List.mem_cons_of_mem y hx)
    simp only [insertSpec]
    split
    · rename_i hlt
      refine List.pairwise_cons.mpr ⟨fun x hx => ?_, hsorted⟩
      rcases List.mem_cons.mp hx with rfl | hx
      · exact hlt
      · exact Std.TransCmp.lt_trans hlt (hhead x hx)
    · exact hsorted
    · rename_i hgt
      refine List.pairwise_cons.mpr ⟨fun x hx => ?_, ih htail hrest⟩
      rcases (mem_insertSpec hs htail).mp hx with rfl | hx
      · exact Std.OrientedCmp.lt_of_gt hgt
      · exact hhead x hx

/-- The increasing list of canonical specs has their members and increases, whatever it is added to.
-/
theorem foldl_insertSpec {specs : List ImportSpec} (h : ∀ s ∈ specs, s.Canonical)
    (sorted : List ImportSpec) (hcanonical : ∀ s ∈ sorted, s.Canonical)
    (hsorted : sorted.Pairwise fun a b => a.order b = .lt) :
    (∀ x, x ∈ specs.foldl (fun sorted s => insertSpec s sorted) sorted ↔ x ∈ specs ∨ x ∈ sorted) ∧
      (specs.foldl (fun sorted s => insertSpec s sorted) sorted).Pairwise
        fun a b => a.order b = .lt := by
  induction specs generalizing sorted with
  | nil => simpa using hsorted
  | cons s rest ih =>
    have hs := h s List.mem_cons_self
    have hstep : ∀ x, x ∈ insertSpec s sorted ↔ x = s ∨ x ∈ sorted :=
      fun x => mem_insertSpec hs hcanonical
    have hstepCanonical : ∀ x ∈ insertSpec s sorted, x.Canonical := by
      intro x hx
      rcases (hstep x).mp hx with rfl | hx
      · exact hs
      · exact hcanonical x hx
    obtain ⟨hmem, hpairwise⟩ := ih (fun x hx => h x (List.mem_cons_of_mem s hx)) _ hstepCanonical
      (pairwise_insertSpec hs hcanonical hsorted)
    refine ⟨fun x => ?_, hpairwise⟩
    rw [List.foldl_cons, hmem, hstep, List.mem_cons, or_assoc, or_left_comm]

/-- The increasing list of canonical specs has the same members. -/
theorem mem_sortedSpecs {specs : List ImportSpec} (h : ∀ s ∈ specs, s.Canonical) {x : ImportSpec} :
    x ∈ sortedSpecs specs ↔ x ∈ specs := by
  rw [sortedSpecs, (foldl_insertSpec h [] (by simp) List.Pairwise.nil).1]
  simp

/-- The increasing list of canonical specs increases. -/
theorem pairwise_sortedSpecs {specs : List ImportSpec} (h : ∀ s ∈ specs, s.Canonical) :
    (sortedSpecs specs).Pairwise fun a b => a.order b = .lt :=
  (foldl_insertSpec h [] (by simp) List.Pairwise.nil).2

/-- A list of specs that increases has no repetitions. -/
theorem nodup_of_pairwise_order {specs : List ImportSpec}
    (h : specs.Pairwise fun a b => a.order b = .lt) : specs.Nodup := by
  refine h.imp ?_
  rintro a b hlt rfl
  rw [ImportSpec.order_self] at hlt
  cases hlt

/-! ## First occurrences -/

section FirstOccurrences

variable {α : Type} [DecidableEq α] {β : Type} [DecidableEq β]

/-- First occurrences can be taken before or after items are left out. -/
theorem eraseDups_filter (p : α → Bool) (l : List α) :
    (l.filter p).eraseDups = l.eraseDups.filter p := by
  -- The first item is dropped from the rest before the rest is treated, so the induction is on
  -- length.
  induction hn : l.length using Nat.strong_induction_on generalizing l with
  | _ n ih =>
    cases l with
    | nil => rfl
    | cons a rest =>
      have hshort : (rest.filter fun b => !b == a).length < n := by
        rw [← hn]
        exact Nat.lt_succ_of_le (List.length_filter_le _ rest)
      rw [List.eraseDups_cons, List.filter_cons, List.filter_cons, ← ih _ hshort _ rfl]
      by_cases ha : p a = true
      · rw [if_pos ha, if_pos ha, List.eraseDups_cons, List.filter_filter, List.filter_filter]
        simp only [Bool.and_comm]
      · rw [if_neg ha, if_neg ha, List.filter_filter]
        congr 1
        refine List.filter_congr fun b _ => ?_
        by_cases hb : b = a
        · simp [hb, ha]
        · simp [hb]

/-- The first occurrences of a list are its first item and those of the rest that differ from it. -/
theorem eraseDups_cons_eq (a : α) (l : List α) :
    (a :: l).eraseDups = a :: l.eraseDups.filter fun b => !b == a := by
  rw [List.eraseDups_cons, eraseDups_filter]

/-- The first occurrences have no repetitions. -/
theorem nodup_eraseDups (l : List α) : l.eraseDups.Nodup := by
  induction l with
  | nil => simp
  | cons a rest ih =>
    rw [eraseDups_cons_eq]
    exact List.nodup_cons.mpr ⟨by simp, ih.filter _⟩

/-- A list without repetitions has only first occurrences. -/
theorem eraseDups_of_nodup {l : List α} (h : l.Nodup) : l.eraseDups = l := by
  induction l with
  | nil => rfl
  | cons a rest ih =>
    obtain ⟨ha, hrest⟩ := List.nodup_cons.mp h
    rw [eraseDups_cons_eq, ih hrest]
    congr 1
    refine List.filter_eq_self.mpr fun b hb => ?_
    have : b ≠ a := fun heq => ha (heq ▸ hb)
    simpa using this

/-- The first occurrences of two lists in a row: of the second, those that the first does not have.
-/
theorem eraseDups_append_eq (l m : List α) :
    (l ++ m).eraseDups = l.eraseDups ++ m.eraseDups.filter fun b => !l.contains b := by
  rw [List.eraseDups_append, ← eraseDups_filter]
  rfl

omit [DecidableEq α] in
/-- The first occurrences of a flattening depend only on those of its parts. -/
theorem eraseDups_flatMap_congr {l : List α} {f g : α → List β}
    (h : ∀ a ∈ l, (f a).eraseDups = (g a).eraseDups) :
    (l.flatMap f).eraseDups = (l.flatMap g).eraseDups := by
  induction l with
  | nil => rfl
  | cons a rest ih =>
    have ha := h a List.mem_cons_self
    have hmem : ∀ b, (f a).contains b = (g a).contains b := by
      intro b
      rw [Bool.eq_iff_iff, List.contains_iff_mem, List.contains_iff_mem, ← List.mem_eraseDups, ha,
        List.mem_eraseDups]
    rw [List.flatMap_cons, List.flatMap_cons, eraseDups_append_eq, eraseDups_append_eq, ha,
      ih fun b hb => h b (List.mem_cons_of_mem a hb)]
    simp only [hmem]

/-- The parts of one item add nothing to a flattening from which they are left out. -/
theorem filter_flatMap_filter (a : α) (l : List α) (f : α → List β) :
    ((l.filter fun b => !b == a).flatMap f).filter (fun x => !(f a).contains x) =
      (l.flatMap f).filter fun x => !(f a).contains x := by
  induction l with
  | nil => rfl
  | cons b rest ih =>
    rw [List.flatMap_cons, List.filter_append, ← ih]
    by_cases hb : b = a
    · rw [List.filter_cons_of_neg (by simpa using hb)]
      have hnone : (f b).filter (fun x => !(f a).contains x) = [] := by
        simp [hb, List.filter_eq_nil_iff]
      rw [hnone, List.nil_append]
    · rw [List.filter_cons_of_pos (by simpa using hb), List.flatMap_cons, List.filter_append]

/-- Parts that repeat an earlier part add nothing to the first occurrences of a flattening. -/
theorem eraseDups_flatMap_eraseDups (l : List α) (f : α → List β) :
    (l.eraseDups.flatMap f).eraseDups = (l.flatMap f).eraseDups := by
  induction l with
  | nil => rfl
  | cons a rest ih =>
    have hrepeat := congrArg List.eraseDups (filter_flatMap_filter a rest.eraseDups f)
    rw [eraseDups_filter, eraseDups_filter, ih] at hrepeat
    rw [eraseDups_cons_eq, List.flatMap_cons, List.flatMap_cons, eraseDups_append_eq,
      eraseDups_append_eq, hrepeat]

/-- Items that were there before add no first occurrences. -/
theorem eraseDups_append_of_subset {l m : List α} (h : m ⊆ l) :
    (l ++ m).eraseDups = l.eraseDups := by
  have hnone : m.eraseDups.filter (fun b => !l.contains b) = [] := by
    refine List.filter_eq_nil_iff.mpr fun b hb => ?_
    simpa using h (List.mem_eraseDups.mp hb)
  rw [eraseDups_append_eq, hnone, List.append_nil]

/-- A list that repeats its beginning in front has the same first occurrences. -/
theorem eraseDups_append_append_self (l m : List α) :
    (l ++ (l ++ m)).eraseDups = (l ++ m).eraseDups := by
  rw [← List.append_assoc, eraseDups_append_eq (l ++ l), eraseDups_append_eq l m,
    eraseDups_append_of_subset (List.Subset.refl l)]
  simp

/-- Let one item of a list without repetitions stand for the whole list again, and every other item
for itself: this adds nothing but repetitions. -/
theorem eraseDups_flatMap_of_fixed {l : List α} (hnodup : l.Nodup) {f : α → List α} {a : α}
    (ha : f a = l) (hfixed : ∀ b ∈ l, f b = [b] ∨ b = a) : (l.flatMap f).eraseDups = l := by
  have hself : ∀ m : List α, m ⊆ l → a ∉ m → m.flatMap f = m := by
    intro m hm hnot
    have hsingle : ∀ b ∈ m, f b = [b] := fun b hb =>
      (hfixed b (hm hb)).resolve_right fun heq => hnot (heq ▸ hb)
    rw [List.flatMap_congr hsingle, List.flatMap_singleton']
  by_cases hmem : a ∈ l
  · obtain ⟨front, back, rfl⟩ := List.append_of_mem hmem
    obtain ⟨-, hback, hdistinct⟩ := List.nodup_append.mp hnodup
    have hfront : a ∉ front := fun h => hdistinct a h a List.mem_cons_self rfl
    have hsubset : back ⊆ front ++ a :: back := fun b hb => by simp [hb]
    rw [List.flatMap_append, List.flatMap_cons, ha, hself front (by simp) hfront,
      hself back hsubset (List.nodup_cons.mp hback).1, List.append_assoc front,
      eraseDups_append_append_self, ← List.append_assoc, eraseDups_append_of_subset hsubset,
      eraseDups_of_nodup hnodup]
  · rw [hself l (List.Subset.refl l) hmem, eraseDups_of_nodup hnodup]

end FirstOccurrences

/-- On canonical specs the distinct ones are the first occurrences. -/
theorem distinct_eq_eraseDups {specs : List ImportSpec} (h : ∀ s ∈ specs, s.Canonical) :
    distinct specs = specs.eraseDups := by
  induction specs with
  | nil => rfl
  | cons s rest ih =>
    have hrest : ∀ x ∈ rest, x.Canonical := fun x hx => h x (List.mem_cons_of_mem s hx)
    rw [distinct, ih hrest, eraseDups_cons_eq]
    congr 1
    refine List.filter_congr fun x hx => ?_
    have hx := hrest x (List.mem_eraseDups.mp hx)
    have hkey := (h s List.mem_cons_self).sameKey_iff hx
    rw [Bool.not_inj_iff, Bool.eq_iff_iff, hkey, beq_iff_eq, eq_comm]

end ImportMigration
