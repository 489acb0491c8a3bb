import ImportMigration.Discovery
import Mathlib.Data.List.Sort

/-! # The order of paths

Paths are compared by their components, so two spellings of one path come as equals. Several lists
are read without repeats by going through them with the paths seen so far.

* `Path.order_eq_iff_same`: equals in the order are the same path.
* `Path.pairwise_mergeSort`, `Path.pairwise_lt`: sorted lists, and sorted lists without repeats.
* `Path.pairwise_dropRepeated`, `Path.exists_same_dropRepeated_iff`: a sorted list without its
  repeats increases and holds the same paths.
* `Path.map_components_eq`: increasing lists of the same paths are the same.
* `Path.firstSeen`: what each of several lists adds to those before it.
* `Path.eraseDupsBy_flatten`, `Path.mem_firstSeen_iff`: together this is all without repeats, and
  each part can be told from its list and those before it. -/

namespace ImportMigration

namespace Component

instance : Std.TransCmp order := inferInstanceAs (Std.TransCmp (compareLex _ _))

/-- Components are told apart by their kinds and names. -/
theorem eq_of_rank_eq {a b : Component} (hrank : a.rank = b.rank) (hlabel : a.label = b.label) :
    a = b := by
  cases a <;> cases b <;> simp_all [rank, label, String.toList_inj]

instance : Std.LawfulEqCmp order where
  eq_of_compare {a b} h := by
    obtain ⟨hrank, hlabel⟩ := Ordering.then_eq_eq.mp h
    exact eq_of_rank_eq (Std.compare_eq_iff_eq.mp hrank) (Std.compare_eq_iff_eq.mp hlabel)

end Component

namespace Path

instance : Std.TransCmp order :=
  have horder : Std.TransCmp (List.compareLex Component.order) := inferInstance
  { eq_swap := horder.eq_swap, isLE_trans := horder.isLE_trans }

/-- Paths are the same if their components are. -/
theorem same_iff {p q : Path} : p.same q = true ↔ p.components = q.components := by
  rw [same, beq_iff_eq]

/-- **Equals in the order are the same path.** -/
theorem order_eq_iff_same {p q : Path} : p.order q = .eq ↔ p.same q = true := by
  rw [same_iff, order, Std.LawfulEqCmp.compare_eq_iff_eq]

/-! ## Sorted lists -/

/-- A sorted list of paths is in order. -/
theorem pairwise_mergeSort (paths : List Path) :
    (paths.mergeSort fun p q => (p.order q).isLE).Pairwise fun p q => (p.order q).isLE = true := by
  refine List.pairwise_mergeSort (fun p q r => Std.TransCmp.isLE_trans) (fun p q => ?_) paths
  have hswap : q.order p = (p.order q).swap := Std.OrientedCmp.eq_swap
  rw [hswap]
  cases p.order q <;> rfl

/-- Of two paths in order that are not the same the first comes before the other. -/
theorem order_eq_lt {p q : Path} (hle : (p.order q).isLE = true) (hne : ¬p.same q = true) :
    p.order q = .lt := by
  cases horder : p.order q with
  | lt => rfl
  | eq => exact absurd (order_eq_iff_same.mp horder) hne
  | gt =>
    rw [horder] at hle
    cases hle

/-- A list in order without repeats increases. -/
theorem pairwise_lt {paths : List Path} (hle : paths.Pairwise fun p q => (p.order q).isLE = true)
    (hsame : paths.Pairwise fun p q => p.same q = false) :
    paths.Pairwise fun p q => p.order q = .lt :=
  (hle.and hsame).imp fun ⟨hle, hsame⟩ => order_eq_lt hle (by simp [hsame])

/-- Only the components of a path count for its place in the order. -/
theorem order_congr {p q : Path} (h : p.same q = true) (r : Path) : p.order r = q.order r := by
  rw [order, order, same_iff.mp h]

/-- **Increasing lists of the same paths are the same**, component by component. -/
theorem map_components_eq {paths others : List Path}
    (h : paths.Pairwise fun p q => p.order q = .lt)
    (h' : others.Pairwise fun p q => p.order q = .lt)
    (hmem : ∀ p, (∃ q ∈ paths, q.same p = true) ↔ ∃ q ∈ others, q.same p = true) :
    paths.map components = others.map components := by
  let below (a b : List Component) : Prop := List.compareLex Component.order a b = .lt
  have hirrefl : Std.Irrefl below := ⟨fun a (ha : List.compareLex Component.order a a = .lt) => by
    have heq : List.compareLex Component.order a a = .eq := Std.ReflCmp.compare_self
    exact absurd (heq.symm.trans ha) (by decide)⟩
  have hantisymm : Std.Antisymm below := ⟨fun a b hab hba => by
    have hgt : List.compareLex Component.order b a = .gt := Std.OrientedCmp.gt_of_lt hab
    exact absurd (hgt.symm.trans hba) (by decide)⟩
  refine List.Pairwise.eq_of_mem_iff (r := below) (List.pairwise_map.mpr h)
    (List.pairwise_map.mpr h') fun c => ?_
  rw [List.mem_map, List.mem_map]
  constructor
  · rintro ⟨p, hp, rfl⟩
    obtain ⟨q, hq, hsame⟩ := (hmem p).mp ⟨p, hp, same_iff.mpr rfl⟩
    exact ⟨q, hq, same_iff.mp hsame⟩
  · rintro ⟨p, hp, rfl⟩
    obtain ⟨q, hq, hsame⟩ := (hmem p).mpr ⟨p, hp, same_iff.mpr rfl⟩
    exact ⟨q, hq, same_iff.mp hsame⟩

/-! ## Neighbours that repeat each other -/

/-- Without repetitions a list has no other paths. -/
theorem mem_of_mem_dropRepeated {p : Path} {paths : List Path} (h : p ∈ dropRepeated paths) :
    p ∈ paths := by
  induction paths with
  | nil => cases h
  | cons q rest ih =>
    rw [dropRepeated] at h
    split at h
    · rename_i hnil
      exact List.mem_cons.mpr (Or.inl (List.mem_singleton.mp h))
    · rename_i first others hothers
      rw [hothers] at ih
      split_ifs at h
      · rcases List.mem_cons.mp h with rfl | h
        · exact List.mem_cons_self
        · exact List.mem_cons_of_mem q (ih (List.mem_cons_of_mem first h))
      · rcases List.mem_cons.mp h with rfl | h
        · exact List.mem_cons_self
        · exact List.mem_cons_of_mem q (ih h)

/-- Dropping repetitions keeps every path in one of its spellings. -/
theorem exists_same_dropRepeated_iff {paths : List Path} {p : Path} :
    (∃ q ∈ dropRepeated paths, q.same p = true) ↔ ∃ q ∈ paths, q.same p = true := by
  constructor
  · rintro ⟨q, hq, hsame⟩
    exact ⟨q, mem_of_mem_dropRepeated hq, hsame⟩
  · rintro ⟨q, hq, hsame⟩
    induction paths with
    | nil => cases hq
    | cons first rest ih =>
      rw [dropRepeated]
      split
      · rename_i hnil
        rcases List.mem_cons.mp hq with rfl | hq
        · exact ⟨q, List.mem_cons_self, hsame⟩
        · obtain ⟨x, hx, -⟩ := ih hq
          rw [hnil] at hx
          cases hx
      · rename_i second others hothers
        rw [hothers] at ih
        split_ifs with hrepeat
        · -- The second path is dropped, and the first stands for it.
          rcases List.mem_cons.mp hq with rfl | hq
          · exact ⟨q, List.mem_cons_self, hsame⟩
          · obtain ⟨x, hx, hxp⟩ := ih hq
            rcases List.mem_cons.mp hx with rfl | hx
            · exact ⟨first, List.mem_cons_self,
                same_iff.mpr ((same_iff.mp hrepeat).trans (same_iff.mp hxp))⟩
            · exact ⟨x, List.mem_cons_of_mem first hx, hxp⟩
        · rcases List.mem_cons.mp hq with rfl | hq
          · exact ⟨q, List.mem_cons_self, hsame⟩
          · obtain ⟨x, hx, hxp⟩ := ih hq
            exact ⟨x, List.mem_cons_of_mem first hx, hxp⟩

/-- **A sorted list without its repetitions increases.** -/
theorem pairwise_dropRepeated {paths : List Path}
    (h : paths.Pairwise fun p q => (p.order q).isLE = true) :
    (dropRepeated paths).Pairwise fun p q => p.order q = .lt := by
  induction paths with
  | nil => exact List.Pairwise.nil
  | cons first rest ih =>
    obtain ⟨hfirst, hrest⟩ := List.pairwise_cons.mp h
    have hlt := ih hrest
    rw [dropRepeated]
    split
    · exact List.pairwise_singleton _ _
    · rename_i second others hothers
      rw [hothers] at hlt
      obtain ⟨hsecond, hother⟩ := List.pairwise_cons.mp hlt
      split_ifs with hrepeat
      · refine List.pairwise_cons.mpr ⟨fun x hx => ?_, hother⟩
        rw [order_congr hrepeat]
        exact hsecond x hx
      · have hmem : second ∈ rest :=
          mem_of_mem_dropRepeated (hothers ▸ List.mem_cons_self)
        have hbefore := order_eq_lt (hfirst second hmem) hrepeat
        refine List.pairwise_cons.mpr ⟨fun x hx => ?_, hlt⟩
        rcases List.mem_cons.mp hx with rfl | hx
        · exact hbefore
        · exact Std.TransCmp.lt_trans hbefore (hsecond x hx)

/-! ## Lists without repeats -/

/-- Whether a path is none of a list, whatever its spelling. -/
def isNew (seen : List Path) (p : Path) : Bool := !seen.any p.same

/-- A path is new if it is the same as none of the list. -/
theorem isNew_iff {seen : List Path} {p : Path} :
    isNew seen p = true ↔ ∀ q ∈ seen, p.same q = false := by
  simp [isNew]

/-- The first of a list stays, and its repeats go. -/
theorem eraseDupsBy_cons (p : Path) (rest : List Path) :
    (p :: rest).eraseDupsBy same = p :: (rest.filter (isNew [p])).eraseDupsBy same := by
  rw [List.eraseDupsBy_cons]
  congr 2
  exact List.filter_congr fun q _ => by simp [isNew]

/-- A list without repeats is part of the list. -/
theorem eraseDupsBy_sublist : ∀ paths : List Path, (paths.eraseDupsBy same).Sublist paths
  | [] => List.nil_sublist _
  | p :: rest => by
    rw [eraseDupsBy_cons]
    exact ((eraseDupsBy_sublist _).trans List.filter_sublist).cons_cons p
termination_by paths => paths.length
decreasing_by exact Nat.lt_succ_of_le (List.length_filter_le _ _)

/-- A list without repeats has none. -/
theorem pairwise_eraseDupsBy :
    ∀ paths : List Path, (paths.eraseDupsBy same).Pairwise fun p q => p.same q = false
  | [] => List.Pairwise.nil
  | p :: rest => by
    rw [eraseDupsBy_cons, List.pairwise_cons]
    refine ⟨fun q hq => ?_, pairwise_eraseDupsBy _⟩
    have hnew := (List.mem_filter.mp ((eraseDupsBy_sublist _).subset hq)).2
    have hother := isNew_iff.mp hnew p List.mem_cons_self
    rw [Bool.eq_false_iff, ne_eq, same_iff] at hother ⊢
    exact fun h => hother h.symm
termination_by paths => paths.length
decreasing_by exact Nat.lt_succ_of_le (List.length_filter_le _ _)

/-- Where one spelling stands for each path nothing is a repeat. -/
theorem mem_eraseDupsBy_iff : ∀ {paths : List Path},
    (∀ p ∈ paths, ∀ q ∈ paths, p.same q = true → p = q) →
      ∀ p, p ∈ paths.eraseDupsBy same ↔ p ∈ paths
  | [], _, p => by simp
  | first :: rest, h, p => by
    have hrest : p ∈ (rest.filter (isNew [first])).eraseDupsBy same ↔
        p ∈ rest.filter (isNew [first]) :=
      mem_eraseDupsBy_iff (fun a ha b hb => h a (List.mem_cons_of_mem first
        (List.mem_of_mem_filter ha)) b (List.mem_cons_of_mem first (List.mem_of_mem_filter hb))) p
    rw [eraseDupsBy_cons, List.mem_cons, List.mem_cons, hrest, List.mem_filter]
    refine ⟨fun hp => hp.imp_right And.left, fun hp => or_iff_not_imp_left.mpr fun hne => ?_⟩
    refine ⟨hp.resolve_left hne, isNew_iff.mpr fun q hq => ?_⟩
    obtain rfl := List.mem_singleton.mp hq
    rw [Bool.eq_false_iff]
    exact fun hsame => hne (h p (List.mem_cons.mpr hp) q List.mem_cons_self hsame)
termination_by paths => paths.length
decreasing_by exact Nat.lt_succ_of_le (List.length_filter_le _ _)

/-- **A list adds to another what is new to it.** -/
theorem eraseDupsBy_append : ∀ paths others : List Path,
    (paths ++ others).eraseDupsBy same =
      paths.eraseDupsBy same ++ (others.filter (isNew paths)).eraseDupsBy same
  | [], others => by
    have hall : others.filter (isNew []) = others := by simp [isNew]
    rw [hall]
    rfl
  | p :: rest, others => by
    have hnew : (others.filter (isNew [p])).filter (isNew (rest.filter (isNew [p]))) =
        others.filter (isNew (p :: rest)) := by
      rw [List.filter_filter]
      refine List.filter_congr fun q _ => ?_
      rw [Bool.eq_iff_iff, Bool.and_eq_true, isNew_iff, isNew_iff, isNew_iff,
        List.forall_mem_singleton, List.forall_mem_cons]
      refine ⟨fun ⟨hrest, hp⟩ => ⟨hp, fun x hx => ?_⟩, fun ⟨hp, hrest⟩ =>
        ⟨fun x hx => hrest x (List.mem_of_mem_filter hx), hp⟩⟩
      by_cases hsame : x.same p = true
      · -- A repeat of `p` is as new as `p` is.
        rw [Bool.eq_false_iff, ne_eq, same_iff] at hp ⊢
        exact fun hq => hp (hq.trans (same_iff.mp hsame))
      · refine hrest x (List.mem_filter.mpr ⟨hx, isNew_iff.mpr ?_⟩)
        simpa using hsame
    rw [List.cons_append, eraseDupsBy_cons, List.filter_append, eraseDupsBy_append, hnew,
      eraseDupsBy_cons, List.cons_append]
termination_by paths => paths.length
decreasing_by exact Nat.lt_succ_of_le (List.length_filter_le _ _)

/-- What each of several lists adds to the paths seen before it. -/
def firstSeen (seen : List Path) : List (List Path) → List (List Path)
  | [] => []
  | paths :: rest =>
    (paths.filter (isNew seen)).eraseDupsBy same :: firstSeen (seen ++ paths) rest

/-- Each list adds a part. -/
theorem length_firstSeen (seen : List Path) (lists : List (List Path)) :
    (firstSeen seen lists).length = lists.length := by
  induction lists generalizing seen with
  | nil => rfl
  | cons paths rest ih => rw [firstSeen, List.length_cons, List.length_cons, ih]

/-- What several lists add to the paths seen before them is what each of them adds. -/
theorem flatten_firstSeen (seen : List Path) (lists : List (List Path)) :
    (seen ++ lists.flatten).eraseDupsBy same =
      seen.eraseDupsBy same ++ (firstSeen seen lists).flatten := by
  induction lists generalizing seen with
  | nil => simp [firstSeen]
  | cons paths rest ih =>
    rw [List.flatten_cons, ← List.append_assoc, ih, eraseDupsBy_append, firstSeen,
      List.flatten_cons, List.append_assoc]

/-- Several lists without repeats are what each of them adds. -/
theorem eraseDupsBy_flatten (lists : List (List Path)) :
    lists.flatten.eraseDupsBy same = (firstSeen [] lists).flatten := by
  simpa using flatten_firstSeen [] lists

/-- What one of several lists adds is new to what was seen before them and to those before it. -/
theorem getElem?_firstSeen (seen : List Path) (lists : List (List Path)) (i : Nat) :
    (firstSeen seen lists)[i]? = lists[i]?.map fun paths =>
      (paths.filter (isNew (seen ++ (lists.take i).flatten))).eraseDupsBy same := by
  induction lists generalizing seen i with
  | nil => simp [firstSeen]
  | cons paths rest ih =>
    cases i with
    | zero => simp [firstSeen]
    | succ i => simp [firstSeen, ih]

/-- Lists in order add parts that increase. -/
theorem pairwise_of_mem_firstSeen {lists : List (List Path)}
    (h : ∀ paths ∈ lists, paths.Pairwise fun p q => (p.order q).isLE = true) {part : List Path}
    (hpart : part ∈ firstSeen [] lists) : part.Pairwise fun p q => p.order q = .lt := by
  obtain ⟨i, hi⟩ := List.mem_iff_getElem?.mp hpart
  rw [getElem?_firstSeen] at hi
  obtain ⟨paths, hpaths, rfl⟩ := Option.map_eq_some_iff.mp hi
  have hsub := (eraseDupsBy_sublist (paths.filter (isNew ([] ++ (lists.take i).flatten)))).trans
    List.filter_sublist
  exact pairwise_lt ((h paths (List.mem_of_getElem? hpaths)).sublist hsub)
    (pairwise_eraseDupsBy _)

/-- A list that has one spelling for each path adds those that no list before it has. -/
theorem mem_firstSeen_iff {lists : List (List Path)} {i : Nat} {paths part : List Path}
    (hpaths : lists[i]? = some paths) (hpart : (firstSeen [] lists)[i]? = some part)
    (hone : ∀ p ∈ paths, ∀ q ∈ paths, p.same q = true → p = q) (p : Path) :
    p ∈ part ↔ p ∈ paths ∧ ∀ others ∈ lists.take i, ∀ q ∈ others, p.same q = false := by
  rw [getElem?_firstSeen, hpaths, Option.map_some, List.nil_append] at hpart
  obtain rfl := Option.some.inj hpart
  rw [mem_eraseDupsBy_iff, List.mem_filter, isNew_iff]
  · simp only [List.mem_flatten, forall_exists_index, and_imp]
    exact and_congr_right fun _ => forall_comm.trans (forall_congr' fun _ => forall_comm)
  · exact fun a ha b hb => hone a (List.mem_of_mem_filter ha) b (List.mem_of_mem_filter hb)

end Path

end ImportMigration
