import ImportMigration.Proofs.PathOrder
import ImportMigration.Proofs.SearchPaths

/-! # What a search selects

A pattern of names with `**` before each selects the files whose names from a directory down contain
a match for each of them in order, the last one matching the last name. A search finds a file in
every way in which its names do, and it comes to an end if it can list every directory.

* `Glob.exists_mapM_flatten`: several searches together.
* `Glob.deep`, `Glob.LeadsBy`: such a pattern, and the names that it stands for.
* `Glob.CanList`: whether a search can list all directories below an entry.
* `Glob.exists_expand?_deep`: what the pattern leads to from an entry.
* `Tree.Searchable`: whether a search below a path can list all directories there.
* `Tree.WellFormed.exists_glob?`: which files a search below a path selects.
* `Glob.matchesWhole_run_exactly`: a name matches `*` and some text if it ends in the text. -/

namespace ImportMigration

namespace Glob

/-! ## Several searches -/

section Several

variable {α β : Type*} {f : α → Option β} {xs : List α}

/-- Searches for several items come to an end if each of them does. -/
theorem exists_mapM_eq_some (h : ∀ x ∈ xs, ∃ y, f x = some y) : ∃ ys, xs.mapM f = some ys := by
  induction xs with
  | nil => exact ⟨[], rfl⟩
  | cons x rest ih =>
    obtain ⟨⟨y, hy⟩, hrest⟩ := List.forall_mem_cons.mp h
    obtain ⟨ys, hys⟩ := ih hrest
    exact ⟨y :: ys, by rw [List.mapM_cons, hy, hys]; rfl⟩

/-- Searches for several items fail with any one of them. -/
theorem mapM_eq_none {x : α} (hx : x ∈ xs) (h : f x = none) : xs.mapM f = none := by
  rw [Option.eq_none_iff_forall_ne_some]
  intro ys hys
  have hmem : f x ∈ ys.map some := map_eq_of_mapM_eq_some hys ▸ List.mem_map_of_mem hx
  rw [h] at hmem
  simp at hmem

/-- What several searches give for one item is what its search gives. -/
theorem getElem?_of_map_eq {ys : List β} (h : xs.map f = ys.map some) {i : Nat} {x : α}
    (hx : xs[i]? = some x) : ∃ y, ys[i]? = some y ∧ f x = some y := by
  have hat := congrArg (·[i]?) h
  simp only [List.getElem?_map, hx, Option.map_some] at hat
  obtain ⟨y, hy, hfound⟩ := Option.map_eq_some_iff.mp hat.symm
  exact ⟨y, hy, hfound.symm⟩

/-- Searches that come to an end one by one do so together. -/
theorem mapM_eq_some_map {g : α → β} (h : ∀ x ∈ xs, f x = some (g x)) :
    xs.mapM f = some (xs.map g) := by
  obtain ⟨ys, hys⟩ := exists_mapM_eq_some fun x hx => ⟨_, h x hx⟩
  have hmap : ys.map some = (xs.map g).map some := by
    rw [← map_eq_of_mapM_eq_some hys, List.map_map]
    exact List.map_congr_left h
  rw [hys, List.map_injective_iff.mpr (fun _ _ => Option.some.inj) hmap]

/-- **Searches for several items** together find what each of them finds. -/
theorem exists_mapM_flatten {γ : Type*} {f : α → Option (List γ)} {xs : List α}
    {found : α → γ → Prop} (h : ∀ x ∈ xs, ∃ ys, f x = some ys ∧ ∀ y, y ∈ ys ↔ found x y) :
    ∃ lists, xs.mapM f = some lists ∧ ∀ y, y ∈ lists.flatten ↔ ∃ x ∈ xs, found x y := by
  obtain ⟨lists, hlists⟩ := exists_mapM_eq_some fun x hx => (h x hx).imp fun _ => And.left
  have hmap := map_eq_of_mapM_eq_some hlists
  refine ⟨lists, hlists, fun y => ?_⟩
  rw [List.mem_flatten]
  constructor
  · rintro ⟨ys, hys, hy⟩
    obtain ⟨x, hx, hfound⟩ := (mem_of_map_eq hmap).mp hys
    obtain ⟨ys', hfound', hmem⟩ := h x hx
    obtain rfl := Option.some.inj (hfound.symm.trans hfound')
    exact ⟨x, hx, (hmem y).mp hy⟩
  · rintro ⟨x, hx, hy⟩
    obtain ⟨ys, hfound, hmem⟩ := h x hx
    exact ⟨ys, (mem_of_map_eq hmap).mpr ⟨x, hx, hfound⟩, (hmem y).mpr hy⟩

end Several

/-! ## Patterns at any depth -/

/-- A pattern of names with any number of directories before each. -/
def deep (pieces : List Piece) : List Piece := pieces.flatMap fun piece => [.anyDepth, piece]

/-- Whether names are matched by pieces in order, with other names before each but none behind the
last. -/
def LeadsBy : List Piece → List String → Prop
  | [], names => names = []
  | piece :: rest, names => ∃ above name below,
      names = above ++ name :: below ∧ piece.matchesName name = true ∧ LeadsBy rest below

/-- A pattern of names is not matched by none. -/
theorem LeadsBy.ne_nil {pieces : List Piece} {names : List String} (h : LeadsBy pieces names)
    (hne : pieces ≠ []) : names ≠ [] := by
  obtain ⟨piece, rest, rfl⟩ := List.exists_cons_of_ne_nil hne
  obtain ⟨above, name, below, rfl, -⟩ := h
  simp

/-- One piece matches the last name, whatever stands before it. -/
theorem leadsBy_singleton {piece : Piece} {names : List String} :
    LeadsBy [piece] names ↔ names.getLast?.any piece.matchesName = true := by
  constructor
  · rintro ⟨above, name, below, rfl, hmatch, rfl⟩
    simpa using hmatch
  · intro h
    rcases List.eq_nil_or_concat' names with rfl | ⟨above, name, rfl⟩
    · cases h
    · exact ⟨above, name, [], rfl, by simpa using h, rfl⟩

/-- Whether each directory at or below an entry can be listed by its path. -/
def CanList (t : Tree) (e : Entry) : Prop :=
  ∀ names, t.isDirAt (e.place ++ names) = true → (descend e.path names).isUsable = true

/-- The entry below another by some names. -/
def Entry.down (e : Entry) (names : List String) : Entry :=
  ⟨descend e.path names, e.place ++ names⟩

/-- What can be listed can be listed from further down. -/
theorem CanList.down {t : Tree} {e : Entry} (h : CanList t e) (names : List String) :
    CanList t (e.down names) := by
  intro others hdir
  rw [Entry.down, List.append_assoc] at hdir
  rw [Entry.down, ← descend_append]
  exact h _ hdir

section Search

variable {t : Tree} (hw : t.WellFormed)

include hw

/-- **What stands below an entry** is found by the names that lead to it. -/
theorem exists_descendants? {e : Entry} (h : CanList t e) :
    ∃ found, descendants? t e = some found ∧ ∀ x, x ∈ found ↔
      ∃ names, names ≠ [] ∧ (t.node? (e.place ++ names)).isSome = true ∧ x = e.down names := by
  rw [descendants?]
  by_cases hdir : t.isDirAt e.place = true
  · have huse : e.path.isUsable = true := h [] (by simpa using hdir)
    have hfound : ∀ x ∈ t.nodesBelow e.place,
        (let path := below e.path ("/".intercalate x.1)
          if x.2 == .directory && !path.isUsable then none
          else some (⟨path, e.place ++ x.1⟩ : Entry)) = some (e.down x.1) := by
      rintro ⟨names, node⟩ hx
      obtain ⟨hne, hnode⟩ := hw.mem_under_iff.mp (Tree.mem_nodesBelow.mp hx)
      have hpath := below_intercalate e.path hne (hw.isNodeName_of_node? hnode)
      simp only [hpath]
      rw [if_neg]
      · rfl
      · rw [Bool.and_eq_true, beq_iff_eq, not_and]
        rintro rfl
        simp [h names (by simp [Tree.isDirAt, hnode])]
    refine ⟨(t.nodesBelow e.place).map fun x => e.down x.1,
      by simpa [hdir, huse] using mapM_eq_some_map hfound, fun x => ?_⟩
    rw [List.mem_map]
    constructor
    · rintro ⟨⟨names, node⟩, hx, rfl⟩
      obtain ⟨hne, hnode⟩ := hw.mem_under_iff.mp (Tree.mem_nodesBelow.mp hx)
      exact ⟨names, hne, by simp [hnode], rfl⟩
    · rintro ⟨names, hne, hsome, rfl⟩
      obtain ⟨node, hnode⟩ := Option.isSome_iff_exists.mp hsome
      exact ⟨_, Tree.mem_nodesBelow.mpr (hw.mem_under_iff.mpr ⟨hne, hnode⟩), rfl⟩
  · refine ⟨[], by simp [hdir], fun x => iff_of_false (by simp) ?_⟩
    rintro ⟨names, hne, hsome, -⟩
    obtain ⟨node, hnode⟩ := Option.isSome_iff_exists.mp hsome
    exact absurd (hw.isDirAt_of_node? hnode hne) hdir

/-- A directory that cannot be listed by its path fails every search above it. -/
theorem descendants?_eq_none {e : Entry} {names : List String} (hne : names ≠ [])
    (hdir : t.isDirAt (e.place ++ names) = true) (huse : (descend e.path names).isUsable = false) :
    descendants? t e = none := by
  have hnode : t.node? (e.place ++ names) = some .directory := by simpa [Tree.isDirAt] using hdir
  have hx := Tree.mem_nodesBelow.mpr (hw.mem_under_iff.mpr ⟨hne, hnode⟩)
  rw [descendants?, if_neg (by simp [hw.isDirAt_of_node? hnode hne])]
  split_ifs
  · rfl
  · refine mapM_eq_none hx ?_
    simp [below_intercalate e.path hne (hw.isNodeName_of_node? hnode), huse]

/-- **What a pattern leads to from an entry** is all below it whose names are matched in order. -/
theorem exists_expand?_deep (pieces : List Piece) {e : Entry}
    (hnode : (t.node? e.place).isSome = true) (hlist : CanList t e) :
    ∃ found, expand? t (deep pieces) e = some found ∧ ∀ p, p ∈ found ↔
      ∃ names, (t.node? (e.place ++ names)).isSome = true ∧ LeadsBy pieces names ∧
        p = descend e.path names := by
  induction pieces generalizing e with
  | nil =>
    refine ⟨[e.path], rfl, fun p => ?_⟩
    simp [LeadsBy, hnode]
  | cons piece rest ih =>
    obtain ⟨below, hbelow, hmem⟩ := exists_descendants? hw hlist
    have hnamed : ∀ x, x ∈ below.filter (·.isNamedBy piece) ↔ ∃ above name,
        piece.matchesName name = true ∧
          (t.node? (e.place ++ (above ++ [name]))).isSome = true ∧
            x = e.down (above ++ [name]) := by
      intro x
      have hlast : ∀ above name, (e.down (above ++ [name])).isNamedBy piece =
          piece.matchesName name := by
        intro above name
        rw [Entry.isNamedBy, Entry.down, ← List.append_assoc, List.getLast?_concat, Option.any_some]
      rw [List.mem_filter, hmem]
      constructor
      · rintro ⟨⟨names, hne, hsome, rfl⟩, hmatch⟩
        obtain ⟨above, name, rfl⟩ := (List.eq_nil_or_concat' names).resolve_left hne
        exact ⟨above, name, by rwa [hlast] at hmatch, hsome, rfl⟩
      · rintro ⟨above, name, hmatch, hsome, rfl⟩
        exact ⟨⟨_, by simp, hsome, rfl⟩, by rwa [hlast]⟩
    have hrest : ∀ x ∈ below.filter (·.isNamedBy piece), ∃ found,
        expand? t (deep rest) x = some found ∧ ∀ p, p ∈ found ↔ ∃ names,
          (t.node? (x.place ++ names)).isSome = true ∧ LeadsBy rest names ∧
            p = descend x.path names := by
      intro x hx
      obtain ⟨above, name, -, hsome, rfl⟩ := (hnamed x).mp hx
      exact ih hsome (hlist.down _)
    obtain ⟨lists, hlists, hmem'⟩ := exists_mapM_flatten hrest
    refine ⟨lists.flatten, ?_, fun p => (hmem' p).trans ?_⟩
    · have hdeep : deep (piece :: rest) = .anyDepth :: piece :: deep rest := rfl
      rw [hdeep, expand?, hbelow]
      simp only [hlists, Option.map_some]
    · constructor
      · -- A path found behind a match is found behind names that start with the match.
        rintro ⟨x, hx, names, hsome, hleads, rfl⟩
        obtain ⟨above, name, hmatch, -, rfl⟩ := (hnamed x).mp hx
        refine ⟨above ++ name :: names, ?_, ⟨above, name, names, rfl, hmatch, hleads⟩, ?_⟩
        · simpa [Entry.down] using hsome
        · simp [Entry.down, ← descend_append]
      · rintro ⟨names, hsome, ⟨above, name, others, rfl, hmatch, hleads⟩, rfl⟩
        have hthere : (t.node? (e.place ++ (above ++ [name]))).isSome = true :=
          hw.node?_isSome_of_append (by simpa using hsome)
        refine ⟨_, (hnamed _).mpr ⟨above, name, hmatch, hthere, rfl⟩, others, ?_, hleads, ?_⟩
        · simpa [Entry.down] using hsome
        · simp [Entry.down, ← descend_append]

end Search

/-- A name is matched by `*` and some text if it ends in the text. -/
theorem matchesWhole_run_exactly (text name : List Char) :
    matchesWhole (.run :: text.map .exactly) name = true ↔ text <:+ name := by
  have hends : ∀ l e : List Char, e ∈ ends l ↔ e <:+ l := by
    intro l e
    induction l with
    | nil => simp [ends]
    | cons c rest ih => rw [ends, List.mem_cons, ih, List.suffix_cons_iff]
  have hexactly : ∀ l e : List Char, matchName (l.map .exactly) e = true ↔ e = l := by
    intro l e
    induction l generalizing e with
    | nil => simp [matchName]
    | cons c rest ih =>
      cases e with
      | nil => simp [matchName]
      | cons d e =>
        simp only [List.map_cons, matchName, Token.accepts, Bool.and_eq_true, beq_iff_eq, ih,
          List.cons.injEq]
        exact and_congr_left' eq_comm
  rw [matchesWhole_eq_matchName, matchName, List.any_eq_true]
  constructor
  · rintro ⟨e, he, hmatch⟩
    exact (hexactly text e).mp hmatch ▸ (hends name e).mp he
  · intro h
    exact ⟨text, (hends name text).mpr h, (hexactly text text).mpr rfl⟩

end Glob

namespace Tree

/-- Whether a search below a path can list each directory there. -/
def Searchable (t : Tree) (base : Path) : Prop :=
  ∀ place ∈ t.locate? base, ∀ x ∈ t.under place, x.2 = .directory →
    (Glob.descend (Glob.respell base) x.1).isUsable = true

instance (t : Tree) (base : Path) : Decidable (t.Searchable base) :=
  inferInstanceAs (Decidable (∀ place ∈ t.locate? base, ∀ x ∈ t.under place, _))

section Selection

variable {t : Tree} (hw : t.WellFormed) {base : Path} {place : Location}
  (hloc : t.locate? base = some place)

include hw hloc

/-- What is found below a path is a file if one stands there and its path can be used. -/
theorem isFile_descend_iff {names : List String} (hne : names ≠ [])
    (hthere : (t.node? (place ++ names)).isSome = true) :
    t.isFile (Glob.descend (Glob.respell base) names) = true ↔
      (Glob.descend (Glob.respell base) names).isUsable = true ∧
        ∃ content, t.node? (place ++ names) = some (.file content) := by
  obtain ⟨node, hnode⟩ := Option.isSome_iff_exists.mp hthere
  rw [isFile, lookup?]
  by_cases huse : (Glob.descend (Glob.respell base) names).isUsable = true
  · rw [hw.locate?_descend hloc hne hnode huse, Option.bind_some, hnode]
    cases node <;> simp [huse]
  · have hnone : t.locate? (Glob.descend (Glob.respell base) names) = none := by
      simp [locate?, huse]
    simp [hnone, huse]

omit hloc in
/-- **A search fails if it comes upon a directory that it cannot list.** -/
theorem glob?_eq_none (hway : Glob.strays base = false) (hsearch : ¬t.Searchable base)
    {pattern : List Char} {pieces : List Glob.Piece}
    (hpattern : Glob.readPath? pattern = some (Glob.deep pieces)) (hne : pieces ≠ []) :
    t.isDir base = true ∧ t.glob? base pattern = none := by
  obtain ⟨place, hloc, names, hbelow, huse⟩ : ∃ place, t.locate? base = some place ∧
      ∃ names, (names, .directory) ∈ t.under place ∧
        (Glob.descend (Glob.respell base) names).isUsable = false := by
    simp only [Searchable, not_forall] at hsearch
    obtain ⟨place, hloc, ⟨names, node⟩, hx, hnode, huse⟩ := hsearch
    obtain rfl : node = .directory := hnode
    exact ⟨place, hloc, names, hx, by simpa using huse⟩
  obtain ⟨hnames, hnode⟩ := hw.mem_under_iff.mp hbelow
  have hdir := hw.isDirAt_of_node? hnode hnames
  refine ⟨isDir_iff.mpr ⟨place, hloc, hdir⟩, ?_⟩
  obtain ⟨piece, rest, rfl⟩ := List.exists_cons_of_ne_nil hne
  obtain ⟨start, hstart, hexpand⟩ := Glob.expand?_origin hloc hdir hway
    (Glob.deep (piece :: rest))
  have hfails : Glob.expand? t (Glob.deep (piece :: rest)) ⟨Glob.respell base, place⟩ = none := by
    have hdeep : Glob.deep (piece :: rest) = .anyDepth :: piece :: Glob.deep rest := rfl
    have hlist : Glob.descendants? t ⟨Glob.respell base, place⟩ = none :=
      Glob.descendants?_eq_none hw hnames (by simp [isDirAt, hnode]) huse
    rw [hdeep, Glob.expand?, hlist]
  rw [glob?, hpattern]
  simp only [hstart, hexpand, hfails, Option.map_none]

variable (hdir : t.isDirAt place = true)

include hdir

/-- A path that does not lose its way can be listed itself, so all below it can. -/
theorem Searchable.canList (hsearch : t.Searchable base) (hway : Glob.strays base = false) :
    Glob.CanList t ⟨Glob.respell base, place⟩ := by
  intro names hnames
  by_cases hne : names = []
  · obtain ⟨l, hentry, -⟩ := Glob.exists_entryAt?_descend_startPath hloc hdir hway
      (List.append_nil (Glob.literalNames base))
    rw [hne, Glob.descend_nil]
    exact (locate?_eq_some_iff.mp (Glob.locate?_of_entryAt? hentry)).1
  · refine hsearch place hloc (names, .directory) (hw.mem_under_iff.mpr ⟨hne, ?_⟩) rfl
    simpa [isDirAt] using hnames

/-- **Which files a search below a path selects.** Unless it loses its way, it selects those whose
names are matched in order and whose paths can be used. -/
theorem exists_glob? (hsearch : Glob.strays base = false → t.Searchable base)
    {pattern : List Char} {pieces : List Glob.Piece}
    (hpattern : Glob.readPath? pattern = some (Glob.deep pieces)) (hne : pieces ≠ [])
    (hfiles : Glob.wantsDirectory pattern = false) :
    ∃ found, t.glob? base pattern = some found ∧
      (found.Pairwise fun p q => (p.order q).isLE = true) ∧
      ∀ p, p ∈ found ↔ Glob.strays base = false ∧ ∃ names content, Glob.LeadsBy pieces names ∧
        t.node? (place ++ names) = some (.file content) ∧
          p = Glob.descend (Glob.respell base) names ∧ p.isUsable = true := by
  rw [glob?, hpattern]
  simp only
  by_cases hway : Glob.strays base = true
  · refine ⟨[], ?_, List.Pairwise.nil, fun p => by simp [hway]⟩
    split
    · rfl
    · rename_i start hstart
      rw [Glob.expand?_origin_of_strays hway hstart]
      simp
  · rw [Bool.not_eq_true] at hway
    have hnode : (t.node? place).isSome = true := by
      rw [isDirAt, beq_iff_eq] at hdir
      rw [hdir]
      rfl
    obtain ⟨start, hstart, hexpand⟩ := Glob.expand?_origin hloc hdir hway (Glob.deep pieces)
    obtain ⟨paths, hpaths, hmem⟩ := Glob.exists_expand?_deep hw pieces
      (e := ⟨Glob.respell base, place⟩) hnode ((hsearch hway).canList hw hloc hdir hway)
    rw [hstart]
    simp only [hexpand, hpaths, hfiles, Option.map_some, Bool.false_eq_true, if_false]
    refine ⟨_, rfl, Path.pairwise_mergeSort _, fun p => ?_⟩
    rw [List.mem_mergeSort, List.mem_filter, hmem]
    constructor
    · rintro ⟨⟨names, hthere, hleads, rfl⟩, hfile⟩
      obtain ⟨huse, content, hcontent⟩ :=
        (isFile_descend_iff hw hloc (hleads.ne_nil hne) hthere).mp hfile
      exact ⟨hway, names, content, hleads, hcontent, rfl, huse⟩
    · rintro ⟨-, names, content, hleads, hcontent, rfl, huse⟩
      have hthere : (t.node? (place ++ names)).isSome = true := by
        rw [hcontent]
        rfl
      exact ⟨⟨names, hthere, hleads, rfl⟩,
        (isFile_descend_iff hw hloc (hleads.ne_nil hne) hthere).mpr ⟨huse, content, hcontent⟩⟩

end Selection

end Tree

end ImportMigration
