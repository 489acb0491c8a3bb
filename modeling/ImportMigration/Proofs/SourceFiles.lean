import ImportMigration.Proofs.Searches

/-! # Source files

The source files of a repository are looked for directory by directory and extension by extension.
However the directories overlap and whatever is repeated, the list that comes out holds each file
once, in path order, and depends only on which directories and extensions there are.

* `Glob.IsLiteral`, `Glob.readPath?_extensionPattern`: an extension without special characters, and
  the pattern of its files.
* `Glob.leading?_descend_respell`: paths that are found never start with `./`.
* `Tree.IsSourceBelow`: the source files below a directory.
* `Tree.Lists`: what a list of source files holds; `Tree.Lists.map_components_eq` says that there is
  one such list.
* `Tree.exists_filesBelow?`: what is found below one directory.
* `Tree.sourceFiles?_lists`: the source files of a repository.
* `Tree.sourceFiles?_misses_current`: the directory `./`, below which nothing is found. -/

namespace ImportMigration

namespace Glob

/-! ## The pattern of an extension -/

/-- Whether characters stand for themselves in a pattern of one name: none of them is a slash or a
character that patterns treat specially. -/
def IsLiteral (text : List Char) : Prop := ∀ c ∈ text, c ∉ ['?', '*', '[', ']', '/']

instance (text : List Char) : Decidable (IsLiteral text) := List.decidableBAll _ text

/-- Characters that stand for themselves are read as such. -/
theorem readTokens?_of_isLiteral {text : List Char} (h : IsLiteral text) {fuel : Nat}
    (hfuel : text.length ≤ fuel) : readTokens? fuel text = some (text.map .exactly) := by
  induction text generalizing fuel with
  | nil => cases fuel <;> rfl
  | cons c rest ih =>
    obtain ⟨hc, hrest⟩ := List.forall_mem_cons.mp h
    obtain ⟨n, rfl⟩ : ∃ n, fuel = n + 1 := ⟨fuel - 1, by simp at hfuel; omega⟩
    have hread := ih hrest (Nat.le_of_succ_le_succ hfuel)
    unfold readTokens?
    split
    · simp at hc
    · simp at hc
    · simp at hc
    · rw [hread]
      rfl

/-- The end of the name of a file with an extension, which may be given with leading dots. -/
def extensionSuffix (extension : String) : List Char :=
  '.' :: extension.toList.dropWhile (· == '.')

/-- The pattern of the files with an extension, in its pieces. -/
def extensionPieces (extension : String) : List Piece :=
  [.matching (.run :: (extensionSuffix extension).map .exactly)]

/-- The pattern of an extension is a star before the end of the names. -/
theorem extensionPattern_eq (extension : String) :
    extensionPattern extension = ['*', '*'] ++ '/' :: '*' :: extensionSuffix extension :=
  rfl

section Extension

variable {extension : String} (h : IsLiteral extension.toList)

include h

/-- The end of the names of an extension stands for itself if the extension does. -/
theorem isLiteral_extensionSuffix : IsLiteral (extensionSuffix extension) := by
  refine List.forall_mem_cons.mpr ⟨by decide, fun c hc => ?_⟩
  exact h c ((List.dropWhile_suffix _).subset hc)

/-- **The pattern of an extension is one at any depth.** -/
theorem readPath?_extensionPattern :
    readPath? (extensionPattern extension) = some (deep (extensionPieces extension)) := by
  have hliteral := isLiteral_extensionSuffix h
  have hslash : '/' ∉ '*' :: extensionSuffix extension := by
    intro hmem
    rcases List.mem_cons.mp hmem with hstar | hmem
    · exact absurd hstar (by decide)
    · exact hliteral '/' hmem (by decide)
  have hsplit : splitComponents (extensionPattern extension) =
      [['*', '*'], '*' :: extensionSuffix extension] := by
    have hparts : (extensionPattern extension).splitOn '/' =
        [['*', '*'], '*' :: extensionSuffix extension] := by
      rw [extensionPattern_eq, List.splitOn, List.splitOnP_append_cons _ _ (by simp)]
      have hname : List.splitOnP (· == '/') ('*' :: extensionSuffix extension) =
          ['*' :: extensionSuffix extension] := by
        refine List.splitOnP_eq_singleton fun c hc => ?_
        rw [beq_eq_false_iff_ne]
        rintro rfl
        exact hslash hc
      rw [hname]
      rfl
    unfold splitComponents
    rw [hparts]
    rfl
  have hparse : parse? ('*' :: extensionSuffix extension) =
      some (.run :: (extensionSuffix extension).map .exactly) := by
    show readTokens? ((extensionSuffix extension).length + 1) _ = _
    unfold readTokens?
    rw [readTokens?_of_isLiteral hliteral le_rfl]
    rfl
  have hpiece : readPiece? ('*' :: extensionSuffix extension) =
      some (.matching (.run :: (extensionSuffix extension).map .exactly)) := by
    rw [readPiece?, if_neg (by simp [extensionSuffix]), hparse]
    rfl
  rw [readPath?, hsplit, List.mapM_cons, List.mapM_cons, hpiece]
  rfl

/-- The files of an extension are no directories. -/
theorem wantsDirectory_extensionPattern : wantsDirectory (extensionPattern extension) = false := by
  rw [wantsDirectory, beq_eq_false_iff_ne, extensionPattern_eq]
  intro hlast
  have hsuffix : extensionSuffix extension ≠ [] := List.cons_ne_nil _ _
  rw [List.getLast?_append_of_ne_nil _ (by simp), List.getLast?_cons_of_ne_nil (by simp),
    List.getLast?_cons_of_ne_nil hsuffix] at hlast
  exact isLiteral_extensionSuffix h '/' (List.mem_of_getLast? hlast) (by decide)

omit h in
/-- **The pattern of an extension stands for the names that end in it**, in any directory. -/
theorem leadsBy_extension_iff {names : List String} :
    LeadsBy (extensionPieces extension) names ↔
      ∃ above name, names = above ++ [name] ∧ extensionSuffix extension <:+ name.toList := by
  rw [extensionPieces, leadsBy_singleton]
  rcases List.eq_nil_or_concat' names with rfl | ⟨above, name, rfl⟩
  · simp
  · rw [List.getLast?_concat, Option.any_some, Piece.matchesName, matchesWhole_run_exactly]
    constructor
    · exact fun hsuffix => ⟨above, name, rfl, hsuffix⟩
    · rintro ⟨above', name', heq, hsuffix⟩
      obtain ⟨-, rfl⟩ := List.append_singleton_inj.mp heq
      exact hsuffix

end Extension

/-! ## The spelling of what is found -/

/-- A name below a path does not start with `./`, unless the path does. -/
theorem text_or_head?_below {p : Path} (hp : p.text = "." ∨ p.pieces.head? ≠ some ".")
    {name : String} (hname : '/' ∉ name.toList) :
    (below p name).text = "." ∨ (below p name).pieces.head? ≠ some "." := by
  have halone : (⟨name⟩ : Path).text = "." ∨ (⟨name⟩ : Path).pieces.head? ≠ some "." := by
    rw [pieces_name hname, List.head?_singleton, ne_eq, Option.some.injEq]
    exact em _
  rcases below_eq_or p name with hbelow | ⟨-, hbelow⟩
  · rw [hbelow]
    by_cases hempty : p.text = ""
    · rwa [Path.join_of_empty (isAbsolute_name hname) hempty]
    · by_cases hdot : p.text = "."
      · -- Below `.` a name is written alone.
        rw [← hbelow, below, if_pos (by simpa using hdot)]
        exact halone
      · right
        obtain ⟨front, hne, hfront, hjoin⟩ := Path.pieces_join (isAbsolute_name hname) hempty
        have hhead : front.head? = p.pieces.head? := by
          rcases hfront with hfront | hfront
          · rw [hfront]
          · rw [hfront, List.head?_append_of_ne_nil _ hne]
        rw [hjoin, List.head?_append_of_ne_nil _ hne, hhead]
        exact hp.resolve_left hdot
  · rwa [hbelow]

/-- Names below a path do not start with `./`, unless the path does. -/
theorem text_or_head?_descend {p : Path} (hp : p.text = "." ∨ p.pieces.head? ≠ some ".")
    {names : List String} (hnames : ∀ x ∈ names, '/' ∉ x.toList) :
    (descend p names).text = "." ∨ (descend p names).pieces.head? ≠ some "." := by
  induction names generalizing p with
  | nil => exact hp
  | cons name rest ih =>
    obtain ⟨hname, hrest⟩ := List.forall_mem_cons.mp hnames
    exact ih (text_or_head?_below hp hname) hrest

/-- **Paths that are found never start with `./`.** -/
theorem leading?_descend_respell (base : Path) {names : List String} (hne : names ≠ [])
    (hnames : ∀ x ∈ names, Tree.isNodeName x = true) :
    (descend (respell base) names).leading? ≠ some .current := by
  have hslash : ∀ x ∈ literalNames base ++ names, '/' ∉ x.toList :=
    List.forall_mem_append.mpr ⟨fun x hx => slash_notMem_of_mem_literalNames hx,
      fun x hx => (Tree.isNodeName_iff.mp (hnames x hx)).2.2⟩
  have hstart : (startPath base).text = "." ∨ (startPath base).pieces.head? ≠ some "." := by
    unfold startPath
    cases base.isAbsolute <;> decide
  have hspelled := text_or_head?_descend hstart hslash
  rw [descend_append] at hspelled
  change (descend (respell base) names).text = "." ∨
    (descend (respell base) names).pieces.head? ≠ some "." at hspelled
  obtain ⟨above, name, rfl⟩ := (List.eq_nil_or_concat' names).resolve_left hne
  obtain ⟨hidle, -, hname⟩ := Tree.isNodeName_iff.mp (hnames name (by simp))
  rcases hspelled with hdot | hhead
  · -- The path would be `.` alone, and its last piece is a name.
    have hlast : (descend (respell base) (above ++ [name])).pieces.getLast? = some name :=
      getLast?_pieces_descend (respell base) hname
    have hpath : descend (respell base) (above ++ [name]) = ⟨"."⟩ := congrArg Path.mk hdot
    rw [hpath] at hlast
    obtain rfl : "." = name := Option.some.inj hlast
    cases hidle
  · unfold Path.leading?
    split_ifs with habs hdot
    · decide
    · exact absurd (beq_iff_eq.mp hdot) hhead
    · decide

end Glob

/-- Paths that are absolute alike and not led by `.` start alike. -/
theorem Path.leading?_eq {p q : Path} (hp : p.leading? ≠ some .current)
    (hq : q.leading? ≠ some .current) (h : p.isAbsolute = q.isAbsolute) :
    p.leading? = q.leading? := by
  have hlead : ∀ r : Path, r.leading? ≠ some .current →
      r.leading? = if r.isAbsolute then some .root else none := by
    intro r hr
    unfold Path.leading? at hr ⊢
    split_ifs at hr ⊢ <;> simp_all
  rw [hlead p hp, hlead q hq, h]

namespace Tree

/-! ## Lists of source files -/

/-- Whether a path, read up to a leading `.`, is that of a source file below a directory: it goes on
from the directory by names that lead to a file, and the last name ends in one of the extensions.
The path that a search gives to the file must be one that can be used. -/
def IsSourceBelow (t : Tree) (base : Path) (extensions : List String) (p : Path) : Prop :=
  ∃ place above name content, t.locate? base = some place ∧
    t.node? (place ++ (above ++ [name])) = some (.file content) ∧
    (∃ extension ∈ extensions, Glob.extensionSuffix extension <:+ name.toList) ∧
    p.isAbsolute = base.isAbsolute ∧ p.steps = base.steps ++ (above ++ [name]) ∧
    (Glob.descend (Glob.respell base) (above ++ [name])).isUsable = true

/-- Whether a search below a directory finds a path: one to a source file there, as the search
spells it. -/
def IsFoundBelow (t : Tree) (base : Path) (extensions : List String) (p : Path) : Prop :=
  ∃ place above name content, t.locate? base = some place ∧
    t.node? (place ++ (above ++ [name])) = some (.file content) ∧
    (∃ extension ∈ extensions, Glob.extensionSuffix extension <:+ name.toList) ∧
    p = Glob.descend (Glob.respell base) (above ++ [name]) ∧ p.isUsable = true

section Spelling

variable {t : Tree} (hw : t.WellFormed) {base : Path} {extensions : List String} {p : Path}

include hw

/-- What is found is the path of a source file, and it does not start with `./`. -/
theorem IsFoundBelow.isSourceBelow (h : t.IsFoundBelow base extensions p) :
    t.IsSourceBelow base extensions p ∧ p.leading? ≠ some .current := by
  obtain ⟨place, above, name, content, hloc, hnode, hextension, rfl, huse⟩ := h
  have hnames := hw.isNodeName_of_node? hnode
  obtain ⟨habs, hsteps⟩ := Glob.steps_descend_respell base hnames
  exact ⟨⟨place, above, name, content, hloc, hnode, hextension, habs, hsteps, huse⟩,
    Glob.leading?_descend_respell base (by simp) hnames⟩

/-- The path of each source file is found in one of its spellings. -/
theorem IsSourceBelow.exists_found (h : t.IsSourceBelow base extensions p) :
    ∃ q, t.IsFoundBelow base extensions q ∧ q.isAbsolute = p.isAbsolute ∧ q.steps = p.steps := by
  obtain ⟨place, above, name, content, hloc, hnode, hextension, habs, hsteps, huse⟩ := h
  obtain ⟨habs', hsteps'⟩ := Glob.steps_descend_respell base (hw.isNodeName_of_node? hnode)
  exact ⟨_, ⟨place, above, name, content, hloc, hnode, hextension, rfl, huse⟩,
    habs'.trans habs.symm, hsteps'.trans hsteps.symm⟩

end Spelling

/-- What a list of the source files below some directories of a repository holds. -/
structure Lists (t : Tree) (root : Path) (dirs extensions : List String) (files : List Path) :
    Prop where
  /-- The paths increase. -/
  increasing : files.Pairwise fun p q => p.order q = .lt
  /-- No path starts with `./`. -/
  undotted : ∀ p ∈ files, p.leading? ≠ some .current
  /-- Each path leads to a source file below one of the directories. -/
  sound : ∀ p ∈ files, t.isFile p = true ∧ ∃ dir ∈ dirs,
    Glob.strays (root.join ⟨dir⟩) = false ∧ t.IsSourceBelow (root.join ⟨dir⟩) extensions p
  /-- Each source file below one of the directories has its path in the list. -/
  complete : ∀ dir ∈ dirs, Glob.strays (root.join ⟨dir⟩) = false →
    ∀ p, t.IsSourceBelow (root.join ⟨dir⟩) extensions p →
      ∃ q ∈ files, q.isAbsolute = p.isAbsolute ∧ q.steps = p.steps

namespace Lists

variable {t : Tree} {root : Path} {dirs extensions : List String} {files : List Path}

/-- A list of source files is one for the same directories and extensions in any order. -/
theorem congr (h : t.Lists root dirs extensions files) {dirs' extensions' : List String}
    (hdirs : ∀ dir, dir ∈ dirs' ↔ dir ∈ dirs)
    (hextensions : ∀ extension, extension ∈ extensions' ↔ extension ∈ extensions) :
    t.Lists root dirs' extensions' files := by
  have hbelow : ∀ base p, t.IsSourceBelow base extensions' p ↔ t.IsSourceBelow base extensions p :=
    fun base p => by simp only [IsSourceBelow, hextensions]
  refine ⟨h.increasing, h.undotted, fun p hp => ?_, fun dir hdir hway p hsource => ?_⟩
  · obtain ⟨hfile, dir, hdir, hway, hsource⟩ := h.sound p hp
    exact ⟨hfile, dir, (hdirs dir).mpr hdir, hway, (hbelow _ p).mpr hsource⟩
  · exact h.complete dir ((hdirs dir).mp hdir) hway p ((hbelow _ p).mp hsource)

/-- Paths of a list that have the same steps and are absolute alike are the same. -/
theorem same (h : t.Lists root dirs extensions files) {others : List Path}
    (h' : t.Lists root dirs extensions others) {p q : Path} (hp : p ∈ files) (hq : q ∈ others)
    (habs : p.isAbsolute = q.isAbsolute) (hsteps : p.steps = q.steps) : p.same q = true := by
  have hleading := Path.leading?_eq (h.undotted p hp) (h'.undotted q hq) habs
  rw [Path.same_iff, Path.components_eq, Path.components_eq, hleading, hsteps]

/-- A list holds what another list of the same source files holds. -/
theorem exists_same (h : t.Lists root dirs extensions files) {others : List Path}
    (h' : t.Lists root dirs extensions others) {p : Path} (hp : ∃ q ∈ files, q.same p = true) :
    ∃ q ∈ others, q.same p = true := by
  obtain ⟨q, hq, hsame⟩ := hp
  obtain ⟨-, dir, hdir, hway, hsource⟩ := h.sound q hq
  obtain ⟨r, hr, habs, hsteps⟩ := h'.complete dir hdir hway q hsource
  exact ⟨r, hr, Path.same_iff.mpr
    ((Path.same_iff.mp (h'.same h hr hq habs hsteps)).trans (Path.same_iff.mp hsame))⟩

/-- **There is one list of source files**, component by component. -/
theorem map_components_eq (h : t.Lists root dirs extensions files) {others : List Path}
    (h' : t.Lists root dirs extensions others) :
    files.map Path.components = others.map Path.components :=
  Path.map_components_eq h.increasing h'.increasing fun _ =>
    ⟨h.exists_same h', h'.exists_same h⟩

end Lists

/-! ## What is found -/

section Finding

variable {t : Tree} (hw : t.WellFormed) {base : Path} {extensions : List String}
  (hplain : ∀ extension ∈ extensions, Glob.IsLiteral extension.toList)

include hw hplain

/-- **What is found below one directory** are the paths of its source files, unless the search loses
its way. -/
theorem exists_filesBelow?
    (hsearch : extensions ≠ [] → Glob.strays base = false → t.Searchable base) :
    ∃ found, t.filesBelow? base extensions = some found ∧
      ∀ p, p ∈ found ↔ Glob.strays base = false ∧ t.IsFoundBelow base extensions p := by
  unfold filesBelow?
  by_cases hdir : t.isDir base = true
  · obtain ⟨place, hloc, hplace⟩ := isDir_iff.mp hdir
    have hglob : ∀ extension ∈ extensions, ∃ found,
        t.glob? base (extensionPattern extension) = some found ∧
        ∀ p, p ∈ found ↔ Glob.strays base = false ∧ ∃ names content,
          Glob.LeadsBy (Glob.extensionPieces extension) names ∧
          t.node? (place ++ names) = some (.file content) ∧
          p = Glob.descend (Glob.respell base) names ∧ p.isUsable = true := by
      intro extension hextension
      obtain ⟨found, hfound, -, hmem⟩ := exists_glob? hw hloc hplace
        (hsearch (List.ne_nil_of_mem hextension))
        (Glob.readPath?_extensionPattern (hplain extension hextension)) (List.cons_ne_nil _ _)
        (Glob.wantsDirectory_extensionPattern (hplain extension hextension))
      exact ⟨found, hfound, hmem⟩
    obtain ⟨lists, hlists, hmem⟩ := Glob.exists_mapM_flatten hglob
    refine ⟨lists.flatten, by rw [if_pos hdir, hlists, Option.map_some], fun p => ?_⟩
    rw [hmem]
    constructor
    · rintro ⟨extension, hextension, hway, names, content, hleads, hnode, hpath⟩
      obtain ⟨above, name, rfl, hsuffix⟩ := Glob.leadsBy_extension_iff.mp hleads
      exact ⟨hway, place, above, name, content, hloc, hnode, ⟨extension, hextension, hsuffix⟩,
        hpath⟩
    · rintro ⟨hway, place', above, name, content, hloc', hnode, ⟨extension, hextension, hsuffix⟩,
        hpath⟩
      obtain rfl := Option.some.inj (hloc.symm.trans hloc')
      have hleads := Glob.leadsBy_extension_iff.mpr ⟨above, name, rfl, hsuffix⟩
      exact ⟨extension, hextension, hway, _, content, hleads, hnode, hpath⟩
  · refine ⟨[], by rw [if_neg hdir], fun p => iff_of_false (by simp) ?_⟩
    rintro ⟨-, place, above, name, content, hloc, hnode, -⟩
    have hplace := hw.isDirAt_of_node? hnode (by simp)
    exact hdir (isDir_iff.mpr ⟨place, hloc, hplace⟩)

/-- Nothing is listed if a directory below one of those that are searched cannot be listed. -/
theorem filesBelow?_eq_none (hne : extensions ≠ []) (hway : Glob.strays base = false)
    (hsearch : ¬t.Searchable base) : t.filesBelow? base extensions = none := by
  obtain ⟨extension, hextension⟩ := List.exists_mem_of_ne_nil extensions hne
  obtain ⟨hdir, hglob⟩ := glob?_eq_none hw hway hsearch
    (Glob.readPath?_extensionPattern (hplain extension hextension)) (List.cons_ne_nil _ _)
  rw [filesBelow?, if_pos hdir, Glob.mapM_eq_none hextension hglob, Option.map_none]

variable {root : Path} {dirs : List String}

/-- **When the source files cannot be listed:** a directory below one of those that are searched
cannot be. -/
theorem sourceFiles?_eq_none_iff :
    t.sourceFiles? root dirs extensions = none ↔
      extensions ≠ [] ∧ ∃ dir ∈ dirs, Glob.strays (root.join ⟨dir⟩) = false ∧
        ¬t.Searchable (root.join ⟨dir⟩) := by
  unfold sourceFiles?
  constructor
  · intro hnone
    by_contra hsearch
    obtain ⟨found, hfound⟩ : ∃ found, (dirs.mapM fun dir =>
        t.filesBelow? (root.join ⟨dir⟩) extensions) = some found := by
      refine Glob.exists_mapM_eq_some fun dir hdir => ?_
      have hbelow : extensions ≠ [] → Glob.strays (root.join ⟨dir⟩) = false →
          t.Searchable (root.join ⟨dir⟩) := fun hne hway =>
        by_contra fun hnot => hsearch ⟨hne, dir, hdir, hway, hnot⟩
      exact (exists_filesBelow? hw hplain hbelow).imp fun _ => And.left
    rw [hfound] at hnone
    cases hnone
  · rintro ⟨hne, dir, hdir, hway, hsearch⟩
    rw [Glob.mapM_eq_none hdir (filesBelow?_eq_none hw hplain hne hway hsearch)]

/-- **What is found is a list of the source files.** -/
theorem lists_of_sourceFiles? {files : List Path}
    (h : t.sourceFiles? root dirs extensions = some files) :
    t.Lists root dirs extensions files := by
  have hdirs : ∀ dir ∈ dirs, ∃ list, t.filesBelow? (root.join ⟨dir⟩) extensions = some list ∧
      ∀ p, p ∈ list ↔ Glob.strays (root.join ⟨dir⟩) = false ∧
        t.IsFoundBelow (root.join ⟨dir⟩) extensions p := by
    refine fun dir hdir => exists_filesBelow? hw hplain fun hne hway => ?_
    by_contra hnot
    rw [(sourceFiles?_eq_none_iff hw hplain).mpr ⟨hne, dir, hdir, hway, hnot⟩] at h
    cases h
  obtain ⟨found, hfound, hmem⟩ := Glob.exists_mapM_flatten hdirs
  have hfiles := h
  simp only [sourceFiles?, hfound] at h
  obtain rfl := Option.some.inj h
  have hsource : ∀ p ∈ dropRepeated (found.flatten.mergeSort fun p q => (p.order q).isLE),
      ∃ dir ∈ dirs, Glob.strays (root.join ⟨dir⟩) = false ∧
        t.IsFoundBelow (root.join ⟨dir⟩) extensions p := fun p hp =>
    (hmem p).mp (List.mem_mergeSort.mp (Path.mem_of_mem_dropRepeated hp))
  refine ⟨Path.pairwise_dropRepeated (Path.pairwise_mergeSort _), fun p hp => ?_, fun p hp => ?_,
    fun dir hdir hway p hp => ?_⟩
  · obtain ⟨dir, -, -, hbelow⟩ := hsource p hp
    exact (hbelow.isSourceBelow hw).2
  · obtain ⟨dir, hdir, hway, hbelow⟩ := hsource p hp
    exact ⟨(of_mem_sourceFiles? hfiles hp).1, dir, hdir, hway, (hbelow.isSourceBelow hw).1⟩
  · obtain ⟨q, hq, habs, hsteps⟩ := hp.exists_found hw
    obtain ⟨r, hr, hsame⟩ := Path.exists_same_dropRepeated_iff.mpr
      ⟨q, List.mem_mergeSort.mpr ((hmem q).mpr ⟨dir, hdir, hway, hq⟩), Path.same_iff.mpr rfl⟩
    obtain ⟨hleading, hsteps'⟩ := Path.of_components_eq (Path.same_iff.mp hsame)
    exact ⟨r, hr, (Path.isAbsolute_eq_of_leading?_eq hleading).trans habs, hsteps'.trans hsteps⟩

end Finding

/-- Where a source file below a directory lies that itself lies straight below the root: the walk to
it is that to the root, and then it goes down by names. -/
theorem IsSourceBelow.exists_down {t : Tree} (hw : t.WellFormed) {root : Path} {dir : String}
    {extensions : List String} {p : Path}
    (h : t.IsSourceBelow (root.join ⟨dir⟩) extensions p)
    (hrel : (⟨dir⟩ : Path).isAbsolute = false) (hup : ".." ∉ (⟨dir⟩ : Path).steps) :
    p.isAbsolute = root.isAbsolute ∧ ∃ names, p.steps = root.steps ++ names ∧ ".." ∉ names ∧
      ∀ x ∈ names, Path.isIdle x = false := by
  obtain ⟨place, above, name, content, -, hnode, -, habs, hsteps, -⟩ := h
  have hnames := hw.isNodeName_of_node? hnode
  refine ⟨habs.trans (Path.isAbsolute_join hrel), (⟨dir⟩ : Path).steps ++ (above ++ [name]), ?_, ?_,
    ?_⟩
  · rw [hsteps, Path.steps_join hrel, List.append_assoc]
  · rw [List.mem_append, not_or]
    exact ⟨hup, fun hmem => (isNodeName_iff.mp (hnames _ hmem)).2.1 rfl⟩
  · refine List.forall_mem_append.mpr ⟨fun x hx => ?_, fun x hx => ?_⟩
    · simpa using (List.mem_filter.mp hx).2
    · exact (isNodeName_iff.mp (hnames x hx)).1

/-- **Below directories that lie straight below the root no file comes twice.** -/
theorem Lists.pairwise_locate? {t : Tree} (hw : t.WellFormed) {root : Path}
    {dirs extensions : List String} {files : List Path} (h : t.Lists root dirs extensions files)
    (hdown : ∀ dir ∈ dirs, (⟨dir⟩ : Path).isAbsolute = false ∧ ".." ∉ (⟨dir⟩ : Path).steps) :
    files.Pairwise fun p q => t.locate? p ≠ t.locate? q := by
  refine h.increasing.imp_of_mem fun {p q} hp hq hlt hplaces => ?_
  obtain ⟨hfile, dir, hdir, -, hsource⟩ := h.sound p hp
  obtain ⟨-, dir', hdir', -, hsource'⟩ := h.sound q hq
  obtain ⟨habs, names, hsteps, hup, hidle⟩ :=
    hsource.exists_down hw (hdown dir hdir).1 (hdown dir hdir).2
  obtain ⟨habs', names', hsteps', hup', hidle'⟩ :=
    hsource'.exists_down hw (hdown dir' hdir').1 (hdown dir' hdir').2
  have hstart : p.isAbsolute = q.isAbsolute := habs.trans habs'.symm
  obtain ⟨l, hl⟩ := exists_locate?_of_isFile hfile
  obtain ⟨-, hfollow, -⟩ := locate?_eq_some_iff.mp hl
  obtain ⟨-, hfollow', -⟩ := locate?_eq_some_iff.mp (hplaces.symm.trans hl)
  rw [hsteps, follow?_append] at hfollow
  rw [hsteps', follow?_append, startOf, ← hstart, ← startOf] at hfollow'
  obtain ⟨m, hm, hrest⟩ := Option.bind_eq_some_iff.mp hfollow
  obtain ⟨m', hm', hrest'⟩ := Option.bind_eq_some_iff.mp hfollow'
  obtain rfl := Option.some.inj (hm.symm.trans hm')
  -- From where the root leads, the same place is reached by the same names only.
  have hnames : names = names' := List.append_cancel_left
    ((follow?_names hidle hup hrest).symm.trans (follow?_names hidle' hup' hrest'))
  have hsame := h.same h hp hq hstart (by rw [hsteps, hsteps', hnames])
  rw [Path.order_eq_iff_same.mpr hsame] at hlt
  cases hlt

/-- **The source files of a repository.** Listing them fails only if a directory below one of those
that are searched cannot be listed. Otherwise the paths increase, they lead to the source files
below these directories and to nothing else, and each of these files is listed, except below a
directory where the search loses its way. Where the directories lie straight below the root, no file
comes twice. The list depends only on which directories and extensions there are. -/
theorem sourceFiles?_lists {t : Tree} (hw : t.WellFormed) {extensions : List String}
    (hplain : ∀ extension ∈ extensions, Glob.IsLiteral extension.toList) (root : Path)
    (dirs : List String) :
    (t.sourceFiles? root dirs extensions = none ↔
      extensions ≠ [] ∧ ∃ dir ∈ dirs, Glob.strays (root.join ⟨dir⟩) = false ∧
        ¬t.Searchable (root.join ⟨dir⟩)) ∧
    (∀ files, t.sourceFiles? root dirs extensions = some files →
      t.Lists root dirs extensions files ∧
      ((∀ dir ∈ dirs, (⟨dir⟩ : Path).isAbsolute = false ∧ ".." ∉ (⟨dir⟩ : Path).steps) →
        files.Pairwise fun p q => t.locate? p ≠ t.locate? q)) ∧
    ∀ dirs' extensions', (∀ dir, dir ∈ dirs' ↔ dir ∈ dirs) →
      (∀ extension, extension ∈ extensions' ↔ extension ∈ extensions) →
      (t.sourceFiles? root dirs' extensions').map (List.map Path.components) =
        (t.sourceFiles? root dirs extensions).map (List.map Path.components) := by
  refine ⟨sourceFiles?_eq_none_iff hw hplain, fun files hfiles => ?_,
    fun dirs' extensions' hdirs hextensions => ?_⟩
  · have hlists := lists_of_sourceFiles? hw hplain hfiles
    exact ⟨hlists, hlists.pairwise_locate? hw⟩
  · have hplain' : ∀ extension ∈ extensions', Glob.IsLiteral extension.toList :=
      fun extension hextension => hplain extension ((hextensions extension).mp hextension)
    have hnone : t.sourceFiles? root dirs' extensions' = none ↔
        t.sourceFiles? root dirs extensions = none := by
      simp only [sourceFiles?_eq_none_iff hw hplain', sourceFiles?_eq_none_iff hw hplain, hdirs,
        ne_eq, List.eq_nil_iff_forall_not_mem, hextensions]
    cases hfiles : t.sourceFiles? root dirs extensions with
    | none => rw [hnone.mpr hfiles]
    | some files =>
      obtain ⟨files', hfiles'⟩ := Option.ne_none_iff_exists'.mp
        (mt hnone.mp (by rw [hfiles]; exact Option.some_ne_none files))
      have hlists := (lists_of_sourceFiles? hw hplain hfiles).congr hdirs hextensions
      rw [hfiles', Option.map_some, Option.map_some,
        (lists_of_sourceFiles? hw hplain' hfiles').map_components_eq hlists]

/-- A tree with source files in directories whose names patterns would treat specially. -/
def oddlyNamedSources : Tree where
  nodes := [(["build.kts"], .file (.text "")), (["src"], .directory),
    (["src", "A.java"], .file (.text "")), (["src", "A.kt"], .file (.text "")),
    (["src", "[ab]*"], .directory), (["src", "[ab]*", "B.kt"], .file (.binary [255])),
    (["src", "a"], .directory), (["src", "a", ".hidden"], .directory),
    (["src", "a", ".hidden", ".kts"], .file (.text ""))]
  workingDirectory := []

/-- Every node of that tree stands in a directory. -/
theorem wellFormed_oddlyNamedSources : oddlyNamedSources.WellFormed := by decide +kernel

/-- Directories of which some overlap, one is missing and one comes in two spellings. -/
def overlappingDirs : List String := ["src", "src/[ab]*", "missing", "./src//a/"]

/-- A file below two of the directories is listed once, and the order of the directories and the
dots of the extensions make no difference. -/
theorem sourceFiles?_lists_overlapping :
    oddlyNamedSources.WellFormed ∧
      (∀ extension ∈ [".kt", "kts"], Glob.IsLiteral extension.toList) ∧
      ∃ files, oddlyNamedSources.sourceFiles? ⟨"."⟩ overlappingDirs [".kt", "kts"] = some files ∧
        (∃ p ∈ files, p.steps = ["src", "[ab]*", "B.kt"]) ∧
        (∀ p ∈ files, p.steps ≠ ["src", "A.java"]) ∧
        (files.Pairwise fun p q => oddlyNamedSources.locate? p ≠ oddlyNamedSources.locate? q) ∧
        (oddlyNamedSources.sourceFiles? ⟨"."⟩ overlappingDirs.reverse ["kts", ".kt", "kts"]).map
          (List.map Path.components) = some (files.map Path.components) := by
  have hw := wellFormed_oddlyNamedSources
  have hplain : ∀ extension ∈ [".kt", "kts"], Glob.IsLiteral extension.toList := by decide +kernel
  have hsearch : ∀ dir ∈ overlappingDirs, oddlyNamedSources.Searchable (Path.join ⟨"."⟩ ⟨dir⟩) := by
    decide +kernel
  have hsource : oddlyNamedSources.IsSourceBelow (Path.join ⟨"."⟩ ⟨"src"⟩) [".kt", "kts"]
      ⟨"src/[ab]*/B.kt"⟩ :=
    ⟨["src"], ["[ab]*"], "B.kt", .binary [255], by decide +kernel⟩
  obtain ⟨hnone, hsome, hcongr⟩ := sourceFiles?_lists hw hplain ⟨"."⟩ overlappingDirs
  have hlists : oddlyNamedSources.sourceFiles? ⟨"."⟩ overlappingDirs [".kt", "kts"] ≠ none := by
    intro hfails
    obtain ⟨-, dir, hdir, -, hnot⟩ := hnone.mp hfails
    exact hnot (hsearch dir hdir)
  obtain ⟨files, hfiles⟩ := Option.ne_none_iff_exists'.mp hlists
  obtain ⟨hall, hplaces⟩ := hsome files hfiles
  refine ⟨hw, hplain, files, hfiles, ?_, fun p hp hsteps => ?_, hplaces (by decide +kernel), ?_⟩
  · obtain ⟨p, hp, -, hsteps⟩ := hall.complete "src" (by simp [overlappingDirs]) (by decide +kernel)
      _ hsource
    exact ⟨p, hp, hsteps.trans (by decide +kernel)⟩
  · -- The name of the file ends in no extension of the list.
    obtain ⟨-, dir, -, -, place, above, name, content, -, -, ⟨extension, hextension, hsuffix⟩, -,
      hpath, -⟩ := hall.sound p hp
    obtain rfl : "A.java" = name := by
      have hlast := congrArg List.getLast? (hsteps.symm.trans hpath)
      rw [← List.append_assoc, List.getLast?_concat] at hlast
      exact Option.some.inj hlast
    revert hsuffix
    revert extension
    decide +kernel
  · rw [hcongr overlappingDirs.reverse ["kts", ".kt", "kts"] (by simp) (by simp [or_comm]), hfiles,
      Option.map_some]

/-- **Below `./` no source file is found.** The directory is there with a source file below it. -/
theorem sourceFiles?_misses_current :
    oddlyNamedSources.WellFormed ∧ oddlyNamedSources.isDir (Path.join ⟨"."⟩ ⟨"./"⟩) = true ∧
      oddlyNamedSources.Searchable (Path.join ⟨"."⟩ ⟨"./"⟩) ∧
      oddlyNamedSources.IsSourceBelow (Path.join ⟨"."⟩ ⟨"./"⟩) ["kt"] ⟨"src/A.kt"⟩ ∧
      oddlyNamedSources.sourceFiles? ⟨"."⟩ ["./"] ["kt"] = some [] := by
  refine ⟨wellFormed_oddlyNamedSources, by decide +kernel, by decide +kernel, ?_, by decide +kernel⟩
  exact ⟨[], ["src"], "A.kt", .text "", by decide +kernel⟩

end Tree

end ImportMigration
