import ImportMigration.Proofs.Plans
import ImportMigration.Proofs.Runs

/-! # The shape of a tree

In the tree of a file system every node stands in a directory, under a name of its own. Then a path
of names leads down to whatever stands there, and all that stands below a place can be listed.

* `Tree.WellFormed`: whether a tree has this shape.
* `Tree.under`, `Tree.WellFormed.mem_under_iff`: what stands below a place.
* `Tree.WellFormed.follow?_down`: names lead down to what stands there.
* `Tree.WellFormed.writeText?`, `Tree.WellFormed.createDir?`: one change keeps the shape.
* `Tree.WellFormed.migrate`, `Tree.WellFormed.writeWithParents`: so does a run with all its writes,
  and so does the report it leaves. -/

namespace ImportMigration

namespace Tree

/-- Whether a file or a directory can have a name. -/
def isNodeName (name : String) : Bool :=
  !Path.isIdle name && name != ".." && !name.toList.contains '/'

/-- Whether every node of a tree stands in a directory, under a name of its own. -/
structure WellFormed (t : Tree) : Prop where
  /-- No two nodes stand at one place. -/
  nodup : (t.nodes.map Prod.fst).Nodup
  /-- The place of a node is a name in a directory. -/
  inDirectory : ∀ x ∈ t.nodes,
    t.isDirAt x.1.dropLast = true ∧ x.1.getLast?.any isNodeName = true

instance (t : Tree) : Decidable t.WellFormed :=
  decidable_of_iff ((t.nodes.map Prod.fst).Nodup ∧ ∀ x ∈ t.nodes,
      t.isDirAt x.1.dropLast = true ∧ x.1.getLast?.any isNodeName = true)
    ⟨fun h => ⟨h.1, h.2⟩, fun h => ⟨h.1, h.2⟩⟩

/-- The name of a node leads somewhere, down, and holds no slash. -/
theorem isNodeName_iff {name : String} :
    isNodeName name = true ↔ Path.isIdle name = false ∧ name ≠ ".." ∧ '/' ∉ name.toList := by
  simp [isNodeName, and_assoc]

/-! ## What stands where -/

/-- A node that is listed once is the one at its place. -/
theorem lookup_eq_some_iff_of_nodup {nodes : List (Location × Node)}
    (h : (nodes.map Prod.fst).Nodup) {loc : Location} {node : Node} :
    nodes.lookup loc = some node ↔ (loc, node) ∈ nodes := by
  rw [List.lookup_eq_some_iff]
  constructor
  · rintro ⟨front, back, rfl, -⟩
    simp
  · intro hmem
    obtain ⟨front, back, rfl⟩ := List.append_of_mem hmem
    refine ⟨front, back, rfl, fun x hx => ?_⟩
    rw [List.map_append, List.nodup_append] at h
    simpa using (h.2.2 x.1 (List.mem_map_of_mem hx) loc (by simp)).symm

/-- What stands below a place, each node with the names that lead to it from there. -/
def under (t : Tree) (loc : Location) : List (List String × Node) :=
  t.nodes.filterMap fun (place, node) =>
    if loc.isPrefixOf place && place.length != loc.length then some (place.drop loc.length, node)
    else none

/-- The nodes below a place in order are those below it. -/
theorem mem_nodesBelow {t : Tree} {loc : Location} {x : List String × Node} :
    x ∈ t.nodesBelow loc ↔ x ∈ t.under loc :=
  List.mem_mergeSort

namespace WellFormed

variable {t : Tree} (hw : t.WellFormed)

include hw

/-- The nodes of a tree are what stands below its root. -/
theorem mem_nodes_iff {loc : Location} {node : Node} :
    (loc, node) ∈ t.nodes ↔ loc ≠ [] ∧ t.node? loc = some node := by
  rw [node?, ← lookup_eq_some_iff_of_nodup hw.nodup]
  constructor
  · intro hlookup
    have hne : loc ≠ [] := by
      rintro rfl
      have hname := (hw.inDirectory _ ((lookup_eq_some_iff_of_nodup hw.nodup).mp hlookup)).2
      cases hname
    exact ⟨hne, by simpa [hne] using hlookup⟩
  · rintro ⟨hne, hnode⟩
    simpa [hne] using hnode

/-- What stands below a place by one name stands in a directory. -/
theorem of_node?_concat {above : Location} {name : String} {node : Node}
    (h : t.node? (above ++ [name]) = some node) :
    t.isDirAt above = true ∧ isNodeName name = true := by
  simpa using hw.inDirectory _ (hw.mem_nodes_iff.mpr ⟨by simp, h⟩)

/-- What stands below a place stands there by the names of nodes. -/
theorem isNodeName_of_node? {above : Location} {names : List String} {node : Node}
    (h : t.node? (above ++ names) = some node) : ∀ name ∈ names, isNodeName name = true := by
  induction names using List.reverseRecOn generalizing node with
  | nil => simp
  | append_singleton names name ih =>
    rw [← List.append_assoc] at h
    obtain ⟨hdir, hname⟩ := hw.of_node?_concat h
    have hnames := ih (by simpa [isDirAt] using hdir)
    exact List.forall_mem_append.mpr ⟨hnames, by simpa using hname⟩

/-- A place below which something stands is a directory. -/
theorem isDirAt_of_node? {above : Location} {names : List String} {node : Node}
    (h : t.node? (above ++ names) = some node) (hne : names ≠ []) : t.isDirAt above = true := by
  induction names using List.reverseRecOn generalizing node with
  | nil => exact absurd rfl hne
  | append_singleton names name ih =>
    rw [← List.append_assoc] at h
    have hdir := (hw.of_node?_concat h).1
    by_cases hnames : names = []
    · simpa [hnames] using hdir
    · exact ih (by simpa [isDirAt] using hdir) hnames

/-- Something stands wherever something stands below. -/
theorem node?_isSome_of_append {loc : Location} {names : List String}
    (h : (t.node? (loc ++ names)).isSome = true) : (t.node? loc).isSome = true := by
  by_cases hne : names = []
  · simpa [hne] using h
  · obtain ⟨node, hnode⟩ := Option.isSome_iff_exists.mp h
    have hdir := hw.isDirAt_of_node? hnode hne
    rw [isDirAt, beq_iff_eq] at hdir
    rw [hdir]
    rfl

/-- The directory above a directory is one. -/
theorem isDirAt_dropLast {loc : Location} (h : t.isDirAt loc = true) :
    t.isDirAt loc.dropLast = true := by
  rcases List.eq_nil_or_concat' loc with rfl | ⟨above, name, rfl⟩
  · exact h
  · rw [List.dropLast_concat]
    exact (hw.of_node?_concat (by simpa [isDirAt] using h)).1

/-- **Names lead down to what stands there.** -/
theorem follow?_down {loc : Location} {names : List String} {node : Node}
    (h : t.node? (loc ++ names) = some node) : t.follow? loc names = some (loc ++ names) := by
  induction names generalizing loc with
  | nil => simp
  | cons name rest ih =>
    have hdir := hw.isDirAt_of_node? h (by simp)
    obtain ⟨hidle, hup, -⟩ := isNodeName_iff.mp (hw.isNodeName_of_node? h name List.mem_cons_self)
    have hstep : t.step? loc name = some (loc ++ [name]) := by simp [step?, hdir, hidle, hup]
    rw [follow?_cons, hstep, Option.bind_some, ih (by simpa using h)]
    simp

/-- **What is listed below a place** is all that stands there, with the names that lead to it. -/
theorem mem_under_iff {loc : Location} {names : List String} {node : Node} :
    (names, node) ∈ t.under loc ↔ names ≠ [] ∧ t.node? (loc ++ names) = some node := by
  rw [under, List.mem_filterMap]
  constructor
  · rintro ⟨⟨place, found⟩, hmem, hbelow⟩
    simp only at hbelow
    split_ifs at hbelow with hcond
    obtain ⟨rfl, rfl⟩ := Prod.mk.inj (Option.some.inj hbelow)
    rw [Bool.and_eq_true, List.isPrefixOf_iff_prefix] at hcond
    obtain ⟨⟨names, rfl⟩, hlength⟩ := hcond
    rw [List.drop_left]
    exact ⟨by simpa using hlength, (hw.mem_nodes_iff.mp hmem).2⟩
  · rintro ⟨hne, hnode⟩
    refine ⟨(loc ++ names, node), hw.mem_nodes_iff.mpr ⟨by simp [hne], hnode⟩, ?_⟩
    simp [hne]

end WellFormed

/-! ## Changes keep the shape -/

/-- A node that is put is among the nodes, and the others were there before. -/
theorem eq_or_mem_of_mem_putNode {loc : Location} {node : Node} {nodes : List (Location × Node)}
    {x : Location × Node} (h : x ∈ putNode loc node nodes) : x = (loc, node) ∨ x ∈ nodes := by
  induction nodes with
  | nil => exact Or.inl (by simpa [putNode] using h)
  | cons head rest ih =>
    rw [putNode] at h
    split_ifs at h with hplace
    · rw [hplace] at h
      exact (List.mem_cons.mp h).imp_right (List.mem_cons_of_mem head)
    · rcases List.mem_cons.mp h with rfl | h
      · exact Or.inr List.mem_cons_self
      · exact (ih h).imp_right (List.mem_cons_of_mem head)

/-- A node that is put stands at a place of its own. -/
theorem nodup_putNode {loc : Location} {node : Node} {nodes : List (Location × Node)}
    (h : (nodes.map Prod.fst).Nodup) : ((putNode loc node nodes).map Prod.fst).Nodup := by
  induction nodes with
  | nil => simp [putNode]
  | cons head rest ih =>
    rw [List.map_cons, List.nodup_cons] at h
    rw [putNode]
    split_ifs with hplace
    · exact List.nodup_cons.mpr h
    · refine List.nodup_cons.mpr ⟨fun hmem => ?_, ih h.2⟩
      obtain ⟨x, hx, hfst⟩ := List.mem_map.mp hmem
      rcases eq_or_mem_of_mem_putNode hx with rfl | hx
      · exact hplace hfst.symm
      · exact h.1 (hfst ▸ List.mem_map_of_mem hx)

/-- Whether a node can be put at a place: it is a name in a directory, and no file takes the place
of a directory. -/
structure HasRoom (t : Tree) (loc : Location) (node : Node) : Prop where
  /-- The place lies in a directory. -/
  inDirectory : t.isDirAt loc.dropLast = true
  /-- A node can have its name. -/
  named : loc.getLast?.any isNodeName = true
  /-- A directory stays one. -/
  keepsDir : t.isDirAt loc = true → node = .directory

namespace WellFormed

variable {t : Tree} (hw : t.WellFormed)

include hw

/-- Putting a node where there is room for it keeps the shape. -/
theorem put {loc : Location} {node : Node} (h : t.HasRoom loc node) :
    (t.put loc node).WellFormed := by
  have hne : loc ≠ [] := by
    rintro rfl
    cases h.named
  have hdirs : ∀ l, t.isDirAt l = true → (t.put loc node).isDirAt l = true := by
    intro l hl
    rw [isDirAt, node?_put hne]
    by_cases hloc : l = loc
    · rw [if_pos hloc, h.keepsDir (hloc ▸ hl)]
      rfl
    · rw [if_neg hloc]
      exact hl
  refine ⟨nodup_putNode hw.nodup, fun x hx => ?_⟩
  rcases eq_or_mem_of_mem_putNode hx with rfl | hx
  · exact ⟨hdirs _ h.inDirectory, h.named⟩
  · exact ⟨hdirs _ (hw.inDirectory x hx).1, (hw.inDirectory x hx).2⟩

/-- There is room for any node where a path leads but no directory stands. -/
theorem hasRoom_of_locate? {p : Path} {loc : Location} (hloc : t.locate? p = some loc)
    (hdir : t.isDirAt loc = false) (node : Node) : t.HasRoom loc node := by
  obtain ⟨-, hfollow, -⟩ := locate?_eq_some_iff.mp hloc
  obtain ⟨front, step, hsteps⟩ :=
    (List.eq_nil_or_concat' p.steps).resolve_left (steps_ne_nil_of_locate? hloc hdir)
  have hmem : step ∈ p.steps := by simp [hsteps]
  obtain ⟨hpiece, hidle⟩ := List.mem_filter.mp hmem
  rw [hsteps, follow?_append] at hfollow
  obtain ⟨above, -, hstep⟩ := Option.bind_eq_some_iff.mp hfollow
  rw [follow?_cons, Option.bind_eq_some_iff] at hstep
  obtain ⟨l, hstep, hl⟩ := hstep
  obtain rfl : l = loc := Option.some.inj hl
  have habove := isDirAt_of_step? hstep
  rw [Bool.not_eq_true'] at hidle
  rw [step?] at hstep
  simp only [habove, hidle, Bool.not_true, Bool.false_eq_true, if_false, beq_iff_eq] at hstep
  split_ifs at hstep with hup
  · -- A step up leads to a directory.
    obtain rfl := Option.some.inj hstep
    rw [hw.isDirAt_dropLast habove] at hdir
    cases hdir
  · obtain rfl := Option.some.inj hstep
    refine ⟨by rwa [List.dropLast_concat], ?_, fun h => ?_⟩
    · have hname := isNodeName_iff.mpr ⟨hidle, hup, Path.slash_notMem_of_mem_pieces hpiece⟩
      simpa using hname
    · rw [hdir] at h
      cases h

/-- Writing a text keeps the shape. -/
theorem writeText? {u : Tree} {p : Path} {value : String} (h : t.writeText? p value = some u) :
    u.WellFormed := by
  rw [writeText?_eq] at h
  obtain ⟨loc, htarget, rfl⟩ := Option.map_eq_some_iff.mp h
  obtain ⟨hloc, hdir⟩ := target?_eq_some_iff.mp htarget
  exact hw.put (hw.hasRoom_of_locate? hloc hdir _)

/-- Making a directory keeps the shape. -/
theorem createDir? {u : Tree} {p : Path} (h : t.createDir? p = some u) : u.WellFormed := by
  rw [Tree.createDir?] at h
  split at h
  · cases h
  · rename_i loc hloc
    split at h
    · obtain rfl := Option.some.inj h
      exact hw
    · cases h
    · rename_i hnode
      obtain rfl := Option.some.inj h
      exact hw.put (hw.hasRoom_of_locate? hloc (by simp [isDirAt, hnode]) _)

/-- A run of writes keeps the shape. -/
theorem perform (ws : List FileWrite) : (t.perform ws).1.WellFormed := by
  induction ws generalizing t with
  | nil => exact hw
  | cons w rest ih =>
    rw [Tree.perform]
    split
    · exact hw
    · rename_i u hu
      exact ih (hw.writeText? hu)

/-- Making the directories along a path keeps the shape. -/
theorem createAlong (walked pieces : List String) :
    (t.createAlong walked pieces).1.WellFormed := by
  induction pieces generalizing t walked with
  | nil => exact hw
  | cons piece rest ih =>
    rw [Tree.createAlong]
    split_ifs
    · exact ih hw _
    · split
      · exact hw
      · rename_i u hu
        exact ih (hw.createDir? hu) _

/-- **A migration keeps the shape of the tree.** -/
theorem migrate (settings : Settings) (supply : DirectiveSupply) (tool : ToolInfo)
    (run : RunInfo) : (t.migrate settings supply tool run).1.WellFormed := by
  by_cases hsame : (t.migrate settings supply tool run).1 = t
  · rw [hsame]
    exact hw
  · obtain ⟨merged, plan, -, -, hfst⟩ := exists_plan_of_migrateFrom_ne hsame
    rw [Tree.migrate, hfst, applyPlan_fst]
    exact hw.perform _

/-- Making a directory with those above it keeps the shape. -/
theorem createDirs (p : Path) : (t.createDirs p).1.WellFormed := by
  rw [Tree.createDirs]
  split_ifs
  · exact hw.createAlong _ _
  · exact hw

/-- **Writing a file with its directories keeps the shape of the tree.** -/
theorem writeWithParents (path : Path) (text : String) :
    (t.writeWithParents path text).1.WellFormed := by
  rw [Tree.writeWithParents]
  split
  rename_i u made hmade
  have hu : u.WellFormed := by
    split at hmade
    · cases hmade
      exact hw
    · split_ifs at hmade
      · cases hmade
        exact hw
      · obtain rfl := congrArg Prod.fst hmade
        exact hw.createDirs _
  split_ifs
  · split
    · exact hu
    · rename_i v hv
      exact hu.writeText? hv
  · exact hu

end WellFormed

end Tree

end ImportMigration
