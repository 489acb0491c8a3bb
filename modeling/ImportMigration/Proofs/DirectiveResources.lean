import ImportMigration.Proofs.Searches

/-! # Directive resources

The directive resources below some roots are loaded root by root. Each root gives the files below
its `META-INF` directories, in path order and however deep these are nested, less those that a root
before it gives; so the order of the roots is the order in which their directives are merged.

* `IsResource`: the names that lead from a root to a directive resource.
* `Glob.leadsBy_resource_iff`: these are the names that the pattern of resources stands for.
* `Tree.Offers`: the blocks of the resources below a root.
* `Tree.ResourcesReadable`: whether each of them can be read.
* `Tree.directiveResources?_groups`: what is loaded, root by root.
* `Tree.directiveResources?_misses_current`: the root `./`, below which nothing is found. -/

namespace ImportMigration

/-- The path that a block came from. -/
def DirectiveBlock.path (b : DirectiveBlock) : Path := ⟨b.origin⟩

/-- The end of the name of a directive resource. -/
def resourceSuffix : List Char := ".packagemove".toList

/-- Whether names lead from a root to a directive resource: one of them is `META-INF`, and the last,
after it, is that of a resource. -/
def IsResource (names : List String) : Prop :=
  "META-INF" ∈ names.dropLast ∧ names.getLast?.any (resourceSuffix <:+ ·.toList) = true

instance (names : List String) : Decidable (IsResource names) :=
  inferInstanceAs (Decidable (_ ∧ _))

namespace Glob

/-- The pattern of directive resources, in its pieces. -/
def resourcePieces : List Piece :=
  [.exactly "META-INF", .matching (.run :: resourceSuffix.map .exactly)]

/-- The pattern of directive resources is one at any depth. -/
theorem readPath?_resourcePattern : readPath? resourcePattern = some (deep resourcePieces) := by
  rfl

/-- **The pattern of directive resources stands for their names.** -/
theorem leadsBy_resource_iff {names : List String} :
    LeadsBy resourcePieces names ↔ IsResource names := by
  have hlast : ∀ below : List String,
      LeadsBy [.matching (.run :: resourceSuffix.map .exactly)] below ↔
        below.getLast?.any (resourceSuffix <:+ ·.toList) = true := by
    intro below
    have hmatch : (Piece.matching (.run :: resourceSuffix.map .exactly)).matchesName =
        fun name => decide (resourceSuffix <:+ name.toList) := by
      funext name
      rw [Piece.matchesName, Bool.eq_iff_iff, matchesWhole_run_exactly, decide_eq_true_iff]
    rw [leadsBy_singleton, hmatch]
  constructor
  · rintro ⟨above, name, below, rfl, hname, hbelow⟩
    obtain rfl : "META-INF" = name := by simpa [Piece.matchesName] using hname
    rw [hlast] at hbelow
    rcases List.eq_nil_or_concat' below with rfl | ⟨between, file, rfl⟩
    · cases hbelow
    · have hnames : above ++ "META-INF" :: (between ++ [file]) =
          (above ++ "META-INF" :: between) ++ [file] := by simp
      rw [IsResource, hnames, List.dropLast_concat, List.getLast?_concat]
      exact ⟨by simp, by simpa using hbelow⟩
  · rintro ⟨hmeta, hfile⟩
    rcases List.eq_nil_or_concat' names with rfl | ⟨front, file, rfl⟩
    · cases hmeta
    · rw [List.dropLast_concat] at hmeta
      rw [List.getLast?_concat] at hfile
      obtain ⟨above, between, rfl⟩ := List.append_of_mem hmeta
      refine ⟨above, "META-INF", between ++ [file], by simp, by simp [Piece.matchesName], ?_⟩
      rw [hlast]
      simpa using hfile

end Glob

namespace Tree

/-- Whether a block is that of a directive resource below a root. -/
def Offers (t : Tree) (root : Path) (b : DirectiveBlock) : Prop :=
  ∃ place names, t.locate? root = some place ∧ t.isDirAt place = true ∧ IsResource names ∧
    t.node? (place ++ names) = some (.file (.text b.text)) ∧
      b.path = Glob.descend (Glob.respell root) names

/-- Whether each directive resource below a root can be read. -/
def ResourcesReadable (t : Tree) (root : Path) : Prop :=
  ∀ place ∈ t.locate? root, ∀ x ∈ t.under place, x.2 ≠ .directory → IsResource x.1 →
    (t.readText? (Glob.descend (Glob.respell root) x.1)).isSome = true

instance (t : Tree) (root : Path) : Decidable (t.ResourcesReadable root) :=
  inferInstanceAs (Decidable (∀ place ∈ t.locate? root, ∀ x ∈ t.under place, _))

/-- The paths of the directive resources below one root. -/
def resourcesBelow? (t : Tree) (root : Path) : Option (List Path) :=
  if t.isDir root then t.glob? root resourcePattern else some []

/-- The block of the file at a path. -/
def blockAt (t : Tree) (p : Path) : DirectiveBlock := ⟨p.text, (t.readText? p).getD ""⟩

section Loading

variable {t : Tree} (hw : t.WellFormed)

include hw

/-- A directive resource that can be read holds text, and its path leads to it. -/
theorem ResourcesReadable.exists_text {root : Path} (hread : t.ResourcesReadable root)
    {place : Location} {names : List String} {content : Content}
    (hloc : t.locate? root = some place) (hresource : IsResource names)
    (hnode : t.node? (place ++ names) = some (.file content)) :
    ∃ text, content = .text text ∧
      t.locate? (Glob.descend (Glob.respell root) names) = some (place ++ names) := by
  have hne : names ≠ [] := by
    rintro rfl
    cases hresource.1
  obtain ⟨text, htext⟩ := Option.isSome_iff_exists.mp (hread place hloc _
    (hw.mem_under_iff.mpr ⟨hne, hnode⟩) (by simp) hresource)
  obtain ⟨l, hl, hthere⟩ := readText?_eq_some_iff.mp htext
  have hleads := hw.locate?_descend hloc hne hnode (locate?_eq_some_iff.mp hl).1
  obtain rfl := Option.some.inj (hl.symm.trans hleads)
  rw [hnode] at hthere
  exact ⟨text, by simpa using hthere, hleads⟩

/-- A block that a root offers is read at its path. -/
theorem Offers.readText? {root : Path} {b : DirectiveBlock} (hread : t.ResourcesReadable root)
    (h : t.Offers root b) : t.readText? b.path = some b.text := by
  obtain ⟨place, names, hloc, -, hresource, hnode, hpath⟩ := h
  obtain ⟨-, -, hleads⟩ := hread.exists_text hw hloc hresource hnode
  rw [hpath]
  exact readText?_eq_some_iff.mpr ⟨_, hleads, hnode⟩

/-- A block that a root offers is the one at its path. -/
theorem Offers.blockAt_path {root : Path} {b : DirectiveBlock} (hread : t.ResourcesReadable root)
    (h : t.Offers root b) : t.blockAt b.path = b := by
  rw [blockAt, h.readText? hw hread]
  rfl

/-- Blocks that a root offers are told apart by their paths, whatever the spelling. -/
theorem Offers.eq_of_same {root : Path} {b c : DirectiveBlock} (hb : t.Offers root b)
    (hc : t.Offers root c) (hsame : b.path.same c.path = true) : b = c := by
  obtain ⟨place, names, hloc, -, -, hnode, hpath⟩ := hb
  obtain ⟨place', names', hloc', -, -, hnode', hpath'⟩ := hc
  obtain rfl := Option.some.inj (hloc.symm.trans hloc')
  rw [hpath, hpath'] at hsame
  obtain rfl := Glob.names_eq_of_same (hw.isNodeName_of_node? hnode)
    (hw.isNodeName_of_node? hnode') hsame
  obtain ⟨origin, text⟩ := b
  obtain ⟨origin', text'⟩ := c
  have horigin : (⟨origin⟩ : Path) = ⟨origin'⟩ := hpath.trans hpath'.symm
  rw [hnode] at hnode'
  simp_all

/-- What is found below a root are the paths of the blocks that it offers, unless the search loses
its way. -/
theorem exists_paths_of_root {root : Path} (hsearch : Glob.strays root = false → t.Searchable root)
    (hread : t.ResourcesReadable root) :
    ∃ found, t.resourcesBelow? root = some found ∧
      (found.Pairwise fun p q => (p.order q).isLE = true) ∧
      ∀ p, p ∈ found ↔ Glob.strays root = false ∧ ∃ b, t.Offers root b ∧ b.path = p := by
  rw [resourcesBelow?]
  by_cases hdir : t.isDir root = true
  · obtain ⟨place, hloc, hplace⟩ := isDir_iff.mp hdir
    obtain ⟨found, hfound, hsorted, hmem⟩ := exists_glob? hw hloc hplace hsearch
      Glob.readPath?_resourcePattern (by simp [Glob.resourcePieces]) (by decide)
    refine ⟨found, by rwa [if_pos hdir], hsorted, fun p => ?_⟩
    rw [hmem]
    refine and_congr_right fun _ => ?_
    constructor
    · rintro ⟨names, content, hleads, hnode, rfl, -⟩
      have hresource := Glob.leadsBy_resource_iff.mp hleads
      obtain ⟨text, rfl, -⟩ := hread.exists_text hw hloc hresource hnode
      exact ⟨⟨(Glob.descend (Glob.respell root) names).text, text⟩,
        ⟨place, names, hloc, hplace, hresource, hnode, rfl⟩, rfl⟩
    · rintro ⟨b, hoffers, rfl⟩
      have htext := hoffers.readText? hw hread
      obtain ⟨place', names, hloc', -, hresource, hnode, hpath⟩ := hoffers
      obtain rfl := Option.some.inj (hloc.symm.trans hloc')
      obtain ⟨l, hl, -⟩ := readText?_eq_some_iff.mp htext
      exact ⟨names, _, Glob.leadsBy_resource_iff.mpr hresource, hnode, hpath,
        (locate?_eq_some_iff.mp hl).1⟩
  · refine ⟨[], by rw [if_neg hdir], List.Pairwise.nil, fun p => iff_of_false (by simp) ?_⟩
    rintro ⟨-, b, ⟨place, names, hloc, hplace, -⟩, -⟩
    exact hdir (isDir_iff.mpr ⟨place, hloc, hplace⟩)

/-- What a search below a root gives, if it comes to an end. -/
theorem paths_of_root {root : Path} {found : List Path}
    (hsearch : Glob.strays root = false → t.Searchable root) (hread : t.ResourcesReadable root)
    (hfound : t.resourcesBelow? root = some found) :
    (found.Pairwise fun p q => (p.order q).isLE = true) ∧
      ∀ p, p ∈ found ↔ Glob.strays root = false ∧ ∃ b, t.Offers root b ∧ b.path = p := by
  obtain ⟨found', hfound', hpaths⟩ := exists_paths_of_root hw hsearch hread
  obtain rfl := Option.some.inj (hfound.symm.trans hfound')
  exact hpaths

section Roots

variable {roots : List Path} (hread : ∀ root ∈ roots, t.ResourcesReadable root)

include hread

section Listed

variable (hsearch : ∀ root ∈ roots, Glob.strays root = false → t.Searchable root)
  {lists : List (List Path)} (hlists : roots.mapM t.resourcesBelow? = some lists)

include hsearch

/-- The searches below the roots all come to an end. -/
theorem exists_lists_of_searchable : ∃ lists, roots.mapM t.resourcesBelow? = some lists :=
  Glob.exists_mapM_eq_some fun root hroot =>
    (exists_paths_of_root hw (hsearch root hroot) (hread root hroot)).imp fun _ => And.left

include hlists

/-- The blocks at what each root adds are loaded. -/
theorem directiveResources?_eq_some :
    t.directiveResources? roots =
      some ((Path.firstSeen [] lists).map (List.map t.blockAt)).flatten := by
  have hpaths : t.resourcePaths? roots = some (Path.firstSeen [] lists).flatten := by
    rw [← Path.eraseDupsBy_flatten]
    exact congrArg (Option.map fun found => found.flatten.eraseDupsBy Path.same) hlists
  have hall : ∀ p ∈ (Path.firstSeen [] lists).flatten, (t.readText? p).map
      (fun text => ({ origin := p.text, text } : DirectiveBlock)) = some (t.blockAt p) := by
    intro p hp
    rw [← Path.eraseDupsBy_flatten] at hp
    obtain ⟨found, hfound, hp⟩ := List.mem_flatten.mp ((Path.eraseDupsBy_sublist _).subset hp)
    obtain ⟨root, hroot, hbelow⟩ := Glob.exists_of_mem_mapM hlists hfound
    obtain ⟨-, b, hb, rfl⟩ :=
      ((paths_of_root hw (hsearch root hroot) (hread root hroot) hbelow).2 p).mp hp
    rw [blockAt, hb.readText? hw (hread root hroot)]
    rfl
  rw [directiveResources?, hpaths, ← List.map_flatten]
  exact Glob.mapM_eq_some_map hall

/-- What a root adds increases in path order. -/
theorem pairwise_of_mem_added {part : List Path} (hpart : part ∈ Path.firstSeen [] lists) :
    (part.map t.blockAt).Pairwise fun b c => b.path.order c.path = .lt := by
  refine List.pairwise_map.mpr (Path.pairwise_of_mem_firstSeen (fun found hfound => ?_) hpart)
  obtain ⟨root, hroot, hbelow⟩ := Glob.exists_of_mem_mapM hlists hfound
  exact (paths_of_root hw (hsearch root hroot) (hread root hroot) hbelow).1

/-- A path is new to what was found below the first roots if none of these offers it. -/
theorem new_iff {i : Nat} {p : Path} :
    (∀ others ∈ lists.take i, ∀ q ∈ others, p.same q = false) ↔
      ∀ earlier ∈ roots.take i, Glob.strays earlier = false →
        ∀ c, t.Offers earlier c → p.same c.path = false := by
  have hseen : (roots.take i).map t.resourcesBelow? = (lists.take i).map some := by
    rw [List.map_take, Glob.map_eq_of_mapM_eq_some hlists, List.map_take]
  constructor
  · intro hnew earlier hearlier hway c hc
    have hin := List.mem_of_mem_take hearlier
    obtain ⟨others, hothers, -, hmem⟩ :=
      exists_paths_of_root hw (hsearch earlier hin) (hread earlier hin)
    exact hnew others ((Glob.mem_of_map_eq hseen).mpr ⟨earlier, hearlier, hothers⟩) c.path
      ((hmem _).mpr ⟨hway, c, hc, rfl⟩)
  · intro hnone others hothers q hq
    obtain ⟨earlier, hearlier, hbelow⟩ := (Glob.mem_of_map_eq hseen).mp hothers
    have hin := List.mem_of_mem_take hearlier
    obtain ⟨hway, c, hc, rfl⟩ :=
      ((paths_of_root hw (hsearch earlier hin) (hread earlier hin) hbelow).2 q).mp hq
    exact hnone earlier hearlier hway c hc

/-- **What a root adds**: the blocks that it offers, less those whose paths a root before it gives.
-/
theorem mem_added_iff {i : Nat} {root : Path} {part : List Path} (hroot : roots[i]? = some root)
    (hpart : (Path.firstSeen [] lists)[i]? = some part) (b : DirectiveBlock) :
    b ∈ part.map t.blockAt ↔ (Glob.strays root = false ∧ t.Offers root b) ∧
      ∀ earlier ∈ roots.take i, Glob.strays earlier = false →
        ∀ c, t.Offers earlier c → b.path.same c.path = false := by
  have hmap := Glob.map_eq_of_mapM_eq_some hlists
  have hin := List.mem_of_getElem? hroot
  obtain ⟨found, hat, hbelow⟩ := Glob.getElem?_of_map_eq hmap hroot
  have hfound := (paths_of_root hw (hsearch root hin) (hread root hin) hbelow).2
  -- One root gives each path in one spelling.
  have hone : ∀ p ∈ found, ∀ q ∈ found, p.same q = true → p = q := by
    intro p hp q hq hsame
    obtain ⟨-, b, hb, rfl⟩ := (hfound p).mp hp
    obtain ⟨-, c, hc, rfl⟩ := (hfound q).mp hq
    rw [hb.eq_of_same hw hc hsame]
  have hadded : ∀ p, p ∈ part ↔ (Glob.strays root = false ∧ ∃ c, t.Offers root c ∧ c.path = p) ∧
      ∀ earlier ∈ roots.take i, Glob.strays earlier = false →
        ∀ c, t.Offers earlier c → p.same c.path = false := by
    intro p
    rw [Path.mem_firstSeen_iff hat hpart hone, hfound, new_iff hw hread hsearch hlists]
  rw [List.mem_map]
  constructor
  · rintro ⟨p, hp, rfl⟩
    obtain ⟨⟨hway, c, hc, rfl⟩, hnew⟩ := (hadded p).mp hp
    rw [hc.blockAt_path hw (hread root hin)]
    exact ⟨⟨hway, hc⟩, hnew⟩
  · rintro ⟨⟨hway, hb⟩, hnew⟩
    exact ⟨b.path, (hadded _).mpr ⟨⟨hway, b, hb, rfl⟩, hnew⟩,
      hb.blockAt_path hw (hread root hin)⟩

end Listed

omit hread in
/-- Nothing is loaded if a directory below one of the roots cannot be listed. -/
theorem directiveResources?_eq_none {root : Path} (hroot : root ∈ roots)
    (hway : Glob.strays root = false) (hsearch : ¬t.Searchable root) :
    t.directiveResources? roots = none := by
  obtain ⟨hdir, hglob⟩ := glob?_eq_none hw hway hsearch Glob.readPath?_resourcePattern
    (by simp [Glob.resourcePieces])
  have hbelow : t.resourcesBelow? root = none := by rw [resourcesBelow?, if_pos hdir, hglob]
  have hmapM : roots.mapM t.resourcesBelow? = none := Glob.mapM_eq_none hroot hbelow
  have hpaths : t.resourcePaths? roots = none :=
    congrArg (Option.map fun found : List (List Path) => found.flatten.eraseDupsBy Path.same) hmapM
  rw [directiveResources?, hpaths]

/-- **What is loaded, root by root.** Loading fails only if a directory below one of the roots
cannot be listed. Otherwise it gives groups of blocks, one for each root. No path comes twice. A
group increases in path order, and it holds the blocks that its root offers, unless the search below
the root loses its way, less those whose paths a root before it gives. -/
theorem directiveResources?_groups :
    (t.directiveResources? roots = none ↔
      ∃ root ∈ roots, Glob.strays root = false ∧ ¬t.Searchable root) ∧
    ∀ blocks, t.directiveResources? roots = some blocks →
      ∃ groups : List (List DirectiveBlock),
        blocks = groups.flatten ∧ groups.length = roots.length ∧
        (blocks.Pairwise fun b c => b.path.same c.path = false) ∧
        ∀ i root group, roots[i]? = some root → groups[i]? = some group →
          (group.Pairwise fun b c => b.path.order c.path = .lt) ∧
          ∀ b, b ∈ group ↔ (Glob.strays root = false ∧ t.Offers root b) ∧
            ∀ earlier ∈ roots.take i, Glob.strays earlier = false →
              ∀ c, t.Offers earlier c → b.path.same c.path = false := by
  by_cases hsearch : ∀ root ∈ roots, Glob.strays root = false → t.Searchable root
  · obtain ⟨lists, hlists⟩ := exists_lists_of_searchable hw hread hsearch
    have hloaded := directiveResources?_eq_some hw hread hsearch hlists
    refine ⟨iff_of_false (by simp [hloaded]) ?_, fun blocks hblocks => ?_⟩
    · rintro ⟨root, hroot, hway, hnot⟩
      exact hnot (hsearch root hroot hway)
    · obtain rfl := Option.some.inj (hblocks.symm.trans hloaded)
      refine ⟨_, rfl, ?_, ?_, fun i root group hroot hgroup => ?_⟩
      · have hlength := congrArg List.length (Glob.map_eq_of_mapM_eq_some hlists)
        simpa [Path.length_firstSeen] using hlength.symm
      · rw [← List.map_flatten, ← Path.eraseDupsBy_flatten, List.pairwise_map]
        exact Path.pairwise_eraseDupsBy _
      · rw [List.getElem?_map] at hgroup
        obtain ⟨part, hpart, rfl⟩ := Option.map_eq_some_iff.mp hgroup
        exact ⟨pairwise_of_mem_added hw hread hsearch hlists (List.mem_of_getElem? hpart),
          mem_added_iff hw hread hsearch hlists hroot hpart⟩
  · simp only [not_forall] at hsearch
    obtain ⟨root, hroot, hway, hnot⟩ := hsearch
    have hnone := directiveResources?_eq_none hw hroot hway hnot
    exact ⟨iff_of_true hnone ⟨root, hroot, hway, hnot⟩, fun blocks hblocks => by simp_all⟩

end Roots

end Loading

/-- A tree with nested resources, seen from its root. -/
def nestedResources : Tree where
  nodes := [(["lib"], .directory), (["lib", "META-INF"], .directory),
    (["lib", "META-INF", "b.packagemove"], .file (.text "MOVE b.b.C -> b.c.C")),
    (["lib", "META-INF", "META-INF"], .directory),
    (["lib", "META-INF", "META-INF", "a.packagemove"], .file (.text "MOVE a.b.C -> a.c.C")),
    (["lib", "sub"], .directory), (["lib", "sub", "META-INF"], .directory),
    (["lib", "sub", "META-INF", ".packagemove"], .file (.text "MOVE c.b.C -> c.c.C")),
    (["lib", "a.packagemove"], .file (.text "MOVE d.b.C -> d.c.C"))]
  workingDirectory := []

/-- Every node of that tree stands in a directory. -/
theorem wellFormed_nestedResources : nestedResources.WellFormed := by decide +kernel

/-- Roots of which some overlap, one is a file and one is missing. -/
def nestedRoots : List Path :=
  [⟨"lib"⟩, ⟨"lib/sub"⟩, ⟨"lib/a.packagemove"⟩, ⟨"missing"⟩, ⟨"./lib//sub/"⟩]

/-- A resource below two `META-INF` directories is loaded, and one below two roots by the first. -/
theorem directiveResources?_groups_nested :
    nestedResources.WellFormed ∧
      (∀ root ∈ nestedRoots, nestedResources.ResourcesReadable root) ∧
      (∀ root ∈ nestedRoots, nestedResources.Searchable root) ∧
      ∃ groups : List (List DirectiveBlock),
        nestedResources.directiveResources? nestedRoots = some groups.flatten ∧
        (∀ group, groups[0]? = some group →
          ⟨"lib/META-INF/META-INF/a.packagemove", "MOVE a.b.C -> a.c.C"⟩ ∈ group ∧
          ⟨"lib/sub/META-INF/.packagemove", "MOVE c.b.C -> c.c.C"⟩ ∈ group) ∧
        ∀ group, groups[1]? = some group →
          ⟨"lib/sub/META-INF/.packagemove", "MOVE c.b.C -> c.c.C"⟩ ∉ group := by
  have hw := wellFormed_nestedResources
  have hread : ∀ root ∈ nestedRoots, nestedResources.ResourcesReadable root := by decide +kernel
  have hsearch : ∀ root ∈ nestedRoots, nestedResources.Searchable root := by decide +kernel
  have hway : Glob.strays ⟨"lib"⟩ = false := by decide +kernel
  have hdeep : nestedResources.Offers ⟨"lib"⟩
      ⟨"lib/META-INF/META-INF/a.packagemove", "MOVE a.b.C -> a.c.C"⟩ :=
    ⟨["lib"], ["META-INF", "META-INF", "a.packagemove"], by decide +kernel⟩
  have hsub : nestedResources.Offers ⟨"lib"⟩
      ⟨"lib/sub/META-INF/.packagemove", "MOVE c.b.C -> c.c.C"⟩ :=
    ⟨["lib"], ["sub", "META-INF", ".packagemove"], by decide +kernel⟩
  obtain ⟨hnone, hsome⟩ := directiveResources?_groups hw hread
  have hloads : nestedResources.directiveResources? nestedRoots ≠ none := by
    rintro hfails
    obtain ⟨root, hroot, -, hnot⟩ := hnone.mp hfails
    exact hnot (hsearch root hroot)
  obtain ⟨blocks, hblocks⟩ := Option.ne_none_iff_exists'.mp hloads
  obtain ⟨groups, rfl, -, -, hgroups⟩ := hsome blocks hblocks
  refine ⟨hw, hread, hsearch, groups, hblocks, fun group hgroup => ?_, fun group hgroup hmem => ?_⟩
  · have hmem := (hgroups 0 ⟨"lib"⟩ group rfl hgroup).2
    exact ⟨(hmem _).mpr ⟨⟨hway, hdeep⟩, by simp⟩, (hmem _).mpr ⟨⟨hway, hsub⟩, by simp⟩⟩
  · -- The first root offers the block already.
    have hnew := (((hgroups 1 ⟨"lib/sub"⟩ group rfl hgroup).2 _).mp hmem).2
    have hother := hnew ⟨"lib"⟩ (by simp [nestedRoots]) hway _ hsub
    simp [Path.same] at hother

/-- **Below `./` no resource is found.** The root is a directory with a resource below it. -/
theorem directiveResources?_misses_current :
    nestedResources.WellFormed ∧ nestedResources.isDir ⟨"./"⟩ = true ∧
      nestedResources.Searchable ⟨"./"⟩ ∧ nestedResources.ResourcesReadable ⟨"./"⟩ ∧
      nestedResources.Offers ⟨"./"⟩ ⟨"lib/META-INF/b.packagemove", "MOVE b.b.C -> b.c.C"⟩ ∧
      nestedResources.directiveResources? [⟨"./"⟩] = some [] := by
  refine ⟨wellFormed_nestedResources, by decide +kernel, by decide +kernel, by decide +kernel, ?_,
    by decide +kernel⟩
  exact ⟨[], ["lib", "META-INF", "b.packagemove"], by decide +kernel⟩

end Tree

end ImportMigration
