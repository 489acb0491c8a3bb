import ImportMigration.Proofs.FirstFaults
import ImportMigration.Proofs.PathOrder
import ImportMigration.Proofs.Plans

/-! # Discovered files

Discovery looks for source files below the root and gives their paths as seen from the working
directory. Planning sees a relative path from the root once more, so the two agree on a file exactly
if its path is absolute or the root leads back to itself.

* `Path.GoesOnFrom`: a path that is absolute or goes on where another ends.
* `Glob.goesOnFrom_of_mem_expand?`: every step of a search goes on from where it is.
* `Tree.of_mem_sourceFiles?`: discovered paths lead to files, and are absolute or go on from the
  root.
* `Tree.Recurs`: whether a root, walked again from where it leads, leads there.
* `Tree.keepsPlace_of_recurs`, `Tree.recurs_of_keepsPlace`: when a path leads to the same place seen
  from the root.
* `Tree.migrate_discovered`: which discovered files a run plans as themselves.
* `Tree.migrate_misses_discovered`: a run that looks for a discovered file elsewhere. -/

namespace ImportMigration

/-- Whether a path is absolute, or relative like another and goes on where that one ends. -/
def Path.GoesOnFrom (p d : Path) : Prop :=
  p.isAbsolute = true ∨ (d.isAbsolute = false ∧ d.steps <+: p.steps)

/-- An absolute path is seen from a root as itself. -/
theorem Path.resolve_of_isAbsolute {root p : Path} (h : p.isAbsolute = true) : root.resolve p = p :=
  if_pos h

namespace Path.GoesOnFrom

/-- A path goes on from itself. -/
theorem refl (p : Path) : p.GoesOnFrom p := by
  by_cases h : p.isAbsolute = true
  · exact Or.inl h
  · exact Or.inr ⟨by simpa using h, List.prefix_refl _⟩

/-- Going on from a path that goes on from another. -/
theorem trans {p q d : Path} (h : p.GoesOnFrom q) (h' : q.GoesOnFrom d) : p.GoesOnFrom d := by
  rcases h with habs | ⟨hrel, hsteps⟩
  · exact Or.inl habs
  · rcases h' with habs | ⟨hrel', hsteps'⟩
    · rw [habs] at hrel
      cases hrel
    · exact Or.inr ⟨hrel', hsteps'.trans hsteps⟩

/-- What goes on from an absolute path is absolute. -/
theorem isAbsolute {p d : Path} (h : p.GoesOnFrom d) (hd : d.isAbsolute = true) :
    p.isAbsolute = true :=
  h.resolve_right fun hrel => by simp [hd] at hrel

/-- What is joined to a path goes on from it. -/
theorem join (d q : Path) : (d.join q).GoesOnFrom d := by
  by_cases hq : q.isAbsolute = true
  · rw [Path.join, if_pos hq]
    exact Or.inl hq
  · have hrel : q.isAbsolute = false := by simpa using hq
    by_cases hd : d.isAbsolute = true
    · exact Or.inl ((isAbsolute_join hrel).trans hd)
    · refine Or.inr ⟨by simpa using hd, ?_⟩
      rw [steps_join hrel]
      exact List.prefix_append _ _

end Path.GoesOnFrom

namespace Glob

/-- The path of an entry is its name below its directory, as far as steps go. -/
theorem below_eq_or (d : Path) (name : String) :
    below d name = d.join ⟨name⟩ ∨ (d = ⟨"."⟩ ∧ below d name = ⟨name⟩) := by
  rw [below]
  split_ifs with hdot
  · obtain ⟨text⟩ := d
    exact Or.inr ⟨by simpa using hdot, rfl⟩
  · exact Or.inl rfl

/-- The path of an entry goes on from that of its directory. -/
theorem goesOnFrom_below (d : Path) (name : String) : (below d name).GoesOnFrom d := by
  rcases below_eq_or d name with h | ⟨rfl, h⟩
  · rw [h]
    exact .join d _
  · rw [h]
    by_cases hname : (⟨name⟩ : Path).isAbsolute = true
    · exact Or.inl hname
    · exact Or.inr ⟨by decide, List.nil_prefix⟩

/-- A name without a slash takes a path one step on, unless it is idle. -/
theorem steps_below (d : Path) {name : String} (h : '/' ∉ name.toList) :
    (below d name).isAbsolute = d.isAbsolute ∧
      (below d name).steps = d.steps ++ [name].filter (!Path.isIdle ·) := by
  have hname : (⟨name⟩ : Path) = Path.ofPieces [name] := by simp [Path.ofPieces]
  have hsteps : (⟨name⟩ : Path).steps = [name].filter (!Path.isIdle ·) := by
    rw [hname, Path.steps_ofPieces (by simpa using h)]
  have hrel : (⟨name⟩ : Path).isAbsolute = false := by
    rw [Path.isAbsolute, beq_eq_false_iff_ne]
    exact fun hhead => h (List.mem_of_head? hhead)
  rcases below_eq_or d name with hbelow | ⟨rfl, hbelow⟩
  · rw [hbelow, Path.isAbsolute_join hrel, Path.steps_join hrel, hsteps]
    exact ⟨rfl, rfl⟩
  · rw [hbelow, hrel, hsteps]
    exact ⟨by decide, rfl⟩

/-! ## What a search finds -/

/-- What several searches give is what each of them gives, in order. -/
theorem map_eq_of_mapM_eq_some {α β : Type*} {f : α → Option β} {xs : List α} {ys : List β}
    (h : xs.mapM f = some ys) : xs.map f = ys.map some := by
  induction xs generalizing ys with
  | nil =>
    obtain rfl : [] = ys := by simpa using h
    rfl
  | cons x rest ih =>
    rw [List.mapM_cons] at h
    obtain ⟨first, hfirst, h⟩ := Option.bind_eq_some_iff.mp h
    obtain ⟨others, hothers, h⟩ := Option.bind_eq_some_iff.mp h
    obtain rfl := Option.some.inj h
    rw [List.map_cons, List.map_cons, hfirst, ih hothers]

/-- What several searches give is what one of them gives. -/
theorem mem_of_map_eq {α β : Type*} {f : α → Option β} {xs : List α} {ys : List β}
    (h : xs.map f = ys.map some) {y : β} : y ∈ ys ↔ ∃ x ∈ xs, f x = some y := by
  have hmem : some y ∈ xs.map f ↔ y ∈ ys := by simp [h]
  rw [← hmem, List.mem_map]

/-- What a search gives for several items, it gives for one of them. -/
theorem exists_of_mem_mapM {α β : Type*} {f : α → Option β} {xs : List α} {ys : List β}
    (h : xs.mapM f = some ys) {y : β} (hy : y ∈ ys) : ∃ x ∈ xs, f x = some y :=
  (mem_of_map_eq (map_eq_of_mapM_eq_some h)).mp hy

/-- The entry at a path was reached by it. -/
theorem path_of_entryAt? {t : Tree} {p : Path} {e : Entry} (h : entryAt? t p = some e) :
    e.path = p := by
  rw [entryAt?] at h
  split at h
  · cases h
  · split_ifs at h
    exact (congrArg Entry.path (Option.some.inj h)).symm

/-- The entries of a directory go on from it. -/
theorem goesOnFrom_of_mem_entries? {t : Tree} {e : Entry} {found : List Entry}
    (h : entries? t e = some found) {x : Entry} (hx : x ∈ found) : x.path.GoesOnFrom e.path := by
  rw [entries?] at h
  split_ifs at h
  · obtain rfl := Option.some.inj h
    cases hx
  · obtain rfl := Option.some.inj h
    obtain ⟨name, -, rfl⟩ := List.mem_map.mp hx
    exact goesOnFrom_below e.path name

/-- The special entries of a directory go on from it. -/
theorem goesOnFrom_of_mem_specialEntries {t : Tree} {tokens : List Token} {e x : Entry}
    (hx : x ∈ specialEntries t tokens e) : x.path.GoesOnFrom e.path := by
  unfold specialEntries at hx
  split at hx
  · obtain ⟨name, -, hentry⟩ := List.mem_filterMap.mp hx
    split_ifs at hentry
    rw [path_of_entryAt? hentry]
    exact .join e.path _
  · cases hx

/-- What stands below an entry goes on from it. -/
theorem goesOnFrom_of_mem_descendants? {t : Tree} {e : Entry} {found : List Entry}
    (h : descendants? t e = some found) {x : Entry} (hx : x ∈ found) :
    x.path.GoesOnFrom e.path := by
  rw [descendants?] at h
  split_ifs at h
  · obtain rfl := Option.some.inj h
    cases hx
  · obtain ⟨⟨names, node⟩, -, hentry⟩ := exists_of_mem_mapM h hx
    simp only at hentry
    split_ifs at hentry
    obtain rfl := Option.some.inj hentry
    exact goesOnFrom_below e.path _

/-- **Every step of a search goes on from where it is.** -/
theorem goesOnFrom_of_mem_expand? {t : Tree} :
    ∀ (pieces : List Piece) {e : Entry} {found : List Path},
      expand? t pieces e = some found → ∀ p ∈ found, p.GoesOnFrom e.path
  | [], e, found, h, p, hp => by
    obtain rfl := Option.some.inj h
    obtain rfl := List.mem_singleton.mp hp
    exact .refl _
  | .exactly name :: rest, e, found, h, p, hp => by
    rw [expand?] at h
    split at h
    · obtain rfl := Option.some.inj h
      cases hp
    · rename_i next hnext
      have hbelow := goesOnFrom_below e.path name
      rw [← path_of_entryAt? hnext] at hbelow
      exact (goesOnFrom_of_mem_expand? rest h p hp).trans hbelow
  | .matching tokens :: rest, e, found, h, p, hp => by
    rw [expand?] at h
    split at h
    · cases h
    · rename_i entries hentries
      obtain ⟨lists, hlists, rfl⟩ := Option.map_eq_some_iff.mp h
      obtain ⟨paths, hpaths, hmem⟩ := List.mem_flatten.mp hp
      obtain ⟨x, hx, hexpand⟩ := exists_of_mem_mapM hlists hpaths
      refine (goesOnFrom_of_mem_expand? rest hexpand p hmem).trans ?_
      rcases List.mem_append.mp hx with hx | hx
      · exact goesOnFrom_of_mem_specialEntries hx
      · exact goesOnFrom_of_mem_entries? hentries (List.mem_of_mem_filter hx)
  | [.anyDepth], e, found, h, p, hp => by
    rw [expand?] at h
    obtain ⟨entries, hentries, rfl⟩ := Option.map_eq_some_iff.mp h
    obtain ⟨x, hx, rfl⟩ := List.mem_map.mp hp
    exact goesOnFrom_of_mem_descendants? hentries (List.mem_of_mem_filter hx)
  | .anyDepth :: piece :: rest, e, found, h, p, hp => by
    -- The piece after `**` names entries at any depth, and the search goes on behind it.
    rw [expand?] at h
    split at h
    · cases h
    · rename_i entries hentries
      obtain ⟨lists, hlists, rfl⟩ := Option.map_eq_some_iff.mp h
      obtain ⟨paths, hpaths, hmem⟩ := List.mem_flatten.mp hp
      obtain ⟨x, hx, hexpand⟩ := exists_of_mem_mapM hlists hpaths
      exact (goesOnFrom_of_mem_expand? rest hexpand p hmem).trans
        (goesOnFrom_of_mem_descendants? hentries (List.mem_of_mem_filter hx))

/-- A search below an absolute path starts at the root. -/
theorem origin_of_isAbsolute {base : Path} (h : base.isAbsolute = true) :
    (origin base).1 = ⟨"/"⟩ := by
  simp [origin, h]

/-- A search below a relative path starts at `.` with its pieces. -/
theorem origin_of_relative {base : Path} (h : base.isAbsolute = false) :
    origin base = (⟨"."⟩, base.pieces.map .exactly) := by
  simp [origin, h, Path.pieces]

/-- A search that starts with names takes their steps first. -/
theorem steps_of_mem_expand?_exactly {t : Tree} {names : List String}
    (hnames : ∀ x ∈ names, '/' ∉ x.toList) {pieces : List Piece} {e : Entry} {found : List Path}
    (h : expand? t (names.map .exactly ++ pieces) e = some found) {p : Path} (hp : p ∈ found) :
    p.isAbsolute = true ∨
      (e.path.isAbsolute = false ∧ e.path.steps ++ names.filter (!Path.isIdle ·) <+: p.steps) := by
  induction names generalizing e with
  | nil =>
    rw [List.filter_nil, List.append_nil]
    exact goesOnFrom_of_mem_expand? pieces h p hp
  | cons name rest ih =>
    rw [List.map_cons, List.cons_append, expand?] at h
    split at h
    · obtain rfl := Option.some.inj h
      cases hp
    · rename_i next hnext
      obtain ⟨habs, hsteps⟩ := steps_below e.path (hnames name List.mem_cons_self)
      rw [← path_of_entryAt? hnext] at habs hsteps
      have hrest := ih (fun x hx => hnames x (List.mem_cons_of_mem name hx)) h
      rw [habs, hsteps, List.append_assoc, ← List.filter_append] at hrest
      exact hrest

/-- **What a search below a path finds goes on from the path.** -/
theorem goesOnFrom_of_mem_search {t : Tree} {base : Path} {pieces : List Piece} {start : Entry}
    (hstart : entryAt? t (origin base).1 = some start) {found : List Path}
    (h : expand? t ((origin base).2 ++ pieces) start = some found) {p : Path} (hp : p ∈ found) :
    p.GoesOnFrom base := by
  have hpath := path_of_entryAt? hstart
  by_cases habs : base.isAbsolute = true
  · -- The search starts at the root, so what it finds is absolute.
    have hgoes := goesOnFrom_of_mem_expand? _ h p hp
    rw [hpath, origin_of_isAbsolute habs] at hgoes
    exact Or.inl (hgoes.isAbsolute (by decide))
  · -- The search starts at `.`, which has no steps, and walks the path first.
    have hrel : base.isAbsolute = false := by simpa using habs
    rw [origin_of_relative hrel] at h hpath
    have hslash : ∀ x ∈ base.pieces, '/' ∉ x.toList := fun x hx =>
      Path.slash_notMem_of_mem_pieces hx
    have hsteps := steps_of_mem_expand?_exactly hslash h hp
    have hdot : (⟨"."⟩ : Path).steps = [] := by decide
    simp only [hpath, hdot, List.nil_append] at hsteps
    exact hsteps.imp_right fun hprefix => ⟨hrel, hprefix.2⟩

end Glob

namespace Tree

/-- What is found below a directory are files whose paths go on from that of the directory. -/
theorem of_mem_glob? {t : Tree} {base : Path} {pattern : List Char} {found : List Path}
    (h : t.glob? base pattern = some found) {p : Path} (hp : p ∈ found) :
    t.isFile p = true ∧ p.GoesOnFrom base := by
  rw [glob?] at h
  split at h
  · cases h
  · rename_i pieces hpieces
    simp only at h
    split at h
    · obtain rfl := Option.some.inj h
      cases hp
    · rename_i start hstart
      obtain ⟨paths, hpaths, rfl⟩ := Option.map_eq_some_iff.mp h
      rw [List.mem_mergeSort] at hp
      split_ifs at hp
      · cases hp
      · obtain ⟨hmem, hfile⟩ := List.mem_filter.mp hp
        exact ⟨hfile, Glob.goesOnFrom_of_mem_search hstart hpaths hmem⟩

/-- **Discovered paths lead to files** and are absolute or go on from the root. -/
theorem of_mem_sourceFiles? {t : Tree} {root : Path} {dirs extensions : List String}
    {files : List Path} (h : t.sourceFiles? root dirs extensions = some files) {p : Path}
    (hp : p ∈ files) : t.isFile p = true ∧ p.GoesOnFrom root := by
  rw [sourceFiles?] at h
  split at h
  · cases h
  · rename_i found hfound
    obtain rfl := Option.some.inj h
    have hmem := Path.mem_of_mem_dropRepeated hp
    rw [List.mem_mergeSort] at hmem
    obtain ⟨paths, hpaths, hmem⟩ := List.mem_flatten.mp hmem
    obtain ⟨dir, -, hdir⟩ := Glob.exists_of_mem_mapM hfound hpaths
    rw [filesBelow?] at hdir
    split_ifs at hdir
    · obtain ⟨lists, hlists, rfl⟩ := Option.map_eq_some_iff.mp hdir
      obtain ⟨list, hlist, hmem⟩ := List.mem_flatten.mp hmem
      obtain ⟨extension, -, hglob⟩ := Glob.exists_of_mem_mapM hlists hlist
      obtain ⟨hfile, hgoes⟩ := of_mem_glob? hglob hmem
      exact ⟨hfile, hgoes.trans (.join root _)⟩
    · obtain rfl := Option.some.inj hdir
      cases hmem

/-! ## Seen from the root once more -/

/-- Whether a root, walked again from where it leads, leads there: `.` does, and `src` does not. -/
def Recurs (t : Tree) (root : Path) : Prop :=
  t.follow? t.workingDirectory (root.steps ++ root.steps) =
    t.follow? t.workingDirectory root.steps

instance (t : Tree) (root : Path) : Decidable (t.Recurs root) :=
  inferInstanceAs (Decidable (_ = _))

/-- A root of names alone never leads back to itself. -/
theorem not_recurs_of_names {t : Tree} {root : Path} (hne : root.steps ≠ [])
    (hup : ".." ∉ root.steps) {l : Location}
    (hl : t.follow? t.workingDirectory root.steps = some l) : ¬t.Recurs root := by
  intro hrecurs
  have hnames : ∀ x ∈ root.steps, Path.isIdle x = false := fun x hx => by
    simpa using (List.mem_filter.mp hx).2
  have htwice : t.follow? t.workingDirectory (root.steps ++ root.steps) = some l := hrecurs.trans hl
  have honce := follow?_names hnames hup hl
  have hagain := follow?_names (by simpa using hnames) (by simpa using hup) htwice
  rw [honce] at hagain
  exact hne (by simpa using hagain)

/-- Whether a path leads to the same place seen from a root. -/
def KeepsPlace (t : Tree) (root p : Path) : Prop := t.locate? (root.resolve p) = t.locate? p

section Resolve

variable {t : Tree} {root p : Path} {l : Location}

/-- A path to a file leads somewhere. -/
theorem exists_locate?_of_isFile (h : t.isFile p = true) : ∃ l, t.locate? p = some l := by
  rw [← Option.ne_none_iff_exists']
  intro hnone
  simp [isFile, lookup?, hnone] at h

/-- The walk along a relative path that goes on from a root, seen from the root once more. -/
theorem follow?_resolve (hrel : p.isAbsolute = false) (hgoes : p.GoesOnFrom root) :
    ∃ rest, p.steps = root.steps ++ rest ∧ t.startOf p = t.workingDirectory ∧
      t.startOf (root.resolve p) = t.workingDirectory ∧
      (root.resolve p).steps = (root.steps ++ root.steps) ++ rest := by
  obtain ⟨hroot, rest, hrest⟩ := hgoes.resolve_left (by simp [hrel])
  have hresolve : root.resolve p = root.join p := by rw [Path.resolve, if_neg (by simp [hrel])]
  refine ⟨rest, hrest.symm, by simp [startOf, hrel], ?_, ?_⟩
  · rw [hresolve, startOf, Path.isAbsolute_join hrel, hroot]
    rfl
  · rw [hresolve, Path.steps_join hrel, ← hrest, List.append_assoc]

/-- **A path that goes on from a root that leads back to itself** keeps its place. -/
theorem keepsPlace_of_recurs (hgoes : p.GoesOnFrom root) (hl : t.locate? p = some l)
    (huse : (root.resolve p).isUsable = true) (hrecurs : t.Recurs root) : t.KeepsPlace root p := by
  by_cases habs : p.isAbsolute = true
  · rw [KeepsPlace, Path.resolve_of_isAbsolute habs]
  · have hrel : p.isAbsolute = false := by simpa using habs
    obtain ⟨rest, hrest, hstart, hstart', hsteps⟩ := follow?_resolve (t := t) hrel hgoes
    obtain ⟨-, hfollow, hlast⟩ := locate?_eq_some_iff.mp hl
    rw [KeepsPlace, hl]
    refine locate?_eq_some_iff.mpr ⟨huse, ?_, ?_⟩
    · rw [hstart', hsteps, follow?_append, hrecurs, ← follow?_append, ← hrest, ← hstart]
      exact hfollow
    · rw [Path.resolve, if_neg habs, Path.getLast?_pieces_join root hrel]
      exact hlast

/-- **A root from which a path keeps its place leads back to itself**, if the path only goes down
from there. -/
theorem recurs_of_keepsPlace (hrel : p.isAbsolute = false) (hgoes : p.GoesOnFrom root)
    (hup : ".." ∉ p.steps.drop root.steps.length) (hl : t.locate? p = some l)
    (hkeeps : t.KeepsPlace root p) : t.Recurs root := by
  obtain ⟨rest, hrest, hstart, hstart', hsteps⟩ := follow?_resolve (t := t) hrel hgoes
  obtain ⟨-, hfollow, -⟩ := locate?_eq_some_iff.mp hl
  obtain ⟨-, hfollow', -⟩ := locate?_eq_some_iff.mp (hkeeps.trans hl)
  rw [hstart, hrest, follow?_append] at hfollow
  rw [hstart', hsteps, follow?_append] at hfollow'
  obtain ⟨m, hm, hdown⟩ := Option.bind_eq_some_iff.mp hfollow
  obtain ⟨m', hm', hdown'⟩ := Option.bind_eq_some_iff.mp hfollow'
  rw [hrest, List.drop_left] at hup
  have hnames : ∀ x ∈ rest, Path.isIdle x = false := by
    intro x hx
    have hstep : x ∈ p.steps := by
      rw [hrest]
      exact List.mem_append_right _ hx
    simpa using (List.mem_filter.mp hstep).2
  -- Going down the same names leads to one place only from one place.
  have hplaces : m ++ rest = m' ++ rest :=
    (follow?_names hnames hup hdown).symm.trans (follow?_names hnames hup hdown')
  rw [Recurs, hm, hm', List.append_cancel_right hplaces]

/-- **No path of names keeps its place below a root of names.** -/
theorem not_keepsPlace_of_names (hrel : p.isAbsolute = false) (hgoes : p.GoesOnFrom root)
    (hup : ".." ∉ p.steps) (hne : root.steps ≠ []) (hl : t.locate? p = some l) :
    ¬t.KeepsPlace root p := by
  intro hkeeps
  have hrecurs := recurs_of_keepsPlace hrel hgoes (fun h => hup (List.mem_of_mem_drop h)) hl hkeeps
  obtain ⟨rest, hrest, hstart, -, -⟩ := follow?_resolve (t := t) hrel hgoes
  obtain ⟨-, hfollow, -⟩ := locate?_eq_some_iff.mp hl
  rw [hstart, hrest, follow?_append] at hfollow
  obtain ⟨m, hm, -⟩ := Option.bind_eq_some_iff.mp hfollow
  have hroot : ".." ∉ root.steps := by
    intro h
    rw [hrest] at hup
    exact hup (List.mem_append_left _ h)
  exact not_recurs_of_names hne hroot hm hrecurs

end Resolve

/-! ## Runs on discovered files -/

/-- Directives that cannot be loaded are reported as such. -/
theorem eq_loadDirectives_of_suppliedBlocks {t : Tree} {settings : Settings}
    {supply : DirectiveSupply} {failure : Failure}
    (h : t.suppliedBlocks settings supply = .error failure) : failure = .loadDirectives := by
  cases supply with
  | given blocks => cases h
  | resources =>
    simp only [suppliedBlocks] at h
    split at h
    · exact (Except.error.inj h).symm
    · cases h

/-- **Discovered paths lead to files** and are absolute or go on from the root. -/
theorem of_mem_discoveredFiles {t : Tree} {settings : Settings} {files : List Path}
    (h : t.discoveredFiles settings = .ok files) {p : Path} (hp : p ∈ files) :
    t.isFile p = true ∧ p.GoesOnFrom settings.repoRoot := by
  rw [discoveredFiles] at h
  split at h
  · cases h
  · rename_i found hfound
    obtain rfl := Except.ok.inj h
    exact of_mem_sourceFiles? hfound hp

section Runs

variable {t : Tree} {settings : Settings} {supply : DirectiveSupply} {tool : ToolInfo}
  {run : RunInfo} {files : List Path} (hfiles : t.discoveredFiles settings = .ok files)

include hfiles

/-- **A run that cannot read a file** comes to a discovered file that cannot be read from the root.
-/
theorem exists_unreadable_of_migrate {q : Path}
    (h : (t.migrate settings supply tool run).2 = .error (.failed (.read q))) :
    ∃ p ∈ files, t.readText? (settings.repoRoot.resolve p) = none := by
  rw [migrate, migrateFrom_snd_eq_error_iff (by simp), planRun_eq_error_iff] at h
  rcases h with hmerge | ⟨merged, -, ⟨failure, hlist, -⟩ | ⟨listed, hlisted, hplan⟩⟩
  · -- Loading directives never fails with the path of a file.
    rcases Settings.mergeWithAdditional_eq_error_iff.mp hmerge with
      ⟨failure, hblocks, hfailure⟩ | ⟨loaded, fault, -, hfault, -⟩
    · rw [eq_loadDirectives_of_suppliedBlocks hblocks] at hfailure
      cases hfailure
    · cases hfault
  · exact absurd (hfiles.symm.trans hlist) (by simp)
  · obtain rfl := Except.ok.inj (hfiles.symm.trans hlisted)
    obtain ⟨index, p, hfirst⟩ := planFiles_eq_error_iff.mp hplan
    refine ⟨p, List.mem_of_getElem? hfirst.getElem?_eq, ?_⟩
    cases hfirst.fault with
    | unreadable hread => exact hread

/-- **What a run changes** is the place of a listed file seen from the root, or of its copy. -/
theorem exists_of_node?_migrate_ne {l : Location}
    (h : (t.migrate settings supply tool run).1.node? l ≠ t.node? l) :
    ∃ p ∈ files, t.locate? (settings.repoRoot.resolve p) = some l ∨
      ∃ suffix ∈ settings.backups, t.locate? ((settings.repoRoot.resolve
        (settings.repoRoot.withoutRoot (settings.repoRoot.resolve p))).append suffix) = some l := by
  have hne : (t.migrate settings supply tool run).1 ≠ t := fun heq => h (by rw [heq])
  obtain ⟨merged, plan, hrun, -, hfst⟩ := exists_plan_of_migrateFrom_ne hne
  obtain ⟨-, listed, hlisted, hplan⟩ := planRun_eq_ok_iff.mp hrun
  obtain rfl := Except.ok.inj (hfiles.symm.trans hlisted)
  rw [migrate, hfst, applyPlan_fst] at h
  obtain ⟨c, hc, hplace⟩ := exists_of_node?_writes_ne h
  obtain ⟨p, hp, hplanned⟩ := exists_of_mem_changes hplan hc
  refine ⟨p, hp, ?_⟩
  rcases hplace with hfile | ⟨b, hb, hcopy⟩
  · exact Or.inl (locate?_of_target?_planned hplanned hfile)
  · obtain ⟨suffix, hsuffix, rfl⟩ := Option.map_eq_some_iff.mp hb
    obtain ⟨before, revised, -, -, hchange⟩ := planFile_eq_ok_iff.mp hplanned
    obtain ⟨out, -, rfl⟩ := Option.map_eq_some_iff.mp hchange.symm
    exact Or.inr ⟨suffix, hsuffix, (target?_eq_some_iff.mp hcopy).1⟩

end Runs

/-- **Which discovered files a run plans as themselves.** Every discovered path leads to a file. It
keeps its place if the root is absolute, or if the root leads back to itself and the path can be
used below it. A relative path that only goes down from the root keeps its place in no other case,
and so never below a root of names. If all discovered paths keep their places, a run fails to read
none of them as long as they hold text, and changes nothing but their files and the copies of these.
-/
theorem migrate_discovered {t : Tree} {settings : Settings} {files : List Path}
    (hfiles : t.discoveredFiles settings = .ok files) (supply : DirectiveSupply) (tool : ToolInfo)
    (run : RunInfo) :
    let root := settings.repoRoot
    let outcome := t.migrate settings supply tool run
    (∀ p ∈ files, t.isFile p = true ∧
      (root.isAbsolute = true ∨ t.Recurs root ∧ (root.resolve p).isUsable = true →
        t.KeepsPlace root p) ∧
      (p.isAbsolute = false → ".." ∉ p.steps.drop root.steps.length → t.KeepsPlace root p →
        t.Recurs root) ∧
      (p.isAbsolute = false → ".." ∉ p.steps → root.steps ≠ [] → ¬t.KeepsPlace root p)) ∧
    ((∀ p ∈ files, t.KeepsPlace root p) →
      ((∀ p ∈ files, ∃ text, t.readText? p = some text) →
        ∀ q, outcome.2 ≠ .error (.failed (.read q))) ∧
      ∀ l, outcome.1.node? l ≠ t.node? l → ∃ p ∈ files, t.locate? p = some l ∨
        ∃ suffix ∈ settings.backups,
          t.locate? ((root.resolve (root.withoutRoot (root.resolve p))).append suffix) =
            some l) := by
  intro root outcome
  refine ⟨fun p hp => ?_, fun hsame => ⟨fun hread q hfail => ?_, fun l hchange => ?_⟩⟩
  · obtain ⟨hfile, hgoes⟩ := of_mem_discoveredFiles hfiles hp
    obtain ⟨l, hl⟩ := exists_locate?_of_isFile hfile
    refine ⟨hfile, ?_, fun hrel hup hkeeps => recurs_of_keepsPlace hrel hgoes hup hl hkeeps,
      fun hrel hup hne => not_keepsPlace_of_names hrel hgoes hup hne hl⟩
    rintro (habs | ⟨hrecurs, huse⟩)
    · rw [KeepsPlace, Path.resolve_of_isAbsolute (hgoes.isAbsolute habs)]
    · exact keepsPlace_of_recurs hgoes hl huse hrecurs
  · obtain ⟨p, hp, hnone⟩ := exists_unreadable_of_migrate hfiles hfail
    obtain ⟨text, htext⟩ := hread p hp
    rw [readText?_congr (hsame p hp), htext] at hnone
    cases hnone
  · obtain ⟨p, hp, hplace⟩ := exists_of_node?_migrate_ne hfiles hchange
    rw [hsame p hp] at hplace
    exact ⟨p, hp, hplace⟩

/-- A tree with one source file in a repository, seen from a working directory. -/
def oneSource (workingDirectory : Location) : Tree where
  nodes := [(["r"], .directory), (["r", "src"], .directory),
    (["r", "src", "A.kt"], .file (.text "import com.old.Test\n"))]
  workingDirectory := workingDirectory

/-- A run on it where a class moves. -/
def oneSourceRun (workingDirectory : Location) (settings : Settings) :
    Tree × Except MigrationError MigrationOutcome :=
  (oneSource workingDirectory).migrate settings
    (.given [⟨"a", "MOVE com.old.Test -> com.new.Test"⟩]) ⟨"pkgmove", none⟩
    ⟨⟨2024, 1, 1, 0, 0, 0, 0⟩, none⟩

/-- From within the repository, the root `.` leads back to itself and the file is planned. -/
theorem migrate_discovered_from_root :
    (oneSource ["r"]).discoveredFiles {} = .ok [⟨"src/A.kt"⟩] ∧
      (oneSource ["r"]).Recurs ⟨"."⟩ ∧
      (oneSource ["r"]).KeepsPlace ⟨"."⟩ ⟨"src/A.kt"⟩ ∧
      ∀ q, (oneSourceRun ["r"] {}).2 ≠ .error (.failed (.read q)) := by
  have hfiles : (oneSource ["r"]).discoveredFiles {} = .ok [⟨"src/A.kt"⟩] := by decide +kernel
  have hrecurs : (oneSource ["r"]).Recurs ⟨"."⟩ := by decide +kernel
  have huse : (Path.resolve ⟨"."⟩ ⟨"src/A.kt"⟩).isUsable = true := by decide +kernel
  have htext : (oneSource ["r"]).readText? ⟨"src/A.kt"⟩ = some "import com.old.Test\n" := by
    decide +kernel
  obtain ⟨hplaces, hrun⟩ := migrate_discovered hfiles
    (.given [⟨"a", "MOVE com.old.Test -> com.new.Test"⟩]) ⟨"pkgmove", none⟩
    ⟨⟨2024, 1, 1, 0, 0, 0, 0⟩, none⟩
  have hkeeps := (hplaces ⟨"src/A.kt"⟩ List.mem_cons_self).2.1 (Or.inr ⟨hrecurs, huse⟩)
  refine ⟨hfiles, hrecurs, hkeeps, (hrun ?_).1 ?_⟩
  · simpa using hkeeps
  · simpa using ⟨_, htext⟩

/-- **A run that looks for a discovered file elsewhere.** From above the repository, whose root is
then a name, the file is discovered and can be read, but the run looks for it below the root of the
root and fails. -/
theorem migrate_misses_discovered :
    (oneSource []).discoveredFiles { repoRoot := ⟨"r"⟩ } = .ok [⟨"r/src/A.kt"⟩] ∧
      (oneSource []).readText? ⟨"r/src/A.kt"⟩ = some "import com.old.Test\n" ∧
      (oneSourceRun [] { repoRoot := ⟨"r"⟩ }).2 = .error (.failed (.read ⟨"r/r/src/A.kt"⟩)) := by
  decide +kernel

end Tree

end ImportMigration
