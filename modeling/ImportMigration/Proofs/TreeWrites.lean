import ImportMigration.Proofs.TreeWalks

/-! # What writes leave behind

A write puts a text at one place where no directory stands. It makes and removes no directory, so
whether later writes succeed and where they go was settled before the first of them.

* `Tree.target?`: the place that a text written to a path goes to.
* `Tree.leftBy`: the text that writes leave at a place, which is that of the last one there.
* `Tree.sameDirs_perform`, `Tree.node?_perform`: a run of writes keeps the directories, and up to
  the first write that fails it leaves at every place what the last write there put.
* `Tree.perform_eq_none_iff`: when a run of writes comes to its end. -/

namespace ImportMigration

namespace Tree

/-! ## One write -/

/-- After a node was put, the list of nodes has it at its place and is as before elsewhere. -/
theorem lookup_putNode (loc l : Location) (node : Node) (nodes : List (Location × Node)) :
    (putNode loc node nodes).lookup l = if l = loc then some node else nodes.lookup l := by
  have hlookup : ∀ (place : Location) (n : Node) (others : List (Location × Node)),
      ((place, n) :: others).lookup l = if l = place then some n else others.lookup l := by
    intro place n others
    by_cases h : l = place
    · simp [h]
    · have hne : (l == place) = false := by simpa using h
      rw [List.lookup_cons, hne, if_neg h]
  induction nodes with
  | nil => rw [putNode, hlookup]
  | cons head rest ih =>
    obtain ⟨place, n⟩ := head
    rw [putNode]
    by_cases hplace : place = loc
    · rw [if_pos hplace, hlookup, hlookup, hplace]
      split_ifs <;> rfl
    · rw [if_neg hplace, hlookup, hlookup, ih]
      by_cases hl : l = place
      · rw [if_pos hl, if_neg (hl ▸ hplace), if_pos hl]
      · rw [if_neg hl, if_neg hl]

/-- A node that is put below the root stands at its place, and nothing else changes. -/
theorem node?_put {t : Tree} {loc : Location} (hloc : loc ≠ []) (node : Node) (l : Location) :
    (t.put loc node).node? l = if l = loc then some node else t.node? l := by
  by_cases hl : l = []
  · subst hl
    rw [if_neg hloc.symm]
    rfl
  · have hempty : l.isEmpty = false := by simpa using hl
    simp only [node?, put, hempty, Bool.false_eq_true, if_false, lookup_putNode]

/-- The place that a text written to a path goes to, where it can be written. -/
def target? (t : Tree) (p : Path) : Option Location := (t.locate? p).filter (!t.isDirAt ·)

/-- A text goes where its path leads, unless that is a directory. -/
theorem target?_eq_some_iff {t : Tree} {p : Path} {l : Location} :
    t.target? p = some l ↔ t.locate? p = some l ∧ t.isDirAt l = false := by
  rw [target?, Option.filter_eq_some_iff]
  simp

/-- Texts go to the same places in trees with the same directories. -/
theorem SameDirs.target? {t u : Tree} (h : t.SameDirs u) : u.target? = t.target? := by
  funext p
  rw [Tree.target?, Tree.target?, h.locate?, funext h.isDirAt]

/-- Writing a text puts it at its target. -/
theorem writeText?_eq (t : Tree) (p : Path) (value : String) :
    t.writeText? p value = (t.target? p).map fun loc => t.put loc (.file (.text value)) := by
  rw [writeText?, target?]
  cases t.locate? p with
  | none => rfl
  | some loc => by_cases hdir : t.isDirAt loc = true <;> simp [Option.filter_some, hdir]

/-- What stands everywhere after a text was put at its target. -/
theorem node?_put_target {t : Tree} {p : Path} {loc : Location} (h : t.target? p = some loc)
    (node : Node) (l : Location) :
    (t.put loc node).node? l = if l = loc then some node else t.node? l := by
  refine node?_put ?_ node l
  rintro rfl
  -- The root is a directory, so nothing is written there.
  simpa [isDirAt, node?] using (target?_eq_some_iff.mp h).2

/-- Putting a text at its target keeps the directories. -/
theorem sameDirs_put {t : Tree} {p : Path} {loc : Location} (h : t.target? p = some loc)
    (content : Content) : t.SameDirs (t.put loc (.file content)) := by
  refine ⟨rfl, fun l => ?_⟩
  rw [isDirAt, node?_put_target h]
  by_cases hl : l = loc
  · subst hl
    rw [if_pos rfl, (target?_eq_some_iff.mp h).2]
    rfl
  · rw [if_neg hl]
    rfl

/-! ## Runs of writes -/

/-- Whether a write can be carried out. -/
def accepts (t : Tree) (w : FileWrite) : Bool := (t.target? w.path).isSome

/-- Writes can be carried out in the same cases in trees with the same directories. -/
theorem SameDirs.accepts {t u : Tree} (h : t.SameDirs u) : u.accepts = t.accepts := by
  funext w
  rw [Tree.accepts, Tree.accepts, h.target?]

/-- The text that writes leave at a place: that of the last one there. -/
def leftBy (t : Tree) (ws : List FileWrite) (l : Location) : Option String :=
  ws.reverse.findSome? fun w => if t.target? w.path = some l then some w.text else none

/-- Writes leave the same texts in trees with the same directories. -/
theorem SameDirs.leftBy {t u : Tree} (h : t.SameDirs u) : u.leftBy = t.leftBy := by
  funext ws l
  rw [Tree.leftBy, Tree.leftBy, h.target?]

/-- No writes leave no text. -/
@[simp] theorem leftBy_nil (t : Tree) (l : Location) : t.leftBy [] l = none := rfl

/-- A write leaves its text at its target, unless later ones leave another. -/
theorem leftBy_cons (t : Tree) (w : FileWrite) (ws : List FileWrite) (l : Location) :
    t.leftBy (w :: ws) l =
      (t.leftBy ws l).or (if t.target? w.path = some l then some w.text else none) := by
  rw [leftBy, List.reverse_cons, List.findSome?_append, List.findSome?_singleton, leftBy]

/-- Later writes leave their texts, and earlier ones leave theirs elsewhere. -/
theorem leftBy_append (t : Tree) (ws vs : List FileWrite) (l : Location) :
    t.leftBy (ws ++ vs) l = (t.leftBy vs l).or (t.leftBy ws l) := by
  rw [leftBy, List.reverse_append, List.findSome?_append, leftBy, leftBy]

/-- A text that writes leave is that of one of them. -/
theorem exists_of_leftBy_eq_some {t : Tree} {ws : List FileWrite} {l : Location} {text : String}
    (h : t.leftBy ws l = some text) : ∃ w ∈ ws, t.target? w.path = some l ∧ w.text = text := by
  obtain ⟨w, hw, hleft⟩ := List.exists_of_findSome?_eq_some h
  split_ifs at hleft with htarget
  exact ⟨w, List.mem_reverse.mp hw, htarget, Option.some.inj hleft⟩

/-- Writes leave no text exactly where none of them goes. -/
theorem leftBy_eq_none_iff {t : Tree} {ws : List FileWrite} {l : Location} :
    t.leftBy ws l = none ↔ ∀ w ∈ ws, t.target? w.path ≠ some l := by
  rw [leftBy, List.findSome?_eq_none_iff]
  simp

/-- Where a write goes, writes leave some text. -/
theorem exists_leftBy_of_mem {t : Tree} {ws : List FileWrite} {w : FileWrite} {l : Location}
    (hw : w ∈ ws) (hl : t.target? w.path = some l) : ∃ text, t.leftBy ws l = some text := by
  rw [← Option.ne_none_iff_exists', Ne, leftBy_eq_none_iff]
  intro hnone
  exact hnone w hw hl

/-- **A run of writes keeps the directories.** -/
theorem sameDirs_perform (t : Tree) (ws : List FileWrite) : t.SameDirs (t.perform ws).1 := by
  induction ws generalizing t with
  | nil => exact .refl t
  | cons w rest ih =>
    rw [perform, writeText?_eq]
    cases htarget : t.target? w.path with
    | none => exact .refl t
    | some loc => exact (sameDirs_put htarget _).trans (ih _)

/-- **A run of writes leaves the last text at every place**, up to the first write that fails. -/
theorem node?_perform (t : Tree) (ws : List FileWrite) (l : Location) :
    (t.perform ws).1.node? l =
      ((t.leftBy (ws.takeWhile t.accepts) l).map fun text => .file (.text text)).or
        (t.node? l) := by
  induction ws generalizing t with
  | nil => simp [perform]
  | cons w rest ih =>
    rw [perform, writeText?_eq]
    cases htarget : t.target? w.path with
    | none =>
      rw [List.takeWhile_cons_of_neg (by simp [accepts, htarget]), leftBy_nil]
      rfl
    | some loc =>
      have hdirs := sameDirs_put htarget (.text w.text)
      rw [Option.map_some, List.takeWhile_cons_of_pos (by simp [accepts, htarget]), leftBy_cons]
      simp only [ih, hdirs.accepts, hdirs.leftBy, node?_put_target htarget, htarget,
        Option.some.injEq]
      cases t.leftBy (rest.takeWhile t.accepts) l with
      | some text => rfl
      | none =>
        by_cases hl : l = loc
        · subst hl
          simp
        · simp [hl, Ne.symm hl]

/-- A run of writes changes only places that one of its writes goes to. -/
theorem exists_target?_of_node?_perform_ne {t : Tree} {ws : List FileWrite} {l : Location}
    (h : (t.perform ws).1.node? l ≠ t.node? l) : ∃ w ∈ ws, t.target? w.path = some l := by
  rw [node?_perform] at h
  obtain ⟨text, hleft⟩ : ∃ text, t.leftBy (ws.takeWhile t.accepts) l = some text := by
    rw [← Option.ne_none_iff_exists']
    intro hnone
    rw [hnone] at h
    exact h rfl
  obtain ⟨w, hw, htarget, -⟩ := exists_of_leftBy_eq_some hleft
  exact ⟨w, List.takeWhile_subset _ hw, htarget⟩

/-- A run of writes comes to its end if each of them can be carried out. -/
theorem perform_eq_none_iff {t : Tree} {ws : List FileWrite} :
    (t.perform ws).2 = none ↔ ∀ w ∈ ws, t.accepts w = true := by
  induction ws generalizing t with
  | nil => simp [perform]
  | cons w rest ih =>
    rw [perform, writeText?_eq]
    cases htarget : t.target? w.path with
    | none => simp [accepts, htarget]
    | some loc =>
      have haccepts : t.accepts w = true := by simp [accepts, htarget]
      simp [ih, (sameDirs_put htarget (.text w.text)).accepts, haccepts]

/-! ## Reading after writes -/

/-- What is read where a path leads. -/
theorem readText?_eq_some_iff {t : Tree} {p : Path} {value : String} :
    t.readText? p = some value ↔
      ∃ l, t.locate? p = some l ∧ t.node? l = some (.file (.text value)) := by
  rw [readText?, lookup?]
  cases t.locate? p with
  | none => simp
  | some l =>
    cases hnode : t.node? l with
    | none => simp [hnode]
    | some node =>
      cases node with
      | directory => simp [hnode]
      | file content => cases content <;> simp [hnode]

/-- Two paths that lead to one place are read alike. -/
theorem readText?_congr {t : Tree} {p q : Path} (h : t.locate? p = t.locate? q) :
    t.readText? p = t.readText? q := by
  rw [readText?, readText?, lookup?, lookup?, h]

/-- What is read after a run of writes: what they left, or else what was there. -/
theorem readText?_perform {t : Tree} {p : Path} {l : Location} (hl : t.locate? p = some l)
    (ws : List FileWrite) :
    (t.perform ws).1.readText? p = (t.leftBy (ws.takeWhile t.accepts) l).or (t.readText? p) := by
  have hlocate : (t.perform ws).1.locate? p = some l := ((sameDirs_perform t ws).locate? p).trans hl
  simp only [readText?, lookup?, hlocate, hl, Option.bind_some, node?_perform]
  cases t.leftBy (ws.takeWhile t.accepts) l with
  | none => rfl
  | some text => rfl

end Tree

end ImportMigration
