import ImportMigration.Proofs.PathSteps
import ImportMigration.Tree

/-! # Walks through a tree

A path is walked piece by piece from the root or from the working directory. Idle pieces never move,
so where a path leads depends on its start and its steps alone, as long as it leads anywhere.

* `Tree.follow?`: a walk along pieces.
* `Tree.follow?_eq_some_iff`: idle pieces only ask for a directory where they stand.
* `Tree.locate?_eq_some_iff`: where a path leads, by its steps.
* `Tree.SameDirs`: trees with the same directories, in which every path leads to the same place. -/

namespace ImportMigration

namespace Tree

/-- The place that a walk along pieces leads to. -/
def follow? (t : Tree) (start : Location) (pieces : List String) : Option Location :=
  pieces.foldlM t.step? start

/-- The place where the walk along a path starts. -/
def startOf (t : Tree) (p : Path) : Location := if p.isAbsolute then [] else t.workingDirectory

/-- A walk along nothing stays. -/
@[simp] theorem follow?_nil (t : Tree) (start : Location) : t.follow? start [] = some start := rfl

/-- A walk along a piece and others. -/
theorem follow?_cons (t : Tree) (start : Location) (piece : String) (rest : List String) :
    t.follow? start (piece :: rest) = (t.step? start piece).bind fun l => t.follow? l rest := rfl

/-- A walk along one list of pieces and then another. -/
theorem follow?_append (t : Tree) (start : Location) (pieces others : List String) :
    t.follow? start (pieces ++ others) =
      (t.follow? start pieces).bind fun l => t.follow? l others := by
  rw [follow?, List.foldlM_append]
  rfl

/-- An idle piece stays in a directory. -/
theorem step?_of_isIdle {t : Tree} {piece : String} (h : Path.isIdle piece = true)
    (start : Location) : t.step? start piece = if t.isDirAt start then some start else none := by
  by_cases hdir : t.isDirAt start = true <;> simp [step?, hdir, h]

/-- A step starts from a directory. -/
theorem isDirAt_of_step? {t : Tree} {start l : Location} {piece : String}
    (h : t.step? start piece = some l) : t.isDirAt start = true := by
  by_contra hdir
  simp [step?, hdir] at h

/-- **Idle pieces only ask for a directory where they stand.** A walk leads where the walk along its
steps leads; if it ends with an idle piece there must be a directory. -/
theorem follow?_eq_some_iff {t : Tree} {start l : Location} {pieces : List String} :
    t.follow? start pieces = some l ↔
      t.follow? start (pieces.filter (!Path.isIdle ·)) = some l ∧
        (pieces.getLast?.any Path.isIdle = true → t.isDirAt l = true) := by
  induction pieces generalizing start with
  | nil => simp
  | cons piece rest ih =>
    by_cases hidle : Path.isIdle piece = true
    · rw [follow?_cons, step?_of_isIdle hidle, List.filter_cons_of_neg (by simp [hidle])]
      cases hrest : rest with
      | nil =>
        by_cases hdir : t.isDirAt start = true
        · simp only [hdir, if_true, Option.bind_some, follow?_nil, List.filter_nil,
            Option.some.injEq]
          constructor
          · rintro rfl
            exact ⟨rfl, fun _ => hdir⟩
          · exact And.left
        · simp only [hdir, List.filter_nil, follow?_nil, Option.some.injEq]
          constructor
          · intro h
            cases h
          · rintro ⟨rfl, hlast⟩
            exact absurd (hlast (by simp [hidle])) hdir
      | cons next others =>
        rw [← hrest]
        have hlast : (piece :: rest).getLast? = rest.getLast? := by
          rw [hrest, List.getLast?_cons_cons]
        rw [hlast, ← ih]
        -- A walk with pieces left starts from a directory whether or not they are idle.
        by_cases hdir : t.isDirAt start = true
        · rw [if_pos hdir, Option.bind_some]
        · rw [if_neg hdir, Option.bind_none, hrest, follow?_cons]
          constructor
          · intro h
            cases h
          · intro h
            obtain ⟨m, hm, -⟩ := Option.bind_eq_some_iff.mp h
            exact absurd (isDirAt_of_step? hm) hdir
    · rw [List.filter_cons_of_pos (by simp [hidle]), follow?_cons, follow?_cons,
        Option.bind_eq_some_iff, Option.bind_eq_some_iff]
      have hlast : (piece :: rest).getLast?.any Path.isIdle = rest.getLast?.any Path.isIdle := by
        cases rest with
        | nil => simp [hidle]
        | cons next others => rw [List.getLast?_cons_cons]
      rw [hlast]
      constructor
      · rintro ⟨m, hm, h⟩
        exact ⟨⟨m, hm, (ih.mp h).1⟩, (ih.mp h).2⟩
      · rintro ⟨⟨m, hm, h⟩, hdir⟩
        exact ⟨m, hm, ih.mpr ⟨h, hdir⟩⟩

/-- Names are walked one below the other. -/
theorem follow?_names {t : Tree} {start l : Location} {names : List String}
    (hstep : ∀ x ∈ names, Path.isIdle x = false) (hup : ".." ∉ names)
    (h : t.follow? start names = some l) : l = start ++ names := by
  induction names generalizing start with
  | nil =>
    obtain rfl := Option.some.inj h
    simp
  | cons name rest ih =>
    obtain ⟨hname, hrest⟩ : name ≠ ".." ∧ ".." ∉ rest := by
      simpa [eq_comm, not_or] using hup
    rw [follow?_cons] at h
    obtain ⟨m, hm, hfollow⟩ := Option.bind_eq_some_iff.mp h
    have hdir := isDirAt_of_step? hm
    rw [step?] at hm
    simp only [hdir, hstep name List.mem_cons_self, hname, beq_iff_eq, Bool.not_true,
      Bool.false_eq_true, if_false, Option.some.injEq] at hm
    subst hm
    rw [ih (fun x hx => hstep x (List.mem_cons_of_mem name hx)) hrest hfollow, List.append_assoc]
    rfl

/-- **Where a path leads.** -/
theorem locate?_eq_some_iff {t : Tree} {p : Path} {l : Location} :
    t.locate? p = some l ↔ p.isUsable = true ∧ t.follow? (t.startOf p) p.steps = some l ∧
      (p.pieces.getLast?.any Path.isIdle = true → t.isDirAt l = true) := by
  rw [Path.steps, ← follow?_eq_some_iff, locate?]
  by_cases huse : p.isUsable = true
  · simp [huse, follow?, startOf]
  · simp [huse]

/-- A path leads to a directory if one stands where it leads. -/
theorem isDir_iff {t : Tree} {p : Path} :
    t.isDir p = true ↔ ∃ l, t.locate? p = some l ∧ t.isDirAt l = true := by
  rw [isDir, lookup?, beq_iff_eq, Option.bind_eq_some_iff]
  simp [isDirAt]

/-- A path without steps asks for a directory, so what leads to anything else has steps. -/
theorem steps_ne_nil_of_locate? {t : Tree} {p : Path} {l : Location} (hl : t.locate? p = some l)
    (hdir : t.isDirAt l = false) : p.steps ≠ [] := by
  obtain ⟨-, -, hlast⟩ := locate?_eq_some_iff.mp hl
  intro hnil
  obtain ⟨piece, hpiece⟩ := Option.ne_none_iff_exists'.mp
    (mt List.getLast?_eq_none_iff.mp p.pieces_ne_nil)
  have hidle : Path.isIdle piece = true := by
    simpa using List.filter_eq_nil_iff.mp hnil piece (List.mem_of_getLast? hpiece)
  have hthere := hlast (by simpa [hpiece] using hidle)
  rw [hdir] at hthere
  cases hthere

/-- Two paths with the same start and the same steps lead to one place if both lead anywhere. -/
theorem locate?_unique {t : Tree} {p q : Path} {l m : Location}
    (habs : p.isAbsolute = q.isAbsolute) (hsteps : p.steps = q.steps)
    (hp : t.locate? p = some l) (hq : t.locate? q = some m) : l = m := by
  obtain ⟨-, hl, -⟩ := locate?_eq_some_iff.mp hp
  obtain ⟨-, hm, -⟩ := locate?_eq_some_iff.mp hq
  rw [startOf, habs, hsteps] at hl
  exact Option.some.inj (hl.symm.trans hm)

/-! ## Trees with the same directories -/

/-- Whether two trees have the same directories and the same working directory. -/
structure SameDirs (t u : Tree) : Prop where
  /-- The working directory is the same. -/
  workingDirectory : u.workingDirectory = t.workingDirectory
  /-- Directories stand at the same places. -/
  isDirAt : ∀ l, u.isDirAt l = t.isDirAt l

/-- A tree has the directories it has. -/
theorem SameDirs.refl (t : Tree) : t.SameDirs t := ⟨rfl, fun _ => rfl⟩

/-- Trees that have the directories of one tree have those of each other. -/
theorem SameDirs.trans {t u v : Tree} (h : t.SameDirs u) (h' : u.SameDirs v) : t.SameDirs v :=
  ⟨h'.workingDirectory.trans h.workingDirectory, fun l => (h'.isDirAt l).trans (h.isDirAt l)⟩

/-- Every path leads to the same place in trees with the same directories. -/
theorem SameDirs.locate? {t u : Tree} (h : t.SameDirs u) (p : Path) :
    u.locate? p = t.locate? p := by
  have hstep : u.step? = t.step? := by
    funext l piece
    rw [step?, step?, h.isDirAt]
  rw [Tree.locate?, Tree.locate?, hstep, h.workingDirectory]

end Tree

end ImportMigration
