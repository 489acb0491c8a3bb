import ImportMigration.Plan
import ImportMigration.Proofs.Trimming
import Mathlib.Data.List.DropRight

/-! # The steps of a path

Of the pieces between the slashes of a path, the empty ones and `.` lead nowhere. The others are its
*steps*: two spellings that start alike and have the same steps name the same way through a tree.

* `Path.steps`: the pieces that lead somewhere.
* `Path.steps_join`: a path below another goes on where that one ends.
* `Path.relativeTo?_eq_some`: what is left of a path below another.
* `Path.components_resolve_withoutRoot`: a path that is shown without the root and resolved against
  the root again is the same path.
* `Path.resolve_withoutRoot`: so it starts alike and has the steps it had before. -/

namespace ImportMigration

namespace Path

/-- The pieces of a path that lead somewhere. -/
def steps (p : Path) : List String := p.pieces.filter (!isIdle ·)

/-! ## Pieces -/

/-- A path has a piece, if only an empty one. -/
theorem pieces_ne_nil (p : Path) : p.pieces ≠ [] := by
  rw [pieces, ne_eq, List.map_eq_nil_iff]
  exact List.splitOnP_ne_nil _ _

/-- No piece holds a slash. -/
theorem slash_notMem_of_mem_pieces {p : Path} {piece : String} (h : piece ∈ p.pieces) :
    '/' ∉ piece.toList := by
  obtain ⟨chars, hchars, rfl⟩ := List.mem_map.mp h
  rw [String.toList_ofList]
  intro hslash
  simpa using (Text.of_mem_splitOnP hchars '/' hslash).2

/-- A slash ends a piece and starts another. -/
theorem pieces_append_slash (a b : String) :
    (⟨a ++ "/" ++ b⟩ : Path).pieces = (⟨a⟩ : Path).pieces ++ (⟨b⟩ : Path).pieces := by
  have hchars : (a ++ "/" ++ b).toList = a.toList ++ '/' :: b.toList := by
    rw [String.toList_append, String.toList_append, List.append_assoc]
    rfl
  simp only [pieces, List.splitOn]
  rw [hchars, List.splitOnP_append_cons _ _ (by simp), List.map_append]

/-- The empty path has one empty piece. -/
theorem pieces_empty : (⟨""⟩ : Path).pieces = [""] := rfl

/-- The pieces of a spelling by pieces. -/
theorem pieces_ofPieces {l : List String} (hne : l ≠ []) (hl : ∀ x ∈ l, '/' ∉ x.toList) :
    (ofPieces l).pieces = l := by
  rw [pieces, ofPieces, String.toList_intercalate, show "/".toList = ['/'] from rfl,
    List.splitOn_intercalate]
  · simp
  · intro chars hchars
    obtain ⟨x, hx, rfl⟩ := List.mem_map.mp hchars
    exact hl x hx
  · simpa using hne

/-- The first piece of a path tells whether it is absolute, the empty path apart. -/
theorem head?_pieces_eq_empty_iff (p : Path) :
    p.pieces.head? = some "" ↔ p.isAbsolute = true ∨ p.text = "" := by
  obtain ⟨text⟩ := p
  simp only [pieces, isAbsolute, List.splitOn]
  cases hchars : text.toList with
  | nil =>
    have htext : text = "" := by simpa using hchars
    simp [htext]
  | cons c rest =>
    have htext : text ≠ "" := by
      rintro rfl
      cases hchars
    rw [List.splitOnP_cons_eq_if_modifyHead]
    by_cases hslash : c = '/'
    · simp [hslash]
    · obtain ⟨first, others, hsplit⟩ := List.exists_cons_of_ne_nil
        (List.splitOnP_ne_nil (· == '/') rest)
      simp [hslash, hsplit, htext]

/-! ## Steps of a path below another -/

/-- A relative path below another starts where that one starts. -/
theorem isAbsolute_join {p q : Path} (hq : q.isAbsolute = false) :
    (p.join q).isAbsolute = p.isAbsolute := by
  rw [join, if_neg (by simp [hq])]
  by_cases hp : p.text = ""
  · simp_all [isAbsolute]
  · have hchars : p.text.toList ≠ [] := by simpa using hp
    split
    · rw [isAbsolute, String.toList_append, List.head?_append_of_ne_nil _ hchars]
      rfl
    · rw [isAbsolute, String.toList_append, String.toList_append, List.append_assoc,
        List.head?_append_of_ne_nil _ hchars]
      rfl

/-- The pieces of a relative path below another follow those of the other, of which an empty last
one is left out. -/
theorem pieces_join {p q : Path} (hq : q.isAbsolute = false) (hp : p.text ≠ "") :
    ∃ front, front ≠ [] ∧ (p.pieces = front ∨ p.pieces = front ++ [""]) ∧
      (p.join q).pieces = front ++ q.pieces := by
  rw [join, if_neg (by simp [hq])]
  obtain ⟨text⟩ := p
  by_cases hslash : text.toList.getLast? = some '/'
  · obtain ⟨front, rfl⟩ : ∃ front, text = front ++ "/" := by
      obtain ⟨chars, hchars⟩ := List.getLast?_eq_some_iff.mp hslash
      refine ⟨String.ofList chars, ?_⟩
      rw [← String.ofList_toList (s := text), hchars, String.ofList_append]
    have hend : (⟨front ++ "/"⟩ : Path).pieces = (⟨front⟩ : Path).pieces ++ [""] := by
      rw [← pieces_empty, ← pieces_append_slash, String.append_empty]
    refine ⟨(⟨front⟩ : Path).pieces, pieces_ne_nil _, Or.inr hend, ?_⟩
    rw [if_pos (by simp)]
    exact pieces_append_slash front q.text
  · refine ⟨(⟨text⟩ : Path).pieces, pieces_ne_nil _, Or.inl rfl, ?_⟩
    rw [if_neg (by simp [hp, hslash])]
    exact pieces_append_slash text q.text

/-- A relative path below the empty one is that path. -/
theorem join_of_empty {p q : Path} (hq : q.isAbsolute = false) (hp : p.text = "") :
    p.join q = q := by
  rw [join, if_neg (by simp [hq]), if_pos (by simp [hp]), hp, String.empty_append]

/-- **A relative path below another goes on where that one ends.** -/
theorem steps_join {p q : Path} (hq : q.isAbsolute = false) :
    (p.join q).steps = p.steps ++ q.steps := by
  by_cases hp : p.text = ""
  · have hsteps : p.steps = [] := by
      obtain ⟨text⟩ := p
      obtain rfl := hp
      rfl
    rw [join_of_empty hq hp, hsteps, List.nil_append]
  · obtain ⟨front, -, hfront, hjoin⟩ := pieces_join hq hp
    rw [steps, hjoin, List.filter_append, steps, steps]
    rcases hfront with hfront | hfront <;> simp [hfront, isIdle]

/-- The last piece of a relative path below another is its own. -/
theorem getLast?_pieces_join (p : Path) {q : Path} (hq : q.isAbsolute = false) :
    (p.join q).pieces.getLast? = q.pieces.getLast? := by
  by_cases hp : p.text = ""
  · rw [join_of_empty hq hp]
  · obtain ⟨front, -, -, hjoin⟩ := pieces_join hq hp
    rw [hjoin, List.getLast?_append_of_ne_nil _ q.pieces_ne_nil]

/-! ## Idle pieces at the ends -/

/-- Trimming pieces at their end keeps those that lead somewhere. -/
theorem filter_trimIdleEnd (l : List String) :
    (trimIdleEnd l).filter (!isIdle ·) = l.filter (!isIdle ·) := by
  have hidle : (l.reverse.takeWhile isIdle).filter (!isIdle ·) = [] := by
    rw [List.filter_eq_nil_iff]
    intro x hx
    simp [List.mem_takeWhile_imp hx]
  have hreverse : (l.reverse.dropWhile isIdle).filter (!isIdle ·) =
      l.reverse.filter (!isIdle ·) := by
    conv_rhs => rw [← List.takeWhile_append_dropWhile (p := isIdle) (l := l.reverse)]
    rw [List.filter_append, hidle, List.nil_append]
  rw [trimIdleEnd, List.filter_reverse, hreverse, List.filter_reverse, List.reverse_reverse]

/-- Trimming at the end leaves a start of the pieces. -/
theorem trimIdleEnd_isPrefix (l : List String) : trimIdleEnd l <+: l :=
  List.rdropWhile_prefix isIdle l

/-- Trimming at the end keeps the first piece if it keeps any. -/
theorem head?_of_trimIdleEnd {l : List String} {x : String} (h : (trimIdleEnd l).head? = some x) :
    l.head? = some x := by
  obtain ⟨rest, hrest⟩ := trimIdleEnd_isPrefix l
  rw [← hrest, List.head?_append, h, Option.some_or]

/-- Dropping pieces drops as many steps. -/
theorem filter_dropPieces (n : Nat) (l : List String) :
    (dropPieces n l).filter (!isIdle ·) = (l.filter (!isIdle ·)).drop n := by
  induction n, l using dropPieces.induct with
  | case1 l =>
    rw [dropPieces, trimIdleStart, List.drop_zero]
    induction l with
    | nil => rfl
    | cons x rest ih => by_cases hx : isIdle x = true <;> simp [hx, ih]
  | case2 n => simp [dropPieces]
  | case3 n piece rest hidle ih => simp [dropPieces, hidle, ih]
  | case4 n piece rest hidle ih => simp [dropPieces, hidle, ih]

/-- What is left after dropping pieces starts with one that leads somewhere. -/
theorem isIdle_head?_dropPieces (n : Nat) (l : List String) :
    ∀ x ∈ (dropPieces n l).head?, isIdle x = false := by
  induction n, l using dropPieces.induct with
  | case1 l =>
    rw [dropPieces, trimIdleStart]
    intro x hx
    have hnot := List.head?_dropWhile_not isIdle l
    rw [Option.mem_def.mp hx] at hnot
    simpa using hnot
  | case2 n => simp [dropPieces]
  | case3 n piece rest hidle ih => rwa [dropPieces, if_pos hidle]
  | case4 n piece rest hidle ih => rwa [dropPieces, if_neg hidle]

/-- What is left after dropping pieces is among them. -/
theorem dropPieces_suffix (n : Nat) (l : List String) : dropPieces n l <:+ l := by
  induction n, l using dropPieces.induct with
  | case1 l =>
    rw [dropPieces]
    exact List.dropWhile_suffix isIdle
  | case2 n => exact List.suffix_refl _
  | case3 n piece rest hidle ih =>
    rw [dropPieces, if_pos hidle]
    exact ih.trans (List.suffix_cons piece rest)
  | case4 n piece rest hidle ih =>
    rw [dropPieces, if_neg hidle]
    exact ih.trans (List.suffix_cons piece rest)

/-- The steps of a spelling by pieces. -/
theorem steps_ofPieces {l : List String} (hl : ∀ x ∈ l, '/' ∉ x.toList) :
    (ofPieces l).steps = l.filter (!isIdle ·) := by
  by_cases hne : l = []
  · subst hne
    rfl
  · rw [steps, pieces_ofPieces hne hl]

/-- A spelling by pieces that does not start with an empty one is relative. -/
theorem isAbsolute_ofPieces {l : List String} (hl : ∀ x ∈ l, '/' ∉ x.toList)
    (hhead : l.head? ≠ some "") : (ofPieces l).isAbsolute = false := by
  by_cases hne : l = []
  · subst hne
    rfl
  · rw [Bool.eq_false_iff]
    intro habs
    refine hhead ?_
    rw [← pieces_ofPieces hne hl]
    exact (head?_pieces_eq_empty_iff _).mpr (Or.inl habs)

/-! ## Components -/

/-- Only the root and a leading `.` lead a path. -/
theorem eq_of_leading? {p : Path} {c : Component} (h : p.leading? = some c) :
    c = .root ∨ c = .current := by
  rw [leading?] at h
  split_ifs at h with habs hdot
  · exact Or.inl (Option.some.inj h).symm
  · exact Or.inr (Option.some.inj h).symm

/-- A path is absolute when the root leads it. -/
theorem isAbsolute_iff_leading? (p : Path) : p.isAbsolute = true ↔ p.leading? = some .root := by
  rw [leading?]
  by_cases habs : p.isAbsolute = true
  · simp [habs]
  · by_cases hdot : p.pieces.head? = some "." <;> simp [habs, hdot]

/-- A spelling by pieces that does not start with an empty one is led by a first piece `.` only. -/
theorem leading?_ofPieces {l : List String} (hl : ∀ x ∈ l, '/' ∉ x.toList)
    (hhead : l.head? ≠ some "") :
    (ofPieces l).leading? = if l.head? = some "." then some .current else none := by
  rw [leading?, isAbsolute_ofPieces hl hhead]
  by_cases hne : l = []
  · subst hne
    rfl
  · simp [pieces_ofPieces hne hl]

/-- The leading component stands for an idle piece, so the steps are in the body. -/
theorem filter_body (p : Path) : p.body.filter (!isIdle ·) = p.steps := by
  rw [body, steps]
  split_ifs with hleading
  · obtain ⟨first, rest, hpieces⟩ := List.exists_cons_of_ne_nil p.pieces_ne_nil
    have hfirst : isIdle first = true := by
      rw [leading?] at hleading
      split_ifs at hleading with habs hdot
      · have hhead := (head?_pieces_eq_empty_iff p).mpr (Or.inl habs)
        simp_all [isIdle]
      · simp_all [isIdle]
      · cases hleading
    simp [hpieces, hfirst]
  · rfl

/-- The components of a path are its leading one and its steps. -/
theorem components_eq (p : Path) :
    p.components = p.leading?.toList ++ p.steps.map componentOf := by
  rw [components, filter_body]

/-- Steps are told apart by their components. -/
theorem componentOf_injective : Function.Injective componentOf := by
  intro a b h
  simp only [componentOf] at h
  split_ifs at h with ha hb hb <;> simp_all

/-- No step has a component that can lead a path. -/
theorem componentOf_ne_leading (p : Path) (step : String) :
    p.leading? ≠ some (componentOf step) := by
  intro h
  have hkind := eq_of_leading? h
  simp only [componentOf] at hkind
  split_ifs at hkind <;> simp at hkind

/-- A path whose components start with those of a path other than the empty one starts as that one
does, and its steps start with the steps of that one. -/
theorem of_components_prefix {base p : Path} (h : base.components <+: p.components)
    (hne : base.components ≠ []) : base.leading? = p.leading? ∧ base.steps <+: p.steps := by
  rw [components_eq, components_eq] at h
  have hleading : base.leading? = p.leading? := by
    obtain ⟨others, hothers⟩ := h
    cases hbase : base.leading? with
    | some c =>
      cases hp : p.leading? with
      | some d =>
        rw [hbase, hp] at hothers
        simp only [Option.toList_some, List.cons_append, List.nil_append,
          List.cons.injEq] at hothers
        rw [hothers.1]
      | none =>
        -- The first component is a step of `p`, and no step leads `base`.
        rw [hbase, hp] at hothers
        cases hsteps : p.steps with
        | nil => simp [hsteps] at hothers
        | cons step rest =>
          simp only [hsteps, Option.toList_some, Option.toList_none, List.cons_append,
            List.nil_append, List.map_cons, List.cons.injEq] at hothers
          exact absurd (hothers.1 ▸ hbase) (componentOf_ne_leading base step)
    | none =>
      cases hp : p.leading? with
      | none => rfl
      | some d =>
        rw [components_eq, hbase] at hne
        rw [hbase, hp] at hothers
        cases hsteps : base.steps with
        | nil => simp [hsteps] at hne
        | cons step rest =>
          simp only [hsteps, Option.toList_some, Option.toList_none, List.cons_append,
            List.nil_append, List.map_cons, List.cons.injEq] at hothers
          exact absurd (hothers.1 ▸ hp) (componentOf_ne_leading p step)
  refine ⟨hleading, ?_⟩
  rw [hleading, List.prefix_append_right_inj] at h
  obtain ⟨others, hothers⟩ := h
  obtain ⟨front, back, hsteps, hfront, -⟩ := List.map_eq_append_iff.mp hothers.symm
  rw [List.map_injective_iff.mpr componentOf_injective hfront] at hsteps
  exact ⟨back, hsteps.symm⟩

/-- Paths with the same components start alike and have the same steps. -/
theorem of_components_eq {p q : Path} (h : p.components = q.components) :
    p.leading? = q.leading? ∧ p.steps = q.steps := by
  by_cases hne : p.components = []
  · have hq := h ▸ hne
    rw [components_eq, List.append_eq_nil_iff, List.map_eq_nil_iff, Option.toList_eq_nil_iff]
      at hne hq
    rw [hne.1, hne.2, hq.1, hq.2]
    exact ⟨rfl, rfl⟩
  · have hpq : p.components <+: q.components := h ▸ List.prefix_refl _
    have hqp : q.components <+: p.components := h ▸ List.prefix_refl _
    obtain ⟨hleading, hsteps⟩ := of_components_prefix hpq hne
    obtain ⟨-, hsteps'⟩ := of_components_prefix hqp (h ▸ hne)
    exact ⟨hleading, hsteps.eq_of_length_le hsteps'.length_le⟩

/-- Paths with the same components are absolute alike. -/
theorem isAbsolute_eq_of_leading?_eq {p q : Path} (h : p.leading? = q.leading?) :
    p.isAbsolute = q.isAbsolute := by
  rw [Bool.eq_iff_iff, isAbsolute_iff_leading?, isAbsolute_iff_leading?, h]

/-! ## Taking a root off and putting it back -/

/-- The pieces after the leading component hold no slash. -/
theorem slash_notMem_of_mem_body {p : Path} {piece : String} (h : piece ∈ p.body) :
    '/' ∉ piece.toList := by
  rw [body] at h
  split_ifs at h
  · exact slash_notMem_of_mem_pieces (List.mem_of_mem_tail h)
  · exact slash_notMem_of_mem_pieces h

/-- **What is left of a path below another.** It is relative unless nothing was taken off, and it
has the steps that follow those of the other path, which starts alike. -/
theorem relativeTo?_eq_some {p base r : Path} (h : p.relativeTo? base = some r)
    (hne : base.components ≠ []) :
    r.isAbsolute = false ∧ p.steps = base.steps ++ r.steps ∧ p.leading? = base.leading? := by
  have hfull : base.components.isEmpty = false := by simpa using hne
  rw [relativeTo?, hfull] at h
  simp only [Bool.false_eq_true, if_false] at h
  split_ifs at h with hprefix
  obtain ⟨hleading, hsteps⟩ := of_components_prefix (List.isPrefixOf_iff_prefix.mp hprefix) hne
  have hcount : base.components.length - p.leading?.toList.length = base.steps.length := by
    rw [components_eq, hleading, List.length_append, List.length_map, Nat.add_sub_cancel_left]
  rw [hcount, Option.some.injEq] at h
  subst h
  have hslash : ∀ x ∈ trimIdleEnd (dropPieces base.steps.length p.body), '/' ∉ x.toList := by
    intro x hx
    have hdropped := (trimIdleEnd_isPrefix _).subset hx
    exact slash_notMem_of_mem_body ((dropPieces_suffix _ _).subset hdropped)
  refine ⟨isAbsolute_ofPieces hslash ?_, ?_, hleading.symm⟩
  · intro hhead
    have hidle := isIdle_head?_dropPieces _ _ "" (head?_of_trimIdleEnd hhead)
    simp [isIdle] at hidle
  · rw [steps_ofPieces hslash, filter_trimIdleEnd, filter_dropPieces, filter_body]
    conv_lhs => rw [← List.take_append_drop base.steps.length p.steps]
    rw [← List.prefix_iff_eq_take.mp hsteps]

/-- Below the empty path a path keeps its start and all its steps. -/
theorem relativeTo?_eq_some_of_empty {p base r : Path} (h : p.relativeTo? base = some r)
    (hempty : base.components = []) : r.leading? = p.leading? ∧ r.steps = p.steps := by
  have htail : ∀ x ∈ trimIdleEnd p.pieces.tail, '/' ∉ x.toList := by
    intro x hx
    exact slash_notMem_of_mem_pieces (List.mem_of_mem_tail ((trimIdleEnd_isPrefix _).subset hx))
  rw [relativeTo?, hempty] at h
  simp only [List.isPrefixOf_nil_left, List.isEmpty_nil, if_true] at h
  split_ifs at h with habs hleading <;> obtain rfl := Option.some.inj h
  · have hroot := (isAbsolute_iff_leading? p).mp habs
    have hbody : p.body = p.pieces.tail := by
      rw [body, if_pos]
      simp [hroot]
    have hpieces := pieces_append_slash "" (ofPieces (trimIdleEnd p.pieces.tail)).text
    rw [String.empty_append, pieces_empty] at hpieces
    refine ⟨?_, ?_⟩
    · rw [hroot, ← isAbsolute_iff_leading?, isAbsolute, String.toList_append]
      rfl
    · calc (⟨"/" ++ (ofPieces (trimIdleEnd p.pieces.tail)).text⟩ : Path).steps
          = (ofPieces (trimIdleEnd p.pieces.tail)).steps := by
            rw [steps, hpieces]
            simp [isIdle, steps]
        _ = p.steps := by rw [steps_ofPieces htail, filter_trimIdleEnd, ← hbody, filter_body]
  · have hbody : p.body = p.pieces.tail := by rw [body, if_pos hleading]
    have hdot : ∀ x ∈ "." :: trimIdleEnd p.pieces.tail, '/' ∉ x.toList := by
      intro x hx
      rcases List.mem_cons.mp hx with rfl | hx
      · decide
      · exact htail x hx
    refine ⟨?_, ?_⟩
    · obtain ⟨c, hc⟩ := Option.isSome_iff_exists.mp hleading
      rcases eq_of_leading? hc with rfl | rfl
      · exact absurd ((isAbsolute_iff_leading? p).mpr hc) habs
      · rw [hc, leading?_ofPieces hdot (by simp)]
        rfl
    · rw [steps_ofPieces hdot, ← filter_body, hbody, ← filter_trimIdleEnd p.pieces.tail]
      simp [isIdle]
  · have hbody : p.body = p.pieces := by rw [body, if_neg hleading]
    have hnone : p.leading? = none := by simpa using hleading
    have hpieces : ∀ x ∈ trimIdleEnd p.pieces, '/' ∉ x.toList := by
      intro x hx
      exact slash_notMem_of_mem_pieces ((trimIdleEnd_isPrefix _).subset hx)
    refine ⟨?_, ?_⟩
    · rw [hnone, leading?_ofPieces hpieces, if_neg]
      · intro hhead
        have hdot := head?_of_trimIdleEnd hhead
        simp [leading?, habs, hdot] at hnone
      · -- Only the empty path starts with an empty piece here, and nothing is left of it.
        intro hhead
        rcases (head?_pieces_eq_empty_iff p).mp (head?_of_trimIdleEnd hhead) with hroot | htext
        · exact habs hroot
        · obtain ⟨text⟩ := p
          obtain rfl := htext
          simp [pieces_empty, trimIdleEnd, isIdle] at hhead
    · rw [steps_ofPieces hpieces, filter_trimIdleEnd, ← hbody, filter_body]

/-- Only the empty path has no components. -/
theorem text_of_components_eq_nil {p : Path} (h : p.components = []) : p.text = "" := by
  rw [components_eq, List.append_eq_nil_iff, List.map_eq_nil_iff, Option.toList_eq_nil_iff] at h
  obtain ⟨hleading, hsteps⟩ := h
  obtain ⟨first, rest, hpieces⟩ := List.exists_cons_of_ne_nil p.pieces_ne_nil
  have hidle : isIdle first = true := by
    simpa using List.filter_eq_nil_iff.mp hsteps first (by simp [hpieces])
  rw [isIdle, Bool.or_eq_true, beq_iff_eq, beq_iff_eq] at hidle
  rcases hidle with rfl | rfl
  · refine ((head?_pieces_eq_empty_iff p).mp (by simp [hpieces])).resolve_left fun habs => ?_
    rw [(isAbsolute_iff_leading? p).mp habs] at hleading
    cases hleading
  · -- A piece `.` would lead the path.
    rw [leading?] at hleading
    split_ifs at hleading with habs hdot
    exact absurd (by simp [hpieces]) hdot

/-- A relative path below another one starts as that one does. -/
theorem leading?_join {p q : Path} (hq : q.isAbsolute = false) (hp : p.text ≠ "") :
    (p.join q).leading? = p.leading? := by
  obtain ⟨front, hne, hfront, hjoin⟩ := pieces_join hq hp
  have hhead : (p.join q).pieces.head? = p.pieces.head? := by
    rw [hjoin, List.head?_append_of_ne_nil _ hne]
    rcases hfront with hfront | hfront
    · rw [hfront]
    · rw [hfront, List.head?_append_of_ne_nil _ hne]
  rw [leading?, leading?, isAbsolute_join hq, hhead]

/-- A relative path below a root has the components of the root before its own. -/
theorem components_prefix_join (p : Path) {q : Path} (hq : q.isAbsolute = false) :
    p.components <+: (p.join q).components := by
  by_cases hp : p.text = ""
  · have hempty : p.components = [] := by
      obtain ⟨text⟩ := p
      obtain rfl := hp
      decide
    rw [hempty]
    exact List.nil_prefix
  · rw [components_eq, components_eq, leading?_join hq hp, steps_join hq, List.map_append,
      ← List.append_assoc]
    exact List.prefix_append _ _

/-- What is left of a path below a root is that path again, seen from the root. -/
theorem components_resolve_of_relativeTo? {p root r : Path} (h : p.relativeTo? root = some r) :
    (root.resolve r).components = p.components := by
  by_cases hempty : root.components = []
  · obtain ⟨hleading, hsteps⟩ := relativeTo?_eq_some_of_empty h hempty
    have hresolve : root.resolve r = r := by
      rw [resolve]
      split_ifs with habs
      · rfl
      · exact join_of_empty (by simpa using habs) (text_of_components_eq_nil hempty)
    rw [hresolve, components_eq, components_eq, hleading, hsteps]
  · obtain ⟨hrel, hsteps, hleading⟩ := relativeTo?_eq_some h hempty
    have htext : root.text ≠ "" := by
      obtain ⟨text⟩ := root
      rintro rfl
      exact hempty (by decide)
    rw [resolve, if_neg (by simp [hrel]), components_eq, components_eq, leading?_join hrel htext,
      steps_join hrel, hleading, hsteps]

/-- Something is left of a path below another one, unless the two are the same. -/
theorem steps_ne_nil_of_relativeTo? {p base r : Path} (h : p.relativeTo? base = some r)
    (hsteps : p.steps ≠ []) (hne : base.same p = false) : r.steps ≠ [] := by
  by_cases hempty : base.components = []
  · rwa [(relativeTo?_eq_some_of_empty h hempty).2]
  · obtain ⟨-, hfollow, hleading⟩ := relativeTo?_eq_some h hempty
    intro hnil
    rw [hnil, List.append_nil] at hfollow
    simp [same, components_eq, hleading, hfollow] at hne

/-- A resolved path that does not start with the root is absolute. -/
theorem isAbsolute_of_relativeTo?_eq_none {root f : Path}
    (h : (root.resolve f).relativeTo? root = none) : (root.resolve f).isAbsolute = true := by
  by_cases hf : f.isAbsolute = true
  · rwa [resolve, if_pos hf]
  · -- A relative path was resolved against the root and so starts with it.
    have hprefix := components_prefix_join root (by simpa using hf)
    rw [resolve, if_neg hf, relativeTo?, if_pos (List.isPrefixOf_iff_prefix.mpr hprefix)] at h
    split_ifs at h

/-- **A resolved path that is shown without the root is the same path again, seen from the root.**
-/
theorem components_resolve_withoutRoot (root f : Path) :
    (root.resolve (root.withoutRoot (root.resolve f))).components =
      (root.resolve f).components := by
  cases hrel : (root.resolve f).relativeTo? root with
  | some r =>
    rw [withoutRoot, hrel, Option.getD_some]
    exact components_resolve_of_relativeTo? hrel
  | none =>
    have habs := isAbsolute_of_relativeTo?_eq_none hrel
    rw [withoutRoot, hrel, Option.getD_none, resolve, if_pos habs]

/-- So it leads from the root where it led before. -/
theorem resolve_withoutRoot (root f : Path) :
    (root.resolve (root.withoutRoot (root.resolve f))).isAbsolute = (root.resolve f).isAbsolute ∧
      (root.resolve (root.withoutRoot (root.resolve f))).steps = (root.resolve f).steps := by
  obtain ⟨hleading, hsteps⟩ := of_components_eq (components_resolve_withoutRoot root f)
  exact ⟨isAbsolute_eq_of_leading?_eq hleading, hsteps⟩

/-! ## The end of what is left -/

/-- Pieces trimmed at their end do not end with an idle one. -/
theorem isIdle_getLast?_trimIdleEnd (l : List String) :
    ∀ x ∈ (trimIdleEnd l).getLast?, isIdle x = false := by
  intro x hx
  rw [trimIdleEnd, List.getLast?_reverse] at hx
  have hnot := List.head?_dropWhile_not isIdle l.reverse
  rw [Option.mem_def.mp hx] at hnot
  simpa using hnot

/-- What is left of a path below another is spelled by trimmed pieces, behind an idle one at most.
-/
theorem exists_pieces_of_relativeTo? {p base r : Path} (h : p.relativeTo? base = some r) :
    ∃ front l, front.all isIdle = true ∧ r.pieces = front ++ trimIdleEnd l := by
  have hspelled : ∀ l : List String, (∀ x ∈ l, '/' ∉ x.toList) →
      ∃ front, front.all isIdle = true ∧ (ofPieces (trimIdleEnd l)).pieces =
        front ++ trimIdleEnd l := by
    intro l hl
    by_cases hne : trimIdleEnd l = []
    · rw [hne]
      exact ⟨[""], by decide, rfl⟩
    · exact ⟨[], rfl, pieces_ofPieces hne fun x hx => hl x ((trimIdleEnd_isPrefix l).subset hx)⟩
  have hpieces : ∀ x ∈ p.pieces, '/' ∉ x.toList := fun x hx => slash_notMem_of_mem_pieces hx
  have htail : ∀ x ∈ p.pieces.tail, '/' ∉ x.toList := fun x hx =>
    hpieces x (List.mem_of_mem_tail hx)
  rw [relativeTo?] at h
  split_ifs at h <;> obtain rfl := Option.some.inj h
  · obtain ⟨front, hfront, hspell⟩ := hspelled _ htail
    refine ⟨"" :: front, p.pieces.tail, by simpa [isIdle] using hfront, ?_⟩
    have hslash := pieces_append_slash "" (ofPieces (trimIdleEnd p.pieces.tail)).text
    rw [String.empty_append, pieces_empty, hspell] at hslash
    rw [hslash, List.cons_append, List.nil_append, List.cons_append]
  · refine ⟨["."], p.pieces.tail, by decide, pieces_ofPieces (by simp) ?_⟩
    rintro x (_ | ⟨_, hx⟩)
    · decide
    · exact htail x ((trimIdleEnd_isPrefix _).subset hx)
  · obtain ⟨front, hfront, hspell⟩ := hspelled _ hpieces
    exact ⟨front, _, hfront, hspell⟩
  · obtain ⟨front, hfront, hspell⟩ := hspelled _ fun x hx =>
      slash_notMem_of_mem_body ((dropPieces_suffix _ _).subset hx)
    exact ⟨front, _, hfront, hspell⟩

/-- What is left of a path below another does not end with an idle piece, unless no step is left. -/
theorem getLast?_pieces_of_relativeTo? {p base r : Path} (h : p.relativeTo? base = some r)
    (hsteps : r.steps ≠ []) : r.pieces.getLast?.any isIdle = false := by
  obtain ⟨front, l, hfront, hpieces⟩ := exists_pieces_of_relativeTo? h
  have hne : trimIdleEnd l ≠ [] := by
    intro hnil
    apply hsteps
    rw [steps, hpieces, hnil, List.append_nil, List.filter_eq_nil_iff]
    intro x hx
    simpa using List.all_eq_true.mp hfront x hx
  rw [hpieces, List.getLast?_append_of_ne_nil _ hne, Option.any_eq_false]
  intro x hx
  simpa using isIdle_getLast?_trimIdleEnd l x hx

end Path

end ImportMigration
