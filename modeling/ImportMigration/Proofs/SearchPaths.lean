import ImportMigration.Proofs.Discovered
import ImportMigration.Proofs.TreeShapes

/-! # The paths of a search

A search below a path first walks the pieces of the path, one name below the other. What it finds is
spelled by the same steps: the path without the `.` pieces it starts with and without empty pieces,
and then the names that lead down from there.

* `Glob.descend`: the path of what lies below another by some names.
* `Glob.respell`: a path as a search spells it.
* `Glob.strays`: whether a search loses its way. Below `.` an empty piece gives the empty path,
  which leads nowhere, so a search below `./` finds nothing.
* `Glob.expand?_origin`: where a search stands after it has walked its path.
* `Glob.expand?_origin_of_strays`: a search that loses its way finds nothing.
* `Tree.WellFormed.locate?_descend`: the path of what is found leads there. -/

namespace ImportMigration

namespace Path

/-! ## The spelling by pieces -/

/-- A path is spelled by its pieces. -/
theorem text_eq_intercalate (p : Path) : p.text = "/".intercalate p.pieces := by
  rw [← String.toList_inj, String.toList_intercalate, pieces, List.map_map]
  simp only [Function.comp_def, String.toList_ofList, List.map_id']
  exact (List.intercalate_splitOn '/').symm

/-- Fewer pieces make a spelling that is no longer. -/
theorem utf8ByteSize_intercalate_le {l m : List String} (h : l.Sublist m) :
    ("/".intercalate l).utf8ByteSize ≤ ("/".intercalate m).utf8ByteSize := by
  have hcons : ∀ (x : String) (rest : List String), rest ≠ [] →
      ("/".intercalate (x :: rest)).utf8ByteSize =
        x.utf8ByteSize + 1 + ("/".intercalate rest).utf8ByteSize := by
    intro x rest hrest
    have hslash : "/".utf8ByteSize = 1 := by decide
    rw [String.intercalate_cons_of_ne_nil hrest, String.utf8ByteSize_append,
      String.utf8ByteSize_append, hslash]
  induction h with
  | slnil => exact le_rfl
  | @cons l m x h ih =>
    by_cases hm : m = []
    · simp [List.sublist_nil.mp (hm ▸ h)]
    · rw [hcons x m hm]
      omega
  | @cons_cons l m x h ih =>
    by_cases hm : m = []
    · simp [hm, List.sublist_nil.mp (hm ▸ h)]
    · rw [hcons x m hm]
      by_cases hl : l = []
      · rw [hl, String.intercalate_singleton]
        omega
      · rw [hcons x l hl]
        omega

/-- A character other than the slash is in a spelling if it is in a piece. -/
theorem mem_text_iff {p : Path} {c : Char} (hc : c ≠ '/') :
    c ∈ p.text.toList ↔ ∃ piece ∈ p.pieces, c ∈ piece.toList := by
  have hmem : ∀ l : List String,
      c ∈ ("/".intercalate l).toList ↔ ∃ piece ∈ l, c ∈ piece.toList := by
    intro l
    induction l with
    | nil => simp
    | cons x rest ih =>
      cases rest with
      | nil => simp
      | cons y more =>
        have hslash : "/".toList = ['/'] := rfl
        rw [String.intercalate_cons_cons, String.toList_append, List.mem_append, ih]
        simp [hslash, hc]
  rw [text_eq_intercalate]
  exact hmem p.pieces

/-- A path spelled by some of the pieces of another can be used if that one can. -/
theorem isUsable_of_sublist {p q : Path} (h : q.pieces.Sublist p.pieces) (hne : q.text ≠ "")
    (hp : p.isUsable = true) : q.isUsable = true := by
  simp only [isUsable, isSpellable, Bool.and_eq_true, bne_iff_ne, ne_eq, decide_eq_true_eq,
    Bool.not_eq_true', List.all_eq_true] at hp ⊢
  obtain ⟨⟨⟨-, hlength⟩, hnull⟩, hnames⟩ := hp
  refine ⟨⟨⟨hne, ?_⟩, ?_⟩, fun piece hpiece => hnames piece (h.subset hpiece)⟩
  · have hle := utf8ByteSize_intercalate_le h
    rw [← text_eq_intercalate, ← text_eq_intercalate] at hle
    omega
  · have hchar : Char.ofNat 0 ≠ '/' := by decide
    have hnot : Char.ofNat 0 ∉ p.text.toList := by simpa using hnull
    rw [List.contains_eq_mem, decide_eq_false_iff_not, mem_text_iff hchar]
    rintro ⟨piece, hpiece, hc⟩
    exact hnot ((mem_text_iff hchar).mpr ⟨piece, h.subset hpiece, hc⟩)

end Path

namespace Glob

/-! ## One name below another -/

/-- The path of what lies below another by some names, as a search spells it. -/
def descend (p : Path) (names : List String) : Path := names.foldl below p

/-- By no names a path stays. -/
@[simp] theorem descend_nil (p : Path) : descend p [] = p := rfl

/-- By one name and others. -/
theorem descend_cons (p : Path) (name : String) (rest : List String) :
    descend p (name :: rest) = descend (below p name) rest := rfl

/-- By some names and then others. -/
theorem descend_append (p : Path) (names others : List String) :
    descend p (names ++ others) = descend (descend p names) others :=
  List.foldl_append

/-- A name without a slash is a relative path. -/
theorem isAbsolute_name {name : String} (h : '/' ∉ name.toList) :
    (⟨name⟩ : Path).isAbsolute = false := by
  rw [Path.isAbsolute, beq_eq_false_iff_ne]
  exact fun hhead => h (List.mem_of_head? hhead)

/-- A name without a slash is its own piece. -/
theorem pieces_name {name : String} (h : '/' ∉ name.toList) : (⟨name⟩ : Path).pieces = [name] := by
  have hname : (⟨name⟩ : Path) = Path.ofPieces [name] := by simp [Path.ofPieces]
  rw [hname, Path.pieces_ofPieces (by simp) (by simpa using h)]

/-- A name without a slash becomes the last piece, after pieces of the path. -/
theorem pieces_below (p : Path) {name : String} (h : '/' ∉ name.toList) :
    ∃ front, front.Sublist p.pieces ∧ (below p name).pieces = front ++ [name] := by
  have hrel := isAbsolute_name h
  rcases below_eq_or p name with hbelow | ⟨-, hbelow⟩
  · by_cases hp : p.text = ""
    · exact ⟨[], List.nil_sublist _, by rw [hbelow, Path.join_of_empty hrel hp, pieces_name h]; rfl⟩
    · obtain ⟨front, -, hfront, hjoin⟩ := Path.pieces_join hrel hp
      refine ⟨front, ?_, by rw [hbelow, hjoin, pieces_name h]⟩
      rcases hfront with hfront | hfront <;> rw [hfront]
      exact List.sublist_append_left front [""]
  · exact ⟨[], List.nil_sublist _, by rw [hbelow, pieces_name h]; rfl⟩

/-- Names without slashes follow pieces of the path. -/
theorem pieces_descend {p : Path} {names front : List String}
    (h : ∀ x ∈ names, '/' ∉ x.toList) (hp : p.pieces.Sublist front) :
    (descend p names).pieces.Sublist (front ++ names) := by
  induction names generalizing p front with
  | nil => simpa using hp
  | cons name rest ih =>
    obtain ⟨kept, hkept, hpieces⟩ := pieces_below p (h name List.mem_cons_self)
    have hbelow : (below p name).pieces.Sublist (front ++ [name]) := by
      rw [hpieces]
      exact (hkept.trans hp).append_right [name]
    simpa [descend_cons] using ih (fun x hx => h x (List.mem_cons_of_mem name hx)) hbelow

/-- Names without slashes take a path as many steps on, idle ones apart. -/
theorem steps_descend (p : Path) {names : List String} (h : ∀ x ∈ names, '/' ∉ x.toList) :
    (descend p names).isAbsolute = p.isAbsolute ∧
      (descend p names).steps = p.steps ++ names.filter (!Path.isIdle ·) := by
  induction names generalizing p with
  | nil => simp
  | cons name rest ih =>
    obtain ⟨habs, hsteps⟩ := steps_below p (h name List.mem_cons_self)
    obtain ⟨habs', hsteps'⟩ := ih (below p name) (fun x hx => h x (List.mem_cons_of_mem name hx))
    rw [descend_cons, habs', habs, hsteps', hsteps, List.append_assoc, ← List.filter_append]
    exact ⟨rfl, rfl⟩

/-- The last of several names is the last piece. -/
theorem getLast?_pieces_descend (p : Path) {names : List String} {name : String}
    (h : '/' ∉ name.toList) : (descend p (names ++ [name])).pieces.getLast? = some name := by
  obtain ⟨front, -, hpieces⟩ := pieces_below (descend p names) h
  rw [descend_append, descend_cons, descend_nil, hpieces, List.getLast?_concat]

/-- A name below a path that is not `.` is joined to it. -/
theorem below_of_ne_dot {p : Path} (h : p.text ≠ ".") (name : String) :
    below p name = p.join ⟨name⟩ := by
  rw [below, if_neg (by simpa using h)]

/-- What lies below a path that is neither empty nor `.` is neither. -/
theorem text_below_ne {p : Path} (hempty : p.text ≠ "") (hdot : p.text ≠ ".") {name : String}
    (h : '/' ∉ name.toList) : (below p name).text ≠ "" ∧ (below p name).text ≠ "." := by
  rw [below_of_ne_dot hdot, Path.join, if_neg (by simp [isAbsolute_name h])]
  simp only [ne_eq, ← String.toList_inj] at hempty hdot ⊢
  have hone : ".".toList = ['.'] := rfl
  split_ifs <;> simp_all [List.append_eq_singleton_iff]

/-- Relative paths are written behind the same text, wherever they are joined to a path. -/
theorem exists_below_eq (p : Path) :
    ∃ front, ∀ text, (⟨text⟩ : Path).isAbsolute = false → below p text = ⟨front ++ text⟩ := by
  by_cases hp : p.text = "."
  · exact ⟨"", fun text _ => by simp [below, hp]⟩
  · by_cases hjoin : (p.text == "" || p.text.toList.getLast? == some '/') = true
    · exact ⟨p.text, fun text h => by rw [below_of_ne_dot hp, Path.join, if_neg (by simp [h]),
        if_pos hjoin]⟩
    · exact ⟨p.text ++ "/", fun text h => by rw [below_of_ne_dot hp, Path.join,
        if_neg (by simp [h]), if_neg hjoin]⟩

/-- Below what a name leads to lies what the name and more lead to. -/
theorem below_below (p : Path) {name rest : String} (hname : Tree.isNodeName name = true)
    (hrest : (⟨rest⟩ : Path).isAbsolute = false) :
    below (below p name) rest = below p (name ++ "/" ++ rest) := by
  obtain ⟨hidle, -, hslash⟩ := Tree.isNodeName_iff.mp hname
  obtain ⟨hempty, hdot⟩ : name ≠ "" ∧ name ≠ "." := by simpa [Path.isIdle] using hidle
  have hnonempty : name.toList ≠ [] := by simpa using hempty
  have hrel : (⟨name ++ "/" ++ rest⟩ : Path).isAbsolute = false := by
    have hhead := isAbsolute_name hslash
    rw [Path.isAbsolute] at hhead ⊢
    rw [String.append_assoc, String.toList_append, List.head?_append_of_ne_nil _ hnonempty]
    exact hhead
  obtain ⟨front, hfront⟩ := exists_below_eq p
  rw [hfront name (isAbsolute_name hslash), hfront _ hrel, below_of_ne_dot, Path.join,
    if_neg (by simp [hrest]), if_neg]
  · simp [String.append_assoc]
  · have hlast : (front ++ name).toList.getLast? ≠ some '/' := by
      rw [String.toList_append, List.getLast?_append_of_ne_nil _ hnonempty]
      exact fun h => hslash (List.mem_of_getLast? h)
    simp only [Bool.or_eq_true, beq_iff_eq, not_or]
    exact ⟨by simp [hempty], hlast⟩
  · intro h
    have hchars : front.toList ++ name.toList = ['.'] := by
      rw [← String.toList_append]
      exact congrArg String.toList h
    rcases List.append_eq_singleton_iff.mp hchars with ⟨-, h⟩ | ⟨-, h⟩
    · exact hdot (String.toList_inj.mp h)
    · exact hnonempty h

/-- A search goes down several names at once. -/
theorem below_intercalate (p : Path) {names : List String} (hne : names ≠ [])
    (h : ∀ x ∈ names, Tree.isNodeName x = true) :
    below p ("/".intercalate names) = descend p names := by
  induction names generalizing p with
  | nil => exact absurd rfl hne
  | cons name rest ih =>
    obtain ⟨hname, hrest⟩ := List.forall_mem_cons.mp h
    by_cases hmore : rest = []
    · simp [hmore, descend_cons]
    · have hrel : (⟨"/".intercalate rest⟩ : Path).isAbsolute = false := by
        refine Path.isAbsolute_ofPieces
          (fun x hx => (Tree.isNodeName_iff.mp (hrest x hx)).2.2) fun hhead => ?_
        have hidle := (Tree.isNodeName_iff.mp (hrest "" (List.mem_of_head? hhead))).1
        cases hidle
      rw [descend_cons, ← ih (below p name) hmore hrest, below_below p hname hrel,
        String.intercalate_cons_of_ne_nil hmore]

/-! ## Walking the path of a search -/

/-- The names that a search takes literally before it searches. -/
def literalNames (base : Path) : List String :=
  if base.isAbsolute then base.pieces.tail else base.pieces

/-- The path that a search starts from. -/
def startPath (base : Path) : Path := if base.isAbsolute then ⟨"/"⟩ else ⟨"."⟩

/-- Where a search starts, and what it takes literally. -/
theorem origin_eq (base : Path) :
    origin base = (startPath base, (literalNames base).map .exactly) := by
  by_cases h : base.isAbsolute = true
  · obtain ⟨rest, hrest⟩ : ∃ rest, base.text.toList = '/' :: rest := by
      rw [Path.isAbsolute, beq_iff_eq] at h
      exact List.head?_eq_some_iff.mp h
    simp [origin, startPath, literalNames, h, Path.pieces, hrest, List.splitOn,
      List.splitOnP_cons_eq_if_modifyHead]
  · simp [origin, startPath, literalNames, h, Path.pieces]

/-- A path as a search spells it: without the `.` pieces it starts with and without empty pieces. -/
def respell (base : Path) : Path := descend (startPath base) (literalNames base)

/-- Whether a search below a path loses its way. Below `.` an empty piece gives the empty path,
which leads nowhere. -/
def strays (base : Path) : Bool :=
  base.pieces.head? == some "." && (base.pieces.dropWhile (· == ".")).head? == some ""

/-- The names taken literally hold no slash. -/
theorem slash_notMem_of_mem_literalNames {base : Path} {name : String}
    (h : name ∈ literalNames base) : '/' ∉ name.toList := by
  rw [literalNames] at h
  split_ifs at h
  · exact Path.slash_notMem_of_mem_pieces (List.mem_of_mem_tail h)
  · exact Path.slash_notMem_of_mem_pieces h

/-- The start of a search has no steps, and is absolute if the path is. -/
theorem steps_startPath (base : Path) :
    (startPath base).isAbsolute = base.isAbsolute ∧ (startPath base).steps = [] := by
  rw [startPath]
  cases base.isAbsolute <;> decide

/-- The names taken literally have the steps of the path. -/
theorem filter_literalNames (base : Path) :
    (literalNames base).filter (!Path.isIdle ·) = base.steps := by
  rw [literalNames, Path.steps]
  split_ifs with habs
  · have hhead := (Path.head?_pieces_eq_empty_iff base).mpr (Or.inl habs)
    obtain ⟨rest, hrest⟩ := List.head?_eq_some_iff.mp hhead
    simp [hrest, Path.isIdle]
  · rfl

/-- What a search has walked of its path is spelled by pieces of the path. -/
theorem pieces_descend_startPath {base : Path} {front : List String} (hne : front ≠ [])
    (hfront : front <+: literalNames base) :
    (descend (startPath base) front).pieces.Sublist base.pieces := by
  obtain ⟨name, rest, rfl⟩ := List.exists_cons_of_ne_nil hne
  have hslash : ∀ x ∈ name :: rest, '/' ∉ x.toList := fun x hx =>
    slash_notMem_of_mem_literalNames (hfront.subset hx)
  obtain ⟨hname, hrest⟩ := List.forall_mem_cons.mp hslash
  rw [descend_cons, startPath]
  by_cases habs : base.isAbsolute = true
  · have hpieces : base.pieces = "" :: literalNames base := by
      have hhead := (Path.head?_pieces_eq_empty_iff base).mpr (Or.inl habs)
      obtain ⟨others, hothers⟩ := List.head?_eq_some_iff.mp hhead
      rw [literalNames, if_pos habs, hothers, List.tail_cons]
    have hbelow : (below ⟨"/"⟩ name).pieces = ["", name] := by
      have hroot : below ⟨"/"⟩ name = ⟨"" ++ "/" ++ name⟩ := by
        rw [below_of_ne_dot (by decide), Path.join, if_neg (by simp [isAbsolute_name hname]),
          if_pos (by decide)]
        simp
      rw [hroot, Path.pieces_append_slash, Path.pieces_empty, pieces_name hname]
      rfl
    have hsub := pieces_descend hrest (List.Sublist.refl (below ⟨"/"⟩ name).pieces)
    rw [hbelow] at hsub
    rw [if_pos habs, hpieces]
    exact hsub.trans (hfront.sublist.cons_cons "")
  · have hbelow : (below ⟨"."⟩ name).pieces = [name] := by
      rw [below, if_pos (by decide), pieces_name hname]
    have hsub := pieces_descend hrest (List.Sublist.refl (below ⟨"."⟩ name).pieces)
    rw [hbelow] at hsub
    rw [literalNames, if_neg habs] at hfront
    rw [if_neg habs]
    exact hsub.trans hfront.sublist

/-- What lies below a path that is neither empty nor `.` is not empty. -/
theorem text_descend_ne {p : Path} (hempty : p.text ≠ "") (hdot : p.text ≠ ".")
    {names : List String} (h : ∀ x ∈ names, '/' ∉ x.toList) : (descend p names).text ≠ "" := by
  induction names generalizing p with
  | nil => exact hempty
  | cons name rest ih =>
    obtain ⟨hname, hrest⟩ := List.forall_mem_cons.mp h
    obtain ⟨hempty', hdot'⟩ := text_below_ne hempty hdot hname
    exact ih hempty' hdot' hrest

/-- What lies below `.` is not empty if no empty name comes first after the `.` names. -/
theorem text_descend_dot_ne {names : List String} (h : ∀ x ∈ names, '/' ∉ x.toList)
    (hfirst : (names.dropWhile (· == ".")).head? ≠ some "") : (descend ⟨"."⟩ names).text ≠ "" := by
  induction names with
  | nil => decide
  | cons name rest ih =>
    obtain ⟨-, hrest⟩ := List.forall_mem_cons.mp h
    have hbelow : below ⟨"."⟩ name = ⟨name⟩ := by rw [below, if_pos (by decide)]
    rw [descend_cons, hbelow]
    by_cases hdot : name = "."
    · subst hdot
      exact ih hrest (by simpa using hfirst)
    · rw [List.dropWhile_cons_of_neg (by simpa using hdot)] at hfirst
      exact text_descend_ne (by simpa using hfirst) hdot hrest

/-- The path of a search that does not lose its way never becomes empty. -/
theorem text_descend_startPath_ne {base : Path} (hempty : base.text ≠ "")
    (hway : strays base = false) {front : List String} (hfront : front <+: literalNames base) :
    (descend (startPath base) front).text ≠ "" := by
  have hslash : ∀ x ∈ front, '/' ∉ x.toList := fun x hx =>
    slash_notMem_of_mem_literalNames (hfront.subset hx)
  by_cases habs : base.isAbsolute = true
  · intro htext
    have hfalse : (descend (startPath base) front).isAbsolute = false := by
      rw [Path.isAbsolute, htext]
      rfl
    rw [(steps_descend _ hslash).1, (steps_startPath base).1, habs] at hfalse
    cases hfalse
  · rw [literalNames, if_neg habs] at hfront
    rw [startPath, if_neg habs]
    refine text_descend_dot_ne hslash fun hfirst => ?_
    obtain ⟨more, hpieces⟩ := hfront
    have hall : (base.pieces.dropWhile (· == ".")).head? = some "" := by
      rw [← hpieces, List.dropWhile_append, if_neg, List.head?_append, hfirst, Option.some_or]
      intro hnil
      rw [List.isEmpty_iff.mp hnil] at hfirst
      cases hfirst
    by_cases hhead : base.pieces.head? = some "."
    · rw [strays, hhead, hall] at hway
      cases hway
    · -- Then nothing is dropped, so the path would be absolute or empty.
      have hnot : base.pieces.dropWhile (· == ".") = base.pieces := by
        obtain ⟨first, rest, hcons⟩ := List.exists_cons_of_ne_nil base.pieces_ne_nil
        rw [hcons] at hhead ⊢
        exact List.dropWhile_cons_of_neg (by simpa using hhead)
      rw [hnot] at hall
      exact ((Path.head?_pieces_eq_empty_iff base).mp hall).elim habs hempty

/-- A walk to a directory starts from a directory. -/
theorem isDirAt_of_follow? {t : Tree} {start l : Location} {pieces : List String}
    (h : t.follow? start pieces = some l) (hl : t.isDirAt l = true) : t.isDirAt start = true := by
  cases pieces with
  | nil =>
    obtain rfl := Option.some.inj h
    exact hl
  | cons piece rest =>
    rw [Tree.follow?_cons] at h
    obtain ⟨m, hm, -⟩ := Option.bind_eq_some_iff.mp h
    exact Tree.isDirAt_of_step? hm

/-- The entry at a path stands where the path leads. -/
theorem locate?_of_entryAt? {t : Tree} {p : Path} {e : Entry} (h : entryAt? t p = some e) :
    t.locate? p = some e.place := by
  rw [entryAt?] at h
  split at h
  · cases h
  · rename_i place hplace
    split_ifs at h
    rw [hplace, ← Option.some.inj h]

/-- A search that starts with names walks them if all that it comes through is there. -/
theorem expand?_exactly {t : Tree} {names : List String} {e : Entry}
    (he : entryAt? t e.path = some e)
    (hthere : ∀ front more, front ++ more = names →
      (entryAt? t (descend e.path front)).isSome = true) (pieces : List Piece) :
    ∃ x, entryAt? t (descend e.path names) = some x ∧
      expand? t (names.map .exactly ++ pieces) e = expand? t pieces x := by
  induction names generalizing e with
  | nil => exact ⟨e, he, rfl⟩
  | cons name rest ih =>
    obtain ⟨next, hnext⟩ := Option.isSome_iff_exists.mp (hthere [name] rest rfl)
    rw [descend_cons, descend_nil] at hnext
    have hpath := path_of_entryAt? hnext
    obtain ⟨x, hx, hexpand⟩ := ih (hpath ▸ hnext) fun front more h => by
      rw [hpath]
      exact hthere (name :: front) more (by rw [List.cons_append, h])
    refine ⟨x, by rwa [descend_cons, ← hpath], ?_⟩
    rw [List.map_cons, List.cons_append, expand?, hnext]
    exact hexpand

section Walk

variable {t : Tree} {base : Path} {place : Location} (hloc : t.locate? base = some place)
  (hdir : t.isDirAt place = true) (hway : strays base = false)

include hloc hdir hway

/-- A search that does not lose its way finds all that it walks through. -/
theorem exists_entryAt?_descend_startPath {front more : List String}
    (hnames : front ++ more = literalNames base) :
    ∃ l, entryAt? t (descend (startPath base) front) =
        some ⟨descend (startPath base) front, l⟩ ∧ (more = [] → l = place) := by
  have hfront : front <+: literalNames base := ⟨more, hnames⟩
  have hslash : ∀ x ∈ front, '/' ∉ x.toList := fun x hx =>
    slash_notMem_of_mem_literalNames (hfront.subset hx)
  obtain ⟨huse, hfollow, -⟩ := Tree.locate?_eq_some_iff.mp hloc
  rw [← filter_literalNames, ← hnames, List.filter_append, Tree.follow?_append] at hfollow
  obtain ⟨l, hl, hrest⟩ := Option.bind_eq_some_iff.mp hfollow
  have hldir := isDirAt_of_follow? hrest hdir
  obtain ⟨habs, hsteps⟩ := steps_descend (startPath base) hslash
  have husable : (descend (startPath base) front).isUsable = true := by
    by_cases hne : front = []
    · rw [hne, descend_nil, startPath]
      cases base.isAbsolute <;> decide
    · have hempty : base.text ≠ "" := by
        intro htext
        simp [Path.isUsable, Path.isSpellable, htext] at huse
      exact Path.isUsable_of_sublist (pieces_descend_startPath hne hfront)
        (text_descend_startPath_ne hempty hway hfront) huse
  have hwalk : t.locate? (descend (startPath base) front) = some l := by
    refine Tree.locate?_eq_some_iff.mpr ⟨husable, ?_, fun _ => hldir⟩
    rw [Tree.startOf, habs, hsteps, (steps_startPath base).1, (steps_startPath base).2,
      List.nil_append]
    exact hl
  refine ⟨l, ?_, ?_⟩
  · have hnode : t.node? l = some .directory := by simpa [Tree.isDirAt] using hldir
    simp [entryAt?, hwalk, hnode]
  · rintro rfl
    exact Option.some.inj hrest

/-- **Where a search stands after it has walked its path**: where the path leads, by the path as a
search spells it. -/
theorem expand?_origin (pieces : List Piece) :
    ∃ start, entryAt? t (origin base).1 = some start ∧
      expand? t ((origin base).2 ++ pieces) start = expand? t pieces ⟨respell base, place⟩ := by
  rw [origin_eq]
  obtain ⟨l, hstart, -⟩ := exists_entryAt?_descend_startPath hloc hdir hway
    (List.nil_append (literalNames base))
  obtain ⟨l', hend, hplace⟩ := exists_entryAt?_descend_startPath hloc hdir hway
    (List.append_nil (literalNames base))
  obtain rfl := hplace rfl
  obtain ⟨x, hx, hexpand⟩ := expand?_exactly (e := ⟨startPath base, l⟩) hstart
    (fun front more h => by
      obtain ⟨m, hm, -⟩ := exists_entryAt?_descend_startPath hloc hdir hway h
      rw [hm]
      rfl) pieces
  obtain rfl := Option.some.inj (hend.symm.trans hx)
  exact ⟨_, hstart, hexpand⟩

end Walk

/-- Below `.` an empty name that comes first after `.` names leads nowhere. -/
theorem expand?_of_empty_name {t : Tree} {names : List String}
    (hfirst : (names.dropWhile (· == ".")).head? = some "") {e : Entry} (he : e.path = ⟨"."⟩)
    (pieces : List Piece) : expand? t (names.map .exactly ++ pieces) e = some [] := by
  induction names generalizing e with
  | nil => cases hfirst
  | cons name rest ih =>
    have hbelow : below e.path name = ⟨name⟩ := by rw [he, below, if_pos (by decide)]
    rw [List.map_cons, List.cons_append, expand?, hbelow]
    by_cases hdot : name = "."
    · subst hdot
      cases hnext : entryAt? t ⟨"."⟩ with
      | none => rfl
      | some next => exact ih (by simpa using hfirst) (path_of_entryAt? hnext)
    · rw [List.dropWhile_cons_of_neg (by simpa using hdot)] at hfirst
      obtain rfl := Option.some.inj hfirst
      rfl

/-- **A search that loses its way finds nothing.** -/
theorem expand?_origin_of_strays {t : Tree} {base : Path} (hway : strays base = true)
    {start : Entry} (hstart : entryAt? t (origin base).1 = some start) (pieces : List Piece) :
    expand? t ((origin base).2 ++ pieces) start = some [] := by
  rw [strays, Bool.and_eq_true, beq_iff_eq, beq_iff_eq] at hway
  obtain ⟨hhead, hfirst⟩ := hway
  have hrel : ¬base.isAbsolute = true := by
    intro habs
    rw [(Path.head?_pieces_eq_empty_iff base).mpr (Or.inl habs)] at hhead
    exact absurd hhead (by decide)
  have hpath := path_of_entryAt? hstart
  rw [origin_eq] at hpath ⊢
  rw [startPath, if_neg hrel] at hpath
  rw [literalNames, if_neg hrel]
  exact expand?_of_empty_name hfirst hpath pieces

/-! ## Paths of what is found -/

/-- What is found below a path is spelled by its steps and by the names that lead down from it. -/
theorem steps_descend_respell (base : Path) {names : List String}
    (h : ∀ x ∈ names, Tree.isNodeName x = true) :
    (descend (respell base) names).isAbsolute = base.isAbsolute ∧
      (descend (respell base) names).steps = base.steps ++ names := by
  have hslash : ∀ x ∈ literalNames base ++ names, '/' ∉ x.toList :=
    List.forall_mem_append.mpr ⟨fun x hx => slash_notMem_of_mem_literalNames hx,
      fun x hx => (Tree.isNodeName_iff.mp (h x hx)).2.2⟩
  have hnames : names.filter (!Path.isIdle ·) = names :=
    List.filter_eq_self.mpr fun x hx => by simp [(Tree.isNodeName_iff.mp (h x hx)).1]
  obtain ⟨habs, hsteps⟩ := steps_descend (startPath base) hslash
  obtain ⟨habs', hsteps'⟩ := steps_startPath base
  rw [respell, ← descend_append, habs, hsteps, habs', hsteps', List.filter_append,
    filter_literalNames, hnames]
  exact ⟨rfl, rfl⟩

/-- The same path is found by the same names only. -/
theorem names_eq_of_same {base : Path} {names others : List String}
    (h : ∀ x ∈ names, Tree.isNodeName x = true) (h' : ∀ x ∈ others, Tree.isNodeName x = true)
    (hsame : (descend (respell base) names).same (descend (respell base) others) = true) :
    names = others := by
  have hsteps := (Path.of_components_eq (by simpa [Path.same] using hsame)).2
  rw [(steps_descend_respell base h).2, (steps_descend_respell base h').2] at hsteps
  exact List.append_cancel_left hsteps

end Glob

/-- **The path of what is found leads there.** -/
theorem Tree.WellFormed.locate?_descend {t : Tree} (hw : t.WellFormed) {base : Path}
    {place : Location} (hloc : t.locate? base = some place) {names : List String} {node : Node}
    (hne : names ≠ []) (hnode : t.node? (place ++ names) = some node)
    (huse : (Glob.descend (Glob.respell base) names).isUsable = true) :
    t.locate? (Glob.descend (Glob.respell base) names) = some (place ++ names) := by
  have hnames := hw.isNodeName_of_node? hnode
  obtain ⟨habs, hsteps⟩ := Glob.steps_descend_respell base hnames
  obtain ⟨-, hfollow, -⟩ := locate?_eq_some_iff.mp hloc
  refine locate?_eq_some_iff.mpr ⟨huse, ?_, fun hlast => ?_⟩
  · rw [hsteps, startOf, habs, follow?_append]
    rw [startOf] at hfollow
    rw [hfollow, Option.bind_some]
    exact hw.follow?_down hnode
  · -- The last piece is a name, which is not idle.
    obtain ⟨front, name, rfl⟩ := (List.eq_nil_or_concat' names).resolve_left hne
    obtain ⟨hidle, -, hslash⟩ := isNodeName_iff.mp (hnames name (by simp))
    rw [Glob.getLast?_pieces_descend _ hslash, Option.any_some, hidle] at hlast
    cases hlast

end ImportMigration
