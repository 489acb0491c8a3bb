import ImportMigration.Text.Lines
import Mathlib.Data.List.DropRight
import Mathlib.Data.List.TakeWhile

/-! # Trimming and words

A text is *solid* when no character of it is blank. Words are solid, and trimming leaves alone what
neither starts nor ends with a blank.

* `Solid`: texts without blanks.
* `trim_eq_self`: trimming a text with solid ends.
* `of_mem_splitOnP`, `solid_of_mem_words`: the pieces of a split, and that every word is solid.
* `words_append_blank`, `words_trim`, `words_eq_cons`: blanks part words, trimming keeps them, and
  the first word ends at the first blank.
* `words_eq_singleton_iff`: the texts of one word. -/

namespace ImportMigration.Text

/-- A text without blanks. -/
def Solid (s : List Char) : Prop := ∀ c ∈ s, isBlank c = false

instance (s : List Char) : Decidable (Solid s) :=
  -- The characters of the text are run through, not all characters.
  decidable_of_iff (s.all (!isBlank ·) = true) (by simp [Solid])

/-- The empty text has no blanks. -/
@[simp] theorem solid_nil : Solid [] := by simp [Solid]

/-- A text is solid when its first character and the rest are. -/
@[simp] theorem solid_cons (c : Char) (s : List Char) :
    Solid (c :: s) ↔ isBlank c = false ∧ Solid s := by
  simp [Solid]

/-- Two texts in a row are solid when both are. -/
@[simp] theorem solid_append (s t : List Char) : Solid (s ++ t) ↔ Solid s ∧ Solid t := by
  simp only [Solid, List.mem_append]
  constructor
  · intro h
    exact ⟨fun c hc => h c (Or.inl hc), fun c hc => h c (Or.inr hc)⟩
  · rintro ⟨hs, ht⟩ c (hc | hc)
    exacts [hs c hc, ht c hc]

/-- Nothing is trimmed off a text whose first and last characters are not blank. -/
theorem trim_eq_self {s : List Char} (first : ∀ c ∈ s.head?, isBlank c = false)
    (last : ∀ c ∈ s.getLast?, isBlank c = false) : trim s = s := by
  have hstart : trimStart s = s := by
    cases s with
    | nil => rfl
    | cons c rest => exact List.dropWhile_cons_of_neg (by simp [first c (by simp)])
  have hend : s.rdropWhile isBlank = s := by
    rw [List.rdropWhile_eq_self_iff]
    intro hne
    simp [last (s.getLast hne) (by simp [List.getLast?_eq_some_getLast hne])]
  rw [trim, hstart]
  exact hend

/-- Trailing blanks of two texts in a row are those of the second, unless it is blank throughout. -/
theorem trimEnd_append {s t : List Char} (h : ∃ c ∈ t, isBlank c = false) :
    trimEnd (s ++ t) = s ++ trimEnd t := by
  have hne : t.reverse.dropWhile isBlank ≠ [] := by
    rw [ne_eq, List.dropWhile_eq_nil_iff]
    obtain ⟨c, hc, hsolid⟩ := h
    exact fun hall => by simpa [hsolid] using hall c (List.mem_reverse.mpr hc)
  rw [trimEnd, List.reverse_append, List.dropWhile_append, if_neg (by simpa using hne),
    List.reverse_append, List.reverse_reverse, trimEnd]

/-- A solid text is its own trimmed form. -/
theorem Solid.trim_eq {s : List Char} (h : Solid s) : trim s = s := by
  apply trim_eq_self
  · intro c hc
    exact h c (List.mem_of_mem_head? hc)
  · intro c hc
    exact h c (List.mem_of_mem_getLast? hc)

/-- What stands before the first blank is solid. -/
theorem solid_takeWhile (s : List Char) : Solid (s.takeWhile (!isBlank ·)) := by
  intro c hc
  simpa using List.mem_takeWhile_imp hc

/-- A solid text stands before the first blank as a whole. -/
theorem Solid.takeWhile_append {s t : List Char} (h : Solid s) :
    (s ++ t).takeWhile (!isBlank ·) = s ++ t.takeWhile (!isBlank ·) :=
  List.takeWhile_append_of_pos fun c hc => by simp [h c hc]

/-- What starts at the first blank lies behind a solid text. -/
theorem Solid.dropWhile_append {s t : List Char} (h : Solid s) :
    (s ++ t).dropWhile (!isBlank ·) = t.dropWhile (!isBlank ·) :=
  List.dropWhile_append_of_pos fun c hc => by simp [h c hc]

/-- All of a solid text stands before its first blank. -/
theorem Solid.takeWhile_eq {s : List Char} (h : Solid s) : s.takeWhile (!isBlank ·) = s := by
  simpa using h.takeWhile_append (t := [])

/-- Nothing of a solid text is left from its first blank on. -/
theorem Solid.dropWhile_eq {s : List Char} (h : Solid s) : s.dropWhile (!isBlank ·) = [] := by
  simpa using h.dropWhile_append (t := [])

/-- The pieces of a split consist of characters of the text at which it is not cut. -/
theorem of_mem_splitOnP {p : Char → Bool} {s w : List Char} (h : w ∈ s.splitOnP p) :
    ∀ c ∈ w, c ∈ s ∧ p c = false := by
  induction s generalizing w with
  | nil => simp_all
  | cons a rest ih =>
    have weaken : ∀ v ∈ rest.splitOnP p, ∀ c ∈ v, c ∈ a :: rest ∧ p c = false := by
      intro v hv c hc
      exact ⟨List.mem_cons_of_mem a (ih hv c hc).1, (ih hv c hc).2⟩
    by_cases ha : p a = true
    · rw [List.splitOnP_cons_eq_if_modifyHead, if_pos ha, List.mem_cons] at h
      rcases h with rfl | h
      · simp
      · exact weaken w h
    · rw [List.splitOnP_cons_eq_if_modifyHead, if_neg ha] at h
      cases hsplit : rest.splitOnP p with
      | nil => exact absurd hsplit (List.splitOnP_ne_nil p rest)
      | cons piece pieces =>
        rw [hsplit] at h weaken
        -- The first character joins the first piece; the later pieces are those of the rest.
        rcases List.mem_cons.mp h with rfl | h
        · intro c hc
          rcases List.mem_cons.mp hc with rfl | hc
          · exact ⟨List.mem_cons_self, by simpa using ha⟩
          · exact weaken piece List.mem_cons_self c hc
        · exact weaken w (List.mem_cons_of_mem _ h)

/-! ## Words -/

/-- Every word is solid. -/
theorem solid_of_mem_words {s w : List Char} (h : w ∈ words s) : Solid w :=
  fun c hc => (of_mem_splitOnP (List.mem_filter.mp h).1 c hc).2

/-- A blank parts the words before it from those behind it. -/
theorem words_append_blank {c : Char} (hc : isBlank c = true) (s t : List Char) :
    words (s ++ c :: t) = words s ++ words t := by
  rw [words, List.splitOnP_append_cons s t hc, List.filter_append]
  rfl

/-- A text without a character has no words. -/
@[simp] theorem words_nil : words [] = [] := by
  simp [words]

/-- A blank in front belongs to no word. -/
theorem words_cons_blank {c : Char} (hc : isBlank c = true) (s : List Char) :
    words (c :: s) = words s := by
  simpa using words_append_blank hc [] s

/-- A blank at the end belongs to no word. -/
theorem words_concat_blank {c : Char} (hc : isBlank c = true) (s : List Char) :
    words (s ++ [c]) = words s := by
  simpa using words_append_blank hc s []

/-- A solid text is one word. -/
theorem Solid.words_eq {s : List Char} (h : Solid s) (hne : s ≠ []) : words s = [s] := by
  rw [words, List.splitOnP_eq_singleton fun c hc => h c hc]
  simp [hne]

/-- Leading blanks do not matter to the words. -/
theorem words_trimStart (s : List Char) : words (trimStart s) = words s := by
  induction s with
  | nil => rfl
  | cons c s ih =>
    by_cases hc : isBlank c = true
    · rw [words_cons_blank hc, ← ih, trimStart, trimStart, List.dropWhile_cons_of_pos hc]
    · rw [trimStart, List.dropWhile_cons_of_neg hc]

/-- Trailing blanks do not matter to the words. -/
theorem words_trimEnd (s : List Char) : words (trimEnd s) = words s := by
  induction s using List.reverseRecOn with
  | nil => rfl
  | append_singleton s c ih =>
    by_cases hc : isBlank c = true
    · rw [words_concat_blank hc, ← ih, trimEnd, trimEnd, List.reverse_concat,
        List.dropWhile_cons_of_pos hc]
    · rw [trimEnd, List.reverse_concat, List.dropWhile_cons_of_neg hc, ← List.reverse_concat,
        List.reverse_reverse]

/-- Trimming does not change the words of a text. -/
@[simp] theorem words_trim (s : List Char) : words (trim s) = words s := by
  rw [trim, words_trimEnd, words_trimStart]

/-- A trimmed text neither starts nor ends with a blank. -/
theorem isBlank_ends_trim (s : List Char) :
    (∀ c ∈ (trim s).head?, isBlank c = false) ∧ ∀ c ∈ (trim s).getLast?, isBlank c = false := by
  constructor
  · intro c hc
    obtain ⟨rest, htrim⟩ := List.head?_eq_some_iff.mp hc
    have hprefix : trim s <+: trimStart s := List.rdropWhile_prefix isBlank (trimStart s)
    obtain ⟨tail, htail⟩ := htrim ▸ hprefix
    have hfirst := List.head?_dropWhile_not isBlank s
    rw [← trimStart, ← htail] at hfirst
    exact hfirst
  · intro c hc
    obtain ⟨hne, rfl⟩ := List.mem_getLast?_eq_getLast hc
    exact eq_false_of_ne_true (List.rdropWhile_last_not isBlank (trimStart s) hne)

/-- A text that does not start with a blank has the characters before its first blank as its first
word. -/
theorem words_eq_cons {s : List Char} (hne : s ≠ []) (hhead : ∀ c ∈ s.head?, isBlank c = false) :
    words s = s.takeWhile (!isBlank ·) :: words (s.dropWhile (!isBlank ·)) := by
  have hfirst : s.takeWhile (!isBlank ·) ≠ [] := by
    obtain ⟨c, rest, rfl⟩ := List.exists_cons_of_ne_nil hne
    simp [hhead c (by simp)]
  have hword := (solid_takeWhile s).words_eq hfirst
  cases hrest : s.dropWhile (!isBlank ·) with
  | nil =>
    have hall : s.takeWhile (!isBlank ·) = s := by
      simpa [hrest] using List.takeWhile_append_dropWhile (p := (!isBlank ·)) (l := s)
    rw [hall] at hword
    rw [words_nil, hall, hword]
  | cons c rest =>
    have hc : isBlank c = true := by
      have := List.head?_dropWhile_not (!isBlank ·) s
      simpa [hrest] using this
    calc words s
        = words (s.takeWhile (!isBlank ·) ++ c :: rest) := by
          rw [← hrest, List.takeWhile_append_dropWhile]
      _ = [s.takeWhile (!isBlank ·)] ++ words rest := by rw [words_append_blank hc, hword]
      _ = s.takeWhile (!isBlank ·) :: words (c :: rest) := by rw [words_cons_blank hc]; rfl

/-- Only a text of blanks has no words. -/
theorem words_eq_nil_iff {s : List Char} : words s = [] ↔ ∀ c ∈ s, isBlank c = true := by
  induction s with
  | nil => simp
  | cons c s ih =>
    by_cases hc : isBlank c = true
    · simp [words_cons_blank hc, ih, hc]
    · rw [words_eq_cons (by simp) (by simpa using hc)]
      simp [hc]

/-- Only a text of blanks is trimmed to nothing. -/
theorem trim_eq_nil_iff {s : List Char} : trim s = [] ↔ ∀ c ∈ s, isBlank c = true := by
  constructor
  · intro h
    rw [← words_eq_nil_iff, ← words_trim, h, words_nil]
  · intro h
    rw [trim, trimStart, List.dropWhile_eq_nil_iff.mpr h]
    rfl

/-- Every end of a trimmed text has a word. -/
theorem words_ne_nil_of_suffix_trim {s t : List Char} (h : t <:+ trim s) (hne : t ≠ []) :
    words t ≠ [] := by
  intro hwords
  have hblank := words_eq_nil_iff.mp hwords _ (List.getLast_mem hne)
  rw [h.getLast hne, (isBlank_ends_trim s).2 _ (List.getLast?_eq_some_getLast _)] at hblank
  cases hblank

/-- A text is one word when trimming leaves that word of it. -/
theorem words_eq_singleton_iff {s w : List Char} :
    words s = [w] ↔ trim s = w ∧ w ≠ [] ∧ Solid w := by
  constructor
  · intro h
    have hne : trim s ≠ [] := by
      intro hnil
      rw [← words_trim, hnil] at h
      simp at h
    rw [← words_trim, words_eq_cons hne (isBlank_ends_trim s).1, List.cons.injEq] at h
    -- Anything behind a first blank would hold another word.
    have hrest : (trim s).dropWhile (!isBlank ·) = [] := by
      by_contra hsome
      exact words_ne_nil_of_suffix_trim (List.dropWhile_suffix _) hsome h.2
    have hword : trim s = w := by
      rw [← h.1]
      simpa [hrest] using (List.takeWhile_append_dropWhile (p := (!isBlank ·)) (l := trim s)).symm
    exact ⟨hword, hword ▸ hne, h.1 ▸ solid_takeWhile _⟩
  · rintro ⟨rfl, hne, hsolid⟩
    rw [← words_trim, hsolid.words_eq hne]

end ImportMigration.Text
