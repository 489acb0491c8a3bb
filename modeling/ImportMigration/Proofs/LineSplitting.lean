import ImportMigration.Text.Lines
import Mathlib.Data.List.Basic

/-! # Splitting into lines and joining again

Joined lines split into the same lines when no line holds a line feed and none ends in a carriage
return that a bare line feed would swallow. The lines of a text have both properties with respect to
the text's own line end.

* `Joinable`: the two conditions.
* `lines_unlines_closed`, `lines_unlines_open`: what joined lines split into. Without a line end at
  the close, an empty last line is lost.
* `joinable_lines`: the lines of a text are joinable by its line end. -/

namespace ImportMigration.Text

/-! ## Reading from the front -/

/-- What follows a start is left when the start is dropped. -/
theorem dropStart?_eq_some_iff {start s rest : List Char} :
    dropStart? start s = some rest ↔ s = start ++ rest := by
  fun_induction dropStart? start s with
  | case1 s => simp
  | case2 a start s ih => simpa using ih
  | case3 a start b s hne => simp [Ne.symm hne]
  | case4 => simp

/-- A text that starts with another is what follows it, without it. -/
@[simp] theorem dropStart?_append (start rest : List Char) :
    dropStart? start (start ++ rest) = some rest := dropStart?_eq_some_iff.mpr rfl

/-- A line feed ends an empty line. -/
@[simp] theorem lines_feed (rest : List Char) : lines ('\n' :: rest) = [] :: lines rest := by
  rw [lines]

/-- A carriage return with a line feed ends an empty line. -/
@[simp] theorem lines_returnFeed (rest : List Char) :
    lines ('\r' :: '\n' :: rest) = [] :: lines rest := by
  rw [lines]

/-- Any other character joins the line that follows. -/
theorem lines_cons {c : Char} {rest : List Char} (hfeed : c ≠ '\n')
    (hreturn : c = '\r' → rest.head? ≠ some '\n') :
    lines (c :: rest) = match lines rest with
      | [] => [[c]]
      | l :: ls => (c :: l) :: ls := by
  rw [lines.eq_def]
  split
  · contradiction
  · rename_i heq
    exact absurd (List.cons.inj heq).1 hfeed
  · rename_i rest' heq
    obtain ⟨hc, hrest⟩ := List.cons.inj heq
    exact absurd (by simp [hrest]) (hreturn hc)
  · rename_i heq
    obtain ⟨rfl, rfl⟩ := List.cons.inj heq
    cases lines rest <;> rfl

/-- A text with a line feed behind it is a line of its own, if it holds no line feed and does not
end in a carriage return. -/
theorem lines_append_feed {l : List Char} (hfeed : '\n' ∉ l) (hreturn : l.getLast? ≠ some '\r')
    (rest : List Char) : lines (l ++ '\n' :: rest) = l :: lines rest := by
  induction l with
  | nil => simp
  | cons c l ih =>
    rw [List.mem_cons, not_or] at hfeed
    have htail : lines (l ++ '\n' :: rest) = l :: lines rest := by
      refine ih hfeed.2 fun hlast => hreturn ?_
      simp [List.getLast?_cons, hlast]
    rw [List.cons_append, lines_cons (Ne.symm hfeed.1), htail]
    rintro rfl
    cases l with
    | nil => simp at hreturn
    | cons d l => simpa using fun hd : d = '\n' => hfeed.2 (by simp [hd])

/-- A text with a carriage return and a line feed behind it is a line of its own, if it holds no
line feed. -/
theorem lines_append_returnFeed {l : List Char} (hfeed : '\n' ∉ l) (rest : List Char) :
    lines (l ++ '\r' :: '\n' :: rest) = l :: lines rest := by
  induction l with
  | nil => simp
  | cons c l ih =>
    rw [List.mem_cons, not_or] at hfeed
    rw [List.cons_append, lines_cons (Ne.symm hfeed.1), ih hfeed.2]
    rintro rfl
    cases l with
    | nil => simp
    | cons d l => simpa using fun hd : d = '\n' => hfeed.2 (by simp [hd])

/-- A text without a line feed is one line, unless it is empty. -/
theorem lines_of_no_feed {l : List Char} (hfeed : '\n' ∉ l) :
    lines l = if l = [] then [] else [l] := by
  induction l with
  | nil => rfl
  | cons c l ih =>
    rw [List.mem_cons, not_or] at hfeed
    rw [lines_cons (Ne.symm hfeed.1), ih hfeed.2]
    · cases l <;> simp
    · rintro -
      cases l with
      | nil => simp
      | cons d l => simpa using fun hd : d = '\n' => hfeed.2 (by simp [hd])

/-! ## Joined lines -/

/-- Lines that a line end keeps apart: none holds a line feed, and none that a bare line feed
follows ends in a carriage return. The last line is followed by a line end only when the text is
closed. -/
structure Joinable (newline : Newline) (closed : Bool) (ls : List (List Char)) : Prop where
  /-- No line holds a line feed. -/
  no_feed : ∀ l ∈ ls, '\n' ∉ l
  /-- No line ends in a carriage return that a line feed follows. -/
  no_return : newline = .feed → ∀ l ∈ if closed then ls else ls.dropLast, l.getLast? ≠ some '\r'

/-- Leaving items out of a list leaves items out of what precedes its last item. -/
theorem dropLast_sublist_dropLast {α : Type} {l m : List α} (h : l.Sublist m) :
    l.dropLast.Sublist m.dropLast := by
  rw [← List.reverse_sublist, ← List.tail_reverse, ← List.tail_reverse]
  exact h.reverse.tail

/-- Lines stay joinable when lines are put between them and some of the later ones are left out. -/
theorem Joinable.splice {newline : Newline} {closed : Bool} {front inserted rest kept : List (List Char)}
    (h : Joinable newline closed (front ++ rest)) (hrest : rest ≠ []) (hkept : kept.Sublist rest)
    (hfeed : ∀ l ∈ inserted, '\n' ∉ l) (hreturn : ∀ l ∈ inserted, l.getLast? ≠ some '\r') :
    Joinable newline closed (front ++ inserted ++ kept) := by
  refine ⟨fun l hl => ?_, fun hnewline l hl => ?_⟩
  · simp only [List.mem_append] at hl
    rcases hl with (hl | hl) | hl
    · exact h.no_feed l (List.mem_append_left rest hl)
    · exact hfeed l hl
    · exact h.no_feed l (List.mem_append_right front (hkept.subset hl))
  · have hold := h.no_return hnewline
    cases closed with
    | true =>
      simp only [if_true, List.mem_append] at hl hold
      rcases hl with (hl | hl) | hl
      · exact hold l (Or.inl hl)
      · exact hreturn l hl
      · exact hold l (Or.inr (hkept.subset hl))
    | false =>
      rw [if_neg Bool.false_ne_true, List.dropLast_append_of_ne_nil hrest] at hold
      have hmem : l ∈ front ++ inserted ++ kept.dropLast := by
        by_cases hnil : kept = []
        · subst hnil
          rw [List.append_nil] at hl
          exact List.mem_append_left _ (List.dropLast_subset _ hl)
        · rwa [if_neg Bool.false_ne_true, List.dropLast_append_of_ne_nil hnil] at hl
      simp only [List.mem_append] at hmem
      rcases hmem with (hl | hl) | hl
      · exact hold l (List.mem_append_left _ hl)
      · exact hreturn l hl
      · exact hold l (List.mem_append_right _ ((dropLast_sublist_dropLast hkept).subset hl))

/-- A line with a line end behind it is a line of its own. -/
theorem lines_append_newline {newline : Newline} {l : List Char} (hfeed : '\n' ∉ l)
    (hreturn : newline = .feed → l.getLast? ≠ some '\r') (rest : List Char) :
    lines (l ++ (newline.chars ++ rest)) = l :: lines rest := by
  cases newline with
  | feed => exact lines_append_feed hfeed (hreturn rfl) rest
  | returnFeed => exact lines_append_returnFeed hfeed rest

/-- Joining two lines or more puts a line end behind the first. -/
theorem unlines_cons_cons (newline : Newline) (closed : Bool) (l m : List Char)
    (ls : List (List Char)) :
    unlines newline closed (l :: m :: ls) = l ++ (newline.chars ++ unlines newline closed (m :: ls)) := by
  simp [unlines, List.intercalate_cons_cons]

/-- Joined lines with a line end at the close split into the same lines. -/
theorem lines_unlines_closed {newline : Newline} {ls : List (List Char)} (hne : ls ≠ [])
    (h : Joinable newline true ls) : lines (unlines newline true ls) = ls := by
  induction ls with
  | nil => exact absurd rfl hne
  | cons l rest ih =>
    have hfeed := h.no_feed l List.mem_cons_self
    have hreturn := fun hnewline => h.no_return hnewline l List.mem_cons_self
    cases rest with
    | nil =>
      have := lines_append_newline hfeed hreturn []
      simpa [unlines, lines] using this
    | cons m rest =>
      have hrest : Joinable newline true (m :: rest) :=
        ⟨fun x hx => h.no_feed x (List.mem_cons_of_mem l hx),
          fun hnewline x hx => h.no_return hnewline x (List.mem_cons_of_mem l hx)⟩
      rw [unlines_cons_cons, lines_append_newline hfeed hreturn, ih (by simp) hrest]

/-- Joined lines without a line end at the close split into the same lines, except that an empty
last line is lost. -/
theorem lines_unlines_open {newline : Newline} {ls : List (List Char)}
    (h : Joinable newline false ls) :
    lines (unlines newline false ls) = if ls.getLast? = some [] then ls.dropLast else ls := by
  induction ls with
  | nil => simp [unlines, lines]
  | cons l rest ih =>
    have hfeed := h.no_feed l List.mem_cons_self
    cases rest with
    | nil =>
      rw [show unlines newline false [l] = l by simp [unlines], lines_of_no_feed hfeed]
      simp
    | cons m rest =>
      have hreturn := fun hnewline => h.no_return hnewline l List.mem_cons_self
      have hrest : Joinable newline false (m :: rest) :=
        ⟨fun x hx => h.no_feed x (List.mem_cons_of_mem l hx),
          fun hnewline x hx => h.no_return hnewline x (List.mem_cons_of_mem l hx)⟩
      rw [unlines_cons_cons, lines_append_newline hfeed hreturn, ih hrest, List.getLast?_cons_cons,
        List.dropLast_cons_cons]
      split_ifs <;> rfl

/-! ## The lines of a text -/

/-- No line of a text holds a line feed. -/
theorem no_feed_of_mem_lines {s l : List Char} (h : l ∈ lines s) : '\n' ∉ l := by
  fun_induction lines s generalizing l with
  | case1 => simp at h
  | case2 rest ih =>
    rcases List.mem_cons.mp h with rfl | h
    · simp
    · exact ih h
  | case3 rest ih =>
    rcases List.mem_cons.mp h with rfl | h
    · simp
    · exact ih h
  | case4 c rest hfeed hreturn hlines ih =>
    obtain rfl := List.mem_singleton.mp h
    simpa [eq_comm] using hfeed
  | case5 c rest hfeed hreturn first others hlines ih =>
    rw [hlines] at ih
    rcases List.mem_cons.mp h with rfl | h
    · simpa [eq_comm] using ⟨hfeed, ih List.mem_cons_self⟩
    · exact ih (List.mem_cons_of_mem _ h)

/-- Only the empty text has no lines. -/
theorem lines_eq_nil_iff {s : List Char} : lines s = [] ↔ s = [] := by
  fun_cases lines s <;> simp

/-- A text whose first line is empty starts with a line end. -/
theorem starts_of_lines_eq_nil_cons {s : List Char} {ls : List (List Char)}
    (h : lines s = [] :: ls) : s.head? = some '\n' ∨ hasReturnFeed s = true := by
  fun_cases lines s <;> simp_all [lines, hasReturnFeed]

/-- Without a carriage return before a line feed in a text there is none in the rest, nor does the
first character give one. -/
theorem hasReturnFeed_cons {c : Char} {s : List Char} (h : hasReturnFeed (c :: s) = false) :
    hasReturnFeed s = false ∧ (c = '\r' → s.head? ≠ some '\n') := by
  rw [hasReturnFeed.eq_def] at h
  split at h
  · contradiction
  · cases h
  · rename_i hpair heq
    obtain ⟨rfl, rfl⟩ := List.cons.inj heq
    refine ⟨h, fun hc hhead => ?_⟩
    obtain ⟨tail, rfl⟩ := List.head?_eq_some_iff.mp hhead
    exact hpair tail hc rfl

/-- The lines of a text that a line end follows: all of them, or all but the last. -/
def endedLines (s : List Char) : List (List Char) :=
  if endsWithFeed s then lines s else (lines s).dropLast

/-- The lines that a line end follows come first. -/
theorem endedLines_prefix (s : List Char) : endedLines s <+: lines s := by
  rw [endedLines]
  split_ifs
  · exact List.prefix_refl _
  · exact List.dropLast_prefix _

/-- The first character of a text ends an empty line or joins the first line of the rest. -/
theorem endedLines_cons {c : Char} {s : List Char} (hreturn : c = '\r' → s.head? ≠ some '\n') :
    endedLines (c :: s) =
      if c = '\n' then [] :: endedLines s else (endedLines s).modifyHead (c :: ·) := by
  by_cases hs : s = []
  · subst hs
    by_cases hc : c = '\n'
    · simp [endedLines, endsWithFeed, lines, hc]
    · rw [if_neg hc, endedLines, lines_cons hc (by simp)]
      simp [endedLines, endsWithFeed, lines, hc]
  · obtain ⟨first, others, hlines⟩ := List.exists_cons_of_ne_nil (mt lines_eq_nil_iff.mp hs)
    have hclose : endsWithFeed (c :: s) = endsWithFeed s := by
      obtain ⟨d, s, rfl⟩ := List.exists_cons_of_ne_nil hs
      simp [endsWithFeed]
    by_cases hc : c = '\n'
    · subst hc
      rw [if_pos rfl, endedLines, endedLines, hclose, lines_feed, hlines, List.dropLast_cons_cons]
      split_ifs <;> rfl
    · rw [if_neg hc, endedLines, endedLines, hclose, lines_cons hc hreturn, hlines]
      split_ifs
      · rfl
      · cases others <;> rfl

/-- Without a carriage return before a line feed, no line that a line end follows ends in one. -/
theorem no_return_of_mem_endedLines {s l : List Char} (h : hasReturnFeed s = false)
    (hl : l ∈ endedLines s) : l.getLast? ≠ some '\r' := by
  induction s generalizing l with
  | nil => simp [endedLines, lines] at hl
  | cons c rest ih =>
    obtain ⟨hrest, hreturn⟩ := hasReturnFeed_cons h
    rw [endedLines_cons hreturn] at hl
    split_ifs at hl with hc
    · rcases List.mem_cons.mp hl with rfl | hl
      · simp
      · exact ih hrest hl
    · cases hended : endedLines rest with
      | nil => simp [hended] at hl
      | cons first others =>
        rw [hended] at ih hl
        rcases List.mem_cons.mp hl with rfl | hl
        · cases first with
          | cons d first =>
            rw [List.getLast?_cons_cons]
            exact ih hrest List.mem_cons_self
          | nil =>
            -- The character stands right before a line end, so it is no carriage return.
            obtain ⟨ls, hlines⟩ := hended ▸ endedLines_prefix rest
            rcases starts_of_lines_eq_nil_cons hlines.symm with hhead | hpair
            · simpa using fun hcr => hreturn hcr hhead
            · rw [hrest] at hpair
              cases hpair
        · exact ih hrest (List.mem_cons_of_mem first hl)

/-- **The lines of a text are joinable** by its line end. -/
theorem joinable_lines (s : List Char) : Joinable (newlineOf s) (endsWithFeed s) (lines s) := by
  refine ⟨fun l hl => no_feed_of_mem_lines hl, fun hnewline l hl => ?_⟩
  refine no_return_of_mem_endedLines ?_ hl
  by_contra hpair
  simp [newlineOf, hpair] at hnewline

end ImportMigration.Text
