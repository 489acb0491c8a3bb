import ImportMigration.Patch.Compact
import ImportMigration.Patch.Search
import Mathlib.Data.List.Basic

/-! # What edit scripts start from and end with

The search gives a script between its two lists wherever it cuts them, and sliding runs changes
neither side of a script. Both sides are treated at once, as a view of the runs.

* `IsSide`: the views `Edit.before` and `Edit.after`.
* `IsSide.flatMap_compact`: compacting changes neither side.
* `Transforms`: scripts between two lists whose kept runs are not empty.
* `transforms_search`, `Transforms.compact`: the search gives such a script and compacting leaves it
  one. -/

namespace ImportMigration.Patch

variable {α : Type}

/-! ## The sides of a script -/

/-- A view of runs as the old or the new side sees them: kept lines are on both sides, and of the
two kinds of changed run one is on the side and the other is not. -/
structure IsSide (side : Edit α → List α) : Prop where
  /-- Kept lines are seen. -/
  keep : ∀ ls, side (.keep ls) = ls
  /-- Either deletions or insertions are seen. -/
  changed : (∀ ls, side (.delete ls) = ls ∧ side (.insert ls) = []) ∨
    ∀ ls, side (.delete ls) = [] ∧ side (.insert ls) = ls

/-- The old side sees deletions. -/
theorem isSide_before : IsSide (Edit.before : Edit α → List α) :=
  ⟨fun _ => rfl, Or.inl fun _ => ⟨rfl, rfl⟩⟩

/-- The new side sees insertions. -/
theorem isSide_after : IsSide (Edit.after : Edit α → List α) :=
  ⟨fun _ => rfl, Or.inr fun _ => ⟨rfl, rfl⟩⟩

/-- A side sees all runs of a kind or none. -/
theorem IsSide.run_eq {side : Edit α → List α} (h : IsSide side) (kind : ChangeKind) :
    (∀ ls, side (kind.run ls) = ls) ∨ ∀ ls, side (kind.run ls) = [] := by
  rcases h.changed with hside | hside
  · cases kind with
    | deletion => exact Or.inl fun ls => (hside ls).1
    | insertion => exact Or.inr fun ls => (hside ls).2
  · cases kind with
    | deletion => exact Or.inr fun ls => (hside ls).1
    | insertion => exact Or.inl fun ls => (hside ls).2

/-- A changed run is the run of its kind with its lines. -/
theorem Edit.eq_run_of_kind? {e : Edit α} {kind : ChangeKind} (h : e.kind? = some kind) :
    e = kind.run e.lines := by
  cases e with
  | keep ls => cases h
  | delete ls =>
    obtain rfl := Option.some.inj h
    rfl
  | insert ls =>
    obtain rfl := Option.some.inj h
    rfl

/-- Two runs of one kind in a row are seen as one. -/
theorem IsSide.run_append {side : Edit α → List α} (h : IsSide side) (kind : ChangeKind)
    (front back : List α) :
    side (kind.run (front ++ back)) = side (kind.run front) ++ side (kind.run back) := by
  rcases h.run_eq kind with hrun | hrun <;> simp [hrun]

/-- Runs of different kinds may change places: a side sees only one of them. -/
theorem IsSide.run_comm {side : Edit α → List α} (h : IsSide side) {kind : ChangeKind} {e : Edit α}
    (hkept : ∀ ls, e ≠ .keep ls) (hkind : e.kind? ≠ some kind) (ls : List α) :
    side e ++ side (kind.run ls) = side (kind.run ls) ++ side e := by
  cases e with
  | keep kept => exact absurd rfl (hkept kept)
  | delete deleted =>
    cases kind with
    | deletion => exact absurd rfl hkind
    | insertion => rcases h.changed with hside | hside <;> simp [ChangeKind.run, hside]
  | insert inserted =>
    cases kind with
    | deletion => rcases h.changed with hside | hside <;> simp [ChangeKind.run, hside]
    | insertion => exact absurd rfl hkind

/-- No kept run is empty. -/
def NoIdleKeep (script : List (Edit α)) : Prop := Edit.keep [] ∉ script

/-! ## Common ends -/

section Common

variable [DecidableEq α]

/-- Two lists agree on their common start. -/
theorem take_commonStart (xs ys : List α) :
    xs.take (commonStart xs ys) = ys.take (commonStart xs ys) := by
  fun_induction commonStart xs ys with
  | case1 x xs ys ih => simp [ih]
  | case2 => simp
  | case3 => simp

/-- Two lists agree on their common end. -/
theorem drop_commonEnd (xs ys : List α) :
    xs.drop (xs.length - commonEnd xs ys) = ys.drop (ys.length - commonEnd xs ys) := by
  have h := congrArg List.reverse (take_commonStart xs.reverse ys.reverse)
  rw [List.reverse_take, List.reverse_take] at h
  simpa [commonEnd] using h

/-- A common start that has a line is not empty. -/
theorem take_commonStart_ne_nil {xs ys : List α} (h : commonStart xs ys ≠ 0) :
    ys.take (commonStart xs ys) ≠ [] := by
  have hle := commonStart_le_right xs ys
  rw [ne_eq, ← List.length_eq_zero_iff, List.length_take]
  omega

/-- A common end that has a line is not empty. -/
theorem drop_commonEnd_ne_nil {xs ys : List α} (h : commonEnd xs ys ≠ 0) :
    ys.drop (ys.length - commonEnd xs ys) ≠ [] := by
  have hle := commonEnd_le_right xs ys
  rw [ne_eq, ← List.length_eq_zero_iff, List.length_drop]
  omega

end Common

/-! ## Sliding -/

/-- The whole script around the run in focus. -/
def Focus.script (kind : ChangeKind) (f : Focus α) : List (Edit α) :=
  f.above.reverse ++ kind.run f.lines :: f.below

/-- Kept lines in front of a script are seen in front of it. -/
theorem IsSide.flatMap_keepAbove {side : Edit α → List α} (h : IsSide side) (ls : List α)
    (below : List (Edit α)) : (keepAbove ls below).flatMap side = ls ++ below.flatMap side := by
  fun_cases keepAbove ls below <;> simp [h.keep]

/-- Kept lines behind a script are seen behind it. -/
theorem IsSide.flatMap_keepBelow {side : Edit α → List α} (h : IsSide side) (ls : List α)
    (above : List (Edit α)) :
    (keepBelow ls above).reverse.flatMap side = above.reverse.flatMap side ++ ls := by
  fun_cases keepBelow ls above <;> simp [h.keep]

section Slide

variable [DecidableEq α] {side : Edit α → List α}

/-- A side sees no difference when a run moves up over lines that its own end repeats. -/
theorem IsSide.run_up (h : IsSide side) (kind : ChangeKind) (kept lines rest : List α) :
    kept.take (kept.length - commonEnd lines kept) ++
        (side (kind.run (kept.drop (kept.length - commonEnd lines kept) ++
          lines.take (lines.length - commonEnd lines kept))) ++
        (kept.drop (kept.length - commonEnd lines kept) ++ rest)) =
      kept ++ (side (kind.run lines) ++ rest) := by
  rcases h.run_eq kind with hrun | hrun
  · calc
      _ = (kept.take (kept.length - commonEnd lines kept) ++
            kept.drop (kept.length - commonEnd lines kept)) ++
          ((lines.take (lines.length - commonEnd lines kept) ++
            lines.drop (lines.length - commonEnd lines kept)) ++ rest) := by
        simp only [hrun, drop_commonEnd, List.append_assoc]
      _ = _ := by rw [hrun, List.take_append_drop, List.take_append_drop]
  · rw [hrun, hrun, List.nil_append, List.nil_append, ← List.append_assoc, List.take_append_drop]

/-- A side sees no difference when a run moves down over lines that its own start repeats. -/
theorem IsSide.run_down (h : IsSide side) (kind : ChangeKind) (kept lines rest : List α) :
    kept.take (commonStart lines kept) ++
        (side (kind.run (lines.drop (commonStart lines kept) ++
          kept.take (commonStart lines kept))) ++
        (kept.drop (commonStart lines kept) ++ rest)) =
      side (kind.run lines) ++ (kept ++ rest) := by
  rcases h.run_eq kind with hrun | hrun
  · calc
      _ = (lines.take (commonStart lines kept) ++ lines.drop (commonStart lines kept)) ++
          ((kept.take (commonStart lines kept) ++ kept.drop (commonStart lines kept)) ++ rest) := by
        simp only [hrun, take_commonStart, List.append_assoc]
      _ = _ := by rw [hrun, List.take_append_drop, List.take_append_drop]
  · rw [hrun, hrun, List.nil_append, List.nil_append, ← List.append_assoc, List.take_append_drop]

omit [DecidableEq α] in
/-- What a side sees of a script around a run. -/
theorem flatMap_script (kind : ChangeKind) (above : List (Edit α)) (lines : List α)
    (below : List (Edit α)) :
    (Focus.script kind ⟨above, lines, below⟩).flatMap side =
      above.reverse.flatMap side ++ (side (kind.run lines) ++ below.flatMap side) := by
  simp [Focus.script]

omit [DecidableEq α] in
/-- The nearest run above is seen last of those above. -/
theorem flatMap_reverse_cons (e : Edit α) (above : List (Edit α)) :
    (e :: above).reverse.flatMap side = above.reverse.flatMap side ++ side e := by
  simp

/-- Sliding a run up changes neither side of the script. -/
theorem IsSide.flatMap_slideUp (h : IsSide side) (kind : ChangeKind) (above : List (Edit α))
    (lines : List α) (below : List (Edit α)) :
    ((Focus.slideUp kind above lines below).script kind).flatMap side =
      (Focus.script kind ⟨above, lines, below⟩).flatMap side := by
  fun_induction Focus.slideUp kind above lines below with
  | case1 lines below => rfl
  | case2 lines below kept rest n hn hempty ih =>
    rw [ih, flatMap_script, flatMap_script, flatMap_reverse_cons, h.keep,
      List.isEmpty_iff.mp hempty, List.append_nil]
  | case3 => rfl
  | case4 lines below kept rest n hn shared stay lines' hstay ih =>
    have hmove : stay ++ (side (kind.run lines') ++ (shared ++ below.flatMap side)) =
        kept ++ (side (kind.run lines) ++ below.flatMap side) := h.run_up kind kept lines _
    rw [List.isEmpty_iff.mp hstay, List.nil_append] at hmove
    rw [ih, flatMap_script, flatMap_script, flatMap_reverse_cons, h.keep, h.flatMap_keepAbove,
      hmove, List.append_assoc]
  | case5 lines below kept rest n hn shared stay lines' hstay ih =>
    have hmove : stay ++ (side (kind.run lines') ++ (shared ++ below.flatMap side)) =
        kept ++ (side (kind.run lines) ++ below.flatMap side) := h.run_up kind kept lines _
    rw [ih, flatMap_script, flatMap_script, flatMap_reverse_cons, flatMap_reverse_cons, h.keep,
      h.keep, h.flatMap_keepAbove, List.append_assoc, hmove, List.append_assoc]
  | case6 lines below other rest hkept hkind ih =>
    rw [ih, flatMap_script, flatMap_script, flatMap_reverse_cons, h.run_append,
      ← Edit.eq_run_of_kind? hkind, List.append_assoc, List.append_assoc]
  | case7 lines below other rest hkept hkind ih =>
    have hswap := h.run_comm hkept hkind lines
    rw [ih, flatMap_script, flatMap_script, flatMap_reverse_cons, List.flatMap_cons,
      ← List.append_assoc (side _), ← hswap, List.append_assoc, List.append_assoc]

/-- Sliding a run down changes neither side of the script. -/
theorem IsSide.flatMap_slideDown (h : IsSide side) (kind : ChangeKind) (above : List (Edit α))
    (lines : List α) (below : List (Edit α)) :
    ((Focus.slideDown kind above lines below).script kind).flatMap side =
      (Focus.script kind ⟨above, lines, below⟩).flatMap side := by
  fun_induction Focus.slideDown kind above lines below with
  | case1 above lines => rfl
  | case2 above lines kept rest n hn hempty ih =>
    rw [ih, flatMap_script, flatMap_script, List.flatMap_cons, h.keep,
      List.isEmpty_iff.mp hempty, List.nil_append]
  | case3 => rfl
  | case4 above lines kept rest n hn shared stay lines' hstay ih =>
    have hmove : shared ++ (side (kind.run lines') ++ (stay ++ rest.flatMap side)) =
        side (kind.run lines) ++ (kept ++ rest.flatMap side) := h.run_down kind kept lines _
    rw [List.isEmpty_iff.mp hstay, List.nil_append] at hmove
    rw [ih, flatMap_script, flatMap_script, List.flatMap_cons, h.keep, h.flatMap_keepBelow,
      List.append_assoc, hmove]
  | case5 above lines kept rest n hn shared stay lines' hstay ih =>
    have hmove : shared ++ (side (kind.run lines') ++ (stay ++ rest.flatMap side)) =
        side (kind.run lines) ++ (kept ++ rest.flatMap side) := h.run_down kind kept lines _
    rw [ih, flatMap_script, flatMap_script, List.flatMap_cons, List.flatMap_cons, h.keep, h.keep,
      h.flatMap_keepBelow, List.append_assoc, hmove]
  | case6 above lines other rest hkept hkind ih =>
    rw [ih, flatMap_script, flatMap_script, List.flatMap_cons, h.run_append,
      ← Edit.eq_run_of_kind? hkind, List.append_assoc]
  | case7 above lines other rest hkept hkind ih =>
    have hswap := h.run_comm hkept hkind lines
    rw [ih, flatMap_script, flatMap_script, flatMap_reverse_cons, List.flatMap_cons,
      ← List.append_assoc (side (kind.run lines)), ← hswap, List.append_assoc, List.append_assoc]

/-- Sliding all runs of a kind changes neither side of the script, however long it goes on. -/
theorem IsSide.flatMap_slideAll (h : IsSide side) (kind : ChangeKind) (fuel : Nat)
    (above below : List (Edit α)) :
    (slideAll kind fuel above below).flatMap side = (above.reverse ++ below).flatMap side := by
  fun_induction slideAll kind fuel above below with
  | case1 above below => rfl
  | case2 => simp
  | case3 fuel above e rest hkind up down ih =>
    calc (slideAll kind fuel (kind.run down.lines :: down.above) down.below).flatMap side
        = (down.script kind).flatMap side := by rw [ih, Focus.script]; simp
      _ = (up.script kind).flatMap side := h.flatMap_slideDown kind up.above up.lines up.below
      _ = (Focus.script kind ⟨above, e.lines, rest⟩).flatMap side :=
        h.flatMap_slideUp kind above e.lines rest
      _ = (above.reverse ++ e :: rest).flatMap side := by
        rw [Focus.script, ← Edit.eq_run_of_kind? hkind]
  | case4 fuel above e rest hkind ih =>
    rw [ih, List.reverse_cons, List.append_assoc]
    rfl

/-- **Compacting a script** changes neither side of it. -/
theorem IsSide.flatMap_compact (h : IsSide side) (script : List (Edit α)) :
    (compact script).flatMap side = script.flatMap side := by
  rw [compact, h.flatMap_slideAll, List.reverse_nil, List.nil_append, h.flatMap_slideAll,
    List.reverse_nil, List.nil_append]

/-! ## Kept runs have a line -/

omit [DecidableEq α] in
/-- Kept lines in front of a script make no empty run. -/
theorem noIdleKeep_keepAbove {ls : List α} (hls : ls ≠ []) {below : List (Edit α)}
    (h : NoIdleKeep below) : NoIdleKeep (keepAbove ls below) := by
  unfold NoIdleKeep at *
  fun_cases keepAbove ls below <;> simp_all [eq_comm]

omit [DecidableEq α] in
/-- Kept lines behind a script make no empty run. -/
theorem noIdleKeep_keepBelow {ls : List α} (hls : ls ≠ []) {above : List (Edit α)}
    (h : NoIdleKeep above) : NoIdleKeep (keepBelow ls above) := by
  unfold NoIdleKeep at *
  fun_cases keepBelow ls above <;> simp_all [eq_comm]

omit [DecidableEq α] in
/-- The runs of a script make no empty kept run when none of them is one. -/
@[simp] theorem noIdleKeep_cons (e : Edit α) (script : List (Edit α)) :
    NoIdleKeep (e :: script) ↔ e ≠ .keep [] ∧ NoIdleKeep script := by
  simp [NoIdleKeep, eq_comm]

omit [DecidableEq α] in
/-- Two scripts in a row have no empty kept run when neither has one. -/
@[simp] theorem noIdleKeep_append (front back : List (Edit α)) :
    NoIdleKeep (front ++ back) ↔ NoIdleKeep front ∧ NoIdleKeep back := by
  simp [NoIdleKeep]

/-- Sliding a run up makes no empty kept run. -/
theorem noIdleKeep_slideUp (kind : ChangeKind) {above : List (Edit α)} (lines : List α)
    {below : List (Edit α)} (habove : NoIdleKeep above) (hbelow : NoIdleKeep below) :
    NoIdleKeep (Focus.slideUp kind above lines below).above ∧
      NoIdleKeep (Focus.slideUp kind above lines below).below := by
  fun_induction Focus.slideUp kind above lines below with
  | case1 => exact ⟨habove, hbelow⟩
  | case2 lines below kept rest n hn hempty ih => exact ih (by simp_all) hbelow
  | case3 => exact ⟨habove, hbelow⟩
  | case4 lines below kept rest n hn shared stay lines' hstay ih =>
    exact ih (by simp_all) (noIdleKeep_keepAbove (drop_commonEnd_ne_nil hn) hbelow)
  | case5 lines below kept rest n hn shared stay lines' hstay ih =>
    have hrest : NoIdleKeep (.keep stay :: rest) := by simp_all
    exact ih hrest (noIdleKeep_keepAbove (drop_commonEnd_ne_nil hn) hbelow)
  | case6 lines below other rest hkept hkind ih => exact ih (by simp_all) hbelow
  | case7 lines below other rest hkept hkind ih => exact ih (by simp_all) (by simp_all)

/-- Sliding a run down makes no empty kept run. -/
theorem noIdleKeep_slideDown (kind : ChangeKind) {above : List (Edit α)} (lines : List α)
    {below : List (Edit α)} (habove : NoIdleKeep above) (hbelow : NoIdleKeep below) :
    NoIdleKeep (Focus.slideDown kind above lines below).above ∧
      NoIdleKeep (Focus.slideDown kind above lines below).below := by
  fun_induction Focus.slideDown kind above lines below with
  | case1 => exact ⟨habove, hbelow⟩
  | case2 above lines kept rest n hn hempty ih => exact ih habove (by simp_all)
  | case3 => exact ⟨habove, hbelow⟩
  | case4 above lines kept rest n hn shared stay lines' hstay ih =>
    exact ih (noIdleKeep_keepBelow (take_commonStart_ne_nil hn) habove) (by simp_all)
  | case5 above lines kept rest n hn shared stay lines' hstay ih =>
    have hstay' : NoIdleKeep (.keep stay :: rest) := by simp_all
    exact ih (noIdleKeep_keepBelow (take_commonStart_ne_nil hn) habove) hstay'
  | case6 above lines other rest hkept hkind ih => exact ih habove (by simp_all)
  | case7 above lines other rest hkept hkind ih => exact ih (by simp_all) (by simp_all)

/-- Sliding all runs of a kind makes no empty kept run. -/
theorem noIdleKeep_slideAll (kind : ChangeKind) (fuel : Nat) {above below : List (Edit α)}
    (habove : NoIdleKeep above) (hbelow : NoIdleKeep below) :
    NoIdleKeep (slideAll kind fuel above below) := by
  have hrun : ∀ ls : List α, kind.run ls ≠ .keep [] := by
    intro ls
    cases kind <;> simp [ChangeKind.run]
  have hreverse : ∀ script : List (Edit α), NoIdleKeep script → NoIdleKeep script.reverse := by
    intro script h
    simpa [NoIdleKeep] using h
  fun_induction slideAll kind fuel above below with
  | case1 above below => simpa using ⟨hreverse above habove, hbelow⟩
  | case2 => exact hreverse _ habove
  | case3 fuel above e rest hkind up down ih =>
    rw [noIdleKeep_cons] at hbelow
    obtain ⟨hupAbove, hupBelow⟩ := noIdleKeep_slideUp kind e.lines habove hbelow.2
    obtain ⟨hdownAbove, hdownBelow⟩ := noIdleKeep_slideDown kind up.lines hupAbove hupBelow
    exact ih ((noIdleKeep_cons _ _).mpr ⟨hrun down.lines, hdownAbove⟩) hdownBelow
  | case4 fuel above e rest hkind ih =>
    rw [noIdleKeep_cons] at hbelow
    exact ih ((noIdleKeep_cons _ _).mpr ⟨hbelow.1, habove⟩) hbelow.2

/-- Compacting a script makes no empty kept run. -/
theorem noIdleKeep_compact {script : List (Edit α)} (h : NoIdleKeep script) :
    NoIdleKeep (compact script) := by
  have hnil : NoIdleKeep ([] : List (Edit α)) := by simp [NoIdleKeep]
  exact noIdleKeep_slideAll .insertion _ hnil (noIdleKeep_slideAll .deletion _ hnil h)

end Slide

/-! ## Scripts between two lists -/

/-- A script that turns one list into another, its kept runs not empty. -/
structure Transforms (old new : List α) (script : List (Edit α)) : Prop where
  /-- The script starts from the old list. -/
  before_eq : before script = old
  /-- The script ends with the new list. -/
  after_eq : after script = new
  /-- Every kept run has a line. -/
  noIdleKeep : NoIdleKeep script

/-- Scripts in a row turn the lists in a row into each other. -/
theorem Transforms.append {old old' new new' : List α} {script script' : List (Edit α)}
    (h : Transforms old new script) (h' : Transforms old' new' script') :
    Transforms (old ++ old') (new ++ new') (script ++ script') := by
  refine ⟨?_, ?_, (noIdleKeep_append _ _).mpr ⟨h.noIdleKeep, h'.noIdleKeep⟩⟩
  · rw [← h.before_eq, ← h'.before_eq]
    exact List.flatMap_append
  · rw [← h.after_eq, ← h'.after_eq]
    exact List.flatMap_append

/-- The script without runs. -/
theorem transforms_nil : Transforms ([] : List α) [] [] := ⟨rfl, rfl, by simp [NoIdleKeep]⟩

/-- A deletion takes all lines away. -/
theorem transforms_delete (old : List α) : Transforms old [] [.delete old] :=
  ⟨by simp [before, Edit.before], by simp [after, Edit.after], by simp [NoIdleKeep]⟩

/-- An insertion gives all lines. -/
theorem transforms_insert (new : List α) : Transforms [] new [.insert new] :=
  ⟨by simp [before, Edit.before], by simp [after, Edit.after], by simp [NoIdleKeep]⟩

/-- A kept run, left out when it is empty, keeps its lines. -/
theorem transforms_keepRun [DecidableEq α] (ls : List α) : Transforms ls ls (keepRun ls) := by
  unfold keepRun
  split_ifs with hempty
  · rw [List.isEmpty_iff.mp hempty]
    exact transforms_nil
  · refine ⟨by simp [before, Edit.before], by simp [after, Edit.after], ?_⟩
    intro hidle
    obtain rfl := Edit.keep.inj (List.mem_singleton.mp hidle)
    exact hempty rfl

/-- **The search gives a script** between its two lists, wherever it cuts them. -/
theorem transforms_search [DecidableEq α] (old new : List α) :
    Transforms old new (search old new) := by
  fun_induction search old new with
  | case1 old new start old' new' tail oldCore newCore core ihFront ihBack =>
    have hcore : Transforms oldCore newCore core := by
      unfold core
      split_ifs with hold hnew hnew
      · rw [List.isEmpty_iff.mp hold, List.isEmpty_iff.mp hnew]
        exact transforms_nil
      · rw [List.isEmpty_iff.mp hold]
        exact transforms_insert newCore
      · rw [List.isEmpty_iff.mp hnew]
        exact transforms_delete oldCore
      · have hplain : Transforms oldCore newCore [.delete oldCore, .insert newCore] := by
          simpa using (transforms_delete oldCore).append (transforms_insert newCore)
        split
        · exact hplain
        · rename_i x y hmeet
          split_ifs with hsmaller
          · simpa using (ihFront x y hsmaller).append (ihBack x y hsmaller)
          · exact hplain
    have hstart : old.take start = new.take start := take_commonStart old new
    have hend : old'.drop (old'.length - tail) = new'.drop (new'.length - tail) :=
      drop_commonEnd old' new'
    have hall := ((transforms_keepRun (old.take start)).append hcore).append
      (transforms_keepRun (old'.drop (old'.length - tail)))
    have hold : old.take start ++ oldCore ++ old'.drop (old'.length - tail) = old := by
      rw [List.append_assoc, List.take_append_drop, List.take_append_drop]
    have hnew : old.take start ++ newCore ++ old'.drop (old'.length - tail) = new := by
      rw [hstart, hend, List.append_assoc, List.take_append_drop, List.take_append_drop]
    rwa [hold, hnew] at hall

/-- **Compacting a script** leaves it one between the same lists. -/
theorem Transforms.compact [DecidableEq α] {old new : List α} {script : List (Edit α)}
    (h : Transforms old new script) : Transforms old new (Patch.compact script) := by
  refine ⟨?_, ?_, noIdleKeep_compact h.noIdleKeep⟩
  · rw [before, isSide_before.flatMap_compact]
    exact h.before_eq
  · rw [after, isSide_after.flatMap_compact]
    exact h.after_eq

end ImportMigration.Patch
