import ImportMigration.Patch.Script

/-! # Searching a short edit script

A script between two lists of lines is found by divide and conquer: common lines at the two ends are
kept, and what lies between is cut at a point on a shortest path through the edit graph. That point
is where the furthest reaching paths from the two corners first meet.

* `Reach`: how far the paths of one direction get on each diagonal.
* `meetingPoint?`: the point where the two directions meet.
* `search`: the script. It is a script between the two lists wherever the cuts are made; a cut that
  would leave one part as large as the whole is not made. -/

namespace ImportMigration.Patch

variable {α : Type} [DecidableEq α]

/-- The furthest column reached on each diagonal, the diagonals counted from `-offset`. -/
structure Reach where
  /-- The diagonal number that stands at position zero, negated. -/
  offset : Nat
  /-- The columns. -/
  columns : Array Int

namespace Reach

/-- No diagonal reached, with room for diagonals of size at most `n`. -/
def start (n : Nat) : Reach := ⟨n + 1, Array.replicate (2 * n + 3) 0⟩

/-- The column on a diagonal. -/
def get (r : Reach) (k : Int) : Int := r.columns.getD (k + r.offset).toNat 0

/-- Records the column on a diagonal. -/
def set (r : Reach) (k x : Int) : Reach :=
  { r with columns := r.columns.setIfInBounds (k + r.offset).toNat x }

/-- Where a path with `d` edits enters diagonal `k`: from the neighbour that got further, by a
deletion unless an insertion gets as far. -/
def enter (r : Reach) (d k : Int) : Int :=
  if k = -d ∨ (k ≠ d ∧ r.get (k - 1) < r.get (k + 1)) then r.get (k + 1) else r.get (k - 1) + 1

end Reach

/-- The diagonals `d, d - 2, …, -d`. -/
def diagonals (d : Nat) : List Int :=
  (List.range (d + 1)).map fun i : Nat => (d : Int) - 2 * (i : Int)

/-- The number of equal lines from a place in each of two arrays on. -/
def equalRun (xs ys : Array α) (i j : Nat) : Nat :=
  if hi : i < xs.size then
    if hj : j < ys.size then
      if xs[i] = ys[j] then equalRun xs ys (i + 1) (j + 1) + 1 else 0
    else 0
  else 0
termination_by xs.size - i

/-- The lines of both sides seen from one of their ends. -/
structure Box (α : Type) where
  /-- The old lines, read away from the end. -/
  old : Array α
  /-- The new lines, read away from the end. -/
  new : Array α

namespace Box

/-- The number of old lines less the number of new lines. -/
def delta (b : Box α) : Int := (b.old.size : Int) - b.new.size

/-- The number of equal lines from a point on. -/
def slide (b : Box α) (x y : Int) : Int := equalRun b.old b.new x.toNat y.toNat

/-- Whether a point lies in the box, its far borders included. -/
def covers (b : Box α) (x y : Int) : Bool :=
  0 ≤ x && x ≤ b.old.size && 0 ≤ y && y ≤ b.new.size

end Box

/-- Advances the paths of one direction by one edit on the given diagonals. Where a path overlaps
one of the other direction, which `meets` knows from the diagonal and the column, the search ends
at the answer `found` gives for the points before and after the equal lines. -/
def advance (box : Box α) (d : Int) (meets : Int → Int → Bool)
    (found : Int × Int → Int × Int → Int × Int) :
    List Int → Reach → Except (Int × Int) Reach
  | [], reach => .ok reach
  | k :: rest, reach =>
    let x := reach.enter d k
    let y := x - k
    let length := if box.covers x y then box.slide x y else 0
    if meets k (x + length) then .error (found (x, y) (x + length, y + length))
    else advance box d meets found rest (reach.set k (x + length))

/-- Searches with `d`, `d + 1`, … edits, for as many rounds as the fuel allows. -/
def meetFrom (front back : Box α) : (fuel : Nat) → (d : Nat) → Reach → Reach →
    Option (Int × Int)
  | 0, _, _, _ => none
  | fuel + 1, d, forward, backward =>
    let n : Int := front.old.size
    let m : Int := front.new.size
    let delta := front.delta
    let odd := delta % 2 != 0
    -- With an odd difference the forward paths, one edit ahead, close the gap; with an even one the
    -- backward paths do.
    let meetsForward (k x : Int) : Bool :=
      odd && (k - delta).natAbs + 1 ≤ d && n ≤ x + backward.get (delta - k)
    match advance front d meetsForward (fun entry _ => entry) (diagonals d) forward with
    | .error point => some point
    | .ok forward =>
      let meetsBackward (k x : Int) : Bool :=
        !odd && (k - delta).natAbs ≤ d && n ≤ x + forward.get (delta - k)
      match advance back d meetsBackward (fun _ exit => (n - exit.1, m - exit.2)) (diagonals d)
          backward with
      | .error point => some point
      | .ok backward => meetFrom front back fuel (d + 1) forward backward

/-- A point on a shortest path between the corners of the edit graph, as a number of old and of new
lines before it. -/
def meetingPoint? (old new : List α) : Option (Nat × Nat) :=
  let rounds := (old.length + new.length + 1) / 2 + 1
  let front : Box α := ⟨old.toArray, new.toArray⟩
  let back : Box α := ⟨old.reverse.toArray, new.reverse.toArray⟩
  let point := meetFrom front back rounds 0 (Reach.start rounds) (Reach.start rounds)
  point.map fun (x, y) => (x.toNat, y.toNat)

/-- A kept run, if there is a line in it. -/
def keepRun (lines : List α) : List (Edit α) := if lines.isEmpty then [] else [.keep lines]

/-- A script that turns the old lines into the new ones. -/
def search (old new : List α) : List (Edit α) :=
  let start := commonStart old new
  let old' := old.drop start
  let new' := new.drop start
  let tail := commonEnd old' new'
  let oldCore := old'.take (old'.length - tail)
  let newCore := new'.take (new'.length - tail)
  let core : List (Edit α) :=
    if oldCore.isEmpty then if newCore.isEmpty then [] else [.insert newCore]
    else if newCore.isEmpty then [.delete oldCore]
    else
      match meetingPoint? oldCore newCore with
      | none => [.delete oldCore, .insert newCore]
      | some (x, y) =>
        -- A point strictly between the corners leaves two smaller parts.
        if _h : (oldCore.take x).length + (newCore.take y).length < old.length + new.length ∧
            (oldCore.drop x).length + (newCore.drop y).length < old.length + new.length then
          search (oldCore.take x) (newCore.take y) ++ search (oldCore.drop x) (newCore.drop y)
        else [.delete oldCore, .insert newCore]
  keepRun (old.take start) ++ core ++ keepRun (old'.drop (old'.length - tail))
termination_by old.length + new.length
decreasing_by
  · exact _h.1
  · exact _h.2

end ImportMigration.Patch
