import Lowering.Coloring.Simplify

/-!
# Coloring with the first color that fits

The groups of vertices get their colors in the reverse order of their removal.
Pinned groups have theirs from the start. Any other group takes the first color
that none of its neighbors in the whole graph has; if all are taken, the group
stays without a color.
-/

namespace Lowering.Coloring

variable {V C : Type} [DecidableEq V]

/-- Gives a color to all members of a group. -/
def paint (colors : InsertionMap V C) (members : List V) (c : C) : InsertionMap V C :=
  members.foldl (fun m v => m.insert v c) colors

/-- The colors of the pinned groups. -/
def pinned (removed : List (RemovedGroup V C)) : InsertionMap V C :=
  removed.foldl
    (fun colors g =>
      match g.color with
      | some c => paint colors g.members c
      | none => colors)
    ∅

/-- The colors that neighbors of the members have. -/
def taken (conflicts : Relation V) (colors : InsertionMap V C) (members : List V) : List C :=
  members.flatMap fun m => (conflicts.neighbors m).toList.filterMap colors.get?

variable [DecidableEq C]

/-- Gives a group without a pin the first color that is not taken. -/
def colorGroup
    (conflicts : Relation V) (allowed : List C) (colors : InsertionMap V C)
    (g : RemovedGroup V C) : InsertionMap V C :=
  match g.color with
  | some _ => colors
  | none =>
    match allowed.find? fun c => decide (¬ c ∈ taken conflicts colors g.members) with
    | some c => paint colors g.members c
    | none => colors

/-- The colors of all groups that get one. -/
def assign (p : ColoringProblem V C) : InsertionMap V C :=
  let removed := removedGroups p
  removed.foldl (colorGroup p.conflicts p.allowed) (pinned removed)

/-- Colors a graph. The result lists the colored vertices in the order of the
graph. -/
def firstFit : Solver V C := fun p =>
  match p.graph.selfLoop? with
  | some v => .error ⟨v⟩
  | none => .ok (.ofPartial p.vertices (assign p).get?)

end Lowering.Coloring
