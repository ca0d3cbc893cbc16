import Lowering.Relation

/-!
# Coloring problems

A coloring problem asks for a color for each vertex of a graph, such that
neighbors differ. Some vertices have their color from the start. A second
relation lists vertices that should, where possible, have the same color. A
solver may leave vertices without a color.

The graph need not be symmetric: two vertices are in conflict if one of them
lists the other, or if they are pinned to different colors.
-/

namespace Lowering

/-- A graph to be colored. Neighbors in `graph` may not share a color, those in `coalesce`
should, and the colors in `fixed` are settled beforehand. The allowed colors stand in the
order of preference. -/
structure ColoringProblem (V C : Type) where
  graph : Relation V
  coalesce : Relation V
  fixed : InsertionMap V C
  allowed : List C

/-- A vertex that would have to differ from itself. -/
structure SelfLoop (V : Type) where
  vertex : V
deriving DecidableEq, Inhabited, Repr

/-- A way to color graphs. -/
abbrev Solver (V C : Type) := ColoringProblem V C → Except (SelfLoop V) (InsertionMap V C)

namespace ColoringProblem

variable {V C : Type} [DecidableEq V]

/-- All vertices, in the order in which the graph mentions them. -/
def vertices (p : ColoringProblem V C) : InsertionSet V :=
  p.graph.symmetricClosure.keys

/-- Joins two classes of copies, if both vertices belong to the problem. Each
vertex is mapped to the vertex that names its class. -/
def joinClasses (classes : InsertionMap V V) (pair : V × V) : InsertionMap V V :=
  match classes.get? pair.1, classes.get? pair.2 with
  | some a, some b => classes.mapValues fun _ c => if c = b then a else c
  | _, _ => classes

/-- The classes of vertices that are connected by copies. -/
def classes (p : ColoringProblem V C) : InsertionMap V V :=
  p.coalesce.pairs.foldl joinClasses (.ofKeys p.vertices id)

variable [DecidableEq C]

/-- The pairs of vertices that are pinned to different colors. -/
def pinnedApart (p : ColoringProblem V C) : List (V × V) :=
  (orderedPairs p.vertices.toList).filter fun pair =>
    match p.fixed.get? pair.1, p.fixed.get? pair.2 with
    | some c, some d => decide (c ≠ d)
    | _, _ => false

/-- The vertices in conflict, in both directions. -/
def conflicts (p : ColoringProblem V C) : Relation V :=
  p.graph.symmetricClosure.addEdges p.pinnedApart

end ColoringProblem

end Lowering
