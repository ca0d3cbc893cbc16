import Lowering.Coloring.Problem

/-!
# Taking a graph apart

Vertices are gathered in groups that will share a color, and the groups are
removed from the graph one by one. Each step does the first of these that is
possible:

* merge two groups connected by copies, if that cannot make the graph harder to
  color;
* remove a group with fewer neighbors than there are colors;
* remove the group with the fewest neighbors, which may end up without a color.

Every step makes the graph one group smaller, so there are as many steps as
there are vertices.
-/

namespace Lowering.Coloring

variable {V C : Type}

/-- Vertices that will have one color, in the graph that is left. The groups in conflict with
this one are known by their heads, and the color is the one that a member is pinned to. -/
structure Group (V C : Type) where
  members : List V
  neighbors : InsertionSet V
  color : Option C
  copyClass : V

/-- A group that has been taken out of the graph. It may lack a color if it had too many
neighbors to be sure of one. -/
structure RemovedGroup (V C : Type) where
  head : V
  members : List V
  color : Option C
  mayLackColor : Bool
deriving DecidableEq

/-- The groups that are left in the graph, each under the vertex that stands for it, and the
groups taken out of it, the last one first. -/
structure State (V C : Type) where
  groups : InsertionMap V (Group V C)
  removed : List (RemovedGroup V C)

namespace State

variable [DecidableEq V]

/-- The groups in conflict with the group of a head. -/
def neighbors (s : State V C) (v : V) : InsertionSet V :=
  match s.groups.get? v with
  | some g => g.neighbors
  | none => ∅

/-- The number of groups in conflict with the group of a head. -/
def degree (s : State V C) (v : V) : Nat :=
  (s.neighbors v).size

/-- The color to which the group of a head is pinned. -/
def color? (s : State V C) (v : V) : Option C :=
  (s.groups.get? v).bind Group.color

/-- The other groups that are connected to `v` by copies. -/
def copies (s : State V C) (v : V) : List V :=
  match s.groups.get? v with
  | none => []
  | some g =>
    (s.groups.entries.filter fun e =>
      decide (e.1 ≠ v) && decide (e.2.copyClass = g.copyClass)).map Prod.fst

/-- Whether merging `u` into `v` cannot cost a color: each neighbor of `v` is a
neighbor of `u` already, or has fewer neighbors than there are colors. -/
def isSafeMerge (colors : Nat) (s : State V C) (v u : V) : Bool :=
  (s.neighbors v).toList.all fun t =>
    decide (u ∈ s.neighbors t) || decide (s.degree t < colors)

/-- The first group that can be merged into `v`. -/
def mergeable? (colors : Nat) (s : State V C) (v : V) : Option V :=
  (s.copies v).find? fun u =>
    decide (¬ u ∈ s.neighbors v) && s.isSafeMerge colors v u

/-- The first two groups that can be merged. -/
def merge? (colors : Nat) (s : State V C) : Option (V × V) :=
  s.groups.keys.toList.findSome? fun v => (s.mergeable? colors v).map fun u => (v, u)

/-- The first group with fewer neighbors than there are colors. -/
def simplifiable? (colors : Nat) (s : State V C) : Option V :=
  s.groups.keys.toList.find? fun v => decide (s.degree v < colors)

/-- The group with the fewest neighbors, a pinned one only if all are pinned. -/
def candidate? (s : State V C) : Option V :=
  let heads := s.groups.keys.toList
  match (heads.filter fun v => (s.color? v).isNone).minOn? s.degree with
  | some v => some v
  | none => heads.minOn? s.degree

/-- The group of `v` after the group of `u` has joined it. -/
def absorb (v u : V) (g h : Group V C) : Group V C :=
  { g with
    members := g.members ++ h.members
    neighbors := ((g.neighbors.insertAll h.neighbors.toList).erase u).erase v
    color := g.color.or h.color }

/-- Another group after the group of `u` has become part of that of `v`. -/
def redirect (v u : V) (g : Group V C) : Group V C :=
  if u ∈ g.neighbors then { g with neighbors := (g.neighbors.erase u).insert v } else g

/-- Merges the group of `u` into that of `v`. -/
def merge (s : State V C) (v u : V) : State V C :=
  match s.groups.get? u with
  | none => s
  | some h =>
    { s with
      groups := (s.groups.erase u).mapValues fun t g =>
        if t = v then absorb v u g h else redirect v u g }

/-- Takes the group of `v` out of the graph. -/
def remove (s : State V C) (v : V) (mayLackColor : Bool) : State V C :=
  match s.groups.get? v with
  | none => s
  | some g =>
    { groups := (s.groups.erase v).mapValues fun _ h =>
        { h with neighbors := h.neighbors.erase v }
      removed := ⟨v, g.members, g.color, mayLackColor⟩ :: s.removed }

/-- Makes the graph one group smaller. -/
def step (colors : Nat) (s : State V C) : State V C :=
  match s.merge? colors with
  | some (v, u) => s.merge v u
  | none =>
    match s.simplifiable? colors with
    | some v => s.remove v false
    | none =>
      match s.candidate? with
      | some v => s.remove v true
      | none => s

def steps (colors : Nat) : Nat → State V C → State V C
  | 0, s => s
  | n + 1, s => steps colors n (s.step colors)

end State

variable [DecidableEq V] [DecidableEq C]

/-- The whole graph, each vertex a group of its own. -/
def start (p : ColoringProblem V C) : State V C :=
  let conflicts := p.conflicts
  let classes := p.classes
  { groups := .ofKeys p.vertices fun v =>
      { members := [v]
        neighbors := conflicts.neighbors v
        color := p.fixed.get? v
        copyClass := (classes.get? v).getD v }
    removed := [] }

/-- The graph after a number of steps. -/
def stateAfter (p : ColoringProblem V C) (n : Nat) : State V C :=
  (start p).steps p.allowed.length n

/-- The groups in the order in which they were removed, the last one first. -/
def removedGroups (p : ColoringProblem V C) : List (RemovedGroup V C) :=
  (stateAfter p p.vertices.size).removed

end Lowering.Coloring
