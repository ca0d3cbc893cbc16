import Lowering.Coloring.FirstFit

/-!
# Groups in tables

The groups of a graph that is being taken apart, kept in tables that are updated side by
side: the graph of the groups that are left, the set of their heads, disjoint sets of the
vertices that were merged, a table from the root of such a set to the head of the group,
a table of colors by head, and the stack of the heads that were removed.

Merging two groups writes to five of these and removing one to three, so that each has to
be kept in step with the others. The steps are those of a `State`, where a group is one
entry of a map.
-/

namespace Lowering

variable {V C : Type}

/-- Disjoint sets of vertices, each with one of its vertices as root. Only the ranks of
roots matter. -/
structure DisjointSets (V : Type) where
  root : V → V
  rank : V → Nat
  root_root : ∀ v, root (root v) = root v

namespace DisjointSets

/-- Every vertex is a set of its own. -/
def discrete : DisjointSets V where
  root := id
  rank := fun _ => 0
  root_root := fun _ => rfl

variable [DecidableEq V]

/-- Adds the set of `b` to that of `a`, which keeps its root. -/
def absorb (d : DisjointSets V) (a b : V) : DisjointSets V where
  root := fun v => if d.root v = d.root b then d.root a else d.root v
  rank := fun v =>
    if v = d.root a ∧ d.rank (d.root a) = d.rank (d.root b) then d.rank v + 1 else d.rank v
  root_root := by
    intro v
    by_cases hv : d.root v = d.root b
    · simp [hv, d.root_root]
    · simp [hv, d.root_root]

/-- Unites the sets of two vertices. The root of higher rank stays a root, of two with the
same rank the first one. -/
def union (d : DisjointSets V) (a b : V) : DisjointSets V :=
  if d.root a = d.root b then d
  else if d.rank (d.root a) < d.rank (d.root b) then d.absorb b a
  else d.absorb a b

/-- All vertices of both sets have one of the two roots, and nothing else changes. -/
theorem exists_root_union (d : DisjointSets V) (a b : V) :
    ∃ r, (r = d.root a ∨ r = d.root b) ∧ ∀ v, (d.union a b).root v =
      if d.root v = d.root a ∨ d.root v = d.root b then r else d.root v := by
  unfold union
  split
  · next hab => exact ⟨d.root a, .inl rfl, fun v => by simp +contextual [hab]⟩
  · split
    · refine ⟨d.root b, .inr rfl, fun v => ?_⟩
      by_cases hb : d.root v = d.root b <;> simp [absorb, hb]
    · refine ⟨d.root a, .inl rfl, fun v => ?_⟩
      by_cases ha : d.root v = d.root a <;> simp [absorb, ha]

end DisjointSets

/-- A relation without a vertex and its edges. -/
def Relation.removeVertex [DecidableEq V] (g : Relation V) (v : V) : Relation V :=
  (g.erase v).mapValues fun _ s => s.erase v

/-- The vertices that are connected by copies, as disjoint sets. -/
def ColoringProblem.copySets [DecidableEq V] (p : ColoringProblem V C) : DisjointSets V :=
  p.coalesce.pairs.foldl
    (fun d e => if e.1 ∈ p.vertices ∧ e.2 ∈ p.vertices then d.union e.1 e.2 else d) .discrete

namespace Coloring

/-- The tables. Both `groupHead` and `copyClasses` are indexed by roots, those of `groups`
and those of the sets of copies. The head that was removed last is at the end of
`selectStack`. -/
structure Tables (V C : Type) where
  current : Relation V
  alive : InsertionSet V
  groups : DisjointSets V
  groupHead : V → V
  groupColor : V → Option C
  copyClassOf : V → V
  copyClasses : V → List V
  selectStack : List V

/-- A table with another entry for one vertex. -/
def setEntry {α : Type} [DecidableEq V] (table : V → α) (v : V) (a : α) : V → α :=
  fun u => if u = v then a else table u

namespace Tables

def headOf (t : Tables V C) (v : V) : V :=
  t.groupHead (t.groups.root v)

variable [DecidableEq V]

/-- The number of groups that the group of a head is joined to. -/
def degree (t : Tables V C) (v : V) : Nat :=
  (t.current.neighbors v).size

/-- The heads that are left and connected to `v` by copies. -/
def copies (t : Tables V C) (v : V) : List V :=
  (t.copyClasses (t.copyClassOf v)).filter fun u => decide (u ≠ v ∧ u ∈ t.alive)

/-- Whether merging `u` into `v` cannot cost a color. -/
def isSafeMerge (colors : Nat) (t : Tables V C) (v u : V) : Bool :=
  (t.current.neighbors v).toList.all fun w =>
    t.current.related w u || decide (t.degree w < colors)

/-- The first head whose group can be merged into that of `v`. -/
def mergeable? (colors : Nat) (t : Tables V C) (v : V) : Option V :=
  (t.copies v).find? fun u => !t.current.related v u && t.isSafeMerge colors v u

def merge? (colors : Nat) (t : Tables V C) : Option (V × V) :=
  t.alive.toList.findSome? fun v => (t.mergeable? colors v).map fun u => (v, u)

/-- The first group that is joined to fewer groups than there are colors. -/
def simplifiable? (colors : Nat) (t : Tables V C) : Option V :=
  t.alive.toList.find? fun v => decide (t.degree v < colors)

/-- The group that is joined to the fewest, one with a color only if all have one. -/
def candidate? (t : Tables V C) : Option V :=
  ((t.alive.toList.filter fun v => (t.groupColor v).isNone).minOn? t.degree).or
    (t.alive.toList.minOn? t.degree)

def merge (t : Tables V C) (v u : V) : Tables V C :=
  let others := (t.current.neighbors u).toList.filter fun w => decide (w ≠ v)
  let groups := t.groups.union v u
  { t with
    current := (t.current.addEdges (others.map fun w => (v, w))).removeVertex u
    alive := t.alive.erase u
    groups := groups
    groupHead := setEntry t.groupHead (groups.root v) v
    groupColor := match t.groupColor v with
      | some _ => t.groupColor
      | none => setEntry (setEntry t.groupColor v (t.groupColor u)) u none }

/-- Removes the group of `v` and puts its head on the stack. -/
def push (t : Tables V C) (v : V) : Tables V C :=
  { t with
    current := t.current.removeVertex v
    alive := t.alive.erase v
    selectStack := t.selectStack ++ [v] }

/-- Merges two groups or removes one. -/
def step (colors : Nat) (t : Tables V C) : Tables V C :=
  match t.merge? colors with
  | some (v, u) => t.merge v u
  | none =>
    match t.simplifiable? colors with
    | some v => t.push v
    | none =>
      match t.candidate? with
      | some v => t.push v
      | none => t

theorem mem_alive_of_merge? {colors : Nat} {t : Tables V C} {v u : V}
    (h : t.merge? colors = some (v, u)) : u ∈ t.alive := by
  obtain ⟨w, -, hw⟩ := List.exists_of_findSome?_eq_some h
  obtain ⟨u', hu', heq⟩ := Option.map_eq_some_iff.mp hw
  obtain ⟨-, rfl⟩ := Prod.mk.inj heq
  have hmem := (List.mem_filter.mp (List.mem_of_find?_eq_some hu')).2
  exact (of_decide_eq_true hmem).2

theorem mem_alive_of_candidate? {t : Tables V C} {v : V} (h : t.candidate? = some v) :
    v ∈ t.alive := by
  rcases Option.or_eq_some_iff.mp h with h | ⟨-, h⟩
  · exact (List.mem_filter.mp (List.minOn?_mem h)).1
  · exact List.minOn?_mem h

theorem candidate?_ne_none {t : Tables V C} (h : t.alive.toList ≠ []) : t.candidate? ≠ none := by
  intro hnone
  have hmin := (Option.or_eq_none_iff.mp hnone).2
  rw [List.minOn?_eq_if] at hmin
  simp [h] at hmin

/-- As long as a group is left, a step takes one head from those that are. -/
theorem exists_alive_step (colors : Nat) (t : Tables V C) (h : t.alive.toList ≠ []) :
    ∃ v ∈ t.alive, (t.step colors).alive = t.alive.erase v := by
  unfold step
  split
  · next v u hmerge => exact ⟨u, mem_alive_of_merge? hmerge, rfl⟩
  · split
    · next v hv => exact ⟨v, List.mem_of_find?_eq_some hv, rfl⟩
    · split
      · next v hv => exact ⟨v, mem_alive_of_candidate? hv, rfl⟩
      · next hnone => exact absurd hnone (candidate?_ne_none h)

theorem size_alive_step (colors : Nat) (t : Tables V C) (h : t.alive.toList ≠ []) :
    (t.step colors).alive.size + 1 = t.alive.size := by
  obtain ⟨v, hv, hstep⟩ := t.exists_alive_step colors h
  have herase : (t.alive.erase v).toList = t.alive.toList.erase v := by
    rw [t.alive.nodup.erase_eq_filter]
    refine List.filter_congr fun u _ => ?_
    by_cases hu : u = v <;> simp [hu]
  rw [hstep, InsertionSet.size, InsertionSet.size, herase, List.length_erase_of_mem hv]
  exact Nat.sub_add_cancel (List.length_pos_iff.mpr h)

def steps (colors : Nat) : Nat → Tables V C → Tables V C
  | 0, t => t
  | n + 1, t => steps colors n (t.step colors)

/-- Takes steps as long as a group is left, and counts them. -/
def takeApart (colors : Nat) (t : Tables V C) : Nat × Tables V C :=
  if h : t.alive.toList = [] then (0, t)
  else
    let rest := takeApart colors (t.step colors)
    (rest.1 + 1, rest.2)
termination_by t.alive.size
decreasing_by exact Nat.lt_of_succ_le (Nat.le_of_eq (t.size_alive_step colors h))

/-- The vertices whose group has the given head. -/
def members (p : ColoringProblem V C) (t : Tables V C) (head : V) : List V :=
  p.vertices.toList.filter fun v => decide (t.headOf v = head)

/-- The group of a head, as far as coloring it needs to know. -/
def group (p : ColoringProblem V C) (t : Tables V C) (head : V) : RemovedGroup V C where
  head := head
  members := t.members p head
  color := t.groupColor head
  mayLackColor := false

/-- The groups on the stack. -/
def removed (p : ColoringProblem V C) (t : Tables V C) : List (RemovedGroup V C) :=
  t.selectStack.map (t.group p)

variable [DecidableEq C]

/-- The tables for the whole graph, each vertex a group of its own. -/
def start (p : ColoringProblem V C) : Tables V C where
  current := p.conflicts
  alive := p.vertices
  groups := .discrete
  groupHead := id
  groupColor := p.fixed.get?
  copyClassOf := p.copySets.root
  copyClasses := fun r => p.vertices.toList.filter fun v => decide (p.copySets.root v = r)
  selectStack := []

/-- The tables after a number of steps. -/
def after (p : ColoringProblem V C) (n : Nat) : Tables V C :=
  (start p).steps p.allowed.length n

/-- The colors of the groups on the stack, the last one first. -/
def assign (p : ColoringProblem V C) (t : Tables V C) : InsertionMap V C :=
  (t.removed p).reverse.foldl (colorGroup p.conflicts p.allowed) (pinned (t.removed p))

/-- Colors a graph by way of the tables. -/
def firstFit : Solver V C := fun p =>
  match p.graph.selfLoop? with
  | some v => .error ⟨v⟩
  | none => .ok (.ofPartial p.vertices (((start p).takeApart p.allowed.length).2.assign p).get?)

end Tables

end Coloring

end Lowering
