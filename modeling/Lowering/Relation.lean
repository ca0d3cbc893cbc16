import Lowering.Collection.InsertionMap

/-!
# Relations between vertices

A relation lists for each vertex it knows the vertices related to it, both in
the order of insertion. It is directed: `b` may be listed under `a` and not the
other way round. Adding an edge records both directions, and the symmetric
closure does so for every pair that is related.
-/

namespace Lowering

universe u

variable {V : Type u}

/-- Each known vertex with the vertices related to it. -/
abbrev Relation (V : Type u) := InsertionMap V (InsertionSet V)

namespace Relation

/-- All related pairs, vertex by vertex. -/
def pairs (g : Relation V) : List (V × V) :=
  g.entries.flatMap fun e => e.2.toList.map fun b => (e.1, b)

/-- The relation that knows the given vertices and relates none of them. -/
def discrete (vertices : InsertionSet V) : Relation V :=
  .ofKeys vertices fun _ => ∅

@[simp]
theorem keys_discrete (vertices : InsertionSet V) : (discrete vertices).keys = vertices :=
  InsertionMap.keys_ofKeys vertices _

variable [DecidableEq V]

/-- The vertices listed under `v`. -/
def neighbors (g : Relation V) (v : V) : InsertionSet V :=
  (g.get? v).getD ∅

/-- Whether `b` is listed under `a`. -/
def related (g : Relation V) (a b : V) : Bool :=
  decide (b ∈ g.neighbors a)

/-- Whether one of two vertices is listed under the other. -/
def relatedEitherWay (g : Relation V) (a b : V) : Bool :=
  g.related a b || g.related b a

/-- Lists `b` under `a`. -/
def addArc (g : Relation V) (a b : V) : Relation V :=
  g.modifyD a ∅ fun s => s.insert b

/-- Makes `v` a known vertex. -/
def addVertex (g : Relation V) (v : V) : Relation V :=
  g.modifyD v ∅ id

def addEdge (g : Relation V) (a b : V) : Relation V :=
  (g.addArc a b).addArc b a

/-- Relates the two vertices of each pair, one pair after another. -/
def addEdges (g : Relation V) (l : List (V × V)) : Relation V :=
  l.foldl (fun g p => g.addEdge p.1 p.2) g

/-- Relates every two vertices that are related in either direction. The known
vertices are all that occur, in the order of their first occurrence. -/
def symmetricClosure (g : Relation V) : Relation V :=
  g.entries.foldl
    (fun h e => (h.addVertex e.1).addEdges (e.2.toList.map fun b => (e.1, b))) ∅

/-- The relation on the vertices of `keep` alone. -/
def restrict (g : Relation V) (keep : InsertionSet V) : Relation V :=
  .ofKeys keep fun v => (g.neighbors v).filter fun b => decide (b ∈ keep)

/-- The first vertex that is listed under itself. -/
def selfLoop? (g : Relation V) : Option V :=
  g.keys.toList.find? fun v => g.related v v

@[simp]
theorem keys_addArc (g : Relation V) (a b : V) : (g.addArc a b).keys = g.keys.insert a :=
  InsertionMap.keys_modifyD g a ∅ _

@[simp]
theorem keys_addVertex (g : Relation V) (v : V) : (g.addVertex v).keys = g.keys.insert v :=
  InsertionMap.keys_modifyD g v ∅ _

@[simp]
theorem keys_addEdge (g : Relation V) (a b : V) :
    (g.addEdge a b).keys = (g.keys.insert a).insert b := by
  simp [addEdge]

@[simp]
theorem keys_restrict (g : Relation V) (keep : InsertionSet V) : (g.restrict keep).keys = keep :=
  InsertionMap.keys_ofKeys keep _

theorem neighbors_addVertex (g : Relation V) (v w : V) :
    (g.addVertex v).neighbors w = g.neighbors w := by
  by_cases h : w = v <;> simp [neighbors, addVertex, h]

theorem neighbors_addArc (g : Relation V) (a b v : V) :
    (g.addArc a b).neighbors v =
      if v = a then (g.neighbors a).insert b else g.neighbors v := by
  by_cases h : v = a <;> simp [neighbors, addArc, h]

theorem mem_neighbors_addEdge {g : Relation V} {a b v w : V} :
    w ∈ (g.addEdge a b).neighbors v ↔
      w ∈ g.neighbors v ∨ v = a ∧ w = b ∨ v = b ∧ w = a := by
  by_cases hb : v = b <;> by_cases ha : v = a <;> by_cases hab : b = a <;>
    simp_all [addEdge, neighbors_addArc]

theorem mem_neighbors_addEdges {g : Relation V} {l : List (V × V)} {v w : V} :
    w ∈ (g.addEdges l).neighbors v ↔
      w ∈ g.neighbors v ∨ (v, w) ∈ l ∨ (w, v) ∈ l := by
  induction l generalizing g with
  | nil => simp [addEdges]
  | cons p l ih =>
      have hstep : g.addEdges (p :: l) = (g.addEdge p.1 p.2).addEdges l := rfl
      obtain ⟨a, b⟩ := p
      rw [hstep, ih, mem_neighbors_addEdge]
      simp only [List.mem_cons, Prod.mk.injEq]
      grind

@[simp]
theorem neighbors_discrete (vertices : InsertionSet V) (v : V) :
    (discrete vertices).neighbors v = ∅ := by
  by_cases h : v ∈ vertices <;> simp [neighbors, discrete, h]

theorem mem_neighbors_restrict {g : Relation V} {keep : InsertionSet V} {v w : V} :
    w ∈ (g.restrict keep).neighbors v ↔ v ∈ keep ∧ w ∈ keep ∧ w ∈ g.neighbors v := by
  by_cases h : v ∈ keep
  · simp [neighbors, restrict, h, and_comm]
  · simp [neighbors, restrict, h]

end Relation

end Lowering
