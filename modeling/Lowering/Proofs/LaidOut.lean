import Lowering.Layout
import Lowering.Proofs.Maps
import Mathlib.Data.List.Forall2
import Mathlib.Tactic.SplitIfs

/-!
# Code that follows a graph

What it means for blocks to be the layout of a graph: each block belongs to a
vertex and holds its label, the work of the vertex, and the jumps that take
control to the blocks of the destinations. Where no jump leads to a destination,
its block comes next.
-/

namespace Lowering

universe u

variable {Tree : Type u}

/-- A vertex can be reached from the initial vertex. -/
inductive FlowGraph.Reachable (graph : FlowGraph Tree) : Nat → Prop
  | initial : Reachable graph graph.initial
  | next {v d : Nat} {vertex : Vertex Tree} (hv : Reachable graph v)
      (hvertex : graph.vertices.get? v = some vertex) (hd : d ∈ vertex.destinations) :
      Reachable graph d

/-- If the initial vertex and the destinations of all vertices are in the graph, then
so is every vertex that can be reached. -/
theorem FlowGraph.Reachable.exists_vertex {graph : FlowGraph Tree}
    (hinitial : graph.initial ∈ graph.vertices)
    (hdestinations : ∀ e ∈ graph.vertices.entries, ∀ d ∈ e.2.destinations, d ∈ graph.vertices)
    {v : Nat} (hv : graph.Reachable v) : ∃ vertex, graph.vertices.get? v = some vertex := by
  rw [← InsertionMap.mem_iff_exists_get?]
  cases hv with
  | initial => exact hinitial
  | next _ hvertex hd =>
      exact hdestinations _ (InsertionMap.get?_eq_some_iff.mp hvertex) v hd

/-- Whether an instruction leaves control alone: it places no label and does not
jump. -/
def Instruction.isStraight : Instruction → Bool
  | .operate _ => true
  | .fusedCopy _ _ _ => true
  | _ => false

/-- What directs control uses no registers. -/
theorem Instruction.unused_of_not_isStraight {i : Instruction} (h : i.isStraight = false) :
    i.reads = [] ∧ i.writes = [] ∧ i.copy? = none ∧ i.transfer? = none := by
  cases i with
  | operate o => simp [isStraight] at h
  | fusedCopy c r w => simp [isStraight] at h
  | _ => exact ⟨rfl, rfl, rfl, rfl⟩

/-- The code of a vertex before control leaves it: that for its tree, or where the tree
is a condition, that for the condition. -/
def Selection.work (selection : Selection Tree) (condition : Tree → List Instruction) :
    Vertex Tree → List Instruction
  | .final tree => selection.cover tree
  | .jump tree _ => selection.cover tree
  | .conditional tree _ _ => condition tree

/-- A selection does what is asked of it for control: the code of a vertex leaves control
alone, and a branch follows the code for the condition. -/
structure Selection.Lawful (selection : Selection Tree) (condition : Tree → List Instruction) :
    Prop where
  straight : ∀ vertex, ∀ i ∈ selection.work condition vertex, i.isStraight = true
  coverBranch_eq : ∀ tree label jumpIf,
    selection.coverBranch tree label jumpIf = condition tree ++ [.branch label jumpIf]

theorem Selection.exists_operate_of_mem_work {vertex : Vertex WorkList} {i : Instruction}
    (hi : i ∈ Selection.sequential.work Selection.sequential.cover vertex) :
    ∃ o, i = .operate o := by
  cases vertex <;>
  · obtain ⟨o, -, rfl⟩ := List.mem_map.mp hi
    exact ⟨o, rfl⟩

theorem Selection.sequential_lawful :
    Selection.sequential.Lawful Selection.sequential.cover where
  straight := by
    intro vertex i hi
    obtain ⟨o, rfl⟩ := exists_operate_of_mem_work hi
    rfl
  coverBranch_eq := fun _ _ _ => rfl

namespace Layout

/-- The jumps at the end of the block of a vertex. -/
def jumps (function : String) (vertex : Vertex Tree) (resolved : List Destination) :
    List Instruction :=
  match vertex, resolved with
  | .jump _ _, [d] => if d.existed then [.jump (blockLabel function d.block)] else []
  | .conditional _ _ _, [onFalse, onTrue] =>
    if onFalse.existed && onTrue.existed then
      [.branch (blockLabel function onTrue.block) true,
        .jump (blockLabel function onFalse.block)]
    else if onFalse.existed then
      [.branch (blockLabel function onFalse.block) false]
    else
      [.branch (blockLabel function onTrue.block) true]
  | _, _ => []

/-- Each destination has the block that was noted for it, in the given order of
vertices. -/
def Resolved (order destinations : List Nat) (resolved : List Destination) : Prop :=
  List.Forall₂ (fun v d => order[d.block]? = some v) destinations resolved

/-- The first destination that had no block before. -/
def firstNew? (resolved : List Destination) : Option Destination :=
  resolved.find? fun d => !d.existed

/-- The code of a block is the work of its vertex, followed by the jumps to the
blocks of the destinations. The first destination that had no block before comes
next. -/
structure Implements (work : Vertex Tree → List Instruction) (function : String) (order : List Nat)
    (number : Nat) (vertex : Vertex Tree) (b : Block) (resolved : List Destination) :
    Prop where
  instructions : b.instructions =
    .label (blockLabel function number) :: work vertex ++ jumps function vertex resolved
  successors : ∀ k, k ∈ b.successors ↔ ∃ d ∈ resolved, d.block = k
  destinations : Resolved order vertex.destinations resolved
  next : ∀ d, firstNew? resolved = some d → d.block = number + 1

/-- A block as the walk leaves it, whatever the selection: it opens and closes like its
vertex, and if all destinations had their blocks before, then no block lies further on. -/
structure Written (selection : Selection Tree) (function : String) (order : List Nat)
    (number : Nat) (vertex : Vertex Tree) (b : Block) (resolved : List Destination) :
    Prop where
  instructions : b.instructions = opening selection (blockLabel function number) vertex ++
    closing selection function vertex resolved
  successors : ∀ k, k ∈ b.successors ↔ ∃ d ∈ resolved, d.block = k
  destinations : Resolved order vertex.destinations resolved
  next : ∀ d, firstNew? resolved = some d → d.block = number + 1
  back : firstNew? resolved = none → ∀ d ∈ resolved, d.block ≤ number

/-- The blocks are the layout of the vertices in the given order, with the given
work for each vertex. -/
structure LaidOut (work : Vertex Tree → List Instruction) (graph : FlowGraph Tree)
    (order : List Nat) (f : Fragment) : Prop where
  nodup : order.Nodup
  length : order.length = f.blocks.length
  initial : order[0]? = some graph.initial
  labels : ∀ k b, f.blocks[k]? = some b → b.label = blockLabel graph.name k
  implements : ∀ k v, order[k]? = some v → ∃ vertex b resolved,
    graph.vertices.get? v = some vertex ∧ f.blocks[k]? = some b ∧
      Implements work graph.name order k vertex b resolved

theorem LaidOut.exists_vertex {work : Vertex Tree → List Instruction} {graph : FlowGraph Tree}
    {order : List Nat} {f : Fragment} (h : LaidOut work graph order f) {k : Nat} {b : Block}
    (hb : f.blocks[k]? = some b) : ∃ v, order[k]? = some v := by
  have hlt : k < order.length := h.length ▸ (List.getElem?_eq_some_iff.mp hb).1
  exact ⟨_, List.getElem?_eq_getElem hlt⟩

theorem Resolved.exists_block {order destinations : List Nat} {resolved : List Destination}
    (h : Resolved order destinations resolved) {v : Nat} (hv : v ∈ destinations) :
    ∃ d ∈ resolved, order[d.block]? = some v := by
  induction h with
  | nil => simp at hv
  | cons hd _ ih =>
      rcases List.mem_cons.mp hv with rfl | hv
      · exact ⟨_, List.mem_cons_self, hd⟩
      · obtain ⟨d, hmem, hd⟩ := ih hv
        exact ⟨d, List.mem_cons_of_mem _ hmem, hd⟩

theorem Resolved.exists_vertex {order destinations : List Nat} {resolved : List Destination}
    (h : Resolved order destinations resolved) {d : Destination} (hd : d ∈ resolved) :
    ∃ v ∈ destinations, order[d.block]? = some v := by
  induction h with
  | nil => simp at hd
  | cons hv _ ih =>
      rcases List.mem_cons.mp hd with rfl | hd
      · exact ⟨_, List.mem_cons_self, hv⟩
      · obtain ⟨v, hmem, hv⟩ := ih hd
        exact ⟨v, List.mem_cons_of_mem _ hmem, hv⟩

section Implements

variable {work : Vertex Tree → List Instruction} {function : String} {order : List Nat}
  {number : Nat} {vertex : Vertex Tree} {b : Block} {resolved : List Destination}

/-- The block of a destination is a successor. -/
theorem Implements.exists_successor
    (h : Implements work function order number vertex b resolved) {v : Nat}
    (hv : v ∈ vertex.destinations) : ∃ k, k ∈ b.successors ∧ order[k]? = some v := by
  obtain ⟨d, hd, hblock⟩ := h.destinations.exists_block hv
  exact ⟨d.block, (h.successors d.block).mpr ⟨d, hd, rfl⟩, hblock⟩

/-- A successor is the block of a destination. -/
theorem Implements.exists_destination
    (h : Implements work function order number vertex b resolved) {k : Nat}
    (hk : k ∈ b.successors) : ∃ v ∈ vertex.destinations, order[k]? = some v := by
  obtain ⟨d, hd, rfl⟩ := (h.successors k).mp hk
  exact h.destinations.exists_vertex hd

end Implements

theorem not_isStraight_of_mem_jumps {function : String} {vertex : Vertex Tree}
    {resolved : List Destination} {i : Instruction} (hi : i ∈ jumps function vertex resolved) :
    i.isStraight = false := by
  unfold jumps at hi
  split at hi
  · split_ifs at hi
    all_goals simp_all [Instruction.isStraight]
  · split_ifs at hi
    · rcases List.mem_cons.mp hi with rfl | hi
      · rfl
      · rw [List.mem_singleton.mp hi]
        rfl
    all_goals
      rw [List.mem_singleton.mp hi]
      rfl
  · simp at hi

theorem opening_append_closing {selection : Selection Tree}
    {condition : Tree → List Instruction} (hlawful : selection.Lawful condition)
    {function : String} {number : Nat} {vertex : Vertex Tree} {order : List Nat}
    {resolved : List Destination} (hresolved : Resolved order vertex.destinations resolved) :
    opening selection (blockLabel function number) vertex ++
        closing selection function vertex resolved =
      .label (blockLabel function number) :: selection.work condition vertex ++
        jumps function vertex resolved := by
  cases vertex with
  | final tree =>
      cases hresolved
      simp [opening, closing, jumps, Selection.work]
  | jump tree target =>
      obtain ⟨d, rfl⟩ : ∃ d, resolved = [d] := by
        cases hresolved with
        | cons _ hrest => cases hrest; exact ⟨_, rfl⟩
      simp [opening, closing, jumps, Selection.work]
  | conditional tree onTrue onFalse =>
      obtain ⟨d, e, rfl⟩ : ∃ d e, resolved = [d, e] := by
        cases hresolved with
        | cons _ hrest =>
            cases hrest with
            | cons _ hrest => cases hrest; exact ⟨_, _, rfl⟩
      cases hd : d.existed <;> cases he : e.existed <;>
        simp [opening, closing, jumps, Selection.work, hlawful.coverBranch_eq, hd, he]

theorem Written.implements {selection : Selection Tree}
    {condition : Tree → List Instruction} (hlawful : selection.Lawful condition)
    {function : String} {order : List Nat} {number : Nat} {vertex : Vertex Tree} {b : Block}
    {resolved : List Destination} (h : Written selection function order number vertex b resolved) :
    Implements (selection.work condition) function order number vertex b resolved :=
  { h with instructions := h.instructions.trans (opening_append_closing hlawful h.destinations) }

end Layout

end Lowering
