import Lowering.Error
import Lowering.FlowGraph
import Lowering.Fragment

/-!
# Laying out a control flow graph

The vertices of a graph become blocks in depth-first order, so that wherever
possible a block is followed by a destination of its vertex and control falls
through. A jump is written only to a block that was there before.

The walk keeps the vertices whose destinations are still being laid out on a
stack of its own. Its state is a `Layout`; `Layout.step` handles one destination
or finishes one vertex, and every step makes the work that is left smaller.
-/

namespace Lowering

universe u

variable {Tree : Type u}

/-- The block of a destination, and whether it was there before the destination was looked
at. -/
structure Destination where
  block : Nat
  existed : Bool
deriving DecidableEq, Inhabited, Repr

/-- A vertex that has its block while its destinations are being laid out: those that have
their blocks, in order, and those still to be looked at. -/
structure Pending (Tree : Type u) where
  block : Nat
  vertex : Vertex Tree
  resolved : List Destination
  remaining : List Nat

/-- The state of the walk over a graph. The block of a vertex is its place among the visited
ones. The vertices that are not finished are pending, the innermost first. -/
structure Layout (Tree : Type u) where
  visited : InsertionSet Nat
  code : Fragment
  pending : List (Pending Tree)

namespace Layout

def blockLabel (function : String) (block : Nat) : Label :=
  ⟨s!"{function}.bb{block}"⟩

/-- The instructions with which the block of a vertex starts. The work of a
conditional vertex waits until its destinations have their blocks. -/
def opening (selection : Selection Tree) (label : Label) (vertex : Vertex Tree) :
    List Instruction :=
  match vertex with
  | .final tree => .label label :: selection.cover tree
  | .jump tree _ => .label label :: selection.cover tree
  | .conditional _ _ _ => [.label label]

def block? (w : Layout Tree) (vertex : Nat) : Option Nat :=
  w.visited.toList.idxOf? vertex

/-- Gives a vertex its block and puts it on the stack. -/
def enter
    (selection : Selection Tree) (graph : FlowGraph Tree) (w : Layout Tree) (number : Nat) :
    Except Error (Layout Tree) :=
  match graph.vertices.get? number with
  | none => .error (.invalidInput (.missingVertex graph.name number))
  | some vertex =>
    let block := w.code.blocks.length
    let label := blockLabel graph.name block
    .ok {
      visited := w.visited.insert number
      code := { w.code with
        blocks := w.code.blocks ++ [.unlinked label (opening selection label vertex)] }
      pending := ⟨block, vertex, [], vertex.destinations⟩ :: w.pending }

/-- The instructions with which the block of a vertex ends. A jump is written
only where control cannot fall through to a block laid out afterwards. -/
def closing
    (selection : Selection Tree) (function : String) (vertex : Vertex Tree)
    (resolved : List Destination) : List Instruction :=
  match vertex, resolved with
  | .jump _ _, [d] =>
    if d.existed then [.jump (blockLabel function d.block)] else []
  | .conditional tree _ _, [onFalse, onTrue] =>
    let trueLabel := blockLabel function onTrue.block
    let falseLabel := blockLabel function onFalse.block
    if onFalse.existed && onTrue.existed then
      selection.coverBranch tree trueLabel true ++ [.jump falseLabel]
    else if onFalse.existed then
      selection.coverBranch tree falseLabel false
    else
      selection.coverBranch tree trueLabel true
  | _, _ => []

/-- Writes the end of the block of a vertex, and its edges, last destination
first. -/
def finish
    (selection : Selection Tree) (graph : FlowGraph Tree) (code : Fragment) (p : Pending Tree) :
    Fragment :=
  let closed := code.modifyBlock p.block fun b =>
    b.append (closing selection graph.name p.vertex p.resolved)
  p.resolved.reverse.foldl (fun f d => f.addEdge p.block d.block) closed

/-- Notes the block of the destination that was looked at last. -/
def resolve (d : Destination) : List (Pending Tree) → List (Pending Tree)
  | [] => []
  | p :: rest => { p with resolved := p.resolved ++ [d] } :: rest

/-- Looks at the next destination of the innermost vertex, or finishes it. -/
def step (selection : Selection Tree) (graph : FlowGraph Tree) (w : Layout Tree) :
    Except Error (Layout Tree) :=
  match w.pending with
  | [] => .ok w
  | p :: rest =>
    match p.remaining with
    | d :: remaining =>
      let pending := { p with remaining } :: rest
      match w.block? d with
      | some block => .ok { w with pending := resolve ⟨block, true⟩ pending }
      | none => enter selection graph { w with pending } d
    | [] =>
      .ok { w with
        code := finish selection graph w.code p
        pending := resolve ⟨p.block, false⟩ rest }

/-- The vertices of the graph that have no block yet. -/
def unvisited (graph : FlowGraph Tree) (w : Layout Tree) : List Nat :=
  graph.vertices.keys.toList.filter fun v => decide (¬ v ∈ w.visited)

/-- The steps that are left for the vertices on the stack. -/
def stackWork : List (Pending Tree) → Nat
  | [] => 0
  | p :: rest => p.remaining.length + 1 + stackWork rest

/-- A bound for the steps that are left. -/
def work (graph : FlowGraph Tree) (w : Layout Tree) : Nat :=
  4 * (w.unvisited graph).length + stackWork w.pending

@[simp]
theorem stackWork_resolve (d : Destination) (pending : List (Pending Tree)) :
    stackWork (resolve d pending) = stackWork pending := by
  cases pending <;> rfl

theorem block?_eq_none {w : Layout Tree} {vertex : Nat} :
    w.block? vertex = none ↔ ¬ vertex ∈ w.visited := by
  simp [block?, InsertionSet.mem_iff]

theorem length_filter_lt_of_mem {l : List Nat} {p q : Nat → Bool} {a : Nat}
    (hle : ∀ x ∈ l, q x = true → p x = true) (ha : a ∈ l) (hp : p a = true)
    (hq : q a = false) : (l.filter q).length < (l.filter p).length := by
  induction l with
  | nil => simp at ha
  | cons b l ih =>
      have hsub : (l.filter q).length ≤ (l.filter p).length := by
        rw [← List.countP_eq_length_filter, ← List.countP_eq_length_filter]
        exact List.countP_mono_left fun x hx => hle x (List.mem_cons_of_mem _ hx)
      rcases List.mem_cons.mp ha with rfl | ha
      · simp [hp, hq]
        omega
      · have hlt := ih (fun x hx => hle x (List.mem_cons_of_mem _ hx)) ha
        by_cases hqb : q b = true
        · simp [hqb, hle b List.mem_cons_self hqb, hlt]
        · by_cases hpb : p b = true <;> simp [hqb, hpb] <;> omega

theorem work_enter_lt
    {selection : Selection Tree} {graph : FlowGraph Tree} {w w' : Layout Tree} {number : Nat}
    (hnew : w.block? number = none) (h : enter selection graph w number = .ok w') :
    w'.work graph + 1 ≤ w.work graph := by
  unfold enter at h
  split at h
  · simp at h
  · rename_i vertex hvertex
    obtain rfl := Except.ok.inj h
    have hkey : number ∈ graph.vertices.keys.toList :=
      InsertionMap.isSome_get?.mp (by simp [hvertex])
    have hnot := block?_eq_none.mp hnew
    have hlt : (unvisited graph { w with visited := w.visited.insert number }).length <
        (w.unvisited graph).length := by
      refine length_filter_lt_of_mem ?_ hkey ?_ ?_
      · intro x _ hx
        simp at hx ⊢
        exact hx.1
      · simpa using hnot
      · simp
    have hdest := vertex.length_destinations_le
    simp only [work, unvisited, stackWork] at hlt ⊢
    omega

theorem work_step_lt
    {selection : Selection Tree} {graph : FlowGraph Tree} {w w' : Layout Tree}
    (hpending : w.pending ≠ []) (h : step selection graph w = .ok w') :
    w'.work graph < w.work graph := by
  unfold step at h
  split at h
  · exact absurd ‹w.pending = []› hpending
  · rename_i p rest hp
    split at h
    · rename_i d remaining hr
      simp only at h
      split at h
      · obtain rfl := Except.ok.inj h
        simp only [work, unvisited, stackWork_resolve, hp]
        simp [stackWork, hr]
      · have hlt := work_enter_lt (by simpa [block?] using ‹w.block? d = none›) h
        have hw : Layout.work graph { w with pending := { p with remaining } :: rest } <
            w.work graph := by
          simp [work, unvisited, hp, hr, stackWork]
        omega
    · obtain rfl := Except.ok.inj h
      simp only [work, unvisited, stackWork_resolve, hp]
      simp [stackWork]

/-- Takes steps until every vertex on the stack is finished. -/
def run (selection : Selection Tree) (graph : FlowGraph Tree) (w : Layout Tree) :
    Except Error Fragment :=
  if _hpending : w.pending = [] then
    .ok w.code
  else
    match _hstep : step selection graph w with
    | .error e => .error e
    | .ok w' => run selection graph w'
termination_by w.work graph
decreasing_by exact work_step_lt _hpending _hstep

/-- The walk before the first vertex. -/
def start (graph : FlowGraph Tree) : Layout Tree where
  visited := ∅
  code := ⟨graph.name, []⟩
  pending := []

end Layout

/-- The code of a graph, laid out in depth-first order from the initial vertex. -/
def FlowGraph.layOut (graph : FlowGraph Tree) (selection : Selection Tree) :
    Except Error Fragment :=
  match Layout.enter selection graph (Layout.start graph) graph.initial with
  | .error e => .error e
  | .ok w => w.run selection graph

end Lowering
