import Lowering.Proofs.LayoutWalk
import Lowering.Proofs.RenamedCode

/-!
# Laying out a graph with renamed registers

The walk over a control flow graph follows the numbers of the vertices and never looks at
registers. Two graphs whose trees of work differ in the names of registers are walked in
step, and if the selection treats the trees alike, the code is the same up to names.
-/

namespace Lowering

universe u

variable {Tree : Type u} {R : Register → Register → Prop} {T : Tree → Tree → Prop}

/-- A selection treats trees that `T` relates alike: what it selects for them is the same
code up to the names of registers, and so is the code for moves to and from the stack. -/
structure Selection.Respects (selection : Selection Tree) (R : Register → Register → Prop)
    (T : Tree → Tree → Prop) : Prop where
  cover : ∀ t u, T t u →
    List.Forall₂ (Instruction.Renamed R) (selection.cover t) (selection.cover u)
  coverBranch : ∀ t u, T t u → ∀ label jumpIf, List.Forall₂ (Instruction.Renamed R)
    (selection.coverBranch t label jumpIf) (selection.coverBranch u label jumpIf)
  coverTransfer : ∀ t u, t.Renamed R u →
    List.Forall₂ (Instruction.Renamed R) (selection.coverTransfer t) (selection.coverTransfer u)

/-- Two vertices have the same destinations and related trees of work. -/
inductive Vertex.Renamed (T : Tree → Tree → Prop) : Vertex Tree → Vertex Tree → Prop
  | final {t u : Tree} : T t u → Renamed T (.final t) (.final u)
  | jump {t u : Tree} (target : Nat) : T t u → Renamed T (.jump t target) (.jump u target)
  | conditional {t u : Tree} (onTrue onFalse : Nat) : T t u →
      Renamed T (.conditional t onTrue onFalse) (.conditional u onTrue onFalse)

theorem Vertex.Renamed.destinations_eq {v w : Vertex Tree} (h : v.Renamed T w) :
    v.destinations = w.destinations := by
  cases h <;> rfl

/-- Two graphs have the same vertices and edges, and related trees of work. -/
structure FlowGraph.Renamed (T : Tree → Tree → Prop) (g h : FlowGraph Tree) : Prop where
  name : g.name = h.name
  initial : g.initial = h.initial
  vertices : g.vertices.Renamed (· = ·) (Vertex.Renamed T) h.vertices

theorem FlowGraph.Renamed.get? {g h : FlowGraph Tree} (hg : g.Renamed T h) (number : Nat) :
    Option.Rel (Vertex.Renamed T) (g.vertices.get? number) (h.vertices.get? number) :=
  hg.vertices.get? ⟨fun _ _ _ h h' => h.trans h'.symm, fun _ _ _ h h' => h.symm.trans h'⟩ rfl

namespace Fragment.Renamed

variable {f g : Fragment}

protected theorem modifyBlock (h : f.Renamed R g) (block : Nat) {change change' : Block → Block}
    (hchange : ∀ b c, b.Renamed R c → (change b).Renamed R (change' c)) :
    (f.modifyBlock block change).Renamed R (g.modifyBlock block change') :=
  ⟨h.name, modify_renamed h.blocks block hchange⟩

protected theorem addEdge (h : f.Renamed R g) (source target : Nat) :
    (f.addEdge source target).Renamed R (g.addEdge source target) := by
  refine (h.modifyBlock source fun b c hbc => ?_).modifyBlock target fun b c hbc => ?_
  · exact { hbc with successors := congrArg (·.insert target) hbc.successors }
  · exact { hbc with predecessors := congrArg (·.insert source) hbc.predecessors }

end Fragment.Renamed

namespace Layout

/-- Two unfinished vertices are at the same stage. -/
structure PendingRenamed (T : Tree → Tree → Prop) (p q : Pending Tree) : Prop where
  block : p.block = q.block
  vertex : p.vertex.Renamed T q.vertex
  resolved : p.resolved = q.resolved
  remaining : p.remaining = q.remaining

/-- Two walks have come equally far, with the same code up to the names of registers. -/
structure Renamed (R : Register → Register → Prop) (T : Tree → Tree → Prop)
    (w w' : Layout Tree) : Prop where
  visited : w.visited = w'.visited
  code : w.code.Renamed R w'.code
  pending : List.Forall₂ (PendingRenamed T) w.pending w'.pending

theorem resolve_renamed (d : Destination) {l m : List (Pending Tree)}
    (h : List.Forall₂ (PendingRenamed T) l m) :
    List.Forall₂ (PendingRenamed T) (resolve d l) (resolve d m) := by
  cases h with
  | nil => exact .nil
  | cons hp hrest => exact .cons { hp with resolved := congrArg (· ++ [d]) hp.resolved } hrest

variable {selection : Selection Tree} {graph graph' : FlowGraph Tree}
  (hselection : selection.Respects R T)
include hselection

theorem opening_renamed (label : Label) {v w : Vertex Tree} (h : v.Renamed T w) :
    List.Forall₂ (Instruction.Renamed R) (opening selection label v)
      (opening selection label w) := by
  cases h with
  | final h => exact .cons (.label label) (hselection.cover _ _ h)
  | jump target h => exact .cons (.label label) (hselection.cover _ _ h)
  | conditional onTrue onFalse h => exact .cons (.label label) .nil

theorem closing_renamed (function : String) {v w : Vertex Tree} (h : v.Renamed T w)
    (resolved : List Destination) :
    List.Forall₂ (Instruction.Renamed R) (closing selection function v resolved)
      (closing selection function w resolved) := by
  cases h with
  | final h => exact .nil
  | jump target h =>
      match resolved with
      | [d] => exact ite_renamed Iff.rfl (.cons (.jump _) .nil) .nil
      | [] | _ :: _ :: _ => exact .nil
  | conditional onTrue onFalse h =>
      have hbranch := hselection.coverBranch _ _ h
      match resolved with
      | [d, e] =>
          refine ite_renamed Iff.rfl (List.rel_append (hbranch _ _) (.cons (.jump _) .nil)) ?_
          exact ite_renamed Iff.rfl (hbranch _ _) (hbranch _ _)
      | [] | [_] | _ :: _ :: _ :: _ => exact .nil

variable (hgraph : graph.Renamed T graph')
include hgraph

theorem finish_renamed {f g : Fragment} (hf : f.Renamed R g) {p q : Pending Tree}
    (hp : PendingRenamed T p q) :
    (finish selection graph f p).Renamed R (finish selection graph' g q) := by
  unfold finish
  rw [hgraph.name, hp.block, hp.resolved]
  refine List.rel_foldl (P := Fragment.Renamed R) (R := (· = ·)) (fun _ _ hf d _ hd => ?_) ?_
    (List.forall₂_refl _)
  · rw [← hd]
    exact hf.addEdge q.block d.block
  · refine hf.modifyBlock q.block fun b c hbc => ?_
    have hclosing := closing_renamed hselection graph'.name hp.vertex q.resolved
    exact { hbc with instructions := List.rel_append hbc.instructions hclosing }

theorem enter_renamed {w w' : Layout Tree} (hw : w.Renamed R T w') (number : Nat) :
    SameOutcome SameKind (Renamed R T) (enter selection graph w number)
      (enter selection graph' w' number) := by
  unfold enter
  rcases cases_of_optionRel (hgraph.get? number) with ⟨h1, h2⟩ | ⟨v, v', h1, h2, hv⟩
  · rw [h1, h2]
    exact .error rfl
  · rw [h1, h2, hgraph.name, hw.code.blocks.length_eq]
    refine .ok ⟨congrArg (·.insert number) hw.visited, ⟨hw.code.name, ?_⟩, ?_⟩
    · refine List.rel_append hw.code.blocks (.cons ⟨rfl, ?_, rfl, rfl⟩ .nil)
      exact opening_renamed hselection _ hv
    · exact .cons ⟨rfl, hv, rfl, hv.destinations_eq⟩ hw.pending

/-- The two walks take the same step. -/
theorem step_renamed {w w' : Layout Tree} (hw : w.Renamed R T w') :
    SameOutcome SameKind (Renamed R T) (step selection graph w) (step selection graph' w') := by
  obtain ⟨visited, code, pending⟩ := w
  obtain ⟨visited', code', pending'⟩ := w'
  obtain ⟨rfl, hcode, hpending⟩ := hw
  cases hpending with
  | nil => exact .ok ⟨rfl, hcode, .nil⟩
  | @cons p q rest rest' hp hrest =>
      obtain ⟨block, vertex, resolved, remaining⟩ := p
      obtain ⟨_, vertex', _, _⟩ := q
      obtain ⟨rfl, hvertex, rfl, rfl⟩ := hp
      cases remaining with
      | nil =>
          exact .ok ⟨rfl, finish_renamed hselection hgraph hcode ⟨rfl, hvertex, rfl, rfl⟩,
            resolve_renamed _ hrest⟩
      | cons d remaining =>
          have hnext : List.Forall₂ (PendingRenamed T)
              (⟨block, vertex, resolved, remaining⟩ :: rest)
              (⟨block, vertex', resolved, remaining⟩ :: rest') :=
            .cons ⟨rfl, hvertex, rfl, rfl⟩ hrest
          cases hblock : visited.toList.idxOf? d with
          | none =>
              simp only [step, block?, hblock]
              refine enter_renamed hselection hgraph ?_ d
              exact ⟨rfl, hcode, hnext⟩
          | some k =>
              simp only [step, block?, hblock]
              exact .ok ⟨rfl, hcode, resolve_renamed _ hnext⟩

/-- The stacks are equally high, so both walks end together. -/
theorem run_renamed {w w' : Layout Tree} (hw : w.Renamed R T w') :
    SameOutcome SameKind (Fragment.Renamed R) (w.run selection graph)
      (w'.run selection graph') := by
  have hlength := hw.pending.length_eq
  by_cases hpending : w.pending = []
  · have hpending' : w'.pending = [] := by
      rw [← List.length_eq_zero_iff, ← hlength, hpending, List.length_nil]
    rw [run, dif_pos hpending, run, dif_pos hpending']
    exact .ok hw.code
  have hpending' : w'.pending ≠ [] := by
    rwa [ne_eq, ← List.length_eq_zero_iff, ← hlength, List.length_eq_zero_iff]
  rcases (step_renamed hselection hgraph hw).cases with
    ⟨_, _, h1, h2, he⟩ | ⟨v, v', h1, h2, hv⟩
  · rw [run_of_error hpending h1, run_of_error hpending' h2]
    exact .error he
  · rw [run_of_ok hpending h1, run_of_ok hpending' h2]
    exact run_renamed hv
termination_by w.work graph
decreasing_by exact work_step_lt hpending h1

end Layout

/-- The code of a renamed graph is the code of the graph, renamed. -/
theorem FlowGraph.Renamed.layOut {graph graph' : FlowGraph Tree} (h : graph.Renamed T graph')
    {selection : Selection Tree} (hselection : selection.Respects R T) :
    SameOutcome SameKind (Fragment.Renamed R) (graph.layOut selection)
      (graph'.layOut selection) := by
  have hstart : (Layout.start graph).Renamed R T (Layout.start graph') :=
    ⟨rfl, ⟨h.name, .nil⟩, .nil⟩
  have henter := Layout.enter_renamed hselection h hstart graph.initial
  unfold FlowGraph.layOut
  rw [h.initial] at henter ⊢
  rcases henter.cases with ⟨_, _, h1, h2, he⟩ | ⟨w, w', h1, h2, hw⟩
  · rw [h1, h2]
    exact .error he
  · rw [h1, h2]
    exact Layout.run_renamed hselection h hw

end Lowering
