import Lowering.Proofs.LayoutWalk

/-!
# Laying out by recursion

The layout of a graph as a recursive function: a vertex gets its block and is marked,
then each destination that has no block yet is laid out in turn, and in the end the
jumps and edges of the vertex are written. The stack of the walk holds what the calls of
this function still have to do. So from any stack, running the walk on a new vertex does
what laying it out by recursion and then running the walk on the rest does.
-/

namespace Lowering

universe u

/-- What has been laid out of a graph. The block of a vertex is its place among the visited
ones. -/
structure Outline where
  visited : InsertionSet Nat
  code : Fragment

/-- A vertex that has its block by now, and what has been laid out since. No vertex lost its
block. -/
structure Reached (o : Outline) where
  outline : Outline
  destination : Destination
  keeps : ∀ v ∈ o.visited, v ∈ outline.visited

namespace Outline

variable {Tree : Type u} {selection : Selection Tree} {graph : FlowGraph Tree} {o o' : Outline}
  {number : Nat}

def block? (o : Outline) (number : Nat) : Option Nat :=
  o.visited.toList.idxOf? number

/-- Creates the block of a vertex, with its label and some work, and marks the vertex. -/
def create (o : Outline) (function : String) (number : Nat) (work : List Instruction) : Outline :=
  let label := Layout.blockLabel function o.code.blocks.length
  { visited := o.visited.insert number
    code := { o.code with
      blocks := o.code.blocks ++ [.unlinked label (.label label :: work)] } }

/-- Writes the end of a block, and its edges in the given order. -/
def close (o : Outline) (block : Nat) (ending : List Instruction) (targets : List Nat) :
    Outline :=
  { o with
    code := targets.foldl (fun f target => f.addEdge block target)
      (o.code.modifyBlock block fun b => b.append ending) }

/-- The vertices of the graph that have no block yet. -/
def unvisited (graph : FlowGraph Tree) (o : Outline) : List Nat :=
  graph.vertices.keys.toList.filter fun v => decide (¬ v ∈ o.visited)

theorem mem_visited_create {function : String} {work : List Instruction} {v : Nat}
    (hv : v ∈ o.visited) : v ∈ (o.create function number work).visited :=
  InsertionSet.mem_insert.mpr (.inl hv)

/-- After a vertex has got its block, fewer are left, however the walk goes on. -/
theorem length_unvisited_lt {function : String} {work : List Instruction} {vertex : Vertex Tree}
    (hnew : o.block? number = none) (hvertex : graph.vertices.get? number = some vertex)
    (hkeeps : ∀ v ∈ (o.create function number work).visited, v ∈ o'.visited) :
    (o'.unvisited graph).length < (o.unvisited graph).length := by
  have hkey : number ∈ graph.vertices.keys.toList :=
    InsertionMap.isSome_get?.mp (by simp [hvertex])
  have hnot : ¬ number ∈ o.visited := by simpa [block?, InsertionSet.mem_iff] using hnew
  have hmarked : number ∈ o'.visited := hkeeps number (InsertionSet.mem_insert.mpr (.inr rfl))
  refine Layout.length_filter_lt_of_mem (fun v _ hv => ?_) hkey ?_ ?_
  · simp only [decide_eq_true_eq] at hv ⊢
    exact fun hold => hv (hkeeps v (mem_visited_create hold))
  · simpa using hnot
  · simpa using hmarked

/-- The end of a block from which control goes on to one destination. -/
def jumpTo (function : String) (d : Destination) : List Instruction :=
  if d.existed then [.jump (Layout.blockLabel function d.block)] else []

/-- The end of a block that ends with a condition. If both destinations had their blocks
before, neither can be fallen through to. -/
def branchTo (selection : Selection Tree) (function : String) (tree : Tree)
    (onTrue onFalse : Destination) : List Instruction :=
  let trueLabel := Layout.blockLabel function onTrue.block
  let falseLabel := Layout.blockLabel function onFalse.block
  match onFalse.existed, onTrue.existed with
  | true, true => selection.coverBranch tree trueLabel true ++ [.jump falseLabel]
  | true, false => selection.coverBranch tree falseLabel false
  | false, _ => selection.coverBranch tree trueLabel true

/-- Finds the block of a vertex. A vertex that has none gets one, and all that it leads to
is laid out, for a condition first what follows if it is false. Then the end of its block
is written. -/
def reach (selection : Selection Tree) (graph : FlowGraph Tree) (o : Outline) (number : Nat) :
    Except Error (Reached o) :=
  match _hnew : o.block? number with
  | some block => .ok ⟨o, ⟨block, true⟩, fun _ hv => hv⟩
  | none =>
    let block := o.code.blocks.length
    match _hvertex : graph.vertices.get? number with
    | none => .error (.invalidInput (.missingVertex graph.name number))
    | some (.final tree) =>
      .ok ⟨o.create graph.name number (selection.cover tree), ⟨block, false⟩,
        fun _ hv => mem_visited_create hv⟩
    | some (.jump tree target) => do
      let next ← reach selection graph (o.create graph.name number (selection.cover tree)) target
      return ⟨next.outline.close block (jumpTo graph.name next.destination)
          [next.destination.block],
        ⟨block, false⟩, fun v hv => next.keeps v (mem_visited_create hv)⟩
    | some (.conditional tree onTrue onFalse) => do
      let onFalse ← reach selection graph (o.create graph.name number []) onFalse
      let onTrue ← reach selection graph onFalse.outline onTrue
      return ⟨onTrue.outline.close block
          (branchTo selection graph.name tree onTrue.destination onFalse.destination)
          [onTrue.destination.block, onFalse.destination.block],
        ⟨block, false⟩, fun v hv => onTrue.keeps v (onFalse.keeps v (mem_visited_create hv))⟩
termination_by (o.unvisited graph).length
decreasing_by
  · exact length_unvisited_lt _hnew _hvertex fun _ hv => hv
  · exact length_unvisited_lt _hnew _hvertex fun _ hv => hv
  · exact length_unvisited_lt _hnew _hvertex onFalse.keeps

theorem reach_of_block {block : Nat} (h : o.block? number = some block) :
    o.reach selection graph number = .ok ⟨o, ⟨block, true⟩, fun _ hv => hv⟩ := by
  rw [reach]
  split
  · next k hk => rw [Option.some.inj (hk.symm.trans h)]
  · next hnew => exact absurd (hnew.symm.trans h) (by simp)

/-! ## The walk and the recursion -/

/-- The walk on a stack, with what has been laid out. -/
def resume (o : Outline) (stack : List (Pending Tree)) : Layout Tree :=
  ⟨o.visited, o.code, stack⟩

/-- Runs the walk on from a step that did not fail. -/
def runOn (selection : Selection Tree) (graph : FlowGraph Tree) :
    Except Error (Layout Tree) → Except Error Fragment
  | .error e => .error e
  | .ok w => w.run selection graph

/-- To enter a new vertex and run the walk is to lay the vertex out by recursion and to run
the walk on the vertices that wait for it, whichever they are. -/
def RunsAsReached (selection : Selection Tree) (graph : FlowGraph Tree) (o : Outline)
    (number : Nat) : Prop :=
  o.block? number = none → ∀ stack : List (Pending Tree),
    runOn selection graph (Layout.enter selection graph (o.resume stack) number) =
      (o.reach selection graph number >>= fun r =>
        (r.outline.resume (Layout.resolve r.destination stack)).run selection graph)

theorem run_eq_runOn_step {w : Layout Tree} (hpending : w.pending ≠ []) :
    w.run selection graph = runOn selection graph (Layout.step selection graph w) := by
  cases hstep : Layout.step selection graph w with
  | error e => exact Layout.run_of_error hpending hstep
  | ok w' => exact Layout.run_of_ok hpending hstep

theorem enter_resume {vertex : Vertex Tree} {work : List Instruction}
    (hvertex : graph.vertices.get? number = some vertex)
    (hopening : ∀ label, Layout.opening selection label vertex = .label label :: work)
    (stack : List (Pending Tree)) :
    Layout.enter selection graph (o.resume stack) number =
      .ok ((o.create graph.name number work).resume
        (⟨o.code.blocks.length, vertex, [], vertex.destinations⟩ :: stack)) := by
  rw [Layout.enter_of_vertex selection _ hvertex, hopening]
  rfl

variable {block d : Nat} {vertex : Vertex Tree} {resolved : List Destination}
  {remaining : List Nat} {rest : List (Pending Tree)}

/-- The walk looks at a destination as the recursion does. -/
theorem RunsAsReached.run_cons (h : o.RunsAsReached selection graph d) :
    (o.resume (⟨block, vertex, resolved, d :: remaining⟩ :: rest)).run selection graph =
      (o.reach selection graph d >>= fun r =>
        (r.outline.resume (⟨block, vertex, resolved ++ [r.destination], remaining⟩ :: rest)).run
          selection graph) := by
  rw [run_eq_runOn_step (List.cons_ne_nil _ _)]
  cases hd : o.block? d with
  | none =>
      have hstep : Layout.step selection graph
          (o.resume (⟨block, vertex, resolved, d :: remaining⟩ :: rest)) =
          Layout.enter selection graph
            (o.resume (⟨block, vertex, resolved, remaining⟩ :: rest)) d := by
        have hblock : (o.resume (⟨block, vertex, resolved, d :: remaining⟩ :: rest)).block? d =
            none := hd
        simp only [Layout.step, resume] at hblock ⊢
        rw [hblock]
      rw [hstep]
      exact h hd _
  | some k =>
      have hstep : Layout.step selection graph
          (o.resume (⟨block, vertex, resolved, d :: remaining⟩ :: rest)) =
          .ok (o.resume (⟨block, vertex, resolved ++ [⟨k, true⟩], remaining⟩ :: rest)) := by
        have hblock : (o.resume (⟨block, vertex, resolved, d :: remaining⟩ :: rest)).block? d =
            some k := hd
        simp only [Layout.step, resume] at hblock ⊢
        rw [hblock]
        rfl
      rw [hstep, reach_of_block hd]
      rfl

theorem run_finish {targets : List Nat} {ending : List Instruction}
    (hclosing : Layout.closing selection graph.name vertex resolved = ending)
    (htargets : resolved.reverse.map Destination.block = targets) :
    (o.resume (⟨block, vertex, resolved, []⟩ :: rest)).run selection graph =
      ((o.close block ending targets).resume (Layout.resolve ⟨block, false⟩ rest)).run
        selection graph := by
  subst hclosing htargets
  rw [run_eq_runOn_step (List.cons_ne_nil _ _)]
  simp only [Layout.step, resume, runOn, Layout.finish, close, List.foldl_map]

/-- To end a block with nothing changes nothing. -/
theorem close_nil (o : Outline) (block : Nat) : o.close block [] [] = o := by
  have hsame : (fun b : Block => b.append []) = id := by
    funext b
    simp [Block.append]
  simp [close, Fragment.modifyBlock, hsame]

theorem closing_conditional (function : String) (tree : Tree) (onTrue onFalse : Nat)
    (forFalse forTrue : Destination) :
    Layout.closing selection function (.conditional tree onTrue onFalse) [forFalse, forTrue] =
      branchTo selection function tree forTrue forFalse := by
  cases hfalse : forFalse.existed <;> cases htrue : forTrue.existed <;>
    simp [Layout.closing, branchTo, hfalse, htrue]

/-- The walk lays out every new vertex as the recursion does. -/
theorem runsAsReached (selection : Selection Tree) (graph : FlowGraph Tree) (o : Outline)
    (number : Nat) : o.RunsAsReached selection graph number := by
  unfold RunsAsReached
  fun_induction reach selection graph o number with
  | case1 o number block hblock =>
      intro hnew
      exact absurd (hnew.symm.trans hblock) (by simp)
  | case2 o number hnew hmissing =>
      intro _ stack
      simp only [Layout.enter, hmissing, runOn]
      rfl
  | case3 o number hnew block tree hvertex =>
      intro _ stack
      rw [enter_resume hvertex fun _ => rfl]
      have hfinish : runOn selection graph (.ok ((o.create graph.name number
            (selection.cover tree)).resume (⟨block, .final tree, [], []⟩ :: stack))) =
          (((o.create graph.name number (selection.cover tree)).close block [] []).resume
            (Layout.resolve ⟨block, false⟩ stack)).run selection graph := run_finish rfl rfl
      rw [close_nil] at hfinish
      exact hfinish
  | case4 o number hnew block tree target hvertex ih =>
      intro _ stack
      rw [enter_resume hvertex fun _ => rfl, bind_assoc]
      refine (RunsAsReached.run_cons ih).trans (bind_congr fun next => ?_)
      exact run_finish rfl rfl
  | case5 o number hnew block tree onTrue onFalse hvertex ihFalse ihTrue =>
      intro _ stack
      rw [enter_resume hvertex fun _ => rfl, bind_assoc]
      refine (RunsAsReached.run_cons ihFalse).trans (bind_congr fun forFalse => ?_)
      rw [bind_assoc]
      refine (RunsAsReached.run_cons (ihTrue forFalse)).trans (bind_congr fun forTrue => ?_)
      exact run_finish (closing_conditional _ _ _ _ _ _) rfl

def start (graph : FlowGraph Tree) : Outline where
  visited := ∅
  code := ⟨graph.name, []⟩

end Outline

/-- The code of a graph, laid out by recursion from the initial vertex. -/
def FlowGraph.layOutByRecursion {Tree : Type u} (graph : FlowGraph Tree)
    (selection : Selection Tree) : Except Error Fragment :=
  match (Outline.start graph).reach selection graph graph.initial with
  | .error e => .error e
  | .ok r => .ok r.outline.code

/-- The walk with a stack of its own lays out every graph exactly as the recursion does:
the same blocks in the same order, with the same instructions and with the same edges in
the same order, or the same error if a vertex is missing. -/
theorem FlowGraph.layOut_eq_layOutByRecursion {Tree : Type u} (graph : FlowGraph Tree)
    (selection : Selection Tree) :
    graph.layOut selection = graph.layOutByRecursion selection := by
  have hnew : (Outline.start graph).block? graph.initial = none := rfl
  calc graph.layOut selection
    _ = Outline.runOn selection graph
          (Layout.enter selection graph ((Outline.start graph).resume []) graph.initial) := rfl
    _ = ((Outline.start graph).reach selection graph graph.initial >>= fun r =>
          (r.outline.resume []).run selection graph) :=
        Outline.runsAsReached selection graph _ _ hnew []
    _ = graph.layOutByRecursion selection := by
        unfold layOutByRecursion
        cases (Outline.start graph).reach selection graph graph.initial with
        | error e => rfl
        | ok r =>
            have hempty : (r.outline.resume ([] : List (Pending Tree))).pending = [] := rfl
            exact (Layout.run.eq_1 ..).trans (dif_pos hempty)

end Lowering
