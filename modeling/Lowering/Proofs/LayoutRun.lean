import Lowering.Proofs.LayoutWalk

/-!
# Laid out code runs like its graph

A graph runs from vertex to vertex, and laid out code from block to block: jumps
go to the block with their label, and at its end a block without successors stops
while any other falls through to the block after it. Whatever the instructions do
and however the conditions turn out, the code visits the blocks of the vertices
that the graph visits.
-/

namespace Lowering

universe u v w

variable {Tree : Type u} {State : Type v}

/-- What runs need to know of a machine: what it does with an instruction, and
how it decides a condition. -/
structure Processor (State : Type v) where
  perform : Instruction → State → State
  decide : State → Bool × State

def Processor.performAll (m : Processor State) (code : List Instruction) (s : State) : State :=
  code.foldl (fun s i => m.perform i s) s

/-- Where a run is: about to enter a vertex or a block, at its end, or nowhere
because control went to a place that does not exist. -/
inductive Stage (State : Type v)
  | running (number : Nat) (state : State)
  | finished (state : State)
  | lost

namespace Stage

/-- Enters a number of vertices or blocks. -/
def iterate (enter : Nat → State → Stage State) : Nat → Stage State → Stage State
  | 0, stage => stage
  | n + 1, running k s => iterate enter n (enter k s)
  | _ + 1, stage => stage

/-- Two runs are in related states on their way, or have both come to an end in
related states. -/
inductive Related {State' : Type w} (on : Nat → State → Nat → State' → Prop)
    (atEnd : State → State' → Prop) : Stage State → Stage State' → Prop
  | running {k v : Nat} {s : State} {t : State'} (h : on k s v t) :
      Related on atEnd (.running k s) (.running v t)
  | finished {s : State} {t : State'} (h : atEnd s t) :
      Related on atEnd (.finished s) (.finished t)

theorem Related.iterate {State' : Type w} {on : Nat → State → Nat → State' → Prop}
    {atEnd : State → State' → Prop} {enter : Nat → State → Stage State}
    {enter' : Nat → State' → Stage State'}
    (hstep : ∀ k s v t, on k s v t → Related on atEnd (enter k s) (enter' v t))
    (n : Nat) {x : Stage State} {y : Stage State'} (h : Related on atEnd x y) :
    Related on atEnd (x.iterate enter n) (y.iterate enter' n) := by
  induction n generalizing x y with
  | zero => exact h
  | succ n ih =>
      cases h with
      | running h => exact ih (hstep _ _ _ _ h)
      | finished h => exact .finished h

/-- Code and graph are at the same place in the same state, when the blocks
belong to the vertices in the given order. -/
def Corresponds (order : List Nat) : Stage State → Stage State → Prop :=
  Related (fun k s v t => order[k]? = some v ∧ s = t) fun s t => s = t

end Stage

/-- Goes on from a vertex when its work is done. -/
def Vertex.leave (vertex : Vertex Tree) (m : Processor State) (s : State) : Stage State :=
  match vertex with
  | .final _ => .finished s
  | .jump _ target => .running target s
  | .conditional _ onTrue onFalse =>
    let outcome := m.decide s
    .running (if outcome.1 then onTrue else onFalse) outcome.2

/-- Does the work of a vertex and goes on to the next one. -/
def FlowGraph.follow (graph : FlowGraph Tree) (m : Processor State)
    (work : Vertex Tree → List Instruction) (v : Nat) (s : State) : Stage State :=
  match graph.vertices.get? v with
  | none => .lost
  | some vertex => vertex.leave m (m.performAll (work vertex) s)

namespace Fragment

def goTo (f : Fragment) (label : Label) (s : State) : Stage State :=
  match f.findBlock? label with
  | some k => .running k s
  | none => .lost

/-- Runs the instructions of a block up to a jump that is taken, or to the end. -/
def runInstructions (f : Fragment) (m : Processor State) (atEnd : State → Stage State) :
    List Instruction → State → Stage State
  | [], s => atEnd s
  | .label _ :: rest, s => f.runInstructions m atEnd rest s
  | .jump label :: _, s => f.goTo label s
  | .branch label jumpIf :: rest, s =>
    let outcome := m.decide s
    if outcome.1 = jumpIf then f.goTo label outcome.2
    else f.runInstructions m atEnd rest outcome.2
  | i :: rest, s => f.runInstructions m atEnd rest (m.perform i s)

def runBlock (f : Fragment) (m : Processor State) (k : Nat) (s : State) : Stage State :=
  match f.blocks[k]? with
  | none => .lost
  | some b =>
    f.runInstructions m
      (fun s => if b.successors.isEmpty then .finished s else .running (k + 1) s)
      b.instructions s

theorem runInstructions_of_straight {f : Fragment} {m : Processor State}
    {atEnd : State → Stage State} {work : List Instruction}
    (hstraight : ∀ i ∈ work, i.isStraight = true) (rest : List Instruction) (s : State) :
    f.runInstructions m atEnd (work ++ rest) s =
      f.runInstructions m atEnd rest (m.performAll work s) := by
  induction work generalizing s with
  | nil => rfl
  | cons i work ih =>
      have hrest := ih (fun j hj => hstraight j (List.mem_cons_of_mem _ hj)) (m.perform i s)
      cases i with
      | operate o => exact hrest
      | fusedCopy c r w => exact hrest
      | _ => exact absurd (hstraight _ List.mem_cons_self) (by simp [Instruction.isStraight])

/-- Machines that do the same with the instructions of the code run it alike. -/
theorem runInstructions_congr {f : Fragment} {m m' : Processor State}
    {atEnd : State → Stage State} {work : List Instruction}
    (hdecide : m.decide = m'.decide) (hperform : ∀ i ∈ work, m.perform i = m'.perform i)
    (s : State) : f.runInstructions m atEnd work s = f.runInstructions m' atEnd work s := by
  induction work generalizing s with
  | nil => rfl
  | cons i work ih =>
      rw [List.forall_mem_cons] at hperform
      have hrest := ih hperform.2
      cases i with
      | operate o => simp only [runInstructions, hperform.1, hrest]
      | fusedCopy c r w => simp only [runInstructions, hperform.1, hrest]
      | label l => exact hrest s
      | jump l => rfl
      | branch l jumpIf => simp only [runInstructions, hdecide, hrest]

theorem runBlock_congr {f : Fragment} {m m' : Processor State} (hdecide : m.decide = m'.decide)
    (hperform : ∀ i ∈ f.instructions, m.perform i = m'.perform i) :
    f.runBlock m = f.runBlock m' := by
  funext k s
  unfold runBlock
  cases hb : f.blocks[k]? with
  | none => rfl
  | some b =>
      refine runInstructions_congr hdecide (fun i hi => hperform i ?_) s
      exact List.mem_flatMap.mpr ⟨b, List.mem_of_getElem? hb, hi⟩

end Fragment

namespace Layout

variable {work : Vertex Tree → List Instruction} {graph : FlowGraph Tree} {order : List Nat}
  {f : Fragment} {m : Processor State}

theorem blockLabel_injective (function : String) {i j : Nat}
    (h : blockLabel function i = blockLabel function j) : i = j := by
  have hrepr : i.repr = j.repr := by simpa [blockLabel] using h
  have hdigits : Nat.toDigits 10 i = Nat.toDigits 10 j := by
    rw [← Nat.toList_repr, ← Nat.toList_repr, hrepr]
  rw [← Nat.ofDigitChars_ten_toDigits (n := i), hdigits, Nat.ofDigitChars_ten_toDigits]

/-- Where blocks are labelled by number, a label leads to its block. -/
theorem findBlock?_blockLabel {function : String}
    (hlabels : ∀ k b, f.blocks[k]? = some b → b.label = blockLabel function k) {k : Nat}
    (hk : k < f.blocks.length) : f.findBlock? (blockLabel function k) = some k := by
  refine List.findIdx?_eq_some_iff_getElem.mpr ⟨hk, ?_, fun j hj => ?_⟩
  · simpa using hlabels k _ (List.getElem?_eq_getElem hk)
  · have hlabel := hlabels j _ (List.getElem?_eq_getElem (Nat.lt_trans hj hk))
    intro hp
    rw [decide_eq_true_eq, hlabel] at hp
    exact Nat.ne_of_lt hj (blockLabel_injective function hp)

theorem LaidOut.findBlock? (h : LaidOut work graph order f) {k v : Nat}
    (hk : order[k]? = some v) : f.findBlock? (blockLabel graph.name k) = some k :=
  findBlock?_blockLabel h.labels (h.length ▸ (List.getElem?_eq_some_iff.mp hk).1)

theorem LaidOut.goTo (h : LaidOut work graph order f) {k v : Nat}
    (hk : order[k]? = some v) (s : State) :
    Stage.Corresponds order (f.goTo (blockLabel graph.name k) s) (.running v s) := by
  rw [Fragment.goTo, h.findBlock? hk]
  exact .running ⟨hk, rfl⟩

/-- The jumps at the end of a block take control to where the vertex goes on. -/
theorem LaidOut.runInstructions_jumps (h : LaidOut work graph order f) {k v : Nat}
    {vertex : Vertex Tree} {b : Block} {resolved : List Destination}
    (hvertex : graph.vertices.get? v = some vertex)
    (himplements : Implements work graph.name order k vertex b resolved) (s : State) :
    Stage.Corresponds order
      (f.runInstructions m
        (fun s => if b.successors.isEmpty then .finished s else .running (k + 1) s)
        (jumps graph.name vertex resolved) (m.performAll (work vertex) s))
      (graph.follow m work v s) := by
  have hresolved := himplements.destinations
  have hnext := himplements.next
  have hmem : ∀ d ∈ resolved, b.successors.isEmpty = false := by
    intro d hd
    have hmem := (himplements.successors d.block).mpr ⟨d, hd, rfl⟩
    exact List.isEmpty_eq_false_iff_exists_mem.mpr ⟨_, hmem⟩
  cases vertex with
  | final tree =>
      cases hresolved
      have hempty : b.successors.isEmpty = true := by
        refine List.isEmpty_iff.mpr (List.eq_nil_iff_forall_not_mem.mpr fun j hj => ?_)
        simpa using (himplements.successors j).mp hj
      simp only [jumps, Fragment.runInstructions, hempty, if_true, FlowGraph.follow, hvertex,
        Vertex.leave]
      exact .finished rfl
  | jump tree target =>
      cases hresolved with
      | @cons _ d _ _ hd hrest =>
          cases hrest
          simp only [FlowGraph.follow, hvertex, Vertex.leave]
          cases hexisted : d.existed with
          | true =>
              simp only [jumps, hexisted, if_true, Fragment.runInstructions]
              exact h.goTo hd _
          | false =>
              have hblock : d.block = k + 1 := hnext d (by simp [firstNew?, hexisted])
              simp only [jumps, hexisted, Bool.false_eq_true, if_false,
                Fragment.runInstructions, hmem d List.mem_cons_self]
              exact .running ⟨hblock ▸ hd, rfl⟩
  | conditional tree onTrue onFalse =>
      cases hresolved with
      | @cons _ d _ _ hd hrest =>
          cases hrest with
          | @cons _ e _ _ he hrest =>
              cases hrest
              simp only [FlowGraph.follow, hvertex, Vertex.leave]
              have hempty := hmem d List.mem_cons_self
              cases hdexisted : d.existed with
              | true =>
                  cases heexisted : e.existed with
                  | true =>
                      simp only [jumps, hdexisted, heexisted, Bool.and_self, if_true,
                        Fragment.runInstructions]
                      split
                      · exact h.goTo he _
                      · exact h.goTo hd _
                  | false =>
                      have hblock : e.block = k + 1 :=
                        hnext e (by simp [firstNew?, hdexisted, heexisted])
                      simp only [jumps, hdexisted, heexisted, Bool.and_false,
                        Bool.false_eq_true, if_false, if_true, Fragment.runInstructions, hempty]
                      cases (m.decide (m.performAll (work (.conditional tree onTrue onFalse)) s)).1 with
                      | true => exact .running ⟨hblock ▸ he, rfl⟩
                      | false => exact h.goTo hd _
              | false =>
                  have hblock : d.block = k + 1 := hnext d (by simp [firstNew?, hdexisted])
                  simp only [jumps, hdexisted, Bool.false_and, Bool.false_eq_true, if_false,
                    Fragment.runInstructions, hempty]
                  split
                  · exact h.goTo he _
                  · exact .running ⟨hblock ▸ hd, rfl⟩

/-- Running the block of a vertex does what the vertex does. -/
theorem LaidOut.runBlock (h : LaidOut work graph order f)
    (hstraight : ∀ vertex, ∀ i ∈ work vertex, i.isStraight = true) (k v : Nat) (s : State)
    (hk : order[k]? = some v) :
    Stage.Corresponds order (f.runBlock m k s) (graph.follow m work v s) := by
  obtain ⟨vertex, b, resolved, hvertex, hb, himplements⟩ := h.implements k v hk
  rw [Fragment.runBlock, hb]
  simp only [himplements.instructions, List.cons_append, Fragment.runInstructions]
  rw [Fragment.runInstructions_of_straight (hstraight vertex)]
  exact h.runInstructions_jumps hvertex himplements s

/-- A run of laid out code visits the blocks of the vertices that a run of the
graph visits, and leads to the same states. -/
theorem LaidOut.iterate (h : LaidOut work graph order f)
    (hstraight : ∀ vertex, ∀ i ∈ work vertex, i.isStraight = true) (m : Processor State)
    (s : State) (n : Nat) :
    Stage.Corresponds order ((Stage.running 0 s).iterate (f.runBlock m) n)
      ((Stage.running graph.initial s).iterate (graph.follow m work) n) :=
  Stage.Related.iterate (fun k s v _ hkv => hkv.2 ▸ h.runBlock hstraight k v s hkv.1) n
    (.running ⟨h.initial, rfl⟩)

end Layout

/-! ## Every sequence of outcomes -/

/-- The outcomes that conditions will have, and the instructions performed. -/
structure Trail where
  outcomes : Nat → Bool
  performed : List Instruction

/-- Takes the outcome of each condition from a sequence, and notes every
instruction. -/
def Trail.recorder : Processor Trail where
  perform i t := { t with performed := t.performed ++ [i] }
  decide t := (t.outcomes 0, { t with outcomes := fun k => t.outcomes (k + 1) })

/-- A graph in which no vertex that can be reached is missing is laid out, each
vertex in one block. For every sequence of outcomes, the code visits the blocks
of the vertices that the graph visits, in the same order, and performs the
instructions that cover their trees and conditions. -/
theorem layOut_visits_as_graph {selection : Selection Tree}
    {condition : Tree → List Instruction} (hlawful : selection.Lawful condition)
    (graph : FlowGraph Tree)
    (hvertices : ∀ v, graph.Reachable v → ∃ vertex, graph.vertices.get? v = some vertex) :
    ∃ f order, graph.layOut selection = .ok f ∧
      order.Nodup ∧ order.length = f.blocks.length ∧
      ∀ (outcomes : Nat → Bool) (n : Nat),
        Stage.Corresponds order
          ((Stage.running 0 ⟨outcomes, []⟩).iterate (f.runBlock Trail.recorder) n)
          ((Stage.running graph.initial ⟨outcomes, []⟩).iterate
            (graph.follow Trail.recorder (selection.work condition)) n) := by
  rcases graph.layOut_cases hlawful with
    ⟨order, f, hok, hlaid, -⟩ | ⟨v, hreachable, hmissing, -⟩
  · exact ⟨f, order, hok, hlaid.nodup, hlaid.length, fun outcomes n =>
      hlaid.iterate hlawful.straight Trail.recorder ⟨outcomes, []⟩ n⟩
  · obtain ⟨vertex, hvertex⟩ := hvertices v hreachable
    exact absurd (hvertex.symm.trans hmissing) (by simp)

/-- Before a branch, the operations of the condition are followed by a test. -/
def Selection.testing : Selection WorkList :=
  { Selection.sequential with
    coverBranch := fun work label jumpIf =>
      work.map .operate ++ [.operate (.compute "test" [] []), .branch label jumpIf] }

/-- The code for a condition with the test at its end. -/
def testedCondition (work : WorkList) : List Instruction :=
  work.map .operate ++ [.operate (.compute "test" [] [])]

theorem Selection.testing_lawful : Selection.testing.Lawful testedCondition where
  straight := by
    intro vertex i hi
    obtain ⟨o, rfl⟩ : ∃ o, i = .operate o := by
      cases vertex <;> simp [Selection.work, testing, sequential, testedCondition] at hi <;> grind
    rfl
  coverBranch_eq := fun work label jumpIf => by simp [testing, testedCondition]

/-- A loop with its condition at the head. -/
def headedLoop : FlowGraph WorkList where
  name := "f"
  initial := 0
  vertices := .ofList [(0, .conditional [.compute "compare" [] []] 1 2),
    (1, .jump [.compute "body" [] []] 0), (2, .final [])]

theorem layOut_headedLoop_visits_as_graph :
    ∃ f order, headedLoop.layOut .testing = .ok f ∧
      order.Nodup ∧ order.length = f.blocks.length ∧
      ∀ (outcomes : Nat → Bool) (n : Nat),
        Stage.Corresponds order
          ((Stage.running 0 ⟨outcomes, []⟩).iterate (f.runBlock Trail.recorder) n)
          ((Stage.running headedLoop.initial ⟨outcomes, []⟩).iterate
            (headedLoop.follow Trail.recorder (Selection.testing.work testedCondition)) n) :=
  layOut_visits_as_graph Selection.testing_lawful headedLoop fun _ hv =>
    hv.exists_vertex (by decide) (by decide)

end Lowering
