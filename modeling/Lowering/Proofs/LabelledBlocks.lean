import Lowering.Proofs.LayoutWalk
import Lowering.Proofs.Machine

/-!
# Blocks begin with a label

Every block that is laid out begins with its label, whatever the selection, and
its copies are pure if those of the selection are.
-/

namespace Lowering

universe u

variable {Tree : Type u}

/-- The copies of a selection read their source, write their target and do nothing
else, and a move to or from the stack is covered by itself. -/
structure Selection.Plain (selection : Selection Tree) : Prop where
  cover : ∀ tree, ∀ i ∈ selection.cover tree, i.CopyIsPure
  coverBranch : ∀ tree label jumpIf, ∀ i ∈ selection.coverBranch tree label jumpIf, i.CopyIsPure
  coverTransfer : ∀ t, selection.coverTransfer t = [.operate (.transfer t)]

theorem Instruction.copyIsPure_of_not_isStraight {i : Instruction} (h : i.isStraight = false) :
    i.CopyIsPure := by
  intro c hc
  simp [(unused_of_not_isStraight h).2.2.1] at hc

theorem Selection.sequential_plain : Selection.sequential.Plain where
  cover := by
    intro work i hi
    obtain ⟨o, -, rfl⟩ := List.mem_map.mp hi
    exact Instruction.copyIsPure_operate o
  coverBranch := by
    intro work label jumpIf i hi
    rcases List.mem_append.mp hi with hi | hi
    · obtain ⟨o, -, rfl⟩ := List.mem_map.mp hi
      exact Instruction.copyIsPure_operate o
    · obtain rfl := List.mem_singleton.mp hi
      exact Instruction.copyIsPure_of_not_isStraight rfl
  coverTransfer := fun _ => rfl

/-- A block begins with a label, and its copies are pure. -/
structure Block.Labelled (b : Block) : Prop where
  label : ∃ l rest, b.instructions = .label l :: rest
  copiesArePure : ∀ i ∈ b.instructions, i.CopyIsPure

def Fragment.Labelled (f : Fragment) : Prop :=
  ∀ b ∈ f.blocks, b.Labelled

theorem Fragment.Labelled.nonempty {f : Fragment} (h : f.Labelled) :
    ∀ b ∈ f.blocks, b.instructions ≠ [] := by
  intro b hb
  obtain ⟨⟨l, rest, hinstructions⟩, -⟩ := h b hb
  rw [hinstructions]
  exact List.cons_ne_nil _ _

theorem Fragment.Labelled.copiesArePure {f : Fragment} (h : f.Labelled) : f.CopiesArePure := by
  intro i hi
  obtain ⟨b, hb, hi⟩ := List.mem_flatMap.mp hi
  exact (h b hb).copiesArePure i hi

namespace Layout

variable {selection : Selection Tree} {graph : FlowGraph Tree} {w : Layout Tree}
  {vertex : Vertex Tree}

theorem labelled_opening (hplain : selection.Plain) (l : Label) :
    (Block.unlinked l (opening selection l vertex)).Labelled := by
  have hlabel : (Instruction.label l).CopyIsPure := Instruction.copyIsPure_of_not_isStraight rfl
  cases vertex with
  | final tree => exact ⟨⟨l, _, rfl⟩, List.forall_mem_cons.mpr ⟨hlabel, hplain.cover tree⟩⟩
  | jump tree target => exact ⟨⟨l, _, rfl⟩, List.forall_mem_cons.mpr ⟨hlabel, hplain.cover tree⟩⟩
  | conditional tree onTrue onFalse => exact ⟨⟨l, _, rfl⟩, List.forall_mem_singleton.mpr hlabel⟩

theorem copyIsPure_of_mem_closing (hplain : selection.Plain) {function : String}
    {resolved : List Destination} {i : Instruction}
    (hi : i ∈ closing selection function vertex resolved) : i.CopyIsPure := by
  have hjump : ∀ l, (Instruction.jump l).CopyIsPure := fun _ =>
    Instruction.copyIsPure_of_not_isStraight rfl
  unfold closing at hi
  split at hi
  · split_ifs at hi
    · exact List.mem_singleton.mp hi ▸ hjump _
    · simp at hi
  · dsimp only at hi
    split_ifs at hi
    · rcases List.mem_append.mp hi with hi | hi
      · exact hplain.coverBranch _ _ _ i hi
      · exact List.mem_singleton.mp hi ▸ hjump _
    · exact hplain.coverBranch _ _ _ i hi
    · exact hplain.coverBranch _ _ _ i hi
  · simp at hi

theorem labelled_finish (hplain : selection.Plain) {code : Fragment} (h : code.Labelled)
    (p : Pending Tree) : (finish selection graph code p).Labelled := by
  intro b' hb'
  obtain ⟨k, hk⟩ := List.mem_iff_getElem?.mp hb'
  have hlt : k < code.blocks.length := by
    rw [← length_blocks_finish selection graph p code]
    exact (List.getElem?_eq_some_iff.mp hk).1
  obtain ⟨b, hb⟩ : ∃ b, code.blocks[k]? = some b := ⟨_, List.getElem?_eq_getElem hlt⟩
  obtain ⟨b'', hb'', -, hinstructions, -⟩ := getElem?_blocks_finish selection graph p hb
  obtain rfl := Option.some.inj (hb''.symm.trans hk)
  obtain ⟨⟨l, rest, hlabel⟩, hpure⟩ := h b (List.mem_of_getElem? hb)
  split_ifs at hinstructions
  · refine ⟨⟨l, _, by rw [hinstructions, hlabel, List.cons_append]⟩, ?_⟩
    rw [hinstructions, List.forall_mem_append]
    exact ⟨hpure, fun i => copyIsPure_of_mem_closing hplain⟩
  · refine ⟨⟨l, rest, by rw [hinstructions, hlabel]⟩, ?_⟩
    rw [hinstructions]
    exact hpure

/-- A step keeps blocks labelled, or finds that a vertex is missing. -/
theorem labelled_step (graph : FlowGraph Tree) (hplain : selection.Plain) (h : w.code.Labelled)
    (hpending : w.pending ≠ []) :
    (∃ w', step selection graph w = .ok w' ∧ w'.code.Labelled) ∨
      ∃ e, step selection graph w = .error e ∧ ∃ fault, e = .invalidInput fault := by
  obtain ⟨p, rest, hp⟩ := List.exists_cons_of_ne_nil hpending
  rcases step_cases selection graph hp with
    ⟨d, remaining, k, -, -, hstep⟩ | ⟨d, remaining, vertex, -, -, -, hstep⟩ |
    ⟨d, remaining, -, -, hstep⟩ | ⟨-, hstep⟩
  · exact .inl ⟨_, hstep, h⟩
  · refine .inl ⟨_, hstep, List.forall_mem_append.mpr ⟨h, ?_⟩⟩
    exact List.forall_mem_singleton.mpr (labelled_opening hplain _)
  · exact .inr ⟨_, hstep, _, rfl⟩
  · exact .inl ⟨_, hstep, labelled_finish hplain h p⟩

end Layout

/-- A graph is laid out in labelled blocks, or a vertex is missing. -/
theorem FlowGraph.layOut_labelled {selection : Selection Tree} (hplain : selection.Plain)
    (graph : FlowGraph Tree) :
    (∃ f, graph.layOut selection = .ok f ∧ f.Labelled) ∨
      ∃ fault, graph.layOut selection = .error (.invalidInput fault) := by
  have hstart : ∀ vertex w, graph.vertices.get? graph.initial = some vertex →
      Layout.enter selection graph (Layout.start graph) graph.initial = .ok w →
      w.code.Labelled := by
    intro vertex w hvertex henter
    rw [Layout.enter_of_vertex selection (Layout.start graph) hvertex] at henter
    obtain rfl := Except.ok.inj henter
    exact List.forall_mem_singleton.mpr (Layout.labelled_opening hplain _)
  rcases graph.layOut_run_cases (E := fun e => ∃ fault, e = .invalidInput fault)
    (fun _ => ⟨_, rfl⟩) hstart (fun _ => Layout.labelled_step graph hplain) with
    ⟨w, hw, -, hok⟩ | ⟨_, herror, fault, rfl⟩
  · exact .inl ⟨_, hok, hw⟩
  · exact .inr ⟨fault, herror⟩

end Lowering
