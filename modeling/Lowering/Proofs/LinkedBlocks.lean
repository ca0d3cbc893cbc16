import Lowering.Proofs.LayoutStructure
import Lowering.Proofs.Placement

/-!
# Code that refers to its own blocks

Blocks refer to each other by number. Code in which every edge is listed at both of its
ends mentions no other numbers than those of its own blocks, and numbering its
instructions through loses no edge. Blocks without edges are linked in this sense, adding
edges between blocks that exist keeps them linked, and so does everything that happens to
code on its way through the compiler.
-/

namespace Lowering

universe u

namespace Fragment

variable {f g : Fragment} {j k index source target : Nat} {b : Block}

theorem linked_of_no_edges (h : ∀ b ∈ f.blocks, b.successors = ∅ ∧ b.predecessors = ∅) :
    f.Linked := by
  intro j k
  constructor
  · rintro ⟨b, hb, hk⟩
    rw [(h b (List.mem_of_getElem? hb)).1] at hk
    exact absurd hk (InsertionSet.not_mem_empty k)
  · rintro ⟨b, hb, hj⟩
    rw [(h b (List.mem_of_getElem? hb)).2] at hj
    exact absurd hj (InsertionSet.not_mem_empty j)

theorem Linked.addEdge? (h : f.Linked) (hedge : f.addEdge? source target = some g) :
    g.Linked := by
  obtain ⟨⟨hsource, htarget⟩, hg⟩ := Option.ite_none_right_eq_some.mp hedge
  obtain rfl := Option.some.inj hg
  exact h.addEdge hsource htarget

theorem Linked.addEdges? {edges : List (Nat × Nat)} (h : f.Linked)
    (hedges : f.addEdges? edges = some g) : g.Linked := by
  induction edges generalizing f with
  | nil => exact Option.some.inj hedges ▸ h
  | cons e edges ih =>
      obtain ⟨f', hedge, hrest⟩ := Option.bind_eq_some_iff.mp hedges
      exact ih (h.addEdge? hedge) hrest

theorem Linked.push? {i : Instruction} (h : f.Linked) (hpush : f.push? k i = some g) :
    g.Linked := by
  obtain ⟨-, hg⟩ := Option.ite_none_right_eq_some.mp hpush
  exact Option.some.inj hg ▸ h.append k [i]

theorem Linked.replace (h : f.Linked) (code : Instruction → List Instruction) :
    (f.replace code).Linked := by
  intro j k
  have hedges := h j k
  simpa [ListsSuccessor, ListsPredecessor, Fragment.replace] using hedges

/-! ## Numbers of blocks -/

theorem Linked.successor_lt (h : f.Linked) (hb : f.blocks[j]? = some b)
    (hk : k ∈ b.successors) : k < f.blocks.length := by
  obtain ⟨c, hc, -⟩ := (h j k).mp ⟨b, hb, hk⟩
  exact (List.getElem?_eq_some_iff.mp hc).1

theorem Linked.predecessor_lt (h : f.Linked) (hb : f.blocks[k]? = some b)
    (hj : j ∈ b.predecessors) : j < f.blocks.length := by
  obtain ⟨c, hc, -⟩ := (h j k).mpr ⟨b, hb, hj⟩
  exact (List.getElem?_eq_some_iff.mp hc).1

/-- After the last instruction of a block come the first ones of all its successors. -/
theorem Linked.following_eq (h : f.Linked) (hb : f.blocks[j]? = some b) :
    f.following j b index = if index + 1 < b.instructions.length then
      [f.offset j + index + 1] else b.successors.toList.map f.offset := by
  have hentry : ∀ k ∈ b.successors.toList, f.entry? k = some (f.offset k) := fun k hk =>
    if_pos (h.successor_lt hb hk)
  rw [following, List.filterMap_congr hentry, List.filterMap_eq_map']

theorem number_lt_length {p : Position} {i : Instruction} (hb : f.blocks[p.block]? = some b)
    (hi : b.instructions[p.index]? = some i) : f.number p < f.points.length :=
  (List.getElem?_eq_some_iff.mp (getElem?_points hb hi)).1

/-- The points of linked code lead to points of it. -/
theorem Linked.successor_lt_length (h : f.Linked)
    (hblocks : ∀ b ∈ f.blocks, b.instructions ≠ []) {q : Point} (hq : q ∈ f.points) {s : Nat}
    (hs : s ∈ q.successors) : s < f.points.length := by
  obtain ⟨n, hn⟩ := List.mem_iff_getElem?.mp hq
  obtain ⟨p, b, i, hb, -, -, rfl⟩ := exists_position_of_point hn
  rw [pointAt, h.following_eq hb] at hs
  split_ifs at hs with hnext
  · obtain rfl := List.mem_singleton.mp hs
    exact number_lt_length (p := p.next) hb (List.getElem?_eq_getElem hnext)
  · obtain ⟨k, hk, rfl⟩ := List.mem_map.mp hs
    have hc := List.getElem?_eq_getElem (h.successor_lt hb hk)
    have hnonempty := hblocks _ (List.mem_of_getElem? hc)
    exact number_lt_length (p := ⟨k, 0⟩) hc
      (List.getElem?_eq_getElem (List.length_pos_iff.mpr hnonempty))

end Fragment

/-! ## The way through the compiler -/

variable {Tree : Type u} {selection : Selection Tree} {graph : FlowGraph Tree} {f : Fragment}

theorem FlowGraph.linked_of_layOut (h : graph.layOut selection = .ok f) : f.Linked := by
  rcases Layout.layOut_complete selection graph with ⟨order, g, hok, -, hlinked⟩ | ⟨e, herror, -⟩
  · exact Except.ok.inj (hok.symm.trans h) ▸ hlinked
  · simp [herror] at h

theorem Spill.linked_of_expandFragment {slots : InsertionMap VirtualRegister FrameSlot}
    {backups : List HardwareRegister} {g : Fragment} (hf : f.Linked)
    (h : expandFragment selection slots backups f = .ok g) : g.Linked := by
  obtain ⟨-, rfl⟩ := expandFragment_eq_ok h
  exact hf.replace _

/-- The code that the compiler analyzes refers to its own blocks, and its points to points of
it. -/
theorem Compiler.linked_of_place {c : Compiler} {x : Interaction} {a : Allocation}
    (h : c.place selection graph = .ok (f, x, a)) :
    f.Linked ∧ ∀ q ∈ f.points, ∀ s ∈ q.successors, s < f.points.length := by
  obtain ⟨hlayOut, hanalyze, -⟩ := place_eq_ok h
  have hlinked := FlowGraph.linked_of_layOut hlayOut
  have hblocks := (analyze_eq_ok hanalyze).1
  exact ⟨hlinked, fun q hq s => hlinked.successor_lt_length hblocks hq⟩

/-- Compiled code refers to its own blocks. -/
theorem Compiler.linked_of_compile {c : Compiler} {frame : Frame} {func : CompiledFunction}
    (h : (c.compile selection graph frame).2 = .ok func) : func.code.Linked := by
  obtain ⟨f, x, a, backups, -, hcompiled⟩ := exists_compiled h
  exact Spill.linked_of_expandFragment (FlowGraph.linked_of_layOut hcompiled.layOut)
    hcompiled.code

end Lowering
