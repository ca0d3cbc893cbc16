import Lowering.Proofs.LaidOut
import Lowering.Proofs.LiveAhead

/-!
# What is live at the entry

A register that is live at the entry of laid out code is read on some path through
the graph before it is written there.
-/

namespace Lowering

universe u

variable {Tree : Type u}

/-- On some path from a vertex, a register is read before it is written. -/
inductive FlowGraph.ReadsFirst (graph : FlowGraph Tree) (work : Vertex Tree → List Instruction)
    (r : Register) : Nat → Prop
  | here {v : Nat} {vertex : Vertex Tree} (hvertex : graph.vertices.get? v = some vertex)
      (hreads : Lowering.ReadsFirst r (work vertex)) : ReadsFirst graph work r v
  | later {v d : Nat} {vertex : Vertex Tree} (hvertex : graph.vertices.get? v = some vertex)
      (hkeeps : ∀ i ∈ work vertex, ¬ r ∈ i.writes) (hd : d ∈ vertex.destinations)
      (h : ReadsFirst graph work r d) : ReadsFirst graph work r v

theorem not_readsFirst_of_not_isStraight {r : Register} {code : List Instruction}
    (h : ∀ i ∈ code, i.isStraight = false) : ¬ ReadsFirst r code := by
  induction code with
  | nil => exact not_false
  | cons i code ih =>
      rw [List.forall_mem_cons] at h
      obtain ⟨hreads, -⟩ := Instruction.unused_of_not_isStraight h.1
      simp [ReadsFirst, hreads, ih h.2]

namespace Layout

variable {work : Vertex Tree → List Instruction} {graph : FlowGraph Tree} {order : List Nat}
  {f : Fragment} {r : Register}

/-- If a register lives on from the start of the block of a vertex, with paths in
the graph after it, then it is read on a path from the vertex. -/
theorem LaidOut.readsFirst_of_livesOn (h : LaidOut work graph order f) {d v : Nat} {b : Block}
    (hb : f.blocks[d]? = some b) (hv : order[d]? = some v)
    (hlives : LivesOn (fun d => ∃ v, order[d]? = some v ∧ graph.ReadsFirst work r v) r
      b.instructions b.successors) : graph.ReadsFirst work r v := by
  obtain ⟨vertex, b', resolved, hvertex, hb', himplements⟩ := h.implements d v hv
  obtain rfl := Option.some.inj (hb'.symm.trans hb)
  have hjumps : ¬ ReadsFirst r (jumps graph.name vertex resolved) :=
    not_readsFirst_of_not_isStraight fun i => not_isStraight_of_mem_jumps
  rw [himplements.instructions] at hlives
  rcases hlives with hreads | ⟨hkeeps, e, he, v', hv', hreads⟩
  · apply FlowGraph.ReadsFirst.here hvertex
    rw [List.cons_append, ReadsFirst, readsFirst_append] at hreads
    simpa [Instruction.reads, Instruction.writes, hjumps] using hreads
  · obtain ⟨v'', hd, hv''⟩ := himplements.exists_destination he
    obtain rfl := Option.some.inj (hv''.symm.trans hv')
    refine .later hvertex (fun i hi => hkeeps i ?_) hd hreads
    exact List.mem_append_left _ (List.mem_cons_of_mem _ hi)

/-- A register that is live at the entry is read on a path from the initial vertex
before it is written. -/
theorem LaidOut.readsFirst_of_liveAt (h : LaidOut work graph order f)
    (hblocks : ∀ b ∈ f.blocks, b.instructions ≠ []) (hr : f.LiveAt r ⟨0, 0⟩) :
    graph.ReadsFirst work r graph.initial := by
  have hexists : 0 < f.blocks.length := h.length ▸ (List.getElem?_eq_some_iff.mp h.initial).1
  have hb : f.blocks[0]? = some f.blocks[0] := List.getElem?_eq_getElem hexists
  apply h.readsFirst_of_livesOn hb h.initial
  apply hr.livesOn hblocks _ hb
  intro d b hd hlives
  obtain ⟨v, hv⟩ := h.exists_vertex hd
  exact ⟨v, hv, h.readsFirst_of_livesOn hd hv hlives⟩

end Layout

end Lowering
