import Lowering.Proofs.LayoutRun

/-!
# The structure of laid out code

Every vertex that can be reached has one block, in the order in which the walk came upon
it. Edges between blocks are those between their vertices, and each is listed at both of
its ends. Whatever is laid out for a vertex starts right after its block, so a vertex
falls through unless all its destinations have blocks up to its own, and only then a jump
is written.
-/

namespace Lowering

universe u

variable {Tree : Type u}

/-! ## Edges between blocks -/

namespace Fragment

variable {f : Fragment} {source target j k : Nat}

/-- A block lists another one as its successor. -/
def ListsSuccessor (f : Fragment) (j k : Nat) : Prop :=
  ∃ b, f.blocks[j]? = some b ∧ k ∈ b.successors

/-- A block lists another one as its predecessor. -/
def ListsPredecessor (f : Fragment) (j k : Nat) : Prop :=
  ∃ b, f.blocks[j]? = some b ∧ k ∈ b.predecessors

/-- Every edge is listed at both of its ends. -/
def Linked (f : Fragment) : Prop :=
  ∀ j k, f.ListsSuccessor j k ↔ f.ListsPredecessor k j

theorem exists_modifyBlock {P : Block → Prop} {change : Block → Block} :
    (∃ b, (f.modifyBlock j change).blocks[k]? = some b ∧ P b) ↔
      ∃ b, f.blocks[k]? = some b ∧ P (if j = k then change b else b) := by
  simp [modifyBlock, List.getElem?_modify]

theorem listsSuccessor_addEdge (hsource : source < f.blocks.length) :
    (f.addEdge source target).ListsSuccessor j k ↔
      f.ListsSuccessor j k ∨ source = j ∧ k = target := by
  obtain ⟨c, hc⟩ : ∃ c, f.blocks[source]? = some c := ⟨_, List.getElem?_eq_getElem hsource⟩
  rw [ListsSuccessor, addEdge, exists_modifyBlock, exists_modifyBlock]
  by_cases hj : source = j
  · subst hj
    by_cases ht : target = source <;>
      simp [ListsSuccessor, hc, ht, Block.addSuccessor, Block.addPredecessor]
  · by_cases ht : target = j <;> simp [ListsSuccessor, hj, ht, Block.addPredecessor]

theorem listsPredecessor_addEdge (htarget : target < f.blocks.length) :
    (f.addEdge source target).ListsPredecessor k j ↔
      f.ListsPredecessor k j ∨ source = j ∧ k = target := by
  obtain ⟨c, hc⟩ : ∃ c, f.blocks[target]? = some c := ⟨_, List.getElem?_eq_getElem htarget⟩
  rw [ListsPredecessor, addEdge, exists_modifyBlock, exists_modifyBlock]
  by_cases hk : target = k
  · subst hk
    by_cases hs : source = target <;>
      simp [ListsPredecessor, hc, hs, Block.addSuccessor, Block.addPredecessor, eq_comm]
  · by_cases hs : source = k <;>
      simp [ListsPredecessor, hk, Ne.symm hk, hs, Block.addSuccessor]

theorem Linked.addEdge (h : f.Linked) (hsource : source < f.blocks.length)
    (htarget : target < f.blocks.length) : (f.addEdge source target).Linked := by
  intro j k
  rw [listsSuccessor_addEdge hsource, listsPredecessor_addEdge htarget, h j k]

theorem Linked.addEdges {targets : List Destination} (h : f.Linked)
    (hsource : source < f.blocks.length) (htargets : ∀ d ∈ targets, d.block < f.blocks.length) :
    (targets.foldl (fun f d => f.addEdge source d.block) f).Linked := by
  induction targets generalizing f with
  | nil => exact h
  | cons d targets ih =>
      have hlength : (f.addEdge source d.block).blocks.length = f.blocks.length := by
        simp [Fragment.addEdge, modifyBlock]
      rw [List.forall_mem_cons] at htargets
      refine ih (h.addEdge hsource htargets.1) ?_ ?_ <;> rw [hlength]
      · exact hsource
      · exact htargets.2

/-- More code at the end of a block changes no edge. -/
theorem Linked.append (h : f.Linked) (block : Nat) (code : List Instruction) :
    (f.modifyBlock block fun b => b.append code).Linked := by
  intro j k
  have hedges := h j k
  rw [ListsSuccessor, ListsPredecessor] at hedges ⊢
  rw [exists_modifyBlock, exists_modifyBlock]
  split_ifs <;> exact hedges

theorem exists_push {P : Block → Prop} {new : Block} (hnew : ¬ P new) :
    (∃ b, (f.blocks ++ [new])[k]? = some b ∧ P b) ↔ ∃ b, f.blocks[k]? = some b ∧ P b := by
  constructor
  · rintro ⟨b, hb, hP⟩
    rw [List.getElem?_append] at hb
    split_ifs at hb with hk
    · exact ⟨b, hb, hP⟩
    · obtain rfl := List.mem_singleton.mp (List.mem_of_getElem? hb)
      exact absurd hP hnew
  · rintro ⟨b, hb, hP⟩
    exact ⟨b, Layout.getElem?_append_of_eq_some hb _, hP⟩

/-- A new block has no edges yet. -/
theorem Linked.push (h : f.Linked) (label : Label) (code : List Instruction) :
    Linked { f with blocks := f.blocks ++ [.unlinked label code] } := by
  intro j k
  refine (exists_push ?_).trans ((h j k).trans (exists_push ?_).symm) <;>
    exact InsertionSet.not_mem_empty _

end Fragment

namespace Layout

variable {selection : Selection Tree} {graph : FlowGraph Tree} {w : Layout Tree}

theorem linked_finish {p : Pending Tree} (hlinked : w.code.Linked)
    (hblock : p.block < w.code.blocks.length)
    (hresolved : ∀ d ∈ p.resolved, d.block < w.code.blocks.length) :
    (finish selection graph w.code p).Linked := by
  have hlength : (w.code.modifyBlock p.block fun b =>
      b.append (closing selection graph.name p.vertex p.resolved)).blocks.length =
        w.code.blocks.length := by
    simp [Fragment.modifyBlock]
  refine (hlinked.append p.block _).addEdges ?_ ?_ <;> rw [hlength]
  · exact hblock
  · exact fun d hd => hresolved d (List.mem_reverse.mp hd)

/-- A step keeps edges listed at both of their ends. -/
theorem Consistent.step_linked (h : Consistent selection graph w) (hlinked : w.code.Linked)
    (hpending : w.pending ≠ []) :
    (∃ w', Layout.step selection graph w = .ok w' ∧
      Consistent selection graph w' ∧ w'.code.Linked) ∨
      ∃ e, Layout.step selection graph w = .error e ∧ Misses graph e := by
  refine (h.step hpending).imp_left ?_
  rintro ⟨w', hok, hw'⟩
  refine ⟨w', hok, hw', ?_⟩
  obtain ⟨p, rest, hp⟩ := List.exists_cons_of_ne_nil hpending
  have hstack := h.stack
  rw [hp] at hstack
  rcases step_cases selection graph hp with
    ⟨d, remaining, k, -, -, hstep⟩ | ⟨d, remaining, vertex, -, -, -, hstep⟩ |
    ⟨d, remaining, -, -, hstep⟩ | ⟨-, hstep⟩
  · obtain rfl := Except.ok.inj (hok.symm.trans hstep)
    exact hlinked
  · obtain rfl := Except.ok.inj (hok.symm.trans hstep)
    exact hlinked.push _ _
  · simp [hstep] at hok
  · obtain rfl := Except.ok.inj (hok.symm.trans hstep)
    refine linked_finish hlinked hstack.1.lt_length fun d hd => ?_
    obtain ⟨done, -, hresolved⟩ := hstack.1.resolved
    rw [← h.length]
    exact hresolved.lt_length (List.mem_append_left _ hd)

/-- A graph is laid out completely, with all edges between the blocks, or a vertex that
can be reached is missing. -/
theorem layOut_complete (selection : Selection Tree) (graph : FlowGraph Tree) :
    (∃ order f, graph.layOut selection = .ok f ∧ Complete selection graph order f ∧ f.Linked) ∨
      ∃ e, graph.layOut selection = .error e ∧ Misses graph e := by
  have hstart : ∀ vertex w, graph.vertices.get? graph.initial = some vertex →
      enter selection graph (start graph) graph.initial = .ok w →
      Consistent selection graph w ∧ w.code.Linked := by
    intro vertex w hvertex henter
    refine ⟨consistent_start hvertex henter, ?_⟩
    rw [enter_of_vertex selection (start graph) hvertex] at henter
    obtain rfl := Except.ok.inj henter
    have hnone : (start graph).code.Linked := fun j k => by
      simp [start, Fragment.ListsSuccessor, Fragment.ListsPredecessor]
    exact hnone.push _ _
  rcases graph.layOut_run_cases (fun hvertex => ⟨_, .initial, hvertex, rfl⟩) hstart
    (fun _ hw => hw.1.step_linked hw.2) with ⟨w, hw, hpending, hok⟩ | herror
  · exact .inl ⟨_, _, hok, hw.1.complete hpending, hw.2⟩
  · exact .inr herror

end Layout

/-! ## Vertices and their blocks -/

def FlowGraph.Edge (graph : FlowGraph Tree) (u v : Nat) : Prop :=
  ∃ vertex, graph.vertices.get? u = some vertex ∧ v ∈ vertex.destinations

namespace Layout

variable {selection : Selection Tree} {graph : FlowGraph Tree} {order : List Nat} {f : Fragment}
  {j k u v : Nat} {b : Block}

theorem Complete.exists_written (h : Complete selection graph order f)
    (hb : f.blocks[k]? = some b) : ∃ v vertex resolved, order[k]? = some v ∧
      graph.vertices.get? v = some vertex ∧
      Written selection graph.name order k vertex b resolved := by
  have hlt : k < order.length := h.length ▸ (List.getElem?_eq_some_iff.mp hb).1
  obtain ⟨v, hv⟩ : ∃ v, order[k]? = some v := ⟨_, List.getElem?_eq_getElem hlt⟩
  obtain ⟨vertex, b', resolved, hvertex, hb', hwritten⟩ := h.written k v hv
  obtain rfl := Option.some.inj (hb'.symm.trans hb)
  exact ⟨v, vertex, resolved, hv, hvertex, hwritten⟩

/-- The vertices with blocks are those that can be reached. -/
theorem Complete.mem_iff (h : Complete selection graph order f) :
    v ∈ order ↔ graph.Reachable v := by
  refine ⟨h.reachable v, fun hv => ?_⟩
  induction hv with
  | initial => exact List.mem_of_getElem? h.initial
  | next _ hvertex hd ih =>
      obtain ⟨k, hk⟩ := List.mem_iff_getElem?.mp ih
      obtain ⟨vertex', b, resolved, hvertex', -, hwritten⟩ := h.written k _ hk
      obtain rfl := Option.some.inj (hvertex'.symm.trans hvertex)
      obtain ⟨d, -, hd⟩ := hwritten.destinations.exists_block hd
      exact List.mem_of_getElem? hd

/-- The successors of a block are the blocks of the destinations of its vertex. -/
theorem Complete.mem_successors_iff (h : Complete selection graph order f)
    (hb : f.blocks[k]? = some b) :
    j ∈ b.successors ↔ ∃ u v, order[k]? = some u ∧ order[j]? = some v ∧ graph.Edge u v := by
  obtain ⟨u, vertex, resolved, hu, hvertex, hwritten⟩ := h.exists_written hb
  rw [hwritten.successors]
  constructor
  · rintro ⟨d, hd, rfl⟩
    obtain ⟨v, hv, hblock⟩ := hwritten.destinations.exists_vertex hd
    exact ⟨u, v, hu, hblock, vertex, hvertex, hv⟩
  · rintro ⟨u', v, hu', hv, vertex', hvertex', hmem⟩
    obtain rfl := Option.some.inj (hu'.symm.trans hu)
    obtain rfl := Option.some.inj (hvertex'.symm.trans hvertex)
    obtain ⟨d, hd, hblock⟩ := hwritten.destinations.exists_block hmem
    exact ⟨d, hd, (List.getElem?_inj (List.getElem?_eq_some_iff.mp hblock).1 h.nodup).mp
      (hblock.trans hv.symm)⟩

/-- The predecessors of a block are the blocks of the vertices that lead to its own. -/
theorem Complete.mem_predecessors_iff (h : Complete selection graph order f) (hlinked : f.Linked)
    (hb : f.blocks[k]? = some b) :
    j ∈ b.predecessors ↔ ∃ u v, order[j]? = some u ∧ order[k]? = some v ∧ graph.Edge u v := by
  have hlists : j ∈ b.predecessors ↔ f.ListsPredecessor k j := by
    simp [Fragment.ListsPredecessor, hb]
  rw [hlists, ← hlinked j k]
  constructor
  · rintro ⟨c, hc, hk⟩
    exact (h.mem_successors_iff hc).mp hk
  · rintro ⟨u, v, hu, hv, hedge⟩
    have hlt : j < f.blocks.length := h.length ▸ (List.getElem?_eq_some_iff.mp hu).1
    obtain ⟨c, hc⟩ : ∃ c, f.blocks[j]? = some c := ⟨_, List.getElem?_eq_getElem hlt⟩
    exact ⟨c, hc, (h.mem_successors_iff hc).mpr ⟨u, v, hu, hv, hedge⟩⟩

/-! ## Jumps -/

/-- A destination had its block before exactly if all lie up to the block of the vertex. -/
theorem Written.all_existed_iff {function : String} {vertex : Vertex Tree}
    {resolved : List Destination} (h : Written selection function order k vertex b resolved) :
    (∀ d ∈ resolved, d.existed = true) ↔ ∀ d ∈ resolved, d.block ≤ k := by
  constructor
  · intro hall
    refine h.back (List.find?_eq_none.mpr fun d hd => ?_)
    simp [hall d hd]
  · intro hback d hd
    by_contra hnew
    obtain ⟨e, he⟩ : ∃ e, firstNew? resolved = some e :=
      Option.isSome_iff_exists.mp (List.find?_isSome.mpr ⟨d, hd, by simp [hnew]⟩)
    have hnext := h.next e he
    have hle := hback e (List.mem_of_find?_eq_some he)
    omega

end Layout

/-- A selection leaves labels and unconditional jumps to the layout. -/
structure Selection.Quiet (selection : Selection Tree) : Prop where
  cover : ∀ tree, ∀ i ∈ selection.cover tree, i.label? = none ∧ i.jump? = none
  coverBranch : ∀ tree label jumpIf, ∀ i ∈ selection.coverBranch tree label jumpIf,
    i.label? = none ∧ i.jump? = none

/-- A selection that does what is asked of it for control leaves labels and jumps
alone. -/
theorem Selection.Lawful.quiet {selection : Selection Tree} {condition : Tree → List Instruction}
    (h : selection.Lawful condition) : selection.Quiet := by
  have hwork : ∀ vertex, ∀ i ∈ selection.work condition vertex,
      i.label? = none ∧ i.jump? = none := by
    intro vertex i hi
    have hstraight := h.straight vertex i hi
    cases i with
    | operate o => exact ⟨rfl, rfl⟩
    | fusedCopy c r w => exact ⟨rfl, rfl⟩
    | _ => cases hstraight
  refine ⟨fun tree => hwork (.final tree), fun tree label jumpIf => ?_⟩
  rw [h.coverBranch_eq, List.forall_mem_append]
  exact ⟨hwork (.conditional tree 0 0), List.forall_mem_singleton.mpr ⟨rfl, rfl⟩⟩

/-- The vertex jumps to a vertex whose block is not after its own. -/
def FlowGraph.jumpsBack (graph : FlowGraph Tree) (order : List Nat) (v : Nat) : Bool :=
  match graph.vertices.get? v with
  | some (.jump _ target) => decide (order.idxOf target ≤ order.idxOf v)
  | _ => false

/-- The vertex branches to two vertices whose blocks are not after its own. -/
def FlowGraph.branchesBack (graph : FlowGraph Tree) (order : List Nat) (v : Nat) : Bool :=
  match graph.vertices.get? v with
  | some (.conditional _ onTrue onFalse) =>
    decide (order.idxOf onTrue ≤ order.idxOf v ∧ order.idxOf onFalse ≤ order.idxOf v)
  | _ => false

namespace Layout

variable {selection : Selection Tree} {graph : FlowGraph Tree} {order : List Nat} {f : Fragment}
  {k v : Nat} {b : Block} {function : String} {vertex : Vertex Tree}
  {resolved : List Destination}

/-- The only label of a block is placed by its opening. -/
theorem filterMap_label?_opening (hquiet : selection.Quiet) (l : Label) (vertex : Vertex Tree) :
    (opening selection l vertex).filterMap Instruction.label? = [l] := by
  have hlabel : (Instruction.label l).label? = some l := rfl
  have hcover : ∀ tree, (selection.cover tree).filterMap Instruction.label? = [] := fun tree =>
    List.filterMap_eq_nil_iff.mpr fun i hi => (hquiet.cover tree i hi).1
  cases vertex <;> simp only [opening, List.filterMap_cons, List.filterMap_nil, hlabel, hcover]

theorem filterMap_jump?_opening (hquiet : selection.Quiet) (l : Label) (vertex : Vertex Tree) :
    (opening selection l vertex).filterMap Instruction.jump? = [] := by
  have hlabel : (Instruction.label l).jump? = none := rfl
  have hcover : ∀ tree, (selection.cover tree).filterMap Instruction.jump? = [] := fun tree =>
    List.filterMap_eq_nil_iff.mpr fun i hi => (hquiet.cover tree i hi).2
  cases vertex <;> simp only [opening, List.filterMap_cons, List.filterMap_nil, hlabel, hcover]

theorem filterMap_label?_closing (hquiet : selection.Quiet) :
    (closing selection function vertex resolved).filterMap Instruction.label? = [] := by
  have hbranch : ∀ tree l jumpIf, (selection.coverBranch tree l jumpIf).filterMap
      Instruction.label? = [] := fun tree l jumpIf =>
    List.filterMap_eq_nil_iff.mpr fun i hi => (hquiet.coverBranch tree l jumpIf i hi).1
  have hjump : ∀ l, [Instruction.jump l].filterMap Instruction.label? = [] := fun _ => rfl
  unfold closing
  split
  · split_ifs
    · exact hjump _
    · rfl
  · dsimp only
    split_ifs
    · rw [List.filterMap_append, hbranch, hjump, List.append_nil]
    · exact hbranch _ _ _
    · exact hbranch _ _ _
  · rfl

/-- A jump is written to the first destination if all destinations had their blocks
before. -/
theorem filterMap_jump?_closing (hquiet : selection.Quiet)
    (hresolved : Resolved order vertex.destinations resolved) :
    (closing selection function vertex resolved).filterMap Instruction.jump? =
      if ∀ d ∈ resolved, d.existed = true
        then (resolved.head?.map fun d => blockLabel function d.block).toList else [] := by
  have hbranch : ∀ tree l jumpIf, (selection.coverBranch tree l jumpIf).filterMap
      Instruction.jump? = [] := fun tree l jumpIf =>
    List.filterMap_eq_nil_iff.mpr fun i hi => (hquiet.coverBranch tree l jumpIf i hi).2
  have hjump : ∀ l, [Instruction.jump l].filterMap Instruction.jump? = [l] := fun _ => rfl
  cases vertex with
  | final tree =>
      cases hresolved
      simp [closing]
  | jump tree target =>
      obtain ⟨d, rfl⟩ : ∃ d, resolved = [d] := List.length_eq_one_iff.mp hresolved.length_eq.symm
      cases hd : d.existed <;> simp [closing, hd, hjump]
  | conditional tree onTrue onFalse =>
      obtain ⟨d, e, rfl⟩ : ∃ d e, resolved = [d, e] :=
        List.length_eq_two.mp hresolved.length_eq.symm
      cases hd : d.existed <;> cases he : e.existed <;>
        simp [closing, hd, he, hbranch, hjump]

theorem Written.filterMap_jump? (hquiet : selection.Quiet)
    (h : Written selection function order k vertex b resolved) :
    b.instructions.filterMap Instruction.jump? =
      if ∀ d ∈ resolved, d.block ≤ k
        then (resolved.head?.map fun d => blockLabel function d.block).toList else [] := by
  rw [h.instructions, List.filterMap_append, filterMap_jump?_opening hquiet,
    filterMap_jump?_closing hquiet h.destinations, List.nil_append]
  exact if_congr h.all_existed_iff rfl rfl

/-- A jump leads to a block that is not after its own. -/
theorem Complete.findBlock?_of_jump (h : Complete selection graph order f)
    (hquiet : selection.Quiet) (hb : f.blocks[k]? = some b) {l : Label}
    (hl : .jump l ∈ b.instructions) : ∃ j ≤ k, f.findBlock? l = some j := by
  obtain ⟨v, vertex, resolved, -, -, hwritten⟩ := h.exists_written hb
  have hmem : l ∈ b.instructions.filterMap Instruction.jump? :=
    List.mem_filterMap.mpr ⟨.jump l, hl, rfl⟩
  rw [hwritten.filterMap_jump? hquiet] at hmem
  split_ifs at hmem with hback
  · obtain ⟨d, hd, rfl⟩ := Option.map_eq_some_iff.mp (Option.mem_toList.mp hmem)
    have hresolved := List.mem_of_head? hd
    have hlt := hwritten.destinations.lt_length hresolved
    exact ⟨d.block, hback d hresolved, findBlock?_blockLabel h.labels (h.length ▸ hlt)⟩
  · simp at hmem

theorem idxOf_eq_of_getElem? (hnodup : order.Nodup) (hk : order[k]? = some v) :
    order.idxOf v = k := by
  obtain ⟨hlt, rfl⟩ := List.getElem?_eq_some_iff.mp hk
  exact hnodup.idxOf_getElem k hlt

/-- The block of a vertex has a jump exactly if the vertex leads back. -/
theorem Complete.countP_jump (h : Complete selection graph order f) (hquiet : selection.Quiet)
    (hv : order[k]? = some v) (hb : f.blocks[k]? = some b) :
    b.instructions.countP (fun i => i.jump?.isSome) =
      (graph.jumpsBack order v).toNat + (graph.branchesBack order v).toNat := by
  obtain ⟨v', vertex, resolved, hv', hvertex, hwritten⟩ := h.exists_written hb
  obtain rfl := Option.some.inj (hv'.symm.trans hv)
  have hself := idxOf_eq_of_getElem? h.nodup hv
  have hresolved := hwritten.destinations
  rw [← List.length_filterMap_eq_countP, hwritten.filterMap_jump? hquiet]
  cases vertex with
  | final tree =>
      cases hresolved
      simp [FlowGraph.jumpsBack, FlowGraph.branchesBack, hvertex]
  | jump tree target =>
      obtain ⟨d, rfl⟩ : ∃ d, resolved = [d] := List.length_eq_one_iff.mp hresolved.length_eq.symm
      have htarget := idxOf_eq_of_getElem? h.nodup (List.forall₂_cons.mp hresolved).1
      by_cases hback : d.block ≤ k <;>
        simp [FlowGraph.jumpsBack, FlowGraph.branchesBack, hvertex, hself, htarget, hback]
  | conditional tree onTrue onFalse =>
      obtain ⟨d, e, rfl⟩ : ∃ d e, resolved = [d, e] :=
        List.length_eq_two.mp hresolved.length_eq.symm
      obtain ⟨hd, hrest⟩ := List.forall₂_cons.mp hresolved
      have hfalse := idxOf_eq_of_getElem? h.nodup hd
      have htrue := idxOf_eq_of_getElem? h.nodup (List.forall₂_cons.mp hrest).1
      by_cases hd : d.block ≤ k <;> by_cases he : e.block ≤ k <;>
        simp [FlowGraph.jumpsBack, FlowGraph.branchesBack, hvertex, hself, hfalse, htrue, hd, he]

theorem countP_jump_of_forall₂ {blocks : List Block} {vertices : List Nat} {p q : Nat → Bool}
    (h : List.Forall₂ (fun b v => b.instructions.countP (fun i => i.jump?.isSome) =
      (p v).toNat + (q v).toNat) blocks vertices) :
    (blocks.flatMap Block.instructions).countP (fun i => i.jump?.isSome) =
      vertices.countP p + vertices.countP q := by
  induction h with
  | nil => rfl
  | @cons b v blocks vertices hb _ ih =>
      rw [List.flatMap_cons, List.countP_append, hb, ih, List.countP_cons, List.countP_cons]
      cases p v <;> cases q v <;> simp <;> omega

/-- Jumps are written exactly for the vertices that lead back. -/
theorem Complete.jumpCount_eq (h : Complete selection graph order f) (hquiet : selection.Quiet) :
    f.jumpCount =
      order.countP (graph.jumpsBack order) + order.countP (graph.branchesBack order) := by
  have hcounts : List.Forall₂ (fun b v => b.instructions.countP (fun i => i.jump?.isSome) =
      (graph.jumpsBack order v).toNat + (graph.branchesBack order v).toNat) f.blocks order := by
    refine List.forall₂_iff_get.mpr ⟨h.length.symm, fun k hb hv => ?_⟩
    exact h.countP_jump hquiet (List.getElem?_eq_getElem hv) (List.getElem?_eq_getElem hb)
  exact countP_jump_of_forall₂ hcounts

/-! ## The whole structure -/

/-- The blocks are those of the vertices that can be reached, each with its label first,
linked like their vertices. -/
structure Structured (graph : FlowGraph Tree) (order : List Nat) (f : Fragment) : Prop where
  nodup : order.Nodup
  length : order.length = f.blocks.length
  initial : order[0]? = some graph.initial
  mem_iff : ∀ v, v ∈ order ↔ graph.Reachable v
  label : ∀ (k : Nat) b, f.blocks[k]? = some b → b.label = ⟨s!"{graph.name}.bb{k}"⟩
  distinct : (f.blocks.map Block.label).Nodup
  found : ∀ (k : Nat) b, f.blocks[k]? = some b → f.findBlock? b.label = some k
  first : ∀ b ∈ f.blocks, b.instructions.head? = some (.label b.label)
  successors : ∀ (k : Nat) b, f.blocks[k]? = some b → ∀ j, j ∈ b.successors ↔
    ∃ u v, order[k]? = some u ∧ order[j]? = some v ∧ graph.Edge u v
  predecessors : ∀ (k : Nat) b, f.blocks[k]? = some b → ∀ j, j ∈ b.predecessors ↔
    ∃ u v, order[j]? = some u ∧ order[k]? = some v ∧ graph.Edge u v

/-- Labels stand nowhere but in front, and jumps are written exactly where control cannot
fall through. -/
structure FallsThrough (graph : FlowGraph Tree) (order : List Nat) (f : Fragment) : Prop where
  labels : ∀ b ∈ f.blocks, b.instructions.filterMap Instruction.label? = [b.label]
  jumps : ∀ (k : Nat) b, f.blocks[k]? = some b → ∀ l, .jump l ∈ b.instructions →
    ∃ j ≤ k, f.findBlock? l = some j
  jumpCount : f.jumpCount =
    order.countP (graph.jumpsBack order) + order.countP (graph.branchesBack order)

theorem head?_opening (selection : Selection Tree) (l : Label) (vertex : Vertex Tree)
    (rest : List Instruction) :
    (opening selection l vertex ++ rest).head? = some (.label l) := by
  cases vertex <;> rfl

theorem Complete.head?_instructions (h : Complete selection graph order f) :
    ∀ b ∈ f.blocks, b.instructions.head? = some (.label b.label) := by
  intro b hb
  obtain ⟨k, hk⟩ := List.mem_iff_getElem?.mp hb
  obtain ⟨v, vertex, resolved, -, -, hwritten⟩ := h.exists_written hk
  rw [hwritten.instructions, h.labels k b hk]
  exact head?_opening selection _ vertex _

/-- Laid out blocks begin with their labels. -/
theorem head?_of_layOut (h : graph.layOut selection = .ok f) :
    ∀ b ∈ f.blocks, b.instructions.head? = some (.label b.label) := by
  rcases layOut_complete selection graph with ⟨order, f', hok, hcomplete, -⟩ | ⟨e, herror, -⟩
  · obtain rfl := Except.ok.inj (hok.symm.trans h)
    exact hcomplete.head?_instructions
  · simp [herror] at h

theorem Complete.structured (h : Complete selection graph order f) (hlinked : f.Linked) :
    Structured graph order f := by
  have hfound : ∀ k b, f.blocks[k]? = some b → f.findBlock? b.label = some k := by
    intro k b hb
    rw [h.labels k b hb]
    exact findBlock?_blockLabel h.labels (List.getElem?_eq_some_iff.mp hb).1
  have hdistinct : (f.blocks.map Block.label).Nodup := by
    have hmap : f.blocks.map Block.label =
        (List.range f.blocks.length).map (blockLabel graph.name) := by
      refine List.ext_getElem (by simp) fun k hk _ => ?_
      simpa using h.labels k _ (List.getElem?_eq_getElem (List.length_map Block.label ▸ hk))
    rw [hmap]
    exact List.nodup_range.map fun _ _ => blockLabel_injective graph.name
  exact ⟨h.nodup, h.length, h.initial, fun v => h.mem_iff, h.labels, hdistinct, hfound,
    h.head?_instructions, fun k b hb j => h.mem_successors_iff hb,
    fun k b hb j => h.mem_predecessors_iff hlinked hb⟩

theorem Complete.fallsThrough (h : Complete selection graph order f) (hquiet : selection.Quiet) :
    FallsThrough graph order f := by
  refine ⟨fun b hb => ?_, fun k b hb l => h.findBlock?_of_jump hquiet hb, h.jumpCount_eq hquiet⟩
  obtain ⟨k, hk⟩ := List.mem_iff_getElem?.mp hb
  obtain ⟨v, vertex, resolved, -, -, hwritten⟩ := h.exists_written hk
  rw [hwritten.instructions, List.filterMap_append, filterMap_label?_opening hquiet,
    filterMap_label?_closing hquiet, h.labels k b hk, List.append_nil]

theorem Complete.exists_vertex (h : Complete selection graph order f) (hv : graph.Reachable v) :
    ∃ vertex, graph.vertices.get? v = some vertex := by
  obtain ⟨k, hk⟩ := List.mem_iff_getElem?.mp (h.mem_iff.mpr hv)
  obtain ⟨vertex, -, -, hvertex, -⟩ := h.written k v hk
  exact ⟨vertex, hvertex⟩

/-- After the first vertex, less than four steps are left for each vertex of the graph. -/
theorem work_lt_of_first {w : Layout Tree}
    (h : enter selection graph (start graph) graph.initial = .ok w) :
    w.work graph < 4 * graph.vertices.size := by
  have hstart : (start graph).work graph ≤ 4 * graph.vertices.size := by
    have hlength := List.length_filter_le (fun v => decide (¬ v ∈ (start graph).visited))
      graph.vertices.keys.toList
    rw [InsertionMap.keys, List.length_map] at hlength
    exact Nat.mul_le_mul_left 4 hlength
  exact Nat.lt_of_lt_of_le (work_enter_lt (block?_eq_none.mpr (InsertionSet.not_mem_empty _)) h)
    hstart

end Layout

/-- The walk over a graph ends after less than four steps for each vertex. It fails exactly
if a vertex that can be reached is missing, and names one. Otherwise the blocks are those
of the vertices that can be reached: numbered labels lead back to them, edges are those of
the graph, and where the selection writes neither labels nor jumps, jumps are written
exactly for the vertices whose destinations all have blocks up to their own. -/
theorem layOut_structured_or_missing (selection : Selection Tree) (graph : FlowGraph Tree) :
    (∀ w, Layout.enter selection graph (Layout.start graph) graph.initial = .ok w →
      ∃ n w', n < 4 * graph.vertices.size ∧ Layout.walk selection graph n w = .ok w' ∧
        ((w'.pending = [] ∧ graph.layOut selection = .ok w'.code) ∨
          w'.pending ≠ [] ∧ ∃ e, Layout.step selection graph w' = .error e ∧
            graph.layOut selection = .error e)) ∧
    ((∃ e, graph.layOut selection = .error e) ↔
      ∃ v, graph.Reachable v ∧ graph.vertices.get? v = none) ∧
    (∀ e, graph.layOut selection = .error e →
      ∃ v, graph.Reachable v ∧ graph.vertices.get? v = none ∧
        e = .invalidInput (.missingVertex graph.name v)) ∧
    ∀ f, graph.layOut selection = .ok f →
      ∃ order, Layout.Structured graph order f ∧
        (selection.Quiet → Layout.FallsThrough graph order f) := by
  constructor
  · intro w henter
    obtain ⟨n, w', hn, hwalk, hend⟩ := Layout.run_ends selection graph w
    refine ⟨n, w', Nat.lt_of_le_of_lt hn (Layout.work_lt_of_first henter), hwalk, ?_⟩
    rw [FlowGraph.layOut, henter]
    exact hend
  · rcases Layout.layOut_complete selection graph with
      ⟨order, f, hok, hcomplete, hlinked⟩ | ⟨e, herror, hmisses⟩
    · refine ⟨iff_of_false ?_ ?_, fun e he => ?_, fun f' hf' => ?_⟩
      · rintro ⟨e, he⟩
        simp [hok] at he
      · rintro ⟨v, hv, hmissing⟩
        obtain ⟨vertex, hvertex⟩ := hcomplete.exists_vertex hv
        simp [hmissing] at hvertex
      · simp [hok] at he
      · obtain rfl := Except.ok.inj (hok.symm.trans hf')
        exact ⟨order, hcomplete.structured hlinked, hcomplete.fallsThrough⟩
    · refine ⟨iff_of_true ⟨e, herror⟩ ?_, fun e' he' => ?_, fun f hf => ?_⟩
      · obtain ⟨v, hv, hmissing, -⟩ := hmisses
        exact ⟨v, hv, hmissing⟩
      · obtain rfl := Except.error.inj (herror.symm.trans he')
        exact hmisses
      · simp [herror] at hf

/-- A loop with its test at the head and one with its test at the end, the latter inside
the former, and a vertex that cannot be reached. -/
def twoLoops : FlowGraph WorkList where
  name := "f"
  initial := 0
  vertices := .ofList [(0, .conditional [.compute "first" [] []] 1 2),
    (1, .jump [.compute "body" [] []] 0), (2, .conditional [.compute "second" [] []] 0 2),
    (3, .final [])]

/-- The body of the first loop and the test of the second lead back, so two jumps are
written. -/
theorem twoLoops_structured : ∃ f order, twoLoops.layOut .sequential = .ok f ∧
    f.jumpCount = 2 ∧ Layout.Structured twoLoops order f ∧
    Layout.FallsThrough twoLoops order f := by
  obtain ⟨-, -, -, hstructured⟩ := layOut_structured_or_missing .sequential twoLoops
  have hjumps : (twoLoops.layOut .sequential).toOption.map Fragment.jumpCount = some 2 := by
    decide +kernel
  cases hok : twoLoops.layOut .sequential with
  | error e =>
      rw [hok] at hjumps
      cases hjumps
  | ok f =>
      obtain ⟨order, horder, hfalls⟩ := hstructured f hok
      rw [hok] at hjumps
      exact ⟨f, order, rfl, Option.some.inj hjumps, horder,
        hfalls Selection.sequential_lawful.quiet⟩

end Lowering
