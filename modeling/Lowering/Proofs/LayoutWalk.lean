import Lowering.Proofs.LaidOut
import Mathlib.Tactic.SplitIfs

/-!
# The walk that lays out a graph

What holds throughout the walk over a graph. A finished block is complete. A
block on the stack has its opening only, and knows the blocks of the destinations
looked at so far, counting the one that is being laid out as resolved already.
If none of these was new, then nothing was laid out since the block itself, so a
new destination comes right after it.
-/

namespace Lowering

universe u

variable {Tree : Type u}

/-- The destinations that have their blocks, with the one whose block is on the
stack above. -/
def Pending.resolvedWith (p : Pending Tree) (child : Option Nat) : List Destination :=
  p.resolved ++ child.toList.map fun k => ⟨k, false⟩

namespace Fragment

variable {f : Fragment} {k : Nat} {b : Block}

theorem getElem?_modifyBlock (j : Nat) (change : Block → Block) (hb : f.blocks[k]? = some b) :
    (f.modifyBlock j change).blocks[k]? = some (if j = k then change b else b) := by
  simp [modifyBlock, List.getElem?_modify, hb]

/-- An edge changes nothing about the code of blocks, and the successors only of
its source. -/
theorem getElem?_blocks_addEdge (source target : Nat) (hb : f.blocks[k]? = some b) :
    ∃ b', (f.addEdge source target).blocks[k]? = some b' ∧
      b'.label = b.label ∧ b'.instructions = b.instructions ∧
      b'.successors = if source = k then b.successors.insert target else b.successors := by
  refine ⟨_, getElem?_modifyBlock _ _ (getElem?_modifyBlock _ _ hb), ?_, ?_, ?_⟩ <;>
    split_ifs <;> rfl

theorem getElem?_blocks_addEdges (source : Nat) (targets : List Destination)
    (hb : f.blocks[k]? = some b) :
    ∃ b', (targets.foldl (fun f d => f.addEdge source d.block) f).blocks[k]? = some b' ∧
      b'.label = b.label ∧ b'.instructions = b.instructions ∧
      b'.successors = if source = k
        then b.successors.insertAll (targets.map Destination.block) else b.successors := by
  induction targets generalizing f b with
  | nil => exact ⟨b, hb, rfl, rfl, by simp⟩
  | cons d targets ih =>
      obtain ⟨c, hc, hlabel, hinstructions, hsuccessors⟩ :=
        getElem?_blocks_addEdge source d.block hb
      obtain ⟨b', hb', hlabel', hinstructions', hsuccessors'⟩ := ih hc
      refine ⟨b', hb', hlabel'.trans hlabel, hinstructions'.trans hinstructions, ?_⟩
      rw [hsuccessors', hsuccessors]
      split_ifs <;> rfl

theorem length_blocks_addEdges (f : Fragment) (source : Nat) (targets : List Destination) :
    (targets.foldl (fun f d => f.addEdge source d.block) f).blocks.length =
      f.blocks.length := by
  induction targets generalizing f with
  | nil => rfl
  | cons d targets ih =>
      rw [List.foldl_cons, ih]
      simp [addEdge, modifyBlock]

end Fragment

namespace Layout

variable {selection : Selection Tree} {graph : FlowGraph Tree} {w w' : Layout Tree}
  {p : Pending Tree} {rest : List (Pending Tree)} {order order' : List Nat}
  {blocks blocks' : List Block}

theorem firstNew?_append_existing (resolved : List Destination) (k : Nat) :
    firstNew? (resolved ++ [⟨k, true⟩]) = firstNew? resolved := by
  simp [firstNew?, List.find?_append]

theorem firstNew?_append_new (resolved : List Destination) (k : Nat) :
    firstNew? (resolved ++ [⟨k, false⟩]) = (firstNew? resolved).or (some ⟨k, false⟩) := by
  simp [firstNew?, List.find?_append]

theorem getElem?_append_of_eq_some {α : Type*} {l : List α} {k : Nat} {a : α}
    (h : l[k]? = some a) (l' : List α) : (l ++ l')[k]? = some a := by
  rwa [List.getElem?_append_left (List.getElem?_eq_some_iff.mp h).1]

theorem Resolved.mono {destinations : List Nat} {resolved : List Destination}
    (horder : ∀ k v : Nat, order[k]? = some v → order'[k]? = some v)
    (h : Resolved order destinations resolved) : Resolved order' destinations resolved :=
  List.Forall₂.imp (fun v (d : Destination) => horder d.block v) h

theorem Resolved.lt_length {destinations : List Nat} {resolved : List Destination}
    (h : Resolved order destinations resolved) {d : Destination} (hd : d ∈ resolved) :
    d.block < order.length := by
  obtain ⟨v, -, hv⟩ := h.exists_vertex hd
  exact (List.getElem?_eq_some_iff.mp hv).1

theorem Resolved.append {destinations : List Nat} {resolved : List Destination} {v : Nat}
    {d : Destination} (h : Resolved order destinations resolved)
    (hd : order[d.block]? = some v) : Resolved order (destinations ++ [v]) (resolved ++ [d]) :=
  List.rel_append h (.cons hd .nil)

theorem Written.mono {function : String} {number : Nat}
    {vertex : Vertex Tree} {b b' : Block} {resolved : List Destination}
    (horder : ∀ k v : Nat, order[k]? = some v → order'[k]? = some v)
    (hinstructions : b'.instructions = b.instructions) (hsuccessors : b'.successors = b.successors)
    (h : Written selection function order number vertex b resolved) :
    Written selection function order' number vertex b' resolved where
  instructions := hinstructions.trans h.instructions
  successors := hsuccessors ▸ h.successors
  destinations := h.destinations.mono horder
  next := h.next
  back := h.back

/-! ## Vertices on the stack -/

/-- What holds of a vertex on the stack. -/
structure PendingOk (selection : Selection Tree) (graph : FlowGraph Tree) (order : List Nat)
    (blocks : List Block) (child : Option Nat) (p : Pending Tree) : Prop where
  vertex : ∃ v, order[p.block]? = some v ∧ graph.vertices.get? v = some p.vertex
  opened : ∃ b, blocks[p.block]? = some b ∧
    b.instructions = opening selection (blockLabel graph.name p.block) p.vertex ∧
    b.successors = ∅
  resolved : ∃ done, p.vertex.destinations = done ++ p.remaining ∧
    Resolved order done (p.resolvedWith child)
  next : ∀ d, firstNew? (p.resolvedWith child) = some d → d.block = p.block + 1
  fresh : firstNew? (p.resolvedWith child) = none → blocks.length = p.block + 1

/-- What holds of the stack, when the block laid out above it is `child`. -/
def StackOk (selection : Selection Tree) (graph : FlowGraph Tree) (order : List Nat)
    (blocks : List Block) : Option Nat → List (Pending Tree) → Prop
  | _, [] => True
  | child, p :: rest =>
    PendingOk selection graph order blocks child p ∧
      StackOk selection graph order blocks (some p.block) rest

theorem PendingOk.lt_length {child : Option Nat}
    (h : PendingOk selection graph order blocks child p) : p.block < blocks.length := by
  obtain ⟨b, hb, -⟩ := h.opened
  exact (List.getElem?_eq_some_iff.mp hb).1

theorem StackOk.lt_length {child : Option Nat} {stack : List (Pending Tree)}
    (h : StackOk selection graph order blocks child stack) :
    ∀ k ∈ stack.map Pending.block, k < blocks.length := by
  induction stack generalizing child with
  | nil => simp
  | cons p stack ih =>
      intro k hk
      rcases List.mem_cons.mp hk with rfl | hk
      · exact h.1.lt_length
      · exact ih h.2 k hk

/-- Below another vertex, a vertex on the stack does not notice new blocks. -/
theorem PendingOk.transfer {child : Nat}
    (h : PendingOk selection graph order blocks (some child) p)
    (horder : ∀ k v : Nat, order[k]? = some v → order'[k]? = some v)
    (hblocks : ∀ b, blocks[p.block]? = some b → ∃ b', blocks'[p.block]? = some b' ∧
      b'.instructions = b.instructions ∧ b'.successors = b.successors) :
    PendingOk selection graph order' blocks' (some child) p where
  vertex := by
    obtain ⟨v, hv, hvertex⟩ := h.vertex
    exact ⟨v, horder _ v hv, hvertex⟩
  opened := by
    obtain ⟨b, hb, hinstructions, hsuccessors⟩ := h.opened
    obtain ⟨b', hb', hinstructions', hsuccessors'⟩ := hblocks b hb
    exact ⟨b', hb', hinstructions'.trans hinstructions, hsuccessors'.trans hsuccessors⟩
  resolved := by
    obtain ⟨done, hdone, hresolved⟩ := h.resolved
    exact ⟨done, hdone, hresolved.mono horder⟩
  next := h.next
  fresh := by
    intro hnone
    rw [Pending.resolvedWith, Option.toList_some, List.map_singleton,
      firstNew?_append_new] at hnone
    exact absurd hnone (by simp)

theorem StackOk.transfer {child : Nat} {stack : List (Pending Tree)}
    (h : StackOk selection graph order blocks (some child) stack)
    (horder : ∀ k v : Nat, order[k]? = some v → order'[k]? = some v)
    (hblocks : ∀ k ∈ stack.map Pending.block, ∀ b, blocks[k]? = some b →
      ∃ b', blocks'[k]? = some b' ∧
        b'.instructions = b.instructions ∧ b'.successors = b.successors) :
    StackOk selection graph order' blocks' (some child) stack := by
  induction stack generalizing child with
  | nil => trivial
  | cons p stack ih =>
      refine ⟨h.1.transfer horder (hblocks p.block (by simp)), ih h.2 fun k hk => ?_⟩
      exact hblocks k (List.mem_cons_of_mem _ hk)

/-- A vertex that was just reached has the last block, and nothing is resolved. -/
theorem pendingOk_opening {d : Nat} {vertex : Vertex Tree} (hlength : order.length = blocks.length)
    (hvertex : graph.vertices.get? d = some vertex) :
    PendingOk selection graph (order ++ [d])
      (blocks ++ [.unlinked (blockLabel graph.name blocks.length)
        (opening selection (blockLabel graph.name blocks.length) vertex)])
      none ⟨blocks.length, vertex, [], vertex.destinations⟩ where
  vertex := ⟨d, by simp [← hlength], hvertex⟩
  opened := ⟨_, List.getElem?_concat_length, rfl, rfl⟩
  resolved := ⟨[], rfl, .nil⟩
  next := by
    intro e he
    simp [Pending.resolvedWith, firstNew?] at he
  fresh := by
    intro _
    simp

/-- The vertex on top of the stack counts a block that is laid out for its next
destination as resolved. -/
theorem PendingOk.await {d : Nat} {remaining : List Nat}
    (h : PendingOk selection graph order blocks none p) (hlength : order.length = blocks.length)
    (hremaining : p.remaining = d :: remaining) (new : Block) :
    PendingOk selection graph (order ++ [d]) (blocks ++ [new]) (some blocks.length)
      { p with remaining } := by
  have hwith : Pending.resolvedWith { p with remaining } (some blocks.length) =
      p.resolvedWith none ++ [⟨blocks.length, false⟩] := by
    simp [Pending.resolvedWith]
  have hlast : (order ++ [d])[blocks.length]? = some d := by
    simp [← hlength]
  constructor
  · obtain ⟨v, hv, hvertex⟩ := h.vertex
    exact ⟨v, getElem?_append_of_eq_some hv _, hvertex⟩
  · obtain ⟨b, hb, hopened⟩ := h.opened
    exact ⟨b, getElem?_append_of_eq_some hb _, hopened⟩
  · obtain ⟨done, hdone, hresolved⟩ := h.resolved
    refine ⟨done ++ [d], by simp [hdone, hremaining], ?_⟩
    rw [hwith]
    exact (hresolved.mono fun k v hv => getElem?_append_of_eq_some hv _).append hlast
  · intro e he
    rw [hwith, firstNew?_append_new] at he
    cases hfirst : firstNew? (p.resolvedWith none) with
    | some e' =>
        rw [hfirst, Option.some_or, Option.some.injEq] at he
        exact h.next e (he ▸ hfirst)
    | none =>
        rw [hfirst, Option.none_or, Option.some.injEq] at he
        subst he
        exact h.fresh hfirst
  · intro hnone
    rw [hwith, firstNew?_append_new] at hnone
    exact absurd hnone (by simp)

/-- When the vertex above is finished, its block is noted below. -/
theorem StackOk.resolve {child : Nat} {stack : List (Pending Tree)}
    (h : StackOk selection graph order blocks (some child) stack) :
    StackOk selection graph order blocks none (resolve ⟨child, false⟩ stack) := by
  cases stack with
  | nil => trivial
  | cons q stack =>
      have hwith : Pending.resolvedWith { q with resolved := q.resolved ++ [⟨child, false⟩] }
          none = q.resolvedWith (some child) := by
        simp [Pending.resolvedWith]
      obtain ⟨hq, hstack⟩ := h
      refine ⟨⟨hq.vertex, hq.opened, ?_, ?_, ?_⟩, hstack⟩
      · rw [hwith]
        exact hq.resolved
      · rw [hwith]
        exact hq.next
      · rw [hwith]
        exact hq.fresh

theorem map_block_resolve (d : Destination) (stack : List (Pending Tree)) :
    (Layout.resolve d stack).map Pending.block = stack.map Pending.block := by
  cases stack <;> rfl

/-! ## One step of the walk -/

theorem enter_of_vertex (selection : Selection Tree) (w : Layout Tree)
    {vertex : Vertex Tree} {number : Nat} (h : graph.vertices.get? number = some vertex) :
    enter selection graph w number = .ok {
      visited := w.visited.insert number
      code := { w.code with
        blocks := w.code.blocks ++ [.unlinked (blockLabel graph.name w.code.blocks.length)
          (opening selection (blockLabel graph.name w.code.blocks.length) vertex)] }
      pending := ⟨w.code.blocks.length, vertex, [], vertex.destinations⟩ :: w.pending } := by
  simp [enter, h]

theorem getElem?_of_block? {vertex k : Nat} (h : w.block? vertex = some k) :
    w.visited.toList[k]? = some vertex := by
  obtain ⟨hlt, heq, -⟩ := List.idxOf?_eq_some_iff.mp h
  rw [List.getElem?_eq_getElem hlt, heq]

/-- What holds between two steps of the walk. -/
structure Consistent (selection : Selection Tree) (graph : FlowGraph Tree) (w : Layout Tree) :
    Prop where
  length : w.visited.toList.length = w.code.blocks.length
  initial : w.visited.toList[0]? = some graph.initial
  reachable : ∀ v ∈ w.visited, graph.Reachable v
  labels : ∀ k b, w.code.blocks[k]? = some b → b.label = blockLabel graph.name k
  stack : StackOk selection graph w.visited.toList w.code.blocks none w.pending
  distinct : (w.pending.map Pending.block).Nodup
  finished : ∀ k v, w.visited.toList[k]? = some v → ¬ k ∈ w.pending.map Pending.block →
    ∃ vertex b resolved, graph.vertices.get? v = some vertex ∧
      w.code.blocks[k]? = some b ∧
      Written selection graph.name w.visited.toList k vertex b resolved

theorem PendingOk.reachable {child : Option Nat}
    (hreachable : ∀ v ∈ order, graph.Reachable v)
    (h : PendingOk selection graph order blocks child p) {d : Nat} (hd : d ∈ p.remaining) :
    graph.Reachable d := by
  obtain ⟨v, hv, hvertex⟩ := h.vertex
  obtain ⟨done, hdone, -⟩ := h.resolved
  refine .next (hreachable v (List.mem_of_getElem? hv)) hvertex ?_
  rw [hdone]
  exact List.mem_append_right _ hd

/-- The walk after its first vertex. -/
theorem consistent_start {vertex : Vertex Tree}
    (hvertex : graph.vertices.get? graph.initial = some vertex)
    (h : enter selection graph (start graph) graph.initial = .ok w) :
    Consistent selection graph w := by
  rw [enter_of_vertex selection (start graph) hvertex] at h
  obtain rfl := Except.ok.inj h
  have hvisited : ((∅ : InsertionSet Nat).insert graph.initial).toList = [graph.initial] :=
    InsertionSet.toList_insert_of_not_mem (InsertionSet.not_mem_empty _)
  constructor
  · simp [start, hvisited]
  · simp [start, hvisited]
  · intro v hv
    obtain rfl : v = graph.initial := by simpa [start] using hv
    exact .initial
  · intro k b hb
    obtain ⟨rfl, rfl⟩ : k = 0 ∧ _ = b := by
      simpa [start, List.getElem?_singleton] using hb
    rfl
  · have hlength : ([] : List Nat).length = ([] : List Block).length := rfl
    simp only [start, hvisited]
    exact ⟨pendingOk_opening hlength hvertex, trivial⟩
  · exact List.pairwise_singleton _ _
  · intro k v hv hk
    have hlt := (List.getElem?_eq_some_iff.mp hv).1
    simp [start, hvisited] at hlt
    simp [start, hlt] at hk

/-- A destination that has a block already is noted. -/
theorem Consistent.step_existing {d k : Nat} {remaining : List Nat}
    (h : Consistent selection graph w) (hpending : w.pending = p :: rest)
    (hremaining : p.remaining = d :: remaining) (hk : w.block? d = some k) :
    Consistent selection graph { w with
      pending := { p with remaining, resolved := p.resolved ++ [⟨k, true⟩] } :: rest } := by
  have hstack := h.stack
  have hdistinct := h.distinct
  have hfinished := h.finished
  rw [hpending] at hstack hdistinct hfinished
  obtain ⟨hp, hrest⟩ := hstack
  have hwith : Pending.resolvedWith
      { p with remaining, resolved := p.resolved ++ [⟨k, true⟩] } none =
        p.resolvedWith none ++ [⟨k, true⟩] := by
    simp [Pending.resolvedWith]
  refine ⟨h.length, h.initial, h.reachable, h.labels, ⟨⟨hp.vertex, hp.opened, ?_, ?_, ?_⟩,
    hrest⟩, hdistinct, hfinished⟩
  · obtain ⟨done, hdone, hresolved⟩ := hp.resolved
    refine ⟨done ++ [d], by simp [hdone, hremaining], ?_⟩
    rw [hwith]
    exact hresolved.append (getElem?_of_block? hk)
  · rw [hwith, firstNew?_append_existing]
    exact hp.next
  · rw [hwith, firstNew?_append_existing]
    exact hp.fresh

/-- A destination without a block gets one, after all the others. -/
theorem Consistent.step_new {d : Nat} {remaining : List Nat} {vertex : Vertex Tree}
    (h : Consistent selection graph w) (hpending : w.pending = p :: rest)
    (hremaining : p.remaining = d :: remaining) (hnew : w.block? d = none)
    (hvertex : graph.vertices.get? d = some vertex) :
    Consistent selection graph {
      visited := w.visited.insert d
      code := { w.code with
        blocks := w.code.blocks ++ [.unlinked (blockLabel graph.name w.code.blocks.length)
          (opening selection (blockLabel graph.name w.code.blocks.length) vertex)] }
      pending := ⟨w.code.blocks.length, vertex, [], vertex.destinations⟩ ::
        { p with remaining } :: rest } := by
  have hstack := h.stack
  have hdistinct := h.distinct
  have hfinished := h.finished
  rw [hpending] at hstack hdistinct hfinished
  obtain ⟨hp, hrest⟩ := hstack
  have hvisited : (w.visited.insert d).toList = w.visited.toList ++ [d] :=
    InsertionSet.toList_insert_of_not_mem (block?_eq_none.mp hnew)
  have horder : ∀ k v : Nat, w.visited.toList[k]? = some v →
      (w.visited.toList ++ [d])[k]? = some v :=
    fun _ _ hv => getElem?_append_of_eq_some hv _
  constructor
  · simp [hvisited, h.length]
  · rw [hvisited]
    exact horder 0 _ h.initial
  · intro v hv
    rcases InsertionSet.mem_insert.mp hv with hv | rfl
    · exact h.reachable v hv
    · exact hp.reachable h.reachable (hremaining ▸ List.mem_cons_self)
  · intro k b hb
    by_cases hk : k < w.code.blocks.length
    · exact h.labels k b (by simpa [List.getElem?_append_left hk] using hb)
    · rw [List.getElem?_append_right (Nat.le_of_not_lt hk)] at hb
      obtain ⟨hlt, rfl⟩ := List.getElem?_eq_some_iff.mp hb
      obtain rfl : k = w.code.blocks.length := by
        simp at hlt
        omega
      simp [Block.unlinked]
  · rw [hvisited]
    refine ⟨pendingOk_opening h.length hvertex, hp.await h.length hremaining _, ?_⟩
    exact hrest.transfer horder fun _ _ b hb => ⟨b, getElem?_append_of_eq_some hb _, rfl, rfl⟩
  · refine List.nodup_cons.mpr ⟨fun hmem => ?_, hdistinct⟩
    have hall : StackOk selection graph w.visited.toList w.code.blocks none (p :: rest) :=
      ⟨hp, hrest⟩
    exact Nat.lt_irrefl _ (hall.lt_length _ hmem)
  · intro k v hv hk
    rw [hvisited] at hv ⊢
    have hne : k ≠ w.code.blocks.length := fun heq => hk (heq ▸ List.mem_cons_self)
    have hlt : k < w.visited.toList.length := by
      have hlt := (List.getElem?_eq_some_iff.mp hv).1
      rw [List.length_append, List.length_singleton, h.length] at hlt
      rw [h.length]
      omega
    rw [List.getElem?_append_left hlt] at hv
    obtain ⟨vertex', b, resolved, hvertex', hb, hwritten⟩ :=
      hfinished k v hv fun hmem => hk (List.mem_cons_of_mem _ hmem)
    exact ⟨vertex', b, resolved, hvertex', getElem?_append_of_eq_some hb _,
      hwritten.mono horder rfl rfl⟩

/-- What finishing a vertex does to the blocks. -/
theorem getElem?_blocks_finish (selection : Selection Tree) (graph : FlowGraph Tree)
    (p : Pending Tree) {code : Fragment} {k : Nat} {b : Block}
    (hb : code.blocks[k]? = some b) :
    ∃ b', (finish selection graph code p).blocks[k]? = some b' ∧ b'.label = b.label ∧
      b'.instructions = (if p.block = k
        then b.instructions ++ closing selection graph.name p.vertex p.resolved
        else b.instructions) ∧
      b'.successors = if p.block = k
        then b.successors.insertAll (p.resolved.reverse.map Destination.block)
        else b.successors := by
  have hclosed := Fragment.getElem?_modifyBlock p.block
    (fun b => b.append (closing selection graph.name p.vertex p.resolved)) hb
  obtain ⟨b', hb', hlabel, hinstructions, hsuccessors⟩ :=
    Fragment.getElem?_blocks_addEdges p.block p.resolved.reverse hclosed
  refine ⟨b', hb', ?_, ?_, ?_⟩
  · rw [hlabel]
    split_ifs <;> rfl
  · rw [hinstructions]
    split_ifs <;> rfl
  · rw [hsuccessors]
    split_ifs <;> rfl

theorem length_blocks_finish (selection : Selection Tree) (graph : FlowGraph Tree)
    (p : Pending Tree) (code : Fragment) :
    (finish selection graph code p).blocks.length = code.blocks.length :=
  (Fragment.length_blocks_addEdges _ _ _).trans (by simp [Fragment.modifyBlock])

/-- A vertex whose destinations all have their blocks is finished. -/
theorem Consistent.step_finish (h : Consistent selection graph w) (hpending : w.pending = p :: rest)
    (hremaining : p.remaining = []) :
    Consistent selection graph { w with
      code := finish selection graph w.code p
      pending := Layout.resolve ⟨p.block, false⟩ rest } := by
  have hstack := h.stack
  have hdistinct := h.distinct
  have hfinished := h.finished
  rw [hpending] at hstack hdistinct hfinished
  obtain ⟨hp, hrest⟩ := hstack
  obtain ⟨hnotmem, hdistinct⟩ := List.nodup_cons.mp hdistinct
  have hother : ∀ k b, k ≠ p.block → w.code.blocks[k]? = some b →
      ∃ b', (finish selection graph w.code p).blocks[k]? = some b' ∧
        b'.instructions = b.instructions ∧ b'.successors = b.successors := by
    intro k b hk hb
    obtain ⟨b', hb', -, hinstructions, hsuccessors⟩ :=
      getElem?_blocks_finish selection graph p hb
    exact ⟨b', hb', by simpa [hk.symm] using hinstructions, by simpa [hk.symm] using hsuccessors⟩
  constructor
  · exact h.length.trans (length_blocks_finish selection graph p w.code).symm
  · exact h.initial
  · exact h.reachable
  · intro k b' hb'
    have hk : k < w.code.blocks.length := by
      rw [← length_blocks_finish selection graph p w.code]
      exact (List.getElem?_eq_some_iff.mp hb').1
    obtain ⟨b, hb⟩ : ∃ b, w.code.blocks[k]? = some b := ⟨_, List.getElem?_eq_getElem hk⟩
    obtain ⟨b'', hb'', hlabel, -⟩ :=
      getElem?_blocks_finish selection graph p hb
    obtain rfl : b'' = b' := Option.some.inj (hb''.symm.trans hb')
    exact hlabel.trans (h.labels k b hb)
  · refine StackOk.resolve (hrest.transfer (fun _ _ => id) fun k hk b hb => ?_)
    exact hother k b (fun heq => hnotmem (heq ▸ hk)) hb
  · rw [map_block_resolve]
    exact hdistinct
  · intro k v hv hk
    rw [map_block_resolve] at hk
    by_cases hkp : k = p.block
    · subst hkp
      obtain ⟨v', hv', hvertex⟩ := hp.vertex
      obtain rfl : v' = v := Option.some.inj (hv'.symm.trans hv)
      obtain ⟨b, hb, hinstructions, hsuccessors⟩ := hp.opened
      obtain ⟨b', hb', -, hinstructions', hsuccessors'⟩ :=
        getElem?_blocks_finish selection graph p hb
      obtain ⟨done, hdone, hresolved⟩ := hp.resolved
      have hall : Resolved w.visited.toList p.vertex.destinations p.resolved := by
        simpa [Pending.resolvedWith, hdone, hremaining] using hresolved
      refine ⟨p.vertex, b', p.resolved, hvertex, hb', ?_, ?_, hall, ?_, ?_⟩
      · rw [hinstructions', if_pos rfl, hinstructions]
      · intro j
        rw [hsuccessors', if_pos rfl, hsuccessors]
        simp
      · simpa [Pending.resolvedWith] using hp.next
      · intro hnone d hd
        have hlength := hp.fresh (by simpa [Pending.resolvedWith] using hnone)
        have hlt := hall.lt_length hd
        rw [h.length, hlength] at hlt
        exact Nat.le_of_lt_succ hlt
    · obtain ⟨vertex, b, resolved, hvertex, hb, hwritten⟩ :=
        hfinished k v hv fun hmem => (List.mem_cons.mp hmem).elim hkp hk
      obtain ⟨b', hb', hinstructions, hsuccessors⟩ := hother k b hkp hb
      exact ⟨vertex, b', resolved, hvertex, hb',
        hwritten.mono (fun _ _ => id) hinstructions hsuccessors⟩

/-- A step notes a destination, lays out a new one, fails for want of a vertex,
or finishes a vertex. -/
theorem step_cases (selection : Selection Tree) (graph : FlowGraph Tree)
    (hpending : w.pending = p :: rest) :
    (∃ d remaining k, p.remaining = d :: remaining ∧ w.block? d = some k ∧
      step selection graph w = .ok { w with
        pending := { p with remaining, resolved := p.resolved ++ [⟨k, true⟩] } :: rest }) ∨
    (∃ d remaining vertex, p.remaining = d :: remaining ∧ w.block? d = none ∧
      graph.vertices.get? d = some vertex ∧
      step selection graph w = .ok {
        visited := w.visited.insert d
        code := { w.code with
          blocks := w.code.blocks ++ [.unlinked (blockLabel graph.name w.code.blocks.length)
            (opening selection (blockLabel graph.name w.code.blocks.length) vertex)] }
        pending := ⟨w.code.blocks.length, vertex, [], vertex.destinations⟩ ::
          { p with remaining } :: rest }) ∨
    (∃ d remaining, p.remaining = d :: remaining ∧ graph.vertices.get? d = none ∧
      step selection graph w = .error (.invalidInput (.missingVertex graph.name d))) ∨
    p.remaining = [] ∧ step selection graph w = .ok { w with
      code := finish selection graph w.code p
      pending := Layout.resolve ⟨p.block, false⟩ rest } := by
  cases hremaining : p.remaining with
  | nil =>
      refine .inr (.inr (.inr ⟨rfl, ?_⟩))
      simp [step, hpending, hremaining]
  | cons d remaining =>
      cases hblock : w.block? d with
      | some k =>
          refine .inl ⟨d, remaining, k, rfl, hblock, ?_⟩
          simp [step, hpending, hremaining, hblock, Layout.resolve]
      | none =>
          cases hvertex : graph.vertices.get? d with
          | some vertex =>
              refine .inr (.inl ⟨d, remaining, vertex, rfl, hblock, hvertex, ?_⟩)
              simp [step, hpending, hremaining, hblock, enter_of_vertex selection _ hvertex]
          | none =>
              refine .inr (.inr (.inl ⟨d, remaining, rfl, hvertex, ?_⟩))
              simp [step, hpending, hremaining, hblock, enter, hvertex]

theorem run_of_error {e : Error} (hpending : w.pending ≠ [])
    (h : step selection graph w = .error e) : w.run selection graph = .error e := by
  rw [Layout.run, dif_neg hpending]
  split
  · rename_i e' he'
    rw [Except.error.inj (he'.symm.trans h)]
  · rename_i w' hw'
    exact absurd (hw'.symm.trans h) (by simp)

theorem run_of_ok {w' : Layout Tree} (hpending : w.pending ≠ [])
    (h : step selection graph w = .ok w') : w.run selection graph = w'.run selection graph := by
  rw [Layout.run, dif_neg hpending]
  split
  · rename_i e he
    exact absurd (he.symm.trans h) (by simp)
  · rename_i w₁ hw₁
    rw [Except.ok.inj (hw₁.symm.trans h)]

/-- The error of a graph in which a vertex that can be reached is missing. -/
def Misses (graph : FlowGraph Tree) (e : Error) : Prop :=
  ∃ v, graph.Reachable v ∧ graph.vertices.get? v = none ∧
    e = .invalidInput (.missingVertex graph.name v)

/-- A step keeps the walk consistent, or finds a vertex that can be reached and
is missing. -/
theorem Consistent.step (h : Consistent selection graph w) (hpending : w.pending ≠ []) :
    (∃ w', Layout.step selection graph w = .ok w' ∧ Consistent selection graph w') ∨
      ∃ e, Layout.step selection graph w = .error e ∧ Misses graph e := by
  obtain ⟨p, rest, hp⟩ := List.exists_cons_of_ne_nil hpending
  rcases step_cases selection graph hp with
    ⟨d, remaining, k, hremaining, hk, hstep⟩ | ⟨d, remaining, vertex, hremaining, hnew, hv, hstep⟩ |
    ⟨d, remaining, hremaining, hmissing, hstep⟩ | ⟨hremaining, hstep⟩
  · exact .inl ⟨_, hstep, h.step_existing hp hremaining hk⟩
  · exact .inl ⟨_, hstep, h.step_new hp hremaining hnew hv⟩
  · have hstack := h.stack
    rw [hp] at hstack
    exact .inr ⟨_, hstep, d, hstack.1.reachable h.reachable (hremaining ▸ List.mem_cons_self),
      hmissing, rfl⟩
  · exact .inl ⟨_, hstep, h.step_finish hp hremaining⟩

/-! ## The whole walk -/

def walk (selection : Selection Tree) (graph : FlowGraph Tree) :
    Nat → Layout Tree → Except Error (Layout Tree)
  | 0, w => .ok w
  | n + 1, w => step selection graph w >>= walk selection graph n

theorem walk_succ_of_ok {w' : Layout Tree} (h : step selection graph w = .ok w') (n : Nat) :
    walk selection graph (n + 1) w = walk selection graph n w' := by
  rw [walk, h]
  rfl

/-- What every step keeps holds after any number of steps. -/
theorem walk_keep {P : Layout Tree → Prop}
    (hstep : ∀ w w', P w → w.pending ≠ [] → step selection graph w = .ok w' → P w') {n : Nat}
    (hwalk : walk selection graph n w = .ok w') (h : P w) : P w' := by
  induction n generalizing w with
  | zero => exact Except.ok.inj hwalk ▸ h
  | succ n ih =>
      cases hw : step selection graph w with
      | error e =>
          rw [walk, hw] at hwalk
          cases hwalk
      | ok w₁ =>
          rw [walk_succ_of_ok hw] at hwalk
          refine ih hwalk ?_
          by_cases hpending : w.pending = []
          · have hsame : step selection graph w = .ok w := by simp [step, hpending]
            exact Except.ok.inj (hsame.symm.trans hw) ▸ h
          · exact hstep w w₁ h hpending hw

/-- The walk comes to its end within the bound for its steps: every vertex is finished, or
the next step fails. -/
theorem run_ends (selection : Selection Tree) (graph : FlowGraph Tree) (w : Layout Tree) :
    ∃ n w', n ≤ w.work graph ∧ walk selection graph n w = .ok w' ∧
      ((w'.pending = [] ∧ w.run selection graph = .ok w'.code) ∨
        w'.pending ≠ [] ∧ ∃ e, step selection graph w' = .error e ∧
          w.run selection graph = .error e) := by
  induction w using Layout.run.induct selection graph with
  | case1 w hpending =>
      refine ⟨0, w, Nat.zero_le _, rfl, .inl ⟨hpending, ?_⟩⟩
      rw [Layout.run, dif_pos hpending]
  | case2 w hpending e he =>
      exact ⟨0, w, Nat.zero_le _, rfl, .inr ⟨hpending, e, he, run_of_error hpending he⟩⟩
  | case3 w hpending w₁ hok ih =>
      obtain ⟨n, w', hn, hwalk, hend⟩ := ih
      refine ⟨n + 1, w', Nat.le_trans (Nat.succ_le_succ hn) (work_step_lt hpending hok), ?_, ?_⟩
      · rw [walk_succ_of_ok hok]
        exact hwalk
      · rw [run_of_ok hpending hok]
        exact hend

/-- If every step keeps a property of the walk or fails in some way, then so does the
whole walk. -/
theorem run_cases {P : Layout Tree → Prop} {E : Error → Prop}
    (hstep : ∀ w, P w → w.pending ≠ [] →
      (∃ w', step selection graph w = .ok w' ∧ P w') ∨ ∃ e, step selection graph w = .error e ∧ E e)
    (h : P w) :
    (∃ w', P w' ∧ w'.pending = [] ∧ w.run selection graph = .ok w'.code) ∨
      ∃ e, w.run selection graph = .error e ∧ E e := by
  have hkeep : ∀ w w', P w → w.pending ≠ [] → step selection graph w = .ok w' → P w' := by
    intro w w' hw hpending hok
    rcases hstep w hw hpending with ⟨w₁, hok', hw₁⟩ | ⟨e, herror, -⟩
    · exact Except.ok.inj (hok'.symm.trans hok) ▸ hw₁
    · simp [herror] at hok
  obtain ⟨n, w', -, hwalk, ⟨hpending, hrun⟩ | ⟨hpending, e, he, hrun⟩⟩ :=
    run_ends selection graph w
  · exact .inl ⟨w', walk_keep hkeep hwalk h, hpending, hrun⟩
  · rcases hstep w' (walk_keep hkeep hwalk h) hpending with ⟨w₁, hok, -⟩ | ⟨e', herror, he'⟩
    · simp [hok] at he
    · obtain rfl := Except.error.inj (he.symm.trans herror)
      exact .inr ⟨e, hrun, he'⟩

/-- The code is that of the vertices in the given order, each written out in its block. -/
structure Complete (selection : Selection Tree) (graph : FlowGraph Tree) (order : List Nat)
    (f : Fragment) : Prop where
  nodup : order.Nodup
  length : order.length = f.blocks.length
  initial : order[0]? = some graph.initial
  reachable : ∀ v ∈ order, graph.Reachable v
  labels : ∀ k b, f.blocks[k]? = some b → b.label = blockLabel graph.name k
  written : ∀ k v, order[k]? = some v → ∃ vertex b resolved,
    graph.vertices.get? v = some vertex ∧ f.blocks[k]? = some b ∧
      Written selection graph.name order k vertex b resolved

theorem Consistent.complete (h : Consistent selection graph w) (hpending : w.pending = []) :
    Complete selection graph w.visited.toList w.code where
  nodup := w.visited.nodup
  length := h.length
  initial := h.initial
  reachable := h.reachable
  labels := h.labels
  written := fun k v hv => h.finished k v hv (by simp [hpending])

theorem Complete.laidOut {condition : Tree → List Instruction} {f : Fragment}
    (hlawful : selection.Lawful condition) (h : Complete selection graph order f) :
    LaidOut (selection.work condition) graph order f where
  nodup := h.nodup
  length := h.length
  initial := h.initial
  labels := h.labels
  implements := by
    intro k v hv
    obtain ⟨vertex, b, resolved, hvertex, hb, hwritten⟩ := h.written k v hv
    exact ⟨vertex, b, resolved, hvertex, hb, hwritten.implements hlawful⟩

end Layout

/-- What holds after the first vertex and is kept by every step holds of the finished
layout, if there is one. -/
theorem FlowGraph.layOut_run_cases {selection : Selection Tree} (graph : FlowGraph Tree)
    {P : Layout Tree → Prop} {E : Error → Prop}
    (hmissing : graph.vertices.get? graph.initial = none →
      E (.invalidInput (.missingVertex graph.name graph.initial)))
    (hstart : ∀ vertex w, graph.vertices.get? graph.initial = some vertex →
      Layout.enter selection graph (Layout.start graph) graph.initial = .ok w → P w)
    (hstep : ∀ w, P w → w.pending ≠ [] →
      (∃ w', Layout.step selection graph w = .ok w' ∧ P w') ∨
        ∃ e, Layout.step selection graph w = .error e ∧ E e) :
    (∃ w, P w ∧ w.pending = [] ∧ graph.layOut selection = .ok w.code) ∨
      ∃ e, graph.layOut selection = .error e ∧ E e := by
  cases hvertex : graph.vertices.get? graph.initial with
  | none =>
      refine .inr ⟨_, ?_, hmissing hvertex⟩
      simp [layOut, Layout.enter, hvertex]
  | some vertex =>
      have henter := Layout.enter_of_vertex selection (Layout.start graph) hvertex
      rw [layOut, henter]
      exact Layout.run_cases hstep (hstart vertex _ hvertex henter)

/-- A graph is laid out, or a vertex that can be reached is missing. -/
theorem FlowGraph.layOut_cases {selection : Selection Tree}
    {condition : Tree → List Instruction} (hlawful : selection.Lawful condition)
    (graph : FlowGraph Tree) :
    (∃ order f, graph.layOut selection = .ok f ∧
      Layout.LaidOut (selection.work condition) graph order f ∧ ∀ v ∈ order, graph.Reachable v) ∨
    ∃ v, graph.Reachable v ∧ graph.vertices.get? v = none ∧
      graph.layOut selection = .error (.invalidInput (.missingVertex graph.name v)) := by
  rcases graph.layOut_run_cases (fun hvertex => ⟨_, .initial, hvertex, rfl⟩)
    (fun _ _ => Layout.consistent_start) (fun _ => Layout.Consistent.step) with
    ⟨w, hw, hpending, hok⟩ | ⟨_, herror, v, hreachable, hmissing, rfl⟩
  · exact .inl ⟨_, _, hok, (hw.complete hpending).laidOut hlawful, hw.reachable⟩
  · exact .inr ⟨v, hreachable, hmissing, herror⟩

theorem FlowGraph.exists_laidOut {selection : Selection Tree}
    {condition : Tree → List Instruction} (hlawful : selection.Lawful condition)
    {graph : FlowGraph Tree} {f : Fragment} (h : graph.layOut selection = .ok f) :
    ∃ order, Layout.LaidOut (selection.work condition) graph order f := by
  rcases graph.layOut_cases hlawful with ⟨order, f', hlayOut, hlaid, -⟩ | ⟨v, -, -, herror⟩
  · obtain rfl := Except.ok.inj (hlayOut.symm.trans h)
    exact ⟨order, hlaid⟩
  · exact absurd (herror.symm.trans h) (by simp)

end Lowering
