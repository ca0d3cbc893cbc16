import Lowering.Proofs.Entry
import Lowering.Proofs.LayoutRun
import Lowering.Proofs.Placement
import Lowering.Proofs.SpillRewriting

/-!
# Compiled functions run like their graphs

What can be observed of a run are the computations with the values that they read.
A compiled function, run on hardware registers and a stack, does the computations
that its graph does on registers of its own, in the same order and on the same
values.
-/

namespace Lowering

universe u v w

variable {Tree : Type u} {L : Type v} {Value : Type w}

/-! ## Machines that are observed -/

/-- The current condition, and the computations so far with the values that they
have read. -/
structure Observed (Value : Type w) where
  condition : Bool
  computed : List (String × List Value)

/-- What computations do, by name: from the values read come the values written and
the condition. -/
abbrev Computations (Value : Type w) := String → List Value → (Nat → Value) × Bool

/-- Does the computations and takes note of them. Other instructions leave the
condition alone. -/
def observing [Inhabited Value] (compute : Computations Value) :
    Interpretation Value (Observed Value) :=
  fun i values e =>
    match i.computation? with
    | some name =>
      ((compute name values).1, ⟨(compute name values).2, e.computed ++ [(name, values)]⟩)
    | none => (fun _ => default, e)

/-- The machine that runs instructions under a naming of its registers. -/
def machine [DecidableEq L] (interpret : Interpretation Value (Observed Value))
    (name : Register → L) : Processor (MachineState L Value (Stack Value (Observed Value))) where
  perform := execute (withStack interpret) name
  decide s := (s.env.rest.condition, s)

/-- What can be observed of a run: whether it has come to its end, and what it has
done. Nothing can be observed of a run that is lost. -/
def Stage.observed : Stage (MachineState L Value (Stack Value (Observed Value))) →
    Option (Bool × Observed Value)
  | running _ s => some (false, s.env.rest)
  | finished s => some (true, s.env.rest)
  | lost => none

/-! ## Selections to rely on -/

namespace Selection

/-- A selection uses an instruction. -/
def Emits (selection : Selection Tree) (condition : Tree → List Instruction) (i : Instruction) :
    Prop :=
  (∃ vertex, i ∈ selection.work condition vertex) ∨ ∃ t, i ∈ selection.coverTransfer t

/-- The code of a selection leaves control alone up to a final branch, its copies
are pure, and its moves to and from the stack do nothing else. -/
structure Faithful (selection : Selection Tree) (condition : Tree → List Instruction)
    (interpret : Interpretation Value (Observed Value)) : Prop where
  straight : ∀ i, selection.Emits condition i → i.isStraight = true
  copiesArePure : ∀ i, selection.Emits condition i → i.CopyIsPure
  coverBranch_eq : ∀ tree label jumpIf,
    selection.coverBranch tree label jumpIf = condition tree ++ [.branch label jumpIf]
  transfersExactly : ∀ name : Register → HardwareRegister,
    selection.TransfersExactly interpret name

theorem Faithful.lawful {selection : Selection Tree} {condition : Tree → List Instruction}
    {interpret : Interpretation Value (Observed Value)}
    (h : selection.Faithful condition interpret) : selection.Lawful condition :=
  ⟨fun vertex i hi => h.straight i (.inl ⟨vertex, hi⟩), h.coverBranch_eq⟩

theorem sequential_faithful (interpret : Interpretation Value (Observed Value)) :
    Selection.sequential.Faithful Selection.sequential.cover interpret := by
  have hoperate : ∀ i, Selection.sequential.Emits Selection.sequential.cover i →
      ∃ o, i = .operate o := by
    rintro i (⟨vertex, hi⟩ | ⟨t, hi⟩)
    · exact exists_operate_of_mem_work hi
    · exact ⟨_, List.mem_singleton.mp hi⟩
  refine ⟨fun i hi => ?_, fun i hi => ?_, fun _ _ _ => rfl,
    fun _ => sequential_transfersExactly⟩
  · obtain ⟨o, rfl⟩ := hoperate i hi
    rfl
  · obtain ⟨o, rfl⟩ := hoperate i hi
    exact Instruction.copyIsPure_operate o

end Selection

/-! ## Code with spills is laid out like the code itself -/

section Replace

variable {selection : Selection Tree} {condition : Tree → List Instruction}
  {interpret : Interpretation Value (Observed Value)}
  {work : Vertex Tree → List Instruction} {graph : FlowGraph Tree} {order : List Nat} {f : Fragment}
  {slots : InsertionMap VirtualRegister FrameSlot} {backups : List HardwareRegister}
  {i j : Instruction}

theorem Layout.LaidOut.replace (h : LaidOut work graph order f)
    {code : Instruction → List Instruction}
    (hcontrol : ∀ i, i.isStraight = false → code i = [i]) :
    LaidOut (fun vertex => (work vertex).flatMap code) graph order (f.replace code) := by
  have hjumps : ∀ control : List Instruction, (∀ i ∈ control, i.isStraight = false) →
      control.flatMap code = control := by
    intro control hstays
    calc control.flatMap code = control.flatMap fun i => [i] :=
          List.flatMap_congr fun i hi => hcontrol i (hstays i hi)
      _ = control := List.flatMap_singleton' control
  constructor
  case nodup => exact h.nodup
  case length => simpa [Fragment.replace] using h.length
  case initial => exact h.initial
  case labels =>
    intro k b hb
    simp only [Fragment.replace, List.getElem?_map, Option.map_eq_some_iff] at hb
    obtain ⟨b', hb', rfl⟩ := hb
    exact h.labels k b' hb'
  case implements =>
    intro k v hk
    obtain ⟨vertex, b, resolved, hvertex, hb, himplements⟩ := h.implements k v hk
    refine ⟨vertex, _, resolved, hvertex, Fragment.getElem?_blocks_replace hb,
      ⟨?_, himplements.successors, himplements.destinations, himplements.next⟩⟩
    rw [himplements.instructions, List.flatMap_append, List.flatMap_cons, hcontrol _ rfl,
      hjumps _ fun i => not_isStraight_of_mem_jumps]
    rfl

theorem Layout.LaidOut.instruction_cases (h : LaidOut work graph order f)
    (hi : i ∈ f.instructions) :
    i.isStraight = false ∨
      ∃ v vertex, graph.vertices.get? v = some vertex ∧ i ∈ work vertex := by
  obtain ⟨b, hb, hi⟩ := List.mem_flatMap.mp hi
  obtain ⟨k, hk⟩ := List.mem_iff_getElem?.mp hb
  obtain ⟨v, hv⟩ := h.exists_vertex hk
  obtain ⟨vertex, b', resolved, hvertex, hb', himplements⟩ := h.implements k v hv
  obtain rfl := Option.some.inj (hb'.symm.trans hk)
  rw [himplements.instructions, List.cons_append, List.mem_cons, List.mem_append] at hi
  rcases hi with rfl | hi | hi
  · exact .inl rfl
  · exact .inr ⟨v, vertex, hvertex, hi⟩
  · exact .inl (not_isStraight_of_mem_jumps hi)

theorem Selection.Faithful.straight_of_mem_codeFor (h : selection.Faithful condition interpret)
    (hbackups : backups.Nodup) {vertex : Vertex Tree}
    (hi : i ∈ (selection.work condition vertex).flatMap
      (Spill.codeFor selection slots backups)) : i.isStraight = true := by
  obtain ⟨j, hj, hi⟩ := List.mem_flatMap.mp hi
  have hemits : selection.Emits condition j := .inl ⟨vertex, hj⟩
  rcases Spill.mem_codeFor_cases (h.copiesArePure j hemits) hbackups hi with ⟨g, rfl⟩ | ⟨t, ht⟩
  · rw [Instruction.isStraight_map, h.straight j hemits]
  · exact h.straight i (.inr ⟨t, ht⟩)

theorem Layout.LaidOut.copiesArePure (h : LaidOut (selection.work condition) graph order f)
    (hfaithful : selection.Faithful condition interpret) : f.CopiesArePure := by
  intro i hi
  rcases h.instruction_cases hi with hcontrol | ⟨v, vertex, -, hi⟩
  · exact Instruction.copyIsPure_of_not_isStraight hcontrol
  · exact hfaithful.copiesArePure i (.inl ⟨_, hi⟩)

theorem Layout.LaidOut.uses_owned (h : LaidOut work graph order f) {frame : Frame}
    (hslots : ∀ v vertex, graph.vertices.get? v = some vertex →
      ∀ i ∈ work vertex, ∀ t, i.transfer? = some t → t.slot ∈ frame.slots) :
    ∀ i ∈ f.instructions, Stack.Uses frame.Owns i := by
  intro i hi t ht
  rcases h.instruction_cases hi with hcontrol | ⟨v, vertex, hvertex, hi⟩
  · simp [(Instruction.unused_of_not_isStraight hcontrol).2.2.2] at ht
  · exact ⟨_, hslots v vertex hvertex i hi t ht, rfl⟩

end Replace

/-! ## Running vertices -/

section Vertices

variable [DecidableEq L] {selection : Selection Tree}
  {interpret : Interpretation Value (Observed Value)} {name : Register → L}
  {work : Vertex Tree → List Instruction} {graph : FlowGraph Tree} {order : List Nat} {f : Fragment}
  {slots : InsertionMap VirtualRegister FrameSlot} {backups : List HardwareRegister}
  {own : Int → Prop} {s : MachineState Register Value (Stack Value (Observed Value))}
  {t : MachineState L Value (Stack Value (Observed Value))}

/-- The code for a piece of a block keeps the values of the live registers in their
homes. -/
theorem Spill.Simulates.after_piece (h : Homes f slots backups own name)
    (hexact : selection.TransfersExactly interpret name)
    (hcode : ∀ i ∈ f.instructions,
      expandInstruction selection slots backups i = .ok (codeFor selection slots backups i))
    {k : Nat} {b : Block} {front work rest : List Instruction} (hb : f.blocks[k]? = some b)
    (hsplit : b.instructions = front ++ work ++ rest)
    (hsim : Simulates slots own name (f.LiveAt · ⟨k, front.length⟩) s t) :
    Simulates slots own name (f.LiveAt · ⟨k, (front ++ work).length⟩)
      (executeAll (withStack interpret) id work s)
      (executeAll (withStack interpret) name
        (work.flatMap (codeFor selection slots backups)) t) := by
  induction work generalizing front s t with
  | nil => simpa using hsim
  | cons i work ih =>
      have hi : f.instructionAt? ⟨k, front.length⟩ = some i := by
        rw [Fragment.instructionAt?_of_block (p := ⟨k, front.length⟩) hb, hsplit]
        simp
      have hnext := hsim.after_code h hexact hi
        (hcode i (Fragment.mem_instructions_of_instructionAt? hi))
      have hsplit' : b.instructions = front ++ [i] ++ work ++ rest := by simp [hsplit]
      have hrest := ih hsplit' (by simpa [Position.next] using hnext)
      rw [List.flatMap_cons, executeAll_append, executeAll_cons]
      simpa using hrest

/-- The code for the work of a vertex does the same computations, and the values of
the registers that are live at the destinations are in their homes. -/
theorem Layout.LaidOut.simulates_work (hlaid : LaidOut work graph order f)
    (hblocks : ∀ b ∈ f.blocks, b.instructions ≠ [])
    (h : Spill.Homes f slots backups own name)
    (hexact : selection.TransfersExactly interpret name)
    (hcode : ∀ i ∈ f.instructions, Spill.expandInstruction selection slots backups i =
      .ok (Spill.codeFor selection slots backups i))
    {k v : Nat} {vertex : Vertex Tree} (hk : order[k]? = some v)
    (hvertex : graph.vertices.get? v = some vertex)
    (hsim : Spill.Simulates slots own name (f.LiveAt · ⟨k, 0⟩) s t)
    {s' : MachineState Register Value (Stack Value (Observed Value))}
    {t' : MachineState L Value (Stack Value (Observed Value))}
    (hs' : s' = executeAll (withStack interpret) id (work vertex) s)
    (ht' : t' = executeAll (withStack interpret) name
      ((work vertex).flatMap (Spill.codeFor selection slots backups)) t) :
    s'.env.rest = t'.env.rest ∧ ∀ d ∈ vertex.destinations,
      ∃ k', order[k']? = some d ∧ Spill.Simulates slots own name (f.LiveAt · ⟨k', 0⟩) s' t' := by
  obtain ⟨vertex', b, resolved, hvertex', hb, himplements⟩ := hlaid.implements k v hk
  obtain rfl : vertex' = vertex := Option.some.inj (hvertex'.symm.trans hvertex)
  have hinstructions := himplements.instructions
  have hwork : Spill.Simulates slots own name (f.LiveAt · ⟨k, 1⟩) s t := by
    refine hsim.mono fun r hr => ?_
    have hsplit : b.instructions = [] ++ [.label (blockLabel graph.name k)] ++
        (work vertex' ++ jumps graph.name vertex' resolved) := hinstructions
    refine Fragment.LiveAt.of_silent hb hsplit ?_ hr
    rintro i (_ | ⟨_, ⟨⟩⟩)
    rfl
  have hsplit : b.instructions = [.label (blockLabel graph.name k)] ++ work vertex' ++
      jumps graph.name vertex' resolved := hinstructions
  have hdone := Spill.Simulates.after_piece h hexact hcode hb hsplit hwork
  rw [← hs', ← ht'] at hdone
  refine ⟨hdone.stack.rest, fun d hd => ?_⟩
  obtain ⟨k', hsuccessor, hk'⟩ := himplements.exists_successor hd
  refine ⟨k', hk', hdone.mono fun r hr => ?_⟩
  rw [← List.append_nil (_ ++ _)] at hsplit
  refine Fragment.LiveAt.of_silent hb hsplit (fun i hi => ?_) ?_
  · exact (Instruction.unused_of_not_isStraight (not_isStraight_of_mem_jumps hi)).2.1
  · exact hr.of_successor hblocks hb (by simp [hsplit]) hsuccessor

/-- A run of the graph with spill code for the work of its vertices goes along with
the run of the graph itself. -/
theorem Layout.LaidOut.follow_simulates (hlaid : LaidOut work graph order f)
    (hblocks : ∀ b ∈ f.blocks, b.instructions ≠ [])
    (h : Spill.Homes f slots backups own name)
    (hexact : selection.TransfersExactly interpret name)
    (hcode : ∀ i ∈ f.instructions, Spill.expandInstruction selection slots backups i =
      .ok (Spill.codeFor selection slots backups i))
    (hsim : Spill.Simulates slots own name (f.LiveAt · ⟨0, 0⟩) s t) (n : Nat) :
    Stage.Related
      (fun v s v' t => v = v' ∧
        ∃ k, order[k]? = some v ∧ Spill.Simulates slots own name (f.LiveAt · ⟨k, 0⟩) s t)
      (fun s t => s.env.rest = t.env.rest)
      ((Stage.running graph.initial s).iterate (graph.follow (machine interpret id) work) n)
      ((Stage.running graph.initial t).iterate (graph.follow (machine interpret name)
        fun vertex => (work vertex).flatMap (Spill.codeFor selection slots backups)) n) := by
  refine Stage.Related.iterate ?_ n (.running ⟨rfl, 0, hlaid.initial, hsim⟩)
  rintro v s _ t ⟨rfl, k, hk, hsim⟩
  obtain ⟨vertex, -, -, hvertex, -, -⟩ := hlaid.implements k v hk
  obtain ⟨hrest, hnext⟩ :=
    hlaid.simulates_work hblocks h hexact hcode hk hvertex hsim rfl rfl
  unfold FlowGraph.follow
  rw [hvertex]
  cases vertex with
  | final tree => exact .finished hrest
  | jump tree target => exact .running ⟨rfl, hnext target List.mem_cons_self⟩
  | conditional tree onTrue onFalse =>
      have hcondition : ((machine interpret id).decide ((machine interpret id).performAll
          (work (.conditional tree onTrue onFalse)) s)).1 =
          ((machine interpret name).decide ((machine interpret name).performAll
            ((work (.conditional tree onTrue onFalse)).flatMap
              (Spill.codeFor selection slots backups)) t)).1 :=
        congrArg Observed.condition hrest
      dsimp only [Vertex.leave]
      rw [← hcondition]
      refine .running ⟨rfl, hnext _ ?_⟩
      split_ifs <;> simp [Vertex.destinations]

end Vertices

/-! ## Compiled functions -/

theorem Stage.Related.observed_eq {K : Type*}
    {on : Nat → MachineState K Value (Stack Value (Observed Value)) → Nat →
      MachineState L Value (Stack Value (Observed Value)) → Prop}
    {atEnd : MachineState K Value (Stack Value (Observed Value)) →
      MachineState L Value (Stack Value (Observed Value)) → Prop}
    {x : Stage (MachineState K Value (Stack Value (Observed Value)))}
    {y : Stage (MachineState L Value (Stack Value (Observed Value)))}
    (h : Stage.Related on atEnd x y) (hon : ∀ k s v t, on k s v t → s.env.rest = t.env.rest)
    (hatEnd : ∀ s t, atEnd s t → s.env.rest = t.env.rest) :
    x.observed = y.observed ∧ x.observed ≠ none := by
  cases h with
  | running h => simp [observed, hon _ _ _ _ h]
  | finished h => simp [observed, hatEnd _ _ h]

/-- If a function is compiled, for a checked convention and with whatever options,
then every register of its code has a place, and the code run on these places does
the computations that the graph does on registers of its own, in the same order and
on the same values, whatever the computations are. This holds for graphs in which
no virtual register is read before it is written, on no path from the initial
vertex, and which use no slots but those that the frame has handed out. -/
theorem compiled_function_computes_as_graph [Inhabited Value] {selection : Selection Tree}
    {condition : Tree → List Instruction} (compute : Computations Value)
    (hfaithful : selection.Faithful condition (observing compute))
    {c : Compiler} {roles : Convention} (hconvention : roles.checked = .ok c.convention)
    {graph : FlowGraph Tree} {frame : Frame}
    (hwritten : ∀ v : VirtualRegister,
      ¬ graph.ReadsFirst (selection.work condition) (.virtual v) graph.initial)
    (hslots : ∀ v vertex, graph.vertices.get? v = some vertex →
      ∀ i ∈ selection.work condition vertex, ∀ t, i.transfer? = some t → t.slot ∈ frame.slots)
    {func : CompiledFunction} (hok : (c.compile selection graph frame).2 = .ok func) :
    (∀ i ∈ func.code.instructions, ∀ r, r ∈ i.reads ∨ r ∈ i.writes →
      ∃ h, func.allocation.place? r = some h) ∧
    ∀ (s : MachineState Register Value (Stack Value (Observed Value)))
      (t : MachineState HardwareRegister Value (Stack Value (Observed Value))),
      (∀ h, s.registers (.fixed h) = t.registers h) → Stack.Agree frame.Owns s.env t.env →
      ∀ n,
        ((Stage.running 0 t).iterate
            (func.code.runBlock (machine (observing compute) func.allocation.place)) n).observed =
          ((Stage.running graph.initial s).iterate (graph.follow
            (machine (observing compute) id) (selection.work condition)) n).observed ∧
        ((Stage.running graph.initial s).iterate (graph.follow
            (machine (observing compute) id) (selection.work condition)) n).observed ≠ none := by
  obtain ⟨f, x, a, backups, -, hcompiled⟩ := Compiler.exists_compiled hok
  refine ⟨fun i hi r hr => ⟨_, hcompiled.places i hi r hr⟩, ?_⟩
  intro s t hregisters hstack n
  obtain ⟨order, hlaid⟩ := FlowGraph.exists_laidOut hfaithful.lawful hcompiled.layOut
  obtain ⟨hblocks, -⟩ := Compiler.analyze_eq_ok hcompiled.analyze
  have hnodup : backups.Nodup := by
    rcases hcompiled.backups_eq with rfl | rfl
    · exact List.nodup_nil
    · exact Convention.nodup_backups hconvention
  have hpure := hlaid.copiesArePure hfaithful
  have hhomes := Compiler.homes_of_placed hpure hcompiled.analyze hcompiled.placed hnodup
    (hlaid.uses_owned hslots) hcompiled.slots hcompiled.spills
  obtain ⟨hcode, hreplace⟩ := Spill.expandFragment_eq_ok hcompiled.code
  have hperform : ∀ i ∈ func.code.instructions,
      (machine (observing compute) func.allocation.place).perform i =
        (machine (observing compute) (Compiler.finalPlace a)).perform i := by
    intro i hi
    refine execute_congr ?_ fun r hr => Allocation.place_eq (hcompiled.places i hi r hr)
    obtain ⟨j, hj, hi⟩ := Fragment.mem_instructions_replace.mp (hreplace ▸ hi)
    rcases Spill.mem_codeFor_cases (hpure j hj) hnodup hi with ⟨g, rfl⟩ | ⟨u, hu⟩
    · exact (hpure j hj).map g
    · exact hfaithful.copiesArePure i (.inr ⟨u, hu⟩)
  have hstart : Spill.Simulates func.slots frame.Owns (Compiler.finalPlace a)
      (f.LiveAt · ⟨0, 0⟩) s t := by
    refine ⟨fun r hr => ?_, hstack⟩
    have hfirst := hlaid.readsFirst_of_liveAt hblocks hr
    cases r with
    | virtual v => exact absurd hfirst (hwritten v)
    | fixed h =>
        rw [Spill.contents_home_of_no_slot _ rfl, Compiler.finalPlace_fixed hcompiled.placed]
        exact hregisters h
  have hgraph := (hlaid.follow_simulates hblocks hhomes (hfaithful.transfersExactly _) hcode hstart
    n).observed_eq (fun _ _ _ _ ⟨_, _, _, hsim⟩ => hsim.stack.rest) fun _ _ => id
  have hlaid' : Layout.LaidOut
      (fun vertex => (selection.work condition vertex).flatMap
        (Spill.codeFor selection func.slots backups))
      graph order (f.replace (Spill.codeFor selection func.slots backups)) :=
    hlaid.replace fun i => Spill.codeFor_of_not_isStraight
  have hlayout := (hlaid'.iterate (fun _ _ => hfaithful.straight_of_mem_codeFor hnodup)
    (machine (observing compute) (Compiler.finalPlace a)) t n).observed_eq
    (fun _ _ _ _ ⟨_, heq⟩ => by rw [heq]) fun _ _ heq => by rw [heq]
  have hsame : func.code.runBlock (machine (observing compute) func.allocation.place) =
      func.code.runBlock (machine (observing compute) (Compiler.finalPlace a)) :=
    Fragment.runBlock_congr rfl hperform
  rw [hsame, hreplace]
  exact ⟨hlayout.1.trans hgraph.1.symm, hgraph.2⟩

/-- Three values that are made before they are used. -/
def threeValues : FlowGraph WorkList where
  name := "f"
  initial := 0
  vertices := .ofList [(0, .final
    [.compute "make" [] [.virtual ⟨0, false⟩], .compute "make" [] [.virtual ⟨1, false⟩],
      .compute "make" [] [.virtual ⟨2, false⟩], .compute "use" [.virtual ⟨0, false⟩] [],
      .compute "use" [.virtual ⟨1, false⟩] [], .compute "use" [.virtual ⟨2, false⟩] []])]

/-- Two registers, one of which is set aside if something is spilled. -/
def twoRegisters : Convention where
  allowed := [.rax, .rcx]
  preserved := []
  backups := [.rcx]
  alwaysLive := []

theorem threeValues_computes_as_graph :
    ∃ func, (Compiler.compile ⟨⟨.none, false, false, ""⟩, twoRegisters⟩ .sequential threeValues
        .empty).2 = .ok func ∧
      ((Stage.running 0 ⟨fun _ => 0, ⟨fun _ => 0, ⟨false, []⟩⟩⟩).iterate (func.code.runBlock
          (machine (observing fun _ _ => (fun _ => 7, true)) func.allocation.place)) 1).observed =
        ((Stage.running 0 ⟨fun _ => 0, ⟨fun _ => 0, ⟨false, []⟩⟩⟩).iterate (threeValues.follow
          (machine (observing fun _ _ => (fun _ => 7, true)) id)
          (Selection.sequential.work Selection.sequential.cover)) 1).observed := by
  obtain ⟨func, hok⟩ : ∃ func, (Compiler.compile ⟨⟨.none, false, false, ""⟩, twoRegisters⟩
      .sequential threeValues .empty).2 = .ok func := exists_eq_ok (by decide +kernel)
  have hvertex : ∀ v vertex, threeValues.vertices.get? v = some vertex →
      (v, vertex) ∈ threeValues.vertices.entries := fun _ _ => InsertionMap.get?_eq_some_iff.mp
  have hwritten : ∀ v : VirtualRegister,
      ¬ threeValues.ReadsFirst (Selection.sequential.work Selection.sequential.cover) (.virtual v)
        threeValues.initial := by
    intro v h
    cases h with
    | here hget hreads =>
        obtain ⟨-, rfl⟩ := Prod.mk.inj (List.mem_singleton.mp (hvertex _ _ hget))
        simp only [Selection.work, Selection.sequential, List.map, ReadsFirst, Instruction.reads,
          Instruction.writes, Operation.reads, Operation.writes] at hreads
        grind
    | later hget _ hd _ =>
        obtain ⟨-, rfl⟩ := Prod.mk.inj (List.mem_singleton.mp (hvertex _ _ hget))
        simp [Vertex.destinations] at hd
  have hslots : ∀ v vertex, threeValues.vertices.get? v = some vertex →
      ∀ i ∈ Selection.sequential.work Selection.sequential.cover vertex,
        ∀ t, i.transfer? = some t → t.slot ∈ Frame.empty.slots := by
    intro v vertex hget
    obtain ⟨-, rfl⟩ := Prod.mk.inj (List.mem_singleton.mp (hvertex _ _ hget))
    decide
  obtain ⟨-, hrun⟩ := compiled_function_computes_as_graph (fun _ _ => (fun _ => 7, true))
    (Selection.sequential_faithful _) (show twoRegisters.checked = .ok twoRegisters from rfl)
    hwritten hslots hok
  exact ⟨func, hok, (hrun ⟨fun _ => 0, ⟨fun _ => 0, ⟨false, []⟩⟩⟩
    ⟨fun _ => 0, ⟨fun _ => 0, ⟨false, []⟩⟩⟩ (fun _ => rfl) ⟨fun _ _ => rfl, rfl⟩ 1).1⟩

end Lowering
