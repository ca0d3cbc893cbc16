import Lowering.Compiler
import Lowering.Proofs.CompiledRun
import Lowering.Proofs.RenamedSpills
import Mathlib.Data.Set.Function

/-!
# Compilation ignores the numbers of virtual registers

Virtual registers are numbered in the order in which they are made, so the same function
has other numbers whenever something else was compiled before it. The main statement is
that this never shows: a renamed function compiles to the renamed code, with the same
blocks, places, slots and frame, or fails with an error of the same kind. It is put
together from the statements about the passes.
-/

namespace Lowering

universe u

variable {Tree : Type u} {ρ : VirtualRegister → VirtualRegister → Prop}

/-- Two compiled functions are the same up to the names of registers. -/
structure CompiledFunction.Renamed (ρ : VirtualRegister → VirtualRegister → Prop)
    (f g : CompiledFunction) : Prop where
  name : f.name = g.name
  code : f.code.Renamed (Register.Renamed ρ) g.code
  allocation : f.allocation.Renamed ρ g.allocation
  slots : f.slots.Renamed ρ (· = ·) g.slots

namespace Compiler

variable {f g : Fragment} {a b : Allocation} (hρ : IsRenaming ρ)
include hρ

theorem analyze_renamed (c : Compiler) (h : f.Renamed (Register.Renamed ρ) g) :
    SameOutcome SameKind (Interaction.Renamed ρ) (c.analyze f) (c.analyze g) := by
  refine (Interaction.analyze_renamed hρ h _ _).bind fun x y hxy => .ok ?_
  exact ite_renamed Iff.rfl hxy.withoutCopying hxy

theorem registersOf_renamed (c : Convention) (h : f.Renamed (Register.Renamed ρ) g) :
    (registersOf c f).Renamed (Register.Renamed ρ) (registersOf c g) := by
  have hcode := List.rel_flatMap h.instructions fun _ _ hi => List.rel_append hi.reads hi.writes
  exact ((InsertionSet.Renamed.ofList hρ.registers hcode).insertAll hρ.registers
    (Register.Renamed.forall₂_fixed c.preserved)).insertAll hρ.registers
    (Register.Renamed.forall₂_fixed c.alwaysLive)

theorem finalPlace?_eq (h : a.Renamed ρ b) {r s : Register} (hr : Register.Renamed ρ r s) :
    finalPlace? a r = finalPlace? b s := by
  unfold finalPlace?
  rw [h.place?_eq hρ hr, hr.fixed?_eq]

theorem afterSpilling_renamed (c : Convention) (hf : f.Renamed (Register.Renamed ρ) g)
    (ha : a.Renamed ρ b) :
    SameOutcome SameKind (Allocation.Renamed ρ) (afterSpilling c f a) (afterSpilling c g b) := by
  have hregisters := registersOf_renamed hρ c hf
  refine .bind (.mapError (rejectFirst_renamed hregisters fun r s hr => ?_) ?_) fun _ _ _ => .ok ?_
  · rw [finalPlace?_eq hρ ha hr]
    exact ite_renamed Iff.rfl .none (.some trivial)
  · exact fun _ _ _ => rfl
  · refine ⟨.ofPartial hregisters fun r s hr => ?_, .empty⟩
    exact optionRel_eq_iff.mpr (finalPlace?_eq hρ ha hr)

theorem finish_renamed (c : Compiler) (name : String) {s t : SpilledCode} (hs : s.Renamed ρ t)
    (ha : a.Renamed ρ b) :
    SameOutcome SameKind (CompiledFunction.Renamed ρ) (c.finish name s a) (c.finish name t b) := by
  refine (afterSpilling_renamed hρ c.convention hs.code ha).bind fun a b ha => ?_
  refine ite_renamed Iff.rfl (.ok ⟨rfl, hs.code, ha, hs.slots⟩) ?_
  refine (analyze_renamed hρ c hs.code).bind fun x y hx => ?_
  exact (ha.validate hρ hx c.convention.allowed).bind fun _ _ _ =>
    .ok ⟨rfl, hs.code, ha, hs.slots⟩

variable {selection : Selection Tree} {T : Tree → Tree → Prop} {graph graph' : FlowGraph Tree}
  (hselection : selection.Respects (Register.Renamed ρ) T)
include hselection

theorem place_renamed (c : Compiler) (h : graph.Renamed T graph') :
    SameOutcome SameKind (EntryRenamed (Fragment.Renamed (Register.Renamed ρ))
        (EntryRenamed (Interaction.Renamed ρ) (Allocation.Renamed ρ)))
      (c.place selection graph) (c.place selection graph') := by
  refine (h.layOut hselection).bind fun f g hf => ?_
  refine (analyze_renamed hρ c hf).bind fun x y hx => ?_
  exact (Allocation.allocateWithRetry_renamed hρ hx c.convention).bind fun a b ha =>
    .ok ⟨hf, hx, ha⟩

theorem compile_renamed (c : Compiler) (h : graph.Renamed T graph') (frame : Frame) :
    EntryRenamed (· = ·) (SameOutcome SameKind (CompiledFunction.Renamed ρ))
      (c.compile selection graph frame) (c.compile selection graph' frame) := by
  unfold compile
  rcases (place_renamed hρ hselection c h).cases with
    ⟨_, _, h1, h2, he⟩ | ⟨⟨f, x, a⟩, ⟨g, y, b⟩, h1, h2, hf, hx, ha⟩
  · rw [h1, h2]
    exact ⟨rfl, .error he⟩
  simp only [h1, h2, ha.isSpillFree_eq, h.name]
  refine ite_renamed Iff.rfl ⟨rfl, .ok ⟨rfl, hf, ha, .empty⟩⟩ ?_
  have hmoved := Spill.moveToStack_renamed hρ hselection frame hf hx ha c.convention.backups
  revert hmoved
  generalize Spill.moveToStack selection Coloring.firstFit frame f x a c.convention.backups = m
  generalize Spill.moveToStack selection Coloring.firstFit frame g y b c.convention.backups = n
  obtain ⟨frame', out⟩ := m
  obtain ⟨_, out'⟩ := n
  rintro ⟨rfl, hout⟩
  cases hout with
  | error he => exact ⟨rfl, .error he⟩
  | ok hs => exact ⟨rfl, finish_renamed hρ c graph'.name hs ha⟩

end Compiler

theorem Selection.sequential_respects (R : Register → Register → Prop) :
    sequential.Respects R (List.Forall₂ (Operation.Renamed R)) where
  cover _ _ h := List.rel_map (fun _ _ ho => .operate ho) h
  coverBranch _ _ h label jumpIf :=
    List.rel_append (List.rel_map (fun _ _ ho => .operate ho) h)
      (.cons (.branch label jumpIf) .nil)
  coverTransfer _ _ h := .cons (.operate (.transfer h)) .nil

/-- The function turns one name into the other, and the old one is among those in use. -/
def RenamedBy {V W : Type} (σ : V → W) (S : Set V) (a : V) (b : W) : Prop :=
  a ∈ S ∧ σ a = b

theorem biUnique_renamedBy {V W : Type} {σ : V → W} {S : Set V} (hinj : Set.InjOn σ S) :
    Relator.BiUnique (RenamedBy σ S) := by
  constructor
  · intro a b c ha hb
    exact hinj ha.1 hb.1 (ha.2.trans hb.2.symm)
  · intro a b c hb hc
    exact hb.2.symm.trans hc.2

/-- Let `ρ` renumber the virtual registers of a set one-to-one, references as references
and other values as other values. A function that uses registers of that set only compiles
under the new numbers to the same code with the new numbers: the same blocks and
instructions, the same hardware register for corresponding registers, the same slots, all
in the same order, and the same frame. Or it fails both times, with errors of one kind. The
analysis of code and the placing of registers treat renumbered registers alike too, and so
does the coloring of a graph all vertices that are renamed one-to-one. -/
theorem compilation_ignores_register_numbers {ρ : VirtualRegister → VirtualRegister}
    {S : Set VirtualRegister} (hinj : Set.InjOn ρ S)
    (hkeeps : ∀ v ∈ S, (ρ v).holdsReference = v.holdsReference) :
    (∀ (Tree : Type u) (selection : Selection Tree) (T : Tree → Tree → Prop),
      selection.Respects (Register.Renamed (RenamedBy ρ S)) T →
      ∀ (c : Compiler) (frame : Frame) (graph graph' : FlowGraph Tree), graph.Renamed T graph' →
        (c.compile selection graph frame).1 = (c.compile selection graph' frame).1 ∧
        SameOutcome SameKind (CompiledFunction.Renamed (RenamedBy ρ S))
          (c.compile selection graph frame).2 (c.compile selection graph' frame).2) ∧
    (∀ (preserved alwaysLive : List HardwareRegister) (f f' : Fragment),
      f.Renamed (Register.Renamed (RenamedBy ρ S)) f' →
        SameOutcome SameKind (Interaction.Renamed (RenamedBy ρ S))
          (Interaction.analyze f preserved alwaysLive)
          (Interaction.analyze f' preserved alwaysLive)) ∧
    (∀ (c : Convention) (x x' : Interaction), x.Renamed (RenamedBy ρ S) x' →
      SameOutcome SameKind (Allocation.Renamed (RenamedBy ρ S))
        (Allocation.allocateWithRetry Coloring.firstFit x c)
        (Allocation.allocateWithRetry Coloring.firstFit x' c)) ∧
    ∀ {V W C : Type} [DecidableEq V] [DecidableEq W] [DecidableEq C] (σ : V → W) (U : Set V),
      Set.InjOn σ U → ∀ (p : ColoringProblem V C) (p' : ColoringProblem W C),
        p.Renamed (RenamedBy σ U) p' →
          SameOutcome (fun e e' => RenamedBy σ U e.vertex e'.vertex)
            (InsertionMap.Renamed (RenamedBy σ U) (· = ·)) (Coloring.firstFit p)
            (Coloring.firstFit p') := by
  have hρ : IsRenaming (RenamedBy ρ S) := by
    refine ⟨biUnique_renamedBy hinj, ?_⟩
    rintro v _ ⟨hv, rfl⟩
    exact (hkeeps v hv).symm
  refine ⟨?_, ?_, ?_, ?_⟩
  · intro Tree selection T hselection c frame graph graph' hgraph
    exact Compiler.compile_renamed hρ hselection c hgraph frame
  · intro preserved alwaysLive f f' hf
    exact Interaction.analyze_renamed hρ hf preserved alwaysLive
  · intro c x x' hx
    exact Allocation.allocateWithRetry_renamed hρ hx c
  · intro V W C _ _ _ σ U hσ p p' hp
    exact Coloring.firstFit_renamed (biUnique_renamedBy hσ) hp

/-- Counts down from twelve. -/
def backwards (v : VirtualRegister) : VirtualRegister :=
  ⟨12 - v.id, v.holdsReference⟩

/-- The work of making values, all before the first is used. -/
def madeThenUsed (l : List VirtualRegister) : WorkList :=
  (l.map fun v => .compute "make" [] [.virtual v]) ++
    l.map fun v => .compute "use" [.virtual v] []

/-- The function that makes and uses values. -/
def valuesGraph (l : List VirtualRegister) : FlowGraph WorkList where
  name := "f"
  initial := 0
  vertices := .ofList [(0, .final (madeThenUsed l))]

/-- The code that makes and uses values. -/
def valuesCode (l : List VirtualRegister) : Fragment where
  name := "f"
  blocks := [.unlinked ⟨"b"⟩ ((madeThenUsed l).map .operate)]

/-- Two vertices that need different colors. -/
def oneEdge (m n : Nat) : ColoringProblem Nat Nat :=
  ⟨(∅ : Relation Nat).addEdge m n, ∅, ∅, [5, 6]⟩

theorem madeThenUsed_renamed {l m : List VirtualRegister} (h : List.Forall₂ ρ l m) :
    List.Forall₂ (Operation.Renamed (Register.Renamed ρ)) (madeThenUsed l) (madeThenUsed m) := by
  refine List.rel_append (List.rel_map (fun v w hvw => ?_) h) (List.rel_map (fun v w hvw => ?_) h)
  · exact .compute "make" .nil (.cons (.virtual hvw) .nil)
  · exact .compute "use" (.cons (.virtual hvw) .nil) .nil

theorem valuesGraph_renamed {l m : List VirtualRegister} (h : List.Forall₂ ρ l m) :
    (valuesGraph l).Renamed (List.Forall₂ (Operation.Renamed (Register.Renamed ρ)))
      (valuesGraph m) :=
  ⟨rfl, rfl, .cons ⟨rfl, .final (madeThenUsed_renamed h)⟩ .nil⟩

theorem valuesCode_renamed {l m : List VirtualRegister} (h : List.Forall₂ ρ l m) :
    (valuesCode l).Renamed (Register.Renamed ρ) (valuesCode m) :=
  ⟨rfl, .cons ⟨rfl, List.rel_map (fun _ _ ho => .operate ho) (madeThenUsed_renamed h), rfl, rfl⟩
    .nil⟩

/-- Three values do not fit in two registers, whatever their numbers are, and what is spilled
goes to the same slots. -/
theorem valuesGraph_backwards :
    (∃ func func', (Compiler.compile ⟨⟨.none, false, false, ""⟩, twoRegisters⟩ .sequential
        (valuesGraph [⟨0, false⟩, ⟨1, true⟩, ⟨2, false⟩]) .empty).2 = .ok func ∧
      (Compiler.compile ⟨⟨.none, false, false, ""⟩, twoRegisters⟩ .sequential
        (valuesGraph [⟨12, false⟩, ⟨11, true⟩, ⟨10, false⟩]) .empty).2 = .ok func' ∧
      func.Renamed (RenamedBy backwards { v | v.id ≤ 12 }) func') ∧
    (∃ x x', Interaction.analyze (valuesCode [⟨0, false⟩, ⟨1, true⟩]) [] [] = .ok x ∧
      Interaction.analyze (valuesCode [⟨12, false⟩, ⟨11, true⟩]) [] [] = .ok x' ∧
      x.Renamed (RenamedBy backwards { v | v.id ≤ 12 }) x' ∧
      SameOutcome SameKind (Allocation.Renamed (RenamedBy backwards { v | v.id ≤ 12 }))
        (Allocation.allocateWithRetry Coloring.firstFit x twoRegisters)
        (Allocation.allocateWithRetry Coloring.firstFit x' twoRegisters)) ∧
    ∃ colors colors', Coloring.firstFit (oneEdge 0 1) = .ok colors ∧
      Coloring.firstFit (oneEdge 12 11) = .ok colors' ∧
      colors.Renamed (RenamedBy (12 - ·) { n | n ≤ 12 }) (· = ·) colors' := by
  have hinj : Set.InjOn backwards { v | v.id ≤ 12 } := by
    rintro ⟨m, _⟩ hm ⟨n, _⟩ hn heq
    obtain ⟨hid, rfl⟩ := VirtualRegister.mk.inj heq
    obtain rfl : m = n := by
      simp only [Set.mem_ofPred_eq] at hm hn hid
      omega
    rfl
  obtain ⟨hcompile, hanalyze, hallocate, hcolor⟩ :=
    compilation_ignores_register_numbers hinj fun _ _ => rfl
  have hnumbers : List.Forall₂ (RenamedBy backwards { v | v.id ≤ 12 })
      [⟨0, false⟩, ⟨1, true⟩] [⟨12, false⟩, ⟨11, true⟩] :=
    .cons ⟨by decide, rfl⟩ (.cons ⟨by decide, rfl⟩ .nil)
  refine ⟨?_, ?_, ?_⟩
  · refine (hcompile WorkList .sequential _ (Selection.sequential_respects _) _ .empty _ _
      (valuesGraph_renamed ?_)).2.exists_ok (exists_eq_ok (by decide +kernel))
    exact List.rel_append hnumbers (.cons ⟨by decide, rfl⟩ .nil)
  · obtain ⟨x, x', h1, h2, hx⟩ := (hanalyze [] [] _ _ (valuesCode_renamed hnumbers)).exists_ok
      (exists_eq_ok (by decide +kernel))
    exact ⟨x, x', h1, h2, hx, hallocate twoRegisters x x' hx⟩
  · have hcount : Set.InjOn (12 - ·) { n : Nat | n ≤ 12 } := by
      intro m hm n hn heq
      simp only [Set.mem_ofPred_eq] at hm hn heq
      omega
    refine (hcolor _ _ hcount _ _ ?_).exists_ok (exists_eq_ok (by decide +kernel))
    exact ⟨Relation.Renamed.addEdge (biUnique_renamedBy hcount) .empty ⟨by decide, rfl⟩
      ⟨by decide, rfl⟩, .empty, .empty, rfl⟩

end Lowering
