import Lowering.Proofs.LayoutStructure
import Lowering.Proofs.SpillShape

/-!
# Blocks that are left empty

A copy between spilled registers that share a slot is dropped, and every other
instruction has some code. So a block is left empty exactly if it holds nothing but such
copies, and then the code cannot be analyzed again. A block that was laid out begins with
a label, so it is never left empty.
-/

namespace Lowering

universe u

/-- The analysis fails for a block without instructions, and names one. -/
theorem Interaction.exists_of_analyze_eq_error {f : Fragment}
    {preserved alwaysLive : List HardwareRegister} {e : Error}
    (h : analyze f preserved alwaysLive = .error e) :
    ∃ b ∈ f.blocks, b.instructions = [] ∧ e = .invalidInput (.emptyBlock f.name b.label) := by
  unfold analyze Fragment.flatten at h
  cases hcheck : f.checkBlocks with
  | ok _ => simp [hcheck] at h
  | error fault =>
      obtain ⟨b, hb, hfault⟩ := List.exists_of_findSome?_eq_some
        (rejectFirst_eq_error_iff.mp hcheck)
      obtain ⟨hempty, heq⟩ := Option.ite_none_right_eq_some.mp hfault
      simp only [hcheck, Except.error.injEq] at h
      rw [← h, ← Option.some.inj heq]
      exact ⟨b, hb, List.isEmpty_iff.mp hempty, rfl⟩

theorem Interaction.exists_analyze_iff {f : Fragment}
    {preserved alwaysLive : List HardwareRegister} :
    (∃ x, analyze f preserved alwaysLive = .ok x) ↔ ∀ b ∈ f.blocks, b.instructions ≠ [] :=
  ⟨fun ⟨_, hx⟩ => (analyze_eq_ok hx).1, fun h => ⟨_, analyze_of_nonempty h⟩⟩

namespace Spill

variable {Tree : Type u} {selection : Selection Tree}
  {slots : InsertionMap VirtualRegister FrameSlot} {backups : List HardwareRegister}
  {spills : InsertionSet Register} {i : Instruction} {code : List Instruction} {b : Block}

/-- The block holds nothing but copies between spilled registers that share a slot. -/
def OnlyCopies (spills : InsertionSet Register) (slots : InsertionMap VirtualRegister FrameSlot)
    (b : Block) : Prop :=
  ∀ i ∈ b.instructions, Touches spills i ∧ CopiesWithinSlot spills slots i

/-- Nothing but a copy within a slot has no code. -/
theorem HaveSlots.eq_nil_iff (h : HaveSlots spills slots)
    (hok : expandInstruction selection slots backups i = .ok code) :
    code = [] ↔ Touches spills i ∧ CopiesWithinSlot spills slots i := by
  rw [h.touches_iff, h.copiesWithinSlot_iff]
  dsimp only [expandInstruction] at hok
  split_ifs at hok with huntouched hredundant hfew
  · obtain rfl := Except.ok.inj hok
    simp [huntouched]
  · obtain rfl := Except.ok.inj hok
    simp [Bool.eq_false_iff.mpr huntouched, hredundant]
  · obtain rfl := Except.ok.inj hok
    simp [hredundant]

theorem HaveSlots.flatMap_codeFor_eq_nil_iff (h : HaveSlots spills slots)
    (hok : ∀ i ∈ b.instructions,
      expandInstruction selection slots backups i = .ok (codeFor selection slots backups i)) :
    b.instructions.flatMap (codeFor selection slots backups) = [] ↔
      OnlyCopies spills slots b := by
  rw [List.flatMap_eq_nil_iff]
  exact forall₂_congr fun i hi => h.eq_nil_iff (hok i hi)

/-- A block that begins with a label holds more than copies. -/
theorem not_onlyCopies_of_label {l : Label} (hhead : b.instructions.head? = some (.label l)) :
    ¬ OnlyCopies spills slots b := by
  intro honly
  obtain ⟨⟨r, hr, -⟩, -⟩ := honly _ (List.mem_of_head? hhead)
  exact List.not_mem_nil hr

end Spill

/-- Moving registers to the stack leaves a block empty exactly if it holds nothing but
copies between spilled registers that share a slot. The code can be analyzed again exactly
if there is no such block; otherwise the analysis names one. Code that was laid out has
none. -/
theorem moveToStack_empties_only_copies {Tree : Type u} {selection : Selection Tree}
    {solver : Solver VirtualRegister Nat} {frame : Frame} {f : Fragment} {x : Interaction}
    {a : Allocation} {backups : List HardwareRegister} {out : SpilledCode}
    (hok : (Spill.moveToStack selection solver frame f x a backups).2 = .ok out)
    (preserved alwaysLive : List HardwareRegister) :
    List.Forall₂ (fun b b' => b'.label = b.label ∧
      (b'.instructions = [] ↔ Spill.OnlyCopies a.spills out.slots b)) f.blocks out.code.blocks ∧
    ((∃ y, Interaction.analyze out.code preserved alwaysLive = .ok y) ↔
      ∀ b ∈ f.blocks, ¬ Spill.OnlyCopies a.spills out.slots b) ∧
    (∀ e, Interaction.analyze out.code preserved alwaysLive = .error e →
      ∃ b ∈ f.blocks, Spill.OnlyCopies a.spills out.slots b ∧
        e = .invalidInput (.emptyBlock f.name b.label)) ∧
    ∀ graph : FlowGraph Tree, graph.layOut selection = .ok f →
      ∃ y, Interaction.analyze out.code preserved alwaysLive = .ok y := by
  obtain ⟨hslots, hexpand⟩ := Spill.moveToStack_expands hok
  obtain ⟨hcode, hreplace⟩ := Spill.expandFragment_eq_ok hexpand
  have hempty : ∀ b ∈ f.blocks,
      b.instructions.flatMap (Spill.codeFor selection out.slots backups) = [] ↔
        Spill.OnlyCopies a.spills out.slots b := fun b hb =>
    Spill.HaveSlots.flatMap_codeFor_eq_nil_iff hslots fun i hi =>
      hcode i (List.mem_flatMap.mpr ⟨b, hb, hi⟩)
  have hanalyze : (∃ y, Interaction.analyze out.code preserved alwaysLive = .ok y) ↔
      ∀ b ∈ f.blocks, ¬ Spill.OnlyCopies a.spills out.slots b := by
    rw [Interaction.exists_analyze_iff, hreplace, Fragment.replace, List.forall_mem_map]
    exact forall₂_congr fun b hb => not_congr (hempty b hb)
  refine ⟨?_, hanalyze, fun e he => ?_, fun graph hgraph => hanalyze.mpr fun b hb => ?_⟩
  · rw [hreplace, Fragment.replace, List.forall₂_map_right_iff, List.forall₂_same]
    exact fun b hb => ⟨rfl, hempty b hb⟩
  · obtain ⟨b', hb', hnil, rfl⟩ := Interaction.exists_of_analyze_eq_error he
    rw [hreplace] at hb' ⊢
    obtain ⟨b, hb, rfl⟩ := List.mem_map.mp hb'
    exact ⟨b, hb, (hempty b hb).mp hnil, rfl⟩
  · exact Spill.not_onlyCopies_of_label (Layout.head?_of_layOut hgraph b hb)

/-- A value is made, copied in a block of its own, and used. -/
def copyAlone : Fragment :=
  Fragment.addEdge (Fragment.addEdge
    ⟨"f", [.unlinked ⟨"b0"⟩ [.operate (.compute "make" [] [.virtual ⟨0, false⟩])],
      .unlinked ⟨"b1"⟩ [.operate (.copy ⟨.virtual ⟨1, false⟩, .virtual ⟨0, false⟩⟩)],
      .unlinked ⟨"b2"⟩ [.operate (.compute "use" [.virtual ⟨1, false⟩] [])]]⟩ 0 1) 1 2

/-- The code with value and copy on the stack, in one slot. -/
def copyAloneMoved : Except Error SpilledCode :=
  (Spill.moveToStack .sequential Coloring.firstFit .empty copyAlone
    (Interaction.ofFragment copyAlone [] [])
    ⟨∅, .ofList [.virtual ⟨0, false⟩, .virtual ⟨1, false⟩]⟩ [.rax, .rbx]).2

/-- The code can be analyzed, but not the code in which the block of the copy is left
empty. -/
theorem copyAlone_emptied :
    Interaction.analyze copyAlone [] [] = .ok (Interaction.ofFragment copyAlone [] []) ∧
    ∃ out, copyAloneMoved = .ok out ∧
      Interaction.analyze out.code [] [] = .error (.invalidInput (.emptyBlock "f" ⟨"b1"⟩)) ∧
      ∃ b ∈ copyAlone.blocks, b.label = ⟨"b1"⟩ ∧ Spill.OnlyCopies
        (.ofList [.virtual ⟨0, false⟩, .virtual ⟨1, false⟩]) out.slots b := by
  refine ⟨Interaction.analyze_of_nonempty (by decide), ?_⟩
  obtain ⟨out, hout⟩ : ∃ out, copyAloneMoved = .ok out := exists_eq_ok (by decide +kernel)
  have herror : (copyAloneMoved >>= fun out => Interaction.analyze out.code [] []) =
      .error (.invalidInput (.emptyBlock "f" ⟨"b1"⟩)) := by decide +kernel
  rw [hout] at herror
  obtain ⟨-, -, hblame, -⟩ := moveToStack_empties_only_copies hout [] []
  obtain ⟨b, hb, honly, hlabel⟩ := hblame _ herror
  have heq : b.label = ⟨"b1"⟩ := by
    injection hlabel with hfault
    injection hfault with _ hlabel
    exact hlabel.symm
  exact ⟨out, hout, herror, b, hb, heq, honly⟩

end Lowering
