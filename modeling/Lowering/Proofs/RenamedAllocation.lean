import Lowering.Allocation.ByColoring
import Lowering.Proofs.RenamedCode
import Lowering.Proofs.RenamedColoring

/-!
# Places for renamed registers

Allocation poses coloring problems whose vertices are registers and checks the answers.
Both go by equality of registers, by the order of the registers and by what a renaming
keeps. So renamed registers get the places of the registers they stand for, and where an
allocation is refused, so is the renamed one, for a reason of the same kind.
-/

namespace Lowering

variable {ρ : VirtualRegister → VirtualRegister → Prop} {x y : Interaction}

namespace Interaction.Renamed

protected theorem fixedFault? (allowed : List HardwareRegister) {r s : Register}
    (h : Register.Renamed ρ r s) :
    Option.Rel (fun _ _ => True) (fixedFault? allowed r) (Interaction.fixedFault? allowed s) := by
  unfold Interaction.fixedFault?
  rw [h.fixed?_eq]
  split
  · exact ite_renamed Iff.rfl .none (.some trivial)
  · exact .none

variable (hρ : IsRenaming ρ)
include hρ

protected theorem unknownFault? (h : x.Renamed ρ y) (kind : RelationKind)
    {e f : Register × InsertionSet Register}
    (he : EntryRenamed (Register.Renamed ρ) (InsertionSet.Renamed (Register.Renamed ρ)) e f) :
    Option.Rel (fun _ _ => True) (x.unknownFault? kind e) (y.unknownFault? kind f) :=
  findSome?_renamed (.cons he.1 he.2) fun _ _ hr =>
    ite_renamed (h.registers.mem_iff hρ.registers hr) .none (.some trivial)

protected theorem checkInput (h : x.Renamed ρ y) (allowed : List HardwareRegister) :
    SameOutcome (fun _ _ => True) (· = ·) (x.checkInput allowed) (y.checkInput allowed) := by
  have hloop : List.Forall₂ (Register.Renamed ρ) x.interference.selfLoop?.toList
      y.interference.selfLoop?.toList := by
    rcases cases_of_optionRel (Relation.Renamed.selfLoop? hρ.registers h.interference) with
      ⟨h1, h2⟩ | ⟨r, s, h1, h2, hrs⟩
    · rw [h1, h2]
      exact .nil
    · rw [h1, h2]
      exact .cons hrs .nil
  refine (rejectFirst_renamed h.interference fun _ _ => h.unknownFault? hρ _).bind fun _ _ _ => ?_
  refine (rejectFirst_renamed h.copying fun _ _ => h.unknownFault? hρ _).bind fun _ _ _ => ?_
  refine (rejectFirst_renamed hloop fun _ _ _ => .some trivial).bind fun _ _ _ => ?_
  exact rejectFirst_renamed h.registers fun _ _ => Renamed.fixedFault? allowed

protected theorem graph (h : x.Renamed ρ y) (allowed : List HardwareRegister) :
    Relation.Renamed (Register.Renamed ρ) (x.graph allowed) (y.graph allowed) := by
  have hfixed := Register.Renamed.forall₂_fixed (ρ := ρ) allowed
  have hregisters := (Relation.Renamed.discrete h.registers).addEdges hρ.registers
    (Relation.Renamed.symmetricClosure hρ.registers h.interference).pairs
  have hvertices := List.rel_foldl (P := Relation.Renamed (Register.Renamed ρ))
    (R := Register.Renamed ρ) (fun _ _ hg _ _ hr => Relation.Renamed.addVertex hρ.registers hg hr)
    hregisters hfixed
  exact Relation.Renamed.addEdges hρ.registers hvertices (orderedPairs_renamed hfixed)

protected theorem coloringProblem (h : x.Renamed ρ y) (allowed : List HardwareRegister) :
    (x.coloringProblem allowed).Renamed (Register.Renamed ρ) (y.coloringProblem allowed) where
  graph := h.graph hρ allowed
  coalesce := h.copying
  fixed := .ofPartial (h.graph hρ allowed).keys fun _ _ hr => optionRel_eq_iff.mpr hr.fixed?_eq
  allowed := rfl

end Interaction.Renamed

namespace Allocation

/-- Two allocations give the same places to registers that are the same up to names. -/
structure Renamed (ρ : VirtualRegister → VirtualRegister → Prop) (a b : Allocation) : Prop where
  assigned : a.assigned.Renamed (Register.Renamed ρ) (· = ·) b.assigned
  spills : a.spills.Renamed (Register.Renamed ρ) b.spills

namespace Renamed

variable {a b : Allocation}

theorem isSpillFree_eq (h : a.Renamed ρ b) : a.isSpillFree = b.isSpillFree :=
  h.spills.isEmpty_eq

protected theorem placeFault? (allowed : List HardwareRegister) {e f : Register × HardwareRegister}
    (he : EntryRenamed (Register.Renamed ρ) (· = ·) e f) :
    Option.Rel (fun _ _ => True) (placeFault? allowed e) (Allocation.placeFault? allowed f) := by
  unfold Allocation.placeFault?
  rw [he.1.fixed?_eq, he.2]
  refine ite_renamed Iff.rfl ?_ (.some trivial)
  split
  · exact ite_renamed Iff.rfl .none (.some trivial)
  · exact .none

variable (hρ : IsRenaming ρ)
include hρ

theorem place?_eq (h : a.Renamed ρ b) {r s : Register} (hr : Register.Renamed ρ r s) :
    a.place? r = b.place? s :=
  h.assigned.get?_eq hρ.registers hr

protected theorem spillFault? (h : a.Renamed ρ b) (hx : x.Renamed ρ y) {r s : Register}
    (hr : Register.Renamed ρ r s) :
    Option.Rel (fun _ _ => True) (spillFault? x a r) (Allocation.spillFault? y b s) := by
  refine ite_renamed (hx.registers.mem_iff hρ.registers hr) ?_ (.some trivial)
  exact ite_renamed (h.assigned.mem_iff hρ.registers hr) (.some trivial) .none

protected theorem lostFault? (h : a.Renamed ρ b) {r s : Register} (hr : Register.Renamed ρ r s) :
    Option.Rel (fun _ _ => True) (lostFault? a r) (Allocation.lostFault? b s) := by
  refine ite_renamed ?_ .none (.some trivial)
  exact or_congr (h.assigned.mem_iff hρ.registers hr) (h.spills.mem_iff hρ.registers hr)

protected theorem fixedFault? (h : a.Renamed ρ b) {r s : Register} (hr : Register.Renamed ρ r s) :
    Option.Rel (fun _ _ => True) (fixedFault? a r) (Allocation.fixedFault? b s) := by
  refine ite_renamed ?_ (.some trivial) .none
  rw [hr.isFixed_eq, h.spills.mem_iff hρ.registers hr]

protected theorem clashFault? (h : a.Renamed ρ b) {e f : Register × InsertionSet Register}
    (he : EntryRenamed (Register.Renamed ρ) (InsertionSet.Renamed (Register.Renamed ρ)) e f) :
    Option.Rel (fun _ _ => True) (clashFault? a e) (Allocation.clashFault? b f) := by
  unfold Allocation.clashFault?
  rw [h.place?_eq hρ he.1]
  split
  · exact .none
  · refine findSome?_renamed he.2 fun r s hr => ?_
    rw [h.place?_eq hρ hr]
    exact ite_renamed Iff.rfl (.some trivial) .none

protected theorem validate (h : a.Renamed ρ b) (hx : x.Renamed ρ y)
    (allowed : List HardwareRegister) :
    SameOutcome SameKind (· = ·) (a.validate x allowed) (b.validate y allowed) := by
  refine SameOutcome.mapError (E := fun _ _ => True) ?_ fun _ _ _ => rfl
  have hstray : ∀ r s, Register.Renamed ρ r s →
      Option.Rel (fun _ _ => True) (strayFault? x r) (strayFault? y s) := fun _ _ hr =>
    ite_renamed (hx.registers.mem_iff hρ.registers hr) .none (.some trivial)
  refine (rejectFirst_renamed h.assigned.keys hstray).bind fun _ _ _ => ?_
  refine (rejectFirst_renamed h.spills fun _ _ => h.spillFault? hρ hx).bind fun _ _ _ => ?_
  refine (rejectFirst_renamed hx.registers fun _ _ => h.lostFault? hρ).bind fun _ _ _ => ?_
  refine (rejectFirst_renamed h.assigned fun _ _ => Renamed.placeFault? allowed).bind fun _ _ _ => ?_
  refine (rejectFirst_renamed hx.registers fun _ _ => h.fixedFault? hρ).bind fun _ _ _ => ?_
  exact rejectFirst_renamed hx.interference fun _ _ => h.clashFault? hρ

protected theorem reserve (h : a.Renamed ρ b) (backups : List HardwareRegister) :
    (a.reserve backups).Renamed ρ (b.reserve backups) := by
  refine ⟨h.assigned.insertAll hρ.registers (List.forall₂_same.mpr fun e he => ?_), h.spills⟩
  obtain ⟨k, -, rfl⟩ := List.mem_map.mp he
  exact ⟨.fixed k, rfl⟩

end Renamed

variable (hρ : IsRenaming ρ)
include hρ

theorem ofColors_renamed {s t : InsertionSet Register} (hs : s.Renamed (Register.Renamed ρ) t)
    {c d : InsertionMap Register HardwareRegister}
    (hc : c.Renamed (Register.Renamed ρ) (· = ·) d) :
    (ofColors s c).Renamed ρ (ofColors t d) where
  assigned := .ofPartial hs fun _ _ hr => hc.get? hρ.registers hr
  spills := hs.filter fun _ _ hr => by rw [hc.get?_eq hρ.registers hr]

theorem allocate_renamed (h : x.Renamed ρ y) (allowed : List HardwareRegister) :
    SameOutcome SameKind (Renamed ρ) (allocate Coloring.firstFit x allowed)
      (allocate Coloring.firstFit y allowed) := by
  have hcolors := Coloring.firstFit_renamed hρ.registers (h.coloringProblem hρ allowed)
  refine .bind (.mapError (h.checkInput hρ allowed) ?_) fun _ _ _ =>
    .bind (.mapError hcolors ?_) fun c d hc => ?_
  · exact fun _ _ _ => rfl
  · exact fun _ _ _ => rfl
  · have ha := ofColors_renamed hρ h.registers hc
    exact (ha.validate hρ h allowed).bind fun _ _ _ => .ok ha

/-- Renamed registers get the places of the registers they stand for. -/
theorem allocateWithRetry_renamed (h : x.Renamed ρ y) (c : Convention) :
    SameOutcome SameKind (Renamed ρ) (allocateWithRetry Coloring.firstFit x c)
      (allocateWithRetry Coloring.firstFit y c) := by
  refine (allocate_renamed hρ h c.allowed).bind fun a b hab => ?_
  rw [hab.isSpillFree_eq]
  refine ite_renamed Iff.rfl (.ok hab) ?_
  exact (allocate_renamed hρ h c.allowedWithoutBackups).bind fun a b hab =>
    .ok (hab.reserve hρ c.backups)

end Allocation

end Lowering
