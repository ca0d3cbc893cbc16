import Lowering.Spill.Expansion

/-!
# Moving spilled registers to the stack

All of spilling: the spilled registers of an allocation get slots in the frame,
and the code is expanded to load and store them. Slots that were taken stay taken
even if an instruction turns out to have no expansion, so the frame is returned
in every case.
-/

namespace Lowering

universe u

variable {Tree : Type u}

/-- The code with spilled registers on the stack, and their slots. -/
structure SpilledCode where
  code : Fragment
  slots : InsertionMap VirtualRegister FrameSlot
deriving DecidableEq

namespace Spill

/-- The fault of a virtual register placed in a backup register. -/
def backupFault? (backups : List HardwareRegister) (e : Register × HardwareRegister) :
    Option SpillFault :=
  if e.1.isFixed = false ∧ e.2 ∈ backups then some (.backupAssigned e.2 e.1) else none

/-- The fault of a fixed register that is spilled. -/
def fixedFault? (r : Register) : Option SpillFault :=
  r.fixed?.map .fixedSpilled

/-- Refuses an allocation that leaves spill code no way to work. -/
def checkAllocation (a : Allocation) (backups : List HardwareRegister) :
    Except SpillFault Unit := do
  rejectFirst a.assigned.entries (backupFault? backups)
  rejectFirst a.spills.toList fixedFault?

/-- The spilled registers of an allocation. -/
def spilledRegisters (a : Allocation) : InsertionSet VirtualRegister :=
  .ofList (a.spills.toList.filterMap Register.virtual?)

/-- Moves the spilled registers of an allocation to the stack. -/
def moveToStack
    (selection : Selection Tree) (solver : Solver VirtualRegister Nat) (frame : Frame)
    (code : Fragment) (i : Interaction) (a : Allocation) (backups : List HardwareRegister) :
    Frame × Except Error SpilledCode :=
  match checkAllocation a backups with
  | .error fault => (frame, .error (.spilling fault))
  | .ok () =>
    let spilled := spilledRegisters a
    if spilled.isEmpty then
      (frame, .ok ⟨code, ∅⟩)
    else
      match assignSlots solver frame i spilled with
      | .error e => (frame, .error e)
      | .ok (frame, slots) =>
        match expandFragment selection slots backups code with
        | .error fault => (frame, .error (.spilling fault))
        | .ok code => (frame, .ok ⟨code, slots⟩)

/-- The coloring problems that are posed while spilled registers are moved. -/
def posed (i : Interaction) (a : Allocation) (backups : List HardwareRegister) :
    List (ColoringProblem VirtualRegister Nat) :=
  match checkAllocation a backups with
  | .error _ => []
  | .ok () =>
    let spilled := spilledRegisters a
    if spilled.isEmpty then [] else [coloringProblem i spilled]

end Spill

end Lowering
