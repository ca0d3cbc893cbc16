import Lowering.Instruction

/-!
# Errors

What can go wrong, by cause. There are four kinds: malformed input, spilling
that cannot be carried out, a result that breaks its own rules, and options that
make no sense. Each cause has one wording, and the message of an error is the
heading of its kind followed by that wording.
-/

namespace Lowering

/-- The two relations between the registers of a function: that they need different places,
and that one holds a copy of the other. -/
inductive RelationKind
  | interference
  | copying
deriving DecidableEq, Inhabited, Repr

def RelationKind.name : RelationKind → String
  | interference => "interference"
  | copying => "copying"

/-- Why an input is refused. The vertex that is adjacent to itself is one of a coloring
problem and comes as text; the missing one is one of a flow graph. -/
inductive InputFault
  | missingVertex (function : String) (vertex : Nat)
  | emptyBlock (function : String) (block : Label)
  | unknownRegister (register : Register) (relation : RelationKind)
  | selfInterference (register : Register)
  | fixedNotAllowed (register : HardwareRegister)
  | adjacentToItself (vertex : String)
deriving DecidableEq, Inhabited, Repr

/-- Why spilled registers cannot be moved to the stack. A backup register has to be free, a
slot holds references or other values but not both, and an instruction may need more
backup registers than there are. -/
inductive SpillFault
  | backupAssigned (backup : HardwareRegister) (register : Register)
  | fixedSpilled (register : HardwareRegister)
  | noSlot (register : VirtualRegister)
  | mixedSlot (slot : Nat)
  | tooFewBackups (instruction : Instruction) (needed available : Nat)
deriving DecidableEq, Inhabited, Repr

/-- Which rule an allocation breaks. A stray register is one of some other function. -/
inductive AllocationFault
  | strayAssigned (register : Register)
  | straySpilled (register : Register)
  | assignedAndSpilled (register : Register)
  | unplaced (register : Register)
  | placeNotAllowed (register : Register) (place : HardwareRegister)
  | fixedMoved (register : Register) (place : HardwareRegister)
  | fixedSpilled (register : Register)
  | clash (first second : Register) (place : HardwareRegister)
  | unplacedAfterSpilling (register : Register)
deriving DecidableEq, Inhabited, Repr

/-- Why options are refused. -/
inductive OptionFault
  | malformedArguments
  | unknownRegister (name : String)
  | unknownLogLevel (name : String)
  | preservedNotAllowed (register : HardwareRegister)
  | backupNotAllowed (register : HardwareRegister)
  | backupPreserved (register : HardwareRegister)
  | alwaysLiveNotAllowed (register : HardwareRegister)
  | backupAlwaysLive (register : HardwareRegister)
deriving DecidableEq, Inhabited, Repr

/-- An error, by kind and cause. -/
inductive Error
  | invalidInput (fault : InputFault)
  | spilling (fault : SpillFault)
  | invalidAllocation (fault : AllocationFault)
  | invalidOptions (fault : OptionFault)
deriving DecidableEq, Inhabited, Repr

namespace InputFault

def text : InputFault → String
  | missingVertex function vertex => s!"{function}: no vertex labelled L{vertex}"
  | emptyBlock function block => s!"{function}: block {block} has no instructions"
  | unknownRegister r relation =>
    s!"register {r} appears in the {relation.name} relation but not among all registers"
  | selfInterference r => s!"register {r} interferes with itself"
  | fixedNotAllowed r => s!"fixed register {r} is not an allowed register"
  | adjacentToItself vertex => s!"graph coloring: vertex {vertex} is adjacent to itself"

end InputFault

namespace SpillFault

def text : SpillFault → String
  | backupAssigned backup r => s!"backup register {backup} is assigned to {r}"
  | fixedSpilled r => s!"fixed register {r} cannot be spilled"
  | noSlot r => s!"no stack slot chosen for spilled register {r}"
  | mixedSlot slot => s!"stack slot {slot} would hold references and non-references"
  | tooFewBackups i needed available =>
    s!"'{i}' uses {needed} spilled registers but only {available} backup registers are free"

end SpillFault

namespace AllocationFault

def text : AllocationFault → String
  | strayAssigned r => s!"{r} is assigned but is not a register of the function"
  | straySpilled r => s!"{r} is spilled but is not a register of the function"
  | assignedAndSpilled r => s!"{r} is both assigned and spilled"
  | unplaced r => s!"{r} is neither assigned nor spilled"
  | placeNotAllowed r place => s!"{r} is assigned to {place}, which is not allowed"
  | fixedMoved r place => s!"fixed register {r} is assigned to {place}"
  | fixedSpilled r => s!"fixed register {r} is spilled"
  | clash a b place => s!"{a} and {b} interfere but are both assigned to {place}"
  | unplacedAfterSpilling r => s!"{r} has no hardware register after spill rewriting"

end AllocationFault

namespace OptionFault

def text : OptionFault → String
  | malformedArguments => "malformed arguments"
  | unknownRegister name => s!"unknown register {name}"
  | unknownLogLevel name => s!"unrecognised log level {name}"
  | preservedNotAllowed r => s!"preserved register {r} is not allocatable"
  | backupNotAllowed r => s!"backup register {r} is not allocatable"
  | backupPreserved r => s!"backup register {r} is also preserved"
  | alwaysLiveNotAllowed r => s!"always live register {r} is not allocatable"
  | backupAlwaysLive r => s!"backup register {r} is always live"

end OptionFault

namespace Error

def message : Error → String
  | invalidInput fault => "invalid input: " ++ fault.text
  | spilling fault => "spill handling failed: " ++ fault.text
  | invalidAllocation fault =>
    "register allocation produced an invalid result: " ++ fault.text
  | invalidOptions fault => "invalid compiler options: " ++ fault.text

end Error

/-- Refuses a list for its first item with a fault. -/
def rejectFirst {α ε : Type} (items : List α) (fault? : α → Option ε) : Except ε Unit :=
  match items.findSome? fault? with
  | some e => .error e
  | none => .ok ()

theorem rejectFirst_eq_ok_iff {α ε : Type} {items : List α} {fault? : α → Option ε} :
    rejectFirst items fault? = .ok () ↔ ∀ a ∈ items, fault? a = none := by
  rw [← List.findSome?_eq_none_iff]
  unfold rejectFirst
  cases items.findSome? fault? <;> simp

theorem rejectFirst_eq_error_iff {α ε : Type} {items : List α} {fault? : α → Option ε} {e : ε} :
    rejectFirst items fault? = .error e ↔ items.findSome? fault? = some e := by
  unfold rejectFirst
  cases items.findSome? fault? <;> simp

end Lowering
