import Lowering.FlowGraph
import Lowering.Spill.Slots

/-!
# Code that keeps registers on the stack

An instruction that uses spilled registers works on backup registers instead:
before it, what it reads is loaded from the stack, and after it, what it writes
is stored. A copy between registers that share a slot is dropped.
-/

namespace Lowering.Spill

universe u

variable {Tree : Type u}

/-- The slot of a register, if it is spilled. -/
def slot? (slots : InsertionMap VirtualRegister FrameSlot) (r : Register) : Option FrameSlot :=
  r.virtual?.bind slots.get?

/-- The spilled registers among some registers, each once. -/
def spilledAmong (slots : InsertionMap VirtualRegister FrameSlot) (registers : List Register) :
    InsertionSet Register :=
  (InsertionSet.ofList registers).filter fun r => (slot? slots r).isSome

/-- Whether an instruction copies between registers that share a slot. -/
def isRedundant (slots : InsertionMap VirtualRegister FrameSlot) (i : Instruction) : Bool :=
  match i.copy? with
  | none => false
  | some c =>
    match slot? slots c.into, slot? slots c.source with
    | some s, some t => decide (s = t)
    | _, _ => false

/-- The backup registers that an instruction does not use itself. -/
def freeBackups (backups : List HardwareRegister) (i : Instruction) : List HardwareRegister :=
  backups.filter fun b => decide (¬ Register.fixed b ∈ i.reads ∧ ¬ Register.fixed b ∈ i.writes)

/-- The backup register that takes the place of a register, or the register
itself. -/
def substitute (substitution : InsertionMap Register Register) (r : Register) : Register :=
  (substitution.get? r).getD r

/-- The code that moves registers between the stack and their backup registers. -/
def transfers
    (selection : Selection Tree) (slots : InsertionMap VirtualRegister FrameSlot)
    (transfer : Register → FrameSlot → Transfer) (registers : InsertionSet Register) :
    List Instruction :=
  registers.toList.flatMap fun r =>
    match slot? slots r with
    | some s => selection.coverTransfer (transfer r s)
    | none => []

/-- The code that takes the place of an instruction. -/
def expandInstruction
    (selection : Selection Tree) (slots : InsertionMap VirtualRegister FrameSlot)
    (backups : List HardwareRegister) (i : Instruction) :
    Except SpillFault (List Instruction) :=
  let reads := spilledAmong slots i.reads
  let writes := spilledAmong slots i.writes
  if reads.isEmpty && writes.isEmpty then
    .ok [i]
  else if isRedundant slots i then
    .ok []
  else
    let used := reads.insertAll writes.toList
    let free := freeBackups backups i
    if free.length < used.size then
      .error (.tooFewBackups i used.size free.length)
    else
      let backup := substitute (.ofList (used.toList.zip (free.map .fixed)))
      .ok (transfers selection slots (fun r s => .load (backup r) s) reads ++
        [i.map backup] ++
        transfers selection slots (fun r s => .store s (backup r)) writes)

/-- Whether an instruction reads or writes a spilled register. -/
def touchesSpill (slots : InsertionMap VirtualRegister FrameSlot) (i : Instruction) : Bool :=
  (i.reads ++ i.writes).any fun r => (slot? slots r).isSome

/-- The block with the code for its instructions in their places. A block that touches no
spilled register is carried over. -/
def expandBlock
    (selection : Selection Tree) (slots : InsertionMap VirtualRegister FrameSlot)
    (backups : List HardwareRegister) (b : Block) : Except SpillFault Block := do
  if b.instructions.any (touchesSpill slots) then
    let pieces ← b.instructions.mapM (expandInstruction selection slots backups)
    return { b with instructions := pieces.flatten }
  else
    return b

/-- The code of a function with its spilled registers on the stack. -/
def expandFragment
    (selection : Selection Tree) (slots : InsertionMap VirtualRegister FrameSlot)
    (backups : List HardwareRegister) (f : Fragment) : Except SpillFault Fragment := do
  let blocks ← f.blocks.mapM (expandBlock selection slots backups)
  return { f with blocks := blocks }

end Lowering.Spill
