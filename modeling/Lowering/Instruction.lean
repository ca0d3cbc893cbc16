import Lowering.Frame
import Lowering.Register

/-!
# Instructions

An operation does the work of straight-line code: it computes, copies a register
or moves a register to or from the stack. An instruction of a block is an
operation or directs control: it names a place in the code or jumps to one.

Later stages see an instruction through three functions only: the registers it
reads, the registers it writes, and the copy it makes.
-/

namespace Lowering

/-- The name of a place in the code. -/
structure Label where
  name : String
deriving DecidableEq, Inhabited, Repr

instance : ToString Label :=
  ⟨Label.name⟩

/-- A move between a register and the stack: a load fills the register, a store saves it. -/
inductive Transfer
  | load (register : Register) (slot : FrameSlot)
  | store (slot : FrameSlot) (register : Register)
deriving DecidableEq, Inhabited, Repr

/-- A copy of one register into another. -/
structure Copy where
  into : Register
  source : Register
deriving DecidableEq, Inhabited, Repr

/-- One piece of straight-line work. A computation has a name and the registers that it
reads and writes. -/
inductive Operation
  | compute (name : String) (reads writes : List Register)
  | copy (copy : Copy)
  | transfer (transfer : Transfer)
deriving DecidableEq, Inhabited, Repr

/-- An instruction of machine code. A fused copy does other work too: what it reads and
writes is stated apart from the two registers of the copy. A branch is taken if the
condition has the value `jumpIf`. -/
inductive Instruction
  | operate (operation : Operation)
  | fusedCopy (copy : Copy) (reads writes : List Register)
  | label (label : Label)
  | jump (label : Label)
  | branch (label : Label) (jumpIf : Bool)
deriving DecidableEq, Inhabited, Repr

namespace Transfer

def register : Transfer → Register
  | load r _ => r
  | store _ r => r

def slot : Transfer → FrameSlot
  | load _ s => s
  | store s _ => s

def reads : Transfer → List Register
  | load _ _ => []
  | store _ r => [r]

def writes : Transfer → List Register
  | load r _ => [r]
  | store _ _ => []

def map (f : Register → Register) : Transfer → Transfer
  | load r s => load (f r) s
  | store s r => store s (f r)

@[simp]
theorem reads_map (f : Register → Register) (t : Transfer) :
    (t.map f).reads = t.reads.map f := by
  cases t <;> rfl

@[simp]
theorem writes_map (f : Register → Register) (t : Transfer) :
    (t.map f).writes = t.writes.map f := by
  cases t <;> rfl

def text : Transfer → String
  | load r s => s!"spill {r} <- [{s}]"
  | store s r => s!"spill [{s}] <- {r}"

end Transfer

def Copy.map (f : Register → Register) (c : Copy) : Copy :=
  ⟨f c.into, f c.source⟩

/-- The printed effect of an instruction: what it writes from what it reads. -/
def effectText (reads writes : List Register) : String :=
  Text.bracketed (writes.map Register.text) ++ " <- " ++
    Text.bracketed (reads.map Register.text)

namespace Operation

def reads : Operation → List Register
  | compute _ r _ => r
  | copy c => [c.source]
  | transfer t => t.reads

def writes : Operation → List Register
  | compute _ _ w => w
  | copy c => [c.into]
  | transfer t => t.writes

def copy? : Operation → Option Copy
  | copy c => some c
  | _ => none

def map (f : Register → Register) : Operation → Operation
  | compute name r w => compute name (r.map f) (w.map f)
  | copy c => copy (c.map f)
  | transfer t => transfer (t.map f)

@[simp]
theorem reads_map (f : Register → Register) (o : Operation) :
    (o.map f).reads = o.reads.map f := by
  cases o with
  | transfer t => exact t.reads_map f
  | _ => rfl

@[simp]
theorem writes_map (f : Register → Register) (o : Operation) :
    (o.map f).writes = o.writes.map f := by
  cases o with
  | transfer t => exact t.writes_map f
  | _ => rfl

@[simp]
theorem copy?_map (f : Register → Register) (o : Operation) :
    (o.map f).copy? = o.copy?.map (Copy.map f) := by
  cases o <;> rfl

def text : Operation → String
  | compute name r w => name ++ " " ++ effectText r w
  | copy c => s!"mov {c.into} <- {c.source}"
  | transfer t => t.text

end Operation

namespace Instruction

/-- The registers that the instruction reads. -/
def reads : Instruction → List Register
  | operate o => o.reads
  | fusedCopy _ r _ => r
  | _ => []

/-- The registers that the instruction writes. -/
def writes : Instruction → List Register
  | operate o => o.writes
  | fusedCopy _ _ w => w
  | _ => []

/-- The copy that the instruction makes. -/
def copy? : Instruction → Option Copy
  | operate o => o.copy?
  | fusedCopy c _ _ => some c
  | _ => none

def label? : Instruction → Option Label
  | label l => some l
  | _ => none

/-- Whether the instruction names a place in the code. -/
def isLabel (i : Instruction) : Bool :=
  i.label?.isSome

/-- The target of an unconditional jump. -/
def jump? : Instruction → Option Label
  | jump l => some l
  | _ => none

/-- The target of a conditional jump, with the value on which it is taken. -/
def branch? : Instruction → Option (Label × Bool)
  | branch l b => some (l, b)
  | _ => none

def computation? : Instruction → Option String
  | operate (.compute name _ _) => some name
  | _ => none

/-- The move between a register and the stack. -/
def transfer? : Instruction → Option Transfer
  | operate (.transfer t) => some t
  | _ => none

def map (f : Register → Register) : Instruction → Instruction
  | operate o => operate (o.map f)
  | fusedCopy c r w => fusedCopy (c.map f) (r.map f) (w.map f)
  | label l => label l
  | jump l => jump l
  | branch l b => branch l b

@[simp]
theorem reads_map (f : Register → Register) (i : Instruction) :
    (i.map f).reads = i.reads.map f := by
  cases i with
  | operate o => exact o.reads_map f
  | _ => rfl

@[simp]
theorem writes_map (f : Register → Register) (i : Instruction) :
    (i.map f).writes = i.writes.map f := by
  cases i with
  | operate o => exact o.writes_map f
  | _ => rfl

@[simp]
theorem copy?_map (f : Register → Register) (i : Instruction) :
    (i.map f).copy? = i.copy?.map (Copy.map f) := by
  cases i with
  | operate o => exact o.copy?_map f
  | _ => rfl

def text : Instruction → String
  | operate o => o.text
  | fusedCopy c r w => s!"xmov {c.into} <- {c.source} " ++ effectText r w
  | label l => s!"{l}:"
  | jump l => s!"jmp {l}"
  | branch l true => s!"jnz {l}"
  | branch l false => s!"jz {l}"

instance : ToString Instruction :=
  ⟨text⟩

end Instruction

end Lowering
