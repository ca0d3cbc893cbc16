import Lowering.Interaction

/-!
# Allocations

An allocation gives registers their places: a hardware register, or none for the
registers that are spilled to the stack. `Allocation.check` accepts exactly the
allocations in which

* each register of the function has a place or is spilled, and not both;
* all places are allowed;
* a fixed register is its own place;
* interfering registers have different places.
-/

namespace Lowering

/-- The places of the registers of a function, and the registers that go to the stack. -/
@[ext]
structure Allocation where
  assigned : InsertionMap Register HardwareRegister
  spills : InsertionSet Register
deriving DecidableEq

namespace Allocation

def place? (a : Allocation) (r : Register) : Option HardwareRegister :=
  a.assigned.get? r

/-- Whether every register has a place. -/
def isSpillFree (a : Allocation) : Bool :=
  a.spills.isEmpty

/-- The fault of a register that has a place and belongs to another function. -/
def strayFault? (i : Interaction) (r : Register) : Option AllocationFault :=
  if r ∈ i.registers then none else some (.strayAssigned r)

/-- The fault of a spilled register that belongs to another function, or has a
place too. -/
def spillFault? (i : Interaction) (a : Allocation) (r : Register) : Option AllocationFault :=
  if r ∈ i.registers then
    if r ∈ a.assigned then some (.assignedAndSpilled r) else none
  else
    some (.straySpilled r)

/-- The fault of a register that is neither placed nor spilled. -/
def lostFault? (a : Allocation) (r : Register) : Option AllocationFault :=
  if r ∈ a.assigned ∨ r ∈ a.spills then none else some (.unplaced r)

/-- The fault of a place that is not allowed, or not that of a fixed register. -/
def placeFault? (allowed : List HardwareRegister) (e : Register × HardwareRegister) :
    Option AllocationFault :=
  if e.2 ∈ allowed then
    match e.1.fixed? with
    | some h => if h = e.2 then none else some (.fixedMoved e.1 e.2)
    | none => none
  else
    some (.placeNotAllowed e.1 e.2)

/-- The fault of a fixed register that is spilled. -/
def fixedFault? (a : Allocation) (r : Register) : Option AllocationFault :=
  if r.isFixed = true ∧ r ∈ a.spills then some (.fixedSpilled r) else none

/-- The fault of a register that shares its place with one that interferes. -/
def clashFault? (a : Allocation) (e : Register × InsertionSet Register) :
    Option AllocationFault :=
  match a.place? e.1 with
  | none => none
  | some h =>
    e.2.toList.findSome? fun b =>
      if a.place? b = some h then some (.clash e.1 b h) else none

/-- Refuses an allocation that breaks a rule, for the first fault found. -/
def check (a : Allocation) (i : Interaction) (allowed : List HardwareRegister) :
    Except AllocationFault Unit := do
  rejectFirst a.assigned.keys.toList (strayFault? i)
  rejectFirst a.spills.toList (spillFault? i a)
  rejectFirst i.registers.toList (lostFault? a)
  rejectFirst a.assigned.entries (placeFault? allowed)
  rejectFirst i.registers.toList (fixedFault? a)
  rejectFirst i.interference.entries (clashFault? a)

/-- Checks an allocation against the registers that it was made for. -/
def validate (a : Allocation) (i : Interaction) (allowed : List HardwareRegister) :
    Except Error Unit :=
  (a.check i allowed).mapError .invalidAllocation

def text (a : Allocation) : String :=
  "assigned:\n" ++ .join (a.assigned.entries.map fun e => s!"  {e.1} -> {e.2}\n") ++
    "spilled: " ++ Text.bracketed (a.spills.toList.map Register.text)

end Allocation

end Lowering
