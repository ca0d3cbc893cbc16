import Lowering.Allocation
import Lowering.Coloring.FirstFit
import Lowering.Convention

/-!
# Allocating registers by coloring

The places of registers are found by coloring a graph whose vertices are the
registers of the function and the allowed hardware registers, and whose colors
are the allowed hardware registers. Registers that get no color are spilled.

If a first attempt spills, a second one sets the backup registers aside, so that
spill code can use them.
-/

namespace Lowering

namespace Interaction

/-- The fault of an entry that mentions a register of another function. -/
def unknownFault? (i : Interaction) (kind : RelationKind)
    (e : Register × InsertionSet Register) : Option InputFault :=
  (e.1 :: e.2.toList).findSome? fun r =>
    if r ∈ i.registers then none else some (.unknownRegister r kind)

/-- The fault of a fixed register that may not be allocated. -/
def fixedFault? (allowed : List HardwareRegister) (r : Register) : Option InputFault :=
  match r.fixed? with
  | some h => if h ∈ allowed then none else some (.fixedNotAllowed h)
  | none => none

/-- Refuses an interaction for which there is no allocation problem. -/
def checkInput (i : Interaction) (allowed : List HardwareRegister) : Except InputFault Unit := do
  rejectFirst i.interference.entries (i.unknownFault? .interference)
  rejectFirst i.copying.entries (i.unknownFault? .copying)
  rejectFirst i.interference.selfLoop?.toList fun r => some (.selfInterference r)
  rejectFirst i.registers.toList (fixedFault? allowed)

/-- The graph of an allocation problem: the registers with their interference,
and the allowed hardware registers, all different from each other. -/
def graph (i : Interaction) (allowed : List HardwareRegister) : Relation Register :=
  let fixed := allowed.map Register.fixed
  let registers := (Relation.discrete i.registers).addEdges i.interference.symmetricClosure.pairs
  (fixed.foldl Relation.addVertex registers).addEdges (orderedPairs fixed)

/-- The coloring problem that has the allocations as its solutions. -/
def coloringProblem (i : Interaction) (allowed : List HardwareRegister) :
    ColoringProblem Register HardwareRegister :=
  let graph := i.graph allowed
  { graph := graph
    coalesce := i.copying
    fixed := .ofPartial graph.keys Register.fixed?
    allowed := allowed }

/-- The coloring problem that is posed for an interaction, unless it is refused. -/
def posed (i : Interaction) (allowed : List HardwareRegister) :
    List (ColoringProblem Register HardwareRegister) :=
  match i.checkInput allowed with
  | .error _ => []
  | .ok () => [i.coloringProblem allowed]

end Interaction

namespace Allocation

/-- Places the registers that have a color and spills the others. -/
def ofColors (registers : InsertionSet Register) (colors : InsertionMap Register HardwareRegister) :
    Allocation where
  assigned := .ofPartial registers colors.get?
  spills := registers.filter fun r => (colors.get? r).isNone

/-- Places registers with the colors that a solver finds. The result is checked,
whatever the solver answers. -/
def allocate
    (solver : Solver Register HardwareRegister) (i : Interaction)
    (allowed : List HardwareRegister) : Except Error Allocation := do
  (i.checkInput allowed).mapError .invalidInput
  let colors ← (solver (i.coloringProblem allowed)).mapError fun loop =>
    .invalidInput (.adjacentToItself loop.vertex.inspect)
  let a := ofColors i.registers colors
  a.validate i allowed
  return a

/-- Makes each backup register its own place. -/
def reserve (a : Allocation) (backups : List HardwareRegister) : Allocation :=
  { a with assigned := a.assigned.insertAll (backups.map fun b => (.fixed b, b)) }

/-- Places registers under a convention. If something is spilled, the attempt is
repeated with the backup registers set aside. -/
def allocateWithRetry
    (solver : Solver Register HardwareRegister) (i : Interaction) (c : Convention) :
    Except Error Allocation := do
  let first ← allocate solver i c.allowed
  if first.isSpillFree then
    return first
  else
    let second ← allocate solver i c.allowedWithoutBackups
    return second.reserve c.backups

/-- The coloring problems that are posed in turn while registers are placed under
a convention. -/
def posedWithRetry
    (solver : Solver Register HardwareRegister) (i : Interaction) (c : Convention) :
    List (ColoringProblem Register HardwareRegister) :=
  i.posed c.allowed ++
    match allocate solver i c.allowed with
    | .error _ => []
    | .ok first => if first.isSpillFree then [] else i.posed c.allowedWithoutBackups

end Allocation

end Lowering
