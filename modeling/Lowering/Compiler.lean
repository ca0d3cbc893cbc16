import Lowering.Allocation.ByColoring
import Lowering.Convention.SystemV
import Lowering.Layout
import Lowering.Spill

/-!
# Compiling a function

The whole way from a control flow graph to code in hardware registers: lay out
the graph, find how its registers interact, place them, and move to the stack
what does not fit.
-/

namespace Lowering

universe u

variable {Tree : Type u}

/-- What a compilation needs to know beside the function. -/
structure Compiler where
  options : Options
  convention : Convention
deriving DecidableEq, Inhabited, Repr

/-- A function with a place for every register of its code, and with the slots of those that
were spilled. -/
structure CompiledFunction where
  name : String
  code : Fragment
  allocation : Allocation
  slots : InsertionMap VirtualRegister FrameSlot
deriving DecidableEq

namespace Compiler

/-- The compiler for the System V convention. -/
def systemV (o : Options) : Except Error Compiler := do
  let convention ← SystemV.convention o
  return ⟨o, convention⟩

/-- Finds how the registers of code interact, as far as the options ask for. -/
def analyze (c : Compiler) (code : Fragment) : Except Error Interaction := do
  let i ← Interaction.analyze code c.convention.preserved c.convention.alwaysLive
  return if c.options.disableCoalescing then i.withoutCopying else i

/-- The registers of code, and those that every function has. -/
def registersOf (c : Convention) (code : Fragment) : InsertionSet Register :=
  ((InsertionSet.ofList (code.instructions.flatMap fun i => i.reads ++ i.writes)).insertAll
    (c.preserved.map .fixed)).insertAll (c.alwaysLive.map .fixed)

/-- The place of a register in code with spills: where it was placed, or for a
fixed register itself. -/
def finalPlace? (a : Allocation) (r : Register) : Option HardwareRegister :=
  (a.place? r).or r.fixed?

/-- The places of the registers of the code with spills. -/
def afterSpilling (c : Convention) (code : Fragment) (a : Allocation) :
    Except Error Allocation := do
  let registers := registersOf c code
  (rejectFirst registers.toList fun r =>
    if (finalPlace? a r).isSome then none else some (.unplacedAfterSpilling r)).mapError
      .invalidAllocation
  return ⟨.ofPartial registers (finalPlace? a), ∅⟩

/-- The places of the registers of the code with spills, checked against that
code if the options ask for it. -/
def finish (c : Compiler) (name : String) (s : SpilledCode) (a : Allocation) :
    Except Error CompiledFunction := do
  let a ← afterSpilling c.convention s.code a
  if c.options.disableValidation then
    return ⟨name, s.code, a, s.slots⟩
  else
    let i ← c.analyze s.code
    a.validate i c.convention.allowed
    return ⟨name, s.code, a, s.slots⟩

/-- The code of a graph, how its registers interact, and their places. -/
def place (c : Compiler) (selection : Selection Tree) (graph : FlowGraph Tree) :
    Except Error (Fragment × Interaction × Allocation) := do
  let code ← graph.layOut selection
  let i ← c.analyze code
  let a ← Allocation.allocateWithRetry Coloring.firstFit i c.convention
  return (code, i, a)

/-- Compiles a function. Spilled registers take slots from the frame, which is
returned in every case. -/
def compile
    (c : Compiler) (selection : Selection Tree) (graph : FlowGraph Tree) (frame : Frame) :
    Frame × Except Error CompiledFunction :=
  match c.place selection graph with
  | .error e => (frame, .error e)
  | .ok (code, i, a) =>
    if a.isSpillFree then
      (frame, .ok ⟨graph.name, code, a, ∅⟩)
    else
      match Spill.moveToStack selection Coloring.firstFit frame code i a c.convention.backups with
      | (frame, .error e) => (frame, .error e)
      | (frame, .ok s) => (frame, c.finish graph.name s a)

end Compiler

end Lowering
