import Lowering.Allocation
import Lowering.Coloring.Problem
import Lowering.Frame

/-!
# Stack slots for spilled registers

Spilled registers that do not interfere may share a slot. The sharing is again a
coloring problem: the vertices are the spilled registers, the colors number the
slots, and references never share a slot with other values.
-/

namespace Lowering.Spill

/-- The relation between spilled registers that a relation between registers
amounts to. -/
def restrict (g : Relation Register) (spilled : InsertionSet VirtualRegister) :
    Relation VirtualRegister :=
  .ofKeys spilled fun v =>
    .ofList ((g.neighbors (.virtual v)).toList.filterMap fun r =>
      match r with
      | .virtual w => if w ∈ spilled then some w else none
      | .fixed _ => none)

/-- The pairs of a reference and another value. -/
def mixedPairs (spilled : InsertionSet VirtualRegister) : List (VirtualRegister × VirtualRegister) :=
  (orderedPairs spilled.toList).filter fun p => p.1.holdsReference != p.2.holdsReference

/-- The coloring problem for slots. One color for each register is enough. -/
def coloringProblem (i : Interaction) (spilled : InsertionSet VirtualRegister) :
    ColoringProblem VirtualRegister Nat where
  graph := (restrict i.interference spilled).addEdges (mixedPairs spilled)
  coalesce := restrict i.copying spilled
  fixed := ∅
  allowed := List.range spilled.size

/-- Notes the color of a register and whether that color is for references. -/
def addKind
    (colors : InsertionMap VirtualRegister Nat) (kinds : InsertionMap Nat Bool)
    (r : VirtualRegister) : Except SpillFault (InsertionMap Nat Bool) :=
  match colors.get? r with
  | none => .error (.noSlot r)
  | some c =>
    match kinds.get? c with
    | none => .ok (kinds.insert c r.holdsReference)
    | some kind => if kind = r.holdsReference then .ok kinds else .error (.mixedSlot c)

/-- The colors in the order of their first use, each with its kind of value. -/
def kinds (colors : InsertionMap VirtualRegister Nat) (spilled : InsertionSet VirtualRegister) :
    Except SpillFault (InsertionMap Nat Bool) :=
  spilled.toList.foldlM (addKind colors) ∅

/-- Takes a slot from the frame for each color. -/
def takeSlots (frame : Frame) (kinds : InsertionMap Nat Bool) :
    Frame × InsertionMap Nat FrameSlot :=
  kinds.entries.foldl
    (fun s e => (s.1.extend e.2, s.2.insert e.1 (s.1.nextSlot e.2))) (frame, ∅)

/-- The slots of the spilled registers, and the frame after they were taken. -/
def assignSlots
    (solver : Solver VirtualRegister Nat) (frame : Frame) (i : Interaction)
    (spilled : InsertionSet VirtualRegister) :
    Except Error (Frame × InsertionMap VirtualRegister FrameSlot) := do
  let colors ← (solver (coloringProblem i spilled)).mapError fun loop =>
    .invalidInput (.adjacentToItself loop.vertex.inspect)
  let kinds ← (kinds colors spilled).mapError .spilling
  let (frame, slots) := takeSlots frame kinds
  return (frame, .ofPartial spilled fun v => (colors.get? v).bind slots.get?)

end Lowering.Spill
