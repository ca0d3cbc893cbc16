import Lowering.Error
import Lowering.Fragment

/-!
# Program points

The instructions of a fragment, numbered through in layout order. Each point
knows what its instruction reads and writes and at which points control may go
on, so the analyses that follow need not look at blocks again.
-/

namespace Lowering

/-- An instruction seen as a point of the control flow: the number of its block, its place in
the block, the registers it reads and writes, each once, the numbers of the points that may
come next, and the copy it makes. -/
structure Point where
  block : Nat
  index : Nat
  reads : InsertionSet Register
  writes : InsertionSet Register
  successors : List Nat
  copy? : Option Copy
deriving DecidableEq

namespace Fragment

/-- The number of instructions before a block. -/
def offset (f : Fragment) (block : Nat) : Nat :=
  ((f.blocks.take block).flatMap Block.instructions).length

/-- The number of the first point of a block. -/
def entry? (f : Fragment) (block : Nat) : Option Nat :=
  if block < f.blocks.length then some (f.offset block) else none

/-- The points that may follow the instruction at a place in a block: the next
instruction of the block, or the first ones of the blocks after it. Linked code, as the
compiler has it throughout, mentions no other numbers than those of its blocks. -/
def following (f : Fragment) (block : Nat) (b : Block) (index : Nat) : List Nat :=
  if index + 1 < b.instructions.length then
    [f.offset block + index + 1]
  else
    b.successors.toList.filterMap f.entry?

def blockPoints (f : Fragment) (block : Nat) (b : Block) : List Point :=
  b.instructions.zipIdx.map fun i =>
    { block := block
      index := i.2
      reads := .ofList i.1.reads
      writes := .ofList i.1.writes
      successors := f.following block b i.2
      copy? := i.1.copy? }

/-- The points of all blocks in layout order. -/
def points (f : Fragment) : List Point :=
  f.blocks.zipIdx.flatMap fun b => f.blockPoints b.2 b.1

/-- Refuses code in which a block has no instruction: control could not pass
through such a block. -/
def checkBlocks (f : Fragment) : Except InputFault Unit :=
  rejectFirst f.blocks fun b => if b.isEmpty then some (.emptyBlock f.name b.label) else none

/-- The points of the code, if no block is empty. -/
def flatten (f : Fragment) : Except Error (List Point) :=
  match f.checkBlocks with
  | .error fault => .error (.invalidInput fault)
  | .ok () => .ok f.points

end Fragment

end Lowering
