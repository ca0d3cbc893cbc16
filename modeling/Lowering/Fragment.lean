import Lowering.Collection.InsertionSet
import Lowering.Instruction

/-!
# Code in blocks

A fragment is the code of one function: blocks of instructions in layout order,
linked by the edges of control flow. A block keeps its successors and its
predecessors by number, in the order in which the edges were added.
-/

namespace Lowering

/-- A labelled run of instructions with its control flow edges: the numbers of the blocks
that control may go to from its end, and of those that it may come from. -/
@[ext]
structure Block where
  label : Label
  instructions : List Instruction
  successors : InsertionSet Nat
  predecessors : InsertionSet Nat
deriving DecidableEq

namespace Block

def unlinked (label : Label) (instructions : List Instruction) : Block where
  label := label
  instructions := instructions
  successors := ∅
  predecessors := ∅

def isEmpty (b : Block) : Bool :=
  b.instructions.isEmpty

def append (b : Block) (instructions : List Instruction) : Block :=
  { b with instructions := b.instructions ++ instructions }

/-- Records an edge to another block. -/
def addSuccessor (b : Block) (target : Nat) : Block :=
  { b with successors := b.successors.insert target }

/-- Records an edge from another block. -/
def addPredecessor (b : Block) (source : Nat) : Block :=
  { b with predecessors := b.predecessors.insert source }

/-- A summary of the block for diagnostics. -/
def inspect (b : Block) : String :=
  let succs := Text.braced (b.successors.toList.map toString)
  let preds := Text.braced (b.predecessors.toList.map toString)
  s!"BasicBlock({b.label}, {b.instructions.length} insts, succs: {succs}, preds: {preds})"

end Block

/-- The code of a function, laid out in blocks. The first block is the entry. -/
@[ext]
structure Fragment where
  name : String
  blocks : List Block
deriving DecidableEq

namespace Fragment

def instructions (f : Fragment) : List Instruction :=
  f.blocks.flatMap Block.instructions

def jumpCount (f : Fragment) : Nat :=
  f.instructions.countP fun i => i.jump?.isSome

/-- The number of the first block with a label. -/
def findBlock? (f : Fragment) (label : Label) : Option Nat :=
  f.blocks.findIdx? fun b => decide (b.label = label)

/-- Changes the block of a number; nothing happens if there is none. -/
def modifyBlock (f : Fragment) (block : Nat) (change : Block → Block) : Fragment :=
  { f with blocks := f.blocks.modify block change }

/-- Records an edge of control flow at both of its ends. -/
def addEdge (f : Fragment) (source target : Nat) : Fragment :=
  (f.modifyBlock source fun b => b.addSuccessor target).modifyBlock target fun b =>
    b.addPredecessor source

/-- Records an edge of control flow, if both blocks exist. -/
def addEdge? (f : Fragment) (source target : Nat) : Option Fragment :=
  if source < f.blocks.length ∧ target < f.blocks.length then
    some (f.addEdge source target)
  else
    none

/-- Records edges one after another, if all the blocks exist. -/
def addEdges? (f : Fragment) (edges : List (Nat × Nat)) : Option Fragment :=
  edges.foldlM (fun g e => g.addEdge? e.1 e.2) f

/-- Adds an instruction at the end of a block, if it exists. -/
def push? (f : Fragment) (block : Nat) (instruction : Instruction) : Option Fragment :=
  if block < f.blocks.length then
    some (f.modifyBlock block fun b => b.append [instruction])
  else
    none

/-- The line of an instruction in a listing: labels stand further left. -/
def line (i : Instruction) : String :=
  if i.isLabel then s!"  {i}\n" else s!"    {i}\n"

/-- The listing of the code. -/
def text (f : Fragment) : String :=
  f.name ++ " \x7b\n" ++ String.join (f.instructions.map line) ++ "\x7d"

end Fragment

end Lowering
