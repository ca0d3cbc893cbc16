import Lowering.Collection.InsertionMap
import Lowering.Instruction

/-!
# Control flow graphs

The code of a function before layout: numbered vertices, each with a tree of
work and the numbers of the vertices that may follow. A selection says which
instructions do the work of a tree.
-/

namespace Lowering

universe u

/-- A vertex of a control flow graph, with its tree of work. The function ends here, or
control goes on to one vertex, or the condition that the tree computes decides where it
goes. -/
inductive Vertex (Tree : Type u)
  | final (tree : Tree)
  | jump (tree : Tree) (target : Nat)
  | conditional (tree : Tree) (onTrue onFalse : Nat)
deriving DecidableEq

namespace Vertex

variable {Tree : Type u}

def tree : Vertex Tree → Tree
  | final t => t
  | jump t _ => t
  | conditional t _ _ => t

/-- The vertices that may follow, in the order in which they are laid out: the
one for a false condition comes first, so that it can follow directly. -/
def destinations : Vertex Tree → List Nat
  | final _ => []
  | jump _ d => [d]
  | conditional _ onTrue onFalse => [onFalse, onTrue]

theorem length_destinations_le (v : Vertex Tree) : v.destinations.length ≤ 2 := by
  cases v <;> simp [destinations]

end Vertex

/-- The control flow graph of a function, which starts at the vertex numbered `initial`. -/
@[ext]
structure FlowGraph (Tree : Type u) where
  name : String
  initial : Nat
  vertices : InsertionMap Nat (Vertex Tree)

/-- A choice of instructions for trees of work. Those of `coverBranch` do the work and then
go to the label if the condition has the given value. Those of `coverTransfer` move a
register to or from the stack and use no other register. -/
structure Selection (Tree : Type u) where
  cover : Tree → List Instruction
  coverBranch : Tree → Label → Bool → List Instruction
  coverTransfer : Transfer → List Instruction

/-- A tree flattened to the operations to be done, in order. -/
abbrev WorkList := List Operation

namespace Selection

/-- One instruction for each operation, in order. -/
def sequential : Selection WorkList where
  cover work := work.map .operate
  coverBranch work label jumpIf := work.map .operate ++ [.branch label jumpIf]
  coverTransfer t := [.operate (.transfer t)]

end Selection

end Lowering
