import Lowering.Liveness.Point

/-!
# Live registers

A register is live where its value may still be read. The live sets of all
points are found by sweeping over the code from the last point to the first,
each time passing on what is live at the points that follow, until a sweep adds
nothing. A register that a point writes counts as live right after it, so that
registers written together are kept apart.
-/

namespace Lowering

/-- The registers that are live before and after a point. -/
@[ext]
structure Live where
  before : InsertionSet Register
  after : InsertionSet Register
deriving DecidableEq, Inhabited

namespace Liveness

/-- The registers that the code reads or writes, by first occurrence. -/
def registers (code : List Point) : InsertionSet Register :=
  .ofList (code.flatMap fun p => p.reads.toList ++ p.writes.toList)

/-- The registers live before the point of a number. -/
def before (live : List Live) (point : Nat) : InsertionSet Register :=
  match live[point]? with
  | some l => l.before
  | none => ∅

/-- The registers live after the point of a number. -/
def after (live : List Live) (point : Nat) : InsertionSet Register :=
  match live[point]? with
  | some l => l.after
  | none => ∅

/-- The live sets before the first sweep: what each point reads and writes. -/
def seed (code : List Point) : List Live :=
  code.map fun p => ⟨p.reads, p.writes⟩

/-- Adds to the live sets of a point what the points that follow pass on. -/
def revise (live : List Live) (p : Point) (l : Live) : Live :=
  let after := l.after.insertAll (p.successors.flatMap fun s => (before live s).toList)
  { before := l.before.insertAll (after.toList.filter fun r => decide (¬ r ∈ p.writes))
    after := after }

/-- Revises every point once, from the last to the first. -/
def sweep (code : List Point) (live : List Live) : List Live :=
  code.zipIdx.foldr (fun p live => live.modify p.2 (revise live p.1)) live

/-- The number of registers that are missing from a set. -/
def missing (registers : InsertionSet Register) (s : InsertionSet Register) : Nat :=
  registers.toList.countP fun r => decide (¬ r ∈ s)

/-- The number of registers that could still be added to the live sets. -/
def gaps (registers : InsertionSet Register) : List Live → Nat
  | [] => 0
  | l :: live => missing registers l.before + missing registers l.after + gaps registers live

/-- Sweeps as long as sweeping fills a gap. -/
def settle (code : List Point) (registers : InsertionSet Register) (live : List Live) :
    List Live :=
  let next := sweep code live
  if gaps registers next < gaps registers live then settle code registers next else next
termination_by gaps registers live

def solve (code : List Point) : List Live :=
  settle code (registers code) (seed code)

end Liveness

end Lowering
