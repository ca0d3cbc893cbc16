import Lowering.Liveness.LiveSets
import Lowering.Relation

/-!
# How registers interact

Two registers interfere if they need different places. The interaction of the
registers of a function records who interferes with whom, and which registers
hold copies of others: such registers may share a place although both are live.

Interference arises where a register is written: it interferes with what is live
after the write. A register that holds a reference interferes with every
preserved register, and a register that is always live interferes with all
others.
-/

namespace Lowering

/-- The registers of a function, which of them need different places, and under each one
those that hold copies of it. -/
structure Interaction where
  registers : InsertionSet Register
  interference : Relation Register
  copying : Relation Register
deriving DecidableEq

namespace Interaction

/-- The points that write a register. -/
def definitions (code : List Point) (r : Register) : List Nat :=
  (code.zipIdx.filter fun p => decide (r ∈ p.1.writes)).map Prod.snd

/-- Whether a copy made at a point holds as long as its target is live: nothing
else writes the target, and wherever else the source is written the target is
dead. -/
def isLasting (code : List Point) (live : List Live) (point : Nat) (c : Copy) : Bool :=
  decide (c.into ≠ c.source) && decide (definitions code c.into = [point]) &&
    (definitions code c.source).all fun d =>
      decide (d = point) || decide (¬ c.into ∈ Liveness.after live d)

/-- The lasting copies of the code, each as source and target. -/
def copyPairs (code : List Point) (live : List Live) : List (Register × Register) :=
  code.zipIdx.filterMap fun p =>
    match p.1.copy? with
    | some c => if isLasting code live p.2 c then some (c.source, c.into) else none
    | none => none

/-- The pairs that interfere because one is written while the other is live. -/
def writePairs (code : List Point) (live : List Live) (copying : Relation Register) :
    List (Register × Register) :=
  (code.zip live).flatMap fun p =>
    p.2.after.toList.flatMap fun a =>
      (p.1.writes.toList.filter fun b =>
        decide (a ≠ b) && !copying.relatedEitherWay a b).map fun b => (a, b)

/-- The pairs of a reference and a preserved register. -/
def referencePairs (registers : InsertionSet Register) (preserved : List HardwareRegister) :
    List (Register × Register) :=
  (registers.toList.filter Register.holdsReference).flatMap fun r =>
    preserved.map fun p => (r, .fixed p)

/-- The pairs of any register and one that is always live. -/
def alwaysLivePairs
    (registers : InsertionSet Register) (alwaysLive : List HardwareRegister)
    (copying : Relation Register) : List (Register × Register) :=
  alwaysLive.flatMap fun l =>
    (registers.toList.filter fun r =>
      decide (r ≠ .fixed l) && !copying.relatedEitherWay r (.fixed l)).map fun r => (r, .fixed l)

/-- The interaction of the registers in code with known live sets. -/
def ofLive
    (code : List Point) (live : List Live) (preserved alwaysLive : List HardwareRegister) :
    Interaction :=
  let registers := ((Liveness.registers code).insertAll (preserved.map .fixed)).insertAll
    (alwaysLive.map .fixed)
  let copying := (copyPairs code live).foldl (fun g p => g.addArc p.1 p.2)
    (Relation.discrete registers)
  { registers := registers
    interference := (Relation.discrete registers).addEdges
      (writePairs code live copying ++ referencePairs registers preserved ++
        alwaysLivePairs registers alwaysLive copying)
    copying := copying }

/-- Finds the interaction of the registers of a function. References stay out of
the preserved registers, and the registers that are always live are shared with
none but their copies. -/
def analyze (f : Fragment) (preserved alwaysLive : List HardwareRegister) :
    Except Error Interaction :=
  match f.flatten with
  | .error e => .error e
  | .ok code => .ok (ofLive code (Liveness.solve code) preserved alwaysLive)

/-- Whether `b` is listed as interfering with `a`. -/
def interferes (i : Interaction) (a b : Register) : Bool :=
  i.interference.related a b

/-- The interaction with no register counted as a copy of another. -/
def withoutCopying (i : Interaction) : Interaction :=
  { i with copying := i.copying.mapValues fun _ _ => ∅ }

/-- The lines about the registers to which others are related. -/
def relationText (g : Relation Register) (verb : String) : String :=
  .join (g.entries.map fun e =>
    if e.2.isEmpty then ""
    else s!"  {e.1} {verb} " ++ Text.braced (e.2.toList.map Register.inspect) ++ "\n")

def text (i : Interaction) : String :=
  s!"registers: {i.registers.size}\n" ++ relationText i.interference "interferes with" ++
    relationText i.copying "is copied into"

end Interaction

end Lowering
