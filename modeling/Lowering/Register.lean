import Lowering.Text.Blank

/-!
# Registers

The machine has sixteen hardware registers. Code is written over registers that
are either fixed, standing for one hardware register, or virtual, to be placed
in a hardware register or on the stack later. A virtual register also says
whether it holds a reference, which decides where it may be placed.
-/

namespace Lowering

/-- The general registers of the machine, by encoding number. -/
inductive HardwareRegister
  | rax | rcx | rdx | rbx | rsp | rbp | rsi | rdi
  | r8 | r9 | r10 | r11 | r12 | r13 | r14 | r15
deriving DecidableEq, Inhabited, Repr

namespace HardwareRegister

/-- All registers, by encoding number. -/
def all : List HardwareRegister :=
  [rax, rcx, rdx, rbx, rsp, rbp, rsi, rdi, r8, r9, r10, r11, r12, r13, r14, r15]

/-- The number that encodes a register in machine code. -/
def encoding (r : HardwareRegister) : Nat :=
  r.ctorIdx

def name : HardwareRegister → String
  | rax => "rax"
  | rcx => "rcx"
  | rdx => "rdx"
  | rbx => "rbx"
  | rsp => "rsp"
  | rbp => "rbp"
  | rsi => "rsi"
  | rdi => "rdi"
  | r8 => "r8"
  | r9 => "r9"
  | r10 => "r10"
  | r11 => "r11"
  | r12 => "r12"
  | r13 => "r13"
  | r14 => "r14"
  | r15 => "r15"

instance : ToString HardwareRegister :=
  ⟨name⟩

/-- The register of a name, in any case and with blanks around it. Lowering the
letters of ASCII is enough: no other character has a lower case among the
letters of the names. -/
def ofName? (s : String) : Option HardwareRegister :=
  all.find? fun r => r.name == (Text.trim s).toLower

end HardwareRegister

/-- A register that has no place yet, told apart from others by its number. -/
structure VirtualRegister where
  id : Nat
  holdsReference : Bool
deriving DecidableEq, Inhabited, Repr

namespace VirtualRegister

/-- The name of a virtual register in printed code. -/
def text (v : VirtualRegister) : String :=
  if v.holdsReference then s!"%ref{v.id}" else s!"%v{v.id}"

instance : ToString VirtualRegister :=
  ⟨text⟩

/-- All fields of a virtual register, as diagnostics spell them. -/
def inspect (v : VirtualRegister) : String :=
  s!"VirtualRegister \x7b id: {v.id}, holds_reference: {v.holdsReference} \x7d"

/-- The order of virtual registers: by number, values before references. -/
def le (v w : VirtualRegister) : Bool :=
  v.id < w.id || (v.id == w.id && (!v.holdsReference || w.holdsReference))

end VirtualRegister

/-- A register as it occurs in code: a hardware register itself, or one that is still to be
placed. -/
inductive Register
  | fixed (register : HardwareRegister)
  | virtual (register : VirtualRegister)
deriving DecidableEq, Inhabited, Repr

namespace Register

/-- The hardware register that a fixed register stands for. -/
def fixed? : Register → Option HardwareRegister
  | fixed h => some h
  | virtual _ => none

def virtual? : Register → Option VirtualRegister
  | fixed _ => none
  | virtual v => some v

def isFixed (r : Register) : Bool :=
  r.fixed?.isSome

/-- Whether the register holds a reference. A fixed register never counts as
holding one. -/
def holdsReference : Register → Bool
  | fixed _ => false
  | virtual v => v.holdsReference

def text : Register → String
  | fixed h => s!"%{h}"
  | virtual v => v.text

instance : ToString Register :=
  ⟨text⟩

/-- The full description of a register in diagnostics. -/
def inspect : Register → String
  | fixed h => s!"Fixed({h.name.toUpper})"
  | virtual v => s!"Virtual({v.inspect})"

/-- The order of registers: fixed before virtual, fixed ones by encoding. -/
def le : Register → Register → Bool
  | fixed h, fixed k => decide (h.encoding ≤ k.encoding)
  | fixed _, virtual _ => true
  | virtual _, fixed _ => false
  | virtual v, virtual w => v.le w

end Register

end Lowering
