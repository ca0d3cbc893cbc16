import Lowering.Convention
import Lowering.Options

/-!
# The System V convention

The roles of the registers in the System V convention for x86-64. Registers that
a called function may change come first, since using them costs nothing where
there is no call. The stack and frame pointers are always live.
-/

namespace Lowering.SystemV

open HardwareRegister

/-- The registers that a called function has to leave as they were. -/
def calleeSaved : List HardwareRegister :=
  [rbx, rbp, r12, r13, r14, r15]

/-- The registers that a called function may change. -/
def callerSaved : List HardwareRegister :=
  [rax, rcx, rdx, rsi, rdi, r8, r9, r10, r11]

/-- The registers in which no reference may be kept across a call. -/
def preserved : List HardwareRegister :=
  calleeSaved.filter fun r => decide (r ≠ rsp ∧ r ≠ rbp)

/-- The registers that any value may be placed in. -/
def usable : List HardwareRegister :=
  callerSaved ++ preserved

/-- The stack pointer and the frame pointer. -/
def frame : List HardwareRegister :=
  [rsp, rbp]

/-- The registers that may be allocated. -/
def allowed : List HardwareRegister :=
  usable ++ frame

/-- The registers set aside for spill code when nothing else is asked for. -/
def defaultBackups : List HardwareRegister :=
  [r10, r11]

/-- The convention with the backup registers that the options name. -/
def convention (o : Options) : Except Error Convention := do
  let backups ← o.backups
  Convention.checked { allowed, preserved, backups, alwaysLive := frame }

end Lowering.SystemV
