import Lowering.Collection.InsertionSet
import Lowering.Error

/-!
# Calling conventions

A calling convention says what each hardware register may be used for. A checked
convention uses only registers that may be allocated, and keeps the registers
set aside for spill code apart from the preserved and the always live ones.
-/

namespace Lowering

/-- The roles of the hardware registers. Values may be placed in the allowed ones, which
stand in the order of preference. No reference may be kept in a preserved register, the
backups are set aside for spill code, and what is always live holds a value throughout a
function. -/
structure Convention where
  allowed : List HardwareRegister
  preserved : List HardwareRegister
  backups : List HardwareRegister
  alwaysLive : List HardwareRegister
deriving DecidableEq, Inhabited, Repr

namespace Convention

/-- Refuses a convention whose roles contradict each other. -/
def check (c : Convention) : Except OptionFault Unit := do
  rejectFirst c.preserved fun r =>
    if r ∈ c.allowed then none else some (.preservedNotAllowed r)
  rejectFirst c.backups fun r =>
    if r ∈ c.allowed then none else some (.backupNotAllowed r)
  rejectFirst c.backups fun r =>
    if r ∈ c.preserved then some (.backupPreserved r) else none
  rejectFirst c.alwaysLive fun r =>
    if r ∈ c.allowed then none else some (.alwaysLiveNotAllowed r)
  rejectFirst c.backups fun r =>
    if r ∈ c.alwaysLive then some (.backupAlwaysLive r) else none

/-- The convention with each register listed once for each of its roles. -/
def dedup (c : Convention) : Convention where
  allowed := (InsertionSet.ofList c.allowed).toList
  preserved := (InsertionSet.ofList c.preserved).toList
  backups := (InsertionSet.ofList c.backups).toList
  alwaysLive := (InsertionSet.ofList c.alwaysLive).toList

/-- The checked convention with the given roles. -/
def checked (c : Convention) : Except Error Convention :=
  match c.check with
  | .error fault => .error (.invalidOptions fault)
  | .ok () => .ok c.dedup

/-- The registers that values may be placed in while the backups are set aside. -/
def allowedWithoutBackups (c : Convention) : List HardwareRegister :=
  c.allowed.filter fun r => decide (¬ r ∈ c.backups)

end Convention

end Lowering
