import Lowering.Error

/-!
# Options

The options of a compilation and the form in which they are written: words
separated by blanks, each an option with two leading dashes. An option with a
value takes it after an equals sign or from the next word. Nothing may be given
twice, and there are no other arguments.
-/

namespace Lowering

/-- How much is reported while compiling. With `env` the environment decides. -/
inductive LogLevel
  | none | error | warn | info | debug | trace
  | env
deriving DecidableEq, Inhabited, Repr

namespace LogLevel

def all : List LogLevel :=
  [none, error, warn, info, debug, trace, env]

def name : LogLevel → String
  | none => "none"
  | error => "error"
  | warn => "warn"
  | info => "info"
  | debug => "debug"
  | trace => "trace"
  | env => "env"

/-- The level of a name in any case. Lowering the letters of ASCII is enough: no
other character has a lower case among the letters of the names. -/
def ofName? (s : String) : Option LogLevel :=
  all.find? fun level => level.name == s.toLower

/-- The level of a name in any case, with blanks around it. -/
def parse (s : String) : Except Error LogLevel :=
  match ofName? (Text.trim s) with
  | some level => .ok level
  | Option.none => .error (.invalidOptions (.unknownLogLevel s))

end LogLevel

/-- The options of a compilation. Without coalescing, registers that hold copies are treated
like any others; without validation, the result is left unchecked after spilling. The
names of the registers set aside for spill code stand between commas. -/
structure Options where
  logLevel : LogLevel
  disableCoalescing : Bool
  disableValidation : Bool
  backupNames : String
deriving DecidableEq, Inhabited, Repr

/-- The options that were given, before they are understood. -/
structure Arguments where
  logLevel? : Option String
  backupNames? : Option String
  disableCoalescing : Bool
  disableValidation : Bool
deriving DecidableEq, Inhabited, Repr

namespace Arguments

def empty : Arguments where
  logLevel? := none
  backupNames? := none
  disableCoalescing := false
  disableValidation := false

/-- Notes the text of the log level, unless there is one. -/
def setLogLevel? (a : Arguments) (value : String) : Option Arguments :=
  if a.logLevel?.isSome then none else some { a with logLevel? := some value }

/-- Notes the text of the backup registers, unless there is one. -/
def setBackupNames? (a : Arguments) (value : String) : Option Arguments :=
  if a.backupNames?.isSome then none else some { a with backupNames? := some value }

/-- Switches coalescing off, unless it is. -/
def setDisableCoalescing? (a : Arguments) : Option Arguments :=
  if a.disableCoalescing then none else some { a with disableCoalescing := true }

/-- Switches validation off, unless it is. -/
def setDisableValidation? (a : Arguments) : Option Arguments :=
  if a.disableValidation then none else some { a with disableValidation := true }

/-- The part of a word before the first equals sign, and the part after it. -/
def splitWord (word : String) : String × Option String :=
  let name := word.toList.takeWhile fun c => c != '='
  match word.toList.drop name.length with
  | [] => (word, none)
  | _ :: value => (.ofList name, some (.ofList value))

/-- Reads words one after another. Two dashes alone end the options. -/
def read? (a : Arguments) : List String → Option Arguments
  | [] => some a
  | word :: words =>
    match splitWord word with
    | ("--", none) => if words.isEmpty then some a else none
    | ("--disable-coalescing", none) =>
      a.setDisableCoalescing?.bind fun b => read? b words
    | ("--disable-regalloc-validate", none) =>
      a.setDisableValidation?.bind fun b => read? b words
    | ("--log-level", some value) => (a.setLogLevel? value).bind fun b => read? b words
    | ("--backup-regs", some value) => (a.setBackupNames? value).bind fun b => read? b words
    | ("--log-level", none) =>
      match words with
      | [] => none
      | value :: rest => (a.setLogLevel? value).bind fun b => read? b rest
    | ("--backup-regs", none) =>
      match words with
      | [] => none
      | value :: rest => (a.setBackupNames? value).bind fun b => read? b rest
    | _ => none

end Arguments

namespace Options

/-- The options when nothing is given. -/
def default : Options where
  logLevel := .env
  disableCoalescing := false
  disableValidation := false
  backupNames := "r10,r11"

/-- The registers set aside for spill code. Empty names are skipped. -/
def backups (o : Options) : Except Error (List HardwareRegister) :=
  ((Text.fields o.backupNames).filter fun name => Text.trim name != "").mapM fun name =>
    match HardwareRegister.ofName? name with
    | some r => .ok r
    | none => .error (.invalidOptions (.unknownRegister name))

def ofArguments? (a : Arguments) : Option Options := do
  let logLevel ← match a.logLevel? with
    | some s => LogLevel.ofName? s
    | none => some default.logLevel
  return {
    logLevel := logLevel
    disableCoalescing := a.disableCoalescing
    disableValidation := a.disableValidation
    backupNames := a.backupNames?.getD default.backupNames }

/-- Reads options from a text, and refuses names of unknown registers at once. -/
def parse (s : String) : Except Error Options :=
  match (Arguments.empty.read? (Text.words s)).bind ofArguments? with
  | none => .error (.invalidOptions .malformedArguments)
  | some o =>
    match o.backups with
    | .error e => .error e
    | .ok _ => .ok o

end Options

end Lowering
