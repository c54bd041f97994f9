set_option autoImplicit false

/-!
# Diagnostics: switches and log records

What is to be reported about compiling and running, and the records that come of
it.  A record that is less important than the level asked for is not made.
None of this changes what a program computes.
-/

namespace ScriptEngine

/-! ## Levels -/

/-- How much is logged, least first. -/
inductive LogLevel where
  | off | error | warn | info | debug | trace
  deriving DecidableEq, Repr, Inhabited

namespace LogLevel

/-- Records of the level `record` are made. -/
def admits (level record : LogLevel) : Bool := record.ctorIdx ≤ level.ctorIdx

/-- The level's name. -/
def name : LogLevel → String
  | off => "OFF"
  | error => "ERROR"
  | warn => "WARN"
  | info => "INFO"
  | debug => "DEBUG"
  | trace => "TRACE"

end LogLevel

/-! ## Switches -/

/-- What is to be reported. -/
structure Switches where
  /-- The listing of every function that is compiled. -/
  listCode : Bool := false
  /-- Every instruction before it is carried out. -/
  traceSteps : Bool := false
  /-- The slots of the frame, beside each instruction that is traced. -/
  traceStack : Bool := false
  /-- The opcode profile, after each run. -/
  countOpcodes : Bool := false
  deriving DecidableEq, Repr, Inhabited

namespace Switches

/-- Something is to be reported. -/
def asksForReports (s : Switches) : Bool :=
  s.listCode || s.traceSteps || s.traceStack || s.countOpcodes

/-- The lowest level that shows all that is to be reported. -/
def level? (s : Switches) : Option LogLevel :=
  if s.traceSteps || s.traceStack then some .trace
  else if s.listCode then some .debug
  else if s.countOpcodes then some .info
  else none

end Switches

/-! ## Records -/

/-- The part of the engine that a record comes from. -/
inductive LogSource where
  | compiler | machine
  deriving DecidableEq, Repr, Inhabited

/-- Something worth reporting. -/
structure LogRecord where
  level : LogLevel
  source : LogSource
  text : String
  deriving DecidableEq, Repr, Inhabited

/-- The records made so far, newest last. -/
abbrev Log : Type := Array LogRecord

/-- The log with one more record, if records of its level are made. -/
def Log.add (log : Log) (level : LogLevel) (r : LogRecord) : Log :=
  if level.admits r.level then log.push r else log

end ScriptEngine
