import ScriptEngine.Bytecode.Instruction
set_option autoImplicit false

/-!
# Machine: faults

Why an instruction cannot be carried out.  Some faults are the program's doing:
an operand of the wrong type, a variable that is not defined, a call with the
wrong number of arguments, an error of a native function.  The others are the
code's doing: a stack that is too low, an index out of range, a byte that is no
opcode (`Fault.isInternal`).

A fault is raised at some point within an instruction; how many bytes had been
read by then decides which line is blamed (`Failure`).
-/

namespace ScriptEngine

/-- Why an instruction failed. -/
inductive Fault where
  | stackUnderflow
  | slotOutOfRange (slot : Nat)
  | constantOutOfRange (index : Nat)
  | upvalueOutOfRange (index : Nat)
  | notAName (typeName : String)
  | notAFunction (typeName : String)
  | codeExhausted (offset : Nat)
  | unknownOpcode (byte : UInt8) (offset : Nat)
  | loopBeforeStart (offset : Nat)
  | undefinedVariable (name : String)
  | operandsNotNumbers
  | operandsNotAddable
  | operandNotNumber
  | operandNotTruth
  | conditionNotTruth (typeName : String)
  | notCallable
  | wrongArgumentCount (expected given : Nat)
  /-- The error of a native function. -/
  | native (message : String)
  deriving DecidableEq, Repr, Inhabited

namespace Fault

/-- The fault in words. -/
def message : Fault → String
  | stackUnderflow => "Stack underflow."
  | slotOutOfRange slot => "Local slot " ++ Text.decimal slot ++ " out of range."
  | constantOutOfRange index =>
      "Constant index " ++ Text.decimal index ++ " out of range."
  | upvalueOutOfRange index =>
      "Upvalue index " ++ Text.decimal index ++ " out of range."
  | notAName typeName => "Expected a variable name, found " ++ typeName ++ "."
  | notAFunction typeName => "Cannot make a closure of " ++ typeName ++ "."
  | codeExhausted offset =>
      "Ran past the end of the code at offset " ++ Text.decimal offset ++ "."
  | unknownOpcode byte offset => DecodeError.unknownOpcodeText byte offset
  | loopBeforeStart offset =>
      "Loop target before offset 0 at offset " ++ Text.decimal offset ++ "."
  | undefinedVariable name => "Undefined variable '" ++ name ++ "'."
  | operandsNotNumbers => "Operands must be numbers."
  | operandsNotAddable => "Operands must be two numbers or two strings."
  | operandNotNumber => "Operand must be a number."
  | operandNotTruth => "Operand must be a boolean or nil."
  | conditionNotTruth typeName => "Cannot use " ++ typeName ++ " as a boolean."
  | notCallable => "Can only call functions and closures."
  | wrongArgumentCount expected given =>
      "Expected " ++ Text.decimal expected ++ " arguments but got " ++
        Text.decimal given ++ "."
  | native message => message

/-- Only code that no compiler should write can fail in this way. -/
def isInternal : Fault → Bool
  | stackUnderflow | slotOutOfRange _ | constantOutOfRange _
  | upvalueOutOfRange _ | notAName _ | notAFunction _ | codeExhausted _
  | unknownOpcode _ _ | loopBeforeStart _ => true
  | undefinedVariable _ | operandsNotNumbers | operandsNotAddable
  | operandNotNumber | operandNotTruth | conditionNotTruth _ | notCallable
  | wrongArgumentCount _ _ | native _ => false

end Fault

/-- A fault, and the offset behind the last byte that was read before it. -/
structure Failure where
  fault : Fault
  ip : Nat
  deriving DecidableEq, Repr, Inhabited

/-- A computation that an instruction may break off. -/
abbrev Attempt (α : Type) : Type := Except Failure α

end ScriptEngine
