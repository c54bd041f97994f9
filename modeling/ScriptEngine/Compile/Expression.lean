import ScriptEngine.Compile.Scope
set_option autoImplicit false

/-!
# Compilation: expressions

Each form of expression as a function on states, with the compilers of its parts
as parameters.  The opening token or the operator has been read when a form
starts.  The code of an expression leaves exactly one more value on the stack.

`operand p` stands for the compiler of an expression whose operators all bind at
least as tightly as `p`.
-/

namespace ScriptEngine.Compile

/-- A compiler of some part of the source. -/
abbrev Pass : Type := State → State

namespace State

/-! ## What opens an expression -/

/-- An expression in parentheses. -/
def groupForm (expression : Pass) (s : State) : State :=
  (expression s).require .rightParen .closingOfGroup

/-- A unary operator with its operand. -/
def unaryForm (operand : Precedence → Pass) (op : UnaryOperator) (s : State) : State :=
  (operand .unary s).appendOp op.code

/-- A name that is read, or one that is assigned to where that is allowed. -/
def nameForm (expression : Pass) (mayAssign : Bool) (s : State) : State :=
  let (place, s) := s.resolve s.previous.lexeme
  if mayAssign && s.sees .equal then
    (expression s.read).appendWith place.setOp place.operand
  else s.appendWith place.getOp place.operand

/-- The text between the quotes of a string. -/
def unquoted (lexeme : String) : String :=
  String.ofList (lexeme.toList.drop 1).dropLast

/-- A number literal. -/
def numberForm (s : State) : State :=
  match Decimal.ofText? s.previous.lexeme with
  | some d => s.pushLiteral (.number d.toFloat)
  | none => s.complain .notANumber

/-- The expression that an opening token starts. -/
def openExpression (operand : Precedence → Pass) (mayAssign : Bool) (s : State) :
    Opening → State
  | .group => s.groupForm (operand .assignment)
  | .unary op => s.unaryForm operand op
  | .name => s.nameForm (operand .assignment) mayAssign
  | .string => s.pushLiteral (.string (unquoted s.previous.lexeme))
  | .number => s.numberForm
  | .literal op => s.appendOp op

/-! ## What continues an expression -/

/-- The right operand of `and`, which is left out when the left one decides. -/
def andForm (operand : Precedence → Pass) (s : State) : State :=
  let (endJump, s) := s.openJump .jumpIfFalse
  (operand .and (s.appendOp .pop)).landJump endJump

/-- The right operand of `or`, which is left out when the left one decides. -/
def orForm (operand : Precedence → Pass) (s : State) : State :=
  let (elseJump, s) := s.openJump .jumpIfFalse
  let (endJump, s) := s.openJump .jump
  (operand .or ((s.landJump elseJump).appendOp .pop)).landJump endJump

/-- A binary operator with its right operand. -/
def binaryForm (operand : Precedence → Pass) (op : BinaryOperator) (s : State) :
    State :=
  op.code.foldl appendOp (operand op.precedence.next s)

/-- Counts one more argument, up to the most that a call can have. -/
def countArgument (s : State) (count : Nat) : Nat × State :=
  if count = maxArguments then (count, s.complain .tooManyArguments)
  else (count + 1, s)

/-- A call; `arguments` compiles what stands in the parentheses, which is not
nothing. -/
def callForm (arguments : State → Nat × State) (s : State) : State :=
  let (count, s) := if s.sees .rightParen then (0, s) else arguments s
  (s.require .rightParen .closingOfArguments).appendWith .call count

/-- The rest of an expression that goes on. -/
def continueExpression (operand : Precedence → Pass)
    (arguments : State → Nat × State) (s : State) : Continuation → State
  | .call => s.callForm arguments
  | .binary op => s.binaryForm operand op
  | .and => s.andForm operand
  | .or => s.orForm operand

/-- Complains about an assignment to what is no variable. -/
def refuseAssignment (mayAssign : Bool) (s : State) : State :=
  if mayAssign && s.sees .equal then s.read.complain .notAssignable else s

end State

end ScriptEngine.Compile
