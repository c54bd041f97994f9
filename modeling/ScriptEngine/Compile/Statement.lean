import ScriptEngine.Compile.Expression
set_option autoImplicit false

/-!
# Compilation: declarations and statements

Each form of declaration as a function on states, with the compilers of its
parts as parameters.  The keyword or brace that starts the form has been read.
The code of a declaration leaves the stack as it was, but for the local that it
declares.

A body of a branch or loop gets a scope of its own, so that a declaration which
is not in braces is retired on every path.
-/

namespace ScriptEngine.Compile.State

/-! ## Blocks and bodies -/

/-- Declarations up to a closing brace. -/
def blockForm (declarations : Pass) (s : State) : State :=
  (declarations s).require .rightBrace .closingOfBlock

/-- An expression whose value is dropped. -/
def expressionForm (expression : Pass) (s : State) : State :=
  (expression s).appendOp .pop

/-! ## Variables and functions -/

/-- A variable with its initial value, which is `nil` if none is given. -/
def varForm (expression : Pass) (s : State) : State :=
  let (global, s) := s.declareName .variableName
  let s := if s.sees .equal then expression s.read else s.appendOp .nil
  s.bindName global

/-- One parameter. -/
def parameter (s : State) : State :=
  let s := s.tick
  let s :=
    if s.builder.arity = maxArguments then s.complainNext .tooManyParameters
    else { s with builder := { s.builder with arity := s.builder.arity + 1 } }
  let (global, s) := s.declareName .parameterName
  s.bindName global

/-- Parameters with commas between them, at most `limit`. -/
def parameters : Nat → State → State
  | 0, s => s.noteDefect .depthExhausted
  | limit + 1, s =>
      let s := s.parameter
      if s.sees .comma then parameters limit s.read else s

/-- A list of parameters in parentheses. -/
def parameterList (s : State) : State :=
  let s := s.require .leftParen .openingOfParameters
  let s :=
    if s.sees .rightParen then s else s.parameters (s.rest.length + 2)
  s.require .rightParen .closingOfParameters

/-- Writes what each cell of a closure is taken from. -/
def appendCaptures (s : State) (captures : List Capture) : State :=
  captures.foldl
    (fun s c => (s.appendByte (if c.isLocal then 1 else 0)).appendNumber c.index) s

/-- The parameters and body of the function whose name was read last, and the
code that makes a closure of it.  The body's scope is never closed, because all
its slots go away when the function returns. -/
def functionForm (declarations : Pass) (s : State) : State :=
  let s := (s.enterFunction s.previous.lexeme).openScope
  let s := s.parameterList.require .leftBrace .openingOfBody
  let (f, captures, s) := (s.checkpoint.blockForm declarations).finishFunction
  let (index, s) := s.poolConstant (.function f)
  (s.appendWith .closure index).appendCaptures captures

/-- A function declaration.  The body may refer to the function itself. -/
def fnForm (declarations : Pass) (s : State) : State :=
  let (global, s) := s.declareName .functionName
  (s.makeReadable.functionForm declarations).bindName global

/-! ## Branches -/

/-- A branch with or without an alternative. -/
def ifForm (expression declaration : Pass) (s : State) : State :=
  let (thenJump, s) := (expression s).openJump .jumpIfFalse
  let s := (s.appendOp .pop).inScope declaration
  let (elseJump, s) := s.openJump .jump
  let s := (s.landJump thenJump).appendOp .pop
  let s := if s.sees .elseWord then s.read.inScope declaration else s
  s.landJump elseJump

/-! ## Loops -/

/-- A loop that is repeated while its condition holds. -/
def whileForm (expression declaration : Pass) (s : State) : State :=
  let start := s.codeSize
  let (exitJump, s) := (expression s).openJump .jumpIfFalse
  let s := ((s.appendOp .pop).inScope declaration).loopBack start
  (s.landJump exitJump).appendOp .pop

/-- What is done before a counted loop, with the comma after it. -/
def loopInitializer (expression : Pass) (s : State) : State :=
  if s.sees .comma then s.read
  else
    let s :=
      if s.sees .varWord then (s.read.varForm expression).checkpoint
      else s.expressionForm expression
    s.require .comma .commaAfterInitializer

/-- The condition of a counted loop, with the comma after it.  Gives the jump
out of the loop; without a condition there is none. -/
def loopCondition (expression : Pass) (s : State) : Option Nat × State :=
  if s.sees .comma then (none, s.read)
  else
    let s := (expression s).require .comma .commaAfterCondition
    let (exitJump, s) := s.openJump .jumpIfFalse
    (some exitJump, s.appendOp .pop)

/-- What a counted loop does between two rounds.  It stands before the body and
runs after it, so the loop starts at the increment from now on.  Gives where the
body has to jump back to. -/
def loopIncrement (expression : Pass) (start : Nat) (s : State) : Nat × State :=
  if s.sees .comma then (start, s.read)
  else if s.sees .leftBrace then (start, s)
  else
    let (bodyJump, s) := s.openJump .jump
    let increment := s.codeSize
    let s := ((expression s).appendOp .pop).loopBack start
    (increment, s.landJump bodyJump)

/-- A loop with initializer, condition and increment, each of which may be
missing. -/
def countedLoop (expression declaration : Pass) (s : State) : State :=
  let s := s.loopInitializer expression
  let start := s.codeSize
  let (exitJump, s) := s.loopCondition expression
  let (start, s) := s.loopIncrement expression start
  let s := (s.inScope declaration).loopBack start
  match exitJump with
  | some exitJump => (s.landJump exitJump).appendOp .pop
  | none => s

/-- A counted loop in a scope of its own. -/
def forForm (expression declaration : Pass) (s : State) : State :=
  s.inScope (countedLoop expression declaration)

/-! ## Return -/

/-- A return, of `nil` if the block or the source ends after it. -/
def returnForm (expression : Pass) (s : State) : State :=
  let s :=
    if s.sees .rightBrace || s.sees .endOfSource then s.appendOp .nil
    else expression s
  s.appendOp .return

/-! ## All forms -/

/-- The declaration that starts with the current token. -/
def anyForm (expression declaration declarations : Pass) (s : State) :
    State :=
  match s.current.kind with
  | .varWord => s.read.varForm expression
  | .fnWord => s.read.fnForm declarations
  | .ifWord => s.read.ifForm expression declaration
  | .whileWord => s.read.whileForm expression declaration
  | .forWord => s.read.forForm expression declaration
  | .leftBrace => s.read.inScope (blockForm declarations)
  | .returnWord => s.read.returnForm expression
  | _ => s.expressionForm expression

end ScriptEngine.Compile.State
