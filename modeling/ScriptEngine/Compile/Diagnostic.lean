import ScriptEngine.Token
set_option autoImplicit false

/-!
# Compilation: diagnostics

What the compiler has to say about a source that it refuses: a line, the token
at fault, and a complaint.  A complaint is a cause; its wording is in
`Complaint.message` and nowhere else.

Three families of complaints are told apart: something other than what stands
there was expected, a token is no token, and the program breaks a static rule
although its form is right (`Complaint.isStatic`).
-/

namespace ScriptEngine

/-! ## Causes -/

/-- What should have stood at a place. -/
inductive Expected where
  | expression
  | closingOfGroup | closingOfArguments | closingOfParameters
  | openingOfParameters
  | openingOfBody | closingOfBlock
  | variableName | functionName | parameterName
  | commaAfterInitializer | commaAfterCondition
  deriving DecidableEq, Repr, Inhabited

/-- The expectation in words. -/
def Expected.describe : Expected → String
  | expression => "expression"
  | closingOfGroup => "')' after expression"
  | closingOfArguments => "')' after arguments"
  | closingOfParameters => "')' after parameters"
  | openingOfParameters => "'(' after function name"
  | openingOfBody => "'\x7b' before function body"
  | closingOfBlock => "'\x7d' after block"
  | variableName => "variable name"
  | functionName => "function name"
  | parameterName => "parameter name"
  | commaAfterInitializer => "',' after loop initializer"
  | commaAfterCondition => "',' after loop condition"

/-- Why a source is refused. -/
inductive Complaint where
  | expected (what : Expected)
  /-- A stretch of source that is no token, with the scanner's reason. -/
  | noToken (reason : String)
  | notAssignable
  | notANumber
  | redeclared
  | readInOwnInitializer
  | tooManyLocals
  | tooManyCaptures
  | tooManyConstants
  | tooManyParameters
  | tooManyArguments
  | jumpTooLong
  | loopTooLong
  deriving DecidableEq, Repr, Inhabited

namespace Complaint

/-- The complaint in words. -/
def message : Complaint → String
  | expected what => "Expect " ++ what.describe ++ "."
  | noToken reason => reason
  | notAssignable => "Invalid assignment target."
  | notANumber => "Invalid number literal."
  | redeclared => "Already a variable with this name in this scope."
  | readInOwnInitializer => "Can't read local variable in its own initializer."
  | tooManyLocals => "Too many local variables in function."
  | tooManyCaptures => "Too many closure variables in function."
  | tooManyConstants => "Too many constants in one chunk."
  | tooManyParameters => "Can't have more than 255 parameters."
  | tooManyArguments => "Can't have more than 255 arguments."
  | jumpTooLong => "Too much code to jump over."
  | loopTooLong => "Loop body too large."

/-- The program has the right form and breaks a rule on names or sizes. -/
def isStatic : Complaint → Bool
  | redeclared | readInOwnInitializer | tooManyLocals | tooManyCaptures
  | tooManyConstants | tooManyParameters | tooManyArguments | jumpTooLong
  | loopTooLong => true
  | expected _ | noToken _ | notAssignable | notANumber => false

end Complaint

/-! ## Diagnostics -/

/-- The token that a diagnostic points at. -/
inductive Site where
  | token (lexeme : String)
  | sourceEnd
  /-- No token at all; the complaint itself says what was found. -/
  | nowhere
  deriving DecidableEq, Repr, Inhabited

namespace Site

/-- The site of a token. -/
def ofToken (t : Token) : Site :=
  match t.kind with
  | .endOfSource => sourceEnd
  | .invalid => nowhere
  | _ => token t.lexeme

/-- The site in words, with a blank in front unless there is nothing to say. -/
def describe : Site → String
  | token lexeme => " at '" ++ lexeme ++ "'"
  | sourceEnd => " at end"
  | nowhere => ""

end Site

/-- A complaint about a place in the source. -/
structure Diagnostic where
  line : Nat
  site : Site
  complaint : Complaint
  deriving DecidableEq, Repr, Inhabited

namespace Diagnostic

/-- A complaint about a token. -/
def about (t : Token) (complaint : Complaint) : Diagnostic :=
  ⟨t.line, .ofToken t, complaint⟩

/-- The diagnostic in one line. -/
def toText (d : Diagnostic) : String :=
  "[line " ++ Text.decimal d.line ++ "] Error" ++ d.site.describe ++ ": " ++
    d.complaint.message

end Diagnostic

end ScriptEngine
