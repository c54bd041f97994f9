import ScriptEngine.Compile.Builder
import ScriptEngine.Compile.Diagnostic
import ScriptEngine.Compile.Rule
set_option autoImplicit false

/-!
# Compilation: the state of the compiler

The compiler goes through the tokens once and writes code as it goes.  Its state
is what is left to read, the functions under construction, and what it has
reported.  Every operation here is a function from states to states.

*Recovery.*  After a diagnostic the compiler stays silent until it has skipped
to a likely start of a declaration, so one mistake makes one diagnostic.

*Defects.*  Some operations rest on facts that the compiler itself has to
guarantee: a scope that ends was begun, a jump that is landed was written.
Where such a fact fails, the operation notes a defect and goes on in the
simplest way; a defect says something of the compiler and never of the source.

*Work.*  `work` counts the steps of the compiler, so that its cost can be spoken
of.
-/

namespace ScriptEngine.Compile

/-! ## States -/

/-- A broken guarantee of the compiler. -/
inductive Defect where
  /-- A scope ended that had not begun. -/
  | scopeUnderflow
  /-- The slot of the callee was given up. -/
  | calleeRetired
  /-- A jump was landed that is not in the code. -/
  | landedNoJump
  /-- A loop was closed that starts behind its end. -/
  | loopStartsLate
  /-- A number was written to a byte that cannot hold it. -/
  | byteOverflow
  /-- A recursion went deeper than was provided for. -/
  | depthExhausted
  deriving DecidableEq, Repr, Inhabited

/-- The state of a compilation. -/
structure State where
  /-- The tokens after `current`. -/
  rest : List Token
  /-- The token that was read last. -/
  previous : Token := .endAt 1
  /-- The token that is read next. -/
  current : Token := .endAt 1
  /-- A mistake was reported and its consequences are not yet skipped. -/
  isRecovering : Bool := false
  diagnostics : Array Diagnostic := #[]
  /-- The function that code is written to. -/
  builder : Builder := .start none
  /-- The functions around it, innermost first. -/
  around : List Builder := []
  /-- The functions that were finished before any diagnostic, in that order. -/
  finished : Array Finished := #[]
  /-- The next identity that is free. -/
  nextId : Identity
  work : Nat := 0
  defects : List Defect := []

namespace State

/-- The state with one more step counted. -/
def tick (s : State) : State := { s with work := s.work + 1 }

/-- The state with a defect noted. -/
def noteDefect (s : State) (d : Defect) : State :=
  { s with defects := d :: s.defects }

/-- The state with a defect noted unless a guarantee `holds`. -/
def guarantee (s : State) (holds : Bool) (d : Defect) : State :=
  if holds then s else s.noteDefect d

/-! ## Diagnostics -/

/-- Reports a complaint about a token, unless an earlier mistake is still being
recovered from. -/
def complainAt (s : State) (t : Token) (c : Complaint) : State :=
  if s.isRecovering then s
  else
    { s with
      isRecovering := true
      diagnostics := s.diagnostics.push (.about t c) }

/-- Reports a complaint about the token that was read last. -/
def complain (s : State) (c : Complaint) : State := s.complainAt s.previous c

/-- Reports a complaint about the token that comes next. -/
def complainNext (s : State) (c : Complaint) : State := s.complainAt s.current c

/-! ## Tokens -/

/-- Makes the first proper token of a list the current one.  Invalid tokens
before it are reported and dropped.  Behind the last token the end goes on. -/
def pull (s : State) : List Token → State
  | [] => { s with current := .endAt s.current.line, rest := [] }
  | t :: rest =>
      match t.kind with
      | .invalid => pull (s.tick.complainAt t (.noToken t.lexeme)) rest
      | _ => { s with current := t, rest := rest }

/-- Reads the current token. -/
def read (s : State) : State :=
  { (s.tick.pull s.rest) with previous := s.current }

/-- The current token has this kind. -/
def sees (s : State) (k : TokenKind) : Bool := s.current.kind == k

/-- Reads the current token if it has the kind that is needed, and complains
otherwise. -/
def require (s : State) (k : TokenKind) (what : Expected) : State :=
  if s.sees k then s.read else s.complainNext (.expected what)

/-- Skips to the end of the source or to where a declaration is likely to start,
at most `limit` tokens. -/
def skipToDeclaration : Nat → State → State
  | 0, s => s.noteDefect .depthExhausted
  | limit + 1, s =>
      if s.sees .endOfSource || s.current.kind.startsDeclaration then s
      else skipToDeclaration limit s.read

/-- Ends the silence after a mistake.  Nothing is done if there was none. -/
def recover (s : State) : State :=
  if s.isRecovering then
    skipToDeclaration (s.rest.length + 2) { s with isRecovering := false }
  else s

/-! ## Code -/

/-- The state with the code of the current function replaced. -/
def withChunk (s : State) (c : Chunk Value) : State :=
  { s with builder := { s.builder with chunk := c } }

/-- The state with `op` as the last opcode written. -/
def withLastOp (s : State) (op : Option Opcode) : State :=
  { s with builder := { s.builder with lastOp := op } }

/-- Writes a byte, with the line of the token that was read last. -/
def appendByte (s : State) (byte : UInt8) : State :=
  let line := s.previous.line
  { s with
    builder := { s.builder with chunk := s.builder.chunk.append byte line } }

/-- Writes an opcode. -/
def appendOp (s : State) (op : Opcode) : State :=
  (s.appendByte op.toByte).withLastOp (some op)

/-- Writes a number that fits in a byte. -/
def appendNumber (s : State) (n : Nat) : State :=
  (s.guarantee (n < byteRange) .byteOverflow).appendByte n.toUInt8

/-- Writes an opcode with a number as its operand. -/
def appendWith (s : State) (op : Opcode) (n : Nat) : State :=
  (s.appendOp op).appendNumber n

/-- Notes that the frame holds the locals in scope and no other value here. -/
def checkpoint (s : State) : State :=
  { s with builder := s.builder.checkpoint }

/-- How much code has been written. -/
def codeSize (s : State) : Nat := s.builder.chunk.code.size

/-- Writes a jump that is still open.  Gives the place of its operand. -/
def openJump (s : State) (op : Opcode) : Nat × State :=
  let (operand, chunk) := s.builder.chunk.openJump op s.previous.line
  (operand, (s.withChunk chunk).withLastOp (some op))

/-- Lets an open jump end here.  From now on the code can be reached in another
way than through the last opcode. -/
def landJump (s : State) (operand : Nat) : State :=
  let s := s.guarantee (operand < s.codeSize) .landedNoJump
  let s :=
    match s.builder.chunk.landJump operand with
    | .ok chunk => s.withChunk chunk
    | .error _ => s.complain .jumpTooLong
  s.withLastOp none

/-- Writes a jump back to `start`. -/
def loopBack (s : State) (start : Nat) : State :=
  let s := s.guarantee (start ≤ s.codeSize) .loopStartsLate
  let (outcome, chunk) := s.builder.chunk.loopBack start s.previous.line
  let s := (s.withChunk chunk).withLastOp (some .loop)
  match outcome with
  | .ok () => s
  | .error _ => s.complain .loopTooLong

/-- Adds a constant and gives its index, or index 0 if there is no room. -/
def poolConstant (s : State) (v : Value) : Nat × State :=
  let (index, chunk) := s.builder.chunk.pushConstant v
  let s := s.withChunk chunk
  if index < byteRange then (index, s) else (0, s.complain .tooManyConstants)

/-- Writes code that pushes a constant. -/
def pushLiteral (s : State) (v : Value) : State :=
  let (index, s) := s.poolConstant v
  s.appendWith .constant index

/-! ## Functions -/

/-- Starts a function inside the current one. -/
def enterFunction (s : State) (name : String) : State :=
  { s with builder := .start (some name), around := s.builder :: s.around }

/-- Writes the return of `nil` at the end of a function, unless the code cannot
get there. -/
def returnNil (s : State) : State :=
  if s.builder.lastOp = some .return then s
  else (s.appendOp .nil).appendOp .return

/-- Leaves the current function for the one around it, with `f` as the function
that was finished. -/
def leaveFunction (s : State) (f : Function Value) : State :=
  { s with
    finished :=
      if s.diagnostics.isEmpty then
        s.finished.push ⟨f, s.builder.checkpoints⟩
      else s.finished
    nextId := s.nextId + 1
    builder := s.around.headD {}
    around := s.around.tail }

/-- Finishes the current function.  Gives the function, what it captures, and
the state in the function around it. -/
def finishFunction (s : State) : Function Value × List Capture × State :=
  let s := s.returnNil
  let f := s.builder.finish s.nextId
  (f, s.builder.captures, s.leaveFunction f)

end State

end ScriptEngine.Compile
