import ScriptEngine.Compile.Statement
import ScriptEngine.Token.Scan
set_option autoImplicit false

/-!
# Compilation: programs

The forms of the language refer to each other: a declaration holds expressions
and declarations, an expression holds expressions.  This module ties them
together.  The first argument of each function bounds how deep the recursion can
go; every level reads a token or is followed by one that does, so a bound that
is linear in the number of tokens (`depthFor`) is never reached.

`compile` takes a source to a function or to what is wrong with it, and
`Compilation.finished` lists the functions that were finished before anything
was found wrong, inner ones first.  Each comes with its checkpoints: the places
between two declarations, where the stack holds the locals in scope and nothing
else.
-/

namespace ScriptEngine

namespace Compile

/-! ## The mutual forms -/

mutual

/-- One declaration, with the recovery from a mistake in it. -/
def declaration : Nat → State → State
  | 0, s => s.noteDefect .depthExhausted
  | depth + 1, s =>
      let s :=
        s.tick.checkpoint.anyForm (expression depth .assignment)
          (declaration depth) (declarations depth)
      s.recover.checkpoint

/-- Declarations up to a closing brace or the end of the source. -/
def declarations : Nat → State → State
  | 0, s => s.noteDefect .depthExhausted
  | depth + 1, s =>
      if s.sees .rightBrace || s.sees .endOfSource then s.tick
      else declarations depth (declaration depth s.tick)

/-- An expression whose operators all bind at least as tightly as a level. -/
def expression : Nat → Precedence → State → State
  | 0, _, s => s.noteDefect .depthExhausted
  | depth + 1, level, s =>
      let s := s.tick.read
      match s.previous.kind.opening? with
      | none => s.complain (.expected .expression)
      | some opening =>
          let mayAssign : Bool := level ≤ .assignment
          let s := s.openExpression (expression depth) mayAssign opening
          (continuations depth level s).refuseAssignment mayAssign

/-- Operators after an expression, as long as they bind tightly enough. -/
def continuations : Nat → Precedence → State → State
  | 0, _, s => s.noteDefect .depthExhausted
  | depth + 1, level, s =>
      match s.current.kind.continuation? with
      | none => s.tick
      | some c =>
          if level ≤ c.precedence then
            continuations depth level
              (s.tick.read.continueExpression (expression depth)
                (arguments depth 0) c)
          else s.tick

/-- Arguments with commas between them, after `count` others.  Gives how many
there are in all. -/
def arguments : Nat → Nat → State → Nat × State
  | 0, count, s => (count, s.noteDefect .depthExhausted)
  | depth + 1, count, s =>
      let (count, s) :=
        (expression depth .assignment s.tick).countArgument count
      if s.sees .comma then arguments depth count s.read else (count, s)

end

/-- Declarations up to the end of the source, which is read as well.  There are
at most `limit`. -/
def program (depth : Nat) : Nat → State → State
  | 0, s => s.noteDefect .depthExhausted
  | limit + 1, s =>
      if s.sees .endOfSource then s.read
      else program depth limit (declaration depth s.tick)

/-! ## Compiling -/

/-- A depth that no recursion over `count` tokens reaches. -/
def depthFor (count : Nat) : Nat := 2 * count + 4

/-- What is known before the first token is read. -/
def initial (firstId : Identity) (tokens : List Token) : State :=
  { rest := tokens, nextId := firstId }

/-- The state after the whole source, with the script still under
construction. -/
def compileTokens (firstId : Identity) (tokens : List Token) : State :=
  program (depthFor tokens.length) (tokens.length + 2)
    (initial firstId tokens).read

end Compile

/-- The result of compiling a source. -/
structure Compilation where
  /-- The script, or everything that is wrong with the source. -/
  outcome : Except (Array Diagnostic) (Function Value)
  /-- The functions that were finished before the first diagnostic. -/
  finished : Array Compile.Finished
  /-- The first identity that was not used. -/
  nextId : Identity

namespace Compilation

/-- Ends the script and draws the conclusion. -/
def ofState (s : Compile.State) : Compilation :=
  let (script, _, s) := s.finishFunction
  { outcome := if s.diagnostics.isEmpty then .ok script else .error s.diagnostics
    finished := s.finished
    nextId := s.nextId }

end Compilation

/-- Compiles a source.  The functions get identities from `firstId` on. -/
def compile (firstId : Identity) (source : String) : Compilation :=
  .ofState (Compile.compileTokens firstId (scan source))

end ScriptEngine
