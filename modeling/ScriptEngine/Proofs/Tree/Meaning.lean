import ScriptEngine.Compile.Expression
import ScriptEngine.Machine.Run
import ScriptEngine.Proofs.Tree.Syntax
set_option autoImplicit false

/-!
# What a program tree means

A direct interpreter of program trees.  Blocks have scopes of their own, which lie
around each other and over the global variables; natives are carried out by the host.
An interpretation that breaks off leaves the memory as it is at that point.

An expression always has a value or raises a fault.  A loop is given up after `fuel`
rounds, so that a program ends if some `fuel` is enough for it.
-/

namespace ScriptEngine

/-- No function and no closure: a number, a string, a boolean, `nil`, a native or a
cell. -/
def Value.isData : Value → Bool
  | .function _ | .closure _ => false
  | _ => true

namespace Tree

variable {World : Type}

/-! ## Memory -/

/-- The variables of one block, newest first. -/
abbrev Scope : Type := List (String × Value)

/-- All that a program can change. -/
structure Memory (World : Type) where
  /-- Innermost first; empty outside all blocks. -/
  scopes : List Scope := []
  globals : Globals := {}
  store : Store := {}
  world : World

/-- Why an interpretation breaks off. -/
inductive Stop where
  /-- The program has returned. -/
  | returned (v : Value)
  | raised (fault : Fault)
  /-- A loop was given up. -/
  | exhausted

/-- An interpretation. -/
abbrev Run (World α : Type) : Type := ExceptT Stop (StateM (Memory World)) α

/-- Breaks off with a fault. -/
def raise {α : Type} (fault : Fault) : Run World α := throw (.raised fault)

/-- A result, or the fault that there is none. -/
def settle {α : Type} : Except Fault α → Run World α
  | .ok a => pure a
  | .error fault => raise fault

/-! ## Variables -/

/-- The value of a name in the innermost scope that has it. -/
def find? (x : String) : List Scope → Option Value
  | [] => none
  | scope :: outer => (Globals.lookup x scope).or (find? x outer)

/-- The scopes with another value for a name, in the innermost one that has it. -/
def assignIn (x : String) (v : Value) : List Scope → List Scope
  | [] => []
  | scope :: outer =>
      if (Globals.lookup x scope).isSome then Globals.update x v scope :: outer
      else scope :: assignIn x v outer

/-- The value of a variable. -/
def look (x : String) : Run World Value := do
  let σ ← get
  match (find? x σ.scopes).or (σ.globals.get? x) with
  | some v => pure v
  | none => raise (.undefinedVariable x)

/-- Gives a variable another value. -/
def assign (x : String) (v : Value) : Run World Unit := do
  let σ ← get
  if (find? x σ.scopes).isSome then set { σ with scopes := assignIn x v σ.scopes }
  else
    match σ.globals.assign? x v with
    | some globals => set { σ with globals }
    | none => raise (.undefinedVariable x)

/-- Adds a variable to the innermost block, or to the globals outside all blocks. -/
def declare (x : String) (v : Value) : Run World Unit :=
  modify fun σ =>
    match σ.scopes with
    | [] => { σ with globals := σ.globals.define x v }
    | scope :: outer => { σ with scopes := ((x, v) :: scope) :: outer }

/-- Interprets the inside of a block. -/
def inBlock (inside : Run World Unit) : Run World Unit := do
  modify fun σ => { σ with scopes := [] :: σ.scopes }
  inside
  modify fun σ => { σ with scopes := σ.scopes.tail }

/-! ## Operators -/

/-- The value of a literal. -/
def Literal.value : Literal → Value
  | number digits => .number (((Decimal.ofText? digits).map Decimal.toFloat).getD 0)
  | string text => .string text
  | boolean b => .boolean b
  | nil => .nil

/-- A condition holds, or it does not, or it is none. -/
def test (v : Value) : Run World Bool :=
  match v.truth? with
  | some b => pure b
  | none => raise (.conditionNotTruth v.typeName)

/-- The value of a unary operator. -/
def unaryValue : UnaryOperator → Value → Except Fault Value
  | .negate, .number x => .ok (.number (-x))
  | .negate, _ => .error .operandNotNumber
  | .not, .boolean b => .ok (.boolean !b)
  | .not, .nil => .ok (.boolean true)
  | .not, _ => .error .operandNotTruth

/-- The value of a binary operator.  What is not less is greater or equal, also where a
number is none. -/
def binaryValue : BinaryOperator → Value → Value → Except Fault Value
  | .equal, v, w => .ok (.boolean (v == w))
  | .unequal, v, w => .ok (.boolean !(v == w))
  | .add, .number x, .number y => .ok (.number (x + y))
  | .add, .string s, .string t => .ok (.string (s ++ t))
  | .add, _, _ => .error .operandsNotAddable
  | .subtract, .number x, .number y => .ok (.number (x - y))
  | .multiply, .number x, .number y => .ok (.number (x * y))
  | .divide, .number x, .number y => .ok (.number (x / y))
  | .greater, .number x, .number y => .ok (.boolean (y < x))
  | .greaterEqual, .number x, .number y => .ok (.boolean !(x < y))
  | .less, .number x, .number y => .ok (.boolean (x < y))
  | .lessEqual, .number x, .number y => .ok (.boolean !(y < x))
  | _, _, _ => .error .operandsNotNumbers

/-- Lets the host carry out a native. -/
def invoke (host : Host World) (n : Native) (arguments : List Value) : Run World Value := do
  let σ ← get
  let reply := host.call n arguments σ.store σ.world
  set { σ with store := reply.store, world := reply.world }
  match reply.result with
  | .ok v => pure v
  | .error message => raise (.native message)

/-- Calls a value.  There are no functions but natives. -/
def apply (host : Host World) (callee : Value) (arguments : List Value) : Run World Value :=
  match callee with
  | .native n =>
      let expected := n.arity.getD arguments.length
      if expected = arguments.length then invoke host n arguments
      else raise (.wrongArgumentCount expected arguments.length)
  | _ => raise .notCallable

/-! ## Expressions -/

mutual

/-- The value of an expression. -/
def Expression.eval (host : Host World) : Expression → Run World Value
  | .literal l => pure l.value
  | .name x => look x
  | .assign x e => do
      let v ← e.eval host
      assign x v
      pure v
  | .unary op e => do
      let v ← e.eval host
      settle (unaryValue op v)
  | .binary op l r => do
      let v ← l.eval host
      let w ← r.eval host
      settle (binaryValue op v w)
  | .and l r => do
      let v ← l.eval host
      if ← test v then r.eval host else pure v
  | .or l r => do
      let v ← l.eval host
      if ← test v then pure v else r.eval host
  | .call callee arguments => do
      let f ← callee.eval host
      let vs ← evalAll host arguments
      apply host f vs
termination_by structural e => e

/-- The values of expressions, from left to right. -/
def evalAll (host : Host World) : List Expression → Run World (List Value)
  | [] => pure []
  | e :: es => do
      let v ← e.eval host
      let vs ← evalAll host es
      pure (v :: vs)
termination_by structural es => es

end

/-! ## Statements -/

/-- Declares a variable, with `nil` if no value is given. -/
def declareWith (host : Host World) (x : String) : Option Expression → Run World Unit
  | none => declare x .nil
  | some e => do
      let v ← e.eval host
      declare x v

/-- Interprets an expression for what it does. -/
def perform (host : Host World) (e : Expression) : Run World Unit := do
  let _ ← e.eval host

/-- Interprets what a counted loop does first. -/
def Initializer.exec (host : Host World) : Initializer → Run World Unit
  | none => pure ()
  | var x value => declareWith host x value
  | expression e => perform host e

/-- The condition of a loop; a missing one always holds. -/
def testOption (host : Host World) : Option Expression → Run World Bool
  | none => pure true
  | some c => do
      let v ← c.eval host
      test v

/-- What a counted loop does between two rounds. -/
def performOption (host : Host World) : Option Expression → Run World Unit
  | none => pure ()
  | some e => perform host e

/-- One round of a loop.  Gives whether there was one. -/
def round (condition : Run World Bool) (body : Run World Unit) : Run World Bool := do
  if ← condition then
    body
    pure true
  else pure false

/-- Repeats the rounds of a loop, which is given up after `fuel` of them. -/
def repeated (once : Run World Bool) : Nat → Run World Unit
  | 0 => throw .exhausted
  | fuel + 1 => do
      if ← once then repeated once fuel else pure ()

mutual

/-- Interprets a statement. -/
def Statement.exec (host : Host World) (fuel : Nat) : Statement → Run World Unit
  | .var x value => declareWith host x value
  | .block body => inBlock (execAll host fuel body)
  | .branch c body none => do
      let v ← c.eval host
      if ← test v then inBlock (execAll host fuel body) else pure ()
  | .branch c body (some other) => do
      let v ← c.eval host
      if ← test v then inBlock (execAll host fuel body) else inBlock (execAll host fuel other)
  | .loop c body =>
      repeated (round (testOption host (some c)) (inBlock (execAll host fuel body))) fuel
  | .count first c increment body =>
      inBlock do
        first.exec host
        repeated (round (testOption host c) do
          inBlock (execAll host fuel body)
          performOption host increment) fuel
  | .result e => do
      let v ← e.eval host
      throw (.returned v)
  | .expression e => inBlock (perform host e)
termination_by structural s => s

/-- Interprets statements in a row. -/
def execAll (host : Host World) (fuel : Nat) : List Statement → Run World Unit
  | [] => pure ()
  | s :: body => do
      s.exec host fuel
      execAll host fuel body
termination_by structural body => body

end

/-! ## Programs -/

/-- What comes of a program, and the memory at its end; nothing if `fuel` rounds of a
loop are not enough.  A program that does not return gives `nil`. -/
def interpret (host : Host World) (fuel : Nat) (p : List Statement) (σ : Memory World) :
    Option (Except Fault Value × Memory World) :=
  match (execAll host fuel p).run σ with
  | (.ok (), σ') => some (.ok .nil, σ')
  | (.error (.returned v), σ') => some (.ok v, σ')
  | (.error (.raised fault), σ') => some (.error fault, σ')
  | (.error .exhausted, _) => none

end Tree

end ScriptEngine
