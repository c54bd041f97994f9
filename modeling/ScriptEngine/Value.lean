import ScriptEngine.Number.Decimal
set_option autoImplicit false

/-!
# Values

What a program computes with: numbers, strings, booleans, `nil`, compiled
functions, closures, cells and native functions.  Functions, closures and
natives are immutable, so they are plain data that carries an identity; only a
cell can change, so a cell is a place in the store and not its content.

Two callables are equal when they are the same object, which the identity
decides; all else is equal by content.
-/

namespace ScriptEngine

/-! ## Callable objects

The pool of a chunk holds values, and some values hold chunks.  The types below
therefore take the type of constants as a parameter, and `Value` closes the
circle. -/

/-- What tells an object from every other one. -/
abbrev Identity := Nat

/-- The place of a cell in the store. -/
structure Cell where
  index : Nat
  deriving DecidableEq, Repr, Inhabited

/-- Code: instruction bytes, the line of each byte, and a pool of constants. -/
structure Chunk (Constant : Type) where
  code : Array UInt8
  lines : Array Nat
  constants : Array Constant

/-- A compiled function. -/
structure Function (Constant : Type) where
  id : Identity
  /-- The script itself has no name. -/
  name : Option String
  arity : Nat
  /-- How many cells a closure of this function captures.  A compiler counts up to 256,
  but other code may give any number: `Chunk.operandBytes` then wraps in 64 bits, and
  `Machine.step?` says when there is no room for the cells. -/
  captureCount : Nat
  chunk : Chunk Constant

/-- A function with the cells it captured. -/
structure Closure (Constant : Type) where
  id : Identity
  function : Function Constant
  cells : Array Cell

/-- A function of the host.  What it does is looked up by its name. -/
structure Native where
  id : Identity
  name : String
  /-- Absent if any number of arguments will do. -/
  arity : Option Nat
  deriving DecidableEq, Repr, Inhabited

/-- A value of the language. -/
inductive Value where
  | number (x : Float)
  | string (text : String)
  | boolean (b : Bool)
  | nil
  | function (f : Function Value)
  | closure (c : Closure Value)
  | upvalue (cell : Cell)
  | native (n : Native)
  deriving Inhabited

/-- The chunk without code or constants. -/
def Chunk.empty {Constant : Type} : Chunk Constant := ⟨#[], #[], #[]⟩

instance {Constant : Type} : Inhabited (Chunk Constant) := ⟨.empty⟩

instance {Constant : Type} : Inhabited (Function Constant) :=
  ⟨⟨0, none, 0, 0, .empty⟩⟩

/-! ## Text of functions -/

namespace Function

variable {Constant : Type}

/-- The name that listings give a function. -/
def title (f : Function Constant) : String := f.name.getD "script"

/-- The written form of a function. -/
def toText (f : Function Constant) : String :=
  match f.name with
  | some name => "<fn " ++ name ++ ">"
  | none => "<script>"

end Function

namespace Value

/-! ## Equality -/

/-- Numbers compare as doubles, so that `NaN` differs from itself; callables and
cells compare by identity. -/
def same : Value → Value → Bool
  | number x, number y => x == y
  | string s, string t => s == t
  | boolean a, boolean b => a == b
  | nil, nil => true
  | function f, function g => f.id == g.id
  | closure c, closure d => c.id == d.id
  | upvalue c, upvalue d => c == d
  | native m, native n => m.id == n.id
  | _, _ => false

instance : BEq Value := ⟨same⟩

/-! ## Views -/

/-- The name of a value's type. -/
def typeName : Value → String
  | number _ => "number"
  | string _ => "string"
  | boolean _ => "boolean"
  | nil => "nil"
  | function _ => "function"
  | closure _ => "closure"
  | upvalue _ => "upvalue"
  | native _ => "native function"

/-- What a condition makes of a value.  Only booleans and `nil` are
conditions. -/
def truth? : Value → Option Bool
  | boolean b => some b
  | nil => some false
  | _ => none

/-- The value is `nil`. -/
def isNil : Value → Bool
  | nil => true
  | _ => false

/-- The number, if it is one. -/
def number? : Value → Option Float
  | number x => some x
  | _ => none

/-- The text, if it is a string. -/
def string? : Value → Option String
  | string text => some text
  | _ => none

/-- The written form of a value. -/
def toText : Value → String
  | number x => Number.toText x
  | string text => text
  | boolean true => "true"
  | boolean false => "false"
  | nil => "nil"
  | function f => f.toText
  | closure c => c.function.toText
  | upvalue _ => "<upvalue>"
  | native n => "<native " ++ n.name ++ ">"

end Value

end ScriptEngine
