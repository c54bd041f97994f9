import ScriptEngine.Bytecode.Opcode
import ScriptEngine.Token
set_option autoImplicit false

/-!
# Compilation: the ladder of operators

An expression opens with one kind of token and goes on with others.  `opening?`
says what a token means at the start of an expression, `continuation?` what it
means after one, and `Continuation.precedence` how tightly it holds on to what
stands before it.  The levels form a ladder; a binary operator takes its right
operand one level higher, which makes it associate to the left.

`precedence_continuation_pos` says that no continuation sits on the lowest
level, so an expression ends at the first token that continues nothing.
-/

namespace ScriptEngine

/-! ## Levels -/

/-- How tightly an operator binds, loosest first. -/
inductive Precedence where
  | none | assignment | or | and | equality | comparison | term | factor
  | unary | call | primary
  deriving DecidableEq, Repr, Inhabited

namespace Precedence

/-- The height on the ladder. -/
def rank (p : Precedence) : Nat := p.ctorIdx

/-- The next level up; the highest is its own next. -/
def next : Precedence → Precedence
  | none => assignment
  | assignment => or
  | or => and
  | and => equality
  | equality => comparison
  | comparison => term
  | term => factor
  | factor => unary
  | unary => call
  | call | primary => primary

instance : LE Precedence := ⟨fun p q => p.rank ≤ q.rank⟩

instance (p q : Precedence) : Decidable (p ≤ q) :=
  inferInstanceAs (Decidable (p.rank ≤ q.rank))

end Precedence

/-! ## Operators -/

/-- The operators between two operands that are always both evaluated. -/
inductive BinaryOperator where
  | add | subtract | multiply | divide
  | equal | unequal | greater | greaterEqual | less | lessEqual
  deriving DecidableEq, Repr, Inhabited

namespace BinaryOperator

/-- The operator's level. -/
def precedence : BinaryOperator → Precedence
  | add | subtract => .term
  | multiply | divide => .factor
  | equal | unequal => .equality
  | greater | greaterEqual | less | lessEqual => .comparison

/-- What follows the code of the two operands.  The three operators without an
opcode of their own negate the opposite comparison. -/
def code : BinaryOperator → List Opcode
  | add => [.add]
  | subtract => [.subtract]
  | multiply => [.multiply]
  | divide => [.divide]
  | equal => [.equal]
  | unequal => [.equal, .not]
  | greater => [.greater]
  | greaterEqual => [.less, .not]
  | less => [.less]
  | lessEqual => [.greater, .not]

end BinaryOperator

/-- The operators before one operand. -/
inductive UnaryOperator where
  | negate | not
  deriving DecidableEq, Repr, Inhabited

/-- What follows the code of the operand. -/
def UnaryOperator.code : UnaryOperator → Opcode
  | negate => .negate
  | not => .not

/-! ## Roles of tokens -/

/-- What starts an expression. -/
inductive Opening where
  | group
  | unary (op : UnaryOperator)
  | name
  | string
  | number
  /-- A literal whose value has an opcode of its own. -/
  | literal (op : Opcode)
  deriving DecidableEq, Repr, Inhabited

/-- What takes an expression as its first operand. -/
inductive Continuation where
  | call
  | binary (op : BinaryOperator)
  | and
  | or
  deriving DecidableEq, Repr, Inhabited

/-- The level of a continuation. -/
def Continuation.precedence : Continuation → Precedence
  | call => .call
  | binary op => op.precedence
  | and => .and
  | or => .or

namespace TokenKind

/-- The meaning of a token at the start of an expression. -/
def opening? : TokenKind → Option Opening
  | leftParen => some .group
  | minus => some (.unary .negate)
  | bang => some (.unary .not)
  | identifier => some .name
  | string => some .string
  | number => some .number
  | falseWord => some (.literal .false)
  | trueWord => some (.literal .true)
  | nilWord => some (.literal .nil)
  | _ => none

/-- The meaning of a token after an expression. -/
def continuation? : TokenKind → Option Continuation
  | leftParen => some .call
  | plus => some (.binary .add)
  | minus => some (.binary .subtract)
  | star => some (.binary .multiply)
  | slash => some (.binary .divide)
  | equalEqual => some (.binary .equal)
  | bangEqual => some (.binary .unequal)
  | greater => some (.binary .greater)
  | greaterEqual => some (.binary .greaterEqual)
  | less => some (.binary .less)
  | lessEqual => some (.binary .lessEqual)
  | andWord => some .and
  | orWord => some .or
  | _ => none

/-- A declaration is likely to start here. -/
def startsDeclaration : TokenKind → Bool
  | classWord | fnWord | varWord | forWord | ifWord | whileWord | returnWord =>
      true
  | _ => false

end TokenKind

theorem precedence_continuation_pos (c : Continuation) :
    Precedence.assignment.rank < c.precedence.rank := by
  cases c with
  | call => decide
  | binary op => cases op <;> decide
  | and => decide
  | or => decide

end ScriptEngine
