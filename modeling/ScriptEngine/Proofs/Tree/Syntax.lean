import ScriptEngine.Compile.Rule
import ScriptEngine.Token.Scan
set_option autoImplicit false

/-!
# Program trees

Programs without functions as trees, and the tokens that they are written with.  The
text of a tree leaves nothing to precedence: an expression that is not a literal or a
name is in parentheses, an expression statement is in braces of its own, and so are the
bodies of branches and loops.

`Writes source p` says that a source consists of the tokens of a program; blanks, lines
and comments are up to the source.
-/

namespace ScriptEngine.Tree

/-! ## Trees -/

/-- A literal as it is written. -/
inductive Literal where
  | number (digits : String)
  /-- The text between the quotes. -/
  | string (text : String)
  | boolean (b : Bool)
  | nil
  deriving DecidableEq, Repr, Inhabited

/-- An expression. -/
inductive Expression where
  | literal (l : Literal)
  | name (x : String)
  | assign (x : String) (e : Expression)
  | unary (op : UnaryOperator) (e : Expression)
  | binary (op : BinaryOperator) (l r : Expression)
  | and (l r : Expression)
  | or (l r : Expression)
  | call (callee : Expression) (arguments : List Expression)
  deriving Inhabited

/-- What a counted loop does first. -/
inductive Initializer where
  | none
  | var (x : String) (value : Option Expression)
  | expression (e : Expression)
  deriving Inhabited

/-- A declaration or statement. -/
inductive Statement where
  | var (x : String) (value : Option Expression)
  | block (body : List Statement)
  | branch (condition : Expression) (body : List Statement)
      (alternative : Option (List Statement))
  /-- A loop that is repeated while its condition holds. -/
  | loop (condition : Expression) (body : List Statement)
  /-- A loop with initializer, condition and increment. -/
  | count (first : Initializer) (condition increment : Option Expression)
      (body : List Statement)
  /-- The end of the program, with a result. -/
  | result (e : Expression)
  | expression (e : Expression)
  deriving Inhabited

/-! ## Tokens -/

/-- A token without its place. -/
structure Word where
  kind : TokenKind
  text : String
  deriving DecidableEq, Repr, Inhabited

/-- The word of a kind that has just one spelling. -/
def mark (k : TokenKind) : Word := ⟨k, k.spelling?.getD ""⟩

/-- Words in parentheses. -/
def parens (ws : List Word) : List Word := mark .leftParen :: ws ++ [mark .rightParen]

/-- Words in braces. -/
def braces (ws : List Word) : List Word := mark .leftBrace :: ws ++ [mark .rightBrace]

/-- The token of a unary operator. -/
def unaryMark : UnaryOperator → Word
  | .negate => mark .minus
  | .not => mark .bang

/-- The token of a binary operator. -/
def binaryMark : BinaryOperator → Word
  | .add => mark .plus
  | .subtract => mark .minus
  | .multiply => mark .star
  | .divide => mark .slash
  | .equal => mark .equalEqual
  | .unequal => mark .bangEqual
  | .greater => mark .greater
  | .greaterEqual => mark .greaterEqual
  | .less => mark .less
  | .lessEqual => mark .lessEqual

/-- The token of a literal. -/
def Literal.word : Literal → Word
  | number digits => ⟨.number, digits⟩
  | string text => ⟨.string, "\"" ++ text ++ "\""⟩
  | boolean true => mark .trueWord
  | boolean false => mark .falseWord
  | nil => mark .nilWord

mutual

/-- The tokens of an expression. -/
def Expression.words : Expression → List Word
  | .literal l => [l.word]
  | .name x => [⟨.identifier, x⟩]
  | .assign x e => parens (⟨.identifier, x⟩ :: mark .equal :: e.words)
  | .unary op e => parens (unaryMark op :: e.words)
  | .binary op l r => parens (l.words ++ binaryMark op :: r.words)
  | .and l r => parens (l.words ++ mark .andWord :: r.words)
  | .or l r => parens (l.words ++ mark .orWord :: r.words)
  | .call callee [] => parens (callee.words ++ parens [])
  | .call callee (e :: es) => parens (callee.words ++ parens (e.words ++ laterWords es))
termination_by structural e => e

/-- The tokens of the arguments after the first one. -/
def laterWords : List Expression → List Word
  | [] => []
  | e :: es => mark .comma :: e.words ++ laterWords es
termination_by structural es => es

end

/-- The tokens of a declaration of a variable. -/
def varWords (x : String) : Option Expression → List Word
  | none => [mark .varWord, ⟨.identifier, x⟩]
  | some e => mark .varWord :: ⟨.identifier, x⟩ :: mark .equal :: e.words

/-- The tokens of an expression that may be missing. -/
def optionWords : Option Expression → List Word
  | none => []
  | some e => e.words

/-- The tokens of what a counted loop does first. -/
def Initializer.words : Initializer → List Word
  | none => []
  | var x value => varWords x value
  | expression e => e.words

mutual

/-- The tokens of a statement. -/
def Statement.words : Statement → List Word
  | .var x value => varWords x value
  | .block body => braces (bodyWords body)
  | .branch c body none => mark .ifWord :: c.words ++ braces (bodyWords body)
  | .branch c body (some other) =>
      mark .ifWord :: c.words ++ braces (bodyWords body) ++
        mark .elseWord :: braces (bodyWords other)
  | .loop c body => mark .whileWord :: c.words ++ braces (bodyWords body)
  | .count first c increment body =>
      mark .forWord :: first.words ++ mark .comma :: optionWords c ++
        mark .comma :: optionWords increment ++ braces (bodyWords body)
  | .result e => mark .returnWord :: e.words
  | .expression e => braces e.words
termination_by structural s => s

/-- The tokens of statements in a row. -/
def bodyWords : List Statement → List Word
  | [] => []
  | s :: body => s.words ++ bodyWords body
termination_by structural body => body

end

/-- A token without its place. -/
def wordOf (t : Token) : Word := ⟨t.kind, t.lexeme⟩

/-- The source consists of the tokens of a program. -/
def Writes (source : String) (p : List Statement) : Prop :=
  (scan source).map wordOf = bodyWords p ++ [mark .endOfSource]

instance (source : String) (p : List Statement) : Decidable (Writes source p) :=
  inferInstanceAs (Decidable (_ = _))

/-! ## Names -/

/-- The names that a statement declares in the block that it stands in. -/
def Statement.declares : Statement → List String
  | .var x _ => [x]
  | _ => []

/-- The name that the initializer of a counted loop declares. -/
def Initializer.declares : Initializer → List String
  | var x _ => [x]
  | _ => []

/-- The names that statements declare in their block, newest first. -/
def declared : List Statement → List String
  | [] => []
  | s :: body => declared body ++ s.declares

/-! ## Returns -/

mutual

/-- The statement does not end other than by a result or a fault. -/
def Statement.returns : Statement → Bool
  | .block body => bodyReturns body
  | .result _ => true
  | _ => false
termination_by structural s => s

/-- Statements in a row do not end other than by a result or a fault. -/
def bodyReturns : List Statement → Bool
  | [] => false
  | s :: body => s.returns || bodyReturns body
termination_by structural body => body

end

end ScriptEngine.Tree
