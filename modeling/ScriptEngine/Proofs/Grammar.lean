import ScriptEngine.Compile.Rule
set_option autoImplicit false

/-!
# The grammar

The grammar of the language over kinds of tokens, apart from any compiler:

* `program     = declaration* END`
* `declaration = "var" NAME ("=" expr)?`
  `| "fn" NAME "(" (NAME ("," NAME)*)? ")" "{" declaration* "}"`
  `| "if" expr declaration ("else" declaration)? | "while" expr declaration`
  `| "for" start condition step declaration | "{" declaration* "}"`
  `| "return" result | expr`
* `start = "," | "var" NAME ("=" expr)? "," | expr ","`, `condition = "," | expr ","`,
  `step = "," | expr |` nothing where `{` follows
* `result = expr |` nothing where `}` or the end follows
* `expr = NAME "=" expr | or`, and a ladder of operators from `or` down to `primary`

`Derives part a b` says that `a` starts with a word of a part of the grammar, behind
which `b` is left; that makes "where so and so follows" a condition on `b`.  Nothing
stands between two declarations, so that a word may have several readings.  The
greedy one lets an expression go on as long as it can, and an `else` belong to the
nearest `if`.
-/

namespace ScriptEngine

open TokenKind

/-! ## Parts -/

/-- The parts that programs are made of. -/
inductive GrammarPart where
  | program | declarations | declaration
  | initializer | parameters | moreParameters | alternative | result
  | loopStart | loopCondition | loopStep
  | expr | arguments
  /-- A level of the ladder, and what may follow its first operand. -/
  | ladder (p : Precedence) | tail (p : Precedence)
  deriving DecidableEq, Repr

namespace GrammarPart

/-- The operators between two operands of a level. -/
def operators : Precedence → List TokenKind
  | .or => [orWord]
  | .and => [andWord]
  | .equality => [equalEqual, bangEqual]
  | .comparison => [greater, greaterEqual, less, lessEqual]
  | .term => [plus, minus]
  | .factor => [star, slash]
  | _ => []

/-- The operators before an operand. -/
def prefixes : List TokenKind := [bang, minus]

/-- The tokens that are expressions by themselves. -/
def atoms : List TokenKind := [identifier, number, string, trueWord, falseWord, nilWord]

/-- An expression goes on with this token if it can. -/
def GoesOn (k : TokenKind) : Prop := k = leftParen ∨ ∃ p, k ∈ operators p

/-- An expression can start with this token. -/
def Opens (k : TokenKind) : Prop := k = leftParen ∨ k ∈ prefixes ∨ k ∈ atoms

instance (k : TokenKind) : Decidable (Opens k) :=
  inferInstanceAs (Decidable (_ ∨ _ ∨ _))

/-- The keywords and the brace that declarations start with. -/
def starters : List TokenKind :=
  [varWord, fnWord, ifWord, whileWord, forWord, returnWord, leftBrace]

/-- The fewest tokens that words of a part have, or less. -/
def least : GrammarPart → Nat
  | declaration | expr | arguments | ladder _ => 1
  | _ => 0

/-- A declaration can start with this token. -/
def Starts (k : TokenKind) : Prop := Opens k ∨ k ∈ starters

instance (k : TokenKind) : Decidable (Starts k) :=
  inferInstanceAs (Decidable (_ ∨ _))

end GrammarPart

/-! ## Words -/

open GrammarPart in
/-- A list of kinds starts with a word of a part, and this is what is left behind it. -/
inductive Derives (greedy : Bool) : GrammarPart → List TokenKind → List TokenKind → Prop where
  | program {a} (all : Derives greedy .declarations a [endOfSource]) :
      Derives greedy .program a []
  | noDeclaration {a} : Derives greedy .declarations a a
  | moreDeclarations {a b c} (first : Derives greedy .declaration a b)
      (more : Derives greedy .declarations b c) : Derives greedy .declarations a c
  -- declarations
  | var {a b} (init : Derives greedy .initializer a b) :
      Derives greedy .declaration (varWord :: identifier :: a) b
  | fn {a b c} (names : Derives greedy .parameters a (rightParen :: leftBrace :: b))
      (body : Derives greedy .declarations b (rightBrace :: c)) :
      Derives greedy .declaration (fnWord :: identifier :: leftParen :: a) c
  | branch {a b c d} (condition : Derives greedy .expr a b)
      (body : Derives greedy .declaration b c) (other : Derives greedy .alternative c d) :
      Derives greedy .declaration (ifWord :: a) d
  | while {a b c} (condition : Derives greedy .expr a b)
      (body : Derives greedy .declaration b c) :
      Derives greedy .declaration (whileWord :: a) c
  | for {a b c d e} (start : Derives greedy .loopStart a b)
      (condition : Derives greedy .loopCondition b c) (step : Derives greedy .loopStep c d)
      (body : Derives greedy .declaration d e) :
      Derives greedy .declaration (forWord :: a) e
  | block {a b} (all : Derives greedy .declarations a (rightBrace :: b)) :
      Derives greedy .declaration (leftBrace :: a) b
  | return {a b} (value : Derives greedy .result a b) :
      Derives greedy .declaration (returnWord :: a) b
  | statement {a b} (value : Derives greedy .expr a b) : Derives greedy .declaration a b
  -- parts of declarations
  | noInitializer {a} : Derives greedy .initializer a a
  | initializer {a b} (value : Derives greedy .expr a b) :
      Derives greedy .initializer (equal :: a) b
  | noParameter {a} : Derives greedy .parameters a a
  | parameters {a b} (more : Derives greedy .moreParameters a b) :
      Derives greedy .parameters (identifier :: a) b
  | lastParameter {a} : Derives greedy .moreParameters a a
  | moreParameters {a b} (more : Derives greedy .moreParameters a b) :
      Derives greedy .moreParameters (comma :: identifier :: a) b
  | noAlternative {a} (nearest : greedy = true → a.head? ≠ some elseWord) :
      Derives greedy .alternative a a
  | alternative {a b} (body : Derives greedy .declaration a b) :
      Derives greedy .alternative (elseWord :: a) b
  | noResult {k a} (ends : k = rightBrace ∨ k = endOfSource) :
      Derives greedy .result (k :: a) (k :: a)
  | result {a b} (value : Derives greedy .expr a b) : Derives greedy .result a b
  -- parts of loops
  | noLoopStart {a} : Derives greedy .loopStart (comma :: a) a
  | loopVariable {a b} (init : Derives greedy .initializer a (comma :: b)) :
      Derives greedy .loopStart (varWord :: identifier :: a) b
  | loopStart {a b} (value : Derives greedy .expr a (comma :: b)) :
      Derives greedy .loopStart a b
  | noLoopCondition {a} : Derives greedy .loopCondition (comma :: a) a
  | loopCondition {a b} (value : Derives greedy .expr a (comma :: b)) :
      Derives greedy .loopCondition a b
  | skippedLoopStep {a} : Derives greedy .loopStep (comma :: a) a
  | noLoopStep {a} : Derives greedy .loopStep (leftBrace :: a) (leftBrace :: a)
  | loopStep {a b} (value : Derives greedy .expr a b) : Derives greedy .loopStep a b
  -- expressions
  | assignment {a b} (value : Derives greedy .expr a b) :
      Derives greedy .expr (identifier :: equal :: a) b
  | value {a b} (longest : greedy = true → ∀ k ∈ b.head?, ¬ GoesOn k)
      (value : Derives greedy (.ladder .or) a b) : Derives greedy .expr a b
  | chain {p a b c} (level : operators p ≠ []) (first : Derives greedy (.ladder p.next) a b)
      (more : Derives greedy (.tail p) b c) : Derives greedy (.ladder p) a c
  | endOfChain {p a} : Derives greedy (.tail p) a a
  | moreOfChain {p k a b c} (operator : k ∈ operators p)
      (operand : Derives greedy (.ladder p.next) a b) (more : Derives greedy (.tail p) b c) :
      Derives greedy (.tail p) (k :: a) c
  | unary {k a b} (operator : k ∈ prefixes) (operand : Derives greedy (.ladder .unary) a b) :
      Derives greedy (.ladder .unary) (k :: a) b
  | plain {a b} (operand : Derives greedy (.ladder .call) a b) :
      Derives greedy (.ladder .unary) a b
  | calls {a b c} (callee : Derives greedy (.ladder .primary) a b)
      (more : Derives greedy (.tail .call) b c) : Derives greedy (.ladder .call) a c
  | emptyCall {a b} (more : Derives greedy (.tail .call) a b) :
      Derives greedy (.tail .call) (leftParen :: rightParen :: a) b
  | call {a b c} (values : Derives greedy .arguments a (rightParen :: b))
      (more : Derives greedy (.tail .call) b c) :
      Derives greedy (.tail .call) (leftParen :: a) c
  | atom {k a} (known : k ∈ atoms) : Derives greedy (.ladder .primary) (k :: a) a
  | group {a b} (value : Derives greedy .expr a (rightParen :: b)) :
      Derives greedy (.ladder .primary) (leftParen :: a) b
  | lastArgument {a b} (value : Derives greedy .expr a b) : Derives greedy .arguments a b
  | moreArguments {a b c} (value : Derives greedy .expr a (comma :: b))
      (more : Derives greedy .arguments b c) : Derives greedy .arguments a c

/-- The kinds are a program. -/
abbrev IsProgram (greedy : Bool) (kinds : List TokenKind) : Prop :=
  Derives greedy .program kinds []

namespace Derives

variable {greedy : Bool} {part : GrammarPart} {p q : Precedence} {a b c : List TokenKind}

/-! ## Chains of operators -/

/-- One chain behind another of the same level is a chain. -/
theorem tail_trans (h : Derives greedy (.tail p) a b) (k : Derives greedy (.tail p) b c) :
    Derives greedy (.tail p) a c := by
  generalize hpart : GrammarPart.tail p = part at h
  induction h with
  | endOfChain =>
    cases hpart
    exact k
  | moreOfChain operator operand _ _ ih =>
    cases hpart
    exact .moreOfChain operator operand (ih k rfl)
  | emptyCall _ ih =>
    cases hpart
    exact .emptyCall (ih k rfl)
  | call values _ _ ih =>
    cases hpart
    exact .call values (ih k rfl)
  | _ => cases hpart

/-- A chain goes on behind an expression of its own level. -/
theorem ladder_append (h : Derives greedy (.ladder p) a b) (k : Derives greedy (.tail p) b c)
    (hp : GrammarPart.operators p ≠ [] ∨ p = .call) : Derives greedy (.ladder p) a c := by
  cases h with
  | chain level first more => exact .chain level first (more.tail_trans k)
  | calls callee more => exact .calls callee (more.tail_trans k)
  | unary | plain | atom | group =>
    rcases hp with hp | hp <;> first | exact absurd rfl hp | cases hp

/-! ## Levels -/

/-- An expression of a level is one of the level below. -/
theorem climb (h : Derives greedy (.ladder p.next) a b) (hp : ¬ p ≤ .assignment) :
    Derives greedy (.ladder p) a b := by
  cases p with
  | none => exact absurd (by decide) hp
  | assignment => exact absurd (by decide) hp
  | or | and | equality | comparison | term | factor =>
    exact .chain (List.cons_ne_nil _ _) h .endOfChain
  | unary => exact .plain h
  | call => exact .calls h .endOfChain
  | primary => exact h

theorem rank_next {p q : Precedence} (h : p.rank < q.rank) : p.next.rank = p.rank + 1 := by
  cases p <;> first | rfl | (cases q <;> revert h <;> decide)

theorem rank_injective {p q : Precedence} (h : p.rank = q.rank) : p = q := by
  cases p <;> cases q <;> first | rfl | (revert h; decide)

/-- An expression of a level is one of every level below. -/
theorem lift (h : Derives greedy (.ladder q) a b) (hpq : p ≤ q) (hp : ¬ p ≤ .assignment) :
    Derives greedy (.ladder p) a b := by
  obtain ⟨n, hn⟩ := Nat.exists_eq_add_of_le (show p.rank ≤ q.rank from hpq)
  induction n generalizing p with
  | zero => rwa [rank_injective hn.symm]
  | succ n ih =>
    have hnext : p.next.rank = p.rank + 1 := rank_next (q := q) (by omega)
    have hassign : ¬ p.rank ≤ Precedence.assignment.rank := hp
    refine climb (ih ?_ ?_ (by omega)) hp
    · show p.next.rank ≤ q.rank
      omega
    · show ¬ p.next.rank ≤ Precedence.assignment.rank
      omega

/-! ## First tokens -/

/-- An expression starts with a token that can stand there. -/
theorem exists_opens (h : Derives greedy part a b) (hpart : part = .expr ∨ ∃ p, part = .ladder p) :
    ∃ k rest, a = k :: rest ∧ GrammarPart.Opens k := by
  induction h with
  | assignment => exact ⟨identifier, _, rfl, .inr (.inr List.mem_cons_self)⟩
  | value _ _ ih => exact ih (.inr ⟨_, rfl⟩)
  | chain _ _ _ ih => exact ih (.inr ⟨_, rfl⟩)
  | unary operator => exact ⟨_, _, rfl, .inr (.inl operator)⟩
  | plain _ ih => exact ih (.inr ⟨_, rfl⟩)
  | calls _ _ ih => exact ih (.inr ⟨_, rfl⟩)
  | atom known => exact ⟨_, _, rfl, .inr (.inr known)⟩
  | group => exact ⟨_, _, rfl, .inl rfl⟩
  | _ => rcases hpart with hpart | ⟨p, hpart⟩ <;> cases hpart

theorem expr_opens (h : Derives greedy .expr a b) : ∃ k rest, a = k :: rest ∧ GrammarPart.Opens k :=
  h.exists_opens (.inl rfl)

theorem arguments_opens (h : Derives greedy .arguments a b) :
    ∃ k rest, a = k :: rest ∧ GrammarPart.Opens k := by
  cases h with
  | lastArgument value | moreArguments value => exact value.expr_opens

theorem declaration_starts (h : Derives greedy .declaration a b) :
    ∃ k rest, a = k :: rest ∧ GrammarPart.Starts k := by
  cases h with
  | statement value =>
    obtain ⟨k, rest, rfl, hk⟩ := value.expr_opens
    exact ⟨k, rest, rfl, .inl hk⟩
  | _ => exact ⟨_, _, rfl, .inr (by decide)⟩

/-! ## What follows -/

/-- A word is as long as what it leaves is shorter. -/
theorem length_le (h : Derives greedy part a b) : b.length + part.least ≤ a.length := by
  induction h <;> simp only [GrammarPart.least, List.length_cons, List.length_nil] at * <;> omega

/-- A chain goes on with an operator, or not at all. -/
theorem tail_cases (h : Derives greedy (.tail p) a b) :
    a = b ∨ ∃ k rest, a = k :: rest ∧
      (k ∈ GrammarPart.operators p ∨ (p = .call ∧ k = leftParen)) := by
  cases h with
  | endOfChain => exact .inl rfl
  | moreOfChain operator => exact .inr ⟨_, _, rfl, .inl operator⟩
  | emptyCall | call => exact .inr ⟨_, _, rfl, .inr ⟨rfl, rfl⟩⟩

/-- The greedy reading takes all that it can. -/
theorem expr_longest (h : Derives true .expr a b) : ∀ k ∈ b.head?, ¬ GrammarPart.GoesOn k := by
  generalize hpart : GrammarPart.expr = part at h
  induction h with
  | assignment _ ih => exact ih rfl
  | value longest => exact longest rfl
  | _ => cases hpart

/-- Declarations go on with one that starts, or not at all. -/
theorem declarations_cases (h : Derives greedy .declarations a b) :
    a = b ∨ ∃ k rest, a = k :: rest ∧ GrammarPart.Starts k := by
  cases h with
  | noDeclaration => exact .inl rfl
  | moreDeclarations first => exact .inr first.declaration_starts

end Derives

end ScriptEngine
