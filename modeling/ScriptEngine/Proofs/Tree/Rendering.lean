import ScriptEngine.Proofs.Tree.Syntax
set_option autoImplicit false

/-!
# Renderings of expressions

An expression can be written with more parentheses or fewer.  `Renders` says which words an
expression has where operators of some level are expected: parentheses may stand around every
part, and they have to where the ladder of operators would read the words differently.

`tightWords` writes no parentheses but those, and `fullWords` writes them around every part.  Both
are renderings (`renders_tight`, `renders_full`).
-/

namespace ScriptEngine.Tree

/-! ## Renderings -/

/-- What is rendered: an expression whose operators all bind at least as tightly as a level, or the
arguments behind the first one of a call. -/
inductive Part where
  | expression (e : Expression) (p : Precedence)
  | later (es : List Expression)

/-- The words are a rendering of a part.  A binary operator takes its right operand one level
higher; `and` and `or` take their left one higher. -/
inductive Renders : Part → List Word → Prop where
  | literal (l : Literal) (p : Precedence) : Renders (.expression (.literal l) p) [l.word]
  | name (x : String) (p : Precedence) : Renders (.expression (.name x) p) [⟨.identifier, x⟩]
  | assign {x : String} {e : Expression} {p : Precedence} {ws : List Word}
      (level : p ≤ .assignment) (value : Renders (.expression e .assignment) ws) :
      Renders (.expression (.assign x e) p) (⟨.identifier, x⟩ :: mark .equal :: ws)
  | unary {op : UnaryOperator} {e : Expression} {p : Precedence} {ws : List Word}
      (level : p ≤ .unary) (operand : Renders (.expression e .unary) ws) :
      Renders (.expression (.unary op e) p) (unaryMark op :: ws)
  | binary {op : BinaryOperator} {l r : Expression} {p : Precedence} {ws ws' : List Word}
      (level : p ≤ op.precedence) (left : Renders (.expression l op.precedence) ws)
      (right : Renders (.expression r op.precedence.next) ws') :
      Renders (.expression (.binary op l r) p) (ws ++ binaryMark op :: ws')
  | and {l r : Expression} {p : Precedence} {ws ws' : List Word} (level : p ≤ .and)
      (left : Renders (.expression l Precedence.and.next) ws)
      (right : Renders (.expression r .and) ws') :
      Renders (.expression (.and l r) p) (ws ++ mark .andWord :: ws')
  | or {l r : Expression} {p : Precedence} {ws ws' : List Word} (level : p ≤ .or)
      (left : Renders (.expression l Precedence.or.next) ws)
      (right : Renders (.expression r .or) ws') :
      Renders (.expression (.or l r) p) (ws ++ mark .orWord :: ws')
  | emptyCall {callee : Expression} {p : Precedence} {ws : List Word} (level : p ≤ .call)
      (first : Renders (.expression callee .call) ws) :
      Renders (.expression (.call callee []) p) (ws ++ parens [])
  | call {callee e : Expression} {es : List Expression} {p : Precedence} {ws ws' ws'' : List Word}
      (level : p ≤ .call) (first : Renders (.expression callee .call) ws)
      (value : Renders (.expression e .assignment) ws') (more : Renders (.later es) ws'') :
      Renders (.expression (.call callee (e :: es)) p) (ws ++ parens (ws' ++ ws''))
  | group {e : Expression} {p : Precedence} {ws : List Word}
      (inner : Renders (.expression e .assignment) ws) : Renders (.expression e p) (parens ws)
  | noMore : Renders (.later []) []
  | more {e : Expression} {es : List Expression} {ws ws' : List Word}
      (value : Renders (.expression e .assignment) ws) (more : Renders (.later es) ws') :
      Renders (.later (e :: es)) (mark .comma :: ws ++ ws')

/-! ## As few parentheses as possible -/

/-- Words that are in parentheses unless they may stand alone. -/
def parensUnless (alone : Bool) (ws : List Word) : List Word := if alone then ws else parens ws

mutual

/-- The words of an expression with parentheses only where a level needs them. -/
def Expression.tightWords : Expression → Precedence → List Word
  | .literal l, _ => [l.word]
  | .name x, _ => [⟨.identifier, x⟩]
  | .assign x e, p =>
      parensUnless (p ≤ .assignment) (⟨.identifier, x⟩ :: mark .equal :: e.tightWords .assignment)
  | .unary op e, p => parensUnless (p ≤ .unary) (unaryMark op :: e.tightWords .unary)
  | .binary op l r, p =>
      parensUnless (p ≤ op.precedence)
        (l.tightWords op.precedence ++ binaryMark op :: r.tightWords op.precedence.next)
  | .and l r, p =>
      parensUnless (p ≤ .and)
        (l.tightWords Precedence.and.next ++ mark .andWord :: r.tightWords .and)
  | .or l r, p =>
      parensUnless (p ≤ .or)
        (l.tightWords Precedence.or.next ++ mark .orWord :: r.tightWords .or)
  | .call callee [], p => parensUnless (p ≤ .call) (callee.tightWords .call ++ parens [])
  | .call callee (e :: es), p =>
      parensUnless (p ≤ .call)
        (callee.tightWords .call ++ parens (e.tightWords .assignment ++ tightLater es))
termination_by structural e => e

/-- The words of the arguments after the first one. -/
def tightLater : List Expression → List Word
  | [] => []
  | e :: es => mark .comma :: e.tightWords .assignment ++ tightLater es
termination_by structural es => es

end

/-- A rendering may be put in parentheses, and must be where its level is too loose. -/
theorem renders_parensUnless {e : Expression} {p q : Precedence} {ws : List Word}
    (halone : p ≤ q → Renders (.expression e p) ws)
    (hgroup : Renders (.expression e .assignment) ws) :
    Renders (.expression e p) (parensUnless (p ≤ q) ws) := by
  unfold parensUnless
  split
  · next hle => exact halone (of_decide_eq_true hle)
  · exact .group hgroup

mutual

/-- The words with the fewest parentheses are a rendering. -/
theorem renders_tight : ∀ (e : Expression) (p : Precedence),
    Renders (.expression e p) (e.tightWords p)
  | .literal l, p => .literal l p
  | .name x, p => .name x p
  | .assign x e, p => by
    have hvalue := renders_tight e .assignment
    exact renders_parensUnless (fun h => .assign h hvalue) (.assign (Nat.le_refl _) hvalue)
  | .unary op e, p => by
    have hoperand := renders_tight e .unary
    exact renders_parensUnless (fun h => .unary h hoperand) (.unary (by decide) hoperand)
  | .binary op l r, p => by
    have hleft := renders_tight l op.precedence
    have hright := renders_tight r op.precedence.next
    refine renders_parensUnless (fun h => .binary h hleft hright) (.binary ?_ hleft hright)
    cases op <;> decide
  | .and l r, p => by
    have hleft := renders_tight l Precedence.and.next
    have hright := renders_tight r .and
    exact renders_parensUnless (fun h => .and h hleft hright) (.and (by decide) hleft hright)
  | .or l r, p => by
    have hleft := renders_tight l Precedence.or.next
    have hright := renders_tight r .or
    exact renders_parensUnless (fun h => .or h hleft hright) (.or (by decide) hleft hright)
  | .call callee [], p => by
    have hcallee := renders_tight callee .call
    exact renders_parensUnless (fun h => .emptyCall h hcallee) (.emptyCall (by decide) hcallee)
  | .call callee (e :: es), p => by
    have hcallee := renders_tight callee .call
    have hvalue := renders_tight e .assignment
    have hmore := renders_tightLater es
    exact renders_parensUnless (fun h => .call h hcallee hvalue hmore)
      (.call (by decide) hcallee hvalue hmore)
termination_by structural e => e

theorem renders_tightLater : ∀ es : List Expression, Renders (.later es) (tightLater es)
  | [] => .noMore
  | e :: es => by
    have hvalue := renders_tight e .assignment
    have hmore := renders_tightLater es
    exact .more hvalue hmore
termination_by structural es => es

end

/-! ## As many parentheses as possible -/

mutual

/-- The words of an expression with parentheses around every part but what is assigned to. -/
def Expression.fullWords : Expression → List Word
  | .literal l => parens [l.word]
  | .name x => parens [⟨.identifier, x⟩]
  | .assign x e => parens (⟨.identifier, x⟩ :: mark .equal :: e.fullWords)
  | .unary op e => parens (unaryMark op :: e.fullWords)
  | .binary op l r => parens (l.fullWords ++ binaryMark op :: r.fullWords)
  | .and l r => parens (l.fullWords ++ mark .andWord :: r.fullWords)
  | .or l r => parens (l.fullWords ++ mark .orWord :: r.fullWords)
  | .call callee [] => parens (callee.fullWords ++ parens [])
  | .call callee (e :: es) =>
      parens (callee.fullWords ++ parens (e.fullWords ++ fullLater es))
termination_by structural e => e

/-- The words of the arguments after the first one. -/
def fullLater : List Expression → List Word
  | [] => []
  | e :: es => mark .comma :: e.fullWords ++ fullLater es
termination_by structural es => es

end

mutual

/-- The words with the most parentheses are a rendering on every level. -/
theorem renders_full : ∀ (e : Expression) (p : Precedence),
    Renders (.expression e p) e.fullWords
  | .literal l, _ => .group (.literal l _)
  | .name x, _ => .group (.name x _)
  | .assign x e, _ => by
    have hvalue := renders_full e .assignment
    exact .group (.assign (Nat.le_refl _) hvalue)
  | .unary op e, _ => by
    have hoperand := renders_full e .unary
    exact .group (.unary (by decide) hoperand)
  | .binary op l r, _ => by
    have hleft := renders_full l op.precedence
    have hright := renders_full r op.precedence.next
    refine .group (.binary ?_ hleft hright)
    cases op <;> decide
  | .and l r, _ => by
    have hleft := renders_full l Precedence.and.next
    have hright := renders_full r .and
    exact .group (.and (by decide) hleft hright)
  | .or l r, _ => by
    have hleft := renders_full l Precedence.or.next
    have hright := renders_full r .or
    exact .group (.or (by decide) hleft hright)
  | .call callee [], _ => by
    have hcallee := renders_full callee .call
    exact .group (.emptyCall (by decide) hcallee)
  | .call callee (e :: es), _ => by
    have hcallee := renders_full callee .call
    have hvalue := renders_full e .assignment
    have hmore := renders_fullLater es
    exact .group (.call (by decide) hcallee hvalue hmore)
termination_by structural e => e

theorem renders_fullLater : ∀ es : List Expression, Renders (.later es) (fullLater es)
  | [] => .noMore
  | e :: es => by
    have hvalue := renders_full e .assignment
    have hmore := renders_fullLater es
    exact .more hvalue hmore
termination_by structural es => es

end

/-- Sums and products, with parentheses only where the levels need them. -/
example : (Expression.binary .multiply (.binary .add (.name "a") (.name "b"))
    (.unary .negate (.name "c"))).tightWords .assignment =
      parens [⟨.identifier, "a"⟩, mark .plus, ⟨.identifier, "b"⟩] ++
        [mark .star, mark .minus, ⟨.identifier, "c"⟩] := by decide

end ScriptEngine.Tree
