import ScriptEngine.Proofs.Compile.Ladder
import ScriptEngine.Proofs.Loops.Declarations
set_option autoImplicit false

/-!
# Spellings of declarations

`Spells` says which words a declaration can be written with.  Its expressions have any renderings,
and nothing else about the words is free.

Where a declaration ends is not always marked: an expression goes on as long as the words allow it,
and so does a branch if `else` follows.  `Declaration.Admits` says which words may follow, and
`Spells` asks for this wherever one part follows another one.
-/

namespace ScriptEngine.Tree

open Compile

/-! ## What may follow -/

/-- The word may follow a declaration without becoming a part of it. -/
def Declaration.Admits : Declaration → Word → Prop
  | .var _ none, w => w.kind ≠ .equal
  | .var _ (some _), w => Calm w
  | .function _ _ _, _ => True
  | .branch _ yes, w => w.kind ≠ .elseWord ∧ yes.Admits w
  | .choice _ _ no, w => no.Admits w
  | .loop _ body, w => body.Admits w
  | .count _ _ _ body, w => body.Admits w
  | .block _, _ => True
  | .result none, w => w.kind = .rightBrace ∨ w.kind = .endOfSource
  | .result (some _), w => Calm w
  | .expression _, w => Calm w
termination_by structural d => d

/-! ## Words -/

/-- Names with commas between them. -/
def commas : List String → List Word
  | [] => []
  | [x] => [⟨.identifier, x⟩]
  | x :: y :: xs => ⟨.identifier, x⟩ :: mark .comma :: commas (y :: xs)

/-- The words are a rendering of an expression that may be missing. -/
inductive SpellsMaybe : Option Expression → List Word → Prop where
  | none : SpellsMaybe none []
  | some {e : Expression} {ws : List Word} (value : Renders (.expression e .assignment) ws) :
      SpellsMaybe (some e) ws

/-- The words declare a variable, without the keyword. -/
inductive SpellsVar (x : String) : Option Expression → List Word → Prop where
  | bare : SpellsVar x none [⟨.identifier, x⟩]
  | value {e : Expression} {ws : List Word} (value : Renders (.expression e .assignment) ws) :
      SpellsVar x (some e) (⟨.identifier, x⟩ :: mark .equal :: ws)

/-- The words say what a counted loop does first. -/
inductive SpellsFirst : Initializer → List Word → Prop where
  | none : SpellsFirst .none []
  | var {x : String} {value : Option Expression} {ws : List Word}
      (declared : SpellsVar x value ws) :
      SpellsFirst (.var x value) (mark .varWord :: ws)
  | expression {e : Expression} {ws : List Word} (value : Renders (.expression e .assignment) ws) :
      SpellsFirst (.expression e) ws

/-- The words say what a counted loop does between two rounds, where the body starts with the word
`next`.  Without braces around the body, a missing increment is marked by a comma. -/
inductive SpellsStep (next : Word) : Option Expression → List Word → Prop where
  | brace (brace : next = mark .leftBrace) : SpellsStep next none []
  | comma : SpellsStep next none [mark .comma]
  | some {e : Expression} {ws : List Word} (value : Renders (.expression e .assignment) ws)
      (apart : Calm next) : SpellsStep next (some e) ws

mutual

/-- The words are a spelling of a declaration. -/
inductive Spells : Declaration → List Word → Prop where
  | var {x : String} {value : Option Expression} {ws : List Word}
      (declared : SpellsVar x value ws) :
      Spells (.var x value) (mark .varWord :: ws)
  | function {x : String} {parameters : List String} {body : List Declaration} {ws : List Word}
      (inside : SpellsAll (mark .rightBrace) body ws) :
      Spells (.function x parameters body)
        (mark .fnWord :: ⟨.identifier, x⟩ :: (parens (commas parameters) ++ braces ws))
  | branch {c : Expression} {yes : Declaration} {w : Word} {us ws : List Word}
      (condition : Renders (.expression c .assignment) us) (apart : Calm w)
      (inside : Spells yes (w :: ws)) : Spells (.branch c yes) (mark .ifWord :: (us ++ w :: ws))
  | choice {c : Expression} {yes no : Declaration} {w : Word} {us ws vs : List Word}
      (condition : Renders (.expression c .assignment) us) (apart : Calm w)
      (inside : Spells yes (w :: ws)) (admits : yes.Admits (mark .elseWord))
      (other : Spells no vs) :
      Spells (.choice c yes no) (mark .ifWord :: (us ++ w :: (ws ++ mark .elseWord :: vs)))
  | loop {c : Expression} {body : Declaration} {w : Word} {us ws : List Word}
      (condition : Renders (.expression c .assignment) us) (apart : Calm w)
      (inside : Spells body (w :: ws)) : Spells (.loop c body) (mark .whileWord :: (us ++ w :: ws))
  | count {first : Initializer} {c step : Option Expression} {body : Declaration} {w : Word}
      {us vs ss ws : List Word} (start : SpellsFirst first us) (condition : SpellsMaybe c vs)
      (increment : SpellsStep w step ss) (inside : Spells body (w :: ws)) :
      Spells (.count first c step body)
        (mark .forWord :: (us ++ mark .comma :: (vs ++ mark .comma :: (ss ++ w :: ws))))
  | block {body : List Declaration} {ws : List Word}
      (inside : SpellsAll (mark .rightBrace) body ws) :
      Spells (.block body) (braces ws)
  | result {value : Option Expression} {ws : List Word} (given : SpellsMaybe value ws) :
      Spells (.result value) (mark .returnWord :: ws)
  | expression {e : Expression} {ws : List Word} (value : Renders (.expression e .assignment) ws) :
      Spells (.expression e) ws

/-- The words are a spelling of declarations in a row, with a certain word behind them. -/
inductive SpellsAll : Word → List Declaration → List Word → Prop where
  | nil {stop : Word} : SpellsAll stop [] []
  | cons {stop : Word} {d : Declaration} {ds : List Declaration} {ws vs : List Word}
      (first : Spells d ws) (admits : d.Admits (vs.headD stop)) (more : SpellsAll stop ds vs) :
      SpellsAll stop (d :: ds) (ws ++ vs)

end

/-! ## First words -/

/-- What starts a declaration ends neither a block nor a source. -/
theorem starts_of_spells {d : Declaration} {ws : List Word} (h : Spells d ws) :
    ∃ w vs, ws = w :: vs ∧ w.kind ≠ .rightBrace ∧ w.kind ≠ .endOfSource := by
  cases h with
  | expression value =>
    obtain ⟨w, vs, o, rfl, ho⟩ := opens_of_renders value
    refine ⟨w, vs, rfl, ?_, ?_⟩ <;> intro hkind <;> rw [hkind] at ho <;> cases ho
  | _ => exact ⟨_, _, rfl, nofun, nofun⟩

end ScriptEngine.Tree
