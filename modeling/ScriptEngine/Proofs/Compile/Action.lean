import Mathlib.Logic.Relation
import ScriptEngine.Compile.Program
set_option autoImplicit false

/-!
# Compilation: actions

Every pass of the compiler is a chain of a few kinds of actions on its state
(`Actions`).  What one action keeps, a whole compilation keeps: a property of
the compiler is proved once for each kind of action, and holds after every form
of the language.

The first such property is that a diagnostic is never taken back
(`Actions.isQuiet`).
-/

namespace ScriptEngine.Compile

namespace State

/-- Nothing has been reported so far. -/
def IsQuiet (s : State) : Prop := s.diagnostics = #[]

/-- A function that was finished. -/
def Knows (s : State) (f : Function Value) : Prop :=
  ∃ done ∈ s.finished, done.function = f

/-! ## Actions -/

/-- One thing that the compiler does to its state while it stays in one function
and one scope. -/
inductive Edit : State → State → Prop where
  | tick (s : State) : Edit s s.tick
  | read (s : State) : Edit s s.read
  | complain (s : State) (t : Token) (c : Complaint) : Edit s (s.complainAt t c)
  | note (s : State) (d : Defect) : Edit s (s.noteDefect d)
  | append (s : State) (byte : UInt8) : Edit s (s.appendByte byte)
  | setLastOp (s : State) (op : Option Opcode) : Edit s (s.withLastOp op)
  | openJump (s : State) (op : Opcode) : Edit s (s.openJump op).2
  | landJump (s : State) (operand : Nat) : Edit s (s.landJump operand)
  | loopBack (s : State) (start : Nat) : Edit s (s.loopBack start)
  /-- A function is pooled only after it was finished. -/
  | pool (s : State) (v : Value)
      (known : s.IsQuiet → ∀ f, v = .function f → s.Knows f) :
      Edit s (s.poolConstant v).2
  /-- Only the name that was read last is ever captured. -/
  | capture (s : State) (found : Captured) (hname : s.previous.kind = .identifier)
      (h : captureFrom s.previous.lexeme s.builder s.around = some found) :
      Edit s { s with builder := found.inner, around := found.around }

/-- One thing that the compiler does to its state. -/
inductive Action : State → State → Prop where
  | edit {s t : State} (h : Edit s t) : Action s t
  /-- The silence after a mistake ends. -/
  | settle (s : State) : Action s { s with isRecovering := false }
  | checkpoint (s : State) : Action s s.checkpoint
  /-- A scope is opened or closed, or a local declared or made readable. -/
  | setScope (s : State) (depth : Nat) (locals : List Local)
      (room : s.builder.locals.length ≤ byteRange → locals.length ≤ byteRange) :
      Action s { s with builder := { s.builder with depth, locals } }
  | setArity (s : State) (arity : Nat) :
      Action s { s with builder := { s.builder with arity } }
  | enter (s : State) (name : String) : Action s (s.enterFunction name)
  | leave (s : State) : Action s (s.leaveFunction (s.builder.finish s.nextId))

/-- Any number of edits. -/
abbrev Edits : State → State → Prop := Relation.ReflTransGen Edit

/-- Any number of actions. -/
abbrev Actions : State → State → Prop := Relation.ReflTransGen Action

theorem Edit.edits {s t : State} (h : Edit s t) : Edits s t := .single h

theorem Action.actions {s t : State} (h : Action s t) : Actions s t := .single h

theorem Edits.actions {s t : State} (h : Edits s t) : Actions s t :=
  Relation.ReflTransGen.lift id (fun _ _ => Action.edit) _ _ h

/-! ## Diagnostics stay -/

theorem isQuiet_of_complainAt {s : State} {t : Token} {c : Complaint}
    (h : (s.complainAt t c).IsQuiet) : s.IsQuiet := by
  unfold complainAt at h
  split at h
  · exact h
  · simp [IsQuiet] at h

theorem isQuiet_of_pull {ts : List Token} {s : State} (h : (s.pull ts).IsQuiet) :
    s.IsQuiet := by
  induction ts generalizing s with
  | nil => exact h
  | cons t rest ih =>
    unfold pull at h
    split at h
    · exact isQuiet_of_complainAt (s := s.tick) (ih h)
    · exact h

theorem isQuiet_guarantee (s : State) (holds : Bool) (d : Defect) :
    (s.guarantee holds d).IsQuiet ↔ s.IsQuiet := by
  unfold guarantee
  split <;> rfl

@[simp] theorem builder_guarantee (s : State) (holds : Bool) (d : Defect) :
    (s.guarantee holds d).builder = s.builder := by
  unfold guarantee
  split <;> rfl

theorem isQuiet_of_landJump {s : State} {operand : Nat}
    (h : (s.landJump operand).IsQuiet) : s.IsQuiet := by
  unfold landJump at h
  dsimp only at h
  split at h
  · exact (isQuiet_guarantee ..).mp h
  · exact (isQuiet_guarantee ..).mp (isQuiet_of_complainAt h)

theorem isQuiet_of_loopBack {s : State} {start : Nat}
    (h : (s.loopBack start).IsQuiet) : s.IsQuiet := by
  unfold loopBack at h
  dsimp only at h
  split at h
  · exact (isQuiet_guarantee ..).mp h
  · have hq := isQuiet_of_complainAt h
    exact (isQuiet_guarantee ..).mp hq

theorem isQuiet_of_poolConstant {s : State} {v : Value}
    (h : (s.poolConstant v).2.IsQuiet) : s.IsQuiet := by
  unfold poolConstant at h
  dsimp only at h
  split at h
  · exact h
  · have hq := isQuiet_of_complainAt h
    exact hq

theorem Edit.isQuiet {s t : State} (h : Edit s t) (ht : t.IsQuiet) : s.IsQuiet := by
  cases h with
  | complain => exact isQuiet_of_complainAt ht
  | read => exact isQuiet_of_pull (s := s.tick) ht
  | landJump => exact isQuiet_of_landJump ht
  | loopBack => exact isQuiet_of_loopBack ht
  | pool => exact isQuiet_of_poolConstant ht
  | _ => exact ht

theorem Action.isQuiet {s t : State} (h : Action s t) (ht : t.IsQuiet) : s.IsQuiet := by
  cases h with
  | edit h => exact h.isQuiet ht
  | _ => exact ht

/-- A diagnostic is never taken back. -/
theorem Actions.isQuiet {s t : State} (h : Actions s t) (ht : t.IsQuiet) : s.IsQuiet := by
  induction h with
  | refl => exact ht
  | tail _ act ih => exact ih (act.isQuiet ht)

theorem Edits.isQuiet {s t : State} (h : Edits s t) (ht : t.IsQuiet) : s.IsQuiet :=
  h.actions.isQuiet ht

/-! ## Primitives -/

theorem edits_complain (s : State) (c : Complaint) : Edits s (s.complain c) :=
  (Edit.complain s s.previous c).edits

theorem edits_complainNext (s : State) (c : Complaint) :
    Edits s (s.complainNext c) :=
  (Edit.complain s s.current c).edits

theorem edits_guarantee (s : State) (holds : Bool) (d : Defect) :
    Edits s (s.guarantee holds d) := by
  unfold guarantee
  split
  · exact .refl
  · exact (Edit.note s d).edits

theorem edits_require (s : State) (k : TokenKind) (what : Expected) :
    Edits s (s.require k what) := by
  unfold require
  split
  · exact (Edit.read s).edits
  · exact edits_complainNext ..

theorem edits_skipToDeclaration (limit : Nat) (s : State) :
    Edits s (s.skipToDeclaration limit) := by
  induction limit generalizing s with
  | zero => exact (Edit.note s _).edits
  | succ limit ih =>
    unfold skipToDeclaration
    split
    · exact .refl
    · exact (Edit.read s).edits.trans (ih s.read)

theorem actions_recover (s : State) : Actions s s.recover := by
  unfold recover
  split
  · exact (Action.settle s).actions.trans (edits_skipToDeclaration ..).actions
  · exact .refl

theorem edits_appendOp (s : State) (op : Opcode) : Edits s (s.appendOp op) :=
  (Edit.append s op.toByte).edits.trans (Edit.setLastOp _ _).edits

theorem edits_appendNumber (s : State) (n : Nat) : Edits s (s.appendNumber n) :=
  (edits_guarantee ..).trans (Edit.append ..).edits

theorem edits_appendWith (s : State) (op : Opcode) (n : Nat) :
    Edits s (s.appendWith op n) :=
  (edits_appendOp s op).trans (edits_appendNumber ..)

theorem edits_foldl {α : Type} {f : State → α → State}
    (hf : ∀ s a, Edits s (f s a)) (as : List α) (s : State) :
    Edits s (as.foldl f s) := by
  induction as generalizing s with
  | nil => exact .refl
  | cons a as ih => exact (hf s a).trans (ih (f s a))

/-- A value that is no function may be pooled at any time. -/
theorem edits_poolConstant {v : Value} (hv : ∀ f, v ≠ .function f) (s : State) :
    Edits s (s.poolConstant v).2 :=
  (Edit.pool s v fun _ f h => absurd h (hv f)).edits

theorem edits_pushLiteral {v : Value} (hv : ∀ f, v ≠ .function f) (s : State) :
    Edits s (s.pushLiteral v) :=
  (edits_poolConstant hv s).trans (edits_appendWith ..)

theorem edits_returnNil (s : State) : Edits s s.returnNil := by
  unfold returnNil
  split
  · exact .refl
  · exact (edits_appendOp ..).trans (edits_appendOp ..)

theorem actions_finishFunction (s : State) : Actions s s.finishFunction.2.2 :=
  (edits_returnNil s).actions.trans (Action.leave _).actions

/-! ## Scopes and names -/

theorem actions_openScope (s : State) : Actions s s.openScope :=
  (Action.setScope s (s.builder.depth + 1) s.builder.locals fun h => h).actions

theorem actions_closeScope (s : State) : Actions s s.closeScope := by
  unfold closeScope
  dsimp only
  refine (edits_guarantee s _ .scopeUnderflow).actions.trans <|
    (edits_guarantee _ _ .calleeRetired).actions.trans <|
      (Action.setScope _ _ _ fun h => ?_).actions.trans <|
        (edits_foldl (fun s (l : Local) => edits_appendOp s l.retirement) _ _).actions.trans
          (Action.checkpoint _).actions
  rw [builder_guarantee] at h
  exact Nat.le_trans (List.dropWhile_sublist _).length_le h

theorem actions_inScope {inside : Pass} (h : ∀ s, Actions s (inside s)) (s : State) :
    Actions s (s.inScope inside) :=
  (actions_openScope s).trans ((h _).trans (actions_closeScope _))

theorem actions_pushLocal (s : State) (name : String) :
    Actions s (s.pushLocal name) := by
  unfold pushLocal
  split
  · exact (edits_complain ..).actions
  · next h =>
    refine (Action.setScope s s.builder.depth _ fun hroom => ?_).actions
    rw [List.length_cons]
    omega

theorem actions_declareLocal (s : State) : Actions s s.declareLocal := by
  unfold declareLocal
  split
  · exact .refl
  · dsimp only
    split
    · exact ((edits_complain ..).actions).trans (actions_pushLocal ..)
    · exact actions_pushLocal ..

theorem actions_declareName (s : State) (what : Expected) :
    Actions s (s.declareName what).2 := by
  unfold declareName
  dsimp only
  refine (edits_require s .identifier what).actions.trans
    ((actions_declareLocal _).trans ?_)
  split
  · exact (edits_poolConstant (fun f h => by cases h) _).actions
  · exact .refl

/-- A name that is declared without a diagnostic is read and declared without one. -/
theorem isQuiet_of_declareName {s : State} {what : Expected}
    (h : (s.declareName what).2.IsQuiet) :
    (s.require .identifier what).declareLocal.IsQuiet := by
  unfold declareName at h
  dsimp only at h
  split at h
  · exact isQuiet_of_poolConstant h
  · exact h

theorem actions_makeReadable (s : State) : Actions s s.makeReadable := by
  unfold makeReadable
  split
  · exact .refl
  · exact .refl
  · next l older hlocals _ =>
    refine (Action.setScope s s.builder.depth _ fun hroom => ?_).actions
    rwa [hlocals] at hroom

theorem actions_bindName (s : State) (global : Nat) : Actions s (s.bindName global) := by
  unfold bindName
  split
  · exact (edits_appendWith ..).actions
  · exact actions_makeReadable s

theorem edits_resolve {s : State} (hname : s.previous.kind = .identifier) :
    Edits s (s.resolve s.previous.lexeme).2 := by
  unfold resolve
  split
  · dsimp only
    split
    · exact edits_complain ..
    · exact .refl
  · split
    · next h =>
      obtain ⟨found, hfound, hpair⟩ := Option.map_eq_some_iff.mp h
      have hedit := (Edit.capture s found hname hfound).edits
      rw [Prod.mk.injEq] at hpair
      obtain ⟨-, rfl⟩ := hpair
      dsimp only
      split
      · exact hedit.trans (edits_complain ..)
      · exact hedit
    · exact edits_poolConstant (fun f h => by cases h) _

/-! ## Expressions -/

section Expressions

variable {operand : Precedence → Pass} {arguments : State → Nat × State}

theorem edits_nameForm {expression : Pass} (he : ∀ s, Edits s (expression s))
    (mayAssign : Bool) {s : State} (hname : s.previous.kind = .identifier) :
    Edits s (s.nameForm expression mayAssign) := by
  unfold nameForm
  dsimp only
  refine (edits_resolve hname).trans ?_
  split
  · exact (Edit.read _).edits.trans ((he _).trans (edits_appendWith ..))
  · exact edits_appendWith ..

theorem edits_numberForm (s : State) : Edits s s.numberForm := by
  unfold numberForm
  split
  · exact edits_pushLiteral (fun f h => by cases h) s
  · exact edits_complain ..

theorem kind_of_opening_name {k : TokenKind} (h : k.opening? = some .name) :
    k = .identifier := by
  cases k <;> first | rfl | cases h

theorem edits_openExpression (ho : ∀ p s, Edits s (operand p s)) (mayAssign : Bool)
    {opening : Opening} {s : State} (hopening : s.previous.kind.opening? = some opening) :
    Edits s (s.openExpression operand mayAssign opening) := by
  cases opening with
  | group => exact (ho _ s).trans (edits_require ..)
  | unary op => exact (ho _ s).trans (edits_appendOp ..)
  | name => exact edits_nameForm (ho .assignment) mayAssign (kind_of_opening_name hopening)
  | string => exact edits_pushLiteral (fun f h => by cases h) s
  | number => exact edits_numberForm s
  | literal op => exact edits_appendOp s op

theorem edits_callForm (ha : ∀ s, Edits s (arguments s).2) (s : State) :
    Edits s (s.callForm arguments) := by
  unfold callForm
  dsimp only
  split
  · exact (edits_require ..).trans (edits_appendWith ..)
  · exact (ha s).trans ((edits_require ..).trans (edits_appendWith ..))

theorem edits_andForm (ho : ∀ p s, Edits s (operand p s)) (s : State) :
    Edits s (s.andForm operand) :=
  (Edit.openJump s .jumpIfFalse).edits.trans <| (edits_appendOp _ _).trans <|
    (ho _ _).trans (Edit.landJump _ _).edits

theorem edits_orForm (ho : ∀ p s, Edits s (operand p s)) (s : State) :
    Edits s (s.orForm operand) :=
  (Edit.openJump s .jumpIfFalse).edits.trans <|
    (Edit.openJump _ .jump).edits.trans <| (Edit.landJump _ _).edits.trans <|
      (edits_appendOp _ _).trans <| (ho _ _).trans (Edit.landJump _ _).edits

theorem edits_continueExpression (ho : ∀ p s, Edits s (operand p s))
    (ha : ∀ s, Edits s (arguments s).2) (c : Continuation) (s : State) :
    Edits s (s.continueExpression operand arguments c) := by
  cases c with
  | call => exact edits_callForm ha s
  | binary op => exact (ho _ s).trans (edits_foldl edits_appendOp _ _)
  | and => exact edits_andForm ho s
  | or => exact edits_orForm ho s

theorem edits_refuseAssignment (mayAssign : Bool) (s : State) :
    Edits s (s.refuseAssignment mayAssign) := by
  unfold refuseAssignment
  split
  · exact (Edit.read s).edits.trans (edits_complain ..)
  · exact .refl

theorem edits_countArgument (s : State) (count : Nat) :
    Edits s (s.countArgument count).2 := by
  unfold countArgument
  split
  · exact edits_complain ..
  · exact .refl

end Expressions

/-! ## Statements -/

section Statements

variable {expression declaration declarations : Pass}

theorem actions_varForm (he : ∀ s, Edits s (expression s)) (s : State) :
    Actions s (s.varForm expression) := by
  unfold varForm
  dsimp only
  refine (actions_declareName s .variableName).trans (.trans ?_ (actions_bindName ..))
  split
  · exact Edits.actions ((Edit.read _).edits.trans (he _))
  · exact (edits_appendOp ..).actions

theorem actions_parameter (s : State) : Actions s s.parameter := by
  unfold parameter
  dsimp only
  refine (Edit.tick s).edits.actions.trans (.trans ?_
    ((actions_declareName ..).trans (actions_bindName ..)))
  split
  · exact (edits_complainNext ..).actions
  · exact (Action.setArity ..).actions

theorem actions_parameters (limit : Nat) (s : State) :
    Actions s (s.parameters limit) := by
  induction limit generalizing s with
  | zero => exact (Edit.note s _).edits.actions
  | succ limit ih =>
    unfold parameters
    dsimp only
    refine (actions_parameter s).trans ?_
    split
    · exact (Edit.read _).edits.actions.trans (ih _)
    · exact .refl

theorem actions_parameterList (s : State) : Actions s s.parameterList := by
  unfold parameterList
  dsimp only
  refine (edits_require s .leftParen .openingOfParameters).actions.trans
    (.trans ?_ (edits_require ..).actions)
  split
  · exact .refl
  · exact actions_parameters ..

theorem edits_appendCaptures (s : State) (captures : List Capture) :
    Edits s (s.appendCaptures captures) :=
  edits_foldl
    (fun s (c : Capture) => (Edit.append s (if c.isLocal then 1 else 0)).edits.trans
      (edits_appendNumber _ c.index)) captures s

/-- The function that was finished last is known. -/
theorem knows_finishFunction (s : State) (h : s.finishFunction.2.2.IsQuiet) :
    s.finishFunction.2.2.Knows s.finishFunction.1 := by
  have hq : s.returnNil.diagnostics = #[] := h
  exact ⟨⟨_, s.returnNil.builder.checkpoints⟩,
    by simp [finishFunction, leaveFunction, hq], rfl⟩

theorem actions_functionBody (hd : ∀ s, Actions s (declarations s)) (s : State) :
    Actions s (((s.enterFunction s.previous.lexeme).openScope.parameterList.require
      .leftBrace .openingOfBody).checkpoint.blockForm declarations) :=
  (Action.enter s s.previous.lexeme).actions.trans <| (actions_openScope _).trans <|
    (actions_parameterList _).trans <|
      (edits_require _ .leftBrace .openingOfBody).actions.trans <|
        (Action.checkpoint _).actions.trans <| (hd _).trans
          (edits_require _ .rightBrace .closingOfBlock).actions

theorem actions_functionForm (hd : ∀ s, Actions s (declarations s)) (s : State) :
    Actions s (s.functionForm declarations) := by
  unfold functionForm
  dsimp only
  refine (actions_functionBody hd s).trans <| (actions_finishFunction _).trans <|
    Edits.actions <| .head (Edit.pool _ _ fun hq f hf => ?_)
      ((edits_appendWith ..).trans (edits_appendCaptures ..))
  cases hf
  exact knows_finishFunction _ hq

theorem actions_fnForm (hd : ∀ s, Actions s (declarations s)) (s : State) :
    Actions s (s.fnForm declarations) :=
  (actions_declareName s .functionName).trans <| (actions_makeReadable _).trans <|
    (actions_functionForm hd _).trans (actions_bindName ..)

theorem actions_ifForm (he : ∀ s, Edits s (expression s))
    (hd : ∀ s, Actions s (declaration s)) (s : State) :
    Actions s (s.ifForm expression declaration) := by
  have hthen : ∀ s : State, Actions s ((((s.openJump .jumpIfFalse).2.appendOp
      .pop).inScope declaration).openJump .jump).2 := fun s =>
    (Edits.actions ((Edit.openJump s .jumpIfFalse).edits.trans
      (edits_appendOp _ .pop))).trans <|
        (actions_inScope hd _).trans (Edit.openJump _ .jump).edits.actions
  have helse : ∀ (s : State) (operand : Nat),
      Edits s ((s.landJump operand).appendOp .pop) := fun s operand =>
    (Edit.landJump s operand).edits.trans (edits_appendOp _ .pop)
  unfold ifForm
  dsimp only
  split
  · exact (he s).actions.trans <| (hthen _).trans <| (helse _ _).actions.trans <|
      (Edit.read _).edits.actions.trans <| (actions_inScope hd _).trans
        (Edit.landJump _ _).edits.actions
  · exact (he s).actions.trans <| (hthen _).trans <| (helse _ _).actions.trans
      (Edit.landJump _ _).edits.actions

theorem actions_whileForm (he : ∀ s, Edits s (expression s))
    (hd : ∀ s, Actions s (declaration s)) (s : State) :
    Actions s (s.whileForm expression declaration) :=
  (Edits.actions ((he s).trans ((Edit.openJump _ .jumpIfFalse).edits.trans
    (edits_appendOp _ .pop)))).trans <|
      (actions_inScope hd _).trans (Edits.actions ((Edit.loopBack _ _).edits.trans
        ((Edit.landJump _ _).edits.trans (edits_appendOp _ .pop))))

theorem actions_loopInitializer (he : ∀ s, Edits s (expression s)) (s : State) :
    Actions s (s.loopInitializer expression) := by
  unfold loopInitializer
  split
  · exact (Edit.read s).edits.actions
  · dsimp only
    refine .trans ?_ (edits_require ..).actions
    split
    · exact (Edit.read s).edits.actions.trans <| (actions_varForm he _).trans
        (Action.checkpoint _).actions
    · exact Edits.actions ((he s).trans (edits_appendOp _ .pop))

theorem edits_loopCondition (he : ∀ s, Edits s (expression s)) (s : State) :
    Edits s (s.loopCondition expression).2 := by
  unfold loopCondition
  split
  · exact (Edit.read s).edits
  · exact (he s).trans <| (edits_require _ .comma _).trans <|
      (Edit.openJump _ .jumpIfFalse).edits.trans (edits_appendOp _ .pop)

theorem edits_loopIncrement (he : ∀ s, Edits s (expression s)) (start : Nat)
    (s : State) : Edits s (s.loopIncrement expression start).2 := by
  unfold loopIncrement
  split
  · exact (Edit.read s).edits
  · split
    · exact .refl
    · exact (Edit.openJump s .jump).edits.trans <| (he _).trans <|
        (edits_appendOp _ .pop).trans <| (Edit.loopBack _ _).edits.trans
          (Edit.landJump _ _).edits

theorem actions_countedLoop (he : ∀ s, Edits s (expression s))
    (hd : ∀ s, Actions s (declaration s)) (s : State) :
    Actions s (s.countedLoop expression declaration) := by
  have hhead := (actions_loopInitializer he s).trans (Edits.actions
    ((edits_loopCondition he _).trans
      (edits_loopIncrement he (s.loopInitializer expression).codeSize _)))
  have hbody : ∀ (s : State) (start : Nat),
      Actions s ((s.inScope declaration).loopBack start) := fun s start =>
    (actions_inScope hd s).trans (Edit.loopBack _ start).edits.actions
  unfold countedLoop
  dsimp only
  split
  · exact hhead.trans <| (hbody _ _).trans <| Edits.actions
      ((Edit.landJump _ _).edits.trans (edits_appendOp _ .pop))
  · exact hhead.trans (hbody _ _)

theorem edits_returnForm (he : ∀ s, Edits s (expression s)) (s : State) :
    Edits s (s.returnForm expression) := by
  unfold returnForm
  dsimp only
  refine .trans ?_ (edits_appendOp ..)
  split
  · exact edits_appendOp _ .nil
  · exact he s

theorem actions_blockForm (hd : ∀ s, Actions s (declarations s)) (s : State) :
    Actions s (s.blockForm declarations) :=
  (hd s).trans (edits_require ..).actions

theorem edits_expressionForm (he : ∀ s, Edits s (expression s)) (s : State) :
    Edits s (s.expressionForm expression) :=
  (he s).trans (edits_appendOp ..)

theorem actions_anyForm (he : ∀ s, Edits s (expression s))
    (hd : ∀ s, Actions s (declaration s)) (hds : ∀ s, Actions s (declarations s))
    (s : State) : Actions s (s.anyForm expression declaration declarations) := by
  unfold anyForm
  have hread := (Edit.read s).edits.actions
  split
  · exact hread.trans (actions_varForm he _)
  · exact hread.trans (actions_fnForm hds _)
  · exact hread.trans (actions_ifForm he hd _)
  · exact hread.trans (actions_whileForm he hd _)
  · exact hread.trans (actions_inScope (actions_countedLoop he hd) _)
  · exact hread.trans (actions_inScope (actions_blockForm hds) _)
  · exact hread.trans (edits_returnForm he _).actions
  · exact (edits_expressionForm he s).actions

end Statements

end State

open State

/-! ## The mutual forms -/

/-- What is proved of all forms at once, for one bound on the depth. -/
structure FormsAct (depth : Nat) : Prop where
  declaration : ∀ s, Actions s (declaration depth s)
  declarations : ∀ s, Actions s (declarations depth s)
  expression : ∀ level s, Edits s (expression depth level s)
  continuations : ∀ level s, Edits s (continuations depth level s)
  arguments : ∀ count s, Edits s (arguments depth count s).2

theorem formsAct_zero : FormsAct 0 where
  declaration _ := (Edit.note _ _).edits.actions
  declarations _ := (Edit.note _ _).edits.actions
  expression _ _ := (Edit.note _ _).edits
  continuations _ _ := (Edit.note _ _).edits
  arguments _ _ := (Edit.note _ _).edits

theorem FormsAct.succ {depth : Nat} (h : FormsAct depth) : FormsAct (depth + 1) where
  declaration s := by
    unfold Compile.declaration
    exact (Edit.tick s).edits.actions.trans <| (Action.checkpoint _).actions.trans <|
      (actions_anyForm (h.expression _) h.declaration h.declarations _).trans <|
        (actions_recover _).trans (Action.checkpoint _).actions
  declarations s := by
    unfold Compile.declarations
    have htick := (Edit.tick s).edits.actions
    split
    · exact htick
    · exact htick.trans <| (h.declaration _).trans (h.declarations _)
  expression level s := by
    unfold Compile.expression
    dsimp only
    refine (Edit.tick s).edits.trans <| (Edit.read _).edits.trans ?_
    split
    · exact edits_complain ..
    · next hopening =>
      exact (edits_openExpression h.expression _ hopening).trans <|
        (h.continuations _ _).trans (edits_refuseAssignment ..)
  continuations level s := by
    unfold Compile.continuations
    have htick := (Edit.tick s).edits
    split
    · exact htick
    · split
      · exact htick.trans <| (Edit.read _).edits.trans <|
          (edits_continueExpression h.expression (h.arguments 0) _ _).trans
            (h.continuations _ _)
      · exact htick
  arguments count s := by
    unfold Compile.arguments
    dsimp only
    refine (Edit.tick s).edits.trans <| (h.expression .assignment _).trans <|
      (edits_countArgument _ count).trans ?_
    split
    · exact (Edit.read _).edits.trans (h.arguments _ _)
    · exact .refl

/-- Every form, whatever it is given, is a chain of actions. -/
theorem formsAct (depth : Nat) : FormsAct depth := by
  induction depth with
  | zero => exact formsAct_zero
  | succ depth ih => exact ih.succ

theorem actions_program (depth limit : Nat) (s : State) :
    Actions s (program depth limit s) := by
  induction limit generalizing s with
  | zero => exact (Edit.note s _).edits.actions
  | succ limit ih =>
    unfold program
    split
    · exact (Edit.read s).edits.actions
    · exact (Edit.tick s).edits.actions.trans
        (((formsAct depth).declaration _).trans (ih _))

/-- A compilation is a chain of actions. -/
theorem actions_compileTokens (firstId : Identity) (tokens : List Token) :
    Actions (initial firstId tokens) (compileTokens firstId tokens) :=
  (Edit.read _).edits.actions.trans (actions_program ..)

end ScriptEngine.Compile
