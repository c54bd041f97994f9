import Mathlib.Order.Nat
import ScriptEngine.Proofs.Compile.ProgramCode
set_option autoImplicit false

/-!
# Compilation: progress

Before the end of the source, a declaration and an expression read at least one
token, whatever state the compiler is in.  At the end an expression only complains.

So a bound on the depth that is large enough for the tokens that are left is as good
as any larger one (`DepthFree`): each form gives its parts fewer tokens, or goes down a
fixed number of levels to forms that do.  The bound is two levels for each token and a
few more.
-/

namespace ScriptEngine.Compile

open State

/-! ## A token is read -/

theorem left_comma_lt {s : State} (h : s.sees .comma) : s.read.left < s.left :=
  left_read_lt fun hend =>
    TokenKind.noConfusion ((beq_iff_eq.mp h).symm.trans (beq_iff_eq.mp hend))

/-- At the end an expression only complains. -/
theorem expression_end {depth : Nat} {level : Precedence} {s : State}
    (hend : s.sees .endOfSource) :
    expression (depth + 1) level s = s.tick.read.complain (.expected .expression) := by
  have hkind : s.tick.read.previous.kind = .endOfSource := beq_iff_eq.mp hend
  unfold expression
  dsimp only
  rw [hkind]
  rfl

/-! ## More depth changes nothing -/

/-- Two passes do the same wherever there are at most `most` tokens left. -/
def AgreeUpTo (most : Nat) (pass pass' : Pass) : Prop :=
  ∀ s : State, s.left ≤ most → pass s = pass' s

section Agreement

variable {most : Nat} {expression expression' declaration declaration' declarations
  declarations' : Pass} {operand operand' : Precedence → Pass}
  {arguments arguments' : State → Nat × State} {s : State}

theorem nameForm_congr (he : AgreeUpTo most expression expression') (hleft : s.left ≤ most)
    (hname : s.previous.kind = .identifier) (mayAssign : Bool) :
    s.nameForm expression mayAssign = s.nameForm expression' mayAssign := by
  have hle : (s.resolve s.previous.lexeme).2.read.left ≤ s.left :=
    Edits.left_le ((edits_resolve hname).trans (Edit.read _).edits)
  unfold nameForm
  dsimp only
  rw [he _ (hle.trans hleft)]

theorem openExpression_congr (ho : ∀ level, AgreeUpTo most (operand level) (operand' level))
    (hleft : s.left ≤ most) (mayAssign : Bool) {opening : Opening}
    (hopening : s.previous.kind.opening? = some opening) :
    s.openExpression operand mayAssign opening = s.openExpression operand' mayAssign opening := by
  cases opening with
  | group => exact congrArg (State.require · _ _) (ho _ s hleft)
  | unary op => exact congrArg (State.appendOp · _) (ho _ s hleft)
  | name => exact nameForm_congr (ho _) hleft (kind_of_opening_name hopening) mayAssign
  | string | number | literal => rfl

theorem continueExpression_congr
    (ho : ∀ level, AgreeUpTo most (operand level) (operand' level))
    (ha : ∀ s : State, s.left ≤ most → arguments s = arguments' s) (hleft : s.left ≤ most)
    (c : Continuation) :
    s.continueExpression operand arguments c = s.continueExpression operand' arguments' c := by
  cases c with
  | call =>
    show s.callForm arguments = s.callForm arguments'
    unfold callForm
    rw [ha s hleft]
  | binary op => exact congrArg (op.code.foldl appendOp) (ho _ s hleft)
  | and =>
    have hle : ((s.openJump .jumpIfFalse).2.appendOp .pop).left ≤ s.left :=
      Edits.left_le ((Edit.openJump s _).edits.trans (edits_appendOp ..))
    exact congrArg (State.landJump · _) (ho .and _ (hle.trans hleft))
  | or =>
    have hle : ∀ x, ((((s.openJump .jumpIfFalse).2.openJump .jump).2.landJump x).appendOp
        .pop).left ≤ s.left := fun x =>
      Edits.left_le ((Edit.openJump s _).edits.trans <| (Edit.openJump _ .jump).edits.trans <|
        (Edit.landJump _ x).edits.trans (edits_appendOp ..))
    exact congrArg (State.landJump · _) (ho .or _ ((hle _).trans hleft))

theorem varForm_congr (he : AgreeUpTo most expression expression') (hleft : s.left ≤ most) :
    s.varForm expression = s.varForm expression' := by
  have hle : (s.declareName .variableName).2.read.left ≤ s.left :=
    Actions.left_le ((actions_declareName ..).trans (Edit.read _).edits.actions)
  unfold varForm
  dsimp only
  rw [he _ (hle.trans hleft)]

theorem functionForm_congr (hds : AgreeUpTo most declarations declarations')
    (hleft : s.left ≤ most) : s.functionForm declarations = s.functionForm declarations' := by
  have hle : ((s.enterFunction s.previous.lexeme).openScope.parameterList.require .leftBrace
      .openingOfBody).checkpoint.left ≤ s.left :=
    Actions.left_le <| (Action.enter s _).actions.trans <| (actions_openScope _).trans <|
      (actions_parameterList _).trans <| (edits_require ..).actions.trans
        (Action.checkpoint _).actions
  unfold functionForm blockForm
  dsimp only
  rw [hds _ (hle.trans hleft)]

theorem fnForm_congr (hds : AgreeUpTo most declarations declarations') (hleft : s.left ≤ most) :
    s.fnForm declarations = s.fnForm declarations' := by
  have hle : (s.declareName .functionName).2.makeReadable.left ≤ s.left :=
    Actions.left_le ((actions_declareName ..).trans (actions_makeReadable _))
  exact congrArg (State.bindName · _) (functionForm_congr hds (hle.trans hleft))

theorem inScope_congr (hd : AgreeUpTo most declaration declaration') (hleft : s.left ≤ most) :
    s.inScope declaration = s.inScope declaration' :=
  congrArg State.closeScope (hd _ hleft)

theorem ifForm_congr (he : AgreeUpTo most expression expression')
    (hedits : ∀ s, Edits s (expression' s)) (hd : AgreeUpTo most declaration declaration')
    (hacts : ∀ s, Actions s (declaration' s)) (hleft : s.left ≤ most) :
    s.ifForm expression declaration = s.ifForm expression' declaration' := by
  have hthen : Actions s (((expression' s).openJump .jumpIfFalse).2.appendOp .pop) :=
    Edits.actions ((hedits s).trans ((Edit.openJump _ _).edits.trans (edits_appendOp ..)))
  have helse : ∀ x, Actions s ((((((((expression' s).openJump .jumpIfFalse).2.appendOp
      .pop).inScope declaration').openJump .jump).2.landJump x).appendOp .pop).read) := fun x =>
    hthen.trans <| (actions_inScope hacts _).trans <| Edits.actions <|
      (Edit.openJump _ .jump).edits.trans <| (Edit.landJump _ x).edits.trans <|
        (edits_appendOp ..).trans (Edit.read _).edits
  unfold ifForm
  rw [he s hleft]
  dsimp only
  rw [inScope_congr hd (hthen.left_le.trans hleft),
    inScope_congr hd ((helse _).left_le.trans hleft)]

theorem whileForm_congr (he : AgreeUpTo most expression expression')
    (hedits : ∀ s, Edits s (expression' s)) (hd : AgreeUpTo most declaration declaration')
    (hleft : s.left ≤ most) :
    s.whileForm expression declaration = s.whileForm expression' declaration' := by
  have hbody : Edits s (((expression' s).openJump .jumpIfFalse).2.appendOp .pop) :=
    (hedits s).trans ((Edit.openJump _ _).edits.trans (edits_appendOp ..))
  unfold whileForm
  rw [he s hleft]
  dsimp only
  rw [inScope_congr hd (hbody.left_le.trans hleft)]

theorem countedLoop_congr (he : AgreeUpTo most expression expression')
    (hedits : ∀ s, Edits s (expression' s)) (hd : AgreeUpTo most declaration declaration')
    (hleft : s.left ≤ most) :
    s.countedLoop expression declaration = s.countedLoop expression' declaration' := by
  have hinit : s.loopInitializer expression = s.loopInitializer expression' := by
    unfold loopInitializer expressionForm
    rw [he s hleft, varForm_congr he ((Edit.read s).edits.left_le.trans hleft)]
  have hinit_le := (actions_loopInitializer hedits s).left_le.trans hleft
  have hcondition : (s.loopInitializer expression').loopCondition expression =
      (s.loopInitializer expression').loopCondition expression' := by
    unfold loopCondition
    rw [he _ hinit_le]
  have hcondition_le := (edits_loopCondition hedits _).left_le.trans hinit_le
  have hincrement : ∀ start,
      ((s.loopInitializer expression').loopCondition expression').2.loopIncrement expression start =
        ((s.loopInitializer expression').loopCondition expression').2.loopIncrement expression'
          start := by
    intro start
    unfold loopIncrement
    dsimp only
    rw [he _ ((Edit.openJump _ .jump).edits.left_le.trans hcondition_le)]
  have hincrement_le := fun start =>
    (edits_loopIncrement hedits start _).left_le.trans hcondition_le
  unfold countedLoop
  rw [hinit]
  dsimp only
  rw [hcondition, hincrement, inScope_congr hd (hincrement_le _)]

theorem returnForm_congr (he : AgreeUpTo most expression expression') (hleft : s.left ≤ most) :
    s.returnForm expression = s.returnForm expression' := by
  unfold returnForm
  rw [he s hleft]

/-- A declaration that starts with a keyword has fewer tokens for its parts. -/
theorem anyForm_congr (he : AgreeUpTo most expression expression')
    (hedits : ∀ s, Edits s (expression' s))
    (hd : ∀ fewer < most, AgreeUpTo fewer declaration declaration')
    (hacts : ∀ s, Actions s (declaration' s))
    (hds : ∀ fewer < most, AgreeUpTo fewer declarations declarations') (hleft : s.left ≤ most) :
    s.anyForm expression declaration declarations =
      s.anyForm expression' declaration' declarations' := by
  have hread : ∀ k : TokenKind, k ≠ .endOfSource → s.current.kind = k → s.read.left < most := by
    rintro k hne rfl
    exact Nat.lt_of_lt_of_le (left_read_lt fun h => hne (beq_iff_eq.mp h)) hleft
  have he' : s.read.left < most → AgreeUpTo s.read.left expression expression' :=
    fun hlt t ht => he t (ht.trans hlt.le)
  unfold anyForm
  split
  · next h =>
    have hlt := hread _ (by decide) h
    exact varForm_congr (he' hlt) (Nat.le_refl _)
  · next h =>
    have hlt := hread _ (by decide) h
    exact fnForm_congr (hds _ hlt) (Nat.le_refl _)
  · next h =>
    have hlt := hread _ (by decide) h
    exact ifForm_congr (he' hlt) hedits (hd _ hlt) hacts (Nat.le_refl _)
  · next h =>
    have hlt := hread _ (by decide) h
    exact whileForm_congr (he' hlt) hedits (hd _ hlt) (Nat.le_refl _)
  · next h =>
    have hlt := hread _ (by decide) h
    exact inScope_congr (fun t ht => countedLoop_congr (he' hlt) hedits (hd _ hlt) ht)
      (Nat.le_refl _)
  · next h =>
    have hlt := hread _ (by decide) h
    exact inScope_congr (fun t ht => congrArg (State.require · _ _) (hds _ hlt t ht))
      (Nat.le_refl _)
  · next h =>
    have hlt := hread _ (by decide) h
    exact returnForm_congr (he' hlt) (Nat.le_refl _)
  · exact congrArg (State.appendOp · _) (he s hleft)

end Agreement

/-! ### The mutual forms -/

/-- Two bounds on the depth are as good as each other for as many tokens as both are
enough for. -/
structure DepthFree (depth depth' : Nat) : Prop where
  declaration : ∀ most, 2 * most + 2 ≤ depth → 2 * most + 2 ≤ depth' →
    AgreeUpTo most (declaration depth) (declaration depth')
  declarations : ∀ most, 2 * most + 3 ≤ depth → 2 * most + 3 ≤ depth' →
    AgreeUpTo most (declarations depth) (declarations depth')
  expression : ∀ most level, 2 * most + 1 ≤ depth → 2 * most + 1 ≤ depth' →
    AgreeUpTo most (expression depth level) (expression depth' level)
  continuations : ∀ most level, 2 * most + 1 ≤ depth → 2 * most + 1 ≤ depth' →
    AgreeUpTo most (continuations depth level) (continuations depth' level)
  arguments : ∀ most count, 2 * most + 2 ≤ depth → 2 * most + 2 ≤ depth' →
    ∀ s : State, s.left ≤ most → arguments depth count s = arguments depth' count s

section Forms

variable {depth depth' most : Nat}

theorem agree_declaration (h : DepthFree depth depth') (hdepth : 2 * most + 2 ≤ depth + 1)
    (hdepth' : 2 * most + 2 ≤ depth' + 1) :
    AgreeUpTo most (declaration (depth + 1)) (declaration (depth' + 1)) := by
  intro s hleft
  have hacts := formsAct depth'
  have hform := anyForm_congr (s := s.tick.checkpoint)
    (h.expression most .assignment (by omega) (by omega)) (hacts.expression _)
    (fun fewer _ => h.declaration fewer (by omega) (by omega)) hacts.declaration
    (fun fewer _ => h.declarations fewer (by omega) (by omega)) hleft
  unfold declaration
  rw [hform]

theorem agree_declarations (h : DepthFree depth depth') (hdepth : 2 * most + 3 ≤ depth + 1)
    (hdepth' : 2 * most + 3 ≤ depth' + 1) :
    AgreeUpTo most (declarations (depth + 1)) (declarations (depth' + 1)) := by
  intro s hleft
  unfold declarations
  split
  · rfl
  · next hstop =>
    have hne : ¬ s.tick.sees .endOfSource := fun hend => hstop (Bool.or_eq_true_iff.mpr (.inr hend))
    obtain ⟨d, rfl⟩ := Nat.exists_eq_add_of_le' (show 2 ≤ depth by omega)
    have hlt : (declaration (d + 2) s.tick).left < s.left := left_declaration_lt hne
    rw [← h.declaration most (by omega) (by omega) s.tick hleft]
    exact h.declarations _ (by omega) (by omega) _ (Nat.le_refl _)

theorem agree_expression (h : DepthFree depth depth') (level : Precedence)
    (hdepth : 2 * most + 1 ≤ depth + 1) (hdepth' : 2 * most + 1 ≤ depth' + 1) :
    AgreeUpTo most (expression (depth + 1) level) (expression (depth' + 1) level) := by
  intro s hleft
  by_cases hend : s.sees .endOfSource
  · rw [expression_end hend, expression_end hend]
  · have hlt : s.tick.read.left < s.left := left_read_lt (s := s.tick) hend
    have hacts := formsAct depth'
    unfold expression
    dsimp only
    split
    · rfl
    · next opening hopening =>
      have hopen := (edits_openExpression hacts.expression (decide (level ≤ .assignment))
        hopening).left_le
      rw [openExpression_congr (fun level => h.expression _ level (by omega) (by omega))
        (Nat.le_refl _) _ hopening, h.continuations _ level (by omega) (by omega) _ hopen]

theorem agree_continuations (h : DepthFree depth depth') (level : Precedence)
    (hdepth : 2 * most + 1 ≤ depth + 1) (hdepth' : 2 * most + 1 ≤ depth' + 1) :
    AgreeUpTo most (continuations (depth + 1) level) (continuations (depth' + 1) level) := by
  intro s hleft
  unfold continuations
  split
  · rfl
  · next c hc =>
    have hne : ¬ s.sees .endOfSource := by
      intro hend
      rw [beq_iff_eq.mp hend] at hc
      cases hc
    have hlt : s.tick.read.left < s.left := left_read_lt (s := s.tick) hne
    have hacts := formsAct depth'
    split
    · have hgo := (edits_continueExpression hacts.expression (hacts.arguments 0) c
        s.tick.read).left_le
      rw [continueExpression_congr (fun level => h.expression _ level (by omega) (by omega))
        (h.arguments _ 0 (by omega) (by omega)) (Nat.le_refl _),
        h.continuations _ level (by omega) (by omega) _ hgo]
    · rfl

theorem agree_arguments (h : DepthFree depth depth') (count : Nat)
    (hdepth : 2 * most + 2 ≤ depth + 1) (hdepth' : 2 * most + 2 ≤ depth' + 1) (s : State)
    (hleft : s.left ≤ most) : arguments (depth + 1) count s = arguments (depth' + 1) count s := by
  have hacts := formsAct depth'
  have hcount : Edits s ((expression depth' .assignment s.tick).countArgument count).2 :=
    (Edit.tick s).edits.trans ((hacts.expression _ _).trans (edits_countArgument ..))
  unfold arguments
  rw [h.expression most .assignment (by omega) (by omega) s.tick hleft]
  dsimp only
  split
  · next hsees =>
    have hlt := left_comma_lt hsees
    have hle := hcount.left_le
    exact h.arguments _ _ (by omega) (by omega) _ (Nat.le_refl _)
  · rfl

end Forms

/-- A bound on the depth that is enough may be made larger. -/
theorem depthFree (depth depth' : Nat) : DepthFree depth depth' := by
  induction depth generalizing depth' with
  | zero => constructor <;> intros <;> omega
  | succ depth ih =>
    cases depth' with
    | zero => constructor <;> intros <;> omega
    | succ depth' =>
      have h := ih depth'
      exact ⟨fun _ => agree_declaration h, fun _ => agree_declarations h,
        fun _ level => agree_expression h level, fun _ level => agree_continuations h level,
        fun _ count => agree_arguments h count⟩

/-- So may the bound on how many parameters there are. -/
theorem parameters_limitFree {limit limit' : Nat} {s : State} (h : s.left < limit)
    (h' : s.left < limit') : s.parameters limit = s.parameters limit' := by
  induction limit generalizing limit' s with
  | zero => omega
  | succ limit ih =>
    obtain ⟨limit', rfl⟩ := Nat.exists_eq_add_of_le' (Nat.one_le_of_lt h')
    have hle := (actions_parameter s).left_le
    unfold parameters
    dsimp only
    split
    · next hsees =>
      have hlt := left_comma_lt hsees
      exact ih (by omega) (by omega)
    · rfl

/-- So may the bound on how many tokens are skipped. -/
theorem skipToDeclaration_limitFree {limit limit' : Nat} {s : State} (h : s.left < limit)
    (h' : s.left < limit') : s.skipToDeclaration limit = s.skipToDeclaration limit' := by
  induction limit generalizing limit' s with
  | zero => omega
  | succ limit ih =>
    obtain ⟨limit', rfl⟩ := Nat.exists_eq_add_of_le' (Nat.one_le_of_lt h')
    unfold skipToDeclaration
    split
    · rfl
    · next hstop =>
      have hlt := left_read_lt (s := s) fun hend => hstop (Bool.or_eq_true_iff.mpr (.inl hend))
      exact ih (by omega) (by omega)

/-- So may the bounds on a whole program. -/
theorem program_depthFree {depth depth' limit limit' : Nat} {s : State}
    (hdepth : 2 * s.left + 2 ≤ depth) (hdepth' : 2 * s.left + 2 ≤ depth')
    (hlimit : s.left < limit) (hlimit' : s.left < limit') :
    program depth limit s = program depth' limit' s := by
  induction limit generalizing limit' s with
  | zero => omega
  | succ limit ih =>
    obtain ⟨limit', rfl⟩ := Nat.exists_eq_add_of_le' (Nat.one_le_of_lt hlimit')
    unfold program
    split
    · rfl
    · next hne =>
      obtain ⟨d, rfl⟩ := Nat.exists_eq_add_of_le' (show 2 ≤ depth by omega)
      have hlt : (declaration (d + 2) s.tick).left < s.left := left_declaration_lt (s := s.tick) hne
      rw [← (depthFree (d + 2) depth').declaration _ hdepth hdepth' s.tick (Nat.le_refl _)]
      exact ih (by omega) (by omega) (by omega) (by omega)

end ScriptEngine.Compile
