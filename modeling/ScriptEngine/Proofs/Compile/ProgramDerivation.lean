import ScriptEngine.Proofs.Compile.ExpressionDerivation
set_option autoImplicit false

/-!
# Compilation: accepted programs are in the grammar

Each form of declaration reads a word of the grammar if its parts do, and the mutual
recursion ties the forms together (`declarationsDerive`).  A source that compiles
holds no invalid token, since one would have been reported when it was reached, and
its kinds are a program (`derives_compileTokens`).
-/

namespace ScriptEngine.Compile

open State

variable {greedy : Bool} {left : Nat}

namespace State

section Forms

variable {expression declaration declarations : Pass}

/-! ## What reads nothing -/

theorem ahead_inScope (inside : Pass) (s : State) :
    (s.inScope inside).ahead = (inside s.openScope).ahead :=
  ahead_of_upcoming (upcoming_closeScope ..)

theorem ahead_openScope (s : State) : s.openScope.ahead = s.ahead :=
  ahead_of_upcoming (upcoming_openScope s)

theorem ahead_branch (s : State) : s.branch.ahead = s.ahead :=
  ahead_of_upcoming ((upcoming_appendOp ..).trans (upcoming_openJump ..))

/-- A scope of its own reads nothing. -/
theorem derives_inScope {pass : Pass} {part : GrammarPart} (h : PassDerives greedy left pass part) :
    PassDerives greedy left (inScope pass) part where
  actions := actions_inScope h.actions
  derives s hs hq hleft := by
    have hq₁ := (actions_closeScope _).isQuiet hq
    have hopen := (actions_openScope s).inOrder hs hs.quiet
    rw [ahead_inScope, ← ahead_openScope]
    exact h.derives s.openScope hopen hq₁ hleft

/-! ## Variables -/

theorem edits_initializer (he : ∀ s, Edits s (expression s)) (s : State) :
    Edits s (initializer expression s) := by
  unfold initializer
  split
  · exact (Edit.read s).edits.trans (he _)
  · exact edits_appendOp s .nil

theorem derives_initializer (he : PassReads greedy left expression .assignment) {s : State}
    (hs : s.InOrder) (hq : (initializer expression s).IsQuiet) (hleft : s.left ≤ left) :
    Derives greedy .initializer s.ahead (initializer expression s).ahead := by
  unfold initializer at hq ⊢
  split at hq
  · next hequal =>
    rw [if_pos hequal]
    have hq₁ := (he.edits _).isQuiet hq
    rw [hs.ahead_read hq₁ (by rw [sees_iff.mp hequal]; nofun), sees_iff.mp hequal]
    exact .initializer (he.expr.derives _ (hs.read hq₁) hq
      (Nat.le_trans (Edit.read s).edits.left_le hleft))
  · next hequal =>
    rw [if_neg hequal]
    exact .noInitializer

/-- A name that is declared is the first token. -/
theorem ahead_declareName {s : State} (hs : s.InOrder) {what : Expected}
    (hq : (s.declareName what).2.IsQuiet) :
    s.ahead = .identifier :: (s.declareName what).2.ahead := by
  have hq₁ := (actions_declareLocal _).isQuiet (isQuiet_of_declareName hq)
  rw [ahead_of_upcoming (upcoming_declareName ..)]
  exact hs.ahead_require hq₁ nofun

theorem derives_varForm (he : PassReads greedy left expression .assignment) {s : State}
    (hs : s.InOrder) (hq : (s.varForm expression).IsQuiet) (hleft : s.left ≤ left) :
    ∃ a, s.ahead = .identifier :: a ∧
      Derives greedy .initializer a (s.varForm expression).ahead := by
  have hdeclare := actions_declareName s .variableName
  have hform : s.varForm expression = (initializer expression
      (s.declareName .variableName).2).bindName (s.declareName .variableName).1 := rfl
  rw [hform] at hq ⊢
  rw [ahead_of_upcoming (upcoming_bindName ..)]
  have hq₂ := (actions_bindName _ _).isQuiet hq
  have hq₁ := (edits_initializer he.edits _).isQuiet hq₂
  exact ⟨_, ahead_declareName hs hq₁, derives_initializer he (hdeclare.inOrder hs hq₁) hq₂
    (Nat.le_trans hdeclare.left_le hleft)⟩

/-! ## Functions -/

theorem ahead_parameter {s : State} (hs : s.InOrder) (hq : s.parameter.IsQuiet) :
    s.ahead = .identifier :: s.parameter.ahead := by
  unfold parameter at hq ⊢
  dsimp only at hq ⊢
  rw [ahead_of_upcoming (upcoming_bindName ..)]
  have hq₁ := (actions_bindName _ _).isQuiet hq
  have hs₀ := inOrder_tick hs
  split at hq₁
  · have hq₀ := (actions_declareName _ _).isQuiet hq₁
    exact absurd hq₀ (not_isQuiet_complainNext hs₀.toSane _)
  · next hroom =>
    rw [if_neg hroom]
    have harity := (Action.setArity s.tick (s.tick.builder.arity + 1)).actions
    exact ahead_declareName (harity.inOrder hs₀ hs₀.quiet) hq₁

theorem derives_parameters (greedy : Bool) (limit : Nat) {s : State} (hs : s.InOrder)
    (hq : (s.parameters limit).IsQuiet) (hlimit : s.left < limit) :
    ∃ a, s.ahead = .identifier :: a ∧
      Derives greedy .moreParameters a (s.parameters limit).ahead := by
  induction limit generalizing s with
  | zero => exact absurd hlimit (Nat.not_lt_zero _)
  | succ limit ih =>
    unfold parameters at hq ⊢
    dsimp only at hq ⊢
    split at hq
    · next hcomma =>
      rw [if_pos hcomma]
      have hq₂ := (actions_parameters limit _).isQuiet hq
      have hq₁ := (Edit.read _).isQuiet hq₂
      have hs₁ := (actions_parameter s).inOrder hs hq₁
      have hkind := sees_iff.mp hcomma
      have hend := ne_of_eq_of_ne hkind (show TokenKind.comma ≠ .endOfSource by decide)
      have hlt := left_read_lt (mt sees_iff.mp hend)
      have hle := (actions_parameter s).left_le
      obtain ⟨a, ha, hmore⟩ := ih (hs₁.read hq₂) hq (by omega)
      refine ⟨_, ahead_parameter hs hq₁, ?_⟩
      rw [hs₁.ahead_read hq₂ hend, hkind, ha]
      exact .moreParameters hmore
    · next hcomma =>
      rw [if_neg hcomma]
      exact ⟨_, ahead_parameter hs hq, .lastParameter⟩

theorem derives_parameterList (greedy : Bool) {s : State} (hs : s.InOrder)
    (hq : s.parameterList.IsQuiet) :
    ∃ a, s.ahead = .leftParen :: a ∧
      Derives greedy .parameters a (.rightParen :: s.parameterList.ahead) := by
  have hopen := edits_require s .leftParen .openingOfParameters
  unfold parameterList at hq ⊢
  dsimp only at hq ⊢
  split at hq
  · next hempty =>
    rw [if_pos hempty]
    have hq₁ := (edits_require ..).isQuiet hq
    refine ⟨_, hs.ahead_require hq₁ nofun, ?_⟩
    rw [(hopen.inOrder hs hq₁).ahead_require hq nofun]
    exact .noParameter
  · next hempty =>
    rw [if_neg hempty]
    have hq₂ := (edits_require ..).isQuiet hq
    have hq₁ := (actions_parameters _ _).isQuiet hq₂
    have hs₁ := hopen.inOrder hs hq₁
    have hs₂ := (actions_parameters _ _).inOrder hs₁ hq₂
    obtain ⟨a, ha, hmore⟩ := derives_parameters greedy _ hs₁ hq₂ (by
      unfold left
      split <;> omega)
    refine ⟨_, hs.ahead_require hq₁ nofun, ?_⟩
    rw [hs₂.ahead_require hq nofun] at hmore
    rw [ha]
    exact .parameters hmore

theorem ahead_closureCode (s : State) (f : Function Value) (captures : List Capture) :
    (s.closureCode f captures).ahead = s.ahead :=
  ahead_of_upcoming <| (upcoming_appendCaptures ..).trans <|
    (upcoming_appendWith ..).trans (upcoming_poolConstant ..)

theorem derives_blockForm (hd : PassDerives greedy left declarations .declarations) {s : State}
    (hs : s.InOrder) (hq : (s.blockForm declarations).IsQuiet) (hleft : s.left ≤ left) :
    Derives greedy .declarations s.ahead (.rightBrace :: (s.blockForm declarations).ahead) := by
  have hq₁ := (edits_require ..).isQuiet hq
  have hs₁ := (hd.actions s).inOrder hs hq₁
  have hall := hd.derives s hs hq₁ hleft
  rwa [hs₁.ahead_require hq nofun] at hall

theorem derives_prologue (greedy : Bool) {s : State} (hs : s.InOrder) (hq : s.prologue.IsQuiet) :
    ∃ a, s.ahead = .leftParen :: a ∧
      Derives greedy .parameters a (.rightParen :: .leftBrace :: s.prologue.ahead) := by
  have hstart : Actions s (s.enterFunction s.previous.lexeme).openScope :=
    (Action.enter s s.previous.lexeme).actions.trans (actions_openScope _)
  have hq₁ := (edits_require ..).isQuiet hq
  have hs₀ := hstart.inOrder hs hs.quiet
  have hs₁ := (actions_parameterList _).inOrder hs₀ hq₁
  obtain ⟨a, ha, hparameters⟩ := derives_parameterList greedy hs₀ hq₁
  rw [hs₁.ahead_require hq nofun] at hparameters
  exact ⟨a, ha, hparameters⟩

theorem derives_body (hd : PassDerives greedy left declarations .declarations) {s : State}
    (hs : s.InOrder) (hq : (s.body declarations).IsQuiet) (hleft : s.left ≤ left) :
    Derives greedy .declarations s.ahead (.rightBrace :: (s.body declarations).ahead) := by
  have hmark := (Action.checkpoint s).actions.inOrder hs hs.quiet
  have hq₁ := (edits_returnNil _).isQuiet hq
  have hblock := derives_blockForm hd hmark hq₁ hleft
  rwa [← ahead_of_upcoming (upcoming_returnNil (s.checkpoint.blockForm declarations))] at hblock

theorem derives_functionForm (hd : PassDerives greedy left declarations .declarations)
    {s : State} (hs : s.InOrder) (hq : (s.functionForm declarations).IsQuiet)
    (hleft : s.left ≤ left) :
    ∃ a b, s.ahead = .leftParen :: a ∧
      Derives greedy .parameters a (.rightParen :: .leftBrace :: b) ∧
      Derives greedy .declarations b
        (.rightBrace :: (s.functionForm declarations).ahead) := by
  have hp := actions_prologue s
  have hparameters := derives_prologue greedy hs
  rw [functionForm_eq] at hq ⊢
  generalize s.prologue = t at hp hparameters hq ⊢
  have hb := actions_body hd.actions t
  have hbody := fun ht hq hleft => derives_body hd (s := t) ht hq hleft
  generalize t.body declarations = u at hb hbody hq ⊢
  have hq₂ : u.IsQuiet := (Action.leave u).isQuiet (isQuiet_of_closureCode hq)
  have hq₁ := hb.isQuiet hq₂
  obtain ⟨a, ha, hparameters⟩ := hparameters hq₁
  rw [ahead_closureCode]
  exact ⟨a, _, ha, hparameters, hbody (hp.inOrder hs hq₁) hq₂ (Nat.le_trans hp.left_le hleft)⟩

theorem derives_fnForm (hd : PassDerives greedy left declarations .declarations) {s : State}
    (hs : s.InOrder) (hq : (s.fnForm declarations).IsQuiet) (hleft : s.left ≤ left) :
    Derives greedy .declaration (.fnWord :: s.ahead) (s.fnForm declarations).ahead := by
  have hform : s.fnForm declarations =
      ((s.declareName .functionName).2.makeReadable.functionForm declarations).bindName
        (s.declareName .functionName).1 := rfl
  have hdeclare := actions_declareName s .functionName
  rw [hform] at hq ⊢
  rw [ahead_of_upcoming (upcoming_bindName ..)]
  have hq₂ := (actions_bindName _ _).isQuiet hq
  have hq₁ := (actions_functionForm hd.actions _).isQuiet hq₂
  have hq₀ := (actions_makeReadable _).isQuiet hq₁
  have hs₁ := (actions_makeReadable _).inOrder (hdeclare.inOrder hs hq₀) hq₁
  obtain ⟨a, b, ha, hparameters, hbody⟩ := derives_functionForm hd hs₁ hq₂
    (Nat.le_trans (Actions.left_le (hdeclare.trans (actions_makeReadable _))) hleft)
  rw [ahead_of_upcoming (upcoming_makeReadable _)] at ha
  rw [ahead_declareName hs hq₀, ha]
  exact .fn hparameters hbody

/-! ## Branches and loops -/

theorem derives_alternative (hd : PassDerives greedy left declaration .declaration) {s : State}
    (hs : s.InOrder) (hq : (s.alternative declaration).IsQuiet) (hleft : s.left ≤ left) :
    Derives greedy .alternative s.ahead (s.alternative declaration).ahead := by
  unfold alternative at hq ⊢
  split at hq
  · next helse =>
    rw [if_pos helse]
    have hq₁ := (actions_inScope hd.actions _).isQuiet hq
    rw [hs.ahead_read hq₁ (by rw [sees_iff.mp helse]; nofun), sees_iff.mp helse]
    exact .alternative ((derives_inScope hd).derives _ (hs.read hq₁) hq
      (Nat.le_trans (Edit.read s).edits.left_le hleft))
  · next helse =>
    rw [if_neg helse]
    refine .noAlternative fun _ hword => helse (sees_iff.mpr ?_)
    exact Option.some.inj hword

theorem derives_ifForm (he : PassReads greedy left expression .assignment)
    (hd : PassDerives greedy left declaration .declaration) {s : State} (hs : s.InOrder)
    (hq : (s.ifForm expression declaration).IsQuiet) (hleft : s.left ≤ left) :
    Derives greedy .declaration (.ifWord :: s.ahead) (s.ifForm expression declaration).ahead := by
  have hform : s.ifForm expression declaration =
      ((((((expression s).branch.inScope declaration).openJump .jump).2.landJump
        ((expression s).openJump .jumpIfFalse).1).appendOp .pop).alternative
          declaration).landJump (((expression s).branch.inScope declaration).openJump .jump).1 :=
    rfl
  rw [hform] at hq ⊢
  have hbody := derives_inScope hd
  have hhead : Edits s (expression s).branch := (he.edits s).trans (edits_branch _)
  have hpop : Edits ((expression s).branch.inScope declaration) _ :=
    ((Edit.openJump ((expression s).branch.inScope declaration) .jump).edits.trans
      (Edit.landJump _ ((expression s).openJump .jumpIfFalse).1).edits).trans
        (edits_appendOp _ .pop)
  have hq₃ := (actions_alternative hd.actions _).isQuiet ((Edit.landJump _ _).isQuiet hq)
  have hq₂ := hpop.isQuiet hq₃
  have hq₁ := (hbody.actions _).isQuiet hq₂
  have hs₁ := hhead.inOrder hs hq₁
  have hs₂ := (hbody.actions _).inOrder hs₁ hq₂
  have hleft₁ := Nat.le_trans hhead.left_le hleft
  have hleft₂ := Nat.le_trans (hbody.actions _).left_le hleft₁
  rw [ahead_of_upcoming (upcoming_landJump ..)]
  have hcondition := he.expr.derives s hs ((edits_branch _).isQuiet hq₁) hleft
  have hthen := hbody.derives _ hs₁ hq₂ hleft₁
  have helse := derives_alternative hd (hpop.inOrder hs₂ hq₃) ((Edit.landJump _ _).isQuiet hq)
    (Nat.le_trans hpop.left_le hleft₂)
  rw [ahead_branch] at hthen
  rw [ahead_of_upcoming (upcoming_appendOp ..), ahead_of_upcoming (upcoming_landJump ..),
    ahead_of_upcoming (upcoming_openJump ..)] at helse
  exact .branch hcondition hthen helse

theorem derives_whileForm (he : PassReads greedy left expression .assignment)
    (hd : PassDerives greedy left declaration .declaration) {s : State} (hs : s.InOrder)
    (hq : (s.whileForm expression declaration).IsQuiet) (hleft : s.left ≤ left) :
    Derives greedy .declaration (.whileWord :: s.ahead)
      (s.whileForm expression declaration).ahead := by
  have hform : s.whileForm expression declaration =
      ((((expression s).branch.inScope declaration).loopBack s.codeSize).landJump
        ((expression s).openJump .jumpIfFalse).1).appendOp .pop := rfl
  rw [hform] at hq ⊢
  have hbody := derives_inScope hd
  have hhead : Edits s (expression s).branch := (he.edits s).trans (edits_branch _)
  have hq₂ := (Edit.loopBack _ _).isQuiet ((Edit.landJump _ _).isQuiet
    ((edits_appendOp ..).isQuiet hq))
  have hq₁ := (hbody.actions _).isQuiet hq₂
  rw [ahead_of_upcoming (upcoming_appendOp ..), ahead_of_upcoming (upcoming_landJump ..),
    ahead_of_upcoming (upcoming_loopBack ..)]
  have hround := hbody.derives _ (hhead.inOrder hs hq₁) hq₂ (Nat.le_trans hhead.left_le hleft)
  rw [ahead_branch] at hround
  exact .while (he.expr.derives s hs ((edits_branch _).isQuiet hq₁) hleft) hround

theorem derives_loopInitializer (he : PassReads greedy left expression .assignment) {s : State}
    (hs : s.InOrder) (hq : (s.loopInitializer expression).IsQuiet) (hleft : s.left ≤ left) :
    Derives greedy .loopStart s.ahead (s.loopInitializer expression).ahead := by
  unfold loopInitializer at hq ⊢
  split at hq
  · next hcomma =>
    rw [if_pos hcomma, hs.ahead_read hq (by rw [sees_iff.mp hcomma]; nofun), sees_iff.mp hcomma]
    exact .noLoopStart
  · next hcomma =>
    rw [if_neg hcomma]
    dsimp only at hq ⊢
    have hq₁ := (edits_require ..).isQuiet hq
    split at hq
    · next hvar =>
      rw [if_pos hvar] at hq₁ ⊢
      have hmark := Action.checkpoint (s.read.varForm expression)
      have hq₂ := hmark.isQuiet hq₁
      have hq₃ := (actions_varForm he.edits _).isQuiet hq₂
      have hs₃ := hs.read hq₃
      have hs₁ := hmark.actions.inOrder ((actions_varForm he.edits _).inOrder hs₃ hq₂) hq₁
      obtain ⟨a, ha, hinit⟩ := derives_varForm he hs₃ hq₂
        (Nat.le_trans (Edit.read s).edits.left_le hleft)
      have hcomma := hs₁.ahead_require hq nofun
      rw [hs.ahead_read hq₃ (by rw [sees_iff.mp hvar]; nofun), sees_iff.mp hvar, ha]
      rw [ahead_of_upcoming (upcoming_checkpoint _)] at hcomma
      exact .loopVariable (hcomma ▸ hinit)
    · next hvar =>
      rw [if_neg hvar] at hq₁ ⊢
      have hs₁ := (edits_expressionForm he.edits s).inOrder hs hq₁
      have hvalue := he.expr.derives s hs ((edits_appendOp ..).isQuiet hq₁) hleft
      have hcomma := hs₁.ahead_require hq nofun
      rw [show (s.expressionForm expression).ahead = (expression s).ahead from
        ahead_of_upcoming (upcoming_appendOp ..)] at hcomma
      exact .loopStart (hcomma ▸ hvalue)

theorem derives_loopCondition (he : PassReads greedy left expression .assignment) {s : State}
    (hs : s.InOrder) (hq : (s.loopCondition expression).2.IsQuiet) (hleft : s.left ≤ left) :
    Derives greedy .loopCondition s.ahead (s.loopCondition expression).2.ahead := by
  unfold loopCondition at hq ⊢
  split at hq
  · next hcomma =>
    rw [if_pos hcomma, hs.ahead_read hq (by rw [sees_iff.mp hcomma]; nofun), sees_iff.mp hcomma]
    exact .noLoopCondition
  · next hcomma =>
    rw [if_neg hcomma]
    have hq₁ : ((expression s).require .comma .commaAfterCondition).IsQuiet :=
      (edits_branch _).isQuiet hq
    have hq₀ := (edits_require ..).isQuiet hq₁
    have hcomma := ((he.edits s).inOrder hs hq₀).ahead_require hq₁ nofun
    have hvalue := he.expr.derives s hs hq₀ hleft
    rw [hcomma] at hvalue
    rw [show ((((expression s).require .comma .commaAfterCondition).openJump
      .jumpIfFalse).2.appendOp .pop).ahead = _ from ahead_branch _]
    exact .loopCondition hvalue

theorem derives_loopIncrement (he : PassReads greedy left expression .assignment) {s : State}
    (hs : s.InOrder) {start : Nat} (hq : (s.loopIncrement expression start).2.IsQuiet)
    (hleft : s.left ≤ left) :
    Derives greedy .loopStep s.ahead (s.loopIncrement expression start).2.ahead := by
  unfold loopIncrement at hq ⊢
  split at hq
  · next hcomma =>
    rw [if_pos hcomma]
    dsimp only at hq ⊢
    rw [hs.ahead_read hq (by rw [sees_iff.mp hcomma]; nofun), sees_iff.mp hcomma]
    exact .skippedLoopStep
  · next hcomma =>
    rw [if_neg hcomma]
    split at hq
    · next hbrace =>
      rw [if_pos hbrace]
      dsimp only
      rw [ahead_eq, sees_iff.mp hbrace]
      exact .noLoopStep
    · next hbrace =>
      rw [if_neg hbrace]
      dsimp only at hq ⊢
      rw [ahead_of_upcoming (upcoming_landJump ..), ahead_of_upcoming (upcoming_loopBack ..),
        ahead_of_upcoming (upcoming_appendOp ..)]
      have hq₁ := (edits_appendOp ..).isQuiet ((Edit.loopBack _ _).isQuiet
        ((Edit.landJump _ _).isQuiet hq))
      have hopen := (Edit.openJump s .jump).edits.inOrder hs ((he.edits _).isQuiet hq₁)
      rw [← ahead_of_upcoming (upcoming_openJump s .jump)]
      exact .loopStep (he.expr.derives _ hopen hq₁ hleft)

theorem derives_countedLoop (he : PassReads greedy left expression .assignment)
    (hd : PassDerives greedy left declaration .declaration) {s : State} (hs : s.InOrder)
    (hq : (s.countedLoop expression declaration).IsQuiet) (hleft : s.left ≤ left) :
    Derives greedy .declaration (.forWord :: s.ahead)
      (s.countedLoop expression declaration).ahead := by
  rw [countedLoop_eq] at hq ⊢
  have hinit := actions_loopInitializer he.edits s
  generalize hr : s.loopInitializer expression = r at hq hinit ⊢
  have hstep := edits_loopIncrement he.edits r.codeSize (r.loopCondition expression).2
  have hcond := edits_loopCondition he.edits r
  have hbody := derives_inScope hd
  -- the way out of the loop reads nothing
  have hturns : (r.turns expression declaration).IsQuiet ∧
      (r.rounds expression declaration).ahead = (r.turns expression declaration).ahead := by
    unfold rounds at hq ⊢
    split at hq
    · exact ⟨(Edit.landJump _ _).isQuiet ((edits_appendOp ..).isQuiet hq),
        ahead_of_upcoming ((upcoming_appendOp ..).trans (upcoming_landJump ..))⟩
    · exact ⟨hq, rfl⟩
  have hq₃ := (Edit.loopBack _ _).isQuiet hturns.1
  have hq₂ := (hbody.actions _).isQuiet hq₃
  have hq₁ := hstep.isQuiet hq₂
  have hq₀ := hcond.isQuiet hq₁
  have hs₀ := hinit.inOrder hs hq₀
  have hs₁ := hcond.inOrder hs₀ hq₁
  have hleft₀ := Nat.le_trans hinit.left_le hleft
  have hleft₁ := Nat.le_trans hcond.left_le hleft₀
  rw [hturns.2]
  unfold turns
  rw [ahead_of_upcoming (upcoming_loopBack ..)]
  subst hr
  exact .for (derives_loopInitializer he hs hq₀ hleft) (derives_loopCondition he hs₀ hq₁ hleft₀)
    (derives_loopIncrement he hs₁ hq₂ hleft₁)
    (hbody.derives _ (hstep.inOrder hs₁ hq₂) hq₃ (Nat.le_trans hstep.left_le hleft₁))

/-! ## Return -/

theorem derives_returnForm (he : PassReads greedy left expression .assignment) {s : State}
    (hs : s.InOrder) (hq : (s.returnForm expression).IsQuiet) (hleft : s.left ≤ left) :
    Derives greedy .declaration (.returnWord :: s.ahead) (s.returnForm expression).ahead := by
  unfold returnForm at hq ⊢
  dsimp only at hq ⊢
  refine .return ?_
  rw [ahead_of_upcoming (upcoming_appendOp ..)]
  split at hq
  · next hend =>
    rw [if_pos hend, ahead_of_upcoming (upcoming_appendOp ..), ahead_eq]
    rw [Bool.or_eq_true, sees_iff, sees_iff] at hend
    exact .noResult hend
  · next hend =>
    rw [if_neg hend]
    exact .result (he.expr.derives s hs ((edits_appendOp ..).isQuiet hq) hleft)

/-! ## All forms -/

theorem derives_anyForm (he : PassReads greedy left expression .assignment)
    (hd : 0 < left → PassDerives greedy (left - 1) declaration .declaration)
    (hds : 0 < left → PassDerives greedy (left - 1) declarations .declarations) {s : State}
    (hs : s.InOrder) (hq : (s.anyForm expression declaration declarations).IsQuiet)
    (hleft : s.left ≤ left) :
    Derives greedy .declaration s.ahead
      (s.anyForm expression declaration declarations).ahead := by
  have he' : PassReads greedy (left - 1) expression .assignment :=
    ⟨he.edits, fun s hs hq h => he.whole s hs hq (Nat.le_trans h (Nat.sub_le ..))⟩
  -- what a keyword starts goes on behind it
  have hkeyword : ∀ {k : TokenKind} {form : Pass}, s.current.kind = k → k ≠ .endOfSource →
      (0 < left → (∀ s, Actions s (form s)) ∧ ∀ s : State, s.InOrder → (form s).IsQuiet →
        s.left ≤ left - 1 → Derives greedy .declaration (k :: s.ahead) (form s).ahead) →
      (form s.read).IsQuiet → Derives greedy .declaration s.ahead (form s.read).ahead := by
    intro k form hkind hk h hq
    obtain ⟨hpos, hle⟩ := left_read_le_pred hkind hk hleft
    obtain ⟨hform, hderives⟩ := h hpos
    have hq₁ := (hform _).isQuiet hq
    rw [hs.ahead_read hq₁ (hkind ▸ hk), hkind]
    exact hderives _ (hs.read hq₁) hq hle
  unfold anyForm at hq ⊢
  split at hq
  · next hkind =>
    refine hkeyword hkind nofun (fun _ => ⟨actions_varForm he.edits, fun s hs hq hle => ?_⟩) hq
    obtain ⟨a, ha, hinit⟩ := derives_varForm he' hs hq hle
    rw [ha]
    exact .var hinit
  · next hkind =>
    exact hkeyword hkind nofun (fun hpos => ⟨actions_fnForm (hds hpos).actions,
      fun s hs hq hle => derives_fnForm (hds hpos) hs hq hle⟩) hq
  · next hkind =>
    exact hkeyword hkind nofun (fun hpos => ⟨actions_ifForm he.edits (hd hpos).actions,
      fun s hs hq hle => derives_ifForm he' (hd hpos) hs hq hle⟩) hq
  · next hkind =>
    exact hkeyword hkind nofun (fun hpos => ⟨actions_whileForm he.edits (hd hpos).actions,
      fun s hs hq hle => derives_whileForm he' (hd hpos) hs hq hle⟩) hq
  · next hkind =>
    refine hkeyword hkind nofun (fun hpos =>
      ⟨actions_inScope (actions_countedLoop he.edits (hd hpos).actions),
        fun s hs hq hle => ?_⟩) hq
    have hopen := (actions_openScope s).inOrder hs hs.quiet
    unfold forForm at hq ⊢
    rw [ahead_inScope, ← ahead_openScope]
    exact derives_countedLoop he' (hd hpos) hopen ((actions_closeScope _).isQuiet hq) hle
  · next hkind =>
    refine hkeyword hkind nofun (fun hpos =>
      ⟨actions_inScope (actions_blockForm (hds hpos).actions), fun s hs hq hle => ?_⟩) hq
    have hopen := (actions_openScope s).inOrder hs hs.quiet
    rw [ahead_inScope, ← ahead_openScope]
    exact .block (derives_blockForm (hds hpos) hopen ((actions_closeScope _).isQuiet hq) hle)
  · next hkind =>
    exact hkeyword hkind nofun (fun _ => ⟨fun s => (edits_returnForm he.edits s).actions,
      fun s hs hq hle => derives_returnForm he' hs hq hle⟩) hq
  · unfold expressionForm at hq ⊢
    rw [ahead_of_upcoming (upcoming_appendOp ..)]
    exact .statement (he.expr.derives s hs ((edits_appendOp ..).isQuiet hq) hleft)

end Forms

end State

/-! ## The mutual forms -/

/-- What is proved of the declarations at once, for one bound on the depth. -/
structure DeclarationsDerive (greedy : Bool) (depth : Nat) : Prop where
  declaration : ∀ left, 2 * left + 2 ≤ depth →
    PassDerives greedy left (declaration depth) .declaration
  declarations : ∀ left, 2 * left + 3 ≤ depth →
    PassDerives greedy left (declarations depth) .declarations

theorem passDerives_declaration_succ {depth : Nat} (h : DeclarationsDerive greedy depth)
    {left : Nat} (hdepth : 2 * left + 2 ≤ depth + 1) :
    PassDerives greedy left (declaration (depth + 1)) .declaration where
  actions := (formsAct (depth + 1)).declaration
  derives s hs hq hleft := by
    have hmark := (Action.checkpoint s.tick).actions.inOrder (inOrder_tick hs) hs.quiet
    have hforms := formsAct depth
    have hform := actions_anyForm (hforms.expression .assignment) hforms.declaration
      hforms.declarations s.tick.checkpoint
    unfold Compile.declaration at hq ⊢
    dsimp only at hq ⊢
    have hq₁ := (actions_recover _).isQuiet ((Action.checkpoint _).isQuiet hq)
    rw [recover_eq (hform.sane hmark.toSane hq₁), ahead_of_upcoming (upcoming_checkpoint _),
      ← ahead_of_upcoming (upcoming_tick s), ← ahead_of_upcoming (upcoming_checkpoint s.tick)]
    exact derives_anyForm
      ((expressionsDerive greedy depth).expression .assignment ⟨by decide, by decide⟩ left
        (by omega))
      (fun hpos => h.declaration (left - 1) (by omega))
      (fun hpos => h.declarations (left - 1) (by omega)) hmark hq₁ hleft

theorem passDerives_declarations_succ {depth : Nat} (h : DeclarationsDerive greedy depth)
    {left : Nat} (hdepth : 2 * left + 3 ≤ depth + 1) :
    PassDerives greedy left (declarations (depth + 1)) .declarations where
  actions := (formsAct (depth + 1)).declarations
  derives s hs hq hleft := by
    unfold Compile.declarations at hq ⊢
    split at hq
    · next hend =>
      rw [if_pos hend, ahead_of_upcoming (upcoming_tick s)]
      exact .noDeclaration
    · next hend =>
      rw [if_neg hend]
      obtain ⟨d, rfl⟩ : ∃ d, depth = d + 2 := ⟨depth - 2, by omega⟩
      have hforms := formsAct (d + 2)
      have hs₀ := inOrder_tick hs
      have hq₁ := (hforms.declarations _).isQuiet hq
      have hs₁ := (hforms.declaration _).inOrder hs₀ hq₁
      have hlt : (declaration (d + 2) s.tick).left < s.tick.left := by
        refine left_declaration_lt fun hsees => hend ?_
        rw [Bool.or_eq_true]
        exact .inr hsees
      have hleft₀ : s.tick.left ≤ left := hleft
      rw [← ahead_of_upcoming (upcoming_tick s)]
      exact .moreDeclarations ((h.declaration left (by omega)).derives _ hs₀ hq₁ hleft₀)
        ((h.declarations (left - 1) (by omega)).derives _ hs₁ hq (by omega))

/-- Each declaration is a word of the grammar, for every bound that is large enough. -/
theorem declarationsDerive (greedy : Bool) (depth : Nat) : DeclarationsDerive greedy depth := by
  induction depth with
  | zero => constructor <;> intros <;> omega
  | succ depth ih =>
    exact ⟨fun _ hdepth => passDerives_declaration_succ ih hdepth,
      fun _ hdepth => passDerives_declarations_succ ih hdepth⟩

/-! ## Programs -/

theorem derives_program (greedy : Bool) {depth limit : Nat} {s : State} (hs : s.InOrder)
    (hq : (program depth limit s).IsQuiet) (hdepth : 2 * s.left + 2 ≤ depth)
    (hlimit : s.left < limit) :
    Derives greedy .declarations s.ahead [.endOfSource] ∧ (program depth limit s).rest = [] := by
  induction limit generalizing s with
  | zero => exact absurd hlimit (Nat.not_lt_zero _)
  | succ limit ih =>
    unfold program at hq ⊢
    split at hq
    · next hend =>
      rw [if_pos hend]
      have hahead := hs.ended
      rw [ahead_eq, sees_iff.mp hend] at hahead
      have hrest := List.map_eq_nil_iff.mp hahead.eq_nil
      rw [ahead_eq, sees_iff.mp hend, hrest]
      refine ⟨.noDeclaration, ?_⟩
      show (s.tick.pull s.rest).rest = []
      rw [hrest]
      rfl
    · next hend =>
      rw [if_neg hend]
      obtain ⟨d, rfl⟩ : ∃ d, depth = d + 2 := ⟨depth - 2, by omega⟩
      have hs₀ := inOrder_tick hs
      have hq₁ := (actions_program _ _ _).isQuiet hq
      have hs₁ := ((formsAct (d + 2)).declaration _).inOrder hs₀ hq₁
      have hlt : (declaration (d + 2) s.tick).left < s.left :=
        left_declaration_lt hend
      have hfirst := ((declarationsDerive greedy (d + 2)).declaration s.left hdepth).derives _
        hs₀ hq₁ (Nat.le_refl _)
      obtain ⟨hmore, hrest⟩ := ih hs₁ hq (by omega) (by omega)
      rw [← ahead_of_upcoming (upcoming_tick s)]
      exact ⟨.moreDeclarations hfirst hmore, hrest⟩

/-! ## Invalid tokens -/

namespace State

/-- No invalid token is left to read. -/
def IsValid (s : State) : Prop := ∀ t ∈ s.rest, t.kind ≠ .invalid

theorem isValid_of_upcoming {s t : State} (h : t.upcoming = s.upcoming) (ht : t.IsValid) :
    s.IsValid := by
  have hrest : t.rest = s.rest := (List.cons.inj h).2
  exact fun u hu => ht u (hrest ▸ hu)

/-- What has been read without a diagnostic was valid. -/
theorem Edit.isValid {s t : State} (h : Edit s t) (hs : s.Sane) (hq : t.IsQuiet)
    (ht : t.IsValid) : s.IsValid := by
  cases h with
  | read =>
    obtain ⟨u, rest, heq, hor⟩ := read_eq hs hq
    rw [heq] at ht
    rcases hor with ⟨hrest, hvalid⟩ | ⟨hrest, -⟩
    · intro v hv
      rw [hrest] at hv
      rcases List.mem_cons.mp hv with rfl | hv
      · exact hvalid
      · exact ht v hv
    · intro v hv
      rw [hrest] at hv
      cases hv
  | complain => exact isValid_of_upcoming (upcoming_complainAt ..) ht
  | landJump => exact isValid_of_upcoming (upcoming_landJump ..) ht
  | loopBack => exact isValid_of_upcoming (upcoming_loopBack ..) ht
  | pool => exact isValid_of_upcoming (upcoming_poolConstant ..) ht
  | _ => exact ht

/-- What has been read on the whole was valid. -/
theorem Actions.isValid {s t : State} (h : Actions s t) (hs : s.Sane) (hq : t.IsQuiet)
    (ht : t.IsValid) : s.IsValid := by
  induction h with
  | refl => exact ht
  | tail hactions act ih =>
    have hq₁ := act.isQuiet hq
    refine ih hq₁ ?_
    cases act with
    | edit edit => exact edit.isValid (Actions.sane hactions hs hq₁) hq ht
    | _ => exact ht

end State

/-- The first read brings the compiler before the first token. -/
theorem upcoming_start {firstId : Identity} {tokens : List Token}
    (hnamed : ∀ t ∈ tokens, t.IsNamed) (hended : Ended (tokens.map Token.kind))
    (hq : (initial firstId tokens).read.IsQuiet) :
    (initial firstId tokens).read.upcoming = tokens ∧ (initial firstId tokens).read.InOrder := by
  have hs := sane_initial firstId hnamed
  have hupcoming : (initial firstId tokens).read.upcoming = tokens := by
    obtain ⟨t, rest, heq, hor⟩ := read_eq hs hq
    rw [heq]
    rcases hor with ⟨hrest, -⟩ | ⟨hrest, -⟩
    · exact hrest.symm
    · have htokens : tokens = [] := hrest
      rw [htokens] at hended
      exact absurd rfl hended.ne_nil
  refine ⟨hupcoming, hs.read hq, ?_⟩
  unfold ahead
  rwa [hupcoming]

/-- What compiles holds no invalid token and is a program. -/
theorem derives_compileTokens (greedy : Bool) {firstId : Identity} {tokens : List Token}
    (hnamed : ∀ t ∈ tokens, t.IsNamed) (hended : Ended (tokens.map Token.kind))
    (hq : (compileTokens firstId tokens).IsQuiet) :
    (∀ t ∈ tokens, t.kind ≠ .invalid) ∧ IsProgram greedy (tokens.map Token.kind) := by
  have hvalid := Actions.isValid (actions_compileTokens firstId tokens)
    (sane_initial firstId hnamed) hq
  unfold compileTokens at hq hvalid
  obtain ⟨hupcoming, hs⟩ := upcoming_start hnamed hended ((actions_program _ _ _).isQuiet hq)
  have hleft : (initial firstId tokens).read.left ≤ tokens.length := left_read_le _
  obtain ⟨hall, hrest⟩ := derives_program greedy hs hq
    (by unfold depthFor; omega) (by omega)
  unfold ahead at hall
  rw [hupcoming] at hall
  refine ⟨hvalid fun t ht => ?_, .program hall⟩
  rw [hrest] at ht
  cases ht

end ScriptEngine.Compile
