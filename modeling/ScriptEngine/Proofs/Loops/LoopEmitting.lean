import ScriptEngine.Proofs.Loops.StatementEmitting
set_option autoImplicit false

/-!
# Compiling counted loops to pieces

A counted loop is read in the order initializer, condition, increment, body, and the increment runs
behind the body.  Its rounds are still the piece of the body with the piece of the increment behind
it (`emits_turn`), so nothing in the piece of a loop tells which of the two was written first.
-/

namespace ScriptEngine.Compile

open State ScriptEngine.Tree

section Loops

variable {ν : Naming} {body : Declaration} {w next : Word} {us vs ss ws rest : List Word}
  {s : State} {depth : Nat}

/-- A comma may follow a variable. -/
theorem admits_var_comma (x : String) (value : Option Expression) :
    (Declaration.var x value).Admits (mark .comma) := by
  cases value with
  | none => exact nofun
  | some e => exact calm_comma

/-- There is no function in what a loop does first. -/
theorem functions_initializer (first : Initializer) : (first.piece ν).functions = 0 := by
  rcases first with _ | ⟨x, value⟩ | e
  · rfl
  · have hbound : (Piece.bound ν x).functions = 0 := by
      unfold Piece.bound
      split <;> rfl
    have hvalue : (valuePiece (ν.binding x) value).functions = 0 := by
      cases value with
      | none => rfl
      | some e => exact e.isValue.functions
    show (valuePiece (ν.binding x) value).functions + (Piece.bound ν x).functions = 0
    rw [hvalue, hbound]
  · exact (e.isValue.append (isValue_flow _)).functions

/-- What a loop does first. -/
theorem gets_loopInitializer {first : Initializer} (hfirst : SpellsFirst first us)
    (h : Stands ν (us ++ mark .comma :: ws) s) (hne : ws ≠ [])
    (hdepth : 2 * (us ++ mark .comma :: ws).length + 1 ≤ depth)
    (hq : (s.loopInitializer (Compile.expression depth .assignment)).IsQuiet) :
    Gets (first.piece ν) ws s (s.loopInitializer (Compile.expression depth .assignment)) := by
  cases hfirst with
  | none =>
    have hform : s.loopInitializer (Compile.expression depth .assignment) = s.read :=
      if_pos (h.sees .comma)
    rw [hform] at hq ⊢
    exact (h.read hne).gets (emits_read h.inOrder.toSane hq)
  | @var x value us hvar =>
    have hno : s.sees .comma = false := h.sees .comma
    have hyes : s.sees .varWord = true := h.sees .varWord
    have hform : s.loopInitializer (Compile.expression depth .assignment) =
        (s.read.varForm (Compile.expression depth .assignment)).checkpoint.require .comma
          .commaAfterInitializer := by
      unfold loopInitializer
      rw [hno, hyes]
      rfl
    have hread := h.toAhead.read (by simp)
    rw [List.cons_append, List.length_cons] at hdepth
    rw [hform] at hq ⊢
    have hvalue := (gets_varForm hvar (h.read (by simp)) (admits_var_comma x value) (by omega)
      ((Action.checkpoint _).isQuiet ((edits_require ..).isQuiet hq))).checkpoint
    rw [hvalue.ahead.require_eq (k := .comma) rfl]
    exact (hvalue.read hne).after (emits_read h.inOrder.toSane hread.2.2)
  | @expression e us hrenders =>
    obtain ⟨o, vs, opening, hus, ho⟩ := opens_of_renders hrenders
    have hsees : ∀ k : TokenKind, k.opening? = none → s.sees k = false := by
      intro k hk
      have hs := h.toAhead
      rw [hus, List.cons_append] at hs
      rw [hs.sees, beq_eq_false_iff_ne]
      rintro rfl
      rw [hk] at ho
      cases ho
    have hform : s.loopInitializer (Compile.expression depth .assignment) =
        (s.expressionForm (Compile.expression depth .assignment)).require .comma
          .commaAfterInitializer := by
      unfold loopInitializer
      rw [hsees .comma rfl, hsees .varWord rfl]
      rfl
    rw [hform] at hq ⊢
    have hvalue := h.dropped hrenders calm_comma hdepth ((edits_require ..).isQuiet hq)
    rw [hvalue.ahead.require_eq (k := .comma) rfl]
    exact hvalue.read hne

/-- What is between the condition and the next test of it. -/
def turn (depth start : Nat) (s : State) : State :=
  ((s.loopIncrement (Compile.expression depth .assignment) start).2.inScope
    (declaration depth)).loopBack (s.loopIncrement (Compile.expression depth .assignment) start).1

/-- The increment is behind the body, also where it was written before it. -/
theorem emits_turn {step : Option Expression} (hstep : SpellsStep w step ss)
    (hbody : DeclarationEmits body (w :: ws)) (h : Stands ν (ss ++ w :: (ws ++ next :: rest)) s)
    (hadmits : body.Admits next) {start : Nat} (hstart : start ≤ s.codeSize)
    (hdepth : 2 * (ss ++ w :: (ws ++ next :: rest)).length + 2 ≤ depth)
    (hq : (turn depth start s).IsQuiet) :
    Stands ν (next :: rest) (turn depth start s) ∧
      EmitsRound (s.codeSize - start)
        (.inScope ν (body.piece ν.inner s.nextId) ++ droppedPiece ν step) s
          (turn depth start s) := by
  have hforms := formsAct depth
  rw [List.length_append] at hdepth
  cases hstep with
  | brace hw =>
    have hno : s.sees .comma = false := by
      rw [h.sees, hw]
      rfl
    have hyes : s.sees .leftBrace = true := by
      rw [h.sees, hw]
      rfl
    have hform : turn depth start s = (s.inScope (declaration depth)).loopBack start := by
      unfold turn loopIncrement
      rw [hno, hyes]
      rfl
    rw [hform] at hq ⊢
    have hround := hbody.inScope h hadmits (by rw [List.cons_append]; omega)
      ((Edit.loopBack _ _).isQuiet hq)
    have hstands : Stands ν _ _ := hround.keep h.suits rfl
    refine ⟨hstands.loopBack hq, ?_⟩
    rw [droppedPiece, Piece.append_nothing]
    exact emitsRound_plain hround.toEmits rfl hstands.inOrder hstart hq
  | comma =>
    have hform : turn depth start s = (s.read.inScope (declaration depth)).loopBack start := by
      have hyes : s.sees .comma = true := h.sees .comma
      unfold turn loopIncrement
      rw [hyes]
      rfl
    have hread := h.toAhead.read (by simp)
    have hbefore := emits_read h.inOrder.toSane hread.2.2
    rw [List.length_singleton] at hdepth
    rw [hform] at hq ⊢
    have hround := hbody.inScope (h.read (by simp)) hadmits (by rw [List.cons_append]; omega)
      ((Edit.loopBack _ _).isQuiet hq)
    have hid : s.read.nextId = s.nextId := hbefore.nextId
    rw [hid] at hround
    have hstands : Stands ν _ _ := hround.keep (h.read (by simp)).suits rfl
    refine ⟨hstands.loopBack hq, ?_⟩
    rw [droppedPiece, Piece.append_nothing]
    exact emitsRound_plain (hround.toEmits.after hbefore) rfl hstands.inOrder hstart hq
  | @some e _ hrenders hcalm =>
    obtain ⟨o, us, opening, hus, ho⟩ := opens_of_renders hrenders
    have hsees : ∀ k : TokenKind, k.opening? = none → s.sees k = false := by
      intro k hk
      have hs := h.toAhead
      rw [hus, List.cons_append] at hs
      rw [hs.sees, beq_eq_false_iff_ne]
      rintro rfl
      rw [hk] at ho
      cases ho
    have hform : turn depth start s =
        (((((s.openJump .jump).2.expressionForm (Compile.expression depth .assignment)).loopBack
          start).landJump (s.openJump .jump).1).inScope (declaration depth)).loopBack
            (s.openJump .jump).2.codeSize := by
      unfold turn loopIncrement
      rw [hsees .comma rfl, hsees .leftBrace rfl]
      rfl
    rw [hform] at hq ⊢
    have hq₃ := (Edit.loopBack _ _).isQuiet hq
    have hq₂ := (actions_inScope hforms.declaration _).isQuiet hq₃
    have hq₁ := (Edit.loopBack _ _).isQuiet ((Edit.landJump _ _).isQuiet hq₂)
    have hs₁ := h.openJump .jump
    have hdropped := hs₁.dropped hrenders hcalm (by rw [List.length_append]; omega) hq₁
    have hnone : (droppedPiece ν (some e)).declared = [] :=
      (e.isValue.append (isValue_flow _)).declared
    have hs₂ := hdropped.keep hs₁.suits hnone
    have hs₃ := (hs₂.loopBack ((Edit.landJump _ _).isQuiet hq₂)).landJump hq₂
    have hround := hbody.inScope hs₃ hadmits (by rw [List.cons_append]; omega) hq₃
    have hgains := (hdropped.toGains.trans (gains_loopBack hs₂.inOrder.toSane
      ((Edit.landJump _ _).isQuiet hq₂))).trans (gains_landJump
        ((hs₂.loopBack ((Edit.landJump _ _).isQuiet hq₂))).inOrder.toSane hq₂)
    have hid := hgains.nextId
    rw [show (droppedPiece ν (some e)).functions = 0 from
      (e.isValue.append (isValue_flow _)).functions] at hid
    have hid' : (s.openJump .jump).2.nextId = s.nextId := rfl
    simp only [Nat.add_zero, hid'] at hid
    rw [hid] at hround
    have hs₄ : Stands ν _ _ := hround.keep hs₃.suits rfl
    refine ⟨hs₄.loopBack hq, ?_⟩
    exact emitsRound_around hdropped.toEmits hnone hs₂.inOrder hstart hq₂ hround.toEmits rfl
      hs₄.inOrder hq

/-- The rounds of a counted loop, behind what it does first. -/
theorem gets_rounds {c step : Option Expression} (hcondition : SpellsMaybe c vs)
    (hstep : SpellsStep w step ss) (hbody : DeclarationEmits body (w :: ws))
    (h : Stands ν (vs ++ mark .comma :: (ss ++ w :: (ws ++ next :: rest))) s)
    (hadmits : body.Admits next)
    (hdepth : 2 * (vs ++ mark .comma :: (ss ++ w :: (ws ++ next :: rest))).length + 2 ≤ depth)
    (hq : (s.rounds (Compile.expression depth .assignment) (declaration depth)).IsQuiet) :
    Gets (.repeated (c.map (Expression.piece ν))
      (.inScope ν (body.piece ν.inner s.nextId) ++ droppedPiece ν step)) (next :: rest) s
        (s.rounds (Compile.expression depth .assignment) (declaration depth)) := by
  have hforms := formsAct depth
  rw [List.length_append, List.length_cons] at hdepth
  cases hcondition with
  | none =>
    have hform : s.rounds (Compile.expression depth .assignment) (declaration depth) =
        turn depth s.codeSize s.read := by
      have hyes : s.sees .comma = true := h.sees .comma
      unfold rounds turns loopCondition
      rw [hyes]
      rfl
    have hread := h.toAhead.read (by simp)
    have hbefore := emits_read h.inOrder.toSane hread.2.2
    have hsize : s.read.codeSize = s.codeSize := by
      unfold codeSize
      rw [builder_read h.inOrder.toSane hread.2.2]
    have hid : s.read.nextId = s.nextId := hbefore.nextId
    rw [hform] at hq ⊢
    obtain ⟨hstands, hround⟩ := emits_turn hstep hbody (h.read (by simp)) hadmits hsize.ge
      (by omega) hq
    rw [hsize, Nat.sub_self, hid] at hround
    exact hstands.gets ((emits_forever hround).after hbefore)
  | @some e _ hrenders =>
    obtain ⟨o, us, opening, hus, ho⟩ := opens_of_renders hrenders
    have hno : s.sees .comma = false := by
      have hs := h.toAhead
      rw [hus, List.cons_append] at hs
      rw [hs.sees, beq_eq_false_iff_ne]
      intro hkind
      rw [hkind] at ho
      cases ho
    have hform : s.rounds (Compile.expression depth .assignment) (declaration depth) =
        ((turn depth s.codeSize ((Compile.expression depth .assignment s).require .comma
          .commaAfterCondition).branch).landJump ((((Compile.expression depth .assignment s).require
            .comma .commaAfterCondition).openJump .jumpIfFalse).1)).appendOp .pop := by
      unfold rounds turns loopCondition
      rw [hno]
      rfl
    have hcond : (Compile.expression depth .assignment s).IsQuiet →
        Gets (e.piece ν) (mark .comma :: (ss ++ w :: (ws ++ next :: rest))) s
          (Compile.expression depth .assignment s) :=
      fun hq => h.value hrenders calm_comma (by rw [List.length_append, List.length_cons]; omega) hq
    rw [hform] at hq ⊢
    generalize Compile.expression depth .assignment s = s₁ at hq hcond ⊢
    have hq₂ := (Edit.landJump _ _).isQuiet ((edits_appendOp _ .pop).isQuiet hq)
    have hq₁ : (s₁.require .comma .commaAfterCondition).branch.IsQuiet :=
      (edits_loopIncrement (hforms.expression .assignment) _ _).isQuiet
        ((actions_inScope hforms.declaration _).isQuiet ((Edit.loopBack _ _).isQuiet hq₂))
    have hvalue := hcond ((edits_require ..).isQuiet ((edits_branch _).isQuiet hq₁))
    rw [hvalue.ahead.require_eq (k := .comma) rfl] at hq hq₁ hq₂ ⊢
    have hwritten := hvalue.read (by simp)
    have hs₁ : Stands ν _ s₁.read := hwritten.keep h.suits e.isValue.declared
    have hid : s₁.read.branch.nextId = s.nextId := by
      show s₁.read.nextId = _
      rw [hwritten.nextId, e.isValue.functions, Nat.add_zero]
    have hstart := size_branch hwritten.toEmits
    obtain ⟨hstands, hround⟩ := emits_turn hstep hbody hs₁.branch hadmits hstart (by omega) hq₂
    rw [hid] at hround
    have hs₂ := (hstands.landJump ((edits_appendOp _ .pop).isQuiet hq)).appendOp .pop
    exact hs₂.gets (emits_loop hwritten.toEmits e.isValue.declared hround hstands.inOrder
      ((edits_appendOp _ .pop).isQuiet hq))

/-- A counted loop in a scope of its own. -/
theorem formEmits_count {first : Initializer} {c step : Option Expression}
    (hfirst : SpellsFirst first us) (hcondition : SpellsMaybe c vs) (hstep : SpellsStep w step ss)
    (hbody : DeclarationEmits body (w :: ws)) :
    FormEmits (.count first c step body)
      (mark .forWord :: (us ++ mark .comma :: (vs ++ mark .comma :: (ss ++ w :: ws)))) := by
  intro ν next rest depth s h hadmits hdepth hq
  have hform : formOf depth s = s.read.inScope
      (countedLoop (Compile.expression depth .assignment) (declaration depth)) := by
    unfold formOf anyForm
    rw [h.reads.kind]
    rfl
  have hwords : mark .forWord :: (us ++ mark .comma :: (vs ++ mark .comma :: (ss ++ w :: ws))) ++
      next :: rest = mark .forWord :: (us ++ mark .comma ::
        (vs ++ mark .comma :: (ss ++ w :: (ws ++ next :: rest)))) := by simp
  rw [hwords] at h hdepth
  rw [List.length_cons] at hdepth
  have hread := h.toAhead.read (by simp)
  have hs := h.read (by simp)
  have hbefore := emits_read h.inOrder.toSane hread.2.2
  have hid : s.read.nextId = s.nextId := hbefore.nextId
  have hleft := hs.left_le
  rw [hform] at hq ⊢
  refine Gets.after ?_ hbefore
  rw [← hid]
  have hadvances := advances_countedLoop
    ((expressionsCarry depth).expression .assignment s.read.left (by omega))
    ((declarationsAdvance depth).declaration s.read.left (by omega))
  refine gets_inScope hadvances hs hq fun hq₁ => ?_
  rw [countedLoop_eq] at hq₁ ⊢
  have hq₀ := (actions_rounds ((formsAct depth).expression .assignment) (formsAct depth).declaration
    _).isQuiet hq₁
  have hstart := gets_loopInitializer hfirst hs.openScope (by simp) (by omega) hq₀
  have hfunctions : (first.piece ν.inner).functions = 0 := functions_initializer first
  have hid' := hstart.nextId
  rw [hfunctions, Nat.add_zero] at hid'
  rw [List.length_append, List.length_cons] at hdepth
  have hrounds := gets_rounds hcondition hstep hbody (hstart.stands hs.openScope.suits) hadmits
    (by omega) hq₁
  rw [hid'] at hrounds
  exact hrounds.append hstart.toEmits

end Loops

end ScriptEngine.Compile
