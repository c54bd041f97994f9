import ScriptEngine.Proofs.Abreast.Scope
import ScriptEngine.Proofs.Compile.ExpressionCode
set_option autoImplicit false

/-!
# Two compilations abreast: expressions

Each form of expression keeps two compilations abreast if its parts do.  The bound on the
recursion may be greater on the second side (`expressionsAbreast`): on the first one it is
never reached, because every level reads a token or is followed by one that does.

An expression that is missed at the end of the first source is a mistake, so that what
the second side finds there does not matter.
-/

namespace ScriptEngine.Compile

open State

/-- The passes write code, stay in their scope, and keep two compilations abreast. -/
structure EditsAbreast (σ : Latitude) (n : Nat) (f f' : Pass) : Prop where
  left : ∀ s, Edits s (f s)
  right : ∀ s, Edits s (f' s)
  keeps : ∀ {l : Ledger} {ls : List Ledger} {s s' : State}, σ.Abreast n (l :: ls) s s' →
    σ.Abreast n (l :: ls) (f s) (f' s')

/-- The passes read arguments behind others, and count the same number of them. -/
structure ArgumentsAbreast (σ : Latitude) (n : Nat) (f f' : Nat → State → Nat × State) :
    Prop where
  left : ∀ count s, Edits s (f count s).2
  right : ∀ count s, Edits s (f' count s).2
  keeps : ∀ {l : Ledger} {ls : List Ledger} {s s' : State} {c c' : Nat},
    σ.Abreast n (l.pin (.count c c') :: ls) s s' →
      σ.Abreast n (l.pin (.count (f c s).1 (f' c' s').1) :: ls) (f c s).2 (f' c' s').2

section Expressions

variable {σ : Latitude} {n : Nat} {l : Ledger} {ls : List Ledger} {s s' : State}
  {operand operand' : Precedence → Pass} {arguments arguments' : Nat → State → Nat × State}

theorem State.not_sees_end_of_sees {s : State} {k : TokenKind} (h : s.sees k = true)
    (hk : k ≠ .endOfSource) : ¬ s.sees .endOfSource :=
  fun hend => hk ((beq_iff_eq.mp h).symm.trans (beq_iff_eq.mp hend))

namespace Latitude.Abreast

/-! ## What opens an expression -/

theorem nameForm {expression expression' : Pass} (he : EditsAbreast σ n expression expression')
    (h : σ.Abreast n (l :: ls) s s') (mayAssign : Bool) :
    σ.Abreast n (l :: ls) (s.nameForm expression mayAssign)
      (s'.nameForm expression' mayAssign) := by
  have hresolved := h.resolve fun hr => hr.previous.lexeme
  have hrest : ∀ {expression : Pass} (_ : ∀ s, Edits s (expression s)) (p : Place) (r : State),
      Edits r (if mayAssign && r.sees .equal then
        (expression r.read).appendWith p.setOp p.operand
      else r.appendWith p.getOp p.operand) := by
    intro expression hedits p r
    split
    · exact (Edit.read r).edits.trans ((hedits _).trans (edits_appendWith ..))
    · exact edits_appendWith ..
  unfold State.nameForm
  dsimp only
  refine hresolved.branch (hrest he.left _ _).actions (hrest he.right _ _).actions fun hr => ?_
  rw [hr.sees_eq (by simp)]
  split
  · next hassigns =>
    have hsees := (Bool.and_eq_true_iff.mp hassigns).2
    have hread := hresolved.read (.inl (not_sees_end_of_sees hsees (by simp)))
    exact ((he.keeps hread).appendSet List.mem_cons_self).unpin
  · exact (hresolved.appendGet List.mem_cons_self).unpin

theorem numberForm (h : σ.Abreast n (l :: ls) s s') :
    σ.Abreast n (l :: ls) s.numberForm s'.numberForm := by
  refine h.branch (edits_numberForm s).actions (edits_numberForm s').actions fun hr => ?_
  unfold State.numberForm
  rw [hr.previous.lexeme]
  split
  · exact h.pushLiteral fun _ => .number _
  · exact h.complain _

theorem openExpression (ho : ∀ p, EditsAbreast σ n (operand p) (operand' p))
    (h : σ.Abreast n (l :: ls) s s') (mayAssign : Bool) {opening : Opening}
    (hopening : s.previous.kind.opening? = some opening)
    (hlexeme : s'.previous.lexeme = s.previous.lexeme) :
    σ.Abreast n (l :: ls) (s.openExpression operand mayAssign opening)
      (s'.openExpression operand' mayAssign opening) := by
  cases opening with
  | group => exact ((ho _).keeps h).require (by simp) _
  | unary op => exact ((ho _).keeps h).appendOp _ (by cases op <;> rfl)
  | name => exact nameForm (ho _) h mayAssign
  | string =>
    unfold State.openExpression
    rw [hlexeme]
    exact h.pushLiteral fun _ => .string _
  | number => exact h.numberForm
  | literal op =>
    have hliteral := literal_of_opening hopening
    exact h.appendOp op (by cases op <;> first | rfl | cases hliteral)

/-! ## What continues an expression -/

theorem andForm (ho : ∀ p, EditsAbreast σ n (operand p) (operand' p))
    (h : σ.Abreast n (l :: ls) s s') :
    σ.Abreast n (l :: ls) (s.andForm operand) (s'.andForm operand') := by
  have hjump := h.openJump .jumpIfFalse (by decide) rfl
  exact (((ho .and).keeps (hjump.appendOp .pop rfl)).landJump List.mem_cons_self).unpin

theorem orForm (ho : ∀ p, EditsAbreast σ n (operand p) (operand' p))
    (h : σ.Abreast n (l :: ls) s s') :
    σ.Abreast n (l :: ls) (s.orForm operand) (s'.orForm operand') := by
  have helse := h.openJump .jumpIfFalse (by decide) rfl
  have hend := helse.openJump .jump (by decide) rfl
  have hlanded := (hend.landJump (List.mem_cons_of_mem _ List.mem_cons_self)).appendOp .pop rfl
  exact (((ho .or).keeps hlanded).landJump List.mem_cons_self).unpin.unpin

theorem binaryForm (ho : ∀ p, EditsAbreast σ n (operand p) (operand' p))
    (h : σ.Abreast n (l :: ls) s s') (op : BinaryOperator) :
    σ.Abreast n (l :: ls) (s.binaryForm operand op) (s'.binaryForm operand' op) :=
  have hnone : ∀ code ∈ op.code, code.operandBytes = 0 := by cases op <;> decide
  foldl op.code (fun _ _ code hcode h => h.appendOp code (hnone code hcode)) ((ho _).keeps h)

theorem countArgument {c c' : Nat} (h : σ.Abreast n (l.pin (.count c c') :: ls) s s') :
    σ.Abreast n (l.pin (.count (s.countArgument c).1 (s'.countArgument c').1) :: ls)
      (s.countArgument c).2 (s'.countArgument c').2 := by
  refine h.branch (edits_countArgument ..).actions (edits_countArgument ..).actions fun hr => ?_
  obtain ⟨_, rfl⟩ := hr.holds List.mem_cons_self
  unfold State.countArgument
  split
  · exact (h.unpin.complain _).pin fun _ _ _ => rfl
  · exact h.unpin.pin fun _ _ _ => rfl

theorem callForm (ha : ArgumentsAbreast σ n arguments arguments')
    (h : σ.Abreast n (l :: ls) s s') :
    σ.Abreast n (l :: ls) (s.callForm (arguments 0)) (s'.callForm (arguments' 0)) := by
  refine h.branch (edits_callForm (ha.left 0) s).actions (edits_callForm (ha.right 0) s').actions
    fun hr => ?_
  have hnone := h.pin (p := .count 0 0) fun _ _ _ => rfl
  unfold State.callForm
  dsimp only
  rw [hr.sees_eq (by simp)]
  split
  · exact ((hnone.require (by simp) _).appendCount (by decide) rfl List.mem_cons_self).unpin
  · exact (((ha.keeps hnone).require (by simp) _).appendCount (by decide) rfl
      List.mem_cons_self).unpin

theorem continueExpression (ho : ∀ p, EditsAbreast σ n (operand p) (operand' p))
    (ha : ArgumentsAbreast σ n arguments arguments') (h : σ.Abreast n (l :: ls) s s')
    (c : Continuation) :
    σ.Abreast n (l :: ls) (s.continueExpression operand (arguments 0) c)
      (s'.continueExpression operand' (arguments' 0) c) := by
  cases c with
  | call => exact callForm ha h
  | binary op => exact binaryForm ho h op
  | and => exact andForm ho h
  | or => exact orForm ho h

theorem refuseAssignment (h : σ.Abreast n (l :: ls) s s') (mayAssign : Bool) :
    σ.Abreast n (l :: ls) (s.refuseAssignment mayAssign) (s'.refuseAssignment mayAssign) := by
  refine h.branch (edits_refuseAssignment ..).actions (edits_refuseAssignment ..).actions
    fun hr => ?_
  unfold State.refuseAssignment
  rw [hr.sees_eq (by simp)]
  split
  · next hassigns =>
    have hsees := (Bool.and_eq_true_iff.mp hassigns).2
    exact (h.read (.inl (not_sees_end_of_sees hsees (by simp)))).complain _
  · exact h

end Latitude.Abreast

end Expressions

/-! ## The mutual forms -/

/-- An expression that is looked for at the end of the source is missed. -/
theorem not_isQuiet_expression_of_end {depth : Nat} {level : Precedence} {s : State}
    (hcalm : s.IsQuiet → s.isRecovering = false) (hend : s.sees .endOfSource) :
    ¬ (expression (depth + 1) level s).IsQuiet := by
  intro hq
  have hkind : s.tick.read.previous.kind = .endOfSource := beq_iff_eq.mp hend
  unfold expression at hq
  dsimp only at hq
  rw [hkind] at hq
  have hmissed : (s.tick.read.complain (.expected .expression)).IsQuiet := hq
  have hbefore : s.tick.read.IsQuiet := isQuiet_of_complainAt hmissed
  have hcalmRead : s.tick.read.isRecovering = false :=
    calm_pull (s := s.tick.tick) hcalm hbefore
  exact not_isQuiet_of_calm hcalmRead _ _ hmissed

/-- Two bounds on the depth of which the first one is never reached. -/
structure ExpressionsAbreast (σ : Latitude) (depth depth' : Nat) : Prop where
  expression : ∀ level n, 2 * n + 1 ≤ depth →
    EditsAbreast σ n (expression depth level) (expression depth' level)
  continuations : ∀ level n, 2 * n + 1 ≤ depth →
    EditsAbreast σ n (continuations depth level) (continuations depth' level)
  arguments : ∀ n, 2 * n + 2 ≤ depth → ArgumentsAbreast σ n (arguments depth) (arguments depth')

section Mutual

variable {σ : Latitude} {n : Nat} {depth depth' : Nat}

theorem expression_succ (h : ExpressionsAbreast σ depth depth') (level : Precedence)
    (hdepth : 2 * n + 1 ≤ depth + 1) :
    EditsAbreast σ n (expression (depth + 1) level) (expression (depth' + 1) level) where
  left := (formsAct (depth + 1)).expression level
  right := (formsAct (depth' + 1)).expression level
  keeps {l ls s s'} hs := by
    have hleft := ((formsAct (depth + 1)).expression level s).actions
    have hright := ((formsAct (depth' + 1)).expression level s').actions
    refine hs.branch hleft hright fun hr => ?_
    by_cases hend : s.sees .endOfSource ∧ σ.beyond ≠ []
    · rintro (hstrict | ⟨hq, -⟩)
      · exact absurd (σ.alone hstrict) hend.2
      · exact absurd hq (not_isQuiet_expression_of_end hr.calm hend.1)
    · have hread := hs.tick.read (by tauto)
      unfold expression
      dsimp only
      refine hread.branch (edits_opened depth level (level ≤ .assignment) _).actions
        (edits_opened depth' level (level ≤ .assignment) _).actions fun hr' => ?_
      rw [hr'.previous.kind]
      split
      · exact hread.complain _
      · next opening hopening =>
        have hnoEnd : ¬ s.tick.sees .endOfSource := sees_of_opening hopening
        have hpos : 0 < n := Nat.lt_of_lt_of_le (Nat.zero_lt_of_lt (left_read_lt hnoEnd)) hr.left
        have hinside : 2 * (n - 1) + 1 ≤ depth := by omega
        have hopened := Latitude.Abreast.openExpression
          (fun p => h.expression p (n - 1) hinside) (hs.tick.read_lt hnoEnd)
          (level ≤ .assignment) hopening hr'.previous.lexeme
        exact (((h.continuations level _ hinside).keeps hopened).refuseAssignment _).weaken
          (Nat.sub_le n 1)

theorem continuations_succ (h : ExpressionsAbreast σ depth depth') (level : Precedence)
    (hdepth : 2 * n + 1 ≤ depth + 1) :
    EditsAbreast σ n (continuations (depth + 1) level) (continuations (depth' + 1) level) where
  left := (formsAct (depth + 1)).continuations level
  right := (formsAct (depth' + 1)).continuations level
  keeps {l ls s s'} hs := by
    have hleft := ((formsAct (depth + 1)).continuations level s).actions
    have hright := ((formsAct (depth' + 1)).continuations level s').actions
    refine hs.branch hleft hright fun hr => ?_
    unfold continuations
    rw [hr.continuation_eq]
    split
    · exact hs.tick
    · next c hc =>
      split
      · have hnoEnd : ¬ s.tick.sees .endOfSource := fun hend => by
          have hkind : s.current.kind = .endOfSource := beq_iff_eq.mp hend
          rw [hkind] at hc
          cases hc
        have hpos : 0 < n := Nat.lt_of_lt_of_le (Nat.zero_lt_of_lt (left_read_lt hnoEnd)) hr.left
        have hinside : 2 * (n - 1) + 1 ≤ depth := by omega
        have hcontinued := Latitude.Abreast.continueExpression
          (fun p => h.expression p (n - 1) hinside) (h.arguments (n - 1) (by omega))
          (hs.tick.read_lt hnoEnd) c
        exact ((h.continuations level _ hinside).keeps hcontinued).weaken (Nat.sub_le n 1)
      · exact hs.tick

theorem arguments_succ (h : ExpressionsAbreast σ depth depth')
    (hdepth : 2 * n + 2 ≤ depth + 1) :
    ArgumentsAbreast σ n (arguments (depth + 1)) (arguments (depth' + 1)) where
  left := (formsAct (depth + 1)).arguments
  right := (formsAct (depth' + 1)).arguments
  keeps {l ls s s' c c'} hs := by
    have hcounted := ((h.expression .assignment n (by omega)).keeps hs.tick).countArgument
    have hrest : ∀ (depth c : Nat) (r : State), Edits r (if r.sees .comma then
        arguments depth c r.read else (c, r)).2 := by
      intro depth c r
      split
      · exact (Edit.read r).edits.trans ((formsAct depth).arguments _ _)
      · exact .refl
    unfold arguments
    dsimp only
    refine hcounted.branch (hrest depth _ _).actions (hrest depth' _ _).actions fun hr => ?_
    rw [hr.sees_eq (by simp)]
    split
    · next hsees =>
      have hnoEnd := not_sees_end_of_sees hsees (by simp)
      have hpos : 0 < n := Nat.lt_of_lt_of_le (Nat.zero_lt_of_lt (left_read_lt hnoEnd)) hr.left
      exact ((h.arguments (n - 1) (by omega)).keeps (hcounted.read_lt hnoEnd)).weaken
        (Nat.sub_le n 1)
    · exact hcounted

/-- Expressions keep two compilations abreast. -/
theorem expressionsAbreast (σ : Latitude) {depth depth' : Nat} (h : depth ≤ depth') :
    ExpressionsAbreast σ depth depth' := by
  induction depth generalizing depth' with
  | zero =>
    exact ⟨fun _ _ hn => absurd hn (by omega), fun _ _ hn => absurd hn (by omega),
      fun _ hn => absurd hn (by omega)⟩
  | succ depth ih =>
    obtain ⟨depth', rfl⟩ : ∃ k, depth' = k + 1 := ⟨depth' - 1, by omega⟩
    have hinside := ih (Nat.le_of_succ_le_succ h)
    exact ⟨fun level _ hn => expression_succ hinside level hn,
      fun level _ hn => continuations_succ hinside level hn,
      fun _ hn => arguments_succ hinside hn⟩

end Mutual

end ScriptEngine.Compile
