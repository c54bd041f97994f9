import ScriptEngine.Proofs.Acceptance
import ScriptEngine.Proofs.Compile.Bare
import ScriptEngine.Proofs.Tree.ExpressionWriting
import ScriptEngine.Proofs.Tree.Rendering
set_option autoImplicit false

/-!
# Compilation: the ladder of operators

What is written for an expression does not depend on how it is rendered: `Expression.write` says
what is written without any words, and compiling a rendering does just that
(`reads_expression`).  Parentheses leave no trace, and where there are none the ladder of operators
finds the same operands.

Where the operands of an operator end, the loop over operators may go on, because the tree is
nested and the loop is flat.  `Pauses` says that the loop has come to the end of a rendering, and
what is left of it to do.
-/

namespace ScriptEngine.Tree

open Compile Compile.State

/-! ## What is written -/

/-- Writes a literal. -/
def Literal.write : Literal → Pass
  | number digits, s =>
      match Decimal.ofText? digits with
      | some d => s.pushLiteral (.number d.toFloat)
      | none => s.complain .notANumber
  | string text, s => s.pushLiteral (.string text)
  | boolean true, s => s.appendOp .true
  | boolean false, s => s.appendOp .false
  | nil, s => s.appendOp .nil

mutual

/-- Writes an expression. -/
def Expression.write : Expression → Pass
  | .literal l, s => l.write s
  | .name x, s =>
      let (place, s) := s.resolve x
      s.appendWith place.getOp place.operand
  | .assign x e, s =>
      let (place, s) := s.resolve x
      (e.write s).appendWith place.setOp place.operand
  | .unary op e, s => s.unaryForm (fun _ => e.write) op
  | .binary op l r, s => (l.write s).binaryForm (fun _ => r.write) op
  | .and l r, s => (l.write s).andForm fun _ => r.write
  | .or l r, s => (l.write s).orForm fun _ => r.write
  | .call callee [], s => (callee.write s).appendWith .call 0
  | .call callee (e :: es), s =>
      let (count, s) := writeLater es ((e.write (callee.write s)).countArgument 0)
      s.appendWith .call count
termination_by structural e => e

/-- Writes the arguments after some others, and counts them. -/
def writeLater : List Expression → Nat × State → Nat × State
  | [], counted => counted
  | e :: es, counted => writeLater es ((e.write counted.2).countArgument counted.1)
termination_by structural es => es

end

end ScriptEngine.Tree

namespace ScriptEngine.Compile

open State ScriptEngine.Tree

/-! ## The loop of operators -/

/-- The next word neither assigns nor goes on with an operator as tight as a level. -/
structure Closes (level : Precedence) (next : Word) : Prop where
  noAssignment : next.kind ≠ .equal
  noOperator : ∀ c, next.kind.continuation? = some c → ¬ level ≤ c.precedence

theorem Closes.mono {p q : Precedence} {next : Word} (h : Closes p next) (hpq : p ≤ q) :
    Closes q next :=
  ⟨h.noAssignment, fun c hc hle => h.noOperator c hc (Nat.le_trans hpq hle)⟩

/-- The loop over the operators of a level goes on before some words, after `t` has been
written. -/
def Pauses (line : Nat) (level : Precedence) (ws : List Word) (u t : State) : Prop :=
  ∃ depth s, Reads line ws s t ∧ 2 * ws.length + 1 ≤ depth ∧
    u = (continuations depth level s).refuseAssignment (decide (level ≤ .assignment))

section Loop

variable {line : Nat} {level : Precedence} {w next : Word} {ws rest : List Word} {s t u : State}

/-- The loop ends where no operator of its level follows. -/
theorem Pauses.reads (h : Pauses line level (next :: rest) u t) (hnext : Closes level next) :
    Reads line (next :: rest) u t := by
  obtain ⟨depth, s, hs, hdepth, rfl⟩ := h
  obtain ⟨depth, rfl⟩ : ∃ d, depth = d + 1 := ⟨depth - 1, by omega⟩
  have hrest : continuations (depth + 1) level s = s.tick := by
    unfold continuations
    rw [hs.kind]
    split
    · rfl
    · next c hc => exact if_neg (hnext.noOperator c hc)
  have hsees : s.tick.sees .equal = false := by
    rw [hs.tick.sees]
    exact beq_eq_false_iff_ne.mpr hnext.noAssignment
  rw [hrest]
  unfold refuseAssignment
  rw [hsees, Bool.and_false]
  exact hs.tick

/-- An operator of the level is read, and its form is carried out. -/
theorem Pauses.continue {c : Continuation} {f : Pass} (h : Pauses line level (w :: ws) u t)
    (hc : w.kind.continuation? = some c) (hlevel : level ≤ c.precedence) (hne : ws ≠ [])
    (hlen : (next :: rest).length ≤ ws.length)
    (hform : ∀ (depth : Nat) (s : State), 2 * ws.length + 2 ≤ depth → Reads line ws s t →
      Reads line (next :: rest) (s.continueExpression (expression depth) (arguments depth 0) c)
        (f t)) :
    Pauses line level (next :: rest) u (f t) := by
  obtain ⟨depth, s, hs, hdepth, rfl⟩ := h
  rw [List.length_cons] at hdepth
  obtain ⟨depth, rfl⟩ : ∃ d, depth = d + 1 := ⟨depth - 1, by omega⟩
  obtain ⟨v, vs, rfl⟩ := List.exists_cons_of_ne_nil hne
  have hunfold : continuations (depth + 1) level s = continuations depth level
      (s.tick.read.continueExpression (expression depth) (arguments depth 0) c) := by
    rw [continuations, hs.kind, hc]
    exact if_pos hlevel
  exact ⟨depth, _, hform depth _ (by omega) hs.tick.read.1, by omega, by rw [hunfold]⟩

/-- The word that opens an expression is read, and its form is carried out. -/
theorem pauses_open {depth : Nat} {o : Opening} {f : Pass} (hs : Reads line (w :: ws) s t)
    (hopening : w.kind.opening? = some o) (hdepth : 2 * (w :: ws).length + 1 ≤ depth)
    (hne : ws ≠ []) (hlen : (next :: rest).length ≤ ws.length)
    (hform : ∀ (depth : Nat) (s : State), 2 * ws.length + 2 ≤ depth → Reads line ws s t →
      wordOf s.previous = w →
      Reads line (next :: rest)
        (s.openExpression (expression depth) (decide (level ≤ .assignment)) o) (f t)) :
    Pauses line level (next :: rest) (expression depth level s) (f t) := by
  rw [List.length_cons] at hdepth
  obtain ⟨depth, rfl⟩ : ∃ d, depth = d + 1 := ⟨depth - 1, by omega⟩
  obtain ⟨v, vs, rfl⟩ := List.exists_cons_of_ne_nil hne
  obtain ⟨hread, hprevious⟩ := hs.tick.read
  have hkind : s.tick.read.previous.kind.opening? = some o := by
    rw [← hopening, ← hprevious]
    rfl
  refine ⟨depth, _, hform depth _ (by omega) hread hprevious, by omega, ?_⟩
  rw [expression, hkind]

end Loop

/-! ## Levels -/

/-- The level of the loosest operator that must not follow a rendering of a level. -/
def followLevel : Precedence → Precedence
  | .or => .or
  | .and => .and
  | .unary => .unary
  | p => p.next

theorem followLevel_mono {p q : Precedence} (h : p ≤ q) : followLevel p ≤ followLevel q := by
  revert h
  cases p <;> cases q <;> decide

theorem le_followLevel (p : Precedence) : p ≤ followLevel p := by
  cases p <;> decide

/-- Behind an expression of the loosest level no operator follows at all. -/
theorem Closes.of_or {next : Word} (h : Closes .or next) (p : Precedence) : Closes p next where
  noAssignment := h.noAssignment
  noOperator c hc _ := h.noOperator c hc (precedence_continuation_pos c)

theorem closes_of_calm {next : Word} (h : Calm next) (p : Precedence) : Closes p next where
  noAssignment := h.2
  noOperator c hc := by
    rw [h.1] at hc
    cases hc

/-- A binary operator is too loose for its left operand. -/
theorem closes_binaryMark (op : BinaryOperator) :
    Closes (followLevel op.precedence) (binaryMark op) where
  noAssignment := by cases op <;> exact nofun
  noOperator c hc := by
    rw [continuation_binaryMark] at hc
    cases hc
    cases op <;> decide

theorem followLevel_binary (op : BinaryOperator) :
    followLevel op.precedence = op.precedence.next := by
  cases op <;> rfl

/-! ## Renderings are read -/

/-- The arguments behind one that has been read. -/
def argumentsBehind (depth count : Nat) (s : State) : Nat × State :=
  if s.sees .comma then arguments depth count s.read else (count, s)

theorem arguments_eq (depth count : Nat) (s : State) :
    arguments (depth + 1) count s =
      argumentsBehind depth ((expression depth .assignment s.tick).countArgument count).1
        ((expression depth .assignment s.tick).countArgument count).2 := by
  rw [arguments]
  rfl

/-- Where a rendering is ahead, the compiler reads it and writes the part. -/
def ReadsPart (line : Nat) : Part → List Word → Prop
  | .expression e p, ws =>
      ∀ (next : Word) (rest : List Word), Closes (followLevel p) next →
        ∀ level ≤ p, ∀ depth, 2 * (ws ++ next :: rest).length + 1 ≤ depth →
        ∀ s t, Reads line (ws ++ next :: rest) s t →
          Pauses line level (next :: rest) (expression depth level s) (e.write t)
  | .later es, ws =>
      ∀ (rest : List Word) (depth : Nat), 2 * (ws ++ mark .rightParen :: rest).length ≤ depth →
        ∀ count s t, Reads line (ws ++ mark .rightParen :: rest) s t →
          (writeLater es (count, t)).1 = (argumentsBehind depth count s).1 ∧
            Reads line (mark .rightParen :: rest) (argumentsBehind depth count s).2
              (writeLater es (count, t)).2

section Parts

variable {line : Nat} {p level : Precedence} {e l r : Expression} {es : List Expression}
  {ws ws' : List Word} {next : Word} {rest : List Word} {depth : Nat} {s t : State}

/-- An expression is read as a whole where nothing that follows belongs to it. -/
theorem ReadsPart.reads (h : ReadsPart line (.expression e p) ws) (hnext : Closes p next)
    (hdepth : 2 * (ws ++ next :: rest).length + 1 ≤ depth)
    (hs : Reads line (ws ++ next :: rest) s t) :
    Reads line (next :: rest) (expression depth p s) (e.write t) :=
  (h next rest (hnext.mono (le_followLevel p)) p (Nat.le_refl _) depth hdepth s t hs).reads hnext

/-! ### Single words -/

theorem readsPart_word {w : Word} {o : Opening} (hopening : w.kind.opening? = some o)
    (hform : ∀ {next : Word} {rest : List Word} (depth : Nat) (mayAssign : Bool) {s t : State},
      next.kind ≠ .equal → Reads line (next :: rest) s t → wordOf s.previous = w →
      Reads line (next :: rest) (s.openExpression (expression depth) mayAssign o)
        (e.write t)) :
    ReadsPart line (.expression e p) [w] := by
  intro next rest hnext level _ depth hdepth s t hs
  exact pauses_open hs hopening hdepth (List.cons_ne_nil _ _) (Nat.le_refl _)
    fun depth s _ hs hprevious => hform depth _ hnext.noAssignment hs hprevious

theorem readsPart_literal (l : Literal) : ReadsPart line (.expression (.literal l) p) [l.word] := by
  cases l with
  | number digits =>
    refine readsPart_word rfl fun depth mayAssign s t _ hs hprevious => ?_
    have hdigits : s.previous.lexeme = digits := congrArg Word.text hprevious
    show Reads line _ s.numberForm (match Decimal.ofText? digits with
      | some d => t.pushLiteral (.number d.toFloat)
      | none => t.complain .notANumber)
    unfold numberForm
    rw [hdigits]
    cases Decimal.ofText? digits with
    | some d => exact hs.blind (blind_pushLiteral _)
    | none => exact hs.blind (blind_complain _)
  | string text =>
    refine readsPart_word rfl fun depth mayAssign s t _ hs hprevious => ?_
    have htext : s.previous.lexeme = "\"" ++ text ++ "\"" := congrArg Word.text hprevious
    show Reads line _ (s.pushLiteral (.string (unquoted s.previous.lexeme))) _
    rw [htext, unquoted_quoted]
    exact hs.blind (blind_pushLiteral _)
  | boolean b =>
    cases b with
    | true =>
      refine readsPart_word (o := .literal .true) rfl fun _ _ s t _ hs _ => ?_
      exact hs.blind (blind_appendOp .true)
    | false =>
      refine readsPart_word (o := .literal .false) rfl fun _ _ s t _ hs _ => ?_
      exact hs.blind (blind_appendOp .false)
  | nil =>
    refine readsPart_word (o := .literal .nil) rfl fun _ _ s t _ hs _ => ?_
    exact hs.blind (blind_appendOp .nil)

theorem readsPart_name (x : String) :
    ReadsPart line (.expression (.name x) p) [⟨.identifier, x⟩] := by
  refine readsPart_word rfl fun depth mayAssign s t hequal hs hprevious => ?_
  have hname : s.previous.lexeme = x := congrArg Word.text hprevious
  have hresolved := hs.blind (blind_resolve x).toBlind
  show Reads line _ (s.nameForm (expression depth .assignment) mayAssign) _
  unfold nameForm Expression.write
  dsimp only
  rw [hname, hresolved.sees, beq_eq_false_iff_ne.mpr hequal, Bool.and_false,
    hs.answer (blind_resolve x)]
  exact hresolved.blind (blind_appendWith _ _)

/-! ### Assignments and unary operators -/

theorem readsPart_assign {x : String} (hp : p ≤ .assignment)
    (hvalue : ReadsPart line (.expression e .assignment) ws) :
    ReadsPart line (.expression (.assign x e) p) (⟨.identifier, x⟩ :: mark .equal :: ws) := by
  intro next rest hnext level hlevel depth hdepth s t hs
  rw [List.cons_append, List.cons_append] at hs hdepth
  refine pauses_open (o := .name) hs rfl hdepth (by simp) (by simp; omega) ?_
  intro depth s hdepth hs hprevious
  have hname : s.previous.lexeme = x := congrArg Word.text hprevious
  have hresolved := hs.blind (blind_resolve x).toBlind
  have hclosed := (hnext.mono (followLevel_mono hp)).of_or .assignment
  show Reads line _ (s.nameForm (expression depth .assignment) _) _
  unfold nameForm Expression.write
  dsimp only
  have hmay : decide (level ≤ .assignment) = true := decide_eq_true (Nat.le_trans hlevel hp)
  rw [hname, hresolved.sees, hmay, hs.answer (blind_resolve x)]
  have hread : Reads line (ws ++ next :: rest) (s.resolve x).2.read (t.resolve x).2 := by
    obtain ⟨v, vs, hvs⟩ := List.exists_cons_of_ne_nil (l := ws ++ next :: rest) (by simp)
    rw [hvs] at hresolved ⊢
    exact hresolved.read.1
  have hdepth' : 2 * (ws ++ next :: rest).length + 1 ≤ depth := by
    rw [List.length_cons] at hdepth
    omega
  exact (hvalue.reads hclosed hdepth' hread).blind (blind_appendWith _ _)

theorem readsPart_unary {op : UnaryOperator} (hp : p ≤ .unary)
    (hoperand : ReadsPart line (.expression e .unary) ws) :
    ReadsPart line (.expression (.unary op e) p) (unaryMark op :: ws) := by
  intro next rest hnext level hlevel depth hdepth s t hs
  rw [List.cons_append] at hs hdepth
  refine pauses_open hs (opening_unaryMark op) hdepth (by simp) (by simp) ?_
  intro depth s hdepth hs _
  have hclosed := hnext.mono (followLevel_mono hp)
  exact (hoperand.reads hclosed (by omega) hs).blind (blind_appendOp _)

/-! ### Operators between two operands -/

theorem readsPart_operation {c : Continuation} {f : Pass} {e : Expression} {w : Word}
    {v : List Word}
    (hwrite : ∀ t, e.write t = f (l.write t)) (hw : w.kind.continuation? = some c)
    (hp : p ≤ c.precedence) {q : Precedence} (hq : c.precedence ≤ q)
    (hleft : ReadsPart line (.expression l q) ws)
    (hclosed : Closes (followLevel q) w)
    (hform : ∀ {next : Word} {rest : List Word}, Closes (followLevel c.precedence) next →
      ∀ {depth : Nat} {s t : State}, 2 * (v ++ next :: rest).length + 2 ≤ depth →
      Reads line (v ++ next :: rest) s t → Reads line (next :: rest)
        (s.continueExpression (expression depth) (arguments depth 0) c) (f t)) :
    ReadsPart line (.expression e p) (ws ++ w :: v) := by
  intro next rest hnext level hlevel depth hdepth s t hs
  rw [List.append_assoc, List.cons_append] at hs hdepth
  have hlevel' := Nat.le_trans hlevel hp
  have hpaused := hleft _ _ hclosed level (Nat.le_trans hlevel' hq) depth hdepth s t hs
  rw [hwrite]
  exact hpaused.continue hw hlevel' (by simp) (by simp) fun depth s hdepth hs =>
    hform (hnext.mono (followLevel_mono hp)) hdepth hs

theorem readsPart_binary {op : BinaryOperator} (hp : p ≤ op.precedence)
    (hleft : ReadsPart line (.expression l op.precedence) ws)
    (hright : ReadsPart line (.expression r op.precedence.next) ws') :
    ReadsPart line (.expression (.binary op l r) p) (ws ++ binaryMark op :: ws') := by
  refine readsPart_operation (e := .binary op l r)
    (f := fun s => s.binaryForm (fun _ => r.write) op) (fun _ => rfl) (continuation_binaryMark op) hp (Nat.le_refl _) hleft (closes_binaryMark op) ?_
  intro next rest hnext depth s t hdepth hs
  rw [show (Continuation.binary op).precedence = op.precedence from rfl, followLevel_binary]
    at hnext
  exact (hright.reads hnext (by omega) hs).blind (blind_foldl blind_appendOp _)

theorem readsPart_and (hp : p ≤ .and)
    (hleft : ReadsPart line (.expression l Precedence.and.next) ws)
    (hright : ReadsPart line (.expression r .and) ws') :
    ReadsPart line (.expression (.and l r) p) (ws ++ mark .andWord :: ws') := by
  have hclosed : Closes (followLevel Precedence.and.next) (mark .andWord) := by
    refine ⟨nofun, fun c hc => ?_⟩
    cases hc
    decide
  refine readsPart_operation (e := .and l r) (c := .and) (f := fun s => s.andForm fun _ => r.write)
    (fun _ => rfl) rfl hp (by decide) hleft hclosed ?_
  intro next rest hnext depth s t hdepth hs
  show Reads line _ (s.andForm (expression depth)) _
  unfold andForm
  dsimp only
  rw [hs.answer (blind_openJump .jumpIfFalse)]
  have hopened := (hs.blind (blind_openJump .jumpIfFalse).toBlind).blind (blind_appendOp .pop)
  exact (hright.reads hnext (by omega) hopened).blind (blind_landJump _)

theorem readsPart_or (hp : p ≤ .or)
    (hleft : ReadsPart line (.expression l Precedence.or.next) ws)
    (hright : ReadsPart line (.expression r .or) ws') :
    ReadsPart line (.expression (.or l r) p) (ws ++ mark .orWord :: ws') := by
  have hclosed : Closes (followLevel Precedence.or.next) (mark .orWord) := by
    refine ⟨nofun, fun c hc => ?_⟩
    cases hc
    decide
  refine readsPart_operation (e := .or l r) (c := .or) (f := fun s => s.orForm fun _ => r.write)
    (fun _ => rfl) rfl hp (by decide) hleft hclosed ?_
  intro next rest hnext depth s t hdepth hs
  show Reads line _ (s.orForm (expression depth)) _
  unfold orForm
  dsimp only
  have hfirst := hs.blind (blind_openJump .jumpIfFalse).toBlind
  rw [hs.answer (blind_openJump .jumpIfFalse), hfirst.answer (blind_openJump .jump)]
  have hsecond := hfirst.blind (blind_openJump .jump).toBlind
  have hopened := (hsecond.blind (blind_landJump (s.openJump .jumpIfFalse).1)).blind
    (blind_appendOp .pop)
  exact (hright.reads hnext (by omega) hopened).blind (blind_landJump _)

/-! ### Groups and calls -/

theorem readsPart_group (hinner : ReadsPart line (.expression e .assignment) ws) :
    ReadsPart line (.expression e p) (parens ws) := by
  intro next rest _ level _ depth hdepth s t hs
  rw [parens, List.cons_append, List.cons_append, List.append_assoc] at hs hdepth
  refine pauses_open (o := .group) hs rfl hdepth (by simp) (by simp; omega) ?_
  intro depth s hdepth hs _
  have hread : Reads line (mark .rightParen :: next :: rest) (expression depth .assignment s)
      (e.write t) :=
    hinner.reads (closes_of_calm calm_rightParen _) (Nat.le_trans (Nat.le_succ _) hdepth) hs
  exact hread.require rfl _

theorem closes_leftParen : Closes (followLevel .call) (mark .leftParen) := by
  refine ⟨nofun, fun c hc => ?_⟩
  cases hc
  decide

theorem readsPart_emptyCall {callee : Expression} (hp : p ≤ .call)
    (hfirst : ReadsPart line (.expression callee .call) ws) :
    ReadsPart line (.expression (.call callee []) p) (ws ++ parens []) := by
  refine readsPart_operation (e := .call callee []) (c := .call) (v := [mark .rightParen])
    (f := fun s => s.appendWith .call 0) (fun _ => rfl) rfl hp (by decide) hfirst
    closes_leftParen ?_
  intro next rest _ depth s t _ hs
  show Reads line _ (s.callForm (arguments depth 0)) _
  unfold callForm
  rw [if_pos (by rw [hs.sees]; rfl)]
  exact (hs.require rfl _).blind (blind_appendWith _ _)

theorem opens_of_renders (h : Renders (.expression e p) ws) :
    ∃ w vs o, ws = w :: vs ∧ w.kind.opening? = some o := by
  generalize hpart : Part.expression e p = part at h
  induction h generalizing e p with
  | literal l p =>
    cases l with
    | boolean b => cases b <;> exact ⟨_, _, _, rfl, rfl⟩
    | _ => exact ⟨_, _, _, rfl, rfl⟩
  | name | assign => exact ⟨_, _, .name, rfl, rfl⟩
  | @unary op => exact ⟨_, _, _, rfl, opening_unaryMark op⟩
  | binary _ _ _ ihleft | and _ _ _ ihleft | or _ _ _ ihleft | emptyCall _ _ ihleft
  | call _ _ _ _ ihleft =>
    obtain ⟨w, vs, o, rfl, ho⟩ := ihleft rfl
    exact ⟨w, _, o, rfl, ho⟩
  | group => exact ⟨_, _, .group, rfl, rfl⟩
  | noMore | more => cases hpart

/-- Behind an argument stands a comma or the end of the list. -/
theorem calm_of_later (h : Renders (.later es) ws) (rest : List Word) :
    ∃ next rest', ws ++ mark .rightParen :: rest = next :: rest' ∧ Calm next := by
  cases h with
  | noMore => exact ⟨_, _, rfl, calm_rightParen⟩
  | more _ _ => exact ⟨mark .comma, _, rfl, rfl, nofun⟩

/-- One argument is read with all that follow. -/
theorem reads_arguments (hvalue : ReadsPart line (.expression e .assignment) ws)
    (hrenders : Renders (.later es) ws') (hmore : ReadsPart line (.later es) ws')
    (hdepth : 2 * (ws ++ (ws' ++ mark .rightParen :: rest)).length + 2 ≤ depth) (count : Nat)
    (hs : Reads line (ws ++ (ws' ++ mark .rightParen :: rest)) s t) :
    (writeLater es ((e.write t).countArgument count)).1 = (arguments depth count s).1 ∧
      Reads line (mark .rightParen :: rest) (arguments depth count s).2
        (writeLater es ((e.write t).countArgument count)).2 := by
  obtain ⟨depth, rfl⟩ : ∃ d, depth = d + 1 := ⟨depth - 1, by omega⟩
  obtain ⟨next, rest', hrest, hcalm⟩ := calm_of_later hrenders rest
  have hread : Reads line (ws' ++ mark .rightParen :: rest)
      (expression depth .assignment s.tick) (e.write t) := by
    rw [hrest] at hdepth hs ⊢
    exact hvalue.reads (closes_of_calm hcalm _) (by omega) hs.tick
  have hcounted := hread.blind (blind_countArgument count).toBlind
  have hanswer := hread.answer (blind_countArgument count)
  rw [arguments_eq, ← hanswer]
  refine hmore rest depth ?_ _ _ _ hcounted
  rw [List.length_append] at hdepth
  omega

theorem readsPart_call {callee : Expression} {ws'' : List Word} (hp : p ≤ .call)
    (hfirst : ReadsPart line (.expression callee .call) ws)
    (hopens : ∃ w vs o, ws' = w :: vs ∧ w.kind.opening? = some o)
    (hvalue : ReadsPart line (.expression e .assignment) ws')
    (hrenders : Renders (.later es) ws'') (hmore : ReadsPart line (.later es) ws'') :
    ReadsPart line (.expression (.call callee (e :: es)) p) (ws ++ parens (ws' ++ ws'')) := by
  refine readsPart_operation (e := .call callee (e :: es)) (c := .call)
    (v := ws' ++ ws'' ++ [mark .rightParen])
    (f := fun s => (writeLater es ((e.write s).countArgument 0)).2.appendWith .call
      (writeLater es ((e.write s).countArgument 0)).1)
    (fun _ => rfl) rfl hp (by decide) hfirst closes_leftParen ?_
  intro next rest _ depth s t hdepth hs
  have hwords : ws' ++ ws'' ++ [mark .rightParen] ++ next :: rest =
      ws' ++ (ws'' ++ mark .rightParen :: next :: rest) := by simp
  rw [hwords] at hs hdepth
  have hsees : s.sees .rightParen = false := by
    obtain ⟨w, vs, o, rfl, ho⟩ := hopens
    rw [List.cons_append] at hs
    rw [hs.sees]
    refine beq_eq_false_iff_ne.mpr fun hkind => ?_
    rw [hkind] at ho
    cases ho
  obtain ⟨hcount, hread⟩ := reads_arguments hvalue hrenders hmore hdepth 0 hs
  show Reads line _ (s.callForm (arguments depth 0)) _
  unfold callForm
  rw [hsees, hcount]
  exact (hread.require rfl _).blind (blind_appendWith _ _)

theorem readsPart_more (hvalue : ReadsPart line (.expression e .assignment) ws)
    (hopens : ∃ w vs o, ws = w :: vs ∧ w.kind.opening? = some o)
    (hrenders : Renders (.later es) ws') (hmore : ReadsPart line (.later es) ws') :
    ReadsPart line (.later (e :: es)) (mark .comma :: ws ++ ws') := by
  intro rest depth hdepth count s t hs
  rw [List.cons_append, List.cons_append, List.append_assoc] at hs hdepth
  have hread : Reads line (ws ++ (ws' ++ mark .rightParen :: rest)) s.read t := by
    obtain ⟨w, vs, -, rfl, -⟩ := hopens
    exact hs.read.1
  unfold argumentsBehind
  rw [if_pos (by rw [hs.sees]; rfl)]
  exact reads_arguments hvalue hrenders hmore (by rw [List.length_cons] at hdepth; omega) count
    hread

end Parts

/-- Whatever the rendering of a part is, compiling it does what writing the part does. -/
theorem readsPart (line : Nat) {part : Part} {ws : List Word} (h : Renders part ws) :
    ReadsPart line part ws := by
  induction h with
  | literal l p => exact readsPart_literal l
  | name x p => exact readsPart_name x
  | assign level _ ih => exact readsPart_assign level ih
  | unary level _ ih => exact readsPart_unary level ih
  | binary level _ _ ihleft ihright => exact readsPart_binary level ihleft ihright
  | and level _ _ ihleft ihright => exact readsPart_and level ihleft ihright
  | or level _ _ ihleft ihright => exact readsPart_or level ihleft ihright
  | emptyCall level _ ih => exact readsPart_emptyCall level ih
  | call level _ value more ihfirst ihvalue ihmore =>
    exact readsPart_call level ihfirst (opens_of_renders value) ihvalue more ihmore
  | group _ ih => exact readsPart_group ih
  | noMore =>
    intro rest depth _ count s t hs
    unfold argumentsBehind
    rw [if_neg (by rw [List.nil_append] at hs; rw [hs.sees]; decide)]
    exact ⟨rfl, hs⟩
  | more value more ihvalue ihmore =>
    exact readsPart_more ihvalue (opens_of_renders value) more ihmore

/-! ## Programs that return an expression -/

theorem isQuiet_bare (s : State) : s.bare.IsQuiet ↔ s.IsQuiet := by
  unfold IsQuiet bare
  split <;> simp_all

theorem isQuiet_iff_of_bare {s t : State} (h : t.bare = s.bare) : t.IsQuiet ↔ s.IsQuiet := by
  rw [← isQuiet_bare t, ← isQuiet_bare s, h]

/-- The source consists of a return of what some words stand for, all on one line. -/
structure Returns (source : String) (ws : List Word) : Prop where
  words : (scan source).map wordOf = mark .returnWord :: ws ++ [mark .endOfSource]
  line : ∀ token ∈ scan source, token.line = 1

/-- The compiler after a return of an expression. -/
def writeReturn (firstId : Identity) (e : Expression) : State :=
  ((e.write (initial firstId []).checkpoint).appendOp .return).checkpoint

theorem blind_checkpoint : Blind fun s => s.checkpoint :=
  ⟨fun _ => rfl, fun _ => rfl, fun s => by simp [State.bare, checkpoint, Builder.checkpoint]⟩

theorem valid_of_renders {part : Part} {ws : List Word} (h : Renders part ws) :
    ∀ w ∈ ws, w.kind ≠ .invalid := by
  have hparens : ∀ {ws : List Word}, (∀ w ∈ ws, w.kind ≠ .invalid) →
      ∀ w ∈ parens ws, w.kind ≠ .invalid := by
    intro ws hws w hw
    simp only [parens, List.mem_append, List.mem_cons, List.not_mem_nil, or_false] at hw
    rcases hw with (rfl | hw) | rfl
    exacts [nofun, hws w hw, nofun]
  induction h with
  | literal l p =>
    refine List.forall_mem_singleton.mpr ?_
    cases l with
    | boolean b => cases b <;> exact nofun
    | _ => exact nofun
  | name x p => exact List.forall_mem_singleton.mpr nofun
  | assign _ _ ih =>
    exact List.forall_mem_cons.mpr ⟨nofun, List.forall_mem_cons.mpr ⟨nofun, ih⟩⟩
  | @unary op _ _ _ _ _ ih =>
    exact List.forall_mem_cons.mpr ⟨by cases op <;> exact nofun, ih⟩
  | @binary op _ _ _ _ _ _ _ _ ihleft ihright =>
    exact List.forall_mem_append.mpr
      ⟨ihleft, List.forall_mem_cons.mpr ⟨by cases op <;> exact nofun, ihright⟩⟩
  | and _ _ _ ihleft ihright | or _ _ _ ihleft ihright =>
    exact List.forall_mem_append.mpr ⟨ihleft, List.forall_mem_cons.mpr ⟨nofun, ihright⟩⟩
  | emptyCall _ _ ih =>
    exact List.forall_mem_append.mpr ⟨ih, hparens (List.forall_mem_nil _)⟩
  | call _ _ _ _ ihfirst ihvalue ihmore =>
    exact List.forall_mem_append.mpr
      ⟨ihfirst, hparens (List.forall_mem_append.mpr ⟨ihvalue, ihmore⟩)⟩
  | group _ ih => exact hparens ih
  | noMore => exact List.forall_mem_nil _
  | more _ _ ihvalue ihmore =>
    exact List.forall_mem_append.mpr ⟨List.forall_mem_cons.mpr ⟨nofun, ihvalue⟩, ihmore⟩

section Returns

variable {source : String} {e : Expression} {ws : List Word}

/-- At the start all words of the source are ahead. -/
theorem reads_start (firstId : Identity) (h : Returns source ws)
    (hrenders : Renders (.expression e .assignment) ws) :
    Reads 1 (mark .returnWord :: ws ++ [mark .endOfSource]) (initial firstId (scan source)).read
      (initial firstId []) := by
  have hvalid : ∀ w ∈ mark .endOfSource :: (mark .returnWord :: ws ++ [mark .endOfSource]),
      w.kind ≠ .invalid :=
    List.forall_mem_cons.mpr ⟨nofun, List.forall_mem_append.mpr
      ⟨List.forall_mem_cons.mpr ⟨nofun, valid_of_renders hrenders⟩,
        List.forall_mem_singleton.mpr nofun⟩⟩
  have hspelled : (initial firstId (scan source)).spelled =
      mark .endOfSource :: (mark .returnWord :: ws ++ [mark .endOfSource]) :=
    congrArg (mark .endOfSource :: ·) h.words
  have hinitial : Reads 1 (mark .endOfSource :: (mark .returnWord :: ws ++ [mark .endOfSource]))
      (initial firstId (scan source)) (initial firstId []) := by
    refine ⟨hspelled, fun token htoken => ?_, ?_, rfl⟩
    · exact hvalid (wordOf token) (hspelled ▸ List.mem_map_of_mem htoken)
    · exact List.forall_mem_cons.mpr ⟨rfl, List.forall_mem_cons.mpr ⟨rfl, h.line⟩⟩
  exact hinitial.read.1

/-- The return is read and written, and the end of the source is ahead. -/
theorem reads_anyForm {s t : State} (hrenders : Renders (.expression e .assignment) ws)
    {depth : Nat} (hdepth : 2 * (ws.length + 1) + 1 ≤ depth)
    (hs : Reads 1 (mark .returnWord :: ws ++ [mark .endOfSource]) s t) :
    Reads 1 [mark .endOfSource]
      (s.anyForm (expression depth .assignment) (declaration depth) (declarations depth))
      ((e.write t).appendOp .return) := by
  obtain ⟨w, vs, o, hws, ho⟩ := opens_of_renders hrenders
  have hread : Reads 1 (ws ++ [mark .endOfSource]) s.read t := by
    rw [hws] at hs ⊢
    exact hs.read.1
  have hends : (s.read.sees .rightBrace || s.read.sees .endOfSource) = false := by
    rw [hws, List.cons_append] at hread
    rw [hread.sees, hread.sees, Bool.or_eq_false_iff, beq_eq_false_iff_ne, beq_eq_false_iff_ne]
    constructor <;> rintro hkind <;> rw [hkind] at ho <;> cases ho
  have hcalm : Calm (mark .endOfSource) := ⟨rfl, nofun⟩
  have hdepth' : 2 * (ws ++ [mark .endOfSource]).length + 1 ≤ depth := by
    rw [List.length_append]
    exact hdepth
  have hwritten := (readsPart 1 hrenders).reads (closes_of_calm hcalm .assignment) hdepth' hread
  have hform : s.anyForm (expression depth .assignment) (declaration depth) (declarations depth) =
      s.read.returnForm (expression depth .assignment) := by
    unfold anyForm
    rw [hs.kind]
    rfl
  rw [hform]
  unfold returnForm
  rw [hends]
  exact hwritten.blind (blind_appendOp .return)

/-- Behind the last word there is only the end to read. -/
theorem Reads.read_end {line : Nat} {w : Word} {s t : State} (hs : Reads line [w] s t) :
    s.read =
      { s with
        previous := s.current
        current := .endAt s.current.line
        rest := []
        work := s.work + 1 } := by
  have hrest : s.rest = [] := List.map_eq_nil_iff.mp (List.cons.inj hs.spelled).2
  unfold State.read
  rw [hrest]
  rfl

/-- What becomes of the source is decided by what is written for the expression. -/
theorem outcome_of_renders (firstId : Identity) (h : Returns source ws)
    (hrenders : Renders (.expression e .assignment) ws) :
    (writeReturn firstId e).IsQuiet ∧ (compile firstId source).outcome =
        .ok ((writeReturn firstId e).builder.finish (writeReturn firstId e).nextId) ∨
      ¬ (writeReturn firstId e).IsQuiet ∧
        ∃ diagnostics, (compile firstId source).outcome = .error diagnostics := by
  have hlen : (scan source).length = ws.length + 2 := by
    have hlength := congrArg List.length h.words
    simpa using hlength
  obtain ⟨depth, hdepth⟩ : ∃ d, depthFor (scan source).length = d + 1 := ⟨_, rfl⟩
  have hdepth' : 2 * (ws.length + 1) + 1 ≤ depth := by
    unfold depthFor at hdepth
    omega
  have hstart := reads_start firstId h hrenders
  have hs := (hstart.tick.tick).blind blind_checkpoint
  -- the declaration, before what is done about mistakes in it
  generalize hr : (initial firstId (scan source)).read.tick.tick.checkpoint.anyForm
    (expression depth .assignment) (declaration depth) (declarations depth) = r
  have hwritten := (reads_anyForm hrenders hdepth' hs).blind blind_checkpoint
  rw [hr] at hwritten
  have hsame : (writeReturn firstId e).bare = r.checkpoint.bare := hwritten.same
  have hquiet : (writeReturn firstId e).IsQuiet ↔ r.checkpoint.IsQuiet := isQuiet_iff_of_bare hsame
  have hprogram : compileTokens firstId (scan source) =
      program (depth + 1) (ws.length + 3) r.recover.checkpoint := by
    unfold compileTokens
    rw [hdepth, hlen, program, if_neg (by rw [hstart.sees]; decide), declaration, hr]
  have hforms := formsAct depth
  have hbefore : Actions (initial firstId (scan source)) r := by
    have hacts := (Edit.read (initial firstId (scan source))).edits.actions.trans
      ((Edit.tick _).edits.actions.trans ((Edit.tick _).edits.actions.trans
        ((Action.checkpoint _).actions.trans (actions_anyForm (hforms.expression .assignment)
          hforms.declaration hforms.declarations _))))
    rwa [hr] at hacts
  have hafter : Actions r (compileTokens firstId (scan source)) := by
    rw [hprogram]
    exact (actions_recover r).trans ((Action.checkpoint _).actions.trans (actions_program ..))
  unfold compile
  rw [outcome_ofState]
  by_cases hq : r.IsQuiet
  · refine .inl ⟨hquiet.mpr hq, ?_⟩
    have hsane := Actions.sane hbefore (sane_initial firstId (named_scan source)) hq
    have hend : compileTokens firstId (scan source) = r.checkpoint.read := by
      rw [hprogram, recover_eq hsane, program, if_pos (by rw [hwritten.sees]; rfl)]
    have hbuilder : (writeReturn firstId e).bare.builder = r.checkpoint.bare.builder :=
      congrArg State.builder hsame
    have hid : (writeReturn firstId e).bare.nextId = r.checkpoint.bare.nextId :=
      congrArg State.nextId hsame
    have hreturned : r.checkpoint.read.returnNil = r.checkpoint.read := by
      have hlast : r.checkpoint.bare.builder.lastOp = some .return := by
        rw [← hbuilder]
        rfl
      unfold returnNil
      rw [hwritten.read_end]
      exact if_pos hlast
    have hnone : r.checkpoint.read.diagnostics.isEmpty = true := by
      rw [hwritten.read_end]
      exact Array.isEmpty_iff.mpr hq
    rw [hend, if_pos hnone, hreturned, hwritten.read_end]
    exact congrArg Except.ok (congrArg₂ Builder.finish hbuilder.symm hid.symm)
  · refine .inr ⟨fun hw => hq (hquiet.mp hw), ?_⟩
    rw [if_neg fun hempty => hq (hafter.isQuiet (Array.isEmpty_iff.mp hempty))]
    exact ⟨_, rfl⟩

/-- Both compilations succeed with the same code, lines and constants, or both fail. -/
def SameScript : Except (Array Diagnostic) (Function Value) →
    Except (Array Diagnostic) (Function Value) → Prop
  | .ok f, .ok g =>
      f.chunk.code = g.chunk.code ∧ f.chunk.lines = g.chunk.lines ∧
        f.chunk.constants = g.chunk.constants
  | .error _, .error _ => True
  | _, _ => False

/-- All renderings of an expression are compiled alike. -/
theorem sameScript_of_renders (firstId : Identity) {source source' : String} {ws ws' : List Word}
    (h : Returns source ws) (h' : Returns source' ws')
    (hrenders : Renders (.expression e .assignment) ws)
    (hrenders' : Renders (.expression e .assignment) ws') :
    SameScript (compile firstId source).outcome (compile firstId source').outcome := by
  rcases outcome_of_renders firstId h hrenders with ⟨hquiet, hok⟩ | ⟨hloud, ds, herror⟩
  · rcases outcome_of_renders firstId h' hrenders' with ⟨-, hok'⟩ | ⟨hloud, -⟩
    · rw [hok, hok']
      exact ⟨rfl, rfl, rfl⟩
    · exact absurd hquiet hloud
  · rcases outcome_of_renders firstId h' hrenders' with ⟨hquiet, -⟩ | ⟨-, ds', herror'⟩
    · exact absurd hquiet hloud
    · rw [herror, herror']
      trivial

/-- The ladder of operators puts the parentheses back that a rendering leaves out: returning an
expression is compiled alike with only the parentheses that are needed and with parentheses around
every part but what is assigned to. -/
theorem compile_tight_full (firstId : Identity) (e : Expression) {tight full : String}
    (htight : Returns tight (e.tightWords .assignment)) (hfull : Returns full e.fullWords) :
    SameScript (compile firstId tight).outcome (compile firstId full).outcome :=
  sameScript_of_renders firstId htight hfull (renders_tight e .assignment)
    (renders_full e .assignment)

end Returns

/-- An assignment of `!a or b - 1 - f(c)` to `x`. -/
def ladderExample : Expression :=
  .assign "x" (.or (.unary .not (.name "a"))
    (.binary .subtract (.binary .subtract (.name "b") (.literal (.number "1")))
      (.call (.name "f") [.name "c"])))

/-- The right operand of `or` needs no parentheses, and the first difference none either. -/
theorem compile_tight_full_example :
    Returns "return x = !a or b - 1 - f(c)" (ladderExample.tightWords .assignment) ∧
      Returns "return (x = ((!(a)) or (((b) - (1)) - ((f)((c))))))" ladderExample.fullWords ∧
      SameScript (compile 0 "return x = !a or b - 1 - f(c)").outcome
        (compile 0 "return (x = ((!(a)) or (((b) - (1)) - ((f)((c))))))").outcome := by
  have htight : Returns "return x = !a or b - 1 - f(c)" (ladderExample.tightWords .assignment) :=
    ⟨by decide +kernel, by decide +kernel⟩
  have hfull : Returns "return (x = ((!(a)) or (((b) - (1)) - ((f)((c))))))"
      ladderExample.fullWords := ⟨by decide +kernel, by decide +kernel⟩
  exact ⟨htight, hfull, compile_tight_full 0 ladderExample htight hfull⟩

end ScriptEngine.Compile
