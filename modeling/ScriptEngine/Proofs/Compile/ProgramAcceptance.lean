import ScriptEngine.Proofs.Compile.ExpressionAcceptance
set_option autoImplicit false

/-!
# Compilation: programs of the grammar are accepted

For each part of the grammar there is a pass, and each word of the part under the
greedy reading brings the pass from before it to behind it (`accepted_of_derives`).
The proof is by induction on the derivation, one lemma for each of its rules.  A rule
bounds from above what is left, and so how deep the recursion has to go.

Where the rules leave open what comes next, the greedy reading settles it: nothing
that an expression could go on with, and no `else` behind a branch without one.  A
`=` never follows, since a name before it would be assigned to.
-/

namespace ScriptEngine.Compile

open State

variable {k : TokenKind} {a b c d e : List TokenKind}

/-! ## What is accepted of declarations -/

def DeclarationAccepted (a b : List TokenKind) : Prop :=
  b.head? ≠ some .equal → ∀ depth, 2 * a.length + 2 ≤ depth → Accepts (declaration depth) a b

/-- Declarations are read up to a brace, and in a program up to the end. -/
structure DeclarationsAccepted (a b : List TokenKind) : Prop where
  inBraces : b.head? = some .rightBrace → ∀ depth, 2 * a.length + 3 ≤ depth →
    Accepts (declarations depth) a b
  inProgram : b = [.endOfSource] → ∀ depth limit, 2 * a.length + 2 ≤ depth → a.length ≤ limit →
    ∀ s, s.Arrives a → (program depth limit s).IsFine

def InitializerAccepted (a b : List TokenKind) : Prop :=
  b.head? ≠ some .equal → ∀ depth, 2 * a.length + 1 ≤ depth →
    Accepts (initializer (expression depth .assignment)) a b

def ParametersAccepted (a b : List TokenKind) : Prop :=
  ∀ rest, b = .rightParen :: rest → Accepts parameterList (.leftParen :: a) rest

def MoreParametersAccepted (a b : List TokenKind) : Prop :=
  b.head? = some .rightParen → ∀ limit, a.length < limit →
    Accepts (parameters limit) (.identifier :: a) b

def AlternativeAccepted (a b : List TokenKind) : Prop :=
  b.head? ≠ some .equal → ∀ depth, 2 * a.length + 2 ≤ depth →
    Accepts (alternative (declaration depth)) a b

def ResultAccepted (a b : List TokenKind) : Prop :=
  b.head? ≠ some .equal → ∀ depth, 2 * a.length + 1 ≤ depth →
    Accepts (returnForm (expression depth .assignment)) a b

def LoopStartAccepted (a b : List TokenKind) : Prop :=
  ∀ depth, 2 * a.length + 1 ≤ depth → Accepts (loopInitializer (expression depth .assignment)) a b

def LoopConditionAccepted (a b : List TokenKind) : Prop :=
  ∀ depth, 2 * a.length + 1 ≤ depth →
    Accepts (fun s => (s.loopCondition (expression depth .assignment)).2) a b

def LoopStepAccepted (a b : List TokenKind) : Prop :=
  b.head? ≠ some .equal → ∀ depth start, 2 * a.length + 1 ≤ depth →
    Accepts (fun s => (s.loopIncrement (expression depth .assignment) start).2) a b

/-- What is accepted of each part. -/
def Accepted : GrammarPart → List TokenKind → List TokenKind → Prop
  | .program, a, _ => ∀ depth limit, 2 * a.length + 2 ≤ depth → a.length ≤ limit →
      ∀ s, s.Arrives a → (program depth limit s).IsFine
  | .declarations, a, b => DeclarationsAccepted a b
  | .declaration, a, b => DeclarationAccepted a b
  | .initializer, a, b => InitializerAccepted a b
  | .parameters, a, b => ParametersAccepted a b
  | .moreParameters, a, b => MoreParametersAccepted a b
  | .alternative, a, b => AlternativeAccepted a b
  | .result, a, b => ResultAccepted a b
  | .loopStart, a, b => LoopStartAccepted a b
  | .loopCondition, a, b => LoopConditionAccepted a b
  | .loopStep, a, b => LoopStepAccepted a b
  | .expr, a, b => ExprAccepted a b
  | .arguments, a, b => ArgumentsAccepted a b
  | .ladder p, a, b => LadderAccepted p a b
  | .tail p, a, b => TailAccepted p a b

/-! ## Looking ahead -/

theorem ne_of_opens (hk : GrammarPart.Opens k) (k' : TokenKind) (hk' : ¬ GrammarPart.Opens k') :
    k ≠ k' := by
  rintro rfl
  exact hk' hk

theorem head_ne_of_starts (h : a = b ∨ ∃ k rest, a = k :: rest ∧ GrammarPart.Starts k)
    (hb : b.head? ≠ some .equal) : a.head? ≠ some .equal := by
  rcases h with rfl | ⟨k, rest, rfl, hk⟩
  · exact hb
  · rintro heq
    cases heq
    exact absurd hk (by decide)

theorem head_ne_of_declaration (h : Derives true .declaration a b) : a.head? ≠ some .equal :=
  head_ne_of_starts (b := []) (.inr h.declaration_starts) nofun

/-! ## Variables and functions -/

theorem initializerAccepted_none : InitializerAccepted a a := by
  intro hequal depth _
  refine accepts_of_stands (fun s => (edits_initializer ((formsAct depth).expression _) s).actions)
    fun s hs => ?_
  unfold initializer
  split
  · next hsees =>
    have hhead := hs.ahead_eq
    rw [ahead_eq, sees_iff.mp hsees] at hhead
    rw [← hhead] at hequal
    exact absurd rfl hequal
  · exact Arrives.appendOp (.inl hs) .nil

theorem initializerAccepted_some (value : ExprAccepted a b) :
    InitializerAccepted (.equal :: a) b := by
  intro hequal depth hdepth
  rw [List.length_cons] at hdepth
  refine accepts_of_stands (fun s => (edits_initializer ((formsAct depth).expression _) s).actions)
    fun s hs => ?_
  unfold initializer
  rw [if_pos hs.sees]
  exact value hequal depth (by omega) _ (.inl (hs.read nofun))

theorem accepts_varForm {expression : Pass} (hinit : Accepts (initializer expression) a b) :
    Accepts (varForm expression) (.identifier :: a) b :=
  fun _ hs => (hinit _ (hs.declareName .variableName)).bindName _

theorem moreParametersAccepted_last : MoreParametersAccepted a a := by
  intro hend limit hlimit
  obtain ⟨limit, rfl⟩ : ∃ n, limit = n + 1 := ⟨limit - 1, by omega⟩
  intro s hs
  have hparameter := hs.parameter
  unfold parameters
  dsimp only
  split
  · next hcomma =>
    refine hparameter.bind (.trans (Edit.read _).edits.actions (actions_parameters ..))
      fun hparameter => ?_
    have hhead := hparameter.ahead_eq
    rw [ahead_eq, sees_iff.mp hcomma] at hhead
    rw [← hhead] at hend
    cases hend
  · exact hparameter

theorem moreParametersAccepted_more (more : MoreParametersAccepted a b) :
    MoreParametersAccepted (.comma :: .identifier :: a) b := by
  intro hend limit hlimit
  simp only [List.length_cons] at hlimit
  obtain ⟨limit, rfl⟩ : ∃ n, limit = n + 1 := ⟨limit - 1, by omega⟩
  intro s hs
  have hparameter := hs.parameter
  unfold parameters
  dsimp only
  split
  · exact more hend limit (by omega) _ (hparameter.read (by decide))
  · next hcomma =>
    refine hparameter.bind .refl fun hparameter => ?_
    exact absurd hparameter.sees hcomma

theorem parametersAccepted_none : ParametersAccepted a a := by
  rintro rest rfl
  refine accepts_of_stands actions_parameterList fun s hs => ?_
  have hopen := Arrives.require (.inl hs) nofun .openingOfParameters
  unfold parameterList
  dsimp only
  split
  · exact hopen.require nofun _
  · next hsees =>
    refine hopen.bind ((actions_parameters _ _).trans (edits_require ..).actions) fun hopen => ?_
    exact absurd hopen.sees hsees

theorem parametersAccepted_some (more : MoreParametersAccepted a b) :
    ParametersAccepted (.identifier :: a) b := by
  rintro rest rfl
  refine accepts_of_stands actions_parameterList fun s hs => ?_
  have hopen := Arrives.require (.inl hs) nofun .openingOfParameters
  unfold parameterList
  dsimp only
  split
  · next hsees =>
    refine hopen.bind (edits_require ..).actions fun hopen => ?_
    rw [hopen.sees_ne _ (by decide)] at hsees
    cases hsees
  · refine hopen.bind ((actions_parameters _ _).trans (edits_require ..).actions) fun hopen => ?_
    refine (more rfl _ ?_ _ (.inl hopen)).require nofun _
    have hlen := congrArg List.length hopen.ahead_eq
    rw [ahead_eq] at hlen
    simp only [List.length_cons, List.length_map] at hlen
    omega

theorem accepts_blockForm {declarations : Pass}
    (hall : Accepts declarations a (.rightBrace :: b)) : Accepts (blockForm declarations) a b :=
  fun s hs => (hall s hs).require nofun _

theorem accepts_prologue (names : ParametersAccepted a (.rightParen :: .leftBrace :: b)) :
    Accepts prologue (.leftParen :: a) b :=
  fun s hs => (names _ rfl _ ((hs.enterFunction s.previous.lexeme).openScope)).require nofun _

theorem accepts_functionForm {declarations : Pass}
    (names : ParametersAccepted a (.rightParen :: .leftBrace :: b))
    (hall : Accepts declarations b (.rightBrace :: c)) :
    Accepts (functionForm declarations) (.leftParen :: a) c := by
  intro s hs
  rw [functionForm_eq]
  have hbody := (accepts_blockForm hall _ (accepts_prologue names s hs).checkpoint).returnNil
  exact hbody.leaveFinished.closureCode _

theorem accepts_fnForm {declarations : Pass}
    (names : ParametersAccepted a (.rightParen :: .leftBrace :: b))
    (hall : Accepts declarations b (.rightBrace :: c)) :
    Accepts (fnForm declarations) (.identifier :: .leftParen :: a) c :=
  fun _ hs => (accepts_functionForm names hall _
    (hs.declareName .functionName).makeReadable).bindName _

/-! ## Branches and loops -/

theorem alternativeAccepted_none (nearest : a.head? ≠ some .elseWord) :
    AlternativeAccepted a a := by
  intro _ depth _
  refine accepts_of_stands (actions_alternative (formsAct depth).declaration) fun s hs => ?_
  unfold alternative
  split
  · next hsees =>
    have hhead := hs.ahead_eq
    rw [ahead_eq, sees_iff.mp hsees] at hhead
    rw [← hhead] at nearest
    exact absurd rfl nearest
  · exact .inl hs

theorem alternativeAccepted_some (body : DeclarationAccepted a b) :
    AlternativeAccepted (.elseWord :: a) b := by
  intro hequal depth hdepth
  rw [List.length_cons] at hdepth
  refine accepts_of_stands (actions_alternative (formsAct depth).declaration) fun s hs => ?_
  unfold alternative
  rw [if_pos hs.sees]
  exact Arrives.inScope (.inl (hs.read nofun)) (body hequal depth (by omega) _)

theorem accepts_inScope {inside : Pass} (h : Accepts inside a b) : Accepts (inScope inside) a b :=
  fun _ hs => hs.inScope (h _)

theorem accepts_ifForm {expression declaration : Pass} (condition : Accepts expression a b)
    (body : Accepts declaration b c) (other : Accepts (alternative declaration) c d) :
    Accepts (ifForm expression declaration) a d := by
  intro s hs
  have hthen := accepts_inScope body _ (condition s hs).branch
  have hjump := ((hthen.openJump .jump).landJump ((expression s).openJump .jumpIfFalse).1).appendOp
    .pop
  exact (other _ hjump).landJump _

theorem accepts_whileForm {expression declaration : Pass} (condition : Accepts expression a b)
    (body : Accepts declaration b c) : Accepts (whileForm expression declaration) a c :=
  fun s hs => (((accepts_inScope body _ (condition s hs).branch).loopBack s.codeSize).landJump
    _).appendOp .pop

theorem actions_loopInitializer_expression (depth : Nat) (s : State) :
    Actions s (s.loopInitializer (expression depth .assignment)) :=
  actions_loopInitializer ((formsAct depth).expression _) s

theorem loopStartAccepted_none : LoopStartAccepted (.comma :: a) a := by
  intro depth _
  refine accepts_of_stands (actions_loopInitializer_expression depth) fun s hs => ?_
  unfold loopInitializer
  rw [if_pos hs.sees]
  exact .inl (hs.read nofun)

theorem loopStartAccepted_variable (init : InitializerAccepted a (.comma :: b)) :
    LoopStartAccepted (.varWord :: .identifier :: a) b := by
  intro depth hdepth
  simp only [List.length_cons] at hdepth
  refine accepts_of_stands (actions_loopInitializer_expression depth) fun s hs => ?_
  unfold loopInitializer
  dsimp only
  rw [hs.sees_ne _ (show TokenKind.varWord ≠ .comma by decide), if_neg (by decide), if_pos hs.sees]
  have hvar := accepts_varForm (init nofun depth (by omega)) s.read (.inl (hs.read nofun))
  exact hvar.checkpoint.require nofun _

theorem loopStartAccepted_value (hvalue : Derives true .expr a (.comma :: b))
    (value : ExprAccepted a (.comma :: b)) : LoopStartAccepted a b := by
  intro depth hdepth
  refine accepts_of_stands (actions_loopInitializer_expression depth) fun s hs => ?_
  have hform := (value nofun depth hdepth s (.inl hs)).appendOp .pop
  obtain ⟨k, rest, rfl, hk⟩ := hvalue.expr_opens
  unfold loopInitializer
  dsimp only
  rw [hs.sees_ne _ (ne_of_opens hk .comma (by decide)), if_neg (by decide),
    hs.sees_ne _ (ne_of_opens hk .varWord (by decide)), if_neg (by decide)]
  exact hform.require nofun _

theorem edits_loopCondition_expression (depth : Nat) (s : State) :
    Edits s (s.loopCondition (expression depth .assignment)).2 :=
  edits_loopCondition ((formsAct depth).expression _) s

theorem loopConditionAccepted_none : LoopConditionAccepted (.comma :: a) a := by
  intro depth _
  refine accepts_of_stands (fun s => (edits_loopCondition_expression depth s).actions)
    fun s hs => ?_
  unfold loopCondition
  rw [if_pos hs.sees]
  exact .inl (hs.read nofun)

theorem loopConditionAccepted_value (hvalue : Derives true .expr a (.comma :: b))
    (value : ExprAccepted a (.comma :: b)) : LoopConditionAccepted a b := by
  intro depth hdepth
  refine accepts_of_stands (fun s => (edits_loopCondition_expression depth s).actions)
    fun s hs => ?_
  have hform := (value nofun depth hdepth s (.inl hs)).require nofun .commaAfterCondition
  obtain ⟨k, rest, rfl, hk⟩ := hvalue.expr_opens
  unfold loopCondition
  rw [hs.sees_ne _ (ne_of_opens hk .comma (by decide)), if_neg (by decide)]
  exact hform.branch

theorem edits_loopIncrement_expression (depth start : Nat) (s : State) :
    Edits s (s.loopIncrement (expression depth .assignment) start).2 :=
  edits_loopIncrement ((formsAct depth).expression _) start s

theorem loopStepAccepted_skipped : LoopStepAccepted (.comma :: a) a := by
  intro _ depth start _
  refine accepts_of_stands (fun s => (edits_loopIncrement_expression depth start s).actions)
    fun s hs => ?_
  unfold loopIncrement
  rw [if_pos hs.sees]
  exact .inl (hs.read nofun)

theorem loopStepAccepted_none : LoopStepAccepted (.leftBrace :: a) (.leftBrace :: a) := by
  intro _ depth start _
  refine accepts_of_stands (fun s => (edits_loopIncrement_expression depth start s).actions)
    fun s hs => ?_
  unfold loopIncrement
  rw [hs.sees_ne _ (by decide), if_neg (by decide), if_pos hs.sees]
  exact .inl hs

theorem loopStepAccepted_value (hvalue : Derives true .expr a b) (value : ExprAccepted a b) :
    LoopStepAccepted a b := by
  intro hequal depth start hdepth
  refine accepts_of_stands (fun s => (edits_loopIncrement_expression depth start s).actions)
    fun s hs => ?_
  have hform := ((value hequal depth hdepth _ (Arrives.openJump (.inl hs) .jump)).appendOp
    .pop).loopBack start
  obtain ⟨k, rest, rfl, hk⟩ := hvalue.expr_opens
  unfold loopIncrement
  rw [hs.sees_ne _ (ne_of_opens hk .comma (by decide)), if_neg (by decide),
    hs.sees_ne _ (ne_of_opens hk .leftBrace (by decide)), if_neg (by decide)]
  exact hform.landJump _

theorem accepts_countedLoop {expression declaration : Pass}
    (start : Accepts (loopInitializer expression) a b)
    (condition : Accepts (fun s => (s.loopCondition expression).2) b c)
    (step : ∀ start, Accepts (fun s => (s.loopIncrement expression start).2) c d)
    (body : Accepts declaration d e) : Accepts (countedLoop expression declaration) a e := by
  intro s hs
  rw [countedLoop_eq]
  have hinit := start s hs
  generalize s.loopInitializer expression = r at hinit ⊢
  have hturns : (r.turns expression declaration).Arrives e :=
    (accepts_inScope body _ (step r.codeSize _ (condition r hinit))).loopBack _
  unfold rounds
  split
  · exact (hturns.landJump _).appendOp .pop
  · exact hturns

/-! ## Return -/

theorem edits_returnForm_expression (depth : Nat) (s : State) :
    Edits s (s.returnForm (expression depth .assignment)) :=
  edits_returnForm ((formsAct depth).expression _) s

theorem resultAccepted_none (ends : k = .rightBrace ∨ k = .endOfSource) :
    ResultAccepted (k :: a) (k :: a) := by
  intro _ depth _
  refine accepts_of_stands (fun s => (edits_returnForm_expression depth s).actions) fun s hs => ?_
  have hend : (s.sees .rightBrace || s.sees .endOfSource) = true := by
    rw [Bool.or_eq_true, sees_iff, sees_iff, hs.head]
    exact ends
  unfold returnForm
  dsimp only
  rw [if_pos hend]
  exact (Arrives.appendOp (.inl hs) .nil).appendOp .return

theorem resultAccepted_value (hvalue : Derives true .expr a b) (value : ExprAccepted a b) :
    ResultAccepted a b := by
  intro hequal depth hdepth
  refine accepts_of_stands (fun s => (edits_returnForm_expression depth s).actions) fun s hs => ?_
  have hform := value hequal depth hdepth s (.inl hs)
  obtain ⟨k, rest, rfl, hk⟩ := hvalue.expr_opens
  unfold returnForm
  dsimp only
  rw [hs.sees_ne _ (ne_of_opens hk .rightBrace (by decide)),
    hs.sees_ne _ (ne_of_opens hk .endOfSource (by decide)), Bool.or_self,
    if_neg (by decide)]
  exact hform.appendOp .return

/-! ## Declarations -/

/-- After a form that found no mistake there is nothing to recover from. -/
theorem arrives_recover {s : State} (hs : s.Arrives a) : s.recover.Arrives a :=
  hs.bind (actions_recover s) fun hs => by
    rw [recover_eq hs.toSane]
    exact .inl hs

/-- A declaration is accepted if its form is. -/
theorem accepts_declaration {depth : Nat} (h : ∀ s : State, s.Stands a →
      (s.anyForm (expression depth .assignment) (declaration depth)
        (declarations depth)).Arrives b) :
    Accepts (declaration (depth + 1)) a b := by
  refine accepts_of_stands (formsAct (depth + 1)).declaration fun s hs => ?_
  have hmark : Actions s s.tick.checkpoint :=
    (Edit.tick s).edits.actions.trans (Action.checkpoint _).actions
  unfold declaration
  exact (arrives_recover (h _ (hs.keep hmark (upcoming_tick s) hs.quiet))).checkpoint

/-- What a keyword starts goes on behind it. -/
theorem declarationAccepted_keyword (hk : k ≠ .endOfSource) (form : Nat → Pass)
    (hany : ∀ (depth : Nat) (s : State), s.current.kind = k →
      s.anyForm (expression depth .assignment) (declaration depth) (declarations depth) =
        form depth s.read)
    (hform : b.head? ≠ some .equal → ∀ depth, 2 * a.length + 3 ≤ depth →
      Accepts (form depth) a b) :
    DeclarationAccepted (k :: a) b := by
  intro hequal depth hdepth
  rw [List.length_cons] at hdepth
  obtain ⟨depth, rfl⟩ : ∃ d, depth = d + 1 := ⟨depth - 1, by omega⟩
  refine accepts_declaration fun s hs => ?_
  rw [hany depth s hs.head]
  exact hform hequal depth (by omega) _ (.inl (hs.read hk))

theorem declarationAccepted_var (init : InitializerAccepted a b) :
    DeclarationAccepted (.varWord :: .identifier :: a) b :=
  declarationAccepted_keyword nofun (fun depth => varForm (expression depth .assignment))
    (fun _ _ hk => by rw [anyForm, hk]) fun hequal depth hdepth =>
      accepts_varForm (init hequal depth (by rw [List.length_cons] at hdepth; omega))

theorem declarationAccepted_fn
    (hnames : Derives true .parameters a (.rightParen :: .leftBrace :: b))
    (names : ParametersAccepted a (.rightParen :: .leftBrace :: b))
    (body : DeclarationsAccepted b (.rightBrace :: c)) :
    DeclarationAccepted (.fnWord :: .identifier :: .leftParen :: a) c := by
  refine declarationAccepted_keyword nofun (fun depth => fnForm (declarations depth))
    (fun _ _ hk => by rw [anyForm, hk]) fun _ depth hdepth => ?_
  have hlen := hnames.length_le
  simp only [List.length_cons] at hdepth hlen
  exact accepts_fnForm names (body.inBraces rfl depth (by omega))

theorem declarationAccepted_branch (hcondition : Derives true .expr a b)
    (hbody : Derives true .declaration b c) (hother : Derives true .alternative c d)
    (condition : ExprAccepted a b) (body : DeclarationAccepted b c)
    (other : AlternativeAccepted c d) : DeclarationAccepted (.ifWord :: a) d := by
  refine declarationAccepted_keyword nofun
    (fun depth => ifForm (expression depth .assignment) (declaration depth))
    (fun _ _ hk => by rw [anyForm, hk]) fun hequal depth hdepth => ?_
  have hlen₁ := hcondition.length_le
  have hlen₂ := hbody.length_le
  have hequal' : c.head? ≠ some .equal := by
    cases hother with
    | noAlternative => exact hequal
    | alternative => exact nofun
  exact accepts_ifForm (condition (head_ne_of_declaration hbody) depth (by omega))
    (body hequal' depth (by omega)) (other hequal depth (by omega))

theorem declarationAccepted_while (hcondition : Derives true .expr a b)
    (hbody : Derives true .declaration b c) (condition : ExprAccepted a b)
    (body : DeclarationAccepted b c) : DeclarationAccepted (.whileWord :: a) c := by
  refine declarationAccepted_keyword nofun
    (fun depth => whileForm (expression depth .assignment) (declaration depth))
    (fun _ _ hk => by rw [anyForm, hk]) fun hequal depth hdepth => ?_
  have hlen := hcondition.length_le
  exact accepts_whileForm (condition (head_ne_of_declaration hbody) depth (by omega))
    (body hequal depth (by omega))

theorem declarationAccepted_for (hstart : Derives true .loopStart a b)
    (hcondition : Derives true .loopCondition b c) (hstep : Derives true .loopStep c d)
    (hbody : Derives true .declaration d e) (start : LoopStartAccepted a b)
    (condition : LoopConditionAccepted b c) (step : LoopStepAccepted c d)
    (body : DeclarationAccepted d e) : DeclarationAccepted (.forWord :: a) e := by
  refine declarationAccepted_keyword nofun
    (fun depth => forForm (expression depth .assignment) (declaration depth))
    (fun _ _ hk => by rw [anyForm, hk]) fun hequal depth hdepth => ?_
  have hlen₁ := hstart.length_le
  have hlen₂ := hcondition.length_le
  have hlen₃ := hstep.length_le
  exact accepts_inScope (accepts_countedLoop (start depth (by omega)) (condition depth (by omega))
    (fun n => step (head_ne_of_declaration hbody) depth n (by omega))
    (body hequal depth (by omega)))

theorem declarationAccepted_block (all : DeclarationsAccepted a (.rightBrace :: b)) :
    DeclarationAccepted (.leftBrace :: a) b :=
  declarationAccepted_keyword nofun (fun depth => inScope (blockForm (declarations depth)))
    (fun _ _ hk => by rw [anyForm, hk]) fun _ depth hdepth =>
      accepts_inScope (accepts_blockForm (all.inBraces rfl depth hdepth))

theorem declarationAccepted_return (value : ResultAccepted a b) :
    DeclarationAccepted (.returnWord :: a) b :=
  declarationAccepted_keyword nofun (fun depth => returnForm (expression depth .assignment))
    (fun _ _ hk => by rw [anyForm, hk]) fun hequal depth hdepth => value hequal depth (by omega)

theorem declarationAccepted_statement (hvalue : Derives true .expr a b)
    (value : ExprAccepted a b) : DeclarationAccepted a b := by
  intro hequal depth hdepth
  obtain ⟨depth, rfl⟩ : ∃ d, depth = d + 1 := ⟨depth - 1, by omega⟩
  refine accepts_declaration fun s hs => ?_
  have hform := (value hequal depth (by omega) s (.inl hs)).appendOp .pop
  obtain ⟨k, rest, rfl, hk⟩ := hvalue.expr_opens
  rw [anyForm, hs.head]
  split <;> first | exact absurd hk (by decide) | exact hform

theorem declarationsAccepted_none : DeclarationsAccepted a a where
  inBraces hend depth hdepth := by
    obtain ⟨depth, rfl⟩ : ∃ d, depth = d + 1 := ⟨depth - 1, by omega⟩
    refine accepts_of_stands (formsAct (depth + 1)).declarations fun s hs => ?_
    have hsees : s.sees .rightBrace = true := by
      rw [sees_iff]
      rw [← hs.ahead_eq] at hend
      exact Option.some.inj hend
    unfold declarations
    rw [hsees, Bool.true_or, if_pos rfl]
    exact Arrives.tick (.inl hs)
  inProgram := by
    rintro rfl depth limit - hlimit s hs
    obtain ⟨limit, rfl⟩ : ∃ n, limit = n + 1 := ⟨limit - 1, by
      simp only [List.length_cons, List.length_nil] at hlimit
      omega⟩
    refine hs.elim (fun hs => .inl ?_) fun hrefused => .inr (hrefused.act (actions_program ..))
    unfold program
    rw [if_pos hs.sees]
    exact isQuiet_read hs.quiet hs.valid

theorem declarationsAccepted_more (hfirst : Derives true .declaration a b)
    (hmore : Derives true .declarations b c) (first : DeclarationAccepted a b)
    (more : DeclarationsAccepted b c) : DeclarationsAccepted a c where
  inBraces hend depth hdepth := by
    obtain ⟨depth, rfl⟩ : ∃ d, depth = d + 1 := ⟨depth - 1, by omega⟩
    refine accepts_of_stands (formsAct (depth + 1)).declarations fun s hs => ?_
    have hlen := hfirst.length_le
    have hequal := head_ne_of_starts hmore.declarations_cases (by rw [hend]; simp)
    have hdone := first hequal depth (by omega) s.tick (Arrives.tick (.inl hs))
    obtain ⟨k, rest, rfl, hk⟩ := hfirst.declaration_starts
    unfold declarations
    rw [hs.sees_ne .rightBrace (by rintro rfl; exact absurd hk (by decide)),
      hs.sees_ne .endOfSource (by rintro rfl; exact absurd hk (by decide)), Bool.or_self,
      if_neg (by decide)]
    exact more.inBraces hend depth (by simp only [GrammarPart.least] at hlen; omega) _ hdone
  inProgram hend depth limit hdepth hlimit s hs := by
    have hlen := hfirst.length_le
    simp only [GrammarPart.least] at hlen
    obtain ⟨limit, rfl⟩ : ∃ n, limit = n + 1 := ⟨limit - 1, by omega⟩
    have hequal := head_ne_of_starts hmore.declarations_cases (by rw [hend]; simp)
    have hdone := first hequal depth hdepth s.tick hs.tick
    obtain ⟨k, rest, rfl, hk⟩ := hfirst.declaration_starts
    refine hs.elim (fun hs => ?_) fun hrefused => .inr (hrefused.act (actions_program ..))
    unfold program
    rw [hs.sees_ne _ (by rintro rfl; exact absurd hk (by decide)), if_neg (by decide)]
    exact more.inProgram hend depth limit (by omega) (by omega) _ hdone

/-! ## All parts -/

/-- Each word under the greedy reading is accepted. -/
theorem accepted_of_derives {part : GrammarPart} (h : Derives true part a b) :
    Accepted part a b := by
  induction h with
  | program _ all => exact all.inProgram rfl
  | noDeclaration => exact declarationsAccepted_none
  | moreDeclarations hfirst hmore first more =>
    exact declarationsAccepted_more hfirst hmore first more
  | var _ init => exact declarationAccepted_var init
  | fn hnames _ names body => exact declarationAccepted_fn hnames names body
  | branch hcondition hbody hother condition body other =>
    exact declarationAccepted_branch hcondition hbody hother condition body other
  | «while» hcondition hbody condition body =>
    exact declarationAccepted_while hcondition hbody condition body
  | «for» hstart hcondition hstep hbody start condition step body =>
    exact declarationAccepted_for hstart hcondition hstep hbody start condition step body
  | block _ all => exact declarationAccepted_block all
  | «return» _ value => exact declarationAccepted_return value
  | statement hvalue value => exact declarationAccepted_statement hvalue value
  | noInitializer => exact initializerAccepted_none
  | initializer _ value => exact initializerAccepted_some value
  | noParameter => exact parametersAccepted_none
  | parameters _ more => exact parametersAccepted_some more
  | lastParameter => exact moreParametersAccepted_last
  | moreParameters _ more => exact moreParametersAccepted_more more
  | noAlternative nearest => exact alternativeAccepted_none (nearest rfl)
  | alternative _ body => exact alternativeAccepted_some body
  | noResult ends => exact resultAccepted_none ends
  | result hvalue value => exact resultAccepted_value hvalue value
  | noLoopStart => exact loopStartAccepted_none
  | loopVariable _ init => exact loopStartAccepted_variable init
  | loopStart hvalue value => exact loopStartAccepted_value hvalue value
  | noLoopCondition => exact loopConditionAccepted_none
  | loopCondition hvalue value => exact loopConditionAccepted_value hvalue value
  | skippedLoopStep => exact loopStepAccepted_skipped
  | noLoopStep => exact loopStepAccepted_none
  | loopStep hvalue value => exact loopStepAccepted_value hvalue value
  | assignment hvalue value => exact exprAccepted_assignment hvalue value
  | value longest _ value => exact exprAccepted_value (longest rfl) value
  | chain level _ hmore first more => exact ladderAccepted_chain level hmore first more
  | endOfChain => exact fun _ _ _ _ _ h => h
  | moreOfChain operator hoperand hmore operand more =>
    exact tailAccepted_moreOfChain operator hoperand hmore operand more
  | unary operator hoperand operand => exact ladderAccepted_unary operator hoperand operand
  | plain _ operand =>
    exact fun hstops hequal level hlevel => operand (hstops.le (by decide)) hequal level
      (Nat.le_trans hlevel (by decide))
  | calls _ hmore callee more => exact ladderAccepted_calls hmore callee more
  | emptyCall _ more => exact tailAccepted_emptyCall more
  | call hvalues _ values more => exact tailAccepted_call hvalues values more
  | atom known => exact ladderAccepted_atom known
  | group hvalue value => exact ladderAccepted_group hvalue value
  | lastArgument _ value => exact argumentsAccepted_last value
  | moreArguments hvalue _ value more => exact argumentsAccepted_more hvalue value more

/-- A program under the greedy reading compiles, or breaks a static rule first. -/
theorem isFine_compileTokens {firstId : Identity} {tokens : List Token}
    (hnamed : ∀ t ∈ tokens, t.IsNamed) (hnumerals : ∀ t ∈ tokens, t.IsNumeral)
    (hended : Ended (tokens.map Token.kind)) (hvalid : ∀ t ∈ tokens, t.kind ≠ .invalid)
    (h : IsProgram true (tokens.map Token.kind)) : (compileTokens firstId tokens).IsFine := by
  have hq : (initial firstId tokens).read.IsQuiet := isQuiet_read rfl hvalid
  obtain ⟨hupcoming, hs⟩ := upcoming_start hnamed hended hq
  have hrest : ∀ t ∈ (initial firstId tokens).read.rest, t ∈ tokens := by
    intro t ht
    rw [← hupcoming]
    exact List.mem_cons_of_mem _ ht
  have hstands : (initial firstId tokens).read.Stands (tokens.map Token.kind) :=
    { toInOrder := hs
      ahead_eq := congrArg (List.map Token.kind) hupcoming
      valid := fun t ht => hvalid t (hrest t ht)
      numerals := fun t ht => hnumerals t (hupcoming ▸ ht) }
  have haccepted : Accepted .program (tokens.map Token.kind) [] := accepted_of_derives h
  exact haccepted _ _ (by simp [depthFor]) (by simp) _ (.inl hstands)

end ScriptEngine.Compile
