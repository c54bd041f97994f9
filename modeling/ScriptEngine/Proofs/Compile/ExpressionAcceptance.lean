import ScriptEngine.Proofs.Compile.Arrival
set_option autoImplicit false

/-!
# Compilation: expressions of the grammar are accepted

Where a word of a level ends, the loop of operators may go on: the words of the ladder
are nested, and the loop is flat.  `Resumes` says that the loop has come to the end of
a word and what is left of it to do.  A longer chain resumes where a shorter one did
(`resumes_continue`), and the loop comes to rest where no operator of its level
follows (`Resumes.arrives`).
-/

namespace ScriptEngine.Compile

open State

/-! ## Accepted words -/

/-- A pass that stands before `a` arrives before `b`. -/
def Accepts (pass : Pass) (a b : List TokenKind) : Prop := ∀ s, s.Arrives a → (pass s).Arrives b

theorem accepts_of_stands {pass : Pass} {a b : List TokenKind}
    (hact : ∀ s, Actions s (pass s)) (h : ∀ s, s.Stands a → (pass s).Arrives b) :
    Accepts pass a b :=
  fun s hs => hs.bind (hact s) (h s)

/-- The level on which the operands of a level stop. -/
def operandLevel : Precedence → Precedence
  | .or => .or
  | .and => .and
  | .unary => .unary
  | .call => .call
  | p => p.next

theorem operandLevel_le (p : Precedence) : operandLevel p ≤ operandLevel p.next := by
  cases p <;> decide

/-- Behind an operator of a level, the next level up is at an end. -/
theorem not_operandLevel_next_le {p : Precedence} (hp : GrammarPart.operators p ≠ []) :
    ¬ operandLevel p.next ≤ p := by
  cases p <;> first | exact absurd rfl hp | decide

/-- An operator of a level is too loose for the tighter ones. -/
theorem stops_of_mem {p q : Precedence} {k : TokenKind} {rest : List TokenKind}
    (hk : k ∈ GrammarPart.operators p) (hpq : ¬ q ≤ p) : Stops q (k :: rest) := by
  intro k' hk' c hc hle
  cases hk'
  obtain ⟨c', hc', -, rfl⟩ := continuation_of_mem hk
  rw [hc'] at hc
  cases hc
  exact hpq hle

theorem stops_primary (b : List TokenKind) : Stops .primary b :=
  fun _ _ c _ hle => absurd (Nat.le_trans hle (le_call c)) (by decide)

theorem stops_of_longest {b : List TokenKind} (h : ∀ k ∈ b.head?, ¬ GrammarPart.GoesOn k)
    (p : Precedence) :
    Stops p b :=
  fun k hk _ hc _ => h k hk (goesOn_of_continuation hc)

theorem ne_equal_of_mem {p : Precedence} {k : TokenKind} (hk : k ∈ GrammarPart.operators p) :
    k ≠ .equal := by
  rintro rfl
  cases p <;> revert hk <;> decide

/-- What follows an operand of a chain starts with no `=` and with no tighter operator. -/
theorem follows_tail {p q : Precedence} {b c : List TokenKind} (h : Derives true (.tail p) b c)
    (hcall : p = .call → q = .primary) (hpq : GrammarPart.operators p ≠ [] → ¬ q ≤ p)
    (hstops : Stops q c) (hequal : c.head? ≠ some .equal) :
    Stops q b ∧ b.head? ≠ some .equal := by
  rcases h.tail_cases with rfl | ⟨k, rest, rfl, hk | ⟨hp, rfl⟩⟩
  · exact ⟨hstops, hequal⟩
  · refine ⟨stops_of_mem hk (hpq (List.ne_nil_of_mem hk)), fun heq => ?_⟩
    exact ne_equal_of_mem hk (Option.some.inj heq)
  · exact ⟨hcall hp ▸ stops_primary _, nofun⟩

/-! ## The loop of operators -/

section Expressions

variable {level p : Precedence} {k : TokenKind} {a b c : List TokenKind} {depth : Nat}

/-- The loop over the operators of a level goes on before `b`. -/
def Resumes (level : Precedence) (t : State) (b : List TokenKind) : Prop :=
  t.IsRefused ∨ ∃ depth s, s.Stands b ∧ 2 * b.length + 1 ≤ depth ∧
    t = (continuations depth level s).refuseAssignment (decide (level ≤ .assignment))

theorem edits_rest (depth : Nat) (level : Precedence) (s : State) :
    Edits s ((continuations depth level s).refuseAssignment (decide (level ≤ .assignment))) :=
  ((formsAct depth).continuations level s).trans (edits_refuseAssignment ..)

/-- The loop goes on from where it has arrived. -/
theorem resumes_of_arrives {s : State} (hs : s.Arrives b) (hdepth : 2 * b.length + 1 ≤ depth) :
    Resumes level
      ((continuations depth level s).refuseAssignment (decide (level ≤ .assignment))) b :=
  hs.elim (fun hs => .inr ⟨depth, s, hs, hdepth, rfl⟩)
    fun hrefused => .inl (hrefused.act (edits_rest depth level s).actions)

/-- The loop ends where no operator of its level follows. -/
theorem Resumes.arrives {t : State} (h : Resumes level t b) (hstops : Stops level b)
    (hequal : b.head? ≠ some .equal) : t.Arrives b := by
  rcases h with hrefused | ⟨depth, s, hs, hdepth, rfl⟩
  · exact .inr hrefused
  · obtain ⟨depth, rfl⟩ : ∃ d, depth = d + 1 := ⟨depth - 1, by omega⟩
    have hhead : s.current.kind ∈ b.head? := by
      rw [← hs.ahead_eq]
      rfl
    have hrest : continuations (depth + 1) level s = s.tick := by
      unfold continuations
      split
      · rfl
      · next c hc => exact if_neg (hstops _ hhead c hc)
    have hsees : s.tick.sees .equal = false := by
      rw [← Bool.not_eq_true, sees_iff]
      exact fun heq => hequal (heq ▸ hhead)
    rw [hrest]
    unfold refuseAssignment
    rw [hsees, Bool.and_false]
    exact Arrives.tick (.inl hs)

/-- An operator of the level is read, and its form is carried out. -/
theorem resumes_continue {t : State} {c : Continuation} (h : Resumes level t (k :: a))
    (hc : k.continuation? = some c) (hlevel : level ≤ c.precedence) (hlen : b.length ≤ a.length)
    (hform : ∀ (depth : Nat) (s : State), 2 * a.length + 2 ≤ depth → s.Stands a →
      (s.continueExpression (expression depth) (arguments depth 0) c).Arrives b) :
    Resumes level t b := by
  rcases h with hrefused | ⟨depth, s, hs, hdepth, rfl⟩
  · exact .inl hrefused
  · rw [List.length_cons] at hdepth
    obtain ⟨depth, rfl⟩ : ∃ d, depth = d + 1 := ⟨depth - 1, by omega⟩
    have hunfold : continuations (depth + 1) level s = continuations depth level
        (s.tick.read.continueExpression (expression depth) (arguments depth 0) c) := by
      rw [continuations, hs.head, hc]
      exact if_pos hlevel
    have hend : k ≠ .endOfSource := by
      rintro rfl
      cases hc
    have htick : s.tick.Stands (k :: a) :=
      hs.keep (Edit.tick s).edits.actions (upcoming_tick s) hs.quiet
    rw [hunfold]
    exact resumes_of_arrives (hform depth _ (by omega) (htick.read hend)) (by omega)

/-- The token that opens an expression is read, and its form is carried out. -/
theorem resumes_open {opening : Opening} {s : State} (hs : s.Stands (k :: a))
    (hopening : k.opening? = some opening) (hdepth : 2 * (k :: a).length + 1 ≤ depth)
    (hlen : b.length ≤ a.length)
    (hform : ∀ (depth : Nat) (s : State), 2 * a.length + 2 ≤ depth → s.Stands a →
      s.previous.kind = k → s.previous.IsNumeral →
      (s.openExpression (expression depth) (decide (level ≤ .assignment)) opening).Arrives b) :
    Resumes level (expression depth level s) b := by
  rw [List.length_cons] at hdepth
  obtain ⟨depth, rfl⟩ : ∃ d, depth = d + 1 := ⟨depth - 1, by omega⟩
  have hend : k ≠ .endOfSource := by
    rintro rfl
    cases hopening
  have htick : s.tick.Stands (k :: a) :=
    hs.keep (Edit.tick s).edits.actions (upcoming_tick s) hs.quiet
  have hread := htick.read hend
  have hprevious : s.tick.read.previous = s.current := rfl
  have hunfold : expression (depth + 1) level s =
      (continuations depth level (s.tick.read.openExpression (expression depth)
        (decide (level ≤ .assignment)) opening)).refuseAssignment
          (decide (level ≤ .assignment)) := by
    rw [expression, hprevious, hs.head, hopening]
  rw [hunfold]
  exact resumes_of_arrives (hform depth _ (by omega) hread (hprevious ▸ hs.head)
    (hprevious ▸ hs.numerals _ List.mem_cons_self)) (by omega)

/-! ## What is accepted of expressions -/

def ExprAccepted (a b : List TokenKind) : Prop :=
  b.head? ≠ some .equal → ∀ depth, 2 * a.length + 1 ≤ depth →
    Accepts (expression depth .assignment) a b

def ArgumentsAccepted (a b : List TokenKind) : Prop :=
  b.head? = some .rightParen → ∀ depth count, 2 * a.length + 2 ≤ depth →
    Accepts (fun s => (arguments depth count s).2) a b

/-- An operand of any level down to that of the word can start with the word. -/
def LadderAccepted (p : Precedence) (a b : List TokenKind) : Prop :=
  Stops (operandLevel p) b → b.head? ≠ some .equal → ∀ level ≤ p, ∀ depth,
    2 * a.length + 1 ≤ depth → ∀ s, s.Arrives a → Resumes level (expression depth level s) b

def TailAccepted (p : Precedence) (a b : List TokenKind) : Prop :=
  Stops (operandLevel p) b → b.head? ≠ some .equal → ∀ level ≤ p, ∀ t,
    Resumes level t a → Resumes level t b

/-- A pass that stands before a word may have refused the source. -/
theorem resumes_bind {s t : State} (hs : s.Arrives a) (h : Actions s t)
    (hstands : s.Stands a → Resumes level t b) : Resumes level t b :=
  hs.elim hstands fun hrefused => .inl (hrefused.act h)

/-! ## Chains of operators -/

theorem le_next (p : Precedence) : p ≤ p.next := by
  cases p <;> decide

theorem ladderAccepted_chain (hp : GrammarPart.operators p ≠ [])
    (hmore : Derives true (.tail p) b c)
    (first : LadderAccepted p.next a b) (more : TailAccepted p b c) : LadderAccepted p a c := by
  intro hstops hequal level hlevel depth hdepth s hs
  obtain ⟨hstops', hequal'⟩ := follows_tail hmore (fun hcall => absurd (hcall ▸ rfl) hp)
    not_operandLevel_next_le (hstops.le (operandLevel_le p)) hequal
  exact more hstops hequal level hlevel _
    (first hstops' hequal' level (Nat.le_trans hlevel (le_next p)) depth hdepth s hs)

theorem tailAccepted_binary {op : BinaryOperator} (hk : k.continuation? = some (.binary op))
    (hoperand : Derives true (.ladder op.precedence.next) a b)
    (hmore : Derives true (.tail op.precedence) b c)
    (operand : LadderAccepted op.precedence.next a b) (more : TailAccepted op.precedence b c) :
    TailAccepted op.precedence (k :: a) c := by
  intro hstops hequal level hlevel t ht
  have hcall : ∀ {q}, op.precedence = .call → q = Precedence.primary := by
    intro q hcall
    cases op <;> cases hcall
  have hnext : Stops op.precedence.next c := by
    rwa [show operandLevel op.precedence = op.precedence.next by cases op <;> rfl] at hstops
  obtain ⟨hstops₁, hequal'⟩ := follows_tail hmore hcall
    not_operandLevel_next_le (hstops.le (operandLevel_le op.precedence)) hequal
  obtain ⟨hstops₂, -⟩ := follows_tail hmore hcall
    (fun _ => show ¬ op.precedence.next ≤ op.precedence by cases op <;> decide) hnext hequal
  refine more hstops hequal level hlevel t (resumes_continue ht hk hlevel ?_ ?_)
  · exact Nat.le_trans (Nat.le_add_right _ _) hoperand.length_le
  · intro depth s hdepth hs
    have hright := operand hstops₁ hequal' op.precedence.next (Nat.le_refl _) depth (by omega) s
      (.inl hs)
    exact Arrives.foldl (fun s op hs => hs.appendOp op) op.code (hright.arrives hstops₂ hequal')

/-- The second operand of `and` or `or` takes the chain behind it as well. -/
theorem resumes_shortCircuit (hp : p = .and ∨ p = .or)
    (hmore : Derives true (.tail p) b c) (operand : LadderAccepted p.next a b)
    (more : TailAccepted p b c) (hstops : Stops (operandLevel p) c)
    (hequal : c.head? ≠ some .equal) (hdepth : 2 * a.length + 1 ≤ depth) {s : State}
    (hs : s.Arrives a) : (expression depth p s).Arrives c := by
  have hlevel : operandLevel p = p := by rcases hp with rfl | rfl <;> rfl
  have hoperators : GrammarPart.operators p ≠ [] := by rcases hp with rfl | rfl <;> exact nofun
  obtain ⟨hstops', hequal'⟩ := follows_tail hmore (fun hcall => absurd (hcall ▸ rfl) hoperators)
    not_operandLevel_next_le (hstops.le (operandLevel_le p)) hequal
  refine (more hstops hequal p (Nat.le_refl _) _ ?_).arrives (hlevel ▸ hstops) hequal
  exact operand hstops' hequal' p (le_next p) depth hdepth s hs

theorem tailAccepted_moreOfChain (hk : k ∈ GrammarPart.operators p)
    (hoperand : Derives true (.ladder p.next) a b) (hmore : Derives true (.tail p) b c)
    (operand : LadderAccepted p.next a b) (more : TailAccepted p b c) :
    TailAccepted p (k :: a) c := by
  obtain ⟨c', hc, hcall, rfl⟩ := continuation_of_mem hk
  have hlen : c.length ≤ a.length := by
    have h₁ := hoperand.length_le
    have h₂ := hmore.length_le
    omega
  cases c' with
  | call => exact absurd rfl hcall
  | binary op => exact tailAccepted_binary hc hoperand hmore operand more
  | and =>
    intro hstops hequal level hlevel t ht
    refine resumes_continue ht hc hlevel hlen fun depth s hdepth hs => ?_
    rw [andForm_eq]
    exact (resumes_shortCircuit (.inl rfl) hmore operand more hstops hequal (by omega)
      (Arrives.branch (.inl hs))).landJump _
  | or =>
    intro hstops hequal level hlevel t ht
    refine resumes_continue ht hc hlevel hlen fun depth s hdepth hs => ?_
    rw [orForm_eq]
    have hother : s.otherwise.Arrives a :=
      (((Arrives.openJump (.inl hs) .jumpIfFalse).openJump .jump).landJump _).appendOp .pop
    exact (resumes_shortCircuit (.inr rfl) hmore operand more hstops hequal (by omega)
      hother).landJump _

/-! ## Operands -/

theorem opening_of_mem_prefixes (hk : k ∈ GrammarPart.prefixes) :
    ∃ op, k.opening? = some (.unary op) := by
  simp only [GrammarPart.prefixes, List.mem_cons, List.not_mem_nil, or_false] at hk
  rcases hk with rfl | rfl <;> exact ⟨_, rfl⟩

theorem actions_expression (depth : Nat) (level : Precedence) (s : State) :
    Actions s (expression depth level s) :=
  ((formsAct depth).expression level s).actions

theorem ladderAccepted_unary (hk : k ∈ GrammarPart.prefixes)
    (hoperand : Derives true (.ladder .unary) a b) (operand : LadderAccepted .unary a b) :
    LadderAccepted .unary (k :: a) b := by
  intro hstops hequal level hlevel depth hdepth s hs
  obtain ⟨op, hop⟩ := opening_of_mem_prefixes hk
  refine resumes_bind hs (actions_expression ..) fun hs => ?_
  refine resumes_open hs hop hdepth (Nat.le_trans (Nat.le_add_right _ _) hoperand.length_le) ?_
  intro depth s hdepth hs _ _
  exact ((operand hstops hequal .unary (Nat.le_refl _) depth (by omega) s (.inl hs)).arrives
    hstops hequal).appendOp _

/-- What is neither in parentheses nor assigned to is written at once. -/
theorem arrives_atom (hk : k ∈ GrammarPart.atoms) {opening : Opening}
    (hopening : k.opening? = some opening)
    {s : State} (hs : s.Stands a) (hkind : s.previous.kind = k) (hnumeral : s.previous.IsNumeral)
    (hequal : a.head? ≠ some .equal) (mayAssign : Bool) :
    (s.openExpression (expression depth) mayAssign opening).Arrives a := by
  have harrives : s.Arrives a := .inl hs
  cases opening with
  | group => cases kind_of_group hopening; exact absurd hk (by decide)
  | unary op => exact absurd (mem_prefixes hopening) fun hmem => absurd hk (by
      revert hmem
      cases k <;> decide)
  | name =>
    have hname := hkind.trans (kind_of_opening_name hopening)
    have hresolve := harrives.resolve hname
    have hsees : (s.resolve s.previous.lexeme).2.sees .equal = false := by
      rw [← Bool.not_eq_true, sees_iff]
      intro heq
      have hahead := ahead_of_upcoming (upcoming_resolve s s.previous.lexeme)
      rw [hs.ahead_eq, ahead_eq, heq] at hahead
      rw [← hahead] at hequal
      exact hequal rfl
    show (s.nameForm (expression depth .assignment) mayAssign).Arrives a
    unfold nameForm
    dsimp only
    rw [hsees, Bool.and_false]
    exact hresolve.appendWith _ _
  | string => exact harrives.pushLiteral nofun
  | number =>
    have hkind' : s.previous.kind = .number := by
      rw [hkind]
      cases k <;> first | rfl | cases hopening
    obtain ⟨d, hd⟩ := Option.isSome_iff_exists.mp (hnumeral hkind')
    show s.numberForm.Arrives a
    unfold numberForm
    rw [hd]
    exact harrives.pushLiteral nofun
  | literal op => exact harrives.appendOp op

theorem ladderAccepted_atom (hk : k ∈ GrammarPart.atoms) : LadderAccepted .primary (k :: a) a := by
  intro _ hequal level _ depth hdepth s hs
  obtain ⟨opening, hopening⟩ : ∃ o, k.opening? = some o := by
    simp only [GrammarPart.atoms, List.mem_cons, List.not_mem_nil, or_false] at hk
    rcases hk with rfl | rfl | rfl | rfl | rfl | rfl <;> exact ⟨_, rfl⟩
  refine resumes_bind hs (actions_expression ..) fun hs => ?_
  exact resumes_open hs hopening hdepth (Nat.le_refl _) fun depth s _ hs hkind hnumeral =>
    arrives_atom hk hopening hs hkind hnumeral hequal _

theorem ladderAccepted_group (hvalue : Derives true .expr a (.rightParen :: b))
    (value : ExprAccepted a (.rightParen :: b)) :
    LadderAccepted .primary (.leftParen :: a) b := by
  intro _ _ level _ depth hdepth s hs
  refine resumes_bind hs (actions_expression ..) fun hs => ?_
  refine resumes_open hs (show _ = some .group from rfl) hdepth ?_ fun depth s hdepth hs _ _ => ?_
  · have := hvalue.length_le
    rw [List.length_cons] at this
    omega
  · exact (value nofun depth (by omega) s (.inl hs)).require nofun _

/-! ## Calls -/

theorem ladderAccepted_calls (hmore : Derives true (.tail .call) b c)
    (callee : LadderAccepted .primary a b) (more : TailAccepted .call b c) :
    LadderAccepted .call a c := by
  intro hstops hequal level hlevel depth hdepth s hs
  obtain ⟨-, hequal'⟩ := follows_tail (q := .primary) hmore (fun _ => rfl) (absurd rfl)
    (stops_primary c) hequal
  exact more hstops hequal level hlevel _ (callee (stops_primary b) hequal' level
    (Nat.le_trans hlevel (by decide)) depth hdepth s hs)

theorem tailAccepted_emptyCall (more : TailAccepted .call a b) :
    TailAccepted .call (.leftParen :: .rightParen :: a) b := by
  intro hstops hequal level hlevel t ht
  refine more hstops hequal level hlevel t ?_
  refine resumes_continue (c := .call) ht rfl hlevel (by simp) fun depth s _ hs => ?_
  show (s.callForm (arguments depth 0)).Arrives a
  unfold callForm
  rw [if_pos hs.sees]
  exact (Arrives.require (.inl hs) nofun _).appendWith _ _

theorem tailAccepted_call (hvalues : Derives true .arguments a (.rightParen :: b))
    (values : ArgumentsAccepted a (.rightParen :: b)) (more : TailAccepted .call b c) :
    TailAccepted .call (.leftParen :: a) c := by
  intro hstops hequal level hlevel t ht
  refine more hstops hequal level hlevel t ?_
  refine resumes_continue (c := .call) ht rfl hlevel ?_ fun depth s hdepth hs => ?_
  · have := hvalues.length_le
    rw [List.length_cons] at this
    omega
  · have hsees : s.sees .rightParen = false := by
      obtain ⟨k, rest, rfl, hk⟩ := hvalues.arguments_opens
      exact hs.sees_ne _ (by rintro rfl; exact absurd hk (by decide))
    show (s.callForm (arguments depth 0)).Arrives b
    unfold callForm
    rw [hsees]
    exact ((values rfl depth 0 (by omega) s (.inl hs)).require nofun _).appendWith _ _

theorem argumentsAccepted_last (value : ExprAccepted a b) : ArgumentsAccepted a b := by
  intro hend depth count hdepth
  refine accepts_of_stands (fun s => ((formsAct depth).arguments count s).actions) fun s hs => ?_
  obtain ⟨depth, rfl⟩ : ∃ d, depth = d + 1 := ⟨depth - 1, by omega⟩
  have hvalue := (value (by rw [hend]; nofun) depth (by omega) s.tick
    (Arrives.tick (.inl hs))).countArgument count
  unfold arguments
  dsimp only
  split
  · next hcomma =>
    refine hvalue.bind (Edits.actions ((Edit.read _).edits.trans
      ((formsAct depth).arguments _ _))) fun hvalue => ?_
    have hhead := hvalue.ahead_eq
    rw [ahead_eq, sees_iff.mp hcomma] at hhead
    rw [← hhead] at hend
    cases hend
  · exact hvalue

theorem argumentsAccepted_more (hvalue : Derives true .expr a (.comma :: b))
    (value : ExprAccepted a (.comma :: b)) (more : ArgumentsAccepted b c) :
    ArgumentsAccepted a c := by
  intro hend depth count hdepth
  refine accepts_of_stands (fun s => ((formsAct depth).arguments count s).actions) fun s hs => ?_
  obtain ⟨depth, rfl⟩ : ∃ d, depth = d + 1 := ⟨depth - 1, by omega⟩
  have hlen := hvalue.length_le
  rw [List.length_cons] at hlen
  have hvalue :=
    (value (by simp) depth (by omega) s.tick (Arrives.tick (.inl hs))).countArgument count
  unfold arguments
  dsimp only
  split
  · exact more hend depth _ (by omega) _ (hvalue.read (by decide))
  · next hcomma =>
    refine hvalue.bind .refl fun hvalue => ?_
    exact absurd hvalue.sees hcomma

/-! ## Whole expressions -/

theorem exprAccepted_value (hvalue : ∀ k ∈ b.head?, ¬ GrammarPart.GoesOn k)
    (value : LadderAccepted .or a b) : ExprAccepted a b := by
  intro hequal depth hdepth s hs
  have hstops := stops_of_longest hvalue
  have hresumes := value (hstops _) hequal .assignment (by decide) depth hdepth s hs
  exact hresumes.arrives (hstops _) hequal

theorem exprAccepted_assignment (hvalue : Derives true .expr a b) (value : ExprAccepted a b) :
    ExprAccepted (.identifier :: .equal :: a) b := by
  intro hequal depth hdepth
  have hstops := stops_of_longest hvalue.expr_longest
  have hlen := hvalue.length_le
  refine accepts_of_stands (actions_expression depth _) fun s hs => ?_
  refine (resumes_open (b := b) hs (show _ = some .name from rfl) hdepth ?_
    fun depth s hdepth hs hkind _ => ?_).arrives (hstops _) hequal
  · rw [List.length_cons]
    omega
  · rw [List.length_cons] at hdepth
    have hresolve := Arrives.resolve (.inl hs) hkind
    have hset : ∀ (t : State) (op : Opcode) (n : Nat),
        Edits t ((expression depth .assignment t.read).appendWith op n) := fun t op n =>
      (Edit.read t).edits.trans (((formsAct depth).expression _ _).trans (edits_appendWith ..))
    show (s.nameForm (expression depth .assignment) true).Arrives b
    unfold nameForm
    dsimp only
    rw [Bool.true_and]
    split
    · exact (value hequal depth (by omega) _ (hresolve.read nofun)).appendWith _ _
    · next hsees =>
      refine hresolve.bind (edits_appendWith ..).actions fun hresolve => ?_
      exact absurd hresolve.sees hsees

end Expressions

end ScriptEngine.Compile
