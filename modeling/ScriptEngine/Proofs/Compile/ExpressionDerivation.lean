import ScriptEngine.Proofs.Grammar
import ScriptEngine.Proofs.Compile.Input
import ScriptEngine.Proofs.Compile.ProgramCode
set_option autoImplicit false

/-!
# Compilation: accepted expressions are in the grammar

A pass that reports nothing has read a word of the part of the grammar that it stands
for (`PassDerives`).  Every form of expression is proved to do so if its parts do, and
the mutual recursion ties the forms together (`expressionsDerive`).

An operator is only told from the end of an expression by how tightly it binds.  What
carries the induction over the loop of operators is that the one that comes next binds
no tighter than the level of what was read so far (`Weaker`).
-/

namespace ScriptEngine.Compile

open State

/-! ## Operators of the table -/

theorem mem_operators {k : TokenKind} {c : Continuation} (h : k.continuation? = some c)
    (hc : c ≠ .call) : k ∈ GrammarPart.operators c.precedence := by
  cases k <;> cases h <;> first | exact absurd rfl hc | decide

theorem kind_of_call {k : TokenKind} (h : k.continuation? = some .call) : k = .leftParen := by
  cases k <;> first | rfl | cases h

theorem goesOn_of_continuation {k : TokenKind} {c : Continuation}
    (h : k.continuation? = some c) : GrammarPart.GoesOn k := by
  by_cases hc : c = .call
  · exact .inl (kind_of_call (hc ▸ h))
  · exact .inr ⟨_, mem_operators h hc⟩

theorem continuation_of_mem {k : TokenKind} {p : Precedence} (h : k ∈ GrammarPart.operators p) :
    ∃ c, k.continuation? = some c ∧ c ≠ .call ∧ c.precedence = p := by
  cases p <;> simp only [GrammarPart.operators, List.mem_cons, List.not_mem_nil, or_false] at h
  case or | and =>
    subst h
    exact ⟨_, rfl, nofun, rfl⟩
  case equality | term | factor => rcases h with rfl | rfl <;> exact ⟨_, rfl, nofun, rfl⟩
  case comparison =>
    rcases h with rfl | rfl | rfl | rfl <;> exact ⟨_, rfl, nofun, rfl⟩

theorem continuation_of_goesOn {k : TokenKind} (h : GrammarPart.GoesOn k) :
    ∃ c, k.continuation? = some c := by
  rcases h with rfl | ⟨p, hp⟩
  · exact ⟨_, rfl⟩
  · obtain ⟨c, hc, -⟩ := continuation_of_mem hp
    exact ⟨c, hc⟩

theorem mem_prefixes {k : TokenKind} {op : UnaryOperator} (h : k.opening? = some (.unary op)) :
    k ∈ GrammarPart.prefixes := by
  cases k <;> cases h <;> decide

theorem mem_atoms {k : TokenKind} {o : Opening} (h : k.opening? = some o) (hgroup : o ≠ .group)
    (hunary : ∀ op, o ≠ .unary op) : k ∈ GrammarPart.atoms := by
  cases k <;> cases h <;> first
    | exact absurd rfl hgroup
    | exact absurd rfl (hunary _)
    | decide

theorem kind_of_group {k : TokenKind} (h : k.opening? = some .group) : k = .leftParen := by
  cases k <;> first | rfl | cases h

/-! ## Limits of expressions -/

/-- No operator follows that binds as tightly as a level. -/
def Stops (level : Precedence) (ks : List TokenKind) : Prop :=
  ∀ k ∈ ks.head?, ∀ c, k.continuation? = some c → ¬ level ≤ c.precedence

/-- No operator follows that binds tighter than a level. -/
def Weaker (level : Precedence) (ks : List TokenKind) : Prop :=
  ∀ k ∈ ks.head?, ∀ c, k.continuation? = some c → c.precedence ≤ level

theorem assignment_le (c : Continuation) : Precedence.assignment ≤ c.precedence :=
  Nat.le_of_lt (precedence_continuation_pos c)

theorem not_le_assignment (c : Continuation) : ¬ c.precedence ≤ .assignment :=
  Nat.not_le.mpr (precedence_continuation_pos c)

theorem le_call (c : Continuation) : c.precedence ≤ .call := by
  cases c with
  | binary op => cases op <;> decide
  | _ => decide

theorem le_primary (p : Precedence) : p ≤ .primary := by
  cases p <;> decide

/-- Behind an expression of the lowest level nothing goes on. -/
theorem Stops.le {p q : Precedence} {ks : List TokenKind} (h : Stops p ks) (hpq : p ≤ q) :
    Stops q ks :=
  fun k hk c hc hle => h k hk c hc (Nat.le_trans hpq hle)

theorem Stops.weaker {p : Precedence} {ks : List TokenKind} (h : Stops p ks) : Weaker p ks :=
  fun k hk c hc => Nat.le_of_lt (Nat.lt_of_not_le (h k hk c hc))

/-- What does not bind as tightly as the next level binds no tighter than this one. -/
theorem Stops.weaker_next {op : BinaryOperator} {ks : List TokenKind}
    (h : Stops op.precedence.next ks) : Weaker op.precedence ks := by
  intro k hk c hc
  have hlt : c.precedence.rank < op.precedence.next.rank := Nat.lt_of_not_le (h k hk c hc)
  have hnext : op.precedence.next.rank = op.precedence.rank + 1 := by cases op <;> rfl
  rw [hnext] at hlt
  exact Nat.le_of_lt_succ hlt

variable {greedy : Bool} {left : Nat}

/-- An expression has been read, as far as operators of a level are concerned. -/
structure Whole (greedy : Bool) (level : Precedence) (a b : List TokenKind) : Prop where
  stops : Stops level b
  derives : if level ≤ .assignment then Derives greedy .expr a b
    else Derives greedy (.ladder level) a b

theorem Whole.expr {level : Precedence} {a b : List TokenKind} (h : Whole greedy level a b)
    (hlevel : level ≤ .assignment) : Derives greedy .expr a b := by
  have hderives := h.derives
  rwa [if_pos hlevel] at hderives

theorem Whole.ladder {level : Precedence} {a b : List TokenKind} (h : Whole greedy level a b)
    (hlevel : ¬ level ≤ .assignment) : Derives greedy (.ladder level) a b := by
  have hderives := h.derives
  rwa [if_neg hlevel] at hderives

/-- An expression has been read that operators of a level may still follow. -/
def Begun (greedy : Bool) (level : Precedence) (a b : List TokenKind) : Prop :=
  Whole greedy level a b ∨
    ∃ r, level ≤ r ∧ ¬ r ≤ .assignment ∧ Derives greedy (.ladder r) a b ∧ Weaker r b

/-- An expression ends where no operator of its level follows. -/
theorem Begun.whole {level : Precedence} {a b : List TokenKind} (h : Begun greedy level a b)
    (hstops : Stops level b) : Whole greedy level a b := by
  rcases h with h | ⟨r, hle, hr, hderives, -⟩
  · exact h
  · refine ⟨hstops, ?_⟩
    split
    · next hlevel =>
      refine .value (fun _ k hk hgoes => ?_) (hderives.lift ?_ (by decide))
      · obtain ⟨c, hc⟩ := continuation_of_goesOn hgoes
        exact hstops k hk c hc (Nat.le_trans hlevel (assignment_le c))
      · exact Nat.lt_of_not_le hr
    · next hlevel => exact hderives.lift hle hlevel

/-- An operator of the level has an expression of its own level before it. -/
theorem Begun.ladder {level : Precedence} {a b : List TokenKind} {k : TokenKind}
    {c : Continuation} (h : Begun greedy level a (k :: b)) (hc : k.continuation? = some c)
    (hlevel : level ≤ c.precedence) : Derives greedy (.ladder c.precedence) a (k :: b) := by
  rcases h with h | ⟨r, -, -, hderives, hweaker⟩
  · exact absurd hlevel (h.stops k rfl c hc)
  · exact hderives.lift (hweaker k rfl c hc) (not_le_assignment c)

/-! ## Contracts -/

/-- The operands of operators stand on these levels. -/
def IsOperand (level : Precedence) : Prop := .assignment ≤ level ∧ level ≤ .unary

/-- A pass that reads words of a part of the grammar, if it starts with at most `left`
tokens. -/
structure PassDerives (greedy : Bool) (left : Nat) (pass : Pass) (part : GrammarPart) : Prop where
  actions : ∀ s, Actions s (pass s)
  derives : ∀ s, s.InOrder → (pass s).IsQuiet → s.left ≤ left →
    Derives greedy part s.ahead (pass s).ahead

/-- A pass that reads expressions of a level. -/
structure PassReads (greedy : Bool) (left : Nat) (pass : Pass) (level : Precedence) : Prop where
  edits : ∀ s, Edits s (pass s)
  whole : ∀ s, s.InOrder → (pass s).IsQuiet → s.left ≤ left →
    Whole greedy level s.ahead (pass s).ahead

theorem PassReads.expr {pass : Pass} (h : PassReads greedy left pass .assignment) :
    PassDerives greedy left pass .expr :=
  ⟨fun s => (h.edits s).actions, fun s hs hq hleft => (h.whole s hs hq hleft).expr (by decide)⟩

namespace State

section Expressions

variable {operand : Precedence → Pass} {arguments : State → Nat × State}

/-! ## What opens an expression -/

theorem begun_nameForm {expression : Pass} (he : PassReads greedy left expression .assignment)
    {level : Precedence} {s : State} (hs : s.InOrder) (hname : s.previous.kind = .identifier)
    (hq : (s.nameForm expression (decide (level ≤ .assignment))).IsQuiet) (hleft : s.left ≤ left) :
    Begun greedy level (.identifier :: s.ahead)
      (s.nameForm expression (decide (level ≤ .assignment))).ahead := by
  have hresolve := edits_resolve hname
  have hkinds : (s.resolve s.previous.lexeme).2.ahead = s.ahead :=
    ahead_of_upcoming (upcoming_resolve ..)
  unfold nameForm at hq ⊢
  dsimp only at hq ⊢
  split at hq
  · next hassign =>
    rw [if_pos hassign]
    obtain ⟨hlevel, hequal⟩ := Bool.and_eq_true_iff.mp hassign
    have hq₂ := (edits_appendWith ..).isQuiet hq
    have hq₁ := (he.edits _).isQuiet hq₂
    have hs₁ := hresolve.inOrder hs ((Edit.read _).isQuiet hq₁)
    have hread := hs₁.ahead_read hq₁ (by rw [sees_iff.mp hequal]; nofun)
    rw [sees_iff.mp hequal, hkinds] at hread
    have hlevel := of_decide_eq_true hlevel
    have hwhole := he.whole _ (hs₁.read hq₁) hq₂
      (Nat.le_trans (Edits.left_le (hresolve.trans (Edit.read _).edits)) hleft)
    rw [ahead_of_upcoming (upcoming_appendWith ..), hread]
    refine .inl ⟨fun k hk c hc _ => hwhole.stops k hk c hc (assignment_le c), ?_⟩
    rw [if_pos hlevel]
    exact .assignment (hwhole.expr (by decide))
  · next hassign =>
    rw [if_neg hassign, ahead_of_upcoming (upcoming_appendWith ..), hkinds]
    exact .inr ⟨.primary, le_primary level, by decide, .atom (by decide),
      fun _ _ c _ => le_primary c.precedence⟩

theorem begun_openExpression
    (ho : ∀ p, IsOperand p → PassReads greedy left (operand p) p) {level : Precedence}
    (hlevel : IsOperand level) {opening : Opening} {s : State} (hs : s.InOrder)
    (hopening : s.previous.kind.opening? = some opening)
    (hq : (s.openExpression operand (decide (level ≤ .assignment)) opening).IsQuiet)
    (hleft : s.left ≤ left) :
    Begun greedy level (s.previous.kind :: s.ahead)
      (s.openExpression operand (decide (level ≤ .assignment)) opening).ahead := by
  have hatom : ∀ t : State, t.ahead = s.ahead → opening ≠ .group →
      (∀ op, opening ≠ .unary op) → Begun greedy level (s.previous.kind :: s.ahead) t.ahead := by
    intro t ht hgroup hunary
    rw [ht]
    exact .inr ⟨.primary, le_primary level, by decide, .atom (mem_atoms hopening hgroup hunary),
      fun _ _ c _ => le_primary c.precedence⟩
  cases opening with
  | group =>
    have he := ho .assignment ⟨by decide, by decide⟩
    have hq₁ := (edits_require ..).isQuiet hq
    have hs₁ := (he.edits s).inOrder hs hq₁
    have hclose := hs₁.ahead_require hq nofun
    have hderives := (he.whole s hs hq₁ hleft).expr (by decide)
    rw [hclose] at hderives
    rw [kind_of_group hopening]
    exact .inr ⟨.primary, le_primary level, by decide, .group hderives,
      fun _ _ c _ => le_primary c.precedence⟩
  | unary op =>
    have he := ho .unary ⟨by decide, by decide⟩
    have hq₁ := (edits_appendOp ..).isQuiet hq
    have hwhole := he.whole s hs hq₁ hleft
    exact .inr ⟨.unary, hlevel.2, by decide,
      .unary (mem_prefixes hopening) (hwhole.ladder (by decide)), hwhole.stops.weaker⟩
  | name =>
    have hname := kind_of_opening_name hopening
    have hbegun := begun_nameForm (ho .assignment ⟨by decide, by decide⟩) hs hname hq hleft
    rwa [hname]
  | string => exact hatom _ (ahead_of_upcoming (upcoming_pushLiteral ..)) nofun nofun
  | number =>
    refine hatom _ ?_ nofun nofun
    show s.numberForm.ahead = s.ahead
    unfold numberForm
    split
    · exact ahead_of_upcoming (upcoming_pushLiteral ..)
    · exact ahead_of_upcoming (upcoming_complainAt ..)
  | literal op => exact hatom _ (ahead_of_upcoming (upcoming_appendOp ..)) nofun nofun

/-! ## What continues an expression -/

/-- Arguments are read after `count` others. -/
def ArgumentsRead (greedy : Bool) (left : Nat) (arguments : State → Nat × State) : Prop :=
  (∀ s, Edits s (arguments s).2) ∧ ∀ s, s.InOrder → (arguments s).2.IsQuiet → s.left ≤ left →
    Derives greedy .arguments s.ahead (arguments s).2.ahead

/-- The state before the second operand of `or`. -/
def otherwise (s : State) : State :=
  (((s.openJump .jumpIfFalse).2.openJump .jump).2.landJump
    (s.openJump .jumpIfFalse).1).appendOp .pop

theorem edits_otherwise (s : State) : Edits s s.otherwise := by
  have hopen := (Edit.openJump s .jumpIfFalse).edits.trans (Edit.openJump _ .jump).edits
  exact (hopen.trans (Edit.landJump _ _).edits).trans (edits_appendOp _ .pop)

theorem ahead_otherwise (s : State) : s.otherwise.ahead = s.ahead := by
  refine ahead_of_upcoming ((upcoming_appendOp _ .pop).trans ?_)
  exact (upcoming_landJump ..).trans ((upcoming_openJump _ .jump).trans (upcoming_openJump ..))

theorem andForm_eq (s : State) : s.continueExpression operand arguments .and =
    (operand .and s.branch).landJump (s.openJump .jumpIfFalse).1 := rfl

theorem orForm_eq (s : State) : s.continueExpression operand arguments .or =
    (operand .or s.otherwise).landJump ((s.openJump .jumpIfFalse).2.openJump .jump).1 := rfl

/-- The operator of the level of a chain is read with the first operand behind it. -/
theorem derives_shortCircuit {p : Precedence} {k : TokenKind} {a b : List TokenKind}
    (hp : GrammarPart.operators p ≠ []) (hk : k ∈ GrammarPart.operators p)
    (h : Derives greedy (.ladder p) a b) : Derives greedy (.tail p) (k :: a) b := by
  cases h with
  | chain _ first more => exact .moreOfChain hk first more
  | unary | plain | calls | atom | group => exact absurd rfl hp

/-- Behind an operator stands an operand, and behind that an operator of the same level at
most. -/
theorem derives_continueExpression
    (ho : ∀ p, IsOperand p → PassReads greedy left (operand p) p)
    (ha : ArgumentsRead greedy left arguments) {c : Continuation} {k : TokenKind}
    (hc : k.continuation? = some c) {s : State} (hs : s.InOrder)
    (hq : (s.continueExpression operand arguments c).IsQuiet) (hleft : s.left ≤ left) :
    Derives greedy (.tail c.precedence) (k :: s.ahead)
        (s.continueExpression operand arguments c).ahead ∧
      Weaker c.precedence (s.continueExpression operand arguments c).ahead := by
  cases c with
  | call =>
    refine ⟨?_, fun _ _ c' _ => le_call c'⟩
    rw [kind_of_call hc]
    unfold continueExpression callForm at hq ⊢
    dsimp only at hq ⊢
    rw [ahead_of_upcoming (upcoming_appendWith ..)]
    have hq₁ := (edits_appendWith ..).isQuiet hq
    split at hq₁
    · next hempty =>
      rw [if_pos hempty]
      rw [hs.ahead_require hq₁ nofun]
      exact .emptyCall .endOfChain
    · next hempty =>
      rw [if_neg hempty]
      have hq₂ := (edits_require ..).isQuiet hq₁
      have hderives := ha.2 s hs hq₂ hleft
      rw [((ha.1 s).inOrder hs hq₂).ahead_require hq₁ nofun] at hderives
      exact .call hderives .endOfChain
  | binary op =>
    have hnext : ¬ op.precedence.next ≤ .assignment := by cases op <;> decide
    have hlevel : IsOperand op.precedence.next := by cases op <;> exact ⟨by decide, by decide⟩
    have hcode := edits_foldl edits_appendOp op.code (operand op.precedence.next s)
    have hwhole := (ho _ hlevel).whole s hs (hcode.isQuiet hq) hleft
    have hkinds : (s.continueExpression operand arguments (.binary op)).ahead =
        (operand op.precedence.next s).ahead :=
      ahead_of_upcoming (upcoming_foldl (fun _ _ => upcoming_appendOp ..) _ _)
    rw [hkinds]
    exact ⟨.moreOfChain (mem_operators hc nofun) (hwhole.ladder hnext) .endOfChain,
      hwhole.stops.weaker_next⟩
  | and =>
    have he := ho .and ⟨by decide, by decide⟩
    rw [andForm_eq] at hq ⊢
    rw [ahead_of_upcoming (upcoming_landJump ..)]
    have hq₁ := (Edit.landJump _ _).isQuiet hq
    have hs₁ := (edits_branch s).inOrder hs ((he.edits _).isQuiet hq₁)
    have hwhole := he.whole s.branch hs₁ hq₁ hleft
    exact ⟨derives_shortCircuit nofun (mem_operators hc nofun) (hwhole.ladder (by decide)),
      hwhole.stops.weaker⟩
  | or =>
    have he := ho .or ⟨by decide, by decide⟩
    rw [orForm_eq] at hq ⊢
    rw [ahead_of_upcoming (upcoming_landJump ..), ← ahead_otherwise]
    have hq₁ := (Edit.landJump _ _).isQuiet hq
    have hs₁ := (edits_otherwise s).inOrder hs ((he.edits _).isQuiet hq₁)
    have hwhole := he.whole s.otherwise hs₁ hq₁ (Nat.le_trans (edits_otherwise s).left_le hleft)
    exact ⟨derives_shortCircuit nofun (mem_operators hc nofun) (hwhole.ladder (by decide)),
      hwhole.stops.weaker⟩

end Expressions

end State

/-! ## The mutual forms of expressions -/

/-- What is proved of the expressions at once, for one bound on the depth. -/
structure ExpressionsDerive (greedy : Bool) (depth : Nat) : Prop where
  expression : ∀ level, IsOperand level → ∀ left, 2 * left + 1 ≤ depth →
    PassReads greedy left (expression depth level) level
  /-- What has been read of an expression is completed. -/
  continuations : ∀ level left, 2 * left + 1 ≤ depth → ∀ (a : List TokenKind) (s : State),
    s.InOrder → (continuations depth level s).IsQuiet → s.left ≤ left →
    Begun greedy level a s.ahead → Whole greedy level a (continuations depth level s).ahead
  arguments : ∀ count left, 2 * left + 2 ≤ depth →
    ArgumentsRead greedy left (arguments depth count)

theorem inOrder_tick {s : State} (hs : s.InOrder) : s.tick.InOrder :=
  (Edit.tick s).edits.inOrder hs hs.quiet

/-- A token that is not the end was read, so that less is left behind it. -/
theorem left_read_le_of_ne {s : State} (hk : s.current.kind ≠ .endOfSource) {left : Nat}
    (hleft : s.left ≤ left) : 0 < left ∧ s.read.left ≤ left - 1 :=
  left_read_le_pred rfl hk hleft

theorem passReads_expression_succ {depth : Nat} (h : ExpressionsDerive greedy depth)
    {level : Precedence} (hlevel : IsOperand level) {left : Nat}
    (hdepth : 2 * left + 1 ≤ depth + 1) :
    PassReads greedy left (expression (depth + 1) level) level where
  edits := (formsAct (depth + 1)).expression level
  whole s hs hq hleft := by
    have hs₀ := inOrder_tick hs
    unfold expression at hq ⊢
    dsimp only at hq ⊢
    split at hq
    · next hopening =>
      have hs₁ := hs₀.read ((edits_complain ..).isQuiet hq)
      exact absurd hq (not_isQuiet_complain hs₁.toSane _)
    · next opening hopening =>
      have hopen := edits_openExpression (formsAct depth).expression
        (decide (level ≤ .assignment)) hopening
      have hcont := (formsAct depth).continuations level (s.tick.read.openExpression
        (expression depth) (decide (level ≤ .assignment)) opening)
      have hq₃ := (edits_refuseAssignment ..).isQuiet hq
      have hq₂ := hcont.isQuiet hq₃
      have hq₁ := hopen.isQuiet hq₂
      have hs₁ := hs₀.read hq₁
      have hs₂ := hopen.inOrder hs₁ hq₂
      have hend : s.tick.current.kind ≠ .endOfSource :=
        fun hend => sees_of_opening hopening (sees_iff.mpr hend)
      obtain ⟨hpos, hleft₁⟩ := left_read_le_of_ne hend hleft
      have hahead : s.ahead = s.tick.read.previous.kind :: s.tick.read.ahead := by
        rw [previous_read hs₀.toSane hq₁]
        exact hs₀.ahead_read hq₁ hend
      rw [carries_refuseAssignment (hcont.inOrder hs₂ hq₃).toSane hq, hahead]
      have hbegun := begun_openExpression
        (fun p hp => h.expression p hp (left - 1) (by omega)) hlevel hs₁ hopening hq₂ hleft₁
      exact h.continuations level (left - 1) (by omega) _ _ hs₂ hq₃
        (Nat.le_trans hopen.left_le hleft₁) hbegun

theorem whole_continuations_succ {depth : Nat} (h : ExpressionsDerive greedy depth)
    (level : Precedence) {left : Nat} (hdepth : 2 * left + 1 ≤ depth + 1) {a : List TokenKind}
    {s : State} (hs : s.InOrder) (hq : (continuations (depth + 1) level s).IsQuiet)
    (hleft : s.left ≤ left) (hbegun : Begun greedy level a s.ahead) :
    Whole greedy level a (continuations (depth + 1) level s).ahead := by
  have hs₀ := inOrder_tick hs
  unfold continuations at hq ⊢
  split at hq
  · next hnone =>
    refine hbegun.whole fun k hk c hc => ?_
    cases hk
    rw [hnone] at hc
    cases hc
  · next c hc =>
    split at hq
    · next hlevel =>
      rw [if_pos hlevel]
      have hend : s.tick.current.kind ≠ .endOfSource := by
        intro hend
        have hc' : s.tick.current.kind.continuation? = some c := hc
        rw [hend] at hc'
        cases hc'
      obtain ⟨hpos, hleft₁⟩ := left_read_le_of_ne hend hleft
      have hform := edits_continueExpression (formsAct depth).expression
        ((formsAct depth).arguments 0) c s.tick.read
      have hq₂ := ((formsAct depth).continuations level _).isQuiet hq
      have hq₁ := hform.isQuiet hq₂
      have hs₁ := hs₀.read hq₁
      have hahead : s.ahead = s.current.kind :: s.tick.read.ahead := hs₀.ahead_read hq₁ hend
      obtain ⟨htail, hweaker⟩ := derives_continueExpression
        (fun p hp => h.expression p hp (left - 1) (by omega))
        (h.arguments 0 (left - 1) (by omega)) hc hs₁ hq₂ hleft₁
      rw [hahead] at hbegun
      refine h.continuations level (left - 1) (by omega) a _ (hform.inOrder hs₁ hq₂) hq
        (Nat.le_trans hform.left_le hleft₁) (.inr ⟨c.precedence, hlevel, not_le_assignment c, ?_,
          hweaker⟩)
      refine (hbegun.ladder hc hlevel).ladder_append htail ?_
      by_cases hcall : c = .call
      · exact .inr (congrArg Continuation.precedence hcall)
      · exact .inl (List.ne_nil_of_mem (mem_operators hc hcall))
    · next hlevel =>
      rw [if_neg hlevel]
      refine hbegun.whole fun k hk c' hc' => ?_
      cases hk
      rw [hc] at hc'
      cases hc'
      exact hlevel

theorem argumentsRead_succ {depth : Nat} (h : ExpressionsDerive greedy depth)
    (count : Nat) {left : Nat} (hdepth : 2 * left + 2 ≤ depth + 1) :
    ArgumentsRead greedy left (arguments (depth + 1) count) := by
  refine ⟨(formsAct (depth + 1)).arguments count, fun s hs hq hleft => ?_⟩
  have hs₀ := inOrder_tick hs
  have hedits := (formsAct depth).expression .assignment s.tick
  have he := (h.expression .assignment ⟨by decide, by decide⟩ left (by omega)).expr
  have hcount := edits_countArgument (expression depth .assignment s.tick) count
  have hahead : ((expression depth .assignment s.tick).countArgument count).2.ahead =
      (expression depth .assignment s.tick).ahead := ahead_of_upcoming (upcoming_countArgument ..)
  unfold arguments at hq ⊢
  dsimp only at hq ⊢
  split at hq
  · next hcomma =>
    rw [if_pos hcomma]
    have hq₃ := ((formsAct depth).arguments _ _).isQuiet hq
    have hq₂ := (Edit.read _).isQuiet hq₃
    have hq₁ := hcount.isQuiet hq₂
    have hs₂ := hcount.inOrder (hedits.inOrder hs₀ hq₁) hq₂
    have hkind := sees_iff.mp hcomma
    have hend := ne_of_eq_of_ne hkind (show TokenKind.comma ≠ .endOfSource by decide)
    obtain ⟨hpos, hleft₁⟩ := left_read_le_of_ne hend
      (Nat.le_trans (Edits.left_le (hedits.trans hcount)) hleft)
    have hvalue := he.derives s.tick hs₀ hq₁ hleft
    rw [← hahead, hs₂.ahead_read hq₃ hend, hkind] at hvalue
    exact .moreArguments hvalue
      ((h.arguments _ (left - 1) (by omega)).2 _ (hs₂.read hq₃) hq hleft₁)
  · next hcomma =>
    rw [if_neg hcomma, hahead]
    exact .lastArgument (he.derives s.tick hs₀ (hcount.isQuiet hq) hleft)

/-- Each expression is a word of the grammar, for every bound that is large enough. -/
theorem expressionsDerive (greedy : Bool) (depth : Nat) : ExpressionsDerive greedy depth := by
  induction depth with
  | zero => constructor <;> intros <;> omega
  | succ depth ih =>
    exact ⟨fun _ hlevel _ hdepth => passReads_expression_succ ih hlevel hdepth,
      fun level _ hdepth _ _ hs hq hleft hbegun =>
        whole_continuations_succ ih level hdepth hs hq hleft hbegun,
      fun count _ hdepth => argumentsRead_succ ih count hdepth⟩

end ScriptEngine.Compile
