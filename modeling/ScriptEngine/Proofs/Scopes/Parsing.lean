import ScriptEngine.Proofs.Lexis.Tiling
import ScriptEngine.Proofs.Loops.Desugaring
set_option autoImplicit false

/-!
# Trees of sources

Words that the grammar derives are the spelling of a tree (`takes_of_derives`), so that every source
that compiles spells some declarations (`exists_spelled`).  The reading of the grammar has to be the
greedy one: only then does no part of a tree go on with the word that follows it.
-/

namespace ScriptEngine

namespace Tree

open Compile TokenKind

/-! ## Words and their kinds -/

/-- The text is one that words of the kind have. -/
structure Word.IsProper (w : Word) : Prop where
  fixed : w.kind ∉ [identifier, number, string] → w = mark w.kind
  quoted : w.kind = .string → ∃ text, w.text = "\"" ++ text ++ "\""

theorem isProper_end : (mark .endOfSource).IsProper :=
  ⟨fun _ => rfl, fun h => absurd h (by decide)⟩

/-- Words of the kinds `a` start with words that have a property, behind which words of the kinds
`b` are left.  The property may depend on the word that follows, or on the end of the source if
there is none. -/
def Takes (P : Word → List Word → Prop) (a b : List TokenKind) : Prop :=
  ∀ us : List Word, us.map Word.kind = a → (∀ w ∈ us, w.IsProper) →
    ∃ ws vs, us = ws ++ vs ∧ vs.map Word.kind = b ∧ P (vs.headD (mark .endOfSource)) ws

namespace Takes

variable {P Q : Word → List Word → Prop} {a b c : List TokenKind} {k : TokenKind}

theorem nothing (h : ∀ next : Word, next.kind = a.headD .endOfSource → next.IsProper → P next []) :
    Takes P a a := by
  intro us hus hproper
  refine ⟨[], us, rfl, hus, ?_⟩
  cases us with
  | nil => exact h _ (hus ▸ rfl) isProper_end
  | cons w us => exact h w (hus ▸ rfl) (hproper w List.mem_cons_self)

theorem mono (h : Takes P a b) (hpq : ∀ next ws, P next ws → Q next ws) : Takes Q a b := by
  intro us hus hproper
  obtain ⟨ws, vs, rfl, hvs, hp⟩ := h us hus hproper
  exact ⟨ws, vs, rfl, hvs, hpq _ _ hp⟩

/-- Nothing is taken. -/
theorem none (a : List TokenKind) : Takes (fun _ ws => ws = []) a a :=
  nothing fun _ _ _ => rfl

theorem word (h : Takes P a b) :
    Takes (fun next ws => ∃ w vs, ws = w :: vs ∧ w.kind = k ∧ w.IsProper ∧ P next vs) (k :: a)
      b := by
  intro us hus hproper
  obtain ⟨w, us, rfl, hk, htail⟩ := List.map_eq_cons_iff.mp hus
  obtain ⟨hw, hrest⟩ := List.forall_mem_cons.mp hproper
  obtain ⟨ws, vs, rfl, hvs, hp⟩ := h us htail hrest
  exact ⟨w :: ws, vs, rfl, hvs, w, ws, rfl, hk, hw, hp⟩

/-- A word of a kind with a single text. -/
theorem mark (h : Takes P a b) (hk : k ∉ [identifier, number, string]) :
    Takes (fun next ws => ∃ vs, ws = Tree.mark k :: vs ∧ P next vs) (k :: a) b := by
  refine h.word.mono ?_
  rintro next _ ⟨w, vs, rfl, rfl, hw, hp⟩
  exact ⟨vs, by rw [← hw.fixed hk], hp⟩

theorem name (h : Takes P a b) :
    Takes (fun next ws => ∃ x vs, ws = ⟨.identifier, x⟩ :: vs ∧ P next vs) (.identifier :: a)
      b := by
  refine h.word.mono ?_
  rintro next _ ⟨⟨_, x⟩, vs, rfl, rfl, -, hp⟩
  exact ⟨x, vs, rfl, hp⟩

/-- A last word of a kind with a single text. -/
theorem last (hk : k ∉ [identifier, number, string]) (a : List TokenKind) :
    Takes (fun _ ws => ws = [Tree.mark k]) (k :: a) a := by
  refine ((none a).mark hk).mono ?_
  rintro next _ ⟨_, rfl, rfl⟩
  rfl

/-- Words of one property, and then words of another one.  What follows the former is the first of
the latter, if there are any. -/
theorem append (h : Takes P a b) (h' : Takes Q b c) :
    Takes (fun next ws => ∃ us vs, ws = us ++ vs ∧ P (vs.headD next) us ∧ Q next vs) a c := by
  intro us hus hproper
  obtain ⟨ws, us', rfl, hus', hp⟩ := h us hus hproper
  obtain ⟨ws', vs, rfl, hvs, hq⟩ := h' us' hus' (List.forall_mem_append.mp hproper).2
  refine ⟨ws ++ ws', vs, (List.append_assoc ..).symm, hvs, ws, ws', rfl, ?_, hq⟩
  cases ws' <;> exact hp

/-- Nothing that follows goes on with an expression that is as long as it can be. -/
theorem calm (h : Takes P a b) (hlongest : ∀ k ∈ b.head?, ¬ GrammarPart.GoesOn k) :
    Takes (fun next ws => P next ws ∧ (next.kind ≠ .equal → Calm next)) a b := by
  intro us hus hproper
  obtain ⟨ws, vs, rfl, hvs, hp⟩ := h us hus hproper
  refine ⟨ws, vs, rfl, hvs, hp, fun hequal => ⟨?_, hequal⟩⟩
  cases vs with
  | nil => rfl
  | cons w vs =>
    refine Option.eq_none_iff_forall_ne_some.mpr fun c hc => ?_
    exact hlongest w.kind (by rw [← hvs]; rfl) (goesOn_of_continuation hc)

end Takes

/-! ## Levels -/

/-- On which level the left operand of a chain has to be rendered. -/
def leftLevel : Precedence → Precedence
  | .or => Precedence.or.next
  | .and => Precedence.and.next
  | p => p

/-- What is rendered for a level may stand where operators are looser. -/
theorem renders_of_le {e : Expression} {p q : Precedence} {ws : List Word}
    (h : Renders (.expression e q) ws) (hpq : p ≤ q) : Renders (.expression e p) ws := by
  cases h with
  | literal l => exact .literal l p
  | name x => exact .name x p
  | assign level value => exact .assign (Nat.le_trans hpq level) value
  | unary level operand => exact .unary (Nat.le_trans hpq level) operand
  | binary level left right => exact .binary (Nat.le_trans hpq level) left right
  | and level left right => exact .and (Nat.le_trans hpq level) left right
  | or level left right => exact .or (Nat.le_trans hpq level) left right
  | emptyCall level first => exact .emptyCall (Nat.le_trans hpq level) first
  | call level first value more => exact .call (Nat.le_trans hpq level) first value more
  | group inner => exact .group inner

/-- Which operator a word between two operands is. -/
theorem operator_cases {k : TokenKind} {p : Precedence} (h : k ∈ GrammarPart.operators p) :
    (p = .or ∧ k = orWord) ∨ (p = .and ∧ k = andWord) ∨
      ∃ op : BinaryOperator, op.precedence = p ∧ binaryMark op = mark k ∧ leftLevel p = p := by
  have hops : ∀ op : BinaryOperator, leftLevel op.precedence = op.precedence := by
    intro op
    cases op <;> rfl
  have hmark : ∀ op : BinaryOperator, op.precedence = p → binaryMark op = mark k →
      ∃ op : BinaryOperator, op.precedence = p ∧ binaryMark op = mark k ∧ leftLevel p = p :=
    fun op hp hk => ⟨op, hp, hk, hp ▸ hops op⟩
  cases p <;> simp only [GrammarPart.operators, List.mem_cons, List.not_mem_nil, or_false] at h
  case or => exact .inl ⟨rfl, h⟩
  case and => exact .inr (.inl ⟨rfl, h⟩)
  case equality =>
    rcases h with rfl | rfl
    · exact .inr (.inr (hmark .equal rfl rfl))
    · exact .inr (.inr (hmark .unequal rfl rfl))
  case comparison =>
    rcases h with rfl | rfl | rfl | rfl
    · exact .inr (.inr (hmark .greater rfl rfl))
    · exact .inr (.inr (hmark .greaterEqual rfl rfl))
    · exact .inr (.inr (hmark .less rfl rfl))
    · exact .inr (.inr (hmark .lessEqual rfl rfl))
  case term =>
    rcases h with rfl | rfl
    · exact .inr (.inr (hmark .add rfl rfl))
    · exact .inr (.inr (hmark .subtract rfl rfl))
  case factor =>
    rcases h with rfl | rfl
    · exact .inr (.inr (hmark .multiply rfl rfl))
    · exact .inr (.inr (hmark .divide rfl rfl))

theorem leftLevel_le_next (p : Precedence) : leftLevel p ≤ p.next := by
  cases p <;> decide

theorem le_leftLevel (p : Precedence) : p ≤ leftLevel p := by
  cases p <;> decide

theorem fixed_of_mem_operators {k : TokenKind} {p : Precedence} (h : k ∈ GrammarPart.operators p) :
    k ∉ [identifier, number, string] := by
  cases p <;> simp only [GrammarPart.operators, List.mem_cons, List.not_mem_nil, or_false] at h <;>
    first
      | (subst h; decide)
      | (rcases h with rfl | rfl <;> decide)
      | (rcases h with rfl | rfl | rfl | rfl <;> decide)

/-! ## Parts of the grammar -/

/-- The words are a spelling of some tree for a part of the grammar, and a certain word follows.
The tree admits that word unless it is the one of an assignment, with which nothing starts that could
follow. -/
def Yields : GrammarPart → Word → List Word → Prop
  | .program, _, ws =>
      ∃ ds vs, ws = vs ++ [mark .endOfSource] ∧ SpellsAll (mark .endOfSource) ds vs
  | .declarations, next, ws => next.kind ≠ .equal → ∃ ds, SpellsAll next ds ws
  | .declaration, next, ws => ∃ d, Spells d ws ∧ (next.kind ≠ .equal → d.Admits next)
  | .initializer, next, ws => ∀ x, ∃ value, SpellsVar x value (⟨.identifier, x⟩ :: ws) ∧
      (next.kind ≠ .equal → (Declaration.var x value).Admits next)
  | .parameters, _, ws => ∃ xs, ws = commas xs
  | .moreParameters, _, ws => ∀ x, ∃ xs, ⟨.identifier, x⟩ :: ws = commas (x :: xs)
  | .alternative, next, ws => (ws = [] ∧ next.kind ≠ .elseWord) ∨
      ∃ d vs, ws = mark .elseWord :: vs ∧ Spells d vs ∧ (next.kind ≠ .equal → d.Admits next)
  | .result, next, ws => ∃ value, SpellsMaybe value ws ∧
      (next.kind ≠ .equal → (Declaration.result value).Admits next)
  | .loopStart, _, ws => ∃ first vs, ws = vs ++ [mark .comma] ∧ SpellsFirst first vs
  | .loopCondition, _, ws => ∃ c vs, ws = vs ++ [mark .comma] ∧ SpellsMaybe c vs
  | .loopStep, next, ws => next.kind ≠ .equal → ∃ step, SpellsStep next step ws
  | .expr, next, ws => (∃ e, Renders (.expression e .assignment) ws) ∧
      (next.kind ≠ .equal → Calm next)
  | .arguments, _, ws => ∃ e es vs vs', ws = vs ++ vs' ∧
      Renders (.expression e .assignment) vs ∧ Renders (.later es) vs'
  | .ladder p, _, ws => ∃ e, Renders (.expression e p) ws
  | .tail p, _, ws => ∀ l ls, Renders (.expression l (leftLevel p)) ls →
      ∃ e, Renders (.expression e p) (ls ++ ws)

section Expressions

variable {a b c : List TokenKind} {p q : Precedence} {k : TokenKind}

theorem takes_assignment (hvalue : Takes (Yields .expr) a b) :
    Takes (Yields .expr) (identifier :: equal :: a) b := by
  refine (hvalue.mark (k := equal) (by decide)).name.mono ?_
  rintro next _ ⟨x, _, rfl, ws, rfl, ⟨e, he⟩, hcalm⟩
  exact ⟨⟨.assign x e, .assign (Nat.le_refl _) he⟩, hcalm⟩

/-- An operand may stand where operators are looser. -/
theorem takes_of_le (h : Takes (Yields (.ladder q)) a b) (hpq : p ≤ q) :
    Takes (Yields (.ladder p)) a b := by
  refine h.mono ?_
  rintro next ws ⟨e, he⟩
  exact ⟨e, renders_of_le he hpq⟩

/-- An operand and what follows it. -/
theorem takes_chain (hfirst : Takes (Yields (.ladder q)) a b) (hmore : Takes (Yields (.tail p)) b c)
    (hlevel : leftLevel p ≤ q) : Takes (Yields (.ladder p)) a c := by
  refine (hfirst.append hmore).mono ?_
  rintro next _ ⟨us, vs, rfl, ⟨l, hl⟩, hmore⟩
  exact hmore l us (renders_of_le hl hlevel)

theorem takes_endOfChain (hlevel : p ≤ leftLevel p) : Takes (Yields (.tail p)) a a := by
  refine .nothing fun next _ _ l ls hl => ⟨l, ?_⟩
  rw [List.append_nil]
  exact renders_of_le hl hlevel

/-- `and` and `or` take what follows as their right operand; other operators with both operands
are the left operand of what follows. -/
theorem takes_moreOfChain (hk : k ∈ GrammarPart.operators p)
    (hoperand : Takes (Yields (.ladder p.next)) a b) (hmore : Takes (Yields (.tail p)) b c) :
    Takes (Yields (.tail p)) (k :: a) c := by
  refine ((hoperand.append hmore).mark (fixed_of_mem_operators hk)).mono ?_
  rintro next _ ⟨_, rfl, us, vs, rfl, ⟨r, hr⟩, htail⟩ l ls hl
  rcases operator_cases hk with ⟨rfl, rfl⟩ | ⟨rfl, rfl⟩ | ⟨op, rfl, hop, hleft⟩
  -- the grammar has no sides: which operand the rest belongs to is settled here
  · obtain ⟨e, he⟩ := htail r us hr
    exact ⟨.or l e, .or (Nat.le_refl _) hl he⟩
  · obtain ⟨e, he⟩ := htail r us hr
    exact ⟨.and l e, .and (Nat.le_refl _) hl he⟩
  · rw [hleft] at hl
    have hboth : Renders (.expression (.binary op l r) (leftLevel op.precedence))
        (ls ++ binaryMark op :: us) := hleft.symm ▸ .binary (Nat.le_refl _) hl hr
    obtain ⟨e, he⟩ := htail _ _ hboth
    refine ⟨e, ?_⟩
    rwa [hop, List.append_assoc] at he

theorem takes_unary (hk : k ∈ GrammarPart.prefixes)
    (hoperand : Takes (Yields (.ladder .unary)) a b) :
    Takes (Yields (.ladder .unary)) (k :: a) b := by
  obtain ⟨op, hop⟩ : ∃ op, unaryMark op = mark k := by
    rcases List.mem_pair.mp hk with rfl | rfl
    · exact ⟨.not, rfl⟩
    · exact ⟨.negate, rfl⟩
  have hfixed : k ∉ [identifier, number, string] := by
    rcases List.mem_pair.mp hk with rfl | rfl <;> decide
  refine (hoperand.mark hfixed).mono ?_
  rintro next _ ⟨ws, rfl, e, he⟩
  exact ⟨.unary op e, hop ▸ .unary (Nat.le_refl _) he⟩

theorem takes_emptyCall (hmore : Takes (Yields (.tail .call)) a b) :
    Takes (Yields (.tail .call)) (leftParen :: rightParen :: a) b := by
  refine ((hmore.mark (k := rightParen) (by decide)).mark (by decide)).mono ?_
  rintro next _ ⟨_, rfl, ws, rfl, htail⟩ l ls hl
  obtain ⟨e, he⟩ := htail _ _ (.emptyCall (Nat.le_refl _) hl)
  exact ⟨e, by simpa [parens] using he⟩

theorem takes_call (hvalues : Takes (Yields .arguments) a (rightParen :: b))
    (hmore : Takes (Yields (.tail .call)) b c) :
    Takes (Yields (.tail .call)) (leftParen :: a) c := by
  refine ((hvalues.append (hmore.mark (by decide))).mark (by decide)).mono ?_
  rintro next _ ⟨_, rfl, _, _, rfl, ⟨e, es, us, us', rfl, he, hes⟩, ws, rfl, htail⟩ l ls hl
  obtain ⟨e', he'⟩ := htail _ _ (.call (Nat.le_refl _) hl he hes)
  exact ⟨e', by simpa [parens] using he'⟩

/-- A word that is an expression by itself. -/
theorem exists_atom {w : Word} (hw : w.IsProper) (hk : w.kind ∈ GrammarPart.atoms) :
    ∃ e, Renders (.expression e .primary) [w] := by
  have hliteral : ∀ l : Literal, l.word = w → ∃ e, Renders (.expression e .primary) [w] :=
    fun l hl => ⟨.literal l, hl ▸ .literal l .primary⟩
  have hfixed : ∀ k ∉ [identifier, number, string], w.kind = k → mark k = w := by
    rintro _ hfree rfl
    exact (hw.fixed hfree).symm
  obtain ⟨kind, text⟩ := w
  simp only [GrammarPart.atoms, List.mem_cons, List.not_mem_nil, or_false] at hk
  rcases hk with rfl | rfl | rfl | rfl | rfl | rfl
  · exact ⟨.name text, .name text .primary⟩
  · exact hliteral (.number text) rfl
  · obtain ⟨inner, hquoted⟩ := hw.quoted rfl
    exact hliteral (.string inner) (congrArg (Word.mk .string) hquoted.symm)
  · exact hliteral (.boolean true) (hfixed _ (by decide) rfl)
  · exact hliteral (.boolean false) (hfixed _ (by decide) rfl)
  · exact hliteral .nil (hfixed _ (by decide) rfl)

theorem takes_atom (hk : k ∈ GrammarPart.atoms) : Takes (Yields (.ladder .primary)) (k :: a) a := by
  refine (Takes.none a).word.mono ?_
  rintro next _ ⟨w, _, rfl, rfl, hw, rfl⟩
  exact exists_atom hw hk

theorem takes_group (hvalue : Takes (Yields .expr) a (rightParen :: b)) :
    Takes (Yields (.ladder .primary)) (leftParen :: a) b := by
  refine ((hvalue.append (.last (by decide) b)).mark (by decide)).mono ?_
  rintro next _ ⟨_, rfl, us, _, rfl, ⟨⟨e, he⟩, -⟩, rfl⟩
  exact ⟨e, .group he⟩

theorem takes_lastArgument (hvalue : Takes (Yields .expr) a b) : Takes (Yields .arguments) a b := by
  refine hvalue.mono ?_
  rintro next ws ⟨⟨e, he⟩, -⟩
  exact ⟨e, [], ws, [], (List.append_nil ws).symm, he, .noMore⟩

theorem takes_moreArguments (hvalue : Takes (Yields .expr) a (comma :: b))
    (hmore : Takes (Yields .arguments) b c) : Takes (Yields .arguments) a c := by
  refine (hvalue.append (hmore.mark (by decide))).mono ?_
  rintro next _ ⟨us, _, rfl, ⟨⟨e, he⟩, -⟩, _, rfl, e', es, vs, vs', rfl, he', hes⟩
  exact ⟨e, e' :: es, us, _, rfl, he, .more he' hes⟩

end Expressions

section Declarations

variable {a b c d e : List TokenKind}

/-- A declaration starts with no assignment. -/
theorem ne_equal_of_spells {d : Declaration} {w : Word} {ws : List Word} (h : Spells d (w :: ws)) :
    w.kind ≠ .equal := by
  generalize hus : w :: ws = us at h
  cases h with
  | expression value =>
    obtain ⟨w', vs, o, rfl, ho⟩ := opens_of_renders value
    obtain rfl := (List.cons.inj hus).1
    intro hequal
    rw [hequal] at ho
    cases ho
  | _ =>
    rw [(List.cons.inj hus).1]
    decide

theorem ne_equal_of_spellsAll {stop : Word} {ds : List Declaration} {ws : List Word}
    (h : SpellsAll stop ds ws) (hstop : stop.kind ≠ .equal) : (ws.headD stop).kind ≠ .equal := by
  cases h with
  | nil => exact hstop
  | cons first =>
    obtain ⟨w, vs, rfl, -⟩ := starts_of_spells first
    exact ne_equal_of_spells first

theorem takes_program (hall : Takes (Yields .declarations) a [endOfSource]) :
    Takes (Yields .program) a [] := by
  refine (hall.append (.last (by decide) [])).mono ?_
  rintro next _ ⟨us, _, rfl, hds, rfl⟩
  obtain ⟨ds, hds⟩ := hds (by decide : (mark endOfSource).kind ≠ .equal)
  exact ⟨ds, us, rfl, hds⟩

theorem takes_moreDeclarations (hfirst : Takes (Yields .declaration) a b)
    (hmore : Takes (Yields .declarations) b c) : Takes (Yields .declarations) a c := by
  refine (hfirst.append hmore).mono ?_
  rintro next _ ⟨us, vs, rfl, ⟨d, hd, hadmits⟩, hmore⟩ hnext
  obtain ⟨ds, hds⟩ := hmore hnext
  exact ⟨d :: ds, .cons hd (hadmits (ne_equal_of_spellsAll hds hnext)) hds⟩

theorem takes_var (hinit : Takes (Yields .initializer) a b) :
    Takes (Yields .declaration) (varWord :: identifier :: a) b := by
  refine (hinit.name.mark (by decide)).mono ?_
  rintro next _ ⟨_, rfl, x, ws, rfl, hinit⟩
  obtain ⟨value, hvar, hadmits⟩ := hinit x
  exact ⟨.var x value, .var hvar, hadmits⟩

theorem takes_fn (hnames : Takes (Yields .parameters) a (rightParen :: leftBrace :: b))
    (hbody : Takes (Yields .declarations) b (rightBrace :: c)) :
    Takes (Yields .declaration) (fnWord :: identifier :: leftParen :: a) c := by
  have hinside := (((hbody.append (.last (by decide) c)).mark (k := leftBrace) (by decide)).mark
    (k := rightParen) (by decide))
  refine (((hnames.append hinside).mark (k := leftParen) (by decide)).name.mark (by decide)).mono ?_
  rintro next _ ⟨_, rfl, x, _, rfl, _, rfl, _, _, rfl, ⟨xs, rfl⟩, _, rfl, _, rfl, us, _, rfl, hds,
    rfl⟩
  obtain ⟨ds, hds⟩ := hds (by decide : (mark rightBrace).kind ≠ .equal)
  refine ⟨.function x xs ds, ?_, fun _ => trivial⟩
  have hspells : Spells (.function x xs ds) _ := .function hds
  simpa [parens, braces] using hspells

/-- What follows the condition of a branch or a loop is a declaration. -/
theorem calm_of_spells {d : Declaration} {next : Word} {ws : List Word} (us : List Word)
    (h : Spells d ws)
    (hcalm : ((ws ++ us).headD next).kind ≠ .equal → Calm ((ws ++ us).headD next)) :
    ∃ w vs, ws = w :: vs ∧ Calm w := by
  obtain ⟨w, vs, rfl, -⟩ := starts_of_spells h
  exact ⟨w, vs, rfl, hcalm (ne_equal_of_spells h)⟩

theorem takes_branch (hcondition : Takes (Yields .expr) a b)
    (hbody : Takes (Yields .declaration) b c) (hother : Takes (Yields .alternative) c d) :
    Takes (Yields .declaration) (ifWord :: a) d := by
  refine ((hcondition.append (hbody.append hother)).mark (by decide)).mono ?_
  rintro next _ ⟨_, rfl, us, _, rfl, ⟨⟨c, hc⟩, hcalm⟩, ws, vs, rfl, ⟨yes, hyes, hadmits⟩, hother⟩
  obtain ⟨w, ws, rfl, hw⟩ := calm_of_spells vs hyes hcalm
  -- an `else` that follows belongs to this branch, so without one none follows
  rcases hother with ⟨rfl, hnot⟩ | ⟨no, vs, rfl, hno, hadmits'⟩
  · refine ⟨.branch c yes, ?_, fun hnext => ⟨hnot, hadmits hnext⟩⟩
    have hspells : Spells (.branch c yes) _ := .branch hc hw hyes
    simpa using hspells
  · refine ⟨.choice c yes no, ?_, hadmits'⟩
    have hspells : Spells (.choice c yes no) _ :=
      .choice hc hw hyes (hadmits (by decide : (mark elseWord).kind ≠ .equal)) hno
    simpa using hspells

theorem takes_while (hcondition : Takes (Yields .expr) a b)
    (hbody : Takes (Yields .declaration) b c) : Takes (Yields .declaration) (whileWord :: a) c := by
  refine ((hcondition.append hbody).mark (by decide)).mono ?_
  rintro next _ ⟨_, rfl, us, ws, rfl, ⟨⟨c, hc⟩, hcalm⟩, body, hbody, hadmits⟩
  obtain ⟨w, ws, rfl, hw⟩ := calm_of_spells [] hbody (by rwa [List.append_nil])
  exact ⟨.loop c body, .loop hc hw hbody, hadmits⟩

theorem takes_block (hall : Takes (Yields .declarations) a (rightBrace :: b)) :
    Takes (Yields .declaration) (leftBrace :: a) b := by
  refine ((hall.append (.last (by decide) b)).mark (by decide)).mono ?_
  rintro next _ ⟨_, rfl, us, _, rfl, hds, rfl⟩
  obtain ⟨ds, hds⟩ := hds (by decide : (mark rightBrace).kind ≠ .equal)
  exact ⟨.block ds, .block hds, fun _ => trivial⟩

theorem takes_return (hvalue : Takes (Yields .result) a b) :
    Takes (Yields .declaration) (returnWord :: a) b := by
  refine (hvalue.mark (by decide)).mono ?_
  rintro next _ ⟨ws, rfl, value, hvalue, hadmits⟩
  exact ⟨.result value, .result hvalue, hadmits⟩

theorem takes_statement (hvalue : Takes (Yields .expr) a b) : Takes (Yields .declaration) a b := by
  refine hvalue.mono ?_
  rintro next ws ⟨⟨e, he⟩, hcalm⟩
  exact ⟨.expression e, .expression he, hcalm⟩

theorem takes_initializer (hvalue : Takes (Yields .expr) a b) :
    Takes (Yields .initializer) (equal :: a) b := by
  refine (hvalue.mark (by decide)).mono ?_
  rintro next _ ⟨ws, rfl, ⟨e, he⟩, hcalm⟩ x
  exact ⟨some e, .value he, hcalm⟩

theorem takes_parameters (hmore : Takes (Yields .moreParameters) a b) :
    Takes (Yields .parameters) (identifier :: a) b := by
  refine hmore.name.mono ?_
  rintro next _ ⟨x, ws, rfl, hmore⟩
  obtain ⟨xs, hxs⟩ := hmore x
  exact ⟨x :: xs, hxs⟩

theorem takes_moreParameters (hmore : Takes (Yields .moreParameters) a b) :
    Takes (Yields .moreParameters) (comma :: identifier :: a) b := by
  refine (hmore.name.mark (by decide)).mono ?_
  rintro next _ ⟨_, rfl, y, ws, rfl, hmore⟩ x
  obtain ⟨xs, hxs⟩ := hmore y
  exact ⟨y :: xs, congrArg (fun ws => _ :: mark comma :: ws) hxs⟩

theorem takes_noAlternative (hnot : a.head? ≠ some elseWord) :
    Takes (Yields .alternative) a a := by
  refine .nothing fun next hnext _ => .inl ⟨rfl, fun helse => hnot ?_⟩
  rw [hnext] at helse
  cases a with
  | nil => cases helse
  | cons k a => exact congrArg some helse

theorem takes_alternative (hbody : Takes (Yields .declaration) a b) :
    Takes (Yields .alternative) (elseWord :: a) b := by
  refine (hbody.mark (by decide)).mono ?_
  rintro next _ ⟨ws, rfl, d, hd, hadmits⟩
  exact .inr ⟨d, ws, rfl, hd, hadmits⟩

theorem takes_noResult {k : TokenKind} (hends : k = rightBrace ∨ k = endOfSource) :
    Takes (Yields .result) (k :: a) (k :: a) := by
  refine .nothing fun next hnext _ => ⟨none, .none, fun _ => ?_⟩
  show next.kind = rightBrace ∨ next.kind = endOfSource
  rw [show next.kind = k from hnext]
  exact hends

theorem takes_result (hvalue : Takes (Yields .expr) a b) : Takes (Yields .result) a b := by
  refine hvalue.mono ?_
  rintro next ws ⟨⟨e, he⟩, hcalm⟩
  exact ⟨some e, .some he, hcalm⟩

theorem takes_noLoopStart (a : List TokenKind) : Takes (Yields .loopStart) (comma :: a) a := by
  refine (Takes.last (by decide) a).mono ?_
  rintro next _ rfl
  exact ⟨.none, [], rfl, .none⟩

theorem takes_loopVariable (hinit : Takes (Yields .initializer) a (comma :: b)) :
    Takes (Yields .loopStart) (varWord :: identifier :: a) b := by
  refine ((hinit.append (.last (by decide) b)).name.mark (by decide)).mono ?_
  rintro next _ ⟨_, rfl, x, _, rfl, ws, _, rfl, hinit, rfl⟩
  obtain ⟨value, hvar, -⟩ := hinit x
  exact ⟨.var x value, _, rfl, .var hvar⟩

theorem takes_loopStart (hvalue : Takes (Yields .expr) a (comma :: b)) :
    Takes (Yields .loopStart) a b := by
  refine (hvalue.append (.last (by decide) b)).mono ?_
  rintro next _ ⟨ws, _, rfl, ⟨⟨e, he⟩, -⟩, rfl⟩
  exact ⟨.expression e, ws, rfl, .expression he⟩

theorem takes_noLoopCondition (a : List TokenKind) :
    Takes (Yields .loopCondition) (comma :: a) a := by
  refine (Takes.last (by decide) a).mono ?_
  rintro next _ rfl
  exact ⟨none, [], rfl, .none⟩

theorem takes_loopCondition (hvalue : Takes (Yields .expr) a (comma :: b)) :
    Takes (Yields .loopCondition) a b := by
  refine (hvalue.append (.last (by decide) b)).mono ?_
  rintro next _ ⟨ws, _, rfl, ⟨⟨e, he⟩, -⟩, rfl⟩
  exact ⟨some e, ws, rfl, .some he⟩

theorem takes_skippedLoopStep (a : List TokenKind) : Takes (Yields .loopStep) (comma :: a) a := by
  refine (Takes.last (by decide) a).mono ?_
  rintro next _ rfl _
  exact ⟨none, .comma⟩

theorem takes_noLoopStep (a : List TokenKind) :
    Takes (Yields .loopStep) (leftBrace :: a) (leftBrace :: a) := by
  refine .nothing fun next hnext hproper _ => ⟨none, .brace ?_⟩
  have hkind : next.kind = leftBrace := hnext
  rw [hproper.fixed (by rw [hkind]; decide), hkind]

theorem takes_loopStep (hvalue : Takes (Yields .expr) a b) : Takes (Yields .loopStep) a b := by
  refine hvalue.mono ?_
  rintro next ws ⟨⟨e, he⟩, hcalm⟩ hnext
  exact ⟨some e, .some he (hcalm hnext)⟩

theorem takes_for (hstart : Takes (Yields .loopStart) a b)
    (hcondition : Takes (Yields .loopCondition) b c) (hstep : Takes (Yields .loopStep) c d)
    (hbody : Takes (Yields .declaration) d e) : Takes (Yields .declaration) (forWord :: a) e := by
  refine ((hstart.append (hcondition.append (hstep.append hbody))).mark (by decide)).mono ?_
  rintro next _ ⟨_, rfl, _, _, rfl, ⟨first, us, rfl, hfirst⟩, _, _, rfl, ⟨c, vs, rfl, hc⟩, ss, ws,
    rfl, hstep, body, hbody, hadmits⟩
  obtain ⟨w, ws, rfl, -⟩ := starts_of_spells hbody
  obtain ⟨step, hstep⟩ := hstep (ne_equal_of_spells hbody)
  refine ⟨.count first c step body, ?_, hadmits⟩
  have hspells : Spells (.count first c step body) _ := .count hfirst hc hstep hbody
  simpa using hspells

end Declarations

/-- Words that the greedy reading of the grammar derives are the spelling of a tree. -/
theorem takes_of_derives {part : GrammarPart} {a b : List TokenKind} (h : Derives true part a b) :
    Takes (Yields part) a b := by
  induction h with
  | program _ ih => exact takes_program ih
  | noDeclaration => exact .nothing fun _ _ _ _ => ⟨[], .nil⟩
  | moreDeclarations _ _ ih ih' => exact takes_moreDeclarations ih ih'
  -- declarations
  | var _ ih => exact takes_var ih
  | fn _ _ ih ih' => exact takes_fn ih ih'
  | branch _ _ _ ih ih' ih'' => exact takes_branch ih ih' ih''
  | «while» _ _ ih ih' => exact takes_while ih ih'
  | «for» _ _ _ _ ihs ihc ihi ihb => exact takes_for ihs ihc ihi ihb
  | block _ ih => exact takes_block ih
  | «return» _ ih => exact takes_return ih
  | statement _ ih => exact takes_statement ih
  -- parts of declarations
  | noInitializer => exact .nothing fun _ _ _ _ => ⟨none, .bare, id⟩
  | initializer _ ih => exact takes_initializer ih
  | noParameter => exact .nothing fun _ _ _ => ⟨[], rfl⟩
  | parameters _ ih => exact takes_parameters ih
  | lastParameter => exact .nothing fun _ _ _ _ => ⟨[], rfl⟩
  | moreParameters _ ih => exact takes_moreParameters ih
  | noAlternative nearest => exact takes_noAlternative (nearest rfl)
  | alternative _ ih => exact takes_alternative ih
  | noResult ends => exact takes_noResult ends
  | result _ ih => exact takes_result ih
  -- parts of loops
  | noLoopStart => exact takes_noLoopStart _
  | loopVariable _ ih => exact takes_loopVariable ih
  | loopStart _ ih => exact takes_loopStart ih
  | noLoopCondition => exact takes_noLoopCondition _
  | loopCondition _ ih => exact takes_loopCondition ih
  | skippedLoopStep => exact takes_skippedLoopStep _
  | noLoopStep => exact takes_noLoopStep _
  | loopStep _ ih => exact takes_loopStep ih
  -- expressions
  | assignment _ ih => exact takes_assignment ih
  | value longest _ ih => exact (takes_of_le ih (by decide)).calm (longest rfl)
  | chain _ _ _ ih ih' => exact takes_chain ih ih' (leftLevel_le_next _)
  | endOfChain => exact takes_endOfChain (le_leftLevel _)
  | moreOfChain operator _ _ ih ih' => exact takes_moreOfChain operator ih ih'
  | unary operator _ ih => exact takes_unary operator ih
  | plain _ ih => exact takes_of_le ih (by decide)
  | calls _ _ ih ih' => exact takes_chain ih ih' (by decide)
  | emptyCall _ ih => exact takes_emptyCall ih
  | call _ _ ih ih' => exact takes_call ih ih'
  | atom known => exact takes_atom known
  | group _ ih => exact takes_group ih
  | lastArgument _ ih => exact takes_lastArgument ih
  | moreArguments _ _ ih ih' => exact takes_moreArguments ih ih'

end Tree

open Compile

/-! ## Sources -/

/-- A word in one of the forms of its kind. -/
theorem isProper_of_spells {k : TokenKind} {text : List Char} (h : k.Spells text) :
    (Tree.Word.mk k (String.ofList text)).IsProper := by
  cases h with
  | fixed hk =>
    refine ⟨fun _ => ?_, ?_⟩
    · rw [String.ofList_toList, Tree.mark, hk]
      rfl
    · rintro rfl
      cases hk
  | identifier | integer | decimal =>
    exact ⟨fun hfixed => absurd (by simp) hfixed, fun hstring => by cases hstring⟩
  | @string body =>
    refine ⟨fun hfixed => absurd (by simp) hfixed, fun _ => ⟨String.ofList body, ?_⟩⟩
    simp [String.ofList_append, String.append_assoc]

/-- Each token that stands in a source has a text of its kind. -/
theorem isProper_of_tiles {before rest : List Char} {ts : List Token} (h : Tiles before rest ts) :
    ∀ t ∈ ts, t.kind ≠ .invalid → (Tree.wordOf t).IsProper := by
  induction h with
  | done => exact List.forall_mem_singleton.mpr fun _ => Tree.isProper_end
  | token _ _ hcovers _ _ ih =>
    refine List.forall_mem_cons.mpr ⟨fun hvalid => ?_, ih⟩
    cases hcovers with
    | proper hspells _ hlexeme =>
      unfold Tree.wordOf
      rw [hlexeme]
      exact isProper_of_spells hspells
    | unexpected hkind => exact absurd hkind hvalid
    | unclosed hkind => exact absurd hkind hvalid

/-- Every source that compiles spells some declarations. -/
theorem exists_spelled {firstId : Identity} {source : String} {script : Function Value}
    (hok : (compile firstId source).outcome = .ok script) : ∃ ds, Tree.Spelled source ds := by
  obtain ⟨hq, -, -⟩ := compile_eq_ok hok
  obtain ⟨hvalid, hprogram⟩ := derives_compileTokens true (named_scan source) (ended_scan source)
    ((State.edits_returnNil _).isQuiet hq)
  have hproper : ∀ w ∈ (scan source).map Tree.wordOf, w.IsProper :=
    List.forall_mem_map.mpr fun t ht =>
      isProper_of_tiles ((tiles_iff source _).mpr rfl) t ht (hvalid t ht)
  have hkinds : ((scan source).map Tree.wordOf).map Tree.Word.kind = (scan source).map Token.kind :=
    List.map_map
  obtain ⟨ws, vs, hwords, hvs, ds, us, rfl, hspells⟩ :=
    Tree.takes_of_derives hprogram _ hkinds hproper
  rw [List.map_eq_nil_iff.mp hvs, List.append_nil] at hwords
  exact ⟨ds, us, hspells, hwords⟩

end ScriptEngine
