import ScriptEngine.Proofs.Compile.ProgramCode
import ScriptEngine.Proofs.Compile.Reports
import ScriptEngine.Proofs.Loops.ExpressionEmitting
import ScriptEngine.Proofs.Loops.Spelling
set_option autoImplicit false

/-!
# Compiling statements to pieces

Where a spelling of a statement is ahead, the compiler reads it and writes the piece of the
statement.  There is one lemma for each form of statement, which assumes the same of the statements
in it (`DeclarationEmits`).

All words are on the first line here.  What is written does not depend on lines, so this is enough.
-/

namespace ScriptEngine.Compile

open State ScriptEngine.Tree

/-! ## Words ahead -/

/-- The compiler is in good order and has some words ahead, all on the first line. -/
structure Ahead (ws : List Word) (s : State) : Prop where
  inOrder : s.InOrder
  reads : Reads 1 ws s s

/-- The compiler is between two parts of a function, with certain names in scope. -/
structure Stands (ν : Naming) (ws : List Word) (s : State) : Prop extends Ahead ws s where
  suits : Suits ν s
  settled : Settled s.builder

/-- A piece was written, and some words are ahead. -/
structure Gets (p : Piece) (ws : List Word) (s t : State) : Prop extends Emits p s t where
  ahead : Ahead ws t
  settled : Settled t.builder

theorem Reads.self {line : Nat} {ws : List Word} {s t : State} (h : Reads line ws s t) :
    Reads line ws s s := ⟨h.spelled, h.valid, h.lines, rfl⟩

/-! ### What is not heard of -/

theorem unheard_landJump {s : State} (hs : s.Sane) {operand : Nat}
    (hq : (s.landJump operand).IsQuiet) : Unheard s (s.landJump operand) := by
  obtain ⟨d, defects, -, heq⟩ := landJump_eq hs hq
  rw [heq]
  exact ⟨rfl, rfl, rfl, rfl⟩

theorem unheard_loopBack {s : State} (hs : s.Sane) {start : Nat}
    (hq : (s.loopBack start).IsQuiet) : Unheard s (s.loopBack start) := by
  obtain ⟨d, defects, -, heq⟩ := loopBack_eq hs hq
  rw [heq]
  exact ⟨rfl, rfl, rfl, rfl⟩

theorem unheard_poolConstant {s : State} (hs : s.Sane) {v : Value}
    (hq : (s.poolConstant v).2.IsQuiet) : Unheard s (s.poolConstant v).2 := by
  obtain ⟨-, heq⟩ := poolConstant_eq hs hq
  rw [heq]
  exact ⟨rfl, rfl, rfl, rfl⟩

section Ahead

variable {ν : Naming} {p q : Piece} {w next : Word} {ws ws' rest : List Word} {s t u : State}
  {depth : Nat}

theorem Ahead.quiet (h : Ahead ws s) (hu : Unheard s t) : t.IsQuiet :=
  hu.diagnostics.trans h.inOrder.quiet

theorem Reads.unheard {line : Nat} (h : Reads line ws s s) (hu : Unheard s t) :
    Reads line ws t t where
  spelled := (spelled_of_upcoming hu.upcoming).trans h.spelled
  valid := by
    rw [hu.upcoming]
    exact h.valid
  lines := by
    rw [hu.upcoming, hu.previous]
    exact h.lines
  same := rfl

theorem Ahead.actions (h : Ahead ws s) (ha : Actions s t) (hu : Unheard s t) : Ahead ws t :=
  ⟨ha.inOrder h.inOrder (h.quiet hu), h.reads.unheard hu⟩

theorem Ahead.edits (h : Ahead ws s) (he : Edits s t) (hu : Unheard s t) : Ahead ws t :=
  h.actions he.actions hu

theorem Ahead.read (h : Ahead (w :: ws) s) (hne : ws ≠ []) :
    Ahead ws s.read ∧ wordOf s.read.previous = w ∧ s.read.IsQuiet := by
  obtain ⟨next, rest, rfl⟩ := List.exists_cons_of_ne_nil hne
  obtain ⟨hread, hprevious⟩ := h.reads.read
  have hquiet : s.read.IsQuiet := (isQuiet_iff_of_bare hread.same).mp h.inOrder.quiet
  exact ⟨⟨h.inOrder.read hquiet, hread.self⟩, hprevious, hquiet⟩

theorem Ahead.sees (h : Ahead (w :: ws) s) (k : TokenKind) : s.sees k = (w.kind == k) :=
  h.reads.sees k

/-- A word that is needed is read. -/
theorem Ahead.require_eq (h : Ahead (w :: ws) s) {k : TokenKind} (hk : w.kind = k)
    (what : Expected) : s.require k what = s.read := by
  unfold State.require
  rw [if_pos (by rw [h.sees, hk]; exact beq_self_eq_true k)]

/-- Names are not empty. -/
theorem Ahead.named (h : Ahead ws s) : ∀ w ∈ ws, w.kind = .identifier → w.text ≠ "" := by
  intro w hw hkind
  rw [← h.reads.spelled] at hw
  obtain ⟨token, htoken, rfl⟩ := List.mem_map.mp hw
  exact h.inOrder.named token (List.mem_cons_of_mem _ htoken) hkind

theorem Ahead.length_eq (h : Ahead ws s) : s.rest.length + 1 = ws.length := by
  have hlength := congrArg List.length h.reads.spelled
  unfold State.spelled upcoming at hlength
  rwa [List.length_map, List.length_cons] at hlength

theorem Ahead.left_le (h : Ahead ws s) : s.left ≤ ws.length := by
  have hlength := h.length_eq
  unfold left
  split <;> omega

theorem Stands.edits (h : Stands ν ws s) (he : Edits s t) (hu : Unheard s t)
    (hg : Gains [] [] 0 s t) : Stands ν ws t where
  toAhead := h.toAhead.edits he hu
  suits := h.suits.keep hg
  settled := (he.stays h.inOrder.toSane (h.quiet hu)).builder.settled h.settled

theorem Stands.read (h : Stands ν (w :: ws) s) (hne : ws ≠ []) : Stands ν ws s.read := by
  obtain ⟨hahead, -, hquiet⟩ := h.toAhead.read hne
  refine ⟨hahead, h.suits.keep (gains_read h.inOrder.toSane hquiet), ?_⟩
  rw [builder_read h.inOrder.toSane hquiet]
  exact h.settled

theorem Stands.tick (h : Stands ν ws s) : Stands ν ws s.tick :=
  h.edits (Edit.tick s).edits (unheard_tick s) (emits_tick s).toGains

theorem Stands.checkpoint (h : Stands ν ws s) : Stands ν ws s.checkpoint where
  toAhead := h.toAhead.actions (Action.checkpoint s).actions (unheard_checkpoint s)
  suits := h.suits.keep (emits_checkpoint s).toGains
  settled := ⟨h.settled.nonempty, h.settled.depths⟩

theorem Stands.appendOp (h : Stands ν ws s) (op : Opcode) : Stands ν ws (s.appendOp op) :=
  h.edits (edits_appendOp s op) (unheard_appendOp s op) (gains_appendOp s op)

theorem Stands.openJump (h : Stands ν ws s) (op : Opcode) : Stands ν ws (s.openJump op).2 :=
  h.edits (Edit.openJump s op).edits (unheard_openJump s op) (gains_openJump s op)

theorem Stands.landJump (h : Stands ν ws s) {operand : Nat} (hq : (s.landJump operand).IsQuiet) :
    Stands ν ws (s.landJump operand) :=
  h.edits (Edit.landJump s operand).edits (unheard_landJump h.inOrder.toSane hq)
    (gains_landJump h.inOrder.toSane hq)

theorem Stands.loopBack (h : Stands ν ws s) {start : Nat} (hq : (s.loopBack start).IsQuiet) :
    Stands ν ws (s.loopBack start) :=
  h.edits (Edit.loopBack s start).edits (unheard_loopBack h.inOrder.toSane hq)
    (gains_loopBack h.inOrder.toSane hq)

theorem Stands.openScope (h : Stands ν ws s) : Stands ν.inner ws s.openScope where
  toAhead := h.toAhead.actions (actions_openScope s) (unheard_openScope s)
  suits := h.suits.openScope
  settled := by
    refine ⟨h.settled.nonempty, fun l hl => ?_⟩
    obtain ⟨d, hd, hle⟩ := h.settled.depths l hl
    exact ⟨d, hd, Nat.le_succ_of_le hle⟩

/-! ### Pieces in a row -/

theorem Gets.stands (h : Gets p ws s t) (hν : Suits ν s) : Stands (ν.declare p.declared) ws t :=
  ⟨h.ahead, h.suits hν, h.settled⟩

/-- After a piece that declares nothing the same names are in scope. -/
theorem Gets.keep (h : Gets p ws s t) (hν : Suits ν s) (hdeclared : p.declared = []) :
    Stands ν ws t := by
  have hstands := h.stands hν
  rwa [hdeclared] at hstands

theorem Gets.append (h : Emits p s t) (k : Gets q ws t u) : Gets (p ++ q) ws s u :=
  ⟨h.append k.toEmits, k.ahead, k.settled⟩

theorem Gets.after (h : Gets p ws t u) (hbefore : Emits {} s t) : Gets p ws s u :=
  ⟨h.toEmits.after hbefore, h.ahead, h.settled⟩

theorem Stands.gets (h : Stands ν ws t) (k : Emits p s t) : Gets p ws s t :=
  ⟨k, h.toAhead, h.settled⟩

theorem Gets.checkpoint (h : Gets p ws s t) : Gets p ws s t.checkpoint :=
  ⟨h.toEmits.before (emits_checkpoint t),
    h.ahead.actions (Action.checkpoint t).actions (unheard_checkpoint t),
    ⟨h.settled.nonempty, h.settled.depths⟩⟩

/-- A word is read behind a piece. -/
theorem Gets.read (h : Gets p (w :: ws) s t) (hne : ws ≠ []) : Gets p ws s t.read := by
  obtain ⟨hahead, -, hquiet⟩ := h.ahead.read hne
  refine ⟨h.toEmits.before (emits_read h.ahead.inOrder.toSane hquiet), hahead, ?_⟩
  rw [builder_read h.ahead.inOrder.toSane hquiet]
  exact h.settled

/-! ## Expressions -/

/-- What was written does not depend on the tokens. -/
theorem Emits.of_bare (h : Emits p s t) (hbare : t.bare = u.bare) : Emits p s u := by
  have hbuilder : u.bare.builder = t.bare.builder := congrArg State.builder hbare.symm
  have haround : u.bare.around = t.bare.around := congrArg State.around hbare.symm
  have hid : u.bare.nextId = t.bare.nextId := congrArg State.nextId hbare.symm
  change u.builder = t.builder at hbuilder
  change u.around = t.around at haround
  change u.nextId = t.nextId at hid
  obtain ⟨⟨name, arity, depth, names, around, spread, nextId⟩, last, bytes, hadds, hcode⟩ := h
  refine ⟨⟨?_, ?_, ?_, ?_, ?_, ?_, ?_⟩, ?_, bytes, ⟨?_, ?_, fun _ => .inr trivial⟩, ?_⟩
  · rwa [hbuilder]
  · rwa [hbuilder]
  · rwa [hbuilder]
  · rwa [hbuilder]
  · rwa [haround]
  · rwa [hbuilder, haround]
  · rwa [hid]
  · unfold hasReturned at last ⊢
    rwa [hbuilder]
  · rw [hbuilder]
    exact hadds.code
  · rw [hbuilder]
    exact hadds.pool
  · rwa [hbuilder, haround]

/-- An expression is read, and its piece is written. -/
theorem Ahead.value (h : Ahead (ws ++ next :: rest) s) (hν : Suits ν s) {e : Expression}
    (hrenders : Renders (.expression e .assignment) ws) (hnext : Calm next)
    (hdepth : 2 * (ws ++ next :: rest).length + 1 ≤ depth)
    (hq : (expression depth .assignment s).IsQuiet) :
    Ahead (next :: rest) (expression depth .assignment s) ∧
      Emits (e.piece ν) s (expression depth .assignment s) := by
  have hread := (readsPart 1 hrenders).reads (closes_of_calm hnext _) hdepth h.reads
  have hquiet : (e.write s).IsQuiet := (isQuiet_iff_of_bare hread.same).mpr hq
  have hwrites : PassEmits ν (e.piece ν) e.write :=
    partEmits ν hrenders fun w hw => h.named w (List.mem_append_left _ hw)
  have hwritten := (hwrites.emits s h.inOrder hν hquiet).2
  exact ⟨⟨((formsAct depth).expression .assignment s).inOrder h.inOrder hq, hread.self⟩,
    hwritten.of_bare hread.same⟩

theorem Stands.value (h : Stands ν (ws ++ next :: rest) s) {e : Expression}
    (hrenders : Renders (.expression e .assignment) ws) (hnext : Calm next)
    (hdepth : 2 * (ws ++ next :: rest).length + 1 ≤ depth)
    (hq : (expression depth .assignment s).IsQuiet) :
    Gets (e.piece ν) (next :: rest) s (expression depth .assignment s) := by
  obtain ⟨hahead, hemits⟩ := h.toAhead.value h.suits hrenders hnext hdepth hq
  have hstays := ((formsAct depth).expression .assignment s).stays h.inOrder.toSane hq
  exact ⟨hemits, hahead, hstays.builder.settled h.settled⟩

/-- An expression whose value is dropped. -/
theorem Stands.dropped (h : Stands ν (ws ++ next :: rest) s) {e : Expression}
    (hrenders : Renders (.expression e .assignment) ws) (hnext : Calm next)
    (hdepth : 2 * (ws ++ next :: rest).length + 1 ≤ depth)
    (hq : (s.expressionForm (expression depth .assignment)).IsQuiet) :
    Gets (droppedPiece ν (some e)) (next :: rest) s
      (s.expressionForm (expression depth .assignment)) := by
  have hvalue := h.value hrenders hnext hdepth ((edits_appendOp ..).isQuiet hq)
  have hstands := (hvalue.keep h.suits e.isValue.declared).appendOp .pop
  exact hstands.gets (hvalue.toEmits.append (emits_appendOp _ rfl rfl))

end Ahead

/-! ## Declarations and their forms -/

/-- Where a spelling of a declaration is ahead, it is read and its piece is written. -/
def DeclarationEmits (d : Declaration) (ws : List Word) : Prop :=
  ∀ {ν : Naming} {next : Word} {rest : List Word} {depth : Nat} {s : State},
    Stands ν (ws ++ next :: rest) s → d.Admits next →
    2 * (ws ++ next :: rest).length + 2 ≤ depth → (declaration depth s).IsQuiet →
    Gets (d.piece ν s.nextId) (next :: rest) s (declaration depth s)

/-- The form that a state goes on with, for a bound on the depth of its parts. -/
def formOf (depth : Nat) (s : State) : State :=
  s.anyForm (Compile.expression depth .assignment) (declaration depth) (declarations depth)

/-- The same apart from what is done about mistakes. -/
def FormEmits (d : Declaration) (ws : List Word) : Prop :=
  ∀ {ν : Naming} {next : Word} {rest : List Word} {depth : Nat} {s : State},
    Stands ν (ws ++ next :: rest) s → d.Admits next →
    2 * (ws ++ next :: rest).length + 1 ≤ depth → (formOf depth s).IsQuiet →
    Gets (d.piece ν s.nextId) (next :: rest) s (formOf depth s)

section Forms

variable {ν : Naming} {p q : Piece} {d : Declaration} {w next : Word} {us ws vs rest : List Word}
  {s t u : State} {depth : Nat}

theorem actions_formOf (depth : Nat) (s : State) : Actions s (formOf depth s) :=
  actions_anyForm ((formsAct depth).expression .assignment) (formsAct depth).declaration
    (formsAct depth).declarations s

theorem FormEmits.declaration (h : FormEmits d ws) : DeclarationEmits d ws := by
  intro ν next rest depth s hs hadmits hdepth hq
  obtain ⟨depth, rfl⟩ : ∃ n, depth = n + 1 := ⟨depth - 1, by omega⟩
  have hstart := hs.tick.checkpoint
  change ((formOf depth s.tick.checkpoint).recover.checkpoint).IsQuiet at hq
  show Gets _ _ s (formOf depth s.tick.checkpoint).recover.checkpoint
  have hq₁ := (actions_recover _).isQuiet ((Action.checkpoint _).isQuiet hq)
  rw [recover_eq ((actions_formOf depth _).sane hstart.inOrder.toSane hq₁)]
  have hform := h hstart hadmits (by omega) hq₁
  exact ((hform.after (emits_checkpoint s.tick)).after (emits_tick s)).checkpoint

/-- What is in a scope is written as its piece, with what retires its locals. -/
theorem gets_inScope {inside : Pass} (hinside : PassAdvances s.left inside) (h : Stands ν ws s)
    (hq : (s.inScope inside).IsQuiet)
    (hin : (inside s.openScope).IsQuiet → Gets p rest s.openScope (inside s.openScope)) :
    Gets (.inScope ν p) rest s (s.inScope inside) := by
  have hq₁ := (actions_closeScope _).isQuiet hq
  have hopen := h.openScope
  have hadvances := hinside.advances _ hopen.inOrder.toSane hq₁ (Nat.le_refl _) hopen.settled
  have hwritten := hin hq₁
  refine ⟨emits_closeScope h.suits h.settled hadvances.builder hwritten.toEmits, ?_, ?_⟩
  · exact hwritten.ahead.actions (actions_closeScope _) (unheard_closeScope _)
  · have hruns := runs_closeScope hwritten.ahead.inOrder.toSane h.settled hadvances hq
    exact hruns.stays.builder.settled h.settled

/-- A body is a declaration in a scope of its own. -/
theorem DeclarationEmits.inScope (hd : DeclarationEmits d ws) (h : Stands ν (ws ++ next :: rest) s)
    (hadmits : d.Admits next) (hdepth : 2 * (ws ++ next :: rest).length + 2 ≤ depth)
    (hq : (s.inScope (declaration depth)).IsQuiet) :
    Gets (.inScope ν (d.piece ν.inner s.nextId)) (next :: rest) s
      (s.inScope (declaration depth)) := by
  have hleft := h.left_le
  refine gets_inScope ((declarationsAdvance depth).declaration _ (by omega)) h hq fun hq₁ => ?_
  exact hd h.openScope hadmits hdepth hq₁

/-! ### Results and expressions -/

theorem formEmits_result {value : Option Expression} (hvalue : SpellsMaybe value ws) :
    FormEmits (.result value) (mark .returnWord :: ws) := by
  intro ν next rest depth s h hadmits hdepth hq
  have hform : formOf depth s = s.read.returnForm (Compile.expression depth .assignment) := by
    unfold formOf anyForm
    rw [h.reads.kind]
    rfl
  rw [List.cons_append, List.length_cons] at hdepth
  have hread : Stands ν (ws ++ next :: rest) s.read := h.read (by simp)
  have hbefore := emits_read h.inOrder.toSane (h.toAhead.read (by simp)).2.2
  rw [hform] at hq ⊢
  refine Gets.after ?_ hbefore
  have hq₁ := (edits_appendOp ..).isQuiet hq
  cases hvalue with
  | none =>
    have hends : (s.read.sees .rightBrace || s.read.sees .endOfSource) = true := by
      rw [Bool.or_eq_true, hread.sees, hread.sees, beq_iff_eq, beq_iff_eq]
      exact hadmits
    unfold returnForm
    rw [if_pos hends]
    exact ((hread.appendOp .nil).appendOp .return).gets
      ((emits_appendOp _ rfl rfl).append (emits_appendOp _ rfl rfl))
  | @some e _ hrenders =>
    obtain ⟨w, vs, o, rfl, ho⟩ := opens_of_renders hrenders
    have hends : (s.read.sees .rightBrace || s.read.sees .endOfSource) = false := by
      rw [hread.sees, hread.sees, Bool.or_eq_false_iff, beq_eq_false_iff_ne, beq_eq_false_iff_ne]
      constructor <;> rintro hkind <;> rw [hkind] at ho <;> cases ho
    unfold returnForm at hq₁ ⊢
    rw [hends] at hq₁ ⊢
    have hwritten := hread.value hrenders hadmits (by omega) hq₁
    exact ((hwritten.keep hread.suits e.isValue.declared).appendOp .return).gets
      (hwritten.toEmits.append (emits_appendOp _ rfl rfl))

theorem formEmits_expression {e : Expression} (hrenders : Renders (.expression e .assignment) ws) :
    FormEmits (.expression e) ws := by
  intro ν next rest depth s h hadmits hdepth hq
  obtain ⟨w, vs, o, hws, ho⟩ := opens_of_renders hrenders
  have hkind : s.current.kind = w.kind := by
    have hs := h.reads
    rw [hws, List.cons_append] at hs
    exact hs.kind
  have hform : formOf depth s = s.expressionForm (Compile.expression depth .assignment) := by
    unfold formOf anyForm
    rw [hkind]
    generalize w.kind = k at ho
    cases k <;> first | (cases ho; done) | rfl
  rw [hform] at hq ⊢
  exact h.dropped hrenders hadmits hdepth hq

/-! ### Variables -/

/-- What is not captured changes nothing about what is. -/
theorem marked_cons_of_not {l : Local} {ls : List Local} (hl : l.isCaptured = false) (slot : Nat) :
    Marked (l :: ls) slot ↔ Marked ls slot := by
  rcases Nat.lt_trichotomy slot ls.length with hlt | rfl | hgt
  · exact marked_cons_of_lt hlt
  · rw [marked_cons_self, hl]
    exact iff_of_false Bool.false_ne_true fun h => Nat.lt_irrefl _ h.lt
  · exact iff_of_false (fun h => absurd h.lt (by rw [List.length_cons]; omega))
      fun h => absurd h.lt (by omega)

theorem emits_withLocal (s : State) (x : String) :
    Emits { declared := [x] } s (s.withLocal ⟨x, none, false⟩) where
  name := rfl
  arity := rfl
  depth := rfl
  names := rfl
  around := rfl
  spread := spread_of_marked s.around rfl (marked_cons_of_not rfl)
  nextId := rfl
  last := rfl
  code := ⟨[], adds_nil rfl rfl, .nil⟩

theorem emits_makeReadable (s : State) : Emits {} s s.makeReadable := by
  unfold makeReadable
  split
  · exact emits_refl s
  · exact emits_refl s
  · next l older hlocals _ =>
    refine emits_nothing ⟨rfl, rfl, rfl, ?_, rfl, spread_of_marked s.around rfl fun slot => ?_, rfl⟩
      rfl rfl
    · rw [hlocals]
      rfl
    · rw [hlocals]
      rcases Nat.lt_trichotomy slot older.length with hlt | rfl | hgt
      · rw [marked_cons_of_lt hlt, marked_cons_of_lt hlt]
      · rw [marked_cons_self, marked_cons_self]
      · exact iff_of_false (fun h => absurd h.lt (by rw [List.length_cons]; omega))
          fun h => absurd h.lt (by rw [List.length_cons]; omega)

/-- The local that a name declares, if it is none of a global. -/
def localsFor (ν : Naming) (x : String) : List String := if ν.isGlobal then [] else [x]

theorem declare_localsFor (ν : Naming) (x : String) : ν.declare (localsFor ν x) = ν.binding x := by
  unfold localsFor Naming.binding
  split <;> rfl

/-- What gives the variable that was declared its first value. -/
def bindingFlow (ν : Naming) (x : String) : Flow :=
  if ν.isGlobal then .pooled .defineGlobal (.string x) else .nil

/-- A local is there before its value, and a global is there after it. -/
theorem bound_eq (ν : Naming) (x : String) (hdeclared : p.declared = []) :
    { declared := localsFor ν x } ++ p ++ ({ flow := bindingFlow ν x } : Piece) =
      p ++ .bound ν x := by
  unfold localsFor bindingFlow Piece.bound
  split <;> simp [Piece.append_def, hdeclared]

/-- A name has been read and declared.  If it is global, then it has a number. -/
structure Announces (ν : Naming) (x : String) (ws : List Word) (s t : State) (number : Nat) : Prop
    where
  ahead : Ahead ws t
  previous : t.previous.lexeme = x
  emits : Emits { declared := localsFor ν x } s t
  pooled : ν.isGlobal = true → t.builder.chunk.constants[number.toUInt8.toNat]? = some (.string x)
  locals : ν.isGlobal = false → t.builder.locals = ⟨x, none, false⟩ :: s.builder.locals

theorem Announces.suits {number : Nat} {x : String} (h : Announces ν x ws s t number)
    (hν : Suits ν s) : Suits (ν.binding x) t := by
  rw [← declare_localsFor]
  exact h.emits.suits hν

theorem announces_declareName {x : String} (h : Stands ν (⟨.identifier, x⟩ :: ws) s) (hne : ws ≠ [])
    {what : Expected} (hq : (s.declareName what).2.IsQuiet) :
    Announces ν x ws s (s.declareName what).2 (s.declareName what).1 := by
  obtain ⟨hread, hprevious, hquiet⟩ := h.toAhead.read hne
  have hlexeme : s.read.previous.lexeme = x := congrArg Word.text hprevious
  have hbuilder := builder_read h.inOrder.toSane hquiet
  have hbefore := emits_read h.inOrder.toSane hquiet
  have hrequire : s.require .identifier what = s.read := h.toAhead.require_eq rfl what
  have hq₁ := isQuiet_of_declareName hq
  rw [hrequire] at hq₁
  have hlocal := declareLocal_eq hread.inOrder.toSane hq₁
  rw [hbuilder, hlexeme] at hlocal
  unfold declareName at hq ⊢
  dsimp only at hq ⊢
  rw [hrequire, hlocal] at hq ⊢
  by_cases hdepth : s.builder.depth = 0
  · have hglobal : ν.isGlobal = true := h.suits.isGlobal.trans (decide_eq_true hdepth)
    have hnone : localsFor ν x = [] := if_pos hglobal
    rw [if_pos hdepth, hbuilder, if_pos hdepth, hlexeme] at hq ⊢
    obtain ⟨hpooled, hconstant⟩ := emits_poolConstant hread.inOrder.toSane hq
    have hunheard := unheard_poolConstant hread.inOrder.toSane hq
    refine ⟨hread.edits (edits_poolConstant (v := .string x) nofun _) hunheard, ?_, ?_,
      fun _ => hconstant, fun hnot => ?_⟩
    · rw [hunheard.previous, hlexeme]
    · rw [hnone]
      exact hpooled.after hbefore
    · rw [hglobal] at hnot
      cases hnot
  · have hglobal : ν.isGlobal = false := h.suits.isGlobal.trans (decide_eq_false hdepth)
    have hone : localsFor ν x = [x] := if_neg (by rw [hglobal]; exact Bool.false_ne_true)
    have hdepth' : (s.read.withLocal ⟨x, none, false⟩).builder.depth ≠ 0 := by
      show s.read.builder.depth ≠ 0
      rwa [hbuilder]
    rw [if_neg hdepth, if_neg hdepth'] at hq ⊢
    have hlocal : Actions s.read (s.read.withLocal ⟨x, none, false⟩) := by
      have hacts := actions_declareLocal s.read
      rwa [declareLocal_eq hread.inOrder.toSane hq₁, hbuilder, hlexeme, if_neg hdepth] at hacts
    refine ⟨hread.actions hlocal (unheard_withBuilder ..), hlexeme, ?_, fun hyes => ?_, fun _ => ?_⟩
    · rw [hone]
      exact (emits_withLocal s.read x).after hbefore
    · rw [hglobal] at hyes
      cases hyes
    · show _ :: s.read.builder.locals = _
      rw [hbuilder]

/-- The variable gets its first value. -/
theorem emits_bindName (x : String) (number : Nat) (hν : ν.isGlobal = decide (t.builder.depth = 0))
    (hpooled : ν.isGlobal = true →
      t.builder.chunk.constants[number.toUInt8.toNat]? = some (.string x)) :
    Emits { flow := bindingFlow ν x } t (t.bindName number) := by
  unfold bindingFlow bindName
  by_cases hdepth : t.builder.depth = 0
  · have hglobal : ν.isGlobal = true := hν.trans (decide_eq_true hdepth)
    rw [if_pos hdepth, if_pos hglobal]
    exact emits_appendWith nofun (.pooled rfl rfl (hpooled hglobal)) fun _ => rfl
  · have hglobal : ¬ ν.isGlobal = true := by
      rw [hν, decide_eq_false hdepth]
      exact Bool.false_ne_true
    rw [if_neg hdepth, if_neg hglobal]
    exact emits_makeReadable t

/-- A variable is declared around its value. -/
theorem gets_bindName {x : String} {number : Nat} (hs : Suits ν s)
    (hd : Announces ν x us s t number) (hdeclared : p.declared = []) (hvalue : Emits p t u)
    (hu : Ahead ws u) (hsettled : Settled (u.bindName number).builder) :
    Gets (p ++ .bound ν x) ws s (u.bindName number) := by
  have hdepth : u.builder.depth = s.builder.depth := hvalue.depth.trans hd.emits.depth
  have hbound : Emits { flow := bindingFlow ν x } u (u.bindName number) := by
    refine emits_bindName x number (hs.isGlobal.trans (by rw [hdepth])) fun hglobal => ?_
    obtain ⟨_, hadds, -⟩ := hvalue.code
    exact hadds.pool _ _ (hd.pooled hglobal)
  refine ⟨?_, hu.actions (actions_bindName ..) (unheard_bindName ..), hsettled⟩
  rw [← bound_eq ν x hdeclared]
  exact (hd.emits.append hvalue).append hbound

theorem gets_varForm {x : String} {value : Option Expression} (hvar : SpellsVar x value ws)
    (h : Stands ν (ws ++ next :: rest) s) (hadmits : (Declaration.var x value).Admits next)
    (hdepth : 2 * (ws ++ next :: rest).length + 1 ≤ depth)
    (hq : (s.varForm (Compile.expression depth .assignment)).IsQuiet) :
    Gets (varPiece ν x value) (next :: rest) s
      (s.varForm (Compile.expression depth .assignment)) := by
  have hleft := h.left_le
  have hsettled := (introduces_varForm ((expressionsCarry depth).expression .assignment s.left
    (by omega)) h.inOrder.toSane hq (Nat.le_refl _) h.settled).builder.settled h.settled
  have hform : s.varForm (Compile.expression depth .assignment) =
      (initializer (Compile.expression depth .assignment) (s.declareName .variableName).2).bindName
        (s.declareName .variableName).1 := rfl
  rw [hform] at hq hsettled ⊢
  have hq₂ := (actions_bindName _ _).isQuiet hq
  have hq₁ : (s.declareName .variableName).2.IsQuiet := by
    refine Edits.isQuiet ?_ hq₂
    unfold initializer
    split
    · exact (Edit.read _).edits.trans ((formsAct depth).expression ..)
    · exact edits_appendOp ..
  cases hvar with
  | bare =>
    have hd := announces_declareName h (List.cons_ne_nil _ _) hq₁
    have hno : (s.declareName .variableName).2.sees .equal = false := by
      rw [hd.ahead.sees]
      exact beq_eq_false_iff_ne.mpr hadmits
    unfold initializer at hq₂ hsettled ⊢
    rw [hno] at hq₂ hsettled ⊢
    exact gets_bindName h.suits hd rfl (emits_appendOp _ rfl rfl)
      (hd.ahead.edits (edits_appendOp ..) (unheard_appendOp ..)) hsettled
  | @value e ws hrenders =>
    have hd := announces_declareName h (List.cons_ne_nil _ _) hq₁
    have hyes : (s.declareName .variableName).2.sees .equal = true := hd.ahead.sees .equal
    unfold initializer at hq₂ hsettled ⊢
    rw [hyes, if_pos rfl] at hq₂ hsettled ⊢
    have hread := hd.ahead.read (by simp)
    simp only [List.cons_append, List.length_cons] at hdepth
    obtain ⟨hahead, hemits⟩ := hread.1.value
      ((hd.suits h.suits).keep (gains_read hd.ahead.inOrder.toSane hread.2.2)) hrenders hadmits
      (by omega) hq₂
    exact gets_bindName h.suits hd e.isValue.declared
      (hemits.after (emits_read hd.ahead.inOrder.toSane hread.2.2)) hahead hsettled

theorem formEmits_var {x : String} {value : Option Expression} (hvar : SpellsVar x value ws) :
    FormEmits (.var x value) (mark .varWord :: ws) := by
  intro ν next rest depth s h hadmits hdepth hq
  have hform : formOf depth s = s.read.varForm (Compile.expression depth .assignment) := by
    unfold formOf anyForm
    rw [h.reads.kind]
    rfl
  rw [List.cons_append, List.length_cons] at hdepth
  rw [hform] at hq ⊢
  exact (gets_varForm hvar (h.read (by simp)) hadmits (by omega) hq).after
    (emits_read h.inOrder.toSane (h.toAhead.read (by simp)).2.2)

/-! ### Branches -/

theorem Stands.branch (h : Stands ν ws s) : Stands ν ws s.branch :=
  (h.openJump .jumpIfFalse).appendOp .pop

/-- A branch, where the alternative is written as a piece. -/
theorem gets_ifForm {c : Expression} {yes : Declaration} {w' : Word} {rest' : List Word}
    (hcondition : Renders (.expression c .assignment) us) (hcalm : Calm w)
    (hyes : DeclarationEmits yes (w :: ws)) (h : Stands ν (us ++ w :: (ws ++ w' :: rest')) s)
    (hadmits : yes.Admits w') (hdepth : 2 * (us ++ w :: (ws ++ w' :: rest')).length + 2 ≤ depth)
    (hq : (s.ifForm (Compile.expression depth .assignment) (declaration depth)).IsQuiet)
    (hother : ∀ t, Stands ν (w' :: rest') t →
      t.nextId = s.nextId + (yes.piece ν.inner s.nextId).functions →
      (t.alternative (declaration depth)).IsQuiet →
      Gets q rest t (t.alternative (declaration depth))) (hdeclared : q.declared = []) :
    Gets (c.piece ν ++ .split (.ops [.pop] ++ .inScope ν (yes.piece ν.inner s.nextId))
      (.ops [.pop] ++ q)) rest s
        (s.ifForm (Compile.expression depth .assignment) (declaration depth)) := by
  have hform : s.ifForm (Compile.expression depth .assignment) (declaration depth) =
      (((((((Compile.expression depth .assignment s).branch.inScope
        (declaration depth)).openJump .jump).2.landJump
          ((Compile.expression depth .assignment s).openJump .jumpIfFalse).1).appendOp
            .pop).alternative (declaration depth))).landJump
              (((Compile.expression depth .assignment s).branch.inScope
                (declaration depth)).openJump .jump).1 := rfl
  have hforms := formsAct depth
  rw [hform] at hq ⊢
  have hcond : (Compile.expression depth .assignment s).IsQuiet →
      Gets (c.piece ν) (w :: (ws ++ w' :: rest')) s (Compile.expression depth .assignment s) :=
    fun hq => h.value hcondition hcalm (by omega) hq
  generalize Compile.expression depth .assignment s = s₁ at hq hcond ⊢
  have hq₆ := (Edit.landJump _ _).isQuiet hq
  have hq₅ := (actions_alternative hforms.declaration _).isQuiet hq₆
  have hq₄ := (edits_appendOp _ .pop).isQuiet hq₅
  have hq₃ := (Edit.openJump _ .jump).isQuiet ((Edit.landJump _ _).isQuiet hq₄)
  have hq₁ := (edits_branch s₁).isQuiet ((actions_inScope hforms.declaration _).isQuiet hq₃)
  have hwritten := hcond hq₁
  have hs₁ : Stands ν _ s₁ := hwritten.keep h.suits c.isValue.declared
  have hid : s₁.branch.nextId = s.nextId := by
    show s₁.nextId = _
    rw [hwritten.nextId, c.isValue.functions, Nat.add_zero]
  rw [List.length_append] at hdepth
  have hbody := hyes.inScope hs₁.branch hadmits (by rw [List.cons_append]; omega) hq₃
  rw [hid] at hbody
  have hpop : Emits (.ops [.pop]) (s₁.openJump .jumpIfFalse).2 s₁.branch := emits_appendOp _ rfl rfl
  have hs₃ : Stands ν _ _ := hbody.keep hs₁.branch.suits rfl
  have hs₅ := ((hs₃.openJump .jump).landJump hq₄).appendOp .pop
  have hgains := ((gains_openJump (s₁.branch.inScope (declaration depth)) .jump).trans
    (gains_landJump (hs₃.openJump .jump).inOrder.toSane hq₄)).trans (gains_appendOp _ .pop)
  have hpop' : Emits (.ops [.pop]) ((((s₁.branch.inScope (declaration depth)).openJump
      .jump).2.landJump (s₁.openJump .jumpIfFalse).1)) _ := emits_appendOp _ rfl rfl
  have helse := hother _ hs₅ (by
    rw [hgains.nextId, hbody.nextId, hid]
    rfl) hq₆
  have hs₇ : Stands ν _ _ := helse.keep hs₅.suits hdeclared
  have hsplit := emits_split (hpop.append hbody.toEmits) rfl hs₃.inOrder hq₄
    (hpop'.append helse.toEmits) (by rw [Piece.append_def, hdeclared]; rfl) hs₇.inOrder hq
  exact (hs₇.landJump hq).gets (hwritten.toEmits.append hsplit)

theorem formEmits_branch {c : Expression} {yes : Declaration}
    (hcondition : Renders (.expression c .assignment) us) (hcalm : Calm w)
    (hyes : DeclarationEmits yes (w :: ws)) :
    FormEmits (.branch c yes) (mark .ifWord :: (us ++ w :: ws)) := by
  intro ν next rest depth s h hadmits hdepth hq
  have hform : formOf depth s =
      s.read.ifForm (Compile.expression depth .assignment) (declaration depth) := by
    unfold formOf anyForm
    rw [h.reads.kind]
    rfl
  rw [hform] at hq ⊢
  have hwords : mark .ifWord :: (us ++ w :: ws) ++ next :: rest =
      mark .ifWord :: (us ++ w :: (ws ++ next :: rest)) := by simp
  rw [hwords] at h hdepth
  rw [List.length_cons] at hdepth
  have hread := h.toAhead.read (by simp)
  refine Gets.after ?_ (emits_read h.inOrder.toSane hread.2.2)
  have hnone : ∀ t, Stands ν (next :: rest) t →
      t.nextId = s.read.nextId + (yes.piece ν.inner s.read.nextId).functions →
      (t.alternative (declaration depth)).IsQuiet →
      Gets {} (next :: rest) t (t.alternative (declaration depth)) := by
    intro t ht _ _
    have hno : t.alternative (declaration depth) = t := by
      unfold alternative
      rw [ht.sees, beq_eq_false_iff_ne.mpr hadmits.1]
      rfl
    rw [hno]
    exact ht.gets (emits_refl t)
  have hbranch := gets_ifForm hcondition hcalm hyes (h.read (by simp)) hadmits.2 (by omega) hq
    hnone rfl
  have hid : s.read.nextId = s.nextId := (emits_read h.inOrder.toSane hread.2.2).nextId
  rwa [hid, Piece.append_nothing] at hbranch

theorem formEmits_choice {c : Expression} {yes no : Declaration}
    (hcondition : Renders (.expression c .assignment) us) (hcalm : Calm w)
    (hyes : DeclarationEmits yes (w :: ws)) (helse : yes.Admits (mark .elseWord))
    (hno : DeclarationEmits no vs) :
    FormEmits (.choice c yes no) (mark .ifWord :: (us ++ w :: (ws ++ mark .elseWord :: vs))) := by
  intro ν next rest depth s h hadmits hdepth hq
  have hform : formOf depth s =
      s.read.ifForm (Compile.expression depth .assignment) (declaration depth) := by
    unfold formOf anyForm
    rw [h.reads.kind]
    rfl
  rw [hform] at hq ⊢
  have hwords : mark .ifWord :: (us ++ w :: (ws ++ mark .elseWord :: vs)) ++ next :: rest =
      mark .ifWord :: (us ++ w :: (ws ++ mark .elseWord :: (vs ++ next :: rest))) := by simp
  rw [hwords] at h hdepth
  rw [List.length_cons] at hdepth
  have hread := h.toAhead.read (by simp)
  have hid : s.read.nextId = s.nextId := (emits_read h.inOrder.toSane hread.2.2).nextId
  refine Gets.after ?_ (emits_read h.inOrder.toSane hread.2.2)
  rw [← hid]
  refine gets_ifForm hcondition hcalm hyes (h.read (by simp)) helse (by omega) hq ?_ rfl
  intro t ht hthere hq
  have hyes : t.alternative (declaration depth) = t.read.inScope (declaration depth) := by
    unfold alternative
    rw [ht.sees]
    rfl
  rw [hyes] at hq ⊢
  have hread' := ht.toAhead.read (by simp)
  have hbefore := emits_read ht.inOrder.toSane hread'.2.2
  have hother := hno.inScope (ht.read (by simp)) hadmits (by simp at hdepth ⊢; omega) hq
  have hid' : t.read.nextId = t.nextId := hbefore.nextId
  rw [hid', hthere] at hother
  exact hother.after hbefore

/-! ### Loops -/

/-- The code only grows. -/
theorem size_branch (h : Emits p s t) : s.codeSize ≤ t.branch.codeSize := by
  obtain ⟨_, hadds, -⟩ := (h.append (emits_appendOp t (show Opcode.pop.isDirect = true from rfl)
    rfl)).code
  have hsize := hadds.codeSize
  have hbranch : t.branch.codeSize = (t.appendOp .pop).codeSize + 2 := by
    simp [State.codeSize, State.branch, State.openJump, State.appendOp, State.appendByte,
      State.withLastOp, State.withChunk, Chunk.openJump, Chunk.appendWith, Chunk.appendOp,
      Chunk.append]
  omega

theorem formEmits_loop {c : Expression} {body : Declaration}
    (hcondition : Renders (.expression c .assignment) us) (hcalm : Calm w)
    (hbody : DeclarationEmits body (w :: ws)) :
    FormEmits (.loop c body) (mark .whileWord :: (us ++ w :: ws)) := by
  intro ν next rest depth s h hadmits hdepth hq
  have hform : formOf depth s =
      s.read.whileForm (Compile.expression depth .assignment) (declaration depth) := by
    unfold formOf anyForm
    rw [h.reads.kind]
    rfl
  have hwords : mark .whileWord :: (us ++ w :: ws) ++ next :: rest =
      mark .whileWord :: (us ++ w :: (ws ++ next :: rest)) := by simp
  rw [hwords] at h hdepth
  rw [List.length_cons] at hdepth
  have hread := h.toAhead.read (by simp)
  have hs := h.read (by simp)
  have hbefore := emits_read h.inOrder.toSane hread.2.2
  have hid : s.read.nextId = s.nextId := hbefore.nextId
  rw [hform] at hq ⊢
  refine Gets.after ?_ hbefore
  rw [← hid]
  generalize s.read = s₀ at hq hs ⊢
  have hforms := formsAct depth
  have hwhile : s₀.whileForm (Compile.expression depth .assignment) (declaration depth) =
      ((((Compile.expression depth .assignment s₀).branch.inScope (declaration depth)).loopBack
        s₀.codeSize).landJump
          ((Compile.expression depth .assignment s₀).openJump .jumpIfFalse).1).appendOp .pop := rfl
  rw [hwhile] at hq ⊢
  have hcond : (Compile.expression depth .assignment s₀).IsQuiet →
      Gets (c.piece ν) (w :: (ws ++ next :: rest)) s₀ (Compile.expression depth .assignment s₀) :=
    fun hq => hs.value hcondition hcalm (by omega) hq
  generalize Compile.expression depth .assignment s₀ = s₁ at hq hcond ⊢
  have hq₄ := (edits_appendOp _ .pop).isQuiet hq
  have hq₃ := (Edit.landJump _ _).isQuiet hq₄
  have hq₂ := (Edit.loopBack _ _).isQuiet hq₃
  have hq₁ := (edits_branch s₁).isQuiet ((actions_inScope hforms.declaration _).isQuiet hq₂)
  have hwritten := hcond hq₁
  have hs₁ : Stands ν _ s₁ := hwritten.keep hs.suits c.isValue.declared
  have hid₁ : s₁.branch.nextId = s₀.nextId := by
    show s₁.nextId = _
    rw [hwritten.nextId, c.isValue.functions, Nat.add_zero]
  rw [List.length_append] at hdepth
  have hround := hbody.inScope hs₁.branch hadmits (by rw [List.cons_append]; omega) hq₂
  rw [hid₁] at hround
  have hs₂ : Stands ν _ _ := hround.keep hs₁.branch.suits rfl
  have hstart := size_branch hwritten.toEmits
  have hback := emitsRound_plain hround.toEmits rfl hs₂.inOrder hstart hq₃
  have hs₃ := hs₂.loopBack hq₃
  have hs₄ := (hs₃.landJump hq₄).appendOp .pop
  exact hs₄.gets (emits_loop hwritten.toEmits c.isValue.declared hback hs₃.inOrder hq₄)

end Forms

end ScriptEngine.Compile
