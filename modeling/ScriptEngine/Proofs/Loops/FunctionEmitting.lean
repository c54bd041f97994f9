import ScriptEngine.Proofs.Loops.StatementEmitting
set_option autoImplicit false

/-!
# Compiling functions to pieces

The body of a function is compiled in a builder of its own, with the builder around it behind.  What
the body captures of it and of the functions further out is what the closure captures, apart from
the order.
-/

namespace ScriptEngine.Compile

open State ScriptEngine.Tree

/-! ## Declarations in a row -/

/-- Where a spelling of declarations in a row is ahead, they are read and their piece is written. -/
def BodyEmits (stop : Word) (ds : List Declaration) (ws : List Word) : Prop :=
  ∀ {ν : Naming} {rest : List Word} {depth : Nat} {s : State},
    Stands ν (ws ++ stop :: rest) s → 2 * (ws ++ stop :: rest).length + 3 ≤ depth →
    (declarations depth s).IsQuiet →
    Gets (pieceOfBody ds ν s.nextId) (stop :: rest) s (declarations depth s)

section Bodies

variable {ν : Naming} {p : Piece} {d : Declaration} {ds : List Declaration} {stop next : Word}
  {ws vs rest : List Word} {s t u : State} {depth : Nat}

theorem bodyEmits_nil (hstop : stop.kind = .rightBrace ∨ stop.kind = .endOfSource) :
    BodyEmits stop [] [] := by
  intro ν rest depth s h hdepth hq
  obtain ⟨depth, rfl⟩ : ∃ n, depth = n + 1 := ⟨depth - 1, by omega⟩
  have hend : (s.sees .rightBrace || s.sees .endOfSource) = true := by
    rw [Bool.or_eq_true, h.sees, h.sees, beq_iff_eq, beq_iff_eq]
    exact hstop
  have hform : declarations (depth + 1) s = s.tick := by
    rw [declarations, if_pos hend]
  rw [hform]
  exact h.tick.gets (emits_tick s)

/-- Neither a block nor the source ends before a declaration. -/
theorem Ahead.starts (hspells : Spells d ws) (h : Ahead (ws ++ rest) s) :
    s.sees .rightBrace = false ∧ s.sees .endOfSource = false := by
  obtain ⟨w, us, rfl, hbrace, hsource⟩ := starts_of_spells hspells
  rw [List.cons_append] at h
  rw [h.sees, h.sees]
  exact ⟨beq_eq_false_iff_ne.mpr hbrace, beq_eq_false_iff_ne.mpr hsource⟩

/-- A declaration is read from the front of a row. -/
theorem Stands.first (hd : DeclarationEmits d ws) (h : Stands ν (ws ++ vs ++ stop :: rest) s)
    (hadmits : d.Admits (vs.headD stop))
    (hdepth : 2 * (ws ++ vs ++ stop :: rest).length + 2 ≤ depth)
    (hq : (declaration depth s.tick).IsQuiet) :
    Gets (d.piece ν s.nextId) (vs ++ stop :: rest) s (declaration depth s.tick) := by
  obtain ⟨later, hlater⟩ : ∃ later, vs ++ stop :: rest = vs.headD stop :: later := by
    cases vs <;> exact ⟨_, rfl⟩
  have hs := h.tick
  rw [List.append_assoc, hlater] at hs hdepth
  rw [hlater]
  exact (hd hs hadmits hdepth hq).after (emits_tick s)

theorem bodyEmits_cons (hspells : Spells d ws) (hd : DeclarationEmits d ws)
    (hadmits : d.Admits (vs.headD stop)) (hds : BodyEmits stop ds vs) :
    BodyEmits stop (d :: ds) (ws ++ vs) := by
  intro ν rest depth s h hdepth hq
  obtain ⟨depth, rfl⟩ : ∃ n, depth = n + 1 := ⟨depth - 1, by omega⟩
  have hmore : (s.sees .rightBrace || s.sees .endOfSource) = false := by
    have hs := h.toAhead
    rw [List.append_assoc] at hs
    obtain ⟨hbrace, hsource⟩ := hs.starts hspells
    rw [hbrace, hsource]
    rfl
  have hform : declarations (depth + 1) s = declarations depth (declaration depth s.tick) := by
    rw [declarations, if_neg (by rw [hmore]; exact Bool.false_ne_true)]
  rw [hform] at hq ⊢
  have hfirst := h.first hd hadmits (by omega) (((formsAct depth).declarations _).isQuiet hq)
  obtain ⟨w, us, rfl, -, -⟩ := starts_of_spells hspells
  simp only [List.cons_append, List.length_cons, List.length_append] at hdepth
  have hrest := hds (hfirst.stands h.suits)
    (by simp only [List.length_append, List.length_cons]; omega) hq
  rw [hfirst.nextId] at hrest
  exact hrest.append hfirst.toEmits

/-! ## Blocks -/

/-- Declarations up to a closing brace. -/
theorem gets_blockForm (hds : BodyEmits (mark .rightBrace) ds ws)
    (h : Stands ν (ws ++ mark .rightBrace :: next :: rest) s)
    (hdepth : 2 * (ws ++ mark .rightBrace :: next :: rest).length + 3 ≤ depth)
    (hq : (s.blockForm (declarations depth)).IsQuiet) :
    Gets (pieceOfBody ds ν s.nextId) (next :: rest) s (s.blockForm (declarations depth)) := by
  unfold blockForm at hq ⊢
  have hinside := hds h hdepth ((edits_require ..).isQuiet hq)
  rw [hinside.ahead.require_eq (k := .rightBrace) rfl]
  exact hinside.read (List.cons_ne_nil _ _)

theorem formEmits_block (hds : BodyEmits (mark .rightBrace) ds ws) :
    FormEmits (.block ds) (braces ws) := by
  intro ν next rest depth s h hadmits hdepth hq
  have hwords : braces ws ++ next :: rest =
      mark .leftBrace :: (ws ++ mark .rightBrace :: next :: rest) := by
    simp [braces]
  rw [hwords] at h hdepth
  rw [List.length_cons] at hdepth
  have hform : formOf depth s = s.read.inScope (blockForm (declarations depth)) := by
    unfold formOf anyForm
    rw [h.reads.kind]
    rfl
  have hs := h.read (by simp)
  have hbefore := emits_read h.inOrder.toSane (h.toAhead.read (by simp)).2.2
  have hid : s.read.nextId = s.nextId := hbefore.nextId
  have hleft := hs.left_le
  rw [hform] at hq ⊢
  refine Gets.after ?_ hbefore
  rw [← hid]
  have hadvances := advances_blockForm ((declarationsAdvance depth).declarations s.read.left
    (by omega))
  exact gets_inScope hadvances hs hq fun hq₁ => gets_blockForm hds hs.openScope (by omega) hq₁

/-! ## Parameters -/

/-- Parameters have been read and declared, the last one first, and nothing else was done. -/
structure Receives (names : List String) (s t : State) : Prop where
  name : t.builder.name = s.builder.name
  names : t.builder.locals.map Local.name = names ++ s.builder.locals.map Local.name
  around : localNames t.around = localNames s.around
  spread : Spread [] (s.builder :: s.around) (t.builder :: t.around)
  nextId : t.nextId = s.nextId

theorem Receives.trans {names names' : List String} (h : Receives names s t)
    (k : Receives names' t u) : Receives (names' ++ names) s u where
  name := k.name.trans h.name
  names := by rw [k.names, h.names, List.append_assoc]
  around := k.around.trans h.around
  spread := h.spread.trans k.spread
  nextId := k.nextId.trans h.nextId

theorem Gains.receives {names : List String} (h : Gains [] names 0 s t) : Receives names s t :=
  ⟨h.name, h.names, h.around, h.spread, h.nextId⟩

/-- The parameters of a function are being read. -/
structure Listening (ν : Naming) (ws : List Word) (s : State) : Prop extends Stands ν ws s where
  header : Header s.builder

theorem Listening.read {w : Word} (h : Listening ν (w :: ws) s) (hne : ws ≠ []) :
    Listening ν ws s.read ∧ Receives [] s s.read := by
  have hread := h.toAhead.read hne
  refine ⟨⟨h.toStands.read hne, ?_⟩, (gains_read h.inOrder.toSane hread.2.2).receives⟩
  rw [builder_read h.inOrder.toSane hread.2.2]
  exact h.header

/-- One more parameter is counted. -/
def State.countParameter (s : State) : State :=
  { s.tick with builder := { s.tick.builder with arity := s.tick.builder.arity + 1 } }

/-- There is room for a parameter, or it would have been complained about. -/
theorem parameter_eq (hs : s.Sane) (hq : s.parameter.IsQuiet) :
    s.parameter = (s.countParameter.declareName .parameterName).2.bindName
      (s.countParameter.declareName .parameterName).1 := by
  unfold State.parameter at hq ⊢
  dsimp only at hq ⊢
  split at hq
  · refine absurd ((actions_declareName _ _).isQuiet ((actions_bindName _ _).isQuiet hq)) ?_
    exact not_isQuiet_complainNext ((Edit.tick s).sane hs hs.quiet) _
  · next hroom =>
    rw [if_neg hroom]
    rfl

theorem Listening.parameter {x : String} (h : Listening ν (⟨.identifier, x⟩ :: ws) s)
    (hne : ws ≠ []) (hq : s.parameter.IsQuiet) :
    Listening (ν.declare [x]) ws s.parameter ∧ Receives [x] s s.parameter := by
  have hheader := (header_parameter h.inOrder.toSane hq h.header).1
  have hlocal : ν.isGlobal = false := by
    rw [h.suits.isGlobal, h.header.depth]
    rfl
  have hstart : Stands ν (⟨.identifier, x⟩ :: ws) s.countParameter :=
    ⟨h.tick.toAhead.actions (Action.setArity ..).actions ⟨rfl, rfl, rfl, rfl⟩,
      ⟨h.suits.names, h.suits.around, h.suits.isGlobal⟩, ⟨h.settled.nonempty, h.settled.depths⟩⟩
  have hbefore : Receives [] s s.countParameter :=
    ⟨rfl, rfl, rfl, spread_same _ rfl rfl, rfl⟩
  have hform := parameter_eq h.inOrder.toSane hq
  rw [hform] at hq hheader ⊢
  have hd := announces_declareName hstart hne ((actions_bindName _ _).isQuiet hq)
  have hbound := gets_bindName hstart.suits hd rfl (emits_refl _) hd.ahead hheader.settled
  have hdeclared : ({} : Piece) ++ Piece.bound ν x = { declared := [x] } := by
    unfold Piece.bound
    rw [hlocal]
    rfl
  rw [hdeclared] at hbound
  exact ⟨⟨hbound.stands hstart.suits, hheader⟩, hbefore.trans hbound.toGains.receives⟩

theorem isQuiet_of_parameters {limit : Nat} (hq : (s.parameters (limit + 1)).IsQuiet) :
    s.parameter.IsQuiet := by
  unfold State.parameters at hq
  dsimp only at hq
  split at hq
  · exact (Edit.read _).isQuiet ((actions_parameters _ _).isQuiet hq)
  · exact hq

theorem Listening.parameters (ps : List String) (x : String) {limit : Nat}
    (h : Listening ν (commas (x :: ps) ++ mark .rightParen :: ws) s) (hlimit : ps.length ≤ limit)
    (hq : (s.parameters (limit + 1)).IsQuiet) :
    Listening (ν.declare (x :: ps).reverse) (mark .rightParen :: ws) (s.parameters (limit + 1)) ∧
      Receives (x :: ps).reverse s (s.parameters (limit + 1)) := by
  induction ps generalizing x limit ν s with
  | nil =>
    obtain ⟨hone, hreceives⟩ := Listening.parameter h (List.cons_ne_nil _ _)
      (isQuiet_of_parameters hq)
    have hend : s.parameters (limit + 1) = s.parameter := by
      have hno : s.parameter.sees .comma = false := hone.sees .comma
      rw [State.parameters]
      rw [hno, if_neg Bool.false_ne_true]
    rw [hend]
    exact ⟨hone, hreceives⟩
  | cons y ps ih =>
    obtain ⟨limit, rfl⟩ : ∃ n, limit = n + 1 := ⟨limit - 1, by simp at hlimit; omega⟩
    have hhere : Listening ν (⟨.identifier, x⟩ :: mark .comma ::
      (commas (y :: ps) ++ mark .rightParen :: ws)) s := h
    obtain ⟨hone, hreceives⟩ := hhere.parameter (List.cons_ne_nil _ _) (isQuiet_of_parameters hq)
    have hmore : s.parameters (limit + 1 + 1) = s.parameter.read.parameters (limit + 1) := by
      have hyes : s.parameter.sees .comma = true := hone.sees .comma
      rw [State.parameters]
      rw [hyes, if_pos rfl]
    rw [hmore] at hq ⊢
    obtain ⟨hread, hreceives'⟩ := hone.read (by simp)
    obtain ⟨hrest, hreceives''⟩ := ih y hread (Nat.le_of_succ_le_succ hlimit) hq
    have hnames : (ν.declare [x]).declare (y :: ps).reverse = ν.declare (x :: y :: ps).reverse := by
      rw [List.reverse_cons (a := x)]
      simp [Naming.declare]
    rw [hnames] at hrest
    have hall := hreceives.trans (hreceives'.trans hreceives'')
    rw [List.append_nil, ← List.reverse_cons] at hall
    exact ⟨hrest, hall⟩

theorem length_le_commas (xs : List String) : xs.length ≤ (commas xs).length := by
  induction xs with
  | nil => exact Nat.le_refl 0
  | cons x xs ih =>
    cases xs with
    | nil => exact Nat.le_refl 1
    | cons y xs => exact Nat.succ_le_succ (Nat.le_succ_of_le ih)

/-- The parameters of a function have been read, up to its body. -/
theorem listening_prologue {x : String} {ps : List String}
    (h : Ahead (parens (commas ps) ++ mark .leftBrace :: ws) s) (hν : Suits ν s)
    (hx : s.previous.lexeme = x) (hne : ws ≠ []) (hq : s.prologue.IsQuiet) :
    Listening ⟨ps.reverse ++ [""], ν.names :: ν.around, false⟩ ws s.prologue ∧
      Receives ps.reverse (s.enterFunction x).openScope s.prologue := by
  unfold prologue at hq ⊢
  rw [hx] at hq ⊢
  have hstart : Listening ⟨[""], ν.names :: ν.around, false⟩
      (mark .leftParen :: (commas ps ++ mark .rightParen :: mark .leftBrace :: ws))
      (s.enterFunction x).openScope := by
    have hheader : Header (s.enterFunction x).openScope.builder :=
      ⟨rfl, rfl, rfl, rfl, rfl, rfl, fun l hl => by
        rw [List.mem_singleton.mp hl]
        exact ⟨0, rfl, Nat.zero_le _⟩, [], rfl⟩
    refine ⟨⟨?_, ⟨rfl, ?_, rfl⟩, hheader.settled⟩, hheader⟩
    · have hwords : parens (commas ps) ++ mark .leftBrace :: ws =
          mark .leftParen :: (commas ps ++ mark .rightParen :: mark .leftBrace :: ws) := by
        simp [parens]
      rw [← hwords]
      exact h.actions ((Action.enter s x).actions.trans (actions_openScope _))
        ⟨rfl, rfl, rfl, rfl⟩
    · show s.builder.locals.map Local.name :: localNames s.around = _
      rw [hν.names, hν.around]
  generalize (s.enterFunction x).openScope = s₀ at hq hstart ⊢
  have hq₁ := (edits_require ..).isQuiet hq
  have hopen : s₀.require .leftParen .openingOfParameters = s₀.read :=
    hstart.toAhead.require_eq rfl _
  obtain ⟨hread, hreceives⟩ := hstart.read (by simp)
  -- the list up to the closing parenthesis
  have hlist : Listening ⟨ps.reverse ++ [""], ν.names :: ν.around, false⟩
      (mark .leftBrace :: ws) s₀.parameterList ∧ Receives ps.reverse s₀ s₀.parameterList := by
    unfold parameterList at hq₁ ⊢
    rw [hopen] at hq₁ ⊢
    dsimp only at hq₁ ⊢
    cases ps with
    | nil =>
      have hempty : s₀.read.sees .rightParen = true := hread.sees .rightParen
      rw [hempty, if_pos rfl] at hq₁ ⊢
      rw [hread.toAhead.require_eq (k := .rightParen) rfl]
      obtain ⟨hclosed, hreceives'⟩ := hread.read (List.cons_ne_nil _ _)
      exact ⟨hclosed, hreceives.trans hreceives'⟩
    | cons y ps =>
      have hsome : s₀.read.sees .rightParen = false := by
        cases ps <;> exact hread.sees .rightParen
      rw [hsome, if_neg Bool.false_ne_true] at hq₁ ⊢
      have hlimit : ps.length ≤ s₀.read.rest.length + 1 := by
        have hlength := hread.length_eq
        have hcommas := length_le_commas (y :: ps)
        rw [List.length_append] at hlength
        rw [List.length_cons] at hcommas
        omega
      obtain ⟨hlast, hreceives'⟩ := hread.parameters ps y hlimit ((edits_require ..).isQuiet hq₁)
      rw [hlast.toAhead.require_eq (k := .rightParen) rfl]
      obtain ⟨hclosed, hreceives''⟩ := hlast.read (List.cons_ne_nil _ _)
      have hall := hreceives.trans (hreceives'.trans hreceives'')
      rw [List.append_nil, List.nil_append] at hall
      exact ⟨hclosed, hall⟩
  rw [hlist.1.toAhead.require_eq (k := .leftBrace) rfl]
  obtain ⟨hbody, hreceives'⟩ := hlist.1.read hne
  exact ⟨hbody, hlist.2.trans hreceives'⟩

/-! ## Bodies of functions -/

/-- A function returns at its end. -/
theorem emits_returnNil (h : Emits p s t) (hlast : s.hasReturned = false) :
    Emits { p with flow := p.flow.finish } s t.returnNil := by
  have hreturned := h.last
  rw [hlast] at hreturned
  unfold returnNil Flow.finish
  by_cases hreturn : t.builder.lastOp = some .return
  · have hends : p.flow.endsInReturn false = true := by
      rw [← hreturned]
      exact decide_eq_true hreturn
    rw [if_pos hreturn, if_pos hends]
    exact h
  · have hends : ¬ p.flow.endsInReturn false = true := by
      rw [← hreturned]
      exact fun hyes => hreturn (of_decide_eq_true hyes)
    rw [if_neg hreturn, if_neg hends]
    have hall := h.append ((emits_appendOp t (show Opcode.nil.isDirect = true from rfl) rfl).append
      (emits_appendOp _ (show Opcode.return.isDirect = true from rfl) rfl))
    have hpiece : p ++ (.ops [.nil] ++ .ops [.return]) =
        { p with flow := p.flow ++ Flow.plain [.nil, .return] } := by
      refine Piece.ext rfl ?_ ?_ ?_
      · exact List.append_nil _
      · rfl
      · exact Nat.add_zero _
    rwa [hpiece] at hall

/-- The code of a function that started without any is the code of its piece. -/
theorem Emits.whole (h : Emits p s t) (hempty : s.builder.chunk = .empty) :
    p.flow.IsCode t.builder.chunk.constants s.around.length (homesOf (t.builder :: t.around))
      t.builder.chunk.code.toList := by
  obtain ⟨bytes, hadds, hcode⟩ := h.code
  have hall := hadds.code
  rw [hempty] at hall
  rwa [show t.builder.chunk.code.toList = bytes from hall]

theorem emits_body (hds : BodyEmits (mark .rightBrace) ds ws)
    (h : Listening ν (ws ++ mark .rightBrace :: next :: rest) s)
    (hdepth : 2 * (ws ++ mark .rightBrace :: next :: rest).length + 3 ≤ depth)
    (hq : (s.body (declarations depth)).IsQuiet) :
    Ahead (next :: rest) (s.body (declarations depth)) ∧
      Emits { pieceOfBody ds ν s.nextId with flow := (pieceOfBody ds ν s.nextId).flow.finish } s
        (s.body (declarations depth)) := by
  unfold body at hq ⊢
  have hwritten := (gets_blockForm hds h.checkpoint hdepth ((edits_returnNil _).isQuiet hq)).after
    (emits_checkpoint s)
  refine ⟨hwritten.ahead.edits (edits_returnNil _) (unheard_returnNil _), ?_⟩
  refine emits_returnNil hwritten.toEmits ?_
  unfold hasReturned
  rw [h.header.lastOp]
  rfl

/-! ## Closures -/

theorem gains_appendCaptures (captures : List Capture) (s : State) :
    Gains [] [] 0 s (s.appendCaptures captures) := by
  induction captures generalizing s with
  | nil => exact gains_of_same rfl rfl rfl rfl rfl rfl rfl
  | cons c captures ih =>
    have hone : Gains [] [] 0 s
        ((s.appendByte (if c.isLocal then 1 else 0)).appendNumber c.index) := by
      unfold appendNumber guarantee
      split <;> exact gains_of_same rfl rfl rfl rfl rfl rfl rfl
    exact hone.trans (ih _)

theorem gains_closureCode (hs : s.Sane) {f : Function Value} {captures : List Capture}
    (hq : (s.closureCode f captures).IsQuiet) : Gains [] [] 0 s (s.closureCode f captures) := by
  have hq₁ : (s.poolConstant (.function f)).2.IsQuiet :=
    (edits_appendWith ..).isQuiet ((edits_appendCaptures ..).isQuiet hq)
  exact ((gains_poolConstant hs hq₁).trans (gains_appendWith ..)).trans (gains_appendCaptures ..)

theorem unheard_closureCode (hs : s.Sane) {f : Function Value} {captures : List Capture}
    (hq : (s.closureCode f captures).IsQuiet) : Unheard s (s.closureCode f captures) := by
  have hq₁ : (s.poolConstant (.function f)).2.IsQuiet :=
    (edits_appendWith ..).isQuiet ((edits_appendCaptures ..).isQuiet hq)
  exact ((unheard_poolConstant hs hq₁).trans (unheard_appendWith _ ..)).trans
    (unheard_appendCaptures _ captures)

/-- The function around goes on behind a function, and makes a closure of it. -/
theorem emits_leave {homes : List Home} {a : Flow} {x : String} {n : Nat} (hu : u.Sane)
    (hgrown : GrownAll (s.builder :: s.around) u.around)
    (hspread : Spread homes (s.builder :: s.around) u.around)
    (hcaptured : ∀ h : Home, h.level < s.around.length + 1 →
      (h ∈ homesOf (u.builder :: u.around) ↔ h ∈ homes))
    (hname : u.builder.name = some x) (hid : u.nextId = s.nextId + n)
    (hcode : a.IsCode u.builder.chunk.constants (s.around.length + 1)
      (homesOf (u.builder :: u.around)) u.builder.chunk.code.toList)
    (hends : (a.before .done).Ends)
    (hq : (u.leaveFinished.closureCode (u.builder.finish u.nextId) u.builder.captures).IsQuiet) :
    Emits { flow := .closure (s.nextId + n) x u.builder.arity
              (homes.filter fun h => h.level ≤ s.around.length) a
            homes := homes.filter fun h => h.level ≤ s.around.length, functions := n + 1 } s
      (u.leaveFinished.closureCode (u.builder.finish u.nextId) u.builder.captures) := by
  have hfew := (hu.roomy _ List.mem_cons_self).captures
  have hq₁ := isQuiet_of_closureCode hq
  have hv : u.leaveFinished.Sane := (Action.leave u).sane hu hq₁
  obtain ⟨hinner, houter, hgrounded⟩ := leaveFinished_spec hu hgrown
  have haround : u.around = u.leaveFinished.builder :: u.leaveFinished.around := by
    have hlength := hspread.length_eq
    unfold leaveFinished leaveFunction
    cases hbs : u.around with
    | nil =>
      rw [hbs] at hlength
      cases hlength
    | cons b bs => rfl
  have hlinked := hu.linked
  have hidv : u.leaveFinished.nextId = s.nextId + (n + 1) := by
    show u.nextId + 1 = _
    rw [hid, Nat.add_assoc]
  rw [haround] at hspread hcaptured hcode hlinked
  generalize hf : u.builder.finish u.nextId = f at hq ⊢
  generalize u.leaveFinished = v at *
  have hgains := gains_closureCode hv hq
  obtain ⟨hroom, lines, hbuilder⟩ := builder_closureCode hv hq
  have hkept : ∀ h : Home, h.level < (s.builder :: s.around).length →
      (h ∈ homes ↔ h ∈ homes.filter fun h => h.level ≤ s.around.length) := by
    intro h hlevel
    simp [Nat.le_of_lt_succ hlevel]
  have hleave : Gains (homes.filter fun h => h.level ≤ s.around.length) [] (n + 1) s v :=
    { name := by rw [hinner.same]
      arity := by rw [hinner.same]
      depth := by rw [hinner.same]
      names := names_of_raisedAll hinner.locals
      around := localNames_of_grownAll houter
      spread := hspread.congr hkept
      nextId := hidv }
  have hgained := hleave.trans hgains
  rw [List.append_nil, Nat.add_zero] at hgained
  have hlevel := hleave.level_eq
  have hroomy := hv.roomy _ List.mem_cons_self
  have hcaptures := capturesOf_captureBytes fun c hc => (hgrounded c hc).lt hroomy
  have hhomes : homesOf (u.builder :: v.builder :: v.around) =
      u.builder.captures.map (Capture.home s.around.length (homesOf (v.builder :: v.around))) := by
    rw [homesOf, List.length_cons, Nat.add_sub_cancel, hlevel]
  refine ⟨hgained, ?_, Opcode.closure.toByte :: v.builder.chunk.constants.size.toUInt8 ::
    captureBytes u.builder.captures, ⟨?_, fun k w hw => ?_, fun _ => .inr trivial⟩, ?_⟩
  · unfold hasReturned
    rw [hbuilder]
    rfl
  · rw [hbuilder, ← hinner.chunk]
    simp
  · rw [hbuilder]
    rw [← hinner.chunk] at hw
    exact getElem_push_of_some hw _
  · have hclosure : Flow.IsCode (v.closureCode f u.builder.captures).builder.chunk.constants
        s.around.length (homesOf (v.builder :: v.around))
        (.closure u.nextId x u.builder.arity (homes.filter fun h => h.level ≤ s.around.length) a)
        (Opcode.closure.toByte :: v.builder.chunk.constants.size.toUInt8 ::
          captureBytes u.builder.captures) := by
      rw [hbuilder]
      subst hf
      refine .closure (g := u.builder.finish u.nextId) ?_ hname ?_ ?_ ?_ ?_ hends ?_
      · rw [toNat_toUInt8 hroom]
        exact Array.getElem?_push_size
      · exact length_captureBytes _
      · rw [length_captureBytes]
        exact two_mul_lt_of_le_byteRange hfew
      · rw [hcaptures]
        exact fun c hc => (hgrounded c hc).within
      · intro h
        rw [hcaptures, ← hhomes, List.mem_filter, decide_eq_true_eq]
        refine ⟨fun hmem => ?_, fun hmem => ?_⟩
        · have hlt := hlinked.level_lt hmem
          rw [List.length_cons, hlevel] at hlt
          exact ⟨(hcaptured h hlt).mp hmem, Nat.le_of_lt_succ hlt⟩
        · exact (hcaptured h (Nat.lt_succ_of_le hmem.2)).mpr hmem.1
      · rw [hcaptures, ← hhomes]
        exact hcode
    rw [hid] at hclosure
    exact hclosure.mono (fun _ _ hv => hv) hgains.longer

/-! ## Function declarations -/

theorem emits_functionForm {x : String} {ps : List String}
    (hds : BodyEmits (mark .rightBrace) ds ws)
    (h : Ahead (parens (commas ps) ++ braces ws ++ next :: rest) s) (hν : Suits ν s)
    (hx : s.previous.lexeme = x)
    (hdepth : 2 * (ws ++ mark .rightBrace :: next :: rest).length + 3 ≤ depth)
    (hq : (s.functionForm (declarations depth)).IsQuiet) :
    Ahead (next :: rest) (s.functionForm (declarations depth)) ∧
      Emits (.function ν.around.length s.nextId x ps.length
        (pieceOfBody ds ⟨ps.reverse ++ [""], ν.names :: ν.around, false⟩ s.nextId)) s
        (s.functionForm (declarations depth)) := by
  have hwords : parens (commas ps) ++ braces ws ++ next :: rest =
      parens (commas ps) ++ mark .leftBrace :: (ws ++ mark .rightBrace :: next :: rest) := by
    simp [braces]
  rw [hwords] at h
  have hforms := formsAct depth
  rw [functionForm_eq] at hq ⊢
  have hq₃ := isQuiet_of_closureCode hq
  have hq₂ := (Action.leave _).isQuiet hq₃
  have hq₁ := (actions_body hforms.declarations _).isQuiet hq₂
  obtain ⟨hstart, hreceives⟩ := listening_prologue h hν hx (by simp) hq₁
  obtain ⟨hahead, hbody⟩ := emits_body hds hstart hdepth hq₂
  have hinOrder := (actions_functionForm hforms.declarations s).inOrder h.inOrder hq
  rw [functionForm_eq] at hinOrder
  have hleft := hstart.left_le
  have hbeside := (header_prologue h.inOrder.toSane hq₁).2
  have hbeside' := (beside_body
    ((declarationsAdvance depth).declarations s.prologue.left (by omega))
    hstart.inOrder.toSane hstart.header hq₂ (Nat.le_refl _)).1
  have hgrown : GrownAll (s.builder :: s.around) (s.prologue.body (declarations depth)).around :=
    hbeside.around.trans hbeside'.around
  have hlevel : s.prologue.around.length = s.around.length + 1 :=
    Nat.succ.inj hreceives.spread.length_eq
  have hu : (s.prologue.body (declarations depth)).Sane := hahead.inOrder.toSane
  have hempty := hstart.header.chunk
  have hcount := hstart.header.arity
  have hid : s.prologue.nextId = s.nextId := hreceives.nextId
  rw [hid] at hbody
  generalize pieceOfBody ds ⟨ps.reverse ++ [""], ν.names :: ν.around, false⟩ s.nextId = p at *
  generalize s.prologue = t at *
  generalize t.body (declarations depth) = u at *
  have hcode := hbody.whole hempty
  rw [hlevel] at hcode
  have harity : u.builder.arity = ps.length := by
    have hlength := congrArg List.length hreceives.names
    rw [List.length_map, List.length_append, List.length_reverse, hcount] at hlength
    rw [hbody.arity]
    exact Nat.succ.inj hlength
  have hspread := hreceives.spread.trans hbody.spread
  rw [List.nil_append] at hspread
  cases hspread with
  | cons kept marked captured around =>
  refine ⟨⟨hinOrder, ?_⟩, ?_⟩
  · have hleave : Unheard u u.leaveFinished := ⟨rfl, rfl, rfl, rfl⟩
    exact hahead.reads.unheard
      (hleave.trans (unheard_closureCode ((Action.leave u).sane hu hq₃) hq))
  · have hleaves := emits_leave hu hgrown around (fun h hlevel => ?_)
      (hbody.name.trans hreceives.name)
      (hbody.nextId.trans (congrArg (· + p.functions) hid)) hcode (Flow.ends_finish _) hq
    · rw [harity] at hleaves
      unfold Piece.function
      rw [hν.length_around]
      exact hleaves
    · rw [captured h hlevel]
      exact or_iff_right List.not_mem_nil

theorem formEmits_function {x : String} {ps : List String}
    (hds : BodyEmits (mark .rightBrace) ds ws) :
    FormEmits (.function x ps ds)
      (mark .fnWord :: ⟨.identifier, x⟩ :: (parens (commas ps) ++ braces ws)) := by
  intro ν next rest depth s h hadmits hdepth hq
  have hwords : mark .fnWord :: ⟨.identifier, x⟩ :: (parens (commas ps) ++ braces ws) ++
      next :: rest = mark .fnWord :: ⟨.identifier, x⟩ ::
        (parens (commas ps) ++ braces ws ++ next :: rest) := by simp
  have hinside : (ws ++ mark .rightBrace :: next :: rest).length + 1 ≤
      (parens (commas ps) ++ braces ws ++ next :: rest).length := by
    simp only [braces, List.length_append, List.length_cons, List.length_nil]
    omega
  rw [hwords] at h hdepth
  rw [List.length_cons] at hdepth
  have hform : formOf depth s = s.read.fnForm (declarations depth) := by
    unfold formOf anyForm
    rw [h.reads.kind]
    rfl
  have hread := h.toAhead.read (List.cons_ne_nil _ _)
  have hbefore := emits_read h.inOrder.toSane hread.2.2
  have hs := h.read (List.cons_ne_nil _ _)
  have hid : s.read.nextId = s.nextId := hbefore.nextId
  have hleft := hs.left_le
  rw [hform] at hq ⊢
  refine Gets.after ?_ hbefore
  rw [← hid]
  have hsettled := (introduces_fnForm ((declarationsAdvance depth).declarations s.read.left
    (by omega)) hs.inOrder.toSane hq (Nat.le_refl _) hs.settled).builder.settled hs.settled
  generalize s.read = s₀ at *
  have hfn : s₀.fnForm (declarations depth) =
      ((s₀.declareName .functionName).2.makeReadable.functionForm (declarations depth)).bindName
        (s₀.declareName .functionName).1 := rfl
  rw [hfn] at hq hsettled ⊢
  have hq₂ := (actions_bindName _ _).isQuiet hq
  have hq₁ := (actions_makeReadable _).isQuiet
    ((actions_functionForm (formsAct depth).declarations _).isQuiet hq₂)
  have hd := announces_declareName hs (by simp [parens]) hq₁
  have hmade := emits_makeReadable (s₀.declareName .functionName).2
  rw [List.length_cons] at hdepth
  obtain ⟨hahead, hfunction⟩ := emits_functionForm hds
    (hd.ahead.actions (actions_makeReadable _) (unheard_makeReadable _))
    ((hd.suits hs.suits).keep hmade.toGains)
    ((congrArg Token.lexeme (unheard_makeReadable _).previous).trans hd.previous) (by omega) hq₂
  have hid' : (s₀.declareName .functionName).2.makeReadable.nextId = s₀.nextId :=
    hmade.nextId.trans hd.emits.nextId
  rw [hid'] at hfunction
  have hbound := gets_bindName hs.suits hd rfl (hfunction.after hmade) hahead hsettled
  have hnames : (ν.binding x).around = ν.around := by
    unfold Naming.binding
    split <;> rfl
  rw [hnames] at hbound
  exact hbound

end Bodies

end ScriptEngine.Compile
