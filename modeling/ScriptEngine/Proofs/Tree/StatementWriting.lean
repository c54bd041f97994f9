import ScriptEngine.Proofs.Tree.ExpressionWriting
set_option autoImplicit false

/-!
# Compiling statements of program trees

Where the words of a statement are ahead, the compiler writes code of the statement
(`compiles`).  Between two statements the locals are those that the names in scope stand
for (`inside`), so that a block ends with as many `pop`s as it declares names.

The body of a branch or loop is compiled in a scope of its own and, as it stands in
braces, in a second one inside of it.  As a scope without names changes no code
(`Statement.IsCode.congr`), the tree has only one.
-/

namespace ScriptEngine.Compile

open State ScriptEngine.Tree

/-! ## Scopes -/

/-- The locals that names in scope stand for. -/
def localsOf : List (List String) → List Local
  | [] => [.callee]
  | scope :: outer =>
      scope.map (fun x => ⟨x, some (outer.length + 1), false⟩) ++ localsOf outer

/-- Between two declarations, with names in scope. -/
def inside (scopes : List (List String)) : Setting := ⟨localsOf scopes, scopes.length⟩

theorem map_name_localsOf (scopes : List (List String)) :
    (localsOf scopes).map Local.name = scopes.flatten ++ [""] := by
  induction scopes with
  | nil => rfl
  | cons scope outer ih =>
    rw [localsOf, List.map_append, ih, List.map_map, List.flatten_cons, List.append_assoc]
    congr 1
    exact List.map_id scope

theorem sees_inside (scopes : List (List String)) : Sees (inside scopes).locals scopes.flatten :=
  sees_of_names (map_name_localsOf scopes)

theorem depth_localsOf {scopes : List (List String)} {l : Local} (hl : l ∈ localsOf scopes) :
    ∃ d, l.depth = some d ∧ d ≤ scopes.length := by
  induction scopes with
  | nil =>
    obtain rfl := List.mem_singleton.mp hl
    exact ⟨0, rfl, Nat.le_refl 0⟩
  | cons scope outer ih =>
    rcases List.mem_append.mp hl with hl | hl
    · obtain ⟨x, -, rfl⟩ := List.mem_map.mp hl
      exact ⟨outer.length + 1, rfl, Nat.le_refl _⟩
    · obtain ⟨d, hd, hle⟩ := ih hl
      exact ⟨d, hd, Nat.le_succ_of_le hle⟩

section Scopes

variable {returns : Prop} {scope : List String} {scopes outer : List (List String)}
  {ws : List Word} {s : State}

theorem Faces.openScope (hs : Faces (inside scopes) ws s) :
    Faces (inside ([] :: scopes)) ws s.openScope where
  inOrder := (actions_openScope s).inOrder hs.inOrder hs.inOrder.quiet
  around := hs.around
  locals := hs.locals
  depth := congrArg (· + 1) hs.depth
  spelled := hs.spelled

/-- The locals of the innermost scope are given up. -/
theorem Faces.dropScope (hs : Faces (inside (scope :: outer)) ws s) (defects : List Defect) :
    Faces (inside outer) ws (s.withBuilder { s.builder with
      depth := outer.length, locals := localsOf outer } s.work defects) where
  inOrder := by
    have hroomy := hs.inOrder.roomy _ List.mem_cons_self
    have hroom : (localsOf outer).length ≤ byteRange := by
      have hle := hroomy.locals
      rw [hs.locals, inside, localsOf, List.length_append] at hle
      exact Nat.le_trans (Nat.le_add_left ..) hle
    have hknown : s.KnowsAll s.builder.chunk := hs.inOrder.known _ List.mem_cons_self
    refine ⟨hs.inOrder.toSane.withBuilder ?_ ?_ ?_ .., hs.inOrder.ended⟩
    exacts [⟨hroom, hroomy.captures, hroomy.constants, hroomy.lines⟩, rfl, hknown]
  around := hs.around
  locals := rfl
  depth := rfl
  spelled := hs.spelled

/-- A scope ends by taking away the values of its names. -/
theorem wrote_closeScope (hs : Faces (inside (scope :: outer)) ws s) :
    Wrote returns (inside outer) (.exactly (pops scope.length)) ws s s.closeScope := by
  obtain ⟨defects, heq⟩ := closeScope_eq (s := s) hs.depth hs.locals
    (fun l hl => by obtain ⟨x, -, rfl⟩ := List.mem_map.mp hl; rfl) (fun l hl => depth_localsOf hl)
  have hretire : (scope.map fun x => (⟨x, some (outer.length + 1), false⟩ : Local)).map
      Local.retirement = List.replicate scope.length .pop := by
    rw [List.map_map]
    exact List.map_const'
  have hdropped := hs.dropScope defects
  have hpops : ∀ op ∈ List.replicate scope.length Opcode.pop, op ≠ .return := by
    intro op hop
    rw [List.eq_of_mem_replicate hop]
    exact nofun
  have hwrote : Wrote returns _ _ _ _ _ := wrote_appendOps _ hpops hdropped
  rw [heq, ← List.foldl_map, hretire]
  have hbefore : Adds returns s (s.withBuilder { s.builder with
      depth := outer.length, locals := localsOf outer } s.work defects) [] := adds_nil rfl rfl
  have hchecked := hwrote.after hbefore
  rw [List.map_replicate] at hchecked
  exact hchecked.checkpoint

end Scopes

/-! ## Variables -/

/-- Behind the name of a variable that cannot be read yet. -/
def declaring (x : String) (scopes : List (List String)) : Setting :=
  ⟨⟨x, none, false⟩ :: localsOf scopes, scopes.length⟩

/-- The tokens of what gives a variable its first value. -/
def valueWords : Option Expression → List Word
  | none => []
  | some e => mark .equal :: e.words

theorem varWords_eq (x : String) (value : Option Expression) :
    varWords x value = mark .varWord :: ⟨.identifier, x⟩ :: valueWords value := by
  cases value <;> rfl

/-- The code that pushes the first value of a variable. -/
def valueCode (names : List String) (value : Option Expression) : CodeSort := fun pool first =>
  match value with
  | none => first = [Opcode.nil.toByte]
  | some e => e.IsCode pool names first

section Variables

variable {returns : Prop} {here : Setting} {names : List String} {scopes : List (List String)}
  {next : Word} {rest : List Word} {depth : Nat} {s : State}

theorem wrote_initializer (returns : Prop) (hsees : Sees here.locals names) (hnext : Calm next)
    {value : Option Expression} (hdepth : 2 * (valueWords value).length + 1 ≤ depth)
    (hs : Faces here (valueWords value ++ next :: rest) s)
    (hq : (initializer (expression depth .assignment) s).IsQuiet) :
    Wrote returns here (valueCode names value) (next :: rest) s
      (initializer (expression depth .assignment) s) := by
  unfold initializer at hq ⊢
  cases value with
  | none =>
    have hequal : s.sees .equal = false := by
      rw [hs.sees]
      exact beq_eq_false_iff_ne.mpr hnext.2
    rw [hequal, if_neg Bool.false_ne_true]
    exact wrote_appendOp hs nofun
  | some e =>
    have hequal : s.sees .equal = true := hs.sees _
    rw [hequal, if_pos rfl] at hq ⊢
    have hq₁ := ((formsAct depth).expression _ _).isQuiet hq
    have hlen : (valueWords (some e)).length = e.words.length + 1 := rfl
    exact ((opens e).passWrites hsees hnext (by omega) .assignment _ (hs.read nofun hq₁) hq).after
      (adds_read hs.inOrder hq₁)

/-- The name that is declared is read. -/
theorem Faces.readName (returns : Prop) {ws : List Word} {x : String} {what : Expected}
    (hs : Faces here (⟨.identifier, x⟩ :: ws) s) (hq : (s.declareName what).2.IsQuiet) :
    Faces here ws (s.require .identifier what) ∧
      Adds returns s (s.require .identifier what) [] ∧
      (s.require .identifier what).previous.lexeme = x := by
  have hq₁ := (actions_declareLocal _).isQuiet (isQuiet_of_declareName hq)
  obtain ⟨-, heq⟩ := require_eq hs.inOrder.toSane hq₁
  rw [heq] at hq₁ ⊢
  exact ⟨hs.read nofun hq₁, adds_read hs.inOrder hq₁, congrArg Word.text hs.previous⟩

/-- Outside all scopes, a name that is declared becomes a constant. -/
theorem Faces.declareGlobal (returns : Prop) {ws : List Word} {x : String} {what : Expected}
    (hs : Faces (inside []) (⟨.identifier, x⟩ :: ws) s) (hq : (s.declareName what).2.IsQuiet) :
    Faces (inside []) ws (s.declareName what).2 ∧ Adds returns s (s.declareName what).2 [] ∧
      ∀ pool, Includes pool (s.declareName what).2 →
        pool[((s.declareName what).1.toUInt8).toNat]? = some (.string x) := by
  obtain ⟨hname, hread, hlexeme⟩ := hs.readName returns hq
  have hlocal : (s.require .identifier what).declareLocal = s.require .identifier what := by
    rw [declareLocal_eq hname.inOrder.toSane (isQuiet_of_declareName hq)]
    exact if_pos hname.depth
  have heq : s.declareName what = (s.require .identifier what).poolConstant (.string x) := by
    unfold declareName
    rw [hlocal, ← hlexeme]
    exact if_pos hname.depth
  rw [heq] at hq ⊢
  obtain ⟨hpooled, hadds, hpool⟩ := hname.poolConstant returns (v := .string x) nofun hq
  exact ⟨hpooled, hread.trans hadds, hpool⟩

/-- A variable outside all scopes is global. -/
theorem wrote_globalVar (hnext : Calm next) {x : String} {value : Option Expression}
    (hdepth : 2 * (valueWords value).length + 1 ≤ depth)
    (hs : Faces (inside []) (⟨.identifier, x⟩ :: (valueWords value ++ next :: rest)) s)
    (hq : (s.varForm (expression depth .assignment)).IsQuiet) :
    Wrote returns (inside []) (fun pool => VarCode pool [] x value) (next :: rest) s
      (s.varForm (expression depth .assignment)) := by
  have hform : s.varForm (expression depth .assignment) = (initializer
      (expression depth .assignment) (s.declareName .variableName).2).bindName
        (s.declareName .variableName).1 := rfl
  rw [hform] at hq ⊢
  have hq₂ := (actions_bindName _ _).isQuiet hq
  have hq₁ := (edits_initializer ((formsAct depth).expression .assignment) _).isQuiet hq₂
  obtain ⟨hname, hdeclared, hpool⟩ := hs.declareGlobal returns hq₁
  obtain ⟨hvalue, first, hadds, hcode⟩ :=
    wrote_initializer returns (sees_inside []) hnext hdepth hname hq₂
  generalize initializer _ _ = t at *
  have hbind : t.bindName (s.declareName .variableName).1 =
      t.appendWith .defineGlobal (s.declareName .variableName).1 := if_pos hvalue.depth
  rw [hbind] at hq ⊢
  have hop : Opcode.defineGlobal ≠ .return := nofun
  have hbound : Adds returns t (t.appendWith .defineGlobal (s.declareName .variableName).1) _ :=
    adds_appendWith t hop _
  refine ⟨hvalue.appendWith _ _ hq, _, (hdeclared.trans hadds).trans hbound, fun pool hpast => ?_⟩
  have hpast := hpast.of_adds hbound
  exact ⟨first, _, hcode pool hpast, ⟨_, hpool pool (hpast.of_adds hadds), rfl⟩, rfl⟩

/-- In a scope, a name that is declared becomes a local. -/
theorem Faces.declareLocal (returns : Prop) (hscopes : scopes ≠ []) {ws : List Word}
    {x : String} {what : Expected} (hs : Faces (inside scopes) (⟨.identifier, x⟩ :: ws) s)
    (hq : (s.declareName what).2.IsQuiet) :
    Faces (declaring x scopes) ws (s.declareName what).2 ∧
      Adds returns s (s.declareName what).2 [] := by
  obtain ⟨hname, hread, hlexeme⟩ := hs.readName returns hq
  have hq₁ := isQuiet_of_declareName hq
  have hscope : (s.require .identifier what).builder.depth ≠ 0 := by
    rw [hname.depth]
    exact fun h => hscopes (List.eq_nil_of_length_eq_zero h)
  have hlocal : (s.require .identifier what).declareLocal =
      (s.require .identifier what).withLocal ⟨x, none, false⟩ := by
    rw [declareLocal_eq hname.inOrder.toSane hq₁, if_neg hscope, hlexeme]
  have heq : s.declareName what =
      (0, (s.require .identifier what).withLocal ⟨x, none, false⟩) := by
    unfold declareName
    rw [hlocal]
    exact if_neg hscope
  have hact := actions_declareLocal (s.require .identifier what)
  rw [hlocal] at hact hq₁
  rw [heq]
  exact ⟨⟨hact.inOrder hname.inOrder hq₁, hname.around, congrArg _ hname.locals, hname.depth,
    hname.spelled⟩, hread.trans (adds_nil rfl rfl)⟩

/-- A variable in a scope is local. -/
theorem wrote_localVar (hscopes : scopes ≠ []) (hnext : Calm next) {x : String}
    {value : Option Expression} (hdepth : 2 * (valueWords value).length + 1 ≤ depth)
    (hs : Faces (inside scopes) (⟨.identifier, x⟩ :: (valueWords value ++ next :: rest)) s)
    (hq : (s.varForm (expression depth .assignment)).IsQuiet) :
    Wrote returns (inside (bind [x] scopes)) (fun pool => VarCode pool scopes x value)
      (next :: rest) s (s.varForm (expression depth .assignment)) := by
  have hform : s.varForm (expression depth .assignment) = (initializer
      (expression depth .assignment) (s.declareName .variableName).2).bindName
        (s.declareName .variableName).1 := rfl
  rw [hform] at hq ⊢
  have hq₂ := (actions_bindName _ _).isQuiet hq
  have hq₁ := (edits_initializer ((formsAct depth).expression .assignment) _).isQuiet hq₂
  obtain ⟨hname, hdeclared⟩ := hs.declareLocal returns hscopes hq₁
  obtain ⟨hvalue, first, hadds, hcode⟩ :=
    wrote_initializer returns ((sees_inside scopes).push x) hnext hdepth hname hq₂
  generalize initializer _ _ = t at *
  have hdepth' : t.builder.depth ≠ 0 := by
    rw [hvalue.depth]
    exact fun h => hscopes (List.eq_nil_of_length_eq_zero h)
  have hact := actions_bindName t (s.declareName .variableName).1
  have hbind : t.bindName (s.declareName .variableName).1 = { t with
      builder := { t.builder with
        locals := ⟨x, some t.builder.depth, false⟩ :: localsOf scopes } } :=
    (if_neg hdepth').trans (makeReadable_eq hdepth' hvalue.locals)
  rw [hbind] at hact hq ⊢
  have hwritten := hdeclared.trans hadds
  have hnamed := hvalue.depth
  cases scopes with
  | nil => exact absurd rfl hscopes
  | cons scope outer =>
    refine ⟨⟨hact.inOrder hvalue.inOrder hq, hvalue.around, ?_, hnamed, hvalue.spelled⟩, first,
      ⟨hwritten.code, hwritten.pool, hwritten.last⟩, fun pool hpast => ?_⟩
    · show (⟨x, some t.builder.depth, false⟩ : Local) :: localsOf (scope :: outer) = _
      rw [hnamed]
      rfl
    · exact ⟨first, [], hcode pool hpast, rfl, (List.append_nil first).symm⟩

/-- A variable is declared. -/
theorem wrote_varForm (hnext : Calm next) {x : String} {value : Option Expression}
    (hdepth : 2 * (valueWords value).length + 1 ≤ depth)
    (hs : Faces (inside scopes) (⟨.identifier, x⟩ :: (valueWords value ++ next :: rest)) s)
    (hq : (s.varForm (expression depth .assignment)).IsQuiet) :
    Wrote returns (inside (bind [x] scopes)) (fun pool => VarCode pool scopes x value)
      (next :: rest) s (s.varForm (expression depth .assignment)) := by
  cases scopes with
  | nil => exact wrote_globalVar hnext hdepth hs hq
  | cons scope outer => exact wrote_localVar (List.cons_ne_nil scope outer) hnext hdepth hs hq

end Variables

/-! ## Declarations -/

/-- The word follows a statement. -/
def Follows (w : Word) : Prop := Calm w ∧ w.kind ≠ .elseWord

theorem follows_rightBrace : Follows (mark .rightBrace) := ⟨⟨rfl, nofun⟩, nofun⟩

/-- A statement begins with a word that follows the statement before it. -/
theorem exists_start (s : Statement) : ∃ (w : Word) (ws : List Word),
    s.words = w :: ws ∧ Follows w ∧ w.kind ≠ .rightBrace ∧ w.kind ≠ .endOfSource := by
  cases s with
  | var x value => cases value <;> exact ⟨_, _, rfl, ⟨⟨rfl, nofun⟩, nofun⟩, nofun, nofun⟩
  | branch c body alternative =>
    cases alternative <;> exact ⟨_, _, rfl, ⟨⟨rfl, nofun⟩, nofun⟩, nofun, nofun⟩
  | _ => exact ⟨_, _, rfl, ⟨⟨rfl, nofun⟩, nofun⟩, nofun, nofun⟩

theorem exists_follows (body : List Statement) {next : Word} (hnext : Follows next)
    (rest : List Word) : ∃ (w : Word) (ws : List Word),
      bodyWords body ++ next :: rest = w :: ws ∧ Follows w := by
  cases body with
  | nil => exact ⟨next, rest, rfl, hnext⟩
  | cons st body =>
    obtain ⟨w, ws, hwords, hw, -⟩ := exists_start st
    exact ⟨w, ws ++ bodyWords body ++ next :: rest, by rw [bodyWords, hwords]; rfl, hw⟩

/-- A statement is compiled to its code. -/
def Compiles (st : Statement) : Prop :=
  ∀ (scopes : List (List String)) (next : Word) (rest : List Word) (depth : Nat),
    Follows next → 2 * st.words.length + 1 ≤ depth →
    PassWrites (st.returns = true) (inside scopes) (inside (bind st.declares scopes))
      (st.words ++ next :: rest) (next :: rest) (fun pool => st.IsCode pool scopes)
      (declaration depth)

section Declarations

variable {returns : Prop} {here here' : Setting} {A : CodeSort} {names : List String}
  {scopes outer : List (List String)} {scope : List String} {next : Word} {ws rest : List Word}
  {depth : Nat} {s : State}

/-- A declaration writes what its form writes. -/
theorem passWrites_declaration (h : PassWrites returns here here' ws rest A
    (anyForm (expression depth .assignment) (declaration depth) (declarations depth))) :
    PassWrites returns here here' ws rest A (declaration (depth + 1)) := by
  intro s hs hq
  unfold declaration at hq ⊢
  dsimp only at hq ⊢
  have hq₁ := (actions_recover _).isQuiet hq
  have hbefore : Adds returns s s.tick.checkpoint [] := adds_nil rfl rfl
  have hform := (h _ hs.tick.checkpoint hq₁).after hbefore
  rw [recover_eq hform.faces.inOrder.toSane]
  exact hform.checkpoint

/-- Statements are written up to a closing brace. -/
theorem passWrites_declarations {body : List Statement} (h : ∀ st ∈ body, Compiles st)
    (hdepth : 2 * (bodyWords body).length + 2 ≤ depth) :
    PassWrites (bodyReturns body = true) (inside scopes) (inside (bind (declared body) scopes))
      (bodyWords body ++ mark .rightBrace :: rest) (mark .rightBrace :: rest)
      (fun pool => BodyCode pool scopes body) (declarations depth) := by
  induction body generalizing scopes depth with
  | nil =>
    intro s hs hq
    obtain ⟨depth, rfl⟩ : ∃ d, depth = d + 1 := ⟨depth - 1, by omega⟩
    have hend : s.sees .rightBrace = true := hs.sees _
    unfold declarations
    rw [hend, Bool.true_or, if_pos rfl, declared, bind_nil]
    exact (wrote_nil hs).tick
  | cons st body ih =>
    intro s hs hq
    obtain ⟨hst, hbody⟩ := List.forall_mem_cons.mp h
    obtain ⟨depth, rfl⟩ : ∃ d, depth = d + 1 := ⟨depth - 1, by omega⟩
    obtain ⟨w, ws, hwords, -, hbrace, hsource⟩ := exists_start st
    obtain ⟨next, later, hlater, hnext⟩ := exists_follows body follows_rightBrace rest
    rw [bodyWords, List.length_append] at hdepth
    rw [bodyWords, List.append_assoc] at hs
    have hpos : 0 < st.words.length := by simp [hwords]
    have hmore : (s.sees .rightBrace || s.sees .endOfSource) = false := by
      rw [hwords] at hs
      rw [hs.sees, hs.sees, beq_eq_false_iff_ne.mpr hbrace, beq_eq_false_iff_ne.mpr hsource]
      rfl
    unfold declarations at hq ⊢
    rw [hmore, if_neg Bool.false_ne_true] at hq ⊢
    have hq₁ := ((formsAct depth).declarations _).isQuiet hq
    have htick : Adds (bodyReturns (st :: body) = true) s s.tick [] := adds_nil rfl rfl
    rw [hlater] at hs
    have hfirst := hst _ _ _ _ hnext (by omega) s.tick hs.tick hq₁
    rw [← hlater] at hfirst
    have hrest := ih hbody (by omega) _ hfirst.faces hq
    rw [declared, bind_append]
    exact ((hfirst.mono fun h => by simp [bodyReturns, h]).after htick).append
      (hrest.mono fun h => by simp [bodyReturns, h])

/-- Statements in braces are written in a scope of their own. -/
theorem passWrites_block {body : List Statement} (h : ∀ st ∈ body, Compiles st)
    (hdepth : 2 * (bodyWords body).length + 2 ≤ depth) :
    PassWrites (bodyReturns body = true) (inside scopes) (inside scopes)
      (bodyWords body ++ mark .rightBrace :: rest) rest
      (fun pool => BlockCode pool scopes body) (inScope (blockForm (declarations depth))) := by
  intro s hs hq
  have hq₂ := (actions_closeScope _).isQuiet hq
  have hq₁ := (edits_require ..).isQuiet hq₂
  have hbody := passWrites_declarations h hdepth _ hs.openScope hq₁
  obtain ⟨hclosed, hread⟩ := hbody.faces.require nofun hq₂
  rw [Tree.bind] at hclosed
  have hopen : Adds (bodyReturns body = true) s s.openScope [] := adds_nil rfl rfl
  refine (((hbody.before hread hclosed).after hopen).append
    (wrote_closeScope hclosed)).imp ?_
  rintro pool bytes ⟨code, _, hcode, rfl, rfl⟩
  exact ⟨code, hcode, by rw [List.append_nil]⟩

/-- A statement of a certain form begins with a word of its own. -/
theorem passWrites_form {form pass : Pass} (w : Word)
    (hform : ∀ s : State, s.current.kind = w.kind → form s = pass s.read)
    (hw : w.kind ≠ .endOfSource) (hact : ∀ s, Actions s (pass s))
    (h : PassWrites returns here here' ws rest A pass) :
    PassWrites returns here here' (w :: ws) rest A form := by
  intro s hs hq
  rw [hform s hs.kind] at hq ⊢
  have hq₁ := (hact _).isQuiet hq
  exact (h _ (hs.read hw hq₁) hq).after (adds_read hs.inOrder hq₁)

theorem actions_block (depth : Nat) (s : State) :
    Actions s (s.inScope (blockForm (declarations depth))) :=
  actions_inScope (actions_blockForm (formsAct depth).declarations) s

theorem passWrites_blockDeclaration {body : List Statement} (h : ∀ st ∈ body, Compiles st)
    (hdepth : 2 * (bodyWords body).length + 3 ≤ depth) :
    PassWrites (bodyReturns body = true) (inside scopes) (inside scopes)
      (braces (bodyWords body) ++ rest) rest
      (fun pool => BlockCode pool scopes body) (declaration depth) := by
  obtain ⟨depth, rfl⟩ : ∃ d, depth = d + 1 := ⟨depth - 1, by omega⟩
  have hwords : braces (bodyWords body) ++ rest =
      mark .leftBrace :: (bodyWords body ++ mark .rightBrace :: rest) := by
    simp [braces]
  rw [hwords]
  exact passWrites_declaration (passWrites_form _
    (fun s hs => by unfold anyForm; rw [hs]; rfl) nofun (actions_block depth)
    (passWrites_block h (by omega)))

/-- The body of a branch or loop is in a scope without names and in a block. -/
theorem passWrites_body {body : List Statement} (h : ∀ st ∈ body, Compiles st)
    (hdepth : 2 * (bodyWords body).length + 3 ≤ depth) :
    PassWrites (bodyReturns body = true) (inside scopes) (inside scopes)
      (braces (bodyWords body) ++ rest) rest
      (fun pool => BlockCode pool scopes body) (inScope (declaration depth)) := by
  intro s hs hq
  have hq₁ := (actions_closeScope _).isQuiet hq
  have hblock := passWrites_blockDeclaration h hdepth _ hs.openScope hq₁
  have hopen : Adds (bodyReturns body = true) s s.openScope [] := adds_nil rfl rfl
  refine ((hblock.after hopen).append (wrote_closeScope hblock.faces)).imp ?_
  rintro pool bytes ⟨_, _, ⟨code, hcode, rfl⟩, rfl, rfl⟩
  have halike : Alike ([] :: [] :: scopes) ([] :: scopes) := ⟨rfl, rfl⟩
  rw [bodyCode_congr pool body halike] at hcode
  exact ⟨code, hcode, List.append_nil _⟩

/-! ## Branches -/

/-- The tokens of the alternative of a branch. -/
def alternativeWords : Option (List Statement) → List Word
  | none => []
  | some body => mark .elseWord :: braces (bodyWords body)

/-- The code of the alternative of a branch. -/
def alternativeCode (scopes : List (List String)) : Option (List Statement) → CodeSort
  | none => .exactly []
  | some body => fun pool => BlockCode pool scopes body

theorem wrote_alternative (hnext : Follows next) {other : Option (List Statement)}
    (h : ∀ body ∈ other, ∀ st ∈ body, Compiles st)
    (hdepth : 2 * (alternativeWords other).length ≤ depth)
    (hs : Faces (inside scopes) (alternativeWords other ++ next :: rest) s)
    (hq : (s.alternative (declaration depth)).IsQuiet) :
    ∃ returns, Wrote returns (inside scopes) (alternativeCode scopes other) (next :: rest)
      s (s.alternative (declaration depth)) := by
  unfold alternative at hq ⊢
  cases other with
  | none =>
    have helse : s.sees .elseWord = false := by
      rw [hs.sees]
      exact beq_eq_false_iff_ne.mpr hnext.2
    rw [helse, if_neg Bool.false_ne_true]
    exact ⟨False, wrote_nil hs⟩
  | some body =>
    have helse : s.sees .elseWord = true := hs.sees _
    rw [helse, if_pos rfl] at hq ⊢
    have hq₁ := (actions_inScope (formsAct depth).declaration _).isQuiet hq
    have hlen : (alternativeWords (some body)).length = (bodyWords body).length + 3 := by
      simp [alternativeWords, braces]
    exact ⟨_, (passWrites_body (h body rfl) (by omega) _ (hs.read nofun hq₁) hq).after
      (adds_read hs.inOrder hq₁)⟩

/-- A condition is written up to the opening brace of what it decides on. -/
theorem wrote_condition (returns : Prop) (hsees : Sees here.locals names) {c : Expression}
    {body : List Statement} (hdepth : 2 * c.words.length + 1 ≤ depth)
    (hs : Faces here (c.words ++ (braces (bodyWords body) ++ rest)) s)
    (hq : (expression depth .assignment s).IsQuiet) :
    Wrote returns here (fun pool => c.IsCode pool names) (braces (bodyWords body) ++ rest) s
      (expression depth .assignment s) :=
  (opens c).passWrites hsees (⟨rfl, nofun⟩ : Calm (mark .leftBrace)) hdepth .assignment s hs hq

theorem passWrites_ifForm {c : Expression} {body : List Statement}
    {other : Option (List Statement)} (hnext : Follows next)
    (hbody : ∀ st ∈ body, Compiles st) (hother : ∀ body ∈ other, ∀ st ∈ body, Compiles st)
    (hdepth : 2 * (c.words ++ (braces (bodyWords body) ++ alternativeWords other)).length ≤ depth) :
    PassWrites returns (inside scopes) (inside scopes)
      (c.words ++ (braces (bodyWords body) ++ (alternativeWords other ++ next :: rest)))
      (next :: rest) (fun pool => (Statement.branch c body other).IsCode pool scopes)
      (ifForm (expression depth .assignment) (declaration depth)) := by
  intro s hs hq
  simp only [braces, List.length_append, List.length_cons, List.length_nil] at hdepth
  have hd := (formsAct depth).declaration
  have hform : ifForm (expression depth .assignment) (declaration depth) s =
      (((((((expression depth .assignment s).branch.inScope (declaration depth)).openJump
        .jump).2.landJump ((expression depth .assignment s).openJump .jumpIfFalse).1).appendOp
          .pop).alternative (declaration depth)).landJump
            (((expression depth .assignment s).branch.inScope (declaration depth)).openJump
              .jump).1) := rfl
  rw [hform] at hq ⊢
  have hq₅ := (Edit.landJump _ _).isQuiet hq
  have hq₄ := (actions_alternative hd _).isQuiet hq₅
  have hq₃ := (edits_appendOp ..).isQuiet hq₄
  have hq₂ := (Edit.openJump _ .jump).isQuiet ((Edit.landJump _ _).isQuiet hq₃)
  have hq₁ := (edits_branch _).isQuiet ((actions_inScope hd _).isQuiet hq₂)
  have hcond := wrote_condition returns (sees_inside scopes) (by omega) hs hq₁
  generalize expression depth .assignment s = t at *
  have hpop : Wrote (bodyReturns body = true) _ _ _ (t.openJump .jumpIfFalse).2 t.branch :=
    wrote_appendOp (hcond.faces.openJump .jumpIfFalse) nofun
  have hthen := hpop.append (passWrites_body hbody (by omega) _ hpop.faces hq₂)
  have hlanded := (hthen.faces.openJump .jump).landJump hq₃
  obtain ⟨returns', halternative⟩ := wrote_alternative hnext hother (by omega)
    (hlanded.appendOp .pop) hq₅
  have hpop' : Wrote returns' _ _ _ _ (State.appendOp _ .pop) := wrote_appendOp hlanded nofun
  refine (hcond.append (wrote_branches hthen hq₃ (hpop'.append halternative) hq)).imp ?_
  rintro pool bytes ⟨condition, _, hcondition, ⟨_, _, past, out, ⟨_, first, rfl, hfirst, rfl⟩,
    ⟨_, second, rfl, hsecond, rfl⟩, hover, hout, rfl⟩, rfl⟩
  simp only [List.length_append, List.length_cons, List.length_nil] at hover hout
  cases other with
  | none =>
    obtain rfl : second = [] := hsecond
    exact ⟨condition, first, past, out, hcondition, hfirst, by omega, by simpa using hout, by simp⟩
  | some other =>
    exact ⟨condition, first, second, past, out, hcondition, hfirst, hsecond, by omega, by omega,
      by simp⟩

/-! ## Loops -/

/-- The code of the head of a loop, as long as the way out of the loop is open. -/
def HeadOpen (names : List String) (s : State) : Option Expression → Option Nat → CodeSort
  | none, exit => fun _ head => exit = none ∧ head = []
  | some c, exit => fun pool head => ∃ condition, c.IsCode pool names condition ∧
      exit = some (s.codeSize + condition.length + 1) ∧
      head = condition ++ [Opcode.jumpIfFalse.toByte, 0xff, Opcode.pop.toByte]

/-- The way out of a loop is landed. -/
def State.leave (s : State) : Option Nat → State
  | some exitJump => (s.landJump exitJump).appendOp .pop
  | none => s

/-- The code of a loop of which the rest behind its head is known. -/
def headedCode (names : List String) (c : Option Expression) (n : Nat) (A : CodeSort) :
    CodeSort := fun pool bytes => ∃ head later, HeadCode pool names later.length c head ∧
  head.length = n ∧ A pool later ∧ bytes = head ++ later ++ leaveCode c

/-- A condition leaves the loop if it fails. -/
theorem wrote_branch {c : Expression} {t : State}
    (h : Wrote returns here (fun pool => c.IsCode pool names) ws s t) :
    Wrote returns here (HeadOpen names s (some c) (some (t.openJump .jumpIfFalse).1)) ws s
      t.branch := by
  obtain ⟨condition, hadds, hcode⟩ := h.code
  have hjump : Adds returns t t.branch _ :=
    (adds_openJump t .jumpIfFalse nofun).trans (adds_appendOp _ nofun)
  refine ⟨(h.faces.openJump .jumpIfFalse).appendOp .pop, _, hadds.trans hjump, fun pool hpool =>
    ⟨condition, hcode pool (hpool.of_adds hjump), ?_, rfl⟩⟩
  rw [← hadds.codeSize]
  rfl

/-- The end of a loop is where its condition leaves to. -/
theorem wrote_leave {returns' returns'' : Prop} {c : Option Expression} {exit : Option Nat}
    {t u : State} (hhead : Wrote returns here (HeadOpen names s c exit) ws s t)
    (hlater : Wrote returns' here' A rest t u) (hlast : u.builder.lastOp ≠ some .return)
    (hq : (u.leave exit).IsQuiet) :
    Wrote returns'' here' (headedCode names c (t.codeSize - s.codeSize) A) rest s
      (u.leave exit) := by
  obtain ⟨head, hadds, hhead⟩ := hhead.code
  obtain ⟨later, hadds', hcode⟩ := hlater.code
  have hsize : head.length = t.codeSize - s.codeSize := by
    rw [hadds.codeSize]
    omega
  cases c with
  | none =>
    obtain ⟨rfl, rfl⟩ := hhead _ (includes_refl t)
    have hwritten : Adds returns'' s u ([] ++ later) :=
      ((hadds.mono fun _ => trivial).trans (hadds'.mono fun _ => trivial)).reset hlast
    exact ⟨hlater.faces, _, hwritten, fun pool hpool =>
      ⟨[], later, rfl, hsize, hcode pool hpool, by simp [leaveCode]⟩⟩
  | some c =>
    obtain ⟨condition, -, rfl, rfl⟩ := hhead _ (includes_refl t)
    have hwritten : Adds True s u (condition ++ [Opcode.jumpIfFalse.toByte, 0xff] ++
        (Opcode.pop.toByte :: later)) := by
      have h := (hadds.mono fun _ => trivial).trans (hadds'.mono fun _ => trivial)
      simpa using h
    have hq₁ := (edits_appendOp ..).isQuiet hq
    obtain ⟨d, hd, hlanded⟩ : ∃ d : UInt8, _ ∧ Adds returns'' _ _ _ :=
      adds_landJump hwritten hlater.faces.inOrder rfl hq₁
    have hpop : Adds returns'' (u.landJump (s.codeSize + condition.length + 1))
        (u.leave (some (s.codeSize + condition.length + 1))) _ := adds_appendOp _ nofun
    refine ⟨(hlater.faces.landJump hq₁).appendOp .pop, _, hlanded.trans hpop, fun pool hpool => ?_⟩
    have hpool := (hpool.of_adds hpop).of_landJump hlater.faces.inOrder hq₁
    obtain ⟨condition', hcondition, -, heq⟩ := hhead pool (hpool.of_adds hadds')
    obtain rfl := List.append_cancel_right heq
    refine ⟨_, later, ⟨condition, d, hcondition, hd, rfl⟩, ?_, hcode pool hpool,
      by simp [leaveCode]⟩
    rw [← hsize]
    simp

/-- Code with a jump back behind it. -/
theorem wrote_loopBack {t : State} {start : Nat} (h : Wrote returns here A ws s t)
    (hq : (t.loopBack start).IsQuiet) :
    Wrote returns here (fun pool bytes => ∃ a, ∃ d : UInt8, A pool a ∧
      d.toNat = s.codeSize + a.length + 2 - start ∧ bytes = a ++ [Opcode.loop.toByte, d]) ws s
        (t.loopBack start) ∧ (t.loopBack start).builder.lastOp ≠ some .return := by
  obtain ⟨a, hadds, hcode⟩ := h.code
  obtain ⟨d, hd, hback, hlast⟩ := adds_loopBack returns h.faces.inOrder hq
  rw [hadds.codeSize] at hd
  refine ⟨⟨h.faces.loopBack hq, _, hadds.trans hback, fun pool hpool =>
    ⟨a, d, hcode pool (hpool.of_adds hback), hd, rfl⟩⟩, ?_⟩
  rw [hlast]
  exact nofun

/-- The code behind the head of a loop, which is `n` bytes long, up to the jump back. -/
def roundCode (names : List String) (n : Nat) (increment : Option Expression)
    (Body : CodeSort) : CodeSort := fun pool later =>
  ∃ step body, ∃ d : UInt8, StepCode pool names n increment step ∧ Body pool body ∧
    d.toNat = backDistance n step.length body.length increment ∧
    later = step ++ body ++ [Opcode.loop.toByte, d]

theorem loopCode_of_headed {c increment : Option Expression} {n : Nat} {Body : CodeSort}
    {pool : Array Value} {bytes : List UInt8}
    (h : headedCode names c n (roundCode names n increment Body) pool bytes) :
    ∃ body, Body pool body ∧ LoopCode pool names c increment body bytes := by
  obtain ⟨head, _, hhead, rfl, ⟨step, body, d, hstep, hbody, hd, rfl⟩, rfl⟩ := h
  refine ⟨body, hbody, head, step, d, ?_, hstep, hd, by simp⟩
  simpa [Nat.add_assoc] using hhead

/-- A loop that is repeated while its condition holds. -/
theorem passWrites_whileForm {c : Expression} {body : List Statement}
    (hbody : ∀ st ∈ body, Compiles st)
    (hdepth : 2 * (c.words ++ braces (bodyWords body)).length ≤ depth) :
    PassWrites returns (inside scopes) (inside scopes)
      (c.words ++ (braces (bodyWords body) ++ rest)) rest
      (fun pool => (Statement.loop c body).IsCode pool scopes)
      (whileForm (expression depth .assignment) (declaration depth)) := by
  intro s hs hq
  simp only [braces, List.length_append, List.length_cons, List.length_nil] at hdepth
  have hd := (formsAct depth).declaration
  have hform : whileForm (expression depth .assignment) (declaration depth) s =
      (((expression depth .assignment s).branch.inScope (declaration depth)).loopBack
        s.codeSize).leave (some ((expression depth .assignment s).openJump .jumpIfFalse).1) := rfl
  rw [hform] at hq ⊢
  have hq₃ := (Edit.landJump _ _).isQuiet ((edits_appendOp ..).isQuiet hq)
  have hq₂ := (Edit.loopBack _ _).isQuiet hq₃
  have hq₁ := (edits_branch _).isQuiet ((actions_inScope hd _).isQuiet hq₂)
  have hcond := wrote_condition returns (sees_inside scopes) (by omega) hs hq₁
  generalize expression depth .assignment s = t at *
  have hhead := wrote_branch hcond
  obtain ⟨hround, hlast⟩ :=
    wrote_loopBack (passWrites_body hbody (by omega) _ hhead.faces hq₂) hq₃
  obtain ⟨head, hadds, -⟩ := hhead.code
  have hsize := hadds.codeSize
  refine (wrote_leave hhead (hround.imp ?_) hlast hq).imp fun pool bytes => loopCode_of_headed
  rintro pool bytes ⟨a, d, ha, hd, rfl⟩
  refine ⟨[], a, d, rfl, ha, ?_, rfl⟩
  show d.toNat = t.branch.codeSize - s.codeSize + a.length + 2
  omega

/-! ## Counted loops -/

/-- The first word of an expression does not separate the parts of a loop. -/
theorem sees_of_expression {e : Expression} (hs : Faces here (e.words ++ ws) s) {k : TokenKind}
    (hk : k.opening? = none) : s.sees k = false := by
  obtain ⟨w, later, opening, hwords, hopening⟩ := exists_opening e
  rw [hwords] at hs
  rw [hs.sees, beq_eq_false_iff_ne]
  intro hkind
  rw [hkind, hk] at hopening
  cases hopening

/-- The condition of a counted loop is written with the jump out of the loop. -/
theorem wrote_loopCondition (hsees : Sees here.locals names) {c : Option Expression}
    (hdepth : 2 * (optionWords c).length + 1 ≤ depth)
    (hs : Faces here (optionWords c ++ mark .comma :: ws) s)
    (hq : (s.loopCondition (expression depth .assignment)).2.IsQuiet) :
    Wrote returns here (HeadOpen names s c (s.loopCondition (expression depth .assignment)).1) ws
      s (s.loopCondition (expression depth .assignment)).2 := by
  unfold loopCondition at hq ⊢
  cases c with
  | none =>
    have hcomma : s.sees .comma = true := hs.sees _
    rw [hcomma, if_pos rfl] at hq ⊢
    exact ⟨hs.read nofun hq, [], adds_read hs.inOrder hq, fun _ _ => ⟨rfl, rfl⟩⟩
  | some c =>
    rw [sees_of_expression hs rfl, if_neg Bool.false_ne_true] at hq ⊢
    have hq₂ := (edits_branch _).isQuiet hq
    have hq₁ := (edits_require ..).isQuiet hq₂
    have hcond : Wrote returns _ _ _ s (expression depth .assignment s) :=
      (opens c).passWrites hsees calm_comma hdepth .assignment s hs hq₁
    obtain ⟨hread, hadds⟩ := hcond.faces.require nofun hq₂
    exact wrote_branch (hcond.before hadds hread)

/-- The increment of a counted loop is written before the body. -/
theorem wrote_loopIncrement (returns : Prop) (hsees : Sees here.locals names)
    {increment : Option Expression}
    {body : List Statement} {n start : Nat} (hstart : s.codeSize = start + n)
    (hdepth : 2 * (optionWords increment).length + 1 ≤ depth)
    (hs : Faces here (optionWords increment ++ (braces (bodyWords body) ++ rest)) s)
    (hq : (s.loopIncrement (expression depth .assignment) start).2.IsQuiet) :
    Wrote returns here (fun pool => StepCode pool names n increment)
        (braces (bodyWords body) ++ rest) s
        (s.loopIncrement (expression depth .assignment) start).2 ∧
      (s.loopIncrement (expression depth .assignment) start).1 =
        match increment with
        | none => start
        | some _ => s.codeSize + 2 := by
  cases increment with
  | none =>
    have hcomma : s.sees .comma = false := hs.sees _
    have hbrace : s.sees .leftBrace = true := hs.sees _
    unfold loopIncrement
    rw [hcomma, if_neg Bool.false_ne_true, hbrace, if_pos rfl]
    exact ⟨wrote_nil hs, rfl⟩
  | some e =>
    have hform : s.loopIncrement (expression depth .assignment) start =
        ((s.openJump .jump).2.codeSize,
          (((expression depth .assignment (s.openJump .jump).2).appendOp .pop).loopBack
            start).landJump (s.openJump .jump).1) := by
      unfold loopIncrement
      rw [sees_of_expression hs rfl, if_neg Bool.false_ne_true, sees_of_expression hs rfl,
        if_neg Bool.false_ne_true]
    rw [hform] at hq ⊢
    have hq₃ := (Edit.landJump _ _).isQuiet hq
    have hq₂ := (Edit.loopBack _ _).isQuiet hq₃
    have hq₁ := (edits_appendOp ..).isQuiet hq₂
    have hvalue := wrote_condition returns hsees hdepth (hs.openJump .jump) hq₁
    generalize expression depth .assignment (s.openJump .jump).2 = t at *
    have hpop : Wrote returns here _ _ t (t.appendOp .pop) := wrote_appendOp hvalue.faces nofun
    obtain ⟨hloop, -⟩ := wrote_loopBack (hvalue.append hpop) hq₃
    have hjump : Opcode.jump ≠ .return := nofun
    have hopens : Adds returns s (s.openJump .jump).2 _ := adds_openJump s .jump hjump
    have hopen : (s.openJump .jump).2.codeSize = s.codeSize + 2 := hopens.codeSize
    refine ⟨(wrote_jump hjump hloop hq).imp ?_, hopen⟩
    rintro pool bytes ⟨_, past, ⟨_, back, ⟨value, _, hcode, rfl, rfl⟩, hback, rfl⟩, hover, rfl⟩
    simp only [List.length_append, List.length_cons, List.length_nil] at hback hover
    exact ⟨value, past, back, hcode, by omega, by omega, by simp⟩

theorem rounds_eq (expression declaration : Pass) (s : State) :
    s.rounds expression declaration =
      (s.turns expression declaration).leave (s.loopCondition expression).1 := by
  unfold rounds
  cases (s.loopCondition expression).1 <;> rfl

/-- A counted loop is written behind its initializer. -/
theorem passWrites_rounds {c increment : Option Expression} {body : List Statement}
    (hbody : ∀ st ∈ body, Compiles st)
    (hdepth : 2 * (optionWords c ++ (optionWords increment ++ braces (bodyWords body))).length
      ≤ depth) :
    PassWrites returns (inside scopes) (inside scopes)
      (optionWords c ++ mark .comma ::
        (optionWords increment ++ (braces (bodyWords body) ++ rest))) rest
      (fun pool bytes => ∃ code, BlockCode pool scopes body code ∧
        LoopCode pool scopes.flatten c increment code bytes)
      (rounds (expression depth .assignment) (declaration depth)) := by
  intro s hs hq
  simp only [braces, List.length_append, List.length_cons, List.length_nil] at hdepth
  have he := (formsAct depth).expression .assignment
  have hd := (formsAct depth).declaration
  rw [rounds_eq] at hq ⊢
  have hq₃ : (s.turns (expression depth .assignment) (declaration depth)).IsQuiet := by
    cases hexit : (s.loopCondition (expression depth .assignment)).1 with
    | none =>
      rw [hexit] at hq
      exact hq
    | some exitJump =>
      rw [hexit] at hq
      exact (Edit.landJump _ _).isQuiet ((edits_appendOp ..).isQuiet hq)
  have hq₂ := (Edit.loopBack _ _).isQuiet hq₃
  have hq₁ := (actions_inScope hd _).isQuiet hq₂
  have hq₀ := (edits_loopIncrement he _ _).isQuiet hq₁
  have hhead : Wrote returns _ _ _ s _ :=
    wrote_loopCondition (sees_inside scopes) (by omega) hs hq₀
  obtain ⟨head, hadds, -⟩ := hhead.code
  have hsize := hadds.codeSize
  obtain ⟨hstep, hstart⟩ := wrote_loopIncrement (bodyReturns body = true)
    (sees_inside scopes) hsize (by omega) hhead.faces hq₁
  obtain ⟨hround, hlast⟩ := wrote_loopBack
    (hstep.append (passWrites_body hbody (by omega) _ hstep.faces hq₂)) hq₃
  refine (wrote_leave hhead (hround.imp ?_) hlast hq).imp fun pool bytes => loopCode_of_headed
  rintro pool bytes ⟨_, d, ⟨step, code, hcode, hblock, rfl⟩, hd, rfl⟩
  have hn : (s.loopCondition (expression depth .assignment)).2.codeSize - s.codeSize =
      head.length := by omega
  rw [hn]
  refine ⟨step, code, d, hcode, hblock, ?_, rfl⟩
  rw [hstart, List.length_append] at hd
  cases increment with
  | none =>
    obtain rfl : step = [] := hcode
    show d.toNat = head.length + code.length + 2
    simp only [List.length_nil] at hd
    omega
  | some e =>
    show d.toNat = step.length + code.length
    dsimp only at hd
    omega

/-- An expression is written for what it does. -/
theorem passWrites_expressionForm (hnext : Calm next) {e : Expression}
    (hdepth : 2 * e.words.length + 1 ≤ depth) :
    PassWrites returns (inside scopes) (inside scopes) (e.words ++ next :: rest) (next :: rest)
      (fun pool => (Statement.expression e).IsCode pool scopes)
      (expressionForm (expression depth .assignment)) := by
  intro s hs hq
  have hq₁ := (edits_appendOp ..).isQuiet hq
  have hvalue : Wrote returns _ _ _ s (expression depth .assignment s) :=
    (opens e).passWrites (sees_inside scopes) hnext hdepth .assignment s hs hq₁
  have hpop : Wrote returns _ _ _ _ (State.appendOp _ .pop) := wrote_appendOp hvalue.faces nofun
  refine (hvalue.append hpop).imp ?_
  rintro pool bytes ⟨value, _, hvalue, rfl, rfl⟩
  exact ⟨value, hvalue, rfl⟩

/-- What a counted loop does first is written. -/
theorem passWrites_loopInitializer {first : Initializer}
    (hdepth : 2 * first.words.length + 1 ≤ depth) :
    PassWrites returns (inside scopes) (inside (bind first.declares scopes))
      (first.words ++ mark .comma :: ws) ws (fun pool => first.IsCode pool scopes)
      (loopInitializer (expression depth .assignment)) := by
  intro s hs hq
  unfold loopInitializer at hq ⊢
  cases first with
  | none =>
    have hcomma : s.sees .comma = true := hs.sees _
    rw [hcomma, if_pos rfl] at hq ⊢
    have hscopes : bind Initializer.none.declares scopes = scopes := bind_nil scopes
    rw [hscopes]
    exact ⟨hs.read nofun hq, [], adds_read hs.inOrder hq, fun _ _ => rfl⟩
  | var x value =>
    rw [Initializer.words, varWords_eq] at hs hdepth
    rw [List.cons_append, List.cons_append] at hs
    have hcomma : s.sees .comma = false := hs.sees _
    have hvar : s.sees .varWord = true := hs.sees _
    rw [hcomma, if_neg Bool.false_ne_true, hvar, if_pos rfl] at hq ⊢
    simp only [List.length_cons] at hdepth
    have hq₂ := (Action.checkpoint _).isQuiet ((edits_require ..).isQuiet hq)
    have hq₁ := (actions_varForm ((formsAct depth).expression .assignment) _).isQuiet hq₂
    have hdeclared : Wrote returns _ _ _ s.read _ :=
      wrote_varForm calm_comma (by omega) (hs.read nofun hq₁) hq₂
    have hmarked := (hdeclared.after (adds_read hs.inOrder hq₁)).checkpoint
    obtain ⟨hread, hadds⟩ := hmarked.faces.require nofun hq
    exact hmarked.before hadds hread
  | expression e =>
    have hvar : s.sees .varWord = false := sees_of_expression hs rfl
    rw [sees_of_expression hs rfl, if_neg Bool.false_ne_true, hvar, if_neg Bool.false_ne_true]
      at hq ⊢
    have hdone : Wrote returns _ _ _ s _ :=
      passWrites_expressionForm calm_comma hdepth s hs ((edits_require ..).isQuiet hq)
    obtain ⟨hread, hadds⟩ := hdone.faces.require nofun hq
    have hscopes : bind (Initializer.expression e).declares scopes = scopes := bind_nil scopes
    rw [hscopes]
    exact hdone.before hadds hread

/-- A counted loop is written in a scope of its own. -/
theorem passWrites_forForm {first : Initializer} {c increment : Option Expression}
    {body : List Statement} (hbody : ∀ st ∈ body, Compiles st)
    (hdepth : 2 * (first.words ++ (optionWords c ++ (optionWords increment ++
      braces (bodyWords body)))).length + 1 ≤ depth) :
    PassWrites returns (inside scopes) (inside scopes)
      (first.words ++ mark .comma :: (optionWords c ++ mark .comma ::
        (optionWords increment ++ (braces (bodyWords body) ++ rest)))) rest
      (fun pool => (Statement.count first c increment body).IsCode pool scopes)
      (forForm (expression depth .assignment) (declaration depth)) := by
  intro s hs hq
  rw [List.length_append] at hdepth
  have hq₂ := (actions_closeScope _).isQuiet hq
  rw [countedLoop_eq] at hq₂
  have hq₁ := (actions_rounds ((formsAct depth).expression .assignment)
    (formsAct depth).declaration _).isQuiet hq₂
  have hopen : Adds returns s s.openScope [] := adds_nil rfl rfl
  have hstart : Wrote returns _ _ _ s _ :=
    (passWrites_loopInitializer (by omega) _ hs.openScope hq₁).after hopen
  have hloop : Wrote returns _ _ _ _ _ :=
    passWrites_rounds hbody (by omega) _ hstart.faces hq₂
  refine ((hstart.append hloop).append (wrote_closeScope hloop.faces)).imp ?_
  rintro pool bytes ⟨_, _, ⟨start, loop, hstart, ⟨code, hcode, hloop⟩, rfl⟩, rfl, rfl⟩
  refine ⟨start, code, loop, hstart, hcode, hloop, ?_⟩
  rw [List.append_nil]

/-- A result is written. -/
theorem passWrites_returnForm (hnext : Calm next) {e : Expression}
    (hdepth : 2 * e.words.length + 1 ≤ depth) :
    PassWrites True (inside scopes) (inside scopes) (e.words ++ next :: rest) (next :: rest)
      (fun pool => (Statement.result e).IsCode pool scopes)
      (returnForm (expression depth .assignment)) := by
  intro s hs hq
  unfold returnForm at hq ⊢
  rw [sees_of_expression hs rfl, sees_of_expression hs rfl, Bool.or_self,
    if_neg Bool.false_ne_true] at hq ⊢
  have hvalue : Wrote True _ _ _ s (expression depth .assignment s) :=
    (opens e).passWrites (sees_inside scopes) hnext hdepth .assignment s hs
      ((edits_appendOp ..).isQuiet hq)
  have hreturn : Wrote True _ _ _ _ (State.appendOp _ .return) :=
    wrote_appendOp hvalue.faces fun _ => trivial
  refine (hvalue.append hreturn).imp ?_
  rintro pool bytes ⟨value, _, hvalue, rfl, rfl⟩
  exact ⟨value, hvalue, rfl⟩

theorem anyForm_of_opening {expression declaration declarations : Pass} {opening : Opening}
    (h : s.current.kind.opening? = some opening) :
    s.anyForm expression declaration declarations = s.expressionForm expression := by
  unfold anyForm
  split <;> first
    | next hkind =>
      rw [hkind] at h
      cases h
    | rfl

/-- An expression statement is written in braces of its own. -/
theorem passWrites_expressionBlock {e : Expression} (hdepth : 2 * e.words.length + 4 ≤ depth) :
    PassWrites returns (inside scopes) (inside scopes) (e.words ++ mark .rightBrace :: rest) rest
      (fun pool => (Statement.expression e).IsCode pool scopes)
      (inScope (blockForm (declarations depth))) := by
  intro s hs hq
  obtain ⟨depth, rfl⟩ : ∃ d, depth = d + 3 := ⟨depth - 3, by omega⟩
  have hq₃ := (actions_closeScope _).isQuiet hq
  have hq₂ := (edits_require ..).isQuiet hq₃
  have hend : ∀ s : State, Faces (inside ([] :: scopes)) (mark .rightBrace :: rest) s →
      declarations (depth + 2) s = s.tick := by
    intro s hs
    have hbrace : s.sees .rightBrace = true := hs.sees _
    unfold declarations
    rw [hbrace, Bool.true_or, if_pos rfl]
  have hdeclaration : PassWrites returns (inside ([] :: scopes)) (inside ([] :: scopes))
      (e.words ++ mark .rightBrace :: rest) (mark .rightBrace :: rest)
      (fun pool => (Statement.expression e).IsCode pool ([] :: scopes))
      (declaration (depth + 2)) := by
    refine passWrites_declaration fun s hs hq => ?_
    obtain ⟨w, ws, opening, hwords, hopening⟩ := exists_opening e
    have hcurrent : s.current.kind.opening? = some opening := by
      rw [hwords] at hs
      rw [hs.kind, hopening]
    rw [anyForm_of_opening hcurrent] at hq ⊢
    exact passWrites_expressionForm follows_rightBrace.1 (by omega) s hs hq
  have hmore : declarations (depth + 3) s.openScope =
      declarations (depth + 2) (declaration (depth + 2) s.openScope.tick) := by
    rw [declarations, sees_of_expression hs.openScope rfl, sees_of_expression hs.openScope rfl]
    rfl
  have hblock : (s.openScope.blockForm (declarations (depth + 3))) =
      (declarations (depth + 2) (declaration (depth + 2) s.openScope.tick)).require .rightBrace
        .closingOfBlock := by
    unfold blockForm
    rw [hmore]
  unfold inScope at hq ⊢
  rw [hblock] at hq hq₃ ⊢
  rw [hmore] at hq₂
  have hq₁ := ((formsAct (depth + 2)).declarations _).isQuiet hq₂
  have hbefore : Adds returns s s.openScope.tick [] := adds_nil rfl rfl
  have hvalue := (hdeclaration _ hs.openScope.tick hq₁).after hbefore
  rw [hend _ hvalue.faces] at hq hq₂ hq₃ ⊢
  obtain ⟨hclosed, hread⟩ := hvalue.tick.faces.require nofun hq₃
  have hclose : Wrote returns _ _ _ _ _ := wrote_closeScope hclosed
  refine ((hvalue.tick.before hread hclosed).append hclose).imp ?_
  rintro pool bytes ⟨_, _, ⟨value, hvalue, rfl⟩, rfl, rfl⟩
  exact ⟨value, hvalue, List.append_nil _⟩

end Declarations

/-! ## All statements -/

/-- A statement that declares nothing is compiled if its form is written. -/
theorem compiles_of_form {st : Statement} (w : Word) {ws : List Word} (pass : Nat → Pass)
    (hwords : st.words = w :: ws) (hdeclares : st.declares = []) (hw : w.kind ≠ .endOfSource)
    (hform : ∀ (depth : Nat) (s : State), s.current.kind = w.kind →
      s.anyForm (expression depth .assignment) (declaration depth) (declarations depth) =
        pass depth s.read)
    (hact : ∀ depth s, Actions s (pass depth s))
    (h : ∀ (scopes : List (List String)) (next : Word) (rest : List Word) (depth : Nat),
      Follows next → 2 * ws.length + 2 ≤ depth →
      PassWrites (st.returns = true) (inside scopes) (inside scopes) (ws ++ next :: rest)
        (next :: rest) (fun pool => st.IsCode pool scopes) (pass depth)) : Compiles st := by
  intro scopes next rest depth hnext hdepth
  rw [hwords, List.length_cons] at hdepth
  obtain ⟨depth, rfl⟩ : ∃ d, depth = d + 1 := ⟨depth - 1, by omega⟩
  rw [hdeclares, bind_nil, hwords]
  exact passWrites_declaration (passWrites_form w (hform depth) hw (hact depth)
    (h scopes next rest depth hnext (by omega)))

/-- A branch is compiled if its bodies are. -/
theorem compiles_branch (c : Expression) {body : List Statement} {other : Option (List Statement)}
    (hbody : ∀ st ∈ body, Compiles st) (hother : ∀ body ∈ other, ∀ st ∈ body, Compiles st) :
    Compiles (.branch c body other) := by
  have hwords : (Statement.branch c body other).words =
      mark .ifWord :: (c.words ++ (braces (bodyWords body) ++ alternativeWords other)) := by
    cases other <;> simp [Statement.words, alternativeWords]
  refine compiles_of_form _
    (fun depth => ifForm (expression depth .assignment) (declaration depth)) hwords rfl nofun
    (fun depth s hs => by unfold anyForm; rw [hs]; rfl)
    (fun depth => actions_ifForm ((formsAct depth).expression _) (formsAct depth).declaration) ?_
  intro scopes next rest depth hnext hdepth
  rw [List.append_assoc, List.append_assoc]
  exact passWrites_ifForm hnext hbody hother (by omega)

mutual

/-- Every statement is compiled to its code. -/
theorem compiles : ∀ st : Statement, Compiles st
  | .var x value => by
    intro scopes next rest depth hnext hdepth
    rw [Statement.words, varWords_eq] at hdepth ⊢
    simp only [List.length_cons] at hdepth
    obtain ⟨depth, rfl⟩ : ∃ d, depth = d + 1 := ⟨depth - 1, by omega⟩
    refine passWrites_declaration (passWrites_form (mark .varWord)
      (fun s hs => by unfold anyForm; rw [hs]; rfl) nofun
      (actions_varForm ((formsAct depth).expression .assignment)) fun s hs hq => ?_)
    exact wrote_varForm hnext.1 (by omega) hs hq
  | .block body => by
    have hbody := compiles_of_mem body
    intro scopes next rest depth _ hdepth
    simp only [Statement.words, braces, List.length_append, List.length_cons, List.length_nil]
      at hdepth
    have hscopes : bind (Statement.block body).declares scopes = scopes := bind_nil scopes
    rw [hscopes]
    exact passWrites_blockDeclaration hbody (by omega)
  | .branch c body none => compiles_branch c (compiles_of_mem body) nofun
  | .branch c body (some other) => by
    have hother := compiles_of_mem other
    refine compiles_branch c (compiles_of_mem body) fun body' hbody' => ?_
    obtain rfl := Option.mem_some_iff.mp hbody'
    exact hother
  | .loop c body => by
    have hbody := compiles_of_mem body
    refine compiles_of_form (mark .whileWord)
      (fun depth => whileForm (expression depth .assignment) (declaration depth)) rfl rfl nofun
      (fun depth s hs => by unfold anyForm; rw [hs]; rfl)
      (fun depth => actions_whileForm ((formsAct depth).expression _) (formsAct depth).declaration)
      fun scopes next rest depth _ hdepth => ?_
    rw [List.append_eq] at hdepth ⊢
    rw [List.append_assoc]
    exact passWrites_whileForm hbody (by omega)
  | .count first c increment body => by
    have hbody := compiles_of_mem body
    have hwords : (Statement.count first c increment body).words = mark .forWord ::
        (first.words ++ mark .comma :: (optionWords c ++ mark .comma ::
          (optionWords increment ++ braces (bodyWords body)))) := by
      simp [Statement.words]
    refine compiles_of_form _
      (fun depth => forForm (expression depth .assignment) (declaration depth)) hwords rfl nofun
      (fun depth s hs => by unfold anyForm; rw [hs]; rfl)
      (fun depth => actions_inScope (actions_countedLoop ((formsAct depth).expression _)
        (formsAct depth).declaration)) fun scopes next rest depth _ hdepth => ?_
    simp only [List.length_append, List.length_cons] at hdepth
    simp only [List.append_assoc, List.cons_append]
    refine passWrites_forForm hbody ?_
    simp only [List.length_append]
    omega
  | .result e => by
    refine compiles_of_form (mark .returnWord)
      (fun depth => returnForm (expression depth .assignment)) rfl rfl nofun
      (fun depth s hs => by unfold anyForm; rw [hs]; rfl)
      (fun depth s => (edits_returnForm ((formsAct depth).expression _) s).actions)
      fun scopes next rest depth hnext hdepth s hs hq => ?_
    exact (passWrites_returnForm hnext.1 (by omega) s hs hq).mono fun _ => rfl
  | .expression e => by
    refine compiles_of_form (mark .leftBrace)
      (fun depth => inScope (blockForm (declarations depth))) rfl rfl nofun
      (fun depth s hs => by unfold anyForm; rw [hs]; rfl) actions_block
      fun scopes next rest depth _ hdepth => ?_
    rw [List.append_eq, List.length_append, List.length_singleton] at hdepth
    rw [List.append_eq, List.append_assoc]
    exact passWrites_expressionBlock (by omega)
termination_by structural st => st

/-- All of some statements are compiled to their code. -/
theorem compiles_of_mem : ∀ (body : List Statement), ∀ st ∈ body, Compiles st
  | [], _, h => nomatch h
  | st :: body, st', h => by
    have hst := compiles st
    have hbody := compiles_of_mem body
    rcases List.mem_cons.mp h with rfl | h
    · exact hst
    · exact hbody st' h
termination_by structural body => body

end

end ScriptEngine.Compile
