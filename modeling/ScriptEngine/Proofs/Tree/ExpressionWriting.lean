import ScriptEngine.Proofs.Tree.Writing
set_option autoImplicit false

/-!
# Compiling expressions of program trees

Where the words of an expression are ahead, the compiler writes code of the expression
(`wrote_expression`).  The induction is over the tree.  An expression with an operator
is in parentheses, so it is opened as a group, and the call of the compiler inside of it
handles both the first operand and the operator.  What carries the induction is
therefore what is written up to where an operator may follow (`Opens`).
-/

namespace ScriptEngine.Compile

open State ScriptEngine.Tree

/-! ## Names -/

/-- A name that can be read has the slot that it has among `names`. -/
def Sees (ls : List Local) (names : List String) : Prop :=
  ∀ x, x ≠ "" →
    match slotOf? x ls with
    | some (slot, l) => l.depth.isSome = true → slotIn? x names = some slot
    | none => slotIn? x names = none

/-- A local that cannot be read yet is not seen. -/
theorem Sees.push {ls : List Local} {names : List String} (h : Sees ls names) (x : String) :
    Sees (⟨x, none, false⟩ :: ls) names := by
  intro y hy
  have hold := h y hy
  by_cases hxy : x = y
  · rw [slotOf?, if_pos hxy]
    exact nofun
  · rw [slotOf?, if_neg hxy]
    exact hold

/-- Locals are seen under their names, the callee excepted. -/
theorem sees_of_names {ls : List Local} {names : List String}
    (hnames : ls.map Local.name = names ++ [""]) : Sees ls names := by
  intro x hx
  induction names generalizing ls with
  | nil =>
    obtain ⟨l, rfl, hl⟩ := List.map_eq_singleton_iff.mp hnames
    rw [slotOf?, if_neg (by rw [hl]; exact hx.symm)]
    rfl
  | cons y names ih =>
    obtain ⟨l, older, rfl, hl, holder⟩ := List.map_eq_cons_iff.mp hnames
    by_cases hxy : l.name = x
    · rw [slotOf?, if_pos hxy]
      intro _
      have hlen : older.length = names.length + 1 := by
        rw [← List.length_map (f := Local.name), holder]
        exact List.length_append
      rw [slotIn?, if_pos (hl ▸ hxy), hlen]
    · rw [slotOf?, if_neg hxy, slotIn?, if_neg (by rwa [← hl])]
      exact ih holder

section Expressions

variable {returns : Prop} {here : Setting} {names : List String} {A B : CodeSort}
  {rest : List Word} {s : State}

/-- A name of a local means its slot, unless the local cannot be read yet. -/
theorem resolve_slot (hs : s.Sane) {x : String} {slot : Nat} {l : Local}
    (hslot : slotOf? x s.builder.locals = some (slot, l)) (hq : (s.resolve x).2.IsQuiet) :
    l.depth.isSome = true ∧ s.resolve x = (.slot slot, s) := by
  unfold resolve at hq ⊢
  rw [hslot] at hq ⊢
  dsimp only at hq ⊢
  split at hq
  · exact absurd hq (not_isQuiet_complain hs _)
  · next hready =>
    rw [if_neg hready]
    exact ⟨by simpa [Option.isSome_iff_ne_none] using hready, rfl⟩

/-- Outside all functions any other name is global. -/
theorem resolve_global {x : String} (hslot : slotOf? x s.builder.locals = none)
    (haround : s.around = []) : s.resolve x =
      (.global (s.poolConstant (.string x)).1, (s.poolConstant (.string x)).2) := by
  unfold resolve resolveAround
  rw [hslot, haround]
  rfl

/-- A name is looked up, and the instructions of its place access the variable that it
means. -/
theorem faces_resolve (returns : Prop) (hs : Faces here rest s) (hsees : Sees here.locals names)
    {x : String}
    (hx : x ≠ "") (hq : (s.resolve x).2.IsQuiet) :
    Faces here rest (s.resolve x).2 ∧ Adds returns s (s.resolve x).2 [] ∧
      ∀ pool, Includes pool (s.resolve x).2 →
        AccessCode pool names .getLocal .getGlobal x
          [(s.resolve x).1.getOp.toByte, (s.resolve x).1.operand.toUInt8] ∧
        AccessCode pool names .setLocal .setGlobal x
          [(s.resolve x).1.setOp.toByte, (s.resolve x).1.operand.toUInt8] := by
  have hmeaning := hsees x hx
  rw [← hs.locals] at hmeaning
  cases hslot : slotOf? x s.builder.locals with
  | some found =>
    obtain ⟨slot, l⟩ := found
    rw [hslot] at hmeaning
    obtain ⟨hready, heq⟩ := resolve_slot hs.inOrder.toSane hslot hq
    have hlt : slot < byteRange := Nat.lt_of_lt_of_le (slotOf_lt hslot)
      (hs.inOrder.roomy _ List.mem_cons_self).locals
    rw [heq]
    refine ⟨hs, adds_nil rfl rfl, fun pool _ => ?_⟩
    unfold AccessCode
    rw [hmeaning hready]
    exact ⟨⟨_, toNat_toUInt8 hlt, rfl⟩, ⟨_, toNat_toUInt8 hlt, rfl⟩⟩
  | none =>
    rw [hslot] at hmeaning
    dsimp only at hmeaning
    rw [resolve_global hslot hs.around] at hq ⊢
    obtain ⟨hfaces, hadds, hpool⟩ := hs.poolConstant returns (v := .string x) nofun hq
    refine ⟨hfaces, hadds, fun pool hincludes => ?_⟩
    unfold AccessCode
    rw [hmeaning]
    exact ⟨⟨_, hpool pool hincludes, rfl⟩, ⟨_, hpool pool hincludes, rfl⟩⟩

theorem getOp_ne_return (p : Place) : p.getOp ≠ .return := by
  cases p <;> exact nofun

theorem setOp_ne_return (p : Place) : p.setOp ≠ .return := by
  cases p <;> exact nofun

/-! ## What opens an expression -/

theorem ne_empty_of_previous (hs : Faces here rest s) {x : String}
    (hname : wordOf s.previous = ⟨.identifier, x⟩) :
    s.previous.kind = .identifier ∧ s.previous.lexeme = x ∧ x ≠ "" := by
  have hkind : s.previous.kind = .identifier := congrArg Word.kind hname
  have htext : s.previous.lexeme = x := congrArg Word.text hname
  exact ⟨hkind, htext, htext ▸ hs.inOrder.named _ List.mem_cons_self hkind⟩

/-- A name that no assignment follows is read. -/
theorem wrote_get {pass : Pass} {mayAssign : Bool} {next : Word}
    (hs : Faces here (next :: rest) s) (hsees : Sees here.locals names) {x : String}
    (hname : wordOf s.previous = ⟨.identifier, x⟩) (hnext : next.kind ≠ .equal)
    (hq : (s.nameForm pass mayAssign).IsQuiet) :
    Wrote returns here (fun pool => AccessCode pool names .getLocal .getGlobal x)
      (next :: rest) s (s.nameForm pass mayAssign) := by
  obtain ⟨-, rfl, hx⟩ := ne_empty_of_previous hs hname
  have hequal : (s.resolve s.previous.lexeme).2.sees .equal = false := by
    have hcurrent := List.cons.inj (upcoming_resolve s s.previous.lexeme)
    unfold State.sees
    rw [hcurrent.1, hs.kind]
    exact beq_eq_false_iff_ne.mpr hnext
  have hresolve := faces_resolve returns hs hsees hx
  unfold nameForm at hq ⊢
  generalize s.resolve s.previous.lexeme = found at hequal hresolve hq ⊢
  simp only [hequal, Bool.and_false, Bool.false_eq_true, if_false] at hq ⊢
  obtain ⟨hfaces, hadds, haccess⟩ := hresolve ((edits_appendWith ..).isQuiet hq)
  have hwritten : Adds returns found.2 (found.2.appendWith found.1.getOp found.1.operand) _ :=
    adds_appendWith _ (getOp_ne_return _) _
  exact ⟨hfaces.appendWith _ _ hq, _, hadds.trans hwritten, fun pool hpool =>
    (haccess pool (hpool.of_adds hwritten)).1⟩

/-- A name is assigned to. -/
theorem wrote_set {pass : Pass} (hedits : ∀ s, Edits s (pass s)) {ws : List Word}
    (hpass : PassWrites returns here here ws rest A pass) (hs : Faces here (mark .equal :: ws) s)
    (hsees : Sees here.locals names) {x : String}
    (hname : wordOf s.previous = ⟨.identifier, x⟩) (hq : (s.nameForm pass true).IsQuiet) :
    Wrote returns here (CodeSort.append A fun pool =>
      AccessCode pool names .setLocal .setGlobal x) rest s (s.nameForm pass true) := by
  obtain ⟨-, rfl, hx⟩ := ne_empty_of_previous hs hname
  have hequal : (s.resolve s.previous.lexeme).2.sees .equal = true := by
    have hcurrent := List.cons.inj (upcoming_resolve s s.previous.lexeme)
    unfold State.sees
    rw [hcurrent.1, hs.kind]
    rfl
  have hresolve := faces_resolve returns hs hsees hx
  unfold nameForm at hq ⊢
  generalize s.resolve s.previous.lexeme = found at hequal hresolve hq ⊢
  simp only [hequal, Bool.and_self, if_true] at hq ⊢
  have hq₂ := (edits_appendWith ..).isQuiet hq
  have hq₁ := (hedits _).isQuiet hq₂
  obtain ⟨hfaces, hadds, haccess⟩ := hresolve ((Edit.read _).isQuiet hq₁)
  obtain ⟨hfaces', bytes, hvalue, hcode⟩ := hpass _ (hfaces.read nofun hq₁) hq₂
  have hread : Adds returns found.2 (pass found.2.read) bytes :=
    (adds_read hfaces.inOrder hq₁).trans hvalue
  have hwritten : Adds returns (pass found.2.read)
      ((pass found.2.read).appendWith found.1.setOp found.1.operand) _ :=
    adds_appendWith _ (setOp_ne_return _) _
  refine ⟨hfaces'.appendWith _ _ hq, _, (hadds.trans hread).trans hwritten, fun pool hpool => ?_⟩
  have hpool := hpool.of_adds hwritten
  exact ⟨bytes, _, hcode pool hpool, (haccess pool (hpool.of_adds hread)).2, rfl⟩

/-- A constant that stands for itself is pushed. -/
theorem wrote_pushLiteral (hs : Faces here rest s) {v : Value} (hv : ∀ f, v ≠ .function f)
    (hq : (s.pushLiteral v).IsQuiet) :
    Wrote returns here (fun pool bytes => ∃ k : UInt8, pool[k.toNat]? = some v ∧
      bytes = [Opcode.constant.toByte, k]) rest s (s.pushLiteral v) := by
  have hpooled := hs.poolConstant returns hv
  unfold pushLiteral at hq ⊢
  generalize s.poolConstant v = found at hpooled hq ⊢
  obtain ⟨hfaces, hadds, hpool⟩ := hpooled ((edits_appendWith ..).isQuiet hq)
  have hop : Opcode.constant ≠ .return := nofun
  have hwritten : Adds returns found.2 (found.2.appendWith .constant found.1) _ :=
    adds_appendWith _ hop _
  exact ⟨hfaces.appendWith _ _ hq, _, hadds.trans hwritten, fun pool hincludes =>
    ⟨_, hpool pool (hincludes.of_adds hwritten), rfl⟩⟩

theorem unquoted_quoted (text : String) : unquoted ("\"" ++ text ++ "\"") = text := by
  unfold unquoted
  simp

/-! ## Operands -/

/-- An expression is written up to where an operator may follow. -/
def Opens (e : Expression) : Prop :=
  ∀ (returns : Prop) {here : Setting} {names : List String} {next : Word} {rest : List Word}
    {depth : Nat} {mayAssign : Bool} {opening : Opening} {s : State},
    Faces here (e.words ++ next :: rest) s → Sees here.locals names → next.kind ≠ .equal →
    2 * e.words.length ≤ depth → s.current.kind.opening? = some opening →
    (s.tick.read.openExpression (expression depth) mayAssign opening).IsQuiet →
    Wrote returns here (fun pool => e.IsCode pool names) (next :: rest) s
      (s.tick.read.openExpression (expression depth) mayAssign opening)

/-- An expression of a single word. -/
theorem opens_word {e : Expression} {w : Word} (hwords : e.words = [w])
    (hword : w.kind ≠ .endOfSource)
    (h : ∀ (returns : Prop) {here : Setting} {names : List String} {next : Word}
      {rest : List Word} {depth : Nat} {mayAssign : Bool} {opening : Opening} {s : State},
      Faces here (next :: rest) s → Sees here.locals names → next.kind ≠ .equal →
      wordOf s.previous = w → w.kind.opening? = some opening →
      (s.openExpression (expression depth) mayAssign opening).IsQuiet →
      Wrote returns here (fun pool => e.IsCode pool names) (next :: rest) s
        (s.openExpression (expression depth) mayAssign opening)) : Opens e := by
  intro returns here names next rest depth mayAssign opening s hs hsees hnext _ hopening hq
  rw [hwords] at hs
  rw [hs.kind] at hopening
  have hread : s.tick.read.previous.kind.opening? = some opening := by
    rw [← hopening, ← hs.kind]
    rfl
  have hq₁ := (edits_openExpression (formsAct depth).expression mayAssign hread).isQuiet hq
  have htick : Adds returns s s.tick [] := adds_nil rfl rfl
  have hbefore := htick.trans (adds_read hs.tick.inOrder hq₁)
  exact (h returns (hs.tick.read hword hq₁) hsees hnext hs.tick.previous hopening hq).after hbefore

theorem opens_literal (l : Literal) : Opens (.literal l) := by
  refine opens_word (w := l.word) rfl ?_ ?_
  · cases l with
    | boolean b => cases b <;> exact nofun
    | _ => exact nofun
  · intro returns here names next rest depth mayAssign opening s hs _ _ hword hopening hq
    have htext : s.previous.lexeme = l.word.text := congrArg Word.text hword
    cases l with
    | number digits =>
      cases hopening
      change s.numberForm.IsQuiet at hq
      show Wrote returns here _ _ s s.numberForm
      unfold numberForm at hq ⊢
      split at hq
      · next d hd =>
        have hdigits : s.previous.lexeme = digits := htext
        have hvalue : (Literal.number digits).value = .number d.toFloat := by
          show Value.number (((Decimal.ofText? digits).map Decimal.toFloat).getD 0) = _
          rw [← hdigits, hd]
          rfl
        have hliteral : ∀ f, Value.number d.toFloat ≠ .function f := nofun
        refine (wrote_pushLiteral hs hliteral hq).imp fun pool bytes hcode => ?_
        rw [← hvalue] at hcode
        exact hcode
      · exact absurd hq (not_isQuiet_complain hs.inOrder.toSane _)
    | string text =>
      cases hopening
      change (s.pushLiteral (.string (unquoted s.previous.lexeme))).IsQuiet at hq
      show Wrote returns here _ _ s (s.pushLiteral (.string (unquoted s.previous.lexeme)))
      have hquoted : s.previous.lexeme = "\"" ++ text ++ "\"" := htext
      rw [hquoted, unquoted_quoted] at hq ⊢
      have hliteral : ∀ f, Value.string text ≠ .function f := nofun
      exact (wrote_pushLiteral hs hliteral hq).imp fun _ _ hcode => hcode
    | boolean b =>
      cases b <;> cases hopening <;>
      exact (wrote_appendOp hs nofun).imp fun _ _ hcode => hcode
    | nil =>
      cases hopening
      exact (wrote_appendOp hs nofun).imp fun _ _ hcode => hcode

theorem opens_name (x : String) : Opens (.name x) := by
  refine opens_word (w := ⟨.identifier, x⟩) rfl nofun ?_
  intro returns here names next rest depth mayAssign opening s hs hsees hnext hword hopening hq
  cases hopening
  exact (wrote_get hs hsees hword hnext hq).imp fun _ _ hcode => hcode

/-! ## Whole expressions -/

theorem expression_eq {depth : Nat} {level : Precedence} {opening : Opening}
    (hs : Faces here rest s) (hopening : s.current.kind.opening? = some opening)
    (hq : (expression (depth + 1) level s).IsQuiet) :
    expression (depth + 1) level s = continuations depth level (s.tick.read.openExpression
      (expression depth) (decide (level ≤ .assignment)) opening) := by
  have hread : s.tick.read.previous.kind.opening? = some opening := hopening
  unfold expression at hq ⊢
  dsimp only at hq ⊢
  rw [hread] at hq ⊢
  dsimp only at hq ⊢
  have hcont := (formsAct depth).continuations level (s.tick.read.openExpression
    (expression depth) (decide (level ≤ .assignment)) opening)
  have hopen := edits_openExpression (formsAct depth).expression
    (decide (level ≤ .assignment)) hread
  have hq₃ := (edits_refuseAssignment ..).isQuiet hq
  have hq₂ := hcont.isQuiet hq₃
  have hq₁ := hopen.isQuiet hq₂
  have hs₂ := hopen.inOrder (hs.tick.inOrder.read hq₁) hq₂
  exact carries_refuseAssignment (hcont.inOrder hs₂ hq₃).toSane hq

/-- An expression begins with a word that opens one. -/
theorem exists_opening : ∀ e : Expression, ∃ (w : Word) (ws : List Word) (o : Opening),
    e.words = w :: ws ∧ w.kind.opening? = some o
  | .literal l => by
    refine ⟨l.word, [], ?_⟩
    cases l with
    | boolean b => cases b <;> exact ⟨_, rfl, rfl⟩
    | _ => exact ⟨_, rfl, rfl⟩
  | .name x => ⟨_, _, _, rfl, rfl⟩
  | .assign .. | .unary .. | .binary .. | .and .. | .or .. | .call _ [] | .call _ (_ :: _) =>
    ⟨_, _, _, rfl, rfl⟩

/-- The word does not go on with an expression. -/
def Calm (w : Word) : Prop := w.kind.continuation? = none ∧ w.kind ≠ .equal

/-- Nothing follows an expression. -/
theorem continuations_eq {next : Word} (hs : Faces here (next :: rest) s) (hnext : Calm next)
    {depth : Nat} (hdepth : 0 < depth) (level : Precedence) :
    continuations depth level s = s.tick := by
  obtain ⟨depth, rfl⟩ := Nat.exists_eq_succ_of_ne_zero hdepth.ne'
  unfold continuations
  rw [hs.kind, hnext.1]

/-- An expression is written that nothing goes on with. -/
theorem Opens.passWrites {e : Expression} (h : Opens e) (hsees : Sees here.locals names)
    {next : Word} (hnext : Calm next) {depth : Nat} (hdepth : 2 * e.words.length + 1 ≤ depth)
    (level : Precedence) :
    PassWrites returns here here (e.words ++ next :: rest) (next :: rest)
      (fun pool => e.IsCode pool names) (expression depth level) := by
  intro s hs hq
  obtain ⟨w, ws, opening, hwords, hopening⟩ := exists_opening e
  have hcurrent : s.current.kind.opening? = some opening := by
    rw [hwords] at hs
    rw [hs.kind, hopening]
  obtain ⟨depth, rfl⟩ : ∃ d, depth = d + 1 := ⟨depth - 1, by omega⟩
  have heq := expression_eq hs hcurrent hq
  rw [heq] at hq ⊢
  have hq₁ := ((formsAct depth).continuations level _).isQuiet hq
  have hopened := h returns hs hsees hnext.2 (Nat.le_of_succ_le_succ hdepth) hcurrent hq₁
  have hpos : 0 < depth := by
    have hlen : 0 < e.words.length := by simp [hwords]
    omega
  rw [continuations_eq hopened.faces hnext hpos level]
  exact hopened.tick

/-! ## Operators -/

/-- An expression in parentheses is opened as a group. -/
theorem opens_group {e : Expression} {inner : List Word} (hwords : e.words = parens inner)
    (h : ∀ (returns : Prop) {here : Setting} {names : List String} {rest : List Word}
      {depth : Nat}, Sees here.locals names → 2 * inner.length + 4 ≤ depth →
      PassWrites returns here here (inner ++ mark .rightParen :: rest) (mark .rightParen :: rest)
        (fun pool => e.IsCode pool names) (expression depth .assignment)) : Opens e := by
  intro returns here names next rest depth mayAssign opening s hs hsees hnext hdepth hopening hq
  have hparens : e.words ++ next :: rest =
      mark .leftParen :: (inner ++ mark .rightParen :: next :: rest) := by
    rw [hwords]
    simp [parens]
  rw [hparens] at hs
  rw [hs.kind] at hopening
  cases hopening
  have hlen : e.words.length = inner.length + 2 := by
    rw [hwords]
    simp [parens]
  have hq₂ := (edits_require ..).isQuiet hq
  have hq₁ := ((formsAct depth).expression _ _).isQuiet hq₂
  have hinside := h returns hsees (by omega) _ (hs.tick.read nofun hq₁) hq₂
  have htick : Adds returns s s.tick [] := adds_nil rfl rfl
  obtain ⟨hclosed, hclose⟩ := hinside.faces.require nofun hq
  exact (hinside.before hclose hclosed).after (htick.trans (adds_read hs.tick.inOrder hq₁))

/-- What is in a group opens with a word that takes all the rest. -/
theorem passWrites_prefix (w : Word) (opening : Opening) (hw : w.kind.opening? = some opening)
    {ws : List Word} {depth : Nat} (hform : ∀ s, Faces here ws s → wordOf s.previous = w →
      (s.openExpression (expression (depth + 1)) true opening).IsQuiet →
      Wrote returns here A (mark .rightParen :: rest) s
        (s.openExpression (expression (depth + 1)) true opening)) :
    PassWrites returns here here (w :: ws) (mark .rightParen :: rest) A
      (expression (depth + 2) .assignment) := by
  intro s hs hq
  have hcurrent : s.current.kind.opening? = some opening := by rw [hs.kind, hw]
  have hend : w.kind ≠ .endOfSource := by
    intro h
    rw [h] at hw
    cases hw
  have heq := expression_eq hs hcurrent hq
  rw [heq] at hq ⊢
  have hq₂ := ((formsAct (depth + 1)).continuations .assignment _).isQuiet hq
  have hread : s.tick.read.previous.kind.opening? = some opening := hcurrent
  have hq₁ := (edits_openExpression (formsAct (depth + 1)).expression _ hread).isQuiet hq₂
  have hwrote := hform _ (hs.tick.read hend hq₁) hs.tick.previous hq₂
  have hstop := continuations_eq hwrote.faces ⟨rfl, nofun⟩ (Nat.succ_pos depth) .assignment
  have htick : Adds returns s s.tick [] := adds_nil rfl rfl
  rw [show decide (Precedence.assignment ≤ .assignment) = true from rfl, hstop]
  exact hwrote.tick.after (htick.trans (adds_read hs.tick.inOrder hq₁))

/-- Before the end of a group, an expression has an operator behind it. -/
theorem Opens.operation {l : Expression} (hl : Opens l) (m : Word) (c : Continuation)
    (hm : m.kind.continuation? = some c) {ws : List Word} {depth : Nat}
    (hsees : Sees here.locals names) (hdepth : 2 * l.words.length ≤ depth + 2)
    (hform : ∀ s, Faces here ws s → (s.continueExpression (expression (depth + 1))
        (arguments (depth + 1) 0) c).IsQuiet →
      Wrote returns here B (mark .rightParen :: rest) s
        (s.continueExpression (expression (depth + 1)) (arguments (depth + 1) 0) c)) :
    PassWrites returns here here (l.words ++ m :: ws) (mark .rightParen :: rest)
      (CodeSort.append (fun pool => l.IsCode pool names) B)
      (expression (depth + 3) .assignment) := by
  intro s hs hq
  obtain ⟨w, ws', opening, hwords, hopening⟩ := exists_opening l
  have hcurrent : s.current.kind.opening? = some opening := by
    rw [hwords] at hs
    rw [hs.kind, hopening]
  have hequal : m.kind ≠ .equal := by
    intro h
    rw [h] at hm
    cases hm
  have hend : m.kind ≠ .endOfSource := by
    intro h
    rw [h] at hm
    cases hm
  have heq := expression_eq hs hcurrent hq
  rw [heq] at hq ⊢
  have hq₁ := ((formsAct (depth + 2)).continuations .assignment _).isQuiet hq
  have hleft := hl returns hs hsees hequal hdepth hcurrent hq₁
  generalize s.tick.read.openExpression (expression (depth + 2)) _ opening = t at *
  have hstep : continuations (depth + 2) .assignment t = continuations (depth + 1) .assignment
      (t.tick.read.continueExpression (expression (depth + 1)) (arguments (depth + 1) 0) c) := by
    rw [continuations]
    rw [hleft.faces.kind, hm]
    exact if_pos (assignment_le c)
  rw [hstep] at hq ⊢
  have hq₂ := ((formsAct (depth + 1)).continuations .assignment _).isQuiet hq
  have hq₃ := (edits_continueExpression (formsAct (depth + 1)).expression
    ((formsAct (depth + 1)).arguments 0) c t.tick.read).isQuiet hq₂
  have hright := hform _ (hleft.faces.tick.read hend hq₃) hq₂
  rw [continuations_eq hright.faces ⟨rfl, nofun⟩ (Nat.succ_pos depth)]
  have htick : Adds returns t t.tick [] := adds_nil rfl rfl
  have hbefore := htick.trans (adds_read hleft.faces.tick.inOrder hq₃)
  exact hleft.append (hright.tick.after hbefore)

section Forms

variable {operand : Precedence → Pass} {ws : List Word}

theorem wrote_andForm
    (hright : PassWrites returns here here ws rest A (operand .and)) (hs : Faces here ws s)
    (hq : (s.andForm operand).IsQuiet) :
    Wrote returns here (((CodeSort.exactly [Opcode.pop.toByte]).append A).jumped .jumpIfFalse)
      rest s (s.andForm operand) := by
  have hq₁ := (Edit.landJump _ _).isQuiet hq
  have hpop : Wrote returns here _ ws _ ((s.openJump .jumpIfFalse).2.appendOp .pop) :=
    wrote_appendOp (hs.openJump .jumpIfFalse) nofun
  exact wrote_jump nofun (hpop.append (hright _ hpop.faces hq₁)) hq

theorem wrote_orForm (ho : ∀ p s, Edits s (operand p s))
    (hright : PassWrites returns here here ws rest A (operand .or)) (hs : Faces here ws s)
    (hq : (s.orForm operand).IsQuiet) :
    Wrote returns here ((CodeSort.exactly []).branches
      ((CodeSort.exactly [Opcode.pop.toByte]).append A)) rest s (s.orForm operand) := by
  have hq₂ := (Edit.landJump _ _).isQuiet hq
  have hq₁ := (edits_appendOp ..).isQuiet ((ho .or _).isQuiet hq₂)
  have hfirst : Wrote returns here _ ws _ (s.openJump .jumpIfFalse).2 :=
    wrote_nil (hs.openJump .jumpIfFalse)
  have hlanded := (hfirst.faces.openJump .jump).landJump hq₁
  have hpop : Wrote returns here _ ws _ (State.appendOp _ .pop) := wrote_appendOp hlanded nofun
  exact wrote_branches hfirst hq₁ (hpop.append (hright _ hpop.faces hq₂)) hq

theorem wrote_binaryForm (op : BinaryOperator)
    (hright : PassWrites returns here here ws rest A (operand op.precedence.next))
    (hs : Faces here ws s) (hq : (s.binaryForm operand op).IsQuiet) :
    Wrote returns here (A.append (.exactly (op.code.map Opcode.toByte))) rest s
      (s.binaryForm operand op) := by
  have hq₁ := (edits_foldl edits_appendOp op.code _).isQuiet hq
  have hvalue := hright s hs hq₁
  refine hvalue.append (wrote_appendOps op.code ?_ hvalue.faces)
  cases op <;> decide

end Forms

/-! ## Calls -/

/-- One more argument is written and counted. -/
theorem wrote_argument (returns : Prop) {e : Expression} (he : Opens e)
    (hsees : Sees here.locals names) {next : Word} (hnext : Calm next) {depth count : Nat}
    (hdepth : 2 * e.words.length + 1 ≤ depth) (hs : Faces here (e.words ++ next :: rest) s)
    (hq : (arguments (depth + 1) count s).2.IsQuiet) :
    Wrote returns here (fun pool => e.IsCode pool names) (next :: rest) s
        (expression depth .assignment s.tick) ∧ count ≠ maxArguments ∧
      arguments (depth + 1) count s =
        if (expression depth .assignment s.tick).sees .comma then
          arguments depth (count + 1) (expression depth .assignment s.tick).read
        else (count + 1, expression depth .assignment s.tick) := by
  rw [arguments] at hq
  dsimp only at hq
  have hq₂ : ((expression depth .assignment s.tick).countArgument count).2.IsQuiet := by
    split at hq
    · exact (Edit.read _).isQuiet (((formsAct depth).arguments _ _).isQuiet hq)
    · exact hq
  have hq₁ := (edits_countArgument _ count).isQuiet hq₂
  have htick : Adds returns s s.tick [] := adds_nil rfl rfl
  have hwrote := (he.passWrites hsees hnext hdepth .assignment _ hs.tick hq₁).after htick
  have hmax : count ≠ maxArguments := by
    intro hmax
    unfold countArgument at hq₂
    rw [if_pos hmax] at hq₂
    exact absurd hq₂ (not_isQuiet_complain hwrote.faces.inOrder.toSane _)
  refine ⟨hwrote, hmax, ?_⟩
  rw [arguments, countArgument, if_neg hmax]

/-- Arguments are written after `count` others. -/
theorem wrote_arguments (returns : Prop) {e : Expression} {es : List Expression}
    (h : ∀ e' ∈ e :: es, Opens e')
    (hsees : Sees here.locals names) {depth count : Nat}
    (hdepth : 2 * (e.words ++ laterWords es).length + 2 ≤ depth)
    (hs : Faces here (e.words ++ (laterWords es ++ mark .rightParen :: rest)) s)
    (hq : (arguments depth count s).2.IsQuiet) (hcount : count ≤ maxArguments) :
    Wrote returns here (fun pool => ArgumentsCode pool names (e :: es)) (mark .rightParen :: rest)
        s (arguments depth count s).2 ∧
      (arguments depth count s).1 = count + (e :: es).length ∧
      (arguments depth count s).1 ≤ maxArguments := by
  have he := h e List.mem_cons_self
  induction es generalizing e depth count s with
  | nil =>
    obtain ⟨depth, rfl⟩ : ∃ d, depth = d + 1 := ⟨depth - 1, by omega⟩
    rw [List.length_append] at hdepth
    obtain ⟨hwrote, hmax, heq⟩ := wrote_argument returns he hsees
      (⟨rfl, nofun⟩ : Calm (mark .rightParen)) (by omega) hs hq
    have hlast : (expression depth .assignment s.tick).sees .comma = false := hwrote.faces.sees _
    rw [heq, hlast, if_neg Bool.false_ne_true]
    refine ⟨hwrote.imp fun pool bytes hcode => ?_, rfl, Nat.lt_of_le_of_ne hcount hmax⟩
    exact ⟨bytes, [], hcode, rfl, (List.append_nil bytes).symm⟩
  | cons e' es ih =>
    obtain ⟨depth, rfl⟩ : ∃ d, depth = d + 1 := ⟨depth - 1, by omega⟩
    have hlater : ∀ d ∈ e' :: es, Opens d := fun d hd => h d (List.mem_cons_of_mem e hd)
    rw [List.length_append, laterWords, List.cons_append, List.length_cons] at hdepth
    rw [laterWords, List.cons_append, List.cons_append, List.append_assoc] at hs
    obtain ⟨hwrote, hmax, heq⟩ := wrote_argument returns he hsees
      (⟨rfl, nofun⟩ : Calm (mark .comma)) (by omega) hs hq
    have hcomma : (expression depth .assignment s.tick).sees .comma = true := hwrote.faces.sees _
    rw [heq, hcomma, if_pos rfl] at hq ⊢
    have hq₁ := ((formsAct depth).arguments _ _).isQuiet hq
    obtain ⟨hrest, hlen, hle⟩ := ih hlater (by omega) (hwrote.faces.read nofun hq₁) hq
      (Nat.lt_of_le_of_ne hcount hmax) (hlater e' List.mem_cons_self)
    refine ⟨hwrote.append (hrest.after (adds_read hwrote.faces.inOrder hq₁)), ?_, hle⟩
    rw [hlen, List.length_cons, List.length_cons, List.length_cons]
    omega

/-- A call has its arguments behind the callee, and then their number. -/
def callCode (names : List String) (es : List Expression) : CodeSort := fun pool bytes =>
  ∃ values, ∃ n : UInt8, ArgumentsCode pool names es values ∧ n.toNat = es.length ∧
    bytes = values ++ [Opcode.call.toByte, n]

theorem wrote_closeCall {count : Nat} {s t : State} {es : List Expression}
    (h : Wrote returns here (fun pool => ArgumentsCode pool names es) (mark .rightParen :: rest)
      s t) (hcount : count = es.length) (hmax : count ≤ maxArguments)
    (hq : ((t.require .rightParen .closingOfArguments).appendWith .call count).IsQuiet) :
    Wrote returns here (callCode names es) rest s
      ((t.require .rightParen .closingOfArguments).appendWith .call count) := by
  obtain ⟨hfaces, hadds⟩ := h.faces.require nofun ((edits_appendWith ..).isQuiet hq)
  have hop : Opcode.call ≠ .return := nofun
  refine ((h.before hadds hfaces).append (wrote_appendWith hfaces hop count hq)).imp ?_
  rintro pool bytes ⟨values, call, hvalues, rfl, rfl⟩
  exact ⟨values, count.toUInt8, hvalues, hcount ▸ toNat_toUInt8 (Nat.lt_succ_of_le hmax), rfl⟩

/-- A call without arguments. -/
theorem wrote_emptyCall (names : List String) {arguments : State → Nat × State}
    (hs : Faces here (mark .rightParen :: rest) s) (hq : (s.callForm arguments).IsQuiet) :
    Wrote returns here (callCode names []) rest s (s.callForm arguments) := by
  have hempty : s.sees .rightParen = true := hs.sees _
  unfold callForm at hq ⊢
  rw [hempty, if_pos rfl] at hq ⊢
  exact wrote_closeCall ((wrote_nil hs).imp fun _ _ hcode => hcode) rfl (Nat.zero_le _) hq

/-- A call with arguments. -/
theorem wrote_callForm {e : Expression} {es : List Expression} (h : ∀ e' ∈ e :: es, Opens e')
    (hsees : Sees here.locals names) {depth : Nat}
    (hdepth : 2 * (e.words ++ laterWords es).length + 2 ≤ depth)
    (hs : Faces here (e.words ++ (laterWords es ++ mark .rightParen :: rest)) s)
    (hq : (s.callForm (arguments depth 0)).IsQuiet) :
    Wrote returns here (callCode names (e :: es)) rest s (s.callForm (arguments depth 0)) := by
  have hfirst : s.sees .rightParen = false := by
    obtain ⟨w, ws, opening, hwords, hopening⟩ := exists_opening e
    rw [hwords] at hs
    rw [hs.sees, beq_eq_false_iff_ne]
    intro hkind
    rw [hkind] at hopening
    cases hopening
  unfold callForm at hq ⊢
  rw [hfirst, if_neg Bool.false_ne_true] at hq ⊢
  have hq₁ := (edits_require ..).isQuiet ((edits_appendWith ..).isQuiet hq)
  obtain ⟨hwrote, hlen, hmax⟩ := wrote_arguments returns h hsees hdepth hs hq₁ (Nat.zero_le _)
  exact wrote_closeCall hwrote (hlen.trans (Nat.zero_add _)) hmax hq

end Expressions

/-! ## All expressions -/

theorem opening_unaryMark (op : UnaryOperator) :
    (unaryMark op).kind.opening? = some (.unary op) := by
  cases op <;> rfl

theorem continuation_binaryMark (op : BinaryOperator) :
    (binaryMark op).kind.continuation? = some (.binary op) := by
  cases op <;> rfl

theorem calm_rightParen : Calm (mark .rightParen) := ⟨rfl, nofun⟩

theorem calm_comma : Calm (mark .comma) := ⟨rfl, nofun⟩

mutual

/-- Every expression is written. -/
theorem opens : ∀ e : Expression, Opens e
  | .literal l => opens_literal l
  | .name x => opens_name x
  | .assign x e => by
    have he := opens e
    refine opens_group rfl fun returns here names rest depth hsees hdepth => ?_
    simp only [List.length_cons] at hdepth
    obtain ⟨depth, rfl⟩ : ∃ d, depth = d + 2 := ⟨depth - 2, by omega⟩
    refine passWrites_prefix ⟨.identifier, x⟩ .name rfl fun s hs hname hq => ?_
    exact wrote_set ((formsAct (depth + 1)).expression .assignment)
      (he.passWrites hsees calm_rightParen (by omega) .assignment) hs hsees hname hq
  | .unary op e => by
    have he := opens e
    refine opens_group rfl fun returns here names rest depth hsees hdepth => ?_
    simp only [List.length_cons] at hdepth
    obtain ⟨depth, rfl⟩ : ∃ d, depth = d + 2 := ⟨depth - 2, by omega⟩
    refine passWrites_prefix _ _ (opening_unaryMark op) fun s hs _ hq => ?_
    have hvalue : Wrote returns here _ _ s (expression (depth + 1) .unary s) :=
      he.passWrites hsees calm_rightParen (by omega) .unary s hs ((edits_appendOp ..).isQuiet hq)
    have hop : op.code = .return → returns := by cases op <;> exact nofun
    refine (hvalue.append (wrote_appendOp hvalue.faces hop)).imp ?_
    rintro pool bytes ⟨operand, _, hoperand, rfl, rfl⟩
    exact ⟨operand, hoperand, rfl⟩
  | .binary op l r => by
    have hl := opens l
    have hr := opens r
    refine opens_group rfl fun returns here names rest depth hsees hdepth => ?_
    simp only [List.length_append, List.length_cons] at hdepth
    obtain ⟨depth, rfl⟩ : ∃ d, depth = d + 3 := ⟨depth - 3, by omega⟩
    rw [List.append_assoc]
    refine (hl.operation (binaryMark op) (.binary op) (continuation_binaryMark op) hsees (by omega)
      fun s hs hq => wrote_binaryForm op
        (hr.passWrites hsees calm_rightParen (by omega) _) hs hq).imp ?_
    rintro pool bytes ⟨left, _, hleft, ⟨right, _, hright, rfl, rfl⟩, rfl⟩
    exact ⟨left, right, hleft, hright, (List.append_assoc ..).symm⟩
  | .and l r => by
    have hl := opens l
    have hr := opens r
    refine opens_group rfl fun returns here names rest depth hsees hdepth => ?_
    simp only [List.length_append, List.length_cons] at hdepth
    obtain ⟨depth, rfl⟩ : ∃ d, depth = d + 3 := ⟨depth - 3, by omega⟩
    rw [List.append_assoc]
    refine (hl.operation (mark .andWord) .and rfl hsees (by omega) fun s hs hq =>
      wrote_andForm (hr.passWrites hsees calm_rightParen (by omega) .and) hs hq).imp ?_
    rintro pool bytes ⟨left, _, hleft, ⟨_, d, ⟨_, right, rfl, hright, rfl⟩, hd, rfl⟩, rfl⟩
    exact ⟨left, right, d, hleft, hright, hd, by simp⟩
  | .or l r => by
    have hl := opens l
    have hr := opens r
    refine opens_group rfl fun returns here names rest depth hsees hdepth => ?_
    simp only [List.length_append, List.length_cons] at hdepth
    obtain ⟨depth, rfl⟩ : ∃ d, depth = d + 3 := ⟨depth - 3, by omega⟩
    rw [List.append_assoc]
    refine (hl.operation (mark .orWord) .or rfl hsees (by omega) fun s hs hq =>
      wrote_orForm (formsAct (depth + 1)).expression
        (hr.passWrites hsees calm_rightParen (by omega) .or) hs hq).imp ?_
    rintro pool bytes ⟨left, _, hleft, ⟨_, _, past, out, rfl, ⟨_, right, rfl, hright, rfl⟩,
      hover, hout, rfl⟩, rfl⟩
    obtain rfl : past = 2 := UInt8.toNat_inj.mp hover
    exact ⟨left, right, out, hleft, hright, hout, by simp⟩
  | .call callee [] => by
    have hcallee := opens callee
    refine opens_group rfl fun returns here names rest depth hsees hdepth => ?_
    simp only [parens, List.length_append, List.length_cons, List.length_nil] at hdepth
    obtain ⟨depth, rfl⟩ : ∃ d, depth = d + 3 := ⟨depth - 3, by omega⟩
    rw [List.append_assoc]
    refine PassWrites.imp (hcallee.operation (mark .leftParen) .call rfl hsees (by omega)
      fun s hs hq => wrote_emptyCall names hs hq) ?_
    rintro pool bytes ⟨first, _, hfirst, ⟨values, n, hvalues, hn, rfl⟩, rfl⟩
    exact ⟨first, values, n, hfirst, hvalues, hn, (List.append_assoc ..).symm⟩
  | .call callee (e :: es) => by
    have hcallee := opens callee
    have hes : ∀ e' ∈ e :: es, Opens e' := List.forall_mem_cons.mpr ⟨opens e, opens_of_mem es⟩
    refine opens_group rfl fun returns here names rest depth hsees hdepth => ?_
    simp only [parens, List.length_append, List.length_cons, List.length_nil] at hdepth
    obtain ⟨depth, rfl⟩ : ∃ d, depth = d + 3 := ⟨depth - 3, by omega⟩
    rw [List.append_assoc]
    refine PassWrites.imp (hcallee.operation (mark .leftParen) .call rfl hsees (by omega)
      fun s hs hq => wrote_callForm hes hsees ?_ (by simpa using hs) hq) ?_
    · rw [List.length_append]
      omega
    rintro pool bytes ⟨first, _, hfirst, ⟨values, n, hvalues, hn, rfl⟩, rfl⟩
    exact ⟨first, values, n, hfirst, hvalues, hn, (List.append_assoc ..).symm⟩
termination_by structural e => e

/-- All of some expressions are written. -/
theorem opens_of_mem : ∀ (es : List Expression), ∀ e ∈ es, Opens e
  | [], _, h => nomatch h
  | e :: es, e', h => by
    have he := opens e
    have hes := opens_of_mem es
    rcases List.mem_cons.mp h with rfl | h
    · exact he
    · exact hes e' h
termination_by structural es => es

end

end ScriptEngine.Compile
