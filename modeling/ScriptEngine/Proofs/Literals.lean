import Mathlib
import ScriptEngine.Proofs.Abreast.State
import ScriptEngine.Proofs.Acceptance
import ScriptEngine.Proofs.Lexis.Composition
import ScriptEngine.Proofs.Number.Numerals
import ScriptEngine.Proofs.Number.Shortest
import ScriptEngine.Proofs.Refinement
set_option autoImplicit false

/-!
# Literals

What is written as a literal is read back as it was written (`literals_read_back`).  A source that
returns a literal consists of the keyword, perhaps a minus sign, and one token for the literal,
however many digits or lines it has (`scan_return`, `scan_return_minus`).  Such a token is compiled
to a constant (`Token.Denotes`), and the script gives the constant or its opposite
(`outcome_of_constant`, `outcome_of_opposite`).

That the constant is the number that was written is a fact about numbers alone
(`Number.signed_shortest`).
-/

namespace ScriptEngine

open Compile Compile.State Machine

/-! ## Scanning a return -/

/-- The keyword at the start of a source. -/
def returnToken : Token := ⟨.returnWord, "return", 1⟩

/-- A minus sign on the first line. -/
def minusToken : Token := ⟨.minus, "-", 1⟩

theorem not_startsGap_cons {c : Char} {cs : List Char} (hblank : c ∉ separators)
    (hslash : c ≠ '/') : ¬ StartsGap (c :: cs) := by
  rintro (⟨d, rest, heq, hd⟩ | ⟨rest, heq⟩)
  · obtain ⟨rfl, -⟩ := List.cons.inj heq
    exact hblank hd
  · exact hslash (List.cons.inj heq).1

/-- A token in one of its forms stands behind a gap. -/
theorem Tiles.spelled {before gap after : List Char} {k : TokenKind} {text : String}
    {ts : List Token} (hgap : IsGap (text.toList ++ after) gap)
    (hstarts : ¬ StartsGap (text.toList ++ after)) (hspells : k.Spells text.toList)
    (hlongest : IsLongest text.toList after)
    (hlater : Tiles (before ++ gap ++ text.toList) after ts) :
    Tiles before (gap ++ (text.toList ++ after))
      (⟨k, text, lineAtEnd (before ++ gap ++ text.toList)⟩ :: ts) :=
  .token hgap hstarts (.proper hspells hspells.ne_nil String.ofList_toList.symm hlongest) rfl
    hlater

/-- The last token of a source. -/
theorem Tiles.last {before gap : List Char} {k : TokenKind} {text : String}
    (hgap : IsGap text.toList gap) (hspells : k.Spells text.toList) :
    Tiles before (gap ++ text.toList)
      [⟨k, text, lineAtEnd (before ++ gap ++ text.toList)⟩,
        .endAt (lineAtEnd (before ++ gap ++ text.toList))] := by
  have hend : Tiles (before ++ gap ++ text.toList) []
      [.endAt (lineAtEnd (before ++ gap ++ text.toList ++ []))] := .done .nil
  have hlongest : IsLongest text.toList [] := fun k more hmore _ => List.prefix_nil.mp hmore
  have hlast := Tiles.spelled (by simpa using hgap) (by simpa using hspells.not_startsGap) hspells
    hlongest hend
  simpa using hlast

/-- The tokens of what is returned come behind the keyword. -/
theorem scan_return_of_tiles {operand : String} {ts : List Token}
    (h : Tiles "return".toList ([' '] ++ operand.toList) ts) :
    scan ("return " ++ operand) = returnToken :: ts := by
  have hspells : TokenKind.returnWord.Spells "return".toList := .fixed rfl
  have hword : IsWord "return".toList := ⟨rfl, List.all_eq_true.mp rfl⟩
  have hlongest : IsLongest "return".toList ([' '] ++ operand.toList) := by
    refine isLongest_word hword fun d hd => ?_
    cases hd
    rfl
  have htiles : Tiles [] ([] ++ ("return".toList ++ ([' '] ++ operand.toList)))
      (returnToken :: ts) :=
    .spelled .nil (not_startsGap_cons (by decide) (by decide)) hspells hlongest h
  refine ((tiles_iff _ _).mp ?_).symm
  rw [String.toList_append]
  exact htiles

/-- What is scanned of the return of one token. -/
theorem scan_return {k : TokenKind} {text : String} (hspells : k.Spells text.toList) :
    ∃ line, scan ("return " ++ text) =
      [returnToken, ⟨k, text, line⟩, .endAt line] :=
  ⟨_, scan_return_of_tiles (.last (.blank (by decide) .nil) hspells)⟩

/-- What is scanned of the return of one token with a minus sign in front of it. -/
theorem scan_return_minus {k : TokenKind} {text : String} (hspells : k.Spells text.toList) :
    ∃ line, scan ("return " ++ ("-" ++ text)) =
      [returnToken, minusToken, ⟨k, text, line⟩, .endAt line] := by
  have hminus : TokenKind.minus.Spells "-".toList := .fixed rfl
  have hlongest : IsLongest "-".toList text.toList :=
    isLongest_symbol (by decide) fun d _ => by simp [symbols]
  have hstarts : ¬ StartsGap ("-".toList ++ text.toList) :=
    not_startsGap_cons (by decide) (by decide)
  have hgap : IsGap ("-".toList ++ text.toList) [' '] := .blank (by decide) .nil
  have htiles : Tiles "return".toList ([' '] ++ ("-".toList ++ text.toList)) _ :=
    .spelled hgap hstarts hminus hlongest (.last .nil hspells)
  rw [← String.toList_append] at htiles
  exact ⟨_, scan_return_of_tiles htiles⟩

/-! ## Compiling a literal -/

/-- The token is compiled to a constant. -/
def Token.Denotes (t : Token) (v : Value) : Prop :=
  ∃ o, t.kind.opening? = some o ∧
    ∀ (operand : Precedence → Pass) (mayAssign : Bool) (s : State), s.previous = t →
      s.openExpression operand mayAssign o = s.pushLiteral v

theorem denotes_number {text : String} {d : Decimal} (h : Decimal.ofText? text = some d)
    (line : Nat) : Token.Denotes ⟨.number, text, line⟩ (.number d.toFloat) := by
  refine ⟨.number, rfl, fun operand mayAssign s hs => ?_⟩
  show s.numberForm = _
  unfold numberForm
  rw [hs, h]

theorem denotes_string (text : String) (line : Nat) :
    Token.Denotes ⟨.string, "\"" ++ text ++ "\"", line⟩ (.string text) := by
  refine ⟨.string, rfl, fun operand mayAssign s hs => ?_⟩
  show s.pushLiteral (.string (unquoted s.previous.lexeme)) = _
  rw [hs, unquoted_quoted]

/-- An expression was compiled that ends with the source. -/
structure EndsSource (s : State) : Prop where
  isRecovering : s.isRecovering = false
  diagnostics : s.diagnostics = #[]
  current : s.current.kind = .endOfSource
  rest : s.rest = []

/-- A token that is not invalid becomes the current one. -/
theorem read_valid {s : State} {t : Token} {ts : List Token} (hrest : s.rest = t :: ts)
    (ht : t.kind ≠ .invalid) :
    s.read = { s with previous := s.current, current := t, rest := ts, work := s.work + 1 } := by
  unfold State.read
  rw [hrest, pull_valid ht]
  rfl

/-- Behind the last token there is only the end to read. -/
theorem read_last {s : State} (hrest : s.rest = []) :
    s.read =
      { s with
        previous := s.current
        current := .endAt s.current.line
        rest := []
        work := s.work + 1 } := by
  unfold State.read
  rw [hrest]
  rfl

/-- An expression ends where the source does. -/
theorem expression_last {s r : State} {o : Opening} {depth : Nat} {level : Precedence}
    (hopening : s.current.kind.opening? = some o)
    (hopen : s.tick.read.openExpression (expression (depth + 1)) (level ≤ .assignment) o = r)
    (hend : r.current.kind = .endOfSource) : expression (depth + 2) level s = r.tick := by
  have hread : s.tick.read.previous.kind.opening? = some o := hopening
  have hstop : continuations (depth + 1) level r = r.tick := by
    rw [continuations, hend]
    rfl
  have hsees : r.tick.sees .equal = false := by
    show (r.current.kind == .equal) = false
    rw [hend]
    rfl
  rw [expression]
  dsimp only
  rw [hread]
  dsimp only
  rw [hopen, hstop, refuseAssignment, hsees, Bool.and_false]
  rfl

/-- A minus sign before an operand at the end of a source. -/
theorem expression_opposite {s r : State} {depth : Nat} (hcurrent : s.current.kind = .minus)
    (hoperand : expression (depth + 1) .unary s.tick.read = r)
    (hend : r.current.kind = .endOfSource) (level : Precedence) :
    expression (depth + 2) level s = (r.appendOp .negate).tick := by
  have hopening : s.current.kind.opening? = some (.unary .negate) := by
    rw [hcurrent]
    rfl
  exact expression_last hopening (congrArg (State.appendOp · .negate) hoperand) hend

/-- A literal at the end of a source is compiled to a constant. -/
theorem expression_literal {s : State} {t : Token} {v : Value} {line : Nat} (ht : t.Denotes v)
    (hcurrent : s.current = t) (hrest : s.rest = [.endAt line]) (depth : Nat)
    (level : Precedence) :
    expression (depth + 2) level s = (s.tick.read.pushLiteral v).tick := by
  obtain ⟨o, hopening, hopen⟩ := ht
  have hread : s.tick.read.current = .endAt line := by
    rw [read_valid (s := s.tick) hrest nofun]
  have hupcoming : (s.tick.read.pushLiteral v).upcoming = s.tick.read.upcoming :=
    upcoming_pushLiteral ..
  refine expression_last (hcurrent ▸ hopening) (hopen _ _ _ hcurrent) ?_
  rw [(List.cons.inj hupcoming).1, hread]
  rfl

/-- The compiler of a script without code between a token that it has read and those that come
next, after some work. -/
def between (firstId : Identity) (work : Nat) (previous t : Token) (ts : List Token) : State where
  rest := ts
  previous := previous
  current := t
  builder := (Builder.start none).checkpoint
  nextId := firstId
  work := work

theorem read_return (firstId : Identity) {t : Token} (ht : t.kind ≠ .invalid) (ts : List Token) :
    (initial firstId (returnToken :: t :: ts)).read.tick.tick.checkpoint.read =
      between firstId 4 returnToken t ts := by
  rw [read_valid (s := State.checkpoint _) rfl ht]
  rfl

/-- A declaration that returns an expression is what is written for the expression. -/
theorem declaration_return {firstId : Identity} {t : Token} {ts : List Token} {o : Opening}
    {s : State} {depth : Nat} (hopening : t.kind.opening? = some o)
    (hwritten : expression depth .assignment (between firstId 4 returnToken t ts) = s)
    (hends : EndsSource s) :
    declaration (depth + 1) (initial firstId (returnToken :: t :: ts)).read.tick =
      (s.appendOp .return).checkpoint := by
  have hkind : t.kind ≠ .invalid ∧ t.kind ≠ .rightBrace ∧ t.kind ≠ .endOfSource := by
    refine ⟨?_, ?_, ?_⟩ <;> intro h <;> rw [h] at hopening <;> cases hopening
  have hform : (between firstId 4 returnToken t ts).returnForm (expression depth .assignment) =
      s.appendOp .return := by
    unfold returnForm
    rw [if_neg, hwritten]
    simpa [sees, between] using hkind.2
  have hrecover : (s.appendOp .return).recover = s.appendOp .return :=
    if_neg (by simpa [appendOp, withLastOp, appendByte] using hends.isRecovering)
  rw [declaration]
  show (State.returnForm _ (State.read _)).recover.checkpoint = _
  rw [read_return firstId hkind.1, hform, hrecover]

/-- A source that returns an expression is compiled to what is written for the expression. -/
theorem compile_return (firstId : Identity) {source : String} {t : Token} {ts : List Token}
    {o : Opening} {s : State} (hscan : scan source = returnToken :: t :: ts)
    (hopening : t.kind.opening? = some o)
    (hwritten : expression (2 * ts.length + 7) .assignment (between firstId 4 returnToken t ts) = s)
    (hends : EndsSource s) :
    (compile firstId source).outcome = .ok ((s.appendOp .return).builder.finish s.nextId) := by
  have hprogram : compileTokens firstId (scan source) = (s.appendOp .return).checkpoint.read := by
    have hdeclaration := declaration_return hopening hwritten hends
    have hend : (s.appendOp .return).checkpoint.sees .endOfSource = true :=
      beq_iff_eq.mpr hends.current
    rw [hscan]
    show program (2 * ts.length + 8) (ts.length + 4) _ = _
    rw [program, if_neg, hdeclaration, program, if_pos hend]
    rw [read_valid rfl (show TokenKind.returnWord ≠ .invalid by decide)]
    simp [sees, returnToken]
  have hread : (s.appendOp .return).checkpoint.read = _ := read_last hends.rest
  have hquiet : (s.appendOp .return).checkpoint.diagnostics = #[] := hends.diagnostics
  unfold compile
  rw [outcome_ofState, hprogram, hread, if_pos (by rw [hquiet]; rfl)]
  rfl

/-- Code that puts a constant through some operators and returns what comes of it. -/
structure ReturnsConstant (script : Function Value) (v : Value) (ops : List UInt8) : Prop where
  code : script.chunk.code.toList =
    [Opcode.constant.toByte, 0] ++ (ops ++ [Opcode.return.toByte])
  constants : script.chunk.constants = #[v]

section Scripts

variable {source : String} {t : Token} {v : Value} {line : Nat}

/-- The script that returns a literal. -/
theorem compile_literal (firstId : Identity) (ht : t.Denotes v)
    (hscan : scan source = [returnToken, t, .endAt line]) :
    ∃ script, (compile firstId source).outcome = .ok script ∧ ReturnsConstant script v [] := by
  obtain ⟨o, hopening, -⟩ := id ht
  have hwritten := expression_literal (s := between firstId 4 returnToken t [.endAt line]) ht rfl
    rfl 7 .assignment
  exact ⟨_, compile_return firstId hscan hopening hwritten ⟨rfl, rfl, rfl, rfl⟩, rfl, rfl⟩

/-- The script that returns a literal with a minus sign in front of it. -/
theorem compile_opposite (firstId : Identity) (ht : t.Denotes v)
    (hscan : scan source =
      [returnToken, minusToken, t, .endAt line]) :
    ∃ script, (compile firstId source).outcome = .ok script ∧
      ReturnsConstant script v [Opcode.negate.toByte] := by
  have hkind : t.kind ≠ .invalid := by
    obtain ⟨o, hopening, -⟩ := ht
    rintro hinvalid
    rw [hinvalid] at hopening
    cases hopening
  have hread : (between firstId 4 returnToken minusToken [t, .endAt line]).tick.read =
      between firstId 6 minusToken t [.endAt line] := read_valid rfl hkind
  have hoperand : expression 10 .unary
      (between firstId 4 returnToken minusToken [t, .endAt line]).tick.read =
        ((between firstId 6 minusToken t [.endAt line]).tick.read.pushLiteral v).tick := by
    rw [hread]
    exact expression_literal ht rfl rfl 8 .unary
  have hwritten := expression_opposite rfl hoperand rfl .assignment
  exact ⟨_, compile_return firstId hscan rfl hwritten ⟨rfl, rfl, rfl, rfl⟩, rfl, rfl⟩

end Scripts

/-! ## Running a literal -/

section Runs

variable {World : Type} {host : Host World} {m : Machine World} {f : Frame} {v : Value}

/-- A return ends the program if no call is suspended. -/
theorem outcome_of_return (hcallers : m.callers = [])
    (hcode : f.chunk.Holds f.ip [Opcode.return.toByte]) (hv : f.slots.back? = some v) {limit : Nat}
    (hlimit : 1 ≤ limit) : Session.outcomeOf (ending host limit m f) = .value v := by
  obtain ⟨limit, rfl⟩ := Nat.exists_eq_add_of_le' hlimit
  rw [ending_succ, step_return hcode hv, hcallers]
  rfl

/-- The constant is pushed first. -/
theorem ending_constant (host : Host World) (m : Machine World) {script : Function Value}
    {ops : List UInt8} (h : ReturnsConstant script v ops) (n : Nat) :
    ending host (n + 1) m (scriptFrame script) =
        ending host n m ((scriptFrame script).goTo 2 #[.function script, v]) ∧
      script.chunk.Holds 2 (ops ++ [Opcode.return.toByte]) := by
  have hall := Chunk.Holds.of_code h.code
  have hconstant : script.chunk.constants[(0 : UInt8).toNat]? = some v := by
    rw [h.constants]
    rfl
  refine ⟨?_, hall.right⟩
  rw [ending_succ, step_constant (f := scriptFrame script) hall.left hconstant]
  rfl

/-- A script that returns a constant gives it. -/
theorem outcome_of_constant {script : Function Value} (h : ReturnsConstant script v [])
    (hcallers : m.callers = []) {limit : Nat} (hlimit : 2 ≤ limit) :
    Session.outcomeOf (ending host limit m (scriptFrame script)) = .value v := by
  obtain ⟨limit, rfl⟩ := Nat.exists_eq_add_of_le' hlimit
  obtain ⟨hconstant, hcode⟩ := ending_constant host m h (limit + 1)
  rw [hconstant]
  exact outcome_of_return (f := (scriptFrame script).goTo 2 _) hcallers hcode rfl
    (Nat.le_add_left ..)

/-- A script that returns the opposite of a number gives it. -/
theorem outcome_of_opposite {script : Function Value} {x : Float}
    (h : ReturnsConstant script (.number x) [Opcode.negate.toByte]) (hcallers : m.callers = [])
    {limit : Nat} (hlimit : 3 ≤ limit) :
    Session.outcomeOf (ending host limit m (scriptFrame script)) = .value (.number (-x)) := by
  obtain ⟨limit, rfl⟩ := Nat.exists_eq_add_of_le' hlimit
  obtain ⟨hconstant, hcode⟩ := ending_constant host m h (limit + 2)
  have hslots : #[.function script, .number x] = #[Value.function script].push (.number x) := rfl
  have hnegate : m.step host ((scriptFrame script).goTo 2 #[.function script, .number x]) =
      .running ((scriptFrame script).goTo 3 #[.function script, .number (-x)]) m :=
    step_unary (f := (scriptFrame script).goTo 2 _) rfl hcode.left hslots
  rw [hconstant, ending_succ, hnegate]
  exact outcome_of_return (f := (scriptFrame script).goTo 3 _) hcallers hcode.right rfl
    (Nat.le_add_left ..)

end Runs

/-! ## Sessions -/

/-- A finite number is neither of the other two sorts. -/
theorem finite_cases {x : Float} (h : x.isFinite = true) :
    x.isNaN = false ∧ x.isInf = false := by
  have hunpack : x.toModel.unpack.isFinite = true := h
  show x.toModel.unpack.isNaN = false ∧ x.toModel.unpack.isInf = false
  cases hx : x.toModel.unpack <;> rw [hx] at hunpack <;> first | exact ⟨rfl, rfl⟩ | cases hunpack

namespace Session

variable {World : Type}

/-- Every program finds that no call is suspended. -/
theorem callers_opened (host : Host World) (world : World) (switches : Switches)
    (level : LogLevel) (natives : List Signature) (history : List (Nat × String)) :
    (opened host world switches level natives history).machine.callers = [] := by
  have hinstall : ((start host world switches level).install natives).machine.callers = [] :=
    List.foldlRecOn natives Machine.defineNative
      (motive := fun m : Machine World => m.callers = []) rfl fun _ hm _ _ => hm
  refine List.foldlRecOn history _ (motive := fun s : Session World => s.machine.callers = [])
    hinstall fun s hs p _ => ?_
  cases h : (s.compiled p.2).outcome with
  | error diagnostics =>
    rw [interpret_refused h]
    exact hs
  | ok script =>
    rw [(interpret_eq h p.1).2]
    rfl

/-- Returning a literal gives its value. -/
theorem interpret_literal {s : Session World} (hcallers : s.machine.callers = []) {k : TokenKind}
    {text : String} {v : Value} (hspells : k.Spells text.toList)
    (hdenotes : ∀ line, Token.Denotes ⟨k, text, line⟩ v) {limit : Nat} (hlimit : 2 ≤ limit) :
    (s.interpret limit ("return " ++ text)).1.outcome = .value v := by
  obtain ⟨line, hscan⟩ := scan_return hspells
  obtain ⟨script, hok, hreturns⟩ :=
    compile_literal s.machine.store.nextId (hdenotes line) hscan
  rw [(interpret_eq hok limit).1]
  exact outcome_of_constant (m := s.loaded _) hreturns hcallers hlimit

/-- Returning a number with a minus sign in front of it gives the opposite number. -/
theorem interpret_opposite {s : Session World} (hcallers : s.machine.callers = []) {k : TokenKind}
    {text : String} {x : Float} (hspells : k.Spells text.toList)
    (hdenotes : ∀ line, Token.Denotes ⟨k, text, line⟩ (.number x)) {limit : Nat}
    (hlimit : 3 ≤ limit) :
    (s.interpret limit ("return " ++ ("-" ++ text))).1.outcome = .value (.number (-x)) := by
  obtain ⟨line, hscan⟩ := scan_return_minus hspells
  obtain ⟨script, hok, hreturns⟩ :=
    compile_opposite s.machine.store.nextId (hdenotes line) hscan
  rw [(interpret_eq hok limit).1]
  exact outcome_of_opposite (m := s.loaded _) hreturns hcallers hlimit

theorem interpret_number {s : Session World} (hcallers : s.machine.callers = []) {x : Float}
    (hfinite : x.isFinite = true) {limit : Nat} (hlimit : 3 ≤ limit) :
    (s.interpret limit ("return " ++ (Value.number x).toText)).1.outcome = .value (.number x) := by
  obtain ⟨hnan, hinf⟩ := finite_cases hfinite
  have hspells := (Number.shortest x).spells_toText
  have hdenotes := denotes_number (Number.shortest x).ofText_toText
  have hsigned := Number.signed_shortest hfinite
  have htext : (Value.number x).toText =
      (if Number.isNegative x then "-" else "") ++ (Number.shortest x).toText := by
    show Number.toText x = _
    rw [Number.toText, hnan, hinf]
    rfl
  rw [htext]
  cases hnegative : Number.isNegative x with
  | true =>
    rw [hnegative] at hsigned
    rw [if_pos rfl, interpret_opposite hcallers hspells hdenotes hlimit]
    exact congrArg (fun x => Outcome.value (.number x)) hsigned
  | false =>
    rw [hnegative] at hsigned
    rw [if_neg Bool.false_ne_true, String.empty_append,
      interpret_literal hcallers hspells hdenotes (Nat.le_of_succ_le hlimit)]
    exact congrArg (fun x => Outcome.value (.number x)) hsigned

theorem interpret_string {s : Session World} (hcallers : s.machine.callers = []) {text : String}
    (hclosed : '"' ∉ text.toList) {limit : Nat} (hlimit : 2 ≤ limit) :
    (s.interpret limit ("return " ++ ("\"" ++ text ++ "\""))).1.outcome =
      .value (.string text) := by
  have hspells : TokenKind.string.Spells ("\"" ++ text ++ "\"").toList := by
    have hlist : ("\"" ++ text ++ "\"").toList = '"' :: text.toList ++ ['"'] := by
      rw [String.toList_append, String.toList_append]
      rfl
    rw [hlist]
    exact .string hclosed
  exact interpret_literal hcallers hspells (denotes_string text) hlimit

end Session

/-- A literal is read back as it was written.  Where no call is suspended, as between any two
programs, returning the written form of a finite number gives that very number, and returning a
text between quotes gives the text. -/
theorem literals_read_back {World : Type} {s : Session World} (hcallers : s.machine.callers = [])
    {limit : Nat} (hlimit : 3 ≤ limit) :
    (∀ x : Float, x.isFinite = true →
      (s.interpret limit ("return " ++ (Value.number x).toText)).1.outcome =
        .value (.number x)) ∧
    ∀ text : String, '"' ∉ text.toList →
      (s.interpret limit ("return " ++ ("\"" ++ text ++ "\""))).1.outcome =
        .value (.string text) :=
  ⟨fun _ hfinite => Session.interpret_number hcallers hfinite hlimit,
    fun _ hclosed => Session.interpret_string hcallers hclosed (Nat.le_of_succ_le hlimit)⟩

/-- A console in which a program has failed. -/
def usedConsole : Session Console :=
  .opened Console.host {} {} .off Console.natives [(9, "var x = \"a\" return x - 1")]

/-- Negative zero, the smallest of all positive numbers, and a text that looks like a comment and
goes on behind the end of its line. -/
theorem literals_read_back_console :
    (usedConsole.interpret 3 "return -0").1.outcome = .value (.number (-0)) ∧
      (usedConsole.interpret 3 ("return " ++ (Value.number (.ofBits 1)).toText)).1.outcome =
        .value (.number (.ofBits 1)) ∧
      (usedConsole.interpret 3 "return \"é // \n\"").1.outcome = .value (.string "é // \n") := by
  have hcallers : usedConsole.machine.callers = [] := Session.callers_opened ..
  obtain ⟨hnumbers, htexts⟩ := literals_read_back hcallers (Nat.le_refl 3)
  have hzero : (-0 : Float).isFinite = true ∧ (Value.number (-0)).toText = "-0" := by
    decide +kernel
  have hleast : (Float.ofBits 1).isFinite = true := by decide +kernel
  have hsource : "return " ++ ("\"" ++ "é // \n" ++ "\"") = "return \"é // \n\"" := by decide
  refine ⟨?_, hnumbers _ hleast, ?_⟩
  · rw [show "return -0" = "return " ++ "-0" by decide, ← hzero.2]
    exact hnumbers _ hzero.1
  · rw [← hsource]
    exact htexts _ (by decide)

end ScriptEngine
