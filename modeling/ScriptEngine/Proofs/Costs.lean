import ScriptEngine.Proofs.Compile.StatementWalk
set_option autoImplicit false

/-!
# Costs: how long a compilation can take

Whatever the source is, compiling it takes a number of steps that is at most linear in
the number of its tokens, and its forms nest no deeper than that
(`compile_takes_linear`).  Each loop of the compiler and each form that holds another one
reads a token first, or stands at the end of the source, where nothing is nested any
more (`State.Progresses`); this is so in every state, whatever was reported before.
-/

namespace ScriptEngine.Compile

open State

/-- From this state on, no loop and no form goes on without a token being read. -/
structure State.Progresses (s : State) : Prop where
  /-- What a block or a program goes on with after a declaration. -/
  declaration : ∀ depth, ¬ s.sees .endOfSource → (declaration (depth + 2) s).left < s.left
  expression : ∀ depth level, ¬ s.sees .endOfSource →
    (expression (depth + 1) level s).left < s.left
  /-- At the end there is nothing inside an expression. -/
  ending : ∀ depth level, s.sees .endOfSource →
    Compile.expression (depth + 1) level s = s.tick.read.complain (.expected .expression)
  /-- What an expression goes on with after an operator and its operand. -/
  operator : ∀ depth c, s.current.kind.continuation? = some c →
    (s.tick.read.continueExpression (Compile.expression depth) (arguments depth 0) c).left <
      s.left
  /-- What a list of arguments or parameters goes on with after a comma. -/
  argument : ∀ depth count,
    ((Compile.expression depth .assignment s.tick).countArgument count).2.sees .comma →
    ((Compile.expression depth .assignment s.tick).countArgument count).2.read.left < s.left
  parameter : s.parameter.sees .comma → s.parameter.read.left < s.left
  /-- What is skipped to recover from a mistake. -/
  skipped : ¬ s.sees .endOfSource → s.read.left < s.left
  /-- What is dropped because it is no token is not put back. -/
  dropped : s.read.left ≤ s.rest.length

/-- Nothing nests deeper than twice the number of tokens that are left, and a few levels
more: all larger bounds do the same. -/
structure State.Shallow (s : State) : Prop where
  declaration : ∀ depth, 2 * s.left + 2 ≤ depth →
    Compile.declaration depth s = Compile.declaration (2 * s.left + 2) s
  declarations : ∀ depth, 2 * s.left + 3 ≤ depth →
    Compile.declarations depth s = Compile.declarations (2 * s.left + 3) s
  expression : ∀ depth level, 2 * s.left + 1 ≤ depth →
    Compile.expression depth level s = Compile.expression (2 * s.left + 1) level s
  continuations : ∀ depth level, 2 * s.left + 1 ≤ depth →
    Compile.continuations depth level s = Compile.continuations (2 * s.left + 1) level s
  arguments : ∀ depth count, 2 * s.left + 2 ≤ depth →
    Compile.arguments depth count s = Compile.arguments (2 * s.left + 2) count s
  parameters : ∀ limit, s.left < limit → s.parameters limit = s.parameters (s.left + 1)
  skipped : ∀ limit, s.left < limit →
    s.skipToDeclaration limit = s.skipToDeclaration (s.left + 1)

theorem progresses (s : State) : s.Progresses where
  declaration _ hne := left_declaration_lt hne
  expression _ _ hne := left_expression_lt hne
  ending _ _ hend := expression_end hend
  operator depth c hc := by
    have hacts := formsAct depth
    have hne : ¬ s.tick.sees .endOfSource := by
      intro hend
      rw [show s.current.kind = .endOfSource from sees_iff.mp hend] at hc
      cases hc
    exact Nat.lt_of_le_of_lt
      (edits_continueExpression hacts.expression (hacts.arguments 0) c _).left_le
      (left_read_lt hne)
  argument depth count hsees := by
    have hcount : Edits s ((Compile.expression depth .assignment s.tick).countArgument count).2 :=
      (Edit.tick s).edits.trans
        (((formsAct depth).expression _ _).trans (edits_countArgument ..))
    exact Nat.lt_of_lt_of_le (left_comma_lt hsees) hcount.left_le
  parameter hsees := Nat.lt_of_lt_of_le (left_comma_lt hsees) (actions_parameter s).left_le
  skipped hne := left_read_lt hne
  dropped := left_read_le s

theorem shallow (s : State) : s.Shallow where
  declaration depth h :=
    (depthFree depth _).declaration s.left h (Nat.le_refl _) s (Nat.le_refl _)
  declarations depth h :=
    (depthFree depth _).declarations s.left h (Nat.le_refl _) s (Nat.le_refl _)
  expression depth level h :=
    (depthFree depth _).expression s.left level h (Nat.le_refl _) s (Nat.le_refl _)
  continuations depth level h :=
    (depthFree depth _).continuations s.left level h (Nat.le_refl _) s (Nat.le_refl _)
  arguments depth count h :=
    (depthFree depth _).arguments s.left count h (Nat.le_refl _) s (Nat.le_refl _)
  parameters _ h := parameters_limitFree h (Nat.lt_succ_self _)
  skipped _ h := skipToDeclaration_limitFree h (Nat.lt_succ_self _)

/-- A compilation takes at most twelve steps for each token and two more, and nests at
most two levels for each token and two more: no bound on the depth is ever reached, and
a larger one changes nothing. -/
theorem compile_takes_linear (firstId : Identity) (source : String) :
    let count := (scan source).length
    let compiled := compileTokens firstId (scan source)
    compiled.work ≤ 12 * count + 2 ∧
      .depthExhausted ∉ compiled.defects ∧
      (∀ depth limit, 2 * count + 2 ≤ depth → count < limit →
        program depth limit (initial firstId (scan source)).read = compiled) ∧
      ∀ s : State, s.Progresses ∧ s.Shallow := by
  intro count compiled
  obtain ⟨ws, hwalk⟩ := walks_compileTokens firstId (scan source)
  have hdefects : compiled.defects = [] := Moves.defects hwalk.moves (fits_initial ..)
  have hleft : (initial firstId (scan source)).read.left ≤ count := left_read_le _
  refine ⟨?_, ?_, fun depth limit hdepth hlimit => ?_, fun s => ⟨progresses s, shallow s⟩⟩
  · have hdue : (compiled.due : Int) ≤ (initial firstId (scan source)).due + 2 := hwalk.due
    have hstart : (initial firstId (scan source)).due = 12 * count := Nat.zero_add _
    have hwork : compiled.work ≤ compiled.due := Nat.le_add_right _ _
    omega
  · rw [hdefects]
    exact List.not_mem_nil
  · show _ = program (depthFor count) (count + 2) _
    unfold depthFor
    exact program_depthFree (by omega) (by omega) (by omega) (by omega)

end ScriptEngine.Compile
