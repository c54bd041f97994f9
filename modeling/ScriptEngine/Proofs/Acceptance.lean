import ScriptEngine.Proofs.Compile.ProgramAcceptance
set_option autoImplicit false

/-!
# Which sources compile

The compiler accepts the programs of the grammar, but for those that break one of the
rules on names and sizes (`accepts_isProgram`).
-/

namespace ScriptEngine

open Compile Compile.State

/-- What the compiler has reported decides what comes of a source. -/
theorem outcome_ofState (s : State) :
    (Compilation.ofState s).outcome =
      if s.diagnostics.isEmpty then .ok (s.returnNil.builder.finish s.returnNil.nextId)
      else .error s.diagnostics := by
  have hdiagnostics : s.returnNil.diagnostics = s.diagnostics := by
    unfold returnNil
    split <;> rfl
  rw [Compilation.ofState_eq, hdiagnostics]

/-- A source that compiles has no invalid token and is a program, under the greedy
reading as well.  A program under the greedy reading, without invalid tokens, compiles,
or the first mistake in it breaks a static rule. -/
theorem accepts_isProgram (firstId : Identity) (source : String) :
    (∀ script, (compile firstId source).outcome = .ok script →
      (∀ t ∈ scan source, t.kind ≠ .invalid) ∧
        ∀ greedy, IsProgram greedy ((scan source).map Token.kind)) ∧
    ((∀ t ∈ scan source, t.kind ≠ .invalid) →
      IsProgram true ((scan source).map Token.kind) →
      (∃ script, (compile firstId source).outcome = .ok script) ∨
        ∃ diagnostics d, (compile firstId source).outcome = .error diagnostics ∧
          diagnostics[0]? = some d ∧ d.complaint.isStatic = true) := by
  have houtcome := outcome_ofState (compileTokens firstId (scan source))
  refine ⟨fun script h => ?_, fun hvalid hprogram => ?_⟩
  · have hq : (compileTokens firstId (scan source)).IsQuiet := by
      have hok := houtcome.symm.trans h
      split at hok
      · next hempty => exact Array.isEmpty_iff.mp hempty
      · cases hok
    exact ⟨(derives_compileTokens true (named_scan source) (ended_scan source) hq).1,
      fun greedy => (derives_compileTokens greedy (named_scan source) (ended_scan source) hq).2⟩
  · have hfine : (compileTokens firstId (scan source)).IsFine := isFine_compileTokens
      (named_scan source) (numeral_scan source) (ended_scan source) hvalid hprogram
    rcases hfine with hq | ⟨d, hd, hstatic⟩
    · refine .inl ⟨_, houtcome.trans (if_pos (Array.isEmpty_iff.mpr hq))⟩
    · refine .inr ⟨_, d, houtcome.trans (if_neg fun hempty => ?_), hd, hstatic⟩
      rw [Array.isEmpty_iff.mp hempty] at hd
      cases hd

end ScriptEngine
