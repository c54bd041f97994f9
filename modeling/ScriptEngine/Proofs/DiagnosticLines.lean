import ScriptEngine.Proofs.Compile.Reports
set_option autoImplicit false

/-!
# The lines of the diagnostics

The diagnostics of a source that is refused come in the order of their lines
(`diagnostics_ordered`), but for one case: whether a branch or a loop has grown too long is
known only at its end, when the recovery from a mistake in it may have looked at a later line
already (`compile_tooLongLoop`).  This is about sources with fewer than 2^32 - 1 line breaks,
where no line number wraps.
-/

namespace ScriptEngine

open Compile

/-- Of any two diagnostics of a source the second one is on no earlier line, unless it is about
a branch or a loop with too much code in it and the first one is about what comes next. -/
theorem diagnostics_ordered {firstId : Identity} {source : String} {ds : Array Diagnostic}
    (hfew : source.toList.count '\n' < 2 ^ 32 - 1)
    (h : (compile firstId source).outcome = .error ds) :
    ds.toList.Pairwise Diagnostic.MayPrecede := by
  have hordered := (ordered_compileTokens firstId hfew).after (State.unheard_finishFunction _)
  unfold compile Compilation.ofState at h
  dsimp only at h
  split at h
  · cases h
  · cases h
    exact hordered.reports.ordered

/-- A loop on one line, too long, with what is no token on the line behind it. -/
def tooLongLoop : String :=
  "while true \x7b " ++ String.ofList (List.replicate 86 ['x', ' ']).flatten ++ "\x7d\n@\nvar y"

theorem scan_tooLongLoop :
    scan tooLongLoop =
      [⟨.whileWord, "while", 1⟩, ⟨.trueWord, "true", 1⟩, ⟨.leftBrace, "\x7b", 1⟩] ++
        List.replicate 86 ⟨.identifier, "x", 1⟩ ++
          [⟨.rightBrace, "\x7d", 1⟩, ⟨.invalid, "Unexpected character.", 2⟩,
            ⟨.varWord, "var", 3⟩, ⟨.identifier, "y", 3⟩, .endAt 3] := by
  decide +kernel

/-- The mistake on the second line is met while the loop's end is read, and the loop's length
is found fault with after that. -/
theorem compile_tooLongLoop :
    (compile 0 tooLongLoop).outcome =
      .error #[⟨2, .nowhere, .noToken "Unexpected character."⟩,
        ⟨1, .token "\x7d", .loopTooLong⟩] := by
  have hreported : (compileTokens 0 (scan tooLongLoop)).diagnostics =
      #[⟨2, .nowhere, .noToken "Unexpected character."⟩, ⟨1, .token "\x7d", .loopTooLong⟩] := by
    rw [scan_tooLongLoop]
    decide +kernel
  have hfinished : (compileTokens 0 (scan tooLongLoop)).finishFunction.2.2.diagnostics = _ :=
    (State.unheard_finishFunction _).diagnostics.trans hreported
  unfold compile Compilation.ofState
  dsimp only
  rw [hfinished]
  rfl

/-- So the lines of the diagnostics do go back. -/
theorem lines_go_back :
    ∃ ds, (compile 0 tooLongLoop).outcome = .error ds ∧
      ¬ ds.toList.Pairwise fun d e => d.line ≤ e.line :=
  ⟨_, compile_tooLongLoop, by decide⟩

/-- The order that is left holds there: the end of the line was looked at before the loop was
found too long. -/
theorem diagnostics_ordered_tooLongLoop :
    ∃ ds, (compile 0 tooLongLoop).outcome = .error ds ∧ ds.size = 2 ∧
      ds.toList.Pairwise Diagnostic.MayPrecede :=
  ⟨_, compile_tooLongLoop, rfl, diagnostics_ordered (by decide +kernel) compile_tooLongLoop⟩

end ScriptEngine
