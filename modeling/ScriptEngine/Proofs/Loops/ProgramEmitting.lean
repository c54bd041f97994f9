import ScriptEngine.Proofs.Compile.ProgramDerivation
import ScriptEngine.Proofs.Loops.FunctionEmitting
import ScriptEngine.Proofs.Loops.LoopEmitting
set_option autoImplicit false

/-!
# Compiling programs to pieces

Whatever spells a declaration, the compiler writes the piece of the declaration for it
(`declarationEmits`).  So the script that a source compiles to is code of the flow of the tree that
the source spells (`scriptFlow`).
-/

namespace ScriptEngine.Compile

open State ScriptEngine.Tree

/-! ## Declarations -/

mutual

/-- The piece of a declaration is written for each of its spellings. -/
theorem declarationEmits : ∀ {d : Declaration} {ws : List Word}, Spells d ws → DeclarationEmits d ws
  | _, _, .var declared => FormEmits.declaration (formEmits_var declared)
  | _, _, .function inside =>
    FormEmits.declaration (formEmits_function (bodyEmits (.inl rfl) inside))
  | _, _, .branch condition apart inside =>
    FormEmits.declaration (formEmits_branch condition apart (declarationEmits inside))
  | _, _, .choice condition apart inside admits other =>
    FormEmits.declaration (formEmits_choice condition apart (declarationEmits inside) admits
      (declarationEmits other))
  | _, _, .loop condition apart inside =>
    FormEmits.declaration (formEmits_loop condition apart (declarationEmits inside))
  | _, _, .count start condition increment inside =>
    FormEmits.declaration (formEmits_count start condition increment (declarationEmits inside))
  | _, _, .block inside => FormEmits.declaration (formEmits_block (bodyEmits (.inl rfl) inside))
  | _, _, .result given => FormEmits.declaration (formEmits_result given)
  | _, _, .expression value => FormEmits.declaration (formEmits_expression value)

theorem bodyEmits {stop : Word} (hstop : stop.kind = .rightBrace ∨ stop.kind = .endOfSource) :
    ∀ {ds : List Declaration} {ws : List Word}, SpellsAll stop ds ws → BodyEmits stop ds ws
  | _, _, .nil => bodyEmits_nil hstop
  | _, _, .cons first admits more =>
    bodyEmits_cons first (declarationEmits first) admits (bodyEmits hstop more)

end

/-! ## Programs -/

section Programs

variable {ν : Naming} {ds : List Declaration} {ws : List Word} {s : State} {depth : Nat}

/-- A program is written up to the end of the source. -/
theorem emits_program {limit : Nat} (hspells : SpellsAll (mark .endOfSource) ds ws)
    (h : Stands ν (ws ++ [mark .endOfSource]) s)
    (hdepth : 2 * (ws ++ [mark .endOfSource]).length + 2 ≤ depth) (hlimit : ws.length < limit)
    (hq : (program depth limit s).IsQuiet) :
    Emits (pieceOfBody ds ν s.nextId) s (program depth limit s) := by
  obtain ⟨limit, rfl⟩ : ∃ n, limit = n + 1 := ⟨limit - 1, by omega⟩
  induction ds generalizing ν ws s limit with
  | nil =>
    cases hspells
    have hend : s.sees .endOfSource = true := h.sees .endOfSource
    have hform : program depth (limit + 1) s = s.read := by
      rw [program, if_pos hend]
    rw [hform] at hq ⊢
    exact emits_read h.inOrder.toSane hq
  | cons d ds ih =>
    cases hspells with
    | @cons _ _ _ ws vs first admits more =>
    have hmore : s.sees .endOfSource = false := by
      have hs := h.toAhead
      rw [List.append_assoc] at hs
      exact (hs.starts first).2
    have hform : program depth (limit + 1) s = program depth limit (declaration depth s.tick) := by
      rw [program, if_neg (by rw [hmore]; exact Bool.false_ne_true)]
    rw [hform] at hq ⊢
    have hfirst := h.first (declarationEmits first) admits hdepth
      ((actions_program _ _ _).isQuiet hq)
    obtain ⟨w, us, rfl, -, -⟩ := starts_of_spells first
    simp only [List.cons_append, List.length_cons, List.length_append] at hdepth hlimit
    obtain ⟨limit, rfl⟩ : ∃ n, limit = n + 1 := ⟨limit - 1, by omega⟩
    have hrest := ih more (hfirst.stands h.suits)
      (by simp only [List.length_append, List.length_cons]; omega) limit (by omega) hq
    rw [hfirst.nextId] at hrest
    exact hfirst.toEmits.append hrest

end Programs

/-- What the script of some declarations does, where their functions get identities from `id`
on. -/
def scriptFlow (ds : List Declaration) (id : Identity) : Flow :=
  (pieceOfBody ds ⟨[""], [], true⟩ id).flow.finish

/-- How many identities the script and its functions get. -/
def scriptCount (ds : List Declaration) (id : Identity) : Nat :=
  (pieceOfBody ds ⟨[""], [], true⟩ id).functions + 1

/-- A source all on one line compiles to code of the flow of the tree that it spells. -/
theorem isCode_compileTokens {firstId : Identity} {tokens : List Token} {ds : List Declaration}
    {ws : List Word} (hwords : tokens.map wordOf = ws ++ [mark .endOfSource])
    (hspells : SpellsAll (mark .endOfSource) ds ws) (hlines : ∀ t ∈ tokens, t.line = 1)
    (hnamed : ∀ t ∈ tokens, t.IsNamed) (hended : Ended (tokens.map Token.kind))
    (hq : (compileTokens firstId tokens).returnNil.IsQuiet) :
    (scriptFlow ds firstId).IsCode (compileTokens firstId tokens).returnNil.builder.chunk.constants
        0 [] (compileTokens firstId tokens).returnNil.builder.chunk.code.toList ∧
      (compileTokens firstId tokens).returnNil.nextId + 1 = firstId + scriptCount ds firstId := by
  have hq₂ := (edits_returnNil _).isQuiet hq
  have hvalid := (derives_compileTokens true hnamed hended hq₂).1
  have hlength := congrArg List.length hwords
  rw [List.length_map, List.length_append, List.length_singleton] at hlength
  obtain ⟨hsane, haround, -⟩ := sound_compileTokens hnamed hq
  unfold compileTokens at hq hq₂ hsane haround ⊢
  have hq₁ := (actions_program _ _ _).isQuiet hq₂
  obtain ⟨hupcoming, horder⟩ := upcoming_start hnamed hended hq₁
  have hs := sane_initial firstId hnamed
  have hbuilder := builder_read hs hq₁
  have hbefore := emits_read hs hq₁
  have hstart :
      Stands ⟨[""], [], true⟩ (ws ++ [mark .endOfSource]) (initial firstId tokens).read := by
    refine ⟨⟨horder, ⟨?_, ?_, ?_, rfl⟩⟩, ⟨?_, hbefore.around, ?_⟩, ?_⟩
    · unfold State.spelled
      rw [hupcoming, hwords]
    · rwa [hupcoming]
    · rw [hupcoming]
      exact List.forall_mem_cons.mpr ⟨rfl, hlines⟩
    · rw [hbuilder]
      rfl
    · rw [hbuilder]
      rfl
    · rw [hbuilder]
      exact ⟨Nat.one_pos, fun l hl => ⟨0, by rw [List.mem_singleton.mp hl]; rfl, Nat.le_refl 0⟩⟩
  have hid : (initial firstId tokens).read.nextId = firstId := hbefore.nextId
  have hlevel : (initial firstId tokens).read.around.length = 0 := hbefore.level_eq
  have hempty : (initial firstId tokens).read.builder.chunk = .empty := by
    rw [hbuilder]
    rfl
  have hlast : (initial firstId tokens).read.hasReturned = false := by
    unfold hasReturned
    rw [hbuilder]
    rfl
  have hwritten := emits_returnNil (emits_program hspells hstart
    (by rw [List.length_append, List.length_singleton]; unfold depthFor; omega) (by omega) hq₂)
    hlast
  rw [hid] at hwritten
  have hcode := hwritten.whole hempty
  have hnextId := hwritten.nextId
  rw [hlevel] at hcode
  rw [hid] at hnextId
  generalize (program (depthFor tokens.length) (tokens.length + 2)
    (initial firstId tokens).read).returnNil = u at *
  have hhomes : homesOf (u.builder :: u.around) = [] := by
    have hlinked := hsane.linked
    rw [haround] at hlinked ⊢
    cases hlinked with
    | outermost hnone =>
      rw [homesOf, hnone]
      rfl
  rw [hhomes] at hcode
  exact ⟨hcode, congrArg (· + 1) hnextId⟩

end ScriptEngine.Compile
