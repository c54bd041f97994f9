import ScriptEngine.Proofs.Compile.FunctionCode
import ScriptEngine.Proofs.Scan
set_option autoImplicit false

/-!
# Compilation: the code of programs

Each declaration leaves a frame as it found it, but for the local that it
declares, however deep it is nested.  A source that compiles therefore makes
sound functions only (`isSound_of_compile`), and the functions in their pools are
among them.
-/

namespace ScriptEngine.Compile

open State

section Forms

variable {left : Nat} {expression declaration declarations : Pass}

/-- A token was read, so that less is left for the parts of a form. -/
theorem left_read_le_pred {s : State} {k : TokenKind} (hk : s.current.kind = k)
    (hend : k ≠ .endOfSource) (hleft : s.left ≤ left) :
    0 < left ∧ s.read.left ≤ left - 1 := by
  have hsees : ¬ s.sees .endOfSource := by
    intro h
    have hkind : s.current.kind = .endOfSource := by simpa [sees] using h
    exact hend (hk.symm.trans hkind)
  have hlt := left_read_lt hsees
  constructor <;> omega

theorem introduces_anyForm (he : PassCarries left expression 0 1)
    (hd : 0 < left → PassAdvances (left - 1) declaration)
    (hds : 0 < left → PassAdvances (left - 1) declarations) {s : State} (hs : s.Sane)
    (hq : (s.anyForm expression declaration declarations).IsQuiet) (hleft : s.left ≤ left)
    (hsettled : Settled s.builder) :
    Introduces s (s.anyForm expression declaration declarations) := by
  have he' : PassCarries (left - 1) expression 0 1 :=
    ⟨he.edits, fun s hs hq h => he.carries s hs hq (Nat.le_trans h (Nat.sub_le ..))⟩
  -- what a keyword starts goes on behind it
  have hkeyword : ∀ {form : Pass}, (∀ s, Actions s (form s)) → (form s.read).IsQuiet →
      (s.read.Sane → Settled s.read.builder → Introduces s.read (form s.read)) →
      Introduces s (form s.read) := by
    intro form hform hq h
    have hq₁ := (hform _).isQuiet hq
    have hread := runs_read hs hq₁
    exact hread.introduces (h (hs.read hq₁) (hread.stays.builder.settled hsettled)) hsettled
  unfold anyForm at hq ⊢
  split at hq
  · next hkind =>
    obtain ⟨hpos, hle⟩ := left_read_le_pred hkind (fun h => nomatch h) hleft
    exact hkeyword (actions_varForm he.edits) hq fun hs₁ h => introduces_varForm he' hs₁ hq hle h
  · next hkind =>
    obtain ⟨hpos, hle⟩ := left_read_le_pred hkind (fun h => nomatch h) hleft
    exact hkeyword (actions_fnForm (hds hpos).actions) hq fun hs₁ h =>
      introduces_fnForm (hds hpos) hs₁ hq hle h
  · next hkind =>
    obtain ⟨hpos, hle⟩ := left_read_le_pred hkind (fun h => nomatch h) hleft
    exact hkeyword (actions_ifForm he.edits (hd hpos).actions) hq fun hs₁ h =>
      (runs_ifForm he' (hd hpos) hs₁ hq hle h).advances.introduces
  · next hkind =>
    obtain ⟨hpos, hle⟩ := left_read_le_pred hkind (fun h => nomatch h) hleft
    exact hkeyword (actions_whileForm he.edits (hd hpos).actions) hq fun hs₁ h =>
      (runs_whileForm he' (hd hpos) hs₁ hq hle h).advances.introduces
  · next hkind =>
    obtain ⟨hpos, hle⟩ := left_read_le_pred hkind (fun h => nomatch h) hleft
    have hloop := advances_countedLoop he' (hd hpos)
    exact hkeyword (actions_inScope hloop.actions) hq fun hs₁ h =>
      (runs_body hloop hs₁ hq hle h).advances.introduces
  · next hkind =>
    obtain ⟨hpos, hle⟩ := left_read_le_pred hkind (fun h => nomatch h) hleft
    have hblock := advances_blockForm (hds hpos)
    exact hkeyword (actions_inScope hblock.actions) hq fun hs₁ h =>
      (runs_body hblock hs₁ hq hle h).advances.introduces
  · next hkind =>
    obtain ⟨hpos, hle⟩ := left_read_le_pred hkind (fun h => nomatch h) hleft
    exact hkeyword (fun s => (edits_returnForm he.edits s).actions) hq fun hs₁ h =>
      (runs_returnForm he' hs₁ hq hle h).advances.introduces
  · exact (runs_expressionForm he hs hq hleft hsettled).advances.introduces

end Forms

/-! ## The mutual forms -/

/-- A compiler in good order has no mistake to recover from. -/
theorem recover_eq {s : State} (hs : s.Sane) : s.recover = s := by
  unfold recover
  rw [hs.calm]
  rfl

theorem runs_tick {s : State} (hs : s.Sane) : Runs s s.tick :=
  runs_of_edits (Edit.tick s).edits hs hs.quiet rfl

/-- A declaration takes at least one token. -/
theorem left_declaration_lt {depth : Nat} {s : State} (hend : ¬ s.sees .endOfSource) :
    (declaration (depth + 2) s).left < s.left := by
  have hforms := formsAct (depth + 1)
  have hread : s.tick.checkpoint.read.left < s.left := left_read_lt (s := s.tick.checkpoint) hend
  have hafter : ∀ t : State, Actions t t.recover.checkpoint := fun t =>
    (actions_recover t).trans (Action.checkpoint _).actions
  unfold Compile.declaration
  dsimp only
  refine Nat.lt_of_le_of_lt (hafter _).left_le ?_
  unfold anyForm
  split
  · exact Nat.lt_of_le_of_lt (actions_varForm (hforms.expression _) _).left_le hread
  · exact Nat.lt_of_le_of_lt (actions_fnForm hforms.declarations _).left_le hread
  · exact Nat.lt_of_le_of_lt (actions_ifForm (hforms.expression _) hforms.declaration _).left_le
      hread
  · exact Nat.lt_of_le_of_lt
      (actions_whileForm (hforms.expression _) hforms.declaration _).left_le hread
  · exact Nat.lt_of_le_of_lt (actions_inScope
      (actions_countedLoop (hforms.expression _) hforms.declaration) _).left_le hread
  · exact Nat.lt_of_le_of_lt (actions_inScope
      (actions_blockForm hforms.declarations) _).left_le hread
  · exact Nat.lt_of_le_of_lt (edits_returnForm (hforms.expression _) _).left_le hread
  · exact Nat.lt_of_le_of_lt (edits_appendOp ..).left_le
      (left_expression_lt (s := s.tick.checkpoint) hend)

/-- What is proved of the declarations at once, for one bound on the depth. -/
structure DeclarationsAdvance (depth : Nat) : Prop where
  declaration : ∀ left, 2 * left + 2 ≤ depth → PassAdvances left (declaration depth)
  declarations : ∀ left, 2 * left + 3 ≤ depth → PassAdvances left (declarations depth)

theorem passAdvances_declaration_succ {depth : Nat} (h : DeclarationsAdvance depth)
    {left : Nat} (hdepth : 2 * left + 2 ≤ depth + 1) :
    PassAdvances left (declaration (depth + 1)) where
  actions := (formsAct (depth + 1)).declaration
  advances s hs hq hleft hsettled := by
    have htick := (Edit.tick s).edits.sane hs hs.quiet
    have hmark := (Action.checkpoint s.tick).sane htick htick.quiet
    have hbefore := (runs_tick hs).trans (runs_checkpoint s.tick)
    have hforms := formsAct depth
    have hform := actions_anyForm (hforms.expression .assignment) hforms.declaration
      hforms.declarations s.tick.checkpoint
    unfold Compile.declaration at hq ⊢
    dsimp only at hq ⊢
    have hq₁ := (actions_recover _).isQuiet ((Action.checkpoint _).isQuiet hq)
    rw [recover_eq (hform.sane hmark hq₁)]
    refine (hbefore.introduces ?_ hsettled).checkpoint
    exact introduces_anyForm
      ((expressionsCarry depth).expression .assignment left (by omega))
      (fun hpos => h.declaration (left - 1) (by omega))
      (fun hpos => h.declarations (left - 1) (by omega)) hmark hq₁ hleft
      ⟨hsettled.nonempty, hsettled.depths⟩

theorem passAdvances_declarations_succ {depth : Nat} (h : DeclarationsAdvance depth)
    {left : Nat} (hdepth : 2 * left + 3 ≤ depth + 1) :
    PassAdvances left (declarations (depth + 1)) where
  actions := (formsAct (depth + 1)).declarations
  advances s hs hq hleft hsettled := by
    unfold Compile.declarations at hq ⊢
    split at hq
    · next hend =>
      rw [if_pos hend]
      exact (runs_tick hs).advances
    · next hend =>
      rw [if_neg hend]
      obtain ⟨d, rfl⟩ : ∃ d, depth = d + 2 := ⟨depth - 2, by omega⟩
      have hforms := formsAct (d + 2)
      have hq₁ := (hforms.declarations _).isQuiet hq
      have hs₀ := (Edit.tick s).edits.sane hs hs.quiet
      have hs₁ := (hforms.declaration _).sane hs₀ hq₁
      have hsees : ¬ s.tick.sees .endOfSource := fun hsees => hend (by
        rw [Bool.or_eq_true]
        exact .inr hsees)
      have hlt : (declaration (d + 2) s.tick).left < s.tick.left :=
        left_declaration_lt hsees
      have hleft₀ : s.tick.left ≤ left := hleft
      have h₁ := (h.declaration left (by omega)).advances _ hs₀ hq₁ hleft₀ hsettled
      have h₂ := (h.declarations (left - 1) (by omega)).advances _ hs₁ hq (by omega)
        (h₁.builder.settled hsettled)
      exact (runs_tick hs).advances.trans (h₁.trans h₂ hsettled) hsettled

/-- The code of each declaration leaves one slot for each local that it declares,
for every bound that is large enough. -/
theorem declarationsAdvance (depth : Nat) : DeclarationsAdvance depth := by
  induction depth with
  | zero => constructor <;> intros <;> omega
  | succ depth ih =>
    exact ⟨fun _ hdepth => passAdvances_declaration_succ ih hdepth,
      fun _ hdepth => passAdvances_declarations_succ ih hdepth⟩

/-! ## Programs -/

theorem advances_program {depth limit : Nat} {s : State} (hs : s.Sane)
    (hq : (program depth limit s).IsQuiet) (hdepth : 2 * s.left + 2 ≤ depth)
    (hlimit : s.left < limit) (hsettled : Settled s.builder) :
    Advances s (program depth limit s) := by
  induction limit generalizing s with
  | zero => exact absurd hlimit (Nat.not_lt_zero _)
  | succ limit ih =>
    unfold program at hq ⊢
    split at hq
    · next hend =>
      rw [if_pos hend]
      exact (runs_read hs hq).advances
    · next hend =>
      rw [if_neg hend]
      obtain ⟨d, rfl⟩ : ∃ d, depth = d + 2 := ⟨depth - 2, by omega⟩
      have hq₁ := (actions_program _ _ _).isQuiet hq
      have hs₀ := (Edit.tick s).edits.sane hs hs.quiet
      have hs₁ := ((formsAct (d + 2)).declaration _).sane hs₀ hq₁
      have hlt : (declaration (d + 2) s.tick).left < s.left := left_declaration_lt hend
      have h₁ := ((declarationsAdvance (d + 2)).declaration s.left hdepth).advances _ hs₀ hq₁
        (Nat.le_refl _) hsettled
      have h₂ := ih hs₁ hq (by omega) (by omega) (h₁.builder.settled hsettled)
      exact (runs_tick hs).advances.trans (h₁.trans h₂ hsettled) hsettled

/-- The end of a source that compiles. -/
theorem sound_compileTokens {firstId : Identity} {tokens : List Token}
    (hnamed : ∀ t ∈ tokens, t.IsNamed)
    (hq : (compileTokens firstId tokens).returnNil.IsQuiet) :
    (compileTokens firstId tokens).returnNil.Sane ∧
      (compileTokens firstId tokens).returnNil.around = [] ∧
      (compileTokens firstId tokens).returnNil.builder.arity = 0 ∧
      (∀ done ∈ (compileTokens firstId tokens).returnNil.finished, done.IsSound) ∧
      Finished.IsSound ⟨(compileTokens firstId tokens).returnNil.builder.finish
        (compileTokens firstId tokens).returnNil.nextId,
        (compileTokens firstId tokens).returnNil.builder.checkpoints⟩ := by
  have hs := sane_initial firstId hnamed
  have hq₂ := (edits_returnNil _).isQuiet hq
  unfold compileTokens at hq hq₂ ⊢
  have hq₁ := (actions_program _ _ _).isQuiet hq₂
  have hs₁ := hs.read hq₁
  have hs₂ := (actions_program (depthFor tokens.length) (tokens.length + 2) _).sane hs₁ hq₂
  have hbuilder := builder_read hs hq₁
  have hleft : (initial firstId tokens).read.left ≤ tokens.length := left_read_le _
  have hsettled : Settled (initial firstId tokens).read.builder := by
    rw [hbuilder]
    refine ⟨Nat.one_pos, fun l hl => ⟨0, ?_, Nat.le_refl 0⟩⟩
    rw [List.mem_singleton.mp hl]
    rfl
  have hread := (runs_read hs hq₁).stays
  have hadv := advances_program hs₁ hq₂ (by unfold depthFor; omega) (by omega) hsettled
  generalize program (depthFor tokens.length) (tokens.length + 2)
    (initial firstId tokens).read = t at hq hq₂ hs₂ hadv ⊢
  generalize (initial firstId tokens).read = r at hbuilder hread hadv
  have hstays := (edits_returnNil t).stays hs₂ hq
  have harity : t.builder.arity = 0 := by
    rw [hadv.builder.arity, hbuilder]
    rfl
  refine ⟨(edits_returnNil t).sane hs₂ hq, ?_, hstays.builder.arity.trans harity, ?_, ?_⟩
  · have haround := hread.around.trans (hadv.around.trans hstays.around)
    generalize t.returnNil.around = bs at haround
    cases haround
    rfl
  · refine hstays.sound (hadv.sound (hread.sound fun done hdone => ?_))
    exact absurd hdone (Array.not_mem_empty _)
  · obtain ⟨Γ, hfits⟩ := exists_fits hadv.builder ⟨[], by rw [hbuilder]; rfl⟩
    have hle := hadv.builder.length_le
    have hlocals : r.builder.locals.length = 1 := by rw [hbuilder]; rfl
    rw [hlocals] at hle
    have hlen : (lowest 1 Γ).length = 1 := length_lowest (hfits.length_eq ▸ hle)
    have hstart : Drafted r.builder (lowest 1 Γ) [(0, lowest 1 Γ)] [] := by
      rw [hbuilder]
      exact drafted_empty rfl rfl fun m hm => absurd hm List.not_mem_nil
    have hplaced := hadv.placed _ Γ [(0, lowest 1 Γ)] [] (RaisedAll.refl _) hfits (by
      rw [hlocals]
      exact ⟨.bare (hfits.lowest Nat.one_pos hle), .inl (Nat.le_of_eq (length_lowest hle)),
        hstart⟩)
    refine sound_returnNil hs₂ hq hfits hplaced ?_ (hfits.lowest Nat.one_pos hle).getLast _
    rw [hlen, harity]

end ScriptEngine.Compile

namespace ScriptEngine

open Compile Compile.State

/-- What is known of a source that compiles. -/
structure Compilation.Succeeds (c : Compilation) (script : Function Value) : Prop where
  /-- The script is one of the functions that are finished. -/
  finished : ∃ done ∈ c.finished, done.function = script
  arity : script.arity = 0
  captureCount : script.captureCount = 0
  sound : ∀ done ∈ c.finished, done.IsSound
  /-- The functions in the pools are finished as well. -/
  closed : ∀ done ∈ c.finished, ∀ f, .function f ∈ done.function.chunk.constants →
    ∃ inner ∈ c.finished, inner.function = f

theorem Compilation.ofState_eq (s : State) : Compilation.ofState s =
    { outcome :=
        if s.returnNil.diagnostics.isEmpty then .ok (s.returnNil.builder.finish s.returnNil.nextId)
        else .error s.returnNil.diagnostics
      finished := s.returnNil.leaveFinished.finished
      nextId := s.returnNil.leaveFinished.nextId } := rfl

/-- Whatever compiles is sound, with all the functions in it. -/
theorem succeeds_of_compile {firstId : Identity} {source : String} {script : Function Value}
    (h : (compile firstId source).outcome = .ok script) :
    (compile firstId source).Succeeds script := by
  unfold compile at h ⊢
  have hsound := @sound_compileTokens firstId _ (named_scan source)
  generalize compileTokens firstId (scan source) = s at h hsound ⊢
  rw [Compilation.ofState_eq] at h ⊢
  generalize s.returnNil = t at h hsound ⊢
  dsimp only at h
  split at h
  · next hempty =>
    cases h
    obtain ⟨hs, haround, harity, hold, hnew⟩ := hsound (Array.isEmpty_iff.mp hempty)
    have hleave : t.leaveFinished.Sane := (Action.leave t).sane hs hs.quiet
    refine ⟨?_, harity, ?_, sound_leaveFunction hs hold hnew, hleave.closed⟩
    · refine ⟨⟨_, t.builder.checkpoints⟩, ?_, rfl⟩
      show _ ∈ (t.leaveFunction _).finished
      unfold leaveFunction
      rw [if_pos hempty]
      exact Array.mem_push_self
    · have hlinked := hs.linked
      rw [haround] at hlinked
      cases hlinked with
      | outermost hnone => exact congrArg List.length hnone
  · cases h

end ScriptEngine
