import ScriptEngine.Proofs.Abreast.Statement
import ScriptEngine.Proofs.Compile.ProgramCode
set_option autoImplicit false

/-!
# Two compilations abreast: programs

Declarations keep two compilations abreast (`declarationsAbreast`), and so do whole sources
that hold the same tokens: both are accepted, with functions that match, or both are
refused, with diagnostics that match (`matches_ofState_compileTokens`).  So the layout of a
source does not matter (`compile_matches_of_relaid`).
-/

namespace ScriptEngine

namespace Compile

open State

section Programs

variable {σ : Latitude} {n : Nat} {l : Ledger} {ls : List Ledger} {s s' : State}
  {depth depth' : Nat}

/-- What is proved of the declarations at once, for two bounds on the depth of which the first
one is never reached. -/
structure DeclarationsAbreast (σ : Latitude) (depth depth' : Nat) : Prop where
  declaration : ∀ n, 2 * n + 2 ≤ depth →
    PassAbreast σ n (declaration depth) (declaration depth')
  declarations : ∀ n, 2 * n + 3 ≤ depth →
    BlockAbreast σ n (declarations depth) (declarations depth')

theorem declaration_succ (hle : depth ≤ depth') (h : DeclarationsAbreast σ depth depth')
    (hdepth : 2 * n + 2 ≤ depth + 1) :
    PassAbreast σ n (declaration (depth + 1)) (declaration (depth' + 1)) where
  left := (formsAct (depth + 1)).declaration
  right := (formsAct (depth' + 1)).declaration
  keeps {l ls s s'} hs := by
    have hexpressions := expressionsAbreast σ hle
    have hforms := formsAct depth
    have hforms' := formsAct depth'
    have hmiss : MissesEnd (expression depth .assignment) := by
      obtain ⟨d, rfl⟩ : ∃ d, depth = d + 1 := ⟨depth - 1, by omega⟩
      exact fun s hcalm hend => not_isQuiet_expression_of_end hcalm hend
    unfold Compile.declaration
    dsimp only
    refine (hs.tick.checkpoint.anyForm (hexpressions.expression _ n (by omega)) hmiss
      (fun hpos => ⟨hexpressions.expression _ _ (by omega), h.declaration _ (by omega),
        h.declarations _ (by omega)⟩) ?_ ?_).recover.checkpoint
    · exact actions_anyForm (hforms.expression _) hforms.declaration hforms.declarations
    · exact actions_anyForm (hforms'.expression _) hforms'.declaration hforms'.declarations

theorem declarations_succ (h : DeclarationsAbreast σ depth depth')
    (hdepth : 2 * n + 3 ≤ depth + 1) :
    BlockAbreast σ n (declarations (depth + 1)) (declarations (depth' + 1)) where
  left := (formsAct (depth + 1)).declarations
  right := (formsAct (depth' + 1)).declarations
  keeps {l ls s s'} hs hstops := by
    have hleft := (formsAct (depth + 1)).declarations s
    have hright := (formsAct (depth' + 1)).declarations s'
    refine hs.branch hleft hright fun hr => ?_
    rcases hr.current with hmatch | ⟨hmore, hend, -⟩
    · have hsees : ∀ k, s'.sees k = s.sees k := fun k => by
        unfold sees
        rw [hmatch.kind]
      unfold Compile.declarations at hstops ⊢
      rw [hsees, hsees]
      split
      · exact hs.tick
      · next hgoesOn =>
        rw [if_neg hgoesOn] at hstops
        have hnoEnd : ¬ s.tick.sees .endOfSource := fun hend => hgoesOn (by
          rw [Bool.or_eq_true]
          exact .inr hend)
        obtain ⟨d, rfl⟩ : ∃ d, depth = d + 2 := ⟨depth - 2, by omega⟩
        have hlt : (Compile.declaration (d + 2) s.tick).left < s.left :=
          left_declaration_lt hnoEnd
        have hlast := hr.left
        have hfirst := (h.declaration n (by omega)).keeps hs.tick
        exact ((h.declarations (n - 1) (by omega)).keeps
          (hfirst.exactly.weaken (by omega)) hstops).weaken (Nat.sub_le n 1)
    · refine absurd ?_ (hstops hmore)
      have hsees : s.sees .endOfSource = true := beq_iff_eq.mpr hend
      unfold Compile.declarations
      rw [hsees, Bool.or_true]
      exact hsees

/-- Declarations keep two compilations abreast. -/
theorem declarationsAbreast (σ : Latitude) (h : depth ≤ depth') :
    DeclarationsAbreast σ depth depth' := by
  induction depth generalizing depth' with
  | zero => exact ⟨fun _ hn => absurd hn (by omega), fun _ hn => absurd hn (by omega)⟩
  | succ depth ih =>
    obtain ⟨depth', rfl⟩ : ∃ k, depth' = k + 1 := ⟨depth' - 1, by omega⟩
    have hle := Nat.le_of_succ_le_succ h
    exact ⟨fun _ hn => declaration_succ hle (ih hle) hn,
      fun _ hn => declarations_succ (ih hle) hn⟩

/-! ## Sources with the same tokens -/

/-- Programs go abreast to the end of their sources, if these are of the same length. -/
theorem Latitude.Abreast.program {limit limit' : Nat} (halone : σ.beyond = [])
    (hdepth : 2 * n + 2 ≤ depth) (hle : depth ≤ depth') (hlimit : n + 1 ≤ limit)
    (hlimits : limit ≤ limit') (h : σ.Abreast n (l :: ls) s s') :
    σ.Abreast n (l :: ls) (program depth limit s) (program depth' limit' s') := by
  induction limit generalizing n limit' s s' with
  | zero => omega
  | succ limit ih =>
    obtain ⟨limit', rfl⟩ : ∃ k, limit' = k + 1 := ⟨limit' - 1, by omega⟩
    refine h.branch (actions_program ..) (actions_program ..) fun hr => ?_
    have hmatch := hr.current.resolve_right fun hmore => hmore.1 halone
    have hsees : s'.sees .endOfSource = s.sees .endOfSource := by
      unfold sees
      rw [hmatch.kind]
    unfold Compile.program
    rw [hsees]
    split
    · exact h.read (.inr halone)
    · next hnoEnd =>
      obtain ⟨d, rfl⟩ : ∃ d, depth = d + 2 := ⟨depth - 2, by omega⟩
      have hlt : (Compile.declaration (d + 2) s.tick).left < s.left :=
        left_declaration_lt (s := s.tick) hnoEnd
      have hlast := hr.left
      have hfirst := ((declarationsAbreast σ hle).declaration n hdepth).keeps h.tick
      exact (ih (n := n - 1) (by omega) (by omega) (by omega)
        (hfirst.exactly.weaken (by omega))).weaken (Nat.sub_le n 1)

/-- Two compilations start abreast if the sources hold the same tokens. -/
theorem Latitude.abreast_initial (hline : σ.lines 1 1) (halone : σ.beyond = [])
    {tokens tokens' : List Token}
    (htokens : List.Forall₂ (Token.Matches σ.lines) tokens tokens') :
    σ.Abreast tokens.length [{}] (initial σ.first tokens) (initial σ.first' tokens') :=
  fun _ => {
    feed := .same halone (.cons ⟨rfl, rfl, hline⟩ htokens)
    previous := ⟨rfl, rfl, hline⟩
    recovering := rfl
    calm := fun _ => rfl
    diagnostics := .nil
    nextId := ⟨0, rfl, rfl⟩
    builders := .cons ⟨rfl, rfl, rfl, rfl, rfl, rfl, Iff.rfl, Ledger.relatesChunks_empty _⟩ .nil
    plain := fun _ => List.forall_mem_singleton.mpr ⟨rfl, rfl⟩
    left := Nat.le_refl _ }

/-- Sources with the same tokens are compiled abreast. -/
theorem Latitude.abreast_compileTokens (hline : σ.lines 1 1) (halone : σ.beyond = [])
    {tokens tokens' : List Token}
    (htokens : List.Forall₂ (Token.Matches σ.lines) tokens tokens') :
    σ.Abreast tokens.length [{}] (compileTokens σ.first tokens)
      (compileTokens σ.first' tokens') := by
  have hread := (σ.abreast_initial hline halone htokens).read (.inr halone)
  have hlength := htokens.length_eq
  unfold compileTokens
  rw [← hlength]
  exact hread.program halone (by unfold depthFor; omega) (Nat.le_refl _) (by omega)
    (Nat.le_refl _)

end Programs

end Compile

/-! ## Outcomes -/

/-- Both sources are accepted, with functions that match, or both are refused, with
diagnostics that match one by one. -/
def Compilation.Matches (M : Matching) (c c' : Compilation) : Prop :=
  match c.outcome, c'.outcome with
  | .ok f, .ok f' => f.Matches M f'
  | .error ds, .error ds' => List.Forall₂ (Diagnostic.Matches M.lines) ds.toList ds'.toList
  | _, _ => False

namespace Compile

section Outcomes

variable {σ : Latitude} {n : Nat} {s s' : State}

/-- States that correspond lead to the same conclusion, and as many identities are given to
functions on either side. -/
theorem Latitude.Abreast.ofState (h : σ.Abreast n [{}] s s') (hstrict : σ.strict = true) :
    (∃ k, (Compilation.ofState s).nextId = σ.first + k ∧
      (Compilation.ofState s').nextId = σ.first' + k) ∧
    (Compilation.ofState s).Matches (σ.matching (Compilation.ofState s).nextId)
      (Compilation.ofState s') := by
  have hr := h.returnNil (.inl hstrict)
  obtain ⟨k, hk, hk'⟩ := hr.nextId
  refine ⟨⟨k + 1, congrArg (· + 1) hk, congrArg (· + 1) hk'⟩, ?_⟩
  have hdiagnostics := hr.diagnostics
  unfold Compilation.Matches Compilation.ofState State.finishFunction
  dsimp only [State.leaveFunction]
  rw [isEmpty_eq_of_forall₂ hdiagnostics]
  by_cases haccepted : s.returnNil.diagnostics.isEmpty = true
  · rw [if_pos haccepted, if_pos haccepted]
    exact hr.finish rfl rfl
  · rw [if_neg haccepted, if_neg haccepted]
    exact hdiagnostics

/-- Sources with the same tokens are compiled with the same outcome, whichever identities are
free. -/
theorem matches_ofState_compileTokens (hstrict : σ.strict = true) (hline : σ.lines 1 1)
    {tokens tokens' : List Token}
    (htokens : List.Forall₂ (Token.Matches σ.lines) tokens tokens') :
    (∃ k, (Compilation.ofState (compileTokens σ.first tokens)).nextId = σ.first + k ∧
      (Compilation.ofState (compileTokens σ.first' tokens')).nextId = σ.first' + k) ∧
    (Compilation.ofState (compileTokens σ.first tokens)).Matches
      (σ.matching (Compilation.ofState (compileTokens σ.first tokens)).nextId)
      (Compilation.ofState (compileTokens σ.first' tokens')) :=
  (σ.abreast_compileTokens hline (σ.alone hstrict) htokens).ofState hstrict

end Outcomes

end Compile

/-! ## The layout of a source -/

theorem Compilation.Matches.mono {M N : Matching} {c c' : Compilation} (h : c.Matches M c')
    (hMN : M.Grows N) : c.Matches N c' := by
  unfold Compilation.Matches at h ⊢
  split
  · next hok hok' =>
    rw [hok, hok'] at h
    exact Value.Matches.mono h hMN
  · next herror herror' =>
    rw [herror, herror'] at h
    exact h.imp fun _ _ hd => { hd with line := hMN.lines hd.line }
  · next hok herror =>
    split at h
    · next hok₁ hok₂ => exact absurd hok₂ (hok _ _ hok₁)
    · next herror₁ herror₂ => exact absurd herror₂ (herror _ _ herror₁)
    · exact h

/-- The same identities are free, the sources may be wrong, and lines do not matter. -/
def Compile.Latitude.relaid (firstId : Identity) : Compile.Latitude where
  lines _ _ := True
  first := firstId
  first' := firstId
  strict := true
  beyond := []
  alone _ := rfl
  apart _ h := nomatch h

theorem Compile.Latitude.relaid_grows (firstId next : Identity) :
    ((relaid firstId).matching next).Grows .upToLines where
  ids h := by
    obtain ⟨-, k, rfl, rfl⟩ := h
    rfl
  cells h := h.elim
  lines h := h

/-- Blanks, comments and line breaks between tokens do not change what a source means: two
sources with the same tokens are both accepted, with the same script but for its lines, or
both refused, for the same reasons at the same places but for their lines.  This does not rest on
how lines are counted: sources may have so many of them that a number of 32 bits wraps around. -/
theorem compile_matches_of_relaid (firstId : Identity) {source source' : String}
    (h : (scan source).map (fun t => (t.kind, t.lexeme)) =
      (scan source').map (fun t => (t.kind, t.lexeme))) :
    (compile firstId source).Matches .upToLines (compile firstId source') := by
  have htokens : List.Forall₂ (Token.Matches fun _ _ => True) (scan source) (scan source') := by
    refine (List.forall₂_map_left_iff.mp (List.forall₂_map_right_iff.mp
      (List.forall₂_eq_eq_eq ▸ h))).imp fun t t' heq => ?_
    obtain ⟨hkind, hlexeme⟩ := Prod.mk.inj heq
    exact ⟨hkind.symm, hlexeme.symm, trivial⟩
  obtain ⟨-, hmatch⟩ :=
    Compile.matches_ofState_compileTokens (σ := .relaid firstId) rfl trivial htokens
  exact hmatch.mono (Compile.Latitude.relaid_grows firstId _)

/-- A function that captures, written on one line and on five, is accepted either way. -/
theorem compile_matches_of_relaid_counter :
    let short := "fn count(n) \x7b fn step() \x7b return n + n \x7d return step \x7d"
    let long := "fn count( n )\n\x7b // from n\n  fn step() \x7b return n+n \x7d\n" ++
      "  return step\n\x7d"
    (scan short).map (fun t => (t.kind, t.lexeme)) =
        (scan long).map (fun t => (t.kind, t.lexeme)) ∧
      (scan short).map (·.line) ≠ (scan long).map (·.line) ∧
      (compile 0 short).outcome.isOk = true ∧ (compile 0 long).outcome.isOk = true ∧
      (compile 0 short).Matches .upToLines (compile 0 long) :=
  ⟨by decide +kernel, by decide +kernel, by decide +kernel, by decide +kernel,
    compile_matches_of_relaid 0 (by decide +kernel)⟩

end ScriptEngine
