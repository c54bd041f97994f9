import ScriptEngine.Proofs.Abreast.Program
import ScriptEngine.Proofs.Joined.Tokens
set_option autoImplicit false

/-!
# Two sources on one another: code

The compiler goes through two sources on one another as through the first one up to its end, and
from there on as through the second one.
-/

namespace ScriptEngine

namespace Compile

open State

/-! ## What was read last -/

namespace State

section Previous

variable (s : State) (p : Token)

/-- The state as if another token had been read last. -/
def withPrevious : State := { s with previous := p }

theorem pull_withPrevious (ts : List Token) :
    (s.withPrevious p).pull ts = (s.pull ts).withPrevious p := by
  induction ts generalizing s with
  | nil => rfl
  | cons t ts ih =>
    by_cases hkind : t.kind = .invalid
    · have hcomplain : (s.withPrevious p).tick.complainAt t (.noToken t.lexeme) =
          (s.tick.complainAt t (.noToken t.lexeme)).withPrevious p := by
        by_cases hsilent : s.isRecovering = true
        · rw [complainAt_of_recovering (s := s.tick) hsilent]
          exact complainAt_of_recovering (s := (s.withPrevious p).tick) hsilent _ _
        · rw [Bool.not_eq_true] at hsilent
          rw [complainAt_of_calm (s := s.tick) hsilent]
          exact complainAt_of_calm (s := (s.withPrevious p).tick) hsilent _ _
      rw [pull_invalid hkind, pull_invalid hkind, hcomplain, ih]
    · rw [pull_valid hkind, pull_valid hkind]
      rfl

theorem read_withPrevious : (s.withPrevious p).read = s.read := by
  unfold read
  rw [show (s.withPrevious p).tick = s.tick.withPrevious p from rfl,
    show (s.withPrevious p).rest = s.rest from rfl, pull_withPrevious]
  rfl

theorem expression_withPrevious (depth : Nat) (level : Precedence) :
    expression (depth + 1) level (s.withPrevious p) = expression (depth + 1) level s := by
  unfold expression
  rw [show (s.withPrevious p).tick = s.tick.withPrevious p from rfl, read_withPrevious]

theorem declaration_withPrevious (depth : Nat) :
    declaration (depth + 2) (s.withPrevious p) = declaration (depth + 2) s := by
  have hanyForm : ∀ (s : State) (d ds : Pass),
      (s.withPrevious p).anyForm (expression (depth + 1) .assignment) d ds =
        s.anyForm (expression (depth + 1) .assignment) d ds := by
    intro s d ds
    unfold anyForm expressionForm
    rw [read_withPrevious, expression_withPrevious]
    rfl
  unfold declaration
  exact congrArg (fun t : State => t.recover.checkpoint) (hanyForm s.tick.checkpoint _ _)

/-- Whole declarations do not depend on the token before them. -/
theorem program_withPrevious (depth limit : Nat) :
    program (depth + 2) (limit + 1) (s.withPrevious p) = program (depth + 2) (limit + 1) s := by
  unfold program
  rw [read_withPrevious, show (s.withPrevious p).tick = s.tick.withPrevious p from rfl,
    declaration_withPrevious]
  rfl

end Previous

end State

/-! ## Up to the end of the first source -/

section Ahead

variable {σ : Latitude} {n : Nat} {l : Ledger} {ls : List Ledger} {s s' : State}
  {depth depth' : Nat}

/-- At the end of the first source the second side has all that is beyond still to read. -/
theorem Latitude.Corresponds.upcoming_of_end (h : σ.Corresponds n ls s s')
    (hmore : σ.beyond ≠ []) (hend : s.sees .endOfSource) :
    s.rest = [] ∧ s'.upcoming = σ.beyond := by
  have hfeed := h.feed
  have hkind : s.current.kind = .endOfSource := beq_iff_eq.mp hend
  generalize hu : s.upcoming = ts, hu' : s'.upcoming = ts' at hfeed ⊢
  cases hfeed with
  | same alone => exact absurd alone hmore
  | @more us us' e _ tokens _ inside =>
    cases tokens with
    | nil =>
      obtain ⟨-, hrest⟩ := List.cons.inj hu
      exact ⟨hrest, rfl⟩
    | cons =>
      obtain ⟨rfl, -⟩ := List.cons.inj hu
      exact absurd hkind (inside _ List.mem_cons_self)

/-- Before its end the first source has a token more. -/
theorem Latitude.Corresponds.rest_pos (h : σ.Corresponds n ls s s') (hmore : σ.beyond ≠ [])
    (hend : ¬ s.sees .endOfSource) : 0 < s.rest.length := by
  have hfeed := h.feed
  generalize hu : s.upcoming = ts, hu' : s'.upcoming = ts' at hfeed
  cases hfeed with
  | same alone => exact absurd alone hmore
  | @more us us' e _ tokens ends =>
    cases tokens with
    | nil =>
      obtain ⟨rfl, -⟩ := List.cons.inj hu
      exact absurd (beq_iff_eq.mpr ends) hend
    | cons =>
      obtain ⟨-, hrest⟩ := List.cons.inj hu
      rw [hrest]
      simp

/-- Where a source is read that goes on behind the end of another one, a program comes to that
end between two declarations. -/
theorem Latitude.program_beyond {limit limit' : Nat} (hmore : σ.beyond ≠ [])
    (hdepth : 2 * n + 2 ≤ depth) (hle : depth ≤ depth') (hlimit : s.rest.length < limit)
    (hlimits : limit ≤ limit') (h : σ.Abreast n (l :: ls) s s')
    (hq : (program depth limit s).IsQuiet) (hq' : (program depth' limit' s').IsQuiet) :
    ∃ t t' m, program depth limit s = t.read ∧
      program depth' limit' s' = program depth' m t' ∧ limit' ≤ m + s.rest.length ∧
      σ.Corresponds n (l :: ls) t t' ∧ t.sees .endOfSource := by
  induction limit generalizing limit' s s' with
  | zero => exact absurd hlimit (Nat.not_lt_zero _)
  | succ limit ih =>
    obtain ⟨limit', rfl⟩ : ∃ k, limit' = k + 1 := ⟨limit' - 1, by omega⟩
    have hbefore := (actions_program depth (limit + 1) s).isQuiet hq
    have hbefore' := (actions_program depth' (limit' + 1) s').isQuiet hq'
    have hr := h (.inr ⟨hbefore, hbefore'⟩)
    by_cases hend : s.sees .endOfSource = true
    · refine ⟨s, s', limit' + 1, ?_, rfl, Nat.le_add_right _ _, hr, hend⟩
      rw [program, if_pos hend]
    · have hnoEnd' : ¬ s'.sees .endOfSource = true := by
        unfold sees
        rw [(hr.current_of_not_end hend).kind]
        exact hend
      rw [program, if_neg hend] at hq
      rw [program, if_neg hnoEnd'] at hq'
      have hfirst := ((declarationsAbreast σ hle).declaration n hdepth).keeps h.tick
      have hcounts := hfirst (.inr ⟨(actions_program ..).isQuiet hq,
        (actions_program ..).isQuiet hq'⟩)
      have hshorter : (declaration depth s.tick).rest.length < s.rest.length := by
        obtain ⟨d, rfl⟩ : ∃ d, depth = d + 2 := ⟨depth - 2, by omega⟩
        have hlt : (declaration (d + 2) s.tick).left < s.left := left_declaration_lt hend
        by_cases hlast : (declaration (d + 2) s.tick).sees .endOfSource = true
        · rw [(hcounts.upcoming_of_end hmore hlast).1]
          exact hr.rest_pos hmore hend
        · unfold left at hlt
          rw [if_neg hend, if_neg hlast] at hlt
          omega
      obtain ⟨t, t', m, heq, heq', hm, hcorresponds, hsees⟩ :=
        ih (by omega) (by omega) hfirst hq hq'
      refine ⟨t, t', m, ?_, ?_, by omega, hcorresponds, hsees⟩
      · rw [program, if_neg hend, heq]
      · rw [program, if_neg hnoEnd', heq']

end Ahead

/-! ## The script between two declarations -/

/-- What is known of a script between two declarations, but for its code. -/
structure Builder.IsScript (b : Builder) : Prop where
  name : b.name = none
  arity : b.arity = 0
  depth : b.depth = 0
  locals : b.locals = [.callee]
  captures : b.captures = []

/-- A source that is read without a mistake leaves a script, and no function around it. -/
theorem isScript_compileTokens {firstId : Identity} {tokens : List Token}
    (hnamed : ∀ t ∈ tokens, t.IsNamed) (hq : (compileTokens firstId tokens).IsQuiet) :
    (compileTokens firstId tokens).Sane ∧ (compileTokens firstId tokens).around = [] ∧
      (compileTokens firstId tokens).builder.IsScript := by
  have hs := sane_initial firstId hnamed
  unfold compileTokens at hq ⊢
  have hq₁ := (actions_program _ _ _).isQuiet hq
  have hs₁ := hs.read hq₁
  have hs₂ := (actions_program (depthFor tokens.length) (tokens.length + 2) _).sane hs₁ hq
  have hleft : (initial firstId tokens).read.left ≤ tokens.length := left_read_le _
  have hbuilder := builder_read hs hq₁
  have haround := (runs_read hs hq₁).stays.around
  have hsettled : Settled (initial firstId tokens).read.builder := by
    rw [hbuilder]
    refine ⟨Nat.one_pos, fun l hl => ⟨0, ?_, Nat.le_refl 0⟩⟩
    rw [List.mem_singleton.mp hl]
    rfl
  have hadvances := advances_program hs₁ hq (by unfold depthFor; omega) (by omega) hsettled
  generalize program (depthFor tokens.length) (tokens.length + 2)
    (initial firstId tokens).read = t at hq hs₂ hadvances ⊢
  have hnone : t.around = [] := by
    have hgrown := haround.trans hadvances.around
    generalize t.around = bs at hgrown
    cases hgrown
    rfl
  have hextends := hadvances.builder
  rw [hbuilder] at hextends
  refine ⟨hs₂, hnone, hextends.name, hextends.arity, hextends.depth, ?_, ?_⟩
  · obtain ⟨new, old, hlocals, hraised, -, hglobal⟩ := hextends.locals
    rw [hlocals, hglobal rfl, List.nil_append]
    cases hraised with
    | @cons _ l _ _ hl hrest =>
      cases hrest
      obtain ⟨name, depth, isCaptured⟩ := l
      obtain rfl : name = "" := hl.name
      obtain rfl : depth = some 0 := hl.depth
      obtain rfl : isCaptured = false := hl.unnamed rfl
      rfl
  · have hlinked := hs₂.linked
    rw [hnone] at hlinked
    cases hlinked with
    | outermost hcaptures => exact hcaptures

/-! ## Two sources -/

/-- The first token is read before anything is compiled. -/
theorem read_initial {firstId : Identity} {t : Token} {ts : List Token}
    (hq : (initial firstId (t :: ts)).read.IsQuiet) :
    (initial firstId (t :: ts)).read =
      { initial firstId (t :: ts) with current := t, rest := ts, work := 1 } := by
  have hpull : ((initial firstId (t :: ts)).tick.pull (t :: ts)).IsQuiet := hq
  unfold State.read
  rw [show (initial firstId (t :: ts)).rest = t :: ts from rfl,
    pull_of_isQuiet (s := (initial firstId (t :: ts)).tick) (fun _ => rfl) hpull]
  rfl

/-- The code in `c` is the code in `c₁` and, behind it, the code in `c₂`, which finds its
constants behind those of `c₁`. -/
structure Joins (c₁ c₂ c : State) : Prop where
  nextId : c.nextId = c₂.nextId
  code : ∃ is js : List Item, c₁.builder.chunk.code.toList = codeOf is ∧
    c₂.builder.chunk.code.toList = codeOf js ∧
    c.builder.chunk.code.toList =
      codeOf is ++ codeOf (js.map (Item.shift c₁.builder.chunk.constants.size)) ∧
    (∀ i ∈ is, i.Fits c₁.builder.chunk.constants) ∧ ∀ i ∈ js, i.Fits c₂.builder.chunk.constants
  constants : c.builder.chunk.constants.toList =
    c₁.builder.chunk.constants.toList ++ c₂.builder.chunk.constants.toList

/-- The identities are given from the same one on, and the second side has `later` to read
behind the end of the first source. -/
def Latitude.followed (first : Identity) (later : List Token)
    (apart : ∀ t, later.head? = some t → t.kind.StandsApart) : Latitude where
  lines := Eq
  first := first
  first' := first
  strict := false
  beyond := later
  alone h := nomatch h
  apart := apart

/-- Both sides read the same source to its end. -/
def Latitude.following (first : Identity) : Latitude :=
  followed first [] standsApart_of_nil

theorem Latitude.eq_of_followed {first next : Identity} {later : List Token}
    {apart : ∀ t, later.head? = some t → t.kind.StandsApart} {v w : Value}
    (h : v.Matches ((followed first later apart).matching next) w) : v = w := by
  refine Value.Matches.eq (fun hab => ?_) (fun hcd => False.elim hcd) id h
  obtain ⟨-, k, rfl, rfl⟩ := hab
  rfl

section Both

variable {first : Identity} {us later : List Token} {e : Token}

/-- The first token of either source is read. -/
theorem corresponds_followed (happart : ∀ t, later.head? = some t → t.kind.StandsApart)
    (hlater : later ≠ []) (hend : e.kind = .endOfSource)
    (hinside : ∀ u ∈ us, u.kind ≠ .endOfSource)
    (hlast : ∀ u, us.getLast? = some u → u.kind ≠ .returnWord)
    (hq : (initial first (us ++ [e])).read.IsQuiet)
    (hq' : (initial first (us ++ later)).read.IsQuiet) :
    (Latitude.followed first later happart).Corresponds (us.length + 1) [{}]
      (initial first (us ++ [e])).read (initial first (us ++ later)).read ∧
    (initial first (us ++ [e])).read.rest.length = us.length := by
  obtain ⟨t, ts, hts⟩ : ∃ t ts, us ++ [e] = t :: ts :=
    List.exists_cons_of_ne_nil (by simp)
  obtain ⟨t', ts', hts'⟩ : ∃ t ts, us ++ later = t :: ts :=
    List.exists_cons_of_ne_nil (by simp [hlater])
  have hlength : ts.length = us.length := by
    have := congrArg List.length hts
    simp only [List.length_append, List.length_cons, List.length_nil] at this
    omega
  have hleft : (initial first (us ++ [e])).read.left ≤ us.length + 1 :=
    Nat.le_trans (left_read_le _) (Nat.le_of_eq (by simp [initial]))
  have hread := read_initial (hts ▸ hq)
  have hread' := read_initial (hts' ▸ hq')
  have hupcoming : (initial first (us ++ [e])).read.upcoming = us ++ [e] := by
    rw [hts, hread]
    rfl
  have hupcoming' : (initial first (us ++ later)).read.upcoming = us ++ later := by
    rw [hts', hread']
    rfl
  refine ⟨?_, by rw [hts, hread]; exact hlength⟩
  have hfeed : (Latitude.followed first later happart).Feed (.endAt 1) (us ++ [e])
      (us ++ later) := by
    refine .more hlater (List.forall₂_same.mpr fun t _ => ⟨rfl, rfl, rfl⟩) hend hinside ?_
    intro t ht
    cases hus : us.getLast? with
    | none =>
      rw [List.getLast?_cons, hus] at ht
      cases ht
      exact nofun
    | some u =>
      rw [List.getLast?_cons, hus] at ht
      cases ht
      exact hlast u hus
  rw [← hupcoming, ← hupcoming'] at hfeed
  rw [hts, hread] at hfeed hleft ⊢
  rw [hts', hread'] at hfeed ⊢
  exact {
    feed := hfeed
    previous := ⟨rfl, rfl, rfl⟩
    recovering := rfl
    calm := fun _ => rfl
    diagnostics := .nil
    nextId := ⟨0, rfl, rfl⟩
    builders := .cons ⟨rfl, rfl, rfl, rfl, rfl, rfl, Iff.rfl, Ledger.relatesChunks_empty _⟩ .nil
    plain := fun h => nomatch h
    left := hleft }

/-- Behind the end of the first source the second one is compiled as if it stood alone, in a
function that holds code already. -/
theorem corresponds_following {t' : State} (hlater : later ≠ [])
    (hupcoming : t'.upcoming = later) (hcalm : t'.isRecovering = false) (hquiet : t'.IsQuiet)
    (haround : t'.around = []) (hscript : t'.builder.IsScript)
    (hlines : t'.builder.chunk.lines.size = t'.builder.chunk.code.size)
    (hreturns : t'.builder.lastOp ≠ some .return)
    (hq : (initial t'.nextId later).read.IsQuiet) :
    (Latitude.following t'.nextId).Corresponds later.length
      [{ code := t'.builder.chunk.code.toList, pool := t'.builder.chunk.constants.toList }]
      ((initial t'.nextId later).read.withPrevious t'.previous) t' := by
  obtain ⟨t, ts, rfl⟩ := List.exists_cons_of_ne_nil hlater
  have hread := read_initial hq
  have hleft := left_read_le (initial t'.nextId (t :: ts))
  rw [hread] at hleft ⊢
  exact {
    feed := by
      rw [hupcoming]
      exact .same rfl (List.forall₂_same.mpr fun t _ => ⟨rfl, rfl, rfl⟩)
    previous := ⟨rfl, rfl, rfl⟩
    recovering := hcalm
    calm := fun _ => rfl
    diagnostics := by
      rw [show t'.diagnostics = #[] from hquiet]
      exact .nil
    nextId := ⟨0, rfl, rfl⟩
    builders := by
      rw [haround]
      refine .cons ⟨hscript.name, hscript.arity, hscript.locals, rfl, hscript.depth,
        hscript.captures, iff_of_false hreturns nofun, ?_, ?_, ?_⟩ .nil
      · exact ⟨[], rfl, (List.append_nil _).symm, List.forall_mem_nil _,
          fun _ => List.forall_mem_nil _⟩
      · refine ⟨t'.builder.chunk.lines.toList, [], (List.append_nil _).symm, ?_, .nil⟩
        rw [Array.length_toList, hlines, Array.length_toList]
      · exact ⟨[], (List.append_nil _).symm, .nil⟩
    plain := fun h => nomatch h
    left := hleft }

/-- From the end of the first source on, the second side writes what it would write if the
second source stood alone. -/
theorem joins_of_corresponds {t t' : State} {n depth limit : Nat}
    (happart : ∀ t, later.head? = some t → t.kind.StandsApart) (hlater : later ≠ [])
    (hr : (Latitude.followed first later happart).Corresponds n [{}] t t')
    (hsees : t.sees .endOfSource) (haround : t.around = []) (hscript : t.builder.IsScript)
    (hroomy : Roomy t.builder) (hreturns : t.builder.lastOp ≠ some .return) (hquiet : t.IsQuiet)
    (hdepth : depthFor later.length ≤ depth) (hlimit : later.length + 2 ≤ limit)
    (hnamed : ∀ t ∈ later, t.IsNamed)
    (hq₂ : (compileTokens t.nextId later).returnNil.IsQuiet)
    (hq : (program depth limit t').returnNil.IsQuiet) :
    Joins t (compileTokens t.nextId later).returnNil (program depth limit t').returnNil := by
  have hq' := (edits_returnNil _).isQuiet hq
  have hq₂' := (edits_returnNil _).isQuiet hq₂
  have hroomy₂ := (sound_compileTokens hnamed hq₂).1.roomy _ List.mem_cons_self
  obtain ⟨k, hk, hk'⟩ := hr.nextId
  have hnext : t'.nextId = t.nextId := hk'.trans hk.symm
  obtain ⟨hbuilders, hthere⟩ : (Ledger.Relates {}
      ((Latitude.followed first later happart).matching t.nextId) t.builder t'.builder) ∧
      t'.around = [] := by
    have hall := hr.builders
    rw [haround] at hall
    generalize t'.around = bs' at hall
    cases hall with
    | cons head tail =>
      cases tail
      exact ⟨head, rfl⟩
  obtain ⟨is, his, his', -, hfits⟩ := hbuilders.chunk.code
  obtain ⟨older, lines, hlines, hnoOlder, hlinesMatch⟩ := hbuilders.chunk.lines
  obtain ⟨pool, hpool, hpoolMatch⟩ := hbuilders.chunk.constants
  have hcode : t'.builder.chunk.code.toList = codeOf is := by
    rw [his']
    exact congrArg codeOf (List.map_id'' Item.shift_zero is)
  have hconstants : t'.builder.chunk.constants.toList = t.builder.chunk.constants.toList := by
    rw [hpool, List.nil_append, ← List.forall₂_eq_eq_eq]
    exact (hpoolMatch.imp fun _ _ => Latitude.eq_of_followed).flip.imp fun _ _ => Eq.symm
  have hlinesSize : t'.builder.chunk.lines.size = t'.builder.chunk.code.size := by
    rw [← Array.length_toList, ← Array.length_toList, hlines,
      List.length_eq_zero_iff.mp hnoOlder, List.nil_append, ← hlinesMatch.length_eq, hcode, ← his,
      Array.length_toList, Array.length_toList]
    exact hroomy.lines
  have hscript' : t'.builder.IsScript := ⟨hbuilders.name.trans hscript.name,
    hbuilders.arity.trans hscript.arity, hbuilders.depth', hbuilders.locals.trans hscript.locals,
    hbuilders.captures.trans hscript.captures⟩
  have hstart := corresponds_following hlater (hr.upcoming_of_end hlater hsees).2
    (hr.recovering.trans (hr.calm hquiet)) ((actions_program ..).isQuiet hq') hthere hscript'
    hlinesSize (mt hbuilders.returns.mp hreturns) (hnext ▸ (actions_program ..).isQuiet hq₂')
  have hprogram := Latitude.Abreast.program rfl (by unfold depthFor; omega) hdepth (by omega)
    hlimit fun _ => hstart
  rw [hnext, show depthFor later.length = 2 * later.length + 2 + 2 from rfl,
    program_withPrevious] at hprogram
  have hend := hprogram.returnNil (.inr ⟨hq₂, hq⟩)
  obtain ⟨js, hjs, hjs', -, hfits₂⟩ := hend.builder.chunk.code
  obtain ⟨pool₂, hpool₂, hpoolMatch₂⟩ := hend.builder.chunk.constants
  obtain ⟨k₂, hk₂, hk₂'⟩ := hend.nextId
  refine ⟨hk₂'.trans hk₂.symm, ⟨is, js, his, hjs, ?_, hfits hroomy.constants,
    hfits₂ hroomy₂.constants⟩, ?_⟩
  · rw [hjs', hcode, hconstants, Array.length_toList]
  · rw [hpool₂, hconstants]
    congr 1
    rw [← List.forall₂_eq_eq_eq]
    exact (hpoolMatch₂.imp fun _ _ => Latitude.eq_of_followed).flip.imp fun _ _ => Eq.symm

/-- The compiler goes through two sources on one another as through the first one up to its
end, and from there on as through the second one. -/
theorem joins_compileTokens (happart : ∀ t, later.head? = some t → t.kind.StandsApart)
    (hlater : later ≠ []) (hend : e.kind = .endOfSource)
    (hinside : ∀ u ∈ us, u.kind ≠ .endOfSource)
    (hlast : ∀ u, us.getLast? = some u → u.kind ≠ .returnWord)
    (hnamed : ∀ t ∈ us ++ [e], t.IsNamed) (hnamed' : ∀ t ∈ later, t.IsNamed)
    (hq₁ : (compileTokens first (us ++ [e])).IsQuiet)
    (hreturns : (compileTokens first (us ++ [e])).builder.lastOp ≠ some .return)
    (hq₂ : (compileTokens (compileTokens first (us ++ [e])).nextId later).returnNil.IsQuiet)
    (hq : (compileTokens first (us ++ later)).returnNil.IsQuiet) :
    Joins (compileTokens first (us ++ [e]))
      (compileTokens (compileTokens first (us ++ [e])).nextId later).returnNil
      (compileTokens first (us ++ later)).returnNil := by
  obtain ⟨hsane, haround, hscript⟩ := isScript_compileTokens hnamed hq₁
  have hroomy := hsane.roomy _ List.mem_cons_self
  have hq' := (edits_returnNil _).isQuiet hq
  obtain ⟨t, t', m, heq₁, heq, hm, hr, hsees⟩ :
      ∃ t t' m, compileTokens first (us ++ [e]) = t.read ∧
        compileTokens first (us ++ later) =
          program (depthFor (us ++ later).length) m t' ∧
        later.length + 2 ≤ m ∧
        (Latitude.followed first later happart).Corresponds (us.length + 1) [{}] t t' ∧
        t.sees .endOfSource := by
    unfold compileTokens at hq₁ hq' ⊢
    obtain ⟨hstart, hlength⟩ := corresponds_followed happart hlater hend hinside hlast
      ((actions_program ..).isQuiet hq₁) ((actions_program ..).isQuiet hq')
    have hpos := List.length_pos_iff.mpr hlater
    obtain ⟨t, t', m, heq₁, heq, hm, hr, hsees⟩ := Latitude.program_beyond hlater
      (by simp [depthFor]) (by simp [depthFor]; omega) (by rw [hlength]; simp; omega)
      (by simp; omega) (fun _ => hstart) hq₁ hq'
    refine ⟨t, t', m, heq₁, heq, ?_, hr, hsees⟩
    rw [hlength, List.length_append] at hm
    omega
  obtain ⟨hid, hbuilder, hnone⟩ := read_leaves t
  rw [heq₁] at hq₁ hq₂ hsane haround hscript hroomy hreturns ⊢
  rw [heq] at hq ⊢
  rw [hid] at hq₂ ⊢
  have hjoins := joins_of_corresponds happart hlater hr hsees (hnone ▸ haround)
    (hbuilder ▸ hscript) (hbuilder ▸ hroomy) (hbuilder ▸ hreturns)
    ((Edit.read t).isQuiet hq₁) (by simp only [depthFor, List.length_append]; omega) hm hnamed'
    hq₂ hq
  refine ⟨hjoins.nextId, ?_, ?_⟩
  · rw [hbuilder]
    exact hjoins.code
  · rw [hbuilder]
    exact hjoins.constants

end Both

end Compile

open Compile in
/-- A script has no name. -/
theorem name_of_compile {firstId : Identity} {source : String} {script : Function Value}
    (hok : (compile firstId source).outcome = .ok script) : script.name = none := by
  unfold compile at hok
  have hscript := @isScript_compileTokens firstId _ (named_scan source)
  generalize compileTokens firstId (scan source) = s at hok hscript
  rw [Compilation.ofState_eq] at hok
  dsimp only at hok
  split at hok
  · next hempty =>
    cases hok
    have hq : s.IsQuiet := (State.edits_returnNil s).isQuiet (Array.isEmpty_iff.mp hempty)
    show s.returnNil.builder.name = none
    unfold State.returnNil
    split <;> exact (hscript hq).2.2.name
  · cases hok

end ScriptEngine
