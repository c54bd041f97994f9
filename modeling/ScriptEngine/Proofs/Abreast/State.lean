import ScriptEngine.Proofs.Abreast.Builder
import ScriptEngine.Proofs.Compile.Input
set_option autoImplicit false

/-!
# Two compilations abreast: states

Two compilations go abreast as long as they read the same tokens: they take the same
branches, write the same code and complain of the same mistakes (`Latitude.Corresponds`).
What may differ is given by a `Latitude`: the lines of the tokens, the first identity that
is handed out, and what the second side has written before.

The second side may also have more to read than the first (`Latitude.beyond`).  Then the two
part as soon as the first one misses a token, so this is only asked of sources without a
mistake: `Latitude.Abreast` says that the states correspond if both are still quiet, or in
a strict latitude, where the sources may be wrong, that they correspond anyway.

Every operation on states is taken once here; the forms of the language are built from them.
-/

namespace ScriptEngine

/-! ## Tokens -/

/-- The tokens are the same but for their lines. -/
structure Token.Matches (lines : Nat → Nat → Prop) (t t' : Token) : Prop where
  kind : t'.kind = t.kind
  lexeme : t'.lexeme = t.lexeme
  line : lines t.line t'.line

/-- The diagnostics are the same but for their lines. -/
structure Diagnostic.Matches (lines : Nat → Nat → Prop) (d d' : Diagnostic) : Prop where
  site : d'.site = d.site
  complaint : d'.complaint = d.complaint
  line : lines d.line d'.line

theorem Diagnostic.matches_about {lines : Nat → Nat → Prop} {t t' : Token}
    (h : t.Matches lines t') (c : Complaint) :
    (Diagnostic.about t c).Matches lines (.about t' c) where
  site := by
    show Site.ofToken t' = Site.ofToken t
    unfold Site.ofToken
    rw [h.kind, h.lexeme]
  complaint := rfl
  line := h.line

/-- A token of this kind ends nothing and continues nothing that stands before it. -/
structure TokenKind.StandsApart (k : TokenKind) : Prop where
  noContinuation : k.continuation? = none
  noOther : k ∉ [equal, comma, rightParen, rightBrace, elseWord]

namespace Compile

open State

/-! ## Latitude -/

/-- No token stands behind the end of both sources. -/
theorem standsApart_of_nil (t : Token) (h : ([] : List Token).head? = some t) :
    t.kind.StandsApart :=
  absurd h (Option.some_ne_none t).symm

/-- In what two compilations may differ. -/
structure Latitude where
  lines : Nat → Nat → Prop
  /-- The first identities that are handed out. -/
  first : Identity
  first' : Identity
  /-- The sources may be wrong. -/
  strict : Bool
  /-- What the second side has to read where the source of the first one ends. -/
  beyond : List Token
  alone : strict = true → beyond = []
  apart : ∀ t, beyond.head? = some t → t.kind.StandsApart

namespace Latitude

/-- The identities below `next` that were handed out at the same moment match. -/
def matching (σ : Latitude) (next : Identity) : Matching where
  ids a b := a < next ∧ ∃ k, a = σ.first + k ∧ b = σ.first' + k
  cells _ _ := False
  lines := σ.lines

theorem matching_grows (σ : Latitude) {next next' : Identity} (h : next ≤ next') :
    (σ.matching next).Grows (σ.matching next') where
  ids hab := ⟨Nat.lt_of_lt_of_le hab.1 h, hab.2⟩
  cells := id
  lines := id

/-- What is left to read corresponds. -/
inductive Feed (σ : Latitude) (previous : Token) : List Token → List Token → Prop where
  | same {ts ts' : List Token} (alone : σ.beyond = [])
      (tokens : List.Forall₂ (Token.Matches σ.lines) ts ts') : Feed σ previous ts ts'
  /-- The last token of the first source is not `return`, whose value would be looked for
  in what comes next. -/
  | more {us us' : List Token} {e : Token} (more : σ.beyond ≠ [])
      (tokens : List.Forall₂ (Token.Matches σ.lines) us us') (ends : e.kind = .endOfSource)
      (inside : ∀ u ∈ us, u.kind ≠ .endOfSource)
      (last : ∀ t, (previous :: us).getLast? = some t → t.kind ≠ .returnWord) :
      Feed σ previous (us ++ [e]) (us' ++ σ.beyond)

/-- The states correspond, with at most `n` tokens left on the first side. -/
structure Corresponds (σ : Latitude) (n : Nat) (ls : List Ledger) (s s' : State) : Prop where
  feed : σ.Feed s.previous s.upcoming s'.upcoming
  previous : s.previous.Matches σ.lines s'.previous
  recovering : s'.isRecovering = s.isRecovering
  calm : s.IsQuiet → s.isRecovering = false
  diagnostics : List.Forall₂ (Diagnostic.Matches σ.lines) s.diagnostics.toList
    s'.diagnostics.toList
  nextId : ∃ k, s.nextId = σ.first + k ∧ s'.nextId = σ.first' + k
  builders : Ledger.RelatesAll (σ.matching s.nextId) ls (s.builder :: s.around)
    (s'.builder :: s'.around)
  plain : σ.strict = true → ∀ l ∈ ls, l.code = [] ∧ l.pool = []
  left : s.left ≤ n

/-- It matters whether the states correspond. -/
def Counts (σ : Latitude) (s s' : State) : Prop := σ.strict = true ∨ (s.IsQuiet ∧ s'.IsQuiet)

/-- If it matters, then the states correspond. -/
def Abreast (σ : Latitude) (n : Nat) (ls : List Ledger) (s s' : State) : Prop :=
  σ.Counts s s' → σ.Corresponds n ls s s'

end Latitude

/-! ## Complaints and reading on one side -/

namespace State

section OneSide

variable {s : State} {t : Token} {ts : List Token}

theorem complainAt_of_recovering (h : s.isRecovering = true) (t : Token) (c : Complaint) :
    s.complainAt t c = s :=
  if_pos h

theorem complainAt_of_calm (h : s.isRecovering = false) (t : Token) (c : Complaint) :
    s.complainAt t c =
      { s with isRecovering := true, diagnostics := s.diagnostics.push (.about t c) } :=
  if_neg (by simp [h])

theorem not_isQuiet_of_calm (h : s.isRecovering = false) (t : Token) (c : Complaint) :
    ¬ (s.complainAt t c).IsQuiet := by
  rw [complainAt_of_calm h]
  simp [IsQuiet]

/-- As long as nothing is reported there is nothing to recover from. -/
theorem calm_complainAt (h : s.IsQuiet → s.isRecovering = false) (t : Token) (c : Complaint)
    (hq : (s.complainAt t c).IsQuiet) : (s.complainAt t c).isRecovering = false :=
  absurd hq (not_isQuiet_of_calm (h (isQuiet_of_complainAt hq)) t c)

theorem pull_invalid (h : t.kind = .invalid) (ts : List Token) :
    s.pull (t :: ts) = (s.tick.complainAt t (.noToken t.lexeme)).pull ts := by
  rw [pull, h]

theorem pull_valid (h : t.kind ≠ .invalid) (ts : List Token) :
    s.pull (t :: ts) = { s with current := t, rest := ts } := by
  rw [pull]
  split
  · next hinvalid => exact absurd hinvalid h
  · rfl

/-- Only tokens and diagnostics are touched. -/
theorem pull_eq (ts : List Token) (s : State) :
    ∃ current rest isRecovering diagnostics work,
      s.pull ts = { s with current, rest, isRecovering, diagnostics, work } := by
  induction ts generalizing s with
  | nil => exact ⟨_, _, _, _, _, rfl⟩
  | cons t ts ih =>
    by_cases hkind : t.kind = .invalid
    · rw [pull_invalid hkind]
      obtain ⟨current, rest, isRecovering, diagnostics, work, heq⟩ :=
        ih (s.tick.complainAt t (.noToken t.lexeme))
      refine ⟨current, rest, isRecovering, diagnostics, work, heq.trans ?_⟩
      unfold complainAt
      split <;> rfl
    · rw [pull_valid hkind]
      exact ⟨_, _, _, _, _, rfl⟩

theorem read_leaves (s : State) :
    s.read.nextId = s.nextId ∧ s.read.builder = s.builder ∧ s.read.around = s.around := by
  obtain ⟨_, _, _, _, _, heq⟩ := pull_eq s.rest s.tick
  unfold read
  rw [heq]
  exact ⟨rfl, rfl, rfl⟩

theorem calm_pull (h : s.IsQuiet → s.isRecovering = false) (hq : (s.pull ts).IsQuiet) :
    (s.pull ts).isRecovering = false := by
  induction ts generalizing s with
  | nil => exact h hq
  | cons t ts ih =>
    by_cases hkind : t.kind = .invalid
    · rw [pull_invalid hkind] at hq ⊢
      exact ih (s := s.tick.complainAt t _) (calm_complainAt (s := s.tick) h t _) hq
    · rw [pull_valid hkind] at hq ⊢
      exact h hq

/-- Where no mistake is found, the next token is the current one from now on. -/
theorem pull_of_isQuiet (h : s.IsQuiet → s.isRecovering = false)
    (hq : (s.pull (t :: ts)).IsQuiet) :
    s.pull (t :: ts) = { s with current := t, rest := ts } := by
  by_cases hkind : t.kind = .invalid
  · rw [pull_invalid hkind] at hq
    have hbefore := isQuiet_of_pull hq
    exact absurd hbefore
      (not_isQuiet_of_calm (s := s.tick) (h (isQuiet_of_complainAt (s := s.tick) hbefore)) t _)
  · exact pull_valid hkind ts

theorem calm_guarantee (h : s.IsQuiet → s.isRecovering = false) (holds : Bool) (d : Defect)
    (hq : (s.guarantee holds d).IsQuiet) : (s.guarantee holds d).isRecovering = false := by
  have hbefore := (isQuiet_guarantee ..).mp hq
  unfold guarantee
  split <;> exact h hbefore

theorem Action.calm {t : State} (act : Action s t) (h : s.IsQuiet → s.isRecovering = false)
    (hq : t.IsQuiet) : t.isRecovering = false := by
  cases act with
  | edit edit =>
    cases edit with
    | read => exact calm_pull (s := s.tick) h hq
    | complain => exact calm_complainAt h _ _ hq
    | landJump operand =>
      unfold landJump at hq ⊢
      dsimp only at hq ⊢
      split at hq
      · exact calm_guarantee h _ _ hq
      · exact calm_complainAt (calm_guarantee h _ _) _ _ hq
    | loopBack start =>
      unfold loopBack at hq ⊢
      dsimp only at hq ⊢
      split at hq
      · exact calm_guarantee h _ _ hq
      · refine calm_complainAt (fun hbefore => ?_) _ _ hq
        exact calm_guarantee h (start ≤ s.codeSize) .loopStartsLate hbefore
    | pool v =>
      unfold poolConstant at hq ⊢
      dsimp only at hq ⊢
      split at hq
      · next hroom =>
        rw [if_pos hroom]
        exact h hq
      · next hroom =>
        rw [if_neg hroom]
        refine calm_complainAt (fun hbefore => ?_) _ _ hq
        exact h hbefore
    | _ => exact h hq
  | settle => rfl
  | _ => exact h hq

/-- As long as nothing is reported there is nothing to recover from, whatever is done. -/
theorem Actions.calm {t : State} (acts : Actions s t) (h : s.IsQuiet → s.isRecovering = false)
    (hq : t.IsQuiet) : t.isRecovering = false := by
  induction acts with
  | refl => exact h hq
  | tail _ act ih => exact act.calm ih hq

end OneSide

end State

section States

variable {σ : Latitude} {n m : Nat} {l l' : Ledger} {ls ls' : List Ledger} {s s' t t' : State}

theorem Latitude.Counts.before (h : σ.Counts t t') (hs : Actions s t) (hs' : Actions s' t') :
    σ.Counts s s' :=
  h.imp_right fun hq => ⟨hs.isQuiet hq.1, hs'.isQuiet hq.2⟩

/-- Only what counts has to be looked at, and there the states have corresponded so far. -/
theorem Latitude.Abreast.after (h : σ.Abreast n ls s s') (hs : t.IsQuiet → s.IsQuiet)
    (hs' : t'.IsQuiet → s'.IsQuiet) (hact : σ.Corresponds n ls s s' → σ.Abreast m ls' t t') :
    σ.Abreast m ls' t t' :=
  fun hc => hact (h (hc.imp_right fun hq => ⟨hs hq.1, hs' hq.2⟩)) hc

theorem Latitude.Abreast.branch (h : σ.Abreast n ls s s') (hs : Actions s t)
    (hs' : Actions s' t') (hact : σ.Corresponds n ls s s' → σ.Abreast m ls' t t') :
    σ.Abreast m ls' t t' :=
  h.after hs.isQuiet hs'.isQuiet hact

namespace Latitude.Corresponds

theorem weaken (h : σ.Corresponds n ls s s') (hnm : n ≤ m) : σ.Corresponds m ls s s' :=
  { h with left := Nat.le_trans h.left hnm }

/-- Where the second side has more to read, both are quiet as far as it matters. -/
theorem quiet (hc : σ.Counts s s') (hmore : σ.strict = false) : s.IsQuiet ∧ s'.IsQuiet :=
  hc.resolve_left (by simp [hmore])

/-! ### The current token -/

/-- The current tokens match, unless the first source is at its end and the second is not. -/
theorem current (h : σ.Corresponds n ls s s') :
    s.current.Matches σ.lines s'.current ∨
      (σ.beyond ≠ [] ∧ s.current.kind = .endOfSource ∧ s.rest = [] ∧
        s'.current.kind.StandsApart ∧ s.previous.kind ≠ .returnWord) := by
  have hfeed := h.feed
  unfold upcoming at hfeed
  generalize hu : s.current :: s.rest = ts, hu' : s'.current :: s'.rest = ts' at hfeed
  cases hfeed with
  | same _ tokens =>
    subst hu
    subst hu'
    exact .inl (List.forall₂_cons.mp tokens).1
  | @more us us' e more tokens ends _ last =>
    cases tokens with
    | nil =>
      obtain ⟨hcurrent, hrest⟩ := List.cons.inj hu
      refine .inr ⟨more, hcurrent ▸ ends, hrest, σ.apart _ ?_, last _ rfl⟩
      rw [← show _ = σ.beyond from hu']
      rfl
    | cons htoken _ =>
      obtain ⟨hcurrent, -⟩ := List.cons.inj hu
      obtain ⟨hcurrent', -⟩ := List.cons.inj hu'
      exact .inl (hcurrent ▸ hcurrent' ▸ htoken)

theorem current_of_strict (h : σ.Corresponds n ls s s') (hstrict : σ.strict = true) :
    s.current.Matches σ.lines s'.current :=
  h.current.resolve_right fun hend => hend.1 (σ.alone hstrict)

theorem current_of_not_end (h : σ.Corresponds n ls s s') (hend : ¬ s.sees .endOfSource) :
    s.current.Matches σ.lines s'.current :=
  h.current.resolve_right fun hmore => hend (by simp [sees, hmore.2.1])

/-- A token that stands apart is not one of those that end something. -/
theorem sees_eq (h : σ.Corresponds n ls s s') {k : TokenKind}
    (hk : k ∈ [TokenKind.equal, .comma, .rightParen, .rightBrace, .elseWord]) :
    s'.sees k = s.sees k := by
  unfold sees
  rcases h.current with hmatch | ⟨-, hend, -, happart, -⟩
  · rw [hmatch.kind]
  · have hne : s'.current.kind ≠ k := fun heq => happart.noOther (heq ▸ hk)
    have hne' : s.current.kind ≠ k := by
      rw [hend]
      rintro rfl
      simp at hk
    rw [beq_eq_false_iff_ne.mpr hne, beq_eq_false_iff_ne.mpr hne']

theorem continuation_eq (h : σ.Corresponds n ls s s') :
    s'.current.kind.continuation? = s.current.kind.continuation? := by
  rcases h.current with hmatch | ⟨-, hend, -, happart, -⟩
  · rw [hmatch.kind]
  · rw [happart.noContinuation, hend]
    rfl

/-- As much is left on the second side. -/
theorem rest_le (h : σ.Corresponds n ls s s') : s.rest.length ≤ s'.rest.length := by
  have hlength : s.upcoming.length ≤ s'.upcoming.length := by
    have hfeed := h.feed
    generalize s.upcoming = ts, s'.upcoming = ts' at hfeed
    cases hfeed with
    | same _ tokens => exact Nat.le_of_eq tokens.length_eq
    | more more tokens =>
      rw [List.length_append, List.length_append, tokens.length_eq]
      have := List.length_pos_iff.mpr more
      simp only [List.length_singleton]
      omega
  simpa [upcoming] using hlength

theorem rest_eq_of_strict (h : σ.Corresponds n ls s s') (hstrict : σ.strict = true) :
    s'.rest.length = s.rest.length := by
  have hlength : s.upcoming.length = s'.upcoming.length := by
    have hfeed := h.feed
    generalize s.upcoming = ts, s'.upcoming = ts' at hfeed
    cases hfeed with
    | same _ tokens => exact tokens.length_eq
    | more more => exact absurd (σ.alone hstrict) more
  exact (Nat.succ.inj hlength).symm

end Latitude.Corresponds

/-! ## Steps that leave the functions alone -/

namespace Latitude.Abreast

theorem weaken (h : σ.Abreast n ls s s') (hnm : n ≤ m) : σ.Abreast m ls s s' :=
  fun hc => (h hc).weaken hnm

theorem exactly (h : σ.Abreast n ls s s') : σ.Abreast s.left ls s s' :=
  fun hc => { h hc with left := Nat.le_refl _ }

theorem tick (h : σ.Abreast n ls s s') : σ.Abreast n ls s.tick s'.tick :=
  fun hc => { h hc with }

theorem guarantee (h : σ.Abreast n ls s s') (b b' : Bool) (d d' : Defect) :
    σ.Abreast n ls (s.guarantee b d) (s'.guarantee b' d') := by
  unfold State.guarantee
  split <;> split <;> exact fun hc => { h hc with }

/-- The same complaint is made on both sides, about tokens that match. -/
theorem complainAt {t t' : Token} (h : σ.Abreast n ls s s')
    (ht : σ.Corresponds n ls s s' → σ.strict = true → t.Matches σ.lines t') (c : Complaint) :
    σ.Abreast n ls (s.complainAt t c) (s'.complainAt t' c) := by
  refine h.branch (Edit.complain s t c).edits.actions (Edit.complain s' t' c).edits.actions
    fun hr hc => ?_
  by_cases hrecovering : s.isRecovering = true
  · rw [complainAt_of_recovering hrecovering,
      complainAt_of_recovering (hr.recovering.trans hrecovering)]
    exact hr
  · rw [Bool.not_eq_true] at hrecovering
    rcases hc with hstrict | ⟨hq, -⟩
    · rw [complainAt_of_calm hrecovering, complainAt_of_calm (hr.recovering.trans hrecovering)]
      exact { hr with
        recovering := rfl
        calm := fun hq => absurd hq (by simp [IsQuiet])
        diagnostics := by
          rw [Array.toList_push, Array.toList_push]
          exact List.rel_append hr.diagnostics
            (.cons (Diagnostic.matches_about (ht hr hstrict) c) .nil) }
    · exact absurd hq (not_isQuiet_of_calm hrecovering t c)

theorem complain (h : σ.Abreast n ls s s') (c : Complaint) :
    σ.Abreast n ls (s.complain c) (s'.complain c) :=
  h.complainAt (fun hr _ => hr.previous) c

theorem complainNext (h : σ.Abreast n ls s s') (c : Complaint) :
    σ.Abreast n ls (s.complainNext c) (s'.complainNext c) :=
  h.complainAt (fun hr hstrict => hr.current_of_strict hstrict) c

end Latitude.Abreast

/-! ## Reading -/

/-- Tokens that match are pulled with the same outcome. -/
theorem pull_matches {lines : Nat → Nat → Prop} {ts ts' : List Token}
    (hts : List.Forall₂ (Token.Matches lines) ts ts') (s s' : State)
    (hrecovering : s'.isRecovering = s.isRecovering)
    (hdiagnostics : List.Forall₂ (Diagnostic.Matches lines) s.diagnostics.toList
      s'.diagnostics.toList) (hline : lines s.current.line s'.current.line) :
    List.Forall₂ (Token.Matches lines) (s.pull ts).upcoming (s'.pull ts').upcoming ∧
      (s'.pull ts').isRecovering = (s.pull ts).isRecovering ∧
      List.Forall₂ (Diagnostic.Matches lines) (s.pull ts).diagnostics.toList
        (s'.pull ts').diagnostics.toList := by
  induction hts generalizing s s' with
  | nil => exact ⟨.cons ⟨rfl, rfl, hline⟩ .nil, hrecovering, hdiagnostics⟩
  | @cons t t' ts ts' htoken htokens ih =>
    by_cases hkind : t.kind = .invalid
    · rw [pull_invalid hkind, pull_invalid (htoken.kind.trans hkind), htoken.lexeme]
      by_cases hsilent : s.isRecovering = true
      · rw [complainAt_of_recovering (s := s.tick) hsilent,
          complainAt_of_recovering (s := s'.tick) (hrecovering.trans hsilent)]
        exact ih _ _ hrecovering hdiagnostics hline
      · rw [Bool.not_eq_true] at hsilent
        rw [complainAt_of_calm (s := s.tick) hsilent,
          complainAt_of_calm (s := s'.tick) (hrecovering.trans hsilent)]
        refine ih _ _ rfl ?_ hline
        dsimp only
        rw [Array.toList_push, Array.toList_push]
        exact List.rel_append hdiagnostics (.cons (Diagnostic.matches_about htoken _) .nil)
    · rw [pull_valid hkind, pull_valid (htoken.kind ▸ hkind)]
      exact ⟨.cons htoken htokens, hrecovering, hdiagnostics⟩

namespace Latitude.Corresponds

/-- Both sides have read the token that was their current one. -/
theorem afterRead (h : σ.Corresponds n ls s s')
    (hcurrent : s.current.Matches σ.lines s'.current)
    (hfeed : σ.Feed s.current s.read.upcoming s'.read.upcoming)
    (hrecovering : s'.read.isRecovering = s.read.isRecovering)
    (hdiagnostics : List.Forall₂ (Diagnostic.Matches σ.lines) s.read.diagnostics.toList
      s'.read.diagnostics.toList) (hleft : s.read.left ≤ m) :
    σ.Corresponds m ls s.read s'.read := by
  obtain ⟨hid, hbuilder, haround⟩ := read_leaves s
  obtain ⟨hid', hbuilder', haround'⟩ := read_leaves s'
  exact {
    feed := hfeed
    previous := hcurrent
    recovering := hrecovering
    calm := calm_pull (s := s.tick) h.calm
    diagnostics := hdiagnostics
    nextId := by rw [hid, hid']; exact h.nextId
    builders := by
      rw [hid, hbuilder, haround, hbuilder', haround']
      exact h.builders
    plain := h.plain
    left := hleft }

/-- Where the sources are of the same length, they are read to the end and beyond. -/
theorem read_same (h : σ.Corresponds n ls s s') (halone : σ.beyond = [])
    (hleft : s.read.left ≤ m) : σ.Corresponds m ls s.read s'.read := by
  have htokens : List.Forall₂ (Token.Matches σ.lines) s.upcoming s'.upcoming := by
    have hfeed := h.feed
    generalize s.upcoming = ts, s'.upcoming = ts' at hfeed
    cases hfeed with
    | same _ tokens => exact tokens
    | more more => exact absurd halone more
  obtain ⟨hcurrent, hrest⟩ := List.forall₂_cons.mp htokens
  obtain ⟨hfeed, hrecovering, hdiagnostics⟩ :=
    pull_matches hrest s.tick s'.tick h.recovering h.diagnostics hcurrent.line
  exact h.afterRead hcurrent (.same halone hfeed) hrecovering hdiagnostics hleft

/-- Where the second source is longer, the end of the first one is not read. -/
theorem read_more (h : σ.Corresponds n ls s s') (hmore : σ.beyond ≠ [])
    (hend : ¬ s.sees .endOfSource) (hq : s.read.IsQuiet) (hq' : s'.read.IsQuiet)
    (hleft : s.read.left ≤ m) : σ.Corresponds m ls s.read s'.read := by
  have hcurrent := h.current_of_not_end hend
  have hnoEnd : s.current.kind ≠ .endOfSource := fun heq => hend (by simp [sees, heq])
  obtain ⟨us, us', e, hu, hu', tokens, ends, inside, last⟩ :
      ∃ us us' e, s.rest = us ++ [e] ∧ s'.rest = us' ++ σ.beyond ∧
        List.Forall₂ (Token.Matches σ.lines) us us' ∧ e.kind = .endOfSource ∧
        (∀ u ∈ us, u.kind ≠ .endOfSource) ∧
        ∀ t, (s.current :: us).getLast? = some t → t.kind ≠ .returnWord := by
    have hfeed := h.feed
    generalize hu : s.upcoming = ts, hu' : s'.upcoming = ts' at hfeed
    cases hfeed with
    | same alone => exact absurd alone hmore
    | @more us us' e _ tokens ends inside last =>
      cases tokens with
      | nil =>
        obtain ⟨rfl, -⟩ := List.cons.inj hu
        exact absurd ends hnoEnd
      | @cons u u' us us' _ tokens =>
        obtain ⟨rfl, hrest⟩ := List.cons.inj hu
        obtain ⟨-, hrest'⟩ := List.cons.inj hu'
        exact ⟨us, us', e, hrest, hrest', tokens, ends, (List.forall_mem_cons.mp inside).2,
          fun t ht => last t (by rw [List.getLast?_cons_cons]; exact ht)⟩
  obtain ⟨t, ts, hts⟩ : ∃ t ts, s.rest = t :: ts :=
    List.exists_cons_of_ne_nil (by rw [hu]; simp)
  obtain ⟨t', ts', hts'⟩ : ∃ t ts, s'.rest = t :: ts :=
    List.exists_cons_of_ne_nil (by rw [hu']; simp [hmore])
  have hquiet := isQuiet_of_pull (s := s.tick) hq
  have hread : s.read = { s with
      previous := s.current, current := t, rest := ts, work := s.work + 1 } := by
    have hpull : (s.tick.pull (t :: ts)).IsQuiet := hts ▸ hq
    unfold State.read
    rw [hts, pull_of_isQuiet (s := s.tick) h.calm hpull]
    rfl
  have hread' : s'.read = { s' with
      previous := s'.current, current := t', rest := ts', work := s'.work + 1 } := by
    have hpull : (s'.tick.pull (t' :: ts')).IsQuiet := hts' ▸ hq'
    unfold State.read
    rw [hts', pull_of_isQuiet (s := s'.tick)
      (fun _ => h.recovering.trans (h.calm hquiet)) hpull]
    rfl
  refine h.afterRead hcurrent ?_ ?_ ?_ hleft
  · have hup : s.read.upcoming = us ++ [e] := by
      rw [hread, ← hu, hts]
      rfl
    have hup' : s'.read.upcoming = us' ++ σ.beyond := by
      rw [hread', ← hu', hts']
      rfl
    rw [hup, hup']
    exact .more hmore tokens ends inside last
  · rw [hread, hread']
    exact h.recovering
  · rw [hread, hread']
    exact h.diagnostics

end Latitude.Corresponds

namespace Latitude.Abreast

/-- A token is read on both sides, but never the end of the first source alone. -/
theorem read (h : σ.Abreast n ls s s') (hend : ¬ s.sees .endOfSource ∨ σ.beyond = []) :
    σ.Abreast n ls s.read s'.read := by
  refine h.branch (Edit.read s).edits.actions (Edit.read s').edits.actions fun hr hc => ?_
  have hleft := Nat.le_trans (Edit.read s).edits.left_le hr.left
  by_cases halone : σ.beyond = []
  · exact hr.read_same halone hleft
  · have hmore : σ.strict = false := Bool.not_eq_true _ ▸ mt σ.alone halone
    obtain ⟨hq, hq'⟩ := Corresponds.quiet hc hmore
    exact hr.read_more halone (hend.resolve_right halone) hq hq' hleft

/-- A token that is not the end is one less that is left. -/
theorem read_lt (h : σ.Abreast n ls s s') (hend : ¬ s.sees .endOfSource) :
    σ.Abreast (n - 1) ls s.read s'.read := fun hc => by
  have hr := h.read (.inl hend) hc
  have hlt := left_read_lt hend
  have hle := (h (hc.before (Edit.read s).edits.actions (Edit.read s').edits.actions)).left
  exact { hr with left := by omega }

/-- A token that has to stand here is read on both sides, or missed on both. -/
theorem require (h : σ.Abreast n ls s s') {k : TokenKind} (hk : k ≠ .endOfSource)
    (what : Expected) : σ.Abreast n ls (s.require k what) (s'.require k what) := by
  refine h.branch (edits_require ..).actions (edits_require ..).actions fun hr => ?_
  unfold State.require
  rcases hr.current with hmatch | ⟨hmore, hend, -⟩
  · have hsees : s'.sees k = s.sees k := by
      unfold sees
      rw [hmatch.kind]
    rw [hsees]
    split
    · next hthere =>
      have hnoEnd : ¬ s.sees .endOfSource := fun hend =>
        hk ((beq_iff_eq.mp hthere).symm.trans (beq_iff_eq.mp hend))
      exact h.read (.inl hnoEnd)
    · exact h.complainNext _
  · have hmiss : s.sees k = false := by
      rw [sees, hend]
      exact beq_eq_false_iff_ne.mpr hk.symm
    rw [hmiss]
    rintro (hstrict | ⟨hq, -⟩)
    · exact absurd (σ.alone hstrict) hmore
    · exact absurd hq (not_isQuiet_of_calm (hr.calm (isQuiet_of_complainAt hq)) _ _)

/-- Both sides skip to the same place after a mistake. -/
theorem skipToDeclaration (hstrict : σ.strict = true) (limit : Nat)
    (h : σ.Corresponds n ls s s') :
    σ.Corresponds n ls (s.skipToDeclaration limit) (s'.skipToDeclaration limit) := by
  induction limit generalizing s s' with
  | zero => exact { h with }
  | succ limit ih =>
    have hcurrent := h.current_of_strict hstrict
    have hsees : s'.sees .endOfSource = s.sees .endOfSource := by
      unfold sees
      rw [hcurrent.kind]
    unfold State.skipToDeclaration
    rw [hsees, hcurrent.kind]
    split
    · exact h
    · exact ih (h.read_same (σ.alone hstrict)
        (Nat.le_trans (Edit.read s).edits.left_le h.left))

theorem recover (h : σ.Abreast n ls s s') : σ.Abreast n ls s.recover s'.recover := by
  refine h.branch (actions_recover s) (actions_recover s') fun hr hc => ?_
  unfold State.recover
  rw [hr.recovering]
  split
  · next hrecovering =>
    rcases hc with hstrict | ⟨hq, -⟩
    · rw [hr.rest_eq_of_strict hstrict]
      exact skipToDeclaration hstrict _ { hr with recovering := rfl, calm := fun _ => rfl }
    · have hcalm := hr.calm ((actions_recover s).isQuiet hq)
      exact absurd (hcalm.symm.trans hrecovering) Bool.false_ne_true
  · exact hr

end Latitude.Abreast

/-! ## Passes -/

/-- The passes keep two compilations abreast, with at most `n` tokens left. -/
structure PassAbreast (σ : Latitude) (n : Nat) (f f' : Pass) : Prop where
  left : ∀ s, Actions s (f s)
  right : ∀ s, Actions s (f' s)
  keeps : ∀ {l : Ledger} {ls : List Ledger} {s s' : State}, σ.Abreast n (l :: ls) s s' →
    σ.Abreast n (l :: ls) (f s) (f' s')

end States

end Compile

end ScriptEngine
