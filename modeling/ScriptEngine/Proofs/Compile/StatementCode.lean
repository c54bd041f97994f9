import ScriptEngine.Proofs.Compile.ScopeCode
set_option autoImplicit false

/-!
# Compilation: the code of statements

Each form of statement leaves a frame as it found it, and a variable declaration
leaves a slot for the local that it declares, if the parts of the form do what
is expected of them.  The paths through a branch or a loop join at places where
the frame has the same layout on each of them.
-/

namespace ScriptEngine.Compile.State

/-! ## Variables -/

/-- The code between two states runs a declaration, after which no checkpoint was
noted yet. -/
structure Introduces (s t : State) : Prop where
  builder : Extends s.builder t.builder
  around : GrownAll s.around t.around
  sound : (∀ done ∈ s.finished, done.IsSound) → ∀ done ∈ t.finished, done.IsSound
  drafted : ∀ (ls : List Local) (Γ : Layout) (labels pending : List (Nat × Layout)),
    RaisedAll t.builder.locals ls → Fits Γ ls →
    Placed s.builder (lowest s.builder.locals.length ls) (lowest s.builder.locals.length Γ)
      labels pending →
    Drafted t.builder Γ labels pending

theorem Advances.introduces {s t : State} (h : Advances s t) : Introduces s t :=
  ⟨h.builder, h.around, h.sound, fun ls Γ labels pending hls hfits hplaced =>
    (h.placed ls Γ labels pending hls hfits hplaced).drafted⟩

theorem Runs.introduces {s t u : State} (h : Runs s t) (k : Introduces t u)
    (hs : Settled s.builder) : Introduces s u where
  builder := h.stays.builder.extends.trans k.builder
  around := h.stays.around.trans k.around
  sound hsound := k.sound (h.stays.sound hsound)
  drafted ls Γ labels pending hls hfits hplaced := by
    have hlen : s.builder.locals.length = t.builder.locals.length :=
      h.stays.builder.locals.length_eq
    have hle : t.builder.locals.length ≤ ls.length := by
      rw [← hls.length_eq]
      exact k.builder.length_le
    rw [hlen] at hplaced
    refine k.drafted ls Γ labels pending hls hfits (h.placed _ _ labels pending ?_ ?_ hplaced)
    · exact k.builder.lowest hls
    · exact hfits.lowest (hlen ▸ hs.nonempty) hle

/-- A pass that leaves the code alone runs as a statement. -/
theorem runs_of_edits {s t : State} (h : Edits s t) (hs : s.Sane) (ht : t.IsQuiet)
    (hbuilder : t.builder = s.builder) : Runs s t :=
  ⟨h.stays hs ht, fun _ _ _ _ _ _ hplaced => by rwa [hbuilder]⟩

theorem Introduces.checkpoint {s t : State} (h : Introduces s t) :
    Advances s t.checkpoint where
  builder := ⟨⟨h.builder.captures, h.builder.pool, h.builder.size⟩, h.builder.name,
    h.builder.depth, h.builder.arity, h.builder.locals⟩
  around := h.around
  sound := h.sound
  placed ls Γ labels pending hls hfits hplaced :=
    placed_checkpoint (h.drafted ls Γ labels pending hls hfits hplaced) hls hfits

/-- The state with one more local. -/
def withLocal (s : State) (l : Local) : State :=
  { s with builder := { s.builder with locals := l :: s.builder.locals } }

theorem declareLocal_eq {s : State} (hs : s.Sane) (hq : s.declareLocal.IsQuiet) :
    s.declareLocal =
      if s.builder.depth = 0 then s
      else s.withLocal ⟨s.previous.lexeme, none, false⟩ := by
  unfold declareLocal pushLocal at hq ⊢
  split
  · rfl
  · next hdepth =>
    rw [if_neg hdepth] at hq
    dsimp only at hq ⊢
    split at hq
    · have hfull := actions_pushLocal (s.complain .redeclared) s.previous.lexeme
      exact absurd (hfull.isQuiet hq) (not_isQuiet_complain hs _)
    · next hfresh =>
      rw [if_neg hfresh]
      split at hq
      · exact absurd hq (not_isQuiet_complain hs _)
      · next hroom =>
        rw [if_neg hroom]
        rfl

/-- A name that is declared becomes a constant or a local. -/
theorem declareName_cases {s : State} (hs : s.Sane) {what : Expected}
    (hq : (s.declareName what).2.IsQuiet) :
    ∃ r : State, Edits s r ∧ r.Sane ∧ r.builder = s.builder ∧
      ((s.builder.depth = 0 ∧ (r.poolConstant (.string r.previous.lexeme)).2.IsQuiet ∧
          s.declareName what = (s.builder.chunk.constants.size,
            (r.poolConstant (.string r.previous.lexeme)).2)) ∨
        (s.builder.depth ≠ 0 ∧
          s.declareName what = (0, r.withLocal ⟨r.previous.lexeme, none, false⟩))) := by
  have hq₁ := isQuiet_of_declareName hq
  have hq₀ := (actions_declareLocal _).isQuiet hq₁
  have hrequire := edits_require s .identifier what
  have hs₀ := hrequire.sane hs hq₀
  have hbuilder := builder_require hs hq₀
  have hlocal := declareLocal_eq hs₀ hq₁
  refine ⟨s.require .identifier what, hrequire, hs₀, hbuilder, ?_⟩
  unfold declareName at hq ⊢
  dsimp only at hq ⊢
  by_cases hdepth : s.builder.depth = 0
  · rw [hbuilder, if_pos hdepth] at hlocal
    rw [hlocal, hbuilder, if_pos hdepth] at hq ⊢
    refine .inl ⟨hdepth, hq, ?_⟩
    rw [(poolConstant_eq hs₀ hq).2, hbuilder]
  · rw [hbuilder, if_neg hdepth] at hlocal
    rw [hlocal, if_neg]
    · exact .inr ⟨hdepth, rfl⟩
    · show ¬ (s.require .identifier what).builder.depth = 0
      rwa [hbuilder]

/-- What gives a variable its first value. -/
def initializer (expression : Pass) (s : State) : State :=
  if s.sees .equal then expression s.read else s.appendOp .nil

section Forms

variable {left : Nat} {expression declaration declarations : Pass}

theorem passCarries_initializer (he : PassCarries left expression 0 1) :
    PassCarries left (initializer expression) 0 1 where
  edits s := by
    unfold initializer
    split
    · exact (Edit.read s).edits.trans (he.edits _)
    · exact edits_appendOp s .nil
  carries s hs hq hleft := by
    unfold initializer at hq ⊢
    split at hq
    · next hsees =>
      rw [if_pos hsees]
      exact ((passCarries_read 0).comp he).carries s hs hq hleft
    · next hsees =>
      rw [if_neg hsees]
      have hnil : PassCarries left (fun s => s.appendOp .nil) 0 1 :=
        passCarries_appendOp .nil (fun _ _ _ _ => .literal rfl) (fun h => nomatch h)
      exact hnil.carries s hs hq hleft

/-- The newest local can be read from now on. -/
theorem makeReadable_eq {s : State} (hdepth : s.builder.depth ≠ 0) {l : Local}
    {older : List Local} (hlocals : s.builder.locals = l :: older) :
    s.makeReadable = { s with
      builder := { s.builder with
        locals := { l with depth := some s.builder.depth } :: older } } := by
  obtain ⟨d, hd⟩ := Nat.exists_eq_succ_of_ne_zero hdepth
  unfold makeReadable
  rw [hd, hlocals]
  rfl

/-- A global is defined with the value on the top. -/
theorem runs_defineGlobal {r t : State} (hr : r.Sane) {name : String}
    (hpool : (r.poolConstant (.string name)).2.IsQuiet)
    (hstays : Stays (r.poolConstant (.string name)).2 t)
    (hpushed : ∀ (ls : List Local) (Γ : Layout) (labels pending : List (Nat × Layout)),
      RaisedAll t.builder.locals ls → Fits Γ ls →
      Placed (r.poolConstant (.string name)).2.builder ls Γ labels pending →
      Placed t.builder ls (.temporary :: Γ) labels pending) (ht : t.Sane)
    (hq : (t.appendWith .defineGlobal r.builder.chunk.constants.size).IsQuiet) :
    Runs r (t.appendWith .defineGlobal r.builder.chunk.constants.size) := by
  obtain ⟨hroom, heq⟩ := poolConstant_eq hr hpool
  have hbefore := (edits_poolConstant (v := .string name) (fun f h => nomatch h) r).stays hr hpool
  have hafter := (edits_appendWith t .defineGlobal r.builder.chunk.constants.size).stays ht
    hq
  refine ⟨hbefore.trans (hstays.trans hafter), ?_⟩
  intro ls Γ labels pending hls hfits hplaced
  have h₁ := placed_poolConstant hr hpool hplaced
  have h₂ := hpushed ls Γ labels pending (hafter.builder.locals.trans hls) hfits h₁
  have hname : t.builder.chunk.constants[r.builder.chunk.constants.size]? =
      some (.string name) := by
    refine hstays.builder.pool _ _ ?_
    rw [heq]
    exact Array.getElem?_push_size
  rw [← toNat_toUInt8 hroom] at hname
  exact placed_appendWith h₂ _ _ (fun next => .defineGlobal hname) (fun h => nomatch h)
    (.bare hfits)

/-- A local gets the value on the top. -/
theorem introduces_makeReadable {r t : State} (hsettled : Settled r.builder)
    (hdepth : r.builder.depth ≠ 0) {l : Local} (hstays : Stays (r.withLocal l) t)
    (hdrafted : ∀ (l' : Local) (old ls : List Local) (b : Bool) (Γ : Layout)
      (labels pending : List (Nat × Layout)), t.builder.locals = l' :: old →
      RaisedAll old ls → (l'.isCaptured = true → b = true) → Fits Γ ls →
      Placed r.builder ls Γ labels pending →
      Drafted t.builder (.variable b :: Γ) labels pending) :
    Introduces r t.makeReadable := by
  have hraised : RaisedAll (l :: r.builder.locals) t.builder.locals := hstays.builder.locals
  obtain ⟨l', old, hlocals, hl, hold⟩ : ∃ l' old, t.builder.locals = l' :: old ∧
      l.Raised l' ∧ RaisedAll r.builder.locals old := by
    generalize t.builder.locals = ls at hraised
    cases hraised with
    | cons hl hold => exact ⟨_, _, rfl, hl, hold⟩
  have hdepth' : t.builder.depth = r.builder.depth := hstays.builder.depth
  rw [makeReadable_eq (by rwa [hdepth']) hlocals]
  refine ⟨⟨⟨hstays.builder.captures, hstays.builder.pool, hstays.builder.size⟩,
    hstays.builder.name, hdepth', hstays.builder.arity, ?_⟩, hstays.around, hstays.sound, ?_⟩
  · refine ⟨[{ l' with depth := some t.builder.depth }], old, rfl, hold, ?_, ?_⟩
    · intro l₀ hl₀
      rw [List.mem_singleton.mp hl₀, hdepth']
    · exact fun h0 => absurd h0 hdepth
  · intro ls Γ labels pending hls hfits hplaced
    cases hls with
    | @cons _ l'' _ ls hl'' hls =>
    have hlen : r.builder.locals.length = ls.length :=
      hold.length_eq.trans hls.length_eq
    have hpos := hsettled.nonempty
    cases hfits with
    | callee =>
      rw [hlen] at hpos
      exact absurd hpos (Nat.lt_irrefl 0)
    | @cons b Γ _ _ hcap hfits =>
      rw [lowest_cons _ hlen.symm, lowest_cons _ (hfits.length_eq.trans hlen.symm)] at hplaced
      have hd := hdrafted l' old ls b Γ labels pending hlocals hls
        (fun hc => hcap (hl''.isCaptured hc)) hfits hplaced
      exact hd.mono ⟨List.prefix_refl _, fun _ _ h => h, Nat.le_refl _⟩ rfl rfl rfl
        (Layout.Widens.refl _)

theorem introduces_varForm (he : PassCarries left expression 0 1) {s : State} (hs : s.Sane)
    (hq : (s.varForm expression).IsQuiet) (hleft : s.left ≤ left)
    (hsettled : Settled s.builder) : Introduces s (s.varForm expression) := by
  have hform : s.varForm expression = (initializer expression
      (s.declareName .variableName).2).bindName (s.declareName .variableName).1 := rfl
  have hinit := passCarries_initializer he
  rw [hform] at hq ⊢
  have hq₂ := (actions_bindName _ _).isQuiet hq
  have hq₁ := (hinit.edits _).isQuiet hq₂
  have hs₁ := (actions_declareName s .variableName).sane hs hq₁
  have hs₂ := (hinit.edits _).sane hs₁ hq₂
  have hcarries := hinit.carries _ hs₁ hq₂
    (Nat.le_trans (actions_declareName s .variableName).left_le hleft)
  obtain ⟨r, hr, hsr, hbuilder, hcases⟩ := declareName_cases hs hq₁
  have hbefore := runs_of_edits hr hs hsr.quiet hbuilder
  have hsettled' : Settled r.builder := hbuilder ▸ hsettled
  refine hbefore.introduces ?_ hsettled
  rcases hcases with ⟨hdepth, hpool, heq⟩ | ⟨hdepth, heq⟩
  · rw [heq] at hcarries hs₂ hq ⊢
    have hdepth' : (initializer expression
        (r.poolConstant (.string r.previous.lexeme)).2).builder.depth = 0 := by
      rw [hcarries.stays.builder.depth, (poolConstant_eq hsr hpool).2, ← hdepth, ← hbuilder]
      rfl
    have hpooled := ((edits_poolConstant (v := .string r.previous.lexeme)
      (fun f h => nomatch h) r).stays hsr hpool).builder.settled hsettled'
    unfold bindName at hq ⊢
    rw [if_pos hdepth', ← hbuilder] at hq ⊢
    refine (runs_defineGlobal hsr hpool hcarries.stays (fun ls Γ labels pending hls hfits h => ?_)
      hs₂ hq).advances.introduces
    refine hcarries.placed ls Γ labels pending ?_ (.bare hfits) h
    rwa [(hcarries.stays.builder.settled hpooled).ready_eq]
  · rw [heq] at hcarries ⊢
    have hdepth' : (initializer expression (r.withLocal
        ⟨r.previous.lexeme, none, false⟩)).builder.depth ≠ 0 := by
      rw [hcarries.stays.builder.depth]
      show r.builder.depth ≠ 0
      rwa [hbuilder]
    unfold bindName
    rw [if_neg hdepth']
    refine introduces_makeReadable hsettled' (hbuilder ▸ hdepth) hcarries.stays ?_
    intro l old ls b Γ labels pending hlocals hls _ hfits hplaced
    have hraised := hcarries.stays.builder.locals
    rw [hlocals] at hraised
    cases hraised with
    | cons hl hold =>
    have hready : ready (l :: old) = old := by
      unfold ready
      rw [List.dropWhile_cons_of_pos (by rw [hl.depth]; rfl)]
      refine ready_of_depths (n := r.builder.depth) fun l₀ hl₀ => ?_
      obtain ⟨l₁, hl₁, hd⟩ := raisedAll_depth hold hl₀
      rw [hd]
      exact hsettled'.depths l₁ hl₁
    have hstart : Placed (r.withLocal ⟨r.previous.lexeme, none, false⟩).builder ls Γ labels
        pending := hplaced.mono ⟨List.prefix_refl _, fun _ _ h => h, Nat.le_refl _⟩ rfl rfl rfl
    have hend := hcarries.placed ls Γ labels pending (by rwa [hlocals, hready]) (.bare hfits)
      hstart
    exact hend.drafted.mono (.refl _) rfl rfl rfl (Layout.widens_variable Γ _)

/-! ## Statements without jumps -/

theorem runs_returnForm (he : PassCarries left expression 0 1) {s : State} (hs : s.Sane)
    (hq : (s.returnForm expression).IsQuiet) (hleft : s.left ≤ left)
    (hsettled : Settled s.builder) : Runs s (s.returnForm expression) := by
  have hstays := (edits_returnForm he.edits s).stays hs hq
  refine ⟨hstays, fun ls Γ labels pending hls hfits hplaced => ?_⟩
  have hready : ready (s.returnForm expression).builder.locals =
      (s.returnForm expression).builder.locals := (hstays.builder.settled hsettled).ready_eq
  rw [← hready] at hls
  unfold returnForm at hq hls ⊢
  dsimp only at hq hls ⊢
  refine placed_return (Δ := Γ) ?_ (.bare hfits)
  split at hq
  · next hend =>
    rw [if_pos hend]
    exact placed_appendOp hplaced .nil (fun _ => .literal rfl) (fun h => nomatch h)
      (.push (.bare hfits))
  · next hend =>
    rw [if_neg hend] at hls ⊢
    have hq₁ := (edits_appendOp ..).isQuiet hq
    have hs₁ := (he.edits s).sane hs hq₁
    exact (he.carries s hs hq₁ hleft).placed ls Γ labels pending
      ((edits_appendOp ..).raisedAll hs₁ hq hls) (.bare hfits) hplaced

theorem runs_expressionForm (he : PassCarries left expression 0 1) {s : State} (hs : s.Sane)
    (hq : (s.expressionForm expression).IsQuiet) (hleft : s.left ≤ left)
    (hsettled : Settled s.builder) : Runs s (s.expressionForm expression) := by
  have hcarries := (he.comp passCarries_pop).carries s hs hq hleft
  exact hcarries.runs (hcarries.stays.builder.settled hsettled)

/-! ## Branches and loops -/

/-- What is proved of a pass that compiles declarations. -/
structure PassAdvances (left : Nat) (pass : Pass) : Prop where
  actions : ∀ s, Actions s (pass s)
  advances : ∀ s, s.Sane → (pass s).IsQuiet → s.left ≤ left → Settled s.builder →
    Advances s (pass s)

/-- A body in a scope of its own is a statement. -/
theorem runs_body (hd : PassAdvances left declaration) {s : State} (hs : s.Sane)
    (hq : (s.inScope declaration).IsQuiet) (hleft : s.left ≤ left)
    (hsettled : Settled s.builder) : Runs s (s.inScope declaration) := by
  refine runs_inScope hs hd.actions hsettled hq fun hopen hq₁ => ?_
  refine hd.advances _ hopen hq₁ hleft ⟨hsettled.nonempty, fun l hl => ?_⟩
  obtain ⟨d, hl, hle⟩ := hsettled.depths l hl
  exact ⟨d, hl, Nat.le_succ_of_le hle⟩

/-- The state of a condition that has been computed, with the jump on a false one
and the value dropped. -/
def branch (s : State) : State := (s.openJump .jumpIfFalse).2.appendOp .pop

theorem edits_branch (s : State) : Edits s s.branch :=
  (Edit.openJump s .jumpIfFalse).edits.trans (edits_appendOp _ .pop)

theorem placed_branch {s : State} {ls : List Local} {Γ : Layout}
    {labels pending : List (Nat × Layout)} (hover : Over ls Γ)
    (h : Placed s.builder ls (.temporary :: Γ) labels pending) :
    Placed s.branch.builder ls Γ labels ((s.codeSize + 1, .temporary :: Γ) :: pending) :=
  placed_appendOp (placed_openJump h .jumpIfFalse (.inr ⟨rfl, ⟨Γ, rfl⟩, rfl⟩) hover.push) .pop
    (fun _ => .pop (fun h => nomatch h) (fun h => nomatch h)) (fun h => nomatch h) hover

/-- The alternative of a branch, if there is one. -/
def alternative (declaration : Pass) (s : State) : State :=
  if s.sees .elseWord then s.read.inScope declaration else s

theorem actions_alternative (hd : ∀ s, Actions s (declaration s)) (s : State) :
    Actions s (s.alternative declaration) := by
  unfold alternative
  split
  · exact (Edit.read s).edits.actions.trans (actions_inScope hd _)
  · exact .refl

theorem runs_alternative (hd : PassAdvances left declaration) {s : State} (hs : s.Sane)
    (hq : (s.alternative declaration).IsQuiet) (hleft : s.left ≤ left)
    (hsettled : Settled s.builder) : Runs s (s.alternative declaration) := by
  unfold alternative at hq ⊢
  split at hq
  · next helse =>
    rw [if_pos helse]
    have hq₁ := (actions_inScope hd.actions _).isQuiet hq
    have hbuilder := builder_read hs hq₁
    refine (runs_of_edits (Edit.read s).edits hs hq₁ hbuilder).trans ?_
    exact runs_body hd (hs.read hq₁) hq (Nat.le_trans (Edit.read s).edits.left_le hleft)
      (hbuilder ▸ hsettled)
  · next helse =>
    rw [if_neg helse]
    exact .refl s

theorem runs_ifForm (he : PassCarries left expression 0 1) (hd : PassAdvances left declaration)
    {s : State} (hs : s.Sane) (hq : (s.ifForm expression declaration).IsQuiet)
    (hleft : s.left ≤ left) (hsettled : Settled s.builder) :
    Runs s (s.ifForm expression declaration) := by
  have hform : s.ifForm expression declaration =
      ((((((expression s).branch.inScope declaration).openJump .jump).2.landJump
        ((expression s).openJump .jumpIfFalse).1).appendOp .pop).alternative
          declaration).landJump (((expression s).branch.inScope declaration).openJump .jump).1 :=
    rfl
  rw [hform] at hq ⊢
  have hjump : Edits ((expression s).branch.inScope declaration) _ :=
    ((Edit.openJump ((expression s).branch.inScope declaration) .jump).edits.trans
      (Edit.landJump _ ((expression s).openJump .jumpIfFalse).1).edits).trans
        (edits_appendOp _ .pop)
  have hhead : Edits s (expression s).branch := (he.edits s).trans (edits_branch _)
  have hq₅ := (Edit.landJump _ _).isQuiet hq
  have hq₄ := (actions_alternative hd.actions _).isQuiet hq₅
  have hq₃ := (edits_appendOp ..).isQuiet hq₄
  have hq₂ := hjump.isQuiet hq₄
  have hq₁ := (actions_inScope hd.actions _).isQuiet hq₂
  have hs₁ := hhead.sane hs hq₁
  have hs₂ := (actions_inScope hd.actions _).sane hs₁ hq₂
  have hs₄ := hjump.sane hs₂ hq₄
  have hs₅ := (actions_alternative hd.actions _).sane hs₄ hq₅
  have hcarries := he.carries s hs ((edits_branch _).isQuiet hq₁) hleft
  have hstays₁ := hhead.stays hs hq₁
  have hsettled₁ := hstays₁.builder.settled hsettled
  have hleft₁ := Nat.le_trans hhead.left_le hleft
  have hbody := runs_body hd hs₁ hq₂ hleft₁ hsettled₁
  have hleft₂ := Nat.le_trans (actions_inScope hd.actions _).left_le hleft₁
  have hstays₂ := hjump.stays hs₂ hq₄
  have halt := runs_alternative hd hs₄ hq₅ (Nat.le_trans hjump.left_le hleft₂)
    (hstays₂.builder.settled (hbody.stays.builder.settled hsettled₁))
  have hstays₃ := (Edit.landJump _ _).edits.stays hs₅ hq
  refine ⟨hstays₁.trans <| hbody.stays.trans <| hstays₂.trans <| halt.stays.trans hstays₃, ?_⟩
  intro ls Γ labels pending hls hfits hplaced
  have hls₅ := hstays₃.builder.locals.trans hls
  have hls₂ := hstays₂.builder.locals.trans (halt.stays.builder.locals.trans hls₅)
  have hls₁ := hbody.stays.builder.locals.trans hls₂
  have hcond := hcarries.placed ls Γ labels pending
    ((edits_branch _).raisedAll ((he.edits s).sane hs ((edits_branch _).isQuiet hq₁)) hq₁
      (by rwa [hsettled₁.ready_eq])) (.bare hfits) hplaced
  have hthen := hbody.placed ls Γ _ _ hls₂ hfits (placed_branch (.bare hfits) hcond)
  -- the alternative starts where the condition left its value
  have hopen := placed_openJump hthen .jump (.inl rfl) (.push (.bare hfits))
  have hland := placed_landOlder ((Edit.openJump _ _).edits.sane hs₂
    ((Edit.landJump _ _).isQuiet hq₃)) hq₃ hopen
    (fun heq => ne_next hthen _ List.mem_cons_self heq.symm) (ne_next hcond)
  have hpop := placed_appendOp hland .pop (fun _ => .pop (fun h => nomatch h) (fun h => nomatch h))
    (fun h => nomatch h) (.bare hfits)
  exact placed_landNewest hs₅ hq (halt.placed ls Γ _ _ hls₅ hfits hpop)
    fun x hx => ne_next hthen x (List.mem_cons_of_mem _ hx)

theorem runs_whileForm (he : PassCarries left expression 0 1)
    (hd : PassAdvances left declaration) {s : State} (hs : s.Sane)
    (hq : (s.whileForm expression declaration).IsQuiet) (hleft : s.left ≤ left)
    (hsettled : Settled s.builder) : Runs s (s.whileForm expression declaration) := by
  have hform : s.whileForm expression declaration =
      ((((expression s).branch.inScope declaration).loopBack s.codeSize).landJump
        ((expression s).openJump .jumpIfFalse).1).appendOp .pop := rfl
  rw [hform] at hq ⊢
  have hhead : Edits s (expression s).branch := (he.edits s).trans (edits_branch _)
  have htail : Edits ((expression s).branch.inScope declaration) _ :=
    ((Edit.loopBack _ s.codeSize).edits.trans
      (Edit.landJump _ ((expression s).openJump .jumpIfFalse).1).edits).trans
        (edits_appendOp _ .pop)
  have hq₄ := (edits_appendOp ..).isQuiet hq
  have hq₃ := (Edit.landJump _ _).isQuiet hq₄
  have hq₂ := (Edit.loopBack _ _).isQuiet hq₃
  have hq₁ := (actions_inScope hd.actions _).isQuiet hq₂
  have hq₀ := (edits_branch _).isQuiet hq₁
  have hs₀ := (he.edits s).sane hs hq₀
  have hs₁ := hhead.sane hs hq₁
  have hs₂ := (actions_inScope hd.actions _).sane hs₁ hq₂
  have hs₃ := (Edit.loopBack _ _).sane hs₂ hq₃
  have hstays₁ := hhead.stays hs hq₁
  have hsettled₁ := hstays₁.builder.settled hsettled
  have hbody := runs_body hd hs₁ hq₂ (Nat.le_trans hhead.left_le hleft) hsettled₁
  have hstays₂ := htail.stays hs₂ hq
  refine ⟨hstays₁.trans (hbody.stays.trans hstays₂), ?_⟩
  intro ls Γ labels pending hls hfits hplaced
  have hls₂ := hstays₂.builder.locals.trans hls
  have hls₁ := hbody.stays.builder.locals.trans hls₂
  have hstart : Placed s.builder ls Γ ((s.codeSize, Γ) :: labels) pending := by
    refine hplaced.relabel fun x hx => ?_
    exact (List.mem_cons.mp hx).symm
  have hcond := (he.carries s hs hq₀ hleft).placed ls Γ _ pending
    ((edits_branch _).raisedAll hs₀ hq₁ (by rwa [hsettled₁.ready_eq])) (.bare hfits) hstart
  have hround := hbody.placed ls Γ _ _ hls₂ hfits (placed_branch (.bare hfits) hcond)
  -- behind the jump back the code goes on where the condition failed
  have hback := placed_loopBack hs₂ hq₃ hround List.mem_cons_self
    (Nat.le_trans hstays₁.builder.size hbody.stays.builder.size) (.push (.bare hfits))
  have hland := placed_landNewest hs₃ hq₄ hback (ne_next hcond)
  have hpop := placed_appendOp hland .pop (fun _ => .pop (fun h => nomatch h) (fun h => nomatch h))
    (fun h => nomatch h) (.bare hfits)
  exact hpop.relabel fun x hx => .inl (List.mem_cons_of_mem _ hx)

/-! ## Counted loops -/

theorem runs_require {s : State} (hs : s.Sane) {k : TokenKind} {what : Expected}
    (hq : (s.require k what).IsQuiet) : Runs s (s.require k what) :=
  runs_of_edits (edits_require s k what) hs hq (builder_require hs hq)

theorem runs_read {s : State} (hs : s.Sane) (hq : s.read.IsQuiet) : Runs s s.read :=
  runs_of_edits (Edit.read s).edits hs hq (builder_read hs hq)

theorem advances_loopInitializer (he : PassCarries left expression 0 1) {s : State}
    (hs : s.Sane) (hq : (s.loopInitializer expression).IsQuiet) (hleft : s.left ≤ left)
    (hsettled : Settled s.builder) : Advances s (s.loopInitializer expression) := by
  unfold loopInitializer at hq ⊢
  split at hq
  · next hcomma =>
    rw [if_pos hcomma]
    exact (runs_read hs hq).advances
  · next hcomma =>
    rw [if_neg hcomma]
    dsimp only at hq ⊢
    have hq₁ := (edits_require ..).isQuiet hq
    split at hq
    · next hvar =>
      rw [if_pos hvar] at hq₁ ⊢
      have hq₂ := (Action.checkpoint _).isQuiet hq₁
      have hq₃ := (actions_varForm he.edits _).isQuiet hq₂
      have hread := runs_read hs hq₃
      have hs₃ := hs.read hq₃
      have hvarForm := introduces_varForm he hs₃ hq₂
        (Nat.le_trans (Edit.read s).edits.left_le hleft) (hread.stays.builder.settled hsettled)
      have hs₁ := (Action.checkpoint _).sane ((actions_varForm he.edits _).sane hs₃ hq₂) hq₁
      exact (hread.introduces hvarForm hsettled).checkpoint.trans
        (runs_require hs₁ hq).advances hsettled
    · next hvar =>
      rw [if_neg hvar] at hq₁ ⊢
      have hs₁ := (edits_expressionForm he.edits s).sane hs hq₁
      exact ((runs_expressionForm he hs hq₁ hleft hsettled).trans
        (runs_require hs₁ hq)).advances

/-- The open jump out of a loop, if there is one. -/
def exits (Γ : Layout) (exitJump : Option Nat) : List (Nat × Layout) :=
  exitJump.toList.map fun p => (p, .temporary :: Γ)

theorem placed_loopCondition (he : PassCarries left expression 0 1) {s : State} (hs : s.Sane)
    (hq : (s.loopCondition expression).2.IsQuiet) (hleft : s.left ≤ left)
    (hsettled : Settled s.builder) {ls : List Local} {Γ : Layout}
    {labels pending : List (Nat × Layout)}
    (hls : RaisedAll (s.loopCondition expression).2.builder.locals ls) (hfits : Fits Γ ls)
    (h : Placed s.builder ls Γ labels pending) :
    Placed (s.loopCondition expression).2.builder ls Γ labels
        (exits Γ (s.loopCondition expression).1 ++ pending) ∧
      ∀ p, (s.loopCondition expression).1 = some p → ∀ x ∈ pending, x.1 ≠ p := by
  have hready : RaisedAll (ready (s.loopCondition expression).2.builder.locals) ls := by
    have hstays := (edits_loopCondition he.edits s).stays hs hq
    rwa [(hstays.builder.settled hsettled).ready_eq]
  unfold loopCondition at hq hready ⊢
  split at hq
  · next hcomma =>
    rw [if_pos hcomma]
    refine ⟨?_, fun p hp => nomatch hp⟩
    rw [builder_read hs hq]
    exact h
  · next hcomma =>
    rw [if_neg hcomma] at hready ⊢
    have hcond := he.comp (passCarries_require .comma .commaAfterCondition 1)
    have hq₁ := (edits_branch _).isQuiet hq
    have hs₁ := (hcond.edits s).sane hs hq₁
    have h₁ := (hcond.carries s hs hq₁ hleft).placed ls Γ labels pending
      ((edits_branch _).raisedAll hs₁ hq hready) (.bare hfits) h
    refine ⟨placed_branch (.bare hfits) h₁, ?_⟩
    rintro p hp x hx
    cases hp
    exact ne_next h₁ x hx

theorem placed_loopIncrement (he : PassCarries left expression 0 1) {s : State} (hs : s.Sane)
    {start : Nat} (hq : (s.loopIncrement expression start).2.IsQuiet) (hleft : s.left ≤ left)
    (hsettled : Settled s.builder) {ls : List Local} {Γ : Layout}
    {labels pending : List (Nat × Layout)}
    (hls : RaisedAll (s.loopIncrement expression start).2.builder.locals ls)
    (hfits : Fits Γ ls) (hlabel : (start, Γ) ∈ labels) (hstart : start ≤ s.codeSize)
    (h : Placed s.builder ls Γ labels pending) :
    Placed (s.loopIncrement expression start).2.builder ls Γ
        (((s.loopIncrement expression start).1, Γ) :: labels) pending ∧
      (s.loopIncrement expression start).1 ≤
        (s.loopIncrement expression start).2.codeSize := by
  have hready : RaisedAll (ready (s.loopIncrement expression start).2.builder.locals) ls := by
    have hstays := (edits_loopIncrement he.edits start s).stays hs hq
    rwa [(hstays.builder.settled hsettled).ready_eq]
  have hsame : Placed s.builder ls Γ ((start, Γ) :: labels) pending := by
    refine h.relabel fun x hx => .inl ?_
    rcases List.mem_cons.mp hx with rfl | hx
    · exact hlabel
    · exact hx
  unfold loopIncrement at hq hready ⊢
  split at hq
  · next hcomma =>
    rw [if_pos hcomma]
    dsimp only at hq ⊢
    unfold codeSize at hstart ⊢
    rw [builder_read hs hq]
    exact ⟨hsame, hstart⟩
  · next hcomma =>
    rw [if_neg hcomma] at hready ⊢
    split at hq
    · next hbrace =>
      rw [if_pos hbrace]
      exact ⟨hsame, hstart⟩
    · next hbrace =>
      rw [if_neg hbrace] at hready ⊢
      dsimp only at hq hready ⊢
      have hincrement := he.comp passCarries_pop
      have hq₂ := (Edit.landJump _ _).isQuiet hq
      have hq₁ := (Edit.loopBack _ _).isQuiet hq₂
      have hq₀ := (hincrement.edits (s.openJump .jump).2).isQuiet hq₁
      have hs₀ := (Edit.openJump s .jump).sane hs hq₀
      have hs₁ := (hincrement.edits (s.openJump .jump).2).sane hs₀ hq₁
      have hs₂ := (Edit.loopBack _ start).sane hs₁ hq₂
      have hback : Edits ((expression (s.openJump .jump).2).appendOp .pop) _ :=
        (Edit.loopBack _ start).edits.trans (Edit.landJump _ (s.openJump .jump).1).edits
      have hopen := placed_openJump h .jump (.inl rfl) (.bare hfits)
      have hmark : Placed (s.openJump .jump).2.builder ls Γ
          (((s.openJump .jump).2.codeSize, Γ) :: labels) ((s.codeSize + 1, Γ) :: pending) := by
        refine hopen.relabel fun x hx => ?_
        exact (List.mem_cons.mp hx).symm
      have hdone := (hincrement.carries _ hs₀ hq₁ hleft).placed ls Γ _ _
        (hback.raisedAll hs₁ hq hready) (.bare hfits) hmark
      have hsize₀ := (Edit.openJump s .jump).edits.stays hs hq₀
      have hsize₁ := (hincrement.edits (s.openJump .jump).2).stays hs₀ hq₁
      have hsize₂ := hback.stays hs₁ hq
      have hloop := placed_loopBack hs₁ hq₂ hdone (List.mem_cons_of_mem _ hlabel)
        (Nat.le_trans hstart (Nat.le_trans hsize₀.builder.size hsize₁.builder.size))
        (.bare hfits)
      exact ⟨placed_landNewest hs₂ hq hloop (ne_next h),
        Nat.le_trans hsize₁.builder.size hsize₂.builder.size⟩

/-- A counted loop behind its initializer, up to the jump back. -/
def turns (expression declaration : Pass) (s : State) : State :=
  (((s.loopCondition expression).2.loopIncrement expression s.codeSize).2.inScope
    declaration).loopBack
      ((s.loopCondition expression).2.loopIncrement expression s.codeSize).1

theorem actions_turns (he : ∀ s, Edits s (expression s)) (hd : ∀ s, Actions s (declaration s))
    (s : State) : Actions s (s.turns expression declaration) :=
  (edits_loopCondition he s).actions.trans <| (edits_loopIncrement he _ _).actions.trans <|
    (actions_inScope hd _).trans (Edit.loopBack _ _).edits.actions

/-- The jump back leaves the way out as the only open end. -/
theorem placed_turns (he : PassCarries left expression 0 1) (hd : PassAdvances left declaration)
    {s : State} (hs : s.Sane) (hq : (s.turns expression declaration).IsQuiet)
    (hleft : s.left ≤ left) (hsettled : Settled s.builder) :
    Stays s (s.turns expression declaration) ∧
    ∀ (ls : List Local) (Γ Γ' : Layout) (labels pending : List (Nat × Layout)),
      RaisedAll (s.turns expression declaration).builder.locals ls → Fits Γ ls →
      Over ls Γ' → Placed s.builder ls Γ labels pending →
      (∃ labels', (∀ x ∈ labels, x ∈ labels') ∧
        Placed (s.turns expression declaration).builder ls Γ' labels'
          (exits Γ (s.loopCondition expression).1 ++ pending)) ∧
      ∀ p, (s.loopCondition expression).1 = some p → ∀ x ∈ pending, x.1 ≠ p := by
  have hcond := edits_loopCondition he.edits s
  have hincr := edits_loopIncrement he.edits s.codeSize (s.loopCondition expression).2
  unfold turns at hq ⊢
  have hq₃ := (Edit.loopBack _ _).isQuiet hq
  have hq₂ := (actions_inScope hd.actions _).isQuiet hq₃
  have hq₁ := hincr.isQuiet hq₂
  have hs₁ := hcond.sane hs hq₁
  have hs₂ := hincr.sane hs₁ hq₂
  have hs₃ := (actions_inScope hd.actions _).sane hs₂ hq₃
  have hstays₁ := hcond.stays hs hq₁
  have hstays₂ := hincr.stays hs₁ hq₂
  have hsettled₁ := hstays₁.builder.settled hsettled
  have hsettled₂ := hstays₂.builder.settled hsettled₁
  have hleft₁ := Nat.le_trans hcond.left_le hleft
  have hbody := runs_body hd hs₂ hq₃ (Nat.le_trans hincr.left_le hleft₁) hsettled₂
  have hstays₄ := (Edit.loopBack _ _).edits.stays hs₃ hq
  refine ⟨hstays₁.trans <| hstays₂.trans <| hbody.stays.trans hstays₄, ?_⟩
  intro ls Γ Γ' labels pending hls hfits hover hplaced
  have hls₃ := hstays₄.builder.locals.trans hls
  have hls₂ := hbody.stays.builder.locals.trans hls₃
  have hls₁ := hstays₂.builder.locals.trans hls₂
  have hstart : Placed s.builder ls Γ ((s.codeSize, Γ) :: labels) pending := by
    refine hplaced.relabel fun x hx => ?_
    exact (List.mem_cons.mp hx).symm
  obtain ⟨h₁, hfresh⟩ := placed_loopCondition he hs hq₁ hleft hsettled hls₁ hfits hstart
  obtain ⟨h₂, hsize⟩ := placed_loopIncrement he hs₁ hq₂ hleft₁ hsettled₁ hls₂ hfits
    List.mem_cons_self hstays₁.builder.size h₁
  have h₃ := hbody.placed ls Γ _ _ hls₃ hfits h₂
  refine ⟨⟨_, fun x hx => ?_, placed_loopBack hs₃ hq h₃ List.mem_cons_self
    (Nat.le_trans hsize hbody.stays.builder.size) hover⟩, hfresh⟩
  exact List.mem_cons_of_mem _ (List.mem_cons_of_mem _ hx)

/-- A counted loop behind its initializer. -/
def rounds (expression declaration : Pass) (s : State) : State :=
  match (s.loopCondition expression).1 with
  | some exitJump => ((s.turns expression declaration).landJump exitJump).appendOp .pop
  | none => s.turns expression declaration

theorem actions_rounds (he : ∀ s, Edits s (expression s)) (hd : ∀ s, Actions s (declaration s))
    (s : State) : Actions s (s.rounds expression declaration) := by
  unfold rounds
  split
  · exact (actions_turns he hd s).trans <| Edits.actions <|
      (Edit.landJump _ _).edits.trans (edits_appendOp ..)
  · exact actions_turns he hd s

theorem runs_rounds (he : PassCarries left expression 0 1) (hd : PassAdvances left declaration)
    {s : State} (hs : s.Sane) (hq : (s.rounds expression declaration).IsQuiet)
    (hleft : s.left ≤ left) (hsettled : Settled s.builder) :
    Runs s (s.rounds expression declaration) := by
  unfold rounds at hq ⊢
  split at hq
  · next p hp =>
    have hland : Edits (s.turns expression declaration) _ :=
      (Edit.landJump _ p).edits.trans (edits_appendOp _ .pop)
    have hq₁ := hland.isQuiet hq
    have hs₁ := (actions_turns he.edits hd.actions s).sane hs hq₁
    obtain ⟨hstays, hplaced⟩ := placed_turns he hd hs hq₁ hleft hsettled
    have hstays' := hland.stays hs₁ hq
    refine ⟨hstays.trans hstays', fun ls Γ labels pending hls hfits h => ?_⟩
    obtain ⟨⟨labels', hsub, h₁⟩, hfresh⟩ := hplaced ls Γ (.temporary :: Γ) labels pending
      (hstays'.builder.locals.trans hls) hfits (.push (.bare hfits)) h
    rw [hp] at h₁
    have h₂ := placed_landNewest hs₁ ((edits_appendOp ..).isQuiet hq) h₁ (hfresh p hp)
    have h₃ := placed_appendOp h₂ .pop (fun _ => .pop (fun h => nomatch h) (fun h => nomatch h))
      (fun h => nomatch h) (.bare hfits)
    exact h₃.relabel fun x hx => .inl (hsub x hx)
  · next hp =>
    obtain ⟨hstays, hplaced⟩ := placed_turns he hd hs hq hleft hsettled
    refine ⟨hstays, fun ls Γ labels pending hls hfits h => ?_⟩
    obtain ⟨⟨labels', hsub, h₁⟩, -⟩ := hplaced ls Γ Γ labels pending hls hfits (.bare hfits) h
    rw [hp] at h₁
    exact h₁.relabel fun x hx => .inl (hsub x hx)

theorem countedLoop_eq (expression declaration : Pass) (s : State) :
    s.countedLoop expression declaration =
      (s.loopInitializer expression).rounds expression declaration := rfl

theorem advances_countedLoop (he : PassCarries left expression 0 1)
    (hd : PassAdvances left declaration) : PassAdvances left (countedLoop expression declaration)
    where
  actions s := actions_countedLoop he.edits hd.actions s
  advances s hs hq hleft hsettled := by
    rw [countedLoop_eq] at hq ⊢
    have hq₁ := (actions_rounds he.edits hd.actions _).isQuiet hq
    have hinit := actions_loopInitializer he.edits s
    have hs₁ := hinit.sane hs hq₁
    have h₁ := advances_loopInitializer he hs hq₁ hleft hsettled
    have h₂ := runs_rounds he hd hs₁ hq (Nat.le_trans hinit.left_le hleft)
      (h₁.builder.settled hsettled)
    exact h₁.trans h₂.advances hsettled

theorem advances_blockForm (hd : PassAdvances left declarations) :
    PassAdvances left (blockForm declarations) where
  actions s := actions_blockForm hd.actions s
  advances s hs hq hleft hsettled := by
    have hq₁ := (edits_require ..).isQuiet hq
    have hs₁ := (hd.actions s).sane hs hq₁
    exact (hd.advances s hs hq₁ hleft hsettled).trans (runs_require hs₁ hq).advances hsettled

end Forms

end ScriptEngine.Compile.State
