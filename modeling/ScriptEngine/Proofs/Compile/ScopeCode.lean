import ScriptEngine.Proofs.Compile.ExpressionCode
set_option autoImplicit false

/-!
# Compilation: the code of scopes

A statement leaves a frame as it found it (`Runs`); a declaration may leave one
more slot, which belongs to the local it declares (`Advances`).  A scope retires
the locals that were declared in it, the captured ones in the way that closes
their cells, so that what is in a scope is a statement again
(`runs_inScope`).

The layout at the end is one for the locals as they will be when their scope
ends, since only then it is known which of them are captured.
-/

namespace ScriptEngine.Compile

/-! ## The lowest slots -/

section Lowest

variable {α : Type}

/-- The `n` oldest elements. -/
def lowest (n : Nat) (as : List α) : List α := as.drop (as.length - n)

theorem lowest_append {n : Nat} {as bs : List α} (h : bs.length = n) :
    lowest n (as ++ bs) = bs := by
  unfold lowest
  rw [List.length_append, h, Nat.add_sub_cancel]
  exact List.drop_left

theorem lowest_cons {n : Nat} (a : α) {as : List α} (h : as.length = n) :
    lowest n (a :: as) = as := by
  show lowest n ([a] ++ as) = as
  exact lowest_append h

theorem lowest_of_length {n : Nat} {as : List α} (h : as.length = n) :
    lowest n as = as := by
  unfold lowest
  rw [h, Nat.sub_self, List.drop_zero]

theorem length_lowest {n : Nat} {as : List α} (h : n ≤ as.length) :
    (lowest n as).length = n := by
  unfold lowest
  rw [List.length_drop]
  omega

theorem lowest_lowest {n m : Nat} (as : List α) (h : n ≤ m) :
    lowest n (lowest m as) = lowest n as := by
  unfold lowest
  rw [List.drop_drop, List.length_drop]
  congr 1
  omega

theorem exists_eq_append_lowest (n : Nat) (as : List α) :
    ∃ bs, as = bs ++ lowest n as :=
  ⟨as.take (as.length - n), (List.take_append_drop ..).symm⟩

end Lowest

theorem RaisedAll.append_inv {as bs cs : List Local} (h : RaisedAll (as ++ bs) cs) :
    ∃ as' bs', cs = as' ++ bs' ∧ RaisedAll as as' ∧ RaisedAll bs bs' := by
  induction as generalizing cs with
  | nil => exact ⟨[], cs, rfl, .nil, h⟩
  | cons a as ih =>
    cases h with
    | cons ha hrest =>
      obtain ⟨as', bs', rfl, has, hbs⟩ := ih hrest
      exact ⟨_ :: as', bs', rfl, .cons ha has, hbs⟩

theorem RaisedAll.append {as as' bs bs' : List Local} (h : RaisedAll as as')
    (k : RaisedAll bs bs') : RaisedAll (as ++ bs) (as' ++ bs') := by
  induction h with
  | nil => exact k
  | cons ha _ ih => exact .cons ha ih

theorem RaisedAll.lowest {as bs ls : List Local} (h : RaisedAll (as ++ bs) ls) :
    RaisedAll bs (lowest bs.length ls) := by
  obtain ⟨as', bs', rfl, -, hbs⟩ := h.append_inv
  rw [lowest_append hbs.length_eq.symm]
  exact hbs

theorem Fits.older {Γ : Layout} {as bs : List Local} (h : Fits Γ (as ++ bs))
    (hne : bs ≠ []) : Fits (lowest bs.length Γ) bs := by
  induction as generalizing Γ with
  | nil =>
    have hlen : Γ.length = bs.length := h.length_eq
    rw [lowest_of_length hlen]
    exact h
  | cons a as ih =>
    rw [List.cons_append] at h
    generalize hrest : as ++ bs = rest at h
    cases h with
    | callee => exact absurd (List.append_eq_nil_iff.mp hrest).2 hne
    | @cons b Γ _ _ _ hfits =>
      subst hrest
      obtain ⟨Ξ, hΞ⟩ := exists_eq_append_lowest bs.length Γ
      have hlen : (lowest bs.length Γ).length = bs.length := by
        refine length_lowest ?_
        rw [hfits.length_eq, List.length_append]
        omega
      have hsame : lowest bs.length (.variable b :: Γ) = lowest bs.length Γ := by
        rw [hΞ, ← List.cons_append, lowest_append hlen, lowest_append hlen]
      rw [hsame]
      exact ih hfits

/-! ## Declarations -/

/-- All locals can be read, and none is in a scope inside the current one. -/
structure Settled (b : Builder) : Prop where
  nonempty : 0 < b.locals.length
  depths : ∀ l ∈ b.locals, ∃ d, l.depth = some d ∧ d ≤ b.depth

theorem ready_of_depths {ls : List Local} {n : Nat}
    (h : ∀ l ∈ ls, ∃ d, l.depth = some d ∧ d ≤ n) : ready ls = ls := by
  refine ready_of_forall fun l hl => ?_
  obtain ⟨d, hd, -⟩ := h l hl
  rw [hd]
  rfl

theorem Settled.ready_eq {b : Builder} (h : Settled b) : ready b.locals = b.locals :=
  ready_of_depths h.depths

/-- The code of one function goes on in another one's, where locals of the
current scope may have been added. -/
structure Extends (b b' : Builder) : Prop extends Larger b b' where
  name : b'.name = b.name
  depth : b'.depth = b.depth
  arity : b'.arity = b.arity
  locals : ∃ new old, b'.locals = new ++ old ∧ RaisedAll b.locals old ∧
    (∀ l ∈ new, l.depth = some b.depth) ∧ (b.depth = 0 → new = [])

theorem Kept.extends {b b' : Builder} (h : Kept b b') : Extends b b' where
  toLarger := h.toLarger
  name := h.name
  depth := h.depth
  arity := h.arity
  locals := ⟨[], b'.locals, rfl, h.locals, fun _ hl => absurd hl List.not_mem_nil, fun _ => rfl⟩

theorem raisedAll_depth {ls ls' : List Local} (h : RaisedAll ls ls') {l' : Local}
    (hl : l' ∈ ls') : ∃ l ∈ ls, l'.depth = l.depth := by
  induction h with
  | nil => cases hl
  | cons ha _ ih =>
    rcases List.mem_cons.mp hl with rfl | hl
    · exact ⟨_, List.mem_cons_self, ha.depth⟩
    · obtain ⟨l, hmem, hd⟩ := ih hl
      exact ⟨l, List.mem_cons_of_mem _ hmem, hd⟩

theorem Extends.length_le {b b' : Builder} (h : Extends b b') :
    b.locals.length ≤ b'.locals.length := by
  obtain ⟨new, old, hlocals, hold, -⟩ := h.locals
  rw [hlocals, List.length_append, hold.length_eq]
  omega

theorem Extends.settled {b b' : Builder} (h : Extends b b') (hb : Settled b) : Settled b' where
  nonempty := Nat.lt_of_lt_of_le hb.nonempty h.length_le
  depths := by
    obtain ⟨new, old, hlocals, hold, hnew, -⟩ := h.locals
    intro l hl
    rw [hlocals, List.mem_append] at hl
    rw [h.depth]
    rcases hl with hl | hl
    · exact ⟨b.depth, hnew l hl, Nat.le_refl _⟩
    · obtain ⟨l₀, hl₀, hd⟩ := raisedAll_depth hold hl
      rw [hd]
      exact hb.depths l₀ hl₀

theorem Kept.settled {b b' : Builder} (h : Kept b b') (hb : Settled b) : Settled b' :=
  h.extends.settled hb

theorem Extends.trans {b₁ b₂ b₃ : Builder} (h : Extends b₁ b₂) (k : Extends b₂ b₃) :
    Extends b₁ b₃ where
  toLarger := h.toLarger.trans k.toLarger
  name := k.name.trans h.name
  depth := k.depth.trans h.depth
  arity := k.arity.trans h.arity
  locals := by
    obtain ⟨new, old, hlocals, hold, hnew, houter⟩ := h.locals
    obtain ⟨new', old', hlocals', hold', hnew', houter'⟩ := k.locals
    rw [hlocals] at hold'
    obtain ⟨mid, old'', rfl, hmid, hold''⟩ := hold'.append_inv
    refine ⟨new' ++ mid, old'', ?_, hold.trans hold'', fun l hl => ?_, fun h0 => ?_⟩
    · rw [hlocals', List.append_assoc]
    · rcases List.mem_append.mp hl with hl | hl
      · rw [hnew' l hl, h.depth]
      · obtain ⟨l₀, hl₀, hd⟩ := raisedAll_depth hmid hl
        rw [hd]
        exact hnew l₀ hl₀
    · rw [houter' (h.depth.trans h0)]
      have hnil := houter h0
      subst hnil
      cases hmid
      rfl

/-- The older locals are the ones that were there. -/
theorem Extends.lowest {b b' : Builder} (h : Extends b b') {ls : List Local}
    (hls : RaisedAll b'.locals ls) : RaisedAll b.locals (lowest b.locals.length ls) := by
  obtain ⟨new, old, hlocals, hold, -⟩ := h.locals
  rw [hlocals] at hls
  rw [hold.length_eq]
  exact hold.trans hls.lowest

theorem Fits.lowest {Γ : Layout} {ls : List Local} (h : Fits Γ ls) {n : Nat}
    (hpos : 0 < n) (hn : n ≤ ls.length) : Fits (lowest n Γ) (lowest n ls) := by
  obtain ⟨as, has⟩ := exists_eq_append_lowest n ls
  have hlen := length_lowest hn
  have hne : Compile.lowest n ls ≠ [] := by
    intro hnil
    rw [hnil] at hlen
    exact Nat.ne_of_lt hpos hlen
  rw [has] at h
  have holder := h.older hne
  rwa [hlen] at holder

namespace State

/-- The code between two states runs a declaration: the frame has a slot more for
each local that was added. -/
structure Advances (s t : State) : Prop where
  builder : Extends s.builder t.builder
  around : GrownAll s.around t.around
  sound : (∀ done ∈ s.finished, done.IsSound) → ∀ done ∈ t.finished, done.IsSound
  placed : ∀ (ls : List Local) (Γ : Layout) (labels pending : List (Nat × Layout)),
    RaisedAll t.builder.locals ls → Fits Γ ls →
    Placed s.builder (lowest s.builder.locals.length ls) (lowest s.builder.locals.length Γ)
      labels pending →
    Placed t.builder ls Γ labels pending

/-- The code between two states runs a statement: the frame is as it was. -/
structure Runs (s t : State) : Prop where
  stays : Stays s t
  placed : ∀ (ls : List Local) (Γ : Layout) (labels pending : List (Nat × Layout)),
    RaisedAll t.builder.locals ls → Fits Γ ls → Placed s.builder ls Γ labels pending →
    Placed t.builder ls Γ labels pending

theorem Runs.advances {s t : State} (h : Runs s t) : Advances s t where
  builder := h.stays.builder.extends
  around := h.stays.around
  sound := h.stays.sound
  placed ls Γ labels pending hls hfits hplaced := by
    have hlen : ls.length = s.builder.locals.length := by
      rw [← hls.length_eq, ← h.stays.builder.locals.length_eq]
    rw [lowest_of_length hlen, lowest_of_length (hfits.length_eq.trans hlen)] at hplaced
    exact h.placed ls Γ labels pending hls hfits hplaced

theorem Runs.refl (s : State) : Runs s s := ⟨.refl s, fun _ _ _ _ _ _ h => h⟩

theorem Runs.trans {s t u : State} (h : Runs s t) (k : Runs t u) : Runs s u where
  stays := h.stays.trans k.stays
  placed ls Γ labels pending hls hfits hplaced :=
    k.placed ls Γ labels pending hls hfits
      (h.placed ls Γ labels pending (k.stays.builder.locals.trans hls) hfits hplaced)

theorem Carries.runs {s t : State} (h : Carries s t 0 0) (ht : Settled t.builder) :
    Runs s t where
  stays := h.stays
  placed ls Γ labels pending hls hfits hplaced :=
    h.placed ls Γ labels pending (by rwa [ht.ready_eq]) (.bare hfits) hplaced

theorem Advances.trans {s t u : State} (h : Advances s t) (k : Advances t u)
    (hs : Settled s.builder) : Advances s u where
  builder := h.builder.trans k.builder
  around := h.around.trans k.around
  sound hs := k.sound (h.sound hs)
  placed ls Γ labels pending hls hfits hplaced := by
    have hle := h.builder.length_le
    have hle' : t.builder.locals.length ≤ ls.length := by
      rw [← hls.length_eq]
      exact k.builder.length_le
    refine k.placed ls Γ labels pending hls hfits (h.placed _ _ labels pending ?_ ?_ ?_)
    · exact k.builder.lowest hls
    · exact hfits.lowest (Nat.lt_of_lt_of_le hs.nonempty hle) hle'
    · rwa [lowest_lowest _ hle, lowest_lowest _ hle]

/-! ## Checkpoints -/

theorem drafted_checkpoint {b : Builder} {Γ : Layout} {labels pending : List (Nat × Layout)}
    (h : Drafted b Γ labels pending) (hlen : Γ.length = b.locals.length) :
    Drafted b.checkpoint Γ labels pending := by
  obtain ⟨H, d⟩ := h
  refine ⟨H, ?_⟩
  have hd := d.checkpoint
  rwa [show (b.edge Γ).layout.length = b.locals.length from hlen] at hd

theorem declares_checkpoint (b : Builder) : Declares b.checkpoint b.locals.length :=
  .inr ⟨_, _, rfl, Nat.le_refl _, Nat.le_refl _⟩

/-- Where the frame holds the locals and nothing else, a checkpoint may be noted. -/
theorem placed_checkpoint {b : Builder} {ls : List Local} {Γ : Layout}
    {labels pending : List (Nat × Layout)} (h : Drafted b Γ labels pending)
    (hls : RaisedAll b.locals ls) (hfits : Fits Γ ls) :
    Placed b.checkpoint ls Γ labels pending where
  above := .bare hfits
  declares := hls.length_eq ▸ declares_checkpoint b
  drafted := drafted_checkpoint h (hfits.length_eq.trans hls.length_eq.symm)

theorem runs_checkpoint (s : State) : Runs s s.checkpoint where
  stays := ⟨⟨⟨List.prefix_refl _, fun _ _ h => h, Nat.le_refl _⟩, rfl, rfl, rfl,
    RaisedAll.refl _⟩, GrownAll.refl _, fun h => h⟩
  placed _ _ _ _ hls hfits hplaced := placed_checkpoint hplaced.drafted hls hfits

/-! ## Scopes -/

/-- The kinds of slots that are just as much captured as these locals. -/
def kinds (ls : List Local) : Layout := ls.map fun l => .variable l.isCaptured

theorem fits_kinds_append {Γ : Layout} {ls : List Local} (h : Fits Γ ls) (new : List Local) :
    Fits (kinds new ++ Γ) (new ++ ls) := by
  induction new with
  | nil => exact h
  | cons l new ih => exact .cons (fun hc => hc) ih

theorem effect_retirement {pool : Array Value} {captureCount next : Nat} (l : Local)
    (Γ : Layout) : Effect pool captureCount next l.retirement []
      (.variable l.isCaptured :: Γ) [(next, Γ)] := by
  unfold Local.retirement
  split
  · exact .closeUpvalue
  · next h => exact .pop (fun heq => h (SlotKind.variable.inj heq)) (fun heq => nomatch heq)

/-- The locals of a scope are retired, newest first. -/
theorem placed_retire {ls : List Local} {Γ : Layout} {labels pending : List (Nat × Layout)}
    (hfits : Fits Γ ls) (new : List Local) {s : State}
    (h : Placed s.builder (new ++ ls) (kinds new ++ Γ) labels pending) :
    Placed (new.foldl (fun s l => s.appendOp l.retirement) s).builder ls Γ labels
      pending := by
  induction new generalizing s with
  | nil => exact h
  | cons l new ih =>
    refine ih (s := s.appendOp l.retirement) ?_
    refine h.emit l.retirement [] (kept_of_code ?_ ?_).toLarger rfl ?_ rfl
      (effect_retirement l _) ?_ (.bare (fits_kinds_append hfits new)) (Nat.le_succ _)
    · exact fun k v hv => hv
    · exact Nat.le_trans (Nat.le_succ _) (Nat.le_of_eq (Array.size_push ..).symm)
    · exact code_append ..
    · intro x hx
      refine .inl ⟨List.mem_singleton.mp hx, ?_⟩
      unfold Local.retirement
      split <;> exact fun h => nomatch h

theorem takeWhile_append_eq {p : Local → Bool} {new old : List Local}
    (hnew : ∀ l ∈ new, p l = true) (hold : ∀ l ∈ old, p l = false) :
    (new ++ old).takeWhile p = new ∧ (new ++ old).dropWhile p = old := by
  induction new with
  | nil =>
    cases old with
    | nil => exact ⟨rfl, rfl⟩
    | cons l old =>
      have hl := hold l List.mem_cons_self
      simp [hl]
  | cons l new ih =>
    obtain ⟨htake, hdrop⟩ := ih fun l' hl' => hnew l' (List.mem_cons_of_mem _ hl')
    have hl := hnew l List.mem_cons_self
    simp [hl, htake, hdrop]

/-- A scope ends by retiring the locals that were declared in it. -/
theorem closeScope_eq {s : State} {depth : Nat} {new old : List Local}
    (hdepth : s.builder.depth = depth + 1) (hlocals : s.builder.locals = new ++ old)
    (hnew : ∀ l ∈ new, l.depth = some (depth + 1))
    (hold : ∀ l ∈ old, ∃ d, l.depth = some d ∧ d ≤ depth) :
    ∃ defects, s.closeScope = (new.foldl (fun s l => s.appendOp l.retirement)
      (s.withBuilder { s.builder with depth, locals := old } s.work defects)).checkpoint := by
  have hout : ∀ l ∈ new, (!l.outlives depth) = true := fun l hl => by
    simp [Local.outlives, hnew l hl]
  have hin : ∀ l ∈ old, (!l.outlives depth) = false := fun l hl => by
    obtain ⟨d, hd, hle⟩ := hold l hl
    simp [Local.outlives, hd, hle]
  obtain ⟨htake, hdrop⟩ := takeWhile_append_eq (p := fun l => !l.outlives depth) hout hin
  have hpred : s.builder.depth - 1 = depth := by rw [hdepth]; rfl
  unfold closeScope
  dsimp only
  simp only [builder_guarantee, hpred, hlocals, htake, hdrop]
  obtain ⟨defects, hd⟩ := guarantee_eq s (0 < s.builder.depth) .scopeUnderflow
  rw [hd]
  obtain ⟨defects', hd'⟩ := guarantee_eq (s.withBuilder s.builder s.work defects)
    (!old.isEmpty) .calleeRetired
  rw [hd']
  exact ⟨defects', rfl⟩

/-- A scope that is closed leaves the frame as it was when it was opened. -/
theorem runs_closeScope {s t : State} (ht : t.Sane) (hsettled : Settled s.builder)
    (h : Advances s.openScope t) (hq : t.closeScope.IsQuiet) : Runs s t.closeScope := by
  obtain ⟨new, old, hlocals, hraised, hnew, -⟩ := h.builder.locals
  have hraised : RaisedAll s.builder.locals old := hraised
  have hlen : s.openScope.builder.locals.length = old.length := hraised.length_eq
  obtain ⟨defects, heq⟩ := closeScope_eq h.builder.depth hlocals hnew fun l hl => by
    obtain ⟨l₀, hl₀, hd⟩ := raisedAll_depth hraised hl
    rw [hd]
    exact hsettled.depths l₀ hl₀
  rw [heq] at hq ⊢
  have hroomy := ht.roomy _ List.mem_cons_self
  have hroom : old.length ≤ byteRange := by
    have hle := hroomy.locals
    rw [hlocals, List.length_append] at hle
    omega
  have hknown : t.KnowsAll t.builder.chunk := ht.known _ List.mem_cons_self
  have hsane : (t.withBuilder { t.builder with depth := s.builder.depth, locals := old }
      t.work defects).Sane := by
    refine ht.withBuilder ?_ ?_ ?_ ..
    exacts [⟨hroom, hroomy.captures, hroomy.constants, hroomy.lines⟩, rfl, hknown]
  have hfold := edits_foldl (fun s (l : Local) => edits_appendOp s l.retirement) new
    (t.withBuilder { t.builder with depth := s.builder.depth, locals := old } t.work defects)
  have hstays := hfold.stays hsane hq
  refine ⟨⟨⟨?_, ?_, ?_, ?_, ?_⟩, h.around.trans hstays.around, fun hsound =>
    hstays.sound (h.sound hsound)⟩, fun ls Γ labels pending hls hfits hplaced => ?_⟩
  · have hlarger := hstays.builder.toLarger
    exact ⟨List.IsPrefix.trans h.builder.captures hlarger.captures,
      fun k v hv => hlarger.pool k v (h.builder.pool k v hv),
      Nat.le_trans h.builder.size hlarger.size⟩
  · exact hstays.builder.name.trans h.builder.name
  · exact hstays.builder.depth
  · exact hstays.builder.arity.trans h.builder.arity
  · exact hraised.trans hstays.builder.locals
  · have hls' : RaisedAll old ls := hstays.builder.locals.trans hls
    have hlowest : ∀ {α : Type} (as bs : List α), bs.length = ls.length →
        lowest s.openScope.builder.locals.length (as ++ bs) = bs := by
      intro α as bs hbs
      refine lowest_append (hbs.trans ?_)
      rw [hlen, hls'.length_eq]
    have hopen : Placed s.openScope.builder ls Γ labels pending :=
      hplaced.mono ⟨List.prefix_refl _, fun _ _ h => h, Nat.le_refl _⟩ rfl rfl rfl
    have hinside := h.placed (new ++ ls) (kinds new ++ Γ) labels pending
      (hlocals ▸ (RaisedAll.refl new).append hls') (fits_kinds_append hfits new) (by
        rw [hlowest _ _ rfl, hlowest _ _ hfits.length_eq]
        exact hopen)
    have hretire := placed_retire hfits new (s := t.withBuilder { t.builder with
      depth := s.builder.depth, locals := old } t.work defects)
      (hinside.mono ⟨List.prefix_refl _, fun _ _ h => h, Nat.le_refl _⟩ rfl rfl rfl)
    exact placed_checkpoint hretire.drafted hls hfits

/-- What is in a scope is a statement, whatever it declares. -/
theorem runs_inScope {inside : Pass} {s : State} (hs : s.Sane)
    (hinside : ∀ s, Actions s (inside s)) (hsettled : Settled s.builder)
    (hq : (s.inScope inside).IsQuiet)
    (h : s.openScope.Sane → (inside s.openScope).IsQuiet →
      Advances s.openScope (inside s.openScope)) : Runs s (s.inScope inside) := by
  have hopen := (actions_openScope s).sane hs hs.quiet
  have hq₁ := (actions_closeScope _).isQuiet hq
  exact runs_closeScope ((hinside _).sane hopen hq₁) hsettled (h hopen hq₁) hq

end State

end ScriptEngine.Compile
