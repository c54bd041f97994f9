import ScriptEngine.Proofs.Compile.StatementCode
set_option autoImplicit false

/-!
# Compilation: the code of functions

A function declaration compiles a body in a builder of its own and then makes a
closure in the one around.  The function that is finished is sound
(`Finished.IsSound`), and the instruction that makes the closure finds all that
it captures in a frame of the function around.
-/

namespace ScriptEngine.Compile

/-! ## Parameters -/

/-- A function whose parameters are being read. -/
structure Header (b : Builder) : Prop where
  chunk : b.chunk = .empty
  captures : b.captures = []
  lastOp : b.lastOp = none
  checkpoints : b.checkpoints = []
  depth : b.depth = 1
  arity : b.locals.length = b.arity + 1
  depths : ∀ l ∈ b.locals, ∃ d, l.depth = some d ∧ d ≤ 1
  callee : ∃ ps, b.locals = ps ++ [.callee]

theorem Header.settled {b : Builder} (h : Header b) : Settled b where
  nonempty := by
    rw [h.arity]
    exact Nat.succ_pos _
  depths := by
    rw [h.depth]
    exact h.depths

namespace State

/-- What a part of a function does to the other functions. -/
structure Beside (s t : State) : Prop where
  around : GrownAll s.around t.around
  sound : (∀ done ∈ s.finished, done.IsSound) → ∀ done ∈ t.finished, done.IsSound

theorem Beside.trans {s t u : State} (h : Beside s t) (k : Beside t u) : Beside s u :=
  ⟨h.around.trans k.around, fun hs => k.sound (h.sound hs)⟩

theorem Stays.beside {s t : State} (h : Stays s t) : Beside s t := ⟨h.around, h.sound⟩

/-- One parameter makes one local. -/
theorem header_parameter {s : State} (hs : s.Sane) (hq : s.parameter.IsQuiet)
    (h : Header s.builder) : Header s.parameter.builder ∧ Beside s s.parameter := by
  unfold parameter at hq ⊢
  dsimp only at hq ⊢
  have hq₂ := (actions_bindName _ _).isQuiet hq
  have hq₁ := (actions_declareName _ _).isQuiet hq₂
  have htick := (Edit.tick s).sane hs hs.quiet
  split at hq₁
  · exact absurd hq₁ (not_isQuiet_complainNext htick _)
  · next hroom =>
    rw [if_neg hroom] at hq hq₂ ⊢
    have hs₁ := (Action.setArity s.tick (s.tick.builder.arity + 1)).sane htick hq₁
    obtain ⟨r, hr, hsr, hbuilder, hcases⟩ := declareName_cases hs₁ hq₂
    have hstays := hr.stays hs₁ hsr.quiet
    have hdepth : r.builder.depth = 1 := by
      rw [hbuilder]
      exact h.depth
    rcases hcases with ⟨h0, -⟩ | ⟨-, heq⟩
    · exact absurd (h.depth.symm.trans h0) (by decide)
    · rw [heq]
      unfold bindName
      have hne : (r.withLocal ⟨r.previous.lexeme, none, false⟩).builder.depth ≠ 0 := by
        show r.builder.depth ≠ 0
        rw [hdepth]
        decide
      rw [if_neg hne, makeReadable_eq hne rfl]
      refine ⟨?_, hstays.around, hstays.sound⟩
      have hlocals : r.builder.locals = s.builder.locals := by rw [hbuilder]; rfl
      obtain ⟨ps, hps⟩ := h.callee
      refine ⟨?_, ?_, ?_, ?_, hdepth, ?_, ?_, ?_⟩
      · show r.builder.chunk = .empty
        rw [hbuilder]
        exact h.chunk
      · show r.builder.captures = []
        rw [hbuilder]
        exact h.captures
      · show r.builder.lastOp = none
        rw [hbuilder]
        exact h.lastOp
      · show r.builder.checkpoints = []
        rw [hbuilder]
        exact h.checkpoints
      · show r.builder.locals.length + 1 = r.builder.arity + 1
        rw [hlocals, h.arity, hbuilder]
        rfl
      · intro l hl
        rcases List.mem_cons.mp hl with rfl | hl
        · exact ⟨1, congrArg some hdepth, Nat.le_refl 1⟩
        · have hl : l ∈ r.builder.locals := hl
          rw [hlocals] at hl
          exact h.depths l hl
      · refine ⟨⟨r.previous.lexeme, some r.builder.depth, false⟩ :: ps, ?_⟩
        show _ :: r.builder.locals = _
        rw [hlocals, hps]
        rfl

theorem header_parameters (limit : Nat) {s : State} (hs : s.Sane)
    (hq : (s.parameters limit).IsQuiet) (h : Header s.builder) :
    Header (s.parameters limit).builder ∧ Beside s (s.parameters limit) := by
  induction limit generalizing s with
  | zero => exact ⟨h, GrownAll.refl _, fun h => h⟩
  | succ limit ih =>
    unfold parameters at hq ⊢
    dsimp only at hq ⊢
    split at hq
    · next hcomma =>
      rw [if_pos hcomma]
      have hq₂ := (actions_parameters _ _).isQuiet hq
      have hq₁ := (Edit.read _).isQuiet hq₂
      have hs₁ := (actions_parameter s).sane hs hq₁
      obtain ⟨h₁, hbeside₁⟩ := header_parameter hs hq₁ h
      have hread := runs_read hs₁ hq₂
      obtain ⟨h₂, hbeside₂⟩ := ih (hs₁.read hq₂) hq (by rwa [builder_read hs₁ hq₂])
      exact ⟨h₂, hbeside₁.trans (hread.stays.beside.trans hbeside₂)⟩
    · next hcomma =>
      rw [if_neg hcomma]
      exact header_parameter hs hq h

theorem header_parameterList {s : State} (hs : s.Sane) (hq : s.parameterList.IsQuiet)
    (h : Header s.builder) : Header s.parameterList.builder ∧ Beside s s.parameterList := by
  unfold parameterList at hq ⊢
  dsimp only at hq ⊢
  have hq₂ := (edits_require ..).isQuiet hq
  rw [builder_require ?_ hq]
  · split at hq₂
    · next hempty =>
      rw [if_pos hempty] at hq ⊢
      have hs₁ := (edits_require ..).sane hs hq₂
      rw [builder_require hs hq₂]
      exact ⟨h, (runs_require hs hq₂).stays.beside.trans (runs_require hs₁ hq).stays.beside⟩
    · next hempty =>
      rw [if_neg hempty] at hq ⊢
      have hq₁ := (actions_parameters _ _).isQuiet hq₂
      have hs₁ := (edits_require ..).sane hs hq₁
      have hs₂ := (actions_parameters _ _).sane hs₁ hq₂
      obtain ⟨h₂, hbeside₂⟩ := header_parameters _ hs₁ hq₂ (by rwa [builder_require hs hq₁])
      exact ⟨h₂, (runs_require hs hq₁).stays.beside.trans
        (hbeside₂.trans (runs_require hs₂ hq).stays.beside)⟩
  · split at hq₂
    · next hempty =>
      rw [if_pos hempty]
      exact (edits_require ..).sane hs hq₂
    · next hempty =>
      rw [if_neg hempty]
      have hq₁ := (actions_parameters _ _).isQuiet hq₂
      exact (actions_parameters _ _).sane ((edits_require ..).sane hs hq₁) hq₂

/-! ## Finished functions -/

end State

/-- Without code there is nothing to go wrong. -/
theorem drafted_empty {b : Builder} {Γ : Layout} (hcode : b.chunk.code = #[])
    (hop : b.lastOp = none) (hmarks : ∀ m ∈ b.checkpoints, m.offset = 0 ∧ Γ.length = m.locals) :
    Drafted b Γ [(0, Γ)] [] := by
  have hsize : b.code.size = 0 := by
    show b.chunk.code.size = 0
    rw [hcode]
    rfl
  refine ⟨fun _ => none, ?_, .inl hsize, ?_, ?_, ?_, ?_, ?_, ?_⟩
  · exact fun _ _ h => nomatch h
  · exact fun _ _ h => nomatch h
  · exact fun _ h => absurd h List.not_mem_nil
  · intro x hx
    rw [List.mem_singleton.mp hx]
    exact .inr ⟨hsize.symm, Layout.Widens.refl Γ⟩
  · intro m hm
    obtain ⟨hoff, hlen⟩ := hmarks m hm
    exact .inl ⟨hoff.trans hsize.symm, hlen⟩
  · exact fun _ _ _ _ h => nomatch h
  · intro hs
    cases hop.symm.trans hs

/-- The locals at the end of a body, of which the bottom one is the callee, have a
layout of their own. -/
theorem exists_fits {b b' : Builder} (h : Extends b b')
    (hcallee : ∃ ps, b.locals = ps ++ [.callee]) : ∃ Γ, Fits Γ b'.locals := by
  obtain ⟨ps, hps⟩ := hcallee
  obtain ⟨new, old, hlocals, hraised, -⟩ := h.locals
  rw [hps] at hraised
  obtain ⟨ps', callee, rfl, -, hcallee⟩ := hraised.append_inv
  cases hcallee with
  | @cons _ l _ _ hl hnil =>
  cases hnil
  refine ⟨State.kinds (new ++ ps') ++ [.callee], ?_⟩
  rw [hlocals, ← List.append_assoc]
  exact State.fits_kinds_append (.callee hl.name) _

/-- What is captured has a number that fits in a byte. -/
theorem Grounded.lt {outer : Builder} {c : Capture} (h : Grounded outer c)
    (hroomy : Roomy outer) : c.index < byteRange := by
  unfold Grounded at h
  split at h
  · obtain ⟨l, hl, -⟩ := h
    exact Nat.lt_of_lt_of_le (lt_of_fromOldest hl) hroomy.locals
  · exact Nat.lt_of_lt_of_le h hroomy.captures

namespace State

/-- The return that is written at the end closes the code. -/
theorem sound_returnNil {s : State} (hs : s.Sane) (hq : s.returnNil.IsQuiet)
    {ls : List Local} {Γ Γ₀ : Layout} (hfits : Fits Γ ls)
    (h : Placed s.builder ls Γ [(0, Γ₀)] []) (hlen : Γ₀.length = s.builder.arity + 1)
    (hlast : Γ₀.getLast? = some .callee) (id : Identity) :
    Finished.IsSound ⟨s.returnNil.builder.finish id, s.returnNil.builder.checkpoints⟩ := by
  have hstays := (edits_returnNil s).stays hs hq
  have hlines := size_lines ((edits_returnNil s).sane hs hq)
  have hsealed : s.returnNil.builder.lastOp = some .return ∧
      ∃ Δ, Drafted s.returnNil.builder Δ [(0, Γ₀)] [] := by
    unfold returnNil
    split
    · next hreturn => exact ⟨hreturn, Γ, h.drafted⟩
    · refine ⟨rfl, Γ, ?_⟩
      have hnil := placed_appendOp h .nil (fun _ => .literal rfl) (fun h => nomatch h)
        (.push (.bare hfits))
      exact (placed_return hnil (.bare hfits)).drafted
  obtain ⟨hreturn, Δ, H, d⟩ := hsealed
  have hlayout : (s.returnNil.builder.edge Δ).layout.Widens (Edge.mk Δ True).layout :=
    Layout.Widens.refl Δ
  refine ⟨H, Γ₀, Δ, ?_, hlast, hlines, ?_⟩
  · exact hlen.trans (congrArg (· + 1) hstays.builder.arity.symm)
  · exact d.mono rfl ⟨fun _ _ h => h, Nat.le_refl _⟩ rfl hlayout (fun _ => hreturn)
      (fun x hx => .inl hx)

/-- What follows the parameters is the code of a sound function. -/
theorem sound_body {t u : State} (ht : Header t.builder) (hbody : Advances t.checkpoint u)
    (hu : u.Sane) (hq : u.returnNil.IsQuiet) (id : Identity) :
    Finished.IsSound ⟨u.returnNil.builder.finish id, u.returnNil.builder.checkpoints⟩ := by
  obtain ⟨Γ, hfits⟩ := exists_fits hbody.builder ht.callee
  have hle : t.builder.locals.length ≤ u.builder.locals.length := hbody.builder.length_le
  have hlen : (lowest t.builder.locals.length Γ).length = t.builder.locals.length :=
    length_lowest (hfits.length_eq ▸ hle)
  have hstart : Drafted t.checkpoint.builder (lowest t.builder.locals.length Γ)
      [(0, lowest t.builder.locals.length Γ)] [] := by
    have hcode : t.builder.chunk.code = #[] := congrArg Chunk.code ht.chunk
    refine drafted_empty hcode ht.lastOp fun m hm => ?_
    have hmarks : t.checkpoint.builder.checkpoints =
        [⟨t.builder.chunk.code.size, t.builder.locals.length⟩] :=
      congrArg (List.cons _) ht.checkpoints
    rw [hmarks, List.mem_singleton] at hm
    rw [hm, hcode]
    exact ⟨rfl, hlen⟩
  have hdeclares : Declares t.checkpoint.builder
      (lowest t.builder.locals.length u.builder.locals).length := by
    rw [length_lowest hle]
    exact declares_checkpoint _
  have hplaced := hbody.placed _ Γ _ [] (RaisedAll.refl _) hfits
    ⟨.bare (hfits.lowest ht.settled.nonempty hle), hdeclares, hstart⟩
  refine sound_returnNil hu hq hfits hplaced ?_
    (hfits.lowest ht.settled.nonempty hle).getLast id
  rw [hlen, ht.arity, hbody.builder.arity]
  rfl

/-- A finished function joins the sound ones. -/
theorem sound_leaveFunction {s : State} (hs : s.Sane) {f : Function Value}
    (hsound : ∀ done ∈ s.finished, done.IsSound)
    (hf : Finished.IsSound ⟨f, s.builder.checkpoints⟩) :
    ∀ done ∈ (s.leaveFunction f).finished, done.IsSound := by
  intro done hdone
  unfold leaveFunction at hdone
  rw [if_pos (Array.isEmpty_iff.mpr hs.quiet), Array.mem_push] at hdone
  rcases hdone with hold | rfl
  · exact hsound done hold
  · exact hf

section Forms

variable {left : Nat} {expression declaration declarations : Pass}

/-- The state behind the parameters of a function. -/
def prologue (s : State) : State :=
  (s.enterFunction s.previous.lexeme).openScope.parameterList.require .leftBrace
    .openingOfBody

theorem actions_prologue (s : State) : Actions s s.prologue :=
  (Action.enter s s.previous.lexeme).actions.trans <| (actions_openScope _).trans <|
    (actions_parameterList _).trans (edits_require _ .leftBrace .openingOfBody).actions

theorem header_prologue {s : State} (hs : s.Sane) (hq : s.prologue.IsQuiet) :
    Header s.prologue.builder ∧
      Beside (s.enterFunction s.previous.lexeme).openScope s.prologue := by
  have hstart := (Action.enter s s.previous.lexeme).sane hs hs.quiet
  have hopen := (actions_openScope _).sane hstart hs.quiet
  have hq₁ := (edits_require ..).isQuiet hq
  have hs₁ := (actions_parameterList _).sane hopen hq₁
  have hheader : Header (s.enterFunction s.previous.lexeme).openScope.builder :=
    ⟨rfl, rfl, rfl, rfl, rfl, rfl, fun l hl => by
      rw [List.mem_singleton.mp hl]
      exact ⟨0, rfl, Nat.zero_le _⟩, [], rfl⟩
  obtain ⟨hheader₁, hbeside₁⟩ := header_parameterList hopen hq₁ hheader
  unfold prologue
  rw [builder_require hs₁ hq]
  exact ⟨hheader₁, hbeside₁.trans (runs_require hs₁ hq).stays.beside⟩

/-- The state behind the body of a function, whose parameters have been read. -/
def body (declarations : Pass) (t : State) : State :=
  (t.checkpoint.blockForm declarations).returnNil

theorem actions_body (hd : ∀ s, Actions s (declarations s)) (t : State) :
    Actions t (t.body declarations) :=
  (Action.checkpoint t).actions.trans <| (actions_blockForm hd _).trans
    (edits_returnNil _).actions

/-- A body is the code of a sound function. -/
theorem beside_body (hd : PassAdvances left declarations) {t : State} (ht : t.Sane)
    (hheader : Header t.builder) (hq : (t.body declarations).IsQuiet) (hleft : t.left ≤ left) :
    Beside t (t.body declarations) ∧
      Finished.IsSound ⟨(t.body declarations).builder.finish (t.body declarations).nextId,
        (t.body declarations).builder.checkpoints⟩ := by
  unfold body at hq ⊢
  have hblock := advances_blockForm hd
  have hq₁ := (edits_returnNil _).isQuiet hq
  have hmark := (Action.checkpoint t).sane ht ht.quiet
  have hs₁ := (hblock.actions _).sane hmark hq₁
  have hbody := hblock.advances _ hmark hq₁ hleft
    ⟨hheader.settled.nonempty, hheader.settled.depths⟩
  have hreturn := (edits_returnNil _).stays hs₁ hq
  refine ⟨⟨hbody.around.trans hreturn.around, fun hsound => ?_⟩, ?_⟩
  · exact hreturn.sound (hbody.sound hsound)
  · exact sound_body hheader hbody hs₁ hq _

/-! ## Making closures -/

/-- The bytes that list captures. -/
def captureBytes (captures : List Capture) : List UInt8 :=
  captures.flatMap fun c => [if c.isLocal then 1 else 0, c.index.toUInt8]

theorem length_captureBytes (captures : List Capture) :
    (captureBytes captures).length = 2 * captures.length := by
  induction captures with
  | nil => rfl
  | cons c captures ih =>
    have hcons : captureBytes (c :: captures) =
        (if c.isLocal then 1 else 0) :: c.index.toUInt8 :: captureBytes captures := rfl
    rw [hcons, List.length_cons, List.length_cons, List.length_cons, ih]
    omega

theorem capturesOf_captureBytes {captures : List Capture}
    (h : ∀ c ∈ captures, c.index < byteRange) :
    Instruction.capturesOf (captureBytes captures) = captures := by
  induction captures with
  | nil => rfl
  | cons c captures ih =>
    obtain ⟨hc, hrest⟩ := List.forall_mem_cons.mp h
    have hcons : Instruction.capturesOf (captureBytes (c :: captures)) =
        ⟨(if c.isLocal then 1 else 0 : UInt8) == 1, c.index.toUInt8.toNat⟩ ::
          Instruction.capturesOf (captureBytes captures) := rfl
    rw [hcons, ih hrest, toNat_toUInt8 hc]
    obtain ⟨isLocal, index⟩ := c
    cases isLocal <;> rfl

theorem builder_appendCaptures (captures : List Capture) (s : State) :
    ∃ lines, (s.appendCaptures captures).builder = { s.builder with
      chunk := { s.builder.chunk with
        code := s.builder.chunk.code ++ (captureBytes captures).toArray, lines } } := by
  induction captures generalizing s with
  | nil =>
    refine ⟨s.builder.chunk.lines, ?_⟩
    show s.builder = _
    simp [captureBytes]
  | cons c captures ih =>
    obtain ⟨lines, h⟩ := ih ((s.appendByte (if c.isLocal then 1 else 0)).appendNumber c.index)
    refine ⟨lines, h.trans ?_⟩
    have hcode : ((s.appendByte (if c.isLocal then 1 else 0)).appendNumber
        c.index).builder.chunk.code = s.builder.chunk.code ++
          [if c.isLocal then 1 else 0, c.index.toUInt8].toArray := by
      apply Array.ext'
      unfold appendNumber guarantee
      split <;> simp [appendByte, noteDefect, Chunk.append]
    have hbytes : (captureBytes (c :: captures)).toArray =
        [if c.isLocal then 1 else 0, c.index.toUInt8].toArray ++
          (captureBytes captures).toArray := by
      apply Array.ext'
      simp [captureBytes]
    rw [hcode, Array.append_assoc, ← hbytes]
    unfold appendNumber guarantee
    split <;> rfl

/-- The code that makes a closure of a function. -/
def closureCode (s : State) (f : Function Value) (captures : List Capture) : State :=
  let (index, s) := s.poolConstant (.function f)
  (s.appendWith .closure index).appendCaptures captures

theorem edits_closureCode {s : State} {f : Function Value} (hknown : s.IsQuiet → s.Knows f)
    (captures : List Capture) : Edits s (s.closureCode f captures) := by
  refine .head (Edit.pool s (.function f) fun hq g hg => ?_)
    ((edits_appendWith ..).trans (edits_appendCaptures ..))
  cases hg
  exact hknown hq

theorem isQuiet_of_closureCode {s : State} {f : Function Value} {captures : List Capture}
    (h : (s.closureCode f captures).IsQuiet) : s.IsQuiet :=
  isQuiet_of_poolConstant ((edits_appendWith ..).isQuiet ((edits_appendCaptures ..).isQuiet h))

theorem builder_closureCode {s : State} (hs : s.Sane) {f : Function Value}
    {captures : List Capture} (hq : (s.closureCode f captures).IsQuiet) :
    s.builder.chunk.constants.size < byteRange ∧
      ∃ lines, (s.closureCode f captures).builder = { s.builder with
        chunk := {
          code := s.builder.chunk.code ++ (Opcode.closure.toByte ::
            s.builder.chunk.constants.size.toUInt8 :: captureBytes captures).toArray
          lines
          constants := s.builder.chunk.constants.push (.function f) }
        lastOp := some .closure } := by
  have hqp : (s.poolConstant (.function f)).2.IsQuiet :=
    (edits_appendWith ..).isQuiet ((edits_appendCaptures ..).isQuiet hq)
  obtain ⟨hroom, heq⟩ := poolConstant_eq hs hqp
  obtain ⟨lines, hbuilder⟩ := builder_appendCaptures captures
    ((s.poolConstant (.function f)).2.appendWith .closure (s.poolConstant (.function f)).1)
  refine ⟨hroom, lines, hbuilder.trans ?_⟩
  rw [builder_appendWith, heq]
  dsimp only [withBuilder]
  rw [code_appendWith, Array.append_assoc]
  have hbytes : [Opcode.closure.toByte, s.builder.chunk.constants.size.toUInt8].toArray ++
      (captureBytes captures).toArray = (Opcode.closure.toByte ::
        s.builder.chunk.constants.size.toUInt8 :: captureBytes captures).toArray := by
    apply Array.ext'
    simp
  rw [hbytes]
  rfl

/-- A closure may be put into one of the slots that it captures. -/
theorem drafted_closureCode {s : State} (hs : s.Sane) {f : Function Value}
    {captures : List Capture} (hq : (s.closureCode f captures).IsQuiet)
    (hcount : f.captureCount = captures.length) (hfew : captures.length ≤ byteRange)
    (hgrounded : ∀ c ∈ captures, Grounded s.builder c) {ls : List Local} {κ : SlotKind}
    {Γ : Layout} {labels pending : List (Nat × Layout)}
    (hcaptured : ∀ (i : Nat) (l : Local), fromOldest? s.builder.locals i = some l →
      l.isCaptured = true → l.name ≠ "" → fromOldest? (κ :: Γ) i = some (.variable true))
    (h : Placed s.builder ls Γ labels pending) :
    Drafted (s.closureCode f captures).builder (κ :: Γ) labels pending := by
  obtain ⟨hroom, lines, hbuilder⟩ := builder_closureCode hs hq
  rw [hbuilder]
  have hpool : Placed { s.builder with
      chunk := { s.builder.chunk with
        constants := s.builder.chunk.constants.push (.function f) } } ls Γ labels pending :=
    h.mono ⟨List.prefix_refl _, fun k v hv => getElem_push_of_some hv _, Nat.le_refl _⟩
      rfl rfl rfl
  have hroomy := hs.roomy _ List.mem_cons_self
  refine hpool.write .closure (s.builder.chunk.constants.size.toUInt8 :: captureBytes captures)
    ⟨List.prefix_refl _, fun k v hv => hv, ?_⟩ rfl rfl rfl
    (.closure (f := f) (κ := κ) ?_ ?_ ?_ ?_) ?_
  · show s.builder.chunk.code.size ≤ (s.builder.chunk.code ++ _).size
    rw [Array.size_append]
    exact Nat.le_add_right _ _
  · rw [toNat_toUInt8 hroom]
    exact Array.getElem?_push_size
  · rw [length_captureBytes, hcount]
  · rw [length_captureBytes]
    exact two_mul_lt_of_le_byteRange hfew
  · rw [capturesOf_captureBytes fun c hc => (hgrounded c hc).lt hroomy]
    intro c hc
    have hground := hgrounded c hc
    unfold Grounded at hground
    unfold Capture.Allowed
    split
    · next hlocal =>
      rw [if_pos hlocal] at hground
      obtain ⟨l, hl, hcap, hname⟩ := hground
      exact hcaptured c.index l hl hcap hname
    · next hlocal =>
      rwa [if_neg hlocal] at hground
  · exact fun x hx => .inl ⟨List.mem_singleton.mp hx, fun h => nomatch h⟩

/-- The state of the function around one whose code has ended. -/
def leaveFinished (t : State) : State := t.leaveFunction (t.builder.finish t.nextId)

theorem functionForm_eq (declarations : Pass) (s : State) :
    s.functionForm declarations =
      (s.prologue.body declarations).leaveFinished.closureCode
        ((s.prologue.body declarations).builder.finish (s.prologue.body declarations).nextId)
        (s.prologue.body declarations).builder.captures := rfl

/-- Back in the function around, what was captured is there. -/
theorem leaveFinished_spec {b : Builder} {around : List Builder} {t : State} (ht : t.Sane)
    (hgrown : GrownAll (b :: around) t.around) :
    Grown b t.leaveFinished.builder ∧ GrownAll around t.leaveFinished.around ∧
      ∀ c ∈ t.builder.captures, Grounded t.leaveFinished.builder c := by
  have hlinked := ht.linked
  have hbuilder : t.leaveFinished.builder = t.around.headD {} := rfl
  have haround : t.leaveFinished.around = t.around.tail := rfl
  rw [hbuilder, haround]
  generalize t.around = bs at hgrown hlinked
  cases hgrown with
  | cons hb hrest =>
    cases hlinked with
    | inner hgrounded _ => exact ⟨hb, hrest, hgrounded⟩

/-- What the code of a function does in the function around. -/
structure Pushes (s t : State) : Prop where
  stays : Stays s t
  checkpoints : t.builder.checkpoints = s.builder.checkpoints
  /-- The closure may be put into one of the slots that it captures. -/
  drafted : ∀ (ls : List Local) (κ : SlotKind) (Γ : Layout)
    (labels pending : List (Nat × Layout)),
    (∀ (i : Nat) (l : Local), fromOldest? t.builder.locals i = some l →
      l.isCaptured = true → l.name ≠ "" → fromOldest? (κ :: Γ) i = some (.variable true)) →
    Placed s.builder ls Γ labels pending → Drafted t.builder (κ :: Γ) labels pending

theorem pushes_functionForm (hd : PassAdvances left declarations) {s : State} (hs : s.Sane)
    (hq : (s.functionForm declarations).IsQuiet) (hleft : s.left ≤ left) :
    Pushes s (s.functionForm declarations) := by
  have hp := actions_prologue s
  have hheader := fun h => header_prologue (s := s) hs h
  rw [functionForm_eq] at hq ⊢
  generalize s.prologue = t at hp hheader hq ⊢
  have hb := actions_body hd.actions t
  have hbody := fun ht hh h hleft => beside_body (t := t) hd ht hh h hleft
  generalize t.body declarations = u at hb hbody hq ⊢
  have hknown : u.leaveFinished.IsQuiet →
      u.leaveFinished.Knows (u.builder.finish u.nextId) := by
    intro h
    have hempty : u.diagnostics.isEmpty = true := Array.isEmpty_iff.mpr h
    refine ⟨⟨_, u.builder.checkpoints⟩, ?_, rfl⟩
    unfold leaveFinished leaveFunction
    rw [if_pos hempty]
    exact Array.mem_push_self
  have hcode := edits_closureCode hknown u.builder.captures
  have hq₃ := hcode.isQuiet hq
  have hq₂ := (Action.leave u).isQuiet hq₃
  have hq₁ := hb.isQuiet hq₂
  have ht := hp.sane hs hq₁
  have hu := hb.sane ht hq₂
  have hr : u.leaveFinished.Sane := (Action.leave u).sane hu hq₃
  obtain ⟨hhead, hbeside⟩ := hheader hq₁
  obtain ⟨hbeside', hfin⟩ := hbody ht hhead hq₂ (Nat.le_trans hp.left_le hleft)
  have haround : GrownAll (s.builder :: s.around) u.around :=
    hbeside.around.trans hbeside'.around
  obtain ⟨hgrown, hrest, hgrounded⟩ := leaveFinished_spec hu haround
  have hstays := hcode.stays hr hq
  refine ⟨⟨hgrown.kept.trans hstays.builder, hrest.trans hstays.around, fun hsound => ?_⟩,
    ?_, ?_⟩
  · exact hstays.sound (sound_leaveFunction hu (hbeside'.sound (hbeside.sound hsound)) hfin)
  · obtain ⟨-, lines, hbuilder⟩ := builder_closureCode hr hq
    rw [hbuilder]
    exact hgrown.checkpoints
  · intro ls κ Γ labels pending hcaptured hplaced
    refine drafted_closureCode hr hq rfl (hu.roomy _ List.mem_cons_self).captures hgrounded ?_
      (hplaced.mono hgrown.kept.toLarger (by rw [hgrown.chunk]) hgrown.lastOp
        hgrown.checkpoints)
    obtain ⟨-, lines, hbuilder⟩ := builder_closureCode hr hq
    rw [hbuilder] at hcaptured
    exact hcaptured

/-! ## Function declarations -/

/-- A closure that stays on the top is no captured local. -/
theorem Pushes.placed {s t : State} (h : Pushes s t) {ls : List Local} {Γ : Layout}
    {labels pending : List (Nat × Layout)} (hls : RaisedAll t.builder.locals ls)
    (hfits : Fits Γ ls) (hplaced : Placed s.builder ls Γ labels pending) :
    Placed t.builder ls (.temporary :: Γ) labels pending where
  above := .push (.bare hfits)
  declares := hplaced.declares.larger h.stays.builder.toLarger h.checkpoints
  drafted := by
    refine h.drafted ls .temporary Γ labels pending (fun i l hl hcap hname => ?_) hplaced
    have hslot := (hfits.lower hls).captured hl hname hcap
    rw [fromOldest_cons_of_lt (lt_of_fromOldest hslot), hslot]

/-- A global needs no permission to be read. -/
theorem makeReadable_global {s : State} (hdepth : s.builder.depth = 0) :
    s.makeReadable = s := by
  unfold makeReadable
  rw [hdepth]
  cases s.builder.locals <;> rfl

theorem introduces_fnForm (hd : PassAdvances left declarations) {s : State} (hs : s.Sane)
    (hq : (s.fnForm declarations).IsQuiet) (hleft : s.left ≤ left)
    (hsettled : Settled s.builder) : Introduces s (s.fnForm declarations) := by
  have hform : s.fnForm declarations =
      ((s.declareName .functionName).2.makeReadable.functionForm declarations).bindName
        (s.declareName .functionName).1 := rfl
  rw [hform] at hq ⊢
  have hq₂ := (actions_bindName _ _).isQuiet hq
  have hq₁ := (actions_functionForm hd.actions _).isQuiet hq₂
  have hdeclare : Actions s (s.declareName .functionName).2.makeReadable :=
    (actions_declareName s .functionName).trans (actions_makeReadable _)
  have hs₁ := hdeclare.sane hs hq₁
  have hs₂ := (actions_functionForm hd.actions _).sane hs₁ hq₂
  have hpushes := pushes_functionForm hd hs₁ hq₂ (Nat.le_trans hdeclare.left_le hleft)
  obtain ⟨r, hr, hsr, hbuilder, hcases⟩ :=
    declareName_cases hs ((actions_makeReadable _).isQuiet hq₁)
  have hbefore := runs_of_edits hr hs hsr.quiet hbuilder
  have hsettled' : Settled r.builder := hbuilder ▸ hsettled
  refine hbefore.introduces ?_ hsettled
  rcases hcases with ⟨hdepth, hpool, heq⟩ | ⟨hdepth, heq⟩
  · have hglobal : (r.poolConstant (.string r.previous.lexeme)).2.builder.depth = 0 := by
      rw [(poolConstant_eq hsr hpool).2, ← hdepth, ← hbuilder]
      rfl
    have hsame : (r.poolConstant (.string r.previous.lexeme)).2.makeReadable =
        (r.poolConstant (.string r.previous.lexeme)).2 := makeReadable_global hglobal
    rw [heq] at hq hs₂ hpushes ⊢
    dsimp only at hq hs₂ hpushes ⊢
    rw [hsame] at hq hs₂ hpushes ⊢
    unfold bindName at hq ⊢
    rw [if_pos (hpushes.stays.builder.depth.trans hglobal), ← hbuilder] at hq ⊢
    exact (runs_defineGlobal hsr hpool hpushes.stays
      (fun ls Γ labels pending hls hfits h =>
        hpushes.placed hls hfits h) hs₂ hq).advances.introduces
  · have hdepth' : r.builder.depth ≠ 0 := hbuilder ▸ hdepth
    have hreadable : (r.withLocal ⟨r.previous.lexeme, none, false⟩).makeReadable =
        r.withLocal ⟨r.previous.lexeme, some r.builder.depth, false⟩ :=
      makeReadable_eq (s := r.withLocal ⟨r.previous.lexeme, none, false⟩) hdepth' rfl
    rw [heq] at hpushes ⊢
    dsimp only at hpushes ⊢
    rw [hreadable] at hpushes ⊢
    unfold bindName
    rw [if_neg]
    · refine introduces_makeReadable hsettled' hdepth' hpushes.stays ?_
      intro l old ls b Γ labels pending hlocals hls hcap hfits hplaced
      have hstart : Placed (r.withLocal ⟨r.previous.lexeme, some r.builder.depth,
          false⟩).builder ls Γ labels pending :=
        hplaced.mono ⟨List.prefix_refl _, fun _ _ h => h, Nat.le_refl _⟩ rfl rfl rfl
      refine hpushes.drafted ls _ Γ labels pending (fun i l₀ hl₀ hcap₀ hname₀ => ?_) hstart
      rw [hlocals] at hl₀
      exact (Fits.cons hcap (hfits.lower hls)).captured hl₀ hname₀ hcap₀
    · rw [hpushes.stays.builder.depth]
      exact hdepth'

end Forms

end State

end ScriptEngine.Compile
