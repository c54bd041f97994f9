import ScriptEngine.Proofs.Compile.Progress
import ScriptEngine.Proofs.Compile.Walk
set_option autoImplicit false

/-!
# Compilation: walks through statements

Each form of declaration is a walk if its parts are, and so is a whole compilation
(`walks_compileTokens`): at every point of it the facts hold that the compiler rests
on, also after mistakes and while it recovers from them.

The bound on the depth is part of this.  A form that reads a token leaves its parts
fewer, and a form that reads none, at the end of the source or where an expression
stands for a declaration, goes down a fixed number of levels; so two levels for each
token, and a few more, are enough (`FormsWalk`).
-/

namespace ScriptEngine.Compile

open State

/-! ## What expressions leave alone -/

theorem inner_captureIn (inner : Builder) (around : List Builder) (c : Capture)
    (isFull : Bool) : (captureIn inner around c isFull).inner =
      { inner with captures := (captureIn inner around c isFull).inner.captures } := by
  unfold captureIn Builder.addCapture?
  split
  · next h =>
    split at h
    · cases h
      rfl
    · split at h
      · cases h
      · cases h
        rfl
  · rfl

/-- Looking for a name changes the function it is looked up in by its captures. -/
theorem inner_captureFrom {name : String} {inner : Builder} {around : List Builder}
    {found : Captured} (h : captureFrom name inner around = some found) :
    found.inner = { inner with captures := found.inner.captures } := by
  cases around with
  | nil => cases h
  | cons outer around =>
    unfold captureFrom at h
    split at h
    · cases h
      exact inner_captureIn ..
    · obtain ⟨found', -, rfl⟩ := Option.map_eq_some_iff.mp h
      exact inner_captureIn ..

/-- The locals of the current function and its scope. -/
def State.frame (s : State) : List Local × Nat := (s.builder.locals, s.builder.depth)

theorem frame_of_builder {s t : State} (h : t.builder = s.builder) : t.frame = s.frame := by
  unfold frame
  rw [h]

theorem frame_landJump (s : State) (operand : Nat) : (s.landJump operand).frame = s.frame := by
  have hguard := builder_guarantee s (operand < s.codeSize) .landedNoJump
  unfold landJump
  dsimp only
  split
  · unfold frame withLastOp withChunk
    dsimp only
    rw [hguard]
  · unfold frame withLastOp complain
    dsimp only
    rw [builder_complainAt, hguard]

theorem frame_loopBack (s : State) (start : Nat) : (s.loopBack start).frame = s.frame := by
  have hguard := builder_guarantee s (start ≤ s.codeSize) .loopStartsLate
  unfold loopBack
  dsimp only
  split
  · unfold frame withLastOp withChunk
    dsimp only
    rw [hguard]
  · unfold frame withLastOp complain
    rw [builder_complainAt]
    unfold withChunk
    dsimp only
    rw [hguard]

theorem State.Edit.frame {s t : State} (h : Edit s t) : t.frame = s.frame := by
  cases h with
  | read => exact frame_of_builder s.read_keeps.1
  | complain => exact frame_of_builder (builder_complainAt ..)
  | landJump => exact frame_landJump ..
  | loopBack => exact frame_loopBack ..
  | pool v =>
    unfold State.frame
    rw [(s.poolConstant_keeps v).1]
  | capture found _ hfound =>
    unfold State.frame
    dsimp only
    rw [inner_captureFrom hfound]
  | _ => rfl

/-- No expression declares a local or opens a scope. -/
theorem State.Edits.frame {s t : State} (h : Edits s t) : t.frame = s.frame := by
  induction h with
  | refl => rfl
  | tail _ hedit ih => exact hedit.frame.trans ih

/-! ## Scopes -/

section Scopes

variable {p : Point}

/-- A scope that is open is closed without a defect. -/
theorem closeScope_retires {s : State} {ws : List Written} (h : s.builder.Fits ws)
    (hdepth : 0 < s.builder.depth) :
    ∃ retired kept, s.builder.locals = retired ++ kept ∧ kept ≠ [] ∧
      s.closeScope = (retired.foldl (fun (s : State) l => s.appendOp l.retirement)
        { s with builder := { s.builder with
            depth := s.builder.depth - 1, locals := kept } }).checkpoint := by
  have hkept : s.builder.locals.dropWhile (fun l => !l.outlives (s.builder.depth - 1)) ≠ [] := by
    intro hnil
    obtain ⟨l, hl, -, hzero⟩ := h.callee
    have hall := List.dropWhile_eq_nil_iff.mp hnil l (mem_of_fromOldest hl)
    simp [Local.outlives, hzero] at hall
  refine ⟨s.builder.locals.takeWhile fun l => !l.outlives (s.builder.depth - 1),
    s.builder.locals.dropWhile fun l => !l.outlives (s.builder.depth - 1),
    List.takeWhile_append_dropWhile.symm, hkept, ?_⟩
  have hopen : s.guarantee (0 < s.builder.depth) .scopeUnderflow = s :=
    if_pos (decide_eq_true hdepth)
  unfold closeScope
  rw [hopen]
  dsimp only
  unfold guarantee
  rw [if_pos (by simpa using hkept)]

theorem walks_retire (retired : List Local) (hp : p.Fits) :
    Walks 0 p
      (retired.foldl (fun (s : State) l => s.appendOp l.retirement) p.state).checkpoint := by
  induction retired generalizing p with
  | nil => exact walks_checkpoint p
  | cons l retired ih =>
    refine (walks_appendOp p ?_).andThen hp fun _ hq _ => ih hq
    unfold Local.retirement
    split <;> rfl

/-- What is walked inside a scope is walked. -/
theorem walks_inScope {cost : Int} {inside : Pass} (hp : p.Fits)
    (h : ∀ q : Point, q.Fits → q.state.left ≤ p.state.left → Walks cost q (inside q.state)) :
    Walks cost p (p.state.inScope inside) := by
  have hopen : Move p (p.having p.state.openScope) := .openScope p
  have hfits := hopen.fits hp
  obtain ⟨ws, hwalk⟩ := h (p.having p.state.openScope) hfits (Nat.le_refl _)
  have hq := hwalk.fits hfits
  have hdepth : (inside p.state.openScope).builder.depth = p.state.builder.depth + 1 :=
    hwalk.depth
  obtain ⟨retired, kept, hlocals, hkept, heq⟩ :=
    closeScope_retires hq.builder (hdepth ▸ Nat.succ_pos _)
  have hclose := Move.closeScope ⟨inside p.state.openScope, ws, p.suspended⟩ retired kept
    hlocals (hdepth ▸ Nat.succ_pos _) hkept
  obtain ⟨vs, hretire⟩ := walks_retire retired (hclose.fits hq)
  have hclosed : (inside p.state.openScope).closeScope = _ := heq
  unfold inScope
  rw [hclosed]
  exact ⟨vs, {
    moves := (hopen.moves.trans hwalk.moves).trans (hclose.moves.trans hretire.moves)
    due := by
      have hinside : ((inside p.state.openScope).due : Int) ≤ p.state.due + cost := hwalk.due
      have hleave : (_ : Int) ≤ ((inside p.state.openScope).due : Int) + 0 := hretire.due
      exact Int.le_trans hleave (by omega)
    left := hretire.left.trans hwalk.left
    depth := by
      refine hretire.depth.trans ?_
      show (inside p.state.openScope).builder.depth - 1 = _
      rw [hdepth, Nat.add_sub_cancel]
    around := hwalk.around.trans hretire.around
    size := Nat.le_trans hwalk.size hretire.size
    jumps := fun x hx => hretire.jumps x (hwalk.jumps x hx)
    suspended := rfl }⟩

end Scopes

/-! ## Declared names -/

section Names

variable {p : Point}

/-- The callee is not the newest local, unless no locals are declared here. -/
def State.HasDeclared (s : State) : Prop := s.builder.depth ≠ 0 → 2 ≤ s.builder.locals.length

theorem State.HasDeclared.congr {s t : State} (hs : s.HasDeclared)
    (hlength : t.builder.locals.length = s.builder.locals.length)
    (hdepth : t.builder.depth = s.builder.depth) : t.HasDeclared := by
  unfold State.HasDeclared
  rw [hlength, hdepth]
  exact hs

theorem hasDeclared_of_frame {s t : State} (h : t.frame = s.frame) (hs : s.HasDeclared) :
    t.HasDeclared := by
  obtain ⟨hlocals, hdepth⟩ := Prod.mk.inj h
  exact hs.congr (congrArg List.length hlocals) hdepth

theorem walks_pushLocal (hp : p.Fits) (name : String) :
    Walks 0 p (p.state.pushLocal name) ∧ 2 ≤ (p.state.pushLocal name).builder.locals.length := by
  obtain ⟨l, hl, -⟩ := hp.builder.callee
  unfold pushLocal
  split
  · next hfull =>
    refine ⟨walks_complain p _, ?_⟩
    rw [complain, builder_complainAt, hfull]
    decide
  · next hne =>
    have hroom := Nat.lt_of_le_of_ne hp.builder.locals hne
    exact ⟨(Walk.still (.declare p name hroom) rfl rfl rfl rfl rfl).walks,
      Nat.succ_le_succ (Nat.zero_lt_of_lt (lt_of_fromOldest hl))⟩

theorem walks_declareLocal (hp : p.Fits) :
    Walks 0 p p.state.declareLocal ∧ p.state.declareLocal.HasDeclared := by
  unfold declareLocal
  split
  · next hzero => exact ⟨.refl p, fun hne => absurd hzero hne⟩
  · dsimp only
    split
    · obtain ⟨ws, hwalk⟩ := walks_complain p .redeclared
      have hpush := walks_pushLocal (hwalk.fits hp) p.state.previous.lexeme
      exact ⟨(walks_complain p .redeclared).andThen hp fun _ hq _ => (walks_pushLocal hq _).1,
        fun _ => hpush.2⟩
    · exact ⟨(walks_pushLocal hp _).1, fun _ => (walks_pushLocal hp _).2⟩

/-- A name that is declared has a number that fits in a byte, or a local. -/
theorem walks_declareName (hp : p.Fits) (what : Expected) :
    Walks 0 p (p.state.declareName what).2 ∧ (p.state.declareName what).1 < byteRange ∧
      (p.state.declareName what).2.HasDeclared := by
  have hrequire := walks_require p .identifier what (by decide)
  obtain ⟨ws, hwalk⟩ := hrequire
  have hdeclare := walks_declareLocal (hwalk.fits hp)
  unfold declareName
  dsimp only
  split
  · next hzero =>
    have hpool := (p.state.require .identifier what).declareLocal.poolConstant_keeps
      (.string (p.state.require .identifier what).declareLocal.previous.lexeme)
    refine ⟨?_, hpool.2.2.2, fun hne => absurd ?_ hne⟩
    · exact (walks_require p .identifier what (by decide)).andThen hp fun _ hq _ =>
        (walks_declareLocal hq).1.andThen hq fun _ _ _ => walks_poolConstant _ _
    · rw [hpool.1]
      exact hzero
  · exact ⟨(walks_require p .identifier what (by decide)).andThen hp fun _ hq _ =>
      (walks_declareLocal hq).1, Nat.zero_lt_succ _, hdeclare.2⟩

theorem walks_makeReadable (h : p.state.HasDeclared) :
    Walks 0 p p.state.makeReadable ∧ p.state.makeReadable.HasDeclared := by
  constructor
  · refine (Walk.still (.makeReadable p h) (upcoming_makeReadable _) ?_ ?_
      p.state.makeReadable_keeps.1 ?_).walks
    all_goals
      unfold makeReadable
      split <;> rfl
  · unfold makeReadable
    split
    · exact h
    · exact h
    · next hlocals _ =>
      intro hne
      have hlength := h hne
      rw [hlocals] at hlength
      exact hlength

theorem walks_bindName {global : Nat} (hbyte : global < byteRange) (h : p.state.HasDeclared) :
    Walks 0 p (p.state.bindName global) := by
  unfold bindName
  split
  · exact walks_appendWith p rfl nofun hbyte
  · exact (walks_makeReadable h).1

end Names

/-! ## Variables and functions -/

/-- What is known of a pass for declarations. -/
abbrev WalksDeclaration (most : Nat) (pass : Pass) : Prop := Walkable most 3 (-1) pass

/-- What is known of a pass for declarations up to the end of a block. -/
abbrev WalksBlock (most : Nat) (pass : Pass) : Prop := Walkable most 1 1 pass

section Functions

variable {most : Nat} {expression declarations : Pass} {p : Point}

theorem walks_varForm (he : WalksExpression most expression) (hedits : ∀ s, Edits s (expression s))
    (hp : p.Fits) (hleft : p.state.left ≤ most) : Walks 0 p (p.state.varForm expression) := by
  obtain ⟨hdeclare, hbyte, hlocal⟩ := walks_declareName hp .variableName
  unfold varForm
  dsimp only
  refine hdeclare.andThen hp fun ws hq hwalk => ?_
  split
  · next hsees =>
    refine (walks_read ⟨_, _, _⟩ (not_sees_end hsees (by decide))).bind 2 hq (by decide)
      fun _ hr hwalk' => ?_
    refine (he.walks _ hr ((hwalk'.left.trans hwalk.left).trans hleft)).bind 0 hr (by decide)
      fun _ _ _ => walks_bindName hbyte ?_
    exact hasDeclared_of_frame ((hedits _).frame.trans (Edit.read _).frame) hlocal
  · exact (walks_appendOp _ rfl).andThen hq fun _ _ _ =>
      walks_bindName hbyte (hasDeclared_of_frame (edits_appendOp _ .nil).frame hlocal)

theorem walks_parameter (hp : p.Fits) : Walks 1 p p.state.parameter := by
  have hname : ∀ q : Point, q.Fits → Walks 0 q
      ((q.state.declareName .parameterName).2.bindName (q.state.declareName .parameterName).1) :=
    fun q hq => by
      obtain ⟨hdeclare, hbyte, hlocal⟩ := walks_declareName hq .parameterName
      exact hdeclare.andThen hq fun _ _ _ => walks_bindName hbyte hlocal
  unfold parameter
  refine (walks_tick p).bind 0 hp (by decide) fun ws hq _ => ?_
  dsimp only
  split
  · exact (walks_complainNext _ _).andThen hq fun _ hr _ => hname ⟨_, _, _⟩ hr
  · next hne =>
    have hroom := Nat.lt_of_le_of_ne hq.builder.arity hne
    have hcount := Walk.still (.parameter ⟨p.state.tick, ws, p.suspended⟩ hroom) rfl rfl rfl
      rfl rfl
    exact hcount.walks.andThen hq fun _ hr _ => hname ⟨_, _, _⟩ hr

/-- Each further parameter comes after a comma, so as many as there are tokens are
enough. -/
theorem walks_parameters {limit : Nat} (hp : p.Fits) (hlimit : p.state.left < limit) :
    Walks 1 p (p.state.parameters limit) := by
  induction limit generalizing p with
  | zero => omega
  | succ limit ih =>
    unfold parameters
    refine (walks_parameter hp).bind 0 hp (by decide) fun _ hq hwalk => ?_
    dsimp only
    generalize p.state.parameter = s at *
    split
    · next hsees =>
      have hne := not_sees_end hsees (by decide)
      have hlt := left_read_lt hne
      have hle : s.left ≤ p.state.left := hwalk.left
      refine (walks_read ⟨s, _, _⟩ hne).bind 1 hq (by decide) fun _ hr _ => ih hr ?_
      show s.read.left < limit
      omega
    · exact .refl _

theorem left_lt (s : State) : s.left < s.rest.length + 2 := by
  unfold left
  split <;> omega

theorem walks_parameterList (hp : p.Fits) : Walks 1 p p.state.parameterList := by
  have hclose : ∀ q : Point, Walks 0 q (q.state.require .rightParen .closingOfParameters) :=
    fun q => walks_require q _ _ (by decide)
  unfold parameterList
  refine (walks_require p .leftParen .openingOfParameters (by decide)).andThen hp
    fun _ hq _ => ?_
  have hlimit := left_lt (p.state.require .leftParen .openingOfParameters)
  dsimp only
  generalize (p.state.require .leftParen .openingOfParameters).rest.length + 2 = limit at *
  split
  · exact (hclose _).mono (by decide)
  · exact (walks_parameters hq hlimit).bind 0 hq (by decide) fun _ _ _ => hclose _

/-! ### Bodies -/

/-- The two bytes of a capture. -/
def capturePair (c : Capture) : List UInt8 := [if c.isLocal then 1 else 0, c.index.toUInt8]

theorem length_capturePairs (captures : List Capture) :
    (captures.flatMap capturePair).length = 2 * captures.length := by
  induction captures with
  | nil => rfl
  | cons c captures ih =>
    rw [List.flatMap_cons, List.length_append, ih, List.length_cons]
    show 2 + _ = _
    omega

/-- The pairs of a closure belong to its instruction. -/
theorem appendCaptures_eq {captures : List Capture}
    (hbytes : ∀ c ∈ captures, c.index < byteRange) (s : State) :
    s.appendCaptures captures = (captures.flatMap capturePair).foldl appendByte s := by
  unfold appendCaptures
  induction captures generalizing s with
  | nil => rfl
  | cons c captures ih =>
    obtain ⟨hc, hrest⟩ := List.forall_mem_cons.mp hbytes
    rw [List.foldl_cons, ih hrest, appendNumber_eq hc]
    rfl

theorem appendClosure_eq {captures : List Capture} {index : Nat} {s : State}
    (hbytes : ∀ c ∈ captures, c.index < byteRange) (hindex : index < byteRange) :
    (s.appendWith .closure index).appendCaptures captures =
      s.emit .closure (index.toUInt8 :: captures.flatMap capturePair) := by
  rw [appendCaptures_eq hbytes, appendWith_eq hindex]
  rfl

/-- What a function captures has a number that fits in a byte. -/
theorem Point.Fits.index_lt (hp : p.Fits) (hne : p.state.around ≠ []) :
    ∀ c ∈ p.state.builder.captures, c.index < byteRange := by
  have hchain := hp.captures
  have haround := hp.around
  cases houters : p.state.around with
  | nil => exact absurd houters hne
  | cons outer outers =>
    rw [houters] at hchain haround
    obtain ⟨hcaptures, -⟩ := List.isChain_cons_cons.mp hchain
    have houter : ∃ ws, outer.Fits ws := by
      generalize p.suspended = wss at haround
      cases haround with
      | cons h _ => exact ⟨_, h⟩
    obtain ⟨ws, hfits⟩ := houter
    intro c hc
    have hrange := hcaptures c hc
    unfold Capture.InRange at hrange
    split at hrange
    · exact Nat.lt_of_lt_of_le hrange hfits.locals
    · exact Nat.lt_of_lt_of_le hrange hfits.captures

theorem walks_returnNil (hp : p.Fits) : Walks 0 p p.state.returnNil := by
  unfold returnNil
  split
  · exact .refl p
  · exact (walks_appendOp p rfl).andThen hp fun _ _ _ => walks_appendOp _ rfl

/-- Where nothing is kept silent, a constant has an index of its own. -/
theorem poolConstant_calm {s : State} {v : Value}
    (hcalm : (s.poolConstant v).2.isRecovering = false) :
    (s.poolConstant v).1 = s.builder.chunk.constants.size := by
  unfold poolConstant at hcalm ⊢
  dsimp only at hcalm ⊢
  split
  · rfl
  · next hfull =>
    rw [if_neg hfull] at hcalm
    unfold complain complainAt at hcalm
    split at hcalm
    · next hsilent => exact absurd (hsilent.symm.trans hcalm) Bool.noConfusion
    · cases hcalm

/-- The code that makes a closure of a function, which is pooled. -/
theorem walks_closure (hp : p.Fits) {f : Function Value} {captures : List Capture}
    (hcount : f.captureCount = captures.length) (hfew : captures.length ≤ byteRange)
    (hbytes : ∀ c ∈ captures, c.index < byteRange) :
    Walks 0 p (((p.state.poolConstant (.function f)).2.appendWith .closure
        (p.state.poolConstant (.function f)).1).appendCaptures captures) ∧
      (((p.state.poolConstant (.function f)).2.appendWith .closure
        (p.state.poolConstant (.function f)).1).appendCaptures captures).frame =
          p.state.frame := by
  obtain ⟨hbuilder, -, -, hindex⟩ := p.state.poolConstant_keeps (.function f)
  rw [appendClosure_eq hbytes hindex]
  constructor
  · refine (walks_poolConstant p (.function f)).andThen hp fun ws hq _ => ?_
    refine walks_emit ⟨_, _, _⟩ fun _ hcalm => ?_
    unfold Written.IsWhole
    rw [if_pos rfl]
    refine ⟨_, _, f, rfl, ?_, ?_, ?_⟩
    · have hbyte : (p.state.poolConstant (.function f)).1.toUInt8.toNat =
          (p.state.poolConstant (.function f)).1 := UInt8.toNat_ofNat_of_lt' hindex
      show (p.state.poolConstant (.function f)).2.builder.chunk.constants[_]? = _
      rw [hbyte, poolConstant_calm hcalm, hbuilder]
      simp
    · rw [length_capturePairs, hcount]
    · rw [length_capturePairs]
      exact two_mul_lt_of_le_byteRange hfew
  · rw [emit_eq]
    unfold State.frame
    dsimp only
    rw [hbuilder]

/-- The parameters and the body of a function, in which the return at its end is. -/
theorem walks_functionBody (hd : WalksBlock most declarations) (hp : p.Fits)
    (hleft : p.state.left ≤ most) :
    Walks 2 p ((p.state.parameterList.require .leftBrace .openingOfBody).checkpoint.blockForm
      declarations).returnNil := by
  refine (walks_parameterList hp).bind 1 hp (by decide) fun _ hq hwalk => ?_
  refine (walks_require _ .leftBrace .openingOfBody (by decide)).andThen hq
    fun _ hr hwalk' => ?_
  refine (walks_checkpoint _).andThen hr fun _ hu hwalk'' => ?_
  refine (hd.walks _ hu ?_).bind 0 hu (by decide) fun _ hv _ => ?_
  · exact ((hwalk''.left.trans hwalk'.left).trans hwalk.left).trans hleft
  · exact (walks_require _ .rightBrace .closingOfBlock (by decide)).andThen hv fun _ hw _ =>
      walks_returnNil hw

/-- A function that was walked through is left for the one around it. -/
theorem walk_leave {name : String} {cost : Int} {b : State} {ws : List Written}
    (hwalk : Walk cost ⟨(p.state.enterFunction name).openScope, [], p.written :: p.suspended⟩
      ⟨b, ws, p.written :: p.suspended⟩) :
    b.around ≠ [] ∧
      Walk cost p ⟨b.leaveFunction (b.builder.finish b.nextId), p.written, p.suspended⟩ ∧
      (b.leaveFunction (b.builder.finish b.nextId)).frame.1.length =
        p.state.frame.1.length := by
  have henter := Move.enter p name
  have hopen := Move.openScope ⟨p.state.enterFunction name, [], p.written :: p.suspended⟩
  have haround : IdleAll (p.state.builder :: p.state.around) b.around := hwalk.around
  cases houters : b.around with
  | nil =>
    rw [houters] at haround
    cases haround
  | cons outer outers =>
    rw [houters] at haround
    cases haround with
    | cons hidle hidles =>
    have hne : b.around ≠ [] := by
      rw [houters]
      exact List.cons_ne_nil _ _
    have hleave := Move.leave ⟨b, ws, p.written :: p.suspended⟩ hne
    have hbuilder : (b.leaveFunction (b.builder.finish b.nextId)).builder = outer := by
      unfold leaveFunction
      rw [houters]
      rfl
    refine ⟨List.cons_ne_nil _ _, ?_, ?_⟩
    · exact {
        moves := ((henter.moves.trans hopen.moves).trans hwalk.moves).trans hleave.moves
        due := hwalk.due
        left := hwalk.left
        depth := by
          show (b.leaveFunction (b.builder.finish b.nextId)).builder.depth = _
          rw [hbuilder, hidle.same]
        around := by
          show IdleAll _ (b.leaveFunction (b.builder.finish b.nextId)).around
          unfold leaveFunction
          rw [houters]
          exact hidles
        size := by
          show _ ≤ (b.leaveFunction (b.builder.finish b.nextId)).builder.chunk.code.size
          rw [hbuilder, hidle.same]
          exact Nat.le_refl _
        jumps := fun _ h => h
        suspended := rfl }
    · unfold State.frame
      rw [hbuilder]
      exact hidle.locals

/-- What is walked inside a function is walked around it, and leaves the locals there
where they are. -/
theorem walks_functionForm (hd : WalksBlock most declarations) (hp : p.Fits)
    (hleft : p.state.left ≤ most) : Walks 2 p (p.state.functionForm declarations) ∧
      (p.state.functionForm declarations).frame.1.length = p.state.frame.1.length := by
  have hinside : Point.Fits ⟨(p.state.enterFunction p.state.previous.lexeme).openScope, [],
      p.written :: p.suspended⟩ :=
    (Move.openScope _).fits ((Move.enter p p.state.previous.lexeme).fits hp)
  have hbody := walks_functionBody hd hinside hleft
  unfold functionForm finishFunction
  dsimp only at hbody ⊢
  generalize State.returnNil _ = b at hbody ⊢
  obtain ⟨ws, hwalk⟩ := hbody
  obtain ⟨hne, houtside, hlength⟩ := walk_leave hwalk
  have hfits := hwalk.fits hinside
  obtain ⟨⟨vs, hclosure⟩, hframe⟩ := walks_closure (houtside.fits hp)
    (f := b.builder.finish b.nextId) rfl hfits.builder.captures (hfits.index_lt hne)
  exact ⟨⟨vs, (houtside.trans hclosure).mono (by decide)⟩, hframe ▸ hlength⟩

theorem walks_fnForm (hd : WalksBlock most declarations) (hp : p.Fits)
    (hleft : p.state.left ≤ most) : Walks 2 p (p.state.fnForm declarations) := by
  obtain ⟨hdeclare, hbyte, hlocal⟩ := walks_declareName hp .functionName
  unfold fnForm
  dsimp only
  refine hdeclare.andThen hp fun ws hq hwalk => ?_
  obtain ⟨hmake, hlocal'⟩ := walks_makeReadable (p := ⟨_, ws, p.suspended⟩) hlocal
  refine hmake.andThen hq fun vs hr hwalk' => ?_
  obtain ⟨hform, hlength⟩ := walks_functionForm hd hr
    ((hwalk'.left.trans hwalk.left).trans hleft)
  dsimp only at hform hlength ⊢
  generalize State.functionForm declarations _ = s at hform hlength ⊢
  exact hform.bind 0 hr (by decide) fun _ _ hwalk'' =>
    walks_bindName hbyte (hlocal'.congr hlength hwalk''.depth)

end Functions

/-! ## Branches and loops -/

section Statements

variable {most : Nat} {expression declaration declarations : Pass} {p : Point}

/-- The body of a branch or a loop. -/
theorem walks_body (hd : WalksDeclaration most declaration) (hp : p.Fits)
    (hleft : p.state.left ≤ most) : Walks 3 p (p.state.inScope declaration) :=
  walks_inScope hp fun q hq hle => hd.walks q hq (hle.trans hleft)

/-- The alternative of a branch, behind which the jump over it is landed. -/
theorem walks_alternative (hd : WalksDeclaration most declaration) (hp : p.Fits)
    (hleft : p.state.left ≤ most) {operand : Nat} (hjump : IsJumpIn p.written operand) :
    Walks 0 p (State.landJump
      (if p.state.sees .elseWord then p.state.read.inScope declaration else p.state)
      operand) := by
  split
  · next hsees =>
    refine (walks_read p (not_sees_end hsees (by decide))).bind 3 hp (by decide)
      fun _ hq hwalk => ?_
    refine (walks_body hd hq (hwalk.left.trans hleft)).bind 0 hq (by decide)
      fun _ hr hwalk' => ?_
    exact walks_landJump hr (hwalk'.jumps _ (hwalk.jumps _ hjump))
  · exact walks_landJump hp hjump

theorem walks_ifForm (he : WalksExpression most expression)
    (hd : WalksDeclaration most declaration) (hp : p.Fits) (hleft : p.state.left ≤ most) :
    Walks 5 p (p.state.ifForm expression declaration) := by
  unfold ifForm
  dsimp only
  refine (he.walks p hp hleft).bind 3 hp (by decide) fun _ hp₁ w₁ => ?_
  refine Walks.jumping .jumpIfFalse (.inr rfl) hp₁ fun _ hp₂ w₂ hthen => ?_
  refine (walks_pop _).andThen hp₂ fun _ hp₃ w₃ => ?_
  have hleft₃ := (w₃.left.trans (w₂.left.trans w₁.left)).trans hleft
  refine (walks_body hd hp₃ hleft₃).bind 0 hp₃ (by decide) fun _ hp₄ w₄ => ?_
  refine Walks.jumping .jump (.inl rfl) hp₄ fun _ hp₅ w₅ helse => ?_
  refine (walks_landJump hp₅ (w₅.jumps _ (w₄.jumps _ (w₃.jumps _ hthen)))).andThen hp₅
    fun _ hp₆ w₆ => ?_
  refine (walks_pop _).andThen hp₆ fun _ hp₇ w₇ => ?_
  exact walks_alternative hd hp₇
    ((w₇.left.trans (w₆.left.trans (w₅.left.trans w₄.left))).trans hleft₃)
    (w₇.jumps _ (w₆.jumps _ helse))

theorem walks_whileForm (he : WalksExpression most expression)
    (hd : WalksDeclaration most declaration) (hp : p.Fits) (hleft : p.state.left ≤ most) :
    Walks 5 p (p.state.whileForm expression declaration) := by
  unfold whileForm
  dsimp only
  refine (he.walks p hp hleft).bind 3 hp (by decide) fun _ hp₁ w₁ => ?_
  refine Walks.jumping .jumpIfFalse (.inr rfl) hp₁ fun _ hp₂ w₂ hexit => ?_
  refine (walks_pop _).andThen hp₂ fun _ hp₃ w₃ => ?_
  have hleft₃ := (w₃.left.trans (w₂.left.trans w₁.left)).trans hleft
  refine (walks_body hd hp₃ hleft₃).bind 0 hp₃ (by decide) fun _ hp₄ w₄ => ?_
  have hsize := w₁.size.trans (w₂.size.trans (w₃.size.trans w₄.size))
  refine (walks_loopBack hsize).andThen hp₄ fun _ hp₅ w₅ => ?_
  refine (walks_landJump hp₅ (w₅.jumps _ (w₄.jumps _ (w₃.jumps _ hexit)))).andThen hp₅
    fun _ hp₆ _ => ?_
  exact walks_pop _

theorem walks_loopInitializer (he : WalksExpression most expression)
    (hedits : ∀ s, Edits s (expression s)) (hp : p.Fits) (hleft : p.state.left ≤ most) :
    Walks 2 p (p.state.loopInitializer expression) := by
  have hcomma : ∀ q : Point, Walks 0 q (q.state.require .comma .commaAfterInitializer) :=
    fun q => walks_require q _ _ (by decide)
  unfold loopInitializer
  split
  · next hsees => exact (walks_read p (not_sees_end hsees (by decide))).mono (by decide)
  · dsimp only
    split
    · next hsees =>
      refine (walks_read p (not_sees_end hsees (by decide))).bind 0 hp (by decide)
        fun _ hq hwalk => ?_
      refine (walks_varForm he hedits hq (hwalk.left.trans hleft)).andThen hq
        fun _ hr _ => ?_
      exact (walks_checkpoint _).andThen hr fun _ _ _ => hcomma _
    · refine (he.walks p hp hleft).bind 0 hp (by decide) fun _ hq _ => ?_
      exact (walks_pop _).andThen hq fun _ _ _ => hcomma _

/-- The condition of a loop; the jump out of the loop is there to be landed. -/
theorem walk_loopCondition (he : WalksExpression most expression) (hp : p.Fits)
    (hleft : p.state.left ≤ most) :
    ∃ ws, Walk 2 p ⟨(p.state.loopCondition expression).2, ws, p.suspended⟩ ∧
      ∀ x, (p.state.loopCondition expression).1 = some x → IsJumpIn ws x := by
  unfold loopCondition
  split
  · next hsees =>
    obtain ⟨ws, hread⟩ := walks_read p (not_sees_end hsees (by decide))
    exact ⟨ws, hread.mono (by decide), nofun⟩
  · obtain ⟨_, w₁⟩ := he.walks p hp hleft
    have hp₁ := w₁.fits hp
    obtain ⟨_, w₂⟩ := walks_require ⟨_, _, p.suspended⟩ .comma .commaAfterCondition (by decide)
    have hp₂ := w₂.fits hp₁
    obtain ⟨_, w₃, hexit⟩ := walk_openJump .jumpIfFalse (.inr rfl) hp₂
    obtain ⟨ws, w₄⟩ := walks_pop ⟨_, _, p.suspended⟩
    refine ⟨ws, (((w₁.trans w₂).trans w₃).trans w₄).mono (by decide), fun x hx => ?_⟩
    cases hx
    exact w₄.jumps _ hexit

/-- The increment of a loop, behind which the place lies that the body goes back to. -/
theorem walk_loopIncrement (he : WalksExpression most expression) (hp : p.Fits)
    (hleft : p.state.left ≤ most) {start : Nat} (hstart : start ≤ p.state.codeSize) :
    ∃ ws, Walk 2 p ⟨(p.state.loopIncrement expression start).2, ws, p.suspended⟩ ∧
      (p.state.loopIncrement expression start).1 ≤
        (p.state.loopIncrement expression start).2.codeSize := by
  unfold loopIncrement
  split
  · next hsees =>
    obtain ⟨ws, hread⟩ := walks_read p (not_sees_end hsees (by decide))
    exact ⟨ws, hread.mono (by decide), hstart.trans hread.size⟩
  · split
    · exact ⟨p.written, (Walk.refl p).mono (by decide), hstart⟩
    · obtain ⟨_, w₁, hbody⟩ := walk_openJump .jump (.inl rfl) hp
      have hp₁ := w₁.fits hp
      obtain ⟨_, w₂⟩ := he.walks ⟨_, _, p.suspended⟩ hp₁ (w₁.left.trans hleft)
      have hp₂ := w₂.fits hp₁
      obtain ⟨_, w₃⟩ := walks_pop ⟨_, _, p.suspended⟩
      have hp₃ := w₃.fits hp₂
      have hsize := w₂.size.trans w₃.size
      obtain ⟨_, w₄⟩ := walks_loopBack (p := ⟨_, _, p.suspended⟩)
        (hstart.trans (w₁.size.trans hsize))
      have hp₄ := w₄.fits hp₃
      obtain ⟨ws, w₅⟩ := walks_landJump hp₄ (w₄.jumps _ (w₃.jumps _ (w₂.jumps _ hbody)))
      exact ⟨ws, ((((w₁.trans w₂).trans w₃).trans w₄).trans w₅).mono (by decide),
        hsize.trans (w₄.size.trans w₅.size)⟩

theorem walks_countedLoop (he : WalksExpression most expression)
    (hedits : ∀ s, Edits s (expression s)) (hd : WalksDeclaration most declaration)
    (hp : p.Fits) (hleft : p.state.left ≤ most) :
    Walks 9 p (p.state.countedLoop expression declaration) := by
  unfold countedLoop
  dsimp only
  refine (walks_loopInitializer he hedits hp hleft).bind 7 hp (by decide) fun _ hp₁ w₁ => ?_
  have hleft₁ := w₁.left.trans hleft
  obtain ⟨_, w₂, hexit⟩ := walk_loopCondition he hp₁ hleft₁
  have hp₂ := w₂.fits hp₁
  have hleft₂ := w₂.left.trans hleft₁
  obtain ⟨_, w₃, hback⟩ := walk_loopIncrement he hp₂ hleft₂ w₂.size
  have hp₃ := w₃.fits hp₂
  obtain ⟨_, w₄⟩ := walks_body hd hp₃ (w₃.left.trans hleft₂)
  have hp₄ := w₄.fits hp₃
  obtain ⟨_, w₅⟩ := walks_loopBack (p := ⟨_, _, p.suspended⟩) (hback.trans w₄.size)
  have hp₅ := w₅.fits hp₄
  have hwalk := (((w₂.trans w₃).trans w₄).trans w₅)
  split
  · next x hx =>
    obtain ⟨_, w₆⟩ := walks_landJump hp₅
      (w₅.jumps _ (w₄.jumps _ (w₃.jumps _ (hexit x hx))))
    obtain ⟨ws, w₇⟩ := walks_pop ⟨_, _, p.suspended⟩
    exact ⟨ws, ((hwalk.trans w₆).trans w₇).mono (by decide)⟩
  · exact ⟨_, hwalk.mono (by decide)⟩

theorem walks_forForm (he : WalksExpression most expression)
    (hedits : ∀ s, Edits s (expression s)) (hd : WalksDeclaration most declaration)
    (hp : p.Fits) (hleft : p.state.left ≤ most) :
    Walks 9 p (p.state.forForm expression declaration) :=
  walks_inScope hp fun _ hq hle => walks_countedLoop he hedits hd hq (hle.trans hleft)

theorem walks_returnForm (he : WalksExpression most expression) (hp : p.Fits)
    (hleft : p.state.left ≤ most) : Walks 2 p (p.state.returnForm expression) := by
  unfold returnForm
  dsimp only
  split
  · refine Walks.mono (k := 0) ?_ (by decide)
    exact (walks_appendOp p rfl).andThen hp fun _ _ _ => walks_appendOp _ rfl
  · exact (he.walks p hp hleft).bind 0 hp (by decide) fun _ _ _ => walks_appendOp _ rfl

theorem walks_blockForm (hd : WalksBlock most declarations) (hp : p.Fits)
    (hleft : p.state.left ≤ most) : Walks 1 p (p.state.blockForm declarations) :=
  (hd.walks p hp hleft).bind 0 hp (by decide) fun _ _ _ => walks_require _ _ _ (by decide)

theorem walks_expressionForm {cost : Int} (he : Walks cost p (expression p.state))
    (hp : p.Fits) : Walks cost p (p.state.expressionForm expression) :=
  he.bind 0 hp (Int.le_of_eq (Int.add_zero cost)) fun _ _ _ => walks_appendOp _ rfl

/-- A declaration that starts with a keyword has fewer tokens for its parts. -/
theorem walks_anyForm (he : WalksExpression most expression)
    (hedits : ∀ s, Edits s (expression s))
    (hd : ∀ fewer < most, WalksDeclaration fewer declaration)
    (hds : ∀ fewer < most, WalksBlock fewer declarations) (hp : p.Fits)
    (hleft : p.state.left ≤ most) :
    Walks 2 p (p.state.anyForm expression declaration declarations) ∧
      (¬ p.state.sees .endOfSource →
        Walks (-2) p (p.state.anyForm expression declaration declarations)) := by
  have hkeyword : ∀ (k : TokenKind) (form : Pass), p.state.current.kind = k → k ≠ .endOfSource →
      (p.state.read.left < most → ∀ q : Point, q.Fits → q.state.left ≤ p.state.read.left →
        Walks 9 q (form q.state)) →
      Walks 2 p (form p.state.read) ∧
        (¬ p.state.sees .endOfSource → Walks (-2) p (form p.state.read)) := by
    intro k form hk hne hform
    have hbegun := not_sees_end (sees_iff.mpr hk) hne
    have hwalk : Walks (-2) p (form p.state.read) :=
      (walks_read p hbegun).bind 9 hp (by decide) fun _ hq _ =>
        hform (Nat.lt_of_lt_of_le (left_read_lt hbegun) hleft) _ hq (Nat.le_refl _)
    exact ⟨hwalk.mono (by decide), fun _ => hwalk⟩
  unfold anyForm
  split
  · next h =>
    exact hkeyword _ _ h (by decide) fun hlt _ hq hle =>
      (walks_varForm (he.mono hlt.le) hedits hq hle).mono (by decide)
  · next h =>
    exact hkeyword _ _ h (by decide) fun hlt _ hq hle =>
      (walks_fnForm (hds _ hlt) hq hle).mono (by decide)
  · next h =>
    exact hkeyword _ _ h (by decide) fun hlt _ hq hle =>
      (walks_ifForm (he.mono hlt.le) (hd _ hlt) hq hle).mono (by decide)
  · next h =>
    exact hkeyword _ _ h (by decide) fun hlt _ hq hle =>
      (walks_whileForm (he.mono hlt.le) (hd _ hlt) hq hle).mono (by decide)
  · next h =>
    exact hkeyword _ _ h (by decide) fun hlt _ hq hle =>
      walks_forForm (he.mono hlt.le) hedits (hd _ hlt) hq hle
  · next h =>
    refine hkeyword _ (fun s => s.inScope (blockForm declarations)) h (by decide)
      fun hlt _ hq hle => ?_
    exact (walks_inScope hq fun _ hr hle' =>
      walks_blockForm (hds _ hlt) hr (hle'.trans hle)).mono (by decide)
  · next h =>
    exact hkeyword _ _ h (by decide) fun hlt _ hq hle =>
      (walks_returnForm (he.mono hlt.le) hq hle).mono (by decide)
  · exact ⟨walks_expressionForm (he.walks p hp hleft) hp,
      fun hne => walks_expressionForm (he.begun p hp hleft hne) hp⟩

end Statements

/-! ## Recovery -/

/-- Tokens are skipped one after the other, so as many as there are are enough. -/
theorem walks_skipToDeclaration {p : Point} {limit : Nat} (hp : p.Fits)
    (hlimit : p.state.left < limit) : Walks 0 p (p.state.skipToDeclaration limit) := by
  induction limit generalizing p with
  | zero => omega
  | succ limit ih =>
    unfold skipToDeclaration
    split
    · exact .refl p
    · next hstop =>
      have hne : ¬ p.state.sees .endOfSource := fun hend => hstop (by rw [hend]; rfl)
      have hlt := left_read_lt hne
      refine (walks_read p hne).bind 0 hp (by decide) fun _ hq _ => ih hq ?_
      show p.state.read.left < limit
      omega

theorem walks_recover {p : Point} (hp : p.Fits) : Walks 0 p p.state.recover := by
  unfold recover
  split
  · have hsettle : Walk 0 p (p.having { p.state with isRecovering := false }) :=
      .still (.settle p) rfl rfl rfl rfl rfl
    refine hsettle.walks.andThen hp fun _ hq _ => walks_skipToDeclaration hq ?_
    exact left_lt p.state
  · exact .refl p

/-! ## The mutual forms -/

/-- What is proved of all forms at once, for one bound on the depth: how many tokens
it is enough for. -/
structure FormsWalk (depth : Nat) : Prop where
  declaration : ∀ most, 2 * most + 2 ≤ depth → WalksDeclaration most (declaration depth)
  declarations : ∀ most, 2 * most + 3 ≤ depth → WalksBlock most (declarations depth)
  expression : ∀ most level, 2 * most + 1 ≤ depth →
    WalksExpression most (expression depth level)
  continuations : ∀ most level, 2 * most + 1 ≤ depth →
    Walkable most 1 1 (continuations depth level)
  arguments : ∀ most count, count ≤ maxArguments → 2 * most + 2 ≤ depth →
    WalksArguments most (arguments depth count)

theorem formsWalk_zero : FormsWalk 0 where
  declaration _ h := by omega
  declarations _ h := by omega
  expression _ _ h := by omega
  continuations _ _ h := by omega
  arguments _ _ _ h := by omega

section Forms

variable {depth most : Nat}

theorem walks_declaration (h : FormsWalk depth) (hdepth : 2 * most + 2 ≤ depth + 1) :
    WalksDeclaration most (declaration (depth + 1)) := by
  have hform : ∀ q : Point, q.Fits → q.state.left ≤ most → _ := fun q hq hleft =>
    walks_anyForm (h.expression most .assignment (by omega)) ((formsAct depth).expression _)
      (fun fewer _ => h.declaration fewer (by omega))
      (fun fewer _ => h.declarations fewer (by omega)) hq hleft
  have hends : ∀ q : Point, q.Fits → Walks 0 q q.state.recover.checkpoint := fun q hq =>
    (walks_recover hq).andThen hq fun _ _ _ => walks_checkpoint _
  have hbegins : ∀ (cost : Int) {m : Int} {p : Point} {t : State}, p.Fits → 1 + cost ≤ m →
      (∀ ws, Point.Fits ⟨p.state.tick.checkpoint, ws, p.suspended⟩ →
        Walks cost ⟨p.state.tick.checkpoint, ws, p.suspended⟩ t) → Walks m p t :=
    fun cost _ _ _ hp hle next => (walks_tick _).bind cost hp hle fun _ hq _ =>
      (walks_checkpoint _).andThen hq fun _ hr _ => next _ hr
  constructor
  · intro p hp hleft
    unfold declaration
    refine hbegins 2 hp (by decide) fun ws hq => ?_
    exact (hform _ hq hleft).1.bind 0 hq (by decide) fun _ hr _ => hends _ hr
  · intro p hp hleft hne
    unfold declaration
    refine hbegins (-2) hp (by decide) fun ws hq => ?_
    exact ((hform _ hq hleft).2 hne).bind 0 hq (by decide) fun _ hr _ => hends _ hr

theorem walks_declarations (h : FormsWalk depth) (hdepth : 2 * most + 3 ≤ depth + 1) :
    WalksBlock most (declarations (depth + 1)) := by
  have hwalks : ∀ p : Point, p.Fits → p.state.left ≤ most →
      Walks 1 p (declarations (depth + 1) p.state) := by
    intro p hp hleft
    unfold declarations
    split
    · exact walks_tick p
    · next hstop =>
      have hne : ¬ p.state.tick.sees .endOfSource :=
        fun hend => hstop (Bool.or_eq_true_iff.mpr (.inr hend))
      obtain ⟨d, rfl⟩ := Nat.exists_eq_add_of_le' (show 2 ≤ depth by omega)
      have hlt : (declaration (d + 2) p.state.tick).left < p.state.left :=
        left_declaration_lt hne
      have hrest := h.declarations (declaration (d + 2) p.state.tick).left (by omega)
      refine (walks_tick p).bind 0 hp (by decide) fun _ hq hwalk => ?_
      exact ((h.declaration most (by omega)).begun _ hq hleft hne).bind 1 hq (by decide)
        fun _ hr _ => hrest.walks _ hr (Nat.le_refl _)
  exact ⟨hwalks, fun p hp hleft _ => hwalks p hp hleft⟩

/-- An expression is begun by reading a token. -/
theorem walks_expression (h : FormsWalk depth) (level : Precedence)
    (hdepth : 2 * most + 1 ≤ depth + 1) :
    WalksExpression most (expression (depth + 1) level) := by
  have hrest : ∀ (q : Point) (mayAssign : Bool) (opening : Opening), q.Fits →
      2 * q.state.left + 1 ≤ depth → q.state.previous.kind.opening? = some opening →
      Walks 3 q ((continuations depth level (q.state.openExpression (expression depth)
        mayAssign opening)).refuseAssignment mayAssign) := by
    intro q mayAssign opening hq hleft hopening
    refine (walks_openExpression (fun level => h.expression _ level hleft) hq (Nat.le_refl _)
      mayAssign hopening).bind 1 hq (by decide) fun _ hr hwalk => ?_
    exact ((h.continuations _ level hleft).walks _ hr hwalk.left).bind 0 hr (by decide)
      fun _ hu _ => walks_refuseAssignment hu _
  have hbegun : ∀ p : Point, p.Fits → p.state.left ≤ most → ¬ p.state.sees .endOfSource →
      Walks (-2) p (expression (depth + 1) level p.state) := by
    intro p hp hleft hne
    have hlt : p.state.tick.read.left < p.state.left := left_read_lt (s := p.state.tick) hne
    unfold expression
    refine (walks_tick p).bind (-3) hp (by decide) fun _ hq hwalk => ?_
    refine (walks_read ⟨p.state.tick, _, _⟩ hne).bind 3 hq (by decide) fun _ hr hwalk' => ?_
    dsimp only
    split
    · exact (walks_complain _ _).mono (by decide)
    · next opening hopening =>
      refine hrest _ _ opening hr ?_ hopening
      show 2 * p.state.tick.read.left + 1 ≤ depth
      omega
  refine ⟨fun p hp hleft => ?_, hbegun⟩
  by_cases hend : p.state.sees .endOfSource
  · rw [expression_end hend]
    refine (walks_tick p).bind 1 hp (by decide) fun _ hq _ => ?_
    exact (walks_read_end _).bind 0 hq (by decide) fun _ _ _ => walks_complain _ _
  · exact (hbegun p hp hleft hend).mono (by decide)

theorem walks_continuations (h : FormsWalk depth) (level : Precedence)
    (hdepth : 2 * most + 1 ≤ depth + 1) :
    Walkable most 1 1 (continuations (depth + 1) level) := by
  have hwalks : ∀ p : Point, p.Fits → p.state.left ≤ most →
      Walks 1 p (continuations (depth + 1) level p.state) := by
    intro p hp hleft
    unfold continuations
    split
    · exact walks_tick p
    · next c hc =>
      have hne : ¬ p.state.tick.sees .endOfSource := by
        intro hend
        rw [show p.state.current.kind = .endOfSource from sees_iff.mp hend] at hc
        cases hc
      have hlt : p.state.tick.read.left < p.state.left := left_read_lt hne
      have ho := fun level => h.expression p.state.tick.read.left level (by omega)
      have ha := h.arguments p.state.tick.read.left 0 (Nat.zero_le _) (by omega)
      have hrest := h.continuations p.state.tick.read.left level (by omega)
      split
      · refine (walks_tick p).bind 0 hp (by decide) fun _ hq _ => ?_
        refine (walks_read ⟨p.state.tick, _, _⟩ hne).bind 4 hq (by decide) fun _ hr _ => ?_
        exact (walks_continueExpression ho ha hr (Nat.le_refl _) c).bind 1 hr (by decide)
          fun _ hu hwalk => hrest.walks _ hu hwalk.left
      · exact walks_tick p
  exact ⟨hwalks, fun p hp hleft _ => hwalks p hp hleft⟩

theorem count_arguments_le (depth : Nat) {count : Nat} (hcount : count ≤ maxArguments)
    (s : State) : (arguments depth count s).1 ≤ maxArguments := by
  induction depth generalizing count s with
  | zero => exact hcount
  | succ depth ih =>
    have hnext := countArgument_le (expression depth .assignment s.tick) hcount
    unfold arguments
    dsimp only
    split
    · exact ih hnext _
    · exact hnext

theorem walks_arguments (h : FormsWalk depth) {count : Nat} (hcount : count ≤ maxArguments)
    (hdepth : 2 * most + 2 ≤ depth + 1) :
    WalksArguments most (arguments (depth + 1) count) where
  walks p hp hleft := by
    unfold arguments
    refine (walks_tick p).bind 2 hp (by decide) fun _ hq hwalk => ?_
    refine ((h.expression most .assignment (by omega)).walks _ hq hleft).bind 0 hq (by decide)
      fun _ hr hwalk' => ?_
    refine (walks_countArgument _ count).andThen hr fun _ hu hwalk'' => ?_
    have hle : ((expression depth .assignment p.state.tick).countArgument count).2.left ≤
        p.state.left := hwalk''.left.trans hwalk'.left
    have hnext := countArgument_le (expression depth .assignment p.state.tick) hcount
    dsimp only
    split
    · next hsees =>
      have hne := not_sees_end hsees (by decide)
      have hlt := left_read_lt hne
      have hrest := h.arguments ((expression depth .assignment p.state.tick).countArgument
        count).2.read.left _ hnext (by omega)
      exact (walks_read ⟨_, _, _⟩ hne).bind 3 hu (by decide) fun _ hv _ =>
        hrest.walks _ hv (Nat.le_refl _)
    · exact .refl _
  count s := count_arguments_le (depth + 1) hcount s

end Forms

/-- Every form is a walk, if the depth is enough. -/
theorem formsWalk (depth : Nat) : FormsWalk depth := by
  induction depth with
  | zero => exact formsWalk_zero
  | succ depth ih =>
    exact ⟨fun _ => walks_declaration ih, fun _ => walks_declarations ih,
      fun _ level => walks_expression ih level, fun _ level => walks_continuations ih level,
      fun _ _ => walks_arguments ih⟩

/-! ## Programs -/

theorem walks_program {depth limit : Nat} {p : Point} (hp : p.Fits)
    (hdepth : 2 * p.state.left + 2 ≤ depth) (hlimit : p.state.left < limit) :
    Walks 1 p (program depth limit p.state) := by
  induction limit generalizing p with
  | zero => omega
  | succ limit ih =>
    unfold program
    split
    · exact walks_read_end p
    · next hne =>
      obtain ⟨d, rfl⟩ := Nat.exists_eq_add_of_le' (show 2 ≤ depth by omega)
      have hlt : (declaration (d + 2) p.state.tick).left < p.state.left :=
        left_declaration_lt (s := p.state.tick) hne
      refine (walks_tick p).bind 0 hp (by decide) fun _ hq _ => ?_
      refine (((formsWalk _).declaration _ hdepth).begun _ hq (Nat.le_refl _) hne).bind 1 hq
        (by decide) fun _ hr _ => ?_
      refine ih hr ?_ ?_
      · show 2 * (declaration (d + 2) p.state.tick).left + 2 ≤ d + 2
        omega
      · show (declaration (d + 2) p.state.tick).left < limit
        omega

/-- A whole compilation is a walk. -/
theorem walks_compileTokens (firstId : Identity) (tokens : List Token) :
    Walks 2 (.start firstId tokens) (compileTokens firstId tokens) := by
  have hle : (initial firstId tokens).read.left ≤ tokens.length := left_read_le _
  unfold compileTokens depthFor
  refine (walks_read_end (.start firstId tokens)).bind 1 (fits_initial ..) (by decide)
    fun _ hq _ => walks_program hq ?_ ?_
  · show 2 * (initial firstId tokens).read.left + 2 ≤ _
    omega
  · show (initial firstId tokens).read.left < _
    omega

/-- The script's last return is written at the end of the walk. -/
theorem walks_script (firstId : Identity) (tokens : List Token) :
    Walks 2 (.start firstId tokens) (compileTokens firstId tokens).returnNil :=
  (walks_compileTokens firstId tokens).bind 0 (fits_initial ..) (by decide)
    fun _ hq _ => walks_returnNil hq

end ScriptEngine.Compile
