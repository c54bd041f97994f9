import ScriptEngine.Proofs.Compile.Input
import ScriptEngine.Proofs.Compile.Move
set_option autoImplicit false

/-!
# Compilation: walks

A walk (`Walk`) is a chain of guarded moves that ends in the function and the scope
in which it began.  What was written before is still there, and so are the jumps in
it; the functions around have gone on as functions do while one inside them is
compiled.

A walk has a cost.  Twelve steps of work are set aside for each token that is left
(`State.due`): reading a token pays for what is done about it, so a pass costs a few
steps more than what its tokens pay for, whatever it finds and whatever went wrong
before.

Each operation of the compiler, and each form of expression, is a walk if its parts
are.
-/

namespace ScriptEngine.Compile

open State

/-! ## Costs -/

namespace State

/-- The work that was done, and twelve steps for each token that is left. -/
def due (s : State) : Nat := s.work + 12 * s.left

theorem left_of_upcoming {s t : State} (h : t.upcoming = s.upcoming) : t.left = s.left := by
  obtain ⟨hcurrent, hrest⟩ := List.cons_eq_cons.mp h
  unfold left sees
  rw [hcurrent, hrest]

theorem due_of_upcoming {s t : State} (h : t.upcoming = s.upcoming) (hwork : t.work = s.work) :
    t.due = s.due := by
  unfold due
  rw [hwork, left_of_upcoming h]

theorem work_complainAt (s : State) (t : Token) (c : Complaint) :
    (s.complainAt t c).work = s.work := by
  unfold complainAt
  split <;> rfl

/-- What is dropped is paid for by the token that it is. -/
theorem due_pull_le (ts : List Token) (s : State) :
    (s.pull ts).due ≤ s.work + 12 * ts.length := by
  induction ts generalizing s with
  | nil => exact Nat.le_refl _
  | cons t rest ih =>
    unfold pull
    split
    · refine (ih _).trans ?_
      rw [work_complainAt, List.length_cons]
      show s.work + 1 + _ ≤ _
      omega
    · unfold due left
      rw [List.length_cons]
      dsimp only
      split <;> omega

/-- At the end, reading costs a step. -/
theorem due_read_le (s : State) : s.read.due ≤ s.due + 1 := by
  have h : s.read.due ≤ s.work + 1 + 12 * s.rest.length := due_pull_le s.rest s.tick
  unfold due left at h ⊢
  omega

/-- Before the end, reading pays for eleven more. -/
theorem due_read_lt {s : State} (h : ¬ s.sees .endOfSource) : s.read.due + 11 ≤ s.due := by
  have hle : s.read.due ≤ s.work + 1 + 12 * s.rest.length := due_pull_le s.rest s.tick
  have hleft : s.left = s.rest.length + 1 := by
    unfold left
    rw [if_neg h]
  unfold due at hle ⊢
  omega

end State

/-! ## Walks -/

/-- A chain of guarded moves within one function and one scope. -/
structure Walk (cost : Int) (p q : Point) : Prop where
  moves : Moves p q
  due : (q.state.due : Int) ≤ p.state.due + cost
  left : q.state.left ≤ p.state.left
  depth : q.state.builder.depth = p.state.builder.depth
  around : IdleAll p.state.around q.state.around
  size : p.state.codeSize ≤ q.state.codeSize
  jumps : ∀ x, IsJumpIn p.written x → IsJumpIn q.written x
  suspended : q.suspended = p.suspended

theorem Walk.refl (p : Point) : Walk 0 p p where
  moves := .refl
  due := by omega
  left := Nat.le_refl _
  depth := rfl
  around := .refl _
  size := Nat.le_refl _
  jumps _ h := h
  suspended := rfl

theorem Walk.trans {k l : Int} {p q r : Point} (h : Walk k p q) (g : Walk l q r) :
    Walk (k + l) p r where
  moves := h.moves.trans g.moves
  due := by
    have := h.due
    have := g.due
    omega
  left := Nat.le_trans g.left h.left
  depth := g.depth.trans h.depth
  around := h.around.trans g.around
  size := Nat.le_trans h.size g.size
  jumps x hx := g.jumps x (h.jumps x hx)
  suspended := g.suspended.trans h.suspended

theorem Walk.mono {k l : Int} {p q : Point} (h : Walk k p q) (hle : k ≤ l) : Walk l p q :=
  { h with due := Int.le_trans h.due (Int.add_le_add_left hle _) }

theorem Walk.fits {k : Int} {p q : Point} (h : Walk k p q) (hp : p.Fits) : q.Fits :=
  Moves.fits h.moves hp

/-- A state is walked to. -/
def Walks (cost : Int) (p : Point) (t : State) : Prop :=
  ∃ written, Walk cost p ⟨t, written, p.suspended⟩

section Walks

variable {k m : Int} {p q : Point} {s t : State}

theorem Walks.refl (p : Point) : Walks 0 p p.state := ⟨p.written, .refl p⟩

theorem Walk.walks (h : Walk k p q) : Walks k p q.state :=
  ⟨q.written, h.suspended ▸ h⟩

theorem Walks.mono (h : Walks k p t) (hle : k ≤ m) : Walks m p t := by
  obtain ⟨ws, hwalk⟩ := h
  exact ⟨ws, hwalk.mono hle⟩

/-- A walk goes on from wherever it has come, at a cost of `l`. -/
theorem Walks.bind (l : Int) (h : Walks k p s) (hp : p.Fits) (hle : k + l ≤ m)
    (next : ∀ ws, Point.Fits ⟨s, ws, p.suspended⟩ → Walk k p ⟨s, ws, p.suspended⟩ →
      Walks l ⟨s, ws, p.suspended⟩ t) : Walks m p t := by
  obtain ⟨ws, hwalk⟩ := h
  obtain ⟨vs, hnext⟩ := next ws (hwalk.fits hp) hwalk
  exact ⟨vs, (hwalk.trans hnext).mono hle⟩

/-- What costs nothing comes before anything else. -/
theorem Walks.andThen (h : Walks 0 p s) (hp : p.Fits)
    (next : ∀ ws, Point.Fits ⟨s, ws, p.suspended⟩ → Walk 0 p ⟨s, ws, p.suspended⟩ →
      Walks m ⟨s, ws, p.suspended⟩ t) : Walks m p t :=
  h.bind m hp (Int.le_of_eq (Int.zero_add m)) next

end Walks

/-! ## Primitives -/

namespace Walk

variable {p : Point} {t : State}

/-- What neither reads nor writes costs nothing. -/
theorem still (h : Move p (p.having t)) (hupcoming : t.upcoming = p.state.upcoming)
    (hwork : t.work = p.state.work) (hdepth : t.builder.depth = p.state.builder.depth)
    (haround : t.around = p.state.around) (hsize : t.codeSize = p.state.codeSize) :
    Walk 0 p (p.having t) where
  moves := h.moves
  due := by
    show ((t.due : Nat) : Int) ≤ _
    rw [State.due_of_upcoming hupcoming hwork]
    omega
  left := Nat.le_of_eq (State.left_of_upcoming hupcoming)
  depth := hdepth
  around := by
    show IdleAll _ t.around
    rw [haround]
    exact .refl _
  size := Nat.le_of_eq hsize.symm
  jumps _ h := h
  suspended := rfl

theorem tick (p : Point) : Walk 1 p (p.having p.state.tick) where
  moves := (Move.tick p).moves
  due := by
    have h : p.state.tick.due = p.state.due + 1 := by
      have hleft : p.state.tick.left = p.state.left := rfl
      unfold State.due
      rw [hleft]
      show p.state.work + 1 + _ = _
      omega
    show ((p.state.tick.due : Nat) : Int) ≤ _
    rw [h]
    omega
  left := Nat.le_refl _
  depth := rfl
  around := .refl _
  size := Nat.le_refl _
  jumps _ h := h
  suspended := rfl

theorem read {cost : Int} (hdue : (p.state.read.due : Int) ≤ p.state.due + cost) :
    Walk cost p (p.having p.state.read) := by
  obtain ⟨hbuilder, haround, -⟩ := p.state.read_keeps
  exact {
    moves := (Move.read p).moves
    due := hdue
    left := (Edit.read p.state).edits.left_le
    depth := congrArg Builder.depth hbuilder
    around := by
      show IdleAll _ p.state.read.around
      rw [haround]
      exact .refl _
    size := by
      show _ ≤ p.state.read.codeSize
      unfold State.codeSize
      rw [hbuilder]
    jumps := fun _ h => h
    suspended := rfl }

end Walk

section Primitives

variable {p : Point}

theorem walks_tick (p : Point) : Walks 1 p p.state.tick := (Walk.tick p).walks

/-- Reading pays, except at the end. -/
theorem walks_read (p : Point) (hne : ¬ p.state.sees .endOfSource) :
    Walks (-11) p p.state.read := by
  refine (Walk.read ?_).walks
  have := State.due_read_lt hne
  omega

theorem walks_read_end (p : Point) : Walks 1 p p.state.read := by
  refine (Walk.read ?_).walks
  have := p.state.due_read_le
  omega

theorem walks_complainAt (p : Point) (t : Token) (c : Complaint) :
    Walks 0 p (p.state.complainAt t c) :=
  (Walk.still (.complain p t c) (State.upcoming_complainAt ..) (State.work_complainAt ..)
    (congrArg Builder.depth (State.builder_complainAt ..)) (State.around_complainAt ..)
    (by unfold State.codeSize; rw [State.builder_complainAt])).walks

theorem walks_complain (p : Point) (c : Complaint) : Walks 0 p (p.state.complain c) :=
  walks_complainAt p _ c

theorem walks_complainNext (p : Point) (c : Complaint) : Walks 0 p (p.state.complainNext c) :=
  walks_complainAt p _ c

theorem not_sees_end {s : State} {k : TokenKind} (h : s.sees k = true)
    (hk : k ≠ .endOfSource) : ¬ s.sees .endOfSource := by
  rw [State.sees_iff] at h ⊢
  exact fun hend => hk (h.symm.trans hend)

theorem walks_require (p : Point) (k : TokenKind) (what : Expected)
    (hk : k ≠ .endOfSource) : Walks 0 p (p.state.require k what) := by
  unfold State.require
  split
  · next hsees => exact (walks_read p (not_sees_end hsees hk)).mono (by decide)
  · exact walks_complainNext p _

theorem walks_checkpoint (p : Point) : Walks 0 p p.state.checkpoint :=
  (Walk.still (.checkpoint p) rfl rfl rfl rfl rfl).walks

/-! ### Code -/

theorem walk_emit (p : Point) (op : Opcode) (operands : List UInt8)
    (whole : p.state.IsQuiet → p.state.isRecovering = false →
      Written.IsWhole p.state.builder.chunk.constants ⟨op, operands, p.state.previous.line⟩) :
    Walk 0 p (p.wrote (p.state.emit op operands) op operands) := by
  have heq := State.emit_eq p.state op operands
  exact {
    moves := (Move.emit p op operands whole).moves
    due := by
      show (((p.state.emit op operands).due : Nat) : Int) ≤ _
      rw [heq]
      show ((p.state.due : Nat) : Int) ≤ _
      omega
    left := by
      show (p.state.emit op operands).left ≤ _
      rw [heq]
      exact Nat.le_refl _
    depth := by
      show (p.state.emit op operands).builder.depth = _
      rw [heq]
    around := by
      show IdleAll _ (p.state.emit op operands).around
      rw [heq]
      exact .refl _
    size := by
      show _ ≤ (p.state.emit op operands).codeSize
      rw [heq]
      simp [State.codeSize]
    jumps := fun _ h => h.append _
    suspended := rfl }

theorem walks_emit (p : Point) {op : Opcode} {operands : List UInt8}
    (whole : p.state.IsQuiet → p.state.isRecovering = false →
      Written.IsWhole p.state.builder.chunk.constants ⟨op, operands, p.state.previous.line⟩) :
    Walks 0 p (p.state.emit op operands) :=
  (walk_emit p op operands whole).walks

/-- An opcode without operands is an instruction. -/
theorem walks_appendOp (p : Point) {op : Opcode} (hop : op.operandBytes = 0) :
    Walks 0 p (p.state.appendOp op) := by
  have hwhole :
      Written.IsWhole p.state.builder.chunk.constants ⟨op, [], p.state.previous.line⟩ := by
    unfold Written.IsWhole
    split
    · next hclosure =>
      dsimp only at hclosure
      rw [hclosure] at hop
      cases hop
    · exact hop.symm
  exact walks_emit p fun _ _ => hwhole

theorem walks_pop (p : Point) : Walks 0 p (p.state.appendOp .pop) := walks_appendOp p rfl

theorem appendNumber_eq {s : State} {n : Nat} (hn : n < byteRange) :
    s.appendNumber n = s.appendByte n.toUInt8 := by
  unfold State.appendNumber State.guarantee
  rw [if_pos (decide_eq_true hn)]

theorem appendWith_eq {s : State} {n : Nat} (hn : n < byteRange) (op : Opcode) :
    s.appendWith op n = s.emit op [n.toUInt8] :=
  appendNumber_eq hn

/-- An opcode with one operand is an instruction, unless it makes a closure. -/
theorem walks_appendWith (p : Point) {op : Opcode} {n : Nat} (hop : op.operandBytes = 1)
    (hne : op ≠ .closure) (hn : n < byteRange) : Walks 0 p (p.state.appendWith op n) := by
  rw [appendWith_eq hn]
  refine walks_emit p fun _ _ => ?_
  unfold Written.IsWhole
  rw [if_neg hne]
  exact hop.symm

/-- A jump that is opened is there to be landed. -/
theorem walk_openJump (op : Opcode) (hop : op = .jump ∨ op = .jumpIfFalse) (hp : p.Fits) :
    ∃ ws, Walk 0 p ⟨(p.state.openJump op).2, ws, p.suspended⟩ ∧
      IsJumpIn ws (p.state.openJump op).1 := by
  refine ⟨_, walk_emit p op [0xff] fun _ _ => ?_, ?_⟩
  · unfold Written.IsWhole
    rcases hop with rfl | rfl <;> rfl
  · have hsize : (p.state.openJump op).1 = sizeOfAll p.written + 1 := by
      rw [← hp.builder.size_code]
      rfl
    rw [hsize]
    exact isJumpIn_concat _ ⟨hop, rfl⟩

theorem Walks.jumping {m : Int} {t : State} (op : Opcode)
    (hop : op = .jump ∨ op = .jumpIfFalse) (hp : p.Fits)
    (next : ∀ ws, Point.Fits ⟨(p.state.openJump op).2, ws, p.suspended⟩ →
      Walk 0 p ⟨(p.state.openJump op).2, ws, p.suspended⟩ →
      IsJumpIn ws (p.state.openJump op).1 →
      Walks m ⟨(p.state.openJump op).2, ws, p.suspended⟩ t) : Walks m p t := by
  obtain ⟨ws, hwalk, hjump⟩ := walk_openJump op hop hp
  obtain ⟨vs, hnext⟩ := next ws (hwalk.fits hp) hwalk hjump
  exact ⟨vs, (hwalk.trans hnext).mono (Int.le_of_eq (Int.zero_add m))⟩

theorem work_guarantee (s : State) (holds : Bool) (d : Defect) :
    (s.guarantee holds d).work = s.work := by
  unfold State.guarantee
  split <;> rfl

theorem work_landJump (s : State) (operand : Nat) : (s.landJump operand).work = s.work := by
  unfold State.landJump
  dsimp only
  split
  · exact work_guarantee ..
  · exact (work_complainAt ..).trans (work_guarantee ..)

theorem work_loopBack (s : State) (start : Nat) : (s.loopBack start).work = s.work := by
  unfold State.loopBack
  dsimp only
  split
  · exact work_guarantee ..
  · exact (work_complainAt ..).trans (work_guarantee ..)

theorem work_poolConstant (s : State) (v : Value) : (s.poolConstant v).2.work = s.work := by
  unfold State.poolConstant
  dsimp only
  split
  · rfl
  · exact work_complainAt ..

/-- A jump that was written may be landed. -/
theorem walks_landJump {operand : Nat} (hp : p.Fits) (h : IsJumpIn p.written operand) :
    Walks 0 p (p.state.landJump operand) := by
  obtain ⟨before, ⟨op, operands, line⟩, after, hw, ⟨hop, hlen⟩, rfl⟩ := h
  obtain ⟨old, rfl⟩ := List.length_eq_one_iff.mp hlen
  have hb := hp.builder
  rw [hw] at hb
  obtain ⟨hbuilder, haround, -⟩ := p.state.landJump_keeps hb.landJump.1
  have hwalk : Walk 0 p { p with
      state := p.state.landJump (sizeOfAll before + 1)
      written := before ++
        ⟨op, [p.state.landingByte (sizeOfAll before + 1) old], line⟩ :: after } := {
    moves := (Move.landJump p before after op old line hw hop).moves
    due := by
      have hdue := due_of_upcoming (p.state.upcoming_landJump (sizeOfAll before + 1))
        (work_landJump ..)
      show ((p.state.landJump _).due : Int) ≤ _
      omega
    left := Nat.le_of_eq (left_landJump ..)
    depth := by
      show (p.state.landJump _).builder.depth = _
      rw [hbuilder]
    around := by
      show IdleAll _ (p.state.landJump _).around
      rw [haround]
      exact .refl _
    size := by
      show _ ≤ (p.state.landJump _).codeSize
      unfold codeSize
      rw [hbuilder]
      simp
    jumps := fun x hx => by
      rw [hw] at hx
      exact hx.refill rfl rfl
    suspended := rfl }
  exact hwalk.walks

/-- A loop may be closed behind its start. -/
theorem walks_loopBack {start : Nat} (h : start ≤ p.state.codeSize) :
    Walks 0 p (p.state.loopBack start) := by
  obtain ⟨hbuilder, haround, -⟩ := p.state.loopBack_keeps h
  have hwalk : Walk 0 p (p.wrote (p.state.loopBack start) .loop [p.state.loopByte start]) := {
    moves := (Move.loopBack p start h).moves
    due := by
      have hdue := due_of_upcoming (p.state.upcoming_loopBack start) (work_loopBack ..)
      show ((p.state.loopBack _).due : Int) ≤ _
      omega
    left := Nat.le_of_eq (left_loopBack ..)
    depth := by
      show (p.state.loopBack start).builder.depth = _
      rw [hbuilder, emit_eq]
    around := by
      show IdleAll _ (p.state.loopBack start).around
      rw [haround]
      exact .refl _
    size := by
      show _ ≤ (p.state.loopBack start).codeSize
      unfold codeSize
      rw [hbuilder, emit_eq]
      simp
    jumps := fun _ hx => hx.append _
    suspended := rfl }
  exact hwalk.walks

theorem walks_poolConstant (p : Point) (v : Value) : Walks 0 p (p.state.poolConstant v).2 := by
  obtain ⟨hbuilder, haround, -⟩ := p.state.poolConstant_keeps v
  refine (Walk.still (.pool p v) (upcoming_poolConstant ..) (work_poolConstant ..) ?_ haround
    ?_).walks
  · rw [hbuilder]
  · unfold codeSize
    rw [hbuilder]

theorem walks_pushLiteral (hp : p.Fits) (v : Value) : Walks 0 p (p.state.pushLiteral v) :=
  (walks_poolConstant p v).andThen hp fun _ _ _ =>
    walks_appendWith _ rfl (by decide) (p.state.poolConstant_keeps v).2.2.2

/-! ### Names -/

/-- What a name refers to has a number that fits in a byte. -/
theorem walks_resolve (hp : p.Fits) (name : String) :
    Walks 0 p (p.state.resolve name).2 ∧ (p.state.resolve name).1.operand < byteRange := by
  unfold resolve
  split
  · next slot l hslot =>
    refine ⟨?_, Nat.lt_of_lt_of_le (slotOf_lt hslot) hp.builder.locals⟩
    dsimp only
    split
    · exact walks_complain p _
    · exact .refl p
  · unfold resolveAround
    cases hfound : captureFrom name p.state.builder p.state.around with
    | none =>
      exact ⟨walks_poolConstant p _, (p.state.poolConstant_keeps _).2.2.2⟩
    | some found =>
      have htraced := traced_captureFrom hfound hp.builders hp.captures
      have hwalk : Walk 0 p (p.having { p.state with
          builder := found.inner, around := found.around }) := {
        moves := (Move.capture p name found hfound).moves
        due := Int.le_of_eq (Int.add_zero _).symm
        left := Nat.le_refl _
        depth := by
          show found.inner.depth = _
          rw [htraced.inner]
        around := htraced.around
        size := by
          show _ ≤ found.inner.chunk.code.size
          rw [htraced.inner]
          exact Nat.le_refl _
        jumps := fun _ h => h
        suspended := rfl }
      refine ⟨?_, Nat.lt_of_lt_of_le htraced.index (hwalk.fits hp).builder.captures⟩
      dsimp only [Option.map_some]
      split
      · exact hwalk.walks.andThen hp fun _ _ _ => walks_complain _ _
      · exact hwalk.walks

end Primitives

/-! ## Expressions -/

/-- A pass can be walked from wherever there are at most `most` tokens left.  It costs
no more than `cost`, and no more than `begun` unless it starts at the end. -/
structure Walkable (most : Nat) (cost begun : Int) (pass : Pass) : Prop where
  walks : ∀ p : Point, p.Fits → p.state.left ≤ most → Walks cost p (pass p.state)
  begun : ∀ p : Point, p.Fits → p.state.left ≤ most → ¬ p.state.sees .endOfSource →
    Walks begun p (pass p.state)

theorem Walkable.mono {most fewer : Nat} {cost begun : Int} {pass : Pass}
    (h : Walkable most cost begun pass) (hle : fewer ≤ most) :
    Walkable fewer cost begun pass where
  walks p hp hleft := h.walks p hp (hleft.trans hle)
  begun p hp hleft := h.begun p hp (hleft.trans hle)

/-- What is known of a pass for expressions. -/
abbrev WalksExpression (most : Nat) (pass : Pass) : Prop := Walkable most 2 (-2) pass

section Expressions

variable {most : Nat} {operand : Precedence → Pass} {expression : Pass}
  {arguments : State → Nat × State} {p : Point}

theorem walks_groupForm (he : WalksExpression most expression) (hp : p.Fits)
    (hleft : p.state.left ≤ most) : Walks 2 p (p.state.groupForm expression) :=
  (he.walks p hp hleft).bind 0 hp (by decide) fun _ _ _ => walks_require _ _ _ (by decide)

theorem walks_unaryForm (ho : ∀ level, WalksExpression most (operand level)) (hp : p.Fits)
    (hleft : p.state.left ≤ most) (op : UnaryOperator) :
    Walks 2 p (p.state.unaryForm operand op) :=
  ((ho _).walks p hp hleft).bind 0 hp (by decide) fun _ _ _ =>
    walks_appendOp _ (by cases op <;> rfl)

/-- The instructions for a place have its number as their operand. -/
theorem operandBytes_place (place : Place) :
    (place.getOp.operandBytes = 1 ∧ place.getOp ≠ .closure) ∧
      place.setOp.operandBytes = 1 ∧ place.setOp ≠ .closure := by
  cases place <;> exact ⟨⟨rfl, nofun⟩, rfl, nofun⟩

theorem walks_nameForm (he : WalksExpression most expression) (hp : p.Fits)
    (hleft : p.state.left ≤ most) (mayAssign : Bool) :
    Walks 2 p (p.state.nameForm expression mayAssign) := by
  obtain ⟨hresolve, hbyte⟩ := walks_resolve hp p.state.previous.lexeme
  obtain ⟨⟨hget, hget'⟩, hset, hset'⟩ :=
    operandBytes_place (p.state.resolve p.state.previous.lexeme).1
  unfold nameForm
  refine hresolve.andThen hp fun ws hq hwalk => ?_
  dsimp only
  split
  · next hassign =>
    have hsees := (Bool.and_eq_true_iff.mp hassign).2
    refine (walks_read ⟨_, _, _⟩ (not_sees_end hsees (by decide))).bind 2 hq (by decide)
      fun _ hr hwalk' => ?_
    exact (he.walks _ hr ((hwalk'.left.trans hwalk.left).trans hleft)).bind 0 hr (by decide)
      fun _ _ _ => walks_appendWith _ hset hset' hbyte
  · exact (walks_appendWith _ hget hget' hbyte).mono (by decide)

theorem walks_openExpression (ho : ∀ level, WalksExpression most (operand level))
    (hp : p.Fits) (hleft : p.state.left ≤ most) (mayAssign : Bool) {opening : Opening}
    (hopening : p.state.previous.kind.opening? = some opening) :
    Walks 2 p (p.state.openExpression operand mayAssign opening) := by
  cases opening with
  | group => exact walks_groupForm (ho _) hp hleft
  | unary op => exact walks_unaryForm ho hp hleft op
  | name => exact walks_nameForm (ho _) hp hleft mayAssign
  | string => exact (walks_pushLiteral hp _).mono (by decide)
  | number =>
    refine Walks.mono (k := 0) ?_ (by decide)
    show Walks 0 p p.state.numberForm
    unfold numberForm
    split
    · exact walks_pushLiteral hp _
    · exact walks_complain p _
  | literal op =>
    refine (walks_appendOp p ?_).mono (by decide)
    revert hopening
    cases p.state.previous.kind <;> intro h <;> cases h <;> rfl

theorem walks_andForm (ho : ∀ level, WalksExpression most (operand level)) (hp : p.Fits)
    (hleft : p.state.left ≤ most) : Walks 2 p (p.state.andForm operand) := by
  refine Walks.jumping .jumpIfFalse (.inr rfl) hp fun _ hq hwalk hjump => ?_
  refine (walks_pop _).andThen hq fun _ hr hwalk' => ?_
  refine ((ho .and).walks _ hr ?_).bind 0 hr (by decide) fun _ hu hwalk'' => ?_
  · exact (hwalk'.left.trans hwalk.left).trans hleft
  · exact walks_landJump hu (hwalk''.jumps _ (hwalk'.jumps _ hjump))

theorem walks_orForm (ho : ∀ level, WalksExpression most (operand level)) (hp : p.Fits)
    (hleft : p.state.left ≤ most) : Walks 2 p (p.state.orForm operand) := by
  refine Walks.jumping .jumpIfFalse (.inr rfl) hp fun _ hq hwalk₁ helse => ?_
  refine Walks.jumping .jump (.inl rfl) hq fun _ hr hwalk₂ hend => ?_
  refine (walks_landJump hr (hwalk₂.jumps _ helse)).andThen hr fun _ hu hwalk₃ => ?_
  refine (walks_pop _).andThen hu fun _ hv hwalk₄ => ?_
  refine ((ho .or).walks _ hv ?_).bind 0 hv (by decide) fun _ hw hwalk₅ => ?_
  · exact (((hwalk₄.left.trans hwalk₃.left).trans hwalk₂.left).trans hwalk₁.left).trans hleft
  · exact walks_landJump hw (hwalk₅.jumps _ (hwalk₄.jumps _ (hwalk₃.jumps _ hend)))

theorem walks_appendOps (ops : List Opcode) (hops : ∀ op ∈ ops, op.operandBytes = 0)
    (hp : p.Fits) : Walks 0 p (ops.foldl appendOp p.state) := by
  induction ops generalizing p with
  | nil => exact .refl p
  | cons op ops ih =>
    obtain ⟨hop, hops⟩ := List.forall_mem_cons.mp hops
    exact (walks_appendOp p hop).andThen hp fun _ hq _ => ih hops hq

theorem walks_binaryForm (ho : ∀ level, WalksExpression most (operand level)) (hp : p.Fits)
    (hleft : p.state.left ≤ most) (op : BinaryOperator) :
    Walks 2 p (p.state.binaryForm operand op) :=
  ((ho _).walks p hp hleft).bind 0 hp (by decide) fun _ hq _ =>
    walks_appendOps op.code (by cases op <;> decide) hq

/-- Arguments, of which there are no more than a call can have. -/
structure WalksArguments (most : Nat) (arguments : State → Nat × State) : Prop where
  walks : ∀ p : Point, p.Fits → p.state.left ≤ most → Walks 3 p (arguments p.state).2
  count : ∀ s, (arguments s).1 ≤ maxArguments

theorem walks_callForm (ha : WalksArguments most arguments) (hp : p.Fits)
    (hleft : p.state.left ≤ most) : Walks 3 p (p.state.callForm arguments) := by
  have hclose : ∀ (q : Point) (count : Nat), q.Fits → count ≤ maxArguments →
      Walks 0 q ((q.state.require .rightParen .closingOfArguments).appendWith .call count) :=
    fun q count hq hcount => (walks_require q .rightParen _ (by decide)).andThen hq fun _ _ _ =>
      walks_appendWith _ rfl nofun (Nat.lt_succ_of_le hcount)
  unfold callForm
  dsimp only
  split
  · exact (hclose p 0 hp (Nat.zero_le _)).mono (by decide)
  · exact (ha.walks p hp hleft).bind 0 hp (by decide) fun _ hq _ =>
      hclose ⟨_, _, _⟩ _ hq (ha.count _)

theorem walks_continueExpression (ho : ∀ level, WalksExpression most (operand level))
    (ha : WalksArguments most arguments) (hp : p.Fits) (hleft : p.state.left ≤ most)
    (c : Continuation) : Walks 3 p (p.state.continueExpression operand arguments c) := by
  cases c with
  | call => exact walks_callForm ha hp hleft
  | binary op => exact (walks_binaryForm ho hp hleft op).mono (by decide)
  | and => exact (walks_andForm ho hp hleft).mono (by decide)
  | or => exact (walks_orForm ho hp hleft).mono (by decide)

theorem walks_refuseAssignment (hp : p.Fits) (mayAssign : Bool) :
    Walks 0 p (p.state.refuseAssignment mayAssign) := by
  unfold refuseAssignment
  split
  · next hassign =>
    have hsees := (Bool.and_eq_true_iff.mp hassign).2
    exact (walks_read p (not_sees_end hsees (by decide))).bind 0 hp (by decide) fun _ _ _ =>
      walks_complain _ _
  · exact .refl p

theorem walks_countArgument (p : Point) (count : Nat) :
    Walks 0 p (p.state.countArgument count).2 := by
  unfold countArgument
  split
  · exact walks_complain p _
  · exact .refl p

theorem countArgument_le (s : State) {count : Nat} (h : count ≤ maxArguments) :
    (s.countArgument count).1 ≤ maxArguments := by
  unfold countArgument
  split
  · exact h
  · next hne => exact Nat.lt_of_le_of_ne h hne

end Expressions

end ScriptEngine.Compile
