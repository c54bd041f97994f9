import ScriptEngine.Proofs.Compile.ProgramDerivation
set_option autoImplicit false

/-!
# Compilation: how far the compiler gets

A word of the grammar is accepted if the compiler, standing before it, arrives behind
it.  It may also break a rule on names or sizes on the way; then the first diagnostic
is a static one, and stays the first whatever follows.  `State.Arrives` says that one
of the two is so, and no pass that reads nothing changes it (`Arrives.keep`).
-/

namespace ScriptEngine.Compile.State

/-! ## Static refusals -/

/-- The first thing that was reported breaks a static rule. -/
def IsRefused (s : State) : Prop :=
  ∃ d, s.diagnostics[0]? = some d ∧ d.complaint.isStatic = true

/-- What was reported first is still the first. -/
structure FirstStays (s t : State) : Prop where
  first : ∀ d, s.diagnostics[0]? = some d → t.diagnostics[0]? = some d

theorem firstStays_of_eq {s t : State} (h : t.diagnostics = s.diagnostics) : FirstStays s t :=
  ⟨fun _ hd => h ▸ hd⟩

theorem FirstStays.trans {s t u : State} (h : FirstStays s t) (k : FirstStays t u) :
    FirstStays s u :=
  ⟨fun d hd => k.first d (h.first d hd)⟩

theorem firstStays_complainAt (s : State) (t : Token) (c : Complaint) :
    FirstStays s (s.complainAt t c) := by
  refine ⟨fun d hd => ?_⟩
  unfold complainAt
  split
  · exact hd
  · obtain ⟨hlt, -⟩ := Array.getElem?_eq_some_iff.mp hd
    rw [Array.getElem?_push_lt hlt, ← hd, Array.getElem?_eq_getElem hlt]

theorem firstStays_pull (ts : List Token) (s : State) : FirstStays s (s.pull ts) := by
  induction ts generalizing s with
  | nil => exact firstStays_of_eq rfl
  | cons t rest ih =>
    unfold pull
    split
    · have htick : FirstStays s s.tick := firstStays_of_eq rfl
      exact htick.trans ((firstStays_complainAt s.tick t _).trans (ih _))
    · exact firstStays_of_eq rfl

theorem diagnostics_guarantee (s : State) (holds : Bool) (d : Defect) :
    (s.guarantee holds d).diagnostics = s.diagnostics := by
  unfold guarantee
  split <;> rfl

theorem firstStays_landJump (s : State) (operand : Nat) :
    FirstStays s (s.landJump operand) := by
  have hbefore : FirstStays s _ := firstStays_of_eq
    (diagnostics_guarantee s (operand < s.codeSize) .landedNoJump)
  unfold landJump
  dsimp only
  split
  · exact hbefore.trans (firstStays_of_eq rfl)
  · exact hbefore.trans ((firstStays_complainAt ..).trans (firstStays_of_eq rfl))

theorem firstStays_loopBack (s : State) (start : Nat) : FirstStays s (s.loopBack start) := by
  have hbefore : FirstStays s _ := firstStays_of_eq
    (diagnostics_guarantee s (start ≤ s.codeSize) .loopStartsLate)
  unfold loopBack
  dsimp only
  split
  · exact hbefore.trans (firstStays_of_eq rfl)
  · refine FirstStays.trans ?_ (firstStays_complainAt ..)
    exact hbefore.trans (firstStays_of_eq rfl)

theorem firstStays_poolConstant (s : State) (v : Value) :
    FirstStays s (s.poolConstant v).2 := by
  have hbefore : FirstStays s (s.withChunk (s.builder.chunk.pushConstant v).2) :=
    firstStays_of_eq rfl
  unfold poolConstant
  dsimp only
  split
  · exact hbefore
  · exact hbefore.trans (firstStays_complainAt ..)

theorem Action.firstStays {s t : State} (h : Action s t) : FirstStays s t := by
  cases h with
  | edit h =>
    cases h with
    | read => exact ⟨fun d hd => (firstStays_pull s.rest s.tick).first d hd⟩
    | complain => exact firstStays_complainAt ..
    | landJump => exact firstStays_landJump ..
    | loopBack => exact firstStays_loopBack ..
    | pool => exact firstStays_poolConstant ..
    | _ => exact firstStays_of_eq rfl
  | _ => exact firstStays_of_eq rfl

/-- A static refusal is final. -/
theorem IsRefused.act {s t : State} (hs : s.IsRefused) (h : Actions s t) : t.IsRefused := by
  induction h with
  | refl => exact hs
  | tail _ act ih =>
    obtain ⟨d, hd, hstatic⟩ := ih
    exact ⟨d, act.firstStays.first d hd, hstatic⟩

/-- Nothing was reported, or a static refusal first. -/
def IsFine (s : State) : Prop := s.IsQuiet ∨ s.IsRefused

theorem isRefused_complainAt {s : State} (hq : s.IsQuiet) (hcalm : s.isRecovering = false)
    (t : Token) {c : Complaint} (hc : c.isStatic = true) : (s.complainAt t c).IsRefused := by
  refine ⟨.about t c, ?_, hc⟩
  have hdiagnostics : s.diagnostics = #[] := hq
  unfold complainAt
  rw [hcalm, hdiagnostics]
  rfl

/-! ## Standing before a word -/

/-- The compiler is in good order before tokens of these kinds, none of which is
invalid. -/
structure Stands (s : State) (a : List TokenKind) : Prop extends InOrder s where
  ahead_eq : s.ahead = a
  valid : s.IsValid
  numerals : ∀ t ∈ s.upcoming, t.IsNumeral

/-- The compiler stands before tokens of these kinds, unless it has refused the source. -/
def Arrives (s : State) (a : List TokenKind) : Prop := s.Stands a ∨ s.IsRefused

section Arrives

variable {s t : State} {a b : List TokenKind} {k : TokenKind}

theorem Stands.head (h : s.Stands (k :: a)) : s.current.kind = k := (List.cons.inj h.ahead_eq).1

theorem Stands.sees (h : s.Stands (k :: a)) : s.sees k = true := sees_iff.mpr h.head

theorem Stands.sees_ne (h : s.Stands (k :: a)) (k' : TokenKind) (hne : k ≠ k') :
    s.sees k' = false := by
  rw [← Bool.not_eq_true, sees_iff, h.head]
  exact hne

/-- What reads nothing and reports nothing stays where it is. -/
theorem Stands.keep (hs : s.Stands a) (h : Actions s t) (hupcoming : t.upcoming = s.upcoming)
    (hq : t.IsQuiet) : t.Stands a where
  toInOrder := Actions.inOrder h hs.toInOrder hq
  ahead_eq := (ahead_of_upcoming hupcoming).trans hs.ahead_eq
  valid := isValid_of_upcoming hupcoming.symm hs.valid
  numerals := hupcoming ▸ hs.numerals

/-- What reads nothing and only refuses for static reasons stays where it is. -/
theorem Arrives.keep (hs : s.Arrives a) (h : Actions s t) (hupcoming : t.upcoming = s.upcoming)
    (hfine : s.Stands a → t.IsFine) : t.Arrives a := by
  rcases hs with hs | hs
  · exact (hfine hs).imp (hs.keep h hupcoming) id
  · exact .inr (hs.act h)

/-- What holds of a pass that stands before a word holds after a refusal as well. -/
theorem Arrives.bind (hs : s.Arrives a) (h : Actions s t) (hstands : s.Stands a → t.Arrives b) :
    t.Arrives b :=
  hs.elim hstands fun hrefused => .inr (hrefused.act h)

/-! ## Reading -/

theorem isQuiet_read (hq : s.IsQuiet) (hvalid : s.IsValid) : s.read.IsQuiet := by
  unfold IsValid at hvalid
  show (s.tick.pull s.rest).IsQuiet
  cases hrest : s.rest with
  | nil => exact hq
  | cons t rest =>
    rw [hrest] at hvalid
    unfold pull
    split
    · next hinvalid => exact absurd hinvalid (hvalid t List.mem_cons_self)
    · exact hq

/-- Before the end, a read takes the first kind. -/
theorem Stands.read (hs : s.Stands (k :: a)) (hk : k ≠ .endOfSource) : s.read.Stands a := by
  have hq := isQuiet_read hs.quiet hs.valid
  have hupcoming := hs.toInOrder.upcoming_read hq (hs.head ▸ hk)
  refine ⟨hs.toInOrder.read hq, ?_, fun t ht => ?_, fun t ht => ?_⟩
  · have hahead := hs.toInOrder.ahead_read hq (hs.head ▸ hk)
    rw [hs.ahead_eq] at hahead
    exact (List.cons.inj hahead).2.symm
  · refine hs.valid t ?_
    rw [(List.cons.inj hupcoming).2]
    exact List.mem_cons_of_mem _ ht
  · refine hs.numerals t ?_
    rw [hupcoming]
    exact List.mem_cons_of_mem _ ht

theorem Arrives.read (hs : s.Arrives (k :: a)) (hk : k ≠ .endOfSource) : s.read.Arrives a :=
  hs.bind (Edit.read s).edits.actions fun hs => .inl (hs.read hk)

/-- A token that is needed is read if it is there. -/
theorem Arrives.require (hs : s.Arrives (k :: a)) (hk : k ≠ .endOfSource) (what : Expected) :
    (s.require k what).Arrives a := by
  refine hs.bind (edits_require s k what).actions fun hs => ?_
  unfold State.require
  rw [if_pos hs.sees]
  exact .inl (hs.read hk)

/-! ## Code -/

theorem Arrives.tick (hs : s.Arrives a) : s.tick.Arrives a :=
  hs.keep (Edit.tick s).edits.actions (upcoming_tick s) fun h => .inl h.quiet

theorem Arrives.checkpoint (hs : s.Arrives a) : s.checkpoint.Arrives a :=
  hs.keep (Action.checkpoint s).actions (upcoming_checkpoint s) fun h => .inl h.quiet

theorem Arrives.appendOp (hs : s.Arrives a) (op : Opcode) : (s.appendOp op).Arrives a :=
  hs.keep (edits_appendOp s op).actions (upcoming_appendOp s op) fun h => .inl h.quiet

theorem isQuiet_appendNumber (s : State) (n : Nat) (hq : s.IsQuiet) :
    (s.appendNumber n).IsQuiet :=
  (isQuiet_guarantee s _ _).mpr hq

theorem Arrives.appendWith (hs : s.Arrives a) (op : Opcode) (n : Nat) :
    (s.appendWith op n).Arrives a :=
  hs.keep (edits_appendWith s op n).actions (upcoming_appendWith s op n)
    fun h => .inl (isQuiet_appendNumber _ n h.quiet)

theorem Arrives.openJump (hs : s.Arrives a) (op : Opcode) : (s.openJump op).2.Arrives a :=
  hs.keep (Edit.openJump s op).edits.actions (upcoming_openJump s op) fun h => .inl h.quiet

theorem Arrives.branch (hs : s.Arrives a) : s.branch.Arrives a :=
  (hs.openJump .jumpIfFalse).appendOp .pop

/-- What a guarantee leaves alone. -/
theorem isRecovering_guarantee (s : State) (holds : Bool) (d : Defect) :
    (s.guarantee holds d).isRecovering = s.isRecovering := by
  unfold guarantee
  split <;> rfl

theorem Arrives.landJump (hs : s.Arrives a) (operand : Nat) : (s.landJump operand).Arrives a := by
  refine hs.keep (Edit.landJump s operand).edits.actions (upcoming_landJump s operand) fun h => ?_
  have hq := (isQuiet_guarantee s (operand < s.codeSize) .landedNoJump).mpr h.quiet
  unfold State.landJump
  dsimp only
  split
  · exact .inl hq
  · exact .inr (isRefused_complainAt hq ((isRecovering_guarantee ..).trans h.calm) _ rfl)

theorem Arrives.loopBack (hs : s.Arrives a) (start : Nat) : (s.loopBack start).Arrives a := by
  refine hs.keep (Edit.loopBack s start).edits.actions (upcoming_loopBack s start) fun h => ?_
  have hq := (isQuiet_guarantee s (start ≤ s.codeSize) .loopStartsLate).mpr h.quiet
  unfold State.loopBack
  dsimp only
  split
  · exact .inl hq
  · refine .inr (isRefused_complainAt ?_ ?_ _ rfl)
    exacts [hq, (isRecovering_guarantee ..).trans h.calm]

theorem isFine_poolConstant (hs : s.Stands a) (v : Value) : (s.poolConstant v).2.IsFine := by
  unfold poolConstant
  dsimp only
  split
  · exact .inl hs.quiet
  · refine .inr (isRefused_complainAt ?_ ?_ _ rfl)
    exacts [hs.quiet, hs.calm]

theorem Arrives.poolConstant (hs : s.Arrives a) {v : Value} (hv : ∀ f, v ≠ .function f) :
    (s.poolConstant v).2.Arrives a :=
  hs.keep (edits_poolConstant hv s).actions (upcoming_poolConstant s v)
    fun h => isFine_poolConstant h v

theorem Arrives.pushLiteral (hs : s.Arrives a) {v : Value} (hv : ∀ f, v ≠ .function f) :
    (s.pushLiteral v).Arrives a :=
  (hs.poolConstant hv).appendWith _ _

theorem Arrives.foldl {α : Type} {f : State → α → State}
    (hf : ∀ s x, s.Arrives a → (f s x).Arrives a) (xs : List α) (hs : s.Arrives a) :
    (xs.foldl f s).Arrives a := by
  induction xs generalizing s with
  | nil => exact hs
  | cons x xs ih => exact ih (hf s x hs)

/-! ## Scopes and names -/

theorem Arrives.openScope (hs : s.Arrives a) : s.openScope.Arrives a :=
  hs.keep (actions_openScope s) (upcoming_openScope s) fun h => .inl h.quiet

theorem Arrives.closeScope (hs : s.Arrives a) : s.closeScope.Arrives a := by
  refine hs.keep (actions_closeScope s) (upcoming_closeScope s) fun h => ?_
  have hretired : ∀ (ls : List Local) (t : State), t.IsQuiet →
      (ls.foldl (fun s l => s.appendOp l.retirement) t).IsQuiet := by
    intro ls
    induction ls with
    | nil => exact fun _ hq => hq
    | cons l ls ih => exact fun t hq => ih (t.appendOp l.retirement) hq
  unfold State.closeScope
  exact .inl (hretired _ _ ((isQuiet_guarantee ..).mpr ((isQuiet_guarantee ..).mpr h.quiet)))

theorem Arrives.inScope {inside : Pass} (hs : s.Arrives a)
    (h : s.openScope.Arrives a → (inside s.openScope).Arrives b) :
    (s.inScope inside).Arrives b :=
  (h hs.openScope).closeScope

theorem Arrives.makeReadable (hs : s.Arrives a) : s.makeReadable.Arrives a := by
  refine hs.keep (actions_makeReadable s) (upcoming_makeReadable s) fun h => .inl ?_
  have hq := h.quiet
  unfold State.makeReadable
  split <;> exact hq

theorem Arrives.bindName (hs : s.Arrives a) (global : Nat) : (s.bindName global).Arrives a := by
  unfold State.bindName
  split
  · exact hs.appendWith _ _
  · exact hs.makeReadable

theorem isFine_pushLocal (hq : s.IsQuiet) (hcalm : s.isRecovering = false) (name : String) :
    (s.pushLocal name).IsFine := by
  unfold pushLocal
  split
  · exact .inr (isRefused_complainAt hq hcalm _ rfl)
  · exact .inl hq

theorem Arrives.declareLocal (hs : s.Arrives a) : s.declareLocal.Arrives a := by
  refine hs.keep (actions_declareLocal s) (upcoming_declareLocal s) fun h => ?_
  unfold State.declareLocal
  split
  · exact .inl h.quiet
  · dsimp only
    split
    · exact .inr ((isRefused_complainAt h.quiet h.calm _ rfl).act (actions_pushLocal ..))
    · exact isFine_pushLocal h.quiet h.calm _

/-- A name that is declared is read. -/
theorem Arrives.declareName (hs : s.Arrives (.identifier :: a)) (what : Expected) :
    (s.declareName what).2.Arrives a := by
  have hlocal := (hs.require nofun what).declareLocal
  unfold State.declareName
  dsimp only
  split
  · exact hlocal.poolConstant nofun
  · exact hlocal

theorem Arrives.resolve (hs : s.Arrives a) (hname : s.previous.kind = .identifier) :
    (s.resolve s.previous.lexeme).2.Arrives a := by
  refine hs.keep (edits_resolve hname).actions (upcoming_resolve s _) fun h => ?_
  unfold State.resolve resolveAround
  split
  · dsimp only
    split
    · exact .inr (isRefused_complainAt h.quiet h.calm _ rfl)
    · exact .inl h.quiet
  · cases captureFrom s.previous.lexeme s.builder s.around with
    | some found =>
      dsimp only [Option.map_some]
      split
      · refine .inr (isRefused_complainAt ?_ ?_ _ rfl)
        exacts [h.quiet, h.calm]
      · exact .inl h.quiet
    | none => exact isFine_poolConstant h _

/-! ## Functions -/

theorem Arrives.countArgument (hs : s.Arrives a) (count : Nat) :
    (s.countArgument count).2.Arrives a := by
  refine hs.keep (edits_countArgument s count).actions (upcoming_countArgument s count) fun h => ?_
  unfold State.countArgument
  split
  · exact .inr (isRefused_complainAt h.quiet h.calm _ rfl)
  · exact .inl h.quiet

/-- A parameter is read. -/
theorem Arrives.parameter (hs : s.Arrives (.identifier :: a)) : s.parameter.Arrives a := by
  have harity : ∀ {t : State}, t.Arrives (.identifier :: a) →
      (if t.builder.arity = maxArguments then t.complainNext .tooManyParameters
        else { t with builder := { t.builder with arity := t.builder.arity + 1 } }).Arrives
          (.identifier :: a) := by
    intro t ht
    split
    · exact ht.keep (edits_complainNext ..).actions (upcoming_complainAt ..) fun h =>
        .inr (isRefused_complainAt h.quiet h.calm _ rfl)
    · exact ht.keep (Action.setArity t _).actions rfl fun h => .inl h.quiet
  unfold State.parameter
  exact ((harity hs.tick).declareName _).bindName _

theorem Arrives.enterFunction (hs : s.Arrives a) (name : String) :
    (s.enterFunction name).Arrives a :=
  hs.keep (Action.enter s name).actions rfl fun h => .inl h.quiet

theorem Arrives.returnNil (hs : s.Arrives a) : s.returnNil.Arrives a := by
  unfold State.returnNil
  split
  · exact hs
  · exact (hs.appendOp _).appendOp _

theorem Arrives.leaveFinished (hs : s.Arrives a) : s.leaveFinished.Arrives a :=
  hs.keep (Action.leave s).actions rfl fun h => .inl h.quiet

theorem Arrives.appendCaptures (hs : s.Arrives a) (captures : List Capture) :
    (s.appendCaptures captures).Arrives a := by
  refine hs.keep (edits_appendCaptures s captures).actions (upcoming_appendCaptures s captures)
    fun h => .inl ?_
  have hq := h.quiet
  clear hs h
  unfold State.appendCaptures
  induction captures generalizing s with
  | nil => exact hq
  | cons c captures ih => exact ih (isQuiet_appendNumber (s.appendByte _) c.index hq)

theorem knows_leaveFinished {u : State} (hq : u.leaveFinished.IsQuiet) :
    u.leaveFinished.Knows (u.builder.finish u.nextId) := by
  have hempty : u.diagnostics.isEmpty = true := Array.isEmpty_iff.mpr hq
  refine ⟨⟨_, u.builder.checkpoints⟩, ?_, rfl⟩
  unfold State.leaveFinished leaveFunction
  rw [if_pos hempty]
  exact Array.mem_push_self

/-- The closure of a function that was finished is made. -/
theorem Arrives.closureCode {u : State} (hu : u.leaveFinished.Arrives a)
    (captures : List Capture) :
    (u.leaveFinished.closureCode (u.builder.finish u.nextId) captures).Arrives a := by
  have hpool : (u.leaveFinished.poolConstant
      (.function (u.builder.finish u.nextId))).2.Arrives a := by
    refine hu.keep (Edit.pool _ _ fun hq f hf => ?_).edits.actions (upcoming_poolConstant ..)
      fun h => isFine_poolConstant h _
    cases hf
    exact knows_leaveFinished hq
  exact (hpool.appendWith _ _).appendCaptures captures

end Arrives

end ScriptEngine.Compile.State
