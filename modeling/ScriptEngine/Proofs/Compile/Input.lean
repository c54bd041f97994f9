import ScriptEngine.Proofs.Compile.Sane
import ScriptEngine.Proofs.Scan
set_option autoImplicit false

/-!
# Compilation: what is left to read

The tokens that a pass has before it are `State.upcoming`, and their kinds
`State.ahead`.  Only reading changes them: `upcoming_appendOp` and its companions say
so of everything else that the compiler does.

A source ends in one token for its end and holds no other one, so that as long as
nothing is reported a read takes the first of them (`ahead_read`).
-/

namespace ScriptEngine.Compile

namespace State

/-! ## Tokens ahead -/

/-- The tokens that are not read yet, the current one first. -/
def upcoming (s : State) : List Token := s.current :: s.rest

/-- The kinds of the tokens ahead. -/
def ahead (s : State) : List TokenKind := s.upcoming.map Token.kind

theorem ahead_eq (s : State) : s.ahead = s.current.kind :: s.rest.map Token.kind := rfl

theorem ahead_of_upcoming {s t : State} (h : t.upcoming = s.upcoming) : t.ahead = s.ahead :=
  congrArg (List.map Token.kind) h

section Unread

variable (s : State)

theorem upcoming_complainAt (t : Token) (c : Complaint) :
    (s.complainAt t c).upcoming = s.upcoming := by
  unfold complainAt
  split <;> rfl

theorem upcoming_guarantee (holds : Bool) (d : Defect) :
    (s.guarantee holds d).upcoming = s.upcoming := by
  unfold guarantee
  split <;> rfl

theorem upcoming_appendOp (op : Opcode) : (s.appendOp op).upcoming = s.upcoming := rfl

theorem upcoming_appendNumber (n : Nat) : (s.appendNumber n).upcoming = s.upcoming :=
  upcoming_guarantee ..

theorem upcoming_appendWith (op : Opcode) (n : Nat) :
    (s.appendWith op n).upcoming = s.upcoming :=
  upcoming_appendNumber ..

theorem upcoming_tick : s.tick.upcoming = s.upcoming := rfl

theorem upcoming_checkpoint : s.checkpoint.upcoming = s.upcoming := rfl

theorem upcoming_openScope : s.openScope.upcoming = s.upcoming := rfl

theorem upcoming_openJump (op : Opcode) : (s.openJump op).2.upcoming = s.upcoming := rfl

theorem upcoming_landJump (operand : Nat) : (s.landJump operand).upcoming = s.upcoming := by
  unfold landJump
  dsimp only
  split
  · exact upcoming_guarantee ..
  · exact (upcoming_complainAt ..).trans (upcoming_guarantee ..)

theorem upcoming_loopBack (start : Nat) : (s.loopBack start).upcoming = s.upcoming := by
  unfold loopBack
  dsimp only
  split
  · exact upcoming_guarantee ..
  · exact (upcoming_complainAt ..).trans (upcoming_guarantee ..)

theorem upcoming_poolConstant (v : Value) : (s.poolConstant v).2.upcoming = s.upcoming := by
  unfold poolConstant
  dsimp only
  split
  · rfl
  · exact upcoming_complainAt ..

theorem upcoming_pushLiteral (v : Value) : (s.pushLiteral v).upcoming = s.upcoming :=
  (upcoming_appendWith ..).trans (upcoming_poolConstant ..)

theorem upcoming_foldl {α : Type} {f : State → α → State}
    (hf : ∀ s a, (f s a).upcoming = s.upcoming) (as : List α) (s : State) :
    (as.foldl f s).upcoming = s.upcoming := by
  induction as generalizing s with
  | nil => rfl
  | cons a as ih => exact (ih (f s a)).trans (hf s a)

theorem upcoming_closeScope : s.closeScope.upcoming = s.upcoming := by
  unfold closeScope
  dsimp only
  refine (upcoming_foldl (fun _ _ => upcoming_appendOp ..) _ _).trans ?_
  exact (upcoming_guarantee ..).trans (upcoming_guarantee ..)

theorem upcoming_pushLocal (name : String) : (s.pushLocal name).upcoming = s.upcoming := by
  unfold pushLocal
  split
  · exact upcoming_complainAt ..
  · rfl

theorem upcoming_declareLocal : s.declareLocal.upcoming = s.upcoming := by
  unfold declareLocal
  split
  · rfl
  · dsimp only
    refine (upcoming_pushLocal ..).trans ?_
    split
    · exact upcoming_complainAt ..
    · rfl

theorem upcoming_makeReadable : s.makeReadable.upcoming = s.upcoming := by
  unfold makeReadable
  split <;> rfl

theorem upcoming_bindName (global : Nat) : (s.bindName global).upcoming = s.upcoming := by
  unfold bindName
  split
  · exact upcoming_appendWith ..
  · exact upcoming_makeReadable ..

theorem upcoming_resolve (name : String) : (s.resolve name).2.upcoming = s.upcoming := by
  unfold resolve resolveAround
  split
  · dsimp only
    split
    · exact upcoming_complainAt ..
    · rfl
  · cases captureFrom name s.builder s.around with
    | some found =>
      dsimp only [Option.map_some]
      split
      · exact upcoming_complainAt ..
      · rfl
    | none => exact upcoming_poolConstant ..

theorem upcoming_returnNil : s.returnNil.upcoming = s.upcoming := by
  unfold returnNil
  split <;> rfl

theorem upcoming_appendCaptures (captures : List Capture) :
    (s.appendCaptures captures).upcoming = s.upcoming :=
  upcoming_foldl
    (fun s (c : Capture) => upcoming_appendNumber (s.appendByte (if c.isLocal then 1 else 0))
      c.index) captures s

theorem upcoming_countArgument (count : Nat) :
    (s.countArgument count).2.upcoming = s.upcoming := by
  unfold countArgument
  split
  · exact upcoming_complainAt ..
  · rfl

end Unread

/-- What is read by a name comes before its declaration. -/
theorem upcoming_declareName (s : State) (what : Expected) :
    (s.declareName what).2.upcoming = (s.require .identifier what).upcoming := by
  unfold declareName
  dsimp only
  split
  · exact (upcoming_poolConstant ..).trans (upcoming_declareLocal ..)
  · exact upcoming_declareLocal ..

/-! ## Good order up to the end -/

/-- The compiler is in good order, and the tokens ahead end where the source does. -/
structure InOrder (s : State) : Prop extends Sane s where
  ended : Ended s.ahead

section Order

variable {s t : State}

theorem sees_iff {k : TokenKind} : s.sees k = true ↔ s.current.kind = k := beq_iff_eq

/-- Before the end, a read takes the first token. -/
theorem InOrder.upcoming_read (hs : s.InOrder) (hq : s.read.IsQuiet)
    (hne : s.current.kind ≠ .endOfSource) : s.upcoming = s.current :: s.read.upcoming := by
  obtain ⟨t, rest, heq, hor⟩ := read_eq hs.toSane hq
  rw [heq]
  rcases hor with ⟨hrest, -⟩ | ⟨hrest, -, -⟩
  · unfold upcoming
    rw [hrest]
  · have htail := hs.ended.tail hne
    rw [hrest] at htail
    exact absurd rfl htail.ne_nil

theorem InOrder.ahead_read (hs : s.InOrder) (hq : s.read.IsQuiet)
    (hne : s.current.kind ≠ .endOfSource) : s.ahead = s.current.kind :: s.read.ahead :=
  congrArg (List.map Token.kind) (hs.upcoming_read hq hne)

theorem previous_read (hs : s.Sane) (hq : s.read.IsQuiet) : s.read.previous = s.current := by
  obtain ⟨t, rest, heq, -⟩ := read_eq hs hq
  rw [heq]

theorem InOrder.ended_read (hs : s.InOrder) (hq : s.read.IsQuiet) : Ended s.read.ahead := by
  by_cases hend : s.current.kind = .endOfSource
  · have hrest : s.rest.map Token.kind = [] := by
      have h := hs.ended
      rw [ahead_eq, hend] at h
      exact h.eq_nil
    obtain ⟨t, rest, heq, hor⟩ := read_eq hs.toSane hq
    rw [List.map_eq_nil_iff.mp hrest] at hor
    rcases hor with ⟨hnil, -⟩ | ⟨-, rfl, rfl⟩
    · cases hnil
    · rw [heq]
      exact ended_end
  · have h := hs.ended
    rw [hs.ahead_read hq hend] at h
    exact h.tail hend

theorem Edit.ended (h : Edit s t) (hs : s.InOrder) (ht : t.IsQuiet) : Ended t.ahead := by
  have hkeep : t.upcoming = s.upcoming → Ended t.ahead :=
    fun heq => ahead_of_upcoming heq ▸ hs.ended
  cases h with
  | read => exact hs.ended_read ht
  | complain => exact hkeep (upcoming_complainAt ..)
  | landJump => exact hkeep (upcoming_landJump ..)
  | loopBack => exact hkeep (upcoming_loopBack ..)
  | pool => exact hkeep (upcoming_poolConstant ..)
  | _ => exact hkeep rfl

theorem Action.inOrder (h : Action s t) (hs : s.InOrder) (ht : t.IsQuiet) : t.InOrder := by
  refine ⟨h.sane hs.toSane ht, ?_⟩
  cases h with
  | edit h => exact h.ended hs ht
  | _ => exact hs.ended

/-- What ends the source stays its end. -/
theorem Actions.inOrder (h : Actions s t) (hs : s.InOrder) (ht : t.IsQuiet) : t.InOrder := by
  induction h with
  | refl => exact hs
  | tail _ act ih => exact act.inOrder (ih (act.isQuiet ht)) ht

theorem Edits.inOrder (h : Edits s t) (hs : s.InOrder) (ht : t.IsQuiet) : t.InOrder :=
  h.actions.inOrder hs ht

theorem InOrder.read (hs : s.InOrder) (hq : s.read.IsQuiet) : s.read.InOrder :=
  (Edit.read s).edits.inOrder hs hq

/-- A token that is needed is the first one. -/
theorem InOrder.ahead_require (hs : s.InOrder) {k : TokenKind} {what : Expected}
    (hq : (s.require k what).IsQuiet) (hk : k ≠ .endOfSource) :
    s.ahead = k :: (s.require k what).ahead := by
  obtain ⟨hsees, heq⟩ := require_eq hs.toSane hq
  have hkind := sees_iff.mp hsees
  rw [heq] at hq ⊢
  rw [hs.ahead_read hq (hkind ▸ hk), hkind]

end Order

end State

end ScriptEngine.Compile
