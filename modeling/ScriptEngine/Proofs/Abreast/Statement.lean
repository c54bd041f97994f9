import ScriptEngine.Proofs.Abreast.Expression
import ScriptEngine.Proofs.Compile.FunctionCode
set_option autoImplicit false

/-!
# Two compilations abreast: declarations and statements

Each form of declaration keeps two compilations abreast if its parts do.

Where the first source ends within a form, a part of it is missing and the source is wrong,
whatever the second side finds there.  Two forms ask for the end itself: a list of
declarations stops there, and the brace that has to follow it is then missed
(`BlockAbreast`); a `return` has no value there, which is why it may not be the last token.
-/

namespace ScriptEngine.Compile

open State

/-- The pass fails where the source is at its end. -/
def MissesEnd (f : Pass) : Prop :=
  ∀ s : State, (s.IsQuiet → s.isRecovering = false) → s.sees .endOfSource → ¬ (f s).IsQuiet

/-- The passes read declarations and keep two compilations abreast, unless the first one
stops at the end of its source and the second one does not. -/
structure BlockAbreast (σ : Latitude) (n : Nat) (f f' : Pass) : Prop where
  left : ∀ s, Actions s (f s)
  right : ∀ s, Actions s (f' s)
  keeps : ∀ {l : Ledger} {ls : List Ledger} {s s' : State}, σ.Abreast n (l :: ls) s s' →
    (σ.beyond ≠ [] → ¬ (f s).sees .endOfSource) → σ.Abreast n (l :: ls) (f s) (f' s')

section Statements

variable {σ : Latitude} {n : Nat} {l l' : Ledger} {ls : List Ledger} {s s' : State}
  {expression expression' declaration declaration' declarations declarations' : Pass}

namespace Latitude.Abreast

/-! ## Blocks and bodies -/

theorem blockForm (hd : BlockAbreast σ n declarations declarations')
    (h : σ.Abreast n (l :: ls) s s') :
    σ.Abreast n (l :: ls) (s.blockForm declarations) (s'.blockForm declarations') := by
  refine h.branch (actions_blockForm hd.left s) (actions_blockForm hd.right s') fun hr => ?_
  by_cases hend : σ.beyond ≠ [] ∧ (declarations s).sees .endOfSource
  · rintro (hstrict | ⟨hq, -⟩)
    · exact absurd (σ.alone hstrict) hend.1
    · have hmiss : (declarations s).sees .rightBrace = false := by
        have hkind : (declarations s).current.kind = .endOfSource := beq_iff_eq.mp hend.2
        rw [sees, hkind]
        rfl
      unfold State.blockForm State.require at hq
      rw [hmiss] at hq
      have hcalm := (hd.left s).calm hr.calm (isQuiet_of_complainAt hq)
      exact absurd hq (not_isQuiet_of_calm hcalm _ _)
  · exact (hd.keeps h (by tauto)).require (by simp) _

theorem expressionForm (he : EditsAbreast σ n expression expression')
    (h : σ.Abreast n (l :: ls) s s') :
    σ.Abreast n (l :: ls) (s.expressionForm expression) (s'.expressionForm expression') :=
  (he.keeps h).appendOp .pop rfl

/-! ## Variables and functions -/

theorem varForm (he : EditsAbreast σ n expression expression')
    (h : σ.Abreast n (l :: ls) s s') :
    σ.Abreast n (l :: ls) (s.varForm expression) (s'.varForm expression') := by
  have hdeclared := h.declareName .variableName
  have hrest : ∀ {expression : Pass} (_ : ∀ s, Edits s (expression s)) (c : Nat) (r : State),
      Actions r ((if r.sees .equal then expression r.read else r.appendOp .nil).bindName c) := by
    intro expression hedits c r
    split
    · exact (Edits.actions ((Edit.read r).edits.trans (hedits _))).trans (actions_bindName ..)
    · exact (edits_appendOp ..).actions.trans (actions_bindName ..)
  unfold State.varForm
  dsimp only
  refine hdeclared.branch (hrest he.left _ _) (hrest he.right _ _) fun hr => ?_
  rw [hr.sees_eq (by simp)]
  split
  · next hsees =>
    exact (he.keeps (hdeclared.read (.inl (not_sees_end_of_sees hsees (by simp))))).bindName
  · exact (hdeclared.appendOp .nil rfl).bindName

theorem parameter (h : σ.Abreast n (l :: ls) s s') :
    σ.Abreast n (l :: ls) s.parameter s'.parameter := by
  have hcounted : σ.Abreast n (l :: ls)
      (if s.tick.builder.arity = maxArguments then s.tick.complainNext .tooManyParameters
        else { s.tick with builder := { s.tick.builder with
          arity := s.tick.builder.arity + 1 } })
      (if s'.tick.builder.arity = maxArguments then s'.tick.complainNext .tooManyParameters
        else { s'.tick with builder := { s'.tick.builder with
          arity := s'.tick.builder.arity + 1 } }) := by
    have hacts : ∀ s : State, Actions s
        (if s.builder.arity = maxArguments then s.complainNext .tooManyParameters
          else { s with builder := { s.builder with arity := s.builder.arity + 1 } }) := by
      intro s
      split
      · exact (edits_complainNext ..).actions
      · exact (Action.setArity ..).actions
    refine h.tick.branch (hacts s.tick) (hacts s'.tick) fun hr => ?_
    have hb := hr.builder
    rw [hb.arity]
    split
    · exact h.tick.complainNext _
    · have hrelates : l.Relates (σ.matching s.nextId)
          { s.tick.builder with arity := s.tick.builder.arity + 1 }
          { s'.tick.builder with arity := s.tick.builder.arity + 1 } :=
        ⟨hb.name, rfl, hb.locals, hb.depth, hb.depth', hb.captures, hb.returns, hb.chunk⟩
      exact fun _ => hr.withBuilder hrelates rfl rfl s.tick.work s'.tick.work s.defects s'.defects
  exact (hcounted.declareName .parameterName).bindName

theorem parameters {limit limit' : Nat} (hlimit : n + 1 ≤ limit) (hle : limit ≤ limit')
    (h : σ.Abreast n (l :: ls) s s') :
    σ.Abreast n (l :: ls) (s.parameters limit) (s'.parameters limit') := by
  induction limit generalizing limit' n s s' with
  | zero => omega
  | succ limit ih =>
    obtain ⟨limit', rfl⟩ : ∃ k, limit' = k + 1 := ⟨limit' - 1, by omega⟩
    have hfirst := h.parameter
    have hrest : ∀ (limit : Nat) (r : State),
        Actions r (if r.sees .comma then r.read.parameters limit else r) := by
      intro limit r
      split
      · exact (Edit.read r).edits.actions.trans (actions_parameters ..)
      · exact .refl
    unfold State.parameters
    dsimp only
    refine hfirst.branch (hrest _ _) (hrest _ _) fun hr => ?_
    rw [hr.sees_eq (by simp)]
    split
    · next hsees =>
      have hnoEnd := not_sees_end_of_sees hsees (by simp)
      have hpos : 0 < n := Nat.lt_of_lt_of_le (Nat.zero_lt_of_lt (left_read_lt hnoEnd)) hr.left
      exact (ih (by omega) (by omega) (hfirst.read_lt hnoEnd)).weaken (Nat.sub_le n 1)
    · exact hfirst

theorem parameterList (h : σ.Abreast n (l :: ls) s s') :
    σ.Abreast n (l :: ls) s.parameterList s'.parameterList := by
  have hopened := h.require (k := .leftParen) (by simp) .openingOfParameters
  have hrest : ∀ r : State,
      Actions r ((if r.sees .rightParen then r else r.parameters (r.rest.length + 2)).require
        .rightParen .closingOfParameters) := by
    intro r
    split
    · exact (edits_require ..).actions
    · exact (actions_parameters ..).trans (edits_require ..).actions
  unfold State.parameterList
  dsimp only
  refine hopened.branch (hrest _) (hrest _) fun hr => ?_
  rw [hr.sees_eq (by simp)]
  split
  · exact hopened.require (by simp) _
  · have hle := hr.rest_le
    have hlimit : (s.require .leftParen .openingOfParameters).left + 1 ≤
        (s.require .leftParen .openingOfParameters).rest.length + 2 := by
      unfold State.left
      split <;> omega
    exact ((hopened.exactly.parameters hlimit (by omega)).weaken hr.left).require (by simp) _

/-! ### Functions -/

/-- A function is begun on both sides, with nothing written. -/
theorem enterFunction (h : σ.Abreast n (l :: ls) s s') {name name' : String}
    (hname : name' = name) :
    σ.Abreast n ({} :: l :: ls) (s.enterFunction name) (s'.enterFunction name') := fun hc => by
  have hr := h hc
  subst hname
  have hstart : ({} : Ledger).Relates (σ.matching s.nextId) (.start (some name'))
      (.start (some name')) :=
    ⟨rfl, rfl, rfl, rfl, rfl, rfl, Iff.rfl, Ledger.relatesChunks_empty _⟩
  exact { hr with
    builders := .cons hstart hr.builders
    plain := fun hstrict => List.forall_mem_cons.mpr ⟨⟨rfl, rfl⟩, hr.plain hstrict⟩ }

theorem returnNil (h : σ.Abreast n (l :: ls) s s') :
    σ.Abreast n (l :: ls) s.returnNil s'.returnNil := by
  refine h.branch (edits_returnNil s).actions (edits_returnNil s').actions fun hr => ?_
  have hreturns := hr.builder.returns
  unfold State.returnNil
  by_cases hreturned : s.builder.lastOp = some .return
  · rw [if_pos hreturned, if_pos (hreturns.mpr hreturned)]
    exact h
  · rw [if_neg hreturned, if_neg (mt hreturns.mp hreturned)]
    exact (h.appendOp .nil rfl).appendOp .return rfl

end Latitude.Abreast

/-- The functions that both sides have finished match, whatever identities they are given. -/
theorem Latitude.Corresponds.finish_as (h : σ.Corresponds n (l :: ls) s s') (hcode : l.code = [])
    (hpool : l.pool = []) {M : Matching} (hM : (σ.matching s.nextId).Grows M) {a b : Identity}
    (hab : M.ids a b) : (s.builder.finish a).Matches M (s'.builder.finish b) := by
  have hb := h.builder.mono hM
  obtain ⟨is, his, his', -⟩ := hb.chunk.code
  obtain ⟨older, newer, hlines, hnone, hmatched⟩ := hb.chunk.lines
  obtain ⟨pool, hconstants, hvalues⟩ := hb.chunk.constants
  rw [hcode, hpool] at his'
  rw [hpool, List.nil_append] at hconstants
  rw [hcode] at hnone
  refine .function hab hb.name.symm hb.arity.symm ?_ ?_ ?_ ?_ ?_
  · exact congrArg List.length hb.captures.symm
  · apply Array.toList_inj.mp
    show s.builder.chunk.code.toList = s'.builder.chunk.code.toList
    rw [his, his', List.nil_append]
    congr 1
    exact (List.map_id'' Item.shift_zero is).symm
  · show List.Forall₂ _ s.builder.chunk.lines.toList s'.builder.chunk.lines.toList
    rw [hlines, List.length_eq_zero_iff.mp hnone]
    exact hmatched
  · show s.builder.chunk.constants.size = s'.builder.chunk.constants.size
    rw [← Array.length_toList, ← Array.length_toList, hconstants]
    exact hvalues.length_eq
  · intro i v w hv hw
    have hv' : s.builder.chunk.constants.toList[i]? = some v := by
      rw [Array.getElem?_toList]
      exact hv
    have hw' : pool[i]? = some w := by
      rw [← hconstants, Array.getElem?_toList]
      exact hw
    obtain ⟨hi, rfl⟩ := List.getElem?_eq_some_iff.mp hv'
    obtain ⟨hi', rfl⟩ := List.getElem?_eq_some_iff.mp hw'
    exact hvalues.get hi hi'

/-- The functions that both sides have finished match. -/
theorem Latitude.Corresponds.finish (h : σ.Corresponds n (l :: ls) s s') (hcode : l.code = [])
    (hpool : l.pool = []) :
    (s.builder.finish s.nextId).Matches (σ.matching (s.nextId + 1))
      (s'.builder.finish s'.nextId) :=
  h.finish_as hcode hpool (σ.matching_grows (Nat.le_succ s.nextId))
    ⟨Nat.lt_succ_self _, h.nextId⟩

/-- Both sides go back to the function around the one that they have finished. -/
theorem Latitude.Corresponds.leaveFinished (h : σ.Corresponds n (l :: l' :: ls) s s') :
    σ.Corresponds n (l' :: ls) s.leaveFinished s'.leaveFinished := by
  have haround := h.around.mono (σ.matching_grows (Nat.le_succ s.nextId))
  obtain ⟨k, hk, hk'⟩ := h.nextId
  have hbuilders : Ledger.RelatesAll (σ.matching (s.nextId + 1)) (l' :: ls)
      (s.around.headD {} :: s.around.tail) (s'.around.headD {} :: s'.around.tail) := by
    generalize s.around = bs, s'.around = bs' at haround
    cases haround with
    | cons head tail => exact .cons head tail
  exact { h with
    nextId := ⟨k + 1, congrArg (· + 1) hk, congrArg (· + 1) hk'⟩
    builders := hbuilders
    plain := fun hstrict => (List.forall_mem_cons.mp (h.plain hstrict)).2 }

/-- What the list of captures adds to the code. -/
theorem State.appendCaptures_eq (s : State) (captures : List Capture) :
    ∃ defects, s.appendCaptures captures = s.withBuilder
      { s.builder with chunk := { s.builder.chunk with
        code := s.builder.chunk.code ++ (captureBytes captures).toArray
        lines := s.builder.chunk.lines ++
          (List.replicate (captureBytes captures).length s.previous.line).toArray } }
      s.work defects := by
  induction captures generalizing s with
  | nil =>
    refine ⟨s.defects, ?_⟩
    have hnone : captureBytes [] = [] := rfl
    simp only [hnone, List.length_nil, List.replicate_zero, Array.append_empty]
    rfl
  | cons c captures ih =>
    obtain ⟨defects, hd⟩ := guarantee_eq (s.appendByte (if c.isLocal then 1 else 0))
      (c.index < byteRange) .byteOverflow
    obtain ⟨defects', h⟩ := ih ((s.appendByte (if c.isLocal then 1 else 0)).appendNumber c.index)
    refine ⟨defects', h.trans ?_⟩
    have hcode : ((s.appendByte (if c.isLocal then 1 else 0)).appendNumber c.index) =
        s.withBuilder { s.builder with chunk := { s.builder.chunk with
          code := (s.builder.chunk.code.push (if c.isLocal then 1 else 0)).push c.index.toUInt8
          lines := (s.builder.chunk.lines.push s.previous.line).push s.previous.line } }
          s.work defects := by
      unfold appendNumber
      rw [hd]
      rfl
    have hpush : ∀ {α : Type} (xs : Array α) (a b : α) (as : List α),
        xs ++ (a :: b :: as).toArray = (xs.push a).push b ++ as.toArray := by
      intro α xs a b as
      apply Array.ext'
      simp
    have hbytes : captureBytes (c :: captures) =
        (if c.isLocal then 1 else 0) :: c.index.toUInt8 :: captureBytes captures := rfl
    rw [hcode, hbytes, List.length_cons, List.length_cons, List.replicate_succ,
      List.replicate_succ, hpush, hpush]
    rfl

/-- A constant that there is room for stands where its index says. -/
theorem State.getElem_poolConstant (s : State) (v : Value)
    (hroom : (s.poolConstant v).2.builder.chunk.constants.size ≤ byteRange) :
    (s.poolConstant v).2.builder.chunk.constants[(s.poolConstant v).1.toUInt8.toNat]? =
      some v := by
  have hbuilder : (s.poolConstant v).2.builder.chunk.constants =
      s.builder.chunk.constants.push v := by
    unfold poolConstant Chunk.pushConstant
    dsimp only
    split
    · rfl
    · unfold complain complainAt
      split <;> rfl
  rw [hbuilder, Array.size_push] at hroom
  have hlt : s.builder.chunk.constants.size < byteRange := hroom
  have hindex : (s.poolConstant v).1 = s.builder.chunk.constants.size := by
    unfold poolConstant Chunk.pushConstant
    dsimp only
    rw [if_pos hlt]
  have hbyte : s.builder.chunk.constants.size.toUInt8.toNat = s.builder.chunk.constants.size :=
    Nat.mod_eq_of_lt hlt
  rw [hbuilder, hindex, hbyte, Array.getElem?_push_size]

namespace Latitude.Abreast

/-- A closure is made on both sides, of the function whose constant was pinned. -/
theorem appendClosure (h : σ.Abreast n (l :: ls) s s') {c c' : Nat}
    (hc : .place (.global c) (.global c') ∈ l.pins) (captures : List Capture)
    (hf : s.builder.chunk.constants.size ≤ byteRange → ∃ f,
      s.builder.chunk.constants[c.toUInt8.toNat]? = some (.function f) ∧
        captures.length = f.captureCount) :
    σ.Abreast n (l :: ls) ((s.appendWith .closure c).appendCaptures captures)
      ((s'.appendWith .closure c').appendCaptures captures) := by
  have hacts : ∀ (s : State) (c : Nat),
      Actions s ((s.appendWith .closure c).appendCaptures captures) := fun s c =>
    Edits.actions ((edits_appendWith ..).trans (edits_appendCaptures ..))
  refine h.branch (hacts s c) (hacts s' c') fun hr _ => ?_
  obtain ⟨_, hplace⟩ := hr.holds hc
  have hindex : c' = c + l.pool.length := Place.global.inj hplace
  have hoperand : c'.toUInt8 = c.toUInt8 + l.pool.length.toUInt8 := by
    rw [hindex]
    exact UInt8.ofNat_add ..
  obtain ⟨_, hwith⟩ := s.appendWith_eq .closure c
  obtain ⟨_, hwith'⟩ := s'.appendWith_eq .closure c'
  obtain ⟨_, heq⟩ := (s.appendWith .closure c).appendCaptures_eq captures
  obtain ⟨_, heq'⟩ := (s'.appendWith .closure c').appendCaptures_eq captures
  rw [heq, heq', hwith, hwith']
  refine hr.withCode (hr.builder.chunk.appendClosure hoperand (fun hroom => ?_)
    hr.previous.line) Iff.rfl s.work s'.work _ _
  obtain ⟨f, hpooled, hlen⟩ := hf hroom
  exact ⟨f, hpooled, by rw [length_captureBytes, hlen]⟩

theorem closureCode (h : σ.Abreast n (l :: ls) s s') {f f' : Function Value}
    (hf : σ.Corresponds n (l :: ls) s s' → f.Matches (σ.matching s.nextId) f')
    {captures : List Capture} (hlen : captures.length = f.captureCount) :
    σ.Abreast n (l :: ls) (s.closureCode f captures) (s'.closureCode f' captures) :=
  ((h.poolConstant hf).appendClosure List.mem_cons_self captures fun hroom =>
    ⟨f, s.getElem_poolConstant _ hroom, hlen⟩).unpin

theorem functionForm (hd : BlockAbreast σ n declarations declarations')
    (h : σ.Abreast n (l :: ls) s s') :
    σ.Abreast n (l :: ls) (s.functionForm declarations) (s'.functionForm declarations') := by
  refine h.branch (actions_functionForm hd.left s) (actions_functionForm hd.right s') fun hr => ?_
  have hprologue : σ.Abreast n ({ depth := 1 } :: l :: ls) s.prologue s'.prologue :=
    ((h.enterFunction hr.previous.lexeme).openScope.parameterList).require (by simp) _
  have hbody : σ.Abreast n ({ depth := 1 } :: l :: ls) (s.prologue.body declarations)
      (s'.prologue.body declarations') :=
    (hprologue.checkpoint.blockForm hd).returnNil
  rw [functionForm_eq, functionForm_eq]
  refine hbody.after isQuiet_of_closureCode isQuiet_of_closureCode fun hr => ?_
  rw [hr.builder.captures]
  have hleft : σ.Abreast n (l :: ls) (s.prologue.body declarations).leaveFinished
    (s'.prologue.body declarations').leaveFinished := fun _ => hr.leaveFinished
  exact hleft.closureCode (fun _ => hr.finish rfl rfl) rfl

theorem fnForm (hd : BlockAbreast σ n declarations declarations')
    (h : σ.Abreast n (l :: ls) s s') :
    σ.Abreast n (l :: ls) (s.fnForm declarations) (s'.fnForm declarations') :=
  ((h.declareName .functionName).makeReadable.functionForm hd).bindName

/-! ## Branches -/

theorem alternative (hd : PassAbreast σ n declaration declaration')
    (h : σ.Abreast n (l :: ls) s s') :
    σ.Abreast n (l :: ls) (s.alternative declaration) (s'.alternative declaration') := by
  refine h.branch (actions_alternative hd.left s) (actions_alternative hd.right s') fun hr => ?_
  unfold State.alternative
  rw [hr.sees_eq (by simp)]
  split
  · next hsees => exact (h.read (.inl (not_sees_end_of_sees hsees (by simp)))).inScope hd
  · exact h

theorem ifForm (he : EditsAbreast σ n expression expression')
    (hd : PassAbreast σ n declaration declaration') (h : σ.Abreast n (l :: ls) s s') :
    σ.Abreast n (l :: ls) (s.ifForm expression declaration)
      (s'.ifForm expression' declaration') := by
  have hthen := (((he.keeps h).openJump .jumpIfFalse (by decide) rfl).appendOp .pop rfl).inScope hd
  have helse := hthen.openJump .jump (by decide) rfl
  have hlanded := (helse.landJump (List.mem_cons_of_mem _ List.mem_cons_self)).appendOp .pop rfl
  exact ((hlanded.alternative hd).landJump List.mem_cons_self).unpin.unpin

/-! ## Loops -/

theorem whileForm (he : EditsAbreast σ n expression expression')
    (hd : PassAbreast σ n declaration declaration') (h : σ.Abreast n (l :: ls) s s') :
    σ.Abreast n (l :: ls) (s.whileForm expression declaration)
      (s'.whileForm expression' declaration') := by
  have hbody := (((he.keeps h.pinOffset).openJump .jumpIfFalse (by decide) rfl).appendOp
    .pop rfl).inScope hd
  have hback := hbody.loopBack (List.mem_cons_of_mem _ List.mem_cons_self)
  exact ((hback.landJump List.mem_cons_self).appendOp .pop rfl).unpin.unpin

theorem loopInitializer (he : EditsAbreast σ n expression expression')
    (hmiss : MissesEnd expression) (h : σ.Abreast n (l :: ls) s s') :
    σ.Abreast n (l :: ls) (s.loopInitializer expression) (s'.loopInitializer expression') := by
  refine h.branch (actions_loopInitializer he.left s) (actions_loopInitializer he.right s')
    fun hr => ?_
  rcases hr.current with hmatch | ⟨hmore, hend, -⟩
  · have hsees : ∀ k, s'.sees k = s.sees k := fun k => by
      unfold sees
      rw [hmatch.kind]
    unfold State.loopInitializer
    rw [hsees, hsees]
    split
    · next hcomma => exact h.read (.inl (not_sees_end_of_sees hcomma (by simp)))
    · dsimp only
      split
      · next hvar =>
        have hread := h.read (.inl (not_sees_end_of_sees hvar (by simp)))
        exact (hread.varForm he).checkpoint.require (by simp) _
      · exact (h.expressionForm he).require (by simp) _
  · rintro (hstrict | ⟨hq, -⟩)
    · exact absurd (σ.alone hstrict) hmore
    · have hsees : ∀ k, k ≠ .endOfSource → s.sees k = false := fun k hk => by
        rw [sees, hend]
        exact beq_eq_false_iff_ne.mpr hk.symm
      unfold State.loopInitializer at hq
      rw [hsees .comma (by simp), hsees .varWord (by simp)] at hq
      have hvalue := (edits_appendOp ..).isQuiet ((edits_require ..).isQuiet hq)
      exact absurd hvalue (hmiss s hr.calm (beq_iff_eq.mpr hend))

/-- The increment of a loop, behind which both sides know where the loop goes back to. -/
theorem loopIncrement (he : EditsAbreast σ n expression expression')
    (hmiss : MissesEnd expression) {o o' : Nat} (ho : .offset o o' ∈ l.pins)
    (h : σ.Abreast n (l :: ls) s s') :
    σ.Abreast n (l.pin (.offset (s.loopIncrement expression o).1
        (s'.loopIncrement expression' o').1) :: ls)
      (s.loopIncrement expression o).2 (s'.loopIncrement expression' o').2 := by
  refine h.branch (edits_loopIncrement he.left o s).actions
    (edits_loopIncrement he.right o' s').actions fun hr => ?_
  have hstart : σ.Abreast n (l.pin (.offset o o') :: ls) s s' :=
    h.pin fun _ _ _ => (hr.holds ho).choose_spec
  rcases hr.current with hmatch | ⟨hmore, hend, -⟩
  · have hsees : ∀ k, s'.sees k = s.sees k := fun k => by
      unfold sees
      rw [hmatch.kind]
    unfold State.loopIncrement
    rw [hsees, hsees]
    split
    · next hcomma => exact hstart.read (.inl (not_sees_end_of_sees hcomma (by simp)))
    · split
      · exact hstart
      · have hjump := (h.openJump .jump (by decide) rfl).pinOffset
        have hback := ((he.keeps hjump).appendOp .pop rfl).loopBack
          (List.mem_cons_of_mem _ (List.mem_cons_of_mem _ ho))
        exact (hback.landJump (List.mem_cons_of_mem _ List.mem_cons_self)).repin
          (List.cons_subset_cons _ (List.subset_cons_self _ _))
  · rintro (hstrict | ⟨hq, -⟩)
    · exact absurd (σ.alone hstrict) hmore
    · have hsees : ∀ k, k ≠ .endOfSource → s.sees k = false := fun k hk => by
        rw [sees, hend]
        exact beq_eq_false_iff_ne.mpr hk.symm
      unfold State.loopIncrement at hq
      rw [hsees .comma (by simp), hsees .leftBrace (by simp)] at hq
      have hback := (Edit.landJump _ _).edits.isQuiet hq
      have hvalue := (edits_appendOp ..).isQuiet ((Edit.loopBack _ _).edits.isQuiet hback)
      exact absurd hvalue (hmiss (s.openJump .jump).2 hr.calm (beq_iff_eq.mpr hend))

/-- The rounds of a loop whose condition has been read. -/
theorem roundsBehind (he : EditsAbreast σ n expression expression')
    (hmiss : MissesEnd expression) (hd : PassAbreast σ n declaration declaration') {o o' : Nat}
    (ho : .offset o o' ∈ l.pins) (h : σ.Abreast n (l :: ls) s s') :
    σ.Abreast n (l :: ls)
      (((s.loopIncrement expression o).2.inScope declaration).loopBack
        (s.loopIncrement expression o).1)
      (((s'.loopIncrement expression' o').2.inScope declaration').loopBack
        (s'.loopIncrement expression' o').1) :=
  (((h.loopIncrement he hmiss ho).inScope hd).loopBack List.mem_cons_self).unpin

theorem rounds (he : EditsAbreast σ n expression expression')
    (hmiss : MissesEnd expression) (hd : PassAbreast σ n declaration declaration')
    (h : σ.Abreast n (l :: ls) s s') :
    σ.Abreast n (l :: ls) (s.rounds expression declaration)
      (s'.rounds expression' declaration') := by
  refine h.branch (actions_rounds he.left hd.left s) (actions_rounds he.right hd.right s')
    fun hr => ?_
  have hsees : s'.sees .comma = s.sees .comma := hr.sees_eq (by simp)
  by_cases hcomma : s.sees .comma = true
  · have hread := h.pinOffset.read (.inl (not_sees_end_of_sees hcomma (by simp)))
    have hnone := (hread.roundsBehind he hmiss hd List.mem_cons_self).unpin
    unfold State.rounds turns loopCondition
    rw [hsees, hcomma]
    exact hnone
  · rw [Bool.not_eq_true] at hcomma
    have hjump := ((he.keeps h.pinOffset).require (k := .comma) (by simp)
      .commaAfterCondition).openJump .jumpIfFalse (by decide) rfl
    have hturns := (hjump.appendOp .pop rfl).roundsBehind he hmiss hd
      (List.mem_cons_of_mem _ List.mem_cons_self)
    have hsome := ((hturns.landJump List.mem_cons_self).appendOp .pop rfl).unpin.unpin
    unfold State.rounds turns loopCondition
    rw [hsees, hcomma]
    exact hsome

theorem countedLoop (he : EditsAbreast σ n expression expression')
    (hmiss : MissesEnd expression) (hd : PassAbreast σ n declaration declaration')
    (h : σ.Abreast n (l :: ls) s s') :
    σ.Abreast n (l :: ls) (s.countedLoop expression declaration)
      (s'.countedLoop expression' declaration') := by
  rw [countedLoop_eq, countedLoop_eq]
  exact (h.loopInitializer he hmiss).rounds he hmiss hd

/-! ## Return -/

/-- A `return` is not the last token of the first source, unless both sources end there. -/
theorem returnForm (he : EditsAbreast σ n expression expression')
    (hword : s.previous.kind = .returnWord) (h : σ.Abreast n (l :: ls) s s') :
    σ.Abreast n (l :: ls) (s.returnForm expression) (s'.returnForm expression') := by
  refine h.branch (edits_returnForm he.left s).actions (edits_returnForm he.right s').actions
    fun hr => ?_
  have hmatch := hr.current.resolve_right fun hmore => hmore.2.2.2.2 hword
  have hsees : ∀ k, s'.sees k = s.sees k := fun k => by
    unfold sees
    rw [hmatch.kind]
  unfold State.returnForm
  rw [hsees, hsees]
  split
  · exact (h.appendOp .nil rfl).appendOp .return rfl
  · exact (he.keeps h).appendOp .return rfl

/-! ## All forms -/

/-- A form that starts with a keyword has one token less for its parts. -/
theorem anyForm (he : EditsAbreast σ n expression expression') (hmiss : MissesEnd expression)
    (hparts : 0 < n → EditsAbreast σ (n - 1) expression expression' ∧
      PassAbreast σ (n - 1) declaration declaration' ∧
      BlockAbreast σ (n - 1) declarations declarations')
    (hleft : ∀ s, Actions s (s.anyForm expression declaration declarations))
    (hright : ∀ s, Actions s (s.anyForm expression' declaration' declarations'))
    (h : σ.Abreast n (l :: ls) s s') :
    σ.Abreast n (l :: ls) (s.anyForm expression declaration declarations)
      (s'.anyForm expression' declaration' declarations') := by
  refine h.branch (hleft s) (hright s') fun hr => ?_
  rcases hr.current with hmatch | ⟨hmore, hend, -⟩
  · have hread : ∀ k, k ≠ .endOfSource → s.current.kind = k →
        0 < n ∧ σ.Abreast (n - 1) (l :: ls) s.read s'.read := fun k hk hkind => by
      have hnoEnd := not_sees_end_of_sees (beq_iff_eq.mpr hkind) hk
      exact ⟨Nat.lt_of_lt_of_le (Nat.zero_lt_of_lt (left_read_lt hnoEnd)) hr.left,
        h.read_lt hnoEnd⟩
    have hback := fun {ls t t'} (ht : σ.Abreast (n - 1) ls t t') => ht.weaken (Nat.sub_le n 1)
    unfold State.anyForm
    rw [hmatch.kind]
    split
    · next hkind =>
      obtain ⟨hpos, hfirst⟩ := hread _ (by simp) hkind
      exact hback (hfirst.varForm (hparts hpos).1)
    · next hkind =>
      obtain ⟨hpos, hfirst⟩ := hread _ (by simp) hkind
      exact hback (hfirst.fnForm (hparts hpos).2.2)
    · next hkind =>
      obtain ⟨hpos, hfirst⟩ := hread _ (by simp) hkind
      exact hback (hfirst.ifForm (hparts hpos).1 (hparts hpos).2.1)
    · next hkind =>
      obtain ⟨hpos, hfirst⟩ := hread _ (by simp) hkind
      exact hback (hfirst.whileForm (hparts hpos).1 (hparts hpos).2.1)
    · next hkind =>
      obtain ⟨hpos, hfirst⟩ := hread _ (by simp) hkind
      obtain ⟨he₁, hd, -⟩ := hparts hpos
      have hloop : PassAbreast σ (n - 1) (State.countedLoop expression declaration)
          (State.countedLoop expression' declaration') :=
        ⟨actions_countedLoop he₁.left hd.left, actions_countedLoop he₁.right hd.right,
          fun h => h.countedLoop he₁ hmiss hd⟩
      exact hback (hfirst.inScope hloop)
    · next hkind =>
      obtain ⟨hpos, hfirst⟩ := hread _ (by simp) hkind
      have hds := (hparts hpos).2.2
      have hblock : PassAbreast σ (n - 1) (State.blockForm declarations)
          (State.blockForm declarations') :=
        ⟨actions_blockForm hds.left, actions_blockForm hds.right, fun h => h.blockForm hds⟩
      exact hback (hfirst.inScope hblock)
    · next hkind =>
      obtain ⟨hpos, hfirst⟩ := hread _ (by simp) hkind
      exact hback (hfirst.returnForm (hparts hpos).1 hkind)
    · exact h.expressionForm he
  · rintro (hstrict | ⟨hq, -⟩)
    · exact absurd (σ.alone hstrict) hmore
    · unfold State.anyForm at hq
      rw [hend] at hq
      have hvalue : (expression s).IsQuiet := (edits_appendOp _ .pop).isQuiet hq
      exact absurd hvalue (hmiss s hr.calm (beq_iff_eq.mpr hend))

end Latitude.Abreast

end Statements

end ScriptEngine.Compile
