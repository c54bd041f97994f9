import ScriptEngine.Proofs.Compile.Ladder
import ScriptEngine.Proofs.Loops.Emitting
set_option autoImplicit false

/-!
# Compiling expressions to pieces

What is written for an expression is the code of its piece (`partEmits`).  The induction is over a
rendering of the expression, from which it is only used that names are not empty.
-/

namespace ScriptEngine.Compile

open State ScriptEngine.Tree

/-- The pass takes no diagnostic back, and writes a piece where the names in scope suit. -/
structure PassEmits (ν : Naming) (p : Piece) (f : Pass) : Prop where
  quiet : ∀ s, (f s).IsQuiet → s.IsQuiet
  emits : ∀ s, s.InOrder → Suits ν s → (f s).IsQuiet → (f s).InOrder ∧ Emits p s (f s)

section Passes

variable {ν : Naming} {p q : Piece} {f g : Pass} {s t : State} {x : String}

theorem PassEmits.comp (hf : PassEmits ν p f) (hdeclared : p.declared = [])
    (hg : PassEmits ν q g) : PassEmits ν (p ++ q) fun s => g (f s) where
  quiet s hq := hf.quiet s (hg.quiet _ hq)
  emits s hs hν hq := by
    obtain ⟨ht, hfirst⟩ := hf.emits s hs hν (hg.quiet _ hq)
    have hν' := hfirst.suits hν
    rw [hdeclared] at hν'
    obtain ⟨hu, hsecond⟩ := hg.emits _ ht hν' hq
    exact ⟨hu, hfirst.append hsecond⟩

theorem passEmits_of_edits (hf : ∀ s, Edits s (f s))
    (h : ∀ s : State, s.InOrder → Suits ν s → (f s).IsQuiet → Emits p s (f s)) :
    PassEmits ν p f where
  quiet s hq := (hf s).isQuiet hq
  emits s hs hν hq := ⟨(hf s).inOrder hs hq, h s hs hν hq⟩

theorem passEmits_appendOp {op : Opcode} (hop : op.isDirect = true) (hcount : op.operandBytes = 0) :
    PassEmits ν (.ops [op]) fun s => s.appendOp op :=
  passEmits_of_edits (fun s => edits_appendOp s op) fun s _ _ _ => emits_appendOp s hop hcount

/-! ## Literals -/

/-- A constant gets a number that fits in a byte. -/
theorem emits_poolConstant (hs : s.Sane) {v : Value} (hq : (s.poolConstant v).2.IsQuiet) :
    Emits {} s (s.poolConstant v).2 ∧
      (s.poolConstant v).2.builder.chunk.constants[(s.poolConstant v).1.toUInt8.toNat]? =
        some v := by
  obtain ⟨hlt, heq⟩ := poolConstant_eq hs hq
  have hgains := gains_poolConstant hs hq
  rw [heq] at hgains ⊢
  refine ⟨⟨hgains, rfl, [], ⟨(List.append_nil _).symm, ?_, .inl⟩, .nil⟩, ?_⟩
  · exact fun k v hv => getElem_push_of_some hv _
  · rw [toNat_toUInt8 hlt]
    exact Array.getElem?_push_size

/-- An instruction with a constant. -/
theorem emits_pooled (hs : s.Sane) {op : Opcode} (hop : op.isPooled = true) {v : Value}
    (hv : v.isLiteral = true) (hq : (s.poolConstant v).2.IsQuiet) :
    Emits { flow := .pooled op v } s
      ((s.poolConstant v).2.appendWith op (s.poolConstant v).1) := by
  obtain ⟨hpooled, hconstant⟩ := emits_poolConstant hs hq
  have hne : op ≠ .return := by
    rintro rfl
    cases hop
  exact (emits_appendWith hne (.pooled hop hv hconstant) fun _ => rfl).after hpooled

theorem passEmits_pushLiteral {v : Value} (hv : v.isLiteral = true) :
    PassEmits ν { flow := .pooled .constant v } fun s => s.pushLiteral v := by
  have hnone : ∀ f, v ≠ .function f := by
    rintro f rfl
    cases hv
  exact passEmits_of_edits (edits_pushLiteral hnone) fun _ hs _ hq =>
    emits_pooled hs.toSane rfl hv ((edits_appendWith ..).isQuiet hq)

theorem passEmits_literal (l : Literal) : PassEmits ν { flow := l.flow } l.write := by
  cases l with
  | number digits =>
    have hflow : (Literal.number digits).flow =
      .pooled .constant (.number (((Decimal.ofText? digits).map Decimal.toFloat).getD 0)) := rfl
    rw [hflow]
    cases hdigits : Decimal.ofText? digits with
    | some d =>
      have hwrite : (Literal.number digits).write = fun s => s.pushLiteral (.number d.toFloat) := by
        funext s
        rw [Literal.write, hdigits]
      rw [hwrite]
      exact passEmits_pushLiteral rfl
    | none =>
      have hwrite : (Literal.number digits).write = fun s => s.complain .notANumber := by
        funext s
        rw [Literal.write, hdigits]
      rw [hwrite]
      exact passEmits_of_edits (fun s => edits_complain ..) fun s hs _ hq =>
        absurd hq (not_isQuiet_complain hs.toSane _)
  | string text => exact passEmits_pushLiteral rfl
  | boolean b => cases b <;> exact passEmits_appendOp rfl rfl
  | nil => exact passEmits_appendOp rfl rfl

/-! ## Names -/

/-- Capturing a variable keeps the compiler in order. -/
theorem inOrder_captured (hs : s.InOrder) (hx : x ≠ "") {found : Captured}
    (hfound : captureFrom x s.builder s.around = some found) :
    InOrder { s with builder := found.inner, around := found.around } := by
  have hnamed : Sane { s with previous := ⟨.identifier, x, 1⟩ } := by
    refine ⟨hs.quiet, hs.calm, fun t ht hkind => ?_, hs.roomy, hs.linked, hs.known, hs.closed⟩
    rcases List.mem_cons.mp ht with rfl | ht
    · exact hx
    · exact hs.named t (List.mem_cons_of_mem _ ht) hkind
  have h := (Edit.capture { s with previous := ⟨.identifier, x, 1⟩ } found rfl hfound).sane hnamed
    hs.quiet
  exact ⟨⟨h.quiet, h.calm, hs.named, h.roomy, h.linked, h.known, h.closed⟩, hs.ended⟩

/-- What a place stands for is read and written by its instructions. -/
def Accesses (a : Access) (place : Place) (s : State) : Prop :=
  a.get.IsCode s.builder.chunk.constants s.around.length (homesOf (s.builder :: s.around))
      [place.getOp.toByte, place.operand.toUInt8] ∧
    a.set.IsCode s.builder.chunk.constants s.around.length (homesOf (s.builder :: s.around))
      [place.setOp.toByte, place.operand.toUInt8]

/-- A name is looked up. -/
theorem emits_resolve (hs : s.InOrder) (hν : Suits ν s) (hx : x ≠ "")
    (hq : (s.resolve x).2.IsQuiet) :
    (s.resolve x).2.InOrder ∧ Emits { homes := (ν.access x).homes } s (s.resolve x).2 ∧
      Accesses (ν.access x) (s.resolve x).1 (s.resolve x).2 := by
  have hposition : position? x ν.names = (slotOf? x s.builder.locals).map Prod.fst := by
    rw [← hν.names, position_map_name]
  have hhome : captureFrom x s.builder s.around = none ↔ homeIn? x (localNames s.around) = none :=
    captureFrom_eq_none_iff
  rw [hν.around] at hhome
  cases hslot : slotOf? x s.builder.locals with
  | some place =>
    obtain ⟨slot, l⟩ := place
    obtain ⟨-, heq⟩ := resolve_slot hs.toSane hslot hq
    have haccess : ν.access x = .slot slot := by
      unfold Naming.access
      rw [hposition, hslot]
      rfl
    have hfits : slot < byteRange :=
      Nat.lt_of_lt_of_le (slotOf_lt hslot) (hs.roomy _ List.mem_cons_self).locals
    rw [heq, haccess]
    simp only [Accesses, Access.get, Access.set, numbered, if_pos hfits]
    exact ⟨hs, emits_refl s, .direct rfl rfl, .direct rfl rfl⟩
  | none =>
    cases hfound : captureFrom x s.builder s.around with
    | none =>
      have haccess : ν.access x = .global x := by
        unfold Naming.access
        rw [hposition, hslot, hhome.mp hfound]
        rfl
      have heq : s.resolve x =
          (.global (s.poolConstant (.string x)).1, (s.poolConstant (.string x)).2) := by
        unfold resolve resolveAround
        rw [hslot, hfound]
        rfl
      rw [heq] at hq ⊢
      rw [haccess]
      obtain ⟨hpooled, hconstant⟩ := emits_poolConstant hs.toSane hq
      exact ⟨(edits_poolConstant (v := .string x) nofun s).inOrder hs hq, hpooled,
        .pooled rfl rfl hconstant, .pooled rfl rfl hconstant⟩
    | some found =>
      obtain ⟨h, hh⟩ := Option.ne_none_iff_exists'.mp fun hnone => by
        rw [hhome.mpr hnone] at hfound
        cases hfound
      have haccess : ν.access x = .captured h := by
        unfold Naming.access
        rw [hposition, hslot, hh]
        rfl
      unfold resolve resolveAround at hq ⊢
      rw [hslot, hfound] at hq ⊢
      dsimp only [Option.map_some] at hq ⊢
      have hroom : found.isFull = false := by
        by_contra hfull
        rw [if_pos (by simpa using hfull)] at hq
        exact not_isQuiet_complain (inOrder_captured hs hx hfound).toSane _ hq
      rw [hroom, if_neg Bool.false_ne_true] at hq ⊢
      rw [haccess]
      have hf := found_captureFrom hx hfound hs.roomy hs.linked
      rw [← hν.around] at hh
      obtain ⟨hspread, hindex⟩ := spread_captureFrom hfound hroom hs.linked hh
      have hlt : found.index < byteRange := Nat.lt_of_lt_of_le hf.index
        (hf.roomy _ List.mem_cons_self).captures
      rw [← toNat_toUInt8 hlt] at hindex
      have hkept := hf.inner.kept
      refine ⟨inOrder_captured hs hx hfound, ⟨⟨hkept.name, hkept.arity, hkept.depth,
        names_of_raisedAll hf.inner.locals, localNames_of_grownAll hf.around, hspread, rfl⟩, ?_,
          ?_⟩,
        .captured rfl hindex, .captured rfl hindex⟩
      · unfold hasReturned
        rw [hf.inner.lastOp]
        rfl
      · exact ⟨[], adds_nil hf.inner.chunk hf.inner.lastOp, .nil⟩

theorem isQuiet_of_resolve (h : (s.resolve x).2.IsQuiet) : s.IsQuiet := by
  unfold resolve resolveAround at h
  split at h
  · dsimp only at h
    split at h
    · exact isQuiet_of_complainAt h
    · exact h
  · cases hfound : captureFrom x s.builder s.around with
    | none =>
      rw [hfound] at h
      exact isQuiet_of_poolConstant h
    | some found =>
      rw [hfound] at h
      dsimp only [Option.map_some] at h
      split at h
      · have hq := isQuiet_of_complainAt h
        exact hq
      · exact h

theorem numbered_endsInReturn (op : Opcode) (k : Nat) (earlier : Bool) :
    (numbered op k).endsInReturn earlier = false := by
  unfold numbered
  split
  · cases op <;> rfl
  · rfl

theorem get_endsInReturn (a : Access) (earlier : Bool) : a.get.endsInReturn earlier = false := by
  cases a with
  | slot k => exact numbered_endsInReturn .getLocal k earlier
  | _ => rfl

theorem set_endsInReturn (a : Access) (earlier : Bool) : a.set.endsInReturn earlier = false := by
  cases a with
  | slot k => exact numbered_endsInReturn .setLocal k earlier
  | _ => rfl

theorem passEmits_name (hx : x ≠ "") :
    PassEmits ν ((Expression.name x).piece ν) (Expression.name x).write where
  quiet s hq := isQuiet_of_resolve ((edits_appendWith ..).isQuiet hq)
  emits s hs hν hq := by
    obtain ⟨ht, hresolved, hget, -⟩ := emits_resolve hs hν hx ((edits_appendWith ..).isQuiet hq)
    have hwritten := hresolved.append
      (emits_appendWith (getOp_ne_return _) hget (get_endsInReturn _))
    refine ⟨(edits_appendWith ..).inOrder ht hq, ?_⟩
    rwa [Piece.append_def, List.append_nil] at hwritten

theorem passEmits_assign {e : Expression} (hx : x ≠ "") (he : PassEmits ν (e.piece ν) e.write) :
    PassEmits ν ((Expression.assign x e).piece ν) (Expression.assign x e).write where
  quiet s hq := isQuiet_of_resolve (he.quiet _ ((edits_appendWith ..).isQuiet hq))
  emits s hs hν hq := by
    have hq₁ := (edits_appendWith ..).isQuiet hq
    obtain ⟨ht, hresolved, -, hset⟩ := emits_resolve hs hν hx (he.quiet _ hq₁)
    obtain ⟨hu, hvalue⟩ := he.emits _ ht (hresolved.suits hν) hq₁
    have hwritten := (hresolved.append hvalue).append
      (emits_appendWith (setOp_ne_return _) (hvalue.lift hset) (set_endsInReturn _))
    exact ⟨(edits_appendWith ..).inOrder hu hq, hwritten⟩

/-! ## Operators -/

/-- The right operand of `and`. -/
theorem passEmits_and (hf : PassEmits ν p f) (hdeclared : p.declared = []) :
    PassEmits ν (.split (.ops [.pop] ++ p) {}) fun s => s.andForm fun _ => f where
  quiet s hq := (Edit.openJump s .jumpIfFalse).edits.isQuiet ((edits_appendOp _ .pop).isQuiet
    (hf.quiet _ ((Edit.landJump _ _).isQuiet hq)))
  emits s hs hν hq := by
    have hq₂ := (Edit.landJump _ _).isQuiet hq
    have hq₁ := hf.quiet _ hq₂
    have hopen : Edits s ((s.openJump .jumpIfFalse).2.appendOp .pop) :=
      (Edit.openJump s .jumpIfFalse).edits.trans (edits_appendOp _ .pop)
    have ht := hopen.inOrder hs hq₁
    have hpop : Emits (.ops [.pop]) (s.openJump .jumpIfFalse).2 _ := emits_appendOp _ rfl rfl
    have hν' := (hν.keep (gains_openJump s .jumpIfFalse)).keep hpop.toGains
    obtain ⟨hu, hright⟩ := hf.emits _ ht hν' hq₂
    refine ⟨(Edit.landJump _ _).edits.inOrder hu hq, ?_⟩
    exact emits_skip (hpop.append hright) (by rw [Piece.append_def, hdeclared]; rfl) hu hq

/-- The right operand of `or`. -/
theorem passEmits_or (hf : PassEmits ν p f) (hdeclared : p.declared = []) :
    PassEmits ν (.split {} (.ops [.pop] ++ p)) fun s => s.orForm fun _ => f where
  quiet s hq := by
    have hopen : Edits s (((s.openJump .jumpIfFalse).2.openJump .jump).2.landJump
        (s.openJump .jumpIfFalse).1) := (Edit.openJump s .jumpIfFalse).edits.trans
      ((Edit.openJump _ .jump).edits.trans (Edit.landJump _ _).edits)
    exact hopen.isQuiet ((edits_appendOp _ .pop).isQuiet
      (hf.quiet _ ((Edit.landJump _ _).isQuiet hq)))
  emits s hs hν hq := by
    have hq₂ := (Edit.landJump _ _).isQuiet hq
    have hq₁ := hf.quiet _ hq₂
    have hq₀ := (edits_appendOp _ .pop).isQuiet hq₁
    have hfirst := (Edit.openJump s .jumpIfFalse).edits.inOrder hs hs.quiet
    have hsecond := (Edit.openJump _ .jump).edits.inOrder hfirst hs.quiet
    have hlanded := (Edit.landJump _ (s.openJump .jumpIfFalse).1).edits.inOrder hsecond hq₀
    have ht := (edits_appendOp _ .pop).inOrder hlanded hq₁
    have hpop : Emits (.ops [.pop]) _ (State.appendOp ((((s.openJump .jumpIfFalse).2.openJump
        .jump).2.landJump (s.openJump .jumpIfFalse).1)) .pop) := emits_appendOp _ rfl rfl
    have hν' := (((hν.keep (gains_openJump s .jumpIfFalse)).keep (gains_openJump _ .jump)).keep
      (gains_landJump hsecond.toSane hq₀)).keep hpop.toGains
    obtain ⟨hu, hright⟩ := hf.emits _ ht hν' hq₂
    refine ⟨(Edit.landJump _ _).edits.inOrder hu hq, ?_⟩
    exact emits_split (emits_refl _) rfl hfirst hq₀ (hpop.append hright)
      (by rw [Piece.append_def, hdeclared]; rfl) hu hq

/-! ## Calls -/

/-- Arguments are counted as they are written, and there are not too many of them. -/
structure ArgumentsEmit (ν : Naming) (es : List Expression) : Prop where
  quiet : ∀ counted, (writeLater es counted).2.IsQuiet → counted.2.IsQuiet
  emits : ∀ n (s : State), n ≤ maxArguments → s.InOrder → Suits ν s →
    (writeLater es (n, s)).2.IsQuiet →
      (writeLater es (n, s)).1 = n + es.length ∧ n + es.length ≤ maxArguments ∧
        (writeLater es (n, s)).2.InOrder ∧ Emits (pieceOfAll ν es) s (writeLater es (n, s)).2

theorem argumentsEmit_nil : ArgumentsEmit ν [] :=
  ⟨fun _ hq => hq, fun _ s hn hs _ _ => ⟨rfl, hn, hs, emits_refl s⟩⟩

theorem argumentsEmit_cons {e : Expression} {es : List Expression}
    (he : PassEmits ν (e.piece ν) e.write) (hes : ArgumentsEmit ν es) :
    ArgumentsEmit ν (e :: es) where
  quiet counted hq := he.quiet _ ((edits_countArgument _ _).isQuiet (hes.quiet _ hq))
  emits n s hn hs hν hq := by
    have hq₂ := hes.quiet _ hq
    have hq₁ := (edits_countArgument _ _).isQuiet hq₂
    obtain ⟨ht, hfirst⟩ := he.emits s hs hν hq₁
    have hmax : n ≠ maxArguments := by
      intro hfull
      rw [countArgument, if_pos hfull] at hq₂
      exact not_isQuiet_complain ht.toSane _ hq₂
    have hwrite : writeLater (e :: es) (n, s) = writeLater es (n + 1, e.write s) := by
      rw [writeLater, countArgument, if_neg hmax]
    rw [hwrite] at hq ⊢
    have hν' := hfirst.suits hν
    rw [e.isValue.declared] at hν'
    obtain ⟨hcount, hroom, hu, hrest⟩ :=
      hes.emits _ _ (Nat.lt_of_le_of_ne hn hmax) ht hν' hq
    rw [Nat.succ_add_eq_add_succ] at hcount hroom
    exact ⟨hcount, hroom, hu, hfirst.append hrest⟩

theorem write_call (callee : Expression) (es : List Expression) (s : State) :
    (Expression.call callee es).write s = (writeLater es (0, callee.write s)).2.appendWith .call
      (writeLater es (0, callee.write s)).1 := by
  cases es <;> rfl

theorem passEmits_call {callee : Expression} {es : List Expression}
    (hcallee : PassEmits ν (callee.piece ν) callee.write) (hes : ArgumentsEmit ν es) :
    PassEmits ν ((Expression.call callee es).piece ν) (Expression.call callee es).write where
  quiet s hq := by
    rw [write_call] at hq
    exact hcallee.quiet _ (hes.quiet _ ((edits_appendWith ..).isQuiet hq))
  emits s hs hν hq := by
    rw [write_call] at hq ⊢
    have hq₂ := (edits_appendWith ..).isQuiet hq
    obtain ⟨ht, hfirst⟩ := hcallee.emits s hs hν (hes.quiet _ hq₂)
    have hν' := hfirst.suits hν
    rw [callee.isValue.declared] at hν'
    obtain ⟨hcount, hroom, hu, hrest⟩ := hes.emits 0 _ (Nat.zero_le _) ht hν' hq₂
    refine ⟨(edits_appendWith ..).inOrder hu hq, ?_⟩
    have hcall : Emits { flow := numbered .call es.length }
        (writeLater es (0, callee.write s)).2
        ((writeLater es (0, callee.write s)).2.appendWith .call
          (writeLater es (0, callee.write s)).1) := by
      rw [Nat.zero_add] at hcount hroom
      have hfits : es.length < byteRange := Nat.lt_succ_of_le hroom
      rw [hcount, numbered, if_pos hfits]
      exact emits_appendWith nofun (.direct rfl rfl) fun _ => rfl
    exact (hfirst.append hrest).append hcall

/-! ## Expressions -/

/-- What is written for a part is the code of its piece. -/
def PartEmits (ν : Naming) : Part → Prop
  | .expression e _ => PassEmits ν (e.piece ν) e.write
  | .later es => ArgumentsEmit ν es

/-- Writing an expression or arguments writes the piece. -/
theorem partEmits (ν : Naming) {part : Part} {ws : List Word} (h : Renders part ws)
    (hnamed : ∀ w ∈ ws, w.kind = .identifier → w.text ≠ "") : PartEmits ν part := by
  induction h with
  | literal l => exact passEmits_literal l
  | name x => exact passEmits_name (hnamed _ List.mem_cons_self rfl)
  | assign _ _ ih =>
    exact passEmits_assign (hnamed _ List.mem_cons_self rfl)
      (ih fun w hw => hnamed w (List.mem_cons_of_mem _ (List.mem_cons_of_mem _ hw)))
  | @unary op e _ _ _ _ ih =>
    have hoperand : PassEmits ν (e.piece ν) e.write := ih fun w hw =>
      hnamed w (List.mem_cons_of_mem _ hw)
    refine hoperand.comp e.isValue.declared (passEmits_appendOp ?_ ?_) <;> cases op <;> rfl
  | @binary op l r _ _ _ _ _ _ ihleft ihright =>
    rw [List.forall_mem_append, List.forall_mem_cons] at hnamed
    have hleft : PassEmits ν (l.piece ν) l.write := ihleft hnamed.1
    have hright : PassEmits ν (r.piece ν) r.write := ihright hnamed.2.2
    have hops : PassEmits ν (.ops op.code) fun s => op.code.foldl appendOp s := by
      refine passEmits_of_edits (edits_foldl edits_appendOp op.code) fun s _ _ _ =>
        emits_appendOps op.code ?_ s
      cases op <;> decide
    exact (hleft.comp l.isValue.declared hright).comp (l.isValue.append r.isValue).declared hops
  | @and l r _ _ _ _ _ _ ihleft ihright =>
    rw [List.forall_mem_append, List.forall_mem_cons] at hnamed
    have hleft : PassEmits ν (l.piece ν) l.write := ihleft hnamed.1
    exact hleft.comp l.isValue.declared (passEmits_and (ihright hnamed.2.2) r.isValue.declared)
  | @or l r _ _ _ _ _ _ ihleft ihright =>
    rw [List.forall_mem_append, List.forall_mem_cons] at hnamed
    have hleft : PassEmits ν (l.piece ν) l.write := ihleft hnamed.1
    exact hleft.comp l.isValue.declared (passEmits_or (ihright hnamed.2.2) r.isValue.declared)
  | emptyCall _ _ ih =>
    rw [List.forall_mem_append] at hnamed
    exact passEmits_call (ih hnamed.1) argumentsEmit_nil
  | call _ _ _ _ ihfirst ihvalue ihmore =>
    rw [List.forall_mem_append, parens, List.forall_mem_append, List.forall_mem_cons,
      List.forall_mem_append] at hnamed
    obtain ⟨hfirst, ⟨-, hvalue, hmore⟩, -⟩ := hnamed
    exact passEmits_call (ihfirst hfirst) (argumentsEmit_cons (ihvalue hvalue) (ihmore hmore))
  | group _ ih =>
    rw [parens, List.forall_mem_append, List.forall_mem_cons] at hnamed
    exact ih hnamed.1.2
  | noMore => exact argumentsEmit_nil
  | more _ _ ihvalue ihmore =>
    rw [List.forall_mem_append, List.forall_mem_cons] at hnamed
    exact argumentsEmit_cons (ihvalue hnamed.1.2) (ihmore hnamed.2)

end Passes

end ScriptEngine.Compile
