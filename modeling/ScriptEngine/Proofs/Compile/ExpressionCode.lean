import ScriptEngine.Proofs.Compile.Placed
set_option autoImplicit false

/-!
# Compilation: the code of expressions

The code of an expression leaves exactly one more value on the stack, whatever
the expression is and wherever it stands (`PassCarries` from `0` to `1`).  Every
form of expression is proved to do so if its parts do, and the mutual recursion
ties the forms together (`expressionsCarry`).

A pass only has to do this where nothing is reported and as long as the bound on
the depth of the recursion is not reached, which what is left to read decides.
-/

namespace ScriptEngine.Compile

/-- So many temporary values. -/
abbrev temporaries (n : Nat) : Layout := List.replicate n .temporary

namespace State

/-! ## Contracts -/

/-- The code between two states takes a frame with `n` temporary values to one
with `m`, above the same slots. -/
structure Carries (s t : State) (n m : Nat) : Prop where
  stays : Stays s t
  placed : ∀ (ls : List Local) (Γ : Layout) (labels pending : List (Nat × Layout)),
    RaisedAll (ready t.builder.locals) ls → Over ls Γ →
    Placed s.builder ls (temporaries n ++ Γ) labels pending →
    Placed t.builder ls (temporaries m ++ Γ) labels pending

theorem Carries.trans {s t u : State} {n m k : Nat} (h : Carries s t n m)
    (g : Carries t u m k) : Carries s u n k where
  stays := h.stays.trans g.stays
  placed ls Γ labels pending hls hover hplaced := by
    refine g.placed ls Γ labels pending hls hover (h.placed ls Γ labels pending ?_ hover hplaced)
    exact (raisedAll_ready g.stays.builder.locals).trans hls

/-- Further values below do no harm. -/
theorem Carries.above {s t : State} {n m : Nat} (h : Carries s t n m) (k : Nat) :
    Carries s t (k + n) (k + m) where
  stays := h.stays
  placed ls Γ labels pending hls hover hplaced := by
    have hsplit : ∀ j, temporaries (k + j) ++ Γ = temporaries j ++ (temporaries k ++ Γ) :=
      fun j => by rw [← List.append_assoc, List.replicate_append_replicate, Nat.add_comm]
    rw [hsplit] at hplaced ⊢
    exact h.placed ls _ labels pending hls (hover.replicate k) hplaced

/-- What is proved of a pass that starts with at most `left` tokens. -/
structure PassCarries (left : Nat) (pass : Pass) (n m : Nat) : Prop where
  edits : ∀ s, Edits s (pass s)
  carries : ∀ s, s.Sane → (pass s).IsQuiet → s.left ≤ left → Carries s (pass s) n m

theorem PassCarries.comp {left : Nat} {f g : Pass} {n m k : Nat}
    (hf : PassCarries left f n m) (hg : PassCarries left g m k) :
    PassCarries left (fun s => g (f s)) n k where
  edits s := (hf.edits s).trans (hg.edits (f s))
  carries s hs hq hleft := by
    have hqf := (hg.edits (f s)).isQuiet hq
    refine (hf.carries s hs hqf hleft).trans (hg.carries (f s) ?_ hq ?_)
    · exact (hf.edits s).sane hs hqf
    · exact Nat.le_trans (hf.edits s).left_le hleft

theorem PassCarries.above {left : Nat} {f : Pass} {n m : Nat} (h : PassCarries left f n m)
    (k : Nat) : PassCarries left f (k + n) (k + m) where
  edits := h.edits
  carries s hs hq hleft := (h.carries s hs hq hleft).above k

/-- A pass that leaves the code alone. -/
theorem passCarries_of_builder {left : Nat} {f : Pass} (hedits : ∀ s, Edits s (f s))
    (hbuilder : ∀ s, s.Sane → (f s).IsQuiet → (f s).builder = s.builder) (n : Nat) :
    PassCarries left f n n where
  edits := hedits
  carries s hs hq _ := by
    refine ⟨(hedits s).stays hs hq, fun ls Γ labels pending _ _ hplaced => ?_⟩
    rw [hbuilder s hs hq]
    exact hplaced

theorem passCarries_read {left : Nat} (n : Nat) : PassCarries left read n n :=
  passCarries_of_builder (fun s => (Edit.read s).edits) (fun _ hs hq => builder_read hs hq) n

theorem passCarries_require {left : Nat} (k : TokenKind) (what : Expected) (n : Nat) :
    PassCarries left (fun s => s.require k what) n n :=
  passCarries_of_builder (fun s => edits_require s k what)
    (fun _ hs hq => builder_require hs hq) n

/-- An opcode is written whose effect is the same everywhere. -/
theorem passCarries_appendOp {left : Nat} (op : Opcode) {n m : Nat}
    (heff : ∀ pool captureCount next Γ, Effect pool captureCount next op []
      (temporaries n ++ Γ) [(next, temporaries m ++ Γ)])
    (hop : op ≠ .return) : PassCarries left (fun s => s.appendOp op) n m where
  edits s := edits_appendOp s op
  carries s hs hq _ := by
    refine ⟨(edits_appendOp s op).stays hs hq, fun ls Γ labels pending _ hover hplaced => ?_⟩
    exact placed_appendOp hplaced op (fun next => heff _ _ next Γ) hop (hover.replicate m)

theorem passCarries_pop {left : Nat} : PassCarries left (fun s => s.appendOp .pop) 1 0 :=
  passCarries_appendOp .pop (fun _ _ _ _ => .pop (fun h => nomatch h) (fun h => nomatch h))
    (fun h => nomatch h)

/-- Fewer locals were captured before. -/
theorem Edits.raisedAll {s t : State} (h : Edits s t) (hs : s.Sane) (ht : t.IsQuiet)
    {ls : List Local} (hls : RaisedAll (ready t.builder.locals) ls) :
    RaisedAll (ready s.builder.locals) ls :=
  (raisedAll_ready (h.stays hs ht).builder.locals).trans hls

/-! ## Names -/

/-- An instruction may read and write the place. -/
def Usable (b : Builder) (Γ : Layout) (p : Place) : Prop :=
  p.operand < byteRange ∧
    match p with
    | .slot i => 0 < i ∧ ∃ κ, fromOldest? Γ i = some (.variable κ)
    | .captured i => i < b.captures.length
    | .global k => ∃ name, b.chunk.constants[k]? = some (.string name)

theorem Usable.kept {b b' : Builder} {Γ : Layout} {p : Place} (h : Usable b Γ p)
    (hkept : Kept b b') : Usable b' Γ p := by
  obtain ⟨hlt, h⟩ := h
  refine ⟨hlt, ?_⟩
  cases p with
  | slot i => exact h
  | captured i => exact Nat.lt_of_lt_of_le h hkept.captures.length_le
  | global k =>
    obtain ⟨name, hk⟩ := h
    exact ⟨name, hkept.pool _ _ hk⟩

theorem toNat_toUInt8 {n : Nat} (h : n < byteRange) : n.toUInt8.toNat = n :=
  UInt8.toNat_ofNat_of_lt' h

theorem Usable.get {b : Builder} {Γ : Layout} {p : Place} (h : Usable b Γ p) (next : Nat) :
    Effect b.chunk.constants b.captures.length next p.getOp [p.operand.toUInt8] Γ
      [(next, .temporary :: Γ)] := by
  obtain ⟨hlt, h⟩ := h
  have hoperand := toNat_toUInt8 hlt
  cases p with
  | slot i =>
    obtain ⟨hpos, κ, hκ⟩ := h
    exact .getLocal (by rwa [hoperand]) (by rw [hoperand]; exact hκ)
  | captured i => exact .getUpvalue (by rwa [hoperand])
  | global k =>
    obtain ⟨name, hk⟩ := h
    exact .getGlobal (by rw [hoperand]; exact hk)

theorem Usable.set {b : Builder} {Γ : Layout} {p : Place} (h : Usable b Γ p) (next : Nat) :
    Effect b.chunk.constants b.captures.length next p.setOp [p.operand.toUInt8]
      (.temporary :: Γ) [(next, .temporary :: Γ)] := by
  obtain ⟨hlt, h⟩ := h
  have hoperand := toNat_toUInt8 hlt
  cases p with
  | slot i =>
    obtain ⟨hpos, κ, hκ⟩ := h
    exact .setLocal (by rwa [hoperand]) (by rw [hoperand]; exact hκ)
  | captured i => exact .setUpvalue (by rwa [hoperand])
  | global k =>
    obtain ⟨name, hk⟩ := h
    exact .setGlobal (by rw [hoperand]; exact hk)

/-- What a name can refer to. -/
theorem resolve_cases {s : State} (hs : s.Sane) (hname : s.previous.kind = .identifier)
    (hq : (s.resolve s.previous.lexeme).2.IsQuiet) :
    (∃ slot l, slotOf? s.previous.lexeme (ready s.builder.locals) = some (slot, l) ∧
      s.resolve s.previous.lexeme = (.slot slot, s)) ∨
    (∃ found, captureFrom s.previous.lexeme s.builder s.around = some found ∧
      s.resolve s.previous.lexeme = (.captured found.index,
        { s with builder := found.inner, around := found.around })) ∨
    ((s.poolConstant (.string s.previous.lexeme)).2.IsQuiet ∧
      s.resolve s.previous.lexeme = (.global s.builder.chunk.constants.size,
        (s.poolConstant (.string s.previous.lexeme)).2)) := by
  unfold resolve resolveAround at hq ⊢
  split
  · next slot l hslot =>
    rw [hslot] at hq
    dsimp only at hq ⊢
    split at hq
    · exact absurd hq (not_isQuiet_complain hs _)
    · next hready =>
      rw [if_neg hready]
      rw [Bool.not_eq_true] at hready
      exact .inl ⟨slot, l, slotOf_ready hslot hready, rfl⟩
  · next hslot =>
    rw [hslot] at hq
    refine .inr ?_
    cases hfound : captureFrom s.previous.lexeme s.builder s.around with
    | some found =>
      rw [hfound] at hq
      dsimp only [Option.map_some] at hq ⊢
      split at hq
      · have hsane := (Edit.capture s found hname hfound).sane hs hs.quiet
        exact absurd hq (not_isQuiet_complain hsane _)
      · next hfull =>
        rw [if_neg hfull]
        exact .inl ⟨found, rfl, rfl⟩
    | none =>
      rw [hfound] at hq
      dsimp only [Option.map_none] at hq ⊢
      refine .inr ⟨hq, ?_⟩
      rw [(poolConstant_eq hs hq).2]

/-- What a name refers to may be read and written from then on. -/
theorem usable_resolve {s : State} (hs : s.Sane) (hname : s.previous.kind = .identifier)
    (hq : (s.resolve s.previous.lexeme).2.IsQuiet) {ls : List Local} {Γ : Layout}
    (hls : RaisedAll (ready s.builder.locals) ls) (hover : Over ls Γ) :
    Usable (s.resolve s.previous.lexeme).2.builder Γ (s.resolve s.previous.lexeme).1 := by
  have hlexeme := hs.named _ List.mem_cons_self hname
  rcases resolve_cases hs hname hq with ⟨slot, l, hslot, heq⟩ | ⟨found, hfound, heq⟩ |
    ⟨hpool, heq⟩
  · rw [heq]
    obtain ⟨l', hl'⟩ := slotOf_raisedAll hls hslot
    have hroom := (hs.roomy _ List.mem_cons_self).locals
    refine ⟨Nat.lt_of_lt_of_le ?_ hroom, hover.slot hlexeme hl'⟩
    exact Nat.lt_of_lt_of_le (slotOf_lt hslot) (List.dropWhile_sublist _).length_le
  · rw [heq]
    have hf := found_captureFrom hlexeme hfound hs.roomy hs.linked
    have hroom := (hf.roomy _ List.mem_cons_self).captures
    exact ⟨Nat.lt_of_lt_of_le hf.index hroom, hf.index⟩
  · obtain ⟨hroom, hpooled⟩ := poolConstant_eq hs hpool
    rw [heq, hpooled]
    exact ⟨hroom, s.previous.lexeme, Array.getElem?_push_size⟩

/-- Looking for a name writes no code. -/
theorem placed_resolve {s : State} (hs : s.Sane) (hname : s.previous.kind = .identifier)
    (hq : (s.resolve s.previous.lexeme).2.IsQuiet) {ls : List Local} {Γ : Layout}
    {labels pending : List (Nat × Layout)} (h : Placed s.builder ls Γ labels pending) :
    Placed (s.resolve s.previous.lexeme).2.builder ls Γ labels pending := by
  rcases resolve_cases hs hname hq with ⟨slot, l, -, heq⟩ | ⟨found, hfound, heq⟩ |
    ⟨hpool, heq⟩
  · rw [heq]
    exact h
  · rw [heq]
    have hf := found_captureFrom (hs.named _ List.mem_cons_self hname) hfound hs.roomy
      hs.linked
    exact h.mono hf.inner.kept.toLarger (congrArg Chunk.code hf.inner.chunk) hf.inner.lastOp
      hf.inner.checkpoints
  · rw [heq]
    exact placed_poolConstant hs hpool h

/-! ## What opens an expression -/

section Forms

variable {left : Nat} {operand : Precedence → Pass} {arguments : State → Nat × State}

theorem carries_nameForm {expression : Pass} (he : PassCarries left expression 0 1)
    (mayAssign : Bool) {s : State} (hs : s.Sane) (hname : s.previous.kind = .identifier)
    (hq : (s.nameForm expression mayAssign).IsQuiet) (hleft : s.left ≤ left) :
    Carries s (s.nameForm expression mayAssign) 0 1 := by
  have hedits := edits_nameForm he.edits mayAssign hname
  refine ⟨hedits.stays hs hq, fun ls Γ labels pending hls hover hplaced => ?_⟩
  have hlocals := hedits.raisedAll hs hq hls
  have hresolve := edits_resolve hname
  unfold nameForm at hq hls ⊢
  dsimp only at hq hls ⊢
  split at hq
  · next hassign =>
    rw [if_pos hassign] at hls ⊢
    have hq₃ := (edits_appendWith ..).isQuiet hq
    have hq₂ := (he.edits _).isQuiet hq₃
    have hq₁ := (Edit.read _).isQuiet hq₂
    have hs₁ := hresolve.sane hs hq₁
    have hs₂ := hs₁.read hq₂
    have hs₃ := (he.edits _).sane hs₂ hq₃
    have h₁ := placed_resolve hs hname hq₁ hplaced
    rw [← builder_read hs₁ hq₂] at h₁
    have hread := (Edit.read (s.resolve s.previous.lexeme).2).edits.left_le
    have hcarries := he.carries _ hs₂ hq₃
      (Nat.le_trans hread (Nat.le_trans hresolve.left_le hleft))
    have h₃ := hcarries.placed ls Γ labels pending
      ((edits_appendWith ..).raisedAll hs₃ hq hls) hover h₁
    have husable := usable_resolve hs hname hq₁ hlocals hover
    rw [← builder_read hs₁ hq₂] at husable
    have husable := husable.kept hcarries.stays.builder
    refine placed_appendWith h₃ _ _ husable.set ?_ hover.push
    cases (s.resolve s.previous.lexeme).1 <;> exact fun h => nomatch h
  · next hassign =>
    rw [if_neg hassign] at hls ⊢
    have hq₁ := (edits_appendWith ..).isQuiet hq
    have h₁ := placed_resolve hs hname hq₁ hplaced
    have husable := usable_resolve hs hname hq₁ hlocals hover
    refine placed_appendWith h₁ _ _ husable.get ?_ hover.push
    cases (s.resolve s.previous.lexeme).1 <;> exact fun h => nomatch h

/-- A constant that stands for itself is pushed. -/
theorem carries_pushLiteral {v : Value} (hv : v.isLiteral = true) {s : State} (hs : s.Sane)
    (hq : (s.pushLiteral v).IsQuiet) : Carries s (s.pushLiteral v) 0 1 := by
  have hfunction : ∀ f, v ≠ .function f := by
    rintro f rfl
    cases hv
  refine ⟨(edits_pushLiteral hfunction s).stays hs hq, ?_⟩
  intro ls Γ labels pending _ hover hplaced
  unfold pushLiteral at hq ⊢
  dsimp only at hq ⊢
  have hq₁ := (edits_appendWith ..).isQuiet hq
  obtain ⟨hroom, heq⟩ := poolConstant_eq hs hq₁
  have h₁ := placed_poolConstant hs hq₁ hplaced
  refine placed_appendWith h₁ _ _ (fun next => .constant (v := v) ?_ hv) (fun h => nomatch h)
    hover.push
  rw [heq, toNat_toUInt8 hroom]
  exact Array.getElem?_push_size

theorem carries_numberForm {s : State} (hs : s.Sane) (hq : s.numberForm.IsQuiet) :
    Carries s s.numberForm 0 1 := by
  unfold numberForm at hq ⊢
  split at hq
  · exact carries_pushLiteral rfl hs hq
  · exact absurd hq (not_isQuiet_complain hs _)

theorem literal_of_opening {k : TokenKind} {op : Opcode}
    (h : k.opening? = some (.literal op)) : op.isLiteral = true := by
  cases k <;> cases h <;> rfl

theorem carries_openExpression (ho : ∀ p, PassCarries left (operand p) 0 1)
    (mayAssign : Bool) {opening : Opening} {s : State} (hs : s.Sane)
    (hopening : s.previous.kind.opening? = some opening)
    (hq : (s.openExpression operand mayAssign opening).IsQuiet) (hleft : s.left ≤ left) :
    Carries s (s.openExpression operand mayAssign opening) 0 1 := by
  cases opening with
  | group =>
    have hform := (ho .assignment).comp (passCarries_require .rightParen .closingOfGroup 1)
    exact hform.carries s hs hq hleft
  | unary op =>
    have hform := (ho .unary).comp (passCarries_appendOp op.code (n := 1) (m := 1)
      (fun _ _ _ _ => .unary (by cases op <;> rfl)) (by cases op <;> exact fun h => nomatch h))
    exact hform.carries s hs hq hleft
  | name =>
    exact carries_nameForm (ho .assignment) mayAssign hs (kind_of_opening_name hopening) hq
      hleft
  | string => exact carries_pushLiteral rfl hs hq
  | number => exact carries_numberForm hs hq
  | literal op =>
    have hop := literal_of_opening hopening
    have hform : PassCarries left (fun s => s.appendOp op) 0 1 :=
      passCarries_appendOp op (fun _ _ _ _ => .literal hop) (by rintro rfl; cases hop)
    exact hform.carries s hs hq hleft

/-! ## What continues an expression -/

theorem passCarries_binaryCode (op : BinaryOperator) :
    PassCarries left (fun s => op.code.foldl appendOp s) 2 1 := by
  have hbinary : ∀ op : Opcode, op.isBinary = true →
      PassCarries left (fun s => s.appendOp op) 2 1 := fun op hop =>
    passCarries_appendOp op (n := 2) (m := 1) (fun _ _ _ _ => .binary hop)
      (by rintro rfl; cases hop)
  have hnot : PassCarries left (fun s => s.appendOp .not) 1 1 :=
    passCarries_appendOp .not (n := 1) (m := 1) (fun _ _ _ _ => .unary rfl) (fun h => nomatch h)
  cases op with
  | unequal | greaterEqual | lessEqual => exact (hbinary _ rfl).comp hnot
  | add | subtract | multiply | divide | equal | greater | less => exact hbinary _ rfl

theorem effect_call {pool : Array Value} {captureCount next n : Nat} (hn : n < byteRange)
    (Γ : Layout) : Effect pool captureCount next .call [n.toUInt8]
      (temporaries (n + 1) ++ Γ) [(next, .temporary :: Γ)] := by
  have h : Effect pool captureCount next .call [n.toUInt8]
      (temporaries (n.toUInt8.toNat + 1) ++ Γ) [(next, .temporary :: Γ)] := .call
  rwa [toNat_toUInt8 hn] at h

/-- What is proved of the arguments of a call, of which `count` are there. -/
def ArgumentsCarry (left count : Nat) (arguments : State → Nat × State) : Prop :=
  ∀ s, s.Sane → (arguments s).2.IsQuiet → s.left ≤ left → count ≤ maxArguments →
    Carries s (arguments s).2 (count + 1) ((arguments s).1 + 1) ∧
      (arguments s).1 ≤ maxArguments

theorem carries_callForm (hedits : ∀ s, Edits s (arguments s).2)
    (ha : ArgumentsCarry left 0 arguments) {s : State} (hs : s.Sane)
    (hq : (s.callForm arguments).IsQuiet) (hleft : s.left ≤ left) :
    Carries s (s.callForm arguments) 1 1 := by
  have hcall : ∀ (t : State) (count : Nat), t.Sane → count ≤ maxArguments →
      ((t.require .rightParen .closingOfArguments).appendWith .call count).IsQuiet →
      Carries t ((t.require .rightParen .closingOfArguments).appendWith .call count)
        (count + 1) 1 := by
    intro t count ht hcount hq
    have hrequire := edits_require t .rightParen .closingOfArguments
    have hq₁ := (edits_appendWith ..).isQuiet hq
    refine ⟨Edits.stays (hrequire.trans (edits_appendWith ..)) ht hq, ?_⟩
    intro ls Γ labels pending _ hover hplaced
    rw [← builder_require ht hq₁] at hplaced
    refine placed_appendWith hplaced _ _ (fun next => ?_) (fun h => nomatch h) hover.push
    exact effect_call (Nat.lt_succ_of_le hcount) Γ
  unfold callForm at hq ⊢
  dsimp only at hq ⊢
  split at hq
  · next hempty =>
    rw [if_pos hempty]
    exact hcall s 0 hs (Nat.zero_le _) hq
  · next hempty =>
    rw [if_neg hempty]
    have hq₁ := (edits_require ..).isQuiet ((edits_appendWith ..).isQuiet hq)
    obtain ⟨hcarries, hcount⟩ := ha s hs hq₁ hleft (Nat.zero_le _)
    exact hcarries.trans (hcall _ _ ((hedits s).sane hs hq₁) hcount hq)

theorem carries_andForm (ho : ∀ p, PassCarries left (operand p) 0 1) {s : State} (hs : s.Sane)
    (hq : (s.andForm operand).IsQuiet) (hleft : s.left ≤ left) :
    Carries s (s.andForm operand) 1 1 := by
  have hedits := edits_andForm (fun p => (ho p).edits) s
  refine ⟨hedits.stays hs hq, fun ls Γ labels pending hls hover hplaced => ?_⟩
  unfold andForm at hq hls ⊢
  dsimp only at hq hls ⊢
  have hopen : Edits s ((s.openJump .jumpIfFalse).2.appendOp .pop) :=
    (Edit.openJump s .jumpIfFalse).edits.trans (edits_appendOp _ .pop)
  have hq₃ := (Edit.landJump _ _).isQuiet hq
  have hq₂ := ((ho .and).edits _).isQuiet hq₃
  have hs₂ := hopen.sane hs hq₂
  have hs₃ := ((ho .and).edits _).sane hs₂ hq₃
  -- the right operand is reached without the left value, the end with one value
  have h₁ := placed_openJump hplaced .jumpIfFalse (.inr ⟨rfl, ⟨Γ, rfl⟩, rfl⟩) hover.push
  have h₂ := placed_appendOp h₁ .pop (fun _ => .pop (fun h => nomatch h) (fun h => nomatch h))
    (fun h => nomatch h) hover
  have h₃ := ((ho .and).carries _ hs₂ hq₃ (Nat.le_trans hopen.left_le hleft)).placed ls Γ _ _
    ((Edit.landJump _ _).edits.raisedAll hs₃ hq hls) hover h₂
  exact placed_landNewest hs₃ hq h₃ (ne_next hplaced)

theorem carries_orForm (ho : ∀ p, PassCarries left (operand p) 0 1) {s : State} (hs : s.Sane)
    (hq : (s.orForm operand).IsQuiet) (hleft : s.left ≤ left) :
    Carries s (s.orForm operand) 1 1 := by
  have hedits := edits_orForm (fun p => (ho p).edits) s
  refine ⟨hedits.stays hs hq, fun ls Γ labels pending hls hover hplaced => ?_⟩
  unfold orForm at hq hls ⊢
  dsimp only at hq hls ⊢
  have hopen : Edits s ((s.openJump .jumpIfFalse).2.openJump .jump).2 :=
    (Edit.openJump s .jumpIfFalse).edits.trans (Edit.openJump _ .jump).edits
  have hland : Edits ((s.openJump .jumpIfFalse).2.openJump .jump).2
      ((((s.openJump .jumpIfFalse).2.openJump .jump).2.landJump
        (s.openJump .jumpIfFalse).1).appendOp .pop) :=
    (Edit.landJump _ _).edits.trans (edits_appendOp _ .pop)
  have hq₄ := (Edit.landJump _ _).isQuiet hq
  have hq₃ := ((ho .or).edits _).isQuiet hq₄
  have hq₂ := (edits_appendOp ..).isQuiet hq₃
  have hs₁ := hopen.sane hs (hland.isQuiet hq₃)
  have hs₃ := hland.sane hs₁ hq₃
  have hs₄ := ((ho .or).edits _).sane hs₃ hq₄
  have h₁ := placed_openJump hplaced .jumpIfFalse (.inr ⟨rfl, ⟨Γ, rfl⟩, rfl⟩) hover.push
  have h₂ := placed_openJump h₁ .jump (.inl rfl) hover.push
  -- behind the unconditional jump the code goes on where the conditional one lands
  have hne : (s.openJump .jumpIfFalse).2.codeSize + 1 ≠ s.codeSize + 1 := by
    rw [codeSize_openJump]
    omega
  have h₃ := placed_landOlder hs₁ hq₂ h₂ hne (ne_next hplaced)
  have h₄ := placed_appendOp h₃ .pop (fun _ => .pop (fun h => nomatch h) (fun h => nomatch h))
    (fun h => nomatch h) hover
  have h₅ := ((ho .or).carries _ hs₃ hq₄
    (Nat.le_trans hland.left_le (Nat.le_trans hopen.left_le hleft))).placed ls Γ _ _
    ((Edit.landJump _ _).edits.raisedAll hs₄ hq hls) hover h₄
  refine placed_landNewest hs₄ hq h₅ fun x hx => ?_
  have hle : x.1 ≤ s.codeSize := hplaced.pending_le hx
  show x.1 ≠ (s.openJump .jumpIfFalse).2.codeSize + 1
  rw [codeSize_openJump]
  omega

theorem carries_continueExpression (ho : ∀ p, PassCarries left (operand p) 0 1)
    (hedits : ∀ s, Edits s (arguments s).2) (ha : ArgumentsCarry left 0 arguments)
    (c : Continuation) {s : State} (hs : s.Sane)
    (hq : (s.continueExpression operand arguments c).IsQuiet) (hleft : s.left ≤ left) :
    Carries s (s.continueExpression operand arguments c) 1 1 := by
  cases c with
  | call => exact carries_callForm hedits ha hs hq hleft
  | binary op =>
    have hform := ((ho op.precedence.next).above 1).comp (passCarries_binaryCode op)
    exact hform.carries s hs hq hleft
  | and => exact carries_andForm ho hs hq hleft
  | or => exact carries_orForm ho hs hq hleft

end Forms

end State

open State

/-! ## The mutual forms -/

/-- What is proved of the expressions at once, for one bound on the depth. -/
structure ExpressionsCarry (depth : Nat) : Prop where
  expression : ∀ level left, 2 * left + 1 ≤ depth →
    PassCarries left (expression depth level) 0 1
  continuations : ∀ level left, 2 * left + 1 ≤ depth →
    PassCarries left (continuations depth level) 1 1
  arguments : ∀ count left, 2 * left + 2 ≤ depth →
    ArgumentsCarry left count (arguments depth count)

theorem carries_refuseAssignment {mayAssign : Bool} {s : State} (hs : s.Sane)
    (hq : (s.refuseAssignment mayAssign).IsQuiet) :
    s.refuseAssignment mayAssign = s := by
  unfold refuseAssignment at hq ⊢
  split at hq
  · have hread := (Edit.read s).sane hs ((edits_complain ..).isQuiet hq)
    exact absurd hq (not_isQuiet_complain hread _)
  · next h => rw [if_neg h]

/-- An expression starts with a token that is not the end. -/
theorem sees_of_opening {s : State} {opening : Opening}
    (h : s.tick.read.previous.kind.opening? = some opening) : ¬ s.sees .endOfSource := by
  intro hend
  have hkind : s.current.kind = .endOfSource := by simpa [sees] using hend
  have hprevious : s.tick.read.previous = s.current := rfl
  rw [hprevious, hkind] at h
  cases h

/-- The part of an expression behind its opening token. -/
theorem edits_opened (depth : Nat) (level : Precedence) (mayAssign : Bool) (r : State) :
    Edits r (match r.previous.kind.opening? with
      | none => r.complain (.expected .expression)
      | some opening => (continuations depth level
          (r.openExpression (expression depth) mayAssign opening)).refuseAssignment mayAssign) := by
  have hforms := formsAct depth
  split
  · exact edits_complain ..
  · next hopening =>
    exact (edits_openExpression hforms.expression _ hopening).trans <|
      (hforms.continuations _ _).trans (edits_refuseAssignment ..)

/-- An expression takes at least one token. -/
theorem left_expression_lt {depth : Nat} {level : Precedence} {s : State}
    (hend : ¬ s.sees .endOfSource) : (expression (depth + 1) level s).left < s.left := by
  have hread : s.tick.read.left < s.tick.left := left_read_lt hend
  unfold expression
  exact Nat.lt_of_le_of_lt (edits_opened depth level _ _).left_le hread

theorem passCarries_expression_succ {depth : Nat} (h : ExpressionsCarry depth)
    (level : Precedence) {left : Nat} (hdepth : 2 * left + 1 ≤ depth + 1) :
    PassCarries left (expression (depth + 1) level) 0 1 where
  edits := (formsAct (depth + 1)).expression level
  carries s hs hq hleft := by
    have hread : Edits s s.tick.read := (Edit.tick s).edits.trans (Edit.read _).edits
    unfold expression at hq ⊢
    dsimp only at hq ⊢
    split at hq
    · next hopening =>
      have hs₁ := hread.sane hs ((edits_complain ..).isQuiet hq)
      exact absurd hq (not_isQuiet_complain hs₁ _)
    · next opening hopening =>
      have hlt : s.tick.read.left < s.tick.left := left_read_lt (sees_of_opening hopening)
      have hleft₁ : s.tick.read.left ≤ left - 1 := by
        have : s.tick.left = s.left := rfl
        omega
      have hdepth₁ : 2 * (left - 1) + 1 ≤ depth := by
        have : s.tick.left = s.left := rfl
        omega
      have hopen := edits_openExpression (formsAct depth).expression
        (decide (level ≤ .assignment)) hopening
      have hcont := (formsAct depth).continuations level (s.tick.read.openExpression
        (expression depth) (decide (level ≤ .assignment)) opening)
      have hq₃ := (edits_refuseAssignment ..).isQuiet hq
      have hq₂ := hcont.isQuiet hq₃
      have hs₁ := hread.sane hs (hopen.isQuiet hq₂)
      have hs₂ := hopen.sane hs₁ hq₂
      rw [carries_refuseAssignment (hcont.sane hs₂ hq₃) hq]
      have htick : Carries s s.tick 0 0 :=
        ⟨(Edit.tick s).edits.stays hs hs.quiet, fun _ _ _ _ _ _ h => h⟩
      have hs₀ := (Edit.tick s).edits.sane hs hs.quiet
      refine htick.trans <| ((passCarries_read 0).carries s.tick hs₀ hs₁.quiet hleft).trans ?_
      refine (carries_openExpression (fun p => h.expression p _ hdepth₁) _ hs₁ hopening hq₂
        hleft₁).trans ?_
      exact (h.continuations level _ hdepth₁).carries _ hs₂ hq₃
        (Nat.le_trans hopen.left_le hleft₁)

theorem passCarries_continuations_succ {depth : Nat} (h : ExpressionsCarry depth)
    (level : Precedence) {left : Nat} (hdepth : 2 * left + 1 ≤ depth + 1) :
    PassCarries left (continuations (depth + 1) level) 1 1 where
  edits := (formsAct (depth + 1)).continuations level
  carries s hs hq hleft := by
    have hs₀ := (Edit.tick s).edits.sane hs hs.quiet
    have htick : Carries s s.tick 1 1 :=
      ⟨(Edit.tick s).edits.stays hs hs.quiet, fun _ _ _ _ _ _ h => h⟩
    unfold continuations at hq ⊢
    split at hq
    · exact htick
    · next c hc =>
      split at hq
      · next hlevel =>
        rw [if_pos hlevel]
        have hsees : ¬ s.tick.sees .endOfSource := by
          intro hend
          have hkind : s.tick.current.kind = .endOfSource := by simpa [sees] using hend
          have hc' : s.tick.current.kind.continuation? = some c := hc
          rw [hkind] at hc'
          cases hc'
        have hlt := left_read_lt hsees
        have hleft₁ : s.tick.read.left ≤ left - 1 := by
          have : s.tick.left = s.left := rfl
          omega
        have hdepth₁ : 2 * (left - 1) + 2 ≤ depth := by
          have : s.tick.left = s.left := rfl
          omega
        have hform := edits_continueExpression (formsAct depth).expression
          ((formsAct depth).arguments 0) c s.tick.read
        have hq₂ := ((formsAct depth).continuations level _).isQuiet hq
        have hs₁ := hs₀.read (hform.isQuiet hq₂)
        have hs₂ := hform.sane hs₁ hq₂
        refine htick.trans <|
          ((passCarries_read 1).carries s.tick hs₀ hs₁.quiet hleft).trans ?_
        refine (carries_continueExpression (fun p => h.expression p _ (Nat.le_of_succ_le hdepth₁))
          ((formsAct depth).arguments 0) (h.arguments 0 _ hdepth₁) c hs₁ hq₂ hleft₁).trans ?_
        exact (h.continuations level _ (Nat.le_of_succ_le hdepth₁)).carries _ hs₂ hq
          (Nat.le_trans hform.left_le hleft₁)
      · next hlevel =>
        rw [if_neg hlevel]
        exact htick

theorem argumentsCarry_succ {depth : Nat} (h : ExpressionsCarry depth)
    (count : Nat) {left : Nat} (hdepth : 2 * left + 2 ≤ depth + 1) :
    ArgumentsCarry left count (arguments (depth + 1) count) := by
  intro s hs hq hleft hcount
  have hs₀ := (Edit.tick s).edits.sane hs hs.quiet
  have htick : Carries s s.tick (count + 1) (count + 1) :=
    ⟨(Edit.tick s).edits.stays hs hs.quiet, fun _ _ _ _ _ _ h => h⟩
  have hedits := (formsAct depth).expression .assignment s.tick
  have hexpr := h.expression .assignment left (Nat.le_of_succ_le_succ hdepth)
  unfold arguments countArgument at hq ⊢
  by_cases hmax : count = maxArguments
  · rw [if_pos hmax] at hq
    dsimp only at hq
    have hcomplain : ((expression depth .assignment s.tick).complain
        .tooManyArguments).IsQuiet := by
      split at hq
      · exact (Edit.read _).isQuiet (((formsAct depth).arguments _ _).isQuiet hq)
      · exact hq
    have hs₁ := hedits.sane hs₀ ((edits_complain ..).isQuiet hcomplain)
    exact absurd hcomplain (not_isQuiet_complain hs₁ _)
  · rw [if_neg hmax] at hq ⊢
    dsimp only at hq ⊢
    split at hq
    · next hcomma =>
      rw [if_pos hcomma]
      have hq₂ := ((formsAct depth).arguments _ _).isQuiet hq
      have hq₁ := (Edit.read _).isQuiet hq₂
      have hs₁ := hedits.sane hs₀ hq₁
      have hs₂ := hs₁.read hq₂
      have hlt : (expression depth .assignment s.tick).read.left <
          (expression depth .assignment s.tick).left := by
        refine left_read_lt fun hend => ?_
        simp only [sees, beq_iff_eq] at hcomma hend
        rw [hcomma] at hend
        cases hend
      have hle : (expression depth .assignment s.tick).left ≤ s.left := hedits.left_le
      obtain ⟨hcarries, hcount'⟩ := h.arguments (count + 1) (left - 1) (by omega) _ hs₂ hq
        (by omega) (by omega)
      refine ⟨htick.trans <| ((hexpr.carries _ hs₀ hq₁ hleft).above (count + 1)).trans ?_,
        hcount'⟩
      exact ((passCarries_read _).carries _ hs₁ hq₂ hle).trans hcarries
    · next hcomma =>
      rw [if_neg hcomma]
      refine ⟨htick.trans ?_, by omega⟩
      exact (hexpr.carries _ hs₀ hq hleft).above (count + 1)

theorem ExpressionsCarry.succ {depth : Nat} (h : ExpressionsCarry depth) :
    ExpressionsCarry (depth + 1) where
  expression level _ hdepth := passCarries_expression_succ h level hdepth
  continuations level _ hdepth := passCarries_continuations_succ h level hdepth
  arguments count _ hdepth := argumentsCarry_succ h count hdepth

/-- The code of each expression leaves one more value, for every bound that is
large enough. -/
theorem expressionsCarry (depth : Nat) : ExpressionsCarry depth := by
  induction depth with
  | zero => constructor <;> intros <;> omega
  | succ depth ih => exact ih.succ

end ScriptEngine.Compile
