import Mathlib.Data.List.Chain
import ScriptEngine.Proofs.Compile.Sane
set_option autoImplicit false

/-!
# Compilation: guarded moves

A compilation goes through points (`Point`): the state of the compiler, and what
has been written to each function under construction, instruction by instruction.
One point leads to the next by a move (`Move`), and a move is made only where the
facts hold that it rests on: a scope that is closed was opened and leaves the
callee in its slot, a jump that is landed was written to the same function, a loop
does not start behind its end, a number that becomes a byte is one, a function
that is left has another one around it.

Whatever went wrong before, a guarded move leads from a point where everything has
its bounds (`Point.Fits`) to another one (`Move.fits`).  None of the moves notes a
defect (`Move.defects`).
-/

namespace ScriptEngine.Compile

/-! ## Instructions as they are written -/

/-- An instruction that was written, with the line that its bytes were given. -/
structure Written where
  op : Opcode
  operands : List UInt8
  line : Nat

namespace Written

/-- The bytes of the instruction. -/
def bytes (w : Written) : List UInt8 := w.op.toByte :: w.operands

/-- The lines of the bytes, which are all the same. -/
def lines (w : Written) : List Nat := List.replicate w.bytes.length w.line

/-- A jump ahead, whose distance is its only operand. -/
def IsJump (w : Written) : Prop :=
  (w.op = .jump ∨ w.op = .jumpIfFalse) ∧ w.operands.length = 1

/-- The instruction has all its operands, given what the pool holds.  They are not more than a
word of 64 bits can count. -/
def IsWhole (constants : Array Value) (w : Written) : Prop :=
  if w.op = .closure then
    ∃ index pairs f, w.operands = index :: pairs ∧
      constants[index.toNat]? = some (.function f) ∧ pairs.length = 2 * f.captureCount ∧
        pairs.length < UInt64.size
  else w.operands.length = w.op.operandBytes

theorem length_lines (w : Written) : w.lines.length = w.bytes.length :=
  List.length_replicate

/-- Constants that are added do not matter to what was written. -/
theorem IsWhole.mono {constants constants' : Array Value} {w : Written}
    (h : w.IsWhole constants)
    (hkeep : ∀ (k : Nat) (v : Value), constants[k]? = some v → constants'[k]? = some v) :
    w.IsWhole constants' := by
  unfold IsWhole at h ⊢
  split
  · next hop =>
    rw [if_pos hop] at h
    obtain ⟨index, pairs, f, hoperands, hf, hlen⟩ := h
    exact ⟨index, pairs, f, hoperands, hkeep _ _ hf, hlen⟩
  · next hop => rwa [if_neg hop] at h

end Written

/-- How much code a row of instructions makes. -/
def sizeOfAll (ws : List Written) : Nat := (ws.flatMap Written.bytes).length

@[simp] theorem sizeOfAll_append (ws vs : List Written) :
    sizeOfAll (ws ++ vs) = sizeOfAll ws + sizeOfAll vs := by
  simp [sizeOfAll]

@[simp] theorem sizeOfAll_cons (w : Written) (ws : List Written) :
    sizeOfAll (w :: ws) = w.bytes.length + sizeOfAll ws := by
  simp [sizeOfAll]

/-- The operand of a jump that is in a row of instructions. -/
def IsJumpIn (ws : List Written) (operand : Nat) : Prop :=
  ∃ before w after, ws = before ++ w :: after ∧ w.IsJump ∧ operand = sizeOfAll before + 1

theorem IsJumpIn.append {ws : List Written} {operand : Nat} (h : IsJumpIn ws operand)
    (more : List Written) : IsJumpIn (ws ++ more) operand := by
  obtain ⟨before, w, after, rfl, hjump, rfl⟩ := h
  exact ⟨before, w, after ++ more, by simp, hjump, rfl⟩

/-- A jump that was written last. -/
theorem isJumpIn_concat (ws : List Written) {w : Written} (h : w.IsJump) :
    IsJumpIn (ws ++ [w]) (sizeOfAll ws + 1) :=
  ⟨ws, w, [], rfl, h, rfl⟩

/-- Filling in the distance of one jump leaves all jumps where they are. -/
theorem IsJumpIn.refill {before after : List Written} {w v : Written} {operand : Nat}
    (h : IsJumpIn (before ++ w :: after) operand) (hop : v.op = w.op)
    (hlen : v.operands.length = w.operands.length) :
    IsJumpIn (before ++ v :: after) operand := by
  obtain ⟨front, u, back, heq, hjump, rfl⟩ := h
  have hsize : v.bytes.length = w.bytes.length := by simp [Written.bytes, hlen]
  rcases List.append_eq_append_iff.mp heq with ⟨between, hfront, hback⟩ | ⟨between, hbefore, hu⟩
  · cases between with
    | nil =>
      cases hback
      refine ⟨before, v, after, rfl, ⟨hop ▸ hjump.1, hlen ▸ hjump.2⟩, ?_⟩
      rw [hfront, List.append_nil]
    | cons x between =>
      obtain ⟨rfl, hafter⟩ := List.cons_eq_cons.mp hback
      refine ⟨before ++ v :: between, u, back, by simp [hafter], hjump, ?_⟩
      simp [hfront, hsize]
  · cases between with
    | nil =>
      cases hu
      refine ⟨before, v, after, rfl, ⟨hop ▸ hjump.1, hlen ▸ hjump.2⟩, ?_⟩
      rw [hbefore, List.append_nil]
    | cons x between =>
      obtain ⟨rfl, hback⟩ := List.cons_eq_cons.mp hu
      refine ⟨front, u, between ++ v :: after, by simp [hbefore], hjump, rfl⟩

/-! ## Points -/

/-- Where a compilation is. -/
structure Point where
  state : State
  /-- What was written to the current function. -/
  written : List Written
  /-- What was written to the functions around it, innermost first. -/
  suspended : List (List Written)

namespace State

/-- Writes an instruction, with the line of the token that was read last. -/
def emit (s : State) (op : Opcode) (operands : List UInt8) : State :=
  operands.foldl appendByte (s.appendOp op)

/-- The distance of a jump that is landed; one that does not fit stays as it is. -/
def landingByte (s : State) (operand : Nat) (old : UInt8) : UInt8 :=
  if s.codeSize - operand - 1 < 256 then (s.codeSize - operand - 1).toUInt8 else old

/-- The distance of a loop; one that does not fit is zero. -/
def loopByte (s : State) (start : Nat) : UInt8 :=
  if s.codeSize + 2 - start < 256 then (s.codeSize + 2 - start).toUInt8 else 0

end State

namespace Point

/-- The same place with another state, in which nothing more is written. -/
def having (p : Point) (t : State) : Point := { p with state := t }

/-- The point with one more instruction, which the state `t` has. -/
def wrote (p : Point) (t : State) (op : Opcode) (operands : List UInt8) : Point :=
  { p with state := t, written := p.written ++ [⟨op, operands, p.state.previous.line⟩] }

end Point

/-- The start of a compilation. -/
def Point.start (firstId : Identity) (tokens : List Token) : Point :=
  ⟨initial firstId tokens, [], []⟩

/-! ## Moves -/

/-- One thing that the compiler does, where it may be done. -/
inductive Move : Point → Point → Prop where
  | tick (p : Point) : Move p (p.having p.state.tick)
  | read (p : Point) : Move p (p.having p.state.read)
  | complain (p : Point) (t : Token) (c : Complaint) : Move p (p.having (p.state.complainAt t c))
  /-- The silence after a mistake ends. -/
  | settle (p : Point) : Move p (p.having { p.state with isRecovering := false })
  | checkpoint (p : Point) : Move p (p.having p.state.checkpoint)
  | emit (p : Point) (op : Opcode) (operands : List UInt8)
      (whole : p.state.IsQuiet → p.state.isRecovering = false →
        Written.IsWhole p.state.builder.chunk.constants ⟨op, operands, p.state.previous.line⟩) :
      Move p (p.wrote (p.state.emit op operands) op operands)
  /-- A jump is landed only if it was written to this function. -/
  | landJump (p : Point) (before after : List Written) (op : Opcode) (old : UInt8) (line : Nat)
      (written : p.written = before ++ ⟨op, [old], line⟩ :: after)
      (jump : op = .jump ∨ op = .jumpIfFalse) :
      Move p { p with
        state := p.state.landJump (sizeOfAll before + 1)
        written := before ++
          ⟨op, [p.state.landingByte (sizeOfAll before + 1) old], line⟩ :: after }
  /-- A loop is closed only behind its start. -/
  | loopBack (p : Point) (start : Nat) (inside : start ≤ p.state.codeSize) :
      Move p (p.wrote (p.state.loopBack start) .loop [p.state.loopByte start])
  | pool (p : Point) (v : Value) : Move p (p.having (p.state.poolConstant v).2)
  | capture (p : Point) (name : String) (found : Captured)
      (h : captureFrom name p.state.builder p.state.around = some found) :
      Move p (p.having { p.state with builder := found.inner, around := found.around })
  | openScope (p : Point) : Move p (p.having p.state.openScope)
  /-- A scope is closed only if one is open, and the oldest local stays. -/
  | closeScope (p : Point) (retired kept : List Local)
      (locals : p.state.builder.locals = retired ++ kept) (depth : 0 < p.state.builder.depth)
      (callee : kept ≠ []) :
      Move p (p.having { p.state with builder := { p.state.builder with
        depth := p.state.builder.depth - 1, locals := kept } })
  | declare (p : Point) (name : String) (room : p.state.builder.locals.length < byteRange) :
      Move p (p.having { p.state with builder := { p.state.builder with
        locals := ⟨name, none, false⟩ :: p.state.builder.locals } })
  /-- The callee is never what is made readable. -/
  | makeReadable (p : Point)
      (declared : p.state.builder.depth ≠ 0 → 2 ≤ p.state.builder.locals.length) :
      Move p (p.having p.state.makeReadable)
  | parameter (p : Point) (room : p.state.builder.arity < maxArguments) :
      Move p (p.having { p.state with builder := { p.state.builder with
        arity := p.state.builder.arity + 1 } })
  | enter (p : Point) (name : String) :
      Move p ⟨p.state.enterFunction name, [], p.written :: p.suspended⟩
  /-- A function is left only for one around it. -/
  | leave (p : Point) (around : p.state.around ≠ []) :
      Move p ⟨p.state.leaveFunction (p.state.builder.finish p.state.nextId),
        p.suspended.headD [], p.suspended.tail⟩

/-- Any number of moves. -/
abbrev Moves : Point → Point → Prop := Relation.ReflTransGen Move

theorem Move.moves {p q : Point} (h : Move p q) : Moves p q := .single h

/-! ## Bounds -/

/-- A function under construction has room for everything that it has, its callee is
in slot 0, and its code is what was written. -/
structure Builder.Fits (b : Builder) (ws : List Written) : Prop where
  locals : b.locals.length ≤ byteRange
  captures : b.captures.length ≤ byteRange
  arity : b.arity ≤ maxArguments
  callee : ∃ l, fromOldest? b.locals 0 = some l ∧ l.name = "" ∧ l.depth = some 0
  code : b.chunk.code.toList = ws.flatMap Written.bytes
  lines : b.chunk.lines.toList = ws.flatMap Written.lines

/-- A capture refers to a local or a capture of the function around. -/
def Capture.InRange (c : Capture) (outer : Builder) : Prop :=
  if c.isLocal then c.index < outer.locals.length else c.index < outer.captures.length

/-- All captures of a function are there in the one around it. -/
def Builder.CapturesFrom (inner outer : Builder) : Prop :=
  ∀ c ∈ inner.captures, Capture.InRange c outer

/-- Everything has its bounds. -/
structure Point.Fits (p : Point) : Prop where
  builders : List.Forall₂ Builder.Fits (p.state.builder :: p.state.around)
    (p.written :: p.suspended)
  captures : (p.state.builder :: p.state.around).IsChain Builder.CapturesFrom

theorem Builder.Fits.size_code {b : Builder} {ws : List Written} (h : b.Fits ws) :
    b.chunk.code.size = sizeOfAll ws := by
  unfold sizeOfAll
  rw [← h.code, Array.length_toList]

/-- A function starts with its callee and no code. -/
theorem fits_start (name : Option String) : (Builder.start name).Fits [] where
  locals := by
    show 1 ≤ byteRange
    decide
  captures := Nat.zero_le _
  arity := Nat.zero_le _
  callee := ⟨.callee, rfl, rfl, rfl⟩
  code := rfl
  lines := rfl

theorem fits_initial (firstId : Identity) (tokens : List Token) :
    (Point.start firstId tokens).Fits where
  builders := .cons (fits_start none) .nil
  captures := .singleton _

namespace Point.Fits

variable {p : Point}

theorem builder (h : p.Fits) : p.state.builder.Fits p.written := by
  cases h.builders with
  | cons hb _ => exact hb

theorem around (h : p.Fits) : List.Forall₂ Builder.Fits p.state.around p.suspended := by
  cases h.builders with
  | cons _ hbs => exact hbs

/-- The bounds only depend on the functions under construction. -/
theorem having (h : p.Fits) {t : State} (hbuilder : t.builder = p.state.builder)
    (haround : t.around = p.state.around) : (p.having t).Fits where
  builders := by
    show List.Forall₂ Builder.Fits (t.builder :: t.around) _
    rw [hbuilder, haround]
    exact h.builders
  captures := by
    show (t.builder :: t.around).IsChain _
    rw [hbuilder, haround]
    exact h.captures

/-- The current function may change as long as it captures the same. -/
theorem withBuilder (h : p.Fits) {t : State} {ws : List Written}
    (hfits : t.builder.Fits ws) (hcaptures : t.builder.captures = p.state.builder.captures)
    (haround : t.around = p.state.around) :
    Point.Fits { p with state := t, written := ws } where
  builders := by
    show List.Forall₂ Builder.Fits (t.builder :: t.around) _
    rw [haround]
    exact .cons hfits h.around
  captures := by
    show (t.builder :: t.around).IsChain _
    rw [haround]
    have hold := h.captures
    cases hrest : p.state.around with
    | nil => exact .singleton _
    | cons outer around =>
      rw [hrest] at hold
      rw [List.isChain_cons_cons] at hold ⊢
      exact ⟨fun c hc => hold.1 c (hcaptures ▸ hc), hold.2⟩

end Point.Fits

/-! ## Captures -/

/-- What a function around another one goes through while that one is compiled. -/
structure Builder.Idles (b b' : Builder) : Prop where
  same : b' = { b with locals := b'.locals, captures := b'.captures }
  locals : b'.locals.length = b.locals.length
  captures : b.captures.length ≤ b'.captures.length

theorem Builder.Idles.refl (b : Builder) : b.Idles b := ⟨rfl, rfl, Nat.le_refl _⟩

theorem Builder.Idles.trans {b₁ b₂ b₃ : Builder} (h : b₁.Idles b₂) (k : b₂.Idles b₃) :
    b₁.Idles b₃ where
  same := by rw [k.same, h.same]
  locals := k.locals.trans h.locals
  captures := Nat.le_trans h.captures k.captures

/-- Functions around another one, each of which goes on in this way. -/
abbrev IdleAll : List Builder → List Builder → Prop := List.Forall₂ Builder.Idles

theorem IdleAll.refl (bs : List Builder) : IdleAll bs bs :=
  List.forall₂_same.mpr fun b _ => .refl b

theorem IdleAll.trans {bs₁ bs₂ bs₃ : List Builder} (h : IdleAll bs₁ bs₂)
    (k : IdleAll bs₂ bs₃) : IdleAll bs₁ bs₃ := by
  induction h generalizing bs₃ with
  | nil => exact k
  | cons hb _ ih =>
    cases k with
    | cons kb krest => exact .cons (hb.trans kb) (ih krest)

theorem Capture.InRange.idle {c : Capture} {outer outer' : Builder}
    (h : Capture.InRange c outer) (hidle : outer.Idles outer') :
    Capture.InRange c outer' := by
  unfold Capture.InRange at h ⊢
  split
  · next hlocal =>
    rw [if_pos hlocal] at h
    rwa [hidle.locals]
  · next hlocal =>
    rw [if_neg hlocal] at h
    exact Nat.lt_of_lt_of_le h hidle.captures

/-- Capturing a local changes neither its name nor its scope. -/
theorem fromOldest_capture_eq (name : String) {ls : List Local} {i : Nat} {l : Local}
    (h : fromOldest? ls i = some l) :
    ∃ l', fromOldest? (capture name ls) i = some l' ∧ l'.name = l.name ∧
      l'.depth = l.depth := by
  have hsame : ∀ ls, List.Forall₂ (fun l' l : Local => l'.name = l.name ∧ l'.depth = l.depth)
      (capture name ls) ls := by
    intro ls
    induction ls with
    | nil => exact .nil
    | cons l ls ih =>
      unfold capture
      split
      · exact .cons ⟨rfl, rfl⟩ (List.forall₂_same.mpr fun _ _ => ⟨rfl, rfl⟩)
      · exact .cons ⟨rfl, rfl⟩ ih
  exact fromOldest_forall₂ (hsame ls) h

/-- Everything about one look-up in the functions around, whatever went wrong
before. -/
structure Traced (current : Builder) (outers : List Builder) (wss : List (List Written))
    (found : Captured) : Prop where
  inner : found.inner = { current with captures := found.inner.captures }
  captures : current.captures.length ≤ found.inner.captures.length
  around : IdleAll outers found.around
  index : found.index < found.inner.captures.length
  fits : List.Forall₂ Builder.Fits (found.inner :: found.around) wss
  chain : (found.inner :: found.around).IsChain Builder.CapturesFrom

theorem Traced.idles {current : Builder} {outers : List Builder} {wss : List (List Written)}
    {found : Captured} (h : Traced current outers wss found) : current.Idles found.inner where
  same := by
    rw [h.inner]
  locals := by
    rw [h.inner]
  captures := h.captures

/-- A function may capture one thing more, unless it has no room. -/
theorem Builder.Fits.withCaptures {b : Builder} {ws : List Written} (h : b.Fits ws)
    {captures : List Capture} (hroom : captures.length ≤ byteRange) :
    Builder.Fits { b with captures } ws where
  locals := h.locals
  captures := hroom
  arity := h.arity
  callee := h.callee
  code := h.code
  lines := h.lines

theorem Builder.Fits.withLocals {b : Builder} {ws : List Written} (h : b.Fits ws)
    {locals : List Local} (hroom : locals.length ≤ byteRange)
    (hcallee : ∃ l, fromOldest? locals 0 = some l ∧ l.name = "" ∧ l.depth = some 0)
    (depth : Nat) : Builder.Fits { b with locals, depth } ws where
  locals := hroom
  captures := h.captures
  arity := h.arity
  callee := hcallee
  code := h.code
  lines := h.lines

/-- A local that is captured stays where it is. -/
theorem Builder.Fits.capture {b : Builder} {ws : List Written} (h : b.Fits ws)
    (name : String) : Builder.Fits { b with locals := Compile.capture name b.locals } ws := by
  refine h.withLocals ?_ ?_ b.depth
  · rw [length_locals_capture]
    exact h.locals
  · obtain ⟨l, hl, hname, hdepth⟩ := h.callee
    obtain ⟨l', hl', hname', hdepth'⟩ := fromOldest_capture_eq name hl
    exact ⟨l', hl', hname'.trans hname, hdepth'.trans hdepth⟩

theorem traced_captureIn {current outer outer' : Builder} {outers outers' : List Builder}
    {ws : List Written} {wss : List (List Written)} {c : Capture} {isFull : Bool}
    (hfits : current.Fits ws) (hfits' : List.Forall₂ Builder.Fits (outer' :: outers') wss)
    (hidle : IdleAll (outer :: outers) (outer' :: outers'))
    (hchain : (outer' :: outers').IsChain Builder.CapturesFrom)
    (hcaptures : current.CapturesFrom outer) (hc : Capture.InRange c outer') :
    Traced current (outer :: outers) (ws :: wss)
      (captureIn current (outer' :: outers') c isFull) := by
  have houter : outer.Idles outer' := by
    cases hidle with
    | cons h _ => exact h
  have hkeep : current.CapturesFrom outer' := fun c' hc' => (hcaptures c' hc').idle houter
  unfold captureIn
  split
  · next i inner hadd =>
    unfold Builder.addCapture? at hadd
    split at hadd
    · next hi =>
      cases hadd
      exact ⟨rfl, Nat.le_refl _, hidle, (List.findIdx?_eq_some_iff_findIdx_eq.mp hi).1,
        .cons hfits hfits', List.isChain_cons_cons.mpr ⟨hkeep, hchain⟩⟩
    · split at hadd
      · cases hadd
      · next hroom =>
        cases hadd
        have hlen := hfits.captures
        refine ⟨rfl, ?_, hidle, ?_, .cons (hfits.withCaptures ?_) hfits',
          List.isChain_cons_cons.mpr ⟨fun c' hc' => ?_, hchain⟩⟩
        · simp
        · simp
        · rw [List.length_append, List.length_singleton]
          omega
        · rcases List.mem_append.mp hc' with hold | hnew
          · exact hkeep c' hold
          · rw [List.mem_singleton.mp hnew]
            exact hc
  · next hadd =>
    refine ⟨rfl, Nat.le_refl _, hidle, ?_, .cons hfits hfits',
      List.isChain_cons_cons.mpr ⟨hkeep, hchain⟩⟩
    -- without room there are as many captures as a byte can tell apart
    unfold Builder.addCapture? at hadd
    split at hadd
    · cases hadd
    · split at hadd
      · next hfull =>
        show 0 < current.captures.length
        rw [hfull]
        decide
      · cases hadd

theorem traced_captureFrom {name : String} {outers : List Builder} :
    ∀ {current : Builder} {wss : List (List Written)} {found : Captured},
      captureFrom name current outers = some found →
      List.Forall₂ Builder.Fits (current :: outers) wss →
      (current :: outers).IsChain Builder.CapturesFrom →
      Traced current outers wss found := by
  induction outers with
  | nil => intro current wss found h _ _; cases h
  | cons outer outers ih =>
    intro current wss found h hfits hchain
    cases hfits with
    | @cons _ ws _ wss hcurrent hrest =>
    obtain ⟨hcaptures, hchain⟩ := List.isChain_cons_cons.mp hchain
    unfold captureFrom at h
    split at h
    · next slot l hslot =>
      cases h
      cases hrest with
      | cons houter houters =>
      have hidle : outer.Idles { outer with locals := capture name outer.locals } :=
        ⟨rfl, length_locals_capture .., Nat.le_refl _⟩
      refine traced_captureIn hcurrent (.cons (houter.capture name) houters)
        (.cons hidle (IdleAll.refl _)) ?_ hcaptures ?_
      · cases outers with
        | nil => exact .singleton _
        | cons next outers =>
          obtain ⟨hfirst, hnext⟩ := List.isChain_cons_cons.mp hchain
          exact List.isChain_cons_cons.mpr ⟨hfirst, hnext⟩
      · refine (if_pos rfl).mpr ?_
        show slot < (capture name outer.locals).length
        rw [length_locals_capture]
        exact slotOf_lt hslot
    · obtain ⟨found', hfound', rfl⟩ := Option.map_eq_some_iff.mp h
      have hf := ih hfound' hrest hchain
      exact traced_captureIn hcurrent hf.fits (.cons hf.idles hf.around) hf.chain hcaptures
        ((if_neg (by simp)).mpr hf.index)

/-! ## Moves keep to the bounds -/

namespace State

/-- Bytes are written behind the code, all with one line. -/
theorem appendBytes_eq (bytes : List UInt8) (s : State) :
    bytes.foldl appendByte s = { s with builder := { s.builder with chunk :=
      { s.builder.chunk with
        code := s.builder.chunk.code ++ bytes.toArray
        lines := s.builder.chunk.lines ++
          (List.replicate bytes.length s.previous.line).toArray } } } := by
  induction bytes generalizing s with
  | nil => simp
  | cons b bytes ih =>
    rw [List.foldl_cons, ih]
    simp [appendByte, Chunk.append, List.replicate_succ, -List.toArray_replicate]

/-- An instruction is written behind the code. -/
theorem emit_eq (s : State) (op : Opcode) (operands : List UInt8) :
    s.emit op operands = { s with builder := { s.builder with
      chunk := { s.builder.chunk with
        code := s.builder.chunk.code ++ (op.toByte :: operands).toArray
        lines := s.builder.chunk.lines ++
          (List.replicate (operands.length + 1) s.previous.line).toArray }
      lastOp := some op } } := by
  unfold emit
  rw [appendBytes_eq]
  simp [appendOp, appendByte, withLastOp, Chunk.append, List.replicate_succ,
    -List.toArray_replicate]

end State

/-- A function fits what was written with one instruction more. -/
theorem Builder.Fits.emit {s : State} {ws : List Written} (h : s.builder.Fits ws)
    (op : Opcode) (operands : List UInt8) :
    (s.emit op operands).builder.Fits (ws ++ [⟨op, operands, s.previous.line⟩]) := by
  rw [State.emit_eq]
  refine ⟨h.locals, h.captures, h.arity, h.callee, ?_, ?_⟩
  · simp [h.code, Written.bytes]
  · simp [h.lines, Written.lines, Written.bytes]

namespace State

section Untouched

variable (s : State) (t : Token) (c : Complaint)

@[simp] theorem builder_complainAt : (s.complainAt t c).builder = s.builder := by
  unfold complainAt
  split <;> rfl

@[simp] theorem around_complainAt : (s.complainAt t c).around = s.around := by
  unfold complainAt
  split <;> rfl

@[simp] theorem defects_complainAt : (s.complainAt t c).defects = s.defects := by
  unfold complainAt
  split <;> rfl

/-- Reading changes nothing but the tokens, the work and what was reported. -/
theorem pull_keeps (ts : List Token) : (s.pull ts).builder = s.builder ∧
    (s.pull ts).around = s.around ∧ (s.pull ts).defects = s.defects := by
  induction ts generalizing s with
  | nil => exact ⟨rfl, rfl, rfl⟩
  | cons t ts ih =>
    unfold pull
    split
    · obtain ⟨hbuilder, haround, hdefects⟩ := ih (s.tick.complainAt t (.noToken t.lexeme))
      rw [hbuilder, haround, hdefects]
      exact ⟨builder_complainAt .., around_complainAt .., defects_complainAt ..⟩
    · exact ⟨rfl, rfl, rfl⟩

theorem read_keeps : s.read.builder = s.builder ∧ s.read.around = s.around ∧
    s.read.defects = s.defects :=
  s.tick.pull_keeps s.rest

end Untouched

/-- A jump of the code is landed by filling in its distance, if it fits. -/
theorem landJump_keeps (s : State) {operand : Nat} {old : UInt8}
    (hold : s.builder.chunk.code[operand]? = some old) :
    (s.landJump operand).builder = { s.builder with
      chunk := { s.builder.chunk with
        code := s.builder.chunk.code.setIfInBounds operand (s.landingByte operand old) }
      lastOp := none } ∧
    (s.landJump operand).around = s.around ∧ (s.landJump operand).defects = s.defects := by
  obtain ⟨hlt, hbyte⟩ := Array.getElem?_eq_some_iff.mp hold
  have hguard : s.guarantee (operand < s.codeSize) .landedNoJump = s :=
    if_pos (decide_eq_true hlt)
  unfold landJump landingByte
  rw [hguard]
  unfold Chunk.landJump Chunk.distanceByte codeSize
  dsimp only
  by_cases hfits : s.builder.chunk.code.size - operand - 1 < 256
  · rw [if_pos hfits, if_pos hfits]
    exact ⟨rfl, rfl, rfl⟩
  · rw [if_neg hfits, if_neg hfits]
    refine ⟨?_, around_complainAt .., defects_complainAt ..⟩
    have hsame : s.builder.chunk.code.setIfInBounds operand old = s.builder.chunk.code := by
      rw [Array.setIfInBounds, dif_pos hlt, ← hbyte, Array.set_getElem_self]
    rw [hsame]
    simp [complain, withLastOp]

/-- A loop is closed by a jump back with its distance, if it fits. -/
theorem loopBack_keeps (s : State) {start : Nat} (hstart : start ≤ s.codeSize) :
    (s.loopBack start).builder = (s.emit .loop [s.loopByte start]).builder ∧
    (s.loopBack start).around = s.around ∧ (s.loopBack start).defects = s.defects := by
  have hguard : s.guarantee (start ≤ s.codeSize) .loopStartsLate = s :=
    if_pos (decide_eq_true hstart)
  unfold loopBack loopByte
  rw [hguard]
  unfold Chunk.loopBack Chunk.distanceByte codeSize
  dsimp only
  by_cases hfits : s.builder.chunk.code.size + 2 - start < 256
  · rw [if_pos hfits, if_pos hfits]
    exact ⟨rfl, rfl, rfl⟩
  · rw [if_neg hfits, if_neg hfits]
    refine ⟨?_, around_complainAt .., defects_complainAt ..⟩
    rw [complain, builder_complainAt]
    rfl

/-- A constant is added to the pool, also where its index does not fit. -/
theorem poolConstant_keeps (s : State) (v : Value) :
    (s.poolConstant v).2.builder = { s.builder with chunk := { s.builder.chunk with
      constants := s.builder.chunk.constants.push v } } ∧
    (s.poolConstant v).2.around = s.around ∧
    (s.poolConstant v).2.defects = s.defects ∧ (s.poolConstant v).1 < byteRange := by
  unfold poolConstant
  dsimp only
  split
  · next hlt => exact ⟨rfl, rfl, rfl, hlt⟩
  · exact ⟨builder_complainAt .., around_complainAt .., defects_complainAt .., Nat.zero_lt_succ _⟩

theorem makeReadable_keeps (s : State) :
    s.makeReadable.around = s.around ∧ s.makeReadable.defects = s.defects := by
  unfold makeReadable
  split <;> exact ⟨rfl, rfl⟩

end State

/-- A function fits what was written after one of its jumps is landed. -/
theorem Builder.Fits.landJump {s : State} {before after : List Written} {op : Opcode}
    {old : UInt8} {line : Nat} (h : s.builder.Fits (before ++ ⟨op, [old], line⟩ :: after)) :
    s.builder.chunk.code[sizeOfAll before + 1]? = some old ∧
      ∀ byte, Builder.Fits { s.builder with
        chunk := { s.builder.chunk with
          code := s.builder.chunk.code.setIfInBounds (sizeOfAll before + 1) byte }
        lastOp := none } (before ++ ⟨op, [byte], line⟩ :: after) := by
  have hcode := h.code
  constructor
  · rw [← Array.getElem?_toList, hcode]
    simp [sizeOfAll, Written.bytes]
  · intro byte
    refine ⟨h.locals, h.captures, h.arity, h.callee, ?_, ?_⟩
    · show (s.builder.chunk.code.setIfInBounds _ byte).toList = _
      rw [Array.toList_setIfInBounds, hcode]
      simp [sizeOfAll, Written.bytes]
    · simpa [Written.lines, Written.bytes] using h.lines

/-- The newest local but the callee is made readable. -/
theorem Builder.Fits.makeReadable {s : State} {ws : List Written} (h : s.builder.Fits ws)
    (hdeclared : s.builder.depth ≠ 0 → 2 ≤ s.builder.locals.length) :
    s.makeReadable.builder.Fits ws := by
  unfold State.makeReadable
  split
  · exact h
  · exact h
  · next l older hlocals hdepth =>
    have hlen := hdeclared (fun hzero => hdepth hzero)
    obtain ⟨callee, hcallee, hrest⟩ := h.callee
    have hroom := h.locals
    rw [hlocals] at hlen hcallee hroom
    rw [List.length_cons] at hlen
    have hkeep : fromOldest? ({ l with depth := some s.builder.depth } :: older) 0 =
        some callee := by
      rwa [fromOldest_cons_of_lt (by omega)] at hcallee ⊢
    have hroom' : ({ l with depth := some s.builder.depth } :: older).length ≤ byteRange := hroom
    exact h.withLocals hroom' ⟨callee, hkeep, hrest⟩ s.builder.depth

/-- A guarded move leads from bounds to bounds. -/
theorem Move.fits {p q : Point} (h : Move p q) (hp : p.Fits) : q.Fits := by
  have hb := hp.builder
  cases h with
  | tick | settle => exact hp.having rfl rfl
  | read => exact hp.having p.state.read_keeps.1 p.state.read_keeps.2.1
  | complain => exact hp.having (State.builder_complainAt ..) (State.around_complainAt ..)
  | checkpoint =>
    exact hp.withBuilder ⟨hb.locals, hb.captures, hb.arity, hb.callee, hb.code, hb.lines⟩ rfl rfl
  | emit op operands =>
    have heq := State.emit_eq p.state op operands
    exact hp.withBuilder (hb.emit op operands) (by rw [heq]) (by rw [heq])
  | landJump before after op old line hw hjump =>
    rw [hw] at hb
    obtain ⟨hold, hfits⟩ := hb.landJump
    obtain ⟨hbuilder, haround, -⟩ := p.state.landJump_keeps hold
    refine hp.withBuilder ?_ ?_ haround
    · rw [hbuilder]
      exact hfits _
    · rw [hbuilder]
  | loopBack start inside =>
    obtain ⟨hbuilder, haround, -⟩ := p.state.loopBack_keeps inside
    refine hp.withBuilder ?_ ?_ haround
    · rw [hbuilder]
      exact hb.emit _ _
    · rw [hbuilder, State.emit_eq]
  | pool v =>
    obtain ⟨hbuilder, haround, -⟩ := p.state.poolConstant_keeps v
    refine hp.withBuilder ?_ ?_ haround
    · rw [hbuilder]
      exact ⟨hb.locals, hb.captures, hb.arity, hb.callee, hb.code, hb.lines⟩
    · rw [hbuilder]
  | capture name found hfound =>
    have htraced := traced_captureFrom hfound hp.builders hp.captures
    exact ⟨htraced.fits, htraced.chain⟩
  | openScope => exact hp.withBuilder (hb.withLocals hb.locals hb.callee _) rfl rfl
  | closeScope retired kept hlocals hdepth hkept =>
    have hroom := hb.locals
    obtain ⟨l, hl, hrest⟩ := hb.callee
    rw [hlocals] at hroom hl
    rw [fromOldest_append (List.length_pos_of_ne_nil hkept)] at hl
    refine hp.withBuilder (hb.withLocals ?_ ⟨l, hl, hrest⟩ _) rfl rfl
    rw [List.length_append] at hroom
    omega
  | declare name hroom =>
    obtain ⟨l, hl, hrest⟩ := hb.callee
    have hkeep : fromOldest? (⟨name, none, false⟩ :: p.state.builder.locals) 0 = some l := by
      rwa [fromOldest_cons_of_lt (lt_of_fromOldest hl)]
    have hlen : (⟨name, none, false⟩ :: p.state.builder.locals).length ≤ byteRange := hroom
    exact hp.withBuilder (hb.withLocals hlen ⟨l, hkeep, hrest⟩ p.state.builder.depth) rfl rfl
  | makeReadable hdeclared =>
    refine hp.withBuilder (hb.makeReadable hdeclared) ?_ p.state.makeReadable_keeps.1
    unfold State.makeReadable
    split <;> rfl
  | parameter hroom =>
    exact hp.withBuilder ⟨hb.locals, hb.captures, hroom, hb.callee, hb.code, hb.lines⟩ rfl rfl
  | enter name =>
    exact ⟨.cons (fits_start _) hp.builders,
      List.isChain_cons_cons.mpr ⟨fun c hc => absurd hc List.not_mem_nil, hp.captures⟩⟩
  | leave hne =>
    have haround := hp.around
    have hchain := hp.captures
    constructor
    all_goals unfold State.leaveFunction
    all_goals
      cases houters : p.state.around with
      | nil => exact absurd houters hne
      | cons outer outers => ?_
    · rw [houters] at haround
      generalize p.suspended = wss at haround
      cases haround with
      | cons hfits hrest => exact .cons hfits hrest
    · rw [houters] at hchain
      exact (List.isChain_cons_cons.mp hchain).2

/-- Bounds hold at every point that moves lead to. -/
theorem Moves.fits {p q : Point} (h : Moves p q) (hp : p.Fits) : q.Fits := by
  induction h with
  | refl => exact hp
  | tail _ move ih => exact move.fits ih

/-- A guarded move notes no defect. -/
theorem Move.defects {p q : Point} (h : Move p q) (hp : p.Fits) :
    q.state.defects = p.state.defects := by
  cases h with
  | read => exact p.state.read_keeps.2.2
  | complain => exact State.defects_complainAt ..
  | emit op operands =>
    show (p.state.emit op operands).defects = _
    rw [State.emit_eq]
  | landJump before after op old line hw hjump =>
    have hb := hp.builder
    rw [hw] at hb
    exact (p.state.landJump_keeps hb.landJump.1).2.2
  | loopBack start inside => exact (p.state.loopBack_keeps inside).2.2
  | pool v => exact (p.state.poolConstant_keeps v).2.2.1
  | makeReadable => exact p.state.makeReadable_keeps.2
  | _ => rfl

theorem Moves.defects {p q : Point} (h : Moves p q) (hp : p.Fits) :
    q.state.defects = p.state.defects := by
  induction h with
  | refl => rfl
  | tail hmoves move ih => exact (move.defects (Moves.fits hmoves hp)).trans ih

end ScriptEngine.Compile
