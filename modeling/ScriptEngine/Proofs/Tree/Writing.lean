import ScriptEngine.Proofs.Compile.ProgramDerivation
import ScriptEngine.Proofs.Tree.Code
set_option autoImplicit false

/-!
# Compiling program trees: what is written

As long as nothing is reported, compiling reads the words ahead and writes bytes behind
the code.  `Faces` says what the compiler has before it, and `Wrote` that it got
somewhere and which bytes it wrote.  Both are stated with all the words that are still ahead, so
that they compose: `Wrote.append` puts two pieces of code one after the other, and
`wrote_jump` and `wrote_branches` put one behind a jump that is landed later.

A program ends without a return of its own unless the last opcode is one.  `Adds` keeps
track of that by a proposition that holds where a `return` was written.
-/

namespace ScriptEngine.Compile

open State ScriptEngine.Tree

/-! ## Words ahead -/

/-- The tokens that are not read yet, without their places. -/
def State.spelled (s : State) : List Word := s.upcoming.map wordOf

theorem State.spelled_of_upcoming {s t : State} (h : t.upcoming = s.upcoming) :
    t.spelled = s.spelled :=
  congrArg (List.map wordOf) h

/-! ## What the compiler has before it -/

/-- What is declared where code is written. -/
structure Setting where
  /-- Newest first. -/
  locals : List Local
  /-- How many scopes are open. -/
  depth : Nat

/-- The compiler has some words ahead and is outside all functions. -/
structure Faces (here : Setting) (ws : List Word) (s : State) : Prop where
  inOrder : s.InOrder
  around : s.around = []
  locals : s.builder.locals = here.locals
  depth : s.builder.depth = here.depth
  spelled : s.spelled = ws

section Faces

variable {here : Setting} {w : Word} {ws : List Word} {s t : State}

/-- This depends on the words and on what is declared. -/
theorem Faces.of_edits (hs : Faces here ws s) (h : Edits s t) (hq : t.IsQuiet)
    (haround : t.around = s.around) (hlocals : t.builder.locals = s.builder.locals)
    (hdepth : t.builder.depth = s.builder.depth) (hupcoming : t.upcoming = s.upcoming) :
    Faces here ws t where
  inOrder := h.inOrder hs.inOrder hq
  around := haround.trans hs.around
  locals := hlocals.trans hs.locals
  depth := hdepth.trans hs.depth
  spelled := (spelled_of_upcoming hupcoming).trans hs.spelled

theorem Faces.kind (hs : Faces here (w :: ws) s) : s.current.kind = w.kind := by
  have hcurrent : wordOf s.current = w := (List.cons.inj hs.spelled).1
  rw [← hcurrent]
  rfl

theorem Faces.sees (hs : Faces here (w :: ws) s) (k : TokenKind) :
    s.sees k = (w.kind == k) := by
  unfold State.sees
  rw [hs.kind]

theorem Faces.tick (hs : Faces here ws s) : Faces here ws s.tick :=
  hs.of_edits (Edit.tick s).edits hs.inOrder.quiet rfl rfl rfl rfl

theorem Faces.checkpoint (hs : Faces here ws s) : Faces here ws s.checkpoint where
  inOrder := (Action.checkpoint s).inOrder hs.inOrder hs.inOrder.quiet
  around := hs.around
  locals := hs.locals
  depth := hs.depth
  spelled := hs.spelled

theorem Faces.read (hs : Faces here (w :: ws) s) (hw : w.kind ≠ .endOfSource)
    (hq : s.read.IsQuiet) : Faces here ws s.read := by
  have hupcoming := hs.inOrder.upcoming_read hq (by rwa [hs.kind])
  obtain ⟨t, rest, heq, -⟩ := read_eq hs.inOrder.toSane hq
  refine ⟨hs.inOrder.read hq, ?_, ?_, ?_, ?_⟩
  · rw [heq]
    exact hs.around
  · rw [heq]
    exact hs.locals
  · rw [heq]
    exact hs.depth
  · have hspelled := hs.spelled
    unfold State.spelled at hspelled ⊢
    rw [hupcoming] at hspelled
    exact (List.cons.inj hspelled).2

/-- The word that was read is known by its text. -/
theorem Faces.previous (hs : Faces here (w :: ws) s) : wordOf s.read.previous = w :=
  (List.cons.inj hs.spelled).1

end Faces

/-! ## Bytes behind the code -/

/-- One state comes from another one by writing code.  A `return` is only written where
`returns` holds. -/
structure Adds (returns : Prop) (s t : State) (bytes : List UInt8) : Prop where
  code : t.builder.chunk.code.toList = s.builder.chunk.code.toList ++ bytes
  pool : ∀ (k : Nat) (v : Value), s.builder.chunk.constants[k]? = some v →
    t.builder.chunk.constants[k]? = some v
  last : t.builder.lastOp = some .return → s.builder.lastOp = some .return ∨ returns

section Adds

variable {returns : Prop} {s t u : State} {bytes bytes' : List UInt8}

theorem Adds.trans (h : Adds returns s t bytes) (k : Adds returns t u bytes') :
    Adds returns s u (bytes ++ bytes') where
  code := by rw [k.code, h.code, List.append_assoc]
  pool i v hv := k.pool i v (h.pool i v hv)
  last hreturn := (k.last hreturn).elim h.last .inr

theorem Adds.mono {returns' : Prop} (h : Adds returns s t bytes) (himp : returns → returns') :
    Adds returns' s t bytes :=
  ⟨h.code, h.pool, fun hreturn => (h.last hreturn).imp_right himp⟩

/-- What was returned before does not matter behind another opcode. -/
theorem Adds.reset {returns' : Prop} (h : Adds returns s t bytes)
    (hlast : t.builder.lastOp ≠ some .return) : Adds returns' s t bytes :=
  ⟨h.code, h.pool, fun hreturn => absurd hreturn hlast⟩

/-- Nothing is added where the code, its constants and the last opcode stay. -/
theorem adds_nil (hchunk : t.builder.chunk = s.builder.chunk)
    (hlast : t.builder.lastOp = s.builder.lastOp) : Adds returns s t [] where
  code := by rw [hchunk, List.append_nil]
  pool _ _ hv := by rwa [hchunk]
  last hreturn := .inl (hlast ▸ hreturn)

/-- Behind which byte the code of the second state goes on. -/
theorem Adds.codeSize (h : Adds returns s t bytes) :
    t.codeSize = s.codeSize + bytes.length := by
  have hlen := congrArg List.length h.code
  rwa [List.length_append] at hlen

theorem adds_read (hs : s.InOrder) (hq : s.read.IsQuiet) : Adds returns s s.read [] := by
  have hbuilder := builder_read hs.toSane hq
  exact adds_nil (congrArg Builder.chunk hbuilder) (congrArg Builder.lastOp hbuilder)

theorem adds_appendOp (s : State) {op : Opcode} (hop : op = .return → returns) :
    Adds returns s (s.appendOp op) [op.toByte] where
  code := Array.toList_push
  pool _ _ hv := hv
  last hreturn := .inr (hop (Option.some.inj hreturn))

theorem adds_appendNumber (s : State) (n : Nat) :
    Adds returns s (s.appendNumber n) [n.toUInt8] := by
  have hbuilder : (s.guarantee (n < byteRange) .byteOverflow).builder = s.builder :=
    builder_guarantee ..
  have hbefore : Adds returns s (s.guarantee (n < byteRange) .byteOverflow) [] :=
    adds_nil (congrArg Builder.chunk hbuilder) (congrArg Builder.lastOp hbuilder)
  exact hbefore.trans ⟨Array.toList_push, fun _ _ hv => hv, .inl⟩

theorem adds_appendWith (s : State) {op : Opcode} (hop : op ≠ .return) (n : Nat) :
    Adds returns s (s.appendWith op n) [op.toByte, n.toUInt8] :=
  (adds_appendOp s fun h => absurd h hop).trans (adds_appendNumber _ n)

theorem adds_openJump (s : State) (op : Opcode) (hop : op ≠ .return) :
    Adds returns s (s.openJump op).2 [op.toByte, 0xff] where
  code := by
    show ((s.builder.chunk.code.push op.toByte).push 0xff).toList = _
    rw [Array.toList_push, Array.toList_push, List.append_assoc]
    rfl
  pool _ _ hv := hv
  last hreturn := absurd (Option.some.inj hreturn) hop

/-- A jump is landed by filling in how far it goes. -/
theorem adds_landJump {returns' : Prop} {op : Opcode} {before after : List UInt8}
    (h : Adds returns s t (before ++ [op.toByte, 0xff] ++ after)) (ht : t.InOrder)
    {operand : Nat} (hoperand : operand = s.codeSize + before.length + 1)
    (hq : (t.landJump operand).IsQuiet) :
    ∃ d : UInt8, d.toNat = after.length ∧
      Adds returns' s (t.landJump operand) (before ++ [op.toByte, d] ++ after) := by
  obtain ⟨d, defects, hd, heq⟩ := landJump_eq ht.toSane hq
  have hsize := h.codeSize
  simp only [List.length_append, List.length_cons, List.length_nil] at hsize
  refine ⟨d, by omega, ?_⟩
  rw [heq]
  refine ⟨?_, h.pool, nofun⟩
  show (t.builder.chunk.code.setIfInBounds operand d).toList = _
  rw [Array.toList_setIfInBounds, h.code]
  have hindex : operand = (s.builder.chunk.code.toList ++ before ++ [op.toByte]).length := by
    rw [hoperand]
    simp [State.codeSize]
    omega
  rw [hindex]
  simp

/-- A loop goes back to where it started. -/
theorem adds_loopBack (returns : Prop) (hs : s.InOrder) {start : Nat}
    (hq : (s.loopBack start).IsQuiet) :
    ∃ d : UInt8, d.toNat = s.codeSize + 2 - start ∧
      Adds returns s (s.loopBack start) [Opcode.loop.toByte, d] ∧
      (s.loopBack start).builder.lastOp = some .loop := by
  obtain ⟨d, defects, hd, heq⟩ := loopBack_eq hs.toSane hq
  refine ⟨d, hd, ?_⟩
  rw [heq]
  refine ⟨⟨?_, fun _ _ hv => hv, nofun⟩, rfl⟩
  show ((s.builder.chunk.code.push Opcode.loop.toByte).push d).toList = _
  rw [Array.toList_push, Array.toList_push, List.append_assoc]
  rfl

end Adds

/-! ## Code of a certain sort -/

/-- The pool has the constants of the current function. -/
def Includes (pool : Array Value) (s : State) : Prop :=
  ∀ (k : Nat) (v : Value), s.builder.chunk.constants[k]? = some v → pool[k]? = some v

/-- A sort of code, which depends on the constants. -/
abbrev CodeSort : Type := Array Value → List UInt8 → Prop

/-- Code of one sort with code of another one behind it. -/
def CodeSort.append (A B : CodeSort) : CodeSort := fun pool bytes =>
  ∃ a b, A pool a ∧ B pool b ∧ bytes = a ++ b

/-- Just these bytes. -/
def CodeSort.exactly (bytes : List UInt8) : CodeSort := fun _ bytes' => bytes' = bytes

/-- Code of a certain sort was written, and some words are ahead. -/
structure Wrote (returns : Prop) (here : Setting) (IsCode : CodeSort) (rest : List Word)
    (s t : State) : Prop where
  faces : Faces here rest t
  code : ∃ bytes, Adds returns s t bytes ∧ ∀ pool, Includes pool t → IsCode pool bytes

/-- What a pass writes while it reads the words before `rest`. -/
def PassWrites (returns : Prop) (here here' : Setting) (ws rest : List Word) (IsCode : CodeSort)
    (pass : Pass) : Prop :=
  ∀ s, Faces here ws s → (pass s).IsQuiet → Wrote returns here' IsCode rest s (pass s)

section Wrote

variable {returns : Prop} {here here' : Setting} {A B : CodeSort} {w : Word} {ws ws' : List Word}
  {s t u : State}

theorem includes_refl (s : State) : Includes s.builder.chunk.constants s := fun _ _ hv => hv

theorem Includes.of_adds {pool : Array Value} {bytes : List UInt8} (h : Includes pool t)
    (hadds : Adds returns s t bytes) : Includes pool s :=
  fun k v hv => h k v (hadds.pool k v hv)

theorem Wrote.imp (h : Wrote returns here A ws s t) (himp : ∀ pool bytes, A pool bytes →
    B pool bytes) : Wrote returns here B ws s t := by
  obtain ⟨bytes, hadds, hcode⟩ := h.code
  exact ⟨h.faces, bytes, hadds, fun pool hpool => himp pool bytes (hcode pool hpool)⟩

theorem Wrote.mono {returns' : Prop} (h : Wrote returns here A ws s t)
    (himp : returns → returns') : Wrote returns' here A ws s t := by
  obtain ⟨bytes, hadds, hcode⟩ := h.code
  exact ⟨h.faces, bytes, hadds.mono himp, hcode⟩

theorem PassWrites.imp {pass : Pass} (h : PassWrites returns here here' ws ws' A pass)
    (himp : ∀ pool bytes, A pool bytes → B pool bytes) :
    PassWrites returns here here' ws ws' B pass :=
  fun s hs hq => (h s hs hq).imp himp

theorem Wrote.append (h : Wrote returns here A ws s t) (k : Wrote returns here' B ws' t u) :
    Wrote returns here' (A.append B) ws' s u := by
  obtain ⟨a, hadds, ha⟩ := h.code
  obtain ⟨b, hadds', hb⟩ := k.code
  exact ⟨k.faces, a ++ b, hadds.trans hadds', fun pool hpool =>
    ⟨a, b, ha pool (hpool.of_adds hadds'), hb pool hpool, rfl⟩⟩

/-- Nothing is written before code. -/
theorem Wrote.after (h : Wrote returns here A ws t u) (hadds : Adds returns s t []) :
    Wrote returns here A ws s u := by
  obtain ⟨a, hadds', ha⟩ := h.code
  exact ⟨h.faces, a, hadds.trans hadds', ha⟩

/-- Nothing is written behind code. -/
theorem Wrote.before (h : Wrote returns here A ws s t) (hadds : Adds returns t u [])
    (hfaces : Faces here' ws' u) : Wrote returns here' A ws' s u := by
  obtain ⟨a, hadds', ha⟩ := h.code
  refine ⟨hfaces, a, ?_, fun pool hpool => ha pool (hpool.of_adds hadds)⟩
  simpa using hadds'.trans hadds

theorem Wrote.tick (h : Wrote returns here A ws s t) : Wrote returns here A ws s t.tick :=
  have hadds : Adds returns t t.tick [] := adds_nil rfl rfl
  h.before hadds h.faces.tick

theorem Wrote.checkpoint (h : Wrote returns here A ws s t) :
    Wrote returns here A ws s t.checkpoint :=
  have hadds : Adds returns t t.checkpoint [] := adds_nil rfl rfl
  h.before hadds h.faces.checkpoint

theorem wrote_nil (hs : Faces here ws s) : Wrote returns here (.exactly []) ws s s :=
  ⟨hs, [], adds_nil rfl rfl, fun _ _ => rfl⟩

theorem Faces.appendOp (hs : Faces here ws s) (op : Opcode) : Faces here ws (s.appendOp op) :=
  hs.of_edits (edits_appendOp s op) hs.inOrder.quiet rfl rfl rfl rfl

theorem wrote_appendOp (hs : Faces here ws s) {op : Opcode} (hop : op = .return → returns) :
    Wrote returns here (.exactly [op.toByte]) ws s (s.appendOp op) where
  faces := hs.appendOp op
  code := ⟨[op.toByte], adds_appendOp s hop, fun _ _ => rfl⟩

theorem wrote_appendOps (ops : List Opcode) (hops : ∀ op ∈ ops, op ≠ .return)
    (hs : Faces here ws s) : Wrote returns here (.exactly (ops.map Opcode.toByte)) ws s
      (ops.foldl appendOp s) := by
  induction ops generalizing s with
  | nil => exact wrote_nil hs
  | cons op ops ih =>
    obtain ⟨hop, hlater⟩ := List.forall_mem_cons.mp hops
    have hfirst : Wrote returns here _ ws s (s.appendOp op) :=
      wrote_appendOp hs fun h => absurd h hop
    refine (hfirst.append (ih hlater hfirst.faces)).imp fun pool bytes hcode => ?_
    obtain ⟨a, b, rfl, rfl, rfl⟩ := hcode
    rfl

theorem Faces.appendWith (hs : Faces here ws s) (op : Opcode) (n : Nat)
    (hq : (s.appendWith op n).IsQuiet) : Faces here ws (s.appendWith op n) := by
  have haround : (s.appendWith op n).around = s.around := by
    unfold State.appendWith appendNumber guarantee
    split <;> rfl
  have hbuilder : (s.appendWith op n).builder.locals = s.builder.locals ∧
      (s.appendWith op n).builder.depth = s.builder.depth := by
    unfold State.appendWith appendNumber guarantee
    split <;> exact ⟨rfl, rfl⟩
  exact hs.of_edits (edits_appendWith s op n) hq haround hbuilder.1 hbuilder.2
    (upcoming_appendWith s op n)

theorem wrote_appendWith (hs : Faces here ws s) {op : Opcode} (hop : op ≠ .return) (n : Nat)
    (hq : (s.appendWith op n).IsQuiet) :
    Wrote returns here (.exactly [op.toByte, n.toUInt8]) ws s (s.appendWith op n) where
  faces := hs.appendWith op n hq
  code := ⟨[op.toByte, n.toUInt8], adds_appendWith s hop n, fun _ _ => rfl⟩

/-- A constant is pooled under a number that fits in a byte. -/
theorem Faces.poolConstant (returns : Prop) (hs : Faces here ws s) {v : Value}
    (hv : ∀ f, v ≠ .function f)
    (hq : (s.poolConstant v).2.IsQuiet) :
    Faces here ws (s.poolConstant v).2 ∧ Adds returns s (s.poolConstant v).2 [] ∧
      ∀ pool, Includes pool (s.poolConstant v).2 →
        pool[((s.poolConstant v).1.toUInt8).toNat]? = some v := by
  obtain ⟨hlt, heq⟩ := poolConstant_eq hs.inOrder.toSane hq
  have hedits := edits_poolConstant hv s
  rw [heq] at hedits hq ⊢
  refine ⟨hs.of_edits hedits hq rfl rfl rfl rfl, ⟨(List.append_nil _).symm, ?_, .inl⟩, ?_⟩
  · intro k w hw
    show (s.builder.chunk.constants.push v)[k]? = some w
    rw [Array.getElem?_push, if_neg, hw]
    exact Nat.ne_of_lt (Array.getElem?_eq_some_iff.mp hw).1
  · intro pool hpool
    rw [toNat_toUInt8 hlt]
    exact hpool _ _ Array.getElem?_push_size

/-- A token that is needed is read. -/
theorem Faces.require (hs : Faces here (w :: ws) s) (hw : w.kind ≠ .endOfSource)
    {k : TokenKind} {what : Expected} (hq : (s.require k what).IsQuiet) :
    Faces here ws (s.require k what) ∧ Adds returns s (s.require k what) [] := by
  obtain ⟨-, heq⟩ := require_eq hs.inOrder.toSane hq
  rw [heq] at hq ⊢
  exact ⟨hs.read hw hq, adds_read hs.inOrder hq⟩

/-! ## Jumps -/

theorem Faces.openJump (hs : Faces here ws s) (op : Opcode) :
    Faces here ws (s.openJump op).2 :=
  hs.of_edits (Edit.openJump s op).edits hs.inOrder.quiet rfl rfl rfl rfl

theorem Faces.landJump (hs : Faces here ws s) {operand : Nat}
    (hq : (s.landJump operand).IsQuiet) : Faces here ws (s.landJump operand) := by
  obtain ⟨d, defects, -, heq⟩ := landJump_eq hs.inOrder.toSane hq
  have hedits := (Edit.landJump s operand).edits
  rw [heq] at hedits hq ⊢
  exact hs.of_edits hedits hq rfl rfl rfl rfl

/-- Landing a jump needs no constants. -/
theorem Includes.of_landJump {pool : Array Value} (hs : s.InOrder) {operand : Nat}
    (hq : (s.landJump operand).IsQuiet) (h : Includes pool (s.landJump operand)) :
    Includes pool s := by
  obtain ⟨d, defects, -, heq⟩ := landJump_eq hs.toSane hq
  rw [heq] at h
  exact h

theorem Faces.loopBack (hs : Faces here ws s) {start : Nat}
    (hq : (s.loopBack start).IsQuiet) : Faces here ws (s.loopBack start) := by
  obtain ⟨d, defects, -, heq⟩ := loopBack_eq hs.inOrder.toSane hq
  have hedits := (Edit.loopBack s start).edits
  rw [heq] at hedits hq ⊢
  exact hs.of_edits hedits hq rfl rfl rfl rfl

/-- A jump over code of some sort. -/
def CodeSort.jumped (op : Opcode) (A : CodeSort) : CodeSort := fun pool bytes =>
  ∃ a, ∃ d : UInt8, A pool a ∧ d.toNat = a.length ∧ bytes = [op.toByte, d] ++ a

/-- A jump goes over what was written since it was opened. -/
theorem wrote_jump {returns' : Prop} {op : Opcode} (hop : op ≠ .return)
    (h : Wrote returns here A ws (s.openJump op).2 t)
    (hq : (t.landJump (s.openJump op).1).IsQuiet) :
    Wrote returns' here (A.jumped op) ws s (t.landJump (s.openJump op).1) := by
  obtain ⟨a, hadds, ha⟩ := h.code
  have hopened : Adds returns s t ([] ++ [op.toByte, 0xff] ++ a) :=
    (adds_openJump s op hop).trans hadds
  obtain ⟨d, hd, hlanded⟩ := adds_landJump hopened h.faces.inOrder rfl hq
  exact ⟨h.faces.landJump hq, _, hlanded, fun pool hpool =>
    ⟨a, d, ha pool (hpool.of_landJump h.faces.inOrder hq), hd, rfl⟩⟩

/-- A jump over code that ends with a jump over other code. -/
def CodeSort.branches (A B : CodeSort) : CodeSort := fun pool bytes =>
  ∃ a b, ∃ past out : UInt8, A pool a ∧ B pool b ∧ past.toNat = a.length + 2 ∧
    out.toNat = b.length ∧ bytes = [Opcode.jumpIfFalse.toByte, past] ++ a ++
      [Opcode.jump.toByte, out] ++ b

/-- Of two pieces of code that exclude each other, the first one ends by going to the
end of the second one. -/
theorem wrote_branches {returns' returns'' : Prop}
    (h : Wrote returns here A ws (s.openJump .jumpIfFalse).2 t)
    (hq : ((t.openJump .jump).2.landJump (s.openJump .jumpIfFalse).1).IsQuiet)
    (k : Wrote returns' here' B ws' ((t.openJump .jump).2.landJump
      (s.openJump .jumpIfFalse).1) u)
    (hq' : (u.landJump (t.openJump .jump).1).IsQuiet) :
    Wrote returns'' here' (A.branches B) ws' s (u.landJump (t.openJump .jump).1) := by
  obtain ⟨a, hadds, ha⟩ := h.code
  obtain ⟨b, hadds', hb⟩ := k.code
  have hbefore := (adds_openJump s .jumpIfFalse nofun).trans hadds
  have hopened : Adds returns s (t.openJump .jump).2 ([] ++ [Opcode.jumpIfFalse.toByte, 0xff] ++
      (a ++ [Opcode.jump.toByte, 0xff])) := by
    simpa using hbefore.trans (adds_openJump t .jump nofun)
  obtain ⟨past, hover, hlanded⟩ := adds_landJump hopened
    (h.faces.openJump .jump).inOrder rfl hq
  have hsecond : Adds returns' s u (([Opcode.jumpIfFalse.toByte, past] ++ a) ++
      [Opcode.jump.toByte, 0xff] ++ b) := by
    simpa using hlanded.trans hadds'
  have hcode : (t.openJump .jump).1 =
      s.codeSize + ([Opcode.jumpIfFalse.toByte, past] ++ a).length + 1 := by
    show t.codeSize + 1 = _
    rw [hbefore.codeSize]
    simp
  obtain ⟨out, hout, hlanded'⟩ := adds_landJump hsecond k.faces.inOrder hcode hq'
  refine ⟨k.faces.landJump hq', _, hlanded', fun pool hpool => ?_⟩
  have hlater := hpool.of_landJump k.faces.inOrder hq'
  have hearlier := (hlater.of_adds hadds').of_landJump (h.faces.openJump .jump).inOrder hq
  refine ⟨a, b, past, out, ha pool hearlier, hb pool hlater, ?_, hout, rfl⟩
  rw [hover, List.length_append]
  rfl

end Wrote

end ScriptEngine.Compile
