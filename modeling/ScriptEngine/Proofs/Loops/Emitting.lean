import ScriptEngine.Proofs.Compile.StatementCode
import ScriptEngine.Proofs.Loops.Declarations
import ScriptEngine.Proofs.Tree.Writing
set_option autoImplicit false

/-!
# Compiling to pieces

`Emits` says that the compiler has written the code of a piece and has captured the variables of
the piece on the way.  It is stated between two states, so that pieces in a row are written one
after the other (`Emits.append`) and jumps can be put around them.
-/

namespace ScriptEngine.Compile

open State ScriptEngine.Tree

/-! ## Names in scope -/

/-- The names of the locals of some functions. -/
def localNames (bs : List Builder) : List (List String) := bs.map fun b => b.locals.map Local.name

/-- The names in scope are the names of the locals. -/
structure Suits (ν : Naming) (s : State) : Prop where
  names : s.builder.locals.map Local.name = ν.names
  around : localNames s.around = ν.around
  isGlobal : ν.isGlobal = decide (s.builder.depth = 0)

section Suits

variable {ν : Naming} {s : State}

theorem Suits.length_around (h : Suits ν s) : ν.around.length = s.around.length := by
  rw [← h.around, localNames, List.length_map]

theorem Suits.length_names (h : Suits ν s) : ν.names.length = s.builder.locals.length := by
  rw [← h.names, List.length_map]

theorem Suits.openScope (h : Suits ν s) : Suits ν.inner s.openScope where
  names := h.names
  around := h.around
  isGlobal := rfl

end Suits

theorem names_of_raisedAll {ls ls' : List Local} (h : RaisedAll ls ls') :
    ls'.map Local.name = ls.map Local.name := by
  induction h with
  | nil => rfl
  | cons hl _ ih => rw [List.map_cons, List.map_cons, hl.name, ih]

theorem localNames_of_grownAll {bs bs' : List Builder} (h : GrownAll bs bs') :
    localNames bs' = localNames bs := by
  induction h with
  | nil => rfl
  | cons hb _ ih =>
    rw [localNames, List.map_cons, names_of_raisedAll hb.locals]
    exact congrArg _ ih

/-! ## Apart from the code -/

/-- Some variables were captured, some locals declared and some functions finished. -/
structure Gains (homes : List Home) (declared : List String) (functions : Nat) (s t : State) :
    Prop where
  name : t.builder.name = s.builder.name
  arity : t.builder.arity = s.builder.arity
  depth : t.builder.depth = s.builder.depth
  names : t.builder.locals.map Local.name = declared ++ s.builder.locals.map Local.name
  around : localNames t.around = localNames s.around
  spread : Spread homes (s.builder :: s.around) (t.builder :: t.around)
  nextId : t.nextId = s.nextId + functions

section Gains

variable {homes homes' : List Home} {new new' : List String} {n n' : Nat} {s t u : State}

theorem Gains.trans (h : Gains homes new n s t) (k : Gains homes' new' n' t u) :
    Gains (homes ++ homes') (new' ++ new) (n + n') s u where
  name := k.name.trans h.name
  arity := k.arity.trans h.arity
  depth := k.depth.trans h.depth
  names := by rw [k.names, h.names, List.append_assoc]
  around := k.around.trans h.around
  spread := h.spread.trans k.spread
  nextId := by rw [k.nextId, h.nextId, Nat.add_assoc]

/-- Nothing is captured where captures stay and the same locals are captured. -/
theorem spread_of_marked {b b' : Builder} (bs : List Builder) (hcaptures : b'.captures = b.captures)
    (hmarked : ∀ slot, Marked b'.locals slot ↔ Marked b.locals slot) :
    Spread [] (b :: bs) (b' :: bs) := by
  refine .cons ?_ (fun slot => ?_) (fun h _ => ?_) (spread_refl nofun)
  · simp only [homesOf, hcaptures, List.prefix_refl]
  · rw [hmarked, or_iff_left List.not_mem_nil]
  · rw [homesOf, homesOf, hcaptures, or_iff_left List.not_mem_nil]

theorem spread_same {b b' : Builder} (bs : List Builder) (hcaptures : b'.captures = b.captures)
    (hlocals : b'.locals = b.locals) : Spread [] (b :: bs) (b' :: bs) :=
  spread_of_marked bs hcaptures fun _ => by rw [hlocals]

theorem gains_of_same (hname : t.builder.name = s.builder.name)
    (harity : t.builder.arity = s.builder.arity) (hdepth : t.builder.depth = s.builder.depth)
    (hlocals : t.builder.locals = s.builder.locals)
    (hcaptures : t.builder.captures = s.builder.captures) (haround : t.around = s.around)
    (hid : t.nextId = s.nextId) : Gains [] [] 0 s t where
  name := hname
  arity := harity
  depth := hdepth
  names := by rw [hlocals, List.nil_append]
  around := by rw [haround]
  spread := by
    rw [haround]
    exact spread_same _ hcaptures hlocals
  nextId := hid

/-- Code and constants do not matter. -/
theorem gains_withBuilder (s : State) (c : Chunk Value) (op : Option Opcode) (work : Nat)
    (defects : List Defect) :
    Gains [] [] 0 s (s.withBuilder { s.builder with chunk := c, lastOp := op } work defects) :=
  gains_of_same rfl rfl rfl rfl rfl rfl rfl

theorem Gains.level_eq (h : Gains homes new n s t) : t.around.length = s.around.length := by
  have hlength := h.spread.length_eq
  exact Nat.succ.inj hlength

theorem Gains.longer (h : Gains homes new n s t) :
    homesOf (s.builder :: s.around) <+: homesOf (t.builder :: t.around) := h.spread.longer

theorem Suits.gains {ν : Naming} (hν : Suits ν s) (h : Gains homes new n s t) :
    Suits (ν.declare new) t where
  names := by
    rw [h.names, hν.names]
    rfl
  around := h.around.trans hν.around
  isGlobal := by
    rw [h.depth]
    exact hν.isGlobal

/-- What declares nothing leaves the names in scope. -/
theorem Suits.keep {ν : Naming} (hν : Suits ν s) (h : Gains homes [] n s t) : Suits ν t :=
  hν.gains h

/-! ### Primitive operations -/

theorem gains_appendOp (s : State) (op : Opcode) : Gains [] [] 0 s (s.appendOp op) :=
  gains_of_same rfl rfl rfl rfl rfl rfl rfl

theorem gains_appendWith (s : State) (op : Opcode) (n : Nat) :
    Gains [] [] 0 s (s.appendWith op n) := by
  unfold State.appendWith appendNumber guarantee
  split <;> exact gains_of_same rfl rfl rfl rfl rfl rfl rfl

theorem gains_openJump (s : State) (op : Opcode) : Gains [] [] 0 s (s.openJump op).2 :=
  gains_of_same rfl rfl rfl rfl rfl rfl rfl

theorem gains_landJump (hs : s.Sane) {operand : Nat} (hq : (s.landJump operand).IsQuiet) :
    Gains [] [] 0 s (s.landJump operand) := by
  obtain ⟨d, defects, -, heq⟩ := landJump_eq hs hq
  rw [heq]
  exact gains_withBuilder ..

theorem gains_loopBack (hs : s.Sane) {start : Nat} (hq : (s.loopBack start).IsQuiet) :
    Gains [] [] 0 s (s.loopBack start) := by
  obtain ⟨d, defects, -, heq⟩ := loopBack_eq hs hq
  rw [heq]
  exact gains_withBuilder ..

theorem gains_poolConstant (hs : s.Sane) {v : Value} (hq : (s.poolConstant v).2.IsQuiet) :
    Gains [] [] 0 s (s.poolConstant v).2 := by
  obtain ⟨-, heq⟩ := poolConstant_eq hs hq
  rw [heq]
  exact gains_of_same rfl rfl rfl rfl rfl rfl rfl

theorem gains_read (hs : s.Sane) (hq : s.read.IsQuiet) : Gains [] [] 0 s s.read := by
  obtain ⟨t, rest, heq, -⟩ := read_eq hs hq
  rw [heq]
  exact gains_of_same rfl rfl rfl rfl rfl rfl rfl

end Gains

/-! ## With the code -/

/-- The code of a flow was written. -/
def WritesFlow (a : Flow) (s t : State) : Prop :=
  ∃ bytes, Adds True s t bytes ∧
    a.IsCode t.builder.chunk.constants s.around.length (homesOf (t.builder :: t.around)) bytes

/-- The last opcode is a return, and no jump ends behind it. -/
def State.hasReturned (s : State) : Bool := s.builder.lastOp = some .return

/-- The code of a piece was written, for which variables were captured, locals declared and
functions finished. -/
structure Emits (p : Piece) (s t : State) : Prop extends
    Gains p.homes p.declared p.functions s t where
  last : t.hasReturned = p.flow.endsInReturn s.hasReturned
  code : WritesFlow p.flow s t

section Emits

variable {p q : Piece} {ν : Naming} {a : Flow} {s t u : State} {bytes bytes' : List UInt8}

/-- Code stays code while the same function goes on. -/
theorem Emits.lift (h : Emits p t u)
    (ha : a.IsCode t.builder.chunk.constants t.around.length (homesOf (t.builder :: t.around))
      bytes) : a.IsCode u.builder.chunk.constants u.around.length
        (homesOf (u.builder :: u.around)) bytes := by
  obtain ⟨_, hadds, -⟩ := h.code
  rw [h.level_eq]
  exact ha.mono hadds.pool h.longer

theorem Emits.append (h : Emits p s t) (k : Emits q t u) : Emits (p ++ q) s u where
  toGains := h.toGains.trans k.toGains
  last := by
    rw [k.last, h.last]
    exact (Flow.endsInReturn_append ..).symm
  code := by
    obtain ⟨as, hadds, ha⟩ := h.code
    obtain ⟨bs, hadds', hb⟩ := k.code
    rw [← h.level_eq] at ha
    have ha := k.lift ha
    rw [k.level_eq, h.level_eq] at ha
    rw [h.level_eq] at hb
    exact ⟨as ++ bs, hadds.trans hadds', ha.append hb⟩

theorem Emits.suits (h : Emits p s t) (hν : Suits ν s) : Suits (ν.declare p.declared) t :=
  hν.gains h.toGains

/-- Nothing was written. -/
theorem emits_nothing (h : Gains [] [] 0 s t) (hchunk : t.builder.chunk = s.builder.chunk)
    (hlast : t.builder.lastOp = s.builder.lastOp) : Emits {} s t where
  toGains := h
  last := by
    unfold hasReturned
    rw [hlast]
    rfl
  code := ⟨[], adds_nil hchunk hlast, .nil⟩

theorem emits_refl (s : State) : Emits {} s s :=
  emits_nothing (gains_of_same rfl rfl rfl rfl rfl rfl rfl) rfl rfl

theorem emits_tick (s : State) : Emits {} s s.tick :=
  emits_nothing (gains_of_same rfl rfl rfl rfl rfl rfl rfl) rfl rfl

theorem emits_checkpoint (s : State) : Emits {} s s.checkpoint :=
  emits_nothing (gains_of_same rfl rfl rfl rfl rfl rfl rfl) rfl rfl

theorem emits_read (hs : s.Sane) (hq : s.read.IsQuiet) : Emits {} s s.read := by
  have hbuilder := builder_read hs hq
  exact emits_nothing (gains_read hs hq) (congrArg Builder.chunk hbuilder)
    (congrArg Builder.lastOp hbuilder)

/-- Nothing is written before a piece. -/
theorem Emits.after (h : Emits p t u) (hbefore : Emits {} s t) : Emits p s u := by
  have hboth := hbefore.append h
  rwa [Piece.nothing_append] at hboth

/-- Nothing is written behind a piece. -/
theorem Emits.before (h : Emits p s t) (hafter : Emits {} t u) : Emits p s u := by
  have hboth := h.append hafter
  rwa [Piece.append_nothing] at hboth

/-! ### Single instructions -/

/-- The flow is an instruction other than a return. -/
theorem emits_instruction (hgains : Gains [] [] 0 s t) (hadds : Adds True s t bytes)
    (hcode : a.IsCode t.builder.chunk.constants t.around.length (homesOf (t.builder :: t.around))
      bytes)
    (hlast : ∀ earlier, a.endsInReturn earlier = t.hasReturned) : Emits { flow := a } s t where
  toGains := hgains
  last := (hlast _).symm
  code := ⟨bytes, hadds, by rwa [← hgains.level_eq]⟩

theorem emits_appendOp (s : State) {op : Opcode} (hop : op.isDirect = true)
    (hcount : op.operandBytes = 0) : Emits (.ops [op]) s (s.appendOp op) := by
  refine emits_instruction (gains_appendOp s op) (adds_appendOp s fun _ => trivial)
    (Flow.isCode_plain (List.forall_mem_singleton.mpr ⟨hop, hcount⟩)) fun _ => ?_
  cases op <;> rfl

theorem emits_appendOps (ops : List Opcode)
    (hops : ∀ op ∈ ops, op.isDirect = true ∧ op.operandBytes = 0) (s : State) :
    Emits (.ops ops) s (ops.foldl appendOp s) := by
  induction ops generalizing s with
  | nil => exact emits_refl s
  | cons op ops ih =>
    obtain ⟨⟨hop, hcount⟩, hrest⟩ := List.forall_mem_cons.mp hops
    exact (emits_appendOp s hop hcount).append (ih hrest (s.appendOp op))

/-- An instruction with a number. -/
theorem emits_appendWith {op : Opcode} {n : Nat} (hop : op ≠ .return)
    (hcode : a.IsCode s.builder.chunk.constants s.around.length (homesOf (s.builder :: s.around))
      [op.toByte, n.toUInt8]) (hlast : ∀ earlier, a.endsInReturn earlier = false) :
    Emits { flow := a } s (s.appendWith op n) := by
  have hgains := gains_appendWith s op n
  have hadds : Adds True s (s.appendWith op n) [op.toByte, n.toUInt8] := adds_appendWith s hop n
  refine emits_instruction hgains hadds ?_ fun earlier => ?_
  · rw [hgains.level_eq]
    exact hcode.mono hadds.pool hgains.longer
  · have hop' : (s.appendWith op n).builder.lastOp = some op := by
      unfold State.appendWith appendNumber guarantee
      split <;> rfl
    rw [hlast, hasReturned, hop']
    simpa using hop

/-! ### Branches -/

/-- Landing a jump changes neither constants nor captures. -/
theorem same_landJump (ht : t.Sane) {operand : Nat} (hq : (t.landJump operand).IsQuiet) :
    (t.landJump operand).builder.chunk.constants = t.builder.chunk.constants ∧
      homesOf ((t.landJump operand).builder :: (t.landJump operand).around) =
        homesOf (t.builder :: t.around) ∧ (t.landJump operand).hasReturned = false := by
  obtain ⟨d, defects, -, heq⟩ := landJump_eq ht hq
  rw [heq]
  exact ⟨rfl, rfl, rfl⟩

/-- A piece that a condition skips. -/
theorem emits_skip (h : Emits p (s.openJump .jumpIfFalse).2 t) (hdeclared : p.declared = [])
    (ht : t.InOrder) (hq : (t.landJump (s.openJump .jumpIfFalse).1).IsQuiet) :
    Emits (.split p {}) s (t.landJump (s.openJump .jumpIfFalse).1) := by
  obtain ⟨as, hadds, ha⟩ := h.code
  obtain ⟨hpool, hhomes, hlast⟩ := same_landJump ht.toSane hq
  have hopened : Adds True s t ([] ++ [Opcode.jumpIfFalse.toByte, 0xff] ++ as) :=
    (adds_openJump s .jumpIfFalse nofun).trans hadds
  obtain ⟨past, hpast, hlanded⟩ := adds_landJump hopened ht rfl hq
  refine ⟨?_, hlast, _, hlanded, ?_⟩
  · have hgains := ((gains_openJump s .jumpIfFalse).trans h.toGains).trans
      (gains_landJump ht.toSane hq)
    simpa [Piece.split, hdeclared] using hgains
  · rw [hpool, hhomes]
    exact .skip ha hpast

/-- One of two pieces, by a condition. -/
theorem emits_split (h : Emits p (s.openJump .jumpIfFalse).2 t) (hdeclared : p.declared = [])
    (ht : t.InOrder)
    (hq : ((t.openJump .jump).2.landJump (s.openJump .jumpIfFalse).1).IsQuiet)
    (k : Emits q ((t.openJump .jump).2.landJump (s.openJump .jumpIfFalse).1) u)
    (hdeclared' : q.declared = []) (hu : u.InOrder)
    (hq' : (u.landJump (t.openJump .jump).1).IsQuiet) :
    Emits (.split p q) s (u.landJump (t.openJump .jump).1) := by
  have ht' := (Edit.openJump t .jump).edits.inOrder ht ht.quiet
  obtain ⟨as, hadds, ha⟩ := h.code
  obtain ⟨bs, hadds', hb⟩ := k.code
  obtain ⟨hpool, hhomes, -⟩ := same_landJump ht'.toSane hq
  obtain ⟨hpool', hhomes', hlast⟩ := same_landJump hu.toSane hq'
  have hfirst : Adds True s (s.openJump .jumpIfFalse).2 _ := adds_openJump s .jumpIfFalse nofun
  have hbefore := hfirst.trans hadds
  have hopened : Adds True s (t.openJump .jump).2 ([] ++ [Opcode.jumpIfFalse.toByte, 0xff] ++
      (as ++ [Opcode.jump.toByte, 0xff])) := by
    simpa using hbefore.trans (adds_openJump t .jump nofun)
  obtain ⟨past, hpast, hlanded⟩ : ∃ past : UInt8, _ ∧ Adds True _ _ _ :=
    adds_landJump hopened ht' rfl hq
  have hsecond : Adds True s u (([Opcode.jumpIfFalse.toByte, past] ++ as) ++
      [Opcode.jump.toByte, 0xff] ++ bs) := by
    simpa using hlanded.trans hadds'
  have hplace : (t.openJump .jump).1 =
      s.codeSize + ([Opcode.jumpIfFalse.toByte, past] ++ as).length + 1 := by
    show t.codeSize + 1 = _
    rw [hbefore.codeSize]
    simp
  obtain ⟨out, hout, hlanded'⟩ := adds_landJump hsecond hu hplace hq'
  -- the first piece is still code at the end
  have hgains := ((gains_openJump s .jumpIfFalse).trans h.toGains).trans
    ((gains_openJump t .jump).trans (gains_landJump ht'.toSane hq))
  have ha' : p.flow.IsCode u.builder.chunk.constants s.around.length
      (homesOf (u.builder :: u.around)) as := by
    refine ha.mono (fun i v hv => hadds'.pool i v ?_) (List.IsPrefix.trans ?_ k.longer)
    · rw [hpool]
      exact hv
    · rw [hhomes]
      exact List.prefix_refl _
  rw [hgains.level_eq] at hb
  refine ⟨?_, hlast, _, hlanded', ?_⟩
  · have hall := (hgains.trans k.toGains).trans (gains_landJump hu.toSane hq')
    simpa [Piece.split, hdeclared, hdeclared'] using hall
  · rw [hpool', hhomes']
    refine .split ha' hb ?_ hout
    rw [hpast, List.length_append]
    rfl

/-! ### Loops -/

/-- The code of a round of a loop, which starts again some bytes before the round.  The second part
of the round may stand before the first one. -/
inductive IsRound (pool : Array Value) (level : Nat) (homes : List Home) (before : Nat) :
    Flow → List UInt8 → Prop where
  | plain {b : Flow} {bs : List UInt8} {back : UInt8} (body : b.IsCode pool level homes bs)
      (toStart : back.toNat = before + bs.length + 2) :
      IsRound pool level homes before b (bs ++ [Opcode.loop.toByte, back])
  | around {b i : Flow} {bs is : List UInt8} {beyond back again : UInt8}
      (body : b.IsCode pool level homes bs) (step : i.IsCode pool level homes is)
      (overStep : beyond.toNat = is.length + 2) (toStart : back.toNat = before + is.length + 4)
      (toStep : again.toNat = is.length + bs.length + 4) :
      IsRound pool level homes before (b ++ i)
        ([Opcode.jump.toByte, beyond] ++ is ++ [Opcode.loop.toByte, back] ++ bs ++
          [Opcode.loop.toByte, again])

/-- A round of a loop was written. -/
structure EmitsRound (before : Nat) (p : Piece) (s t : State) : Prop extends
    Gains p.homes [] p.functions s t where
  last : t.hasReturned = false
  code : ∃ bytes, Adds True s t bytes ∧ IsRound t.builder.chunk.constants s.around.length
    (homesOf (t.builder :: t.around)) before p.flow bytes

/-- A jump back changes neither constants nor captures. -/
theorem same_loopBack (ht : t.Sane) {start : Nat} (hq : (t.loopBack start).IsQuiet) :
    (t.loopBack start).builder.chunk.constants = t.builder.chunk.constants ∧
      homesOf ((t.loopBack start).builder :: (t.loopBack start).around) =
        homesOf (t.builder :: t.around) ∧ (t.loopBack start).hasReturned = false := by
  obtain ⟨d, defects, -, heq⟩ := loopBack_eq ht hq
  rw [heq]
  exact ⟨rfl, rfl, rfl⟩

/-- A round that is written as it runs. -/
theorem emitsRound_plain (h : Emits p s t) (hdeclared : p.declared = []) (ht : t.InOrder)
    {start : Nat} (hstart : start ≤ s.codeSize) (hq : (t.loopBack start).IsQuiet) :
    EmitsRound (s.codeSize - start) p s (t.loopBack start) := by
  obtain ⟨bs, hadds, hb⟩ := h.code
  obtain ⟨hpool, hhomes, hlast⟩ := same_loopBack ht.toSane hq
  obtain ⟨back, hback, hadds', -⟩ := adds_loopBack True ht hq
  refine ⟨?_, hlast, _, hadds.trans hadds', ?_⟩
  · have hgains := h.toGains.trans (gains_loopBack ht.toSane hq)
    simpa [hdeclared] using hgains
  · rw [hpool, hhomes]
    refine .plain hb ?_
    rw [hback, hadds.codeSize]
    omega

/-- A round whose end is written first.  Its end goes back to the start of the loop, and the rest
of it back to its end. -/
theorem emitsRound_around (h : Emits q (s.openJump .jump).2 t) (hdeclared : q.declared = [])
    (ht : t.InOrder) {start : Nat} (hstart : start ≤ s.codeSize)
    (hq : ((t.loopBack start).landJump (s.openJump .jump).1).IsQuiet)
    (k : Emits p ((t.loopBack start).landJump (s.openJump .jump).1) u)
    (hdeclared' : p.declared = []) (hu : u.InOrder)
    (hq' : (u.loopBack (s.openJump .jump).2.codeSize).IsQuiet) :
    EmitsRound (s.codeSize - start) (p ++ q) s (u.loopBack (s.openJump .jump).2.codeSize) := by
  have hq₁ := (Edit.landJump _ _).isQuiet hq
  have ht' := (Edit.loopBack t start).edits.inOrder ht hq₁
  obtain ⟨is, hadds, hi⟩ := h.code
  obtain ⟨bs, hadds', hb⟩ := k.code
  obtain ⟨hpool, hhomes, -⟩ := same_loopBack ht.toSane hq₁
  obtain ⟨hpool', hhomes', -⟩ := same_landJump ht'.toSane hq
  obtain ⟨hpool'', hhomes'', hlast⟩ := same_loopBack hu.toSane hq'
  obtain ⟨back, hback, haddsBack, -⟩ := adds_loopBack True ht hq₁
  obtain ⟨again, hagain, haddsAgain, -⟩ := adds_loopBack True hu hq'
  have hfirst : Adds True s (s.openJump .jump).2 _ := adds_openJump s .jump nofun
  have hopened : Adds True s (t.loopBack start) ([] ++ [Opcode.jump.toByte, 0xff] ++
      (is ++ [Opcode.loop.toByte, back])) := by
    simpa using (hfirst.trans hadds).trans haddsBack
  obtain ⟨beyond, hover, hlanded⟩ : ∃ beyond : UInt8, _ ∧ Adds True _ _ _ :=
    adds_landJump hopened ht' rfl hq
  have hall := (hlanded.trans hadds').trans haddsAgain
  have hsize := hfirst.codeSize
  have hsize' := hadds.codeSize
  have hsize'' := (hlanded.trans hadds').codeSize
  simp only [List.length_append, List.length_cons, List.length_nil] at hsize hsize'' hover
  have hbefore := ((gains_openJump s .jump).trans h.toGains).trans
    ((gains_loopBack ht.toSane hq₁).trans (gains_landJump ht'.toSane hq))
  -- what is written first is still code at the end
  have hi' : q.flow.IsCode u.builder.chunk.constants s.around.length
      (homesOf (u.builder :: u.around)) is := by
    refine hi.mono (fun i v hv => hadds'.pool i v ?_) (List.IsPrefix.trans ?_ k.longer)
    · rw [hpool', hpool]
      exact hv
    · simp only [hhomes', hhomes, List.prefix_refl]
  rw [hbefore.level_eq] at hb
  refine ⟨?_, hlast, _, hall, ?_⟩
  · have hgains := (hbefore.trans k.toGains).trans (gains_loopBack hu.toSane hq')
    refine { hgains with names := ?_, spread := ?_, nextId := ?_ }
    · rw [hgains.names, hdeclared, hdeclared']
      rfl
    · refine hgains.spread.congr fun h _ => ?_
      simp [Piece.append_def, or_comm]
    · rw [hgains.nextId, Piece.append_def]
      simp [Nat.add_comm]
  · rw [hpool'', hhomes'']
    have hround : IsRound u.builder.chunk.constants s.around.length
        (homesOf (u.builder :: u.around)) (s.codeSize - start) (p ++ q).flow
        ([Opcode.jump.toByte, beyond] ++ is ++ [Opcode.loop.toByte, back] ++ bs ++
          [Opcode.loop.toByte, again]) := by
      refine .around hb hi' hover ?_ ?_
      · omega
      · omega
    simpa using hround

/-- A loop without a condition. -/
theorem emits_forever (h : EmitsRound 0 p s t) : Emits (.repeated none p) s t := by
  obtain ⟨bytes, hadds, hround⟩ := h.code
  refine ⟨h.toGains, h.last, bytes, hadds, ?_⟩
  show Flow.IsCode _ _ _ (.forever p.flow) bytes
  generalize p.flow = a at hround
  cases hround with
  | plain body toStart => exact .forever body (by omega)
  | around body step overStep toStart toStep =>
    exact .foreverAround body step overStep (by omega) toStep

/-- A loop with a condition, which is left by a jump over the round. -/
theorem emits_loop (h : Emits q s t) (hdeclared : q.declared = [])
    (k : EmitsRound (((t.openJump .jumpIfFalse).2.appendOp .pop).codeSize - s.codeSize) p
      ((t.openJump .jumpIfFalse).2.appendOp .pop) u) (hu : u.InOrder)
    (hq : (u.landJump (t.openJump .jumpIfFalse).1).IsQuiet) :
    Emits (.repeated (some q) p) s ((u.landJump (t.openJump .jumpIfFalse).1).appendOp .pop) := by
  obtain ⟨cs, hadds, hc⟩ := h.code
  obtain ⟨bytes, hadds', hround⟩ := k.code
  obtain ⟨hpool, hhomes, -⟩ := same_landJump hu.toSane hq
  have hbranch : Adds True t ((t.openJump .jumpIfFalse).2.appendOp .pop)
      [Opcode.jumpIfFalse.toByte, 0xff, Opcode.pop.toByte] :=
    (adds_openJump t .jumpIfFalse nofun).trans (adds_appendOp _ nofun)
  have hopened : Adds True s u (cs ++ [Opcode.jumpIfFalse.toByte, 0xff] ++
      (Opcode.pop.toByte :: bytes)) := by
    simpa using (hadds.trans hbranch).trans hadds'
  have hplace : (t.openJump .jumpIfFalse).1 = s.codeSize + cs.length + 1 := by
    show t.codeSize + 1 = _
    rw [hadds.codeSize]
  obtain ⟨past, hpast, hlanded⟩ : ∃ past : UInt8, _ ∧ Adds True _ _ _ :=
    adds_landJump hopened hu hplace hq
  have hpop : Adds True _ ((u.landJump (t.openJump .jumpIfFalse).1).appendOp .pop) _ :=
    adds_appendOp _ fun _ => trivial
  have hall := hlanded.trans hpop
  have hsize := (hadds.trans hbranch).codeSize
  simp only [List.length_append, List.length_cons, List.length_nil] at hsize
  have hbefore := (gains_openJump t .jumpIfFalse).trans (gains_appendOp _ .pop)
  have hlevel := (h.toGains.trans hbefore).level_eq
  have hc' : q.flow.IsCode u.builder.chunk.constants s.around.length
      (homesOf (u.builder :: u.around)) cs :=
    hc.mono (fun i v hv => (hbranch.trans hadds').pool i v hv)
      (List.IsPrefix.trans hbefore.longer k.longer)
  rw [hlevel] at hround
  refine ⟨?_, rfl, _, hall, ?_⟩
  · have hgains := ((h.toGains.trans hbefore).trans k.toGains).trans
      ((gains_landJump hu.toSane hq).trans (gains_appendOp _ .pop))
    simp only [List.append_nil, hdeclared, Nat.add_zero] at hgains
    exact hgains
  · generalize u.landJump (t.openJump .jumpIfFalse).1 = landed at hpool hhomes ⊢
    show Flow.IsCode landed.builder.chunk.constants _ (homesOf (landed.builder :: landed.around))
      (.loop q.flow p.flow) _
    rw [hpool, hhomes]
    generalize p.flow = a at hround
    cases hround with
    | @plain b bs back body toStart =>
      have hcode := Flow.IsCode.loop hc' body (by simpa using hpast) (show back.toNat = _ by omega)
      simpa using hcode
    | @around b i bs is beyond back again body step overStep toStart toStep =>
      have hpast' : past.toNat = is.length + bs.length + 7 := by
        simp at hpast
        omega
      have hcode := Flow.IsCode.loopAround hc' body step hpast' overStep
        (show back.toNat = _ by omega) (show again.toNat = _ by omega)
      simpa using hcode

/-! ### Scopes -/

theorem marked_cons_self {l : Local} {ls : List Local} :
    Marked (l :: ls) ls.length ↔ l.isCaptured = true := by
  unfold Marked
  rw [fromOldest_cons_self]
  simp

theorem marked_cons_of_lt {l : Local} {ls : List Local} {slot : Nat} (hslot : slot < ls.length) :
    Marked (l :: ls) slot ↔ Marked ls slot := by
  unfold Marked
  rw [fromOldest_cons_of_lt hslot]

theorem marked_append_of_lt {new old : List Local} {slot : Nat} (hslot : slot < old.length) :
    Marked (new ++ old) slot ↔ Marked old slot := by
  induction new with
  | nil => rfl
  | cons l new ih =>
    rw [List.cons_append, marked_cons_of_lt (by rw [List.length_append]; omega), ih]

theorem Marked.lt {ls : List Local} {slot : Nat} (h : Marked ls slot) : slot < ls.length := by
  obtain ⟨l, hl, -⟩ := h
  exact lt_of_fromOldest hl

/-- What retires the locals of a scope depends on which of them are captured. -/
theorem map_retirement {level : Nat} {homes : List Home} {new old : List Local}
    (h : ∀ slot, old.length ≤ slot → slot < (new ++ old).length →
      (Marked (new ++ old) slot ↔ ⟨level, slot⟩ ∈ homes)) :
    new.map Local.retirement = Piece.retirements level old.length homes new.length := by
  induction new with
  | nil => rfl
  | cons l new ih =>
    have hlength : (new ++ old).length = old.length + new.length := by
      rw [List.length_append, Nat.add_comm]
    have hfirst : l.isCaptured = true ↔ ⟨level, old.length + new.length⟩ ∈ homes := by
      rw [← h (old.length + new.length) (Nat.le_add_right ..) (by simp; omega), ← hlength,
        List.cons_append, marked_cons_self]
    rw [List.map_cons, List.length_cons, Piece.retirements, ih fun slot hle hlt => ?_]
    · unfold Local.retirement
      simp only [hfirst]
    · rw [← h slot hle (Nat.lt_succ_of_lt hlt), List.cons_append, marked_cons_of_lt hlt]

/-- Opening a scope around something and closing it spreads what is not retired. -/
theorem spread_closeScope {homes : List Home} {b b' : Builder} {bs bs' : List Builder}
    {new old : List Local} (depth : Nat) (h : Spread homes (b :: bs) (b' :: bs'))
    (hlocals : b'.locals = new ++ old) (hold : old.length = b.locals.length) :
    Spread (homes.filter fun h => !Piece.isRetired bs.length b.locals.length h) (b :: bs)
      ({ b' with depth, locals := old } :: bs') := by
  have hinner : ∀ h : Home, h.level < bs.length →
      (h ∈ homes ↔ h ∈ homes.filter fun h => !Piece.isRetired bs.length b.locals.length h) := by
    intro h hlevel
    simp [Piece.isRetired, Nat.ne_of_lt hlevel]
  cases h with
  | cons kept marked captured around =>
    refine .cons kept (fun slot => ?_) (fun h hlevel => ?_) (around.congr hinner)
    · show Marked old slot ↔ _
      by_cases hslot : slot < b.locals.length
      · have hmarked := marked slot
        rw [hlocals, marked_append_of_lt (hold ▸ hslot)] at hmarked
        rw [hmarked]
        simp [Piece.isRetired, hslot]
      · refine iff_of_false (fun hm => hslot (hold ▸ hm.lt)) ?_
        rintro (hm | hmem)
        · exact hslot hm.lt
        · have hkept := (List.mem_filter.mp hmem).2
          simp [Piece.isRetired] at hkept
          exact hslot hkept
    · rw [← hinner h hlevel]
      exact captured h hlevel

/-- A scope retires its locals. -/
theorem emits_closeScope (hν : Suits ν s) (hsettled : Settled s.builder)
    (hextends : Extends s.openScope.builder t.builder) (h : Emits p s.openScope t) :
    Emits (.inScope ν p) s t.closeScope := by
  obtain ⟨new, old, hlocals, hraised, hnew, -⟩ := hextends.locals
  have hraised : RaisedAll s.builder.locals old := hraised
  obtain ⟨defects, heq⟩ := closeScope_eq h.depth hlocals hnew fun l hl => by
    obtain ⟨l₀, hl₀, hd⟩ := raisedAll_depth hraised hl
    rw [hd]
    exact hsettled.depths l₀ hl₀
  have hold : old.length = s.builder.locals.length := hraised.length_eq.symm
  have hcount : p.declared.length = new.length := by
    have hnames := congrArg List.length h.names
    rw [hlocals, List.map_append, List.length_append, List.length_append, List.length_map,
      List.length_map, hold] at hnames
    change _ = p.declared.length + (s.builder.locals.map Local.name).length at hnames
    rw [List.length_map] at hnames
    omega
  have hretired : new.map Local.retirement =
      Piece.retirements ν.around.length ν.names.length p.homes p.declared.length := by
    rw [hν.length_around, hν.length_names, hcount, ← hold]
    refine map_retirement fun slot hle _ => ?_
    cases h.spread with
    | cons _ marked _ _ =>
      rw [← hlocals, marked]
      refine or_iff_right fun hm => ?_
      exact Nat.not_lt.mpr hle (hold ▸ hm.lt)
  -- the locals are retired after the scope has been left
  generalize hleft : t.withBuilder { t.builder with depth := s.builder.depth, locals := old }
    t.work defects = left at heq
  have hretire := emits_appendOps (Piece.retirements ν.around.length ν.names.length p.homes
    p.declared.length) (by
      rw [← hretired]
      intro op hop
      obtain ⟨l, -, rfl⟩ := List.mem_map.mp hop
      unfold Local.retirement
      split <;> exact ⟨rfl, rfl⟩) left
  rw [← hretired, List.foldl_map, hretired] at hretire
  rw [heq]
  generalize new.foldl (fun s l => s.appendOp l.retirement) left = u at hretire
  obtain ⟨bytes, hadds, hcode⟩ := h.code
  obtain ⟨bytes', hadds', hcode'⟩ := hretire.code
  refine ⟨⟨?_, ?_, ?_, ?_, ?_, ?_, ?_⟩, ?_, bytes ++ bytes', ?_, ?_⟩
  · exact hretire.name.trans (hleft ▸ h.name)
  · exact hretire.arity.trans (hleft ▸ h.arity)
  · exact hretire.depth.trans (hleft ▸ rfl)
  · refine hretire.names.trans ?_
    rw [← hleft]
    exact names_of_raisedAll hraised
  · exact hretire.around.trans (hleft ▸ h.around)
  · have hopened : Spread p.homes (s.builder :: s.around) (t.builder :: t.around) :=
      have hsame : Spread [] (s.builder :: s.around) (s.openScope.builder :: s.around) :=
        spread_same s.around rfl rfl
      hsame.trans h.spread
    have hspread := (spread_closeScope s.builder.depth hopened hlocals hold).trans
      (show Spread [] _ (u.checkpoint.builder :: u.checkpoint.around) from ?_)
    · rw [List.append_nil] at hspread
      unfold Piece.inScope
      rw [hν.length_around, hν.length_names]
      exact hspread
    · have hlater := hretire.spread
      rw [← hleft] at hlater
      exact hlater.trans (emits_checkpoint u).spread
  · refine hretire.nextId.trans ?_
    rw [← hleft]
    exact h.nextId
  · show u.hasReturned = _
    rw [hretire.last, ← hleft]
    show Flow.endsInReturn _ t.hasReturned = _
    rw [h.last]
    exact (Flow.endsInReturn_append ..).symm
  · have hbefore : Adds True s left bytes := by
      rw [← hleft]
      exact ⟨hadds.code, hadds.pool, hadds.last⟩
    have hall := hbefore.trans hadds'
    exact ⟨hall.code, hall.pool, hall.last⟩
  · have hlevel : left.around.length = s.around.length := by
      rw [← hleft]
      exact h.level_eq
    rw [hlevel] at hcode'
    refine Flow.IsCode.append (hcode.mono (fun i v hv => hadds'.pool i v ?_) ?_) hcode'
    · rw [← hleft]
      exact hv
    · refine List.IsPrefix.trans ?_ hretire.longer
      rw [← hleft]
      exact List.prefix_refl _

end Emits

end ScriptEngine.Compile
