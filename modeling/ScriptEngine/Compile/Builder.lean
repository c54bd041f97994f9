import ScriptEngine.Bytecode.Instruction
set_option autoImplicit false

/-!
# Compilation: functions under construction

While a function is being compiled, the compiler knows its code so far, the
locals in scope and the cells that it captures.  The locals stand in the order
of the slots they will have when the function runs, and slot 0 belongs to the
callee.  They are listed newest first, so that a name means the first local that
bears it and a local's slot is the number of locals behind it.

A name that is no local of the function may be one of a function around it.  It
is then captured: by the function it is looked up in, and by every function in
between (`captureFrom`).

`slotOf_lt` says that a slot lies among the locals, and `length_locals_capture`
that capturing a local moves none.
-/

namespace ScriptEngine.Compile

/-! ## Locals -/

/-- A local variable in scope. -/
structure Local where
  name : String
  /-- The scope it belongs to; absent while its initializer is compiled. -/
  depth : Option Nat
  /-- Some function inside captured it. -/
  isCaptured : Bool
  deriving DecidableEq, Repr, Inhabited

namespace Local

/-- The local in slot 0, which no name refers to. -/
def callee : Local := ⟨"", some 0, false⟩

/-- The local survives the end of the scopes deeper than `depth`. -/
def outlives (depth : Nat) (l : Local) : Bool :=
  match l.depth with
  | some d => d ≤ depth
  | none => false

/-- The local belongs to a scope around the one at `depth`. -/
def isOutside (depth : Nat) (l : Local) : Bool :=
  match l.depth with
  | some d => d < depth
  | none => false

/-- What retires the local: a captured one leaves its cell behind. -/
def retirement (l : Local) : Opcode :=
  if l.isCaptured then .closeUpvalue else .pop

end Local

/-- The slot of the newest local with a name, and that local. -/
def slotOf? (name : String) : List Local → Option (Nat × Local)
  | [] => none
  | l :: older => if l.name = name then some (older.length, l) else slotOf? name older

/-- The locals with the newest of a name marked as captured. -/
def capture (name : String) : List Local → List Local
  | [] => []
  | l :: older =>
      if l.name = name then { l with isCaptured := true } :: older
      else l :: capture name older

theorem slotOf_lt {name : String} {ls : List Local} {slot : Nat} {l : Local}
    (h : slotOf? name ls = some (slot, l)) : slot < ls.length := by
  induction ls with
  | nil => cases h
  | cons l' older ih =>
    unfold slotOf? at h
    split at h
    · cases h
      simp
    · exact Nat.lt_succ_of_lt (ih h)

theorem length_locals_capture (name : String) (ls : List Local) :
    (capture name ls).length = ls.length := by
  induction ls with
  | nil => rfl
  | cons l older ih =>
    unfold capture
    split
    · rfl
    · simp [ih]

/-! ## Builders -/

/-- How many slots, cells or constants one operand byte can tell apart. -/
def byteRange : Nat := 256

/-- The most parameters or arguments that a call can have. -/
def maxArguments : Nat := 255

/-- A place in the code where the frame holds the locals in scope and no other
value. -/
structure Checkpoint where
  offset : Nat
  /-- How many locals there are, the callee included. -/
  locals : Nat
  deriving DecidableEq, Repr, Inhabited

/-- A function under construction. -/
structure Builder where
  name : Option String := none
  arity : Nat := 0
  chunk : Chunk Value := .empty
  /-- Newest first. -/
  locals : List Local := []
  /-- How many scopes are open; none in the script's outermost code. -/
  depth : Nat := 0
  captures : List Capture := []
  /-- The last opcode written, unless a jump ends after it. -/
  lastOp : Option Opcode := none
  /-- Newest first. -/
  checkpoints : List Checkpoint := []

instance : Inhabited Builder := ⟨{}⟩

namespace Builder

/-- The start of a function. -/
def start (name : Option String) : Builder :=
  { name := name, locals := [.callee] }

/-- Notes that the frame holds the locals in scope and no other value here. -/
def checkpoint (b : Builder) : Builder :=
  { b with checkpoints := ⟨b.chunk.code.size, b.locals.length⟩ :: b.checkpoints }

/-- The position of a capture, which is added unless it is there already.
Absent if there is no room for another. -/
def addCapture? (b : Builder) (c : Capture) : Option (Nat × Builder) :=
  match b.captures.idxOf? c with
  | some i => some (i, b)
  | none =>
      if b.captures.length = byteRange then none
      else some (b.captures.length, { b with captures := b.captures ++ [c] })

/-- The finished function. -/
def finish (b : Builder) (id : Identity) : Function Value :=
  ⟨id, b.name, b.arity, b.captures.length, b.chunk⟩

end Builder

/-- A finished function, and what is known of its frame. -/
structure Finished where
  function : Function Value
  checkpoints : List Checkpoint
  deriving Inhabited

/-! ## Captures -/

/-- The outcome of looking for a name in the functions around one. -/
structure Captured where
  /-- The position among the captures of the function it was looked up in. -/
  index : Nat
  /-- Some function on the way had no room for another capture. -/
  isFull : Bool
  inner : Builder
  around : List Builder

/-- The capture of `c` by `inner`; without room for it, position 0 stands in. -/
def captureIn (inner : Builder) (around : List Builder) (c : Capture)
    (isFull : Bool) : Captured :=
  match inner.addCapture? c with
  | some (i, inner) => ⟨i, isFull, inner, around⟩
  | none => ⟨0, true, inner, around⟩

/-- Looks for a local with a name in the functions around `inner`, innermost
first.  The function next to the one that owns the local captures its slot, and
every further one inwards captures that capture. -/
def captureFrom (name : String) (inner : Builder) : List Builder → Option Captured
  | [] => none
  | outer :: around =>
      match slotOf? name outer.locals with
      | some (slot, _) =>
          let outer := { outer with locals := capture name outer.locals }
          some (captureIn inner (outer :: around) ⟨true, slot⟩ false)
      | none =>
          (captureFrom name outer around).map fun found =>
            captureIn inner (found.inner :: found.around)
              ⟨false, found.index⟩ found.isFull

end ScriptEngine.Compile
