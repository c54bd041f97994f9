import ScriptEngine.Machine.Frame
import ScriptEngine.Machine.Globals
import ScriptEngine.Machine.Host
import ScriptEngine.Machine.OpenCells
set_option autoImplicit false

/-!
# Machine: one instruction

The machine runs one frame at a time; the frames of the calls around it are
suspended.  A step reads an opcode and carries it out.  It either goes on, in
the same frame or another one, or finishes the program, or fails.

An instruction that fails leaves the machine as it was before, except that a
native which ends in an error keeps what it did.
-/

namespace ScriptEngine

/-! ## States -/

/-- All that a program can change, apart from the frame that is running. -/
structure Machine (World : Type) where
  /-- The suspended frames, innermost first. -/
  callers : List Frame := []
  openCells : OpenCells := #[]
  globals : Globals := {}
  store : Store := {}
  world : World

/-- Where a step leads. -/
inductive Progress (World : Type) where
  | running (frame : Frame) (machine : Machine World)
  /-- The outermost frame has returned. -/
  | finished (value : Value) (machine : Machine World)
  | failed (failure : Failure) (machine : Machine World)

namespace Machine

variable {World : Type}

/-- How many calls are suspended. -/
def depth (m : Machine World) : Nat := m.callers.length

/-- Where an attempt leads that began in the state `m`. -/
def conclude (m : Machine World) (attempt : Attempt (Frame × Machine World)) :
    Progress World :=
  match attempt with
  | .ok (frame, machine) => .running frame machine
  | .error failure => .failed failure m

/-! ## Operators -/

/-- The sum of two numbers, or one string followed by another. -/
def sum? : Value → Value → Option Value
  | .number x, .number y => some (.number (x + y))
  | .string s, .string t => some (.string (s ++ t))
  | _, _ => none

/-- Replaces two values by what `+` makes of them. -/
def add (f : Frame) : Attempt Frame := do
  let (x, y, f) ← f.popTwo
  return f.push (← f.expect .operandsNotAddable (sum? x y))

/-- Replaces two numbers by a number. -/
def arithmetic (op : Float → Float → Float) (f : Frame) : Attempt Frame := do
  let (x, y, f) ← f.popTwoNumbers
  return f.push (.number (op x y))

/-- Replaces two numbers by a truth value. -/
def comparison (op : Float → Float → Bool) (f : Frame) : Attempt Frame := do
  let (x, y, f) ← f.popTwoNumbers
  return f.push (.boolean (op x y))

/-- Replaces two values by whether they are equal. -/
def equality (f : Frame) : Attempt Frame := do
  let (x, y, f) ← f.popTwo
  return f.push (.boolean (x == y))

/-- Replaces a truth value by its opposite. -/
def negation (f : Frame) : Attempt Frame := do
  let (x, f) ← f.pop
  return f.push (.boolean (!(← f.expect .operandNotTruth x.truth?)))

/-- Replaces a number by its opposite. -/
def opposite (f : Frame) : Attempt Frame := do
  let (x, f) ← f.pop
  return f.push (.number (-(← f.expect .operandNotNumber x.number?)))

/-! ## Instructions within a frame -/

/-- Carries out an instruction that concerns nothing but the frame. -/
def runLocal (op : Opcode) (f : Frame) : Attempt Frame := do
  match op with
  | .constant =>
      let (value, f) ← f.fetchConstant
      return f.push value
  | .nil => return f.push .nil
  | .true => return f.push (.boolean true)
  | .false => return f.push (.boolean false)
  | .pop =>
      let (_, f) ← f.pop
      return f
  | .getLocal =>
      let (slot, f) ← f.fetch
      return f.push (← f.slot slot.toNat)
  | .setLocal =>
      let (slot, f) ← f.fetch
      f.setSlot slot.toNat (← f.peek)
  | .equal => equality f
  | .greater => comparison (fun x y => y < x) f
  | .less => comparison (fun x y => x < y) f
  | .add => add f
  | .subtract => arithmetic (· - ·) f
  | .multiply => arithmetic (· * ·) f
  | .divide => arithmetic (· / ·) f
  | .not => negation f
  | .negate => opposite f
  | .jump =>
      let (distance, f) ← f.fetch
      return f.jumpAhead distance.toNat
  | .jumpIfFalse =>
      let (distance, f) ← f.fetch
      return if ← f.condition then f else f.jumpAhead distance.toNat
  | .loop =>
      let (distance, f) ← f.fetch
      f.jumpBack distance.toNat
  | _ => return f

/-! ## Variables -/

/-- Pushes the value of a global. -/
def loadGlobal (m : Machine World) (f : Frame) : Attempt (Frame × Machine World) := do
  let (name, f) ← f.fetchName
  let value ← f.expect (.undefinedVariable name) (m.globals.get? name)
  return (f.push value, m)

/-- Takes a value and defines a global with it. -/
def introduceGlobal (m : Machine World) (f : Frame) :
    Attempt (Frame × Machine World) := do
  let (name, f) ← f.fetchName
  let (value, f) ← f.pop
  return (f, { m with globals := m.globals.define name value })

/-- Assigns to a global that is defined. -/
def storeGlobal (m : Machine World) (f : Frame) : Attempt (Frame × Machine World) := do
  let (name, f) ← f.fetchName
  let value ← f.peek
  let globals ← f.expect (.undefinedVariable name) (m.globals.assign? name value)
  return (f, { m with globals })

/-- Pushes the content of a captured cell. -/
def loadUpvalue (m : Machine World) (f : Frame) :
    Attempt (Frame × Machine World) := do
  let (index, f) ← f.fetch
  let cell ← f.capturedCell index.toNat
  return (f.push (m.store.read cell), m)

/-- Replaces the content of a captured cell. -/
def storeUpvalue (m : Machine World) (f : Frame) :
    Attempt (Frame × Machine World) := do
  let (index, f) ← f.fetch
  let value ← f.peek
  let cell ← f.capturedCell index.toNat
  return (f, { m with store := m.store.write cell value })

/-- Takes the value on top, whose slot then has no open cell any more. -/
def retireUpvalue (m : Machine World) (f : Frame) :
    Attempt (Frame × Machine World) := do
  let (_, f) ← f.pop
  return (f, { m with openCells := m.openCells.erase ⟨m.depth, f.slots.size⟩ })

/-! ## Closures -/

/-- The cell for a slot of the running frame: the one that is open, or a new one
with the value given. -/
def cellFor (m : Machine World) (slot : Nat) (v : Value) : Cell × Machine World :=
  let place : SlotPlace := ⟨m.depth, slot⟩
  match m.openCells.find? place with
  | some cell => (cell, m)
  | none =>
      let (cell, store) := m.store.alloc v
      (cell, { m with store, openCells := m.openCells.insert place cell })

/-- The cells that a closure has taken so far. -/
structure Taken where
  cells : Array Cell := #[]
  /-- The cell for the slot that the closure is about to be put into. -/
  own : Option Cell := none

/-- Reads what one more cell of a closure is taken from, and takes it.  A closure
may capture the very slot that it is about to be put into; that cell stays empty
until the closure is there. -/
def takeCell (m : Machine World) (f : Frame) (taken : Taken) :
    Attempt (Taken × Frame × Machine World) := do
  let (isLocal, f) ← f.fetch
  let (index, f) ← f.fetch
  let index := index.toNat
  if isLocal = 1 then
    if index = f.slots.size then
      let (cell, m) := m.cellFor index .nil
      return (⟨taken.cells.push cell, some cell⟩, f, m)
    else
      let (cell, m) := m.cellFor index (← f.slot index)
      return ({ taken with cells := taken.cells.push cell }, f, m)
  else
    let cell ← f.capturedCell index
    return ({ taken with cells := taken.cells.push cell }, f, m)

/-- Takes `count` more cells for a closure. -/
def takeCells : Nat → Machine World → Frame → Taken →
    Attempt (Taken × Frame × Machine World)
  | 0, m, f, taken => return (taken, f, m)
  | count + 1, m, f, taken => do
      let (taken, f, m) ← m.takeCell f taken
      takeCells count m f taken

/-- Puts a value into a cell, if there is one. -/
def fill (store : Store) (cell : Option Cell) (v : Value) : Store :=
  match cell with
  | some cell => store.write cell v
  | none => store

/-- Pushes a new closure of a function. -/
def closeOver (m : Machine World) (f : Frame) :
    Attempt (Frame × Machine World) := do
  let (function, f) ← f.fetchFunction
  let (taken, f, m) ← takeCells function.captureCount m f {}
  let (id, store) := m.store.freshId
  let closure := .closure ⟨id, function, taken.cells⟩
  return (f.push closure, { m with store := fill store taken.own closure })

/-! ## Calls -/

/-- How many values stand above slot `base`. -/
def argumentCount (f : Frame) (base : Nat) : Nat := f.slots.size - (base + 1)

/-- Refuses a call with another number of arguments than `expected`. -/
def wrongCount (m : Machine World) (f : Frame) (base expected : Nat) :
    Progress World :=
  .failed ⟨.wrongArgumentCount expected (argumentCount f base), f.ip⟩ m

/-- Suspends a frame and enters a function, whose slots are the callee and its
arguments, from slot `base` of the caller on. -/
def enter (m : Machine World) (f : Frame) (base : Nat) (function : Function Value)
    (cells : Array Cell) : Progress World :=
  if function.arity = argumentCount f base then
    .running { function, cells, slots := f.slots.extract base f.slots.size }
      { m with callers := { f with slots := f.slots.take base } :: m.callers }
  else m.wrongCount f base function.arity

/-- Lets the host carry out a native. -/
def invokeNative (m : Machine World) (host : Host World) (f : Frame) (base : Nat)
    (native : Native) : Progress World :=
  let arguments := (f.slots.extract (base + 1) f.slots.size).toList
  let reply := host.call native arguments m.store m.world
  let m := { m with store := reply.store, world := reply.world }
  match reply.result with
  | .ok value => .running ({ f with slots := f.slots.take base }.push value) m
  | .error message => .failed ⟨.native message, f.ip⟩ m

/-- Calls the value in slot `base` with the values above it. -/
def invoke (m : Machine World) (host : Host World) (f : Frame) (base : Nat)
    (callee : Value) : Progress World :=
  match callee with
  | .closure c => m.enter f base c.function c.cells
  | .function g => m.enter f base g #[]
  | .native n =>
      let expected := n.arity.getD (argumentCount f base)
      if expected = argumentCount f base then m.invokeNative host f base n
      else m.wrongCount f base expected
  | _ => .failed ⟨.notCallable, f.ip⟩ m

/-- Reads how many arguments there are, and calls the value below them. -/
def call (m : Machine World) (host : Host World) (f : Frame) : Progress World :=
  match f.fetch with
  | .error failure => .failed failure m
  | .ok (count, f) =>
      if f.slots.size ≤ count.toNat then .failed ⟨.stackUnderflow, f.ip⟩ m
      else
        let base := f.slots.size - (count.toNat + 1)
        m.invoke host f base (f.slots[base]?.getD .nil)

/-- Closes the open cells of the running frame, which are the last ones. -/
def closeFrame (m : Machine World) : Machine World :=
  if m.openCells.isEmpty then m
  else { m with openCells := m.openCells.below m.depth }

theorem openCells_closeFrame (m : Machine World) :
    m.closeFrame.openCells = m.openCells.below m.depth := by
  unfold closeFrame
  split
  · next h =>
    rw [Array.isEmpty_iff] at h
    simp [OpenCells.below, h]
  · rfl

/-- Ends the running frame.  The value on top is what the call gives. -/
def returnFrom (m : Machine World) (f : Frame) : Progress World :=
  match f.pop with
  | .error failure => .failed failure m
  | .ok (value, _) =>
      let m := m.closeFrame
      match m.callers with
      | caller :: callers => .running (caller.push value) { m with callers }
      | [] => .finished value m

/-! ## Steps -/

/-- Carries out an instruction whose opcode has been read. -/
def carryOut (m : Machine World) (host : Host World) (f : Frame) (op : Opcode) :
    Progress World :=
  match op with
  | .getGlobal => m.conclude (m.loadGlobal f)
  | .defineGlobal => m.conclude (m.introduceGlobal f)
  | .setGlobal => m.conclude (m.storeGlobal f)
  | .getUpvalue => m.conclude (m.loadUpvalue f)
  | .setUpvalue => m.conclude (m.storeUpvalue f)
  | .closeUpvalue => m.conclude (m.retireUpvalue f)
  | .closure => m.conclude (m.closeOver f)
  | .call => m.call host f
  | .return => m.returnFrom f
  | op => m.conclude ((runLocal op f).map fun f => (f, m))

/-- Reads an opcode. -/
def fetchOpcode (f : Frame) : Attempt (Opcode × Frame) := do
  let (byte, after) ← f.fetch
  let op ← after.expect (.unknownOpcode byte f.ip) (Opcode.ofByte? byte)
  return (op, after)

/-- Carries out the next instruction. -/
def step (m : Machine World) (host : Host World) (f : Frame) : Progress World :=
  match fetchOpcode f with
  | .error failure => .failed failure m
  | .ok (op, f) => m.carryOut host f op

/-- How many cells the next instruction makes room for before it takes the first one. -/
def roomAskedFor (f : Frame) : Nat :=
  match fetchOpcode f with
  | .ok (.closure, f) =>
      match f.fetchFunction with
      | .ok (function, _) => function.captureCount
      | .error _ => 0
  | _ => 0

/-- There is no room for `2 ^ 63` bytes or more, and a cell is a word of eight bytes. -/
def cellLimit : Nat := UInt64.size / 2 / 8

end Machine

end ScriptEngine
