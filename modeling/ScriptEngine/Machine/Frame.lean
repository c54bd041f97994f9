import ScriptEngine.Machine.Fault
set_option autoImplicit false

/-!
# Machine: frames

A frame is one active call: the function, the cells it captured, the place in
its code, and its slots.  Slot 0 is the callee; parameters and locals follow,
and temporary values are on top.

Each operation either gives the frame after it or fails at the place in the code
that the frame had reached.  An instruction that fails leaves no frame behind:
the last one it had is dropped.
-/

namespace ScriptEngine

/-- The line of the byte before an offset, or zero if it has none. -/
def Chunk.lineBefore (c : Chunk Value) (ip : Nat) : Nat :=
  c.lines[ip - 1]?.getD 0

/-- An active call. -/
structure Frame where
  function : Function Value
  cells : Array Cell
  /-- The offset of the next byte to read. -/
  ip : Nat := 0
  /-- Lowest slot first. -/
  slots : Array Value

namespace Frame

/-- The code that the frame runs. -/
def chunk (f : Frame) : Chunk Value := f.function.chunk

/-- Breaks off at the place that the frame has reached. -/
def fail {α : Type} (f : Frame) (fault : Fault) : Attempt α :=
  .error ⟨fault, f.ip⟩

/-- What is there, or the fault that nothing is. -/
def expect {α : Type} (f : Frame) (fault : Fault) (found : Option α) :
    Attempt α :=
  match found with
  | some a => .ok a
  | none => f.fail fault

/-! ## Reading code -/

/-- Reads a byte. -/
def fetch (f : Frame) : Attempt (UInt8 × Frame) := do
  let byte ← f.expect (.codeExhausted f.ip) f.chunk.code[f.ip]?
  return (byte, { f with ip := f.ip + 1 })

/-- Reads the index of a constant.  Gives the constant. -/
def fetchConstant (f : Frame) : Attempt (Value × Frame) := do
  let (index, f) ← f.fetch
  let value ←
    f.expect (.constantOutOfRange index.toNat) f.chunk.constants[index.toNat]?
  return (value, f)

/-- Reads the index of a constant that is the name of a variable. -/
def fetchName (f : Frame) : Attempt (String × Frame) := do
  let (value, f) ← f.fetchConstant
  match value with
  | .string name => return (name, f)
  | other => f.fail (.notAName other.typeName)

/-- Reads the index of a constant that is a function. -/
def fetchFunction (f : Frame) : Attempt (Function Value × Frame) := do
  let (value, f) ← f.fetchConstant
  match value with
  | .function g => return (g, f)
  | other => f.fail (.notAFunction other.typeName)

/-- The opcode that comes next, if there is one. -/
def nextOpcode? (f : Frame) : Option Opcode :=
  f.chunk.code[f.ip]?.bind Opcode.ofByte?

/-! ## The stack -/

/-- Puts a value on top. -/
def push (f : Frame) (v : Value) : Frame := { f with slots := f.slots.push v }

/-- The value on top. -/
def peek (f : Frame) : Attempt Value := f.expect .stackUnderflow f.slots.back?

/-- Takes the value on top. -/
def pop (f : Frame) : Attempt (Value × Frame) := do
  let value ← f.peek
  return (value, { f with slots := f.slots.pop })

/-- Takes two values, the upper one second. -/
def popTwo (f : Frame) : Attempt (Value × Value × Frame) := do
  let (upper, f) ← f.pop
  let (lower, f) ← f.pop
  return (lower, upper, f)

/-- Takes two numbers, the upper one second. -/
def popTwoNumbers (f : Frame) : Attempt (Float × Float × Frame) := do
  match ← f.popTwo with
  | (.number x, .number y, f) => return (x, y, f)
  | (_, _, f) => f.fail .operandsNotNumbers

/-! ## Slots and cells -/

/-- The value in a slot. -/
def slot (f : Frame) (i : Nat) : Attempt Value :=
  f.expect (.slotOutOfRange i) f.slots[i]?

/-- Replaces the value in a slot. -/
def setSlot (f : Frame) (i : Nat) (v : Value) : Attempt Frame :=
  if i < f.slots.size then .ok { f with slots := f.slots.setIfInBounds i v }
  else f.fail (.slotOutOfRange i)

/-- One of the cells that the function captured. -/
def capturedCell (f : Frame) (i : Nat) : Attempt Cell :=
  f.expect (.upvalueOutOfRange i) f.cells[i]?

/-! ## Jumps -/

/-- Goes on `distance` bytes further ahead. -/
def jumpAhead (f : Frame) (distance : Nat) : Frame :=
  { f with ip := f.ip + distance }

/-- Goes on `distance` bytes back, which must not be before the code. -/
def jumpBack (f : Frame) (distance : Nat) : Attempt Frame :=
  if distance ≤ f.ip then .ok { f with ip := f.ip - distance }
  else f.fail (.loopBeforeStart f.ip)

/-- What the value on top is as a condition. -/
def condition (f : Frame) : Attempt Bool := do
  let value ← f.peek
  f.expect (.conditionNotTruth value.typeName) value.truth?

end Frame

end ScriptEngine
