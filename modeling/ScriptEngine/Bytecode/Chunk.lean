import ScriptEngine.Bytecode.Opcode
import ScriptEngine.Value
set_option autoImplicit false

/-!
# Bytecode: writing a chunk

Code is written byte by byte, each byte with its line.  A jump is written before
its distance is known: its operand is a placeholder that is filled in once the end
of the jump has been reached.  Distances are counted from the byte after the
operand and fit in one byte, or the jump is refused with the distance that would
have been needed.
-/

namespace ScriptEngine.Chunk

variable {Constant : Type}

/-! ## Emission -/

/-- The chunk with one more byte of code. -/
def append (c : Chunk Constant) (byte : UInt8) (line : Nat) : Chunk Constant :=
  { c with code := c.code.push byte, lines := c.lines.push line }

/-- The chunk with an opcode at its end. -/
def appendOp (c : Chunk Constant) (op : Opcode) (line : Nat) : Chunk Constant :=
  c.append op.toByte line

/-- The chunk with an opcode and one operand at its end. -/
def appendWith (c : Chunk Constant) (op : Opcode) (operand : UInt8)
    (line : Nat) : Chunk Constant :=
  (c.appendOp op line).append operand line

/-- The index of a new constant, and the chunk with it in its pool. -/
def pushConstant (c : Chunk Constant) (value : Constant) : Nat × Chunk Constant :=
  (c.constants.size, { c with constants := c.constants.push value })

/-! ## Jumps -/

/-- A distance as an operand byte, or the distance if it does not fit. -/
def distanceByte (distance : Nat) : Except Nat UInt8 :=
  if distance < 256 then .ok distance.toUInt8 else .error distance

/-- A jump whose operand is still open: where the operand stands, and the chunk
with the jump at its end. -/
def openJump (c : Chunk Constant) (op : Opcode) (line : Nat) :
    Nat × Chunk Constant :=
  (c.code.size + 1, c.appendWith op 0xff line)

/-- Lets the jump whose operand stands at `operand` end where the code ends
now. -/
def landJump (c : Chunk Constant) (operand : Nat) :
    Except Nat (Chunk Constant) :=
  match distanceByte (c.code.size - operand - 1) with
  | .ok byte => .ok { c with code := c.code.setIfInBounds operand byte }
  | .error distance => .error distance

/-- A jump back to `start` from the end of the code.  A distance that does not
fit is reported beside the chunk, which then has a zero for the operand. -/
def loopBack (c : Chunk Constant) (start line : Nat) :
    Except Nat Unit × Chunk Constant :=
  match distanceByte (c.code.size + 2 - start) with
  | .ok byte => (.ok (), c.appendWith .loop byte line)
  | .error distance => (.error distance, c.appendWith .loop 0 line)

/-! ## Sizes -/

theorem size_code_appendWith (c : Chunk Constant) (op : Opcode)
    (operand : UInt8) (line : Nat) :
    (c.appendWith op operand line).code.size = c.code.size + 2 := by
  simp [appendWith, appendOp, append]

theorem size_code_openJump (c : Chunk Constant) (op : Opcode) (line : Nat) :
    (c.openJump op line).2.code.size = c.code.size + 2 :=
  c.size_code_appendWith op 0xff line

end ScriptEngine.Chunk
